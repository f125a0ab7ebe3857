import PathDoc.Json.Value

/-!
# PathDoc.Path.Location — single nodes of a document

A location is a list of steps from the root, each to one child. `Value.get?` reads the node there
and `Value.replace?` puts another in its place, where there is one (`replace?_isSome`).
-/

namespace PathDoc

open Json

/-- One step from a node to a child. -/
inductive Step where
  /-- To the member with that key. -/
  | key (name : String)
  /-- To the element at that position. -/
  | pos (i : Nat)
deriving DecidableEq, Repr

/-- The way from the root of a document to a node. -/
abbrev Location := List Step

end PathDoc

namespace PathDoc.Json.Value

/-- The child one step away. -/
def child? : Value → Step → Option Value
  | .obj ms, .key k => Members.get? ms k
  | .arr items, .pos i => items[i]?
  | _, _ => none

/-- The node with another child one step away, where there is one. -/
def setChild : Value → Step → Value → Value
  | .obj ms, .key k, w => .obj (Members.set ms k w)
  | .arr items, .pos i, w => .arr (items.set i w)
  | v, _, _ => v

/-- The node at a location. -/
def get? : Value → Location → Option Value
  | v, [] => some v
  | v, step :: rest => (v.child? step).bind fun c => c.get? rest

/-- The document with another node at a location that it has. -/
def replace? : Value → Location → Value → Option Value
  | _, [], w => some w
  | v, step :: rest, w =>
    (v.child? step).bind fun c => (c.replace? rest w).map (v.setChild step)

@[simp] theorem get?_nil (v : Value) : v.get? [] = some v := by cases v <;> rfl

theorem get?_cons (v : Value) (step : Step) (rest : Location) :
    v.get? (step :: rest) = (v.child? step).bind fun c => c.get? rest := by cases v <;> rfl

@[simp] theorem replace?_nil (v w : Value) : v.replace? [] w = some w := by cases v <;> rfl

theorem replace?_cons (v w : Value) (step : Step) (rest : Location) :
    v.replace? (step :: rest) w =
      (v.child? step).bind fun c => (c.replace? rest w).map (v.setChild step) := by
  cases v <;> rfl

theorem get?_append (v : Value) (l m : Location) :
    v.get? (l ++ m) = (v.get? l).bind fun c => c.get? m := by
  induction l generalizing v with
  | nil => simp
  | cons step rest ih =>
    rw [List.cons_append, get?_cons, get?_cons]
    cases v.child? step with
    | none => rfl
    | some c => simp [ih]

/-- A location can be written exactly if it can be read. -/
theorem replace?_isSome (v w : Value) (l : Location) :
    (v.replace? l w).isSome = (v.get? l).isSome := by
  induction l generalizing v with
  | nil => simp
  | cons step rest ih =>
    rw [get?_cons, replace?_cons]
    cases v.child? step with
    | none => rfl
    | some c => simp [ih]

end PathDoc.Json.Value
