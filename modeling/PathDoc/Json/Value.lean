import PathDoc.Json.Binary64

/-!
# PathDoc.Json.Value — documents

A document is a `Value`. An object is a list of members in the order in which they were added; the
operations on `Members` keep its keys distinct, and `Value.WellFormed` says that they are, all the
way down. `Value.beq` is equality up to the order of members.
-/

namespace PathDoc.Json

/-- An integer, or a number with a fraction or an exponent. -/
inductive Number where
  | int (i : Int)
  | float (x : Binary64)
deriving DecidableEq

/-- An integer equals no other kind of number. -/
protected def Number.beq : Number → Number → Bool
  | .int i, .int j => i == j
  | .float x, .float y => x.beq y
  | _, _ => false

/-- A document, or a node of one. -/
inductive Value where
  | null
  | bool (b : Bool)
  | num (n : Number)
  | str (s : String)
  | arr (items : List Value)
  | obj (members : List (String × Value))
deriving Inhabited

/-! ### the members of an object -/

/-- Keys with what they hold, in insertion order. -/
abbrev Members := List (String × Value)

namespace Members

/-- What the key holds. -/
def get? : Members → String → Option Value
  | [], _ => none
  | (k, v) :: rest, key => if k = key then some v else get? rest key

/-- Lets a present key hold another value, in its place. -/
def set : Members → String → Value → Members
  | [], _, _ => []
  | (k, v) :: rest, key, w => if k = key then (k, w) :: rest else (k, v) :: set rest key w

/-- Lets a key hold a value: a present key keeps its place, a new one goes to the end. -/
def put : Members → String → Value → Members
  | [], key, w => [(key, w)]
  | (k, v) :: rest, key, w => if k = key then (k, w) :: rest else (k, v) :: put rest key w

/-- Drops a key; the other members keep their order. -/
def erase (ms : Members) (key : String) : Members := ms.filter fun m => m.1 != key

/-- The members in reading order, where a repeated key keeps its first place and its last value. -/
def ofList (ms : List (String × Value)) : Members :=
  ms.foldl (fun acc m => put acc m.1 m.2) []

@[simp] theorem get?_nil (key : String) : get? [] key = none := rfl

theorem get?_cons (k key : String) (v : Value) (rest : Members) :
    get? ((k, v) :: rest) key = if k = key then some v else get? rest key := rfl

@[simp] theorem set_nil (key : String) (w : Value) : set [] key w = [] := rfl

theorem set_cons (k key : String) (v w : Value) (rest : Members) :
    set ((k, v) :: rest) key w = if k = key then (k, w) :: rest else (k, v) :: set rest key w := rfl

@[simp] theorem put_nil (key : String) (w : Value) : put [] key w = [(key, w)] := rfl

@[simp] theorem keys_set (ms : Members) (key : String) (w : Value) :
    (ms.set key w).map Prod.fst = ms.map Prod.fst := by
  induction ms with
  | nil => rfl
  | cons m rest ih =>
    obtain ⟨k, v⟩ := m
    rw [set_cons]
    split <;> simp [ih]

theorem put_eq_append {ms : Members} {key : String} (h : ms.get? key = none) (w : Value) :
    ms.put key w = ms ++ [(key, w)] := by
  induction ms with
  | nil => rfl
  | cons m rest ih =>
    obtain ⟨k, v⟩ := m
    rw [get?_cons] at h
    split at h
    · simp at h
    · next hk => simp [put, hk, ih h]

theorem put_eq_set {ms : Members} {key : String} {v : Value} (h : ms.get? key = some v)
    (w : Value) : ms.put key w = ms.set key w := by
  induction ms with
  | nil => simp at h
  | cons m rest ih =>
    obtain ⟨k, u⟩ := m
    rw [get?_cons] at h
    split at h
    · next hk => simp [put, set, hk]
    · next hk => simp [put, set, hk, ih h]

end Members

/-! ### kinds and equality of nodes -/

namespace Value

/-- Whether the node is an empty object or an empty array, which any value may take the place of. -/
def isEmptyContainer : Value → Bool
  | .obj ms => ms.isEmpty
  | .arr items => items.isEmpty
  | _ => false

/-- Whether the node can have children. -/
def isContainer : Value → Bool
  | .obj _ | .arr _ => true
  | _ => false

mutual

/-- Equality of documents, where the order of members does not count. -/
protected def beq : Value → Value → Bool
  | .null, .null => true
  | .bool a, .bool b => a == b
  | .num a, .num b => a.beq b
  | .str a, .str b => a == b
  | .arr xs, .arr ys => beqItems xs ys
  | .obj ms, .obj ns => ms.length == ns.length && beqMembers ms ns
  | _, _ => false

/-- Equality item by item. -/
def beqItems : List Value → List Value → Bool
  | [], [] => true
  | x :: xs, y :: ys => Value.beq x y && beqItems xs ys
  | _, _ => false

/-- Whether every member on the left has an equal one on the right. -/
def beqMembers : Members → Members → Bool
  | [], _ => true
  | (k, v) :: rest, ns =>
    (match Members.get? ns k with
      | some w => Value.beq v w
      | none => false) && beqMembers rest ns

end

instance : BEq Value := ⟨Value.beq⟩

mutual

/-- No object of the document has a key twice. -/
def WellFormed : Value → Prop
  | .arr items => WellFormedItems items
  | .obj ms => (ms.map Prod.fst).Nodup ∧ WellFormedMembers ms
  | _ => True

/-- Every item is well-formed. -/
def WellFormedItems : List Value → Prop
  | [] => True
  | x :: xs => WellFormed x ∧ WellFormedItems xs

/-- Every member holds a well-formed value. -/
def WellFormedMembers : Members → Prop
  | [] => True
  | (_, v) :: rest => WellFormed v ∧ WellFormedMembers rest

end

@[simp] theorem isEmptyContainer_obj_nil : isEmptyContainer (.obj []) = true := rfl

@[simp] theorem isEmptyContainer_arr_nil : isEmptyContainer (.arr []) = true := rfl

theorem isEmptyContainer_iff {v : Value} :
    v.isEmptyContainer = true ↔ v = .obj [] ∨ v = .arr [] := by
  cases v <;> simp [isEmptyContainer, List.isEmpty_iff]

end Value

end PathDoc.Json
