import PathDoc.Tree.Children

/-!
# PathDoc.Tree.Frontier — how far a document already holds a path

The walk follows every segment but the last, level by level. Where a segment selects several
children the branch splits in the segment's order; where the node lacks what the segment asks for
the branch is stuck and stays. The last segment is where new content goes, so the walk leaves it
out.
-/

namespace PathDoc

open Json

/-- The end of a walk: a node, and whether the walk could not go on from it. -/
structure Branch where
  place : Location
  node : Value
  stuck : Bool

namespace Branch

/-- The walk before its first segment. -/
def start (root : Value) : Branch := ⟨[], root, false⟩

/-- The child of a branch. -/
def stepTo (b : Branch) (step : Step) (node : Value) : Branch := ⟨b.place ++ [step], node, false⟩

/-- The branches that one segment makes of a branch. -/
def advance (s : Segment) (b : Branch) : List Branch :=
  if b.stuck then [b]
  else if s.fits b.node then (s.children b.node).map fun c => b.stepTo c.1 c.2
  else [{ b with stuck := true }]

theorem advance_of_stuck {b : Branch} (h : b.stuck = true) (s : Segment) : b.advance s = [b] := by
  simp [advance, h]

end Branch

namespace Frontier

/-- The branches after all segments, and the number of segments that were followed: the walk ends
when every branch is stuck. -/
def walk : Path → List Branch → List Branch × Nat
  | [], front => (front, 0)
  | s :: rest, front =>
    if front.all (·.stuck) then (front, 0)
    else
      let r := walk rest (front.flatMap (·.advance s))
      (r.1, r.2 + 1)

@[simp] theorem walk_nil (front : List Branch) : walk [] front = (front, 0) := rfl

theorem walk_cons (s : Segment) (rest : Path) (front : List Branch) :
    walk (s :: rest) front =
      if front.all (·.stuck) then (front, 0)
      else ((walk rest (front.flatMap (·.advance s))).1,
        (walk rest (front.flatMap (·.advance s))).2 + 1) := rfl

/-- A front of stuck branches stays as it is. -/
theorem flatMap_advance_of_all_stuck {front : List Branch} (h : front.all (·.stuck) = true)
    (s : Segment) : front.flatMap (·.advance s) = front := by
  induction front with
  | nil => rfl
  | cons b bs ih =>
    simp only [List.all_cons, Bool.and_eq_true] at h
    rw [List.flatMap_cons, Branch.advance_of_stuck h.1, ih h.2]
    rfl

/-- Stopping early changes no branch. -/
theorem walk_fst (path : Path) (front : List Branch) :
    (walk path front).1 = path.foldl (fun f s => f.flatMap (·.advance s)) front := by
  induction path generalizing front with
  | nil => rfl
  | cons s rest ih =>
    rw [walk_cons, List.foldl_cons, ← ih]
    split
    · next h =>
      rw [flatMap_advance_of_all_stuck h]
      clear ih
      induction rest with
      | nil => rfl
      | cons t rest ih => rw [walk_cons, if_pos h]
    · rfl

end Frontier

/-- The walk of all segments but the last, from the root. -/
def Json.Value.frontier (root : Value) (path : Path) : List Branch × Nat :=
  Frontier.walk path.dropLast [Branch.start root]

end PathDoc
