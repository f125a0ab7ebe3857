import PathDoc.Path.Location
import PathDoc.Path.Segment

/-!
# PathDoc.Tree.Children — the children of a node that a segment selects

`Segment.children` lists them with the step to each. A segment `fits` a node if the node has all
that it asks for: the member, or an array long enough for every index that it spells out.
-/

namespace PathDoc

open Json

namespace Segment

/-- The selected children that exist, in the segment's order. -/
def children : Segment → Value → List (Step × Value)
  | member name, .obj ms => ((Members.get? ms name).map fun c => (Step.key name, c)).toList
  | member _, _ => []
  | s, .arr items => (s.hits items.length).filterMap fun p => items[p]?.map fun c => (Step.pos p, c)
  | _, _ => []

/-- Whether the node has all that the segment asks for. -/
def fits : Segment → Value → Bool
  | member name, .obj ms => (Members.get? ms name).isSome
  | member _, _ => false
  | s, .arr items => s.reach ≤ items.length
  | _, _ => false

/-- Whether the node is of the kind that the segment needs: an array for positions, an object for a
member. -/
def suits (s : Segment) : Value → Bool
  | .obj _ => !s.isPositional
  | .arr _ => s.isPositional
  | _ => false

/-- The first spelled index that has no place in the node, with the length of the node, if it is an
array. -/
def outside? : Segment → Value → Option (Int × Nat)
  | s, .arr items => (s.firstOutside? items.length).map fun i => (i, items.length)
  | _, _ => none

@[simp] theorem children_member_obj (name : String) (ms : Members) :
    (member name).children (.obj ms) =
      ((Members.get? ms name).map fun c => (Step.key name, c)).toList := rfl

@[simp] theorem children_member_arr (name : String) (items : List Value) :
    (member name).children (.arr items) = [] := rfl

@[simp] theorem fits_member_obj (name : String) (ms : Members) :
    (member name).fits (.obj ms) = (Members.get? ms name).isSome := rfl

@[simp] theorem fits_index_arr (i : Int) (items : List Value) :
    (index i).fits (.arr items) = decide (Index.reach i ≤ items.length) := by
  simp only [fits, reach_index]

@[simp] theorem outside?_member (name : String) (v : Value) : (member name).outside? v = none := by
  cases v <;> rfl

end Segment

end PathDoc
