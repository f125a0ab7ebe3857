import PathDoc.Tree.Frontier

/-!
# PathDoc.Tree.Removal — taking nodes out of a document

The last segment of a path is applied to every node that the segments before it reach. What it
takes out of an array closes up, and comes back in the order of the array.
-/

namespace PathDoc

open Json

namespace Segment

/-- Whether the segment denotes the position `p` of an array of length `len`. A span with ends of
different signs denotes what lies outside them, from the end of the array around to its front. -/
def denotes (s : Segment) (len p : Nat) : Bool :=
  let n : Int := len
  let q : Int := p
  match s with
  | member _ => false
  | index i => Index.place? i len == some p
  | indexes is => is.contains q || is.contains (q - n)
  | span start stop =>
    let stop := stop.getD (n - 1)
    if 0 ≤ start then
      if 0 ≤ stop then min start stop ≤ q && q ≤ max start stop
      else q ≤ start || n + stop ≤ q
    else
      if 0 ≤ stop then n + start ≤ q || q ≤ stop
      else n + min start stop ≤ q && q ≤ n + max start stop

/-- Takes the denoted elements out of an array: the element itself for a single index, an array
of them otherwise, and what is left. -/
def pluck (s : Segment) (items : List Value) : Option Value × List Value :=
  match s with
  | index i =>
    match Index.place? i items.length with
    | some p => (items[p]?, items.eraseIdx p)
    | none => (none, items)
  | s =>
    let len := items.length
    let taken := items.zipIdx.filter fun e => s.denotes len e.2
    let kept := items.zipIdx.filter fun e => !s.denotes len e.2
    (if taken.isEmpty then none else some (.arr (taken.map Prod.fst)), kept.map Prod.fst)

/-- Takes out of a node what the segment denotes there. -/
def cut : Segment → Value → Option Value × Value
  | member name, .obj ms => (Members.get? ms name, .obj (Members.erase ms name))
  | member _, v => (none, v)
  | s, .arr items =>
    let r := s.pluck items
    (r.1, .arr r.2)
  | _, v => (none, v)

end Segment

namespace Removal

/-- Cuts at each branch in turn; an entry for each node that was reached. -/
def atBranches (last : Segment) : List Branch → Value → List (Option Value) × Value
  | [], root => ([], root)
  | b :: more, root =>
    match root.get? b.place with
    | none => atBranches last more root
    | some parent =>
      let cut := last.cut parent
      let r := atBranches last more ((root.replace? b.place cut.2).getD root)
      (cut.1 :: r.1, r.2)

@[simp] theorem atBranches_nil (last : Segment) (root : Value) :
    atBranches last [] root = ([], root) := rfl

end Removal

/-- Takes out what the path denotes: what came out at each node that holds the last segment, and
the document without it. -/
def Json.Value.prune (root : Value) (path : Path) : List (Option Value) × Value :=
  match path.getLast? with
  | none => ([], root)
  | some last =>
    let reached := (root.frontier path).1.filter fun b =>
      !b.stuck && b.place.length == path.length - 1
    Removal.atBranches last reached root

end PathDoc
