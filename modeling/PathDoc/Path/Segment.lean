import PathDoc.Path.Index

/-!
# PathDoc.Path.Segment — paths and what their segments denote

A path is a list of segments. A segment names a member of an object or denotes positions of an
array. Reading and writing differ in where an open span ends: at the last element for a reader
(`hits`), one past it for a writer.
-/

namespace PathDoc

/-- One segment of a path. -/
inductive Segment where
  /-- The member of that name. -/
  | member (name : String)
  /-- One position. -/
  | index (i : Int)
  /-- The positions of a list, in its order. -/
  | indexes (is : List Int)
  /-- The positions from `start` to `stop`; without `stop`, to the end of the array. -/
  | span (start : Int) (stop : Option Int)
deriving DecidableEq, Repr

/-- What a path addresses, segment by segment from the root. -/
abbrev Path := List Segment

namespace Segment

open Index

/-- Whether the segment denotes positions of an array. -/
def isPositional : Segment → Bool
  | member _ => false
  | _ => true

/-- The indexes that the segment spells out. -/
def spelled : Segment → List Int
  | member _ => []
  | index i => [i]
  | indexes is => is
  | span start stop => start :: stop.toList

/-- The indexes that the segment denotes, in their order, where an open span ends at `last`. -/
def indexList (last : Int) : Segment → List Int
  | member _ => []
  | index i => [i]
  | indexes is => is
  | span start stop => walk start (stop.getD last)

/-- The greatest of some lengths, and zero of none. -/
def greatest (ns : List Nat) : Nat := ns.foldr max 0

/-- The least length of an array in which every spelled index has a place. -/
def reach (s : Segment) : Nat := greatest (s.spelled.map Index.reach)

/-- The positions of an array that the segment selects, each once, in the segment's order. -/
def hits (s : Segment) (len : Nat) : List Nat :=
  ((s.indexList ((len : Int) - 1)).filterMap (place? · len)).eraseDups

/-- The first spelled index without a place in an array. -/
def firstOutside? (s : Segment) (len : Nat) : Option Int :=
  s.spelled.find? fun i => (place? i len).isNone

/-- The index by which a write at the segment aims past `arrayLimit`: a single one that reaches
too far, or the end of a span that is too wide. -/
def excess? : Segment → Option Int
  | span start (some stop) =>
    if isExcessive start then some start
    else if isExcessive stop || decide (arrayLimit ≤ (start - stop).natAbs) then some stop
    else none
  | s => s.spelled.find? isExcessive

/-! ### first facts -/

@[simp] theorem greatest_nil : greatest [] = 0 := rfl

@[simp] theorem greatest_cons (n : Nat) (ns : List Nat) :
    greatest (n :: ns) = max n (greatest ns) := rfl

theorem greatest_le_iff {ns : List Nat} {m : Nat} : greatest ns ≤ m ↔ ∀ n ∈ ns, n ≤ m := by
  induction ns with
  | nil => simp
  | cons n ns ih => rw [greatest_cons, Nat.max_le, ih, List.forall_mem_cons]

@[simp] theorem spelled_member (name : String) : (member name).spelled = [] := rfl

@[simp] theorem reach_member (name : String) : (member name).reach = 0 := rfl

@[simp] theorem reach_index (i : Int) : (index i).reach = Index.reach i := by
  simp [reach, spelled]

@[simp] theorem hits_member (name : String) (len : Nat) : (member name).hits len = [] := rfl

/-- A segment reaches into an array exactly if all it spells has a place there. -/
theorem reach_le_iff {s : Segment} {len : Nat} : s.reach ≤ len ↔ s.firstOutside? len = none := by
  rw [reach, greatest_le_iff, firstOutside?, List.find?_eq_none]
  simp only [List.mem_map, forall_exists_index, and_imp, forall_apply_eq_imp_iff₂,
    Option.isNone_iff_eq_none, ← Option.isSome_iff_ne_none, place?_isSome_iff]

end Segment

end PathDoc
