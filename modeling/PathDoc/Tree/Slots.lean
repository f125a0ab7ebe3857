import PathDoc.Json.Value
import PathDoc.Path.Segment

/-!
# PathDoc.Tree.Slots — positions to write to, and the room they need

A write lengthens an array with empty objects until every index of the segment has a place, and
resolves the indexes against the new length. An open span runs up to the old length, so it adds an
element. `Path.scaffold` is what a path makes out of nothing.
-/

namespace PathDoc

open Json

namespace Segment

/-- The length that writing at the segment asks of an array of length `len`: every index has a
place, and the steps of a span have as many. -/
def demand (s : Segment) (len : Nat) : Nat :=
  let is := s.indexList len
  let furthest := greatest (is.map Index.reach)
  match s with
  | span _ _ => max furthest is.length
  | _ => furthest

/-- The array with room for the segment. One with an excessive index gets none. -/
def makeRoom (s : Segment) (items : List Value) : List Value :=
  if s.excess?.isSome then items
  else items ++ List.replicate (s.demand items.length - items.length) (.obj [])

/-- The positions to write to in an array of length `len` that has been given room, each once and
in the segment's order. -/
def slots (s : Segment) (len : Nat) : List Nat :=
  if s.excess?.isSome then []
  else ((s.indexList len).filterMap (Index.position? · (max len (s.demand len)))).eraseDups

/-- An empty container of the kind that the segment needs. -/
def emptyContainer (s : Segment) : Value := if s.isPositional then .arr [] else .obj []

/-- A fresh container that holds the value at all that the segment denotes. -/
def enclose : Segment → Value → Value
  | member name, v => .obj [(name, v)]
  | s, v => .arr ((s.slots 0).foldl (fun items p => items.set p v) (s.makeRoom []))

@[simp] theorem demand_member (name : String) (len : Nat) : (member name).demand len = 0 := rfl

@[simp] theorem makeRoom_member (name : String) (items : List Value) :
    (member name).makeRoom items = items := by
  simp [makeRoom, excess?, spelled]

@[simp] theorem slots_member (name : String) (len : Nat) : (member name).slots len = [] := by
  simp [slots, excess?, spelled, indexList]

theorem length_makeRoom {s : Segment} {items : List Value} (h : s.excess? = none) :
    (s.makeRoom items).length = max items.length (s.demand items.length) := by
  rw [makeRoom, h, Option.isSome_none, if_neg Bool.false_ne_true, List.length_append,
    List.length_replicate]
  omega

@[simp] theorem enclose_member (name : String) (v : Value) :
    (member name).enclose v = .obj [(name, v)] := rfl

end Segment

/-- Fresh containers for all segments, with a leaf at the bottom. -/
def Path.scaffold (path : Path) (leaf : Value) : Value := path.foldr Segment.enclose leaf

@[simp] theorem Path.scaffold_nil (leaf : Value) : Path.scaffold [] leaf = leaf := rfl

@[simp] theorem Path.scaffold_cons (s : Segment) (rest : Path) (leaf : Value) :
    Path.scaffold (s :: rest) leaf = s.enclose (Path.scaffold rest leaf) := rfl

end PathDoc
