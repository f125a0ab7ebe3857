import PathDoc.Proofs.Opening

/-!
# PathDoc.Proofs.Scaffolding — what a write makes out of nothing

`Path.scaffold` builds the containers for a path from the leaf up; a write opens them from the root
down, gives each array its room and puts empty objects in it first.  In an empty document the two
agree, for every path and every permission (`write_of_empty`).  The walk ahead of the writer does not
get into an empty node, except for a list of no indexes, which fits an empty array; but it finds no
element there, and the array is then what the list makes out of nothing (`Segment.enclose_of_fits`).
-/

namespace PathDoc

open Json

namespace Segment

variable {s : Segment} {node : Value}

/-- A segment that reaches nowhere, as it must in an empty array, spells out no index. -/
theorem spelled_eq_nil (h : s.reach ≤ 0) : s.spelled = [] := by
  refine List.eq_nil_iff_forall_not_mem.mpr fun i hi => ?_
  have hle := reach_le_iff_spelled.mp h i hi
  have hpos := Index.reach_pos i
  omega

/-- An empty node in which a segment fits has no children for it, and is the container that the segment
makes for any value. -/
theorem enclose_of_fits (he : node.isEmptyContainer = true) (hf : s.fits node = true) :
    s.steps node = [] ∧ ∀ v, s.enclose v = node := by
  cases hs : s.isPositional with
  | false =>
    obtain ⟨name, rfl⟩ := exists_eq_member hs
    obtain ⟨c, hc⟩ := fits_member_iff.mp hf
    rcases Value.isEmptyContainer_iff.mp he with rfl | rfl <;> simp [Value.child?] at hc
  | true =>
    obtain ⟨items, rfl, hreach⟩ := (fits_iff hs).mp hf
    have hitems : items = [] := by
      rcases Value.isEmptyContainer_iff.mp he with h | h
      · cases h
      · exact Value.arr.inj h
    subst hitems
    have hnil := spelled_eq_nil hreach
    cases s with
    | member name => cases hs
    | index i => simp [spelled] at hnil
    | span start stop => simp [spelled] at hnil
    | indexes is =>
      obtain rfl : is = [] := hnil
      exact ⟨rfl, fun v => rfl⟩

end Segment

namespace Write

variable {job : Job} {path : Path} {node : Value}

/-- The descent puts fresh containers in the place of an empty node. -/
theorem descend_of_isEmptyContainer (hne : path ≠ []) (he : node.isEmptyContainer = true) (job : Job) :
    descend job path node = .done (path.scaffold job.leaf) := by
  obtain ⟨s, rest, rfl⟩ := List.exists_cons_of_ne_nil hne
  rw [descend]
  split_ifs with h
  · obtain ⟨hsteps, hfresh⟩ := Segment.enclose_of_fits he h.2
    rw [hsteps, alongSteps_nil, Path.scaffold_cons, hfresh]
  · exact intoNode_of_isEmptyContainer he job s rest

end Write

/-- **A write into an empty document** comes to its end, whatever it may replace, and leaves the fresh
containers for its path with the leaf at the bottom. -/
theorem write_of_empty {path : Path} {root : Value} (hne : path ≠ [])
    (hx : ∀ s ∈ path, s.excess? = none) (hroot : root = .obj [] ∨ root = .arr []) (job : Job) :
    root.write path job = .done (path.scaffold job.leaf) := by
  have he : root.isEmptyContainer = true := Value.isEmptyContainer_iff.mpr hroot
  rw [write_eq_descend (Write.firstExcess?_eq_none_iff.mpr hx)]
  exact Write.descend_of_isEmptyContainer hne he job

/-- A walk across zero, with the lowest priority: there is a row for each of its three steps, and in each
row an open span goes backward from the second element. -/
theorem write_of_empty_across_zero :
    let path : Path := [.span 1 (some (-1)), .member "a", .span 1 none]
    let row := Value.obj [("a", .arr [.bool true, .bool true])]
    path ≠ [] ∧ (∀ s ∈ path, s.excess? = none) ∧
      (Value.arr []).write path ⟨.bool true, .low⟩ = .done (.arr [row, row, row]) := by
  intro path row
  have hne : path ≠ [] := List.cons_ne_nil _ _
  have hx : ∀ s ∈ path, s.excess? = none := by decide
  exact ⟨hne, hx, write_of_empty hne hx (.inr rfl) _⟩

end PathDoc
