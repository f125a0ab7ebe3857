import PathDoc.Proofs.Capacity

/-!
# PathDoc.Proofs.Room — the room that a write makes, and the positions that it takes

A negative index has its position only once the length is known, and the length has to do for all
indexes of the segment.  In an array with room for a span two indexes of its walk never meet: they lie
less than the length of the array apart, and the two indexes of a position differ by just that length
(`Segment.eq_of_position?_eq`).  So a span is written at one position for each step of its walk, in its
order (`Segment.slots_of_isSpan`), and other segments at the positions of their indexes, each once.
-/

namespace PathDoc

open Json

namespace Segment

open Index

variable {s : Segment} {n p : ℕ} {i j : Int} {items : List Value}

/-- A segment that is no open span spells out an excessive index, or too wide a span, exactly if it asks
for more than `arrayLimit`. -/
theorem excess?_eq_none_iff (hc : s.isOpen = false) : s.excess? = none ↔ s.demand n ≤ arrayLimit := by
  refine ⟨fun hx => demand_le_of_closed hx hc n, fun h => ?_⟩
  obtain ⟨hreach, hsteps⟩ := demand_le_iff.mp h
  have hspelled : ∀ i ∈ s.spelled, Index.reach i ≤ arrayLimit := fun i hi =>
    hreach i (s.spelled_subset_indexList n hi)
  have hfind : s.spelled.find? isExcessive = none :=
    List.find?_eq_none.mpr fun i hi => by simpa [isExcessive] using hspelled i hi
  cases s with
  | span start stop =>
    cases stop with
    | none => exact absurd hc (by simp [isOpen])
    | some stop =>
      have hwide : (walk start stop).length ≤ arrayLimit := hsteps rfl
      rw [length_walk] at hwide
      exact excess?_span_eq_none_iff.mpr ⟨hspelled start (by simp [spelled]),
        hspelled stop (by simp [spelled]), hwide⟩
  | _ => exact hfind

/-! ### the positions -/

/-- Each index of a segment has a position in an array with room for it. -/
theorem exists_position? (h : i ∈ s.indexList n) :
    ∃ p < s.grown n, position? i (s.grown n) = some p :=
  reach_le_iff_exists_position?.mp ((reach_le_demand h).trans (le_max_right _ _))

/-- The positions of the indexes of a segment, in their order, in an array with room for it. -/
def positions (s : Segment) (n : ℕ) : List ℕ := (s.indexList n).filterMap (position? · (s.grown n))

theorem map_position? (s : Segment) (n : ℕ) :
    (s.indexList n).map (position? · (s.grown n)) = (s.positions n).map some := by
  unfold positions
  rw [List.map_filterMap, ← List.filterMap_eq_map, eq_comm]
  refine List.filterMap_congr fun i hi => ?_
  obtain ⟨p, -, hp⟩ := exists_position? hi
  rw [Function.comp_apply, hp]
  rfl

theorem slots_eq (hx : s.excess? = none) : s.slots n = (s.positions n).eraseDups := by
  rw [slots, hx, Option.isSome_none, if_neg Bool.false_ne_true]
  rfl

/-- **The steps of a walk do not meet** in an array with room for it. -/
theorem eq_of_position?_eq (hs : s.isSpan = true) (hi : i ∈ s.indexList n) (hj : j ∈ s.indexList n)
    (hip : position? i (s.grown n) = some p) (hjp : position? j (s.grown n) = some p) : i = j := by
  have hlong : (s.indexList n).length ≤ s.grown n :=
    (length_le_demand hs n).trans (le_max_right _ _)
  have hplace {k : Int} (hk : k ∈ s.indexList n) (hp : position? k (s.grown n) = some p) :
      k = p ∨ k = (p : Int) - s.grown n := by
    have hreach : Index.reach k ≤ s.grown n := (reach_le_demand hk).trans (le_max_right _ _)
    exact (place?_eq_some_iff.mp ((position?_eq_place? hreach).symm.trans hp)).2
  have hi' := hplace hi hip
  have hj' := hplace hj hjp
  cases s with
  | span start stop =>
    have hi := mem_walk.mp (show i ∈ walk start (stop.getD n) from hi)
    have hj := mem_walk.mp (show j ∈ walk start (stop.getD n) from hj)
    have hlong : (walk start (stop.getD n)).length ≤ _ := hlong
    rw [length_walk] at hlong
    omega
  | _ => simp [isSpan] at hs

theorem nodup_positions (hs : s.isSpan = true) (n : ℕ) : (s.positions n).Nodup := by
  have hwalk : (s.indexList n).Nodup := by
    cases s with
    | span start stop => exact nodup_walk _ _
    | _ => simp [isSpan] at hs
  have hmap : ((s.indexList n).map (position? · (s.grown n))).Nodup := by
    refine hwalk.map_on fun i hi j hj hij => ?_
    obtain ⟨p, -, hp⟩ := exists_position? hi
    exact eq_of_position?_eq hs hi hj hp (hij.symm.trans hp)
  rw [map_position?] at hmap
  exact hmap.of_map _

/-- **A span is written at one position for each step** of its walk, in its order. -/
theorem slots_of_isSpan (hx : s.excess? = none) (hs : s.isSpan = true) : s.slots n = s.positions n := by
  rw [slots_eq hx, eraseDups_of_nodup (nodup_positions hs n)]

/-! ### one array -/

/-- What an array becomes when it is given room for a segment, and where the segment lies in it: the
elements stay and empty objects follow, each index has its position, and the segment is written at
these positions in their order, without the repetitions; a span has none. -/
structure Allots (s : Segment) (items room : List Value) (slots : List ℕ) : Prop where
  room_eq : room = items ++ List.replicate (s.demand items.length - items.length) (.obj [])
  slots_eq : ∃ ps : List ℕ,
    (s.indexList items.length).map (position? · room.length) = ps.map some ∧ slots = ps.eraseDups
  nodup : slots.Nodup
  lt_length : ∀ p ∈ slots, p < room.length
  resolves : ∀ i ∈ s.indexList items.length, ∃ p ∈ slots, position? i room.length = some p
  steps_eq : s.isSpan = true →
    (s.indexList items.length).map (position? · room.length) = slots.map some
  length_eq : s.isSpan = true → slots.length = (s.indexList items.length).length

theorem allots (hx : s.excess? = none) (items : List Value) :
    s.Allots items (s.makeRoom items) (s.slots items.length) := by
  have hlen : (s.makeRoom items).length = s.grown items.length := length_makeRoom hx
  have hmap := s.map_position? items.length
  have hspan (hs : s.isSpan = true) := slots_of_isSpan (n := items.length) hx hs
  constructor
  case room_eq => rw [makeRoom, hx, Option.isSome_none, if_neg Bool.false_ne_true]
  case slots_eq => exact ⟨_, hlen ▸ hmap, slots_eq hx⟩
  case nodup => exact s.nodup_slots _
  case lt_length =>
    intro p hp
    rw [hlen]
    exact ((mem_slots hx).mp hp).1
  case resolves =>
    intro i hi
    obtain ⟨p, -, hp⟩ := exists_position? hi
    have hmem : p ∈ s.positions items.length := List.mem_filterMap.mpr ⟨i, hi, hp⟩
    rw [hlen, slots_eq hx]
    exact ⟨p, List.mem_eraseDups.mpr hmem, hp⟩
  case steps_eq =>
    intro hs
    rw [hlen, hspan hs, hmap]
  case length_eq =>
    intro hs
    have hlength := congrArg List.length hmap
    rw [List.length_map, List.length_map] at hlength
    rw [hspan hs, hlength]

/-- **The room that a write makes, and the positions that it takes.**  The array keeps its elements and
is lengthened with empty objects to the length that the segment asks for, which is the least one that
has a place for each of its indexes and as many as a span has steps.  The positions are those of the
indexes in their order, each once and within the array; those of a span are as many as its steps.  A
segment that is no open span is refused exactly if it asks for more than `arrayLimit`, and one that is
refused leaves the array as it is. -/
theorem room_and_slots (s : Segment) (items : List Value) :
    (∀ m, s.demand items.length ≤ m ↔
      (∀ i ∈ s.indexList items.length, Index.reach i ≤ m) ∧
        (s.isSpan = true → (s.indexList items.length).length ≤ m)) ∧
    (s.excess? = none → s.Allots items (s.makeRoom items) (s.slots items.length)) ∧
    (s.isOpen = false → (s.excess? ≠ none ↔ arrayLimit < s.demand items.length)) ∧
    (s.excess? ≠ none → s.makeRoom items = items ∧ s.slots items.length = []) := by
  refine ⟨fun m => demand_le_iff, fun hx => allots hx items, fun hc => ?_, fun hx => ?_⟩
  · rw [Ne, excess?_eq_none_iff (n := items.length) hc, not_le]
  · have hsome : s.excess?.isSome = true := Option.isSome_iff_ne_none.mpr hx
    exact ⟨if_pos hsome, if_pos hsome⟩

/-- A walk across zero over an array of one element: four steps need four positions.  A span that is
wider than `arrayLimit`, although neither of its ends reaches past it, is refused. -/
theorem room_and_slots_across_zero :
    let s := Segment.span (-2) (some 1)
    let wide := Segment.span (-524288) (some 524288)
    let room := [Value.null, .obj [], .obj [], .obj []]
    s.excess? = none ∧ s.Allots [.null] room [2, 3, 0, 1] ∧ wide.isOpen = false ∧
      wide.excess? = some 524288 ∧ arrayLimit < wide.demand 1 ∧ wide.makeRoom [.null] = [.null] := by
  intro s wide room
  obtain ⟨-, hallots, -, -⟩ := room_and_slots s [.null]
  obtain ⟨-, -, hiff, hrefused⟩ := room_and_slots wide [.null]
  have hx : s.excess? = none := by decide
  have hwide : wide.excess? = some 524288 := by decide
  have hne : wide.excess? ≠ none := by simp [hwide]
  exact ⟨hx, hallots hx, rfl, hwide, (hiff rfl).mp hne, (hrefused hne).1⟩

end Segment

end PathDoc
