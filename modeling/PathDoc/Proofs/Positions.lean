import Mathlib.Data.List.Nodup
import Mathlib.Order.Lattice
import PathDoc.Tree.Slots

/-!
# PathDoc.Proofs.Positions — the positions that reading and writing resolve

A position `p` of an array of length `n` has two indexes, `p` and `p - n` (`place?_eq_some_iff`), so
membership in `hits` and `slots` is membership of one of the two in the index list (`mem_hits`,
`mem_slots`).  A write first lengthens the array to `grown`, which has a place for each index and as many
as a span has steps (`demand_le_iff`), and an open span is then a different list of indexes for the
reader.  `hits_grown_subset_slots` says that the reader of the longer array finds nothing that the
write has missed, `mem_hits_grown_of_lt` that it finds every old position that the write has touched.
-/

namespace PathDoc

namespace Index

/-! ### one index -/

theorem place?_eq_some_iff {i : Int} {n p : ℕ} :
    place? i n = some p ↔ p < n ∧ (i = p ∨ i = (p : Int) - n) := by
  unfold place? position?
  by_cases hi : 0 ≤ i
  · rw [if_pos hi]
    simp only [Option.filter_some, decide_eq_true_eq, Option.ite_none_right_eq_some,
      Option.some.injEq]
    omega
  · rw [if_neg hi]
    by_cases hn : i.natAbs ≤ n
    · rw [if_pos hn]
      simp only [Option.filter_some, decide_eq_true_eq, Option.ite_none_right_eq_some,
        Option.some.injEq]
      omega
    · rw [if_neg hn]
      simp only [Option.filter_none, reduceCtorEq, false_iff]
      omega

/-- An index that reaches into the array has the same position for a writer and for a reader. -/
theorem position?_eq_place? {i : Int} {n : ℕ} (h : reach i ≤ n) : position? i n = place? i n := by
  obtain ⟨p, hp⟩ := Option.isSome_iff_exists.mp (place?_isSome_iff.mpr h)
  rw [hp]
  exact (Option.filter_eq_some_iff.mp hp).1

/-- From its reach on, and in no shorter array, an index has its position among the elements. -/
theorem reach_le_iff_exists_position? {i : Int} {n : ℕ} :
    reach i ≤ n ↔ ∃ p < n, position? i n = some p := by
  rw [← place?_isSome_iff, Option.isSome_iff_exists]
  refine exists_congr fun p => ?_
  rw [place?, Option.filter_eq_some_iff, decide_eq_true_eq, and_comm]

/-! ### a walk -/

/-- A walk reaches no further than its ends do. -/
theorem reach_le_of_mem_walk {a b i : Int} (h : i ∈ walk a b) : reach i ≤ max (reach a) (reach b) := by
  have hi := mem_walk.mp h
  unfold reach
  split_ifs <;> omega

/-- A walk comes to no index twice. -/
theorem nodup_walk (a b : Int) : (walk a b).Nodup := by
  have hup (a b : Int) : (upTo a b).Nodup :=
    List.nodup_range.map fun j k (h : a + (j : Int) = a + k) => by omega
  unfold walk
  split
  · exact hup a b
  · exact List.nodup_reverse.mpr (hup b a)

end Index

/-- A list without its repetitions has none. -/
theorem nodup_eraseDups {α : Type} [BEq α] [LawfulBEq α] : ∀ l : List α, l.eraseDups.Nodup
  | [] => by simp
  | a :: l => by
    rw [List.eraseDups_cons, List.nodup_cons]
    refine ⟨fun h => ?_, nodup_eraseDups _⟩
    simp [List.mem_eraseDups] at h
termination_by l => l.length
decreasing_by
  have := List.length_filter_le (fun b => !b == a) l
  simp only [List.length_cons]; omega

theorem eraseDups_of_nodup {α : Type} [BEq α] [LawfulBEq α] {l : List α} (h : l.Nodup) :
    l.eraseDups = l := by
  induction l with
  | nil => rfl
  | cons a l ih =>
    obtain ⟨ha, hl⟩ := List.nodup_cons.mp h
    have hrest : l.filter (fun b => !b == a) = l := by
      refine List.filter_eq_self.mpr fun b hb => ?_
      have hne : b ≠ a := fun he => ha (he ▸ hb)
      simpa using hne
    rw [List.eraseDups_cons, hrest, ih hl]

namespace Segment

open Index

/-! ### the index list -/

/-- Whether the segment is a span without an end. -/
def isOpen : Segment → Bool
  | span _ none => true
  | _ => false

/-- Whether the segment is a span. -/
def isSpan : Segment → Bool
  | span _ _ => true
  | _ => false

/-- Whether the segment denotes anything: its list of indexes, if it is one, is not empty. -/
def isProper : Segment → Bool
  | indexes is => !is.isEmpty
  | _ => true

/-- The length of an array that has been given room for the segment. -/
def grown (s : Segment) (n : ℕ) : ℕ := max n (s.demand n)

theorem isOpen_iff {s : Segment} : s.isOpen = true ↔ ∃ start, s = span start none := by
  cases s with
  | span start stop => cases stop <;> simp [isOpen]
  | _ => simp [isOpen]

/-- Only an open span depends on where it ends. -/
theorem indexList_eq_of_closed {s : Segment} (h : s.isOpen = false) (a b : Int) :
    s.indexList a = s.indexList b := by
  cases s with
  | span start stop =>
    cases stop with
    | none => simp [isOpen] at h
    | some stop => rfl
  | _ => rfl

theorem spelled_subset_indexList (s : Segment) (last : Int) : s.spelled ⊆ s.indexList last := by
  intro i hi
  cases s with
  | span start stop =>
    simp only [spelled, List.mem_cons, Option.mem_toList] at hi
    simp only [indexList, mem_walk]
    rcases hi with rfl | hi
    · omega
    · rw [Option.mem_def.mp hi, Option.getD_some]; omega
  | _ => exact hi

/-! ### the length that a segment asks for -/

/-- **What a segment asks for** is the least length in which each of its indexes has a place and, if it is
a span, there is room for each step of its walk. -/
theorem demand_le_iff {s : Segment} {n m : ℕ} : s.demand n ≤ m ↔
    (∀ i ∈ s.indexList n, Index.reach i ≤ m) ∧
      (s.isSpan = true → (s.indexList n).length ≤ m) := by
  have hfar : greatest ((s.indexList n).map Index.reach) ≤ m ↔
      ∀ i ∈ s.indexList n, Index.reach i ≤ m := by
    rw [greatest_le_iff, List.forall_mem_map]
  cases s with
  | span start stop =>
    rw [← hfar]
    refine Nat.max_le.trans (and_congr_right' ?_)
    exact ⟨fun h _ => h, fun h => h rfl⟩
  | _ => exact hfar.trans (and_iff_left fun h => absurd h Bool.false_ne_true).symm

theorem reach_le_demand {s : Segment} {n : ℕ} {i : Int} (h : i ∈ s.indexList n) :
    Index.reach i ≤ s.demand n := (demand_le_iff.mp le_rfl).1 i h

theorem length_le_demand {s : Segment} (hs : s.isSpan = true) (n : ℕ) :
    (s.indexList n).length ≤ s.demand n := (demand_le_iff.mp le_rfl).2 hs

theorem reach_le_iff_spelled {s : Segment} {n : ℕ} :
    s.reach ≤ n ↔ ∀ i ∈ s.spelled, Index.reach i ≤ n := by
  rw [reach, greatest_le_iff, List.forall_mem_map]

/-- An array holds what a span spells out exactly if both ends of its walk have a place, the last element
for the end of an open one. -/
theorem reach_span_le_iff {start : Int} {stop : Option Int} {n : ℕ} :
    (span start stop).reach ≤ n ↔
      Index.reach start ≤ n ∧ Index.reach (stop.getD ((n : Int) - 1)) ≤ n := by
  rw [reach_le_iff_spelled]
  cases stop with
  | none =>
    show (∀ i ∈ [start], Index.reach i ≤ n) ↔ _ ∧ Index.reach ((n : Int) - 1) ≤ n
    rw [List.forall_mem_singleton, iff_self_and]
    intro hstart
    -- the start has a place, so there is a last element
    have hpos := Index.reach_pos start
    unfold Index.reach
    split_ifs <;> omega
  | some stop =>
    show (∀ i ∈ [start, stop], Index.reach i ≤ n) ↔ _ ∧ Index.reach stop ≤ n
    rw [List.forall_mem_cons, List.forall_mem_singleton]

/-- It then holds the indexes in between as well. -/
theorem reach_le_iff_indexList {s : Segment} {n : ℕ} :
    s.reach ≤ n ↔ ∀ i ∈ s.indexList ((n : Int) - 1), Index.reach i ≤ n := by
  refine ⟨fun h i hi => ?_, fun h =>
    reach_le_iff_spelled.mpr fun i hi => h i (s.spelled_subset_indexList _ hi)⟩
  cases s with
  | span start stop =>
    obtain ⟨hstart, hstop⟩ := reach_span_le_iff.mp h
    exact (reach_le_of_mem_walk hi).trans (max_le hstart hstop)
  | _ => exact reach_le_iff_spelled.mp h i hi

/-- Every spelled index has a place once there is room. -/
theorem reach_le_grown (s : Segment) (n : ℕ) : s.reach ≤ s.grown n := by
  refine reach_le_iff_spelled.mpr fun i hi => ?_
  exact (reach_le_demand (s.spelled_subset_indexList n hi)).trans (le_max_right _ _)

/-! ### membership -/

theorem mem_hits {s : Segment} {n p : ℕ} :
    p ∈ s.hits n ↔ p < n ∧
      ((p : Int) ∈ s.indexList ((n : Int) - 1) ∨ (p : Int) - n ∈ s.indexList ((n : Int) - 1)) := by
  simp only [hits, List.mem_eraseDups, List.mem_filterMap, place?_eq_some_iff]
  constructor
  · rintro ⟨i, hi, hp, rfl | rfl⟩
    · exact ⟨hp, .inl hi⟩
    · exact ⟨hp, .inr hi⟩
  · rintro ⟨hp, hi | hi⟩
    · exact ⟨_, hi, hp, .inl rfl⟩
    · exact ⟨_, hi, hp, .inr rfl⟩

theorem mem_slots {s : Segment} {n p : ℕ} (h : s.excess? = none) :
    p ∈ s.slots n ↔ p < s.grown n ∧
      ((p : Int) ∈ s.indexList n ∨ (p : Int) - s.grown n ∈ s.indexList n) := by
  have hplace : ∀ i ∈ s.indexList n, position? i (s.grown n) = place? i (s.grown n) := fun i hi =>
    position?_eq_place? ((reach_le_demand hi).trans (le_max_right _ _))
  rw [slots, h, Option.isSome_none, if_neg Bool.false_ne_true, List.mem_eraseDups,
    List.mem_filterMap]
  constructor
  · rintro ⟨i, hi, hp⟩
    obtain ⟨hlt, rfl | rfl⟩ := place?_eq_some_iff.mp ((hplace i hi).symm.trans hp)
    · exact ⟨hlt, .inl hi⟩
    · exact ⟨hlt, .inr hi⟩
  · rintro ⟨hlt, hi | hi⟩
    · exact ⟨_, hi, (hplace _ hi).trans (place?_eq_some_iff.mpr ⟨hlt, .inl rfl⟩)⟩
    · exact ⟨_, hi, (hplace _ hi).trans (place?_eq_some_iff.mpr ⟨hlt, .inr rfl⟩)⟩

theorem lt_of_mem_hits {s : Segment} {n p : ℕ} (h : p ∈ s.hits n) : p < n := (mem_hits.mp h).1

theorem nodup_hits (s : Segment) (n : ℕ) : (s.hits n).Nodup := nodup_eraseDups _

theorem nodup_slots (s : Segment) (n : ℕ) : (s.slots n).Nodup := by
  unfold slots
  split
  · exact List.nodup_nil
  · exact nodup_eraseDups _

/-- A proper positional segment finds something in an array that holds all it spells out. -/
theorem hits_ne_nil {s : Segment} {n : ℕ} (hp : s.isPositional = true) (hs : s.isProper = true)
    (hn : s.reach ≤ n) : s.hits n ≠ [] := by
  have hspell : s.spelled ≠ [] := by
    cases s with
    | member name => simp [isPositional] at hp
    | indexes is => simpa [isProper, spelled] using hs
    | index i => simp [spelled]
    | span start stop => simp [spelled]
  obtain ⟨i, hi⟩ := List.exists_mem_of_ne_nil _ hspell
  have hr : Index.reach i ≤ n := reach_le_iff_spelled.mp hn i hi
  obtain ⟨p, hpl⟩ := Option.isSome_iff_exists.mp (place?_isSome_iff.mpr hr)
  have hmem : p ∈ s.hits n := by
    rw [hits, List.mem_eraseDups, List.mem_filterMap]
    exact ⟨i, s.spelled_subset_indexList _ hi, hpl⟩
  exact List.ne_nil_of_mem hmem

/-! ### reading after growth -/

/-- The room for an open span: its start and the old end have a place, and a walk across zero has
a position for each of its steps. -/
theorem grown_open (start : Int) (n : ℕ) :
    (span start none).grown n =
      if 0 ≤ start then max start.toNat n + 1 else n + start.natAbs + 1 := by
  have hle : ∀ i ∈ walk start n, Index.reach i ≤ (span start none).demand n := fun i hi =>
    reach_le_demand (s := span start none) hi
  have hstart := hle start (mem_walk.mpr (by omega))
  have hend := hle n (mem_walk.mpr (by omega))
  have hlen : (walk start n).length ≤ (span start none).demand n :=
    length_le_demand (s := span start none) rfl n
  have hup : (span start none).demand n ≤
      if 0 ≤ start then max start.toNat n + 1 else n + start.natAbs + 1 := by
    refine demand_le_iff.mpr ⟨fun i hi => ?_, fun _ => ?_⟩
    · have hi := mem_walk.mp (show i ∈ walk start n from hi)
      unfold Index.reach
      split_ifs <;> omega
    · show (walk start n).length ≤ _
      rw [length_walk]
      split_ifs <;> omega
  rw [length_walk] at hlen
  rw [reach_natCast] at hend
  unfold Index.reach at hstart
  unfold grown
  split_ifs at hup hstart ⊢ <;> omega

/-- All that a reader finds after the growth has been written. -/
theorem hits_grown_subset_slots {s : Segment} (h : s.excess? = none) (n : ℕ) :
    s.hits (s.grown n) ⊆ s.slots n := by
  intro p hp
  obtain ⟨hlt, hi⟩ := mem_hits.mp hp
  rw [mem_slots h]
  refine ⟨hlt, ?_⟩
  by_cases ho : s.isOpen = true
  · obtain ⟨start, rfl⟩ := isOpen_iff.mp ho
    have hg := grown_open start n
    simp only [indexList, Option.getD_none, mem_walk] at hi ⊢
    split_ifs at hg <;> omega
  · rwa [indexList_eq_of_closed (by simpa using ho) n ((s.grown n : Int) - 1)]

/-- An old position that has been written is found by a reader after the growth. -/
theorem mem_hits_grown_of_lt {s : Segment} (h : s.excess? = none) {n p : ℕ} (hp : p ∈ s.slots n)
    (hlt : p < n) : p ∈ s.hits (s.grown n) := by
  obtain ⟨hg, hi⟩ := (mem_slots h).mp hp
  rw [mem_hits]
  refine ⟨hg, ?_⟩
  by_cases ho : s.isOpen = true
  · obtain ⟨start, rfl⟩ := isOpen_iff.mp ho
    have hg' := grown_open start n
    simp only [indexList, Option.getD_none, mem_walk] at hi ⊢
    split_ifs at hg' <;> omega
  · rwa [indexList_eq_of_closed (by simpa using ho) _ n]

/-- The room for a span whose ends have a place: one position for each step of the walk, which has
more of them than the array only if it crosses zero. -/
theorem grown_closed {start stop : Int} {n : ℕ} (hn : (span start (some stop)).reach ≤ n) :
    (span start (some stop)).grown n = max n ((start - stop).natAbs + 1) := by
  obtain ⟨hstart, hstop⟩ : Index.reach start ≤ n ∧ Index.reach stop ≤ n := reach_span_le_iff.mp hn
  have hlen : (walk start stop).length ≤ (span start (some stop)).demand n :=
    length_le_demand (s := span start (some stop)) rfl n
  have hup : (span start (some stop)).demand n ≤ max n (walk start stop).length :=
    demand_le_iff.mpr ⟨fun i hi => (reach_le_of_mem_walk hi).trans
      ((max_le hstart hstop).trans (le_max_left _ _)), fun _ => le_max_right _ _⟩
  rw [length_walk] at hlen hup
  rw [grown]
  omega

/-- What a segment that is no open span asks for does not depend on the array. -/
theorem demand_eq_of_closed {s : Segment} (hc : s.isOpen = false) (m n : ℕ) :
    s.demand m = s.demand n := by
  unfold demand
  rw [indexList_eq_of_closed hc m n]

/-- In an array that has room for it, such a segment is written where it is read. -/
theorem slots_eq_hits {s : Segment} {n : ℕ} (h : s.excess? = none) (hc : s.isOpen = false)
    (hroom : s.demand n ≤ n) : s.slots n = s.hits n := by
  have hgrown : s.grown n = n := max_eq_left hroom
  have hlist := indexList_eq_of_closed hc n ((n : Int) - 1)
  have hplace : ∀ i ∈ s.indexList n, position? i n = place? i n := by
    intro i hi
    have hreach := reach_le_demand hi
    exact position?_eq_place? (hreach.trans hroom)
  have hslots : s.slots n = ((s.indexList n).filterMap (position? · (s.grown n))).eraseDups := by
    rw [slots, h, Option.isSome_none, if_neg Bool.false_ne_true]
    rfl
  rw [hslots, hgrown, List.filterMap_congr hplace, hlist, hits]

/-- In any array, it is written where it is read after the growth. -/
theorem slots_eq_hits_grown {s : Segment} (h : s.excess? = none) (hc : s.isOpen = false) (n : ℕ) :
    s.slots n = s.hits (s.grown n) := by
  have hdemand : s.demand (s.grown n) = s.demand n := demand_eq_of_closed hc _ _
  have hroom : s.demand (s.grown n) ≤ s.grown n := hdemand.le.trans (le_max_right _ _)
  have hsame : s.grown (s.grown n) = s.grown n := max_eq_left hroom
  have hslots : s.slots n = s.slots (s.grown n) := by
    have hlist := indexList_eq_of_closed hc n (s.grown n : Int)
    have hlen : max n (s.demand n) = max (s.grown n) (s.demand (s.grown n)) := hsame.symm
    unfold slots
    rw [hlist, hlen]
  rw [hslots, slots_eq_hits h hc hroom]

/-- All that a reader finds before the growth is written too, if every spelled index has a place by
then: a walk that makes the array grow covers all of it. -/
theorem hits_subset_slots {s : Segment} (h : s.excess? = none) {n : ℕ} (hn : s.reach ≤ n) :
    s.hits n ⊆ s.slots n := by
  intro p hp
  obtain ⟨hlt, hi⟩ := mem_hits.mp hp
  rw [mem_slots h]
  refine ⟨hlt.trans_le (le_max_left _ _), ?_⟩
  cases s with
  | span start stop =>
    cases stop with
    | none =>
      have hg := grown_open start n
      obtain ⟨hstart, -⟩ := reach_span_le_iff.mp hn
      unfold Index.reach at hstart
      simp only [indexList, Option.getD_none, mem_walk] at hi ⊢
      split_ifs at hg hstart <;> omega
    | some stop =>
      have hg := grown_closed hn
      simp only [indexList, Option.getD_some, mem_walk] at hi ⊢
      omega
  | _ =>
    -- a single index or a list has room already
    rw [grown, max_eq_left]
    · exact hi
    · exact hn

end Segment

end PathDoc
