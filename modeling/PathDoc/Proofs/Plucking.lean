import PathDoc.Proofs.Cutting

/-!
# PathDoc.Proofs.Plucking — taking elements out of one array

A removal tests each position of an array against the signs of the segment's ends, and treats a single
index apart.  Here it is put in terms of the positions that a reader resolves (`Segment.hits`).
`itemsAt` are the elements at these positions and `itemsBut` the others, both in the order of the
array; `Segment.pluck` hands back the first and leaves the second (`Segment.pluck_eq`).
-/

namespace PathDoc

open Json

/-! ### elements by their positions -/

/-- The elements at some positions, in the order of the array. -/
def itemsAt (ps : List ℕ) (items : List Value) : List Value :=
  (items.zipIdx.filter fun e => decide (e.2 ∈ ps)).map Prod.fst

/-- The elements at all other positions, in the order of the array. -/
def itemsBut (ps : List ℕ) (items : List Value) : List Value :=
  (items.zipIdx.filter fun e => !decide (e.2 ∈ ps)).map Prod.fst

theorem map_filter_zipIdx {α : Type} (l : List α) (a b k : ℕ) :
    ((l.zipIdx k).filter fun e => decide (a ≤ e.2 ∧ e.2 < b)).map Prod.fst =
      (l.take (b - k)).drop (a - k) := by
  induction l generalizing k with
  | nil => simp
  | cons x l ih =>
    rw [List.zipIdx_cons, List.filter_cons, apply_ite (List.map Prod.fst), List.map_cons, ih]
    by_cases hb : k < b
    · obtain ⟨c, hc⟩ : ∃ c, b - k = c + 1 := ⟨b - k - 1, by omega⟩
      have hc' : b - (k + 1) = c := by omega
      rw [hc, hc', List.take_succ_cons]
      by_cases ha : a ≤ k
      · have h0 : a - k = 0 := by omega
        have h0' : a - (k + 1) = 0 := by omega
        rw [if_pos (by simp [ha, hb]), h0, h0', List.drop_zero, List.drop_zero]
      · have h1 : a - k = a - (k + 1) + 1 := by omega
        rw [if_neg (by simp [ha]), h1, List.drop_succ_cons]
    · have h0 : b - k = 0 := by omega
      have h0' : b - (k + 1) = 0 := by omega
      rw [if_neg (by simp [hb]), h0, h0', List.take_zero, List.take_zero, List.drop_nil,
        List.drop_nil]

variable {ps : List ℕ} {items : List Value} {a b : ℕ}

/-- The elements from one position up to another. -/
theorem itemsAt_eq_drop_take (h : ∀ p < items.length, p ∈ ps ↔ a ≤ p ∧ p < b) :
    itemsAt ps items = (items.take b).drop a := by
  have hfilter := map_filter_zipIdx items a b 0
  rw [Nat.sub_zero, Nat.sub_zero] at hfilter
  rw [← hfilter, itemsAt]
  refine congrArg (List.map Prod.fst) (List.filter_congr fun e he => ?_)
  rw [decide_eq_decide]
  exact h e.2 (by have := (List.mem_zipIdx he).2.1; omega)

/-- The elements before the ones from some position on. -/
theorem itemsBut_eq_take (h : ∀ p < items.length, p ∈ ps ↔ a ≤ p) :
    itemsBut ps items = items.take a := by
  have hfilter := map_filter_zipIdx items 0 a 0
  rw [Nat.sub_zero, Nat.sub_zero, List.drop_zero] at hfilter
  rw [← hfilter, itemsBut]
  refine congrArg (List.map Prod.fst) (List.filter_congr fun e he => ?_)
  have hlt := (List.mem_zipIdx he).2.1
  have hiff := h e.2 (by omega)
  rw [← decide_not, decide_eq_decide, hiff]
  omega

@[simp] theorem itemsAt_nil (items : List Value) : itemsAt [] items = [] := by
  simp [itemsAt]

@[simp] theorem itemsBut_nil (items : List Value) : itemsBut [] items = items := by
  simp [itemsBut]

theorem itemsAt_singleton (p : ℕ) (items : List Value) : itemsAt [p] items = items[p]?.toList := by
  have hat : itemsAt [p] items = (items.take (p + 1)).drop p :=
    itemsAt_eq_drop_take fun q _ => by rw [List.mem_singleton]; omega
  rw [hat, List.drop_take, Nat.add_sub_cancel_left, List.take_one, List.head?_drop]

theorem itemsBut_singleton (p : ℕ) (items : List Value) : itemsBut [p] items = items.eraseIdx p := by
  rw [← Segment.eraseIdx_eq_map_filter items p 0, itemsBut]
  refine congrArg (List.map Prod.fst) (List.filter_congr fun e _ => ?_)
  simp

theorem itemsAt_ne_nil {p : ℕ} (hp : p ∈ ps) (hlt : p < items.length) : itemsAt ps items ≠ [] := by
  have hget : items[p]? = some items[p] := List.getElem?_eq_getElem hlt
  have hmem : (items[p], p) ∈ items.zipIdx.filter fun e => decide (e.2 ∈ ps) :=
    List.mem_filter.mpr ⟨List.mk_mem_zipIdx_iff_getElem?.mpr hget, decide_eq_true hp⟩
  exact List.ne_nil_of_mem (List.mem_map_of_mem hmem)

namespace Segment

variable {s : Segment} {n p : ℕ}

/-! ### one removal -/

/-- What is handed back for the elements that are taken out of one array: nothing if there are none, the
element itself for a single index, an array of them otherwise. -/
def handed? : Segment → List Value → Option Value
  | index _, taken => taken.head?
  | _, [] => none
  | _, taken => some (.arr taken)

theorem handed?_of_not_index (h : ∀ i, s ≠ index i) (taken : List Value) :
    s.handed? taken = if taken.isEmpty then none else some (.arr taken) := by
  cases s with
  | index i => exact absurd rfl (h i)
  | _ => cases taken <;> rfl

theorem handed?_eq_none_iff {taken : List Value} : s.handed? taken = none ↔ taken = [] := by
  cases s <;> cases taken <;> simp [handed?]

/-- A reader's positions are those of the segment's indexes that lie within the array. -/
theorem mem_hits_iff_exists : p ∈ s.hits n ↔
    p < n ∧ ∃ i ∈ s.indexList ((n : Int) - 1), Index.position? i n = some p := by
  simp only [hits, List.mem_eraseDups, List.mem_filterMap, Index.place?, Option.filter_eq_some_iff,
    decide_eq_true_eq]
  constructor
  · rintro ⟨i, hi, hp, hlt⟩
    exact ⟨hlt, i, hi, hp⟩
  · rintro ⟨hlt, i, hi, hp⟩
    exact ⟨i, hi, hp, hlt⟩

theorem pluck_of_not_index (h : ∀ i, s ≠ index i) (items : List Value) :
    s.pluck items = (s.handed? (itemsAt (s.hits items.length) items),
      itemsBut (s.hits items.length) items) := by
  have hpluck : s.pluck items =
      (if (items.zipIdx.filter fun e => s.denotes items.length e.2).isEmpty then none
        else some (.arr ((items.zipIdx.filter fun e => s.denotes items.length e.2).map Prod.fst)),
      (items.zipIdx.filter fun e => !s.denotes items.length e.2).map Prod.fst) := by
    cases s with
    | index i => exact absurd rfl (h i)
    | _ => rfl
  have hdenotes : ∀ e ∈ items.zipIdx,
      s.denotes items.length e.2 = decide (e.2 ∈ s.hits items.length) := by
    intro e he
    have hlt := (List.mem_zipIdx he).2.1
    rw [Bool.eq_iff_iff, decide_eq_true_eq, denotes_iff_mem_hits (by omega)]
  have htaken := List.filter_congr hdenotes
  have hkept := List.filter_congr fun e he => congrArg not (hdenotes e he)
  rw [hpluck, handed?_of_not_index h, htaken, hkept, itemsAt, itemsBut, List.isEmpty_map]

theorem pluck_index (i : Int) (items : List Value) :
    (index i).pluck items = ((index i).handed? (itemsAt ((index i).hits items.length) items),
      itemsBut ((index i).hits items.length) items) := by
  rw [hits_index, pluck]
  cases Index.place? i items.length with
  | none => simp [handed?]
  | some p =>
    rw [Option.toList_some, itemsAt_singleton, itemsBut_singleton, handed?, Option.head?_toList]

/-- **A removal takes the reader's positions** out of an array. -/
theorem pluck_eq (s : Segment) (items : List Value) :
    s.pluck items = (s.handed? (itemsAt (s.hits items.length) items),
      itemsBut (s.hits items.length) items) := by
  cases s with
  | index i => exact pluck_index i items
  | _ => exact pluck_of_not_index (by simp) items

theorem itemsAt_hits_eq_nil_iff : itemsAt (s.hits items.length) items = [] ↔
    s.hits items.length = [] := by
  refine ⟨fun h => ?_, fun h => by rw [h, itemsAt_nil]⟩
  by_contra hne
  obtain ⟨p, hp⟩ := List.exists_mem_of_ne_nil _ hne
  exact itemsAt_ne_nil hp (lt_of_mem_hits hp) h

/-- **Removal by resolving indexes.**  Out of an array are taken the elements at the positions of the
segment's indexes, as far as these lie within it, and the others are left, both in the order of the
array.  A single index takes one element at most, and hands back the element itself.  Nothing is handed
back exactly if there is no such position, and the array is then left as it is. -/
theorem pluck_takes_hits (s : Segment) (items : List Value) :
    let ps := s.hits items.length
    (∀ p, p ∈ ps ↔ p < items.length ∧
      ∃ i ∈ s.indexList ((items.length : Int) - 1), Index.position? i items.length = some p) ∧
    s.pluck items = (s.handed? (itemsAt ps items), itemsBut ps items) ∧
    (∀ i, s = .index i → (itemsAt ps items).length ≤ 1) ∧
    ((s.pluck items).1 = none ↔ ps = []) ∧
    (ps = [] → (s.pluck items).2 = items) := by
  intro ps
  have hpluck : s.pluck items = (s.handed? (itemsAt ps items), itemsBut ps items) := s.pluck_eq items
  refine ⟨fun p => mem_hits_iff_exists, hpluck, ?_, ?_, fun hnil => ?_⟩
  · rintro i rfl
    have hps : ps = (Index.place? i items.length).toList := hits_index i items.length
    rw [hps]
    cases Index.place? i items.length with
    | none => simp
    | some p =>
      rw [Option.toList_some, itemsAt_singleton]
      exact Option.length_toList_le
  · rw [hpluck, handed?_eq_none_iff, itemsAt_hits_eq_nil_iff]
  · rw [hpluck, hnil, itemsBut_nil]

/-- A walk that crosses zero downward, one past the end of the array, and an index that is too far back. -/
theorem pluck_takes_hits_across_zero :
    let items := [Value.str "a", .str "b", .str "c", .str "d"]
    let across := Segment.span 1 (some (-1))
    let past := Segment.span 9 (some 4)
    let back := Segment.index (-5)
    across.hits 4 = [1, 0, 3] ∧
      across.pluck items = (some (.arr [.str "a", .str "b", .str "d"]), [.str "c"]) ∧
      (past.pluck items).1 = none ∧ (past.pluck items).2 = items ∧
      (itemsAt (back.hits 4) items).length ≤ 1 ∧ (back.pluck items).2 = items := by
  intro items across past back
  obtain ⟨-, hacross, -, -, -⟩ := pluck_takes_hits across items
  obtain ⟨-, -, -, hnone, hpast⟩ := pluck_takes_hits past items
  obtain ⟨-, -, hone, -, hback⟩ := pluck_takes_hits back items
  have hhits : past.hits items.length = [] := by decide
  exact ⟨by decide, hacross, hnone.mpr hhits, hpast hhits, hone (-5) rfl, hback (by decide)⟩

end Segment

end PathDoc
