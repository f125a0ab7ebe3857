import Mathlib.Data.List.Perm.Basic
import PathDoc.Proofs.Steps
import PathDoc.Tree.Removal

/-!
# PathDoc.Proofs.Cutting — what is taken out of one node

Removal decides position by position whether a segment denotes it, by the signs of the segment's
ends; reading resolves the segment's indexes one by one.  The two agree on every array
(`denotes_iff_mem_hits`), so what `Segment.cut` takes is what a reader finds (`perm_held_cut`), and
what it leaves is the rest in its order (`cut_snd`).
-/

namespace PathDoc

open Json

namespace Segment

variable {s : Segment} {v : Value} {items : List Value}

/-! ### membership by signs -/

/-- **Removal and reading denote the same positions.** -/
theorem denotes_iff_mem_hits {n p : ℕ} (hp : p < n) : s.denotes n p = true ↔ p ∈ s.hits n := by
  rw [mem_hits]
  cases s with
  | member name => simp [denotes, indexList]
  | index i =>
    simp only [denotes, indexList, beq_iff_eq, Index.place?_eq_some_iff, List.mem_singleton]
    omega
  | indexes is =>
    simp only [denotes, indexList, Bool.or_eq_true, List.contains_iff_mem]
    exact (and_iff_right hp).symm
  | span start stop =>
    simp only [denotes, indexList, Index.mem_walk]
    split_ifs <;> simp only [Bool.and_eq_true, Bool.or_eq_true, decide_eq_true_eq] <;> omega

theorem hits_index (i : Int) (n : ℕ) : (index i).hits n = (Index.place? i n).toList := by
  simp only [hits, indexList, List.filterMap_cons, List.filterMap_nil]
  cases Index.place? i n with
  | none => rfl
  | some p => rfl

/-! ### what is taken and what is left -/

/-- The node without the children that a reader finds. -/
def spared (s : Segment) : Value → Value
  | .arr items =>
    .arr ((items.zipIdx.filter fun e => decide (Step.pos e.2 ∉ s.steps (.arr items))).map Prod.fst)
  | .obj ms => .obj (ms.filter fun m => decide (Step.key m.1 ∉ s.steps (.obj ms)))
  | v => v

/-- Whether the segment denotes one child at most. -/
def isSingle : Segment → Bool
  | member _ => true
  | index _ => true
  | _ => false

/-- The values that the entry of one node holds: itself, or the items of the array in which several
are handed back. -/
def held (s : Segment) (entry : Option Value) : List Value :=
  if s.isSingle then entry.toList
  else match entry with
    | some (.arr items) => items
    | _ => []

theorem pos_mem_steps_arr {p : ℕ} : Step.pos p ∈ s.steps (.arr items) ↔ p ∈ s.hits items.length := by
  rw [steps_arr]
  exact List.mem_map_of_injective fun i j h => Step.pos.inj h

theorem spared_of_steps_eq_nil (h : s.steps v = []) : s.spared v = v := by
  cases v with
  | arr items =>
    simp only [spared, h, List.not_mem_nil, not_false_eq_true, decide_true, List.filter_true,
      List.zipIdx_map_fst]
  | obj ms => simp only [spared, h, List.not_mem_nil, not_false_eq_true, decide_true,
      List.filter_true]
  | _ => rfl

theorem eraseIdx_eq_map_filter {α : Type} (l : List α) (p k : ℕ) :
    ((l.zipIdx k).filter fun e => decide (e.2 ≠ k + p)).map Prod.fst = l.eraseIdx p := by
  induction l generalizing p k with
  | nil => rfl
  | cons a l ih =>
    rw [List.zipIdx_cons]
    cases p with
    | zero =>
      have hrest : (l.zipIdx (k + 1)).filter (fun e => decide (e.2 ≠ k + 0)) = l.zipIdx (k + 1) := by
        refine List.filter_eq_self.mpr fun e he => decide_eq_true ?_
        have := (List.mem_zipIdx he).1
        omega
      rw [List.filter_cons_of_neg (by simp), hrest, List.zipIdx_map_fst, List.eraseIdx_cons_zero]
    | succ p =>
      rw [List.filter_cons_of_pos (by simp), List.map_cons, List.eraseIdx_cons_succ, ← ih p (k + 1)]
      simp only [show k + 1 + p = k + (p + 1) by omega]

/-- The elements of several positions, in the order of the array, are those that a reader finds. -/
theorem perm_taken (s : Segment) (items : List Value) :
    ((items.zipIdx.filter fun e => s.denotes items.length e.2).map Prod.fst).Perm
      ((s.children (.arr items)).map Prod.snd) := by
  set taken := items.zipIdx.filter fun e => s.denotes items.length e.2 with htaken
  have hzip : items.zipIdx.Nodup := by
    refine List.Nodup.of_map Prod.snd ?_
    rw [List.zipIdx_map_snd]
    exact List.nodup_range'
  have hinj : Function.Injective fun e : Value × ℕ => (Step.pos e.2, e.1) := by
    rintro ⟨v, p⟩ ⟨w, q⟩ h
    obtain ⟨hp, rfl⟩ := Prod.mk.inj h
    exact Prod.ext rfl (Step.pos.inj hp)
  have hpairs : (taken.map fun e => (Step.pos e.2, e.1)).Perm (s.children (.arr items)) := by
    refine (List.perm_ext_iff_of_nodup ((hzip.filter _).map hinj)
      (List.Nodup.of_map Prod.fst (s.nodup_steps _))).mpr fun c => ?_
    obtain ⟨step, c⟩ := c
    rw [mem_children, List.mem_map]
    constructor
    · rintro ⟨⟨v, p⟩, he, hc⟩
      obtain ⟨rfl, rfl⟩ := Prod.mk.inj hc
      obtain ⟨hm, hd⟩ := List.mem_filter.mp he
      have hget := List.mem_zipIdx_iff_getElem?.mp hm
      obtain ⟨hlt, -⟩ := List.getElem?_eq_some_iff.mp hget
      exact ⟨pos_mem_steps_arr.mpr ((denotes_iff_mem_hits hlt).mp hd), hget⟩
    · rintro ⟨hs, hc⟩
      cases step with
      | key k => simp [Value.child?] at hc
      | pos p =>
        have hlt := lt_of_mem_hits (pos_mem_steps_arr.mp hs)
        exact ⟨(c, p), List.mem_filter.mpr ⟨List.mem_zipIdx_iff_getElem?.mpr hc,
          (denotes_iff_mem_hits hlt).mpr (pos_mem_steps_arr.mp hs)⟩, rfl⟩
  have hmap := hpairs.map Prod.snd
  rwa [List.map_map] at hmap

/-! ### one cut -/

theorem cut_of_not_arr (hs : s.isPositional = true) (hv : ∀ items, v ≠ .arr items) :
    s.cut v = (none, v) := by
  cases s <;> cases v <;> simp_all [cut, isPositional]

theorem children_of_not_arr (hs : s.isPositional = true) (hv : ∀ items, v ≠ .arr items) :
    s.children v = [] := by
  cases s <;> cases v <;> simp_all [children, isPositional]

/-- A list or a span takes the denoted elements out of an array. -/
theorem cut_arr_of_many (hs : s.isSingle = false) (items : List Value) :
    s.cut (.arr items) =
      (if (items.zipIdx.filter fun e => s.denotes items.length e.2).isEmpty then none
        else some (.arr ((items.zipIdx.filter fun e => s.denotes items.length e.2).map Prod.fst)),
      .arr ((items.zipIdx.filter fun e => !s.denotes items.length e.2).map Prod.fst)) := by
  cases s <;> first | rfl | simp [isSingle] at hs

theorem cut_index_arr (i : Int) (items : List Value) :
    (index i).cut (.arr items) = match Index.place? i items.length with
      | some p => (items[p]?, .arr (items.eraseIdx p))
      | none => (none, .arr items) := by
  simp only [cut, pluck]
  cases Index.place? i items.length <;> rfl

theorem isPositional_of_many (hs : s.isSingle = false) : s.isPositional = true := by
  cases s <;> first | rfl | simp [isSingle] at hs

theorem spared_of_children_eq_nil (h : s.children v = []) : s.spared v = v := by
  have hsteps : s.steps v = [] := by
    rw [steps, h]
    rfl
  exact spared_of_steps_eq_nil hsteps

theorem key_mem_steps_member {name k : String} {ms : Members} (hk : k ∈ ms.map Prod.fst) :
    Step.key k ∈ (member name).steps (.obj ms) ↔ k = name := by
  rw [steps_member_obj]
  split_ifs with hn
  · rw [List.mem_singleton, Step.key.injEq]
  · have hne : k ≠ name := by
      rintro rfl
      exact hn hk
    exact iff_of_false List.not_mem_nil hne

theorem cut_snd_member (name : String) (v : Value) :
    ((member name).cut v).2 = (member name).spared v := by
  cases v with
  | obj ms =>
    refine congrArg Value.obj (List.filter_congr fun m hm => ?_)
    have hk : m.1 ∈ ms.map Prod.fst := List.mem_map_of_mem hm
    rw [Bool.eq_iff_iff, bne_iff_ne, decide_eq_true_eq, key_mem_steps_member hk]
  | arr items => exact (spared_of_children_eq_nil rfl).symm
  | _ => rfl

theorem cut_snd_index (i : Int) (v : Value) : ((index i).cut v).2 = (index i).spared v := by
  cases v with
  | arr items =>
    rw [cut_index_arr]
    cases hp : Index.place? i items.length with
    | none =>
      have hc : (index i).children (.arr items) = [] := by
        rw [children_arr, hits_index, hp]
        rfl
      exact (spared_of_children_eq_nil hc).symm
    | some p =>
      show Value.arr (items.eraseIdx p) = Value.arr _
      rw [← eraseIdx_eq_map_filter items p 0]
      refine congrArg (fun l : List (Value × ℕ) => Value.arr (l.map Prod.fst)) ?_
      refine List.filter_congr fun e _ => ?_
      rw [Nat.zero_add, decide_eq_decide, pos_mem_steps_arr, hits_index, hp, Option.mem_toList,
        Option.some.injEq, ne_comm]
  | obj ms => exact (spared_of_children_eq_nil rfl).symm
  | _ => rfl

theorem cut_snd_of_many (hs : s.isSingle = false) (v : Value) : (s.cut v).2 = s.spared v := by
  by_cases hv : ∃ items, v = .arr items
  · obtain ⟨items, rfl⟩ := hv
    rw [cut_arr_of_many hs]
    show Value.arr _ = Value.arr _
    refine congrArg (fun l : List (Value × ℕ) => Value.arr (l.map Prod.fst)) ?_
    refine List.filter_congr fun e he => ?_
    have hlt := (List.mem_zipIdx he).2.1
    rw [Nat.zero_add] at hlt
    rw [Bool.eq_iff_iff, Bool.not_eq_true', ← Bool.not_eq_true, denotes_iff_mem_hits hlt,
      decide_eq_true_eq, pos_mem_steps_arr]
  · have hp := isPositional_of_many hs
    have hv : ∀ items, v ≠ .arr items := fun items h => hv ⟨items, h⟩
    rw [cut_of_not_arr hp hv, spared_of_children_eq_nil (children_of_not_arr hp hv)]

/-- **What a cut leaves** is the rest, in its order. -/
theorem cut_snd (s : Segment) (v : Value) : (s.cut v).2 = s.spared v := by
  cases s with
  | member name => exact cut_snd_member name v
  | index i => exact cut_snd_index i v
  | indexes is => exact cut_snd_of_many rfl v
  | span start stop => exact cut_snd_of_many rfl v

theorem map_snd_children_of_isSingle (hs : s.isSingle = true) (v : Value) :
    (s.children v).map Prod.snd = (s.cut v).1.toList := by
  cases s with
  | member name =>
    cases v with
    | obj ms =>
      show ((Members.get? ms name).map _).toList.map Prod.snd = (Members.get? ms name).toList
      cases Members.get? ms name <;> rfl
    | _ => rfl
  | index i =>
    cases v with
    | arr items =>
      rw [children_arr, hits_index, cut_index_arr]
      cases hp : Index.place? i items.length with
      | none => rfl
      | some p =>
        simp only [Option.toList_some, List.filterMap_cons, List.filterMap_nil]
        cases items[p]? <;> rfl
    | _ => rfl
  | indexes is => simp [isSingle] at hs
  | span start stop => simp [isSingle] at hs

@[simp] theorem held_none (s : Segment) : s.held none = [] := by
  unfold held
  split <;> rfl

theorem held_of_isSingle (hs : s.isSingle = true) (entry : Option Value) :
    s.held entry = entry.toList := if_pos hs

theorem held_of_many (hs : s.isSingle = false) (items : List Value) :
    s.held (some (.arr items)) = items := if_neg (by simp [hs])

theorem held_cut_of_isSingle (hs : s.isSingle = true) (v : Value) :
    s.held (s.cut v).1 = (s.children v).map Prod.snd := by
  rw [held_of_isSingle hs, map_snd_children_of_isSingle hs]

/-- **What a cut takes** is what a reader finds, in the order of the array. -/
theorem perm_held_cut (s : Segment) (v : Value) :
    (s.held (s.cut v).1).Perm ((s.children v).map Prod.snd) := by
  cases hs : s.isSingle with
  | true => rw [held_cut_of_isSingle hs]
  | false =>
    by_cases hv : ∃ items, v = .arr items
    · obtain ⟨items, rfl⟩ := hv
      have hperm := s.perm_taken items
      rw [cut_arr_of_many hs]
      split_ifs with he
      · rw [List.isEmpty_iff.mp he] at hperm
        rw [held_none]
        exact hperm
      · rw [held_of_many hs]
        exact hperm
    · have hp := isPositional_of_many hs
      have hv : ∀ items, v ≠ .arr items := fun items h => hv ⟨items, h⟩
      rw [cut_of_not_arr hp hv, children_of_not_arr hp hv, held_none]
      exact List.Perm.refl []

/-- Nothing is taken exactly if a reader finds nothing. -/
theorem cut_fst_eq_none_iff : (s.cut v).1 = none ↔ s.children v = [] := by
  rw [← List.map_eq_nil_iff (f := Prod.snd)]
  cases hs : s.isSingle with
  | true => rw [map_snd_children_of_isSingle hs, Option.toList_eq_nil_iff]
  | false =>
    by_cases hv : ∃ items, v = .arr items
    · obtain ⟨items, rfl⟩ := hv
      rw [cut_arr_of_many hs, ← List.perm_nil, ← (s.perm_taken items).congr_left, List.perm_nil,
        List.map_eq_nil_iff]
      split_ifs with he
      · exact iff_of_true rfl (List.isEmpty_iff.mp he)
      · exact iff_of_false (by simp) fun h => he (List.isEmpty_iff.mpr h)
    · have hp := isPositional_of_many hs
      have hv : ∀ items, v ≠ .arr items := fun items h => hv ⟨items, h⟩
      rw [cut_of_not_arr hp hv, children_of_not_arr hp hv]
      exact iff_of_true rfl rfl

end Segment

end PathDoc
