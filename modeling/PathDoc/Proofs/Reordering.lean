import PathDoc.Proofs.Room
import PathDoc.Proofs.Uprooting

/-!
# PathDoc.Proofs.Reordering — the order in which positions are written does not matter

A list of indexes denotes the same positions in any order and with any repetitions, and a span with
both ends the same positions from either of them (`Segment.Reorders`).  What a segment asks of an array
depends on the set of its indexes alone, and the steps to which it leads are the same up to their
order.  The children at different steps do not meet (`Value.setChild_comm`), so a loop over the steps
leaves the same node in any order (`Write.alongSteps_perm`), if it comes to its end at all.  The engines
of writing, reading and removal are loops inside loops, and by induction on the path they agree on
paths that differ in the order of positions (`order_of_positions`).
-/

namespace PathDoc

open Json

/-! ### one segment -/

/-- The same segment with its positions written in another order: a list of the same indexes, with
any repetitions, or a span from its other end. -/
inductive Segment.Reorders : Segment → Segment → Prop where
  | refl (s : Segment) : Reorders s s
  | indexes {is js : List Int} (h : ∀ i, i ∈ is ↔ i ∈ js) : Reorders (.indexes is) (.indexes js)
  | span (start stop : Int) : Reorders (.span start (some stop)) (.span stop (some start))

/-- The same path with its positions written in another order. -/
def Path.Reorders (p q : Path) : Prop := List.Forall₂ Segment.Reorders p q

namespace Segment.Reorders

variable {s t : Segment} {v : Value} {n : ℕ}

theorem symm (h : s.Reorders t) : t.Reorders s := by
  cases h with
  | refl => exact .refl _
  | indexes h => exact .indexes fun i => (h i).symm
  | span start stop => exact .span stop start

theorem isPositional_eq (h : s.Reorders t) : s.isPositional = t.isPositional := by
  cases h <;> rfl

theorem isOpen_eq (h : s.Reorders t) : s.isOpen = t.isOpen := by
  cases h <;> rfl

theorem isSpan_eq (h : s.Reorders t) : s.isSpan = t.isSpan := by
  cases h <;> rfl

/-- Only segments for positions whose end is written come in another order. -/
theorem eq_or_closed (h : s.Reorders t) : s = t ∨ s.isPositional = true ∧ s.isOpen = false := by
  cases h with
  | refl => exact .inl rfl
  | indexes h => exact .inr ⟨rfl, rfl⟩
  | span start stop => exact .inr ⟨rfl, rfl⟩

theorem mem_spelled_iff (h : s.Reorders t) (i : Int) : i ∈ s.spelled ↔ i ∈ t.spelled := by
  cases h with
  | refl => exact Iff.rfl
  | indexes h => exact h i
  | span start stop => simp [spelled, or_comm]

theorem mem_indexList_iff (h : s.Reorders t) (last i : Int) :
    i ∈ s.indexList last ↔ i ∈ t.indexList last := by
  cases h with
  | refl => exact Iff.rfl
  | indexes h => exact h i
  | span start stop =>
    simp only [indexList, Option.getD_some, Index.mem_walk]
    omega

/-- The steps of a span are as many from either end. -/
theorem length_indexList (h : s.Reorders t) (hs : s.isSpan = true) (last : Int) :
    (s.indexList last).length = (t.indexList last).length := by
  cases h with
  | refl => rfl
  | indexes h => simp [isSpan] at hs
  | span start stop =>
    simp only [indexList, Option.getD_some, Index.length_walk]
    omega

/-- What a segment asks of an array is the same in any order of its positions. -/
theorem demand_eq (h : s.Reorders t) (n : ℕ) : s.demand n = t.demand n := by
  have hle {s t : Segment} (h : s.Reorders t) : t.demand n ≤ s.demand n := by
    refine demand_le_iff.mpr ⟨fun i hi => reach_le_demand ((h.mem_indexList_iff n i).mpr hi), ?_⟩
    intro ht
    have hs : s.isSpan = true := h.isSpan_eq.trans ht
    rw [← h.length_indexList hs]
    exact length_le_demand hs n
  exact le_antisymm (hle h.symm) (hle h)

theorem excess?_eq_none_iff (h : s.Reorders t) : s.excess? = none ↔ t.excess? = none := by
  rcases h.eq_or_closed with rfl | ⟨-, hs⟩
  · exact Iff.rfl
  · have ht : t.isOpen = false := h.isOpen_eq ▸ hs
    rw [Segment.excess?_eq_none_iff (n := 0) hs, Segment.excess?_eq_none_iff (n := 0) ht, h.demand_eq]

theorem isSome_excess?_eq (h : s.Reorders t) : s.excess?.isSome = t.excess?.isSome := by
  rw [Bool.eq_iff_iff, Option.isSome_iff_ne_none, Option.isSome_iff_ne_none, not_iff_not]
  exact h.excess?_eq_none_iff

theorem makeRoom_eq (h : s.Reorders t) (items : List Value) :
    s.makeRoom items = t.makeRoom items := by
  rw [makeRoom, makeRoom, h.isSome_excess?_eq, h.demand_eq]

theorem hits_perm (h : s.Reorders t) (n : ℕ) : (s.hits n).Perm (t.hits n) := by
  refine (List.perm_ext_iff_of_nodup (s.nodup_hits n) (t.nodup_hits n)).mpr fun p => ?_
  rw [mem_hits, mem_hits, h.mem_indexList_iff, h.mem_indexList_iff]

theorem slots_perm (h : s.Reorders t) (n : ℕ) : (s.slots n).Perm (t.slots n) := by
  cases hx : s.excess? with
  | some i =>
    have hs : s.excess?.isSome = true := by rw [hx]; rfl
    have ht : t.excess?.isSome = true := h.isSome_excess?_eq ▸ hs
    rw [slots, slots, if_pos hs, if_pos ht]
  | none =>
    have hx' : t.excess? = none := h.excess?_eq_none_iff.mp hx
    refine (List.perm_ext_iff_of_nodup (s.nodup_slots n) (t.nodup_slots n)).mpr fun p => ?_
    rw [mem_slots hx, mem_slots hx', grown, grown, h.demand_eq, h.mem_indexList_iff,
      h.mem_indexList_iff]

theorem steps_perm (h : s.Reorders t) (v : Value) : (s.steps v).Perm (t.steps v) := by
  rcases h.eq_or_closed with rfl | ⟨hs, -⟩
  · exact .refl _
  · have ht : t.isPositional = true := h.isPositional_eq ▸ hs
    cases v with
    | arr items =>
      rw [steps_arr, steps_arr]
      exact (h.hits_perm items.length).map Step.pos
    | _ => rw [steps, steps, children_of_not_arr hs (by simp), children_of_not_arr ht (by simp)]

theorem children_perm (h : s.Reorders t) (v : Value) : (s.children v).Perm (t.children v) := by
  have hnodup (s : Segment) : (s.children v).Nodup := List.Nodup.of_map Prod.fst (s.nodup_steps v)
  refine (List.perm_ext_iff_of_nodup (hnodup s) (hnodup t)).mpr fun c => ?_
  rw [mem_children, mem_children, (h.steps_perm v).mem_iff]

theorem fits_eq (h : s.Reorders t) (v : Value) : s.fits v = t.fits v := by
  rcases h.eq_or_closed with rfl | ⟨hs, -⟩
  · rfl
  · have ht : t.isPositional = true := h.isPositional_eq ▸ hs
    rw [Bool.eq_iff_iff, fits_iff hs, fits_iff ht]
    simp only [reach_le_iff_spelled, h.mem_spelled_iff]

theorem outside?_eq_none_iff (h : s.Reorders t) : s.outside? v = none ↔ t.outside? v = none := by
  rcases h.eq_or_closed with rfl | ⟨hs, -⟩
  · exact Iff.rfl
  · simp only [Segment.outside?_eq_none_iff, reach_le_iff_spelled, h.mem_spelled_iff]

theorem denotes_eq (h : s.Reorders t) (n p : ℕ) : s.denotes n p = t.denotes n p := by
  cases h with
  | refl => rfl
  | indexes h => simp only [denotes, List.contains_eq_mem, h]
  | span start stop =>
    simp only [denotes, Option.getD_some, min_comm start, max_comm start]
    split_ifs <;> first | rfl | exact Bool.or_comm _ _

/-- A removal takes the same out of a node, and hands it back in the same order. -/
theorem cut_eq (h : s.Reorders t) (v : Value) : s.cut v = t.cut v := by
  cases v with
  | arr items =>
    cases h with
    | refl => rfl
    | indexes h =>
      rw [cut_arr_of_many rfl, cut_arr_of_many rfl]
      simp only [(indexes h).denotes_eq]
    | span start stop =>
      rw [cut_arr_of_many rfl, cut_arr_of_many rfl]
      simp only [(span start stop).denotes_eq]
  | _ => cases h <;> rfl

end Segment.Reorders

/-! ### loops -/

namespace Write

variable {job : Job} {s t : Segment} {p q rest rest' : Path} {node v c : Value}
  {steps steps' : List Step}

/-- **A loop comes to the same end in any order**, if the writers below the children come to the same
end. -/
theorem alongSteps_perm {below below' : Value → Outcome Value} (hn : steps.Nodup)
    (hp : steps.Perm steps') (hbelow : ∀ c w, below c = .done w → below' c = .done w)
    (hdone : alongSteps below steps node = .done v) : alongSteps below' steps' node = .done v := by
  have hf : (alongSteps below steps node).fault = none := by rw [hdone]; rfl
  have hloop : alongSteps below' steps' node =
      .done (node.updateChildren (fun c => (below c).result) steps') := by
    refine alongSteps_eq_done (hp.nodup_iff.mp hn) fun step hm c hc => ?_
    have hc' := fault_below_of_alongSteps hn hf (hp.mem_iff.mpr hm) hc
    exact hbelow c _ (Outcome.eq_done hc')
  have hv : v = node.updateChildren (fun c => (below c).result) steps := by
    rw [← result_alongSteps hf, hdone, Outcome.result_done]
  rw [hloop, hv, Value.updateChildren_perm hp]

/-- A node is opened for both segments alike; the steps at which there is still to write are the same
up to their order. -/
theorem opened?_reorders (h : s.Reorders t)
    (hrest : Path.scaffold rest job.leaf = Path.scaffold rest' job.leaf)
    (ho : opened? job s rest node = some (v, steps)) :
    ∃ steps', opened? job t rest' node = some (v, steps') ∧ steps.Perm steps' := by
  rcases h.eq_or_closed with rfl | ⟨hs, -⟩
  · refine ⟨steps, ?_, .refl _⟩
    rw [← ho]
    cases s <;> simp only [opened?, hrest]
  · have ht : t.isPositional = true := h.isPositional_eq ▸ hs
    rw [opened?_of_isPositional hs] at ho
    obtain ⟨items, hi, he⟩ := Option.map_eq_some_iff.mp ho
    obtain ⟨rfl, rfl⟩ := Prod.mk.inj he
    refine ⟨(t.slots items.length).map .pos, ?_, (h.slots_perm items.length).map Step.pos⟩
    rw [opened?_of_isPositional ht, hi, Option.map_some, h.makeRoom_eq]

end Write

theorem Path.Reorders.symm {p q : Path} (h : p.Reorders q) : q.Reorders p :=
  (List.Forall₂.imp (fun _ _ hst => hst.symm) h).flip

/-- What a path makes out of nothing. -/
theorem Path.Reorders.scaffold_eq {p q : Path} (h : p.Reorders q) (leaf : Value) :
    p.scaffold leaf = q.scaffold leaf := by
  induction h with
  | nil => rfl
  | @cons s t rest rest' hst _ ih =>
    let job : Job := ⟨leaf, .low⟩
    obtain ⟨v, steps, ho, hs⟩ := Write.enclose_eq job s rest
    obtain ⟨w, steps', ho', ht⟩ := Write.enclose_eq job t rest'
    obtain ⟨steps'', ho'', hperm⟩ := Write.opened?_reorders hst ih ho
    obtain ⟨rfl, rfl⟩ := Prod.mk.inj (Option.some.inj (ho'.symm.trans ho''))
    have hleaf : Path.scaffold rest leaf = Path.scaffold rest' leaf := ih
    rw [Path.scaffold_cons, Path.scaffold_cons]
    refine hs.trans (Eq.trans ?_ ht.symm)
    rw [Value.updateChildren_perm hperm]
    simp only [job, hleaf]

/-! ### writing -/

namespace Write

variable {job : Job} {s t : Segment} {p q rest rest' : Path} {node v : Value}

/-- One node, opened for a segment and written below. -/
theorem intoNode_reorders (hst : s.Reorders t) (hrest : Path.Reorders rest rest')
    (hbelow : ∀ c w, intoSlot job rest c = .done w → intoSlot job rest' c = .done w)
    (hdone : intoNode job (s :: rest) node = .done v) :
    intoNode job (t :: rest') node = .done v := by
  rw [intoNode, enter_eq] at hdone ⊢
  cases ho : opened? job s rest node with
  | none =>
    rw [ho] at hdone
    cases hdone
  | some opened =>
    obtain ⟨w, steps⟩ := opened
    rw [ho] at hdone
    obtain ⟨steps', ho', hperm⟩ := opened?_reorders hst (hrest.scaffold_eq job.leaf) ho
    rw [ho']
    exact alongSteps_perm (nodup_steps_of_opened? ho) hperm hbelow hdone

theorem intoSlot_reorders (h : p.Reorders q) (c w : Value) (hdone : intoSlot job p c = .done w) :
    intoSlot job q c = .done w := by
  induction h generalizing c w with
  | nil => exact hdone
  | cons hst hrest ih =>
    rw [intoSlot_eq_intoNode] at hdone ⊢
    exact intoNode_reorders hst hrest ih hdone

/-- **The descent** comes to the same end for every order of the positions. -/
theorem descend_reorders (h : p.Reorders q) (hdone : descend job p node = .done v) :
    descend job q node = .done v := by
  induction h generalizing node v with
  | nil => exact hdone
  | @cons s t rest rest' hst hrest ih =>
    have hnil : rest = [] ↔ rest' = [] := by cases hrest <;> simp
    simp only [descend, hst.fits_eq, ne_eq, hnil] at hdone ⊢
    split_ifs at hdone ⊢
    · exact alongSteps_perm (s.nodup_steps node) (hst.steps_perm node) (fun c w hc => ih hc) hdone
    · exact intoNode_reorders hst hrest (intoSlot_reorders hrest) hdone

theorem firstExcess?_reorders (h : p.Reorders q) (hx : firstExcess? p = none) :
    firstExcess? q = none := by
  rw [firstExcess?_eq_none_iff] at hx ⊢
  induction h with
  | nil => simp
  | cons hst _ ih =>
    rw [List.forall_mem_cons] at hx ⊢
    exact ⟨hst.excess?_eq_none_iff.mp hx.1, ih hx.2⟩

end Write

namespace Path.Reorders

variable {p q : Path} {root : Value}

theorem write_of_done (h : p.Reorders q) {job : Job} {v : Value} (hdone : root.write p job = .done v) :
    root.write q job = .done v := by
  have hf : (root.write p job).fault = none := by rw [hdone]; rfl
  have hx := firstExcess?_of_write hf
  have hx' := Write.firstExcess?_reorders h hx
  rw [write_eq_descend hx] at hdone
  rw [write_eq_descend hx']
  exact Write.descend_reorders h hdone

/-! ### reading -/

theorem within (h : p.Reorders q) (hw : p.Within root) : q.Within root := by
  induction h generalizing root with
  | nil => exact hw
  | cons hst _ ih =>
    refine ⟨hst.outside?_eq_none_iff.mp hw.1, fun c hc => ih (hw.2 c ?_)⟩
    exact (hst.children_perm root).mem_iff.mpr hc

/-- The same nodes match, up to their order. -/
theorem targets_perm (h : p.Reorders q) (root : Value) : (p.targets root).Perm (q.targets root) := by
  induction h generalizing root with
  | nil => exact .refl _
  | cons hst _ ih =>
    rw [targets_cons, targets_cons]
    exact (hst.children_perm root).flatMap fun c _ => (ih c.2).map _

theorem query_of_ok (h : p.Reorders q) {vs : List Value} (hq : root.query p = .ok vs) :
    ∃ ws, root.query q = .ok ws ∧ vs.Perm ws := by
  obtain ⟨hw, rfl⟩ := query_eq_ok_iff.mp hq
  exact ⟨_, query_eq_ok_iff.mpr ⟨h.within hw, rfl⟩, (h.targets_perm root).map Prod.snd⟩

/-! ### removal -/

theorem uproot (h : p.Reorders q) {last last' : Segment} (hlast : last.Reorders last')
    (v : Value) : ((Removal.uproot last p v).1).Perm (Removal.uproot last' q v).1 ∧
      (Removal.uproot last p v).2 = (Removal.uproot last' q v).2 := by
  induction h generalizing v with
  | nil =>
    rw [Removal.uproot, Removal.uproot, hlast.cut_eq]
    exact ⟨.refl _, rfl⟩
  | @cons s t pre pre' hst _ ih =>
    have hbelow : (fun c => (Removal.uproot last pre c).2) =
        fun c => (Removal.uproot last' pre' c).2 := funext fun c => (ih c).2
    rw [Removal.uproot, Removal.uproot, hst.fits_eq]
    split_ifs
    · refine ⟨(hst.children_perm v).flatMap fun c _ => (ih c.2).1, ?_⟩
      rw [hbelow]
      exact Value.updateChildren_perm (hst.steps_perm v) v
    · exact ⟨.refl _, rfl⟩

/-- A removal leaves the same document; the entries of the nodes that it reaches are the same up to
their order. -/
theorem prune (h : p.Reorders q) (root : Value) :
    ((root.prune p).1).Perm (root.prune q).1 ∧ (root.prune p).2 = (root.prune q).2 := by
  rcases List.eq_nil_or_concat p with rfl | ⟨pre, last, rfl⟩
  · cases h
    exact ⟨.refl _, rfl⟩
  · rw [List.concat_eq_append] at h ⊢
    have hpre := List.forall₂_take_append q pre [last] h.symm
    have hend := List.forall₂_drop_append q pre [last] h.symm
    obtain ⟨last', more, hlast, hmore, hq⟩ := List.forall₂_cons_right_iff.mp hend
    cases hmore
    rw [← List.take_append_drop pre.length q, hq, prune_eq_uproot, prune_eq_uproot]
    exact uproot (Path.Reorders.symm hpre) hlast.symm root

end Path.Reorders

/-! ### the operations of a draft -/

namespace Draft

variable {p q : Path} {d d' : Draft} {text text' : String}

theorem write_of_reorders (h : p.Reorders q) (hp : Path.read text = .ok p)
    (hq : Path.read text' = .ok q) {value : Option Value} {permission : Permission}
    (hw : d.write text value permission = .ok d') : d.write text' value permission = .ok d' := by
  obtain ⟨path, leaf, hpath, hvalue, hf, rfl⟩ := write_eq_ok_iff.mp hw
  obtain rfl : p = path := Except.ok.inj (hp.symm.trans hpath)
  have hdone := h.write_of_done (Outcome.eq_done hf)
  refine write_eq_ok_iff.mpr ⟨q, leaf, hq, hvalue, ?_, ?_⟩
  · rw [hdone]
    rfl
  · rw [hdone]
    rfl

theorem query_of_reorders (h : p.Reorders q) (hp : Path.read text = .ok p)
    (hq : Path.read text' = .ok q) {vs : List Value} (hv : d.query text = .ok vs) :
    ∃ ws, d.query text' = .ok ws ∧ vs.Perm ws := by
  obtain ⟨ws, hws, hperm⟩ := h.query_of_ok ((query_eq_ok_iff_of_read hp).mp hv)
  exact ⟨ws, (query_eq_ok_iff_of_read hq).mpr hws, hperm⟩

/-- Nothing comes out for one order exactly if nothing comes out for the other. -/
theorem handBack?_of_reorders (h : p.Reorders q) (root : Value) :
    handBack? (root.prune p).1 = none ↔ handBack? (root.prune q).1 = none := by
  simp only [handBack?_eq_none_iff, (h.prune root).1.mem_iff]

theorem take_of_reorders (h : p.Reorders q) (hp : Path.read text = .ok p)
    (hq : Path.read text' = .ok q) (d : Draft) : ∃ removed removed' left,
      d.take text = .ok (removed, left) ∧ d.take text' = .ok (removed', left) ∧
        (removed = none ↔ removed' = none) := by
  have hnone := handBack?_of_reorders h d.root
  rw [take_of_read hp, take_of_read hq]
  cases hr : handBack? (d.root.prune p).1 with
  | none =>
    rw [hnone.mp hr]
    exact ⟨none, none, d, rfl, rfl, Iff.rfl⟩
  | some removed =>
    obtain ⟨removed', hr'⟩ := Option.ne_none_iff_exists'.mp fun h' =>
      Option.some_ne_none removed (hr.symm.trans (hnone.mpr h'))
    rw [hr', (h.prune d.root).2]
    exact ⟨_, _, _, rfl, rfl, by simp⟩

/-- **The order in which positions are written does not matter.**  Let two paths differ in the order
and the repetitions of their lists of indexes and in the end from which a span with both ends is
walked.  For every document, leaf and permission a write at one of them comes to its end exactly if a
write at the other does, with the same document, key order included; a query is answered exactly if
the other one is, with the same nodes as often; a removal leaves the same document, and takes something
out exactly if the other does.  So it is for the operations of a draft and two texts that denote the
paths. -/
theorem order_of_positions (h : p.Reorders q) :
    (∀ root : Value,
      (∀ job v, root.write p job = .done v ↔ root.write q job = .done v) ∧
      ((∃ vs, root.query p = .ok vs) ↔ ∃ ws, root.query q = .ok ws) ∧
      (∀ vs ws, root.query p = .ok vs → root.query q = .ok ws → vs.Perm ws) ∧
      (root.prune p).2 = (root.prune q).2 ∧
      (handBack? (root.prune p).1 = none ↔ handBack? (root.prune q).1 = none)) ∧
    ∀ (d : Draft) (text text' : String), Path.read text = .ok p → Path.read text' = .ok q →
      (∀ value permission d',
        d.write text value permission = .ok d' ↔ d.write text' value permission = .ok d') ∧
      ((∃ vs, d.query text = .ok vs) ↔ ∃ ws, d.query text' = .ok ws) ∧
      (∀ vs ws, d.query text = .ok vs → d.query text' = .ok ws → vs.Perm ws) ∧
      ∃ removed removed' left, d.take text = .ok (removed, left) ∧
        d.take text' = .ok (removed', left) ∧ (removed = none ↔ removed' = none) := by
  have h' : q.Reorders p := h.symm
  refine ⟨fun root => ⟨fun job v => ⟨h.write_of_done, h'.write_of_done⟩, ?_, ?_,
      (h.prune root).2, handBack?_of_reorders h root⟩,
    fun d text text' hp hq => ⟨fun value permission d' => ⟨write_of_reorders h hp hq,
      write_of_reorders h' hq hp⟩, ?_, ?_, take_of_reorders h hp hq d⟩⟩
  · constructor
    · rintro ⟨vs, hv⟩
      obtain ⟨ws, hw, -⟩ := h.query_of_ok hv
      exact ⟨ws, hw⟩
    · rintro ⟨ws, hw⟩
      obtain ⟨vs, hv, -⟩ := h'.query_of_ok hw
      exact ⟨vs, hv⟩
  · intro vs ws hv hw
    obtain ⟨ws', hw', hperm⟩ := h.query_of_ok hv
    rwa [Except.ok.inj (hw.symm.trans hw')]
  · constructor
    · rintro ⟨vs, hv⟩
      obtain ⟨ws, hw, -⟩ := query_of_reorders h hp hq hv
      exact ⟨ws, hw⟩
    · rintro ⟨ws, hw⟩
      obtain ⟨vs, hv, -⟩ := query_of_reorders h' hq hp hw
      exact ⟨vs, hv⟩
  · intro vs ws hv hw
    obtain ⟨ws', hw', hperm⟩ := query_of_reorders h hp hq hv
    rwa [Except.ok.inj (hw.symm.trans hw')]

/-- A span across zero from either end, and below it a list with a repetition: the two elements are
written in another order, and one of them is an empty node that becomes an array. -/
theorem order_of_positions_across_zero :
    let p : Path := [.member "a", .span 1 (some (-1)), .indexes [2, 0]]
    let q : Path := [.member "a", .span (-1) (some 1), .indexes [0, 2, 0]]
    let d := ofValue (.obj [("a", .arr [.obj [], .arr [.null]])])
    let row := Value.arr [.bool true, .obj [], .bool true]
    let d' := ofValue (.obj [("a", .arr [row, row])])
    p.Reorders q ∧ Path.read "a[1:-1][2,0]" = .ok p ∧ Path.read "a[-1:1][0,2,0]" = .ok q ∧
      d.write "a[1:-1][2,0]" (some (.bool true)) .normal = .ok d' ∧
      d.write "a[-1:1][0,2,0]" (some (.bool true)) .normal = .ok d' ∧
      (d'.root.prune p).2 = (d'.root.prune q).2 := by
  intro p q d row d'
  have hpq : p.Reorders q := by
    refine .cons (.refl _) (.cons (.span _ _) (.cons (.indexes fun i => ?_) .nil))
    simp only [List.mem_cons, List.not_mem_nil, or_false]
    omega
  have hp : Path.read "a[1:-1][2,0]" = .ok p := by rfl
  have hq : Path.read "a[-1:1][0,2,0]" = .ok q := by rfl
  have hw : d.write "a[1:-1][2,0]" (some (.bool true)) .normal = .ok d' := by rfl
  obtain ⟨hroot, hdraft⟩ := order_of_positions hpq
  obtain ⟨hwrite, -⟩ := hdraft d _ _ hp hq
  obtain ⟨-, -, -, hprune, -⟩ := hroot d'.root
  exact ⟨hpq, hp, hq, hw, (hwrite _ _ _).mp hw, hprune⟩

end Draft

end PathDoc
