import PathDoc.Proofs.Descent

/-!
# PathDoc.Proofs.Loops — what a write does below a node and at its end

A write goes along the selected children of a node in turn and stops at the first fault
(`Write.alongSteps`).  Without a fault it has replaced each child by what was written below it
(`result_alongSteps`), and a fault is that of one child (`exists_of_fault_alongSteps`).  At the end of
the path it settles the leaf, in the place of the node or by keeping a node that equals it
(`settle_cases`).
-/

namespace PathDoc

open Json

namespace Write

variable {below : Value → Outcome Value} {steps : List Step} {node c : Value} {step : Step}

/-! ### what a loop leaves -/

/-- The loop replaces the children at the steps that it comes to: all of them, unless a fault ends
it. -/
theorem exists_result_alongSteps (below : Value → Outcome Value) (steps : List Step)
    (node : Value) : ∃ visited others, steps = visited ++ others ∧
      (alongSteps below steps node).result =
        node.updateChildren (fun c => (below c).result) visited ∧
      ((alongSteps below steps node).fault = none → others = []) := by
  induction steps generalizing node with
  | nil => exact ⟨[], [], rfl, rfl, fun _ => rfl⟩
  | cons step more ih =>
    cases hc : node.child? step with
    | none =>
      obtain ⟨visited, others, rfl, hr, hf⟩ := ih node
      rw [alongSteps_cons_of_none hc]
      exact ⟨step :: visited, others, rfl, by rw [Value.updateChildren_cons_of_none hc, hr], hf⟩
    | some c =>
      rw [alongSteps_cons_of_some hc]
      cases hb : (below c).fault with
      | none =>
        obtain ⟨visited, others, rfl, hr, hf⟩ := ih (node.setChild step (below c).result)
        rw [Outcome.lift_andThen_of_fault_none hb]
        refine ⟨step :: visited, others, rfl, ?_, hf⟩
        rw [Value.updateChildren_cons_of_some hc, hr]
      | some fault =>
        rw [Outcome.lift_andThen_of_fault_some hb]
        refine ⟨[step], more, rfl, ?_, ?_⟩
        · rw [Value.updateChildren_cons_of_some hc]
          rfl
        · intro hnone
          rw [Outcome.fault_lift, hb] at hnone
          exact absurd hnone (Option.some_ne_none _)

theorem result_alongSteps (hf : (alongSteps below steps node).fault = none) :
    (alongSteps below steps node).result =
      node.updateChildren (fun c => (below c).result) steps := by
  obtain ⟨visited, others, hsteps, hr, hall⟩ := exists_result_alongSteps below steps node
  rw [hall hf, List.append_nil] at hsteps
  rw [hr, hsteps]

theorem outline_alongSteps (below : Value → Outcome Value) (steps : List Step) (node : Value) :
    (alongSteps below steps node).result.outline = node.outline := by
  obtain ⟨visited, others, -, hr, -⟩ := exists_result_alongSteps below steps node
  rw [hr, Value.outline_updateChildren]

/-- A segment selects the same steps before and after. -/
theorem steps_alongSteps (s : Segment) (below : Value → Outcome Value) (steps : List Step)
    (node : Value) : s.steps (alongSteps below steps node).result = s.steps node :=
  Segment.steps_congr (outline_alongSteps below steps node)

/-- A loop without a fault has written below each of its children without one. -/
theorem fault_below_of_alongSteps (hn : steps.Nodup)
    (hf : (alongSteps below steps node).fault = none) (hm : step ∈ steps)
    (hc : node.child? step = some c) : (below c).fault = none := by
  induction steps generalizing node with
  | nil => simp at hm
  | cons first more ih =>
    obtain ⟨hfirst, hn⟩ := List.nodup_cons.mp hn
    cases hd : node.child? first with
    | none =>
      rw [alongSteps_cons_of_none hd] at hf
      rcases List.mem_cons.mp hm with rfl | hm
      · rw [hc] at hd; simp at hd
      · exact ih hn hf hm hc
    | some d =>
      rw [alongSteps_cons_of_some hd] at hf
      cases hb : (below d).fault with
      | some fault =>
        rw [Outcome.lift_andThen_of_fault_some hb, Outcome.fault_lift, hb] at hf
        exact absurd hf (Option.some_ne_none _)
      | none =>
        rw [Outcome.lift_andThen_of_fault_none hb] at hf
        rcases List.mem_cons.mp hm with rfl | hm
        · rw [hd] at hc
          rw [← Option.some.inj hc, hb]
        · refine ih hn hf hm ?_
          rw [Value.child?_setChild_of_not_mem hfirst hm, hc]

/-- What a loop without a fault leaves one step away: what was written below the child there. -/
theorem child?_alongSteps_of_mem (hn : steps.Nodup)
    (hf : (alongSteps below steps node).fault = none) (hm : step ∈ steps) :
    (alongSteps below steps node).result.child? step =
      (node.child? step).map fun c => (below c).result := by
  rw [result_alongSteps hf, Value.child?_updateChildren_of_mem hn hm]

theorem child?_alongSteps_of_not_mem (hm : step ∉ steps) :
    (alongSteps below steps node).result.child? step = node.child? step := by
  obtain ⟨visited, others, rfl, hr, -⟩ := exists_result_alongSteps below steps node
  have hvisited : step ∉ visited := fun h => hm (List.mem_append_left _ h)
  rw [hr, Value.child?_updateChildren_of_not_mem hvisited]

/-- **The fault of a loop** is that of the child at one of its steps, which is left as it was
written. -/
theorem exists_of_fault_alongSteps (hn : steps.Nodup) {fault : Fault}
    (hf : (alongSteps below steps node).fault = some fault) :
    ∃ step c inner, step ∈ steps ∧ node.child? step = some c ∧ (below c).fault = some inner ∧
      fault = inner.under [step] ∧
      (alongSteps below steps node).result.child? step = some (below c).result := by
  induction steps generalizing node with
  | nil => simp at hf
  | cons first more ih =>
    obtain ⟨hfirst, hn⟩ := List.nodup_cons.mp hn
    cases hd : node.child? first with
    | none =>
      rw [alongSteps_cons_of_none hd] at hf ⊢
      obtain ⟨step, c, inner, hm, hrest⟩ := ih hn hf
      exact ⟨step, c, inner, List.mem_cons_of_mem _ hm, hrest⟩
    | some d =>
      rw [alongSteps_cons_of_some hd] at hf ⊢
      cases hb : (below d).fault with
      | none =>
        rw [Outcome.lift_andThen_of_fault_none hb] at hf ⊢
        obtain ⟨step, c, inner, hm, hc, hrest⟩ := ih hn hf
        rw [Value.child?_setChild_of_not_mem hfirst hm] at hc
        exact ⟨step, c, inner, List.mem_cons_of_mem _ hm, hc, hrest⟩
      | some inner =>
        rw [Outcome.lift_andThen_of_fault_some hb] at hf ⊢
        rw [Outcome.fault_lift, hb, Option.map_some, Option.some.injEq] at hf
        exact ⟨first, d, inner, List.mem_cons_self, hd, hb, hf.symm, Value.child?_setChild_self hd⟩

/-- A loop comes to its end if the writers below all of its children do. -/
theorem fault_alongSteps_eq_none (hn : steps.Nodup)
    (h : ∀ step ∈ steps, ∀ c, node.child? step = some c → (below c).fault = none) :
    (alongSteps below steps node).fault = none := by
  cases hf : (alongSteps below steps node).fault with
  | none => rfl
  | some fault =>
    obtain ⟨step, c, inner, hm, hc, hinner, -, -⟩ := exists_of_fault_alongSteps hn hf
    rw [h step hm c hc] at hinner
    exact absurd hinner.symm (Option.some_ne_none inner)

/-- A loop that comes to its end at each of its children. -/
theorem alongSteps_eq_done {g : Value → Value} (hn : steps.Nodup)
    (h : ∀ step ∈ steps, ∀ c, node.child? step = some c → below c = .done (g c)) :
    alongSteps below steps node = .done (node.updateChildren g steps) := by
  have hf : (alongSteps below steps node).fault = none := by
    refine fault_alongSteps_eq_none hn fun step hm c hc => ?_
    rw [h step hm c hc]
    rfl
  have hresult : node.updateChildren (fun c => (below c).result) steps =
      node.updateChildren g steps := by
    refine Value.updateChildren_congr hn fun step hm c hc => ?_
    rw [h step hm c hc]
    rfl
  rw [Outcome.eq_done hf, result_alongSteps hf, hresult]

/-! ### settling the leaf -/

variable {job : Job} {v : Value}

/-- Whether a target stays because it equals the leaf. -/
def keeps (job : Job) (v : Value) : Bool :=
  !v.isEmptyContainer && (v == job.leaf && job.permission.scalar)

theorem keeps_iff : keeps job v = true ↔
    v.isEmptyContainer = false ∧ (v == job.leaf) = true ∧ job.permission.scalar = true := by
  simp [keeps]

/-- What may be settled over: an empty container, the leaf itself where scalars may be replaced, and a
container or a scalar that may be replaced. -/
theorem fault_settle_eq_none_iff : (settle job v).fault = none ↔
    v.isEmptyContainer = true ∨ (v == job.leaf) = true ∧ job.permission.scalar = true ∨
      v.isContainer = true ∧ job.permission.container = true ∨
      v.isContainer = false ∧ job.permission.scalar = true := by
  unfold settle
  cases v.isEmptyContainer <;> cases v == job.leaf <;> cases v.isContainer <;>
    cases job.permission.scalar <;> cases job.permission.container <;> simp

theorem settle_of_keeps (h : keeps job v = true) : settle job v = .done v := by
  obtain ⟨hv, hleaf, hs⟩ := keeps_iff.mp h
  rw [settle, if_neg (by rw [hv]; exact Bool.false_ne_true), hleaf, hs]
  rfl

theorem settle_of_not_keeps (h : keeps job v = false) (hf : (settle job v).fault = none) :
    settle job v = .done job.leaf := by
  unfold keeps at h
  unfold settle at hf ⊢
  split_ifs at hf ⊢ <;> simp_all

/-- A leaf that has been settled without a fault has taken the node's place, unless the node equals it
and is kept. -/
theorem settle_cases (hf : (settle job v).fault = none) : settle job v = .done job.leaf ∨
    (v == job.leaf) = true ∧ job.permission.scalar = true ∧ settle job v = .done v := by
  cases hk : keeps job v with
  | true =>
    obtain ⟨-, hleaf, hs⟩ := keeps_iff.mp hk
    exact .inr ⟨hleaf, hs, settle_of_keeps hk⟩
  | false => exact .inl (settle_of_not_keeps hk hf)

end Write

end PathDoc
