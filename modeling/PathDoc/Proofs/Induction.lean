import PathDoc.Proofs.Opening

/-!
# PathDoc.Proofs.Induction — what holds of every write

Every write is a loop over each node that it comes to: one in which the segment fits, or one that has
been opened for it.  `descend_induction` proves what such loops preserve.  What comes up from the
children to a node is a property of every document that a write leaves (`Hereditary.descend`).
-/

namespace PathDoc

open Json

namespace Write

variable {job : Job} {s : Segment} {rest : Path} {steps : List Step} {node v : Value}

/-! ### induction on a write -/

/-- **Induction on a write** of a path that is not empty: what holds where the leaf is settled, where a
node cannot be opened, and of a loop over an opened node or one that the walk goes on from, if it
holds of the writer of the rest, holds of the descent. -/
theorem descend_induction {P : Path → Value → Outcome Value → Prop}
    (settled : ∀ node, P [] node (settle job node))
    (stopped : ∀ s rest node, opened? job s rest node = none →
      P (s :: rest) node ⟨node, some (.clash [] node)⟩)
    (opened : ∀ s rest node v steps below, s.excess? = none →
      opened? job s rest node = some (v, steps) → (∀ c, P rest c (below c)) →
        P (s :: rest) node (alongSteps below steps v))
    (walked : ∀ s rest node below, rest ≠ [] → s.fits node = true → (∀ c, P rest c (below c)) →
      P (s :: rest) node (alongSteps below (s.steps node) node))
    {path : Path} (hne : path ≠ []) (hx : ∀ s ∈ path, s.excess? = none) (node : Value) :
    P path node (descend job path node) := by
  have slot : ∀ (path : Path) node, (∀ s ∈ path, s.excess? = none) →
      P path node (intoSlot job path node) := by
    intro path node hx
    induction path generalizing node with
    | nil => exact settled node
    | cons s rest ih =>
      rw [List.forall_mem_cons] at hx
      rw [intoSlot_eq_intoNode, intoNode, enter_eq]
      cases ho : opened? job s rest node with
      | none => exact stopped s rest node ho
      | some vs => exact opened s rest node vs.1 vs.2 _ hx.1 ho fun c => ih c hx.2
  induction path generalizing node with
  | nil => exact absurd rfl hne
  | cons s rest ih =>
    rw [descend]
    by_cases hgo : rest ≠ [] ∧ s.fits node = true
    · rw [if_pos hgo]
      rw [List.forall_mem_cons] at hx
      exact walked s rest node _ hgo.1 hgo.2 fun c => ih hgo.1 hx.2 c
    · rw [if_neg hgo, ← intoSlot_eq_intoNode]
      exact slot (s :: rest) node hx

/-! ### induction on what a write leaves -/

/-- Whether a property of nodes and paths comes up from the selected children to a node in which the
segment fits, and which has room for it if it is the last one and no open span. -/
def Hereditary (P : Path → Value → Prop) : Prop :=
  ∀ s rest v, s.excess? = none → s.fits v = true →
    (rest = [] → s.isOpen = false → s.hasRoom v = true) →
    (∀ step ∈ s.steps v, ∀ c, v.child? step = some c → P rest c) → P (s :: rest) v

variable {P : Path → Value → Prop} {path : Path}

/-- It comes up to an opened node once the rest has been written at its steps. -/
theorem Hereditary.of_opened? (hP : Hereditary P) (hx : s.excess? = none) {g : Value → Value}
    (ho : opened? job s rest node = some (v, steps)) (hfresh : P rest (Path.scaffold rest job.leaf))
    (hg : ∀ step ∈ steps, ∀ c, v.child? step = some c → P rest (g c)) :
    P (s :: rest) (v.updateChildren g steps) := by
  have hout := Value.outline_updateChildren g steps v
  have hfits : s.fits (v.updateChildren g steps) = true := by
    rw [Segment.fits_congr hout]
    exact fits_of_opened? hx ho
  refine hP s rest _ hx hfits (fun _ hc => ?_) fun step hm c hc => ?_
  · rw [Segment.hasRoom_congr hout]
    exact hasRoom_of_opened? hx hc ho
  · rw [Segment.steps_congr hout] at hm
    by_cases hstep : step ∈ steps
    · rw [Value.child?_updateChildren_of_mem (nodup_steps_of_opened? ho) hstep] at hc
      obtain ⟨d, hd, rfl⟩ := Option.map_eq_some_iff.mp hc
      exact hg step hstep d hd
    · have hnew := (mem_steps_of_opened? hx ho hm).resolve_left hstep
      rw [Value.child?_updateChildren_of_not_mem hstep, hnew] at hc
      rw [← Option.some.inj hc]
      exact hfresh

/-- Fresh containers have it if the leaf has. -/
theorem Hereditary.scaffold (hP : Hereditary P) (hleaf : P [] job.leaf)
    (hx : ∀ s ∈ path, s.excess? = none) : P path (Path.scaffold path job.leaf) := by
  induction path with
  | nil => exact hleaf
  | cons s rest ih =>
    rw [List.forall_mem_cons] at hx
    have hrest := ih hx.2
    obtain ⟨v, steps, ho, he⟩ := enclose_eq job s rest
    rw [Path.scaffold_cons, he]
    exact hP.of_opened? hx.1 ho hrest fun step _ c _ => hrest

/-- **Induction on what a write leaves**: where it has come to its end, the descent leaves a node that
has every property which a settled leaf has and which comes up from children. -/
theorem Hereditary.descend (hP : Hereditary P)
    (settled : ∀ node, (settle job node).fault = none → P [] (settle job node).result)
    (hne : path ≠ []) (hx : ∀ s ∈ path, s.excess? = none)
    (hf : (descend job path node).fault = none) : P path (descend job path node).result := by
  have hleaf : P [] job.leaf := settled (.obj []) rfl
  refine descend_induction (P := fun path _ r => (∀ s ∈ path, s.excess? = none) → r.fault = none →
    P path r.result) ?settled ?stopped ?opened ?walked hne hx node hx hf
  case settled => exact fun node _ hf => settled node hf
  case stopped => exact fun s rest node _ _ hf => absurd hf (Option.some_ne_none _)
  case opened =>
    intro s rest node v steps below hs ho hb hx hf
    rw [List.forall_mem_cons] at hx
    rw [result_alongSteps hf]
    exact hP.of_opened? hs ho (hP.scaffold hleaf hx.2) fun step hm c hc =>
      hb c hx.2 (fault_below_of_alongSteps (nodup_steps_of_opened? ho) hf hm hc)
  case walked =>
    intro s rest node below hrest hfits hb hx hf
    rw [List.forall_mem_cons] at hx
    have hn := s.nodup_steps node
    have hout := outline_alongSteps below (s.steps node) node
    have hfits' : s.fits (alongSteps below (s.steps node) node).result = true := by
      rw [Segment.fits_congr hout, hfits]
    refine hP s rest _ hx.1 hfits' (fun h => absurd h hrest) fun step hm c hc => ?_
    rw [steps_alongSteps] at hm
    rw [child?_alongSteps_of_mem hn hf hm] at hc
    obtain ⟨d, hd, rfl⟩ := Option.map_eq_some_iff.mp hc
    exact hb d hx.2 (fault_below_of_alongSteps hn hf hm hd)

end Write

end PathDoc
