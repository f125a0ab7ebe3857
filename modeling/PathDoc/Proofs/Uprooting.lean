import PathDoc.Proofs.Cutting
import PathDoc.Proofs.Descent

/-!
# PathDoc.Proofs.Uprooting — removal as one descent of the tree

A removal finds its parents with the walk of the writer and cuts at one after another.
`Removal.uproot` does it by recursion on the path, and `prune_eq_uproot` says that the two agree.
What a removal does to the document follows by induction: each parent is left without the selected
children (`targets_uproot`), and nothing else changes (`outline_get?_uproot`).
-/

namespace PathDoc

open Json

namespace Removal

variable {last s : Segment} {pre path : Path} {node c : Value} {step : Step}

/-! ### the parents -/

/-- The branches at which the last segment is cut. -/
def reached (root : Value) (path : Path) : List Branch :=
  (root.frontier path).1.filter fun b => !b.stuck && b.place.length == path.length - 1

theorem reached_singleton (root : Value) (s : Segment) : reached root [s] = [Branch.start root] :=
  rfl

theorem reached_cons (root : Value) (s : Segment) (hp : path ≠ []) : reached root (s :: path) =
    if s.fits root then
      (s.children root).flatMap fun c => (reached c.2 path).map (Branch.under c.1)
    else [] := by
  obtain ⟨t, rest, rfl⟩ := List.exists_cons_of_ne_nil hp
  rw [reached, frontier_cons_cons]
  by_cases h : s.fits root = true
  · rw [if_pos h, if_pos h, List.filter_flatMap]
    refine List.flatMap_congr fun c _ => ?_
    rw [List.filter_map]
    refine congrArg (List.map _) (List.filter_congr fun b _ => ?_)
    simp [Branch.under]
  · rw [if_neg h, if_neg h]
    rfl

/-! ### the branches below one child -/

theorem atBranches_cons (b : Branch) (more : List Branch) (root : Value) :
    atBranches last (b :: more) root = match root.get? b.place with
      | none => atBranches last more root
      | some parent =>
        ((last.cut parent).1 ::
            (atBranches last more ((root.replace? b.place (last.cut parent).2).getD root)).1,
          (atBranches last more ((root.replace? b.place (last.cut parent).2).getD root)).2) := rfl

theorem atBranches_append (bs cs : List Branch) (root : Value) :
    atBranches last (bs ++ cs) root =
      ((atBranches last bs root).1 ++ (atBranches last cs (atBranches last bs root).2).1,
        (atBranches last cs (atBranches last bs root).2).2) := by
  induction bs generalizing root with
  | nil => rfl
  | cons b bs ih =>
    rw [List.cons_append, atBranches_cons, atBranches_cons]
    cases root.get? b.place with
    | none => exact ih root
    | some parent => simp only [ih, List.cons_append]

theorem atBranches_under (h : node.child? step = some c) (bs : List Branch) :
    atBranches last (bs.map (Branch.under step)) node =
      ((atBranches last bs c).1, node.setChild step (atBranches last bs c).2) := by
  induction bs generalizing node c with
  | nil => rw [List.map_nil, atBranches_nil, atBranches_nil, Value.setChild_self h]
  | cons b bs ih =>
    rw [List.map_cons, atBranches_cons, atBranches_cons, Branch.get?_under h]
    cases hc : c.get? b.place with
    | none => exact ih h
    | some parent =>
      simp only [Branch.getD_replace?_under h]
      rw [ih (Value.child?_setChild_self h), Value.setChild_setChild]

theorem atBranches_flatMap (branches : Value → List Branch) {cs : List (Step × Value)}
    (hn : (cs.map Prod.fst).Nodup) (h : ∀ c ∈ cs, node.child? c.1 = some c.2) :
    atBranches last (cs.flatMap fun c => (branches c.2).map (Branch.under c.1)) node =
      (cs.flatMap fun c => (atBranches last (branches c.2) c.2).1,
        node.updateChildren (fun c => (atBranches last (branches c) c).2) (cs.map Prod.fst)) := by
  induction cs generalizing node with
  | nil => rfl
  | cons c cs ih =>
    obtain ⟨hfirst, hn⟩ := List.nodup_cons.mp hn
    have hc := h c List.mem_cons_self
    have hmore : ∀ c' ∈ cs,
        (node.setChild c.1 (atBranches last (branches c.2) c.2).2).child? c'.1 = some c'.2 := by
      intro d hd
      have hstep : d.1 ∈ cs.map Prod.fst := List.mem_map_of_mem hd
      rw [Value.child?_setChild_of_not_mem hfirst hstep, h d (List.mem_cons_of_mem _ hd)]
    rw [List.flatMap_cons, atBranches_append, atBranches_under hc, ih hn hmore, List.flatMap_cons,
      List.map_cons, Value.updateChildren_cons_of_some hc]

/-! ### the descent -/

/-- Takes out what the last segment denotes at every node to which the path before it leads. -/
def uproot (last : Segment) : Path → Value → List (Option Value) × Value
  | [], v => ([(last.cut v).1], (last.cut v).2)
  | s :: pre, v =>
    if s.fits v then
      ((s.children v).flatMap fun c => (uproot last pre c.2).1,
        v.updateChildren (fun c => (uproot last pre c).2) (s.steps v))
    else ([], v)

/-- **Removal descends.** -/
theorem atBranches_reached (root : Value) (pre : Path) :
    atBranches last (reached root (pre ++ [last])) root = uproot last pre root := by
  induction pre generalizing root with
  | nil =>
    rw [List.nil_append, reached_singleton, atBranches_cons, Branch.start]
    simp only [Value.get?_nil, Value.replace?_nil, Option.getD_some, atBranches_nil]
    rfl
  | cons s pre ih =>
    rw [List.cons_append, reached_cons root s (by simp), uproot]
    by_cases h : s.fits root = true
    · rw [if_pos h, if_pos h, atBranches_flatMap (fun c => reached c (pre ++ [last]))
        (s.nodup_steps root) fun c hc => Segment.child?_of_mem_children hc]
      simp only [ih]
      rfl
    · rw [if_neg h, if_neg h, atBranches_nil]

/-! ### what it does to the document -/

/-- The children of a node in which the selected ones have been replaced. -/
theorem children_updateChildren (s : Segment) (v : Value) (g : Value → Value) :
    s.children (v.updateChildren g (s.steps v)) = (s.children v).map fun c => (c.1, g c.2) := by
  have hsteps (w : Value) :
      s.children w = (s.steps w).filterMap fun step => (w.child? step).map fun c => (step, c) := by
    rw [Segment.steps, List.filterMap_map]
    refine (List.filterMap_some.symm.trans (List.filterMap_congr fun c hc => ?_))
    rw [Function.comp_apply, Segment.child?_of_mem_children hc]
    rfl
  rw [hsteps, Segment.steps_congr (Value.outline_updateChildren g _ v), hsteps v,
    List.map_filterMap]
  refine List.filterMap_congr fun step hm => ?_
  rw [Value.child?_updateChildren_of_mem (s.nodup_steps v) hm, Option.map_map, Option.map_map]
  rfl

/-- An entry for each parent, in the order of the reader. -/
theorem uproot_fst (last : Segment) {v : Value} (hw : pre.Within v) :
    (uproot last pre v).1 = (pre.targets v).map fun t => (last.cut t.2).1 := by
  induction pre generalizing v with
  | nil => rfl
  | cons s pre ih =>
    rw [uproot, Path.targets_cons]
    by_cases h : s.fits v = true
    · rw [if_pos h, List.map_flatMap]
      refine List.flatMap_congr fun c hc => ?_
      rw [ih (hw.2 c hc), List.map_map]
      rfl
    · rw [if_neg h, Segment.children_eq_nil hw.1 (by simpa using h)]
      rfl

/-- The reader finds the same parents afterwards, each without the children that were selected. -/
theorem targets_uproot (last : Segment) {v : Value} (hw : pre.Within v) :
    pre.Within (uproot last pre v).2 ∧ pre.targets (uproot last pre v).2 =
      (pre.targets v).map fun t => (t.1, last.spared t.2) := by
  induction pre generalizing v with
  | nil =>
    rw [uproot, Segment.cut_snd]
    exact ⟨trivial, rfl⟩
  | cons s pre ih =>
    rw [uproot]
    by_cases h : s.fits v = true
    · rw [if_pos h, Path.within_cons, Path.targets_cons, Path.targets_cons, children_updateChildren]
      refine ⟨⟨?_, fun c hc => ?_⟩, ?_⟩
      · refine Segment.outside?_of_fits ?_
        rw [Segment.fits_congr (Value.outline_updateChildren _ _ v), h]
      · obtain ⟨d, hd, rfl⟩ := List.mem_map.mp hc
        exact (ih (hw.2 d hd)).1
      · rw [List.flatMap_map, List.map_flatMap]
        refine List.flatMap_congr fun c hc => ?_
        rw [(ih (hw.2 c hc)).2, List.map_map, List.map_map]
        rfl
    · rw [if_neg h]
      refine ⟨hw, ?_⟩
      rw [Path.targets_cons, Segment.children_eq_nil hw.1 (by simpa using h)]
      rfl

/-- **The frame of a removal**: away from the parents and what is below them, no node changes. -/
theorem outline_get?_uproot (v : Value) {m : Location}
    (hm : ∀ t ∈ pre.targets v, ¬ t.1 <+: m) :
    ((uproot last pre v).2.get? m).map Value.outline = (v.get? m).map Value.outline := by
  induction pre generalizing v m with
  | nil => exact absurd List.nil_prefix (hm ([], v) (List.mem_singleton.mpr rfl))
  | cons s pre ih =>
    rw [uproot]
    by_cases h : s.fits v = true
    · rw [if_pos h]
      cases m with
      | nil =>
        rw [Value.get?_nil, Value.get?_nil, Option.map_some, Option.map_some,
          Value.outline_updateChildren]
      | cons step m =>
        rw [Value.get?_cons, Value.get?_cons]
        by_cases hs : step ∈ s.steps v
        · rw [Value.child?_updateChildren_of_mem (s.nodup_steps v) hs]
          cases hc : v.child? step with
          | none => rfl
          | some c =>
            refine ih c fun t ht hp => ?_
            refine hm (step :: t.1, t.2) (Path.mem_targets_cons.mpr
              ⟨(step, c), Segment.mem_children.mpr ⟨hs, hc⟩, t, ht, rfl⟩) ?_
            exact List.cons_prefix_cons.mpr ⟨rfl, hp⟩
        · rw [Value.child?_updateChildren_of_not_mem hs]
    · rw [if_neg h]

end Removal

theorem prune_eq_uproot (root : Value) (pre : Path) (last : Segment) :
    root.prune (pre ++ [last]) = Removal.uproot last pre root := by
  rw [← Removal.atBranches_reached, Value.prune, List.getLast?_concat]
  rfl

end PathDoc
