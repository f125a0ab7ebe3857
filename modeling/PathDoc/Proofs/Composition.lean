import PathDoc.Proofs.Loops
import PathDoc.Proofs.Uprooting

/-!
# PathDoc.Proofs.Composition — a path in two parts

Where a walk of the front of a path gets stuck nowhere, it ends at the targets of the front, none of
which lies in another one.  A write or a removal of the whole path then does at each target what the
rest of the path does to the node there on its own (`Value.updateTargets`), and to put these results in
their places one after another is to do so all at once (`replaceEach?_targets`).
-/

namespace PathDoc

open Json

/-- Whether neither of two places lies in the other one. -/
def Location.Apart (l m : Location) : Prop := ¬ l <+: m ∧ ¬ m <+: l

theorem Location.Apart.symm {l m : Location} (h : l.Apart m) : m.Apart l := ⟨h.2, h.1⟩

theorem Location.Apart.ne {l m : Location} (h : l.Apart m) : l ≠ m := by
  rintro rfl
  exact h.1 (List.prefix_refl l)

theorem Location.apart_cons_iff {step : Step} {l m : Location} :
    Location.Apart (step :: l) (step :: m) ↔ l.Apart m := by
  simp only [Apart, List.prefix_cons_inj]

theorem Location.apart_of_ne {step step' : Step} (h : step ≠ step') (l m : Location) :
    Location.Apart (step :: l) (step' :: m) :=
  ⟨fun hp => h (List.cons_prefix_cons.mp hp).1, fun hp => h (List.cons_prefix_cons.mp hp).1.symm⟩

namespace Json.Value

/-- The document with other nodes at some places, one after another; each must be there. -/
def replaceEach? (v : Value) (ts : List Site) : Option Value :=
  ts.foldlM (fun v t => v.replace? t.1 t.2) v

/-- The document with other nodes at the targets of a path. -/
def updateTargets (g : Value → Value) : Path → Value → Value
  | [], v => g v
  | s :: rest, v => v.updateChildren (updateTargets g rest) (s.steps v)

variable {v w c : Value} {step : Step} {l m : Location} {g : Value → Value}

/-! ### one place -/

theorem replace?_cons_eq_some_iff : v.replace? (step :: l) c = some w ↔
    ∃ a b, v.child? step = some a ∧ a.replace? l c = some b ∧ v.setChild step b = w := by
  simp only [replace?_cons, Option.bind_eq_some_iff, Option.map_eq_some_iff, exists_and_left]

theorem get?_replace?_self (h : v.replace? l c = some w) : w.get? l = some c := by
  induction l generalizing v w with
  | nil =>
    rw [replace?_nil] at h
    rw [get?_nil, ← h]
  | cons step l ih =>
    obtain ⟨d, d', hd, hd', rfl⟩ := replace?_cons_eq_some_iff.mp h
    rw [get?_cons, child?_setChild_self hd, Option.bind_some]
    exact ih hd'

/-- A node apart from the place stays as it is. -/
theorem get?_replace?_of_apart (h : v.replace? l c = some w) (ha : l.Apart m) :
    w.get? m = v.get? m := by
  induction l generalizing v w m with
  | nil => exact absurd List.nil_prefix ha.1
  | cons step l ih =>
    cases m with
    | nil => exact absurd List.nil_prefix ha.2
    | cons step' m =>
      obtain ⟨d, d', hd, hd', rfl⟩ := replace?_cons_eq_some_iff.mp h
      rw [get?_cons, get?_cons]
      by_cases hs : step = step'
      · subst hs
        rw [child?_setChild_self hd, hd, Option.bind_some, Option.bind_some]
        exact ih hd' (Location.apart_cons_iff.mp ha)
      · rw [child?_setChild_ne hs]

/-! ### several places -/

theorem replaceEach?_cons (v : Value) (t : Site) (ts : List Site) :
    v.replaceEach? (t :: ts) = (v.replace? t.1 t.2).bind fun w => w.replaceEach? ts := rfl

theorem replaceEach?_append (v : Value) (ts us : List Site) :
    v.replaceEach? (ts ++ us) = (v.replaceEach? ts).bind fun w => w.replaceEach? us :=
  List.foldlM_append

/-- Apart places hold what has been put there, and what is apart from all of them stays as it is. -/
theorem get?_replaceEach? {ts : List Site}
    (hp : ts.Pairwise fun t u => t.1.Apart u.1) (h : v.replaceEach? ts = some w) :
    (∀ t ∈ ts, w.get? t.1 = some t.2) ∧
      ∀ m, (∀ t ∈ ts, t.1.Apart m) → w.get? m = v.get? m := by
  induction ts generalizing v with
  | nil =>
    obtain rfl : v = w := Option.some.inj h
    exact ⟨fun t ht => absurd ht List.not_mem_nil, fun m _ => rfl⟩
  | cons t ts ih =>
    obtain ⟨hfirst, hp⟩ := List.pairwise_cons.mp hp
    rw [replaceEach?_cons] at h
    obtain ⟨u, hu, h⟩ := Option.bind_eq_some_iff.mp h
    obtain ⟨hput, hstay⟩ := ih hp h
    constructor
    · rw [List.forall_mem_cons]
      refine ⟨?_, hput⟩
      rw [hstay t.1 fun t' ht' => (hfirst t' ht').symm]
      exact get?_replace?_self hu
    · intro m hm
      rw [List.forall_mem_cons] at hm
      rw [hstay m hm.2]
      exact get?_replace?_of_apart hu hm.1

/-- To replace nodes below one child is to replace that child. -/
theorem replaceEach?_under (hc : v.child? step = some c) (ts : List Site) :
    v.replaceEach? (ts.map (Site.under [step])) = (c.replaceEach? ts).map (v.setChild step) := by
  induction ts generalizing v c with
  | nil =>
    show some v = some (v.setChild step c)
    rw [setChild_self hc]
  | cons t ts ih =>
    have hfirst : v.replace? (Site.under [step] t).1 t.2 =
        (c.replace? t.1 t.2).map (v.setChild step) := by
      show v.replace? (step :: t.1) t.2 = _
      rw [replace?_cons, hc, Option.bind_some]
    rw [List.map_cons, replaceEach?_cons, replaceEach?_cons]
    show (v.replace? (Site.under [step] t).1 t.2).bind _ = _
    rw [hfirst]
    cases c.replace? t.1 t.2 with
    | none => rfl
    | some d =>
      rw [Option.map_some, Option.bind_some, Option.bind_some, ih (child?_setChild_self hc)]
      refine congrArg (Option.map · (d.replaceEach? ts)) (funext fun w => ?_)
      exact setChild_setChild v step d w

/-- To replace nodes below several children is to replace these children. -/
theorem replaceEach?_flatMap {cs : List (Step × Value)} {ts : Step × Value → List Site}
    (hn : (cs.map Prod.fst).Nodup) (hc : ∀ c ∈ cs, v.child? c.1 = some c.2)
    (ht : ∀ c ∈ cs, c.2.replaceEach? (ts c) = some (g c.2)) :
    v.replaceEach? (cs.flatMap fun c => (ts c).map (Site.under [c.1])) =
      some (v.updateChildren g (cs.map Prod.fst)) := by
  induction cs generalizing v with
  | nil => rfl
  | cons c cs ih =>
    obtain ⟨hfirst, hn⟩ := List.nodup_cons.mp hn
    rw [List.forall_mem_cons] at hc ht
    rw [List.flatMap_cons, replaceEach?_append, replaceEach?_under hc.1, ht.1, Option.map_some,
      Option.bind_some, List.map_cons, updateChildren_cons_of_some hc.1]
    refine ih hn (fun d hd => ?_) ht.2
    have hmore : d.1 ∈ cs.map Prod.fst := List.mem_map_of_mem hd
    rw [child?_setChild_of_not_mem hfirst hmore, hc.2 d hd]

/-- **The targets of a path can be replaced one after another.** -/
theorem replaceEach?_targets (g : Value → Value) (path : Path) (v : Value) :
    v.replaceEach? ((path.targets v).map fun t => (t.1, g t.2)) =
      some (v.updateTargets g path) := by
  induction path generalizing v with
  | nil => rfl
  | cons s rest ih =>
    have hbelow : ((Path.targets (s :: rest) v).map fun t => (t.1, g t.2)) =
        (s.children v).flatMap fun c =>
          ((Path.targets rest c.2).map fun t => (t.1, g t.2)).map (Site.under [c.1]) := by
      rw [Path.targets_cons, List.map_flatMap]
      refine List.flatMap_congr fun c _ => ?_
      rw [List.map_map, List.map_map]
      rfl
    rw [hbelow]
    exact replaceEach?_flatMap (s.nodup_steps v) (fun c hc => Segment.child?_of_mem_children hc)
      fun c _ => ih c.2

end Json.Value

namespace Path

variable {pre rest : Path} {v : Value}

/-- No target of a path lies in another one. -/
theorem pairwise_targets (path : Path) (v : Value) :
    (path.targets v).Pairwise fun t u => t.1.Apart u.1 := by
  induction path generalizing v with
  | nil => exact List.pairwise_singleton _ _
  | cons s rest ih =>
    have hsteps : (s.children v).Pairwise fun c d => c.1 ≠ d.1 :=
      List.pairwise_map.mp (s.nodup_steps v)
    rw [targets_cons, List.pairwise_flatMap]
    constructor
    · intro c _
      rw [List.pairwise_map]
      exact (ih c.2).imp fun h => Location.apart_cons_iff.mpr h
    · refine hsteps.imp fun {c d} hne t ht u hu => ?_
      obtain ⟨t, -, rfl⟩ := List.mem_map.mp ht
      obtain ⟨u, -, rfl⟩ := List.mem_map.mp hu
      exact Location.apart_of_ne hne t.1 u.1

/-- Whether every segment fits all the nodes to which those before it lead. -/
def Fits : Path → Value → Prop
  | [], _ => True
  | s :: rest, v => s.fits v = true ∧ ∀ c ∈ s.children v, Fits rest c.2

/-- A path of proper segments that fit has a target. -/
theorem Fits.targets_ne_nil (hf : pre.Fits v) (hp : ∀ s ∈ pre, s.isProper = true) :
    pre.targets v ≠ [] := by
  induction pre generalizing v with
  | nil => exact List.cons_ne_nil _ _
  | cons s pre ih =>
    rw [List.forall_mem_cons] at hp
    obtain ⟨c, hc⟩ := List.exists_mem_of_ne_nil _ (Segment.children_ne_nil hp.1 hf.1)
    obtain ⟨t, ht⟩ := List.exists_mem_of_ne_nil _ (ih (hf.2 c hc) hp.2)
    exact List.ne_nil_of_mem (mem_targets_cons.mpr ⟨c, hc, t, ht, rfl⟩)

/-- A front fits as before when its targets have been replaced. -/
theorem Fits.updateTargets (hf : pre.Fits v) (g : Value → Value) : pre.Fits (v.updateTargets g pre) := by
  induction pre generalizing v with
  | nil => trivial
  | cons s pre ih =>
    rw [Value.updateTargets]
    refine ⟨?_, fun c hc => ?_⟩
    · rw [Segment.fits_congr (Value.outline_updateChildren _ _ v)]
      exact hf.1
    · rw [Removal.children_updateChildren] at hc
      obtain ⟨d, hd, rfl⟩ := List.mem_map.mp hc
      exact ih (hf.2 d hd)

/-- It then leads to what is there now. -/
theorem targets_updateTargets (g : Value → Value) (pre : Path) (v : Value) :
    pre.targets (v.updateTargets g pre) = (pre.targets v).map fun t => (t.1, g t.2) := by
  induction pre generalizing v with
  | nil => rfl
  | cons s pre ih =>
    rw [Value.updateTargets, targets_cons, targets_cons, Removal.children_updateChildren,
      List.flatMap_map, List.map_flatMap]
    refine List.flatMap_congr fun c _ => ?_
    rw [ih, List.map_map, List.map_map]
    rfl

/-- To replace the targets twice is to replace them once by what the second time makes of the first. -/
theorem updateTargets_updateTargets (f g : Value → Value) (pre : Path) (v : Value) :
    (v.updateTargets f pre).updateTargets g pre = v.updateTargets (fun n => g (f n)) pre := by
  induction pre generalizing v with
  | nil => rfl
  | cons s pre ih =>
    rw [Value.updateTargets, Value.updateTargets, Value.updateTargets,
      Segment.steps_congr (Value.outline_updateChildren _ _ v),
      Value.updateChildren_updateChildren (s.nodup_steps v)]
    simp only [ih]

end Path

/-- **A walk that gets stuck nowhere** ends at the targets, and every segment fits on its way. -/
theorem follow_eq_of_free {pre : Path} {root : Value}
    (h : ∀ b ∈ Frontier.follow pre [Branch.start root], b.stuck = false) :
    pre.Fits root ∧ Frontier.follow pre [Branch.start root] =
      (pre.targets root).map fun t => ⟨t.1, t.2, false⟩ := by
  induction pre generalizing root with
  | nil => exact ⟨trivial, rfl⟩
  | cons s pre ih =>
    rw [Frontier.follow_start_cons] at h ⊢
    by_cases hs : s.fits root = true
    · rw [if_pos hs] at h ⊢
      have hbelow : ∀ c ∈ s.children root,
          ∀ b ∈ Frontier.follow pre [Branch.start c.2], b.stuck = false := by
        intro c hc b hb
        exact h (b.under c.1) (List.mem_flatMap.mpr ⟨c, hc, List.mem_map_of_mem hb⟩)
      refine ⟨⟨hs, fun c hc => (ih (hbelow c hc)).1⟩, ?_⟩
      rw [Path.targets_cons, List.map_flatMap]
      refine List.flatMap_congr fun c hc => ?_
      rw [(ih (hbelow c hc)).2, List.map_map, List.map_map]
      rfl
    · rw [if_neg hs] at h
      exact absurd (h _ (List.mem_singleton.mpr rfl)) (by simp)

/-! ### writing the rest -/

namespace Write

variable {job : Job} {pre rest : Path} {v : Value}

theorem descend_cons_append {s : Segment} (hrest : rest ≠ []) (hs : s.fits v = true) :
    descend job (s :: pre ++ rest) v = alongSteps (descend job (pre ++ rest)) (s.steps v) v := by
  have hgo : pre ++ rest ≠ [] ∧ s.fits v = true := ⟨List.append_ne_nil_of_right_ne_nil pre hrest, hs⟩
  rw [List.cons_append, descend, if_pos hgo]

/-- The descent comes to its end if it does so from each target of the front. -/
theorem fault_descend_append_iff (hrest : rest ≠ []) (hf : pre.Fits v) :
    (descend job (pre ++ rest) v).fault = none ↔
      ∀ t ∈ pre.targets v, (descend job rest t.2).fault = none := by
  induction pre generalizing v with
  | nil => simp
  | cons s pre ih =>
    rw [descend_cons_append hrest hf.1]
    constructor
    · intro hnone t ht
      obtain ⟨c, hc, u, hu, rfl⟩ := Path.mem_targets_cons.mp ht
      obtain ⟨hm, hchild⟩ := Segment.mem_children.mp hc
      have hbelow := fault_below_of_alongSteps (s.nodup_steps v) hnone hm hchild
      exact (ih (hf.2 c hc)).mp hbelow u hu
    · intro h
      refine fault_alongSteps_eq_none (s.nodup_steps v) fun step hm c hchild => ?_
      have hc : (step, c) ∈ s.children v := Segment.mem_children.mpr ⟨hm, hchild⟩
      refine (ih (hf.2 _ hc)).mpr fun u hu => ?_
      exact h (step :: u.1, u.2) (Path.mem_targets_cons.mpr ⟨(step, c), hc, u, hu, rfl⟩)

/-- What it leaves has at each target what it leaves there. -/
theorem result_descend_append (hrest : rest ≠ []) (hf : pre.Fits v)
    (hnone : (descend job (pre ++ rest) v).fault = none) :
    (descend job (pre ++ rest) v).result =
      v.updateTargets (fun n => (descend job rest n).result) pre := by
  induction pre generalizing v with
  | nil => rfl
  | cons s pre ih =>
    have hn := s.nodup_steps v
    rw [descend_cons_append hrest hf.1] at hnone ⊢
    rw [result_alongSteps hnone, Value.updateTargets]
    refine Value.updateChildren_congr hn fun step hm c hc => ?_
    have hbelow := fault_below_of_alongSteps hn hnone hm hc
    exact ih (hf.2 _ (Segment.mem_children.mpr ⟨hm, hc⟩)) hbelow

end Write

/-! ### removing the rest -/

namespace Removal

variable {last : Segment} {pre rest : Path} {v : Value}

theorem uproot_append (hf : pre.Fits v) : uproot last (pre ++ rest) v =
    ((pre.targets v).flatMap fun t => (uproot last rest t.2).1,
      v.updateTargets (fun n => (uproot last rest n).2) pre) := by
  induction pre generalizing v with
  | nil => simp [Value.updateTargets]
  | cons s pre ih =>
    rw [List.cons_append, uproot, if_pos hf.1, Path.targets_cons, List.flatMap_assoc,
      Value.updateTargets]
    refine Prod.ext (List.flatMap_congr fun c hc => ?_) ?_
    · rw [ih (hf.2 c hc), List.flatMap_map]
      rfl
    · refine Value.updateChildren_congr (s.nodup_steps v) fun step hm c hc => ?_
      rw [ih (hf.2 _ (Segment.mem_children.mpr ⟨hm, hc⟩))]

end Removal

/-! ### the whole path -/

namespace Write

variable {job : Job} {pre rest : Path} {root : Value}

theorem firstExcess?_append_eq_none_iff :
    firstExcess? (pre ++ rest) = none ↔ firstExcess? pre = none ∧ firstExcess? rest = none := by
  simp only [firstExcess?_eq_none_iff, List.forall_mem_append]

/-- A write comes to its end if the writes of the rest at the targets of the front do. -/
theorem fault_write_append_iff (hrest : rest ≠ []) (hproper : ∀ s ∈ pre, s.isProper = true)
    (hx : firstExcess? pre = none) (hf : pre.Fits root) :
    (root.write (pre ++ rest) job).fault = none ↔
      ∀ t ∈ pre.targets root, (t.2.write rest job).fault = none := by
  constructor
  · intro hnone t ht
    have hxs := firstExcess?_of_write hnone
    have hxr := (firstExcess?_append_eq_none_iff.mp hxs).2
    rw [write_eq_descend hxs] at hnone
    rw [write_eq_descend hxr]
    exact (fault_descend_append_iff hrest hf).mp hnone t ht
  · intro h
    -- a target tells that the rest has no excessive index either
    obtain ⟨t, ht⟩ := List.exists_mem_of_ne_nil _ (hf.targets_ne_nil hproper)
    have hxr := firstExcess?_of_write (h t ht)
    rw [write_eq_descend (firstExcess?_append_eq_none_iff.mpr ⟨hx, hxr⟩)]
    refine (fault_descend_append_iff hrest hf).mpr fun u hu => ?_
    rw [← write_eq_descend hxr]
    exact h u hu

/-- What a write leaves is what the writes of the rest leave, each at its target. -/
theorem result_write_append (hrest : rest ≠ []) (hf : pre.Fits root)
    (hnone : (root.write (pre ++ rest) job).fault = none) :
    (root.write (pre ++ rest) job).result =
      root.updateTargets (fun n => (n.write rest job).result) pre := by
  have hxs := firstExcess?_of_write hnone
  have hxr := (firstExcess?_append_eq_none_iff.mp hxs).2
  rw [write_eq_descend hxs] at hnone ⊢
  rw [result_descend_append hrest hf hnone]
  exact congrArg (fun g => root.updateTargets g pre) (funext fun n => by rw [write_eq_descend hxr])

end Write

theorem prune_append {pre rest : Path} {root : Value} (hrest : rest ≠ []) (hf : pre.Fits root) :
    root.prune (pre ++ rest) = ((pre.targets root).flatMap fun t => (t.2.prune rest).1,
      root.updateTargets (fun n => (n.prune rest).2) pre) := by
  obtain ⟨mid, last, rfl⟩ := (List.eq_nil_or_concat rest).resolve_left hrest
  rw [List.concat_eq_append]
  simp only [← List.append_assoc, prune_eq_uproot]
  exact Removal.uproot_append hf

/-- **No branch sees, shifts or skips another one.**  Where a walk of the front of a path gets stuck
nowhere, it ends at nodes of which none lies in another one.  A write of the whole path comes to its end
exactly if each of these nodes on its own can be written at the rest, and then leaves the document with
each of them in its place; a removal takes what it takes from each, one after another, and leaves the
document with what is left of each. -/
theorem write_and_prune_append {root : Value} {pre rest : Path} {front : List Branch}
    (hrest : rest ≠ []) (hproper : ∀ s ∈ pre, s.isProper = true)
    (hx : Write.firstExcess? pre = none)
    (hwalk : (Frontier.walk pre [Branch.start root]).1 = front)
    (hfree : ∀ b ∈ front, b.stuck = false) :
    (∀ b ∈ front, root.get? b.place = some b.node) ∧
    front.Pairwise (fun b c => b.place.Apart c.place) ∧
    (∀ job,
      ((root.write (pre ++ rest) job).fault = none ↔
        ∀ b ∈ front, (b.node.write rest job).fault = none) ∧
      ((root.write (pre ++ rest) job).fault = none →
        root.replaceEach? (front.map fun b => (b.place, (b.node.write rest job).result)) =
          some (root.write (pre ++ rest) job).result)) ∧
    (root.prune (pre ++ rest)).1 = front.flatMap (fun b => (b.node.prune rest).1) ∧
    root.replaceEach? (front.map fun b => (b.place, (b.node.prune rest).2)) =
      some (root.prune (pre ++ rest)).2 := by
  have hfollow : Frontier.follow pre [Branch.start root] = front := by
    rw [← hwalk, Frontier.walk_fst]
    rfl
  rw [← hfollow] at hfree
  obtain ⟨hf, htargets⟩ := follow_eq_of_free hfree
  obtain rfl : (pre.targets root).map (fun t => ⟨t.1, t.2, false⟩) = front :=
    htargets.symm.trans hfollow
  refine ⟨?_, ?_, fun job => ⟨?_, fun hnone => ?_⟩, ?_, ?_⟩
  · rw [List.forall_mem_map]
    exact fun t ht => Path.get?_of_mem_targets ht
  · rw [List.pairwise_map]
    exact pre.pairwise_targets root
  · rw [List.forall_mem_map]
    exact Write.fault_write_append_iff hrest hproper hx hf
  · rw [List.map_map, Write.result_write_append hrest hf hnone]
    exact Value.replaceEach?_targets (fun n => (n.write rest job).result) pre root
  · rw [List.flatMap_map, prune_append hrest hf]
  · rw [List.map_map, prune_append hrest hf]
    exact Value.replaceEach?_targets (fun n => (n.prune rest).2) pre root

/-- Two rows in the order of the list, the last one first; each of them grows by its own element.  The
second row alone does not have what is to be taken. -/
theorem write_and_prune_append_rows :
    let one : Value := .num (.int 1)
    let root : Value := .obj [("a", .arr [.arr [one], .str "x", .arr [one, .obj []]])]
    let pre : Path := [.member "a", .indexes [-1, 0, 2]]
    let rest : Path := [.index 1]
    let front : List Branch :=
      [⟨[.key "a", .pos 2], .arr [one, .obj []], false⟩, ⟨[.key "a", .pos 0], .arr [one], false⟩]
    let new : Value := .obj [("a", .arr [.arr [one, .null], .str "x", .arr [one, .null]])]
    (Frontier.walk pre [Branch.start root]).1 = front ∧
      root.write (pre ++ rest) ⟨.null, .low⟩ = .done new ∧
      root.replaceEach? (front.map fun b => (b.place, (b.node.write rest ⟨.null, .low⟩).result)) =
        some new ∧
      (root.prune (pre ++ rest)).1 = [some (.obj []), none] := by
  intro one root pre rest front new
  have hwalk : (Frontier.walk pre [Branch.start root]).1 = front := by rfl
  have hwrite : root.write (pre ++ rest) ⟨.null, .low⟩ = .done new := by rfl
  have hfree : ∀ b ∈ front, b.stuck = false := by decide
  have hproper : ∀ s ∈ pre, s.isProper = true := by decide
  have hx : Write.firstExcess? pre = none := by rfl
  have hrest : rest ≠ [] := List.cons_ne_nil _ _
  obtain ⟨-, -, hboth, htaken, -⟩ := write_and_prune_append hrest hproper hx hwalk hfree
  have hplaces := (hboth ⟨.null, .low⟩).2 (by rw [hwrite]; rfl)
  rw [hwrite] at hplaces
  exact ⟨hwalk, hwrite, hplaces, htaken⟩

end PathDoc
