import PathDoc.Proofs.Targets
import PathDoc.Tree.Write

/-!
# PathDoc.Proofs.Descent — writing as one descent of the tree

The writer walks to the frontier level by level and then writes at each branch of it, through the
locations that the walk has left.  `Write.descend` does the same by recursion on the path: where a
segment fits it writes below the selected children in turn, and at the first node that lacks
something it starts to write.  `atBranches_frontier` says that the two agree, in the result and in
the fault.  The reason is that the branches below different children do not meet.
-/

namespace PathDoc

open Json

/-! ### the frontier, one child at a time -/

/-- A branch seen from one step further up. -/
def Branch.under (step : Step) (b : Branch) : Branch := { b with place := step :: b.place }

theorem Branch.advance_under (s : Segment) (step : Step) (b : Branch) :
    (b.under step).advance s = (b.advance s).map (Branch.under step) := by
  unfold Branch.advance Branch.under
  split_ifs <;> simp [stepTo]

/-- To replace a node below one child is to replace that child. -/
theorem Json.Value.getD_replace?_cons {step : Step} {node c : Value} (h : node.child? step = some c)
    (l : Location) (v : Value) :
    (node.replace? (step :: l) v).getD node = node.setChild step ((c.replace? l v).getD c) := by
  rw [replace?_cons, h, Option.bind_some]
  cases c.replace? l v with
  | none => exact (setChild_self h).symm
  | some d => rfl

theorem Branch.getD_replace?_under {step : Step} {node c : Value} (h : node.child? step = some c)
    (b : Branch) (v : Value) :
    (node.replace? (b.under step).place v).getD node =
      node.setChild step ((c.replace? b.place v).getD c) :=
  Value.getD_replace?_cons h b.place v

theorem Branch.get?_under {step : Step} {node c : Value} (h : node.child? step = some c)
    (b : Branch) : node.get? (b.under step).place = c.get? b.place := by
  rw [Branch.under, Value.get?_cons, h, Option.bind_some]

namespace Frontier

/-- All branches of a walk that never stops early. -/
def follow (path : Path) (front : List Branch) : List Branch :=
  path.foldl (fun f s => f.flatMap (·.advance s)) front

theorem follow_cons (s : Segment) (path : Path) (front : List Branch) :
    follow (s :: path) front = follow path (front.flatMap (·.advance s)) := rfl

/-- The branches are walked independently of each other. -/
theorem follow_eq_flatMap (path : Path) (front : List Branch) :
    follow path front = front.flatMap fun b => follow path [b] := by
  induction path generalizing front with
  | nil => simp [follow]
  | cons s path ih =>
    rw [follow_cons, ih, List.flatMap_assoc]
    refine List.flatMap_congr fun b _ => ?_
    rw [← ih, follow_cons, List.flatMap_singleton]

theorem follow_under (path : Path) (step : Step) (front : List Branch) :
    follow path (front.map (Branch.under step)) = (follow path front).map (Branch.under step) := by
  induction path generalizing front with
  | nil => rfl
  | cons s path ih =>
    rw [follow_cons, follow_cons, ← ih, List.flatMap_map, List.map_flatMap]
    simp only [Branch.advance_under]

theorem follow_of_stuck (path : Path) {b : Branch} (h : b.stuck = true) : follow path [b] = [b] := by
  induction path with
  | nil => rfl
  | cons s path ih => rw [follow_cons, List.flatMap_singleton, Branch.advance_of_stuck h, ih]

end Frontier

/-- The branches of a walk from one level to the next: those of each selected child, or the node itself
where it lacks what the segment asks for. -/
theorem Frontier.follow_start_cons (s : Segment) (path : Path) (root : Value) :
    follow (s :: path) [Branch.start root] =
      if s.fits root then
        (s.children root).flatMap fun c =>
          (follow path [Branch.start c.2]).map (Branch.under c.1)
      else [⟨[], root, true⟩] := by
  have hadv : (Branch.start root).advance s =
      if s.fits root then (s.children root).map fun c => (Branch.start c.2).under c.1
      else [⟨[], root, true⟩] := by
    cases h : s.fits root <;> simp [Branch.advance, Branch.start, Branch.stepTo, Branch.under, h]
  rw [follow_cons, List.flatMap_singleton, hadv]
  by_cases h : s.fits root = true
  · rw [if_pos h, if_pos h, follow_eq_flatMap, List.flatMap_map]
    refine List.flatMap_congr fun c _ => ?_
    rw [← follow_under]
    rfl
  · rw [if_neg h, if_neg h]
    exact follow_of_stuck _ rfl

theorem frontier_eq_follow (root : Value) (path : Path) :
    (root.frontier path).1 = Frontier.follow path.dropLast [Branch.start root] :=
  Frontier.walk_fst _ _

/-- **The frontier from one level to the next.** -/
theorem frontier_cons_cons (root : Value) (s t : Segment) (rest : Path) :
    (root.frontier (s :: t :: rest)).1 =
      if s.fits root then
        (s.children root).flatMap fun c =>
          ((c.2.frontier (t :: rest)).1).map (Branch.under c.1)
      else [⟨[], root, true⟩] := by
  rw [frontier_eq_follow, List.dropLast_cons_cons, Frontier.follow_start_cons]
  simp only [frontier_eq_follow]

/-! ### writing in turn -/

theorem Fault.under_nil (f : Fault) : f.under [] = f := by cases f <;> rfl

theorem Fault.under_under (l m : Location) (f : Fault) : (f.under m).under l = f.under (l ++ m) := by
  cases f <;> simp [Fault.under]

/-- Goes on with a write unless a fault has ended it. -/
def Outcome.andThen {α : Type} (r : Outcome α) (f : α → Outcome α) : Outcome α :=
  match r.fault with
  | none => f r.result
  | some _ => r

namespace Outcome

variable {α : Type} {r : Outcome α} {f g : α → Outcome α}

/-- A write without a fault has come to its end. -/
theorem eq_done (hf : r.fault = none) : r = done r.result := by
  cases r with
  | mk result fault =>
    rw [show fault = none from hf]
    rfl

@[simp] theorem done_andThen (a : α) (f : α → Outcome α) : (done a).andThen f = f a := rfl

theorem andThen_of_fault_none (h : r.fault = none) : r.andThen f = f r.result := by
  rw [andThen, h]

theorem andThen_of_fault_some {fault : Fault} (h : r.fault = some fault) : r.andThen f = r := by
  rw [andThen, h]

theorem andThen_done : r.andThen done = r := by
  cases r with
  | mk result fault => cases fault <;> rfl

theorem lift_nil (r : Outcome α) : r.lift [] (fun a => a) = r := by
  cases r with
  | mk result fault => cases fault <;> simp [lift, Fault.under_nil]

theorem andThen_assoc : (r.andThen f).andThen g = r.andThen fun a => (f a).andThen g := by
  cases h : r.fault with
  | none => rw [andThen_of_fault_none h, andThen_of_fault_none h]
  | some fault =>
    rw [andThen_of_fault_some h, andThen_of_fault_some h, andThen_of_fault_some h]

/-- A lifted write goes on as the write does. -/
theorem lift_andThen_of_fault_none {β : Type} {q : Outcome β} {outer : Location} {k : β → α}
    (h : q.fault = none) : (q.lift outer k).andThen f = f (k q.result) := by
  have hl : (q.lift outer k).fault = none := by
    rw [fault_lift, h]
    rfl
  rw [andThen_of_fault_none hl, result_lift]

theorem lift_andThen_of_fault_some {β : Type} {q : Outcome β} {outer : Location} {k : β → α}
    {fault : Fault} (h : q.fault = some fault) : (q.lift outer k).andThen f = q.lift outer k := by
  have hl : (q.lift outer k).fault = some (fault.under outer) := by
    rw [fault_lift, h]
    rfl
  exact andThen_of_fault_some hl

theorem andThen_congr (h : f r.result = g r.result) : r.andThen f = r.andThen g := by
  unfold andThen
  split
  · exact h
  · rfl

end Outcome

namespace Write

/-- Writes below the children at some steps in turn; a fault ends it. -/
def alongSteps (below : Value → Outcome Value) : List Step → Value → Outcome Value
  | [], node => .done node
  | step :: more, node =>
    match node.child? step with
    | none => alongSteps below more node
    | some c => ((below c).lift [step] (node.setChild step)).andThen (alongSteps below more)

@[simp] theorem alongSteps_nil (below : Value → Outcome Value) (node : Value) :
    alongSteps below [] node = .done node := rfl

theorem alongSteps_cons_of_some {below : Value → Outcome Value} {step : Step} {more : List Step}
    {node c : Value} (h : node.child? step = some c) : alongSteps below (step :: more) node =
      ((below c).lift [step] (node.setChild step)).andThen (alongSteps below more) := by
  rw [alongSteps, h]

theorem alongSteps_cons_of_none {below : Value → Outcome Value} {step : Step} {more : List Step}
    {node : Value} (h : node.child? step = none) :
    alongSteps below (step :: more) node = alongSteps below more node := by
  rw [alongSteps, h]

/-- Writes a leaf at a path, from the node down: below the selected children where there are
segments to come and the first one fits. -/
def descend (job : Job) : Path → Value → Outcome Value
  | [], node => .done node
  | s :: rest, node =>
    if rest ≠ [] ∧ s.fits node then alongSteps (descend job rest) (s.steps node) node
    else intoNode job (s :: rest) node

/-! ### the branches below one child -/

variable {job : Job} {s : Segment} {path rest : Path}

/-- The write at one branch. -/
def atBranch (job : Job) (path : Path) (b : Branch) (root : Value) : Outcome Value :=
  match root.get? b.place with
  | none => .done root
  | some node =>
    (intoNode job (path.drop b.place.length) node).lift b.place fun v =>
      (root.replace? b.place v).getD root

theorem atBranches_cons (b : Branch) (more : List Branch) (root : Value) :
    atBranches job path (b :: more) root =
      (atBranch job path b root).andThen (atBranches job path more) := by
  cases h : root.get? b.place with
  | none => simp only [atBranches, atBranch, h, Outcome.done_andThen]
  | some node =>
    simp only [atBranches, atBranch, h, Outcome.andThen, Outcome.lift]
    cases (intoNode job (path.drop b.place.length) node).fault <;> rfl

theorem atBranches_append (bs cs : List Branch) (root : Value) :
    atBranches job path (bs ++ cs) root =
      (atBranches job path bs root).andThen (atBranches job path cs) := by
  induction bs generalizing root with
  | nil => rfl
  | cons b bs ih =>
    rw [List.cons_append, atBranches_cons, atBranches_cons, Outcome.andThen_assoc]
    exact Outcome.andThen_congr (ih _)

/-- At a branch below one child only that child is written. -/
theorem atBranch_under {step : Step} {node c : Value} (h : node.child? step = some c) (b : Branch) :
    atBranch job (s :: rest) (b.under step) node =
      (atBranch job rest b c).lift [step] (node.setChild step) := by
  have hdrop : (s :: rest).drop (b.under step).place.length = rest.drop b.place.length := rfl
  rw [atBranch, atBranch, Branch.get?_under h, hdrop]
  cases hc : c.get? b.place with
  | none =>
    simp only [Outcome.lift, Outcome.result_done, Outcome.fault_done, Option.map_none,
      Value.setChild_self h]
    rfl
  | some n =>
    simp only [Outcome.lift, Option.map_map, Branch.getD_replace?_under h]
    congr 1
    refine Option.map_congr fun f _ => ?_
    rw [Function.comp_apply, Fault.under_under]
    rfl

/-- The branches below one child, in turn, write that child alone. -/
theorem atBranches_under {step : Step} {node c : Value} (h : node.child? step = some c)
    (bs : List Branch) : atBranches job (s :: rest) (bs.map (Branch.under step)) node =
      (atBranches job rest bs c).lift [step] (node.setChild step) := by
  induction bs generalizing node c with
  | nil =>
    simp only [List.map_nil, atBranches_nil, Outcome.lift, Outcome.result_done,
      Outcome.fault_done, Option.map_none, Value.setChild_self h]
    rfl
  | cons b bs ih =>
    rw [List.map_cons, atBranches_cons, atBranches_cons, atBranch_under h]
    cases hf : (atBranch job rest b c).fault with
    | some fault =>
      rw [Outcome.andThen_of_fault_some hf, Outcome.lift_andThen_of_fault_some hf]
    | none =>
      rw [Outcome.andThen_of_fault_none hf, Outcome.lift_andThen_of_fault_none hf,
        ih (Value.child?_setChild_self h)]
      simp only [Outcome.lift, Value.setChild_setChild]

/-- The branches below several children write these children in turn. -/
theorem atBranches_flatMap (branches : Value → List Branch) {cs : List (Step × Value)}
    {node : Value} (hn : (cs.map Prod.fst).Nodup) (h : ∀ c ∈ cs, node.child? c.1 = some c.2) :
    atBranches job (s :: rest) (cs.flatMap fun c => (branches c.2).map (Branch.under c.1)) node =
      alongSteps (fun c => atBranches job rest (branches c) c) (cs.map Prod.fst) node := by
  induction cs generalizing node with
  | nil => rfl
  | cons c cs ih =>
    obtain ⟨hfirst, hn⟩ := List.nodup_cons.mp hn
    have hc := h c List.mem_cons_self
    rw [List.flatMap_cons, atBranches_append, atBranches_under hc, List.map_cons,
      alongSteps_cons_of_some hc]
    refine Outcome.andThen_congr (ih hn fun d hd => ?_)
    have hmore : d.1 ∈ cs.map Prod.fst := List.mem_map_of_mem hd
    rw [Outcome.result_lift, Value.child?_setChild_of_not_mem hfirst hmore]
    exact h d (List.mem_cons_of_mem _ hd)

theorem atBranches_root (b : Bool) (root : Value) :
    atBranches job path [⟨[], root, b⟩] root = intoNode job path root := by
  have hb : atBranch job path ⟨[], root, b⟩ root = intoNode job path root := by
    simp only [atBranch, Value.get?_nil, Value.replace?_nil, Option.getD_some, List.length_nil,
      List.drop_zero]
    exact Outcome.lift_nil _
  rw [atBranches_cons, hb]
  exact Outcome.andThen_done

/-- **The writer descends**: what it does at the frontier is what it does on the way down. -/
theorem atBranches_frontier (root : Value) (path : Path) :
    atBranches job path (root.frontier path).1 root = descend job path root := by
  induction path generalizing root with
  | nil => exact atBranches_root _ _
  | cons s rest ih =>
    cases rest with
    | nil => exact atBranches_root _ _
    | cons t rest =>
      rw [frontier_cons_cons, descend]
      by_cases h : s.fits root = true
      · rw [if_pos h, if_pos ⟨List.cons_ne_nil _ _, h⟩, Segment.steps,
          atBranches_flatMap (fun c => (c.frontier (t :: rest)).1)
            (s.nodup_steps root) fun c hc => Segment.child?_of_mem_children hc]
        exact congrArg (fun below => alongSteps below _ root) (funext ih)
      · rw [if_neg h, if_neg fun h' => h h'.2]
        exact atBranches_root _ _

theorem firstExcess?_eq_none_iff : firstExcess? path = none ↔ ∀ s ∈ path, s.excess? = none := by
  induction path with
  | nil => simp
  | cons s rest ih =>
    rw [firstExcess?, List.forall_mem_cons, ← ih]
    cases s.excess? with
    | none => simp
    | some i => simp

end Write

/-- A write is the descent, unless an index aims past the limit. -/
theorem write_eq_descend {path : Path} (h : Write.firstExcess? path = none) (root : Value)
    (job : Job) : root.write path job = Write.descend job path root := by
  rw [Value.write, h]
  exact Write.atBranches_frontier root path

/-- No index of a write without a fault aims past the limit. -/
theorem firstExcess?_of_write {path : Path} {root : Value} {job : Job}
    (hf : (root.write path job).fault = none) : Write.firstExcess? path = none := by
  cases hx : Write.firstExcess? path with
  | none => rfl
  | some e =>
    rw [Value.write, hx] at hf
    simp at hf

end PathDoc
