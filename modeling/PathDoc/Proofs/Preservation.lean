import PathDoc.Proofs.Drafts
import PathDoc.Proofs.Extension
import PathDoc.Proofs.Induction
import PathDoc.Session

/-!
# PathDoc.Proofs.Preservation — writes that lose nothing

A write that may neither drop the children of a container nor change the kind of a node on its way
leaves a document that extends the old one, up to the scalars that it replaces; these lie at the
targets of its path (`Write.Taken`).  That holds of what a fault leaves behind as well
(`extends_write`), and of every run of such writes.
-/

namespace PathDoc

open Json

namespace Write

variable {job : Job} {s : Segment} {path rest : Path} {v node : Value} {steps : List Step}

/-- The locations at which a write that left the document may have replaced a scalar: the targets
of its path, if it has the permission. -/
def Taken (job : Job) (path : Path) (v : Value) (l : Location) : Prop :=
  job.permission.scalar = true ∧ l ∈ (path.targets v).map Prod.fst

/-- What is taken below a selected child is taken. -/
theorem taken_cons {step : Step} {c : Value} {l : Location} (hm : step ∈ s.steps v)
    (hc : v.child? step = some c) (h : Taken job rest c l) : Taken job (s :: rest) v (step :: l) := by
  obtain ⟨hp, hl⟩ := h
  obtain ⟨t, ht, rfl⟩ := List.mem_map.mp hl
  refine ⟨hp, List.mem_map.mpr ⟨(step :: t.1, t.2), ?_, rfl⟩⟩
  exact Path.mem_targets_cons.mpr ⟨(step, c), Segment.mem_children.mpr ⟨hm, hc⟩, t, ht, rfl⟩

/-! ### one loop -/

/-- A loop over a node that has grown: the old children stay in their places, and what the loop
writes below them it writes where the segment finds them again. -/
theorem extends_alongSteps {below : Value → Outcome Value} (hn : steps.Nodup)
    (hg : node.outline.Grows v.outline)
    (hold : ∀ step c, node.child? step = some c →
      v.child? step = some c ∧ (step ∈ steps → step ∈ s.steps v))
    (hb : ∀ c, Value.Extends (Taken job rest (below c).result) c (below c).result) :
    Value.Extends (Taken job (s :: rest) (alongSteps below steps v).result) node
      (alongSteps below steps v).result := by
  obtain ⟨visited, others, rfl, hr, -⟩ := exists_result_alongSteps below steps v
  have hout := Value.outline_updateChildren (fun c => (below c).result) visited v
  rw [hr]
  refine .node (hout ▸ hg) fun step c d hc hd => ?_
  obtain ⟨hv, hs⟩ := hold step c hc
  by_cases hm : step ∈ visited
  · have hd' := hd
    rw [Value.child?_updateChildren_of_mem (List.nodup_append.mp hn).1 hm, hv] at hd
    obtain rfl := Option.some.inj hd
    have hfind : step ∈ s.steps (v.updateChildren (fun c => (below c).result) visited) := by
      rw [Segment.steps_congr hout]
      exact hs (List.mem_append_left _ hm)
    exact (hb c).mono fun l => taken_cons hfind hd'
  · rw [Value.child?_updateChildren_of_not_mem hm, hv] at hd
    rw [← Option.some.inj hd]
    exact Value.Extends.refl _ c

/-! ### opening keeps what is there -/

/-- A node of the right kind grows when it is opened. -/
theorem grows_of_opened? (hx : s.excess? = none) (hk : s.suits node = true)
    (h : opened? job s rest node = some (v, steps)) : node.outline.Grows v.outline := by
  rcases opened?_cases h with ⟨items, hs, hi, rfl, rfl⟩ | ⟨name, ms, c, rfl, hm, hg, rfl, rfl⟩ |
    ⟨name, ms, rfl, hm, hg, rfl, rfl⟩
  · obtain ⟨items', rfl⟩ := (Segment.suits_iff_arr hs).mp hk
    obtain rfl : items' = items := Option.some.inj hi
    have hlen : (s.makeRoom items').length = max _ _ := Segment.length_makeRoom hx
    show items'.length ≤ (s.makeRoom items').length
    omega
  · obtain ⟨ms', rfl⟩ := Segment.suits_member_iff.mp hk
    obtain rfl : ms' = ms := Option.some.inj hm
    exact Value.Outline.Grows.refl _
  · obtain ⟨ms', rfl⟩ := Segment.suits_member_iff.mp hk
    obtain rfl : ms' = ms := Option.some.inj hm
    show ms'.map Prod.fst <+: (ms' ++ _).map Prod.fst
    rw [List.map_append]
    exact List.prefix_append _ _

/-! ### one write -/

theorem extends_settle (hd : job.permission.container = false) (v : Value) :
    Value.Extends (Taken job [] (settle job v).result) v (settle job v).result := by
  unfold settle
  by_cases hv : v.isEmptyContainer = true
  · rw [if_pos hv]; exact .vacant hv
  rw [if_neg hv]
  by_cases heq : (v == job.leaf && job.permission.scalar) = true
  · rw [if_pos heq]; exact .refl _ v
  rw [if_neg heq]
  by_cases hc : v.isContainer = true
  · rw [if_pos hc, hd, if_neg Bool.false_ne_true]; exact .refl _ v
  rw [if_neg hc]
  by_cases hs : job.permission.scalar = true
  · rw [if_pos hs]
    exact .freed (by simpa using hc) ⟨hs, List.mem_singleton.mpr rfl⟩
  · rw [if_neg hs]; exact .refl _ v

theorem extends_descend (hne : path ≠ []) (hx : ∀ s ∈ path, s.excess? = none)
    (hk : job.permission.coerce = false) (hd : job.permission.container = false) (v : Value) :
    Value.Extends (Taken job path (descend job path v).result) v (descend job path v).result := by
  refine descend_induction
    (P := fun path node r => Value.Extends (Taken job path r.result) node r.result)
    ?settled ?stopped ?opened ?walked hne hx v
  case settled => exact extends_settle hd
  case stopped => exact fun s rest node _ => .refl _ node
  case opened =>
    intro s rest node w steps below hs ho hb
    cases hv : node.isEmptyContainer with
    | true => exact .vacant hv
    | false =>
      have hsuits := suits_of_opened? hv hk ho
      exact extends_alongSteps (nodup_steps_of_opened? ho) (grows_of_opened? hs hsuits ho)
        (fun step c hc => keeps_of_opened? hs hsuits ho hc) hb
  case walked =>
    intro s rest node below _ _ hb
    exact extends_alongSteps (s.nodup_steps node) (Value.Outline.Grows.refl _)
      (fun step c hc => ⟨hc, id⟩) hb

end Write

/-- **A write loses nothing** but the scalars that it replaces, also where a fault ends it. -/
theorem extends_write (root : Value) (path : Path) {job : Job} (hk : job.permission.coerce = false)
    (hd : job.permission.container = false) :
    Value.Extends (Write.Taken job path (root.write path job).result) root
      (root.write path job).result := by
  cases hx : Write.firstExcess? path with
  | some e =>
    rw [Value.write, hx]
    exact .refl _ root
  | none =>
    rw [write_eq_descend hx]
    cases path with
    | nil => exact .refl _ root
    | cons s rest =>
      have hnone := Write.firstExcess?_eq_none_iff.mp hx
      exact Write.extends_descend (List.cons_ne_nil _ _) hnone hk hd root

theorem Priority.keeps_of_ne_high {p : Priority} (h : p ≠ .high) :
    p.permission.coerce = false ∧ p.permission.container = false ∧
      (p.permission.scalar = true ↔ p = .normal) := by
  cases p <;> simp_all [permission, Permission.low, Permission.normal]

/-! ### runs -/

/-- A write of a value, or of none, with a priority. -/
structure Put where
  text : String
  value : Option Value
  priority : Priority

namespace Put

def request (p : Put) : Request := .put p.text p.value (some p.priority)

/-- The locations at which the write may have replaced a scalar: if it is of normal priority and not
refused, the targets of its path in the document that it leaves. -/
def Replaces (p : Put) (d : Draft) (l : Location) : Prop :=
  p.priority = .normal ∧ ∃ path d', Path.read p.text = .ok path ∧
    d.putWith p.text p.value p.priority = .ok d' ∧ l ∈ (path.targets d'.root).map Prod.fst

end Put

namespace Session

/-- The session after some writes, refused or not. -/
def afterPuts (s : Session) (ps : List Put) : Session := (s.answerAll (ps.map Put.request)).2

/-- The locations at which some of the writes may have replaced a scalar. -/
def Replaced : Session → List Put → Location → Prop
  | _, [], _ => False
  | s, p :: ps, l => p.Replaces s.draft l ∨ Replaced (s.answer p.request).2 ps l

theorem afterPuts_cons (s : Session) (p : Put) (ps : List Put) :
    s.afterPuts (p :: ps) = (s.answer p.request).2.afterPuts ps := by
  rw [afterPuts, List.map_cons, answerAll_cons]
  rfl

/-- One write, refused or not. -/
theorem extends_answer (s : Session) {p : Put} (hp : p.priority ≠ .high) :
    Value.Extends (p.Replaces s.draft) s.draft.root (s.answer p.request).2.draft.root := by
  obtain ⟨hk, hd, hs⟩ := Priority.keeps_of_ne_high hp
  show Value.Extends _ _ (s.commit (s.draft.putWith p.text p.value p.priority)).2.draft.root
  cases hw : s.draft.putWith p.text p.value p.priority with
  | error e => exact .refl _ _
  | ok d =>
    obtain ⟨path, leaf, hpath, -, -, rfl⟩ := Draft.write_eq_ok_iff.mp hw
    refine (extends_write s.draft.root path hk hd).mono fun l hl => ?_
    exact ⟨hs.mp hl.1, path, _, hpath, hw, hl.2⟩

/-- A run of writes below the highest priority. -/
theorem extends_afterPuts (s : Session) {ps : List Put} (hp : ∀ p ∈ ps, p.priority ≠ .high) :
    Value.Extends (s.Replaced ps) s.draft.root (s.afterPuts ps).draft.root := by
  induction ps generalizing s with
  | nil => exact .refl _ _
  | cons p ps ih =>
    rw [List.forall_mem_cons] at hp
    rw [afterPuts_cons]
    exact (extends_answer s hp.1).trans (ih _ hp.2)

/-- Writes of low priority replace nothing. -/
theorem not_replaced_of_low (s : Session) {ps : List Put} (hp : ∀ p ∈ ps, p.priority = .low)
    (l : Location) : ¬ s.Replaced ps l := by
  induction ps generalizing s with
  | nil => exact id
  | cons p ps ih =>
    rw [List.forall_mem_cons] at hp
    rintro (h | h)
    · exact absurd (hp.1.symm.trans h.1) (by simp)
    · exact ih _ hp.2 h

/-- **No data is lost below the highest priority.**  A run of low writes leaves a document that
extends the one before it; a run of low and normal writes does so up to the scalars at the targets
of its normal writes that are not refused; and so does one write in place, up to its own targets,
whatever fault ends it. -/
theorem nothing_lost_below_high :
    (∀ (s : Session) (ps : List Put), (∀ p ∈ ps, p.priority = .low) →
      Value.Extends (fun _ => False) s.draft.root (s.afterPuts ps).draft.root) ∧
    (∀ (s : Session) (ps : List Put), (∀ p ∈ ps, p.priority = .low ∨ p.priority = .normal) →
      Value.Extends (s.Replaced ps) s.draft.root (s.afterPuts ps).draft.root) ∧
    ∀ (root leaf : Value) (path : Path) (priority : Priority), priority ≠ .high →
      Value.Extends (fun l => priority = .normal ∧
          l ∈ (path.targets (root.write path ⟨leaf, priority.permission⟩).result).map Prod.fst)
        root (root.write path ⟨leaf, priority.permission⟩).result := by
  refine ⟨fun s ps hp => ?_, fun s ps hp => ?_, fun root leaf path priority hp => ?_⟩
  · have hne : ∀ p ∈ ps, p.priority ≠ .high := fun p hm => by rw [hp p hm]; simp
    exact (extends_afterPuts s hne).mono fun l => not_replaced_of_low s hp l
  · refine extends_afterPuts s fun p hm => ?_
    rcases hp p hm with h | h <;> rw [h] <;> simp
  · obtain ⟨hk, hd, hs⟩ := Priority.keeps_of_ne_high hp
    exact (extends_write root path hk hd).mono fun l hl => ⟨hs.mp hl.1, hl.2⟩

/-- A run whose second write is refused, a run in which a number makes way, and a write in place that
meets a number half way. -/
theorem nothing_lost_in_short_runs :
    let s := start (.ofValue (.obj [("a", .arr [.num (.int 1), .obj []])]))
    let low : List Put := [⟨"a[1].c", some .null, .low⟩, ⟨"a[-2]", some .null, .low⟩]
    let mixed : List Put := [⟨"a[-2]", some (.obj []), .normal⟩, ⟨"a[2]", some .null, .low⟩]
    let root := Value.arr [.obj [("x", .num (.int 1))], .num (.int 5)]
    let path : Path := [.indexes [0, 1], .member "x"]
    let left := (root.write path ⟨.null, .normal⟩).result
    (∀ p ∈ low, p.priority = .low) ∧
      Value.Extends (fun _ => False) s.draft.root (s.afterPuts low).draft.root ∧
      (∀ p ∈ mixed, p.priority = .low ∨ p.priority = .normal) ∧
      Value.Extends (s.Replaced mixed) s.draft.root (s.afterPuts mixed).draft.root ∧
      (root.write path ⟨.null, .normal⟩).fault.isSome = true ∧
      Value.Extends (fun l => Priority.normal = .normal ∧ l ∈ (path.targets left).map Prod.fst)
        root left := by
  intro s low mixed root path left
  have hlow : ∀ p ∈ low, p.priority = .low := by simp [low]
  have hmixed : ∀ p ∈ mixed, p.priority = .low ∨ p.priority = .normal := by simp [mixed]
  have hfault : (root.write path ⟨.null, .normal⟩).fault.isSome = true := by rfl
  exact ⟨hlow, nothing_lost_below_high.1 s low hlow, hmixed,
    nothing_lost_below_high.2.1 s mixed hmixed, hfault,
    nothing_lost_below_high.2.2 root .null path .normal (by simp)⟩

end Session

end PathDoc
