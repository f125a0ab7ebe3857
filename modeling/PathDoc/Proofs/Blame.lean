import PathDoc.Proofs.Induction
import PathDoc.Refusal

/-!
# PathDoc.Proofs.Blame — the faults of a write

A fault blames a node.  By then the write may have lengthened arrays and filled the branches before,
but what it blames was in the document all along, at the place that the fault names
(`Write.Blames`): a node that is not empty, and either stands in the way of the next segment or is a
target that must stay.  In the other direction, a write that comes to its end has settled the leaf at
each node that a reader of the path would have found before, so it was allowed to
(`Write.settles_write`).  `write_faults` puts the two together.
-/

namespace PathDoc

open Json

/-- Whether the node stands in the way of the path: it lies where a front of the path leads, and is not
of the kind that the next segment needs. -/
def Path.Obstructs (path : Path) (new : Value) (place : Location) (node : Value) : Prop :=
  ∃ pre s rest, path = pre ++ s :: rest ∧ (place, node) ∈ Path.targets pre new ∧
    s.suits node = false

namespace Write

/-- Whether the write of a job at a path had to stop at what a fault blames, a node of the old
document.  The path leads to it in the document that the write leaves. -/
def Blames (job : Job) (path : Path) (old new : Value) : Fault → Prop
  | .clash place node => old.get? place = some node ∧ node.isEmptyContainer = false ∧
      (path.Obstructs new place node ∧ job.permission.coerce = false ∨
        (place, node) ∈ path.targets new ∧ node.isContainer = false ∧
          job.permission.scalar = false)
  | .discard place node => old.get? place = some node ∧ node.isEmptyContainer = false ∧
      (place, node) ∈ path.targets new ∧ node.isContainer = true ∧
        job.permission.container = false
  | .tooLong _ _ => False
  | .misfit _ => False

variable {job : Job} {s : Segment} {path rest : Path} {node old new c d : Value} {step : Step}
  {fault : Fault}

/-! ### from a node to its parent -/

/-- What is blamed below a selected child is blamed one step further up. -/
theorem blames_under (hc : old.child? step = some c) (hd : (step, d) ∈ s.children new)
    (h : Blames job rest c d fault) : Blames job (s :: rest) old new (fault.under [step]) := by
  have hplace : ∀ place node, c.get? place = some node → old.get? ([step] ++ place) = some node := by
    intro place node hget
    rw [List.singleton_append, Value.get?_cons, hc, Option.bind_some, hget]
  have htargets : ∀ (p : Path) place node, (place, node) ∈ p.targets d →
      ([step] ++ place, node) ∈ Path.targets (s :: p) new := fun p place node ht =>
    Path.mem_targets_cons.mpr ⟨(step, d), hd, (place, node), ht, rfl⟩
  cases fault with
  | clash place node =>
    obtain ⟨hget, hv, hwhy⟩ := h
    refine ⟨hplace place node hget, hv, ?_⟩
    rcases hwhy with ⟨⟨pre, t, tail, rfl, ht, hk⟩, hp⟩ | ⟨ht, hp⟩
    · exact .inl ⟨⟨s :: pre, t, tail, rfl, htargets pre place node ht, hk⟩, hp⟩
    · exact .inr ⟨htargets rest place node ht, hp⟩
  | discard place node =>
    obtain ⟨hget, hv, ht, hp⟩ := h
    exact ⟨hplace place node hget, hv, htargets rest place node ht, hp⟩
  | tooLong before i => exact h.elim
  | misfit t => exact h.elim

/-! ### the writers -/

theorem blames_settle (hf : (settle job node).fault = some fault) :
    Blames job [] node (settle job node).result fault := by
  have htarget : (([], node) : Site) ∈ Path.targets [] node := List.mem_singleton.mpr rfl
  have hget : node.get? [] = some node := Value.get?_nil node
  unfold settle at hf ⊢
  by_cases hv : node.isEmptyContainer = true
  · rw [if_pos hv] at hf
    simp at hf
  rw [if_neg hv] at hf ⊢
  rw [Bool.not_eq_true] at hv
  split_ifs at hf ⊢ with heq hk hp hp
  · simp at hf
  · simp at hf
  · obtain rfl := Option.some.inj hf
    exact ⟨hget, hv, htarget, hk, by simpa using hp⟩
  · simp at hf
  · obtain rfl := Option.some.inj hf
    exact ⟨hget, hv, .inr ⟨htarget, by simpa using hk, by simpa using hp⟩⟩

theorem not_blames_empty : ¬ Blames job path (.obj []) new fault := by
  have hempty : ∀ place node, Value.get? (.obj []) place = some node → node.isEmptyContainer = true := by
    intro place node hget
    cases place with
    | nil =>
      rw [Value.get?_nil] at hget
      rw [← Option.some.inj hget]
      rfl
    | cons step place => cases step <;> simp [Value.get?_cons, Value.child?] at hget
  intro h
  cases fault with
  | clash place node => exact absurd (hempty place node h.1) (by simp [h.2.1])
  | discard place node => exact absurd (hempty place node h.1) (by simp [h.2.1])
  | tooLong before i => exact h
  | misfit s => exact h

/-- A loop blames what is blamed below one of its children, if that is an old child that a reader
finds.  Below a new one there is nothing to blame. -/
theorem blames_alongSteps {v : Value} {steps : List Step} {below : Value → Outcome Value}
    (hn : steps.Nodup)
    (hold : ∀ step ∈ steps, ∀ c, v.child? step = some c →
      node.child? step = some c ∧ step ∈ s.steps v ∨ c = .obj [])
    (hb : ∀ c fault, (below c).fault = some fault → Blames job rest c (below c).result fault)
    (hf : (alongSteps below steps v).fault = some fault) :
    Blames job (s :: rest) node (alongSteps below steps v).result fault := by
  obtain ⟨step, c, inner, hm, hc, hinner, rfl, hd⟩ := exists_of_fault_alongSteps hn hf
  rcases hold step hm c hc with ⟨hchild, hfind⟩ | rfl
  · refine blames_under hchild (Segment.mem_children.mpr ⟨?_, hd⟩) (hb c inner hinner)
    rw [steps_alongSteps]
    exact hfind
  · exact absurd (hb _ inner hinner) not_blames_empty

theorem blames_descend (hne : path ≠ []) (hx : ∀ s ∈ path, s.excess? = none)
    (hf : (descend job path node).fault = some fault) :
    Blames job path node (descend job path node).result fault := by
  refine descend_induction
    (P := fun path node r => ∀ fault, r.fault = some fault → Blames job path node r.result fault)
    ?settled ?stopped ?opened ?walked hne hx node fault hf
  case settled => exact fun node fault hf => blames_settle hf
  case stopped =>
    intro s rest node ho fault hf
    obtain rfl := Option.some.inj hf
    obtain ⟨hk, hv, hp⟩ := opened?_eq_none_iff.mp ho
    refine ⟨Value.get?_nil node, hv, .inl ⟨?_, hp⟩⟩
    exact ⟨[], s, rest, rfl, List.mem_singleton.mpr rfl, hk⟩
  case opened =>
    intro s rest node v steps below hs ho hb fault
    refine blames_alongSteps (nodup_steps_of_opened? ho) (fun step hm c hc => ?_) hb
    rcases child?_of_opened? ho hm hc with hold | rfl
    · have hk := Segment.suits_of_child? (isPos_of_opened? ho hm) hold
      exact .inl ⟨hold, (keeps_of_opened? hs hk ho hold).2 hm⟩
    · exact .inr rfl
  case walked =>
    intro s rest node below _ _ hb fault
    exact blames_alongSteps (s.nodup_steps node) (fun step hm c hc => .inl ⟨hc, hm⟩) hb

/-- **A fault is true**: of an index that aims past the limit, or of a node of the old document. -/
theorem blames_write {root : Value} (hf : (root.write path job).fault = some fault) :
    (∃ before i, firstExcess? path = some (before, i) ∧ fault = .tooLong before i) ∨
      Blames job path root (root.write path job).result fault := by
  cases hx : firstExcess? path with
  | some e =>
    rw [Value.write, hx] at hf
    exact .inl ⟨e.1, e.2, rfl, (Option.some.inj hf).symm⟩
  | none =>
    rw [write_eq_descend hx] at hf ⊢
    cases path with
    | nil => simp [descend] at hf
    | cons s rest =>
      have hnone := firstExcess?_eq_none_iff.mp hx
      exact .inr (blames_descend (List.cons_ne_nil _ _) hnone hf)

theorem isSome_fault_of_excess {root : Value} (hx : s.excess?.isSome) (hs : s ∈ path) :
    (root.write path job).fault.isSome := by
  cases hfirst : firstExcess? path with
  | some e =>
    rw [Value.write, hfirst]
    rfl
  | none =>
    rw [firstExcess?_eq_none_iff.mp hfirst s hs] at hx
    simp at hx

theorem exists_excess_of_firstExcess? {e : Path × Int} (h : firstExcess? path = some e) :
    ∃ s ∈ path, s.excess?.isSome := by
  by_contra hno
  have hnone : ∀ s ∈ path, s.excess? = none := by
    intro s hs
    rw [← Option.not_isSome_iff_eq_none]
    exact fun hx => hno ⟨s, hs, hx⟩
  rw [firstExcess?_eq_none_iff.mpr hnone] at h
  simp at h

/-- A write that may replace everything has nothing to stop at but an index that aims past the
limit. -/
theorem isSome_fault_iff_of_high {root : Value} (hp : job.permission = .high) :
    (root.write path job).fault.isSome ↔ ∃ s ∈ path, s.excess?.isSome := by
  refine ⟨fun hsome => ?_, fun ⟨s, hs, hx⟩ => isSome_fault_of_excess hx hs⟩
  obtain ⟨fault, hf⟩ := Option.isSome_iff_exists.mp hsome
  rcases blames_write hf with ⟨before, i, hfirst, -⟩ | hb
  · exact exists_excess_of_firstExcess? hfirst
  · cases fault <;> simp [Blames, hp, Permission.high] at hb

/-- No segment comes to a container that does not suit it. -/
theorem cause_ne_unsupported {root : Value} (hf : (root.write path job).fault = some fault)
    (leaf : Value) (piece : String) : fault.cause leaf ≠ .unsupported piece := by
  rcases blames_write hf with ⟨before, i, -, rfl⟩ | hb
  · simp [Fault.cause]
  · cases fault with
    | misfit s => exact hb.elim
    | _ => simp [Fault.cause]

/-! ### what a write without a fault was allowed to do -/

/-- The steps that a reader of the node would take are among those of the writer. -/
theorem mem_steps_of_opened?_of_mem {v : Value} {steps : List Step} (hx : s.excess? = none)
    (hout : s.outside? node = none) (ho : opened? job s rest node = some (v, steps))
    (hm : step ∈ s.steps node) (hc : node.child? step = some c) : step ∈ steps := by
  have hk := Segment.suits_of_child? (Segment.isPos_of_mem_steps hm) hc
  rcases opened?_cases ho with ⟨items, hs, hi, rfl, rfl⟩ | ⟨name, ms, e, rfl, hms, hg, rfl, rfl⟩ |
    ⟨name, ms, rfl, hms, hg, rfl, rfl⟩
  · obtain ⟨items', rfl⟩ := (Segment.suits_iff_arr hs).mp hk
    obtain rfl : items' = items := Option.some.inj hi
    have hreach : s.reach ≤ items'.length := Segment.outside?_eq_none_iff.mp hout items' rfl
    rw [Segment.steps_arr] at hm
    obtain ⟨p, hp, rfl⟩ := List.mem_map.mp hm
    exact List.mem_map_of_mem (Segment.hits_subset_slots hx hreach hp)
  · obtain ⟨ms', rfl⟩ := Segment.suits_member_iff.mp hk
    rw [Segment.steps_member_obj] at hm
    split at hm
    · exact hm
    · simp at hm
  · obtain ⟨ms', rfl⟩ := Segment.suits_member_iff.mp hk
    obtain rfl : ms' = ms := Option.some.inj hms
    rw [Segment.steps_member_obj] at hm
    split at hm
    · rw [List.mem_singleton.mp hm] at hc
      rw [show Members.get? ms' name = some c from hc] at hg
      simp at hg
    · simp at hm

/-- A loop without a fault has settled each target below a node, if it writes below the children that
a reader of the node finds. -/
theorem settles_alongSteps {v : Value} {steps : List Step} {below : Value → Outcome Value}
    (hn : steps.Nodup)
    (hold : ∀ step ∈ s.steps node, ∀ c, node.child? step = some c →
      step ∈ steps ∧ v.child? step = some c)
    (hw : Path.Within (s :: rest) node)
    (hb : ∀ c, rest.Within c → (below c).fault = none →
      ∀ t ∈ rest.targets c, (settle job t.2).fault = none)
    (hf : (alongSteps below steps v).fault = none) :
    ∀ t ∈ Path.targets (s :: rest) node, (settle job t.2).fault = none := by
  intro t ht
  obtain ⟨c, hc, u, hu, rfl⟩ := Path.mem_targets_cons.mp ht
  obtain ⟨hm, hchild⟩ := Segment.mem_children.mp hc
  obtain ⟨hstep, hv⟩ := hold c.1 hm c.2 hchild
  exact hb c.2 (hw.2 c hc) (fault_below_of_alongSteps hn hf hstep hv) u hu

theorem settles_descend (hne : path ≠ []) (hx : ∀ s ∈ path, s.excess? = none)
    (hw : path.Within node) (hf : (descend job path node).fault = none) :
    ∀ t ∈ path.targets node, (settle job t.2).fault = none := by
  refine descend_induction (P := fun path node r => path.Within node → r.fault = none →
    ∀ t ∈ path.targets node, (settle job t.2).fault = none)
    ?settled ?stopped ?opened ?walked hne hx node hw hf
  case settled =>
    intro node _ hf t ht
    rw [List.mem_singleton.mp ht]
    exact hf
  case stopped => exact fun s rest node _ _ hf => absurd hf (Option.some_ne_none _)
  case opened =>
    intro s rest node v steps below hs ho hb hw
    refine settles_alongSteps (nodup_steps_of_opened? ho) (fun step hm c hc => ?_) hw hb
    have hk := Segment.suits_of_child? (Segment.isPos_of_mem_steps hm) hc
    exact ⟨mem_steps_of_opened?_of_mem hs hw.1 ho hm hc, (keeps_of_opened? hs hk ho hc).1⟩
  case walked =>
    intro s rest node below _ _ hb hw
    exact settles_alongSteps (s.nodup_steps node) (fun step hm c hc => ⟨hm, hc⟩) hw hb

/-- A write without a fault was allowed to settle each node that the path has led to. -/
theorem settles_write {root : Value} (hne : path ≠ []) (hw : path.Within root)
    (hf : (root.write path job).fault = none) :
    ∀ t ∈ path.targets root, (settle job t.2).fault = none := by
  have hx := firstExcess?_of_write hf
  rw [write_eq_descend hx] at hf
  exact settles_descend hne (firstExcess?_eq_none_iff.mp hx) hw hf

/-- A write must stop, at the latest, at a node that a reader of the path finds and that may not be
settled over. -/
theorem isSome_fault_of_mem_query {root v : Value} {vs : List Value} (hne : path ≠ [])
    (hq : root.query path = .ok vs) (hv : v ∈ vs) (hkeep : (settle job v).fault ≠ none) :
    (root.write path job).fault.isSome := by
  obtain ⟨hwithin, rfl⟩ := query_eq_ok_iff.mp hq
  obtain ⟨t, ht, rfl⟩ := List.mem_map.mp hv
  rw [Option.isSome_iff_ne_none]
  exact fun hf => hkeep (settles_write hne hwithin hf t ht)

end Write

theorem Fault.cause_eq_clash_iff {fault : Fault} {place : Location} {node leaf leaf' : Value} :
    fault.cause leaf = .clash place node leaf' ↔ fault = .clash place node ∧ leaf = leaf' := by
  cases fault <;> simp [cause, and_assoc]

theorem Fault.cause_eq_discard_iff {fault : Fault} {place : Location} {node leaf : Value} :
    fault.cause leaf = .discard place node ↔ fault = .discard place node := by
  cases fault <;> simp [cause]

/-- **The faults of a write** at a path that is not empty.  There is none about a segment that no
container suits, and where everything may be replaced only one about an index that aims past the limit.
What is blamed was in the old document, at the place that the message names, and could not be kept;
and there is a fault wherever the path leads to something that must be kept. -/
theorem write_faults {path : Path} (hne : path ≠ []) (root : Value) (job : Job) :
    let r := root.write path job
    let cause := r.fault.map (Fault.cause job.leaf)
    (∀ piece, cause ≠ some (.unsupported piece)) ∧
    (job.permission = .high → (r.fault.isSome ↔ ∃ s ∈ path, s.excess?.isSome)) ∧
    (∀ place node leaf, cause = some (.clash place node leaf) → leaf = job.leaf ∧
      root.get? place = some node ∧ node.isEmptyContainer = false ∧
      (path.Obstructs r.result place node ∧ job.permission.coerce = false ∨
        (place, node) ∈ path.targets r.result ∧ node.isContainer = false ∧
          job.permission.scalar = false)) ∧
    (∀ place node, cause = some (.discard place node) →
      root.get? place = some node ∧ node.isEmptyContainer = false ∧
      (place, node) ∈ path.targets r.result ∧ node.isContainer = true ∧
        job.permission.container = false) ∧
    ∀ vs, root.query path = .ok vs → ∀ v ∈ vs, v.isEmptyContainer = false →
      (job.permission = .low → r.fault.isSome) ∧
      (job.permission = .normal → v.isContainer = true → (v == job.leaf) = false →
        r.fault.isSome) := by
  intro r cause
  refine ⟨fun piece hc => ?_, Write.isSome_fault_iff_of_high, fun place node leaf hc => ?_,
    fun place node hc => ?_, fun vs hq v hv hempty => ?_⟩
  · obtain ⟨fault, hf, he⟩ := Option.map_eq_some_iff.mp hc
    exact Write.cause_ne_unsupported hf job.leaf piece he
  · obtain ⟨fault, hf, he⟩ := Option.map_eq_some_iff.mp hc
    obtain ⟨rfl, rfl⟩ := Fault.cause_eq_clash_iff.mp he
    rcases Write.blames_write hf with ⟨before, i, -, hlong⟩ | hb
    · cases hlong
    · exact ⟨rfl, hb⟩
  · obtain ⟨fault, hf, he⟩ := Option.map_eq_some_iff.mp hc
    obtain rfl := Fault.cause_eq_discard_iff.mp he
    rcases Write.blames_write hf with ⟨before, i, -, hlong⟩ | hb
    · cases hlong
    · exact hb
  · have hstop : (Write.settle job v).fault ≠ none → r.fault.isSome :=
      Write.isSome_fault_of_mem_query hne hq hv
    rw [ne_eq, Write.fault_settle_eq_none_iff] at hstop
    refine ⟨fun hp => hstop ?_, fun hp hcont hneq => hstop ?_⟩
    · simp [hempty, hp, Permission.low]
    · simp [hempty, hp, hcont, hneq, Permission.normal]

/-- A write that lengthens an array and replaces a scalar before it stops at the next element, which it
has not moved. -/
theorem write_faults_second :
    let root := Value.obj [("a", .arr [.obj [("b", .num (.int 1))], .num (.int 5)])]
    let path : Path := [.member "a", .indexes [-3, 1], .member "b"]
    let new := Value.obj [("a", .arr [.obj [("b", .null)], .num (.int 5), .obj []])]
    let place : Location := [.key "a", .pos 1]
    root.write path ⟨.null, .normal⟩ = ⟨new, some (.clash place (.num (.int 5)))⟩ ∧
      root.get? place = some (.num (.int 5)) ∧ path.Obstructs new place (.num (.int 5)) := by
  intro root path new place
  have hw : root.write path ⟨.null, .normal⟩ = ⟨new, some (.clash place (.num (.int 5)))⟩ := by rfl
  have hne : path ≠ [] := List.cons_ne_nil _ _
  obtain ⟨-, -, hclash, -⟩ := write_faults hne root ⟨.null, .normal⟩
  have hblamed := hclash place (.num (.int 5)) .null (by rw [hw]; rfl)
  rw [hw] at hblamed
  obtain ⟨-, hget, -, ⟨hobstructs, -⟩ | ⟨-, -, hscalar⟩⟩ := hblamed
  · exact ⟨hw, hget, hobstructs⟩
  · simp [Permission.normal] at hscalar

end PathDoc
