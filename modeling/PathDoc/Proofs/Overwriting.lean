import PathDoc.Proofs.Equivalence
import PathDoc.Proofs.OneStep
import PathDoc.Proofs.Repetition

/-!
# PathDoc.Proofs.Overwriting — the last write wins

A second write of a path finds the containers that the first one has made or lengthened, and walks on
(`Write.revisit`) where a write on the old document has still to make them.  Unless the path has an open
span, both go along the same steps of the same containers: those of the old node, opened for the segment
with empty objects in all that it lacked (`intoNode_eq_alongSteps`).  So it comes down to the targets,
and there a leaf that the permission may replace leaves no trace (`replacedBy_settle`).
-/

namespace PathDoc

open Json

/-- Whether, if a first write comes to its end, a second one over what it leaves does so too and comes to
the same as a direct one. -/
def Outcome.ReplacedBy (first : Outcome Value) (again : Value → Outcome Value)
    (direct : Outcome Value) : Prop :=
  first.fault = none → direct.fault = none ∧ (again first.result).fault = none ∧
    ((again first.result).result == direct.result) = true

namespace Write

variable {job : Job} {p : Permission} {leaf leaf' : Value} {s : Segment} {path rest : Path}
  {steps : List Step} {node v w : Value}

/-! ### targets -/

/-- Whether the permission is enough to replace the leaf once it has been written. -/
def Replaces (p : Permission) (leaf : Value) : Prop :=
  p.scalar = true ∧ (leaf.isContainer = true → leaf.isEmptyContainer = true ∨ p.container = true)

theorem fault_settle_of_replaces (h : Replaces p v) (leaf : Value) :
    (settle ⟨leaf, p⟩ v).fault = none := by
  rw [fault_settle_eq_none_iff]
  cases hv : v.isContainer with
  | false => exact .inr (.inr (.inr ⟨rfl, h.1⟩))
  | true =>
    rcases h.2 hv with hempty | hc
    · exact .inl hempty
    · exact .inr (.inr (.inl ⟨rfl, hc⟩))

/-- What equals a replaceable leaf is replaceable. -/
theorem Replaces.of_beq (h : Replaces p leaf) (hv : (v == leaf) = true) : Replaces p v := by
  refine ⟨h.1, fun hc => ?_⟩
  rw [Value.isContainer_of_beq hv] at hc
  exact (h.2 hc).imp_left (Value.isEmptyContainer_of_beq hv)

/-- A settled leaf equals what stands in the target's place. -/
theorem settle_beq (hleaf : job.leaf.WellFormed) (hf : (settle job v).fault = none) :
    ((settle job v).result == job.leaf) = true := by
  rcases settle_cases hf with hput | ⟨hv, -, hkept⟩
  · rw [hput]
    exact Value.beq_self hleaf
  · rw [hkept]
    exact hv

/-- **At a target** the leaf that was written last is all that counts. -/
theorem replacedBy_settle (hp : Replaces p leaf) (hleaf : leaf.WellFormed) (hleaf' : leaf'.WellFormed)
    (hv : v.WellFormed) :
    (settle ⟨leaf, p⟩ v).ReplacedBy (settle ⟨leaf', p⟩) (settle ⟨leaf', p⟩ v) := by
  intro hf
  have hagain : (settle ⟨leaf', p⟩ (settle ⟨leaf, p⟩ v).result).fault = none :=
    fault_settle_of_replaces (hp.of_beq (settle_beq hleaf hf)) leaf'
  have hdirect : (settle ⟨leaf', p⟩ v).fault = none := by
    rw [fault_settle_eq_none_iff] at hf ⊢
    rcases hf with hempty | ⟨heq, -⟩ | hrest
    · exact .inl hempty
    · exact fault_settle_eq_none_iff.mp (fault_settle_of_replaces (hp.of_beq heq) leaf')
    · exact .inr (.inr hrest)
  have hfirst : (settle ⟨leaf, p⟩ v).result.WellFormed := wellFormed_settle hleaf hv
  refine ⟨hdirect, hagain, ?_⟩
  -- either of them equals the second leaf, put there or kept
  exact Value.beq_trans (wellFormed_settle hleaf' hfirst) (settle_beq hleaf' hagain)
    (Value.beq_symm (wellFormed_settle hleaf' hv) hleaf' (settle_beq hleaf' hdirect))

/-! ### one level -/

/-- A loop is replaced if the writers below the children are. -/
theorem replacedBy_alongSteps {below again direct : Value → Outcome Value} (hv : v.WellFormed)
    (hn : steps.Nodup) (h : ∀ c, c.WellFormed → (below c).ReplacedBy again (direct c)) :
    (alongSteps below steps v).ReplacedBy (alongSteps again steps) (alongSteps direct steps v) := by
  intro hf
  have hchild : ∀ step ∈ steps, ∀ c, v.child? step = some c → (direct c).fault = none ∧
      (again (below c).result).fault = none ∧
      ((again (below c).result).result == (direct c).result) = true :=
    fun step hm c hc => h c (hv.child hc) (fault_below_of_alongSteps hn hf hm hc)
  have hdirect : (alongSteps direct steps v).fault = none :=
    fault_alongSteps_eq_none hn fun step hm c hc => (hchild step hm c hc).1
  have hagain : (alongSteps again steps (alongSteps below steps v).result).fault = none := by
    refine fault_alongSteps_eq_none hn fun step hm d hd => ?_
    rw [child?_alongSteps_of_mem hn hf hm] at hd
    obtain ⟨c, hc, rfl⟩ := Option.map_eq_some_iff.mp hd
    exact (hchild step hm c hc).2.1
  refine ⟨hdirect, hagain, Value.beq_of_changed hv ?_ (outline_alongSteps direct steps v)
    (fun step hm => ⟨?_, child?_alongSteps_of_not_mem hm⟩) fun step hm d e hd he => ?_⟩
  · rw [outline_alongSteps, outline_alongSteps]
  · rw [child?_alongSteps_of_not_mem hm, child?_alongSteps_of_not_mem hm]
  · rw [child?_alongSteps_of_mem hn hagain hm, child?_alongSteps_of_mem hn hf hm] at hd
    rw [child?_alongSteps_of_mem hn hdirect hm] at he
    obtain ⟨c, hc, rfl⟩ := Option.map_eq_some_iff.mp he
    rw [hc, Option.map_some, Option.map_some, Option.some.injEq] at hd
    rw [← hd]
    exact (hchild step hm c hc).2.2

/-- A level is replaced by a second write that finds all of it in place. -/
theorem replacedBy_level {below direct : Value → Outcome Value} (hx : s.excess? = none)
    (hc : s.isOpen = false) (hfits : s.fits v = true) (hroom : rest = [] → s.hasRoom v = true)
    (hv : v.WellFormed)
    (h : ∀ c, c.WellFormed → (below c).ReplacedBy (revisit job rest) (direct c)) :
    (alongSteps below (s.steps v) v).ReplacedBy (revisit job (s :: rest))
      (alongSteps direct (s.steps v) v) := by
  have hout := outline_alongSteps below (s.steps v) v
  have hagain : revisit job (s :: rest) (alongSteps below (s.steps v) v).result =
      alongSteps (revisit job rest) (s.steps v) (alongSteps below (s.steps v) v).result := by
    rw [revisit_cons hx, steps_alongSteps]
    · rw [Segment.fits_congr hout, hfits]
    · intro hrest
      rw [Segment.hasRoom_congr hout]
      exact ⟨hc, hroom hrest⟩
  unfold Outcome.ReplacedBy
  rw [hagain]
  exact replacedBy_alongSteps hv (s.nodup_steps v) h

/-! ### opened nodes -/

/-- **The writer at one node**, in terms of a reader: it goes along the steps of the segment in the node
that has been opened with empty objects in all that it lacked. -/
theorem intoNode_eq_alongSteps (hx : s.excess? = none) (hc : s.isOpen = false)
    (ho : opened? ⟨.obj [], p⟩ s [] node = some (w, steps)) (leaf : Value) (rest : Path) :
    intoNode ⟨leaf, p⟩ (s :: rest) node =
      alongSteps (intoSlot ⟨leaf, p⟩ rest) (s.steps w) w := by
  rw [intoNode, enter_eq]
  rcases opened?_cases ho with ⟨items, hs, hi, rfl, -⟩ | ⟨name, ms, c, rfl, hm, hg, rfl, -⟩ |
    ⟨name, ms, rfl, hm, hg, rfl, -⟩
  · rw [opened?_of_isPositional hs, hi, Option.map_some, Segment.steps_arr,
      Segment.length_makeRoom hx, Segment.slots_eq_hits_grown hx hc]
    rfl
  · have hmem : name ∈ ms.map Prod.fst := Members.get?_isSome_iff.mp (by rw [hg]; rfl)
    rw [opened?, hm, Option.map_some, hg, Segment.steps_member_obj, if_pos hmem]
  · -- the new member holds an empty object first, and then fresh containers in its place
    have hnew : Value.obj (ms ++ [(name, Path.scaffold [] (.obj []))]) =
        (Value.obj ms).putChild (.key name) (.obj []) :=
      congrArg Value.obj (Members.put_eq_append hg _).symm
    have hsteps : (Segment.member name).steps ((Value.obj ms).putChild (.key name) (.obj [])) =
        [.key name] := by
      have hmem : name ∈ (ms.put name (.obj [])).map Prod.fst := by
        rw [← Members.get?_isSome_iff, Members.get?_put, if_pos rfl]
        rfl
      exact (Segment.steps_member_obj name _).trans (if_pos hmem)
    have hchild : ((Value.obj ms).putChild (.key name) (.obj [])).child? (.key name) =
        some (.obj []) := Value.child?_putChild_self rfl
    rw [opened?, hm, Option.map_some, hg, hnew, hsteps, alongSteps_cons_of_some hchild,
      intoSlot_of_isEmptyContainer rfl, Outcome.lift_andThen_of_fault_none rfl,
      Outcome.result_done, Value.setChild_putChild rfl]
    rfl

/-- Whether a node can be opened does not depend on what is written. -/
theorem fault_intoNode_of_opened?_eq_none (ho : opened? ⟨.obj [], p⟩ s [] node = none)
    (leaf : Value) (rest : Path) : (intoNode ⟨leaf, p⟩ (s :: rest) node).fault ≠ none := by
  have hstuck := opened?_eq_none_iff.mp ho
  have hopen : opened? ⟨leaf, p⟩ s rest node = none := opened?_eq_none_iff.mpr hstuck
  rw [intoNode, enter_eq, hopen]
  exact Option.some_ne_none _

/-- **Below a node that is there**, with whatever of the path it lacks. -/
theorem replacedBy_intoSlot (hp : Replaces p leaf) (hleaf : leaf.WellFormed)
    (hleaf' : leaf'.WellFormed) (hx : ∀ s ∈ path, s.excess? = none)
    (hc : ∀ s ∈ path, s.isOpen = false) (hv : v.WellFormed) :
    (intoSlot ⟨leaf, p⟩ path v).ReplacedBy (revisit ⟨leaf', p⟩ path)
      (intoSlot ⟨leaf', p⟩ path v) := by
  induction path generalizing v with
  | nil => exact replacedBy_settle hp hleaf hleaf' hv
  | cons s rest ih =>
    rw [List.forall_mem_cons] at hx hc
    rw [intoSlot_eq_intoNode, intoSlot_eq_intoNode]
    cases ho : opened? ⟨.obj [], p⟩ s [] v with
    | none => exact fun hf => absurd hf (fault_intoNode_of_opened?_eq_none ho leaf rest)
    | some opened =>
      obtain ⟨w, steps⟩ := opened
      have hw : w.WellFormed := by
        refine wellFormed_of_opened? hv ?_ ho
        exact ⟨List.nodup_nil, trivial⟩
      rw [intoNode_eq_alongSteps hx.1 hc.1 ho, intoNode_eq_alongSteps hx.1 hc.1 ho]
      exact replacedBy_level hx.1 hc.1 (fits_of_opened? hx.1 ho)
        (fun _ => hasRoom_of_opened? hx.1 hc.1 ho) hw fun c hwf => ih hx.2 hc.2 hwf

theorem replacedBy_descend (hp : Replaces p leaf) (hleaf : leaf.WellFormed)
    (hleaf' : leaf'.WellFormed) (hne : path ≠ []) (hx : ∀ s ∈ path, s.excess? = none)
    (hc : ∀ s ∈ path, s.isOpen = false) (hv : v.WellFormed) :
    (descend ⟨leaf, p⟩ path v).ReplacedBy (revisit ⟨leaf', p⟩ path) (descend ⟨leaf', p⟩ path v) := by
  induction path generalizing v with
  | nil => exact absurd rfl hne
  | cons s rest ih =>
    rw [descend, descend]
    by_cases hgo : rest ≠ [] ∧ s.fits v = true
    · rw [if_pos hgo, if_pos hgo]
      rw [List.forall_mem_cons] at hx hc
      exact replacedBy_level hx.1 hc.1 hgo.2 (fun h => absurd h hgo.1) hv
        fun c hwf => ih hgo.1 hx.2 hc.2 hwf
    · -- from here on the old document lacks something, or no segment is left to walk along
      rw [if_neg hgo, if_neg hgo, ← intoSlot_eq_intoNode, ← intoSlot_eq_intoNode]
      exact replacedBy_intoSlot hp hleaf hleaf' hx hc hv

end Write

/-- **A write over another one** at the same path comes to the same as without it, if the path has no open
span and the permission is enough to replace what the first one has put there. -/
theorem replacedBy_write {p : Permission} {leaf leaf' root : Value} {path : Path}
    (hp : Write.Replaces p leaf) (hleaf : leaf.WellFormed) (hleaf' : leaf'.WellFormed)
    (hroot : root.WellFormed) (hclosed : ∀ s ∈ path, s.isOpen = false) :
    (root.write path ⟨leaf, p⟩).ReplacedBy (fun v => v.write path ⟨leaf', p⟩)
      (root.write path ⟨leaf', p⟩) := by
  intro hf
  have hx := firstExcess?_of_write hf
  have hnone := Write.firstExcess?_eq_none_iff.mp hx
  simp only [write_eq_descend hx] at hf ⊢
  cases path with
  | nil => exact ⟨rfl, rfl, Value.beq_self hroot⟩
  | cons s rest =>
    exact Write.replacedBy_descend hp hleaf hleaf' (List.cons_ne_nil s rest) hnone hclosed hroot hf

namespace Draft

variable {d d' : Draft} {text : String}

/-- **The last write wins.**  Where the path has no open span, and the first write insists highest, or
normally on a scalar or an empty container: if it is not refused, a second one at the same path is not
refused either, nor is it on the document without the first one, and the two come to equal documents. -/
theorem last_write_wins {leaf leaf' : Value} {priority : Priority} {path : Path}
    (hroot : d.root.WellFormed) (hleaf : leaf.WellFormed) (hleaf' : leaf'.WellFormed)
    (hpath : Path.read text = .ok path) (hclosed : ∀ s ∈ path, s.isOpen = false)
    (hp : priority = .high ∨
      priority = .normal ∧ (leaf.isContainer = false ∨ leaf.isEmptyContainer = true))
    (h : d.putWith text (some leaf) priority = .ok d') :
    ∃ again direct, d'.putWith text (some leaf') priority = .ok again ∧
      d.putWith text (some leaf') priority = .ok direct ∧ (again == direct) = true := by
  have hreplaces : Write.Replaces priority.permission leaf := by
    rcases hp with rfl | ⟨rfl, hk⟩
    · exact ⟨rfl, fun _ => .inr rfl⟩
    · refine ⟨rfl, fun hc => .inl ?_⟩
      rcases hk with hscalar | hempty
      · exact absurd (hscalar.symm.trans hc) Bool.false_ne_true
      · exact hempty
  obtain ⟨path', leaf₁, hpath', hl, hf, rfl⟩ := write_eq_ok_iff.mp h
  obtain rfl := Option.some.inj hl
  obtain rfl := Except.ok.inj (hpath.symm.trans hpath')
  obtain ⟨hdirect, hover, heq⟩ := replacedBy_write hreplaces hleaf hleaf' hroot hclosed hf
  refine ⟨_, _, write_eq_ok_iff.mpr ⟨path, leaf', hpath, rfl, hover, rfl⟩,
    write_eq_ok_iff.mpr ⟨path, leaf', hpath, rfl, hdirect, rfl⟩, ?_⟩
  show (_ && _) = true
  rw [Bool.and_eq_true]
  exact ⟨heq, beq_self_eq_true _⟩

/-- Two spans across zero.  The first one goes through an array that is long enough for its ends, and
leaves it as short as it is.  The second one makes three items of one, and the second write then finds all
of them in place. -/
theorem last_write_wins_across_zero :
    let path : Path := [.member "m", .span (-1) (some 0), .member "r", .span (-1) (some 1)]
    let doc (items : List Value) := ofValue (.obj [("m", .arr [.obj [("r", .arr items)]])])
    let d := doc [.null]
    let d' := doc [.arr [], .arr [], .arr []]
    let leaf' := Value.obj [("k", .bool true)]
    Path.read "m[-1:0].r[-1:1]" = .ok path ∧ (∀ s ∈ path, s.isOpen = false) ∧
      d.putWith "m[-1:0].r[-1:1]" (some (.arr [])) .normal = .ok d' ∧
      d.putWith "m[-1:0].r[-1:1]" (some leaf') .normal = .ok (doc [leaf', leaf', leaf']) ∧
      ∃ again direct, d'.putWith "m[-1:0].r[-1:1]" (some leaf') .normal = .ok again ∧
        d.putWith "m[-1:0].r[-1:1]" (some leaf') .normal = .ok direct ∧ (again == direct) = true := by
  intro path doc d d' leaf'
  have hpath : Path.read "m[-1:0].r[-1:1]" = .ok path := by rfl
  have hclosed : ∀ s ∈ path, s.isOpen = false := by decide
  have h : d.putWith "m[-1:0].r[-1:1]" (some (.arr [])) .normal = .ok d' := by rfl
  have hroot : d.root.WellFormed := by
    simp [d, doc, ofValue, Value.WellFormed, Value.WellFormedItems, Value.WellFormedMembers]
  have hleaf : (Value.arr []).WellFormed := trivial
  have hleaf' : leaf'.WellFormed := by simp [leaf', Value.WellFormed, Value.WellFormedMembers]
  have hp : Priority.normal = .high ∨ Priority.normal = .normal ∧
      ((Value.arr []).isContainer = false ∨ (Value.arr []).isEmptyContainer = true) :=
    .inr ⟨rfl, .inr rfl⟩
  exact ⟨hpath, hclosed, h, by rfl, last_write_wins hroot hleaf hleaf' hpath hclosed hp h⟩

end Draft

end PathDoc
