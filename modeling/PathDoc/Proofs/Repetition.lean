import PathDoc.Proofs.Drafts
import PathDoc.Proofs.Equality
import PathDoc.Proofs.Induction

/-!
# PathDoc.Proofs.Repetition — writing the same once more

A second write of a leaf at a path takes another way than the first: the document now holds all of
the path, so the writer walks to the last segment, along the positions that a reader finds
(`Write.revisit_cons`).  These are among those that the first write has filled, and where the last
segment is no open span the array has room for it.  So the node is settled for the write
(`Write.Settled`): each writer leaves it as it is.  An open span at the end runs one past the last
element, and each write adds another one.
-/

namespace PathDoc

open Json

namespace Write

variable {job : Job} {s : Segment} {path rest : Path} {v : Value} {steps : List Step}
  {below : Value → Outcome Value}

/-! ### loops that change nothing -/

theorem alongSteps_eq_self (hn : steps.Nodup)
    (h : ∀ step ∈ steps, ∀ c, v.child? step = some c → below c = .done c) :
    alongSteps below steps v = .done v := by
  have hdone := alongSteps_eq_done (g := id) hn h
  rw [hdone, Value.updateChildren_id]

/-! ### nodes that hold the path -/

/-- A write as it comes to a node on its way, or to a target where no segment is left. -/
def revisit (job : Job) : Path → Value → Outcome Value
  | [], v => settle job v
  | s :: rest, v => descend job (s :: rest) v

/-- Where the segment fits, and there is room for it if it is the last one and no open span, a write goes
on along the steps of a reader. -/
theorem revisit_cons (hx : s.excess? = none) (hf : s.fits v = true)
    (hroom : rest = [] → s.isOpen = false ∧ s.hasRoom v = true) :
    revisit job (s :: rest) v = alongSteps (revisit job rest) (s.steps v) v := by
  show descend job (s :: rest) v = _
  cases rest with
  | nil =>
    -- the last segment opens the node again, which has room by now
    obtain ⟨hclosed, hlong⟩ := hroom rfl
    have hopen := opened?_of_hasRoom hx hclosed job [] hlong hf
    have hgo : ¬(([] : Path) ≠ [] ∧ s.fits v = true) := fun hgo => hgo.1 rfl
    rw [descend, if_neg hgo, intoNode, enter_eq, hopen]
    rfl
  | cons t rest =>
    rw [descend, if_pos ⟨List.cons_ne_nil t rest, hf⟩]
    rfl

/-! ### settled nodes -/

/-- Whether a write of the path, or of the leaf where no segment is left, leaves the node as it is and
comes to its end. -/
def Settled (job : Job) : Path → Value → Prop
  | [], v => settle job v = .done v
  | s :: rest, v => descend job (s :: rest) v = .done v

theorem settled_iff : Settled job path v ↔ revisit job path v = .done v := by
  cases path <;> exact Iff.rfl

/-- A node is settled if there is room for the last segment and the children that a reader finds are
settled. -/
theorem hereditary_settled (job : Job) :
    Hereditary fun path v => (∀ s ∈ path.getLast?, s.isOpen = false) → Settled job path v := by
  intro s rest v hx hf hroom h hlast
  have hrest : ∀ t ∈ rest.getLast?, t.isOpen = false := by
    cases rest with
    | nil => simp
    | cons t rest => rwa [List.getLast?_cons_cons] at hlast
  have hready : rest = [] → s.isOpen = false ∧ s.hasRoom v = true := by
    rintro rfl
    have hclosed : s.isOpen = false := hlast s rfl
    exact ⟨hclosed, hroom rfl hclosed⟩
  rw [settled_iff, revisit_cons hx hf hready]
  exact alongSteps_eq_self (s.nodup_steps v) fun step hm c hc =>
    settled_iff.mp (h step hm c hc hrest)

theorem settle_leaf (hleaf : job.leaf.WellFormed) (hs : job.permission.scalar = true) :
    settle job job.leaf = .done job.leaf := by
  unfold settle
  by_cases hv : job.leaf.isEmptyContainer = true
  · rw [if_pos hv]
  · rw [if_neg hv, Value.beq_self hleaf, hs]
    rfl

/-- Where scalars may be replaced, a leaf that has been settled stays: itself, or the equal document
that was there before. -/
theorem settled_settle (hleaf : job.leaf.WellFormed) (hs : job.permission.scalar = true)
    (hf : (settle job v).fault = none) : Settled job [] (settle job v).result := by
  rcases settle_cases hf with hput | ⟨-, -, hkept⟩
  · rw [hput]
    exact settle_leaf hleaf hs
  · rw [hkept]
    exact hkept

end Write

/-- **A write finds its own result in place**, if scalars may be replaced and the path does not end in an
open span. -/
theorem write_result_write {root : Value} {path : Path} {job : Job} (hleaf : job.leaf.WellFormed)
    (hs : job.permission.scalar = true) (hlast : ∀ s ∈ path.getLast?, s.isOpen = false)
    (hf : (root.write path job).fault = none) :
    (root.write path job).result.write path job = .done (root.write path job).result := by
  have hx := firstExcess?_of_write hf
  have hnone := Write.firstExcess?_eq_none_iff.mp hx
  rw [write_eq_descend hx] at hf ⊢
  rw [write_eq_descend hx]
  cases path with
  | nil => rfl
  | cons s rest =>
    exact (Write.hereditary_settled job).descend
      (fun node hsettled _ => Write.settled_settle hleaf hs hsettled) (List.cons_ne_nil s rest) hnone
      hf hlast

/-- An open span at the end adds an element each time. -/
example :
    let job : Job := ⟨.null, .normal⟩
    Value.write (.arr []) [.span 0 none] job = .done (.arr [.null]) ∧
      Value.write (.arr [.null]) [.span 0 none] job = .done (.arr [.null, .null]) :=
  ⟨by rfl, by rfl⟩

namespace Draft

variable {d d' : Draft} {text : String}

/-- **Writing is idempotent** at every priority that may replace a scalar: a write that was not refused
can be repeated, and then changes nothing, not even the order of members.  The path may have open
spans, but not at its end. -/
theorem putWith_putWith {leaf : Value} {priority : Priority} {path : Path}
    (hleaf : leaf.WellFormed) (hpath : Path.read text = .ok path)
    (hlast : ∀ s ∈ path.getLast?, s.isOpen = false) (hp : priority ≠ .low)
    (h : d.putWith text (some leaf) priority = .ok d') :
    d'.putWith text (some leaf) priority = .ok d' := by
  have hs : priority.permission.scalar = true := by
    cases priority with
    | low => exact absurd rfl hp
    | normal => rfl
    | high => rfl
  obtain ⟨path', leaf', hpath', hl, hf, rfl⟩ := write_eq_ok_iff.mp h
  obtain rfl := Option.some.inj hl
  obtain rfl := Except.ok.inj (hpath.symm.trans hpath')
  have hagain := write_result_write hleaf hs hlast hf
  refine write_eq_ok_iff.mpr ⟨path, leaf, hpath, rfl, ?_, ?_⟩
  · rw [hagain]
    rfl
  · rw [hagain]
    rfl

/-- An open span that starts past the end of its array, before a span across zero: the first write makes
three rows, of which the second one comes to the last alone. -/
theorem putWith_putWith_crossing :
    let row := Value.arr [.null, .null]
    let d := ofValue (.obj [("a", .arr [.arr [.num (.int 1)]])])
    let d' := ofValue (.obj [("a", .arr [.arr [.num (.int 1)], row, row, row])])
    let path : Path := [.member "a", .span 3 none, .span (-1) (some 0)]
    Path.read "a[3:][-1:0]" = .ok path ∧ (∀ s ∈ path.getLast?, s.isOpen = false) ∧
      d.putWith "a[3:][-1:0]" (some .null) .normal = .ok d' ∧
      d'.putWith "a[3:][-1:0]" (some .null) .normal = .ok d' := by
  intro row d d' path
  have hpath : Path.read "a[3:][-1:0]" = .ok path := by rfl
  have hlast : ∀ s ∈ path.getLast?, s.isOpen = false := by decide
  have h : d.putWith "a[3:][-1:0]" (some .null) .normal = .ok d' := by rfl
  have hleaf : Value.null.WellFormed := trivial
  exact ⟨hpath, hlast, h, putWith_putWith hleaf hpath hlast (by simp) h⟩

end Draft

end PathDoc
