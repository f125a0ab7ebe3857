import PathDoc.Proofs.WellFormedness

/-!
# PathDoc.Proofs.Monotonicity — writing with more permission

Two writes of one leaf at one path, the second with more permission, open the same nodes as long as the
first one comes to its end.  They can part at a target only: there the second may keep a node that
equals the leaf where the first puts the leaf itself.  So what they leave is related by every relation
that holds between these two and comes up from the children of a node (`ComesUp`): by equality of
documents always, and by identity where whatever may replace containers may replace scalars too, as is
so for the priorities.
-/

namespace PathDoc

open Json

/-! ### relations that come up from the children -/

namespace Json.Value

/-- Whether nodes are related once the children that have been replaced in them are. -/
def ComesUp (E : Value → Value → Prop) : Prop :=
  ∀ {v : Value} {g h : Value → Value} {steps : List Step}, v.WellFormed → steps.Nodup →
    (∀ step ∈ steps, ∀ c, v.child? step = some c → E (g c) (h c)) →
      E (v.updateChildren g steps) (v.updateChildren h steps)

theorem ComesUp.refl {E : Value → Value → Prop} (hE : ComesUp E) {v : Value} (hv : v.WellFormed) :
    E v v :=
  hE (g := id) (h := id) hv List.nodup_nil fun _ hm => absurd hm List.not_mem_nil

theorem comesUp_eq : ComesUp Eq := fun _ hn hgh => updateChildren_congr hn hgh

/-- Two nodes that differ from a third one in some children only are equal if these are. -/
theorem beq_of_changed {u v w : Value} {steps : List Step} (hu : u.WellFormed)
    (hv : v.outline = u.outline) (hw : w.outline = u.outline)
    (hkept : ∀ step, step ∉ steps → v.child? step = u.child? step ∧ w.child? step = u.child? step)
    (h : ∀ step ∈ steps, ∀ c d, v.child? step = some c → w.child? step = some d →
      (c == d) = true) : (v == w) = true := by
  have hdistinct : v.outline.Distinct := hv ▸ (wellFormed_iff.mp hu).1
  refine beq_of_children hdistinct (hv.trans hw.symm) fun step c d hc hd => ?_
  by_cases hm : step ∈ steps
  · exact h step hm c d hc hd
  · obtain ⟨hleft, hright⟩ := hkept step hm
    rw [hleft] at hc
    rw [hright] at hd
    have hsame : c = d := Option.some.inj (hc.symm.trans hd)
    rw [← hsame]
    exact beq_self (hu.child hc)

theorem comesUp_beq : ComesUp fun v w => (w == v) = true := by
  intro v g h steps hv hn hgh
  refine beq_of_changed hv (outline_updateChildren h steps v) (outline_updateChildren g steps v)
    (fun step hm => ⟨child?_updateChildren_of_not_mem hm, child?_updateChildren_of_not_mem hm⟩)
    fun step hm c d hc hd => ?_
  rw [child?_updateChildren_of_mem hn hm] at hc hd
  obtain ⟨old, hold, rfl⟩ := Option.map_eq_some_iff.mp hc
  rw [hold, Option.map_some, Option.some.injEq] at hd
  rw [← hd]
  exact hgh step hm old hold

end Json.Value

/-- Whether a second write comes to its end if the first one does, and then leaves a related
document. -/
def Outcome.MatchedBy (E : Value → Value → Prop) (r r' : Outcome Value) : Prop :=
  r.fault = none → r'.fault = none ∧ E r.result r'.result

namespace Write

variable {E : Value → Value → Prop} {leaf v : Value} {p q : Permission} {s : Segment}
  {path rest : Path} {steps : List Step} {below below' : Value → Outcome Value}

/-- Two loops along the same steps match if the writers below the children do. -/
theorem matchedBy_alongSteps (hE : Value.ComesUp E) (hv : v.WellFormed) (hn : steps.Nodup)
    (h : ∀ c, c.WellFormed → (below c).MatchedBy E (below' c)) :
    (alongSteps below steps v).MatchedBy E (alongSteps below' steps v) := by
  intro hf
  have hmatch : ∀ step ∈ steps, ∀ c, v.child? step = some c →
      (below' c).fault = none ∧ E (below c).result (below' c).result := by
    intro step hm c hc
    exact h c (hv.child hc) (fault_below_of_alongSteps hn hf hm hc)
  have hf' : (alongSteps below' steps v).fault = none :=
    fault_alongSteps_eq_none hn fun step hm c hc => (hmatch step hm c hc).1
  refine ⟨hf', ?_⟩
  rw [result_alongSteps hf, result_alongSteps hf']
  exact hE hv hn fun step hm c hc => (hmatch step hm c hc).2

/-- Whether the relation does not mind that a node which equals the leaf is kept where the permission
replaces it. -/
def Tolerates (E : Value → Value → Prop) (leaf : Value) (p : Permission) : Prop :=
  p.container = true → p.scalar = false → ∀ v, (v == leaf) = true → E leaf v

/-- More permission settles what less permission settles.  A target that equals the leaf may be kept by
the one and replaced by the other, but only where the less permission is for containers and not for
scalars. -/
theorem matchedBy_settle (hpq : p ≤ q) (hleaf : E leaf leaf) (hself : E v v)
    (hkeep : Tolerates E leaf p) : (settle ⟨leaf, p⟩ v).MatchedBy E (settle ⟨leaf, q⟩ v) := by
  intro hf
  obtain ⟨hscalar, hcontainer, -⟩ := hpq
  have hp := fault_settle_eq_none_iff.mp hf
  have hf' : (settle ⟨leaf, q⟩ v).fault = none := by
    rw [fault_settle_eq_none_iff]
    rcases hp with hempty | ⟨heq, hs⟩ | ⟨hv, hc⟩ | ⟨hv, hs⟩
    · exact .inl hempty
    · exact .inr (.inl ⟨heq, hscalar hs⟩)
    · exact .inr (.inr (.inl ⟨hv, hcontainer hc⟩))
    · exact .inr (.inr (.inr ⟨hv, hscalar hs⟩))
  refine ⟨hf', ?_⟩
  cases hk : keeps ⟨leaf, p⟩ v with
  | true =>
    obtain ⟨hv, heq, hs⟩ := keeps_iff.mp hk
    have hk' : keeps ⟨leaf, q⟩ v = true := keeps_iff.mpr ⟨hv, heq, hscalar hs⟩
    rw [settle_of_keeps hk, settle_of_keeps hk']
    exact hself
  | false =>
    rw [settle_of_not_keeps hk hf]
    cases hk' : keeps ⟨leaf, q⟩ v with
    | false =>
      rw [settle_of_not_keeps hk' hf']
      exact hleaf
    | true =>
      obtain ⟨hv, heq, -⟩ := keeps_iff.mp hk'
      have hs : p.scalar = false := by
        rw [← Bool.not_eq_true]
        intro hs
        have hkept : keeps ⟨leaf, p⟩ v = true := keeps_iff.mpr ⟨hv, heq, hs⟩
        exact absurd (hk.symm.trans hkept) Bool.false_ne_true
      have hc : p.container = true := by
        rcases hp with hempty | ⟨-, hs'⟩ | ⟨-, hc⟩ | ⟨-, hs'⟩
        · exact absurd (hv.symm.trans hempty) Bool.false_ne_true
        · exact absurd (hs.symm.trans hs') Bool.false_ne_true
        · exact hc
        · exact absurd (hs.symm.trans hs') Bool.false_ne_true
      rw [settle_of_keeps hk']
      exact hkeep hc hs v heq

theorem prepare?_mono {a b : Bool} (hab : a = true → b = true) {w : Value}
    (h : prepare? a s v = some w) : prepare? b s v = some w := by
  by_cases hk : s.suits v = true
  · rw [prepare?_of_suits hk] at h ⊢
    exact h
  · rw [Bool.not_eq_true] at hk
    rw [prepare?_of_not_suits hk] at h ⊢
    obtain ⟨hopen, hw⟩ := Option.ite_none_right_eq_some.mp h
    rw [Bool.or_eq_true] at hopen
    rw [if_pos (Bool.or_eq_true_iff.mpr (hopen.imp_right hab))]
    exact hw

/-- More permission opens a node as less permission does. -/
theorem opened?_mono (hpq : p ≤ q) {node : Value}
    (ho : opened? ⟨leaf, p⟩ s rest node = some (v, steps)) :
    opened? ⟨leaf, q⟩ s rest node = some (v, steps) := by
  obtain ⟨-, -, hcoerce⟩ := hpq
  cases hs : s.isPositional with
  | true =>
    rw [opened?_of_isPositional hs, Option.map_eq_some_iff] at ho ⊢
    obtain ⟨items, hi, he⟩ := ho
    have hp : prepare? p.coerce s node = some (.arr items) := by
      rw [prepare?_of_isPositional hs, show itemsOf? p.coerce node = some items from hi]
      rfl
    have hq := prepare?_mono hcoerce hp
    rw [prepare?_of_isPositional hs] at hq
    obtain ⟨items', hi', harr⟩ := Option.map_eq_some_iff.mp hq
    obtain rfl := Value.arr.inj harr
    exact ⟨items', hi', he⟩
  | false =>
    obtain ⟨name, rfl⟩ := Segment.exists_eq_member hs
    rw [opened?, Option.map_eq_some_iff] at ho ⊢
    obtain ⟨ms, hm, he⟩ := ho
    have hp : prepare? p.coerce (.member name) node = some (.obj ms) := by
      rw [prepare?_member, show membersOf? p.coerce node = some ms from hm]
      rfl
    have hq := prepare?_mono hcoerce hp
    rw [prepare?_member] at hq
    obtain ⟨ms', hm', hobj⟩ := Option.map_eq_some_iff.mp hq
    obtain rfl := Value.obj.inj hobj
    exact ⟨ms', hm', he⟩

/-! ### two writes -/

theorem matchedBy_intoSlot (hE : Value.ComesUp E) (hleaf : leaf.WellFormed)
    (hkeep : Tolerates E leaf p) (hpq : p ≤ q) (path : Path) (hv : v.WellFormed) :
    (intoSlot ⟨leaf, p⟩ path v).MatchedBy E (intoSlot ⟨leaf, q⟩ path v) := by
  induction path generalizing v with
  | nil =>
    rw [intoSlot_nil, intoSlot_nil]
    exact matchedBy_settle hpq (hE.refl hleaf) (hE.refl hv) hkeep
  | cons s rest ih =>
    rw [intoSlot_eq_intoNode, intoSlot_eq_intoNode, intoNode, intoNode, enter_eq, enter_eq]
    cases ho : opened? ⟨leaf, p⟩ s rest v with
    | none => exact fun hf => absurd hf (Option.some_ne_none _)
    | some opened =>
      obtain ⟨w, steps⟩ := opened
      have hfresh : (Path.scaffold rest leaf).WellFormed := wellFormed_scaffold hleaf rest
      have hw : w.WellFormed := wellFormed_of_opened? hv hfresh ho
      rw [opened?_mono hpq ho]
      exact matchedBy_alongSteps hE hw (nodup_steps_of_opened? ho) fun c hc => ih hc

theorem matchedBy_descend (hE : Value.ComesUp E) (hleaf : leaf.WellFormed)
    (hkeep : Tolerates E leaf p) (hpq : p ≤ q) (path : Path) (hv : v.WellFormed) :
    (descend ⟨leaf, p⟩ path v).MatchedBy E (descend ⟨leaf, q⟩ path v) := by
  induction path generalizing v with
  | nil => exact fun _ => ⟨rfl, hE.refl hv⟩
  | cons s rest ih =>
    rw [descend, descend]
    by_cases hgo : rest ≠ [] ∧ s.fits v = true
    · rw [if_pos hgo, if_pos hgo]
      exact matchedBy_alongSteps hE hv (s.nodup_steps v) fun c hc => ih hc
    · rw [if_neg hgo, if_neg hgo, ← intoSlot_eq_intoNode, ← intoSlot_eq_intoNode]
      exact matchedBy_intoSlot hE hleaf hkeep hpq (s :: rest) hv

theorem matchedBy_write (hE : Value.ComesUp E) (hleaf : leaf.WellFormed)
    (hkeep : Tolerates E leaf p) (hpq : p ≤ q) (path : Path) {root : Value}
    (hroot : root.WellFormed) :
    (root.write path ⟨leaf, p⟩).MatchedBy E (root.write path ⟨leaf, q⟩) := by
  intro hf
  have hx := firstExcess?_of_write hf
  rw [write_eq_descend hx] at hf ⊢
  rw [write_eq_descend hx]
  exact matchedBy_descend hE hleaf hkeep hpq path hroot hf

/-- What a priority may do to containers it may do to scalars. -/
theorem tolerates_priority (E : Value → Value → Prop) (leaf : Value) (a : Priority) :
    Tolerates E leaf a.permission := by
  intro hc hs
  cases a with
  | low => exact absurd hc Bool.false_ne_true
  | normal => exact absurd hc Bool.false_ne_true
  | high => exact absurd hs.symm Bool.false_ne_true

end Write

/-- **More permission never spoils a write**: what comes to its end with a permission does so with a
greater one, and leaves an equal document.  Between two priorities it leaves the very same one, with the
same order of members. -/
theorem write_mono {root leaf : Value} (hroot : root.WellFormed) (hleaf : leaf.WellFormed)
    (path : Path) :
    (∀ p q : Permission, p ≤ q → (root.write path ⟨leaf, p⟩).fault = none →
      (root.write path ⟨leaf, q⟩).fault = none ∧
        ((root.write path ⟨leaf, q⟩).result == (root.write path ⟨leaf, p⟩).result) = true) ∧
    ∀ a b : Priority, a.permission ≤ b.permission →
      (root.write path ⟨leaf, a.permission⟩).fault = none →
        root.write path ⟨leaf, b.permission⟩ = root.write path ⟨leaf, a.permission⟩ := by
  constructor
  · intro p q hpq hf
    have hkeep : Write.Tolerates (fun v w => (w == v) = true) leaf p := fun _ _ v heq => heq
    exact Write.matchedBy_write Value.comesUp_beq hleaf hkeep hpq path hroot hf
  · intro a b hab hf
    have hkeep := Write.tolerates_priority Eq leaf a
    obtain ⟨hf', hsame⟩ := Write.matchedBy_write Value.comesUp_eq hleaf hkeep hab path hroot hf
    calc root.write path ⟨leaf, b.permission⟩
        = .done (root.write path ⟨leaf, b.permission⟩).result := Outcome.eq_done hf'
      _ = .done (root.write path ⟨leaf, a.permission⟩).result := by rw [hsame]
      _ = root.write path ⟨leaf, a.permission⟩ := (Outcome.eq_done hf).symm

/-- A permission for containers alone puts the leaf with its own order of members, and a greater one
keeps the row that equals it; where nothing but an empty row stands in the way the lowest priority
does what the highest does. -/
theorem write_mono_reordered :
    let x : String × Value := ("x", .num (.int 1))
    let y : String × Value := ("y", .null)
    let root : Value := .obj [("a", .arr [.obj [x, y], .obj [x, y]])]
    let leaf : Value := .obj [y, x]
    let rows : Path := [.member "a", .span 0 none]
    let p : Permission := ⟨false, true, false⟩
    let fresh : Path := [.member "b", .index 1]
    p ≤ .high ∧
      root.write rows ⟨leaf, p⟩ = .done (.obj [("a", .arr [leaf, leaf, leaf])]) ∧
      root.write rows ⟨leaf, .high⟩ =
        .done (.obj [("a", .arr [.obj [x, y], .obj [x, y], leaf])]) ∧
      ((root.write rows ⟨leaf, .high⟩).result == (root.write rows ⟨leaf, p⟩).result) = true ∧
      root.write fresh ⟨leaf, .high⟩ = root.write fresh ⟨leaf, .low⟩ := by
  intro x y root leaf rows p fresh
  have hroot : root.WellFormed := by
    simp [root, x, y, Value.WellFormed, Value.WellFormedMembers, Value.WellFormedItems]
  have hleaf : leaf.WellFormed := by simp [leaf, x, y, Value.WellFormed, Value.WellFormedMembers]
  have hp : p ≤ .high := Permission.le_high p
  have hput : root.write rows ⟨leaf, p⟩ = .done (.obj [("a", .arr [leaf, leaf, leaf])]) := by rfl
  have hkept : root.write rows ⟨leaf, .high⟩ =
      .done (.obj [("a", .arr [.obj [x, y], .obj [x, y], leaf])]) := by rfl
  have hf : (root.write rows ⟨leaf, p⟩).fault = none := by rw [hput]; rfl
  have hfresh : (root.write fresh ⟨leaf, Priority.low.permission⟩).fault = none := by rfl
  refine ⟨hp, hput, hkept, ?_, ?_⟩
  · exact ((write_mono hroot hleaf rows).1 p .high hp hf).2
  · exact (write_mono hroot hleaf fresh).2 .low .high (Permission.low_le .high) hfresh

end PathDoc
