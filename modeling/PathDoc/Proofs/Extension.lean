import PathDoc.Proofs.Steps

/-!
# PathDoc.Proofs.Extension — documents that only grow

A document extends another one if nothing of the old one is lost: an empty container may become
anything, a scalar stays, an object keeps its keys in front and in order, an array becomes no
shorter, and the old children are extended in turn.  The relation is taken up to a set of locations
at which an old scalar is given up.  It is reflexive and transitive, and the sets add up
(`Extends.trans`).
-/

namespace PathDoc.Json.Value

/-- The new outline has all of the old one: the same scalar, the old keys first and in order, or at
least the old length. -/
def Outline.Grows : Outline → Outline → Prop
  | .scalar v, .scalar w => v = w
  | .keys ks, .keys ls => ks <+: ls
  | .length m, .length n => m ≤ n
  | _, _ => False

/-- **Nothing is lost** from the old node to the new one, except scalars at the given locations. -/
inductive Extends : (Location → Prop) → Value → Value → Prop where
  /-- An empty container may become anything. -/
  | vacant {free : Location → Prop} {old new : Value} (h : old.isEmptyContainer = true) :
    Extends free old new
  /-- A scalar may become anything where it is given up. -/
  | freed {free : Location → Prop} {old new : Value} (h : old.isContainer = false) (hf : free []) :
    Extends free old new
  /-- Any other node keeps what it has, and its children are extended. -/
  | node {free : Location → Prop} {old new : Value} (h : old.outline.Grows new.outline)
    (children : ∀ step v w, old.child? step = some v → new.child? step = some w →
      Extends (fun l => free (step :: l)) v w) :
    Extends free old new

/-! ### outlines -/

variable {u v w c : Value} {step : Step} {free other : Location → Prop}

theorem Outline.Grows.refl (o : Outline) : o.Grows o := by
  cases o with
  | scalar v => exact rfl
  | keys ks => exact List.prefix_refl ks
  | length n => exact le_refl n

theorem Outline.Grows.trans {a b c : Outline} (h1 : a.Grows b) (h2 : b.Grows c) : a.Grows c := by
  cases a <;> cases b <;> first | exact h1.elim | skip
  all_goals cases c <;> first | exact h2.elim | skip
  · exact Eq.trans h1 h2
  · exact List.IsPrefix.trans h1 h2
  · exact le_trans h1 h2

/-- A node that grows into an empty container was one. -/
theorem isEmptyContainer_of_grows (h : v.outline.Grows w.outline)
    (hw : w.isEmptyContainer = true) : v.isEmptyContainer = true := by
  rcases isEmptyContainer_iff.mp hw with rfl | rfl
  · cases v <;> first | exact h.elim | skip
    case obj ms =>
      have hk : ms.map Prod.fst = [] := List.prefix_nil.mp h
      exact isEmptyContainer_iff.mpr (.inl (by rw [List.map_eq_nil_iff.mp hk]))
  · cases v <;> first | exact h.elim | skip
    case arr items =>
      have hl : items.length ≤ 0 := h
      exact isEmptyContainer_iff.mpr
        (.inr (by rw [List.length_eq_zero_iff.mp (Nat.le_zero.mp hl)]))

/-- A node that grows into a scalar is that scalar. -/
theorem eq_of_grows_of_not_isContainer (h : v.outline.Grows w.outline)
    (hw : w.isContainer = false) : v = w := by
  have hs : w.outline = .scalar w := by
    cases w <;> first | rfl | simp [isContainer] at hw
  rw [hs] at h
  cases v <;> first | exact h | exact h.elim

/-- A child of the old node has one of the new node in its place. -/
theorem exists_child?_of_grows (h : v.outline.Grows w.outline) (hc : v.child? step = some c) :
    ∃ d, w.child? step = some d := by
  cases v <;> cases step <;> simp only [child?, reduceCtorEq] at hc
  case obj.key ms name =>
    cases w <;> first | exact h.elim | skip
    case obj ns =>
      have hk : name ∈ ms.map Prod.fst :=
        Members.get?_isSome_iff.mp (Option.isSome_iff_exists.mpr ⟨c, hc⟩)
      exact Option.isSome_iff_exists.mp (Members.get?_isSome_iff.mpr (List.IsPrefix.subset h hk))
  case arr.pos items i =>
    cases w <;> first | exact h.elim | skip
    case arr others =>
      obtain ⟨hi, -⟩ := List.getElem?_eq_some_iff.mp hc
      exact ⟨_, List.getElem?_eq_getElem (lt_of_lt_of_le hi h)⟩

theorem sizeOf_lt_of_child? (h : v.child? step = some c) : sizeOf c < sizeOf v := by
  cases v <;> cases step <;> simp only [child?, reduceCtorEq] at h
  case obj.key ms name =>
    have hm : sizeOf c < sizeOf ms := by
      induction ms with
      | nil => simp at h
      | cons m rest ih =>
        obtain ⟨k, u⟩ := m
        rw [Members.get?_cons] at h
        split at h
        · rw [← Option.some.inj h]
          simp only [List.cons.sizeOf_spec, Prod.mk.sizeOf_spec]
          omega
        · have := ih h
          simp only [List.cons.sizeOf_spec]
          omega
    simp only [obj.sizeOf_spec]
    omega
  case arr.pos items i =>
    have hm := List.sizeOf_lt_of_mem (List.mem_of_getElem? h)
    simp only [arr.sizeOf_spec]
    omega

/-! ### the order -/

theorem Extends.refl (free : Location → Prop) (v : Value) : Extends free v v := by
  refine .node (Outline.Grows.refl _) fun step c d hc hd => ?_
  have hlt := sizeOf_lt_of_child? hc
  rw [hc] at hd
  rw [← Option.some.inj hd]
  exact Extends.refl _ c
termination_by sizeOf v

theorem Extends.mono (h : Extends free v w) (hf : ∀ l, free l → other l) : Extends other v w := by
  induction h generalizing other with
  | vacant h => exact .vacant h
  | freed h hl => exact .freed h (hf _ hl)
  | node h _ ih => exact .node h fun step c d hc hd => ih step c d hc hd fun l => hf (step :: l)

/-- **One growth after another** gives up what either of them gives up. -/
theorem Extends.trans (h1 : Extends free u v) (h2 : Extends other v w) :
    Extends (fun l => free l ∨ other l) u w := by
  induction h1 generalizing other w with
  | vacant h => exact .vacant h
  | freed h hl => exact .freed h (.inl hl)
  | node hg hc ih =>
    cases h2 with
    | vacant h => exact .vacant (isEmptyContainer_of_grows hg h)
    | freed h hl => exact .freed (eq_of_grows_of_not_isContainer hg h ▸ h) (.inr hl)
    | node hg' hc' =>
      refine .node (hg.trans hg') fun step a b ha hb => ?_
      obtain ⟨d, hd⟩ := exists_child?_of_grows hg ha
      exact ih step a d ha hd (hc' step d b hd hb)

end PathDoc.Json.Value
