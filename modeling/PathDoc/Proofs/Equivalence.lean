import Mathlib.Data.List.Perm.Subperm
import PathDoc.Proofs.Extension
import PathDoc.Proofs.WellFormedness

/-!
# PathDoc.Proofs.Equivalence — equality of documents is an equivalence

Equality looks up each member of the left document in the right one and compares the number of members.
Where no object has a key twice the right one then has no other keys (`exists_child?_of_beq_right`), so
equality is symmetric (`Value.beq_symm`); it is transitive as well (`Value.beq_trans`).
-/

namespace PathDoc.Json

/-! ### scalars -/

theorem Binary64.beq_trans {x y z : Binary64} (h : x.beq y = true) (h' : y.beq z = true) :
    x.beq z = true := by
  simp only [Binary64.beq, Bool.or_eq_true, beq_iff_eq, Bool.and_eq_true] at h h' ⊢
  rcases h with rfl | ⟨hx, hy⟩
  · exact h'
  · rcases h' with rfl | ⟨-, hz⟩
    · exact .inr ⟨hx, hy⟩
    · exact .inr ⟨hx, hz⟩

theorem Number.beq_symm {m n : Number} (h : m.beq n = true) : n.beq m = true := by
  cases m with
  | int i =>
    cases n with
    | int j => exact BEq.symm h
    | float y => cases h
  | float x =>
    cases n with
    | int j => cases h
    | float y => exact (y.beq_comm x).trans h

theorem Number.beq_trans {m n k : Number} (h : m.beq n = true) (h' : n.beq k = true) :
    m.beq k = true := by
  cases n with
  | int j =>
    cases m with
    | float x => cases h
    | int i =>
      cases k with
      | float z => cases h'
      | int k => exact BEq.trans h h'
  | float y =>
    cases m with
    | int i => cases h
    | float x =>
      cases k with
      | int k => cases h'
      | float z => exact Binary64.beq_trans h h'

namespace Value

variable {u v w c d : Value} {step : Step}

theorem beq_def (v w : Value) : (v == w) = Value.beq v w := rfl

theorem scalar_beq_symm (hv : v.isContainer = false) (h : (v == w) = true) : (w == v) = true := by
  rw [beq_def] at h ⊢
  cases v with
  | arr items => simp [isContainer] at hv
  | obj ms => simp [isContainer] at hv
  | num m => cases w <;> simp only [Value.beq, Bool.false_eq_true] at h ⊢; exact m.beq_symm h
  | _ => cases w <;> simp_all [Value.beq]

theorem scalar_beq_trans (hu : u.isContainer = false) (h : (u == v) = true)
    (h' : (v == w) = true) : (u == w) = true := by
  rw [beq_def] at h h' ⊢
  cases u with
  | arr items => simp [isContainer] at hu
  | obj ms => simp [isContainer] at hu
  | num m =>
    cases v <;> simp only [Value.beq, Bool.false_eq_true] at h
    cases w <;> simp only [Value.beq, Bool.false_eq_true] at h' ⊢
    exact Number.beq_trans h h'
  | _ => cases v <;> cases w <;> simp_all [Value.beq]

/-! ### one level at a time -/

theorem isContainer_of_beq (h : (v == w) = true) : v.isContainer = w.isContainer := by
  rw [beq_def] at h
  cases v <;> cases w <;> first | rfl | simp only [Value.beq, Bool.false_eq_true] at h

theorem Outline.Alike.symm {o p : Outline} (h : o.Alike p) : p.Alike o := by
  cases o <;> cases p <;> first | exact h.elim | exact Eq.symm h

theorem Outline.Alike.trans {o p q : Outline} (h : o.Alike p) (h' : p.Alike q) : o.Alike q := by
  cases o <;> cases p <;> first | exact h.elim | skip
  all_goals cases q <;> first | exact h'.elim | exact Eq.trans h h'

/-- Equal containers are of one kind and size. -/
theorem alike_of_beq (hv : v.isContainer = true) (h : (v == w) = true) :
    v.outline.Alike w.outline := by
  rw [beq_def] at h
  cases v with
  | arr xs =>
    cases w <;> simp only [Value.beq, Bool.false_eq_true] at h
    exact (beqItems_iff.mp h).length_eq
  | obj ms =>
    cases w <;> simp only [Value.beq, Bool.false_eq_true, Bool.and_eq_true, beq_iff_eq] at h
    show (ms.map Prod.fst).length = _
    rw [List.length_map, List.length_map, h.1]
  | _ => simp [isContainer] at hv

/-- What equals an empty container is one. -/
theorem isEmptyContainer_of_beq (h : (v == w) = true) (hw : w.isEmptyContainer = true) :
    v.isEmptyContainer = true := by
  have hk : v.isContainer = true := by
    rw [isContainer_of_beq h]
    rcases isEmptyContainer_iff.mp hw with rfl | rfl <;> rfl
  have halike := alike_of_beq hk h
  rw [isEmptyContainer_iff]
  rcases isEmptyContainer_iff.mp hw with rfl | rfl
  · cases v <;> first | exact halike.elim | skip
    case obj ms =>
      have hkeys : ms.map Prod.fst = [] := List.eq_nil_of_length_eq_zero halike
      exact .inl (congrArg obj (List.map_eq_nil_iff.mp hkeys))
  · cases v <;> first | exact halike.elim | skip
    case arr items => exact .inr (congrArg arr (List.eq_nil_of_length_eq_zero halike))

/-- A child of the left node has an equal one in its place. -/
theorem exists_child?_of_beq (h : (v == w) = true) (hc : v.child? step = some c) :
    ∃ d, w.child? step = some d ∧ (c == d) = true := by
  rw [beq_def] at h
  cases v <;> cases step <;> simp only [child?, reduceCtorEq] at hc
  case arr.pos xs i =>
    cases w <;> simp only [Value.beq, Bool.false_eq_true] at h
    case arr ys =>
      obtain ⟨hx, rfl⟩ := List.getElem?_eq_some_iff.mp hc
      obtain ⟨hlen, hget⟩ := List.forall₂_iff_get.mp (beqItems_iff.mp h)
      have hy : i < ys.length := hlen ▸ hx
      exact ⟨ys[i], List.getElem?_eq_getElem hy, hget i hx hy⟩
  case obj.key ms k =>
    cases w <;> simp only [Value.beq, Bool.false_eq_true, Bool.and_eq_true] at h
    case obj ns => exact beqMembers_iff.mp h.2 k c (Members.mem_of_get? hc)

/-- Equal objects have the same keys: as many on the right as on the left, all of which are there, leave
no others. -/
theorem keys_perm_of_beq {ms ns : Members} (hms : (ms.map Prod.fst).Nodup)
    (h : (obj ms == obj ns) = true) : (ms.map Prod.fst).Perm (ns.map Prod.fst) := by
  have hlen : (ms.map Prod.fst).length = (ns.map Prod.fst).length := alike_of_beq rfl h
  have hsub : ms.map Prod.fst ⊆ ns.map Prod.fst := by
    intro k hk
    obtain ⟨c, hc⟩ := Option.isSome_iff_exists.mp (Members.get?_isSome_iff.mpr hk)
    have hchild : child? (.obj ms) (.key k) = some c := hc
    obtain ⟨d, hd, -⟩ := exists_child?_of_beq h hchild
    exact Members.get?_isSome_iff.mp (Option.isSome_iff_exists.mpr ⟨d, hd⟩)
  exact (List.Nodup.subperm hms hsub).perm_of_length_le (Nat.le_of_eq hlen.symm)

/-- A child of the right node has an equal one in its place too. -/
theorem exists_child?_of_beq_right (hv : v.outline.Distinct) (hk : v.isContainer = true)
    (h : (v == w) = true) (hd : w.child? step = some d) :
    ∃ c, v.child? step = some c ∧ (c == d) = true := by
  have halike := alike_of_beq hk h
  have hsome : ∃ c, v.child? step = some c := by
    cases w <;> cases step <;> simp only [child?, reduceCtorEq] at hd
    case arr.pos ys i =>
      cases v <;> first | exact halike.elim | skip
      case arr xs =>
        have hlen : xs.length = ys.length := halike
        obtain ⟨hi, -⟩ := List.getElem?_eq_some_iff.mp hd
        exact ⟨_, List.getElem?_eq_getElem (hlen ▸ hi)⟩
    case obj.key ns k =>
      cases v <;> first | exact halike.elim | skip
      case obj ms =>
        have hkey : k ∈ ns.map Prod.fst :=
          Members.get?_isSome_iff.mp (Option.isSome_iff_exists.mpr ⟨d, hd⟩)
        rw [← (keys_perm_of_beq hv h).mem_iff] at hkey
        exact Option.isSome_iff_exists.mp (Members.get?_isSome_iff.mpr hkey)
  obtain ⟨c, hc⟩ := hsome
  obtain ⟨e, he, hce⟩ := exists_child?_of_beq h hc
  rw [hd, Option.some.injEq] at he
  exact ⟨c, hc, he ▸ hce⟩

/-! ### all the way down -/

/-- **Equality is symmetric** on documents without repeated keys. -/
theorem beq_symm {v w : Value} (hv : v.WellFormed) (hw : w.WellFormed) (h : (v == w) = true) :
    (w == v) = true := by
  cases hk : v.isContainer with
  | false => exact scalar_beq_symm hk h
  | true =>
    refine beq_of_alike (wellFormed_iff.mp hw).1 (alike_of_beq hk h).symm fun step d hd => ?_
    obtain ⟨c, hc, hcd⟩ := exists_child?_of_beq_right (wellFormed_iff.mp hv).1 hk h hd
    have hlt := sizeOf_lt_of_child? hc
    exact ⟨c, hc, beq_symm (hv.child hc) (hw.child hd) hcd⟩
termination_by sizeOf v

/-- **Equality is transitive** from a document without repeated keys. -/
theorem beq_trans {u v w : Value} (hu : u.WellFormed) (h : (u == v) = true)
    (h' : (v == w) = true) : (u == w) = true := by
  cases hk : u.isContainer with
  | false => exact scalar_beq_trans hk h h'
  | true =>
    have hv : v.isContainer = true := (isContainer_of_beq h).symm.trans hk
    refine beq_of_alike (wellFormed_iff.mp hu).1 ((alike_of_beq hk h).trans (alike_of_beq hv h'))
      fun step c hc => ?_
    have hlt := sizeOf_lt_of_child? hc
    obtain ⟨d, hd, hcd⟩ := exists_child?_of_beq h hc
    obtain ⟨e, he, hde⟩ := exists_child?_of_beq h' hd
    exact ⟨e, he, beq_trans (hu.child hc) hcd hde⟩
termination_by sizeOf u

end Value

end PathDoc.Json
