import PathDoc.Proofs.Steps

/-!
# PathDoc.Proofs.Equality — equality of documents

Equality looks each member of the left document up in the right one, so it is reflexive only where
no object has a key twice (`beq_self`).  There it comes up from the children of a node
(`beq_of_children`).
-/

namespace PathDoc.Json

theorem Number.beq_self (n : Number) : n.beq n = true := by
  cases n with
  | int i => exact beq_self_eq_true i
  | float x => exact x.beq_refl

namespace Members

variable {ms : Members} {k : String} {v : Value}

/-- A key that occurs once is found with what it holds. -/
theorem get?_of_mem (hn : (ms.map Prod.fst).Nodup) (h : (k, v) ∈ ms) : ms.get? k = some v := by
  induction ms with
  | nil => simp at h
  | cons m rest ih =>
    obtain ⟨k', u⟩ := m
    rw [List.map_cons, List.nodup_cons] at hn
    rw [get?_cons]
    rcases List.mem_cons.mp h with h | h
    · obtain ⟨rfl, rfl⟩ := Prod.mk.inj h
      rw [if_pos rfl]
    · rw [if_neg, ih hn.2 h]
      rintro rfl
      exact hn.1 (List.mem_map.mpr ⟨_, h, rfl⟩)

end Members

namespace Value

mutual

theorem beq_refl_of_wellFormed : ∀ {v : Value}, v.WellFormed → Value.beq v v = true
  | .null, _ => by rw [Value.beq]
  | .bool b, _ => by rw [Value.beq]; exact beq_self_eq_true b
  | .num n, _ => by rw [Value.beq]; exact n.beq_self
  | .str s, _ => by rw [Value.beq]; exact beq_self_eq_true s
  | .arr items, h => by
    rw [Value.beq]
    rw [WellFormed] at h
    exact beqItems_refl h
  | .obj ms, h => by
    rw [WellFormed] at h
    rw [Value.beq, beq_self_eq_true, Bool.true_and]
    exact beqMembers_refl h.2 fun k v hm => Members.get?_of_mem h.1 hm

theorem beqItems_refl : ∀ {items : List Value}, WellFormedItems items → beqItems items items = true
  | [], _ => by rw [beqItems]
  | v :: items, h => by
    rw [WellFormedItems] at h
    rw [beqItems, beq_refl_of_wellFormed h.1, beqItems_refl h.2]
    rfl

/-- Members equal those of an object that holds all of them. -/
theorem beqMembers_refl : ∀ {ms ns : Members}, WellFormedMembers ms →
    (∀ k v, (k, v) ∈ ms → ns.get? k = some v) → beqMembers ms ns = true
  | [], _, _, _ => by rw [beqMembers]
  | (k, v) :: ms, ns, h, hget => by
    rw [WellFormedMembers] at h
    rw [beqMembers, hget k v List.mem_cons_self,
      beqMembers_refl h.2 fun k' v' hm => hget k' v' (List.mem_cons_of_mem _ hm)]
    simp only [beq_refl_of_wellFormed h.1, Bool.and_self]

end

/-- **Equality is reflexive** on documents without repeated keys. -/
theorem beq_self {v : Value} (h : v.WellFormed) : (v == v) = true := beq_refl_of_wellFormed h

/-! ### one level at a time -/

variable {v w : Value}

theorem beqItems_iff {xs ys : List Value} :
    beqItems xs ys = true ↔ List.Forall₂ (fun x y => (x == y) = true) xs ys := by
  induction xs generalizing ys with
  | nil => cases ys <;> simp [beqItems]
  | cons x xs ih =>
    cases ys with
    | nil => simp [beqItems]
    | cons y ys =>
      rw [beqItems, Bool.and_eq_true, ih, List.forall₂_cons]
      exact Iff.rfl

theorem beqMembers_iff {ms ns : Members} : beqMembers ms ns = true ↔
    ∀ k v, (k, v) ∈ ms → ∃ w, ns.get? k = some w ∧ (v == w) = true := by
  induction ms with
  | nil => simp [beqMembers]
  | cons m ms ih =>
    obtain ⟨k, v⟩ := m
    rw [beqMembers, Bool.and_eq_true, ih]
    constructor
    · rintro ⟨hfirst, hrest⟩ k' v' hm
      rcases List.mem_cons.mp hm with he | hm
      · obtain ⟨rfl, rfl⟩ := Prod.mk.inj he
        cases hget : ns.get? k' with
        | none => simp [hget] at hfirst
        | some w =>
          rw [hget] at hfirst
          exact ⟨w, rfl, hfirst⟩
      · exact hrest k' v' hm
    · intro h
      obtain ⟨w, hget, heq⟩ := h k v List.mem_cons_self
      refine ⟨?_, fun k' v' hm => h k' v' (List.mem_cons_of_mem _ hm)⟩
      rw [hget]
      exact heq

/-- No key occurs twice. -/
def Outline.Distinct : Outline → Prop
  | .keys names => names.Nodup
  | _ => True

/-- Of one kind and size: the same scalar, or as many keys or elements. -/
def Outline.Alike : Outline → Outline → Prop
  | .scalar v, .scalar w => v = w
  | .keys ks, .keys ls => ks.length = ls.length
  | .length m, .length n => m = n
  | _, _ => False

theorem Outline.Alike.refl (o : Outline) : o.Alike o := by
  cases o <;> exact rfl

/-- **Equality comes up from the children**, in whatever order they are: nodes of one kind and size are
equal if each child of the one has an equal child of the other in its place. -/
theorem beq_of_alike (hd : v.outline.Distinct) (ho : v.outline.Alike w.outline)
    (h : ∀ step c, v.child? step = some c → ∃ d, w.child? step = some d ∧ (c == d) = true) :
    (v == w) = true := by
  cases v <;> cases w <;> first | exact ho.elim | skip
  case arr.arr xs ys =>
    have hlen : xs.length = ys.length := ho
    show Value.beq (.arr xs) (.arr ys) = true
    rw [Value.beq, beqItems_iff, List.forall₂_iff_get]
    refine ⟨hlen, fun i hx hy => ?_⟩
    obtain ⟨d, hget, heq⟩ := h (.pos i) _ (List.getElem?_eq_getElem hx)
    have hd : ys[i] = d := Option.some.inj ((List.getElem?_eq_getElem hy).symm.trans hget)
    rw [← hd] at heq
    exact heq
  case obj.obj ms ns =>
    have hlen : ms.length = ns.length := by
      have hkeys : (ms.map Prod.fst).length = (ns.map Prod.fst).length := ho
      rwa [List.length_map, List.length_map] at hkeys
    show Value.beq (.obj ms) (.obj ns) = true
    rw [Value.beq, hlen, beq_self_eq_true, Bool.true_and, beqMembers_iff]
    exact fun k c hm => h (.key k) c (Members.get?_of_mem hd hm)
  case null.null => exact beq_self trivial
  all_goals
    have hsame := Outline.scalar.inj (congrArg Outline.scalar ho)
    rw [hsame]
    exact beq_self trivial

/-- Nodes of one outline are equal if their children are. -/
theorem beq_of_children (hd : v.outline.Distinct) (ho : v.outline = w.outline)
    (h : ∀ step c d, v.child? step = some c → w.child? step = some d → (c == d) = true) :
    (v == w) = true := by
  refine beq_of_alike hd (ho ▸ Outline.Alike.refl _) fun step c hc => ?_
  have hsome : (w.child? step).isSome := by
    rw [← isSome_child?_congr ho, hc]
    rfl
  obtain ⟨d, hd⟩ := Option.isSome_iff_exists.mp hsome
  exact ⟨d, hd, h step c d hc hd⟩

end Value

end PathDoc.Json
