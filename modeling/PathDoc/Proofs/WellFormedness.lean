import PathDoc.Proofs.Equality
import PathDoc.Proofs.Induction

/-!
# PathDoc.Proofs.WellFormedness — no write repeats a key

A node is well-formed if its own keys are distinct and its children are well-formed
(`wellFormed_iff`).  Replacing children keeps the keys, and a write adds a key only where the object
lacks it; so every write leaves a well-formed document, even one that a fault has ended
(`wellFormed_write`).
-/

namespace PathDoc

namespace Json

namespace Members

variable {ms : Members} {k : String} {v : Value}

theorem mem_of_get? (h : ms.get? k = some v) : (k, v) ∈ ms := by
  induction ms with
  | nil => simp at h
  | cons m rest ih =>
    obtain ⟨k', u⟩ := m
    rw [get?_cons] at h
    by_cases hk : k' = k
    · rw [if_pos hk] at h
      rw [hk, Option.some.inj h]
      exact List.mem_cons_self
    · rw [if_neg hk] at h
      exact List.mem_cons_of_mem _ (ih h)

end Members

namespace Value

variable {v c : Value} {step : Step} {steps : List Step} {g : Value → Value}

theorem wellFormedItems_iff {items : List Value} :
    WellFormedItems items ↔ ∀ v ∈ items, v.WellFormed := by
  induction items with
  | nil => simp [WellFormedItems]
  | cons v items ih => rw [WellFormedItems, ih, List.forall_mem_cons]

theorem wellFormedMembers_iff {ms : Members} :
    WellFormedMembers ms ↔ ∀ m ∈ ms, m.2.WellFormed := by
  induction ms with
  | nil => simp [WellFormedMembers]
  | cons m ms ih =>
    obtain ⟨k, v⟩ := m
    rw [WellFormedMembers, ih, List.forall_mem_cons]

/-- **Well-formedness one level at a time**: the node's own keys are distinct, and its children are
well-formed. -/
theorem wellFormed_iff : v.WellFormed ↔
    v.outline.Distinct ∧ ∀ step c, v.child? step = some c → c.WellFormed := by
  cases v with
  | obj ms =>
    rw [WellFormed, wellFormedMembers_iff]
    refine and_congr_right fun hn => ⟨fun h step c hc => ?_, fun h m hm => ?_⟩
    · cases step with
      | pos i => simp [child?] at hc
      | key k => exact h (k, c) (Members.mem_of_get? hc)
    · exact h (.key m.1) m.2 (Members.get?_of_mem hn hm)
  | arr items =>
    rw [WellFormed, wellFormedItems_iff]
    constructor
    · intro h
      refine ⟨trivial, fun step c hc => ?_⟩
      cases step with
      | key k => simp [child?] at hc
      | pos i => exact h c (List.mem_of_getElem? hc)
    · rintro ⟨-, h⟩ c hm
      obtain ⟨i, hi⟩ := List.getElem?_of_mem hm
      exact h (.pos i) c hi
  | _ =>
    refine iff_of_true trivial ⟨trivial, fun step c hc => ?_⟩
    simp [child?] at hc

theorem WellFormed.child (h : v.WellFormed) (hc : v.child? step = some c) : c.WellFormed :=
  (wellFormed_iff.mp h).2 step c hc

/-- To replace children by well-formed ones keeps a node well-formed. -/
theorem WellFormed.updateChildren (h : v.WellFormed) (hn : steps.Nodup)
    (hg : ∀ step ∈ steps, ∀ c, v.child? step = some c → (g c).WellFormed) :
    (v.updateChildren g steps).WellFormed := by
  obtain ⟨hd, hchild⟩ := wellFormed_iff.mp h
  rw [wellFormed_iff, outline_updateChildren]
  refine ⟨hd, fun step c hc => ?_⟩
  by_cases hm : step ∈ steps
  · rw [child?_updateChildren_of_mem hn hm] at hc
    obtain ⟨d, hd, rfl⟩ := Option.map_eq_some_iff.mp hc
    exact hg step hm d hd
  · rw [child?_updateChildren_of_not_mem hm] at hc
    exact hchild step c hc

end Value

end Json

open Json

namespace Write

variable {job : Job} {s : Segment} {path rest : Path} {node v : Value} {steps : List Step}

/-- A well-formed node is well-formed when it has been opened: what is new in it are empty objects, or a
member that it lacked. -/
theorem wellFormed_of_opened? (hv : node.WellFormed)
    (hfresh : (Path.scaffold rest job.leaf).WellFormed)
    (ho : opened? job s rest node = some (v, steps)) : v.WellFormed := by
  have hobj : ∀ ms, membersOf? job.permission.coerce node = some ms → (Value.obj ms).WellFormed := by
    intro ms hm
    rcases membersOf?_cases hm with rfl | rfl
    · exact hv
    · exact ⟨List.nodup_nil, trivial⟩
  rcases opened?_cases ho with ⟨items, -, hi, rfl, -⟩ | ⟨name, ms, c, rfl, hm, -, rfl, -⟩ |
    ⟨name, ms, rfl, hm, hg, rfl, -⟩
  · rw [Value.wellFormed_iff]
    refine ⟨trivial, fun step c hc => ?_⟩
    cases step with
    | key k => simp [Value.child?] at hc
    | pos p =>
      rcases getElem?_makeRoom_cases (show (s.makeRoom items)[p]? = some c from hc) with hold | rfl
      · rcases itemsOf?_cases hi with rfl | rfl
        · have hchild : Value.child? (.arr items) (.pos p) = some c := hold
          exact hv.child hchild
        · simp at hold
      · exact ⟨List.nodup_nil, trivial⟩
  · exact hobj ms hm
  · have hms := hobj ms hm
    rw [Value.WellFormed, Value.wellFormedMembers_iff] at hms ⊢
    have hnew : name ∉ ms.map Prod.fst := by
      rw [← Members.get?_isSome_iff, hg]
      exact Bool.false_ne_true
    rw [List.map_append, List.forall_mem_append]
    refine ⟨hms.1.append (List.nodup_singleton name) ?_, hms.2, ?_⟩
    · exact List.disjoint_singleton.mpr hnew
    · rintro m hm
      rw [List.mem_singleton.mp hm]
      exact hfresh

/-- Fresh containers around a well-formed leaf are well-formed. -/
theorem wellFormed_scaffold {leaf : Value} (hleaf : leaf.WellFormed) (path : Path) :
    (Path.scaffold path leaf).WellFormed := by
  induction path with
  | nil => exact hleaf
  | cons s rest ih =>
    obtain ⟨v, steps, ho, he⟩ := enclose_eq ⟨leaf, .high⟩ s rest
    have hempty : (Value.obj []).WellFormed := ⟨List.nodup_nil, trivial⟩
    rw [Path.scaffold_cons, he]
    exact (wellFormed_of_opened? hempty ih ho).updateChildren (nodup_steps_of_opened? ho)
      fun step _ c _ => ih

theorem wellFormed_settle (hleaf : job.leaf.WellFormed) (hv : v.WellFormed) :
    (settle job v).result.WellFormed := by
  unfold settle
  split_ifs
  all_goals first | exact hleaf | exact hv

/-- A loop leaves a well-formed node if the writers below the children do. -/
theorem wellFormed_alongSteps {below : Value → Outcome Value} (hv : v.WellFormed)
    (hn : steps.Nodup) (hb : ∀ c, c.WellFormed → (below c).result.WellFormed) :
    (alongSteps below steps v).result.WellFormed := by
  obtain ⟨visited, others, rfl, hr, -⟩ := exists_result_alongSteps below steps v
  rw [hr]
  exact hv.updateChildren (List.nodup_append.mp hn).1 fun step _ c hc => hb c (hv.child hc)

end Write

/-- **No write repeats a key**: it leaves a well-formed document, also where a fault has ended it. -/
theorem wellFormed_write {root : Value} {job : Job} (hroot : root.WellFormed)
    (hleaf : job.leaf.WellFormed) (path : Path) : (root.write path job).result.WellFormed := by
  cases hx : Write.firstExcess? path with
  | some e =>
    rw [Value.write, hx]
    exact hroot
  | none =>
    rw [write_eq_descend hx]
    cases path with
    | nil => exact hroot
    | cons s rest =>
      refine Write.descend_induction (P := fun _ node r => node.WellFormed → r.result.WellFormed)
        ?settled ?stopped ?opened ?walked (List.cons_ne_nil s rest)
        (Write.firstExcess?_eq_none_iff.mp hx) root hroot
      case settled => exact fun node hv => Write.wellFormed_settle hleaf hv
      case stopped => exact fun s rest node _ hv => hv
      case opened =>
        intro s rest node v steps below _ ho hb hv
        have hopen := Write.wellFormed_of_opened? hv (Write.wellFormed_scaffold hleaf rest) ho
        exact Write.wellFormed_alongSteps hopen (Write.nodup_steps_of_opened? ho) hb
      case walked =>
        intro s rest node below _ _ hb hv
        exact Write.wellFormed_alongSteps hv (s.nodup_steps node) hb

end PathDoc
