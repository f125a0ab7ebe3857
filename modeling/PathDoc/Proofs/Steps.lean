import Mathlib.Data.List.Perm.Basic
import PathDoc.Proofs.Positions
import PathDoc.Tree.Children

/-!
# PathDoc.Proofs.Steps — a node, its outline, and its children one step away

`Value.outline` is what is left of a node when the contents of its children are forgotten: what a
segment selects there depends on nothing else (`steps_congr`).  `setChild` changes one child and
keeps the outline; `updateChildren` does so at several steps in turn, which is what the loops of
writing and of removal come to.
-/

namespace PathDoc.Json

namespace Members

variable {ms : Members} {key k : String} {v w : Value}

theorem get?_set_self (h : ms.get? key = some v) : (ms.set key w).get? key = some w := by
  induction ms with
  | nil => simp at h
  | cons m rest ih =>
    obtain ⟨k, u⟩ := m
    rw [get?_cons] at h
    rw [set_cons]
    by_cases hk : k = key
    · rw [if_pos hk, get?_cons, if_pos hk]
    · rw [if_neg hk] at h
      rw [if_neg hk, get?_cons, if_neg hk]
      exact ih h

theorem get?_set_ne (h : key ≠ k) : (ms.set key w).get? k = ms.get? k := by
  induction ms with
  | nil => rfl
  | cons m rest ih =>
    obtain ⟨k', u⟩ := m
    rw [set_cons]
    by_cases hk : k' = key
    · subst hk
      rw [if_pos rfl, get?_cons, get?_cons, if_neg h, if_neg h]
    · rw [if_neg hk, get?_cons, get?_cons, ih]

theorem set_self (h : ms.get? key = some v) : ms.set key v = ms := by
  induction ms with
  | nil => rfl
  | cons m rest ih =>
    obtain ⟨k, u⟩ := m
    rw [get?_cons] at h
    rw [set_cons]
    by_cases hk : k = key
    · rw [if_pos hk] at h ⊢
      rw [Option.some.inj h]
    · rw [if_neg hk] at h ⊢
      rw [ih h]

theorem set_set (ms : Members) (key : String) (v w : Value) :
    (ms.set key v).set key w = ms.set key w := by
  induction ms with
  | nil => rfl
  | cons m rest ih =>
    obtain ⟨k, u⟩ := m
    rw [set_cons, set_cons]
    by_cases hk : k = key
    · rw [if_pos hk, if_pos hk, set_cons, if_pos hk]
    · rw [if_neg hk, if_neg hk, set_cons, if_neg hk, ih]

theorem set_comm {k k' : String} (h : k ≠ k') (ms : Members) (v w : Value) :
    (ms.set k v).set k' w = (ms.set k' w).set k v := by
  induction ms with
  | nil => rfl
  | cons m rest ih =>
    obtain ⟨l, u⟩ := m
    by_cases hk : l = k
    · subst hk
      rw [set_cons, if_pos rfl, set_cons, if_neg h, set_cons, if_neg h, set_cons, if_pos rfl]
    · by_cases hk' : l = k'
      · subst hk'
        rw [set_cons, if_neg hk, set_cons, if_pos rfl, set_cons, if_pos rfl, set_cons, if_neg hk]
      · rw [set_cons, if_neg hk, set_cons, if_neg hk', set_cons, if_neg hk', set_cons, if_neg hk, ih]

theorem get?_append (ms ns : Members) (key : String) :
    Members.get? (ms ++ ns) key = (ms.get? key).or (Members.get? ns key) := by
  induction ms with
  | nil => rfl
  | cons m rest ih =>
    obtain ⟨k, u⟩ := m
    rw [List.cons_append, get?_cons, get?_cons, ih]
    split <;> rfl

theorem get?_isSome_iff : (ms.get? key).isSome ↔ key ∈ ms.map Prod.fst := by
  induction ms with
  | nil => simp
  | cons m rest ih =>
    obtain ⟨k, u⟩ := m
    rw [get?_cons, List.map_cons, List.mem_cons, ← ih]
    by_cases hk : k = key
    · simp [hk]
    · simp [hk, Ne.symm hk]

end Members

namespace Value

/-! ### outlines -/

/-- A node without what its children hold. -/
inductive Outline where
  | scalar (v : Value)
  | keys (names : List String)
  | length (n : ℕ)

/-- The keys of an object in order, the length of an array, a scalar as it is. -/
def outline : Value → Outline
  | .obj ms => .keys (ms.map Prod.fst)
  | .arr items => .length items.length
  | v => .scalar v

/-! ### one child -/

variable {v w c : Value} {step step' : Step}

theorem outline_eq_length_iff {n : ℕ} :
    v.outline = .length n ↔ ∃ items, v = .arr items ∧ items.length = n := by
  cases v <;> simp [outline]

theorem outline_setChild (v : Value) (step : Step) (w : Value) :
    (v.setChild step w).outline = v.outline := by
  cases v <;> cases step <;> simp [setChild, outline]

/-- Where there are children depends on the outline of the node alone. -/
theorem isSome_child?_congr (h : v.outline = w.outline) :
    (v.child? step).isSome = (w.child? step).isSome := by
  cases v <;> cases w <;> simp only [outline, Outline.scalar.injEq, reduceCtorEq,
    Outline.keys.injEq, Outline.length.injEq] at h
  case arr.arr xs ys =>
    cases step with
    | key k => rfl
    | pos i =>
      show (xs[i]?).isSome = (ys[i]?).isSome
      rw [Bool.eq_iff_iff, isSome_getElem?, isSome_getElem?, h]
  case obj.obj ms ns =>
    cases step with
    | pos i => rfl
    | key k =>
      rw [Bool.eq_iff_iff]
      exact Members.get?_isSome_iff.trans (h ▸ Members.get?_isSome_iff.symm)
  all_goals rfl

theorem child?_setChild_self (h : v.child? step = some c) :
    (v.setChild step w).child? step = some w := by
  cases v <;> cases step <;> simp only [child?, reduceCtorEq] at h
  case obj.key ms name => exact Members.get?_set_self h
  case arr.pos items i =>
    obtain ⟨hi, -⟩ := List.getElem?_eq_some_iff.mp h
    exact List.getElem?_set_self hi

theorem child?_setChild_ne (h : step ≠ step') : (v.setChild step w).child? step' = v.child? step' := by
  cases v <;> cases step <;> try rfl
  case obj.key ms name =>
    cases step' with
    | pos i => rfl
    | key k => exact Members.get?_set_ne fun hk => h (by rw [hk])
  case arr.pos items i =>
    cases step' with
    | key k => rfl
    | pos j => exact List.getElem?_set_ne fun hij => h (by rw [hij])

/-- What a write finds one step away: the child, or an empty object where there is none. -/
def slot (v : Value) (step : Step) : Value := (v.child? step).getD (.obj [])

theorem slot_of_child? (h : v.child? step = some c) : v.slot step = c := by
  rw [slot, h, Option.getD_some]

theorem slot_of_child?_eq_none (h : v.child? step = none) : v.slot step = .obj [] := by
  rw [slot, h, Option.getD_none]

/-- The steps that are still to come lead to what was there before. -/
theorem child?_setChild_of_not_mem {steps : List Step} (h : step ∉ steps) (hm : step' ∈ steps) :
    (v.setChild step w).child? step' = v.child? step' := by
  refine child?_setChild_ne ?_
  rintro rfl
  exact h hm

theorem setChild_self (h : v.child? step = some c) : v.setChild step c = v := by
  cases v <;> cases step <;> simp only [child?, reduceCtorEq] at h
  case obj.key ms name => exact congrArg Value.obj (Members.set_self h)
  case arr.pos items i =>
    obtain ⟨hi, rfl⟩ := List.getElem?_eq_some_iff.mp h
    exact congrArg Value.arr (List.set_getElem_self hi)

theorem setChild_setChild (v : Value) (step : Step) (w c : Value) :
    (v.setChild step w).setChild step c = v.setChild step c := by
  cases v <;> cases step <;> try rfl
  case obj.key ms name => exact congrArg Value.obj (Members.set_set ms name w c)
  case arr.pos items i => exact congrArg Value.arr (List.set_set w)

/-- Changes of two different children commute. -/
theorem setChild_comm (h : step ≠ step') (v c d : Value) :
    (v.setChild step c).setChild step' d = (v.setChild step' d).setChild step c := by
  cases v <;> cases step <;> cases step' <;> try rfl
  case obj.key.key ms k k' =>
    have hk : k ≠ k' := fun he => h (by rw [he])
    exact congrArg Value.obj (Members.set_comm hk ms c d)
  case arr.pos.pos items i j =>
    have hij : i ≠ j := fun he => h (by rw [he])
    exact congrArg Value.arr (List.set_comm c d hij)

/-! ### several children -/

/-- The node with another child one step away, where there is one. -/
def updateChild (g : Value → Value) (v : Value) (step : Step) : Value :=
  match v.child? step with
  | none => v
  | some c => v.setChild step (g c)

/-- The node with other children at some steps, one after another. -/
def updateChildren (g : Value → Value) (steps : List Step) (v : Value) : Value :=
  steps.foldl (updateChild g) v

variable {g : Value → Value} {steps : List Step}

theorem outline_updateChild (g : Value → Value) (v : Value) (step : Step) :
    (v.updateChild g step).outline = v.outline := by
  unfold updateChild
  split
  · rfl
  · exact outline_setChild _ _ _

theorem child?_updateChild_self : (v.updateChild g step).child? step = (v.child? step).map g := by
  unfold updateChild
  split
  · next h => rw [h]; rfl
  · next c h => rw [child?_setChild_self h, h]; rfl

theorem child?_updateChild_ne (h : step ≠ step') :
    (v.updateChild g step).child? step' = v.child? step' := by
  unfold updateChild
  split
  · rfl
  · exact child?_setChild_ne h

@[simp] theorem updateChildren_nil : updateChildren g [] v = v := rfl

theorem updateChildren_cons :
    updateChildren g (step :: steps) v = updateChildren g steps (v.updateChild g step) := rfl

theorem updateChildren_cons_of_some (h : v.child? step = some c) :
    updateChildren g (step :: steps) v = updateChildren g steps (v.setChild step (g c)) := by
  rw [updateChildren_cons, updateChild, h]

theorem updateChildren_cons_of_none (h : v.child? step = none) :
    updateChildren g (step :: steps) v = updateChildren g steps v := by
  rw [updateChildren_cons, updateChild, h]

/-- What the replacement does to other values than the children does not count. -/
theorem updateChildren_congr {h : Value → Value} (hn : steps.Nodup)
    (hgh : ∀ step ∈ steps, ∀ c, v.child? step = some c → g c = h c) :
    updateChildren g steps v = updateChildren h steps v := by
  induction steps generalizing v with
  | nil => rfl
  | cons step steps ih =>
    obtain ⟨hstep, hn⟩ := List.nodup_cons.mp hn
    rw [List.forall_mem_cons] at hgh
    cases hc : v.child? step with
    | none =>
      rw [updateChildren_cons_of_none hc, updateChildren_cons_of_none hc]
      exact ih hn hgh.2
    | some c =>
      rw [updateChildren_cons_of_some hc, updateChildren_cons_of_some hc, hgh.1 c hc]
      refine ih hn fun other hm d hd => hgh.2 other hm d ?_
      rwa [child?_setChild_of_not_mem hstep hm] at hd

theorem outline_updateChildren (g : Value → Value) (steps : List Step) (v : Value) :
    (updateChildren g steps v).outline = v.outline := by
  induction steps generalizing v with
  | nil => rfl
  | cons step steps ih => rw [updateChildren_cons, ih, outline_updateChild]

theorem child?_updateChildren_of_not_mem (h : step ∉ steps) :
    (updateChildren g steps v).child? step = v.child? step := by
  induction steps generalizing v with
  | nil => rfl
  | cons step' steps ih =>
    rw [List.mem_cons, not_or] at h
    rw [updateChildren_cons, ih h.2, child?_updateChild_ne (Ne.symm h.1)]

theorem updateChild_comm (h : step ≠ step') (f g : Value → Value) (v : Value) :
    (v.updateChild f step).updateChild g step' = (v.updateChild g step').updateChild f step := by
  have hstep := child?_updateChild_ne (g := f) (v := v) h
  have hstep' := child?_updateChild_ne (g := g) (v := v) (Ne.symm h)
  rw [updateChild, hstep, updateChild, updateChild, hstep', updateChild]
  cases v.child? step <;> cases v.child? step' <;> simp only
  exact setChild_comm h v _ _

/-- Other children at some steps, in any order of the steps. -/
theorem updateChildren_perm (hp : steps.Perm steps') (v : Value) :
    v.updateChildren g steps = v.updateChildren g steps' := by
  have : RightCommutative (updateChild g) := by
    refine ⟨fun v step step' => ?_⟩
    by_cases h : step = step'
    · rw [h]
    · exact updateChild_comm h g g v
  exact hp.foldl_eq v

theorem updateChildren_id (steps : List Step) (v : Value) : v.updateChildren id steps = v := by
  induction steps with
  | nil => rfl
  | cons step steps ih =>
    rw [updateChildren_cons, updateChild]
    cases hc : v.child? step with
    | none => exact ih
    | some c =>
      show (v.setChild step c).updateChildren id steps = v
      rw [setChild_self hc, ih]

theorem updateChild_updateChild (f g : Value → Value) (v : Value) (step : Step) :
    (v.updateChild f step).updateChild g step = v.updateChild (fun c => g (f c)) step := by
  rw [updateChild, child?_updateChild_self, updateChild, updateChild]
  cases v.child? step with
  | none => rfl
  | some c => exact setChild_setChild v step _ _

theorem updateChild_updateChildren (h : step ∉ steps) (f g : Value → Value) (v : Value) :
    (v.updateChildren f steps).updateChild g step = (v.updateChild g step).updateChildren f steps := by
  induction steps generalizing v with
  | nil => rfl
  | cons first more ih =>
    rw [List.mem_cons, not_or] at h
    rw [updateChildren_cons, updateChildren_cons, ih h.2, updateChild_comm (Ne.symm h.1)]

/-- To replace the same children twice is to replace them once by what the second time makes of the
first. -/
theorem updateChildren_updateChildren (hn : steps.Nodup) (f g : Value → Value) (v : Value) :
    (v.updateChildren f steps).updateChildren g steps =
      v.updateChildren (fun c => g (f c)) steps := by
  induction steps generalizing v with
  | nil => rfl
  | cons step more ih =>
    obtain ⟨hstep, hn⟩ := List.nodup_cons.mp hn
    rw [updateChildren_cons, updateChildren_cons, updateChildren_cons,
      updateChild_updateChildren hstep, updateChild_updateChild, ih hn]

/-- A step that occurs once is taken on the child that was there at the start. -/
theorem child?_updateChildren_of_mem (hn : steps.Nodup) (h : step ∈ steps) :
    (updateChildren g steps v).child? step = (v.child? step).map g := by
  induction steps generalizing v with
  | nil => simp at h
  | cons step' steps ih =>
    obtain ⟨hs, hn⟩ := List.nodup_cons.mp hn
    rw [updateChildren_cons]
    rcases List.mem_cons.mp h with rfl | h
    · rw [child?_updateChildren_of_not_mem hs, child?_updateChild_self]
    · rw [ih hn h, child?_updateChild_ne]
      rintro rfl
      exact hs h

end Value

end PathDoc.Json

namespace PathDoc

/-- Whether the step goes to an element of an array. -/
def Step.isPos : Step → Bool
  | .pos _ => true
  | .key _ => false

end PathDoc

namespace PathDoc.Segment

open Json

/-! ### the steps of a segment -/

/-- The steps to the children that the segment selects. -/
def steps (s : Segment) (v : Value) : List Step := (s.children v).map Prod.fst

variable {s : Segment} {v w : Value}

theorem children_arr (s : Segment) (items : List Value) :
    s.children (.arr items) =
      (s.hits items.length).filterMap fun p => items[p]?.map fun c => (Step.pos p, c) := by
  cases s <;> rfl

theorem children_obj_of_isPositional (hs : s.isPositional = true) (ms : Members) :
    s.children (.obj ms) = [] := by
  cases s <;> first | rfl | simp [isPositional] at hs

theorem children_of_not_isContainer (hv : v.isContainer = false) : s.children v = [] := by
  cases s <;> cases v <;> first | rfl | simp [Value.isContainer] at hv

theorem exists_eq_member (hs : s.isPositional = false) : ∃ name, s = member name := by
  cases s <;> simp_all [isPositional]

theorem steps_arr (s : Segment) (items : List Value) :
    s.steps (.arr items) = (s.hits items.length).map Step.pos := by
  rw [steps, children_arr, List.map_filterMap, ← List.filterMap_eq_map]
  refine List.filterMap_congr fun p hp => ?_
  rw [List.getElem?_eq_getElem (lt_of_mem_hits hp)]
  rfl

theorem steps_member_obj (name : String) (ms : Members) :
    (member name).steps (.obj ms) = if name ∈ ms.map Prod.fst then [.key name] else [] := by
  rw [steps, children_member_obj]
  cases h : ms.get? name with
  | none => rw [if_neg (by rw [← Members.get?_isSome_iff, h]; simp)]; rfl
  | some c => rw [if_pos (by rw [← Members.get?_isSome_iff, h]; rfl)]; rfl

/-- Each selected child is one step away. -/
theorem child?_of_mem_children {c : Step × Value} (h : c ∈ s.children v) :
    v.child? c.1 = some c.2 := by
  cases v with
  | arr items =>
    rw [children_arr, List.mem_filterMap] at h
    obtain ⟨p, -, hp⟩ := h
    obtain ⟨c, hc, rfl⟩ := Option.map_eq_some_iff.mp hp
    exact hc
  | obj ms =>
    cases hs : s.isPositional with
    | true => rw [children_obj_of_isPositional hs] at h; simp at h
    | false =>
      obtain ⟨name, rfl⟩ := exists_eq_member hs
      obtain ⟨c, hc, rfl⟩ := Option.map_eq_some_iff.mp (Option.mem_toList.mp h)
      exact hc
  | _ => rw [children_of_not_isContainer rfl] at h; simp at h

theorem mem_children {step : Step} {c : Value} :
    (step, c) ∈ s.children v ↔ step ∈ s.steps v ∧ v.child? step = some c := by
  constructor
  · exact fun h => ⟨List.mem_map_of_mem (f := Prod.fst) h, child?_of_mem_children h⟩
  · rintro ⟨h, hc⟩
    obtain ⟨⟨step', c'⟩, hm, rfl⟩ := List.mem_map.mp h
    have hc' := child?_of_mem_children hm
    rw [hc] at hc'
    rw [Option.some.inj hc']
    exact hm

theorem nodup_steps (s : Segment) (v : Value) : (s.steps v).Nodup := by
  cases v with
  | arr items =>
    rw [steps_arr]
    exact (nodup_hits s _).map fun i j h => Step.pos.inj h
  | obj ms =>
    cases hs : s.isPositional with
    | true => rw [steps, children_obj_of_isPositional hs]; exact List.nodup_nil
    | false =>
      obtain ⟨name, rfl⟩ := exists_eq_member hs
      rw [steps_member_obj]
      split <;> simp
  | _ => rw [steps, children_of_not_isContainer rfl]; exact List.nodup_nil

/-- What a segment selects depends on the outline of the node alone. -/
theorem steps_congr (h : v.outline = w.outline) : s.steps v = s.steps w := by
  have scalar {u : Value} (hu : u.isContainer = false) : s.steps u = [] := by
    rw [steps, children_of_not_isContainer hu]; rfl
  cases v <;> cases w <;> simp only [Value.outline, Value.Outline.scalar.injEq, reduceCtorEq,
    Value.Outline.keys.injEq, Value.Outline.length.injEq] at h
  case arr.arr xs ys => rw [steps_arr, steps_arr, h]
  case obj.obj ms ns =>
    cases hs : s.isPositional with
    | true => simp only [steps, children_obj_of_isPositional hs]
    | false =>
      obtain ⟨name, rfl⟩ := exists_eq_member hs
      rw [steps_member_obj, steps_member_obj, h]
  all_goals exact (scalar rfl).trans (scalar rfl).symm

/-! ### kinds -/

theorem suits_iff_arr (hs : s.isPositional = true) : s.suits v = true ↔ ∃ items, v = .arr items := by
  cases v <;> simp [suits, hs]

theorem suits_member_iff {name : String} : (member name).suits v = true ↔ ∃ ms, v = .obj ms := by
  cases v <;> simp [suits, isPositional]

theorem suits_emptyContainer (s : Segment) : s.suits s.emptyContainer = true := by
  unfold emptyContainer
  cases h : s.isPositional <;> simp [suits, h]

/-- The steps of a segment go where its kind of node has children. -/
theorem isPos_of_mem_steps {step : Step} (hm : step ∈ s.steps v) : step.isPos = s.isPositional := by
  cases hs : s.isPositional with
  | true =>
    cases v with
    | arr items =>
      rw [steps_arr] at hm
      obtain ⟨p, -, rfl⟩ := List.mem_map.mp hm
      rfl
    | obj ms =>
      rw [steps, children_obj_of_isPositional hs] at hm
      simp at hm
    | _ =>
      rw [steps, children_of_not_isContainer rfl] at hm
      simp at hm
  | false =>
    obtain ⟨name, rfl⟩ := exists_eq_member hs
    cases v with
    | obj ms =>
      rw [steps_member_obj] at hm
      split at hm
      · rw [List.mem_singleton.mp hm]
        rfl
      · simp at hm
    | _ => simp [steps, children] at hm

theorem suits_of_child? {step : Step} {c : Value} (hk : step.isPos = s.isPositional)
    (hc : v.child? step = some c) : s.suits v = true := by
  cases v <;> cases step <;> simp_all [Value.child?, suits, Step.isPos]

/-! ### fitting -/

theorem fits_arr (hs : s.isPositional = true) (items : List Value) :
    s.fits (.arr items) = decide (s.reach ≤ items.length) := by
  cases s <;> first | rfl | simp [isPositional] at hs

theorem fits_of_isPositional (hs : s.isPositional = true) (hv : ∀ items, v ≠ .arr items) :
    s.fits v = false := by
  cases s <;> cases v <;> simp_all [fits, isPositional]

/-- A member is found where there is an object that has it. -/
theorem fits_member_iff {name : String} :
    (member name).fits v = true ↔ ∃ c, v.child? (.key name) = some c := by
  cases v with
  | obj ms => exact Option.isSome_iff_exists
  | _ => simp [fits, Value.child?]

theorem fits_iff (hs : s.isPositional = true) :
    s.fits v = true ↔ ∃ items, v = .arr items ∧ s.reach ≤ items.length := by
  cases v with
  | arr items => simp [fits_arr hs]
  | _ => simp [fits_of_isPositional hs]

theorem fits_congr (h : v.outline = w.outline) : s.fits v = s.fits w := by
  cases v <;> cases w <;> simp only [Value.outline, Value.Outline.scalar.injEq, reduceCtorEq,
    Value.Outline.keys.injEq, Value.Outline.length.injEq] at h
  case arr.arr xs ys => cases s <;> simp only [fits, h]
  case obj.obj ms ns =>
    cases hs : s.isPositional with
    | true => rw [fits_of_isPositional hs (by simp), fits_of_isPositional hs (by simp)]
    | false =>
      obtain ⟨name, rfl⟩ := exists_eq_member hs
      rw [fits_member_obj, fits_member_obj, Bool.eq_iff_iff, Members.get?_isSome_iff,
        Members.get?_isSome_iff, h]
  all_goals cases s <;> rfl

/-- Whether the node is long enough to be written at the segment, if it is an array. -/
def hasRoom (s : Segment) : Value → Bool
  | .arr items => s.demand items.length ≤ items.length
  | _ => true

theorem hasRoom_arr (s : Segment) (items : List Value) :
    s.hasRoom (.arr items) = decide (s.demand items.length ≤ items.length) := rfl

theorem hasRoom_congr (h : v.outline = w.outline) : s.hasRoom v = s.hasRoom w := by
  cases v <;> cases w <;> simp only [Value.outline, Value.Outline.scalar.injEq, reduceCtorEq,
    Value.Outline.keys.injEq, Value.Outline.length.injEq] at h
  case arr.arr xs ys => rw [hasRoom_arr, hasRoom_arr, h]
  all_goals rfl

/-- No index is outside a node, unless it is an array that is too short. -/
theorem outside?_eq_none_iff :
    s.outside? v = none ↔ ∀ items, v = .arr items → s.reach ≤ items.length := by
  cases v with
  | arr items =>
    simp only [Value.arr.injEq, forall_eq']
    exact Option.map_eq_none_iff.trans reach_le_iff.symm
  | _ => exact iff_of_true rfl fun items h => by simp at h

/-- Where a segment fits, no index is outside and something is found. -/
theorem outside?_of_fits (h : s.fits v = true) : s.outside? v = none := by
  cases hs : s.isPositional with
  | true =>
    obtain ⟨items, rfl, hr⟩ := (fits_iff hs).mp h
    exact outside?_eq_none_iff.mpr fun xs hxs => Value.arr.inj hxs ▸ hr
  | false =>
    obtain ⟨name, rfl⟩ := exists_eq_member hs
    exact outside?_member name v

theorem children_ne_nil (hp : s.isProper = true) (h : s.fits v = true) : s.children v ≠ [] := by
  refine fun hc => ?_
  cases hs : s.isPositional with
  | true =>
    obtain ⟨items, rfl, hr⟩ := (fits_iff hs).mp h
    have hsteps : s.steps (.arr items) = [] := by rw [steps, hc]; rfl
    rw [steps_arr, List.map_eq_nil_iff] at hsteps
    exact hits_ne_nil hs hp hr hsteps
  | false =>
    obtain ⟨name, rfl⟩ := exists_eq_member hs
    cases v with
    | obj ms =>
      obtain ⟨c, hc'⟩ := fits_member_iff.mp h
      rw [children_member_obj, show Members.get? ms name = some c from hc'] at hc
      simp at hc
    | _ => simp [fits] at h

/-- Where no index is outside and yet the segment does not fit, nothing is found. -/
theorem children_eq_nil (ho : s.outside? v = none) (h : s.fits v = false) : s.children v = [] := by
  cases hs : s.isPositional with
  | true =>
    cases v with
    | arr items =>
      rw [fits_arr hs, decide_eq_false_iff_not] at h
      exact absurd (outside?_eq_none_iff.mp ho items rfl) h
    | obj ms => exact children_obj_of_isPositional hs ms
    | _ => exact children_of_not_isContainer rfl
  | false =>
    obtain ⟨name, rfl⟩ := exists_eq_member hs
    cases v with
    | obj ms =>
      have hn : Members.get? ms name = none := by simpa using h
      rw [children_member_obj, hn]
      rfl
    | _ => rfl

end PathDoc.Segment
