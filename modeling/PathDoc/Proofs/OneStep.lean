import PathDoc.Proofs.Monotonicity
import PathDoc.Proofs.Straight

/-!
# PathDoc.Proofs.OneStep — writes along single steps

A path of members and of indexes from the front leads to one place (`Location.path`).  At each node on
its way a write makes ready a container, takes the child one step away, or an empty object where there
is none (`Value.slot`), and puts back what it has made of it (`Value.putChild`): `intoNode_eq_oneStep`.
To put children at different steps in either order makes equal nodes (`putChild_comm`).
-/

namespace PathDoc

open Json

/-! ### paths to one place -/

/-- The segment that denotes one step, in every document. -/
def Step.segment : Step → Segment
  | .key k => .member k
  | .pos i => .index i

/-- The path of members and of indexes from the front that leads to a place. -/
def Location.path (l : Location) : Path := l.map Step.segment

@[simp] theorem Location.path_nil : Location.path [] = [] := rfl

@[simp] theorem Location.path_cons (step : Step) (l : Location) :
    Location.path (step :: l) = step.segment :: Location.path l := rfl

@[simp] theorem Step.isPositional_segment (step : Step) :
    step.segment.isPositional = step.isPos := by
  cases step <;> rfl

theorem Location.isStraight_of_mem_path {l : Location} {s : Segment} (h : s ∈ l.path) :
    s.isStraight = true := by
  obtain ⟨step, -, rfl⟩ := List.mem_map.mp h
  cases step <;> rfl

namespace Json

namespace Members

variable {ms : Members} {k k' : String} {w : Value}

theorem get?_put (ms : Members) (k k' : String) (w : Value) :
    (ms.put k w).get? k' = if k = k' then some w else ms.get? k' := by
  induction ms with
  | nil => rfl
  | cons m ms ih =>
    obtain ⟨l, u⟩ := m
    by_cases hl : l = k
    · rw [put, if_pos hl, get?_cons, get?_cons]
      subst hl
      by_cases hk : l = k'
      · rw [if_pos hk, if_pos hk]
      · rw [if_neg hk, if_neg hk, if_neg hk]
    · rw [put, if_neg hl, get?_cons, get?_cons, ih]
      by_cases hk : l = k'
      · rw [if_pos hk, if_pos hk, if_neg]
        rintro rfl
        exact hl hk
      · rw [if_neg hk, if_neg hk]

theorem get?_put_comm {k k' : String} (h : k ≠ k') (ms : Members) (v w : Value) (l : String) :
    ((ms.put k v).put k' w).get? l = ((ms.put k' w).put k v).get? l := by
  simp only [get?_put]
  by_cases hk : k = l
  · rw [if_pos hk, if_pos hk, if_neg]
    rintro rfl
    exact h hk
  · rw [if_neg hk, if_neg hk]

theorem put_put (ms : Members) (k : String) (v w : Value) : (ms.put k v).put k w = ms.put k w := by
  induction ms with
  | nil => simp [put]
  | cons m ms ih =>
    obtain ⟨k', u⟩ := m
    by_cases hk : k' = k <;> simp [put, hk, ih]

theorem length_put (ms : Members) (k : String) (w : Value) :
    (ms.put k w).length = ms.length + if (ms.get? k).isSome then 0 else 1 := by
  cases hk : ms.get? k with
  | none => simp [put_eq_append hk]
  | some v =>
    have hkeys := congrArg List.length (keys_set ms k w)
    rw [List.length_map, List.length_map] at hkeys
    simp [put_eq_set hk, hkeys]

end Members

namespace Value

/-! ### writing one step away -/

/-- The items, with empty objects up to a length. -/
def padTo (n : ℕ) (items : List Value) : List Value :=
  items ++ List.replicate (n - items.length) (.obj [])

/-- The node with a child one step away, where there need be none yet. -/
def putChild : Value → Step → Value → Value
  | .obj ms, .key k, w => .obj (Members.put ms k w)
  | .arr items, .pos i, w => .arr ((padTo (i + 1) items).set i w)
  | v, _, _ => v

variable {v w c d : Value} {a b : Step}

theorem getElem?_padTo (n p : ℕ) (items : List Value) : (padTo n items)[p]? =
    if p < items.length then items[p]? else if p < n then some (.obj []) else none := by
  unfold padTo
  rw [List.getElem?_append]
  by_cases hp : p < items.length
  · rw [if_pos hp, if_pos hp]
  · rw [if_neg hp, if_neg hp, List.getElem?_replicate]
    by_cases hn : p < n
    · rw [if_pos (by omega), if_pos hn]
    · rw [if_neg (by omega), if_neg hn]

theorem length_padTo (n : ℕ) (items : List Value) : (padTo n items).length = max items.length n := by
  rw [padTo, List.length_append, List.length_replicate]
  omega

theorem getElem?_getD_padTo (n p : ℕ) (items : List Value) :
    (padTo n items)[p]?.getD (.obj []) = items[p]?.getD (.obj []) := by
  rw [getElem?_padTo]
  by_cases hp : p < items.length
  · rw [if_pos hp]
  · rw [if_neg hp, List.getElem?_eq_none (Nat.le_of_not_lt hp)]
    split <;> rfl

theorem suits_putChild (s : Segment) (v : Value) (a : Step) (w : Value) :
    s.suits (v.putChild a w) = s.suits v := by
  cases v <;> cases a <;> rfl

/-- An item put at a position: the others stay, and empty objects fill the gap before it. -/
theorem getElem?_set_padTo (i p : ℕ) (items : List Value) (c : Value) :
    ((padTo (i + 1) items).set i c)[p]? =
      if p = i then some c
      else if p < items.length then items[p]?
      else if p < i then some (.obj []) else none := by
  have hlt : i < (padTo (i + 1) items).length := by
    rw [length_padTo]
    omega
  by_cases hp : p = i
  · rw [if_pos hp, hp, List.getElem?_set_self hlt]
  · rw [if_neg hp, List.getElem?_set_ne (Ne.symm hp), getElem?_padTo]
    refine if_congr Iff.rfl rfl (if_congr ?_ rfl rfl)
    omega

theorem child?_putChild_self (h : a.segment.suits v = true) : (v.putChild a w).child? a = some w := by
  cases a with
  | key k =>
    obtain ⟨ms, rfl⟩ := Segment.suits_member_iff.mp h
    exact (Members.get?_put ms k k w).trans (if_pos rfl)
  | pos i =>
    obtain ⟨items, rfl⟩ := (Segment.suits_iff_arr rfl).mp h
    show ((padTo (i + 1) items).set i w)[i]? = some w
    rw [getElem?_set_padTo, if_pos rfl]

theorem slot_putChild_self (h : a.segment.suits v = true) : (v.putChild a w).slot a = w := by
  exact slot_of_child? (child?_putChild_self h)

/-- What lies another step away is not touched. -/
theorem slot_putChild_ne (h : a ≠ b) : (v.putChild a w).slot b = v.slot b := by
  cases v with
  | obj ms =>
    cases a with
    | pos i => rfl
    | key k =>
      cases b with
      | pos j => rfl
      | key k' =>
        have hk : k ≠ k' := fun he => h (by rw [he])
        show (Members.get? (Members.put ms k w) k').getD _ = (Members.get? ms k').getD _
        rw [Members.get?_put, if_neg hk]
  | arr items =>
    cases a with
    | key k => rfl
    | pos i =>
      cases b with
      | key k => rfl
      | pos j =>
        have hij : i ≠ j := fun he => h (by rw [he])
        show ((padTo (i + 1) items).set i w)[j]?.getD _ = items[j]?.getD _
        rw [List.getElem?_set_ne hij, getElem?_getD_padTo]
  | _ => rfl

/-- All other children are old ones or empty objects. -/
theorem child?_putChild_cases (h : a ≠ b) (hc : (v.putChild a w).child? b = some c) :
    v.child? b = some c ∨ c = .obj [] := by
  have hslot : (v.putChild a w).slot b = v.slot b := slot_putChild_ne h
  rw [slot_of_child? hc] at hslot
  cases hb : v.child? b with
  | none => exact .inr (hslot.trans (slot_of_child?_eq_none hb))
  | some d => exact .inl (congrArg some (hslot.trans (slot_of_child? hb)).symm)

theorem putChild_putChild (v : Value) (a : Step) (c w : Value) :
    (v.putChild a c).putChild a w = v.putChild a w := by
  cases v with
  | obj ms =>
    cases a with
    | pos i => rfl
    | key k => exact congrArg Value.obj (Members.put_put ms k c w)
  | arr items =>
    cases a with
    | key k => rfl
    | pos i =>
      have hroom : padTo (i + 1) ((padTo (i + 1) items).set i c) = (padTo (i + 1) items).set i c := by
        have hlen : i + 1 - ((padTo (i + 1) items).set i c).length = 0 := by
          rw [List.length_set, length_padTo]
          omega
        rw [padTo, hlen, List.replicate_zero, List.append_nil]
      show Value.arr ((padTo (i + 1) ((padTo (i + 1) items).set i c)).set i w) = _
      rw [hroom, List.set_set]
      rfl
  | _ => rfl

/-- To put a child is to put another one first and to change it. -/
theorem setChild_putChild (h : a.segment.suits v = true) :
    (v.putChild a c).setChild a w = v.putChild a w := by
  cases a with
  | key k =>
    obtain ⟨ms, rfl⟩ := Segment.suits_member_iff.mp h
    have hget : (Members.put ms k c).get? k = some c := by rw [Members.get?_put, if_pos rfl]
    have hput := Members.put_eq_set hget w
    rw [Members.put_put] at hput
    exact congrArg Value.obj hput.symm
  | pos i =>
    obtain ⟨items, rfl⟩ := (Segment.suits_iff_arr rfl).mp h
    exact congrArg Value.arr (List.set_set c)

/-! ### equal nodes -/

theorem wellFormed_slot (hv : v.WellFormed) (a : Step) : (v.slot a).WellFormed := by
  unfold slot
  cases hc : v.child? a with
  | none => exact ⟨List.nodup_nil, trivial⟩
  | some c => exact hv.child hc

theorem wellFormed_putChild (hv : v.WellFormed) (hw : w.WellFormed) (a : Step) :
    (v.putChild a w).WellFormed := by
  have hdistinct : (v.putChild a w).outline.Distinct := by
    have hold := (wellFormed_iff.mp hv).1
    cases v with
    | obj ms =>
      cases a with
      | pos i => exact hold
      | key k =>
        show ((Members.put ms k w).map Prod.fst).Nodup
        have hms : (ms.map Prod.fst).Nodup := hold
        cases hk : Members.get? ms k with
        | none =>
          have hnew : k ∉ ms.map Prod.fst := by
            rw [← Members.get?_isSome_iff, hk]
            exact Bool.false_ne_true
          rw [Members.put_eq_append hk, List.map_append]
          exact hms.append (List.nodup_singleton k) (List.disjoint_singleton.mpr hnew)
        | some v =>
          rw [Members.put_eq_set hk, Members.keys_set]
          exact hms
    | arr items => cases a <;> exact trivial
    | _ => exact trivial
  refine wellFormed_iff.mpr ⟨hdistinct, fun b c hc => ?_⟩
  by_cases hab : a = b
  · subst hab
    by_cases hs : a.segment.suits v = true
    · rw [child?_putChild_self hs] at hc
      rw [← Option.some.inj hc]
      exact hw
    · have hsame : v.putChild a w = v := by
        cases v <;> cases a <;> first | rfl | exact absurd rfl hs
      rw [hsame] at hc
      exact hv.child hc
  · rcases child?_putChild_cases hab hc with hold | rfl
    · exact hv.child hold
    · exact ⟨List.nodup_nil, trivial⟩

/-- Equal children make equal nodes. -/
theorem putChild_beq (hv : v.WellFormed) (hs : a.segment.suits v = true) (h : (c == d) = true) :
    (v.putChild a c == v.putChild a d) = true := by
  have hempty : WellFormed (.obj []) := ⟨List.nodup_nil, trivial⟩
  have hroom : (v.putChild a (.obj [])).WellFormed := wellFormed_putChild hv hempty a
  have hchild : (v.putChild a (.obj [])).child? a = some (.obj []) := child?_putChild_self hs
  have hset (w : Value) : (v.putChild a (.obj [])).updateChildren (fun _ => w) [a] =
      v.putChild a w := by
    rw [updateChildren_cons_of_some hchild, updateChildren_nil, setChild_putChild hs]
  have hup := comesUp_beq (g := fun _ => d) (h := fun _ => c) hroom (List.nodup_singleton a)
    fun _ _ _ _ => h
  rwa [hset, hset] at hup

/-- **Children put at two steps** can be put in either order. -/
theorem putChild_comm (hv : v.WellFormed) (hc : c.WellFormed) (hd : d.WellFormed)
    (hs : a.segment.suits v = true) (hk : a.isPos = b.isPos) (h : a ≠ b) :
    ((v.putChild a c).putChild b d == (v.putChild b d).putChild a c) = true := by
  have hleft : ((v.putChild a c).putChild b d).WellFormed :=
    wellFormed_putChild (wellFormed_putChild hv hc a) hd b
  cases a with
  | key k =>
    obtain ⟨ms, rfl⟩ := Segment.suits_member_iff.mp hs
    cases b with
    | pos j => exact absurd hk Bool.false_ne_true
    | key k' =>
      -- two new members come in the order in which they are put
      have hne : k ≠ k' := fun he => h (by rw [he])
      have hlookup := Members.get?_put_comm hne ms c d
      have hlen : (Members.put (Members.put ms k c) k' d).length =
          (Members.put (Members.put ms k' d) k c).length := by
        simp only [Members.length_put, Members.get?_put, if_neg hne, if_neg hne.symm]
        omega
      refine beq_of_alike (wellFormed_iff.mp hleft).1 ?_ fun step e he => ⟨e, ?_, ?_⟩
      · show (List.map _ _).length = (List.map _ _).length
        rw [List.length_map, List.length_map]
        exact hlen
      · cases step with
        | pos j => exact absurd he (Option.some_ne_none e).symm
        | key l => exact (hlookup l).symm.trans he
      · exact beq_self (hleft.child he)
  | pos i =>
    obtain ⟨items, rfl⟩ := (Segment.suits_iff_arr rfl).mp hs
    cases b with
    | key k => exact absurd hk.symm Bool.false_ne_true
    | pos j =>
      have hne : i ≠ j := fun he => h (by rw [he])
      have hsame : (Value.putChild (.arr items) (.pos i) c).putChild (.pos j) d =
          (Value.putChild (.arr items) (.pos j) d).putChild (.pos i) c := by
        refine congrArg Value.arr (List.ext_getElem? fun p => ?_)
        simp only [getElem?_set_padTo, List.length_set, length_padTo]
        split_ifs <;> first | rfl | omega
      rw [← hsame]
      exact beq_self hleft

end Value

end Json

namespace Write

variable {job : Job} {path rest : Path} {node v w : Value} {a b : Step}

/-! ### a write of one step -/

/-- Writes below the node one step away, in the container that has been made ready for the step. -/
def oneStep (coerce : Bool) (a : Step) (below : Value → Outcome Value) (node : Value) :
    Outcome Value :=
  match prepare? coerce a.segment node with
  | none => ⟨node, some (.clash [] node)⟩
  | some v => (below (v.slot a)).lift [a] (v.putChild a)

theorem prepare?_congr {s t : Segment} (h : s.isPositional = t.isPositional) (coerce : Bool)
    (node : Value) : prepare? coerce s node = prepare? coerce t node := by
  have hsuits : s.suits node = t.suits node := by
    cases node with
    | obj ms => exact congrArg Bool.not h
    | arr items => exact h
    | _ => rfl
  rw [prepare?, prepare?, hsuits, Segment.emptyContainer, Segment.emptyContainer, h]

theorem suits_of_prepare? {coerce : Bool} {s : Segment} (h : prepare? coerce s node = some v) :
    s.suits v = true := by
  by_cases hs : s.suits node = true
  · rw [prepare?_of_suits hs] at h
    rwa [← Option.some.inj h]
  · rw [Bool.not_eq_true] at hs
    rw [prepare?_of_not_suits hs] at h
    obtain ⟨-, he⟩ := Option.ite_none_right_eq_some.mp h
    rw [← Option.some.inj he]
    exact s.suits_emptyContainer

theorem wellFormed_of_prepare? {coerce : Bool} {s : Segment} (hnode : node.WellFormed)
    (h : prepare? coerce s node = some v) : v.WellFormed := by
  unfold prepare? at h
  split_ifs at h
  · rwa [← Option.some.inj h]
  · rw [← Option.some.inj h, Segment.emptyContainer]
    split
    · exact trivial
    · exact ⟨List.nodup_nil, trivial⟩

/-- A node that has been written at one step is ready for the next write there. -/
theorem prepare?_putChild {coerce : Bool} (h : prepare? coerce a.segment node = some v) (w : Value)
    (hk : a.isPos = b.isPos) : prepare? coerce b.segment (v.putChild a w) = some (v.putChild a w) := by
  have hkind : b.segment.isPositional = a.segment.isPositional := by
    rw [Step.isPositional_segment, Step.isPositional_segment, hk]
  rw [prepare?_congr hkind]
  refine prepare?_of_suits ?_ coerce
  rw [Value.suits_putChild]
  exact suits_of_prepare? h

theorem intoMember_eq_oneStep (job : Job) (rest : Path) (k : String) (ms : Members) :
    (intoMember k (Path.scaffold rest job.leaf) (intoSlot job rest) ms).lift [] .obj =
      (intoSlot job rest (Value.slot (.obj ms) (.key k))).lift [.key k]
        (Value.putChild (.obj ms) (.key k)) := by
  rw [intoMember_lift]
  cases hc : Members.get? ms k with
  | none =>
    have hchild : Value.child? (.obj ms) (.key k) = none := hc
    rw [Value.slot_of_child?_eq_none hchild, intoSlot_of_isEmptyContainer rfl]
    rfl
  | some c =>
    have hchild : Value.child? (.obj ms) (.key k) = some c := hc
    have hset : Value.setChild (.obj ms) (.key k) = Value.putChild (.obj ms) (.key k) :=
      funext fun w => congrArg Value.obj (Members.put_eq_set hc w).symm
    rw [Value.slot_of_child? hchild, ← hset]
    exact (alongSteps_cons_of_some hchild).trans Outcome.andThen_done

theorem intoSlots_eq_oneStep {i : ℕ} (hx : (Segment.index i).excess? = none)
    (below : Value → Outcome Value) (items : List Value) :
    (intoSlots below ((Segment.index i).slots items.length)
        ((Segment.index i).makeRoom items)).lift [] .arr =
      (below (Value.slot (.arr items) (.pos i))).lift [.pos i]
        (Value.putChild (.arr items) (.pos i)) := by
  have hroom : (Segment.index i).makeRoom items = Value.padTo (i + 1) items := by
    have hdemand : (Segment.index i).demand items.length = i + 1 := by
      simp [Segment.demand, Segment.indexList]
    rw [Segment.makeRoom, hx, Option.isSome_none, if_neg Bool.false_ne_true, hdemand]
    rfl
  have hslots : (Segment.index i).slots items.length = [i] := by
    rw [Segment.slots, hx, Option.isSome_none, if_neg Bool.false_ne_true]
    simp [Segment.indexList, Index.position?, List.eraseDups_cons]
  obtain ⟨c, hc⟩ : ∃ c, (Value.padTo (i + 1) items)[i]? = some c := by
    refine ⟨_, List.getElem?_eq_getElem ?_⟩
    rw [Value.length_padTo]
    omega
  have hchild : Value.child? (.arr (Value.padTo (i + 1) items)) (.pos i) = some c := hc
  have hslot : Value.slot (.arr items) (.pos i) = c := by
    have hget := Value.getElem?_getD_padTo (i + 1) i items
    rw [hc, Option.getD_some] at hget
    exact hget.symm
  rw [hroom, hslots, intoSlots_lift, hslot]
  exact (alongSteps_cons_of_some hchild).trans Outcome.andThen_done

/-- **The writer at one step.** -/
theorem intoNode_eq_oneStep (hx : a.segment.excess? = none) (job : Job) (rest : Path)
    (node : Value) : intoNode job (a.segment :: rest) node =
      oneStep job.permission.coerce a (intoSlot job rest) node := by
  rw [intoNode, enter, oneStep]
  cases hp : prepare? job.permission.coerce a.segment node with
  | none => rfl
  | some v =>
    cases a with
    | key k =>
      obtain ⟨ms, rfl⟩ := Segment.suits_member_iff.mp (suits_of_prepare? hp)
      exact intoMember_eq_oneStep job rest k ms
    | pos i =>
      obtain ⟨items, rfl⟩ := (Segment.suits_iff_arr rfl).mp (suits_of_prepare? hp)
      exact intoSlots_eq_oneStep hx (intoSlot job rest) items

end Write

end PathDoc
