import PathDoc.Proofs.Loops

/-!
# PathDoc.Proofs.Opening — what a write makes of one node

`Write.opened?` is the node as a write opens it for a segment: of the kind that the segment needs,
with room for it, and with the steps at which the rest is still to be written; a new member holds
all of the rest at once.  `enter_eq` says that the writer opens the node so and then goes along the
steps.  A fresh container is an opened empty one (`enclose_eq`), so to open an empty node is to put
fresh containers in its place (`intoNode_of_isEmptyContainer`).
-/

namespace PathDoc

open Json

namespace Write

variable {job : Job} {s : Segment} {rest : Path} {steps : List Step} {node v c : Value} {step : Step}

/-! ### opening a node -/

/-- The members of a node that is to be an object. -/
def membersOf? (coerce : Bool) : Value → Option Members
  | .obj ms => some ms
  | v => if v.isEmptyContainer || coerce then some [] else none

/-- The items of a node that is to be an array. -/
def itemsOf? (coerce : Bool) : Value → Option (List Value)
  | .arr items => some items
  | v => if v.isEmptyContainer || coerce then some [] else none

theorem prepare?_member (coerce : Bool) (name : String) (node : Value) :
    prepare? coerce (.member name) node = (membersOf? coerce node).map .obj := by
  cases node with
  | obj ms => rfl
  | _ =>
    rw [prepare?_of_not_suits rfl]
    simp only [membersOf?]
    split <;> rfl

theorem prepare?_of_isPositional (hs : s.isPositional = true) (coerce : Bool) (node : Value) :
    prepare? coerce s node = (itemsOf? coerce node).map .arr := by
  cases node with
  | arr items => exact prepare?_of_suits (show s.suits (.arr items) = true from hs) coerce
  | _ =>
    rw [prepare?_of_not_suits (by simp [Segment.suits, hs]), Segment.emptyContainer, if_pos hs]
    simp only [itemsOf?]
    split <;> rfl

/-- The node as a write opens it for a segment, and the steps at which it has still to write. -/
def opened? (job : Job) (s : Segment) (rest : Path) (node : Value) : Option (Value × List Step) :=
  match s with
  | .member name => (membersOf? job.permission.coerce node).map fun ms =>
    match ms.get? name with
    | some _ => (.obj ms, [.key name])
    | none => (.obj (ms.put name (Path.scaffold rest job.leaf)), [])
  | s => (itemsOf? job.permission.coerce node).map fun items =>
    (.arr (s.makeRoom items), (s.slots items.length).map .pos)

theorem opened?_of_isPositional (hs : s.isPositional = true) (job : Job) (rest : Path)
    (node : Value) : opened? job s rest node = (itemsOf? job.permission.coerce node).map
      fun items => (.arr (s.makeRoom items), (s.slots items.length).map .pos) := by
  cases s <;> first | rfl | simp [Segment.isPositional] at hs

theorem intoSlots_lift (below : Value → Outcome Value) (slots : List ℕ) (items : List Value) :
    (intoSlots below slots items).lift [] .arr =
      alongSteps below (slots.map .pos) (.arr items) := by
  induction slots generalizing items with
  | nil => rfl
  | cons p slots ih =>
    rw [List.map_cons]
    cases hc : items[p]? with
    | none =>
      rw [alongSteps_cons_of_none (show Value.child? (.arr items) (.pos p) = none from hc), ← ih,
        intoSlots, hc]
    | some c =>
      rw [alongSteps_cons_of_some (show Value.child? (.arr items) (.pos p) = some c from hc)]
      cases hb : (below c).fault with
      | none =>
        rw [Outcome.lift_andThen_of_fault_none hb]
        simp only [intoSlots, hc, hb]
        exact ih _
      | some fault =>
        rw [Outcome.lift_andThen_of_fault_some hb]
        simp only [intoSlots, hc, Outcome.lift, hb, Option.map_some, Fault.under_nil]
        rfl

theorem intoMember_lift (name : String) (fresh : Value) (below : Value → Outcome Value)
    (ms : Members) : (intoMember name fresh below ms).lift [] .obj =
      match ms.get? name with
      | some _ => alongSteps below [.key name] (.obj ms)
      | none => .done (.obj (ms.put name fresh)) := by
  rw [intoMember]
  cases hc : ms.get? name with
  | none => rfl
  | some c =>
    simp only
    rw [alongSteps_cons_of_some (show Value.child? (.obj ms) (.key name) = some c from hc)]
    refine Eq.trans ?_ Outcome.andThen_done.symm
    simp only [Outcome.lift]
    cases (below c).fault with
    | none => rfl
    | some fault => simp only [Option.map_some, Fault.under_nil]; rfl

/-- **The writer at one node**: it opens the node and goes along the steps. -/
theorem enter_eq (job : Job) (s : Segment) (rest : Path) (below : Value → Outcome Value)
    (node : Value) : enter job s rest below node =
      match opened? job s rest node with
      | none => ⟨node, some (.clash [] node)⟩
      | some (v, steps) => alongSteps below steps v := by
  cases hs : s.isPositional with
  | true =>
    rw [opened?_of_isPositional hs, enter, prepare?_of_isPositional hs]
    cases itemsOf? job.permission.coerce node with
    | none => rfl
    | some items => exact intoSlots_lift below _ _
  | false =>
    obtain ⟨name, rfl⟩ := Segment.exists_eq_member hs
    rw [enter, opened?, prepare?_member]
    cases membersOf? job.permission.coerce node with
    | none => rfl
    | some ms =>
      simp only [Option.map_some]
      rw [intoMember_lift]
      cases ms.get? name <;> rfl

theorem opened?_eq_none_iff_prepare? :
    opened? job s rest node = none ↔ prepare? job.permission.coerce s node = none := by
  cases hs : s.isPositional with
  | true =>
    rw [opened?_of_isPositional hs, prepare?_of_isPositional hs, Option.map_eq_none_iff,
      Option.map_eq_none_iff]
  | false =>
    obtain ⟨name, rfl⟩ := Segment.exists_eq_member hs
    rw [opened?, prepare?_member, Option.map_eq_none_iff, Option.map_eq_none_iff]

/-- A write cannot open a node of the wrong kind that is not empty and may not make way. -/
theorem opened?_eq_none_iff : opened? job s rest node = none ↔
    s.suits node = false ∧ node.isEmptyContainer = false ∧ job.permission.coerce = false := by
  rw [opened?_eq_none_iff_prepare?]
  by_cases hk : s.suits node = true
  · rw [prepare?_of_suits hk, hk]
    simp
  · rw [Bool.not_eq_true] at hk
    rw [prepare?_of_not_suits hk, hk, ite_eq_right_iff]
    simp

theorem suits_of_opened? (hv : node.isEmptyContainer = false) (hk : job.permission.coerce = false)
    (ho : opened? job s rest node = some (v, steps)) : s.suits node = true := by
  by_contra hs
  rw [Bool.not_eq_true] at hs
  rw [opened?_eq_none_iff.mpr ⟨hs, hv, hk⟩] at ho
  simp at ho

/-! ### the opened node -/

/-- The three ways to open a node: an array with room, an object that has the member, and one to
which the member has been added. -/
theorem opened?_cases (h : opened? job s rest node = some (v, steps)) :
    (∃ items, s.isPositional = true ∧ itemsOf? job.permission.coerce node = some items ∧
      v = .arr (s.makeRoom items) ∧ steps = (s.slots items.length).map .pos) ∨
    (∃ name ms c, s = .member name ∧ membersOf? job.permission.coerce node = some ms ∧
      ms.get? name = some c ∧ v = .obj ms ∧ steps = [.key name]) ∨
    (∃ name ms, s = .member name ∧ membersOf? job.permission.coerce node = some ms ∧
      ms.get? name = none ∧ v = .obj (ms ++ [(name, Path.scaffold rest job.leaf)]) ∧
      steps = []) := by
  cases hs : s.isPositional with
  | true =>
    rw [opened?_of_isPositional hs] at h
    obtain ⟨items, hi, he⟩ := Option.map_eq_some_iff.mp h
    obtain ⟨rfl, rfl⟩ := Prod.mk.inj he
    exact .inl ⟨items, rfl, hi, rfl, rfl⟩
  | false =>
    obtain ⟨name, rfl⟩ := Segment.exists_eq_member hs
    obtain ⟨ms, hm, he⟩ := Option.map_eq_some_iff.mp h
    cases hg : ms.get? name with
    | some c =>
      rw [hg] at he
      obtain ⟨rfl, rfl⟩ := Prod.mk.inj he
      exact .inr (.inl ⟨name, ms, c, rfl, hm, hg, rfl, rfl⟩)
    | none =>
      rw [hg] at he
      obtain ⟨rfl, rfl⟩ := Prod.mk.inj he
      exact .inr (.inr ⟨name, ms, rfl, hm, hg, by rw [Members.put_eq_append hg], rfl⟩)

theorem get?_append_new {ms : Members} {name : String} (h : ms.get? name = none) (c : Value) :
    Members.get? (ms ++ [(name, c)]) name = some c := by
  rw [Members.get?_append, h]
  simp [Members.get?_cons]

theorem nodup_steps_of_opened? (h : opened? job s rest node = some (v, steps)) : steps.Nodup := by
  rcases opened?_cases h with ⟨items, -, -, rfl, rfl⟩ | ⟨name, ms, c, rfl, -, -, rfl, rfl⟩ |
    ⟨name, ms, rfl, -, -, rfl, rfl⟩
  · exact (s.nodup_slots items.length).map fun i j hij => Step.pos.inj hij
  · exact List.nodup_singleton _
  · exact List.nodup_nil

/-- An opened node has all that the segment asks for. -/
theorem fits_of_opened? (hx : s.excess? = none) (h : opened? job s rest node = some (v, steps)) :
    s.fits v = true := by
  rcases opened?_cases h with ⟨items, hs, -, rfl, rfl⟩ | ⟨name, ms, c, rfl, -, hg, rfl, rfl⟩ |
    ⟨name, ms, rfl, -, hg, rfl, rfl⟩
  · rw [Segment.fits_arr hs, decide_eq_true_eq, Segment.length_makeRoom hx]
    exact s.reach_le_grown _
  · exact Segment.fits_member_iff.mpr ⟨c, hg⟩
  · exact Segment.fits_member_iff.mpr ⟨_, get?_append_new hg _⟩

/-- An opened node has room for its segment, unless that is an open span. -/
theorem hasRoom_of_opened? (hx : s.excess? = none) (hc : s.isOpen = false)
    (h : opened? job s rest node = some (v, steps)) : s.hasRoom v = true := by
  rcases opened?_cases h with ⟨items, -, -, rfl, -⟩ | ⟨name, ms, c, rfl, -, -, rfl, -⟩ |
    ⟨name, ms, rfl, -, -, rfl, -⟩
  · have hlen : (s.makeRoom items).length = max items.length (s.demand items.length) :=
      Segment.length_makeRoom hx
    have hdemand := Segment.demand_eq_of_closed hc (s.makeRoom items).length items.length
    rw [Segment.hasRoom_arr, decide_eq_true_eq]
    omega
  · rfl
  · rfl

/-- **A node in which a segment fits**, with room for it, is opened as it is, at the steps of a
reader. -/
theorem opened?_of_hasRoom (hx : s.excess? = none) (hc : s.isOpen = false) (job : Job) (rest : Path)
    (hroom : s.hasRoom node = true) (hf : s.fits node = true) :
    opened? job s rest node = some (node, s.steps node) := by
  cases hs : s.isPositional with
  | true =>
    obtain ⟨items, rfl, -⟩ := (Segment.fits_iff hs).mp hf
    rw [Segment.hasRoom_arr, decide_eq_true_eq] at hroom
    have hslots := Segment.slots_eq_hits hx hc hroom
    have hmake : s.makeRoom items = items := by
      rw [Segment.makeRoom, Nat.sub_eq_zero_of_le hroom, List.replicate_zero, List.append_nil,
        ite_self]
    rw [opened?_of_isPositional hs, itemsOf?, Option.map_some, hmake, hslots, Segment.steps_arr]
  | false =>
    obtain ⟨name, rfl⟩ := Segment.exists_eq_member hs
    obtain ⟨c, hc⟩ := Segment.fits_member_iff.mp hf
    cases node with
    | obj ms =>
      have hget : Members.get? ms name = some c := hc
      have hmem : name ∈ ms.map Prod.fst := Members.get?_isSome_iff.mp (by rw [hget]; rfl)
      rw [opened?, membersOf?, Option.map_some, hget, Segment.steps_member_obj, if_pos hmem]
    | _ => simp [Value.child?] at hc

/-- A reader of an opened node finds the steps at which there is still to write, and a member that
holds all of the rest. -/
theorem mem_steps_of_opened? (hx : s.excess? = none)
    (h : opened? job s rest node = some (v, steps)) (hm : step ∈ s.steps v) :
    step ∈ steps ∨ v.child? step = some (Path.scaffold rest job.leaf) := by
  rcases opened?_cases h with ⟨items, hs, -, rfl, rfl⟩ | ⟨name, ms, c, rfl, -, hg, rfl, rfl⟩ |
    ⟨name, ms, rfl, -, hg, rfl, rfl⟩
  · rw [Segment.steps_arr, Segment.length_makeRoom hx] at hm
    obtain ⟨p, hp, rfl⟩ := List.mem_map.mp hm
    exact .inl (List.mem_map_of_mem (Segment.hits_grown_subset_slots hx _ hp))
  · rw [Segment.steps_member_obj] at hm
    split at hm
    · exact .inl hm
    · simp at hm
  · have hstep : step = .key name := by
      rw [Segment.steps_member_obj] at hm
      split at hm
      · exact List.mem_singleton.mp hm
      · simp at hm
    rw [hstep]
    exact .inr (get?_append_new hg _)

theorem itemsOf?_cases {coerce : Bool} {items : List Value} (h : itemsOf? coerce node = some items) :
    node = .arr items ∨ items = [] := by
  unfold itemsOf? at h
  split at h
  · exact .inl (by rw [Option.some.inj h])
  · split at h
    · exact .inr (Option.some.inj h).symm
    · simp at h

theorem membersOf?_cases {coerce : Bool} {ms : Members} (h : membersOf? coerce node = some ms) :
    node = .obj ms ∨ ms = [] := by
  unfold membersOf? at h
  split at h
  · exact .inl (by rw [Option.some.inj h])
  · split at h
    · exact .inr (Option.some.inj h).symm
    · simp at h

theorem getElem?_makeRoom {items : List Value} {p : ℕ} {c : Value} (h : items[p]? = some c) :
    (s.makeRoom items)[p]? = some c := by
  obtain ⟨hp, -⟩ := List.getElem?_eq_some_iff.mp h
  unfold Segment.makeRoom
  split
  · exact h
  · rw [List.getElem?_append_left hp, h]

/-- The elements of an array with room: the old ones, and empty objects. -/
theorem getElem?_makeRoom_cases {items : List Value} {p : ℕ} (h : (s.makeRoom items)[p]? = some c) :
    items[p]? = some c ∨ c = .obj [] := by
  unfold Segment.makeRoom at h
  split at h
  · exact .inl h
  · rw [List.getElem?_append] at h
    split at h
    · exact .inl h
    · have hmem := List.mem_of_getElem? h
      exact .inr (List.eq_of_mem_replicate hmem)

theorem child?_of_itemsOf? {coerce : Bool} {items : List Value} {p : ℕ}
    (h : itemsOf? coerce node = some items) : node.child? (.pos p) = items[p]? := by
  cases node with
  | arr xs => rw [Option.some.inj h]; rfl
  | _ =>
    simp only [itemsOf?, Option.ite_none_right_eq_some, Option.some.injEq] at h
    rw [← h.2]
    rfl

theorem child?_of_membersOf? {coerce : Bool} {ms : Members} {k : String}
    (h : membersOf? coerce node = some ms) : node.child? (.key k) = ms.get? k := by
  cases node with
  | obj ns => rw [Option.some.inj h]; rfl
  | _ =>
    simp only [membersOf?, Option.ite_none_right_eq_some, Option.some.injEq] at h
    rw [← h.2]
    rfl

/-- The children of an opened node: the old ones, empty objects where there was none, and a new member
that holds all of the rest, after which there is nothing else to write. -/
theorem child?_opened? (ho : opened? job s rest node = some (v, steps))
    (hc : v.child? step = some c) : c = node.slot step ∨
      ∃ name, s = .member name ∧ step = .key name ∧ steps = [] ∧ node.child? step = none ∧
        c = Path.scaffold rest job.leaf := by
  rcases opened?_cases ho with ⟨items, -, hi, rfl, -⟩ | ⟨name, ms, d, -, hms, -, rfl, -⟩ |
    ⟨name, ms, rfl, hms, hg, rfl, rfl⟩
  · cases step with
    | key k => simp [Value.child?] at hc
    | pos p =>
      have hget : (s.makeRoom items)[p]? = some c := hc
      have hchild : node.child? (.pos p) = items[p]? := child?_of_itemsOf? hi
      cases hold : items[p]? with
      | some d =>
        rw [getElem?_makeRoom hold, Option.some.injEq] at hget
        rw [Value.slot_of_child? (hchild.trans hold)]
        exact .inl hget.symm
      | none =>
        rcases getElem?_makeRoom_cases hget with hitem | rfl
        · rw [hold] at hitem
          simp at hitem
        · exact .inl (Value.slot_of_child?_eq_none (hchild.trans hold)).symm
  · cases step with
    | pos p => simp [Value.child?] at hc
    | key k =>
      have hchild : node.child? (.key k) = some c := (child?_of_membersOf? hms).trans hc
      exact .inl (Value.slot_of_child? hchild).symm
  · cases step with
    | pos p => simp [Value.child?] at hc
    | key k =>
      have hget : Members.get? (ms ++ [(name, Path.scaffold rest job.leaf)]) k = some c := hc
      have hchild : node.child? (.key k) = ms.get? k := child?_of_membersOf? hms
      rw [Members.get?_append] at hget
      cases hold : ms.get? k with
      | some d =>
        rw [hold, Option.some_or, Option.some.injEq] at hget
        rw [Value.slot_of_child? (hchild.trans hold)]
        exact .inl hget.symm
      | none =>
        rw [hold, Option.none_or, Members.get?_cons] at hget
        split at hget
        · next hk =>
          exact .inr ⟨name, rfl, congrArg Step.key hk.symm, rfl, hchild.trans hold,
            (Option.some.inj hget).symm⟩
        · simp at hget

/-- Where there is still to write in an opened node stands an old child, or a new empty one. -/
theorem child?_of_opened? (ho : opened? job s rest node = some (v, steps)) (hm : step ∈ steps)
    (hc : v.child? step = some c) : node.child? step = some c ∨ c = .obj [] := by
  rcases child?_opened? ho hc with rfl | ⟨-, -, -, rfl, -⟩
  · cases hold : node.child? step with
    | some d => exact .inl (congrArg some (Value.slot_of_child? hold).symm)
    | none => exact .inr (Value.slot_of_child?_eq_none hold)
  · exact absurd hm List.not_mem_nil

theorem isPos_of_opened? (ho : opened? job s rest node = some (v, steps)) (hm : step ∈ steps) :
    step.isPos = s.isPositional := by
  rcases opened?_cases ho with ⟨items, hs, -, -, rfl⟩ | ⟨name, ms, d, rfl, -, -, -, rfl⟩ |
    ⟨name, ms, rfl, -, -, -, rfl⟩
  · obtain ⟨p, -, rfl⟩ := List.mem_map.mp hm
    exact hs.symm
  · rw [List.mem_singleton.mp hm]
    rfl
  · exact absurd hm List.not_mem_nil

/-- A node of the right kind keeps its children when it is opened, and a reader finds those of them
below which there is still to write. -/
theorem keeps_of_opened? (hx : s.excess? = none) (hk : s.suits node = true)
    (ho : opened? job s rest node = some (v, steps)) (hc : node.child? step = some c) :
    v.child? step = some c ∧ (step ∈ steps → step ∈ s.steps v) := by
  rcases opened?_cases ho with ⟨items, hs, hi, rfl, rfl⟩ | ⟨name, ms, d, rfl, hm, hg, rfl, rfl⟩ |
    ⟨name, ms, rfl, hm, hg, rfl, rfl⟩
  · obtain ⟨items', rfl⟩ := (Segment.suits_iff_arr hs).mp hk
    obtain rfl : items' = items := Option.some.inj hi
    cases step with
    | key k => simp [Value.child?] at hc
    | pos p =>
      have hget : items'[p]? = some c := hc
      obtain ⟨hlt, -⟩ := List.getElem?_eq_some_iff.mp hget
      refine ⟨getElem?_makeRoom hget, fun hp => ?_⟩
      obtain ⟨q, hq, hpq⟩ := List.mem_map.mp hp
      obtain rfl := Step.pos.inj hpq
      rw [Segment.steps_arr, Segment.length_makeRoom hx]
      exact List.mem_map_of_mem (Segment.mem_hits_grown_of_lt hx hq hlt)
  · obtain ⟨ms', rfl⟩ := Segment.suits_member_iff.mp hk
    obtain rfl : ms' = ms := Option.some.inj hm
    refine ⟨hc, fun hstep => ?_⟩
    have hname : name ∈ ms'.map Prod.fst := Members.get?_isSome_iff.mp (by rw [hg]; rfl)
    rwa [Segment.steps_member_obj, if_pos hname]
  · obtain ⟨ms', rfl⟩ := Segment.suits_member_iff.mp hk
    obtain rfl : ms' = ms := Option.some.inj hm
    refine ⟨?_, fun hstep => absurd hstep List.not_mem_nil⟩
    cases step with
    | pos p => simp [Value.child?] at hc
    | key k =>
      show Members.get? (ms' ++ _) k = some c
      rw [Members.get?_append, show Members.get? ms' k = some c from hc]
      rfl

/-- A fresh container for a segment is an empty one, opened for it and filled. -/
theorem enclose_eq (job : Job) (s : Segment) (rest : Path) :
    ∃ v steps, opened? job s rest (.obj []) = some (v, steps) ∧
      s.enclose (Path.scaffold rest job.leaf) =
        v.updateChildren (fun _ => Path.scaffold rest job.leaf) steps := by
  have hset (w : Value) (slots : List ℕ) (items : List Value) :
      Value.arr (slots.foldl (fun items p => items.set p w) items) =
        (Value.arr items).updateChildren (fun _ => w) (slots.map .pos) := by
    induction slots generalizing items with
    | nil => rfl
    | cons p slots ih =>
      rw [List.foldl_cons, ih, List.map_cons, Value.updateChildren_cons, Value.updateChild]
      cases hp : items[p]? with
      | none =>
        rw [show Value.child? (.arr items) (.pos p) = none from hp,
          List.set_eq_of_length_le (List.getElem?_eq_none_iff.mp hp)]
      | some c => rw [show Value.child? (.arr items) (.pos p) = some c from hp]; rfl
  cases hs : s.isPositional with
  | true =>
    have henc (w : Value) : s.enclose w =
        .arr ((s.slots 0).foldl (fun items p => items.set p w) (s.makeRoom [])) := by
      cases s <;> first | rfl | simp [Segment.isPositional] at hs
    exact ⟨_, _, by rw [opened?_of_isPositional hs]; rfl, by rw [henc, hset]; rfl⟩
  | false =>
    obtain ⟨name, rfl⟩ := Segment.exists_eq_member hs
    exact ⟨_, _, rfl, rfl⟩

/-! ### empty nodes -/

theorem opened?_of_isEmptyContainer (h : node.isEmptyContainer = true) (job : Job) (s : Segment)
    (rest : Path) : opened? job s rest node = opened? job s rest (.obj []) := by
  rcases Value.isEmptyContainer_iff.mp h with rfl | rfl
  · rfl
  · cases s <;> rfl

theorem intoSlot_of_isEmptyContainer (h : c.isEmptyContainer = true) (job : Job) (path : Path) :
    intoSlot job path c = .done (Path.scaffold path job.leaf) := by
  cases path with
  | nil => rw [intoSlot_nil, settle, if_pos h]; rfl
  | cons s rest => rw [intoSlot_cons, if_pos h]

/-- **To open an empty node** is to put fresh containers in its place. -/
theorem intoNode_of_isEmptyContainer (h : node.isEmptyContainer = true) (job : Job) (s : Segment)
    (rest : Path) :
    intoNode job (s :: rest) node = .done (Path.scaffold (s :: rest) job.leaf) := by
  obtain ⟨v, steps, ho, hfresh⟩ := enclose_eq job s rest
  have hopen : opened? job s rest node = some (v, steps) := by
    rw [opened?_of_isEmptyContainer h, ho]
  have hbelow : ∀ step ∈ steps, ∀ c, v.child? step = some c →
      intoSlot job rest c = .done (Path.scaffold rest job.leaf) := by
    intro step hm c hc
    rcases child?_of_opened? ho hm hc with hold | rfl
    · cases step <;> simp [Value.child?] at hold
    · exact intoSlot_of_isEmptyContainer rfl job rest
  have hloop := alongSteps_eq_done (nodup_steps_of_opened? ho) hbelow
  rw [intoNode, enter_eq, hopen, Path.scaffold_cons, hfresh]
  exact hloop

theorem intoSlot_eq_intoNode (job : Job) (s : Segment) (rest : Path) (c : Value) :
    intoSlot job (s :: rest) c = intoNode job (s :: rest) c := by
  rw [intoSlot_cons]
  split
  · next h => rw [intoNode_of_isEmptyContainer h]
  · rfl

end Write

end PathDoc
