import PathDoc.Proofs.Targets

/-!
# PathDoc.Proofs.Leading — where a path leads, step by step

`Path.Leads` says of one location that a path leads there, with a rule for each kind of step; the
nodes that a path leads to are its targets (`Path.mem_targets_iff_leads`).  The walk of the writer goes
on only through arrays that are long enough (`Path.FitsAlong`), and every search comes to the nodes in
the order of the segments (`Path.Precedes`).
-/

namespace PathDoc

open Json

namespace Path

/-- Whether a path leads from a node along a location to a node: a name to the member of that name, any
other segment to the element at one of its positions. -/
inductive Leads : Path → Value → Location → Value → Prop where
  | here (v : Value) : Leads [] v [] v
  | member {name : String} {ms : Members} {c w : Value} {rest : Path} {place : Location}
    (hc : ms.get? name = some c) (h : Leads rest c place w) :
    Leads (.member name :: rest) (.obj ms) (.key name :: place) w
  | element {s : Segment} {items : List Value} {p : ℕ} {c w : Value} {rest : Path}
    {place : Location} (hp : p ∈ s.hits items.length) (hc : items[p]? = some c)
    (h : Leads rest c place w) : Leads (s :: rest) (.arr items) (.pos p :: place) w

/-- Whether each array on the way along a location holds all indexes that are spelled out for it. -/
def FitsAlong (path : Path) (root : Value) (place : Location) : Prop :=
  ∀ (k : ℕ) (s : Segment) (items : List Value), path[k]? = some s → k < place.length →
    root.get? (place.take k) = some (.arr items) → s.reach ≤ items.length

/-- The two locations part at an array, where the segment of the path has the position of the first one
before that of the second. -/
def Precedes (path : Path) (root : Value) (l m : Location) : Prop :=
  ∃ front p q back back' s items, l = front ++ .pos p :: back ∧ m = front ++ .pos q :: back' ∧
    path[front.length]? = some s ∧ root.get? front = some (.arr items) ∧
    [p, q].Sublist (s.hits items.length)

variable {s : Segment} {path rest : Path} {v w c : Value} {place l m : Location} {step : Step}

/-! ### the first step -/

/-- A step to a selected child leads on. -/
theorem Leads.of_mem_children (hc : (step, c) ∈ s.children v) (h : rest.Leads c place w) :
    Leads (s :: rest) v (step :: place) w := by
  obtain ⟨hm, hchild⟩ := Segment.mem_children.mp hc
  cases v with
  | arr items =>
    rw [Segment.steps_arr] at hm
    obtain ⟨p, hp, rfl⟩ := List.mem_map.mp hm
    exact .element hp hchild h
  | obj ms =>
    cases hs : s.isPositional with
    | true =>
      rw [Segment.children_obj_of_isPositional hs] at hc
      exact absurd hc List.not_mem_nil
    | false =>
      obtain ⟨name, rfl⟩ := Segment.exists_eq_member hs
      rw [Segment.steps_member_obj] at hm
      split at hm
      · obtain rfl := List.mem_singleton.mp hm
        exact .member hchild h
      · exact absurd hm List.not_mem_nil
  | _ =>
    rw [Segment.children_of_not_isContainer rfl] at hc
    exact absurd hc List.not_mem_nil

/-- **Where a path leads** are its targets. -/
theorem mem_targets_iff_leads : (place, w) ∈ path.targets v ↔ path.Leads v place w := by
  constructor
  · intro h
    induction path generalizing v place with
    | nil =>
      obtain ⟨rfl, rfl⟩ := Prod.mk.inj (List.mem_singleton.mp h)
      exact .here _
    | cons s rest ih =>
      obtain ⟨⟨step, c⟩, hc, ⟨place, w⟩, hu, he⟩ := mem_targets_cons.mp h
      obtain ⟨rfl, rfl⟩ := Prod.mk.inj he
      exact .of_mem_children hc (ih hu)
  · intro h
    induction h with
    | here => exact List.mem_singleton.mpr rfl
    | @member name ms c w rest place hc _ ih =>
      refine mem_targets_cons.mpr ⟨(.key name, c), ?_, (place, w), ih, rfl⟩
      rw [Segment.children_member_obj, hc]
      exact List.mem_singleton.mpr rfl
    | @element s items p c w rest place hp hc _ ih =>
      refine mem_targets_cons.mpr ⟨(.pos p, c), ?_, (place, w), ih, rfl⟩
      rw [Segment.mem_children, Segment.steps_arr]
      exact ⟨List.mem_map_of_mem hp, hc⟩

theorem Leads.get? (h : path.Leads v place w) : v.get? place = some w :=
  get?_of_mem_targets (mem_targets_iff_leads.mpr h)

theorem Leads.length_eq (h : path.Leads v place w) : place.length = path.length := by
  induction h with
  | here v => rfl
  | member _ _ ih => rw [List.length_cons, List.length_cons, ih]
  | element _ _ _ ih => rw [List.length_cons, List.length_cons, ih]

theorem fitsAlong_cons (hc : v.child? step = some c) :
    FitsAlong (s :: rest) v (step :: place) ↔
      (∀ items, v = .arr items → s.reach ≤ items.length) ∧ rest.FitsAlong c place := by
  have hget : ∀ k, v.get? ((step :: place).take (k + 1)) = c.get? (place.take k) := by
    intro k
    rw [List.take_succ_cons, Value.get?_cons, hc, Option.bind_some]
  constructor
  · intro h
    refine ⟨fun items hv => ?_, fun k t items hk hlt hitems => ?_⟩
    · refine h 0 s items rfl (Nat.succ_pos _) ?_
      rw [List.take_zero, Value.get?_nil, hv]
    · refine h (k + 1) t items hk (Nat.succ_lt_succ hlt) ?_
      rw [hget, hitems]
  · rintro ⟨hfirst, hrest⟩ k t items hk hlt hitems
    cases k with
    | zero =>
      obtain rfl := Option.some.inj hk
      rw [List.take_zero, Value.get?_nil] at hitems
      exact hfirst items (Option.some.inj hitems)
    | succ k =>
      rw [hget] at hitems
      exact hrest k t items hk (Nat.lt_of_succ_lt_succ hlt) hitems

/-- The segments past the end of a location do not count. -/
theorem fitsAlong_append (hlen : place.length ≤ path.length) :
    FitsAlong (path ++ rest) v place ↔ path.FitsAlong v place := by
  refine forall_congr' fun k => forall_congr' fun s => forall_congr' fun items => ?_
  constructor
  · intro h hk hlt
    exact h ((List.getElem?_append_left (hlt.trans_le hlen)).trans hk) hlt
  · intro h hk hlt
    exact h ((List.getElem?_append_left (hlt.trans_le hlen)).symm.trans hk) hlt

theorem Precedes.append (h : path.Precedes v l m) (rest : Path) :
    Precedes (path ++ rest) v l m := by
  obtain ⟨front, p, q, back, back', s, items, hl, hm, hs, hget, hpq⟩ := h
  obtain ⟨hlt, -⟩ := List.getElem?_eq_some_iff.mp hs
  exact ⟨front, p, q, back, back', s, items, hl, hm,
    (List.getElem?_append_left hlt).trans hs, hget, hpq⟩

/-- Below one child the order is that of the rest of the path. -/
theorem Precedes.cons (hc : v.child? step = some c) (h : rest.Precedes c l m) :
    Precedes (s :: rest) v (step :: l) (step :: m) := by
  obtain ⟨front, p, q, back, back', t, items, rfl, rfl, ht, hget, hpq⟩ := h
  refine ⟨step :: front, p, q, back, back', t, items, rfl, rfl, ht, ?_, hpq⟩
  rw [Value.get?_cons, hc, Option.bind_some, hget]

/-- Different children of a node come in the order of the segment. -/
theorem pairwise_children (s : Segment) (rest : Path) (v : Value) :
    (s.children v).Pairwise fun c d => ∀ l m : Location,
      Precedes (s :: rest) v (c.1 :: l) (d.1 :: m) := by
  cases v with
  | arr items =>
    have hsteps : (s.steps (.arr items)).Pairwise fun c d => ∀ l m : Location,
        Precedes (s :: rest) (.arr items) (c :: l) (d :: m) := by
      rw [Segment.steps_arr, List.pairwise_map, List.pairwise_iff_forall_sublist]
      intro p q hpq l m
      exact ⟨[], p, q, l, m, s, items, rfl, rfl, rfl, Value.get?_nil _, hpq⟩
    exact List.pairwise_map.mp hsteps
  | obj ms =>
    -- an object has at most the one member
    cases hs : s.isPositional with
    | true =>
      rw [Segment.children_obj_of_isPositional hs]
      exact List.Pairwise.nil
    | false =>
      obtain ⟨name, rfl⟩ := Segment.exists_eq_member hs
      rw [Segment.children_member_obj]
      cases Members.get? ms name with
      | none => exact List.Pairwise.nil
      | some c => exact List.pairwise_singleton _ _
  | _ =>
    rw [Segment.children_of_not_isContainer rfl]
    exact List.Pairwise.nil

/-- **The targets come in the order of the segments.** -/
theorem pairwise_precedes_targets (path : Path) (v : Value) :
    (path.targets v).Pairwise fun t u => path.Precedes v t.1 u.1 := by
  induction path generalizing v with
  | nil => exact List.pairwise_singleton _ _
  | cons s rest ih =>
    rw [targets_cons, List.pairwise_flatMap]
    constructor
    · intro c hc
      rw [List.pairwise_map]
      exact (ih c.2).imp fun h => h.cons (Segment.child?_of_mem_children hc)
    · refine (pairwise_children s rest v).imp fun {c d} hcd t ht u hu => ?_
      obtain ⟨t, -, rfl⟩ := List.mem_map.mp ht
      obtain ⟨u, -, rfl⟩ := List.mem_map.mp hu
      exact hcd t.1 u.1

end Path

end PathDoc
