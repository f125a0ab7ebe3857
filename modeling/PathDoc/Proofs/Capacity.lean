import PathDoc.Proofs.Drafts
import PathDoc.Proofs.Induction

/-!
# PathDoc.Proofs.Capacity — how long a write makes an array

A write gives an array room for a segment before it resolves the indexes.  The check for excessive
indexes looks at what the segment spells out and so does not see where an open span ends: one past
the last element, and further out by as much as its start lies before zero.  `Segment.overflows`
says for which lengths that end is past `arrayLimit`, and `length_makeRoom_le_iff` that this is the
only way past it.  `Write.Capped` is the same bound for all arrays of a document, whatever ends the
write; only where the write goes (`Path.Aims`) is there a leaf or an array that is too long.
-/

namespace PathDoc

open Json

namespace Segment

open Index

variable {s : Segment} {n : ℕ} {start : Int} {items : List Value}

/-! ### one array -/

/-- Whether the segment, although it spells out no excessive index, makes an array of length `n` grow
past `arrayLimit`: an open span, whose end is the old length. -/
def overflows : Segment → ℕ → Bool
  | span start none, n => !isExcessive start && decide (arrayLimit ≤ n + (-start).toNat)
  | _, _ => false

theorem overflows_iff : s.overflows n = true ↔ ∃ start, s = span start none ∧
    Index.reach start ≤ arrayLimit ∧ arrayLimit ≤ n + (-start).toNat := by
  cases s with
  | span start stop => cases stop <;> simp [overflows, isExcessive]
  | _ => simp [overflows]

theorem excess?_of_overflows (h : s.overflows n = true) : s.excess? = none := by
  obtain ⟨start, rfl, hreach, -⟩ := overflows_iff.mp h
  simp [excess?, spelled, isExcessive, hreach]

theorem excess?_span_eq_none_iff {a b : Int} : (span a (some b)).excess? = none ↔
    Index.reach a ≤ arrayLimit ∧ Index.reach b ≤ arrayLimit ∧ (a - b).natAbs < arrayLimit := by
  simp only [excess?, isExcessive, decide_eq_true_eq, Bool.or_eq_true]
  split_ifs <;> simp_all
  omega

/-- A segment that is no open span asks for no more than `arrayLimit`, unless it spells out an
excessive index or too wide a span. -/
theorem demand_le_of_closed (hx : s.excess? = none) (hc : s.isOpen = false) (n : ℕ) :
    s.demand n ≤ arrayLimit := by
  have spelled {is : List Int} (h : is.find? isExcessive = none) :
      ∀ i ∈ is, Index.reach i ≤ arrayLimit := fun i hi => by
    simpa [isExcessive] using List.find?_eq_none.mp h i hi
  refine demand_le_iff.mpr ?_
  cases s with
  | member name => exact ⟨spelled hx, fun hs => absurd hs Bool.false_ne_true⟩
  | index i => exact ⟨spelled hx, fun hs => absurd hs Bool.false_ne_true⟩
  | indexes is => exact ⟨spelled hx, fun hs => absurd hs Bool.false_ne_true⟩
  | span start stop =>
    cases stop with
    | none => simp [isOpen] at hc
    | some stop =>
      obtain ⟨hstart, hstop, hwide⟩ := excess?_span_eq_none_iff.mp hx
      refine ⟨fun i hi => (reach_le_of_mem_walk hi).trans (max_le hstart hstop), fun _ => ?_⟩
      show (walk start stop).length ≤ arrayLimit
      rw [length_walk]
      exact hwide

/-- The length of an array that an open span has made too long. -/
theorem grown_of_overflows (h : (span start none).overflows n = true) :
    (span start none).grown n = n + (-start).toNat + 1 := by
  obtain ⟨start', heq, hreach, hlong⟩ := overflows_iff.mp h
  obtain rfl : start = start' := (Segment.span.inj heq).1
  have hg := grown_open start n
  unfold Index.reach at hreach
  split_ifs at hg hreach <;> omega

/-- **The limit of one array**: room past it, and past the old length, is made exactly by an open span
that overflows. -/
theorem grown_le_iff (hx : s.excess? = none) :
    s.grown n ≤ max n arrayLimit ↔ s.overflows n = false := by
  cases ho : s.overflows n with
  | true =>
    obtain ⟨start, rfl, -, hlong⟩ := overflows_iff.mp ho
    have hg := grown_of_overflows ho
    refine iff_of_false (fun hle => ?_) (by simp)
    have hlt : max n arrayLimit < n + (-start).toNat + 1 := max_lt (by omega) (by omega)
    omega
  | false =>
    refine iff_of_true ?_ rfl
    cases hc : s.isOpen with
    | false =>
      have hd := demand_le_of_closed hx hc n
      exact max_le (le_max_left _ _) (hd.trans (le_max_right _ _))
    | true =>
      obtain ⟨start, rfl⟩ := isOpen_iff.mp hc
      have hg := grown_open start n
      have hreach : Index.reach start ≤ arrayLimit := by
        simpa [excess?, spelled, isExcessive] using hx
      have hshort : n + (-start).toNat < arrayLimit := by
        simpa [overflows, isExcessive, hreach] using ho
      unfold Index.reach at hreach
      split_ifs at hg hreach <;> omega

theorem length_makeRoom_le_iff (s : Segment) (items : List Value) :
    (s.makeRoom items).length ≤ max items.length arrayLimit ↔ s.overflows items.length = false := by
  cases hx : s.excess? with
  | none =>
    rw [length_makeRoom hx]
    exact grown_le_iff hx
  | some i =>
    refine iff_of_true ?_ ?_
    · rw [makeRoom, hx]
      exact le_max_left _ _
    · rw [← Bool.not_eq_true]
      intro ho
      rw [excess?_of_overflows ho] at hx
      simp at hx

theorem length_makeRoom_of_overflows (h : (span start none).overflows items.length = true) :
    ((span start none).makeRoom items).length = items.length + (-start).toNat + 1 := by
  rw [length_makeRoom (excess?_of_overflows h)]
  exact grown_of_overflows h

end Segment

/-! ### all arrays of a document -/

/-- The length of the array at a location, and zero where there is none. -/
def Json.Value.lengthAt (v : Value) (l : Location) : ℕ :=
  match v.get? l with
  | some (.arr items) => items.length
  | _ => 0

namespace Json.Value

variable {v : Value} {l : Location} {items : List Value}

theorem lengthAt_of_get? (h : v.get? l = some (.arr items)) : v.lengthAt l = items.length := by
  rw [lengthAt, h]

@[simp] theorem lengthAt_arr_nil (items : List Value) : (arr items).lengthAt [] = items.length :=
  lengthAt_of_get? (get?_nil _)

/-- Where there is no child there is no array either, as below an empty object. -/
theorem lengthAt_cons (v : Value) (step : Step) (l : Location) :
    v.lengthAt (step :: l) = (v.slot step).lengthAt l := by
  cases hc : v.child? step with
  | some c =>
    rw [slot_of_child? hc, lengthAt, get?_cons, hc]
    rfl
  | none =>
    rw [slot_of_child?_eq_none hc, lengthAt, get?_cons, hc]
    cases l with
    | nil => rfl
    | cons next l =>
      rw [lengthAt, get?_cons]
      cases next <;> rfl

end Json.Value

/-! ### where a write goes -/

namespace Segment

/-- The steps that a write takes from a node: to the member of a name, else to the slots in the array
that the node is, or in an empty one. -/
def aims : Segment → Value → List Step
  | member name, _ => [.key name]
  | s, v => (s.slots (v.lengthAt [])).map .pos

variable {s : Segment} {v : Value}

theorem aims_of_isPositional (hs : s.isPositional = true) (v : Value) :
    s.aims v = (s.slots (v.lengthAt [])).map .pos := by
  cases s <;> first | rfl | simp [isPositional] at hs

/-- Where a segment fits, a write goes to all that a reader finds. -/
theorem steps_subset_aims (hx : s.excess? = none) (h : s.fits v = true) : s.steps v ⊆ s.aims v := by
  cases hs : s.isPositional with
  | true =>
    obtain ⟨items, rfl, hreach⟩ := (fits_iff hs).mp h
    rw [steps_arr, aims_of_isPositional hs, Value.lengthAt_arr_nil]
    exact List.map_subset _ (hits_subset_slots hx hreach)
  | false =>
    obtain ⟨name, rfl⟩ := exists_eq_member hs
    cases v with
    | obj ms =>
      rw [steps_member_obj]
      split
      · exact List.Subset.refl _
      · exact List.nil_subset _
    | _ => simp [fits] at h

end Segment

/-- Whether a write of the path goes along the location, from a node of the old document.  Below a
new child it goes on from an empty object.  A reader of the new document may be led to fewer elements:
where an open span has lengthened an array, it ends elsewhere by then. -/
inductive Path.Aims : Path → Value → Location → Prop where
  | here (v : Value) : Aims [] v []
  | step {s : Segment} {rest : Path} {v : Value} {step : Step} {l : Location} (hs : step ∈ s.aims v)
    (h : Aims rest (v.slot step) l) : Aims (s :: rest) v (step :: l)

namespace Write

variable {job : Job} {s : Segment} {path rest : Path} {steps : List Step}
  {leaf old new node v c : Value} {step : Step}

/-- Every array of the new document is at most as long as the one that was there before, or as
`arrayLimit`; or it lies in a leaf that has been written where the path goes; or the path goes to it,
and on with an open span that has made it too long. -/
def Capped (leaf : Value) (path : Path) (old new : Value) : Prop :=
  ∀ l items, new.get? l = some (.arr items) →
    items.length ≤ max (old.lengthAt l) arrayLimit ∨
    (path.length ≤ l.length ∧ path.Aims old (l.take path.length) ∧
      new.get? (l.take path.length) = some leaf) ∨
    ∃ start, path[l.length]? = some (.span start none) ∧ Path.Aims (path.take l.length) old l ∧
      (Segment.span start none).overflows (old.lengthAt l) = true ∧
      items.length = old.lengthAt l + (-start).toNat + 1

theorem Capped.refl (leaf : Value) (path : Path) (v : Value) : Capped leaf path v v :=
  fun _ _ h => .inl ((Value.lengthAt_of_get? h).symm.le.trans (le_max_left _ _))

theorem capped_nil (old : Value) : Capped leaf [] old leaf :=
  fun _ _ _ => .inr (.inl ⟨Nat.zero_le _, .here old, Value.get?_nil _⟩)

/-- A node is capped if it is itself no longer than a segment makes it and each of its children stays,
or is capped for the rest of the path where a write goes on. -/
theorem capped_cons
    (hnode : ∀ items, new = .arr items → items.length ≤ old.lengthAt [] ∨
      s.excess? = none ∧ items.length = s.grown (old.lengthAt []))
    (hchild : ∀ step d, new.child? step = some d → d = old.slot step ∨
      step ∈ s.aims old ∧ Capped leaf rest (old.slot step) d) : Capped leaf (s :: rest) old new := by
  intro l items hl
  cases l with
  | nil =>
    rw [Value.get?_nil, Option.some.injEq] at hl
    rcases hnode items hl with hle | ⟨hx, hlen⟩
    · exact .inl (hle.trans (le_max_left _ _))
    · cases ho : s.overflows (old.lengthAt []) with
      | false => exact .inl (hlen ▸ (Segment.grown_le_iff hx).mpr ho)
      | true =>
        obtain ⟨start, rfl, -⟩ := Segment.overflows_iff.mp ho
        exact .inr (.inr ⟨start, rfl, .here old, ho, hlen.trans (Segment.grown_of_overflows ho)⟩)
  | cons step l =>
    rw [Value.get?_cons] at hl
    obtain ⟨d, hd, hitems⟩ := Option.bind_eq_some_iff.mp hl
    rw [Value.lengthAt_cons]
    rcases hchild step d hd with rfl | ⟨hm, hcapped⟩
    · rw [Value.lengthAt_of_get? hitems]
      exact .inl (le_max_left _ _)
    · rcases hcapped l items hitems with hle | ⟨hlong, haims, hleaf⟩ |
        ⟨start, hs, haims, hover, hlen⟩
      · exact .inl hle
      · refine .inr (.inl ⟨Nat.succ_le_succ hlong, .step hm haims, ?_⟩)
        rw [List.length_cons, List.take_succ_cons, Value.get?_cons, hd, Option.bind_some, hleaf]
      · exact .inr (.inr ⟨start, hs, .step hm haims, hover, hlen⟩)

/-! ### one write -/

/-- The room that is made depends on the array that the node was. -/
theorem lengthAt_of_itemsOf? {coerce : Bool} {items : List Value}
    (h : itemsOf? coerce node = some items) : node.lengthAt [] = items.length := by
  cases node with
  | arr xs => rw [Value.lengthAt_arr_nil, Option.some.inj h]
  | _ =>
    simp only [itemsOf?, Option.ite_none_right_eq_some, Option.some.injEq] at h
    rw [← h.2]
    rfl

theorem subset_aims_of_opened? (ho : opened? job s rest node = some (v, steps)) :
    steps ⊆ s.aims node := by
  rcases opened?_cases ho with ⟨items, hs, hi, -, rfl⟩ | ⟨name, ms, d, rfl, -, -, -, rfl⟩ |
    ⟨name, ms, -, -, -, -, rfl⟩
  · rw [Segment.aims_of_isPositional hs, lengthAt_of_itemsOf? hi]
    exact List.Subset.refl _
  · exact List.Subset.refl _
  · exact List.nil_subset _

/-- The array that an opened node is has been given room for the segment. -/
theorem length_of_opened? {items : List Value} (hx : s.excess? = none)
    (ho : opened? job s rest node = some (.arr items, steps)) :
    items.length = s.grown (node.lengthAt []) := by
  rcases opened?_cases ho with ⟨items', -, hi, he, -⟩ | ⟨name, ms, d, -, -, -, he, -⟩ |
    ⟨name, ms, -, -, -, he, -⟩
  · obtain rfl := Value.arr.inj he
    rw [Segment.length_makeRoom hx, lengthAt_of_itemsOf? hi, Segment.grown]
  · simp at he
  · simp at he

/-- A loop over a node with room leaves a capped one, if the writer below does. -/
theorem capped_alongSteps {below : Value → Outcome Value} (hn : steps.Nodup)
    (haims : steps ⊆ s.aims node)
    (hnode : ∀ items, v = .arr items → items.length ≤ node.lengthAt [] ∨
      s.excess? = none ∧ items.length = s.grown (node.lengthAt []))
    (hchild : ∀ step c, v.child? step = some c → c = node.slot step ∨
      step ∉ steps ∧ step ∈ s.aims node ∧ Capped leaf rest (node.slot step) c)
    (hb : ∀ step ∈ steps, Capped leaf rest (node.slot step)
      (below (node.slot step)).result) :
    Capped leaf (s :: rest) node (alongSteps below steps v).result := by
  obtain ⟨visited, others, rfl, hr, -⟩ := exists_result_alongSteps below steps v
  have hout := outline_alongSteps below (visited ++ others) v
  refine capped_cons (fun items hitems => ?_) fun step d hd => ?_
  · rw [hitems] at hout
    obtain ⟨old, rfl, hlen⟩ := Value.outline_eq_length_iff.mp hout.symm
    rw [← hlen]
    exact hnode old rfl
  · rw [hr] at hd
    by_cases hm : step ∈ visited
    · rw [Value.child?_updateChildren_of_mem (List.nodup_append.mp hn).1 hm] at hd
      obtain ⟨c, hc, rfl⟩ := Option.map_eq_some_iff.mp hd
      have hstep : step ∈ visited ++ others := List.mem_append_left _ hm
      rcases hchild step c hc with rfl | ⟨hout, -⟩
      · exact .inr ⟨haims hstep, hb step hstep⟩
      · exact absurd hstep hout
    · rw [Value.child?_updateChildren_of_not_mem hm] at hd
      exact (hchild step d hd).imp_right And.right

/-- An opened node is capped when its loop has come to an end, and on the way there. -/
theorem capped_opened? {below : Value → Outcome Value} (hx : s.excess? = none)
    (ho : opened? job s rest node = some (v, steps))
    (hfresh : Capped leaf rest (.obj []) (Path.scaffold rest job.leaf))
    (hb : ∀ step ∈ steps, Capped leaf rest (node.slot step)
      (below (node.slot step)).result) :
    Capped leaf (s :: rest) node (alongSteps below steps v).result := by
  refine capped_alongSteps (nodup_steps_of_opened? ho) (subset_aims_of_opened? ho)
    (fun items hitems => ?_) (fun step c hc => ?_) hb
  · rw [hitems] at ho
    exact .inr ⟨hx, length_of_opened? hx ho⟩
  · rcases child?_opened? ho hc with hold | ⟨name, rfl, rfl, rfl, hnone, rfl⟩
    · exact .inl hold
    · rw [Value.slot_of_child?_eq_none hnone]
      exact .inr ⟨List.not_mem_nil, List.mem_singleton_self _, hfresh⟩

/-- Fresh containers are as long as the segments make them out of nothing. -/
theorem capped_scaffold (hx : ∀ s ∈ path, s.excess? = none) :
    Capped job.leaf path (.obj []) (Path.scaffold path job.leaf) := by
  induction path with
  | nil => exact capped_nil _
  | cons s rest ih =>
    rw [List.forall_mem_cons] at hx
    have hrest := ih hx.2
    obtain ⟨v, steps, ho, hfresh⟩ := enclose_eq job s rest
    have hn := nodup_steps_of_opened? ho
    let below (_ : Value) : Outcome Value := .done (Path.scaffold rest job.leaf)
    have hloop : alongSteps below steps v =
        .done (v.updateChildren (fun _ => Path.scaffold rest job.leaf) steps) :=
      alongSteps_eq_done hn fun _ _ _ _ => rfl
    have hempty (step : Step) : (Value.obj []).slot step = .obj [] := by cases step <;> rfl
    have hcapped : Capped job.leaf (s :: rest) (.obj []) (alongSteps below steps v).result := by
      refine capped_opened? hx.1 ho hrest fun step _ => ?_
      rw [hempty]
      exact hrest
    rw [hloop] at hcapped
    rw [Path.scaffold_cons, hfresh]
    exact hcapped

theorem capped_settle (node : Value) : Capped job.leaf [] node (settle job node).result := by
  unfold settle
  split_ifs
  all_goals first | exact capped_nil node | exact .refl _ _ node

theorem capped_descend (hne : path ≠ []) (hx : ∀ s ∈ path, s.excess? = none) (node : Value) :
    Capped job.leaf path node (descend job path node).result := by
  refine descend_induction (P := fun path node r => (∀ s ∈ path, s.excess? = none) →
    Capped job.leaf path node r.result) ?settled ?stopped ?opened ?walked hne hx node hx
  case settled => exact fun node _ => capped_settle node
  case stopped => exact fun s rest node _ _ => .refl _ _ node
  case opened =>
    intro s rest node v steps below hs ho hb hx
    rw [List.forall_mem_cons] at hx
    exact capped_opened? hs ho (capped_scaffold hx.2) fun step _ => hb _ hx.2
  case walked =>
    intro s rest node below _ hfits hb hx
    rw [List.forall_mem_cons] at hx
    refine capped_alongSteps (s.nodup_steps node) (Segment.steps_subset_aims hx.1 hfits)
      (fun items hitems => ?_) (fun step c hc => ?_) fun step _ => hb _ hx.2
    · rw [hitems]
      exact .inl (Value.lengthAt_arr_nil items).ge
    · exact .inl (Value.slot_of_child? hc).symm

/-- Elements that may be replaced are written, and the array keeps the room that it has been given. -/
theorem descend_arr {items : List Value} (hs : s.isPositional = true)
    (hset : ∀ c ∈ items, (settle job c).fault = none) :
    ∃ longer, descend job [s] (.arr items) = .done (.arr longer) ∧
      longer.length = (s.makeRoom items).length := by
  let slots := (s.slots items.length).map Step.pos
  let room := Value.arr (s.makeRoom items)
  have hdescend : descend job [s] (.arr items) = alongSteps (settle job) slots room := by
    rw [descend, if_neg (fun h => h.1 rfl), intoNode, enter_eq, opened?_of_isPositional hs]
    rfl
  have hnodup : slots.Nodup := (s.nodup_slots _).map fun i j hij => Step.pos.inj hij
  have hfault : (alongSteps (settle job) slots room).fault = none := by
    refine fault_alongSteps_eq_none hnodup fun step hm c hc => ?_
    obtain ⟨p, -, rfl⟩ := List.mem_map.mp hm
    rcases getElem?_makeRoom_cases (show (s.makeRoom items)[p]? = some c from hc) with hold | rfl
    · exact hset c (List.mem_of_getElem? hold)
    · rfl
  have hout : (alongSteps (settle job) slots room).result.outline =
      .length (s.makeRoom items).length := outline_alongSteps (settle job) slots room
  obtain ⟨longer, hlonger, hlen⟩ := Value.outline_eq_length_iff.mp hout
  refine ⟨longer, ?_, hlen⟩
  rw [hdescend, Outcome.eq_done hfault, hlonger]

/-- An open span that overflows is written all the same, if all elements may be replaced. -/
theorem write_open_span (name : String) {start : Int} {items : List Value}
    (ho : (Segment.span start none).overflows items.length = true)
    (hset : ∀ c ∈ items, (settle job c).fault = none) :
    ∃ longer, (Value.obj [(name, .arr items)]).write [.member name, .span start none] job =
        .done (.obj [(name, .arr longer)]) ∧
      longer.length = items.length + (-start).toNat + 1 := by
  have hx : firstExcess? [.member name, .span start none] = none := by
    rw [firstExcess?_eq_none_iff, List.forall_mem_cons, List.forall_mem_singleton]
    exact ⟨rfl, Segment.excess?_of_overflows ho⟩
  have hsteps : (Segment.member name).steps (.obj [(name, .arr items)]) = [.key name] := by
    simp [Segment.steps_member_obj]
  have hfits : (Segment.member name).fits (.obj [(name, .arr items)]) = true := by
    simp [Members.get?_cons]
  have hchild : (Value.obj [(name, .arr items)]).child? (.key name) = some (.arr items) :=
    if_pos rfl
  obtain ⟨longer, hdone, hlen⟩ := descend_arr (s := .span start none) rfl hset
  have hset : (Value.obj [(name, .arr items)]).setChild (.key name) (.arr longer) =
      .obj [(name, .arr longer)] := congrArg Value.obj (if_pos rfl)
  refine ⟨longer, ?_, hlen.trans (Segment.length_makeRoom_of_overflows ho)⟩
  rw [write_eq_descend hx, descend, if_pos ⟨List.cons_ne_nil _ _, hfits⟩, hsteps,
    alongSteps_cons_of_some hchild, hdone, Outcome.lift_andThen_of_fault_none rfl,
    Outcome.result_done, hset, alongSteps_nil]

end Write

theorem capped_write (root : Value) (path : Path) (job : Job) :
    Write.Capped job.leaf path root (root.write path job).result := by
  cases hx : Write.firstExcess? path with
  | some e =>
    rw [Value.write, hx]
    exact .refl _ path root
  | none =>
    rw [write_eq_descend hx]
    cases path with
    | nil => exact .refl _ [] root
    | cons s rest =>
      have hnone := Write.firstExcess?_eq_none_iff.mp hx
      exact Write.capped_descend (List.cons_ne_nil _ _) hnone root

namespace Draft

/-- **The limit on growth**, and the only way past it.  Room for a segment goes past both the old
length and `arrayLimit` exactly if the segment is an open span that overflows; it is then longer by as
much as the span adds to the array, and a write with the highest priority is not refused.  A write that
is not refused leaves every array within the larger of the two, the ones inside its leaf aside and those
to which its path goes and that such a span of the path has lengthened. -/
theorem limit_except_open_spans (s : Segment) (items : List Value) :
    ((s.makeRoom items).length ≤ max items.length arrayLimit ↔
      s.overflows items.length = false) ∧
    (s.overflows items.length = true → ∃ start, s = .span start none ∧
      (s.makeRoom items).length = items.length + (-start).toNat + 1 ∧
      ∀ (name : String) (leaf : Value), ∃ longer,
        (Value.obj [(name, .arr items)]).write [.member name, s] ⟨leaf, .high⟩ =
            .done (.obj [(name, .arr longer)]) ∧
          longer.length = items.length + (-start).toNat + 1) ∧
    ∀ (d d' : Draft) (text : String) (value : Option Value) (permission : Permission),
      d.write text value permission = .ok d' → ∃ path leaf, Path.read text = .ok path ∧
        value = some leaf ∧ Write.Capped leaf path d.root d'.root := by
  refine ⟨s.length_makeRoom_le_iff items, fun ho => ?_, fun d d' text value permission hw => ?_⟩
  · obtain ⟨start, rfl, -⟩ := Segment.overflows_iff.mp ho
    refine ⟨start, rfl, Segment.length_makeRoom_of_overflows ho, fun name leaf => ?_⟩
    refine Write.write_open_span name ho fun c _ => Write.fault_settle_eq_none_iff.mpr ?_
    cases c.isContainer <;> simp [Permission.high]
  · obtain ⟨path, leaf, hpath, hvalue, -, rfl⟩ := write_eq_ok_iff.mp hw
    exact ⟨path, leaf, hpath, hvalue, capped_write d.root path ⟨leaf, permission⟩⟩

/-- An empty array that a span from far before its front makes longer by one than the limit, and a
write that stays below it. -/
theorem limit_except_open_spans_from_nothing :
    let s := Segment.span (-1048576) none
    let d := ofValue (.obj [("a", .arr [.null])])
    let d' := ofValue (.obj [("a", .arr [.null, .obj [("b", .bool true)],
      .obj [("b", .bool true)]])])
    s.overflows 0 = true ∧ ¬ (s.makeRoom []).length ≤ max 0 arrayLimit ∧
      (s.makeRoom []).length = arrayLimit + 1 ∧
      d.write "a[2:].b" (some (.bool true)) .normal = .ok d' ∧
      ∃ path leaf, Path.read "a[2:].b" = .ok path ∧ some (.bool true) = some leaf ∧
        Write.Capped leaf path d.root d'.root := by
  intro s d d'
  have ho : s.overflows 0 = true := by decide
  have hw : d.write "a[2:].b" (some (.bool true)) .normal = .ok d' := by rfl
  obtain ⟨hiff, hover, hwrite⟩ := limit_except_open_spans s []
  obtain ⟨start, hs, hlen, -⟩ := hover ho
  obtain rfl : -1048576 = start := (Segment.span.inj hs).1
  have hadd : ([] : List Value).length + (-(-1048576 : Int)).toNat + 1 = arrayLimit + 1 := by decide
  refine ⟨ho, fun hle => ?_, hlen.trans hadd, hw, hwrite d d' _ _ _ hw⟩
  have hnot : s.overflows 0 = false := hiff.mp hle
  rw [ho] at hnot
  exact absurd hnot.symm Bool.false_ne_true

/-- A full array of nulls is made longer by an open span at its last element. -/
theorem full_array_grows :
    let row := List.replicate arrayLimit Value.null
    let d := ofValue (.obj [("a", .arr row)])
    max row.length arrayLimit < ((Segment.span 1048575 none).makeRoom row).length ∧
      ∃ longer, d.put "a[1048575:]" (some (.num (.int 1))) =
          .ok (ofValue (.obj [("a", .arr longer)])) ∧
        max row.length arrayLimit < longer.length := by
  intro row d
  have hrow : row.length = arrayLimit := List.length_replicate
  have hnull : ∀ c ∈ row, c = .null := fun c hc => List.eq_of_mem_replicate hc
  clear_value row
  have ho : (Segment.span 1048575 none).overflows row.length = true := by
    rw [hrow]
    decide
  have hpath : Path.read "a[1048575:]" = .ok [.member "a", .span 1048575 none] := by rfl
  let job : Job := ⟨.num (.int 1), .normal⟩
  have hset : ∀ c ∈ row, (Write.settle job c).fault = none := fun c hc => by
    rw [hnull c hc]
    rfl
  obtain ⟨longer, hw, hlen⟩ := Write.write_open_span "a" ho hset
  have hput : d.root.write [.member "a", .span 1048575 none] job =
      .done (.obj [("a", .arr longer)]) := hw
  have hok : d.write "a[1048575:]" (some (.num (.int 1))) .normal =
      .ok (ofValue (.obj [("a", .arr longer)])) := by
    refine write_eq_ok_iff.mpr ⟨_, _, hpath, rfl, ?_, ?_⟩
    · rw [hput]
      rfl
    · rw [hput]
      rfl
  refine ⟨?_, longer, hok, ?_⟩
  · rw [Segment.length_makeRoom_of_overflows ho, hrow]
    decide
  · rw [hlen, hrow]
    decide

end Draft

end PathDoc
