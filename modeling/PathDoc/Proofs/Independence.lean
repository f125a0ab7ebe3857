import PathDoc.Proofs.Drafts
import PathDoc.Proofs.OneStep
import PathDoc.Session

/-!
# PathDoc.Proofs.Independence — writes at places that part

Two writes at places that part go the same way up to some node and take different steps there, so
neither sees what the other one does (`Write.Independent`): in either order each of them meets the same
fault or none, and what they leave is equal up to the order of members.
-/

namespace PathDoc

open Json

namespace Write

variable {node v w : Value} {a b : Step}

/-! ### two writes -/

/-- Whether two writers of a node do not disturb each other: neither meets another fault after the other
one has come to its end, and what the two leave together does not depend on their order. -/
structure Independent (f g : Value → Outcome Value) (node : Value) : Prop where
  fault_right : (f node).fault = none → (g (f node).result).fault = (g node).fault
  fault_left : (g node).fault = none → (f (g node).result).fault = (f node).fault
  beq : (f node).fault = none → (g node).fault = none →
    ((g (f node).result).result == (f (g node).result).result) = true

variable {coerce : Bool} {f g : Value → Outcome Value}

theorem oneStep_of_prepare? (h : prepare? coerce a.segment node = some v)
    (f : Value → Outcome Value) :
    oneStep coerce a f node = (f (v.slot a)).lift [a] (v.putChild a) := by
  rw [oneStep, h]

theorem fault_oneStep_of_none (h : prepare? coerce a.segment node = none)
    (f : Value → Outcome Value) : (oneStep coerce a f node).fault ≠ none := by
  rw [oneStep, h]
  exact Option.some_ne_none _

theorem fault_oneStep_eq_none_iff (h : prepare? coerce a.segment node = some v) :
    (oneStep coerce a f node).fault = none ↔ (f (v.slot a)).fault = none := by
  rw [oneStep_of_prepare? h, Outcome.fault_lift, Option.map_eq_none_iff]

/-- The write of the first step, seen by a second one there. -/
theorem oneStep_oneStep_self (h : prepare? coerce a.segment node = some v) (w : Value) :
    oneStep coerce a g (v.putChild a w) = (g w).lift [a] (v.putChild a) := by
  have hslot : (v.putChild a w).slot a = w := Value.slot_putChild_self (suits_of_prepare? h)
  have hput : (v.putChild a w).putChild a = v.putChild a :=
    funext fun u => Value.putChild_putChild v a w u
  rw [oneStep_of_prepare? (prepare?_putChild h w rfl), hslot, hput]

/-- The write of another step, seen by a second one. -/
theorem oneStep_oneStep_ne (h : prepare? coerce a.segment node = some v) (hk : a.isPos = b.isPos)
    (hne : a ≠ b) (w : Value) : oneStep coerce b g (v.putChild a w) =
      (g (v.slot b)).lift [b] ((v.putChild a w).putChild b) := by
  rw [oneStep_of_prepare? (prepare?_putChild h w hk), Value.slot_putChild_ne hne]

/-- Writers below one child that do not disturb each other do not do so from its parent on. -/
theorem Independent.oneStep (hnode : node.WellFormed)
    (h : ∀ c, c.WellFormed → Independent f g c) :
    Independent (oneStep coerce a f) (oneStep coerce a g) node := by
  cases hp : prepare? coerce a.segment node with
  | none =>
    have hf := fault_oneStep_of_none hp f
    have hg := fault_oneStep_of_none hp g
    exact ⟨fun h => absurd h hf, fun h => absurd h hg, fun h => absurd h hf⟩
  | some v =>
    have hv := wellFormed_of_prepare? hnode hp
    have hbelow := h (v.slot a) (Value.wellFormed_slot hv a)
    constructor
    · intro hf
      rw [fault_oneStep_eq_none_iff hp] at hf
      rw [oneStep_of_prepare? hp f, oneStep_of_prepare? hp g, Outcome.result_lift,
        oneStep_oneStep_self hp, Outcome.fault_lift, Outcome.fault_lift, hbelow.fault_right hf]
    · intro hg
      rw [fault_oneStep_eq_none_iff hp] at hg
      rw [oneStep_of_prepare? hp f, oneStep_of_prepare? hp g, Outcome.result_lift,
        oneStep_oneStep_self hp, Outcome.fault_lift, Outcome.fault_lift, hbelow.fault_left hg]
    · intro hf hg
      rw [fault_oneStep_eq_none_iff hp] at hf hg
      rw [oneStep_of_prepare? hp f, oneStep_of_prepare? hp g, Outcome.result_lift,
        Outcome.result_lift, oneStep_oneStep_self hp, oneStep_oneStep_self hp, Outcome.result_lift,
        Outcome.result_lift]
      exact Value.putChild_beq hv (suits_of_prepare? hp) (hbelow.beq hf hg)

/-- Writers below different children do not disturb each other. -/
theorem independent_oneStep_of_ne (hnode : node.WellFormed) (hk : a.isPos = b.isPos) (hne : a ≠ b)
    (hwf : ∀ c, c.WellFormed → (f c).result.WellFormed)
    (hwg : ∀ c, c.WellFormed → (g c).result.WellFormed) :
    Independent (oneStep coerce a f) (oneStep coerce b g) node := by
  have hkind : b.segment.isPositional = a.segment.isPositional := by
    rw [Step.isPositional_segment, Step.isPositional_segment, hk]
  cases hp : prepare? coerce a.segment node with
  | none =>
    have hf := fault_oneStep_of_none hp f
    have hg := fault_oneStep_of_none ((prepare?_congr hkind coerce node).trans hp) g
    exact ⟨fun h => absurd h hf, fun h => absurd h hg, fun h => absurd h hf⟩
  | some v =>
    have hq : prepare? coerce b.segment node = some v := (prepare?_congr hkind coerce node).trans hp
    have hv := wellFormed_of_prepare? hnode hp
    constructor
    · intro _
      rw [oneStep_of_prepare? hp f, oneStep_of_prepare? hq g, Outcome.result_lift,
        oneStep_oneStep_ne hp hk hne, Outcome.fault_lift, Outcome.fault_lift]
    · intro _
      rw [oneStep_of_prepare? hp f, oneStep_of_prepare? hq g, Outcome.result_lift,
        oneStep_oneStep_ne hq hk.symm hne.symm, Outcome.fault_lift, Outcome.fault_lift]
    · intro _ _
      rw [oneStep_of_prepare? hp f, oneStep_of_prepare? hq g, Outcome.result_lift,
        Outcome.result_lift, oneStep_oneStep_ne hp hk hne, oneStep_oneStep_ne hq hk.symm hne.symm,
        Outcome.result_lift, Outcome.result_lift]
      exact Value.putChild_comm hv (hwf _ (Value.wellFormed_slot hv a))
        (hwg _ (Value.wellFormed_slot hv b)) (suits_of_prepare? hp) hk hne

/-! ### the paths -/

variable {leaf leaf' root : Value} {permission : Permission} {pre l m : Location}

theorem wellFormed_intoSlot (hleaf : leaf.WellFormed) (hx : ∀ s ∈ l.path, s.excess? = none)
    (c : Value) (hc : c.WellFormed) : (intoSlot ⟨leaf, permission⟩ l.path c).result.WellFormed := by
  cases l with
  | nil => exact wellFormed_settle hleaf hc
  | cons step l =>
    have hstraight : ∀ s ∈ Location.path (step :: l), s.isStraight = true := fun s hs =>
      Location.isStraight_of_mem_path hs
    rw [Location.path_cons, intoSlot_eq_intoNode, ← Location.path_cons,
      ← write_eq_intoNode (firstExcess?_eq_none_iff.mpr hx) hstraight]
    exact wellFormed_write hc hleaf _

/-- Along the steps that two places share the writes go the same way, and where the places part they
take different steps. -/
theorem independent_intoNode (hleaf : leaf.WellFormed) (hleaf' : leaf'.WellFormed)
    (hk : a.isPos = b.isPos) (hne : a ≠ b)
    (hx : ∀ s ∈ Location.path (pre ++ a :: l), s.excess? = none)
    (hx' : ∀ s ∈ Location.path (pre ++ b :: m), s.excess? = none) (hnode : node.WellFormed) :
    Independent (intoNode ⟨leaf, permission⟩ (Location.path (pre ++ a :: l)))
      (intoNode ⟨leaf', permission⟩ (Location.path (pre ++ b :: m))) node := by
  induction pre generalizing node with
  | nil =>
    rw [List.nil_append, Location.path_cons, List.forall_mem_cons] at hx hx'
    have hf := funext (intoNode_eq_oneStep hx.1 ⟨leaf, permission⟩ (Location.path l))
    have hg := funext (intoNode_eq_oneStep hx'.1 ⟨leaf', permission⟩ (Location.path m))
    rw [List.nil_append, List.nil_append, Location.path_cons, Location.path_cons, hf, hg]
    exact independent_oneStep_of_ne hnode hk hne (wellFormed_intoSlot hleaf hx.2)
      (wellFormed_intoSlot hleaf' hx'.2)
  | cons step pre ih =>
    rw [List.cons_append, Location.path_cons, List.forall_mem_cons] at hx hx'
    have hf := funext (intoNode_eq_oneStep hx.1 ⟨leaf, permission⟩ (Location.path (pre ++ a :: l)))
    have hg := funext
      (intoNode_eq_oneStep hx.1 ⟨leaf', permission⟩ (Location.path (pre ++ b :: m)))
    have hslot (job : Job) (c : Step) (n : Location) :
        intoSlot job (Location.path (pre ++ c :: n)) = intoNode job (Location.path (pre ++ c :: n)) := by
      funext v
      cases pre <;> exact intoSlot_eq_intoNode job _ _ v
    rw [List.cons_append, List.cons_append, Location.path_cons, Location.path_cons, hf, hg, hslot,
      hslot]
    exact Independent.oneStep hnode fun c hc => ih hx.2 hx'.2 hc

end Write

/-- **Writes at places that part** do not disturb each other. -/
theorem independent_write {leaf leaf' root : Value} {permission : Permission} {pre l m : Location}
    {a b : Step} (hroot : root.WellFormed) (hleaf : leaf.WellFormed) (hleaf' : leaf'.WellFormed)
    (hk : a.isPos = b.isPos) (hne : a ≠ b) :
    Write.Independent (fun v => v.write (Location.path (pre ++ a :: l)) ⟨leaf, permission⟩)
      (fun v => v.write (Location.path (pre ++ b :: m)) ⟨leaf', permission⟩) root := by
  have hlong {path : Path} {e : Path × Int} (h : Write.firstExcess? path = some e) (job : Job)
      (v : Value) : (v.write path job).fault = some (.tooLong e.1 e.2) := by
    rw [Value.write, h]
  cases hx : Write.firstExcess? (Location.path (pre ++ a :: l)) with
  | some e =>
    have hf := hlong hx ⟨leaf, permission⟩
    exact ⟨fun h => absurd ((hf root).symm.trans h) (Option.some_ne_none _),
      fun _ => (hf _).trans (hf root).symm,
      fun h => absurd ((hf root).symm.trans h) (Option.some_ne_none _)⟩
  | none =>
    cases hx' : Write.firstExcess? (Location.path (pre ++ b :: m)) with
    | some e =>
      have hg := hlong hx' ⟨leaf', permission⟩
      exact ⟨fun _ => (hg _).trans (hg root).symm,
        fun h => absurd ((hg root).symm.trans h) (Option.some_ne_none _),
        fun _ h => absurd ((hg root).symm.trans h) (Option.some_ne_none _)⟩
    | none =>
      have hstraight : ∀ l : Location, ∀ s ∈ l.path, s.isStraight = true := fun l s hs =>
        Location.isStraight_of_mem_path hs
      simp only [write_eq_intoNode hx (hstraight _), write_eq_intoNode hx' (hstraight _)]
      exact Write.independent_intoNode hleaf hleaf' hk hne (Write.firstExcess?_eq_none_iff.mp hx)
        (Write.firstExcess?_eq_none_iff.mp hx') hroot

/-! ### sessions -/

theorem Draft.beq_of_roots {v w : Value} (h : (v == w) = true) (options : Options) :
    (Draft.mk v options == Draft.mk w options) = true := by
  show (v == w && options == options) = true
  rw [h, beq_self_eq_true]
  rfl

namespace Session

variable {s : Session} {text : String} {leaf : Value} {path : Path} {r : Outcome Value}

/-- The session after a write of its document: a fault leaves it as it was. -/
def takeOver (s : Session) (text : String) (leaf : Value) (r : Outcome Value) : Reply × Session :=
  match r.fault with
  | none => (.done, { s with draft := { s.draft with root := r.result } })
  | some fault => (.refused ⟨text, fault.cause leaf⟩, s)

theorem takeOver_of_none (h : r.fault = none) : s.takeOver text leaf r =
    (.done, { s with draft := { s.draft with root := r.result } }) := by
  rw [takeOver, h]

theorem takeOver_of_some {fault : Fault} (h : r.fault = some fault) :
    s.takeOver text leaf r = (.refused ⟨text, fault.cause leaf⟩, s) := by
  rw [takeOver, h]

theorem answer_put_of_read (hpath : Path.read text = .ok path) (priority : Option Priority) :
    s.answer (.put text (some leaf) priority) = s.takeOver text leaf
      (s.draft.root.write path ⟨leaf, (priority.getD s.draft.options.priority).permission⟩) := by
  have hwrite (p : Priority) : s.commit (s.draft.putWith text (some leaf) p) =
      s.takeOver text leaf (s.draft.root.write path ⟨leaf, p.permission⟩) := by
    simp only [Draft.putWith, Draft.write, hpath, takeOver]
    cases (s.draft.root.write path ⟨leaf, p.permission⟩).fault <;> rfl
  cases priority with
  | none => exact hwrite s.draft.options.priority
  | some p => exact hwrite p

/-- Writers that do not disturb each other get the same replies in either order. -/
theorem takeOver_comm {f g : Value → Outcome Value} {text' : String} {leaf' : Value}
    (hi : Write.Independent f g s.draft.root) (hroot : s.draft.root.WellFormed)
    (hwf : (f s.draft.root).result.WellFormed) (hwg : (g s.draft.root).result.WellFormed) :
    let first (t : Session) := t.takeOver text leaf (f t.draft.root)
    let second (t : Session) := t.takeOver text' leaf' (g t.draft.root)
    (second (first s).2).1 = (second s).1 ∧ (first (second s).2).1 = (first s).1 ∧
      ((second (first s).2).2.draft == (first (second s).2).2.draft) = true := by
  intro first second
  simp only [first, second]
  cases hf : (f s.draft.root).fault with
  | some fault =>
    cases hg : (g s.draft.root).fault with
    | some fault' =>
      simp only [takeOver_of_some hf, takeOver_of_some hg]
      exact ⟨trivial, trivial, Draft.beq_of_roots (Value.beq_self hroot) _⟩
    | none =>
      have hagain := (hi.fault_left hg).trans hf
      simp only [takeOver_of_some hf, takeOver_of_none hg, takeOver_of_some hagain]
      exact ⟨trivial, trivial, Draft.beq_of_roots (Value.beq_self hwg) _⟩
  | none =>
    cases hg : (g s.draft.root).fault with
    | some fault' =>
      have hagain := (hi.fault_right hf).trans hg
      simp only [takeOver_of_none hf, takeOver_of_some hg, takeOver_of_some hagain]
      exact ⟨trivial, trivial, Draft.beq_of_roots (Value.beq_self hwf) _⟩
    | none =>
      have hfirst := (hi.fault_left hg).trans hf
      have hsecond := (hi.fault_right hf).trans hg
      simp only [takeOver_of_none hf, takeOver_of_none hg, takeOver_of_none hfirst,
        takeOver_of_none hsecond]
      exact ⟨trivial, trivial, Draft.beq_of_roots (hi.beq hf hg) _⟩

theorem options_takeOver (s : Session) (text : String) (leaf : Value) (r : Outcome Value) :
    (s.takeOver text leaf r).2.draft.options = s.draft.options := by
  unfold takeOver
  split <;> rfl

/-- **Writes at places that part commute.**  Two paths of members and of indexes from the front go the
same way for some steps and then take different ones, to two members or to two elements.  Whatever the
document and the priority, each of the two writes is accepted or refused alike in either order, for the
same reason, and the documents at the end are equal. -/
theorem puts_commute {p q : String} {v w : Value} {priority : Option Priority} {pre l m : Location}
    {a b : Step} (hroot : s.draft.root.WellFormed) (hv : v.WellFormed) (hw : w.WellFormed)
    (hp : Path.read p = .ok (Location.path (pre ++ a :: l)))
    (hq : Path.read q = .ok (Location.path (pre ++ b :: m)))
    (hk : a.isPos = b.isPos) (hne : a ≠ b) :
    let first := Request.put p (some v) priority
    let second := Request.put q (some w) priority
    ∃ reply reply', (s.answerAll [first, second]).1 = [reply, reply'] ∧
      (s.answerAll [second, first]).1 = [reply', reply] ∧
      ((s.answerAll [first, second]).2.draft == (s.answerAll [second, first]).2.draft) = true := by
  intro first second
  let permission := (priority.getD s.draft.options.priority).permission
  let f (root : Value) := root.write (Location.path (pre ++ a :: l)) ⟨v, permission⟩
  let g (root : Value) := root.write (Location.path (pre ++ b :: m)) ⟨w, permission⟩
  have hwf : (f s.draft.root).result.WellFormed := wellFormed_write hroot hv _
  have hwg : (g s.draft.root).result.WellFormed := wellFormed_write hroot hw _
  have hi : Write.Independent f g s.draft.root := independent_write hroot hv hw hk hne
  obtain ⟨hsecond, hfirst, hbeq⟩ := takeOver_comm hi hroot hwf hwg
  simp only [answerAll_cons, answerAll_nil, first, second, answer_put_of_read hp,
    answer_put_of_read hq, options_takeOver]
  exact ⟨_, _, congrArg (fun r => [_, r]) hsecond, congrArg (fun r => [_, r]) hfirst, hbeq⟩

/-- Two members of an empty array: either write makes an object of it, and the members come in the order
of the writes.  Of two columns of a row the first one is not an object, so its write is refused, before
and after the other write has lengthened the row. -/
theorem puts_commute_in_rows :
    let s := start (.ofValue (.obj [("a", .arr []), ("b", .arr [.str "x"])]))
    let x := Request.put "a.x" (some .null) (some .low)
    let y := Request.put "a.y" (some (.bool true)) (some .low)
    let b := ("b", Value.arr [.str "x"])
    let xy := Value.obj [("x", .null), ("y", .bool true)]
    let yx := Value.obj [("y", .bool true), ("x", .null)]
    let first := Request.put "b[0].y" (some .null) none
    let third := Request.put "b[2].y" (some .null) none
    s.draft.root.WellFormed ∧
      (s.answerAll [x, y]).2.draft.root = .obj [("a", xy), b] ∧
      (s.answerAll [y, x]).2.draft.root = .obj [("a", yx), b] ∧
      ((s.answerAll [x, y]).2.draft == (s.answerAll [y, x]).2.draft) = true ∧
      ∃ refusal, (s.answerAll [first, third]).1 = [.refused refusal, .done] ∧
        (s.answerAll [third, first]).1 = [.done, .refused refusal] := by
  intro s x y b xy yx first third
  have hroot : s.draft.root.WellFormed := by
    simp [s, start, Draft.ofValue, Value.WellFormed, Value.WellFormedMembers, Value.WellFormedItems]
  have hx : Path.read "a.x" = .ok (Location.path ([.key "a"] ++ .key "x" :: [])) := by rfl
  have hy : Path.read "a.y" = .ok (Location.path ([.key "a"] ++ .key "y" :: [])) := by rfl
  have hfirst : Path.read "b[0].y" = .ok (Location.path ([.key "b"] ++ .pos 0 :: [.key "y"])) := by
    rfl
  have hthird : Path.read "b[2].y" = .ok (Location.path ([.key "b"] ++ .pos 2 :: [.key "y"])) := by
    rfl
  have hxy : (s.answerAll [x, y]).2.draft.root = .obj [("a", xy), b] := by
    simp only [answerAll_cons, answerAll_nil, x, y, answer_put_of_read hx, answer_put_of_read hy]
    rfl
  have hyx : (s.answerAll [y, x]).2.draft.root = .obj [("a", yx), b] := by
    simp only [answerAll_cons, answerAll_nil, x, y, answer_put_of_read hx, answer_put_of_read hy]
    rfl
  have hnull : Value.WellFormed .null := trivial
  have htrue : Value.WellFormed (.bool true) := trivial
  have hmembers : ∃ reply reply', (s.answerAll [x, y]).1 = [reply, reply'] ∧
      (s.answerAll [y, x]).1 = [reply', reply] ∧
      ((s.answerAll [x, y]).2.draft == (s.answerAll [y, x]).2.draft) = true := by
    simp only [x, y]
    exact puts_commute hroot hnull htrue hx hy rfl (by decide)
  have hcolumns : ∃ reply reply', (s.answerAll [first, third]).1 = [reply, reply'] ∧
      (s.answerAll [third, first]).1 = [reply', reply] ∧
      ((s.answerAll [first, third]).2.draft == (s.answerAll [third, first]).2.draft) = true := by
    simp only [first, third]
    exact puts_commute hroot hnull hnull hfirst hthird rfl (by decide)
  obtain ⟨-, -, -, -, hbeq⟩ := hmembers
  obtain ⟨reply, reply', hforth, hback, -⟩ := hcolumns
  have hreplies : ∃ refusal, (s.answerAll [first, third]).1 = [.refused refusal, .done] := by
    simp only [answerAll_cons, answerAll_nil, first, third, answer_put_of_read hfirst,
      answer_put_of_read hthird]
    exact ⟨_, rfl⟩
  obtain ⟨refusal, hreplies⟩ := hreplies
  obtain ⟨rfl, hrest⟩ := List.cons.inj (hforth.symm.trans hreplies)
  obtain ⟨rfl, -⟩ := List.cons.inj hrest
  exact ⟨hroot, hxy, hyx, hbeq, refusal, hreplies, hback⟩

end Session

end PathDoc
