import PathDoc.Proofs.Composition

/-!
# PathDoc.Proofs.Lens — one node, and the document around it

A write and a removal go down to a node along its location and leave another node there.  A `Cursor` is
what they hold on the way: the node that they have come to, and the document as a function of the node
that is left there.  It comes to the nodes that a reader finds, and what it leaves is `Value.replace?`
(`Value.cursor?_eq`), so that each turn of the two loops is one through a cursor
(`Write.atBranch_eq_cursor`, `Removal.atBranches_cons_eq_cursor`).  A replacement at a longer location is
one inside the node at its front (`Value.replace?_append`): it is found at its place and below it, it
changes nothing apart from its place, and above its place it changes what one child of each node holds.
Two replacements at places apart from each other can be made in either order (`Value.replace?_comm`).
-/

namespace PathDoc

open Json

/-! ### going down -/

/-- A node of a document, and the document with another node in its place. -/
structure Cursor where
  node : Value
  put : Value → Value

namespace Cursor

/-- The whole document. -/
def ofRoot (root : Value) : Cursor := ⟨root, id⟩

/-- The child one step away. -/
def down? (k : Cursor) (step : Step) : Option Cursor :=
  match k.node, step with
  | .obj ms, .key name =>
    (Members.get? ms name).map fun c => ⟨c, fun w => k.put (.obj (Members.set ms name w))⟩
  | .arr items, .pos i => items[i]?.map fun c => ⟨c, fun w => k.put (.arr (items.set i w))⟩
  | _, _ => none

theorem down?_eq (k : Cursor) (step : Step) : k.down? step =
    (k.node.child? step).map fun c => ⟨c, fun w => k.put (k.node.setChild step w)⟩ := by
  obtain ⟨node, put⟩ := k
  cases node <;> cases step <;> rfl

/-- Further down, what is left there is left in the node from which the way goes on. -/
theorem foldlM_down? (k : Cursor) (l : Location) : l.foldlM down? k =
    (k.node.get? l).map fun c => ⟨c, fun w => k.put ((k.node.replace? l w).getD k.node)⟩ := by
  induction l generalizing k with
  | nil => simp
  | cons step l ih =>
    rw [List.foldlM_cons, down?_eq, Value.get?_cons]
    cases hc : k.node.child? step with
    | none => rfl
    | some c =>
      rw [Option.map_some, Option.bind_eq_bind, Option.bind_some, ih, Option.bind_some]
      simp only [Value.getD_replace?_cons hc]

end Cursor

namespace Json.Value

/-- The cursor at a location. -/
def cursor? (root : Value) (l : Location) : Option Cursor := l.foldlM Cursor.down? (.ofRoot root)

/-- **Where a cursor comes to**, and what it leaves there. -/
theorem cursor?_eq (root : Value) (l : Location) : root.cursor? l =
    (root.get? l).map fun c => ⟨c, fun w => (root.replace? l w).getD root⟩ :=
  Cursor.foldlM_down? (.ofRoot root) l

theorem map_node_cursor? (root : Value) (l : Location) :
    (root.cursor? l).map Cursor.node = root.get? l := by
  rw [cursor?_eq, Option.map_map]
  exact Option.map_id_apply

theorem map_put_cursor? (root : Value) (l : Location) (w : Value) :
    (root.cursor? l).map (·.put w) = root.replace? l w := by
  rw [cursor?_eq, Option.map_map]
  cases hl : root.get? l with
  | none =>
    have hnone : root.replace? l w = none := by
      rw [← Option.not_isSome_iff_eq_none, replace?_isSome, hl]
      exact Bool.false_ne_true
    rw [hnone]
    rfl
  | some c =>
    have hsome : (root.replace? l w).isSome := by
      rw [replace?_isSome, hl]
      rfl
    obtain ⟨v, hv⟩ := Option.isSome_iff_exists.mp hsome
    show some ((root.replace? l w).getD root) = _
    rw [hv, Option.getD_some]

end Json.Value

/-- **The writer takes its turn** at a branch through the cursor there. -/
theorem Write.atBranch_eq_cursor (job : Job) (path : Path) (b : Branch) (root : Value) :
    atBranch job path b root = match root.cursor? b.place with
      | none => .done root
      | some k => (intoNode job (path.drop b.place.length) k.node).lift b.place k.put := by
  rw [atBranch, Value.cursor?_eq]
  cases root.get? b.place <;> rfl

/-- **So does a removal.** -/
theorem Removal.atBranches_cons_eq_cursor (last : Segment) (b : Branch) (more : List Branch)
    (root : Value) : atBranches last (b :: more) root = match root.cursor? b.place with
      | none => atBranches last more root
      | some k =>
        let r := atBranches last more (k.put (last.cut k.node).2)
        ((last.cut k.node).1 :: r.1, r.2) := by
  rw [atBranches_cons, Value.cursor?_eq]
  cases root.get? b.place <;> rfl

namespace Json.Value

variable {v w c : Value} {l m : Location} {step : Step}

/-! ### the place, and what lies below it -/

/-- A replacement below a node is one inside that node. -/
theorem replace?_append (v : Value) (l m : Location) (w : Value) : v.replace? (l ++ m) w =
    (v.get? l).bind fun c => (c.replace? m w).bind fun d => v.replace? l d := by
  induction l generalizing v with
  | nil => simp
  | cons step l ih =>
    rw [List.cons_append, replace?_cons, get?_cons]
    cases hc : v.child? step with
    | none => rfl
    | some c =>
      rw [Option.bind_some, Option.bind_some, ih]
      simp only [replace?_cons, hc, Option.bind_some, Option.map_bind, Function.comp_def]

theorem get?_replace?_append (h : v.replace? l c = some w) (m : Location) :
    w.get? (l ++ m) = c.get? m := by
  rw [get?_append, get?_replace?_self h, Option.bind_some]

/-- What is there already can be put there. -/
theorem replace?_get? (h : v.get? l = some c) : v.replace? l c = some v := by
  induction l generalizing v with
  | nil =>
    rw [get?_nil] at h
    rw [replace?_nil, h]
  | cons step l ih =>
    rw [get?_cons] at h
    obtain ⟨d, hd, h⟩ := Option.bind_eq_some_iff.mp h
    rw [replace?_cons, hd, Option.bind_some, ih h, Option.map_some, setChild_self hd]

/-! ### above the place -/

/-- A node keeps its outline when something below it is replaced. -/
theorem outline_replace? (hne : l ≠ []) (h : v.replace? l c = some w) : w.outline = v.outline := by
  cases l with
  | nil => exact absurd rfl hne
  | cons step l =>
    obtain ⟨-, d, -, -, rfl⟩ := replace?_cons_eq_some_iff.mp h
    exact outline_setChild v step d

/-- So do all nodes on the way. -/
theorem outline_get?_replace? (h : v.replace? l c = some w) (hm : m <+: l) (hne : m ≠ l) :
    ∃ old new, v.get? m = some old ∧ w.get? m = some new ∧ new.outline = old.outline := by
  obtain ⟨rest, rfl⟩ := hm
  rw [replace?_append] at h
  obtain ⟨old, hold, h⟩ := Option.bind_eq_some_iff.mp h
  obtain ⟨new, hnew, h⟩ := Option.bind_eq_some_iff.mp h
  have hrest : rest ≠ [] := by
    rintro rfl
    exact hne (List.append_nil m).symm
  exact ⟨old, new, hold, get?_replace?_self h, outline_replace? hrest hnew⟩

/-! ### two replacements -/

/-- What is replaced below one child is put there with the node around it. -/
theorem replace?_cons_eq_map (v : Value) (step : Step) (l : Location) (c : Value) :
    v.replace? (step :: l) c =
      ((v.child? step).bind fun a => a.replace? l c).map (v.setChild step) := by
  rw [replace?_cons, Option.map_bind]
  rfl

/-- Two replacements below one child are made in that child. -/
theorem bind_replace?_cons (v : Value) (step : Step) (l m : Location) (c d : Value) :
    ((v.replace? (step :: l) c).bind fun w => w.replace? (step :: m) d) =
      ((v.child? step).bind fun a => (a.replace? l c).bind fun b => b.replace? m d).map
        (v.setChild step) := by
  rw [replace?_cons]
  cases ha : v.child? step with
  | none => rfl
  | some a =>
    rw [Option.bind_some, Option.bind_some]
    cases a.replace? l c with
    | none => rfl
    | some b =>
      rw [Option.map_some, Option.bind_some, Option.bind_some, replace?_cons,
        child?_setChild_self ha, Option.bind_some]
      exact congrArg (Option.map · (b.replace? m d)) (funext fun w => setChild_setChild v step b w)

/-- The second of two replacements at one place wins. -/
theorem replace?_replace? (v : Value) (l : Location) (c d : Value) :
    ((v.replace? l c).bind fun w => w.replace? l d) = v.replace? l d := by
  induction l generalizing v with
  | nil => simp
  | cons step l ih => rw [bind_replace?_cons, replace?_cons_eq_map, funext ih]

/-- **Two replacements at places apart from each other** can be made in either order. -/
theorem replace?_comm (h : l.Apart m) (v c d : Value) :
    ((v.replace? l c).bind fun w => w.replace? m d) =
      (v.replace? m d).bind fun w => w.replace? l c := by
  induction l generalizing v m with
  | nil => exact absurd List.nil_prefix h.1
  | cons step l ih =>
    cases m with
    | nil => exact absurd List.nil_prefix h.2
    | cons step' m =>
      by_cases hs : step = step'
      · subst hs
        have hbelow := fun a => ih (Location.apart_cons_iff.mp h) a
        rw [bind_replace?_cons, bind_replace?_cons, funext hbelow]
      · -- neither replacement changes the child that the other one takes
        have hsecond (a : Value) : (v.setChild step a).replace? (step' :: m) d =
            ((v.child? step').bind fun b => b.replace? m d).map
              ((v.setChild step a).setChild step') := by
          rw [replace?_cons_eq_map, child?_setChild_ne hs]
        have hfirst (b : Value) : (v.setChild step' b).replace? (step :: l) c =
            ((v.child? step).bind fun a => a.replace? l c).map
              ((v.setChild step' b).setChild step) := by
          rw [replace?_cons_eq_map, child?_setChild_ne (Ne.symm hs)]
        rw [replace?_cons_eq_map v step, replace?_cons_eq_map v step', Option.bind_map,
          Option.bind_map]
        simp only [Function.comp_def, hfirst, hsecond]
        cases (v.child? step).bind fun a => a.replace? l c <;>
          cases (v.child? step').bind fun b => b.replace? m d <;> try rfl
        exact congrArg some (setChild_comm hs v _ _)

end Json.Value

/-! ### all locations -/

/-- **A location is a lens** on each document.  The cursor comes to the node that a reader finds there,
if there is one, and leaves the document that `Value.replace?` makes; to leave the node that is there
leaves the document as it is.  After a replacement the node that was put is found at the location, and
below it what lies below that node; what lies apart from the location is found as before, and the
nodes above it keep their keys in order, or their length.  Of two replacements at the location the
second one wins, and two replacements at places apart from each other can be made in either order. -/
theorem location_is_lens (root : Value) (l : Location) :
    (root.cursor? l).map Cursor.node = root.get? l ∧
    (∀ v, (root.cursor? l).map (·.put v) = root.replace? l v) ∧
    (∀ c, root.get? l = some c → root.replace? l c = some root) ∧
    (∀ v w, root.replace? l v = some w →
      (∀ m, w.get? (l ++ m) = v.get? m) ∧
      (∀ m, l.Apart m → w.get? m = root.get? m) ∧
      ∀ m, m <+: l → m ≠ l → ∃ old new, root.get? m = some old ∧ w.get? m = some new ∧
        new.outline = old.outline) ∧
    (∀ v w, ((root.replace? l v).bind fun u => u.replace? l w) = root.replace? l w) ∧
    ∀ m v w, l.Apart m → ((root.replace? l v).bind fun u => u.replace? m w) =
      (root.replace? m w).bind fun u => u.replace? l v := by
  refine ⟨Value.map_node_cursor? root l, Value.map_put_cursor? root l,
    fun c hc => Value.replace?_get? hc, fun v w h => ⟨?_, ?_, ?_⟩,
    Value.replace?_replace? root l, fun m v w ha => Value.replace?_comm ha root v w⟩
  · exact Value.get?_replace?_append h
  · exact fun m ha => Value.get?_replace?_of_apart h ha
  · exact fun m hm hne => Value.outline_get?_replace? h hm hne

/-- An array in the place of a member of the second row: its element is found, the row keeps its keys in
order, and the first row can be replaced before or after. -/
theorem location_is_lens_in_rows :
    let num (i : Int) : Value := .num (.int i)
    let rows (first b : Value) : Value :=
      .obj [("a", .arr [first, .obj [("b", b), ("c", num 3)]]), ("d", .null)]
    let root := rows (num 1) (num 2)
    let l : Location := [.key "a", .pos 1, .key "b"]
    let m : Location := [.key "a", .pos 0]
    let v : Value := .arr [.bool true]
    root.get? l = some (num 2) ∧ root.replace? l (num 2) = some root ∧
      root.replace? l v = some (rows (num 1) v) ∧
      (rows (num 1) v).get? (l ++ [.pos 0]) = some (.bool true) ∧
      l.Apart m ∧ (rows (num 1) v).get? m = some (num 1) ∧
      (∃ old new, root.get? [.key "a", .pos 1] = some old ∧
        (rows (num 1) v).get? [.key "a", .pos 1] = some new ∧ new.outline = old.outline) ∧
      (root.replace? m .null).bind (fun u => u.replace? l v) = some (rows .null v) := by
  intro num rows root l m v
  obtain ⟨-, -, hself, hput, -, hcomm⟩ := location_is_lens root l
  have hget : root.get? l = some (num 2) := by rfl
  have hreplace : root.replace? l v = some (rows (num 1) v) := by rfl
  have hapart : l.Apart m := ⟨by decide, by decide⟩
  obtain ⟨hbelow, hstay, habove⟩ := hput v _ hreplace
  exact ⟨hget, hself _ hget, hreplace, hbelow [.pos 0], hapart, hstay m hapart,
    habove [.key "a", .pos 1] (by decide) (by decide), (hcomm m v .null hapart).symm⟩

end PathDoc
