import PathDoc.Proofs.Induction

/-!
# PathDoc.Proofs.Frame — what a write leaves alone

A location leaves a path sideways (`Path.Leaves`) if it goes along with the path for a while and then
takes a step that the path does not denote there.  Which positions of an array a segment denotes may
change while the write lengthens the array; what counts is the array that the write leaves.  Nothing
changes at such a location, whatever the write may replace (`get?_write_of_leaves`).
-/

namespace PathDoc

open Json

namespace Path

variable {s : Segment} {path rest : Path} {old new : Value} {l : Location}

/-- The location leaves the path sideways: it follows the path, as the new document has it, to a node
that was already of the kind that the next segment needs, and goes on with a step that this segment
does not denote there. -/
def Leaves (path : Path) (old new : Value) (l : Location) : Prop :=
  ∃ pre s rest front step back node w, path = pre ++ s :: rest ∧ l = front ++ step :: back ∧
    old.get? front = some node ∧ s.suits node = true ∧
    (front, w) ∈ Path.targets pre new ∧ step ∉ s.steps w

/-- What leaves a path sideways does so at the first segment, or below a child that it selects. -/
theorem leaves_cons_cases (h : Leaves (s :: rest) old new l) : ∃ step back, l = step :: back ∧
    (step ∉ s.steps new ∧ s.suits old = true ∨
      step ∈ s.steps new ∧ ∃ d, new.child? step = some d ∧
        ∀ c, old.child? step = some c → Leaves rest c d back) := by
  obtain ⟨pre, t, tail, front, step, back, node, w, hpath, rfl, hnode, hk, hw, hs⟩ := h
  cases pre with
  | nil =>
    obtain ⟨rfl, rfl⟩ := List.cons.inj hpath
    obtain ⟨rfl, rfl⟩ := Prod.mk.inj (List.mem_singleton.mp hw)
    obtain rfl := Option.some.inj ((Value.get?_nil old).symm.trans hnode)
    exact ⟨step, back, rfl, .inl ⟨hs, hk⟩⟩
  | cons first pre =>
    obtain ⟨rfl, rfl⟩ := List.cons.inj hpath
    obtain ⟨d, hd, u, hu, he⟩ := Path.mem_targets_cons.mp hw
    obtain ⟨rfl, rfl⟩ := Prod.mk.inj he
    obtain ⟨hm, hc⟩ := Segment.mem_children.mp hd
    refine ⟨d.1, u.1 ++ step :: back, rfl, .inr ⟨hm, d.2, hc, fun c hold => ?_⟩⟩
    rw [Value.get?_cons, hold, Option.bind_some] at hnode
    exact ⟨pre, t, tail, u.1, step, back, node, u.2, rfl, rfl, hnode, hk, hu, hs⟩

/-- Every location that leaves the path sideways keeps what it holds. -/
def Spares (path : Path) (old new : Value) : Prop :=
  ∀ l v, old.get? l = some v → Leaves path old new l → new.get? l = some v

theorem not_leaves_nil : ¬ Leaves [] old new l := by
  rintro ⟨pre, s, rest, -, -, -, -, -, hpath, -⟩
  simp at hpath

theorem spares_nil (old new : Value) : Spares [] old new := fun _ _ _ h => absurd h not_leaves_nil

/-- A node spares what leaves a path sideways if each old child stays, or is selected and spares what
leaves the rest of the path. -/
theorem spares_cons (h : s.suits old = true → ∀ step c, old.child? step = some c →
    new.child? step = some c ∨
      step ∈ s.steps new ∧ ∃ d, new.child? step = some d ∧ Spares rest c d) :
    Spares (s :: rest) old new := by
  intro l v hl hleaves
  obtain ⟨step, back, rfl, hcase⟩ := leaves_cons_cases hleaves
  rw [Value.get?_cons] at hl
  obtain ⟨c, hc, hv⟩ := Option.bind_eq_some_iff.mp hl
  have hk : s.suits old = true := by
    rcases hcase with ⟨-, hk⟩ | ⟨hm, -⟩
    · exact hk
    · exact Segment.suits_of_child? (Segment.isPos_of_mem_steps hm) hc
  rw [Value.get?_cons]
  rcases h hk step c hc with hsame | ⟨hm, d, hd, hspares⟩
  · rw [hsame, Option.bind_some, hv]
  · rcases hcase with ⟨hs, -⟩ | ⟨-, e, he, hrest⟩
    · exact absurd hm hs
    · rw [hd] at he
      obtain rfl := Option.some.inj he
      rw [hd, Option.bind_some]
      exact hspares back v hv (hrest c hc)

end Path

namespace Write

variable {job : Job} {s : Segment} {path rest : Path} {node : Value}

/-- A loop spares what leaves the path sideways, if it keeps the children of a node of the right kind
and a reader finds those below which it writes. -/
theorem spares_alongSteps {v : Value} {steps : List Step} {below : Value → Outcome Value}
    (hn : steps.Nodup)
    (hold : s.suits node = true → ∀ step c, node.child? step = some c →
      v.child? step = some c ∧ (step ∈ steps → step ∈ s.steps v))
    (hb : ∀ c, (below c).fault = none → Path.Spares rest c (below c).result)
    (hf : (alongSteps below steps v).fault = none) :
    Path.Spares (s :: rest) node (alongSteps below steps v).result := by
  refine Path.spares_cons fun hk step c hc => ?_
  obtain ⟨hv, hfind⟩ := hold hk step c hc
  by_cases hm : step ∈ steps
  · refine .inr ⟨?_, (below c).result, ?_, hb c (fault_below_of_alongSteps hn hf hm hv)⟩
    · rw [steps_alongSteps]
      exact hfind hm
    · rw [child?_alongSteps_of_mem hn hf hm, hv]
      rfl
  · rw [child?_alongSteps_of_not_mem hm]
    exact .inl hv

theorem spares_descend (hne : path ≠ []) (hx : ∀ s ∈ path, s.excess? = none)
    (hf : (descend job path node).fault = none) :
    Path.Spares path node (descend job path node).result := by
  refine descend_induction (P := fun path node r => r.fault = none → Path.Spares path node r.result)
    ?settled ?stopped ?opened ?walked hne hx node hf
  case settled => exact fun node _ => Path.spares_nil _ _
  case stopped => exact fun s rest node _ hf => absurd hf (Option.some_ne_none _)
  case opened =>
    intro s rest node v steps below hs ho hb
    exact spares_alongSteps (nodup_steps_of_opened? ho)
      (fun hk step c hc => keeps_of_opened? hs hk ho hc) hb
  case walked =>
    intro s rest node below _ _ hb
    exact spares_alongSteps (s.nodup_steps node) (fun _ step c hc => ⟨hc, id⟩) hb

end Write

/-- **The frame of a write**: whatever it may replace, a write without a fault changes nothing at a
location of the old document that leaves the path sideways. -/
theorem get?_write_of_leaves {root v : Value} {path : Path} {job : Job} {l : Location}
    (hf : (root.write path job).fault = none) (hl : root.get? l = some v)
    (h : path.Leaves root (root.write path job).result l) :
    (root.write path job).result.get? l = some v := by
  have hx := firstExcess?_of_write hf
  have hne : path ≠ [] := by
    rintro rfl
    exact Path.not_leaves_nil h
  rw [write_eq_descend hx] at hf h ⊢
  exact Write.spares_descend hne (Write.firstExcess?_eq_none_iff.mp hx) hf l v hl h

/-- An array of two is lengthened, so that its first element is the third from the end. -/
theorem get?_write_of_leaves_grown :
    let row := Value.obj [("k", .arr [.num (.int 7)])]
    let root := Value.obj [("a", .arr [row, .str "x"])]
    let path : Path := [.member "a", .index (-3), .member "b"]
    let new := Value.obj [("a", .arr [.obj [("k", .arr [.num (.int 7)]), ("b", .null)], .str "x",
      .obj []])]
    let l : Location := [.key "a", .pos 0, .key "k", .pos 0]
    root.write path ⟨.null, .high⟩ = .done new ∧ root.get? l = some (.num (.int 7)) ∧
      path.Leaves root new l ∧ new.get? l = some (.num (.int 7)) := by
  intro row root path new l
  have hw : root.write path ⟨.null, .high⟩ = .done new := by rfl
  have hl : root.get? l = some (.num (.int 7)) := by rfl
  have hleaves : path.Leaves root new l :=
    ⟨[.member "a", .index (-3)], .member "b", [], [.key "a", .pos 0], .key "k", [.pos 0], row,
      .obj [("k", .arr [.num (.int 7)]), ("b", .null)], rfl, rfl, by rfl, by rfl,
      List.mem_singleton.mpr (by rfl), by decide⟩
  have hkept := get?_write_of_leaves (by rw [hw]; rfl) hl (by rw [hw]; exact hleaves)
  rw [hw] at hkept
  exact ⟨hw, hl, hleaves, hkept⟩

end PathDoc
