import PathDoc.Proofs.Drafts
import PathDoc.Proofs.Equality
import PathDoc.Proofs.Induction
import PathDoc.Proofs.Parsed

/-!
# PathDoc.Proofs.ReadBack — what was written is what is read

A node shows a leaf at a path if the reader finds targets there, and nothing but the leaf at them.
This comes up from the children that a segment selects (`Write.hereditary_shows`), so the result of
every write without a fault has it (`shows_write`).
-/

namespace PathDoc

open Json

/-- Whether a reader of the path finds something in the node, and only documents equal to the
leaf. -/
def Path.Shows (leaf : Value) (path : Path) (v : Value) : Prop :=
  path.Within v ∧ path.targets v ≠ [] ∧ ∀ t ∈ path.targets v, (t.2 == leaf) = true

namespace Write

variable {job : Job} {path : Path} {v : Value}

theorem shows_nil {leaf v : Value} (h : (v == leaf) = true) : Path.Shows leaf [] v := by
  refine ⟨trivial, List.cons_ne_nil _ _, fun t ht => ?_⟩
  rw [List.mem_singleton.mp ht]
  exact h

/-- A node shows the leaf where a segment that denotes something fits and the selected children show
it. -/
theorem hereditary_shows (leaf : Value) :
    Hereditary fun path v => (∀ s ∈ path, s.isProper = true) → Path.Shows leaf path v := by
  intro s rest v _ hf _ h hp
  rw [List.forall_mem_cons] at hp
  have hc : ∀ c ∈ s.children v, Path.Shows leaf rest c.2 := fun c hm =>
    h c.1 (Segment.mem_children.mp hm).1 c.2 (Segment.mem_children.mp hm).2 hp.2
  refine ⟨⟨Segment.outside?_of_fits hf, fun c hm => (hc c hm).1⟩, ?_, fun t ht => ?_⟩
  · obtain ⟨c, hm⟩ := List.exists_mem_of_ne_nil _ (Segment.children_ne_nil hp.1 hf)
    obtain ⟨t, ht⟩ := List.exists_mem_of_ne_nil _ (hc c hm).2.1
    exact List.ne_nil_of_mem (Path.mem_targets_cons.mpr ⟨c, hm, t, ht, rfl⟩)
  · obtain ⟨c, hm, u, hu, rfl⟩ := Path.mem_targets_cons.mp ht
    exact (hc c hm).2.2 u hu

theorem shows_settle (hleaf : job.leaf.WellFormed) (hf : (settle job v).fault = none) :
    Path.Shows job.leaf [] (settle job v).result := by
  rcases settle_cases hf with hput | ⟨heq, -, hkept⟩
  · rw [hput]
    exact shows_nil (Value.beq_self hleaf)
  · rw [hkept]
    exact shows_nil heq

end Write

/-- **Every write without a fault shows its leaf.** -/
theorem shows_write {root : Value} {path : Path} (job : Job) (hleaf : job.leaf.WellFormed)
    (hne : path ≠ []) (hp : ∀ s ∈ path, s.isProper = true) (hf : (root.write path job).fault = none) :
    path.Shows job.leaf (root.write path job).result := by
  have hx := firstExcess?_of_write hf
  have hnone := Write.firstExcess?_eq_none_iff.mp hx
  rw [write_eq_descend hx] at hf ⊢
  exact (Write.hereditary_shows job.leaf).descend
    (fun node hsettled _ => Write.shows_settle hleaf hsettled) hne hnone hf hp

/-! ### drafts -/

namespace Draft

variable {d d' : Draft} {text : String}

/-- **Read-back**: after a write that is not refused, whatever its priority, the reader of the same
path finds something, and only documents equal to the leaf. -/
theorem query_of_putWith_or_overwrite {leaf : Value} {priority : Priority}
    (hleaf : leaf.WellFormed)
    (h : d.putWith text (some leaf) priority = .ok d' ∨ d.overwrite text (some leaf) = .ok d') :
    ∃ v vs, d'.query text = .ok (v :: vs) ∧ (∀ w ∈ v :: vs, (w == leaf) = true) ∧
      d'.first? text = .ok (some v) := by
  obtain ⟨permission, hw⟩ : ∃ permission, d.write text (some leaf) permission = .ok d' := by
    rcases h with h | h
    · exact ⟨_, h⟩
    · exact ⟨_, h⟩
  obtain ⟨path, leaf', hpath, hl, hf, rfl⟩ := write_eq_ok_iff.mp hw
  obtain rfl := Option.some.inj hl
  obtain ⟨hne, hparsed⟩ := parsed_of_read hpath
  obtain ⟨hwithin, htargets, hall⟩ := shows_write ⟨leaf, permission⟩ hleaf hne
    (fun s hs => (hparsed s hs).isProper) hf
  obtain ⟨t, ts, hts⟩ := List.exists_cons_of_ne_nil htargets
  have hq : query { d with root := (d.root.write path ⟨leaf, permission⟩).result } text = .ok _ :=
    (query_eq_ok_iff_of_read hpath).mpr (query_eq_ok_iff.mpr ⟨hwithin, rfl⟩)
  rw [hts, List.map_cons] at hq
  refine ⟨t.2, ts.map Prod.snd, hq, fun w hm => ?_, ?_⟩
  · rw [← List.map_cons, ← hts] at hm
    obtain ⟨u, hu, rfl⟩ := List.mem_map.mp hm
    exact hall u hu
  · rw [first?, hq]
    rfl

/-- A span that starts before the front of a short array and goes on across zero, and an open one in
nodes that are new. -/
theorem query_of_putWith_crossing :
    let d := ofValue (.obj [("a", .arr [.obj [], .num (.int 5)])])
    let row := Value.obj [("b", .arr [.num (.int 7), .num (.int 7)])]
    let d' := ofValue (.obj [("a", .arr [row, row, row, row])])
    d.putWith "a[-3:0].b[1:]" (some (.num (.int 7))) .high = .ok d' ∧
      ∃ v vs, d'.query "a[-3:0].b[1:]" = .ok (v :: vs) ∧
        (∀ w ∈ v :: vs, (w == .num (.int 7)) = true) ∧
        d'.first? "a[-3:0].b[1:]" = .ok (some v) := by
  intro d row d'
  have h : d.putWith "a[-3:0].b[1:]" (some (.num (.int 7))) .high = .ok d' := by rfl
  exact ⟨h, query_of_putWith_or_overwrite (by simp [Value.WellFormed]) (.inl h)⟩

end Draft

end PathDoc
