import PathDoc.Proofs.Drafts
import PathDoc.Proofs.Parsed
import PathDoc.Proofs.Uprooting

/-!
# PathDoc.Proofs.Taking — a removal takes what a reader finds

`Removal.Exact` says what a removal may do to a document in which the reader finds some values: it
hands back these values, parent by parent, and leaves everything else as it was.
-/

namespace PathDoc

open Json

/-- What a removal takes and leaves, where the path before the last segment leads to the parents:
the entry of each parent holds what is selected there, all entries together hold the values that a
reader finds, each parent keeps the rest in its order, and every node that is neither a parent nor
below one keeps its keys, its length or its scalar. -/
structure Removal.Exact (pre : Path) (last : Segment) (old new : Value)
    (entries : List (Option Value)) (vs : List Value) : Prop where
  entries_perm : List.Forall₂ (fun t entry =>
    (last.held entry).Perm ((last.children t.2).map Prod.snd)) (pre.targets old) entries
  values_perm : (entries.flatMap last.held).Perm vs
  values_eq : last.isSingle = true → entries.flatMap last.held = vs
  parents : ∀ t ∈ pre.targets old, new.get? t.1 = some (last.spared t.2)
  others : ∀ m : Location, (∀ t ∈ pre.targets old, ¬ t.1 <+: m) →
    (new.get? m).map Value.outline = (old.get? m).map Value.outline

variable {pre : Path} {root : Value}

/-- The values at a path, parent by parent. -/
theorem map_snd_targets_concat (pre : Path) (last : Segment) (root : Value) :
    ((pre ++ [last]).targets root).map Prod.snd =
      (pre.targets root).flatMap fun t => (last.children t.2).map Prod.snd := by
  rw [Path.targets_append, List.map_flatMap]
  refine List.flatMap_congr fun t _ => ?_
  rw [Path.targets_cons, List.map_map, List.map_flatMap]
  exact List.map_eq_flatMap.symm

theorem exact_prune (last : Segment) (hw : pre.Within root) :
    Removal.Exact pre last root (root.prune (pre ++ [last])).2 (root.prune (pre ++ [last])).1
      (((pre ++ [last]).targets root).map Prod.snd) := by
  have hentries := Removal.uproot_fst last hw
  obtain ⟨-, htargets⟩ := Removal.targets_uproot last hw
  rw [prune_eq_uproot, map_snd_targets_concat, hentries]
  refine ⟨?_, ?_, fun hs => ?_, fun t ht => ?_, fun m hm => ?_⟩
  · rw [List.forall₂_map_right_iff, List.forall₂_same]
    exact fun t _ => last.perm_held_cut t.2
  · rw [List.flatMap_map]
    exact List.Perm.flatMap_left _ fun t _ => last.perm_held_cut t.2
  · rw [List.flatMap_map]
    exact List.flatMap_congr fun t _ => Segment.held_cut_of_isSingle hs t.2
  · have hm : (t.1, last.spared t.2) ∈ pre.targets (Removal.uproot last pre root).2 := by
      rw [htargets]
      exact List.mem_map_of_mem ht
    exact Path.get?_of_mem_targets hm
  · exact Removal.outline_get?_uproot root hm

/-- Nothing is handed back exactly if the reader finds nothing. -/
theorem handBack?_prune_eq_none_iff (last : Segment) (hw : pre.Within root) :
    Draft.handBack? (root.prune (pre ++ [last])).1 = none ↔
      ((pre ++ [last]).targets root).map Prod.snd = [] := by
  rw [Draft.handBack?_eq_none_iff, prune_eq_uproot, Removal.uproot_fst last hw, map_snd_targets_concat,
    List.flatMap_eq_nil_iff, List.forall_mem_map]
  refine forall₂_congr fun t _ => ?_
  rw [Segment.cut_fst_eq_none_iff, List.map_eq_nil_iff]

/-- Where nothing is selected the document stays. -/
theorem Removal.Exact.unchanged {last : Segment} {new : Value} {entries : List (Option Value)}
    {vs : List Value} (h : Removal.Exact pre last root new entries vs)
    (hnone : ∀ t ∈ pre.targets root, last.children t.2 = []) :
    Removal.Exact pre last root root entries vs := by
  have hparents : ∀ t ∈ pre.targets root, root.get? t.1 = some (last.spared t.2) := by
    intro t ht
    rw [Segment.spared_of_children_eq_nil (hnone t ht)]
    exact Path.get?_of_mem_targets ht
  exact { h with parents := hparents, others := fun m _ => rfl }

/-! ### the second removal of a member -/

theorem Json.Members.get?_erase_self (ms : Members) (name : String) :
    Members.get? (Members.erase ms name) name = none := by
  rw [← Option.not_isSome_iff_eq_none, Members.get?_isSome_iff]
  intro h
  obtain ⟨m, hm, he⟩ := List.mem_map.mp h
  obtain ⟨-, hne⟩ := List.mem_filter.mp hm
  exact bne_iff_ne.mp hne he

theorem children_spared_member (name : String) (v : Value) :
    (Segment.member name).children ((Segment.member name).spared v) = [] := by
  rw [← Segment.cut_snd]
  cases v with
  | obj ms =>
    show ((Members.get? (Members.erase ms name) name).map _).toList = []
    rw [Members.get?_erase_self]
    rfl
  | _ => rfl

/-- A member that has been removed is not found again. -/
theorem query_prune_member (hw : pre.Within root) (name : String) :
    (root.prune (pre ++ [.member name])).2.query (pre ++ [.member name]) = .ok [] := by
  obtain ⟨hpre, htargets⟩ := Removal.targets_uproot (.member name) hw
  rw [prune_eq_uproot]
  refine query_eq_ok_iff.mpr ⟨Path.within_append.mpr ⟨hpre, fun t _ => ?_⟩, ?_⟩
  · exact ⟨Segment.outside?_member name t.2, fun c _ => trivial⟩
  · rw [map_snd_targets_concat, htargets, eq_comm, List.flatMap_eq_nil_iff, List.forall_mem_map]
    intro t _
    rw [children_spared_member]
    rfl

/-! ### drafts -/

namespace Draft

variable {d : Draft} {text : String} {vs : List Value}

theorem take_eq_none_of_query_nil (h : d.query text = .ok []) : d.take text = .ok (none, d) := by
  obtain ⟨path, hpath, hq⟩ := exists_read_of_query h
  obtain ⟨hw, hvs⟩ := query_eq_ok_iff.mp hq
  obtain ⟨pre, last, rfl⟩ := (List.eq_nil_or_concat' path).resolve_left (parsed_of_read hpath).1
  rw [take_of_read hpath, (handBack?_prune_eq_none_iff last (Path.within_append.mp hw).1).mpr hvs.symm]

/-- **A removal takes exactly what a reader finds**: nothing, if that is nothing, and the document
stays; the same values otherwise, out of the parents that hold them.  A member that has been taken
is gone. -/
theorem take_takes_what_query_finds (h : d.query text = .ok vs) :
    ∃ pre last removed d', Path.read text = .ok (pre ++ [last]) ∧
      d.take text = .ok (removed, d') ∧
      removed = handBack? (d.root.prune (pre ++ [last])).1 ∧
      (removed = none ↔ vs = []) ∧ (removed = none → d' = d) ∧ d'.options = d.options ∧
      Removal.Exact pre last d.root d'.root (d.root.prune (pre ++ [last])).1 vs ∧
      ∀ name, last = .member name → d'.query text = .ok [] ∧ d'.take text = .ok (none, d') := by
  obtain ⟨path, hpath, hq⟩ := exists_read_of_query h
  obtain ⟨hwithin, hvs⟩ := query_eq_ok_iff.mp hq
  obtain ⟨pre, last, rfl⟩ := (List.eq_nil_or_concat' path).resolve_left (parsed_of_read hpath).1
  have hw := (Path.within_append.mp hwithin).1
  have hnone := handBack?_prune_eq_none_iff last hw
  have hexact := exact_prune last hw
  rw [← hvs] at hnone hexact
  have htake := take_of_read (d := d) hpath
  cases hr : handBack? (d.root.prune (pre ++ [last])).1 with
  | none =>
    have hnil := hnone.mp hr
    rw [hr] at htake
    have hchildren : ∀ t ∈ Path.targets pre d.root, last.children t.2 = [] := by
      intro t ht
      rw [hvs, map_snd_targets_concat, List.flatMap_eq_nil_iff] at hnil
      exact List.map_eq_nil_iff.mp (hnil t ht)
    refine ⟨pre, last, none, d, hpath, htake, hr.symm, iff_of_true rfl hnil, fun _ => rfl, rfl,
      hexact.unchanged hchildren, ?_⟩
    rintro name rfl
    exact ⟨hnil ▸ h, htake⟩
  | some removed =>
    rw [hr] at htake
    refine ⟨pre, last, some removed, _, hpath, htake, hr.symm, ?_, by simp, rfl, hexact, ?_⟩
    · rw [← hnone, hr]
    · rintro name rfl
      have hquery : query { d with root := (d.root.prune (pre ++ [.member name])).2 } text =
          .ok [] := (query_eq_ok_iff_of_read hpath).mpr (query_prune_member hw name)
      exact ⟨hquery, take_eq_none_of_query_nil hquery⟩

/-- Two rows that lose their last and their first element; the reader goes backwards. -/
theorem take_rows :
    let row (i j k : Int) := Value.arr [.num (.int i), .num (.int j), .num (.int k)]
    let d := ofValue (.obj [("a", .arr [row 1 2 3, row 4 5 6])])
    let vs := [.num (.int 6), .num (.int 4), .num (.int 3), .num (.int 1)]
    d.query "a[1,0][-1,0]" = .ok vs ∧
      ∃ pre last removed d', d.take "a[1,0][-1,0]" = .ok (removed, d') ∧
        (removed = none ↔ vs = []) ∧
        Removal.Exact pre last d.root d'.root (d.root.prune (pre ++ [last])).1 vs := by
  intro row d vs
  have hq : d.query "a[1,0][-1,0]" = .ok vs := by rfl
  obtain ⟨pre, last, removed, d', -, htake, -, hnone, -, -, hexact, -⟩ :=
    take_takes_what_query_finds hq
  exact ⟨hq, pre, last, removed, d', htake, hnone, hexact⟩

end Draft

end PathDoc
