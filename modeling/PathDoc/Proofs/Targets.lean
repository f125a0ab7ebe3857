import PathDoc.Proofs.Steps
import PathDoc.Tree.Query

/-!
# PathDoc.Proofs.Targets — the nodes that match a path

`Path.targets` finds them by recursion on the path, one child at a time.  The reader finds them
level by level and stops at the first array that is too short; `sites_eq_ok_iff` says that it
returns the targets exactly if it meets no such array (`Path.Within`).
-/

namespace PathDoc

open Json

/-- A site seen from further up. -/
def Site.under (outer : Location) (t : Site) : Site := (outer ++ t.1, t.2)

@[simp] theorem Site.under_nil : Site.under [] = id := rfl

theorem Site.map_under_map_under (l m : Location) (ts : List Site) :
    (ts.map (Site.under m)).map (Site.under l) = ts.map (Site.under (l ++ m)) := by
  rw [List.map_map]
  exact List.map_congr_left fun t _ => by simp [Site.under]

namespace Path

/-- The nodes that match a path, each with the way to it, in the order of the segments. -/
def targets : Path → Value → List Site
  | [], v => [([], v)]
  | s :: rest, v => (s.children v).flatMap fun c => (targets rest c.2).map (Site.under [c.1])

/-- Whether every array on the way holds all indexes that are spelled out for it. -/
def Within : Path → Value → Prop
  | [], _ => True
  | s :: rest, v => s.outside? v = none ∧ ∀ c ∈ s.children v, Within rest c.2

@[simp] theorem targets_nil (v : Value) : targets [] v = [([], v)] := rfl

theorem targets_cons (s : Segment) (rest : Path) (v : Value) :
    targets (s :: rest) v =
      (s.children v).flatMap fun c => (targets rest c.2).map (Site.under [c.1]) := rfl

@[simp] theorem within_nil (v : Value) : Within [] v := trivial

theorem within_cons {s : Segment} {rest : Path} {v : Value} :
    Within (s :: rest) v ↔ s.outside? v = none ∧ ∀ c ∈ s.children v, Within rest c.2 := Iff.rfl

theorem mem_targets_cons {s : Segment} {rest : Path} {v : Value} {t : Site} :
    t ∈ targets (s :: rest) v ↔
      ∃ c ∈ s.children v, ∃ u ∈ targets rest c.2, t = (c.1 :: u.1, u.2) := by
  simp only [targets_cons, List.mem_flatMap, List.mem_map]
  refine exists_congr fun c => and_congr_right fun _ => exists_congr fun u => and_congr_right
    fun _ => eq_comm

theorem get?_of_mem_targets {path : Path} {v : Value} {t : Site} (h : t ∈ path.targets v) :
    v.get? t.1 = some t.2 := by
  induction path generalizing v t with
  | nil => rw [List.mem_singleton.mp h, Value.get?_nil]
  | cons s rest ih =>
    obtain ⟨c, hc, u, hu, rfl⟩ := mem_targets_cons.mp h
    rw [Value.get?_cons, Segment.child?_of_mem_children hc]
    exact ih hu

/-- The targets of a longer path are found from the targets of its front. -/
theorem targets_append (p q : Path) (v : Value) :
    targets (p ++ q) v = (targets p v).flatMap fun t => (targets q t.2).map (Site.under t.1) := by
  induction p generalizing v with
  | nil => simp
  | cons s rest ih =>
    rw [List.cons_append, targets_cons, targets_cons, List.flatMap_assoc]
    refine List.flatMap_congr fun c _ => ?_
    rw [ih, List.map_flatMap, List.flatMap_map]
    refine List.flatMap_congr fun t _ => ?_
    rw [Site.map_under_map_under]
    rfl

theorem within_append {p q : Path} {v : Value} :
    Within (p ++ q) v ↔ Within p v ∧ ∀ t ∈ targets p v, Within q t.2 := by
  induction p generalizing v with
  | nil => simp
  | cons s rest ih =>
    rw [List.cons_append, within_cons, within_cons, and_assoc]
    refine and_congr_right fun _ => ?_
    constructor
    · intro h
      refine ⟨fun c hc => (ih.mp (h c hc)).1, fun t ht => ?_⟩
      obtain ⟨c, hc, u, hu, rfl⟩ := mem_targets_cons.mp ht
      exact (ih.mp (h c hc)).2 u hu
    · rintro ⟨h1, h2⟩ c hc
      exact ih.mpr ⟨h1 c hc, fun u hu =>
        h2 (c.1 :: u.1, u.2) (mem_targets_cons.mpr ⟨c, hc, u, hu, rfl⟩)⟩

end Path

/-! ### the reader -/

namespace Query

variable {s : Segment} {path : Path} {sites out : List Site}

theorem fromSite_eq_ok_iff {site : Site} : fromSite s site = .ok out ↔
    s.outside? site.2 = none ∧
      out = (s.children site.2).map fun c => (site.1 ++ [c.1], c.2) := by
  unfold fromSite
  split
  · next i n h => simp [h]
  · next h => simp [h, eq_comm]

theorem fromSites_eq_ok_iff : fromSites s sites = .ok out ↔
    (∀ t ∈ sites, s.outside? t.2 = none) ∧
      out = sites.flatMap fun t => (s.children t.2).map fun c => (t.1 ++ [c.1], c.2) := by
  induction sites generalizing out with
  | nil => simp [eq_comm]
  | cons site more ih =>
    rw [fromSites, List.forall_mem_cons, List.flatMap_cons]
    cases h : fromSite s site with
    | error e =>
      have hn : s.outside? site.2 ≠ none := fun hn => by
        rw [fromSite_eq_ok_iff.mpr ⟨hn, rfl⟩] at h; simp at h
      exact iff_of_false (by simp) fun h => hn h.1.1
    | ok first =>
      obtain ⟨hs, rfl⟩ := fromSite_eq_ok_iff.mp h
      simp only [hs, true_and]
      constructor
      · intro h
        cases hm : fromSites s more with
        | error e => rw [hm] at h; simp [Except.map] at h
        | ok others =>
          obtain ⟨h1, rfl⟩ := ih.mp hm
          rw [hm] at h
          exact ⟨h1, (Except.ok.inj h).symm⟩
      · rintro ⟨h1, rfl⟩
        rw [ih.mpr ⟨h1, rfl⟩]
        rfl

theorem follow_eq_ok_iff : follow path sites = .ok out ↔
    (∀ t ∈ sites, path.Within t.2) ∧
      out = sites.flatMap fun t => (path.targets t.2).map (Site.under t.1) := by
  induction path generalizing sites with
  | nil => simp [Site.under, eq_comm]
  | cons s rest ih =>
    have hsame : (sites.flatMap fun t => (s.children t.2).map fun c => (t.1 ++ [c.1], c.2)).flatMap
          (fun t => (Path.targets rest t.2).map (Site.under t.1)) =
        sites.flatMap fun t => (Path.targets (s :: rest) t.2).map (Site.under t.1) := by
      rw [List.flatMap_assoc]
      refine List.flatMap_congr fun t _ => ?_
      rw [List.flatMap_map, Path.targets_cons, List.map_flatMap]
      refine List.flatMap_congr fun c _ => ?_
      rw [Site.map_under_map_under]
    rw [follow_cons]
    cases h : fromSites s sites with
    | error e =>
      have hn : ¬ ∀ t ∈ sites, Path.Within (s :: rest) t.2 := fun hw => by
        rw [fromSites_eq_ok_iff.mpr ⟨fun t ht => (hw t ht).1, rfl⟩] at h; simp at h
      exact iff_of_false (by simp) fun h => hn h.1
    | ok next =>
      obtain ⟨hs, rfl⟩ := fromSites_eq_ok_iff.mp h
      simp only
      rw [ih, hsame]
      refine and_congr_left fun _ => ⟨fun hw t ht => ⟨hs t ht, fun c hc => ?_⟩, fun hw t ht => ?_⟩
      · exact hw (t.1 ++ [c.1], c.2) (List.mem_flatMap.mpr ⟨t, ht, List.mem_map_of_mem hc⟩)
      · obtain ⟨u, hu, ht⟩ := List.mem_flatMap.mp ht
        obtain ⟨c, hc, rfl⟩ := List.mem_map.mp ht
        exact (hw u hu).2 c hc

end Query

/-- **The reader**: it returns the targets if every array on the way is long enough, and refuses
otherwise. -/
theorem sites_eq_ok_iff {root : Value} {path : Path} {out : List Site} :
    root.sites path = .ok out ↔ path.Within root ∧ out = path.targets root := by
  rw [Value.sites, Query.follow_eq_ok_iff]
  simp

theorem query_eq_ok_iff {root : Value} {path : Path} {vs : List Value} :
    root.query path = .ok vs ↔ path.Within root ∧ vs = (path.targets root).map Prod.snd := by
  rw [Value.query]
  constructor
  · intro h
    cases hs : root.sites path with
    | error e => rw [hs] at h; simp [Except.map] at h
    | ok out =>
      obtain ⟨hw, rfl⟩ := sites_eq_ok_iff.mp hs
      rw [hs] at h
      exact ⟨hw, (Except.ok.inj h).symm⟩
  · rintro ⟨hw, rfl⟩
    rw [sites_eq_ok_iff.mpr ⟨hw, rfl⟩]
    rfl

end PathDoc
