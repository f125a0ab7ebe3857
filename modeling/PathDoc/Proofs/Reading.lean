import PathDoc.Proofs.Frontiers

/-!
# PathDoc.Proofs.Reading — what a reader finds, and when it is refused

A reader is refused exactly if a front of the path leads to an array that is too short for the next
segment (`Path.within_iff`), and the refusal is about such an array and the first index that has no
place in it (`Query.exists_of_follow_eq_error`).  Otherwise it finds the nodes to which the path leads.
The walk of the writer then stands at the same nodes in the same order
(`Removal.reached_eq_targets`): where no array is too short, a segment that does not fit selects nothing.
-/

namespace PathDoc

open Json

/-! ### faults -/

namespace Segment

variable {s : Segment} {v : Value} {i : Int} {n : ℕ}

/-- The index outside a node is the first one spelled out that has no place in the array. -/
theorem outside?_eq_some_iff : s.outside? v = some (i, n) ↔
    ∃ items, v = .arr items ∧ n = items.length ∧ s.firstOutside? items.length = some i := by
  cases v with
  | arr items =>
    simp only [outside?, Option.map_eq_some_iff, Prod.mk.injEq, Value.arr.injEq]
    constructor
    · rintro ⟨i, hi, rfl, rfl⟩
      exact ⟨items, rfl, rfl, hi⟩
    · rintro ⟨_, rfl, rfl, hi⟩
      exact ⟨i, hi, rfl, rfl⟩
  | _ => simp [outside?]

theorem firstOutside?_eq_some_iff : s.firstOutside? n = some i ↔
    Index.place? i n = none ∧ ∃ before after, s.spelled = before ++ i :: after ∧
      ∀ j ∈ before, (Index.place? j n).isSome := by
  rw [firstOutside?, List.find?_eq_some_iff_append]
  simp

theorem lt_reach_of_firstOutside? (h : s.firstOutside? n = some i) :
    s.isPositional = true ∧ n < s.reach := by
  have hreach : ¬ s.reach ≤ n := by
    rw [reach_le_iff, h]
    exact Option.some_ne_none i
  refine ⟨?_, Nat.lt_of_not_le hreach⟩
  cases hs : s.isPositional with
  | true => rfl
  | false =>
    obtain ⟨name, rfl⟩ := exists_eq_member hs
    exact absurd (Nat.zero_le n) hreach

end Segment

namespace Query

variable {s : Segment} {path : Path} {sites : List Site} {e : Outside}

theorem fromSite_eq_error_iff {site : Site} : fromSite s site = .error e ↔
    e.place = site.1 ∧ s.outside? site.2 = some (e.index, e.length) := by
  obtain ⟨place, index, length⟩ := e
  unfold fromSite
  split
  · next i n h =>
    rw [h]
    simp only [Except.error.injEq, Outside.mk.injEq, Option.some.injEq, Prod.mk.injEq]
    exact and_congr_left' eq_comm
  · next h => simp [h]

/-- A fault at a list of sites is that of one of them. -/
theorem exists_of_fromSites_eq_error (h : fromSites s sites = .error e) :
    ∃ t ∈ sites, e.place = t.1 ∧ s.outside? t.2 = some (e.index, e.length) := by
  induction sites with
  | nil => cases h
  | cons site more ih =>
    rw [fromSites] at h
    cases hsite : fromSite s site with
    | error e' =>
      rw [hsite] at h
      obtain rfl := Except.error.inj h
      exact ⟨site, List.mem_cons_self, fromSite_eq_error_iff.mp hsite⟩
    | ok first =>
      rw [hsite] at h
      cases hmore : fromSites s more with
      | error e' =>
        rw [hmore] at h
        obtain rfl := Except.error.inj h
        obtain ⟨t, ht, hout⟩ := ih hmore
        exact ⟨t, List.mem_cons_of_mem _ ht, hout⟩
      | ok others =>
        rw [hmore] at h
        cases h

/-- **A reader's fault** is about a node to which a front of the path leads, and the first index that is
outside there. -/
theorem exists_of_follow_eq_error (h : follow path sites = .error e) :
    ∃ pre s rest, path = pre ++ s :: rest ∧ ∃ t ∈ sites, ∃ u ∈ Path.targets pre t.2,
      e.place = t.1 ++ u.1 ∧ s.outside? u.2 = some (e.index, e.length) := by
  induction path generalizing sites with
  | nil => cases h
  | cons s rest ih =>
    rw [follow_cons] at h
    cases hs : fromSites s sites with
    | error e' =>
      rw [hs] at h
      obtain rfl := Except.error.inj h
      obtain ⟨t, ht, hplace, hout⟩ := exists_of_fromSites_eq_error hs
      refine ⟨[], s, rest, rfl, t, ht, ([], t.2), List.mem_singleton.mpr rfl, ?_, hout⟩
      rw [hplace, List.append_nil]
    | ok next =>
      rw [hs] at h
      obtain ⟨-, rfl⟩ := fromSites_eq_ok_iff.mp hs
      obtain ⟨pre, t, rest', rfl, site, hsite, u, hu, hplace, hout⟩ := ih h
      obtain ⟨site, hmem, hsite⟩ := List.mem_flatMap.mp hsite
      obtain ⟨c, hc, rfl⟩ := List.mem_map.mp hsite
      refine ⟨s :: pre, t, rest', rfl, site, hmem, (c.1 :: u.1, u.2), ?_, ?_, hout⟩
      · exact Path.mem_targets_cons.mpr ⟨c, hc, u, hu, rfl⟩
      · rw [hplace]
        simp

end Query

/-- A reader meets no fault exactly if each array to which a front of the path leads is long enough for
the segment that follows. -/
theorem Path.within_iff {path : Path} {v : Value} : path.Within v ↔
    ∀ pre s rest place items, path = pre ++ s :: rest → Path.Leads pre v place (.arr items) →
      s.reach ≤ items.length := by
  constructor
  · rintro h pre s rest place items rfl hleads
    have htarget := mem_targets_iff_leads.mpr hleads
    have hout := ((within_append.mp h).2 _ htarget).1
    exact Segment.outside?_eq_none_iff.mp hout items rfl
  · intro h
    induction path generalizing v with
    | nil => trivial
    | cons s rest ih =>
      refine ⟨Segment.outside?_eq_none_iff.mpr ?_,
        fun c hc => ih fun pre t rest' place items he hleads => ?_⟩
      · rintro items rfl
        exact h [] s rest [] items rfl (.here _)
      · exact h (s :: pre) t rest' (c.1 :: place) items (congrArg (s :: ·) he)
          (.of_mem_children hc hleads)

/-! ### the walk of the writer -/

/-- **Where a reader is not refused**, the walk of the writer reaches what the reader finds, in its
order. -/
theorem Removal.reached_eq_targets {pre : Path} {v : Value} (h : pre.Within v) (last : Segment) :
    (reached v (pre ++ [last])).map (fun b => (b.place, b.node)) = pre.targets v := by
  induction pre generalizing v with
  | nil => rfl
  | cons s pre ih =>
    rw [List.cons_append, reached_cons v s (by simp), Path.targets_cons]
    by_cases hs : s.fits v = true
    · rw [if_pos hs, List.map_flatMap]
      refine List.flatMap_congr fun c hc => ?_
      rw [← ih (h.2 c hc), List.map_map, List.map_map]
      rfl
    · rw [if_neg hs, Segment.children_eq_nil h.1 (by simpa using hs)]
      rfl

theorem query_eq_error_iff {root : Value} {path : Path} {e : Outside} :
    root.query path = .error e ↔ root.sites path = .error e := by
  rw [Value.query]
  cases root.sites path with
  | error e' => simp [Except.map]
  | ok sites => exact iff_of_false (by rintro ⟨⟩) (by rintro ⟨⟩)

/-- A refusal is about an array that is too short, and the first index that has no place in it. -/
theorem exists_of_query_eq_error {root : Value} {path : Path} {e : Outside}
    (h : root.query path = .error e) : ∃ pre s rest items, path = pre ++ s :: rest ∧
      Path.Leads pre root e.place (.arr items) ∧ e.length = items.length ∧
      s.firstOutside? items.length = some e.index := by
  obtain ⟨pre, s, rest, rfl, t, ht, u, hu, hplace, hout⟩ :=
    Query.exists_of_follow_eq_error (query_eq_error_iff.mp h)
  obtain rfl := List.mem_singleton.mp ht
  obtain ⟨items, hitems, hlen, hfirst⟩ := Segment.outside?_eq_some_iff.mp hout
  refine ⟨pre, s, rest, items, rfl, ?_, hlen, hfirst⟩
  rw [hplace, ← hitems]
  exact Path.mem_targets_iff_leads.mp hu

/-- **What a reader finds.**  It is refused exactly if a front of the path leads to an array that is too
short for the segment that follows, and then on account of such an array, of its length and of the first
index spelled out that has no place in it.  Otherwise it finds the nodes to which the path leads, each
once and in the order of the segments; and for whatever segment may follow, the walk of the writer that
has come through the path stands at these nodes, in this order. -/
theorem query_finds_or_refuses (root : Value) (path : Path) :
    ((∃ e, root.query path = .error e) ↔ ∃ pre s rest place items, path = pre ++ s :: rest ∧
      Path.Leads pre root place (.arr items) ∧ s.isPositional = true ∧
      items.length < s.reach) ∧
    (∀ e, root.query path = .error e → ∃ pre s rest items, path = pre ++ s :: rest ∧
      Path.Leads pre root e.place (.arr items) ∧ s.isPositional = true ∧
      items.length < s.reach ∧ e.length = items.length ∧
      Index.place? e.index items.length = none ∧
      ∃ before after, s.spelled = before ++ e.index :: after ∧
        ∀ i ∈ before, (Index.place? i items.length).isSome) ∧
    ∀ vs, root.query path = .ok vs → ∃ sites : List Site, vs = sites.map Prod.snd ∧
      (sites.map Prod.fst).Nodup ∧
      (∀ place node, (place, node) ∈ sites ↔ path.Leads root place node) ∧
      sites.Pairwise (fun t u => path.Precedes root t.1 u.1) ∧
      ∀ last, (((root.frontier (path ++ [last])).1.filter fun b =>
        !b.stuck && b.place.length == (path ++ [last]).length - 1).map
          fun b => (b.place, b.node)) = sites := by
  refine ⟨⟨?_, ?_⟩, fun e he => ?_, fun vs hvs => ?_⟩
  · rintro ⟨e, he⟩
    obtain ⟨pre, s, rest, items, rfl, hleads, -, hfirst⟩ := exists_of_query_eq_error he
    exact ⟨pre, s, rest, e.place, items, rfl, hleads, Segment.lt_reach_of_firstOutside? hfirst⟩
  · rintro ⟨pre, s, rest, place, items, hpath, hleads, -, hshort⟩
    cases hquery : root.query path with
    | error e => exact ⟨e, rfl⟩
    | ok vs =>
      have hreach := Path.within_iff.mp (query_eq_ok_iff.mp hquery).1 pre s rest place items hpath
        hleads
      exact absurd hshort (Nat.not_lt_of_le hreach)
  · obtain ⟨pre, s, rest, items, hpath, hleads, hlen, hfirst⟩ := exists_of_query_eq_error he
    obtain ⟨hpos, hshort⟩ := Segment.lt_reach_of_firstOutside? hfirst
    exact ⟨pre, s, rest, items, hpath, hleads, hpos, hshort, hlen,
      Segment.firstOutside?_eq_some_iff.mp hfirst⟩
  · obtain ⟨hwithin, rfl⟩ := query_eq_ok_iff.mp hvs
    refine ⟨path.targets root, rfl, ?_, fun place node => Path.mem_targets_iff_leads,
      Path.pairwise_precedes_targets path root, Removal.reached_eq_targets hwithin⟩
    exact List.pairwise_map.mpr ((Path.pairwise_targets path root).imp Location.Apart.ne)

/-- Of the rows that a list selects, in its order, the second one is too short for the span; without
that row the reader finds four elements, and the walk stands at them. -/
theorem query_finds_or_refuses_rows :
    let one : Value := .num (.int 1)
    let root := Value.obj [("a", .arr [.arr [one], .arr [.null, one], .str "x"])]
    let path (is : List Int) : Path := [.member "a", .indexes is, .span 1 (some (-1))]
    root.query (path [1, 0]) = .error ⟨[.key "a", .pos 0], 1, 1⟩ ∧
      (∃ pre s rest place items, path [1, 0] = pre ++ s :: rest ∧
        Path.Leads pre root place (.arr items) ∧ s.isPositional = true ∧
        items.length < s.reach) ∧
      root.query (path [2, 1]) = .ok [one, .null] ∧
      ∃ sites : List Site, [one, .null] = sites.map Prod.snd ∧
        (((root.frontier (path [2, 1] ++ [Segment.index 0])).1.filter fun b =>
          !b.stuck && b.place.length == (path [2, 1] ++ [Segment.index 0]).length - 1).map
            fun b => (b.place, b.node)) = sites := by
  intro one root path
  have hrefused : root.query (path [1, 0]) = .error ⟨[.key "a", .pos 0], 1, 1⟩ := by rfl
  have hfound : root.query (path [2, 1]) = .ok [one, .null] := by rfl
  obtain ⟨sites, hsites, -, -, -, hwalk⟩ := (query_finds_or_refuses root (path [2, 1])).2.2 _ hfound
  exact ⟨hrefused, (query_finds_or_refuses root (path [1, 0])).1.mp ⟨_, hrefused⟩, hfound, sites,
    hsites, hwalk (Segment.index 0)⟩

end PathDoc
