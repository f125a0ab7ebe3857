import PathDoc.Proofs.Plucking
import PathDoc.Proofs.Room
import PathDoc.Proofs.Taking

/-!
# PathDoc.Proofs.OpenSpans — how far a span without an end goes

A reader and a removal end such a span at the last element of the array, by its index from the front, and
walk there from the start.  From a start that is counted from the front the walk is the rest of the
array (`Segment.hits_span_of_front`).  One that is counted from the end is a negative index, and from
there the walk comes to the last element by way of zero: it takes the elements from the start to the end
of the array, and then goes on at its front with all the others (`Segment.hits_span_of_back`).
-/

namespace PathDoc

open Json

/-! ### runs of positions -/

theorem filterMap_getElem?_range' {α : Type} (items : List α) (a k : ℕ) :
    (List.range' a k).filterMap (items[·]?) = (items.drop a).take k := by
  induction k generalizing a with
  | zero => simp
  | succ k ih =>
    rw [List.range'_succ, List.filterMap_cons, ih]
    by_cases ha : a < items.length
    · rw [List.getElem?_eq_getElem ha, List.drop_eq_getElem_cons ha, List.take_succ_cons]
    · have hdrop : items.drop a = [] := List.drop_eq_nil_of_le (by omega)
      have hdrop' : items.drop (a + 1) = [] := List.drop_eq_nil_of_le (by omega)
      rw [List.getElem?_eq_none (by omega), hdrop, hdrop', List.take_nil, List.take_nil]

/-- The positions of an array before some position, and those from there on. -/
theorem range_eq_append {n p : ℕ} (h : p ≤ n) :
    List.range n = List.range p ++ List.range' p (n - p) := by
  have hjoin := List.range'_append_1 (s := 0) (m := p) (n := n - p)
  rw [Nat.zero_add, Nat.add_sub_cancel' h] at hjoin
  rw [List.range_eq_range', List.range_eq_range', hjoin]

/-- All positions in turn, after a run of the last ones: that run, and then the others. -/
theorem eraseDups_range'_append_range {n p : ℕ} (h : p ≤ n) :
    (List.range' p (n - p) ++ List.range n).eraseDups = List.range' p (n - p) ++ List.range p := by
  have hkept : (List.range n).removeAll (List.range' p (n - p)) = List.range p := by
    have hfront : (List.range p).filter (fun q => !(List.range' p (n - p)).elem q) = List.range p := by
      refine List.filter_eq_self.mpr fun q hq => ?_
      have hlt := List.mem_range.mp hq
      rw [Bool.not_eq_true', ← Bool.not_eq_true, List.elem_iff, List.mem_range'_1]
      omega
    have hback : (List.range' p (n - p)).filter (fun q => !(List.range' p (n - p)).elem q) = [] :=
      List.filter_eq_nil_iff.mpr fun q hq => by simpa using hq
    rw [List.removeAll, range_eq_append h, List.filter_append, hfront, hback, List.append_nil]
  rw [List.eraseDups_append, hkept, eraseDups_of_nodup List.nodup_range',
    eraseDups_of_nodup List.nodup_range]

namespace Index

variable {n p q : ℕ}

theorem upTo_append {a b c : Int} (hab : a ≤ b) (hbc : b ≤ c + 1) :
    upTo a c = upTo a (b - 1) ++ upTo b c := by
  have hsum : (c + 1 - a).toNat = (b - 1 + 1 - a).toNat + (c + 1 - b).toNat := by omega
  rw [upTo, hsum, List.range_add, List.map_append, List.map_map]
  refine congrArg (upTo a (b - 1) ++ ·) (List.map_congr_left fun k _ => ?_)
  rw [Function.comp_apply]
  omega

/-- Indexes that follow each other have places that do, if the first one keeps its distance. -/
theorem filterMap_place?_upTo {a b : Int}
    (h : ∀ k : ℕ, a + k ≤ b → place? (a + k) n = some (q + k)) :
    (upTo a b).filterMap (place? · n) = List.range' q (b + 1 - a).toNat := by
  rw [upTo, List.filterMap_map, List.range'_eq_map_range, List.filterMap_eq_map_iff_forall_eq_some]
  intro k hk
  have hlt := List.mem_range.mp hk
  exact h k (by omega)

end Index

namespace Segment

open Index

variable {start : Int} {n p : ℕ} {items : List Value}

/-! ### the positions of an open span -/

theorem filterMap_place?_front (h : p < n) :
    (upTo p ((n : Int) - 1)).filterMap (place? · n) = List.range' p (n - p) := by
  have hlen : ((n : Int) - 1 + 1 - p).toNat = n - p := by omega
  rw [filterMap_place?_upTo (q := p), hlen]
  intro k hk
  exact place?_eq_some_iff.mpr ⟨by omega, .inl (by omega)⟩

theorem filterMap_place?_back (h : p < n) :
    (upTo ((p : Int) - n) (0 - 1)).filterMap (place? · n) = List.range' p (n - p) := by
  have hlen : ((0 : Int) - 1 + 1 - (p - n)).toNat = n - p := by omega
  rw [filterMap_place?_upTo (q := p), hlen]
  intro k hk
  exact place?_eq_some_iff.mpr ⟨by omega, .inr (by omega)⟩

/-- From a start that is counted from the front: the rest of the array. -/
theorem hits_span_of_front (h : p < n) : (span p none).hits n = List.range' p (n - p) := by
  have hlist : (span p none).indexList ((n : Int) - 1) = upTo p ((n : Int) - 1) :=
    if_pos (by rw [Option.getD_none]; omega)
  rw [hits, hlist, filterMap_place?_front h, eraseDups_of_nodup List.nodup_range']

/-- From a start that is counted from the end: the rest of the array, and then the elements before it. -/
theorem hits_span_of_back (h : p < n) :
    (span ((p : Int) - n) none).hits n = List.range' p (n - p) ++ List.range p := by
  have hlist : (span ((p : Int) - n) none).indexList ((n : Int) - 1) =
      upTo ((p : Int) - n) ((n : Int) - 1) := if_pos (by rw [Option.getD_none]; omega)
  have hfront := filterMap_place?_front (n := n) (p := 0) (by omega)
  rw [Int.natCast_zero, Nat.sub_zero, ← List.range_eq_range'] at hfront
  -- the walk crosses zero: its negative indexes lie at the end of the array, the others in all of it
  rw [hits, hlist, upTo_append (b := 0) (by omega) (by omega), List.filterMap_append,
    filterMap_place?_back h, hfront, eraseDups_range'_append_range h.le]

/-! ### what is read and what is removed -/

variable {s : Segment}

/-- A reader of an array that is long enough finds the elements at the positions of the segment. -/
theorem query_arr (h : s.reach ≤ items.length) :
    (Value.arr items).query [s] = .ok ((s.hits items.length).filterMap (items[·]?)) := by
  have hout : s.outside? (.arr items) = none :=
    outside?_eq_none_iff.mpr fun xs hxs => Value.arr.inj hxs ▸ h
  have hvalues := map_snd_targets_concat [] s (.arr items)
  rw [List.nil_append, Path.targets_nil, List.flatMap_singleton, children_arr,
    List.map_filterMap] at hvalues
  refine query_eq_ok_iff.mpr ⟨⟨hout, fun c _ => trivial⟩, ?_⟩
  rw [hvalues]
  refine List.filterMap_congr fun p _ => ?_
  cases items[p]? <;> rfl

/-- The walk of the writer splits there into a branch for each of these positions. -/
theorem places_frontier_arr (hs : s.isPositional = true) (h : s.reach ≤ items.length) (t : Segment) :
    ((Value.arr items).frontier [s, t]).1.map Branch.place =
      (s.hits items.length).map fun p => [Step.pos p] := by
  have hfits : s.fits (.arr items) = true := by rw [fits_arr hs, decide_eq_true h]
  have hbranch (c : Step × Value) :
      ((c.2.frontier [t]).1.map (Branch.under c.1)).map Branch.place = [[c.1]] := rfl
  have hsteps := s.steps_arr items
  rw [steps] at hsteps
  rw [frontier_cons_cons, if_pos hfits, List.map_flatMap]
  simp only [hbranch]
  rw [← List.map_eq_flatMap]
  have hsingle := congrArg (List.map fun step => [step]) hsteps
  rwa [List.map_map, List.map_map] at hsingle

/-- An open span reaches into each array in which its start has a place. -/
theorem reach_span_le (h : place? start n = some p) : (span start none).reach ≤ n := by
  have hreach : Index.reach start ≤ n := place?_isSome_iff.mp (by rw [h]; rfl)
  exact reach_le_iff_spelled.mpr fun i hi => by rwa [List.mem_singleton.mp hi]

theorem place?_front (h : p < n) : place? p n = some p := place?_eq_some_iff.mpr ⟨h, .inl rfl⟩

theorem place?_back (h : p < n) : place? ((p : Int) - n) n = some p :=
  place?_eq_some_iff.mpr ⟨h, .inr rfl⟩

theorem query_span_of_front (h : p < items.length) :
    (Value.arr items).query [span p none] = .ok (items.drop p) := by
  rw [query_arr (reach_span_le (place?_front h)), hits_span_of_front h, filterMap_getElem?_range',
    List.take_of_length_le (by rw [List.length_drop])]

theorem query_span_of_back (h : p < items.length) :
    (Value.arr items).query [span ((p : Int) - items.length) none] =
      .ok (items.drop p ++ items.take p) := by
  rw [query_arr (reach_span_le (place?_back h)), hits_span_of_back h, List.filterMap_append,
    filterMap_getElem?_range', List.range_eq_range', filterMap_getElem?_range', List.drop_zero,
    List.take_of_length_le (by rw [List.length_drop])]

/-- What is removed by a span that denotes the positions from `a` on. -/
theorem pluck_span_of_from {stop : Option Int} {a : ℕ} (ha : a < items.length)
    (hmem : ∀ q < items.length, q ∈ (span start stop).hits items.length ↔ a ≤ q) :
    (span start stop).pluck items = (some (.arr (items.drop a)), items.take a) := by
  have hat : itemsAt ((span start stop).hits items.length) items = (items.take items.length).drop a :=
    itemsAt_eq_drop_take fun q hq => (hmem q hq).trans (and_iff_left hq).symm
  have hsome : (items.drop a).isEmpty = false := by simpa using ha
  rw [pluck_eq, itemsBut_eq_take hmem, hat, List.take_length, handed?_of_not_index (by simp), hsome]
  rfl

theorem pluck_span_of_front (h : p < items.length) :
    (span p none).pluck items = (some (.arr (items.drop p)), items.take p) := by
  refine pluck_span_of_from h fun q hq => ?_
  rw [hits_span_of_front h, List.mem_range'_1]
  omega

theorem pluck_span_of_back (h : p < items.length) :
    (span ((p : Int) - items.length) none).pluck items = (some (.arr items), []) := by
  refine pluck_span_of_from (a := 0) (by omega) fun q hq => ?_
  rw [hits_span_of_back h, List.mem_append, List.mem_range'_1, List.mem_range]
  omega

/-- **How far an open span goes** in an array in which its start has a place, which is at `p` from the
front.  The writer's walk splits at the positions that a reader finds, and the elements there are
removed.  From a start that is counted from the front these are the positions from `p` on.  From one
that is counted from the end they are, after those, the positions before `p` too, so that all of the array
is removed.  So the span denotes the elements from its start to the end of the array, and no others,
exactly if its start is counted from the front or is the first element. -/
theorem open_span_goes_around (items : List Value) (start : Int) (p : ℕ)
    (hlo : -(items.length : Int) ≤ start) (hhi : start < items.length)
    (hp : (p : Int) = if 0 ≤ start then start else items.length + start) :
    let s := Segment.span start none
    p < items.length ∧ Index.place? start items.length = some p ∧
    (∀ t, ((Value.arr items).frontier [s, t]).1.map Branch.place =
      (s.hits items.length).map fun q => [Step.pos q]) ∧
    (0 ≤ start → s.hits items.length = List.range' p (items.length - p) ∧
      (Value.arr items).query [s] = .ok (items.drop p) ∧
      s.pluck items = (some (.arr (items.drop p)), items.take p)) ∧
    (start < 0 → s.hits items.length = List.range' p (items.length - p) ++ List.range p ∧
      (Value.arr items).query [s] = .ok (items.drop p ++ items.take p) ∧
      s.pluck items = (some (.arr items), [])) ∧
    ((∀ q, q ∈ s.hits items.length ↔ p ≤ q ∧ q < items.length) ↔ 0 ≤ start ∨ p = 0) := by
  intro s
  by_cases h0 : 0 ≤ start
  · rw [if_pos h0] at hp
    subst hp
    have hlt : p < items.length := by omega
    have hhits := hits_span_of_front hlt
    refine ⟨hlt, place?_front hlt,
      places_frontier_arr rfl (reach_span_le (place?_front hlt)),
      fun _ => ⟨hhits, query_span_of_front hlt, pluck_span_of_front hlt⟩,
      fun hneg => absurd h0 (by omega), iff_of_true (fun q => ?_) (.inl h0)⟩
    rw [hhits, List.mem_range'_1]
    omega
  · rw [if_neg h0] at hp
    obtain rfl : start = (p : Int) - items.length := by omega
    have hlt : p < items.length := by omega
    have hhits := hits_span_of_back hlt
    refine ⟨hlt, place?_back hlt,
      places_frontier_arr rfl (reach_span_le (place?_back hlt)),
      fun hpos => absurd hpos h0,
      fun _ => ⟨hhits, query_span_of_back hlt, pluck_span_of_back hlt⟩, fun hall => ?_, fun hor q => ?_⟩
    · -- the first element is among the positions, so the start can only be the first one
      have hfirst : 0 ∈ s.hits items.length := by
        rw [hhits, List.mem_append, List.mem_range'_1, List.mem_range]
        omega
      exact .inr (Nat.le_zero.mp ((hall 0).mp hfirst).1)
    · rw [hhits, List.mem_append, List.mem_range'_1, List.mem_range]
      omega

/-- From the second of four elements, counted from the front and counted from the end. -/
theorem open_span_goes_around_from_second :
    let items := [Value.str "a", .str "b", .str "c", .str "d"]
    (Value.arr items).query [.span 1 none] = .ok [.str "b", .str "c", .str "d"] ∧
      (Segment.span 1 none).pluck items =
        (some (.arr [.str "b", .str "c", .str "d"]), [.str "a"]) ∧
      (Value.arr items).query [.span (-3) none] =
        .ok [.str "b", .str "c", .str "d", .str "a"] ∧
      (Segment.span (-3) none).pluck items = (some (.arr items), []) := by
  intro items
  obtain ⟨-, -, -, hfront, -⟩ :=
    open_span_goes_around items 1 1 (by decide) (by decide) (by decide)
  obtain ⟨-, -, -, -, hback, -⟩ :=
    open_span_goes_around items (-3) 1 (by decide) (by decide) (by decide)
  obtain ⟨-, hread, hpluck⟩ := hfront (by decide)
  obtain ⟨-, hread', hpluck'⟩ := hback (by decide)
  exact ⟨hread, hpluck, hread', hpluck'⟩

end Segment

/-- The last of three elements, counted from the end: its position is the third, but a span that is open
from there finds all three, and all of them are removed. -/
theorem Draft.take_from_last_takes_all :
    let items := [Value.num (.int 1), .num (.int 2), .num (.int 3)]
    let d := ofValue (.obj [("a", .arr items)])
    let s := Segment.span (-1) none
    Path.read "a[-1:]" = .ok [.member "a", s] ∧ -(items.length : Int) ≤ -1 ∧
      Index.place? (-1) items.length = some 2 ∧ s.hits items.length = [2, 0, 1] ∧
      (¬ ∀ q, q ∈ s.hits items.length ↔ 2 ≤ q ∧ q < items.length) ∧
      d.query "a[-1:]" = .ok [.num (.int 3), .num (.int 1), .num (.int 2)] ∧
      d.take "a[-1:]" = .ok (some (.arr items), ofValue (.obj [("a", .arr [])])) := by
  intro items d s
  have hhits : s.hits items.length = [2, 0, 1] := by decide
  refine ⟨by rfl, by decide, by decide, hhits, fun hall => ?_, by rfl, by rfl⟩
  have hfirst := ((hall 0).mp (by rw [hhits]; simp)).1
  omega

end PathDoc
