import Mathlib.Data.List.Flatten
import PathDoc.Proofs.Composition
import PathDoc.Proofs.Drafts

/-!
# PathDoc.Proofs.Order — in which order a removal hands back

A removal at several nodes hands back an entry for each of them, in the order in which the walk comes
to them: that of the reader, who follows lists and spans as they are written.  It is the order of the
document if every list and span before the last segment goes upward (`Segment.isAscending`).
-/

namespace PathDoc

open Json

/-- The first location lies before the second in the document: they part at an array, and the first
goes to the earlier element. -/
def Location.Before (l m : Location) : Prop :=
  ∃ front i j back back', l = front ++ .pos i :: back ∧ m = front ++ .pos j :: back' ∧ i < j

namespace Location

theorem Before.cons {l m : Location} (h : l.Before m) (step : Step) :
    Location.Before (step :: l) (step :: m) := by
  obtain ⟨front, i, j, back, back', rfl, rfl, hij⟩ := h
  exact ⟨step :: front, i, j, back, back', rfl, rfl, hij⟩

theorem before_of_lt {i j : ℕ} (h : i < j) (l m : Location) :
    Location.Before (.pos i :: l) (.pos j :: m) := ⟨[], i, j, l, m, rfl, rfl, h⟩

theorem Before.asymm {l m : Location} (h : l.Before m) : ¬ m.Before l := by
  obtain ⟨front, i, j, back, back', rfl, rfl, hij⟩ := h
  rintro ⟨front', k, n, tail, tail', hm, hl, hkn⟩
  induction front generalizing front' with
  | nil =>
    cases front' with
    | nil =>
      obtain ⟨hjk, -⟩ := List.cons.inj hm
      obtain ⟨hin, -⟩ := List.cons.inj hl
      have hjk := Step.pos.inj hjk
      have hin := Step.pos.inj hin
      omega
    | cons step front' =>
      obtain ⟨hj, -⟩ := List.cons.inj hm
      obtain ⟨hi, -⟩ := List.cons.inj hl
      have := Step.pos.inj (hi.trans hj.symm)
      omega
  | cons step front ih =>
    cases front' with
    | nil =>
      obtain ⟨hj, -⟩ := List.cons.inj hm
      obtain ⟨hi, -⟩ := List.cons.inj hl
      have := Step.pos.inj (hi.symm.trans hj)
      omega
    | cons step' front' =>
      exact ih front' (List.cons.inj hm).2 (List.cons.inj hl).2

end Location

/-! ### segments that go upward -/

theorem eraseDups_sublist {α : Type} [BEq α] [LawfulBEq α] : ∀ l : List α, l.eraseDups.Sublist l
  | [] => by simp
  | a :: l => by
    rw [List.eraseDups_cons]
    exact ((eraseDups_sublist _).trans List.filter_sublist).cons_cons a
termination_by l => l.length
decreasing_by
  have := List.length_filter_le (fun b => !b == a) l
  simp only [List.length_cons]; omega

namespace Segment

open Index

variable {s : Segment} {n : ℕ} {v : Value}

/-- Whether the second index lies no earlier than the first one in every array that holds both. -/
def upward (i j : Int) : Bool := i ≤ j && (0 ≤ i || j < 0)

/-- Whether the segment lists its positions in the order of every array in which it fits. -/
def isAscending : Segment → Bool
  | indexes is => is.Pairwise fun i j => upward i j
  | span start (some stop) => upward start stop
  | span start none => 0 ≤ start
  | _ => true

theorem upward_iff {i j : Int} : upward i j = true ↔ i ≤ j ∧ (0 ≤ i ∨ j < 0) := by
  simp [upward]

theorem place?_le_of_upward {i j : Int} {p q : ℕ} (h : upward i j = true) (hp : place? i n = some p)
    (hq : place? j n = some q) : p ≤ q := by
  have hij := upward_iff.mp h
  have hp := place?_eq_some_iff.mp hp
  have hq := place?_eq_some_iff.mp hq
  omega

theorem pairwise_walk {a b : Int} (h : upward a b = true) :
    (walk a b).Pairwise fun i j => upward i j = true := by
  obtain ⟨hab, hsign⟩ := upward_iff.mp h
  rw [walk, if_pos hab, upTo, List.pairwise_map]
  refine (List.pairwise_lt_range.imp_of_mem) fun {k m} _ hm hkm => ?_
  have hlt := List.mem_range.mp hm
  rw [upward_iff]
  omega

theorem pairwise_indexList (ha : s.isAscending = true) (hn : s.reach ≤ n) :
    (s.indexList ((n : Int) - 1)).Pairwise fun i j => upward i j = true := by
  cases s with
  | member name => exact List.Pairwise.nil
  | index i => exact List.pairwise_singleton _ _
  | indexes is => exact of_decide_eq_true ha
  | span start stop =>
    refine pairwise_walk ?_
    cases stop with
    | some stop => exact ha
    | none =>
      have hstart : 0 ≤ start := of_decide_eq_true ha
      obtain ⟨hreach, -⟩ := reach_span_le_iff.mp hn
      rw [Index.reach, if_pos hstart] at hreach
      rw [Option.getD_none, upward_iff]
      omega

theorem pairwise_hits (ha : s.isAscending = true) (hn : s.reach ≤ n) :
    (s.hits n).Pairwise (· < ·) := by
  have hle : (s.hits n).Pairwise (· ≤ ·) := by
    refine List.Pairwise.sublist (eraseDups_sublist _) ?_
    refine (pairwise_indexList ha hn).filterMap _ fun i j hij p hp q hq => ?_
    exact place?_le_of_upward hij hp hq
  exact (hle.and (s.nodup_hits n)).imp fun h => lt_of_le_of_ne h.1 h.2

/-- The children that such a segment selects come in the order of their array. -/
theorem pairwise_children (ha : s.isAscending = true) (hf : s.fits v = true) :
    (s.children v).Pairwise fun c d => ∀ l m : Location,
      Location.Before (c.1 :: l) (d.1 :: m) := by
  cases hs : s.isPositional with
  | true =>
    obtain ⟨items, rfl, hn⟩ := (fits_iff hs).mp hf
    have hsteps : (s.steps (.arr items)).Pairwise fun c d => ∀ l m : Location,
        Location.Before (c :: l) (d :: m) := by
      rw [steps_arr, List.pairwise_map]
      exact (pairwise_hits ha hn).imp fun h => Location.before_of_lt h
    exact List.pairwise_map.mp hsteps
  | false =>
    obtain ⟨name, rfl⟩ := exists_eq_member hs
    cases v with
    | obj ms =>
      rw [children_member_obj]
      cases Members.get? ms name with
      | none => exact List.Pairwise.nil
      | some c => exact List.pairwise_singleton _ _
    | _ => simp [fits] at hf

end Segment

/-! ### the entries of a removal -/

namespace Removal

variable {pre : Path} {last : Segment} {v : Value}

/-- An entry for each node that the walk reaches, in its order. -/
theorem uproot_fst_eq_reached (pre : Path) (last : Segment) (v : Value) :
    (uproot last pre v).1 = (reached v (pre ++ [last])).map fun b => (last.cut b.node).1 := by
  induction pre generalizing v with
  | nil => rfl
  | cons s pre ih =>
    rw [uproot, List.cons_append, reached_cons v s (by simp)]
    by_cases h : s.fits v = true
    · rw [if_pos h, if_pos h, List.map_flatMap]
      refine List.flatMap_congr fun c _ => ?_
      rw [ih, List.map_map]
      rfl
    · rw [if_neg h, if_neg h]
      rfl

/-- The walk reaches nodes that a reader finds, in the reader's order. -/
theorem reached_sublist (pre : Path) (last : Segment) (v : Value) :
    ((reached v (pre ++ [last])).map fun b => (b.place, b.node)).Sublist (pre.targets v) := by
  induction pre generalizing v with
  | nil => exact List.Sublist.refl _
  | cons s pre ih =>
    rw [List.cons_append, reached_cons v s (by simp), Path.targets_cons]
    by_cases h : s.fits v = true
    · rw [if_pos h, List.map_flatMap]
      refine List.Sublist.flatMap_right _ fun c _ => ?_
      have hmap := (ih c.2).map (Site.under [c.1])
      rw [List.map_map] at hmap ⊢
      exact hmap
    · rw [if_neg h]
      exact List.nil_sublist _

/-- Where every segment goes upward, that is the order of the document. -/
theorem pairwise_reached (ha : ∀ s ∈ pre, s.isAscending = true) (v : Value) :
    (reached v (pre ++ [last])).Pairwise fun b c => b.place.Before c.place := by
  induction pre generalizing v with
  | nil => exact List.pairwise_singleton _ _
  | cons s pre ih =>
    rw [List.forall_mem_cons] at ha
    rw [List.cons_append, reached_cons v s (by simp)]
    by_cases h : s.fits v = true
    · rw [if_pos h, List.pairwise_flatMap]
      constructor
      · intro c _
        rw [List.pairwise_map]
        exact (ih ha.2 c.2).imp fun hbc => hbc.cons c.1
      · refine (Segment.pairwise_children ha.1 h).imp fun {c d} hcd b hb b' hb' => ?_
        obtain ⟨b, -, rfl⟩ := List.mem_map.mp hb
        obtain ⟨b', -, rfl⟩ := List.mem_map.mp hb'
        exact hcd b.place b'.place
    · rw [if_neg h]
      exact List.Pairwise.nil

end Removal

namespace Draft

variable {d : Draft} {text : String} {pre : Path} {last : Segment}

theorem handBack?_of_many {entries : List (Option Value)} (hmany : 2 ≤ entries.length)
    (hsome : ∃ entry ∈ entries, entry ≠ none) :
    handBack? entries = some (.arr (entries.map (·.getD .null))) := by
  match entries with
  | [] => simp at hmany
  | [entry] => simp at hmany
  | first :: second :: more =>
    have hall : (first :: second :: more).all Option.isNone = false := by
      obtain ⟨entry, hmem, hne⟩ := hsome
      rw [← Bool.not_eq_true, List.all_eq_true]
      exact fun h => hne (Option.isNone_iff_eq_none.mp (h entry hmem))
    rw [handBack?, hall]
    · rfl
    · simp

/-- **What a removal at several nodes hands back**: an array of one entry for each node that the walk
reaches, none of which lies in another one, in the order of the reader; and so in the order of the
document if every segment before the last one goes upward. -/
theorem take_hands_back_in_walk_order (hpath : Path.read text = .ok (pre ++ [last]))
    (hmany : 2 ≤ (Removal.reached d.root (pre ++ [last])).length)
    (hsome : ∃ b ∈ Removal.reached d.root (pre ++ [last]), (last.cut b.node).1 ≠ none) :
    let reached := Removal.reached d.root (pre ++ [last])
    (∃ d', d.take text =
      .ok (some (.arr (reached.map fun b => (last.cut b.node).1.getD .null)), d')) ∧
    (∀ b ∈ reached, d.root.get? b.place = some b.node) ∧
    (reached.Pairwise fun b c => b.place.Apart c.place) ∧
    (reached.map fun b => (b.place, b.node)).Sublist (pre.targets d.root) ∧
    ((∀ s ∈ pre, s.isAscending = true) →
      reached.Pairwise fun b c => b.place.Before c.place) := by
  intro reached
  have hsub := Removal.reached_sublist pre last d.root
  have hentries : (d.root.prune (pre ++ [last])).1 = reached.map fun b => (last.cut b.node).1 := by
    rw [prune_eq_uproot, Removal.uproot_fst_eq_reached]
  refine ⟨?_, fun b hb => ?_, ?_, hsub, fun ha => Removal.pairwise_reached ha d.root⟩
  · have hback : handBack? (d.root.prune (pre ++ [last])).1 =
        some (.arr (reached.map fun b => (last.cut b.node).1.getD .null)) := by
      obtain ⟨b, hb, hne⟩ := hsome
      rw [hentries, handBack?_of_many (by rw [List.length_map]; exact hmany)
        ⟨_, List.mem_map_of_mem hb, hne⟩, List.map_map]
      rfl
    rw [take_of_read hpath, hback]
    exact ⟨_, rfl⟩
  · have hmem : (b.place, b.node) ∈ reached.map fun b => (b.place, b.node) := List.mem_map_of_mem hb
    exact Path.get?_of_mem_targets (hsub.subset hmem)
  · have hapart := (Path.pairwise_targets pre d.root).sublist hsub
    rw [List.pairwise_map] at hapart
    exact hapart

/-- Three of four rows in the order of the document; the first of them has nothing to lose. -/
theorem take_hands_back_in_walk_order_rows :
    let row (i : Int) := Value.obj [("t", .num (.int i))]
    let d := ofValue (.obj [("rows", .arr [.obj [], row 2, row 3, row 4])])
    let pre : Path := [.member "rows", .indexes [0, 1, 3]]
    let reached := Removal.reached d.root (pre ++ [.member "t"])
    Path.read "rows[0,1,3].t" = .ok (pre ++ [.member "t"]) ∧
      (∃ d', d.take "rows[0,1,3].t" =
        .ok (some (.arr [.null, .num (.int 2), .num (.int 4)]), d')) ∧
      (∀ s ∈ pre, s.isAscending = true) ∧
      reached.Pairwise fun b c => b.place.Before c.place := by
  intro row d pre reached
  have hpath : Path.read "rows[0,1,3].t" = .ok (pre ++ [.member "t"]) := by rfl
  have hmany : 2 ≤ reached.length := by decide
  have hasc : ∀ s ∈ pre, s.isAscending = true := by decide
  have hsome : ∃ b ∈ reached, ((Segment.member "t").cut b.node).1 ≠ none :=
    ⟨⟨[.key "rows", .pos 1], row 2, false⟩, List.mem_cons_of_mem _ List.mem_cons_self,
      Option.some_ne_none _⟩
  obtain ⟨htake, -, -, -, horder⟩ := take_hands_back_in_walk_order (d := d) hpath hmany hsome
  exact ⟨hpath, htake, hasc, horder hasc⟩

/-- A list that goes backward: two rows are reached, the second one first, and the array that is
handed back holds what the second one lost before what the first one lost. -/
theorem take_hands_back_backward :
    let row (i : Int) := Value.obj [("t", .num (.int i))]
    let d := ofValue (.obj [("rows", .arr [row 1, row 2])])
    let path : Path := [.member "rows", .indexes [1, 0], .member "t"]
    let first : Location := [.key "rows", .pos 0]
    let second : Location := [.key "rows", .pos 1]
    Path.read "rows[1,0].t" = .ok path ∧ first.Before second ∧
      (Removal.reached d.root path).map Branch.place = [second, first] ∧
      (¬ (Removal.reached d.root path).Pairwise fun b c => b.place.Before c.place) ∧
      d.take "rows[1,0].t" = .ok (some (.arr [.num (.int 2), .num (.int 1)]),
        ofValue (.obj [("rows", .arr [.obj [], .obj []])])) := by
  intro row d path first second
  have hbefore : first.Before second := (Location.before_of_lt Nat.zero_lt_one [] []).cons _
  have hplaces : (Removal.reached d.root path).map Branch.place = [second, first] := by rfl
  refine ⟨by rfl, hbefore, hplaces, fun hp => ?_, by rfl⟩
  have hpair : [second, first].Pairwise fun l m => l.Before m := by
    rw [← hplaces]
    exact List.pairwise_map.mpr hp
  exact hbefore.asymm (List.rel_of_pairwise_cons hpair List.mem_cons_self)

end Draft

end PathDoc
