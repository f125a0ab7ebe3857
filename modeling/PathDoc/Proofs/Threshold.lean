import PathDoc.Proofs.Plucking
import PathDoc.Proofs.Reading

/-!
# PathDoc.Proofs.Threshold — from which length on an array holds all of a segment

The walk of the writer goes into an array if it is as long as the reach of the segment, and a reader is not
refused if each index that is spelled out has a place.  Both look at what is spelled out alone: at the
ends of a span, and at the start of an open one.  But the array then holds each index in between as well,
down to the last element where the walk of an open span ends (`Segment.reach_le_iff_indexList`).  So
from that length on, and in no shorter array, each index of the segment has its element, and neither
search drops one (`Segment.FindsAll`).
-/

namespace PathDoc

open Json

namespace Segment

variable {s : Segment} {n : ℕ} {items : List Value}

/-- **The reach of a segment is the least length** of an array in which all its indexes have a position
among the elements. -/
theorem reach_le_iff_forall_exists : s.reach ≤ n ↔
    ∀ i ∈ s.indexList ((n : Int) - 1), ∃ p < n, Index.position? i n = some p := by
  rw [reach_le_iff_indexList]
  exact forall₂_congr fun i _ => Index.reach_le_iff_exists_position?

/-- Whether each index of the segment has an element in an array, and it is found one step away. -/
def FindsAll (s : Segment) (items : List Value) (found : Step → Value → Prop) : Prop :=
  ∀ i ∈ s.indexList ((items.length : Int) - 1), ∃ p c,
    Index.position? i items.length = some p ∧ items[p]? = some c ∧ found (.pos p) c

theorem FindsAll.imp {found found' : Step → Value → Prop} (h : s.FindsAll items found)
    (himp : ∀ step c, found step c → found' step c) : s.FindsAll items found' := by
  intro i hi
  obtain ⟨p, c, hp, hc, hfound⟩ := h i hi
  exact ⟨p, c, hp, hc, himp _ _ hfound⟩

/-- In an array that is long enough all elements are among the children that the segment selects. -/
theorem findsAll_children (h : s.reach ≤ items.length) :
    s.FindsAll items fun step c => (step, c) ∈ s.children (.arr items) := by
  intro i hi
  obtain ⟨p, hlt, hp⟩ := reach_le_iff_forall_exists.mp h i hi
  have hc : items[p]? = some items[p] := List.getElem?_eq_getElem hlt
  have hhit : p ∈ s.hits items.length := mem_hits_iff_exists.mpr ⟨hlt, i, hi, hp⟩
  refine ⟨p, items[p], hp, hc, mem_children.mpr ⟨?_, hc⟩⟩
  rw [steps_arr]
  exact List.mem_map_of_mem hhit

end Segment

/-! ### the walk of the writer -/

namespace Frontier

variable {pre : Path} {s t : Segment} {root : Value} {b : Branch} {items : List Value}

theorem follow_concat (pre : Path) (s : Segment) (front : List Branch) :
    follow (pre ++ [s]) front = (follow pre front).flatMap (·.advance s) := by
  rw [follow, List.foldl_concat]
  rfl

/-- A walk that comes to lie below an array has found the array long enough. -/
theorem reach_le_of_follow {c : Branch} (hb : b ∈ follow pre [Branch.start root])
    (hfree : b.stuck = false) (hnode : b.node = .arr items)
    (hc : c ∈ follow (pre ++ [s]) [Branch.start root]) (hbelow : b.place <+: c.place)
    (hne : b.place ≠ c.place) : s.reach ≤ items.length := by
  have hfollows := follows_of_mem hb
  have hlen : b.place.length = pre.length := hfollows.free hfree
  have hs : (pre ++ [s])[b.place.length]? = some s := by
    rw [hlen, List.getElem?_concat_length]
  have hlt : b.place.length < c.place.length :=
    lt_of_le_of_ne hbelow.length_le fun he => hne (hbelow.eq_of_length he)
  refine (follows_of_mem hc).fits _ s items hs hlt ?_
  rw [← List.prefix_iff_eq_take.mp hbelow, hfollows.leads.get?, hnode]

/-- **The walk loses no index** of an array that it goes into. -/
theorem findsAll_of_below (hb : b ∈ (root.frontier (pre ++ [s])).1) (hfree : b.stuck = false)
    (hnode : b.node = .arr items)
    (hbelow : ∃ c ∈ (root.frontier (pre ++ [s, t])).1, b.place <+: c.place ∧ b.place ≠ c.place) :
    s.FindsAll items fun step c =>
      ⟨b.place ++ [step], c, false⟩ ∈ (root.frontier (pre ++ [s, t])).1 := by
  have hnext : (root.frontier (pre ++ [s, t])).1 = follow (pre ++ [s]) [Branch.start root] := by
    rw [← frontier_concat root (pre ++ [s]) t, List.append_assoc]
    rfl
  rw [frontier_concat] at hb
  rw [hnext] at hbelow ⊢
  obtain ⟨c, hc, hprefix, hne⟩ := hbelow
  have hreach := reach_le_of_follow hb hfree hnode hc hprefix hne
  refine (Segment.findsAll_children hreach).imp fun step c hc => ?_
  have hfits : s.fits b.node = true := by
    rw [hnode]
    refine fits_of_mem_children hc fun xs hxs => ?_
    rwa [← Value.arr.inj hxs]
  rw [follow_concat, List.mem_flatMap]
  refine ⟨b, hb, ?_⟩
  rw [Branch.advance, if_neg (by simp [hfree]), if_pos hfits, hnode]
  exact List.mem_map_of_mem (f := fun c => b.stepTo c.1 c.2) hc

end Frontier

/-! ### the reader -/

/-- **A reader that is not refused drops no index** of an array that it comes to. -/
theorem Query.findsAll_of_query {root : Value} {pre rest : Path} {s : Segment} {vs : List Value}
    (h : root.query (pre ++ s :: rest) = .ok vs) :
    ∃ sites below, root.sites pre = .ok sites ∧ root.sites (pre ++ [s]) = .ok below ∧
      ∀ place items, (place, .arr items) ∈ sites →
        s.FindsAll items fun step c => (place ++ [step], c) ∈ below := by
  obtain ⟨hpre, hrest⟩ := Path.within_append.mp (query_eq_ok_iff.mp h).1
  have hone : Path.Within (pre ++ [s]) root :=
    Path.within_append.mpr ⟨hpre, fun t ht => ⟨(hrest t ht).1, fun _ _ => trivial⟩⟩
  refine ⟨pre.targets root, Path.targets (pre ++ [s]) root, sites_eq_ok_iff.mpr ⟨hpre, rfl⟩,
    sites_eq_ok_iff.mpr ⟨hone, rfl⟩, fun place items hsite => ?_⟩
  have hreach : s.reach ≤ items.length :=
    Segment.outside?_eq_none_iff.mp (hrest _ hsite).1 items rfl
  refine (Segment.findsAll_children hreach).imp fun step c hc => ?_
  rw [Path.targets_append, List.mem_flatMap]
  refine ⟨_, hsite, List.mem_map_of_mem (f := Site.under place) (a := ([step], c)) ?_⟩
  exact Path.mem_targets_cons.mpr ⟨(step, c), hc, ([], c), List.mem_singleton.mpr rfl, rfl⟩

/-! ### all segments -/

/-- **The reach of a segment is the exact threshold.**  An array is as long as the reach of a segment
exactly if no index that is spelled out lies outside, and exactly if each index of the segment, with
those in between, has a position among the elements.  So where the walk of the writer goes on below an
array, it stands at the element of each index of the segment, and a reader that is not refused finds
these elements in all arrays to which the path leads. -/
theorem Segment.reach_is_threshold (s : Segment) :
    (∀ n : ℕ, (s.reach ≤ n ↔ s.firstOutside? n = none) ∧
      (s.reach ≤ n ↔
        ∀ i ∈ s.indexList ((n : Int) - 1), ∃ p < n, Index.position? i n = some p)) ∧
    (∀ (root : Value) (pre : Path) (t : Segment) (items : List Value),
      ∀ b ∈ (root.frontier (pre ++ [s])).1, b.stuck = false → b.node = .arr items →
      (∃ c ∈ (root.frontier (pre ++ [s, t])).1, b.place <+: c.place ∧ b.place ≠ c.place) →
      s.FindsAll items fun step c =>
        ⟨b.place ++ [step], c, false⟩ ∈ (root.frontier (pre ++ [s, t])).1) ∧
    ∀ (root : Value) (pre rest : Path) (vs : List Value), root.query (pre ++ s :: rest) = .ok vs →
      ∃ sites below, root.sites pre = .ok sites ∧ root.sites (pre ++ [s]) = .ok below ∧
        ∀ place items, (place, .arr items) ∈ sites →
          s.FindsAll items fun step c => (place ++ [step], c) ∈ below := by
  refine ⟨fun n => ⟨reach_le_iff, reach_le_iff_forall_exists⟩, ?_, ?_⟩
  · exact fun root pre t items b hb hfree hnode hbelow =>
      Frontier.findsAll_of_below hb hfree hnode hbelow
  · exact fun root pre rest vs h => Query.findsAll_of_query h

/-- A walk across zero: the two ends have a place in an array of two elements, and not in one of one.
Over three rows, the walk of the writer stands at all of them, and a reader finds all. -/
theorem Segment.reach_is_threshold_across_zero :
    let row (i : Int) := Value.obj [("b", .num (.int i))]
    let items := [row 1, row 2, .null]
    let root := Value.obj [("a", .arr items)]
    let s := Segment.span 1 (some (-1))
    s.firstOutside? 1 = some 1 ∧ ¬ s.reach ≤ 1 ∧ s.firstOutside? 2 = none ∧
      s.indexList ((2 : ℕ) - 1) = [1, 0, -1] ∧
      (∀ i ∈ s.indexList ((2 : ℕ) - 1), ∃ p < 2, Index.position? i 2 = some p) ∧
      (s.FindsAll items fun step c =>
        ⟨[.key "a", step], c, false⟩ ∈ (root.frontier [.member "a", s, .member "b"]).1) ∧
      root.query [.member "a", s] = .ok [row 2, row 1, .null] ∧
      ∃ below, root.sites [.member "a", s] = .ok below ∧
        s.FindsAll items fun step c => ([.key "a", step], c) ∈ below := by
  intro row items root s
  obtain ⟨hthreshold, hwalk, hread⟩ := Segment.reach_is_threshold s
  have hone : s.firstOutside? 1 = some 1 := by decide
  have htwo : s.firstOutside? 2 = none := by decide
  have hquery : root.query [.member "a", s] = .ok [row 2, row 1, .null] := by rfl
  have hshort : ¬ s.reach ≤ 1 := by
    rw [(hthreshold 1).1, hone]
    simp
  have hall := (hthreshold 2).2.mp ((hthreshold 2).1.mpr htwo)
  have hbranch : (⟨[.key "a"], .arr items, false⟩ : Branch) ∈ (root.frontier [.member "a", s]).1 :=
    List.mem_singleton.mpr rfl
  have hbelow : (⟨[.key "a", .pos 1], row 2, false⟩ : Branch) ∈
      (root.frontier [.member "a", s, .member "b"]).1 := List.mem_cons_self
  have hfront := hwalk root [.member "a"] (.member "b") items _ hbranch rfl rfl
    ⟨_, hbelow, by decide, by decide⟩
  obtain ⟨sites, below, hsites, hsites', hfinds⟩ := hread root [.member "a"] [] _ hquery
  have harray : (([.key "a"], .arr items) : Site) ∈ sites := by
    have hsame : root.sites [.member "a"] = .ok [([.key "a"], .arr items)] := by rfl
    rw [hsame] at hsites
    rw [← Except.ok.inj hsites]
    exact List.mem_singleton.mpr rfl
  exact ⟨hone, hshort, htwo, by rfl, hall, hfront, hquery, below, hsites', hfinds _ _ harray⟩

end PathDoc
