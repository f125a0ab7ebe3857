import PathDoc.Proofs.Leading
import PathDoc.Proofs.Order

/-!
# PathDoc.Proofs.Frontiers — where the walk of the writer ends

The walk follows every segment of a path but the last.  Each of its branches has followed as many
segments as its place has steps, and is stuck if it has not followed them all
(`Frontier.Follows`).  No branch lies below another one (`Frontier.pairwise_follow`), and those that are
not stuck stand at all the places to which the front of the path leads through arrays that are long
enough, each once and in the order of the segments.  `frontier_branches` puts it together.
-/

namespace PathDoc

open Json

/-! ### where a walk cannot go on -/

/-- Whether a node lacks what a segment asks for: the member, or an array that is long enough. -/
def Segment.Halts (s : Segment) (v : Value) : Prop :=
  (∃ name, s = .member name ∧ v.child? (.key name) = none) ∨
    s.isPositional = true ∧ ∀ items, v = .arr items → items.length < s.reach

theorem Segment.halts_iff {s : Segment} {v : Value} : s.Halts v ↔ s.fits v = false := by
  rw [← Bool.not_eq_true]
  cases hs : s.isPositional with
  | true =>
    have hname : ¬ ∃ name, s = .member name ∧ v.child? (.key name) = none := by
      rintro ⟨name, rfl, -⟩
      cases hs
    rw [Halts, or_iff_right hname, hs, eq_self, true_and, fits_iff hs, not_exists]
    refine forall_congr' fun items => ?_
    rw [not_and, not_le]
  | false =>
    obtain ⟨name, rfl⟩ := exists_eq_member hs
    rw [Halts, hs, fits_member_iff, not_exists, ← Option.eq_none_iff_forall_ne_some]
    simp

namespace Frontier

variable {s : Segment} {path pre rest : Path} {root v c : Value} {b : Branch} {step : Step}

/-! ### one branch -/

/-- What holds of a branch of the walk along a path: a front of the path leads to its node through
arrays that are long enough, and it is stuck if the next segment does not fit that node. -/
structure Follows (path : Path) (root : Value) (b : Branch) : Prop where
  leads : Path.Leads (path.take b.place.length) root b.place b.node
  fits : path.FitsAlong root b.place
  /-- After so many segments the walk was there already, and not stuck. -/
  walked : (⟨b.place, b.node, false⟩ : Branch) ∈
    follow (path.take b.place.length) [Branch.start root]
  free : b.stuck = false → b.place.length = path.length
  halted : b.stuck = true → ∃ s, path[b.place.length]? = some s ∧ s.fits b.node = false

theorem Follows.length_le (h : Follows path root b) : b.place.length ≤ path.length := by
  have hlen := h.leads.length_eq
  rw [List.length_take] at hlen
  omega

theorem follows_start (v : Value) : Follows [] v (Branch.start v) where
  leads := .here v
  fits := fun _ _ _ _ hk => absurd hk (Nat.not_lt_zero _)
  walked := List.mem_singleton.mpr rfl
  free := fun _ => rfl
  halted := fun h => absurd h Bool.false_ne_true

theorem follows_of_not_fits (h : s.fits v = false) (rest : Path) :
    Follows (s :: rest) v ⟨[], v, true⟩ where
  leads := .here v
  fits := fun _ _ _ _ hk => absurd hk (Nat.not_lt_zero _)
  walked := List.mem_singleton.mpr rfl
  free := fun h => absurd h.symm Bool.false_ne_true
  halted := fun _ => ⟨s, rfl, h⟩

/-- What holds below a selected child of a node that the segment fits. -/
theorem Follows.under (hs : s.fits v = true) (hc : (step, c) ∈ s.children v)
    (h : Follows rest c b) : Follows (s :: rest) v (b.under step) where
  leads := .of_mem_children hc h.leads
  fits := by
    have houtside := Segment.outside?_eq_none_iff.mp (Segment.outside?_of_fits hs)
    exact (Path.fitsAlong_cons (Segment.child?_of_mem_children hc)).mpr ⟨houtside, h.fits⟩
  walked := by
    show _ ∈ follow (s :: rest.take b.place.length) [Branch.start v]
    rw [follow_start_cons, if_pos hs, List.mem_flatMap]
    exact ⟨_, hc, List.mem_map_of_mem h.walked⟩
  free := fun hfree => congrArg Nat.succ (h.free hfree)
  halted := h.halted

theorem follows_of_mem (h : b ∈ follow path [Branch.start root]) : Follows path root b := by
  induction path generalizing root b with
  | nil =>
    rw [List.mem_singleton.mp h]
    exact follows_start root
  | cons s rest ih =>
    rw [follow_start_cons] at h
    by_cases hs : s.fits root = true
    · rw [if_pos hs] at h
      obtain ⟨c, hc, h⟩ := List.mem_flatMap.mp h
      obtain ⟨b, hb, rfl⟩ := List.mem_map.mp h
      exact (ih hb).under hs hc
    · rw [if_neg hs] at h
      rw [List.mem_singleton.mp h]
      exact follows_of_not_fits (by simpa using hs) rest

/-! ### all branches -/

/-- **No branch lies below another one.** -/
theorem pairwise_follow (path : Path) (root : Value) :
    (follow path [Branch.start root]).Pairwise fun b c => b.place.Apart c.place := by
  induction path generalizing root with
  | nil => exact List.pairwise_singleton _ _
  | cons s rest ih =>
    have hsteps : (s.children root).Pairwise fun c d => c.1 ≠ d.1 :=
      List.pairwise_map.mp (s.nodup_steps root)
    rw [follow_start_cons]
    by_cases hs : s.fits root = true
    · rw [if_pos hs, List.pairwise_flatMap]
      constructor
      · intro c _
        rw [List.pairwise_map]
        exact (ih c.2).imp fun h => Location.apart_cons_iff.mpr h
      · refine hsteps.imp fun {c d} hne b hb b' hb' => ?_
        obtain ⟨b, -, rfl⟩ := List.mem_map.mp hb
        obtain ⟨b', -, rfl⟩ := List.mem_map.mp hb'
        exact Location.apart_of_ne hne b.place b'.place
    · rw [if_neg hs]
      exact List.pairwise_singleton _ _

/-- A branch that is not stuck has followed the whole path. -/
theorem filter_free_eq_reached (root : Value) (path : Path) :
    (root.frontier path).1.filter (fun b => !b.stuck) = Removal.reached root path := by
  refine List.filter_congr fun b hb => ?_
  rw [frontier_eq_follow] at hb
  cases hstuck : b.stuck with
  | true => rfl
  | false =>
    have hlen := (follows_of_mem hb).free hstuck
    rw [List.length_dropLast] at hlen
    simp [hlen]

/-- A segment that selects something fits, unless the node is an array that is too short for it. -/
theorem fits_of_mem_children (hc : (step, c) ∈ s.children v)
    (h : ∀ items, v = .arr items → s.reach ≤ items.length) : s.fits v = true := by
  have houtside : s.outside? v = none := Segment.outside?_eq_none_iff.mpr h
  by_contra hfits
  rw [Segment.children_eq_nil houtside (by simpa using hfits)] at hc
  exact List.not_mem_nil hc

/-- **The walk misses nothing**: it reaches each node to which a path leads through arrays that are long
enough. -/
theorem mem_reached_of_leads {place : Location} {node : Value} (h : pre.Leads root place node)
    (hfits : pre.FitsAlong root place) (last : Segment) :
    ⟨place, node, false⟩ ∈ Removal.reached root (pre ++ [last]) := by
  have htarget := Path.mem_targets_iff_leads.mpr h
  clear h
  induction pre generalizing root place with
  | nil =>
    obtain ⟨rfl, rfl⟩ := Prod.mk.inj (List.mem_singleton.mp htarget)
    exact List.mem_singleton.mpr rfl
  | cons s pre ih =>
    obtain ⟨⟨step, c⟩, hc, ⟨place, w⟩, ht, he⟩ := Path.mem_targets_cons.mp htarget
    obtain ⟨rfl, rfl⟩ := Prod.mk.inj he
    obtain ⟨hlong, hrest⟩ := (Path.fitsAlong_cons (Segment.child?_of_mem_children hc)).mp hfits
    have hs := fits_of_mem_children hc hlong
    rw [List.cons_append, Removal.reached_cons root s (by simp), if_pos hs, List.mem_flatMap]
    exact ⟨_, hc, List.mem_map_of_mem (f := Branch.under step) (ih hrest ht)⟩

/-! ### the branches that are not stuck -/

/-- The places at which the walk has followed every segment but the last. -/
def ends (root : Value) (path : Path) : List Location :=
  ((root.frontier path).1.filter fun b => !b.stuck).map Branch.place

theorem frontier_concat (root : Value) (pre : Path) (last : Segment) :
    (root.frontier (pre ++ [last])).1 = follow pre [Branch.start root] := by
  rw [frontier_eq_follow, List.dropLast_concat]

theorem ends_eq_reached (root : Value) (path : Path) :
    ends root path = (Removal.reached root path).map Branch.place :=
  congrArg (List.map Branch.place) (filter_free_eq_reached root path)

theorem mem_ends_iff {last : Segment} {place : Location} : place ∈ ends root (pre ++ [last]) ↔
    (∃ node, pre.Leads root place node) ∧ Path.FitsAlong (pre ++ [last]) root place := by
  constructor
  · intro h
    obtain ⟨b, hb, rfl⟩ := List.mem_map.mp h
    obtain ⟨hb, hfree⟩ := List.mem_filter.mp hb
    rw [frontier_concat] at hb
    have hfollows := follows_of_mem hb
    have hlen := hfollows.free (by simpa using hfree)
    have hleads := hfollows.leads
    rw [hlen, List.take_length] at hleads
    rw [Path.fitsAlong_append hlen.le]
    exact ⟨⟨b.node, hleads⟩, hfollows.fits⟩
  · rintro ⟨⟨node, hleads⟩, hfits⟩
    rw [Path.fitsAlong_append hleads.length_eq.le] at hfits
    rw [ends_eq_reached]
    exact List.mem_map_of_mem (f := Branch.place) (mem_reached_of_leads hleads hfits last)

theorem nodup_ends (root : Value) (pre : Path) (last : Segment) :
    (ends root (pre ++ [last])).Nodup := by
  have hapart := pairwise_follow pre root
  rw [← frontier_concat root pre last] at hapart
  exact List.pairwise_map.mpr ((hapart.sublist List.filter_sublist).imp Location.Apart.ne)

/-- They come in the order of the segments, as the targets of the path without its last segment do. -/
theorem pairwise_precedes_ends (root : Value) (pre : Path) (last : Segment) :
    (ends root (pre ++ [last])).Pairwise (Path.Precedes (pre ++ [last]) root) := by
  have horder := (Path.pairwise_precedes_targets pre root).sublist
    (Removal.reached_sublist pre last root)
  rw [List.pairwise_map] at horder
  rw [ends_eq_reached, List.pairwise_map]
  exact horder.imp fun h => h.append [last]

end Frontier

/-- **The branches of the walk.**  Each stands at a node of the document, where the segments that it has
followed lead; it has followed as many as its place has steps, all but the last one if it is not stuck,
and otherwise the next one cannot be followed from its node.  No branch lies below another one.  The
branches that are not stuck stand at each place once to which all segments but the last one lead through
arrays that are long enough, and they come in the order of the segments. -/
theorem frontier_branches {path : Path} (hne : path ≠ []) (root : Value) :
    (∀ b ∈ (root.frontier path).1, root.get? b.place = some b.node ∧
      b.place.length ≤ path.length - 1 ∧
      (⟨b.place, b.node, false⟩ : Branch) ∈
        (Frontier.walk (path.take b.place.length) [Branch.start root]).1 ∧
      Path.Leads (path.take b.place.length) root b.place b.node ∧
      (b.stuck = false → b.place.length = path.length - 1) ∧
      (b.stuck = true → b.place.length < path.length - 1 ∧
        ∃ s, path[b.place.length]? = some s ∧ s.Halts b.node)) ∧
    (root.frontier path).1.Pairwise (fun b c => b.place.Apart c.place) ∧
    (∀ place, place ∈ Frontier.ends root path ↔
      (∃ node, Path.Leads path.dropLast root place node) ∧ Path.FitsAlong path root place) ∧
    (∀ place ∈ Frontier.ends root path, (Frontier.ends root path).count place = 1) ∧
    (Frontier.ends root path).Pairwise (Path.Precedes path root) := by
  obtain ⟨pre, last, rfl⟩ := (List.eq_nil_or_concat path).resolve_left hne
  rw [List.concat_eq_append, List.dropLast_concat, Frontier.frontier_concat]
  have hlast : (pre ++ [last]).length - 1 = pre.length := by simp
  refine ⟨fun b hb => ?_, Frontier.pairwise_follow pre root, fun _ => Frontier.mem_ends_iff,
    fun _ => List.count_eq_one_of_mem (Frontier.nodup_ends root pre last),
    Frontier.pairwise_precedes_ends root pre last⟩
  have hfollows := Frontier.follows_of_mem hb
  have hle := hfollows.length_le
  have htake : (pre ++ [last]).take b.place.length = pre.take b.place.length :=
    List.take_append_of_le_length hle
  rw [hlast]
  refine ⟨hfollows.leads.get?, hle, ?_, ?_, hfollows.free, fun hstuck => ?_⟩
  · rw [htake, Frontier.walk_fst]
    exact hfollows.walked
  · rw [htake]
    exact hfollows.leads
  · obtain ⟨s, hs, hfits⟩ := hfollows.halted hstuck
    obtain ⟨hlt, -⟩ := List.getElem?_eq_some_iff.mp hs
    rw [List.getElem?_append_left hlt]
    exact ⟨hlt, s, hs, Segment.halts_iff.mpr hfits⟩

/-- Three rows, the last one first: the walk is stuck at the scalar between the two that have the
member. -/
theorem frontier_branches_of_rows :
    let row (i : Int) := Value.obj [("b", .num (.int i))]
    let root := Value.obj [("a", .arr [row 1, .null, row 2])]
    let path : Path := [.member "a", .indexes [-1, 1, 0], .member "b", .member "c"]
    let place (i : ℕ) : Location := [.key "a", .pos i, .key "b"]
    path ≠ [] ∧
      (root.frontier path).1.map (fun b => (b.place, b.stuck)) =
        [(place 2, false), ([.key "a", .pos 1], true), (place 0, false)] ∧
      (∃ s, path[2]? = some s ∧ s.Halts .null) ∧ Path.Precedes path root (place 2) (place 0) := by
  intro row root path place
  have hne : path ≠ [] := List.cons_ne_nil _ _
  obtain ⟨hbranch, -, -, -, horder⟩ := frontier_branches hne root
  obtain ⟨-, -, -, -, -, hstuck⟩ :=
    hbranch ⟨[.key "a", .pos 1], .null, true⟩ (List.mem_cons_of_mem _ List.mem_cons_self)
  exact ⟨hne, by rfl, (hstuck rfl).2, List.rel_of_pairwise_cons horder List.mem_cons_self⟩

end PathDoc
