import PathDoc.Path.Grammar
import PathDoc.Proofs.Plucking
import PathDoc.Proofs.Room

/-!
# PathDoc.Proofs.Words — one segment and one array in words of 64 bits

Indexes and lengths are integers and natural numbers here, without a bound.  `Guarded` computes with them as
a machine does: each result must be a word of 64 bits, with a sign or without one, an element is taken only
where there is one, and a span is walked only up to a number of steps that is foreseen for its use.  What
goes wrong is a `Mishap`.  For indexes that are words and lengths that are words with a sign nothing does:
the guarded functions give what the plain ones give (`Guarded.hits_eq`, `Guarded.expand_eq`,
`Guarded.pluck_eq`).  A sum of a length and an index stays small where the two have different signs, and a
reader walks a span only in an array that holds its ends, a writer only if these are not excessive.
-/

namespace PathDoc

open Json

/-- What stops a computation in words. -/
inductive Mishap where
  /-- The result is no word. -/
  | overflow (i : Int)
  /-- The walk has more steps than are foreseen. -/
  | endless (steps : ℕ)
  /-- There is no element at the position. -/
  | misplaced (p : ℕ)

/-- A computation in words. -/
abbrev Guarded (α : Type) := Except Mishap α

namespace Guarded

/-! ### the computations -/

/-- A word with a sign. -/
def signed (i : Int) : Guarded Int := if fitsWord i then .ok i else .error (.overflow i)

/-- A word without a sign. -/
def unsigned (i : Int) : Guarded ℕ :=
  if 0 ≤ i ∧ i < 0x10000000000000000 then .ok i.toNat else .error (.overflow i)

/-- The reach of an index. -/
def reachOf (i : Int) : Guarded ℕ := if 0 ≤ i then unsigned (i + 1) else unsigned (-i)

/-- The position of an index, counted from the front. -/
def position? (i : Int) (len : ℕ) : Guarded (Option ℕ) :=
  if 0 ≤ i then (unsigned i).map some
  else do
    let back ← unsigned (-i)
    if back ≤ len then (unsigned (len - back)).map some else .ok none

/-- The position of an index among the elements. -/
def place? (i : Int) (len : ℕ) : Guarded (Option ℕ) :=
  (position? i len).map fun p => p.filter (· < len)

/-- The element at a position. -/
def item (items : List Value) (p : ℕ) : Guarded Value :=
  match items[p]? with
  | some v => .ok v
  | none => .error (.misplaced p)

/-- The walk from `a` to `b`, of so many steps at most. -/
def walk (limit : ℕ) (a b : Int) : Guarded (List Int) :=
  if (a - b).natAbs < limit then .ok (Index.walk a b) else .error (.endless ((a - b).natAbs + 1))

/-- The indexes of a segment, where an open span ends at `last`. -/
def indexList (limit : ℕ) (last : Guarded Int) : Segment → Guarded (List Int)
  | .span start stop => do walk limit start (stop.getD (← last))
  | s => .ok (s.indexList 0)

/-- The reach of all that a segment spells out. -/
def reach (s : Segment) : Guarded ℕ := (s.spelled.mapM reachOf).map Segment.greatest

/-- The first spelled index without a place in an array. -/
def firstOutside? (s : Segment) (len : ℕ) : Guarded (Option Int) :=
  s.spelled.findM? fun i => (place? i len).map Option.isNone

/-- The positions that a reader selects.  It walks along no more than both signs of each of them. -/
def hits (s : Segment) (len : ℕ) : Guarded (List ℕ) := do
  let is ← indexList (2 * len) (do signed ((← signed len) - 1)) s
  let ps ← is.mapM (place? · len)
  .ok (ps.filterMap id).eraseDups

/-- Whether an index reaches past `arrayLimit`. -/
def isExcessive (i : Int) : Guarded Bool := (reachOf i).map (arrayLimit < ·)

/-- The index by which a write at the segment aims past `arrayLimit`. -/
def excess? : Segment → Guarded (Option Int)
  | .span start (some stop) => do
    if ← isExcessive start then .ok (some start)
    else
      let wide ← unsigned (start - stop).natAbs
      if (← isExcessive stop) || arrayLimit ≤ wide then .ok (some stop) else .ok none
  | s => s.spelled.findM? isExcessive

/-- The number of steps that are foreseen for a writer. -/
def widest (s : Segment) (len : ℕ) : ℕ := if s.isOpen then len + arrayLimit + 1 else arrayLimit

/-- The length that writing at some indexes asks of an array. -/
def demand (s : Segment) (is : List Int) : Guarded ℕ := do
  let furthest := Segment.greatest (← is.mapM reachOf)
  .ok (if s.isSpan then max furthest is.length else furthest)

/-- The positions to write to, and the array with room for them. -/
def expand (s : Segment) (items : List Value) : Guarded (List ℕ × List Value) := do
  if (← excess? s).isSome then .ok ([], items)
  else
    let is ← indexList (widest s items.length) (signed items.length) s
    let room := items ++ List.replicate ((← demand s is) - items.length) (.obj [])
    let ps ← is.mapM (position? · room.length)
    .ok ((ps.filterMap id).eraseDups, room)

/-- Whether the segment denotes a position. -/
def denotes (s : Segment) (len p : ℕ) : Guarded Bool :=
  match s with
  | .member _ => .ok false
  | .index i => (place? i len).map (· == some p)
  | .indexes is => do
    let n ← signed len
    let q ← signed p
    if is.contains q then .ok true else (signed (q - n)).map is.contains
  | .span start stop => do
    let n ← signed len
    let last ← signed (n - 1)
    let stop := stop.getD last
    let q ← signed p
    if 0 ≤ start then
      if 0 ≤ stop then .ok (min start stop ≤ q && q ≤ max start stop)
      else (signed (n + stop)).map fun low => q ≤ start || low ≤ q
    else
      if 0 ≤ stop then (signed (n + start)).map fun low => low ≤ q || q ≤ stop
      else do
        let low ← signed (n + min start stop)
        let high ← signed (n + max start stop)
        .ok (low ≤ q && q ≤ high)

/-- The items at the marked positions, and the others. -/
def partition (mark : ℕ → Guarded Bool) : List (Value × ℕ) → Guarded (List Value × List Value)
  | [] => .ok ([], [])
  | e :: more => do
    let marked ← mark e.2
    let r ← partition mark more
    .ok (if marked then (e.1 :: r.1, r.2) else (r.1, e.1 :: r.2))

/-- Takes the denoted elements out of an array. -/
def pluck (s : Segment) (items : List Value) : Guarded (Option Value × List Value) :=
  match s with
  | .index i => do
    match ← place? i items.length with
    | some p => (item items p).map fun v => (some v, items.eraseIdx p)
    | none => .ok (none, items)
  | s => do
    let r ← partition (denotes s items.length) items.zipIdx
    .ok (if r.1.isEmpty then none else some (.arr r.1), r.2)

/-! ### one operation -/

theorem ok_bind {α β : Type} (a : α) (f : α → Guarded β) : ((.ok a : Guarded α) >>= f) = f a := rfl

theorem map_ok {α β : Type} (f : α → β) (a : α) : (.ok a : Guarded α).map f = .ok (f a) := rfl

variable {s : Segment} {len p limit : ℕ} {i a b : Int} {items : List Value}

theorem fitsWord_iff : fitsWord i = true ↔ -0x8000000000000000 ≤ i ∧ i < 0x8000000000000000 := by
  simp [fitsWord]

theorem signed_eq (hlow : -0x8000000000000000 ≤ i) (hhigh : i < 0x8000000000000000) :
    signed i = .ok i := if_pos (fitsWord_iff.mpr ⟨hlow, hhigh⟩)

theorem unsigned_eq (hlow : 0 ≤ i) (hhigh : i < 0x10000000000000000) : unsigned i = .ok i.toNat :=
  if_pos ⟨hlow, hhigh⟩

/-- The reach of a word is a word without a sign, also for the least and the greatest one. -/
theorem reachOf_eq (hw : fitsWord i = true) : reachOf i = .ok (Index.reach i) := by
  rw [fitsWord_iff] at hw
  unfold reachOf Index.reach
  split_ifs with hi
  · rw [unsigned_eq (by omega) (by omega), Int.toNat_add hi (by decide)]
    rfl
  · rw [unsigned_eq (by omega) (by omega)]
    congr 1
    omega

theorem position?_eq (hw : fitsWord i = true) (hlen : len < 0x10000000000000000) :
    position? i len = .ok (Index.position? i len) := by
  rw [fitsWord_iff] at hw
  by_cases hi : 0 ≤ i
  · rw [position?, if_pos hi, Index.position?, if_pos hi, unsigned_eq hi (by omega)]
    rfl
  · have hback : (-i).toNat = i.natAbs := by omega
    rw [position?, if_neg hi, Index.position?, if_neg hi, unsigned_eq (by omega) (by omega), hback]
    show (if i.natAbs ≤ len then (unsigned (len - i.natAbs)).map some else Except.ok none) = _
    by_cases hle : i.natAbs ≤ len
    · have hdiff : ((len : Int) - i.natAbs).toNat = len - i.natAbs := by omega
      rw [if_pos hle, if_pos hle, unsigned_eq (by omega) (by omega), hdiff]
      rfl
    · rw [if_neg hle, if_neg hle]

theorem place?_eq (hw : fitsWord i = true) (hlen : len < 0x10000000000000000) :
    place? i len = .ok (Index.place? i len) := by
  rw [place?, position?_eq hw hlen]
  rfl

theorem walk_eq (h : (a - b).natAbs < limit) : walk limit a b = .ok (Index.walk a b) := if_pos h

theorem item_eq {v : Value} (h : items[p]? = some v) : item items p = .ok v := by
  rw [item, h]

/-! ### lists -/

section Lists

variable {α β : Type} {l : List α}

theorem mapM_eq_filterMap {f : α → Guarded β} {g : α → Option β}
    (h : ∀ x ∈ l, ∃ y, f x = .ok y ∧ g x = some y) : l.mapM f = .ok (l.filterMap g) := by
  induction l with
  | nil => rfl
  | cons x l ih =>
    rw [List.forall_mem_cons] at h
    obtain ⟨⟨y, hf, hg⟩, h⟩ := h
    rw [List.mapM_cons, hf, ih h, List.filterMap_cons, hg]
    rfl

theorem mapM_eq {f : α → Guarded β} {g : α → β} (h : ∀ x ∈ l, f x = .ok (g x)) :
    l.mapM f = .ok (l.map g) := by
  rw [← List.filterMap_eq_map]
  exact mapM_eq_filterMap fun x hx => ⟨g x, h x hx, rfl⟩

theorem findM?_eq {f : α → Guarded Bool} {g : α → Bool} (h : ∀ x ∈ l, f x = .ok (g x)) :
    l.findM? f = .ok (l.find? g) := by
  induction l with
  | nil => rfl
  | cons x l ih =>
    rw [List.forall_mem_cons] at h
    rw [List.findM?, h.1, List.find?_cons, ih h.2]
    cases g x <;> rfl

end Lists

/-! ### one segment -/

theorem reach_eq (hw : ∀ i ∈ s.spelled, fitsWord i = true) : reach s = .ok s.reach := by
  rw [reach, mapM_eq fun i hi => reachOf_eq (hw i hi)]
  rfl

theorem firstOutside?_eq (hw : ∀ i ∈ s.spelled, fitsWord i = true)
    (hlen : len < 0x8000000000000000) : firstOutside? s len = .ok (s.firstOutside? len) := by
  refine findM?_eq fun i hi => ?_
  rw [place?_eq (hw i hi) (by omega)]
  rfl

theorem isExcessive_eq (hw : fitsWord i = true) : isExcessive i = .ok (Index.isExcessive i) := by
  rw [isExcessive, reachOf_eq hw]
  rfl

theorem excess?_eq (hw : ∀ i ∈ s.spelled, fitsWord i = true) : excess? s = .ok s.excess? := by
  have hfind : s.spelled.findM? isExcessive = .ok (s.spelled.find? Index.isExcessive) :=
    findM?_eq fun i hi => isExcessive_eq (hw i hi)
  cases s with
  | span start stop =>
    cases stop with
    | none => exact hfind
    | some stop =>
      have hstart : fitsWord start = true := hw start (by simp [Segment.spelled])
      have hstop : fitsWord stop = true := hw stop (by simp [Segment.spelled])
      have hwide : unsigned (start - stop).natAbs = .ok (start - stop).natAbs := by
        rw [fitsWord_iff] at hstart hstop
        rw [unsigned_eq (by omega) (by omega), Int.toNat_natCast]
      rw [excess?, isExcessive_eq hstart, isExcessive_eq hstop, hwide, Segment.excess?]
      cases Index.isExcessive start with
      | true => rfl
      | false =>
        show (if _ then _ else _) = _
        cases Index.isExcessive stop || decide (arrayLimit ≤ (start - stop).natAbs) <;> rfl
  | _ => exact hfind

/-- The ends of a span are words if those that it spells out are, and the end of an open span is. -/
theorem fitsWord_ends {start last : Int} {stop : Option Int}
    (hw : ∀ i ∈ (Segment.span start stop).spelled, fitsWord i = true)
    (hlast : stop = none → fitsWord last = true) :
    fitsWord start = true ∧ fitsWord (stop.getD last) = true := by
  refine ⟨hw start (by simp [Segment.spelled]), ?_⟩
  cases stop with
  | none => exact hlast rfl
  | some stop => exact hw stop (by simp [Segment.spelled])

/-- So are the indexes between them, and those of any other segment. -/
theorem fitsWord_of_mem_indexList (hw : ∀ i ∈ s.spelled, fitsWord i = true) {last : Int}
    (hlast : s.isOpen = true → fitsWord last = true) (hi : i ∈ s.indexList last) :
    fitsWord i = true := by
  cases s with
  | span start stop =>
    obtain ⟨hstart, hstop⟩ := fitsWord_ends hw fun h => hlast (by rw [h]; rfl)
    have hmem : i ∈ Index.walk start (stop.getD last) := hi
    rw [fitsWord_iff] at hstart hstop ⊢
    rw [Index.mem_walk] at hmem
    omega
  | _ => exact hw i hi

/-- The indexes of a segment, where the walk of a span is no longer than foreseen. -/
theorem indexList_eq {last : Int} (h : s.isSpan = true → (s.indexList last).length ≤ limit) :
    indexList limit (.ok last) s = .ok (s.indexList last) := by
  cases s with
  | span start stop =>
    have hlen : (Index.walk start (stop.getD last)).length ≤ limit := h rfl
    rw [Index.length_walk] at hlen
    exact walk_eq hlen
  | _ => rfl

/-- A reader walks along a span whose ends have a place: no more steps than both signs of each
position. -/
theorem length_indexList_le_of_reach (hs : s.isSpan = true) (hn : s.reach ≤ len) :
    (s.indexList ((len : Int) - 1)).length ≤ 2 * len := by
  cases s with
  | span start stop =>
    obtain ⟨hstart, hstop⟩ := Segment.reach_span_le_iff.mp hn
    show (Index.walk start (stop.getD ((len : Int) - 1))).length ≤ 2 * len
    rw [Index.length_walk]
    unfold Index.reach at hstart hstop
    split_ifs at hstart hstop <;> omega
  | _ => exact absurd hs Bool.false_ne_true

/-- A writer walks along a span that is not excessive: no more steps than there may be elements, and
past those that are there already if the span is open. -/
theorem length_indexList_le_of_excess (hs : s.isSpan = true) (hx : s.excess? = none) (len : ℕ) :
    (s.indexList len).length ≤ widest s len := by
  cases s with
  | span start stop =>
    have hlen : ((Segment.span start stop).indexList len).length = (start - stop.getD len).natAbs + 1 :=
      Index.length_walk _ _
    rw [hlen, widest]
    cases stop with
    | none =>
      have hreach : Index.reach start ≤ arrayLimit := by
        simpa [Segment.excess?, Segment.spelled, Index.isExcessive] using hx
      have hopen : (Segment.span start none).isOpen = true := rfl
      rw [if_pos hopen, Option.getD_none]
      unfold Index.reach at hreach
      split_ifs at hreach <;> omega
    | some stop =>
      have hclosed : ¬ (Segment.span start (some stop)).isOpen = true := Bool.false_ne_true
      rw [if_neg hclosed]
      exact (Segment.excess?_span_eq_none_iff.mp hx).2.2
  | _ => exact absurd hs Bool.false_ne_true

theorem reach_le_of_fitsWord (hw : fitsWord i = true) : Index.reach i ≤ 0x8000000000000000 := by
  rw [fitsWord_iff] at hw
  unfold Index.reach
  split_ifs <;> omega

/-! ### the positions of a reader and of a writer -/

/-- **A reader** that has found the array long enough computes in words. -/
theorem hits_eq (hw : ∀ i ∈ s.spelled, fitsWord i = true) (hlen : len < 0x8000000000000000)
    (hn : s.reach ≤ len) : hits s len = .ok (s.hits len) := by
  have hlast : (do signed ((← signed len) - 1) : Guarded Int) = .ok ((len : Int) - 1) := by
    rw [signed_eq (by omega) (by omega)]
    exact signed_eq (by omega) (by omega)
  have hplace : ∀ i ∈ s.indexList ((len : Int) - 1), place? i len = .ok (Index.place? i len) := by
    intro i hi
    refine place?_eq (fitsWord_of_mem_indexList hw (fun _ => ?_) hi) (by omega)
    rw [fitsWord_iff]
    omega
  rw [hits, hlast, indexList_eq fun hs => length_indexList_le_of_reach hs hn, ok_bind,
    mapM_eq hplace, ok_bind, List.filterMap_map, Function.id_comp, Segment.hits]

/-- An array that is not long enough is never asked: its reader would walk along all words. -/
example : hits (.span (-9223372036854775808) (some 9223372036854775807)) 2 =
    .error (.endless 18446744073709551616) := by rfl

theorem demand_eq (hw : ∀ i ∈ s.indexList len, fitsWord i = true) :
    demand s (s.indexList len) = .ok (s.demand len) := by
  rw [demand, mapM_eq fun i hi => reachOf_eq (hw i hi)]
  cases s <;> rfl

/-- The length that a writer asks for is a word without a sign. -/
theorem demand_lt (hw : ∀ i ∈ s.indexList len, fitsWord i = true) (hx : s.excess? = none)
    (hlen : len < 0x8000000000000000) : s.demand len < 0x10000000000000000 := by
  have hle : s.demand len ≤ 0x8000000000000000 + arrayLimit + 1 := by
    refine Segment.demand_le_iff.mpr ⟨fun i hi => ?_, fun hs => ?_⟩
    · have hreach := reach_le_of_fitsWord (hw i hi)
      omega
    · have hsteps := length_indexList_le_of_excess hs hx len
      unfold widest at hsteps
      split_ifs at hsteps <;> omega
  have hlimit : arrayLimit = 1048576 := rfl
  omega

/-- **A writer** computes in words, also where an open span makes the longest array longer. -/
theorem expand_eq (hw : ∀ i ∈ s.spelled, fitsWord i = true)
    (hlen : items.length < 0x8000000000000000) :
    expand s items = .ok (s.slots items.length, s.makeRoom items) := by
  cases hx : s.excess? with
  | some i =>
    rw [expand, excess?_eq hw, Segment.slots, Segment.makeRoom, hx]
    rfl
  | none =>
    have hword : ∀ i ∈ s.indexList items.length, fitsWord i = true := fun i hi =>
      fitsWord_of_mem_indexList hw (fun _ => fitsWord_iff.mpr ⟨by omega, by omega⟩) hi
    have hdemand := demand_lt hword hx hlen
    have hplace : ∀ i ∈ s.indexList items.length,
        position? i (s.makeRoom items).length = .ok (Index.position? i (s.makeRoom items).length) := by
      intro i hi
      refine position?_eq (hword i hi) ?_
      rw [Segment.length_makeRoom hx]
      exact max_lt (by omega) hdemand
    have hroom : items ++ List.replicate (s.demand items.length - items.length) (.obj []) =
        s.makeRoom items := by
      rw [Segment.makeRoom, hx]
      rfl
    have hslots : (((s.indexList items.length).map
        (Index.position? · (s.makeRoom items).length)).filterMap id).eraseDups =
          s.slots items.length := by
      rw [List.filterMap_map, Function.id_comp, Segment.length_makeRoom hx, Segment.slots, hx]
      rfl
    rw [expand, excess?_eq hw, hx, signed_eq (by omega) (by omega),
      indexList_eq fun hs => length_indexList_le_of_excess hs hx items.length]
    simp only [ok_bind, Option.isSome_none, Bool.false_eq_true, if_false, demand_eq hword, hroom,
      mapM_eq hplace, hslots]

/-! ### the positions of a removal -/

/-- **A removal** compares positions with sums that are words. -/
theorem denotes_eq (hw : ∀ i ∈ s.spelled, fitsWord i = true) (hlen : len < 0x8000000000000000)
    (hp : p < len) : denotes s len p = .ok (s.denotes len p) := by
  have hn : signed len = .ok (len : Int) := signed_eq (by omega) (by omega)
  have hq : signed p = .ok (p : Int) := signed_eq (by omega) (by omega)
  cases s with
  | member name => rfl
  | index i =>
    rw [denotes, place?_eq (hw i (by simp [Segment.spelled])) (by omega)]
    rfl
  | indexes is =>
    have hback : signed ((p : Int) - len) = .ok ((p : Int) - len) := signed_eq (by omega) (by omega)
    rw [denotes, hn, hq, ok_bind, ok_bind, hback, map_ok, Segment.denotes]
    cases is.contains (p : Int) <;> rfl
  | span start stop =>
    have hlast : signed ((len : Int) - 1) = .ok ((len : Int) - 1) := signed_eq (by omega) (by omega)
    have hopen : stop = none → fitsWord ((len : Int) - 1) = true := fun _ =>
      fitsWord_iff.mpr ⟨by omega, by omega⟩
    obtain ⟨hstart, hstop⟩ := fitsWord_ends hw hopen
    rw [fitsWord_iff] at hstart hstop
    -- each sum is that of a length and a negative index
    have hsum {i : Int} (hlow : -0x8000000000000000 ≤ i) (hneg : i < 0) :
        signed ((len : Int) + i) = .ok ((len : Int) + i) := signed_eq (by omega) (by omega)
    rw [denotes, hn, ok_bind, hlast, ok_bind, hq, ok_bind, Segment.denotes]
    generalize stop.getD ((len : Int) - 1) = stop at hstop ⊢
    by_cases h0 : 0 ≤ start <;> by_cases h1 : 0 ≤ stop
    · rw [if_pos h0, if_pos h1, if_pos h0, if_pos h1]
    · rw [if_pos h0, if_neg h1, if_pos h0, if_neg h1, hsum hstop.1 (by omega), map_ok]
    · rw [if_neg h0, if_pos h1, if_neg h0, if_pos h1, hsum hstart.1 (by omega), map_ok]
    · rw [if_neg h0, if_neg h1, if_neg h0, if_neg h1, hsum (by omega) (by omega), ok_bind,
        hsum (by omega) (by omega), ok_bind]

theorem partition_eq {mark : ℕ → Guarded Bool} {marked : ℕ → Bool} {l : List (Value × ℕ)}
    (h : ∀ e ∈ l, mark e.2 = .ok (marked e.2)) :
    partition mark l = .ok ((l.filter fun e => marked e.2).map Prod.fst,
      (l.filter fun e => !marked e.2).map Prod.fst) := by
  induction l with
  | nil => rfl
  | cons e l ih =>
    rw [List.forall_mem_cons] at h
    rw [partition, h.1, ok_bind, ih h.2, ok_bind, List.filter_cons, List.filter_cons]
    cases marked e.2 <;> rfl

/-- A removal takes out of an array only what it holds, and computes in words. -/
theorem pluck_eq (hw : ∀ i ∈ s.spelled, fitsWord i = true)
    (hlen : items.length < 0x8000000000000000) : pluck s items = .ok (s.pluck items) := by
  have hpartition : partition (denotes s items.length) items.zipIdx =
      .ok ((items.zipIdx.filter fun e => s.denotes items.length e.2).map Prod.fst,
        (items.zipIdx.filter fun e => !s.denotes items.length e.2).map Prod.fst) := by
    refine partition_eq fun e he => denotes_eq hw hlen ?_
    obtain ⟨-, hlt, -⟩ := List.mem_zipIdx he
    omega
  cases s with
  | index i =>
    rw [pluck, place?_eq (hw i (by simp [Segment.spelled])) (by omega), ok_bind, Segment.pluck]
    cases hp : Index.place? i items.length with
    | none => rfl
    | some p =>
      obtain ⟨v, hget⟩ : ∃ v, items[p]? = some v :=
        ⟨_, List.getElem?_eq_getElem (Index.place?_eq_some_iff.mp hp).1⟩
      show (item items p).map _ = _
      rw [item_eq hget, map_ok, ← hget]
  | _ =>
    rw [pluck, hpartition, ok_bind, Segment.pluck, List.isEmpty_map]
    all_goals rintro _ ⟨⟩

end Guarded

end PathDoc
