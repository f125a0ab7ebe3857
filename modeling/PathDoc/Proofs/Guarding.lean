import PathDoc.Proofs.Frontiers
import PathDoc.Proofs.Printing
import PathDoc.Proofs.Words

/-!
# PathDoc.Proofs.Guarding — reading, writing and removing in words of 64 bits

The guarded functions for one array (`Guarded.hits`, `Guarded.expand`, `Guarded.pluck`) have their places in
a reading, a write and a removal, and each stands behind a check: a reader resolves a segment after it has
looked for an index outside the array, the walk to the frontier after it has compared lengths, and a write
after it has looked for an excessive index.  `Guarded.query`, `Guarded.write` and `Guarded.prune` are the
whole operations in words, with these checks and without any other.  They give what the plain ones give, on
every document whose arrays have lengths that are words with a sign (`extreme_indexes_are_safe`): no array
is looked at after it has been lengthened, since the branches of a write lie apart and the positions in one
array differ.
-/

namespace PathDoc

open Json

/-- Each array of the document has a length that is a word with a sign. -/
def Json.Value.Addressable (v : Value) : Prop := ∀ l, v.lengthAt l < 0x8000000000000000

namespace Guarded

/-! ### one node -/

/-- The selected children. -/
def children (s : Segment) : Value → Guarded (List (Step × Value))
  | .arr items => do
    (← hits s items.length).mapM fun p => (item items p).map fun c => (Step.pos p, c)
  | v => .ok (s.children v)

/-- Whether the node has all that the segment asks for. -/
def fits (s : Segment) : Value → Guarded Bool
  | .arr items => if s.isPositional then (reach s).map (· ≤ items.length) else .ok false
  | v => .ok (s.fits v)

/-- The first spelled index that has no place in the node. -/
def outside? (s : Segment) : Value → Guarded (Option (Int × ℕ))
  | .arr items => (firstOutside? s items.length).map fun i => i.map (·, items.length)
  | _ => .ok none

/-- Takes out of a node what the segment denotes there. -/
def cut (s : Segment) : Value → Guarded (Option Value × Value)
  | .arr items =>
    if s.isPositional then (pluck s items).map fun r => (r.1, .arr r.2) else .ok (none, .arr items)
  | v => .ok (s.cut v)

/-! ### the walk to the frontier -/

/-- The branches that one segment makes of a branch. -/
def advance (s : Segment) (b : Branch) : Guarded (List Branch) := do
  if b.stuck then .ok [b]
  else if ← fits s b.node then (children s b.node).map fun cs => cs.map fun c => b.stepTo c.1 c.2
  else .ok [{ b with stuck := true }]

/-- The branches after all segments. -/
def frontier : Path → List Branch → Guarded (List Branch)
  | [], front => .ok front
  | s :: rest, front =>
    if front.all (·.stuck) then .ok front
    else do frontier rest (← front.mapM (advance s)).flatten

/-! ### reading -/

/-- The sites one segment away from a site. -/
def fromSite (s : Segment) (site : Site) : Guarded (Except Outside (List Site)) := do
  match ← outside? s site.2 with
  | some (i, n) => .ok (.error ⟨site.1, i, n⟩)
  | none => (children s site.2).map fun cs => .ok (cs.map fun c => (site.1 ++ [c.1], c.2))

/-- The sites one segment away from a list of sites. -/
def fromSites (s : Segment) : List Site → Guarded (Except Outside (List Site))
  | [] => .ok (.ok [])
  | site :: more => do
    match ← fromSite s site with
    | .error e => .ok (.error e)
    | .ok sites => (fromSites s more).map fun r => r.map (sites ++ ·)

/-- The sites a path leads to from a list of sites. -/
def follow : Path → List Site → Guarded (Except Outside (List Site))
  | [], sites => .ok (.ok sites)
  | s :: rest, sites => do
    match ← fromSites s sites with
    | .error e => .ok (.error e)
    | .ok sites => follow rest sites

/-- The nodes that a path selects. -/
def query (root : Value) (path : Path) : Guarded (Except Outside (List Value)) :=
  (follow path [([], root)]).map fun r => r.map fun sites => sites.map Prod.snd

/-! ### writing -/

/-- The elements with another one at a position. -/
def replace (v : Value) (items : List Value) (p : ℕ) : Guarded (List Value) :=
  if p < items.length then .ok (items.set p v) else .error (.misplaced p)

/-- A fresh container that holds the value at all that the segment denotes. -/
def enclose : Segment → Value → Guarded Value
  | .member name, v => .ok (.obj [(name, v)])
  | s, v => do
    let r ← expand s []
    (r.1.foldlM (replace v) r.2).map .arr

/-- Fresh containers for all segments, with a leaf at the bottom. -/
def scaffold (leaf : Value) : Path → Guarded Value
  | [] => .ok leaf
  | s :: rest => do enclose s (← scaffold leaf rest)

/-- Writes below one member. -/
def intoMember (name : String) (fresh : Guarded Value) (below : Value → Guarded (Outcome Value))
    (ms : Members) : Guarded (Outcome Members) :=
  match ms.get? name with
  | some child => (below child).map fun r => r.lift [.key name] (ms.set name)
  | none => fresh.map fun v => .done (ms.put name v)

/-- Writes below each position in turn. -/
def intoSlots (below : Value → Guarded (Outcome Value)) :
    List ℕ → List Value → Guarded (Outcome (List Value))
  | [], items => .ok (.done items)
  | p :: slots, items =>
    match items[p]? with
    | none => intoSlots below slots items
    | some slot => do
      let r ← below slot
      match r.fault with
      | none => intoSlots below slots (items.set p r.result)
      | some fault => .ok ⟨items.set p r.result, some (fault.under [.pos p])⟩

/-- Opens a node for a segment and writes below all that the segment denotes there. -/
def enter (job : Job) (s : Segment) (rest : Path) (below : Value → Guarded (Outcome Value))
    (node : Value) : Guarded (Outcome Value) :=
  match Write.prepare? job.permission.coerce s node with
  | none => .ok ⟨node, some (.clash [] node)⟩
  | some (.obj ms) =>
    match s with
    | .member name =>
      (intoMember name (scaffold job.leaf rest) below ms).map fun r => r.lift [] .obj
    | s => .ok ⟨.obj ms, some (.misfit s)⟩
  | some (.arr items) => do
    let r ← expand s items
    (intoSlots below r.1 r.2).map fun r => r.lift [] .arr
  | some v => .ok ⟨v, some (.misfit s)⟩

/-- Writes the leaf below a node that exists. -/
def intoSlot (job : Job) : Path → Value → Guarded (Outcome Value)
  | [], slot => .ok (Write.settle job slot)
  | s :: rest, slot =>
    if slot.isEmptyContainer then (scaffold job.leaf (s :: rest)).map .done
    else enter job s rest (intoSlot job rest) slot

/-- Writes the leaf below a node that stays as far as it can.  The path goes on there. -/
def intoNode (job : Job) : Path → Value → Guarded (Outcome Value)
  | [], _ => .error (.misplaced 0)
  | s :: rest, node => enter job s rest (intoSlot job rest) node

/-- The first segment with an excessive index. -/
def firstExcess? : Path → Guarded (Option (Path × Int))
  | [] => .ok none
  | s :: rest => do
    match ← excess? s with
    | some i => .ok (some ([], i))
    | none => (firstExcess? rest).map fun r => r.map fun (before, i) => (s :: before, i)

/-- Writes at each branch in turn what the path still asks for there. -/
def atBranches (job : Job) (path : Path) : List Branch → Value → Guarded (Outcome Value)
  | [], root => .ok (.done root)
  | b :: more, root =>
    match root.get? b.place with
    | none => atBranches job path more root
    | some node => do
      let r ← intoNode job (path.drop b.place.length) node
      let root := (root.replace? b.place r.result).getD root
      match r.fault with
      | none => atBranches job path more root
      | some fault => .ok ⟨root, some (fault.under b.place)⟩

/-- Puts the leaf at a path of the document. -/
def write (root : Value) (path : Path) (job : Job) : Guarded (Outcome Value) := do
  match ← firstExcess? path with
  | some (before, i) => .ok ⟨root, some (.tooLong before i)⟩
  | none => atBranches job path (← frontier path.dropLast [Branch.start root]) root

/-! ### removing -/

/-- Cuts at each branch in turn. -/
def cutBranches (last : Segment) : List Branch → Value → Guarded (List (Option Value) × Value)
  | [], root => .ok ([], root)
  | b :: more, root =>
    match root.get? b.place with
    | none => cutBranches last more root
    | some parent => do
      let cut ← cut last parent
      let r ← cutBranches last more ((root.replace? b.place cut.2).getD root)
      .ok (cut.1 :: r.1, r.2)

/-- Takes out what the path denotes. -/
def prune (root : Value) (path : Path) : Guarded (List (Option Value) × Value) :=
  match path.getLast? with
  | none => .ok ([], root)
  | some last => do
    let front ← frontier path.dropLast [Branch.start root]
    cutBranches last (front.filter fun b => !b.stuck && b.place.length == path.length - 1) root

end Guarded

/-! ### documents whose arrays have lengths in words -/

namespace Json.Value

variable {v c : Value} {step : Step} {l : Location} {items : List Value}

theorem Addressable.length_lt (h : (arr items).Addressable) : items.length < 0x8000000000000000 := by
  simpa using h []

theorem Addressable.get? (h : v.Addressable) (hc : v.get? l = some c) : c.Addressable := by
  intro m
  have hm := h (l ++ m)
  rwa [lengthAt, get?_append, hc, Option.bind_some] at hm

theorem Addressable.child? (h : v.Addressable) (hc : v.child? step = some c) : c.Addressable :=
  h.get? (l := [step]) (by rw [get?_cons, hc, Option.bind_some, get?_nil])

theorem addressable_of_children (hlen : v.lengthAt [] < 0x8000000000000000)
    (h : ∀ step c, v.child? step = some c → c.Addressable) : v.Addressable := by
  intro l
  cases l with
  | nil => exact hlen
  | cons step l =>
    rw [lengthAt, get?_cons]
    cases hc : v.child? step with
    | none => exact Nat.zero_lt_succ _
    | some c => exact h step c hc l

theorem addressable_of_isEmptyContainer (h : v.isEmptyContainer = true) : v.Addressable := by
  rcases isEmptyContainer_iff.mp h with rfl | rfl <;>
    exact addressable_of_children (by decide) fun step c hc => by cases step <;> simp [child?] at hc

/-- What is put at one place changes nothing at a place apart from it. -/
theorem get?_getD_replace?_of_apart {w : Value} {m : Location} (h : l.Apart m) :
    ((v.replace? l w).getD v).get? m = v.get? m := by
  cases hr : v.replace? l w with
  | none => rfl
  | some u => exact get?_replace?_of_apart hr h

end Json.Value

namespace Guarded

variable {s : Segment} {path rest : Path} {v c root node : Value} {items : List Value} {job : Job}

/-! ### one node in words -/

/-- A reader takes the elements of an array that it has found long enough. -/
theorem children_eq (hw : ∀ i ∈ s.spelled, fitsWord i = true) (hv : v.Addressable)
    (ho : s.outside? v = none) : children s v = .ok (s.children v) := by
  cases v with
  | arr items =>
    have hn : s.reach ≤ items.length := Segment.outside?_eq_none_iff.mp ho items rfl
    rw [children, hits_eq hw hv.length_lt hn, ok_bind, Segment.children_arr]
    refine mapM_eq_filterMap fun p hp => ?_
    have hget : items[p]? = some _ := List.getElem?_eq_getElem (Segment.lt_of_mem_hits hp)
    exact ⟨_, by rw [item_eq hget, map_ok], by rw [hget, Option.map_some]⟩
  | _ => rfl

theorem fits_eq (hw : ∀ i ∈ s.spelled, fitsWord i = true) (v : Value) :
    fits s v = .ok (s.fits v) := by
  cases v with
  | arr items =>
    rw [fits, reach_eq hw, map_ok]
    cases s <;> rfl
  | _ => rfl

theorem outside?_eq (hw : ∀ i ∈ s.spelled, fitsWord i = true) (hv : v.Addressable) :
    outside? s v = .ok (s.outside? v) := by
  cases v with
  | arr items =>
    rw [outside?, firstOutside?_eq hw hv.length_lt, map_ok]
    rfl
  | _ => rfl

theorem cut_eq (hw : ∀ i ∈ s.spelled, fitsWord i = true) (hv : v.Addressable) :
    cut s v = .ok (s.cut v) := by
  cases v with
  | arr items =>
    rw [cut, pluck_eq hw hv.length_lt, map_ok]
    cases s <;> rfl
  | _ => rfl

/-! ### the walk to the frontier -/

theorem advance_eq (hw : ∀ i ∈ s.spelled, fitsWord i = true) {b : Branch}
    (hb : b.node.Addressable) : advance s b = .ok (b.advance s) := by
  unfold advance Branch.advance
  rw [fits_eq hw, ok_bind]
  split_ifs with hstuck hfits
  · rfl
  · rw [children_eq hw hb (Segment.outside?_of_fits hfits), map_ok]
  · rfl

/-- The walk comes only to nodes of the document. -/
theorem addressable_of_mem_advance {b d : Branch} (hb : b.node.Addressable)
    (hd : d ∈ b.advance s) : d.node.Addressable := by
  unfold Branch.advance at hd
  split_ifs at hd
  · rwa [List.mem_singleton.mp hd]
  · obtain ⟨c, hc, rfl⟩ := List.mem_map.mp hd
    exact hb.child? (Segment.child?_of_mem_children hc)
  · rwa [List.mem_singleton.mp hd]

theorem frontier_eq (hw : path.FitsWords) {front : List Branch}
    (hfront : ∀ b ∈ front, b.node.Addressable) :
    frontier path front = .ok (Frontier.walk path front).1 := by
  induction path generalizing front with
  | nil => rfl
  | cons s rest ih =>
    rw [Path.fitsWords_cons] at hw
    rw [frontier, Frontier.walk_cons]
    split_ifs with hstuck
    · rfl
    · rw [mapM_eq fun b hb => advance_eq hw.1 (hfront b hb), ok_bind, ← List.flatMap_def]
      refine ih hw.2 fun d hd => ?_
      obtain ⟨b, hb, hd⟩ := List.mem_flatMap.mp hd
      exact addressable_of_mem_advance (hfront b hb) hd

/-- The walk from the root along all segments but the last. -/
theorem frontier_dropLast_eq (hw : path.FitsWords) (hroot : root.Addressable) :
    frontier path.dropLast [Branch.start root] = .ok (root.frontier path).1 :=
  frontier_eq (fun s hs => hw s (List.dropLast_subset _ hs)) (by simpa [Branch.start] using hroot)

/-! ### reading -/

theorem fromSite_eq (hw : ∀ i ∈ s.spelled, fitsWord i = true) {site : Site}
    (hsite : site.2.Addressable) : fromSite s site = .ok (Query.fromSite s site) := by
  rw [fromSite, outside?_eq hw hsite, ok_bind, Query.fromSite]
  cases ho : s.outside? site.2 with
  | some o => rfl
  | none =>
    show (children s site.2).map _ = _
    rw [children_eq hw hsite ho, map_ok]

theorem fromSites_eq (hw : ∀ i ∈ s.spelled, fitsWord i = true) {sites : List Site}
    (hsites : ∀ site ∈ sites, site.2.Addressable) :
    fromSites s sites = .ok (Query.fromSites s sites) := by
  induction sites with
  | nil => rfl
  | cons site more ih =>
    rw [List.forall_mem_cons] at hsites
    rw [fromSites, fromSite_eq hw hsites.1, ok_bind, ih hsites.2, Query.fromSites]
    cases Query.fromSite s site <;> rfl

theorem follow_eq (hw : path.FitsWords) {sites : List Site}
    (hsites : ∀ site ∈ sites, site.2.Addressable) :
    follow path sites = .ok (Query.follow path sites) := by
  induction path generalizing sites with
  | nil => rfl
  | cons s rest ih =>
    rw [Path.fitsWords_cons] at hw
    rw [follow, fromSites_eq hw.1 hsites, ok_bind, Query.follow_cons]
    cases hs : Query.fromSites s sites with
    | error e => rfl
    | ok found =>
      obtain ⟨-, rfl⟩ := Query.fromSites_eq_ok_iff.mp hs
      refine ih hw.2 fun site hsite => ?_
      obtain ⟨above, habove, hsite⟩ := List.mem_flatMap.mp hsite
      obtain ⟨c, hc, rfl⟩ := List.mem_map.mp hsite
      exact (hsites above habove).child? (Segment.child?_of_mem_children hc)

/-- **A reading** computes in words. -/
theorem query_eq (hw : path.FitsWords) (hroot : root.Addressable) :
    query root path = .ok (root.query path) := by
  rw [query, follow_eq hw (by simpa using hroot)]
  rfl

/-! ### fresh containers -/

theorem foldlM_replace_eq {ps : List ℕ} (h : ∀ p ∈ ps, p < items.length) :
    ps.foldlM (replace v) items = .ok (ps.foldl (fun items p => items.set p v) items) := by
  induction ps generalizing items with
  | nil => rfl
  | cons p ps ih =>
    rw [List.forall_mem_cons] at h
    rw [List.foldlM_cons, replace, if_pos h.1, ok_bind, List.foldl_cons]
    exact ih fun q hq => by
      rw [List.length_set]
      exact h.2 q hq

theorem lt_length_of_mem_slots (items : List Value) {p : ℕ} (hp : p ∈ s.slots items.length) :
    p < (s.makeRoom items).length := by
  cases hx : s.excess? with
  | none => exact (Segment.allots hx items).lt_length p hp
  | some i =>
    rw [Segment.slots, hx] at hp
    exact absurd hp List.not_mem_nil

theorem enclose_eq (hw : ∀ i ∈ s.spelled, fitsWord i = true) (v : Value) :
    enclose s v = .ok (s.enclose v) := by
  have hexpand : expand s [] = .ok (s.slots 0, s.makeRoom []) := expand_eq hw (by decide)
  have hfold : (s.slots 0).foldlM (replace v) (s.makeRoom []) =
      .ok ((s.slots 0).foldl (fun items p => items.set p v) (s.makeRoom [])) :=
    foldlM_replace_eq fun p hp => lt_length_of_mem_slots [] hp
  cases s with
  | member name => rfl
  | _ =>
    rw [enclose, hexpand, ok_bind, hfold, map_ok, Segment.enclose]
    all_goals rintro _ ⟨⟩

theorem scaffold_eq (hw : path.FitsWords) (leaf : Value) :
    scaffold leaf path = .ok (Path.scaffold path leaf) := by
  induction path with
  | nil => rfl
  | cons s rest ih =>
    rw [Path.fitsWords_cons] at hw
    rw [scaffold, ih hw.2, ok_bind, enclose_eq hw.1, Path.scaffold_cons]

/-! ### writing -/

section Below

variable {below : Value → Guarded (Outcome Value)} {plain : Value → Outcome Value}

theorem intoMember_eq {name : String} {ms : Members} {fresh : Value}
    (hbelow : ∀ c, ms.get? name = some c → below c = .ok (plain c)) :
    intoMember name (.ok fresh) below ms = .ok (Write.intoMember name fresh plain ms) := by
  unfold intoMember Write.intoMember
  cases hc : ms.get? name with
  | none => rfl
  | some c =>
    show (below c).map _ = _
    rw [hbelow c hc, map_ok]

/-- Each position holds what it held at first when its turn comes. -/
theorem intoSlots_eq {slots : List ℕ} (hn : slots.Nodup)
    (hbelow : ∀ p ∈ slots, ∀ c, items[p]? = some c → below c = .ok (plain c)) :
    intoSlots below slots items = .ok (Write.intoSlots plain slots items) := by
  induction slots generalizing items with
  | nil => rfl
  | cons p slots ih =>
    rw [List.nodup_cons] at hn
    rw [List.forall_mem_cons] at hbelow
    unfold intoSlots Write.intoSlots
    cases hc : items[p]? with
    | none => exact ih hn.2 hbelow.2
    | some c =>
      show (below c >>= _) = _
      rw [hbelow.1 c hc, ok_bind]
      cases hf : (plain c).fault with
      | some fault => simp only [hf]
      | none =>
        simp only [hf]
        refine ih hn.2 fun q hq d hd => hbelow.2 q hq d ?_
        rwa [List.getElem?_set_ne (ne_of_mem_of_not_mem hq hn.1).symm] at hd

theorem addressable_of_prepare? {coerce : Bool} (h : Write.prepare? coerce s node = some v)
    (hnode : node.Addressable) : v.Addressable := by
  unfold Write.prepare? at h
  split_ifs at h
  · rwa [← Option.some.inj h]
  · rw [← Option.some.inj h, Segment.emptyContainer]
    split_ifs <;> exact Value.addressable_of_isEmptyContainer rfl

/-- An opened node has only nodes of the document and empty objects for the writer below. -/
theorem enter_eq (hw : ∀ i ∈ s.spelled, fitsWord i = true) (hrest : rest.FitsWords)
    (hnode : node.Addressable) (hbelow : ∀ c : Value, c.Addressable → below c = .ok (plain c)) :
    enter job s rest below node = .ok (Write.enter job s rest plain node) := by
  unfold enter Write.enter
  cases hp : Write.prepare? job.permission.coerce s node with
  | none => rfl
  | some v =>
    have hv := addressable_of_prepare? hp hnode
    cases v with
    | obj ms =>
      cases s with
      | member name =>
        have hmember : intoMember name (.ok (Path.scaffold rest job.leaf)) below ms = _ :=
          intoMember_eq fun c hc => by
            have hchild : (Value.obj ms).child? (.key name) = some c := hc
            exact hbelow c (hv.child? hchild)
        show (intoMember name (scaffold job.leaf rest) below ms).map _ = _
        rw [scaffold_eq hrest, hmember, map_ok]
      | _ => rfl
    | arr items =>
      show (expand s items >>= _) = _
      have hslots : intoSlots below (s.slots items.length) (s.makeRoom items) = _ :=
        intoSlots_eq (s.nodup_slots items.length) fun p _ c hc => hbelow c <| by
          rcases Write.getElem?_makeRoom_cases hc with hc | rfl
          · have hchild : (Value.arr items).child? (.pos p) = some c := hc
            exact hv.child? hchild
          · exact Value.addressable_of_isEmptyContainer rfl
      rw [expand_eq hw hv.length_lt, ok_bind, hslots, map_ok]
    | _ => rfl

end Below

theorem intoSlot_eq (hw : path.FitsWords) (hnode : node.Addressable) :
    intoSlot job path node = .ok (Write.intoSlot job path node) := by
  induction path generalizing node with
  | nil => rfl
  | cons s rest ih =>
    have hrest := hw
    rw [Path.fitsWords_cons] at hrest
    unfold intoSlot Write.intoSlot
    split_ifs
    · rw [scaffold_eq hw, map_ok]
    · exact enter_eq hrest.1 hrest.2 hnode fun c hc => ih hrest.2 hc

theorem intoNode_eq (hw : path.FitsWords) (hne : path ≠ []) (hnode : node.Addressable) :
    intoNode job path node = .ok (Write.intoNode job path node) := by
  cases path with
  | nil => exact absurd rfl hne
  | cons s rest =>
    rw [Path.fitsWords_cons] at hw
    exact enter_eq hw.1 hw.2 hnode fun c hc => intoSlot_eq hw.2 hc

theorem firstExcess?_eq (hw : path.FitsWords) :
    firstExcess? path = .ok (Write.firstExcess? path) := by
  induction path with
  | nil => rfl
  | cons s rest ih =>
    rw [Path.fitsWords_cons] at hw
    rw [firstExcess?, excess?_eq hw.1, ok_bind, ih hw.2, Write.firstExcess?]
    cases s.excess? <;> rfl

section Branches

variable {bs : List Branch} (hapart : bs.Pairwise fun b c => b.place.Apart c.place)
  (hnode : ∀ b ∈ bs, ∀ node, root.get? b.place = some node → node.Addressable)
include hapart hnode

/-- The node of each branch is still that of the document when its turn comes. -/
theorem atBranches_eq (hw : path.FitsWords) (hlen : ∀ b ∈ bs, b.place.length < path.length) :
    atBranches job path bs root = .ok (Write.atBranches job path bs root) := by
  induction bs generalizing root with
  | nil => rfl
  | cons b more ih =>
    rw [List.pairwise_cons] at hapart
    rw [List.forall_mem_cons] at hnode hlen
    unfold atBranches Write.atBranches
    cases hb : root.get? b.place with
    | none => exact ih hapart.2 hnode.2 hlen.2
    | some node =>
      have hdrop : path.drop b.place.length ≠ [] := by
        rw [Ne, List.drop_eq_nil_iff]
        omega
      show (intoNode job _ node >>= _) = _
      rw [intoNode_eq (fun s hs => hw s (List.mem_of_mem_drop hs)) hdrop (hnode.1 node hb), ok_bind]
      cases hf : (Write.intoNode job (path.drop b.place.length) node).fault with
      | some fault => simp only [hf]
      | none =>
        simp only [hf]
        refine ih hapart.2 (fun c hc n hn => hnode.2 c hc n ?_) hlen.2
        rwa [Value.get?_getD_replace?_of_apart (hapart.1 c hc)] at hn

theorem cutBranches_eq (hw : ∀ i ∈ s.spelled, fitsWord i = true) :
    cutBranches s bs root = .ok (Removal.atBranches s bs root) := by
  induction bs generalizing root with
  | nil => rfl
  | cons b more ih =>
    rw [List.pairwise_cons] at hapart
    rw [List.forall_mem_cons] at hnode
    unfold cutBranches Removal.atBranches
    cases hb : root.get? b.place with
    | none => exact ih hapart.2 hnode.2
    | some node =>
      show (cut s node >>= _) = _
      rw [cut_eq hw (hnode.1 node hb), ok_bind, ih hapart.2 fun c hc n hn => hnode.2 c hc n ?_]
      · rfl
      · rwa [Value.get?_getD_replace?_of_apart (hapart.1 c hc)] at hn

end Branches

theorem pairwise_frontier (root : Value) (path : Path) :
    (root.frontier path).1.Pairwise fun b c => b.place.Apart c.place := by
  rw [frontier_eq_follow]
  exact Frontier.pairwise_follow _ root

/-- **A write** computes in words. -/
theorem write_eq (hw : path.FitsWords) (hne : path ≠ []) (hroot : root.Addressable) (job : Job) :
    write root path job = .ok (root.write path job) := by
  rw [write, firstExcess?_eq hw, ok_bind, Value.write]
  cases Write.firstExcess? path with
  | some e => rfl
  | none =>
    show (frontier path.dropLast [Branch.start root] >>= _) = _
    rw [frontier_dropLast_eq hw hroot, ok_bind]
    refine atBranches_eq (pairwise_frontier root path) (fun b _ node hn => hroot.get? hn) hw
      fun b hb => ?_
    rw [frontier_eq_follow] at hb
    have hle := (Frontier.follows_of_mem hb).length_le
    have hpos := List.length_pos_of_ne_nil hne
    rw [List.length_dropLast] at hle
    omega

/-- **A removal** computes in words. -/
theorem prune_eq (hw : path.FitsWords) (hroot : root.Addressable) :
    prune root path = .ok (root.prune path) := by
  unfold prune Value.prune
  cases hlast : path.getLast? with
  | none => rfl
  | some last =>
    show (frontier path.dropLast [Branch.start root] >>= _) = _
    rw [frontier_dropLast_eq hw hroot, ok_bind]
    exact cutBranches_eq ((pairwise_frontier root path).sublist List.filter_sublist)
      (fun b _ node hn => hroot.get? hn) (hw last (List.mem_of_getLast? hlast))

end Guarded

/-! ### all indexes -/

open Guarded

/-- What is safe about a segment at an array: its lengths, its positions and its tests are words, and a
reader walks a span along no more than both signs of each position, a writer along no more than
`arrayLimit` steps, and past the elements that are there if the span is open. -/
structure Segment.StaysInWords (s : Segment) (items : List Value) : Prop where
  reach_eq : Guarded.reach s = .ok s.reach
  excess_eq : Guarded.excess? s = .ok s.excess?
  outside_eq : Guarded.firstOutside? s items.length = .ok (s.firstOutside? items.length)
  hits_eq : s.reach ≤ items.length → Guarded.hits s items.length = .ok (s.hits items.length)
  expand_eq : Guarded.expand s items = .ok (s.slots items.length, s.makeRoom items)
  pluck_eq : Guarded.pluck s items = .ok (s.pluck items)
  steps_of_reader : s.isSpan = true → s.reach ≤ items.length →
    (s.indexList ((items.length : Int) - 1)).length ≤ 2 * items.length
  steps_of_writer : s.isSpan = true → s.excess? = none → (s.indexList items.length).length ≤
    if s.isOpen then items.length + arrayLimit + 1 else arrayLimit

/-- **Extreme indexes are safe.**  For an index that is a word, and a length that is a word with a sign, the
reach and the position are words.  For a segment that spells out words, all that is computed at an array
of such a length stays in words, and the walk of a span is bounded.  On a document whose arrays have such
lengths, a reading, a write and a removal along a path that spells out words give in words what they give
without a bound: none of them overflows, takes an element that is not there or walks further than is
foreseen.  A path that has been read is such a path. -/
theorem extreme_indexes_are_safe :
    (∀ (i : Int) (len : ℕ), fitsWord i = true → len < 0x8000000000000000 →
      reachOf i = .ok (Index.reach i) ∧ position? i len = .ok (Index.position? i len)) ∧
    (∀ (s : Segment) (items : List Value), (∀ i ∈ s.spelled, fitsWord i = true) →
      items.length < 0x8000000000000000 → s.StaysInWords items) ∧
    (∀ (path : Path) (root : Value), path.FitsWords → root.Addressable →
      query root path = .ok (root.query path) ∧ prune root path = .ok (root.prune path) ∧
      (path ≠ [] → ∀ job, write root path job = .ok (root.write path job))) ∧
    ∀ (text : String) (path : Path), Path.read text = .ok path → path.FitsWords ∧ path ≠ [] := by
  refine ⟨fun i len hw hlen => ⟨reachOf_eq hw, position?_eq hw (by omega)⟩,
    fun s items hw hlen => ?_, fun path root hw hroot => ?_, fun text path hread => ?_⟩
  · exact {
      reach_eq := reach_eq hw
      excess_eq := excess?_eq hw
      outside_eq := firstOutside?_eq hw hlen
      hits_eq := hits_eq hw hlen
      expand_eq := expand_eq hw hlen
      pluck_eq := pluck_eq hw hlen
      steps_of_reader := length_indexList_le_of_reach
      steps_of_writer := fun hs hx => length_indexList_le_of_excess hs hx items.length }
  · exact ⟨query_eq hw hroot, prune_eq hw hroot, fun hne => write_eq hw hne hroot⟩
  · obtain ⟨hw, hprintable⟩ := Path.printable_of_read hread
    exact ⟨hw, hprintable.ne_nil⟩

/-- From the least index to the greatest one: a reader finds the first outside the array, a writer finds
it excessive, and a removal takes all elements. -/
theorem extreme_indexes_are_safe_from_least_to_greatest :
    let text := "[-9223372036854775808:9223372036854775807]"
    let s := Segment.span (-9223372036854775808) (some 9223372036854775807)
    let items := [Value.null, .null]
    Path.read text = .ok [s] ∧ Path.FitsWords [s] ∧ (Value.arr items).Addressable ∧
      s.StaysInWords items ∧
      query (.arr items) [s] = .ok (.error ⟨[], -9223372036854775808, 2⟩) ∧
      write (.arr items) [s] ⟨.null, .high⟩ =
        .ok ⟨.arr items, some (.tooLong [] (-9223372036854775808))⟩ ∧
      prune (.arr items) [s] = .ok ([some (.arr items)], .arr []) := by
  intro text s items
  obtain ⟨-, hsegment, hpath, htext⟩ := extreme_indexes_are_safe
  have hread : Path.read "[-9223372036854775808:9223372036854775807]" =
      .ok [.span (-9223372036854775808) (some 9223372036854775807)] := by
    with_unfolding_all rfl
  obtain ⟨hw, hne⟩ := htext text [s] hread
  have hnull : Value.null.Addressable :=
    Value.addressable_of_children (by decide) fun step c hc => by simp [Value.child?] at hc
  have hroot : (Value.arr items).Addressable := by
    refine Value.addressable_of_children (by decide) fun step c hc => ?_
    cases step with
    | key name => simp [Value.child?] at hc
    | pos p =>
      have hmem : c ∈ items := List.mem_of_getElem? hc
      have hc : c = .null := by simpa [items] using hmem
      rwa [hc]
  obtain ⟨hquery, hprune, hwrite⟩ := hpath [s] (.arr items) hw hroot
  exact ⟨hread, hw, hroot, hsegment s items (hw s List.mem_cons_self) (by decide), hquery,
    hwrite hne _, hprune⟩

end PathDoc
