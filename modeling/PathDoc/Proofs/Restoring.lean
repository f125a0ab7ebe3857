import PathDoc.Proofs.Composition
import PathDoc.Proofs.Independence
import PathDoc.Proofs.Repetition
import PathDoc.Proofs.Taking

/-!
# PathDoc.Proofs.Restoring — writes and removals that undo each other

Where the front of a path fits, a write and a removal both do their work at the targets of the front and
leave all else as it is.  So one after the other comes to what the two do at each target
(`prune_write_append`, `write_prune_append`), and undoes it if it does so there.  A removed member that is
written again goes to the end of its object, which is equal then; a new member, and an element one past the
end of an array, are at the end and leave no trace when they are taken out again.  Along a path of members
and single indexes there is one target (`Path.exists_target`), and it is the one that the removal has cut
at or that a reader finds.
-/

namespace PathDoc

open Json

namespace Json.Members

variable {ms : Members} {name : String} {v : Value}

theorem erase_of_not_mem (h : name ∉ ms.map Prod.fst) : ms.erase name = ms := by
  refine List.filter_eq_self.mpr fun m hm => bne_iff_ne.mpr ?_
  rintro rfl
  exact h (List.mem_map_of_mem hm)

/-- The members in another order: one of them has been taken out and put to the end. -/
theorem perm_erase_append (hn : (ms.map Prod.fst).Nodup) (h : ms.get? name = some v) :
    (ms.erase name ++ [(name, v)]).Perm ms := by
  induction ms with
  | nil => simp at h
  | cons m rest ih =>
    obtain ⟨k, u⟩ := m
    rw [List.map_cons, List.nodup_cons] at hn
    rw [get?_cons] at h
    by_cases hk : k = name
    · subst hk
      rw [if_pos rfl] at h
      have herase : erase ((k, u) :: rest) k = rest := by
        rw [erase, List.filter_cons_of_neg (by simp)]
        exact erase_of_not_mem hn.1
      rw [herase, Option.some.inj h]
      exact List.perm_append_singleton (k, v) rest
    · rw [if_neg hk] at h
      have herase : erase ((k, u) :: rest) name = (k, u) :: erase rest name := by
        rw [erase, List.filter_cons_of_pos (by simpa using hk)]
        rfl
      rw [herase, List.cons_append]
      exact (ih hn.2 h).cons (k, u)

end Json.Members

/-! ### targets that are left as they are -/

namespace Path

variable {pre : Path} {v : Value} {f g h : Value → Value}

/-- The document as it is where every target is left as it is. -/
theorem updateTargets_eq_self (hg : ∀ t ∈ pre.targets v, g t.2 = t.2) : v.updateTargets g pre = v := by
  induction pre generalizing v with
  | nil => exact hg ([], v) (List.mem_singleton.mpr rfl)
  | cons s pre ih =>
    rw [Value.updateTargets]
    refine Eq.trans (Value.updateChildren_congr (h := id) (s.nodup_steps v) fun step hm c hc => ?_)
      (Value.updateChildren_id _ v)
    refine ih fun t ht => hg (step :: t.1, t.2) (mem_targets_cons.mpr ⟨(step, c), ?_, t, ht, rfl⟩)
    exact Segment.mem_children.mpr ⟨hm, hc⟩

/-- An equal document where every target is left equal. -/
theorem updateTargets_beq_self (hv : v.WellFormed)
    (hg : ∀ t ∈ pre.targets v, t.2.WellFormed → (g t.2 == t.2) = true) :
    (v.updateTargets g pre == v) = true := by
  induction pre generalizing v with
  | nil => exact hg ([], v) (List.mem_singleton.mpr rfl) hv
  | cons s pre ih =>
    rw [Value.updateTargets]
    have hup := Value.comesUp_beq (g := id) (h := Value.updateTargets g pre) hv (s.nodup_steps v)
      fun step hm c hc => ih (hv.child hc) fun t ht => hg (step :: t.1, t.2)
        (mem_targets_cons.mpr ⟨(step, c), Segment.mem_children.mpr ⟨hm, hc⟩, t, ht, rfl⟩)
    rwa [Value.updateChildren_id] at hup

end Path

/-! ### a write after a removal, and a removal after a write -/

theorem prune_singleton (v : Value) (last : Segment) :
    v.prune [last] = ([(last.cut v).1], (last.cut v).2) :=
  prune_eq_uproot v [] last

section Composed

variable {pre : Path} {last : Segment} {root : Value} {job : Job}

/-- **A write after a removal** comes to its end if it does so at what is left of each target. -/
theorem prune_write_append (hproper : ∀ s ∈ pre, s.isProper = true)
    (hx : Write.firstExcess? pre = none) (hf : pre.Fits root)
    (hdone : ∀ t ∈ pre.targets root, ((last.cut t.2).2.write [last] job).fault = none) :
    (root.prune (pre ++ [last])).2.write (pre ++ [last]) job =
      .done (root.updateTargets (fun n => ((last.cut n).2.write [last] job).result) pre) := by
  have hlast : [last] ≠ [] := List.cons_ne_nil _ _
  have hroot : (root.prune (pre ++ [last])).2 = root.updateTargets (fun n => (last.cut n).2) pre := by
    rw [prune_append hlast hf]
    simp only [prune_singleton]
  have hf' : pre.Fits (root.updateTargets (fun n => (last.cut n).2) pre) := hf.updateTargets _
  have hfault : ((root.updateTargets (fun n => (last.cut n).2) pre).write (pre ++ [last]) job).fault =
      none := by
    refine (Write.fault_write_append_iff hlast hproper hx hf').mpr fun t ht => ?_
    rw [Path.targets_updateTargets] at ht
    obtain ⟨u, hu, rfl⟩ := List.mem_map.mp ht
    exact hdone u hu
  rw [hroot, Outcome.eq_done hfault, Write.result_write_append hlast hf' hfault,
    Path.updateTargets_updateTargets]

/-- **A removal after a write** takes what it takes from each target that has been written. -/
theorem write_prune_append (hf : pre.Fits root)
    (hnone : (root.write (pre ++ [last]) job).fault = none) :
    (root.write (pre ++ [last]) job).result.prune (pre ++ [last]) =
      ((pre.targets root).map fun t => (last.cut (t.2.write [last] job).result).1,
        root.updateTargets (fun n => (last.cut (n.write [last] job).result).2) pre) := by
  have hlast : [last] ≠ [] := List.cons_ne_nil _ _
  rw [Write.result_write_append hlast hf hnone, prune_append hlast (hf.updateTargets _),
    Path.targets_updateTargets, Path.updateTargets_updateTargets, List.flatMap_map]
  simp only [prune_singleton]
  rw [← List.map_eq_flatMap]

end Composed

/-! ### one node -/

theorem write_new_member {ms : Members} {name : String} (h : ms.get? name = none) (job : Job) :
    (Value.obj ms).write [.member name] job = .done (.obj (ms ++ [(name, job.leaf)])) := by
  rw [write_eq_descend rfl, Write.descend, if_neg (by simp), Write.intoNode, Write.enter_eq]
  simp only [Write.opened?, Write.membersOf?, Option.map_some, h, Members.put_eq_append h,
    Write.alongSteps_nil, Path.scaffold_nil]

theorem write_new_item (items : List Value) {job : Job}
    (hx : (Segment.index items.length).excess? = none) :
    (Value.arr items).write [.index items.length] job = .done (.arr (items ++ [job.leaf])) := by
  have hnone : Write.firstExcess? [Segment.index items.length] = none :=
    Write.firstExcess?_eq_none_iff.mpr fun s hs => by rwa [List.mem_singleton.mp hs]
  have hstep := Write.intoNode_eq_oneStep (a := .pos items.length) hx job [] (.arr items)
  have hslot : Value.slot (.arr items) (.pos items.length) = .obj [] :=
    Value.slot_of_child?_eq_none (List.getElem?_eq_none le_rfl)
  have hput : Value.putChild (.arr items) (.pos items.length) job.leaf =
      .arr (items ++ [job.leaf]) := by
    simp [Value.putChild, Value.padTo]
  rw [Write.oneStep, Write.prepare?_of_suits rfl] at hstep
  simp only [hslot, Write.intoSlot_of_isEmptyContainer Value.isEmptyContainer_obj_nil] at hstep
  rw [write_eq_descend hnone, Write.descend, if_neg (by simp)]
  exact hstep.trans (congrArg Outcome.done hput)

theorem cut_new_member {ms : Members} {name : String} (h : ms.get? name = none) (v : Value) :
    (Segment.member name).cut (.obj (ms ++ [(name, v)])) = (some v, .obj ms) := by
  have hnew : name ∉ ms.map Prod.fst := by
    rw [← Members.get?_isSome_iff, h]
    exact Bool.false_ne_true
  have herase : Members.erase (ms ++ [(name, v)]) name = ms := by
    rw [Members.erase, List.filter_append, ← Members.erase, Members.erase_of_not_mem hnew]
    simp
  rw [Segment.cut, Write.get?_append_new h, herase]

theorem cut_new_item (items : List Value) (v : Value) :
    (Segment.index items.length).cut (.arr (items ++ [v])) = (some v, .arr items) := by
  have hplace : Index.place? items.length (items ++ [v]).length = some items.length :=
    Index.place?_eq_some_iff.mpr ⟨by simp, .inl rfl⟩
  rw [Segment.cut_index_arr, hplace]
  simp [List.eraseIdx_append_of_length_le]

/-- Whether a node has a place at its end for the segment: an object that lacks the member, or an array
of which the index is the length. -/
inductive Segment.Lacking : Segment → Value → Prop where
  | member {name : String} {ms : Members} (h : Members.get? ms name = none) :
      Lacking (.member name) (.obj ms)
  | item (items : List Value) : Lacking (.index items.length) (.arr items)

/-- What is written at that place is all that a removal takes out again. -/
theorem Segment.Lacking.write_and_cut {s : Segment} {node : Value} (h : s.Lacking node)
    (hx : s.excess? = none) (job : Job) :
    ∃ w, node.write [s] job = .done w ∧ s.cut w = (some job.leaf, node) := by
  cases h with
  | member h => exact ⟨_, write_new_member h job, cut_new_member h job.leaf⟩
  | item items => exact ⟨_, write_new_item items hx, cut_new_item items job.leaf⟩

/-- What comes out of a node for a member is what its object holds there. -/
theorem exists_of_cut_member {node v : Value} {name : String}
    (h : ((Segment.member name).cut node).1 = some v) :
    ∃ ms, node = .obj ms ∧ Members.get? ms name = some v := by
  cases node with
  | obj ms => exact ⟨ms, rfl, h⟩
  | _ => simp [Segment.cut] at h

/-- An object whose member has been put to the end equals the old one. -/
theorem beq_erase_append {ms : Members} {name : String} {v : Value} (hms : (Value.obj ms).WellFormed)
    (h : ms.get? name = some v) :
    (Value.obj (Members.erase ms name ++ [(name, v)]) == .obj ms) = true := by
  obtain ⟨hdistinct, hchildren⟩ := Value.wellFormed_iff.mp hms
  have hn : (ms.map Prod.fst).Nodup := hdistinct
  have hperm := Members.perm_erase_append hn h
  have hn' : ((Members.erase ms name ++ [(name, v)]).map Prod.fst).Nodup :=
    (hperm.map Prod.fst).nodup_iff.mpr hn
  refine Value.beq_of_alike hn' (hperm.map Prod.fst).length_eq fun step c hc => ?_
  cases step with
  | pos i => simp [Value.child?] at hc
  | key k =>
    have hmem : (k, c) ∈ ms := hperm.mem_iff.mp (Members.mem_of_get? hc)
    have hget : ms.get? k = some c := Members.get?_of_mem hn hmem
    exact ⟨c, hget, Value.beq_self (hchildren (.key k) c hget)⟩

/-! ### paths of members and single indexes -/

theorem Segment.children_of_isSingle {s : Segment} (hs : s.isSingle = true) (v : Value) :
    s.children v = [] ∨ ∃ c, s.children v = [c] := by
  have hmap := s.map_snd_children_of_isSingle hs v
  cases ho : (s.cut v).1 with
  | none =>
    rw [ho, Option.toList_none, List.map_eq_nil_iff] at hmap
    exact .inl hmap
  | some w =>
    rw [ho, Option.toList_some, List.map_eq_singleton_iff] at hmap
    obtain ⟨c, hc, -⟩ := hmap
    exact .inr ⟨c, hc⟩

theorem Segment.isProper_of_isSingle {s : Segment} (hs : s.isSingle = true) : s.isProper = true := by
  cases s <;> first | rfl | exact absurd hs Bool.false_ne_true

namespace Path

variable {pre : Path} {last : Segment} {v : Value}

/-- A front that fits has one target. -/
theorem exists_target (hs : ∀ s ∈ pre, s.isSingle = true) (hf : pre.Fits v) :
    ∃ t, pre.targets v = [t] := by
  induction pre generalizing v with
  | nil => exact ⟨([], v), rfl⟩
  | cons s pre ih =>
    rw [List.forall_mem_cons] at hs
    have hne := Segment.children_ne_nil (Segment.isProper_of_isSingle hs.1) hf.1
    obtain ⟨c, hc⟩ := (Segment.children_of_isSingle hs.1 v).resolve_left hne
    obtain ⟨t, ht⟩ := ih hs.2 (hf.2 c (by rw [hc]; exact List.mem_singleton_self c))
    rw [targets_cons, hc, List.flatMap_singleton, ht]
    exact ⟨_, rfl⟩

/-- A front at whose end a reader finds something fits. -/
theorem fits_of_targets (hs : ∀ s ∈ pre, s.isSingle = true) (hw : pre.Within v)
    (ht : pre.targets v ≠ []) : pre.Fits v := by
  induction pre generalizing v with
  | nil => trivial
  | cons s pre ih =>
    rw [List.forall_mem_cons] at hs
    rw [targets_cons] at ht
    rcases Segment.children_of_isSingle hs.1 v with hc | ⟨c, hc⟩
    · rw [hc] at ht
      exact absurd rfl ht
    · have hfits : s.fits v = true := by
        by_contra hn
        rw [Segment.children_eq_nil hw.1 (by simpa using hn)] at hc
        cases hc
      refine ⟨hfits, fun d hd => ih hs.2 (hw.2 d hd) fun hnil => ht ?_⟩
      rw [hc, List.mem_singleton] at hd
      rw [hc, List.flatMap_singleton, ← hd, hnil]
      rfl

/-- A front at whose end a removal has cut fits. -/
theorem fits_of_uproot (hs : ∀ s ∈ pre, s.isSingle = true)
    (hne : (Removal.uproot last pre v).1 ≠ []) : pre.Fits v := by
  induction pre generalizing v with
  | nil => trivial
  | cons s pre ih =>
    rw [List.forall_mem_cons] at hs
    rw [Removal.uproot] at hne
    split_ifs at hne with hfits
    · refine ⟨hfits, fun d hd => ih hs.2 fun hnil => hne ?_⟩
      obtain hc | ⟨c, hc⟩ := Segment.children_of_isSingle hs.1 v
      · rw [hc] at hd
        exact absurd hd List.not_mem_nil
      · rw [hc, List.mem_singleton] at hd
        rw [hc, List.flatMap_singleton, ← hd, hnil]
    · exact absurd rfl hne

end Path

/-! ### drafts -/

namespace Draft

variable {d d' : Draft} {text : String} {pre : Path} {last : Segment} {name : String} {v : Value}

/-- A member that has been taken out can be put back, whatever may be replaced. -/
theorem putWith_of_take (hd : d.root.WellFormed)
    (hpath : Path.read text = .ok (pre ++ [.member name])) (hs : ∀ s ∈ pre, s.isSingle = true)
    (hx : ∀ s ∈ pre, s.excess? = none) (htake : d.take text = .ok (some v, d'))
    (priority : Priority) :
    ∃ again, d'.putWith text (some v) priority = .ok again ∧ (again == d) = true := by
  have hproper : ∀ s ∈ pre, s.isProper = true := fun s hm => Segment.isProper_of_isSingle (hs s hm)
  have hnone : Write.firstExcess? pre = none := Write.firstExcess?_eq_none_iff.mpr hx
  rw [take_of_read hpath] at htake
  cases hback : handBack? (d.root.prune (pre ++ [.member name])).1 with
  | none => rw [hback] at htake; simp at htake
  | some removed =>
    rw [hback] at htake
    obtain ⟨hv, rfl⟩ := Prod.mk.inj (Except.ok.inj htake)
    obtain rfl := Option.some.inj hv
    have hne : (Removal.uproot (.member name) pre d.root).1 ≠ [] := by
      rw [← prune_eq_uproot]
      intro hnil
      rw [hnil] at hback
      cases hback
    have hf := Path.fits_of_uproot hs hne
    obtain ⟨t, ht⟩ := Path.exists_target hs hf
    rw [prune_append (List.cons_ne_nil _ _) hf, ht, List.flatMap_singleton, prune_singleton] at hback
    obtain ⟨ms, hms, hget⟩ := exists_of_cut_member hback
    have hnode : ∀ u ∈ pre.targets d.root,
        ((Segment.member name).cut u.2).2.write [.member name] ⟨removed, priority.permission⟩ =
          .done (.obj (Members.erase ms name ++ [(name, removed)])) := by
      intro u hu
      rw [ht, List.mem_singleton] at hu
      rw [hu, hms]
      exact write_new_member (Members.get?_erase_self ms name) _
    have hwrite := prune_write_append hproper hnone hf fun u hu => by rw [hnode u hu]; rfl
    refine ⟨_, write_eq_ok_iff.mpr ⟨_, removed, hpath, rfl, ?_, rfl⟩, beq_of_roots ?_ _⟩
    · rw [hwrite]
      rfl
    · rw [hwrite]
      refine Path.updateTargets_beq_self hd fun u hu hwf => ?_
      rw [hnode u hu]
      rw [ht, List.mem_singleton] at hu
      rw [hu, hms] at hwf ⊢
      exact beq_erase_append hwf hget

/-- What has been put at the end of a node can be taken out, and nothing of it is left. -/
theorem take_of_putWith (hpath : Path.read text = .ok (pre ++ [last]))
    (hs : ∀ s ∈ pre, s.isSingle = true) (hx : ∀ s ∈ pre ++ [last], s.excess? = none) {node : Value}
    (hquery : d.root.query pre = .ok [node]) (hlast : last.Lacking node) (v : Value)
    (priority : Priority) :
    ∃ new, d.putWith text (some v) priority = .ok new ∧ new.take text = .ok (some v, d) := by
  have hproper : ∀ s ∈ pre, s.isProper = true := fun s hm => Segment.isProper_of_isSingle (hs s hm)
  have hnone : Write.firstExcess? pre = none :=
    Write.firstExcess?_eq_none_iff.mpr fun s hm => hx s (List.mem_append_left _ hm)
  have hxlast : last.excess? = none := hx last (List.mem_append_right _ (List.mem_singleton_self last))
  obtain ⟨hw, hnodes⟩ := query_eq_ok_iff.mp hquery
  obtain ⟨t, ht, hnode⟩ := List.map_eq_singleton_iff.mp hnodes.symm
  have hf := Path.fits_of_targets hs hw (by rw [ht]; exact List.cons_ne_nil _ _)
  obtain ⟨w, hwrite, hcut⟩ := hlast.write_and_cut hxlast ⟨v, priority.permission⟩
  have htarget : ∀ u ∈ pre.targets d.root,
      u.2.write [last] ⟨v, priority.permission⟩ = .done w ∧ last.cut w = (some v, u.2) := by
    intro u hu
    rw [ht, List.mem_singleton] at hu
    rw [hu, hnode]
    exact ⟨hwrite, hcut⟩
  have hfault : (d.root.write (pre ++ [last]) ⟨v, priority.permission⟩).fault = none := by
    refine (Write.fault_write_append_iff (List.cons_ne_nil _ _) hproper hnone hf).mpr fun u hu => ?_
    rw [(htarget u hu).1]
    rfl
  have hsame : d.root.updateTargets
      (fun n => (last.cut (n.write [last] ⟨v, priority.permission⟩).result).2) pre = d.root := by
    refine Path.updateTargets_eq_self fun u hu => ?_
    rw [(htarget u hu).1, Outcome.result_done, (htarget u hu).2]
  refine ⟨_, write_eq_ok_iff.mpr ⟨_, v, hpath, rfl, hfault, rfl⟩, ?_⟩
  rw [take_of_read hpath, write_prune_append hf hfault, ht, List.map_singleton, hnode, hwrite,
    Outcome.result_done, hcut, hsame]
  rfl

/-- **Put and take undo each other** at a path of members and single indexes, none of which aims too
far.  What a removal of a member has handed back can be put back with any priority, and the document
equals the old one.  Where the front of the path leads to an object that lacks the member, or to an array
of which the index is the length, a value can be put there with any priority; a removal then hands it
back and leaves the old document, with its members in their order. -/
theorem put_and_take_undo_each_other (hpath : Path.read text = .ok (pre ++ [last]))
    (hs : ∀ s ∈ pre ++ [last], s.isSingle = true) (hx : ∀ s ∈ pre ++ [last], s.excess? = none)
    (v : Value) (priority : Priority) :
    (∀ name d', d.root.WellFormed → last = .member name → d.take text = .ok (some v, d') →
      ∃ again, d'.putWith text (some v) priority = .ok again ∧ (again == d) = true) ∧
    (∀ node, d.root.query pre = .ok [node] → last.Lacking node →
      ∃ new, d.putWith text (some v) priority = .ok new ∧ new.take text = .ok (some v, d)) := by
  have hs' : ∀ s ∈ pre, s.isSingle = true := fun s hm => hs s (List.mem_append_left _ hm)
  have hx' : ∀ s ∈ pre, s.excess? = none := fun s hm => hx s (List.mem_append_left _ hm)
  constructor
  · rintro name d' hd rfl htake
    exact putWith_of_take hd hpath hs' hx' htake priority
  · intro node hquery hlast
    exact take_of_putWith hpath hs' hx hquery hlast v priority

/-- A member that holds a null and stands before another one, in the last element of an array: it comes
back at the end of its object.  An element after a single one comes and goes. -/
theorem put_and_take_undo_each_other_in_rows :
    let doc (members : Members) (items : List Value) : Draft :=
      ofValue (.obj [("a", .arr [.bool true, .obj members]), ("b", .arr items)])
    let one : Value := .num (.int 1)
    let d := doc [("x", .null), ("y", one)] [one]
    let pre : Path := [.member "a", .index (-1)]
    Path.read "a[-1].x" = .ok (pre ++ [.member "x"]) ∧
      d.take "a[-1].x" = .ok (some .null, doc [("y", one)] [one]) ∧
      (∃ again, (doc [("y", one)] [one]).putWith "a[-1].x" (some .null) .low = .ok again ∧
        (again == d) = true) ∧
      Path.read "b[1]" = .ok ([.member "b"] ++ [.index 1]) ∧
      d.root.query [.member "b"] = .ok [.arr [one]] ∧
      ∃ new, d.putWith "b[1]" (some one) .low = .ok new ∧ new.take "b[1]" = .ok (some one, d) := by
  intro doc one d pre
  have hmember : Path.read "a[-1].x" = .ok (pre ++ [.member "x"]) := by rfl
  have hitem : Path.read "b[1]" = .ok ([.member "b"] ++ [.index 1]) := by rfl
  have hd : d.root.WellFormed := by
    simp [d, doc, one, ofValue, Value.WellFormed, Value.WellFormedItems, Value.WellFormedMembers]
  have htake : d.take "a[-1].x" = .ok (some .null, doc [("y", one)] [one]) := by rfl
  have hquery : d.root.query [.member "b"] = .ok [.arr [one]] := by rfl
  obtain ⟨hback, -⟩ := put_and_take_undo_each_other (d := d) hmember (by decide) (by decide) .null .low
  obtain ⟨-, hagain⟩ := put_and_take_undo_each_other (d := d) hitem (by decide) (by decide) one .low
  exact ⟨hmember, htake, hback "x" _ hd rfl htake, hitem, hquery, hagain _ hquery (.item [one])⟩

end Draft

end PathDoc
