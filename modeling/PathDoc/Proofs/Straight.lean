import PathDoc.Proofs.Opening

/-!
# PathDoc.Proofs.Straight — writing without the walk ahead

The writer follows a path as far as the document holds it, and only then opens nodes.
`Write.intoNode` opens them from the root on.  The two differ where a span has no end, or ends of
different signs: to open an array makes room for such a span, to follow it does not.  For every other
path they agree, in the document that they leave and in the fault that ends them
(`write_eq_intoNode`), because a node in which a segment fits has room for it
(`Segment.hasRoom_of_isStraight`), and is then opened as it is.
-/

namespace PathDoc

open Json

namespace Segment

open Index

variable {s : Segment} {n : ℕ}

/-- Neither a span without an end nor one with ends of different signs. -/
def isStraight : Segment → Bool
  | span _ none => false
  | span start (some stop) => decide (0 ≤ start) == decide (0 ≤ stop)
  | _ => true

theorem isOpen_eq_false_of_isStraight (h : s.isStraight = true) : s.isOpen = false := by
  cases s with
  | span start stop =>
    cases stop with
    | none => exact absurd h Bool.false_ne_true
    | some stop => rfl
  | _ => rfl

/-- An array that holds all that a straight segment spells has room for it. -/
theorem demand_le_of_isStraight (h : s.isStraight = true) (hn : s.reach ≤ n) : s.demand n ≤ n := by
  cases s with
  | span start stop =>
    cases stop with
    | none => exact absurd h Bool.false_ne_true
    | some stop =>
      have hsides : 0 ≤ start ↔ 0 ≤ stop := by simpa [isStraight] using h
      obtain ⟨hstart, hstop⟩ : Index.reach start ≤ n ∧ Index.reach stop ≤ n :=
        reach_span_le_iff.mp hn
      -- the walk does not cross zero, so it has no more steps than its far end asks for
      have hwalk : (start - stop).natAbs + 1 ≤ n := by
        unfold Index.reach at hstart hstop
        split_ifs at hstart hstop <;> omega
      have hgrown := grown_closed hn
      rw [max_eq_left hwalk] at hgrown
      exact (le_max_right _ _).trans_eq hgrown
  | _ => exact hn

/-- Where a straight segment fits there is room for it. -/
theorem hasRoom_of_isStraight (h : s.isStraight = true) {v : Value} (hf : s.fits v = true) :
    s.hasRoom v = true := by
  cases v with
  | arr items =>
    rw [hasRoom_arr, decide_eq_true_eq]
    refine demand_le_of_isStraight h ?_
    cases hs : s.isPositional with
    | true => rwa [fits_arr hs, decide_eq_true_eq] at hf
    | false =>
      obtain ⟨name, rfl⟩ := exists_eq_member hs
      exact Nat.zero_le _
  | _ => rfl

end Segment

namespace Write

variable {job : Job} {s : Segment} {path rest : Path} {node : Value}

/-- Along straight segments the descent opens each node that it comes to. -/
theorem descend_eq_intoNode (hx : ∀ s ∈ path, s.excess? = none)
    (h : ∀ s ∈ path, s.isStraight = true) (node : Value) :
    descend job path node = intoNode job path node := by
  induction path generalizing node with
  | nil => rfl
  | cons s rest ih =>
    rw [List.forall_mem_cons] at hx h
    rw [descend]
    by_cases hgo : rest ≠ [] ∧ s.fits node = true
    · obtain ⟨t, rest', rfl⟩ := List.exists_cons_of_ne_nil hgo.1
      have hroom := Segment.hasRoom_of_isStraight h.1 hgo.2
      have hopen := opened?_of_hasRoom hx.1 (Segment.isOpen_eq_false_of_isStraight h.1) job
        (t :: rest') hroom hgo.2
      have hbelow : descend job (t :: rest') = intoSlot job (t :: rest') := by
        funext c
        rw [ih hx.2 h.2, intoSlot_eq_intoNode]
      rw [if_pos hgo, hbelow, intoNode, enter_eq, hopen]
    · rw [if_neg hgo]

end Write

/-- **The walk ahead does not show** in what a write leaves, nor in the fault that ends it, unless a
span has no end or ends of different signs: the write opens node after node from the root on. -/
theorem write_eq_intoNode {path : Path} (hx : Write.firstExcess? path = none)
    (h : ∀ s ∈ path, s.isStraight = true) (root : Value) (job : Job) :
    root.write path job = Write.intoNode job path root := by
  have hnone := Write.firstExcess?_eq_none_iff.mp hx
  rw [write_eq_descend hx, Write.descend_eq_intoNode hnone h]

/-- A list backwards and a span of negative ends: the last of three rows is written, the one before it
is in the way, and both writers leave it at that. -/
theorem write_eq_intoNode_of_rows :
    let row (i j : Int) := Value.arr [.num (.int i), .num (.int j)]
    let root := Value.arr [row 1 2, .str "row", row 5 6]
    let path : Path := [.indexes [-1, 1, 0], .span (-2) (some (-1))]
    let job : Job := ⟨.null, .normal⟩
    Write.firstExcess? path = none ∧ (∀ s ∈ path, s.isStraight = true) ∧
      root.write path job = Write.intoNode job path root ∧
      (root.write path job).fault = some (.clash [.pos 1] (.str "row")) ∧
      (root.write path job).result = .arr [row 1 2, .str "row", .arr [.null, .null]] := by
  intro row root path job
  have hx : Write.firstExcess? path = none := by rfl
  have hstraight : ∀ s ∈ path, s.isStraight = true := by decide
  exact ⟨hx, hstraight, write_eq_intoNode hx hstraight root job, by rfl, by rfl⟩

end PathDoc
