import PathDoc.Draft
import PathDoc.Proofs.Targets

/-!
# PathDoc.Proofs.Drafts — the operations of a draft that are not refused

Each of them has read its path and is then the operation on the tree.
-/

namespace PathDoc

open Json

namespace Draft

variable {d d' : Draft} {text : String}

/-- A write that is not refused read its path and came to its end. -/
theorem write_eq_ok_iff {value : Option Value} {permission : Permission} :
    d.write text value permission = .ok d' ↔ ∃ path leaf, Path.read text = .ok path ∧
      value = some leaf ∧ (d.root.write path ⟨leaf, permission⟩).fault = none ∧
      d' = { d with root := (d.root.write path ⟨leaf, permission⟩).result } := by
  unfold write
  cases hpath : Path.read text with
  | error e => simp
  | ok path =>
    cases value with
    | none => simp
    | some leaf =>
      simp only [Except.ok.injEq, Option.some.injEq, exists_eq_left', exists_and_left]
      cases (d.root.write path ⟨leaf, permission⟩).fault with
      | none => simp [eq_comm]
      | some fault => simp

/-- A write is refused for its path, for want of a value, or for the fault that has ended it. -/
theorem write_eq_error_cases {value : Option Value} {permission : Permission} {e : Refusal}
    (h : d.write text value permission = .error e) : Path.read text = .error e ∨
      value = none ∧ e = ⟨text, .noValue⟩ ∨
      ∃ path leaf fault, value = some leaf ∧
        (d.root.write path ⟨leaf, permission⟩).fault = some fault ∧ e = ⟨text, fault.cause leaf⟩ := by
  unfold write at h
  cases hpath : Path.read text with
  | error e' =>
    rw [hpath] at h
    exact .inl (congrArg Except.error (Except.error.inj h))
  | ok path =>
    rw [hpath] at h
    cases value with
    | none => exact .inr (.inl ⟨rfl, (Except.error.inj h).symm⟩)
    | some leaf =>
      simp only at h
      cases hf : (d.root.write path ⟨leaf, permission⟩).fault with
      | none =>
        rw [hf] at h
        cases h
      | some fault =>
        rw [hf] at h
        exact .inr (.inr ⟨path, leaf, fault, rfl, hf, (Except.error.inj h).symm⟩)

theorem query_eq_ok_iff_of_read {path : Path} (hpath : Path.read text = .ok path) {vs : List Value} :
    d.query text = .ok vs ↔ d.root.query path = .ok vs := by
  unfold query
  rw [hpath]
  simp only
  cases d.root.query path with
  | ok nodes => simp
  | error fault => simp

theorem exists_read_of_query {vs : List Value} (h : d.query text = .ok vs) :
    ∃ path, Path.read text = .ok path ∧ d.root.query path = .ok vs := by
  cases hpath : Path.read text with
  | error e => rw [query, hpath] at h; simp at h
  | ok path => exact ⟨path, rfl, (query_eq_ok_iff_of_read hpath).mp h⟩

theorem take_of_read {path : Path} (hpath : Path.read text = .ok path) :
    d.take text = match handBack? (d.root.prune path).1 with
      | none => .ok (none, d)
      | some removed => .ok (some removed, { d with root := (d.root.prune path).2 }) := by
  cases h : handBack? (d.root.prune path).1 with
  | none => simp only [take, hpath, h]
  | some removed => simp only [take, hpath, h]

/-- Nothing is handed back exactly if no node lost anything. -/
theorem handBack?_eq_none_iff {entries : List (Option Value)} :
    handBack? entries = none ↔ ∀ entry ∈ entries, entry = none := by
  match entries with
  | [] => simp [handBack?]
  | [entry] => simp [handBack?]
  | first :: second :: more => simp [handBack?]

end Draft

end PathDoc
