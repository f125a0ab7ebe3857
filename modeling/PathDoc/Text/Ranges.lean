/-!
# PathDoc.Text.Ranges — membership of a character in a table of code point ranges

A character property is a list of closed ranges; `mem_iff` says what membership means.
-/

namespace PathDoc.Text

/-- A property of characters, as closed ranges of code points. -/
abbrev Ranges := List (Nat × Nat)

namespace Ranges

/-- Whether some range of the table holds the character. -/
def mem (table : Ranges) (c : Char) : Bool :=
  table.any fun r => r.1 ≤ c.toNat && c.toNat ≤ r.2

@[simp] theorem mem_nil (c : Char) : mem [] c = false := rfl

@[simp] theorem mem_cons (r : Nat × Nat) (table : Ranges) (c : Char) :
    mem (r :: table) c = ((decide (r.1 ≤ c.toNat) && decide (c.toNat ≤ r.2)) || mem table c) := rfl

theorem mem_iff {table : Ranges} {c : Char} :
    mem table c = true ↔ ∃ r ∈ table, r.1 ≤ c.toNat ∧ c.toNat ≤ r.2 := by
  simp [mem]

end Ranges

end PathDoc.Text
