/-!
# PathDoc.Text.Numeral — integers in decimal

`ofInt` writes an integer with the fewest digits and a leading minus where it is negative.
`takeInt?` reads the longest integer at the front of a text; leading zeros and `-0` are allowed
there.
-/

namespace PathDoc.Text.Numeral

/-- A natural number in decimal. -/
def ofNat (n : Nat) : List Char := Nat.toDigits 10 n

/-- An integer in decimal. -/
def ofInt : Int → List Char
  | .ofNat n => ofNat n
  | .negSucc n => '-' :: ofNat (n + 1)

/-- The number a run of decimal digits denotes. -/
def value (ds : List Char) : Nat := Nat.ofDigitChars 10 ds 0

/-- The longest run of digits at the front, as a number, and what follows it. -/
def takeNat? (cs : List Char) : Option (Nat × List Char) :=
  match cs.takeWhile Char.isDigit with
  | [] => none
  | ds => some (value ds, cs.dropWhile Char.isDigit)

/-- The longest integer at the front and what follows it. -/
def takeInt? : List Char → Option (Int × List Char)
  | '-' :: cs => (takeNat? cs).map fun (n, rest) => (-(n : Int), rest)
  | cs => (takeNat? cs).map fun (n, rest) => ((n : Int), rest)

/-- The integer that the whole text denotes. -/
def int? (cs : List Char) : Option Int :=
  match takeInt? cs with
  | some (i, []) => some i
  | _ => none

/-! ### writing then reading -/

theorem value_ofNat (n : Nat) : value (ofNat n) = n :=
  Nat.ofDigitChars_toDigits (by decide) (by decide)

theorem isDigit_of_mem_ofNat {n : Nat} {c : Char} (h : c ∈ ofNat n) : c.isDigit = true :=
  Nat.isDigit_of_mem_toDigits (by decide) (by decide) h

theorem ofNat_ne_nil (n : Nat) : ofNat n ≠ [] := Nat.toDigits_ne_nil

theorem takeNat?_append {ds rest : List Char} (hne : ds ≠ []) (hds : ∀ c ∈ ds, c.isDigit = true)
    (hrest : ∀ c ∈ rest.head?, c.isDigit = false) :
    takeNat? (ds ++ rest) = some (value ds, rest) := by
  have ht : rest.takeWhile Char.isDigit = [] := by
    cases rest with
    | nil => rfl
    | cons c cs => simp [hrest c (by simp)]
  have hd : rest.dropWhile Char.isDigit = rest := by
    cases rest with
    | nil => rfl
    | cons c cs => simp [hrest c (by simp)]
  rw [takeNat?, List.takeWhile_append_of_pos hds, List.dropWhile_append_of_pos hds, ht, hd,
    List.append_nil]
  cases ds with
  | nil => exact absurd rfl hne
  | cons c cs => rfl

/-! ### reading shortens -/

theorem length_lt_of_takeNat? {cs rest : List Char} {n : Nat} (h : takeNat? cs = some (n, rest)) :
    rest.length < cs.length := by
  have hlen := congrArg List.length (List.takeWhile_append_dropWhile (p := Char.isDigit) (l := cs))
  cases hds : cs.takeWhile Char.isDigit with
  | nil => simp [takeNat?, hds] at h
  | cons d ds =>
    obtain ⟨-, rfl⟩ : value (d :: ds) = n ∧ cs.dropWhile Char.isDigit = rest := by
      simpa [takeNat?, hds] using h
    rw [hds, List.length_append, List.length_cons] at hlen
    omega

theorem length_lt_of_takeInt? {cs rest : List Char} {i : Int} (h : takeInt? cs = some (i, rest)) :
    rest.length < cs.length := by
  unfold takeInt? at h
  split at h
  · obtain ⟨⟨n, r⟩, hr, he⟩ := Option.map_eq_some_iff.1 h
    obtain ⟨-, rfl⟩ := by simpa using he
    have := length_lt_of_takeNat? hr
    simp only [List.length_cons]; omega
  · obtain ⟨⟨n, r⟩, hr, he⟩ := Option.map_eq_some_iff.1 h
    obtain ⟨-, rfl⟩ := by simpa using he
    exact length_lt_of_takeNat? hr

end PathDoc.Text.Numeral
