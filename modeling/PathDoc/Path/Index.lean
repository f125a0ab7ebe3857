/-!
# PathDoc.Path.Index — signed indexes into an array

A non-negative index counts from the front, a negative one from the end. `reach` is the length from
which an index has a place (`place?_isSome_iff`), and `arrayLimit` the greatest reach that a write
accepts.
-/

namespace PathDoc

/-- The greatest reach of an index that a write accepts. -/
def arrayLimit : Nat := 1 <<< 20

namespace Index

/-- The least length of an array in which the index has a place. -/
def reach (i : Int) : Nat := if 0 ≤ i then i.toNat + 1 else i.natAbs

/-- The position of an index, counted from the front. A non-negative index has one in every array;
it may lie past the end. -/
def position? (i : Int) (len : Nat) : Option Nat :=
  if 0 ≤ i then some i.toNat else if i.natAbs ≤ len then some (len - i.natAbs) else none

/-- The position of an index among the elements of an array. -/
def place? (i : Int) (len : Nat) : Option Nat := (position? i len).filter (· < len)

/-- Whether an index reaches past the greatest length that writing accepts. -/
def isExcessive (i : Int) : Bool := arrayLimit < reach i

/-- The integers from `a` up to `b`, both included. -/
def upTo (a b : Int) : List Int := (List.range (b + 1 - a).toNat).map fun (k : Nat) => a + k

/-- The integers from `a` to `b`, both included, downwards if `b` is less. -/
def walk (a b : Int) : List Int := if a ≤ b then upTo a b else (upTo b a).reverse

/-! ### first facts -/

theorem reach_pos (i : Int) : 0 < reach i := by
  unfold reach; split <;> omega

@[simp] theorem reach_natCast (n : Nat) : reach n = n + 1 := by simp [reach]

theorem mem_upTo {a b i : Int} : i ∈ upTo a b ↔ a ≤ i ∧ i ≤ b := by
  simp only [upTo, List.mem_map, List.mem_range]
  constructor
  · rintro ⟨k, hk, rfl⟩; omega
  · rintro ⟨h1, h2⟩; exact ⟨(i - a).toNat, by omega, by omega⟩

theorem length_upTo (a b : Int) : (upTo a b).length = (b + 1 - a).toNat := by simp [upTo]

theorem mem_walk {a b i : Int} : i ∈ walk a b ↔ min a b ≤ i ∧ i ≤ max a b := by
  unfold walk
  split
  · rw [mem_upTo]; omega
  · rw [List.mem_reverse, mem_upTo]; omega

theorem length_walk (a b : Int) : (walk a b).length = (a - b).natAbs + 1 := by
  unfold walk
  split
  · rw [length_upTo]; omega
  · rw [List.length_reverse, length_upTo]; omega

/-- An index has a place among the elements exactly from its reach on. -/
theorem place?_isSome_iff {i : Int} {len : Nat} : (place? i len).isSome ↔ reach i ≤ len := by
  by_cases h : 0 ≤ i
  · simp only [place?, position?, reach, if_pos h, Option.filter_some, decide_eq_true_eq]
    split
    · exact iff_of_true rfl (by omega)
    · exact iff_of_false Bool.false_ne_true (by omega)
  · simp only [place?, position?, reach, if_neg h]
    split
    · simp only [Option.filter_some, decide_eq_true_eq]
      split
      · exact iff_of_true rfl (by omega)
      · exact iff_of_false Bool.false_ne_true (by omega)
    · exact iff_of_false Bool.false_ne_true (by omega)

end Index

end PathDoc
