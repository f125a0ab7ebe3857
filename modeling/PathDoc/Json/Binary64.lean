/-!
# PathDoc.Json.Binary64 — finite double-precision numbers, in exact arithmetic

A number is a sign, a significand and a power of two, in the one canonical form that the proof
fields fix: 53 bits unless the exponent is the least one. Every operation computes the exact
quotient of two natural numbers and rounds it once, to the nearest number and a half to the even
one; a result past the greatest finite number is `none`.
-/

namespace PathDoc.Json

/-- The finite number `± significand * 2 ^ exponent`. Both zeros have the least exponent. -/
structure Binary64 where
  negative : Bool
  significand : Nat
  exponent : Int
  significand_lt : significand < 1 <<< 53
  le_exponent : -1074 ≤ exponent
  exponent_le : exponent ≤ 971
  canonical : 1 <<< 52 ≤ significand ∨ exponent = -1074
deriving DecidableEq

namespace Binary64

/-- The quotient of two natural numbers, to the nearest, a half to the even neighbour. -/
def divNearest (num den : Nat) : Nat :=
  let q := num / den
  let r := num % den
  if 2 * r < den then q else if den < 2 * r then q + 1 else q + q % 2

/-- The number with these fields, if they are in canonical form. -/
def ofFields? (negative : Bool) (significand : Nat) (exponent : Int) : Option Binary64 :=
  if h : significand < 1 <<< 53 ∧ -1074 ≤ exponent ∧ exponent ≤ 971 ∧
      (1 <<< 52 ≤ significand ∨ exponent = -1074) then
    some ⟨negative, significand, exponent, h.1, h.2.1, h.2.2.1, h.2.2.2⟩
  else
    none

/-- The zero of either sign. -/
def zero (negative : Bool) : Binary64 :=
  ⟨negative, 0, -1074, by decide, by decide, by decide, .inr rfl⟩

/-- The exponent at which a positive quotient has 53 bits, and no less than the least one. -/
def exponentFor (num den : Nat) : Int :=
  let e : Int := (num.log2 : Int) - den.log2
  let below := if 0 ≤ e then num < den <<< e.toNat else num <<< (-e).toNat < den
  max (-1074) (e - (if below then 53 else 52))

/-- The number nearest to `± num / den`, for a positive `den`. -/
def ofQuotient? (negative : Bool) (num den : Nat) : Option Binary64 :=
  if num = 0 then
    some (zero negative)
  else
    let e := exponentFor num den
    let m := divNearest (num <<< (-e).toNat) (den <<< e.toNat)
    if m = 1 <<< 53 then ofFields? negative (1 <<< 52) (e + 1) else ofFields? negative m e

/-- The number nearest to a natural number. -/
def ofNat? (n : Nat) : Option Binary64 := ofQuotient? false n 1

/-- Whether the number is one of the two zeros. -/
def isZero (x : Binary64) : Bool := x.significand == 0

/-- The number with the other sign. -/
def neg (x : Binary64) : Binary64 := { x with negative := !x.negative }

/-- The numerator of the magnitude as a quotient whose denominator is `denominator`. -/
def numerator (x : Binary64) : Nat := x.significand <<< x.exponent.toNat

/-- A power of two. -/
def denominator (x : Binary64) : Nat := 1 <<< (-x.exponent).toNat

/-- The rounded product. -/
def mul? (x y : Binary64) : Option Binary64 :=
  ofQuotient? (x.negative ^^ y.negative) (x.numerator * y.numerator)
    (x.denominator * y.denominator)

/-- The rounded quotient, for a divisor other than zero. -/
def div? (x y : Binary64) : Option Binary64 :=
  ofQuotient? (x.negative ^^ y.negative) (x.numerator * y.denominator)
    (x.denominator * y.numerator)

/-- Equality of values: the two zeros are equal. -/
protected def beq (x y : Binary64) : Bool := x == y || (x.isZero && y.isZero)

/-! ### first facts -/

@[simp] theorem neg_neg (x : Binary64) : x.neg.neg = x := by
  cases x; simp [neg]

@[simp] theorem isZero_zero (b : Bool) : (zero b).isZero = true := rfl

@[simp] theorem beq_refl (x : Binary64) : x.beq x = true := by simp [Binary64.beq]

theorem beq_comm (x y : Binary64) : x.beq y = y.beq x := by
  rw [Binary64.beq, Binary64.beq, Bool.and_comm, BEq.comm]

end Binary64

end PathDoc.Json
