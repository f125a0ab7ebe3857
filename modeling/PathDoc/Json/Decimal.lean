import PathDoc.Json.Binary64
import PathDoc.Text.Numeral

/-!
# PathDoc.Json.Decimal — the shortest decimal of a binary number, and its written form

`Window` holds the reals that round to a number. `Window.shortest` takes the coarsest power-of-ten
grid with a point inside, and on it the point nearest to the number. `Decimal.text` writes the
digits: positional where the leading digit stands for `10 ^ -5` up to `10 ^ 15`, and with an
exponent elsewhere.
-/

namespace PathDoc.Json

open PathDoc.Text

/-- Decimal digits, the first of them standing for a multiple of `10 ^ exponent`. -/
structure Decimal where
  digits : List Char
  exponent : Int
deriving DecidableEq, Repr

/-- The reals that round to the number `mid / unit`: those between `low / unit` and
`high / unit`, the ends among them where `closed` holds. -/
structure Window where
  low : Nat
  mid : Nat
  high : Nat
  unit : Nat
  closed : Bool
deriving DecidableEq, Repr

namespace Window

/-- The window of a number other than zero. Below a power of two the numbers lie twice as dense,
so there the lower end is nearer. -/
def ofBinary64 (x : Binary64) : Window :=
  let near := x.significand == 1 <<< 52 && x.exponent != -1074
  let scale := 1 <<< x.exponent.toNat
  { low := (4 * x.significand - if near then 1 else 2) * scale
    mid := 4 * x.significand * scale
    high := (4 * x.significand + 2) * scale
    unit := 4 <<< (-x.exponent).toNat
    closed := x.significand % 2 == 0 }

/-- The same window measured in steps of `10 ^ k`. -/
def onGrid (w : Window) (k : Int) : Window :=
  let up := Nat.pow 10 (-k).toNat
  { w with
    low := w.low * up, mid := w.mid * up, high := w.high * up, unit := w.unit * Nat.pow 10 k.toNat }

/-- Whether a whole number of units lies in the window. -/
def holds (w : Window) (d : Nat) : Bool :=
  let p := d * w.unit
  if w.closed then w.low ≤ p && p ≤ w.high else w.low < p && p < w.high

/-- The whole number in the window that is nearest to its number, if there is one. A tie goes to
the even one. -/
def nearest? (w : Window) : Option Nat :=
  let d := w.mid / w.unit
  let r := w.mid % w.unit
  match w.holds d, w.holds (d + 1) with
  | true, true => some (if 2 * r < w.unit then d else if w.unit < 2 * r then d + 1 else d + d % 2)
  | true, false => some d
  | false, true => some (d + 1)
  | false, false => none

/-- The exponent of the greatest power of ten that is no greater than the number. -/
def magnitude (w : Window) : Int :=
  if w.unit ≤ w.mid then
    ((Numeral.ofNat (w.mid / w.unit)).length : Int) - 1
  else
    -((Numeral.ofNat ((w.unit - 1) / w.mid)).length : Int)

/-- The fewest digits that denote a point of the window; of those, the nearest. Seventeen always
suffice. -/
def shortest (w : Window) : Decimal :=
  let found := (List.range 17).findSome? fun (n : Nat) =>
    let k := w.magnitude - n
    (w.onGrid k).nearest?.map fun d => (d, k)
  let (d, k) := found.getD (0, 0)
  let ds := Numeral.ofNat d
  ⟨(ds.reverse.dropWhile (· == '0')).reverse, k + ds.length - 1⟩

end Window

namespace Decimal

/-- A run of zeros. -/
def zeros (n : Nat) : List Char := List.replicate n '0'

/-- The written form of a positive decimal. Whole numbers keep `.0`; the exponent has its sign and
no padding. -/
def text (x : Decimal) : List Char :=
  if -5 ≤ x.exponent ∧ x.exponent < 0 then
    '0' :: '.' :: (zeros (-x.exponent - 1).toNat ++ x.digits)
  else if 0 ≤ x.exponent ∧ x.exponent ≤ 15 then
    let whole := x.exponent.toNat + 1
    if x.digits.length ≤ whole then
      x.digits ++ zeros (whole - x.digits.length) ++ ['.', '0']
    else
      x.digits.take whole ++ '.' :: x.digits.drop whole
  else
    let fraction := match x.digits with
      | d :: e :: rest => d :: '.' :: e :: rest
      | ds => ds
    fraction ++ 'e' :: (if 0 ≤ x.exponent then ['+'] else []) ++ Numeral.ofInt x.exponent

end Decimal

/-- The written form of a number, with the sign of a negative zero. -/
def Binary64.text (x : Binary64) : List Char :=
  let magnitude := if x.isZero then ['0', '.', '0'] else (Window.ofBinary64 x).shortest.text
  if x.negative then '-' :: magnitude else magnitude

end PathDoc.Json
