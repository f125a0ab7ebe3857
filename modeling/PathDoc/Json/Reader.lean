import PathDoc.Json.Value
import PathDoc.Text.Numeral

/-!
# PathDoc.Json.Reader — documents from their text

`Value.ofText?` reads one document and nothing after it. Blanks are space, tab, line feed and
carriage return; containers nest up to `maxNesting` deep; a string holds no raw control character
and no lone surrogate. `Literal.number?` fixes the value of a number: digits are collected while
they fit 64 bits, and one multiplication or division by a power of ten follows.
-/

namespace PathDoc.Json

open PathDoc.Text

/-- Reads something at the front of a text and gives the rest. -/
abbrev Reader (α : Type) := List Char → Option (α × List Char)

namespace Reader

/-- The blanks between the parts of a document. -/
def isSpace (c : Char) : Bool := c == ' ' || c == '\t' || c == '\n' || c == '\r'

/-- The text without the spaces it starts with. -/
def skipSpaces (cs : List Char) : List Char := cs.dropWhile isSpace

/-! ### numbers -/

/-- The parts of a written number. A number without a fraction has no fraction digits. -/
structure Literal where
  negative : Bool
  whole : List Char
  fraction : List Char
  exponent : Option Int
deriving Repr

/-- The greatest significand that is collected digit by digit. -/
def maxSignificand : Nat := 1 <<< 64 - 1

/-- Appends digits to a significand up to the first one that would take it past the greatest; with
the number of digits that were appended. -/
def absorb : Nat → List Char → Nat × Nat
  | n, [] => (n, 0)
  | n, c :: cs =>
    let m := 10 * n + (c.toNat - '0'.toNat)
    if maxSignificand < m then (n, 0) else
      let (r, k) := absorb m cs
      (r, k + 1)

/-- The greatest power of ten that a number is scaled by at once. -/
def maxScale : Nat := 308

/-- The number nearest to a power of ten. -/
def power10? (n : Nat) : Option Binary64 := Binary64.ofNat? (Nat.pow 10 n)

/-- The number divided so many times by the greatest scale, until it is zero. -/
def shrink? : Nat → Binary64 → Option Binary64
  | 0, x => some x
  | k + 1, x => if x.isZero then some x else
    ((power10? maxScale).bind x.div?).bind (shrink? k)

/-- A number times a power of ten, with one rounding per step; `none` past the greatest number. -/
def scale? (x : Binary64) (e : Int) : Option Binary64 :=
  if 0 ≤ e then
    if e.toNat ≤ maxScale then (power10? e.toNat).bind x.mul? else if x.isZero then some x else none
  else
    let steps := (e.natAbs - 1) / maxScale
    (shrink? steps x).bind fun y => (power10? (e.natAbs - steps * maxScale)).bind y.div?

namespace Literal

/-- The number times a power of ten, with its sign. -/
def float? (negative : Bool) (significand : Nat) (e : Int) : Option Number := do
  let x ← scale? (← Binary64.ofNat? significand) e
  return .float (if negative then x.neg else x)

/-- What a written number denotes. A whole number is an integer if it fits 64 bits with its sign;
`-0` is not one. Digits of the whole part that are not collected count into the exponent; digits
of the fraction that are not collected do not count. -/
def number? (l : Literal) : Option Number :=
  let (n, taken) := absorb 0 l.whole
  let dropped := l.whole.length - taken
  if l.fraction.isEmpty && l.exponent.isNone && dropped == 0 then
    if !l.negative then
      some (.int n)
    else if 1 ≤ n ∧ n ≤ 1 <<< 63 then
      some (.int (-n))
    else
      float? true n 0
  else
    let (n, places) := absorb n l.fraction
    float? l.negative n ((dropped : Int) - places + l.exponent.getD 0)

end Literal

/-- The digits at the front, at least one. -/
def digits? : Reader (List Char) := fun cs =>
  match cs.takeWhile Char.isDigit with
  | [] => none
  | ds => some (ds, cs.dropWhile Char.isDigit)

/-- The digits before the point; a zero stands alone. -/
def whole? : Reader (List Char) := fun cs =>
  match digits? cs with
  | some ('0' :: _ :: _, _) => none
  | r => r

/-- A point and the digits after it, or nothing. -/
def fraction? : Reader (List Char)
  | '.' :: cs => digits? cs
  | cs => some ([], cs)

/-- An exponent with an optional sign, or nothing. -/
def exponent? (cs : List Char) : Option (Option Int × List Char) :=
  let magnitude (sign : Int) (cs : List Char) : Option (Option Int × List Char) :=
    (digits? cs).map fun (ds, rest) => (some (sign * Numeral.value ds), rest)
  let signed : List Char → Option (Option Int × List Char)
    | '+' :: cs => magnitude 1 cs
    | '-' :: cs => magnitude (-1) cs
    | cs => magnitude 1 cs
  match cs with
  | 'e' :: cs | 'E' :: cs => signed cs
  | cs => some (none, cs)

/-- A written number. -/
def literal? : Reader Literal := fun cs => do
  let (negative, cs) := match cs with
    | '-' :: cs => (true, cs)
    | cs => (false, cs)
  let (whole, cs) ← whole? cs
  let (fraction, cs) ← fraction? cs
  let (exponent, cs) ← exponent? cs
  return (⟨negative, whole, fraction, exponent⟩, cs)

/-! ### strings -/

/-- The value of a hexadecimal digit of either case. -/
def hexDigit? (c : Char) : Option Nat :=
  if '0' ≤ c ∧ c ≤ '9' then some (c.toNat - '0'.toNat)
  else if 'a' ≤ c ∧ c ≤ 'f' then some (c.toNat - 'a'.toNat + 10)
  else if 'A' ≤ c ∧ c ≤ 'F' then some (c.toNat - 'A'.toNat + 10)
  else none

/-- The number that four hexadecimal digits denote. -/
def hexUnit? (a b c d : Char) : Option Nat := do
  let high := 16 * (← hexDigit? a) + (← hexDigit? b)
  let low := 16 * (← hexDigit? c) + (← hexDigit? d)
  return 256 * high + low

/-- Whether a unit is the first half of a surrogate pair. -/
def isLeading (n : Nat) : Bool := 0xD800 ≤ n && n < 0xDC00

/-- Whether a unit is the second half of a surrogate pair. -/
def isTrailing (n : Nat) : Bool := 0xDC00 ≤ n && n < 0xE000

/-- The character of a surrogate pair. -/
def ofPair (n m : Nat) : Char := Char.ofNat (0x10000 + (n - 0xD800) * 0x400 + (m - 0xDC00))

/-- What a letter or a sign after a backslash stands for. -/
def escape? : Char → Option Char
  | '"' => some '"'
  | '\\' => some '\\'
  | '/' => some '/'
  | 'b' => some '\x08'
  | 'f' => some '\x0c'
  | 'n' => some '\n'
  | 'r' => some '\r'
  | 't' => some '\t'
  | _ => none

/-- The rest of a string after its opening quote, behind the characters read so far in reverse. -/
def chars? (read : List Char) : Reader (List Char)
  | [] => none
  | c :: cs =>
    if c = '"' then
      some (read.reverse, cs)
    else if c = '\\' then
      match cs with
      | 'u' :: a :: b :: c :: d :: rest =>
        match hexUnit? a b c d with
        | none => none
        | some n =>
          if isLeading n then
            match rest with
            | '\\' :: 'u' :: a :: b :: c :: d :: rest =>
              match hexUnit? a b c d with
              | none => none
              | some m => if isTrailing m then chars? (ofPair n m :: read) rest else none
            | _ => none
          else if isTrailing n then none
          else chars? (Char.ofNat n :: read) rest
      | d :: rest =>
        match escape? d with
        | none => none
        | some e => chars? (e :: read) rest
      | [] => none
    else if c < ' ' then
      none
    else
      chars? (c :: read) cs

/-- A string after its opening quote. -/
def string? : Reader String := fun cs =>
  (chars? [] cs).map fun (s, rest) => (String.ofList s, rest)

/-! ### documents -/

/-- A node without children. -/
def scalar? : Reader Value
  | 'n' :: 'u' :: 'l' :: 'l' :: cs => some (.null, cs)
  | 't' :: 'r' :: 'u' :: 'e' :: cs => some (.bool true, cs)
  | 'f' :: 'a' :: 'l' :: 's' :: 'e' :: cs => some (.bool false, cs)
  | '"' :: cs => (string? cs).map fun (s, rest) => (.str s, rest)
  | cs => (literal? cs).bind fun (l, rest) => l.number?.map fun n => (.num n, rest)

/-- The items of an array up to the closing bracket, behind those read so far in reverse. -/
def items? (item : Reader Value) : Nat → List Value → Reader (List Value)
  | 0, _, _ => none
  | fuel + 1, read, cs =>
    match item cs with
    | none => none
    | some (v, rest) =>
      match skipSpaces rest with
      | ',' :: rest => items? item fuel (v :: read) rest
      | ']' :: rest => some ((v :: read).reverse, rest)
      | _ => none

/-- One member of an object. -/
def member? (item : Reader Value) : Reader (String × Value) := fun cs =>
  match skipSpaces cs with
  | '"' :: cs =>
    match string? cs with
    | none => none
    | some (key, rest) =>
      match skipSpaces rest with
      | ':' :: rest => (item rest).map fun (v, rest) => ((key, v), rest)
      | _ => none
  | _ => none

/-- The members of an object up to the closing brace, behind those read so far in reverse. -/
def members? (item : Reader Value) : Nat → Members → Reader Members
  | 0, _, _ => none
  | fuel + 1, read, cs =>
    match member? item cs with
    | none => none
    | some (m, rest) =>
      match skipSpaces rest with
      | ',' :: rest => members? item fuel (m :: read) rest
      | '\x7d' :: rest => some (Members.ofList (m :: read).reverse, rest)
      | _ => none

/-- A node with at most so many nested containers, in a text of at most `fuel` characters. -/
def value? (fuel : Nat) : Nat → Reader Value
  | 0 => fun cs => scalar? (skipSpaces cs)
  | depth + 1 => fun cs =>
    match skipSpaces cs with
    | '[' :: cs =>
      match skipSpaces cs with
      | ']' :: rest => some (.arr [], rest)
      | cs => (items? (value? fuel depth) fuel [] cs).map fun (xs, rest) => (.arr xs, rest)
    | '\x7b' :: cs =>
      match skipSpaces cs with
      | '\x7d' :: rest => some (.obj [], rest)
      | cs => (members? (value? fuel depth) fuel [] cs).map fun (ms, rest) => (.obj ms, rest)
    | cs => scalar? cs

end Reader

/-- How deep containers may nest in a text. -/
def maxNesting : Nat := 127

/-- The document that the whole text denotes. -/
def Value.ofText? (text : String) : Option Value :=
  let cs := text.toList
  match Reader.value? (cs.length + 1) maxNesting cs with
  | some (v, rest) => if (Reader.skipSpaces rest).isEmpty then some v else none
  | none => none

end PathDoc.Json
