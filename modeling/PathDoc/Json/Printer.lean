import PathDoc.Json.Decimal
import PathDoc.Json.Value

/-!
# PathDoc.Json.Printer — documents as text

One printer with two layouts: `Value.text` writes no space at all, `Value.prettyText` one item a
line, two spaces per level. Empty containers stay on one line in both.
-/

namespace PathDoc.Json

open PathDoc.Text

namespace Printer

/-- What stands between the parts of a container. -/
structure Layout where
  /-- The break before an item, or before the end of a container, at a depth. -/
  lineBreak : Nat → String
  /-- What follows a key. -/
  afterKey : String

/-- No space at all. -/
def compact : Layout := ⟨fun _ => "", ":"⟩

/-- An item a line, two spaces per level. -/
def indented : Layout := ⟨fun depth => "\n".pushn ' ' (2 * depth), ": "⟩

/-- A hexadecimal digit in lower case. -/
def hexDigit (n : Nat) : Char := (Nat.digitChar n)

/-- A character inside a quoted string: quote, backslash and control characters are escaped. -/
def quotedChar (c : Char) : List Char :=
  if c = '"' then ['\\', '"']
  else if c = '\\' then ['\\', '\\']
  else if c = '\x08' then ['\\', 'b']
  else if c = '\x0c' then ['\\', 'f']
  else if c = '\n' then ['\\', 'n']
  else if c = '\r' then ['\\', 'r']
  else if c = '\t' then ['\\', 't']
  else if c < ' ' then
    ['\\', 'u', '0', '0', hexDigit (c.toNat / 16), hexDigit (c.toNat % 16)]
  else [c]

/-- Appends characters to a text. -/
def pushAll (cs : List Char) (out : String) : String := cs.foldl String.push out

/-- Appends a quoted string to a text. -/
def pushQuoted (s : String) (out : String) : String :=
  (s.toList.foldl (fun out c => pushAll (quotedChar c) out) (out.push '"')).push '"'

/-- Appends a number to a text. -/
def pushNumber : Number → String → String
  | .int i, out => pushAll (Numeral.ofInt i) out
  | .float x, out => pushAll x.text out

mutual

/-- Appends a node at a depth to a text. -/
def push (layout : Layout) (depth : Nat) : Value → String → String
  | .null, out => out ++ "null"
  | .bool b, out => out ++ if b then "true" else "false"
  | .num n, out => pushNumber n out
  | .str s, out => pushQuoted s out
  | .arr [], out => out ++ "[]"
  | .arr (x :: xs), out =>
    let out := push layout (depth + 1) x (out.push '[' ++ layout.lineBreak (depth + 1))
    (pushItems layout (depth + 1) xs out ++ layout.lineBreak depth).push ']'
  | .obj [], out => (out.push '\x7b').push '\x7d'
  | .obj ((k, v) :: ms), out =>
    let out := pushQuoted k (out.push '\x7b' ++ layout.lineBreak (depth + 1)) ++ layout.afterKey
    let out := push layout (depth + 1) v out
    (pushMembers layout (depth + 1) ms out ++ layout.lineBreak depth).push '\x7d'

/-- Appends the items after the first. -/
def pushItems (layout : Layout) (depth : Nat) : List Value → String → String
  | [], out => out
  | x :: xs, out =>
    pushItems layout depth xs (push layout depth x (out.push ',' ++ layout.lineBreak depth))

/-- Appends the members after the first. -/
def pushMembers (layout : Layout) (depth : Nat) : Members → String → String
  | [], out => out
  | (k, v) :: ms, out =>
    let out := pushQuoted k (out.push ',' ++ layout.lineBreak depth) ++ layout.afterKey
    pushMembers layout depth ms (push layout depth v out)

end

end Printer

/-- The document on one line without spaces. -/
def Value.text (v : Value) : String := Printer.push Printer.compact 0 v ""

/-- The document one item a line. -/
def Value.prettyText (v : Value) : String := Printer.push Printer.indented 0 v ""

end PathDoc.Json
