import PathDoc.Path.Location
import PathDoc.Path.Segment
import PathDoc.Text.Letter
import PathDoc.Text.Numeral

/-!
# PathDoc.Path.Printer — paths and locations as text

A path starts with `$`. A name that is an identifier follows a dot; any other stands in brackets
between single quotes, where a backslash and a single quote are escaped. Indexes stand in brackets.
-/

namespace PathDoc

open Text

/-- Whether a name can follow a dot: a letter or `_`, then letters, digits, `_` and `-`. -/
def isPlainName : List Char → Bool
  | [] => false
  | c :: cs =>
    (isAlphabetic c || c == '_') && cs.all fun d => isAlphanumeric d || d == '_' || d == '-'

/-- A character between single quotes. -/
def escapeChar (c : Char) : List Char := if c = '\\' ∨ c = '\'' then ['\\', c] else [c]

/-- The segment for a name. -/
def nameText (name : List Char) : List Char :=
  if isPlainName name then '.' :: name
  else ['[', '\''] ++ name.flatMap escapeChar ++ ['\'', ']']

/-- Indexes between commas. -/
def commaText : List Int → List Char
  | [] => []
  | [i] => Numeral.ofInt i
  | i :: is => Numeral.ofInt i ++ ',' :: commaText is

/-- A segment as text. -/
def Segment.text : Segment → List Char
  | .member name => nameText name.toList
  | .index i => '[' :: Numeral.ofInt i ++ [']']
  | .indexes is => '[' :: commaText is ++ [']']
  | .span start none => '[' :: Numeral.ofInt start ++ [':', ']']
  | .span start (some stop) => '[' :: Numeral.ofInt start ++ ':' :: Numeral.ofInt stop ++ [']']

/-- A step as text. -/
def Step.text : Step → List Char
  | .key name => nameText name.toList
  | .pos i => '[' :: Numeral.ofNat i ++ [']']

/-- A path as text. -/
def Path.text (path : Path) : String := String.ofList ('$' :: path.flatMap Segment.text)

/-- A location as text. -/
def Location.text (place : Location) : String := String.ofList ('$' :: place.flatMap Step.text)

@[simp] theorem commaText_nil : commaText [] = [] := rfl

@[simp] theorem commaText_singleton (i : Int) : commaText [i] = Numeral.ofInt i := rfl

@[simp] theorem toList_text_path (path : Path) :
    (Path.text path).toList = '$' :: path.flatMap Segment.text := by simp [Path.text]

@[simp] theorem toList_text_location (place : Location) :
    (Location.text place).toList = '$' :: place.flatMap Step.text := by simp [Location.text]

end PathDoc
