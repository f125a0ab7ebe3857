import PathDoc.Path.Segment
import PathDoc.Text.Blank
import PathDoc.Text.Numeral
import PathDoc.Path.Grammar

/-!
# PathDoc.Path.Reader — paths from their text

A text is cut before every dot and opening bracket outside brackets (`split`), and each piece is
read on its own (`Segment.ofChars?`). Nothing here asks for a path that the grammar accepts: a
piece that denotes no segment is reported as it stands.
-/

namespace PathDoc

open Text

/-! ### cutting into pieces -/

/-- Where in a path a character stands. -/
inductive Place where
  | plain
  | bracket
  | quoted (quote : Char)
  | escaped (quote : Char)
deriving DecidableEq, Repr

/-- Where the next character stands. -/
def Place.next : Place → Char → Place
  | plain, c => if c = '[' then bracket else plain
  | bracket, c => if c = '\'' ∨ c = '"' then quoted c else if c = ']' then plain else bracket
  | quoted q, c => if c = '\\' then escaped q else if c = q then bracket else quoted q
  | escaped q, _ => quoted q

/-- Whether a character starts a piece. -/
def Place.cutsBefore : Place → Char → Bool
  | plain, c => c == '.' || c == '['
  | _, _ => false

/-- The rest of the current piece, and the pieces after it. -/
def pieces (place : Place) : List Char → List Char × List (List Char)
  | [] => ([], [])
  | c :: cs =>
    let (piece, more) := pieces (place.next c) cs
    if place.cutsBefore c then ([], (c :: piece) :: more) else (c :: piece, more)

/-- The pieces of a text, none of them empty. -/
def split (cs : List Char) : List (List Char) :=
  match pieces .plain cs with
  | ([], more) => more
  | (piece, more) => piece :: more

@[simp] theorem pieces_nil (place : Place) : pieces place [] = ([], []) := rfl

@[simp] theorem split_nil : split [] = [] := rfl

/-! ### reading a piece -/

/-- The name in a quoted string after its opening quote, where nothing follows the closing one. A
backslash stands before a character that is taken as it is, except `n`, `t` and `r`; a line feed
cannot follow it. -/
def unquote? (quote : Char) : List Char → Option (List Char)
  | [] => none
  | c :: cs =>
    if c = quote then
      if cs.isEmpty then some [] else none
    else if c = '\\' then
      match cs with
      | [] => none
      | d :: rest =>
        if d = '\n' then none
        else
          let e := if d = 'n' then '\n' else if d = 't' then '\t' else if d = 'r' then '\r' else d
          (unquote? quote rest).map (e :: ·)
    else (unquote? quote cs).map (c :: ·)

/-- An integer of 64 bits between blanks. -/
def index? (cs : List Char) : Option Int := (Numeral.int? (trim cs)).filter fitsWord

/-- An end of a span, absent where there are only blanks. -/
def bound? (cs : List Char) : Option (Option Int) :=
  if trim cs = [] then some none else (index? cs).map some

/-- Two ends around a colon, not both absent. A span without a start begins at the front. -/
def span? (cs : List Char) : Option Segment :=
  match cs.splitOn ':' with
  | [start, stop] =>
    match bound? start, bound? stop with
    | some (some i), some stop => some (.span i stop)
    | some none, some (some j) => some (.span 0 (some j))
    | _, _ => none
  | _ => none

/-- Indexes between commas. -/
def indexes? (cs : List Char) : Option Segment :=
  match (cs.splitOn ',').mapM index? with
  | some [i] => some (.index i)
  | some is => some (.indexes is)
  | none => none

/-- What stands between two brackets. -/
def ofSelector? (cs : List Char) : Option Segment :=
  match trim cs with
  | '\'' :: cs => (unquote? '\'' cs).map fun name => .member (String.ofList name)
  | '"' :: cs => (unquote? '"' cs).map fun name => .member (String.ofList name)
  | cs => span? cs <|> indexes? cs

/-- A name that is not quoted. -/
def ofName? (cs : List Char) : Option Segment :=
  if cs = [] ∨ cs = ['*'] ∨ cs.any Grammar.endsName then none
  else some (.member (String.ofList cs))

/-- The segment that a piece denotes. -/
def Segment.ofChars? : List Char → Option Segment
  | '[' :: cs =>
    match cs.getLast? with
    | some ']' => ofSelector? cs.dropLast
    | _ => none
  | '.' :: cs => ofName? cs
  | cs => ofName? cs

/-! ### reading a path -/

/-- Why a text gives no path. -/
inductive Unreadable where
  /-- No piece is a segment. -/
  | noSegment
  /-- The first piece that denotes no segment. -/
  | unsupported (piece : List Char)
deriving DecidableEq, Repr

/-- The segments that pieces denote. -/
def segments? : List (List Char) → Except Unreadable Path
  | [] => .ok []
  | piece :: more =>
    match Segment.ofChars? piece with
    | none => .error (.unsupported piece)
    | some s => (segments? more).map (s :: ·)

/-- The path that a text denotes; the root sign alone is no segment. -/
def Path.ofChars (cs : List Char) : Except Unreadable Path :=
  match segments? ((split cs).filter (· ≠ ['$'])) with
  | .ok [] => .error .noSegment
  | r => r

@[simp] theorem segments?_nil : segments? [] = .ok [] := rfl

theorem segments?_cons {piece : List Char} {more : List (List Char)} :
    segments? (piece :: more) =
      match Segment.ofChars? piece with
      | none => .error (.unsupported piece)
      | some s => (segments? more).map (s :: ·) := rfl

end PathDoc
