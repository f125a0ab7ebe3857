import PathDoc.Text.Ranges

/-!
# PathDoc.Text.Blank — white space, and text without it at the ends

`isBlank` is the Unicode property White_Space. `trim` cuts blanks from both ends of a text and
nothing else.
-/

namespace PathDoc.Text

/-- The Unicode property White_Space. -/
def whiteSpace : Ranges :=
  [(0x0009, 0x000d), (0x0020, 0x0020), (0x0085, 0x0085), (0x00a0, 0x00a0), (0x1680, 0x1680),
   (0x2000, 0x200a), (0x2028, 0x2029), (0x202f, 0x202f), (0x205f, 0x205f), (0x3000, 0x3000)]

/-- Whether a character is white space. -/
def isBlank (c : Char) : Bool := whiteSpace.mem c

/-- The text without the blanks it starts with. -/
def skipBlanks (cs : List Char) : List Char := cs.dropWhile isBlank

/-- The text without the blanks it ends with. -/
def dropBlanksAtEnd (cs : List Char) : List Char := (skipBlanks cs.reverse).reverse

/-- The text without the blanks at its two ends. -/
def trim (cs : List Char) : List Char := dropBlanksAtEnd (skipBlanks cs)

@[simp] theorem skipBlanks_nil : skipBlanks [] = [] := rfl

theorem skipBlanks_cons (c : Char) (cs : List Char) :
    skipBlanks (c :: cs) = if isBlank c then skipBlanks cs else c :: cs := by
  simp only [skipBlanks, List.dropWhile_cons]

theorem length_skipBlanks_le (cs : List Char) : (skipBlanks cs).length ≤ cs.length :=
  (List.dropWhile_suffix _).length_le

@[simp] theorem trim_nil : trim [] = [] := rfl

end PathDoc.Text
