import PathDoc.Text.Blank
import PathDoc.Text.Numeral

/-!
# PathDoc.Path.Grammar — which texts are paths

A recogniser over characters: each function takes one construct off the front of a text and gives
the rest, or says what is wrong with it. `scan` takes a whole path, `accept` also trims it and
refuses what no write or read can use: `..` anywhere, and the root alone.
-/

namespace PathDoc

open Text

/-- What is wrong with a text that is no path. -/
inductive Malformed where
  | empty
  | recursiveDescent
  | noSegment
  | unexpected (c : Char)
  | truncated
  | badInteger
  | openQuote
  | badEscape
  | badSelector
deriving DecidableEq, Repr

/-- The fault in words. -/
def Malformed.message : Malformed → String
  | empty => "Path is empty"
  | recursiveDescent => "Recursive descent '..' is not supported"
  | noSegment => "Path does not address any member"
  | unexpected c => "Unexpected character: " ++ c.toString
  | truncated => "Unexpected end of input"
  | badInteger => "Invalid number"
  | openQuote => "Unclosed string"
  | badEscape => "Invalid escape sequence"
  | badSelector => "Invalid selector"

/-- Whether an integer fits 64 bits with a sign. -/
def fitsWord (i : Int) : Bool := -0x8000000000000000 ≤ i && i < 0x8000000000000000

namespace Grammar

/-- Takes a construct off the front of a text. -/
abbrev Scan := List Char → Except Malformed (List Char)

/-- Whether a character ends a name. -/
def endsName (c : Char) : Bool := c == '.' || c == '[' || c == ']'

/-- The given character. -/
def expect (d : Char) : Scan
  | [] => .error .truncated
  | c :: cs => if c = d then .ok cs else .error (.unexpected c)

/-- A name, as long as it goes. -/
def name : Scan
  | [] => .error .truncated
  | c :: cs =>
    if endsName c then .error (.unexpected c) else .ok (cs.dropWhile fun d => !endsName d)

/-- Whether a character may follow a backslash. -/
def isEscapable (c : Char) : Bool :=
  c == 'n' || c == 't' || c == 'r' || c == '\\' || c == '\'' || c == '"'

/-- The rest of a string that the given quote opened. -/
def string (quote : Char) : Scan
  | [] => .error .openQuote
  | c :: cs =>
    if c = quote then .ok cs
    else if c = '\\' then
      match cs with
      | [] => .error .badEscape
      | d :: rest => if isEscapable d then string quote rest else .error .badEscape
    else string quote cs

/-- An integer of 64 bits. -/
def integer : Scan := fun cs =>
  match Numeral.takeInt? cs with
  | some (i, rest) => if fitsWord i then .ok rest else .error .badInteger
  | none => .error .badInteger

/-- Whether a character can start an integer. -/
def startsInteger (c : Char) : Bool := c == '-' || c.isDigit

/-- Blanks and an integer, or blanks alone. -/
def integerOrNone : Scan := fun cs =>
  match skipBlanks cs with
  | [] => .ok []
  | c :: rest => if startsInteger c then integer (c :: rest) else .ok (c :: rest)

theorem length_lt_of_integer {cs rest : List Char} (h : integer cs = .ok rest) :
    rest.length < cs.length := by
  unfold integer at h
  split at h
  · next i r hr =>
    split at h
    · obtain rfl := by simpa using h
      exact Numeral.length_lt_of_takeInt? hr
    · simp at h
  · simp at h

/-- Further integers of a list, each after a comma, in a text of at most `fuel` characters. -/
def integersWithin : Nat → Scan
  | _, [] => .ok []
  | 0, _ :: _ => .error .truncated
  | fuel + 1, c :: cs =>
    if c = ',' then
      match integer (skipBlanks cs) with
      | .ok rest => integersWithin fuel (skipBlanks rest)
      | .error e => .error e
    else .ok (c :: cs)

/-- Further integers of a list, each after a comma. -/
def integers : Scan := fun cs => integersWithin cs.length cs

/-- An index, a list of indexes or a span. -/
def positions : Scan
  | ':' :: cs => integerOrNone cs
  | cs =>
    match integer cs with
    | .ok rest =>
      match skipBlanks rest with
      | ':' :: rest => integerOrNone rest
      | rest => integers rest
    | .error e => .error e

/-- What stands in a bracket, after the blanks. -/
def selector : Scan
  | [] => .error .truncated
  | c :: cs =>
    if c = '\'' ∨ c = '"' then string c cs
    else if c = '*' then .ok cs
    else if c = ':' ∨ startsInteger c then positions (c :: cs)
    else .error .badSelector

/-- The rest of a segment that a bracket opened. -/
def bracket : Scan := fun cs =>
  match selector (skipBlanks cs) with
  | .ok rest => expect ']' (skipBlanks rest)
  | .error e => .error e

/-- The rest of a segment that a dot opened. -/
def dotted : Scan
  | '.' :: _ => .error .recursiveDescent
  | '*' :: cs => .ok cs
  | cs => name cs

/-! ### scanning shortens -/

theorem length_le_of_expect {d : Char} {cs rest : List Char} (h : expect d cs = .ok rest) :
    rest.length ≤ cs.length := by
  cases cs with
  | nil => simp [expect] at h
  | cons c cs =>
    rw [expect] at h
    split at h
    · obtain rfl := by simpa using h
      simp
    · simp at h

theorem length_le_of_name {cs rest : List Char} (h : name cs = .ok rest) :
    rest.length ≤ cs.length := by
  cases cs with
  | nil => simp [name] at h
  | cons c cs =>
    rw [name] at h
    split at h
    · simp at h
    · obtain rfl := by simpa using h
      have := (List.dropWhile_suffix (fun d => !endsName d) (l := cs)).length_le
      simp only [List.length_cons]; omega

theorem length_le_of_string {quote : Char} {cs rest : List Char} (h : string quote cs = .ok rest) :
    rest.length ≤ cs.length := by
  fun_induction string quote cs with
  | case1 => simp at h
  | case2 cs => obtain rfl := by simpa using h
                simp
  | case3 => simp at h
  | case4 _ _ _ _ ih => have := ih h; simp only [List.length_cons]; omega
  | case5 => simp at h
  | case6 _ _ _ _ ih => have := ih h; simp only [List.length_cons]; omega

theorem length_le_of_integerOrNone {cs rest : List Char} (h : integerOrNone cs = .ok rest) :
    rest.length ≤ cs.length := by
  have hb := length_skipBlanks_le cs
  unfold integerOrNone at h
  split at h
  · obtain rfl := by simpa using h
    simp
  · next c r hr =>
    rw [hr] at hb
    split at h
    · have := length_lt_of_integer h; omega
    · obtain rfl := by simpa using h
      exact hb

theorem length_le_of_integersWithin {fuel : Nat} {cs rest : List Char}
    (h : integersWithin fuel cs = .ok rest) : rest.length ≤ cs.length := by
  induction fuel generalizing cs with
  | zero =>
    cases cs with
    | nil => exact (by simpa [integersWithin] using h : [] = rest) ▸ Nat.le_refl _
    | cons c cs => simp [integersWithin] at h
  | succ fuel ih =>
    cases cs with
    | nil => exact (by simpa [integersWithin] using h : [] = rest) ▸ Nat.le_refl _
    | cons c cs =>
      rw [integersWithin] at h
      split at h
      · split at h
        · next r hr =>
          have := length_lt_of_integer hr
          have := length_skipBlanks_le cs
          have := length_skipBlanks_le r
          have := ih h
          rw [List.length_cons]
          omega
        · simp at h
      · obtain rfl := by simpa using h
        exact Nat.le_refl _

theorem length_le_of_integers {cs rest : List Char} (h : integers cs = .ok rest) :
    rest.length ≤ cs.length := length_le_of_integersWithin h

theorem length_le_of_positions {cs rest : List Char} (h : positions cs = .ok rest) :
    rest.length ≤ cs.length := by
  unfold positions at h
  split at h
  · have := length_le_of_integerOrNone h; simp only [List.length_cons]; omega
  · split at h
    · next r hr =>
      have := length_lt_of_integer hr
      have hb := length_skipBlanks_le r
      split at h
      · next r' hr' =>
        have := length_le_of_integerOrNone h
        rw [hr'] at hb
        simp only [List.length_cons] at hb; omega
      · have := length_le_of_integers h; omega
    · simp at h

theorem length_le_of_selector {cs rest : List Char} (h : selector cs = .ok rest) :
    rest.length ≤ cs.length := by
  cases cs with
  | nil => simp [selector] at h
  | cons c cs =>
    simp only [selector] at h
    split at h
    · have := length_le_of_string h; simp only [List.length_cons]; omega
    · split at h
      · obtain rfl := by simpa using h
        simp
      · split at h
        · exact length_le_of_positions h
        · simp at h

theorem length_le_of_bracket {cs rest : List Char} (h : bracket cs = .ok rest) :
    rest.length ≤ cs.length := by
  unfold bracket at h
  split at h
  · next r hr =>
    have := length_le_of_selector hr
    have := length_le_of_expect h
    have := length_skipBlanks_le cs
    have := length_skipBlanks_le r
    omega
  · simp at h

theorem length_le_of_dotted {cs rest : List Char} (h : dotted cs = .ok rest) :
    rest.length ≤ cs.length := by
  unfold dotted at h
  split at h
  · simp at h
  · obtain rfl := by simpa using h
    simp
  · exact length_le_of_name h

/-! ### whole paths -/

/-- Segments to the end of a text of at most `fuel` characters. -/
def segmentsWithin : Nat → List Char → Except Malformed Unit
  | _, [] => .ok ()
  | 0, _ :: _ => .error .truncated
  | fuel + 1, c :: cs =>
    if c = '.' then
      match dotted cs with
      | .ok rest => segmentsWithin fuel rest
      | .error e => .error e
    else if c = '[' then
      match bracket cs with
      | .ok rest => segmentsWithin fuel rest
      | .error e => .error e
    else .error (.unexpected c)

/-- Segments to the end of the text. -/
def segments (cs : List Char) : Except Malformed Unit := segmentsWithin cs.length cs

/-- A whole path: the root sign, a bare name or nothing, and then segments. -/
def scan : List Char → Except Malformed Unit
  | [] => .error .empty
  | c :: cs =>
    if c = '$' then segments cs
    else if c = '.' ∨ c = '[' then segments (c :: cs)
    else
      match name (c :: cs) with
      | .ok rest => segments rest
      | .error e => .error e

/-- Whether two dots follow each other. -/
def hasDoubleDot : List Char → Bool
  | '.' :: '.' :: _ => true
  | _ :: cs => hasDoubleDot cs
  | [] => false

/-- The text without blanks at its ends, if that is a path with a segment. -/
def accept (text : List Char) : Except Malformed (List Char) :=
  let cs := trim text
  if cs = [] then .error .empty
  else if hasDoubleDot cs then .error .recursiveDescent
  else
    match scan cs with
    | .error e => .error e
    | .ok () => if cs = ['$'] then .error .noSegment else .ok cs

/-! ### fuel does not show -/

theorem integersWithin_eq {n m : Nat} {cs : List Char} (hn : cs.length ≤ n) (hm : cs.length ≤ m) :
    integersWithin n cs = integersWithin m cs := by
  induction n generalizing m cs with
  | zero =>
    obtain rfl : cs = [] := List.length_eq_zero_iff.1 (Nat.le_zero.1 hn)
    cases m <;> rfl
  | succ n ih =>
    cases cs with
    | nil => cases m <;> rfl
    | cons c cs =>
      cases m with
      | zero => exact absurd hm (Nat.not_succ_le_zero _)
      | succ m =>
        rw [List.length_cons] at hn hm
        rw [integersWithin, integersWithin]
        split
        · cases hr : integer (skipBlanks cs) with
          | error e => rfl
          | ok rest =>
            have := length_lt_of_integer hr
            have := length_skipBlanks_le cs
            have := length_skipBlanks_le rest
            exact ih (by omega) (by omega)
        · rfl

@[simp] theorem integers_nil : integers [] = .ok [] := rfl

theorem integers_comma (cs : List Char) :
    integers (',' :: cs) =
      match integer (skipBlanks cs) with
      | .ok rest => integers (skipBlanks rest)
      | .error e => .error e := by
  rw [integers, List.length_cons, integersWithin, if_pos rfl]
  cases hr : integer (skipBlanks cs) with
  | error e => rfl
  | ok rest =>
    have := length_lt_of_integer hr
    have := length_skipBlanks_le cs
    have := length_skipBlanks_le rest
    exact integersWithin_eq (by omega) (Nat.le_refl _)

theorem integers_other {c : Char} (h : c ≠ ',') (cs : List Char) :
    integers (c :: cs) = .ok (c :: cs) := by
  rw [integers, List.length_cons, integersWithin, if_neg h]

theorem segmentsWithin_eq {n m : Nat} {cs : List Char} (hn : cs.length ≤ n) (hm : cs.length ≤ m) :
    segmentsWithin n cs = segmentsWithin m cs := by
  induction n generalizing m cs with
  | zero =>
    obtain rfl : cs = [] := List.length_eq_zero_iff.1 (Nat.le_zero.1 hn)
    cases m <;> rfl
  | succ n ih =>
    cases cs with
    | nil => cases m <;> rfl
    | cons c cs =>
      cases m with
      | zero => exact absurd hm (Nat.not_succ_le_zero _)
      | succ m =>
        simp only [List.length_cons] at hn hm
        rw [segmentsWithin, segmentsWithin]
        split
        · cases hr : dotted cs with
          | error e => rfl
          | ok rest =>
            have := length_le_of_dotted hr
            exact ih (by omega) (by omega)
        · split
          · cases hr : bracket cs with
            | error e => rfl
            | ok rest =>
              have := length_le_of_bracket hr
              exact ih (by omega) (by omega)
          · rfl

@[simp] theorem segments_nil : segments [] = .ok () := rfl

theorem segments_dot (cs : List Char) :
    segments ('.' :: cs) =
      match dotted cs with
      | .ok rest => segments rest
      | .error e => .error e := by
  rw [segments, List.length_cons, segmentsWithin, if_pos rfl]
  cases hr : dotted cs with
  | error e => rfl
  | ok rest => exact segmentsWithin_eq (length_le_of_dotted hr) (Nat.le_refl _)

theorem segments_open (cs : List Char) :
    segments ('[' :: cs) =
      match bracket cs with
      | .ok rest => segments rest
      | .error e => .error e := by
  rw [segments, List.length_cons, segmentsWithin, if_neg (by decide), if_pos rfl]
  cases hr : bracket cs with
  | error e => rfl
  | ok rest => exact segmentsWithin_eq (length_le_of_bracket hr) (Nat.le_refl _)

theorem segments_other {c : Char} (hd : c ≠ '.') (hb : c ≠ '[') (cs : List Char) :
    segments (c :: cs) = .error (.unexpected c) := by
  rw [segments, List.length_cons, segmentsWithin, if_neg hd, if_neg hb]

end Grammar

end PathDoc
