import Mathlib.Data.List.Basic
import Mathlib.Data.List.TakeWhile
import PathDoc.Text.Blank

/-!
# PathDoc.Proofs.Blanks — text between blanks

What `skipBlanks`, `dropBlanksAtEnd` and `trim` leave of a text that is put together from parts: they
stop at the first character that is no blank (`skipBlanks_append_cons`, `dropBlanksAtEnd_append_cons`)
and take away blanks that were put around a text (`trim_pad`).
-/

namespace PathDoc.Text

/-- Nothing but blanks. -/
def Blanks (cs : List Char) : Prop := ∀ c ∈ cs, isBlank c = true

variable {a b cs ds : List Char} {c : Char}

theorem blanks_nil : Blanks [] := fun _ hc => absurd hc List.not_mem_nil

theorem Blanks.append (ha : Blanks a) (hb : Blanks b) : Blanks (a ++ b) := fun c hc =>
  (List.mem_append.mp hc).elim (ha c) (hb c)

/-- Printing characters of ASCII are no blanks. -/
theorem isBlank_eq_false (h : 0x20 < c.toNat ∧ c.toNat < 0x7f) : isBlank c = false := by
  simp only [isBlank, whiteSpace, Ranges.mem_cons, Ranges.mem_nil, Bool.or_false, Bool.or_eq_false_iff,
    Bool.and_eq_false_iff, decide_eq_false_iff_not]
  omega

theorem isBlank_of_isDigit (h : c.isDigit = true) : isBlank c = false := by
  obtain ⟨h1, h2⟩ : 0x30 ≤ c.toNat ∧ c.toNat ≤ 0x39 := Char.isDigit_iff_toNat.mp h
  exact isBlank_eq_false (by omega)

/-! ### the front -/

theorem skipBlanks_append (ha : Blanks a) (cs : List Char) : skipBlanks (a ++ cs) = skipBlanks cs :=
  List.dropWhile_append_of_pos ha

theorem skipBlanks_of_blanks (ha : Blanks a) : skipBlanks a = [] :=
  List.dropWhile_eq_nil_iff.mpr ha

/-- What was skipped. -/
theorem exists_eq_append_skipBlanks (cs : List Char) : ∃ a, Blanks a ∧ cs = a ++ skipBlanks cs :=
  ⟨cs.takeWhile isBlank, fun _ hc => List.mem_takeWhile_imp hc,
    (List.takeWhile_append_dropWhile).symm⟩

theorem skipBlanks_cons_of_not (hc : isBlank c = false) (cs : List Char) :
    skipBlanks (c :: cs) = c :: cs := by
  rw [skipBlanks_cons, hc, if_neg Bool.false_ne_true]

theorem skipBlanks_append_cons (hc : isBlank c = false) (cs ds : List Char) :
    skipBlanks (cs ++ c :: ds) = skipBlanks cs ++ c :: ds := by
  induction cs with
  | nil => exact skipBlanks_cons_of_not hc ds
  | cons d cs ih =>
    rw [List.cons_append, skipBlanks_cons, skipBlanks_cons]
    by_cases hd : isBlank d = true
    · rw [if_pos hd, if_pos hd, ih]
    · rw [if_neg hd, if_neg hd]
      rfl

/-! ### the end -/

theorem Blanks.reverse (ha : Blanks a) : Blanks a.reverse := fun c hc => ha c (List.mem_reverse.mp hc)

theorem dropBlanksAtEnd_append (hb : Blanks b) (cs : List Char) :
    dropBlanksAtEnd (cs ++ b) = dropBlanksAtEnd cs := by
  rw [dropBlanksAtEnd, List.reverse_append, skipBlanks_append hb.reverse, dropBlanksAtEnd]

theorem dropBlanksAtEnd_of_blanks (hb : Blanks b) : dropBlanksAtEnd b = [] := by
  rw [dropBlanksAtEnd, skipBlanks_of_blanks hb.reverse, List.reverse_nil]

theorem dropBlanksAtEnd_append_cons (hc : isBlank c = false) (cs ds : List Char) :
    dropBlanksAtEnd (cs ++ c :: ds) = cs ++ c :: dropBlanksAtEnd ds := by
  rw [dropBlanksAtEnd, List.reverse_append, List.reverse_cons, List.append_assoc, List.singleton_append,
    skipBlanks_append_cons hc, List.reverse_append, List.reverse_cons, List.reverse_reverse,
    dropBlanksAtEnd, List.append_assoc, List.singleton_append]

/-! ### both ends -/

theorem trim_append_cons (hc : isBlank c = false) (cs ds : List Char) :
    trim (cs ++ c :: ds) = skipBlanks cs ++ c :: dropBlanksAtEnd ds := by
  rw [trim, skipBlanks_append_cons hc, dropBlanksAtEnd_append_cons hc]

theorem trim_of_blanks (ha : Blanks a) : trim a = [] := by
  rw [trim, skipBlanks_of_blanks ha]
  rfl

/-- A text is of blanks, or it has a first character that is none. -/
theorem blanks_or_exists (cs : List Char) :
    Blanks cs ∨ ∃ a c ds, Blanks a ∧ isBlank c = false ∧ cs = a ++ c :: ds := by
  obtain ⟨a, ha, he⟩ := exists_eq_append_skipBlanks cs
  cases hs : skipBlanks cs with
  | nil =>
    rw [hs, List.append_nil] at he
    exact .inl (he ▸ ha)
  | cons c ds =>
    have hc : isBlank c = false := by
      have hhead := List.head?_dropWhile_not isBlank cs
      rwa [show cs.dropWhile isBlank = c :: ds from hs] at hhead
    exact .inr ⟨a, c, ds, ha, hc, by rw [← hs, ← he]⟩

theorem trim_pad (ha : Blanks a) (hb : Blanks b) (cs : List Char) :
    trim (a ++ cs ++ b) = trim cs := by
  rcases blanks_or_exists cs with hcs | ⟨p, c, ds, hp, hc, rfl⟩
  · rw [trim_of_blanks hcs, trim_of_blanks ((ha.append hcs).append hb)]
  · have he : a ++ (p ++ c :: ds) ++ b = (a ++ p) ++ c :: (ds ++ b) := by simp
    rw [he, trim_append_cons hc, trim_append_cons hc, dropBlanksAtEnd_append hb,
      skipBlanks_of_blanks (ha.append hp), skipBlanks_of_blanks hp]

/-- A text without a blank at either end stays as it is. -/
theorem trim_eq_self (hcs : cs = c :: ds) (hc : isBlank c = false)
    (hlast : ∀ d ∈ cs.getLast?, isBlank d = false) : trim cs = cs := by
  obtain ⟨front, last, he⟩ := (List.eq_nil_or_concat' cs).resolve_left (by rw [hcs]; simp)
  have hl : isBlank last = false := hlast last (by rw [he]; simp)
  rw [trim, hcs, skipBlanks_cons_of_not hc, ← hcs, he, dropBlanksAtEnd_append_cons hl]
  rfl

end PathDoc.Text
