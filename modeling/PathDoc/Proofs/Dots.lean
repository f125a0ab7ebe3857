import PathDoc.Proofs.Carving

/-!
# PathDoc.Proofs.Dots — where a path has two dots in a row

No path with two dots in a row is accepted.  Of what the grammar lets follow each other only the
characters of a quoted name can be such dots, and an escape never stands for one; so there are two in
a path exactly if there are two in one of its names (`hasDoubleDot_of_spellsPath`).
-/

namespace PathDoc

open Text

/-- Whether the segment is a member whose name has two dots in a row. -/
def Segment.hasDoubleDot : Segment → Bool
  | member name => Grammar.hasDoubleDot name.toList
  | _ => false

@[simp] theorem Segment.hasDoubleDot_ofInts (is : List Int) :
    (Segment.ofInts is).hasDoubleDot = false := by
  rcases is with _ | ⟨i, _ | ⟨j, is⟩⟩ <;> rfl

@[simp] theorem Segment.any_hasDoubleDot_ofBounds? (start stop : Option Int) :
    (Segment.ofBounds? start stop).any Segment.hasDoubleDot = false := by
  cases start <;> cases stop <;> rfl

namespace Grammar

variable {cs ds p : List Char} {c : Char} {s : Option Segment}
  {ps : List (List Char × Option Segment)}

/-! ### texts -/

theorem hasDoubleDot_cons (c : Char) (cs : List Char) :
    hasDoubleDot (c :: cs) = (c == '.' && cs.head? == some '.' || hasDoubleDot cs) := by
  rw [hasDoubleDot.eq_def]
  split
  · next heq =>
    obtain ⟨rfl, rfl⟩ := List.cons.inj heq
    rfl
  · next hno heq =>
    obtain ⟨rfl, rfl⟩ := List.cons.inj heq
    have hfirst : (c == '.' && cs.head? == some '.') = false := by
      rw [Bool.eq_false_iff]
      intro hdots
      rw [Bool.and_eq_true, beq_iff_eq, beq_iff_eq] at hdots
      obtain ⟨rfl, hhead⟩ := hdots
      obtain ⟨tail, rfl⟩ := List.head?_eq_some_iff.mp hhead
      exact hno tail rfl rfl
    rw [hfirst, Bool.false_or]
  · next heq => exact absurd heq (List.cons_ne_nil _ _)

theorem hasDoubleDot_cons_of_ne (hc : c ≠ '.') (cs : List Char) :
    hasDoubleDot (c :: cs) = hasDoubleDot cs := by
  rw [hasDoubleDot_cons, beq_false_of_ne hc, Bool.false_and, Bool.false_or]

theorem hasDoubleDot_of_not_mem (h : '.' ∉ cs) : hasDoubleDot cs = false := by
  induction cs with
  | nil => rfl
  | cons c cs ih =>
    rw [List.mem_cons, not_or] at h
    rw [hasDoubleDot_cons_of_ne (Ne.symm h.1), ih h.2]

/-- No two dots come together where one part does not end with a dot, or the other does not start with
one. -/
theorem hasDoubleDot_append (h : cs.getLast? ≠ some '.' ∨ ds.head? ≠ some '.') :
    hasDoubleDot (cs ++ ds) = (hasDoubleDot cs || hasDoubleDot ds) := by
  induction cs with
  | nil => rfl
  | cons c cs ih =>
    cases cs with
    | nil =>
      have hmeet : (c == '.' && ds.head? == some '.') = false := by
        rw [Bool.and_eq_false_iff, beq_eq_false_iff_ne, beq_eq_false_iff_ne]
        exact h.imp_left fun hlast hc => hlast (congrArg some hc)
      rw [List.singleton_append, hasDoubleDot_cons, hasDoubleDot_cons, hmeet]
      simp [hasDoubleDot]
    | cons d cs =>
      rw [List.getLast?_cons_cons] at h
      rw [List.cons_append, hasDoubleDot_cons, hasDoubleDot_cons, ih h, Bool.or_assoc]
      rfl

theorem hasDoubleDot_append_left (h : '.' ∉ cs) (ds : List Char) :
    hasDoubleDot (cs ++ ds) = hasDoubleDot ds := by
  have hlast : cs.getLast? ≠ some '.' := fun hlast => h (List.mem_of_getLast? hlast)
  rw [hasDoubleDot_append (.inl hlast), hasDoubleDot_of_not_mem h, Bool.false_or]

theorem hasDoubleDot_append_right (h : '.' ∉ ds) (cs : List Char) :
    hasDoubleDot (cs ++ ds) = hasDoubleDot cs := by
  have hhead : ds.head? ≠ some '.' := fun hhead => h (List.mem_of_mem_head? hhead)
  rw [hasDoubleDot_append (.inr hhead), hasDoubleDot_of_not_mem h, Bool.or_false]

/-- The test looks for two dots in a row. -/
theorem hasDoubleDot_iff : hasDoubleDot cs = true ↔ ['.', '.'] <:+: cs := by
  induction cs with
  | nil => simp [hasDoubleDot]
  | cons c cs ih =>
    rw [hasDoubleDot_cons, Bool.or_eq_true, ih, List.infix_cons_iff, Bool.and_eq_true, beq_iff_eq,
      beq_iff_eq, List.cons_prefix_cons, List.head?_eq_some_iff]
    refine or_congr_left (and_congr eq_comm ⟨?_, ?_⟩)
    · rintro ⟨tail, rfl⟩
      exact ⟨tail, rfl⟩
    · rintro ⟨tail, rfl⟩
      exact ⟨tail, rfl⟩

/-! ### names -/

theorem not_mem_of_isName (h : IsName cs) : '.' ∉ cs := by
  intro hmem
  exact absurd (h.2 '.' hmem) (by decide)

/-- An escape does not stand for a dot, nor does a dot follow the backslash. -/
theorem ne_dot_of_isEscapable (h : isEscapable c = true) : c ≠ '.' ∧ unescape c ≠ '.' := by
  simp only [isEscapable, Bool.or_eq_true, beq_iff_eq] at h
  rcases h with ((((rfl | rfl) | rfl) | rfl) | rfl) | rfl <;> decide

/-- A quoted name has its dots where the text between the quotes has them. -/
theorem hasDoubleDot_of_quoted {quote : Char} (hq : quote ≠ '.') {body name : List Char}
    (h : Quoted quote body name) : hasDoubleDot body = hasDoubleDot name ∧
      (body.head? = some '.' ↔ name.head? = some '.') := by
  induction h with
  | close =>
    refine ⟨hasDoubleDot_cons_of_ne hq [], ?_⟩
    simp [hq]
  | plain _ _ _ ih =>
    obtain ⟨hdots, hhead⟩ := ih
    refine ⟨?_, Iff.rfl⟩
    rw [hasDoubleDot_cons, hasDoubleDot_cons, hdots, Bool.eq_iff_iff]
    simp only [Bool.or_eq_true, Bool.and_eq_true, beq_iff_eq, hhead]
  | escape he _ ih =>
    obtain ⟨hc, hu⟩ := ne_dot_of_isEscapable he
    refine ⟨?_, ?_⟩
    · rw [hasDoubleDot_cons_of_ne (by decide), hasDoubleDot_cons_of_ne hc,
        hasDoubleDot_cons_of_ne hu, ih.1]
    · simp [hu]

/-! ### along the grammar -/

theorem hasDoubleDot_of_selects (h : Selects cs s) :
    hasDoubleDot cs = s.any Segment.hasDoubleDot := by
  cases h with
  | quoted hq h =>
    have hne : ∀ q, q = '\'' ∨ q = '"' → q ≠ '.' := by
      rintro q (rfl | rfl) <;> decide
    rw [hasDoubleDot_cons_of_ne (hne _ hq), (hasDoubleDot_of_quoted (hne _ hq) h).1, Option.any_some,
      Segment.hasDoubleDot, String.toList_ofList]
  | wildcard => rfl
  | positions h =>
    rw [hasDoubleDot_of_not_mem (not_mem_of_spellsInts (by decide) (by decide) h)]
    simp
  | span hs ht =>
    rw [hasDoubleDot_of_not_mem (not_mem_of_bounds (by decide) (by decide) hs ht)]
    simp

theorem hasDoubleDot_of_spells (h : Spells p s) : hasDoubleDot p = s.any Segment.hasDoubleDot := by
  cases h with
  | wildcard => rfl
  | @name cs h _ =>
    have hno := hasDoubleDot_of_not_mem (not_mem_of_isName h)
    have hhead : cs.head? ≠ some '.' := fun hc =>
      not_mem_of_isName h (List.mem_of_mem_head? hc)
    rw [hasDoubleDot_cons, hno, beq_false_of_ne hhead, Bool.and_false, Bool.or_false,
      Option.any_some, Segment.hasDoubleDot, String.toList_ofList, hno]
  | bracket ha h hb =>
    have hclose : '.' ∉ [']'] := by decide
    rw [hasDoubleDot_cons_of_ne (by decide), hasDoubleDot_append_right hclose,
      hasDoubleDot_append_right (not_mem_of_blanks (by decide) hb),
      hasDoubleDot_append_left (not_mem_of_blanks (by decide) ha), hasDoubleDot_of_selects h]

theorem getLast?_ne_of_spells (h : Spells p s) : p.getLast? ≠ some '.' := by
  cases h with
  | wildcard => decide
  | @name cs h _ =>
    intro hlast
    rw [List.getLast?_cons_of_ne_nil h.1] at hlast
    exact not_mem_of_isName h (List.mem_of_getLast? hlast)
  | bracket =>
    rw [← List.cons_append, List.getLast?_concat]
    decide

theorem hasDoubleDot_of_spellsAll (h : SpellsAll cs ps) :
    hasDoubleDot cs = ps.any fun q => q.2.any Segment.hasDoubleDot := by
  induction h with
  | nil => rfl
  | cons h _ ih =>
    rw [hasDoubleDot_append (.inl (getLast?_ne_of_spells h)), hasDoubleDot_of_spells h, ih,
      List.any_cons]

/-- **Two dots in a row** stand in a path exactly if they stand in one of its names. -/
theorem hasDoubleDot_of_spellsPath (h : SpellsPath cs ps) :
    hasDoubleDot cs = ps.any fun q => q.2.any Segment.hasDoubleDot := by
  cases h with
  | root h => rw [hasDoubleDot_cons_of_ne (by decide), hasDoubleDot_of_spellsAll h]
  | pieces _ h => exact hasDoubleDot_of_spellsAll h
  | @name n cs ps hn _ h =>
    have hdot := not_mem_of_isName hn
    have hfirst : Option.any Segment.hasDoubleDot
        (if n = ['*'] then none else some (.member (String.ofList n))) = false := by
      split
      · rfl
      · rw [Option.any_some, Segment.hasDoubleDot, String.toList_ofList,
          hasDoubleDot_of_not_mem hdot]
    rw [hasDoubleDot_append_left hdot, hasDoubleDot_of_spellsAll h, List.any_cons, hfirst,
      Bool.false_or]

end Grammar

end PathDoc
