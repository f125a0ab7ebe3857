import PathDoc.Proofs.Denoting

/-!
# PathDoc.Proofs.Recognising — what follows the grammar is accepted

The recogniser is complete (`Grammar.scan_of_spellsPath`).  A function of it may leave the blanks at
the end of a construct to its caller, or take them; so what is said of the text that follows, and of
what is left, is said up to the blanks in front (`Followed`).  The character after these blanks ends
an integer, as the recogniser takes as many digits as it finds.
-/

namespace PathDoc

open Text

namespace Grammar

variable {cs ds n t u r : List Char} {d : Char} {i : Int} {is : List Int} {o : Option Int}

/-- A text that goes on, after blanks, with a character that no integer has. -/
def Followed (t : List Char) (d : Char) (r : List Char) : Prop :=
  skipBlanks t = d :: r ∧ IsDelimiter d

theorem followed_cons (hd : IsDelimiter d) (r : List Char) : Followed (d :: r) d r :=
  ⟨skipBlanks_cons_of_not hd.1 r, hd⟩

theorem Followed.append (h : Followed t d r) (ha : Blanks n) : Followed (n ++ t) d r :=
  ⟨by rw [skipBlanks_append ha, h.1], h.2⟩

theorem Followed.head_not_digit (h : Followed t d r) : ∀ c ∈ t.head?, c.isDigit = false := by
  intro c hc
  obtain ⟨cs, rfl⟩ := List.head?_eq_some_iff.mp hc
  by_contra hdigit
  rw [Bool.not_eq_false] at hdigit
  have hskip := h.1
  rw [skipBlanks_cons_of_not (isBlank_of_isDigit hdigit)] at hskip
  obtain ⟨rfl, -⟩ := List.cons.inj hskip
  exact Bool.false_ne_true (h.2.2.1.symm.trans hdigit)

theorem not_startsInteger_of_isDelimiter (hd : IsDelimiter d) : startsInteger d = false := by
  simp [startsInteger, hd.2.1, hd.2.2]

/-! ### integers -/

theorem startsInteger_of_spellsInt (h : SpellsInt n i) :
    ∃ c cs, n = c :: cs ∧ startsInteger c = true ∧ isBlank c = false := by
  obtain ⟨⟨c, cs, rfl⟩, hblank⟩ := exists_cons_of_spellsInt h
  refine ⟨c, cs, rfl, ?_, hblank c List.mem_cons_self⟩
  rcases h with ⟨-, hds, -⟩ | ⟨-, -, -⟩
  · rw [startsInteger, hds c List.mem_cons_self, Bool.or_true]
  · rfl

theorem integer_append (h : SpellsInt n i) (ht : ∀ c ∈ t.head?, c.isDigit = false) :
    integer (n ++ t) = .ok t := by
  rcases h with ⟨hne, hds, hw⟩ | ⟨hne, hds, hw⟩
  · have htake : Numeral.takeInt? (n ++ t) = some ((Numeral.value n : Int), t) := by
      unfold Numeral.takeInt?
      split
      · next heq =>
        obtain ⟨c, cs, rfl⟩ := List.exists_cons_of_ne_nil hne
        obtain ⟨rfl, -⟩ := List.cons.inj heq
        exact absurd (hds '-' List.mem_cons_self) (by decide)
      · rw [Numeral.takeNat?_append hne hds ht]
        rfl
    rw [integer, htake]
    exact if_pos hw
  · have htake : ∀ ds : List Char, ds ≠ [] → (∀ c ∈ ds, c.isDigit = true) →
        Numeral.takeInt? ('-' :: (ds ++ t)) = some (-(Numeral.value ds : Int), t) := by
      intro ds hne hds
      rw [Numeral.takeInt?, Numeral.takeNat?_append hne hds ht]
      rfl
    rw [List.cons_append, integer, htake _ hne hds]
    exact if_pos hw

theorem startsInteger_of_integer {c : Char} (h : integer (c :: cs) = .ok u) :
    startsInteger c = true := by
  obtain ⟨n, i, hn, he⟩ := exists_spellsInt_of_integer h
  obtain ⟨e, es, rfl, hstart, -⟩ := startsInteger_of_spellsInt hn
  rw [(List.cons.inj he).1]
  exact hstart

/-- The first integer of a text with blanks around it, and what is left. -/
theorem exists_skipBlanks_of_padded (h : Padded n i) (t : List Char) : ∃ m b, SpellsInt m i ∧
    Blanks b ∧ skipBlanks (n ++ t) = m ++ (b ++ t) := by
  obtain ⟨ha, hm, hb⟩ := h
  obtain ⟨c, cs, rfl, -, hc⟩ := startsInteger_of_spellsInt hm
  refine ⟨_, _, hm, hb, ?_⟩
  rw [List.append_assoc, List.append_assoc, skipBlanks_append ha, List.cons_append,
    skipBlanks_cons_of_not hc]

theorem exists_integerOrNone_of_bound (h : Bound n o) (ht : Followed t d r) :
    ∃ u, integerOrNone (n ++ t) = .ok u ∧ Followed u d r := by
  cases h with
  | absent h =>
    refine ⟨d :: r, ?_, followed_cons ht.2 r⟩
    simp only [integerOrNone, (ht.append h).1, not_startsInteger_of_isDelimiter ht.2,
      Bool.false_eq_true, if_false]
  | given h =>
    obtain ⟨m, b, hm, hb, hskip⟩ := exists_skipBlanks_of_padded h t
    have hint := integer_append hm (ht.append hb).head_not_digit
    obtain ⟨c, cs, rfl, hstart, -⟩ := startsInteger_of_spellsInt hm
    refine ⟨b ++ t, ?_, ht.append hb⟩
    rw [List.cons_append] at hskip hint
    simp only [integerOrNone, hskip, hstart, if_true, hint]

/-! ### lists and spans -/

/-- The recogniser takes the first integer of a list and then the others. -/
theorem exists_integer_of_spellsInts (h : SpellsInts n is) (ht : Followed t d r) (hd : d ≠ ',') :
    ∃ u, integer (skipBlanks (n ++ t)) = .ok u ∧ integers (skipBlanks u) = .ok (d :: r) := by
  induction h with
  | one h =>
    obtain ⟨m, b, hm, hb, hskip⟩ := exists_skipBlanks_of_padded h t
    refine ⟨b ++ t, ?_, ?_⟩
    · rw [hskip, integer_append hm (ht.append hb).head_not_digit]
    · rw [(ht.append hb).1, integers_other hd]
  | @more cs ds i is h _ ih =>
    obtain ⟨u, hu, hrest⟩ := ih
    obtain ⟨m, b, hm, hb, hskip⟩ := exists_skipBlanks_of_padded h (',' :: (ds ++ t))
    have hcomma : Followed (b ++ ',' :: (ds ++ t)) ',' (ds ++ t) :=
      (followed_cons (by decide) _).append hb
    refine ⟨b ++ ',' :: (ds ++ t), ?_, ?_⟩
    · rw [List.append_assoc, List.cons_append, hskip, integer_append hm hcomma.head_not_digit]
    · rw [hcomma.1, integers_comma, hu]
      exact hrest

theorem positions_of_colon (h : integer cs = .ok u) (hu : skipBlanks u = ':' :: r) :
    positions cs = integerOrNone r := by
  unfold positions
  split
  · exact absurd (startsInteger_of_integer h) (by decide)
  · simp only [h, hu]

theorem positions_of_no_colon (h : integer cs = .ok u) (hu : ∀ r, skipBlanks u ≠ ':' :: r) :
    positions cs = integers (skipBlanks u) := by
  unfold positions
  split
  · exact absurd (startsInteger_of_integer h) (by decide)
  · simp only [h]

theorem positions_of_spellsInts (h : SpellsInts n is) (ht : Followed t d r) (hcomma : d ≠ ',')
    (hcolon : d ≠ ':') : positions (skipBlanks (n ++ t)) = .ok (d :: r) := by
  obtain ⟨u, hu, hrest⟩ := exists_integer_of_spellsInts h ht hcomma
  rw [positions_of_no_colon hu, hrest]
  -- a colon would be left over by the recogniser of a list
  intro rest heq
  rw [heq, integers_other (by decide)] at hrest
  exact hcolon (List.cons.inj (Except.ok.inj hrest)).1.symm

theorem exists_positions_of_bounds {start stop : Option Int} (hs : Bound cs start)
    (hstop : Bound ds stop) (ht : Followed t d r) :
    ∃ u, positions (skipBlanks (cs ++ ':' :: ds ++ t)) = .ok u ∧ Followed u d r := by
  obtain ⟨u, hu, hleft⟩ := exists_integerOrNone_of_bound hstop ht
  refine ⟨u, ?_, hleft⟩
  have hcolon : Followed (':' :: (ds ++ t)) ':' (ds ++ t) := followed_cons (by decide) _
  rw [List.append_assoc, List.cons_append]
  cases hs with
  | absent h =>
    rw [(hcolon.append h).1]
    exact hu
  | given h =>
    obtain ⟨m, b, hm, hb, hskip⟩ := exists_skipBlanks_of_padded h (':' :: (ds ++ t))
    have hfirst := integer_append hm (hcolon.append hb).head_not_digit
    rw [hskip, positions_of_colon hfirst (hcolon.append hb).1, hu]

/-! ### what stands in a bracket -/

theorem string_append {quote : Char} (hq : quote ≠ '\\') {body name : List Char}
    (h : Quoted quote body name) (t : List Char) : string quote (body ++ t) = .ok t := by
  induction h with
  | close =>
    rw [List.singleton_append, string.eq_def]
    exact if_pos rfl
  | plain hc hb _ ih =>
    rw [List.cons_append, string.eq_def]
    simp only [if_neg hc, if_neg hb, ih]
  | escape he _ ih =>
    rw [List.cons_append, List.cons_append, string.eq_def]
    simp only [if_neg hq.symm, if_true, he, ih]

theorem selector_of_positions (h : positions cs = .ok u) : selector cs = .ok u := by
  cases cs with
  | nil => simp [positions, integer, Numeral.takeInt?, Numeral.takeNat?] at h
  | cons c cs =>
    have hstart : c = ':' ∨ startsInteger c = true := by
      by_cases hc : c = ':'
      · exact .inl hc
      · right
        unfold positions at h
        split at h
        · next heq => exact absurd (List.cons.inj heq).1 hc
        · cases hint : integer (c :: cs) with
          | ok v => exact startsInteger_of_integer hint
          | error e => rw [hint] at h; simp at h
    have hother : ∀ e, startsInteger e = false ∧ e ≠ ':' → c ≠ e := by
      rintro e ⟨he, hcolon⟩ rfl
      rcases hstart with hc | hc
      · exact hcolon hc
      · exact Bool.false_ne_true (he.symm.trans hc)
    have hquote : ¬(c = '\'' ∨ c = '"') :=
      not_or.mpr ⟨hother '\'' (by decide), hother '"' (by decide)⟩
    rw [selector, if_neg hquote, if_neg (hother '*' (by decide)), if_pos hstart, h]

theorem exists_selector_of_selects {s : Option Segment} (h : Selects n s) (ht : Followed t d r)
    (hcomma : d ≠ ',') (hcolon : d ≠ ':') :
    ∃ u, selector (skipBlanks (n ++ t)) = .ok u ∧ Followed u d r := by
  cases h with
  | @quoted quote body name hq h =>
    have hne : quote ≠ '\\' ∧ isBlank quote = false := by
      rcases hq with rfl | rfl <;> decide
    refine ⟨t, ?_, ht⟩
    rw [List.cons_append, skipBlanks_cons_of_not hne.2, selector, if_pos hq]
    exact string_append hne.1 h t
  | wildcard => exact ⟨t, rfl, ht⟩
  | positions h =>
    have hpos := positions_of_spellsInts h ht hcomma hcolon
    exact ⟨d :: r, selector_of_positions hpos, followed_cons ht.2 r⟩
  | span hs hstop =>
    obtain ⟨u, hu, hleft⟩ := exists_positions_of_bounds hs hstop ht
    exact ⟨u, selector_of_positions hu, hleft⟩

/-! ### pieces and paths -/

theorem bracket_append {a cs b : List Char} {s : Option Segment} (ha : Blanks a)
    (h : Selects cs s) (hb : Blanks b) (t : List Char) :
    bracket (a ++ cs ++ b ++ [']'] ++ t) = .ok t := by
  have hclose : Followed (b ++ ']' :: t) ']' t := (followed_cons (by decide) t).append hb
  obtain ⟨u, hu, hleft⟩ := exists_selector_of_selects h hclose (by decide) (by decide)
  have he : a ++ cs ++ b ++ [']'] ++ t = a ++ (cs ++ (b ++ ']' :: t)) := by simp
  rw [bracket, he, skipBlanks_append ha, hu]
  simp only [hleft.1, expect, if_true]

theorem name_append (hn : IsName n) (ht : ∀ c ∈ t.head?, endsName c = true) :
    name (n ++ t) = .ok t := by
  obtain ⟨c, cs, rfl⟩ := List.exists_cons_of_ne_nil hn.1
  have hcs : ∀ e ∈ cs, (!endsName e) = true := by
    intro e he
    rw [hn.2 e (List.mem_cons_of_mem _ he)]
    rfl
  have hdrop : t.dropWhile (fun e => !endsName e) = t := by
    cases t with
    | nil => rfl
    | cons e t => rw [List.dropWhile_cons_of_neg (by simp [ht e rfl])]
  rw [List.cons_append, name, hn.2 c List.mem_cons_self, if_neg Bool.false_ne_true,
    List.dropWhile_append_of_pos hcs, hdrop]

/-- After a piece comes the end, or what ends a name. -/
theorem endsName_of_spellsAll {ps : List (List Char × Option Segment)} (h : SpellsAll cs ps) :
    ∀ c ∈ cs.head?, endsName c = true := by
  cases h with
  | nil => simp
  | cons h _ =>
    cases h <;> simp [endsName]

/-- **Recognising at one piece** of the grammar. -/
theorem segments_append {s : Option Segment} (h : Spells n s)
    (ht : ∀ c ∈ t.head?, endsName c = true) : segments (n ++ t) = segments t := by
  cases h with
  | wildcard => exact segments_dot ('*' :: t)
  | @name cs hn hstar =>
    have hdotted : dotted (cs ++ t) = .ok t := by
      obtain ⟨c, cs, rfl⟩ := List.exists_cons_of_ne_nil hn.1
      have hdot : c ≠ '.' := by
        rintro rfl
        exact absurd (hn.2 '.' List.mem_cons_self) (by decide)
      have hname := name_append hn ht
      rw [List.cons_append] at hname ⊢
      unfold dotted
      split
      · next heq => exact absurd (List.cons.inj heq).1 hdot
      · next heq => exact absurd (congrArg some (List.cons.inj heq).1) hstar
      · exact hname
    rw [List.cons_append, segments_dot, hdotted]
  | bracket ha h hb =>
    rw [List.cons_append, segments_open, bracket_append ha h hb]

theorem segments_of_spellsAll {ps : List (List Char × Option Segment)} (h : SpellsAll cs ps) :
    segments cs = .ok () := by
  induction h with
  | nil => rfl
  | cons h hs ih => rw [segments_append h (endsName_of_spellsAll hs), ih]

/-- **The recogniser is complete**: it accepts what follows the rules. -/
theorem scan_of_spellsPath {ps : List (List Char × Option Segment)} (h : SpellsPath cs ps) :
    scan cs = .ok () := by
  cases h with
  | root h =>
    rw [scan, if_pos rfl]
    exact segments_of_spellsAll h
  | pieces hne h =>
    have hall := segments_of_spellsAll h
    cases h with
    | nil => exact absurd rfl hne
    | cons h hs =>
      cases h <;> exact hall
  | @name n cs ps hn hd h =>
    have hname := name_append hn (endsName_of_spellsAll h)
    obtain ⟨c, n, rfl⟩ := List.exists_cons_of_ne_nil hn.1
    have hroot : c ≠ '$' := fun hc => hd (congrArg some hc)
    have hother : ¬(c = '.' ∨ c = '[') := by
      rintro (rfl | rfl)
      · exact absurd (hn.2 '.' List.mem_cons_self) (by decide)
      · exact absurd (hn.2 '[' List.mem_cons_self) (by decide)
    rw [List.cons_append] at hname ⊢
    rw [scan, if_neg hroot, if_neg hother, hname]
    exact segments_of_spellsAll h

end Grammar

end PathDoc
