import PathDoc.Proofs.Carving
import PathDoc.Refusal

/-!
# PathDoc.Proofs.Denoting — the reader reads a piece as the grammar does

The readers of integers, lists, spans and quoted names give what the rule for the construct denotes
(`ofSelector?_of_selects`, `ofChars?_of_spells`).  With `filter_split` a text of the grammar is read
as the grammar reads it, and `Path.ofText_agrees_with_grammar` says what that is.
-/

namespace PathDoc

open Text

variable {cs ds a b p : List Char} {s : Option Segment} {i : Int}

/-! ### integers -/

theorem int?_of_spellsInt (h : SpellsInt cs i) : Numeral.int? cs = some i := by
  have hnat {ds : List Char} (hne : ds ≠ []) (hds : ∀ c ∈ ds, c.isDigit = true) :
      Numeral.takeNat? ds = some (Numeral.value ds, []) := by
    have happ := @Numeral.takeNat?_append ds [] hne hds (by simp)
    rwa [List.append_nil] at happ
  cases h with
  | nonneg hne hds _ =>
    have ht : Numeral.takeInt? cs = some ((Numeral.value cs : Int), []) := by
      unfold Numeral.takeInt?
      split
      · next ds =>
        exact absurd (hds '-' List.mem_cons_self) (by decide)
      · rw [hnat hne hds]
        rfl
    rw [Numeral.int?, ht]
  | @neg ds hne hds _ =>
    have ht : Numeral.takeInt? ('-' :: ds) = some (-(Numeral.value ds : Int), []) := by
      rw [Numeral.takeInt?, hnat hne hds]
      rfl
    rw [Numeral.int?, ht]

theorem fitsWord_of_spellsInt (h : SpellsInt cs i) : fitsWord i = true := by
  rcases h with ⟨-, -, hw⟩ | ⟨-, -, hw⟩
  · exact hw
  · exact hw

/-- An integer is of characters that are no blanks. -/
theorem exists_cons_of_spellsInt (h : SpellsInt cs i) :
    (∃ c ds, cs = c :: ds) ∧ ∀ c ∈ cs, isBlank c = false := by
  rcases h with ⟨hne, hds, -⟩ | ⟨-, hds, -⟩
  · exact ⟨List.exists_cons_of_ne_nil hne, fun c hc => isBlank_of_isDigit (hds c hc)⟩
  · refine ⟨⟨_, _, rfl⟩, fun c hc => ?_⟩
    rcases List.mem_cons.mp hc with rfl | hc
    · decide
    · exact isBlank_of_isDigit (hds c hc)

theorem trim_of_spellsInt (h : SpellsInt cs i) : trim cs = cs := by
  obtain ⟨⟨c, ds, rfl⟩, hcs⟩ := exists_cons_of_spellsInt h
  exact trim_eq_self rfl (hcs c List.mem_cons_self) fun d hd => hcs d (List.mem_of_getLast? hd)

theorem trim_of_padded (h : Padded cs i) : ∃ n, SpellsInt n i ∧ trim cs = n := by
  obtain ⟨ha, hn, hb⟩ := h
  exact ⟨_, hn, by rw [trim_pad ha hb, trim_of_spellsInt hn]⟩

theorem index?_of_padded (h : Padded cs i) : index? cs = some i := by
  obtain ⟨n, hn, ht⟩ := trim_of_padded h
  rw [index?, ht, int?_of_spellsInt hn, Option.filter_some, if_pos (fitsWord_of_spellsInt hn)]

theorem bound?_of_bound {o : Option Int} (h : Bound cs o) : bound? cs = some o := by
  cases h with
  | absent h => rw [bound?, if_pos (trim_of_blanks h)]
  | given h =>
    have hne : trim cs ≠ [] := by
      obtain ⟨n, hn, ht⟩ := trim_of_padded h
      obtain ⟨⟨c, ds, rfl⟩, -⟩ := exists_cons_of_spellsInt hn
      rw [ht]
      exact List.cons_ne_nil _ _
    rw [bound?, if_neg hne, index?_of_padded h]
    rfl

/-! ### without the outer blanks -/

theorem Padded.skipBlanks (h : Padded cs i) : Padded (skipBlanks cs) i := by
  cases h with
  | intro ha hn hb =>
    obtain ⟨⟨c, ds, rfl⟩, hcs⟩ := exists_cons_of_spellsInt hn
    have hc := hcs c List.mem_cons_self
    rw [List.append_assoc, skipBlanks_append ha, List.cons_append, skipBlanks_cons_of_not hc]
    exact .intro blanks_nil hn hb

theorem Padded.dropBlanksAtEnd (h : Padded cs i) : Padded (dropBlanksAtEnd cs) i := by
  cases h with
  | @intro a n b i ha hn hb =>
    obtain ⟨⟨c, ds, rfl⟩, hcs⟩ := exists_cons_of_spellsInt hn
    have hc := hcs c List.mem_cons_self
    have hend : Text.dropBlanksAtEnd (c :: ds) = c :: ds := by
      have ht := trim_of_spellsInt hn
      rwa [trim, skipBlanks_cons_of_not hc] at ht
    have hdrop : Text.dropBlanksAtEnd (a ++ c :: ds) = a ++ c :: ds := by
      have hnil := dropBlanksAtEnd_append_cons hc [] ds
      rw [List.nil_append, List.nil_append, hend] at hnil
      rw [dropBlanksAtEnd_append_cons hc, ← hnil]
    rw [dropBlanksAtEnd_append hb, hdrop]
    simpa using Padded.intro ha hn blanks_nil

theorem SpellsInts.skipBlanks {is : List Int} (h : SpellsInts cs is) :
    SpellsInts (skipBlanks cs) is := by
  cases h with
  | one h => exact .one h.skipBlanks
  | more h hs =>
    rw [skipBlanks_append_cons (by decide)]
    exact .more h.skipBlanks hs

theorem SpellsInts.dropBlanksAtEnd {is : List Int} (h : SpellsInts cs is) :
    SpellsInts (dropBlanksAtEnd cs) is := by
  induction h with
  | one h => exact .one h.dropBlanksAtEnd
  | more h _ ih =>
    rw [dropBlanksAtEnd_append_cons (by decide)]
    exact .more h ih

theorem Bound.skipBlanks {o : Option Int} (h : Bound cs o) : Bound (skipBlanks cs) o := by
  rcases h with h | h
  · rw [skipBlanks_of_blanks h]
    exact .absent blanks_nil
  · exact .given h.skipBlanks

theorem Bound.dropBlanksAtEnd {o : Option Int} (h : Bound cs o) :
    Bound (dropBlanksAtEnd cs) o := by
  rcases h with h | h
  · rw [dropBlanksAtEnd_of_blanks h]
    exact .absent blanks_nil
  · exact .given h.dropBlanksAtEnd

/-! ### lists and spans -/

theorem mapM_index?_of_spellsInts {is : List Int} (h : SpellsInts cs is) :
    (cs.splitOn ',').mapM index? = some is := by
  induction h with
  | one h =>
    have hmem := not_mem_of_padded (d := ',') (by decide) h
    rw [List.splitOn_eq_singleton hmem, List.mapM_cons, index?_of_padded h, List.mapM_nil]
    rfl
  | more h _ ih =>
    have hmem := not_mem_of_padded (d := ',') (by decide) h
    rw [List.splitOn_append_cons_self_of_not_mem hmem, List.mapM_cons, index?_of_padded h, ih]
    rfl

theorem indexes?_of_spellsInts {is : List Int} (h : SpellsInts cs is) :
    indexes? cs = some (.ofInts is) := by
  rw [indexes?, mapM_index?_of_spellsInts h]
  rcases is with _ | ⟨i, _ | ⟨j, is⟩⟩ <;> rfl

theorem span?_of_spellsInts {is : List Int} (h : SpellsInts cs is) : span? cs = none := by
  have hmem := not_mem_of_spellsInts (d := ':') (by decide) (by decide) h
  rw [span?, List.splitOn_eq_singleton hmem]

theorem span?_of_bounds {start stop : Option Int} (hs : Bound cs start) (ht : Bound ds stop) :
    span? (cs ++ ':' :: ds) = Segment.ofBounds? start stop := by
  have hc := not_mem_of_bound (d := ':') (by decide) hs
  have hd := not_mem_of_bound (d := ':') (by decide) ht
  rw [span?, List.splitOn_append_cons_self_of_not_mem hc, List.splitOn_eq_singleton hd]
  simp only [bound?_of_bound hs, bound?_of_bound ht]
  rcases start with _ | i <;> rcases stop with _ | j <;> rfl

/-! ### names -/

theorem unquote?_of_quoted {quote : Char} (hq : quote ≠ '\\') {body name : List Char}
    (h : Quoted quote body name) : unquote? quote body = some name := by
  induction h with
  | close =>
    rw [unquote?, if_pos rfl]
    rfl
  | plain hc hb _ ih =>
    rw [unquote?.eq_def]
    simp only [if_neg hc, if_neg hb, ih, Option.map_some]
  | @escape c cs name he _ ih =>
    have hc : c ≠ '\n' := by
      rintro rfl
      exact absurd he (by decide)
    rw [unquote?.eq_def]
    simp only [if_neg (Ne.symm hq), if_neg hc, ih, if_true, Option.map_some, unescape]

theorem getLast?_of_quoted {quote : Char} {body name : List Char} (h : Quoted quote body name) :
    body.getLast? = some quote := by
  induction h with
  | close => rfl
  | plain _ _ _ ih => rw [List.getLast?_cons, ih, Option.getD_some]
  | escape _ _ ih => rw [List.getLast?_cons, List.getLast?_cons, ih, Option.getD_some, Option.getD_some]

theorem ofName?_of_isName (h : IsName cs) (hs : cs ≠ ['*']) :
    ofName? cs = some (.member (String.ofList cs)) := by
  have hany : cs.any Grammar.endsName = false := List.any_eq_false.mpr fun c hc => by
    rw [h.2 c hc]
    exact Bool.false_ne_true
  rw [ofName?, if_neg (by simp [h.1, hs, hany])]

/-! ### what stands in a bracket -/

theorem ofSelector?_pad (ha : Blanks a) (hb : Blanks b) (cs : List Char) :
    ofSelector? (a ++ cs ++ b) = ofSelector? cs := by
  simp only [ofSelector?, trim_pad ha hb]

theorem ofSelector?_of_not_mem (h1 : '\'' ∉ trim cs) (h2 : '"' ∉ trim cs) :
    ofSelector? cs = (span? (trim cs) <|> indexes? (trim cs)) := by
  unfold ofSelector?
  split
  · next heq => exact absurd (heq ▸ List.mem_cons_self) h1
  · next heq => exact absurd (heq ▸ List.mem_cons_self) h2
  · rfl

theorem ofSelector?_of_quoted {quote : Char} (hq : quote = '\'' ∨ quote = '"')
    {body name : List Char} (h : Quoted quote body name) :
    ofSelector? (quote :: body) = some (.member (String.ofList name)) := by
  have hblank : isBlank quote = false := by
    rcases hq with rfl | rfl <;> decide
  have htrim : trim (quote :: body) = quote :: body := by
    refine trim_eq_self rfl hblank fun d hd => ?_
    rw [List.getLast?_cons, getLast?_of_quoted h, Option.getD_some, Option.mem_some_iff] at hd
    exact hd ▸ hblank
  rw [ofSelector?, htrim]
  rcases hq with rfl | rfl
  · simp only [unquote?_of_quoted (by decide) h, Option.map_some]
  · simp only [unquote?_of_quoted (by decide) h, Option.map_some]

theorem ofSelector?_of_spellsInts {is : List Int} (h : SpellsInts cs is) :
    ofSelector? cs = some (.ofInts is) := by
  have ht : SpellsInts (trim cs) is := h.skipBlanks.dropBlanksAtEnd
  have hmem {d : Char} (hd : IsDelimiter d ∧ d ≠ ',') : d ∉ trim cs :=
    not_mem_of_spellsInts hd.1 hd.2 ht
  rw [ofSelector?_of_not_mem (hmem (by decide)) (hmem (by decide)), span?_of_spellsInts ht,
    indexes?_of_spellsInts ht]
  rfl

theorem ofSelector?_of_bounds {start stop : Option Int} (hs : Bound cs start)
    (ht : Bound ds stop) :
    ofSelector? (cs ++ ':' :: ds) = Segment.ofBounds? start stop := by
  have htrim : trim (cs ++ ':' :: ds) = skipBlanks cs ++ ':' :: dropBlanksAtEnd ds :=
    trim_append_cons (by decide) cs ds
  have hmem {d : Char} (hd : IsDelimiter d ∧ d ≠ ':') : d ∉ trim (cs ++ ':' :: ds) := by
    rw [htrim]
    exact not_mem_of_bounds hd.1 hd.2 hs.skipBlanks ht.dropBlanksAtEnd
  rw [ofSelector?_of_not_mem (hmem (by decide)) (hmem (by decide)), htrim,
    span?_of_bounds hs.skipBlanks ht.dropBlanksAtEnd]
  -- without both ends there is no span, and a colon alone is no list either
  rcases hs with hs | hs <;> rcases ht with ht | ht
  · rw [skipBlanks_of_blanks hs, dropBlanksAtEnd_of_blanks ht]
    rfl
  · rfl
  · rfl
  · rfl

theorem ofSelector?_of_selects (h : Selects cs s) : ofSelector? cs = s := by
  cases h with
  | quoted hq h => exact ofSelector?_of_quoted hq h
  | wildcard => rfl
  | positions h => exact ofSelector?_of_spellsInts h
  | span hs ht => exact ofSelector?_of_bounds hs ht

/-! ### pieces -/

theorem ofChars?_bracket (cs : List Char) :
    Segment.ofChars? ('[' :: (cs ++ [']'])) = ofSelector? cs := by
  rw [Segment.ofChars?, List.getLast?_concat, List.dropLast_concat]
  rfl

/-- **Reading at one piece** of the grammar. -/
theorem ofChars?_of_spells (h : Spells p s) : Segment.ofChars? p = s := by
  cases h with
  | wildcard => rfl
  | @name cs h hs =>
    have hstar : cs ≠ ['*'] := by
      rintro rfl
      exact hs rfl
    exact ofName?_of_isName h hstar
  | bracket ha h hb => rw [ofChars?_bracket, ofSelector?_pad ha hb, ofSelector?_of_selects h]

theorem ofChars?_of_isName (h : IsName cs) :
    Segment.ofChars? cs = if cs = ['*'] then none else some (.member (String.ofList cs)) := by
  have hc : Segment.ofChars? cs = ofName? cs := by
    unfold Segment.ofChars?
    split
    · exact absurd (h.2 '[' List.mem_cons_self) (by decide)
    · exact absurd (h.2 '.' List.mem_cons_self) (by decide)
    · rfl
  by_cases hs : cs = ['*']
  · rw [if_pos hs, hs]
    rfl
  · rw [if_neg hs, hc, ofName?_of_isName h hs]

variable {ps : List (List Char × Option Segment)}

theorem spells_of_mem (h : SpellsAll cs ps) :
    ∀ q ∈ ps, Spells q.1 q.2 := by
  induction h with
  | nil => simp
  | cons h _ ih => exact List.forall_mem_cons.mpr ⟨h, ih⟩

/-- A path is of pieces, but for a name that may come first. -/
theorem spells_or_isName (h : SpellsPath cs ps) : ∀ q ∈ ps, Spells q.1 q.2 ∨
    IsName q.1 ∧ q.2 = if q.1 = ['*'] then none else some (.member (String.ofList q.1)) := by
  intro q hq
  cases h with
  | root h => exact .inl (spells_of_mem h q hq)
  | pieces _ h => exact .inl (spells_of_mem h q hq)
  | name hn _ h =>
    rcases List.mem_cons.mp hq with rfl | hq
    · exact .inr ⟨hn, rfl⟩
    · exact .inl (spells_of_mem h q hq)

/-- **Reading at all pieces** of a path. -/
theorem ofChars?_of_mem (h : SpellsPath cs ps) : ∀ q ∈ ps, Segment.ofChars? q.1 = q.2 := by
  intro q hq
  rcases spells_or_isName h q hq with hp | ⟨hn, he⟩
  · exact ofChars?_of_spells hp
  · rw [he, ofChars?_of_isName hn]

end PathDoc
