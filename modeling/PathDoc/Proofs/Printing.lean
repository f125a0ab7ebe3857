import PathDoc.Proofs.Agreement
import PathDoc.Proofs.Dots
import PathDoc.Proofs.Parsed
import PathDoc.Proofs.Recognising

/-!
# PathDoc.Proofs.Printing — a printed path is read back

A path is read from a text exactly if the grammar has the text for it and no name in it has two dots
in a row (`Path.read_eq_ok_iff_spells`).  The printer writes one of the texts that the grammar has for
a path (`spellsPath_text`), if it has any: a list of one index is not told from the index, and an
index must fit 64 bits.  So the paths that are read at all are those that are read back after printing
(`Path.read_text_iff`).
-/

namespace PathDoc

open Text

/-- Whether the indexes of the path fit 64 bits with a sign. -/
def Path.FitsWords (path : Path) : Prop := ∀ s ∈ path, ∀ i ∈ s.spelled, fitsWord i = true

/-- Whether the path has a text: it has a segment, its lists have two indexes or more, and no name in
it contains two dots in a row. -/
structure Path.Printable (path : Path) : Prop where
  ne_nil : path ≠ []
  lists : ∀ is, .indexes is ∈ path → 2 ≤ is.length
  names : ∀ name, .member name ∈ path → ¬ ['.', '.'] <:+: name.toList

theorem Path.fitsWords_cons {s : Segment} {rest : Path} : Path.FitsWords (s :: rest) ↔
    (∀ i ∈ s.spelled, fitsWord i = true) ∧ rest.FitsWords := List.forall_mem_cons

variable {cs p : List Char} {s : Option Segment} {ps : List (List Char × Option Segment)}
  {path : Path}

/-! ### what is read -/

/-- The pieces of a path are read as the segments that they denote, if each denotes one. -/
theorem segments?_eq_ok_iff (hread : ∀ q ∈ ps, Segment.ofChars? q.1 = q.2) :
    segments? (ps.map Prod.fst) = .ok path ↔ ps.map Prod.snd = path.map some := by
  constructor
  · intro h
    induction ps generalizing path with
    | nil =>
      obtain rfl := Except.ok.inj h
      rfl
    | cons q ps ih =>
      rw [List.forall_mem_cons] at hread
      rw [List.map_cons, segments?_cons, hread.1] at h
      cases hq : q.2 with
      | none =>
        rw [hq] at h
        cases h
      | some s =>
        rw [hq] at h
        cases hs : segments? (ps.map Prod.fst) with
        | error e =>
          rw [hs] at h
          cases h
        | ok rest =>
          rw [hs] at h
          obtain rfl := Except.ok.inj h
          rw [List.map_cons, List.map_cons, hq, ih hread.2 hs]
  · intro h
    have hall : ∀ q ∈ ps, q.2 ≠ none := by
      intro q hq hnone
      have hmem : q.2 ∈ path.map some := h ▸ List.mem_map_of_mem hq
      rw [hnone] at hmem
      simp at hmem
    obtain ⟨out, hout, hsegments⟩ := exists_segments?_eq_ok hread hall
    rw [h] at hout
    rw [hsegments, List.map_injective_iff.mpr (fun _ _ => Option.some.inj) hout]

theorem ne_root_of_spellsPath (h : SpellsPath cs ps) (hne : ps ≠ []) : cs ≠ ['$'] := by
  rintro rfl
  have hpieces := filter_split h
  have hnone : (split ['$']).filter (· ≠ ['$']) = [] := by decide
  rw [hnone] at hpieces
  exact hne (List.map_eq_nil_iff.mp hpieces.symm)

/-- **What is read**: the segments that the grammar has for a text without its outer blanks, if they
are some and no name in them has two dots in a row. -/
theorem Path.read_eq_ok_iff_spells {text : String} : Path.read text = .ok path ↔ path ≠ [] ∧
    path.any Segment.hasDoubleDot = false ∧
    ∃ ps, SpellsPath (trim text.toList) ps ∧ ps.map Prod.snd = path.map some := by
  have hdots : ∀ ps, SpellsPath (trim text.toList) ps → ps.map Prod.snd = path.map some →
      Grammar.hasDoubleDot (trim text.toList) = path.any Segment.hasDoubleDot := by
    intro ps hps hmap
    have hany : (ps.map Prod.snd).any (·.any Segment.hasDoubleDot) =
        path.any Segment.hasDoubleDot := by
      rw [hmap, List.any_map]
      rfl
    rw [Grammar.hasDoubleDot_of_spellsPath hps, ← hany, List.any_map]
    rfl
  rw [Path.read_eq_ok_iff]
  constructor
  · rintro ⟨cs, haccept, hne, hs⟩
    obtain ⟨rfl, hno, hscan, -⟩ := Grammar.accept_eq_ok_iff.mp haccept
    obtain ⟨ps, hps⟩ := Grammar.exists_spellsPath_of_scan hscan
    rw [filter_split hps, segments?_eq_ok_iff (ofChars?_of_mem hps)] at hs
    exact ⟨hne, hdots ps hps hs ▸ hno, ps, hps, hs⟩
  · rintro ⟨hne, hno, ps, hps, hs⟩
    have hpieces : ps ≠ [] := by
      rintro rfl
      exact hne (List.map_eq_nil_iff.mp hs.symm)
    have haccept : Grammar.accept text.toList = .ok (trim text.toList) :=
      Grammar.accept_eq_ok_iff.mpr ⟨rfl, (hdots ps hps hs).trans hno,
        Grammar.scan_of_spellsPath hps, ne_root_of_spellsPath hps hpieces⟩
    refine ⟨_, haccept, hne, ?_⟩
    rw [filter_split hps, segments?_eq_ok_iff (ofChars?_of_mem hps), hs]

/-! ### what can be read -/

theorem mem_spelled_of_ofBounds? {start stop : Option Int} {t : Segment} {i : Int}
    (ht : Segment.ofBounds? start stop = some t) (hi : i ∈ t.spelled) :
    i = 0 ∨ start = some i ∨ stop = some i := by
  rcases start with _ | a
  · rcases stop with _ | b
    · cases ht
    · obtain rfl := Option.some.inj ht
      rcases List.mem_cons.mp hi with rfl | hi
      · exact .inl rfl
      · rw [List.mem_singleton.mp hi]
        exact .inr (.inr rfl)
  · obtain rfl := Option.some.inj ht
    rcases List.mem_cons.mp hi with rfl | hi
    · exact .inr (.inl rfl)
    · exact .inr (.inr (Option.mem_toList.mp hi))

theorem fitsWord_of_padded {i : Int} (h : Padded cs i) : fitsWord i = true := by
  obtain ⟨-, h, -⟩ := h
  exact fitsWord_of_spellsInt h

theorem fitsWord_of_spellsInts {is : List Int} (h : SpellsInts cs is) :
    ∀ i ∈ is, fitsWord i = true := by
  induction h with
  | one h => exact List.forall_mem_singleton.mpr (fitsWord_of_padded h)
  | more h _ ih => exact List.forall_mem_cons.mpr ⟨fitsWord_of_padded h, ih⟩

theorem fitsWord_of_bound {i : Int} (h : Bound cs (some i)) : fitsWord i = true := by
  cases h with
  | given h => exact fitsWord_of_padded h

theorem fitsWord_of_selects (h : Selects cs s) : ∀ t ∈ s, ∀ i ∈ t.spelled, fitsWord i = true := by
  intro t ht i hi
  cases h with
  | quoted =>
    obtain rfl := Option.some.inj ht
    simp at hi
  | wildcard => cases ht
  | @positions cs is h =>
    obtain rfl := Option.some.inj ht
    have hspelled : (Segment.ofInts is).spelled = is := by
      rcases is with _ | ⟨i, _ | ⟨j, is⟩⟩ <;> rfl
    exact fitsWord_of_spellsInts h i (hspelled ▸ hi)
  | span hs hstop =>
    rcases mem_spelled_of_ofBounds? ht hi with rfl | rfl | rfl
    · decide
    · exact fitsWord_of_bound hs
    · exact fitsWord_of_bound hstop

theorem fitsWord_of_spells (h : Spells p s) : ∀ t ∈ s, ∀ i ∈ t.spelled, fitsWord i = true := by
  intro t ht i hi
  cases h with
  | wildcard => cases ht
  | name =>
    obtain rfl := Option.some.inj ht
    simp at hi
  | bracket _ h _ => exact fitsWord_of_selects h t ht i hi

theorem fitsWord_of_spellsPath (h : SpellsPath cs ps) :
    ∀ q ∈ ps, ∀ t ∈ q.2, ∀ i ∈ t.spelled, fitsWord i = true := by
  intro q hq t ht i hi
  rcases spells_or_isName h q hq with hp | ⟨-, he⟩
  · exact fitsWord_of_spells hp t ht i hi
  · rw [he] at ht
    split at ht
    · cases ht
    · obtain rfl := Option.some.inj ht
      simp at hi

theorem Path.names_iff : path.any Segment.hasDoubleDot = false ↔
    ∀ name, .member name ∈ path → ¬ ['.', '.'] <:+: name.toList := by
  rw [List.any_eq_false]
  constructor
  · intro h name hmem hdots
    exact h _ hmem (Grammar.hasDoubleDot_iff.mpr hdots)
  · intro h s hs
    cases s with
    | member name => exact fun hdots => h name hs (Grammar.hasDoubleDot_iff.mp hdots)
    | _ => exact Bool.false_ne_true

/-- A path that was read has a text. -/
theorem Path.printable_of_read {text : String} (h : Path.read text = .ok path) :
    path.FitsWords ∧ path.Printable := by
  obtain ⟨hne, hparsed⟩ := parsed_of_read h
  obtain ⟨-, hno, ps, hps, hmap⟩ := Path.read_eq_ok_iff_spells.mp h
  refine ⟨fun s hs i hi => ?_, hne, fun is his => hparsed _ his, Path.names_iff.mp hno⟩
  have hmem : some s ∈ ps.map Prod.snd := hmap ▸ List.mem_map_of_mem hs
  obtain ⟨q, hq, he⟩ := List.mem_map.mp hmem
  exact fitsWord_of_spellsPath hps q hq s he i hi

/-! ### the characters of a plain name -/

/-- Two tables without a common code point have no common character. -/
theorem Text.Ranges.mem_eq_false {t u : Ranges}
    (h : ∀ q ∈ t, ∀ r ∈ u, q.2 < r.1 ∨ r.2 < q.1) {c : Char} (hc : u.mem c = true) :
    t.mem c = false := by
  rw [Bool.eq_false_iff]
  intro hc'
  obtain ⟨r, hr, hlow, hhigh⟩ := mem_iff.mp hc
  obtain ⟨q, hq, hlow', hhigh'⟩ := mem_iff.mp hc'
  have hapart := h q hq r hr
  omega

theorem isBlank_of_isAlphanumeric {c : Char} (hc : isAlphanumeric c = true) :
    isBlank c = false := by
  have hletters : ∀ q ∈ whiteSpace, ∀ r ∈ alphabetic, q.2 < r.1 ∨ r.2 < q.1 := by decide +kernel
  have hnumbers : ∀ q ∈ whiteSpace, ∀ r ∈ numericOnly, q.2 < r.1 ∨ r.2 < q.1 := by decide +kernel
  rw [isAlphanumeric, Bool.or_eq_true] at hc
  rcases hc with hc | hc
  · exact Ranges.mem_eq_false hletters hc
  · exact Ranges.mem_eq_false hnumbers hc

/-- A plain name is of characters that are no blanks and have no meaning in a path. -/
theorem of_mem_of_isPlainName {name : List Char} (h : isPlainName name = true) {c : Char}
    (hc : c ∈ name) : isBlank c = false ∧ Grammar.endsName c = false ∧ c ≠ '*' := by
  have hclass : isAlphanumeric c = true ∨ c = '_' ∨ c = '-' := by
    cases name with
    | nil => cases hc
    | cons d name =>
      simp only [isPlainName, Bool.and_eq_true, Bool.or_eq_true, beq_iff_eq, List.all_eq_true] at h
      rcases List.mem_cons.mp hc with rfl | hc
      · exact h.1.imp isAlphanumeric_of_isAlphabetic .inl
      · exact or_assoc.mp (h.2 c hc)
  rcases hclass with hc | rfl | rfl
  · have hother : ∀ e, isAlphanumeric e = false → c ≠ e := by
      rintro e he rfl
      exact Bool.false_ne_true (he.symm.trans hc)
    have hends : Grammar.endsName c = false := by
      rw [Grammar.endsName, beq_false_of_ne (hother '.' (by decide +kernel)),
        beq_false_of_ne (hother '[' (by decide +kernel)),
        beq_false_of_ne (hother ']' (by decide +kernel))]
      rfl
    exact ⟨isBlank_of_isAlphanumeric hc, hends, hother '*' (by decide +kernel)⟩
  · decide
  · decide

theorem isName_of_isPlainName {name : List Char} (h : isPlainName name = true) :
    IsName name ∧ name.head? ≠ some '*' := by
  have hne : name ≠ [] := by
    rintro rfl
    exact Bool.false_ne_true h
  refine ⟨⟨hne, fun c hc => (of_mem_of_isPlainName h hc).2.1⟩, fun hstar => ?_⟩
  exact (of_mem_of_isPlainName h (List.mem_of_mem_head? hstar)).2.2 rfl

/-! ### the texts of the printer -/

theorem padded_ofInt {i : Int} (hw : fitsWord i = true) : Padded (Numeral.ofInt i) i := by
  have hspells : SpellsInt (Numeral.ofInt i) i := by
    cases i with
    | ofNat n =>
      have h := @SpellsInt.nonneg (Numeral.ofNat n) (Numeral.ofNat_ne_nil n)
        fun _ => Numeral.isDigit_of_mem_ofNat
      rw [Numeral.value_ofNat] at h
      exact h hw
    | negSucc n =>
      have h := @SpellsInt.neg (Numeral.ofNat (n + 1)) (Numeral.ofNat_ne_nil _)
        fun _ => Numeral.isDigit_of_mem_ofNat
      rw [Numeral.value_ofNat] at h
      exact h hw
  simpa using Padded.intro blanks_nil hspells blanks_nil

theorem spellsInts_commaText {is : List Int} (hne : is ≠ []) (hw : ∀ i ∈ is, fitsWord i = true) :
    SpellsInts (commaText is) is := by
  induction is with
  | nil => exact absurd rfl hne
  | cons i is ih =>
    rw [List.forall_mem_cons] at hw
    cases is with
    | nil => exact .one (padded_ofInt hw.1)
    | cons j is => exact .more (padded_ofInt hw.1) (ih (List.cons_ne_nil _ _) hw.2)

/-- A name is what its escaped characters stand for. -/
theorem quoted_escape (name : List Char) :
    Quoted '\'' (name.flatMap escapeChar ++ ['\'']) name := by
  induction name with
  | nil => exact .close
  | cons c name ih =>
    rw [List.flatMap_cons, List.append_assoc, escapeChar]
    by_cases hc : c = '\\' ∨ c = '\''
    · have hself : Grammar.isEscapable c = true ∧ unescape c = c := by
        rcases hc with rfl | rfl <;> decide
      have h := Quoted.escape hself.1 ih
      rw [hself.2] at h
      rw [if_pos hc]
      exact h
    · rw [if_neg hc]
      exact .plain (fun h => hc (.inr h)) (fun h => hc (.inl h)) ih

/-- A list of two indexes or more is not taken for an index. -/
theorem ofInts_of_two_le {is : List Int} (h : 2 ≤ is.length) :
    Segment.ofInts is = .indexes is := by
  rcases is with _ | ⟨i, _ | ⟨j, is⟩⟩
  · rfl
  · simp at h
  · rfl

/-- **Printing at one segment**: its text is one that the grammar has for it. -/
theorem spells_text {s : Segment} (hs : s.IsParsed) (hw : ∀ i ∈ s.spelled, fitsWord i = true) :
    Spells s.text (some s) := by
  have hbracket {cs : List Char} {s : Option Segment} (h : Selects cs s) :
      Spells ('[' :: (cs ++ [']'])) s := by
    simpa using Spells.bracket blanks_nil h blanks_nil
  cases s with
  | member name =>
    rw [Segment.text, nameText]
    split
    · next hplain =>
      obtain ⟨hname, hstar⟩ := isName_of_isPlainName hplain
      simpa using Spells.name hname hstar
    · have h := hbracket (.quoted (.inl rfl) (quoted_escape name.toList))
      simpa using h
  | index i => exact hbracket (.positions (.one (padded_ofInt (hw i List.mem_cons_self))))
  | indexes is =>
    have hne : is ≠ [] := by
      rintro rfl
      exact absurd hs (by simp [Segment.IsParsed])
    have h := hbracket (.positions (spellsInts_commaText hne hw))
    rw [ofInts_of_two_le hs] at h
    exact h
  | span start stop =>
    have hstart : Bound (Numeral.ofInt start) (some start) :=
      .given (padded_ofInt (hw start List.mem_cons_self))
    cases stop with
    | none =>
      have h := hbracket (.span hstart (.absent blanks_nil))
      simpa [Segment.text, Segment.ofBounds?] using h
    | some stop =>
      have hstop : Bound (Numeral.ofInt stop) (some stop) :=
        .given (padded_ofInt (hw stop (by simp [Segment.spelled])))
      have h := hbracket (.span hstart hstop)
      simpa [Segment.text, Segment.ofBounds?] using h

theorem spellsAll_text (hw : path.FitsWords) (hs : ∀ s ∈ path, s.IsParsed) :
    SpellsAll (path.flatMap Segment.text) (path.map fun s => (s.text, some s)) := by
  induction path with
  | nil => exact .nil
  | cons s path ih =>
    rw [Path.fitsWords_cons] at hw
    rw [List.forall_mem_cons] at hs
    exact .cons (spells_text hs.1 hw.1) (ih hw.2 hs.2)

/-! ### no blanks at the end -/

theorem isBlank_of_getLast?_text (s : Segment) : ∀ d ∈ s.text.getLast?, isBlank d = false := by
  have hclose : ∀ cs : List Char, ∀ d ∈ (cs ++ [']']).getLast?, isBlank d = false := by
    intro cs d hd
    rw [List.getLast?_concat] at hd
    rw [← Option.some.inj hd]
    decide
  intro d hd
  cases s with
  | member name =>
    rw [Segment.text, nameText] at hd
    split at hd
    · next hplain =>
      rw [List.getLast?_cons_of_ne_nil (isName_of_isPlainName hplain).1.1] at hd
      exact (of_mem_of_isPlainName hplain (List.mem_of_getLast? hd)).1
    · refine hclose (['[', '\''] ++ name.toList.flatMap escapeChar ++ ['\'']) d ?_
      simpa using hd
  | index i => exact hclose ('[' :: Numeral.ofInt i) d hd
  | indexes is => exact hclose ('[' :: commaText is) d hd
  | span start stop =>
    cases stop with
    | none => exact hclose ('[' :: Numeral.ofInt start ++ [':']) d (by simpa [Segment.text] using hd)
    | some stop =>
      refine hclose ('[' :: Numeral.ofInt start ++ ':' :: Numeral.ofInt stop) d ?_
      simpa [Segment.text] using hd

theorem isBlank_of_getLast?_append {front : List Char}
    (h : ∀ d ∈ front.getLast?, isBlank d = false) (path : Path) :
    ∀ d ∈ (front ++ path.flatMap Segment.text).getLast?, isBlank d = false := by
  induction path generalizing front with
  | nil => simpa using h
  | cons s path ih =>
    rw [List.flatMap_cons, ← List.append_assoc]
    refine ih fun d hd => ?_
    rw [List.getLast?_append] at hd
    rcases Option.or_eq_some_iff.mp hd with hd | ⟨-, hd⟩
    · exact isBlank_of_getLast?_text s d hd
    · exact h d hd

theorem trim_text (path : Path) :
    trim ('$' :: path.flatMap Segment.text) = '$' :: path.flatMap Segment.text := by
  have hroot : isBlank '$' = false := by decide
  have hlast : ∀ d ∈ ['$'].getLast?, isBlank d = false := by
    intro d hd
    rw [← Option.some.inj hd]
    exact hroot
  exact trim_eq_self rfl hroot (isBlank_of_getLast?_append hlast path)

/-! ### printing, then reading -/

theorem Path.read_text_of_printable (hw : path.FitsWords) (hp : path.Printable) :
    Path.read path.text = .ok path := by
  have hparsed : ∀ s ∈ path, s.IsParsed := by
    intro s hs
    cases s with
    | indexes is => exact hp.lists is hs
    | _ => trivial
  rw [Path.read_eq_ok_iff_spells, toList_text_path, trim_text]
  refine ⟨hp.ne_nil, Path.names_iff.mpr hp.names, _, .root (spellsAll_text hw hparsed), ?_⟩
  rw [List.map_map]
  rfl

/-- **Printing is canonical.**  The paths that are read back from their printed text are those that have
a text; and these are all that a text can give, so to print a path that was read and to read it again
gives the same path. -/
theorem Path.read_text_iff :
    (∀ path : Path, Path.read path.text = .ok path ↔ path.FitsWords ∧ path.Printable) ∧
      ∀ text (path : Path), Path.read text = .ok path →
        path.FitsWords ∧ path.Printable ∧ Path.read path.text = .ok path := by
  refine ⟨fun path => ⟨Path.printable_of_read, fun h => ?_⟩, fun text path h => ?_⟩
  · exact Path.read_text_of_printable h.1 h.2
  · obtain ⟨hw, hp⟩ := Path.printable_of_read h
    exact ⟨hw, hp, Path.read_text_of_printable hw hp⟩

/-- A text with blanks between its indexes and a quote in a name, and what is printed for it. -/
theorem Path.read_text_of_quoted :
    let text := "a[ 0,-1 ]['it\\'s']"
    let path : Path := [.member "a", .indexes [0, -1], .member "it's"]
    Path.read text = .ok path ∧ path.text = "$.a[0,-1]['it\\'s']" ∧
      Path.read path.text = .ok path := by
  intro text path
  have hsome : (Path.read text).toOption = some path := by decide +kernel
  have hprint : path.text = "$.a[0,-1]['it\\'s']" := by decide +kernel
  have hread : Path.read text = .ok path := by
    cases hr : Path.read text with
    | ok out =>
      rw [hr] at hsome
      rw [Option.some.inj hsome]
    | error e =>
      rw [hr] at hsome
      cases hsome
  exact ⟨hread, hprint, (Path.read_text_iff.2 text path hread).2.2⟩

end PathDoc
