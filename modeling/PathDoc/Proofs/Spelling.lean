import PathDoc.Path.Grammar
import PathDoc.Path.Segment
import PathDoc.Proofs.Blanks

/-!
# PathDoc.Proofs.Spelling — the grammar of paths

`SpellsPath` is the grammar as rules, together with what each piece of a path denotes: a segment, or
nothing for a wildcard and for a colon alone.  The recogniser accepts nothing else
(`exists_spellsPath_of_scan`), one function of it after another.
-/

namespace PathDoc

open Text

/-! ### the rules -/

/-- A name without quotes. -/
def IsName (cs : List Char) : Prop := cs ≠ [] ∧ ∀ c ∈ cs, Grammar.endsName c = false

/-- An integer of 64 bits. -/
inductive SpellsInt : List Char → Int → Prop where
  | nonneg {ds : List Char} (hne : ds ≠ []) (hds : ∀ c ∈ ds, c.isDigit = true)
    (hw : fitsWord (Numeral.value ds) = true) : SpellsInt ds (Numeral.value ds)
  | neg {ds : List Char} (hne : ds ≠ []) (hds : ∀ c ∈ ds, c.isDigit = true)
    (hw : fitsWord (-(Numeral.value ds : Int)) = true) : SpellsInt ('-' :: ds) (-(Numeral.value ds))

/-- An integer between blanks. -/
inductive Padded : List Char → Int → Prop where
  | intro {a cs b : List Char} {i : Int} (ha : Blanks a) (h : SpellsInt cs i) (hb : Blanks b) :
    Padded (a ++ cs ++ b) i

/-- Integers between commas. -/
inductive SpellsInts : List Char → List Int → Prop where
  | one {cs : List Char} {i : Int} (h : Padded cs i) : SpellsInts cs [i]
  | more {cs ds : List Char} {i : Int} {is : List Int} (h : Padded cs i) (hs : SpellsInts ds is) :
    SpellsInts (cs ++ ',' :: ds) (i :: is)

/-- An end of a span, which may be left out. -/
inductive Bound : List Char → Option Int → Prop where
  | absent {cs : List Char} (h : Blanks cs) : Bound cs none
  | given {cs : List Char} {i : Int} (h : Padded cs i) : Bound cs (some i)

/-- What a character stands for after a backslash. -/
def unescape (c : Char) : Char :=
  if c = 'n' then '\n' else if c = 't' then '\t' else if c = 'r' then '\r' else c

/-- A quoted name after its opening quote, with the closing one. -/
inductive Quoted (quote : Char) : List Char → List Char → Prop where
  | close : Quoted quote [quote] []
  | plain {c : Char} {cs name : List Char} (hq : c ≠ quote) (hb : c ≠ '\\')
    (h : Quoted quote cs name) : Quoted quote (c :: cs) (c :: name)
  | escape {c : Char} {cs name : List Char} (he : Grammar.isEscapable c = true)
    (h : Quoted quote cs name) : Quoted quote ('\\' :: c :: cs) (unescape c :: name)

/-- One index, or a list of them. -/
def Segment.ofInts : List Int → Segment
  | [i] => .index i
  | is => .indexes is

/-- The span between two ends.  Without both it is none. -/
def Segment.ofBounds? : Option Int → Option Int → Option Segment
  | some i, stop => some (.span i stop)
  | none, some j => some (.span 0 (some j))
  | none, none => none

/-- What stands in a bracket, and the segment that it denotes. -/
inductive Selects : List Char → Option Segment → Prop where
  | quoted {quote : Char} {body name : List Char} (hq : quote = '\'' ∨ quote = '"')
    (h : Quoted quote body name) : Selects (quote :: body) (some (.member (String.ofList name)))
  | wildcard : Selects ['*'] none
  | positions {cs : List Char} {is : List Int} (h : SpellsInts cs is) :
    Selects cs (some (.ofInts is))
  | span {cs ds : List Char} {start stop : Option Int} (hs : Bound cs start) (ht : Bound ds stop) :
    Selects (cs ++ ':' :: ds) (Segment.ofBounds? start stop)

/-- A piece of a path, and the segment that it denotes. -/
inductive Spells : List Char → Option Segment → Prop where
  | wildcard : Spells ['.', '*'] none
  | name {cs : List Char} (h : IsName cs) (hs : cs.head? ≠ some '*') :
    Spells ('.' :: cs) (some (.member (String.ofList cs)))
  | bracket {a cs b : List Char} {s : Option Segment} (ha : Blanks a) (h : Selects cs s)
    (hb : Blanks b) : Spells ('[' :: (a ++ cs ++ b ++ [']'])) s

/-- Pieces one after another. -/
inductive SpellsAll : List Char → List (List Char × Option Segment) → Prop where
  | nil : SpellsAll [] []
  | cons {p cs : List Char} {s : Option Segment} {ps : List (List Char × Option Segment)}
    (h : Spells p s) (hs : SpellsAll cs ps) : SpellsAll (p ++ cs) ((p, s) :: ps)

/-- **The grammar of paths**: a root sign, nothing or a name, and then pieces.  A star alone at the
start is a wildcard. -/
inductive SpellsPath : List Char → List (List Char × Option Segment) → Prop where
  | root {cs : List Char} {ps : List (List Char × Option Segment)} (h : SpellsAll cs ps) :
    SpellsPath ('$' :: cs) ps
  | pieces {cs : List Char} {ps : List (List Char × Option Segment)} (hne : cs ≠ [])
    (h : SpellsAll cs ps) : SpellsPath cs ps
  | name {n cs : List Char} {ps : List (List Char × Option Segment)} (hn : IsName n)
    (hd : n.head? ≠ some '$') (h : SpellsAll cs ps) :
    SpellsPath (n ++ cs)
      ((n, if n = ['*'] then none else some (.member (String.ofList n))) :: ps)

/-! ### the leaves of the recogniser -/

namespace Grammar

variable {cs rest : List Char}

theorem exists_digits_of_takeNat? {n : ℕ} (h : Numeral.takeNat? cs = some (n, rest)) :
    ∃ ds, ds ≠ [] ∧ (∀ c ∈ ds, c.isDigit = true) ∧ n = Numeral.value ds ∧ cs = ds ++ rest := by
  unfold Numeral.takeNat? at h
  have hsplit := (List.takeWhile_append_dropWhile (p := Char.isDigit) (l := cs)).symm
  have hdigits : ∀ c ∈ cs.takeWhile Char.isDigit, c.isDigit = true := fun _ hc =>
    List.mem_takeWhile_imp hc
  split at h
  · simp at h
  · next hne =>
    rw [Option.some.injEq, Prod.mk.injEq] at h
    obtain ⟨rfl, rfl⟩ := h
    exact ⟨_, hne, hdigits, rfl, hsplit⟩

theorem exists_spellsInt_of_integer (h : integer cs = .ok rest) :
    ∃ n i, SpellsInt n i ∧ cs = n ++ rest := by
  unfold integer at h
  split at h
  · next i r hr =>
    split at h
    · next hw =>
      obtain rfl := Except.ok.inj h
      unfold Numeral.takeInt? at hr
      split at hr
      · obtain ⟨⟨n, r⟩, hn, he⟩ := Option.map_eq_some_iff.mp hr
        obtain ⟨rfl, rfl⟩ := Prod.mk.inj he
        obtain ⟨ds, hne, hds, rfl, rfl⟩ := exists_digits_of_takeNat? hn
        exact ⟨'-' :: ds, _, .neg hne hds hw, rfl⟩
      · obtain ⟨⟨n, r⟩, hn, he⟩ := Option.map_eq_some_iff.mp hr
        obtain ⟨rfl, rfl⟩ := Prod.mk.inj he
        obtain ⟨ds, hne, hds, rfl, rfl⟩ := exists_digits_of_takeNat? hn
        exact ⟨ds, _, .nonneg hne hds hw, rfl⟩
    · simp at h
  · simp at h

theorem exists_isName_of_name (h : name cs = .ok rest) : ∃ n, IsName n ∧ cs = n ++ rest := by
  unfold name at h
  split at h
  · simp at h
  · next c cs =>
    split at h
    · simp at h
    · next hc =>
      obtain rfl := Except.ok.inj h
      refine ⟨c :: cs.takeWhile fun d => !endsName d, ⟨by simp, ?_⟩, ?_⟩
      · intro d hd
        rcases List.mem_cons.mp hd with rfl | hd
        · simpa using hc
        · simpa using List.mem_takeWhile_imp hd
      · rw [List.cons_append, List.takeWhile_append_dropWhile]

theorem exists_quoted_of_string {quote : Char} (h : string quote cs = .ok rest) :
    ∃ body name, Quoted quote body name ∧ cs = body ++ rest := by
  fun_induction string quote cs with
  | case1 => simp at h
  | case2 cs =>
    obtain rfl := Except.ok.inj h
    exact ⟨[quote], [], .close, rfl⟩
  | case3 => simp at h
  | case4 d cs he hq ih =>
    obtain ⟨body, name, hb, rfl⟩ := ih h
    exact ⟨'\\' :: d :: body, unescape d :: name, .escape he hb, rfl⟩
  | case5 => simp at h
  | case6 c cs hq hb ih =>
    obtain ⟨body, name, hbody, rfl⟩ := ih h
    exact ⟨c :: body, c :: name, .plain hq hb hbody, rfl⟩

/-! ### what stands in a bracket -/

theorem exists_bound_of_integerOrNone (h : integerOrNone cs = .ok rest) :
    ∃ n o, Bound n o ∧ cs = n ++ rest := by
  obtain ⟨a, ha, hcs⟩ := exists_eq_append_skipBlanks cs
  unfold integerOrNone at h
  split at h
  · next hs =>
    rw [hs] at hcs
    obtain rfl := Except.ok.inj h
    exact ⟨a, none, .absent ha, hcs⟩
  · next c r hs =>
    rw [hs] at hcs
    split at h
    · obtain ⟨n, i, hn, he⟩ := exists_spellsInt_of_integer h
      refine ⟨a ++ n ++ [], some i, .given (.intro ha hn blanks_nil), ?_⟩
      rw [hcs, he, List.append_nil, List.append_assoc]
    · obtain rfl := Except.ok.inj h
      exact ⟨a, none, .absent ha, hcs⟩

/-- What follows an integer of a list, with that integer put back in front. -/
theorem exists_spellsInts_of_integers {n : List Char} {i : Int} (hn : Padded n i)
    (h : integers cs = .ok rest) : ∃ m is, SpellsInts m (i :: is) ∧ n ++ cs = m ++ rest := by
  -- each round takes a comma and an integer off the front, so the text gets shorter
  induction hlen : cs.length using Nat.strong_induction_on generalizing cs n i with
  | _ len ih =>
    cases cs with
    | nil =>
      rw [integers_nil] at h
      obtain rfl := Except.ok.inj h
      exact ⟨n, [], .one hn, rfl⟩
    | cons c cs =>
      by_cases hc : c = ','
      · subst hc
        rw [integers_comma] at h
        split at h
        · next r hr =>
          obtain ⟨a, ha, hcs⟩ := exists_eq_append_skipBlanks cs
          obtain ⟨m, j, hm, he⟩ := exists_spellsInt_of_integer hr
          obtain ⟨b, hb, hr'⟩ := exists_eq_append_skipBlanks r
          have hlt : (skipBlanks r).length < len := by
            have h1 := congrArg List.length hcs
            have h2 := congrArg List.length he
            have h3 := length_skipBlanks_le r
            simp only [List.length_append] at h1 h2
            rw [List.length_cons] at hlen
            omega
          obtain ⟨m', is, hm', he'⟩ := ih _ hlt (.intro ha hm hb) h rfl
          refine ⟨n ++ ',' :: m', j :: is, .more hn hm', ?_⟩
          have htail : cs = m' ++ rest := by
            rw [← he', hcs, he, List.append_assoc, List.append_assoc, ← hr']
          rw [htail, List.append_assoc, List.cons_append]
        · simp at h
      · rw [integers_other hc] at h
        obtain rfl := Except.ok.inj h
        exact ⟨n, [], .one hn, rfl⟩

theorem exists_selects_of_positions (h : positions cs = .ok rest) :
    ∃ n s, Selects n s ∧ cs = n ++ rest := by
  unfold positions at h
  split at h
  · next cs =>
    obtain ⟨n, o, hn, rfl⟩ := exists_bound_of_integerOrNone h
    exact ⟨[] ++ ':' :: n, _, .span (.absent blanks_nil) hn, rfl⟩
  · split at h
    · next r hr =>
      obtain ⟨m, i, hm, rfl⟩ := exists_spellsInt_of_integer hr
      obtain ⟨b, hb, hr'⟩ := exists_eq_append_skipBlanks r
      have hpad : Padded (m ++ b) i := .intro blanks_nil hm hb
      split at h
      · next r' hs =>
        obtain ⟨n, o, hn, rfl⟩ := exists_bound_of_integerOrNone h
        refine ⟨(m ++ b) ++ ':' :: n, _, .span (.given hpad) hn, ?_⟩
        rw [hr', hs]
        simp
      · obtain ⟨n, is, hn, he⟩ := exists_spellsInts_of_integers hpad h
        refine ⟨n, _, .positions hn, ?_⟩
        rw [← he, List.append_assoc, ← hr']
    · simp at h

theorem exists_selects_of_selector (h : selector cs = .ok rest) :
    ∃ n s, Selects n s ∧ cs = n ++ rest := by
  cases cs with
  | nil => simp [selector] at h
  | cons c cs =>
    rw [selector] at h
    by_cases hq : c = '\'' ∨ c = '"'
    · rw [if_pos hq] at h
      obtain ⟨body, name, hb, rfl⟩ := exists_quoted_of_string h
      exact ⟨c :: body, _, .quoted hq hb, rfl⟩
    rw [if_neg hq] at h
    by_cases hw : c = '*'
    · rw [if_pos hw] at h
      obtain rfl := Except.ok.inj h
      exact ⟨['*'], none, .wildcard, by rw [hw]; rfl⟩
    rw [if_neg hw] at h
    split at h
    · exact exists_selects_of_positions h
    · simp at h

theorem eq_cons_of_expect {d : Char} (h : expect d cs = .ok rest) : cs = d :: rest := by
  unfold expect at h
  split at h
  · simp at h
  · split at h
    · next hc => rw [hc, Except.ok.inj h]
    · simp at h

/-! ### pieces and paths -/

theorem exists_spells_of_bracket (h : bracket cs = .ok rest) :
    ∃ n s, Spells ('[' :: n) s ∧ cs = n ++ rest := by
  unfold bracket at h
  split at h
  · next r hr =>
    obtain ⟨a, ha, hcs⟩ := exists_eq_append_skipBlanks cs
    obtain ⟨n, s, hn, he⟩ := exists_selects_of_selector hr
    obtain ⟨b, hb, hr'⟩ := exists_eq_append_skipBlanks r
    have hclose := eq_cons_of_expect h
    refine ⟨a ++ n ++ b ++ [']'], s, .bracket ha hn hb, ?_⟩
    rw [hcs, he, hr', hclose]
    simp
  · simp at h

theorem exists_spells_of_dotted (h : dotted cs = .ok rest) :
    ∃ n s, Spells ('.' :: n) s ∧ cs = n ++ rest := by
  unfold dotted at h
  split at h
  · simp at h
  · obtain rfl := Except.ok.inj h
    exact ⟨['*'], none, .wildcard, rfl⟩
  · next hdot hstar =>
    obtain ⟨n, hn, rfl⟩ := exists_isName_of_name h
    refine ⟨n, _, .name hn fun hh => ?_, rfl⟩
    obtain ⟨tail, rfl⟩ := List.head?_eq_some_iff.mp hh
    exact hstar _ rfl

theorem exists_spellsAll_of_segments (h : segments cs = .ok ()) : ∃ ps, SpellsAll cs ps := by
  -- each round takes a piece off the front, so the text gets shorter
  induction hlen : cs.length using Nat.strong_induction_on generalizing cs with
  | _ len ih =>
    cases cs with
    | nil => exact ⟨[], .nil⟩
    | cons c cs =>
      rw [List.length_cons] at hlen
      by_cases hd : c = '.'
      · subst hd
        rw [segments_dot] at h
        split at h
        · next r hr =>
          have hle := length_le_of_dotted hr
          obtain ⟨n, s, hn, rfl⟩ := exists_spells_of_dotted hr
          obtain ⟨ps, hps⟩ := ih _ (by omega) h rfl
          exact ⟨_, .cons hn hps⟩
        · simp at h
      by_cases hb : c = '['
      · subst hb
        rw [segments_open] at h
        split at h
        · next r hr =>
          have hle := length_le_of_bracket hr
          obtain ⟨n, s, hn, rfl⟩ := exists_spells_of_bracket hr
          obtain ⟨ps, hps⟩ := ih _ (by omega) h rfl
          exact ⟨_, .cons hn hps⟩
        · simp at h
      · rw [segments_other hd hb] at h
        simp at h

/-- **The recogniser is sound**: what it accepts follows the rules. -/
theorem exists_spellsPath_of_scan (h : scan cs = .ok ()) : ∃ ps, SpellsPath cs ps := by
  cases cs with
  | nil => simp [scan] at h
  | cons c cs =>
    rw [scan] at h
    by_cases hr : c = '$'
    · rw [if_pos hr] at h
      obtain ⟨ps, hps⟩ := exists_spellsAll_of_segments h
      exact ⟨ps, hr ▸ .root hps⟩
    rw [if_neg hr] at h
    by_cases hs : c = '.' ∨ c = '['
    · rw [if_pos hs] at h
      obtain ⟨ps, hps⟩ := exists_spellsAll_of_segments h
      exact ⟨ps, .pieces (List.cons_ne_nil _ _) hps⟩
    rw [if_neg hs] at h
    split at h
    · next r hn =>
      obtain ⟨n, hname, he⟩ := exists_isName_of_name hn
      obtain ⟨ps, hps⟩ := exists_spellsAll_of_segments h
      rw [he]
      refine ⟨_, SpellsPath.name hname (fun hh => ?_) hps⟩
      obtain ⟨tail, rfl⟩ := List.head?_eq_some_iff.mp hh
      exact hr (List.cons.inj he).1
    · simp at h

/-- A text is accepted, without its outer blanks, if the recogniser takes that, no two dots follow each
other in it and it is more than the root sign. -/
theorem accept_eq_ok_iff {text : List Char} : accept text = .ok cs ↔
    cs = trim text ∧ hasDoubleDot cs = false ∧ scan cs = .ok () ∧ cs ≠ ['$'] := by
  unfold accept
  dsimp only
  constructor
  · intro h
    by_cases hempty : trim text = []
    · rw [if_pos hempty] at h
      cases h
    rw [if_neg hempty] at h
    by_cases hdots : hasDoubleDot (trim text) = true
    · rw [if_pos hdots] at h
      cases h
    rw [if_neg hdots] at h
    split at h
    · cases h
    · next hscan =>
      by_cases hroot : trim text = ['$']
      · rw [if_pos hroot] at h
        cases h
      · rw [if_neg hroot] at h
        obtain rfl := Except.ok.inj h
        exact ⟨rfl, Bool.not_eq_true _ ▸ hdots, hscan, hroot⟩
  · rintro ⟨rfl, hdots, hscan, hroot⟩
    have hempty : trim text ≠ [] := by
      intro hempty
      rw [hempty] at hscan
      simp [scan] at hscan
    rw [if_neg hempty, hdots, if_neg Bool.false_ne_true, hscan]
    exact if_neg hroot

end Grammar

end PathDoc
