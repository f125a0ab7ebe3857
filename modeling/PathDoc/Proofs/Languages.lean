import Mathlib.Computability.Language
import PathDoc.Proofs.Recognising

/-!
# PathDoc.Proofs.Languages — the language of paths

The grammar of paths once more, as an expression over languages and with no word on what a piece
denotes: `Form.path` is put together from the forms of names, integers and strings by union,
concatenation and iteration.  Each form is that of a rule of `SpellsPath`; so the recogniser accepts the
language and nothing else (`Grammar.scan_eq_ok_iff_mem_path`).
-/

namespace PathDoc

open Text
open scoped Computability

namespace Form

/-! ### the forms -/

/-- A given text. -/
def just (cs : List Char) : Language Char := {cs}

/-- White space, or nothing. -/
def blanks : Language Char := {cs | ∀ c ∈ cs, isBlank c = true}

/-- A name: some characters, none of them a dot or a square bracket. -/
def name : Language Char := {cs | cs ≠ [] ∧ ∀ c ∈ cs, c ≠ '.' ∧ c ≠ '[' ∧ c ≠ ']'}

/-- A name that does not start with a given character. -/
def nameWithout (first : Char) : Language Char := {cs | cs ∈ name ∧ cs.head? ≠ some first}

/-- The decimal digits of a number less than a limit. -/
def natural (limit : ℕ) : Language Char :=
  {cs | cs ≠ [] ∧ (∀ c ∈ cs, c.isDigit = true) ∧ Numeral.value cs < limit}

/-- An integer of 64 bits: at least `-2 ^ 63`, and less than `2 ^ 63`. -/
def integer : Language Char := natural (2 ^ 63) + just ['-'] * natural (2 ^ 63 + 1)

/-- A character of a string that stands for itself. -/
def plain (quote : Char) : Language Char := {cs | ∃ c, c ≠ quote ∧ c ≠ '\\' ∧ cs = [c]}

/-- A backslash with one of the characters that may follow it. -/
def escape : Language Char := {cs | ∃ c ∈ ['n', 't', 'r', '\\', '\'', '"'], cs = ['\\', c]}

/-- What follows the opening quote of a string. -/
def quoted (quote : Char) : Language Char := (plain quote + escape)∗ * just [quote]

/-- An integer between blanks. -/
def padded : Language Char := blanks * integer * blanks

/-- One integer, or more with commas between them. -/
def integers : Language Char := padded * (just [','] * padded)∗

/-- An end of a span: an integer, or nothing. -/
def bound : Language Char := blanks + padded

/-- What stands in a bracket. -/
def selector : Language Char :=
  just ['\''] * quoted '\'' + just ['"'] * quoted '"' + just ['*'] + integers +
    bound * just [':'] * bound

/-- A piece of a path. -/
def segment : Language Char :=
  just ['.', '*'] + just ['.'] * nameWithout '*' +
    just ['['] * (blanks * selector * blanks) * just [']']

/-- How a path starts: with the root sign, with a name, or with its first piece. -/
def head : Language Char := just ['$'] + nameWithout '$' + 1

/-- A path: a head and then pieces, but not the empty text. -/
def path : Language Char := head * segment∗ - 1

/-! ### union, concatenation and iteration -/

variable {L M : Language Char} {c : Char} {cs ds : List Char}

theorem mem_just_mul_iff : cs ∈ just ds * L ↔ ∃ rest ∈ L, cs = ds ++ rest := by
  rw [Language.mem_mul]
  constructor
  · rintro ⟨a, rfl, rest, hrest, rfl⟩
    exact ⟨rest, hrest, rfl⟩
  · rintro ⟨rest, hrest, rfl⟩
    exact ⟨ds, rfl, rest, hrest, rfl⟩

theorem mem_mul_just_iff : cs ∈ L * just ds ↔ ∃ front ∈ L, cs = front ++ ds := by
  rw [Language.mem_mul]
  constructor
  · rintro ⟨front, hfront, a, rfl, rfl⟩
    exact ⟨front, hfront, rfl⟩
  · rintro ⟨front, hfront, rfl⟩
    exact ⟨front, hfront, ds, rfl, rfl⟩

theorem append_mem_kstar (hc : cs ∈ L) (hd : ds ∈ L∗) : cs ++ ds ∈ L∗ := by
  have h : cs ++ ds ∈ L * L∗ := Language.append_mem_mul hc hd
  exact Set.mem_of_mem_of_subset h (mul_kstar_le_kstar (a := L))

/-- **Induction on an iteration**, from its end. -/
theorem kstar_induction {P : List Char → Prop} (nil : P [])
    (append : ∀ part rest, part ∈ L → P rest → P (part ++ rest)) (h : cs ∈ L∗) : P cs := by
  obtain ⟨parts, rfl, hparts⟩ := Language.mem_kstar.mp h
  clear h
  induction parts with
  | nil => exact nil
  | cons part parts ih =>
    rw [List.forall_mem_cons] at hparts
    exact append part parts.flatten hparts.1 (ih hparts.2)

/-! ### the forms of the rules -/

theorem mem_name_iff : cs ∈ name ↔ IsName cs := by
  refine and_congr_right fun _ => forall₂_congr fun c _ => ?_
  simp [Grammar.endsName, and_assoc]

theorem mem_nameWithout_iff : cs ∈ nameWithout c ↔ IsName cs ∧ cs.head? ≠ some c :=
  and_congr_left' mem_name_iff

theorem mem_integer_iff : cs ∈ integer ↔ ∃ i, SpellsInt cs i := by
  have hfits (n : ℕ) : fitsWord n = true ↔ n < 2 ^ 63 := by
    rw [fitsWord, Bool.and_eq_true, decide_eq_true_eq, decide_eq_true_eq]
    omega
  have hfitsNeg (n : ℕ) : fitsWord (-(n : Int)) = true ↔ n < 2 ^ 63 + 1 := by
    rw [fitsWord, Bool.and_eq_true, decide_eq_true_eq, decide_eq_true_eq]
    omega
  rw [integer, Language.mem_add, mem_just_mul_iff]
  constructor
  · rintro (⟨hne, hds, hw⟩ | ⟨ds, ⟨hne, hds, hw⟩, rfl⟩)
    · exact ⟨_, .nonneg hne hds ((hfits _).mpr hw)⟩
    · exact ⟨_, .neg hne hds ((hfitsNeg _).mpr hw)⟩
  · rintro ⟨i, ⟨hne, hds, hw⟩ | ⟨hne, hds, hw⟩⟩
    · exact .inl ⟨hne, hds, (hfits _).mp hw⟩
    · exact .inr ⟨_, ⟨hne, hds, (hfitsNeg _).mp hw⟩, rfl⟩

theorem mem_quoted_iff {quote : Char} : cs ∈ quoted quote ↔ ∃ name, Quoted quote cs name := by
  constructor
  · intro h
    obtain ⟨front, hfront, rfl⟩ := mem_mul_just_iff.mp h
    refine kstar_induction (P := fun cs => ∃ name, Quoted quote (cs ++ [quote]) name)
      ⟨[], .close⟩ (fun part rest hpart ih => ?_) hfront
    obtain ⟨name, hname⟩ := ih
    rcases hpart with ⟨c, hq, hb, rfl⟩ | ⟨c, hc, rfl⟩
    · exact ⟨c :: name, .plain hq hb hname⟩
    · have he : Grammar.isEscapable c = true := by
        simpa [Grammar.isEscapable, or_assoc] using hc
      exact ⟨unescape c :: name, .escape he hname⟩
  · rintro ⟨name, h⟩
    rw [quoted, mem_mul_just_iff]
    induction h with
    | close => exact ⟨[], Language.nil_mem_kstar _, rfl⟩
    | @plain c cs name hq hb _ ih =>
      obtain ⟨front, hfront, rfl⟩ := ih
      have hc : [c] ∈ plain quote + escape := .inl ⟨c, hq, hb, rfl⟩
      exact ⟨[c] ++ front, append_mem_kstar hc hfront, rfl⟩
    | @escape c cs name he _ ih =>
      obtain ⟨front, hfront, rfl⟩ := ih
      have hc : ['\\', c] ∈ plain quote + escape :=
        .inr ⟨c, by simpa [Grammar.isEscapable, or_assoc] using he, rfl⟩
      exact ⟨['\\', c] ++ front, append_mem_kstar hc hfront, rfl⟩

theorem mem_padded_iff : cs ∈ padded ↔ ∃ i, Padded cs i := by
  constructor
  · rintro ⟨_, ⟨a, ha, n, hn, rfl⟩, b, hb, rfl⟩
    obtain ⟨i, hi⟩ := mem_integer_iff.mp hn
    exact ⟨i, .intro ha hi hb⟩
  · rintro ⟨i, ⟨ha, hi, hb⟩⟩
    have hn := mem_integer_iff.mpr ⟨i, hi⟩
    exact Language.append_mem_mul (Language.append_mem_mul ha hn) hb

theorem mem_integers_iff : cs ∈ integers ↔ ∃ is, SpellsInts cs is := by
  constructor
  · rintro ⟨first, hfirst, more, hmore, rfl⟩
    -- what has been read so far is a list, whatever integer stands in front
    refine kstar_induction (P := fun more => ∀ first ∈ padded, ∃ is, SpellsInts (first ++ more) is)
      (fun first hfirst => ?_) (fun part rest hpart ih first hfirst => ?_) hmore first hfirst
    · obtain ⟨i, hi⟩ := mem_padded_iff.mp hfirst
      rw [List.append_nil]
      exact ⟨[i], .one hi⟩
    · obtain ⟨i, hi⟩ := mem_padded_iff.mp hfirst
      obtain ⟨next, hnext, rfl⟩ := mem_just_mul_iff.mp hpart
      obtain ⟨is, his⟩ := ih next hnext
      exact ⟨i :: is, .more hi his⟩
  · rintro ⟨is, h⟩
    induction h with
    | @one cs i h =>
      have hcs : cs ∈ padded := mem_padded_iff.mpr ⟨i, h⟩
      exact ⟨cs, hcs, [], Language.nil_mem_kstar _, List.append_nil cs⟩
    | @more cs ds i is h _ ih =>
      have hcs : cs ∈ padded := mem_padded_iff.mpr ⟨i, h⟩
      obtain ⟨next, hnext, more, hmore, rfl⟩ := ih
      have hpart : ',' :: next ∈ just [','] * padded := mem_just_mul_iff.mpr ⟨next, hnext, rfl⟩
      exact ⟨cs, hcs, ',' :: next ++ more, append_mem_kstar hpart hmore, rfl⟩

theorem mem_bound_iff : cs ∈ bound ↔ ∃ o, Bound cs o := by
  rw [bound, Language.mem_add, mem_padded_iff]
  constructor
  · rintro (h | ⟨i, h⟩)
    · exact ⟨none, .absent h⟩
    · exact ⟨some i, .given h⟩
  · rintro ⟨o, h | h⟩
    · exact .inl h
    · exact .inr ⟨_, h⟩

theorem mem_selector_iff : cs ∈ selector ↔ ∃ s, Selects cs s := by
  have hstring (quote : Char) (hq : quote = '\'' ∨ quote = '"') :
      cs ∈ just [quote] * quoted quote → ∃ s, Selects cs s := by
    intro h
    obtain ⟨body, hbody, rfl⟩ := mem_just_mul_iff.mp h
    obtain ⟨name, hname⟩ := mem_quoted_iff.mp hbody
    exact ⟨_, .quoted hq hname⟩
  rw [selector, Language.mem_add, Language.mem_add, Language.mem_add, Language.mem_add]
  constructor
  · rintro ((((h | h) | rfl) | h) | ⟨_, ⟨start, hstart, _, rfl, rfl⟩, stop, hstop, rfl⟩)
    · exact hstring '\'' (.inl rfl) h
    · exact hstring '"' (.inr rfl) h
    · exact ⟨none, .wildcard⟩
    · obtain ⟨is, his⟩ := mem_integers_iff.mp h
      exact ⟨_, .positions his⟩
    · obtain ⟨i, hi⟩ := mem_bound_iff.mp hstart
      obtain ⟨j, hj⟩ := mem_bound_iff.mp hstop
      show ∃ s, Selects (start ++ [':'] ++ stop) s
      rw [List.append_assoc]
      exact ⟨_, .span hi hj⟩
  · rintro ⟨s, h⟩
    cases h with
    | @quoted quote body name hq h =>
      have hbody : quote :: body ∈ just [quote] * quoted quote :=
        mem_just_mul_iff.mpr ⟨body, mem_quoted_iff.mpr ⟨name, h⟩, rfl⟩
      rcases hq with rfl | rfl
      · exact .inl (.inl (.inl (.inl hbody)))
      · exact .inl (.inl (.inl (.inr hbody)))
    | wildcard => exact .inl (.inl (.inr rfl))
    | positions h => exact .inl (.inr (mem_integers_iff.mpr ⟨_, h⟩))
    | @span start stop i j hi hj =>
      have hstart : start ++ [':'] ∈ bound * just [':'] :=
        Language.append_mem_mul (mem_bound_iff.mpr ⟨i, hi⟩) rfl
      have hspan := Language.append_mem_mul hstart (mem_bound_iff.mpr ⟨j, hj⟩)
      rw [List.append_assoc] at hspan
      exact .inr hspan

theorem mem_segment_iff : cs ∈ segment ↔ ∃ s, Spells cs s := by
  rw [segment, Language.mem_add, Language.mem_add, mem_just_mul_iff, mem_mul_just_iff]
  constructor
  · rintro ((rfl | ⟨n, hn, rfl⟩) | ⟨front, hfront, rfl⟩)
    · exact ⟨none, .wildcard⟩
    · obtain ⟨hname, hstar⟩ := mem_nameWithout_iff.mp hn
      exact ⟨_, .name hname hstar⟩
    · obtain ⟨_, ⟨_, ⟨a, ha, n, hn, rfl⟩, b, hb, rfl⟩, rfl⟩ := mem_just_mul_iff.mp hfront
      obtain ⟨s, hs⟩ := mem_selector_iff.mp hn
      exact ⟨s, .bracket ha hs hb⟩
  · rintro ⟨s, h⟩
    cases h with
    | wildcard => exact .inl (.inl rfl)
    | @name n hn hstar => exact .inl (.inr ⟨n, mem_nameWithout_iff.mpr ⟨hn, hstar⟩, rfl⟩)
    | @bracket a n b s ha h hb =>
      have hn : a ++ n ++ b ∈ blanks * selector * blanks :=
        Language.append_mem_mul (Language.append_mem_mul ha (mem_selector_iff.mpr ⟨s, h⟩)) hb
      exact .inr ⟨'[' :: (a ++ n ++ b), mem_just_mul_iff.mpr ⟨_, hn, rfl⟩, rfl⟩

theorem mem_segments_iff : cs ∈ segment∗ ↔ ∃ ps, SpellsAll cs ps := by
  constructor
  · intro h
    refine kstar_induction (P := fun cs => ∃ ps, SpellsAll cs ps) ⟨[], .nil⟩
      (fun part rest hpart ih => ?_) h
    obtain ⟨s, hs⟩ := mem_segment_iff.mp hpart
    obtain ⟨ps, hps⟩ := ih
    exact ⟨(part, s) :: ps, .cons hs hps⟩
  · rintro ⟨ps, h⟩
    induction h with
    | nil => exact Language.nil_mem_kstar _
    | cons h _ ih => exact append_mem_kstar (mem_segment_iff.mpr ⟨_, h⟩) ih

/-- **The language of paths is that of the rules.** -/
theorem mem_path_iff : cs ∈ path ↔ ∃ ps, SpellsPath cs ps := by
  rw [path, Language.mem_sub, Language.mem_one]
  constructor
  · rintro ⟨⟨first, hfirst, rest, hrest, rfl⟩, hne⟩
    obtain ⟨ps, hps⟩ := mem_segments_iff.mp hrest
    rcases hfirst with (rfl | hn) | rfl
    · exact ⟨ps, .root hps⟩
    · obtain ⟨hname, hroot⟩ := mem_nameWithout_iff.mp hn
      exact ⟨_, .name hname hroot hps⟩
    · exact ⟨ps, .pieces hne hps⟩
  · rintro ⟨ps, h⟩
    cases h with
    | @root cs ps h =>
      have hhead : ['$'] ∈ head := .inl (.inl rfl)
      exact ⟨⟨['$'], hhead, cs, mem_segments_iff.mpr ⟨ps, h⟩, rfl⟩, List.cons_ne_nil _ _⟩
    | pieces hne h =>
      have hhead : [] ∈ head := .inr rfl
      exact ⟨⟨[], hhead, cs, mem_segments_iff.mpr ⟨ps, h⟩, rfl⟩, hne⟩
    | @name n cs ps hn hd h =>
      have hhead : n ∈ head := .inl (.inr (mem_nameWithout_iff.mpr ⟨hn, hd⟩))
      refine ⟨⟨n, hhead, cs, mem_segments_iff.mpr ⟨ps, h⟩, rfl⟩, ?_⟩
      exact List.append_ne_nil_of_left_ne_nil hn.1 cs

end Form

/-- **The recogniser accepts exactly the language of paths.** -/
theorem Grammar.scan_eq_ok_iff_mem_path (text : String) :
    Grammar.scan text.toList = .ok () ↔ text.toList ∈ Form.path := by
  rw [Form.mem_path_iff]
  constructor
  · intro h
    exact exists_spellsPath_of_scan h
  · rintro ⟨ps, h⟩
    exact scan_of_spellsPath h

end PathDoc
