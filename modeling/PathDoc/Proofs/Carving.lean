import PathDoc.Path.Reader
import PathDoc.Proofs.Spelling

/-!
# PathDoc.Proofs.Carving — the reader carves a path as the grammar does

The reader cuts a text with an automaton that knows brackets and quotes.  It goes over what stands in
a bracket of the grammar without a cut (`runs_of_selects`), so that its pieces are those of the
grammar (`filter_split`).
-/

namespace PathDoc

open Text

/-! ### cutting -/

/-- The automaton goes over a text without a cut. -/
inductive Place.Runs : Place → List Char → Place → Prop where
  | nil (place : Place) : Runs place [] place
  | cons {p q : Place} {c : Char} {cs : List Char} (hc : p.cutsBefore c = false)
    (h : Runs (p.next c) cs q) : Runs p (c :: cs) q

variable {cs ds p : List Char} {s : Option Segment}

theorem Place.Runs.append {p q r : Place} (h : p.Runs cs q) (h' : q.Runs ds r) :
    p.Runs (cs ++ ds) r := by
  induction h with
  | nil => exact h'
  | cons hc _ ih => exact .cons hc (ih h')

theorem pieces_append {p q : Place} (h : p.Runs cs q) (ds : List Char) :
    pieces p (cs ++ ds) = (cs ++ (pieces q ds).1, (pieces q ds).2) := by
  induction h with
  | nil => rfl
  | cons hc _ ih =>
    simp only [List.cons_append, pieces, ih, hc, Bool.false_eq_true, if_false]

/-- A piece that a cut starts. -/
theorem pieces_cons_append {c : Char} (hc : Place.plain.cutsBefore c = true)
    (h : (Place.plain.next c).Runs cs .plain) (ds : List Char) :
    pieces .plain (c :: cs ++ ds) =
      ([], (c :: (cs ++ (pieces .plain ds).1)) :: (pieces .plain ds).2) := by
  simp only [List.cons_append, pieces, pieces_append h, hc, if_true]

theorem runs_plain (h : ∀ c ∈ cs, Grammar.endsName c = false) : Place.plain.Runs cs .plain := by
  induction cs with
  | nil => exact .nil _
  | cons c cs ih =>
    rw [List.forall_mem_cons] at h
    obtain ⟨hc, hcs⟩ := h
    simp only [Grammar.endsName, Bool.or_eq_false_iff] at hc
    refine .cons (by rw [Place.cutsBefore, hc.1.1, hc.1.2]; rfl) ?_
    rw [Place.next, if_neg (by simpa using hc.1.2)]
    exact ih hcs

theorem runs_bracket (h1 : '\'' ∉ cs) (h2 : '"' ∉ cs) (h3 : ']' ∉ cs) :
    Place.bracket.Runs cs .bracket := by
  induction cs with
  | nil => exact .nil _
  | cons c cs ih =>
    rw [List.mem_cons, not_or] at h1 h2 h3
    refine .cons rfl ?_
    rw [Place.next, if_neg (not_or.mpr ⟨Ne.symm h1.1, Ne.symm h2.1⟩), if_neg (Ne.symm h3.1)]
    exact ih h1.2 h2.2 h3.2

theorem runs_quoted {quote : Char} (hq : quote ≠ '\\') {body name : List Char}
    (h : Quoted quote body name) : (Place.quoted quote).Runs body .bracket := by
  induction h with
  | close =>
    refine .cons rfl ?_
    rw [Place.next, if_neg hq, if_pos rfl]
    exact .nil _
  | plain hc hb _ ih =>
    refine .cons rfl ?_
    rw [Place.next, if_neg hb, if_neg hc]
    exact ih
  | escape _ _ ih =>
    refine .cons rfl ?_
    rw [Place.next, if_pos rfl]
    exact .cons rfl ih

/-! ### the characters of an index -/

/-- No character of an integer between blanks. -/
def IsDelimiter (d : Char) : Prop := isBlank d = false ∧ d.isDigit = false ∧ d ≠ '-'

instance : DecidablePred IsDelimiter := fun d =>
  inferInstanceAs (Decidable (isBlank d = false ∧ d.isDigit = false ∧ d ≠ '-'))

section Delimiters

variable {d : Char} (hd : IsDelimiter d)
include hd

theorem not_mem_of_blanks (h : Blanks cs) : d ∉ cs := by
  intro hmem
  exact Bool.false_ne_true (hd.1.symm.trans (h d hmem))

theorem not_mem_of_digits (h : ∀ c ∈ cs, c.isDigit = true) : d ∉ cs := by
  intro hmem
  exact Bool.false_ne_true (hd.2.1.symm.trans (h d hmem))

theorem not_mem_of_padded {i : Int} (h : Padded cs i) : d ∉ cs := by
  obtain ⟨ha, hn, hb⟩ := h
  rw [List.append_assoc, List.mem_append, List.mem_append, not_or, not_or]
  refine ⟨not_mem_of_blanks hd ha, ?_, not_mem_of_blanks hd hb⟩
  rcases hn with ⟨-, hds, -⟩ | ⟨-, hds, -⟩
  · exact not_mem_of_digits hd hds
  · exact List.not_mem_cons_of_ne_of_not_mem hd.2.2 (not_mem_of_digits hd hds)

theorem not_mem_of_spellsInts (hcomma : d ≠ ',') {is : List Int} (h : SpellsInts cs is) :
    d ∉ cs := by
  induction h with
  | one h => exact not_mem_of_padded hd h
  | more h _ ih =>
    rw [List.mem_append, List.mem_cons, not_or, not_or]
    exact ⟨not_mem_of_padded hd h, hcomma, ih⟩

theorem not_mem_of_bound {o : Option Int} (h : Bound cs o) : d ∉ cs := by
  rcases h with h | h
  · exact not_mem_of_blanks hd h
  · exact not_mem_of_padded hd h

theorem not_mem_of_bounds (hcolon : d ≠ ':') {start stop : Option Int} (hs : Bound cs start)
    (ht : Bound ds stop) : d ∉ cs ++ ':' :: ds := by
  rw [List.mem_append, List.mem_cons, not_or, not_or]
  exact ⟨not_mem_of_bound hd hs, hcolon, not_mem_of_bound hd ht⟩

end Delimiters

/-! ### cutting along the grammar -/

/-- What stands in a bracket leaves the automaton there. -/
theorem runs_of_selects (h : Selects cs s) : Place.bracket.Runs cs .bracket := by
  cases h with
  | @quoted quote body name hq h =>
    have hslash : quote ≠ '\\' := by
      rcases hq with rfl | rfl <;> decide
    refine .cons rfl ?_
    rw [Place.next, if_pos hq]
    exact runs_quoted hslash h
  | wildcard => exact runs_bracket (by decide) (by decide) (by decide)
  | positions h =>
    have hmem {d : Char} (hd : IsDelimiter d ∧ d ≠ ',') : d ∉ cs :=
      not_mem_of_spellsInts hd.1 hd.2 h
    exact runs_bracket (hmem (by decide)) (hmem (by decide)) (hmem (by decide))
  | @span cs ds start stop hs ht =>
    have hmem {d : Char} (hd : IsDelimiter d ∧ d ≠ ':') : d ∉ cs ++ ':' :: ds :=
      not_mem_of_bounds hd.1 hd.2 hs ht
    exact runs_bracket (hmem (by decide)) (hmem (by decide)) (hmem (by decide))

/-- **Cutting at one piece** of the grammar. -/
theorem pieces_of_spells (h : Spells p s) (ds : List Char) (hds : (pieces .plain ds).1 = []) :
    pieces .plain (p ++ ds) = ([], p :: (pieces .plain ds).2) := by
  have hcut {c : Char} (hc : Place.plain.cutsBefore c = true) {cs : List Char}
      (hr : (Place.plain.next c).Runs cs .plain) :
      pieces .plain (c :: cs ++ ds) = ([], (c :: cs) :: (pieces .plain ds).2) := by
    rw [pieces_cons_append hc hr, hds, List.append_nil]
  cases h with
  | wildcard => exact hcut rfl (runs_plain (List.forall_mem_singleton.mpr rfl))
  | name h _ => exact hcut rfl (runs_plain h.2)
  | @bracket a cs b s ha h hb =>
    have hrun {x : List Char} (hx : Blanks x) : Place.bracket.Runs x .bracket :=
      runs_bracket (not_mem_of_blanks (by decide) hx) (not_mem_of_blanks (by decide) hx)
        (not_mem_of_blanks (by decide) hx)
    have hclose : Place.bracket.Runs [']'] .plain := .cons rfl (.nil _)
    exact hcut rfl ((((hrun ha).append (runs_of_selects h)).append (hrun hb)).append hclose)

theorem pieces_of_spellsAll {ps : List (List Char × Option Segment)} (h : SpellsAll cs ps) :
    pieces .plain cs = ([], ps.map Prod.fst) := by
  induction h with
  | nil => rfl
  | @cons p cs s ps h _ ih =>
    rw [pieces_of_spells h cs (by rw [ih]), ih]
    rfl

theorem split_append {n : List Char} (hne : n ≠ []) (hn : ∀ c ∈ n, Grammar.endsName c = false)
    {ps : List (List Char × Option Segment)} (h : SpellsAll cs ps) :
    split (n ++ cs) = n :: ps.map Prod.fst := by
  have hp : pieces .plain (n ++ cs) = (n, ps.map Prod.fst) := by
    rw [pieces_append (runs_plain hn), pieces_of_spellsAll h, List.append_nil]
  cases n with
  | nil => exact absurd rfl hne
  | cons c n => simp only [split, hp]

theorem ne_root_of_spells (h : Spells p s) : p ≠ ['$'] := by
  cases h <;> simp

theorem filter_pieces {ps : List (List Char × Option Segment)} (h : SpellsAll cs ps) :
    (ps.map Prod.fst).filter (· ≠ ['$']) = ps.map Prod.fst := by
  induction h with
  | nil => rfl
  | cons h _ ih =>
    have hp := ne_root_of_spells h
    rw [List.map_cons, List.filter_cons_of_pos (by simpa using hp), ih]

/-- **The pieces of a path** are those of the grammar; the root sign is none of them. -/
theorem filter_split {ps : List (List Char × Option Segment)} (h : SpellsPath cs ps) :
    (split cs).filter (· ≠ ['$']) = ps.map Prod.fst := by
  cases h with
  | @root cs ps h =>
    have hs : split (['$'] ++ cs) = ['$'] :: ps.map Prod.fst :=
      split_append (List.cons_ne_nil _ _) (List.forall_mem_singleton.mpr rfl) h
    rw [List.singleton_append] at hs
    rw [hs, List.filter_cons_of_neg (by simp), filter_pieces h]
  | pieces _ h =>
    have hs : split cs = ps.map Prod.fst := by
      simp only [split, pieces_of_spellsAll h]
    rw [hs, filter_pieces h]
  | @name n cs ps hn hd h =>
    have hr : n ≠ ['$'] := by
      rintro rfl
      exact hd rfl
    rw [split_append hn.1 hn.2 h, List.filter_cons_of_pos (by simpa using hr), filter_pieces h]
    rfl

end PathDoc
