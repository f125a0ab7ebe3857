import PathDoc.Proofs.Denoting

/-!
# PathDoc.Proofs.Agreement — the recogniser and the reader agree

The recogniser goes over a text by recursion, the reader cuts it and reads the pieces.  Both follow the
grammar: what the recogniser accepts is spelled by its rules, and the reader gives the segments that
they denote, or stops at the first piece that denotes none (`Path.ofText_agrees_with_grammar`).
-/

namespace PathDoc

open Text

variable {cs p : List Char} {s : Option Segment} {ps : List (List Char × Option Segment)}

/-! ### pieces without a segment -/

/-- A wildcard, or a colon alone in a bracket. -/
inductive IsUnsupported : List Char → Prop where
  | star : IsUnsupported ['*']
  | dotStar : IsUnsupported ['.', '*']
  | bracket {a b : List Char} {c : Char} (hc : c = '*' ∨ c = ':') (ha : Blanks a) (hb : Blanks b) :
    IsUnsupported ('[' :: (a ++ [c] ++ b ++ [']']))

theorem ofChars?_of_isUnsupported (h : IsUnsupported p) : Segment.ofChars? p = none := by
  cases h with
  | star => rfl
  | dotStar => rfl
  | bracket hc ha hb =>
    rw [ofChars?_bracket, ofSelector?_pad ha hb]
    rcases hc with rfl | rfl <;> rfl

/-- Only a star and a colon stand in a bracket for no segment. -/
theorem exists_of_selects (h : Selects cs s) (hs : s = none) :
    ∃ a b c, Blanks a ∧ Blanks b ∧ (c = '*' ∨ c = ':') ∧ cs = a ++ [c] ++ b := by
  cases h with
  | quoted => exact absurd hs (Option.some_ne_none _)
  | wildcard => exact ⟨[], [], '*', blanks_nil, blanks_nil, .inl rfl, rfl⟩
  | positions => exact absurd hs (Option.some_ne_none _)
  | @span cs ds start stop hstart hstop =>
    rcases hstart with ha | hstart
    · rcases hstop with hb | hstop
      · exact ⟨cs, ds, ':', ha, hb, .inr rfl, by simp⟩
      · exact absurd hs (Option.some_ne_none _)
    · exact absurd hs (Option.some_ne_none _)

theorem isUnsupported_of_spells (h : Spells p s) (hs : s = none) : IsUnsupported p := by
  cases h with
  | wildcard => exact .dotStar
  | name => exact absurd hs (Option.some_ne_none _)
  | @bracket a cs b s ha h hb =>
    obtain ⟨a', b', c, ha', hb', hc, rfl⟩ := exists_of_selects h hs
    have he : a ++ (a' ++ [c] ++ b') ++ b = (a ++ a') ++ [c] ++ (b' ++ b) := by simp
    rw [he]
    exact .bracket hc (ha.append ha') (hb'.append hb)

/-- The pieces of a path that denote no segment. -/
theorem eq_none_iff_isUnsupported (h : SpellsPath cs ps) {q : List Char × Option Segment}
    (hq : q ∈ ps) : q.2 = none ↔ IsUnsupported q.1 := by
  constructor
  · intro hnone
    rcases spells_or_isName h q hq with hp | ⟨-, he⟩
    · exact isUnsupported_of_spells hp hnone
    · by_cases hs : q.1 = ['*']
      · rw [hs]
        exact .star
      · rw [he, if_neg hs] at hnone
        exact absurd hnone (Option.some_ne_none _)
  · intro hu
    rw [← ofChars?_of_mem h q hq, ofChars?_of_isUnsupported hu]

/-! ### pieces in a row -/

theorem exists_segments?_eq_ok (hread : ∀ q ∈ ps, Segment.ofChars? q.1 = q.2)
    (hall : ∀ q ∈ ps, q.2 ≠ none) :
    ∃ path, ps.map Prod.snd = path.map some ∧ segments? (ps.map Prod.fst) = .ok path := by
  induction ps with
  | nil => exact ⟨[], rfl, rfl⟩
  | cons q ps ih =>
    rw [List.forall_mem_cons] at hread hall
    obtain ⟨s, hs⟩ := Option.ne_none_iff_exists'.mp hall.1
    obtain ⟨path, hmap, hpath⟩ := ih hread.2 hall.2
    refine ⟨s :: path, ?_, ?_⟩
    · rw [List.map_cons, List.map_cons, hs, hmap]
    · rw [List.map_cons, segments?_cons, hread.1, hs, hpath]
      rfl

theorem segments?_eq_error {before after : List (List Char × Option Segment)}
    (hread : ∀ q ∈ before, Segment.ofChars? q.1 = q.2) (hall : ∀ q ∈ before, q.2 ≠ none)
    (hp : Segment.ofChars? p = none) :
    segments? ((before ++ (p, s) :: after).map Prod.fst) = .error (.unsupported p) := by
  induction before with
  | nil => rw [List.nil_append, List.map_cons, segments?_cons, hp]
  | cons q before ih =>
    rw [List.forall_mem_cons] at hread hall
    obtain ⟨s, hs⟩ := Option.ne_none_iff_exists'.mp hall.1
    rw [List.cons_append, List.map_cons, segments?_cons, hread.1, hs, ih hread.2 hall.2]
    rfl

/-! ### paths -/

/-- A path has a piece, unless it is the root sign. -/
theorem ne_nil_of_spellsPath (h : SpellsPath cs ps) (hroot : cs ≠ ['$']) : ps ≠ [] := by
  rintro rfl
  cases h with
  | root h =>
    cases h
    exact hroot rfl
  | pieces hne h =>
    cases h
    exact hne rfl

theorem scan_of_accept {text : List Char} (h : Grammar.accept text = .ok cs) :
    Grammar.scan cs = .ok () ∧ cs ≠ ['$'] :=
  (Grammar.accept_eq_ok_iff.mp h).2.2

/-- **The recogniser and the reader agree.**  A text that the recogniser accepts follows the grammar.
However it does, the reader gives a segment for each of its pieces, the one that the piece denotes; or
it names the first of them that is a wildcard or a colon alone, and only those denote none. -/
theorem Path.ofText_agrees_with_grammar {text : List Char} (h : Grammar.accept text = .ok cs) :
    (∃ ps, SpellsPath cs ps) ∧
      ∀ ps, SpellsPath cs ps →
        (∀ q ∈ ps, q.2 = none ↔ IsUnsupported q.1) ∧
        ((∀ q ∈ ps, ¬ IsUnsupported q.1) →
          ∃ path, path ≠ [] ∧ ps.map Prod.snd = path.map some ∧
            Path.ofText (String.ofList cs) = .ok path) ∧
        (∀ before q after, ps = before ++ q :: after → (∀ r ∈ before, ¬ IsUnsupported r.1) →
          IsUnsupported q.1 →
            Path.ofText (String.ofList cs) =
              .error ⟨String.ofList cs, .unsupported (String.ofList q.1)⟩) := by
  obtain ⟨hscan, hroot⟩ := scan_of_accept h
  refine ⟨Grammar.exists_spellsPath_of_scan hscan, fun ps hps => ?_⟩
  have hread := ofChars?_of_mem hps
  have hnone : ∀ q ∈ ps, q.2 = none ↔ IsUnsupported q.1 := fun q hq =>
    eq_none_iff_isUnsupported hps hq
  refine ⟨hnone, fun hall => ?_, ?_⟩
  · obtain ⟨path, hmap, hpath⟩ :=
      exists_segments?_eq_ok hread fun q hq hq' => hall q hq ((hnone q hq).mp hq')
    have hne : path ≠ [] := by
      rintro rfl
      exact ne_nil_of_spellsPath hps hroot (List.map_eq_nil_iff.mp hmap)
    refine ⟨path, hne, hmap, ?_⟩
    rw [Path.ofText, Path.ofChars, String.toList_ofList, filter_split hps, hpath]
    cases path with
    | nil => exact absurd rfl hne
    | cons s path => rfl
  · rintro before q after rfl hbefore hq
    have herror : segments? ((before ++ q :: after).map Prod.fst) = .error (.unsupported q.1) := by
      refine segments?_eq_error (fun r hr => hread r (List.mem_append_left _ hr))
        (fun r hr hr' => ?_) (ofChars?_of_isUnsupported hq)
      exact hbefore r hr ((hnone r (List.mem_append_left _ hr)).mp hr')
    rw [Path.ofText, Path.ofChars, String.toList_ofList, filter_split hps, herror]
    rfl

/-- A name with a dot and a quote in it, and then a colon between blanks. -/
theorem Path.ofText_agrees_on_colon :
    let cs := ['$', '[', '\'', '.', '\\', '\'', '\'', ']', '[', ' ', ':', ' ', ']']
    Grammar.accept (' ' :: cs) = .ok cs ∧
      Path.ofText (String.ofList cs) =
        .error ⟨String.ofList cs, .unsupported (String.ofList ['[', ' ', ':', ' ', ']'])⟩ := by
  intro cs
  have haccept : Grammar.accept (' ' :: cs) = .ok cs := by rfl
  have hblank : Blanks [' '] := by
    intro c hc
    rw [List.mem_singleton.mp hc]
    rfl
  have hname : Spells ['[', '\'', '.', '\\', '\'', '\'', ']']
      (some (.member (String.ofList ['.', '\'']))) :=
    @Spells.bracket [] ['\'', '.', '\\', '\'', '\''] [] _ blanks_nil
      (.quoted (.inl rfl) (.plain (by decide) (by decide) (.escape (by decide) .close))) blanks_nil
  have hcolon : Spells ['[', ' ', ':', ' ', ']'] none :=
    @Spells.bracket [' '] [':'] [' '] _ hblank
      (@Selects.span [] [] _ _ (.absent blanks_nil) (.absent blanks_nil)) hblank
  have hps : SpellsPath cs _ := .root (.cons hname (.cons hcolon .nil))
  obtain ⟨-, hagree⟩ := Path.ofText_agrees_with_grammar haccept
  obtain ⟨hnone, -, herror⟩ := hagree _ hps
  have hbefore : ∀ r ∈ [(['[', '\'', '.', '\\', '\'', '\'', ']'],
      some (Segment.member (String.ofList ['.', '\''])))], ¬ IsUnsupported r.1 := by
    intro r hr
    rw [List.mem_singleton.mp hr, ← hnone _ List.mem_cons_self]
    exact Option.some_ne_none _
  have hq : IsUnsupported ['[', ' ', ':', ' ', ']'] :=
    @IsUnsupported.bracket [' '] [' '] ':' (.inr rfl) hblank hblank
  exact ⟨haccept, herror _ (_, none) [] rfl hbefore hq⟩

end PathDoc
