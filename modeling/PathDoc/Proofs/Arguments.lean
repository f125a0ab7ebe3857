import Mathlib.Data.List.Basic
import Mathlib.Data.List.Forall2
import Mathlib.Data.List.Induction
import Mathlib.Data.List.TakeWhile
import PathDoc.CommandLine
import PathDoc.Proofs.Drafts

/-!
# PathDoc.Proofs.Arguments — what an invocation takes from its arguments

Arguments give items one after another (`GivenBy`): an option, `--seed` with the argument after it, or
a pair around a `=`.  They do so in one way at most (`GivenBy.unique`), and the reader takes them exactly if
they do (`take_eq_ok_iff`).  What it has taken in then depends on the items as `Invocation.Holds` says,
whatever their order: on the options as a set, on the last seed, and on the pairs as a list.  A run is
the fold of the writes over the pairs (`output_eq_foldlM`).
-/

namespace PathDoc

open Json

/-- An option without a value. -/
inductive Flag where
  | verbose
  | pretty
  | force
deriving DecidableEq

/-- The arguments that give an option. -/
def Flag.spellings : Flag → List String
  | verbose => ["-v", "--verbose"]
  | pretty => ["--pretty"]
  | force => ["--force"]

/-- What one or two arguments stand for. -/
inductive Item where
  | flag (f : Flag)
  | seed (text : String)
  | pair (arg : String)
deriving DecidableEq

/-- Whether an argument can be a pair: it is no option, does not look like one, and has a `=`. -/
def IsPairText (arg : String) : Prop :=
  (∀ f : Flag, arg ∉ f.spellings) ∧ ¬ ['-', '-'] <+: arg.toList ∧ '=' ∈ arg.toList

/-- Arguments that are a sequence of items; `--seed` takes the argument after it, whatever that is. -/
inductive GivenBy : List Item → List String → Prop where
  | nil : GivenBy [] []
  | flag {f : Flag} {arg : String} {items : List Item} {args : List String}
      (h : arg ∈ f.spellings) (rest : GivenBy items args) : GivenBy (.flag f :: items) (arg :: args)
  | seed {text : String} {items : List Item} {args : List String} (rest : GivenBy items args) :
      GivenBy (.seed text :: items) ("--seed" :: text :: args)
  | pair {arg : String} {items : List Item} {args : List String}
      (h : IsPairText arg) (rest : GivenBy items args) : GivenBy (.pair arg :: items) (arg :: args)

namespace Item

/-- The text of a seed. -/
def seed? : Item → Option String
  | seed text => some text
  | _ => none

/-- The argument of a pair. -/
def pair? : Item → Option String
  | pair arg => some arg
  | _ => none

end Item

/-- The arguments that are pairs, in their order. -/
def pairTexts (items : List Item) : List String := items.filterMap Item.pair?

/-- The text of the last seed. -/
def lastSeed? (items : List Item) : Option String := (items.filterMap Item.seed?).getLast?

/-- Whether an argument, cut at its first `=`, is that path and that value: the text after it as a
document, or else as a string. -/
def Denotes (arg : String) (pair : String × Value) : Prop :=
  ∃ raw : String, arg.toList = pair.1.toList ++ '=' :: raw.toList ∧ '=' ∉ pair.1.toList ∧
    pair.2 = (Value.ofText? raw).getD (.str raw)

/-- What an invocation holds of some items. -/
structure Invocation.Holds (inv : Invocation) (items : List Item) : Prop where
  verbose : inv.verbose = true ↔ .flag .verbose ∈ items
  pretty : inv.pretty = true ↔ .flag .pretty ∈ items
  force : inv.force = true ↔ .flag .force ∈ items
  seed : inv.seed = lastSeed? items
  pairs : List.Forall₂ Denotes (pairTexts items) inv.pairs

/-! ### one argument -/

variable {arg : String} {args : List String} {items items' : List Item} {inv out : Invocation}

/-- No argument gives two options. -/
theorem Flag.eq_of_mem_spellings {f g : Flag} (hf : arg ∈ f.spellings) (hg : arg ∈ g.spellings) :
    f = g := by
  cases f <;> cases g <;> simp_all [spellings]

theorem not_mem_spellings (hv : ¬ (arg = "-v" ∨ arg = "--verbose")) (hpretty : ¬ arg = "--pretty")
    (hforce : ¬ arg = "--force") (f : Flag) : arg ∉ f.spellings := by
  cases f <;> simp_all [Flag.spellings]

theorem not_mem_spellings_seed (f : Flag) : "--seed" ∉ f.spellings := by
  cases f <;> decide

/-- The reader of a pair cuts at the first `=`. -/
theorem Denotes.pair?_eq {pair : String × Value} (h : Denotes arg pair) : pair? arg = some pair := by
  obtain ⟨raw, hcut, hfirst, hvalue⟩ := h
  have hpath : ∀ c ∈ pair.1.toList, decide (c ≠ '=') = true := by
    intro c hc
    rw [decide_eq_true_eq]
    rintro rfl
    exact hfirst hc
  have htake : arg.toList.takeWhile (fun c => decide (c ≠ '=')) = pair.1.toList := by
    rw [hcut, List.takeWhile_append_of_pos hpath]
    simp
  have hdrop : arg.toList.dropWhile (fun c => decide (c ≠ '=')) = '=' :: raw.toList := by
    rw [hcut, List.dropWhile_append_of_pos hpath]
    simp
  simp only [pair?, hdrop, htake, String.ofList_toList, Value.ofArgument, ← hvalue]

theorem exists_denotes (h : '=' ∈ arg.toList) : ∃ pair, Denotes arg pair := by
  obtain ⟨path, raw, hcut, hfirst⟩ := List.eq_append_cons_of_mem h
  refine ⟨(String.ofList path, _), String.ofList raw, ?_, ?_, rfl⟩
  · rw [String.toList_ofList, String.toList_ofList, hcut]
  · rwa [String.toList_ofList]

theorem pair?_eq_none (h : '=' ∉ arg.toList) : pair? arg = none := by
  have hdrop : arg.toList.dropWhile (fun c => decide (c ≠ '=')) = [] := by
    refine List.dropWhile_eq_nil_iff.mpr fun c hc => ?_
    rw [decide_eq_true_eq]
    rintro rfl
    exact h hc
  rw [pair?, hdrop]

theorem IsPairText.ne_seed (h : IsPairText arg) : arg ≠ "--seed" := by
  rintro rfl
  exact h.2.1 (by decide)

/-! ### the items that arguments give -/

theorem pairTexts_concat (items : List Item) (item : Item) :
    pairTexts (items ++ [item]) = pairTexts items ++ item.pair?.toList := by
  cases item <;> simp [pairTexts, Item.pair?, List.filterMap_cons]

theorem GivenBy.isPairText (h : GivenBy items args) (hm : .pair arg ∈ items) : IsPairText arg := by
  induction h with
  | nil => exact absurd hm List.not_mem_nil
  | flag hf rest ih => exact ih (List.mem_of_ne_of_mem (by simp) hm)
  | seed rest ih => exact ih (List.mem_of_ne_of_mem (by simp) hm)
  | pair hp rest ih =>
    rcases List.mem_cons.mp hm with he | hm
    · rwa [Item.pair.inj he]
    · exact ih hm

theorem lastSeed?_concat (items : List Item) (item : Item) :
    lastSeed? (items ++ [item]) = item.seed?.or (lastSeed? items) := by
  cases item <;> simp [lastSeed?, Item.seed?, List.filterMap_cons]

theorem givenBy_flag_iff {f : Flag} (h : arg ∈ f.spellings) : GivenBy items (arg :: args) ↔
    ∃ rest, items = .flag f :: rest ∧ GivenBy rest args := by
  constructor
  · intro hs
    cases hs with
    | flag hg rest => exact ⟨_, by rw [Flag.eq_of_mem_spellings h hg], rest⟩
    | seed rest => exact absurd h (not_mem_spellings_seed f)
    | pair hp rest => exact absurd h (hp.1 f)
  · rintro ⟨rest, rfl, hs⟩
    exact .flag h hs

theorem givenBy_seed_iff {text : String} : GivenBy items ("--seed" :: text :: args) ↔
    ∃ rest, items = .seed text :: rest ∧ GivenBy rest args := by
  constructor
  · intro hs
    cases hs with
    | @flag g _ _ _ hg rest => exact absurd hg (not_mem_spellings_seed g)
    | seed rest => exact ⟨_, rfl, rest⟩
    | pair hp rest => exact absurd rfl hp.ne_seed
  · rintro ⟨rest, rfl, hs⟩
    exact .seed hs

theorem not_givenBy_seed_alone : ¬ GivenBy items ["--seed"] := by
  intro hs
  cases hs with
  | @flag g _ _ _ hg rest => exact not_mem_spellings_seed g hg
  | pair hp rest => exact hp.ne_seed rfl

theorem givenBy_pair_iff (hflag : ∀ f : Flag, arg ∉ f.spellings) (hseed : arg ≠ "--seed") :
    GivenBy items (arg :: args) ↔
      IsPairText arg ∧ ∃ rest, items = .pair arg :: rest ∧ GivenBy rest args := by
  constructor
  · intro hs
    cases hs with
    | @flag g _ _ _ hg rest => exact absurd hg (hflag g)
    | seed rest => exact absurd rfl hseed
    | pair hp rest => exact ⟨hp, _, rfl, rest⟩
  · rintro ⟨hp, rest, rfl, hs⟩
    exact .pair hp hs

/-- **Arguments are a sequence of items in one way at most.** -/
theorem GivenBy.unique (h : GivenBy items args) (h' : GivenBy items' args) : items = items' := by
  induction h generalizing items' with
  | nil =>
    cases h'
    rfl
  | flag hf rest ih =>
    obtain ⟨rest', rfl, hrest⟩ := (givenBy_flag_iff hf).mp h'
    rw [ih hrest]
  | seed rest ih =>
    obtain ⟨rest', rfl, hrest⟩ := givenBy_seed_iff.mp h'
    rw [ih hrest]
  | pair hp rest ih =>
    obtain ⟨-, rest', rfl, hrest⟩ := (givenBy_pair_iff hp.1 hp.ne_seed).mp h'
    rw [ih hrest]

/-! ### the reader -/

namespace Invocation

/-- Takes one item into an invocation. -/
def heed (inv : Invocation) : Item → Invocation
  | .flag .verbose => { inv with verbose := true }
  | .flag .pretty => { inv with pretty := true }
  | .flag .force => { inv with force := true }
  | .seed text => { inv with seed := some text }
  | .pair arg => { inv with pairs := inv.pairs ++ (pair? arg).toList }

/-- The item that comes first is taken in first. -/
theorem exists_givenBy_cons {item : Item} {more : List String}
    (h : ∀ items, GivenBy items more ↔ ∃ rest, items = item :: rest ∧ GivenBy rest args) :
    (∃ items, GivenBy items more ∧ out = items.foldl heed inv) ↔
      ∃ rest, GivenBy rest args ∧ out = rest.foldl heed (inv.heed item) := by
  constructor
  · rintro ⟨items, hs, rfl⟩
    obtain ⟨rest, rfl, hrest⟩ := (h items).mp hs
    exact ⟨rest, hrest, rfl⟩
  · rintro ⟨rest, hrest, rfl⟩
    exact ⟨item :: rest, (h _).mpr ⟨rest, rfl, hrest⟩, rfl⟩

/-- **The reader takes in the items that the arguments give**, and refuses arguments that give none. -/
theorem take_eq_ok_iff :
    take inv args = .ok out ↔ ∃ items, GivenBy items args ∧ out = items.foldl heed inv := by
  fun_induction take inv args with
  | case1 inv =>
    constructor
    · intro h
      exact ⟨[], .nil, (Except.ok.inj h).symm⟩
    · rintro ⟨items, hs, rfl⟩
      cases hs
      rfl
  | case2 inv arg args h ih =>
    have hmem : arg ∈ Flag.verbose.spellings := by simpa [Flag.spellings] using h
    rw [ih, exists_givenBy_cons fun items => givenBy_flag_iff hmem]
    rfl
  | case3 inv args h ih =>
    rw [ih, exists_givenBy_cons fun items => givenBy_flag_iff (f := .pretty) (by decide)]
    rfl
  | case4 inv args h h' ih =>
    rw [ih, exists_givenBy_cons fun items => givenBy_flag_iff (f := .force) (by decide)]
    rfl
  | case5 inv h h' h'' =>
    refine iff_of_false (by simp) ?_
    rintro ⟨items, hs, -⟩
    exact not_givenBy_seed_alone hs
  | case6 inv h h' h'' text args ih =>
    rw [ih, exists_givenBy_cons fun items => givenBy_seed_iff]
    rfl
  | case7 inv arg args hv hpretty hforce hseed hdash =>
    refine iff_of_false (by simp) ?_
    rintro ⟨items, hs, -⟩
    have hp := ((givenBy_pair_iff (not_mem_spellings hv hpretty hforce) hseed).mp hs).1
    exact hp.2.1 (List.isPrefixOf_iff_prefix.mp hdash)
  | case8 inv arg args hv hpretty hforce hseed hdash hnone =>
    refine iff_of_false (by simp) ?_
    rintro ⟨items, hs, -⟩
    have hp := ((givenBy_pair_iff (not_mem_spellings hv hpretty hforce) hseed).mp hs).1
    obtain ⟨pair, hpair⟩ := exists_denotes hp.2.2
    rw [hpair.pair?_eq] at hnone
    simp at hnone
  | case9 inv arg args hv hpretty hforce hseed hdash pair hpair ih =>
    have hflag := not_mem_spellings hv hpretty hforce
    have hp : IsPairText arg := by
      refine ⟨hflag, fun h => hdash (List.isPrefixOf_iff_prefix.mpr h), ?_⟩
      by_contra hmem
      rw [pair?_eq_none hmem] at hpair
      simp at hpair
    rw [ih, exists_givenBy_cons fun items => (givenBy_pair_iff hflag hseed).trans (and_iff_right hp), heed,
      hpair]
    rfl

/-! ### what has been taken in -/

theorem holds_nil : Holds {} [] := by
  constructor
  case pairs => exact .nil
  all_goals simp [lastSeed?]

/-- One more item, at the end. -/
theorem Holds.heed {item : Item} (h : inv.Holds items) (hp : ∀ arg, item = .pair arg → IsPairText arg) :
    (inv.heed item).Holds (items ++ [item]) := by
  constructor
  case pairs =>
    rw [pairTexts_concat]
    cases item with
    | pair arg =>
      obtain ⟨pair, hpair⟩ := exists_denotes (hp arg rfl).2.2
      rw [Invocation.heed, hpair.pair?_eq]
      exact List.rel_append h.pairs (.cons hpair .nil)
    | seed text => exact (List.append_nil _).symm ▸ h.pairs
    | flag f =>
      have hnone : (Item.flag f).pair?.toList = [] := rfl
      rw [hnone, List.append_nil]
      cases f <;> exact h.pairs
  case seed =>
    rw [lastSeed?_concat]
    cases item with
    | flag f => cases f <;> exact h.seed
    | seed text => rfl
    | pair arg => exact h.seed
  all_goals
    rw [List.mem_append, List.mem_singleton]
    cases item with
    | flag f => cases f <;> simp [Invocation.heed, h.verbose, h.pretty, h.force]
    | _ => simp [Invocation.heed, h.verbose, h.pretty, h.force]

/-- All that has been taken in from the start. -/
theorem holds_foldl (hp : ∀ arg, .pair arg ∈ items → IsPairText arg) :
    (items.foldl Invocation.heed {}).Holds items := by
  induction items using List.reverseRecOn with
  | nil => exact holds_nil
  | append_singleton items item ih =>
    rw [List.foldl_concat]
    refine (ih fun arg hm => hp arg (List.mem_append_left _ hm)).heed fun arg he => hp arg ?_
    rw [he]
    exact List.mem_append_right _ (List.mem_singleton_self _)

/-- Nothing else decides what an invocation is. -/
theorem Holds.eq {inv' : Invocation} (h : inv.Holds items) (h' : inv'.Holds items')
    (hflags : ∀ f, .flag f ∈ items ↔ .flag f ∈ items') (hseed : lastSeed? items = lastSeed? items')
    (hpairs : pairTexts items = pairTexts items') : inv = inv' := by
  have hsame : inv.pairs = inv'.pairs := by
    have hcut : Relator.RightUnique Denotes := fun arg p q hp hq =>
      Option.some.inj (hp.pair?_eq.symm.trans hq.pair?_eq)
    refine hcut.forall₂ h.pairs ?_
    rw [hpairs]
    exact h'.pairs
  have hverbose : inv.verbose = inv'.verbose := by
    rw [Bool.eq_iff_iff, h.verbose, h'.verbose, hflags]
  have hpretty : inv.pretty = inv'.pretty := by
    rw [Bool.eq_iff_iff, h.pretty, h'.pretty, hflags]
  have hforce : inv.force = inv'.force := by
    rw [Bool.eq_iff_iff, h.force, h'.force, hflags]
  have hseed' : inv.seed = inv'.seed := by rw [h.seed, h'.seed, hseed]
  cases inv
  cases inv'
  simp_all

/-- **What arguments are accepted**: sequences of items with a pair. -/
theorem read_eq_ok_iff : read args = .ok inv ↔
    ∃ items, GivenBy items args ∧ pairTexts items ≠ [] ∧ inv.Holds items := by
  have hread : read args = .ok inv ↔ take {} args = .ok inv ∧ inv.pairs ≠ [] := by
    unfold read
    cases take {} args with
    | error e => simp
    | ok out =>
      by_cases hp : out.pairs = []
      · simp only [List.isEmpty_iff.mpr hp, if_true]
        refine iff_of_false (by simp) ?_
        rintro ⟨he, hne⟩
        exact hne (Except.ok.inj he ▸ hp)
      · simp only [List.isEmpty_iff, if_neg hp]
        exact ⟨fun h => ⟨h, Except.ok.inj h ▸ hp⟩, And.left⟩
  rw [hread, take_eq_ok_iff]
  constructor
  · rintro ⟨⟨items, hs, rfl⟩, hpairs⟩
    have hholds : (items.foldl heed {}).Holds items := holds_foldl fun arg => hs.isPairText
    refine ⟨items, hs, fun hnil => hpairs ?_, hholds⟩
    have hnone := hholds.pairs
    rw [hnil] at hnone
    exact List.forall₂_nil_left_iff.mp hnone
  · rintro ⟨items, hs, hpairs, hholds⟩
    have hfold : (items.foldl heed {}).Holds items := holds_foldl fun arg => hs.isPairText
    refine ⟨⟨items, hs, hholds.eq hfold (fun _ => Iff.rfl) rfl rfl⟩, fun hnil => hpairs ?_⟩
    have hnone := hholds.pairs
    rw [hnil] at hnone
    exact List.forall₂_nil_right_iff.mp hnone

/-! ### a run -/

/-- Performs the write for one pair. -/
def step (force : Bool) (d : Draft) (pair : String × Value) : Except Refusal Draft :=
  if force then d.overwrite pair.1 (some pair.2) else d.put pair.1 (some pair.2)

theorem writeAll_eq_foldlM {d : Draft} (hd : d.options.priority = .normal) (force : Bool)
    (pairs : List (String × Value)) :
    d.writeAll (if force then .high else .normal) pairs = pairs.foldlM (step force) d := by
  induction pairs generalizing d with
  | nil => rfl
  | cons pair pairs ih =>
    obtain ⟨path, value⟩ := pair
    have hstep : step force d (path, value) =
        d.write path (some value) (if force then .high else .normal) := by
      cases force with
      | true => rfl
      | false =>
        show d.write path (some value) d.options.priority.permission = _
        rw [hd]
        rfl
    rw [Draft.writeAll, List.foldlM_cons, hstep]
    cases hw : d.write path (some value) (if force then .high else .normal) with
    | error e => rfl
    | ok e =>
      obtain ⟨_, _, _, _, _, rfl⟩ := Draft.write_eq_ok_iff.mp hw
      exact ih hd

/-- **A run** writes the pairs from the seed on, in their order, and stops at the first that is refused. -/
theorem output_eq_foldlM (inv : Invocation) : inv.output =
    match inv.seed.elim (some (.obj [])) Value.ofText? with
    | none => .error .badSeed
    | some root =>
      match inv.pairs.foldlM (step inv.force) ⟨root, ⟨.normal, inv.pretty⟩⟩ with
      | .error r => .error (.refused r)
      | .ok d => .ok d.text := by
  have hstart : inv.start? =
      (inv.seed.elim (some (.obj [])) Value.ofText?).map fun root => ⟨root, ⟨.normal, inv.pretty⟩⟩ := by
    unfold start?
    cases inv.seed with
    | none => rfl
    | some text =>
      simp only [Option.elim_some, Draft.ofText?, Option.map_map]
      rfl
  rw [output, hstart]
  cases inv.seed.elim (some (.obj [])) Value.ofText? with
  | none => rfl
  | some root =>
    have hall := writeAll_eq_foldlM (d := ⟨root, ⟨.normal, inv.pretty⟩⟩) rfl inv.force inv.pairs
    simp only [Option.map_some, ← hall]
    rfl

/-- **Options may stand anywhere.**  Arguments are accepted exactly if they are a sequence of items with a
pair, which they are in one way at most, and are then taken for what the items say: the pairs in their
order, each cut at its first `=`, the last seed, and the options that occur.  So two lists of arguments
with the same pairs in the same order, the same options and the same last seed are one invocation, with
one output: the seed, or an empty object, after the writes of the pairs in turn, up to the first that is
refused. -/
theorem options_stand_anywhere :
    (∀ args inv, read args = .ok inv ↔
      ∃ items, GivenBy items args ∧ pairTexts items ≠ [] ∧ inv.Holds items) ∧
    (∀ args items items', GivenBy items args → GivenBy items' args → items = items') ∧
    (∀ args args' inv inv' items items', read args = .ok inv → read args' = .ok inv' →
      GivenBy items args → GivenBy items' args' → pairTexts items = pairTexts items' →
      (∀ f, .flag f ∈ items ↔ .flag f ∈ items') → lastSeed? items = lastSeed? items' →
        inv = inv' ∧ inv.output = inv'.output) ∧
    ∀ inv : Invocation, inv.output =
      match inv.seed.elim (some (.obj [])) Value.ofText? with
      | none => .error .badSeed
      | some root =>
        match inv.pairs.foldlM (step inv.force) ⟨root, ⟨.normal, inv.pretty⟩⟩ with
        | .error r => .error (.refused r)
        | .ok d => .ok d.text := by
  refine ⟨fun args inv => read_eq_ok_iff, fun args items items' => GivenBy.unique, ?_, output_eq_foldlM⟩
  intro args args' inv inv' items items' hread hread' hs hs' hpairs hflags hseed
  obtain ⟨_, hs₁, -, hholds⟩ := read_eq_ok_iff.mp hread
  obtain ⟨_, hs₂, -, hholds'⟩ := read_eq_ok_iff.mp hread'
  obtain rfl := hs₁.unique hs
  obtain rfl := hs₂.unique hs'
  have hinv : inv = inv' := hholds.eq hholds' hflags hseed hpairs
  exact ⟨hinv, congrArg output hinv⟩

/-- An option that is swallowed as a seed, a seed that is given again, both spellings of an option, and
an option given twice. -/
theorem options_stand_anywhere_interleaved :
    let args := ["-v", "--seed", "--force", "a=1", "--pretty", "--seed", "[]", "b=x=y"]
    let items : List Item := [.flag .verbose, .seed "--force", .pair "a=1", .flag .pretty,
      .seed "[]", .pair "b=x=y"]
    let args' := ["a=1", "--pretty", "--pretty", "--verbose", "b=x=y", "--seed", "[]"]
    let items' : List Item := [.pair "a=1", .flag .pretty, .flag .pretty, .flag .verbose,
      .pair "b=x=y", .seed "[]"]
    let inv : Invocation :=
      ⟨true, true, false, some "[]", [("a", .num (.int 1)), ("b", .str "x=y")]⟩
    GivenBy items args ∧ GivenBy items' args' ∧ pairTexts items = pairTexts items' ∧
      (∀ f, .flag f ∈ items ↔ .flag f ∈ items') ∧ lastSeed? items = lastSeed? items' ∧
      read args = .ok inv ∧ read args' = .ok inv := by
  intro args items args' items' inv
  have hpair {arg : String} (h : ¬ ['-', '-'] <+: arg.toList ∧ '=' ∈ arg.toList)
      (hflag : arg ∉ ["-v", "--verbose", "--pretty", "--force"]) : IsPairText arg := by
    simp only [List.mem_cons, List.not_mem_nil, or_false, not_or] at hflag
    exact ⟨not_mem_spellings (not_or.mpr ⟨hflag.1, hflag.2.1⟩) hflag.2.2.1 hflag.2.2.2, h⟩
  have ha : IsPairText "a=1" := hpair (by decide) (by decide)
  have hb : IsPairText "b=x=y" := hpair (by decide) (by decide)
  have hs : GivenBy items args :=
    .flag (by decide) (.seed (.pair ha (.flag (by decide) (.seed (.pair hb .nil)))))
  have hs' : GivenBy items' args' :=
    .pair ha (.flag (by decide) (.flag (by decide) (.flag (by decide) (.pair hb (.seed .nil)))))
  have hflags : ∀ f, .flag f ∈ items ↔ .flag f ∈ items' := by
    intro f
    cases f <;> decide
  have hread : read args = .ok inv := by rfl
  have hpairs : pairTexts items = pairTexts items' := by decide
  have hseed : lastSeed? items = lastSeed? items' := by decide
  obtain ⟨haccepted, hunique, -, -⟩ := options_stand_anywhere
  obtain ⟨items₀, hs₀, hne, hholds⟩ := (haccepted args inv).mp hread
  rw [hunique args items₀ items hs₀ hs] at hne hholds
  have hholds' : inv.Holds items' :=
    ⟨hholds.verbose.trans (hflags _), hholds.pretty.trans (hflags _), hholds.force.trans (hflags _),
      hholds.seed.trans hseed, hpairs ▸ hholds.pairs⟩
  have hread' : read args' = .ok inv :=
    (haccepted args' inv).mpr ⟨items', hs', hpairs ▸ hne, hholds'⟩
  exact ⟨hs, hs', hpairs, hflags, hseed, hread, hread'⟩

end Invocation

end PathDoc
