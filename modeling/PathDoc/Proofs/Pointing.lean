import PathDoc.Proofs.Blame
import PathDoc.Proofs.Drafts
import PathDoc.Proofs.OneStep
import PathDoc.Proofs.Printing

/-!
# PathDoc.Proofs.Pointing — a printed location points to its node

A location is a path that asks for one child at a time, and is printed as that path
(`Location.text_eq`).  So the text of a location of the document is read back as a path to the node
there and to nothing else (`Draft.query_text`), and this holds of the places that refusals name.  No
two locations have the same text: where a step ends can be told from the text alone, whatever stands in
the keys (`Step.text_append_inj`).
-/

namespace PathDoc

open Json Text

/-! ### the text of a location -/

/-- Whether the text of a location can be read: it is not that of the root, its positions fit 64 bits,
as those of every array in memory do, and no key contains two dots in a row. -/
structure Location.Readable (place : Location) : Prop where
  ne_nil : place ≠ []
  words : ∀ i : ℕ, .pos i ∈ place → fitsWord i = true
  names : ∀ name, .key name ∈ place → ¬ ['.', '.'] <:+: name.toList

theorem Step.text_segment (step : Step) : step.segment.text = step.text := by
  cases step <;> rfl

theorem Location.text_eq (place : Location) : Location.text place = Path.text place.path := by
  rw [Location.text, Path.text, Location.path, List.flatMap_map]
  simp only [Step.text_segment]

theorem Location.Readable.fitsWords {place : Location} (h : place.Readable) :
    place.path.FitsWords := by
  intro s hs i hi
  obtain ⟨step, hm, rfl⟩ := List.mem_map.mp hs
  cases step with
  | key name => exact absurd hi List.not_mem_nil
  | pos p =>
    rw [List.mem_singleton.mp hi]
    exact h.words p hm

theorem Location.Readable.printable {place : Location} (h : place.Readable) :
    place.path.Printable := by
  refine ⟨fun hnil => h.ne_nil (List.map_eq_nil_iff.mp hnil), fun is his => ?_, fun name hname => ?_⟩
  · obtain ⟨step, -, hstep⟩ := List.mem_map.mp his
    cases step <;> cases hstep
  · obtain ⟨step, hm, hstep⟩ := List.mem_map.mp hname
    cases step with
    | pos p => cases hstep
    | key k =>
      obtain rfl := Segment.member.inj hstep
      exact h.names k hm

/-- The text of a location is read as the path to it. -/
theorem Location.Readable.read_text {place : Location} (h : place.Readable) :
    Path.read (Location.text place) = .ok place.path := by
  rw [Location.text_eq]
  exact Path.read_text_of_printable h.fitsWords h.printable

/-! ### the node at a location -/

/-- The segment of a step to a child selects that child alone, and no index is outside. -/
theorem Step.children_segment {v c : Value} {step : Step} (hc : v.child? step = some c) :
    step.segment.children v = [(step, c)] ∧ step.segment.outside? v = none := by
  cases v <;> cases step <;> simp only [Value.child?, reduceCtorEq] at hc
  case obj.key ms name =>
    rw [Step.segment, Segment.children_member_obj, hc]
    exact ⟨rfl, Segment.outside?_member _ _⟩
  case arr.pos items p =>
    obtain ⟨hp, -⟩ := List.getElem?_eq_some_iff.mp hc
    have hplace : Index.place? (p : Int) items.length = some p :=
      Index.place?_eq_some_iff.mpr ⟨hp, .inl rfl⟩
    have hhits : (Segment.index p).hits items.length = [p] := by
      simp only [Segment.hits, Segment.indexList, List.filterMap_cons, hplace, List.filterMap_nil]
      rfl
    have hfits : (Segment.index p).fits (.arr items) = true := by
      rw [Segment.fits_index_arr, Index.reach_natCast, decide_eq_true_eq]
      exact hp
    refine ⟨?_, Segment.outside?_of_fits hfits⟩
    rw [Step.segment, Segment.children_arr, hhits]
    simp [hc]

/-- The path to a location that the document has leads there and nowhere else. -/
theorem Location.targets_path {v w : Value} {place : Location} (h : v.get? place = some w) :
    (Location.path place).Within v ∧ (Location.path place).targets v = [(place, w)] := by
  induction place generalizing v with
  | nil =>
    rw [Value.get?_nil, Option.some.injEq] at h
    rw [h]
    exact ⟨trivial, rfl⟩
  | cons step place ih =>
    rw [Value.get?_cons] at h
    obtain ⟨c, hc, h⟩ := Option.bind_eq_some_iff.mp h
    obtain ⟨hchildren, houtside⟩ := Step.children_segment hc
    obtain ⟨hwithin, htargets⟩ := ih h
    rw [Location.path_cons, Path.within_cons, Path.targets_cons, hchildren,
      List.flatMap_singleton, htargets]
    exact ⟨⟨houtside, List.forall_mem_singleton.mpr hwithin⟩, rfl⟩

/-! ### the places that refusals name -/

/-- The place that a fault of a write names holds the node that it names. -/
theorem Write.get?_of_fault_write {root node : Value} {path : Path} {job : Job} {place : Location}
    {fault : Fault} (hf : (root.write path job).fault = some fault)
    (h : fault = .clash place node ∨ fault = .discard place node) :
    root.get? place = some node := by
  rcases blames_write hf with ⟨before, i, -, rfl⟩ | hb
  · rcases h with h | h <;> cases h
  · rcases h with rfl | rfl
    · exact hb.1
    · exact hb.1

/-- A text that cannot be read is refused on its own account. -/
theorem cause_of_read_eq_error {text : String} {e : Refusal} {place : Location} {node : Value}
    (h : Path.read text = .error e) :
    ¬ ((∃ leaf, e.cause = .clash place node leaf) ∨ e.cause = .discard place node) := by
  unfold Path.read at h
  cases haccept : Grammar.accept text.toList with
  | error fault =>
    rw [haccept] at h
    obtain rfl := Except.error.inj h
    simp
  | ok cs =>
    rw [haccept] at h
    simp only [Path.ofText] at h
    cases hread : Path.ofChars (String.ofList cs).toList with
    | ok path =>
      rw [hread] at h
      cases h
    | error unreadable =>
      rw [hread] at h
      obtain rfl := Except.error.inj h
      cases unreadable <;> simp [Unreadable.cause]

namespace Draft

variable {d : Draft} {place : Location} {node : Value}

/-- **A printed location is read back** as its node. -/
theorem query_text (hplace : place.Readable) (h : d.root.get? place = some node) :
    d.query (Location.text place) = .ok [node] := by
  obtain ⟨hwithin, htargets⟩ := Location.targets_path h
  rw [query_eq_ok_iff_of_read hplace.read_text, query_eq_ok_iff, htargets]
  exact ⟨hwithin, rfl⟩

theorem first?_text (hplace : place.Readable) (h : d.root.get? place = some node) :
    d.first? (Location.text place) = .ok (some node) := by
  rw [first?, query_text hplace h]
  rfl

/-- What a refused write blames is a node of the document. -/
theorem get?_of_write_eq_error {text : String} {value : Option Value} {permission : Permission}
    {e : Refusal} (h : d.write text value permission = .error e)
    (he : (∃ leaf, e.cause = .clash place node leaf) ∨ e.cause = .discard place node) :
    d.root.get? place = some node := by
  rcases write_eq_error_cases h with hread | ⟨-, rfl⟩ | ⟨path, leaf, fault, -, hf, rfl⟩
  · exact absurd he (cause_of_read_eq_error hread)
  · rcases he with ⟨leaf, he⟩ | he <;> cases he
  · refine Write.get?_of_fault_write hf ?_
    rcases he with ⟨leaf', he⟩ | he
    · exact .inl (Fault.cause_eq_clash_iff.mp he).1
    · exact .inr (Fault.cause_eq_discard_iff.mp he)

end Draft

/-! ### one step in a longer text -/

/-- A name ends where the text goes on with something that ends names. -/
theorem isName_append_inj {m n x y : List Char} (hm : IsName m) (hn : IsName n)
    (hx : ∀ c ∈ x.head?, Grammar.endsName c = true) (hy : ∀ c ∈ y.head?, Grammar.endsName c = true)
    (h : m ++ x = n ++ y) : m = n ∧ x = y := by
  have hrest : x = y := by
    have hleft := Grammar.name_append hm hx
    rw [h, Grammar.name_append hn hy] at hleft
    exact (Except.ok.inj hleft).symm
  rw [hrest] at h
  exact ⟨List.append_cancel_right h, hrest⟩

/-- A quoted name ends with the first quote that no backslash escapes. -/
theorem quoted_append_inj {m n a b x y : List Char} (hm : Quoted '\'' a m) (hn : Quoted '\'' b n)
    (h : a ++ x = b ++ y) : m = n ∧ x = y := by
  have hrest : x = y := by
    have hleft := Grammar.string_append (by decide) hm x
    rw [h, Grammar.string_append (by decide) hn y] at hleft
    exact (Except.ok.inj hleft).symm
  rw [hrest] at h
  obtain rfl := List.append_cancel_right h
  have hname := unquote?_of_quoted (by decide) hm
  rw [unquote?_of_quoted (by decide) hn] at hname
  exact ⟨(Option.some.inj hname).symm, hrest⟩

/-- A number ends at the first character that is no digit. -/
theorem ofNat_append_inj {i j : ℕ} {x y : List Char} (hx : ∀ c ∈ x.head?, c.isDigit = false)
    (hy : ∀ c ∈ y.head?, c.isDigit = false) (h : Numeral.ofNat i ++ x = Numeral.ofNat j ++ y) :
    i = j ∧ x = y := by
  have hleft := Numeral.takeNat?_append (Numeral.ofNat_ne_nil i)
    (fun _ => Numeral.isDigit_of_mem_ofNat) hx
  rw [h, Numeral.takeNat?_append (Numeral.ofNat_ne_nil j)
    (fun _ => Numeral.isDigit_of_mem_ofNat) hy] at hleft
  obtain ⟨hvalue, hrest⟩ := Prod.mk.inj (Option.some.inj hleft)
  rw [Numeral.value_ofNat, Numeral.value_ofNat] at hvalue
  exact ⟨hvalue.symm, hrest.symm⟩

/-- A name follows a dot, or stands between quotes in a bracket. -/
theorem nameText_cases (name : List Char) :
    IsName name ∧ nameText name = '.' :: name ∨
      ∃ body, Quoted '\'' body name ∧ nameText name = '[' :: '\'' :: (body ++ [']']) := by
  by_cases hplain : isPlainName name = true
  · exact .inl ⟨(isName_of_isPlainName hplain).1, if_pos hplain⟩
  · refine .inr ⟨_, quoted_escape name, ?_⟩
    rw [nameText, if_neg hplain]
    simp

/-- What follows an opening bracket tells a key from a position. -/
theorem key_append_ne_pos (name : String) (i : ℕ) (x y : List Char) :
    (Step.key name).text ++ x ≠ (Step.pos i).text ++ y := by
  intro h
  rcases nameText_cases name.toList with ⟨-, htext⟩ | ⟨body, -, htext⟩
  · rw [Step.text, htext, Step.text] at h
    exact absurd (List.cons.inj h).1 (by decide)
  · obtain ⟨c, cs, hdigits⟩ := List.exists_cons_of_ne_nil (Numeral.ofNat_ne_nil i)
    have hc : c.isDigit = true := by
      refine Numeral.isDigit_of_mem_ofNat (n := i) ?_
      rw [hdigits]
      exact List.mem_cons_self
    rw [Step.text, htext, Step.text, hdigits] at h
    obtain ⟨hquote, -⟩ := List.cons.inj (List.cons.inj h).2
    rw [← hquote] at hc
    exact absurd hc (by decide)

/-- **A step ends where the text tells**: at the end, or at what can only start another step. -/
theorem Step.text_append_inj {s t : Step} {x y : List Char}
    (hx : ∀ c ∈ x.head?, Grammar.endsName c = true) (hy : ∀ c ∈ y.head?, Grammar.endsName c = true)
    (h : s.text ++ x = t.text ++ y) : s = t ∧ x = y := by
  cases s with
  | key m =>
    cases t with
    | pos j => exact absurd h (key_append_ne_pos m j x y)
    | key n =>
      have hname : m.toList = n.toList ∧ x = y := by
        rw [Step.text, Step.text] at h
        rcases nameText_cases m.toList with ⟨hm, hmtext⟩ | ⟨a, hm, hmtext⟩ <;>
          rcases nameText_cases n.toList with ⟨hn, hntext⟩ | ⟨b, hn, hntext⟩ <;>
          rw [hmtext, hntext] at h
        · exact isName_append_inj hm hn hx hy (List.cons.inj h).2
        · exact absurd (List.cons.inj h).1 (by decide)
        · exact absurd (List.cons.inj h).1 (by decide)
        · have hbody : a ++ (']' :: x) = b ++ (']' :: y) := by simpa using h
          obtain ⟨hname, hrest⟩ := quoted_append_inj hm hn hbody
          exact ⟨hname, (List.cons.inj hrest).2⟩
      exact ⟨congrArg Step.key (String.toList_inj.mp hname.1), hname.2⟩
  | pos i =>
    cases t with
    | key n => exact absurd h.symm (key_append_ne_pos n i y x)
    | pos j =>
      have hdigits : Numeral.ofNat i ++ (']' :: x) = Numeral.ofNat j ++ (']' :: y) := by
        simpa [Step.text] using h
      have hclose : ∀ z : List Char, ∀ c ∈ (']' :: z).head?, c.isDigit = false := by
        intro z c hc
        obtain rfl := Option.some.inj hc
        decide
      obtain ⟨hij, hrest⟩ := ofNat_append_inj (hclose x) (hclose y) hdigits
      exact ⟨congrArg Step.pos hij, (List.cons.inj hrest).2⟩

/-- Each step starts with what ends names. -/
theorem Step.exists_text_eq_cons (step : Step) :
    ∃ c cs, step.text = c :: cs ∧ Grammar.endsName c = true := by
  cases step with
  | pos i => exact ⟨_, _, rfl, by decide⟩
  | key name =>
    rcases nameText_cases name.toList with ⟨-, h⟩ | ⟨body, -, h⟩
    · exact ⟨_, _, h, by decide⟩
    · exact ⟨_, _, h, by decide⟩

theorem endsName_of_head?_text (place : Location) :
    ∀ c ∈ (place.flatMap Step.text).head?, Grammar.endsName c = true := by
  intro c hc
  cases place with
  | nil => cases hc
  | cons step place =>
    obtain ⟨d, cs, htext, hd⟩ := step.exists_text_eq_cons
    rw [List.flatMap_cons, htext] at hc
    obtain rfl := Option.some.inj hc
    exact hd

/-- The text of a step is not nothing. -/
theorem flatMap_text_ne_nil (step : Step) (place : Location) :
    (step :: place).flatMap Step.text ≠ [] := by
  obtain ⟨c, cs, htext, -⟩ := step.exists_text_eq_cons
  rw [List.flatMap_cons, htext]
  exact List.cons_ne_nil _ _

/-- **No two locations have the same text.** -/
theorem Location.text_inj {l m : Location} (h : Location.text l = Location.text m) : l = m := by
  have hsteps : l.flatMap Step.text = m.flatMap Step.text := by
    have htext := congrArg String.toList h
    rw [toList_text_location, toList_text_location] at htext
    exact (List.cons.inj htext).2
  clear h
  induction l generalizing m with
  | nil =>
    cases m with
    | nil => rfl
    | cons t m => exact absurd hsteps.symm (flatMap_text_ne_nil t m)
  | cons s l ih =>
    cases m with
    | nil => exact absurd hsteps (flatMap_text_ne_nil s l)
    | cons t m =>
      rw [List.flatMap_cons, List.flatMap_cons] at hsteps
      obtain ⟨rfl, hrest⟩ := Step.text_append_inj (endsName_of_head?_text l)
        (endsName_of_head?_text m) hsteps
      rw [ih hrest]

/-- **A printed location names its node, and no other.**  Where the document has a node, a reader of the
printed location finds that node alone; two locations are never printed alike; and the place that a
refused write blames, printed and read in the same document, gives the very node that is blamed. -/
theorem Location.text_points_to_node :
    (∀ (d : Draft) (place : Location) (node : Value), place.Readable →
      d.root.get? place = some node → d.query (Location.text place) = .ok [node]) ∧
    Function.Injective Location.text ∧
    (∀ (d : Draft) (path : Path) (job : Job) (fault : Fault) (place : Location) (node : Value),
      (d.root.write path job).fault = some fault →
      fault = .clash place node ∨ fault = .discard place node → place.Readable →
        d.first? (Location.text place) = .ok (some node)) ∧
    ∀ (d : Draft) (text : String) (value : Option Value) (permission : Permission) (e : Refusal)
      (place : Location) (node : Value), d.write text value permission = .error e →
      (∃ leaf, e.cause = .clash place node leaf) ∨ e.cause = .discard place node →
      place.Readable → d.first? (Location.text place) = .ok (some node) := by
  refine ⟨fun d place node hplace h => Draft.query_text hplace h, fun l m h => text_inj h,
    fun d path job fault place node hf hblame hplace => ?_,
    fun d text value permission e place node h he hplace => ?_⟩
  · have hget := Write.get?_of_fault_write hf hblame
    exact Draft.first?_text hplace hget
  · have hget := Draft.get?_of_write_eq_error h he
    exact Draft.first?_text hplace hget

/-- Keys that look like an index, a quote and a wildcard: a write is stopped by a row, whose place is
printed, read and found again; and the key `0` is not printed as the position `0`. -/
theorem Location.text_points_to_row :
    let row : Value := .obj [("*", .num (.int 1))]
    let d := Draft.ofValue (.obj [("[0]", .obj [("it's", .arr [.null, row])])])
    let place : Location := [.key "[0]", .key "it's", .pos 1]
    let text := "['[0]'][\"it's\"][-1][0]"
    place.Readable ∧ Location.text place = "$['[0]']['it\\'s'][1]" ∧
      d.root.get? place = some row ∧ d.query (Location.text place) = .ok [row] ∧
      d.write text (some .null) .normal = .error ⟨text, .clash place row .null⟩ ∧
      d.first? (Location.text place) = .ok (some row) ∧
      (d.root.write [.member "[0]", .member "it's", .index 1] ⟨.null, .normal⟩).fault =
        some (.discard place row) ∧
      Location.text [.key "0"] ≠ Location.text [.pos 0] := by
  intro row d place text
  have hplace : place.Readable := by
    refine ⟨List.cons_ne_nil _ _, fun i hi => ?_, fun name hname => ?_⟩
    · have hone : i = 1 := by simpa [place] using hi
      rw [hone]
      decide
    · have hkeys : name = "[0]" ∨ name = "it's" := by simpa [place] using hname
      rcases hkeys with rfl | rfl <;> rw [← Grammar.hasDoubleDot_iff] <;> decide +kernel
  have hget : d.root.get? place = some row := by rfl
  have hsome : (Path.read text).toOption =
      some [.member "[0]", .member "it's", .index (-1), .index 0] := by decide +kernel
  have hwrite : d.write text (some .null) .normal = .error ⟨text, .clash place row .null⟩ := by
    cases hr : Path.read text with
    | error e =>
      rw [hr] at hsome
      cases hsome
    | ok path =>
      rw [hr] at hsome
      rw [Draft.write, hr, Option.some.inj hsome]
      rfl
  have hfault : (d.root.write [.member "[0]", .member "it's", .index 1] ⟨.null, .normal⟩).fault =
      some (.discard place row) := by rfl
  obtain ⟨hread, hinj, -, hrefused⟩ := text_points_to_node
  refine ⟨hplace, by decide +kernel, hget, hread d place row hplace hget, hwrite, ?_, hfault, ?_⟩
  · exact hrefused d text _ _ _ place row hwrite (.inl ⟨.null, rfl⟩) hplace
  · intro h
    exact absurd (hinj h) (by decide)

end PathDoc
