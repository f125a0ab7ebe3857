import PathDoc.Proofs.Positions
import PathDoc.Refusal

/-!
# PathDoc.Proofs.Parsed — what can be said of a path that was read from a text

Such a path has a segment, and each of its lists of indexes has two entries or more
(`parsed_of_read`): a single one is an index.
-/

namespace PathDoc

/-- A segment that a text can denote: a list of indexes has at least two entries. -/
def Segment.IsParsed : Segment → Prop
  | indexes is => 2 ≤ is.length
  | _ => True

theorem Segment.IsParsed.isProper {s : Segment} (h : s.IsParsed) : s.isProper = true := by
  cases s with
  | indexes is =>
    cases is with
    | nil => exact absurd h (by simp [IsParsed])
    | cons i is => rfl
  | _ => rfl

/-! ### one piece -/

variable {cs : List Char} {s : Segment}

theorem length_of_mapM_eq_some {α β : Type} {f : α → Option β} {l : List α} {out : List β}
    (h : l.mapM f = some out) : out.length = l.length := by
  induction l generalizing out with
  | nil => rw [List.mapM_nil] at h; rw [← Option.some.inj h]; rfl
  | cons a l ih =>
    rw [List.mapM_cons] at h
    obtain ⟨b, -, h⟩ := Option.bind_eq_some_iff.mp h
    obtain ⟨bs, hbs, h⟩ := Option.bind_eq_some_iff.mp h
    rw [← Option.some.inj h, List.length_cons, List.length_cons, ih hbs]

theorem isParsed_of_span? (h : span? cs = some s) : s.IsParsed := by
  unfold span? at h
  split at h
  · split at h
    · rw [← Option.some.inj h]; trivial
    · rw [← Option.some.inj h]; trivial
    · simp at h
  · simp at h

theorem isParsed_of_indexes? (h : indexes? cs = some s) : s.IsParsed := by
  unfold indexes? at h
  cases hm : (cs.splitOn ',').mapM index? with
  | none => rw [hm] at h; simp at h
  | some is =>
    rw [hm] at h
    have hlen := length_of_mapM_eq_some hm
    have hpos := List.length_pos_iff.mpr (List.splitOn_ne_nil ',' cs)
    match is, h with
    | [], _ => simp at hlen; omega
    | [i], h => rw [← Option.some.inj h]; trivial
    | i :: j :: is, h =>
      rw [← Option.some.inj h]
      exact Nat.le_add_left 2 is.length

theorem isParsed_of_ofChars? (h : Segment.ofChars? cs = some s) : s.IsParsed := by
  have hname {cs : List Char} (h : ofName? cs = some s) : s.IsParsed := by
    unfold ofName? at h
    split at h
    · simp at h
    · rw [← Option.some.inj h]; trivial
  have hquoted {r : Option (List Char)} (h : r.map (fun name => .member (String.ofList name)) = some s) :
      s.IsParsed := by
    obtain ⟨name, -, rfl⟩ := Option.map_eq_some_iff.mp h
    trivial
  unfold Segment.ofChars? at h
  split at h
  · split at h
    · unfold ofSelector? at h
      split at h
      · exact hquoted h
      · exact hquoted h
      · rcases Option.or_eq_some_iff.mp ((Option.orElse_eq_or ..).symm.trans h) with h | ⟨-, h⟩
        · exact isParsed_of_span? h
        · exact isParsed_of_indexes? h
    · simp at h
  · exact hname h
  · exact hname h

/-! ### a path -/

theorem isParsed_of_segments? {ps : List (List Char)} {path : Path} (h : segments? ps = .ok path) :
    ∀ s ∈ path, s.IsParsed := by
  induction ps generalizing path with
  | nil => rw [← Except.ok.inj h]; simp
  | cons p ps ih =>
    rw [segments?_cons] at h
    cases hp : Segment.ofChars? p with
    | none => rw [hp] at h; simp at h
    | some s =>
      rw [hp] at h
      cases hs : segments? ps with
      | error e => rw [hs] at h; simp [Except.map] at h
      | ok rest =>
        rw [hs] at h
        rw [← Except.ok.inj h]
        exact List.forall_mem_cons.mpr ⟨isParsed_of_ofChars? hp, ih hs⟩

/-- To read a path is to read the pieces of an accepted text, of which there is one. -/
theorem Path.read_eq_ok_iff {text : String} {path : Path} : Path.read text = .ok path ↔
    ∃ cs, Grammar.accept text.toList = .ok cs ∧ path ≠ [] ∧
      segments? ((split cs).filter (· ≠ ['$'])) = .ok path := by
  unfold Path.read
  cases Grammar.accept text.toList with
  | error fault => simp
  | ok cs =>
    simp only [Except.ok.injEq, exists_eq_left', Path.ofText, Path.ofChars, String.toList_ofList]
    cases hs : segments? ((split cs).filter (· ≠ ['$'])) with
    | error e => simp
    | ok out =>
      cases out with
      | nil =>
        simp only [reduceCtorEq, Except.ok.injEq, false_iff, not_and]
        exact fun hne hnil => hne hnil.symm
      | cons s rest =>
        simp only [Except.ok.injEq]
        refine ⟨fun h => ⟨?_, h⟩, fun h => h.2⟩
        rw [← h]
        exact List.cons_ne_nil s rest

/-- **A path that was read** has a segment, and none of its lists of indexes is shorter than two. -/
theorem parsed_of_read {text : String} {path : Path} (h : Path.read text = .ok path) :
    path ≠ [] ∧ ∀ s ∈ path, s.IsParsed := by
  obtain ⟨cs, -, hne, hs⟩ := Path.read_eq_ok_iff.mp h
  exact ⟨hne, isParsed_of_segments? hs⟩

end PathDoc
