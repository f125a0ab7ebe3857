import PathDoc.Draft

/-!
# PathDoc.Session — a draft worked on request by request

A session holds a draft and a copy put aside. `Session.answer` performs one request, `answerAll`
requests in order. A refused request leaves the session as it is (`answer_of_refused`).
-/

namespace PathDoc

open Json

/-- What can be asked of a session. -/
inductive Request where
  | put (path : String) (value : Option Value) (priority : Option Priority)
  | overwrite (path : String) (value : Option Value)
  | take (path : String)
  | first (path : String)
  | query (path : String)
  | text
  | prettyText
  | document
  | reset
  | setOptions (options : Options)
  | options
  | save
  | restore
  | equalsSaved

/-- What a session answers. -/
inductive Reply where
  | done
  | node (found : Option Value)
  | nodes (found : List Value)
  | text (s : String)
  | options (o : Options)
  | truth (b : Bool)
  | refused (r : Refusal)

/-- A draft, and a copy put aside. -/
structure Session where
  draft : Draft
  saved : Draft

namespace Session

/-- A session whose copy is the draft that it starts with. -/
def start (d : Draft) : Session := ⟨d, d⟩

/-- Takes over the draft that a write gives. -/
def commit (s : Session) : Except Refusal Draft → Reply × Session
  | .ok d => (.done, { s with draft := d })
  | .error e => (.refused e, s)

/-- Replies to a reading and keeps the session. -/
def report (s : Session) {α : Type} (reply : α → Reply) : Except Refusal α → Reply × Session
  | .ok a => (reply a, s)
  | .error e => (.refused e, s)

/-- Performs one request. -/
def answer (s : Session) : Request → Reply × Session
  | .put path value none => s.commit (s.draft.put path value)
  | .put path value (some priority) => s.commit (s.draft.putWith path value priority)
  | .overwrite path value => s.commit (s.draft.overwrite path value)
  | .take path =>
    match s.draft.take path with
    | .ok (removed, d) => (.node removed, { s with draft := d })
    | .error e => (.refused e, s)
  | .first path => s.report .node (s.draft.first? path)
  | .query path => s.report .nodes (s.draft.query path)
  | .text => (.text s.draft.text, s)
  | .prettyText => (.text s.draft.root.prettyText, s)
  | .document => (.node (some s.draft.root), s)
  | .reset => (.done, { s with draft := s.draft.reset })
  | .setOptions options => (.done, { s with draft := { s.draft with options } })
  | .options => (.options s.draft.options, s)
  | .save => (.done, { s with saved := s.draft })
  | .restore => (.done, { s with draft := s.saved })
  | .equalsSaved => (.truth (s.draft == s.saved), s)

/-- Performs requests in order. -/
def answerAll (s : Session) : List Request → List Reply × Session
  | [] => ([], s)
  | q :: more =>
    let r := s.answer q
    let rest := r.2.answerAll more
    (r.1 :: rest.1, rest.2)

@[simp] theorem answerAll_nil (s : Session) : s.answerAll [] = ([], s) := rfl

theorem answerAll_cons (s : Session) (q : Request) (more : List Request) :
    s.answerAll (q :: more) =
      ((s.answer q).1 :: ((s.answer q).2.answerAll more).1,
        ((s.answer q).2.answerAll more).2) := rfl

/-- A reading leaves the session as it is. -/
theorem report_snd (s : Session) {α : Type} (reply : α → Reply) (e : Except Refusal α) :
    (s.report reply e).2 = s := by
  cases e <;> rfl

/-- A refused request leaves the session as it is. -/
theorem answer_of_refused {s : Session} {q : Request} {r : Refusal}
    (h : (s.answer q).1 = .refused r) : (s.answer q).2 = s := by
  have commit {e : Except Refusal Draft} (h : (s.commit e).1 = .refused r) :
      (s.commit e).2 = s := by cases e <;> simp_all [Session.commit]
  cases q with
  | put path value priority => cases priority <;> exact commit h
  | overwrite => exact commit h
  | take path =>
    simp only [answer] at h ⊢
    split at h <;> simp_all
  | first | query => exact report_snd s _ _
  | text | prettyText | document | options | equalsSaved => rfl
  | reset | setOptions | save | restore => simp [answer] at h

end Session

end PathDoc
