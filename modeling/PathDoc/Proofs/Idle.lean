import PathDoc.Session

/-!
# PathDoc.Proofs.Idle — requests that leave no trace

A request is idle if it only reads, if it is refused, or if it is a removal that hands nothing back.
An idle request leaves the session as it is, whatever its write has left of the tree that it worked on
(`answer_of_isIdle`).  So a run of requests and the run of those among them that are not idle give these
the same replies and end in the same session.
-/

namespace PathDoc

open Json

/-- Whether the request asks for nothing but a reply. -/
def Request.isReading : Request → Bool
  | first _ | query _ | text | prettyText | document | options | equalsSaved => true
  | _ => false

/-- Whether the request, with that reply to it, has changed nothing. -/
def Request.isIdle : Request → Reply → Bool
  | _, .refused _ => true
  | .take _, .node none => true
  | q, _ => q.isReading

namespace Draft

/-- A removal that hands nothing back gives the draft that it was asked of. -/
theorem eq_of_take_eq_none {d d' : Draft} {text : String} (h : d.take text = .ok (none, d')) :
    d' = d := by
  unfold take at h
  split at h
  · simp at h
  · simp only at h
    split at h
    · exact (Prod.mk.inj (Except.ok.inj h)).2.symm
    · simp at h

end Draft

namespace Session

/-- The requests of a run that are not idle, each with its reply. -/
def effective (s : Session) (qs : List Request) : List (Request × Reply) :=
  (qs.zip (s.answerAll qs).1).filter fun e => !e.1.isIdle e.2

variable {s : Session} {q : Request}

theorem answer_of_isReading (h : q.isReading = true) : (s.answer q).2 = s := by
  cases q with
  | first | query => exact report_snd s _ _
  | text | prettyText | document | options | equalsSaved => rfl
  | _ => simp [Request.isReading] at h

theorem answer_take_of_none {path : String} (h : (s.answer (.take path)).1 = .node none) :
    (s.answer (.take path)).2 = s := by
  cases ht : s.draft.take path with
  | error e =>
    simp only [answer, ht] at h
    simp at h
  | ok r =>
    obtain ⟨removed, d⟩ := r
    simp only [answer, ht, Reply.node.injEq] at h ⊢
    rw [h] at ht
    rw [Draft.eq_of_take_eq_none ht]

/-- **An idle request leaves the session as it is.** -/
theorem answer_of_isIdle (h : q.isIdle (s.answer q).1 = true) : (s.answer q).2 = s := by
  unfold Request.isIdle at h
  split at h
  · next hr => exact answer_of_refused hr
  · next hr => exact answer_take_of_none hr
  · exact answer_of_isReading h

theorem effective_cons (s : Session) (q : Request) (qs : List Request) :
    s.effective (q :: qs) = if q.isIdle (s.answer q).1 then (s.answer q).2.effective qs
      else (q, (s.answer q).1) :: (s.answer q).2.effective qs := by
  rw [effective, answerAll_cons, List.zip_cons_cons, List.filter_cons]
  cases q.isIdle (s.answer q).1 <;> rfl

/-- The run of the requests that are not idle. -/
theorem answerAll_effective (s : Session) (qs : List Request) :
    s.answerAll ((s.effective qs).map Prod.fst) =
      ((s.effective qs).map Prod.snd, (s.answerAll qs).2) := by
  induction qs generalizing s with
  | nil => rfl
  | cons q qs ih =>
    rw [effective_cons, answerAll_cons]
    cases h : q.isIdle (s.answer q).1 with
    | true =>
      rw [if_pos rfl, answer_of_isIdle h]
      exact ih s
    | false =>
      rw [if_neg Bool.false_ne_true, List.map_cons, List.map_cons, answerAll_cons, ih]

/-- **Nothing of an idle request is ever seen.**  It leaves the draft and its copy as they are; and a run
of which all idle requests are left out gives every other request the reply that it had, and ends in the
same session. -/
theorem idle_requests_leave_no_trace :
    (∀ (s : Session) (q : Request), q.isIdle (s.answer q).1 = true → (s.answer q).2 = s) ∧
    ∀ (s : Session) (qs : List Request),
      s.answerAll ((s.effective qs).map Prod.fst) =
        ((s.effective qs).map Prod.snd, (s.answerAll qs).2) :=
  ⟨fun _ _ => answer_of_isIdle, answerAll_effective⟩

/-- A write that is refused half way: it has written the first row of the tree that it worked on.  With
it, a removal of what is not there and a reading are left out of the run. -/
theorem idle_requests_leave_no_trace_of_rows :
    let one : Value := .num (.int 1)
    let root := Value.obj [("rows", .arr [.obj [], .num (.int 5), .obj [("t", one)]])]
    let s := start (.ofValue root)
    let halfway : Request := .put "rows[0,1].t" (some .null) (some .low)
    let write : Request := .put "rows[2].u" (some one) none
    let taking : Request := .take "rows[2].t"
    let qs := [halfway, write, .take "rows[0].t", .query "rows[0:]", taking]
    let left : Session := ⟨.ofValue (.obj [("rows", .arr [.obj [], .num (.int 5),
      .obj [("u", one)]])]), .ofValue root⟩
    (root.write [.member "rows", .indexes [0, 1], .member "t"] ⟨.null, .low⟩).result =
        .obj [("rows", .arr [.obj [("t", .null)], .num (.int 5), .obj [("t", one)]])] ∧
      halfway.isIdle (s.answer halfway).1 = true ∧ (s.answer halfway).2 = s ∧
      (s.answerAll qs).2 = left ∧
      s.answerAll [write, taking] = ([.done, .node (some one)], left) := by
  intro one root s halfway write taking qs left
  let s' : Session := ⟨.ofValue (.obj [("rows", .arr [.obj [], .num (.int 5),
    .obj [("t", one), ("u", one)]])]), .ofValue root⟩
  obtain ⟨r, hhalf⟩ : ∃ r, s.answer halfway = (.refused r, s) := ⟨_, rfl⟩
  have hwrite : s.answer write = (.done, s') := by rfl
  have hnone : s'.answer (.take "rows[0].t") = (.node none, s') := by rfl
  obtain ⟨found, hquery⟩ : ∃ found, s'.answer (.query "rows[0:]") = (.nodes found, s') := ⟨_, rfl⟩
  have htake : s'.answer taking = (.node (some one), left) := by rfl
  have hidle : halfway.isIdle (s.answer halfway).1 = true := by
    rw [hhalf]
    rfl
  have hend : (s.answerAll qs).2 = left := by
    simp only [qs, answerAll_cons, answerAll_nil, hhalf, hwrite, hnone, hquery, htake]
  have hkept : s.effective qs = [(write, .done), (taking, .node (some one))] := by
    simp only [qs, effective_cons, hhalf, hwrite, hnone, hquery, htake]
    rfl
  have hrun := idle_requests_leave_no_trace.2 s qs
  rw [hkept, hend] at hrun
  exact ⟨by rfl, hidle, idle_requests_leave_no_trace.1 s halfway hidle, hend, hrun⟩

end Session

end PathDoc
