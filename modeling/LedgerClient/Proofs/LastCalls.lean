import LedgerClient.Proofs.FailedCalls
import LedgerClient.Proofs.Guards

/-!
# The last call of a session

A session can be closed at any moment: between two deliveries, while its listener is called, or
while it waits for its checkpointer.  A call that is running may come to its end.  After that the
listener is not called again (`Watch.no_call_after_close`), with one exception: a block listener
whose session was closed while it asked where its checkpoint is, and which is called about the block
in hand when the answer comes (`called_when_closed_while_asking`).
-/

namespace LedgerClient

namespace Session

variable {s : Session}

theorem notice?_of_work {s' : Session} (h : s'.work = s.work) (ha : s'.audience = s.audience) :
    s'.notice? = s.notice? := by
  unfold notice? question?
  rw [h, ha]

theorem notice?_eq_none {q : Question} (h : s.question? = some q) (hq : ∀ l n, q ≠ .tell l n) :
    s.notice? = none := by
  unfold notice?
  rw [h]
  split
  · next l n heq => exact absurd (Option.some.inj heq) (hq l n)
  · rfl

/-- A session waits for the position of its checkpoint, and its listener may be called as soon as
it is there. -/
def Asking (s : Session) : Prop := ∃ n go, s.work = some (n, .askNext go) ∧ ∀ r, (go r).Guarded true

/-- The answer leads to one call at most. -/
theorem Asking.answer (h : s.Asking) (hr : s.removed = true) {r : Response}
    (hexpects : s.expects r = true) : (s.answer r).Hushed := by
  obtain ⟨n, go, hw, hgo⟩ := h
  obtain ⟨b, rfl⟩ : ∃ b, r = .next b := by
    cases r <;> simp_all [expects]
  have hanswer : s.answer (.next b) = s.follow n (go b) := by simp only [Session.answer, hw]
  rw [hanswer]
  refine ⟨(s.removed_follow n _).trans hr, fun k p hp => ?_⟩
  rw [(work_follow hp).2]
  exact (hgo b).unguard _

end Session

namespace Watch

/-- The calls of the listener that have begun: those that came to an end, and the one that is
running. -/
def called (a : Watch) : List Notice := a.account.told.map Prod.fst ++ a.session.notice?.toList

section Steps

variable (opens : Checkpoint → Session) {a : Watch} {e : Incident}

theorem called_of_work {b : Watch} (hw : b.session.work = a.session.work)
    (ha : b.session.audience = a.session.audience) (hacc : b.account = a.account) :
    b.called = a.called := by
  unfold called
  rw [Session.notice?_of_work hw ha, hacc]

/-- The session goes on with an answer, and what it begins to tell is its newest call. -/
def Answered (a b : Watch) : Prop :=
  ∃ r, a.session.expects r = true ∧ b.session = a.session.answer r ∧
    b.called = a.called ++ (a.session.answer r).notice?.toList

theorem answered_of_question {q : Question} {r : Response} {w : Account}
    (hq : a.session.question? = some q) (hne : ∀ l n, q ≠ .tell l n)
    (hr : a.session.expects r = true) (hw : w.told = a.account.told) :
    a.Answered ⟨a.session.answer r, w⟩ := by
  refine ⟨r, hr, rfl, ?_⟩
  simp only [called, hw, Session.notice?_eq_none hq hne, Option.toList_none, List.append_nil]

/-- An incident that brings an answer, if it is the one that the session waits for. -/
theorem answered_after {ok : Bool} (he : e = .reads ok ∨ e = .changes ok ∨ e = .calls ok) :
    a.after opens e = a ∨ a.Answered (a.after opens e) := by
  rcases he with rfl | rfl | rfl <;> simp only [after]
  · split
    · next name hq =>
      obtain ⟨n, go, hw⟩ := Session.question?_eq_next hq
      exact Or.inr (answered_of_question hq (by simp) (by simp only [Session.expects, hw]) rfl)
    · next name hq =>
      obtain ⟨n, go, hw⟩ := Session.question?_eq_delivered hq
      exact Or.inr (answered_of_question hq (by simp) (by simp only [Session.expects, hw]) rfl)
    · exact Or.inl rfl
  · split
    · next name c hq =>
      obtain ⟨n, go, hw⟩ := Session.question?_eq_change hq
      refine Or.inr (answered_of_question hq (by simp) (by simp only [Session.expects, hw]) ?_)
      cases ok <;> rfl
    · exact Or.inl rfl
  · split
    · next l n hq =>
      obtain ⟨k, go, hw⟩ := Session.question?_eq_tell hq
      refine Or.inr ⟨.told ok, by simp only [Session.expects, hw], rfl, ?_⟩
      have hnotice : a.session.notice? = some n := by
        unfold Session.notice?
        rw [hq]
      simp [called, hnotice]
    · exact Or.inl rfl

/-- What happens to a session that was removed leaves its work as it is or answers it. -/
theorem after_of_removed (hr : a.session.removed = true) (he : e ≠ .restarts) :
    (a.after opens e).session.removed = true ∧
      ((a.after opens e).session.work = a.session.work ∧ (a.after opens e).called = a.called ∨
        a.Answered (a.after opens e)) := by
  have same {b : Watch} (hr' : b.session.removed = true) (hw : b.session.work = a.session.work)
      (ha : b.session.audience = a.session.audience) (hacc : b.account = a.account) :
      b.session.removed = true ∧
        (b.session.work = a.session.work ∧ b.called = a.called ∨ a.Answered b) :=
    ⟨hr', Or.inl ⟨hw, called_of_work hw ha hacc⟩⟩
  have answers {ok : Bool} (h : e = .reads ok ∨ e = .changes ok ∨ e = .calls ok) :
      (a.after opens e).session.removed = true ∧
        ((a.after opens e).session.work = a.session.work ∧ (a.after opens e).called = a.called ∨
          a.Answered (a.after opens e)) := by
    rcases answered_after opens (a := a) h with heq | hanswered
    · rw [heq]
      exact same hr rfl rfl rfl
    · refine ⟨?_, Or.inr hanswered⟩
      obtain ⟨r, -, hsession, -⟩ := hanswered
      rw [hsession, Session.removed_answer, hr]
  cases e with
  | arrives d =>
    have hd : a.session.deliver d = a.session := if_pos hr
    exact same (by simpa only [after, hd]) (by simp only [after, hd]) (by simp only [after, hd]) rfl
  | removed => exact same rfl rfl rfl rfl
  | begins =>
    have hwork : a.session.take.work = a.session.work := by
      rcases a.session.take_cases with ⟨ht, -⟩ | ⟨-, -, ht⟩ | ⟨d, rest, -, hr', -⟩
      · rw [ht]
      · rw [ht]
      · rw [hr] at hr'
        cases hr'
    exact same ((Session.removed_take _).trans hr) hwork (Session.audience_take _) rfl
  | reads ok => exact answers (Or.inl rfl)
  | changes ok => exact answers (Or.inr (Or.inl rfl))
  | calls ok => exact answers (Or.inr (Or.inr rfl))
  | restarts => exact absurd rfl he

theorem hushed_after (h : a.session.Hushed) (he : e ≠ .restarts) :
    (a.after opens e).session.Hushed ∧ (a.after opens e).called = a.called := by
  obtain ⟨hr, ⟨hw, hcalled⟩ | ⟨r, hexpects, hsession, hcalled⟩⟩ :=
    after_of_removed opens h.removed he
  · exact ⟨⟨hr, fun n p hp => h.work n p (hw ▸ hp)⟩, hcalled⟩
  · have hadmits : a.session.Admits (.answer 0 r) := hexpects
    have hsilent : (a.session.answer r).notice? = none := h.notice hadmits
    rw [hsilent] at hcalled
    exact ⟨hsession ▸ h.answer r, hcalled.trans (List.append_nil _)⟩

theorem hushed_run (h : a.session.Hushed) {es : List Incident} (hes : .restarts ∉ es) :
    (a.run opens es).called = a.called := by
  induction es generalizing a with
  | nil => rfl
  | cons e es ih =>
    rw [List.mem_cons, not_or] at hes
    obtain ⟨h', hcalled⟩ := hushed_after opens h (Ne.symm hes.1)
    exact (ih h' hes.2).trans hcalled

/-- A removed session that waits for the position of its checkpoint calls its listener once more or
not at all. -/
theorem asking_run (h : a.session.Asking) (hr : a.session.removed = true) {es : List Incident}
    (hes : .restarts ∉ es) :
    (a.run opens es).called = a.called ∨ ∃ n, (a.run opens es).called = a.called ++ [n] := by
  induction es generalizing a with
  | nil => exact Or.inl rfl
  | cons e es ih =>
    rw [List.mem_cons, not_or] at hes
    obtain ⟨hr', ⟨hw, hcalled⟩ | ⟨r, hexpects, hsession, hcalled⟩⟩ :=
      after_of_removed opens hr (Ne.symm hes.1)
    · obtain ⟨n, go, hwork, hgo⟩ := h
      rw [← hcalled]
      exact ih ⟨n, go, hw.trans hwork, hgo⟩ hr' hes.2
    · have hushed : (a.after opens e).session.Hushed := hsession ▸ h.answer hr hexpects
      rw [run_cons, hushed_run opens hushed hes.2, hcalled]
      cases (a.session.answer r).notice? with
      | none => exact Or.inl (List.append_nil _)
      | some n => exact Or.inr ⟨n, rfl⟩

/-- Only a block listener with a checkpointer is called without a test. -/
theorem wary_run (hopens : ∀ c, (opens c).work = none) (ha : a.session.Wary) (es : List Incident) :
    (a.run opens es).session.Wary := by
  induction es generalizing a with
  | nil => exact ha
  | cons e es ih =>
    refine ih ?_
    cases e with
    | arrives d => exact ha.deliver d
    | removed => exact ha.close
    | begins => exact ha.take
    | reads ok | changes ok | calls ok =>
      simp only [after]
      split <;> first | exact ha | exact ha.answer _
    | restarts => exact Session.wary_of_none (hopens _)

end Steps

/-- Take any moment of the life of a listener, with any deliveries, answers and restarts before it,
and close its session then.  Whatever happens to the session from there on, no call of the listener
begins, unless it is a block listener's with a checkpointer and was closed while it waited for the
position of its checkpoint; then one may. -/
theorem no_call_after_close {A : Audience} (opens : Checkpoint → Session)
    (hopens : ∀ c, opens c = .new A (opens c).floor) (w : Account) (es es' : List Incident)
    (hes' : .restarts ∉ es') :
    let closed := ((start opens w).run opens es).after opens .removed
    (closed.run opens es').called = closed.called ∨
      (∃ l name, A = .block l (some name)) ∧ closed.session.Asking ∧
        ∃ n, (closed.run opens es').called = closed.called ++ [n] := by
  intro closed
  have hnone : ∀ c, (opens c).work = none := fun c => by
    rw [hopens]
    rfl
  have hwary : closed.session.Wary :=
    (wary_run opens hnone (Session.wary_of_none (hnone w.checkpoint)) es).close
  have haudience : closed.session.audience = A :=
    audience_run (a := start opens w) hopens (by
      simp only [start]
      rw [hopens]
      rfl) es
  by_cases hguarded : ∀ n p, closed.session.work = some (n, p) → p.Guarded true
  · exact Or.inl (hushed_run opens ⟨rfl, hguarded⟩ hes')
  · push Not at hguarded
    obtain ⟨n, p, hw, hnot⟩ := hguarded
    obtain ⟨l, name, go, ha, rfl, hgo⟩ := (hwary n p hw).resolve_left hnot
    have hasking : closed.session.Asking := ⟨n, go, hw, hgo⟩
    refine (asking_run opens hasking rfl hes').imp_right fun hcall => ?_
    exact ⟨⟨l, name, haudience.symm.trans ha⟩, hasking, hcall⟩

end Watch

/-- A block is taken up, and the checkpointer is asked for the position. -/
def positionAsked : List Incident := [.arrives (.block "peer" mintAndBurn), .begins]

/-- A contract listener's session that was closed then goes on to no call. -/
theorem silent_when_closed_while_asking :
    let opens := tokenOptions.opening (.events "token" (.app "l"))
    let closed := ((Watch.start opens ⟨.empty, []⟩).run opens positionAsked).after opens .removed
    closed.called = [] ∧
      (closed.run opens [.reads true, .changes true, .calls true, .begins]).called = [] := by
  refine ⟨rfl, ?_⟩
  rcases Watch.no_call_after_close (tokenOptions.opening (.events "token" (.app "l")))
    (fun _ => rfl) ⟨.empty, []⟩ positionAsked [.reads true, .changes true, .calls true, .begins]
    (by simp) with h | ⟨⟨l, name, h⟩, -⟩
  · exact h
  · cases h

/-- A block listener's session that was closed then calls its listener. -/
theorem called_when_closed_while_asking :
    let opens := tokenOptions.opening (.blocks (.app "l"))
    let closed := ((Watch.start opens ⟨.empty, []⟩).run opens positionAsked).after opens .removed
    closed.session.removed = true ∧ closed.called = [] ∧
      (closed.run opens [.reads true]).called = [.block ⟨"peer", mintAndBurn⟩] :=
  ⟨rfl, rfl, rfl⟩

end LedgerClient
