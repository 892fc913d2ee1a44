import LedgerClient.Proofs.LastCalls

/-!
# Plans that a removal cuts short

A session can be removed at any moment while it has a block in hand.  The plan in hand then goes on
to its next test and ends there.  `Plan.Meets` says of a plan what holds of the account wherever it
may come to its end: at one of its tests, by itself, or with a last change of the checkpoint, which
comes right behind a test.  `Watch.OnWay.run` carries this to runs, with the removals that come in
time to cut the plan short (`Watch.ClosedInTime`) told from those that come too late.
-/

namespace LedgerClient

/-- How a plan may end, with its last change and what holds at each kind of end. -/
structure Ends where
  /-- The change that ends the plan. -/
  last : CheckpointChange
  /-- What holds wherever a test may end the plan. -/
  cut : Account → Prop
  /-- What holds where the plan ends by itself, without the last change. -/
  left : Account → Prop
  /-- What holds where the last change begins. -/
  ready : Account → Prop

/-- With a checkpointer that works, a plan ends as `e` says, whatever its calls answer. -/
def Plan.Meets (e : Ends) : Plan → Account → Prop
  | .finished, w => e.left w
  | .askNext go, w => (go (some w.checkpoint.next)).Meets e w
  | .askDelivered go, w => (go (some w.checkpoint.delivered)).Meets e w
  | .change c go, w => c ≠ e.last ∧ go.Meets e (w.change c)
  | .tell n go, w => ∀ ok, (go ok).Meets e (w.tell n ok)
  | .unlessRemoved go, w => e.cut w ∧ (go.Meets e w ∨ go = .change e.last .finished ∧ e.ready w)

/-- A plan goes on with the answer to what it asks, and the account with what is done. -/
inductive Plan.Goes (w : Account) : Plan → Plan → Account → Prop
  | askNext (go : Option (Option Nat) → Plan) :
    Goes w (.askNext go) (go (some w.checkpoint.next)) w
  | askDelivered (go : Option (List String) → Plan) :
    Goes w (.askDelivered go) (go (some w.checkpoint.delivered)) w
  | change (c : CheckpointChange) (go : Plan) : Goes w (.change c go) go (w.change c)
  | tell (n : Notice) (go : Bool → Plan) (ok : Bool) : Goes w (.tell n go) (go ok) (w.tell n ok)

theorem Plan.Meets.goes {e : Ends} {p p' : Plan} {w w' : Account} (h : p.Meets e w)
    (hgoes : p.Goes w p' w') : p'.Meets e w' := by
  cases hgoes with
  | askNext | askDelivered => exact h
  | change => exact h.2
  | tell n go ok => exact h ok

/-- Incidents of a session with a block in hand, with a checkpointer that works. -/
def Incident.Midway : Incident → Prop
  | arrives _ | removed | calls _ => True
  | reads ok | changes ok => ok = true
  | begins | restarts => False

namespace Watch

section Ends

variable (opens : Checkpoint → Session) (e : Ends)

/-- The session is removed before the last change of its work begins.  A removal while that change
is awaited does not undo it. -/
def ClosedInTime (last : CheckpointChange) (a : Watch) (es : List Incident) : Prop :=
  ∃ es₁ es₂ q, es = es₁ ++ .removed :: es₂ ∧ (a.run opens es₁).session.question? = some q ∧
    ∀ name, q ≠ .change name last

/-- The work in hand is on its way to an end. -/
def Within (a : Watch) : Prop :=
  ∃ k p, a.session.work = some (k, p) ∧ p.Asks ∧ p.Meets e a.account

/-- The work in hand is the last change. -/
def Leaving (a : Watch) : Prop :=
  (∃ k, a.session.work = some (k, .change e.last .finished)) ∧ e.ready a.account

/-- The work came to its end without the last change; in a session that was removed, a test may have
ended it. -/
def Ended (a : Watch) : Prop :=
  a.session.work = none ∧ (e.left a.account ∨ a.session.removed = true ∧ e.cut a.account)

/-- Where a session is with its work. -/
def OnWay (a : Watch) : Prop :=
  Within e a ∨ Ended e a ∨ a.session.removed = false ∧ Leaving e a

variable {opens e} {a : Watch}

theorem onWay_follow {p : Plan} {s : Session} {w : Account} (k : Option Nat) (h : p.Meets e w) :
    OnWay e ⟨s.follow k p, w⟩ := by
  induction p generalizing w with
  | finished => exact Or.inr (Or.inl ⟨rfl, Or.inl h⟩)
  | unlessRemoved go ih =>
    obtain ⟨hcut, hgo⟩ := h
    by_cases hr : s.removed = true
    · have hf : s.follow k (.unlessRemoved go) = { s with work := none, last := k.or s.last } := by
        simp [Session.follow, Session.unguard, hr]
      rw [hf]
      exact Or.inr (Or.inl ⟨rfl, Or.inr ⟨hr, hcut⟩⟩)
    · have hf : s.follow k (.unlessRemoved go) = s.follow k go := by
        simp only [Session.follow, Session.unguard, if_neg hr]
      rw [hf]
      rcases hgo with hgo | ⟨rfl, hready⟩
      · exact ih hgo
      · exact Or.inr (Or.inr ⟨by simpa [Session.follow, Session.unguard] using hr, ⟨k, rfl⟩,
          hready⟩)
  | _ => exact Or.inl ⟨k, _, rfl, trivial, h⟩

variable (opens) in
/-- An incident leaves the work in hand, or brings the answer that it waits for. -/
theorem midway_cases {i : Incident} (hi : i.Midway) :
    (a.after opens i).session.work = a.session.work ∧ (a.after opens i).account = a.account ∨
      ∃ k p p' w, a.session.work = some (k, p) ∧ p.Goes a.account p' w ∧
        a.after opens i = ⟨a.session.follow k p', w⟩ := by
  cases i with
  | arrives d =>
    refine Or.inl ⟨?_, rfl⟩
    simp only [Watch.after, Session.deliver]
    split_ifs <;> rfl
  | removed => exact Or.inl ⟨rfl, rfl⟩
  | begins => exact hi.elim
  | restarts => exact hi.elim
  | reads ok =>
    obtain rfl : ok = true := hi
    cases hw : a.session.work with
    | none => exact Or.inl (by simp [Watch.after, Session.question?, hw])
    | some work =>
      obtain ⟨k, p⟩ := work
      cases p with
      | askNext go =>
        refine Or.inr ⟨k, _, _, _, rfl, .askNext go, ?_⟩
        simp [Watch.after, Session.question?, Session.answer, hw]
      | askDelivered go =>
        refine Or.inr ⟨k, _, _, _, rfl, .askDelivered go, ?_⟩
        simp [Watch.after, Session.question?, Session.answer, hw]
      | _ => exact Or.inl (by simp [Watch.after, Session.question?, hw])
  | changes ok =>
    obtain rfl : ok = true := hi
    cases hw : a.session.work with
    | none => exact Or.inl (by simp [Watch.after, Session.question?, hw])
    | some work =>
      obtain ⟨k, p⟩ := work
      cases p with
      | change c go =>
        refine Or.inr ⟨k, _, _, _, rfl, .change c go, ?_⟩
        simp [Watch.after, Session.question?, Session.answer, hw]
      | _ => exact Or.inl (by simp [Watch.after, Session.question?, hw])
  | calls ok =>
    cases hw : a.session.work with
    | none => exact Or.inl (by simp [Watch.after, Session.question?, hw])
    | some work =>
      obtain ⟨k, p⟩ := work
      cases p with
      | tell n go =>
        refine Or.inr ⟨k, _, _, _, rfl, .tell n go ok, ?_⟩
        simp [Watch.after, Session.question?, Session.answer, hw]
      | _ => exact Or.inl (by simp [Watch.after, Session.question?, hw])

theorem Within.after (h : Within e a) {i : Incident} (hi : i.Midway) :
    OnWay e (a.after opens i) := by
  obtain ⟨k, p, hw, hasks, hp⟩ := h
  rcases midway_cases opens hi with ⟨hwork, hacc⟩ | ⟨k', q, p', w, hw', hgoes, hafter⟩
  · exact Or.inl ⟨k, p, hwork.trans hw, hasks, hacc ▸ hp⟩
  · obtain ⟨rfl, rfl⟩ := Prod.mk.inj (Option.some.inj (hw.symm.trans hw'))
    rw [hafter]
    exact onWay_follow k (hp.goes hgoes)

theorem closedInTime_cons {last : CheckpointChange} {i : Incident} {es : List Incident} :
    ClosedInTime opens last a (i :: es) ↔
      i = .removed ∧ (∃ q, a.session.question? = some q ∧ ∀ name, q ≠ .change name last) ∨
        ClosedInTime opens last (a.after opens i) es := by
  constructor
  · rintro ⟨es₁, es₂, q, hes, hq, hlast⟩
    cases es₁ with
    | nil =>
      rw [List.nil_append, List.cons.injEq] at hes
      exact Or.inl ⟨hes.1, q, hq, hlast⟩
    | cons i' es₁ =>
      rw [List.cons_append, List.cons.injEq] at hes
      obtain ⟨rfl, hes⟩ := hes
      exact Or.inr ⟨es₁, es₂, q, hes, hq, hlast⟩
  · rintro (⟨rfl, q, hq, hlast⟩ | ⟨es₁, es₂, q, rfl, hq, hlast⟩)
    · exact ⟨[], es, q, rfl, hq, hlast⟩
    · exact ⟨i :: es₁, es₂, q, rfl, hq, hlast⟩

/-- Work on its way waits for an answer, and not for that to the last change. -/
theorem Within.question (h : Within e a) :
    ∃ q, a.session.question? = some q ∧ ∀ name, q ≠ .change name e.last := by
  obtain ⟨k, p, hw, hasks, hp⟩ := h
  simp only [Session.question?, hw]
  cases p with
  | finished => exact hasks.elim
  | unlessRemoved go => exact hasks.elim
  | change c go =>
    exact ⟨_, rfl, fun _ heq => hp.1 (Question.change.inj heq).2⟩
  | _ => exact ⟨_, rfl, fun _ heq => by cases heq⟩

theorem removed_midway {i : Incident} (hi : i.Midway) (hne : i ≠ .removed) :
    (a.after opens i).session.removed = a.session.removed := by
  cases i with
  | arrives d => exact Session.removed_deliver _ d
  | removed => exact absurd rfl hne
  | begins => exact hi.elim
  | restarts => exact hi.elim
  | reads ok | changes ok | calls ok =>
    simp only [Watch.after]
    split <;> first | rfl | exact Session.removed_answer _ _

variable (opens) in
theorem run_of_none {es : List Incident} (hes : ∀ i ∈ es, i.Midway) (hw : a.session.work = none) :
    (a.run opens es).session.work = none ∧ (a.run opens es).account = a.account ∧
      ∀ last, ¬ ClosedInTime opens last a es := by
  induction es generalizing a with
  | nil =>
    refine ⟨hw, rfl, ?_⟩
    rintro last ⟨es₁, es₂, q, hes, -⟩
    simp at hes
  | cons i es ih =>
    rw [List.forall_mem_cons] at hes
    have hquiet : a.session.question? = none := by simp only [Session.question?, hw]
    have hstays := (midway_cases opens (a := a) hes.1).resolve_right (by
      rintro ⟨k, p, p', w, hwork, -⟩
      simp [hw] at hwork)
    obtain ⟨hdone, hsame, hnever⟩ := ih hes.2 (hstays.1.trans hw)
    refine ⟨hdone, hsame.trans hstays.2, fun last hclosed => ?_⟩
    rcases closedInTime_cons.1 hclosed with ⟨-, q, hq, -⟩ | hlater
    · rw [hquiet] at hq
      cases hq
    · exact hnever last hlater

variable (opens) in
/-- The last change is made, also when the session is removed meanwhile. -/
theorem Leaving.run {es : List Incident} (h : Leaving e a) (hes : ∀ i ∈ es, i.Midway) :
    ¬ ClosedInTime opens e.last a es ∧ ((a.run opens es).session.work = none →
      ∃ w, e.ready w ∧ (a.run opens es).account = w.change e.last) := by
  induction es generalizing a with
  | nil =>
    obtain ⟨⟨k, hw⟩, -⟩ := h
    refine ⟨fun ⟨es₁, es₂, q, hes, _⟩ => by simp at hes, fun hnone => ?_⟩
    rw [run_nil, hw] at hnone
    cases hnone
  | cons i es ih =>
    rw [List.forall_mem_cons] at hes
    obtain ⟨⟨k, hw⟩, hready⟩ := h
    have hquestion : a.session.question? =
        some (.change (a.session.audience.checkpointer.getD "") e.last) := by
      simp only [Session.question?, hw]
    have hearly : ¬ ∃ q, a.session.question? = some q ∧ ∀ name, q ≠ .change name e.last := by
      rintro ⟨q, hq, hne⟩
      rw [hquestion] at hq
      exact hne _ (Option.some.inj hq).symm
    rw [closedInTime_cons, run_cons]
    rcases midway_cases opens (a := a) hes.1 with
      ⟨hwork, hacc⟩ | ⟨k', p, p', w, hw', hgoes, hafter⟩
    · obtain ⟨hnever, hends⟩ := ih ⟨⟨k, hwork.trans hw⟩, hacc ▸ hready⟩ hes.2
      exact ⟨fun hclosed => hclosed.elim (fun hnow => hearly hnow.2) hnever, hends⟩
    · obtain ⟨rfl, rfl⟩ := Prod.mk.inj (Option.some.inj (hw.symm.trans hw'))
      cases hgoes
      have hnone : (a.after opens i).session.work = none := by
        rw [hafter]
        rfl
      obtain ⟨-, hsame, hnever⟩ := run_of_none opens hes.2 hnone
      exact ⟨fun hclosed => hclosed.elim (fun hnow => hearly hnow.2) (hnever e.last),
        fun _ => ⟨a.account, hready, by rw [hsame, hafter]⟩⟩

/-- How the work may have ended: a session that was closed in time makes no last change. -/
def Concluded (e : Ends) (closed : Prop) (w : Account) : Prop :=
  closed ∧ (e.left w ∨ e.cut w) ∨
    ¬ closed ∧ (e.left w ∨ ∃ w', e.ready w' ∧ w = w'.change e.last)

theorem concluded_of_left {closed : Prop} {w : Account} (h : e.left w) : Concluded e closed w :=
  (em closed).imp (fun hc => ⟨hc, Or.inl h⟩) fun hc => ⟨hc, Or.inl h⟩

theorem Ended.run {es : List Incident} (h : Ended e a) (hes : ∀ i ∈ es, i.Midway) :
    Concluded e (a.session.removed = true ∨ ClosedInTime opens e.last a es)
      (a.run opens es).account := by
  obtain ⟨hnone, hend⟩ := h
  rw [(run_of_none opens hes hnone).2.1]
  rcases hend with hleft | ⟨hremoved, hcut⟩
  · exact concluded_of_left hleft
  · exact Or.inl ⟨Or.inl hremoved, Or.inr hcut⟩

/-- An incident of work on its way: the session is closed in time by it, or as before. -/
theorem Within.closed_iff (h : Within e a) {i : Incident} (hi : i.Midway) {es : List Incident} :
    (a.session.removed = true ∨ ClosedInTime opens e.last a (i :: es)) ↔
      ((a.after opens i).session.removed = true ∨
        ClosedInTime opens e.last (a.after opens i) es) := by
  rw [closedInTime_cons]
  by_cases hremoved : i = .removed
  · subst hremoved
    exact iff_of_true (Or.inr (Or.inl ⟨rfl, h.question⟩)) (Or.inl rfl)
  · simp only [hremoved, false_and, false_or, removed_midway hi hremoved]

/-- Work on its way comes to one of its ends, and which one depends on whether the session is closed
in time. -/
theorem OnWay.run {es : List Incident} (h : OnWay e a) (hes : ∀ i ∈ es, i.Midway)
    (hdone : (a.run opens es).session.work = none) :
    Concluded e (a.session.removed = true ∨ ClosedInTime opens e.last a es)
      (a.run opens es).account := by
  induction es generalizing a with
  | nil =>
    rcases h with ⟨k, p, hw, -⟩ | hended | ⟨-, ⟨k, hw⟩, -⟩
    · rw [run_nil, hw] at hdone
      cases hdone
    · exact hended.run hes
    · rw [run_nil, hw] at hdone
      cases hdone
  | cons i es ih =>
    rcases h with hwithin | hended | ⟨hopen, hleaving⟩
    · rw [List.forall_mem_cons] at hes
      rw [hwithin.closed_iff hes.1]
      exact ih (hwithin.after hes.1) hes.2 hdone
    · exact hended.run hes
    · obtain ⟨hnever, hends⟩ := hleaving.run opens hes
      refine Or.inr ⟨fun hclosed => ?_, Or.inr (hends hdone)⟩
      rcases hclosed with hremoved | hclosed
      · rw [hopen] at hremoved
        cases hremoved
      · exact hnever hclosed

end Ends

end Watch

end LedgerClient
