import LedgerClient.Proofs.LastCalls
import LedgerClient.Proofs.Worlds

/-!
# Listeners do not disturb each other

Two runs of a client differ in what other listeners there are, in when they come and go and in how
their calls end, if at all.  Where both show one session the same, the moves of its feed, when it
came to it and when it was closed, and the answers to its questions, it takes up the same deliveries
in the same order and brings its checkpoint through the same states, and its feed asks for the same
starts (`World.listeners_do_not_disturb_each_other`).  The moves of the feed and the steps of the
session may be interleaved in different ways: a delivery that arrives early only waits
(`Watch.run_hand`).  When a session takes a delivery is no choice of its own: it does so when one
waits and nothing else is in hand, and all its steps follow from what it is given
(`Watch.Prompt.eq`).
-/

namespace LedgerClient

/-! ## Deliveries that come early -/

/-- Whether a delivery arrives. -/
def Incident.isArrival : Incident → Bool
  | .arrives _ => true
  | _ => false

namespace Session

/-- The session with more deliveries behind those that wait. -/
def hand (s : Session) (ds : List Delivery) : Session := { s with queue := s.queue ++ ds }

variable {s : Session} {ds : List Delivery}

theorem follow_hand (n : Option Nat) (p : Plan) :
    (s.hand ds).follow n p = (s.follow n p).hand ds := by
  unfold follow
  dsimp only [hand]
  split <;> rfl

theorem answer_hand (r : Response) : (s.hand ds).answer r = (s.answer r).hand ds := by
  unfold answer
  dsimp only [hand]
  split <;> first | exact follow_hand _ _ | rfl

/-- A session takes what waits at the front; one that was removed drops everything. -/
theorem take_hand (hready : s.isReady = true) (hr : s.removed = true → ds = []) :
    (s.hand ds).take = s.take.hand ds ∧ (s.hand ds).upNext? = s.upNext? := by
  rw [isReady, Bool.and_eq_true, Option.isNone_iff_eq_none, Bool.not_eq_true'] at hready
  obtain ⟨hw, hq⟩ := hready
  cases hqueue : s.queue with
  | nil => simp [hqueue] at hq
  | cons d rest =>
    have hw' : (s.hand ds).work = none := hw
    have hqueue' : (s.hand ds).queue = d :: (rest ++ ds) := by
      rw [hand, hqueue]
      rfl
    have haccepts : (s.hand ds).accepts d = s.accepts d := s.accepts_queue _ d
    refine ⟨?_, ?_⟩
    · rw [take_of_cons hw hqueue, take_of_cons hw' hqueue', haccepts]
      rw [show (s.hand ds).removed = s.removed from rfl]
      split_ifs with hremoved
      · rw [hr hremoved]
        rfl
      · exact follow_hand (s := { s with queue := rest }) _ _
      · rfl
    · have hremoved : (s.hand ds).removed = s.removed := rfl
      simp only [upNext?, hw, hw', hqueue, hqueue', haccepts, hremoved]

end Session

namespace Watch

variable (opens : Checkpoint → Session)

/-- The session at work with more deliveries behind those that wait. -/
def hand (a : Watch) (ds : List Delivery) : Watch := { a with session := a.session.hand ds }

/-- Whether an incident can come: deliveries arrive at a session that is open, it takes one when one
waits, and answers come to its questions. -/
def Admits (a : Watch) : Incident → Prop
  | .arrives _ => a.session.removed = false
  | .removed => True
  | .begins => a.session.isReady = true
  | .reads _ | .changes _ | .calls _ => a.session.question? ≠ none
  | .restarts => False

/-- Each incident of a run comes when it can. -/
def Apt (a : Watch) : List Incident → Prop
  | [] => True
  | e :: es => a.Admits e ∧ (a.after opens e).Apt es

variable {opens} {a : Watch} {ds : List Delivery} {e : Incident}

theorem Apt.append {es es' : List Incident} (h : a.Apt opens es)
    (h' : (a.run opens es).Apt opens es') : a.Apt opens (es ++ es') := by
  induction es generalizing a with
  | nil => exact h'
  | cons e es ih => exact ⟨h.1, ih h.2 h'⟩

theorem removed_after (hr : a.session.removed = true) (he : a.Admits e) :
    (a.after opens e).session.removed = true := by
  have hgoes : e ≠ .restarts := by
    rintro rfl
    exact he
  exact (after_of_removed opens hr hgoes).1

theorem arrivals_of_removed {es : List Incident} (hr : a.session.removed = true)
    (h : a.Apt opens es) : Incident.arrivals es = [] := by
  induction es generalizing a with
  | nil => rfl
  | cons e es ih =>
    have hlater := ih (removed_after hr h.1) h.2
    cases e with
    | arrives d =>
      have hopen : a.session.removed = false := h.1
      rw [hr] at hopen
      cases hopen
    | restarts => exact h.1.elim
    | _ => exact hlater

variable (opens) in
theorem after_hand (he : e.isArrival = false) (h : a.Admits e)
    (hr : a.session.removed = true → ds = []) :
    (a.hand ds).after opens e = (a.after opens e).hand ds ∧
      (a.hand ds).outputs opens e = a.outputs opens e := by
  have hquestion : (a.hand ds).session.question? = a.session.question? := rfl
  have haccount : (a.hand ds).account = a.account := rfl
  suffices hafter : (a.hand ds).after opens e = (a.after opens e).hand ds ∧
      (e.isBeginning = true → (a.hand ds).session.upNext? = a.session.upNext?) by
    refine ⟨hafter.1, ?_⟩
    rw [outputs, outputs, hafter.1, haccount]
    split_ifs with hbegins
    · rw [hafter.2 hbegins]
      rfl
    · rfl
  cases e with
  | arrives d => cases he
  | removed => exact ⟨rfl, fun h => by cases h⟩
  | begins =>
    obtain ⟨htake, hnext⟩ := Session.take_hand h hr
    refine ⟨?_, fun _ => hnext⟩
    simp only [after, hand, htake]
  | reads ok | changes ok | calls ok =>
    refine ⟨?_, fun h => by cases h⟩
    simp only [after, hquestion, haccount]
    split <;> simp only [hand, Session.answer_hand]
  | restarts => exact h.elim

/-- All that arrives in a run may as well be there from the start. -/
theorem run_hand {es : List Incident} (h : a.Apt opens es) :
    let b := a.hand (Incident.arrivals es)
    let own := es.filter (!·.isArrival)
    a.run opens es = b.run opens own ∧ a.history opens es = b.history opens own := by
  induction es generalizing a with
  | nil =>
    have hsame : a.hand [] = a := by
      simp [hand, Session.hand]
    simp only [Incident.arrivals, hsame]
    exact ⟨rfl, rfl⟩
  | cons e es ih =>
    obtain ⟨hrun, hhistory⟩ := ih h.2
    cases harrival : e.isArrival with
    | true =>
      obtain ⟨d, rfl⟩ : ∃ d, e = .arrives d := by
        cases e <;> simp_all [Incident.isArrival]
      have hopen : a.session.removed = false := h.1
      have hafter : (a.after opens (.arrives d)).hand (Incident.arrivals es) =
          a.hand (d :: Incident.arrivals es) := by
        simp [after, hand, Session.hand, Session.deliver, hopen]
      rw [hafter] at hrun hhistory
      simp only [Incident.arrivals, List.filter_cons, harrival]
      exact ⟨hrun, by rw [history, outputs_of_quiet (Or.inl ⟨d, rfl⟩)]; exact hhistory⟩
    | false =>
      have harrivals : Incident.arrivals (e :: es) = Incident.arrivals es := by
        cases e with
        | arrives d => cases harrival
        | restarts => exact h.1.elim
        | _ => rfl
      obtain ⟨hafter, houtputs⟩ := after_hand opens harrival h.1
        fun hr => arrivals_of_removed (removed_after hr h.1) h.2
      have hfilter : (e :: es).filter (!·.isArrival) = e :: es.filter (!·.isArrival) := by
        simp [harrival]
      simp only [harrivals, hfilter, run_cons, history]
      rw [hafter, houtputs, hrun, hhistory]
      exact ⟨rfl, rfl⟩

theorem Apt.arrivals_append {es : List Incident} (h : a.Apt opens es) (es' : List Incident) :
    Incident.arrivals (es ++ es') = Incident.arrivals es ++ Incident.arrivals es' := by
  induction es generalizing a with
  | nil => rfl
  | cons e es ih =>
    have hlater := ih h.2
    cases e with
    | arrives d => exact congrArg (d :: ·) hlater
    | restarts => exact h.1.elim
    | _ => exact hlater

/-! ### Sessions that take what waits -/

variable (opens) in
/-- Nothing is left to take when the session is removed, and when the run ends. -/
def Prompt (a : Watch) : List Incident → Prop
  | [] => a.session.isReady = false
  | e :: es => (e = .removed → a.session.isReady = false) ∧ (a.after opens e).Prompt es

theorem Prompt.append {es es' : List Incident} (h : (a.run opens es).Prompt opens es')
    (hes : .removed ∉ es) : a.Prompt opens (es ++ es') := by
  induction es generalizing a with
  | nil => exact h
  | cons e es ih =>
    rw [List.mem_cons, not_or] at hes
    exact ⟨fun he => absurd he.symm hes.1, ih h hes.2⟩

theorem isReady_hand_nil (a : Watch) : (a.hand []).session.isReady = a.session.isReady := by
  simp [hand, Session.hand, Session.isReady]

/-- A run whose deliveries are there from the start is as prompt, and its steps come when they
can. -/
theorem prompt_hand {es : List Incident} (h : a.Apt opens es) (hp : a.Prompt opens es) :
    let b := a.hand (Incident.arrivals es)
    let own := es.filter (!·.isArrival)
    b.Apt opens own ∧ b.Prompt opens own := by
  induction es generalizing a with
  | nil => exact ⟨trivial, (isReady_hand_nil a).trans hp⟩
  | cons e es ih =>
    obtain ⟨hapt, hprompt⟩ := ih h.2 hp.2
    cases harrival : e.isArrival with
    | true =>
      obtain ⟨d, rfl⟩ : ∃ d, e = .arrives d := by
        cases e <;> simp_all [Incident.isArrival]
      have hopen : a.session.removed = false := h.1
      have hafter : (a.after opens (.arrives d)).hand (Incident.arrivals es) =
          a.hand (d :: Incident.arrivals es) := by
        simp [after, hand, Session.hand, Session.deliver, hopen]
      rw [hafter] at hapt hprompt
      simp only [Incident.arrivals, List.filter_cons, harrival]
      exact ⟨hapt, hprompt⟩
    | false =>
      have harrivals : Incident.arrivals (e :: es) = Incident.arrivals es := by
        cases e with
        | arrives d => cases harrival
        | restarts => exact h.1.elim
        | _ => rfl
      have hremoved (hr : (a.after opens e).session.removed = true) : Incident.arrivals es = [] :=
        arrivals_of_removed hr h.2
      obtain ⟨hafter, -⟩ := after_hand opens harrival h.1 fun hr => hremoved (removed_after hr h.1)
      have hfilter : (e :: es).filter (!·.isArrival) = e :: es.filter (!·.isArrival) := by
        simp [harrival]
      simp only [harrivals, hfilter]
      rw [← hafter] at hapt hprompt
      refine ⟨⟨?_, hapt⟩, ?_, hprompt⟩
      · cases e with
        | arrives d => cases harrival
        | removed => trivial
        | begins =>
          have hready : a.session.isReady = true := h.1
          rw [Session.isReady, Bool.and_eq_true, Bool.not_eq_true', List.isEmpty_eq_false_iff]
            at hready
          simp [Admits, hand, Session.hand, Session.isReady, hready.1, hready.2]
        | reads ok | changes ok | calls ok => exact h.1
        | restarts => exact h.1.elim
      · rintro rfl
        rw [hremoved rfl, isReady_hand_nil]
        exact hp.1 rfl

theorem eq_begins {e : Incident} (h : e.isBeginning = true) : e = .begins := by
  cases e <;> first | rfl | cases h

theorem not_ready_of_question {s : Session} (h : s.question? ≠ none) : s.isReady = false := by
  cases hw : s.work with
  | none => simp [Session.question?, hw] at h
  | some np => simp [Session.isReady, hw]

/-- What a session takes follows from the rest of its steps: it begins with a delivery when one
waits, and with nothing else before. -/
theorem Prompt.eq {es es' : List Incident} (h : a.Apt opens es) (h' : a.Apt opens es')
    (hp : a.Prompt opens es) (hp' : a.Prompt opens es')
    (hown : ∀ e ∈ es, e.isArrival = false) (hown' : ∀ e ∈ es', e.isArrival = false)
    (hsame : es.filter (!·.isBeginning) = es'.filter (!·.isBeginning)) : es = es' := by
  -- a step other than to begin finds the session with nothing to take
  have busy {a : Watch} {e : Incident} {es : List Incident} (h : a.Apt opens (e :: es))
      (hp : a.Prompt opens (e :: es)) (hown : e.isArrival = false)
      (he : e.isBeginning = false) : a.session.isReady = false := by
    cases e with
    | arrives d => cases hown
    | begins => cases he
    | removed => exact hp.1 rfl
    | reads ok | changes ok | calls ok => exact not_ready_of_question h.1
    | restarts => exact h.1.elim
  induction es generalizing a es' with
  | nil =>
    cases es' with
    | nil => rfl
    | cons e' es' =>
      cases hb' : e'.isBeginning with
      | false => simp [hb'] at hsame
      | true =>
        obtain rfl := eq_begins hb'
        have hready : a.session.isReady = true := h'.1
        exact absurd hready (by simp [show a.session.isReady = false from hp])
  | cons e es ih =>
    cases es' with
    | nil =>
      cases hb : e.isBeginning with
      | false => simp [hb] at hsame
      | true =>
        obtain rfl := eq_begins hb
        have hready : a.session.isReady = true := h.1
        exact absurd hready (by simp [show a.session.isReady = false from hp'])
    | cons e' es' =>
      rw [List.forall_mem_cons] at hown hown'
      obtain rfl : e = e' := by
        cases hb : e.isBeginning <;> cases hb' : e'.isBeginning
        · simp only [List.filter_cons, hb, hb', Bool.not_false, if_true, List.cons.injEq] at hsame
          exact hsame.1
        · obtain rfl := eq_begins hb'
          have hready : a.session.isReady = true := h'.1
          exact absurd hready (by simp [busy h hp hown.1 hb])
        · obtain rfl := eq_begins hb
          have hready : a.session.isReady = true := h.1
          exact absurd hready (by simp [busy h' hp' hown'.1 hb'])
        · exact (eq_begins hb).trans (eq_begins hb').symm
      refine congrArg _ (ih h.2 h'.2 hp.2 hp'.2 hown.2 hown'.2 ?_)
      simp only [List.filter_cons] at hsame
      split_ifs at hsame with hb
      · exact (List.cons.inj hsame).2
      · exact hsame

end Watch

/-! ## What is seen of a session -/

namespace World

/-- What a session does by itself: it is made, with its checkpoint, and it goes on. -/
inductive Step where
  | made (s : Session) (c : Checkpoint)
  | goes (e : Incident)

/-- The own steps of a session, and its removal. -/
def own (j : Nat) (w : World) (h : Happening) : List Step :=
  match w.client.sessions[j]? with
  | none =>
    ((w.apply h).client.sessions[j]?).toList.map fun s =>
      .made s.anonymous ((w.apply h).checkpoint s)
  | some _ => ((w.incidents j h).filter (!·.isArrival)).map .goes

/-- Whether a session takes its next delivery. -/
def Step.isTaking : Step → Bool
  | .goes .begins => true
  | _ => false

/-- The own steps of a session but for what it takes: that it is made and removed, and the answers
to its questions. -/
def given (j : Nat) (w : World) (h : Happening) : List Step := (w.own j h).filter (!·.isTaking)

/-- Nothing is left for the session `j` to take when it is removed, and when the run ends. -/
def Prompt (j : Nat) : World → List Happening → Prop
  | w, [] => ∀ s ∈ w.client.sessions[j]?, s.isReady = false
  | w, h :: hs =>
    (∀ s ∈ w.client.sessions[j]?, ∀ s' ∈ (w.apply h).client.sessions[j]?,
      s.removed = false → s'.removed = true → s.isReady = false) ∧ Prompt j (w.apply h) hs

instance decidablePrompt (j : Nat) : ∀ (w : World) (hs : List Happening), Decidable (Prompt j w hs)
  | w, [] => inferInstanceAs (Decidable (∀ s ∈ w.client.sessions[j]?, s.isReady = false))
  | w, h :: hs =>
    have := decidablePrompt j (w.apply h) hs
    inferInstanceAs (Decidable (_ ∧ _))

/-- What is seen of a feed, and of a session that comes to it. -/
def sights (i j : Nat) (w : World) (h : Happening) : List Sight := w.client.sights i j (w.move h)

/-- What a session receives. -/
def received (j : Nat) (w : World) (h : Happening) : List Delivery :=
  w.client.received j (w.move h)

variable {opens : Checkpoint → Session} {w : World} {a : Watch} {i j : Nat}

theorem tidy_run (hc : w.client.Tidy) (hs : List Happening) : (w.run hs).client.Tidy := by
  induction hs generalizing w with
  | nil => exact hc
  | cons h hs ih => exact ih (hc.apply _)

/-- The start that has its answer. -/
def settled (i : Nat) (w : World) (h : Happening) : List (Option Nat) :=
  w.client.settled i (w.move h)

theorem asked_run (hc : w.client.Tidy) (hs : List Happening) {starts : List (Option Nat)}
    (ha : w.client.Asked i starts) :
    (w.run hs).client.Asked i (starts ++ gather (settled i) w hs) := by
  induction hs generalizing w starts with
  | nil => simpa [gather] using ha
  | cons h hs ih =>
    rw [gather, ← List.append_assoc]
    exact ih (hc.apply _) (Client.asked_apply hc ha)

/-- What a session has received in a run, and where its feed stands, follow from what is seen. -/
theorem berth_run (hc : w.client.Tidy) {hs : List Happening} (hp : Always (Private i j) w hs)
    (starts : List (Option Nat)) (ds : List Delivery) :
    (gather (sights i j) w hs).foldl Berth.after (w.client.berth i j starts ds) =
      (w.run hs).client.berth i j (starts ++ gather (settled i) w hs)
        (ds ++ gather (received j) w hs) := by
  induction hs generalizing w starts ds with
  | nil => simp [gather]
  | cons h hs ih =>
    rw [gather, List.foldl_append, sights, Client.berth_apply hc hp.1.1, gather, gather,
      ← List.append_assoc, ← List.append_assoc]
    exact ih (hc.apply _) hp.2 _ _

theorem question?_ne_none_of_work {s s' : Session} (hw : s'.work = s.work)
    (h : s.question? ≠ none) : s'.question? ≠ none := by
  unfold Session.question? at h ⊢
  rw [hw]
  cases hs : s.work with
  | none => simp [hs] at h
  | some np =>
    obtain ⟨n, p⟩ := np
    cases p <;> simp_all

theorem apt_posted {s : Session} {b : Watch} (hw : b.session.work = s.work) :
    b.Apt opens s.posted := by
  unfold Session.posted
  split_ifs with hposts
  · obtain ⟨n, o, hq⟩ := Session.posts_iff.1 hposts
    exact ⟨question?_ne_none_of_work hw (by simp [hq]), trivial⟩
  · trivial

theorem arrivals_posted (s : Session) : Incident.arrivals s.posted = [] := by
  unfold Session.posted
  split_ifs <;> rfl

theorem apt_arrives (ds : List Delivery) {a : Watch} (hopen : ds ≠ [] → a.session.removed = false)
    {es : List Incident} (hes : (a.run opens (ds.map .arrives)).Apt opens es) :
    a.Apt opens (ds.map .arrives ++ es) := by
  induction ds generalizing a with
  | nil => exact hes
  | cons d ds ih =>
    have hr := hopen (by simp)
    exact ⟨hr, ih (fun _ => (Session.removed_deliver _ d).trans hr) hes⟩

theorem arrivals_arrives (ds : List Delivery) (es : List Incident) :
    Incident.arrivals (ds.map .arrives ++ es) = ds ++ Incident.arrivals es := by
  induction ds with
  | nil => rfl
  | cons d ds ih => exact congrArg (d :: ·) ih

/-- An answer comes at any time, and brings no delivery. -/
theorem admits_of_incident {s : Session} {ok : Bool} {e : Incident} (he : s.incident? ok = some e)
    {a : Watch} (hw : a.session.work = s.work) (es : List Incident) :
    a.Admits e ∧ Incident.arrivals (e :: es) = Incident.arrivals es := by
  have hasks : s.question? ≠ none := fun hnone => by simp [Session.incident?, hnone] at he
  have hasks' := question?_ne_none_of_work hw hasks
  unfold Session.incident? at he
  split at he <;> cases he <;> exact ⟨hasks', rfl⟩

theorem removed_of_received (hc : w.client.Tidy) {s : Session} {m : Move}
    (hs : w.client.sessions[j]? = some s) (hreceived : w.client.received j m ≠ []) :
    s.removed = false := by
  rw [Client.received_eq_handed hc] at hreceived
  unfold Client.handed at hreceived
  split at hreceived
  · exact absurd rfl hreceived
  · split at hreceived
    · exact absurd rfl hreceived
    · next f hf =>
      split_ifs at hreceived with h
      · exact ((Client.aboard_iff hf hs).1 h.2).2
      · exact absurd rfl hreceived

variable (opens) in
theorem Shows.apt (ha : w.Shows j a) (hc : w.client.Tidy) (h : Happening) :
    a.Apt opens (w.incidents j h) ∧
      Incident.arrivals (w.incidents j h) = w.received j h := by
  obtain ⟨s, hs, hsession, hcheckpoint⟩ := ha
  simp only [incidents, hs]
  cases h with
  | moves m plain =>
    simp only [received, move]
    by_cases hm : m.session? = some j
    · obtain rfl := eq_takeNext hm plain
      rw [if_pos hm, Client.received_of_not_feed rfl]
      split_ifs with hready
      · have hbegins : (a.after opens .begins).session = s.take.anonymous := by
          rw [Session.anonymous_take, ← hsession]
          rfl
        have hwork : (a.after opens .begins).session.work = s.take.work := by
          rw [hbegins]
          rfl
        exact ⟨⟨by rw [Watch.Admits, hsession]; exact hready, apt_posted hwork⟩,
          arrivals_posted _⟩
      · exact ⟨trivial, rfl⟩
    · rw [if_neg hm, arrivals_arrives]
      refine ⟨apt_arrives _ (fun hne => ?_) ?_, ?_⟩
      · rw [hsession]
        exact removed_of_received (s := s) hc hs hne
      · split_ifs
        · exact ⟨trivial, trivial⟩
        · trivial
      · split_ifs <;> exact List.append_nil _
  | answers k ok =>
    have hreceived : w.received j (.answers k ok) = [] := Client.received_of_not_feed rfl j
    rw [hreceived]
    dsimp only
    by_cases hk : k = j
    · rw [if_pos hk]
      cases he : s.incident? ok with
      | none => exact ⟨trivial, rfl⟩
      | some e =>
        have hwork : a.session.work = s.work := by
          rw [hsession]
          rfl
        have hwork' : (a.after opens e).session.work = (s.answer (w.response s ok)).work := by
          rw [(after_incident opens hsession hcheckpoint he).1]
          rfl
        obtain ⟨hadmits, harrivals⟩ := admits_of_incident he hwork
          (s.answer (w.response s ok)).posted
        exact ⟨⟨hadmits, apt_posted hwork'⟩, harrivals.trans (arrivals_posted _)⟩
    · rw [if_neg hk]
      exact ⟨trivial, rfl⟩

theorem not_mem_posted (s : Session) : Incident.removed ∉ s.posted := by
  unfold Session.posted
  split_ifs <;> simp

variable (opens) in
theorem Shows.prompt (ha : w.Shows j a) (hc : w.client.Tidy) (h : Happening) {es : List Incident}
    (hclosing : ∀ s ∈ w.client.sessions[j]?, ∀ s' ∈ (w.apply h).client.sessions[j]?,
      s.removed = false → s'.removed = true → s.isReady = false)
    (hes : (a.run opens (w.incidents j h)).Prompt opens es) :
    a.Prompt opens (w.incidents j h ++ es) := by
  by_cases hmem : .removed ∈ w.incidents j h
  · obtain ⟨s, hs, hsession, -⟩ := ha
    cases h with
    | moves m plain =>
      simp only [incidents, hs] at hmem hes ⊢
      by_cases hm : m.session? = some j
      · rw [if_pos hm] at hmem
        split_ifs at hmem
        · simp [not_mem_posted] at hmem
        · cases hmem
      · rw [if_neg hm] at hmem hes ⊢
        split_ifs at hmem hes ⊢ with hcloses
        · obtain ⟨hopen, s', hs', hremoved⟩ := hcloses
          have hreceived : w.client.received j m = [] := by
            obtain ⟨s'', hs'', rfl | ⟨hnone, -⟩⟩ := Client.session_of_other hc hm hs
            · obtain rfl := Option.some.inj (hs''.symm.trans hs')
              rw [Session.removed_foldl_deliver, hopen] at hremoved
              cases hremoved
            · exact hnone
          rw [hreceived] at hes ⊢
          refine ⟨fun _ => ?_, hes⟩
          rw [hsession]
          exact hclosing s hs s' hs' hopen hremoved
        · simp at hmem
    | answers k ok =>
      simp only [incidents, hs] at hmem
      split_ifs at hmem
      · cases he : s.incident? ok with
        | none => simp [he] at hmem
        | some e =>
          have hne : e ≠ .removed := by
            rintro rfl
            unfold Session.incident? at he
            split at he <;> cases he
          simp [he, not_mem_posted, hne.symm] at hmem
      · cases hmem
  · exact hes.append hmem

/-- The life of a session in a run: what it goes through, as long as no other session has its
checkpointer. -/
structure Lives (j : Nat) (w : World) (hs : List Happening) (a : Watch)
    (opens : Checkpoint → Session) (es : List Incident) : Prop where
  shows : (w.run hs).Shows j (a.run opens es)
  apt : a.Apt opens es
  arrivals : Incident.arrivals es = gather (received j) w hs
  outputs : gather (outputs j) w hs = a.history opens es
  prompt : Prompt j w hs → a.Prompt opens es

variable (opens) in
theorem Shows.lives (ha : w.Shows j a) (hc : w.client.Tidy) {hs : List Happening}
    (hp : Always (Private i j) w hs) : Lives j w hs a opens (gather (incidents j) w hs) ∧
      gather (own j) w hs = ((gather (incidents j) w hs).filter (!·.isArrival)).map .goes := by
  induction hs generalizing w a with
  | nil =>
    refine ⟨⟨ha, trivial, rfl, rfl, fun hprompt => ?_⟩, rfl⟩
    obtain ⟨s, hs, hsession, -⟩ := ha
    change a.session.isReady = false
    rw [hsession]
    exact hprompt s hs
  | cons h hs ih =>
    obtain ⟨hapt, harrivals⟩ := ha.apt opens hc h
    have houtputs := ha.outputs opens hp.1.2 h
    have hprompts {es : List Incident} := @Shows.prompt opens w a j ha hc h es
    obtain ⟨⟨hshows, hapt', harrivals', houtputs', hprompts'⟩, hown⟩ :=
      ih (ha.apply opens hc hp.1.2 h) (hc.apply _) hp.2
    obtain ⟨s, hs', -⟩ := ha
    refine ⟨⟨?_, hapt.append hapt', ?_, ?_,
      fun hprompt => hprompts hprompt.1 (hprompts' hprompt.2)⟩, ?_⟩
    · rw [gather, Watch.run_append]
      exact hshows
    · rw [gather, hapt.arrivals_append, harrivals, harrivals', gather]
    · rw [gather, gather, Watch.history_append, houtputs, houtputs']
    · rw [gather, gather, List.filter_append, List.map_append, hown]
      simp only [own, hs']

theorem quiet_of_none (hno : w.client.sessions[j]? = none) (h : Happening) :
    w.received j h = [] ∧ w.outputs j h = [] := by
  simp only [received, Client.received, World.outputs, hno, and_self]

/-- A session that is not there yet is never made, or it is made once and lives from then on. -/
theorem lives_of_none (hc : w.client.Tidy) {hs : List Happening} (hp : Always (Private i j) w hs)
    (hno : w.client.sessions[j]? = none) :
    gather (own j) w hs = [] ∧ gather (outputs j) w hs = [] ∧
        (w.run hs).client.sessions[j]? = none ∨
      ∃ s c es, gather (own j) w hs = .made s c :: (es.filter (!·.isArrival)).map .goes ∧
        Lives j w hs ⟨s, c, []⟩ (fun _ => s) es := by
  induction hs generalizing w with
  | nil => exact Or.inl ⟨rfl, rfl, hno⟩
  | cons h hs ih =>
    obtain ⟨hreceived, houtputs⟩ := quiet_of_none hno h
    have hlater := hc.apply (w.move h)
    simp only [gather, run_cons, houtputs, List.nil_append]
    cases hs' : (w.apply h).client.sessions[j]? with
    | none =>
      have hown : w.own j h = [] := by simp only [own, hno, hs', Option.toList_none, List.map_nil]
      rw [hown, List.nil_append]
      rcases ih hlater hp.2 hs' with hnever | ⟨s, c, es, hmade, hlives⟩
      · exact Or.inl hnever
      · refine Or.inr ⟨s, c, es, hmade, hlives.shows, hlives.apt, ?_, ?_,
          fun hprompt => hlives.prompt hprompt.2⟩
        · rw [gather, hreceived, List.nil_append]
          exact hlives.arrivals
        · rw [gather, houtputs, List.nil_append]
          exact hlives.outputs
    | some s =>
      have hown : w.own j h = [.made s.anonymous ((w.apply h).checkpoint s)] := by
        simp only [own, hno, hs', Option.toList_some, List.map_cons, List.map_nil]
      have hmade : (w.apply h).Shows j ⟨s.anonymous, (w.apply h).checkpoint s, []⟩ :=
        ⟨s, hs', rfl, rfl⟩
      obtain ⟨hlives, hgoes⟩ := hmade.lives (fun _ => s.anonymous) hlater hp.2
      refine Or.inr ⟨_, _, _, ?_, hlives.shows, hlives.apt, ?_, ?_,
        fun hprompt => hlives.prompt hprompt.2⟩
      · rw [hown, hgoes]
        rfl
      · rw [gather, hreceived, List.nil_append]
        exact hlives.arrivals
      · rw [gather, houtputs, List.nil_append]
        exact hlives.outputs

/-! ## Two runs -/

/-- A session as it stands, whoever its listener is. -/
def standing (j : Nat) (w : World) : Option Session := (w.client.sessions[j]?).map .anonymous

theorem Shows.standing (ha : w.Shows j a) : w.standing j = some a.session := by
  obtain ⟨s, hs, hsession, -⟩ := ha
  rw [World.standing, hs, hsession, Option.map_some]

/-- A session that goes through the same steps and receives the same does the same, however steps
and arrivals are interleaved. -/
theorem Lives.same {w' : World} {hs hs' : List Happening} {j' : Nat} {es es' : List Incident}
    (h : Lives j w hs a opens es) (h' : Lives j' w' hs' a opens es')
    (hown : es.filter (!·.isArrival) = es'.filter (!·.isArrival))
    (hreceived : gather (received j) w hs = gather (received j') w' hs') :
    gather (World.outputs j) w hs = gather (World.outputs j') w' hs' ∧
      (w.run hs).standing j = (w'.run hs').standing j' := by
  obtain ⟨hrun, hhistory⟩ := Watch.run_hand h.apt
  obtain ⟨hrun', hhistory'⟩ := Watch.run_hand h'.apt
  rw [h.arrivals, hreceived, hown, ← h'.arrivals] at hrun hhistory
  refine ⟨?_, ?_⟩
  · rw [h.outputs, h'.outputs, hhistory, hhistory']
  · rw [h.shows.standing, h'.shows.standing, hrun, hrun']

theorem gather_filter {α : Type} (g : World → Happening → List α) (p : α → Bool) (w : World)
    (hs : List Happening) :
    gather (fun w h => (g w h).filter p) w hs = (gather g w hs).filter p := by
  induction hs generalizing w with
  | nil => rfl
  | cons h hs ih => rw [gather, gather, List.filter_append, ih]

/-- Of steps that go on, those that are given are those that do not begin. -/
theorem filter_goes (es : List Incident) : (es.map Step.goes).filter (!·.isTaking) =
    (es.filter (!·.isBeginning)).map .goes := by
  rw [List.filter_map]
  congr 2
  funext e
  cases e <;> rfl

/-- A session that takes what waits goes through the same steps where the same is given to it. -/
theorem own_of_new {w w' : World} {hs hs' : List Happening} {i i' j j' : Nat}
    (hc : w.client.Tidy) (hc' : w'.client.Tidy) (hp : Always (Private i j) w hs)
    (hp' : Always (Private i' j') w' hs') (hno : w.client.sessions[j]? = none)
    (hno' : w'.client.sessions[j']? = none) (hprompt : Prompt j w hs)
    (hprompt' : Prompt j' w' hs') (hgiven : gather (given j) w hs = gather (given j') w' hs')
    (hreceived : gather (received j) w hs = gather (received j') w' hs') :
    gather (own j) w hs = gather (own j') w' hs' := by
  have hgiven' : (gather (own j) w hs).filter (!·.isTaking) =
      (gather (own j') w' hs').filter (!·.isTaking) := by
    rw [← gather_filter, ← gather_filter]
    exact hgiven
  rcases lives_of_none hc hp hno with ⟨hempty, -, -⟩ | ⟨s, c, es, hmade, hlives⟩ <;>
    rcases lives_of_none hc' hp' hno' with ⟨hempty', -, -⟩ | ⟨s', c', es', hmade', hlives'⟩
  · rw [hempty, hempty']
  · rw [hempty, hmade'] at hgiven'
    cases hgiven'
  · rw [hmade, hempty'] at hgiven'
    cases hgiven'
  · rw [hmade, hmade'] at hgiven' ⊢
    obtain ⟨hstart, hgoes⟩ := List.cons.inj hgiven'
    obtain ⟨rfl, rfl⟩ := Step.made.inj hstart
    rw [filter_goes, filter_goes] at hgoes
    obtain ⟨hapt, hprompts⟩ := Watch.prompt_hand hlives.apt (hlives.prompt hprompt)
    obtain ⟨hapt', hprompts'⟩ := Watch.prompt_hand hlives'.apt (hlives'.prompt hprompt')
    rw [hlives.arrivals, hreceived, ← hlives'.arrivals] at hapt hprompts
    rw [hprompts.eq hapt hapt' hprompts' (by simp) (by simp)
      (List.map_injective_iff.2 (fun _ _ => Step.goes.inj) hgoes)]

/-- A session of a new client that goes through the same steps and receives the same does the same:
it was made in both runs or in neither. -/
theorem same_of_new {w w' : World} {hs hs' : List Happening} {i i' j j' : Nat}
    (hc : w.client.Tidy) (hc' : w'.client.Tidy) (hp : Always (Private i j) w hs)
    (hp' : Always (Private i' j') w' hs') (hno : w.client.sessions[j]? = none)
    (hno' : w'.client.sessions[j']? = none)
    (hown : gather (own j) w hs = gather (own j') w' hs')
    (hreceived : gather (received j) w hs = gather (received j') w' hs') :
    gather (World.outputs j) w hs = gather (World.outputs j') w' hs' ∧
      (w.run hs).standing j = (w'.run hs').standing j' := by
  rcases lives_of_none hc hp hno with ⟨hempty, houtputs, hnever⟩ | ⟨s, c, es, hmade, hlives⟩ <;>
    rcases lives_of_none hc' hp' hno' with
      ⟨hempty', houtputs', hnever'⟩ | ⟨s', c', es', hmade', hlives'⟩
  · rw [houtputs, houtputs', World.standing, World.standing, hnever, hnever']
    exact ⟨rfl, rfl⟩
  · rw [hempty, hmade'] at hown
    cases hown
  · rw [hmade, hempty'] at hown
    cases hown
  · rw [hmade, hmade'] at hown
    obtain ⟨hstart, hgoes⟩ := List.cons.inj hown
    obtain ⟨rfl, rfl⟩ := Step.made.inj hstart
    have hsteps : es.filter (!·.isArrival) = es'.filter (!·.isArrival) :=
      List.map_injective_iff.2 (fun _ _ => Step.goes.inj) hgoes
    exact hlives.same hlives' hsteps hreceived

/-- Take two runs of a client in each of which a session is on one feed and has its checkpointer for
itself.  Let both see the same: what the feed is, how its starts and streams go, when the session
comes to it and when it leaves, and what is given to the session itself, the answers to its
questions and its removal among them.  What other sessions there are, and how their calls end or
whether they do, may differ.  In both runs the session takes what waits, until it is removed or the
run ends; or else it takes its deliveries at the same of its steps.

Then the session takes up the same deliveries in the same order, its checkpoint goes through the
same states, and it stands the same in the end; the feed has delivered up to the same block, and
asked for the same starts.  At every moment of a run, what a feed hands out is put at the end of the
queue of each session that is on it and open, and nothing else is ever put into a queue. -/
theorem listeners_do_not_disturb_each_other (channel : Channel) (identity : Identity)
    (options : Options) (checkpoints checkpoints' : String → Checkpoint)
    (hs hs' : List Happening) (i i' j j' : Nat) :
    let w : World := ⟨.new channel identity options, checkpoints⟩
    let w' : World := ⟨.new channel identity options, checkpoints'⟩
    let atEnd := w.run hs
    let atEnd' := w'.run hs'
    (Always (Private i j) w hs → Always (Private i' j') w' hs' →
      gather (sights i j) w hs = gather (sights i' j') w' hs' →
      (Prompt j w hs ∧ Prompt j' w' hs' ∧
          gather (given j) w hs = gather (given j') w' hs' ∨
        gather (own j) w hs = gather (own j') w' hs') →
      gather (World.outputs j) w hs = gather (World.outputs j') w' hs' ∧
        atEnd.standing j = atEnd'.standing j' ∧
        (atEnd.client.table.feed? i).map (·.last) = (atEnd'.client.table.feed? i').map (·.last) ∧
        ∃ starts, atEnd.client.Asked i starts ∧ atEnd'.client.Asked i' starts) ∧
    ∀ (m : Move) (k : Nat), let c := atEnd.client
      c.received k m = c.handed k m ∧
        ∀ a f s, m.feed? = some a → c.table.feed? a = some f → f.Admits m →
          c.sessions[k]? = some s → (c.apply m).sessions[k]? =
            some (if k ∈ f.sessions ∧ s.removed = false then
              { s with queue := s.queue ++ f.hands m } else s) := by
  intro w w' atEnd atEnd'
  have hc : w.client.Tidy := Client.tidy_new channel identity options
  have hc' : w'.client.Tidy := Client.tidy_new channel identity options
  refine ⟨fun hp hp' hsights hsteps => ?_, fun m k => ?_⟩
  · have hnew : w.client.berth i j [] [] = w'.client.berth i' j' [] [] :=
      (Client.berth_new ..).trans (Client.berth_new ..).symm
    have hberth := berth_run hc hp [] []
    rw [hsights, hnew, berth_run hc' hp' [] []] at hberth
    obtain ⟨hfeed, hstarts, -, hreceived⟩ := Berth.mk.inj hberth
    have hown : gather (own j) w hs = gather (own j') w' hs' := by
      rcases hsteps with ⟨hprompt, hprompt', hgiven⟩ | hown
      · exact own_of_new hc hc' hp hp' rfl rfl hprompt hprompt' hgiven hreceived.symm
      · exact hown
    obtain ⟨houtputs, hstanding⟩ := same_of_new hc hc' hp hp' rfl rfl hown hreceived.symm
    have hlast := congrArg (Option.map fun f : Feed => f.last) hfeed.symm
    rw [Option.map_map, Option.map_map] at hlast
    refine ⟨houtputs, hstanding, hlast, _, asked_run hc hs rfl, ?_⟩
    rw [← hstarts]
    exact asked_run (i := i') hc' hs' rfl
  · intro c
    have hend : c.Tidy := tidy_run hc hs
    refine ⟨Client.received_eq_handed hend m k, fun a f s hm hf hadmits hsk => ?_⟩
    simpa only [Client.aboard_iff hf hsk] using Client.session_of_feed_move hend hf hm hadmits hsk

/-- A block listener with a checkpoint is alone on the feed of a peer, and takes a block. -/
def alone : List Happening :=
  [.moves (.addListener (.blocks (.app "a")) { checkpointer := some "c" }) rfl,
    .moves (.checkpointRead 0 (.ok none)) rfl, .moves (.requestStream 0) rfl,
    .moves (.streamOpened 0) rfl, .moves (.resume 0 128) rfl,
    .moves (.blockArrived 0 mintAndBurn) rfl, .moves (.takeNext 0) rfl, .answers 0 true,
    .answers 0 true, .answers 0 true]

/-- Another listener was there first, its feed had asked for a stream already, and its call for the
block never ends; it is removed while the one with the checkpoint is being called. -/
def besideStuck : List Happening :=
  [.moves (.addListener (.blocks (.app "b")) {}) rfl, .moves (.requestStream 0) rfl,
    .moves (.addListener (.blocks (.app "a")) { checkpointer := some "c" }) rfl,
    .moves (.checkpointRead 1 (.ok none)) rfl, .moves (.streamOpened 0) rfl,
    .moves (.resume 0 128) rfl, .moves (.resume 1 128) rfl,
    .moves (.blockArrived 0 mintAndBurn) rfl, .moves (.takeNext 0) rfl,
    .moves (.takeNext 1) rfl, .answers 1 true, .moves (.remove (.blocks (.app "b"))) rfl,
    .answers 1 true, .answers 1 true]

/-- A new client of one peer, and checkpoints that are empty. -/
def fresh : World := ⟨.new Client.onePeer ⟨"org", []⟩ .default, fun _ => .empty⟩

/-- In both runs the block is taken up and the checkpoint comes to the block after it. -/
theorem undisturbed_by_stuck_listener :
    let done : List Output := [.handles (.block "peer" mintAndBurn), .stores ⟨some 8, []⟩]
    Always (Private 0 0) fresh alone ∧ Always (Private 0 1) fresh besideStuck ∧
      Prompt 0 fresh alone ∧ Prompt 1 fresh besideStuck ∧
      gather (sights 0 0) fresh alone = gather (sights 0 1) fresh besideStuck ∧
      gather (given 0) fresh alone = gather (given 1) fresh besideStuck ∧
      gather (outputs 0) fresh alone = done ∧ gather (outputs 1) fresh besideStuck = done := by
  intro done
  have hp : Always (Private 0 0) fresh alone := by decide +kernel
  have hp' : Always (Private 0 1) fresh besideStuck := by decide +kernel
  have hprompt : Prompt 0 fresh alone := by decide +kernel
  have hprompt' : Prompt 1 fresh besideStuck := by decide +kernel
  have hsights : gather (sights 0 0) fresh alone = gather (sights 0 1) fresh besideStuck := rfl
  have hgiven : gather (given 0) fresh alone = gather (given 1) fresh besideStuck := rfl
  obtain ⟨houtputs, -⟩ := (listeners_do_not_disturb_each_other Client.onePeer ⟨"org", []⟩ .default
    (fun _ => .empty) (fun _ => .empty) alone besideStuck 0 0 0 1).1 hp hp' hsights
    (Or.inl ⟨hprompt, hprompt', hgiven⟩)
  have hdone : gather (outputs 0) fresh alone = done := by decide +kernel
  exact ⟨hp, hp', hprompt, hprompt', hsights, hgiven, hdone, houtputs.symm.trans hdone⟩

end World

end LedgerClient
