import LedgerClient.Proofs.Dispatches
import LedgerClient.Proofs.FailedCalls

/-!
# Clients and their checkpoints

A world is a client together with the checkpoints of its listeners, each under the name of its
checkpointer.  Whatever happens in it is a run of incidents to one session (`World.Shows.apply`),
and what the session is seen to do is what it does in these (`World.Shows.outputs`), as long as no
other session has its checkpointer: then its checkpoint changes by the answers to its own questions
alone.
-/

namespace LedgerClient

/-! ## Sessions without a name -/

/-- The audience, whoever its listener is. -/
def Audience.anonymous : Audience → Audience
  | .block _ c => .block (.mailbox 0) c
  | .contract _ f c => .contract (.mailbox 0) f c
  | .commit _ peer id => .commit (.mailbox 0) peer id

@[simp] theorem Audience.plan_anonymous (a : Audience) (d : Delivery) :
    a.anonymous.plan d = a.plan d := by
  cases a <;> cases d <;> rfl

@[simp] theorem Audience.checkpointer_anonymous (a : Audience) :
    a.anonymous.checkpointer = a.checkpointer := by
  cases a <;> rfl

namespace Session

theorem take_of_nil {s : Session} (hq : s.queue = []) : s.take = s := by
  cases hw : s.work <;> simp only [take, hw, hq]

theorem take_of_cons {s : Session} {d : Delivery} {rest : List Delivery} (hw : s.work = none)
    (hq : s.queue = d :: rest) : s.take = if s.removed = true then { s with queue := [] } else
      if s.accepts d = true then
        ({ s with queue := rest } : Session).follow (numberOf d) (s.audience.plan d)
      else { s with queue := rest } := by
  rcases s.take_cases with
    ⟨-, hno⟩ | ⟨-, hr, ht⟩ | ⟨d', rest', -, hr, hq', ⟨hacc, ht⟩ | ⟨hacc, ht⟩⟩
  · simp [hw, hq] at hno
  · rw [ht, if_pos hr]
  all_goals
    obtain ⟨rfl, rfl⟩ := List.cons.inj (hq.symm.trans hq')
    rw [ht, if_neg (by simp [hr])]
  · rw [if_pos hacc]
  · rw [if_neg (by simp [hacc])]

/-- A session, whoever its listener is: how it goes on does not depend on that. -/
def anonymous (s : Session) : Session := { s with audience := s.audience.anonymous }

/-- Whether the session tells an outcome to a mailbox, which takes it at once. -/
def posts (s : Session) : Bool :=
  match s.question? with
  | some (.tell (.mailbox _) (.commit _)) => true
  | _ => false

theorem posts_iff {s : Session} :
    s.posts = true ↔ ∃ n o, s.question? = some (.tell (.mailbox n) (.commit o)) := by
  unfold posts
  split
  · next n o hq => simp [hq]
  · next hno => simpa using fun n o hq => hno n o hq

/-- The session when its mailbox, if it tells one, has taken the outcome. -/
def served (s : Session) : Session := if s.posts then s.answer (.told true) else s

/-- What it is to a session that its mailbox takes an outcome. -/
def posted (s : Session) : List Incident := if s.posts then [.calls true] else []

/-- What an answer to the question in hand is to the session.  Without a checkpointer nothing can be
read or changed. -/
def incident? (s : Session) (ok : Bool) : Option Incident :=
  match s.question? with
  | none => none
  | some (.next _) | some (.delivered _) => some (.reads (ok && s.audience.checkpointer.isSome))
  | some (.change _ _) => some (.changes (ok && s.audience.checkpointer.isSome))
  | some (.tell _ _) => some (.calls ok)

section Anonymous

variable (s : Session)

theorem anonymous_follow (n : Option Nat) (p : Plan) :
    (s.follow n p).anonymous = s.anonymous.follow n p := by
  unfold follow
  dsimp only [anonymous]
  split <;> rfl

theorem anonymous_answer (r : Response) : (s.answer r).anonymous = s.anonymous.answer r := by
  unfold answer
  dsimp only [anonymous]
  split <;> first | exact s.anonymous_follow _ _ | rfl

theorem accepts_anonymous (d : Delivery) : s.anonymous.accepts d = s.accepts d := by
  cases d <;> rfl

theorem anonymous_take : s.take.anonymous = s.anonymous.take := by
  cases hw : s.work with
  | some np =>
    have hbusy (s : Session) (hw : s.work = some np) : s.take = s := by simp only [take, hw]
    rw [hbusy s hw, hbusy s.anonymous hw]
  | none =>
    cases hq : s.queue with
    | nil => rw [take_of_nil hq, take_of_nil (s := s.anonymous) hq]
    | cons d rest =>
      rw [take_of_cons hw hq, take_of_cons (s := s.anonymous) hw hq, accepts_anonymous]
      rw [show s.anonymous.audience.plan d = _ from s.audience.plan_anonymous d]
      rw [show s.anonymous.removed = s.removed from rfl]
      split_ifs
      · rfl
      · exact anonymous_follow ..
      · rfl

theorem upNext?_anonymous : s.anonymous.upNext? = s.upNext? := by
  have hremoved : s.anonymous.removed = s.removed := rfl
  have hwork : s.anonymous.work = s.work := rfl
  have hqueue : s.anonymous.queue = s.queue := rfl
  unfold upNext?
  simp only [hwork, hqueue, hremoved, accepts_anonymous]

theorem upNext?_of_not_ready {s : Session} (h : ¬ s.isReady = true) : s.upNext? = none := by
  unfold upNext?
  split
  · next hw hq => exact absurd (by simp [isReady, hw, hq]) h
  · rfl

theorem anonymous_foldl_deliver (ds : List Delivery) :
    (ds.foldl deliver s).anonymous = ds.foldl deliver s.anonymous := by
  rw [foldl_deliver_eq, foldl_deliver_eq]
  have hremoved : s.anonymous.removed = s.removed := rfl
  rw [hremoved]
  split_ifs <;> rfl

end Anonymous

end Session

/-! ## What a move does to a session -/

namespace Client

variable {c : Client} {j : Nat} {s : Session}

theorem serve_session (hs : c.sessions[j]? = some s) :
    (c.serve j).sessions[j]? = some s.served := by
  unfold serve Session.served
  rw [hs, Option.bind_some]
  split
  · next hq =>
    rw [if_neg (by simp [Session.posts_iff, hq]), hs]
  · next n o hq =>
    obtain ⟨waits, agenda, h⟩ := post_eq c n o
    rw [if_pos (Session.posts_iff.2 ⟨n, o, hq⟩), h]
    simp [modifySession, hs]
  · next q hno hq =>
    rw [if_neg fun hposts => ?_]
    · exact hs
    · obtain ⟨n, o, htell⟩ := Session.posts_iff.1 hposts
      exact hno n o (Option.some.inj (hq.symm.trans htell))

theorem session_takeNext (hs : c.sessions[j]? = some s) :
    (c.apply (.takeNext j)).sessions[j]? = some (if s.isReady then s.take.served else s) := by
  simp only [apply, takeNext, hs]
  split_ifs
  · exact serve_session (by simp [modifySession, hs])
  · exact hs

theorem session_answer (hs : c.sessions[j]? = some s) {r : Response} (hr : s.expects r = true) :
    (c.apply (.answer j r)).sessions[j]? = some (s.answer r).served := by
  simp only [apply, answer, hs, hr, if_true]
  exact serve_session (by simp [modifySession, hs])

theorem session_of_other_session {m : Move} {k : Nat} (hm : m.session? = some k) (hk : k ≠ j) :
    (c.apply m).sessions[j]? = c.sessions[j]? := by
  rcases session_move_cases (c := c) hm with ⟨-, heq⟩ | ⟨s₁, s', -, -, hserves⟩
  · rw [heq]
  · rw [hserves.sessions, if_neg hk]

/-- A session that does not move takes what it receives, or is closed. -/
theorem session_of_other (hc : c.Tidy) {m : Move} (hm : m.session? ≠ some j)
    (hs : c.sessions[j]? = some s) : ∃ s', (c.apply m).sessions[j]? = some s' ∧
      (s' = (c.received j m).foldl Session.deliver s ∨ c.received j m = [] ∧ s' = s.close) := by
  cases hfeed : m.feed? with
  | some k =>
    rcases feed_move_cases (c := c) hfeed with ⟨-, heq⟩ | ⟨f, hadmits, hf⟩
    · rw [received_eq_nil (congrArg (·.sessions[j]?) heq), heq]
      exact ⟨s, hs, Or.inl rfl⟩
    · refine ⟨_, session_of_feed_move hc hf.feed hfeed hadmits hs, Or.inl ?_⟩
      rw [received_eq_handed hc]
      simp only [handed, hfeed, hf.feed, hadmits, true_and, Session.foldl_deliver_eq]
      split_ifs with haboard hr hr
      · rfl
      · exact absurd ((aboard_iff hf.feed hs).1 haboard).2 hr
      · rw [List.append_nil]
      · rfl
  | none =>
    rw [received_of_not_feed hfeed]
    cases hsession : m.session? with
    | some k =>
      have hkj : k ≠ j := fun heq => hm (heq ▸ hsession)
      exact ⟨s, (session_of_other_session hsession hkj).trans hs, Or.inl rfl⟩
    | none =>
      obtain ⟨s', hs', rfl | rfl⟩ := Deeds.session (deeds_apply c hfeed hsession) hs
      · exact ⟨_, hs', Or.inl rfl⟩
      · exact ⟨_, hs', Or.inr ⟨rfl, rfl⟩⟩

end Client

/-! ## Worlds -/

/-- A client, and the checkpoints that are kept under the names of checkpointers. -/
structure World where
  client : Client
  checkpoints : String → Checkpoint

/-- Whether a move brings a session an answer. -/
def Move.isAnswer : Move → Bool
  | .answer _ _ => true
  | _ => false

theorem eq_takeNext {m : Move} {j : Nat} (hm : m.session? = some j) (plain : m.isAnswer = false) :
    m = .takeNext j := by
  cases m <;> simp_all [Move.session?, Move.isAnswer]

/-- What happens in a world: a move, or the question of a session is answered.  Then `ok` says
whether the reading or the change of its checkpoint, or the call of its listener, succeeds. -/
inductive Happening where
  | moves (m : Move) (plain : m.isAnswer = false)
  | answers (session : Nat) (ok : Bool)

/-- Whether the session `j` takes its next delivery. -/
def Happening.takes (j : Nat) : Happening → Bool
  | .moves (.takeNext k) _ => k = j
  | _ => false

/-- Whether a session takes its next delivery. -/
def Incident.isBeginning : Incident → Bool
  | .begins => true
  | _ => false

namespace World

/-- The checkpoint of a session's checkpointer. -/
def checkpoint (w : World) (s : Session) : Checkpoint :=
  (s.audience.checkpointer.map w.checkpoints).getD .empty

/-- The answer to the question of a session. -/
def response (w : World) (s : Session) (ok : Bool) : Response :=
  let read := ok && s.audience.checkpointer.isSome
  match s.question? with
  | some (.next _) => .next (if read then some (w.checkpoint s).next else none)
  | some (.delivered _) => .delivered (if read then some (w.checkpoint s).delivered else none)
  | some (.change _ _) => .changed
  | some (.tell _ _) | none => .told ok

/-- The checkpoints when a session has its answer; a change that fails changes nothing. -/
def changed (w : World) (s : Session) (ok : Bool) (name : String) : Checkpoint :=
  match s.question? with
  | some (.change _ c) =>
    if ok = true ∧ s.audience.checkpointer = some name then (w.checkpoints name).apply c
    else w.checkpoints name
  | _ => w.checkpoints name

/-- What a happening is to the client. -/
def move (w : World) : Happening → Move
  | .moves m _ => m
  | .answers j ok => .answer j ((w.client.sessions[j]?).elim (.told ok) (w.response · ok))

def apply (w : World) (h : Happening) : World where
  client := w.client.apply (w.move h)
  checkpoints :=
    match h with
    | .moves _ _ => w.checkpoints
    | .answers j ok => (w.client.sessions[j]?).elim w.checkpoints (w.changed · ok)

def run (w : World) (hs : List Happening) : World := hs.foldl apply w

@[simp] theorem run_nil (w : World) : w.run [] = w := rfl

@[simp] theorem run_cons (w : World) (h : Happening) (hs : List Happening) :
    w.run (h :: hs) = (w.apply h).run hs := rfl

/-- Gathers what the happenings of a run give. -/
def gather {α : Type} (g : World → Happening → List α) : World → List Happening → List α
  | _, [] => []
  | w, h :: hs => g w h ++ gather g (w.apply h) hs

/-- At every moment of a run. -/
def Always (P : World → Prop) : World → List Happening → Prop
  | w, [] => P w
  | w, h :: hs => P w ∧ Always P (w.apply h) hs

instance decidableAlways (P : World → Prop) [DecidablePred P] :
    ∀ (w : World) (hs : List Happening), Decidable (Always P w hs)
  | w, [] => inferInstanceAs (Decidable (P w))
  | w, h :: hs =>
    have := decidableAlways P (w.apply h) hs
    inferInstanceAs (Decidable (_ ∧ _))

/-- No other session has the checkpointer of the session `j`. -/
def Unshared (j : Nat) (c : Client) : Prop :=
  ∀ k < c.sessions.length, k ≠ j → ∀ s ∈ c.sessions[k]?, ∀ s' ∈ c.sessions[j]?,
    ∀ name ∈ s.audience.checkpointer, s'.audience.checkpointer ≠ some name

instance (j : Nat) (c : Client) : Decidable (Unshared j c) :=
  inferInstanceAs (Decidable
    (∀ k < c.sessions.length, k ≠ j → ∀ s ∈ c.sessions[k]?, ∀ s' ∈ c.sessions[j]?,
      ∀ name ∈ s.audience.checkpointer, s'.audience.checkpointer ≠ some name))

/-- The session `j` is on no feed but `i`, and its checkpointer is its own. -/
def Private (i j : Nat) (w : World) : Prop := w.client.Only i j ∧ Unshared j w.client

instance (i j : Nat) : DecidablePred (Private i j) := fun w =>
  inferInstanceAs (Decidable (w.client.Only i j ∧ Unshared j w.client))

/-! ## What happens to one session -/

/-- What a happening is to the session `j`. -/
def incidents (j : Nat) (w : World) (h : Happening) : List Incident :=
  match w.client.sessions[j]? with
  | none => []
  | some s =>
    match h with
    | .moves m _ =>
      if m.session? = some j then
        if s.isReady then .begins :: s.take.posted else []
      else
        (w.client.received j m).map .arrives ++
          if s.removed = false ∧ ∃ s' ∈ (w.client.apply m).sessions[j]?, s'.removed = true then
            [.removed] else []
    | .answers k ok =>
      if k = j then
        match s.incident? ok with
        | none => []
        | some e => e :: (s.answer (w.response s ok)).posted
      else []

/-- A session at work, with the checkpoint that it has in the world. -/
def Shows (j : Nat) (w : World) (a : Watch) : Prop :=
  ∃ s, w.client.sessions[j]? = some s ∧ a.session = s.anonymous ∧
    a.account.checkpoint = w.checkpoint s

/-! ### The session's own steps -/

section Own

variable (opens : Checkpoint → Session) {w : World} {s : Session} {a : Watch} {ok : Bool}

/-- The checkpoint of a session when it has its answer. -/
def answered (w : World) (s : Session) (ok : Bool) : Checkpoint :=
  match s.question? with
  | some (.change _ c) =>
    if ok && s.audience.checkpointer.isSome then (w.checkpoint s).apply c else w.checkpoint s
  | _ => w.checkpoint s

/-- The answer to a question is the incident that it is to the session. -/
theorem after_incident {e : Incident} (ha : a.session = s.anonymous)
    (hc : a.account.checkpoint = w.checkpoint s) (he : s.incident? ok = some e) :
    (a.after opens e).session = (s.answer (w.response s ok)).anonymous ∧
      (a.after opens e).account.checkpoint = w.answered s ok := by
  rw [Session.anonymous_answer, ← ha]
  have hchecks : a.session.audience.checkpointer = s.audience.checkpointer := by
    rw [ha]
    exact s.audience.checkpointer_anonymous
  have hwork : a.session.work = s.work := by rw [ha]; rfl
  cases hw : s.work with
  | none => simp [Session.incident?, Session.question?, hw] at he
  | some np =>
    obtain ⟨n, p⟩ := np
    rw [hw] at hwork
    cases p with
    | finished | unlessRemoved => simp [Session.incident?, Session.question?, hw] at he
    | askNext go | askDelivered go | tell m go =>
      simp only [Session.incident?, Session.question?, hw, Option.some.injEq] at he
      subst he
      simp [Watch.after, answered, response, Session.question?, hw, hwork, hc]
    | change c go =>
      simp only [Session.incident?, Session.question?, hw, Option.some.injEq] at he
      subst he
      simp only [Watch.after, answered, response, Session.question?, hw, hwork, true_and]
      split_ifs
      · rw [Account.change_checkpoint, hc]
      · exact hc

theorem run_posts (ha : a.session = s.anonymous) :
    (a.run opens s.posted).session = s.served.anonymous ∧
      (a.run opens s.posted).account.checkpoint = a.account.checkpoint := by
  unfold Session.served Session.posted
  split_ifs with hposts
  · unfold Session.posts at hposts
    split at hposts
    · next l o hq =>
      obtain ⟨n, go, hw⟩ := Session.question?_eq_tell hq
      have hwork : a.session.work = s.work := by rw [ha]; rfl
      rw [hw] at hwork
      rw [Session.anonymous_answer, ← ha]
      simp [Watch.after, Session.question?, hwork]
    · cases hposts
  · exact ⟨ha, rfl⟩

end Own

/-! ### Any happening -/

section Any

variable (opens : Checkpoint → Session) {w : World} {s : Session} {a : Watch} {ok : Bool} {j : Nat}

theorem expects_response {e : Incident} (he : s.incident? ok = some e) :
    s.expects (w.response s ok) = true := by
  cases hw : s.work with
  | none => simp [Session.incident?, Session.question?, hw] at he
  | some np =>
    obtain ⟨n, p⟩ := np
    cases p <;> simp_all [Session.incident?, Session.question?, response, Session.expects]

theorem expects_of_silent (he : s.incident? ok = none) (r : Response) : s.expects r = false := by
  cases hw : s.work with
  | none => simp [Session.expects, hw]
  | some np =>
    obtain ⟨n, p⟩ := np
    cases p <;> simp_all [Session.incident?, Session.question?, Session.expects]

theorem isBeginning_of_incident {e : Incident} (he : s.incident? ok = some e) :
    e.isBeginning = false := by
  unfold Session.incident? at he
  split at he <;> cases he <;> rfl

theorem question?_of_silent (he : s.incident? ok = none) : s.question? = none := by
  unfold Session.incident? at he
  split at he <;> first | assumption | cases he

theorem checkpoint_changed {s' : Session} (haudience : s'.audience = s.audience) :
    World.checkpoint ⟨w.client, w.changed s ok⟩ s' = w.answered s ok := by
  unfold World.checkpoint answered
  rw [haudience]
  cases hname : s.audience.checkpointer with
  | none =>
    have hsame : w.checkpoint s = .empty := by simp [World.checkpoint, hname]
    split <;> simp [hsame]
  | some name =>
    have hsame : w.checkpoint s = w.checkpoints name := by simp [World.checkpoint, hname]
    unfold changed
    split <;> simp [hname, hsame]

/-- The answer to another session leaves the checkpoint as it is. -/
theorem checkpoint_of_unshared (hp : Unshared j w.client) {k : Nat} (hk : k ≠ j)
    (hs : w.client.sessions[j]? = some s) :
    (w.apply (.answers k ok)).checkpoint s = w.checkpoint s := by
  unfold World.checkpoint
  cases hname : s.audience.checkpointer with
  | none => rfl
  | some name =>
    simp only [Option.map_some, Option.getD_some, apply]
    cases hsk : w.client.sessions[k]? with
    | none => rfl
    | some sk =>
      have hother : sk.audience.checkpointer ≠ some name := fun heq =>
        hp k (List.getElem?_eq_some_iff.1 hsk).1 hk sk hsk s hs name heq hname
      rw [Option.elim_some, changed]
      split <;> simp [hother]

theorem checkpoint_of_audience {s' : Session} (haudience : s'.audience = s.audience) :
    w.checkpoint s' = w.checkpoint s := by
  rw [World.checkpoint, haudience, World.checkpoint]

theorem run_arrives (ds : List Delivery) (a : Watch) :
    a.run opens (ds.map .arrives) = ⟨ds.foldl Session.deliver a.session, a.account⟩ := by
  induction ds generalizing a with
  | nil => rfl
  | cons d ds ih => exact ih _

theorem audience_served (s : Session) : s.served.audience = s.audience := by
  unfold Session.served
  split_ifs
  · exact s.audience_answer _
  · rfl

theorem Shows.moves (ha : w.Shows j a) (hc : w.client.Tidy) {m : Move}
    (plain : m.isAnswer = false) :
    (w.apply (.moves m plain)).Shows j (a.run opens (w.incidents j (.moves m plain))) := by
  obtain ⟨s, hs, hsession, hcheckpoint⟩ := ha
  -- whatever else it does, a move leaves the checkpoints and the audience as they are
  have shows {s' : Session} {b : Watch} (hs' : (w.client.apply m).sessions[j]? = some s')
      (haudience : s'.audience = s.audience) (hb : b.session = s'.anonymous)
      (hbc : b.account.checkpoint = a.account.checkpoint) : (w.apply (.moves m plain)).Shows j b :=
    ⟨s', hs', hb, hbc.trans (hcheckpoint.trans (checkpoint_of_audience haudience).symm)⟩
  simp only [incidents, hs]
  by_cases hm : m.session? = some j
  · obtain rfl := eq_takeNext hm plain
    rw [if_pos hm]
    have htake := Client.session_takeNext hs
    by_cases hready : s.isReady = true
    · rw [if_pos hready] at htake ⊢
      have hbegins : (a.after opens .begins).session = s.take.anonymous := by
        rw [Session.anonymous_take, ← hsession]
        rfl
      obtain ⟨hsession', hcheckpoint'⟩ := run_posts opens hbegins
      exact shows htake ((audience_served _).trans s.audience_take) hsession' hcheckpoint'
    · rw [if_neg hready] at htake ⊢
      exact shows htake rfl hsession rfl
  · rw [if_neg hm]
    rw [Watch.run_append]
    obtain ⟨s', hs', rfl | ⟨hreceived, rfl⟩⟩ := Client.session_of_other hc hm hs
    · have hopen : ¬ (s.removed = false ∧
          ∃ s' ∈ (w.client.apply m).sessions[j]?, s'.removed = true) := by
        simp only [hs', Option.mem_def, Option.some.injEq]
        rintro ⟨hr, s', rfl, hr'⟩
        rw [Session.removed_foldl_deliver, hr] at hr'
        cases hr'
      rw [if_neg hopen, Watch.run_nil, run_arrives]
      exact shows hs' (Session.audience_foldl_deliver _ _)
        (by rw [Session.anonymous_foldl_deliver, hsession]) rfl
    · rw [hreceived, List.map_nil, Watch.run_nil, hs']
      by_cases hr : s.removed = false
      · rw [if_pos ⟨hr, s.close, rfl, rfl⟩]
        have hclosed : (a.run opens [.removed]).session = s.close.anonymous := by
          rw [Watch.run_cons, Watch.run_nil, Watch.after, hsession]
          rfl
        exact shows hs' rfl hclosed rfl
      · rw [if_neg fun h => hr h.1]
        have hsame : s.close = s := by
          rw [Session.close, ← show s.removed = true by simpa using hr]
        exact shows hs' rfl (by rw [hsame]; exact hsession) rfl

theorem Shows.answers (ha : w.Shows j a) (hp : Unshared j w.client) (k : Nat) (ok : Bool) :
    (w.apply (.answers k ok)).Shows j (a.run opens (w.incidents j (.answers k ok))) := by
  obtain ⟨s, hs, hsession, hcheckpoint⟩ := ha
  simp only [incidents, hs]
  by_cases hk : k = j
  · subst hk
    have hmove : w.move (.answers k ok) = .answer k (w.response s ok) := by
      simp only [move, hs, Option.elim_some]
    have happly : w.apply (.answers k ok) =
        ⟨w.client.apply (.answer k (w.response s ok)), w.changed s ok⟩ := by
      simp only [apply, hmove, hs, Option.elim_some]
    rw [happly, if_pos rfl]
    cases he : s.incident? ok with
    | none =>
      have hsame : w.client.apply (.answer k (w.response s ok)) = w.client := by
        simp only [Client.apply, Client.answer, hs, expects_of_silent he, Bool.false_eq_true,
          if_false]
      have hanswered : w.answered s ok = w.checkpoint s := by
        rw [answered, question?_of_silent he]
      exact ⟨s, by rw [hsame]; exact hs, hsession,
        hcheckpoint.trans (hanswered.symm.trans (checkpoint_changed rfl).symm)⟩
    | some e =>
      obtain ⟨hsession', hcheckpoint'⟩ := after_incident opens hsession hcheckpoint he
      obtain ⟨hsession'', hcheckpoint''⟩ := run_posts opens hsession'
      refine ⟨_, Client.session_answer hs (expects_response he), hsession'', hcheckpoint''.trans ?_⟩
      exact hcheckpoint'.trans (checkpoint_changed
        ((audience_served _).trans (s.audience_answer _))).symm
  · rw [if_neg hk]
    have hs' : (w.apply (.answers k ok)).client.sessions[j]? = some s :=
      (Client.session_of_other_session rfl hk).trans hs
    exact ⟨s, hs', hsession, hcheckpoint.trans (checkpoint_of_unshared hp hk hs).symm⟩

/-- What happens to a session is a run of incidents, in which it keeps its own checkpoint. -/
theorem Shows.apply (ha : w.Shows j a) (hc : w.client.Tidy) (hp : Unshared j w.client)
    (h : Happening) : (w.apply h).Shows j (a.run opens (w.incidents j h)) := by
  cases h with
  | moves m plain => exact ha.moves opens hc plain
  | answers k ok => exact ha.answers opens hp k ok

end Any

/-! ## What a session is seen to do -/

/-- What a session does: it takes up a delivery, or brings its checkpoint to a new state. -/
inductive Output where
  | handles (d : Delivery)
  | stores (c : Checkpoint)
  deriving DecidableEq

/-- The new state of a checkpoint, if it has changed. -/
def stored (before after : Checkpoint) : List Output :=
  if after = before then [] else [.stores after]

theorem stored_self (c : Checkpoint) : stored c c = [] := if_pos rfl

/-- What the session `j` does in a world. -/
def outputs (j : Nat) (w : World) (h : Happening) : List Output :=
  match w.client.sessions[j]? with
  | none => []
  | some s =>
    (if h.takes j then s.upNext?.toList.map .handles else []) ++
      stored (w.checkpoint s) ((w.apply h).checkpoint s)

end World

namespace Watch

variable (opens : Checkpoint → Session)

/-- What a session does in an incident. -/
def outputs (a : Watch) (e : Incident) : List World.Output :=
  (if e.isBeginning then a.session.upNext?.toList.map .handles else []) ++
    World.stored a.account.checkpoint (a.after opens e).account.checkpoint

/-- What a session does in a run of incidents. -/
def history (a : Watch) : List Incident → List World.Output
  | [] => []
  | e :: es => a.outputs opens e ++ (a.after opens e).history es

theorem history_append (a : Watch) (es es' : List Incident) :
    a.history opens (es ++ es') = a.history opens es ++ (a.run opens es).history opens es' := by
  induction es generalizing a with
  | nil => rfl
  | cons e es ih => rw [List.cons_append, history, history, ih, List.append_assoc]; rfl

variable {opens} {a : Watch}

/-- Deliveries that come, a removal and calls are neither taken up nor stored. -/
theorem outputs_of_quiet {e : Incident} (he : (∃ d, e = .arrives d) ∨ e = .removed ∨
    ∃ ok, e = .calls ok) : a.outputs opens e = [] := by
  have hsame : (a.after opens e).account.checkpoint = a.account.checkpoint := by
    rcases he with ⟨d, rfl⟩ | rfl | ⟨ok, rfl⟩
    · rfl
    · rfl
    · simp only [after]
      split <;> rfl
  have hno : e.isBeginning = false := by
    rcases he with ⟨d, rfl⟩ | rfl | ⟨ok, rfl⟩ <;> rfl
  rw [outputs, hsame, World.stored_self, hno]
  rfl

theorem history_of_quiet {es : List Incident} (hes : ∀ e ∈ es, (∃ d, e = .arrives d) ∨
    e = .removed ∨ ∃ ok, e = .calls ok) : a.history opens es = [] := by
  induction es generalizing a with
  | nil => rfl
  | cons e es ih =>
    rw [List.forall_mem_cons] at hes
    rw [history, outputs_of_quiet hes.1, ih hes.2, List.append_nil]

end Watch

namespace World

variable (opens : Checkpoint → Session) {w : World} {a : Watch} {i j : Nat}

theorem history_posted (s : Session) (b : Watch) : b.history opens s.posted = [] := by
  refine Watch.history_of_quiet fun e he => Or.inr (Or.inr ⟨true, ?_⟩)
  unfold Session.posted at he
  split_ifs at he
  · exact List.mem_singleton.1 he
  · cases he

/-- What a session is seen to do in a world is what it does in its incidents. -/
theorem Shows.outputs (ha : w.Shows j a) (hp : Unshared j w.client) (h : Happening) :
    w.outputs j h = a.history opens (w.incidents j h) := by
  obtain ⟨s, hs, hsession, hcheckpoint⟩ := ha
  have hupNext : a.session.upNext? = s.upNext? := by
    rw [hsession, Session.upNext?_anonymous]
  cases h with
  | moves m plain =>
    have hsame : (w.apply (.moves m plain)).checkpoint s = w.checkpoint s := rfl
    simp only [World.outputs, incidents, hs, hsame, stored_self, List.append_nil]
    by_cases hm : m.session? = some j
    · obtain rfl := eq_takeNext hm plain
      rw [if_pos hm, if_pos (by simp [Happening.takes])]
      by_cases hready : s.isReady = true
      · rw [if_pos hready, Watch.history, history_posted, List.append_nil, Watch.outputs, hupNext]
        exact ((congrArg _ (stored_self _)).trans (List.append_nil _)).symm
      · rw [if_neg hready, Session.upNext?_of_not_ready hready]
        rfl
    · have hno : ¬ (Happening.moves m plain).takes j = true := by
        cases m <;> simp_all [Happening.takes, Move.session?]
      rw [if_neg hm, if_neg hno, Watch.history_of_quiet]
      intro e he
      rcases List.mem_append.1 he with he | he
      · obtain ⟨d, -, rfl⟩ := List.mem_map.1 he
        exact Or.inl ⟨d, rfl⟩
      · split_ifs at he
        · exact Or.inr (Or.inl (List.mem_singleton.1 he))
        · cases he
  | answers k ok =>
    have hno : ¬ (Happening.answers k ok).takes j = true := by simp [Happening.takes]
    simp only [World.outputs, incidents, hs, if_neg hno, List.nil_append]
    by_cases hk : k = j
    · subst hk
      have hchanged : (w.apply (.answers k ok)).checkpoint s = w.answered s ok := by
        rw [← checkpoint_changed rfl]
        simp only [World.checkpoint, World.apply, hs, Option.elim_some]
      rw [if_pos rfl, hchanged]
      cases he : s.incident? ok with
      | none =>
        rw [answered, question?_of_silent he]
        exact stored_self _
      | some e =>
        obtain ⟨-, hanswered⟩ := after_incident opens hsession hcheckpoint he
        rw [Watch.history, history_posted, List.append_nil, Watch.outputs, hanswered, hcheckpoint,
          isBeginning_of_incident he]
        rfl
    · rw [if_neg hk, checkpoint_of_unshared hp hk hs, stored_self]
      rfl

end World

end LedgerClient
