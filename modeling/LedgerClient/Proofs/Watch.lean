import LedgerClient.Delivery.Session
import Mathlib.Logic.Relation
import Mathlib.Tactic.Common

/-!
# Sessions at work

A session at work is watched together with its account: the checkpoint of its checkpointer, and
what its listener was told with the answers that it gave.  What happens to it are incidents, in any
order: the feed hands over a delivery, the session is removed, it takes the next delivery, one of
its questions is answered, all stops and a new session begins.

`Plan.Keeps` is a rule for plans: whatever incidents of an allowed kind answer its questions, each
of them changes the account as a relation allows, and the account meets a condition once the plan
has come to its end.  `Watch.Rule.run` carries it from the plans of single deliveries to whole
runs, with the deliveries that are still to come (`arrivals`) at hand.
-/

namespace LedgerClient

/-! ## Accounts and incidents -/

/-- The checkpoint of a listener, and what it was told so far with its answers. -/
structure Account where
  checkpoint : Checkpoint
  told : List (Notice × Bool)

namespace Account

/-- A change of the checkpoint. -/
def change (w : Account) (c : CheckpointChange) : Account :=
  { w with checkpoint := w.checkpoint.apply c }

/-- A call of the listener that has come to its end. -/
def tell (w : Account) (n : Notice) (ok : Bool) : Account := { w with told := w.told ++ [(n, ok)] }

@[simp] theorem change_told (w : Account) (c : CheckpointChange) : (w.change c).told = w.told := rfl

@[simp] theorem change_checkpoint (w : Account) (c : CheckpointChange) :
    (w.change c).checkpoint = w.checkpoint.apply c := rfl

@[simp] theorem tell_told (w : Account) (n : Notice) (ok : Bool) :
    (w.tell n ok).told = w.told ++ [(n, ok)] := rfl

@[simp] theorem tell_checkpoint (w : Account) (n : Notice) (ok : Bool) :
    (w.tell n ok).checkpoint = w.checkpoint := rfl

end Account

/-- Something that happens to a session at work.  The flags say whether a reading or a change of
the checkpoint, or a call of the listener, succeeds. -/
inductive Incident where
  | arrives (d : Delivery)
  | removed
  | begins
  | reads (ok : Bool)
  | changes (ok : Bool)
  | calls (ok : Bool)
  /-- All stops, whatever is in hand is lost, and a new session begins. -/
  | restarts

namespace Incident

/-- Whether nothing fails in an incident. -/
def Succeeds : Incident → Prop
  | reads ok | changes ok | calls ok => ok = true
  | _ => True

/-- Whether the checkpointer does what it is asked in an incident; the listener may fail. -/
def Stores : Incident → Prop
  | reads ok | changes ok => ok = true
  | _ => True

/-- The deliveries that the present session is still handed. -/
def arrivals : List Incident → List Delivery
  | [] => []
  | .arrives d :: es => d :: arrivals es
  | .restarts :: _ => []
  | _ :: es => arrivals es

theorem mem_of_mem_arrivals {d : Delivery} {es : List Incident} (h : d ∈ arrivals es) :
    .arrives d ∈ es := by
  induction es with
  | nil => cases h
  | cons e es ih =>
    cases e <;> simp only [arrivals, List.mem_cons, List.not_mem_nil] at h ⊢
    case arrives =>
      rcases h with rfl | h
      · exact Or.inl rfl
      · exact Or.inr (ih h)
    all_goals exact Or.inr (ih h)

end Incident

/-- A session at work. -/
structure Watch where
  session : Session
  account : Account

namespace Watch

/-- A session that has nothing left to do. -/
def Idle (a : Watch) : Prop := a.session.work = none ∧ a.session.queue = []

section Steps

variable (opens : Checkpoint → Session)

/-- A session that begins with a checkpoint. -/
def start (w : Account) : Watch := ⟨opens w.checkpoint, w⟩

/-- The session after an incident; one that does not fit changes nothing. -/
def after (a : Watch) : Incident → Watch
  | .arrives d => { a with session := a.session.deliver d }
  | .removed => { a with session := a.session.close }
  | .begins => { a with session := a.session.take }
  | .reads ok =>
    match a.session.question? with
    | some (.next _) =>
      let answer := if ok then some a.account.checkpoint.next else none
      { a with session := a.session.answer (.next answer) }
    | some (.delivered _) =>
      let answer := if ok then some a.account.checkpoint.delivered else none
      { a with session := a.session.answer (.delivered answer) }
    | _ => a
  | .changes ok =>
    match a.session.question? with
    | some (.change _ c) =>
      ⟨a.session.answer .changed, if ok then a.account.change c else a.account⟩
    | _ => a
  | .calls ok =>
    match a.session.question? with
    | some (.tell _ n) => ⟨a.session.answer (.told ok), a.account.tell n ok⟩
    | _ => a
  | .restarts => start opens a.account

/-- The session after a run of incidents. -/
def run (a : Watch) (es : List Incident) : Watch := es.foldl (after opens) a

@[simp] theorem run_nil (a : Watch) : a.run opens [] = a := rfl

@[simp] theorem run_cons (a : Watch) (e : Incident) (es : List Incident) :
    a.run opens (e :: es) = (a.after opens e).run opens es := rfl

theorem run_append (a : Watch) (es es' : List Incident) :
    a.run opens (es ++ es') = (a.run opens es).run opens es' := List.foldl_append

end Steps

end Watch

/-! ## The rule for plans -/

/-- Allowed incidents that answer the questions of a plan change the account as `R` allows, and
the account meets `E` when the plan comes to its end. -/
def Plan.Keeps (allowed : Incident → Prop) (R : Account → Account → Prop) (E : Account → Prop) :
    Plan → Account → Prop
  | .finished, w => E w
  | .askNext go, w =>
    ∀ ok, allowed (.reads ok) →
      Keeps allowed R E (go (if ok then some w.checkpoint.next else none)) w
  | .askDelivered go, w =>
    ∀ ok, allowed (.reads ok) →
      Keeps allowed R E (go (if ok then some w.checkpoint.delivered else none)) w
  | .change c go, w =>
    ∀ ok, allowed (.changes ok) →
      R w (if ok then w.change c else w) ∧ Keeps allowed R E go (if ok then w.change c else w)
  | .tell n go, w =>
    ∀ ok, allowed (.calls ok) → R w (w.tell n ok) ∧ Keeps allowed R E (go ok) (w.tell n ok)
  | .unlessRemoved go, w => Keeps allowed R E go w

namespace Plan

variable {allowed : Incident → Prop} {R : Account → Account → Prop} {E E' : Account → Prop}

theorem Keeps.mono (h : ∀ w, E w → E' w) {p : Plan} {w : Account} (hp : p.Keeps allowed R E w) :
    p.Keeps allowed R E' w := by
  induction p generalizing w with
  | finished => exact h w hp
  | askNext go ih => exact fun ok hok => ih _ (hp ok hok)
  | askDelivered go ih => exact fun ok hok => ih _ (hp ok hok)
  | change c go ih => exact fun ok hok => ⟨(hp ok hok).1, ih (hp ok hok).2⟩
  | tell n go ih => exact fun ok hok => ⟨(hp ok hok).1, ih _ (hp ok hok).2⟩
  | unlessRemoved go ih => exact ih hp

/-- A session that was not removed passes the tests. -/
theorem Keeps.unguard_false {p : Plan} {w : Account} (hp : p.Keeps allowed R E w) :
    (Session.unguard false p).Keeps allowed R E w := by
  induction p with
  | unlessRemoved go ih => exact ih hp
  | _ => exact hp

/-- The tests may cut a plan short, and the condition at its end is then all that is lost. -/
theorem Keeps.unguard {p : Plan} {w : Account} (hp : p.Keeps allowed R (fun _ => True) w)
    (removed : Bool) : (Session.unguard removed p).Keeps allowed R (fun _ => True) w := by
  induction p with
  | unlessRemoved go ih =>
    cases removed with
    | false => exact ih hp
    | true => trivial
  | _ => exact hp

end Plan

namespace Session

@[simp] theorem accepts_queue (s : Session) (q : List Delivery) (d : Delivery) :
    { s with queue := q }.accepts d = s.accepts d := by
  cases d <;> rfl

/-- What a session does when it is to take its next delivery. -/
theorem take_cases (s : Session) :
    (s.take = s ∧ (s.work ≠ none ∨ s.queue = [])) ∨
      (s.work = none ∧ s.removed = true ∧ s.take = { s with queue := [] }) ∨
      ∃ d rest, s.work = none ∧ s.removed = false ∧ s.queue = d :: rest ∧
        (s.accepts d = true ∧
            s.take = { s with queue := rest }.follow (numberOf d) (s.audience.plan d) ∨
          s.accepts d = false ∧ s.take = { s with queue := rest }) := by
  unfold take
  split
  · next d rest hw hq =>
    by_cases hr : s.removed = true
    · exact Or.inr (Or.inl ⟨hw, hr, if_pos hr⟩)
    · refine Or.inr (Or.inr ⟨d, rest, hw, by simpa using hr, hq, ?_⟩)
      rw [if_neg hr]
      by_cases hacc : s.accepts d = true
      · exact Or.inl ⟨hacc, if_pos ((s.accepts_queue rest d).trans hacc)⟩
      · refine Or.inr ⟨by simpa using hacc, if_neg ?_⟩
        rwa [s.accepts_queue rest d]
  · next hno =>
    refine Or.inl ⟨rfl, ?_⟩
    cases hw : s.work with
    | some np => exact Or.inl (by simp)
    | none =>
      cases hq : s.queue with
      | nil => exact Or.inr rfl
      | cons d rest => exact absurd hq (hno d rest hw)

@[simp] theorem audience_follow (s : Session) (n : Option Nat) (p : Plan) :
    (s.follow n p).audience = s.audience := by
  unfold follow
  split <;> rfl

@[simp] theorem queue_follow (s : Session) (n : Option Nat) (p : Plan) :
    (s.follow n p).queue = s.queue := by
  unfold follow
  split <;> rfl

theorem audience_answer (s : Session) (r : Response) : (s.answer r).audience = s.audience := by
  unfold answer
  split <;> first | rfl | exact audience_follow _ _ _

theorem audience_take (s : Session) : s.take.audience = s.audience := by
  rcases s.take_cases with ⟨ht, -⟩ | ⟨-, -, ht⟩ | ⟨d, rest, -, -, -, ⟨-, ht⟩ | ⟨-, ht⟩⟩ <;>
    simp only [ht, audience_follow]

theorem audience_deliver (s : Session) (d : Delivery) : (s.deliver d).audience = s.audience := by
  unfold deliver
  split <;> rfl

@[simp] theorem removed_follow (s : Session) (n : Option Nat) (p : Plan) :
    (s.follow n p).removed = s.removed := by
  unfold follow
  split <;> rfl

theorem removed_answer (s : Session) (r : Response) : (s.answer r).removed = s.removed := by
  unfold answer
  split <;> first | rfl | exact removed_follow _ _ _

theorem removed_take (s : Session) : s.take.removed = s.removed := by
  rcases s.take_cases with ⟨ht, -⟩ | ⟨-, -, ht⟩ | ⟨d, rest, -, -, -, ⟨-, ht⟩ | ⟨-, ht⟩⟩ <;>
    simp only [ht, removed_follow]

theorem removed_deliver (s : Session) (d : Delivery) : (s.deliver d).removed = s.removed := by
  unfold deliver
  split <;> rfl

theorem floor_follow (s : Session) (n : Option Nat) (p : Plan) :
    (s.follow n p).floor = s.floor := by
  unfold follow
  split <;> rfl

/-! The questions of a session are those of the plan in hand. -/

theorem question?_eq_next {s : Session} {name : String}
    (h : s.question? = some (.next name)) : ∃ n go, s.work = some (n, .askNext go) := by
  unfold question? at h
  split at h
  · cases h
  · next p _ => cases p <;> simp_all

theorem question?_eq_delivered {s : Session} {name : String}
    (h : s.question? = some (.delivered name)) : ∃ n go, s.work = some (n, .askDelivered go) := by
  unfold question? at h
  split at h
  · cases h
  · next p _ => cases p <;> simp_all

theorem question?_eq_change {s : Session} {name : String} {c : CheckpointChange}
    (h : s.question? = some (.change name c)) : ∃ n go, s.work = some (n, .change c go) := by
  unfold question? at h
  split at h
  · cases h
  · next p _ => cases p <;> simp_all

theorem question?_eq_tell {s : Session} {l : ListenerId} {m : Notice}
    (h : s.question? = some (.tell l m)) : ∃ n go, s.work = some (n, .tell m go) := by
  unfold question? at h
  split at h
  · cases h
  · next p _ => cases p <;> simp_all

theorem work_follow {s : Session} {n : Option Nat} {p : Plan} {k : Option Nat} {p' : Plan}
    (h : (s.follow n p).work = some (k, p')) : k = n ∧ p' = unguard s.removed p := by
  unfold follow at h
  split at h
  · cases h
  · simp only [Option.some.injEq, Prod.mk.injEq] at h
    exact ⟨h.1.symm, h.2.symm⟩

theorem floor_answer (s : Session) (r : Response) : (s.answer r).floor = s.floor := by
  unfold answer
  split <;> first | rfl | exact floor_follow _ _ _

theorem queue_answer (s : Session) (r : Response) : (s.answer r).queue = s.queue := by
  unfold answer
  split <;> first | rfl | exact queue_follow _ _ _

theorem floor_take (s : Session) : s.take.floor = s.floor := by
  rcases s.take_cases with ⟨ht, -⟩ | ⟨-, -, ht⟩ | ⟨d, rest, -, -, -, ⟨-, ht⟩ | ⟨-, ht⟩⟩ <;>
    simp only [ht, floor_follow]

theorem floor_deliver (s : Session) (d : Delivery) : (s.deliver d).floor = s.floor := by
  unfold Session.deliver
  split_ifs <;> rfl

/-- What is handed to an open session stands at the end of its queue. -/
theorem foldl_deliver_eq (ds : List Delivery) (s : Session) :
    ds.foldl deliver s = if s.removed = false then { s with queue := s.queue ++ ds } else s := by
  induction ds generalizing s with
  | nil => split_ifs <;> simp
  | cons d ds ih =>
    rw [List.foldl_cons, ih, removed_deliver]
    split_ifs with hr
    · simp [deliver, hr]
    · rw [deliver, if_pos (by simpa using hr)]

theorem foldl_deliver_of_removed {s : Session} (hr : s.removed = true) (ds : List Delivery) :
    ds.foldl deliver s = s := by
  rw [foldl_deliver_eq, if_neg (by simp [hr])]

theorem removed_foldl_deliver (ds : List Delivery) (s : Session) :
    (ds.foldl deliver s).removed = s.removed := by
  rw [foldl_deliver_eq]
  split_ifs <;> rfl

theorem audience_foldl_deliver (ds : List Delivery) (s : Session) :
    (ds.foldl deliver s).audience = s.audience := by
  rw [foldl_deliver_eq]
  split_ifs <;> rfl

theorem floor_foldl_deliver (ds : List Delivery) (s : Session) :
    (ds.foldl deliver s).floor = s.floor := by
  rw [foldl_deliver_eq]
  split_ifs <;> rfl

end Session

/-! ## Progress -/

/-- Whether a plan waits for an answer. -/
def Plan.Asks : Plan → Prop
  | .finished | .unlessRemoved _ => False
  | _ => True

/-- A session is in order when the work in hand waits for an answer: it cannot be stuck. -/
def Session.InOrder (s : Session) : Prop := ∀ n p, s.work = some (n, p) → p.Asks

theorem Plan.unguard_finished_or_asks (removed : Bool) (p : Plan) :
    Session.unguard removed p = .finished ∨ (Session.unguard removed p).Asks := by
  induction p with
  | finished => exact Or.inl rfl
  | unlessRemoved go ih =>
    cases removed with
    | false => exact ih
    | true => exact Or.inl rfl
  | _ => exact Or.inr trivial

namespace Session

theorem inOrder_of_none {s : Session} (h : s.work = none) : s.InOrder := by
  intro n p hw
  rw [h] at hw
  cases hw

theorem inOrder_follow (s : Session) (n : Option Nat) (p : Plan) : (s.follow n p).InOrder := by
  unfold follow
  rcases Plan.unguard_finished_or_asks s.removed p with h | h
  · rw [h]
    exact inOrder_of_none rfl
  · split
    · exact inOrder_of_none rfl
    · rintro _ _ ⟨⟩
      exact h

theorem InOrder.answer {s : Session} (h : s.InOrder) (r : Response) : (s.answer r).InOrder := by
  unfold Session.answer
  split <;> first | exact inOrder_follow _ _ _ | exact h

theorem InOrder.take {s : Session} (h : s.InOrder) : s.take.InOrder := by
  rcases s.take_cases with ⟨ht, -⟩ | ⟨hw, -, ht⟩ | ⟨d, rest, hw, -, -, ⟨-, ht⟩ | ⟨-, ht⟩⟩ <;>
    rw [ht]
  · exact h
  · exact inOrder_of_none hw
  · exact inOrder_follow _ _ _
  · exact inOrder_of_none hw

theorem InOrder.deliver {s : Session} (h : s.InOrder) (d : Delivery) : (s.deliver d).InOrder := by
  unfold Session.deliver
  split <;> exact h

end Session

/-- Incidents by which a session goes on undisturbed. -/
def Incident.Serves : Incident → Prop
  | begins => True
  | reads ok | changes ok | calls ok => ok = true
  | _ => False

/-- Incidents by which the work in hand goes on. -/
def Incident.Answers : Incident → Prop
  | reads ok | changes ok | calls ok => ok = true
  | _ => False

theorem Incident.Answers.serves {e : Incident} (h : e.Answers) : e.Serves := by
  cases e with
  | reads ok | changes ok | calls ok => exact h
  | _ => exact h.elim

namespace Watch

variable (opens : Checkpoint → Session)

theorem inOrder_after (hopens : ∀ c, (opens c).work = none) {a : Watch} (h : a.session.InOrder)
    (e : Incident) : (a.after opens e).session.InOrder := by
  cases e with
  | arrives d => exact h.deliver d
  | removed => exact h
  | begins => exact h.take
  | reads ok | changes ok | calls ok =>
    simp only [after]
    split <;> first | exact h | exact h.answer _
  | restarts => exact Session.inOrder_of_none (hopens _)

theorem inOrder_run (hopens : ∀ c, (opens c).work = none) {a : Watch} (h : a.session.InOrder)
    (es : List Incident) : (a.run opens es).session.InOrder := by
  induction es generalizing a with
  | nil => exact h
  | cons e es ih => exact ih (inOrder_after opens hopens h e)

/-- Undisturbed, a session can come to have nothing in hand and `queue` still to take. -/
def Reaches (a : Watch) (queue : List Delivery) : Prop :=
  ∃ es : List Incident, (∀ e ∈ es, e.Serves) ∧
    (a.run opens es).session.work = none ∧ (a.run opens es).session.queue = queue

variable {opens} in
theorem Reaches.of_after {a : Watch} {queue : List Delivery} (e : Incident) (he : e.Serves)
    (h : (a.after opens e).Reaches opens queue) : a.Reaches opens queue := by
  obtain ⟨es, hes, hw, hq⟩ := h
  exact ⟨e :: es, List.forall_mem_cons.2 ⟨he, hes⟩, hw, hq⟩

/-- With answers alone, the work in hand can be brought to its end. -/
def Rests (a : Watch) : Prop :=
  ∃ es : List Incident, (∀ e ∈ es, e.Answers) ∧
    (a.run opens es).session.work = none ∧ (a.run opens es).session.queue = a.session.queue

variable {opens} in
theorem Rests.of_after {a : Watch} (e : Incident) (he : e.Answers)
    (hq : (a.after opens e).session.queue = a.session.queue)
    (h : (a.after opens e).Rests opens) : a.Rests opens := by
  obtain ⟨es, hes, hw, hqueue⟩ := h
  exact ⟨e :: es, List.forall_mem_cons.2 ⟨he, hes⟩, hw, hqueue.trans hq⟩

theorem rests_follow (p : Plan) (s : Session) (w : Account) (n : Option Nat) :
    (⟨s.follow n p, w⟩ : Watch).Rests opens := by
  have queue (p p' : Plan) : (s.follow n p').queue = (s.follow n p).queue := by
    rw [Session.queue_follow, Session.queue_follow]
  induction p generalizing w with
  | finished => exact ⟨[], by simp, rfl, rfl⟩
  | askNext go ih => exact .of_after (.reads true) rfl (queue _ _) (ih _ _)
  | askDelivered go ih => exact .of_after (.reads true) rfl (queue _ _) (ih _ _)
  | change c go ih => exact .of_after (.changes true) rfl (queue _ _) (ih _)
  | tell m go ih => exact .of_after (.calls true) rfl (queue _ _) (ih _ _)
  | unlessRemoved go ih =>
    by_cases hr : s.removed = true
    · have hf : s.follow n (.unlessRemoved go) = { s with work := none, last := n.or s.last } := by
        simp [Session.follow, Session.unguard, hr]
      rw [hf]
      exact ⟨[], by simp, rfl, rfl⟩
    · have hf : s.follow n (.unlessRemoved go) = s.follow n go := by
        simp only [Session.follow, Session.unguard, if_neg hr]
      rw [hf]
      exact ih w

/-- From any state in order a session can come to have nothing in hand. -/
theorem rests_of_inOrder {a : Watch} (h : a.session.InOrder) : a.Rests opens := by
  obtain ⟨s, w⟩ := a
  cases hw : s.work with
  | none => exact ⟨[], by simp, hw, rfl⟩
  | some np =>
    obtain ⟨n, p⟩ := np
    have hp := h n p hw
    have hs : s = s.follow n p := by
      cases p <;> simp_all [Session.follow, Session.unguard, Plan.Asks] <;> rw [← hw]
    have := rests_follow opens p s w n
    rwa [← hs] at this

theorem reaches_queue {a : Watch} (h : a.session.InOrder) :
    a.Reaches opens a.session.queue := by
  obtain ⟨es, hes, hw, hq⟩ := rests_of_inOrder opens h
  exact ⟨es, fun e he => (hes e he).serves, hw, hq⟩

variable {opens} in
theorem Reaches.of_run {a : Watch} {queue : List Delivery} {es : List Incident}
    (hes : ∀ e ∈ es, e.Serves) (h : (a.run opens es).Reaches opens queue) :
    a.Reaches opens queue := by
  induction es generalizing a with
  | nil => exact h
  | cons e es ih =>
    rw [List.forall_mem_cons] at hes
    exact .of_after e hes.1 (ih hes.2 h)

/-- Undisturbed, a session in order comes to have nothing left to do. -/
theorem reaches_nil (hopens : ∀ c, (opens c).work = none) {a : Watch} (h : a.session.InOrder) :
    a.Reaches opens [] := by
  generalize hq : a.session.queue = queue
  induction queue generalizing a with
  | nil => exact hq ▸ reaches_queue opens h
  | cons d rest ih =>
    obtain ⟨es, hes, hw, hq'⟩ := reaches_queue opens h
    refine .of_run hes ?_
    have hb := inOrder_run opens hopens h es
    generalize a.run opens es = b at hw hq' hb ⊢
    rw [hq] at hq'
    refine .of_after .begins trivial ?_
    have hb' : (b.after opens .begins).session.InOrder := hb.take
    rcases b.session.take_cases with ⟨-, hn | hn⟩ | ⟨-, -, ht⟩ | ⟨d', rest', -, -, hc, ht⟩
    · exact absurd hw hn
    · rw [hn] at hq'
      cases hq'
    · refine ⟨[], by simp, ?_, ?_⟩ <;> simp [after, ht, hw]
    · rw [hq', List.cons.injEq] at hc
      obtain ⟨rfl, rfl⟩ := hc
      refine ih hb' ?_
      rcases ht with ⟨-, ht⟩ | ⟨-, ht⟩ <;> simp only [after, ht, Session.queue_follow]

end Watch

/-! ## Removal -/

namespace Watch

variable (opens : Checkpoint → Session)

theorem removed_run (hopens : ∀ c, (opens c).removed = false) {a : Watch}
    (ha : a.session.removed = false) {es : List Incident} (hes : .removed ∉ es) :
    (a.run opens es).session.removed = false := by
  induction es generalizing a with
  | nil => exact ha
  | cons e es ih =>
    rw [List.mem_cons, not_or] at hes
    refine ih ?_ hes.2
    cases e with
    | arrives d => exact (Session.removed_deliver _ d).trans ha
    | removed => exact absurd rfl hes.1
    | begins => exact (Session.removed_take _).trans ha
    | reads ok | changes ok | calls ok =>
      simp only [after]
      split <;> first | exact ha | exact (Session.removed_answer _ _).trans ha
    | restarts => exact hopens _

end Watch

/-! ## From plans to runs -/

namespace Watch

section Soundness

variable (opens : Checkpoint → Session) (allowed : Incident → Prop)
  (R : Account → Account → Prop)
  (I : Option Nat → Option Nat → List Delivery → Account → Prop)

/-- What holds of a session with the deliveries that are still to come: `I` at its floor, its last
block and all that it still has to take, between two deliveries at once and within one as soon as
it has come to its end. -/
def Holds (a : Watch) (coming : List Delivery) : Prop :=
  match a.session.work with
  | none =>
    a.session.removed = false →
      I a.session.floor a.session.last (a.session.queue ++ coming) a.account
  | some (n, p) =>
    p.Keeps allowed R
      (fun w => a.session.removed = false →
        I a.session.floor (n.or a.session.last) (a.session.queue ++ coming) w) a.account

/-- What is to be shown of an audience: `I` is met by a new session, and each delivery that is taken
is handled, or passed over, so that it is met again. -/
structure Rule (A : Audience) : Prop where
  fresh : ∀ c, opens c = .new A (opens c).floor
  opens : ∀ w es, allowed .restarts → (∀ e ∈ es, allowed e) →
    I (opens w.checkpoint).floor none (Incident.arrivals es) w
  handles : ∀ (s : Session) d ds w, I s.floor s.last (d :: ds) w → s.accepts d = true →
    (A.plan d).Keeps allowed R (I s.floor ((Session.numberOf d).or s.last) ds) w
  passes : ∀ (s : Session) d ds w, I s.floor s.last (d :: ds) w → s.accepts d = false →
    I s.floor s.last ds w

variable {opens allowed R I}

theorem holds_of_none {a : Watch} {coming : List Delivery} (hw : a.session.work = none) :
    Holds allowed R I a coming ↔ (a.session.removed = false →
      I a.session.floor a.session.last (a.session.queue ++ coming) a.account) := by
  simp only [Holds, hw]

theorem Holds.follow {s : Session} {n : Option Nat} {p : Plan} {w : Account}
    {coming : List Delivery}
    (hp : p.Keeps allowed R
      (fun w => s.removed = false → I s.floor (n.or s.last) (s.queue ++ coming) w) w) :
    Holds allowed R I ⟨s.follow n p, w⟩ coming := by
  have hg : (Session.unguard s.removed p).Keeps allowed R
      (fun w => s.removed = false → I s.floor (n.or s.last) (s.queue ++ coming) w) w := by
    cases hr : s.removed with
    | false => simpa only [hr] using hp.unguard_false
    | true => exact ((hp.mono fun _ _ => trivial).unguard true).mono fun _ _ h => by simp at h
  unfold Session.follow
  split
  · next hf =>
    rw [hf] at hg
    exact hg
  · exact hg

theorem Rule.holds_start {A : Audience} (rule : Rule opens allowed R I A) (w : Account)
    {coming : List Delivery} (h : I (opens w.checkpoint).floor none coming w) :
    Holds allowed R I (start opens w) coming := by
  have hf := rule.fresh w.checkpoint
  simp only [start, Holds]
  rw [hf]
  exact fun _ => h

theorem Rule.audience_start {A : Audience} (rule : Rule opens allowed R I A) (w : Account) :
    (start opens w).session.audience = A := by
  have hf := rule.fresh w.checkpoint
  simp only [start]
  rw [hf]
  rfl

/-- Once a session is removed nothing is asked of what is still to come. -/
theorem Holds.of_removed {a : Watch} {coming : List Delivery} (h : Holds allowed R I a coming)
    {b : Watch} (hb : b.session.removed = true) (hw : b.session.work = a.session.work)
    (hacc : b.account = a.account) (coming' : List Delivery) : Holds allowed R I b coming' := by
  unfold Holds at h ⊢
  rw [hw, hacc]
  split at h
  · simp [hb]
  · exact h.mono fun _ _ hr => by simp [hb] at hr

theorem Holds.deliver {a : Watch} {d : Delivery} {coming : List Delivery}
    (h : Holds allowed R I a (d :: coming)) :
    Holds allowed R I { a with session := a.session.deliver d } coming := by
  cases hr : a.session.removed with
  | true =>
    have hd : a.session.deliver d = a.session := by simp [Session.deliver, hr]
    rw [hd]
    exact h.of_removed hr rfl rfl coming
  | false =>
    have hd : a.session.deliver d = { a.session with queue := a.session.queue ++ [d] } := by
      simp [Session.deliver, hr]
    rw [hd]
    unfold Holds at h ⊢
    simpa only [List.append_assoc, List.singleton_append] using h

theorem Holds.take {A : Audience} (rule : Rule opens allowed R I A) {a : Watch}
    (ha : a.session.audience = A) {coming : List Delivery} (h : Holds allowed R I a coming) :
    Holds allowed R I { a with session := a.session.take } coming := by
  obtain ⟨s, w⟩ := a
  subst ha
  rcases s.take_cases with
    ⟨ht, -⟩ | ⟨hw, hr, ht⟩ | ⟨d, rest, hw, hr, hq, ⟨hacc, ht⟩ | ⟨hacc, ht⟩⟩ <;> simp only [ht]
  · exact h
  · exact (holds_of_none hw).2 fun hf => absurd hr (by simp [show s.removed = false from hf])
  all_goals
    have hI : I s.floor s.last (d :: (rest ++ coming)) w := by
      have := (holds_of_none hw).1 h hr
      rwa [show s.queue = d :: rest from hq] at this
  · exact Holds.follow
      ((rule.handles { s with queue := rest } d _ w hI hacc).mono fun _ hw' _ => hw')
  · exact (holds_of_none hw).2 fun _ => rule.passes { s with queue := rest } d _ w hI hacc

theorem Holds.reads {a : Watch} {ok : Bool} {coming : List Delivery} (hok : allowed (.reads ok))
    (h : Holds allowed R I a coming) : Holds allowed R I (a.after opens (.reads ok)) coming := by
  simp only [after]
  split
  · next hq =>
    obtain ⟨n, go, hw⟩ := Session.question?_eq_next hq
    simp only [Holds, hw] at h
    simpa only [Session.answer, hw] using Holds.follow (h ok hok)
  · next hq =>
    obtain ⟨n, go, hw⟩ := Session.question?_eq_delivered hq
    simp only [Holds, hw] at h
    simpa only [Session.answer, hw] using Holds.follow (h ok hok)
  · exact h

theorem Holds.changes {a : Watch} {ok : Bool} {coming : List Delivery}
    (hok : allowed (.changes ok)) (h : Holds allowed R I a coming) :
    Holds allowed R I (a.after opens (.changes ok)) coming ∧
      Relation.ReflTransGen R a.account (a.after opens (.changes ok)).account := by
  simp only [after]
  split
  · next hq =>
    obtain ⟨n, go, hw⟩ := Session.question?_eq_change hq
    simp only [Holds, hw] at h
    obtain ⟨hR, hp⟩ := h ok hok
    exact ⟨by simpa only [Session.answer, hw] using Holds.follow hp, .single hR⟩
  · exact ⟨h, .refl⟩

theorem Holds.calls {a : Watch} {ok : Bool} {coming : List Delivery}
    (hok : allowed (.calls ok)) (h : Holds allowed R I a coming) :
    Holds allowed R I (a.after opens (.calls ok)) coming ∧
      Relation.ReflTransGen R a.account (a.after opens (.calls ok)).account := by
  simp only [after]
  split
  · next hq =>
    obtain ⟨n, go, hw⟩ := Session.question?_eq_tell hq
    simp only [Holds, hw] at h
    obtain ⟨hR, hp⟩ := h ok hok
    exact ⟨by simpa only [Session.answer, hw] using Holds.follow hp, .single hR⟩
  · exact ⟨h, .refl⟩

/-- One incident keeps what holds of a session, and changes the account as the rule allows. -/
theorem Holds.after {A : Audience} (rule : Rule opens allowed R I A) {a : Watch}
    (ha : a.session.audience = A) {e : Incident} {es : List Incident}
    (hall : ∀ e' ∈ e :: es, allowed e') (h : Holds allowed R I a (Incident.arrivals (e :: es))) :
    Holds allowed R I (a.after opens e) (Incident.arrivals es) ∧
      Relation.ReflTransGen R a.account (a.after opens e).account := by
  have he : allowed e := hall e List.mem_cons_self
  cases e with
  | arrives d => exact ⟨h.deliver, .refl⟩
  | removed =>
    exact ⟨Holds.of_removed (b := { a with session := a.session.close }) h rfl rfl rfl _, .refl⟩
  | begins => exact ⟨h.take rule ha, .refl⟩
  | reads ok =>
    refine ⟨h.reads he, ?_⟩
    simp only [Watch.after]
    split <;> exact .refl
  | changes ok => exact h.changes he
  | calls ok => exact h.calls he
  | restarts =>
    have hI := rule.opens a.account es he fun e' he' => hall e' (List.mem_cons_of_mem _ he')
    exact ⟨rule.holds_start _ hI, .refl⟩

theorem audience_after {A : Audience} (hopens : ∀ c, opens c = .new A (opens c).floor) {a : Watch}
    (ha : a.session.audience = A) (e : Incident) : (a.after opens e).session.audience = A := by
  cases e with
  | arrives d => exact (Session.audience_deliver _ _).trans ha
  | removed => exact ha
  | begins => exact (Session.audience_take _).trans ha
  | reads ok | changes ok | calls ok =>
    simp only [Watch.after]
    split <;> first | exact ha | exact (Session.audience_answer _ _).trans ha
  | restarts =>
    simp only [Watch.after, start]
    rw [hopens]
    rfl

theorem audience_run {A : Audience} (hopens : ∀ c, opens c = .new A (opens c).floor) {a : Watch}
    (ha : a.session.audience = A) (es : List Incident) :
    (a.run opens es).session.audience = A := by
  induction es generalizing a with
  | nil => exact ha
  | cons e es ih => exact ih (audience_after hopens ha e)

/-- A run keeps what holds of a session, and changes the account step by step as the rule allows;
`es'` is what happens after the run. -/
theorem Holds.run {A : Audience} (rule : Rule opens allowed R I A) {a : Watch}
    (ha : a.session.audience = A) {es es' : List Incident} (hall : ∀ e ∈ es ++ es', allowed e)
    (h : Holds allowed R I a (Incident.arrivals (es ++ es'))) :
    Holds allowed R I (a.run opens es) (Incident.arrivals es') ∧
      Relation.ReflTransGen R a.account (a.run opens es).account := by
  induction es generalizing a with
  | nil => exact ⟨h, .refl⟩
  | cons e es ih =>
    rw [List.cons_append] at hall h
    obtain ⟨h', hR⟩ := h.after rule ha hall
    obtain ⟨h'', hR'⟩ := ih (audience_after rule.fresh ha e)
      (fun e' he' => hall e' (List.mem_cons_of_mem _ he')) h'
    exact ⟨h'', hR.trans hR'⟩

theorem Holds.run_all {A : Audience} (rule : Rule opens allowed R I A) {a : Watch}
    (ha : a.session.audience = A) {es : List Incident} (hall : ∀ e ∈ es, allowed e)
    (h : Holds allowed R I a (Incident.arrivals es)) :
    Holds allowed R I (a.run opens es) [] ∧
      Relation.ReflTransGen R a.account (a.run opens es).account := by
  rw [← List.append_nil es] at hall h
  exact h.run rule ha hall

/-- A run from the beginning in two parts: what holds in between, and that the account changes in
either part as the rule allows. -/
theorem Rule.run {A : Audience} (rule : Rule opens allowed R I A) (w : Account)
    {es es' : List Incident} (hall : ∀ e ∈ es ++ es', allowed e)
    (h : I (opens w.checkpoint).floor none (Incident.arrivals (es ++ es')) w) :
    Holds allowed R I ((start opens w).run opens es) (Incident.arrivals es') ∧
      Relation.ReflTransGen R w ((start opens w).run opens es).account ∧
      Relation.ReflTransGen R ((start opens w).run opens es).account
        ((start opens w).run opens (es ++ es')).account := by
  have ha := rule.audience_start w
  obtain ⟨h₁, hR⟩ := (rule.holds_start w h).run rule ha hall
  obtain ⟨-, hR'⟩ := h₁.run_all rule (audience_run rule.fresh ha es)
    fun e he => hall e (List.mem_append_right _ he)
  exact ⟨h₁, hR, by rwa [run_append]⟩

end Soundness

end Watch

end LedgerClient
