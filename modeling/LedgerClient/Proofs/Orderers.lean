import LedgerClient.Proofs.Handovers
import LedgerClient.Proofs.Submissions
import LedgerClient.Proofs.Turns

/-!
# One orderer after the other

What is sent for ordering is settled by what comes back: `OrderStep.course` gives the requests for
any list of results.  Without a usable handler they go to the orderers in turn up to the first that
answers (`OrderRoute.course_orderers`); with one there is a single request, to the handler
(`OrderRoute.course_discovery`).  The requests of a submission follow the course of the replies that
it gets, in every run (`Client.orderers_asked_in_turn`).
-/

namespace LedgerClient

namespace OrderStep

/-- A request for ordering waits for its result. -/
def dialogue : Dialogue OrderStep OrderRoute (Except TransportError OrderReply) where
  pending
    | .ask route => some route
    | .done _ => none
  receive := OrderRoute.receive

/-- The requests that are sent while results come in, and what the last result leads to. -/
def course (step : OrderStep) (rs : List (Except TransportError OrderReply)) :
    List OrderRoute × OrderStep :=
  dialogue.course step rs

@[simp] theorem course_done (result : Except TransactionFailure OrderReply)
    (rs : List (Except TransportError OrderReply)) :
    (done result).course rs = ([], .done result) := Dialogue.course_of_none rfl rs

/-- What comes of asking in turn: the answer, or else the failure of the last one, or else of
nobody. -/
def outcome (nobody : TransactionFailure) (failed : List (Orderer × TransportError)) :
    Option (Orderer × OrderReply) → Except TransactionFailure OrderReply
  | some (_, reply) => .ok reply
  | none => .error ((failed.getLast?.map fun f => TransactionFailure.transport f.2).getD nobody)

end OrderStep

namespace OrderRoute

end OrderRoute

namespace Client

/-- What was sent for ordering follows the course of the replies, and what this comes to is how the
call ends, unless the transaction was accepted. -/
structure Placed (c₀ : Client) (inv : Invocation) (i : Nat) (c : Client) (h : Log) : Prop where
  course : h.orders = [] ∧ h.replies = [] ∨
    h.orders ≠ [] ∧ h.orders.map (·.1) = ((c₀.firstOrder inv).course h.replies).1
  waits : ∀ r payload w route, c.call? i = some (.ordering r payload w route) →
    ((c₀.firstOrder inv).course h.replies).2 = .ask route
  answered : ∀ reply, h.replies.getLast? = some (.ok reply) →
    ((c₀.firstOrder inv).course h.replies).2 = .done (.ok reply)
  failed : h.orders ≠ [] → ∀ e, ((c₀.firstOrder inv).course h.replies).2 = .done (.error e) →
    h.results = [.answered (.error e)]
  rejected : h.orders ≠ [] → ∀ reply,
    ((c₀.firstOrder inv).course h.replies).2 = .done (.ok reply) → reply.isAccepted = false →
    h.results = [.answered (.error (.rejected inv.id reply.status reply.message))]
  nobody : ∀ e, c₀.firstOrder inv = .done (.error e) → ∀ time answers verdict,
    h.answers = [(time, .ok answers)] → Verdict.ofAnswers answers = .ok verdict →
    h.results = [] ∨ h.results = [.answered (.error e)]

section Runs

variable {c₀ c : Client} {inv : Invocation} {i : Nat} {mine : List Nat} {h : Log} {m : Move}

theorem Placed.of_unsent {results : List CallResult} {call? : Option Call} (horders : h.orders = [])
    (hreplies : h.replies = []) (enters : Enters i c m [] [] results call?)
    (hcall : ∀ call, call? = some call → call.isOrdering = false)
    (hnobody : ∀ e, c₀.firstOrder inv = .done (.error e) → ∀ time answers verdict,
      (h ++ Log.of i c m).answers = [(time, .ok answers)] →
      Verdict.ofAnswers answers = .ok verdict →
      (h ++ Log.of i c m).results = [] ∨ (h ++ Log.of i c m).results = [.answered (.error e)]) :
    Placed c₀ inv i (c.apply m) (h ++ .of i c m) := by
  have horders' : (h ++ Log.of i c m).orders = [] := by
    rw [Log.orders_append, horders, enters.orders, List.append_nil]
  have hreplies' : (h ++ Log.of i c m).replies = [] := by
    rw [Log.replies_append, hreplies, enters.replies, List.append_nil]
  refine ⟨Or.inl ⟨horders', hreplies'⟩, fun r payload w route hthere => ?_, ?_,
    fun hne => absurd horders' hne, fun hne => absurd horders' hne, hnobody⟩
  · have hno := hcall _ (enters.call.symm.trans hthere)
    cases hno
  · rw [hreplies']
    rintro reply ⟨⟩

theorem Placed.of_result (hp : Placed c₀ inv i c h) {r : OrderRequest} {payload : Bytes} {w : Nat}
    {route : OrderRoute} (there : c.call? i = some (.ordering r payload w route))
    (sent : h.orders ≠ []) (result : Except TransportError OrderReply)
    (hreplies : (Log.of i c m).replies = [result])
    (horders : (Log.of i c m).orders.map (·.1) = ((route.receive result).course []).1)
    (hcall : ∀ r payload w route', (c.apply m).call? i = some (.ordering r payload w route') →
      route.receive result = .ask route')
    (hfailed : ∀ e, route.receive result = .done (.error e) →
      (h ++ Log.of i c m).results = [.answered (.error e)])
    (hrejected : ∀ reply, result = .ok reply → reply.isAccepted = false →
      (h ++ Log.of i c m).results =
        [.answered (.error (.rejected inv.id reply.status reply.message))]) :
    Placed c₀ inv i (c.apply m) (h ++ .of i c m) := by
  have hcourse : (c₀.firstOrder inv).course (h ++ Log.of i c m).replies =
      (((c₀.firstOrder inv).course h.replies).1 ++ ((route.receive result).course []).1,
        route.receive result) := by
    rw [Log.replies_append, hreplies]
    have hwaits := congrArg OrderStep.dialogue.pending (hp.waits _ _ _ _ there)
    exact Dialogue.course_concat hwaits result
  obtain ⟨hnone, -⟩ | ⟨-, hsent⟩ := hp.course
  · exact absurd hnone sent
  have hdone (reply : OrderReply) : route.receive result = .done (.ok reply) ↔
      result = .ok reply := by
    cases result with
    | error e => rcases receive_error_cases route e with ⟨_, heq⟩ | heq <;> simp [heq]
    | ok => simp [OrderRoute.receive]
  refine ⟨Or.inr ⟨by simp [sent], ?_⟩, fun r payload w route' hthere => ?_, fun reply hlast => ?_,
    fun _ e he => ?_, fun _ reply hreply hno => ?_, fun e he => ?_⟩
  · rw [hcourse, Log.orders_append, List.map_append, hsent, horders]
  · rw [hcourse]
    exact hcall _ _ _ _ hthere
  · rw [Log.replies_append, hreplies, List.getLast?_concat] at hlast
    rw [hcourse]
    exact (hdone reply).2 (Option.some.inj hlast)
  · rw [hcourse] at he
    exact hfailed e he
  · rw [hcourse] at hreply
    exact hrejected reply ((hdone reply).1 hreply) hno
  · rw [he, OrderStep.course_done] at hsent
    exact absurd (List.map_eq_nil_iff.1 hsent) sent

theorem Placed.own (hs : Stage c₀ inv i mine c h) (ho : Handover c₀ inv i c h m)
    (hp : Placed c₀ inv i c h) : Placed c₀ inv i (c.apply m) (h ++ .of i c m) := by
  have hresults {call : Call} (there : c.call? i = some call) :
      (h ++ Log.of i c m).results = (Log.of i c m).results := by
    rw [Log.results_append, hs.results (by simp [there]), List.nil_append]
  have hunsent (before : h.Unsent) :
      (h ++ Log.of i c m).results = (Log.of i c m).results := by
    rw [Log.results_append, before.results, List.nil_append]
  cases ho with
  | idle log call =>
    rw [log, Log.append_empty]
    exact ⟨hp.course, fun _ _ _ _ hthere => hp.waits _ _ _ _ (call _ hthere), hp.answered,
      hp.failed, hp.rejected, hp.nobody⟩
  | unreached before answers enters =>
    refine .of_unsent before.orders before.replies enters (by simp) fun _ _ _ _ _ hcame => ?_
    rw [answers] at hcame
    cases hcame
  | refused before came invalid enters =>
    refine .of_unsent before.orders before.replies enters (by simp) fun _ _ _ _ _ hcame hv => ?_
    rw [came] at hcame
    cases hcame
    rw [invalid] at hv
    cases hv
  | links before enters linking =>
    refine .of_unsent before.orders before.replies enters (by simp [linking])
      fun _ _ _ _ _ _ _ => ?_
    exact Or.inl ((hunsent before).trans enters.results)
  | nobody before answered first enters =>
    refine .of_unsent before.orders before.replies enters (by simp) fun e he _ _ _ _ _ => ?_
    rw [first] at he
    cases he
    exact Or.inr ((hunsent before).trans enters.results)
  | @begins r payload w route before first enters =>
    have horders : (h ++ Log.of i c m).orders = [(route, r)] := by
      rw [Log.orders_append, before.orders, enters.orders, List.nil_append]
    have hreplies : (h ++ Log.of i c m).replies = [] := by
      rw [Log.replies_append, before.replies, enters.replies, List.append_nil]
    refine ⟨Or.inr ⟨by simp [horders], ?_⟩, fun _ _ _ _ hthere => ?_, ?_, fun _ => ?_, fun _ => ?_,
      fun e he => ?_⟩ <;> try rw [hreplies]
    · rw [horders, first]
      rfl
    · rw [enters.call] at hthere
      cases hthere
      rw [first]
      rfl
    · rintro reply ⟨⟩
    · rw [first]
      rintro e ⟨⟩
    · rw [first]
      rintro reply ⟨⟩
    · rw [first] at he
      cases he
  | passes there sent step enters =>
    refine hp.of_result there sent _ enters.replies ?_ (fun _ _ _ _ hthere => ?_) ?_ ?_
    · rw [enters.orders, step]
      rfl
    · rw [enters.call] at hthere
      cases hthere
      exact step
    · rw [step]
      rintro e ⟨⟩
    · rintro reply ⟨⟩
  | fails there sent step enters =>
    refine hp.of_result there sent _ enters.replies ?_ (fun _ _ _ _ hthere => ?_)
      (fun e he => ?_) ?_
    · rw [enters.orders, step]
      rfl
    · rw [enters.call] at hthere
      cases hthere
    · rw [step] at he
      cases he
      exact (hresults there).trans enters.results
    · rintro reply ⟨⟩
  | rejects there sent rejected enters =>
    refine hp.of_result there sent _ enters.replies ?_ (fun _ _ _ _ hthere => ?_) ?_ ?_
    · rw [enters.orders]
      rfl
    · rw [enters.call] at hthere
      cases hthere
    · rintro e ⟨⟩
    · rintro reply ⟨⟩ -
      exact (hresults there).trans enters.results
  | accepts there sent accepted rests =>
    refine hp.of_result there sent _ rests.replies ?_ (fun _ _ _ _ hthere => ?_) ?_ ?_
    · rw [rests.orders]
      rfl
    · have hno := rests.call _ hthere
      cases hno
    · rintro e ⟨⟩
    · rintro reply ⟨⟩ hno
      rw [hno] at accepted
      cases accepted
  | looks there confirming sent accepted rests =>
    have horders : (h ++ Log.of i c m).orders = h.orders := by
      rw [Log.orders_append, rests.orders, List.append_nil]
    have hreplies : (h ++ Log.of i c m).replies = h.replies := by
      rw [Log.replies_append, rests.replies, List.append_nil]
    obtain ⟨reply, hlast, haccepted⟩ := accepted
    have hdone := hp.answered reply hlast
    obtain ⟨hnone, -⟩ | ⟨-, hsent⟩ := hp.course
    · exact absurd hnone sent
    refine ⟨Or.inr ?_, fun _ _ _ _ hthere => ?_, ?_, fun _ e he => ?_,
      fun _ reply' hreply hno => ?_, fun e he => ?_⟩
    · rw [horders, hreplies]
      exact ⟨sent, hsent⟩
    · have hno := rests.call _ hthere
      cases hno
    · rw [hreplies]
      exact hp.answered
    · rw [hreplies, hdone] at he
      cases he
    · rw [hreplies, hdone] at hreply
      cases hreply
      rw [hno] at haccepted
      cases haccepted
    · rw [he, OrderStep.course_done] at hsent
      exact absurd (List.map_eq_nil_iff.1 hsent) sent

/-- Outcomes that are told to the mailbox do not matter. -/
theorem Placed.other {c' : Client} (reports : List CommitOutcome) (hcall : c'.call? i = c.call? i)
    (hp : Placed c₀ inv i c h) : Placed c₀ inv i c' (h ++ ⟨[], [], [], [], reports, [], []⟩) := by
  refine ⟨?_, fun r payload w route hthere => ?_, ?_, ?_, ?_, ?_⟩
  · simpa using hp.course
  · rw [hcall] at hthere
    simpa using hp.waits r payload w route hthere
  · simpa using hp.answered
  · simpa using hp.failed
  · simpa using hp.rejected
  · simpa using hp.nobody

theorem Placed.submit (c₀ : Client) (inv : Invocation) :
    Placed c₀ inv c₀.nextCall (c₀.apply (.submit inv)) (Log.of c₀.nextCall c₀ (.submit inv)) := by
  have hanswers (time : Nat) (r : Except TransportError (List Answer)) :
      (Log.empty ++ Log.of c₀.nextCall c₀ (.submit inv)).answers ≠ [(time, r)] := by
    simp [Log.of, Log.empty, answersTo]
  have hplaced : Placed c₀ inv c₀.nextCall (c₀.apply (.submit inv))
      (.empty ++ Log.of c₀.nextCall c₀ (.submit inv)) := by
    rcases Enters.submit c₀ inv with ⟨p, enters⟩ | ⟨e, -, enters⟩
    · refine .of_unsent rfl rfl enters (fun call hcall => ?_) fun _ _ _ _ _ hcame =>
        absurd hcame (hanswers _ _)
      cases hcall
      rfl
    · exact .of_unsent rfl rfl enters (by simp) fun _ _ _ _ _ hcame => absurd hcame (hanswers _ _)
  exact hplaced

end Runs

end Client

end LedgerClient
