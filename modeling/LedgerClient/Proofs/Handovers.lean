import LedgerClient.Proofs.Steps

/-!
# How a submission is handed to the ordering service

A move of a submitted transaction sends at most one request for ordering, and takes in at most one
reply. `Client.Handover` says which: the transaction is not endorsed, its mailbox is still being
linked, it is sent for the first time, it goes to the next orderer, its last orderer could not be
reached, it is refused, or it is accepted and from then on nothing is sent any more.
`Client.Stage.handover` is the one case analysis of the moves behind it.
-/

namespace LedgerClient

/-- Whether a call waits for an answer of the ordering service. -/
def Call.isOrdering : Call → Bool
  | .ordering .. => true
  | _ => false

namespace Client

/-- Where a submission is sent first for ordering. -/
def firstOrder (c : Client) (inv : Invocation) : OrderStep :=
  OrderRoute.start c.channel c.options.discoveryEnabled inv.id

/-- Nothing was sent for ordering yet, and the call goes on. -/
structure Log.Unsent (h : Log) : Prop where
  orders : h.orders = []
  replies : h.replies = []
  results : h.results = []

/-- What a move adds to what was sent for ordering, to the replies and to the results, and what the
call waits for then. -/
structure Enters (i : Nat) (c : Client) (m : Move) (orders : List (OrderRoute × OrderRequest))
    (replies : List (Except TransportError OrderReply)) (results : List CallResult)
    (call : Option Call) : Prop where
  orders : (Log.of i c m).orders = orders
  replies : (Log.of i c m).replies = replies
  results : (Log.of i c m).results = results
  call : (c.apply m).call? i = call

/-- What a move adds for a transaction that was accepted: nothing is sent any more. -/
structure Rests (i : Nat) (c : Client) (m : Move)
    (replies : List (Except TransportError OrderReply)) : Prop where
  orders : (Log.of i c m).orders = []
  replies : (Log.of i c m).replies = replies
  call : ∀ call, (c.apply m).call? i = some call → call.isOrdering = false

/-- What a move of a submission hands to the ordering service, and takes from it. -/
inductive Handover (c₀ : Client) (inv : Invocation) (i : Nat) (c : Client) (h : Log) (m : Move) :
    Prop
  /-- Nothing happens, or the call is given up. -/
  | idle (log : Log.of i c m = .empty)
      (call : ∀ call, (c.apply m).call? i = some call → c.call? i = some call)
  /-- The request for endorsement failed as a whole. -/
  | unreached {time : Nat} {e : TransportError} (before : h.Unsent)
      (answers : (h ++ Log.of i c m).answers = [(time, .error e)])
      (enters : Enters i c m [] [] [.answered (.error (.transport e))] none)
  /-- None of the answers is valid. -/
  | refused {time : Nat} {answers : List Answer} {refusals : List PeerRefusal} (before : h.Unsent)
      (came : (h ++ Log.of i c m).answers = [(time, .ok answers)])
      (invalid : Verdict.ofAnswers answers = .error refusals)
      (enters : Enters i c m [] [] [.answered (.error (.notEndorsed refusals))] none)
  /-- The mailbox is not linked yet to all peers of the quorum. -/
  | links {call : Call} (before : h.Unsent)
      (enters : Enters i c m [] [] [] (some call)) (linking : call.isOrdering = false)
  /-- The transaction is sent for ordering. -/
  | begins {r : OrderRequest} {payload : Bytes} {w : Nat} {route : OrderRoute} (before : h.Unsent)
      (first : c₀.firstOrder inv = .ask route)
      (enters : Enters i c m [(route, r)] [] [] (some (.ordering r payload w route)))
  /-- There is nobody to send it to. -/
  | nobody (before : h.Unsent) (answered : ∀ time e, (time, .error e) ∉ (h ++ Log.of i c m).answers)
      (first : c₀.firstOrder inv = .done (.error (.noOrderers inv.id)))
      (enters : Enters i c m [] [] [.answered (.error (.noOrderers inv.id))] none)
  /-- An orderer could not be reached, and the next one is asked. -/
  | passes {r : OrderRequest} {payload : Bytes} {w : Nat} {route route' : OrderRoute}
      {e : TransportError} (there : c.call? i = some (.ordering r payload w route))
      (sent : h.orders ≠ []) (step : route.receive (.error e) = .ask route')
      (enters : Enters i c m [(route', r)] [.error e] [] (some (.ordering r payload w route')))
  /-- The last one that there was to ask could not be reached. -/
  | fails {r : OrderRequest} {payload : Bytes} {w : Nat} {route : OrderRoute} {e : TransportError}
      (there : c.call? i = some (.ordering r payload w route)) (sent : h.orders ≠ [])
      (step : route.receive (.error e) = .done (.error (.transport e)))
      (enters : Enters i c m [] [.error e] [.answered (.error (.transport e))] none)
  /-- The transaction was refused. -/
  | rejects {r : OrderRequest} {payload : Bytes} {w : Nat} {route : OrderRoute} {reply : OrderReply}
      (there : c.call? i = some (.ordering r payload w route)) (sent : h.orders ≠ [])
      (rejected : reply.isAccepted = false)
      (enters : Enters i c m [] [.ok reply]
        [.answered (.error (.rejected inv.id reply.status reply.message))] none)
  /-- The transaction was accepted. -/
  | accepts {r : OrderRequest} {payload : Bytes} {w : Nat} {route : OrderRoute} {reply : OrderReply}
      (there : c.call? i = some (.ordering r payload w route)) (sent : h.orders ≠ [])
      (accepted : reply.isAccepted = true) (rests : Rests i c m [.ok reply])
  /-- Its confirmation is looked for. -/
  | looks {call : Call} (there : c.call? i = some call) (confirming : call.isOrdering = false)
      (sent : h.orders ≠ []) (accepted : h.Accepted) (rests : Rests i c m [])

section Handing

variable {c₀ c : Client} {inv : Invocation} {i : Nat} {mine : List Nat} {h : Log} {m : Move}

theorem Enters.finish {b : Client} {result : CallResult}
    {replies : List (Except TransportError OrderReply)} (hb : c.apply m = b.finish i result)
    (hout : b.outbox = c.outbox) (hreplies : c.repliesTo i m = replies) :
    Enters i c m [] replies [result] none := by
  obtain ⟨hsent, hgone, -⟩ := b.finish_cases i result
  rw [← hb, hout] at hsent
  obtain ⟨-, hno, hone⟩ := log_of_finished hsent
  exact ⟨hno, hreplies, hone, hb ▸ hgone⟩

theorem Enters.order {b : Client} {r : OrderRequest} {payload : Bytes} {w : Nat}
    {route : OrderRoute} {replies : List (Except TransportError OrderReply)}
    (hb : c.apply m = (b.setCall i (.ordering r payload w route)).send (.order i route r))
    (hout : b.outbox = c.outbox) (hreplies : c.repliesTo i m = replies) :
    Enters i c m [(route, r)] replies [] (some (.ordering r payload w route)) := by
  have hsent : (c.apply m).outbox = c.outbox ++ [.order i route r] := by
    rw [hb, ← hout]
    rfl
  obtain ⟨-, hone, hno⟩ := log_of_order hsent
  refine ⟨hone, hreplies, hno, ?_⟩
  rw [hb]
  exact b.call?_setCall_self _

/-- The endorsed transaction is sent for ordering, or there is nobody to send it to. -/
theorem Handover.proceed {b : Client} {r : OrderRequest} {payload : Bytes} {w : Nat}
    (hb : c.apply m = b.proceed i (.order r payload w)) (hout : b.outbox = c.outbox)
    (hsetup : b.setup = c₀.setup) (hid : r.proposal.id = inv.id) (before : h.Unsent)
    (hreplies : c.repliesTo i m = [])
    (hanswers : ∀ time e, (time, .error e) ∉ (h ++ Log.of i c m).answers) :
    Handover c₀ inv i c h m := by
  have hfirst : OrderRoute.start b.channel b.options.discoveryEnabled r.proposal.id =
      c₀.firstOrder inv := by
    simp only [setup, Prod.mk.injEq] at hsetup
    rw [firstOrder, hsetup.1, hsetup.2.2, hid]
  rcases b.proceed_order_eq i r payload w with ⟨route, hstep, heq⟩ | ⟨hstep, heq⟩ <;>
    rw [hfirst] at hstep <;> rw [heq] at hb
  · exact .begins before hstep (.order hb hout hreplies)
  · rw [hid] at hstep hb
    exact .nobody before hanswers hstep (.finish hb ((b.dropWait_same w).2.2.trans hout) hreplies)

/-- The call waits on for the first attempts at the peers, or goes on to order. -/
theorem Handover.follow {b : Client} {key : ListenerKey} {links : List Link} {r : OrderRequest}
    {payload : Bytes} {w : Nat} (hb : c.apply m = b.followLinks i key links (.order r payload w))
    (hout : b.outbox = c.outbox) (hsetup : b.setup = c₀.setup) (hid : r.proposal.id = inv.id)
    (before : h.Unsent) (hreplies : c.repliesTo i m = [])
    (hanswers : ∀ time e, (time, .error e) ∉ (h ++ Log.of i c m).answers) :
    Handover c₀ inv i c h m := by
  by_cases hall : (b.progress links).all (·.attempted) = true
  · obtain ⟨table, sessions, registrations, agenda, heq⟩ :=
      b.complete_eq key ((b.progress links).map (·.attachment))
    refine .proceed (hb.trans (if_pos hall)) ?_ ?_ hid before hreplies hanswers <;> rw [heq]
    · exact hout
    · exact hsetup
  · have hb' : c.apply m = b.setCall i (.linking key (b.progress links) (.order r payload w)) :=
      hb.trans (if_neg hall)
    have hsent : (c.apply m).outbox = c.outbox ++ [] := by
      rw [hb', List.append_nil]
      exact hout
    obtain ⟨-, hno, hno'⟩ := log_of_waiting (i := i) hsent (by simp)
    have hcall : (c.apply m).call? i =
        some (.linking key (b.progress links) (.order r payload w)) := by
      rw [hb']
      exact b.call?_setCall_self _
    exact .links before ⟨hno, hreplies, hno', hcall⟩ rfl

theorem Endorsed.answered {r : OrderRequest} {payload : Bytes} {time : Nat}
    (he : Endorsed c₀ inv h time r payload) : ∀ time e, (time, .error e) ∉ h.answers := by
  obtain ⟨answers, hanswers, -⟩ := he.answers
  simp [hanswers]

/-- A transaction is submitted: its proposal is sent, or the call ends at once, as the proposal
cannot be built or there is nobody to send it to. -/
theorem Enters.submit (c₀ : Client) (inv : Invocation) :
    (∃ p, Enters c₀.nextCall c₀ (.submit inv) [] [] [] (some (.endorsing p inv.quorum))) ∨
    ∃ e, (c₀.proposalOf inv = .error e ∨ Targets.choose c₀.channel inv.peers inv.organizations
        c₀.options.discoveryEnabled = .error e) ∧
      Enters c₀.nextCall c₀ (.submit inv) [] [] [.answered (.error e)] none := by
  let b := c₀.newCall.1
  have hreplies : c₀.repliesTo c₀.nextCall (.submit inv) = [] := by simp [repliesTo]
  cases hbuilt : c₀.newCall.1.proposalOf inv with
  | error e =>
    have hb : c₀.apply (.submit inv) = b.finish c₀.nextCall (.answered (.error e)) := by
      simp only [apply, Client.submit, hbuilt]
      rfl
    exact Or.inr ⟨e, Or.inl hbuilt, .finish hb rfl hreplies⟩
  | ok p =>
    cases hchosen : Targets.choose c₀.newCall.1.channel inv.peers inv.organizations
        c₀.newCall.1.options.discoveryEnabled with
    | error e =>
      have hb : c₀.apply (.submit inv) = b.finish c₀.nextCall (.answered (.error e)) := by
        simp only [apply, Client.submit, hbuilt, hchosen]
        rfl
      exact Or.inr ⟨e, Or.inr hchosen, .finish hb rfl hreplies⟩
    | ok targets =>
      have hb : c₀.apply (.submit inv) = (b.setCall c₀.nextCall (.endorsing p inv.quorum)).send
          (.propose c₀.nextCall targets p) := by
        simp only [apply, Client.submit, hbuilt, hchosen]
        rfl
      have hsent : c₀.sent (.submit inv) = [.propose c₀.nextCall targets p] := sent_eq (by
        rw [hb]
        rfl)
      refine Or.inl ⟨p, ?_, hreplies, ?_, ?_⟩
      · simp [Log.of, hsent, Request.order?]
      · simp [Log.of, hsent, Request.result?]
      · rw [hb]
        exact b.call?_setCall_self _

/-! ## Once the transaction was accepted -/

/-- What is sent is not for ordering. -/
def Withholds (i : Nat) (c b : Client) : Prop :=
  ∃ rs, b.outbox = c.outbox ++ rs ∧ ∀ r ∈ rs, r.order? i = none

theorem Withholds.refl (i : Nat) (c : Client) : c.Withholds i c :=
  ⟨[], (List.append_nil _).symm, by simp⟩

theorem Withholds.orders (h : Withholds i c (c.apply m)) : (Log.of i c m).orders = [] := by
  obtain ⟨rs, hout, hrs⟩ := h
  simpa only [Log.of, sent_eq hout, List.filterMap_eq_nil_iff] using hrs

theorem withholds_finish {b : Client} (hout : b.outbox = c.outbox) (result : CallResult) :
    Withholds i c (b.finish i result) := by
  refine ⟨[.finished i result], ?_, by simp [Request.order?]⟩
  rw [(b.finish_cases i result).1, hout]

theorem withholds_lookAt (w room : Nat) (q : Quorum) (t : Tally) (payload : Option Bytes) :
    Withholds i c (c.lookAt i w room q t payload) := by
  unfold lookAt
  split
  · exact .refl i c
  · dsimp only
    split
    · exact .refl i c
    · exact withholds_finish (dropWait_same ..).2.2 _

theorem withholds_confirm (w : Nat) (payload : Option Bytes) :
    Withholds i c (c.confirm i w payload) := by
  unfold confirm
  split
  · exact .refl i c
  · split
    · exact ⟨[.wakeAt i _], rfl, by simp [Request.order?]⟩
    · exact withholds_finish (dropWait_same ..).2.2 _

/-- Once the transaction was accepted, the call does not wait for the ordering service any more. -/
theorem Rests.of_accepted {replies : List (Except TransportError OrderReply)}
    (hs : Stage c₀ inv i mine (c.apply m) (h ++ .of i c m))
    (hwithholds : Withholds i c (c.apply m)) (haccepted : (h ++ Log.of i c m).Accepted)
    (hreplies : c.repliesTo i m = replies) : Rests i c m replies := by
  refine ⟨hwithholds.orders, hreplies, fun call hcall => ?_⟩
  cases call with
  | ordering r payload w route =>
    obtain ⟨reply, hlast, -⟩ := haccepted
    cases hs with
    | ordering sent => exact absurd (List.mem_of_getLast? hlast) (sent.replies reply)
    | endorsing there => simp [there] at hcall
    | linking there => simp [there] at hcall
    | confirming there => simp [there] at hcall
    | ended there => simp [there] at hcall
  | _ => rfl

/-! ## The moves -/

section Ordered

variable {time n w : Nat} {r : OrderRequest} {payload : Bytes} {route : OrderRoute}

theorem Handover.ordered (hs : BeingOrdered c₀ inv i mine c h time n w r payload route)
    (hc : c.Orderly mine) (result : Except TransportError OrderReply) :
    Handover c₀ inv i c h (.ordered i result) := by
  have hreplies : c.repliesTo i (.ordered i result) = [result] := by simp [repliesTo, hs.call]
  have hid : r.proposal.id = inv.id := proposalOf_id hs.endorsed.built
  have happly := hs.apply_eq result
  cases result with
  | error e =>
    rcases receive_error_cases route e with ⟨route', hstep⟩ | hstep <;> rw [hstep] at happly
    · exact .passes hs.call hs.sent hstep (.order happly rfl hreplies)
    · exact .fails hs.call hs.sent hstep (.finish happly (c.dropWait_same w).2.2 hreplies)
  | ok reply =>
    cases haccepted : reply.isAccepted with
    | false =>
      have hb : c.apply (.ordered i (.ok reply)) = (c.dropWait w).finish i
          (.answered (.error (.rejected r.proposal.id reply.status reply.message))) :=
        happly.trans (if_neg (by simp [haccepted]))
      rw [hid] at hb
      exact .rejects hs.call hs.sent haccepted (.finish hb (c.dropWait_same w).2.2 hreplies)
    | true =>
      have hb : c.apply (.ordered i (.ok reply)) = c.confirm i w (some payload) :=
        happly.trans (if_pos haccepted)
      have hlast : (h ++ Log.of i c (.ordered i (.ok reply))).Accepted := by
        refine ⟨reply, ?_, haccepted⟩
        rw [hs.replies_eq, List.getLast?_concat]
      have hwithholds : Withholds i c (c.apply (.ordered i (.ok reply))) := by
        rw [hb]
        exact withholds_confirm w (some payload)
      exact .accepts hs.call hs.sent haccepted
        (.of_accepted (hs.next hc _).stage hwithholds hlast hreplies)

end Ordered

section Endorsing

variable {p : Proposal} {targets : Targets}

theorem Handover.endorsing (hc : c.Orderly mine) (hsetup : c.setup = c₀.setup)
    (hcall : c.call? i = some (.endorsing p inv.quorum)) (hbuilt : c₀.proposalOf inv = .ok p)
    (hlog : h = ⟨[(targets, p)], [], [], [], [], [], []⟩) {b : Client}
    (hb : c.apply m = b) (hgoes : c.Goes i (.endorsing p inv.quorum) m b) :
    Handover c₀ inv i c h m := by
  have hbefore : h.Unsent := by
    rw [hlog]
    exact ⟨rfl, rfl, rfl⟩
  have hanswers (r : Except TransportError (List Answer)) :
      (h ++ Log.of i c (.endorsed i r)).answers = [(c.clock, r)] := by
    simp [hlog, Log.of, answersTo, hcall]
  have hreplies (r : Except TransportError (List Answer)) :
      c.repliesTo i (.endorsed i r) = [] := by simp [repliesTo]
  cases hgoes with
  | unreached => exact .unreached hbefore (hanswers _) (.finish hb rfl (hreplies _))
  | refused _ _ hverdict =>
    exact .refused hbefore (hanswers _) hverdict (.finish hb rfl (hreplies _))
  | @endorsed _ _ answers verdict hverdict =>
    have hw : (c.newWait p.id (inv.quorum.or c.defaultQuorum) c.options.commitTimeout).1.waits[
        c.waits.length]? = some ⟨p.id, inv.quorum.or c.defaultQuorum, c.options.commitTimeout,
          none, none, none, true⟩ := List.getElem?_concat_length
    rcases openMailbox_cases _ i (.order ⟨p, verdict.valid⟩ verdict.payload c.waits.length) hw with
      ⟨-, waits, -, heq⟩ | ⟨q, -, -, waits, -, heq⟩
    · exact .proceed (hb.trans heq) rfl hsetup (proposalOf_id hbuilt) hbefore (hreplies _)
        (by simp [hanswers])
    · let b₁ : Client :=
        { (c.newWait p.id (inv.quorum.or c.defaultQuorum) c.options.commitTimeout).1 with
          waits, nextMailbox := c.nextMailbox + 1 }
      have hfree : b₁.registered? (.commit (.mailbox c.nextMailbox)) = none := by
        by_contra hne
        exact Nat.lt_irrefl _ (hc.waits.keys hne)
      obtain ⟨b', links, hfollow, hout, -, -, hsetup'⟩ := b₁.linkCommit_follow i q.peers p.id.text
        (.order ⟨p, verdict.valid⟩ verdict.payload c.waits.length) hfree
      exact .follow (hb.trans (heq.trans hfollow)) hout (hsetup'.trans hsetup)
        (proposalOf_id hbuilt) hbefore (hreplies _) (by simp [hanswers])

end Endorsing

/-- A move of a submission hands over one request at most, and takes in one reply at most. -/
theorem Stage.handover (hs : Stage c₀ inv i mine c h) (hc : c.Orderly mine)
    (hsetup : c.setup = c₀.setup) (hi : i < c.nextCall) (hactor : c.actor m = i) :
    Handover c₀ inv i c h m := by
  have hm := call?_of_actor hactor hi
  have hstage := (hs.own hc hsetup hi hactor).stage
  obtain ⟨hsame, hfits⟩ | ⟨rfl, -, -⟩ | ⟨call, b, hcall, hb, hgoes⟩ := c.call_cases hm
  · refine .idle (log_of_not_fits hm hsame hfits) fun call hcall => ?_
    rwa [hsame] at hcall
  · refine .idle (log_of_abandon hi) fun call hcall => ?_
    have hgone : (c.apply (.abandon i)).call? i = none := (abandon_over hi).1.gone
    rw [hgone] at hcall
    cases hcall
  cases hs with
  | endorsing there built chosen log =>
    obtain rfl := Option.some.inj (hcall.symm.trans there)
    exact .endorsing hc hsetup there built log hb hgoes
  | linking there endorsed awaited own wait linked orders replies looks results =>
    obtain rfl := Option.some.inj (hcall.symm.trans there)
    cases hgoes
    refine .follow hb rfl hsetup (proposalOf_id endorsed.built) ⟨orders, replies, results⟩
      (by simp [repliesTo]) ?_
    simpa [Log.of, answersTo] using endorsed.answered
  | ordering sent =>
    obtain rfl := Option.some.inj (hcall.symm.trans sent.call)
    cases hgoes
    exact .ordered sent hc _
  | confirming there endorsed awaited own watched sent orders replied accepted results =>
    obtain rfl := Option.some.inj (hcall.symm.trans there)
    cases hgoes with
    | @looks _ _ _ _ room =>
      have hreplies : c.repliesTo i (.resume i room) = [] := by simp [repliesTo]
      have haccepted : (h ++ Log.of i c (.resume i room)).Accepted := by
        refine ⟨_, ?_, accepted⟩
        rw [Log.replies_append, Log.of, hreplies, List.append_nil]
        exact replied
      have hwithholds : Withholds i c (c.apply (.resume i room)) := by
        rw [hb]
        exact withholds_lookAt ..
      exact .looks there rfl sent ⟨_, replied, accepted⟩
        (.of_accepted hstage hwithholds haccepted hreplies)
  | ended gone => simp [gone] at hcall

/-! ## Along a run -/

/-- What the moves of a submission keep, and what outcomes that are told to its mailbox do not
matter to, stays. -/
theorem Stage.keep {P : Client → Log → Prop} {ms : List Move} (hs : Stage c₀ inv i mine c h)
    (hc : c.Orderly mine) (hsetup : c.setup = c₀.setup) (hi : i < c.nextCall)
    (hms : Proper mine c ms)
    (own : ∀ {c : Client} {mine : List Nat} {h : Log} {m : Move}, Stage c₀ inv i mine c h →
      Handover c₀ inv i c h m → P c h → P (c.apply m) (h ++ .of i c m))
    (other : ∀ {c c' : Client} {h : Log} (reports : List CommitOutcome), c'.call? i = c.call? i →
      P c h → P c' (h ++ ⟨[], [], [], [], reports, [], []⟩)) (hP : P c h) :
    P (c.run ms) (h ++ log i c ms) := by
  induction ms generalizing c h mine with
  | nil =>
    rw [log, Log.append_empty]
    exact hP
  | cons m ms ih =>
    have hnext : P (c.apply m) (h ++ .of i c m) := by
      by_cases hactor : c.actor m = i
      · exact own hs (hs.handover hc hsetup hi hactor) hP
      · rw [log_of_other hc.tidy hactor]
        exact other _ (call?_apply hc.tidy hactor) hP
    rw [log, ← Log.append_assoc]
    exact ih (hs.next hc hsetup hi hms.1).stage (hc.apply hms.1)
      ((setup_apply hc.waits.mailboxes m).trans hsetup)
      (Nat.lt_of_lt_of_le hi (nextCall_le_apply hc.tidy m)) hms.2 hnext

/-- What holds once a transaction is submitted, and is kept from then on, holds after every run. -/
theorem kept_of_submitted {P : Client → Log → Prop} {ms : List Move} (hc : c₀.Orderly mine)
    (hms : Proper mine c₀ (.submit inv :: ms))
    (submit : P (c₀.apply (.submit inv)) (.of c₀.nextCall c₀ (.submit inv)))
    (own : ∀ {c : Client} {mine : List Nat} {h : Log} {m : Move},
      Stage c₀ inv c₀.nextCall mine c h → Handover c₀ inv c₀.nextCall c h m → P c h →
      P (c.apply m) (h ++ .of c₀.nextCall c m))
    (other : ∀ {c c' : Client} {h : Log} (reports : List CommitOutcome),
      c'.call? c₀.nextCall = c.call? c₀.nextCall → P c h →
      P c' (h ++ ⟨[], [], [], [], reports, [], []⟩)) :
    P (c₀.run (.submit inv :: ms)) (log c₀.nextCall c₀ (.submit inv :: ms)) := by
  have hacts : Acts c₀.nextCall (fun _ => True) c₀.newCall.1 (c₀.apply (.submit inv)) :=
    acts_submit c₀ inv
  exact (Stage.submit c₀ inv _).1.keep (hc.apply hms.1) (setup_apply hc.waits.mailboxes _)
    hacts.sends.1 hms.2 own other submit

end Handing

end Client

end LedgerClient
