import LedgerClient.Proofs.Handovers
import LedgerClient.Proofs.Submissions

/-!
# Failures that leave the fate of a transaction open

A submission that fails with a timeout may have been ordered all the same.  The failure alone says
whether it is one (`TransactionFailure.isTimeout`), and it is the failure of the request, or of the
wait, that came last.  `Client.timeout_iff_lapsed` says which that is: the request for endorsement
as a whole, which only the discovery handler lets run out of time; the last request for ordering;
or the wait for confirmation.

So a timeout does not say that the transaction was sent for ordering, and other failures do not say
that no orderer has it (`Client.timeout_does_not_tell`).
-/

namespace LedgerClient

/-- A request ran out of time without an answer. -/
def TransportError.isTimeout : TransportError → Bool
  | .timedOut .. => true
  | _ => false

theorem TransactionFailure.isTimeout_transport (e : TransportError) :
    (transport e).isTimeout = e.isTimeout := by
  cases e <;> rfl

namespace Client

/-! ## Why a submission failed -/

/-- The request for endorsement as a whole ran out of time. -/
def Log.EndorsementLapsed (h : Log) : Prop :=
  ∃ time e, (time, .error e) ∈ h.answers ∧ e.isTimeout = true

/-- The last request for ordering ran out of time. -/
def Log.OrderingLapsed (h : Log) : Prop :=
  ∃ e, h.replies.getLast? = some (.error e) ∧ e.isTimeout = true

/-- Why a submission failed, as its log shows. -/
inductive Cause (h : Log) : TransactionFailure → Prop
  /-- It was not sent for ordering, and not for want of an answer. -/
  | unsent {e : TransactionFailure} (orders : h.orders = [])
      (endorsed : ∀ time e', (time, .error e') ∉ h.answers) (settled : e.isTimeout = false) :
      Cause h e
  /-- Its request for endorsement as a whole failed. -/
  | unendorsed {time : Nat} {e : TransportError} (orders : h.orders = [])
      (answers : h.answers = [(time, .error e)]) : Cause h (.transport e)
  /-- The last orderer that it was sent to could not be reached. -/
  | unordered {e : TransportError} (orders : h.orders ≠ [])
      (last : h.replies.getLast? = some (.error e)) : Cause h (.transport e)
  /-- It was not accepted. -/
  | refused {e : TransactionFailure} {reply : OrderReply} (orders : h.orders ≠ [])
      (last : h.replies.getLast? = some (.ok reply)) (refused : reply.isAccepted = false)
      (settled : e.isTimeout = false) : Cause h e
  /-- It was accepted and not confirmed. -/
  | unconfirmed {e : TransactionFailure} (orders : h.orders ≠ []) (accepted : h.Accepted) :
      Cause h e

/-- Every request for ordering has its reply, but for one that is waited for, and a failure has its
cause. -/
structure Traced (i : Nat) (c : Client) (h : Log) : Prop where
  paired : ∀ call, c.call? i = some call →
    h.orders.length = h.replies.length + call.isOrdering.toNat
  ended : ∀ e, h.results = [.answered (.error e)] →
    h.orders.length = h.replies.length ∧ Cause h e

section Steps

variable {c₀ c : Client} {inv : Invocation} {i : Nat} {mine : List Nat} {h : Log} {m : Move}

theorem Traced.of_ended {replies : List (Except TransportError OrderReply)} {e : TransactionFailure}
    (enters : Enters i c m [] replies [.answered (.error e)] none) (hresults : h.results = [])
    (hpaired : h.orders.length = (h.replies ++ replies).length)
    (hcause : Cause (h ++ Log.of i c m) e) : Traced i (c.apply m) (h ++ .of i c m) := by
  refine ⟨fun call hcall => ?_, fun e' he => ?_⟩
  · rw [enters.call] at hcall
    cases hcall
  · rw [Log.results_append, hresults, enters.results, List.nil_append] at he
    cases he
    rw [Log.orders_append, enters.orders, List.append_nil, Log.replies_append, enters.replies]
    exact ⟨hpaired, hcause⟩

theorem Traced.of_waiting {orders : List (OrderRoute × OrderRequest)}
    {replies : List (Except TransportError OrderReply)} {call : Call}
    (enters : Enters i c m orders replies [] (some call)) (hresults : h.results = [])
    (hpaired : (h.orders ++ orders).length =
      (h.replies ++ replies).length + call.isOrdering.toNat) :
    Traced i (c.apply m) (h ++ .of i c m) := by
  refine ⟨fun call' hcall' => ?_, fun e he => ?_⟩
  · rw [enters.call] at hcall'
    obtain rfl := Option.some.inj hcall'
    rw [Log.orders_append, enters.orders, Log.replies_append, enters.replies]
    exact hpaired
  · rw [Log.results_append, hresults, enters.results] at he
    cases he

/-- Once the transaction was accepted, the call waits for its confirmation or ends. -/
theorem Traced.of_rests {replies : List (Except TransportError OrderReply)}
    (rests : Rests i c m replies) (hsent : h.orders ≠ [])
    (haccepted : (h ++ Log.of i c m).Accepted)
    (hpaired : h.orders.length = (h.replies ++ replies).length) :
    Traced i (c.apply m) (h ++ .of i c m) := by
  have horders : (h ++ Log.of i c m).orders = h.orders := by
    rw [Log.orders_append, rests.orders, List.append_nil]
  have hreplies : (h ++ Log.of i c m).replies = h.replies ++ replies := by
    rw [Log.replies_append, rests.replies]
  rw [← horders, ← hreplies] at hpaired
  refine ⟨fun call hcall => ?_, fun e _ => ⟨hpaired, .unconfirmed (horders ▸ hsent) haccepted⟩⟩
  rw [rests.call call hcall]
  exact hpaired

theorem Traced.own (hs : Stage c₀ inv i mine c h) (ho : Handover c₀ inv i c h m)
    (ht : Traced i c h) : Traced i (c.apply m) (h ++ .of i c m) := by
  have hresults {call : Call} (there : c.call? i = some call) : h.results = [] :=
    hs.results (by simp [there])
  have hpaired {call : Call} (there : c.call? i = some call) (r : Except TransportError OrderReply)
      (hordering : call.isOrdering = true) : h.orders.length = (h.replies ++ [r]).length := by
    have hone := ht.paired _ there
    rw [hordering] at hone
    rw [List.length_append]
    exact hone
  have hkept {replies : List (Except TransportError OrderReply)} {call? : Option Call}
      {results : List CallResult} (enters : Enters i c m [] replies results call?) :
      (h ++ Log.of i c m).orders = h.orders := by
    rw [Log.orders_append, enters.orders, List.append_nil]
  have hlast {r : Except TransportError OrderReply} (heq : (Log.of i c m).replies = [r]) :
      (h ++ Log.of i c m).replies.getLast? = some r := by
    rw [Log.replies_append, heq, List.getLast?_concat]
  cases ho with
  | idle log call =>
    rw [log, Log.append_empty]
    exact ⟨fun call' hcall => ht.paired _ (call _ hcall), ht.ended⟩
  | unreached before answers enters =>
    exact .of_ended enters before.results (by simp [before.orders, before.replies])
      (.unendorsed ((hkept enters).trans before.orders) answers)
  | refused before came invalid enters =>
    exact .of_ended enters before.results (by simp [before.orders, before.replies])
      (.unsent ((hkept enters).trans before.orders) (by simp [came]) rfl)
  | links before enters linking =>
    exact .of_waiting enters before.results (by simp [before.orders, before.replies, linking])
  | begins before first enters =>
    exact .of_waiting enters before.results
      (by simp [before.orders, before.replies, Call.isOrdering])
  | nobody before answered first enters =>
    exact .of_ended enters before.results (by simp [before.orders, before.replies])
      (.unsent ((hkept enters).trans before.orders) answered rfl)
  | passes there sent step enters =>
    refine .of_waiting enters (hresults there) ?_
    rw [List.length_append, hpaired there _ rfl]
    rfl
  | fails there sent step enters =>
    exact .of_ended enters (hresults there) (hpaired there _ rfl)
      (.unordered (hkept enters ▸ sent) (hlast enters.replies))
  | rejects there sent rejected enters =>
    exact .of_ended enters (hresults there) (hpaired there _ rfl)
      (.refused (hkept enters ▸ sent) (hlast enters.replies) rejected rfl)
  | accepts there sent accepted rests =>
    exact .of_rests rests sent ⟨_, hlast rests.replies, accepted⟩ (hpaired there _ rfl)
  | looks there confirming sent accepted rests =>
    obtain ⟨reply, replied, hreply⟩ := accepted
    have hsame : h.replies ++ [] = h.replies := List.append_nil _
    refine .of_rests rests sent ⟨reply, ?_, hreply⟩ ?_
    · rw [Log.replies_append, rests.replies, hsame]
      exact replied
    · have hone := ht.paired _ there
      rw [confirming] at hone
      rw [hsame]
      exact hone

/-- Outcomes that are told to the mailbox add nothing that a cause speaks of. -/
theorem Traced.other {c' : Client} (reports : List CommitOutcome) (hcall : c'.call? i = c.call? i)
    (ht : Traced i c h) : Traced i c' (h ++ ⟨[], [], [], [], reports, [], []⟩) := by
  obtain ⟨hpaired, hended⟩ := ht
  refine ⟨fun call hthere => ?_, fun e he => ?_⟩
  · rw [hcall] at hthere
    simpa using hpaired call hthere
  · obtain ⟨heq, hcause⟩ := hended e (by simpa using he)
    refine ⟨by simpa using heq, ?_⟩
    cases hcause with
    | unsent orders endorsed settled =>
      exact .unsent (by simpa using orders) (by simpa using endorsed) settled
    | unendorsed orders answers =>
      exact .unendorsed (by simpa using orders) (by simpa using answers)
    | unordered orders last => exact .unordered (by simpa using orders) (by simpa using last)
    | refused orders last refused settled =>
      exact .refused (by simpa using orders) (by simpa using last) refused settled
    | unconfirmed orders accepted =>
      obtain ⟨reply, last, haccepted⟩ := accepted
      exact .unconfirmed (by simpa using orders) ⟨reply, by simpa using last, haccepted⟩

/-- What keeps a proposal from being sent is no timeout. -/
theorem settled_of_proposalOf {e : TransactionFailure} (h : c.proposalOf inv = .error e) :
    e.isTimeout = false := by
  unfold proposalOf Draft.build at h
  split at h
  · cases h
    rfl
  · cases h

theorem settled_of_choose {channel : Channel} {peers : Option (List Peer)}
    {organizations : Option (List String)} {discovery : Bool} {e : TransactionFailure}
    (h : Targets.choose channel peers organizations discovery = .error e) :
    e.isTimeout = false := by
  have ofPeers (ps : List Peer) (h : Targets.ofPeers ps = .error e) : e.isTimeout = false := by
    cases ps <;> cases h
    rfl
  unfold Targets.choose at h
  split at h
  · exact ofPeers _ h
  · split_ifs at h
    split at h <;> exact ofPeers _ h

theorem Traced.submit (c₀ : Client) (inv : Invocation) :
    Traced c₀.nextCall (c₀.apply (.submit inv)) (Log.of c₀.nextCall c₀ (.submit inv)) := by
  have htraced : Traced c₀.nextCall (c₀.apply (.submit inv))
      (.empty ++ Log.of c₀.nextCall c₀ (.submit inv)) := by
    rcases Enters.submit c₀ inv with ⟨p, enters⟩ | ⟨e, hfailed, enters⟩
    · exact .of_waiting enters rfl rfl
    · refine .of_ended enters rfl rfl
        (.unsent enters.orders (fun time e' hmem => ?_)
          (hfailed.elim settled_of_proposalOf settled_of_choose))
      rw [Log.answers_append] at hmem
      simp [Log.of, Log.empty, answersTo] at hmem
  exact htraced

/-- What ends a wait before its deadline is no timeout. -/
theorem settled_of_take {id : TransactionId} {q : Quorum} {t : Tally} {o : CommitOutcome}
    {e : TransactionFailure} (h : Confirmation.take id q t o = .ended (.error e)) :
    e.isTimeout = false := by
  have judged {t : Tally} (h : Confirmation.take.judge id q t = .ended (.error e)) :
      e.isTimeout = false := by
    unfold Confirmation.take.judge at h
    split at h <;> cases h
    rfl
  unfold Confirmation.take at h
  split at h
  · split_ifs at h
    · exact judged h
    · cases h
      rfl
  · exact judged h

/-- A wait that ends with a timeout has passed its deadline. -/
theorem isTimeout_look_iff {id : TransactionId} {q : Quorum} {limit : Duration} {t : Tally}
    {os : List CommitOutcome} {passed : Bool} {e : TransactionFailure}
    (h : Confirmation.look id q limit t os passed = .ended (.error e)) :
    e.isTimeout = true ↔ ∃ pending, e = .confirmationTimedOut id limit pending := by
  refine ⟨fun he => ?_, ?_⟩
  · unfold Confirmation.look at h
    split at h
    · next htake =>
      rw [h] at htake
      obtain ⟨taken, o, later, t', -, -, hended⟩ := Confirmation.takeAll_eq_ended_iff.1 htake
      rw [settled_of_take hended] at he
      cases he
    · split_ifs at h
      cases h
      exact ⟨_, rfl⟩
  · rintro ⟨pending, rfl⟩
    rfl

end Steps

/-! ## What a timeout tells -/

theorem Log.not_endorsementLapsed {h : Log} (hok : ∀ time e, (time, .error e) ∉ h.answers) :
    ¬ h.EndorsementLapsed := by
  rintro ⟨time, e, hmem, -⟩
  exact hok time e hmem

theorem Log.not_orderingLapsed {h : Log} {reply : OrderReply}
    (hlast : h.replies.getLast? = some (.ok reply)) : ¬ h.OrderingLapsed := by
  rintro ⟨e, hlast', -⟩
  rw [hlast] at hlast'
  cases hlast'

theorem Cause.isTimeout_iff {c₀ : Client} {inv : Invocation} {h : Log} {e : TransactionFailure}
    (hcause : Cause h e) (hpaired : h.orders.length = h.replies.length)
    (hendorsed : ∀ o ∈ h.orders, ∃ time payload, Endorsed c₀ inv h time o.2 payload)
    (hout : Outcome c₀ inv h (.answered (.error e))) :
    e.isTimeout = true ↔ h.EndorsementLapsed ∨ h.OrderingLapsed ∨
      h.Accepted ∧
        ∃ pending, e = .confirmationTimedOut inv.id c₀.options.commitTimeout pending := by
  have hsent (horders : h.orders ≠ []) : ¬ h.EndorsementLapsed := by
    obtain ⟨o, ho⟩ := List.exists_mem_of_ne_nil _ horders
    obtain ⟨time, payload, he⟩ := hendorsed o ho
    exact Log.not_endorsementLapsed he.answered
  have hunsent (horders : h.orders = []) : h.replies = [] := by
    rw [horders] at hpaired
    exact List.length_eq_zero_iff.1 hpaired.symm
  cases hcause with
  | unsent orders endorsed settled =>
    have hno : ¬ h.OrderingLapsed ∧ ¬ h.Accepted := by
      simp [Log.OrderingLapsed, Log.Accepted, hunsent orders]
    simp [settled, Log.not_endorsementLapsed endorsed, hno.1, hno.2]
  | @unendorsed time e orders answers =>
    have hno : ¬ h.OrderingLapsed ∧ ¬ h.Accepted := by
      simp [Log.OrderingLapsed, Log.Accepted, hunsent orders]
    simp [TransactionFailure.isTimeout_transport, Log.EndorsementLapsed, answers, hno.1, hno.2]
  | @unordered e orders last =>
    have hno : ¬ h.Accepted := by simp [Log.Accepted, last]
    simp [TransactionFailure.isTimeout_transport, Log.OrderingLapsed, last, hsent orders, hno]
  | refused orders last refused settled =>
    have hno : ¬ h.Accepted := by simp [Log.Accepted, last, refused]
    simp [settled, hsent orders, Log.not_orderingLapsed last, hno]
  | unconfirmed orders accepted =>
    have hno : ¬ h.OrderingLapsed := by
      obtain ⟨reply, last, -⟩ := accepted
      exact Log.not_orderingLapsed last
    simp only [hsent orders, hno, accepted, false_or, true_and]
    cases hq : c₀.awaited inv with
    | none =>
      obtain ⟨o, ho⟩ := List.exists_mem_of_ne_nil _ orders
      obtain ⟨time, payload, he⟩ := hendorsed o ho
      have hok : (.error e : Except TransactionFailure Bytes) = .ok payload :=
        hout.ok_iff.2 ⟨accepted, ⟨time, o.2, he⟩, by simp [hq]⟩
      cases hok
    | some q =>
      obtain ⟨_, _, _, passed, result, _, -, -, hresult, hlook, -⟩ := hout.looked hq accepted
      subst hresult
      exact isTimeout_look_iff hlook

/-- Take any run in which a transaction is submitted and the call ends with a failure.  The failure
is a timeout exactly if the request for endorsement as a whole ran out of time, or the last request
for ordering did, or the transaction was accepted and the wait for its confirmation expired.  In the
first case nothing was sent for ordering; so a timeout says that the transaction was sent, unless
the endorsement as a whole ran out of time.  When every request for ordering has failed, only the
last one counts. -/
theorem timeout_iff_lapsed (channel : Channel) (identity : Identity) (options : Options)
    (past : List Move) (inv : Invocation) (ms : List Move) (e : TransactionFailure)
    (proper : Proper [] (new channel identity options) (past ++ .submit inv :: ms)) :
    let c₀ := (new channel identity options).run past
    let h := log c₀.nextCall c₀ (.submit inv :: ms)
    h.results = [.answered (.error e)] →
      (e.isTimeout = true ↔ h.EndorsementLapsed ∨ h.OrderingLapsed ∨ h.Accepted ∧
        ∃ pending, e = .confirmationTimedOut inv.id c₀.options.commitTimeout pending) ∧
      h.orders.length = h.replies.length ∧ (h.EndorsementLapsed → h.orders = []) ∧
      (e.isTimeout = true → h.EndorsementLapsed ∨ h.orders ≠ []) ∧
      (h.orders ≠ [] → (∀ r ∈ h.replies, ∃ e', r = .error e') →
        (e.isTimeout = true ↔ h.OrderingLapsed)) := by
  intro c₀ h hfailed
  obtain ⟨hpast, hms⟩ := proper_append proper
  have hc : c₀.Orderly (gather made (new channel identity options) past) :=
    (orderly_new channel identity options).run hpast
  have hstage := (Stage.submitted hc hms).1
  have htraced : Traced c₀.nextCall (c₀.run (.submit inv :: ms)) h :=
    kept_of_submitted hc hms (Traced.submit c₀ inv) Traced.own Traced.other
  have hout : Outcome c₀ inv h (.answered (.error e)) := by
    rcases hstage.results_cases with hnone | ⟨result, hone, hout⟩
    · exact absurd (hnone.symm.trans hfailed) (by simp)
    · rw [hfailed] at hone
      exact (List.cons.inj hone).1 ▸ hout
  obtain ⟨hpaired, hcause⟩ := htraced.ended e hfailed
  have hiff := hcause.isTimeout_iff hpaired hstage.orders hout
  have hunsent (hlapsed : h.EndorsementLapsed) : h.orders = [] := by
    by_contra horders
    obtain ⟨o, ho⟩ := List.exists_mem_of_ne_nil _ horders
    obtain ⟨time, payload, he⟩ := hstage.orders o ho
    exact Log.not_endorsementLapsed he.answered hlapsed
  have hsent {r : Except TransportError OrderReply} (hlast : h.replies.getLast? = some r) :
      h.orders ≠ [] := by
    intro horders
    rw [horders] at hpaired
    rw [List.length_eq_zero_iff.1 hpaired.symm] at hlast
    cases hlast
  refine ⟨hiff, hpaired, hunsent, fun he => ?_, fun horders hall => ?_⟩
  · rcases hiff.1 he with hlapsed | ⟨_, hlast, -⟩ | ⟨⟨_, hlast, -⟩, -⟩
    · exact Or.inl hlapsed
    · exact Or.inr (hsent hlast)
    · exact Or.inr (hsent hlast)
  · have hrefused : ¬ h.Accepted := by
      rintro ⟨reply, hlast, -⟩
      obtain ⟨e', he'⟩ := hall _ (List.mem_of_getLast? hlast)
      cases he'
    rw [hiff]
    constructor
    · rintro (hlapsed | hlapsed | ⟨haccepted, -⟩)
      · exact absurd (hunsent hlapsed) horders
      · exact hlapsed
      · exact absurd haccepted hrefused
    · exact fun hlapsed => Or.inr (Or.inl hlapsed)

/-- A submission of `calling` whose quorum has no peers, up to the answers to its proposal. -/
def endorsedWell : List Move := [.endorsed 0 (.ok (Answer.collect (.ofMillis 30000) answering))]

/-- The first orderer cannot be reached and the second does not answer in time. -/
def lastLapses : List Move :=
  endorsedWell ++ [.ordered 0 (.error (.unreachable "o1" "")),
    .ordered 0 (.error (.timedOut "o2" (.ofMillis 30000)))]

/-- The call ends with a timeout, after the transaction was sent to both orderers. -/
theorem timeout_of_last_orderer :
    let c₀ := new twoByTwo ⟨"other", []⟩ .default
    let h := log c₀.nextCall c₀ (.submit calling :: lastLapses)
    let e := TransactionFailure.transport (.timedOut "o2" (.ofMillis 30000))
    Proper [] c₀ (.submit calling :: lastLapses) ∧ h.results = [.answered (.error e)] ∧
      e.isTimeout = true ∧ h.OrderingLapsed ∧ h.orders.length = 2 := by
  intro c₀ h e
  have hproper : Proper [] c₀ ([] ++ .submit calling :: lastLapses) := by decide +kernel
  have hresults : h.results = [.answered (.error e)] := by decide +kernel
  have hreplies : h.replies = [.error (.unreachable "o1" ""),
    .error (.timedOut "o2" (.ofMillis 30000))] := by decide +kernel
  obtain ⟨-, hpaired, -, -, hlast⟩ := timeout_iff_lapsed twoByTwo ⟨"other", []⟩ .default [] calling
    lastLapses e hproper hresults
  have hlength : h.orders.length = 2 := hpaired.trans (congrArg List.length hreplies)
  have hsent : h.orders ≠ [] := by
    intro hnil
    rw [hnil] at hlength
    cases hlength
  have hfailed : ∀ r ∈ h.replies, ∃ e', r = .error e' := by
    rw [hreplies]
    simp
  exact ⟨hproper, hresults, rfl, (hlast hsent hfailed).1 rfl, hlength⟩

/-- The first orderer does not answer in time and the second cannot be reached. -/
def firstLapses : List Move :=
  endorsedWell ++ [.ordered 0 (.error (.timedOut "o1" (.ofMillis 30000))),
    .ordered 0 (.error (.unreachable "o2" ""))]

/-- The discovery handler does not answer in time. -/
def discoveryLapses : List Move :=
  [.endorsed 0 (.error (.timedOut "discovery" (.ofMillis 30000)))]

/-- A timeout does not tell in general that the transaction was sent for ordering, as when the
discovery handler does not endorse in time; and when every request for ordering has failed, one of
them because it ran out of time, the failure need not be a timeout. -/
theorem timeout_does_not_tell :
    (let c₀ := new { twoByTwo with discovery := true } ⟨"org", []⟩ .default
      let h := log c₀.nextCall c₀ (.submit calling :: discoveryLapses)
      ∃ e, h.results = [.answered (.error e)] ∧ e.isTimeout = true ∧ h.orders = []) ∧
    let c₀ := new twoByTwo ⟨"other", []⟩ .default
    let h := log c₀.nextCall c₀ (.submit calling :: firstLapses)
    ∃ e, h.results = [.answered (.error e)] ∧ e.isTimeout = false ∧
      h.replies = [.error (.timedOut "o1" (.ofMillis 30000)), .error (.unreachable "o2" "")] ∧
      h.orders.length = 2 := by
  refine ⟨⟨.transport (.timedOut "discovery" (.ofMillis 30000)), ?_, rfl, ?_⟩,
    .transport (.unreachable "o2" ""), ?_, rfl, ?_, ?_⟩ <;> decide +kernel

end Client

end LedgerClient
