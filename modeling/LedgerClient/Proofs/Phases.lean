import LedgerClient.Proofs.Logs

/-!
# The phases of a submitted transaction

A transaction that is submitted is endorsed, a mailbox is attached to the peers of its quorum, it is
ordered, and the outcomes in the mailbox are looked at. `Client.Stage` says where it stands and what
its log says then. Whatever else happens meanwhile leaves the phase as it is (`Client.Stage.other`).
-/

namespace LedgerClient

namespace Client

/-! ## Phases -/

/-- The quorum that a submission waits for, if any: one without peers is given up. -/
def awaited (c : Client) (inv : Invocation) : Option Quorum :=
  (inv.quorum.or c.defaultQuorum).filter fun q => !q.peers.isEmpty

/-- The transaction was endorsed at a time: its proposal was built and sent to the targets, and the
valid answers, in the order of the answers, go with it. -/
structure Endorsed (c₀ : Client) (inv : Invocation) (h : Log) (time : Nat) (r : OrderRequest)
    (payload : Bytes) : Prop where
  built : c₀.proposalOf inv = .ok r.proposal
  targets : ∃ targets, Targets.choose c₀.channel inv.peers inv.organizations
    c₀.options.discoveryEnabled = .ok targets ∧ h.proposals = [(targets, r.proposal)]
  answers : ∃ answers, h.answers = [(time, .ok answers)] ∧
    r.endorsements = answers.filter Answer.isValid
  payload : (r.endorsements.map (·.payload)).head? = some payload

/-- The wait of a submission, with outcomes in its mailbox if a quorum is awaited. -/
def waitFor (inv : Invocation) (limit : Duration) (awaited : Option Quorum) (time n : Nat)
    (os : List CommitOutcome) : Wait :=
  match awaited with
  | none => ⟨inv.id, none, limit, none, none, none, true⟩
  | some q => ⟨inv.id, some q, limit, some (time + limit.ceilMillis), some n, some (n, os), true⟩

/-- Whom the sessions of links tell. -/
def audiences (c : Client) (links : List Link) : List (Option Audience) :=
  links.map fun l => (c.sessions[l.attachment.session]?).map (·.audience)

/-- Whom the sessions of a mailbox on peers tell, and of what. -/
def mailboxAudiences (n : Nat) (id : String) (peers : List Peer) : List Audience :=
  peers.map fun p => .commit (.mailbox n) p.name id

/-- The registration of a mailbox on peers returns, and the call goes on: every peer has a session
of it, the first attempts of all their feeds are over, and the sessions are put under its key. -/
def Registers (i n : Nat) (peers : List Peer) (id : String) (next : AfterLink)
    (c c' : Client) : Prop :=
  ∃ (b : Client) (links : List Link), b.outbox = c.outbox ∧ (∀ l ∈ links, l.attempted = true) ∧
    b.audiences links = (mailboxAudiences n id peers).map some ∧
    c' = (b.complete (.commit (.mailbox n)) (links.map (·.attachment))).proceed i next

/-- The ordering service has accepted the transaction. -/
def Log.Accepted (h : Log) : Prop :=
  ∃ reply, h.replies.getLast? = some (.ok reply) ∧ reply.isAccepted = true

/-- Peers were sent the proposal, and each of them has answered it or failed to in time. -/
structure Log.Asked (h : Log) (requests : List (Peer × Arrival Reply)) : Prop where
  sent : ∃ p, h.proposals = [(.peers (requests.map (·.1)), p)]
  answered : ∃ time limit, h.answers = [(time, .ok (Answer.collect limit requests))]

/-- How a submission ends by itself. -/
inductive Outcome (c₀ : Client) (inv : Invocation) (h : Log) : CallResult → Prop
  /-- It fails before the transaction is accepted. -/
  | failed (e : TransactionFailure)
      (refused : ∀ reply, h.replies.getLast? = some (.ok reply) → reply.isAccepted = false) :
      Outcome c₀ inv h (.answered (.error e))
  /-- The transaction was accepted, and nothing is awaited. -/
  | accepted {time : Nat} {r : OrderRequest} {payload : Bytes} {reply : OrderReply}
      (endorsed : Endorsed c₀ inv h time r payload)
      (replied : h.replies.getLast? = some (.ok reply))
      (accepted : reply.isAccepted = true) (awaited : c₀.awaited inv = none) :
      Outcome c₀ inv h (.answered (.ok payload))
  /-- The transaction was accepted, and the wait for its quorum has ended. -/
  | confirmed {time : Nat} {r : OrderRequest} {payload : Bytes} {reply : OrderReply} {q : Quorum}
      {passed : Bool} {result : Except TransactionFailure Unit} {left : List CommitOutcome}
      (endorsed : Endorsed c₀ inv h time r payload)
      (replied : h.replies.getLast? = some (.ok reply))
      (accepted : reply.isAccepted = true) (awaited : c₀.awaited inv = some q)
      (looked : Confirmation.look inv.id q c₀.options.commitTimeout (.new q.peers.length) h.taken
        passed = .ended result)
      (late : passed = true → ∃ l ∈ h.looks, time + c₀.options.commitTimeout.ceilMillis ≤ l.time)
      (reports : h.reports = h.taken ++ left)
      (ample : passed = true → h.Ample (time + c₀.options.commitTimeout.ceilMillis) → left = []) :
      Outcome c₀ inv h (.answered (result.map fun _ => payload))

/-- The transaction was sent for ordering, and no reply has come yet. -/
structure BeingOrdered (c₀ : Client) (inv : Invocation) (i : Nat) (mine : List Nat) (c : Client)
    (h : Log) (time n w : Nat) (r : OrderRequest) (payload : Bytes) (route : OrderRoute) :
    Prop where
  call : c.call? i = some (.ordering r payload w route)
  endorsed : Endorsed c₀ inv h time r payload
  own : c.Own i w mine
  wait : c.waits[w]? =
    some (waitFor inv c₀.options.commitTimeout (c₀.awaited inv) time n h.reports)
  sent : h.orders ≠ []
  orders : ∀ o ∈ h.orders, o.2 = r
  replies : ∀ reply, .ok reply ∉ h.replies
  looks : h.looks = []
  results : h.results = []

/-- The looks so far, all before the deadline, have left the tally `t`, and the outcomes that they
did not take are in the mailbox. -/
structure Watched (c₀ : Client) (inv : Invocation) (c : Client) (h : Log) (time n w : Nat)
    (q : Quorum) (t : Tally) (os : List CommitOutcome) : Prop where
  wait : c.waits[w]? = some (waitFor inv c₀.options.commitTimeout (some q) time n os)
  taken : Confirmation.takeAll inv.id q (.new q.peers.length) h.taken = .waiting t
  reports : h.reports = h.taken ++ os
  early : ∀ l ∈ h.looks, l.time < time + c₀.options.commitTimeout.ceilMillis

/-- Where a submission stands, and what its log says then. -/
inductive Stage (c₀ : Client) (inv : Invocation) (i : Nat) (mine : List Nat) (c : Client)
    (h : Log) : Prop
  | endorsing {p : Proposal} {targets : Targets}
      (call : c.call? i = some (.endorsing p inv.quorum))
      (built : c₀.proposalOf inv = .ok p)
      (chosen : Targets.choose c₀.channel inv.peers inv.organizations c₀.options.discoveryEnabled =
        .ok targets)
      (log : h = ⟨[(targets, p)], [], [], [], [], [], []⟩)
  | linking {time n w : Nat} {r : OrderRequest} {payload : Bytes} {q : Quorum} {links : List Link}
      (call : c.call? i = some (.linking (.commit (.mailbox n)) links (.order r payload w)))
      (endorsed : Endorsed c₀ inv h time r payload)
      (awaited : c₀.awaited inv = some q)
      (own : c.Own i w mine)
      (wait : c.waits[w]? =
        some (waitFor inv c₀.options.commitTimeout (some q) time n h.reports))
      (linked : c.audiences links = (mailboxAudiences n inv.id.text q.peers).map some)
      (orders : h.orders = []) (replies : h.replies = []) (looks : h.looks = [])
      (results : h.results = [])
  | ordering {time n w : Nat} {r : OrderRequest} {payload : Bytes} {route : OrderRoute}
      (sent : BeingOrdered c₀ inv i mine c h time n w r payload route)
  | confirming {time n w : Nat} {r : OrderRequest} {payload : Bytes} {reply : OrderReply}
      {q : Quorum} {t : Tally} {os : List CommitOutcome}
      (call : c.call? i = some (.confirming w q t (some payload)))
      (endorsed : Endorsed c₀ inv h time r payload)
      (awaited : c₀.awaited inv = some q)
      (own : c.Own i w mine)
      (watched : Watched c₀ inv c h time n w q t os)
      (sent : h.orders ≠ []) (orders : ∀ o ∈ h.orders, o.2 = r)
      (replied : h.replies.getLast? = some (.ok reply)) (accepted : reply.isAccepted = true)
      (results : h.results = [])
  | ended (call : c.call? i = none)
      (orders : ∀ o ∈ h.orders, ∃ time payload, Endorsed c₀ inv h time o.2 payload)
      (results : h.results = [] ∨ ∃ result, h.results = [result] ∧ Outcome c₀ inv h result)

section Phases

variable {c₀ c : Client} {inv : Invocation} {i : Nat} {mine : List Nat} {h d : Log} {m : Move}

theorem Endorsed.append {time : Nat} {r : OrderRequest} {payload : Bytes}
    (he : Endorsed c₀ inv h time r payload) (hproposals : d.proposals = [])
    (hanswers : d.answers = []) : Endorsed c₀ inv (h ++ d) time r payload := by
  obtain ⟨targets, hchosen, hsent⟩ := he.targets
  obtain ⟨answers, hcame, hvalid⟩ := he.answers
  refine ⟨he.built, ⟨targets, hchosen, ?_⟩, ⟨answers, ?_, hvalid⟩, he.payload⟩
  · rw [Log.proposals_append, hproposals, List.append_nil, hsent]
  · rw [Log.answers_append, hanswers, List.append_nil, hcame]

theorem Endorsed.eq {time time' : Nat} {r r' : OrderRequest} {payload payload' : Bytes}
    (he : Endorsed c₀ inv h time r payload) (he' : Endorsed c₀ inv h time' r' payload') :
    time = time' ∧ r = r' ∧ payload = payload' := by
  obtain ⟨answers, hcame, hvalid⟩ := he.answers
  obtain ⟨answers', hcame', hvalid'⟩ := he'.answers
  rw [hcame] at hcame'
  simp only [List.cons.injEq, Prod.mk.injEq, Except.ok.injEq, and_true] at hcame'
  obtain ⟨rfl, rfl⟩ := hcame'
  have hproposal : r.proposal = r'.proposal := Except.ok.inj (he.built.symm.trans he'.built)
  obtain ⟨proposal, endorsements⟩ := r
  obtain ⟨proposal', endorsements'⟩ := r'
  simp only at hvalid hvalid' hproposal
  subst hvalid hvalid' hproposal
  exact ⟨rfl, rfl, Option.some.inj (he.payload.symm.trans he'.payload)⟩

theorem audiences_progress (b : Client) (links : List Link) :
    c.audiences (b.progress links) = c.audiences links := by
  unfold audiences progress
  rw [List.map_map]
  rfl

/-- Whom the sessions of links tell stays as it is. -/
theorem audiences_apply (hc : c.Tidy) (m : Move) {links : List Link} {as : List Audience}
    (h : c.audiences links = as.map some) : (c.apply m).audiences links = as.map some := by
  rw [← h]
  refine List.map_congr_left fun l hl => ?_
  have hmem : (c.sessions[l.attachment.session]?).map (·.audience) ∈ as.map some :=
    h ▸ List.mem_map_of_mem hl
  obtain ⟨a, -, ha⟩ := List.mem_map.1 hmem
  obtain ⟨s, hs, -⟩ := Option.map_eq_some_iff.1 ha.symm
  obtain ⟨s', hs', haudience⟩ := audience_apply hc m hs
  rw [hs, hs', Option.map_some, Option.map_some, haudience]

/-- Moves of others add to the wait of a submission what is told to its mailbox. -/
theorem Own.waitFor (hc : c.Orderly mine) (hm : m.Proper mine) (hactor : c.actor m ≠ i) {w : Nat}
    (own : c.Own i w mine) {call : Call} (hcall : c.call? i = some call) (hw : call.wait? = some w)
    {limit : Duration} {awaited : Option Quorum} {time n : Nat} {os : List CommitOutcome}
    (hwait : c.waits[w]? = some (waitFor inv limit awaited time n os)) :
    (c.apply m).waits[w]? =
      some (Client.waitFor inv limit awaited time n (os ++ c.reportsTo i m)) := by
  rw [own.wait hc hm hactor, hwait, Option.map_some]
  cases awaited with
  | none => rfl
  | some q =>
    have hreports : c.reportsTo i m = c.posts n m := by
      unfold reportsTo
      rw [hcall, Option.bind_some, hw, Option.bind_some, mailboxOf?, hwait]
      rfl
    rw [hreports]
    rfl

/-- Other moves leave a submission where it is; at most the outcomes of its mailbox become more. -/
theorem Stage.other (hc : c.Orderly mine) (hm : m.Proper mine) (hactor : c.actor m ≠ i)
    (hs : Stage c₀ inv i mine c h) :
    Stage c₀ inv i (mine ++ c.made m) (c.apply m) (h ++ .of i c m) := by
  have hcall := call?_apply hc.tidy hactor
  -- the call and its wait are out of reach of the move, so only the reports can become more
  rw [log_of_other hc.tidy hactor]
  have hendorsed : ∀ {time : Nat} {r : OrderRequest} {payload : Bytes},
      Endorsed c₀ inv h time r payload →
      Endorsed c₀ inv (h ++ ⟨[], [], [], [], c.reportsTo i m, [], []⟩) time r payload :=
    fun he => he.append rfl rfl
  have horders : (h ++ (⟨[], [], [], [], c.reportsTo i m, [], []⟩ : Log)).orders = h.orders :=
    List.append_nil _
  have hreplies : (h ++ (⟨[], [], [], [], c.reportsTo i m, [], []⟩ : Log)).replies = h.replies :=
    List.append_nil _
  have hlooks : (h ++ (⟨[], [], [], [], c.reportsTo i m, [], []⟩ : Log)).looks = h.looks :=
    List.append_nil _
  have hresults : (h ++ (⟨[], [], [], [], c.reportsTo i m, [], []⟩ : Log)).results = h.results :=
    List.append_nil _
  have htaken : (h ++ (⟨[], [], [], [], c.reportsTo i m, [], []⟩ : Log)).taken = h.taken :=
    congrArg (·.flatMap (·.taken)) hlooks
  cases hs with
  | endorsing call built chosen log =>
    have hnone : c.reportsTo i m = [] := by
      unfold reportsTo
      rw [call]
      rfl
    refine .endorsing (hcall.trans call) built chosen ?_
    rw [hnone, log]
    rfl
  | linking call endorsed awaited own wait linked orders replies looks results =>
    exact .linking (hcall.trans call) (hendorsed endorsed) awaited (own.apply hc hm)
      (own.waitFor hc hm hactor call rfl wait) (audiences_apply hc.tidy m linked)
      (horders.trans orders) (hreplies.trans replies) (hlooks.trans looks) (hresults.trans results)
  | ordering sent =>
    exact .ordering {
      call := hcall.trans sent.call
      endorsed := hendorsed sent.endorsed
      own := sent.own.apply hc hm
      wait := sent.own.waitFor hc hm hactor sent.call rfl sent.wait
      sent := horders ▸ sent.sent
      orders := horders ▸ sent.orders
      replies := hreplies ▸ sent.replies
      looks := hlooks.trans sent.looks
      results := hresults.trans sent.results }
  | confirming call endorsed awaited own watched sent orders replied accepted results =>
    refine .confirming (hcall.trans call) (hendorsed endorsed) awaited (own.apply hc hm)
      ⟨own.waitFor hc hm hactor call rfl watched.wait, htaken ▸ watched.taken, ?_,
        hlooks ▸ watched.early⟩ (horders ▸ sent) (horders ▸ orders) (hreplies ▸ replied) accepted
      (hresults.trans results)
    rw [htaken, ← List.append_assoc, ← watched.reports]
    rfl
  | ended call orders results =>
    have hnone : c.reportsTo i m = [] := by
      unfold reportsTo
      rw [call]
      rfl
    rw [hnone]
    exact .ended (hcall.trans call) ((Log.append_empty h).symm ▸ orders)
      ((Log.append_empty h).symm ▸ results)

end Phases

end Client

end LedgerClient
