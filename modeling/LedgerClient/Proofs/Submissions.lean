import LedgerClient.Proofs.Quorums
import LedgerClient.Proofs.Steps

/-!
# What a submitted transaction comes to

The log of a submitted transaction tells how it ends (`Client.Outcome.ok_iff`): well exactly if it
was accepted and its quorum, if any, confirms. The main statement,
`Client.submission_follows_phases`, puts this together with what is sent, and when.
-/

namespace LedgerClient

namespace Client

section Outcomes

variable {c₀ c : Client} {inv : Invocation} {i : Nat} {mine : List Nat} {h : Log}

theorem awaited_peers {q : Quorum} (h : c₀.awaited inv = some q) : q.peers ≠ [] := by
  have hpeers := (Option.filter_eq_some_iff.1 h).2
  simpa using hpeers

theorem Endorsed.endorsements_ne_nil {time : Nat} {r : OrderRequest} {payload : Bytes}
    (he : Endorsed c₀ inv h time r payload) : r.endorsements ≠ [] := by
  intro hnil
  have hfirst := he.payload
  rw [hnil] at hfirst
  cases hfirst

/-- Endorsements stand in the order in which the peers were asked. -/
theorem Endorsed.peers_sublist {time : Nat} {r : OrderRequest} {payload : Bytes}
    {requests : List (Peer × Arrival Reply)} (he : Endorsed c₀ inv h time r payload)
    (hasked : h.Asked requests) :
    (r.endorsements.map (·.peer)).Sublist (requests.map (·.1.name)) := by
  obtain ⟨answers, hcame, hvalid⟩ := he.answers
  obtain ⟨time', limit, hanswers⟩ := hasked.answered
  have hpeer (name : String) (result : Except TransportError Reply) :
      (Answer.ofResult name result).peer = name := by
    cases result <;> rfl
  have hpeers : (Answer.collect limit requests).map (·.peer) = requests.map (·.1.name) := by
    simp [Answer.collect, hpeer]
  obtain rfl : answers = Answer.collect limit requests := by
    rw [hanswers] at hcame
    simp only [List.cons.injEq, Prod.mk.injEq, Except.ok.injEq, and_true] at hcame
    exact hcame.2.symm
  rw [hvalid, ← hpeers]
  exact List.filter_sublist.map _

theorem Outcome.answered {result : CallResult} (ho : Outcome c₀ inv h result) :
    ∃ r, result = .answered r := by
  cases ho <;> exact ⟨_, rfl⟩

/-- A submission ends well exactly if it was accepted and its quorum, if any, confirms on what was
taken. -/
theorem Outcome.ok_iff {r : Except TransactionFailure Bytes} {payload : Bytes}
    (ho : Outcome c₀ inv h (.answered r)) : r = .ok payload ↔ h.Accepted ∧
      (∃ time request, Endorsed c₀ inv h time request payload) ∧
      ∀ q, c₀.awaited inv = some q → Confirmation.Confirmed q h.taken := by
  cases ho with
  | failed e refused =>
    refine iff_of_false (fun h => by cases h) ?_
    rintro ⟨⟨reply, hlast, haccepted⟩, -⟩
    rw [refused reply hlast] at haccepted
    cases haccepted
  | accepted endorsed replied accepted awaited =>
    constructor
    · intro h
      obtain rfl := Except.ok.inj h
      exact ⟨⟨_, replied, accepted⟩, ⟨_, _, endorsed⟩, fun q hq => by simp [awaited] at hq⟩
    · rintro ⟨-, ⟨_, _, he⟩, -⟩
      rw [(endorsed.eq he).2.2]
  | @confirmed _ _ _ _ q passed result _ endorsed replied accepted awaited looked =>
    have hok : result = .ok () ↔ Confirmation.Confirmed q h.taken := by
      have hlooked : Confirmation.look inv.id q c₀.options.commitTimeout (.new q.peers.length)
          h.taken passed = .ended (.ok ()) ↔ Confirmation.Confirmed q h.taken :=
        Confirmation.look_eq_ok_iff (awaited_peers awaited)
      rw [← hlooked, looked]
      simp
    constructor
    · intro heq
      cases result with
      | error e => cases heq
      | ok _ =>
        obtain rfl := Except.ok.inj heq
        refine ⟨⟨_, replied, accepted⟩, ⟨_, _, endorsed⟩, fun q' hq' => ?_⟩
        obtain rfl := Option.some.inj (awaited.symm.trans hq')
        exact hok.1 rfl
    · rintro ⟨-, ⟨_, _, he⟩, hconfirmed⟩
      rw [hok.2 (hconfirmed q awaited), (endorsed.eq he).2.2]
      rfl

/-- An accepted submission ends as a look at what was taken says, with the deadline passed only if
it was; and if the looks from then on left nothing, as a look at all that was reported says. -/
theorem Outcome.looked {r : Except TransactionFailure Bytes} {q : Quorum}
    (ho : Outcome c₀ inv h (.answered r)) (hq : c₀.awaited inv = some q) (ha : h.Accepted) :
    ∃ time request payload passed result left, Endorsed c₀ inv h time request payload ∧
      h.reports = h.taken ++ left ∧ r.map (fun _ => ()) = result ∧
      Confirmation.look inv.id q c₀.options.commitTimeout (.new q.peers.length) h.taken passed =
        .ended result ∧
      (passed = true → ∃ l ∈ h.looks, time + c₀.options.commitTimeout.ceilMillis ≤ l.time) ∧
      (h.Ample (time + c₀.options.commitTimeout.ceilMillis) →
        Confirmation.look inv.id q c₀.options.commitTimeout (.new q.peers.length) h.reports passed =
          .ended result) := by
  cases ho with
  | failed e refused =>
    obtain ⟨reply, hlast, haccepted⟩ := ha
    rw [refused reply hlast] at haccepted
    cases haccepted
  | accepted endorsed replied accepted awaited =>
    rw [awaited] at hq
    cases hq
  | @confirmed time request payload _ q' passed result left endorsed replied accepted awaited looked
      late reports ample =>
    obtain rfl := Option.some.inj (awaited.symm.trans hq)
    refine ⟨time, request, payload, passed, result, left, endorsed, reports, ?_, looked, late,
      fun hample => ?_⟩
    · cases result <;> rfl
    · rw [reports]
      exact Confirmation.look_append looked left fun hpassed => ample hpassed hample

theorem Stage.results_cases (hs : Stage c₀ inv i mine c h) :
    h.results = [] ∨ ∃ result, h.results = [result] ∧ Outcome c₀ inv h result := by
  cases hcall : c.call? i with
  | some call => exact Or.inl (hs.results (by simp [hcall]))
  | none =>
    cases hs with
    | ended _ _ results => exact results
    | ordering sent => simp [sent.call] at hcall
    | _ call => simp [call] at hcall

/-- A submission is over once it has looked at its mailbox with the deadline passed. -/
theorem Stage.ended_of_late {time : Nat} {r : OrderRequest} {payload : Bytes}
    {l : Glance} (hs : Stage c₀ inv i mine c h) (he : Endorsed c₀ inv h time r payload)
    (hl : l ∈ h.looks) (hlate : time + c₀.options.commitTimeout.ceilMillis ≤ l.time) :
    c.call? i = none := by
  cases hs with
  | endorsing _ _ _ log =>
    rw [log] at hl
    cases hl
  | linking _ _ _ _ _ _ _ _ looks =>
    rw [looks] at hl
    cases hl
  | ordering sent =>
    rw [sent.looks] at hl
    cases hl
  | confirming _ endorsed _ _ watched =>
    have hearly := watched.early l hl
    rw [(endorsed.eq he).1] at hearly
    omega
  | ended call => exact call

end Outcomes

/-- A submitted transaction follows its phases, whatever else happens as long as the application
keeps to its own waits and listeners.

It is sent for ordering only if its proposal was built and sent to the targets and some of the
answers are valid, and it goes with its own id and exactly the valid answers, in the order of the
targets. When a quorum is awaited, the registration of its mailbox has returned when it is sent for
the first time. The call ends at most once, and it ends well with the payload of the first valid
answer exactly if the transaction was accepted and the awaited quorum, if there is one, confirms on
the outcomes that were taken out of the mailbox. They are taken in the order in which they were
told. The first look that finds the deadline passed ends the call, after it has taken what it has
room for; if it leaves nothing, the call ends as all outcomes that were told say. -/
theorem submission_follows_phases (channel : Channel) (identity : Identity) (options : Options)
    (past : List Move) (inv : Invocation) (ms : List Move)
    (proper : Proper [] (new channel identity options) (past ++ .submit inv :: ms)) :
    let c₀ := (new channel identity options).run past
    let i := c₀.nextCall
    let h := log i c₀ (.submit inv :: ms)
    let limit := c₀.options.commitTimeout
    (∀ o ∈ h.orders, o.2.proposal.id = inv.id ∧ o.2.endorsements ≠ [] ∧
      (∃ time payload, Endorsed c₀ inv h time o.2 payload) ∧
      ∀ requests, h.Asked requests →
        (o.2.endorsements.map (·.peer)).Sublist (requests.map (·.1.name))) ∧
    (∀ q, c₀.awaited inv = some q → ∀ before m after, .submit inv :: ms = before ++ m :: after →
      (log i c₀ before).orders = [] → (Log.of i (c₀.run before) m).orders ≠ [] →
      ∃ n next, Registers i n q.peers inv.id.text next (c₀.run before) ((c₀.run before).apply m)) ∧
    (h.results = [] ∨ ∃ r, h.results = [.answered r] ∧
      (∀ payload, r = .ok payload ↔ h.Accepted ∧
        (∃ time request, Endorsed c₀ inv h time request payload) ∧
        ∀ q, c₀.awaited inv = some q → Confirmation.Confirmed q h.taken) ∧
      ∀ q, c₀.awaited inv = some q → h.Accepted →
        let looked (os : List CommitOutcome) (passed : Bool) :=
          Confirmation.look inv.id q limit (.new q.peers.length) os passed
        ∃ time request payload passed result left, Endorsed c₀ inv h time request payload ∧
          h.reports = h.taken ++ left ∧ r.map (fun _ => ()) = result ∧
          looked h.taken passed = .ended result ∧
          (passed = true → ∃ l ∈ h.looks, time + limit.ceilMillis ≤ l.time) ∧
          (h.Ample (time + limit.ceilMillis) → looked h.reports passed = .ended result)) ∧
    ∀ time request payload, Endorsed c₀ inv h time request payload → ∀ l ∈ h.looks,
      time + limit.ceilMillis ≤ l.time → (c₀.run (.submit inv :: ms)).call? i = none := by
  intro c₀ i h limit
  obtain ⟨hpast, hms⟩ := proper_append proper
  have hc : c₀.Orderly (gather made (new channel identity options) past) :=
    (orderly_new channel identity options).run hpast
  have hstage := (Stage.submitted hc hms).1
  refine ⟨fun o ho => ?_, fun q hq before m after heq hno hne => ?_, ?_,
    fun _ _ _ he l hl hlate => hstage.ended_of_late he hl hlate⟩
  · obtain ⟨time, payload, he⟩ := hstage.orders o ho
    exact ⟨proposalOf_id he.built, he.endorsements_ne_nil, ⟨time, payload, he⟩,
      fun _ hasked => he.peers_sublist hasked⟩
  · cases before with
    | nil =>
      obtain ⟨rfl, -⟩ := List.cons.inj heq
      exact absurd (Stage.submit c₀ inv []).2 hne
    | cons m' before =>
      obtain ⟨rfl, rfl⟩ := List.cons.inj heq
      exact Stage.first hc hms hno hne hq
  · rcases hstage.results_cases with hnone | ⟨result, hone, hout⟩
    · exact Or.inl hnone
    · obtain ⟨r, rfl⟩ := hout.answered
      exact Or.inr ⟨r, hone, fun _ => hout.ok_iff, fun q hq haccepted => hout.looked hq haccepted⟩

/-- A channel with two peers and two orderers. -/
def twoByTwo : Channel :=
  ⟨"channel", [⟨"p1", "org", "", .all⟩, ⟨"p2", "org", "", .all⟩], [⟨"o1", ""⟩, ⟨"o2", ""⟩], false⟩

/-- A function of a chaincode is called. -/
def calling : Invocation :=
  ⟨⟨"tx"⟩, [], "chaincode", "function", [], [], none, none, none⟩

/-- The second peer answers first and refuses, the first peer endorses. -/
def answering : List (Peer × Arrival Reply) :=
  [(⟨"p1", "org", "", .all⟩, ⟨some 5, .ok ⟨some 200, "", [42], []⟩⟩),
    (⟨"p2", "org", "", .all⟩, ⟨some 3, .ok ⟨some 500, "refused", [], []⟩⟩)]

/-- The first orderer cannot be reached, the second accepts the transaction, and then both peers
report that it is valid. -/
def submittedWell : List Move :=
  [.endorsed 0 (.ok (Answer.collect (.ofMillis 30000) answering)), .requestStream 0,
    .requestStream 1, .streamOpened 0, .streamOpened 1, .resume 0 128,
    .ordered 0 (.error (.unreachable "o1" "")), .ordered 0 (.ok ⟨OrderReply.accepted, ""⟩),
    .blockArrived 0 blockOfTx, .takeNext 0, .resume 0 128, .blockArrived 1 blockOfTx, .takeNext 1,
    .resume 0 128]

/-- The call ends with the payload of the first peer, whose answer alone was sent to both orderers;
so the transaction was accepted and is confirmed. -/
theorem submission_confirmed_by_both_peers :
    let c₀ := new twoByTwo ⟨"org", []⟩ .default
    let h := log c₀.nextCall c₀ (.submit calling :: submittedWell)
    Proper [] c₀ (.submit calling :: submittedWell) ∧ h.orders.length = 2 ∧
      (∀ o ∈ h.orders, o.2.proposal.id = ⟨"tx"⟩ ∧
        (o.2.endorsements.map (·.peer)).Sublist ["p1", "p2"]) ∧
      h.results = [.answered (.ok [42])] ∧ h.Accepted ∧
      ∃ q, c₀.awaited calling = some q ∧ Confirmation.Confirmed q h.taken := by
  intro c₀ h
  have hproper : Proper [] c₀ ([] ++ .submit calling :: submittedWell) := by decide +kernel
  have horders : h.orders.length = 2 := by decide +kernel
  have hresults : h.results = [.answered (.ok [42])] := by decide +kernel
  have hawaited : (c₀.awaited calling).isSome = true := by decide +kernel
  have hproposals : h.proposals = [(.peers (answering.map (·.1)),
      ⟨⟨"tx"⟩, "channel", "chaincode", "function", [], [], [], []⟩)] := by decide +kernel
  have hanswers : h.answers = [(0, .ok (Answer.collect (.ofMillis 30000) answering))] := by
    decide +kernel
  have hasked : h.Asked answering := ⟨⟨_, hproposals⟩, ⟨_, _, hanswers⟩⟩
  obtain ⟨q, hq⟩ := Option.isSome_iff_exists.1 hawaited
  obtain ⟨hsent, -, hended, -⟩ :=
    submission_follows_phases twoByTwo ⟨"org", []⟩ .default [] calling submittedWell hproper
  rcases hended with hnone | ⟨r, hr, hok, -⟩
  · exact absurd (hnone.symm.trans hresults) (by simp)
  · have hend : r = .ok [42] := by
      have heq : [CallResult.answered r] = [.answered (.ok [42])] := hr.symm.trans hresults
      simpa using heq
    obtain ⟨haccepted, -, hconfirmed⟩ := (hok [42]).1 hend
    refine ⟨hproper, horders, fun o ho => ?_, hresults, haccepted, q, hq, hconfirmed q hq⟩
    obtain ⟨hid, -, -, hpeers⟩ := hsent o ho
    exact ⟨hid, hpeers answering hasked⟩

/-- Both peers report the transaction, the first of them 128 times before the second does. -/
def crowded : List Move :=
  (List.replicate 128 [.blockArrived 0 blockOfTx, .takeNext 0]).flatten ++
    [.blockArrived 1 blockOfTx, .takeNext 1]

/-- The reports come while the transaction is ordered, and the deadline passes before it is
accepted. -/
def acceptedLate : List Move :=
  [.endorsed 0 (.ok (Answer.collect (.ofMillis 30000) answering)), .requestStream 0,
    .requestStream 1, .streamOpened 0, .streamOpened 1, .resume 0 128] ++ crowded ++
    [.tick 400000, .ordered 0 (.ok ⟨OrderReply.accepted, ""⟩), .resume 0 128]

/-- The quorum confirms on the outcomes that are queued when the wait begins, but the first look has
no room for the last of them, and finds the deadline passed. -/
theorem timed_out_with_reports_queued :
    let c₀ := new twoByTwo ⟨"org", []⟩ .default
    let h := log c₀.nextCall c₀ (.submit calling :: acceptedLate)
    let q : Quorum := ⟨.all, twoByTwo.peers⟩
    Proper [] c₀ (.submit calling :: acceptedLate) ∧ c₀.awaited calling = some q ∧ h.Accepted ∧
      Confirmation.Confirmed q h.reports ∧ h.reports.length = 129 ∧ h.taken.length = 128 ∧
      h.results =
        [.answered (.error (.confirmationTimedOut ⟨"tx"⟩ (.ofMillis 300000) ["p2"]))] := by
  intro c₀ h q
  have hreplies : h.replies = [.ok ⟨OrderReply.accepted, ""⟩] := by decide +kernel
  have hall : Confirmation.takeAll ⟨"tx"⟩ q (.new q.peers.length) h.reports = .ended (.ok ()) := by
    decide +kernel
  refine ⟨by decide +kernel, by decide +kernel, ⟨_, by rw [hreplies]; rfl, rfl⟩,
    (Confirmation.takeAll_eq_ok_iff (by simp [q, twoByTwo])).1 hall, ?_, ?_, ?_⟩ <;> decide +kernel

end Client

end LedgerClient
