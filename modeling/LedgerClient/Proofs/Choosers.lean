import LedgerClient.Proofs.Cancellation
import LedgerClient.Proofs.Desks
import LedgerClient.Proofs.Onward

/-!
# The queries of a client

All the queries of a client share its chooser: what becomes of the chooser and of the queries that
are under way, in any run of a client, is a run of a desk (`Client.desk_run`). So where the queries
of a client begin is up to its strategy alone (`Client.choices_by_strategy`).
-/

namespace LedgerClient

namespace Client

/-- The query of a call, if it is one. -/
def inquiry? (c : Client) (i : Nat) : Option Inquiry :=
  match c.call? i with
  | some (.inquiring _ q) => some q
  | _ => none

/-- The chooser of a client and its queries under way. -/
def desk (c : Client) : Desk := ⟨c.chooser, c.inquiry?⟩

/-- What happens at the desk of a client in a move. -/
def deskEvents (c : Client) : Move → List Desk.Event
  | .evaluate inv =>
    match c.proposalOf inv with
    | .ok _ => [.begins c.nextCall (inv.peers.getD c.queryPeers)]
    | .error _ => []
  | .inquired i r => [.hears i r]
  | .abandon i => [.leaves i]
  | _ => []

variable {i : Nat} {b c c' : Client} {m : Move}

/-! ## The chooser -/

theorem serve_eq (b : Client) (j : Nat) : ∃ sessions waits agenda outbox,
    b.serve j = { b with sessions, waits, agenda, outbox } := by
  unfold serve
  split
  · exact ⟨_, _, _, _, rfl⟩
  · next n o _ =>
    obtain ⟨waits, agenda, heq⟩ := b.post_eq n o
    rw [heq]
    exact ⟨_, _, _, _, rfl⟩
  · exact ⟨_, _, _, _, rfl⟩

/-- Only calls heed the chooser. -/
theorem chooser_of_idle (hm : m.call? = none) (hnew : m.isCall = false) :
    (c.apply m).chooser = c.chooser := by
  cases hfeed : m.feed? with
  | some k =>
    obtain ⟨_, _, _, _, heq⟩ := feed_move_eq (c := c) hfeed
    rw [heq]
  | none =>
    cases hsession : m.session? with
    | some j =>
      rcases session_move_eq (c := c) hsession with ⟨heq, -⟩ | ⟨s, -, -, heq⟩
      · rw [heq]
      · obtain ⟨_, _, _, _, hserve⟩ := (c.modifySession j (·.after m)).serve_eq j
        rw [heq, hserve]
        rfl
    | none =>
      cases m with
      | remove key =>
        obtain ⟨_, _, _, heq⟩ := c.unregister_eq key
        rw [apply, heq]
      | close =>
        obtain ⟨_, _, _, heq⟩ := c.close_eq
        rw [apply, heq]
      | letGo =>
        obtain ⟨_, _, _, heq⟩ := tearDownIfUnused_eq { c with held := false }
        rw [apply, letGo, heq]
      | newWait | tick => rfl
      | cancelWait w =>
        obtain ⟨_, _, _, _, _, heq⟩ := c.dropWait_eq w
        exact congrArg (·.chooser) heq
      | letGoOfWait w =>
        obtain ⟨_, _, _, _, _, hdrop⟩ := c.dropWait_eq w
        obtain ⟨_, _, _, heq⟩ := (c.dropWait w).tearDownIfUnused_eq
        rw [apply, letGoOfWait, heq, hdrop]
      | submit | evaluate | addListener | addCommitListener | listen | awaitConfirmation =>
        cases hnew
      | abandon | checkpointRead | endorsed | ordered | inquired | resume => cases hm
      | requestStream | streamOpened | streamRefused | blockArrived | streamBroke | streamEnded =>
        cases hfeed
      | takeNext | answer => cases hsession

theorem chooser_abandon (c : Client) (i : Nat) : (c.abandon i).chooser = c.chooser := by
  cases hcall : c.call? i with
  | none => exact congrArg Client.chooser (apply_eq_of_gone (m := .abandon i) rfl hcall)
  | some call =>
    cases hwait : call.wait? with
    | none =>
      obtain ⟨_, _, _, heq⟩ := tearDownIfUnused_eq { c with calls := c.calls.filter (·.1 ≠ i) }
      rw [abandon_eq hcall hwait, heq]
    | some w =>
      obtain ⟨_, _, _, _, _, hdrop⟩ := c.dropWait_eq w
      obtain ⟨_, _, _, heq⟩ := tearDownIfUnused_eq
        { c.dropWait w with calls := (c.dropWait w).calls.filter (·.1 ≠ i) }
      rw [abandon_eq_of_wait hcall hwait, heq, hdrop]

/-! ## The desk -/

theorem inquiry?_of_inquiring {p : Proposal} {q : Inquiry}
    (h : c.call? i = some (.inquiring p q)) : c.inquiry? i = some q := by
  rw [inquiry?, h]

theorem inquiry?_of_gone (h : c.call? i = none) : c.inquiry? i = none := by
  rw [inquiry?, h]

theorem inquiry?_eq_none (h : ∀ call, c.call? i = some call → ∀ p q, call ≠ .inquiring p q) :
    c.inquiry? i = none := by
  unfold inquiry?
  split
  · next p q hcall => exact absurd rfl (h _ hcall p q)
  · rfl

/-- A desk is affected by what a move does to the chooser and to the call that acts in it. -/
theorem desk_eq_update {chooser : Chooser} {q : Option Inquiry} (hsame : c'.chooser = chooser)
    (hothers : ∀ k, k ≠ i → c'.call? k = c.call? k) (hq : c'.inquiry? i = q) :
    c'.desk = ⟨chooser, Function.update c.inquiry? i q⟩ := by
  have hway : c'.inquiry? = Function.update c.inquiry? i q := by
    funext k
    by_cases hk : k = i
    · rw [hk, Function.update_self, hq]
    · rw [Function.update_of_ne hk, inquiry?, inquiry?, hothers k hk]
  rw [desk, hsame, hway]

theorem desk_of_eq (hchooser : c'.chooser = c.chooser) (hcalls : c'.calls = c.calls) :
    c'.desk = c.desk := by
  have hway : c'.inquiry? = c.inquiry? := by
    funext k
    rw [inquiry?, inquiry?, call?_of_calls_eq hcalls]
  rw [desk, hchooser, hway]
  rfl

theorem Onward.desk
    (h : Onward c.chooser (fun call => ∀ p q, call ≠ .inquiring p q) i c')
    (hothers : ∀ k, k ≠ i → c'.call? k = c.call? k) (hq : c.inquiry? i = none) :
    c'.desk = c.desk := by
  rw [desk_eq_update h.same hothers (inquiry?_eq_none h.call), ← hq, Function.update_eq_self]
  rfl

theorem desk_inquire {p : Proposal} {s : Chooser × InquiryStep}
    (hothers : ∀ k, k ≠ i → (b.inquire i p s).call? k = c.call? k) :
    (b.inquire i p s).desk = c.desk.note i s := by
  rcases s with ⟨chooser, q | r⟩
  · have hthere : (b.inquire i p (chooser, .ask q)).call? i = some (.inquiring p q) :=
      { b with chooser }.call?_setCall_self _
    exact desk_eq_update rfl hothers (inquiry?_of_inquiring hthere)
  · have hover : Onward chooser (fun call => ∀ p q, call ≠ .inquiring p q) i
        (b.inquire i p (chooser, .done r)) := onward_finish (b := { b with chooser }) rfl _
    exact desk_eq_update hover.same hothers (inquiry?_eq_none hover.call)

theorem ne_inquiring_of_linked {call : Call} (h : call.isLinked = true) (p : Proposal)
    (q : Inquiry) : call ≠ .inquiring p q := by
  rintro rfl
  cases h

theorem onward_new (hc : c.Named) (hm : m.isCall = true) (hnot : ∀ inv, m ≠ .evaluate inv) :
    Onward c.chooser (fun call => ∀ p q, call ≠ .inquiring p q) c.nextCall (c.apply m) := by
  have hP (call : Call) : call.isLinked = true → ∀ p q, call ≠ .inquiring p q :=
    ne_inquiring_of_linked
  have hfresh : Onward c.chooser (fun call => ∀ p q, call ≠ .inquiring p q) c.nextCall
      c.newCall.1 := .of_gone rfl hc.fresh
  cases m with
  | evaluate inv => exact absurd rfl (hnot inv)
  | submit inv =>
    unfold apply submit
    dsimp only
    split
    · exact onward_finish hfresh.same _
    · split
      · exact onward_finish hfresh.same _
      · exact (onward_set hfresh.same fun _ _ => by simp).send _
  | addListener s o =>
    unfold apply addListener
    dsimp only
    split
    · exact onward_finish hfresh.same _
    · split
      · refine (onward_set ?_ fun _ _ => by simp).send _
        exact hfresh.same
      · refine onward_attachListener hP ?_ _ _ _
        exact hfresh.same
  | addCommitListener l peers id => exact onward_linkCommit hP hfresh.same l peers id .added
  | listen w =>
    by_cases hw : w < c.newCall.1.waits.length
    · exact onward_openMailbox hP hfresh.same hw .listening
    · have hnone : c.newCall.1.wait? w = none := List.getElem?_eq_none (Nat.le_of_not_lt hw)
      unfold apply listen openMailbox
      dsimp only
      rw [hnone]
      exact hfresh
  | awaitConfirmation w => exact hfresh.confirm hP w none
  | _ => cases hm

theorem deskEvents_eq_nil (hm : m.call? = none) (hnot : ∀ inv, m ≠ .evaluate inv) :
    c.deskEvents m = [] := by
  cases m with
  | evaluate inv => exact absurd rfl (hnot inv)
  | inquired | abandon => cases hm
  | _ => rfl

theorem desk_evaluate {inv : Invocation}
    (hothers : ∀ k, k ≠ c.nextCall → (c.evaluate inv).call? k = c.call? k)
    (hfresh : c.inquiry? c.nextCall = none) :
    (c.evaluate inv).desk = c.desk.run (c.deskEvents (.evaluate inv)) := by
  cases hbuilt : c.proposalOf inv with
  | error e =>
    have hbuilt' : c.newCall.1.proposalOf inv = .error e := hbuilt
    have heq : c.evaluate inv = c.newCall.1.finish c.nextCall (.answered (.error e)) := by
      simp only [evaluate, hbuilt']
      rfl
    rw [heq] at hothers ⊢
    simp only [deskEvents, hbuilt]
    exact (onward_finish rfl _).desk hothers hfresh
  | ok p =>
    rw [evaluate_eq hbuilt] at hothers ⊢
    simp only [deskEvents, hbuilt]
    exact desk_inquire (b := c.newCall.1) hothers

theorem desk_call (hc : c.Sane) (hm : m.call? = some i) :
    (c.apply m).desk = c.desk.run (c.deskEvents m) := by
  have hothers (k : Nat) (hk : k ≠ i) : (c.apply m).call? k = c.call? k :=
    call?_apply hc.tidy (actor_of_call hm ▸ Ne.symm hk)
  obtain ⟨hsame, hfits⟩ | ⟨rfl, call, hcall⟩ | ⟨call, b, hcall, hb, hgoes⟩ := c.call_cases hm
  · -- A query under way takes a result and may be given up, so the call is none.
    have hnone (hfit : ∀ p q, (Call.inquiring p q).fits m = true) : c.inquiry? i = none :=
      inquiry?_eq_none fun call hcall p q hq =>
        absurd (hq ▸ hfit p q) (by simp [hfits call hcall])
    rw [hsame]
    cases m <;> simp only [Move.call?, reduceCtorEq, Option.some.injEq] at hm <;> subst hm
    case abandon i => exact (Desk.apply_leaves (hnone fun _ _ => rfl)).symm
    case inquired i r => exact (Desk.apply_hears (hnone fun _ _ => rfl) r).symm
    all_goals rfl
  · have hover := (abandon_over (hc.named i call hcall)).1
    exact desk_eq_update (c.chooser_abandon i) hothers (inquiry?_of_gone hover.gone)
  · rw [hb] at hothers ⊢
    have honward (hquery : ∀ p q, call ≠ .inquiring p q) : b.desk = c.desk :=
      (hgoes.onward (fun _ => ne_inquiring_of_linked) hcall hquery).desk hothers
        (inquiry?_eq_none fun call' hcall' => Option.some.inj (hcall.symm.trans hcall') ▸ hquery)
    cases hgoes with
    | inquired p q r =>
      have hthere : c.desk.underWay i = some q := inquiry?_of_inquiring hcall
      rw [desk_inquire hothers, deskEvents, Desk.run_cons, Desk.apply, hthere]
      rfl
    | _ => exact honward fun _ _ => by simp

theorem desk_fresh (hc : c.Sane) (hm : m.call? = none) :
    (c.apply m).desk = c.desk.run (c.deskEvents m) := by
  cases hnew : m.isCall with
  | false =>
    have hnot (inv : Invocation) : m ≠ .evaluate inv := by
      rintro rfl
      cases hnew
    rw [deskEvents_eq_nil hm hnot]
    exact desk_of_eq (chooser_of_idle hm hnew) (calls_eq_of_idle hc.tidy hm hnew)
  | true =>
    have hothers (k : Nat) (hk : k ≠ c.nextCall) : (c.apply m).call? k = c.call? k :=
      call?_apply hc.tidy (actor_of_fresh hm ▸ Ne.symm hk)
    have hfresh : c.inquiry? c.nextCall = none := inquiry?_of_gone hc.named.fresh
    by_cases hevaluate : ∃ inv, m = .evaluate inv
    · obtain ⟨inv, rfl⟩ := hevaluate
      exact desk_evaluate hothers hfresh
    · have hnot (inv : Invocation) : m ≠ .evaluate inv := fun h => hevaluate ⟨inv, h⟩
      rw [deskEvents_eq_nil hm hnot]
      exact (onward_new hc.named hnew hnot).desk hothers hfresh

/-- In a move of a client its desk takes what happens at it. -/
theorem desk_apply (hc : c.Sane) (m : Move) : (c.apply m).desk = c.desk.run (c.deskEvents m) := by
  cases hm : m.call? with
  | some i => exact desk_call hc hm
  | none => exact desk_fresh hc hm

theorem desk_run (hc : c.Sane) (ms : List Move) :
    (c.run ms).desk = c.desk.run (gather deskEvents c ms) := by
  induction ms generalizing c with
  | nil => rfl
  | cons m ms ih =>
    rw [gather, Desk.run_append, ← desk_apply hc m]
    exact ih (hc.apply m)

/-- Where queries begin.

Queries on one chooser may overlap in any way, each on peers of its own, and whatever comes of them.
In rotation the `k`-th query with peers to ask begins at position `k` modulo their number, as long
as the sixty-four bit counter has not come round, so that successive queries on one list, as many as
it is long, begin once at each of its positions. With the peer that answered last, a query begins
with the first one of the name of the peer that answered last before it began, whatever that peer
said and whomever it answered, and with the first of all if there is none in the list; a query that
nobody answers changes nothing for the others.

All the queries of a client, in any run, are queries on one chooser in this sense. -/
theorem choices_by_strategy :
    (∀ (es : List Desk.Event) (k : Nat) (x : Desk.Choice),
      (Desk.gather Desk.choices (.new .roundRobin) es)[k]? = some x → k < UInt64.size →
        x.position = k % x.peers.length) ∧
    (∀ (es : List Desk.Event) (j : Nat) (peers : List Peer),
      let window := ((Desk.gather Desk.choices (.new .roundRobin) es).drop j).take peers.length
      j + peers.length ≤ UInt64.size → window.length = peers.length →
      (∀ x ∈ window, x.peers = peers) →
        (window.map (·.position)).Perm (List.range peers.length)) ∧
    (∀ (es : List Desk.Event) (call : Nat) (peers : List Peer), peers ≠ [] →
      ∃ k, ((Desk.new .sticky).run es).choices (.begins call peers) = [⟨call, peers, k⟩] ∧
        Desk.Resumes (Desk.gather Desk.answerers (.new .sticky) es).getLast? peers k) ∧
    (∀ (es : List Desk.Event) (call : Nat), (∀ r, .hears call r ∈ es → ∃ e, r = .error e) →
      (Desk.gather Desk.choices (.new .sticky) es).filter (·.call ≠ call) =
        Desk.gather Desk.choices (.new .sticky) (es.filter (·.call ≠ call))) ∧
    (∀ (strategy : QueryStrategy) (es : List Desk.Event) (call : Nat) (peers : List Peer),
      let d := (Desk.new strategy).run es
      peers ≠ [] → ∃ k q, d.choices (.begins call peers) = [⟨call, peers, k⟩] ∧
        (d.apply (.begins call peers)).underWay call = some q ∧ peers[k]? = some q.asked) ∧
    ∀ (channel : Channel) (identity : Identity) (options : Options) (ms : List Move),
      ((new channel identity options).run ms).desk = (Desk.new options.queryStrategy).run
        (gather deskEvents (new channel identity options) ms) := by
  refine ⟨fun es k x hk hlt => ?_, ?_, fun es call peers hpeers => ?_, fun es call hfails => ?_, ?_,
    fun channel identity options ms => ?_⟩
  · have hstarted : (Desk.new .roundRobin).chooser.started + k = k := Nat.zero_add k
    rw [← hstarted] at hlt ⊢
    exact Desk.position_of_roundRobin rfl hk hlt
  · intro es j peers window hlt hlength hsame
    refine Desk.window_of_roundRobin rfl ?_ hlength hsame
    change 0 + j + peers.length ≤ UInt64.size
    omega
  · exact ⟨_, Desk.choices_begins hpeers _ call, Desk.resumes_of_sticky es peers⟩
  · exact (Desk.choices_without ⟨rfl, fun _ _ => rfl⟩ rfl hfails).1
  · intro strategy es call peers d hpeers
    obtain ⟨q, hq, hfirst⟩ := Desk.asked_first hpeers d call
    exact ⟨_, q, Desk.choices_begins hpeers d call, hq, hfirst⟩
  · exact desk_run (sane_run channel identity options []) ms

/-- Two queries overlap; the second peer answers one of them. -/
def overlapping : List Desk.Event :=
  [.begins 0 twoByTwo.peers, .begins 1 twoByTwo.peers, .hears 0 (.error (.unreachable "p1" "")),
    .hears 0 (.ok ⟨some 500, "refused", [], []⟩)]

/-- In rotation they begin with one peer each; else the next query begins with the second peer. -/
theorem next_begins_with_second_peer :
    ((Desk.gather Desk.choices (.new .roundRobin) overlapping).map (·.position)).Perm
      (List.range 2) ∧
    ((Desk.new .sticky).run overlapping).choices (.begins 2 twoByTwo.peers) =
      [⟨2, twoByTwo.peers, 1⟩] ∧
    Desk.Resumes (some ⟨"p2", "org", "", .all⟩) twoByTwo.peers 1 := by
  obtain ⟨-, hwindow, hsticky, -⟩ := choices_by_strategy
  refine ⟨hwindow overlapping 0 twoByTwo.peers (by decide) (by decide) (by decide), ?_⟩
  obtain ⟨k, hk, hresumes⟩ := hsticky overlapping 2 twoByTwo.peers (by decide)
  have hone : ((Desk.new .sticky).run overlapping).choices (.begins 2 twoByTwo.peers) =
      [⟨2, twoByTwo.peers, 1⟩] := by decide +kernel
  obtain rfl : k = 1 := by simpa using hk.symm.trans hone
  exact ⟨hone, hresumes⟩

end Client

end LedgerClient
