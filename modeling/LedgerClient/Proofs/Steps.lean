import LedgerClient.Proofs.Confirmations
import LedgerClient.Proofs.Phases

/-!
# From phase to phase

A move of a submitted transaction leads to its next phase or ends it (`Client.Stage.own`), so after
every run it stands in one of the phases (`Client.Stage.submitted`), and its mailbox is registered
when it is sent for ordering for the first time (`Client.Stage.first`).
-/

namespace LedgerClient

/-- How a call ends with its wait for confirmation: a transaction that is confirmed is answered with
its payload. -/
def CallResult.closing (payload : Option Bytes) (r : Except TransactionFailure Unit) : CallResult :=
  match payload with
  | some bytes => .answered (r.map fun _ => bytes)
  | none => .confirmed r

namespace Client

section Steps

variable {c₀ c : Client} {inv : Invocation} {i : Nat} {mine : List Nat} {h d : Log} {m : Move}

/-! ## Moves of the call -/

theorem complete_eq (c : Client) (key : ListenerKey) (as : List Attachment) :
    ∃ table sessions registrations agenda,
      c.complete key as = { c with table, sessions, registrations, agenda } := by
  unfold complete
  split
  · obtain ⟨table, sessions, agenda, heq⟩ := c.releaseAll_eq as
    exact ⟨table, sessions, c.registrations, agenda, heq⟩
  · exact ⟨c.table, c.sessions, _, c.agenda, rfl⟩

/-- A call that goes on to order asks the first orderer, or there is nobody to ask. -/
theorem proceed_order_eq (b : Client) (i : Nat) (r : OrderRequest) (payload : Bytes) (w : Nat) :
    let first := OrderRoute.start b.channel b.options.discoveryEnabled r.proposal.id
    (∃ route, first = .ask route ∧ b.proceed i (.order r payload w) =
      (b.setCall i (.ordering r payload w route)).send (.order i route r)) ∨
    first = .done (.error (.noOrderers r.proposal.id)) ∧ b.proceed i (.order r payload w) =
      (b.dropWait w).finish i (.answered (.error (.noOrderers r.proposal.id))) := by
  intro first
  have hproceed : b.proceed i (.order r payload w) = b.orderStep i r payload w first := rfl
  have hfirst : (∃ route, first = .ask route) ∨
      first = .done (.error (.noOrderers r.proposal.id)) := by
    change (∃ route, OrderRoute.start .. = _) ∨ OrderRoute.start .. = _
    unfold OrderRoute.start
    split_ifs
    · exact Or.inl ⟨_, rfl⟩
    · split
      · exact Or.inr rfl
      · exact Or.inl ⟨_, rfl⟩
  rw [hproceed]
  rcases hfirst with ⟨route, heq⟩ | heq <;> rw [heq]
  · exact Or.inl ⟨route, rfl, rfl⟩
  · exact Or.inr ⟨rfl, rfl⟩

theorem proceed_order_cases (b : Client) (i : Nat) (r : OrderRequest) (payload : Bytes) (w : Nat) :
    (∃ route, b.proceed i (.order r payload w) =
      (b.setCall i (.ordering r payload w route)).send (.order i route r)) ∨
    ∃ e, b.proceed i (.order r payload w) = (b.dropWait w).finish i (.answered (.error e)) := by
  rcases b.proceed_order_eq i r payload w with ⟨route, -, heq⟩ | ⟨-, heq⟩
  · exact Or.inl ⟨route, heq⟩
  · exact Or.inr ⟨_, heq⟩

/-- The log of a move in which the call sends one request for ordering. -/
theorem log_of_order {route : OrderRoute} {r : OrderRequest}
    (hout : (c.apply m).outbox = c.outbox ++ [.order i route r]) :
    (Log.of i c m).proposals = [] ∧ (Log.of i c m).orders = [(route, r)] ∧
      (Log.of i c m).results = [] := by
  simp only [Log.of, sent_eq hout]
  simp [Request.proposal?, Request.order?, Request.result?]

/-- The log of a move in which the call ends. -/
theorem log_of_finished {result : CallResult}
    (hout : (c.apply m).outbox = c.outbox ++ [.finished i result]) :
    (Log.of i c m).proposals = [] ∧ (Log.of i c m).orders = [] ∧
      (Log.of i c m).results = [result] := by
  simp only [Log.of, sent_eq hout]
  simp [Request.proposal?, Request.order?, Request.result?]

/-- The log of a move in which the call sends nothing, or asks to be woken. -/
theorem log_of_waiting {rs : List Request} (hout : (c.apply m).outbox = c.outbox ++ rs)
    (hrs : ∀ r ∈ rs, ∃ time, r = .wakeAt i time) :
    (Log.of i c m).proposals = [] ∧ (Log.of i c m).orders = [] ∧
      (Log.of i c m).results = [] := by
  simp only [Log.of, sent_eq hout, List.filterMap_eq_nil_iff]
  refine ⟨fun r hr => ?_, fun r hr => ?_, fun r hr => ?_⟩ <;> obtain ⟨time, rfl⟩ := hrs r hr <;> rfl

theorem Stage.of_finished {b : Client} {result : CallResult}
    (hb : c.apply m = b.finish i result) (hout : b.outbox = c.outbox)
    (horders : (Log.of i c m).proposals = [] →
      ∀ o ∈ h.orders, ∃ time payload, Endorsed c₀ inv (h ++ .of i c m) time o.2 payload)
    (hresults : h.results = [])
    (hended : (Log.of i c m).proposals = [] → Outcome c₀ inv (h ++ .of i c m) result) :
    Stage c₀ inv i mine (c.apply m) (h ++ .of i c m) ∧ (Log.of i c m).orders = [] := by
  obtain ⟨hsent, hgone, -⟩ := b.finish_cases i result
  rw [← hb, hout] at hsent
  obtain ⟨hunsent, hno, hone⟩ := log_of_finished hsent
  refine ⟨.ended (hb ▸ hgone) (fun o ho => ?_) (Or.inr ⟨result, ?_, hended hunsent⟩), hno⟩
  · rw [Log.orders_append, hno, List.append_nil] at ho
    exact horders hunsent o ho
  · rw [Log.results_append, hresults, hone, List.nil_append]

/-- What a move of a submission leads to: the next phase, and when the transaction is sent for
ordering for the first time, the registration of its mailbox has returned. -/
structure Next (c₀ : Client) (inv : Invocation) (i : Nat) (mine : List Nat) (c : Client) (h : Log)
    (m : Move) : Prop where
  stage : Stage c₀ inv i mine (c.apply m) (h ++ .of i c m)
  first : h.orders = [] → (Log.of i c m).orders ≠ [] → ∀ q, c₀.awaited inv = some q →
    ∃ n next, Registers i n q.peers inv.id.text next c (c.apply m)

theorem Stage.proceed {b : Client} {r : OrderRequest} {payload : Bytes} {w time n : Nat}
    (hb : c.apply m = b.proceed i (.order r payload w)) (hout : b.outbox = c.outbox)
    (hendorsed : (Log.of i c m).proposals = [] →
      Endorsed c₀ inv (h ++ .of i c m) time r payload)
    (hown : (c.apply m).Own i w mine)
    (hwait : b.waits[w]? = some (waitFor inv c₀.options.commitTimeout (c₀.awaited inv) time n
      (h ++ .of i c m).reports))
    (horders : h.orders = []) (hreplies : (h ++ .of i c m).replies = [])
    (hlooks : (h ++ .of i c m).looks = []) (hresults : h.results = []) :
    Stage c₀ inv i mine (c.apply m) (h ++ .of i c m) := by
  rcases b.proceed_order_cases i r payload w with ⟨route, heq⟩ | ⟨e, heq⟩
  · rw [heq] at hb
    have hsent : (c.apply m).outbox = c.outbox ++ [.order i route r] := by
      rw [hb, ← hout]
      rfl
    obtain ⟨hunsent, hone, hno⟩ := log_of_order hsent
    have hall : (h ++ Log.of i c m).orders = [(route, r)] := by
      rw [Log.orders_append, horders, hone, List.nil_append]
    have hcall : (c.apply m).call? i = some (.ordering r payload w route) := by
      rw [hb]
      exact b.call?_setCall_self _
    have hwaits : (c.apply m).waits[w]? = some (waitFor inv c₀.options.commitTimeout
        (c₀.awaited inv) time n (h ++ Log.of i c m).reports) := by
      rw [hb]
      exact hwait
    refine .ordering ⟨hcall, hendorsed hunsent, hown, hwaits, by simp [hall], by simp [hall],
      by simp [hreplies], hlooks, ?_⟩
    rw [Log.results_append, hresults, hno, List.nil_append]
  · rw [heq] at hb
    refine (Stage.of_finished hb ((b.dropWait_same w).2.2.trans hout) (by simp [horders]) hresults
      fun _ => .failed e fun reply hreply => ?_).1
    rw [hreplies] at hreply
    cases hreply

/-- The call waits on for the first attempts at the peers, or its registration returns. -/
theorem Next.follow {b : Client} {r : OrderRequest} {payload : Bytes} {w time n : Nat} {q : Quorum}
    {links : List Link}
    (hb : c.apply m = b.followLinks i (.commit (.mailbox n)) links (.order r payload w))
    (hout : b.outbox = c.outbox)
    (hendorsed : (Log.of i c m).proposals = [] →
      Endorsed c₀ inv (h ++ .of i c m) time r payload)
    (hawaited : c₀.awaited inv = some q) (hown : (c.apply m).Own i w mine)
    (hwait : b.waits[w]? = some (waitFor inv c₀.options.commitTimeout (some q) time n
      (h ++ .of i c m).reports))
    (hlinked : b.audiences links = (mailboxAudiences n inv.id.text q.peers).map some)
    (horders : h.orders = []) (hreplies : (h ++ .of i c m).replies = [])
    (hlooks : (h ++ .of i c m).looks = []) (hresults : h.results = []) :
    Next c₀ inv i mine c h m := by
  by_cases hall : (b.progress links).all (·.attempted) = true
  · let b' := b.complete (.commit (.mailbox n)) ((b.progress links).map (·.attachment))
    have hb' : c.apply m = b'.proceed i (.order r payload w) := hb.trans (if_pos hall)
    have hwaits : b'.waits = b.waits := by
      obtain ⟨table, sessions, registrations, agenda, heq⟩ :=
        b.complete_eq (.commit (.mailbox n)) ((b.progress links).map (·.attachment))
      change (b.complete _ _).waits = _
      rw [heq]
    rw [← hwaits, ← hawaited] at hwait
    refine ⟨.proceed hb' ((b.complete_outbox ..).1.trans hout) hendorsed hown hwait horders hreplies
      hlooks hresults, fun _ _ q' hq' => ?_⟩
    · obtain rfl : q = q' := Option.some.inj (hawaited.symm.trans hq')
      exact ⟨n, _, b, b.progress links, hout, List.all_eq_true.1 hall,
        (audiences_progress b links).trans hlinked, hb'⟩
  · have hb' : c.apply m =
        b.setCall i (.linking (.commit (.mailbox n)) (b.progress links) (.order r payload w)) :=
      hb.trans (if_neg hall)
    have hsent : (c.apply m).outbox = c.outbox ++ [] := by
      rw [hb', List.append_nil]
      exact hout
    obtain ⟨hunsent, hno, hno'⟩ := log_of_waiting (i := i) hsent (by simp)
    have hcall : (c.apply m).call? i =
        some (.linking (.commit (.mailbox n)) (b.progress links) (.order r payload w)) := by
      rw [hb']
      exact b.call?_setCall_self _
    refine ⟨.linking hcall (hendorsed hunsent) hawaited hown ?_ ?_ ?_ hreplies hlooks ?_,
      fun _ hne => absurd hno hne⟩
    · rw [hb']
      exact hwait
    · rw [hb']
      exact (audiences_progress b links).trans hlinked
    · rw [Log.orders_append, horders, hno, List.append_nil]
    · rw [Log.results_append, hresults, hno', List.append_nil]

theorem lookAt_eq {w room n deadline : Nat} {wait : Wait} {q : Quorum} {t : Tally}
    {os : List CommitOutcome} (payload : Option Bytes) (hw : c.waits[w]? = some wait)
    (hdeadline : wait.deadline = some deadline) (hmailbox : wait.mailbox = some (n, os)) :
    let b := c.modifyWait w (·.drop room)
    c.lookAt i w room q t payload =
      match Confirmation.look wait.id q wait.limit t (os.take room)
        (decide (deadline ≤ c.clock)) with
      | .waiting t => b.setCall i (.confirming w q t payload)
      | .ended result => (b.dropWait w).finish i (.closing payload result) := by
  unfold lookAt wait? Wait.queued
  rw [hw]
  simp only [hdeadline, hmailbox, Option.map_some, Option.getD_some]
  cases payload <;> rfl

/-- A look at a mailbox: the call waits on before the deadline, or the look has ended the wait. -/
theorem lookAt_split {w n deadline : Nat} {wait : Wait} {q : Quorum} {t : Tally}
    {os : List CommitOutcome} (room : Nat) (payload : Option Bytes) (hw : c.waits[w]? = some wait)
    (hdeadline : wait.deadline = some deadline) (hmailbox : wait.mailbox = some (n, os)) :
    let b := c.modifyWait w (·.drop room)
    (∃ t', Confirmation.takeAll wait.id q t (os.take room) = .waiting t' ∧ c.clock < deadline ∧
      c.lookAt i w room q t payload = b.setCall i (.confirming w q t' payload)) ∨
    ∃ result, Confirmation.look wait.id q wait.limit t (os.take room)
        (decide (deadline ≤ c.clock)) = .ended result ∧
      c.lookAt i w room q t payload = (b.dropWait w).finish i (.closing payload result) := by
  intro b
  rw [lookAt_eq payload hw hdeadline hmailbox]
  cases hlook : Confirmation.look wait.id q wait.limit t (os.take room)
      (decide (deadline ≤ c.clock)) with
  | ended result => exact Or.inr ⟨result, rfl, rfl⟩
  | waiting t' =>
    rw [Confirmation.look_eq] at hlook
    cases htake : Confirmation.takeAll wait.id q t (os.take room) with
    | ended r =>
      rw [htake] at hlook
      cases hlook
    | waiting t₁ =>
      rw [htake] at hlook
      change Confirmation.meet wait.id q wait.limit _ t₁ = _ at hlook
      unfold Confirmation.meet at hlook
      split_ifs at hlook with hpassed
      obtain rfl : t₁ = t' := by injection hlook
      exact Or.inl ⟨t₁, rfl, by simpa using hpassed, rfl⟩

theorem lookAt_cases {w room time n : Nat} {q : Quorum} {t : Tally} {os : List CommitOutcome}
    {limit : Duration} (payload : Bytes)
    (hwait : c.waits[w]? = some (waitFor inv limit (some q) time n os)) :
    let b := c.modifyWait w (·.drop room)
    (∃ t', Confirmation.takeAll inv.id q t (os.take room) = .waiting t' ∧
      c.clock < time + limit.ceilMillis ∧
      c.lookAt i w room q t (some payload) = b.setCall i (.confirming w q t' (some payload))) ∨
    ∃ result passed, Confirmation.look inv.id q limit t (os.take room) passed = .ended result ∧
      (passed = true → time + limit.ceilMillis ≤ c.clock) ∧
      c.lookAt i w room q t (some payload) =
        (b.dropWait w).finish i (.answered (result.map fun _ => payload)) := by
  intro b
  -- the deadline is held as a number of its own, so that nothing computes with it
  obtain ⟨deadline, hdeadline⟩ : ∃ d, d = time + limit.ceilMillis := ⟨_, rfl⟩
  have hwaits : (waitFor inv limit (some q) time n os).deadline = some deadline := by
    rw [hdeadline]
    rfl
  rw [← hdeadline]
  rcases lookAt_split (i := i) (q := q) (t := t) room (some payload) hwait hwaits rfl with
    hwaiting | ⟨result, hlook, heq⟩
  · exact Or.inl hwaiting
  · exact Or.inr ⟨result, _, hlook, of_decide_eq_true, heq⟩

/-- A call that begins to wait for confirmation asks to be woken at the deadline. -/
theorem confirm_eq {w deadline : Nat} {wait : Wait} {q : Quorum}
    {mailbox : Nat × List CommitOutcome} (payload : Option Bytes) (hw : c.waits[w]? = some wait)
    (hquorum : wait.quorum = some q) (hdeadline : wait.deadline = some deadline)
    (hmailbox : wait.mailbox = some mailbox) :
    c.confirm i w payload =
      (c.setCall i (.confirming w q (.new q.peers.length) payload)).send (.wakeAt i deadline) := by
  unfold confirm wait?
  rw [hw]
  simp only [hquorum, hdeadline, hmailbox, Option.getD_some]

/-- A look that is not the last leaves in the mailbox what it has no room for. -/
theorem Watched.look {c' : Client} {h' : Log} {time n w room : Nat} {q : Quorum} {t t' : Tally}
    {os : List CommitOutcome} (hs : Watched c₀ inv c h time n w q t os)
    (htake : Confirmation.takeAll inv.id q t (os.take room) = .waiting t')
    (hclock : c.clock < time + c₀.options.commitTimeout.ceilMillis)
    (hwait : c'.waits[w]? =
      some (waitFor inv c₀.options.commitTimeout (some q) time n (os.drop room)))
    (hlooks : h'.looks = h.looks ++ [⟨c.clock, os.take room, os.drop room⟩])
    (hreports : h'.reports = h.reports) : Watched c₀ inv c' h' time n w q t' (os.drop room) := by
  have htaken : h'.taken = h.taken ++ os.take room := Log.taken_of_look hlooks
  refine ⟨hwait, ?_, ?_, fun l hl => ?_⟩
  · rw [htaken, Confirmation.takeAll_append, hs.taken]
    simpa [Confirmation.andThen] using htake
  · rw [hreports, htaken, List.append_assoc, List.take_append_drop]
    exact hs.reports
  · rw [hlooks] at hl
    rcases List.mem_append.1 hl with hl | hl
    · exact hs.early l hl
    · exact List.mem_singleton.1 hl ▸ hclock

/-- The last look ends as one look at all that was taken would. -/
theorem Watched.look_eq {time n w : Nat} {q : Quorum} {t : Tally} {os : List CommitOutcome}
    (hs : Watched c₀ inv c h time n w q t os) (limit : Duration) (last : List CommitOutcome)
    (passed : Bool) :
    Confirmation.look inv.id q limit (.new q.peers.length) (h.taken ++ last) passed =
      Confirmation.look inv.id q limit t last passed := by
  rw [Confirmation.look_eq, Confirmation.look_eq, Confirmation.takeAll_append, hs.taken]
  rfl

theorem Stage.look {w room time n : Nat} {r : OrderRequest} {payload : Bytes} {reply : OrderReply}
    {q : Quorum} {t : Tally} {os : List CommitOutcome}
    (hb : c.apply m = c.lookAt i w room q t (some payload))
    (hwatched : Watched c₀ inv c h time n w q t os)
    (hendorsed : (Log.of i c m).proposals = [] →
      Endorsed c₀ inv (h ++ .of i c m) time r payload)
    (hawaited : c₀.awaited inv = some q) (hown : (c.apply m).Own i w mine)
    (hsent : h.orders ≠ []) (horders : ∀ o ∈ h.orders, o.2 = r)
    (hreplied : (h ++ .of i c m).replies.getLast? = some (.ok reply))
    (haccepted : reply.isAccepted = true) (hresults : h.results = []) (hsession : m.session? = none)
    (hlooks : c.looks i m = [⟨c.clock, os.take room, os.drop room⟩]) :
    Stage c₀ inv i mine (c.apply m) (h ++ .of i c m) := by
  have hlooks' : (h ++ Log.of i c m).looks =
      h.looks ++ [⟨c.clock, os.take room, os.drop room⟩] := congrArg (h.looks ++ ·) hlooks
  have hreports' : (h ++ Log.of i c m).reports = h.reports := by
    rw [Log.reports_append, Log.of, reportsTo_of_no_session hsession, List.append_nil]
  rcases lookAt_cases payload hwatched.wait with
    ⟨t', htake, hclock, heq⟩ | ⟨result, passed, hlook, hlate, heq⟩
  · have hb' := hb.trans heq
    have hcall : (c.apply m).call? i = some (.confirming w q t' (some payload)) := by
      rw [hb']
      exact call?_setCall_self ..
    have hwaits : (c.apply m).waits[w]? =
        some (waitFor inv c₀.options.commitTimeout (some q) time n (os.drop room)) := by
      rw [hb']
      change (c.waits.modify w (·.drop room))[w]? = _
      rw [List.getElem?_modify_eq, hwatched.wait]
      rfl
    have hout : (c.apply m).outbox = c.outbox ++ [] := by
      rw [hb', List.append_nil]
      rfl
    obtain ⟨hunsent, hno, hno'⟩ := log_of_waiting (i := i) hout (by simp)
    have horders' : (h ++ Log.of i c m).orders = h.orders := by
      rw [Log.orders_append, hno, List.append_nil]
    refine .confirming hcall (hendorsed hunsent) hawaited hown
      (hwatched.look htake hclock hwaits hlooks' hreports') (horders' ▸ hsent) (horders' ▸ horders)
      hreplied haccepted ?_
    rw [Log.results_append, hresults, hno', List.nil_append]
  · let b := c.modifyWait w (·.drop room)
    have hb' : c.apply m = (b.dropWait w).finish i (.answered (result.map fun _ => payload)) :=
      hb.trans heq
    have htaken : (h ++ Log.of i c m).taken = h.taken ++ os.take room :=
      Log.taken_of_look hlooks'
    have hlooked : Confirmation.look inv.id q c₀.options.commitTimeout (.new q.peers.length)
        (h ++ Log.of i c m).taken passed = .ended result := by
      rw [htaken, hwatched.look_eq, hlook]
    have hmem : ⟨c.clock, os.take room, os.drop room⟩ ∈ (h ++ Log.of i c m).looks := by
      rw [hlooks']
      simp
    have hrest : (h ++ Log.of i c m).reports = (h ++ Log.of i c m).taken ++ os.drop room := by
      rw [hreports', htaken, List.append_assoc, List.take_append_drop, hwatched.reports]
    exact (Stage.of_finished hb' (b.dropWait_same w).2.2
      (fun hunsent o ho => ⟨time, payload, horders o ho ▸ hendorsed hunsent⟩) hresults
      fun hunsent => .confirmed (hendorsed hunsent) hreplied haccepted hawaited hlooked
        (fun hpassed => ⟨_, hmem, hlate hpassed⟩) hrest
        fun hpassed hample => hample _ hmem (hlate hpassed)).1

/-! ## From phase to phase -/

theorem Stage.orders (hs : Stage c₀ inv i mine c h) :
    ∀ o ∈ h.orders, ∃ time payload, Endorsed c₀ inv h time o.2 payload := by
  intro o ho
  cases hs with
  | endorsing _ _ _ log =>
    rw [log] at ho
    cases ho
  | linking _ _ _ _ _ _ orders =>
    rw [orders] at ho
    cases ho
  | ordering sent => exact ⟨_, _, sent.orders o ho ▸ sent.endorsed⟩
  | confirming _ endorsed _ _ _ _ orders => exact ⟨_, _, orders o ho ▸ endorsed⟩
  | ended _ orders => exact orders o ho

theorem Stage.results (hs : Stage c₀ inv i mine c h) (hcall : c.call? i ≠ none) :
    h.results = [] := by
  cases hs with
  | endorsing _ _ _ log => rw [log]
  | linking _ _ _ _ _ _ _ _ _ results => exact results
  | ordering sent => exact sent.results
  | confirming _ _ _ _ _ _ _ _ _ results => exact results
  | ended call => exact absurd call hcall

theorem Stage.next_of_same (hs : Stage c₀ inv i mine c h) (happly : c.apply m = c)
    (hlog : Log.of i c m = .empty) : Next c₀ inv i mine c h m := by
  refine ⟨?_, fun _ hne => absurd (congrArg Log.orders hlog) hne⟩
  rw [happly, hlog, Log.append_empty]
  exact hs

theorem log_of_abandon (hi : i < c.nextCall) : Log.of i c (.abandon i) = .empty := by
  have hsent : (c.apply (.abandon i)).outbox = c.outbox ++ [] := by
    rw [List.append_nil]
    exact (abandon_over hi).2
  obtain ⟨hproposals, horders, hresults⟩ := log_of_waiting (i := i) hsent (by simp)
  simp only [Log.of] at hproposals horders hresults ⊢
  rw [hproposals, horders, hresults, reportsTo_of_no_session rfl]
  rfl

theorem Stage.abandon (hs : Stage c₀ inv i mine c h) (hi : i < c.nextCall)
    (hcall : c.call? i ≠ none) : Next c₀ inv i mine c h (.abandon i) := by
  have hlog : Log.of i c (.abandon i) = .empty := log_of_abandon hi
  refine ⟨?_, fun _ hne => absurd (congrArg Log.orders hlog) hne⟩
  rw [hlog, Log.append_empty]
  exact .ended (abandon_over hi).1.gone hs.orders (Or.inl (hs.results hcall))

theorem proposalOf_id {p : Proposal} (h : c.proposalOf inv = .ok p) : p.id = inv.id := by
  unfold proposalOf Draft.build at h
  split at h
  · cases h
  · obtain rfl := Except.ok.inj h
    rfl

theorem verdict_ofAnswers {answers : List Answer} {verdict : Verdict}
    (h : Verdict.ofAnswers answers = .ok verdict) :
    verdict.valid = answers.filter Answer.isValid ∧
      (verdict.valid.map (·.payload)).head? = some verdict.payload := by
  unfold Verdict.ofAnswers at h
  dsimp only at h
  split at h
  · cases h
  · next first rest hvalid =>
    obtain rfl := Except.ok.inj h
    rw [hvalid]
    exact ⟨rfl, rfl⟩

/-- A listener that is added is linked to the peers by sessions of its own. -/
theorem linkCommit_follow (b : Client) (i : Nat) {l : ListenerId} (peers : List Peer) (id : String)
    (next : AfterLink) (hfree : b.registered? (.commit l) = none) :
    ∃ (b' : Client) (links : List Link), b.linkCommit i l peers id next =
        b'.followLinks i (.commit l) links next ∧ b'.outbox = b.outbox ∧ b'.waits = b.waits ∧
      b'.audiences links = (peers.map fun p => Audience.commit l p.name id).map some ∧
      b'.setup = b.setup := by
  let ss := peers.zipIdx b.sessions.length
  let b₁ := (b.reserve (.commit l)).spawnEach l id peers
  obtain ⟨table, agenda, heq⟩ := b.attachEach_spawnEach_eq l id peers ss
  refine ⟨(b₁.attachEach ss).1, (b₁.attachEach ss).2.map (⟨·, false⟩),
    linkCommit_eq b i l peers id next hfree, by rw [heq], by rw [heq], ?_, by rw [heq]; rfl⟩
  have hlinks : (b₁.attachEach ss).1.audiences ((b₁.attachEach ss).2.map (⟨·, false⟩)) =
      ((b₁.attachEach ss).2.map (·.session)).map fun j =>
        ((b.sessions ++ peers.map fun p => Session.new (.commit l p.name id) none)[j]?).map
          (·.audience) := by
    unfold audiences
    rw [heq, List.map_map, List.map_map]
    rfl
  rw [hlinks, attachEach_session, List.map_map, List.map_map]
  refine List.ext_getElem? fun k => ?_
  rw [List.getElem?_map, List.getElem?_zipIdx, List.getElem?_map]
  cases hk : peers[k]? with
  | none => rfl
  | some p =>
    simp only [Option.map_some, Function.comp_apply, Option.some.injEq]
    rw [List.getElem?_append_right (Nat.le_add_right _ _), Nat.add_sub_cancel_left,
      List.getElem?_map, hk]
    rfl

/-- A wait whose quorum has no peers is given up, any other gets a mailbox. -/
theorem openMailbox_cases (b : Client) (i : Nat) (next : AfterLink) {w : Nat} {wait : Wait}
    (hw : b.waits[w]? = some wait) :
    (wait.quorum.filter (fun q => !q.peers.isEmpty) = none ∧ ∃ waits : List Wait,
      waits[w]? = some { wait with quorum := none } ∧
      b.openMailbox i w next = ({ b with waits } : Client).proceed i next) ∨
    ∃ q, wait.quorum.filter (fun q => !q.peers.isEmpty) = some q ∧ wait.quorum = some q ∧
      ∃ waits : List Wait, waits[w]? = some { wait with
        deadline := some (b.clock + wait.limit.ceilMillis), listener := some b.nextMailbox
        mailbox := some (b.nextMailbox, []) } ∧
      b.openMailbox i w next =
        ({ b with waits, nextMailbox := b.nextMailbox + 1 } : Client).linkCommit i
          (.mailbox b.nextMailbox) q.peers wait.id.text next := by
  obtain ⟨id, quorum, limit, deadline, listener, mailbox, held⟩ := wait
  unfold openMailbox wait?
  rw [hw]
  cases quorum with
  | none => exact Or.inl ⟨rfl, b.waits, hw, rfl⟩
  | some q =>
    cases hempty : q.peers.isEmpty with
    | true =>
      refine Or.inl ⟨by simp [List.isEmpty_iff.1 hempty],
        b.waits.modify w fun wait => { wait with quorum := none }, ?_, if_pos hempty⟩
      rw [List.getElem?_modify_eq, hw]
      rfl
    | false =>
      refine Or.inr ⟨q, by simp [List.isEmpty_eq_false_iff.1 hempty], rfl, b.waits.modify w _, ?_,
        if_neg (by simp [hempty])⟩
      rw [List.getElem?_modify_eq, hw]
      rfl

theorem Own.begun (hc : c.Orderly mine) {id : TransactionId} {quorum : Option Quorum}
    {limit : Duration} {next : AfterLink} (hactor : c.actor m = i)
    (hb : c.apply m = (c.newWait id quorum limit).1.openMailbox i c.waits.length next) :
    (c.apply m).Own i c.waits.length mine := by
  let b := (c.newWait id quorum limit).1
  have hdeeds : Deeds i (fun _ => True) (fun _ => True) (fun _ => True) b
      (b.openMailbox i c.waits.length next) :=
    deeds_openMailbox b trivial trivial trivial next fun _ _ => trivial
  have hlt : c.waits.length < b.waits.length := by simp [b, newWait]
  refine ⟨?_, fun k call hk hcall hw => ?_, fun hmem => Nat.lt_irrefl _ (hc.mine _ hmem)⟩
  · rw [hb]
    exact Nat.lt_of_lt_of_le hlt (Deeds.waits_le hdeeds).1
  · rw [call?_apply hc.tidy (hactor ▸ Ne.symm hk)] at hcall
    exact Nat.lt_irrefl _ (hc.waits.known hcall hw)

section Endorsed

variable {p : Proposal} {targets : Targets}

theorem Next.not_endorsed (hlog : h = ⟨[(targets, p)], [], [], [], [], [], []⟩)
    {r : Except TransportError (List Answer)} (e : TransactionFailure)
    (hb : c.apply (.endorsed i r) = c.finish i (.answered (.error e))) :
    Next c₀ inv i mine c h (.endorsed i r) := by
  have hreplies : (h ++ Log.of i c (.endorsed i r)).replies = [] := by
    simp [hlog, Log.of, repliesTo]
  have hout : Outcome c₀ inv (h ++ Log.of i c (.endorsed i r)) (.answered (.error e)) :=
    .failed e fun reply hreply => by
      rw [hreplies] at hreply
      cases hreply
  obtain ⟨hstage, hno⟩ := Stage.of_finished hb rfl (by simp [hlog]) (by rw [hlog]) fun _ => hout
  exact ⟨hstage, fun _ hne => absurd hno hne⟩

theorem Next.endorsed (hc : c.Orderly mine) (hsetup : c.setup = c₀.setup)
    (hcall : c.call? i = some (.endorsing p inv.quorum)) (hbuilt : c₀.proposalOf inv = .ok p)
    (hchosen : Targets.choose c₀.channel inv.peers inv.organizations c₀.options.discoveryEnabled =
      .ok targets)
    (hlog : h = ⟨[(targets, p)], [], [], [], [], [], []⟩) {answers : List Answer}
    {verdict : Verdict} (hverdict : Verdict.ofAnswers answers = .ok verdict)
    (hb : c.apply (.endorsed i (.ok answers)) =
      (c.newWait p.id (inv.quorum.or c.defaultQuorum) c.options.commitTimeout).1.openMailbox i
        c.waits.length (.order ⟨p, verdict.valid⟩ verdict.payload c.waits.length)) :
    Next c₀ inv i mine c h (.endorsed i (.ok answers)) := by
  have hanswers : (h ++ Log.of i c (.endorsed i (.ok answers))).answers =
      [(c.clock, .ok answers)] := by
    simp [hlog, Log.of, answersTo, hcall]
  have hreplies : (h ++ Log.of i c (.endorsed i (.ok answers))).replies = [] := by
    simp [hlog, Log.of, repliesTo]
  have hlooks : (h ++ Log.of i c (.endorsed i (.ok answers))).looks = [] := by
    simp [hlog, Log.of, looks]
  have hreports : (h ++ Log.of i c (.endorsed i (.ok answers))).reports = [] := by
    simp [hlog, Log.of, reportsTo_of_no_session (m := .endorsed i (.ok answers)) rfl]
  obtain ⟨hvalid, hfirst⟩ := verdict_ofAnswers hverdict
  let b := (c.newWait p.id (inv.quorum.or c.defaultQuorum) c.options.commitTimeout).1
  let w := c.waits.length
  have hw : b.waits[w]? = some ⟨p.id, inv.quorum.or c.defaultQuorum, c.options.commitTimeout,
      none, none, none, true⟩ := List.getElem?_concat_length
  have hid : p.id = inv.id := proposalOf_id hbuilt
  obtain ⟨hchannel, hidentity, hoptions⟩ : c.channel = c₀.channel ∧ c.identity = c₀.identity ∧
      c.options = c₀.options := by
    simpa only [setup, Prod.mk.injEq] using hsetup
  have hawaited : (inv.quorum.or c.defaultQuorum).filter (fun q => !q.peers.isEmpty) =
      c₀.awaited inv := by
    rw [awaited, defaultQuorum, defaultQuorum, hchannel, hidentity, hoptions]
  have hendorsed (hunsent : (Log.of i c (.endorsed i (.ok answers))).proposals = []) :
      Endorsed c₀ inv (h ++ Log.of i c (.endorsed i (.ok answers))) c.clock
        ⟨p, verdict.valid⟩ verdict.payload :=
    ⟨hbuilt, ⟨targets, hchosen, by simp [hlog, hunsent]⟩, ⟨answers, hanswers, hvalid⟩, hfirst⟩
  have hown : (c.apply (.endorsed i (.ok answers))).Own i w mine := .begun hc rfl hb
  rcases openMailbox_cases b i _ hw with
    ⟨hnone, waits, hwait, heq⟩ | ⟨q, hsome, hq, waits, hwait, heq⟩
  · rw [hawaited] at hnone
    have hwait' : waits[w]? = some (waitFor inv c₀.options.commitTimeout (c₀.awaited inv)
        c.clock 0 (h ++ Log.of i c (.endorsed i (.ok answers))).reports) := by
      rw [hwait, hnone, hid, hoptions]
      rfl
    refine ⟨.proceed (hb.trans heq) rfl hendorsed hown hwait' (by rw [hlog]) hreplies hlooks
      (by rw [hlog]), fun _ _ q hq => ?_⟩
    rw [hnone] at hq
    cases hq
  · rw [hawaited] at hsome
    let b₂ : Client := { b with waits, nextMailbox := b.nextMailbox + 1 }
    have hfree : b₂.registered? (.commit (.mailbox c.nextMailbox)) = none := by
      by_contra hne
      exact Nat.lt_irrefl _ (hc.waits.keys hne)
    obtain ⟨b', links, hfollow, hout, hwaits, hlinked, -⟩ :=
      b₂.linkCommit_follow i q.peers p.id.text _ hfree
    rw [hid] at hlinked
    refine Next.follow (hb.trans (heq.trans hfollow)) hout hendorsed hsome hown ?_ hlinked
      (by rw [hlog]) hreplies hlooks (by rw [hlog])
    rw [hwaits, hreports]
    change waits[w]? = _
    rw [hwait, hq, hid, hoptions]
    rfl

end Endorsed

theorem made_of_call? (hm : m.call? = some i) : c.made m = [] := by
  cases m <;> first | rfl | cases hm

theorem proper_of_call? (hm : m.call? = some i) : m.Proper mine := by
  cases m <;> simp only [Move.call?, reduceCtorEq] at hm <;>
    simp [Move.Proper, Move.wait?, Move.commitListener?]

/-- The wait stays the call's own in a move of the call. -/
theorem Own.of_call? (own : c.Own i w mine) (hc : c.Orderly mine) (hm : m.call? = some i) :
    (c.apply m).Own i w mine := by
  have h := own.apply hc (proper_of_call? hm)
  rwa [made_of_call? hm, List.append_nil] at h

/-- When an orderer cannot be reached, the next one is asked, or that was the last. -/
theorem receive_error_cases (route : OrderRoute) (e : TransportError) :
    (∃ route', route.receive (.error e) = .ask route') ∨
      route.receive (.error e) = .done (.error (.transport e)) := by
  rcases route with _ | ⟨asked, _ | ⟨o, os⟩⟩
  · exact Or.inr rfl
  · exact Or.inr rfl
  · exact Or.inl ⟨_, rfl⟩

section Ordered

variable {time n w : Nat} {r : OrderRequest} {payload : Bytes} {route : OrderRoute}

theorem BeingOrdered.replies_eq (hs : BeingOrdered c₀ inv i mine c h time n w r payload route)
    (result : Except TransportError OrderReply) :
    (h ++ Log.of i c (.ordered i result)).replies = h.replies ++ [result] := by
  simp [Log.of, repliesTo, hs.call]

theorem BeingOrdered.apply_eq (hs : BeingOrdered c₀ inv i mine c h time n w r payload route)
    (result : Except TransportError OrderReply) : c.apply (.ordered i result) =
      c.orderStep i r payload w (route.receive result) := by
  simp only [apply, Client.ordered, hs.call]

theorem BeingOrdered.finish (hs : BeingOrdered c₀ inv i mine c h time n w r payload route)
    {result : Except TransportError OrderReply} {ended : CallResult}
    (hb : c.apply (.ordered i result) = (c.dropWait w).finish i ended)
    (hout : Endorsed c₀ inv (h ++ Log.of i c (.ordered i result)) time r payload →
      Outcome c₀ inv (h ++ Log.of i c (.ordered i result)) ended) :
    Stage c₀ inv i mine (c.apply (.ordered i result)) (h ++ Log.of i c (.ordered i result)) :=
  (Stage.of_finished hb (c.dropWait_same w).2.2
    (fun hunsent o ho =>
      ⟨time, payload, hs.orders o ho ▸ hs.endorsed.append hunsent rfl⟩) hs.results
    fun hunsent => hout (hs.endorsed.append hunsent rfl)).1

theorem BeingOrdered.ask (hs : BeingOrdered c₀ inv i mine c h time n w r payload route)
    (hc : c.Orderly mine) {e : TransportError} {route' : OrderRoute}
    (hstep : route.receive (.error e) = .ask route') :
    Stage c₀ inv i mine (c.apply (.ordered i (.error e)))
      (h ++ Log.of i c (.ordered i (.error e))) := by
  have happly := hs.apply_eq (.error e)
  rw [hstep] at happly
  have hout : (c.apply (.ordered i (.error e))).outbox = c.outbox ++ [.order i route' r] := by
    rw [happly]
    rfl
  obtain ⟨hunsent, hone, hno⟩ := log_of_order hout
  have hcall : (c.apply (.ordered i (.error e))).call? i =
      some (.ordering r payload w route') := by
    rw [happly]
    exact c.call?_setCall_self _
  have hreports : (h ++ Log.of i c (.ordered i (.error e))).reports = h.reports := by
    simp [Log.of, reportsTo_of_no_session (m := .ordered i (.error e)) rfl]
  have hwait : (c.apply (.ordered i (.error e))).waits[w]? = some (waitFor inv
      c₀.options.commitTimeout (c₀.awaited inv) time n
      (h ++ Log.of i c (.ordered i (.error e))).reports) := by
    rw [hreports, happly]
    exact hs.wait
  have hno' : c.looks i (.ordered i (.error e)) = [] := by simp [Client.looks]
  refine .ordering ⟨hcall, hs.endorsed.append hunsent rfl, hs.own.of_call? hc rfl, hwait,
    by simp [hone], ?_, ?_, ?_, ?_⟩
  · rw [Log.orders_append, hone]
    intro o ho
    rcases List.mem_append.1 ho with ho | ho
    · exact hs.orders o ho
    · rw [List.mem_singleton.1 ho]
  · rw [hs.replies_eq]
    simpa using hs.replies
  · rw [Log.looks_append, hs.looks, List.nil_append]
    exact hno'
  · rw [Log.results_append, hs.results, hno, List.nil_append]

theorem BeingOrdered.accepted (hs : BeingOrdered c₀ inv i mine c h time n w r payload route)
    (hc : c.Orderly mine) {reply : OrderReply} (haccepted : reply.isAccepted = true) :
    Stage c₀ inv i mine (c.apply (.ordered i (.ok reply)))
      (h ++ Log.of i c (.ordered i (.ok reply))) := by
  have hlast :
      (h ++ Log.of i c (.ordered i (.ok reply))).replies.getLast? = some (.ok reply) := by
    rw [hs.replies_eq, List.getLast?_concat]
  have hb : c.apply (.ordered i (.ok reply)) = c.confirm i w (some payload) :=
    (hs.apply_eq (.ok reply)).trans (if_pos haccepted)
  have hwait := hs.wait
  cases hawaited : c₀.awaited inv with
  | none =>
    rw [hawaited] at hwait
    have hconfirm : c.confirm i w (some payload) =
        (c.dropWait w).finish i (.answered (.ok payload)) := by
      unfold confirm wait?
      rw [hwait]
      rfl
    exact hs.finish (hb.trans hconfirm) fun he => .accepted he hlast haccepted hawaited
  | some q =>
    rw [hawaited] at hwait
    have hb' := hb.trans (confirm_eq (some payload) hwait rfl rfl rfl)
    have hout : (c.apply (.ordered i (.ok reply))).outbox =
        c.outbox ++ [.wakeAt i (time + c₀.options.commitTimeout.ceilMillis)] := by
      rw [hb']
      rfl
    obtain ⟨hunsent, hno, hno'⟩ := log_of_waiting (i := i) hout (by simp)
    have hlooks : (h ++ Log.of i c (.ordered i (.ok reply))).looks = [] := by
      simp [hs.looks, Log.of, Client.looks]
    have htaken : (h ++ Log.of i c (.ordered i (.ok reply))).taken = [] := by
      rw [Log.taken, hlooks]
      rfl
    have hreports : (h ++ Log.of i c (.ordered i (.ok reply))).reports = h.reports := by
      simp [Log.of, reportsTo_of_no_session (m := .ordered i (.ok reply)) rfl]
    have horders : (h ++ Log.of i c (.ordered i (.ok reply))).orders = h.orders := by
      rw [Log.orders_append, hno, List.append_nil]
    -- nothing has been looked at yet, and the mailbox holds what was told meanwhile
    have hwatched : Watched c₀ inv (c.apply (.ordered i (.ok reply)))
        (h ++ Log.of i c (.ordered i (.ok reply))) time n w q (.new q.peers.length) h.reports := by
      refine ⟨?_, ?_, ?_, by simp [hlooks]⟩
      · rw [hb']
        exact hwait
      · rw [htaken]
        rfl
      · rw [htaken, hreports]
        rfl
    refine .confirming ?_ (hs.endorsed.append hunsent rfl) hawaited (hs.own.of_call? hc rfl)
      hwatched (horders ▸ hs.sent) (horders ▸ hs.orders) hlast haccepted ?_
    · rw [hb']
      exact call?_setCall_self ..
    · rw [Log.results_append, hs.results, hno', List.nil_append]

theorem BeingOrdered.next (hs : BeingOrdered c₀ inv i mine c h time n w r payload route)
    (hc : c.Orderly mine) (result : Except TransportError OrderReply) :
    Next c₀ inv i mine c h (.ordered i result) := by
  refine ⟨?_, fun hno => absurd hno hs.sent⟩
  cases result with
  | error e =>
    rcases receive_error_cases route e with ⟨route', hstep⟩ | hstep
    · exact hs.ask hc hstep
    · have happly := hs.apply_eq (.error e)
      rw [hstep] at happly
      refine hs.finish happly fun _ => .failed _ fun reply hreply => ?_
      rw [hs.replies_eq, List.getLast?_concat] at hreply
      cases hreply
  | ok reply =>
    cases haccepted : reply.isAccepted with
    | false =>
      have hb : c.apply (.ordered i (.ok reply)) = (c.dropWait w).finish i
          (.answered (.error (.rejected r.proposal.id reply.status reply.message))) :=
        (hs.apply_eq (.ok reply)).trans (if_neg (by simp [haccepted]))
      refine hs.finish hb fun _ => .failed _ fun reply' hreply => ?_
      rw [hs.replies_eq, List.getLast?_concat] at hreply
      simp only [Option.some.injEq, Except.ok.injEq] at hreply
      exact hreply ▸ haccepted
    | true => exact hs.accepted hc haccepted

end Ordered

/-- A move of the call itself leads to the next phase, or changes nothing. -/
theorem Stage.own (hs : Stage c₀ inv i mine c h) (hc : c.Orderly mine)
    (hsetup : c.setup = c₀.setup) (hi : i < c.nextCall) (hactor : c.actor m = i) :
    Next c₀ inv i mine c h m := by
  have hm := call?_of_actor hactor hi
  obtain ⟨hsame, hfits⟩ | ⟨rfl, call, hcall⟩ | ⟨call, b, hcall, hb, hgoes⟩ := c.call_cases hm
  · exact hs.next_of_same hsame (log_of_not_fits hm hsame hfits)
  · exact hs.abandon hi (by simp [hcall])
  -- in each phase one move is left: the one that brings what the call waits for
  cases hs with
  | endorsing there built chosen log =>
    obtain rfl := Option.some.inj (hcall.symm.trans there)
    cases hgoes with
    | unreached => exact .not_endorsed log _ hb
    | refused => exact .not_endorsed log _ hb
    | endorsed _ _ hverdict => exact .endorsed hc hsetup there built chosen log hverdict hb
  | linking there endorsed awaited own wait linked orders replies looks results =>
    obtain rfl := Option.some.inj (hcall.symm.trans there)
    cases hgoes with
    | @follows _ _ _ room =>
      have hreports : (h ++ Log.of i c (.resume i room)).reports = h.reports := by
        simp [Log.of, reportsTo_of_no_session (m := .resume i room) rfl]
      refine Next.follow (b := c) hb rfl (fun hunsent => endorsed.append hunsent rfl) awaited
        (own.of_call? hc rfl) ?_ linked orders ?_ ?_ results
      · rw [hreports]
        exact wait
      · simp [replies, Log.of, repliesTo]
      · simp [looks, Log.of, Client.looks, there]
  | ordering sent =>
    obtain rfl := Option.some.inj (hcall.symm.trans sent.call)
    cases hgoes
    exact sent.next hc _
  | @confirming time n w r payload reply q t os there endorsed awaited own watched sent orders
      replied accepted results =>
    obtain rfl := Option.some.inj (hcall.symm.trans there)
    cases hgoes with
    | @looks _ _ _ _ room hroom =>
      have hreplied : (h ++ Log.of i c (.resume i room)).replies = h.replies := by
        simp [Log.of, repliesTo]
      have hlooks : c.looks i (.resume i room) = [⟨c.clock, os.take room, os.drop room⟩] := by
        simp only [Client.looks, there, hroom, ne_eq, not_false_eq_true, and_self, if_true,
          watched.wait]
        rfl
      exact ⟨Stage.look hb watched (fun hunsent => endorsed.append hunsent rfl) awaited
        (own.of_call? hc rfl) sent orders (hreplied.symm ▸ replied) accepted results rfl hlooks,
        fun hno => absurd hno sent⟩
  | ended gone => simp [gone] at hcall

/-- Every move leads from a phase to the next, or leaves it. -/
theorem Stage.next (hs : Stage c₀ inv i mine c h) (hc : c.Orderly mine)
    (hsetup : c.setup = c₀.setup) (hi : i < c.nextCall) (hm : m.Proper mine) :
    Next c₀ inv i (mine ++ c.made m) c h m := by
  by_cases hactor : c.actor m = i
  · rw [made_of_call? (call?_of_actor hactor hi), List.append_nil]
    exact hs.own hc hsetup hi hactor
  · refine ⟨hs.other hc hm hactor, fun _ hne => ?_⟩
    rw [log_of_other hc.tidy hactor] at hne
    exact absurd rfl hne

theorem Stage.run {ms : List Move} (hs : Stage c₀ inv i mine c h) (hc : c.Orderly mine)
    (hsetup : c.setup = c₀.setup) (hi : i < c.nextCall) (hms : Proper mine c ms) :
    Stage c₀ inv i (mine ++ gather made c ms) (c.run ms) (h ++ log i c ms) ∧
      (c.run ms).setup = c₀.setup ∧ i < (c.run ms).nextCall := by
  induction ms generalizing c h mine with
  | nil =>
    rw [gather, List.append_nil, log, Log.append_empty]
    exact ⟨hs, hsetup, hi⟩
  | cons m ms ih =>
    rw [gather, ← List.append_assoc, log, ← Log.append_assoc]
    exact ih (hs.next hc hsetup hi hms.1).stage (hc.apply hms.1)
      ((setup_apply hc.waits.mailboxes m).trans hsetup)
      (Nat.lt_of_lt_of_le hi (nextCall_le_apply hc.tidy m)) hms.2

theorem Stage.submit (c₀ : Client) (inv : Invocation) (mine : List Nat) :
    Stage c₀ inv c₀.nextCall mine (c₀.apply (.submit inv))
        (Log.of c₀.nextCall c₀ (.submit inv)) ∧
      (Log.of c₀.nextCall c₀ (.submit inv)).orders = [] := by
  let i := c₀.nextCall
  let b := c₀.newCall.1
  have hfailed (e : TransactionFailure)
      (hb : c₀.apply (.submit inv) = b.finish i (.answered (.error e))) :
      Stage c₀ inv i mine (c₀.apply (.submit inv)) (.empty ++ Log.of i c₀ (.submit inv)) ∧
        (Log.of i c₀ (.submit inv)).orders = [] :=
    Stage.of_finished hb rfl (fun _ _ ho => (List.not_mem_nil ho).elim) rfl
      fun _ => .failed e fun _ hreply => by cases hreply
  -- the new call leaves what the proposal and its targets are made from
  cases hbuilt : c₀.newCall.1.proposalOf inv with
  | error e =>
    refine hfailed e ?_
    simp only [apply, Client.submit, hbuilt]
    rfl
  | ok p =>
    cases hchosen : Targets.choose c₀.newCall.1.channel inv.peers inv.organizations
        c₀.newCall.1.options.discoveryEnabled with
    | error e =>
      refine hfailed e ?_
      simp only [apply, Client.submit, hbuilt, hchosen]
      rfl
    | ok targets =>
      have happly : c₀.apply (.submit inv) =
          (b.setCall i (.endorsing p inv.quorum)).send (.propose i targets p) := by
        simp only [apply, Client.submit, hbuilt, hchosen]
        rfl
      have hout : (c₀.apply (.submit inv)).outbox = c₀.outbox ++ [.propose i targets p] := by
        rw [happly]
        rfl
      have hlog : Log.of i c₀ (.submit inv) = ⟨[(targets, p)], [], [], [], [], [], []⟩ := by
        simp only [Log.of, sent_eq hout, reportsTo_of_no_session (m := .submit inv) rfl]
        simp [Request.proposal?, Request.order?, Request.result?, answersTo, repliesTo, looks]
      have hcall : (c₀.apply (.submit inv)).call? i = some (.endorsing p inv.quorum) := by
        rw [happly]
        exact b.call?_setCall_self _
      exact ⟨.endorsing hcall hbuilt hchosen hlog, congrArg Log.orders hlog⟩

theorem Stage.submitted {ms : List Move} (hc : c₀.Orderly mine)
    (hms : Proper mine c₀ (.submit inv :: ms)) :
    Stage c₀ inv c₀.nextCall (mine ++ gather made c₀ (.submit inv :: ms))
        (c₀.run (.submit inv :: ms)) (log c₀.nextCall c₀ (.submit inv :: ms)) ∧
      (c₀.run (.submit inv :: ms)).setup = c₀.setup ∧
      c₀.nextCall < (c₀.run (.submit inv :: ms)).nextCall := by
  have hacts : Acts c₀.nextCall (fun _ => True) c₀.newCall.1 (c₀.apply (.submit inv)) :=
    acts_submit c₀ inv
  rw [gather, ← List.append_assoc]
  exact (Stage.submit c₀ inv _).1.run (hc.apply hms.1) (setup_apply hc.waits.mailboxes _)
    hacts.sends.1 hms.2

/-- When the transaction is sent for ordering for the first time, its mailbox is registered. -/
theorem Stage.first {before after : List Move} {q : Quorum} (hc : c₀.Orderly mine)
    (hms : Proper mine c₀ (.submit inv :: (before ++ m :: after)))
    (hno : (log c₀.nextCall c₀ (.submit inv :: before)).orders = [])
    (hne : (Log.of c₀.nextCall (c₀.run (.submit inv :: before)) m).orders ≠ [])
    (hq : c₀.awaited inv = some q) :
    ∃ n next, Registers c₀.nextCall n q.peers inv.id.text next (c₀.run (.submit inv :: before))
      ((c₀.run (.submit inv :: before)).apply m) := by
  rw [← List.cons_append] at hms
  obtain ⟨hbefore, hafter⟩ := proper_append hms
  obtain ⟨hs, hsetup, hi⟩ := Stage.submitted hc hbefore
  exact (hs.next (hc.run hbefore) hsetup hi hafter.1).first hno hne q hq

end Steps

end Client

end LedgerClient
