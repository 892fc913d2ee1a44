import LedgerClient.Proofs.Inquiries

/-!
# Queries that share a chooser

Queries on one chooser may overlap: each reads it when it begins, and may change it when a peer
answers.  A `Desk` is a chooser with the queries that are under way, and a run of it is any
interleaving of queries that begin, hear results and are given up.

A chooser in rotation counts the queries that begin and heeds nothing else
(`Desk.position_of_roundRobin`); a sticky one follows the peer that answered last
(`Desk.resumes_of_sticky`), so that a query which is never answered might as well not have been
made (`Desk.choices_without`).
-/

namespace LedgerClient

/-- A chooser, and the queries under way that share it. -/
structure Desk where
  chooser : Chooser
  underWay : Nat → Option Inquiry

namespace Desk

/-- What happens at a desk. -/
inductive Event where
  | begins (call : Nat) (peers : List Peer)
  | hears (call : Nat) (result : Except TransportError Reply)
  | leaves (call : Nat)

def Event.call : Event → Nat
  | .begins call _ | .hears call _ | .leaves call => call

def new (strategy : QueryStrategy) : Desk := ⟨.new strategy, fun _ => none⟩

/-- A query goes on after a step of it. -/
def note (d : Desk) (call : Nat) (s : Chooser × InquiryStep) : Desk :=
  ⟨s.1, Function.update d.underWay call (InquiryStep.dialogue.pending s.2)⟩

def apply (d : Desk) : Event → Desk
  | .begins call peers => d.note call (Inquiry.start d.chooser peers)
  | .hears call r =>
    match d.underWay call with
    | some q => d.note call (q.receive d.chooser r)
    | none => d
  | .leaves call => { d with underWay := Function.update d.underWay call none }

def run (d : Desk) (es : List Event) : Desk := es.foldl apply d

/-- What is seen in a run. -/
def gather {α : Type} (g : Desk → Event → List α) : Desk → List Event → List α
  | _, [] => []
  | d, e :: es => g d e ++ gather g (d.apply e) es

/-- Where a query on some peers begins. -/
structure Choice where
  call : Nat
  peers : List Peer
  position : Nat
  deriving DecidableEq

/-- A query that begins, if there are peers to ask. -/
def choices (d : Desk) : Event → List Choice
  | .begins _ [] => []
  | .begins call peers => [⟨call, peers, d.chooser.start peers⟩]
  | _ => []

/-- A peer that answers. -/
def answerers (d : Desk) : Event → List Peer
  | .hears call (.ok _) => ((d.underWay call).map (·.asked)).toList
  | _ => []

variable {d d' : Desk} {e : Event} {es : List Event}

theorem run_cons (d : Desk) (e : Event) (es : List Event) : d.run (e :: es) = (d.apply e).run es :=
  rfl

theorem run_append (d : Desk) (es es' : List Event) : d.run (es ++ es') = (d.run es).run es' :=
  List.foldl_append

theorem choices_begins {peers : List Peer} (h : peers ≠ []) (d : Desk) (call : Nat) :
    d.choices (.begins call peers) = [⟨call, peers, d.chooser.start peers⟩] := by
  cases peers with
  | nil => exact absurd rfl h
  | cons => rfl

theorem asked_first {peers : List Peer} (h : peers ≠ []) (d : Desk) (call : Nat) :
    ∃ q, (d.apply (.begins call peers)).underWay call = some q ∧
      peers[d.chooser.start peers]? = some q.asked := by
  have hlt := d.chooser.start_lt h
  have hfirst : (peers.rotate (d.chooser.start peers)).head? =
      peers[d.chooser.start peers]? := by
    rw [List.head?_rotate hlt]
  simp only [apply, note, Inquiry.start_eq d.chooser h, Function.update_self]
  cases hrotated : peers.rotate (d.chooser.start peers) with
  | nil => exact absurd (List.rotate_eq_nil_iff.1 hrotated) h
  | cons p ps =>
    rw [hrotated] at hfirst
    exact ⟨⟨p, ps, []⟩, rfl, hfirst.symm⟩

theorem apply_hears {call : Nat} (h : d.underWay call = none)
    (r : Except TransportError Reply) : d.apply (.hears call r) = d := by
  simp only [apply, h]

theorem apply_leaves {call : Nat} (h : d.underWay call = none) :
    d.apply (.leaves call) = d := by
  simp only [apply, ← h, Function.update_eq_self]

/-! ## The chooser -/

theorem chooser_apply (d : Desk) (e : Event) : (d.apply e).chooser =
    (d.answerers e).foldl Chooser.remember
      ((d.choices e).foldl (fun c _ => c.begin) d.chooser) := by
  cases e with
  | begins call peers =>
    cases peers with
    | nil => rfl
    | cons p ps =>
      have hstart := Inquiry.start_eq d.chooser (List.cons_ne_nil p ps)
      simp only [apply, note, hstart]
      rfl
  | hears call r =>
    simp only [apply]
    cases hq : d.underWay call with
    | none => cases r <;> simp [choices, answerers, hq]
    | some q =>
      cases r with
      | ok => simp [note, Inquiry.receive, choices, answerers, hq]
      | error e =>
        obtain ⟨asked, left, refusals⟩ := q
        cases left <;> rfl
  | leaves => rfl

theorem choices_cases (d : Desk) (e : Event) : d.choices e = [] ∨ ∃ call peers, peers ≠ [] ∧
    e = .begins call peers ∧ d.choices e = [⟨call, peers, d.chooser.start peers⟩] := by
  cases e with
  | begins call peers =>
    cases peers with
    | nil => exact Or.inl rfl
    | cons p ps => exact Or.inr ⟨call, p :: ps, by simp, rfl, rfl⟩
  | hears | leaves => exact Or.inl rfl

theorem underWay_apply {call : Nat} (h : e.call ≠ call) :
    (d.apply e).underWay call = d.underWay call := by
  cases e with
  | begins => exact Function.update_of_ne (Ne.symm h) _ _
  | hears k r =>
    simp only [apply]
    split
    · exact Function.update_of_ne (Ne.symm h) _ _
    · rfl
  | leaves => exact Function.update_of_ne (Ne.symm h) _ _

/-! ## In rotation -/

section RoundRobin

theorem remember_of_roundRobin {c : Chooser} (h : c.strategy = .roundRobin) (ps : List Peer) :
    ps.foldl Chooser.remember c = c := by
  induction ps with
  | nil => rfl
  | cons p ps ih =>
    have hp : c.remember p = c := by simp [Chooser.remember, h]
    rw [List.foldl_cons, hp, ih]

theorem begin_of_roundRobin {c : Chooser} (h : c.strategy = .roundRobin) :
    c.begin = { c with started := (c.started + 1) % UInt64.size } := by
  obtain ⟨strategy, answered, started⟩ := c
  obtain rfl : strategy = .roundRobin := h
  rfl

/-- The chooser counts the queries that begin, and heeds no answers. -/
theorem chooser_of_roundRobin (h : d.chooser.strategy = .roundRobin) (e : Event) :
    (d.apply e).chooser.strategy = .roundRobin ∧
      (d.choices e = [] ∧ (d.apply e).chooser.started = d.chooser.started ∨
        ∃ x, d.choices e = [x] ∧ x.position = d.chooser.started % x.peers.length ∧
          (d.apply e).chooser.started = (d.chooser.started + 1) % UInt64.size) := by
  rcases d.choices_cases e with hnone | ⟨call, peers, -, rfl, hone⟩
  · rw [chooser_apply, hnone, List.foldl_nil, remember_of_roundRobin h]
    exact ⟨h, Or.inl ⟨rfl, rfl⟩⟩
  · have hbegin : (d.apply (.begins call peers)).chooser = d.chooser.begin := by
      rw [chooser_apply, hone]
      rfl
    rw [hbegin, begin_of_roundRobin h]
    have hstart : d.chooser.start peers = d.chooser.started % peers.length := by
      simp only [Chooser.start, h]
    exact ⟨h, Or.inr ⟨_, hone, hstart, rfl⟩⟩

/-- The queries with peers to ask begin at successive positions, whatever becomes of them. -/
theorem position_of_roundRobin (h : d.chooser.strategy = .roundRobin) {k : Nat} {x : Choice}
    (hk : (gather choices d es)[k]? = some x) (hlt : d.chooser.started + k < UInt64.size) :
    x.position = (d.chooser.started + k) % x.peers.length := by
  induction es generalizing d k with
  | nil => cases hk
  | cons e es ih =>
    rw [gather] at hk
    obtain ⟨hnext, ⟨hnone, hsame⟩ | ⟨y, hone, hposition, hcounted⟩⟩ := chooser_of_roundRobin h e
    · rw [hnone, List.nil_append] at hk
      rw [← hsame]
      exact ih hnext hk (hsame ▸ hlt)
    · rw [hone, List.singleton_append] at hk
      cases k with
      | zero =>
        obtain rfl := Option.some.inj hk
        exact hposition
      | succ k =>
        have hstarted : (d.apply e).chooser.started + k = d.chooser.started + (k + 1) := by
          rw [hcounted, Nat.mod_eq_of_lt (by omega)]
          omega
        rw [← hstarted]
        exact ih hnext hk (hstarted ▸ hlt)

/-- Successive positions on one list are all its positions. -/
theorem positions_perm (j n : Nat) :
    ((List.range n).map fun i => (j + i) % n).Perm (List.range n) := by
  have hrotate : (List.range n).map (fun i => (j + i) % n) = (List.range n).rotate j :=
    List.ext_getElem (by simp) fun i _ _ => by simp [List.getElem_rotate, Nat.add_comm]
  rw [hrotate]
  exact List.rotate_perm _ _

/-- As many successive queries on one list as it has positions begin once at each. -/
theorem window_of_roundRobin (h : d.chooser.strategy = .roundRobin) {j : Nat} {peers : List Peer}
    (hlt : d.chooser.started + j + peers.length ≤ UInt64.size)
    (hlength : (((gather choices d es).drop j).take peers.length).length = peers.length)
    (hsame : ∀ x ∈ ((gather choices d es).drop j).take peers.length, x.peers = peers) :
    ((((gather choices d es).drop j).take peers.length).map (·.position)).Perm
      (List.range peers.length) := by
  have hpositions : (((gather choices d es).drop j).take peers.length).map (·.position) =
      (List.range peers.length).map fun i => (d.chooser.started + j + i) % peers.length := by
    refine List.ext_getElem (by simpa using hlength) fun i hi _ => ?_
    rw [List.length_map, hlength] at hi
    have hthere : i < (((gather choices d es).drop j).take peers.length).length := by
      rwa [hlength]
    have hk : (gather choices d es)[j + i]? =
        some (((gather choices d es).drop j).take peers.length)[i] := by
      rw [← List.getElem?_drop, ← List.getElem?_take_of_lt hi]
      exact List.getElem?_eq_getElem hthere
    rw [List.getElem_map, List.getElem_map, List.getElem_range,
      position_of_roundRobin h hk (by omega), hsame _ (List.getElem_mem hthere), Nat.add_assoc]
  rw [hpositions]
  exact positions_perm _ _

end RoundRobin

/-! ## With the peer that answered last -/

section Sticky

theorem begin_of_sticky {c : Chooser} (h : c.strategy = .sticky) (xs : List Choice) :
    xs.foldl (fun c _ => c.begin) c = c := by
  induction xs with
  | nil => rfl
  | cons x xs ih =>
    have hc : c.begin = c := by simp [Chooser.begin, h]
    rw [List.foldl_cons, hc, ih]

theorem remember_of_sticky {c : Chooser} (h : c.strategy = .sticky) (ps : List Peer) :
    (ps.foldl Chooser.remember c).strategy = .sticky ∧
      (ps.foldl Chooser.remember c).answered = (ps.getLast?.map (·.name)).or c.answered := by
  induction ps using List.reverseRecOn with
  | nil => exact ⟨h, rfl⟩
  | append_singleton ps p ih =>
    rw [List.foldl_append, List.getLast?_concat]
    simp [Chooser.remember, ih.1]

/-- The chooser remembers the peers that answer, and nothing else. -/
theorem chooser_of_sticky (h : d.chooser.strategy = .sticky) (e : Event) :
    (d.apply e).chooser = (d.answerers e).foldl Chooser.remember d.chooser := by
  rw [chooser_apply, begin_of_sticky h]

theorem chooser_run_of_sticky (h : d.chooser.strategy = .sticky) (es : List Event) :
    (d.run es).chooser = (gather answerers d es).foldl Chooser.remember d.chooser := by
  induction es generalizing d with
  | nil => rfl
  | cons e es ih =>
    have hnext := chooser_of_sticky h e
    have hsticky : (d.apply e).chooser.strategy = .sticky := by
      rw [hnext]
      exact (remember_of_sticky h _).1
    rw [run_cons, ih hsticky, gather, List.foldl_append, hnext]

/-- Where a query begins after a peer has answered last: with the first one of its name in the
list, or else with the first of all. -/
inductive Resumes (last : Option Peer) (peers : List Peer) : Nat → Prop
  | there {p q : Peer} {k : Nat} (answered : last = some p) (found : peers[k]? = some q)
      (same : q.name = p.name)
      (first : ∀ j < k, ∀ q', peers[j]? = some q' → q'.name ≠ p.name) : Resumes last peers k
  | afresh (gone : ∀ p ∈ last, ∀ q ∈ peers, q.name ≠ p.name) : Resumes last peers 0

theorem resumes_of_sticky (es : List Event) (peers : List Peer) :
    Resumes (gather answerers (new .sticky) es).getLast? peers
      (((new .sticky).run es).chooser.start peers) := by
  have hrun := chooser_run_of_sticky (d := new .sticky) rfl es
  obtain ⟨hsticky, hanswered⟩ :=
    remember_of_sticky (c := (new .sticky).chooser) rfl (gather answerers (new .sticky) es)
  rw [← hrun] at hsticky hanswered
  simp only [Chooser.start, hsticky, hanswered]
  cases hlast : (gather answerers (new .sticky) es).getLast? with
  | none => exact .afresh (by simp)
  | some p =>
    change Resumes _ _ ((peers.findIdx? fun q => q.name = p.name).getD 0)
    cases hfound : peers.findIdx? fun q => q.name = p.name with
    | none =>
      refine .afresh fun p' hp' q hq => ?_
      obtain rfl := Option.some.inj hp'
      simpa using List.findIdx?_eq_none_iff.1 hfound q hq
    | some k =>
      obtain ⟨hlt, hsame, hfirst⟩ := List.findIdx?_eq_some_iff_getElem.1 hfound
      refine .there rfl (List.getElem?_eq_getElem hlt) (by simpa using hsame) fun j hj q hq => ?_
      obtain ⟨hj', rfl⟩ := List.getElem?_eq_some_iff.1 hq
      simpa using hfirst j hj

/-! ## Queries that nobody answers -/

/-- Two desks differ at most in one query under way. -/
structure Agree (call : Nat) (d d' : Desk) : Prop where
  chooser : d.chooser = d'.chooser
  underWay : ∀ k, k ≠ call → d.underWay k = d'.underWay k

variable {call : Nat}

/-- What happens to a query that is not answered changes nothing for the others. -/
theorem Agree.own (h : Agree call d d') (hs : d.chooser.strategy = .sticky) (he : e.call = call)
    (hfails : ∀ r, e = .hears call r → ∃ x, r = .error x) : Agree call (d.apply e) d' := by
  have hnobody : d.answerers e = [] := by
    cases e with
    | hears k r =>
      obtain rfl : k = call := he
      obtain ⟨x, rfl⟩ := hfails r rfl
      rfl
    | begins | leaves => rfl
  refine ⟨?_, fun k hk => ?_⟩
  · rw [chooser_of_sticky hs, hnobody]
    exact h.chooser
  · rw [underWay_apply (he ▸ Ne.symm hk)]
    exact h.underWay k hk

theorem Agree.other (h : Agree call d d') (he : e.call ≠ call) :
    Agree call (d.apply e) (d'.apply e) ∧ d.choices e = d'.choices e := by
  obtain ⟨chooser, underWay⟩ := d
  obtain ⟨chooser', underWay'⟩ := d'
  obtain ⟨rfl, hway⟩ := h
  have hown : underWay e.call = underWay' e.call := hway _ he
  have hnote (s : Chooser × InquiryStep) : Agree call (note ⟨chooser, underWay⟩ e.call s)
      (note ⟨chooser, underWay'⟩ e.call s) := by
    refine ⟨rfl, fun k hk => ?_⟩
    simp only [note, Function.update_apply]
    split
    · rfl
    · exact hway k hk
  cases e with
  | begins k peers => exact ⟨hnote _, by cases peers <;> rfl⟩
  | hears k r =>
    have hk : underWay k = underWay' k := hown
    refine ⟨?_, rfl⟩
    simp only [apply, hk]
    split
    · exact hnote _
    · exact ⟨rfl, hway⟩
  | leaves k =>
    refine ⟨⟨rfl, fun j hj => ?_⟩, rfl⟩
    simp only [apply, Function.update_apply]
    split
    · rfl
    · exact hway j hj

/-- The other queries begin where they would without a query that is not answered. -/
theorem choices_without (h : Agree call d d') (hs : d.chooser.strategy = .sticky)
    (hfails : ∀ r, .hears call r ∈ es → ∃ x, r = .error x) :
    (gather choices d es).filter (·.call ≠ call) =
        gather choices d' (es.filter (·.call ≠ call)) ∧
      Agree call (d.run es) (d'.run (es.filter (·.call ≠ call))) := by
  induction es generalizing d d' with
  | nil => exact ⟨rfl, h⟩
  | cons e es ih =>
    have hrest (r : Except TransportError Reply) (hr : .hears call r ∈ es) : ∃ x, r = .error x :=
      hfails r (List.mem_cons_of_mem e hr)
    have hnext : (d.apply e).chooser.strategy = .sticky := by
      rw [chooser_of_sticky hs]
      exact (remember_of_sticky hs _).1
    have hcalls : ∀ x ∈ d.choices e, x.call = e.call := by
      rcases d.choices_cases e with hnone | ⟨k, peers, -, rfl, hone⟩
      · simp [hnone]
      · simp [hone, Event.call]
    -- Both desks take an event of another query; only the first takes one of this query.
    by_cases he : e.call = call
    · have hdropped : (d.choices e).filter (·.call ≠ call) = [] :=
        List.filter_eq_nil_iff.2 fun x hx => by simp [hcalls x hx, he]
      have hown : Agree call (d.apply e) d' :=
        h.own hs he fun r hr => hfails r (hr ▸ List.mem_cons_self)
      rw [gather, List.filter_append, hdropped, List.nil_append,
        List.filter_cons_of_neg (by simpa using he), run_cons]
      exact ih hown hnext hrest
    · have hkept : (d.choices e).filter (·.call ≠ call) = d.choices e :=
        List.filter_eq_self.2 fun x hx => by simpa [hcalls x hx] using he
      obtain ⟨hother, hsame⟩ := h.other he
      obtain ⟨hchoices, hagree⟩ := ih hother hnext hrest
      rw [gather, List.filter_append, hkept, hchoices, hsame,
        List.filter_cons_of_pos (by simpa using he), gather, run_cons, run_cons]
      exact ⟨rfl, hagree⟩

end Sticky

end Desk

end LedgerClient
