import LedgerClient.Endorsement.Collect
import LedgerClient.Feed.Table
import LedgerClient.Ordering
import LedgerClient.Query.Chooser

/-!
# Scripted networks

A client can be rehearsed against a network that only exists as a script. A script has a cue for
each request that is made of an addressee, in order; when the cues run out, the last one is used
again. A cue says how long the answer takes, if it comes at all, and what it is.
-/

namespace LedgerClient.Rehearsal

/-- How one request is answered. -/
structure Cue (α : Type) where
  /-- The answer never comes. -/
  stalls : Bool
  /-- Milliseconds until the answer comes. -/
  delay : Nat
  outcome : Except TransportError α

/-- When the answer is there. -/
def Cue.arrival {α : Type} (c : Cue α) : Arrival α :=
  ⟨if c.stalls then none else some c.delay, c.outcome⟩

/-- An answer that comes at once. -/
def Cue.prompt {α : Type} (outcome : Except TransportError α) : Cue α := ⟨false, 0, outcome⟩

/-- The cues of one addressee, and how many requests have been made of it. -/
structure Part (α : Type) where
  cues : List (Cue α)
  used : Nat

namespace Part

/-- The cue of the next request; the last one is used again and again. -/
def next? {α : Type} (p : Part α) : Option (Cue α) := p.cues[min p.used (p.cues.length - 1)]?

/-- The cue of the next request, each used once. -/
def nextOnce? {α : Type} (p : Part α) : Option (Cue α) := p.cues[p.used]?

/-- A request was made. -/
def turn {α : Type} (p : Part α) : Part α := { p with used := p.used + 1 }

end Part

/-- The parts of several addressees. -/
abbrev Cast (κ α : Type) := List (κ × Part α)

namespace Cast

variable {κ α : Type} [DecidableEq κ]

/-- The part of an addressee; one that the script does not name has no cues. -/
def part (c : Cast κ α) (addressee : κ) : Part α :=
  ((c.find? (·.1 = addressee)).map (·.2)).getD ⟨[], 0⟩

/-- A request was made of an addressee. -/
def turn (c : Cast κ α) (addressee : κ) : Cast κ α :=
  c.map fun entry => if entry.1 = addressee then (entry.1, entry.2.turn) else entry

end Cast

/-- A block that is sent to the open streams of a peer. -/
structure Emission where
  key : FeedKey
  block : Block

/-- How an order is answered: blocks are emitted, then the answer is given. -/
structure OrderAct where
  emissions : List Emission
  reply : OrderReply

/-- Something that a stream yields. -/
inductive StreamItem where
  | block (b : Block)
  | broken (e : TransportError)
  | ended

/-- Whether a stream is over with an item. -/
def StreamItem.isLast : StreamItem → Bool
  | .block _ => false
  | .broken _ | .ended => true

structure Script where
  proposals : Cast String Reply
  orders : Cast String OrderAct
  starts : Cast FeedKey (List StreamItem)
  discoveredEndorsements : Part (List Answer)
  discoveredOrders : Part OrderAct

namespace Script

/-- A script that says nothing. -/
def blank : Script := ⟨[], [], [], ⟨[], 0⟩, ⟨[], 0⟩⟩

/-- Makes a proposal to a peer. A peer that the script does not name cannot be reached. -/
def propose (s : Script) (peer : String) : Cue Reply × Script :=
  (((s.proposals.part peer).next?).getD
      (.prompt (.error (.unreachable peer "no response scripted"))),
    { s with proposals := s.proposals.turn peer })

/-- The act of an orderer that the script does not name: it accepts. -/
def plainOrder : OrderAct := ⟨[], ⟨OrderReply.accepted, ""⟩⟩

/-- Makes an order along a route. -/
def order (s : Script) : OrderRoute → Cue OrderAct × Script
  | .discovery =>
    (s.discoveredOrders.next?.getD (.prompt (.ok plainOrder)),
      { s with discoveredOrders := s.discoveredOrders.turn })
  | .orderer asked _ =>
    (((s.orders.part asked.name).next?).getD (.prompt (.ok plainOrder)),
      { s with orders := s.orders.turn asked.name })

/-- Asks for a stream. When the cues run out, streams open and stay open. -/
def start (s : Script) (key : FeedKey) : Cue (List StreamItem) × Script :=
  (((s.starts.part key).nextOnce?).getD (.prompt (.ok [])), { s with starts := s.starts.turn key })

/-- Asks the discovery handler for endorsements. -/
def discover (s : Script) : Cue (List Answer) × Script :=
  (s.discoveredEndorsements.next?.getD (.prompt (.ok [])),
    { s with discoveredEndorsements := s.discoveredEndorsements.turn })

/-- Makes a proposal to several peers at the same time. -/
def proposeAll (s : Script) (peers : List Peer) : List (Peer × Arrival Reply) × Script :=
  peers.foldl (fun (requests, s) p =>
    let (cue, s) := s.propose p.name
    (requests ++ [(p, cue.arrival)], s)) ([], s)

/-- Sends a proposal to its targets: how long it takes until all answers are there, and the
answers. -/
def endorse (s : Script) (targets : Targets) (limit : Duration) :
    (Nat × Except TransportError (List Answer)) × Script :=
  match targets with
  | .peers ps =>
    let (requests, s) := s.proposeAll ps
    ((Answer.collectTime limit requests, .ok (Answer.collect limit requests)), s)
  | .discovery _ =>
    let (cue, s) := s.discover
    ((cue.arrival.wait limit, cue.arrival.within "discovery" limit), s)

/-- A query that was carried through. -/
structure Answered where
  asked : List String
  elapsed : Nat
  result : Except TransactionFailure Bytes

/-- Carries a query through, one peer after the other; there are at most `count` more. -/
def pursue (limit : Duration) :
    Nat → Script → Chooser → InquiryStep → Answered → Answered × Chooser × Script
  | _, s, chooser, .done r, a => ({ a with result := r }, chooser, s)
  | 0, s, chooser, .ask _, a => (a, chooser, s)
  | count + 1, s, chooser, .ask inquiry, a =>
    let name := inquiry.asked.name
    let (cue, s) := s.propose name
    let (chooser, step) := inquiry.receive chooser (cue.arrival.within name limit)
    pursue limit count s chooser step
      { a with asked := a.asked ++ [name], elapsed := a.elapsed + cue.arrival.wait limit }

/-- Queries the peers of a list. -/
def query (s : Script) (chooser : Chooser) (peers : List Peer) (limit : Duration) :
    Answered × Chooser × Script :=
  let (chooser, step) := Inquiry.start chooser peers
  pursue limit peers.length s chooser step ⟨[], 0, .error .noQueryPeers⟩

end Script

end LedgerClient.Rehearsal
