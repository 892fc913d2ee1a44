import LedgerClient.Endorsement.Collect

/-!
# Answering a query

A query needs one answer. The chooser says where in a list of peers a call begins: with the peer
that answered last, or with the next position in rotation. The call then goes round the list until
a peer answers; only a peer that cannot be reached is passed over.
-/

namespace LedgerClient

/-- Where calls begin. -/
inductive QueryStrategy where
  /-- With the peer that answered last, while it is there. -/
  | sticky
  /-- With the position after the one before. -/
  | roundRobin
  deriving DecidableEq, Repr, Inhabited

def QueryStrategy.text : QueryStrategy → String
  | .sticky => "singleSticky"
  | .roundRobin => "roundRobin"

def QueryStrategy.ofText? (s : String) : Option QueryStrategy :=
  if s = "singleSticky" then some .sticky else if s = "roundRobin" then some .roundRobin else none

/-- What is remembered from one call to the next. -/
structure Chooser where
  strategy : QueryStrategy
  answered : Option String
  started : Nat
  deriving DecidableEq, Repr

namespace Chooser

/-- Before any call. -/
def new (strategy : QueryStrategy) : Chooser := ⟨strategy, none, 0⟩

/-- The position where a call on `peers` begins. -/
def start (c : Chooser) (peers : List Peer) : Nat :=
  match c.strategy with
  | .sticky =>
    match c.answered with
    | none => 0
    | some name => (peers.findIdx? fun p => p.name = name).getD 0
  | .roundRobin => c.started % peers.length

/-- A list turned so that position `k` comes first. -/
def rotate (peers : List Peer) (k : Nat) : List Peer := peers.drop k ++ peers.take k

/-- The peers in the order in which a call turns to them. -/
def candidates (c : Chooser) (peers : List Peer) : List Peer := rotate peers (c.start peers)

/-- A call begins: the rotation moves on, around the end of a sixty-four bit counter. -/
def begin (c : Chooser) : Chooser :=
  match c.strategy with
  | .sticky => c
  | .roundRobin => { c with started := (c.started + 1) % Nat.pow 2 64 }

/-- A peer answered. -/
def remember (c : Chooser) (p : Peer) : Chooser :=
  match c.strategy with
  | .sticky => { c with answered := some p.name }
  | .roundRobin => c

end Chooser

/-- A query under way: the peer that was asked, those that are left, and the refusals so far. -/
structure Inquiry where
  asked : Peer
  left : List Peer
  refusals : List PeerRefusal
  deriving DecidableEq, Repr

/-- What a step of a query leads to. -/
inductive InquiryStep where
  | ask (i : Inquiry)
  | done (result : Except TransactionFailure Bytes)

namespace Inquiry

/-- Starts a query on the peers of a list, in the chooser's order. -/
def start (c : Chooser) (peers : List Peer) : Chooser × InquiryStep :=
  if peers.isEmpty then (c, .done (.error .noQueryPeers))
  else
    match c.candidates peers with
    | [] => (c.begin, .done (.error (.queryFailed [])))
    | p :: ps => (c.begin, .ask ⟨p, ps, []⟩)

/-- Takes the result of the request to the peer that was asked. A reply ends the query. -/
def receive (c : Chooser) (i : Inquiry) (result : Except TransportError Reply) :
    Chooser × InquiryStep :=
  let answer := Answer.ofResult i.asked.name result
  match result with
  | .ok _ =>
    (c.remember i.asked,
      .done (if answer.isValid then .ok answer.payload
        else .error (.queryFailed (i.refusals ++ [answer.refusal]))))
  | .error _ =>
    let refusals := i.refusals ++ [answer.refusal]
    match i.left with
    | [] => (c, .done (.error (.queryFailed refusals)))
    | p :: ps => (c, .ask ⟨p, ps, refusals⟩)

end Inquiry

end LedgerClient
