import LedgerClient.Endorsement.Answer
import LedgerClient.Ledger.Channel

/-!
# Sending a transaction for ordering

An endorsed transaction goes through the discovery handler, if there is one and it may be used;
its answer or its failure is final. Otherwise the orderers are asked one after the other until one
answers. The first answer counts, whatever its status.
-/

namespace LedgerClient

/-- A transaction with its endorsements. -/
structure OrderRequest where
  proposal : Proposal
  endorsements : List Answer
  deriving DecidableEq, Repr

/-- What the ordering service answers. -/
structure OrderReply where
  status : String
  message : String
  deriving DecidableEq, Repr, Inhabited

/-- The status that means acceptance. -/
def OrderReply.accepted : String := "SUCCESS"

/-- Whether a transaction was accepted. -/
def OrderReply.isAccepted (r : OrderReply) : Bool := r.status = accepted

/-- Where a transaction was sent for ordering, and where it may still be sent. -/
inductive OrderRoute where
  | discovery
  | orderer (asked : Orderer) (left : List Orderer)
  deriving DecidableEq, Repr

/-- What a step of ordering leads to. -/
inductive OrderStep where
  | ask (route : OrderRoute)
  | done (result : Except TransactionFailure OrderReply)

namespace OrderRoute

/-- The name under which a timeout is reported. -/
def target : OrderRoute → String
  | .discovery => "discovery"
  | .orderer asked _ => asked.name

/-- Where a transaction is sent first. -/
def start (c : Channel) (discoveryAllowed : Bool) (id : TransactionId) : OrderStep :=
  if discoveryAllowed && c.discovery then .ask .discovery
  else
    match c.orderers with
    | [] => .done (.error (.noOrderers id))
    | o :: os => .ask (.orderer o os)

/-- Takes the result of the request that was sent. -/
def receive (route : OrderRoute) : Except TransportError OrderReply → OrderStep
  | .ok reply => .done (.ok reply)
  | .error e =>
    match route with
    | .orderer _ (o :: os) => .ask (.orderer o os)
    | .orderer _ [] | .discovery => .done (.error (.transport e))

end OrderRoute

end LedgerClient
