import LedgerClient.Duration
import LedgerClient.Ledger.Block
import LedgerClient.Ledger.TransactionId

/-!
# Failures

What can go wrong between the client and the nodes of a channel, with one text for each cause.
Which failures leave the fate of a transaction open is said by `TransactionFailure.isTimeout`.
-/

namespace LedgerClient

/-- A failure to reach a node or to keep a stream from it. -/
inductive TransportError where
  | unreachable (target message : String)
  | timedOut (target : String) (limit : Duration)
  | streamBroken (peer message : String)
  | discoveryFailed (message : String)
  deriving DecidableEq, Repr, Inhabited

def TransportError.message : TransportError → String
  | .unreachable target message => "Connection error for " ++ target ++ ": " ++ message
  | .timedOut target limit => "Request to " ++ target ++ " timed out after " ++ limit.text
  | .streamBroken peer message => "Event stream error from " ++ peer ++ ": " ++ message
  | .discoveryFailed message => "Discovery error: " ++ message

/-- The failure of a peer's stream as its listeners are told. -/
structure PeerFault where
  peer : String
  reason : String
  deriving DecidableEq, Repr, Inhabited

def PeerFault.message (f : PeerFault) : String := "peer=" ++ f.peer ++ ", message=" ++ f.reason

/-- A failure to read or to write a checkpoint. -/
inductive CheckpointError where
  | storage (reason : String)
  | malformed (reason : String)
  deriving DecidableEq, Repr, Inhabited

def CheckpointError.message : CheckpointError → String
  | .storage reason => "Checkpoint I/O error: " ++ reason
  | .malformed reason => "Checkpoint serialization error: " ++ reason

/-- A failure to register a listener. -/
inductive ListenError where
  | noEventPeers (channel : String)
  | checkpoint (cause : CheckpointError)
  deriving DecidableEq, Repr, Inhabited

def ListenError.message : ListenError → String
  | .noEventPeers channel => "No event source peers available on channel " ++ channel
  | .checkpoint cause => "Failed to read listener checkpoint: " ++ cause.message

/-- Why one peer's answer to a proposal is of no use. -/
structure PeerRefusal where
  peer : String
  status : Option Int
  reason : String
  deriving DecidableEq, Repr, Inhabited

def PeerRefusal.message (r : PeerRefusal) : String :=
  let status :=
    match r.status with
    | some s => toString s
    | none => "none"
  "peer=" ++ r.peer ++ ", status=" ++ status ++ ", message=" ++ r.reason

/-- A part that a proposal lacks. -/
inductive ProposalGap where
  | channel
  | chaincode
  | function
  | transaction
  deriving DecidableEq, Repr

def ProposalGap.message : ProposalGap → String
  | .channel => "channel is not set"
  | .chaincode => "chaincode id is not set"
  | .function => "function name is not set"
  | .transaction => "transaction id is not set"

/-- Why a transaction was not confirmed or a query not answered. -/
inductive TransactionFailure where
  | badProposal (reason : String)
  | noEndorsers
  | noQueryPeers
  | noOrderers (id : TransactionId)
  | notEndorsed (refusals : List PeerRefusal)
  | queryFailed (refusals : List PeerRefusal)
  | transport (cause : TransportError)
  | rejected (id : TransactionId) (status reason : String)
  | invalidated (id : TransactionId) (peer : String) (code : ValidationCode)
  | unconfirmed (id : TransactionId) (faults : List PeerFault)
  | confirmationTimedOut (id : TransactionId) (limit : Duration) (pending : List String)
  | notListening (cause : ListenError)
  | internal (reason : String)
  deriving DecidableEq, Repr, Inhabited

namespace TransactionFailure

/-- Texts on lines of their own, indented by four blanks. -/
def lines (texts : List String) : String := "\n    " ++ "\n    ".intercalate texts

/-- The text that sums up why nobody endorsed. -/
def notEndorsedMessage (refusals : List PeerRefusal) : String :=
  "No valid responses from any peers. " ++ toString refusals.length ++ " peer error responses:" ++
    lines (refusals.map PeerRefusal.message)

def message : TransactionFailure → String
  | .badProposal reason => "Invalid proposal: " ++ reason
  | .noEndorsers => "No endorsing peers available for the transaction"
  | .noQueryPeers => "No query peers available for the transaction"
  | .noOrderers id => "No orderers available to commit transaction " ++ id.text
  | .notEndorsed refusals => notEndorsedMessage refusals
  | .queryFailed refusals =>
    "Query failed. " ++ toString refusals.length ++ " peer error responses:" ++
      lines (refusals.map PeerRefusal.message)
  | .transport cause => "Gateway error: " ++ cause.message
  | .rejected id status reason =>
    "Commit of transaction " ++ id.text ++ " rejected by orderer: status=" ++ status ++
      ", message=" ++ reason
  | .invalidated id peer code =>
    "Transaction " ++ id.text ++ " committed as invalid on " ++ peer ++ ": " ++ code.text
  | .unconfirmed id faults =>
    "Commit of transaction " ++ id.text ++ " not confirmed by any peer:" ++
      lines (faults.map PeerFault.message)
  | .confirmationTimedOut id limit pending =>
    "Timed out after " ++ limit.text ++ " waiting for commit of transaction " ++ id.text ++
      " from peers: " ++ ", ".intercalate pending
  | .notListening cause => "Failed to listen for commit events: " ++ cause.message
  | .internal reason => "Internal error: " ++ reason

/-- Whether a request or the wait for confirmation ran out of time. -/
def isTimeout : TransactionFailure → Bool
  | .confirmationTimedOut .. => true
  | .transport (.timedOut ..) => true
  | _ => false

end TransactionFailure

end LedgerClient
