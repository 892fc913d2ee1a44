import LedgerClient.Checkpoint.State
import LedgerClient.Commit.Tally

/-!
# What listeners are told

A block listener is told of blocks, a contract listener of the events of valid transactions, a
commit listener of the outcome of one transaction on one peer. All of them are told when the feed
they listen to fails.
-/

namespace LedgerClient

/-- A block as a listener is told of it. -/
structure BlockNotice where
  peer : String
  block : Block
  deriving DecidableEq, Repr, Inhabited

/-- A chaincode event as a listener is told of it. -/
structure EventNotice where
  chaincode : String
  name : String
  payload : Option Bytes
  transaction : String
  block : Nat
  confidential : Option Bytes
  deriving DecidableEq, Repr, Inhabited

/-- What a listener is told. -/
inductive Notice where
  | block (n : BlockNotice)
  | event (n : EventNotice)
  | commit (o : CommitOutcome)
  | fault (f : PeerFault)
  deriving Repr, Inhabited

/-- What a feed hands to a session: a block from a peer, or the fault of the feed. -/
inductive Delivery where
  | block (peer : String) (b : Block)
  | fault (f : PeerFault)
  deriving DecidableEq, Repr, Inhabited

/-- How a block or contract listener wants to be told. A checkpointer is known by its name. -/
structure ListenerOptions where
  kind : BlockKind := .full
  startBlock : Option Nat := none
  checkpointer : Option String := none
  eventName : Option String := none
  deriving DecidableEq, Repr, Inhabited

def ListenerOptions.inspect (o : ListenerOptions) : String :=
  Inspect.record "ListenerOptions"
    [("block_type", o.kind.inspect), ("start_block", Inspect.option toString o.startBlock),
     ("checkpointer", Inspect.truth o.checkpointer.isSome),
     ("event_name", Inspect.option Inspect.quoted o.eventName)]

end LedgerClient
