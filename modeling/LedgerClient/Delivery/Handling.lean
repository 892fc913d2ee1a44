import LedgerClient.Delivery.Notice

/-!
# How a delivery is handled

Handling one delivery is a plan of questions to the checkpointer and calls of the listener, each of
which may take time. A plan says what is asked next and how it goes on with the answer, so that
whoever carries it out may stop, be slow, or find the session removed between any two steps.

* A block listener is told of a block unless the checkpoint is past it; when the call succeeds the
  checkpoint moves past the block.
* A contract listener is told of the matching events of each valid transaction, unless the
  checkpoint has the transaction's id for this block. The id is recorded once all of its events
  were taken; the checkpoint moves past the block once no transaction is left over.
* A commit listener is told of the first transaction with its id.
-/

namespace LedgerClient

/-- The steps that are left of handling one delivery. -/
inductive Plan where
  /-- Nothing is left. -/
  | finished
  /-- Asks for the next block of the checkpoint; `none` answers that it cannot be read. -/
  | askNext (go : Option (Option Nat) → Plan)
  /-- Asks for the ids of the checkpoint; `none` answers that they cannot be read. -/
  | askDelivered (go : Option (List String) → Plan)
  /-- Changes the checkpoint; a change that fails is passed over. -/
  | change (c : CheckpointChange) (go : Plan)
  /-- Calls the listener; the answer says whether the call succeeded. -/
  | tell (n : Notice) (go : Bool → Plan)
  /-- Ends here if the session has been removed. -/
  | unlessRemoved (go : Plan)

/-- Which events a contract listener is told of. -/
structure EventFilter where
  chaincode : String
  name : Option String
  kind : BlockKind
  deriving DecidableEq, Repr, Inhabited

namespace EventFilter

/-- Whether an event is one of those asked for. -/
def accepts (f : EventFilter) (e : ChaincodeEvent) : Bool :=
  e.chaincode = f.chaincode && match f.name with | none => true | some name => e.name = name

/-- An event as the listener is told of it; an outline carries no payload. -/
def notice (f : EventFilter) (block : Nat) (t : BlockTransaction) (e : ChaincodeEvent) :
    EventNotice :=
  { chaincode := e.chaincode, name := e.name
    payload := match f.kind with | .filtered => none | .full | .confidential => e.payload
    transaction := t.id, block, confidential := t.confidential }

/-- The events of a transaction that the listener is told of. -/
def notices (f : EventFilter) (block : Nat) (t : BlockTransaction) : List EventNotice :=
  if t.code.isValid then (t.events.filter f.accepts).map (f.notice block t) else []

end EventFilter

namespace Plan

/-- Changes the checkpoint if there is one. -/
def changeIf (checkpointed : Bool) (c : CheckpointChange) (go : Plan) : Plan :=
  if checkpointed then .change c go else go

/-- A block for a block listener. -/
def ofBlock (checkpointed : Bool) (peer : String) (b : Block) : Plan :=
  let call := tell (.block ⟨peer, b⟩) fun ok =>
    if ok then changeIf checkpointed (.moveTo (b.number + 1)) .finished else .finished
  if checkpointed then
    askNext fun
      | some (some next) => if b.number < next then .finished else call
      | some none | none => call
  else call

/-- The events of one transaction; each call needs that the session is still there. -/
def ofNotices (ok : Bool) (go : Bool → Plan) : List EventNotice → Plan
  | [] => go ok
  | n :: ns => .unlessRemoved (.tell (.event n) fun taken => ofNotices (ok && taken) go ns)

/-- The transactions of a block that the checkpoint does not have. -/
def ofTransactions (checkpointed : Bool) (f : EventFilter) (block : Nat) (delivered : List String) :
    Bool → List BlockTransaction → Plan
  | complete, [] =>
    if complete then .unlessRemoved (changeIf checkpointed (.moveTo (block + 1)) .finished)
    else .finished
  | complete, t :: ts =>
    if (f.notices block t).isEmpty || t.id ∈ delivered then
      ofTransactions checkpointed f block delivered complete ts
    else
      ofNotices true
        (fun ok =>
          if ok then
            changeIf checkpointed (.record t.id)
              (ofTransactions checkpointed f block delivered complete ts)
          else ofTransactions checkpointed f block delivered false ts)
        (f.notices block t)

/-- A block for a contract listener. -/
def ofContract (checkpointed : Bool) (f : EventFilter) (b : Block) : Plan :=
  let enter (delivered : List String) :=
    ofTransactions checkpointed f b.number delivered true b.transactions
  if checkpointed then
    askNext fun
      | some (some next) =>
        if b.number < next then .finished
        else if next = b.number then askDelivered fun ids => enter (ids.getD [])
        else .change (.moveTo b.number) (enter [])
      | some none => .change (.moveTo b.number) (enter [])
      | none => enter []
  else enter []

/-- A block for a commit listener. -/
def ofCommit (peer id : String) (b : Block) : Plan :=
  match b.transactions.find? (·.id = id) with
  | none => .finished
  | some t =>
    .unlessRemoved (.tell (.commit (.ok ⟨t.id, peer, t.code, b.number⟩)) fun _ => .finished)

/-- A fault for a block or contract listener. -/
def ofFault (f : PeerFault) : Plan := .tell (.fault f) fun _ => .finished

/-- A fault for a commit listener: it is an outcome like any other. -/
def ofCommitFault (f : PeerFault) : Plan := .tell (.commit (.error f)) fun _ => .finished

end Plan

end LedgerClient
