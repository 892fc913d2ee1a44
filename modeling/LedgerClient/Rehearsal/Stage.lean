import LedgerClient.Client.Moves
import LedgerClient.Rehearsal.Script

/-!
# The stage

A client on stage: the script that the network follows, the listeners of the application and how
they behave, the checkpointers, the open streams, and what becomes due at what time. Everything
that could be seen from outside is put on record.
-/

namespace LedgerClient.Rehearsal

/-- How a listener of the application behaves when it is called. The lists hold the keys of the
notices it applies to: a block's number, the transaction of an event, the peer of an outcome, or
a star for any. -/
structure Behaviour where
  /-- It answers that it failed. -/
  fails : List String
  /-- It removes its own registration. -/
  removes : List String
  /-- The milliseconds that a call takes. -/
  delay : Option Nat
  /-- It takes no notice of faults. -/
  quiet : Bool

/-- A listener that takes everything at once. -/
def Behaviour.plain : Behaviour := ⟨[], [], none, false⟩

/-- Whether a list of keys names a key. -/
def names (keys : List String) (key : String) : Bool := key ∈ keys || "*" ∈ keys

/-- The calls of a checkpointer. -/
inductive KeeperCall where
  | next
  | delivered
  | moveTo
  | record
  deriving DecidableEq

def KeeperCall.text : KeeperCall → String
  | .next => "blockNumber"
  | .delivered => "transactionIds"
  | .moveTo => "setBlockNumber"
  | .record => "addTransactionId"

def KeeperCall.every : List KeeperCall := [.next, .delivered, .moveTo, .record]

def KeeperCall.ofText? (s : String) : Option KeeperCall := every.find? fun c => c.text = s

def KeeperCall.failure (c : KeeperCall) : CheckpointError := .storage (c.text ++ " failed")

/-- A checkpoint in memory, and the calls that fail. -/
structure Keeper where
  checkpoint : Checkpoint
  failing : List KeeperCall

/-- The open stream of a feed. -/
structure Stream where
  feed : Nat
  items : List StreamItem
  /-- Nothing more can be sent on it. -/
  closed : Bool

/-- Something that becomes due for an actor. -/
inductive Signal where
  | stream (r : Except TransportError (List StreamItem))
  | rested
  | endorsed (r : Except TransportError (List Answer))
  | ordered (r : Except TransportError OrderAct)
  | inquired (r : Except TransportError Reply)
  | deadline
  /-- A listener's call has taken its time. -/
  | called (listener : String) (n : Notice)

/-- A signal, and when it is due. -/
structure Timer where
  due : Nat
  actor : Actor
  signal : Signal

/-- What a listener was seen to do. -/
inductive Happening where
  | told (n : Notice)
  | delayed

/-- To whom a proposal was sent. -/
inductive Recipient where
  | peer (name : String)
  | discovery (organizations : Option (List String))

/-- What was seen from outside, in order. -/
structure Record where
  happenings : List (String × Happening)
  changes : List (String × CheckpointChange)
  proposals : List (Recipient × Proposal)
  orders : List (OrderRoute × OrderRequest)
  starts : List (FeedKey × Option Nat)
  ends : List (Nat × CallResult)

/-- Nothing was seen. -/
def Record.blank : Record := ⟨[], [], [], [], [], []⟩

/-- A client on stage. -/
structure Stage where
  client : Client
  script : Script
  behaviours : List (String × Behaviour)
  keepers : List (String × Keeper)
  streams : List Stream
  timers : List Timer
  /-- The signals that are due and not yet taken. -/
  due : List (Actor × Signal)
  /-- The actor that moves. -/
  current : Option Actor
  /-- The labels of the transactions, latest first. -/
  labels : List (String × TransactionId)
  /-- The number of nonces that were drawn. -/
  nonces : Nat
  record : Record

namespace Stage

/-- A client before the first step. -/
def new (client : Client) (script : Script) (behaviours : List (String × Behaviour))
    (keepers : List (String × Keeper)) : Stage :=
  ⟨client, script, behaviours, keepers, [], [], [], none, [], 0, .blank⟩

/-! ## Transactions -/

/-- The bytes of a counter, lowest last. -/
def counterBytes : Nat → Nat → Bytes
  | 0, _ => []
  | width + 1, n => counterBytes width (n / 256) ++ [UInt8.ofNat n]

/-- Draws a nonce and labels the transaction that it determines. -/
def label (s : Stage) (name : String) : Stage × TransactionId × Bytes :=
  let nonce := counterBytes TransactionId.nonceLength s.nonces
  let id := TransactionId.ofNonce nonce s.client.identity.credentials
  ({ s with nonces := s.nonces + 1, labels := (name, id) :: s.labels }, id, nonce)

/-- The mark that labels begin with. -/
def labelMark : String := "$tx:"

/-- A transaction id as a script writes it: a label stands for the transaction's id, and the bare
mark for the transaction being ordered. -/
def resolve (s : Stage) (ordered : Option TransactionId) (id : String) : String :=
  if id = "$tx" then (ordered.map (·.text)).getD id
  else
    match s.labels.find? fun l => labelMark ++ l.1 = id with
    | some l => l.2.text
    | none => id

/-- A block with its labels resolved. -/
def resolveBlock (s : Stage) (ordered : Option TransactionId) (b : Block) : Block :=
  { b with transactions := b.transactions.map fun t => { t with id := s.resolve ordered t.id } }

/-! ## Streams -/

/-- Whether a stream can be sent on: it is not closed and its feed still reads it. -/
def isOpen (s : Stage) (stream : Stream) : Bool :=
  !stream.closed &&
    match s.client.table.feed? stream.feed with
    | some f => f.phase = .streaming
    | none => false

/-- Whether a stream comes from a peer and brings a kind of block. -/
def bears (s : Stage) (key : FeedKey) (stream : Stream) : Bool :=
  match s.client.table.feed? stream.feed with
  | some f => f.peer.name = key.peer && f.kind = key.kind
  | none => false

/-- The number of open streams for a key. -/
def openCount (s : Stage) (key : FeedKey) : Nat :=
  (s.streams.filter fun t => s.isOpen t && s.bears key t).length

/-- Sends an item on every open stream for a key. -/
def sendItem (s : Stage) (key : FeedKey) (item : StreamItem) : Stage :=
  let reached := s.streams.filter fun t => s.isOpen t && s.bears key t
  let streams := s.streams.map fun t =>
    if s.isOpen t && s.bears key t then
      { t with items := t.items ++ [item], closed := t.closed || item.isLast }
    else t
  { s with
    streams
    client := reached.foldl (fun c t => c.wake (.feed t.feed)) s.client }

/-- Opens the stream of a feed, in place of an earlier one. -/
def openStream (s : Stage) (feed : Nat) (items : List StreamItem) : Stage :=
  { s with
    streams := s.streams.filter (·.feed ≠ feed) ++ [⟨feed, items, items.any (·.isLast)⟩] }

/-- The next item of the stream of a feed. -/
def nextItem? (s : Stage) (feed : Nat) : Option StreamItem :=
  (s.streams.find? (·.feed = feed)).bind (·.items.head?)

/-- Takes the next item off the stream of a feed. -/
def dropItem (s : Stage) (feed : Nat) : Stage :=
  { s with
    streams := s.streams.map fun t =>
      if t.feed = feed then { t with items := t.items.tail } else t }

/-! ## Checkpointers -/

def keeper? (s : Stage) (name : String) : Option Keeper :=
  (s.keepers.find? (·.1 = name)).map (·.2)

def modifyKeeper (s : Stage) (name : String) (f : Keeper → Keeper) : Stage :=
  { s with keepers := s.keepers.map fun k => if k.1 = name then (k.1, f k.2) else k }

/-- What a checkpointer answers to a call that reads, unless it fails. -/
def read {α : Type} (s : Stage) (name : String) (call : KeeperCall) (f : Checkpoint → α) :
    Option α :=
  match s.keeper? name with
  | none => none
  | some k => if call ∈ k.failing then none else some (f k.checkpoint)

/-- The call that makes a change. -/
def changeCall : CheckpointChange → KeeperCall
  | .moveTo _ => .moveTo
  | .record _ => .record

/-- Makes a change, unless the call fails. -/
def change (s : Stage) (name : String) (c : CheckpointChange) : Stage :=
  match s.keeper? name with
  | none => s
  | some k =>
    if changeCall c ∈ k.failing then s
    else
      let s := s.modifyKeeper name fun k => { k with checkpoint := k.checkpoint.apply c }
      { s with record.changes := s.record.changes ++ [(name, c)] }

end Stage

end LedgerClient.Rehearsal
