import LedgerClient.Commit.Confirmation
import LedgerClient.Delivery.Session
import LedgerClient.Endorsement.Targets
import LedgerClient.Feed.Table
import LedgerClient.Ordering

/-!
# The state of a client

A client works on one channel for one identity. It holds the feeds, the sessions attached to them,
the registrations of listeners, the waits for confirmation and the calls under way. A call goes on
only in single moves, between which others may move; what it asks of the world is put into the
outbox, and whatever has something to do is put on the agenda.
-/

namespace LedgerClient

/-- What a listener is registered under. -/
inductive ListenerKey where
  | blocks (l : ListenerId)
  | events (chaincode : String) (l : ListenerId)
  | commit (l : ListenerId)
  deriving DecidableEq, Repr, Inhabited

/-- A session on a feed. -/
structure Attachment where
  feed : Nat
  session : Nat
  deriving DecidableEq, Repr, Inhabited

/-- An attachment that a call has made, and whether the feed's first attempt is over for it. -/
structure Link where
  attachment : Attachment
  attempted : Bool
  deriving DecidableEq, Repr

structure Invocation where
  id : TransactionId
  nonce : Bytes
  chaincode : String
  function : String
  args : List Bytes
  transient : List (String × Bytes)
  peers : Option (List Peer)
  organizations : Option (List String)
  quorum : Option Quorum
  deriving DecidableEq, Repr

def Invocation.inspect (inv : Invocation) : String :=
  Inspect.partialRecord "Transaction"
    [("chaincode_id", Inspect.quoted inv.chaincode), ("name", Inspect.quoted inv.function),
     ("transaction_id", inv.id.inspect),
     ("endorsing_peers", Inspect.option (fun ps => Inspect.list (ps.map Peer.inspect)) inv.peers),
     ("endorsing_orgs",
      Inspect.option (fun os => Inspect.list (os.map Inspect.quoted)) inv.organizations)]

/-- A wait for the confirmation of a transaction. -/
structure Wait where
  id : TransactionId
  quorum : Option Quorum
  limit : Duration
  /-- When the wait ends, once it has begun. -/
  deadline : Option Nat
  /-- The number of the mailbox that is registered as a listener. -/
  listener : Option Nat
  /-- The mailbox that is read, and the outcomes in it. -/
  mailbox : Option (Nat × List CommitOutcome)
  /-- Whether somebody still holds the wait. -/
  held : Bool
  deriving Repr

namespace Wait

/-- The outcomes in the mailbox. -/
def queued (w : Wait) : List CommitOutcome := (w.mailbox.map (·.2)).getD []

/-- The wait when the first outcomes have been taken out of its mailbox. -/
def drop (w : Wait) (taken : Nat) : Wait :=
  { w with mailbox := w.mailbox.map fun m => (m.1, m.2.drop taken) }

end Wait

/-- How a call ends. -/
inductive CallResult where
  | added
  | notAdded (e : ListenError)
  | listening
  | answered (r : Except TransactionFailure Bytes)
  | confirmed (r : Except TransactionFailure Unit)
  deriving Repr

/-- How a call goes on when its listener is attached. -/
inductive AfterLink where
  | added
  | listening
  | order (request : OrderRequest) (payload : Bytes) (wait : Nat)
  deriving Repr

/-- What a call waits for. -/
inductive Call where
  /-- The position of a checkpoint, before a listener is attached. -/
  | readingCheckpoint (key : ListenerKey) (options : ListenerOptions)
  /-- The first attempts of the feeds that a listener was attached to. -/
  | linking (key : ListenerKey) (links : List Link) (next : AfterLink)
  /-- The answers to a proposal. -/
  | endorsing (proposal : Proposal) (quorum : Option Quorum)
  /-- The answer of the ordering service. -/
  | ordering (request : OrderRequest) (payload : Bytes) (wait : Nat) (route : OrderRoute)
  /-- The outcomes of a commit. -/
  | confirming (wait : Nat) (quorum : Quorum) (tally : Tally) (payload : Option Bytes)
  /-- The answer of a peer to a query. -/
  | inquiring (proposal : Proposal) (inquiry : Inquiry)
  deriving Repr

/-- What a client asks of the world. -/
inductive Request where
  | openStream (feed : Nat) (peer : String) (kind : BlockKind) (start : Option Nat)
  | rest (feed : Nat) (interval : Duration)
  | ask (session : Nat) (q : Question)
  | readCheckpoint (call : Nat) (checkpointer : String)
  | propose (call : Nat) (targets : Targets) (p : Proposal)
  | query (call : Nat) (peer : Peer) (p : Proposal)
  | order (call : Nat) (route : OrderRoute) (r : OrderRequest)
  | wakeAt (call : Nat) (time : Nat)
  | finished (call : Nat) (r : CallResult)
  deriving Repr

/-- Something that may have a move to make. -/
inductive Actor where
  | call (i : Nat)
  | feed (i : Nat)
  | session (i : Nat)
  deriving DecidableEq, Repr

structure Client where
  channel : Channel
  identity : Identity
  options : Options
  /-- The time in milliseconds. -/
  clock : Nat
  table : FeedTable
  sessions : List Session
  registrations : List (ListenerKey × List Attachment)
  chooser : Chooser
  waits : List Wait
  /-- The number of the next mailbox. -/
  nextMailbox : Nat
  calls : List (Nat × Call)
  nextCall : Nat
  /-- Whether the application holds the client. -/
  held : Bool
  agenda : List Actor
  outbox : List Request

namespace Client

/-- A client that has done nothing. -/
def new (channel : Channel) (identity : Identity) (options : Options) : Client :=
  { channel, identity, options, clock := 0, table := .empty, sessions := [], registrations := []
    chooser := .new options.queryStrategy, waits := [], nextMailbox := 0, calls := [], nextCall := 0
    held := true, agenda := [], outbox := [] }

/-- Puts an actor on the agenda, unless it is there. -/
def wake (c : Client) (a : Actor) : Client :=
  if a ∈ c.agenda then c else { c with agenda := c.agenda ++ [a] }

/-- Asks something of the world. -/
def send (c : Client) (r : Request) : Client := { c with outbox := c.outbox ++ [r] }

/-- A call that is under way. -/
def call? (c : Client) (i : Nat) : Option Call := (c.calls.find? (·.1 = i)).map (·.2)

/-- Says what a call waits for now. -/
def setCall (c : Client) (i : Nat) (call : Call) : Client :=
  { c with calls := c.calls.filter (·.1 ≠ i) ++ [(i, call)] }

/-- Takes the number of a new call. -/
def newCall (c : Client) : Client × Nat := ({ c with nextCall := c.nextCall + 1 }, c.nextCall)

/-- The quorum of the options. -/
def defaultQuorum (c : Client) : Option Quorum :=
  c.options.commitPolicy.quorum? c.channel c.identity.organization

/-- The peers that a query turns to unless the caller names some. -/
def queryPeers (c : Client) : List Peer := c.channel.localQueryPeers c.identity.organization

/-- Whether a call waits for the first attempt of a feed. -/
def awaits (feed : Nat) : Call → Bool
  | .linking _ links _ => links.any fun l => l.attachment.feed = feed && !l.attempted
  | _ => false

/-- Wakes the calls that wait for the first attempt of a feed. -/
def announce (c : Client) (feed : Nat) : Client :=
  (c.calls.filter fun entry => awaits feed entry.2).foldl (fun c entry => c.wake (.call entry.1)) c

def modifySession (c : Client) (i : Nat) (f : Session → Session) : Client :=
  { c with sessions := c.sessions.modify i f }

/-- Hands a delivery to a session; a removed one does not take notice. -/
def deliver (c : Client) (session : Nat) (d : Delivery) : Client :=
  match c.sessions[session]? with
  | some s =>
    if s.removed then c else (c.modifySession session (·.deliver d)).wake (.session session)
  | none => c

/-- Hands a delivery to every session of a feed. -/
def deliverAll (c : Client) (f : Feed) (d : Delivery) : Client :=
  f.sessions.foldl (fun c s => c.deliver s d) c

def spawn (c : Client) (audience : Audience) (floor : Option Nat) : Client × Nat :=
  let i := c.sessions.length
  ({ c with sessions := c.sessions ++ [Session.new audience floor] }.wake (.session i), i)

/-- Attaches a session to the shared feed of a peer, or to a feed of its own that begins at
`start`. -/
def attachTo (c : Client) (peer : Peer) (kind : BlockKind) (start : Option Nat) (session : Nat) :
    Client × Attachment :=
  let (table, feed) :=
    match start with
    | some n => c.table.acquireReplay c.options.reconnect peer kind n session
    | none => c.table.acquire c.options.reconnect peer kind session
  let c := { c with table }
  match table.feed? feed with
  | some f => (if f.phase = .launching then c.wake (.feed feed) else c, ⟨feed, session⟩)
  | none => (c, ⟨feed, session⟩)

/-- Wakes the calls that wait for a feed if it has been stopped. -/
def announceStop (c : Client) (feed : Nat) : Client :=
  match c.table.feed? feed with
  | some f => if f.phase = .stopped then c.announce feed else c
  | none => c

/-- Removes a session and takes it off its feed. -/
def release (c : Client) (a : Attachment) : Client :=
  let c := c.modifySession a.session Session.close
  { c with table := c.table.release a.feed a.session }.announceStop a.feed

/-- Removes sessions and takes them off their feeds. -/
def releaseAll (c : Client) (attachments : List Attachment) : Client := attachments.foldl release c

end Client

end LedgerClient
