import LedgerClient.Client.Calls

/-!
# The moves of a client

Everything that can happen to a client, each as one move: what the application asks for, what the
world answers, and what feeds, sessions and calls do next. Between two moves anything else may
move. `Client.apply` gives the client after a move; a move that does not fit the state changes
nothing.
-/

namespace LedgerClient

namespace Client

/-! ## Feeds -/

/-- A feed asks for a stream, at first or after a rest. -/
def requestStream (c : Client) (i : Nat) : Client :=
  match c.table.feed? i with
  | none => c
  | some f =>
    match f.phase with
    | .launching | .resting _ =>
      { c with table := c.table.modify i Feed.request }.send
        (.openStream i f.peer.name f.kind f.resumePosition)
    | _ => c

/-- The stream that a feed asked for is open. -/
def streamOpened (c : Client) (i : Nat) : Client :=
  match c.table.feed? i with
  | none => c
  | some f =>
    if f.phase = .connecting then { c with table := c.table.modify i Feed.opened }.announce i else c

/-- A feed rests before its next attempt. -/
def restFeed (c : Client) (i : Nat) (f : Feed) (failedStart : Bool) : Client :=
  { c with table := c.table.modify i (Feed.rest c.options.reconnect failedStart) }.send
    (.rest i f.interval)

/-- The stream that a feed asked for could not be opened. -/
def streamRefused (c : Client) (i : Nat) (e : TransportError) : Client :=
  match c.table.feed? i with
  | none => c
  | some f =>
    if f.phase = .connecting then
      ((c.restFeed i f true).announce i).deliverAll f (.fault ⟨f.peer.name, e.message⟩)
    else c

def blockArrived (c : Client) (i : Nat) (b : Block) : Client :=
  match c.table.feed? i with
  | none => c
  | some f =>
    if f.phase = .streaming then
      { c with table := c.table.modify i (Feed.advance c.options.reconnect b.number) }.deliverAll f
        (.block f.peer.name b)
    else c

def streamBroke (c : Client) (i : Nat) (e : TransportError) : Client :=
  match c.table.feed? i with
  | none => c
  | some f =>
    if f.phase = .streaming then
      (c.restFeed i f false).deliverAll f (.fault ⟨f.peer.name, e.message⟩)
    else c

def streamEnded (c : Client) (i : Nat) : Client :=
  match c.table.feed? i with
  | none => c
  | some f => if f.phase = .streaming then c.restFeed i f false else c

/-! ## Sessions -/

/-- Asks what a session waits to know. An outcome for a mailbox is put into it at once. -/
def serve (c : Client) (i : Nat) : Client :=
  match (c.sessions[i]?).bind Session.question? with
  | none => c
  | some (.tell (.mailbox n) (.commit o)) =>
    (c.post n o).modifySession i (·.answer (.told true))
  | some q => c.send (.ask i q)

/-- A session takes its next delivery. -/
def takeNext (c : Client) (i : Nat) : Client :=
  match c.sessions[i]? with
  | none => c
  | some s => if s.isReady then (c.modifySession i Session.take).serve i else c

/-- A session goes on with the answer to its question. -/
def answer (c : Client) (i : Nat) (r : Response) : Client :=
  match c.sessions[i]? with
  | none => c
  | some s => if s.expects r then (c.modifySession i (·.answer r)).serve i else c

/-! ## The application -/

/-- The application lets go of the client. -/
def letGo (c : Client) : Client := { c with held := false }.tearDownIfUnused

/-- The application lets go of a wait. -/
def letGoOfWait (c : Client) (w : Nat) : Client := (c.dropWait w).tearDownIfUnused

def tick (c : Client) (millis : Nat) : Client := { c with clock := c.clock + millis }

end Client

/-- What can happen to a client. -/
inductive Move where
  | submit (inv : Invocation)
  | evaluate (inv : Invocation)
  | addListener (s : Subject) (o : ListenerOptions)
  | addCommitListener (l : ListenerId) (peers : List Peer) (id : String)
  | remove (key : ListenerKey)
  | close
  | letGo
  | newWait (id : TransactionId) (quorum : Option Quorum) (limit : Duration)
  | listen (wait : Nat)
  | awaitConfirmation (wait : Nat)
  | cancelWait (wait : Nat)
  | letGoOfWait (wait : Nat)
  | abandon (call : Nat)
  | checkpointRead (call : Nat) (r : Except CheckpointError (Option Nat))
  | endorsed (call : Nat) (r : Except TransportError (List Answer))
  | ordered (call : Nat) (r : Except TransportError OrderReply)
  | inquired (call : Nat) (r : Except TransportError Reply)
  | resume (call room : Nat)
  | requestStream (feed : Nat)
  | streamOpened (feed : Nat)
  | streamRefused (feed : Nat) (e : TransportError)
  | blockArrived (feed : Nat) (b : Block)
  | streamBroke (feed : Nat) (e : TransportError)
  | streamEnded (feed : Nat)
  | takeNext (session : Nat)
  | answer (session : Nat) (r : Response)
  | tick (millis : Nat)

def Client.apply (c : Client) : Move → Client
  | .submit inv => c.submit inv
  | .evaluate inv => c.evaluate inv
  | .addListener s o => c.addListener s o
  | .addCommitListener l peers id => c.addCommitListener l peers id
  | .remove key => c.unregister key
  | .close => c.close
  | .letGo => c.letGo
  | .newWait id quorum limit => (c.newWait id quorum limit).1
  | .listen w => c.listen w
  | .awaitConfirmation w => c.awaitConfirmation w
  | .cancelWait w => c.cancelWait w
  | .letGoOfWait w => c.letGoOfWait w
  | .abandon i => c.abandon i
  | .checkpointRead i r => c.checkpointRead i r
  | .endorsed i r => c.endorsed i r
  | .ordered i r => c.ordered i r
  | .inquired i r => c.inquired i r
  | .resume i room => c.resume i room
  | .requestStream i => c.requestStream i
  | .streamOpened i => c.streamOpened i
  | .streamRefused i e => c.streamRefused i e
  | .blockArrived i b => c.blockArrived i b
  | .streamBroke i e => c.streamBroke i e
  | .streamEnded i => c.streamEnded i
  | .takeNext i => c.takeNext i
  | .answer i r => c.answer i r
  | .tick millis => c.tick millis

end LedgerClient
