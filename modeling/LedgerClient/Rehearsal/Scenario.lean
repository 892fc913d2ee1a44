import LedgerClient.Rehearsal.Play

/-!
# Scenarios

A scenario is a network with its script, the listeners and checkpointers of an application, and
the steps that the application takes. After each step the stage settles; only `advance` lets time
pass. Each step yields a report of its outcome, of the calls that came to their end, and of what
was seen meanwhile.
-/

namespace LedgerClient.Rehearsal

/-- An invocation that has not been given an id. -/
structure Job where
  label : String
  chaincode : String
  function : String
  args : List Bytes
  transient : List (String × Bytes)
  peers : Option (List Peer)
  organizations : Option (List String)
  quorum : Option Quorum

/-- The quorum that a handler waits for. -/
inductive HandlerQuorum where
  | none
  /-- The quorum of the client's options. -/
  | usual
  | given (q : Quorum)

/-- What an application does. -/
inductive Step where
  | submit (j : Job)
  | evaluate (j : Job)
  | addBlocks (listener : String) (o : ListenerOptions)
  | addEvents (listener chaincode : String) (o : ListenerOptions)
  | addCommit (listener id : String) (peers : List Peer)
  | remove (listener chaincode : String)
  | emit (key : FeedKey) (blocks : List Block)
  | failStream (key : FeedKey) (e : TransportError)
  | endStream (key : FeedKey)
  | advance (millis : Nat)
  | readKeeper (name : String)
  | setFailing (name : String) (calls : List KeeperCall)
  | close
  | letGo
  | view
  | describe (j : Job)
  | newHandler (name id : String) (limit : Duration) (quorum : HandlerQuorum)
  | startHandler (name : String)
  | waitHandler (name : String)
  | cancelHandler (name : String)
  | dropHandler (name : String)

/-- A shared feed as it is seen from outside. -/
structure FeedView where
  last : Option Nat
  listeners : Nat
  started : Bool
  status : FeedStatus

/-- A client as it is seen from outside. -/
structure ClientView where
  listeners : Nat
  feeds : List (FeedKey × FeedView)
  queryPeers : List String
  quorum : Option Quorum

/-- What a step answers. -/
inductive Outcome where
  | silent
  /-- The application has let go of the client. -/
  | gone
  | unknownListener
  | unknownHandler
  | reached (streams : Nat)
  | keeper (c : Checkpoint)
  /-- The open streams, and the client if the application holds it. -/
  | view (streams : List (FeedKey × Nat)) (client : Option ClientView)
  | described (inv : Invocation) (channel organization : String) (o : Options)

/-- What came of a step. -/
structure Report where
  outcome : Outcome
  /-- The calls that ended, by the steps that made them. -/
  ends : List (Nat × CallResult)
  record : Record
  labels : List (String × TransactionId)

structure Scenario where
  channel : Channel
  identity : Identity
  options : Options
  script : Script
  behaviours : List (String × Behaviour)
  keepers : List (String × Keeper)
  steps : List Step

/-- A scenario under way. -/
structure Run where
  stage : Stage
  /-- The number of steps that were taken. -/
  taken : Nat
  /-- The calls, and the steps that made them. -/
  calls : List (Nat × Nat)
  /-- The handlers at hand, and their waits. -/
  handlers : List (String × Nat)
  /-- The handlers that begin to listen, and the calls that hold them meanwhile. -/
  starting : List (Nat × String × Nat)
  /-- The listeners that were ever added: of blocks, of events, of commits. -/
  blockListeners : List String
  eventListeners : List String
  commitListeners : List String

namespace Run

/-- A scenario before its first step. -/
def start (s : Scenario) : Run :=
  let client := Client.new s.channel s.identity s.options
  ⟨.new client s.script s.behaviours s.keepers, 0, [], [], [], [], [], []⟩

def call (r : Run) (f : Client → Client) : Run :=
  { r with
    calls := r.calls ++ [(r.stage.client.nextCall, r.taken)]
    stage := { r.stage with client := f r.stage.client } }

/-- Does something with the client that takes no time. -/
def act (r : Run) (f : Client → Client) : Run :=
  { r with stage := { r.stage with client := f r.stage.client } }

/-- Gives a job its id. -/
def invocation (r : Run) (j : Job) : Run × Invocation :=
  let (stage, id, nonce) := r.stage.label j.label
  ({ r with stage },
    ⟨id, nonce, j.chaincode, j.function, j.args, j.transient, j.peers, j.organizations, j.quorum⟩)

/-- The wait of a handler. -/
def handler? (r : Run) (name : String) : Option Nat := (r.handlers.find? (·.1 = name)).map (·.2)

/-- Does something with the wait of a handler. -/
def withHandler (r : Run) (name : String) (f : Nat → Run) : Run × Outcome :=
  match r.handler? name with
  | some w => (f w, .silent)
  | none => (r, .unknownHandler)

/-- Forgets a handler. -/
def forget (r : Run) (name : String) : Run :=
  { r with handlers := r.handlers.filter (·.1 ≠ name) }

/-- Puts a handler at hand, in place of one with the same name, which is let go of. -/
def keep (r : Run) (name : String) (w : Nat) : Run :=
  let r' :=
    match r.handler? name with
    | some v => (r.forget name).act (·.letGoOfWait v)
    | none => r
  { r' with handlers := r'.handlers ++ [(name, w)] }

def newHandler (r : Run) (name id : String) (limit : Duration) (q : HandlerQuorum) : Run :=
  let quorum :=
    match q with
    | .none => none
    | .usual => r.stage.client.defaultQuorum
    | .given q => some q
  let (client, w) := r.stage.client.newWait ⟨id⟩ quorum limit
  (r.act fun _ => client).keep name w

/-- A handler begins to listen. It is not at hand until its call is over. -/
def startHandler (r : Run) (name : String) (w : Nat) : Run :=
  { (r.forget name).call (·.listen w) with
    starting := r.starting ++ [(r.stage.client.nextCall, name, w)] }

/-- The handlers whose calls are over are at hand again. -/
def handlersBack (r : Run) : Run :=
  let (ended, starting) := r.starting.partition fun entry => (r.stage.client.call? entry.1).isNone
  ended.foldl (fun r entry => r.keep entry.2.1 entry.2.2) { r with starting }

/-- Removes a listener from everything that it was added to. -/
def remove (r : Run) (listener chaincode : String) : Run × Outcome :=
  let l : ListenerId := .app listener
  let keys : List ListenerKey :=
    (if listener ∈ r.blockListeners then [.blocks l] else []) ++
    (if listener ∈ r.eventListeners then [.events chaincode l] else []) ++
    (if listener ∈ r.commitListeners then [.commit l] else [])
  if keys.isEmpty then (r, .unknownListener)
  else (r.act fun c => keys.foldl Client.unregister c, .silent)

/-- The feed under a key as it is seen from outside. -/
def feedView? (c : Client) (key : FeedKey) : Option FeedView := do
  let f ← c.table.feed? (← c.table.shared? key)
  return ⟨f.last, f.sessions.length, f.isRunning, f.status⟩

/-- Every kind of block. -/
def kinds : List BlockKind := [.full, .filtered, .confidential]

/-- The client as it is seen from outside. -/
def clientView (c : Client) : ClientView :=
  let keys := c.channel.peers.flatMap fun p => kinds.map fun k => (⟨p.name, k⟩ : FeedKey)
  { listeners := c.registrations.length
    feeds := keys.filterMap fun key => (feedView? c key).map (key, ·)
    queryPeers := c.queryPeers.map (·.name)
    quorum := c.defaultQuorum }

/-- The keys of all streams, each once. -/
def streamKeys (s : Stage) : List FeedKey :=
  let feeds := s.streams.filterMap fun t => s.client.table.feed? t.feed
  (feeds.map fun f => ⟨f.peer.name, f.kind⟩).eraseDups

/-- The numbers of open streams. -/
def openStreams (s : Stage) : List (FeedKey × Nat) :=
  ((streamKeys s).map fun key => (key, s.openCount key)).filter fun entry => entry.2 ≠ 0

/-- Takes a step for which the application needs to hold the client. -/
def performHeld (r : Run) : Step → Run × Outcome
  | .submit j => let (r, inv) := r.invocation j; (r.call (·.submit inv), .silent)
  | .evaluate j => let (r, inv) := r.invocation j; (r.call (·.evaluate inv), .silent)
  | .addBlocks l o =>
    ({ r with blockListeners := l :: r.blockListeners }.call (·.addListener (.blocks (.app l)) o),
      .silent)
  | .addEvents l chaincode o =>
    ({ r with eventListeners := l :: r.eventListeners }.call
      (·.addListener (.events chaincode (.app l)) o), .silent)
  | .addCommit l id peers =>
    ({ r with commitListeners := l :: r.commitListeners }.call
      (·.addCommitListener (.app l) peers id), .silent)
  | .remove l chaincode => r.remove l chaincode
  | .close => (r.act Client.close, .silent)
  | .letGo => (r.act Client.letGo, .silent)
  | .describe j =>
    let (r, inv) := r.invocation j
    let c := r.stage.client
    (r, .described inv c.channel.name c.identity.organization c.options)
  | .newHandler name id limit q => (r.newHandler name id limit q, .silent)
  | _ => (r, .silent)

/-- Takes a step that needs no client. -/
def performFree (r : Run) : Step → Option (Run × Outcome)
  | .emit key blocks =>
    let blocks := blocks.map (r.stage.resolveBlock none)
    let count := if blocks.isEmpty then 0 else r.stage.openCount key
    let stage := blocks.foldl (fun s b => s.sendItem key (.block b)) r.stage
    some ({ r with stage }, .reached count)
  | .failStream key e =>
    some ({ r with stage := r.stage.sendItem key (.broken e) }, .reached (r.stage.openCount key))
  | .endStream key =>
    some ({ r with stage := r.stage.sendItem key .ended }, .reached (r.stage.openCount key))
  | .advance millis => some ({ r with stage := r.stage.advance millis }, .silent)
  | .readKeeper name =>
    some (r,
      match r.stage.keeper? name with
      | some k => .keeper k.checkpoint
      | none => .silent)
  | .setFailing name calls =>
    let stage := r.stage.modifyKeeper name fun k => { k with failing := calls }
    some ({ r with stage }, .silent)
  | .view =>
    let c := r.stage.client
    some (r, .view (openStreams r.stage) (if c.held then some (clientView c) else none))
  | .startHandler name =>
    some (r.withHandler name fun w => r.startHandler name w)
  | .waitHandler name =>
    some (r.withHandler name fun w => (r.forget name).call fun c =>
      (c.awaitConfirmation w).resume c.nextCall Stage.room)
  | .cancelHandler name =>
    some (r.withHandler name fun w => r.act (·.cancelWait w))
  | .dropHandler name =>
    some (r.withHandler name fun w => (r.forget name).act (·.letGoOfWait w))
  | _ => none

def perform (r : Run) (step : Step) : Run × Outcome :=
  match r.performFree step with
  | some result => result
  | none => if r.stage.client.held then r.performHeld step else (r, .gone)

/-- The step that made a call. -/
def origin (r : Run) (call : Nat) : Nat := ((r.calls.find? (·.1 = call)).map (·.2)).getD 0

def next (r : Run) (step : Step) : Run × Report :=
  let (r, outcome) := r.perform step
  let r := { r with stage := r.stage.settle }.handlersBack
  let stage := r.stage
  let report : Report :=
    { outcome, ends := stage.record.ends.map fun e => (r.origin e.1, e.2), record := stage.record
      labels := stage.labels }
  ({ r with taken := r.taken + 1, stage := { stage with record := .blank } }, report)

/-- Takes steps in order. -/
def reports : Run → List Step → List Report
  | _, [] => []
  | r, step :: steps =>
    let (r, report) := r.next step
    report :: reports r steps

end Run

/-- Plays a scenario from its beginning. -/
def Scenario.play (s : Scenario) : List Report := (Run.start s).reports s.steps

end LedgerClient.Rehearsal
