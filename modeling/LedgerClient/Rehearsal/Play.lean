import LedgerClient.Rehearsal.Stage

/-!
# Playing on

The stage plays on in single steps, always in the same order: a request of the client is handled,
else the actor in hand moves, else the next actor on the agenda is taken in hand, else time jumps
to the next signal that is due. It stands still when nothing is left to do before the horizon.
An answer that takes no time is there at once, within the move that asked for it.
-/

namespace LedgerClient.Rehearsal.Stage

/-! ## Listeners -/

def behaviour (s : Stage) (listener : String) : Behaviour :=
  ((s.behaviours.find? (·.1 = listener)).map (·.2)).getD .plain

/-- The key by which a behaviour names a notice. -/
def noticeKey : Notice → String
  | .block n => toString n.block.number
  | .event n => n.transaction
  | .commit o => Tally.reporter o
  | .fault f => f.peer

/-- The registration of a listener that was given a notice. -/
def registrationOf (listener : String) : Notice → Option ListenerKey
  | .block _ => some (.blocks (.app listener))
  | .event n => some (.events n.chaincode (.app listener))
  | .commit _ => some (.commit (.app listener))
  | .fault _ => none

/-- Puts on record what a listener does. -/
def see (s : Stage) (listener : String) (h : Happening) : Stage :=
  { s with record.happenings := s.record.happenings ++ [(listener, h)] }

/-- Removes the registration of a listener, while the application holds the client. -/
def removeOwn (s : Stage) (listener : String) (n : Notice) : Stage :=
  match registrationOf listener n with
  | none => s
  | some key => if s.client.held then { s with client := s.client.unregister key } else s

/-- A listener's call comes to its end. -/
def conclude (s : Stage) (session : Nat) (listener : String) (n : Notice) : Stage :=
  let b := s.behaviour listener
  let s := if names b.removes (noticeKey n) then s.removeOwn listener n else s
  { s with client := s.client.answer session (.told (!names b.fails (noticeKey n))) }

/-- Calls a listener. The call about a fault takes no time and always succeeds. -/
def tell (s : Stage) (session : Nat) (listener : String) (n : Notice) : Stage :=
  let b := s.behaviour listener
  match n with
  | .fault _ =>
    let s := if b.quiet then s else s.see listener (.told n)
    { s with client := s.client.answer session (.told true) }
  | _ =>
    let s := s.see listener (.told n)
    match b.delay with
    | none => s.conclude session listener n
    | some d =>
      { s with timers := s.timers ++ [⟨s.client.clock + d, .session session, .called listener n⟩] }

/-! ## Looks at a mailbox -/

/-- How many outcomes a call takes at a time, before others have their turn. -/
def room : Nat := 128

/-- Whether outcomes are left for a call to look at. -/
def hasMail (c : Client) (call : Nat) : Bool :=
  match c.call? call with
  | some (.confirming w ..) => (c.wait? w).any fun wait => !wait.queued.isEmpty
  | _ => false

/-- A call goes on; if it leaves outcomes behind, it will have another turn. -/
def resume (s : Stage) (call : Nat) : Stage :=
  let client := s.client.resume call room
  { s with client := if hasMail client call then client.wake (.call call) else client }

/-! ## Signals -/

/-- The blocks that are emitted before an order is answered, and the answer, with which the call
goes on at once. -/
def orderAnswered (s : Stage) (call : Nat) (act : OrderAct) : Stage :=
  let id :=
    match s.client.call? call with
    | some (.ordering r ..) => some r.proposal.id
    | _ => none
  let s := act.emissions.foldl (fun s e => s.sendItem e.key (.block (s.resolveBlock id e.block))) s
  { s with client := s.client.ordered call (.ok act.reply) }.resume call

/-- An item with its labels resolved. -/
def resolveItem (s : Stage) : StreamItem → StreamItem
  | .block b => .block (s.resolveBlock none b)
  | item => item

/-- An actor takes a signal. One that no longer means anything to it is passed over. -/
def take (s : Stage) : Actor → Signal → Stage
  | .feed i, .stream (.ok items) =>
    match s.client.table.feed? i with
    | none => s
    | some f =>
      if f.phase = .connecting then
        { s with client := s.client.streamOpened i }.openStream i (items.map s.resolveItem)
      else s
  | .feed i, .stream (.error e) => { s with client := s.client.streamRefused i e }
  | .feed i, .rested => { s with client := s.client.requestStream i }
  | .call i, .endorsed r => { s with client := s.client.endorsed i r }
  | .call i, .ordered (.ok act) => s.orderAnswered i act
  | .call i, .ordered (.error e) => { s with client := s.client.ordered i (.error e) }
  | .call i, .inquired r => { s with client := s.client.inquired i r }
  | .call i, .deadline => s.resume i
  | .session i, .called listener n => (s.see listener .delayed).conclude i listener n
  | _, _ => s

/-- Gives a signal to an actor after some milliseconds. -/
def later (s : Stage) (millis : Nat) (a : Actor) (signal : Signal) : Stage :=
  { s with timers := s.timers ++ [⟨s.client.clock + millis, a, signal⟩] }

/-- Gives a signal to an actor after some milliseconds, or at once if there are none. -/
def after (s : Stage) (millis : Nat) (a : Actor) (signal : Signal) : Stage :=
  if millis = 0 then s.take a signal else s.later millis a signal

/-! ## Requests -/

/-- The limit on a request. -/
def limit (s : Stage) : Duration := s.client.options.proposalTimeout

/-- Puts a proposal on record. -/
def seeProposal (s : Stage) (r : Recipient) (p : Proposal) : Stage :=
  { s with record.proposals := s.record.proposals ++ [(r, p)] }

/-- Puts the request for a stream on record. -/
def seeStart (s : Stage) (key : FeedKey) (start : Option Nat) : Stage :=
  { s with record.starts := s.record.starts ++ [(key, start)] }

/-- Puts an order on record. -/
def seeOrder (s : Stage) (route : OrderRoute) (r : OrderRequest) : Stage :=
  { s with record.orders := s.record.orders ++ [(route, r)] }

/-- Those to whom a proposal goes. -/
def recipients : Targets → List Recipient
  | .peers ps => ps.map fun p => .peer p.name
  | .discovery organizations => [.discovery organizations]

/-- Answers the question of a session. -/
def reply (s : Stage) (session : Nat) : Question → Stage
  | .next name => { s with client := s.client.answer session (.next (s.read name .next (·.next))) }
  | .delivered name =>
    { s with client := s.client.answer session (.delivered (s.read name .delivered (·.delivered))) }
  | .change name c =>
    let s := s.change name c
    { s with client := s.client.answer session .changed }
  | .tell (.app listener) n => s.tell session listener n
  | .tell (.mailbox _) _ => { s with client := s.client.answer session (.told true) }

/-- The position that a checkpointer gives, or its failure. -/
def position (s : Stage) (name : String) : Except CheckpointError (Option Nat) :=
  match s.read name .next (·.next) with
  | some next => .ok next
  | none => .error KeeperCall.next.failure

/-- Handles a request of the client. -/
def handle (s : Stage) : Request → Stage
  | .openStream feed peer kind start =>
    let (cue, script) := s.script.start ⟨peer, kind⟩
    let s := { s with script }.seeStart ⟨peer, kind⟩ start
    s.after (cue.arrival.wait s.limit) (.feed feed) (.stream (cue.arrival.within peer s.limit))
  | .rest feed interval => s.later interval.ceilMillis (.feed feed) .rested
  | .ask session q => s.reply session q
  | .readCheckpoint call name =>
    { s with client := s.client.checkpointRead call (s.position name) }
  | .propose call targets p =>
    let s := (recipients targets).foldl (fun s r => s.seeProposal r p) s
    let ((wait, answers), script) := s.script.endorse targets s.limit
    { s with script }.after wait (.call call) (.endorsed answers)
  | .query call peer p =>
    let s := s.seeProposal (.peer peer.name) p
    let (cue, script) := s.script.propose peer.name
    { s with script }.after (cue.arrival.wait s.limit) (.call call)
      (.inquired (cue.arrival.within peer.name s.limit))
  | .order call route r =>
    let (cue, script) := s.script.order route
    let s := { s with script }.seeOrder route r
    s.after (cue.arrival.wait s.limit) (.call call)
      (.ordered (cue.arrival.within route.target s.limit))
  | .wakeAt call time => s.later (time - s.client.clock) (.call call) .deadline
  | .finished call r => { s with record.ends := s.record.ends ++ [(call, r)] }

/-! ## Moves of actors -/

/-- The actor in hand has nothing to do. -/
def pause (s : Stage) : Stage := { s with current := none }

/-- The next item of a feed's stream is taken. -/
def takeItem (s : Stage) (feed : Nat) : Stage :=
  match s.nextItem? feed with
  | none => s.pause
  | some (.block b) => let s := s.dropItem feed; { s with client := s.client.blockArrived feed b }
  | some (.broken e) => let s := s.dropItem feed; { s with client := s.client.streamBroke feed e }
  | some .ended => let s := s.dropItem feed; { s with client := s.client.streamEnded feed }

/-- An actor moves: it takes a signal that is due, or goes on by itself. -/
def move (s : Stage) (a : Actor) : Stage :=
  match s.due.find? (·.1 = a) with
  | some (_, signal) => { s with due := s.due.eraseP (·.1 = a) }.take a signal
  | none =>
    match a with
    | .call i => (s.resume i).pause
    | .feed i =>
      match (s.client.table.feed? i).map Feed.phase with
      | some .launching => { s with client := s.client.requestStream i }
      | some .streaming => s.takeItem i
      | _ => s.pause
    | .session i =>
      match s.client.sessions[i]? with
      | some session =>
        if session.isReady then { s with client := s.client.takeNext i } else s.pause
      | none => s.pause

/-- Time jumps to the first signal that is due by the horizon; all that are due then are given. -/
def jump? (horizon : Nat) (s : Stage) : Option Stage :=
  match (s.timers.map (·.due)).min? with
  | none => none
  | some first =>
    if horizon < first then none
    else
      let client := s.client.tick (first - s.client.clock)
      let (due, timers) := s.timers.partition fun t => t.due ≤ client.clock
      some
        { s with
          timers
          due := s.due ++ due.map fun t => (t.actor, t.signal)
          client := due.foldl (fun c t => c.wake t.actor) client }

/-- The stage after one step, unless nothing is left to do. -/
def step? (horizon : Nat) (s : Stage) : Option Stage :=
  match s.client.outbox with
  | r :: rest => some ({ s with client.outbox := rest }.handle r)
  | [] =>
    match s.current with
    | some a => some (s.move a)
    | none =>
      match s.client.agenda with
      | a :: rest => some { s with client.agenda := rest, current := some a }
      | [] => s.jump? horizon

/-- Plays on for a number of steps at most. -/
def play (horizon : Nat) : Nat → Stage → Stage
  | 0, s => s
  | steps + 1, s =>
    match s.step? horizon with
    | some s => play horizon steps s
    | none => s

/-- A bound on the steps between two looks at the stage. -/
def stepLimit : Nat := 10000000

/-- Plays on until nothing is left to do at the present time. -/
def settle (s : Stage) : Stage := play s.client.clock stepLimit s

/-- Lets time pass. -/
def advance (s : Stage) (millis : Nat) : Stage :=
  let horizon := s.client.clock + millis
  let s := play horizon stepLimit s
  { s with client := s.client.tick (horizon - s.client.clock) }

end LedgerClient.Rehearsal.Stage
