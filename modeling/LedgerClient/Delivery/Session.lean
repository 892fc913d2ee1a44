import LedgerClient.Delivery.Handling

/-!
# Sessions

A session stands between a feed and one listener. Deliveries wait in its queue and are handled one
after the other, strictly in order. A block is passed over when its number is below the session's
floor or below the last block that was handled. A session that was removed takes nothing more into
its queue and throws away what is there when it comes to its next delivery.
-/

namespace LedgerClient

/-- Who is called: a listener of the application, or the mailbox of a wait for confirmation. -/
inductive ListenerId where
  | app (name : String)
  | mailbox (number : Nat)
  deriving DecidableEq, Repr, Inhabited

/-- Who listens, and to what. -/
inductive Audience where
  | block (listener : ListenerId) (checkpointer : Option String)
  | contract (listener : ListenerId) (filter : EventFilter) (checkpointer : Option String)
  | commit (listener : ListenerId) (peer id : String)
  deriving DecidableEq, Repr, Inhabited

namespace Audience

def listener : Audience → ListenerId
  | block l _ => l
  | contract l _ _ => l
  | commit l _ _ => l

/-- The checkpointer, if there is one. -/
def checkpointer : Audience → Option String
  | block _ c => c
  | contract _ _ c => c
  | commit _ _ _ => none

/-- How a delivery is handled. -/
def plan : Audience → Delivery → Plan
  | block _ c, .block peer b => .ofBlock c.isSome peer b
  | contract _ f c, .block _ b => .ofContract c.isSome f b
  | commit _ peer id, .block _ b => .ofCommit peer id b
  | block _ _, .fault f => .ofFault f
  | contract _ _ _, .fault f => .ofFault f
  | commit _ _ _, .fault f => .ofCommitFault f

end Audience

/-- What a session asks of the world around it. -/
inductive Question where
  | next (checkpointer : String)
  | delivered (checkpointer : String)
  | change (checkpointer : String) (c : CheckpointChange)
  | tell (listener : ListenerId) (n : Notice)
  deriving Repr

/-- What the world answers; `none` is an answer that could not be given. -/
inductive Response where
  | next (block : Option (Option Nat))
  | delivered (ids : Option (List String))
  | changed
  | told (ok : Bool)
  deriving Repr

structure Session where
  audience : Audience
  floor : Option Nat
  removed : Bool
  queue : List Delivery
  /-- The number of the last block that was handled. -/
  last : Option Nat
  /-- The steps left of the delivery in hand, and the block's number if it is a block. -/
  work : Option (Option Nat × Plan)

namespace Session

def new (audience : Audience) (floor : Option Nat) : Session :=
  ⟨audience, floor, false, [], none, none⟩

/-- Puts a delivery into the queue. -/
def deliver (s : Session) (d : Delivery) : Session :=
  if s.removed then s else { s with queue := s.queue ++ [d] }

def close (s : Session) : Session := { s with removed := true }

/-- Whether a block is not below a bound. -/
def reaches (bound : Option Nat) (n : Nat) : Bool :=
  match bound with
  | none => true
  | some b => b ≤ n

/-- Whether a delivery is handled rather than passed over. -/
def accepts (s : Session) : Delivery → Bool
  | .block _ b => reaches s.floor b.number && reaches s.last b.number
  | .fault _ => true

/-- The number of a delivered block. -/
def numberOf : Delivery → Option Nat
  | .block _ b => some b.number
  | .fault _ => none

/-- Skips the tests whether the session was removed. -/
def unguard (removed : Bool) : Plan → Plan
  | .unlessRemoved go => if removed then .finished else unguard removed go
  | p => p

/-- Goes on with a plan up to its next question; a plan without one ends the work. -/
def follow (s : Session) (number : Option Nat) (p : Plan) : Session :=
  match unguard s.removed p with
  | .finished => { s with work := none, last := number.or s.last }
  | p => { s with work := some (number, p) }

/-- Takes the next delivery from the queue. -/
def take (s : Session) : Session :=
  match s.work, s.queue with
  | none, d :: rest =>
    if s.removed then { s with queue := [] }
    else
      let s := { s with queue := rest }
      if s.accepts d then s.follow (numberOf d) (s.audience.plan d) else s
  | _, _ => s

/-- The question that the work in hand waits for. -/
def question? (s : Session) : Option Question :=
  match s.work with
  | none => none
  | some (_, p) =>
    match p with
    | .askNext _ => some (.next (s.audience.checkpointer.getD ""))
    | .askDelivered _ => some (.delivered (s.audience.checkpointer.getD ""))
    | .change c _ => some (.change (s.audience.checkpointer.getD "") c)
    | .tell n _ => some (.tell s.audience.listener n)
    | .finished | .unlessRemoved _ => none

/-- Whether an answer is one to the question that the work in hand waits for. -/
def expects (s : Session) (r : Response) : Bool :=
  match s.work, r with
  | some (_, .askNext _), .next _ => true
  | some (_, .askDelivered _), .delivered _ => true
  | some (_, .change _ _), .changed => true
  | some (_, .tell _ _), .told _ => true
  | _, _ => false

/-- Goes on with the answer to the question; an answer to another question is passed over. -/
def answer (s : Session) (r : Response) : Session :=
  match s.work, r with
  | some (n, .askNext go), .next block => s.follow n (go block)
  | some (n, .askDelivered go), .delivered ids => s.follow n (go ids)
  | some (n, .change _ go), .changed => s.follow n go
  | some (n, .tell _ go), .told ok => s.follow n (go ok)
  | _, _ => s

/-- Whether a delivery waits and no other is in hand. -/
def isReady (s : Session) : Bool := s.work.isNone && !s.queue.isEmpty

end Session

end LedgerClient
