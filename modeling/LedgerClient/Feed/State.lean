import LedgerClient.Delivery.Notice
import LedgerClient.Feed.Backoff
import LedgerClient.Ledger.Peer

/-!
# Feeds

A feed is a subscription to the blocks of one kind from one peer, handed on to the sessions that
are attached to it. It keeps connecting until it is stopped: after a failed start, a broken stream
or the end of a stream it rests and tries again. Each attempt asks for the block after the highest
that the feed delivered so far, or for its original start if it has delivered none.
-/

namespace LedgerClient

/-- What a feed is doing. -/
inductive FeedPhase where
  /-- It was never started. -/
  | idle
  /-- It is about to ask for a stream. -/
  | launching
  /-- It has asked for a stream. -/
  | connecting
  | streaming
  /-- It waits for the next attempt; the flag tells a failed start from a stream that is over. -/
  | resting (failedStart : Bool)
  | stopped
  deriving DecidableEq, Repr, Inhabited

/-- How a feed stands to its peer, as others see it. -/
inductive FeedStatus where
  | idle
  | connecting
  | connected
  | failed
  | stopped
  deriving DecidableEq, Repr, Inhabited

def FeedStatus.text : FeedStatus → String
  | .idle => "Idle"
  | .connecting => "Connecting"
  | .connected => "Connected"
  | .failed => "Failed"
  | .stopped => "Stopped"

structure Feed where
  peer : Peer
  kind : BlockKind
  /-- Whether listeners share it; a replay has a feed of its own. -/
  shared : Bool
  initial : Option Nat
  /-- The highest block that was delivered. -/
  last : Option Nat
  phase : FeedPhase
  /-- The interval of the next rest. -/
  interval : Duration
  sessions : List Nat
  /-- The starts that were asked for, in order. -/
  requests : List (Option Nat)
  deriving DecidableEq, Repr

namespace Feed

/-- A feed that was not started. -/
def new (peer : Peer) (kind : BlockKind) (shared : Bool) (initial : Option Nat) : Feed :=
  ⟨peer, kind, shared, initial, none, .idle, ⟨0⟩, [], []⟩

/-- The status of a feed. It stays connected while it rests after a stream. -/
def status (f : Feed) : FeedStatus :=
  match f.phase with
  | .idle => .idle
  | .launching | .connecting => .connecting
  | .streaming | .resting false => .connected
  | .resting true => .failed
  | .stopped => .stopped

/-- Whether the feed was started and not stopped. -/
def isRunning (f : Feed) : Bool :=
  match f.phase with
  | .idle | .stopped => false
  | _ => true

/-- Whether the present attempt to connect has come to an end. -/
def isAttempted (f : Feed) : Bool :=
  match f.status with
  | .idle | .connecting => false
  | _ => true

/-- Attaches a session, unless it is attached already. -/
def attach (f : Feed) (session : Nat) : Feed :=
  if session ∈ f.sessions then f else { f with sessions := f.sessions ++ [session] }

def detach (f : Feed) (session : Nat) : Feed :=
  { f with sessions := f.sessions.filter (· ≠ session) }

/-- Starts the feed unless it is running. -/
def launch (r : ReconnectOptions) (f : Feed) : Feed :=
  if f.isRunning then f else { f with phase := .launching, interval := r.initial }

def stop (f : Feed) : Feed := { f with phase := .stopped }

/-- Where the next attempt begins; `none` is from now on. -/
def resumePosition (f : Feed) : Option Nat :=
  match f.last with
  | some n => some (n + 1)
  | none => f.initial

/-- Asks for a stream, at first or after a rest. -/
def request (f : Feed) : Feed :=
  match f.phase with
  | .launching | .resting _ =>
    { f with phase := .connecting, requests := f.requests ++ [f.resumePosition] }
  | _ => f

/-- The stream is open. -/
def opened (f : Feed) : Feed :=
  match f.phase with
  | .connecting => { f with phase := .streaming }
  | _ => f

/-- Rests before the next attempt, and makes the interval of the rest after it longer. -/
def rest (r : ReconnectOptions) (failedStart : Bool) (f : Feed) : Feed :=
  { f with phase := .resting failedStart, interval := r.nextInterval f.interval }

def advance (r : ReconnectOptions) (n : Nat) (f : Feed) : Feed :=
  { f with last := some (match f.last with | none => n | some m => max m n), interval := r.initial }

end Feed

end LedgerClient
