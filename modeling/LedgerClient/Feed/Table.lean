import LedgerClient.Feed.State

/-!
# The table of feeds

Listeners that start from now on share one feed for each peer and kind of block; a listener that
replays the past has a feed of its own. A feed is stopped when its last session leaves, and a
shared one then leaves the table of shared feeds, unless a newer feed has its place.
-/

namespace LedgerClient

/-- What shared feeds are found by. -/
structure FeedKey where
  peer : String
  kind : BlockKind
  deriving DecidableEq, Repr, Inhabited

/-- The feeds that were ever made, under their numbers, and the shared ones under their keys. -/
structure FeedTable where
  feeds : List Feed
  shared : List (FeedKey × Nat)
  deriving DecidableEq, Repr

namespace FeedTable

/-- No feed. -/
def empty : FeedTable := ⟨[], []⟩

def feed? (t : FeedTable) (i : Nat) : Option Feed := t.feeds[i]?

def modify (t : FeedTable) (i : Nat) (f : Feed → Feed) : FeedTable :=
  { t with feeds := t.feeds.modify i f }

/-- The number of the shared feed under a key. -/
def shared? (t : FeedTable) (key : FeedKey) : Option Nat := (t.shared.find? (·.1 = key)).map (·.2)

/-- Attaches a session to the shared feed of a peer, which is made and started if need be. -/
def acquire (r : ReconnectOptions) (t : FeedTable) (peer : Peer) (kind : BlockKind)
    (session : Nat) : FeedTable × Nat :=
  match t.shared? ⟨peer.name, kind⟩ with
  | some i => (t.modify i fun f => (f.attach session).launch r, i)
  | none =>
    let f := ((Feed.new peer kind true none).attach session).launch r
    (⟨t.feeds ++ [f], t.shared ++ [(⟨peer.name, kind⟩, t.feeds.length)]⟩, t.feeds.length)

/-- Makes and starts a feed of its own for a session that begins at a block. -/
def acquireReplay (r : ReconnectOptions) (t : FeedTable) (peer : Peer) (kind : BlockKind)
    (start session : Nat) : FeedTable × Nat :=
  let f := ((Feed.new peer kind false (some start)).attach session).launch r
  ({ t with feeds := t.feeds ++ [f] }, t.feeds.length)

/-- Takes a feed out of the shared ones, if it is the one under its key. -/
def unshare (t : FeedTable) (i : Nat) (f : Feed) : FeedTable :=
  let key : FeedKey := ⟨f.peer.name, f.kind⟩
  if f.shared && t.shared? key = some i then { t with shared := t.shared.filter (·.1 ≠ key) } else t

/-- Detaches a session from a feed, and stops the feed if none is left. -/
def release (t : FeedTable) (i session : Nat) : FeedTable :=
  let t := t.modify i (·.detach session)
  match t.feed? i with
  | none => t
  | some f => if f.sessions.isEmpty then (t.modify i Feed.stop).unshare i f else t

/-- Stops every shared feed and forgets them. -/
def close (t : FeedTable) : FeedTable :=
  { t.shared.foldl (fun t entry => t.modify entry.2 Feed.stop) t with shared := [] }

end FeedTable

end LedgerClient
