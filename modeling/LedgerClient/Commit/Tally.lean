import LedgerClient.Failure

/-!
# The tally of a commit

Peers report whether they saw a transaction committed or could not tell. The tally counts each
peer once: what a peer reports later is turned away.
-/

namespace LedgerClient

/-- A transaction as one peer committed it. -/
structure Commit where
  id : String
  peer : String
  code : ValidationCode
  block : Nat
  deriving DecidableEq, Repr, Inhabited

/-- What one peer reports: a commit, or the fault of its stream. -/
abbrev CommitOutcome := Except PeerFault Commit

/-- The outcomes that were counted. -/
structure Tally where
  expected : Nat
  reported : List String
  commits : List Commit
  faults : List PeerFault
  deriving DecidableEq, Repr

namespace Tally

/-- An empty tally that waits for a number of peers. -/
def new (expected : Nat) : Tally := ⟨expected, [], [], []⟩

/-- The peer that reports an outcome. -/
def reporter : CommitOutcome → String
  | .ok c => c.peer
  | .error f => f.peer

/-- Counts an outcome, unless its peer has reported before. The flag says whether it counted. -/
def record (t : Tally) (o : CommitOutcome) : Tally × Bool :=
  if reporter o ∈ t.reported then (t, false)
  else
    let t := { t with reported := t.reported ++ [reporter o] }
    match o with
    | .ok c => ({ t with commits := t.commits ++ [c] }, true)
    | .error f => ({ t with faults := t.faults ++ [f] }, true)

/-- Whether as many peers reported as are expected. -/
def isComplete (t : Tally) : Bool := t.expected ≤ t.reported.length

/-- The names of the peers that have not reported. -/
def pending (t : Tally) (peers : List String) : List String := peers.filter (· ∉ t.reported)

def summary (t : Tally) : String :=
  toString t.reported.length ++ "/" ++ toString t.expected ++ " peers reported, " ++
    toString t.commits.length ++ " committed, " ++ toString t.faults.length ++ " failed"

end Tally

end LedgerClient
