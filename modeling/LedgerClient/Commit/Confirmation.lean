import LedgerClient.Commit.Quorum

/-!
# Waiting for confirmation

Outcomes are taken in the order in which they arrive. A commit with an invalid code ends the wait
at once; any other outcome is counted and the quorum's rule is asked. The wait is looked at from
time to time. Each look first takes outcomes, and a look need not have room for all that have
arrived; then it sees whether the deadline has passed. If so, the wait ends, and the peers that are
in none of the outcomes taken so far are named.
-/

namespace LedgerClient

/-- A wait that goes on, or its end. -/
inductive Confirmation where
  | waiting (t : Tally)
  | ended (result : Except TransactionFailure Unit)

namespace Confirmation

/-- Takes one outcome. -/
def take (id : TransactionId) (q : Quorum) (t : Tally) (o : CommitOutcome) : Confirmation :=
  match o with
  | .ok c =>
    if c.code.isValid then judge (t.record o).1 else .ended (.error (.invalidated id c.peer c.code))
  | .error _ => judge (t.record o).1
where
  /-- Asks the quorum's rule. -/
  judge (t : Tally) : Confirmation :=
    match q.rule.decide t with
    | .pending => .waiting t
    | .committed => .ended (.ok ())
    | .failed => .ended (.error (.unconfirmed id t.faults))

/-- Takes outcomes in order until the wait ends. -/
def takeAll (id : TransactionId) (q : Quorum) : Tally → List CommitOutcome → Confirmation
  | t, [] => .waiting t
  | t, o :: os =>
    match take id q t o with
    | .waiting t => takeAll id q t os
    | .ended result => .ended result

/-- The failure when the deadline passes. -/
def expired (id : TransactionId) (q : Quorum) (limit : Duration) (t : Tally) : TransactionFailure :=
  .confirmationTimedOut id limit (t.pending (q.peers.map (·.name)))

/-- One look at the wait: the outcomes that it takes, then the deadline. -/
def look (id : TransactionId) (q : Quorum) (limit : Duration) (t : Tally)
    (taken : List CommitOutcome) (deadlinePassed : Bool) : Confirmation :=
  match takeAll id q t taken with
  | .ended result => .ended result
  | .waiting t => if deadlinePassed then .ended (.error (expired id q limit t)) else .waiting t

end Confirmation

end LedgerClient
