import LedgerClient.Commit.Tally
import LedgerClient.Ledger.Channel

/-!
# When a transaction counts as committed

A quorum is a list of peers and a rule. Under both rules one commit is enough; `all` waits until
every peer has reported, `any` decides on the first commit. A policy picks the peers from the
channel: those of one organization or all, or no wait at all.
-/

namespace LedgerClient

/-- How the reports of peers are judged. -/
inductive QuorumRule where
  | all
  | any
  deriving DecidableEq, Repr, Inhabited

/-- What a tally amounts to. -/
inductive Decision where
  | pending
  | committed
  | failed
  deriving DecidableEq, Repr, Inhabited

def Decision.text : Decision → String
  | .pending => "Pending"
  | .committed => "Committed"
  | .failed => "Failed"

namespace QuorumRule

def text : QuorumRule → String
  | .all => "AllForTx"
  | .any => "AnyForTx"

/-- Judges a tally. -/
def decide (rule : QuorumRule) (t : Tally) : Decision :=
  match rule with
  | .all => if !t.isComplete then .pending else if t.commits.isEmpty then .failed else .committed
  | .any => if !t.commits.isEmpty then .committed else if t.isComplete then .failed else .pending

end QuorumRule

/-- Peers whose reports are awaited, and how they are judged. -/
structure Quorum where
  rule : QuorumRule
  peers : List Peer
  deriving DecidableEq, Repr, Inhabited

/-- Which quorum confirms a transaction unless the caller names one. -/
inductive CommitPolicy where
  | organizationAll
  | organizationAny
  | networkAll
  | networkAny
  | noWait
  deriving DecidableEq, Repr, Inhabited

namespace CommitPolicy

def text : CommitPolicy → String
  | .organizationAll => "orgAllForTx"
  | .organizationAny => "orgAnyForTx"
  | .networkAll => "networkAllForTx"
  | .networkAny => "networkAnyForTx"
  | .noWait => "noWait"

def every : List CommitPolicy :=
  [.organizationAll, .organizationAny, .networkAll, .networkAny, .noWait]

def ofText? (s : String) : Option CommitPolicy := every.find? fun p => p.text = s

/-- The quorum of a policy for an organization on a channel. -/
def quorum? (c : Channel) (organization : String) : CommitPolicy → Option Quorum
  | .organizationAll => some ⟨.all, c.eventPeers (some organization)⟩
  | .organizationAny => some ⟨.any, c.eventPeers (some organization)⟩
  | .networkAll => some ⟨.all, c.eventPeers none⟩
  | .networkAny => some ⟨.any, c.eventPeers none⟩
  | .noWait => none

end CommitPolicy

end LedgerClient
