import LedgerClient.Failure
import LedgerClient.Ledger.Channel

/-!
# Whom a proposal is sent to

Peers that the caller names are used as they are. Otherwise a discovery handler chooses, if there
is one and it may be used. Otherwise the endorsing peers of the organizations that the caller
names are asked, organization by organization, or all endorsing peers of the channel.
-/

namespace LedgerClient

/-- Whom a proposal is sent to. -/
inductive Targets where
  /-- These peers. -/
  | peers (ps : List Peer)
  /-- Whomever the discovery handler picks, from these organizations if they are given. -/
  | discovery (organizations : Option (List String))
  deriving DecidableEq, Repr

namespace Targets

/-- A list of peers is a target unless it is empty. -/
def ofPeers : List Peer → Except TransactionFailure Targets
  | [] => .error .noEndorsers
  | p :: ps => .ok (.peers (p :: ps))

/-- Adds the peers whose names are not there yet. -/
def addNew (chosen : List Peer) (more : List Peer) : List Peer :=
  more.foldl (fun ps p => if ps.any (·.name = p.name) then ps else ps ++ [p]) chosen

/-- The endorsing peers of the given organizations, each once. -/
def ofOrganizations (c : Channel) (organizations : List String) : List Peer :=
  organizations.foldl (fun ps o => addNew ps (c.endorsers (some o))) []

def choose (c : Channel) (peers : Option (List Peer)) (organizations : Option (List String))
    (discoveryAllowed : Bool) : Except TransactionFailure Targets :=
  match peers with
  | some ps => ofPeers ps
  | none =>
    if discoveryAllowed && c.discovery then .ok (.discovery organizations)
    else
      match organizations with
      | some os => ofPeers (ofOrganizations c os)
      | none => ofPeers (c.endorsers none)

def inspect : Targets → String
  | .peers ps => Inspect.wrapper "Peers" (Inspect.list (ps.map fun p => Inspect.quoted p.name))
  | .discovery organizations =>
    Inspect.partialRecord "Handler"
      [("required_orgs",
        Inspect.option (fun os => Inspect.list (os.map Inspect.quoted)) organizations)]

end Targets

end LedgerClient
