import LedgerClient.Ledger.Peer

/-!
# Channels

A channel is a named set of peers and a list of orderers, with or without a discovery handler.
Names of peers are unique: adding a peer takes away the one that had its name. Every selection of
peers keeps the order of the channel.
-/

namespace LedgerClient

structure Channel where
  name : String
  peers : List Peer
  orderers : List Orderer
  discovery : Bool
  deriving DecidableEq, Repr, Inhabited

namespace Channel

/-- A channel without members. -/
def empty (name : String) : Channel := ⟨name, [], [], false⟩

/-- Adds a peer at the end, in place of one with the same name. -/
def addPeer (c : Channel) (p : Peer) : Channel :=
  { c with peers := c.peers.filter (·.name ≠ p.name) ++ [p] }

/-- Adds an orderer at the end. -/
def addOrderer (c : Channel) (o : Orderer) : Channel := { c with orderers := c.orderers ++ [o] }

def withDiscovery (c : Channel) : Channel := { c with discovery := true }

def peer? (c : Channel) (name : String) : Option Peer := c.peers.find? (·.name = name)

/-- The organizations of the peers, each once, in the order of their first peers. -/
def organizations (c : Channel) : List String :=
  c.peers.foldl (fun seen p => if p.organization ∈ seen then seen else seen ++ [p.organization]) []

/-- Whether a peer belongs to the organization asked for, if one is. -/
def belongs (organization : Option String) (p : Peer) : Bool :=
  match organization with
  | none => true
  | some o => p.organization = o

/-- The peers that endorse. -/
def endorsers (c : Channel) (organization : Option String) : List Peer :=
  c.peers.filter fun p => p.roles.endorsing && belongs organization p

/-- The peers that answer chaincode queries. -/
def queryPeers (c : Channel) (organization : Option String) : List Peer :=
  c.peers.filter fun p => p.roles.querying && belongs organization p

/-- The peers that deliver blocks. -/
def eventPeers (c : Channel) (organization : Option String) : List Peer :=
  c.peers.filter fun p => p.roles.eventSource && belongs organization p

/-- The query peers of an organization, or all of them if it has none. -/
def localQueryPeers (c : Channel) (organization : String) : List Peer :=
  let own := c.queryPeers (some organization)
  if own.isEmpty then c.queryPeers none else own

/-- The first event peer of an organization, or the first of all if it has none. -/
def localEventPeer? (c : Channel) (organization : String) : Option Peer :=
  (c.eventPeers (some organization)).head?.or (c.eventPeers none).head?

def inspect (c : Channel) : String :=
  Inspect.record "Channel"
    [("name", Inspect.quoted c.name), ("peers", Inspect.list (c.peers.map Peer.inspect)),
     ("orderers", Inspect.list (c.orderers.map Orderer.inspect)),
     ("discovery", Inspect.truth c.discovery)]

end Channel

end LedgerClient
