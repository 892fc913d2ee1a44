import LedgerClient.Json.Record
import LedgerClient.Text.Inspect

/-!
# Members of a channel

A peer is known by its name; it belongs to an organization and plays some of four roles. An
orderer has a name and an address. An identity is what the application signs with.
-/

namespace LedgerClient

/-- The roles that a peer plays. -/
structure Roles where
  endorsing : Bool
  querying : Bool
  ledgerQuerying : Bool
  eventSource : Bool
  deriving DecidableEq, Repr, Inhabited

def Roles.all : Roles := ⟨true, true, true, true⟩

structure Peer where
  name : String
  organization : String
  url : String
  roles : Roles
  deriving DecidableEq, Repr, Inhabited

/-- A node that orders transactions. -/
structure Orderer where
  name : String
  url : String
  deriving DecidableEq, Repr, Inhabited

/-- The organization and the credentials that an application acts with. -/
structure Identity where
  organization : String
  credentials : List UInt8
  deriving DecidableEq, Repr, Inhabited

namespace Roles

def toJson (r : Roles) : Json :=
  .ofFields [("endorsingPeer", .bool r.endorsing), ("chaincodeQuery", .bool r.querying),
    ("ledgerQuery", .bool r.ledgerQuerying), ("eventSource", .bool r.eventSource)]

/-- Reads roles; all four must be given. -/
def ofJson? (j : Json) : Option Roles := do
  let names := ["endorsingPeer", "chaincodeQuery", "ledgerQuery", "eventSource"]
  match (← Json.parts? names j).found with
  | [endorsing, querying, ledgerQuerying, eventSource] =>
    return ⟨← Json.required Json.toBool? endorsing, ← Json.required Json.toBool? querying,
      ← Json.required Json.toBool? ledgerQuerying, ← Json.required Json.toBool? eventSource⟩
  | _ => none

def inspect (r : Roles) : String :=
  Inspect.record "PeerRoles"
    [("endorsing_peer", Inspect.truth r.endorsing), ("chaincode_query", Inspect.truth r.querying),
     ("ledger_query", Inspect.truth r.ledgerQuerying),
     ("event_source", Inspect.truth r.eventSource)]

end Roles

namespace Peer

def toJson (p : Peer) : Json :=
  .ofFields [("name", .ofText p.name), ("mspId", .ofText p.organization), ("url", .ofText p.url),
    ("roles", p.roles.toJson)]

/-- Reads a peer; one without roles plays all of them. -/
def ofJson? (j : Json) : Option Peer := do
  match (← Json.parts? ["name", "mspId", "url", "roles"] j).found with
  | [name, organization, url, roles] =>
    return ⟨← Json.required Json.toText? name, ← Json.required Json.toText? organization,
      ← Json.required Json.toText? url, ← Json.orElse Roles.all Roles.ofJson? roles⟩
  | _ => none

def inspect (p : Peer) : String :=
  Inspect.record "Peer"
    [("name", Inspect.quoted p.name), ("msp_id", Inspect.quoted p.organization),
     ("url", Inspect.quoted p.url), ("roles", p.roles.inspect)]

end Peer

namespace Orderer

def toJson (o : Orderer) : Json := .ofFields [("name", .ofText o.name), ("url", .ofText o.url)]

def ofJson? (j : Json) : Option Orderer := do
  match (← Json.parts? ["name", "url"] j).found with
  | [name, url] => return ⟨← Json.required Json.toText? name, ← Json.required Json.toText? url⟩
  | _ => none

def inspect (o : Orderer) : String :=
  Inspect.record "Orderer" [("name", Inspect.quoted o.name), ("url", Inspect.quoted o.url)]

end Orderer

end LedgerClient
