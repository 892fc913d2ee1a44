import LedgerClient.Json.Record
import LedgerClient.Ledger.Block

/-!
# Blocks in JSON

Bytes are arrays of numbers, absent bytes are `null`, and a validation code is the string that
names it. Lists and bytes may be left out of a text.
-/

namespace LedgerClient

def BlockKind.toJson (k : BlockKind) : Json := .ofText k.text

def BlockKind.ofJson? (j : Json) : Option BlockKind := j.toConstant?.bind BlockKind.ofText?

def ValidationCode.toJson (c : ValidationCode) : Json := .ofText c.text

/-- Reads a code: any string, or a constant that is a code with a name of its own. -/
def ValidationCode.ofJson? (j : Json) : Option ValidationCode :=
  match j.toText? with
  | some s => some (.ofText s)
  | none => j.toConstant?.bind ValidationCode.named?

namespace ChaincodeEvent

def toJson (e : ChaincodeEvent) : Json :=
  .ofFields [("chaincodeId", .ofText e.chaincode), ("eventName", .ofText e.name),
    ("payload", .ofOption Json.ofBytes e.payload)]

def ofJson? (j : Json) : Option ChaincodeEvent := do
  match (← Json.parts? ["chaincodeId", "eventName", "payload"] j).found with
  | [chaincode, name, payload] =>
    return ⟨← Json.required Json.toText? chaincode, ← Json.required Json.toText? name,
      ← Json.orElse none (Json.toOption? Json.toBytes?) payload⟩
  | _ => none

end ChaincodeEvent

namespace BlockTransaction

def toJson (t : BlockTransaction) : Json :=
  .ofFields [("transactionId", .ofText t.id), ("validationCode", t.code.toJson),
    ("chaincodeEvents", .ofList ChaincodeEvent.toJson t.events),
    ("privateData", .ofOption Json.ofBytes t.confidential)]

def ofJson? (j : Json) : Option BlockTransaction := do
  let names := ["transactionId", "validationCode", "chaincodeEvents", "privateData"]
  match (← Json.parts? names j).found with
  | [id, code, events, confidential] =>
    return ⟨← Json.required Json.toText? id, ← Json.required ValidationCode.ofJson? code,
      ← Json.orElse [] (Json.toList? ChaincodeEvent.ofJson?) events,
      ← Json.orElse none (Json.toOption? Json.toBytes?) confidential⟩
  | _ => none

end BlockTransaction

namespace Block

def toJson (b : Block) : Json :=
  .ofFields [("blockNumber", .ofNat b.number), ("blockType", b.kind.toJson),
    ("transactions", .ofList BlockTransaction.toJson b.transactions),
    ("rawBlock", .ofOption Json.ofBytes b.raw)]

def ofJson? (j : Json) : Option Block := do
  match (← Json.parts? ["blockNumber", "blockType", "transactions", "rawBlock"] j).found with
  | [number, kind, transactions, raw] =>
    return ⟨← Json.required Json.toWord? number, ← Json.required BlockKind.ofJson? kind,
      ← Json.orElse [] (Json.toList? BlockTransaction.ofJson?) transactions,
      ← Json.orElse none (Json.toOption? Json.toBytes?) raw⟩
  | _ => none

end Block

end LedgerClient
