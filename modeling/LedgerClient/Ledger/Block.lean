/-!
# Blocks as peers deliver them

A peer delivers a block in one of three kinds. A block holds its transactions in order, each with
the code that the peer's validation gave it and the chaincode events that it emitted. Only the
code `VALID` means that a transaction took effect; a code without a name of its own is kept as it
was reported.
-/

namespace LedgerClient

/-- How much of a block is delivered: all of it, an outline without payloads, or all of it with
private data. -/
inductive BlockKind where
  | full
  | filtered
  | confidential
  deriving DecidableEq, Repr, Inhabited

def BlockKind.text : BlockKind → String
  | .full => "full"
  | .filtered => "filtered"
  | .confidential => "private"

def BlockKind.ofText? (s : String) : Option BlockKind :=
  if s = "full" then some .full
  else if s = "filtered" then some .filtered
  else if s = "private" then some .confidential
  else none

/-- The word that shows a kind to a person who debugs. -/
def BlockKind.inspect : BlockKind → String
  | .full => "Full"
  | .filtered => "Filtered"
  | .confidential => "Private"

/-- What a peer's validation says about a transaction. -/
inductive ValidationCode where
  | valid
  | readConflict
  | phantomReadConflict
  | policyFailure
  | duplicateId
  | badPayload
  | other (name : String)
  deriving DecidableEq, Repr, Inhabited

namespace ValidationCode

def text : ValidationCode → String
  | .valid => "VALID"
  | .readConflict => "MVCC_READ_CONFLICT"
  | .phantomReadConflict => "PHANTOM_READ_CONFLICT"
  | .policyFailure => "ENDORSEMENT_POLICY_FAILURE"
  | .duplicateId => "DUPLICATE_TXID"
  | .badPayload => "BAD_PAYLOAD"
  | .other name => name

/-- The codes that have a constructor of their own. -/
def named : List ValidationCode :=
  [.valid, .readConflict, .phantomReadConflict, .policyFailure, .duplicateId, .badPayload]

/-- The code with its own constructor that has this name. -/
def named? (s : String) : Option ValidationCode := named.find? fun c => c.text = s

def ofText (s : String) : ValidationCode := (named? s).getD (.other s)

/-- Only one code means that the transaction took effect. -/
def isValid : ValidationCode → Bool
  | .valid => true
  | _ => false

end ValidationCode

/-- An event that a chaincode emitted; an outline of a block has no payloads. -/
structure ChaincodeEvent where
  chaincode : String
  name : String
  payload : Option (List UInt8)
  deriving DecidableEq, Repr, Inhabited

/-- A transaction in a block. -/
structure BlockTransaction where
  id : String
  code : ValidationCode
  events : List ChaincodeEvent
  confidential : Option (List UInt8)
  deriving DecidableEq, Repr, Inhabited

structure Block where
  number : Nat
  kind : BlockKind
  transactions : List BlockTransaction
  raw : Option (List UInt8)
  deriving DecidableEq, Repr, Inhabited

end LedgerClient
