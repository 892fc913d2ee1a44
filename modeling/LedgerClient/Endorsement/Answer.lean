import LedgerClient.Proposal

/-!
# Answers to a proposal

A peer replies to a proposal with a status, a message, a payload and its endorsement, or cannot be
reached. An answer is valid when it came and its status is below 400. `Verdict.ofAnswers` keeps
the valid answers and the others apart, both in order; the payload of the first valid one is the
result, and without a valid one every answer yields a refusal.
-/

namespace LedgerClient

/-- What a peer replies to a proposal. -/
structure Reply where
  status : Option Int
  message : String
  payload : Bytes
  endorsement : Bytes
  deriving DecidableEq, Repr, Inhabited

/-- One peer's answer: its reply, or the text of the error that kept it from arriving. -/
structure Answer where
  peer : String
  status : Option Int
  message : String
  payload : Bytes
  endorsement : Bytes
  fault : Option String
  deriving DecidableEq, Repr, Inhabited

namespace Answer

/-- The answer of a peer that replied. -/
def ofReply (peer : String) (r : Reply) : Answer :=
  ⟨peer, r.status, r.message, r.payload, r.endorsement, none⟩

/-- The answer of a peer that could not be reached. -/
def ofError (peer : String) (e : TransportError) : Answer :=
  ⟨peer, none, "", [], [], some e.message⟩

/-- The answer to a request that either succeeded or failed. -/
def ofResult (peer : String) : Except TransportError Reply → Answer
  | .ok r => ofReply peer r
  | .error e => ofError peer e

/-- A valid answer arrived and has a status below 400. -/
def isValid (a : Answer) : Bool :=
  a.fault.isNone && match a.status with | some s => s < 400 | none => false

/-- Why an answer is of no use: the error, if there was one, else the peer's message. -/
def refusal (a : Answer) : PeerRefusal := ⟨a.peer, a.status, a.fault.getD a.message⟩

end Answer

/-- What the answers to a proposal amount to. -/
structure Verdict where
  valid : List Answer
  invalid : List Answer
  payload : Bytes
  deriving DecidableEq, Repr

/-- Judges the answers; without a valid one there is a refusal for each. -/
def Verdict.ofAnswers (answers : List Answer) : Except (List PeerRefusal) Verdict :=
  let valid := answers.filter Answer.isValid
  let invalid := answers.filter fun a => !a.isValid
  match valid with
  | [] => .error (invalid.map Answer.refusal)
  | first :: _ => .ok ⟨valid, invalid, first.payload⟩

end LedgerClient
