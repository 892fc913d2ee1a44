import LedgerClient.Failure

/-!
# Proposals

A proposal asks peers to run a chaincode function. A draft collects its parts in any order;
`Draft.build` refuses a draft that lacks one, and a function without a name counts as lacking.
-/

namespace LedgerClient

structure Proposal where
  id : TransactionId
  channel : String
  chaincode : String
  function : String
  args : List Bytes
  transient : List (String × Bytes)
  nonce : Bytes
  creator : Bytes
  deriving DecidableEq, Repr, Inhabited

/-- The parts of a proposal as far as they are set. -/
structure Draft where
  id : Option TransactionId := none
  channel : Option String := none
  chaincode : Option String := none
  function : Option String := none
  args : List Bytes := []
  transient : List (String × Bytes) := []
  nonce : Bytes := []
  creator : Bytes := []

/-- The first part that a draft lacks, if any. -/
def Draft.gap? (d : Draft) : Option ProposalGap :=
  if d.channel.isNone then some .channel
  else if d.chaincode.isNone then some .chaincode
  else if (d.function.filter (· ≠ "")).isNone then some .function
  else if d.id.isNone then some .transaction
  else none

/-- The proposal that a draft describes. -/
def Draft.build (d : Draft) : Except TransactionFailure Proposal :=
  match d.gap? with
  | some gap => .error (.badProposal gap.message)
  | none =>
    .ok ⟨d.id.getD ⟨""⟩, d.channel.getD "", d.chaincode.getD "", d.function.getD "", d.args,
      d.transient, d.nonce, d.creator⟩

end LedgerClient
