import LedgerClient.Digest.Sha256
import LedgerClient.Text.Inspect

/-!
# Transaction ids

The id of a transaction is the hexadecimal SHA-256 digest of a nonce followed by the credentials
of its creator, so that whoever knows both can check it.
-/

namespace LedgerClient

structure TransactionId where
  text : String
  deriving DecidableEq, Repr, Inhabited

namespace TransactionId

/-- The number of bytes in the nonce of a new transaction. -/
def nonceLength : Nat := 24

/-- The id that a nonce and a creator determine. -/
def ofNonce (nonce creator : Bytes) : TransactionId := ⟨(Sha256.digest (nonce ++ creator)).toHex⟩

/-- Whether a nonce has the length of a new transaction's and determines the id. -/
def derivesFrom (id : TransactionId) (nonce creator : Bytes) : Bool :=
  nonce.length = nonceLength && id = ofNonce nonce creator

/-- Whether a text has the form of a digest: sixty-four lower-case hexadecimal digits. -/
def isDigest (id : TransactionId) : Bool :=
  id.text.length = 64 && id.text.toList.all fun c => c.isDigit || ('a' ≤ c && c ≤ 'f')

def inspect (id : TransactionId) : String :=
  Inspect.wrapper "TransactionId" (Inspect.quoted id.text)

end TransactionId

end LedgerClient
