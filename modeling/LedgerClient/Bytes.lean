/-!
# Bytes and their hexadecimal text

Payloads, nonces and credentials are lists of bytes. `Bytes.toHex` writes two lower-case digits a
byte; `Bytes.ofHex?` reads digits of either case and refuses anything else, an odd count included.
-/

namespace LedgerClient

/-- A string of bytes. -/
abbrev Bytes := List UInt8

namespace Bytes

/-- The hexadecimal digit of a number below sixteen, in lower case. -/
def hexDigit (n : Nat) : Char :=
  if n < 10 then Char.ofNat (48 + n) else Char.ofNat (87 + n)

/-- The value of a hexadecimal digit of either case. -/
def hexValue? (c : Char) : Option Nat :=
  if '0' ≤ c ∧ c ≤ '9' then some (c.toNat - 48)
  else if 'a' ≤ c ∧ c ≤ 'f' then some (c.toNat - 87)
  else if 'A' ≤ c ∧ c ≤ 'F' then some (c.toNat - 55)
  else none

/-- The two digits of each byte, high half first. -/
def hexDigits (bytes : Bytes) : List Char :=
  bytes.flatMap fun b => [hexDigit (b.toNat / 16), hexDigit (b.toNat % 16)]

/-- Reads pairs of hexadecimal digits. -/
def ofHexDigits? : List Char → Option Bytes
  | [] => some []
  | [_] => none
  | high :: low :: rest => do
    let h ← hexValue? high
    let l ← hexValue? low
    return UInt8.ofNat (16 * h + l) :: (← ofHexDigits? rest)

/-- The lower-case hexadecimal text of `bytes`. -/
def toHex (bytes : Bytes) : String := String.ofList (hexDigits bytes)

/-- The bytes that a hexadecimal text stands for. -/
def ofHex? (text : String) : Option Bytes := ofHexDigits? text.toList

/-- The bytes of a text in UTF-8. -/
def ofText (text : String) : Bytes := text.toUTF8.toList

end Bytes

end LedgerClient
