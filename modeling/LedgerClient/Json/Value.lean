import LedgerClient.Bytes
import LedgerClient.Number.Numeral

/-!
# JSON values

A value keeps numbers as they are written, fields in the order of the text, and names that occur
twice. A string may hold an escape for half of a surrogate pair: it stands for no text, so the
value records `none`. Such a string may be passed over but not read.
-/

namespace LedgerClient

inductive Json where
  | null
  | bool (b : Bool)
  | number (n : Numeral)
  | text (s : Option String)
  | array (items : List Json)
  | object (fields : List (Option String × Json))
  deriving Repr, Inhabited

namespace Json

def ofText (s : String) : Json := .text (some s)

def ofNat (n : Nat) : Json := .number (.ofNat n)

/-- A whole number with a sign. -/
def ofInt (n : Int) : Json := .number (.ofInt n)

/-- A list of values. -/
def ofList {α : Type} (f : α → Json) (xs : List α) : Json := .array (xs.map f)

/-- A value that may be absent; absence is `null`. -/
def ofOption {α : Type} (f : α → Json) : Option α → Json
  | none => .null
  | some a => f a

/-- An object with the given fields in their order. -/
def ofFields (fields : List (String × Json)) : Json :=
  .object (fields.map fun f => (some f.1, f.2))

/-- Bytes as an array of numbers. -/
def ofBytes (bytes : List UInt8) : Json := ofList (fun b => ofNat b.toNat) bytes

/-- The text of a string that stands for one. -/
def toText? : Json → Option String
  | .text s => s
  | _ => none

def toBool? : Json → Option Bool
  | .bool b => some b
  | _ => none

/-- A whole number below `bound`, written as one. -/
def toNatBelow? (bound : Nat) : Json → Option Nat
  | .number n => do
    let k ← n.toNat?
    if k < bound then some k else none
  | _ => none

/-- A whole number of sixty-four bits. -/
def toWord? : Json → Option Nat := toNatBelow? (Nat.pow 2 64)

/-- A number of eight bits. -/
def toByte? (j : Json) : Option UInt8 := (toNatBelow? 256 j).map UInt8.ofNat

/-- A floating number. -/
def toBinary64? : Json → Option Binary64
  | .number n => n.toBinary64?
  | _ => none

/-- A list in which every item can be read. -/
def toList? {α : Type} (f : Json → Option α) : Json → Option (List α)
  | .array items => items.mapM f
  | _ => none

/-- A value that may be `null`. -/
def toOption? {α : Type} (f : Json → Option α) : Json → Option (Option α)
  | .null => some none
  | j => (f j).map some

/-- Bytes, from an array of numbers. -/
def toBytes? : Json → Option (List UInt8) := toList? toByte?

/-- The name of a constant: a string, or an object whose only field is that name with `null`. -/
def toConstant? : Json → Option String
  | .text s => s
  | .object [(name, .null)] => name
  | _ => none

end Json

end LedgerClient
