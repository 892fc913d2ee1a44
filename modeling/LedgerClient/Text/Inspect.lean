import LedgerClient.Text.Plain

/-!
# Inspection text

The text that shows a value to a person who debugs: quoted strings, lists in brackets, options as
`Some(…)` and `None`, and records with their field names.
-/

namespace LedgerClient.Inspect

/-- Lower-case hexadecimal digits without leading zeros. -/
def hexNumber (n : Nat) : List Char := Nat.toDigits 16 n

/-- The characters that show one character of a quoted string. -/
def character (c : Char) : List Char :=
  if c = '"' then ['\\', '"']
  else if c = '\\' then ['\\', '\\']
  else if c = '\t' then ['\\', 't']
  else if c = '\n' then ['\\', 'n']
  else if c = '\r' then ['\\', 'r']
  else if c.toNat = 0 then ['\\', '0']
  else if Text.isPlain c then [c]
  else ['\\', 'u', '\x7b'] ++ hexNumber c.toNat ++ ['\x7d']

def quoted (s : String) : String :=
  String.ofList ('"' :: s.toList.flatMap character ++ ['"'])

def truth (b : Bool) : String := if b then "true" else "false"

/-- A list of texts in brackets. -/
def list (items : List String) : String := "[" ++ ", ".intercalate items ++ "]"

/-- An optional value. -/
def option {α : Type} (inspect : α → String) : Option α → String
  | none => "None"
  | some a => "Some(" ++ inspect a ++ ")"

/-- A record: its name, and its fields with their texts. -/
def record (name : String) (fields : List (String × String)) : String :=
  name ++ " \x7b " ++ ", ".intercalate (fields.map fun f => f.1 ++ ": " ++ f.2) ++ " \x7d"

/-- A record that shows some of its fields only. -/
def partialRecord (name : String) (fields : List (String × String)) : String :=
  name ++ " \x7b " ++ ", ".intercalate (fields.map fun f => f.1 ++ ": " ++ f.2) ++ ", .. \x7d"

/-- A named wrapper around one value. -/
def wrapper (name inner : String) : String := name ++ "(" ++ inner ++ ")"

end LedgerClient.Inspect
