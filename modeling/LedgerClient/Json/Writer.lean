import LedgerClient.Json.Value

/-!
# Writing JSON

`Json.compact` writes a value without blanks; `Json.pretty` puts each item on a line of its own,
indented by two blanks a level, and leaves empty arrays and objects on one line. Strings escape
the quote, the backslash and control characters and nothing else.
-/

namespace LedgerClient.Json

/-- The characters that write one character of a string. -/
def escape (c : Char) : List Char :=
  if c = '"' then ['\\', '"']
  else if c = '\\' then ['\\', '\\']
  else if c.toNat = 8 then ['\\', 'b']
  else if c = '\t' then ['\\', 't']
  else if c = '\n' then ['\\', 'n']
  else if c.toNat = 12 then ['\\', 'f']
  else if c = '\r' then ['\\', 'r']
  else if c.toNat < 32 then
    ['\\', 'u', '0', '0', Bytes.hexDigit (c.toNat / 16), Bytes.hexDigit (c.toNat % 16)]
  else [c]

/-- A quoted string; one that stands for no text is written as half of a surrogate pair. -/
def quote : Option String → List Char
  | some s => '"' :: s.toList.flatMap escape ++ ['"']
  | none => ['"', '\\', 'u', 'd', '8', '0', '0', '"']

def truth (b : Bool) : List Char :=
  if b then ['t', 'r', 'u', 'e'] else ['f', 'a', 'l', 's', 'e']

/-- How a value is laid out: what stands before each item, before a closing bracket, and after a
colon, at a given depth. -/
structure Layout where
  beforeItem : Nat → List Char
  beforeClose : Nat → List Char
  afterColon : List Char

/-- Everything on one line without blanks. -/
def Layout.compact : Layout := ⟨fun _ => [], fun _ => [], []⟩

/-- A line for each item, two blanks a level. -/
def Layout.pretty : Layout :=
  ⟨fun depth => '\n' :: List.replicate (2 * (depth + 1)) ' ',
   fun depth => '\n' :: List.replicate (2 * depth) ' ', [' ']⟩

mutual

/-- The text of a value at a depth. -/
def write (layout : Layout) (depth : Nat) : Json → List Char
  | .null => ['n', 'u', 'l', 'l']
  | .bool b => truth b
  | .number n => n.text
  | .text s => quote s
  | .array [] => ['[', ']']
  | .array (j :: js) =>
    '[' :: layout.beforeItem depth ++ write layout (depth + 1) j ++ writeItems layout depth js
  | .object [] => ['\x7b', '\x7d']
  | .object ((name, j) :: fs) =>
    '\x7b' :: layout.beforeItem depth ++ quote name ++ ':' :: layout.afterColon ++
      write layout (depth + 1) j ++ writeFields layout depth fs

/-- The items after the first, and the closing bracket. -/
def writeItems (layout : Layout) (depth : Nat) : List Json → List Char
  | [] => layout.beforeClose depth ++ [']']
  | j :: js =>
    ',' :: layout.beforeItem depth ++ write layout (depth + 1) j ++ writeItems layout depth js

/-- The fields after the first, and the closing brace. -/
def writeFields (layout : Layout) (depth : Nat) : List (Option String × Json) → List Char
  | [] => layout.beforeClose depth ++ ['\x7d']
  | (name, j) :: fs =>
    ',' :: layout.beforeItem depth ++ quote name ++ ':' :: layout.afterColon ++
      write layout (depth + 1) j ++ writeFields layout depth fs

end

/-- The text of a value on one line. -/
def compact (j : Json) : String := String.ofList (write .compact 0 j)

/-- The text of a value over several lines. -/
def pretty (j : Json) : String := String.ofList (write .pretty 0 j)

end LedgerClient.Json
