import LedgerClient.Json.Token

/-!
# Reading JSON

`Json.read` reads a text that holds exactly one value. The descent goes over tokens; every call
takes at least one of them, so their number bounds it.
-/

namespace LedgerClient.Json

mutual

/-- The value at the start of a token list, and the rest. -/
def value : Nat → List Token → Option (Json × List Token)
  | 0, _ => none
  | fuel + 1, tokens =>
    match tokens with
    | .null :: rest => some (.null, rest)
    | .bool b :: rest => some (.bool b, rest)
    | .number n :: rest => some (.number n, rest)
    | .text s :: rest => some (.text s, rest)
    | .openArray :: .closeArray :: rest => some (.array [], rest)
    | .openArray :: rest => (items fuel rest).map fun (js, after) => (.array js, after)
    | .openObject :: .closeObject :: rest => some (.object [], rest)
    | .openObject :: rest => (fields fuel rest).map fun (fs, after) => (.object fs, after)
    | _ => none

/-- One or more values up to the closing bracket. -/
def items : Nat → List Token → Option (List Json × List Token)
  | 0, _ => none
  | fuel + 1, tokens => do
    let (j, rest) ← value fuel tokens
    match rest with
    | .closeArray :: rest => some ([j], rest)
    | .comma :: rest =>
      let (js, after) ← items fuel rest
      some (j :: js, after)
    | _ => none

/-- One or more named values up to the closing brace. -/
def fields : Nat → List Token → Option (List (Option String × Json) × List Token)
  | 0, _ => none
  | fuel + 1, tokens =>
    match tokens with
    | .text name :: .colon :: rest => do
      let (j, rest) ← value fuel rest
      match rest with
      | .closeObject :: rest => some ([(name, j)], rest)
      | .comma :: rest =>
        let (fs, after) ← fields fuel rest
        some ((name, j) :: fs, after)
      | _ => none
    | _ => none

end

/-- Reads a list of tokens that form exactly one value. -/
def ofTokens? (tokens : List Token) : Option Json :=
  match value (2 * tokens.length + 1) tokens with
  | some (j, []) => some j
  | _ => none

def ofChars? (cs : List Char) : Option Json := (Token.scan cs).bind ofTokens?

def read (s : String) : Option Json := ofChars? s.toList

end LedgerClient.Json
