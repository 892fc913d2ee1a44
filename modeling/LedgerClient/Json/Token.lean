import LedgerClient.Json.Value

/-!
# Tokens of JSON text

`Token.scan` cuts a text into brackets, commas, colons, words, numbers and strings, passing over
blanks, tabs and line ends. A number has no superfluous zero in front and a digit on either side
of its point; a string holds no bare control character and only the escapes of the format.
-/

namespace LedgerClient.Json

inductive Token where
  | openArray
  | closeArray
  | openObject
  | closeObject
  | comma
  | colon
  | null
  | bool (b : Bool)
  | number (n : Numeral)
  | text (s : Option String)
  deriving DecidableEq, Repr

namespace Token

/-- A part of a string: a character, or an escape that names half of a surrogate pair. -/
inductive Piece where
  | char (c : Char)
  | half (unit : Nat)

/-- The value of four hexadecimal digits. -/
def fourHex? (a b c d : Char) : Option Nat := do
  let w ← Bytes.hexValue? a
  let x ← Bytes.hexValue? b
  let y ← Bytes.hexValue? c
  let z ← Bytes.hexValue? d
  return ((w * 16 + x) * 16 + y) * 16 + z

/-- What an escape by number stands for. -/
def escaped (unit : Nat) : Piece :=
  if 0xd800 ≤ unit ∧ unit ≤ 0xdfff then .half unit else .char (Char.ofNat unit)

/-- The character that a letter after a backslash stands for. -/
def escapeLetter? (c : Char) : Option Char :=
  if c = '"' then some '"'
  else if c = '\\' then some '\\'
  else if c = '/' then some '/'
  else if c = 'b' then some (Char.ofNat 8)
  else if c = 'f' then some (Char.ofNat 12)
  else if c = 'n' then some '\n'
  else if c = 'r' then some '\r'
  else if c = 't' then some '\t'
  else none

/-- The parts of a string up to its closing quote, and the text after it. -/
def pieces : List Char → Option (List Piece × List Char)
  | [] => none
  | '"' :: rest => some ([], rest)
  | '\\' :: 'u' :: a :: b :: c :: d :: rest => do
    let unit ← fourHex? a b c d
    let (ps, after) ← pieces rest
    return (escaped unit :: ps, after)
  | '\\' :: e :: rest => do
    let c ← escapeLetter? e
    let (ps, after) ← pieces rest
    return (.char c :: ps, after)
  | c :: rest =>
    if c.toNat < 32 ∨ c = '\\' then none
    else do
      let (ps, after) ← pieces rest
      return (.char c :: ps, after)

/-- Joins the halves of surrogate pairs; none when a half stands alone. -/
def join : List Piece → Option (List Char)
  | [] => some []
  | .char c :: rest => (c :: ·) <$> join rest
  | .half high :: .half low :: rest =>
    if high < 0xdc00 ∧ 0xdc00 ≤ low then
      (Char.ofNat (0x10000 + (high - 0xd800) * 1024 + (low - 0xdc00)) :: ·) <$> join rest
    else none
  | .half _ :: _ => none

/-- The digits at the start of a text and the rest. -/
def digits (cs : List Char) : List Char × List Char :=
  (cs.takeWhile Char.isDigit, cs.dropWhile Char.isDigit)

/-- The digits after a point, if there is one; at least one is needed. -/
def fraction : List Char → Option (List Char × List Char)
  | '.' :: rest =>
    let (ds, after) := digits rest
    if ds.isEmpty then none else some (ds, after)
  | cs => some ([], cs)

/-- The sign of an exponent; true is downward. -/
def exponentSign : List Char → Bool × List Char
  | '-' :: rest => (true, rest)
  | '+' :: rest => (false, rest)
  | cs => (false, cs)

/-- The exponent, if there is one. -/
def exponent : List Char → Option (Option (Bool × Nat) × List Char)
  | [] => some (none, [])
  | c :: rest =>
    if c = 'e' ∨ c = 'E' then
      let (down, cs) := exponentSign rest
      let (ds, after) := digits cs
      if ds.isEmpty then none else some (some (down, Numeral.valueOf ds), after)
    else some (none, c :: rest)

/-- A number without its sign. -/
def unsigned (negative : Bool) (cs : List Char) : Option (Numeral × List Char) := do
  let (whole, rest) := digits cs
  if whole.isEmpty ∨ (1 < whole.length ∧ whole.head? = some '0') then none
  else
    let (part, rest) ← fraction rest
    let (e, rest) ← exponent rest
    return (⟨negative, Numeral.valueOf whole, part, e⟩, rest)

/-- The token at the start of a text that begins with no blank, and the rest. -/
def first : List Char → Option (Token × List Char)
  | '[' :: rest => some (.openArray, rest)
  | ']' :: rest => some (.closeArray, rest)
  | '\x7b' :: rest => some (.openObject, rest)
  | '\x7d' :: rest => some (.closeObject, rest)
  | ',' :: rest => some (.comma, rest)
  | ':' :: rest => some (.colon, rest)
  | 'n' :: 'u' :: 'l' :: 'l' :: rest => some (.null, rest)
  | 't' :: 'r' :: 'u' :: 'e' :: rest => some (.bool true, rest)
  | 'f' :: 'a' :: 'l' :: 's' :: 'e' :: rest => some (.bool false, rest)
  | '"' :: rest => (pieces rest).map fun (ps, after) => (.text ((join ps).map String.ofList), after)
  | '-' :: rest => (unsigned true rest).map fun (n, after) => (.number n, after)
  | cs => (unsigned false cs).map fun (n, after) => (.number n, after)

/-- A blank, a tab or a line end. -/
def isBlank (c : Char) : Bool := c = ' ' || c = '\t' || c = '\n' || c = '\r'

/-- The tokens of a text, cut with at most `fuel` steps. -/
def scanWith : Nat → List Char → Option (List Token)
  | 0, _ => none
  | _ + 1, [] => some []
  | fuel + 1, c :: cs =>
    if isBlank c then scanWith fuel cs
    else do
      let (t, rest) ← first (c :: cs)
      return t :: (← scanWith fuel rest)

/-- The tokens of a text; every token takes at least one character. -/
def scan (cs : List Char) : Option (List Token) := scanWith (cs.length + 1) cs

end Token

end LedgerClient.Json
