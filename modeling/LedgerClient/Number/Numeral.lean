import LedgerClient.Number.Shortest

/-!
# Written numbers

A numeral is a number as a text writes it: a sign, a whole part without superfluous zeros, the
digits after the point, and an exponent. `Numeral.text` writes one. Whole numbers are read only
from numerals without sign, point and exponent; floating numbers are read from any numeral.
-/

namespace LedgerClient

/-- A number as it is written. -/
structure Numeral where
  negative : Bool
  whole : Nat
  fraction : List Char
  exponent : Option (Bool × Nat)
  deriving DecidableEq, Repr

namespace Numeral

def ofNat (n : Nat) : Numeral := ⟨false, n, [], none⟩

/-- A whole number with a sign. -/
def ofInt (n : Int) : Numeral := ⟨n < 0, n.natAbs, [], none⟩

def digitsOf (n : Nat) : List Char := Nat.toDigits 10 n

def digitValue (c : Char) : Nat := c.toNat - 48

/-- The number that a list of decimal digits writes. -/
def valueOf (digits : List Char) : Nat := digits.foldl (fun n c => 10 * n + digitValue c) 0

/-- The sign of an exponent is always written. -/
def exponentText : Option (Bool × Nat) → List Char
  | none => []
  | some (down, n) => 'e' :: (if down then '-' else '+') :: digitsOf n

def text (n : Numeral) : List Char :=
  (if n.negative then ['-'] else []) ++ digitsOf n.whole ++
    (if n.fraction.isEmpty then [] else '.' :: n.fraction) ++ exponentText n.exponent

/-- The whole number that a numeral without sign, point and exponent writes. -/
def toNat? (n : Numeral) : Option Nat :=
  if n.negative = false ∧ n.fraction = [] ∧ n.exponent = none then some n.whole else none

/-- The whole number, with its sign, that a numeral without point and exponent writes. -/
def toInt? (n : Numeral) : Option Int :=
  if n.fraction = [] ∧ n.exponent = none then some (if n.negative then -n.whole else n.whole)
  else none

/-- The greatest significand that is kept: digits that would pass it are dropped. -/
def significandLimit : Nat := Nat.pow 2 64 - 1

/-- The digits of the whole part that fit, and how many more there are. -/
def takeWhole : Nat → List Char → Nat × Nat
  | s, [] => (s, 0)
  | s, c :: cs =>
    if significandLimit < 10 * s + digitValue c then (s, cs.length + 1)
    else takeWhole (10 * s + digitValue c) cs

/-- Takes the digits after the point that fit; each lowers the exponent by one. -/
def takeFraction : Nat → Int → List Char → Nat × Int
  | s, e, [] => (s, e)
  | s, e, c :: cs =>
    if significandLimit < 10 * s + digitValue c then (s, e)
    else takeFraction (10 * s + digitValue c) (e - 1) cs

/-- Divides by `10 ^ n` in steps of at most `10 ^ 308`, rounding after each. -/
def divideTens : Nat → Binary64 → Nat → Option Binary64
  | 0, x, _ => some x
  | steps + 1, x, n => do
    if n ≤ 308 then x.div? (← Binary64.ofNat? (Nat.pow 10 n))
    else if x.magnitude = 0 then return x
    else divideTens steps (← x.div? (← Binary64.ofNat? (Nat.pow 10 308))) (n - 308)

/-- A significand times a power of ten: the significand, the power and their product or quotient
are each rounded. -/
def scaleTen (significand : Nat) (power : Int) : Option Binary64 := do
  let x ← Binary64.ofNat? significand
  if 0 ≤ power then
    if power ≤ 308 then x.mul? (← Binary64.ofNat? (Nat.pow 10 power.toNat))
    else if x.magnitude = 0 then return x
    else none
  else divideTens ((-power).toNat / 308 + 1) x (-power).toNat

/-- The greatest exponent that is read as written. -/
def exponentLimit : Nat := Nat.pow 2 31 - 1

/-- The absolute value as a floating number; none when it is too large. -/
def absolute? (n : Numeral) : Option Binary64 :=
  let (s, more) := takeWhole 0 (digitsOf n.whole)
  let (s, e) := takeFraction s more n.fraction
  match n.exponent with
  | none => scaleTen s e
  | some (down, x) =>
    if exponentLimit < x then if s ≠ 0 ∧ !down then none else some .zero
    else if s = 0 then some .zero
    else
      let power : Int := if down then e - x else e + x
      let power := max (-(exponentLimit : Int) - 1) (min exponentLimit power)
      if power < -100000 then some .zero else scaleTen s power

/-- The floating number that a numeral stands for. -/
def toBinary64? (n : Numeral) : Option Binary64 :=
  n.absolute?.map fun x => if n.negative then x.neg else x

/-- Writes a floating number with the fewest digits that read back. From `0.00001` up to
`999…` of sixteen places the point is written in place, with at least one digit after it;
beyond, one digit stands before the point and an exponent follows. -/
def ofBinary64 (x : Binary64) : Numeral :=
  let d := x.shortest
  let digits := digitsOf d.digits
  let top := d.power + (digits.length : Int) - 1
  if x.magnitude = 0 then ⟨x.negative, 0, ['0'], none⟩
  else if -5 ≤ top ∧ top ≤ 15 then
    if 0 ≤ d.power then ⟨x.negative, d.digits * Nat.pow 10 d.power.toNat, ['0'], none⟩
    else
      let places := (-d.power).toNat
      let rest := digitsOf (d.digits % Nat.pow 10 places)
      let zeros := if d.digits % Nat.pow 10 places = 0 then places else places - rest.length
      ⟨x.negative, d.digits / Nat.pow 10 places,
        List.replicate zeros '0' ++ (if d.digits % Nat.pow 10 places = 0 then [] else rest), none⟩
  else ⟨x.negative, digitValue (digits.headD '0'), digits.tail, some (top < 0, top.natAbs)⟩

end Numeral

end LedgerClient
