import LedgerClient.Number.Binary64

/-!
# The fewest digits that read back

`Binary64.shortest` finds the decimal with the fewest digits among those that round to a given
number, and of those the nearest one. A decimal is a whole number of digits and a power of ten.
For each count of digits only the two neighbours of the number on the grid of that count can lie
nearest, so the first grid with a neighbour inside the rounding interval wins.
-/

namespace LedgerClient

/-- A whole number times a power of ten. -/
structure Decimal where
  digits : Nat
  power : Int
  deriving DecidableEq, Repr

namespace Binary64

/-- Compares two ratios: whether `a ≤ b`. -/
def ratioLe (a b : Nat × Nat) : Bool := a.1 * b.2 ≤ b.1 * a.2

/-- Compares two ratios: whether `a < b`. -/
def ratioLt (a b : Nat × Nat) : Bool := a.1 * b.2 < b.1 * a.2

/-- The ends of the interval that rounds to `x`: halfway to the neighbours on either side. -/
def roundingEnds (x : Binary64) : (Nat × Nat) × (Nat × Nat) :=
  let s := x.significand
  let narrow := s = Nat.pow 2 52 ∧ 1 < x.magnitude / Nat.pow 2 52
  let low := if narrow then 4 * s - 1 else 4 * s - 2
  (scaleTwo low 1 (x.exponent - 2), scaleTwo (4 * s + 2) 1 (x.exponent - 2))

/-- Whether a ratio rounds to `x`; an end belongs to the number with the even significand. -/
def roundsTo (x : Binary64) (r : Nat × Nat) : Bool :=
  let (low, high) := x.roundingEnds
  if x.significand % 2 = 0 then ratioLe low r && ratioLe r high
  else ratioLt low r && ratioLt r high

/-- A decimal as a ratio. -/
def decimalRatio (d : Decimal) : Nat × Nat :=
  if 0 ≤ d.power then (d.digits * Nat.pow 10 d.power.toNat, 1)
  else (d.digits, Nat.pow 10 (-d.power).toNat)

/-- The exponent of the greatest power of ten that is at most a positive ratio. -/
def floorLogTen (r : Nat × Nat) : Int :=
  (toString (r.1 * Nat.pow 10 400 / r.2)).length - 401

/-- The decimals next to `x` that are multiples of `10 ^ power`, the nearer one first. -/
def neighbours (x : Binary64) (power : Int) : List Decimal :=
  let (num, den) := x.ratio
  let (n, d) :=
    if 0 ≤ power then (num, den * Nat.pow 10 power.toNat)
    else (num * Nat.pow 10 (-power).toNat, den)
  let low := n / d
  if 2 * (n % d) < d ∨ (2 * (n % d) = d ∧ low % 2 = 0) then [⟨low, power⟩, ⟨low + 1, power⟩]
  else [⟨low + 1, power⟩, ⟨low, power⟩]

/-- Looks on grids of one digit more each time. -/
def searchShortest (x : Binary64) (top : Int) : Nat → Nat → Option Decimal
  | 0, _ => none
  | tries + 1, count =>
    let fits (d : Decimal) : Bool := 0 < d.digits && x.roundsTo (decimalRatio d)
    match (x.neighbours (top - count)).find? fits with
    | some d => some d
    | none => searchShortest x top tries (count + 1)

/-- Moves trailing zeros from the digits into the power. -/
def trimZeros : Nat → Decimal → Decimal
  | 0, d => d
  | steps + 1, d =>
    if d.digits ≠ 0 ∧ d.digits % 10 = 0 then trimZeros steps ⟨d.digits / 10, d.power + 1⟩ else d

/-- The decimal with the fewest digits that rounds to `x`, the nearest of them. -/
def shortest (x : Binary64) : Decimal :=
  if x.magnitude = 0 then ⟨0, 0⟩
  else trimZeros 20 ((searchShortest x (floorLogTen x.ratio) 20 0).getD ⟨0, 0⟩)

end Binary64

end LedgerClient
