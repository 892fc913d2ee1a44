/-!
# Floating numbers of sixty-four bits

A finite number of the binary64 format is a sign and a magnitude, the sixty-three low bits of its
encoding: neighbouring magnitudes encode neighbouring numbers, so that rounding carries from one
exponent to the next by itself. `Binary64.ofRatio?` rounds any ratio to the nearest number, ties
to the even magnitude, and all arithmetic rounds the exact result through it.
-/

namespace LedgerClient

/-- A finite number of the binary64 format. -/
structure Binary64 where
  negative : Bool
  magnitude : Nat
  finite : magnitude < 2047 * Nat.pow 2 52
  deriving DecidableEq, Repr

namespace Binary64

/-- The quotient rounded to the nearest whole number, a tie to the even one. -/
def roundHalfEven (num den : Nat) : Nat :=
  let q := num / den
  let r := num % den
  if 2 * r < den then q else if den < 2 * r then q + 1 else if q % 2 = 0 then q else q + 1

def zero : Binary64 := ⟨false, 0, by decide⟩

/-- Multiplies a ratio by a power of two. -/
def scaleTwo (num den : Nat) (power : Int) : Nat × Nat :=
  if 0 ≤ power then (num * Nat.pow 2 power.toNat, den) else (num, den * Nat.pow 2 (-power).toNat)

/-- The exponent of the greatest power of two that is at most `num / den`. -/
def floorLog (num den : Nat) : Int :=
  let e : Int := (Nat.log2 num : Int) - (Nat.log2 den : Int)
  let (n, d) := scaleTwo num den (-e)
  if d ≤ n then e else e - 1

/-- The magnitude nearest to `num / den`; it may lie beyond the finite ones. -/
def nearestMagnitude (num den : Nat) : Nat :=
  if num = 0 then 0
  else
    let unit := max (floorLog num den - 52) (-1074)
    let (n, d) := scaleTwo num den (-unit)
    (unit + 1074).toNat * Nat.pow 2 52 + roundHalfEven n d

/-- The number nearest to a ratio with the given sign, unless it is too large to be finite. -/
def ofRatio? (negative : Bool) (num den : Nat) : Option Binary64 :=
  let m := nearestMagnitude num den
  if h : m < 2047 * Nat.pow 2 52 then some ⟨negative, m, h⟩ else none

/-- The whole significand: the number is this times a power of two. -/
def significand (x : Binary64) : Nat :=
  if x.magnitude / Nat.pow 2 52 = 0 then x.magnitude else Nat.pow 2 52 + x.magnitude % Nat.pow 2 52

/-- The power of two that the significand is multiplied by. -/
def exponent (x : Binary64) : Int := (max (x.magnitude / Nat.pow 2 52) 1 : Nat) - 1075

/-- The absolute value as a ratio of whole numbers. -/
def ratio (x : Binary64) : Nat × Nat := scaleTwo x.significand 1 x.exponent

def mul? (x y : Binary64) : Option Binary64 :=
  ofRatio? (x.negative != y.negative) (x.ratio.1 * y.ratio.1) (x.ratio.2 * y.ratio.2)

/-- The quotient by a number other than zero, rounded. -/
def div? (x y : Binary64) : Option Binary64 :=
  ofRatio? (x.negative != y.negative) (x.ratio.1 * y.ratio.2) (x.ratio.2 * y.ratio.1)

/-- The number nearest to a whole number. -/
def ofNat? (n : Nat) : Option Binary64 := ofRatio? false n 1

/-- The same number with the other sign. -/
def neg (x : Binary64) : Binary64 := ⟨!x.negative, x.magnitude, x.finite⟩

end Binary64

end LedgerClient
