/-!
# Spans of time

A span is a whole number of nanoseconds. Its text uses the largest of `s`, `ms`, `µs` and `ns`
that the span reaches, with an exact decimal fraction and no trailing zeros: `1.5s`, `50ms`, `0ns`.
-/

namespace LedgerClient

/-- A span of time. -/
structure Duration where
  nanos : Nat
  deriving DecidableEq, Repr, Inhabited

namespace Duration

def ofMillis (n : Nat) : Duration := ⟨n * 1000000⟩

def ofSecs (n : Nat) : Duration := ⟨n * 1000000000⟩

/-- The whole milliseconds in a span. -/
def wholeMillis (d : Duration) : Nat := d.nanos / 1000000

/-- The least number of milliseconds that covers a span. -/
def ceilMillis (d : Duration) : Nat := (d.nanos + 999999) / 1000000

/-- The `count` decimal digits of `n`, leading zeros included. -/
def fixedDigits : Nat → Nat → List Char
  | 0, _ => []
  | count + 1, n => fixedDigits count (n / 10) ++ [Char.ofNat (48 + n % 10)]

/-- `n / 10 ^ places` as a decimal without trailing zeros. -/
def decimal (places n : Nat) : String :=
  let digits := fixedDigits places (n % Nat.pow 10 places)
  let fraction := (digits.reverse.dropWhile (· = '0')).reverse
  let whole := toString (n / Nat.pow 10 places)
  if fraction.isEmpty then whole else whole ++ "." ++ String.ofList fraction

def text (d : Duration) : String :=
  if d.nanos ≥ 1000000000 then decimal 9 d.nanos ++ "s"
  else if d.nanos ≥ 1000000 then decimal 6 d.nanos ++ "ms"
  else if d.nanos ≥ 1000 then decimal 3 d.nanos ++ "µs"
  else decimal 0 d.nanos ++ "ns"

end Duration

end LedgerClient
