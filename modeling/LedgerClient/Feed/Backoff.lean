import LedgerClient.Options

/-!
# Waiting between attempts

The wait grows from attempt to attempt by the multiplier until it reaches its longest. It starts
anew when a block is delivered. The real wait is spread at random around the interval, from half of
it to half as much again, which is for whoever keeps the clock to do.
-/

namespace LedgerClient.ReconnectOptions

/-- The interval after `current`: times the multiplier, or the longest once that is reached. A
negative multiplier counts as reaching it. -/
def nextInterval (r : ReconnectOptions) (current : Duration) : Duration :=
  let (num, den) := r.multiplier.ratio
  if r.multiplier.negative then r.longest
  else if r.longest.nanos * den ≤ current.nanos * num then r.longest
  else ⟨current.nanos * num / den⟩

end LedgerClient.ReconnectOptions
