import LedgerClient.Commit.Quorum
import LedgerClient.Query.Chooser

/-!
# Options of a client

Limits on requests and on the wait for confirmation, the default quorum, the query strategy, and
how a broken feed is taken up again. In JSON a span of time is a whole number of milliseconds,
every part may be left out and then has its default, and nothing else is accepted for a part.
-/

namespace LedgerClient

/-- How a feed waits between attempts to connect. -/
structure ReconnectOptions where
  initial : Duration
  longest : Duration
  multiplier : Binary64
  deriving DecidableEq, Repr

structure Options where
  proposalTimeout : Duration
  commitTimeout : Duration
  commitPolicy : CommitPolicy
  queryStrategy : QueryStrategy
  discoveryEnabled : Bool
  reconnect : ReconnectOptions
  deriving DecidableEq, Repr

namespace ReconnectOptions

/-- Half a second at first, twice as long each time, half a minute at most. -/
def default : ReconnectOptions :=
  ⟨.ofMillis 500, .ofMillis 30000, ⟨false, 1024 * Nat.pow 2 52, by decide⟩⟩

end ReconnectOptions

namespace Options

/-- Half a minute for a request, five minutes for confirmation by the own organization. -/
def default : Options :=
  ⟨.ofMillis 30000, .ofMillis 300000, .organizationAll, .sticky, true, .default⟩

end Options

/-- A span of time as JSON: its whole milliseconds, at most what sixty-four bits hold. -/
def Duration.toJson (d : Duration) : Json := .ofNat (min d.wholeMillis (Nat.pow 2 64 - 1))

/-- Reads a span of whole milliseconds. -/
def Duration.ofJson? (j : Json) : Option Duration := j.toWord?.map .ofMillis

def CommitPolicy.toJson (p : CommitPolicy) : Json := .ofText p.text

def CommitPolicy.ofJson? (j : Json) : Option CommitPolicy := j.toConstant?.bind CommitPolicy.ofText?

def QueryStrategy.toJson (s : QueryStrategy) : Json := .ofText s.text

def QueryStrategy.ofJson? (j : Json) : Option QueryStrategy :=
  j.toConstant?.bind QueryStrategy.ofText?

namespace ReconnectOptions

def toJson (r : ReconnectOptions) : Json :=
  .ofFields [("initialInterval", r.initial.toJson), ("maxInterval", r.longest.toJson),
    ("multiplier", .number (.ofBinary64 r.multiplier))]

def ofJson? (j : Json) : Option ReconnectOptions := do
  match (← Json.parts? ["initialInterval", "maxInterval", "multiplier"] j).found with
  | [initial, longest, multiplier] =>
    return ⟨← Json.orElse default.initial Duration.ofJson? initial,
      ← Json.orElse default.longest Duration.ofJson? longest,
      ← Json.orElse default.multiplier Json.toBinary64? multiplier⟩
  | _ => none

end ReconnectOptions

namespace Options

def toJson (o : Options) : Json :=
  .ofFields [("proposalTimeout", o.proposalTimeout.toJson),
    ("commitTimeout", o.commitTimeout.toJson), ("commitStrategy", o.commitPolicy.toJson),
    ("queryStrategy", o.queryStrategy.toJson),
    ("discoveryEnabled", .bool o.discoveryEnabled), ("reconnect", o.reconnect.toJson)]

def ofJson? (j : Json) : Option Options := do
  match (← Json.parts? ["proposalTimeout", "commitTimeout", "commitStrategy", "queryStrategy",
    "discoveryEnabled", "reconnect"] j).found with
  | [proposalTimeout, commitTimeout, policy, strategy, discovery, reconnect] =>
    return ⟨← Json.orElse default.proposalTimeout Duration.ofJson? proposalTimeout,
      ← Json.orElse default.commitTimeout Duration.ofJson? commitTimeout,
      ← Json.orElse default.commitPolicy CommitPolicy.ofJson? policy,
      ← Json.orElse default.queryStrategy QueryStrategy.ofJson? strategy,
      ← Json.orElse default.discoveryEnabled Json.toBool? discovery,
      ← Json.orElse default.reconnect ReconnectOptions.ofJson? reconnect⟩
  | _ => none

end Options

end LedgerClient
