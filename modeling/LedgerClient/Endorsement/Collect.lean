import LedgerClient.Endorsement.Answer
import LedgerClient.Endorsement.Targets

/-!
# Collecting answers in time

A request has a limit. `Arrival` says when its result is there, if ever, counted from the moment
the request is sent; `Arrival.within` is what the caller gets: the result if it is there by the
limit, else a timeout. Requests to several peers run side by side, and their answers stand in the
order of the peers, whatever the order of arrival.
-/

namespace LedgerClient

/-- When a result is there, in milliseconds after the request, and the result. -/
structure Arrival (α : Type) where
  delay : Option Nat
  result : Except TransportError α

namespace Arrival

/-- The result within a limit; a result that arrives exactly at the limit counts. -/
def within {α : Type} (target : String) (limit : Duration) (a : Arrival α) :
    Except TransportError α :=
  match a.delay with
  | some d => if d ≤ limit.ceilMillis then a.result else .error (.timedOut target limit)
  | none => .error (.timedOut target limit)

/-- How long the caller waits. -/
def wait {α : Type} (limit : Duration) (a : Arrival α) : Nat :=
  match a.delay with
  | some d => min d limit.ceilMillis
  | none => limit.ceilMillis

end Arrival

/-- The answers of peers that were all asked at the same time. -/
def Answer.collect (limit : Duration) (requests : List (Peer × Arrival Reply)) : List Answer :=
  requests.map fun r => Answer.ofResult r.1.name (r.2.within r.1.name limit)

/-- How long it takes until every request has its answer. -/
def Answer.collectTime (limit : Duration) (requests : List (Peer × Arrival Reply)) : Nat :=
  (requests.map fun r => r.2.wait limit).foldl max 0

end LedgerClient
