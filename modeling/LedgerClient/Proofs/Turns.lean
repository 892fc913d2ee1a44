import LedgerClient.Endorsement.Collect
import Mathlib.Data.List.Basic

/-!
# Asked in turn

Whoever sends one request at a time, each in the light of the result of the one before, leads a
`Dialogue`; its course is settled by the results (`Dialogue.course`).

Candidates that are asked one after the other until one answers: the first ones fail, one answers
unless nobody does, and those after it are not asked (`InTurn`).
-/

namespace LedgerClient

/-- Requests that are sent one at a time. -/
structure Dialogue (σ ρ ε : Type) where
  /-- The request whose result is waited for. -/
  pending : σ → Option ρ
  receive : ρ → ε → σ

namespace Dialogue

variable {σ ρ ε : Type} (d : Dialogue σ ρ ε)

/-- The requests that are sent while results come in, and what the last result leads to. -/
def course : σ → List ε → List ρ × σ
  | s, [] => ((d.pending s).toList, s)
  | s, e :: es =>
    match d.pending s with
    | none => ([], s)
    | some r => (r :: (course (d.receive r e) es).1, (course (d.receive r e) es).2)

variable {d} {s : σ} {r : ρ}

theorem course_of_none (h : d.pending s = none) (es : List ε) : d.course s es = ([], s) := by
  cases es <;> simp [course, h]

theorem course_cons (h : d.pending s = some r) (e : ε) (es : List ε) : d.course s (e :: es) =
    (r :: (d.course (d.receive r e) es).1, (d.course (d.receive r e) es).2) := by
  simp [course, h]

theorem course_concat {es : List ε} (h : d.pending (d.course s es).2 = some r) (e : ε) :
    d.course s (es ++ [e]) =
      ((d.course s es).1 ++ (d.pending (d.receive r e)).toList, d.receive r e) := by
  induction es generalizing s with
  | nil =>
    have hs : d.pending s = some r := h
    simp [course, hs]
  | cons e' es ih =>
    cases hs : d.pending s with
    | none =>
      rw [course_of_none hs, hs] at h
      cases h
    | some r' =>
      rw [course_cons hs] at h
      rw [List.cons_append, course_cons hs, course_cons hs, ih h]
      rfl

end Dialogue

variable {α β : Type}

namespace InTurn

variable {heard : List (α × Except TransportError β)} {failed : List (α × TransportError)}
  {answer : Option (α × β)}

/-- Those that are asked. -/
def asked (failed : List (α × TransportError)) (answer : Option (α × β)) : List α :=
  failed.map (·.1) ++ answer.toList.map (·.1)

end InTurn

end LedgerClient
