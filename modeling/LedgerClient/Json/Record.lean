import LedgerClient.Json.Value

/-!
# Records in JSON

A record is written as an object with a field for each of its parts. It is read from such an
object, whatever the order of the fields and whatever other fields there are, unless one of its
own fields occurs twice; or from an array of its parts in order, which may stop early but not hold
more. What a missing part stands for is for each record to say.
-/

namespace LedgerClient.Json

/-- The parts of a record as they were found, in the record's order. -/
structure Parts where
  /-- Whether the record was written as an array. -/
  positional : Bool
  found : List (Option Json)

/-- The only value under `name`; none when there are several. -/
def uniqueField? (fields : List (Option String × Json)) (name : String) : Option (Option Json) :=
  match fields.filter fun f => f.1 = some name with
  | [] => some none
  | [f] => some (some f.2)
  | _ => none

/-- Finds the parts called `names`. -/
def parts? (names : List String) : Json → Option Parts
  | .array items =>
    if items.length ≤ names.length then
      some ⟨true, items.map some ++ List.replicate (names.length - items.length) none⟩
    else none
  | .object fields =>
    if fields.all (·.1.isSome) then (names.mapM (uniqueField? fields)).map (⟨false, ·⟩) else none
  | _ => none

/-- A part that must be there. -/
def required {α : Type} (f : Json → Option α) (part : Option Json) : Option α := part.bind f

/-- A part that stands for `absent` when it is missing. -/
def orElse {α : Type} (absent : α) (f : Json → Option α) : Option Json → Option α
  | none => some absent
  | some j => f j

end LedgerClient.Json
