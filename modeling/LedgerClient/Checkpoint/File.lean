import LedgerClient.Checkpoint.Disk
import LedgerClient.Checkpoint.State
import LedgerClient.Json.Reader
import LedgerClient.Json.Record
import LedgerClient.Json.Writer

/-!
# Checkpoints in a file

The file holds a JSON document with the next block, the sorted ids and the time of writing. An
update writes the whole new document to a temporary file beside it and then renames that file, so
the path always holds a complete document. `Fate` says what becomes of the two steps, for it may
go wrong at either, or stop between them.
-/

namespace LedgerClient

namespace Checkpoint

/-- The document that holds a checkpoint. -/
def toJson (c : Checkpoint) (stamp : String) : Json :=
  .ofFields [("blockNumber", .ofOption Json.ofNat c.next),
    ("transactionIds", .ofList Json.ofText c.delivered), ("updatedAt", .ofText stamp)]

def document (c : Checkpoint) (stamp : String) : String := (c.toJson stamp).pretty

/-- Reads a document. The block may be left out of an object but not of an array. -/
def ofJson? (j : Json) : Option Checkpoint := do
  let parts ← Json.parts? ["blockNumber", "transactionIds", "updatedAt"] j
  match parts.found with
  | [next, ids, stamp] =>
    let next ← if parts.positional then Json.required (Json.toOption? Json.toWord?) next
      else Json.orElse none (Json.toOption? Json.toWord?) next
    let ids ← Json.orElse [] (Json.toList? Json.toText?) ids
    let _ ← Json.orElse "" Json.toText? stamp
    return ofIds next ids
  | _ => none

end Checkpoint

/-- What becomes of the writing of the temporary file. -/
inductive WriteFate where
  | completes
  /-- It fails before the file is touched. -/
  | refused
  /-- It fails after some bytes. -/
  | cut (bytes : Nat)
  deriving DecidableEq, Repr

/-- What becomes of the renaming. -/
inductive RenameFate where
  | completes
  | refused
  /-- The process stops before it. -/
  | never
  deriving DecidableEq, Repr

/-- What becomes of the two steps of an update. -/
structure Fate where
  write : WriteFate
  rename : RenameFate
  deriving DecidableEq, Repr

/-- Nothing goes wrong. -/
def Fate.smooth : Fate := ⟨.completes, .completes⟩

/-- How an update ends. -/
inductive UpdateEnd where
  | done
  | failed (cause : CheckpointError)
  | stopped
  deriving DecidableEq, Repr

/-- A checkpoint that is kept in a file. -/
structure CheckpointFile where
  path : String
  state : Checkpoint
  deriving DecidableEq, Repr

namespace CheckpointFile

/-- The path of the temporary file. -/
def temporary (path : String) : String := path ++ ".tmp"

/-- Opens the checkpoint at a path; where there is no file it is empty. -/
def openAt (d : Disk) (path : String) : Except CheckpointError CheckpointFile :=
  match d.node? path with
  | none => if d.isBlocked path then .error (.storage "not a directory") else .ok ⟨path, .empty⟩
  | some .folder => .error (.storage "is a directory")
  | some (.file content) =>
    match String.fromUTF8? ⟨content.toArray⟩ with
    | none => .error (.storage "stream did not contain valid UTF-8")
    | some text =>
      match (Json.read text).bind Checkpoint.ofJson? with
      | none => .error (.malformed "not a checkpoint document")
      | some state => .ok ⟨path, state⟩

/-- Writes a document to the path by way of the temporary file. -/
def persist (d : Disk) (path : String) (content : Bytes) (fate : Fate) : Disk × UpdateEnd :=
  let written :=
    match fate.write with
    | .completes => (d.write? (temporary path) content).map (·, true)
    | .refused => none
    | .cut bytes => (d.write? (temporary path) (content.take bytes)).map (·, false)
  match written with
  | none => (d, .failed (.storage "the temporary file cannot be written"))
  | some (d, false) => (d, .failed (.storage "the temporary file is incomplete"))
  | some (d, true) =>
    match fate.rename with
    | .never => (d, .stopped)
    | .refused => (d, .failed (.storage "the temporary file cannot be renamed"))
    | .completes =>
      match d.rename? (temporary path) path with
      | some d => (d, .done)
      | none => (d, .failed (.storage "the temporary file cannot be renamed"))

/-- Whether a change leaves a checkpoint as it is, so that nothing is written. -/
def isIdle (c : Checkpoint) : CheckpointChange → Bool
  | .moveTo _ => false
  | .record id => id ∈ c.delivered

/-- Applies a change: the state follows only when the new document is in place. -/
def update (d : Disk) (f : CheckpointFile) (change : CheckpointChange) (stamp : String)
    (fate : Fate) : Disk × CheckpointFile × UpdateEnd :=
  if isIdle f.state change then (d, f, .done)
  else
    let next := f.state.apply change
    match persist d f.path (Bytes.ofText (next.document stamp)) fate with
    | (d, .done) => (d, { f with state := next }, .done)
    | (d, ending) => (d, f, ending)

end CheckpointFile

end LedgerClient
