import LedgerClient.Failure

/-!
# Checkpoints

A checkpoint is how far a listener has come: the next block that it has to process, if it was ever
set, and the ids of the transactions that it has been told of within that block. Moving to a block
forgets the ids. The ids are kept sorted and without repetition.
-/

namespace LedgerClient

/-- How far a listener has come. -/
structure Checkpoint where
  next : Option Nat
  delivered : List String
  deriving DecidableEq, Repr, Inhabited

namespace Checkpoint

/-- Nothing recorded. -/
def empty : Checkpoint := ⟨none, []⟩

/-- Before the first transaction of a block. -/
def startingAt (n : Nat) : Checkpoint := ⟨some n, []⟩

/-- Adds a text to a sorted list, unless it is there. -/
def insert (id : String) : List String → List String
  | [] => [id]
  | x :: xs => if id = x then x :: xs else if id < x then id :: x :: xs else x :: insert id xs

theorem mem_insert {id x : String} {xs : List String} :
    x ∈ insert id xs ↔ x = id ∨ x ∈ xs := by
  induction xs with
  | nil => simp [insert]
  | cons y ys ih =>
    simp only [insert]
    split
    · rename_i h
      simp [h]
    · split
      · simp
      · simp only [List.mem_cons, ih, or_left_comm]

/-- Moves to a block. -/
def moveTo (_ : Checkpoint) (n : Nat) : Checkpoint := startingAt n

/-- Records a transaction of the current block. -/
def record (c : Checkpoint) (id : String) : Checkpoint :=
  { c with delivered := insert id c.delivered }

/-- A checkpoint with ids in any order. -/
def ofIds (next : Option Nat) (ids : List String) : Checkpoint :=
  ids.foldl record ⟨next, []⟩

end Checkpoint

/-- A change to a checkpoint. -/
inductive CheckpointChange where
  | moveTo (n : Nat)
  | record (id : String)
  deriving DecidableEq, Repr

/-- The checkpoint after a change. -/
def Checkpoint.apply (c : Checkpoint) : CheckpointChange → Checkpoint
  | .moveTo n => c.moveTo n
  | .record id => c.record id

namespace Checkpoint

@[simp] theorem apply_moveTo (c : Checkpoint) (n : Nat) : c.apply (.moveTo n) = startingAt n := rfl

@[simp] theorem apply_record (c : Checkpoint) (id : String) :
    c.apply (.record id) = ⟨c.next, insert id c.delivered⟩ := rfl

end Checkpoint

end LedgerClient
