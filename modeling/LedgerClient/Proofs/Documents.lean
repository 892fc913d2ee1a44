import LedgerClient.Checkpoint.File
import LedgerClient.Proofs.JsonText
import Mathlib.Data.List.Sort
import Mathlib.Data.String.Basic

/-!
# Checkpoint documents

The document that is written for a checkpoint is read back as this checkpoint
(`Checkpoint.Storable.read_document`), for every id and every block number of sixty-four bits.  A
checkpoint that comes about by changes, or is read from a document, keeps its ids sorted and without
repetition (`Checkpoint.Storable`), so it is determined by its block and the set of its ids
(`Checkpoint.Storable.ext`), and its document depends on nothing else.
-/

namespace LedgerClient

/-! ## Texts in bytes -/

/-- The bytes from a place on come after what was taken before. -/
theorem Bytes.toList_loop_eq (bytes : ByteArray) (i : Nat) (taken : List UInt8) :
    ByteArray.toList.loop bytes i taken = taken.reverse ++ bytes.data.toList.drop i := by
  fun_induction ByteArray.toList.loop bytes i taken with
  | case1 i taken hlt ih =>
    have hcut : bytes.data.toList.drop i = bytes.get! i :: bytes.data.toList.drop (i + 1) := by
      rw [List.drop_eq_getElem_cons (by simpa using hlt)]
      simp [ByteArray.get!, hlt]
    rw [ih, hcut, List.reverse_cons, List.append_assoc, List.singleton_append]
  | case2 i taken hge =>
    have hdone : bytes.data.toList.length ≤ i := by simpa using hge
    rw [List.drop_eq_nil_of_le hdone, List.append_nil]

theorem Bytes.toList_eq (bytes : ByteArray) : bytes.toList = bytes.data.toList := by
  rw [ByteArray.toList, toList_loop_eq]
  simp

theorem Bytes.fromUTF8?_ofText (s : String) : String.fromUTF8? ⟨(ofText s).toArray⟩ = some s := by
  have hbytes : (⟨(ofText s).toArray⟩ : ByteArray) = s.toByteArray := by
    rw [ofText, toList_eq]
    rfl
  rw [hbytes, String.fromUTF8?, dif_pos s.isValidUTF8]
  rfl

/-! ## Parts of a document -/

namespace Json

theorem toList?_ofList {α : Type} {write : α → Json} {read : Json → Option α} {xs : List α}
    (h : ∀ x ∈ xs, read (write x) = some x) : toList? read (ofList write xs) = some xs := by
  change (xs.map write).mapM read = some xs
  induction xs with
  | nil => rfl
  | cons x xs ih =>
    obtain ⟨hx, hxs⟩ := List.forall_mem_cons.1 h
    rw [List.map_cons, List.mapM_cons, hx, ih hxs]
    rfl

/-- A value that may be absent is read again when no value is written as `null`. -/
theorem toOption?_ofOption {α : Type} {write : α → Json} {read : Json → Option α} {x : Option α}
    (h : ∀ a, x = some a → read (write a) = some a) (hnull : ∀ a, write a ≠ .null) :
    toOption? read (ofOption write x) = some x := by
  cases x with
  | none => rfl
  | some a =>
    have hsome : toOption? read (write a) = (read (write a)).map some := by
      unfold toOption?
      split
      · exact absurd ‹_› (hnull a)
      · rfl
    rw [ofOption, hsome, h a rfl, Option.map_some]

theorem toWord?_ofNat {n : Nat} (h : n < Nat.pow 2 64) : toWord? (ofNat n) = some n := by
  simp only [toWord?, ofNat, toNatBelow?, Numeral.ofNat, Numeral.toNat?, and_self, if_true,
    Option.bind_eq_bind, Option.bind_some, if_pos h]

theorem lt_of_toWord? {j : Json} {n : Nat} (h : toWord? j = some n) : n < Nat.pow 2 64 := by
  unfold toWord? toNatBelow? at h
  split at h
  · simp only [Option.bind_eq_bind, Option.bind_eq_some_iff] at h
    obtain ⟨k, -, h⟩ := h
    split_ifs at h with hk
    obtain rfl := Option.some.inj h
    exact hk
  · cases h

theorem toOption?_toWord? {next : Option Nat} (h : ∀ n, next = some n → n < Nat.pow 2 64) :
    toOption? toWord? (ofOption ofNat next) = some next :=
  toOption?_ofOption (fun n hn => toWord?_ofNat (h n hn)) fun _ => Json.noConfusion

theorem lt_of_toOption?_toWord? {j : Json} {n : Nat}
    (h : toOption? toWord? j = some (some n)) : n < Nat.pow 2 64 := by
  unfold toOption? at h
  split at h
  · cases h
  · obtain ⟨m, hm, heq⟩ := Option.map_eq_some_iff.1 h
    obtain rfl := Option.some.inj heq
    exact lt_of_toWord? hm

end Json

/-! ## Changes that fit -/

/-- A change that can be written: a block number has sixty-four bits. -/
def CheckpointChange.Fits : CheckpointChange → Prop
  | .moveTo n => n < Nat.pow 2 64
  | .record _ => True

instance : DecidablePred CheckpointChange.Fits := fun change =>
  match change with
  | .moveTo n => inferInstanceAs (Decidable (n < Nat.pow 2 64))
  | .record _ => inferInstanceAs (Decidable True)

namespace Checkpoint

/-- A checkpoint that a document can hold: the ids are sorted and no id is there twice, and the
block number has sixty-four bits. -/
structure Storable (c : Checkpoint) : Prop where
  sorted : c.delivered.Pairwise (· < ·)
  word : ∀ n, c.next = some n → n < Nat.pow 2 64

theorem storable_empty : empty.Storable := ⟨List.Pairwise.nil, by simp [empty]⟩

theorem sorted_insert (id : String) {ids : List String} (h : ids.Pairwise (· < ·)) :
    (insert id ids).Pairwise (· < ·) := by
  induction ids with
  | nil => exact List.pairwise_singleton _ _
  | cons x ids ih =>
    have htail := List.pairwise_cons.1 h
    rw [insert]
    split_ifs with heq hlt
    · exact h
    · refine List.pairwise_cons.2 ⟨List.forall_mem_cons.2 ⟨hlt, fun y hy => ?_⟩, h⟩
      exact lt_trans hlt (htail.1 y hy)
    · refine List.pairwise_cons.2 ⟨fun y hy => ?_, ih htail.2⟩
      obtain rfl | hy := mem_insert.1 hy
      · exact lt_of_le_of_ne (not_lt.1 hlt) (Ne.symm heq)
      · exact htail.1 y hy

theorem Storable.apply {c : Checkpoint} (h : c.Storable) {change : CheckpointChange}
    (hfit : change.Fits) : (c.apply change).Storable := by
  cases change with
  | moveTo n =>
    refine ⟨List.Pairwise.nil, fun m hm => ?_⟩
    obtain rfl := Option.some.inj hm
    exact hfit
  | record id => exact ⟨sorted_insert id h.sorted, h.word⟩

/-- A checkpoint is determined by its block and the set of its ids. -/
theorem Storable.ext {c c' : Checkpoint} (h : c.Storable) (h' : c'.Storable)
    (hnext : c.next = c'.next) (hids : ∀ id, id ∈ c.delivered ↔ id ∈ c'.delivered) : c = c' := by
  have hlist : c.delivered = c'.delivered := h.sorted.eq_of_mem_iff h'.sorted hids
  cases c
  cases c'
  simp only at hnext hlist
  rw [hnext, hlist]

/-- An id that is there already is not put in again. -/
theorem Storable.apply_known {c : Checkpoint} (h : c.Storable) {id : String}
    (hid : id ∈ c.delivered) : c.apply (.record id) = c := by
  have hfit : (CheckpointChange.record id).Fits := trivial
  refine (h.apply hfit).ext h rfl fun x => ?_
  rw [apply_record, mem_insert]
  exact ⟨fun hx => hx.elim (fun heq => heq ▸ hid) fun hmem => hmem, Or.inr⟩

theorem Storable.apply_idle {c : Checkpoint} (h : c.Storable) {change : CheckpointChange}
    (hidle : CheckpointFile.isIdle c change = true) : c.apply change = c := by
  cases change with
  | moveTo n => cases hidle
  | record id => exact h.apply_known (by simpa [CheckpointFile.isIdle] using hidle)

/-! ## Ids in any order -/

theorem foldl_record_next (ids : List String) (c : Checkpoint) :
    (ids.foldl record c).next = c.next := by
  induction ids generalizing c with
  | nil => rfl
  | cons id ids ih => exact ih _

theorem sorted_foldl_record {ids : List String} :
    ∀ {c : Checkpoint}, c.delivered.Pairwise (· < ·) →
      (ids.foldl record c).delivered.Pairwise (· < ·) := by
  induction ids with
  | nil => exact fun h => h
  | cons id ids ih => exact fun h => ih (sorted_insert id h)

theorem mem_foldl_record {x : String} (ids : List String) (c : Checkpoint) :
    x ∈ (ids.foldl record c).delivered ↔ x ∈ ids ∨ x ∈ c.delivered := by
  induction ids generalizing c with
  | nil => simp
  | cons id ids ih =>
    rw [List.foldl_cons, ih, List.mem_cons]
    change x ∈ ids ∨ x ∈ insert id c.delivered ↔ _
    rw [mem_insert]
    tauto

theorem storable_ofIds {next : Option Nat} {ids : List String}
    (hword : ∀ n, next = some n → n < Nat.pow 2 64) : (ofIds next ids).Storable := by
  refine ⟨sorted_foldl_record List.Pairwise.nil, fun n hn => hword n ?_⟩
  rwa [ofIds, foldl_record_next] at hn

theorem Storable.ofIds_eq {c : Checkpoint} (h : c.Storable) : ofIds c.next c.delivered = c := by
  refine (storable_ofIds h.word).ext h (foldl_record_next _ _) fun id => ?_
  rw [ofIds, mem_foldl_record]
  simp

/-! ## Writing and reading -/

theorem sound_toJson (c : Checkpoint) (stamp : String) : (c.toJson stamp).Sound := by
  refine Json.sound_ofFields ?_
  simp only [List.forall_mem_cons]
  exact ⟨Json.sound_ofOption fun n _ => Json.sound_ofNat n,
    Json.sound_ofList fun id _ => Json.sound_text (some id), Json.sound_text (some stamp), by simp⟩

theorem Storable.ofJson?_toJson {c : Checkpoint} (h : c.Storable) (stamp : String) :
    ofJson? (c.toJson stamp) = some c := by
  have hparts : Json.parts? ["blockNumber", "transactionIds", "updatedAt"] (c.toJson stamp) =
      some ⟨false, [some (Json.ofOption Json.ofNat c.next),
        some (Json.ofList Json.ofText c.delivered), some (Json.ofText stamp)]⟩ := rfl
  have hids : Json.toList? Json.toText? (Json.ofList Json.ofText c.delivered) = some c.delivered :=
    Json.toList?_ofList fun _ _ => rfl
  simp [ofJson?, hparts, Json.orElse, Json.toOption?_toWord? h.word, hids, Json.ofText,
    Json.toText?, h.ofIds_eq]

theorem Storable.read_document {c : Checkpoint} (h : c.Storable) (stamp : String) :
    (Json.read (c.document stamp)).bind ofJson? = some c := by
  rw [document, Json.read_pretty (sound_toJson c stamp), Option.bind_some, h.ofJson?_toJson]

/-- What is read from a document can be written again. -/
theorem storable_of_ofJson? {j : Json} {c : Checkpoint} (h : ofJson? j = some c) : c.Storable := by
  simp only [ofJson?, Option.bind_eq_bind, Option.bind_eq_some_iff] at h
  obtain ⟨parts, -, h⟩ := h
  -- Whichever way the block was read, what follows makes a checkpoint of it and the ids.
  have hrest : ∀ {block : Option (Option Nat)} {ids : Option (List String)} {stamp : Option String},
      (∀ n, block = some (some n) → n < Nat.pow 2 64) →
      (block.bind fun next => ids.bind fun ids => stamp.bind fun _ => pure (ofIds next ids)) =
        some c → c.Storable := by
    intro block ids stamp hword hc
    simp only [Option.bind_eq_some_iff] at hc
    obtain ⟨next, rfl, ids, -, -, -, hc⟩ := hc
    obtain rfl := Option.some.inj hc
    exact storable_ofIds fun n hn => hword n (hn ▸ rfl)
  split at h
  · rename_i next ids stamp hfound
    split_ifs at h with hpositional
    · refine hrest (fun n hn => ?_) h
      obtain ⟨j, -, hj⟩ := Option.bind_eq_some_iff.1 hn
      exact Json.lt_of_toOption?_toWord? hj
    · refine hrest (fun n hn => ?_) h
      cases next with
      | none => cases hn
      | some j => exact Json.lt_of_toOption?_toWord? hn
  · cases h

end Checkpoint

end LedgerClient
