import LedgerClient.Ledger.BlockJson
import LedgerClient.Proofs.Documents

/-!
# Blocks in text and back

A block that is written is read as itself, whatever its texts, its bytes and its number of
sixty-four bits are, as long as no validation code hides the name of another
(`Block.WellFormed.read_text`).  What is read from a text is such a block
(`Block.wellFormed_of_ofJson?`), however the text puts its fields, so it survives being written and
read once more.  A validation code keeps the string that was reported, and only one string means
that the transaction took effect (`ValidationCode.ofJson?_ofText`).  Together:
`block_texts_round_trip`.
-/

namespace LedgerClient

/-! ## Bytes -/

namespace Json

theorem toByte?_ofNat (b : UInt8) : toByte? (ofNat b.toNat) = some b := by
  have hb : b.toNat < 256 := b.toNat_lt
  simp only [toByte?, ofNat, toNatBelow?, Numeral.ofNat, Numeral.toNat?, and_self, if_true,
    Option.bind_eq_bind, Option.bind_some, if_pos hb, Option.map_some, UInt8.ofNat_toNat]

theorem toBytes?_ofBytes (bytes : List UInt8) : toBytes? (ofBytes bytes) = some bytes :=
  toList?_ofList fun b _ => toByte?_ofNat b

theorem toOption?_toBytes? (bytes : Option (List UInt8)) :
    toOption? toBytes? (ofOption ofBytes bytes) = some bytes :=
  toOption?_ofOption (fun bytes _ => toBytes?_ofBytes bytes) fun _ => Json.noConfusion

theorem sound_ofBytes (bytes : Option (List UInt8)) : (ofOption ofBytes bytes).Sound :=
  sound_ofOption fun _ _ => sound_ofList fun b _ => sound_ofNat b.toNat

theorem exists_of_mem_mapM {α : Type} {read : Json → Option α} {items : List Json} {xs : List α}
    (h : items.mapM read = some xs) {x : α} (hx : x ∈ xs) : ∃ item, read item = some x := by
  induction items generalizing xs with
  | nil =>
    obtain rfl := Option.some.inj h
    cases hx
  | cons item items ih =>
    simp only [List.mapM_cons, Option.bind_eq_bind, Option.bind_eq_some_iff] at h
    obtain ⟨y, hy, ys, hys, hxs⟩ := h
    obtain rfl := Option.some.inj hxs
    obtain rfl | hx := List.mem_cons.1 hx
    · exact ⟨item, hy⟩
    · exact ih hys hx

/-- What stands in a list was read from one of its items. -/
theorem exists_of_mem_toList? {α : Type} {read : Json → Option α} {j : Json} {xs : List α}
    (h : toList? read j = some xs) {x : α} (hx : x ∈ xs) : ∃ item, read item = some x := by
  unfold toList? at h
  split at h
  · exact exists_of_mem_mapM h hx
  · cases h

end Json

/-! ## Kinds and codes -/

theorem BlockKind.ofJson?_toJson (k : BlockKind) : ofJson? k.toJson = some k := by
  cases k <;> rfl

namespace ValidationCode

/-- A code that is not kept as a string although it has a constructor of its own. -/
def Canonical : ValidationCode → Prop
  | .other s => ∀ c ∈ named, c.text ≠ s
  | _ => True

instance : DecidablePred Canonical := fun c =>
  match c with
  | .other s => inferInstanceAs (Decidable (∀ c ∈ named, c.text ≠ s))
  | .valid | .readConflict | .phantomReadConflict | .policyFailure | .duplicateId | .badPayload =>
    inferInstanceAs (Decidable True)

theorem canonical_of_mem_named {c : ValidationCode} (h : c ∈ named) : c.Canonical := by
  revert c
  decide

theorem text_of_named? {s : String} {c : ValidationCode} (h : named? s = some c) : c.text = s := by
  simpa using List.find?_some h

theorem text_ofText (s : String) : (ofText s).text = s := by
  unfold ofText
  cases h : named? s with
  | none => rfl
  | some c => exact text_of_named? h

theorem canonical_ofText (s : String) : (ofText s).Canonical := by
  unfold ofText
  cases h : named? s with
  | none =>
    have hnone := List.find?_eq_none.1 h
    exact fun c hc => by simpa using hnone c hc
  | some c => exact canonical_of_mem_named (List.mem_of_find?_eq_some h)

theorem Canonical.ofText_text {c : ValidationCode} (h : c.Canonical) : ofText c.text = c := by
  cases c with
  | other s =>
    have hnone : named? s = none := List.find?_eq_none.2 fun c hc => by simpa using h c hc
    rw [text, ofText, hnone, Option.getD_none]
  | _ => rfl

theorem ofJson?_ofText (s : String) : ofJson? (.ofText s) = some (ofText s) := rfl

theorem Canonical.ofJson?_toJson {c : ValidationCode} (h : c.Canonical) :
    ofJson? c.toJson = some c := by
  rw [toJson, ofJson?_ofText, h.ofText_text]

theorem canonical_of_ofJson? {j : Json} {c : ValidationCode} (h : ofJson? j = some c) :
    c.Canonical := by
  unfold ofJson? at h
  split at h
  · obtain rfl := Option.some.inj h
    exact canonical_ofText _
  · obtain ⟨s, -, hs⟩ := Option.bind_eq_some_iff.1 h
    exact canonical_of_mem_named (List.mem_of_find?_eq_some hs)

theorem isValid_ofText (s : String) : (ofText s).isValid = true ↔ s = valid.text := by
  constructor
  · intro h
    have hvalid : ofText s = valid := by
      cases hc : ofText s <;> first | rfl | simp [hc, isValid] at h
    rw [← text_ofText s, hvalid]
  · rintro rfl
    rfl

end ValidationCode

/-! ## Events and transactions -/

namespace ChaincodeEvent

theorem sound_toJson (e : ChaincodeEvent) : e.toJson.Sound := by
  refine Json.sound_ofFields ?_
  simp only [List.forall_mem_cons]
  exact ⟨Json.sound_text _, Json.sound_text _, Json.sound_ofBytes e.payload, by simp⟩

theorem ofJson?_toJson (e : ChaincodeEvent) : ofJson? e.toJson = some e := by
  have hparts : Json.parts? ["chaincodeId", "eventName", "payload"] e.toJson =
      some ⟨false, [some (.ofText e.chaincode), some (.ofText e.name),
        some (.ofOption Json.ofBytes e.payload)]⟩ := rfl
  simp [ofJson?, hparts, Json.required, Json.orElse, Json.ofText, Json.toText?,
    Json.toOption?_toBytes?]

end ChaincodeEvent

namespace BlockTransaction

theorem sound_toJson (t : BlockTransaction) : t.toJson.Sound := by
  refine Json.sound_ofFields ?_
  simp only [List.forall_mem_cons]
  exact ⟨Json.sound_text _, Json.sound_text _, Json.sound_ofList fun e _ => e.sound_toJson,
    Json.sound_ofBytes t.confidential, by simp⟩

theorem ofJson?_toJson {t : BlockTransaction} (h : t.code.Canonical) :
    ofJson? t.toJson = some t := by
  have hparts : Json.parts? ["transactionId", "validationCode", "chaincodeEvents", "privateData"]
      t.toJson = some ⟨false, [some (.ofText t.id), some t.code.toJson,
        some (.ofList ChaincodeEvent.toJson t.events),
        some (.ofOption Json.ofBytes t.confidential)]⟩ := rfl
  have hevents : Json.toList? ChaincodeEvent.ofJson? (.ofList ChaincodeEvent.toJson t.events) =
      some t.events := Json.toList?_ofList fun e _ => e.ofJson?_toJson
  simp [ofJson?, hparts, Json.required, Json.orElse, Json.ofText, Json.toText?,
    h.ofJson?_toJson, hevents, Json.toOption?_toBytes?]

theorem canonical_of_ofJson? {j : Json} {t : BlockTransaction} (h : ofJson? j = some t) :
    t.code.Canonical := by
  simp only [ofJson?, Option.bind_eq_bind, Option.bind_eq_some_iff] at h
  obtain ⟨parts, -, h⟩ := h
  split at h
  · simp only [Option.bind_eq_some_iff] at h
    obtain ⟨id, -, code, hcode, events, -, confidential, -, ht⟩ := h
    obtain rfl := Option.some.inj ht
    obtain ⟨j, -, hj⟩ := Option.bind_eq_some_iff.1 hcode
    exact ValidationCode.canonical_of_ofJson? hj
  · cases h

end BlockTransaction

/-! ## Blocks -/

namespace Block

/-- A block as a peer can report it: its number has sixty-four bits, and no code is kept as a
string that names another code. -/
structure WellFormed (b : Block) : Prop where
  word : b.number < Nat.pow 2 64
  canonical : ∀ t ∈ b.transactions, t.code.Canonical

theorem sound_toJson (b : Block) : b.toJson.Sound := by
  refine Json.sound_ofFields ?_
  simp only [List.forall_mem_cons]
  exact ⟨Json.sound_ofNat _, Json.sound_text _, Json.sound_ofList fun t _ => t.sound_toJson,
    Json.sound_ofBytes b.raw, by simp⟩

theorem WellFormed.ofJson?_toJson {b : Block} (h : b.WellFormed) : ofJson? b.toJson = some b := by
  have hparts : Json.parts? ["blockNumber", "blockType", "transactions", "rawBlock"] b.toJson =
      some ⟨false, [some (.ofNat b.number), some b.kind.toJson,
        some (.ofList BlockTransaction.toJson b.transactions),
        some (.ofOption Json.ofBytes b.raw)]⟩ := rfl
  have htransactions : Json.toList? BlockTransaction.ofJson?
      (.ofList BlockTransaction.toJson b.transactions) = some b.transactions :=
    Json.toList?_ofList fun t ht => BlockTransaction.ofJson?_toJson (h.canonical t ht)
  simp [ofJson?, hparts, Json.required, Json.orElse, Json.toWord?_ofNat h.word,
    BlockKind.ofJson?_toJson, htransactions, Json.toOption?_toBytes?]

theorem WellFormed.read_text {b : Block} (h : b.WellFormed) :
    (Json.read b.toJson.compact).bind ofJson? = some b := by
  rw [Json.read_compact b.sound_toJson, Option.bind_some, h.ofJson?_toJson]

/-- What is read as a block can be written, whatever was left out or put in another order. -/
theorem wellFormed_of_ofJson? {j : Json} {b : Block} (h : ofJson? j = some b) : b.WellFormed := by
  simp only [ofJson?, Option.bind_eq_bind, Option.bind_eq_some_iff] at h
  obtain ⟨parts, -, h⟩ := h
  split at h
  · simp only [Option.bind_eq_some_iff] at h
    obtain ⟨number, hnumber, kind, -, transactions, htransactions, raw, -, hb⟩ := h
    obtain rfl := Option.some.inj hb
    obtain ⟨j, -, hj⟩ := Option.bind_eq_some_iff.1 hnumber
    refine ⟨Json.lt_of_toWord? hj, fun t ht => ?_⟩
    unfold Json.orElse at htransactions
    split at htransactions
    · obtain rfl := Option.some.inj htransactions
      cases ht
    · obtain ⟨item, hitem⟩ := Json.exists_of_mem_toList? htransactions ht
      exact BlockTransaction.canonical_of_ofJson? hitem
  · cases h

end Block

/-- Blocks survive their text.  A block with a number of sixty-four bits whose codes hide no other
code is read from what is written for it.  Any string is read as a code that keeps it and writes
it again, and only one string is the code of a valid transaction.  Whatever text is read as a
block, the block is read again from what is written for it. -/
theorem block_texts_round_trip :
    (∀ b : Block, b.number < Nat.pow 2 64 → (∀ t ∈ b.transactions, t.code.Canonical) →
      (Json.read b.toJson.compact).bind Block.ofJson? = some b) ∧
    (∀ s : String, Json.read (Json.ofText s).compact = some (.ofText s)) ∧
    (∀ (s text : String), Json.read text = some (.ofText s) →
      ∃ c, (Json.read text).bind ValidationCode.ofJson? = some c ∧ c.text = s ∧
        c.toJson.compact = (Json.ofText s).compact ∧ (c.isValid = true ↔ s = "VALID")) ∧
    ∀ (text : String) (b : Block), (Json.read text).bind Block.ofJson? = some b →
      (Json.read b.toJson.compact).bind Block.ofJson? = some b := by
  refine ⟨fun b hword hcanonical => Block.WellFormed.read_text ⟨hword, hcanonical⟩,
    fun s => Json.read_compact (Json.sound_text _), fun s text htext => ?_, fun text b hb => ?_⟩
  · refine ⟨.ofText s, ?_, ValidationCode.text_ofText s, ?_, ValidationCode.isValid_ofText s⟩
    · rw [htext, Option.bind_some, ValidationCode.ofJson?_ofText]
    · rw [ValidationCode.toJson, ValidationCode.text_ofText]
  · obtain ⟨j, -, hj⟩ := Option.bind_eq_some_iff.1 hb
    exact (Block.wellFormed_of_ofJson? hj).read_text

/-- The last block that has a number, with a code of the peer's own, a text that needs escapes,
and bytes that are absent, none, and some. -/
def lastBlock : Block :=
  { number := Nat.pow 2 64 - 1
    kind := .confidential
    transactions :=
      [⟨"say \"hi\"\n", .other "EXPIRED_CHAINCODE", [⟨"token", "minted", some [0, 255]⟩], none⟩,
        ⟨"", .badPayload, [⟨"token", "", none⟩], some []⟩]
    raw := some [] }

/-- The last block comes back; an escaped letter still makes the one valid code; and a block whose
fields are out of order or left out, with a transaction as an array, comes back as it was read. -/
theorem block_texts_round_trip_lastBlock :
    (Json.read lastBlock.toJson.compact).bind Block.ofJson? = some lastBlock ∧
    (∃ c, (Json.read "\"\\u0056ALID\"").bind ValidationCode.ofJson? = some c ∧
      c.text = "VALID" ∧ c.toJson.compact = (Json.ofText "VALID").compact ∧
      (c.isValid = true ↔ "VALID" = "VALID")) ∧
    (Json.read (Block.mk 7 .full [⟨"a", .valid, [], none⟩] none).toJson.compact).bind
      Block.ofJson? = some ⟨7, .full, [⟨"a", .valid, [], none⟩], none⟩ := by
  obtain ⟨hblocks, -, hcodes, hagain⟩ := block_texts_round_trip
  refine ⟨hblocks lastBlock (by decide) (by decide), hcodes "VALID" _ ?_,
    hagain ("\x7b\"blockType\":\"full\", \"blockNumber\":7, \"seen\":[], " ++
      "\"transactions\":[[\"a\", \x7b\"VALID\":null\x7d]]\x7d") _ (by decide +kernel)⟩
  have hchars : "\"\\u0056ALID\"" =
      String.ofList ['"', '\\', 'u', '0', '0', '5', '6', 'A', 'L', 'I', 'D', '"'] := by decide
  rw [hchars, Json.read, String.toList_ofList]
  rfl

end LedgerClient
