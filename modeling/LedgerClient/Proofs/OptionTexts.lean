import LedgerClient.Options
import LedgerClient.Proofs.Documents

/-!
# Options in text and back

What is read from the text of options are these options with their spans of time cut down to what
sixty-four bits hold in whole milliseconds (`Options.inMillis`), so a second time nothing changes.
An object may also hold some of the fields only, in any order and among others (`Json.Excerpt`).
Then each field that is there counts for itself, in the object and in the one for reconnecting, and
the rest is as by default (`Options.only`).  What carries the proof is that an excerpt has each
field once or not at all (`Json.Excerpt.filter_eq`).  Together: `options_survive_their_text`.
-/

namespace LedgerClient

/-! ## Objects with some of the fields -/

namespace Json

/-- Some of the fields of a record, each with its value, in any order and among other fields. -/
def Excerpt (full fields : List (String × Json)) : Prop :=
  ∃ present others, present.Sublist full ∧ (∀ f ∈ others, f.1 ∉ full.map Prod.fst) ∧
    fields.Perm (present ++ others)

section Excerpt

variable {full fields : List (String × Json)} {f : String × Json}

theorem excerpt_self (full : List (String × Json)) : Excerpt full full :=
  ⟨full, [], List.Sublist.refl full, by simp, by rw [List.append_nil]⟩

theorem filter_name_eq (hfull : (full.map Prod.fst).Nodup) (hf : f ∈ full) :
    full.filter (·.1 = f.1) = [f] := by
  induction full with
  | nil => cases hf
  | cons g full ih =>
    rw [List.map_cons, List.nodup_cons] at hfull
    rcases List.mem_cons.1 hf with rfl | hf
    · have hnone : full.filter (·.1 = f.1) = [] := List.filter_eq_nil_iff.2 fun g hg heq =>
        hfull.1 (of_decide_eq_true heq ▸ List.mem_map_of_mem hg)
      rw [List.filter_cons_of_pos (by simp), hnone]
    · have hne : g.1 ≠ f.1 := fun heq => hfull.1 (heq ▸ List.mem_map_of_mem hf)
      rw [List.filter_cons_of_neg (by simpa using hne), ih hfull.2 hf]

/-- A field of the record is in an excerpt once, or not at all. -/
theorem Excerpt.filter_eq (h : Excerpt full fields) (hfull : (full.map Prod.fst).Nodup)
    (hf : f ∈ full) :
    fields.filter (·.1 = f.1) = if f.1 ∈ fields.map Prod.fst then [f] else [] := by
  obtain ⟨present, others, hsub, hothers, hperm⟩ := h
  have hnone : others.filter (·.1 = f.1) = [] := List.filter_eq_nil_iff.2 fun g hg heq =>
    hothers g hg (of_decide_eq_true heq ▸ List.mem_map_of_mem hf)
  have hpresent : (fields.filter (·.1 = f.1)).Perm (present.filter (·.1 = f.1)) := by
    have hparts := hperm.filter (·.1 = f.1)
    rwa [List.filter_append, hnone, List.append_nil] at hparts
  have hone : (present.filter (·.1 = f.1)).Sublist [f] :=
    filter_name_eq hfull hf ▸ hsub.filter (·.1 = f.1)
  rcases List.sublist_singleton.1 hone with hempty | hone
  · rw [hempty, List.perm_nil] at hpresent
    rw [hpresent, if_neg]
    intro hmem
    obtain ⟨g, hg, heq⟩ := List.mem_map.1 hmem
    exact List.filter_eq_nil_iff.1 hpresent g hg (decide_eq_true heq)
  · rw [hone] at hpresent
    have hmem : f ∈ fields.filter (·.1 = f.1) :=
      hpresent.mem_iff.2 (List.mem_singleton_self f)
    rw [List.perm_singleton.1 hpresent, if_pos (List.mem_map_of_mem (List.mem_filter.1 hmem).1)]

theorem Excerpt.uniqueField?_eq (h : Excerpt full fields) (hfull : (full.map Prod.fst).Nodup)
    (hf : f ∈ full) : uniqueField? (fields.map fun f => (some f.1, f.2)) f.1 =
      some (if f.1 ∈ fields.map Prod.fst then some f.2 else none) := by
  have hfilter : (fields.map fun g => (some g.1, g.2)).filter (fun g => g.1 = some f.1) =
      (fields.filter (·.1 = f.1)).map fun g => (some g.1, g.2) := by
    rw [List.filter_map]
    exact congrArg (List.map _) (List.filter_congr fun g _ => by simp)
  rw [uniqueField?, hfilter, h.filter_eq hfull hf]
  split_ifs <;> rfl

/-- The parts of a record that are found in an excerpt: those that are there. -/
theorem Excerpt.parts?_eq (h : Excerpt full fields) (hfull : (full.map Prod.fst).Nodup) :
    parts? (full.map Prod.fst) (ofFields fields) = some ⟨false,
      full.map fun f => if f.1 ∈ fields.map Prod.fst then some f.2 else none⟩ := by
  have hnamed : (fields.map fun f => (some f.1, f.2)).all (·.1.isSome) = true := by simp
  have hfound : ∀ part : List (String × Json), (∀ f ∈ part, f ∈ full) →
      (part.map Prod.fst).mapM (uniqueField? (fields.map fun f => (some f.1, f.2))) =
        some (part.map fun f => if f.1 ∈ fields.map Prod.fst then some f.2 else none) := by
    intro part
    induction part with
    | nil => exact fun _ => rfl
    | cons f part ih =>
      intro hsub
      rw [List.forall_mem_cons] at hsub
      rw [List.map_cons, List.mapM_cons, h.uniqueField?_eq hfull hsub.1, ih hsub.2]
      rfl
  rw [ofFields, parts?, if_pos hnamed, hfound full fun _ hf => hf]
  rfl

/-- A part that is there counts for itself, and one that is not as its default. -/
theorem orElse_ite {α : Type} {absent a : α} {read : Json → Option α} {v : Json}
    (h : read v = some a) (p : Prop) [Decidable p] :
    orElse absent read (if p then some v else none) = some (if p then a else absent) := by
  split_ifs
  · exact h
  · rfl

end Excerpt

end Json

/-! ## Parts of options -/

/-- A span of time cut down to what sixty-four bits hold in whole milliseconds. -/
def Duration.inMillis (d : Duration) : Duration :=
  .ofMillis (min d.wholeMillis (Nat.pow 2 64 - 1))

theorem Duration.wholeMillis_ofMillis (n : Nat) : (ofMillis n).wholeMillis = n :=
  Nat.mul_div_cancel n (by decide)

/-- What whole milliseconds are cut down to fits in sixty-four bits. -/
theorem Duration.cut_lt (n : Nat) : min n (Nat.pow 2 64 - 1) < Nat.pow 2 64 :=
  Nat.lt_of_le_of_lt (Nat.min_le_right _ _) (Nat.sub_one_lt_of_lt (Nat.two_pow_pos 64))

theorem Duration.ofJson?_toJson (d : Duration) : ofJson? d.toJson = some d.inMillis := by
  rw [ofJson?, toJson, Json.toWord?_ofNat (cut_lt d.wholeMillis)]
  rfl

theorem Duration.inMillis_eq_self_iff (d : Duration) :
    d.inMillis = d ↔ ∃ n, n < Nat.pow 2 64 ∧ d = .ofMillis n := by
  constructor
  · intro h
    exact ⟨min d.wholeMillis (Nat.pow 2 64 - 1), cut_lt d.wholeMillis, h.symm⟩
  · rintro ⟨n, hn, rfl⟩
    have hmin : min n (Nat.pow 2 64 - 1) = n := Nat.min_eq_left (Nat.le_sub_one_of_lt hn)
    rw [inMillis, wholeMillis_ofMillis, hmin]

theorem Duration.inMillis_inMillis (d : Duration) : d.inMillis.inMillis = d.inMillis :=
  (inMillis_eq_self_iff _).2 ⟨_, cut_lt d.wholeMillis, rfl⟩

theorem CommitPolicy.ofJson?_toJson (p : CommitPolicy) : ofJson? p.toJson = some p := by
  cases p <;> rfl

theorem QueryStrategy.ofJson?_toJson (s : QueryStrategy) : ofJson? s.toJson = some s := by
  cases s <;> rfl

/-- A floating number is read from the text that is written for it. -/
def Binary64.ReadsBack (x : Binary64) : Prop :=
  (Json.read (Json.number (.ofBinary64 x)).compact).bind Json.toBinary64? = some x

theorem Numeral.isDigit_of_mem_fraction (x : Binary64) :
    ∀ c ∈ (ofBinary64 x).fraction, c.isDigit = true := by
  have hzero : ∀ c ∈ ['0'], c.isDigit = true := List.forall_mem_singleton.2 rfl
  unfold ofBinary64
  dsimp only
  split_ifs
  · exact hzero
  · exact hzero
  · intro c hc
    rw [List.append_nil] at hc
    exact hzero c (List.mem_singleton.2 (List.eq_of_mem_replicate hc))
  · intro c hc
    rcases List.mem_append.1 hc with hc | hc
    · exact hzero c (List.mem_singleton.2 (List.eq_of_mem_replicate hc))
    · exact isDigit_of_mem_digitsOf hc
  · exact fun c hc => isDigit_of_mem_digitsOf (List.mem_of_mem_tail hc)

theorem Json.sound_bool (b : Bool) : (Json.bool b).Sound := by
  simp [Sound, tokens, Token.Sound]

theorem Json.sound_ofBinary64 (x : Binary64) : (Json.number (.ofBinary64 x)).Sound := by
  simpa [Sound, tokens, Token.Sound] using Numeral.isDigit_of_mem_fraction x

theorem Binary64.ReadsBack.toBinary64? {x : Binary64} (h : x.ReadsBack) :
    Json.toBinary64? (.number (.ofBinary64 x)) = some x := by
  rwa [ReadsBack, Json.read_compact (Json.sound_ofBinary64 x), Option.bind_some] at h

/-- A power of ten is found by counting digits. -/
theorem Binary64.floorLogTen_eq (r : Nat × Nat) :
    floorLogTen r = ((Numeral.digitsOf (r.1 * Nat.pow 10 400 / r.2)).length : Int) - 401 :=
  congrArg (fun n : Nat => (n : Int) - 401) String.length_ofList

/-- The multiplier of the default is written as `2.0` and read from there. -/
theorem ReconnectOptions.readsBack_default : default.multiplier.ReadsBack := by
  have hlog : Binary64.floorLogTen default.multiplier.ratio = 0 := by
    rw [Binary64.floorLogTen_eq]
    decide +kernel
  have hshortest : default.multiplier.shortest = ⟨2, 0⟩ := by
    rw [Binary64.shortest, hlog]
    decide +kernel
  rw [Binary64.ReadsBack, Json.read_compact (Json.sound_ofBinary64 _), Numeral.ofBinary64,
    hshortest]
  decide +kernel

namespace ReconnectOptions

/-- The fields of options for reconnecting in JSON. -/
def fields (r : ReconnectOptions) : List (String × Json) :=
  [("initialInterval", r.initial.toJson), ("maxInterval", r.longest.toJson),
    ("multiplier", .number (.ofBinary64 r.multiplier))]

def inMillis (r : ReconnectOptions) : ReconnectOptions :=
  { r with initial := r.initial.inMillis, longest := r.longest.inMillis }

/-- The options whose fields are named, and the others as by default. -/
def only (r : ReconnectOptions) (names : List String) : ReconnectOptions where
  initial := if "initialInterval" ∈ names then r.initial else default.initial
  longest := if "maxInterval" ∈ names then r.longest else default.longest
  multiplier := if "multiplier" ∈ names then r.multiplier else default.multiplier

theorem ofJson?_excerpt {r : ReconnectOptions} (hr : r.multiplier.ReadsBack)
    {fields : List (String × Json)} (h : Json.Excerpt r.fields fields) :
    ofJson? (.ofFields fields) = some (r.inMillis.only (fields.map Prod.fst)) := by
  have hparts : Json.parts? ["initialInterval", "maxInterval", "multiplier"] (.ofFields fields) =
      some ⟨false, r.fields.map fun f => if f.1 ∈ fields.map Prod.fst then some f.2 else none⟩ :=
    h.parts?_eq (by simp [ReconnectOptions.fields])
  rw [ofJson?, hparts]
  simp only [ReconnectOptions.fields, List.map_cons, List.map_nil, Option.bind_eq_bind,
    Option.bind_some, Json.orElse_ite (Duration.ofJson?_toJson _),
    Json.orElse_ite hr.toBinary64?]
  rfl

end ReconnectOptions

namespace Options

/-- The fields of options in JSON, with what stands for the options for reconnecting. -/
def fields (o : Options) (reconnect : Json) : List (String × Json) :=
  [("proposalTimeout", o.proposalTimeout.toJson), ("commitTimeout", o.commitTimeout.toJson),
    ("commitStrategy", o.commitPolicy.toJson), ("queryStrategy", o.queryStrategy.toJson),
    ("discoveryEnabled", .bool o.discoveryEnabled), ("reconnect", reconnect)]

/-- All spans of time in options. -/
def durations (o : Options) : List Duration :=
  [o.proposalTimeout, o.commitTimeout, o.reconnect.initial, o.reconnect.longest]

def inMillis (o : Options) : Options :=
  { o with
    proposalTimeout := o.proposalTimeout.inMillis
    commitTimeout := o.commitTimeout.inMillis
    reconnect := o.reconnect.inMillis }

/-- The options whose fields are named, and the others as by default. -/
def only (o : Options) (names reconnectNames : List String) : Options where
  proposalTimeout :=
    if "proposalTimeout" ∈ names then o.proposalTimeout else default.proposalTimeout
  commitTimeout := if "commitTimeout" ∈ names then o.commitTimeout else default.commitTimeout
  commitPolicy := if "commitStrategy" ∈ names then o.commitPolicy else default.commitPolicy
  queryStrategy := if "queryStrategy" ∈ names then o.queryStrategy else default.queryStrategy
  discoveryEnabled :=
    if "discoveryEnabled" ∈ names then o.discoveryEnabled else default.discoveryEnabled
  reconnect :=
    if "reconnect" ∈ names then o.reconnect.only reconnectNames else default.reconnect

theorem ofJson?_excerpt {o : Options} (ho : o.reconnect.multiplier.ReadsBack)
    {rs fs : List (String × Json)} (hrs : Json.Excerpt o.reconnect.fields rs)
    (hfs : Json.Excerpt (o.fields (.ofFields rs)) fs) :
    ofJson? (.ofFields fs) = some (o.inMillis.only (fs.map Prod.fst) (rs.map Prod.fst)) := by
  have hparts : Json.parts? ["proposalTimeout", "commitTimeout", "commitStrategy",
      "queryStrategy", "discoveryEnabled", "reconnect"] (.ofFields fs) =
      some ⟨false, (o.fields (.ofFields rs)).map fun f =>
        if f.1 ∈ fs.map Prod.fst then some f.2 else none⟩ :=
    hfs.parts?_eq (by simp [fields])
  have hbool (b : Bool) : Json.toBool? (.bool b) = some b := rfl
  rw [ofJson?, hparts]
  simp only [fields, List.map_cons, List.map_nil, Option.bind_eq_bind, Option.bind_some,
    Json.orElse_ite (Duration.ofJson?_toJson _), Json.orElse_ite (CommitPolicy.ofJson?_toJson _),
    Json.orElse_ite (QueryStrategy.ofJson?_toJson _), Json.orElse_ite (hbool _),
    Json.orElse_ite (ReconnectOptions.ofJson?_excerpt ho hrs)]
  rfl

theorem toJson_eq (o : Options) :
    o.toJson = .ofFields (o.fields (.ofFields o.reconnect.fields)) := rfl

theorem ofJson?_toJson {o : Options} (ho : o.reconnect.multiplier.ReadsBack) :
    ofJson? o.toJson = some o.inMillis := by
  rw [toJson_eq, ofJson?_excerpt ho (Json.excerpt_self _) (Json.excerpt_self _)]
  rfl

theorem sound_toJson (o : Options) : o.toJson.Sound := by
  have hreconnect : o.reconnect.toJson.Sound := by
    refine Json.sound_ofFields ?_
    simp only [List.forall_mem_cons]
    exact ⟨Json.sound_ofNat _, Json.sound_ofNat _, Json.sound_ofBinary64 _, by simp⟩
  refine Json.sound_ofFields ?_
  simp only [List.forall_mem_cons]
  exact ⟨Json.sound_ofNat _, Json.sound_ofNat _, Json.sound_text _, Json.sound_text _,
    Json.sound_bool _, hreconnect, by simp⟩

theorem read_text {o : Options} (ho : o.reconnect.multiplier.ReadsBack) :
    (Json.read o.toJson.compact).bind ofJson? = some o.inMillis := by
  rw [Json.read_compact o.sound_toJson, Option.bind_some, ofJson?_toJson ho]

theorem inMillis_inMillis (o : Options) : o.inMillis.inMillis = o.inMillis := by
  simp only [inMillis, ReconnectOptions.inMillis, Duration.inMillis_inMillis]

theorem inMillis_eq_self_iff (o : Options) :
    o.inMillis = o ↔ ∀ d ∈ o.durations, ∃ n, n < Nat.pow 2 64 ∧ d = .ofMillis n := by
  obtain ⟨proposalTimeout, commitTimeout, policy, strategy, discovery, initial, longest, m⟩ := o
  simp only [← Duration.inMillis_eq_self_iff, durations, inMillis, ReconnectOptions.inMillis,
    Options.mk.injEq, ReconnectOptions.mk.injEq, List.forall_mem_cons]
  simp

end Options

/-- Options survive their text, if the text of the multiplier reads back.  What is read are the
options with each span of time cut down to whole milliseconds of sixty-four bits; read and written
once more they stay the same, and they are what was written exactly if all spans are such.  From
any text of an object with some of the fields, in any order and among other fields, for reconnecting
too, the fields that are there are read as from the full text, and the others are as by default. -/
theorem options_survive_their_text (o : Options) (ho : o.reconnect.multiplier.ReadsBack) :
    (Json.read o.toJson.compact).bind Options.ofJson? = some o.inMillis ∧
      (Json.read o.inMillis.toJson.compact).bind Options.ofJson? = some o.inMillis ∧
      ((Json.read o.toJson.compact).bind Options.ofJson? = some o ↔
        ∀ d ∈ o.durations, ∃ n, n < Nat.pow 2 64 ∧ d = .ofMillis n) ∧
      ∀ (rs fs : List (String × Json)) (text : String), Json.Excerpt o.reconnect.fields rs →
        Json.Excerpt (o.fields (.ofFields rs)) fs → Json.read text = some (.ofFields fs) →
        (Json.read text).bind Options.ofJson? =
          some (o.inMillis.only (fs.map Prod.fst) (rs.map Prod.fst)) := by
  refine ⟨Options.read_text ho, ?_, ?_, fun rs fs text hrs hfs htext => ?_⟩
  · have hagain : o.inMillis.reconnect.multiplier.ReadsBack := ho
    rw [Options.read_text hagain, o.inMillis_inMillis]
  · rw [Options.read_text ho, Option.some.injEq, o.inMillis_eq_self_iff]
  · rw [htext, Option.bind_some, Options.ofJson?_excerpt ho hrs hfs]

/-- A span that is not a whole number of milliseconds, and one that sixty-four bits do not hold. -/
def oddOptions : Options :=
  { Options.default with
    proposalTimeout := .ofSecs (Nat.pow 2 64)
    commitTimeout := ⟨1500000001⟩
    reconnect := { ReconnectOptions.default with longest := .ofMillis 2000 } }

/-- One field for reconnecting, and one that nobody knows. -/
def fewForReconnecting : List (String × Json) :=
  [("maxInterval", .ofNat 2000), ("jitter", .bool true)]

/-- Two fields out of their order, and one between them that nobody knows. -/
def fewFields : List (String × Json) :=
  [("reconnect", .ofFields fewForReconnecting), ("seen", .null), ("commitTimeout", .ofNat 1500)]

theorem sound_fewFields : (Json.ofFields fewFields).Sound := by
  have hfew : (Json.ofFields fewForReconnecting).Sound :=
    Json.sound_ofFields (by simp [fewForReconnecting, Json.sound_ofNat, Json.sound_bool])
  exact Json.sound_ofFields (by simp [fewFields, hfew, Json.sound_null, Json.sound_ofNat])

/-- The odd options as they come back. -/
def cutDown : Options :=
  { oddOptions with
    proposalTimeout := .ofMillis (Nat.pow 2 64 - 1), commitTimeout := .ofMillis 1500 }

/-- What the few fields are read as. -/
def fewChanged : Options :=
  { Options.default with
    commitTimeout := .ofMillis 1500
    reconnect := { ReconnectOptions.default with longest := .ofMillis 2000 } }

/-- The odd options come back cut down, and a few of their fields among others leave the rest as by
default. -/
theorem odd_options_cut_down :
    oddOptions.reconnect.multiplier.ReadsBack ∧
      (Json.read oddOptions.toJson.compact).bind Options.ofJson? = some cutDown ∧
      (Json.read (Json.ofFields fewFields).pretty).bind Options.ofJson? = some fewChanged := by
  have hback : oddOptions.reconnect.multiplier.ReadsBack := ReconnectOptions.readsBack_default
  have hreconnect : Json.Excerpt oddOptions.reconnect.fields fewForReconnecting :=
    ⟨[("maxInterval", .ofNat 2000)], [("jitter", .bool true)],
      .cons _ (.cons_cons _ (.cons _ .slnil)), by simp [ReconnectOptions.fields], .refl _⟩
  have hfields : Json.Excerpt (oddOptions.fields (.ofFields fewForReconnecting)) fewFields :=
    ⟨[("commitTimeout", .ofNat 1500), ("reconnect", .ofFields fewForReconnecting)],
      [("seen", .null)],
      .cons _ (.cons_cons _ (.cons _ (.cons _ (.cons _ (.cons_cons _ .slnil))))),
      by simp [Options.fields], @List.perm_append_comm _ [_, _] [_]⟩
  have hcut : oddOptions.inMillis = cutDown := by decide +kernel
  have hfew : oddOptions.inMillis.only (fewFields.map Prod.fst) (fewForReconnecting.map Prod.fst) =
      fewChanged := by decide +kernel
  obtain ⟨hfull, -, -, hparts⟩ := options_survive_their_text oddOptions hback
  refine ⟨hback, hcut ▸ hfull, ?_⟩
  rw [← hfew]
  exact hparts _ _ _ hreconnect hfields (Json.read_pretty sound_fewFields)

end LedgerClient
