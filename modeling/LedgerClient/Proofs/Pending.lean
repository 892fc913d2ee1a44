import LedgerClient.Proofs.Runs

/-!
# What a call has pending

While a call waits for the first attempts of feeds, the sessions that it has attached are in its
hands alone (`Client.Aside`): no other move takes them off a feed or puts them under a key.  A call
that is over stays over and sends nothing more (`Client.Over`).
-/

namespace LedgerClient

theorem Request.IsOf.eq {i k : Nat} {r : Request} (h : r.IsOf i) (h' : r.IsOf k) : k = i := by
  cases r <;> simp only [Request.IsOf] at h h' <;> exact h'.symm.trans h

namespace Client

variable {i j k : Nat} {own : Nat → Prop} {c c' : Client} {m : Move}

/-! ## Acts -/

/-- An act sends requests of its call only, and gives no name twice. -/
theorem Act.sends (h : Act i own c c') : c.nextCall ≤ c'.nextCall ∧
    ∃ rs, c'.outbox = c.outbox ++ rs ∧ ∀ r ∈ rs, r.IsOf i := by
  have hsilent : c'.nextCall = c.nextCall → c'.outbox = c.outbox → c.nextCall ≤ c'.nextCall ∧
      ∃ rs, c'.outbox = c.outbox ++ rs ∧ ∀ r ∈ rs, r.IsOf i := fun hnext hout =>
    ⟨Nat.le_of_eq hnext.symm, [], by rw [hout, List.append_nil], by simp⟩
  have hsheds : ∀ {gone}, c.Sheds gone c' → c.nextCall ≤ c'.nextCall ∧
      ∃ rs, c'.outbox = c.outbox ++ rs ∧ ∀ r ∈ rs, r.IsOf i := fun h =>
    hsilent h.nextCall h.outbox
  cases h with
  | notes _ _ _ _ nextCall rs outbox of => exact ⟨nextCall, rs, outbox, of⟩
  | waits | ends | reserves => exact hsilent rfl rfl
  | completes key as owned =>
    unfold complete at hsilent hsheds ⊢
    split
    · next hnone =>
      rw [hnone] at hsheds
      exact hsheds (sheds_releaseAll as c fun a ha => (owned a ha).1)
    · next hsome =>
      rw [hsome] at hsilent
      exact hsilent rfl rfl
  | removes key => exact hsheds (c.sheds_unregister key)
  | spawns audience floor =>
    obtain ⟨agenda, heq⟩ := c.spawn_eq audience floor
    rw [heq] at hsilent ⊢
    exact hsilent rfl rfl
  | attaches peer kind start session =>
    obtain ⟨agenda, heq⟩ := c.attachTo_eq peer kind start session
    rw [heq] at hsilent ⊢
    exact hsilent rfl rfl
  | closes => exact hsheds c.sheds_close
  | tearsDown => exact hsheds c.sheds_tearDown

theorem Acts.sends (h : Acts i own c c') : c.nextCall ≤ c'.nextCall ∧
    ∃ rs, c'.outbox = c.outbox ++ rs ∧ ∀ r ∈ rs, r.IsOf i := by
  induction h with
  | refl => exact ⟨Nat.le_refl _, [], (List.append_nil _).symm, by simp⟩
  | tail _ h ih =>
    obtain ⟨hle, rs, hout, hrs⟩ := ih
    obtain ⟨hle', rs', hout', hrs'⟩ := h.sends
    refine ⟨Nat.le_trans hle hle', rs ++ rs', ?_, fun r hr => ?_⟩
    · rw [hout', hout, List.append_assoc]
    rcases List.mem_append.1 hr with hr | hr
    · exact hrs r hr
    · exact hrs' r hr

theorem Acts.call? (h : Acts i own c c') (hk : k ≠ i) : c'.call? k = c.call? k := by
  induction h with
  | refl => rfl
  | tail _ h ih => exact (h.call? hk).trans ih

/-! ## A session in the hands of one call -/

/-- The session `j` is there and not under a key, and no call but `i` has it pending. -/
structure Aside (i j : Nat) (c : Client) : Prop where
  named : i < c.nextCall
  made : j < c.sessions.length
  unregistered : ¬ c.Registered j
  apart : ∀ k call, k ≠ i → c.call? k = some call → j ∉ call.sessions

/-- A new session is in the hands of the call that made it, with no more than empty keys. -/
theorem aside_of_new (hc : c.Tidy) (hi : i < c.nextCall) (hj : c.sessions.length ≤ j)
    (hmade : j < c'.sessions.length)
    (hregistrations : ∀ r ∈ c'.registrations, r ∈ c.registrations ∨ r.2 = [])
    (hcalls : c'.calls = c.calls) (hnext : c'.nextCall = c.nextCall) : c'.Aside i j := by
  refine ⟨hnext ▸ hi, hmade, ?_, fun k call hk hcall hmem => ?_⟩
  · rintro ⟨r, hr, a, ha, heq⟩
    rcases hregistrations r hr with hr | hnil
    · have hlow := hc.known.registered j ⟨r, hr, a, ha, heq⟩
      omega
    · rw [hnil] at ha
      exact List.not_mem_nil ha
  · rw [call?_of_calls_eq hcalls] at hcall
    have hlow := hc.known.pending k call hcall j hmem
    omega

theorem Aside.not_owns (h : c.Aside i j) (hk : k ≠ i) : ¬ c.Owns k j := by
  rintro (hj | ⟨call, hcall, hj⟩)
  · exact Nat.not_lt.2 hj h.made
  · exact h.apart k call hk hcall hj

theorem Aside.of_eq (h : c.Aside i j) (hregistrations : c'.registrations = c.registrations)
    (hcalls : c'.calls = c.calls) (hnext : c'.nextCall = c.nextCall)
    (hlength : c'.sessions.length = c.sessions.length) : c'.Aside i j := by
  refine ⟨hnext ▸ h.named, hlength ▸ h.made, fun hj => ?_, fun k call hk hcall => ?_⟩
  · unfold Registered at hj
    rw [hregistrations] at hj
    exact h.unregistered hj
  · rw [call?_of_calls_eq hcalls] at hcall
    exact h.apart k call hk hcall

theorem Act.aside (h : Act k own c c') (hown : ¬ own j) (hc : c.Aside i j) :
    c'.Aside i j := by
  refine ⟨Nat.lt_of_lt_of_le hc.named h.sends.1, Nat.lt_of_lt_of_le hc.made h.length_le,
    fun hj => ?_, fun l call hl hcall hj => ?_⟩
  · exact (h.registered hj).elim hc.unregistered fun hj => hown hj.1
  · by_cases hlk : l = k
    · subst hlk
      rcases h.call_back hcall with hcall | howned
      · exact hc.apart l call hl hcall hj
      · exact hown (howned j hj).1
    · exact hc.apart l call hl (h.call? hlk ▸ hcall) hj

theorem Act.untouched (h : Act k own c c') (hown : ¬ own j) (hc : c.Aside i j)
    (ht : c.table.Sound) : c'.sessions[j]? = c.sessions[j]? ∧
      ∀ a f, c.table.feed? a = some f → j ∈ f.sessions → ∃ f', c'.table.feed? a = some f' ∧
        f'.peer = f.peer ∧ j ∈ f'.sessions ∧ (f'.phase = f.phase ∨ f'.phase = .stopped) := by
  have hfree : ¬ (own j ∨ c.Registered j) := fun hj => hj.elim hown hc.unregistered
  refine ⟨?_, fun a f hf hj => ?_⟩
  · have hs := List.getElem?_eq_getElem hc.made
    rcases h.session hs with heq | ⟨hj, -⟩
    · rw [heq, hs]
    · exact absurd hj hfree
  · obtain ⟨f', hf', ha⟩ := h.feed ht hf
    exact ⟨f', hf', by rw [ha.same], (ha.kept j hj).resolve_right hfree, ha.phase⟩

/-- What a call has pending is safe from acts that do not handle it. -/
theorem Acts.untouched (h : Acts k own c c') (hown : ¬ own j) (hc : c.Aside i j)
    (htidy : c.Tidy) : c'.Aside i j ∧ c'.sessions[j]? = c.sessions[j]? ∧
      ∀ a f, c.table.feed? a = some f → j ∈ f.sessions → ∃ f', c'.table.feed? a = some f' ∧
        f'.peer = f.peer ∧ j ∈ f'.sessions ∧ (f'.phase = f.phase ∨ f'.phase = .stopped) := by
  induction h with
  | refl => exact ⟨hc, rfl, fun a f hf hj => ⟨f, hf, rfl, hj, Or.inl rfl⟩⟩
  | @tail b c' hacts h ih =>
    obtain ⟨haside, hsession, hfeeds⟩ := ih
    have htidy' := Acts.tidy hacts htidy
    obtain ⟨hsession', hfeeds'⟩ := h.untouched hown haside htidy'.sound
    refine ⟨h.aside hown haside, hsession'.trans hsession, fun a f hf hj => ?_⟩
    obtain ⟨f', hf', hpeer, hj', hp⟩ := hfeeds a f hf hj
    obtain ⟨f'', hf'', hpeer', hj'', hp'⟩ := hfeeds' a f' hf' hj'
    refine ⟨f'', hf'', hpeer'.trans hpeer, hj'', ?_⟩
    rcases hp' with hp' | hp'
    · exact hp' ▸ hp
    · exact Or.inr hp'

/-! ## Moves of a call -/

theorem tearDownIfUnused_same (c : Client) : c.tearDownIfUnused.calls = c.calls ∧
    c.tearDownIfUnused.nextCall = c.nextCall ∧ c.tearDownIfUnused.outbox = c.outbox := by
  unfold tearDownIfUnused
  split_ifs
  · exact ⟨c.sheds_tearDown.calls, c.sheds_tearDown.nextCall, c.sheds_tearDown.outbox⟩
  · exact ⟨rfl, rfl, rfl⟩

theorem dropWait_same (c : Client) (w : Nat) : (c.dropWait w).calls = c.calls ∧
    (c.dropWait w).nextCall = c.nextCall ∧ (c.dropWait w).outbox = c.outbox := by
  change (c.cancelWait w).calls = _ ∧ (c.cancelWait w).nextCall = _ ∧ (c.cancelWait w).outbox = _
  unfold cancelWait
  split
  · exact ⟨rfl, rfl, rfl⟩
  · dsimp only
    split
    · next n _ =>
      have hsheds := c.sheds_unregister (.commit (.mailbox n))
      exact ⟨hsheds.calls, hsheds.nextCall, hsheds.outbox⟩
    · exact ⟨rfl, rfl, rfl⟩

/-- Feeds and sessions have moved, but no call. -/
structure Quiet (c c' : Client) : Prop where
  registrations : c'.registrations = c.registrations
  calls : c'.calls = c.calls
  nextCall : c'.nextCall = c.nextCall
  length : c'.sessions.length = c.sessions.length
  outbox : ∃ rs, c'.outbox = c.outbox ++ rs ∧ ∀ r ∈ rs, ∀ k, ¬ r.IsOf k

theorem Quiet.refl (c : Client) : c.Quiet c :=
  ⟨rfl, rfl, rfl, rfl, [], (List.append_nil _).symm, by simp⟩

/-- A move is one of a feed or a session and no call's, or a chain of acts. -/
theorem quiet_or_acts (hc : c.Tidy) (m : Move) :
    c.Quiet (c.apply m) ∨ m.feed? = none ∧ m.session? = none ∧
      Acts (c.actor m) (c.Owns (c.actor m)) c (c.apply m) := by
  cases hfeed : m.feed? with
  | some a =>
    rcases feed_move_cases (c := c) hfeed with ⟨-, heq⟩ | ⟨f, -, h⟩
    · exact Or.inl (heq.symm ▸ .refl c)
    · exact Or.inl ⟨h.registrations, h.calls, h.nextCall, h.length, h.outbox⟩
  | none =>
    cases hsession : m.session? with
    | some s =>
      rcases session_move_cases (c := c) hsession with ⟨-, heq⟩ | ⟨s, s', -, -, h⟩
      · exact Or.inl (heq.symm ▸ .refl c)
      · exact Or.inl ⟨h.registrations, h.calls, h.nextCall, h.length, h.outbox⟩
    | none => exact Or.inr ⟨rfl, rfl, acts_apply hc.bounded hc.known hfeed hsession⟩

theorem sent_eq {rs : List Request} (h : (c.apply m).outbox = c.outbox ++ rs) : c.sent m = rs := by
  rw [sent, h, List.drop_left]

/-- What a move sends is of no other call. -/
theorem not_isOf_of_mem_sent (hc : c.Tidy) (hm : c.actor m ≠ i) :
    ∀ r ∈ c.sent m, ¬ r.IsOf i := by
  rcases quiet_or_acts hc m with h | ⟨-, -, h⟩
  · obtain ⟨rs, hout, hrs⟩ := h.outbox
    rw [sent_eq hout]
    exact fun r hr => hrs r hr i
  · obtain ⟨-, rs, hout, hrs⟩ := h.sends
    rw [sent_eq hout]
    exact fun r hr hof => hm (hof.eq (hrs r hr))

theorem nextCall_le_apply (hc : c.Tidy) (m : Move) : c.nextCall ≤ (c.apply m).nextCall := by
  rcases quiet_or_acts hc m with h | ⟨-, -, h⟩
  · exact Nat.le_of_eq h.nextCall.symm
  · exact h.sends.1

/-- A move leaves what the calls wait for that do not act in it. -/
theorem call?_apply (hc : c.Tidy) (hm : c.actor m ≠ i) : (c.apply m).call? i = c.call? i := by
  rcases quiet_or_acts hc m with h | ⟨-, -, h⟩
  · exact call?_of_calls_eq h.calls i
  · exact h.call? (Ne.symm hm)

theorem Aside.apply (h : c.Aside i j) (hc : c.Tidy) (hm : c.actor m ≠ i) :
    (c.apply m).Aside i j := by
  rcases quiet_or_acts hc m with hq | ⟨-, -, hacts⟩
  · exact h.of_eq hq.registrations hq.calls hq.nextCall hq.length
  · exact (hacts.untouched (h.not_owns hm) h hc).1

theorem actor_ne_of_feed (hm : m.feed? = some k) (hi : i < c.nextCall) : c.actor m ≠ i := by
  have hnew : c.actor m = c.nextCall := by
    cases m <;> simp only [Move.feed?, reduceCtorEq] at hm <;> rfl
  rw [hnew]
  exact Nat.ne_of_gt hi

theorem actor_ne_of_session (hm : m.session? = some k) (hi : i < c.nextCall) : c.actor m ≠ i := by
  have hnew : c.actor m = c.nextCall := by
    cases m <;> simp only [Move.session?, reduceCtorEq] at hm <;> rfl
  rw [hnew]
  exact Nat.ne_of_gt hi

theorem call?_of_actor (hm : c.actor m = i) (hi : i < c.nextCall) : m.call? = some i := by
  cases h : m.call? with
  | some k => rw [← hm, actor_of_call h]
  | none =>
    rw [actor_of_fresh h] at hm
    exact absurd hi (Nat.not_lt.2 (Nat.le_of_eq hm))

theorem apply_eq_of_gone (hm : m.call? = some i) (h : c.call? i = none) : c.apply m = c := by
  obtain ⟨hsame, -⟩ | ⟨-, call, hcall⟩ | ⟨call, _, hcall, -⟩ := c.call_cases hm
  · exact hsame
  · exact absurd (h.symm.trans hcall) (by simp)
  · exact absurd (h.symm.trans hcall) (by simp)

/-- Every call under way was given its name. -/
def Named (c : Client) : Prop := ∀ k call, c.call? k = some call → k < c.nextCall

theorem Named.fresh (hn : c.Named) : c.call? c.nextCall = none := by
  rw [Option.eq_none_iff_forall_ne_some]
  exact fun call hcall => Nat.lt_irrefl _ (hn _ call hcall)

/-- A move that is neither a call's own nor a new call leaves all calls. -/
theorem calls_eq_of_idle (hc : c.Tidy) (hm : m.call? = none) (hnew : m.isCall = false) :
    (c.apply m).calls = c.calls := by
  rcases quiet_or_acts hc m with hq | ⟨hfeed, hsession, -⟩
  · exact hq.calls
  cases m with
  | remove key => exact (c.sheds_unregister key).calls
  | close => exact c.sheds_close.calls
  | letGo => exact (tearDownIfUnused_same _).1
  | newWait | tick => rfl
  | cancelWait w => exact (c.dropWait_same w).1
  | letGoOfWait w => exact (tearDownIfUnused_same _).1.trans (c.dropWait_same w).1
  | submit | evaluate | addListener | addCommitListener | listen | awaitConfirmation => cases hnew
  | abandon | checkpointRead | endorsed | ordered | inquired | resume => cases hm
  | requestStream | streamOpened | streamRefused | blockArrived | streamBroke | streamEnded =>
    cases hfeed
  | takeNext | answer => cases hsession

theorem nextCall_lt_of_isCall (hc : c.Tidy) (hnew : m.isCall = true) :
    c.nextCall < (c.apply m).nextCall := by
  have owned : ∀ j, c.sessions.length ≤ j → c.Owns c.nextCall j := fun _ => Or.inl
  have hnamed : ∀ {c'}, Acts c.nextCall (c.Owns c.nextCall) c.newCall.1 c' →
      c.nextCall < c'.nextCall := fun h => h.sends.1
  cases m with
  | submit inv => exact hnamed (acts_submit c inv)
  | evaluate inv => exact hnamed (acts_evaluate c inv)
  | addListener s o => exact hnamed (acts_addListener c s o hc.bounded owned)
  | addCommitListener l peers id =>
    exact hnamed (acts_linkCommit c.newCall.1 l peers id .added hc.bounded owned)
  | listen w => exact hnamed (acts_openMailbox c.newCall.1 w .listening hc.bounded owned)
  | awaitConfirmation w => exact hnamed (acts_confirm c.newCall.1 w none)
  | _ => cases hnew

theorem named_apply (hc : c.Tidy) (h : c.Named) (m : Move) : (c.apply m).Named := by
  intro k call hcall
  have hle := nextCall_le_apply hc m
  by_cases hk : c.actor m = k
  · cases hm : m.call? with
    | some i =>
      obtain rfl : i = k := (actor_of_call hm).symm.trans hk
      cases hgone : c.call? i with
      | some call' => exact Nat.lt_of_lt_of_le (h i call' hgone) hle
      | none =>
        rw [apply_eq_of_gone hm hgone, hgone] at hcall
        cases hcall
    | none =>
      cases hnew : m.isCall with
      | false =>
        rw [call?_of_calls_eq (calls_eq_of_idle hc hm hnew)] at hcall
        exact Nat.lt_of_lt_of_le (h k call hcall) hle
      | true => exact (actor_of_fresh hm).symm.trans hk ▸ nextCall_lt_of_isCall hc hnew
  · rw [call?_apply hc hk] at hcall
    exact Nat.lt_of_lt_of_le (h k call hcall) hle

theorem named_run (channel : Channel) (identity : Identity) (options : Options) (ms : List Move) :
    ((new channel identity options).run ms).Named := by
  have hrun : ∀ ms (c : Client), c.Tidy → c.Named → (c.run ms).Named := by
    intro ms
    induction ms with
    | nil => exact fun _ _ h => h
    | cons m ms ih => exact fun c hc h => ih _ (hc.apply m) (named_apply hc h m)
  exact hrun ms _ (tidy_new channel identity options) fun k call hcall => by cases hcall

/-- A call that is over: its name was given, and nobody waits under it. -/
structure Over (i : Nat) (c : Client) : Prop where
  named : i < c.nextCall
  gone : c.call? i = none

theorem Over.apply_eq (h : c.Over i) (hm : c.actor m = i) : c.apply m = c :=
  apply_eq_of_gone (call?_of_actor hm h.named) h.gone

theorem Over.apply (h : c.Over i) (hc : c.Tidy) (m : Move) :
    (c.apply m).Over i ∧ ∀ r ∈ c.sent m, ¬ r.IsOf i := by
  by_cases hm : c.actor m = i
  · have heq := h.apply_eq hm
    rw [heq, sent_eq_nil heq]
    exact ⟨h, by simp⟩
  · exact ⟨⟨Nat.lt_of_lt_of_le h.named (nextCall_le_apply hc m), (call?_apply hc hm).trans h.gone⟩,
      not_isOf_of_mem_sent hc hm⟩

/-- A call that waits for its links goes on only when it is resumed, and may be given up. -/
theorem apply_of_linking {key : ListenerKey} {links : List Link} {next : AfterLink}
    (hcall : c.call? i = some (.linking key links next)) (hnamed : i < c.nextCall)
    (hm : c.actor m = i) : c.apply m = c ∨ m = .abandon i ∨ ∃ room, m = .resume i room := by
  obtain ⟨hsame, -⟩ | ⟨rfl, -⟩ | ⟨call, b, hcall', hb, hgoes⟩ :=
    c.call_cases (call?_of_actor hm hnamed)
  · exact Or.inl hsame
  · exact Or.inr (Or.inl rfl)
  · obtain rfl := Option.some.inj (hcall.symm.trans hcall')
    rw [hb]
    cases hgoes
    exact Or.inr (Or.inr ⟨_, rfl⟩)

end Client

end LedgerClient
