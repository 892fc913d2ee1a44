import LedgerClient.Proofs.Onward
import LedgerClient.Proofs.Reconnects
import LedgerClient.Proofs.Registrations
import LedgerClient.Proofs.Submissions

/-!
# After a close

Closing a client removes what is stored under its keys and stops the feeds that are shared. It does
not reach calls that are under way: a call that adds a listener keeps the sessions that it has
pending, or has yet to make, and a transaction that is being endorsed opens its mailbox when the
answers are there (`Client.Winding`). So after a close, and as long as nothing new is added or
submitted, whatever still runs, asks for a stream or tells a listener is owed to such a call, or was
left behind when a call was given up (`Client.stopped_but_for_late`).
-/

namespace LedgerClient

/-- Whether a move submits a transaction or begins to attach a listener. -/
def Move.attaches : Move → Bool
  | .submit _ | .addListener .. | .addCommitListener .. | .listen _ => true
  | _ => false

namespace Client

/-- A submitted transaction is being endorsed. -/
def Proposes (c : Client) (i : Nat) : Prop := ∃ p quorum, c.call? i = some (.endorsing p quorum)

variable {i j k : Nat} {b c c' : Client} {m : Move} {key : ListenerKey}

/-! ## Transactions that are being endorsed -/

section Proposing

theorem ne_endorsing_of_linked {call : Call} (h : call.isLinked = true) (p : Proposal)
    (quorum : Option Quorum) : call ≠ .endorsing p quorum := by
  rintro rfl
  cases h

theorem Onward.not_proposes {chooser : Chooser}
    (h : Onward chooser (fun call => ∀ p quorum, call ≠ .endorsing p quorum) i c) :
    ¬ c.Proposes i := by
  rintro ⟨p, quorum, hcall⟩
  exact h.call _ hcall p quorum rfl

theorem not_proposes_inquire (b : Client) (p : Proposal) (s : Chooser × InquiryStep) :
    ¬ (b.inquire i p s).Proposes i := by
  rcases s with ⟨chooser, inquiry | r⟩
  · exact ((onward_set (b := { b with chooser }) rfl fun _ _ => by simp).send _).not_proposes
  · exact (onward_finish (b := { b with chooser }) rfl _).not_proposes

/-- A transaction is no longer being endorsed when its call goes on, and no other call takes to
it. -/
theorem not_proposes_call (hm : m.call? = some i) (hmoved : c.apply m ≠ c)
    (hi : i < c.nextCall) : ¬ (c.apply m).Proposes i := by
  obtain ⟨hsame, -⟩ | ⟨rfl, -⟩ | ⟨call, b, hcall, hb, hgoes⟩ := c.call_cases hm
  · exact absurd hsame hmoved
  · rintro ⟨p, quorum, hcall⟩
    exact absurd ((abandon_over hi).1.gone.symm.trans hcall) (by simp)
  rw [hb]
  have honward (hquery : ∀ p q, call ≠ .inquiring p q) : ¬ b.Proposes i :=
    (hgoes.onward (fun _ => ne_endorsing_of_linked) hcall hquery).not_proposes
  cases hgoes with
  | inquired p q r => exact not_proposes_inquire c p _
  | _ => exact honward fun _ _ => by simp

/-- A transaction that is being endorsed was so before, unless it is submitted. -/
theorem proposes_back (hc : c.Sane) (hm : m.attaches = false) (h : (c.apply m).Proposes i) :
    c.Proposes i := by
  have hsame (hcalls : (c.apply m).call? i = c.call? i) : c.Proposes i := by
    obtain ⟨p, quorum, hcall⟩ := h
    exact ⟨p, quorum, hcalls ▸ hcall⟩
  by_cases hactor : c.actor m = i
  · cases hcall : m.call? with
    | some k =>
      obtain rfl : k = i := (actor_of_call hcall).symm.trans hactor
      by_cases hmoved : c.apply m = c
      · exact hsame (by rw [hmoved])
      · cases hthere : c.call? k with
        | none => exact absurd (apply_eq_of_gone hcall hthere) hmoved
        | some call => exact absurd h (not_proposes_call hcall hmoved (hc.named k call hthere))
    | none =>
      obtain rfl : c.nextCall = i := (actor_of_fresh hcall).symm.trans hactor
      cases hnew : m.isCall with
      | false => exact hsame (call?_of_calls_eq (calls_eq_of_idle hc.tidy hcall hnew) _)
      | true =>
        have hfresh : Onward c.chooser (fun call => ∀ p quorum, call ≠ .endorsing p quorum)
            c.nextCall c.newCall.1 := .of_gone rfl hc.named.fresh
        refine absurd h ?_
        cases m with
        | evaluate inv =>
          unfold apply evaluate
          dsimp only
          split
          · exact (onward_finish hfresh.same _).not_proposes
          · exact not_proposes_inquire c.newCall.1 _ _
        | awaitConfirmation w =>
          exact (hfresh.confirm (fun _ => ne_endorsing_of_linked) w none).not_proposes
        | submit | addListener | addCommitListener | listen => cases hm
        | _ => cases hnew
  · exact hsame (call?_apply hc.tidy hactor)

end Proposing

/-! ## Calls that outlast a close -/

/-- Nobody adds a key who did not before, but for the mailboxes of the transactions that were being
endorsed; and no other keys are registered. -/
structure Winding (adding : ListenerKey → Nat → Prop) (proposing : Nat → Prop) (c : Client) :
    Prop where
  proposes : ∀ {i}, c.Proposes i → proposing i
  adds : ∀ {key i}, c.Adding key i → adding key i ∨ proposing i
  registered : ∀ {key}, c.registered? key ≠ none →
    (∃ n, key = .commit (.mailbox n)) ∧ ∃ i, proposing i

section Winding

variable {adding : ListenerKey → Nat → Prop} {proposing : Nat → Prop}

/-- A key is added after a close when a transaction has been endorsed. -/
theorem proposes_of_adds (hm : m.attaches = false) (hkey : key ∈ c.adds m)
    (hmoved : c.apply m ≠ c) :
    ∃ i r, m = .endorsed i r ∧ c.Proposes i ∧ ∃ n, key = .commit (.mailbox n) := by
  cases m with
  | endorsed i r =>
    refine ⟨i, r, rfl, ?_, _, List.mem_singleton.1 hkey⟩
    by_contra hnot
    refine hmoved ?_
    change c.endorsed i r = c
    unfold endorsed
    split
    · next p quorum hcall => exact absurd ⟨p, quorum, hcall⟩ hnot
    · rfl
  | submit | addListener | addCommitListener | listen => cases hm
  | _ => exact absurd hkey List.not_mem_nil

theorem Winding.apply (h : Winding adding proposing c) (hc : c.Sane) (hm : m.attaches = false) :
    Winding adding proposing (c.apply m) := by
  by_cases hmoved : c.apply m = c
  · exact hmoved.symm ▸ h
  have hadds {key : ListenerKey} (hkey : key ∈ c.adds m) :
      (∃ n, key = .commit (.mailbox n)) ∧ proposing (c.actor m) := by
    obtain ⟨i, r, rfl, hproposes, hn⟩ := proposes_of_adds hm hkey hmoved
    exact ⟨hn, h.proposes hproposes⟩
  refine ⟨fun hi => h.proposes (proposes_back hc hm hi), fun {key i} hi => ?_, fun {key} hkey => ?_⟩
  · by_cases hactor : c.actor m = i
    · subst hactor
      by_cases hkey : key ∈ c.adds m
      · exact Or.inr (hadds hkey).2
      · exact h.adds (call_key_back hc.tidy hkey hi)
    · obtain ⟨call, hcall, hkey⟩ := hi
      exact h.adds ⟨call, call?_apply hc.tidy hactor ▸ hcall, hkey⟩
  · by_cases hthere : c.registered? key = none
    · by_cases hadd : key ∈ c.adds m
      · exact ⟨(hadds hadd).1, _, (hadds hadd).2⟩
      · exact absurd (registered?_apply hc.tidy hthere hadd) hkey
    · exact h.registered hthere

theorem Winding.run {ms : List Move} (h : Winding adding proposing c) (hc : c.Sane)
    (hms : ∀ m ∈ ms, m.attaches = false) : Winding adding proposing (c.run ms) := by
  induction ms generalizing c with
  | nil => exact h
  | cons m ms ih =>
    rw [List.forall_mem_cons] at hms
    exact ih (h.apply hc hms.1) (hc.apply m) hms.2

end Winding

/-! ## Feeds that were stopped -/

theorem Acts.stopped {own : Nat → Prop} (h : Acts i own c c') (hc : c.Tidy) (hk : c.Stopped k) :
    c'.Stopped k := by
  induction h with
  | refl => exact hk
  | tail hacts h ih =>
    obtain ⟨f, hf, hphase⟩ := ih
    obtain ⟨f', hf', halike⟩ := h.feed (Acts.tidy hacts hc).sound hf
    exact ⟨f', hf', halike.phase.elim (·.trans hphase) id⟩

theorem Stopped.apply (hk : c.Stopped k) (hc : c.Tidy) (m : Move) : (c.apply m).Stopped k := by
  rcases steady_or_other hc m with hsteady | ⟨hfeed, hsession⟩
  · obtain ⟨f, hf, hphase⟩ := hk
    obtain ⟨f', hf', hsame | ⟨hruns, -⟩, -⟩ := hsteady.feed hf
    · exact ⟨f', hf', hsame.trans hphase⟩
    · rw [FeedTable.not_isRunning_of_stopped hphase] at hruns
      cases hruns
  · exact Acts.stopped (acts_apply hc.bounded hc.known hfeed hsession) hc hk

theorem Stopped.run (hk : c.Stopped k) (hc : c.Tidy) (ms : List Move) : (c.run ms).Stopped k := by
  induction ms generalizing c with
  | nil => exact hk
  | cons m ms ih => exact ih (hk.apply hc m) (hc.apply m)

theorem stopped_close (hc : c.Sane) {f : Feed} (hf : c.table.feed? k = some f)
    (hshared : f.shared = true) : c.close.Stopped k := by
  have hclosed : c.close.Sane := hc.apply .close
  obtain ⟨f', hf', halike⟩ := (c.sheds_close).table.feed hf
  refine ⟨f', hf', (hclosed.settled.staffed.manned.busy hf').resolve_right fun hruns => ?_⟩
  have hlisted := hclosed.settled.staffed.manned.listed hf' hruns.1 (halike.same ▸ hshared)
  rw [c.shared_close] at hlisted
  exact List.not_mem_nil hlisted

/-! ## Asking for streams -/

theorem outbox_announce (b : Client) (k : Nat) : (b.announce k).outbox = b.outbox := by
  obtain ⟨agenda, heq⟩ := b.announce_eq k
  rw [heq]

theorem outbox_deliverAll (b : Client) (f : Feed) (d : Delivery) :
    (b.deliverAll f d).outbox = b.outbox := by
  obtain ⟨sessions, agenda, heq, -⟩ := b.deliverAll_eq d f
  rw [heq]

/-- Any other move of a feed asks for a rest at most. -/
theorem outbox_feed (hm : m.feed? = some k) (hother : m ≠ .requestStream k) :
    (c.apply m).outbox = c.outbox ∨ ∃ d, (c.apply m).outbox = c.outbox ++ [.rest k d] := by
  rcases feed_move_cases (c := c) hm with ⟨-, heq⟩ | ⟨f, hadmits, hfeeds⟩
  · exact Or.inl (by rw [heq])
  have hf := hfeeds.feed
  cases m <;> simp only [Move.feed?, reduceCtorEq, Option.some.injEq] at hm <;> subst hm
  case requestStream => exact absurd rfl hother
  all_goals simp only [Feed.Admits] at hadmits
  case streamOpened =>
    refine Or.inl ?_
    simp only [apply, streamOpened, hf, hadmits, if_true, outbox_announce]
  case blockArrived =>
    refine Or.inl ?_
    simp only [apply, blockArrived, hf, hadmits, if_true, outbox_deliverAll]
  all_goals
    refine Or.inr ⟨f.interval, ?_⟩
    simp only [apply, streamRefused, streamBroke, streamEnded, hf, hadmits, if_true,
      outbox_deliverAll, outbox_announce]
    rfl

theorem outbox_session (hm : m.session? = some j) :
    (c.apply m).outbox = c.outbox ∨ ∃ q, (c.apply m).outbox = c.outbox ++ [.ask j q] := by
  have hserve (b : Client) : (b.serve j).outbox = b.outbox ∨
      ∃ q, (b.serve j).outbox = b.outbox ++ [.ask j q] := by
    unfold serve
    split
    · exact Or.inl rfl
    · next n o _ =>
      obtain ⟨waits, agenda, heq⟩ := b.post_eq n o
      exact Or.inl (by rw [heq]; rfl)
    · exact Or.inr ⟨_, rfl⟩
  cases m <;> simp only [Move.session?, reduceCtorEq, Option.some.injEq] at hm <;> subst hm
  case takeNext j =>
    unfold apply takeNext
    dsimp only
    split
    · exact Or.inl rfl
    · split_ifs
      · exact hserve _
      · exact Or.inl rfl
  case answer j r =>
    unfold apply answer
    dsimp only
    split
    · exact Or.inl rfl
    · split_ifs
      · exact hserve _
      · exact Or.inl rfl

theorem request_of_asks? (hc : c.Tidy) (h : c.asks? k m ≠ none) :
    m = .requestStream k ∧ ∃ f, c.table.feed? k = some f ∧ f.Admits m := by
  have hnone {rs : List Request} (hout : (c.apply m).outbox = c.outbox ++ rs)
      (hrs : ∀ r ∈ rs, ∀ a p kind start, r ≠ .openStream a p kind start) :
      c.asks? k m = none := by
    rw [asks?, sent_eq hout, List.findSome?_eq_none_iff]
    intro r hr
    cases r with
    | openStream a p kind start => exact absurd rfl (hrs _ hr a p kind start)
    | _ => rfl
  have hsilent (hout : (c.apply m).outbox = c.outbox) : c.asks? k m = none :=
    hnone (hout.trans (List.append_nil _).symm) (by simp)
  cases hfeed : m.feed? with
  | some a =>
    by_cases hm : m = .requestStream a
    · subst hm
      rcases feed_move_cases (c := c) hfeed with ⟨-, heq⟩ | ⟨f, hadmits, hfeeds⟩
      · exact absurd (asks?_eq_none heq k) h
      · rw [asks?_requestStream hfeeds.feed hadmits] at h
        split_ifs at h with hak
        · exact ⟨hak ▸ rfl, f, hak ▸ hfeeds.feed, hadmits⟩
        · exact absurd rfl h
    · rcases outbox_feed (c := c) hfeed hm with hout | ⟨d, hout⟩
      · exact absurd (hsilent hout) h
      · exact absurd (hnone hout (by simp)) h
  | none =>
    cases hsession : m.session? with
    | some j =>
      rcases outbox_session (c := c) hsession with hout | ⟨q, hout⟩
      · exact absurd (hsilent hout) h
      · exact absurd (hnone hout (by simp)) h
    | none =>
      obtain ⟨-, rs, hout, hrs⟩ := Acts.sends (acts_apply hc.bounded hc.known hfeed hsession)
      refine absurd (hnone hout fun r hr a p kind start heq => ?_) h
      subst heq
      exact hrs _ hr

theorem isRunning_of_asks? (hc : c.Tidy) (h : c.asks? k m ≠ none) :
    ∃ f, c.table.feed? k = some f ∧ f.isRunning = true := by
  obtain ⟨-, f, hf, hadmits⟩ := request_of_asks? hc h
  exact ⟨f, hf, Feed.isRunning_of_admits hadmits⟩

/-! ## What may go on -/

/-- A session is owed to a call that the close did not reach: the call has it pending, it is under
the mailbox of a transaction that was being endorsed, or it was left behind when a call was given
up. -/
inductive Late (c₀ : Client) (left : List Nat) (c : Client) (j : Nat) : Prop
  | pending {i : Nat} {key : ListenerKey} (there : c.Pending i key j)
      (early : c₀.Adding key i ∨ c₀.Proposes i)
  | mailed {i n : Nat} (there : c.Under (.commit (.mailbox n)) j) (early : c₀.Proposes i)
  | left (behind : j ∈ left)

/-- Once a client was closed, and as long as nothing new is added or submitted, nothing goes on but
what is owed to calls that were under way.

No key is registered but the mailboxes of transactions that were being endorsed. The feeds that were
there for sharing are stopped for good; of all feeds, those that run, and those that ask for a
stream, have late sessions on them and no others. And a session that begins to tell its listener is
late, or it was removed while it asked its checkpointer and calls this once. -/
theorem stopped_but_for_late (channel : Channel) (identity : Identity) (options : Options)
    (past ms : List Move) (settled : ∀ m ∈ ms, m.attaches = false) :
    let c₀ := (new channel identity options).run past
    let c := (c₀.apply .close).run ms
    let late := Late c₀ (gather leaves (new channel identity options) (past ++ .close :: ms)) c
    (∀ key, c.registered? key ≠ none →
      (∃ n, key = .commit (.mailbox n)) ∧ ∃ i, c₀.Proposes i) ∧
    (∀ k f, c₀.table.feed? k = some f → f.shared = true → c.Stopped k) ∧
    (∀ k f, c.table.feed? k = some f →
      f.phase = .stopped ∨ f.sessions ≠ [] ∧ ∀ j ∈ f.sessions, late j) ∧
    (∀ k m, c.asks? k m ≠ none →
      ∃ f, c.table.feed? k = some f ∧ f.sessions ≠ [] ∧ ∀ j ∈ f.sessions, late j) ∧
    ∀ j s m, c.sessions[j]? = some s → c.tells j m ≠ [] → late j ∨
      s.removed = true ∧ (∃ b, m = .answer j (.next b)) ∧
        (∃ l name, s.audience = .block l (some name)) ∧
        ∀ more, gather (tells j) (c.apply m) more = [] := by
  intro c₀ c late
  have hsane₀ : c₀.Sane := sane_run channel identity options past
  have hsane₁ : (c₀.apply .close).Sane := hsane₀.apply .close
  have hsane : c.Sane := hsane₁.run ms
  have hrun : c = (new channel identity options).run (past ++ .close :: ms) := by
    rw [run_append]
    rfl
  have haccounted := accounted_run channel identity options (past ++ .close :: ms)
  rw [← hrun] at haccounted
  have hcalls (i : Nat) : (c₀.apply .close).call? i = c₀.call? i :=
    call?_of_calls_eq c₀.sheds_close.calls i
  have hclosed : Winding c₀.Adding c₀.Proposes (c₀.apply .close) := by
    refine ⟨?_, ?_, fun {key} hkey => ?_⟩
    · rintro i ⟨p, quorum, hcall⟩
      exact ⟨p, quorum, hcalls _ ▸ hcall⟩
    · rintro key i ⟨call, hcall, hkey⟩
      exact Or.inl ⟨call, hcalls _ ▸ hcall, hkey⟩
    · obtain ⟨_, _, _, heq⟩ := c₀.close_eq
      rw [apply, heq] at hkey
      exact absurd rfl hkey
  have hwinding : Winding c₀.Adding c₀.Proposes c := hclosed.run hsane₁ settled
  -- a session that takes deliveries is under a key, pending or left behind
  have hlate {j : Nat} {s : Session} (hs : c.sessions[j]? = some s) (hopen : s.removed ≠ true) :
      late j := by
    rcases haccounted.held hs with hr | hunder | ⟨i, -, hpending⟩ | hleft
    · exact absurd hr hopen
    · have hkey : c.registered? s.audience.key ≠ none := by
        obtain ⟨as, has, -⟩ := hunder
        simp [has]
      obtain ⟨⟨n, hn⟩, i, hi⟩ := hwinding.registered hkey
      exact .mailed (hn ▸ hunder) hi
    · have hadding : c.Adding s.audience.key i := by
        obtain ⟨links, next, hcall, -⟩ := hpending
        exact ⟨_, hcall, rfl⟩
      exact .pending hpending (hwinding.adds hadding)
    · exact .left hleft
  have hfeed {k : Nat} {f : Feed} (hf : c.table.feed? k = some f) :
      f.phase = .stopped ∨ f.sessions ≠ [] ∧ ∀ j ∈ f.sessions, late j := by
    refine (hsane.settled.staffed.manned.busy hf).imp_right fun hbusy => ⟨hbusy.2, fun j hj => ?_⟩
    obtain ⟨s, hs, hopen⟩ := hsane.settled.staffed.awake hf hbusy.1 hj
    exact hlate hs (by simp [hopen])
  refine ⟨fun key => hwinding.registered, fun k f hf hshared => ?_, fun k f => hfeed,
    fun k m hasks => ?_, fun j s m hs htells => ?_⟩
  · exact (stopped_close hsane₀ hf hshared).run hsane₁.tidy ms
  · obtain ⟨f, hf, hruns⟩ := isRunning_of_asks? hsane.tidy hasks
    refine ⟨f, hf, (hfeed hf).resolve_left fun hstopped => ?_⟩
    rw [FeedTable.not_isRunning_of_stopped hstopped] at hruns
    cases hruns
  · by_cases hr : s.removed = true
    · exact Or.inr ⟨hr, tells_of_removed hsane.tidy (haccounted.wary hs) hs hr htells⟩
    · exact Or.inl (hlate hs hr)

/-- One listener is on the shared feed and another on a feed of its own, and both calls have
returned. -/
def sharedAndReplay : List Move :=
  [.addListener (.blocks (.app "l")) {}, .requestStream 0, .streamOpened 0, .resume 0 128,
    .addListener (.blocks (.app "m")) { startBlock := some 5 }, .requestStream 1, .streamOpened 1,
    .resume 1 128]

/-- The client is closed while both feeds have a stream; then nothing goes on. -/
theorem nothing_after_close :
    let c₀ := lone.run sharedAndReplay
    let ms : List Move := [.streamEnded 0, .requestStream 1, .takeNext 0, .tick 1]
    let c := (c₀.apply .close).run ms
    (∀ m ∈ ms, m.attaches = false) ∧ c₀.table.feeds.map (·.phase) = [.streaming, .streaming] ∧
      (∀ key, c.registered? key = none) ∧
      (∀ k f, c.table.feed? k = some f → f.phase = .stopped) ∧ (∀ k m, c.asks? k m = none) ∧
      ∀ j s m, c.sessions[j]? = some s → c.tells j m = [] := by
  intro c₀ ms c
  have hsettled : ∀ m ∈ ms, m.attaches = false := by decide
  have hrunning : c₀.table.feeds.map (·.phase) = [.streaming, .streaming] := by decide +kernel
  have hidle : c₀.calls.map (·.1) = [] := by decide +kernel
  have hcalls : c.calls.map (·.1) = [] := by decide +kernel
  have hleft : gather leaves lone (sharedAndReplay ++ .close :: ms) = [] := by decide +kernel
  have haudiences : c.sessions.map (·.audience) =
      [.block (.app "l") none, .block (.app "m") none] := by decide +kernel
  have hproposes (i : Nat) : ¬ c₀.Proposes i := by
    rintro ⟨p, quorum, hcall⟩
    rw [call?, List.map_eq_nil_iff.1 hidle] at hcall
    cases hcall
  have hlate (j : Nat) :
      ¬ Late c₀ (gather leaves lone (sharedAndReplay ++ .close :: ms)) c j := by
    rintro (⟨⟨links, next, hcall, -⟩, -⟩ | ⟨-, hi⟩ | hj)
    · rw [call?, List.map_eq_nil_iff.1 hcalls] at hcall
      cases hcall
    · exact hproposes _ hi
    · rw [hleft] at hj
      exact List.not_mem_nil hj
  have hmanned {f : Feed} (hnone : f.sessions ≠ []) (hall : ∀ j ∈ f.sessions,
      Late c₀ (gather leaves lone (sharedAndReplay ++ .close :: ms)) c j) : False := by
    obtain ⟨j, hj⟩ := List.exists_mem_of_ne_nil _ hnone
    exact hlate j (hall j hj)
  obtain ⟨hkeys, -, hfeeds, hasks, htells⟩ :=
    stopped_but_for_late onePeer ⟨"org", []⟩ .default sharedAndReplay ms hsettled
  refine ⟨hsettled, hrunning, fun key => ?_, fun k f hf => ?_, fun k m => ?_, fun j s m hs => ?_⟩
  · by_contra hkey
    obtain ⟨-, i, hi⟩ := hkeys key hkey
    exact hproposes i hi
  · exact (hfeeds k f hf).resolve_right fun h => hmanned h.1 h.2
  · by_contra h
    obtain ⟨f, -, hnone, hall⟩ := hasks k m h
    exact hmanned hnone hall
  · by_contra h
    rcases htells j s m hs h with hj | ⟨-, -, ⟨l, name, haudience⟩, -⟩
    · exact hlate j hj
    · have hmem : s.audience ∈ c.sessions.map (·.audience) :=
        List.mem_map_of_mem (List.mem_of_getElem? hs)
      rw [haudiences, haudience] at hmem
      simp at hmem

/-- A listener that replays is being added when the client is closed: its feed asks for a stream,
and the listener is told of a block. And a transaction that was being endorsed registers its mailbox
after the close. -/
theorem running_after_close :
    let c := (lone.run [.addListener (.blocks (.app "l")) { startBlock := some 5 }]).apply .close
    let d := ((new twoByTwo ⟨"org", []⟩ .default).apply (.submit calling)).apply .close
    let block : Block := ⟨5, .full, [], none⟩
    c.asks? 0 (.requestStream 0) = some (some 5) ∧
      (c.run [.requestStream 0, .streamOpened 0, .blockArrived 0 block]).tells 0 (.takeNext 0) =
        [.block ⟨"peer", block⟩] ∧
      d.registrations = [] ∧
      (d.apply (.endorsed 0 (.ok (Answer.collect (.ofMillis 30000) answering)))).registered?
        (.commit (.mailbox 0)) = some [] :=
  ⟨by decide +kernel, rfl, by decide +kernel, by decide +kernel⟩

end Client

end LedgerClient
