import LedgerClient.Proofs.Tasks

/-!
# What moves work on

A move of a feed or a session leaves who is on which feed (`Client.Steady`); every other move but a
close is a chain of tasks on the keys that it handles, after which the client may be given up
(`Client.steady_or_works`). So in every client that comes about, what is registered and what is
pending is in place (`Client.sane_run`); what is under a key stays there or is released
(`Client.under_or_released_apply`); and a move leaves the keys that it does not handle, and the
sessions under them, alone (`Client.Frame`).
-/

namespace LedgerClient

namespace Client

variable {i : Nat} {mine : ListenerKey → Prop} {c c' : Client} {key : ListenerKey} {m : Move}

/-- The keys that a move handles: those that it adds or removes, that of its call, and the mailboxes
of the waits that it may touch. -/
def Handles (c : Client) (m : Move) (key : ListenerKey) : Prop :=
  c.MayAdd m key ∨ m = .remove key ∨ ∃ w wait n, c.MayTouch m w ∧ c.waits[w]? = some wait ∧
    wait.listener = some n ∧ key = .commit (.mailbox n)

theorem mails_of_mayTouch {w : Nat} (h : c.MayTouch m w) : c.Mails (c.Handles m) w :=
  fun wait n hwait hn => Or.inr (Or.inr ⟨w, wait, n, h, hwait, hn, rfl⟩)

theorem handles_of_adds (h : key ∈ c.adds m) : c.Handles m key := Or.inl (Or.inl h)

theorem Works.refl (h : c.Ready i) : Works i mine c c := ⟨c, .refl, h, Or.inl rfl⟩

theorem works_inquire (c : Client) (p : Proposal) (s : Chooser × InquiryStep) :
    Works i mine c (c.inquire i p s) := by
  obtain ⟨chooser, inquiry | r⟩ := s
  all_goals
    have hnote : Task i mine c { c with chooser } :=
      .notes rfl rfl rfl rfl (Nat.le_refl _) [] (List.append_nil _).symm (by simp)
  · exact .of_tasks (.single hnote) (works_set_send _ (fun _ _ _ => by simp) rfl)
  · exact .of_tasks (.single hnote) (works_finish _ _)

theorem works_submit (c : Client) (inv : Invocation) :
    Works c.nextCall mine c (c.submit inv) := by
  refine .of_tasks (.single (task_newCall c)) ?_
  unfold submit
  dsimp only
  split
  · exact works_finish c.newCall.1 _
  · split
    · exact works_finish c.newCall.1 _
    · exact works_set_send c.newCall.1 (fun _ _ _ => by simp) rfl

theorem works_evaluate (c : Client) (inv : Invocation) :
    Works c.nextCall mine c (c.evaluate inv) := by
  refine .of_tasks (.single (task_newCall c)) ?_
  unfold evaluate
  dsimp only
  split
  · exact works_finish c.newCall.1 _
  · exact works_inquire c.newCall.1 _ _

theorem works_addListener (hc : c.Tidy) (s : Subject) (o : ListenerOptions) (owned : mine s.key) :
    Works c.nextCall mine c (c.addListener s o) := by
  have hnew : Task c.nextCall mine c c.newCall.1 := task_newCall c
  refine .of_tasks (.single hnew) ?_
  unfold addListener
  dsimp only
  split
  · exact works_finish c.newCall.1 _
  · next free =>
    have hreserve : Task c.nextCall mine c.newCall.1 (c.newCall.1.reserve s.key) :=
      .reserves s.key owned free
    refine .of_tasks (.single hreserve) ?_
    split
    · exact works_set_send _ (fun _ _ _ => by simp) rfl
    · exact works_attachListener owned (hreserve.act.tidy (hnew.act.tidy hc))
        (Nat.lt_succ_self _) o _

theorem works_abandon (hw : ∀ call, c.call? i = some call → ∀ w ∈ call.wait?, c.Mails mine w) :
    Works i mine c (c.abandon i) := by
  unfold abandon
  split
  · next hgone => exact .refl (ready_of_gone hgone)
  · next call hcall =>
    have hends (b : Client) : Works i mine b
        ({ b with calls := b.calls.filter (·.1 ≠ i) } : Client).tearDownIfUnused :=
      ⟨_, .single .ends, ready_of_gone b.call?_filter_self, Or.inr rfl⟩
    have hwait := hw call hcall
    dsimp only
    split
    · exact .of_tasks (tasks_dropWait (hwait _ rfl)) (hends _)
    · exact .of_tasks (tasks_dropWait (hwait _ rfl)) (hends _)
    · exact .of_tasks (tasks_dropWait (hwait _ rfl)) (hends _)
    · exact hends c

theorem works_fresh (hc : c.Tidy) (hn : c.Named) (hfeed : m.feed? = none)
    (hsession : m.session? = none) (hclose : m ≠ .close) (hm : m.call? = none) :
    Works c.nextCall (c.Handles m) c (c.apply m) := by
  have hnew : Task c.nextCall (c.Handles m) c c.newCall.1 := task_newCall c
  have htidy : c.newCall.1.Tidy := hnew.act.tidy hc
  have hlt : c.nextCall < c.newCall.1.nextCall := Nat.lt_succ_self _
  have hmails {w : Nat} (h : m.wait? = some w) : c.Mails (c.Handles m) w :=
    mails_of_mayTouch (Or.inl h)
  have hgone {b : Client} (hcalls : b.calls = c.calls) : b.Ready c.nextCall :=
    ready_of_gone ((call?_of_calls_eq hcalls _).trans hn.fresh)
  cases m with
  | submit inv => exact works_submit c inv
  | evaluate inv => exact works_evaluate c inv
  | addListener s o => exact works_addListener hc s o (handles_of_adds (List.mem_singleton_self _))
  | addCommitListener l peers id =>
    exact .of_tasks (.single hnew) (works_linkCommit
      (handles_of_adds (List.mem_singleton_self _)) htidy hlt peers id (by simp [AfterLink.wait?]))
  | remove key =>
    exact ⟨c.unregister key, .single (.removes key (Or.inr (Or.inl rfl))),
      hgone (c.sheds_unregister key).calls, Or.inl rfl⟩
  | letGo =>
    have hnote : Task c.nextCall (c.Handles .letGo) c { c with held := false } :=
      .notes rfl rfl rfl rfl (Nat.le_refl _) [] (List.append_nil _).symm (by simp)
    exact ⟨{ c with held := false }, .single hnote, hgone rfl, Or.inr rfl⟩
  | newWait id quorum limit =>
    exact ⟨(c.newWait id quorum limit).1, .single (.notes rfl rfl rfl rfl (Nat.le_refl _) []
      (List.append_nil _).symm (by simp)), hgone rfl, Or.inl rfl⟩
  | listen w =>
    refine .of_tasks (.single hnew) ?_
    change Works _ _ c.newCall.1 (c.newCall.1.openMailbox c.nextCall w .listening)
    cases hwait : c.newCall.1.waits[w]? with
    | none =>
      have hsame : c.newCall.1.openMailbox c.nextCall w .listening = c.newCall.1 := by
        unfold openMailbox wait?
        rw [hwait]
      rw [hsame]
      exact .refl (hgone rfl)
    | some wait =>
      exact works_openMailbox hwait (handles_of_adds (List.mem_singleton_self _)) htidy hlt
        (by simp [AfterLink.wait?]) (hmails rfl)
  | awaitConfirmation w =>
    have hw : c.newCall.1.Mails (c.Handles (.awaitConfirmation w)) w := hmails rfl
    exact .of_tasks (.single hnew) (works_confirm hw (not_pending_of_gone hn.fresh) none)
  | cancelWait w =>
    exact ⟨c.cancelWait w, tasks_cancelWait (hmails rfl), hgone (c.dropWait_same w).1, Or.inl rfl⟩
  | letGoOfWait w =>
    exact ⟨c.dropWait w, tasks_dropWait (hmails rfl), hgone (c.dropWait_same w).1, Or.inr rfl⟩
  | tick millis =>
    exact ⟨c.tick millis, .single (.notes rfl rfl rfl rfl (Nat.le_refl _) []
      (List.append_nil _).symm (by simp)), hgone rfl, Or.inl rfl⟩
  | close => exact absurd rfl hclose
  | abandon | checkpointRead | endorsed | ordered | inquired | resume => cases hm
  | requestStream | streamOpened | streamRefused | blockArrived | streamBroke | streamEnded =>
    cases hfeed
  | takeNext | answer => cases hsession

theorem works_goes {c' : Client} {call : Call} (hc : c.Tidy) (hn : c.Named) (hready : c.Ready i)
    (hactor : c.actor m = i) (hcall : c.call? i = some call) (h : c.Goes i call m c') :
    Works i (c.Handles m) c c' := by
  have hi := hn i call hcall
  have hmails : ∀ w ∈ call.wait?, c.Mails (c.Handles m) w := fun w hw =>
    mails_of_mayTouch (Or.inr (Or.inl ⟨call, hactor ▸ hcall, hw⟩))
  have hkey : ∀ key ∈ call.key?, c.Handles m key := fun key hkey =>
    Or.inl (Or.inr ⟨call, hactor ▸ hcall, hkey⟩)
  cases h with
  | attaches key o position => exact works_attachListener (hkey key rfl) hc hi o _
  | unread key o e => exact .of_tasks (.single (.removes key (hkey key rfl))) (works_finish _ _)
  | follows key links next =>
    exact works_followLinks (hkey key rfl) (hready key links next hcall) hmails
  | unreached | refused => exact works_finish c _
  | @endorsed p quorum answers verdict =>
    let b := (c.newWait p.id (quorum.or c.defaultQuorum) c.options.commitTimeout).1
    have hnote : Task i (c.Handles (.endorsed i (.ok answers))) c b :=
      .notes rfl rfl rfl rfl (Nat.le_refl _) [] (List.append_nil _).symm (by simp)
    have hwait : b.waits[c.waits.length]? = some ⟨p.id, quorum.or c.defaultQuorum,
        c.options.commitTimeout, none, none, none, true⟩ := List.getElem?_concat_length
    refine .of_tasks (.single hnote) (works_openMailbox hwait
      (handles_of_adds (List.mem_singleton_self _)) (hnote.act.tidy hc) hi
      (fun v hv => (Option.some.inj hv).symm) fun wait n hwait' hn => ?_)
    obtain rfl := Option.some.inj (hwait.symm.trans hwait')
    cases hn
  | ordered request payload w route r =>
    exact works_orderStep (hmails w rfl) (not_pending_of_call hcall (by simp)) _ _ _
  | looks w q t payload =>
    exact works_lookAt (hmails w rfl) (not_pending_of_call hcall (by simp)) _ _ _ _
  | inquired p inquiry r => exact works_inquire c _ _

theorem works_call (hc : c.Tidy) (hn : c.Named) (hready : c.Ready i) (hm : m.call? = some i) :
    Works i (c.Handles m) c (c.apply m) := by
  have hactor : c.actor m = i := actor_of_call hm
  obtain ⟨hsame, -⟩ | ⟨rfl, -⟩ | ⟨call, b, hcall, hb, hgoes⟩ := c.call_cases hm
  · rw [hsame]
    exact .refl hready
  · exact works_abandon fun call hcall w hw =>
      mails_of_mayTouch (Or.inr (Or.inl ⟨call, hactor ▸ hcall, hw⟩))
  · rw [hb]
    exact works_goes hc hn hready hactor hcall hgoes

/-- All moves but those of feeds and sessions and a close are chains of tasks. -/
theorem works_apply (hc : c.Tidy) (hn : c.Named) (hready : c.Ready (c.actor m))
    (hfeed : m.feed? = none) (hsession : m.session? = none) (hclose : m ≠ .close) :
    Works (c.actor m) (c.Handles m) c (c.apply m) := by
  cases hm : m.call? with
  | some i =>
    rw [actor_of_call hm] at hready ⊢
    exact works_call hc hn hready hm
  | none =>
    rw [actor_of_fresh hm]
    exact works_fresh hc hn hfeed hsession hclose hm

/-! ## Moves of feeds and sessions -/

/-- Feeds and sessions have moved, but who is on which feed, and whom a session tells, is as it
was. -/
structure Steady (c c' : Client) : Prop where
  quiet : c.Quiet c'
  shared : c'.table.shared = c.table.shared
  feed : ∀ {k f}, c.table.feed? k = some f → ∃ f', c'.table.feed? k = some f' ∧
    (f'.phase = f.phase ∨ f.isRunning = true ∧ f'.isRunning = true) ∧ f'.peer = f.peer ∧
    f'.kind = f.kind ∧ f'.shared = f.shared ∧ f'.sessions = f.sessions
  back : ∀ {k f'}, c'.table.feed? k = some f' → ∃ f, c.table.feed? k = some f
  session : ∀ {j : Nat} {s : Session}, c.sessions[j]? = some s →
    ∃ s', c'.sessions[j]? = some s' ∧ s'.removed = s.removed ∧ s'.audience = s.audience

theorem Steady.refl (c : Client) : c.Steady c :=
  ⟨.refl c, rfl, fun hf => ⟨_, hf, Or.inl rfl, rfl, rfl, rfl, rfl⟩, fun hf => ⟨_, hf⟩,
    fun hs => ⟨_, hs, rfl, rfl⟩⟩

theorem Feeds.steady {k : Nat} {f : Feed} (hc : c.Tidy) (hm : f.Admits m)
    (h : Feeds k c c' f (f.after c.options.reconnect m) (f.hands m)) : c.Steady c' := by
  refine ⟨⟨h.registrations, h.calls, h.nextCall, h.length, h.outbox⟩, h.shared,
    fun {k' g} hg => ?_, fun {k' g'} hg' => ?_, fun {j s} hs => ?_⟩
  · rw [h.feeds]
    split_ifs with hk
    · subst hk
      obtain rfl := Option.some.inj (h.feed.symm.trans hg)
      obtain ⟨hpeer, hkind, hshared, -, hsessions⟩ := f.after_same c.options.reconnect m
      exact ⟨_, rfl, Or.inr ⟨Feed.isRunning_of_admits hm, f.isRunning_after _ hm⟩, hpeer, hkind,
        hshared, hsessions⟩
    · exact ⟨g, hg, Or.inl rfl, rfl, rfl, rfl, rfl⟩
  · rw [h.feeds] at hg'
    split_ifs at hg' with hk
    · exact ⟨f, hk ▸ h.feed⟩
    · exact ⟨g', hg'⟩
  · rw [h.session (hc.sound.nodup h.feed), hs]
    split_ifs
    · obtain ⟨haudience, hremoved, -⟩ := wary_foldl_deliver (f.hands m) s
      exact ⟨_, rfl, hremoved, haudience⟩
    · exact ⟨s, rfl, rfl, rfl⟩

theorem Serves.steady {j : Nat} {s s' : Session} (h : Serves j c c' s s')
    (hs' : s' = s.after m ∨ s' = (s.after m).answer (.told true)) : c.Steady c' := by
  refine ⟨⟨h.registrations, h.calls, h.nextCall, h.length, h.outbox⟩, by rw [h.table],
    fun hf => ⟨_, h.table ▸ hf, Or.inl rfl, rfl, rfl, rfl, rfl⟩, fun hf => ⟨_, h.table ▸ hf⟩,
    fun {j' s₁} hs₁ => ?_⟩
  rw [h.sessions]
  split_ifs with hj
  · subst hj
    obtain rfl := Option.some.inj (h.session.symm.trans hs₁)
    obtain ⟨haudience, hremoved, -⟩ := wary_after s m
    refine ⟨s', rfl, ?_⟩
    rcases hs' with rfl | rfl
    · exact ⟨hremoved, haudience⟩
    · exact ⟨(Session.removed_answer ..).trans hremoved,
        (Session.audience_answer ..).trans haudience⟩
  · exact ⟨s₁, hs₁, rfl, rfl⟩

theorem steady_or_other (hc : c.Tidy) (m : Move) :
    c.Steady (c.apply m) ∨ m.feed? = none ∧ m.session? = none := by
  cases hfeed : m.feed? with
  | some k =>
    rcases feed_move_cases (c := c) hfeed with ⟨-, heq⟩ | ⟨f, hm, h⟩
    · exact Or.inl (heq.symm ▸ .refl c)
    · exact Or.inl (h.steady hc hm)
  | none =>
    cases hsession : m.session? with
    | some j =>
      rcases session_move_cases (c := c) hsession with ⟨-, heq⟩ | ⟨s, s', -, hs', h⟩
      · exact Or.inl (heq.symm ▸ .refl c)
      · exact Or.inl (h.steady hs')
    | none => exact Or.inr ⟨rfl, rfl⟩

/-- A move is one of a feed or a session, a close, or a chain of tasks. -/
theorem steady_or_works (hc : c.Tidy) (hn : c.Named) (hready : c.Ready (c.actor m)) :
    c.Steady (c.apply m) ∨ m = .close ∨
      Works (c.actor m) (c.Handles m) c (c.apply m) := by
  rcases steady_or_other hc m with hsteady | ⟨hfeed, hsession⟩
  · exact Or.inl hsteady
  · by_cases hclose : m = .close
    · exact Or.inr (Or.inl hclose)
    · exact Or.inr (Or.inr (works_apply hc hn hready hfeed hsession hclose))

/-! ## Everything is in place -/

section Settled

variable {a : Attachment} {j k : Nat}

theorem Steady.attached (h : c.Steady c') (ha : c.Attached a) : c'.Attached a := by
  obtain ⟨f, hf, hmem⟩ := ha
  obtain ⟨f', hf', -, -, -, -, hsessions⟩ := h.feed hf
  exact ⟨f', hf', hsessions ▸ hmem⟩

theorem Steady.opened (h : c.Steady c') (hj : c.Open key j) : c'.Open key j := by
  obtain ⟨s, hs, hremoved, haudience⟩ := hj
  obtain ⟨s', hs', hremoved', haudience'⟩ := h.session hs
  exact ⟨s', hs', hremoved'.trans hremoved, by rw [haudience', haudience]⟩

theorem Steady.feed_back (h : c.Steady c') {f' : Feed} (hf' : c'.table.feed? k = some f') :
    ∃ f, c.table.feed? k = some f ∧
      (f'.phase = f.phase ∨ f.isRunning = true ∧ f'.isRunning = true) ∧ f'.peer = f.peer ∧
      f'.kind = f.kind ∧ f'.shared = f.shared ∧ f'.sessions = f.sessions := by
  obtain ⟨f, hf⟩ := h.back hf'
  obtain ⟨f'', hf'', hsame⟩ := h.feed hf
  obtain rfl := Option.some.inj (hf'.symm.trans hf'')
  exact ⟨f, hf, hsame⟩

theorem Steady.released (h : c.Steady c') (hj : c.Released j) : c'.Released j := by
  obtain ⟨s, hs, hremoved⟩ := hj.removed
  obtain ⟨s', hs', hremoved', -⟩ := h.session hs
  refine ⟨⟨s', hs', hremoved'.trans hremoved⟩, fun hf' hmem => ?_⟩
  obtain ⟨f, hf, -, -, -, -, hsessions⟩ := h.feed_back hf'
  exact hj.off hf (hsessions ▸ hmem)

theorem Steady.settled (h : c.Steady c') {busy : Nat → Prop} (hs : c.Settled busy) :
    c'.Settled busy := by
  have hcall (k : Nat) : c'.call? k = c.call? k := call?_of_calls_eq h.quiet.calls k
  have hruns {f f' : Feed} (hp : f'.phase = f.phase ∨ f.isRunning = true ∧ f'.isRunning = true) :
      f'.isRunning = f.isRunning := by
    rcases hp with hp | ⟨hr, hr'⟩
    · rw [Feed.isRunning, hp, Feed.isRunning]
    · rw [hr, hr']
  refine ⟨⟨⟨fun {k f'} hf' => ?_, fun {k f'} hf' hruns' hshared' => ?_⟩,
    fun {k f' j} hf' hruns' hj => ?_⟩, by rw [h.quiet.registrations]; exact hs.keys,
    fun {key as} hkey a ha => ?_, fun {k key links next} hk hcall' l hl => ?_⟩
  · obtain ⟨f, hf, hp, -, -, -, hsessions⟩ := h.feed_back hf'
    rcases hp with hp | ⟨hr, hr'⟩
    · rw [hp, hsessions, Feed.isRunning, hp]
      exact hs.staffed.manned.busy hf
    · refine Or.inr ⟨hr', hsessions ▸ ?_⟩
      refine ((hs.staffed.manned.busy hf).resolve_left fun hstop => ?_).2
      rw [FeedTable.not_isRunning_of_stopped hstop] at hr
      cases hr
  · obtain ⟨f, hf, hp, hpeer, hkind, hshared, -⟩ := h.feed_back hf'
    rw [h.shared, hpeer, hkind]
    exact hs.staffed.manned.listed hf (hruns hp ▸ hruns') (hshared ▸ hshared')
  · obtain ⟨f, hf, hp, -, -, -, hsessions⟩ := h.feed_back hf'
    obtain ⟨s, hs', hopen⟩ := hs.staffed.awake hf (hruns hp ▸ hruns') (hsessions ▸ hj)
    obtain ⟨s', hs'', hremoved, -⟩ := h.session hs'
    exact ⟨s', hs'', hremoved.trans hopen⟩
  · rw [registered?_of_registrations h.quiet.registrations] at hkey
    exact ⟨h.attached (hs.stored hkey a ha).1, h.opened (hs.stored hkey a ha).2⟩
  · rw [hcall] at hcall'
    have hinhand := hs.pending hk hcall' l hl
    exact ⟨h.attached hinhand.attached, h.opened hinhand.opened, hinhand.aside.of_eq
      h.quiet.registrations h.quiet.calls h.quiet.nextCall h.quiet.length⟩

theorem Settled.begin (h : c.Settled fun _ => False) (i : Nat) : c.Settled (· = i) :=
  ⟨h.staffed, h.keys, h.stored, fun _ => h.pending id⟩

theorem Settled.ready (h : c.Settled fun _ => False) (i : Nat) : c.Ready i :=
  fun _ _ _ hcall => h.pending id hcall

/-- When a call has in its hands what it waits for, its work is done. -/
theorem Settled.settle (h : c.Settled (· = i)) (hready : c.Ready i) :
    c.Settled fun _ => False := by
  refine ⟨h.staffed, h.keys, h.stored, fun {k key links next} _ hcall => ?_⟩
  by_cases hk : k = i
  · subst hk
    exact hready key links next hcall
  · exact h.pending hk hcall

theorem Settled.tearDownIfUnused {busy : Nat → Prop} (h : c.Settled busy) (ht : c.table.Sound) :
    c.tearDownIfUnused.Settled busy := by
  unfold Client.tearDownIfUnused
  split_ifs with hunused
  · simp only [Bool.and_eq_true, List.isEmpty_iff] at hunused
    exact h.tearDown ht hunused.1.2
  · exact h

theorem Works.settled (h : Works i mine c c') (hc : c.Tidy) (hs : c.Settled fun _ => False) :
    c'.Settled fun _ => False := by
  obtain ⟨b, hb, hready, heq⟩ := h
  have hsettled := (hb.settled hc (hs.begin i)).settle hready
  rcases heq with rfl | rfl
  · exact hsettled
  · exact hsettled.tearDownIfUnused (Acts.tidy hb.acts hc).sound

theorem Settled.apply (h : c.Settled fun _ => False) (hc : c.Tidy) (hn : c.Named) (m : Move) :
    (c.apply m).Settled fun _ => False := by
  rcases steady_or_works (m := m) hc hn (h.ready _) with hsteady | rfl | hworks
  · exact hsteady.settled h
  · exact (h.close hc.sound).1
  · exact hworks.settled hc h

end Settled

/-- A client in order, in which everything is in place. -/
structure Sane (c : Client) : Prop where
  tidy : c.Tidy
  named : c.Named
  settled : c.Settled fun _ => False

theorem Sane.apply (h : c.Sane) (m : Move) : (c.apply m).Sane :=
  ⟨h.tidy.apply m, named_apply h.tidy h.named m, h.settled.apply h.tidy h.named m⟩

theorem Sane.run (h : c.Sane) (ms : List Move) : (c.run ms).Sane := by
  induction ms generalizing c with
  | nil => exact h
  | cons m ms ih => exact ih (h.apply m)

/-- In every client that comes about everything is in place. -/
theorem sane_run (channel : Channel) (identity : Identity) (options : Options) (ms : List Move) :
    ((new channel identity options).run ms).Sane := by
  refine Sane.run ⟨tidy_run channel identity options [], named_run channel identity options [],
    ⟨FeedTable.manned_empty, fun hf => ?_⟩, List.nodup_nil, fun hkey => ?_, fun _ hcall => ?_⟩ ms
  · simp [new, FeedTable.empty, FeedTable.feed?] at hf
  · cases hkey
  · cases hcall

/-! ## What becomes of sessions -/

section Sessions

variable {j k : Nat}

theorem Act.released {own : Nat → Prop} (h : Act i own c c') (hj : c.Released j) :
    c'.Released j := by
  obtain ⟨s, hs, hremoved⟩ := hj.removed
  rcases h.cases with ⟨htable, hsessions⟩ | hsheds | ⟨-, htable, audience, floor, hsessions⟩ |
    ⟨r, peer, kind, start, session, -, ⟨a, hfresh⟩, -, htable, hsessions⟩
  · exact ⟨⟨s, hsessions ▸ hs, hremoved⟩, fun hf => hj.off (htable ▸ hf)⟩
  · exact hj.sheds hsheds
  · refine ⟨⟨s, ?_, hremoved⟩, fun hf => hj.off (htable ▸ hf)⟩
    rw [hsessions, List.getElem?_append_left (List.getElem?_eq_some_iff.1 hs).1, hs]
  · refine ⟨⟨s, hsessions ▸ hs, hremoved⟩, fun {k f} hf hmem => ?_⟩
    rw [htable] at hf
    rcases FeedTable.mem_sessions_join r peer kind start session hf hmem with rfl | ⟨g, hg, hmem⟩
    · obtain rfl := Option.some.inj (hs.symm.trans hfresh)
      cases hremoved
    · exact hj.off hg hmem

theorem Acts.released {own : Nat → Prop} (h : Acts i own c c') (hj : c.Released j) :
    c'.Released j := by
  induction h with
  | refl => exact hj
  | tail _ h ih => exact h.released ih

theorem Released.apply (hj : c.Released j) (hc : c.Tidy) (m : Move) : (c.apply m).Released j := by
  rcases steady_or_other hc m with hsteady | ⟨hfeed, hsession⟩
  · exact hsteady.released hj
  · exact Acts.released (acts_apply hc.bounded hc.known hfeed hsession) hj

/-- What is under a key stays there or is released. -/
theorem Task.under (h : Task i mine c c') (ht : c.table.Sound) (hc : c.Settled (· = i))
    (hj : c.Under key j) : c'.Under key j ∨ c'.Released j := by
  have hsame (hregistrations : c'.registrations = c.registrations) : c'.Under key j :=
    (under_of_registrations hregistrations).2 hj
  cases h with
  | notes _ _ registrations => exact Or.inl (hsame registrations)
  | sets | ends => exact Or.inl (hsame rfl)
  | reserves key' _ free => exact Or.inl (hj.reserve free)
  | completes key' bs => exact Or.inl (hj.complete key' bs)
  | removes key' =>
    by_cases hk : key' = key
    · subst hk
      exact Or.inr ((hc.unregister ht key').2 _ hj)
    · exact Or.inl (hj.unregister hk)
  | spawns audience floor =>
    obtain ⟨agenda, heq⟩ := c.spawn_eq audience floor
    exact Or.inl (hsame (by rw [heq]))
  | attaches peer kind start session =>
    obtain ⟨agenda, heq⟩ := c.attachTo_eq peer kind start session
    exact Or.inl (hsame (by rw [heq]))

theorem Tasks.under (h : Tasks i mine c c') (hc : c.Tidy) (hs : c.Settled (· = i))
    (hj : c.Under key j ∨ c.Released j) : c'.Under key j ∨ c'.Released j := by
  induction h with
  | refl => exact hj
  | tail hb h ih =>
    rcases ih with hunder | hreleased
    · exact h.under (Acts.tidy (Tasks.acts hb) hc).sound (Tasks.settled hb hc hs) hunder
    · exact Or.inr (h.act.released hreleased)

end Sessions

/-! ## The frame of a move -/

/-- Nobody holds the client: not the application, no call, and nobody holds a wait. -/
structure Unused (c : Client) : Prop where
  held : c.held = false
  calls : c.calls = []
  waits : ∀ w ∈ c.waits, w.held = false

theorem unused_iff (c : Client) :
    (!c.held && c.calls.isEmpty && c.waits.all (!·.held)) = true ↔ c.Unused := by
  simp only [Bool.and_eq_true, Bool.not_eq_true', List.isEmpty_iff, List.all_eq_true]
  exact ⟨fun h => ⟨h.1.1, h.1.2, h.2⟩, fun h => ⟨⟨h.held, h.calls⟩, h.waits⟩⟩

instance (c : Client) : Decidable c.Unused := decidable_of_iff _ c.unused_iff

theorem tearDownIfUnused_of_used (h : ¬ c.Unused) : c.tearDownIfUnused = c :=
  if_neg fun hunused => h (c.unused_iff.1 hunused)

theorem tearDownIfUnused_cases (c : Client) :
    c.tearDownIfUnused.Unused ∨ c.tearDownIfUnused = c := by
  by_cases hunused : c.Unused
  · obtain ⟨table, sessions, heq⟩ := c.tearDown_eq
    rw [tearDownIfUnused, if_pos (c.unused_iff.2 hunused), heq]
    exact Or.inl ⟨hunused.held, hunused.calls, hunused.waits⟩
  · exact Or.inr (tearDownIfUnused_of_used hunused)

/-- As long as the client is held, a call does tasks only. -/
theorem Works.tasks (h : Works i mine c c') (hused : ¬ c'.Unused) :
    Tasks i mine c c' ∧ c'.Ready i := by
  obtain ⟨b, hb, hready, rfl | rfl⟩ := h
  · exact ⟨hb, hready⟩
  · have heq := b.tearDownIfUnused_cases.resolve_left hused
    exact heq.symm ▸ ⟨hb, hready⟩

theorem Unused.call?_eq_none (h : c.Unused) (k : Nat) : c.call? k = none := by
  rw [call?, h.calls]
  rfl

theorem Task.registered? (h : Task i mine c c') (hkey : ¬ mine key) :
    c'.registered? key = c.registered? key := by
  have hne {key' : ListenerKey} (owned : mine key') : key' ≠ key := by
    rintro rfl
    exact hkey owned
  cases h with
  | notes _ _ registrations => exact registered?_of_registrations registrations
  | sets | ends => rfl
  | reserves key' owned free => rw [registered?_reserve free, if_neg (hne owned)]
  | completes key' as owned => simp [registered?_complete, (hne owned).symm]
  | removes key' owned =>
    obtain ⟨_, _, _, heq⟩ := c.unregister_eq key'
    rw [heq]
    exact registered?_filter.trans (if_neg (hne owned))
  | spawns audience floor =>
    obtain ⟨_, heq⟩ := c.spawn_eq audience floor
    rw [heq]
    rfl
  | attaches peer kind start session =>
    obtain ⟨_, heq⟩ := c.attachTo_eq peer kind start session
    rw [heq]
    rfl

theorem Tasks.registered? (h : Tasks i mine c c') (hkey : ¬ mine key) :
    c'.registered? key = c.registered? key := by
  induction h with
  | refl => rfl
  | tail _ h ih => exact (h.registered? hkey).trans ih

/-- When the client is given up, nothing is registered any more. -/
theorem registered?_tearDownIfUnused (c : Client) (key : ListenerKey) :
    c.tearDownIfUnused.registered? key = c.registered? key ∨
      c.tearDownIfUnused.registered? key = none := by
  unfold tearDownIfUnused
  split_ifs
  · rw [Client.registered?, c.tearDown_registrations]
    exact Or.inr rfl
  · exact Or.inl rfl

/-- What a call works leaves what is under a key that it may not handle, until the client is given
up. -/
theorem Works.registered? (h : Works i mine c c') (hkey : ¬ mine key) :
    c'.registered? key = c.registered? key ∨ c'.registered? key = none := by
  obtain ⟨b, hb, -, rfl | rfl⟩ := h
  · exact Or.inl (Tasks.registered? hb hkey)
  · rw [← Tasks.registered? hb hkey]
    exact b.registered?_tearDownIfUnused key

/-- What is under a key stays there or is released, as long as the client is held. -/
theorem under_or_released_apply {j : Nat} (hc : c.Sane) (hused : ¬ (c.apply m).Unused)
    (hj : c.Under key j ∨ c.Released j) :
    (c.apply m).Under key j ∨ (c.apply m).Released j := by
  rcases steady_or_works (m := m) hc.tidy hc.named (hc.settled.ready _) with
    hsteady | rfl | hworks
  · exact hj.imp (under_of_registrations hsteady.quiet.registrations).2 hsteady.released
  · rcases hj with ⟨as, has, a, ha, rfl⟩ | hreleased
    · exact Or.inr ((hc.settled.close hc.tidy.sound).2 _ (registered_of_mem has ha))
    · exact Or.inr (hreleased.sheds c.sheds_close)
  · exact (hworks.tasks hused).1.under hc.tidy (hc.settled.begin _) hj

/-- Keys that are not `mine` and the sessions of their listeners stay as they are, and these
sessions stay on their feeds, which go on. -/
structure Frame (mine : ListenerKey → Prop) (c c' : Client) : Prop where
  registrations : ∀ p : ListenerKey → Bool, (∀ key, mine key → p key = false) →
    c'.registrations.filter (p ·.1) = c.registrations.filter (p ·.1)
  session : ∀ {j : Nat} {s : Session}, c.sessions[j]? = some s → ¬ mine s.audience.key →
    c'.sessions[j]? = some s
  spares : c.table.Spares (fun j => ∀ s, c.sessions[j]? = some s → mine s.audience.key) c'.table

theorem Frame.of_registrations (htable : c'.table = c.table) (hsessions : c'.sessions = c.sessions)
    (hregistrations : ∀ p : ListenerKey → Bool, (∀ key, mine key → p key = false) →
      c'.registrations.filter (p ·.1) = c.registrations.filter (p ·.1)) : c.Frame mine c' where
  registrations := hregistrations
  session hs _ := hsessions ▸ hs
  spares := htable ▸ .refl _

theorem Frame.of_eq (htable : c'.table = c.table) (hsessions : c'.sessions = c.sessions)
    (hregistrations : c'.registrations = c.registrations) : c.Frame mine c' :=
  .of_registrations htable hsessions fun _ _ => by rw [hregistrations]

theorem Frame.trans {c'' : Client} (h : c.Frame mine c') (h' : c'.Frame mine c'') :
    c.Frame mine c'' := by
  refine ⟨fun p hp => (h'.registrations p hp).trans (h.registrations p hp),
    fun hs hmine => h'.session (h.session hs hmine) hmine, h.spares.trans (h'.spares.mono ?_)⟩
  intro j hgone s hs
  by_contra hmine
  exact hmine (hgone s (h.session hs hmine))

theorem Frame.mono {mine' : ListenerKey → Prop} (h : c.Frame mine c')
    (hmine : ∀ key, mine key → mine' key) : c.Frame mine' c' where
  registrations p hp := h.registrations p fun key hkey => hp key (hmine key hkey)
  session hs hnot := h.session hs fun hkey => hnot (hmine _ hkey)
  spares := h.spares.mono fun _ hgone s hs => hmine _ (hgone s hs)

section Tasks

variable {a : Attachment}

theorem frame_release (ht : c.table.Sound)
    (ha : ∀ s, c.sessions[a.session]? = some s → mine s.audience.key) :
    c.Frame mine (c.release a) := by
  obtain ⟨agenda, heq⟩ := c.release_eq a
  rw [heq]
  refine ⟨fun _ _ => rfl, fun {j s} hs hmine => ?_, FeedTable.spares_release ht a.feed ha⟩
  have hne : a.session ≠ j := by
    rintro rfl
    exact hmine (ha s hs)
  simp [hs, hne]

theorem frame_releaseAll {as : List Attachment} (ht : c.table.Sound)
    (has : ∀ a ∈ as, ∀ s, c.sessions[a.session]? = some s → mine s.audience.key) :
    c.Frame mine (c.releaseAll as) := by
  induction as generalizing c with
  | nil => exact .of_eq rfl rfl rfl
  | cons a as ih =>
    rw [List.forall_mem_cons] at has
    have hsheds : c.Sheds (fun _ => True) (c.release a) := c.sheds_release trivial
    have hsound : (c.release a).table.Sound := sound_releaseAll [a] c ht
    refine (frame_release ht has.1).trans (ih hsound fun b hb s' hs' => ?_)
    have hlt := hsheds.length ▸ (List.getElem?_eq_some_iff.1 hs').1
    have hs := List.getElem?_eq_getElem hlt
    have hmine := has.2 b hb _ hs
    rcases hsheds.session hs with heq | ⟨-, heq⟩ <;>
      obtain rfl := Option.some.inj (hs'.symm.trans heq) <;> exact hmine

/-- What is filtered by keys without one of them does not notice what becomes of this one. -/
theorem filter_filter_ne {rs : List (ListenerKey × List Attachment)} {p : ListenerKey → Bool}
    (hp : p key = false) : (rs.filter (·.1 ≠ key)).filter (p ·.1) = rs.filter (p ·.1) := by
  rw [List.filter_filter]
  refine List.filter_congr fun r _ => ?_
  by_cases hr : r.1 = key
  · rw [hr, hp, Bool.false_and]
  · simp [hr]

theorem filter_map_at {rs : List (ListenerKey × List Attachment)} {p : ListenerKey → Bool}
    (hp : p key = false) (as : List Attachment) :
    (rs.map fun r => if r.1 = key then (r.1, r.2 ++ as) else r).filter (p ·.1) =
      rs.filter (p ·.1) := by
  induction rs with
  | nil => rfl
  | cons r rs ih =>
    rw [List.map_cons]
    by_cases hr : r.1 = key
    · rw [if_pos hr, List.filter_cons_of_neg (by simp [hr, hp]),
        List.filter_cons_of_neg (by simp [hr, hp]), ih]
    · rw [if_neg hr, List.filter_cons, List.filter_cons, ih]

theorem Task.frame (h : Task i mine c c') (ht : c.table.Sound) (hc : c.Settled (· = i)) :
    c.Frame mine c' := by
  have hopen {key : ListenerKey} {j : Nat} (owned : mine key) (hj : c.Open key j) :
      ∀ s, c.sessions[j]? = some s → mine s.audience.key := by
    rintro s hs
    obtain ⟨s', hs', -, rfl⟩ := hj
    obtain rfl := Option.some.inj (hs.symm.trans hs')
    exact owned
  cases h with
  | notes table sessions registrations => exact .of_eq table sessions registrations
  | sets | ends => exact .of_eq rfl rfl rfl
  | reserves key owned =>
    refine .of_registrations rfl rfl fun p hp => ?_
    change (c.registrations ++ [(key, [])]).filter _ = _
    rw [List.filter_append, List.filter_singleton, hp key owned]
    exact List.append_nil _
  | completes key as owned inHand =>
    unfold complete
    split
    · exact frame_releaseAll ht fun a ha => hopen owned (inHand a ha).opened
    · exact .of_registrations rfl rfl fun p hp => filter_map_at (hp key owned) as
  | removes key owned =>
    unfold unregister
    split
    · exact .of_eq rfl rfl rfl
    · next as hkey =>
      have hforget : c.Frame mine { c with registrations := c.registrations.filter (·.1 ≠ key) } :=
        .of_registrations rfl rfl fun p hp => filter_filter_ne (hp key owned)
      exact hforget.trans (frame_releaseAll ht fun a ha => hopen owned (hc.stored hkey a ha).2)
  | spawns audience floor =>
    obtain ⟨agenda, heq⟩ := c.spawn_eq audience floor
    rw [heq]
    refine ⟨fun _ _ => rfl, fun {j s} hs _ => ?_, .refl _⟩
    exact (List.getElem?_append_left (List.getElem?_eq_some_iff.1 hs).1).trans hs
  | attaches peer kind start session =>
    obtain ⟨agenda, heq⟩ := c.attachTo_eq peer kind start session
    rw [heq]
    exact ⟨fun _ _ => rfl, fun hs _ => hs, FeedTable.spares_join ht _ peer kind start session⟩

theorem Tasks.frame (h : Tasks i mine c c') (hc : c.Tidy) (hs : c.Settled (· = i)) :
    c.Frame mine c' := by
  induction h with
  | refl => exact .of_eq rfl rfl rfl
  | tail hb h ih =>
    exact ih.trans (h.frame (Acts.tidy (Tasks.acts hb) hc).sound (Tasks.settled hb hc hs))

end Tasks

/-- What a call works leaves the keys that it may not handle alone, until the client is given up. -/
theorem Works.frame (h : Works i mine c c') (hc : c.Sane) :
    ∃ b, c.Frame mine b ∧ (c' = b ∨ c' = b.tearDownIfUnused) := by
  obtain ⟨b, hb, -, heq⟩ := h
  exact ⟨b, hb.frame hc.tidy (hc.settled.begin i), heq⟩

end Client

end LedgerClient
