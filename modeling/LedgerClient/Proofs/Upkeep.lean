import LedgerClient.Proofs.Acts

/-!
# What acts leave as it is

An act leaves feeds and sessions alone, or sheds some sessions, or makes one, or attaches one
(`Client.Act.cases`).  So a feed stays the same feed but for the sessions on it and for a stop, a
session stays as it is but for its removal, and both only by the hand of those who may: a pending
session is safe from all calls but its own.
-/

namespace LedgerClient

namespace Client

/-! ## Shedding sessions -/

/-- Sessions among `gone` may have been removed and taken off their feeds, feeds stopped, and keys
taken away. -/
structure Sheds (gone : Nat → Prop) (c c' : Client) : Prop where
  table : c.table.Sheds gone c'.table
  length : c'.sessions.length = c.sessions.length
  session : ∀ {j s}, c.sessions[j]? = some s →
    c'.sessions[j]? = some s ∨ gone j ∧ c'.sessions[j]? = some s.close
  detached : ∀ {k f f' j s'}, c.table.feed? k = some f → c'.table.feed? k = some f' →
    j ∈ f.sessions → j ∉ f'.sessions → c'.sessions[j]? = some s' → s'.removed = true
  calls : c'.calls = c.calls
  nextCall : c'.nextCall = c.nextCall
  outbox : c'.outbox = c.outbox
  registrations : c'.registrations ⊆ c.registrations

variable {gone gone' : Nat → Prop} {c c' c'' : Client}

/-- Where no session is touched, feeds may be stopped and keys taken away. -/
theorem sheds_of_sessions_eq (ht : c.table.Sheds (fun _ => False) c'.table)
    (hs : c'.sessions = c.sessions) (hcalls : c'.calls = c.calls)
    (hnext : c'.nextCall = c.nextCall) (hout : c'.outbox = c.outbox)
    (hreg : c'.registrations ⊆ c.registrations) : c.Sheds gone c' :=
  ⟨ht.mono fun _ => False.elim, congrArg _ hs, fun h => Or.inl (hs ▸ h),
    fun hf hf' hj hj' _ => absurd (ht.mem_sessions hf hf' hj) hj', hcalls, hnext, hout, hreg⟩

theorem Sheds.refl (c : Client) : c.Sheds gone c :=
  sheds_of_sessions_eq (.refl _) rfl rfl rfl rfl (List.Subset.refl _)

theorem Sheds.trans (h : c.Sheds gone c') (h' : c'.Sheds gone c'') : c.Sheds gone c'' := by
  refine ⟨h.table.trans h'.table, h'.length.trans h.length, fun {j s} hs => ?_,
    fun {k f f'' j s''} hf hf'' hj hj'' hs'' => ?_, h'.calls.trans h.calls,
    h'.nextCall.trans h.nextCall, h'.outbox.trans h.outbox,
    List.Subset.trans h'.registrations h.registrations⟩
  rcases h.session hs with hs | ⟨hj, hs⟩
  · exact h'.session hs
  · rcases h'.session hs with hs | ⟨-, hs⟩
    · exact Or.inr ⟨hj, hs⟩
    · exact Or.inr ⟨hj, hs⟩
  · obtain ⟨f', hf', -⟩ := h.table.feed hf
    by_cases hj' : j ∈ f'.sessions
    · exact h'.detached hf' hf'' hj' hj'' hs''
    · -- it was removed on the first stretch, and stays so on the second
      have hlt : j < c'.sessions.length := h'.length ▸ (List.getElem?_eq_some_iff.1 hs'').1
      have hs' := List.getElem?_eq_getElem hlt
      have hr := h.detached hf hf' hj hj' hs'
      rcases h'.session hs' with heq | ⟨-, heq⟩ <;>
        rw [hs'', Option.some.injEq] at heq <;> subst heq
      · exact hr
      · rfl

theorem Sheds.mono (h : c.Sheds gone c') (hgone : ∀ j, gone j → gone' j) : c.Sheds gone' c' :=
  { h with
    table := h.table.mono hgone
    session := fun hs => (h.session hs).imp_right (And.imp_left (hgone _)) }

theorem Sheds.registered (h : c.Sheds gone c') {j : Nat} (hj : c'.Registered j) :
    c.Registered j := by
  obtain ⟨r, hr, a, ha, heq⟩ := hj
  exact ⟨r, h.registrations hr, a, ha, heq⟩

theorem foldl_wake_eq {α : Type} (actor : α → Actor) (xs : List α) (c : Client) :
    ∃ agenda, xs.foldl (fun c x => c.wake (actor x)) c = { c with agenda } := by
  induction xs generalizing c with
  | nil => exact ⟨c.agenda, rfl⟩
  | cons x xs ih =>
    obtain ⟨agenda, h⟩ := c.wake_eq (actor x)
    rw [List.foldl_cons, h]
    exact ih _

theorem announce_eq (c : Client) (k : Nat) : ∃ agenda, c.announce k = { c with agenda } :=
  foldl_wake_eq (fun entry : Nat × Call => .call entry.1) _ c

theorem announceStop_eq (c : Client) (k : Nat) :
    ∃ agenda, c.announceStop k = { c with agenda } := by
  unfold announceStop
  split
  · split_ifs
    · exact c.announce_eq k
    · exact ⟨c.agenda, rfl⟩
  · exact ⟨c.agenda, rfl⟩

theorem release_eq (c : Client) (a : Attachment) : ∃ agenda, c.release a =
    { c with
      sessions := c.sessions.modify a.session Session.close
      table := c.table.release a.feed a.session, agenda } := by
  unfold release
  exact announceStop_eq _ _

/-- A session of the list after one of its sessions was removed. -/
theorem getElem?_modify_close {ss : List Session} {i j : Nat} {s : Session} (hi : gone i)
    (hs : ss[j]? = some s) :
    (ss.modify i Session.close)[j]? = some s ∨
      gone j ∧ (ss.modify i Session.close)[j]? = some s.close := by
  rw [List.getElem?_modify, hs]
  by_cases hij : i = j
  · exact Or.inr ⟨hij ▸ hi, by simp [hij]⟩
  · exact Or.inl (by simp [hij])

theorem sheds_release (c : Client) {a : Attachment} (ha : gone a.session) :
    c.Sheds gone (c.release a) := by
  obtain ⟨agenda, h⟩ := c.release_eq a
  rw [h]
  refine ⟨c.table.sheds_release _ ha, List.length_modify .., getElem?_modify_close ha,
    fun {k f f' j s'} hf hf' hj hj' hs' => ?_, rfl, rfl, rfl, List.Subset.refl _⟩
  have hone : c.table.Sheds (· = a.session) (c.table.release a.feed a.session) :=
    c.table.sheds_release _ rfl
  obtain ⟨f'', hf'', hk⟩ := hone.feed hf
  rw [hf', Option.some.injEq] at hf''
  subst hf''
  rw [(hk.kept j hj).resolve_left hj', List.getElem?_modify_eq, Option.map_eq_map,
    Option.map_eq_some_iff] at hs'
  obtain ⟨s, -, rfl⟩ := hs'
  rfl

theorem sheds_releaseAll (as : List Attachment) (c : Client) (has : ∀ a ∈ as, gone a.session) :
    c.Sheds gone (c.releaseAll as) := by
  induction as generalizing c with
  | nil => exact .refl c
  | cons a as ih =>
    rw [List.forall_mem_cons] at has
    exact (c.sheds_release has.1).trans (ih _ has.2)

theorem foldl_announceStop_eq (ks : List Nat) (c : Client) :
    ∃ agenda, ks.foldl announceStop c = { c with agenda } := by
  induction ks generalizing c with
  | nil => exact ⟨c.agenda, rfl⟩
  | cons k ks ih =>
    obtain ⟨agenda, h⟩ := c.announceStop_eq k
    rw [List.foldl_cons, h]
    exact ih _

theorem registered_of_mem {c : Client} {key : ListenerKey} {as : List Attachment}
    (h : c.registered? key = some as) {a : Attachment} (ha : a ∈ as) : c.Registered a.session := by
  obtain ⟨r, hr, rfl⟩ := Option.map_eq_some_iff.1 h
  exact ⟨r, List.mem_of_find?_eq_some hr, a, ha, rfl⟩

theorem sheds_registrations (c : Client) {rs : List (ListenerKey × List Attachment)}
    (hrs : rs ⊆ c.registrations) : c.Sheds gone { c with registrations := rs } :=
  sheds_of_sessions_eq (.refl _) rfl rfl rfl rfl hrs

theorem sheds_unregister (c : Client) (key : ListenerKey) :
    c.Sheds c.Registered (c.unregister key) := by
  unfold unregister
  split
  · exact .refl c
  · next as h =>
    exact (c.sheds_registrations List.filter_sublist.subset).trans
      (sheds_releaseAll as _ fun a ha => registered_of_mem h ha)

theorem registered_of_mem_flatMap {c : Client} {a : Attachment}
    (ha : a ∈ c.registrations.flatMap (·.2)) : c.Registered a.session := by
  obtain ⟨r, hr, ha⟩ := List.mem_flatMap.1 ha
  exact ⟨r, hr, a, ha, rfl⟩

theorem sheds_table (c : Client) {t : FeedTable} (ht : c.table.Sheds (fun _ => False) t) :
    c.Sheds gone { c with table := t } :=
  sheds_of_sessions_eq ht rfl rfl rfl rfl (List.Subset.refl _)

theorem sheds_agenda (c : Client) (agenda : List Actor) : c.Sheds gone { c with agenda } :=
  sheds_of_sessions_eq (.refl _) rfl rfl rfl rfl (List.Subset.refl _)

theorem sheds_close (c : Client) : c.Sheds c.Registered c.close := by
  unfold close
  dsimp only
  obtain ⟨agenda, h⟩ := foldl_announceStop_eq _ _
  rw [h]
  exact (c.sheds_registrations (List.nil_subset _)).trans
    ((sheds_releaseAll _ _ fun a ha => registered_of_mem_flatMap ha).trans
      ((sheds_table _ (FeedTable.sheds_close _)).trans (sheds_agenda _ agenda)))

theorem sheds_tearDown (c : Client) : c.Sheds c.Registered c.tearDown := by
  have hfold : ∀ (as : List Attachment) (b : Client), (∀ a ∈ as, c.Registered a.session) →
      b.Sheds c.Registered (as.foldl (fun b a =>
        { b.modifySession a.session Session.close with
          table := b.table.modify a.feed Feed.stop }) b) := by
    intro as
    induction as with
    | nil => exact fun b _ => .refl b
    | cons a as ih =>
      intro b has
      rw [List.forall_mem_cons] at has
      refine .trans ?_ (ih _ has.2)
      have hstop : b.table.Sheds (fun _ => False) (b.table.modify a.feed Feed.stop) :=
        b.table.sheds_modify a.feed Feed.alike_stop
      exact ⟨hstop.mono fun _ => False.elim, List.length_modify .., getElem?_modify_close has.1,
        fun hf hf' hj hj' _ => absurd (hstop.mem_sessions hf hf' hj) hj', rfl, rfl, rfl,
        List.Subset.refl _⟩
  unfold tearDown
  exact (c.sheds_registrations (List.nil_subset _)).trans
    ((hfold _ _ fun a ha => registered_of_mem_flatMap ha).trans
      (sheds_table _ (FeedTable.sheds_close _)))

/-! ## What an act does to feeds and sessions -/

/-- An act leaves feeds and sessions alone, sheds sessions that it may handle or that are
registered, makes a session, or attaches a new one. -/
theorem Act.cases {i : Nat} {own : Nat → Prop} (h : Act i own c c') :
    (c'.table = c.table ∧ c'.sessions = c.sessions) ∨
    c.Sheds (fun j => own j ∨ c.Registered j) c' ∨
    (own c.sessions.length ∧ c'.table = c.table ∧
      ∃ audience floor, c'.sessions = c.sessions ++ [.new audience floor]) ∨
    ∃ r peer kind start session, own session ∧
      (∃ a, c.sessions[session]? = some (.new a start)) ∧
      (∀ k f, c.table.feed? k = some f → session ∉ f.sessions) ∧
      c'.table = (c.table.join r peer kind start session).1 ∧ c'.sessions = c.sessions := by
  have hregistered : ∀ j, c.Registered j → own j ∨ c.Registered j := fun _ => Or.inr
  cases h with
  | notes table sessions => exact Or.inl ⟨table, sessions⟩
  | waits | ends | reserves => exact Or.inl ⟨rfl, rfl⟩
  | completes key as owned =>
    unfold complete
    split
    · exact Or.inr (Or.inl (sheds_releaseAll as c fun a ha => Or.inl (owned a ha).1))
    · exact Or.inl ⟨rfl, rfl⟩
  | removes key => exact Or.inr (Or.inl ((c.sheds_unregister key).mono hregistered))
  | spawns audience floor owned =>
    exact Or.inr (Or.inr (Or.inl ⟨owned, spawn_table .., audience, floor, spawn_sessions ..⟩))
  | attaches peer kind start session owned fresh apart =>
    exact Or.inr (Or.inr (Or.inr ⟨_, peer, kind, start, session, owned, fresh, apart,
      attachTo_table .., attachTo_sessions ..⟩))
  | closes => exact Or.inr (Or.inl (c.sheds_close.mono hregistered))
  | tearsDown => exact Or.inr (Or.inl (c.sheds_tearDown.mono hregistered))

section Keeps

variable {i : Nat} {own : Nat → Prop}

/-- A feed stays the same feed; only sessions that may be handled come to it or leave it. -/
theorem Act.feed (h : Act i own c c') (ht : c.table.Sound) {k : Nat} {f : Feed}
    (hf : c.table.feed? k = some f) : ∃ f', c'.table.feed? k = some f' ∧
      f.Alike (fun j => own j ∨ c.Registered j) own f' := by
  rcases h.cases with ⟨htable, -⟩ | hsheds | ⟨-, htable, -⟩ |
    ⟨r, peer, kind, start, session, owned, -, -, htable, -⟩
  · exact ⟨f, htable ▸ hf, .refl f⟩
  · obtain ⟨f', hf', ha⟩ := hsheds.table.feed hf
    exact ⟨f', hf', ha.mono (fun _ => id) fun _ => False.elim⟩
  · exact ⟨f, htable ▸ hf, .refl f⟩
  · obtain ⟨f', hf', rfl | rfl⟩ := ht.feed?_join r peer kind start session hf
    · exact ⟨f', htable ▸ hf', .refl f'⟩
    · exact ⟨_, htable ▸ hf', f.alike_attach owned⟩

theorem Act.session (h : Act i own c c') {j : Nat} {s : Session} (hs : c.sessions[j]? = some s) :
    c'.sessions[j]? = some s ∨ (own j ∨ c.Registered j) ∧ c'.sessions[j]? = some s.close := by
  rcases h.cases with ⟨-, heq⟩ | hsheds | ⟨-, -, a, floor, heq⟩ | ⟨_, _, _, _, _, -, -, -, -, heq⟩
  · exact Or.inl (heq ▸ hs)
  · exact hsheds.session hs
  · rw [heq]
    exact Or.inl (List.getElem?_append_left (List.getElem?_eq_some_iff.1 hs).1 ▸ hs)
  · exact Or.inl (heq ▸ hs)

/-- A session that is taken off a feed is removed. -/
theorem Act.detached (h : Act i own c c') (ht : c.table.Sound) {k j : Nat} {f f' : Feed}
    {s' : Session} (hf : c.table.feed? k = some f) (hf' : c'.table.feed? k = some f')
    (hj : j ∈ f.sessions) (hj' : j ∉ f'.sessions) (hs' : c'.sessions[j]? = some s') :
    s'.removed = true := by
  have hsame : c'.table = c.table → s'.removed = true := by
    intro htable
    rw [htable, hf, Option.some.injEq] at hf'
    exact absurd hj (hf' ▸ hj')
  rcases h.cases with ⟨htable, -⟩ | hsheds | ⟨-, htable, -⟩ |
    ⟨r, peer, kind, start, session, -, -, -, htable, -⟩
  · exact hsame htable
  · exact hsheds.detached hf hf' hj hj' hs'
  · exact hsame htable
  · obtain ⟨f'', hf'', hg⟩ := ht.feed?_join r peer kind start session hf
    rw [htable, hf'', Option.some.injEq] at hf'
    subst hf'
    rcases hg with rfl | rfl
    · exact absurd hj hj'
    · exact absurd (Feed.mem_sessions_attach.2 (Or.inl hj)) hj'

theorem Act.length_le (h : Act i own c c') : c.sessions.length ≤ c'.sessions.length := by
  rcases h.cases with ⟨-, heq⟩ | hsheds | ⟨-, -, a, floor, heq⟩ | ⟨_, _, _, _, _, -, -, -, -, heq⟩
  · exact Nat.le_of_eq (congrArg _ heq).symm
  · exact Nat.le_of_eq hsheds.length.symm
  · simp [heq]
  · exact Nat.le_of_eq (congrArg _ heq).symm

theorem Act.registered (h : Act i own c c') {j : Nat} (hj : c'.Registered j) :
    c.Registered j ∨ own j ∧ j < c.sessions.length := by
  cases h with
  | notes _ _ registrations =>
    unfold Registered at hj
    rw [registrations] at hj
    exact Or.inl hj
  | waits | ends => exact Or.inl hj
  | reserves key =>
    obtain ⟨r, hr, a, ha, heq⟩ := hj
    rcases List.mem_append.1 hr with hr | hr
    · exact Or.inl ⟨r, hr, a, ha, heq⟩
    · rw [List.mem_singleton.1 hr] at ha
      exact (List.not_mem_nil ha).elim
  | completes key as owned =>
    unfold complete at hj
    split at hj
    · exact Or.inl ((sheds_releaseAll as c fun a ha => (owned a ha).1).registered hj)
    · obtain ⟨r, hr, a, ha, heq⟩ := hj
      obtain ⟨r', hr', rfl⟩ := List.mem_map.1 hr
      split_ifs at ha
      · rcases List.mem_append.1 ha with ha | ha
        · exact Or.inl ⟨r', hr', a, ha, heq⟩
        · exact Or.inr (heq ▸ owned a ha)
      · exact Or.inl ⟨r', hr', a, ha, heq⟩
  | removes key => exact Or.inl ((c.sheds_unregister key).registered hj)
  | spawns audience floor =>
    obtain ⟨agenda, heq⟩ := c.spawn_eq audience floor
    rw [heq] at hj
    exact Or.inl hj
  | attaches peer kind start session =>
    obtain ⟨agenda, heq⟩ := c.attachTo_eq peer kind start session
    rw [heq] at hj
    exact Or.inl hj
  | closes => exact Or.inl (c.sheds_close.registered hj)
  | tearsDown => exact Or.inl (c.sheds_tearDown.registered hj)

theorem call?_filter_ne {k : Nat} (hk : k ≠ i) (c : Client) :
    ({ c with calls := c.calls.filter (·.1 ≠ i) } : Client).call? k = c.call? k := by
  simp only [call?, List.find?_filter]
  congr 2
  funext e
  by_cases he : e.1 = k
  · simp [he, hk]
  · simp [he]

theorem call?_filter_self (c : Client) :
    ({ c with calls := c.calls.filter (·.1 ≠ i) } : Client).call? i = none := by
  simp [call?, List.find?_filter]

theorem call?_setCall_ne {k : Nat} (hk : k ≠ i) (c : Client) (call : Call) :
    (c.setCall i call).call? k = c.call? k := by
  rw [← call?_filter_ne hk c]
  simp [call?, setCall, List.find?_append, hk.symm]

theorem call?_setCall_self (c : Client) (call : Call) : (c.setCall i call).call? i = some call := by
  have hnone := c.call?_filter_self (i := i)
  rw [call?, Option.map_eq_none_iff] at hnone
  rw [call?, setCall, List.find?_append, hnone, Option.none_or]
  simp

/-- An act of a call may change what this call waits for, or end it. -/
theorem Act.calls (h : Act i own c c') : c'.calls = c.calls ∨
    (∃ call, c' = c.setCall i call ∧ ∀ j ∈ call.sessions, own j ∧ j < c.sessions.length) ∨
    c' = { c with calls := c.calls.filter (·.1 ≠ i) } := by
  cases h with
  | notes _ _ _ calls => exact Or.inl calls
  | waits call owned => exact Or.inr (Or.inl ⟨call, rfl, owned⟩)
  | ends => exact Or.inr (Or.inr rfl)
  | reserves => exact Or.inl rfl
  | completes key as owned =>
    unfold complete
    split
    · exact Or.inl (sheds_releaseAll as c fun a ha => (owned a ha).1).calls
    · exact Or.inl rfl
  | removes key => exact Or.inl (c.sheds_unregister key).calls
  | spawns audience floor =>
    obtain ⟨agenda, heq⟩ := c.spawn_eq audience floor
    exact Or.inl (by rw [heq])
  | attaches peer kind start session =>
    obtain ⟨agenda, heq⟩ := c.attachTo_eq peer kind start session
    exact Or.inl (by rw [heq])
  | closes => exact Or.inl c.sheds_close.calls
  | tearsDown => exact Or.inl c.sheds_tearDown.calls

theorem call?_of_calls_eq (h : c'.calls = c.calls) (k : Nat) : c'.call? k = c.call? k := by
  rw [call?, h, call?]

theorem Act.call? (h : Act i own c c') {k : Nat} (hk : k ≠ i) : c'.call? k = c.call? k := by
  rcases h.calls with heq | ⟨call, rfl, -⟩ | rfl
  · exact call?_of_calls_eq heq k
  · exact call?_setCall_ne hk c call
  · exact call?_filter_ne hk c

/-- A call has the sessions pending that it had, or some that it may handle. -/
theorem Act.call_back (h : Act i own c c') {call : Call} (hcall : c'.call? i = some call) :
    c.call? i = some call ∨ ∀ j ∈ call.sessions, own j ∧ j < c.sessions.length := by
  rcases h.calls with heq | ⟨call', rfl, howned⟩ | rfl
  · exact Or.inl (call?_of_calls_eq heq i ▸ hcall)
  · rw [call?_setCall_self, Option.some.injEq] at hcall
    exact Or.inr (hcall ▸ howned)
  · rw [call?_filter_self] at hcall
    cases hcall

theorem Act.known (h : Act i own c c') (hc : c.Known) : c'.Known := by
  have hlength := h.length_le
  refine ⟨fun j hj => ?_, fun k call hcall j hj => ?_⟩
  · rcases h.registered hj with hj | ⟨-, hj⟩
    · exact Nat.lt_of_lt_of_le (hc.registered j hj) hlength
    · exact Nat.lt_of_lt_of_le hj hlength
  · by_cases hk : k = i
    · subst hk
      rcases h.call_back hcall with hcall | hmade
      · exact Nat.lt_of_lt_of_le (hc.pending k call hcall j hj) hlength
      · exact Nat.lt_of_lt_of_le (hmade j hj).2 hlength
    · exact Nat.lt_of_lt_of_le (hc.pending k call (h.call? hk ▸ hcall) j hj) hlength

end Keeps

end Client

/-! ## Order -/

/-- A session to which no block has come yet. -/
structure Session.Untouched (s : Session) : Prop where
  last : s.last = none
  queue : ∀ d ∈ s.queue, numberOf d = none
  work : ∀ n p, s.work = some (n, p) → n = none

/-- A session on a feed begins where the feed does, and no block has come to it before the feed
delivered one. -/
structure Feed.Fits (f : Feed) (s : Session) : Prop where
  floor : s.floor = f.initial
  untouched : f.last = none → s.Untouched

theorem Session.untouched_new (a : Audience) (floor : Option Nat) : (new a floor).Untouched :=
  ⟨rfl, fun _ h => (List.not_mem_nil h).elim, fun _ _ h => by cases h⟩

theorem Feed.Fits.close {f : Feed} {s : Session} (h : f.Fits s) : f.Fits s.close :=
  ⟨h.floor, fun hl => ⟨(h.untouched hl).last, (h.untouched hl).queue, (h.untouched hl).work⟩⟩

theorem Feed.Fits.of_alike {gone new : Nat → Prop} {f f' : Feed} {s : Session} (h : f.Fits s)
    (ha : f.Alike gone new f') : f'.Fits s := by
  rw [ha.same]
  exact ⟨h.floor, h.untouched⟩

namespace Client

/-- The table is in order, every session that is spoken of is there, and those on a feed fit it. -/
structure Tidy (c : Client) : Prop where
  sound : c.table.Sound
  bounded : c.Bounded
  known : c.Known
  fits : ∀ {k f j s}, c.table.feed? k = some f → j ∈ f.sessions → c.sessions[j]? = some s →
    f.Fits s

theorem tidy_new (channel : Channel) (identity : Identity) (options : Options) :
    (new channel identity options).Tidy := by
  have hnone : ∀ k, (new channel identity options).table.feed? k = none := fun _ => rfl
  refine ⟨⟨?_, ?_, ?_, List.nodup_nil, fun h => by cases h⟩, fun k f hf => ?_,
    ⟨fun j ⟨r, hr, _⟩ => (List.not_mem_nil hr).elim, fun k call hcall => by cases hcall⟩, ?_⟩
  all_goals
    intros
    simp_all

section Tidy

variable {i : Nat} {own : Nat → Prop}

theorem sound_releaseAll (as : List Attachment) (c : Client) (hc : c.table.Sound) :
    (c.releaseAll as).table.Sound := by
  induction as generalizing c with
  | nil => exact hc
  | cons a as ih =>
    refine ih _ ?_
    obtain ⟨agenda, h⟩ := c.release_eq a
    rw [h]
    exact hc.release a.feed a.session

theorem shared_close (c : Client) : c.close.table.shared = [] := by
  unfold close
  dsimp only
  obtain ⟨agenda, h⟩ := foldl_announceStop_eq _ _
  rw [h]
  rfl

theorem Act.sound (h : Act i own c c') (hc : c.table.Sound) : c'.table.Sound := by
  cases h with
  | notes table => exact table ▸ hc
  | waits | ends | reserves => exact hc
  | completes key as owned =>
    unfold complete
    split
    · exact sound_releaseAll as c hc
    · exact hc
  | removes key =>
    unfold unregister
    split
    · exact hc
    · exact sound_releaseAll _ _ hc
  | spawns audience floor => exact (spawn_table c audience floor).symm ▸ hc
  | attaches peer kind start session owned fresh apart =>
    rw [attachTo_table]
    exact hc.join _ _ _ _ _ fun hf => apart _ _ hf
  | closes => exact c.sheds_close.table.sound_of_unshared hc c.shared_close
  | tearsDown => exact c.sheds_tearDown.table.sound_of_unshared hc rfl

/-- A session that is on a feed after an act was there, or is the one that was attached. -/
theorem Act.tidy (h : Act i own c c') (hc : c.Tidy) : c'.Tidy := by
  have hold : ∀ {k f j s'}, c.table.feed? k = some f → j ∈ f.sessions →
      c'.sessions[j]? = some s' → f.Fits s' := by
    intro k f j s' hf hj hs'
    obtain ⟨s, hs⟩ : ∃ s, c.sessions[j]? = some s :=
      ⟨_, List.getElem?_eq_getElem (hc.bounded k f hf j hj)⟩
    rcases h.session hs with heq | ⟨-, heq⟩ <;> rw [hs', Option.some.injEq] at heq <;> subst heq
    · exact hc.fits hf hj hs
    · exact (hc.fits hf hj hs).close
  have hlength := h.length_le
  suffices hfeeds : ∀ {k f' j}, c'.table.feed? k = some f' → j ∈ f'.sessions →
      j < c'.sessions.length ∧ ∀ s', c'.sessions[j]? = some s' → f'.Fits s' from
    ⟨h.sound hc.sound, fun k f hf j hj => (hfeeds hf hj).1, h.known hc.known,
      fun hf hj hs => (hfeeds hf hj).2 _ hs⟩
  intro k f' j hf' hj
  have hkept : (∃ f, c.table.feed? k = some f ∧ j ∈ f.sessions ∧
      f.Alike (fun j => own j ∨ c.Registered j) (fun _ => True) f') →
      j < c'.sessions.length ∧ ∀ s', c'.sessions[j]? = some s' → f'.Fits s' := by
    rintro ⟨f, hf, hjf, ha⟩
    exact ⟨Nat.lt_of_lt_of_le (hc.bounded k f hf j hjf) hlength,
      fun s' hs' => (hold hf hjf hs').of_alike ha⟩
  rcases h.cases with ⟨htable, -⟩ | hsheds | ⟨-, htable, -⟩ |
    ⟨r, peer, kind, start, session, owned, ⟨a, hfresh⟩, hapart, htable, hsessions⟩
  · exact hkept ⟨f', htable ▸ hf', hj, .refl f'⟩
  · obtain ⟨f, hf, ha⟩ := hsheds.table.back hf'
    exact hkept ⟨f, hf, (ha.added j hj).resolve_right id,
      ha.mono (fun _ => id) fun _ _ => trivial⟩
  · exact hkept ⟨f', htable ▸ hf', hj, .refl f'⟩
  · rw [htable] at hf'
    by_cases heq : j = session
    · subst heq
      rw [hsessions]
      refine ⟨(List.getElem?_eq_some_iff.1 hfresh).1, fun s' hs' => ?_⟩
      rw [hfresh, Option.some.injEq] at hs'
      subst hs'
      have hk := FeedTable.eq_of_mem_join r peer kind start j (fun hf => hapart _ _ hf) hf' hj
      obtain ⟨f, hf, -, hinitial, -⟩ := hc.sound.mem_join r peer kind start j
      rw [← hk, hf', Option.some.injEq] at hf
      subst hf
      exact ⟨hinitial.symm, fun _ => Session.untouched_new a start⟩
    · obtain ⟨g, hg, hjg⟩ := (FeedTable.mem_sessions_join r peer kind start session hf'
        hj).resolve_left heq
      obtain ⟨g', hg', hcase⟩ := hc.sound.feed?_join r peer kind start session hg
      rw [hf', Option.some.injEq] at hg'
      subst hg'
      refine hkept ⟨g, hg, hjg, ?_⟩
      rcases hcase with rfl | rfl
      · exact .refl _
      · exact g.alike_attach trivial

theorem Acts.tidy (h : Acts i own c c') (hc : c.Tidy) : c'.Tidy := by
  induction h with
  | refl => exact hc
  | tail _ h ih => exact h.tidy ih

end Tidy

end Client

end LedgerClient
