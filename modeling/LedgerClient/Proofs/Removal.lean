import LedgerClient.Proofs.CommitListeners
import LedgerClient.Proofs.Guards

/-!
# Listeners that were removed

A session is removed, or it is under its key, or a call that adds this key has it pending, or such a
call was given up and left it behind (`Client.accounted_run`). Removing a key removes the sessions
under it and no others, so that a listener may still be called: by the sessions that a call has
pending as long as this call goes on, and by a session that a given up call left behind. A session
that was removed may itself call once more if it had asked its checkpointer.
These are all the calls that a removed listener may get (`Client.told_after_removal`).
-/

namespace LedgerClient

namespace Client

/-! ## Who answers for a session -/

/-- A session is among those under a key. -/
def Under (c : Client) (key : ListenerKey) (j : Nat) : Prop :=
  ∃ as, c.registered? key = some as ∧ ∃ a ∈ as, a.session = j

/-- A call that adds a key has a session pending. -/
def Pending (c : Client) (i : Nat) (key : ListenerKey) (j : Nat) : Prop :=
  ∃ links next, c.call? i = some (.linking key links next) ∧ ∃ l ∈ links, l.attachment.session = j

theorem not_pending_of_gone {c : Client} {i : Nat} (h : c.call? i = none) (key : ListenerKey)
    (j : Nat) : ¬ c.Pending i key j := by
  rintro ⟨links, next, hcall, -⟩
  exact absurd (h.symm.trans hcall) (by simp)

/-- Only a call that waits for its feeds has sessions pending. -/
theorem not_pending_of_call {c : Client} {i : Nat} {call : Call} (hcall : c.call? i = some call)
    (hnot : ∀ key links next, call ≠ .linking key links next) (key : ListenerKey) (j : Nat) :
    ¬ c.Pending i key j := by
  rintro ⟨links, next, hcall', -⟩
  exact hnot key links next (Option.some.inj (hcall.symm.trans hcall'))

/-- Every session is accounted for, apart from those that are `free`. What a `busy` call has pending
does not count. -/
structure Accounted (busy free : Nat → Prop) (c : Client) : Prop where
  wary : ∀ {j : Nat} {s : Session}, c.sessions[j]? = some s → s.Wary
  own : ∀ {i : Nat} {key : ListenerKey} {j : Nat}, ¬ busy i → c.Pending i key j →
    ∃ s, c.sessions[j]? = some s ∧ s.audience.key = key
  held : ∀ {j : Nat} {s : Session}, c.sessions[j]? = some s →
    s.removed = true ∨ c.Under s.audience.key j ∨
    (∃ i, ¬ busy i ∧ c.Pending i s.audience.key j) ∨ free j

section Deeds

variable {i : Nat} {new keys : ListenerKey → Prop} {waits : Nat → Prop} {c c' : Client}
  {busy free left : Nat → Prop} {key : ListenerKey} {j : Nat}

theorem pending_of_call? {k : Nat} (h : c'.call? k = c.call? k) :
    c'.Pending k key j ↔ c.Pending k key j := by
  unfold Pending
  rw [h]

theorem under_of_registrations (h : c'.registrations = c.registrations) :
    c'.Under key j ↔ c.Under key j := by
  unfold Under
  rw [registered?_of_registrations h]

theorem Under.reserve (h : c.Under key j) {key' : ListenerKey} (free : c.registered? key' = none) :
    (c.reserve key').Under key j := by
  obtain ⟨as, has, hj⟩ := h
  refine ⟨as, ?_, hj⟩
  rw [registered?_reserve free, if_neg, has]
  rintro rfl
  rw [free] at has
  cases has

theorem Under.complete (h : c.Under key j) (key' : ListenerKey) (bs : List Attachment) :
    (c.complete key' bs).Under key j := by
  obtain ⟨as, has, a, ha, rfl⟩ := h
  refine ⟨_, by rw [registered?_complete, has, Option.map_some], a, ?_, rfl⟩
  split_ifs
  · exact List.mem_append_left _ ha
  · exact ha

theorem Under.unregister (h : c.Under key j) {key' : ListenerKey} (hk : key' ≠ key) :
    (c.unregister key').Under key j := by
  obtain ⟨as, has, hj⟩ := h
  obtain ⟨table, sessions, agenda, heq⟩ := c.unregister_eq key'
  refine ⟨as, ?_, hj⟩
  rw [heq]
  exact registered?_filter.trans ((if_neg hk).trans has)

/-- A session under a key stays under it, or is removed with it. -/
theorem Deed.under (h : Deed i new keys waits c c') (hj : c.Under key j) :
    c'.Under key j ∨ ∀ s, c'.sessions[j]? = some s → s.removed = true := by
  have hsame (hregistrations : c'.registrations = c.registrations) : c'.Under key j :=
    (under_of_registrations hregistrations).2 hj
  cases h with
  | notes _ registrations => exact Or.inl (hsame registrations)
  | sets | ends | begins | modifies | opens => exact Or.inl (hsame rfl)
  | spawns audience floor =>
    obtain ⟨agenda, heq⟩ := c.spawn_eq audience floor
    exact Or.inl (hsame (by rw [heq]))
  | reserves key' _ free => exact Or.inl (hj.reserve free)
  | completes key' bs => exact Or.inl (hj.complete key' bs)
  | removes key' =>
    by_cases hk : key' = key
    · subst hk
      obtain ⟨as, has, a, ha, rfl⟩ := hj
      refine Or.inr fun s hs => ?_
      unfold Client.unregister at hs
      rw [has] at hs
      exact removed_releaseAll _ ha hs
    · exact Or.inl (hj.unregister hk)
  | closes =>
    obtain ⟨as, has, a, ha, rfl⟩ := hj
    exact Or.inr fun s hs => c.removed_close has ha hs
  | tearsDown =>
    obtain ⟨as, has, a, ha, rfl⟩ := hj
    exact Or.inr fun s hs => c.removed_tearDown has ha hs

theorem Deed.accounted (h : Deed i new keys waits c c') (hc : c.Accounted (· = i) free)
    (hnew : ∀ j, c.sessions.length ≤ j → j < c'.sessions.length → free j) :
    c'.Accounted (· = i) free := by
  refine ⟨fun hs' => ?_, fun {k key j} hk hpending => ?_, fun {j s'} hs' => ?_⟩
  · rcases h.session_back hs' with ⟨s, hs, rfl | rfl⟩ | ⟨-, audience, floor, -, rfl⟩
    · exact hc.wary hs
    · exact (hc.wary hs).close
    · exact Session.wary_of_none rfl
  · obtain ⟨s, hs, hkey⟩ := hc.own hk ((pending_of_call? (h.call? hk)).1 hpending)
    rcases h.session hs with hs' | hs'
    · exact ⟨s, hs', hkey⟩
    · exact ⟨s.close, hs', hkey⟩
  · rcases h.session_back hs' with ⟨s, hs, hcase⟩ | ⟨hge, -⟩
    · have haudience : s'.audience = s.audience := by rcases hcase with rfl | rfl <;> rfl
      rcases hc.held hs with hr | hunder | ⟨k, hk, hpending⟩ | hfree
      · refine Or.inl ?_
        rcases hcase with rfl | rfl
        · exact hr
        · rfl
      · rw [haudience]
        rcases h.under hunder with hunder | hr
        · exact Or.inr (Or.inl hunder)
        · exact Or.inl (hr s' hs')
      · rw [haudience]
        exact Or.inr (Or.inr (Or.inl ⟨k, hk, (pending_of_call? (h.call? hk)).2 hpending⟩))
      · exact Or.inr (Or.inr (Or.inr hfree))
    · exact Or.inr (Or.inr (Or.inr (hnew j hge (List.getElem?_eq_some_iff.1 hs').1)))

theorem Deeds.accounted (h : Deeds i new keys waits c c') (hc : c.Accounted (· = i) free)
    (hnew : ∀ j, c.sessions.length ≤ j → j < c'.sessions.length → free j) :
    c'.Accounted (· = i) free := by
  induction h with
  | refl => exact hc
  | @tail b c' hdeeds h ih =>
    exact h.accounted (ih fun _ hj hlt => hnew _ hj (Nat.lt_of_lt_of_le hlt h.length_le))
      fun _ hj => hnew _ (Nat.le_trans (Deeds.length_le hdeeds) hj)

/-- A call without a key makes no session that would have to be accounted for. -/
theorem Deeds.accounted_keyless (h : Deeds i new (fun _ => False) waits c c')
    (hc : c.Accounted (· = i) free) : c'.Accounted (· = i) free :=
  Deeds.accounted h hc fun _ hj hlt => absurd hj (Nat.not_le.2 (Deeds.length_eq h ▸ hlt))

theorem Deeds.under (h : Deeds i new keys waits c c') (hj : j < c.sessions.length)
    (hsecure : c.Under key j ∨ ∀ s, c.sessions[j]? = some s → s.removed = true) :
    c'.Under key j ∨ ∀ s, c'.sessions[j]? = some s → s.removed = true := by
  suffices hsecure' : j < c'.sessions.length ∧
      (c'.Under key j ∨ ∀ s, c'.sessions[j]? = some s → s.removed = true) from hsecure'.2
  induction h with
  | refl => exact ⟨hj, hsecure⟩
  | @tail b c' _ h ih =>
    obtain ⟨hlt, hcase⟩ := ih
    refine ⟨Nat.lt_of_lt_of_le hlt h.length_le, ?_⟩
    rcases hcase with hunder | hremoved
    · exact h.under hunder
    · refine Or.inr fun s' hs' => ?_
      have hs := List.getElem?_eq_getElem hlt
      rcases h.session hs with heq | heq <;> rw [hs', Option.some.injEq] at heq <;> subst heq
      · exact hremoved _ hs
      · rfl

theorem Accounted.mono (h : c.Accounted busy free)
    (hfree : ∀ {j : Nat} {s : Session}, c.sessions[j]? = some s → free j → left j) :
    c.Accounted busy left :=
  ⟨h.wary, h.own, fun hs => (h.held hs).imp_right (Or.imp_right (Or.imp_right (hfree hs)))⟩

theorem Accounted.setCall (h : c.Accounted (· = i) free) (call : Call) :
    (c.setCall i call).Accounted (· = i) free := by
  have hpending {k : Nat} (hk : k ≠ i) {key : ListenerKey} {j : Nat} :
      (c.setCall i call).Pending k key j ↔ c.Pending k key j :=
    pending_of_call? (call?_setCall_ne hk c call)
  refine ⟨h.wary, fun hk hp => h.own hk ((hpending hk).1 hp), fun hs => ?_⟩
  refine (h.held hs).imp_right (Or.imp_right (Or.imp_left ?_))
  rintro ⟨k, hk, hp⟩
  exact ⟨k, hk, (hpending hk).2 hp⟩

/-- Before a call begins to work, what it has pending is set free. -/
theorem Accounted.begin (h : c.Accounted (fun _ => False) left) (i : Nat) :
    c.Accounted (· = i) fun j => left j ∨ ∃ key, c.Pending i key j := by
  refine ⟨h.wary, fun _ => h.own id, fun {j s} hs => ?_⟩
  rcases h.held hs with hr | hunder | ⟨k, -, hpending⟩ | hleft
  · exact Or.inl hr
  · exact Or.inr (Or.inl hunder)
  · by_cases hk : k = i
    · subst hk
      exact Or.inr (Or.inr (Or.inr (Or.inr ⟨_, hpending⟩)))
    · exact Or.inr (Or.inr (Or.inl ⟨k, hk, hpending⟩))
  · exact Or.inr (Or.inr (Or.inr (Or.inl hleft)))

/-- When a call has done its work, what it has pending counts again. -/
theorem Accounted.settle (h : c.Accounted (· = i) free)
    (hown : ∀ {key : ListenerKey} {j : Nat}, c.Pending i key j →
      ∃ s, c.sessions[j]? = some s ∧ s.audience.key = key)
    (hfree : ∀ {j : Nat} {s : Session}, c.sessions[j]? = some s → free j → s.removed = true ∨
      c.Under s.audience.key j ∨ c.Pending i s.audience.key j ∨ left j) :
    c.Accounted (fun _ => False) left := by
  refine ⟨h.wary, fun {k key j} _ hpending => ?_, fun {j s} hs => ?_⟩
  · by_cases hk : k = i
    · subst hk
      exact hown hpending
    · exact h.own hk hpending
  · rcases h.held hs with hr | hunder | ⟨k, -, hpending⟩ | hj
    · exact Or.inl hr
    · exact Or.inr (Or.inl hunder)
    · exact Or.inr (Or.inr (Or.inl ⟨k, id, hpending⟩))
    · rcases hfree hs hj with hr | hunder | hpending | hleft
      · exact Or.inl hr
      · exact Or.inr (Or.inl hunder)
      · exact Or.inr (Or.inr (Or.inl ⟨i, id, hpending⟩))
      · exact Or.inr (Or.inr (Or.inr hleft))

/-- A call that makes no session and is over leaves behind what it had pending. -/
theorem Accounted.deeds_over (hc : c.Accounted (fun _ => False) left)
    (h : Deeds i new (fun _ => False) waits c c') (hover : ∀ key j, ¬ c'.Pending i key j) :
    c'.Accounted (fun _ => False) fun j => left j ∨ ∃ key, c.Pending i key j :=
  (Deeds.accounted_keyless h (hc.begin i)).settle
    (fun hpending => absurd hpending (hover _ _))
    fun _ hj => Or.inr (Or.inr (Or.inr hj))

/-- A call that makes no session, and had none pending, leaves nothing behind. -/
theorem Accounted.deeds (hc : c.Accounted (fun _ => False) left)
    (h : Deeds i new (fun _ => False) waits c c') (hi : ∀ key j, ¬ c.Pending i key j) :
    c'.Accounted (fun _ => False) left := by
  refine (hc.deeds_over h fun key j hpending => ?_).mono fun _ hj =>
    hj.elim id fun ⟨key, hpending⟩ => absurd hpending (hi key _)
  obtain ⟨links, next, hcall, hl⟩ := hpending
  rcases h.call_back hcall with hcall | ⟨hkey, -⟩
  · exact hi key j ⟨links, next, hcall, hl⟩
  · exact hkey key rfl

end Deeds

/-! ## Calls that attach -/

section Attaching

variable {i : Nat} {c b : Client} {left : Nat → Prop} {key : ListenerKey}

theorem not_pending_proceed (c : Client) (i : Nat) (next : AfterLink) (j : Nat) :
    ¬ (c.proceed i next).Pending i key j := by
  rintro ⟨links, next', hcall, -⟩
  have hgone : ∀ (b : Client) (r : CallResult), (b.finish i r).call? i ≠
      some (.linking key links next') := fun b r h => by
    rw [(b.finish_cases i r).2.1] at h
    cases h
  cases next with
  | added | listening => exact hgone _ _ hcall
  | order r payload w =>
    change (c.orderStep i r payload w (OrderRoute.start c.channel c.options.discoveryEnabled
      r.proposal.id)).call? i = _ at hcall
    have hask (route : OrderRoute) :
        (c.orderStep i r payload w (.ask route)).call? i = some (.ordering r payload w route) :=
      c.call?_setCall_self _
    unfold OrderRoute.start at hcall
    split_ifs at hcall
    · rw [hask] at hcall
      cases hcall
    · split at hcall
      · exact hgone _ _ hcall
      · rw [hask] at hcall
        cases hcall

theorem under_complete (c : Client) (key : ListenerKey) {as : List Attachment} {a : Attachment}
    (ha : a ∈ as) : (c.complete key as).Under key a.session ∨
      ∀ s, (c.complete key as).sessions[a.session]? = some s → s.removed = true := by
  cases hkey : c.registered? key with
  | none =>
    refine Or.inr fun s hs => ?_
    unfold complete at hs
    rw [hkey] at hs
    exact c.removed_releaseAll ha hs
  | some bs =>
    refine Or.inl ⟨bs ++ as, ?_, a, List.mem_append_right _ ha, rfl⟩
    rw [registered?_complete, hkey, Option.map_some, if_pos rfl]

/-- What a call has attached is accounted for when it waits for the feeds or is through with
them. -/
theorem accounted_followLinks {links : List Link} (next : AfterLink)
    (h : b.Accounted (· = i) fun j => left j ∨ ∃ l ∈ links, l.attachment.session = j)
    (hown : ∀ l ∈ links, ∃ s, b.sessions[l.attachment.session]? = some s ∧ s.audience.key = key) :
    (b.followLinks i key links next).Accounted (fun _ => False) left := by
  have hprogress : ∀ {j : Nat}, (∃ l ∈ b.progress links, l.attachment.session = j) ↔
      ∃ l ∈ links, l.attachment.session = j := fun {j} => by
    simp [progress, List.mem_map]
  unfold followLinks
  dsimp only
  split_ifs
  · let b₁ := b.complete key ((b.progress links).map (·.attachment))
    have hcomplete : Deeds i (fun _ => False) (fun _ => False) (fun _ => True) b b₁ :=
      .single (.completes key _)
    have hdeeds : Deeds i (fun _ => False) (fun _ => False) (fun _ => True) b₁
        (b₁.proceed i next) := deeds_proceed b₁ next fun _ _ => trivial
    have hall := hcomplete.trans hdeeds
    refine (Deeds.accounted_keyless hall h).settle
      (fun hpending => absurd hpending (not_pending_proceed b₁ i next _)) fun {j s} hs hj => ?_
    rcases hj with hleft | hl
    · exact Or.inr (Or.inr (Or.inr hleft))
    · obtain ⟨l, hmem, rfl⟩ := hprogress.2 hl
      obtain ⟨l', hl', heq⟩ := hl
      obtain ⟨s₀, hs₀, hkey⟩ := hown l' hl'
      rw [heq] at hs₀
      have hlt := (List.getElem?_eq_some_iff.1 hs₀).1
      have haudience : s.audience.key = key := by
        obtain ⟨s₁, hs₁, hcase⟩ := Deeds.session hall hs₀
        obtain rfl := Option.some.inj (hs₁.symm.trans hs)
        rcases hcase with rfl | rfl <;> exact hkey
      rcases Deeds.under hdeeds (Nat.lt_of_lt_of_le hlt (Deeds.length_le hcomplete))
        (under_complete b key (List.mem_map_of_mem hmem)) with hunder | hremoved
      · exact Or.inr (Or.inl (haudience ▸ hunder))
      · exact Or.inl (hremoved s hs)
  · have hcall : (b.setCall i (.linking key (b.progress links) next)).call? i =
        some (.linking key (b.progress links) next) := b.call?_setCall_self _
    refine (h.setCall (.linking key (b.progress links) next)).settle
      (fun {key' j} hpending => ?_) fun {j s} hs hj => ?_
    · obtain ⟨links', next', hcall', hl⟩ := hpending
      rw [hcall] at hcall'
      obtain ⟨rfl, rfl, rfl⟩ : key = key' ∧ b.progress links = links' ∧ next = next' := by
        simpa using hcall'
      obtain ⟨l, hmem, rfl⟩ := hprogress.1 hl
      exact hown l hmem
    · rcases hj with hleft | hl
      · exact Or.inr (Or.inr (Or.inr hleft))
      · refine Or.inr (Or.inr (Or.inl ?_))
        obtain ⟨l, hl', rfl⟩ := hl
        obtain ⟨s₀, hs₀, hkey⟩ := hown l hl'
        obtain rfl : s₀ = s := Option.some.inj (hs₀.symm.trans hs)
        exact ⟨_, next, hkey ▸ hcall, hprogress.2 ⟨l, hl', rfl⟩⟩

variable {new keys : ListenerKey → Prop} {waits : Nat → Prop}

/-- While a call without pending sessions is at work, nothing need be set free for it. -/
theorem Accounted.work (h : c.Accounted (fun _ => False) left)
    (hi : ∀ key j, ¬ c.Pending i key j) : c.Accounted (· = i) left :=
  (h.begin i).mono fun _ hj => hj.elim id fun ⟨key, hpending⟩ => absurd hpending (hi key _)

theorem accounted_attachListener (o : ListenerOptions) (start : Option Nat)
    (h : b.Accounted (· = i) left) :
    (b.attachListener i key o start).Accounted (fun _ => False) left := by
  unfold attachListener
  split
  · have hdeeds : Deeds i (fun _ => False) (fun _ => False) (fun _ => True) b
        ((b.unregister key).finish i (.notAdded (.noEventPeers b.channel.name))) :=
      .head (.removes key) (deeds_finish _ _)
    refine (Deeds.accounted_keyless hdeeds h).settle (fun hpending => ?_)
      fun _ hj => Or.inr (Or.inr (Or.inr hj))
    obtain ⟨links, next, hcall, -⟩ := hpending
    rw [((b.unregister key).finish_cases i _).2.1] at hcall
    cases hcall
  · next peer _ =>
    let b₁ := (b.spawn (key.audience o) start).1
    let b₂ := (b₁.attachTo peer o.kind start b.sessions.length).1
    have hdeeds : Deeds i (fun _ => True) (fun _ => True) (fun _ => True) b b₂ :=
      .head (.spawns _ _ trivial) (.single (deed_attachTo _ _ _ _ _))
    have hsessions : b₂.sessions = b.sessions ++ [.new (key.audience o) start] := by
      rw [attachTo_sessions, spawn_sessions]
    have hsession : (b₁.attachTo peer o.kind start b.sessions.length).2.session =
        b.sessions.length := attachTo_session ..
    refine accounted_followLinks .added (b := b₂) (Deeds.accounted hdeeds ?_ fun j hj hlt => ?_)
      fun l hl => ?_
    · exact h.mono fun _ hj => Or.inl hj
    · refine Or.inr ⟨_, List.mem_singleton_self _, hsession.trans ?_⟩
      rw [hsessions, List.length_append, List.length_singleton] at hlt
      omega
    · obtain rfl := List.mem_singleton.1 hl
      have hlast : b₂.sessions[b.sessions.length]? = some (.new (key.audience o) start) := by
        rw [hsessions]
        exact List.getElem?_concat_length
      exact ⟨_, (congrArg (b₂.sessions[·]?) hsession).trans hlast, ListenerKey.key_audience o key⟩

theorem accounted_proceed (next : AfterLink) (h : b.Accounted (· = i) left) :
    (b.proceed i next).Accounted (fun _ => False) left := by
  have hdeeds : Deeds i (fun _ => False) (fun _ => False) (fun _ => True) b (b.proceed i next) :=
    deeds_proceed b next fun _ _ => trivial
  exact (Deeds.accounted_keyless hdeeds h).settle
    (fun hpending => absurd hpending (not_pending_proceed b i next _))
    fun _ hj => Or.inr (Or.inr (Or.inr hj))

theorem accounted_linkCommit (l : ListenerId) (peers : List Peer) (id : String) (next : AfterLink)
    (h : b.Accounted (· = i) left) :
    (b.linkCommit i l peers id next).Accounted (fun _ => False) left := by
  cases free : b.registered? (.commit l) with
  | some _ =>
    unfold linkCommit
    rw [free]
    exact accounted_proceed next h
  | none =>
    rw [linkCommit_eq b i l peers id next free]
    let ss := peers.zipIdx b.sessions.length
    let r := ((b.reserve (.commit l)).spawnEach l id peers).attachEach ss
    have hdeeds : Deeds i (fun _ => True) (fun _ => True) (fun _ => True) b r.1 :=
      .head (.reserves _ trivial free)
        (.trans (deeds_spawnEach _ trivial id peers) (deeds_attachEach _ _))
    have hsessions : r.1.sessions =
        b.sessions ++ peers.map fun p => .new (.commit l p.name id) none := by
      rw [attachEach_sessions, spawnEach_sessions]
      rfl
    have hnums : r.2.map (·.session) = List.range' b.sessions.length peers.length := by
      rw [attachEach_session, List.zipIdx_map_snd]
    have hmem : ∀ {j}, (∃ k ∈ r.2.map (⟨·, false⟩ : Attachment → Link), k.attachment.session = j) ↔
        j ∈ List.range' b.sessions.length peers.length := fun {j} => by
      rw [← hnums]
      simp [List.mem_map]
    refine accounted_followLinks next (b := r.1) (Deeds.accounted hdeeds ?_ fun j hj hlt => ?_)
      fun k hk => ?_
    · exact h.mono fun _ hj => Or.inl hj
    · refine Or.inr (hmem.2 (List.mem_range'_1.2 ⟨hj, ?_⟩))
      rwa [hsessions, List.length_append, List.length_map] at hlt
    · obtain ⟨hle, hlt⟩ := List.mem_range'_1.1 (hmem.1 ⟨k, hk, rfl⟩)
      have hlt' : k.attachment.session - b.sessions.length < peers.length := by omega
      refine ⟨.new (.commit l peers[k.attachment.session - b.sessions.length].name id) none, ?_,
        rfl⟩
      rw [hsessions, List.getElem?_append_right hle, List.getElem?_map,
        List.getElem?_eq_getElem hlt', Option.map_some]

theorem accounted_openMailbox (w : Nat) (next : AfterLink) (h : b.Accounted (· = i) left)
    (hi : ∀ key j, ¬ b.Pending i key j) :
    (b.openMailbox i w next).Accounted (fun _ => False) left := by
  have hmodify (f : Wait → Wait) (n : Nat) :
      ({ b with nextMailbox := n, waits := b.waits.modify w f } : Client).Accounted (· = i) left :=
    ⟨h.wary, h.own, h.held⟩
  unfold openMailbox
  split
  · exact h.settle (fun hpending => absurd hpending (hi _ _)) fun _ hj =>
      Or.inr (Or.inr (Or.inr hj))
  · split
    · exact accounted_proceed next h
    · split_ifs
      · exact accounted_proceed next (hmodify _ _)
      · exact accounted_linkCommit _ _ _ next (hmodify _ _)

end Attaching

/-! ## Moves and runs -/

/-- The sessions that a call leaves behind when it is given up. -/
def leaves (c : Client) : Move → List Nat
  | .abandon i => ((c.call? i).map Call.sessions).getD []
  | _ => []

section Moves

variable {c : Client} {left : Nat → Prop} {m : Move}

theorem accounted_of_eq {c' : Client} {busy free : Nat → Prop} (h : c.Accounted busy free)
    (hregistrations : c'.registrations = c.registrations) (hcalls : c'.calls = c.calls)
    (hsessions : ∀ (j : Nat) (s' : Session), c'.sessions[j]? = some s' → ∃ s : Session,
      c.sessions[j]? = some s ∧ s'.audience = s.audience ∧ s'.removed = s.removed ∧
        (s.Wary → s'.Wary))
    (hlength : c'.sessions.length = c.sessions.length) : c'.Accounted busy free := by
  have hpending : ∀ {k key j}, c'.Pending k key j ↔ c.Pending k key j :=
    pending_of_call? (call?_of_calls_eq hcalls _)
  refine ⟨fun hs' => ?_, fun hk hp => ?_, fun hs' => ?_⟩
  · obtain ⟨s, hs, -, -, hwary⟩ := hsessions _ _ hs'
    exact hwary (h.wary hs)
  · obtain ⟨s, hs, hkey⟩ := h.own hk (hpending.1 hp)
    have hlt := hlength ▸ (List.getElem?_eq_some_iff.1 hs).1
    obtain ⟨s₀, hs₀, haudience, -⟩ := hsessions _ _ (List.getElem?_eq_getElem hlt)
    obtain rfl := Option.some.inj (hs.symm.trans hs₀)
    exact ⟨_, List.getElem?_eq_getElem hlt, haudience ▸ hkey⟩
  · obtain ⟨s, hs, haudience, hremoved, -⟩ := hsessions _ _ hs'
    rw [hremoved, haudience, under_of_registrations hregistrations]
    simpa only [hpending] using h.held hs

theorem accounted_finish {i : Nat} (r : CallResult) (h : c.Accounted (fun _ => False) left)
    (hi : ∀ key j, ¬ c.Pending i key j) : (c.finish i r).Accounted (fun _ => False) left := by
  have hdeeds : Deeds i (fun _ => False) (fun _ => False) (fun _ => True) c (c.finish i r) :=
    deeds_finish c r
  exact h.deeds hdeeds hi

theorem Accounted.goes {c' : Client} {i : Nat} {call : Call} (h : c.Accounted (fun _ => False) left)
    (hcall : c.call? i = some call) (hgoes : c.Goes i call m c') :
    c'.Accounted (fun _ => False) left := by
  have hwork (hnot : ∀ key links next, call ≠ .linking key links next)
      (hdeeds : Deeds i (fun _ => False) (fun _ => False) (fun _ => True) c c') :
      c'.Accounted (fun _ => False) left := h.deeds hdeeds (not_pending_of_call hcall hnot)
  cases hgoes with
  | attaches key o position =>
    exact accounted_attachListener o _ (h.work (not_pending_of_call hcall (by simp)))
  | unread key o e =>
    exact hwork (by simp) (.head (.removes key) (deeds_finish _ _))
  | follows key links next =>
    refine accounted_followLinks next ((h.begin i).mono fun _ => Or.imp_right ?_) fun l hl =>
      h.own id ⟨links, next, hcall, l, hl, rfl⟩
    rintro ⟨key', links', next', hcall', l, hl, rfl⟩
    rw [hcall] at hcall'
    obtain ⟨-, rfl, -⟩ : key = key' ∧ links = links' ∧ next = next' := by simpa using hcall'
    exact ⟨l, hl, rfl⟩
  | unreached | refused => exact hwork (by simp) (deeds_finish c _)
  | @endorsed p quorum =>
    have hi := not_pending_of_call hcall (by simp)
    let b := (c.newWait p.id (quorum.or c.defaultQuorum) c.options.commitTimeout).1
    have hb : b.Accounted (· = i) left := ⟨(h.work hi).wary, (h.work hi).own, (h.work hi).held⟩
    exact accounted_openMailbox _ _ hb hi
  | ordered request payload w route r =>
    exact hwork (by simp) (deeds_orderStep c _ _ trivial _)
  | looks w q t payload => exact hwork (by simp) (deeds_lookAt c trivial _ _ _ _)
  | inquired p inquiry r => exact hwork (by simp) (deeds_inquire c _ _)

theorem Accounted.call {i : Nat} (hn : c.Named) (h : c.Accounted (fun _ => False) left)
    (hm : m.call? = some i) :
    (c.apply m).Accounted (fun _ => False) fun j => left j ∨ j ∈ c.leaves m := by
  have hsame (h' : (c.apply m).Accounted (fun _ => False) left) :
      (c.apply m).Accounted (fun _ => False) fun j => left j ∨ j ∈ c.leaves m :=
    h'.mono fun _ => Or.inl
  obtain ⟨heq, -⟩ | ⟨rfl, call, hcall⟩ | ⟨call, b, hcall, hb, hgoes⟩ := c.call_cases hm
  · refine hsame ?_
    rwa [heq]
  · have hdeeds : Deeds i (fun _ => False) (fun _ => False) (fun _ => True) c (c.abandon i) :=
      deeds_abandon c fun _ _ _ _ => trivial
    refine (h.deeds_over hdeeds fun key j => ?_).mono fun _ => Or.imp_right ?_
    · rintro ⟨links, next, hcall', -⟩
      rw [(abandon_over (hn i call hcall)).1.gone] at hcall'
      cases hcall'
    · rintro ⟨key, links, next, hcall', l, hl, rfl⟩
      simp only [leaves, hcall', Option.map_some, Option.getD_some, Call.sessions]
      exact List.mem_map_of_mem hl
  · exact hsame (hb ▸ h.goes hcall hgoes)

theorem Accounted.fresh (hn : c.Named) (h : c.Accounted (fun _ => False) left)
    (hfeed : m.feed? = none) (hsession : m.session? = none) (hm : m.call? = none) :
    (c.apply m).Accounted (fun _ => False) left := by
  have hi := not_pending_of_gone hn.fresh
  have hwork : c.newCall.1.Accounted (· = c.nextCall) left :=
    ⟨(h.work hi).wary, (h.work hi).own, (h.work hi).held⟩
  have hactor : c.actor m = c.nextCall := actor_of_fresh hm
  have hkeyless : c.adds m = [] → (c.apply m).Accounted (fun _ => False) left := by
    intro hadds
    refine h.deeds ((deeds_apply c hfeed hsession).mono (fun _ => id) (fun key hkey => ?_)
      fun _ => id) (hactor ▸ hi)
    rcases hkey with hkey | ⟨call, hcall, -⟩
    · rw [hadds] at hkey
      exact List.not_mem_nil hkey
    · rw [hactor, hn.fresh] at hcall
      cases hcall
  cases m with
  | addListener s o =>
    simp only [apply, addListener]
    split
    · exact accounted_finish (c := c.newCall.1) _ ⟨h.wary, h.own, h.held⟩ hi
    · next free =>
      have hdeed : Deed c.nextCall (fun _ => True) (fun _ => False) (fun _ => True) c.newCall.1
          (c.newCall.1.reserve s.key) := .reserves s.key trivial free
      have hreserve : (c.newCall.1.reserve s.key).Accounted (· = c.nextCall) left :=
        Deeds.accounted_keyless (.single hdeed) hwork
      split
      · next name _ =>
        have hset := hreserve.setCall (.readingCheckpoint s.key o)
        have hsent : (((c.newCall.1.reserve s.key).setCall c.nextCall
            (.readingCheckpoint s.key o)).send (.readCheckpoint c.nextCall name)).Accounted
              (· = c.nextCall) left := ⟨hset.wary, hset.own, hset.held⟩
        refine hsent.settle ?_ fun _ hj => Or.inr (Or.inr (Or.inr hj))
        rintro key j ⟨links, next, hcall, -⟩
        have hself := (c.newCall.1.reserve s.key).call?_setCall_self (i := c.nextCall)
          (.readingCheckpoint s.key o)
        cases hself.symm.trans hcall
      · exact accounted_attachListener o _ hreserve
  | addCommitListener l peers id => exact accounted_linkCommit l peers id .added hwork
  | listen w => exact accounted_openMailbox w .listening hwork hi
  | submit | evaluate | remove | close | letGo | newWait | awaitConfirmation | cancelWait
  | letGoOfWait | tick => exact hkeyless rfl
  | abandon | checkpointRead | endorsed | ordered | inquired | resume => cases hm
  | requestStream | streamOpened | streamRefused | blockArrived | streamBroke | streamEnded =>
    cases hfeed
  | takeNext | answer => cases hsession

theorem wary_foldl_deliver (ds : List Delivery) (s : Session) :
    (ds.foldl Session.deliver s).audience = s.audience ∧
      (ds.foldl Session.deliver s).removed = s.removed ∧
      (s.Wary → (ds.foldl Session.deliver s).Wary) := by
  refine ⟨Session.audience_foldl_deliver ds s, Session.removed_foldl_deliver ds s, fun h => ?_⟩
  rw [Session.foldl_deliver_eq]
  split_ifs <;> exact h

theorem wary_after (s : Session) (m : Move) : (s.after m).audience = s.audience ∧
    (s.after m).removed = s.removed ∧ (s.Wary → (s.after m).Wary) := by
  cases m with
  | takeNext => exact ⟨s.audience_take, s.removed_take, Session.Wary.take⟩
  | answer j r => exact ⟨s.audience_answer r, s.removed_answer r, fun h => h.answer r⟩
  | _ => exact ⟨rfl, rfl, id⟩

theorem Accounted.apply (hc : c.Tidy) (hn : c.Named) (h : c.Accounted (fun _ => False) left)
    (m : Move) : (c.apply m).Accounted (fun _ => False) fun j => left j ∨ j ∈ c.leaves m := by
  have hsame (h' : (c.apply m).Accounted (fun _ => False) left) :
      (c.apply m).Accounted (fun _ => False) fun j => left j ∨ j ∈ c.leaves m :=
    h'.mono fun _ => Or.inl
  cases hfeed : m.feed? with
  | some k =>
    refine hsame ?_
    rcases feed_move_cases (c := c) hfeed with ⟨-, heq⟩ | ⟨f, -, hf⟩
    · exact heq.symm ▸ h
    · refine accounted_of_eq h hf.registrations hf.calls (fun j s' hs' => ?_) hf.length
      rw [hf.session (hc.sound.nodup hf.feed)] at hs'
      split_ifs at hs'
      · obtain ⟨s, hs, rfl⟩ := Option.map_eq_some_iff.1 hs'
        exact ⟨s, hs, wary_foldl_deliver _ s⟩
      · exact ⟨s', hs', rfl, rfl, id⟩
  | none =>
    cases hsession : m.session? with
    | some k =>
      refine hsame ?_
      rcases session_move_cases (c := c) hsession with ⟨-, heq⟩ | ⟨s, s', -, hs', hserves⟩
      · exact heq.symm ▸ h
      · refine accounted_of_eq h hserves.registrations hserves.calls (fun j s₁ hs₁ => ?_)
          hserves.length
        rw [hserves.sessions] at hs₁
        split_ifs at hs₁ with hkj
        · obtain rfl := Option.some.inj hs₁
          obtain ⟨haudience, hremoved, hwary⟩ := wary_after s m
          refine ⟨s, hkj ▸ hserves.session, ?_⟩
          rcases hs' with rfl | rfl
          · exact ⟨haudience, hremoved, hwary⟩
          · exact ⟨(Session.audience_answer ..).trans haudience,
              (Session.removed_answer ..).trans hremoved, fun h => (hwary h).answer _⟩
        · exact ⟨s₁, hs₁, rfl, rfl, id⟩
    | none =>
      cases hm : m.call? with
      | some i => exact h.call hn hm
      | none => exact hsame (h.fresh hn hfeed hsession hm)

/-- A run keeps every session accounted for, but for those that given up calls leave behind. -/
theorem accounted_run (channel : Channel) (identity : Identity) (options : Options)
    (ms : List Move) :
    ((new channel identity options).run ms).Accounted (fun _ => False)
      (· ∈ gather leaves (new channel identity options) ms) := by
  have hrun : ∀ ms (c : Client) (left : Nat → Prop), c.Tidy → c.Named →
      c.Accounted (fun _ => False) left →
      (c.run ms).Accounted (fun _ => False) fun j => left j ∨ j ∈ gather leaves c ms := by
    intro ms
    induction ms with
    | nil => exact fun c left _ _ h => h.mono fun _ => Or.inl
    | cons m ms ih =>
      intro c left hc hn h
      refine (ih _ _ (hc.apply m) (named_apply hc hn m) (h.apply hc hn m)).mono fun _ hj => ?_
      rw [gather, List.mem_append]
      tauto
  have hstart : (new channel identity options).Accounted (fun _ => False) fun _ => False := by
    refine ⟨fun hs => ?_, fun i hi => ?_, fun hs => ?_⟩
    · simp [new] at hs
    · obtain ⟨_, _, hcall, _⟩ := hi
      cases hcall
    · simp [new] at hs
  exact (hrun ms _ _ (tidy_new channel identity options)
    (named_run channel identity options []) hstart).mono fun _ hj => hj.resolve_left id

/-! ## Keys that are gone -/

variable {key : ListenerKey}

theorem Deeds.registered? {i : Nat} {new keys : ListenerKey → Prop} {waits : Nat → Prop}
    {c' : Client} (h : Deeds i new keys waits c c') (hkey : c'.registered? key ≠ none) :
    c.registered? key ≠ none ∨ new key := by
  induction h with
  | refl => exact Or.inl hkey
  | tail _ h ih => exact (h.registered? hkey).elim ih Or.inr

/-- Feeds and sessions have moved, or the move is a chain of deeds. -/
theorem quiet_or_deeds (hc : c.Tidy) (m : Move) : c.Quiet (c.apply m) ∨
    Deeds (c.actor m) (· ∈ c.adds m) (c.MayAdd m) (c.MayTouch m) c (c.apply m) := by
  rcases quiet_or_acts hc m with hquiet | ⟨hfeed, hsession, -⟩
  · exact Or.inl hquiet
  · exact Or.inr (deeds_apply c hfeed hsession)

/-- A key that is gone stays gone unless it is added. -/
theorem registered?_apply (hc : c.Tidy) (hkey : c.registered? key = none)
    (hadds : key ∉ c.adds m) : (c.apply m).registered? key = none := by
  by_contra hne
  rcases quiet_or_deeds hc m with hquiet | hdeeds
  · exact hne (registered?_of_registrations hquiet.registrations ▸ hkey)
  · exact (Deeds.registered? hdeeds hne).elim (· hkey) hadds

/-- A call that adds a key did so before the move, unless the move adds it. -/
theorem call_key_back (hc : c.Tidy) (hadds : key ∉ c.adds m) {i : Nat}
    (h : ∃ call, (c.apply m).call? i = some call ∧ call.key? = some key) :
    ∃ call, c.call? i = some call ∧ call.key? = some key := by
  obtain ⟨call, hcall, hkey⟩ := h
  by_cases hi : c.actor m = i
  · rcases quiet_or_deeds hc m with hquiet | hdeeds
    · exact ⟨call, call?_of_calls_eq hquiet.calls i ▸ hcall, hkey⟩
    · rcases Deeds.call_back hdeeds (hi ▸ hcall) with hcall | ⟨hmay, -⟩
      · exact ⟨call, hi ▸ hcall, hkey⟩
      · exact hi ▸ (hmay key hkey).resolve_left hadds
  · exact ⟨call, call?_apply hc hi ▸ hcall, hkey⟩

theorem gone_run {ms : List Move} (hc : c.Tidy) (hkey : c.registered? key = none)
    (hadds : key ∉ gather adds c ms) : (c.run ms).registered? key = none ∧
      ∀ i, (∃ call, (c.run ms).call? i = some call ∧ call.key? = some key) →
        ∃ call, c.call? i = some call ∧ call.key? = some key := by
  induction ms generalizing c with
  | nil => exact ⟨hkey, fun _ => id⟩
  | cons m ms ih =>
    rw [gather, List.mem_append, not_or] at hadds
    obtain ⟨hgone, hcalls⟩ := ih (hc.apply m) (registered?_apply hc hkey hadds.1) hadds.2
    exact ⟨hgone, fun i h => call_key_back hc hadds.1 (hcalls i h)⟩

/-! ## Calls of a listener -/

/-- What a session begins to tell its listener in a move. -/
def tells (j : Nat) (c : Client) (m : Move) : List Notice :=
  match c.sessions[j]? with
  | none => []
  | some s => if m.session? = some j ∧ s.fits m then (s.after m).notice?.toList else []

theorem tells_cases {j : Nat} {n : Notice} (h : n ∈ c.tells j m) : m.session? = some j ∧
    ∃ s, c.sessions[j]? = some s ∧ s.Admits m ∧ (s.after m).notice? = some n := by
  unfold tells at h
  split at h
  · cases h
  · next s hs =>
    split_ifs at h with hm
    · exact ⟨hm.1, s, hs, s.fits_iff.1 hm.2, Option.mem_toList.1 h⟩
    · cases h

theorem hushed_apply (hc : c.Tidy) {j : Nat} {s : Session} (hs : c.sessions[j]? = some s)
    (h : s.Hushed) (m : Move) : ∃ s', (c.apply m).sessions[j]? = some s' ∧ s'.Hushed := by
  cases hfeed : m.feed? with
  | some k =>
    rcases feed_move_cases (c := c) hfeed with ⟨-, heq⟩ | ⟨f, -, hf⟩
    · exact ⟨s, heq.symm ▸ hs, h⟩
    · rw [hf.session (hc.sound.nodup hf.feed), hs]
      split_ifs
      · have hdeliver : ∀ (ds : List Delivery) {s : Session}, s.Hushed →
            (ds.foldl Session.deliver s).Hushed := by
          intro ds
          induction ds with
          | nil => exact fun h => h
          | cons d ds ih => exact fun h => ih (h.deliver d)
        exact ⟨_, rfl, hdeliver _ h⟩
      · exact ⟨s, rfl, h⟩
  | none =>
    cases hsession : m.session? with
    | some k =>
      rcases session_move_cases (c := c) hsession with ⟨-, heq⟩ | ⟨s₀, s', -, hs', hserves⟩
      · exact ⟨s, heq.symm ▸ hs, h⟩
      · rw [hserves.sessions]
        split_ifs with hkj
        · subst hkj
          obtain rfl := Option.some.inj (hs.symm.trans hserves.session)
          have hafter : (s.after m).Hushed := by
            cases m with
            | takeNext => exact h.take
            | answer _ r => exact h.answer r
            | _ => exact h
          refine ⟨s', rfl, ?_⟩
          rcases hs' with rfl | rfl
          · exact hafter
          · exact hafter.answer _
        · exact ⟨s, hs, h⟩
    | none =>
      obtain ⟨s', hs', rfl | rfl⟩ := Deeds.session (deeds_apply c hfeed hsession) hs
      · exact ⟨_, hs', h⟩
      · exact ⟨_, hs', h.close⟩

theorem Hushed.gather_tells (hc : c.Tidy) {j : Nat} {s : Session} (hs : c.sessions[j]? = some s)
    (h : s.Hushed) (ms : List Move) : gather (tells j) c ms = [] := by
  induction ms generalizing c s with
  | nil => rfl
  | cons m ms ih =>
    obtain ⟨s', hs', h'⟩ := hushed_apply hc hs h m
    rw [gather, ih (hc.apply m) hs' h', List.append_nil, List.eq_nil_iff_forall_not_mem]
    intro n hn
    obtain ⟨-, s₀, hs₀, hadmits, hnotice⟩ := tells_cases hn
    obtain rfl := Option.some.inj (hs.symm.trans hs₀)
    rw [h.notice hadmits] at hnotice
    cases hnotice

/-- A session that was removed calls its listener once more if it had asked its checkpointer. -/
theorem tells_of_removed (hc : c.Tidy) {j : Nat} {s : Session} (hwary : s.Wary)
    (hs : c.sessions[j]? = some s) (hr : s.removed = true) (htells : c.tells j m ≠ []) :
    (∃ b, m = .answer j (.next b)) ∧ (∃ l name, s.audience = .block l (some name)) ∧
      ∀ more, gather (tells j) (c.apply m) more = [] := by
  obtain ⟨n, hn⟩ := List.exists_mem_of_ne_nil _ htells
  obtain ⟨hm, s₀, hs₀, hadmits, hnotice⟩ := tells_cases hn
  obtain rfl := Option.some.inj (hs.symm.trans hs₀)
  obtain ⟨⟨j', b, rfl⟩, hblock, hhushed⟩ := hwary.notice hr hadmits hnotice
  obtain rfl : j' = j := Option.some.inj hm
  refine ⟨⟨b, rfl⟩, hblock, fun more => ?_⟩
  rcases session_move_cases (c := c) hm with ⟨hnot, -⟩ | ⟨s₁, s', -, hs', hserves⟩
  · exact absurd hadmits (hnot s hs)
  · obtain rfl := Option.some.inj (hs.symm.trans hserves.session)
    have hnow : (c.apply (.answer j' (.next b))).sessions[j']? = some s' := by
      rw [hserves.sessions, if_pos rfl]
    refine Hushed.gather_tells (hc.apply _) hnow ?_ more
    rcases hs' with rfl | rfl
    · exact hhushed
    · exact hhushed.answer _

end Moves

/-- Once a listener was removed and is not added again, it is called no more, with three exceptions.
A session that a call still has pending, which was adding the listener when it was removed, goes on;
so does a session that such a call left behind when it was given up; and a session of a block
listener that was removed while it asked its checkpointer calls once more, when the answer is
there. -/
theorem told_after_removal (channel : Channel) (identity : Identity) (options : Options)
    (past : List Move) (key : ListenerKey) (ms : List Move) :
    let c₀ := (new channel identity options).run past
    let c₁ := c₀.apply (.remove key)
    let c := c₁.run ms
    key ∉ gather adds c₁ ms →
    ∀ {m j s}, c.sessions[j]? = some s → s.audience.key = key → c.tells j m ≠ [] →
      (∃ i call, c₀.call? i = some call ∧ call.key? = some key ∧ c.Pending i key j) ∨
      j ∈ gather leaves (new channel identity options) (past ++ .remove key :: ms) ∨
      s.removed = true ∧ (∃ b, m = .answer j (.next b)) ∧
        (∃ l name, s.audience = .block l (some name)) ∧
        ∀ more, gather (tells j) (c.apply m) more = [] := by
  intro c₀ c₁ c hadds m j s hs hkey htells
  have hc₀ : c₀.Tidy := tidy_run channel identity options past
  have hc₁ : c₁.Tidy := hc₀.apply _
  have hc : c.Tidy := hc₁.run ms
  obtain ⟨table, sessions, agenda, hremoved⟩ := c₀.unregister_eq key
  have hgone : c₁.registered? key = none := by
    change (c₀.unregister key).registered? key = none
    rw [hremoved]
    exact registered?_filter.trans (if_pos rfl)
  obtain ⟨hgone', hcalls⟩ := gone_run hc₁ hgone hadds
  have hrun : c = (new channel identity options).run (past ++ .remove key :: ms) := by
    rw [run_append]
    rfl
  have haccounted := accounted_run channel identity options (past ++ .remove key :: ms)
  rw [← hrun] at haccounted
  rcases haccounted.held hs with hr | ⟨as, has, -⟩ | ⟨i, -, hpending⟩ | hleft
  · exact Or.inr (Or.inr ⟨hr, tells_of_removed hc (haccounted.wary hs) hs hr htells⟩)
  · rw [hkey, hgone'] at has
    cases has
  · rw [hkey] at hpending
    obtain ⟨links, next, hcall, hl⟩ := hpending
    obtain ⟨call, hcall₁, hcallkey⟩ := hcalls i ⟨_, hcall, rfl⟩
    have hsame : c₁.call? i = c₀.call? i := call?_of_calls_eq (c₀.sheds_unregister key).calls i
    exact Or.inl ⟨i, call, hsame ▸ hcall₁, hcallkey, links, next, hcall, hl⟩
  · exact Or.inr (Or.inl hleft)

/-- A listener waits for the commit of a transaction on two peers, and the first of them has a
stream while the other has not answered yet. -/
def linkingTwo : List Move :=
  [.addCommitListener (.app "l") [⟨"p1", "org", "", .all⟩, ⟨"p2", "org", "", .all⟩] "tx",
    .requestStream 0, .streamOpened 0, .resume 0 128, .requestStream 1]

/-- A block with the transaction. -/
def blockOfTx : Block := ⟨1, .filtered, [⟨"tx", .valid, [], none⟩], none⟩

/-- The listener is removed, and then the transaction arrives from the first peer. -/
theorem told_while_linking :
    let c₁ := (lone.run linkingTwo).apply (.remove (.commit (.app "l")))
    let ms : List Move := [.blockArrived 0 blockOfTx]
    ListenerKey.commit (.app "l") ∉ gather adds c₁ ms ∧ (c₁.run ms).tells 0 (.takeNext 0) ≠ [] ∧
      ∃ i, (c₁.run ms).Pending i (.commit (.app "l")) 0 := by
  intro c₁ ms
  have hadds : ListenerKey.commit (.app "l") ∉ gather adds c₁ ms := by decide +kernel
  have htells : (c₁.run ms).tells 0 (.takeNext 0) ≠ [] := by decide +kernel
  have hthere : ((c₁.run ms).sessions[0]?).isSome = true := by decide +kernel
  obtain ⟨s, hs⟩ := Option.isSome_iff_exists.1 hthere
  have hknown : ((c₁.run ms).sessions[0]?).map (fun s => (s.audience.key, s.removed)) =
      some (.commit (.app "l"), false) := by decide +kernel
  rw [hs, Option.map_some, Option.some.injEq, Prod.mk.injEq] at hknown
  rcases told_after_removal onePeer ⟨"org", []⟩ .default linkingTwo (.commit (.app "l")) ms hadds hs
    hknown.1 htells with ⟨i, -, -, -, hpending⟩ | hleft | ⟨hr, -⟩
  · exact ⟨hadds, htells, i, hpending⟩
  · exact absurd hleft (by decide +kernel)
  · rw [hknown.2] at hr
    cases hr

/-- A block listener with a checkpointer is attached, and a block arrives: its checkpointer is
asked. -/
def askingPosition : List Move :=
  let checkpointed : ListenerOptions := { checkpointer := some "checkpoint" }
  [.addListener (.blocks (.app "l")) checkpointed, .checkpointRead 0 (.ok none), .requestStream 0,
    .streamOpened 0, .resume 0 128, .blockArrived 0 blockOfTx, .takeNext 0]

/-- Both listeners are registered; after they were removed they are called all the same. -/
theorem told_though_removed :
    (let c := lone.run linkingTwo
      let c₁ := c.apply (.remove (.commit (.app "l")))
      c.registered? (.commit (.app "l")) = some [] ∧ c₁.registered? (.commit (.app "l")) = none ∧
        (c₁.apply (.blockArrived 0 blockOfTx)).tells 0 (.takeNext 0) =
          [.commit (.ok ⟨"tx", "p1", .valid, 1⟩)]) ∧
    (let c := lone.run askingPosition
      let c₁ := c.apply (.remove (.blocks (.app "l")))
      c.registered? (.blocks (.app "l")) = some [⟨0, 0⟩] ∧
        c₁.registered? (.blocks (.app "l")) = none ∧
        c₁.tells 0 (.answer 0 (.next (some none))) = [.block ⟨"peer", blockOfTx⟩]) := by
  refine ⟨⟨by decide +kernel, by decide +kernel, rfl⟩, by decide +kernel, by decide +kernel, rfl⟩

end Client

end LedgerClient
