import LedgerClient.Proofs.Moorings
import LedgerClient.Proofs.Steps

/-!
# What calls have in their hands

The deeds of a call once more, with what it has in its hands while it does them: it waits for links,
and puts sessions under a key, only when these are in place and in nobody else's hands
(`Client.Task`). Every move but those of feeds and sessions and a close is a chain of tasks, after
which the client may be given up (`Client.works_apply`). So in every client that comes about, what
is registered and what is pending is in place (`Client.sane_run`).
-/

namespace LedgerClient

namespace Client

/-- One task of the call `i`, which may handle the keys `mine`. -/
inductive Task (i : Nat) (mine : ListenerKey → Prop) (c : Client) : Client → Prop
  /-- Feeds, sessions, registrations and calls stay as they are. -/
  | notes {c' : Client} (table : c'.table = c.table) (sessions : c'.sessions = c.sessions)
      (registrations : c'.registrations = c.registrations) (calls : c'.calls = c.calls)
      (nextCall : c.nextCall ≤ c'.nextCall) (rs : List Request)
      (outbox : c'.outbox = c.outbox ++ rs) (of : ∀ r ∈ rs, r.IsOf i) : Task i mine c c'
  | sets (call : Call)
      (inHand : ∀ {key links next}, call = .linking key links next → ∀ l ∈ links,
        c.InHand i key l.attachment) : Task i mine c (c.setCall i call)
  | ends : Task i mine c { c with calls := c.calls.filter (·.1 ≠ i) }
  | reserves (key : ListenerKey) (owned : mine key) (free : c.registered? key = none) :
      Task i mine c (c.reserve key)
  | completes (key : ListenerKey) (as : List Attachment) (owned : mine key)
      (inHand : ∀ a ∈ as, c.InHand i key a) : Task i mine c (c.complete key as)
  | removes (key : ListenerKey) (owned : mine key) : Task i mine c (c.unregister key)
  | spawns (audience : Audience) (floor : Option Nat) (owned : mine audience.key) :
      Task i mine c (c.spawn audience floor).1
  /-- A new session is attached that is on no feed yet. -/
  | attaches (peer : Peer) (kind : BlockKind) (start : Option Nat) (session : Nat)
      (fresh : ∃ a, c.sessions[session]? = some (.new a start))
      (apart : ∀ k f, c.table.feed? k = some f → session ∉ f.sessions) :
      Task i mine c (c.attachTo peer kind start session).1

/-- A chain of tasks of the call `i`. -/
abbrev Tasks (i : Nat) (mine : ListenerKey → Prop) : Client → Client → Prop :=
  Relation.ReflTransGen (Task i mine)

/-- What a call waits for is in its hands. -/
def Ready (i : Nat) (c : Client) : Prop :=
  ∀ key links next, c.call? i = some (.linking key links next) → ∀ l ∈ links,
    c.InHand i key l.attachment

/-- A call does tasks, after which it has in its hands what it waits for. Then the client may be
given up. -/
def Works (i : Nat) (mine : ListenerKey → Prop) (c c' : Client) : Prop :=
  ∃ b, Tasks i mine c b ∧ b.Ready i ∧ (c' = b ∨ c' = b.tearDownIfUnused)

/-- The mailbox of a wait is one of the keys `mine`. -/
def Mails (mine : ListenerKey → Prop) (w : Nat) (c : Client) : Prop :=
  ∀ wait n, c.waits[w]? = some wait → wait.listener = some n → mine (.commit (.mailbox n))

variable {i : Nat} {mine : ListenerKey → Prop} {c c' : Client} {key : ListenerKey}

theorem Task.act (h : Task i mine c c') : Act i (fun _ => True) c c' := by
  cases h with
  | notes table sessions registrations calls nextCall rs outbox of =>
    exact .notes table sessions registrations calls nextCall rs outbox of
  | sets call inHand =>
    refine .waits call fun j hj => ⟨trivial, ?_⟩
    cases call with
    | linking key links next =>
      obtain ⟨l, hl, rfl⟩ := List.mem_map.1 hj
      exact (inHand rfl l hl).opened.lt
    | _ => exact (List.not_mem_nil hj).elim
  | ends => exact .ends
  | reserves key _ free => exact .reserves key free
  | completes key as _ inHand =>
    exact .completes key as fun a ha => ⟨trivial, (inHand a ha).opened.lt⟩
  | removes key => exact .removes key
  | spawns audience floor => exact .spawns audience floor trivial
  | attaches peer kind start session fresh apart =>
    exact .attaches peer kind start session trivial fresh apart

theorem Tasks.acts (h : Tasks i mine c c') : Acts i (fun _ => True) c c' :=
  Relation.ReflTransGen.mono (fun _ _ => Task.act) _ _ h

/-! ## What stays in place -/

section Keeps

variable {a : Attachment} {k : Nat}

/-- What a call has in its hands stays there when feeds and sessions stay, keys are at most new and
empty, and no other call gets hold of it. -/
theorem InHand.keep (h : c.InHand k key a) (htable : c'.table = c.table)
    (hsessions : c.sessions <+: c'.sessions)
    (hregistrations : ∀ r ∈ c'.registrations, r ∈ c.registrations ∨ r.2 = [])
    (hnext : c.nextCall ≤ c'.nextCall)
    (hcalls : ∀ l call, l ≠ k → c'.call? l = some call →
      c.call? l = some call ∨ a.session ∉ call.sessions) : c'.InHand k key a := by
  obtain ⟨ss, hss⟩ := hsessions
  have hlt : a.session < c.sessions.length := h.aside.made
  refine ⟨?_, ?_, Nat.lt_of_lt_of_le h.aside.named hnext, ?_, ?_, fun l call hl hcall => ?_⟩
  · unfold Attached
    rw [htable]
    exact h.attached
  · obtain ⟨s, hs, hopen⟩ := h.opened
    exact ⟨s, by rw [← hss, List.getElem?_append_left hlt, hs], hopen⟩
  · rw [← hss, List.length_append]
    omega
  · rintro ⟨r, hr, b, hb, heq⟩
    rcases hregistrations r hr with hr | hnil
    · exact h.aside.unregistered ⟨r, hr, b, hb, heq⟩
    · rw [hnil] at hb
      exact List.not_mem_nil hb
  · exact (hcalls l call hl hcall).elim (h.aside.apart l call hl) id

/-- Everything stays in place when feeds and sessions stay, keys are at most new and empty, and the
busy call gets hold of nothing that another has. -/
theorem Settled.keep (h : c.Settled (· = i)) (htable : c'.table = c.table)
    (hsessions : c.sessions <+: c'.sessions)
    (hregistrations : ∀ r ∈ c'.registrations, r ∈ c.registrations ∨ r.2 = [])
    (hkeys : (c'.registrations.map Prod.fst).Nodup) (hnext : c.nextCall ≤ c'.nextCall)
    (hothers : ∀ k, k ≠ i → c'.call? k = c.call? k)
    (hown : ∀ call, c'.call? i = some call →
      c.call? i = some call ∨ ∀ j ∈ call.sessions, c.Aside i j) : c'.Settled (· = i) := by
  have hsession {j : Nat} {s : Session} (hs : c.sessions[j]? = some s) :
      c'.sessions[j]? = some s := by
    obtain ⟨ss, hss⟩ := hsessions
    rw [← hss, List.getElem?_append_left (List.getElem?_eq_some_iff.1 hs).1, hs]
  refine ⟨⟨htable ▸ h.staffed.manned, fun hf hruns hj => ?_⟩, hkeys, fun {key as} hkey a ha => ?_,
    fun {k key links next} hk hcall l hl => ?_⟩
  · rw [htable] at hf
    obtain ⟨s, hs, hopen⟩ := h.staffed.awake hf hruns hj
    exact ⟨s, hsession hs, hopen⟩
  · rcases hregistrations _ (mem_of_registered? hkey) with hmem | hnil
    · obtain ⟨hattached, s, hs, hopen⟩ := h.stored (registered?_of_mem h.keys hmem) a ha
      exact ⟨by unfold Attached; rwa [htable], s, hsession hs, hopen⟩
    · obtain rfl : as = [] := hnil
      exact (List.not_mem_nil ha).elim
  · rw [hothers k hk] at hcall
    have hinhand := h.pending hk hcall l hl
    refine hinhand.keep htable hsessions hregistrations hnext fun k' call hk' hcall' => ?_
    by_cases hi : k' = i
    · subst hi
      refine (hown call hcall').imp_right fun haside hmem => ?_
      exact (haside _ hmem).apart k _ hk hcall (List.mem_map_of_mem hl)
    · exact Or.inl (hothers k' hi ▸ hcall')

theorem Attached.attachTo (h : c.Attached a) (ht : c.table.Sound) (peer : Peer) (kind : BlockKind)
    (start : Option Nat) (session : Nat) :
    (c.attachTo peer kind start session).1.Attached a := by
  obtain ⟨f, hf, hmem⟩ := h
  obtain ⟨f', hf', hcase⟩ :=
    ht.feed?_join c.options.reconnect peer kind start session hf
  refine ⟨f', by rw [attachTo_table, hf'], ?_⟩
  rcases hcase with rfl | rfl
  · exact hmem
  · exact Feed.mem_sessions_attach.2 (Or.inl hmem)

theorem attached_attachTo (ht : c.table.Sound) (peer : Peer) (kind : BlockKind)
    (start : Option Nat) (session : Nat) :
    (c.attachTo peer kind start session).1.Attached (c.attachTo peer kind start session).2 := by
  obtain ⟨agenda, heq⟩ := c.attachTo_eq peer kind start session
  obtain ⟨f, hf, hmem, -⟩ := ht.mem_join c.options.reconnect peer kind start session
  rw [heq]
  exact ⟨f, hf, hmem⟩

theorem Settled.attachTo (h : c.Settled (· = i)) (ht : c.table.Sound) (peer : Peer)
    (kind : BlockKind) (start : Option Nat) {session : Nat}
    (fresh : ∃ a, c.sessions[session]? = some (.new a start)) :
    (c.attachTo peer kind start session).1.Settled (· = i) := by
  obtain ⟨audience, hnew⟩ := fresh
  let r := c.table.join c.options.reconnect peer kind start session
  obtain ⟨agenda, heq⟩ := c.attachTo_eq peer kind start session
  have hstays {b : Attachment} (hb : c.Attached b) :
      ({ c with table := r.1, agenda } : Client).Attached b := by
    have := hb.attachTo ht peer kind start session
    rwa [heq] at this
  rw [heq]
  refine ⟨⟨h.staffed.manned.join _ peer kind start session ht, fun {k f j} hf hruns hj => ?_⟩,
    h.keys, fun hkey b hb => ⟨hstays (h.stored hkey b hb).1, (h.stored hkey b hb).2⟩,
    fun hk hcall l hl => ?_⟩
  · rcases FeedTable.feed?_join_cases _ peer kind start session ht hf with
      rfl | ⟨g, hg, rfl | rfl⟩
    · obtain rfl := List.mem_singleton.1 hj
      exact ⟨_, hnew, rfl⟩
    · exact h.staffed.awake hg hruns hj
    · rw [g.isRunning_attach] at hruns
      rcases Feed.mem_sessions_attach.1 hj with hj | rfl
      · exact h.staffed.awake hg hruns hj
      · exact ⟨_, hnew, rfl⟩
  · have hinhand := h.pending hk hcall l hl
    exact ⟨hstays hinhand.attached, hinhand.opened, hinhand.aside.named, hinhand.aside.made,
      hinhand.aside.unregistered, hinhand.aside.apart⟩

/-- A task keeps everything in place. -/
theorem Task.settled (h : Task i mine c c') (ht : c.table.Sound) (hc : c.Settled (· = i)) :
    c'.Settled (· = i) := by
  have hsame {b : Client} (hb : b.registrations = c.registrations) :
      (∀ r ∈ b.registrations, r ∈ c.registrations ∨ r.2 = []) ∧
        (b.registrations.map Prod.fst).Nodup := by
    rw [hb]
    exact ⟨fun _ => Or.inl, hc.keys⟩
  cases h with
  | notes table sessions registrations calls nextCall =>
    exact hc.keep table (sessions ▸ List.prefix_rfl) (hsame registrations).1
      (hsame registrations).2 nextCall (fun k _ => call?_of_calls_eq calls k) fun call hcall =>
        Or.inl (call?_of_calls_eq calls i ▸ hcall)
  | sets call inHand =>
    refine hc.keep rfl List.prefix_rfl (hsame rfl).1 (hsame rfl).2 (Nat.le_refl _)
      (fun k hk => call?_setCall_ne hk c call) fun call' hcall => Or.inr fun j hj => ?_
    obtain rfl := Option.some.inj ((call?_setCall_self c call).symm.trans hcall)
    cases call with
    | linking key links next =>
      obtain ⟨l, hl, rfl⟩ := List.mem_map.1 hj
      exact (inHand rfl l hl).aside
    | _ => exact (List.not_mem_nil hj).elim
  | ends =>
    refine hc.keep rfl List.prefix_rfl (hsame rfl).1 (hsame rfl).2 (Nat.le_refl _)
      (fun k hk => call?_filter_ne hk c) fun call hcall => ?_
    rw [call?_filter_self] at hcall
    cases hcall
  | reserves key owned free =>
    refine hc.keep rfl List.prefix_rfl (fun r hr => ?_) ?_ (Nat.le_refl _) (fun _ _ => rfl)
      fun _ => Or.inl
    · exact (List.mem_append.1 hr).imp_right fun hr => by rw [List.mem_singleton.1 hr]
    · change ((c.registrations ++ [(key, [])]).map Prod.fst).Nodup
      rw [List.map_append, List.nodup_append]
      refine ⟨hc.keys, List.nodup_singleton _, fun key' hkey' key'' hkey'' heq => ?_⟩
      obtain ⟨r, hr, rfl⟩ := List.mem_map.1 hkey'
      obtain rfl : key'' = key := List.mem_singleton.1 hkey''
      obtain rfl : r.1 = key'' := heq
      rw [registered?_of_mem hc.keys hr] at free
      cases free
  | completes key as _ inHand => exact (hc.complete ht inHand).1
  | removes key => exact (hc.unregister ht key).1
  | spawns audience floor =>
    obtain ⟨agenda, heq⟩ := c.spawn_eq audience floor
    rw [heq]
    exact hc.keep rfl (List.prefix_append _ _) (hsame rfl).1 (hsame rfl).2 (Nat.le_refl _)
      (fun _ _ => rfl) fun _ => Or.inl
  | attaches peer kind start session fresh => exact hc.attachTo ht peer kind start fresh

theorem Tasks.settled (h : Tasks i mine c c') (ht : c.Tidy) (hc : c.Settled (· = i)) :
    c'.Settled (· = i) := by
  induction h with
  | refl => exact hc
  | tail hb h ih => exact h.settled (Acts.tidy (Tasks.acts hb) ht).sound ih

end Keeps

/-! ## The course of calls -/

section Calls

theorem ready_of_idle (h : ∀ key j, ¬ c.Pending i key j) : c.Ready i :=
  fun key links next hcall l hl => absurd ⟨links, next, hcall, l, hl, rfl⟩ (h key _)

theorem ready_of_gone (h : c.call? i = none) : c.Ready i := by
  intro key links next hcall
  rw [h] at hcall
  cases hcall

theorem Ready.send (h : c.Ready i) (r : Request) : (c.send r).Ready i :=
  fun key links next hcall l hl =>
    (h key links next hcall l hl).keep rfl List.prefix_rfl (fun _ => Or.inl) (Nat.le_refl _)
      fun _ _ _ => Or.inl

theorem Works.of_tasks {b : Client} (h : Tasks i mine c b) (h' : Works i mine b c') :
    Works i mine c c' := by
  obtain ⟨b', hb', hrest⟩ := h'
  exact ⟨b', h.trans hb', hrest⟩

/-- A call that is under way keeps the client from being given up. -/
theorem tearDownIfUnused_of_call? {call : Call} (h : c.tearDownIfUnused.call? i = some call) :
    c.tearDownIfUnused = c := by
  unfold tearDownIfUnused
  split_ifs with hunused
  · rw [call?_of_calls_eq (tearDownIfUnused_same c).1] at h
    simp only [Bool.and_eq_true, List.isEmpty_iff] at hunused
    rw [call?, hunused.1.2] at h
    cases h
  · rfl

theorem Works.send {call : Call} (h : Works i mine c c') (hcall : c'.call? i = some call)
    {r : Request} (hr : r.IsOf i) : Works i mine c (c'.send r) := by
  obtain ⟨b, hb, hready, hend⟩ := h
  have heq : c' = b := by
    rcases hend with rfl | rfl
    · rfl
    · exact tearDownIfUnused_of_call? hcall
  subst heq
  refine ⟨c'.send r, hb.tail ?_, hready.send r, Or.inl rfl⟩
  exact .notes rfl rfl rfl rfl (Nat.le_refl _) [r] rfl (by simpa using hr)

section Waits

variable {w : Nat}

theorem Mails.of_waits (h : c.Mails mine w) (hwaits : c'.waits = c.waits) : c'.Mails mine w := by
  unfold Mails
  rw [hwaits]
  exact h

theorem Mails.modify (h : c.Mails mine w) {f : Wait → Wait} {v : Nat}
    (hf : ∀ wait, (f wait).listener = wait.listener) : (c.modifyWait v f).Mails mine w := by
  intro wait n hwait hn
  simp only [modifyWait, List.getElem?_modify, Option.map_eq_map, Option.map_eq_some_iff] at hwait
  obtain ⟨wait', hwait', rfl⟩ := hwait
  refine h wait' n hwait' ?_
  split_ifs at hn
  · exact (hf wait').symm.trans hn
  · exact hn

variable (c)

theorem task_modifyWait (v : Nat) (f : Wait → Wait) : Task i mine c (c.modifyWait v f) :=
  .notes rfl rfl rfl rfl (Nat.le_refl _) [] (List.append_nil _).symm (by simp)

theorem task_newCall : Task i mine c c.newCall.1 :=
  .notes rfl rfl rfl rfl (Nat.le_succ _) [] (List.append_nil _).symm (by simp)

theorem works_finish (r : CallResult) : Works i mine c (c.finish i r) := by
  let b : Client := { c with calls := c.calls.filter (·.1 ≠ i) }
  have hsend : Task i mine b (b.send (.finished i r)) :=
    .notes rfl rfl rfl rfl (Nat.le_refl _) [.finished i r] rfl (by simp [Request.IsOf])
  exact ⟨b.send (.finished i r), .tail (.single .ends) hsend,
    (ready_of_gone (c := b) c.call?_filter_self).send _, Or.inr rfl⟩

theorem works_set {call : Call} (hcall : ∀ key links next, call ≠ .linking key links next) :
    Works i mine c (c.setCall i call) := by
  refine ⟨_, .single (.sets call fun h => absurd h (hcall _ _ _)), ?_, Or.inl rfl⟩
  intro key links next h
  rw [call?_setCall_self] at h
  exact absurd (Option.some.inj h) (hcall _ _ _)

theorem works_set_send {call : Call} (hcall : ∀ key links next, call ≠ .linking key links next)
    {r : Request} (hr : r.IsOf i) : Works i mine c ((c.setCall i call).send r) :=
  (works_set c hcall).send (call?_setCall_self c call) hr

variable {c}

theorem tasks_cancelWait (hw : c.Mails mine w) : Tasks i mine c (c.cancelWait w) := by
  unfold cancelWait
  split
  · exact .refl
  · next wait hwait =>
    refine .tail ?_ (task_modifyWait _ _ _)
    split
    · next n hn => exact .single (.removes _ (hw wait n hwait hn))
    · exact .refl

theorem tasks_dropWait (hw : c.Mails mine w) : Tasks i mine c (c.dropWait w) :=
  .tail (tasks_cancelWait hw) (task_modifyWait _ _ _)

theorem works_drop_finish (hw : c.Mails mine w) (r : CallResult) :
    Works i mine c ((c.dropWait w).finish i r) :=
  .of_tasks (tasks_dropWait hw) (works_finish _ r)

theorem works_lookAt (hw : c.Mails mine w) (hi : ∀ key j, ¬ c.Pending i key j) (room : Nat)
    (q : Quorum) (t : Tally) (payload : Option Bytes) :
    Works i mine c (c.lookAt i w room q t payload) := by
  unfold lookAt
  split
  · exact ⟨c, .refl, ready_of_idle hi, Or.inl rfl⟩
  · dsimp only
    have hw' : (c.modifyWait w (·.drop room)).Mails mine w := hw.modify fun _ => rfl
    refine .of_tasks (.single (task_modifyWait c w (·.drop room))) ?_
    split
    · exact works_set _ fun _ _ _ => by simp
    · exact works_drop_finish hw' _

theorem works_confirm (hw : c.Mails mine w) (hi : ∀ key j, ¬ c.Pending i key j)
    (payload : Option Bytes) : Works i mine c (c.confirm i w payload) := by
  unfold confirm
  split
  · exact ⟨c, .refl, ready_of_idle hi, Or.inl rfl⟩
  · split
    · exact works_set_send c (fun _ _ _ => by simp) rfl
    · exact works_drop_finish hw _

theorem works_orderStep (hw : c.Mails mine w) (hi : ∀ key j, ¬ c.Pending i key j)
    (r : OrderRequest) (payload : Bytes) (s : OrderStep) :
    Works i mine c (c.orderStep i r payload w s) := by
  rcases s with route | (e | reply)
  · exact works_set_send c (fun _ _ _ => by simp) rfl
  · exact works_drop_finish hw _
  · simp only [orderStep]
    split_ifs
    · exact works_confirm hw hi _
    · exact works_drop_finish hw _

theorem works_proceed {next : AfterLink} (hw : ∀ w ∈ next.wait?, c.Mails mine w) :
    Works i mine c (c.proceed i next) := by
  cases next with
  | added => exact works_finish c _
  | listening => exact works_finish c _
  | order r payload w =>
    rcases c.proceed_order_cases i r payload w with ⟨route, heq⟩ | ⟨e, heq⟩ <;> rw [heq]
    · exact works_set_send c (fun _ _ _ => by simp) rfl
    · exact works_drop_finish (hw w rfl) _

end Waits

/-! ## Attaching -/

section Attaching

variable {next : AfterLink}

theorem inHand_progress {links : List Link} (h : ∀ l ∈ links, c.InHand i key l.attachment) :
    ∀ l ∈ c.progress links, c.InHand i key l.attachment := by
  intro l hl
  obtain ⟨l', hl', rfl⟩ := List.mem_map.1 hl
  exact h l' hl'

theorem works_followLinks (owned : mine key) {links : List Link}
    (hlinks : ∀ l ∈ links, c.InHand i key l.attachment)
    (hw : ∀ w ∈ next.wait?, c.Mails mine w) :
    Works i mine c (c.followLinks i key links next) := by
  have hprogress := inHand_progress hlinks
  unfold followLinks
  dsimp only
  split_ifs
  · obtain ⟨_, _, _, _, heq⟩ := c.complete_eq key ((c.progress links).map (·.attachment))
    refine .of_tasks (.single (.completes key _ owned fun a ha => ?_))
      (works_proceed fun w hw' => (hw w hw').of_waits (by rw [heq]))
    obtain ⟨l, hl, rfl⟩ := List.mem_map.1 ha
    exact hprogress l hl
  · let call : Call := .linking key (c.progress links) next
    have hsame : ∀ {key' links' next'}, call = .linking key' links' next' →
        ∀ l ∈ links', c.InHand i key' l.attachment := by
      intro key' links' next' heq l hl
      obtain ⟨rfl, rfl, -⟩ : key = key' ∧ c.progress links = links' ∧ next = next' := by
        simpa [call] using heq
      exact hprogress l hl
    refine ⟨c.setCall i call, .single (.sets call hsame), fun key' links' next' hcall l hl => ?_,
      Or.inl rfl⟩
    rw [call?_setCall_self, Option.some.injEq] at hcall
    exact (hsame hcall l hl).keep rfl List.prefix_rfl (fun _ => Or.inl) (Nat.le_refl _)
      fun k call' hk hcall' => Or.inl (call?_setCall_ne hk c call ▸ hcall')

theorem works_attachListener (owned : mine key) (hc : c.Tidy) (hi : i < c.nextCall)
    (o : ListenerOptions) (start : Option Nat) :
    Works i mine c (c.attachListener i key o start) := by
  unfold attachListener
  split
  · exact .of_tasks (.single (.removes key owned)) (works_finish _ _)
  · next peer _ =>
    let c₁ := (c.spawn (key.audience o) start).1
    let r := c₁.attachTo peer o.kind start c.sessions.length
    have hspawn : Task i mine c c₁ := .spawns _ _ (by simpa using owned)
    have hfresh : c₁.sessions[c.sessions.length]? = some (.new (key.audience o) start) := by
      simp [c₁, spawn_sessions]
    have hattach : Task i mine c₁ r.1 := by
      refine .attaches _ _ _ _ ⟨_, hfresh⟩ fun k f hf hmem => ?_
      rw [spawn_table] at hf
      exact Nat.lt_irrefl _ (hc.bounded k f hf _ hmem)
    obtain ⟨agenda, heq⟩ : ∃ agenda, r.1 =
        { c with
          table := r.1.table, agenda
          sessions := c.sessions ++ [.new (key.audience o) start] } := by
      obtain ⟨_, hspawn⟩ := c.spawn_eq (key.audience o) start
      obtain ⟨agenda, hattach⟩ := c₁.attachTo_eq peer o.kind start c.sessions.length
      refine ⟨agenda, ?_⟩
      simp only [r, hattach, c₁, hspawn]
    refine .of_tasks (.tail (.single hspawn) hattach) (works_followLinks owned (fun l hl => ?_)
      (by simp [AfterLink.wait?]))
    obtain rfl := List.mem_singleton.1 hl
    have hsession : r.2.session = c.sessions.length := attachTo_session ..
    have hlast : r.1.sessions[r.2.session]? = some (.new (key.audience o) start) := by
      rw [hsession, attachTo_sessions]
      exact hfresh
    refine ⟨attached_attachTo (hspawn.act.sound hc.sound) ..,
      ⟨_, hlast, rfl, ListenerKey.key_audience o key⟩, ?_⟩
    exact aside_of_new hc hi (Nat.le_of_eq hsession.symm) (List.getElem?_eq_some_iff.1 hlast).1
      (by rw [heq]; exact fun _ => Or.inl) (by rw [heq]) (by rw [heq])

theorem tasks_spawnEach {l : ListenerId} (owned : mine (.commit l)) (id : String)
    (peers : List Peer) (c : Client) : Tasks i mine c (c.spawnEach l id peers) := by
  induction peers generalizing c with
  | nil => exact .refl
  | cons p ps ih => exact .head (.spawns (.commit l p.name id) none owned) (ih _)

theorem tasks_attachEach {ss : List (Peer × Nat)} (h : c.Unattached ss) :
    Tasks i mine c (c.attachEach ss).1 := by
  induction ss generalizing c with
  | nil => exact .refl
  | cons x rest ih =>
    obtain ⟨hfresh, hapart⟩ := h.2 x List.mem_cons_self
    exact .head (.attaches x.1 .filtered none x.2 hfresh hapart) (ih h.attachTo)

/-- The sessions of a commit listener are in the hands of the call that attaches them. -/
theorem inHand_attachEach (hc : c.Tidy) (hi : i < c.nextCall) (l : ListenerId) (id : String)
    (peers : List Peer) :
    let r := ((c.reserve (.commit l)).spawnEach l id peers).attachEach
      (peers.zipIdx c.sessions.length)
    ∀ a ∈ r.2, r.1.InHand i (.commit l) a := by
  intro r a ha
  let b := (c.reserve (.commit l)).spawnEach l id peers
  obtain ⟨table, agenda, heq⟩ :=
    c.attachEach_spawnEach_eq l id peers (peers.zipIdx c.sessions.length)
  obtain ⟨n, hn⟩ := List.getElem?_of_mem ha
  have hsession := congrArg (·[n]?) (attachEach_session b (peers.zipIdx c.sessions.length))
  simp only [List.getElem?_map, List.getElem?_zipIdx, r] at hsession hn
  rw [hn] at hsession
  obtain ⟨p, hp, hnum⟩ : ∃ p, peers[n]? = some p ∧ a.session = c.sessions.length + n := by
    cases hp : peers[n]? with
    | none =>
      rw [hp] at hsession
      cases hsession
    | some p =>
      rw [hp] at hsession
      exact ⟨p, rfl, Option.some.inj hsession⟩
  have hsound : b.table.Sound := by
    rw [spawnEach_table]
    exact hc.sound
  have hunattached : b.Unattached (peers.zipIdx c.sessions.length) :=
    unattached_spawnEach (c.reserve (.commit l)) l id peers hc.bounded
  obtain ⟨k, f, hk, -, hf, hmem⟩ := attachEach_mem hsound hunattached (n := n) (p := p)
    (j := c.sessions.length + n) (by rw [List.getElem?_zipIdx, hp]; rfl)
  obtain rfl : a = ⟨k, c.sessions.length + n⟩ := Option.some.inj (hn.symm.trans hk)
  have hlast : r.1.sessions[c.sessions.length + n]? =
      some (.new (.commit l p.name id) none) := by
    rw [heq, List.getElem?_append_right (Nat.le_add_right _ _), Nat.add_sub_cancel_left,
      List.getElem?_map, hp]
    rfl
  refine ⟨⟨f, hf, hmem⟩, ⟨_, hlast, rfl, rfl⟩, aside_of_new hc hi (Nat.le_add_right _ _)
    (List.getElem?_eq_some_iff.1 hlast).1 (fun r hr => ?_) (by rw [heq]) (by rw [heq])⟩
  rw [heq] at hr
  exact (List.mem_append.1 hr).imp_right fun hr => by rw [List.mem_singleton.1 hr]

theorem works_linkCommit {l : ListenerId} (owned : mine (.commit l)) (hc : c.Tidy)
    (hi : i < c.nextCall) (peers : List Peer) (id : String)
    (hw : ∀ w ∈ next.wait?, c.Mails mine w) :
    Works i mine c (c.linkCommit i l peers id next) := by
  cases free : c.registered? (.commit l) with
  | some _ =>
    unfold linkCommit
    rw [free]
    exact works_proceed hw
  | none =>
    rw [linkCommit_eq c i l peers id next free]
    let b := (c.reserve (.commit l)).spawnEach l id peers
    have hunattached : b.Unattached (peers.zipIdx c.sessions.length) :=
      unattached_spawnEach (c.reserve (.commit l)) l id peers hc.bounded
    obtain ⟨_, _, heq⟩ := c.attachEach_spawnEach_eq l id peers (peers.zipIdx c.sessions.length)
    refine .of_tasks (.head (.reserves _ owned free) ((tasks_spawnEach owned id peers _).trans
      (tasks_attachEach hunattached))) (works_followLinks owned (fun k hk => ?_)
        fun w hw' => (hw w hw').of_waits (by rw [heq]))
    obtain ⟨a, ha, rfl⟩ := List.mem_map.1 hk
    exact inHand_attachEach hc hi l id peers a ha

theorem works_openMailbox {w : Nat} {wait : Wait} (hwait : c.waits[w]? = some wait)
    (owned : mine (.commit (.mailbox c.nextMailbox))) (hc : c.Tidy) (hi : i < c.nextCall)
    (hnext : ∀ v ∈ next.wait?, v = w) (hw : c.Mails mine w) :
    Works i mine c (c.openMailbox i w next) := by
  have hnote (waits : List Wait) (n : Nat) :
      Task i mine c { c with waits, nextMailbox := n } :=
    .notes rfl rfl rfl rfl (Nat.le_refl _) [] (List.append_nil _).symm (by simp)
  rcases c.openMailbox_cases i next hwait with
    ⟨-, waits, hwaits, heq⟩ | ⟨q, -, -, waits, hwaits, heq⟩ <;> rw [heq]
  · refine .of_tasks (.single (hnote waits c.nextMailbox)) (works_proceed fun v hv => ?_)
    obtain rfl := hnext v hv
    intro wait' n hwait' hn
    obtain rfl := Option.some.inj (hwaits.symm.trans hwait')
    exact hw wait n hwait hn
  · let b : Client := { c with waits, nextMailbox := c.nextMailbox + 1 }
    have htask : Task i mine c b := hnote waits (c.nextMailbox + 1)
    refine .of_tasks (.single htask) (works_linkCommit owned (htask.act.tidy hc) hi _ _
      fun v hv => ?_)
    obtain rfl := hnext v hv
    intro wait' n hwait' hn
    obtain rfl := Option.some.inj (hwaits.symm.trans hwait')
    exact Option.some.inj hn ▸ owned

end Attaching

end Calls

end Client

end LedgerClient
