import LedgerClient.Proofs.Repetition
import LedgerClient.Proofs.Resumption
import Mathlib.Data.List.Induction

/-!
# Failed calls

A call of a listener fails.  From then on the checkpoint is not past what the call was about, until
a contract listener takes up a later block (`Watch.event_owed`) or a block listener's call about a
later block succeeds (`Watch.block_owed`).  What a plan keeps is carried to runs by a rule that
looks at each delivery when it is taken up (`Watch.invariant_run`).
-/

namespace LedgerClient

/-! ## Deliveries that are taken up -/

/-- The delivery that a session handles when it takes its next one. -/
def Session.upNext? (s : Session) : Option Delivery :=
  match s.work, s.queue with
  | none, d :: _ => if s.removed = false ∧ s.accepts d = true then some d else none
  | _, _ => none

theorem Session.upNext?_eq_some {s : Session} {d : Delivery} (h : s.upNext? = some d) :
    s.work = none ∧ s.removed = false ∧ s.accepts d = true ∧ d ∈ s.queue := by
  unfold upNext? at h
  split at h
  · rename_i d' rest hw hq
    split_ifs at h with hd
    obtain rfl := Option.some.inj h
    exact ⟨hw, hd.1, hd.2, hq ▸ List.mem_cons_self⟩
  · cases h

/-- A session that takes its next delivery goes on with the plan for it, or its work stays as it
is. -/
theorem Session.take_upNext? (s : Session) :
    (∃ d rest, s.upNext? = some d ∧
      s.take = { s with queue := rest }.follow (numberOf d) (s.audience.plan d)) ∨
      s.upNext? = none ∧ s.take.work = s.work := by
  unfold upNext?
  rcases s.take_cases with
    ⟨ht, hw | hq⟩ | ⟨hw, hr, ht⟩ | ⟨d, rest, hw, hr, hq, ⟨hacc, ht⟩ | ⟨hacc, ht⟩⟩
  · refine Or.inr ⟨?_, by rw [ht]⟩
    split
    · rename_i hnone _
      exact absurd hnone hw
    · rfl
  · refine Or.inr ⟨?_, by rw [ht]⟩
    rw [hq]
    split
    · rename_i _ hcons
      cases hcons
    · rfl
  · refine Or.inr ⟨?_, by rw [ht]⟩
    split
    · rw [if_neg (by simp [hr])]
    · rfl
  · refine Or.inl ⟨d, rest, ?_, ht⟩
    rw [hw, hq]
    exact if_pos ⟨hr, hacc⟩
  · refine Or.inr ⟨?_, by rw [ht]⟩
    rw [hw, hq]
    exact if_neg (by simp [hacc])

namespace Watch

variable (opens : Checkpoint → Session)

/-- The deliveries that are taken up along a run. -/
def taken (a : Watch) : List Incident → List Delivery
  | [] => []
  | .begins :: es => a.session.upNext?.toList ++ (a.after opens .begins).taken es
  | e :: es => (a.after opens e).taken es

theorem taken_append (a : Watch) (es es' : List Incident) :
    a.taken opens (es ++ es') = a.taken opens es ++ (a.run opens es).taken opens es' := by
  induction es generalizing a with
  | nil => rfl
  | cons e es ih =>
    cases e <;> simp only [List.cons_append, taken, run_cons, ih, List.append_assoc]

theorem taken_begins (a : Watch) : a.taken opens [.begins] = a.session.upNext?.toList :=
  List.append_nil _

theorem mem_taken {a : Watch} {es es' : List Incident} {d : Delivery}
    (h : (a.run opens es).session.upNext? = some d) : d ∈ a.taken opens (es ++ .begins :: es') := by
  rw [taken_append]
  simp [taken, h]

theorem queue_run {P : Delivery → Prop} (hopens : ∀ c, (opens c).queue = []) {a : Watch}
    (ha : ∀ d ∈ a.session.queue, P d) {es : List Incident}
    (hes : ∀ d, .arrives d ∈ es → P d) : ∀ d ∈ (a.run opens es).session.queue, P d := by
  induction es generalizing a with
  | nil => exact ha
  | cons e es ih =>
    refine ih ?_ fun d hd => hes d (List.mem_cons_of_mem _ hd)
    cases e with
    | arrives d =>
      intro d' hd'
      simp only [after, Session.deliver] at hd'
      split_ifs at hd'
      · exact ha d' hd'
      · rcases List.mem_append.1 hd' with hd' | hd'
        · exact ha d' hd'
        · obtain rfl := List.mem_singleton.1 hd'
          exact hes d' List.mem_cons_self
    | removed => exact ha
    | begins =>
      intro d' hd'
      simp only [after] at hd'
      rcases a.session.take_cases with
        ⟨ht, -⟩ | ⟨-, -, ht⟩ | ⟨d, rest, -, -, hq, ⟨-, ht⟩ | ⟨-, ht⟩⟩ <;> rw [ht] at hd'
      · exact ha d' hd'
      · cases hd'
      · rw [Session.queue_follow] at hd'
        exact ha d' (hq ▸ List.mem_cons_of_mem _ hd')
      · exact ha d' (hq ▸ List.mem_cons_of_mem _ hd')
    | reads ok | changes ok | calls ok =>
      simp only [after]
      split <;> first | exact ha | (rw [Session.queue_answer]; exact ha)
    | restarts =>
      simp only [after, start, hopens]
      exact fun _ hd => (List.not_mem_nil hd).elim

end Watch

/-! ## Invariants of accounts -/

/-- Whatever answers its questions, a plan keeps `G` of the account. -/
def Plan.Preserves (allowed : Incident → Prop) (G : Account → Prop) (p : Plan) (w : Account) :
    Prop :=
  p.Keeps allowed (fun w w' => G w → G w') (fun _ => True) w

namespace Watch

variable {opens : Checkpoint → Session} {allowed : Incident → Prop} {G : Account → Prop}

theorem of_steps {w w' : Account} (h : Relation.ReflTransGen (fun w w' => G w → G w') w w') :
    G w → G w' := by
  induction h with
  | refl => exact id
  | tail _ h ih => exact h ∘ ih

/-- The rule for runs with no more than a relation between accounts to look after. -/
abbrev Steady (allowed : Incident → Prop) (G : Account → Prop) (a : Watch) : Prop :=
  Holds allowed (fun w w' => G w → G w') (fun _ _ _ _ => True) a []

theorem steady_of_none {a : Watch} (hw : a.session.work = none) : a.Steady allowed G :=
  (holds_of_none hw).2 fun _ => trivial

theorem steady_follow {s : Session} {n : Option Nat} {p : Plan} {w : Account}
    (hp : p.Preserves allowed G w) : Steady allowed G ⟨s.follow n p, w⟩ :=
  Holds.follow (hp.mono fun _ _ _ => trivial)

theorem Steady.of_work {a b : Watch} (h : a.Steady allowed G) (hw : b.session.work = a.session.work)
    (hacc : b.account = a.account) : b.Steady allowed G := by
  unfold Steady Holds at h ⊢
  rw [hw, hacc]
  split at h
  · exact fun _ => trivial
  · exact h.mono fun _ _ _ => trivial

theorem Steady.after (hopens : ∀ c, (opens c).work = none) {a : Watch} (h : a.Steady allowed G)
    {e : Incident} (he : allowed e) (htakes : e = .begins → ∀ d, a.session.upNext? = some d →
      (a.session.audience.plan d).Preserves allowed G a.account) :
    (a.after opens e).Steady allowed G ∧ (G a.account → G (a.after opens e).account) := by
  cases e with
  | arrives d =>
    refine ⟨h.of_work ?_ rfl, id⟩
    simp only [Watch.after, Session.deliver]
    split_ifs <;> rfl
  | removed => exact ⟨h.of_work rfl rfl, id⟩
  | begins =>
    refine ⟨?_, id⟩
    rcases a.session.take_upNext? with ⟨d, rest, hd, ht⟩ | ⟨-, hw⟩
    · simp only [Watch.after, ht]
      exact steady_follow (htakes rfl d hd)
    · exact h.of_work hw rfl
  | reads ok =>
    refine ⟨Holds.reads he h, ?_⟩
    simp only [Watch.after]
    split <;> exact id
  | changes ok => exact (Holds.changes he h).imp_right of_steps
  | calls ok => exact (Holds.calls he h).imp_right of_steps
  | restarts => exact ⟨steady_of_none (hopens _), id⟩

/-- What the plan of each delivery keeps when it is taken up is kept by the run. -/
theorem invariant_run {A : Audience} (hopens : ∀ c, opens c = .new A (opens c).floor) (w : Account)
    {es : List Incident} (hall : ∀ e ∈ es, allowed e) (hG : G w)
    (htakes : ∀ es₁ es₂ d, es = es₁ ++ .begins :: es₂ →
      ((start opens w).run opens es₁).session.upNext? = some d →
      G ((start opens w).run opens es₁).account →
      (A.plan d).Preserves allowed G ((start opens w).run opens es₁).account) :
    G ((start opens w).run opens es).account := by
  have hnew : ∀ c, (opens c).work = none ∧ (opens c).audience = A := fun c => by
    rw [hopens]
    exact ⟨rfl, rfl⟩
  -- `htakes` speaks of what came before an incident, so the run grows at its end
  suffices h : ∀ es', es' <+: es → ((start opens w).run opens es').Steady allowed G ∧
      G ((start opens w).run opens es').account from (h es List.prefix_rfl).2
  intro es'
  induction es' using List.reverseRecOn with
  | nil => exact fun _ => ⟨steady_of_none (hnew _).1, hG⟩
  | append_singleton es₁ e ih =>
    intro hpre
    obtain ⟨hsteady, hG₁⟩ := ih ((List.prefix_append _ _).trans hpre)
    have haudience := audience_run (a := start opens w) hopens (hnew _).2 es₁
    obtain ⟨es₂, rfl⟩ := hpre
    obtain ⟨hsteady', hstep⟩ := hsteady.after (fun c => (hnew c).1)
      (hall e (by simp)) fun hbegins d hd => by
        rw [haudience]
        exact htakes es₁ es₂ d (by rw [hbegins, List.append_assoc, List.singleton_append]) hd hG₁
    rw [run_append, run_cons, run_nil]
    exact ⟨hsteady', hstep hG₁⟩

end Watch

/-! ## Calls by their number -/

namespace Account

/-- The call with this number was about `n` and failed. -/
def Failed (w : Account) (k : Nat) (n : Notice) : Prop := w.told[k]? = some (n, false)

/-- The calls after the one with this number. -/
def since (w : Account) (k : Nat) : List (Notice × Bool) := w.told.drop (k + 1)

variable {w : Account} {k : Nat} {n : Notice}

theorem Failed.lt (h : w.Failed k n) : k < w.told.length := (List.getElem?_eq_some_iff.1 h).1

theorem not_failed_of_le (h : w.told.length ≤ k) : ¬ w.Failed k n := fun hf =>
  absurd hf.lt (Nat.not_lt.2 h)

theorem failed_tell {m : Notice} {ok : Bool} (h : (w.tell m ok).Failed k n) :
    w.Failed k n ∨ m = n ∧ ok = false := by
  unfold Failed at h
  rw [tell_told, List.getElem?_append] at h
  split_ifs at h with hk
  · exact Or.inl h
  · have hmem := List.mem_of_getElem? h
    rw [List.mem_singleton, Prod.mk.injEq] at hmem
    exact Or.inr ⟨hmem.1.symm, hmem.2.symm⟩

theorem failed_tells {e : EventNotice} {rs : List (EventNotice × Bool)}
    (h : (w.tells rs).Failed k (.event e)) : w.Failed k (.event e) ∨ (e, false) ∈ rs := by
  unfold Failed tells at h
  rw [List.getElem?_append] at h
  split_ifs at h with hk
  · exact Or.inl h
  · obtain ⟨x, hx, heq⟩ := List.mem_map.1 (List.mem_of_getElem? h)
    simp only [Prod.mk.injEq, Notice.event.injEq] at heq
    exact Or.inr (by rwa [← heq.1, ← heq.2])

theorem Failed.since_tell (h : w.Failed k n) (m : Notice) (ok : Bool) :
    (w.tell m ok).since k = w.since k ++ [(m, ok)] :=
  List.drop_append_of_le_length h.lt

theorem Failed.since_tells (h : w.Failed k n) (rs : List (EventNotice × Bool)) :
    (w.tells rs).since k = w.since k ++ rs.map fun x => (.event x.1, x.2) :=
  List.drop_append_of_le_length h.lt

end Account

/-! ## The events of a contract listener -/

/-- One of these deliveries brought the transaction of `e` again, and all its events were told one
after the other, with all calls successful. -/
def EventFilter.Redelivers (f : EventFilter) (e : EventNotice) (ds : List Delivery)
    (told : List (Notice × Bool)) : Prop :=
  ∃ peer b t, .block peer b ∈ ds ∧ b.number = e.block ∧ t ∈ b.transactions ∧
    t.id = e.transaction ∧ f.notices e.block t ≠ [] ∧
    (f.notices e.block t).map (fun x => (.event x, true)) <:+: told

/-- A block has a transaction with events, as that of `e`. -/
def EventFilter.Brings (f : EventFilter) (e : EventNotice) (ts : List BlockTransaction) : Prop :=
  ∃ t ∈ ts, t.id = e.transaction ∧ f.notices e.block t ≠ []

/-- The checkpoint is at the block of the event, and its transaction is not recorded. -/
def Checkpoint.StaysAt (c : Checkpoint) (e : EventNotice) : Prop :=
  c.next = some e.block ∧ e.transaction ∉ c.delivered

/-- Once the call with number `k` about the event `e` has failed, one of these deliveries brings its
transaction again and all is taken, or the checkpoint stays at it. -/
def EventFilter.Owes (f : EventFilter) (k : Nat) (e : EventNotice) (ds : List Delivery)
    (w : Account) : Prop :=
  w.Failed k (.event e) → f.Redelivers e ds (w.since k) ∨ w.checkpoint.StaysAt e

/-- What holds between two transactions of a block, once the call has failed.  If the block has the
transaction of `e` still to come, it is among the deliveries that bring it again. -/
structure Between (f : EventFilter) (k : Nat) (e : EventNotice) (ds : List Delivery) (peer : String)
    (b : Block) (delivered : List String) (complete : Bool) (ts : List BlockTransaction)
    (w : Account) : Prop where
  at_block : AtTransactions f b.number delivered ts w
  sub : ∀ t ∈ ts, t ∈ b.transactions
  kept : ∀ id ∈ delivered, id ∈ w.checkpoint.delivered
  again : w.Failed k (.event e) → f.Brings e ts → .block peer b ∈ ds
  owes : w.Failed k (.event e) → f.Redelivers e ds (w.since k) ∨
    w.checkpoint.StaysAt e ∧ (complete = false ∨ f.Brings e ts)

section Contract

variable {f : EventFilter} {k : Nat} {e : EventNotice} {ds : List Delivery} {peer : String}
  {b : Block} {delivered : List String} {complete : Bool} {t : BlockTransaction}
  {ts : List BlockTransaction} {w : Account}

theorem EventFilter.Redelivers.append {told : List (Notice × Bool)} (h : f.Redelivers e ds told)
    (more : List (Notice × Bool)) : f.Redelivers e ds (told ++ more) := by
  obtain ⟨peer, b, t, hb, hn, ht, hid, hne, hin⟩ := h
  exact ⟨peer, b, t, hb, hn, ht, hid, hne, hin.trans (List.prefix_append told more).isInfix⟩

theorem EventFilter.Brings.tail (h : f.Brings e (t :: ts))
    (ht : t.id = e.transaction → f.notices e.block t = []) : f.Brings e ts := by
  obtain ⟨t', ht', hid, hne⟩ := h
  rcases List.mem_cons.1 ht' with rfl | ht'
  · exact absurd (ht hid) hne
  · exact ⟨t', ht', hid, hne⟩

theorem EventFilter.Brings.cons (h : f.Brings e ts) : f.Brings e (t :: ts) := by
  obtain ⟨t', ht', h⟩ := h
  exact ⟨t', List.mem_cons_of_mem _ ht', h⟩

theorem Between.owes_of (h : Between f k e ds peer b delivered complete ts w) : f.Owes k e ds w :=
  fun hfailed => (h.owes hfailed).imp_right And.left

/-- The calls about a transaction that the checkpoint did not have when the block was entered. -/
theorem Between.tells (h : Between f k e ds peer b delivered complete (t :: ts) w)
    (hid : t.id ∉ delivered) {rs : List (EventNotice × Bool)}
    (hrs : ∀ x ∈ rs, x.1 ∈ f.notices b.number t) : f.Owes k e ds (w.tells rs) := by
  intro hfailed
  rcases Account.failed_tells hfailed with hold | hnew
  · rw [hold.since_tells]
    exact (h.owes_of hold).imp_left fun hr => hr.append _
  · have hmem := hrs _ hnew
    obtain ⟨hb, ht⟩ := EventFilter.of_mem_notices hmem
    refine Or.inr ⟨hb ▸ h.at_block.1, fun hd => hid ?_⟩
    rw [ht] at hd
    exact h.at_block.2.2 t List.mem_cons_self (List.ne_nil_of_mem hmem) hd

theorem Between.skip (h : Between f k e ds peer b delivered complete (t :: ts) w)
    (hskip : f.notices b.number t = [] ∨ t.id ∈ delivered) :
    Between f k e ds peer b delivered complete ts w where
  at_block := h.at_block.tail
  sub t' ht' := h.sub t' (List.mem_cons_of_mem _ ht')
  kept := h.kept
  again hfailed hbrings := h.again hfailed hbrings.cons
  owes hfailed := by
    refine (h.owes hfailed).imp_right ?_
    rintro ⟨hstays, hcase⟩
    refine ⟨hstays, hcase.imp_right fun hbrings => ?_⟩
    have hn : e.block = b.number := Option.some.inj (hstays.1.symm.trans h.at_block.1)
    -- what is passed over though it has events is recorded, and that the transaction is not
    refine hbrings.tail fun hid => hn ▸ hskip.resolve_right fun hmem => hstays.2 ?_
    exact hid ▸ h.kept _ hmem

/-- The other transactions with events of a block have other ids than this one. -/
theorem Between.not_brings (h : Between f k e ds peer b delivered complete (t :: ts) w)
    (hmem : e ∈ f.notices b.number t) : ¬ f.Brings e ts := by
  rintro ⟨t', ht', hid, hne⟩
  obtain ⟨-, ht⟩ := EventFilter.of_mem_notices hmem
  exact (List.pairwise_cons.1 h.at_block.2.1).1 t' ht'
    (EventFilter.isValid_of_notices (List.ne_nil_of_mem hmem))
    (EventFilter.isValid_of_notices hne) (ht.symm.trans hid.symm)

theorem Between.fail (h : Between f k e ds peer b delivered complete (t :: ts) w)
    (hid : t.id ∉ delivered) {rs : List (EventNotice × Bool)}
    (hrs : rs.map Prod.fst = f.notices b.number t) :
    Between f k e ds peer b delivered false ts (w.tells rs) := by
  have hin : ∀ x ∈ rs, x.1 ∈ f.notices b.number t := fun x hx => hrs ▸ List.mem_map_of_mem hx
  refine ⟨h.at_block.tail, fun t' ht' => h.sub t' (List.mem_cons_of_mem _ ht'), h.kept,
    fun hfailed hbrings => ?_, fun hfailed =>
      (h.tells hid hin hfailed).imp_right fun hstays => ⟨hstays, Or.inl rfl⟩⟩
  rcases Account.failed_tells hfailed with hold | hnew
  · exact h.again hold hbrings.cons
  · exact absurd hbrings (h.not_brings (hin _ hnew))

theorem Between.record (h : Between f k e ds peer b delivered complete (t :: ts) w)
    {rs : List (EventNotice × Bool)} (hrs : rs.map Prod.fst = f.notices b.number t)
    (hne : rs ≠ []) (hall : ∀ x ∈ rs, x.2 = true) :
    Between f k e ds peer b delivered complete ts ((w.tells rs).change (.record t.id)) := by
  have ht : f.notices b.number t ≠ [] := by
    rw [← hrs]
    simpa using hne
  have hat : AtTransactions f b.number delivered (t :: ts) (w.tells rs) := h.at_block
  have hold (hfailed : ((w.tells rs).change (.record t.id)).Failed k (.event e)) :
      w.Failed k (.event e) := by
    refine (Account.failed_tells hfailed).resolve_right fun hmem => ?_
    cases hall _ hmem
  refine ⟨hat.record ht, fun t' ht' => h.sub t' (List.mem_cons_of_mem _ ht'),
    fun id hd => Checkpoint.mem_insert.2 (Or.inr (h.kept id hd)),
    fun hfailed hbrings => h.again (hold hfailed) hbrings.cons, fun hfailed => ?_⟩
  have hsince : ((w.tells rs).change (.record t.id)).since k =
      w.since k ++ (f.notices b.number t).map fun x => (.event x, true) := by
    rw [← hrs, List.map_map]
    refine ((hold hfailed).since_tells rs).trans
      (congrArg _ (List.map_congr_left fun x hx => ?_))
    rw [Function.comp_apply, hall x hx]
  rw [hsince]
  rcases h.owes (hold hfailed) with hr | ⟨hstays, hcase⟩
  · exact Or.inl (hr.append _)
  · have hn : e.block = b.number := Option.some.inj (hstays.1.symm.trans h.at_block.1)
    by_cases hid : t.id = e.transaction
    · have hmem := h.again (hold hfailed) ⟨t, List.mem_cons_self, hid, hn ▸ ht⟩
      refine Or.inl ⟨peer, b, t, hmem, hn.symm, h.sub t List.mem_cons_self, hid, hn ▸ ht, ?_⟩
      rw [hn]
      exact (List.suffix_append _ _).isInfix
    · refine Or.inr ⟨⟨hstays.1, fun hmem => ?_⟩,
        hcase.imp_right fun hbrings => hbrings.tail fun heq => absurd heq hid⟩
      rcases Checkpoint.mem_insert.1 hmem with heq | hmem
      · exact hid heq.symm
      · exact hstays.2 hmem

theorem Between.finish (h : Between f k e ds peer b delivered true [] w) :
    f.Owes k e ds (w.change (.moveTo (b.number + 1))) := by
  intro hfailed
  refine Or.inl ((h.owes hfailed).resolve_right ?_)
  rintro ⟨-, hfalse | ⟨t, ht, -⟩⟩
  · cases hfalse
  · cases ht

variable (peer) {allowed : Incident → Prop} (stores : ∀ e, allowed e → e.Stores)

include stores

theorem blockRule_owes : BlockRule allowed (fun w w' => f.Owes k e ds w → f.Owes k e ds w')
    (fun _ => True) f b.number delivered (Between f k e ds peer b delivered) where
  skips h hskip := h.skip hskip
  tells := by
    intro complete t ts w h hid rs x r es hes _ _ _
    refine h.tells hid fun y hy => ?_
    rw [hes]
    rcases List.mem_append.1 hy with hy | hy
    · exact List.mem_append_left _ (List.mem_map_of_mem hy)
    · obtain rfl := List.mem_singleton.1 hy
      exact List.mem_append_right _ List.mem_cons_self
  fails h hid rs hrs _ _ := h.fail hid hrs
  records := by
    intro complete t ts w h _ rs hrs hne _ hall ok hok
    obtain rfl : ok = true := stores _ hok
    have h' := h.record hrs hne hall
    exact ⟨fun _ => h'.owes_of, h'⟩
  leaves _ := trivial
  ends := by
    intro w h ok hok
    obtain rfl : ok = true := stores _ hok
    exact ⟨fun _ => h.finish, trivial⟩

/-- A block that is taken up leaves what is owed, if the call has not failed yet, or if it is one of
the deliveries and is before the event's block, or is this block and brings the transaction. -/
theorem preserves_ofContract (hb : b.Distinct) (hG : f.Owes k e ds w)
    (hcase : w.Failed k (.event e) → .block peer b ∈ ds ∧
      (b.number < e.block ∨ b.number = e.block ∧ f.Brings e b.transactions)) :
    (Plan.ofContract true f b).Preserves allowed (f.Owes k e ds) w := by
  refine Plan.keeps_ofContract (fun _ hok => stores _ hok) (fun _ => trivial) (fun hn => ?_)
    fun hlt ok hok => ?_
  · refine (blockRule_owes peer stores).keeps ⟨⟨hn, hb, fun _ _ _ hd => hd⟩,
      fun _ ht => ht, fun _ hd => hd, fun hfailed _ => (hcase hfailed).1, ?_⟩
    refine fun hfailed => (hG hfailed).imp_right fun hstays => ⟨hstays, Or.inr ?_⟩
    have heq : e.block = b.number := Option.some.inj (hstays.1.symm.trans hn)
    rcases (hcase hfailed).2 with hlt | ⟨-, hbrings⟩
    · omega
    · exact hbrings
  · obtain rfl : ok = true := stores _ hok
    have hredelivers : w.Failed k (.event e) → f.Redelivers e ds (w.since k) := fun hfailed =>
      (hG hfailed).resolve_right fun hstays => by
        have := hlt _ hstays.1
        rcases (hcase hfailed).2 with hless | ⟨heq, -⟩ <;> omega
    exact ⟨fun _ hfailed => Or.inl (hredelivers hfailed), (blockRule_owes peer stores).keeps
      ⟨⟨rfl, hb, fun _ _ _ hd => hd⟩, fun _ ht => ht, fun _ hd => (List.not_mem_nil hd).elim,
        fun hfailed _ => (hcase hfailed).1, fun hfailed => Or.inl (hredelivers hfailed)⟩⟩

end Contract

/-! ## The blocks of a block listener -/

/-- A call about this block or a later one succeeded. -/
def BlockNotice.Succeeds (b : BlockNotice) (told : List (Notice × Bool)) : Prop :=
  ∃ b', (.block b', true) ∈ told ∧ b.block.number ≤ b'.block.number

theorem BlockNotice.Succeeds.append {b : BlockNotice} {told : List (Notice × Bool)}
    (h : b.Succeeds told) (more : List (Notice × Bool)) : b.Succeeds (told ++ more) := by
  obtain ⟨b', hmem, hle⟩ := h
  exact ⟨b', List.mem_append_left _ hmem, hle⟩

/-- Once the call with number `k` about the block `b` has failed, a call about it or a later block
succeeds or the checkpoint is not past it. -/
def BlockNotice.Owes (k : Nat) (b : BlockNotice) (w : Account) : Prop :=
  w.Failed k (.block b) → b.Succeeds (w.since k) ∨ ¬ w.checkpoint.Past b.block.number

theorem BlockNotice.preserves_ofBlock {allowed : Incident → Prop}
    (stores : ∀ e, allowed e → e.Stores) {k : Nat} {b : BlockNotice} (peer : String) (b' : Block)
    {w : Account} (hG : b.Owes k w) :
    (Plan.ofBlock true peer b').Preserves allowed (b.Owes k) w := by
  refine Plan.keeps_ofBlock stores (fun _ => trivial) (fun hnot ok _ hfailed => ?_)
    (fun _ => trivial) fun _ => ⟨fun _ hfailed => ?_, trivial⟩
  · rcases Account.failed_tell hfailed with hold | ⟨heq, -⟩
    · rw [hold.since_tell]
      exact (hG hold).imp_left fun hs => hs.append _
    · obtain rfl := Notice.block.inj heq
      exact Or.inr hnot
  · have hold : w.Failed k (.block b) := (Account.failed_tell hfailed).resolve_right (by simp)
    rcases Nat.lt_or_ge b'.number b.block.number with hlt | hge
    · refine Or.inr fun hpast => ?_
      have := Checkpoint.past_startingAt.1 hpast
      omega
    · refine Or.inl ⟨⟨peer, b'⟩, ?_, hge⟩
      change _ ∈ (w.tell (.block ⟨peer, b'⟩) true).since k
      rw [hold.since_tell]
      exact List.mem_append_right _ List.mem_cons_self

/-! ## Runs in which a call fails -/

/-- Two places in one list, with different things there. -/
theorem append_cons_eq_append_cons {α : Type} {c b : α} (hne : c ≠ b) {xs xs' ys ys' : List α}
    (h : xs ++ c :: xs' = ys ++ b :: ys') :
    (∃ zs, xs = ys ++ b :: zs) ∨ ∃ zs, ys = xs ++ c :: zs ∧ xs' = zs ++ b :: ys' := by
  rcases List.append_eq_append_iff.1 h with ⟨zs, rfl, hzs⟩ | ⟨zs, rfl, hzs⟩
  · cases zs with
    | nil => exact absurd (List.cons.inj hzs).1 hne
    | cons z zs =>
      obtain ⟨rfl, rfl⟩ := List.cons.inj hzs
      exact Or.inr ⟨zs, rfl, rfl⟩
  · cases zs with
    | nil => exact absurd (List.cons.inj hzs).1.symm hne
    | cons z zs =>
      obtain ⟨rfl, -⟩ := List.cons.inj hzs
      exact Or.inl ⟨zs, rfl⟩

namespace Watch

section Runs

variable {s : Subject} {o : ListenerOptions} (ho : o.checkpointer.isSome = true) {w : Account}
  {es es' : List Incident}

include ho

theorem length_told_le (h : ∀ e ∈ es ++ es', e.InOrder) :
    ((start (o.opening s.key) w).run (o.opening s.key) es).account.told.length ≤
      ((start (o.opening s.key) w).run (o.opening s.key) (es ++ es')).account.told.length := by
  obtain ⟨-, more, htold, -⟩ := advances_run s ho w h
  rw [htold, List.length_append]
  omega

variable {l' : ListenerId} {n : Notice}

/-- The call that fails has the number of calls before it. -/
theorem failed_run (h : ∀ e ∈ es ++ .calls false :: es', e.InOrder)
    (hq : ((start (o.opening s.key) w).run (o.opening s.key) es).session.question? =
      some (.tell l' n)) :
    ((start (o.opening s.key) w).run (o.opening s.key)
      (es ++ .calls false :: es')).account.Failed
        ((start (o.opening s.key) w).run (o.opening s.key) es).account.told.length n := by
  have hsplit : es ++ .calls false :: es' = (es ++ [.calls false]) ++ es' := by simp
  rw [hsplit] at h ⊢
  obtain ⟨-, more, htold, -⟩ := advances_run s ho w h
  have hcall : ((start (o.opening s.key) w).run (o.opening s.key)
      (es ++ [.calls false])).account =
        ((start (o.opening s.key) w).run (o.opening s.key) es).account.tell n false := by
    rw [run_append, run_cons, run_nil]
    simp only [after, hq]
  rw [Account.Failed, htold, hcall, Account.tell_told, List.append_assoc]
  simp

/-- What the plans of the blocks that are taken up keep, and what the calls before the failed one
cannot break, holds at the end.  `G` says nothing while the call has not failed. -/
theorem owed_run {G : Account → Prop}
    (hG : ∀ w' : Account, w'.told.length ≤
      ((start (o.opening s.key) w).run (o.opening s.key) es).account.told.length → G w')
    (h : ∀ e ∈ es ++ .calls false :: es', e.InOrder)
    (hfault : ∀ f w', ((s.key.audience o).plan (.fault f)).Preserves Incident.InOrder G w')
    (hblock : ∀ peer b w', b.Distinct → G w' →
      (w'.told.length ≤
          ((start (o.opening s.key) w).run (o.opening s.key) es).account.told.length ∨
        .block peer b ∈ (((start (o.opening s.key) w).run (o.opening s.key) es).after
          (o.opening s.key) (.calls false)).taken (o.opening s.key) es') →
      ((s.key.audience o).plan (.block peer b)).Preserves Incident.InOrder G w') :
    G ((start (o.opening s.key) w).run (o.opening s.key) (es ++ .calls false :: es')).account := by
  have hle : ∀ es₁ {es₂}, es = es₁ ++ es₂ →
      ((start (o.opening s.key) w).run (o.opening s.key) es₁).account.told.length ≤
        ((start (o.opening s.key) w).run (o.opening s.key) es).account.told.length := by
    rintro es₁ es₂ rfl
    exact length_told_le ho fun e he => h e (List.mem_append_left _ he)
  refine invariant_run (A := s.key.audience o) (fun _ => rfl) w h (hG w (hle [] rfl))
    fun es₁ es₂ d heq hd hG₁ => ?_
  cases d with
  | fault f => exact hfault f _
  | block peer b =>
    have hdistinct : b.Distinct := by
      have hmem := (Session.upNext?_eq_some hd).2.2.2
      refine queue_run (o.opening s.key) (P := fun d => ∀ peer b, d = .block peer b → b.Distinct)
        (fun _ => rfl) (fun _ hd => (List.not_mem_nil hd).elim) (fun d hd peer b hdb => ?_) _ hmem
        peer b rfl
      exact (h (.arrives d) (heq ▸ List.mem_append_left _ hd)).2 peer b (hdb ▸ rfl)
    refine hblock peer b _ hdistinct hG₁ ?_
    rcases append_cons_eq_append_cons (by simp) heq with ⟨zs, hzs⟩ | ⟨zs, rfl, rfl⟩
    · exact Or.inl (hle es₁ hzs)
    · rw [run_append, run_cons] at hd
      exact Or.inr (mem_taken (o.opening s.key) hd)

end Runs

/-! ## What is owed -/

section Owed

variable {o : ListenerOptions} (ho : o.checkpointer.isSome = true) {w : Account}
  {es es' : List Incident}

include ho

/-- After a failed call about an event the checkpoint stays at it, as long as nothing but earlier
blocks and the event's own is taken up. -/
theorem event_owed (chaincode : String) (l : ListenerId) {e : EventNotice}
    (h : ∀ e ∈ es ++ .calls false :: es', e.InOrder) :
    let opens := o.opening (.events chaincode l)
    let before := (start opens w).run opens es
    let ds := (before.after opens (.calls false)).taken opens es'
    (∀ peer b, .block peer b ∈ ds →
      b.number < e.block ∨ b.number = e.block ∧ (o.filter chaincode).Brings e b.transactions) →
    (o.filter chaincode).Owes before.account.told.length e ds
      ((start opens w).run opens (es ++ .calls false :: es')).account := by
  intro opens before ds htaken
  refine owed_run (s := .events chaincode l) ho
    (fun w' hle hfailed => absurd hfailed (Account.not_failed_of_le hle)) h
    (fun f w' ok _ => ⟨fun hG hfailed => ?_, trivial⟩) fun peer b w' hb hG hplace => ?_
  · have hold := (Account.failed_tell hfailed).resolve_right (by simp)
    rw [hold.since_tell]
    exact (hG hold).imp_left fun hr => hr.append _
  · simp only [Subject.key, ListenerKey.audience, Audience.plan, ho]
    refine preserves_ofContract peer (fun _ he => he.1) hb hG fun hfailed => ?_
    have hmem : .block peer b ∈ ds :=
      hplace.resolve_left fun hle => Account.not_failed_of_le hle hfailed
    exact ⟨hmem, htaken peer b hmem⟩

/-- After a failed call about a block the checkpoint is not past it, as long as no call about it or
a later block succeeds. -/
theorem block_owed (l : ListenerId) (b : BlockNotice)
    (h : ∀ e ∈ es ++ .calls false :: es', e.InOrder) :
    let opens := o.opening (.blocks l)
    b.Owes ((start opens w).run opens es).account.told.length
      ((start opens w).run opens (es ++ .calls false :: es')).account := by
  intro opens
  refine owed_run (s := .blocks l) ho
    (fun w' hle hfailed => absurd hfailed (Account.not_failed_of_le hle)) h
    (fun f w' ok _ => ⟨fun hG hfailed => ?_, trivial⟩) fun peer b' w' _ hG _ => ?_
  · have hold := (Account.failed_tell hfailed).resolve_right (by simp)
    rw [hold.since_tell]
    exact (hG hold).imp_left fun hs => hs.append _
  · simp only [Subject.key, ListenerKey.audience, Audience.plan, ho]
    exact BlockNotice.preserves_ofBlock (fun _ he => he.1) peer b' hG

end Owed

end Watch

end LedgerClient
