import LedgerClient.Proofs.ToldAgain

/-!
# Recorded ids

A contract listener's checkpoint holds a block number and ids of transactions, and the two are
written by calls of their own, each of which may fail.  An id is recorded only when all events of
its transaction were told and taken, whatever fails (`EventFilter.Earns`).  Which block stands
beside it is another matter: a listener that cannot read where its checkpoint is, or cannot move it
to the block that it takes up, goes through the block all the same (`Watch.EntersInVain`).

`Watch.recorded_ids_belong` says that this is the only way in which an id comes to stand beside a
number that is not its block's, or beside none; `ids_beside_another_block` has a run for either.
-/

namespace LedgerClient

/-! ## What is recorded -/

/-- A valid transaction of the block has this id and events to tell, and they were told one after
the other, with all calls successful. -/
def EventFilter.Earns (f : EventFilter) (b : Block) (id : String) (told : List (Notice × Bool)) :
    Prop :=
  ∃ t ∈ b.transactions, t.id = id ∧ t.code.isValid = true ∧ f.notices b.number t ≠ [] ∧
    (f.notices b.number t).map (fun x => (.event x, true)) <:+: told

/-- The checkpoint is at the block, or `vain` says of its position that the block was entered
there. -/
def Checkpoint.Hosts (vain : Option Nat → Nat → Prop) (c : Checkpoint) (n : Nat) : Prop :=
  c.next = some n ∨ vain c.next n

/-- Each recorded id was earned in one of the blocks, which the checkpoint hosts. -/
def EventFilter.Accounts (f : EventFilter) (came : Block → Prop) (vain : Option Nat → Nat → Prop)
    (w : Account) : Prop :=
  ∀ id ∈ w.checkpoint.delivered, ∃ b, came b ∧ f.Earns b id w.told ∧
    w.checkpoint.Hosts vain b.number

section Accounts

variable {f : EventFilter} {came : Block → Prop} {vain : Option Nat → Nat → Prop} {w : Account}

theorem EventFilter.Earns.append {b : Block} {id : String} {told : List (Notice × Bool)}
    (h : f.Earns b id told) (more : List (Notice × Bool)) : f.Earns b id (told ++ more) := by
  obtain ⟨t, ht, hid, hvalid, hne, hin⟩ := h
  exact ⟨t, ht, hid, hvalid, hne, hin.trans (List.prefix_append told more).isInfix⟩

/-- Once the calls about a transaction have all succeeded, its id is earned. -/
theorem EventFilter.earns_tells {b : Block} {t : BlockTransaction} (ht : t ∈ b.transactions)
    {rs : List (EventNotice × Bool)} (hrs : rs.map Prod.fst = f.notices b.number t) (hne : rs ≠ [])
    (hok : ∀ x ∈ rs, x.2 = true) : f.Earns b t.id (w.tells rs).told := by
  have hnotices : f.notices b.number t ≠ [] := by
    rw [← hrs]
    simpa using hne
  refine ⟨t, ht, rfl, EventFilter.isValid_of_notices hnotices, hnotices, ?_⟩
  have hcalls : (f.notices b.number t).map (fun x => (Notice.event x, true)) =
      rs.map fun x => (.event x.1, x.2) := by
    rw [← hrs, List.map_map]
    exact List.map_congr_left fun x hx => by simp [hok x hx]
  rw [hcalls]
  exact (List.suffix_append _ _).isInfix

theorem EventFilter.Accounts.append (h : f.Accounts came vain w) (more : List (Notice × Bool)) :
    f.Accounts came vain { w with told := w.told ++ more } := by
  intro id hid
  obtain ⟨b, hb, hearns, hhosts⟩ := h id hid
  exact ⟨b, hb, hearns.append more, hhosts⟩

theorem EventFilter.accounts_moveTo (n : Nat) :
    f.Accounts came vain (w.change (.moveTo n)) := fun _ hid => (List.not_mem_nil hid).elim

theorem EventFilter.Accounts.record (h : f.Accounts came vain w) {b : Block} (hb : came b)
    {id : String} (hid : f.Earns b id w.told) (hosts : w.checkpoint.Hosts vain b.number) :
    f.Accounts came vain (w.change (.record id)) := by
  intro id' hid'
  rcases Checkpoint.mem_insert.1 hid' with rfl | hold
  · exact ⟨b, hb, hid, hosts⟩
  · exact h id' hold

theorem blockRule_accounts {b : Block} (hb : came b) (delivered : List String) :
    BlockRule (fun _ => True) (fun w w' => f.Accounts came vain w → f.Accounts came vain w')
      (fun _ => True) f b.number delivered
      (fun _ ts w => (∀ t ∈ ts, t ∈ b.transactions) ∧ w.checkpoint.Hosts vain b.number) where
  skips h _ := ⟨fun t ht => h.1 t (List.mem_cons_of_mem _ ht), h.2⟩
  tells := by
    intro _ _ _ w _ _ rs e r _ _ _ _ hG
    have := hG.append [(.event e, r)]
    simpa [Account.tells] using this
  fails h _ _ _ _ _ := ⟨fun t ht => h.1 t (List.mem_cons_of_mem _ ht), h.2⟩
  records := by
    intro _ t ts w h _ rs hrs hne _ hok stored _
    have hearns := EventFilter.earns_tells (w := w) (h.1 t List.mem_cons_self) hrs hne hok
    have htail : ∀ t' ∈ ts, t' ∈ b.transactions := fun t' ht' => h.1 t' (List.mem_cons_of_mem _ ht')
    cases stored with
    | false => exact ⟨id, htail, h.2⟩
    | true => exact ⟨fun hG => hG.record hb hearns h.2, htail, h.2⟩
  leaves _ := trivial
  ends := by
    intro w _ stored _
    cases stored with
    | false => exact ⟨id, trivial⟩
    | true => exact ⟨fun _ => EventFilter.accounts_moveTo _, trivial⟩

/-- A contract listener that goes through a block which its checkpoint hosts. -/
theorem preserves_accounts {b : Block} (hb : came b) (delivered : List String)
    (hosts : w.checkpoint.Hosts vain b.number) :
    (Plan.ofTransactions true f b.number delivered true b.transactions).Preserves (fun _ => True)
      (f.Accounts came vain) w :=
  (blockRule_accounts hb delivered).keeps ⟨fun _ ht => ht, hosts⟩

end Accounts

/-! ## Entering a block -/

namespace Watch

/-- The session enters a block without its checkpoint: it cannot read where it is, or cannot move
it to the block. -/
def EntersInVain (a : Watch) (e : Incident) (n : Nat) : Prop :=
  (∃ go, a.session.work = some (some n, .askNext go) ∧ e = .reads false) ∨
    ∃ go, a.session.work = some (some n, .change (.moveTo n) go) ∧ e = .changes false

/-- The checkpoint is to be moved to the block before its transactions are gone through. -/
def Moving (f : EventFilter) (b : Block) (p : Plan) : Prop :=
  p = .change (.moveTo b.number) (.ofTransactions true f b.number [] true b.transactions)

/-- The steps that are left when a block was taken up and is not entered yet. -/
def Entering (f : EventFilter) (b : Block) (p : Plan) : Prop :=
  p = .ofContract true f b ∨ Moving f b p

/-- What holds of a session between two incidents: it is entering a block, or what is left of its
work keeps the ids accounted for. -/
def Recording (f : EventFilter) (came : Block → Prop) (vain : Option Nat → Nat → Prop)
    (a : Watch) : Prop :=
  (∃ b p, came b ∧ Entering f b p ∧ a.session.work = some (some b.number, p)) ∨
    a.Steady (fun _ => True) (f.Accounts came vain)

section Recording

variable {f : EventFilter} {came : Block → Prop} {vain : Option Nat → Nat → Prop} {a : Watch}
  {opens : Checkpoint → Session}

theorem Recording.of_work (h : Recording f came vain a) {b : Watch}
    (hw : b.session.work = a.session.work) (hacc : b.account = a.account) :
    Recording f came vain b := by
  rcases h with ⟨b, p, hb, hp, hwork⟩ | hsteady
  · exact Or.inl ⟨b, p, hb, hp, hw.trans hwork⟩
  · exact Or.inr (hsteady.of_work hw hacc)

theorem recording_follow {s : Session} {w : Account} {b : Block} {p : Plan} (hb : came b)
    (hp : Moving f b p ∨ p.Preserves (fun _ => True) (f.Accounts came vain) w) :
    Recording f came vain ⟨s.follow (some b.number) p, w⟩ := by
  rcases hp with rfl | hp
  · exact Or.inl ⟨b, _, hb, Or.inr rfl, rfl⟩
  · exact Or.inr (steady_follow hp)

variable (f came vain) in
/-- How a block is entered once the checkpointer was asked where the checkpoint is. -/
theorem ofContract_asks {b : Block} (hb : came b) :
    ∃ go, Plan.ofContract true f b = .askNext go ∧ ∀ (w : Account) (ok : Bool),
      (ok = false → vain w.checkpoint.next b.number) →
      Moving f b (go (if ok then some w.checkpoint.next else none)) ∨
        (go (if ok then some w.checkpoint.next else none)).Preserves (fun _ => True)
          (f.Accounts came vain) w := by
  refine ⟨_, rfl, fun w ok hvain => ?_⟩
  cases ok with
  | false => exact Or.inr (preserves_accounts hb [] (Or.inr (hvain rfl)))
  | true =>
    rw [if_pos rfl]
    cases hn : w.checkpoint.next with
    | none => exact Or.inl rfl
    | some next =>
      dsimp only
      split_ifs with hlt heq
      · exact Or.inr trivial
      · subst heq
        exact Or.inr fun _ _ => preserves_accounts hb _ (Or.inl hn)
      · exact Or.inl rfl

theorem Recording.enter {b : Block} {p : Plan} (hb : came b) (hp : Entering f b p)
    (hw : a.session.work = some (some b.number, p)) (hG : f.Accounts came vain a.account)
    {e : Incident} (he : ∀ n, a.EntersInVain e n → vain a.account.checkpoint.next n)
    (hopens : ∀ c, (opens c).work = none) :
    Recording f came vain (a.after opens e) ∧ f.Accounts came vain (a.after opens e).account := by
  have same {a' : Watch} (hw' : a'.session.work = a.session.work)
      (hacc : a'.account = a.account) :
      Recording f came vain a' ∧ f.Accounts came vain a'.account :=
    ⟨Recording.of_work (Or.inl ⟨b, p, hb, hp, hw⟩) hw' hacc, by rwa [hacc]⟩
  cases e with
  | arrives d =>
    refine same ?_ rfl
    simp only [after, Session.deliver]
    split_ifs <;> rfl
  | removed => exact same rfl rfl
  | begins =>
    rcases a.session.take_upNext? with ⟨d, rest, hd, -⟩ | ⟨-, htake⟩
    · rw [(Session.upNext?_eq_some hd).1] at hw
      cases hw
    · exact same htake rfl
  | restarts => exact ⟨Or.inr (steady_of_none (hopens _)), hG⟩
  | reads ok =>
    rcases hp with rfl | rfl
    · obtain ⟨go, hgo, hgoes⟩ := ofContract_asks f came vain hb
      rw [hgo] at hw
      simp only [after, Session.question?, Session.answer, hw]
      refine ⟨recording_follow hb (hgoes a.account ok fun hfails => ?_), hG⟩
      exact he b.number (Or.inl ⟨go, hw, by rw [hfails]⟩)
    · simpa only [after, Session.question?, hw] using same rfl rfl
  | changes ok =>
    rcases hp with rfl | rfl
    · obtain ⟨go, hgo, -⟩ := ofContract_asks f came vain hb
      rw [hgo] at hw
      simpa only [after, Session.question?, hw] using same rfl rfl
    · simp only [after, Session.question?, Session.answer, hw]
      cases ok with
      | false =>
        have hosts : a.account.checkpoint.Hosts vain b.number :=
          Or.inr (he b.number (Or.inr ⟨_, hw, rfl⟩))
        exact ⟨recording_follow hb (Or.inr (preserves_accounts hb [] hosts)), hG⟩
      | true =>
        have hosts : (a.account.change (.moveTo b.number)).checkpoint.Hosts vain b.number :=
          Or.inl rfl
        exact ⟨recording_follow hb (Or.inr (preserves_accounts hb [] hosts)),
          EventFilter.accounts_moveTo _⟩
  | calls ok =>
    rcases hp with rfl | rfl
    · obtain ⟨go, hgo, -⟩ := ofContract_asks f came vain hb
      rw [hgo] at hw
      simpa only [after, Session.question?, hw] using same rfl rfl
    · simpa only [after, Session.question?, hw] using same rfl rfl

theorem Recording.go_on {l : ListenerId} {c : Option String} (hc : c.isSome = true)
    (ha : a.session.audience = .contract l f c)
    (hqueue : ∀ d ∈ a.session.queue, ∀ peer b, d = .block peer b → came b)
    (h : a.Steady (fun _ => True) (f.Accounts came vain)) (hG : f.Accounts came vain a.account)
    (e : Incident) (hopens : ∀ c, (opens c).work = none) :
    Recording f came vain (a.after opens e) ∧ f.Accounts came vain (a.after opens e).account := by
  by_cases htakes : ∃ peer b, e = .begins ∧ a.session.upNext? = some (.block peer b)
  · obtain ⟨peer, b, rfl, hd⟩ := htakes
    have hb : came b := hqueue _ (Session.upNext?_eq_some hd).2.2.2 peer b rfl
    rcases a.session.take_upNext? with ⟨d, rest, hd', ht⟩ | ⟨hnone, -⟩
    · obtain rfl := Option.some.inj (hd.symm.trans hd')
      refine ⟨Or.inl ⟨b, _, hb, Or.inl rfl, ?_⟩, hG⟩
      obtain ⟨go, hgo, -⟩ := ofContract_asks f came vain hb
      simp only [after, ht, ha, Audience.plan, hc, hgo]
      rfl
    · rw [hd] at hnone
      cases hnone
  · obtain ⟨hsteady, hstep⟩ := h.after hopens (e := e) trivial fun hbegins d hd => by
      rw [ha]
      cases d with
      | block peer b => exact absurd ⟨peer, b, hbegins, hd⟩ htakes
      | fault p => exact fun ok _ => ⟨fun hw => hw.append [(.fault p, ok)], trivial⟩
    exact ⟨Or.inr hsteady, hstep hG⟩

theorem Recording.after {l : ListenerId} {c : Option String} (hc : c.isSome = true)
    (ha : a.session.audience = .contract l f c)
    (hqueue : ∀ d ∈ a.session.queue, ∀ peer b, d = .block peer b → came b)
    (h : Recording f came vain a) (hG : f.Accounts came vain a.account) {e : Incident}
    (he : ∀ n, a.EntersInVain e n → vain a.account.checkpoint.next n)
    (hopens : ∀ c, (opens c).work = none) :
    Recording f came vain (a.after opens e) ∧ f.Accounts came vain (a.after opens e).account := by
  rcases h with ⟨b, p, hb, hp, hw⟩ | hsteady
  · exact Recording.enter hb hp hw hG he hopens
  · exact Recording.go_on hc ha hqueue hsteady hG e hopens

end Recording

/-! ## Runs -/

/-- Take any moment of the life of a contract listener with a checkpointer of its own, empty at
first: any blocks, answers of the listener, readings and changes of the checkpoint that fail,
restarts and a removal.  Each id that is recorded then is that of a valid transaction of a block
that came, all its events were told and taken, and its block's number stands beside it, unless the
block was entered in vain when the checkpoint was where it is now. -/
theorem recorded_ids_belong (o : ListenerOptions) (ho : o.checkpointer.isSome = true)
    (chaincode : String) (l : ListenerId) (es : List Incident) :
    let opens := o.opening (.events chaincode l)
    let atEnd (es' : List Incident) := (start opens ⟨.empty, []⟩).run opens es'
    let checkpoint := (atEnd es).account.checkpoint
    ∀ id ∈ checkpoint.delivered, ∃ b, (∃ peer, .arrives (.block peer b) ∈ es) ∧
      (o.filter chaincode).Earns b id (atEnd es).account.told ∧
      (checkpoint.next = some b.number ∨
        ∃ es₁ e es₂, es = es₁ ++ e :: es₂ ∧ (atEnd es₁).EntersInVain e b.number ∧
          (atEnd es₁).account.checkpoint.next = checkpoint.next) := by
  intro opens atEnd
  let came (b : Block) : Prop := ∃ peer, .arrives (.block peer b) ∈ es
  let vain (next : Option Nat) (n : Nat) : Prop :=
    ∃ es₁ e es₂, es = es₁ ++ e :: es₂ ∧ (atEnd es₁).EntersInVain e n ∧
      (atEnd es₁).account.checkpoint.next = next
  have hopens : ∀ c, (opens c).work = none := fun _ => rfl
  -- what is said of the whole run is kept by each incident of it, so the run grows at its end
  suffices h : ∀ es', es' <+: es → Recording (o.filter chaincode) came vain (atEnd es') ∧
      (o.filter chaincode).Accounts came vain (atEnd es').account from (h es List.prefix_rfl).2
  intro es'
  induction es' using List.reverseRecOn with
  | nil =>
    exact fun _ => ⟨Or.inr (steady_of_none rfl), fun _ hid => (List.not_mem_nil hid).elim⟩
  | append_singleton es₁ e ih =>
    intro hpre
    obtain ⟨hrecording, hG⟩ := ih ((List.prefix_append _ _).trans hpre)
    obtain ⟨es₂, hes⟩ := hpre
    rw [List.append_assoc, List.singleton_append] at hes
    have haudience : (atEnd es₁).session.audience =
        .contract l (o.filter chaincode) o.checkpointer :=
      audience_run (a := start opens ⟨.empty, []⟩) (fun _ => rfl) rfl es₁
    have hqueue : ∀ d ∈ (atEnd es₁).session.queue, ∀ peer b, d = .block peer b → came b :=
      queue_run opens (fun _ => rfl) (fun _ hd => (List.not_mem_nil hd).elim)
        fun d hd peer b heq => ⟨peer, by
          rw [← hes, ← heq]
          exact List.mem_append_left _ hd⟩
    have hstep := hrecording.after ho haudience hqueue hG
      (fun n hvain => ⟨es₁, e, es₂, hes.symm, hvain, rfl⟩) hopens
    simpa only [atEnd, run_append, run_cons, run_nil] using hstep

end Watch

/-- The checkpoint cannot be moved to the next block, whose transaction is taken and recorded. -/
def enteredInVain : List Incident :=
  secondFails ++ [.arrives (.block "peer" mintLater), .begins, .reads true, .changes false,
    .calls true, .changes true]

/-- The id of block 8 stands beside block 7, and it was earned. -/
theorem third_recorded_in_vain :
    let opens := tokenOptions.opening (.events "token" (.app "l"))
    let atEnd := (Watch.start opens ⟨.empty, []⟩).run opens enteredInVain
    atEnd.account.checkpoint = ⟨some 7, ["first", "third"]⟩ ∧
      ∃ b, (tokenOptions.filter "token").Earns b "third" atEnd.account.told ∧
        (some 7 = some b.number ∨ ∃ es₁ e es₂, enteredInVain = es₁ ++ e :: es₂ ∧
          ((Watch.start opens ⟨.empty, []⟩).run opens es₁).EntersInVain e b.number) := by
  obtain ⟨b, -, hearns, hhosts⟩ := Watch.recorded_ids_belong tokenOptions rfl "token" (.app "l")
    enteredInVain "third" (by decide)
  refine ⟨rfl, b, hearns, hhosts.imp_right ?_⟩
  rintro ⟨es₁, e, es₂, hes, hvain, -⟩
  exact ⟨es₁, e, es₂, hes, hvain⟩

/-- An empty checkpoint cannot be moved to the first block, whose first transaction is taken. -/
def neverEntered : List Incident :=
  [.arrives (.block "peer" mintAndBurn), .begins, .reads true, .changes false, .calls true,
    .calls true, .changes true]

/-- Recorded ids do not belong to the block whose number stands beside them in general: one failed
change of the checkpoint is enough for an id without any number, and for an id of block 8 beside
block 7, which has no transaction with it. -/
theorem ids_beside_another_block :
    let events := Subject.events "token" (.app "l")
    (tokenRun events neverEntered).checkpoint = ⟨none, ["first"]⟩ ∧
      (tokenRun events enteredInVain).checkpoint = ⟨some 7, ["first", "third"]⟩ ∧
      ∀ peer b, .arrives (.block peer b) ∈ enteredInVain → b.number = 7 →
        ∀ t ∈ b.transactions, t.id ≠ "third" := by
  refine ⟨rfl, rfl, fun peer b hb hn => ?_⟩
  simp only [enteredInVain, secondFails, List.cons_append, List.nil_append, List.mem_cons,
    Incident.arrives.injEq, Delivery.block.injEq, List.not_mem_nil, reduceCtorEq, false_or,
    or_false] at hb
  rcases hb with ⟨-, rfl⟩ | ⟨-, rfl⟩
  · simp [mintAndBurn]
  · cases hn

end LedgerClient
