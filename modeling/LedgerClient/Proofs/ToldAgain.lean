import LedgerClient.Proofs.FailedCalls

/-!
# Told again after a restart

What a call failed for is handed to the listener again by a session that is restarted from the
checkpoint, unless the checkpoint has gone on: a contract listener's goes on when a later block is
taken up, a block listener's when a call about a later block succeeds
(`failed_call_is_told_again`).
-/

namespace LedgerClient

/-! ## Plans and conditions at their end -/

namespace Plan

variable {allowed : Incident → Prop}

/-- What no change and no call takes away holds at the end of a plan. -/
theorem keeps_of_stable {Q : Account → Prop} (hchange : ∀ w c, Q w → Q (w.change c))
    (htell : ∀ w n ok, Q w → Q (w.tell n ok)) (p : Plan) {w : Account} (hw : Q w) :
    p.Keeps allowed (fun _ _ => True) Q w := by
  induction p generalizing w with
  | finished => exact hw
  | askNext go ih => exact fun ok _ => ih _ hw
  | askDelivered go ih => exact fun ok _ => ih _ hw
  | change c go ih =>
    intro ok _
    cases ok with
    | true => exact ⟨trivial, ih (hchange w c hw)⟩
    | false => exact ⟨trivial, ih hw⟩
  | tell n go ih => exact fun ok _ => ⟨trivial, ih ok (htell w n ok hw)⟩
  | unlessRemoved go ih => exact ih hw

theorem Keeps.and {R : Account → Account → Prop} {E E' : Account → Prop} {p : Plan} {w : Account}
    (h : p.Keeps allowed R E w) (h' : p.Keeps allowed R E' w) :
    p.Keeps allowed R (fun w => E w ∧ E' w) w := by
  induction p generalizing w with
  | finished => exact ⟨h, h'⟩
  | askNext go ih => exact fun ok hok => ih _ (h ok hok) (h' ok hok)
  | askDelivered go ih => exact fun ok hok => ih _ (h ok hok) (h' ok hok)
  | change c go ih => exact fun ok hok => ⟨(h ok hok).1, ih (h ok hok).2 (h' ok hok).2⟩
  | tell n go ih => exact fun ok hok => ⟨(h ok hok).1, ih ok (h ok hok).2 (h' ok hok).2⟩
  | unlessRemoved go ih => exact ih h h'

end Plan

/-! ## A session that comes to a block -/

namespace Watch

/-- An incident of one session, with the checkpointer at work. -/
def Lasting (e : Incident) : Prop := e.InOrder ∧ e ≠ .restarts

/-- A session that is started with this account and is handed blocks before `b` and then `b` can
come to rest, and when it does it has made calls as `P` asks for, whatever its listener answers. -/
def HandsAgain (opens : Checkpoint → Session) (w : Account) (peer : String) (b : Block)
    (P : List (Notice × Bool) → Prop) : Prop :=
  ∀ es, (∀ e ∈ es, Lasting e) → ∀ pre post, Incident.arrivals es = pre ++ .block peer b :: post →
    (∀ peer' b', .block peer' b' ∈ pre → b'.number < b.number) →
    let again := (start opens w).run opens
    (again es).session.removed = false →
    ((again es).Idle → ∃ calls, (again es).account.told = w.told ++ calls ∧ P calls) ∧
      ∃ es', (∀ e ∈ es', e.Serves) ∧ (again (es ++ es')).Idle

section Handing

variable {opens : Checkpoint → Session} {A : Audience} {w : Account} {peer : String} {b : Block}
  {P : List (Notice × Bool) → Prop} {Waits : Checkpoint → Prop}

/-- What was told since the start is as `P` asks for. -/
def Told (w : Account) (P : List (Notice × Bool) → Prop) (w' : Account) : Prop :=
  ∃ calls, w'.told = w.told ++ calls ∧ P calls

theorem Told.tell (hP : ∀ calls more, P calls → P (calls ++ more)) {w' : Account}
    (h : Told w P w') (n : Notice) (ok : Bool) : Told w P (w'.tell n ok) := by
  obtain ⟨calls, htold, hcalls⟩ := h
  exact ⟨calls ++ [(n, ok)], by rw [Account.tell_told, htold, List.append_assoc], hP _ _ hcalls⟩

/-- What is to be shown of the plans of an audience: those of earlier blocks leave the checkpoint
waiting for the block, and that of the block makes the calls. -/
structure Handing (A : Audience) (w : Account) (peer : String) (b : Block)
    (P : List (Notice × Bool) → Prop) (Waits : Checkpoint → Prop) : Prop where
  more : ∀ calls more, P calls → P (calls ++ more)
  fault : ∀ f w', Waits w'.checkpoint → (A.plan (.fault f)).Keeps Lasting (fun _ _ => True)
    (fun w => Waits w.checkpoint) w'
  before : ∀ peer' b' w', b'.number < b.number → Waits w'.checkpoint →
    (A.plan (.block peer' b')).Keeps Lasting (fun _ _ => True) (fun w => Waits w.checkpoint) w'
  at_block : ∀ w', b.Distinct → Told w (fun _ => True) w' → Waits w'.checkpoint →
    (A.plan (.block peer b)).Keeps Lasting (fun _ _ => True) (Told w P) w'

/-- Between two deliveries: the calls were made, or the block is still to come and waited for. -/
structure Coming (w : Account) (peer : String) (b : Block) (P : List (Notice × Bool) → Prop)
    (Waits : Checkpoint → Prop) (floor last : Option Nat) (ds : List Delivery) (w' : Account) :
    Prop where
  distinct : ∀ peer b, .block peer b ∈ ds → b.Distinct
  grown : Told w (fun _ => True) w'
  reached : Told w P w' ∨ Waits w'.checkpoint ∧ Session.reaches floor b.number = true ∧
    Session.reaches last b.number = true ∧ ∃ pre post, ds = pre ++ .block peer b :: post ∧
      ∀ peer' b', .block peer' b' ∈ pre → b'.number < b.number

theorem Handing.rule (h : Handing A w peer b P Waits)
    (hopens : ∀ c, opens c = .new A (opens c).floor) :
    Rule opens Lasting (fun _ _ => True) (Coming w peer b P Waits) A where
  fresh := hopens
  opens _ _ hrestarts _ := absurd rfl hrestarts.2
  handles := by
    intro s d ds w' hI hacc
    have htold {Q : List (Notice × Bool) → Prop} (hQ : ∀ calls more, Q calls → Q (calls ++ more))
        (hw : Told w Q w') : (A.plan d).Keeps Lasting (fun _ _ => True) (Told w Q) w' :=
      Plan.keeps_of_stable (fun _ _ hw => hw) (fun _ n ok hw => hw.tell hQ n ok) _ hw
    have hgrown := htold (fun _ _ _ => trivial) hI.grown
    have hds : ∀ peer b, .block peer b ∈ ds → b.Distinct := fun peer b hb =>
      hI.distinct peer b (List.mem_cons_of_mem _ hb)
    rcases hI.reached with hdone | ⟨hwaits, hfloor, hlast, pre, post, hsplit, hpre⟩
    · exact (hgrown.and (htold h.more hdone)).mono fun _ hw => ⟨hds, hw.1, Or.inl hw.2⟩
    · cases pre with
      | nil =>
        obtain ⟨rfl, rfl⟩ := List.cons.inj hsplit
        have hb := hI.distinct peer b List.mem_cons_self
        exact (hgrown.and (h.at_block w' hb hI.grown hwaits)).mono fun _ hw =>
          ⟨hds, hw.1, Or.inl hw.2⟩
      | cons d' pre =>
        obtain ⟨rfl, rfl⟩ := List.cons.inj hsplit
        have hstill : (A.plan d).Keeps Lasting (fun _ _ => True) (fun w => Waits w.checkpoint) w' ∧
            Session.reaches ((Session.numberOf d).or s.last) b.number = true := by
          cases d with
          | fault f => exact ⟨h.fault f w' hwaits, hlast⟩
          | block peer' b' =>
            have hlt := hpre peer' b' List.mem_cons_self
            exact ⟨h.before peer' b' w' hlt hwaits, decide_eq_true (Nat.le_of_lt hlt)⟩
        exact (hgrown.and hstill.1).mono fun _ hw => ⟨hds, hw.1, Or.inr ⟨hw.2, hfloor, hstill.2,
          pre, post, rfl, fun peer' b' hb' => hpre peer' b' (List.mem_cons_of_mem _ hb')⟩⟩
  passes := by
    intro s d ds w' hI hacc
    refine ⟨fun peer b hb => hI.distinct peer b (List.mem_cons_of_mem _ hb), hI.grown,
      hI.reached.imp_right ?_⟩
    rintro ⟨hwaits, hfloor, hlast, pre, post, hsplit, hpre⟩
    cases pre with
    | nil =>
      obtain ⟨rfl, rfl⟩ := List.cons.inj hsplit
      simp [Session.accepts, hfloor, hlast] at hacc
    | cons d' pre =>
      obtain ⟨rfl, rfl⟩ := List.cons.inj hsplit
      exact ⟨hwaits, hfloor, hlast, pre, post, rfl, fun peer' b' hb' =>
        hpre peer' b' (List.mem_cons_of_mem _ hb')⟩

theorem Handing.handsAgain (h : Handing A w peer b P Waits)
    (hopens : ∀ c, opens c = .new A (opens c).floor) (hwaits : Waits w.checkpoint)
    (hfloor : Session.reaches (opens w.checkpoint).floor b.number = true) :
    HandsAgain opens w peer b P := by
  intro es hes pre post hsplit hpre again hremoved
  constructor
  · intro hidle
    have hcoming : Coming w peer b P Waits (opens w.checkpoint).floor none
        (Incident.arrivals es) w :=
      ⟨fun peer b hb => (hes _ (Incident.mem_of_mem_arrivals hb)).1.2 peer b rfl, ⟨[], by simp⟩,
        Or.inr ⟨hwaits, hfloor, rfl, pre, post, hsplit, hpre⟩⟩
    have rule := h.rule hopens
    obtain ⟨hholds, -⟩ := (rule.holds_start w hcoming).run_all rule (rule.audience_start w) hes
    have hend := (holds_of_none hidle.1).1 hholds hremoved
    rw [hidle.2] at hend
    refine hend.reached.resolve_right ?_
    rintro ⟨-, -, -, pre, post, hnil, -⟩
    simp at hnil
  · have hnone : ∀ c, (opens c).work = none := fun c => by
      rw [hopens]
      rfl
    have hinOrder := inOrder_run opens hnone (a := start opens w)
      (Session.inOrder_of_none (hnone w.checkpoint)) es
    obtain ⟨es', hes', hidle⟩ := reaches_nil opens hnone hinOrder
    rw [← run_append] at hidle
    exact ⟨es', hes', hidle⟩

end Handing

end Watch

/-! ## The two listeners -/

open Watch

/-- A block listener whose checkpoint is not past a block is called about it. -/
theorem handing_block {l : ListenerId} {o : ListenerOptions} (ho : o.checkpointer.isSome = true)
    (w : Account) (peer : String) (b : Block) :
    Handing (ListenerKey.audience o (.blocks l)) w peer b
      (fun calls => ∃ ok, (.block ⟨peer, b⟩, ok) ∈ calls) (fun c => ¬ c.Past b.number) where
  more _ _ h := h.imp fun _ hmem => List.mem_append_left _ hmem
  fault _ _ hw _ _ := ⟨trivial, hw⟩
  before := by
    intro peer' b' w' hlt hw
    simp only [ListenerKey.audience, Audience.plan, ho]
    refine Plan.keeps_ofBlock (fun _ hok => hok.1.1) (fun _ => hw) (fun _ _ => trivial)
      (fun _ => hw) fun _ => ⟨trivial, fun hpast => ?_⟩
    have := Checkpoint.past_startingAt.1 hpast
    omega
  at_block := by
    intro w' _ hgrown hw
    obtain ⟨calls, htold, -⟩ := hgrown
    have hcalled : ∀ ok, Told w (fun calls => ∃ ok, (.block ⟨peer, b⟩, ok) ∈ calls)
        (w'.tell (.block ⟨peer, b⟩) ok) := fun ok =>
      ⟨calls ++ [(.block ⟨peer, b⟩, ok)], by rw [Account.tell_told, htold, List.append_assoc],
        ok, List.mem_append_right _ List.mem_cons_self⟩
    simp only [ListenerKey.audience, Audience.plan, ho]
    exact Plan.keeps_ofBlock (fun _ hok => hok.1.1) (fun hpast => absurd hpast hw)
      (fun _ _ => trivial) (fun _ => hcalled false) fun _ => ⟨trivial, hcalled true⟩

/-- All events of the transaction of `e` were told, whatever the listener answered. -/
def EventFilter.Repeats (f : EventFilter) (e : EventNotice) (b : Block)
    (calls : List (Notice × Bool)) : Prop :=
  ∀ t ∈ b.transactions, t.id = e.transaction → ∀ x ∈ f.notices b.number t,
    ∃ ok, (.event x, ok) ∈ calls

/-- What was told in a block before the transactions that are left: all events of the transaction of
`e`, unless it is among them. -/
def Repeating (f : EventFilter) (e : EventNotice) (w : Account) (b : Block)
    (ts : List BlockTransaction) (w' : Account) : Prop :=
  Told w (fun calls => ∀ t ∈ b.transactions, t.id = e.transaction → t ∈ ts ∨
    ∀ x ∈ f.notices b.number t, ∃ ok, (.event x, ok) ∈ calls) w'

theorem Repeating.repeats {f : EventFilter} {e : EventNotice} {w w' : Account} {b : Block}
    (h : Repeating f e w b [] w') : Told w (f.Repeats e b) w' := by
  obtain ⟨calls, htold, hcalls⟩ := h
  exact ⟨calls, htold, fun t ht hid => (hcalls t ht hid).resolve_left List.not_mem_nil⟩

theorem Repeating.tells {f : EventFilter} {e : EventNotice} {w w' : Account} {b : Block}
    {t : BlockTransaction} {ts : List BlockTransaction} (h : Repeating f e w b (t :: ts) w')
    {rs : List (EventNotice × Bool)} (hrs : rs.map Prod.fst = f.notices b.number t) :
    Repeating f e w b ts (w'.tells rs) := by
  obtain ⟨calls, htold, hcalls⟩ := h
  refine ⟨calls ++ rs.map fun x => (.event x.1, x.2), ?_, fun t' ht' hid => ?_⟩
  · simp only [Account.tells, htold, List.append_assoc]
  · rcases hcalls t' ht' hid with hmem | hall
    · rcases List.mem_cons.1 hmem with rfl | hmem
      · refine Or.inr fun x hx => ?_
        rw [← hrs] at hx
        obtain ⟨y, hy, rfl⟩ := List.mem_map.1 hx
        exact ⟨y.2, List.mem_append_right _ (List.mem_map.2 ⟨y, hy, rfl⟩)⟩
      · exact Or.inl hmem
    · exact Or.inr fun x hx => (hall x hx).imp fun _ hmem => List.mem_append_left _ hmem

theorem blockRule_repeats {f : EventFilter} {e : EventNotice} (w : Account) (b : Block)
    {delivered : List String} (hid : e.transaction ∉ delivered) :
    BlockRule Lasting (fun _ _ => True) (Told w (f.Repeats e b)) f b.number delivered
      (fun _ => Repeating f e w b) where
  skips := by
    rintro complete t ts w' ⟨calls, htold, hcalls⟩ hskip
    refine ⟨calls, htold, fun t' ht' hid' => ?_⟩
    rcases hcalls t' ht' hid' with hmem | hall
    · rcases List.mem_cons.1 hmem with rfl | hmem
      · -- a transaction that is not recorded is passed over only if it has no events
        have hnone := hskip.resolve_right (hid' ▸ hid)
        exact Or.inr (by simp [hnone])
      · exact Or.inl hmem
    · exact Or.inr hall
  tells _ _ _ _ _ _ _ _ _ := trivial
  fails h _ _ hrs _ _ := h.tells hrs
  records h _ _ hrs _ _ _ ok _ := by
    refine ⟨trivial, ?_⟩
    cases ok <;> exact h.tells hrs
  leaves h := h.repeats
  ends h ok _ := by
    refine ⟨trivial, ?_⟩
    cases ok <;> exact h.repeats

/-- A contract listener whose checkpoint stays at an event is told of its transaction. -/
theorem handing_contract {chaincode : String} {l : ListenerId} {o : ListenerOptions}
    (ho : o.checkpointer.isSome = true) {e : EventNotice} (w : Account) (peer : String) (b : Block)
    (hb : b.number = e.block) :
    Handing (ListenerKey.audience o (.events chaincode l)) w peer b
      ((o.filter chaincode).Repeats e b) (fun c => c.StaysAt e) where
  more _ _ h t ht hid x hx := (h t ht hid x hx).imp fun _ hmem => List.mem_append_left _ hmem
  fault _ _ hw _ _ := ⟨trivial, hw⟩
  before := by
    intro peer' b' w' hlt hw
    simp only [ListenerKey.audience, Audience.plan, ho]
    refine Plan.keeps_ofContract (fun _ hok => hok.1.1) (fun _ => hw) (fun hn => ?_) fun hall => ?_
    · have := Option.some.inj (hw.1.symm.trans hn)
      omega
    · have := hall _ hw.1
      omega
  at_block := by
    intro w' _ hgrown hw
    simp only [ListenerKey.audience, Audience.plan, ho]
    refine Plan.keeps_ofContract (fun _ hok => hok.1.1) (fun hpast => ?_) (fun _ => ?_)
      fun hall => ?_
    · obtain ⟨next, hn, hlt⟩ := hpast
      have := Option.some.inj (hw.1.symm.trans hn)
      omega
    · refine (blockRule_repeats w b hw.2).keeps ?_
      obtain ⟨calls, htold, -⟩ := hgrown
      exact ⟨calls, htold, fun t ht _ => Or.inl ht⟩
    · have := hall _ hw.1
      omega

/-! ## Where a block listener begins -/

theorem ListenerOptions.floor_opening_of_none (o : ListenerOptions) (key : ListenerKey)
    {c : Checkpoint} (hnone : c.next = none) : (o.opening key c).floor = o.startBlock := by
  rw [floor_opening, hnone, Option.none_or]

namespace Watch

variable {o : ListenerOptions} {key : ListenerKey} {w : Account} {a : Watch}

/-- As long as the checkpoint has no block, the session began at the start block. -/
def AtStart (o : ListenerOptions) (a : Watch) : Prop :=
  a.account.checkpoint.next = none → a.session.floor = o.startBlock

theorem AtStart.after (h : AtStart o a) (e : Incident) :
    AtStart o (a.after (o.opening key) e) := by
  cases e with
  | arrives d => exact fun hnone => (Session.floor_deliver _ d).trans (h hnone)
  | removed => exact h
  | begins => exact fun hnone => (Session.floor_take _).trans (h hnone)
  | reads ok | calls ok =>
    simp only [Watch.after]
    split <;> first | exact h | exact fun hnone => (Session.floor_answer _ _).trans (h hnone)
  | changes ok =>
    simp only [Watch.after]
    split
    · rename_i c _
      refine fun hnone => (Session.floor_answer _ _).trans (h ?_)
      -- a change that names a block would leave the checkpoint with one
      cases ok with
      | false => exact hnone
      | true =>
        cases c with
        | moveTo n => cases hnone
        | record id => exact hnone
    · exact h
  | restarts => exact fun hnone => o.floor_opening_of_none key hnone

theorem AtStart.run (h : AtStart o a) (es : List Incident) :
    AtStart o (a.run (o.opening key) es) := by
  induction es generalizing a with
  | nil => exact h
  | cons e es ih => exact ih (h.after e)

theorem atStart_run (key : ListenerKey) (w : Account) (es : List Incident) :
    AtStart o ((start (o.opening key) w).run (o.opening key) es) := by
  have hstart : AtStart o (start (o.opening key) w) := fun hnone =>
    o.floor_opening_of_none key hnone
  exact hstart.run es

/-- As long as the checkpoint has no block, the blocks told since the account `w` are from `first`
on. -/
def FromStart (first : Option Nat) (w w' : Account) : Prop :=
  w'.checkpoint.next = none → Told w (fun calls => ∀ b ok, (.block b, ok) ∈ calls →
    Session.reaches first b.block.number = true) w'

variable {first : Option Nat} {w' : Account}

theorem FromStart.tell (h : FromStart first w w') {n : Notice} (ok : Bool)
    (hn : ∀ b, n = .block b → w'.checkpoint.next = none →
      Session.reaches first b.block.number = true) : FromStart first w (w'.tell n ok) := by
  intro hnone
  obtain ⟨calls, htold, hcalls⟩ := h hnone
  refine ⟨calls ++ [(n, ok)], by rw [Account.tell_told, htold, List.append_assoc], ?_⟩
  intro b ok' hmem
  rcases List.mem_append.1 hmem with hmem | hmem
  · exact hcalls b ok' hmem
  · obtain ⟨heq, -⟩ := Prod.mk.inj (List.mem_singleton.1 hmem)
    exact hn b heq.symm hnone

/-- A block that was told since, and that the checkpoint is not past, is not before the block that
the next session begins at. -/
theorem FromStart.reaches (h : FromStart first w w') {k : Nat} {b : BlockNotice}
    (hk : w.told.length ≤ k) (hfailed : w'.Failed k (.block b))
    (hpast : ¬ w'.checkpoint.Past b.block.number) :
    Session.reaches (w'.checkpoint.next.or first) b.block.number = true := by
  cases hn : w'.checkpoint.next with
  | none =>
    obtain ⟨calls, htold, hcalls⟩ := h hn
    rw [Account.Failed, htold, List.getElem?_append_right hk] at hfailed
    rw [Option.none_or]
    exact hcalls b false (List.mem_of_getElem? hfailed)
  | some next =>
    rw [Option.some_or]
    exact decide_eq_true (Nat.le_of_not_lt fun hlt => hpast ⟨next, hn, hlt⟩)

theorem fromStart_run (ho : o.checkpointer.isSome = true) (l : ListenerId) {es : List Incident}
    (h : ∀ e ∈ es, e.InOrder) :
    FromStart o.startBlock w
      ((start (o.opening (.blocks l)) w).run (o.opening (.blocks l)) es).account := by
  refine invariant_run (A := ListenerKey.audience o (.blocks l)) (fun _ => rfl) w h
    (fun _ => ⟨[], by simp, by simp⟩) fun es₁ es₂ d heq hd hG => ?_
  cases d with
  | fault f => exact fun ok _ => ⟨fun hG => hG.tell ok (by simp), trivial⟩
  | block peer b =>
    obtain ⟨-, -, hacc, -⟩ := Session.upNext?_eq_some hd
    simp only [ListenerKey.audience, Audience.plan, ho]
    refine Plan.keeps_ofBlock (fun _ hok => hok.1) (fun _ => trivial)
      (fun _ ok hG => hG.tell ok ?_) (fun _ => trivial) fun _ => ⟨fun _ hnone => ?_, trivial⟩
    · rintro b' hb' hnone
      obtain rfl := Notice.block.inj hb'
      rw [Session.accepts, atStart_run _ w es₁ hnone, Bool.and_eq_true] at hacc
      exact hacc.1
    · cases hnone

end Watch

/-! ## Told again -/

/-- A listener with a checkpointer is handed any blocks by any sequence of sessions, its calls
succeed and fail as they like, and then the call with the number `k` fails.

* The call was about a block `b`, and since then no call about `b` or a later block has succeeded:
  the checkpoint is not past `b`, and the session that is started from it begins no later than `b`
  and is told of `b` again.
* The call was about an event `e`, the events of its transaction have not been told since with all
  calls successful, and no other blocks have been taken up since than earlier ones, and the event's
  own with its transaction in it: the checkpoint is at the event's block, the transaction is not
  recorded, and the session that is started from it is told of the transaction again. -/
theorem failed_call_is_told_again (s : Subject) (o : ListenerOptions)
    (ho : o.checkpointer.isSome = true) (w : Account) (es es' : List Incident)
    (h : ∀ e ∈ es ++ .calls false :: es', e.InOrder) :
    let opens := o.opening s.key
    let before := (Watch.start opens w).run opens es
    let k := before.account.told.length
    let w' := ((Watch.start opens w).run opens (es ++ .calls false :: es')).account
    (∀ l l' b, s = .blocks l → before.session.question? = some (.tell l' (.block b)) →
      ¬ b.Succeeds (w'.since k) →
      w'.Failed k (.block b) ∧ ¬ w'.checkpoint.Past b.block.number ∧
        Session.reaches (opens w'.checkpoint).floor b.block.number = true ∧
        ∀ peer b', b'.number = b.block.number →
          Watch.HandsAgain opens w' peer b' fun calls => ∃ ok, (.block ⟨peer, b'⟩, ok) ∈ calls) ∧
      ∀ chaincode l l' e, s = .events chaincode l →
        before.session.question? = some (.tell l' (.event e)) →
        let ds := (before.after opens (.calls false)).taken opens es'
        ¬ (o.filter chaincode).Redelivers e ds (w'.since k) →
        (∀ peer b, .block peer b ∈ ds →
          b.number < e.block ∨ b.number = e.block ∧ (o.filter chaincode).Brings e b.transactions) →
        w'.Failed k (.event e) ∧ w'.checkpoint.StaysAt e ∧
          ∀ peer b, b.number = e.block →
            Watch.HandsAgain opens w' peer b ((o.filter chaincode).Repeats e b) := by
  intro opens before k w'
  constructor
  · rintro l l' b rfl hq hnot
    have hfailed : w'.Failed k (.block b) := Watch.failed_run (s := .blocks l) ho h hq
    have hpast : ¬ w'.checkpoint.Past b.block.number :=
      (Watch.block_owed ho l b h hfailed).resolve_left hnot
    have hk : ((Watch.start opens w).run opens []).account.told.length ≤ k :=
      Watch.length_told_le (s := .blocks l) ho fun e he => h e (List.mem_append_left _ he)
    have hfloor : Session.reaches (opens w'.checkpoint).floor b.block.number = true :=
      (Watch.fromStart_run ho l h).reaches hk hfailed hpast
    refine ⟨hfailed, hpast, hfloor, fun peer b' hb' => ?_⟩
    rw [← hb'] at hpast hfloor
    exact (handing_block ho w' peer b').handsAgain (fun _ => rfl) hpast hfloor
  · rintro chaincode l l' e rfl hq ds hnot htaken
    have hfailed : w'.Failed k (.event e) := Watch.failed_run (s := .events chaincode l) ho h hq
    have hstays : w'.checkpoint.StaysAt e :=
      (Watch.event_owed ho chaincode l h htaken hfailed).resolve_left hnot
    refine ⟨hfailed, hstays, fun peer b hb => ?_⟩
    refine (handing_contract ho w' peer b hb).handsAgain (fun _ => rfl) hstays ?_
    rw [ListenerOptions.floor_opening, hstays.1, hb]
    exact decide_eq_true (Nat.le_refl _)

/-! ### Runs in which calls fail -/

/-- The event of the second transaction of `mintAndBurn`. -/
def secondMint : EventNotice := ⟨"token", "mint", none, "second", 7, none⟩

/-- The first transaction is taken and recorded, and the call about the second one is made. -/
def secondTold : List Incident :=
  [.arrives (.block "peer" mintAndBurn), .begins, .reads true, .changes true, .calls true,
    .calls true, .changes true]

/-- The block comes once more, and the call about the second transaction fails again; then a new
session begins. -/
def failsAgain : List Incident :=
  [.arrives (.block "peer" mintAndBurn), .begins, .reads true, .reads true, .calls false, .restarts]

/-- A block listener is called about the block. -/
def blockTold : List Incident := [.arrives (.block "peer" mintAndBurn), .begins, .reads true]

theorem inOrder_fails_again :
    (∀ e ∈ secondTold ++ .calls false :: failsAgain, e.InOrder) ∧
      ∀ e ∈ blockTold ++ [.calls false], e.InOrder := by
  simp [secondTold, failsAgain, blockTold, Incident.InOrder, Incident.Stores, distinct_mintAndBurn]

/-- The next session is told of the second transaction, and a block listener of its block. -/
theorem second_is_told_again :
    (let opens := tokenOptions.opening (.events "token" (.app "l"))
      let w' := ((Watch.start opens ⟨.empty, []⟩).run opens
        (secondTold ++ .calls false :: failsAgain)).account
      w'.checkpoint = ⟨some 7, ["first"]⟩ ∧ w'.Failed 2 (.event secondMint) ∧
        Watch.HandsAgain opens w' "peer" mintAndBurn
          ((tokenOptions.filter "token").Repeats secondMint mintAndBurn)) ∧
      let opens := tokenOptions.opening (.blocks (.app "l"))
      let w' := ((Watch.start opens ⟨.empty, []⟩).run opens (blockTold ++ [.calls false])).account
      w'.checkpoint = .empty ∧ w'.Failed 0 (.block ⟨"peer", mintAndBurn⟩) ∧
        Watch.HandsAgain opens w' "peer" mintAndBurn
          fun calls => ∃ ok, (.block ⟨"peer", mintAndBurn⟩, ok) ∈ calls := by
  constructor
  · obtain ⟨-, hevents⟩ := failed_call_is_told_again (.events "token" (.app "l")) tokenOptions rfl
      ⟨.empty, []⟩ secondTold failsAgain inOrder_fails_again.1
    obtain ⟨hfailed, -, hagain⟩ := hevents "token" (.app "l") (.app "l") secondMint rfl rfl
      (by
        rintro ⟨-, -, t, -, -, -, -, hne, hin⟩
        obtain ⟨x, hx⟩ := List.exists_mem_of_ne_nil _ hne
        have hmem : (.event x, true) ∈ [(Notice.event secondMint, false)] :=
          hin.subset (List.mem_map_of_mem hx)
        simp at hmem)
      (by
        intro peer b hb
        have hmem : Delivery.block peer b ∈ [.block "peer" mintAndBurn] := hb
        obtain ⟨rfl, rfl⟩ := Delivery.block.inj (List.mem_singleton.1 hmem)
        exact Or.inr ⟨rfl, _, List.mem_cons_of_mem _ List.mem_cons_self, rfl, by decide⟩)
    exact ⟨rfl, hfailed, hagain "peer" mintAndBurn rfl⟩
  · obtain ⟨hblocks, -⟩ := failed_call_is_told_again (.blocks (.app "l")) tokenOptions rfl
      ⟨.empty, []⟩ blockTold [] inOrder_fails_again.2
    obtain ⟨hfailed, -, -, hagain⟩ := hblocks (.app "l") (.app "l") ⟨"peer", mintAndBurn⟩ rfl rfl
      (by
        rintro ⟨b, hmem, -⟩
        exact List.not_mem_nil hmem)
    exact ⟨rfl, hfailed, hagain "peer" mintAndBurn rfl⟩

/-! ### Runs in which a failed call is passed over -/

/-- The checkpoint has nothing that a call failed about, unless such a call has succeeded since. -/
def Account.HoldsBack (w : Account) : Prop :=
  ∀ k n, w.Failed k n → (n, true) ∉ w.since k → ¬ w.checkpoint.Has n

/-- The account of a listener to `tokenOptions` after a run. -/
def tokenRun (s : Subject) (es : List Incident) : Account :=
  ((Watch.start (tokenOptions.opening s.key) ⟨.empty, []⟩).run (tokenOptions.opening s.key)
    es).account

/-- The block after `mintAndBurn`. -/
def mintLater : Block where
  number := 8
  kind := .full
  raw := none
  transactions := [⟨"third", .valid, [⟨"token", "mint", none⟩], none⟩]

/-- The call about a block fails, and that about the next one succeeds. -/
def laterSucceeds : List Incident :=
  blockTold ++ [.calls false, .arrives (.block "peer" mintLater), .begins, .reads true, .calls true,
    .changes true]

/-- The call about a transaction fails, and the next block is taken up. -/
def laterTaken : List Incident :=
  secondTold ++ [.calls false, .arrives (.block "peer" mintLater), .begins, .reads true,
    .changes true]

/-- The call about a transaction fails, and its block comes again without the transaction. -/
def comesWithout : List Incident :=
  secondTold ++ [.calls false,
    .arrives (.block "peer" { mintAndBurn with transactions := [] }), .begins, .reads true,
    .reads true, .changes true]

/-- A block is taken and comes again; the checkpoint cannot be read, and the call fails. -/
def readingFails : List Incident :=
  blockTold ++ [.calls true, .changes true, .arrives (.block "peer" mintAndBurn), .begins,
    .reads false, .calls false]

/-- Two transactions of a block have one id, and the call about the second one fails. -/
def idComesTwice : List Incident :=
  [.arrives (.block "peer" { mintAndBurn with transactions :=
      [⟨"first", .valid, [⟨"token", "mint", none⟩], none⟩,
        ⟨"first", .valid, [⟨"token", "burn", none⟩], none⟩] }), .begins, .reads true,
    .changes true, .calls true, .changes true, .calls false]

theorem distinct_mintLater : mintLater.Distinct := by
  simp [Block.Distinct, mintLater]

/-- A checkpoint does not stay at a failed call in general, though no change of it fails: it goes on
when the call about a later block succeeds, when a contract listener takes up a later block, or the
same one without the transaction, when it cannot be read, and when an id is used twice in a
block. -/
theorem failed_call_may_be_passed_over :
    let blocks := Subject.blocks (.app "l")
    let events := Subject.events "token" (.app "l")
    ((∀ e ∈ laterSucceeds, e.InOrder) ∧ ¬ (tokenRun blocks laterSucceeds).HoldsBack) ∧
      ((∀ e ∈ laterTaken, e.InOrder) ∧ ¬ (tokenRun events laterTaken).HoldsBack) ∧
      ((∀ e ∈ comesWithout, e.InOrder) ∧ ¬ (tokenRun events comesWithout).HoldsBack) ∧
      ((∀ e ∈ readingFails, e ≠ .changes false) ∧ ¬ (tokenRun blocks readingFails).HoldsBack) ∧
      (∀ e ∈ idComesTwice, e ≠ .changes false) ∧ ¬ (tokenRun events idComesTwice).HoldsBack := by
  refine ⟨⟨?_, fun h => ?_⟩, ⟨?_, fun h => ?_⟩, ⟨?_, fun h => ?_⟩, ⟨?_, fun h => ?_⟩, ?_,
    fun h => ?_⟩
  · simp [laterSucceeds, blockTold, Incident.InOrder, Incident.Stores, distinct_mintAndBurn,
      distinct_mintLater]
  · refine h 0 (.block ⟨"peer", mintAndBurn⟩) rfl (fun hmem => ?_) ⟨9, rfl, by decide⟩
    obtain ⟨heq, -⟩ := Prod.mk.inj (List.mem_singleton.1 hmem)
    have hnumber : 7 = 8 := congrArg (·.block.number) (Notice.block.inj heq)
    cases hnumber
  · simp [laterTaken, secondTold, Incident.InOrder, Incident.Stores, distinct_mintAndBurn,
      distinct_mintLater]
  · exact h 2 (.event secondMint) rfl List.not_mem_nil ⟨8, rfl, by decide⟩
  · simp [comesWithout, secondTold, Incident.InOrder, Incident.Stores, Block.Distinct,
      mintAndBurn]
  · exact h 2 (.event secondMint) rfl List.not_mem_nil ⟨8, rfl, by decide⟩
  · simp [readingFails, blockTold]
  · exact h 1 (.block ⟨"peer", mintAndBurn⟩) rfl List.not_mem_nil ⟨8, rfl, by decide⟩
  · simp [idComesTwice]
  · exact h 1 (.event ⟨"token", "burn", none, "first", 7, none⟩) rfl List.not_mem_nil
      ⟨7, rfl, by decide⟩

end LedgerClient
