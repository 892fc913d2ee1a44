import LedgerClient.Client.Registration
import LedgerClient.Proofs.Blocks
import LedgerClient.Proofs.Successions

/-!
# Nothing is told twice

A listener with a checkpointer is never told again of what its checkpoint has: not of a transaction
whose id is recorded, and not of a block that the checkpoint is past.  Four guards stand together
for it, the session's floor, its last block, the position of the checkpoint and the recorded ids;
the last two suffice, because whatever a session does, its checkpoint keeps all that it has
(`Account.Advances`).
-/

namespace LedgerClient

/-- The session of a listener that is registered with options when its checkpointer has `c`: it
begins at the checkpoint's block, or else at the start block of the options. -/
def ListenerOptions.opening (o : ListenerOptions) (key : ListenerKey) (c : Checkpoint) : Session :=
  .new (key.audience o) (c.next.or o.startBlock)

theorem ListenerOptions.floor_opening (o : ListenerOptions) (key : ListenerKey) (c : Checkpoint) :
    (o.opening key c).floor = c.next.or o.startBlock := rfl

/-- Whether a checkpoint has what a notice is about. -/
def Checkpoint.Has (c : Checkpoint) : Notice → Prop
  | .event e => c.Covers e.block e.transaction
  | .block b => c.Past b.block.number
  | .commit _ | .fault _ => False

theorem Checkpoint.Has.moveTo {c : Checkpoint} {x : Notice} {m : Nat} (h : c.Has x)
    (hm : ∀ next, c.next = some next → next < m) : (startingAt m).Has x := by
  cases x with
  | event e => exact Covers.moveTo h hm
  | block b => exact Past.moveTo h hm
  | commit _ | fault _ => exact h

theorem Checkpoint.Has.record {c : Checkpoint} {x : Notice} (h : c.Has x) (id : String) :
    (c.apply (.record id)).Has x := by
  cases x with
  | event e => exact Covers.record h id
  | block b => exact h
  | commit _ | fault _ => exact h

namespace Account

/-- From one account to a later one: the checkpoint keeps what it has, and the listener is told
only of what the checkpoint did not have. -/
def Advances (w w' : Account) : Prop :=
  (∀ x, w.checkpoint.Has x → w'.checkpoint.Has x) ∧
    ∃ more, w'.told = w.told ++ more ∧ ∀ x ∈ more, ¬ w.checkpoint.Has x.1

theorem Advances.refl (w : Account) : w.Advances w :=
  ⟨fun _ h => h, [], by simp, by simp⟩

theorem Advances.trans {w w' w'' : Account} (h : w.Advances w') (h' : w'.Advances w'') :
    w.Advances w'' := by
  obtain ⟨hk, more, ht, hn⟩ := h
  obtain ⟨hk', more', ht', hn'⟩ := h'
  refine ⟨fun x hx => hk' x (hk x hx), more ++ more', by rw [ht', ht, List.append_assoc], ?_⟩
  intro x hx
  rcases List.mem_append.1 hx with hx | hx
  · exact hn x hx
  · exact fun hw => hn' x hx (hk _ hw)

theorem advances_of_steps {w w' : Account} (h : Relation.ReflTransGen Advances w w') :
    w.Advances w' := by
  induction h with
  | refl => exact .refl w
  | tail _ h ih => exact ih.trans h

theorem advances_tell {w : Account} {n : Notice} (h : ¬ w.checkpoint.Has n) (ok : Bool) :
    w.Advances (w.tell n ok) :=
  ⟨fun _ hx => hx, [(n, ok)], rfl, by simpa using h⟩

theorem advances_tells {w : Account} {rs : List (EventNotice × Bool)} {e : EventNotice} {r : Bool}
    (h : ¬ w.checkpoint.Covers e.block e.transaction) :
    (w.tells rs).Advances (w.tells (rs ++ [(e, r)])) := by
  refine ⟨fun _ hx => hx, [(.event e, r)], by simp [tells], ?_⟩
  simpa [Checkpoint.Has] using h

theorem advances_moveTo {w : Account} {m : Nat}
    (hm : ∀ next, w.checkpoint.next = some next → next < m) : w.Advances (w.change (.moveTo m)) :=
  ⟨fun _ hx => hx.moveTo hm, [], by simp, by simp⟩

theorem advances_record (w : Account) (id : String) : w.Advances (w.change (.record id)) :=
  ⟨fun _ hx => hx.record id, [], by simp, by simp⟩

end Account

/-! ## The plans -/

/-- Between two transactions of a block: the checkpoint is at the block, and of the transactions
that are left it has only those that it had when the block was entered. -/
def AtTransactions (f : EventFilter) (n : Nat) (delivered : List String)
    (ts : List BlockTransaction) (w : Account) : Prop :=
  w.checkpoint.next = some n ∧
    (ts.Pairwise fun t t' => t.code.isValid → t'.code.isValid → t.id ≠ t'.id) ∧
    ∀ t ∈ ts, f.notices n t ≠ [] → t.id ∈ w.checkpoint.delivered → t.id ∈ delivered

theorem AtTransactions.tail {f : EventFilter} {n : Nat} {delivered : List String}
    {t : BlockTransaction} {ts : List BlockTransaction} {w : Account}
    (h : AtTransactions f n delivered (t :: ts) w) : AtTransactions f n delivered ts w :=
  ⟨h.1, h.2.1.of_cons, fun t' ht' => h.2.2 t' (List.mem_cons_of_mem _ ht')⟩

/-- Another valid transaction has another id, so the id that is recorded is not its own. -/
theorem AtTransactions.record {f : EventFilter} {n : Nat} {delivered : List String}
    {t : BlockTransaction} {ts : List BlockTransaction} {w : Account}
    (h : AtTransactions f n delivered (t :: ts) w) (ht : f.notices n t ≠ []) :
    AtTransactions f n delivered ts (w.change (.record t.id)) := by
  refine ⟨h.1, h.2.1.of_cons, fun t' ht' hn' hd' => ?_⟩
  have hne : t.id ≠ t'.id := (List.pairwise_cons.1 h.2.1).1 t' ht'
    (EventFilter.isValid_of_notices ht) (EventFilter.isValid_of_notices hn')
  rcases Checkpoint.mem_insert.1 hd' with heq | hd'
  · exact absurd heq.symm hne
  · exact h.2.2 t' (List.mem_cons_of_mem _ ht') hn' hd'

section Plans

variable {allowed : Incident → Prop} (stores : ∀ e, allowed e → e.Stores)

include stores

theorem blockRule_advances (f : EventFilter) (n : Nat) (delivered : List String) :
    BlockRule allowed Account.Advances (fun _ => True) f n delivered
      (fun _ => AtTransactions f n delivered) where
  skips h _ := h.tail
  tells := by
    intro complete t ts w h hid rs e r es hes _ _
    have he : e ∈ f.notices n t := by simp [hes]
    obtain ⟨hb, ht⟩ := EventFilter.of_mem_notices he
    refine Account.advances_tells ?_
    rw [hb, ht, Checkpoint.covers_iff_of_next h.1]
    exact fun hd => hid (h.2.2 t List.mem_cons_self (List.ne_nil_of_mem he) hd)
  fails h _ _ _ _ _ := h.tail
  records := by
    intro complete t ts w h hid rs hrs hne _ _ ok hok
    obtain rfl : ok = true := stores _ hok
    have ht : f.notices n t ≠ [] := by
      rw [← hrs]
      simpa using hne
    have hrest : AtTransactions f n delivered (t :: ts) (w.tells rs) := h
    exact ⟨Account.advances_record _ _, hrest.record ht⟩
  leaves _ := trivial
  ends := by
    intro w h ok hok
    obtain rfl : ok = true := stores _ hok
    refine ⟨Account.advances_moveTo fun next hn => ?_, trivial⟩
    rw [h.1] at hn
    cases hn
    omega

theorem keeps_ofContract_advances (f : EventFilter) {b : Block} (hb : b.Distinct) (w : Account) :
    (Plan.ofContract true f b).Keeps allowed Account.Advances (fun _ => True) w := by
  have enters (w : Account) (hn : w.checkpoint.next = some b.number) :
      (Plan.ofTransactions true f b.number w.checkpoint.delivered true b.transactions).Keeps
        allowed Account.Advances (fun _ => True) w :=
    (blockRule_advances stores f b.number w.checkpoint.delivered).keeps
      ⟨hn, hb, fun _ _ _ hd => hd⟩
  refine Plan.keeps_ofContract (fun _ hok => stores _ hok) (fun _ => trivial) (enters w) ?_
  intro hlt ok hok
  obtain rfl : ok = true := stores _ hok
  exact ⟨Account.advances_moveTo hlt, enters (w.change (.moveTo b.number)) rfl⟩

theorem keeps_ofBlock_advances (peer : String) (b : Block) (w : Account) :
    (Plan.ofBlock true peer b).Keeps allowed Account.Advances (fun _ => True) w := by
  refine Plan.keeps_ofBlock stores (fun _ => trivial)
    (fun hnot ok => Account.advances_tell (n := .block ⟨peer, b⟩) hnot ok) (fun _ => trivial)
    fun hnot => ⟨Account.advances_moveTo fun next hn => ?_, trivial⟩
  by_contra hge
  exact hnot ⟨next, hn, by omega⟩

end Plans

/-! ## Runs -/

/-- An incident at which the checkpointer works, and no block comes with an id used twice. -/
def Incident.InOrder (e : Incident) : Prop :=
  e.Stores ∧ ∀ peer b, e = .arrives (.block peer b) → b.Distinct

theorem rule_advances (s : Subject) {o : ListenerOptions} (ho : o.checkpointer.isSome) :
    Watch.Rule (o.opening s.key) Incident.InOrder Account.Advances
      (fun _ _ ds _ => ∀ peer b, .block peer b ∈ ds → b.Distinct) (s.key.audience o) where
  fresh _ := rfl
  opens _ _ _ hes peer b hb := (hes _ (Incident.mem_of_mem_arrivals hb)).2 peer b rfl
  handles := by
    intro _ d ds w hds _
    have hds' : ∀ peer b, .block peer b ∈ ds → b.Distinct := fun peer b hb =>
      hds peer b (List.mem_cons_of_mem _ hb)
    have stores : ∀ e : Incident, e.InOrder → e.Stores := fun _ he => he.1
    cases d with
    | fault f =>
      have : (Plan.ofFault f).Keeps Incident.InOrder Account.Advances
          (fun _ => ∀ peer b, .block peer b ∈ ds → b.Distinct) w :=
        fun ok _ => ⟨Account.advances_tell (n := .fault f) (fun h => h) ok, hds'⟩
      cases s <;> exact this
    | block peer b =>
      have hb : b.Distinct := hds peer b List.mem_cons_self
      cases s with
      | blocks l =>
        simp only [Subject.key, ListenerKey.audience, Audience.plan, ho]
        exact (keeps_ofBlock_advances stores peer b w).mono fun _ _ => hds'
      | events chaincode l =>
        simp only [Subject.key, ListenerKey.audience, Audience.plan, ho]
        exact (keeps_ofContract_advances stores _ hb w).mono fun _ _ => hds'
  passes _ _ _ _ hds _ peer b hb := hds peer b (List.mem_cons_of_mem _ hb)

/-- From any moment of a run on the account advances. -/
theorem advances_run (s : Subject) {o : ListenerOptions} (ho : o.checkpointer.isSome)
    (w : Account) {es es' : List Incident} (h : ∀ e ∈ es ++ es', e.InOrder) :
    ((Watch.start (o.opening s.key) w).run (o.opening s.key) es).account.Advances
      ((Watch.start (o.opening s.key) w).run (o.opening s.key) (es ++ es')).account := by
  have rule := rule_advances s ho
  have restarts : Incident.restarts.InOrder := ⟨trivial, fun _ _ h => by cases h⟩
  exact Account.advances_of_steps (rule.run w h (rule.opens w (es ++ es') restarts h)).2.2

/-- A block of two transactions, the first with two events. -/
def mintAndBurn : Block where
  number := 7
  kind := .full
  raw := none
  transactions :=
    [⟨"first", .valid, [⟨"token", "mint", none⟩, ⟨"token", "burn", none⟩], none⟩,
      ⟨"second", .valid, [⟨"token", "mint", none⟩], none⟩]

theorem distinct_mintAndBurn : mintAndBurn.Distinct := by
  simp [Block.Distinct, mintAndBurn]

/-- The options of a listener that replays from block 7. -/
def tokenOptions : ListenerOptions := { startBlock := some 7, checkpointer := some "position" }

/-- The first transaction is taken and recorded; then the call about the second one fails. -/
def secondFails : List Incident :=
  [.arrives (.block "peer" mintAndBurn), .begins, .reads true, .changes true, .calls true,
    .calls true, .changes true, .calls false]

/-- The options of a block listener that replays from block 5. -/
def blockOptions : ListenerOptions := { startBlock := some 5, checkpointer := some "position" }

/-- A block with this number and the transactions of `mintAndBurn`. -/
def mintAndBurnAt (n : Nat) : Delivery := .block "peer" { mintAndBurn with number := n }

/-- A block listener is removed while it is called about block 7, and registered again.  The new
session reads that nothing is recorded and calls the listener about block 5; then the first call
ends, and the removed session moves the checkpoint past block 7. -/
def movesLate : List Episode :=
  [.present (.arrives (mintAndBurnAt 7)), .present .begins, .present (.reads true), .replaced,
    .present (.arrives (mintAndBurnAt 5)), .present .begins, .present (.reads true),
    .former 0 true, .former 0 true]

end LedgerClient
