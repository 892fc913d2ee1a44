import LedgerClient.Proofs.Repetition
import Mathlib.Data.List.Basic

/-!
# Nothing is lost at a restart

A contract listener with a checkpointer follows a ledger; its session stops at any moment, and a new
one begins at the checkpoint.  Of all events on the ledger, in their order, the first session has
told a front part and the second tells what the checkpoint does not cover, which is a back part; the
two overlap at most in the events of one transaction, which was told in part or in whole and not
yet recorded.

The invariant (`Resumable`) says just this at every moment of a run: what is due by the checkpoint
completes what was told, up to the events of one transaction.  Between two deliveries nothing
overlaps (`Boundary`), within a block `Within` says what is left of it.
-/

namespace LedgerClient

/-! ## What is due -/

instance (c : Checkpoint) (n : Nat) (id : String) : Decidable (c.Covers n id) :=
  inferInstanceAs (Decidable (∃ next ∈ c.next, n < next ∨ n = next ∧ id ∈ c.delivered))

/-- The block that a delivery brings. -/
def Delivery.block? : Delivery → Option Block
  | .block _ b => some b
  | .fault _ => none

namespace EventFilter

/-- The matching events of the valid transactions of a ledger, in their order. -/
def eventsOf (f : EventFilter) (ledger : List Block) : List EventNotice :=
  ledger.flatMap fun b => (b.transactions.filter (·.code.isValid)).flatMap fun t =>
    (t.events.filter f.accepts).map (f.notice b.number t)

/-- The events of a ledger that a checkpoint does not cover. -/
def due (f : EventFilter) (c : Checkpoint) (ledger : List Block) : List EventNotice :=
  ledger.flatMap fun b =>
    b.transactions.flatMap fun t => if c.Covers b.number t.id then [] else f.notices b.number t

/-- The events of the transactions of a block whose ids are not among the given ones. -/
def left (f : EventFilter) (n : Nat) (delivered : List String) (ts : List BlockTransaction) :
    List EventNotice :=
  ts.flatMap fun t => if t.id ∈ delivered then [] else f.notices n t

variable {f : EventFilter} {c : Checkpoint}

@[simp] theorem due_nil : f.due c [] = [] := rfl

@[simp] theorem due_append (bs bs' : List Block) :
    f.due c (bs ++ bs') = f.due c bs ++ f.due c bs' := List.flatMap_append

theorem due_cons (b : Block) (bs : List Block) :
    f.due c (b :: bs) = f.due c [b] ++ f.due c bs := by
  rw [← due_append, List.singleton_append]

theorem due_of_past {bs : List Block} (h : ∀ b ∈ bs, c.Past b.number) : f.due c bs = [] := by
  simp only [due, List.flatMap_eq_nil_iff]
  intro b hb t _
  rw [if_pos (Checkpoint.covers_of_past (h b hb) t.id)]

theorem flatMap_notices (f : EventFilter) (n : Nat) (ts : List BlockTransaction) :
    ts.flatMap (f.notices n) = (ts.filter (·.code.isValid)).flatMap fun t =>
      (t.events.filter f.accepts).map (f.notice n t) := by
  induction ts with
  | nil => rfl
  | cons t ts ih =>
    rw [List.flatMap_cons, ih, List.filter_cons, notices]
    split_ifs <;> rfl

theorem due_of_ahead {bs : List Block}
    (h : ∀ b ∈ bs, ∀ next, c.next = some next → next < b.number) : f.due c bs = f.eventsOf bs := by
  induction bs with
  | nil => rfl
  | cons b bs ih =>
    have hb : ∀ t : BlockTransaction, ¬ c.Covers b.number t.id := fun t =>
      Checkpoint.not_covers_of_next_lt (h b List.mem_cons_self) t.id
    have hbs := ih fun b' hb' => h b' (List.mem_cons_of_mem _ hb')
    simp only [due, eventsOf, List.flatMap_cons, hb, if_false, flatMap_notices] at hbs ⊢
    rw [hbs]

theorem due_startingAt {bs : List Block} {m : Nat} (h : ∀ b ∈ bs, m ≤ b.number) :
    f.due (.startingAt m) bs = f.eventsOf bs := by
  induction bs with
  | nil => rfl
  | cons b bs ih =>
    have hb : ∀ t : BlockTransaction, ¬ (Checkpoint.startingAt m).Covers b.number t.id := by
      intro t ht
      have := Checkpoint.covers_startingAt.1 ht
      have := h b List.mem_cons_self
      omega
    have hbs := ih fun b' hb' => h b' (List.mem_cons_of_mem _ hb')
    simp only [due, eventsOf, List.flatMap_cons, hb, if_false, flatMap_notices] at hbs ⊢
    rw [hbs]

@[simp] theorem left_append (n : Nat) (ids : List String) (ts ts' : List BlockTransaction) :
    f.left n ids (ts ++ ts') = f.left n ids ts ++ f.left n ids ts' := List.flatMap_append

theorem left_cons_of_not_mem {n : Nat} {ids : List String} {t : BlockTransaction}
    (h : t.id ∉ ids) (ts : List BlockTransaction) :
    f.left n ids (t :: ts) = f.notices n t ++ f.left n ids ts := by
  rw [left, List.flatMap_cons, if_neg h]
  rfl

/-- Recording an id takes away what only transactions with this id have to tell. -/
theorem left_insert {n : Nat} {ids : List String} {id : String} {ts : List BlockTransaction}
    (h : ∀ t ∈ ts, f.notices n t ≠ [] → t.id ≠ id) :
    f.left n (Checkpoint.insert id ids) ts = f.left n ids ts := by
  refine List.flatMap_congr fun t ht => ?_
  by_cases hne : f.notices n t = []
  · simp [hne]
  · simp [Checkpoint.mem_insert, h t ht hne]

theorem due_at {b : Block} (h : c.next = some b.number) :
    f.due c [b] = f.left b.number c.delivered b.transactions := by
  simp only [due, left, List.flatMap_singleton, Checkpoint.covers_iff_of_next h]

/-- In the middle of a block what is due is what the transactions that are left have to tell, and
all that comes after. -/
theorem due_within {b : Block} {ts₁ ts : List BlockTransaction} {rest : List Block}
    (hnext : c.next = some b.number) (hts : b.transactions = ts₁ ++ ts)
    (htaken : ∀ t ∈ ts₁, f.notices b.number t ≠ [] → t.id ∈ c.delivered)
    (ahead : ∀ b' ∈ rest, b.number < b'.number) :
    f.due c (b :: rest) = f.left b.number c.delivered ts ++ f.eventsOf rest := by
  have hnil : f.left b.number c.delivered ts₁ = [] := by
    simp only [left, List.flatMap_eq_nil_iff]
    intro t ht
    split_ifs with hid
    · rfl
    · by_contra hne
      exact hid (htaken t ht hne)
  have hrest : f.due c rest = f.eventsOf rest := due_of_ahead fun b' hb' next hn => by
    rw [hnext] at hn
    cases hn
    exact ahead b' hb'
  rw [due_cons, due_at hnext, hts, left_append, hnil, List.nil_append, hrest]

theorem not_covers_of_mem_due {bs : List Block} {e : EventNotice} (h : e ∈ f.due c bs) :
    ¬ c.Covers e.block e.transaction := by
  simp only [due, List.mem_flatMap] at h
  obtain ⟨b, -, t, -, he⟩ := h
  split_ifs at he with hc
  · cases he
  · obtain ⟨hb, ht⟩ := of_mem_notices he
    rwa [hb, ht]

end EventFilter

/-! ## The invariant -/

namespace Account

/-- The events that the listener was told of. -/
def events (w : Account) : List EventNotice :=
  w.told.filterMap fun
    | (.event e, _) => some e
    | _ => none

@[simp] theorem events_change (w : Account) (c : CheckpointChange) :
    (w.change c).events = w.events := rfl

@[simp] theorem events_tells (w : Account) (rs : List (EventNotice × Bool)) :
    (w.tells rs).events = w.events ++ rs.map Prod.fst := by
  simp only [events, tells, List.filterMap_append, List.filterMap_map, Function.comp_def]
  exact congrArg (w.events ++ ·) (congrFun (List.filterMap_eq_map (f := Prod.fst)) rs)

@[simp] theorem events_fault (w : Account) (p : PeerFault) (ok : Bool) :
    (w.tell (.fault p) ok).events = w.events := by
  simp [events, tell]

end Account

/-- What was told and what is due by the checkpoint make up `total`, but for the events of one
transaction that was told and is not covered yet. -/
def Resumable (f : EventFilter) (ledger : List Block) (total : List EventNotice) (w : Account) :
    Prop :=
  ∃ before during, w.events = before ++ during ∧ total = before ++ f.due w.checkpoint ledger ∧
    during <+: f.due w.checkpoint ledger ∧
    (∀ e ∈ before, w.checkpoint.Covers e.block e.transaction) ∧
    ∀ e ∈ during, ∀ e' ∈ during, e.block = e'.block ∧ e.transaction = e'.transaction

/-- What was told is a front part of it all. -/
theorem Resumable.events_prefix {f : EventFilter} {ledger : List Block} {total : List EventNotice}
    {w : Account} (h : Resumable f ledger total w) : w.events <+: total := by
  obtain ⟨before, during, hevents, htotal, hduring, -, -⟩ := h
  rw [hevents, htotal]
  exact (List.prefix_append_right_inj before).2 hduring

/-- Between two deliveries: the checkpoint is past the blocks that were handled, and what was told
is covered and completed by what is due of the rest. -/
structure Boundary (f : EventFilter) (handled rest : List Block) (total : List EventNotice)
    (w : Account) : Prop where
  past : ∀ b ∈ handled, w.checkpoint.Past b.number
  complete : w.events ++ f.due w.checkpoint rest = total
  covers : ∀ e ∈ w.events, w.checkpoint.Covers e.block e.transaction

theorem Boundary.resumable {f : EventFilter} {handled rest : List Block}
    {total : List EventNotice} {w : Account} (h : Boundary f handled rest total w) :
    Resumable f (handled ++ rest) total w := by
  refine ⟨w.events, [], by simp, ?_, List.nil_prefix, h.covers, by simp⟩
  rw [EventFilter.due_append, EventFilter.due_of_past h.past, List.nil_append, h.complete]

theorem Boundary.moveTo {f : EventFilter} {handled rest : List Block} {b : Block}
    {total : List EventNotice} {w : Account} (h : Boundary f handled (b :: rest) total w)
    (ahead : ∀ b' ∈ rest, b.number < b'.number)
    (hlt : ∀ next, w.checkpoint.next = some next → next < b.number) :
    Boundary f handled (b :: rest) total (w.change (.moveTo b.number)) := by
  refine ⟨fun b' hb' => (h.past b' hb').moveTo hlt, ?_, fun e he => (h.covers e he).moveTo hlt⟩
  have hdue : f.due w.checkpoint (b :: rest) = f.eventsOf (b :: rest) :=
    EventFilter.due_of_ahead (List.forall_mem_cons.2
      ⟨hlt, fun b' hb' next hn => Nat.lt_trans (hlt next hn) (ahead b' hb')⟩)
  have hdue' : f.due (.startingAt b.number) (b :: rest) = f.eventsOf (b :: rest) :=
    EventFilter.due_startingAt (List.forall_mem_cons.2
      ⟨Nat.le_refl _, fun b' hb' => Nat.le_of_lt (ahead b' hb')⟩)
  rw [← h.complete, hdue]
  exact congrArg (w.events ++ ·) hdue'

/-- A block that the checkpoint is past needs nothing more. -/
theorem Boundary.skip {f : EventFilter} {handled rest : List Block} {b : Block}
    {total : List EventNotice} {w : Account} (h : Boundary f handled (b :: rest) total w)
    (hb : w.checkpoint.Past b.number) : Boundary f (handled ++ [b]) rest total w := by
  refine ⟨fun b' hb' => ?_, ?_, h.covers⟩
  · rcases List.mem_append.1 hb' with hb' | hb'
    · exact h.past b' hb'
    · obtain rfl := List.mem_singleton.1 hb'
      exact hb
  · have hdue : f.due w.checkpoint [b] = [] := EventFilter.due_of_past (by simpa using hb)
    rw [← h.complete, EventFilter.due_cons, hdue, List.nil_append]

theorem Boundary.fault {f : EventFilter} {handled rest : List Block} {total : List EventNotice}
    {w : Account} (h : Boundary f handled rest total w) (p : PeerFault) (ok : Bool) :
    Boundary f handled rest total (w.tell (.fault p) ok) := by
  refine ⟨h.past, ?_, ?_⟩
  · rw [Account.events_fault]
    exact h.complete
  · rw [Account.events_fault]
    exact h.covers

/-- Within a block: the checkpoint is at it, and of its transactions those taken so far are recorded
where there was something to tell. -/
structure Within (f : EventFilter) (handled rest : List Block) (total : List EventNotice)
    (b : Block) (delivered : List String) (ts : List BlockTransaction) (w : Account) : Prop where
  boundary : Boundary f handled (b :: rest) total w
  ahead : ∀ b' ∈ rest, b.number < b'.number
  at_transactions : AtTransactions f b.number delivered ts w
  keeps : ∀ id ∈ delivered, id ∈ w.checkpoint.delivered
  taken : ∃ ts₁, b.transactions = ts₁ ++ ts ∧
    ∀ t ∈ ts₁, f.notices b.number t ≠ [] → t.id ∈ w.checkpoint.delivered

namespace Within

variable {f : EventFilter} {handled rest : List Block} {total : List EventNotice} {b : Block}
  {delivered : List String} {ts : List BlockTransaction} {w : Account}

/-- What is due is what the transactions that are left have to tell, and all that comes after. -/
theorem due_eq (h : Within f handled rest total b delivered ts w) :
    f.due w.checkpoint (b :: rest) =
      f.left b.number w.checkpoint.delivered ts ++ f.eventsOf rest := by
  obtain ⟨ts₁, hts, htaken⟩ := h.taken
  exact EventFilter.due_within h.at_transactions.1 hts htaken h.ahead

theorem skip {t : BlockTransaction} (h : Within f handled rest total b delivered (t :: ts) w)
    (ht : f.notices b.number t = [] ∨ t.id ∈ delivered) :
    Within f handled rest total b delivered ts w := by
  obtain ⟨ts₁, hts, htaken⟩ := h.taken
  refine ⟨h.boundary, h.ahead, h.at_transactions.tail, h.keeps, ts₁ ++ [t], by simp [hts], ?_⟩
  intro t' ht' hne
  rcases List.mem_append.1 ht' with ht' | ht'
  · exact htaken t' ht' hne
  · obtain rfl := List.mem_singleton.1 ht'
    exact h.keeps _ (ht.resolve_left hne)

/-- A transaction whose turn it is and that has something to tell is not recorded yet. -/
theorem not_recorded {t : BlockTransaction}
    (h : Within f handled rest total b delivered (t :: ts) w) (hne : f.notices b.number t ≠ [])
    (hid : t.id ∉ delivered) : t.id ∉ w.checkpoint.delivered := fun hd =>
  hid (h.at_transactions.2.2 t List.mem_cons_self hne hd)

/-- Its events are then the first that are due. -/
theorem due_cons {t : BlockTransaction}
    (h : Within f handled rest total b delivered (t :: ts) w) (hne : f.notices b.number t ≠ [])
    (hid : t.id ∉ delivered) :
    f.due w.checkpoint (b :: rest) = f.notices b.number t ++
      (f.left b.number w.checkpoint.delivered ts ++ f.eventsOf rest) := by
  rw [h.due_eq, EventFilter.left_cons_of_not_mem (h.not_recorded hne hid), List.append_assoc]

/-- While the events of a transaction are told, they are the overlap. -/
theorem resumable_tells {t : BlockTransaction}
    (h : Within f handled rest total b delivered (t :: ts) w) (hid : t.id ∉ delivered)
    {rs : List (EventNotice × Bool)} {es : List EventNotice}
    (hrs : f.notices b.number t = rs.map Prod.fst ++ es) (hne : f.notices b.number t ≠ []) :
    Resumable f (handled ++ b :: rest) total (w.tells rs) := by
  have hdue : f.due w.checkpoint (handled ++ b :: rest) = f.due w.checkpoint (b :: rest) := by
    rw [EventFilter.due_append, EventFilter.due_of_past h.boundary.past, List.nil_append]
  refine ⟨w.events, rs.map Prod.fst, w.events_tells rs, ?_, ?_, h.boundary.covers, ?_⟩
  · rw [Account.tells_checkpoint, hdue, h.boundary.complete]
  · rw [Account.tells_checkpoint, hdue, h.due_cons hne hid, hrs, List.append_assoc]
    exact List.prefix_append _ _
  · intro e he e' he'
    have hmem : ∀ x ∈ rs.map Prod.fst, x ∈ f.notices b.number t := fun x hx => by
      rw [hrs]
      exact List.mem_append_left _ hx
    obtain ⟨hb, ht⟩ := EventFilter.of_mem_notices (hmem e he)
    obtain ⟨hb', ht'⟩ := EventFilter.of_mem_notices (hmem e' he')
    exact ⟨hb.trans hb'.symm, ht.trans ht'.symm⟩

/-- Once they were told and the transaction is recorded, nothing overlaps. -/
theorem record {t : BlockTransaction}
    (h : Within f handled rest total b delivered (t :: ts) w) (hid : t.id ∉ delivered)
    {rs : List (EventNotice × Bool)} (hrs : rs.map Prod.fst = f.notices b.number t)
    (hne : f.notices b.number t ≠ []) :
    Within f handled rest total b delivered ts ((w.tells rs).change (.record t.id)) := by
  have hnext := h.at_transactions.1
  have hdistinct := List.pairwise_cons.1 h.at_transactions.2.1
  obtain ⟨ts₁, hts, htaken⟩ := h.taken
  have hrecords : ∀ id ∈ w.checkpoint.delivered,
      id ∈ Checkpoint.insert t.id w.checkpoint.delivered :=
    fun id hid => Checkpoint.mem_insert.2 (Or.inr hid)
  -- no transaction that is left shares the id, so recording it takes nothing else from what is due
  have hother : ∀ t' ∈ ts, f.notices b.number t' ≠ [] → t'.id ≠ t.id := fun t' ht' hne' heq =>
    hdistinct.1 t' ht' (EventFilter.isValid_of_notices hne) (EventFilter.isValid_of_notices hne')
      heq.symm
  have htaken' : ∀ t' ∈ ts₁ ++ [t], f.notices b.number t' ≠ [] →
      t'.id ∈ Checkpoint.insert t.id w.checkpoint.delivered := by
    intro t' ht' hne'
    rcases List.mem_append.1 ht' with ht' | ht'
    · exact hrecords _ (htaken t' ht' hne')
    · obtain rfl := List.mem_singleton.1 ht'
      exact Checkpoint.mem_insert.2 (Or.inl rfl)
  have hat : AtTransactions f b.number delivered ts ((w.tells rs).change (.record t.id)) := by
    refine ⟨hnext, hdistinct.2, fun t' ht' hne' hd => ?_⟩
    rcases Checkpoint.mem_insert.1 hd with heq | hd
    · exact absurd heq (hother t' ht' hne')
    · exact h.at_transactions.2.2 t' (List.mem_cons_of_mem _ ht') hne' hd
  have hdue : f.due ((w.tells rs).change (.record t.id)).checkpoint (b :: rest) =
      f.left b.number w.checkpoint.delivered ts ++ f.eventsOf rest := by
    have hnext' : ((w.tells rs).change (.record t.id)).checkpoint.next = some b.number := hnext
    have hts' : b.transactions = (ts₁ ++ [t]) ++ ts := by simp [hts]
    rw [EventFilter.due_within hnext' hts' htaken' h.ahead]
    exact congrArg (· ++ f.eventsOf rest) (EventFilter.left_insert hother)
  refine ⟨⟨fun b' hb' => h.boundary.past b' hb', ?_, ?_⟩, h.ahead, hat,
    fun id hid' => hrecords id (h.keeps id hid'), ts₁ ++ [t], by simp [hts], htaken'⟩
  · rw [hdue, ← h.boundary.complete, h.due_cons hne hid, Account.events_change,
      Account.events_tells, hrs, List.append_assoc]
  · intro e he
    rw [Account.events_change, Account.events_tells, hrs] at he
    rcases List.mem_append.1 he with he | he
    · exact (h.boundary.covers e he).record t.id
    · obtain ⟨hb, ht⟩ := EventFilter.of_mem_notices he
      rw [hb, ht]
      exact ⟨b.number, hnext, Or.inr ⟨rfl, Checkpoint.mem_insert.2 (Or.inl rfl)⟩⟩

/-- When no transaction is left and the checkpoint moves past the block, the block is handled. -/
theorem leave (h : Within f handled rest total b delivered [] w) :
    Boundary f (handled ++ [b]) rest total (w.change (.moveTo (b.number + 1))) := by
  have hnext := h.at_transactions.1
  have hlt : ∀ next, w.checkpoint.next = some next → next < b.number + 1 := fun next hn => by
    rw [hnext] at hn
    cases hn
    omega
  refine ⟨fun b' hb' => ?_, ?_, fun e he => (h.boundary.covers e he).moveTo hlt⟩
  · rcases List.mem_append.1 hb' with hb' | hb'
    · exact (h.boundary.past b' hb').moveTo hlt
    · obtain rfl := List.mem_singleton.1 hb'
      exact Checkpoint.past_startingAt.2 (by omega)
  · have hdue : f.due (.startingAt (b.number + 1)) rest = f.eventsOf rest :=
      EventFilter.due_startingAt fun b' hb' => h.ahead b' hb'
    rw [← h.boundary.complete, h.due_eq]
    exact congrArg (w.events ++ ·) hdue

end Within

/-! ## The plans -/

/-- An incident of a single session in which nothing fails. -/
def Incident.Smooth (e : Incident) : Prop := e.Succeeds ∧ e ≠ .restarts

section Plans

variable {f : EventFilter} {handled rest : List Block} {total : List EventNotice} {b : Block}

theorem blockRule_resumable (delivered : List String) :
    BlockRule Incident.Smooth (fun _ => Resumable f (handled ++ b :: rest) total)
      (Boundary f (handled ++ [b]) rest total) f b.number delivered
      (fun complete ts w => complete = true ∧ Within f handled rest total b delivered ts w) where
  skips h ht := ⟨h.1, h.2.skip ht⟩
  tells := by
    rintro complete t ts w ⟨-, h⟩ hid rs e r es hes _ _
    have hes' : f.notices b.number t = (rs ++ [(e, r)]).map Prod.fst ++ es := by simp [hes]
    exact h.resumable_tells hid hes' (by simp [hes])
  fails := by
    rintro complete t ts w - - rs - hall ⟨x, hx, hf⟩
    exact absurd hf (by simp [show x.2 = true from (hall x hx).1])
  records := by
    rintro complete t ts w ⟨hc, h⟩ hid rs hrs hne _ _ ok hok
    obtain rfl : ok = true := hok.1
    have h' := h.record hid hrs (by rw [← hrs]; simpa using hne)
    exact ⟨h'.boundary.resumable, hc, h'⟩
  leaves h := by simp at h
  ends := by
    rintro w ⟨-, h⟩ ok hok
    obtain rfl : ok = true := hok.1
    refine ⟨?_, h.leave⟩
    have := h.leave.resumable
    rwa [List.append_assoc, List.singleton_append] at this

theorem keeps_ofContract_resumable (hb : b.Distinct) (ahead : ∀ b' ∈ rest, b.number < b'.number)
    {w : Account} (h : Boundary f handled (b :: rest) total w) :
    (Plan.ofContract true f b).Keeps Incident.Smooth
      (fun _ => Resumable f (handled ++ b :: rest) total)
      (Boundary f (handled ++ [b]) rest total) w := by
  have enters (w : Account) (h : Boundary f handled (b :: rest) total w)
      (hn : w.checkpoint.next = some b.number) :
      (Plan.ofTransactions true f b.number w.checkpoint.delivered true b.transactions).Keeps
        Incident.Smooth (fun _ => Resumable f (handled ++ b :: rest) total)
        (Boundary f (handled ++ [b]) rest total) w :=
    (blockRule_resumable w.checkpoint.delivered).keeps
      ⟨rfl, h, ahead, ⟨hn, hb, fun _ _ _ hd => hd⟩, fun _ hd => hd, [], rfl, by simp⟩
  refine Plan.keeps_ofContract (fun _ hok => hok.1) h.skip (enters w h) ?_
  intro hlt ok hok
  obtain rfl : ok = true := hok.1
  exact ⟨(h.moveTo ahead hlt).resumable, enters _ (h.moveTo ahead hlt) rfl⟩

end Plans

/-! ## Runs -/

/-- The events of a chaincode that a listener with these options asks for. -/
def ListenerOptions.filter (o : ListenerOptions) (chaincode : String) : EventFilter :=
  ⟨chaincode, o.eventName, o.kind⟩

/-- The blocks that the present session is still handed. -/
def Incident.fed (es : List Incident) : List Block := (arrivals es).filterMap Delivery.block?

/-- A ledger whose blocks come in the order of their numbers, with no id used twice in a block. -/
structure IsLedger (ledger : List Block) : Prop where
  increasing : ledger.Pairwise fun b b' => b.number < b'.number
  distinct : ∀ b ∈ ledger, b.Distinct

/-- Between two deliveries of a session that is handed a ledger but for its last blocks `unfed`:
what it still has to take makes up the ledger together with what was handled. -/
def Proceeding (f : EventFilter) (ledger unfed : List Block) (total : List EventNotice)
    (floor last : Option Nat) (ds : List Delivery) (w : Account) : Prop :=
  ∃ handled, ledger = handled ++ (ds.filterMap Delivery.block? ++ unfed) ∧
    Boundary f handled (ds.filterMap Delivery.block? ++ unfed) total w ∧
    ∀ b ∈ ds.filterMap Delivery.block?,
      Session.reaches floor b.number ∧ Session.reaches last b.number

theorem rule_resumable (chaincode : String) (l : ListenerId) {o : ListenerOptions}
    (ho : o.checkpointer.isSome) {ledger : List Block} (hledger : IsLedger ledger)
    (unfed : List Block) (total : List EventNotice) :
    Watch.Rule (o.opening (.events chaincode l)) Incident.Smooth
      (fun _ => Resumable (o.filter chaincode) ledger total)
      (Proceeding (o.filter chaincode) ledger unfed total)
      (ListenerKey.audience o (.events chaincode l)) where
  fresh _ := rfl
  opens _ _ h := absurd rfl h.2
  handles := by
    rintro s d ds w ⟨handled, hl, hb, hreach⟩ hacc
    cases d with
    | fault p =>
      intro ok _
      change ledger = handled ++ (ds.filterMap Delivery.block? ++ unfed) at hl
      have h : Resumable _ (handled ++ (ds.filterMap Delivery.block? ++ unfed)) _ _ :=
        (hb.fault p ok).resumable
      rw [← hl] at h
      exact ⟨h, handled, hl, hb.fault p ok, hreach⟩
    | block peer b =>
      have hl' : ledger = handled ++ b :: (ds.filterMap Delivery.block? ++ unfed) := hl
      have hahead := (List.pairwise_append.1 (hl' ▸ hledger.increasing)).2.1
      rw [List.pairwise_cons] at hahead
      have hkeeps := keeps_ofContract_resumable (hledger.distinct b (by simp [hl'])) hahead.1 hb
      rw [← hl'] at hkeeps
      simp only [ListenerKey.audience, Audience.plan, ho]
      refine hkeeps.mono fun w' hw' => ⟨handled ++ [b], by simp [hl'], hw', fun b' hb' => ?_⟩
      refine ⟨(hreach b' (List.mem_cons_of_mem _ hb')).1, ?_⟩
      have := hahead.1 b' (List.mem_append_left _ hb')
      simpa [Session.numberOf, Session.reaches] using Nat.le_of_lt this
  passes := by
    rintro s d ds w ⟨handled, hl, hb, hreach⟩ hacc
    cases d with
    | fault p => cases hacc
    | block peer b =>
      have hr := hreach b List.mem_cons_self
      simp [Session.accepts, hr.1, hr.2] at hacc

/-- A ledger is made up of what a bound leaves out and what it lets through. -/
theorem split_at_bound {ledger : List Block} (hl : IsLedger ledger) (bound : Option Nat) :
    (ledger.filter fun b => !Session.reaches bound b.number) ++
      ledger.filter (fun b => Session.reaches bound b.number) = ledger := by
  obtain ⟨hinc, -⟩ := hl
  induction ledger with
  | nil => rfl
  | cons b bs ih =>
    rw [List.pairwise_cons] at hinc
    cases hb : Session.reaches bound b.number with
    | false => simp [hb, ih hinc.2]
    | true =>
      have hbs : ∀ b' ∈ bs, Session.reaches bound b'.number = true := fun b' hb' => by
        have := hinc.1 b' hb'
        cases bound with
        | none => rfl
        | some n =>
          simp only [Session.reaches, decide_eq_true_eq] at hb ⊢
          omega
      have hnone : bs.filter (fun b => !Session.reaches bound b.number) = [] := by
        simpa using hbs
      have hall : bs.filter (fun b => Session.reaches bound b.number) = bs := by
        simpa using hbs
      simp [hb, hnone, hall]

theorem increasing_of_range' {ledger : List Block} {s : Nat}
    (h : ledger.map (·.number) = List.range' s ledger.length) :
    ledger.Pairwise fun b b' => b.number < b'.number := by
  rw [← List.pairwise_map, h]
  exact List.pairwise_lt_range'

section Runs

variable (chaincode : String) (l : ListenerId) {o : ListenerOptions} {ledger : List Block}

/-- A new session proceeds from what its checkpoint leaves due of the ledger. -/
theorem proceeding_start (hledger : IsLedger ledger)
    (hstart : ∀ b ∈ ledger, Session.reaches o.startBlock b.number) (c : Checkpoint)
    {es : List Incident} {unfed : List Block}
    (hfed : Incident.fed es ++ unfed =
      ledger.filter fun b => Session.reaches (c.next.or o.startBlock) b.number) :
    Proceeding (o.filter chaincode) ledger unfed ((o.filter chaincode).due c ledger)
      (c.next.or o.startBlock) none (Incident.arrivals es) ⟨c, []⟩ := by
  have hsplit := split_at_bound hledger (c.next.or o.startBlock)
  have hpast : ∀ b ∈ ledger.filter fun b => !Session.reaches (c.next.or o.startBlock) b.number,
      c.Past b.number := by
    intro b hb
    obtain ⟨hb, hr⟩ := List.mem_filter.1 hb
    cases hn : c.next with
    | none => simp [hn, hstart b hb] at hr
    | some n => exact ⟨n, hn, by simpa [hn, Session.reaches] using hr⟩
  refine ⟨_, ?_, ⟨hpast, ?_, by simp [Account.events]⟩, fun b hb => ⟨?_, rfl⟩⟩
  · exact hsplit.symm.trans (congrArg _ hfed.symm)
  · have hdue := congrArg ((o.filter chaincode).due c) hsplit
    rw [EventFilter.due_append, EventFilter.due_of_past hpast, ← hfed] at hdue
    exact hdue
  · have hmem : b ∈ Incident.fed es ++ unfed := List.mem_append_left _ hb
    rw [hfed] at hmem
    exact (List.mem_filter.1 hmem).2

/-- Whatever the moment at which a session is left, what is due by its checkpoint completes what it
told; and a session that has taken all and was not removed has told all that was due. -/
theorem resumable_run (ho : o.checkpointer.isSome) (hledger : IsLedger ledger)
    (hstart : ∀ b ∈ ledger, Session.reaches o.startBlock b.number) (c : Checkpoint)
    {es : List Incident} (hes : ∀ e ∈ es, e.Smooth) {unfed : List Block}
    (hfed : Incident.fed es ++ unfed =
      ledger.filter fun b => Session.reaches (c.next.or o.startBlock) b.number) :
    let opens := o.opening (.events chaincode l)
    let a := (Watch.start opens ⟨c, []⟩).run opens es
    Resumable (o.filter chaincode) ledger ((o.filter chaincode).due c ledger) a.account ∧
      (unfed = [] → a.session.removed = false → a.Idle →
        a.account.events = (o.filter chaincode).due c ledger) := by
  intro opens a
  have rule := rule_resumable chaincode l ho hledger unfed ((o.filter chaincode).due c ledger)
  have hproceeds := proceeding_start chaincode hledger hstart c hfed
  obtain ⟨hholds, hsteps⟩ := (rule.holds_start ⟨c, []⟩ hproceeds).run_all rule
    (rule.audience_start ⟨c, []⟩) hes
  refine ⟨?_, fun hunfed hremoved ⟨hwork, hqueue⟩ => ?_⟩
  · rcases Relation.ReflTransGen.cases_tail hsteps with heq | ⟨w, -, hw⟩
    · obtain ⟨handled, hl, hb, -⟩ := hproceeds
      have := hb.resumable
      rw [← hl] at this
      exact heq ▸ this
    · exact hw
  · obtain ⟨handled, -, hb, -⟩ := (Watch.holds_of_none hwork).1 hholds hremoved
    have hcomplete := hb.complete
    rw [hqueue, hunfed] at hcomplete
    simpa using hcomplete

/-- A contract listener with a checkpointer that has nothing yet is handed the front part of a
ledger that begins at its start block; nothing fails, it may be removed, and the run is left at any
moment.  A second session begins where the checkpoint says and is handed the ledger from there.

Of the events on the ledger the first session has told a front part, and the second tells the back
part that is due, in its order, and all of it once it has been handed all.  The two parts overlap in
events of one transaction that the checkpoint did not have. -/
theorem nothing_lost_at_restart (ho : o.checkpointer.isSome = true) (s : Nat)
    (hs : o.startBlock = some s) (hledger : ledger.map (·.number) = List.range' s ledger.length)
    (hdistinct : ∀ b ∈ ledger, b.Distinct) (es₁ : List Incident) (h₁ : ∀ e ∈ es₁, e.Smooth)
    (hfed₁ : Incident.fed es₁ <+: ledger) :
    let opens := o.opening (.events chaincode l)
    let f := o.filter chaincode
    let first := (Watch.start opens ⟨.empty, []⟩).run opens es₁
    let c := first.account.checkpoint
    let second := (Watch.start opens ⟨c, []⟩).run opens
    let fromStart := ledger.filter fun b => Session.reaches (c.next.or (some s)) b.number
    ∃ before during after, f.eventsOf ledger = before ++ (during ++ after) ∧
      first.account.events = before ++ during ∧
      (∀ e ∈ before, e ∉ during ++ after) ∧
      (∀ e ∈ during, ¬ c.Covers e.block e.transaction) ∧
      (∀ e ∈ during, ∀ e' ∈ during, e.block = e'.block ∧ e.transaction = e'.transaction) ∧
      (∀ es₂, (∀ e ∈ es₂, e.Smooth) → Incident.fed es₂ <+: fromStart →
        (second es₂).account.events <+: during ++ after) ∧
      ∀ es₂, (∀ e ∈ es₂, e.Smooth ∧ e ≠ .removed) → Incident.fed es₂ = fromStart →
        ((second es₂).Idle → (second es₂).account.events = during ++ after) ∧
        ∃ es₃, (∀ e ∈ es₃, e.Serves) ∧ (second (es₂ ++ es₃)).Idle := by
  intro opens f first c second fromStart
  have hl : IsLedger ledger := ⟨increasing_of_range' hledger, hdistinct⟩
  have hstart : ∀ b ∈ ledger, Session.reaches o.startBlock b.number := by
    intro b hb
    have : b.number ∈ List.range' s ledger.length := hledger ▸ List.mem_map_of_mem hb
    rw [hs]
    simpa [Session.reaches] using (List.mem_range'_1.1 this).1
  have hfrom : fromStart =
      ledger.filter fun b => Session.reaches (c.next.or o.startBlock) b.number := by
    rw [hs]
  -- the first session: its ledger is all that an empty checkpoint leaves due
  have hall : ledger.filter (fun b => Session.reaches ((Checkpoint.empty.next).or o.startBlock)
      b.number) = ledger := List.filter_eq_self.2 hstart
  obtain ⟨unfed, hunfed⟩ := hfed₁
  obtain ⟨⟨before, during, hevents, htotal, ⟨after, hafter⟩, hcovers, hone⟩, -⟩ :=
    resumable_run chaincode l ho hl hstart .empty h₁ (hunfed.trans hall.symm)
  have hempty : f.due .empty ledger = f.eventsOf ledger :=
    EventFilter.due_of_ahead fun _ _ _ hn => by cases hn
  refine ⟨before, during, after, ?_, hevents, ?_, ?_, hone, ?_, ?_⟩
  · rw [← hempty, htotal, hafter]
  · exact fun e he hd => EventFilter.not_covers_of_mem_due (hafter ▸ hd) (hcovers e he)
  · exact fun e he => EventFilter.not_covers_of_mem_due (hafter ▸ List.mem_append_left _ he)
  · rintro es₂ h₂ ⟨unfed₂, hunfed₂⟩
    obtain ⟨h, -⟩ := resumable_run chaincode l ho hl hstart c h₂ (hunfed₂.trans hfrom)
    exact hafter ▸ h.events_prefix
  · intro es₂ h₂ hfed₂
    refine ⟨fun hidle => ?_, ?_⟩
    · have hremoved : (second es₂).session.removed = false :=
        Watch.removed_run opens (fun _ => rfl) rfl fun he => (h₂ _ he).2 rfl
      have hfed : Incident.fed es₂ ++ [] =
          ledger.filter fun b => Session.reaches (c.next.or o.startBlock) b.number := by
        rw [List.append_nil, hfed₂, hfrom]
      obtain ⟨-, h⟩ := resumable_run chaincode l ho hl hstart c (fun e he => (h₂ e he).1) hfed
      exact hafter ▸ h rfl hremoved hidle
    · have hinOrder : (second es₂).session.InOrder :=
        Watch.inOrder_run opens (fun _ => rfl) (Session.inOrder_of_none rfl) es₂
      obtain ⟨es₃, h₃, hidle⟩ := Watch.reaches_nil opens (fun _ => rfl) hinOrder
      refine ⟨es₃, h₃, ?_⟩
      rw [← Watch.run_append] at hidle
      exact hidle

end Runs

/-- The listener is removed within the call about the first event of the first transaction. -/
def removedInCall : List Incident :=
  [.arrives (.block "peer" mintAndBurn), .begins, .reads true, .changes true, .removed, .calls true]

theorem smooth_removedInCall : ∀ e ∈ removedInCall, e.Smooth := by
  simp [removedInCall, Incident.Smooth, Incident.Succeeds]

/-- The event of this call is told again, and nothing is left out. -/
theorem nothing_lost_removed_in_call :
    let opens := tokenOptions.opening (.events "token" (.app "l"))
    let f := tokenOptions.filter "token"
    let first := (Watch.start opens ⟨.empty, []⟩).run opens removedInCall
    first.account.checkpoint = ⟨some 7, []⟩ ∧ first.account.events.length = 1 ∧
      ∃ before during after, f.eventsOf [mintAndBurn] = before ++ (during ++ after) ∧
        first.account.events = before ++ during ∧
        ∀ e ∈ during, ∀ e' ∈ during, e.block = e'.block ∧ e.transaction = e'.transaction := by
  obtain ⟨before, during, after, hall, htold, -, -, hone, -⟩ :=
    @nothing_lost_at_restart "token" (.app "l") tokenOptions [mintAndBurn] rfl 7 rfl rfl
      (by simpa using distinct_mintAndBurn) removedInCall smooth_removedInCall ⟨[], rfl⟩
  exact ⟨rfl, rfl, before, during, after, hall, htold, hone⟩

/-- The session is left when both transactions are recorded, before the block is. -/
def leftAtEnd : List Incident :=
  [.arrives (.block "peer" mintAndBurn), .begins, .reads true, .changes true, .calls true,
    .calls true, .changes true, .calls true, .changes true]

/-- The second session cannot read where the checkpoint is. -/
def restartsUnread : List Incident :=
  [.arrives (.block "peer" mintAndBurn), .begins, .reads false, .calls true, .calls true,
    .changes true, .calls true, .changes true]

/-- Where the checkpoint cannot be read, the events of two recorded transactions are told twice. -/
theorem told_twice_when_unread :
    let opens := tokenOptions.opening (.events "token" (.app "l"))
    let all := (tokenOptions.filter "token").eventsOf [mintAndBurn]
    let first := (Watch.start opens ⟨.empty, []⟩).run opens leftAtEnd
    let c := first.account.checkpoint
    let second := (Watch.start opens ⟨c, []⟩).run opens restartsUnread
    c = ⟨some 7, ["first", "second"]⟩ ∧ first.account.events = all ∧
      second.account.events = all ∧ all.map (·.transaction) = ["first", "first", "second"] :=
  ⟨rfl, rfl, rfl, rfl⟩

end LedgerClient
