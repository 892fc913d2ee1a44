import LedgerClient.Proofs.Cuts

/-!
# A block for a contract listener

What a contract listener with a checkpointer is told of one block, and where its checkpoint is
afterwards, for all answers of the listener and a removal at any moment.  The calls are the
beginning of one list (`EventFilter.wanted`); the ids that are recorded are those of the
transactions whose calls are all there and all succeeded (`EventFilter.credited`).  Between two
transactions this is an invariant of the account (`Partly`), from which it follows how the plan of
the block ends (`meets_ofContract`).  Main statement: `Watch.block_is_fanned_out`.
-/

namespace LedgerClient

/-! ## What is told and what is recorded -/

namespace EventFilter

variable (f : EventFilter) (n : Nat) (ids : List String)

/-- The events of a transaction that are told of when these ids are recorded already. -/
def wantedOf (t : BlockTransaction) : List EventNotice :=
  if t.code = .valid ∧ t.id ∉ ids then
    (t.events.filter fun e => e.chaincode = f.chaincode ∧ ∀ name ∈ f.name, e.name = name).map
      fun e =>
        { chaincode := e.chaincode, name := e.name
          payload := if f.kind = .filtered then none else e.payload
          transaction := t.id, block := n, confidential := t.confidential }
  else []

/-- The events of transactions that are told of, in their order. -/
def wanted (ts : List BlockTransaction) : List EventNotice := ts.flatMap (f.wantedOf n ids)

/-- The ids that the answers of the listener earn: each transaction with events takes as many
answers as it has events, and they must be there and be successes. -/
def credited : List BlockTransaction → List Bool → List String
  | [], _ => []
  | t :: ts, oks =>
    let k := (f.wantedOf n ids t).length
    (if 0 < k ∧ oks.take k = List.replicate k true then [t.id] else []) ++
      credited ts (oks.drop k)

variable {f n ids} {t : BlockTransaction} {ts : List BlockTransaction} {oks : List Bool}

theorem accepts_iff (e : ChaincodeEvent) :
    f.accepts e = true ↔ e.chaincode = f.chaincode ∧ ∀ name ∈ f.name, e.name = name := by
  cases hname : f.name <;> simp [accepts, hname]

theorem wantedOf_of_mem (h : t.id ∈ ids) : f.wantedOf n ids t = [] :=
  if_neg fun hwanted => hwanted.2 h

theorem wantedOf_of_not_mem (h : t.id ∉ ids) : f.wantedOf n ids t = f.notices n t := by
  have hvalid : t.code = .valid ↔ t.code.isValid = true := by
    cases t.code <;> simp [ValidationCode.isValid]
  have hfilter : (fun e => decide (e.chaincode = f.chaincode ∧ ∀ name ∈ f.name, e.name = name)) =
      f.accepts := by
    funext e
    rw [Bool.eq_iff_iff, decide_eq_true_eq, accepts_iff]
  have hnotice : f.notice n t = fun e =>
      { chaincode := e.chaincode, name := e.name
        payload := if f.kind = .filtered then none else e.payload
        transaction := t.id, block := n, confidential := t.confidential } := by
    funext e
    unfold notice
    cases f.kind <;> rfl
  simp only [wantedOf, notices, hvalid, h, not_false_eq_true, and_true, hfilter, hnotice]

@[simp] theorem wanted_cons : f.wanted n ids (t :: ts) = f.wantedOf n ids t ++ f.wanted n ids ts :=
  List.flatMap_cons

@[simp] theorem wanted_append (ts ts' : List BlockTransaction) :
    f.wanted n ids (ts ++ ts') = f.wanted n ids ts ++ f.wanted n ids ts' :=
  List.flatMap_append

theorem credited_append {ts ts' : List BlockTransaction} {oks oks' : List Bool}
    (h : oks.length = (f.wanted n ids ts).length) :
    f.credited n ids (ts ++ ts') (oks ++ oks') =
      f.credited n ids ts oks ++ f.credited n ids ts' oks' := by
  induction ts generalizing oks with
  | nil =>
    obtain rfl := List.eq_nil_of_length_eq_zero h
    rfl
  | cons t ts ih =>
    rw [wanted_cons, List.length_append] at h
    have hk : (f.wantedOf n ids t).length ≤ oks.length := by omega
    rw [List.cons_append, credited, credited, List.take_append_of_le_length hk,
      List.drop_append_of_le_length hk, ih (by rw [List.length_drop]; omega), List.append_assoc]

theorem credited_nil (ts : List BlockTransaction) : f.credited n ids ts [] = [] := by
  induction ts with
  | nil => rfl
  | cons t ts ih =>
    rw [credited, if_neg, List.drop_nil, ih, List.append_nil]
    rintro ⟨hpos, htake⟩
    have hlength := congrArg List.length htake
    rw [List.take_nil, List.length_nil, List.length_replicate] at hlength
    omega

/-- Answers that are too few for the first transaction earn nothing. -/
theorem credited_of_lt (h : oks.length < (f.wantedOf n ids t).length) :
    f.credited n ids (t :: ts) oks = [] := by
  rw [credited, if_neg, List.drop_eq_nil_of_le (Nat.le_of_lt h), credited_nil, List.append_nil]
  rintro ⟨-, htake⟩
  have hlength := congrArg List.length htake
  rw [List.length_take, List.length_replicate] at hlength
  omega

/-- A transaction with all its answers earns its id unless one of them is a failure. -/
theorem credited_singleton (h : oks.length = (f.wantedOf n ids t).length) :
    f.credited n ids [t] oks = if oks ≠ [] ∧ false ∉ oks then [t.id] else [] := by
  have hall : oks = List.replicate oks.length true ↔ false ∉ oks := by
    rw [List.eq_replicate_length]
    refine ⟨fun htrue hmem => Bool.false_ne_true (htrue false hmem), fun hmem ok hok => ?_⟩
    cases ok with
    | false => exact absurd hok hmem
    | true => rfl
  simp only [credited, ← h, List.take_length, List.length_pos_iff, hall, List.append_nil]

end EventFilter

/-! ## Between two transactions -/

/-- What the account is after some transactions of a block, or within the last of them: what was
told are the first events that are wanted, with the answers `oks`, and the ids that these earned
were recorded at the block. -/
structure Partly (f : EventFilter) (n : Nat) (ids : List String) (w₀ : Account)
    (ts : List BlockTransaction) (oks : List Bool) (w : Account) : Prop where
  short : oks.length ≤ (f.wanted n ids ts).length
  told : w.told = w₀.told ++ ((f.wanted n ids ts).zip oks).map fun x => (.event x.1, x.2)
  next : w.checkpoint.next = some n
  recorded : ∀ id, id ∈ w.checkpoint.delivered ↔ id ∈ ids ∨ id ∈ f.credited n ids ts oks

namespace Partly

variable {f : EventFilter} {n : Nat} {ids : List String} {w₀ w : Account}
  {done ts : List BlockTransaction} {t : BlockTransaction} {oks : List Bool}
  {rs : List (EventNotice × Bool)}

theorem start (hnext : w.checkpoint.next = some n) (hids : w.checkpoint.delivered = ids)
    (htold : w.told = w₀.told) : Partly f n ids w₀ [] [] w where
  short := Nat.le_refl _
  told := htold.trans (List.append_nil _).symm
  next := hnext
  recorded id := by simp [hids, EventFilter.credited]

/-- The calls so far, when some more are made about the transactions that come next. -/
theorem told_append (h : Partly f n ids w₀ done oks w)
    (hfull : oks.length = (f.wanted n ids done).length)
    (hrs : rs.map Prod.fst <+: f.wanted n ids ts) :
    (oks ++ rs.map Prod.snd).length ≤ (f.wanted n ids (done ++ ts)).length ∧
      (w.tells rs).told = w₀.told ++
        ((f.wanted n ids (done ++ ts)).zip (oks ++ rs.map Prod.snd)).map
          fun x => (.event x.1, x.2) := by
  obtain ⟨more, hmore⟩ := hrs
  have hlength := congrArg List.length hmore
  rw [List.length_append, List.length_map] at hlength
  have hzip : (f.wanted n ids ts).zip (rs.map Prod.snd) = rs := by
    rw [← hmore, ← List.append_nil (rs.map Prod.snd), List.zip_append (by simp),
      List.zip_nil_right, List.append_nil, ← List.zip_of_prod rfl rfl]
  constructor
  · simp only [EventFilter.wanted_append, List.length_append, List.length_map]
    omega
  · rw [Account.tells, h.told, EventFilter.wanted_append, List.zip_append hfull.symm, hzip,
      List.map_append, List.append_assoc]

theorem tells (h : Partly f n ids w₀ done oks w)
    (hfull : oks.length = (f.wanted n ids done).length)
    (hrs : rs.map Prod.fst <+: f.wanted n ids ts)
    (hnone : f.credited n ids ts (rs.map Prod.snd) = []) :
    Partly f n ids w₀ (done ++ ts) (oks ++ rs.map Prod.snd) (w.tells rs) := by
  obtain ⟨hshort, htold⟩ := h.told_append hfull hrs
  refine ⟨hshort, htold, h.next, fun id => ?_⟩
  rw [EventFilter.credited_append hfull, hnone, List.append_nil]
  exact h.recorded id

theorem record (h : Partly f n ids w₀ done oks w)
    (hfull : oks.length = (f.wanted n ids done).length)
    (hrs : rs.map Prod.fst = f.wantedOf n ids t)
    (hid : f.credited n ids [t] (rs.map Prod.snd) = [t.id]) :
    Partly f n ids w₀ (done ++ [t]) (oks ++ rs.map Prod.snd)
      ((w.tells rs).change (.record t.id)) := by
  have hall : rs.map Prod.fst <+: f.wanted n ids [t] := by
    rw [hrs, EventFilter.wanted_cons]
    exact List.prefix_append _ _
  obtain ⟨hshort, htold⟩ := h.told_append hfull hall
  refine ⟨hshort, htold, h.next, fun id => ?_⟩
  rw [EventFilter.credited_append hfull, hid, List.mem_append, List.mem_singleton]
  change id ∈ Checkpoint.insert t.id w.checkpoint.delivered ↔ _
  rw [Checkpoint.mem_insert, h.recorded]
  tauto

end Partly

/-! ## How the plan of a block ends -/

/-- The ends of a block's plan: cut short, left with failed calls, or ready to move past it. -/
def blockEnds (f : EventFilter) (n : Nat) (ids : List String) (w₀ : Account)
    (ts : List BlockTransaction) : Ends where
  last := .moveTo (n + 1)
  cut w := ∃ oks, Partly f n ids w₀ ts oks w
  left w := ∃ oks, Partly f n ids w₀ ts oks w ∧ oks.length = (f.wanted n ids ts).length ∧
    false ∈ oks
  ready w := ∃ oks, Partly f n ids w₀ ts oks w ∧ oks.length = (f.wanted n ids ts).length ∧
    false ∉ oks

namespace Plan

variable {f : EventFilter} {n : Nat} {ids : List String} {w₀ w : Account} {e : Ends}

/-- The events of a transaction: the plan may be cut short ahead of each of them. -/
theorem meets_ofNotices {go : Bool → Plan} {ns : List EventNotice} {ok : Bool}
    (cuts : ∀ (rs : List (EventNotice × Bool)) (n : EventNotice) (ns' : List EventNotice),
      ns = rs.map Prod.fst ++ n :: ns' → e.cut (w.tells rs))
    (goes : ∀ rs, rs.map Prod.fst = ns → (go (ok && rs.all (·.2))).Meets e (w.tells rs)) :
    (ofNotices ok go ns).Meets e w := by
  induction ns generalizing ok w with
  | nil => simpa [ofNotices] using goes [] rfl
  | cons n ns ih =>
    refine ⟨by simpa using cuts [] n ns rfl, Or.inl fun taken => ih ?_ ?_⟩
    · intro rs n' ns' hns
      simpa only [Account.tells_cons] using cuts ((n, taken) :: rs) n' ns' (by simp [hns])
    · intro rs hns
      simpa only [Account.tells_cons, List.all_cons, Bool.and_assoc] using
        goes ((n, taken) :: rs) (by simp [hns])

/-- The transactions that are left of a block.  All that was called before is `oks`. -/
theorem meets_ofTransactions {done ts : List BlockTransaction} {oks : List Bool} {complete : Bool}
    (h : Partly f n ids w₀ done oks w) (hfull : oks.length = (f.wanted n ids done).length)
    (hcomplete : complete = true ↔ false ∉ oks) :
    (ofTransactions true f n ids complete ts).Meets (blockEnds f n ids w₀ (done ++ ts)) w := by
  induction ts generalizing done oks complete w with
  | nil =>
    rw [List.append_nil, ofTransactions]
    split_ifs with hall
    · exact ⟨⟨oks, h⟩, Or.inr ⟨rfl, oks, h, hfull, hcomplete.1 hall⟩⟩
    · exact ⟨oks, h, hfull, not_not.1 fun hmem => hall (hcomplete.2 hmem)⟩
  | cons t ts ih =>
    have hassoc : done ++ t :: ts = done ++ [t] ++ ts := (List.append_assoc done [t] ts).symm
    rw [ofTransactions]
    split_ifs with hskip
    · have hnothing : f.wantedOf n ids t = [] := by
        by_cases hid : t.id ∈ ids
        · exact EventFilter.wantedOf_of_mem hid
        · rw [EventFilter.wantedOf_of_not_mem hid]
          simpa [hid] using hskip
      have hwanted : f.wanted n ids [t] = [] := by
        rw [EventFilter.wanted_cons, hnothing]
        rfl
      have hnone : ([] : List (EventNotice × Bool)).map Prod.fst <+: f.wanted n ids [t] :=
        List.nil_prefix
      have hnext := h.tells hfull hnone (EventFilter.credited_nil _)
      rw [hassoc]
      exact ih (by simpa using hnext) (by simp [hwanted, hfull]) hcomplete
    · rw [Bool.or_eq_true, not_or, List.isEmpty_iff, decide_eq_true_eq] at hskip
      obtain ⟨hne, hid⟩ := hskip
      have hnotices := EventFilter.wantedOf_of_not_mem (f := f) (n := n) hid
      refine meets_ofNotices (fun rs x xs hrs => ?_) fun rs hrs => ?_
      · -- a test ahead of a call about this transaction, which has not earned its id yet
        have hshort : rs.map Prod.fst <+: f.wanted n ids (t :: ts) := by
          rw [EventFilter.wanted_cons, hnotices, hrs, List.append_assoc]
          exact List.prefix_append _ _
        have hnone : f.credited n ids (t :: ts) (rs.map Prod.snd) = [] :=
          EventFilter.credited_of_lt (by simp [hnotices, hrs])
        exact ⟨_, h.tells hfull hshort hnone⟩
      · rw [← hnotices] at hrs hne
        have hlength : (rs.map Prod.snd).length = (f.wantedOf n ids t).length := by
          rw [← hrs, List.length_map, List.length_map]
        have hrs' : rs.map Prod.fst <+: f.wanted n ids [t] := by
          rw [hrs, EventFilter.wanted_cons]
          exact List.prefix_append _ _
        have hearned := EventFilter.credited_singleton hlength
        have hfull' : (oks ++ rs.map Prod.snd).length = (f.wanted n ids (done ++ [t])).length := by
          rw [List.length_append, hlength, hfull, EventFilter.wanted_append,
            EventFilter.wanted_cons, List.length_append, List.length_append]
          rfl
        rw [hassoc]
        cases hok : rs.all (·.2) with
        | true =>
          have hgood : false ∉ rs.map Prod.snd := by simpa using hok
          have hcalled : rs.map Prod.snd ≠ [] := by
            rw [← List.length_pos_iff, hlength, List.length_pos_iff]
            exact hne
          rw [if_pos ⟨hcalled, hgood⟩] at hearned
          exact ⟨by simp [blockEnds],
            ih (h.record hfull hrs hearned) hfull' (by simp [hcomplete, hgood])⟩
        | false =>
          have hbad : false ∈ rs.map Prod.snd := by simpa using hok
          rw [if_neg fun hgood => hgood.2 hbad] at hearned
          exact ih (h.tells hfull hrs' hearned) hfull' (by simp [hbad])

theorem meets_ofContract {b : Block} (hpast : ¬ w.checkpoint.Past b.number) :
    (ofContract true f b).Meets
      (blockEnds f b.number
        (if w.checkpoint.next = some b.number then w.checkpoint.delivered else []) w
        b.transactions) w := by
  generalize hends : blockEnds f b.number
    (if w.checkpoint.next = some b.number then w.checkpoint.delivered else []) w
    b.transactions = e
  have within (hnext : w.checkpoint.next = some b.number) :
      (ofTransactions true f b.number w.checkpoint.delivered true b.transactions).Meets e w := by
    rw [← hends, if_pos hnext]
    exact meets_ofTransactions (.start hnext rfl rfl) rfl (by simp)
  have ahead (hnext : w.checkpoint.next ≠ some b.number) :
      (change (.moveTo b.number)
        (ofTransactions true f b.number [] true b.transactions)).Meets e w := by
    have hstart : Partly f b.number [] w [] [] (w.change (.moveTo b.number)) :=
      .start rfl rfl rfl
    rw [← hends, if_neg hnext]
    exact ⟨by simp [blockEnds], meets_ofTransactions hstart rfl (by simp)⟩
  unfold ofContract
  rw [if_pos rfl, Meets]
  cases hnext : w.checkpoint.next with
  | none => exact ahead (by simp [hnext])
  | some next =>
    dsimp only
    split_ifs with hlt heq
    · exact absurd ⟨next, hnext, hlt⟩ hpast
    · exact within (heq ▸ hnext)
    · exact ahead (by simpa [hnext] using heq)

theorem meets_ofContract_past {b : Block} (hpast : w.checkpoint.Past b.number) (e : Ends)
    (hleft : e.left w) : (ofContract true f b).Meets e w := by
  obtain ⟨next, hnext, hlt⟩ := hpast
  unfold ofContract
  rw [if_pos rfl, Meets, hnext]
  dsimp only
  rw [if_pos hlt]
  exact hleft

end Plan

/-! ## A block from its beginning to its end -/

namespace Watch

variable {opens : Checkpoint → Session} {a : Watch} {l : ListenerId} {f : EventFilter}
  {name peer : String} {b : Block}

theorem onWay_begins (haudience : a.session.audience = .contract l f (some name))
    (hnext : a.session.upNext? = some (.block peer b)) {e : Ends}
    (he : (Plan.ofContract true f b).Meets e a.account) : OnWay e (a.after opens .begins) := by
  rcases a.session.take_upNext? with ⟨d, rest, hd, htake⟩ | ⟨hnone, -⟩
  · obtain rfl := Option.some.inj (hnext.symm.trans hd)
    rw [haudience] at htake
    simp only [after, htake]
    exact onWay_follow _ he
  · rw [hnext] at hnone
    cases hnone

/-- Once the session of a contract listener is removed, no call begins. -/
theorem called_of_removed (hopens : ∀ c, opens c = .new (.contract l f (some name)) (opens c).floor)
    (haudience : a.session.audience = .contract l f (some name)) (hwary : a.session.Wary)
    {es es' : List Incident} (hes' : .restarts ∉ es') :
    (a.run opens (es ++ .removed :: es')).called = (a.run opens es).called := by
  have hnone : ∀ c, (opens c).work = none := fun c => by
    rw [hopens]
    rfl
  have haudience' := audience_run hopens haudience es
  have hguarded : ∀ n p, (a.run opens es).session.work = some (n, p) → p.Guarded true := by
    intro n p hw
    rcases wary_run opens hnone hwary es n p hw with hp | ⟨l', name', go, hblock, -⟩
    · exact hp
    · rw [haudience'] at hblock
      cases hblock
  have hhushed : ((a.run opens es).after opens .removed).session.Hushed := ⟨rfl, hguarded⟩
  rw [run_append, run_cons, hushed_run opens hhushed hes']
  exact called_of_work rfl rfl rfl

/-- What has come of a block that was taken up with the account `w₀`: `oks` are the answers of the
listener. -/
structure FannedOut (f : EventFilter) (b : Block) (ids : List String) (w₀ : Account) (closed : Prop)
    (oks : List Bool) (w : Account) : Prop where
  /-- The listener was told of the first events that are wanted. -/
  told : w.told = w₀.told ++
    ((f.wanted b.number ids b.transactions).zip oks).map fun x => (.event x.1, x.2)
  answers : oks.length ≤ (f.wanted b.number ids b.transactions).length
  /-- Only a removal keeps events from it. -/
  all : ¬ closed → oks.length = (f.wanted b.number ids b.transactions).length
  /-- The checkpoint moves past the block if nothing went wrong. -/
  past : ¬ closed → false ∉ oks → w.checkpoint = .startingAt (b.number + 1)
  /-- Otherwise it stays at the block, with the ids that were earned. -/
  stays : closed ∨ false ∈ oks → w.checkpoint.next = some b.number ∧
    ∀ id, id ∈ w.checkpoint.delivered ↔
      id ∈ ids ∨ id ∈ f.credited b.number ids b.transactions oks

theorem Concluded.fannedOut {ids : List String} {w₀ w : Account} {closed : Prop}
    (h : Concluded (blockEnds f b.number ids w₀ b.transactions) closed w) :
    ∃ oks, FannedOut f b ids w₀ closed oks w := by
  rcases h with ⟨hclosed, ⟨oks, hpart, -, -⟩ | ⟨oks, hpart⟩⟩ | ⟨hopen, ⟨oks, hpart, hall, hbad⟩ |
    ⟨w', ⟨oks, hpart, hall, hgood⟩, rfl⟩⟩
  · exact ⟨oks, hpart.told, hpart.short, fun h => absurd hclosed h, fun h => absurd hclosed h,
      fun _ => ⟨hpart.next, hpart.recorded⟩⟩
  · exact ⟨oks, hpart.told, hpart.short, fun h => absurd hclosed h, fun h => absurd hclosed h,
      fun _ => ⟨hpart.next, hpart.recorded⟩⟩
  · exact ⟨oks, hpart.told, hpart.short, fun _ => hall, fun _ h => absurd hbad h,
      fun _ => ⟨hpart.next, hpart.recorded⟩⟩
  · refine ⟨oks, hpart.told, hpart.short, fun _ => hall, fun _ _ => rfl, fun h => ?_⟩
    exact absurd h (not_or.2 ⟨hopen, hgood⟩)

/-- A contract listener's session takes up a block, and its checkpointer works: it can be read, and
its changes are made.  The handling of the block can be brought to its end at any time.  If the
checkpoint is past the block, nothing is changed and nobody is called. Otherwise the listener is
told of the wanted events in their order, up to those that come after a removal; the checkpoint is
past the block afterwards if all calls succeeded and the session was not removed in time, and at the
block with the ids that were earned if not.  A removal comes too late for that when the checkpoint
is being moved past the block already. -/
theorem block_is_fanned_out
    (hopens : ∀ c, opens c = .new (.contract l f (some name)) (opens c).floor)
    (haudience : a.session.audience = .contract l f (some name))
    (hnext : a.session.upNext? = some (.block peer b)) {es : List Incident}
    (hes : ∀ i ∈ es, i.Midway) :
    let begun := a.after opens .begins
    let now := begun.run opens es
    let c := a.account.checkpoint
    let ids := if c.next = some b.number then c.delivered else []
    let closed := ClosedInTime opens (.moveTo (b.number + 1)) begun es
    (∃ es', (∀ i ∈ es', i.Answers) ∧ (begun.run opens (es ++ es')).session.work = none) ∧
      (∀ es₁ es₂, es = es₁ ++ .removed :: es₂ → now.called = (begun.run opens es₁).called) ∧
      (now.session.work = none →
        now.called = now.account.told.map Prod.fst ∧
        (c.Past b.number → now.account = a.account) ∧
        (¬ c.Past b.number → ∃ oks, FannedOut f b ids a.account closed oks now.account)) := by
  intro begun now c ids closed
  obtain ⟨hwork, hopen, -, -⟩ := Session.upNext?_eq_some hnext
  have hnone : ∀ c, (opens c).work = none := fun c => by
    rw [hopens]
    rfl
  have hstays : ¬ begun.session.removed = true := by
    rw [show begun.session.removed = a.session.removed from Session.removed_take _, hopen]
    exact Bool.false_ne_true
  have hclosed : (begun.session.removed = true ∨ closed) = closed := by simp [hstays]
  refine ⟨?_, ?_, fun hdone => ⟨?_, fun hpast => ?_, fun hpast => ?_⟩⟩
  · have horder : (begun.run opens es).session.InOrder :=
      inOrder_run opens hnone (Session.inOrder_of_none hwork).take es
    obtain ⟨es', hanswers, hrests, -⟩ := rests_of_inOrder opens horder
    exact ⟨es', hanswers, by rwa [run_append]⟩
  · rintro es₁ es₂ rfl
    have hsame : .restarts ∉ es₂ := fun hmem =>
      hes .restarts (List.mem_append_right _ (List.mem_cons_of_mem _ hmem))
    exact called_of_removed hopens ((Session.audience_take _).trans haudience)
      (Session.wary_of_none hwork).take hsame
  · have hsilent : now.session.notice? = none := by
      simp only [Session.notice?, Session.question?, hdone]
    rw [called, hsilent]
    exact List.append_nil _
  · let e : Ends := ⟨.moveTo (b.number + 1), (· = a.account), (· = a.account), fun _ => False⟩
    have hway : OnWay e begun :=
      onWay_begins haudience hnext (Plan.meets_ofContract_past hpast e rfl)
    rcases hway.run hes hdone with ⟨-, hsame | hsame⟩ | ⟨-, hsame | ⟨w', hnever, -⟩⟩
    · exact hsame
    · exact hsame
    · exact hsame
    · exact hnever.elim
  · have hway : OnWay _ begun := onWay_begins haudience hnext (Plan.meets_ofContract hpast)
    have hconcluded := hway.run hes hdone
    exact (hclosed ▸ hconcluded).fannedOut

end Watch

/-- The listener is removed while it is called about the last event of the first transaction. -/
def removedInLastCall : List Incident :=
  [.reads true, .changes true, .calls true, .removed, .calls true, .changes true]

/-- The first transaction of the block is recorded, and the second is not told of. -/
theorem block_is_fanned_out_removed :
    let opens := tokenOptions.opening (.events "token" (.app "l"))
    let a := (Watch.start opens ⟨.empty, []⟩).run opens [.arrives (.block "peer" mintAndBurn)]
    let begun := a.after opens .begins
    let now := begun.run opens removedInLastCall
    now.session.work = none ∧ now.account.checkpoint = ⟨some 7, ["first"]⟩ ∧
      now.called = (begun.run opens (removedInLastCall.take 3)).called ∧
      Watch.ClosedInTime opens (.moveTo 8) begun removedInLastCall ∧
      ∃ oks, Watch.FannedOut (tokenOptions.filter "token") mintAndBurn [] ⟨.empty, []⟩
        (Watch.ClosedInTime opens (.moveTo 8) begun removedInLastCall) oks now.account := by
  intro opens a begun now
  have hopens : ∀ c, opens c =
      .new (.contract (.app "l") (tokenOptions.filter "token") (some "position"))
        (opens c).floor := fun _ => rfl
  have hnext : a.session.upNext? = some (.block "peer" mintAndBurn) := rfl
  have hmidway : ∀ i ∈ removedInLastCall, i.Midway := by
    simp [removedInLastCall, Incident.Midway]
  obtain ⟨-, hcalls, hends⟩ := Watch.block_is_fanned_out hopens rfl hnext hmidway
  refine ⟨rfl, rfl, hcalls _ [.calls true, .changes true] rfl, ?_, ?_⟩
  · exact ⟨removedInLastCall.take 3, [.calls true, .changes true], _, rfl, rfl,
      fun _ h => by cases h⟩
  · exact (hends rfl).2.2 (by rintro ⟨next, hnext, -⟩; cases hnext)

/-- All of the block is told, and recorded transaction by transaction. -/
def toldToTheEnd : List Incident :=
  [.reads true, .changes true, .calls true, .calls true, .changes true, .calls true, .changes true]

/-- Where the checkpoint cannot be read, a block that it is past is told once more; and a removal
while it is moved past a block does not keep it there. -/
theorem told_though_past :
    let opens := tokenOptions.opening (.events "token" (.app "l"))
    let a := (Watch.start opens ⟨.empty, []⟩).run opens [.arrives (.block "peer" mintAndBurn)]
    let ready := (a.after opens .begins).run opens toldToTheEnd
    let late := ready.run opens [.removed, .changes true]
    let past := ready.run opens [.changes true, .arrives (.block "peer" mintAndBurn), .begins]
    let unread := past.run opens [.reads false, .calls true]
    (late.session.removed = true ∧ late.session.work = none ∧
        late.account.checkpoint = ⟨some 8, []⟩) ∧
      past.account.checkpoint = ⟨some 8, []⟩ ∧ past.account.told.length = 3 ∧
      unread.account.told.length = 4 :=
  ⟨⟨rfl, rfl, rfl⟩, rfl, rfl, rfl⟩

end LedgerClient
