import LedgerClient.Proofs.Repetition
import LedgerClient.Proofs.Successions

/-!
# Checkpoints only move forward

Whatever fails, the block of a checkpoint never goes back, and it is never further than one past a
block that the attached session was handed, unless it is no further than the session's floor
(`Succession.checkpoint_never_moves_back`).  A session that cannot read where its checkpoint is goes
on without comparing, so it is not the checkpoint that holds it back.  What does is an invariant of
the session (`Session.OnTrack`): the checkpoint is not beyond the session's floor, or not beyond the
block after the one in hand or the last one.  A block that is handled is below neither, so to move
past it is to move forward.

A removed session that is still at work beside its successor does no harm as long as it does not
move the checkpoint (`Succession.FormerStays`).  A contract listener's session makes sure of that in
its calls (`Succession.formerStays_of_calls`).  A block listener's does not look whether it was
removed, and the checkpoint may go back (`moved_back_by_two`).
-/

namespace LedgerClient

/-! ## Plans -/

namespace Plan

/-- From a checkpoint at the block `next` on a plan only moves it forward, and no further than one
past the block with this number, whichever of its changes succeed. -/
def Climbs (number : Option Nat) : Plan → Option Nat → Prop
  | .finished, _ => True
  | .askNext go, next => Climbs number (go (some next)) next ∧ Climbs number (go none) next
  | .askDelivered go, next => ∀ ids, Climbs number (go ids) next
  | .change (.moveTo m) go, next =>
    (∀ n, next = some n → n ≤ m) ∧ (∃ l, number = some l ∧ m ≤ l + 1) ∧
      Climbs number go (some m) ∧ Climbs number go next
  | .change (.record _) go, next => Climbs number go next
  | .tell _ go, next => ∀ ok, Climbs number (go ok) next
  | .unlessRemoved go, next => Climbs number go next

variable {number next : Option Nat} {p : Plan}

theorem Climbs.unguard (h : p.Climbs number next) (removed : Bool) :
    (Session.unguard removed p).Climbs number next := by
  induction p with
  | unlessRemoved go ih =>
    cases removed with
    | false => exact ih h
    | true => trivial
  | _ => exact h

theorem climbs_changeIf {c : CheckpointChange} (checkpointed : Bool)
    (hc : (change c p).Climbs number next) (hp : p.Climbs number next) :
    (changeIf checkpointed c p).Climbs number next := by
  cases checkpointed with
  | false => exact hp
  | true => exact hc

theorem climbs_ofNotices {go : Bool → Plan} (hgo : ∀ ok, (go ok).Climbs number next)
    (ns : List EventNotice) (ok : Bool) : (ofNotices ok go ns).Climbs number next := by
  induction ns generalizing ok with
  | nil => exact hgo ok
  | cons n ns ih => exact fun taken => ih (ok && taken)

variable {n : Nat}

/-- Past a block the checkpoint may move from wherever it is not beyond. -/
theorem climbs_past (h : ∀ k, next = some k → k ≤ n + 1) (checkpointed : Bool) :
    (changeIf checkpointed (.moveTo (n + 1)) .finished).Climbs (some n) next :=
  climbs_changeIf _ ⟨h, ⟨n, rfl, Nat.le_refl _⟩, trivial, trivial⟩ trivial

theorem climbs_ofTransactions (h : ∀ k, next = some k → k ≤ n + 1) (checkpointed : Bool)
    (f : EventFilter) (ids : List String) (complete : Bool) (ts : List BlockTransaction) :
    (ofTransactions checkpointed f n ids complete ts).Climbs (some n) next := by
  induction ts generalizing complete with
  | nil =>
    unfold ofTransactions
    split_ifs
    · exact climbs_past h checkpointed
    · trivial
  | cons t ts ih =>
    unfold ofTransactions
    split_ifs
    · exact ih complete
    · refine climbs_ofNotices (fun ok => ?_) _ _
      cases ok with
      | false => exact ih false
      | true => exact climbs_changeIf _ (ih complete) (ih complete)

theorem climbs_ofContract {b : Block} (h : ∀ k, next = some k → k ≤ b.number + 1)
    (checkpointed : Bool) (f : EventFilter) :
    (ofContract checkpointed f b).Climbs (some b.number) next := by
  have enters (ids : List String) {next : Option Nat}
      (h : ∀ k, next = some k → k ≤ b.number + 1) :
      (ofTransactions checkpointed f b.number ids true b.transactions).Climbs (some b.number)
        next := climbs_ofTransactions h checkpointed f ids true b.transactions
  have moves (hnext : ∀ k, next = some k → k ≤ b.number) :
      (change (.moveTo b.number) (ofTransactions checkpointed f b.number [] true
        b.transactions)).Climbs (some b.number) next :=
    ⟨hnext, ⟨b.number, rfl, Nat.le_succ _⟩,
      enters [] fun k hk => by cases hk; exact Nat.le_succ _, enters [] h⟩
  unfold ofContract
  split_ifs
  · refine ⟨?_, enters [] h⟩
    cases next with
    | none => exact moves (by simp)
    | some m =>
      dsimp only
      split_ifs with hlt heq
      · trivial
      · exact fun ids => enters _ h
      · refine moves fun k hk => ?_
        cases hk
        exact Nat.le_of_not_lt hlt
  · exact enters [] h

theorem climbs_ofBlock {b : Block} (h : ∀ k, next = some k → k ≤ b.number + 1)
    (checkpointed : Bool) (peer : String) :
    (ofBlock checkpointed peer b).Climbs (some b.number) next := by
  have call : (tell (.block ⟨peer, b⟩) fun ok =>
      if ok then changeIf checkpointed (.moveTo (b.number + 1)) .finished else .finished).Climbs
        (some b.number) next := by
    intro ok
    cases ok with
    | false => trivial
    | true => exact climbs_past h checkpointed
  unfold ofBlock
  dsimp only
  split_ifs
  · refine ⟨?_, call⟩
    cases next with
    | none => exact call
    | some m =>
      dsimp only
      split_ifs
      · trivial
      · exact call
  · exact call

end Plan

/-- How a delivery is handled only moves the checkpoint forward, if it is not beyond the block after
the one that is delivered. -/
theorem Audience.climbs_plan (A : Audience) {d : Delivery} {next : Option Nat}
    (h : ∀ n, Session.numberOf d = some n → ∀ k, next = some k → k ≤ n + 1) :
    (A.plan d).Climbs (Session.numberOf d) next := by
  cases d with
  | fault f => cases A <;> exact fun _ => trivial
  | block peer b =>
    cases A with
    | block l c => exact Plan.climbs_ofBlock (h _ rfl) c.isSome peer
    | contract l f c => exact Plan.climbs_ofContract (h _ rfl) c.isSome f
    | commit l p id =>
      simp only [plan, Plan.ofCommit]
      split
      · trivial
      · exact fun _ => trivial

/-! ## Sessions -/

/-- From one position of a checkpoint to a later one it does not go back, and it is not lost. -/
def Onwards (next next' : Option Nat) : Prop := ∀ n, next = some n → ∃ m, next' = some m ∧ n ≤ m

theorem Onwards.refl (next : Option Nat) : Onwards next next := fun n hn => ⟨n, hn, Nat.le_refl n⟩

theorem Onwards.trans {next next' next'' : Option Nat} (h : Onwards next next')
    (h' : Onwards next' next'') : Onwards next next'' := by
  intro n hn
  obtain ⟨m, hm, hle⟩ := h n hn
  obtain ⟨m', hm', hle'⟩ := h' m hm
  exact ⟨m', hm', Nat.le_trans hle hle'⟩

namespace Session

/-- The number of the block in hand, or else of the last one. -/
def latest (s : Session) : Option Nat :=
  match s.work with
  | some (number, _) => number.or s.last
  | none => s.last

/-- What holds of a session that was handed some deliveries, with its checkpoint at `next`. -/
structure OnTrack (ds : List Delivery) (s : Session) (next : Option Nat) : Prop where
  waiting : ∀ d ∈ s.queue, d ∈ ds
  known : ∀ l, s.latest = some l → ∃ peer b, .block peer b ∈ ds ∧ b.number = l
  /-- The checkpoint is not beyond the floor, or not beyond the block after the latest. -/
  due : ∀ n, next = some n →
    (∃ floor, s.floor = some floor ∧ n ≤ floor) ∨ ∃ l, s.latest = some l ∧ n ≤ l + 1
  climbs : ∀ number p, s.work = some (number, p) → p.Climbs number next

theorem latest_of_none {s : Session} (h : s.work = none) : s.latest = s.last := by
  rw [latest, h]

theorem latest_of_some {s : Session} {number : Option Nat} {p : Plan}
    (h : s.work = some (number, p)) : s.latest = number.or s.last := by
  rw [latest, h]

theorem latest_follow (s : Session) (number : Option Nat) (p : Plan) :
    (s.follow number p).latest = number.or s.last := by
  unfold follow
  split <;> rfl

variable {s : Session} {ds : List Delivery} {number next next' : Option Nat} {p : Plan}

theorem OnTrack.follow (hwaiting : ∀ d ∈ s.queue, d ∈ ds)
    (hknown : ∀ l, number.or s.last = some l → ∃ peer b, .block peer b ∈ ds ∧ b.number = l)
    (hdue : ∀ n, next = some n → (∃ floor, s.floor = some floor ∧ n ≤ floor) ∨
      ∃ l, number.or s.last = some l ∧ n ≤ l + 1)
    (hp : p.Climbs number next) : (s.follow number p).OnTrack ds next := by
  refine ⟨by rwa [queue_follow], by rwa [latest_follow], by rwa [latest_follow, floor_follow], ?_⟩
  intro number' p' hw
  obtain ⟨rfl, rfl⟩ := work_follow hw
  exact hp.unguard s.removed

theorem OnTrack.mono {ds' : List Delivery} (h : s.OnTrack ds next) (hds : ∀ d ∈ ds, d ∈ ds') :
    s.OnTrack ds' next where
  waiting d hd := hds d (h.waiting d hd)
  known l hl := by
    obtain ⟨peer, b, hb, hn⟩ := h.known l hl
    exact ⟨peer, b, hds _ hb, hn⟩
  due := h.due
  climbs := h.climbs

theorem OnTrack.deliver (h : s.OnTrack ds next) (d : Delivery) :
    (s.deliver d).OnTrack (ds ++ [d]) next := by
  have h' := h.mono fun _ => List.mem_append_left [d]
  unfold Session.deliver
  split_ifs
  · exact h'
  · refine ⟨fun d' hd' => ?_, h'.known, h'.due, h'.climbs⟩
    rcases List.mem_append.1 hd' with hd' | hd'
    · exact h'.waiting d' hd'
    · exact List.mem_append_right _ hd'

/-- A block that is handled is not below the floor, and not below the last one. -/
theorem OnTrack.le_of_accepts (h : s.OnTrack ds next) (hw : s.work = none) {peer : String}
    {b : Block} (hacc : s.accepts (.block peer b) = true) (n : Nat) (hn : next = some n) :
    n ≤ b.number + 1 := by
  rw [accepts, Bool.and_eq_true] at hacc
  obtain ⟨hfloor, hlast⟩ := hacc
  rcases h.due n hn with ⟨f, hf, hle⟩ | ⟨l, hl, hle⟩
  · rw [hf] at hfloor
    have hfb : f ≤ b.number := of_decide_eq_true hfloor
    omega
  · rw [latest_of_none hw] at hl
    rw [hl] at hlast
    have hlb : l ≤ b.number := of_decide_eq_true hlast
    omega

theorem OnTrack.take (h : s.OnTrack ds next) : s.take.OnTrack ds next := by
  rcases s.take_cases with ⟨ht, -⟩ | ⟨hw, -, ht⟩ | ⟨d, rest, hw, -, hq, hd⟩
  · rw [ht]
    exact h
  · rw [ht]
    exact ⟨by simp, h.known, h.due, h.climbs⟩
  · have hrest : ∀ d' ∈ rest, d' ∈ ds := fun d' hd' =>
      h.waiting d' (hq ▸ List.mem_cons_of_mem d hd')
    rcases hd with ⟨hacc, ht⟩ | ⟨-, ht⟩
    · rw [ht]
      have hlast := latest_of_none hw
      have hd : d ∈ ds := h.waiting d (hq ▸ List.mem_cons_self)
      cases d with
      | fault f =>
        exact .follow hrest (hlast ▸ h.known) (hlast ▸ h.due)
          (s.audience.climbs_plan fun _ h => by cases h)
      | block peer b =>
        have hle := h.le_of_accepts hw hacc
        refine .follow hrest ?_ (fun n hn => Or.inr ⟨b.number, rfl, hle n hn⟩)
          (s.audience.climbs_plan ?_)
        · rintro l ⟨⟩
          exact ⟨peer, b, hd, rfl⟩
        · rintro n ⟨⟩
          exact hle
    · rw [ht]
      exact ⟨hrest, h.known, h.due, h.climbs⟩

/-- The work in hand goes on with the checkpoint where it is or further, with its answer. -/
theorem OnTrack.goes_on {p' : Plan} (h : s.OnTrack ds next) (hw : s.work = some (number, p))
    (hp : p'.Climbs number next')
    (hnext : next' = next ∨ ∃ m l, next' = some m ∧ number = some l ∧ m ≤ l + 1) :
    (s.follow number p').OnTrack ds next' := by
  have hlatest := latest_of_some hw
  refine .follow h.waiting (hlatest ▸ h.known) ?_ hp
  rcases hnext with rfl | ⟨m, l, rfl, rfl, hle⟩
  · exact hlatest ▸ h.due
  · rintro n ⟨⟩
    exact Or.inr ⟨l, rfl, hle⟩

end Session

/-! ## Incidents -/

namespace Watch

variable {opens : Checkpoint → Session} {a : Watch} {ds : List Delivery}

theorem onTrack_after (h : a.session.OnTrack ds a.account.checkpoint.next) {e : Incident}
    (he : e ≠ .restarts) :
    (a.after opens e).session.OnTrack (Episode.handedAfter ds (.present e))
        (a.after opens e).account.checkpoint.next ∧
      Onwards a.account.checkpoint.next (a.after opens e).account.checkpoint.next := by
  cases e with
  | restarts => exact absurd rfl he
  | arrives d => exact ⟨h.deliver d, .refl _⟩
  | removed => exact ⟨⟨h.waiting, h.known, h.due, h.climbs⟩, .refl _⟩
  | begins => exact ⟨h.take, .refl _⟩
  | reads ok =>
    simp only [after]
    split
    · next hq =>
      obtain ⟨n, go, hw⟩ := Session.question?_eq_next hq
      have hgo := h.climbs n _ hw
      refine ⟨?_, .refl _⟩
      simp only [Session.answer, hw]
      refine h.goes_on hw ?_ (Or.inl rfl)
      cases ok with
      | false => exact hgo.2
      | true => exact hgo.1
    · next hq =>
      obtain ⟨n, go, hw⟩ := Session.question?_eq_delivered hq
      refine ⟨?_, .refl _⟩
      simp only [Session.answer, hw]
      exact h.goes_on hw (h.climbs n _ hw _) (Or.inl rfl)
    · exact ⟨h, .refl _⟩
  | changes ok =>
    simp only [after]
    split
    · next c hq =>
      obtain ⟨n, go, hw⟩ := Session.question?_eq_change hq
      simp only [Session.answer, hw]
      have hgo := h.climbs n _ hw
      cases c with
      | record id =>
        have hsame : (if ok then a.account.change (.record id) else a.account).checkpoint.next =
            a.account.checkpoint.next := by
          cases ok <;> rfl
        rw [hsame]
        exact ⟨h.goes_on hw hgo (Or.inl rfl), .refl _⟩
      | moveTo m =>
        obtain ⟨hle, ⟨l, hl, hml⟩, hmoved, hstayed⟩ := hgo
        cases ok with
        | false => exact ⟨h.goes_on hw hstayed (Or.inl rfl), .refl _⟩
        | true => exact ⟨h.goes_on hw hmoved (Or.inr ⟨m, l, rfl, hl, hml⟩),
            fun k hk => ⟨m, rfl, hle k hk⟩⟩
    · exact ⟨h, .refl _⟩
  | calls ok =>
    simp only [after]
    split
    · next hq =>
      obtain ⟨n, go, hw⟩ := Session.question?_eq_tell hq
      simp only [Session.answer, hw]
      exact ⟨h.goes_on hw (h.climbs n _ hw ok) (Or.inl rfl), .refl _⟩
    · exact ⟨h, .refl _⟩

variable (opens) in
/-- An answer to a question that is no move of the checkpoint leaves its block where it is. -/
theorem next_after_answered {q : Question} (hq : a.session.question? = some q) (ok : Bool)
    (hmoves : ok = true → ∀ name m, q ≠ .change name (.moveTo m)) :
    (a.after opens (q.answered ok)).account.checkpoint.next = a.account.checkpoint.next := by
  cases q with
  | next name | delivered name | tell l n => simp only [Question.answered, after, hq, Account.tell]
  | change name c =>
    simp only [Question.answered, after, hq]
    cases ok with
    | false => rfl
    | true =>
      cases c with
      | record id => rfl
      | moveTo m => exact absurd rfl (hmoves rfl name m)

end Watch

/-! ## Runs -/

namespace Succession

/-- A former session does not move the checkpoint in an episode. -/
def FormerStays (a : Succession) (t : Episode) : Prop :=
  ∀ i, t = .former i true → ∀ s, a.former[i]? = some s →
    ∀ name m, s.question? ≠ some (.change name (.moveTo m))

variable {opens : Checkpoint → Session} {a : Succession} {ds : List Delivery}

theorem onTrack_after (hopens : ∀ c, (opens c).OnTrack [] c.next)
    (h : a.present.OnTrack ds a.account.checkpoint.next) {t : Episode} (ht : FormerStays a t) :
    (a.after opens t).present.OnTrack (Episode.handedAfter ds t)
        (a.after opens t).account.checkpoint.next ∧
      Onwards a.account.checkpoint.next (a.after opens t).account.checkpoint.next := by
  cases t with
  | present e =>
    by_cases he : e = .restarts
    · subst he
      exact ⟨hopens _, .refl _⟩
    · rw [after_present opens he]
      exact Watch.onTrack_after (a := ⟨a.present, a.account⟩) h he
  | replaced => exact ⟨hopens _, .refl _⟩
  | former i ok =>
    simp only [after]
    split
    · exact ⟨h, .refl _⟩
    · next s hs =>
      split
      · exact ⟨h, .refl _⟩
      · next q hq =>
        have hstays : ok = true → ∀ name m, q ≠ .change name (.moveTo m) := by
          rintro rfl name m rfl
          exact ht i rfl s hs name m hq
        have hnext := Watch.next_after_answered opens (a := ⟨s, a.account⟩) hq ok hstays
        rw [hnext]
        exact ⟨h, .refl _⟩

theorem onTrack_run (hopens : ∀ c, (opens c).OnTrack [] c.next)
    (h : a.present.OnTrack ds a.account.checkpoint.next) {ts : List Episode}
    (hts : Throughout opens FormerStays a ts) :
    (a.run opens ts).present.OnTrack (ts.foldl Episode.handedAfter ds)
        (a.run opens ts).account.checkpoint.next ∧
      Onwards a.account.checkpoint.next (a.run opens ts).account.checkpoint.next := by
  induction ts generalizing a ds with
  | nil => exact ⟨h, .refl _⟩
  | cons t ts ih =>
    obtain ⟨h', honwards⟩ := onTrack_after hopens h hts.1
    obtain ⟨h'', honwards'⟩ := ih h' hts.2
    exact ⟨h'', honwards.trans honwards'⟩

/-- Take any two moments in the life of a listener with a checkpointer, with any streams of blocks,
answers of the listener, readings and changes of the checkpoint that fail, removals and restarts.
When the listener is registered again while its removed session is at work, that session may finish
its calls and record transactions, but it does not move the checkpoint any more.

The checkpoint's block is not lower at the later moment, and it is not lost.  And at any moment it
is not beyond the floor of the attached session, or not beyond the block after one that this session
was handed. -/
theorem checkpoint_never_moves_back (s : Subject) (o : ListenerOptions) (w : Account)
    (ts ts' : List Episode)
    (h : Throughout (o.opening s.key) FormerStays (start (o.opening s.key) w) (ts ++ ts')) :
    let opens := o.opening s.key
    let at₁ := (start opens w).run opens ts
    let at₂ := (start opens w).run opens (ts ++ ts')
    (∀ n, at₁.account.checkpoint.next = some n →
      ∃ m, at₂.account.checkpoint.next = some m ∧ n ≤ m) ∧
      ∀ n, at₁.account.checkpoint.next = some n →
        (∃ floor, at₁.present.floor = some floor ∧ n ≤ floor) ∨
          ∃ peer b, .block peer b ∈ Episode.handed ts ∧ n ≤ b.number + 1 := by
  intro opens at₁ at₂
  have hopens : ∀ c, (opens c).OnTrack [] c.next := fun c =>
    ⟨by simp [opens, ListenerOptions.opening, Session.new], fun l hl => (by cases hl),
      fun n hn => Or.inl ⟨n, by rw [ListenerOptions.floor_opening, hn, Option.some_or],
        Nat.le_refl n⟩,
      fun number p hw => by cases hw⟩
  obtain ⟨hbefore, hafter⟩ := throughout_append.1 h
  obtain ⟨hat₁, -⟩ := onTrack_run hopens (hopens w.checkpoint) hbefore
  obtain ⟨-, honwards⟩ := onTrack_run hopens hat₁ hafter
  refine ⟨fun n hn => ?_, fun n hn => ?_⟩
  · have hrun : at₂ = at₁.run opens ts' := run_append opens _ ts ts'
    rw [hrun]
    exact honwards n hn
  · refine (hat₁.due n hn).imp_right ?_
    rintro ⟨l, hl, hle⟩
    obtain ⟨peer, b, hb, rfl⟩ := hat₁.known l hl
    exact ⟨peer, b, hb, hle⟩

end Succession

/-! ## Removed within a call -/

namespace Plan

/-- A plan that a removed session has in hand moves the checkpoint no more. -/
def Settled : Plan → Prop
  | .finished | .unlessRemoved _ => True
  | .askNext go => ∀ next, (go next).Settled
  | .askDelivered go => ∀ ids, (go ids).Settled
  | .change c go => (∀ m, c ≠ .moveTo m) ∧ go.Settled
  | .tell _ go => ∀ ok, (go ok).Settled

/-- Once the listener is called, a removed session moves the checkpoint no more. -/
def SettlesInCalls : Plan → Prop
  | .finished => True
  | .askNext go => ∀ next, (go next).SettlesInCalls
  | .askDelivered go => ∀ ids, (go ids).SettlesInCalls
  | .change _ go => go.SettlesInCalls
  | .tell _ go => ∀ ok, (go ok).Settled ∧ (go ok).SettlesInCalls
  | .unlessRemoved go => go.SettlesInCalls

variable {p : Plan}

theorem Settled.unguard (h : p.Settled) : (Session.unguard true p).Settled := by
  cases p with
  | unlessRemoved go => trivial
  | _ => exact h

theorem SettlesInCalls.unguard (h : p.SettlesInCalls) (removed : Bool) :
    (Session.unguard removed p).SettlesInCalls := by
  induction p with
  | unlessRemoved go ih =>
    cases removed with
    | false => exact ih h
    | true => trivial
  | _ => exact h

theorem settles_ofNotices {go : Bool → Plan}
    (hgo : ∀ ok, (go ok).Settled ∧ (go ok).SettlesInCalls) (ns : List EventNotice) (ok : Bool) :
    (ofNotices ok go ns).Settled ∧ (ofNotices ok go ns).SettlesInCalls := by
  induction ns generalizing ok with
  | nil => exact hgo ok
  | cons n ns ih => exact ⟨trivial, fun taken => ih (ok && taken)⟩

theorem settles_ofTransactions (checkpointed : Bool) (f : EventFilter) (n : Nat)
    (ids : List String) (complete : Bool) (ts : List BlockTransaction) :
    (ofTransactions checkpointed f n ids complete ts).Settled ∧
      (ofTransactions checkpointed f n ids complete ts).SettlesInCalls := by
  induction ts generalizing complete with
  | nil =>
    unfold ofTransactions
    split_ifs
    · refine ⟨trivial, ?_⟩
      cases checkpointed <;> trivial
    · exact ⟨trivial, trivial⟩
  | cons t ts ih =>
    unfold ofTransactions
    split_ifs
    · exact ih complete
    · refine settles_ofNotices (fun ok => ?_) _ _
      cases ok with
      | false => exact ih false
      | true =>
        cases checkpointed with
        | false => exact ih complete
        | true => exact ⟨⟨fun _ h => (by cases h), (ih complete).1⟩, (ih complete).2⟩

theorem settles_ofContract (checkpointed : Bool) (f : EventFilter) (b : Block) :
    (ofContract checkpointed f b).SettlesInCalls := by
  have enters (ids : List String) :=
    (settles_ofTransactions checkpointed f b.number ids true b.transactions).2
  unfold ofContract
  split_ifs
  · intro next
    match next with
    | none => exact enters []
    | some none => exact enters []
    | some (some next) =>
      dsimp only
      split_ifs
      · trivial
      · exact fun ids => enters _
      · exact enters []
  · exact enters []

end Plan

theorem settles_plan (l : ListenerId) (f : EventFilter) (c : Option String) (d : Delivery) :
    ((Audience.contract l f c).plan d).SettlesInCalls := by
  cases d with
  | fault f => exact fun _ => ⟨trivial, trivial⟩
  | block peer b => exact Plan.settles_ofContract c.isSome f b

namespace Session

/-- What a removed session has in hand moves the checkpoint no more. -/
def Settled (s : Session) : Prop := ∀ number p, s.work = some (number, p) → p.Settled

theorem settled_of_none {s : Session} (h : s.work = none) : s.Settled := fun number p hw => by
  rw [h] at hw
  cases hw

/-- Once its listener is called, the session moves the checkpoint no more if it is removed. -/
def SettlesInCalls (s : Session) : Prop :=
  ∀ number p, s.work = some (number, p) → p.SettlesInCalls

variable {s : Session} {number : Option Nat} {p : Plan}

theorem Settled.follow (hr : s.removed = true) (hp : p.Settled) :
    (s.follow number p).Settled := by
  intro number' p' hw
  obtain ⟨-, rfl⟩ := work_follow hw
  rw [hr]
  exact hp.unguard

theorem SettlesInCalls.follow (hp : p.SettlesInCalls) :
    (s.follow number p).SettlesInCalls := by
  intro number' p' hw
  obtain ⟨-, rfl⟩ := work_follow hw
  exact hp.unguard s.removed

theorem SettlesInCalls.answer (h : s.SettlesInCalls) (r : Response) :
    (s.answer r).SettlesInCalls := by
  unfold Session.answer
  split
  · next hw => exact .follow (h _ _ hw _)
  · next hw => exact .follow (h _ _ hw _)
  · next n c go hw => exact .follow (h n (.change c go) hw)
  · next hw => exact .follow (h _ _ hw _).2
  · exact h

theorem SettlesInCalls.take (h : s.SettlesInCalls)
    (hplan : ∀ d, (s.audience.plan d).SettlesInCalls) : s.take.SettlesInCalls := by
  rcases s.take_cases with ⟨ht, -⟩ | ⟨-, -, ht⟩ | ⟨d, rest, -, -, -, ⟨-, ht⟩ | ⟨-, ht⟩⟩ <;> rw [ht]
  · exact h
  · exact h
  · exact .follow (hplan d)
  · exact h

theorem SettlesInCalls.settled (h : s.SettlesInCalls) {l : ListenerId} {n : Notice}
    (hq : s.question? = some (.tell l n)) : s.Settled := by
  obtain ⟨k, go, hw⟩ := question?_eq_tell hq
  intro number p hp
  obtain ⟨rfl, rfl⟩ := Prod.mk.inj (Option.some.inj (hw.symm.trans hp))
  exact fun ok => (h k _ hw ok).1

end Session

namespace Watch

variable {opens : Checkpoint → Session} {a : Watch}

variable (opens) in
theorem settled_after (hr : a.session.removed = true) (h : a.session.Settled) {q : Question}
    (hq : a.session.question? = some q) (ok : Bool) :
    (∀ name m, q ≠ .change name (.moveTo m)) ∧
      let now := a.after opens (q.answered ok)
      now.session.removed = true ∧ now.session.Settled := by
  cases q with
  | next name =>
    obtain ⟨n, go, hw⟩ := Session.question?_eq_next hq
    simp only [Question.answered, after, hq, Session.answer, hw, Session.removed_follow]
    exact ⟨fun _ _ h => (by cases h), hr, .follow hr (h n _ hw _)⟩
  | delivered name =>
    obtain ⟨n, go, hw⟩ := Session.question?_eq_delivered hq
    simp only [Question.answered, after, hq, Session.answer, hw, Session.removed_follow]
    exact ⟨fun _ _ h => (by cases h), hr, .follow hr (h n _ hw _)⟩
  | change name c =>
    obtain ⟨n, go, hw⟩ := Session.question?_eq_change hq
    have hp := h n _ hw
    simp only [Question.answered, after, hq, Session.answer, hw, Session.removed_follow]
    exact ⟨fun name m hm => hp.1 m (Question.change.inj hm).2, hr, .follow hr hp.2⟩
  | tell l m =>
    obtain ⟨n, go, hw⟩ := Session.question?_eq_tell hq
    simp only [Question.answered, after, hq, Session.answer, hw, Session.removed_follow]
    exact ⟨fun _ _ h => (by cases h), hr, .follow hr (h n _ hw ok)⟩

theorem settles_after (hplan : ∀ d, (a.session.audience.plan d).SettlesInCalls)
    (h : a.session.SettlesInCalls) {e : Incident} (he : e ≠ .restarts) :
    (a.after opens e).session.SettlesInCalls := by
  cases e with
  | restarts => exact absurd rfl he
  | arrives d =>
    simp only [after, Session.deliver]
    split_ifs <;> exact h
  | removed => exact h
  | begins => exact h.take hplan
  | reads ok | changes ok | calls ok =>
    simp only [after]
    split <;> first | exact h | exact h.answer _

end Watch

namespace Succession

variable {opens : Checkpoint → Session} {A : Audience} {a : Succession}

/-- A session that is replaced in an episode has nothing in hand, or waits for its listener. -/
def ReplacesInCalls (a : Succession) (t : Episode) : Prop :=
  t = .replaced → a.present.work = none ∨ ∃ l n, a.present.question? = some (.tell l n)

/-- The sessions of a listener whose handling settles in calls. -/
structure InCalls (A : Audience) (a : Succession) : Prop where
  audience : a.present.audience = A
  present : a.present.SettlesInCalls
  former : ∀ s ∈ a.former, s.removed = true ∧ s.Settled

theorem inCalls_after (hopens : ∀ c, opens c = .new A (opens c).floor)
    (hplan : ∀ d, (A.plan d).SettlesInCalls) (h : InCalls A a) {t : Episode}
    (ht : ReplacesInCalls a t) : FormerStays a t ∧ InCalls A (a.after opens t) := by
  have hnew (c : Checkpoint) : (opens c).audience = A ∧ (opens c).SettlesInCalls := by
    rw [hopens]
    exact ⟨rfl, fun _ _ hw => by cases hw⟩
  cases t with
  | present e =>
    refine ⟨fun _ h => (by cases h), ?_⟩
    by_cases he : e = .restarts
    · subst he
      exact ⟨(hnew _).1, (hnew _).2, by simp [after, start]⟩
    · rw [after_present opens he]
      exact ⟨Watch.audience_after hopens (a := ⟨a.present, a.account⟩) h.audience e,
        Watch.settles_after (a := ⟨a.present, a.account⟩) (h.audience ▸ hplan) h.present he,
        h.former⟩
  | replaced =>
    refine ⟨fun _ h => (by cases h), (hnew _).1, (hnew _).2, fun s hs => ?_⟩
    rcases List.mem_append.1 hs with hs | hs
    · exact h.former s hs
    · obtain rfl := List.mem_singleton.1 hs
      refine ⟨rfl, ?_⟩
      rcases ht rfl with hnone | ⟨l, n, hq⟩
      · exact Session.settled_of_none hnone
      · exact h.present.settled hq
  | former i ok =>
    simp only [after]
    split
    · next hi =>
      exact ⟨fun j hj s hs => (by cases hj; rw [hi] at hs; cases hs), h⟩
    · next s hs =>
      obtain ⟨hr, hsettled⟩ := h.former s (List.mem_of_getElem? hs)
      refine ⟨fun j hj s' hs' name m hq => ?_, ?_⟩
      · cases hj
        obtain rfl := Option.some.inj (hs.symm.trans hs')
        exact (Watch.settled_after opens (a := ⟨s, a.account⟩) hr hsettled hq true).1
          name m rfl
      · split
        · exact h
        · next q hq =>
          obtain ⟨-, hr', hsettled'⟩ := Watch.settled_after opens
            (a := ⟨s, a.account⟩) hr hsettled hq ok
          refine ⟨h.audience, h.present, fun s' hs' => ?_⟩
          rcases List.mem_or_eq_of_mem_set hs' with hs' | rfl
          · exact h.former s' hs'
          · exact ⟨hr', hsettled'⟩

/-- Of a contract listener that is registered again only when nothing is in hand, or from within a
call, no former session moves the checkpoint. -/
theorem formerStays_of_calls (chaincode : String) (l : ListenerId) (o : ListenerOptions)
    (w : Account) {ts : List Episode}
    (h : Throughout (o.opening (.events chaincode l)) ReplacesInCalls
      (start (o.opening (.events chaincode l)) w) ts) :
    Throughout (o.opening (.events chaincode l)) FormerStays
      (start (o.opening (.events chaincode l)) w) ts := by
  have hstart : InCalls (ListenerKey.audience o (.events chaincode l))
      (start (o.opening (.events chaincode l)) w) :=
    ⟨rfl, fun _ _ hw => (by cases hw), by simp [start]⟩
  generalize start (o.opening (.events chaincode l)) w = a at h hstart
  induction ts generalizing a with
  | nil => trivial
  | cons t ts ih =>
    have hopens : ∀ c, o.opening (.events chaincode l) c =
        .new (ListenerKey.audience o (.events chaincode l)) (c.next.or o.startBlock) :=
      fun _ => rfl
    obtain ⟨hstays, hafter⟩ :=
      inCalls_after hopens (settles_plan l _ o.checkpointer) hstart h.1
    exact ⟨hstays, ih _ h.2 hafter⟩

end Succession

/-! ## A listener that registers itself again -/

/-- In the call about the first event of a block the listener registers itself again.  Its new
session is handed the block and reads that no transaction is recorded; then the call ends, and the
removed session makes no other. -/
def registersAgain : List Episode :=
  [.present (.arrives (.block "peer" mintAndBurn)), .present .begins, .present (.reads true),
    .present (.changes true), .replaced, .present (.arrives (.block "peer" mintAndBurn)),
    .present .begins, .present (.reads true), .present (.reads true), .former 0 true]

/-- All calls of the new session succeed. -/
def takesAll : List Episode :=
  [.present (.calls true), .present (.calls true), .present (.changes true), .present (.calls true),
    .present (.changes true), .present (.changes true)]

/-- The checkpoint goes from block 7 to block 8. -/
theorem goes_on_beside_removed :
    let opens := tokenOptions.opening (.events "token" (.app "l"))
    let at₁ := (Succession.start opens ⟨.empty, []⟩).run opens registersAgain
    let at₂ := (Succession.start opens ⟨.empty, []⟩).run opens (registersAgain ++ takesAll)
    at₁.account.checkpoint.next = some 7 ∧ at₂.account.checkpoint.next = some 8 ∧
      at₁.account.told.length = 1 ∧ at₂.account.told.length = 4 ∧
      (∃ m, at₂.account.checkpoint.next = some m ∧ 7 ≤ m) ∧
      ((∃ floor, at₁.present.floor = some floor ∧ 7 ≤ floor) ∨
        ∃ peer b, .block peer b ∈ Episode.handed registersAgain ∧ 7 ≤ b.number + 1) := by
  have hcalls : Succession.Throughout (tokenOptions.opening (.events "token" (.app "l")))
      Succession.ReplacesInCalls
      (.start (tokenOptions.opening (.events "token" (.app "l"))) ⟨.empty, []⟩)
      (registersAgain ++ takesAll) := by
    simp only [registersAgain, takesAll, List.cons_append, List.nil_append,
      Succession.Throughout, Succession.ReplacesInCalls, reduceCtorEq, false_implies, true_and,
      and_true, forall_const]
    exact Or.inr ⟨_, _, rfl⟩
  obtain ⟨hforward, hbound⟩ := Succession.checkpoint_never_moves_back (.events "token" (.app "l"))
    tokenOptions ⟨.empty, []⟩ registersAgain takesAll
    (Succession.formerStays_of_calls "token" (.app "l") tokenOptions ⟨.empty, []⟩ hcalls)
  exact ⟨rfl, rfl, rfl, rfl, hforward 7 rfl, hbound 7 rfl⟩

/-- When the call about block 5 ends, the checkpoint goes back from block 8 to block 6. -/
theorem moved_back_by_two :
    let opens := blockOptions.opening (.blocks (.app "l"))
    let at₁ := (Succession.start opens ⟨.empty, []⟩).run opens movesLate
    let at₂ := at₁.run opens [.present (.calls true), .present (.changes true)]
    at₁.account.checkpoint.next = some 8 ∧ at₂.account.checkpoint.next = some 6 := ⟨rfl, rfl⟩

end LedgerClient
