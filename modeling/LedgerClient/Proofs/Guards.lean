import LedgerClient.Proofs.Deeds

/-!
# Tests before calls

A plan may test whether its session was removed before it calls the listener (`Plan.Guarded`). The
plans of contract and commit listeners do so before every call but one that begins the plan; the
plan of a block listener with a checkpointer does not test between the answer of the checkpointer
and the call. So a session that was removed calls its listener again only in this one case, and then
only once (`Session.Wary.notice`, `Session.Hushed.notice`).
-/

namespace LedgerClient

namespace Plan

/-- Each call of a plan stands right behind a test; with `tested`, also at its beginning. -/
def Guarded : Plan → Bool → Prop
  | .finished, _ => True
  | .askNext go, _ => ∀ r, (go r).Guarded false
  | .askDelivered go, _ => ∀ r, (go r).Guarded false
  | .change _ go, _ => go.Guarded false
  | .tell _ go, tested => tested = true ∧ ∀ ok, (go ok).Guarded false
  | .unlessRemoved go, _ => go.Guarded true

variable {p : Plan} {tested : Bool}

theorem Guarded.weaken (h : p.Guarded tested) : p.Guarded true := by
  cases p with
  | tell n go => exact ⟨rfl, h.2⟩
  | _ => exact h

/-- A plan whose tests were passed, or that was cut short by one, is guarded from there on. -/
theorem Guarded.unguard (h : p.Guarded tested) (removed : Bool) :
    (Session.unguard removed p).Guarded true := by
  induction p generalizing tested with
  | unlessRemoved go ih =>
    cases removed with
    | false =>
      have hgo : go.Guarded true := h
      exact ih hgo
    | true => trivial
  | _ => exact h.weaken

/-- With a test ahead of every call, a plan of a removed session comes to no call. -/
theorem Guarded.unguard_removed (h : p.Guarded false) (n : Notice) (go : Bool → Plan) :
    Session.unguard true p ≠ .tell n go := by
  cases p with
  | tell n' go' => exact absurd h.1 (by decide)
  | _ => exact fun heq => by cases heq

theorem guarded_changeIf (checkpointed : Bool) (c : CheckpointChange) {go : Plan}
    (h : go.Guarded false) : (changeIf checkpointed c go).Guarded false := by
  unfold changeIf
  split_ifs <;> exact h

theorem guarded_ofNotices {ok : Bool} {go : Bool → Plan} (h : ∀ ok, (go ok).Guarded false)
    (ns : List EventNotice) : (ofNotices ok go ns).Guarded false := by
  induction ns generalizing ok with
  | nil => exact h ok
  | cons n ns ih => exact ⟨rfl, fun _ => ih⟩

theorem guarded_ofTransactions (checkpointed : Bool) (f : EventFilter) (block : Nat)
    (delivered : List String) (complete : Bool) (ts : List BlockTransaction) :
    (ofTransactions checkpointed f block delivered complete ts).Guarded false := by
  induction ts generalizing complete with
  | nil =>
    unfold ofTransactions
    split_ifs
    · have hfinished : finished.Guarded false := trivial
      exact (guarded_changeIf _ _ hfinished).weaken
    · trivial
  | cons t ts ih =>
    unfold ofTransactions
    split_ifs
    · exact ih complete
    · refine guarded_ofNotices (fun ok => ?_) _
      split_ifs
      · exact guarded_changeIf _ _ (ih complete)
      · exact ih false

theorem guarded_ofContract (checkpointed : Bool) (f : EventFilter) (b : Block) :
    (ofContract checkpointed f b).Guarded false := by
  have henter (delivered : List String) :
      (ofTransactions checkpointed f b.number delivered true b.transactions).Guarded false :=
    guarded_ofTransactions ..
  unfold ofContract
  dsimp only
  split_ifs
  · intro r
    rcases r with _ | _ | next
    · exact henter _
    · exact henter _
    · dsimp only
      split_ifs
      · trivial
      · exact fun ids => henter _
      · exact henter _
  · exact henter _

theorem guarded_ofCommit (peer id : String) (b : Block) : (ofCommit peer id b).Guarded false := by
  unfold ofCommit
  split
  · trivial
  · exact ⟨rfl, fun _ => trivial⟩

theorem guarded_ofFault (f : PeerFault) : (ofFault f).Guarded true := ⟨rfl, fun _ => trivial⟩

theorem guarded_ofCommitFault (f : PeerFault) : (ofCommitFault f).Guarded true :=
  ⟨rfl, fun _ => trivial⟩

/-- Without a checkpointer the plan of a block listener begins with its only call; with one, it
begins with a question, and each answer may lead to the call at once. -/
theorem guarded_ofBlock (peer : String) (b : Block) :
    (ofBlock false peer b).Guarded true ∧
      ∃ go, ofBlock true peer b = .askNext go ∧ ∀ r, (go r).Guarded true := by
  refine ⟨⟨rfl, fun ok => by cases ok <;> trivial⟩, _, rfl, fun r => ?_⟩
  have hcall : (Plan.tell (.block ⟨peer, b⟩) fun ok =>
      if ok then changeIf true (.moveTo (b.number + 1)) .finished else .finished).Guarded true :=
    ⟨rfl, fun ok => by cases ok <;> trivial⟩
  rcases r with _ | _ | next
  · exact hcall
  · exact hcall
  · change (if b.number < next then Plan.finished else _).Guarded true
    split_ifs
    · trivial
    · exact hcall

end Plan

namespace Session

/-- What a session is about to tell its listener. -/
def notice? (s : Session) : Option Notice :=
  match s.question? with
  | some (.tell _ n) => some n
  | _ => none

theorem notice?_eq_some {s : Session} {n : Notice} (h : s.notice? = some n) :
    ∃ k go, s.work = some (k, .tell n go) := by
  unfold notice? at h
  split at h
  · next l n' hq =>
    obtain rfl : n' = n := Option.some.inj h
    exact question?_eq_tell hq
  · cases h

/-- Whether a move of a session fits what the session is doing. -/
def fits (s : Session) : Move → Bool
  | .takeNext _ => s.isReady
  | .answer _ r => s.expects r
  | _ => false

theorem fits_iff (s : Session) {m : Move} : s.fits m = true ↔ s.Admits m := by
  cases m <;> simp [fits, Admits]

/-- What is in hand is guarded, or a block listener waits for its checkpointer. -/
def Wary (s : Session) : Prop :=
  ∀ n p, s.work = some (n, p) → p.Guarded true ∨
    ∃ l name go, s.audience = .block l (some name) ∧ p = .askNext go ∧ ∀ r, (go r).Guarded true

/-- A session that was removed and that will not call its listener again. -/
structure Hushed (s : Session) : Prop where
  removed : s.removed = true
  work : ∀ n p, s.work = some (n, p) → p.Guarded true

variable {s : Session}

theorem wary_of_none (h : s.work = none) : s.Wary := by
  intro n p hw
  rw [h] at hw
  cases hw

theorem wary_follow {tested : Bool} {p : Plan} (h : p.Guarded tested) (n : Option Nat) :
    (s.follow n p).Wary := fun _ p' hw => Or.inl (by
  rw [(work_follow hw).2]
  exact h.unguard _)

theorem answer_cases (s : Session) (r : Response) :
    (s.answer r = s ∧ s.expects r = false) ∨
      ∃ n p p', s.work = some (n, p) ∧ s.answer r = s.follow n p' ∧
      (∀ tested, p.Guarded tested → p'.Guarded false) ∧
      ∀ go, p = .askNext go → ∃ b, r = .next b ∧ p' = go b := by
  unfold answer
  split
  · next n go block hw =>
    refine Or.inr ⟨n, _, _, hw, rfl, fun _ h => h block, fun go' heq => ?_⟩
    obtain rfl : go = go' := by injection heq
    exact ⟨block, rfl, rfl⟩
  · next n go ids hw =>
    exact Or.inr ⟨n, _, _, hw, rfl, fun _ h => h ids, fun _ heq => by cases heq⟩
  · next n c go hw => exact Or.inr ⟨n, _, _, hw, rfl, fun _ h => h, fun _ heq => by cases heq⟩
  · next n m go ok hw =>
    exact Or.inr ⟨n, _, _, hw, rfl, fun _ h => h.2 ok, fun _ heq => by cases heq⟩
  · next hask hdelivered hchange htell =>
    refine Or.inl ⟨rfl, ?_⟩
    unfold expects
    split
    · next hw => exact (hask _ _ _ hw rfl).elim
    · next hw => exact (hdelivered _ _ _ hw rfl).elim
    · next hw => exact (hchange _ _ _ hw rfl).elim
    · next hw => exact (htell _ _ _ _ hw rfl).elim
    · rfl

theorem Wary.answer (h : s.Wary) (r : Response) : (s.answer r).Wary := by
  rcases s.answer_cases r with ⟨heq, -⟩ | ⟨n, p, p', hw, heq, hguarded, hnext⟩ <;> rw [heq]
  · exact h
  · rcases h n p hw with hp | ⟨l, name, go, -, hp, hgo⟩
    · exact wary_follow (hguarded true hp) n
    · obtain ⟨b, -, rfl⟩ := hnext go hp
      exact wary_follow (hgo b) n

theorem Wary.take (h : s.Wary) : s.take.Wary := by
  rcases s.take_cases with ⟨ht, -⟩ | ⟨hw, -, ht⟩ | ⟨d, rest, hw, -, -, ⟨-, ht⟩ | ⟨-, ht⟩⟩ <;>
    rw [ht]
  · exact h
  · exact wary_of_none hw
  · cases ha : s.audience with
    | block l checkpointer =>
      cases d with
      | fault f => exact wary_follow (Plan.guarded_ofFault f) _
      | block peer b =>
        obtain ⟨hplain, go, hgo, hall⟩ := Plan.guarded_ofBlock peer b
        cases checkpointer with
        | none => exact wary_follow hplain _
        | some name =>
          change (Session.follow _ _ (.ofBlock true peer b)).Wary
          rw [hgo]
          rintro k p hwork
          obtain ⟨-, rfl⟩ := work_follow hwork
          exact Or.inr ⟨l, name, go, (audience_follow ..).trans rfl, rfl, hall⟩
    | contract l f checkpointer =>
      cases d with
      | fault f => exact wary_follow (Plan.guarded_ofFault f) _
      | block peer b => exact wary_follow (Plan.guarded_ofContract ..) _
    | commit l peer id =>
      cases d with
      | fault f => exact wary_follow (Plan.guarded_ofCommitFault f) _
      | block peer b => exact wary_follow (Plan.guarded_ofCommit ..) _
  · exact wary_of_none hw

theorem Wary.deliver (h : s.Wary) (d : Delivery) : (s.deliver d).Wary := by
  unfold Session.deliver
  split_ifs <;> exact h

theorem Wary.close (h : s.Wary) : s.close.Wary := h

theorem Hushed.answer (h : s.Hushed) (r : Response) : (s.answer r).Hushed := by
  refine ⟨(s.removed_answer r).trans h.removed, fun n p hw => ?_⟩
  rcases s.answer_cases r with ⟨heq, -⟩ | ⟨k, p₀, p', hw₀, heq, hguarded, -⟩ <;> rw [heq] at hw
  · exact h.work n p hw
  · rw [(work_follow hw).2]
    exact (hguarded true (h.work k p₀ hw₀)).unguard _

theorem Hushed.take (h : s.Hushed) : s.take.Hushed := by
  refine ⟨s.removed_take.trans h.removed, fun n p hw => ?_⟩
  rcases s.take_cases with ⟨ht, -⟩ | ⟨hnone, -, ht⟩ | ⟨d, rest, -, hr, -⟩
  · exact h.work n p (ht ▸ hw)
  · rw [ht] at hw
    change s.work = _ at hw
    rw [hnone] at hw
    cases hw
  · rw [h.removed] at hr
    cases hr

theorem Hushed.deliver (h : s.Hushed) (d : Delivery) : (s.deliver d).Hushed := by
  unfold Session.deliver
  rw [if_pos h.removed]
  exact h

theorem Hushed.close (h : s.Hushed) : s.close.Hushed := ⟨rfl, h.work⟩

/-- A session that was removed and calls its listener again does so on an answer that leads to the
call without a test. -/
theorem answer_of_notice {m : Move} {n : Notice} (hr : s.removed = true) (hm : s.Admits m)
    (hn : (s.after m).notice? = some n) : ∃ j r k p p', m = .answer j r ∧ s.work = some (k, p) ∧
      s.after m = s.follow k p' ∧ ¬ p'.Guarded false ∧
      (∀ tested, p.Guarded tested → p'.Guarded false) ∧
      ∀ go, p = .askNext go → ∃ b, r = .next b ∧ p' = go b := by
  obtain ⟨k, go, hw⟩ := notice?_eq_some hn
  cases m with
  | takeNext j =>
    have hready : s.isReady = true := hm
    rw [isReady, Bool.and_eq_true, Option.isNone_iff_eq_none] at hready
    change s.take.work = _ at hw
    rcases s.take_cases with ⟨ht, -⟩ | ⟨-, -, ht⟩ | ⟨d, rest, -, hr', -⟩
    · rw [ht, hready.1] at hw
      cases hw
    · rw [ht] at hw
      change s.work = _ at hw
      rw [hready.1] at hw
      cases hw
    · rw [hr] at hr'
      cases hr'
  | answer j r =>
    change (s.answer r).work = _ at hw
    rcases s.answer_cases r with ⟨-, hexpects⟩ | ⟨k', p, p', hw', heq, hguarded, hnext⟩
    · exact absurd hm (by simp [Admits, hexpects])
    · rw [heq] at hw
      have htell := (work_follow hw).2
      rw [hr] at htell
      exact ⟨j, r, k', p, p', rfl, hw', heq, fun hp' => hp'.unguard_removed n go htell.symm,
        hguarded, hnext⟩
  | _ => exact hm.elim

/-- A session that was removed calls its listener again only when it is a block listener's and its
checkpointer answers, and then for the last time. -/
theorem Wary.notice {m : Move} {n : Notice} (h : s.Wary) (hr : s.removed = true)
    (hm : s.Admits m) (hn : (s.after m).notice? = some n) :
    (∃ j b, m = .answer j (.next b)) ∧ (∃ l name, s.audience = .block l (some name)) ∧
      (s.after m).Hushed := by
  obtain ⟨j, r, k, p, p', rfl, hw, heq, hnot, hguarded, hnext⟩ := answer_of_notice hr hm hn
  rcases h k p hw with hp | ⟨l, name, go, ha, rfl, hgo⟩
  · exact absurd (hguarded true hp) hnot
  · obtain ⟨b, rfl, rfl⟩ := hnext go rfl
    refine ⟨⟨j, b, rfl⟩, ⟨l, name, ha⟩, ?_⟩
    rw [heq]
    refine ⟨(s.removed_follow k _).trans hr, fun _ p' hp' => ?_⟩
    rw [(work_follow hp').2]
    exact (hgo b).unguard _

theorem Hushed.notice {m : Move} (h : s.Hushed) (hm : s.Admits m) : (s.after m).notice? = none := by
  rw [Option.eq_none_iff_forall_ne_some]
  intro n hn
  obtain ⟨j, r, k, p, p', -, hw, -, hnot, hguarded, -⟩ := answer_of_notice h.removed hm hn
  exact hnot (hguarded true (h.work k p hw))

end Session

end LedgerClient
