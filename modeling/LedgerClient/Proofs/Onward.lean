import LedgerClient.Proofs.Steps

/-!
# How calls go on

A call attaches a listener and waits for its links, has a transaction ordered, and waits for the
outcomes. On this way it comes back to nothing that is before it and takes to no query, and the
chooser of the queries stays as it is (`Client.Goes.onward`).
-/

namespace LedgerClient

/-- Whether a call waits for its links, or for something that comes after them. -/
def Call.isLinked : Call → Bool
  | .linking .. | .ordering .. | .confirming .. => true
  | _ => false

namespace Client

/-- The chooser is the same, and the call is over or waits for something in `P`. -/
structure Onward (chooser : Chooser) (P : Call → Prop) (i : Nat) (c : Client) : Prop where
  same : c.chooser = chooser
  call : ∀ call, c.call? i = some call → P call

variable {chooser : Chooser} {P : Call → Prop} {i w : Nat} {b c c' : Client}

theorem Onward.of_gone (hb : b.chooser = chooser) (h : b.call? i = none) : Onward chooser P i b :=
  ⟨hb, by simp [h]⟩

theorem Onward.send (h : Onward chooser P i b) (r : Request) : Onward chooser P i (b.send r) :=
  ⟨h.same, h.call⟩

theorem onward_set (hb : b.chooser = chooser) {call : Call} (hcall : P call) :
    Onward chooser P i (b.setCall i call) :=
  ⟨hb, fun _ h => Option.some.inj ((b.call?_setCall_self call).symm.trans h) ▸ hcall⟩

theorem onward_finish (hb : b.chooser = chooser) (r : CallResult) :
    Onward chooser P i (b.finish i r) := by
  obtain ⟨_, _, _, heq⟩ := b.finish_eq r
  exact .of_gone (by rw [heq]; exact hb) (b.finish_cases i r).2.1

theorem onward_drop_finish (hb : b.chooser = chooser) (r : CallResult) :
    Onward chooser P i ((b.dropWait w).finish i r) := by
  obtain ⟨_, _, _, _, _, heq⟩ := b.dropWait_eq w
  exact onward_finish (by rw [heq]; exact hb) r

section Linked

variable (hP : ∀ call : Call, call.isLinked = true → P call)

include hP

theorem onward_proceed (hb : b.chooser = chooser) (next : AfterLink) :
    Onward chooser P i (b.proceed i next) := by
  cases next with
  | added | listening => exact onward_finish hb _
  | order r payload w =>
    rcases b.proceed_order_cases i r payload w with ⟨route, heq⟩ | ⟨e, heq⟩ <;> rw [heq]
    · exact (onward_set hb (hP _ rfl)).send _
    · exact onward_drop_finish hb _

theorem onward_followLinks (hb : b.chooser = chooser) (key : ListenerKey) (links : List Link)
    (next : AfterLink) : Onward chooser P i (b.followLinks i key links next) := by
  unfold followLinks
  dsimp only
  split_ifs
  · obtain ⟨_, _, _, _, heq⟩ := b.complete_eq key ((b.progress links).map (·.attachment))
    exact onward_proceed hP (by rw [heq]; exact hb) next
  · exact onward_set hb (hP _ rfl)

theorem onward_attachListener (hb : b.chooser = chooser) (key : ListenerKey) (o : ListenerOptions)
    (start : Option Nat) : Onward chooser P i (b.attachListener i key o start) := by
  rcases attachListener_cases b i key o start with ⟨r, heq⟩ | ⟨table, agenda, a, -, heq⟩ <;>
    rw [heq]
  · obtain ⟨_, _, _, hunregister⟩ := b.unregister_eq key
    exact onward_finish (by rw [hunregister]; exact hb) r
  · refine onward_followLinks hP ?_ key _ _
    exact hb

theorem onward_linkCommit (hb : b.chooser = chooser) (l : ListenerId) (peers : List Peer)
    (id : String) (next : AfterLink) : Onward chooser P i (b.linkCommit i l peers id next) := by
  cases hfree : b.registered? (.commit l) with
  | some as =>
    unfold linkCommit
    rw [hfree]
    exact onward_proceed hP hb next
  | none =>
    rw [linkCommit_eq b i l peers id next hfree]
    obtain ⟨_, _, heq⟩ := b.attachEach_spawnEach_eq l id peers (peers.zipIdx b.sessions.length)
    exact onward_followLinks hP (by rw [heq]; exact hb) _ _ next

theorem onward_openMailbox (hb : b.chooser = chooser) (hw : w < b.waits.length)
    (next : AfterLink) : Onward chooser P i (b.openMailbox i w next) := by
  rcases b.openMailbox_cases i next (List.getElem?_eq_getElem hw) with
    ⟨-, waits, -, heq⟩ | ⟨q, -, -, waits, -, heq⟩ <;> rw [heq]
  · refine onward_proceed hP ?_ next
    exact hb
  · refine onward_linkCommit hP ?_ _ _ _ next
    exact hb

theorem Onward.lookAt (h : Onward chooser P i b) (w room : Nat) (q : Quorum) (t : Tally)
    (payload : Option Bytes) : Onward chooser P i (b.lookAt i w room q t payload) := by
  unfold Client.lookAt
  split
  · exact h
  · dsimp only
    split
    · refine onward_set ?_ (hP _ rfl)
      exact h.same
    · refine onward_drop_finish ?_ _
      exact h.same

theorem Onward.confirm (h : Onward chooser P i b) (w : Nat) (payload : Option Bytes) :
    Onward chooser P i (b.confirm i w payload) := by
  unfold Client.confirm
  split
  · exact h
  · split
    · exact (onward_set h.same (hP _ rfl)).send _
    · exact onward_drop_finish h.same _

theorem Onward.orderStep (h : Onward chooser P i b) (r : OrderRequest) (payload : Bytes) (w : Nat)
    (s : OrderStep) : Onward chooser P i (b.orderStep i r payload w s) := by
  rcases s with route | (e | reply)
  · exact (onward_set h.same (hP _ rfl)).send _
  · exact onward_drop_finish h.same _
  · simp only [Client.orderStep]
    split_ifs
    · exact h.confirm hP w _
    · exact onward_drop_finish h.same _

/-- A call that is no query leaves the chooser alone when it goes on, and waits for something that
comes later, if it is not over. -/
theorem Goes.onward {call : Call} {m : Move} (h : c.Goes i call m c')
    (hcall : c.call? i = some call) (hquery : ∀ p q, call ≠ .inquiring p q) :
    Onward c.chooser P i c' := by
  have hstays (hlinked : call.isLinked = true) : Onward c.chooser P i c :=
    ⟨rfl, fun _ hthere => Option.some.inj (hcall.symm.trans hthere) ▸ hP call hlinked⟩
  cases h with
  | attaches key o position => exact onward_attachListener hP rfl key o _
  | unread key o e =>
    obtain ⟨_, _, _, heq⟩ := c.unregister_eq key
    exact onward_finish (by rw [heq]) _
  | follows key links next => exact onward_followLinks hP rfl key links next
  | unreached | refused => exact onward_finish rfl _
  | endorsed =>
    refine onward_openMailbox hP ?_ (by simp [newWait]) _
    rfl
  | ordered request payload w route r => exact (hstays rfl).orderStep hP request payload w _
  | looks w q t payload => exact (hstays rfl).lookAt hP w _ q t payload
  | inquired p q r => exact absurd rfl (hquery p q)

end Linked

end Client

end LedgerClient
