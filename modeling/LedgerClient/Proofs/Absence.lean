import LedgerClient.Proofs.Registrations

/-!
# A client without one of its calls

What a client would be if one of its calls had not been made (`Client.without`): the call itself,
its turns, what it asked of the world and the key that it has claimed are left out. As long as the
call only waits for the position of its checkpoint, or is over, the others do not notice it: a move
that is not its own, made on the client with the call and on the client without it, leads to two
such clients again (`Client.Beside.apply`). The lemmas go through the functions of the client in
the order in which they are defined.
-/

namespace LedgerClient

instance (i : Nat) : DecidablePred (Request.IsOf i)
  | .openStream .. | .rest .. | .ask .. => .isFalse id
  | .readCheckpoint k _ | .propose k _ _ | .query k _ _ | .order k _ _ | .wakeAt k _
  | .finished k _ => inferInstanceAs (Decidable (k = i))

namespace Client

variable {i j : Nat} {claim : Option ListenerKey} {key : ListenerKey} {a b a' b' : Client}

/-- A client but for a call: the call itself, its turns and its requests are left out. -/
def forget (i : Nat) (c : Client) : Client :=
  { c with
    calls := c.calls.filter (·.1 ≠ i)
    agenda := c.agenda.filter (· ≠ .call i)
    outbox := c.outbox.filter (¬ ·.IsOf i) }

/-- A client without a call that has claimed a key: what is registered under the key is left out,
too. -/
def without (i : Nat) (claim : Option ListenerKey) (c : Client) : Client :=
  { c.forget i with registrations := c.registrations.filter (some ·.1 ≠ claim) }

/-- The second client is the first one without a call. While the call is under way it reads its
checkpoint, and there is no session under the key that it has claimed. -/
structure Beside (i : Nat) (claim : Option ListenerKey) (a b : Client) : Prop where
  eq : b = a.without i claim
  reading : ∀ entry ∈ a.calls, entry.1 = i → claim ≠ none ∧ ∃ k o, entry.2 = .readingCheckpoint k o
  bare : ∀ r ∈ a.registrations, some r.1 = claim → r.2 = []

/-- As long as a call claims a key, the client is in use without the call. -/
def Kept (claim : Option ListenerKey) (c : Client) : Prop := claim ≠ none → ¬ c.Unused

section Fields

variable (i : Nat) (claim : Option ListenerKey) (c : Client)

@[simp] theorem without_table : (c.without i claim).table = c.table := rfl

@[simp] theorem without_sessions : (c.without i claim).sessions = c.sessions := rfl

@[simp] theorem without_waits : (c.without i claim).waits = c.waits := rfl

end Fields

theorem without_none (c : Client) : c.without i none = c.forget i := by
  have hall : c.registrations.filter (some ·.1 ≠ none) = c.registrations := by simp
  rw [without, hall]
  rfl

/-! ## What is read of the two clients -/

theorem call?_without (hj : j ≠ i) (c : Client) : (c.without i claim).call? j = c.call? j :=
  call?_filter_ne hj c

theorem call?_without_self (c : Client) : (c.without i claim).call? i = none :=
  call?_filter_self c

theorem registered?_without (hkey : claim ≠ some key) (c : Client) :
    (c.without i claim).registered? key = c.registered? key := by
  simp only [registered?, without, forget, List.find?_filter]
  congr 2
  funext r
  by_cases hr : r.1 = key
  · simp [hr, hkey.symm]
  · simp [hr]

theorem registered?_without_self (c : Client) :
    (c.without i (some key)).registered? key = none := by
  simp only [registered?, without, forget, Option.map_eq_none_iff, List.find?_eq_none,
    List.mem_filter, decide_eq_true_eq]
  exact fun r hr heq => hr.2 (congrArg some heq)

/-- Nothing is attached under the key that the call has claimed. -/
theorem Beside.registered?_self (h : Beside i (some key) a b) {as : List Attachment}
    (has : a.registered? key = some as) : as = [] := by
  obtain ⟨r, hr, rfl⟩ := Option.map_eq_some_iff.1 has
  exact h.bare r (List.mem_of_find?_eq_some hr) (by simpa using List.find?_some hr)

/-- What is under a key, if anything, is the same with the call and without it. -/
theorem Beside.getD_registered? (h : Beside i claim a b) (key : ListenerKey) :
    (b.registered? key).getD [] = (a.registered? key).getD [] := by
  obtain rfl := h.eq
  by_cases hkey : claim = some key
  · subst hkey
    rw [registered?_without_self]
    cases has : a.registered? key with
    | none => rfl
    | some as => exact (h.registered?_self has).symm
  · rw [registered?_without hkey]

/-- All that is attached under keys is the same with the call and without it. -/
theorem Beside.flatMap_registrations (h : Beside i claim a b) :
    b.registrations.flatMap (·.2) = a.registrations.flatMap (·.2) := by
  obtain rfl := h.eq
  have hbare := h.bare
  change (a.registrations.filter (some ·.1 ≠ claim)).flatMap (·.2) = _
  generalize a.registrations = rs at hbare
  induction rs with
  | nil => rfl
  | cons r rs ih =>
    rw [List.forall_mem_cons] at hbare
    by_cases hr : some r.1 = claim
    · rw [List.filter_cons_of_neg (by simp [hr]), ih hbare.2, List.flatMap_cons, hbare.1 hr,
        List.nil_append]
    · rw [List.filter_cons_of_pos (by simp [hr]), List.flatMap_cons, List.flatMap_cons, ih hbare.2]

/-- Calls that do not read a checkpoint are the same with the call and without it. -/
theorem Beside.filter_calls (h : Beside i claim a b) {p : Call → Bool}
    (hp : ∀ k o, p (.readingCheckpoint k o) = false) :
    b.calls.filter (p ·.2) = a.calls.filter (p ·.2) := by
  obtain rfl := h.eq
  change (a.calls.filter (·.1 ≠ i)).filter _ = _
  rw [List.filter_filter]
  refine List.filter_congr fun entry hentry => ?_
  by_cases hi : entry.1 = i
  · obtain ⟨-, k, o, hreading⟩ := h.reading entry hentry hi
    rw [hreading, hp, Bool.false_and]
  · simp [hi]

theorem Beside.ne_of_mem_calls (h : Beside i claim a b) {entry : Nat × Call}
    (hentry : entry ∈ b.calls) : entry.1 ≠ i := by
  obtain rfl := h.eq
  simpa using (List.mem_filter.1 hentry).2

/-! ## Single changes -/

theorem Beside.change (h : Beside i claim a b) (heq : b' = a'.without i claim)
    (hregistrations : a'.registrations = a.registrations) (hcalls : a'.calls = a.calls) :
    Beside i claim a' b' where
  eq := heq
  reading := hcalls ▸ h.reading
  bare := hregistrations ▸ h.bare

theorem Beside.wake (h : Beside i claim a b) {x : Actor} (hx : x ≠ .call i) :
    Beside i claim (a.wake x) (b.wake x) := by
  obtain rfl := h.eq
  have hmem : x ∈ (a.without i claim).agenda ↔ x ∈ a.agenda := by simp [without, forget, hx]
  unfold Client.wake
  by_cases hthere : x ∈ a.agenda
  · rwa [if_pos hthere, if_pos (hmem.2 hthere)]
  · rw [if_neg hthere, if_neg (hthere ∘ hmem.1)]
    exact h.change (by simp [without, forget, hx]) rfl rfl

theorem Beside.send (h : Beside i claim a b) {r : Request} (hr : ¬ r.IsOf i) :
    Beside i claim (a.send r) (b.send r) := by
  obtain rfl := h.eq
  exact h.change (by simp [without, forget, Client.send, hr]) rfl rfl

theorem Beside.dropCall (h : Beside i claim a b) (j : Nat) :
    Beside i claim { a with calls := a.calls.filter (·.1 ≠ j) }
      { b with calls := b.calls.filter (·.1 ≠ j) } := by
  obtain rfl := h.eq
  refine ⟨?_, fun entry hentry => h.reading entry (List.mem_of_mem_filter hentry), h.bare⟩
  simp only [without, forget]
  rw [List.filter_filter, List.filter_filter]
  simp only [Bool.and_comm]

theorem Beside.setCall (h : Beside i claim a b) (hj : j ≠ i) (call : Call) :
    Beside i claim (a.setCall j call) (b.setCall j call) := by
  have hdrop := h.dropCall j
  refine ⟨?_, fun entry hentry hi => ?_, h.bare⟩
  · have hcalls := congrArg Client.calls hdrop.eq
    simp only [without, forget] at hcalls
    obtain rfl := h.eq
    simp only [Client.setCall, hcalls]
    simp [without, forget, hj]
  · rcases List.mem_append.1 hentry with hentry | hentry
    · exact hdrop.reading entry hentry hi
    · obtain rfl := List.mem_singleton.1 hentry
      exact absurd hi hj

theorem Beside.newCall (h : Beside i claim a b) :
    Beside i claim a.newCall.1 b.newCall.1 ∧ b.newCall.2 = a.newCall.2 := by
  obtain rfl := h.eq
  exact ⟨h.change rfl rfl rfl, rfl⟩

theorem Beside.table (h : Beside i claim a b) (f : FeedTable → FeedTable) :
    Beside i claim { a with table := f a.table } { b with table := f b.table } := by
  obtain rfl := h.eq
  exact h.change rfl rfl rfl

theorem Beside.modifySession (h : Beside i claim a b) (s : Nat) (f : Session → Session) :
    Beside i claim (a.modifySession s f) (b.modifySession s f) := by
  obtain rfl := h.eq
  exact h.change rfl rfl rfl

theorem Beside.modifyWait (h : Beside i claim a b) (w : Nat) (f : Wait → Wait) :
    Beside i claim (a.modifyWait w f) (b.modifyWait w f) := by
  obtain rfl := h.eq
  exact h.change rfl rfl rfl

theorem Beside.filter_registrations (h : Beside i claim a b) (key : ListenerKey) :
    Beside i claim { a with registrations := a.registrations.filter (·.1 ≠ key) }
      { b with registrations := b.registrations.filter (·.1 ≠ key) } := by
  obtain rfl := h.eq
  refine ⟨?_, h.reading, fun r hr => h.bare r (List.mem_of_mem_filter hr)⟩
  simp only [without, forget]
  rw [List.filter_filter, List.filter_filter]
  simp only [Bool.and_comm]

theorem Beside.no_registrations (h : Beside i claim a b) :
    Beside i claim { a with registrations := [] } { b with registrations := [] } := by
  obtain rfl := h.eq
  exact ⟨rfl, h.reading, fun r hr => absurd hr List.not_mem_nil⟩

theorem Beside.reserve (h : Beside i claim a b) (hkey : claim ≠ some key) :
    Beside i claim (a.reserve key) (b.reserve key) := by
  obtain rfl := h.eq
  refine ⟨by simp [without, forget, Client.reserve, hkey.symm], h.reading, fun r hr => ?_⟩
  rcases List.mem_append.1 hr with hr | hr
  · exact h.bare r hr
  · obtain rfl := List.mem_singleton.1 hr
    exact fun _ => rfl

/-! ## Feeds and sessions -/

theorem Beside.foldl {α : Type} {f : Client → α → Client} {xs : List α} (h : Beside i claim a b)
    (hf : ∀ x ∈ xs, ∀ {a b}, Beside i claim a b → Beside i claim (f a x) (f b x)) :
    Beside i claim (xs.foldl f a) (xs.foldl f b) :=
  List.foldl_rel h fun x hx _ _ h => hf x hx h

theorem Beside.wakeCalls (h : Beside i claim a b) {p : Call → Bool}
    (hp : ∀ k o, p (.readingCheckpoint k o) = false) :
    Beside i claim ((a.calls.filter (p ·.2)).foldl (fun c entry => c.wake (.call entry.1)) a)
      ((b.calls.filter (p ·.2)).foldl (fun c entry => c.wake (.call entry.1)) b) := by
  rw [← h.filter_calls hp]
  refine h.foldl fun entry hentry _ _ h' => h'.wake ?_
  simpa using h.ne_of_mem_calls (List.mem_of_mem_filter hentry)

theorem Beside.announce (h : Beside i claim a b) (feed : Nat) :
    Beside i claim (a.announce feed) (b.announce feed) := h.wakeCalls fun _ _ => rfl

theorem Beside.deliver (h : Beside i claim a b) (s : Nat) (d : Delivery) :
    Beside i claim (a.deliver s d) (b.deliver s d) := by
  have hwoken := (h.modifySession s (·.deliver d)).wake (x := .session s) (by simp)
  obtain rfl := h.eq
  unfold Client.deliver
  rw [without_sessions]
  cases a.sessions[s]? with
  | none => exact h
  | some session =>
    dsimp only
    split_ifs
    · exact h
    · exact hwoken

theorem Beside.deliverAll (h : Beside i claim a b) (f : Feed) (d : Delivery) :
    Beside i claim (a.deliverAll f d) (b.deliverAll f d) :=
  h.foldl fun s _ _ _ h => h.deliver s d

theorem Beside.spawn (h : Beside i claim a b) (audience : Audience) (floor : Option Nat) :
    Beside i claim (a.spawn audience floor).1 (b.spawn audience floor).1 ∧
      (b.spawn audience floor).2 = (a.spawn audience floor).2 := by
  obtain rfl := h.eq
  have hmade : Beside i claim { a with sessions := a.sessions ++ [.new audience floor] }
      { a.without i claim with sessions := a.sessions ++ [.new audience floor] } :=
    h.change rfl rfl rfl
  exact ⟨hmade.wake (by simp), rfl⟩

theorem Beside.launch (h : Beside i claim a b) (t : FeedTable) (feed s : Nat) :
    let joined (c : Client) : Client × Attachment :=
      match t.feed? feed with
      | some f =>
        (if f.phase = .launching then { c with table := t }.wake (.feed feed)
          else { c with table := t }, ⟨feed, s⟩)
      | none => ({ c with table := t }, ⟨feed, s⟩)
    Beside i claim (joined a).1 (joined b).1 ∧ (joined b).2 = (joined a).2 := by
  have htable := h.table fun _ => t
  cases t.feed? feed with
  | none => exact ⟨htable, rfl⟩
  | some f =>
    dsimp only
    split_ifs
    · exact ⟨htable.wake (by simp), rfl⟩
    · exact ⟨htable, rfl⟩

theorem Beside.attachTo (h : Beside i claim a b) (peer : Peer) (kind : BlockKind)
    (start : Option Nat) (s : Nat) :
    Beside i claim (a.attachTo peer kind start s).1 (b.attachTo peer kind start s).1 ∧
      (b.attachTo peer kind start s).2 = (a.attachTo peer kind start s).2 := by
  have hlaunch := h.launch
  obtain rfl := h.eq
  cases start with
  | none => exact hlaunch _ _ s
  | some n => exact hlaunch _ _ s

theorem Beside.announceStop (h : Beside i claim a b) (feed : Nat) :
    Beside i claim (a.announceStop feed) (b.announceStop feed) := by
  have hannounced := h.announce feed
  obtain rfl := h.eq
  unfold Client.announceStop
  rw [without_table]
  cases a.table.feed? feed with
  | none => exact h
  | some f =>
    dsimp only
    split_ifs
    · exact hannounced
    · exact h

theorem Beside.release (h : Beside i claim a b) (x : Attachment) :
    Beside i claim (a.release x) (b.release x) := by
  have hclosed := (h.modifySession x.session Session.close).table (·.release x.feed x.session)
  exact hclosed.announceStop x.feed

theorem Beside.releaseAll (h : Beside i claim a b) (xs : List Attachment) :
    Beside i claim (a.releaseAll xs) (b.releaseAll xs) :=
  h.foldl fun x _ _ _ h => h.release x

/-! ## Registrations -/

theorem Beside.complete (h : Beside i claim a b) (hkey : claim ≠ some key)
    (xs : List Attachment) : Beside i claim (a.complete key xs) (b.complete key xs) := by
  have hreleased := h.releaseAll xs
  obtain rfl := h.eq
  unfold Client.complete
  rw [registered?_without hkey]
  cases a.registered? key with
  | none => exact hreleased
  | some ys =>
    refine ⟨?_, h.reading, fun r hr hclaim => ?_⟩
    · simp only [without, forget, List.filter_map, Function.comp_def]
      congr 2
      refine List.filter_congr fun r _ => ?_
      split_ifs <;> rfl
    · obtain ⟨r', hr', rfl⟩ := List.mem_map.1 hr
      by_cases hk : r'.1 = key
      · rw [if_pos hk] at hclaim
        exact absurd (hclaim.symm.trans (congrArg some hk)) hkey
      · rw [if_neg hk] at hclaim ⊢
        exact h.bare r' hr' hclaim

theorem unregister_eq_releaseAll (c : Client) (key : ListenerKey) :
    c.unregister key =
      ({ c with registrations := c.registrations.filter (·.1 ≠ key) } : Client).releaseAll
        ((c.registered? key).getD []) := by
  cases hkey : c.registered? key with
  | none =>
    have hnone : ∀ r ∈ c.registrations, r.1 ≠ key := by
      simpa [registered?] using hkey
    have hsame : c.registrations.filter (·.1 ≠ key) = c.registrations :=
      List.filter_eq_self.2 fun r hr => by simpa using hnone r hr
    unfold unregister
    rw [hkey, hsame]
    rfl
  | some as =>
    unfold unregister
    rw [hkey]
    rfl

theorem Beside.unregister (h : Beside i claim a b) (key : ListenerKey) :
    Beside i claim (a.unregister key) (b.unregister key) := by
  rw [unregister_eq_releaseAll, unregister_eq_releaseAll, h.getD_registered? key]
  exact (h.filter_registrations key).releaseAll _

theorem Beside.closeFeeds (h : Beside i claim a b) :
    Beside i claim
      ((a.table.shared.map (·.2)).foldl Client.announceStop { a with table := a.table.close })
      ((b.table.shared.map (·.2)).foldl Client.announceStop { b with table := b.table.close }) := by
  have hclosed := h.table FeedTable.close
  obtain rfl := h.eq
  exact hclosed.foldl fun feed _ _ _ h => h.announceStop feed

theorem Beside.close (h : Beside i claim a b) : Beside i claim a.close b.close := by
  unfold Client.close
  rw [h.flatMap_registrations]
  exact (h.no_registrations.releaseAll _).closeFeeds

theorem Beside.tearDown (h : Beside i claim a b) : Beside i claim a.tearDown b.tearDown := by
  unfold Client.tearDown
  rw [h.flatMap_registrations]
  exact Beside.table (h.no_registrations.foldl fun x _ _ _ h =>
    (h.modifySession x.session Session.close).table (·.modify x.feed Feed.stop)) FeedTable.close

/-- The client is given up with the call if it is given up without it, once the call is over; while
the call is under way it must be in use without it. -/
theorem Beside.tearDownIfUnused (h : Beside i claim a b)
    (hkept : Kept claim b.tearDownIfUnused) :
    Beside i claim a.tearDownIfUnused b.tearDownIfUnused := by
  have heq := h.eq
  by_cases hclaim : claim = none
  · have hcalls : b.calls = a.calls := by
      rw [heq]
      exact List.filter_eq_self.2 fun entry hentry => by
        simpa using fun hi => (h.reading entry hentry hi).1 hclaim
    have hheld : b.held = a.held := by rw [heq]; rfl
    have hwaits : b.waits = a.waits := by rw [heq]; rfl
    unfold Client.tearDownIfUnused
    rw [hheld, hcalls, hwaits]
    split_ifs
    · exact h.tearDown
    · exact h
  · have hb := b.tearDownIfUnused_cases.resolve_left (hkept hclaim)
    have hused : ¬ b.Unused := hb ▸ hkept hclaim
    have ha : ¬ a.Unused := fun hunused => hused <| by
      rw [heq]
      exact ⟨hunused.held, by simp [without, forget, hunused.calls], hunused.waits⟩
    rwa [tearDownIfUnused_of_used ha, hb]

theorem Beside.finish (h : Beside i claim a b) (hj : j ≠ i) (r : CallResult)
    (hkept : Kept claim (b.finish j r)) : Beside i claim (a.finish j r) (b.finish j r) :=
  ((h.dropCall j).send (r := .finished j r) hj).tearDownIfUnused hkept

/-! ## Waits -/

theorem Beside.newWait (h : Beside i claim a b) (id : TransactionId) (quorum : Option Quorum)
    (limit : Duration) :
    Beside i claim (a.newWait id quorum limit).1 (b.newWait id quorum limit).1 ∧
      (b.newWait id quorum limit).2 = (a.newWait id quorum limit).2 := by
  obtain rfl := h.eq
  exact ⟨h.change rfl rfl rfl, rfl⟩

theorem Beside.cancelWait (h : Beside i claim a b) (w : Nat) :
    Beside i claim (a.cancelWait w) (b.cancelWait w) := by
  have hunregister := h.unregister
  obtain rfl := h.eq
  unfold Client.cancelWait wait?
  rw [without_waits]
  cases a.waits[w]? with
  | none => exact h
  | some wait =>
    dsimp only
    cases wait.listener with
    | none => exact h.modifyWait w _
    | some n => exact (hunregister _).modifyWait w _

theorem Beside.dropWait (h : Beside i claim a b) (w : Nat) :
    Beside i claim (a.dropWait w) (b.dropWait w) := (h.cancelWait w).modifyWait w _

theorem Beside.post (h : Beside i claim a b) (mailbox : Nat) (o : CommitOutcome) :
    Beside i claim (a.post mailbox o) (b.post mailbox o) := by
  have hnoted (w : Nat) := h.modifyWait w fun wait =>
    { wait with mailbox := wait.mailbox.map fun m => (m.1, m.2 ++ [o]) }
  obtain rfl := h.eq
  unfold Client.post
  rw [without_waits]
  cases a.waits.findIdx? fun w => w.mailbox.any (·.1 = mailbox) with
  | none => exact h
  | some w => exact (hnoted w).wakeCalls (p := confirms w) fun _ _ => rfl

theorem Beside.looked (h : Beside i claim a b) (hj : j ≠ i) (w : Nat) (q : Quorum)
    (payload : Option Bytes) (look : Confirmation) :
    let looked (c : Client) : Client :=
      match look with
      | .waiting t => c.setCall j (.confirming w q t payload)
      | .ended r =>
        (c.dropWait w).finish j <|
          match payload with
          | some bytes => .answered (r.map fun _ => bytes)
          | none => .confirmed r
    Kept claim (looked b) → Beside i claim (looked a) (looked b) := by
  cases look with
  | waiting t => exact fun _ => h.setCall hj _
  | ended r => exact (h.dropWait w).finish hj _

theorem Beside.lookAt (h : Beside i claim a b) (hj : j ≠ i) (w room : Nat) (q : Quorum) (t : Tally)
    (payload : Option Bytes) (hkept : Kept claim (b.lookAt j w room q t payload)) :
    Beside i claim (a.lookAt j w room q t payload) (b.lookAt j w room q t payload) := by
  have hlooked := (h.modifyWait w (·.drop room)).looked hj w q payload
  obtain rfl := h.eq
  unfold Client.lookAt wait? at hkept ⊢
  rw [without_waits] at hkept ⊢
  cases hwait : a.waits[w]? with
  | none => exact h
  | some wait =>
    rw [hwait] at hkept
    exact hlooked _ hkept

theorem Beside.call? (h : Beside i claim a b) (hj : j ≠ i) : b.call? j = a.call? j := by
  rw [h.eq, call?_without hj]

theorem Beside.confirm (h : Beside i claim a b) (hj : j ≠ i) (w : Nat) (payload : Option Bytes)
    (hkept : Kept claim (b.confirm j w payload)) :
    Beside i claim (a.confirm j w payload) (b.confirm j w payload) := by
  have hwaits (call : Call) (time : Nat) := (h.setCall hj call).send (r := .wakeAt j time) hj
  have hended := (h.dropWait w).finish hj
  obtain rfl := h.eq
  unfold Client.confirm wait? at hkept ⊢
  rw [without_waits] at hkept ⊢
  cases hwait : a.waits[w]? with
  | none => exact h
  | some wait =>
    rw [hwait] at hkept
    dsimp only at hkept ⊢
    cases hquorum : wait.quorum <;> cases hmailbox : wait.mailbox <;>
      rw [hquorum, hmailbox] at hkept
    case some.some q mailbox => exact hwaits _ _
    all_goals exact hended _ hkept

/-! ## Ordering -/

theorem Beside.orderStep (h : Beside i claim a b) (hj : j ≠ i) (r : OrderRequest) (payload : Bytes)
    (w : Nat) (s : OrderStep) (hkept : Kept claim (b.orderStep j r payload w s)) :
    Beside i claim (a.orderStep j r payload w s) (b.orderStep j r payload w s) := by
  rcases s with route | e | reply
  · exact (h.setCall hj _).send (r := .order j route r) hj
  · exact (h.dropWait w).finish hj _ hkept
  · unfold Client.orderStep at hkept ⊢
    dsimp only at hkept ⊢
    split_ifs at hkept ⊢
    · exact h.confirm hj w _ hkept
    · exact (h.dropWait w).finish hj _ hkept

theorem Beside.startOrdering (h : Beside i claim a b) (hj : j ≠ i) (r : OrderRequest)
    (payload : Bytes) (w : Nat) (hkept : Kept claim (b.startOrdering j r payload w)) :
    Beside i claim (a.startOrdering j r payload w) (b.startOrdering j r payload w) := by
  have hstep := h.orderStep hj r payload w
  obtain rfl := h.eq
  exact hstep _ hkept

/-! ## Attaching listeners -/

theorem Beside.proceed (h : Beside i claim a b) (hj : j ≠ i) (next : AfterLink)
    (hkept : Kept claim (b.proceed j next)) :
    Beside i claim (a.proceed j next) (b.proceed j next) := by
  cases next with
  | added => exact h.finish hj _ hkept
  | listening => exact h.finish hj _ hkept
  | order r payload w => exact h.startOrdering hj r payload w hkept

theorem Beside.followLinks (h : Beside i claim a b) (hj : j ≠ i) (hkey : claim ≠ some key)
    (links : List Link) (next : AfterLink) (hkept : Kept claim (b.followLinks j key links next)) :
    Beside i claim (a.followLinks j key links next) (b.followLinks j key links next) := by
  have hprogress : b.progress links = a.progress links := by rw [h.eq]; rfl
  unfold Client.followLinks at hkept ⊢
  rw [hprogress] at hkept ⊢
  dsimp only at hkept ⊢
  split_ifs at hkept ⊢
  · exact (h.complete hkey _).proceed hj next hkept
  · exact h.setCall hj _

theorem Beside.attachListener (h : Beside i claim a b) (hj : j ≠ i) (hkey : claim ≠ some key)
    (o : ListenerOptions) (start : Option Nat)
    (hkept : Kept claim (b.attachListener j key o start)) :
    Beside i claim (a.attachListener j key o start) (b.attachListener j key o start) := by
  have hpeer : b.channel.localEventPeer? b.identity.organization =
      a.channel.localEventPeer? a.identity.organization := by rw [h.eq]; rfl
  have hname : b.channel.name = a.channel.name := by rw [h.eq]; rfl
  unfold Client.attachListener at hkept ⊢
  rw [hpeer, hname] at hkept ⊢
  cases hlocal : a.channel.localEventPeer? a.identity.organization with
  | none =>
    rw [hlocal] at hkept
    exact (h.unregister key).finish hj _ hkept
  | some peer =>
    rw [hlocal] at hkept
    dsimp only at hkept ⊢
    obtain ⟨hspawn, hsession⟩ := h.spawn (key.audience o) start
    rw [hsession] at hkept ⊢
    obtain ⟨hattach, hattached⟩ :=
      hspawn.attachTo peer o.kind start (a.spawn (key.audience o) start).2
    rw [hattached] at hkept ⊢
    exact hattach.followLinks hj hkey _ _ hkept

theorem Beside.addListener (h : Beside i claim a b) (hj : a.nextCall ≠ i) {s : Subject}
    (hkey : claim ≠ some s.key) (o : ListenerOptions) (hkept : Kept claim (b.addListener s o)) :
    Beside i claim (a.addListener s o) (b.addListener s o) := by
  obtain ⟨hnew, hnumber⟩ := h.newCall
  have hregistered : b.newCall.1.registered? s.key = a.newCall.1.registered? s.key := by
    rw [hnew.eq, registered?_without hkey]
  unfold Client.addListener at hkept ⊢
  dsimp only at hkept ⊢
  rw [hnumber, hregistered] at hkept ⊢
  cases hfree : a.newCall.1.registered? s.key with
  | some as =>
    rw [hfree] at hkept
    exact hnew.finish hj _ hkept
  | none =>
    rw [hfree] at hkept
    have hreserved := hnew.reserve hkey
    dsimp only at hkept ⊢
    cases hname : o.checkpointer with
    | some name => exact (hreserved.setCall hj _).send (r := .readCheckpoint _ name) hj
    | none =>
      rw [hname] at hkept
      exact hreserved.attachListener hj hkey o _ hkept

theorem Beside.checkpointRead (h : Beside i claim a b) (hj : j ≠ i)
    (hkeys : ∀ call, a.call? j = some call → ∀ k ∈ call.key?, claim ≠ some k)
    (r : Except CheckpointError (Option Nat)) (hkept : Kept claim (b.checkpointRead j r)) :
    Beside i claim (a.checkpointRead j r) (b.checkpointRead j r) := by
  unfold Client.checkpointRead at hkept ⊢
  rw [h.call? hj] at hkept ⊢
  split at hkept
  · next key o hcall =>
    cases r with
    | ok position => exact h.attachListener hj (hkeys _ hcall key rfl) o _ hkept
    | error e => exact (h.unregister key).finish hj _ hkept
  · exact h

theorem Beside.spawnEach (h : Beside i claim a b) (l : ListenerId) (id : String)
    (peers : List Peer) : Beside i claim (a.spawnEach l id peers) (b.spawnEach l id peers) := by
  induction peers generalizing a b with
  | nil => exact h
  | cons p ps ih => exact ih (h.spawn _ none).1

theorem Beside.attachEach (h : Beside i claim a b) (sessions : List (Peer × Nat)) :
    Beside i claim (a.attachEach sessions).1 (b.attachEach sessions).1 ∧
      (b.attachEach sessions).2 = (a.attachEach sessions).2 := by
  induction sessions generalizing a b with
  | nil => exact ⟨h, rfl⟩
  | cons ps rest ih =>
    obtain ⟨hattach, hattached⟩ := h.attachTo ps.1 .filtered none ps.2
    obtain ⟨hrest, hothers⟩ := ih hattach
    exact ⟨hrest, congrArg₂ _ hattached hothers⟩

theorem Beside.linkCommit (h : Beside i claim a b) (hj : j ≠ i) {l : ListenerId}
    (hkey : claim ≠ some (.commit l)) (peers : List Peer) (id : String) (next : AfterLink)
    (hkept : Kept claim (b.linkCommit j l peers id next)) :
    Beside i claim (a.linkCommit j l peers id next) (b.linkCommit j l peers id next) := by
  have hregistered : b.registered? (.commit l) = a.registered? (.commit l) := by
    rw [h.eq, registered?_without hkey]
  have hsessions : b.sessions = a.sessions := by rw [h.eq]; rfl
  cases hfree : a.registered? (.commit l) with
  | some as =>
    unfold Client.linkCommit at hkept ⊢
    rw [hregistered, hfree] at hkept ⊢
    exact h.proceed hj next hkept
  | none =>
    rw [hfree] at hregistered
    rw [linkCommit_eq _ _ _ _ _ _ hregistered] at hkept ⊢
    rw [linkCommit_eq _ _ _ _ _ _ hfree]
    rw [hsessions] at hkept ⊢
    obtain ⟨hattach, hattached⟩ := ((h.reserve hkey).spawnEach l id peers).attachEach
      (peers.zipIdx a.sessions.length)
    dsimp only at hkept ⊢
    rw [hattached] at hkept ⊢
    exact hattach.followLinks hj hkey _ next hkept

theorem Beside.openMailbox (h : Beside i claim a b) (hj : j ≠ i)
    (hkey : ∀ l, claim ≠ some (.commit l)) (w : Nat) (next : AfterLink)
    (hkept : Kept claim (b.openMailbox j w next)) :
    Beside i claim (a.openMailbox j w next) (b.openMailbox j w next) := by
  have hproceed := h.proceed hj next
  have hgivenUp := (h.modifyWait w fun wait => { wait with quorum := none }).proceed hj next
  have hopened (deadline : Nat) : Beside i claim
      (({ a with nextMailbox := a.nextMailbox + 1 } : Client).modifyWait w fun wait =>
        { wait with
          deadline := some deadline, listener := some a.nextMailbox
          mailbox := some (a.nextMailbox, []) })
      (({ b with nextMailbox := b.nextMailbox + 1 } : Client).modifyWait w fun wait =>
        { wait with
          deadline := some deadline, listener := some b.nextMailbox
          mailbox := some (b.nextMailbox, []) }) := by
    obtain rfl := h.eq
    exact h.change rfl rfl rfl
  obtain rfl := h.eq
  unfold Client.openMailbox wait? at hkept ⊢
  rw [without_waits] at hkept ⊢
  cases hwait : a.waits[w]? with
  | none => exact h
  | some wait =>
    rw [hwait] at hkept
    dsimp only at hkept ⊢
    cases hquorum : wait.quorum with
    | none =>
      rw [hquorum] at hkept
      exact hproceed hkept
    | some q =>
      rw [hquorum] at hkept
      dsimp only at hkept ⊢
      split_ifs at hkept ⊢
      · exact hgivenUp hkept
      · exact (hopened _).linkCommit hj (hkey _) _ _ next hkept

/-! ## Submitting and querying -/

theorem Beside.proposalOf (h : Beside i claim a b) (inv : Invocation) :
    b.proposalOf inv = a.proposalOf inv := by
  rw [h.eq]
  rfl

theorem Beside.submit (h : Beside i claim a b) (hj : a.nextCall ≠ i) (inv : Invocation)
    (hkept : Kept claim (b.submit inv)) : Beside i claim (a.submit inv) (b.submit inv) := by
  obtain ⟨hnew, hnumber⟩ := h.newCall
  have hchannel : b.newCall.1.channel = a.newCall.1.channel := by rw [hnew.eq]; rfl
  have hoptions : b.newCall.1.options = a.newCall.1.options := by rw [hnew.eq]; rfl
  unfold Client.submit at hkept ⊢
  dsimp only at hkept ⊢
  rw [hnumber, hnew.proposalOf, hchannel, hoptions] at hkept ⊢
  cases hproposal : a.newCall.1.proposalOf inv with
  | error e =>
    rw [hproposal] at hkept
    exact hnew.finish hj _ hkept
  | ok p =>
    rw [hproposal] at hkept
    dsimp only at hkept ⊢
    cases htargets : Targets.choose a.newCall.1.channel inv.peers inv.organizations
        a.newCall.1.options.discoveryEnabled with
    | error e =>
      rw [htargets] at hkept
      exact hnew.finish hj _ hkept
    | ok targets => exact (hnew.setCall hj _).send (r := .propose _ targets p) hj

theorem Beside.endorsed (h : Beside i claim a b) (hj : j ≠ i)
    (hkey : ∀ l, claim ≠ some (.commit l)) (r : Except TransportError (List Answer))
    (hkept : Kept claim (b.endorsed j r)) :
    Beside i claim (a.endorsed j r) (b.endorsed j r) := by
  have hquorum : b.defaultQuorum = a.defaultQuorum := by rw [h.eq]; rfl
  have hoptions : b.options = a.options := by rw [h.eq]; rfl
  unfold Client.endorsed at hkept ⊢
  rw [h.call? hj, hquorum, hoptions] at hkept ⊢
  split at hkept
  · next p quorum hcall =>
    cases r with
    | error e => exact h.finish hj _ hkept
    | ok answers =>
      dsimp only at hkept ⊢
      cases hverdict : Verdict.ofAnswers answers with
      | error refusals =>
        rw [hverdict] at hkept
        exact h.finish hj _ hkept
      | ok verdict =>
        rw [hverdict] at hkept
        dsimp only at hkept ⊢
        obtain ⟨hnew, hnumber⟩ := h.newWait p.id (quorum.or a.defaultQuorum) a.options.commitTimeout
        rw [hnumber] at hkept ⊢
        exact hnew.openMailbox hj hkey _ _ hkept
  · exact h

theorem Beside.ordered (h : Beside i claim a b) (hj : j ≠ i)
    (r : Except TransportError OrderReply) (hkept : Kept claim (b.ordered j r)) :
    Beside i claim (a.ordered j r) (b.ordered j r) := by
  unfold Client.ordered at hkept ⊢
  rw [h.call? hj] at hkept ⊢
  split at hkept
  · exact h.orderStep hj _ _ _ _ hkept
  · exact h

theorem Beside.chooser (h : Beside i claim a b) (chooser : Chooser) :
    Beside i claim { a with chooser } { b with chooser } := by
  obtain rfl := h.eq
  exact h.change rfl rfl rfl

theorem Beside.inquire (h : Beside i claim a b) (hj : j ≠ i) (p : Proposal)
    (s : Chooser × InquiryStep) (hkept : Kept claim (b.inquire j p s)) :
    Beside i claim (a.inquire j p s) (b.inquire j p s) := by
  obtain ⟨chooser, inquiry | r⟩ := s
  · exact ((h.chooser chooser).setCall hj _).send (r := .query j inquiry.asked p) hj
  · exact (h.chooser chooser).finish hj _ hkept

theorem Beside.evaluate (h : Beside i claim a b) (hj : a.nextCall ≠ i) (inv : Invocation)
    (hkept : Kept claim (b.evaluate inv)) : Beside i claim (a.evaluate inv) (b.evaluate inv) := by
  obtain ⟨hnew, hnumber⟩ := h.newCall
  have hchooser : b.newCall.1.chooser = a.newCall.1.chooser := by rw [hnew.eq]; rfl
  have hpeers : b.newCall.1.queryPeers = a.newCall.1.queryPeers := by rw [hnew.eq]; rfl
  unfold Client.evaluate at hkept ⊢
  dsimp only at hkept ⊢
  rw [hnumber, hnew.proposalOf, hchooser, hpeers] at hkept ⊢
  cases hproposal : a.newCall.1.proposalOf inv with
  | error e =>
    rw [hproposal] at hkept
    exact hnew.finish hj _ hkept
  | ok p =>
    rw [hproposal] at hkept
    exact hnew.inquire hj p _ hkept

theorem Beside.inquired (h : Beside i claim a b) (hj : j ≠ i) (r : Except TransportError Reply)
    (hkept : Kept claim (b.inquired j r)) : Beside i claim (a.inquired j r) (b.inquired j r) := by
  have hchooser : b.chooser = a.chooser := by rw [h.eq]; rfl
  unfold Client.inquired at hkept ⊢
  rw [h.call? hj, hchooser] at hkept ⊢
  split at hkept
  · exact h.inquire hj _ _ hkept
  · exact h

/-! ## Going on and giving up -/

theorem Beside.resume (h : Beside i claim a b) (hj : j ≠ i) (room : Nat)
    (hkeys : ∀ call, a.call? j = some call → ∀ k ∈ call.key?, claim ≠ some k)
    (hkept : Kept claim (b.resume j room)) :
    Beside i claim (a.resume j room) (b.resume j room) := by
  unfold Client.resume at hkept ⊢
  rw [h.call? hj] at hkept ⊢
  split at hkept
  · next key links next hcall => exact h.followLinks hj (hkeys _ hcall key rfl) links next hkept
  · split_ifs at hkept ⊢
    · exact h
    · exact h.lookAt hj _ _ _ _ _ hkept
  · exact h

theorem Beside.abandon (h : Beside i claim a b) (j : Nat) (hj : j ≠ i)
    (hkept : Kept claim (b.abandon j)) : Beside i claim (a.abandon j) (b.abandon j) := by
  unfold Client.abandon at hkept ⊢
  rw [h.call? hj] at hkept ⊢
  cases hcall : a.call? j with
  | none => exact h
  | some call =>
    rw [hcall] at hkept
    dsimp only at hkept ⊢
    refine Beside.tearDownIfUnused (Beside.dropCall ?_ j) hkept
    split
    · exact h.dropWait _
    · exact h.dropWait _
    · exact h.dropWait _
    · exact h

/-! ## Moves of feeds and sessions -/

theorem Beside.requestStream (h : Beside i claim a b) (k : Nat) :
    Beside i claim (a.requestStream k) (b.requestStream k) := by
  have hsent (r : Request) := (h.table (·.modify k Feed.request)).send (r := r)
  obtain rfl := h.eq
  unfold Client.requestStream
  rw [without_table]
  cases a.table.feed? k with
  | none => exact h
  | some f =>
    dsimp only
    split
    · exact hsent (.openStream ..) id
    · exact hsent (.openStream ..) id
    · exact h

theorem Beside.restFeed (h : Beside i claim a b) (k : Nat) (f : Feed) (failedStart : Bool) :
    Beside i claim (a.restFeed k f failedStart) (b.restFeed k f failedStart) := by
  have hrested := (h.table (·.modify k (Feed.rest a.options.reconnect failedStart))).send
    (r := .rest k f.interval) id
  obtain rfl := h.eq
  exact hrested

theorem Beside.atFeed (h : Beside i claim a b) (k : Nat) {p : Feed → Prop} [DecidablePred p]
    {g : Client → Feed → Client} (hg : ∀ f, Beside i claim (g a f) (g b f)) :
    let moved (c : Client) : Client :=
      match c.table.feed? k with
      | none => c
      | some f => if p f then g c f else c
    Beside i claim (moved a) (moved b) := by
  have htable : b.table = a.table := by rw [h.eq]; rfl
  dsimp only
  rw [htable]
  cases a.table.feed? k with
  | none => exact h
  | some f =>
    dsimp only
    split_ifs
    · exact hg f
    · exact h

theorem Beside.streamOpened (h : Beside i claim a b) (k : Nat) :
    Beside i claim (a.streamOpened k) (b.streamOpened k) :=
  h.atFeed k (g := fun c _ =>
      ({ c with table := c.table.modify k Feed.opened } : Client).announce k)
    fun _ => (h.table (·.modify k Feed.opened)).announce k

theorem Beside.streamRefused (h : Beside i claim a b) (k : Nat) (e : TransportError) :
    Beside i claim (a.streamRefused k e) (b.streamRefused k e) :=
  h.atFeed k (g := fun c f =>
      ((c.restFeed k f true).announce k).deliverAll f (.fault ⟨f.peer.name, e.message⟩))
    fun f => ((h.restFeed k f true).announce k).deliverAll f _

theorem Beside.blockArrived (h : Beside i claim a b) (k : Nat) (block : Block) :
    Beside i claim (a.blockArrived k block) (b.blockArrived k block) := by
  obtain rfl := h.eq
  exact h.atFeed k (g := fun c f =>
      ({ c with table := c.table.modify k (Feed.advance c.options.reconnect block.number) } :
        Client).deliverAll f (.block f.peer.name block))
    fun f => (h.table (·.modify k (Feed.advance a.options.reconnect block.number))).deliverAll f _

theorem Beside.streamBroke (h : Beside i claim a b) (k : Nat) (e : TransportError) :
    Beside i claim (a.streamBroke k e) (b.streamBroke k e) :=
  h.atFeed k (g := fun c f =>
      (c.restFeed k f false).deliverAll f (.fault ⟨f.peer.name, e.message⟩))
    fun f => (h.restFeed k f false).deliverAll f _

theorem Beside.streamEnded (h : Beside i claim a b) (k : Nat) :
    Beside i claim (a.streamEnded k) (b.streamEnded k) :=
  h.atFeed k (g := fun c f => c.restFeed k f false) fun f => h.restFeed k f false

theorem Beside.serve (h : Beside i claim a b) (s : Nat) :
    Beside i claim (a.serve s) (b.serve s) := by
  have hsessions : b.sessions = a.sessions := by rw [h.eq]; rfl
  unfold Client.serve
  rw [hsessions]
  split
  · exact h
  · exact (h.post _ _).modifySession s _
  · next q _ _ => exact h.send (r := .ask s q) id

theorem Beside.atSession (h : Beside i claim a b) (k : Nat) {p : Session → Bool}
    {f : Session → Session} :
    let moved (c : Client) : Client :=
      match c.sessions[k]? with
      | none => c
      | some s => if p s then (c.modifySession k f).serve k else c
    Beside i claim (moved a) (moved b) := by
  have hsessions : b.sessions = a.sessions := by rw [h.eq]; rfl
  dsimp only
  rw [hsessions]
  cases a.sessions[k]? with
  | none => exact h
  | some s =>
    dsimp only
    split_ifs
    · exact (h.modifySession k f).serve k
    · exact h

/-! ## Moves of the application -/

theorem Beside.letGo (h : Beside i claim a b) (hkept : Kept claim b.letGo) :
    Beside i claim a.letGo b.letGo := by
  have hfree : Beside i claim { a with held := false } { b with held := false } := by
    obtain rfl := h.eq
    exact h.change rfl rfl rfl
  exact hfree.tearDownIfUnused hkept

theorem Beside.tick (h : Beside i claim a b) (millis : Nat) :
    Beside i claim (a.tick millis) (b.tick millis) := by
  obtain rfl := h.eq
  exact h.change rfl rfl rfl

theorem Beside.apply (h : Beside i claim a b) {m : Move} (hm : m.call? ≠ some i)
    (hnew : m.isCall = true → a.nextCall ≠ i)
    (hadds : ∀ k ∈ a.adds m, claim ≠ some k) (hcommit : ∀ l, claim ≠ some (.commit l))
    (hkeys : ∀ j, j ≠ i → ∀ call, a.call? j = some call → ∀ k ∈ call.key?, claim ≠ some k)
    (hkept : Kept claim (b.apply m)) : Beside i claim (a.apply m) (b.apply m) := by
  have hj {j : Nat} (hcall : m.call? = some j) : j ≠ i := fun heq => hm (heq ▸ hcall)
  cases m with
  | submit inv => exact h.submit (hnew rfl) inv hkept
  | evaluate inv => exact h.evaluate (hnew rfl) inv hkept
  | addListener s o => exact h.addListener (hnew rfl) (hadds _ (List.mem_singleton_self _)) o hkept
  | addCommitListener l peers id =>
    obtain ⟨hbegun, hnumber⟩ := h.newCall
    change Kept claim (b.newCall.1.linkCommit b.newCall.2 l peers id .added) at hkept
    change Beside i claim (a.newCall.1.linkCommit a.newCall.2 l peers id .added)
      (b.newCall.1.linkCommit b.newCall.2 l peers id .added)
    rw [hnumber] at hkept ⊢
    exact hbegun.linkCommit (hnew rfl) (hcommit l) peers id _ hkept
  | remove key => exact h.unregister key
  | close => exact h.close
  | letGo => exact h.letGo hkept
  | newWait id quorum limit => exact (h.newWait id quorum limit).1
  | listen w =>
    obtain ⟨hbegun, hnumber⟩ := h.newCall
    change Kept claim (b.newCall.1.openMailbox b.newCall.2 w .listening) at hkept
    change Beside i claim (a.newCall.1.openMailbox a.newCall.2 w .listening)
      (b.newCall.1.openMailbox b.newCall.2 w .listening)
    rw [hnumber] at hkept ⊢
    exact hbegun.openMailbox (hnew rfl) hcommit w _ hkept
  | awaitConfirmation w =>
    obtain ⟨hbegun, hnumber⟩ := h.newCall
    change Kept claim (b.newCall.1.confirm b.newCall.2 w none) at hkept
    change Beside i claim (a.newCall.1.confirm a.newCall.2 w none)
      (b.newCall.1.confirm b.newCall.2 w none)
    rw [hnumber] at hkept ⊢
    exact hbegun.confirm (hnew rfl) w none hkept
  | cancelWait w => exact h.cancelWait w
  | letGoOfWait w => exact (h.dropWait w).tearDownIfUnused hkept
  | abandon j => exact h.abandon j (hj rfl) hkept
  | checkpointRead j r => exact h.checkpointRead (hj rfl) (hkeys j (hj rfl)) r hkept
  | endorsed j r => exact h.endorsed (hj rfl) hcommit r hkept
  | ordered j r => exact h.ordered (hj rfl) r hkept
  | inquired j r => exact h.inquired (hj rfl) r hkept
  | resume j room => exact h.resume (hj rfl) room (hkeys j (hj rfl)) hkept
  | requestStream k => exact h.requestStream k
  | streamOpened k => exact h.streamOpened k
  | streamRefused k e => exact h.streamRefused k e
  | blockArrived k block => exact h.blockArrived k block
  | streamBroke k e => exact h.streamBroke k e
  | streamEnded k => exact h.streamEnded k
  | takeNext k => exact h.atSession k
  | answer k r => exact h.atSession k (p := (·.expects r))
  | tick millis => exact h.tick millis

end Client

end LedgerClient
