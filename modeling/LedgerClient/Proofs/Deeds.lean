import LedgerClient.Proofs.Links
import Mathlib.Data.List.Induction

/-!
# Keys, waits and sessions in the hands of calls

What a call does to keys, waits and sessions, again as a chain of few deeds (`Client.deeds_apply`),
but said more closely than by its acts: which keys it may put up, whose sessions it makes, and which
waits it may touch. So what is registered, who waits for what, and whom a session tells change only
by the hand of those who may: a move registers no key that it does not add, makes sessions of its
own key only, and leaves the waits of other calls alone.
-/

namespace LedgerClient

/-- The key that a listener of this kind is registered under. -/
def Audience.key : Audience → ListenerKey
  | .block l _ => .blocks l
  | .contract l f _ => .events f.chaincode l
  | .commit l _ _ => .commit l

@[simp] theorem ListenerKey.key_audience (o : ListenerOptions) (key : ListenerKey) :
    (key.audience o).key = key := by
  cases key <;> rfl

/-- The wait that a call goes on with after its listener is attached. -/
def AfterLink.wait? : AfterLink → Option Nat
  | .added | .listening => none
  | .order _ _ w => some w

namespace Call

/-- The key that a call adds. -/
def key? : Call → Option ListenerKey
  | .readingCheckpoint key _ | .linking key _ _ => some key
  | _ => none

/-- The wait of a call. -/
def wait? : Call → Option Nat
  | .linking _ _ next => next.wait?
  | .ordering _ _ w _ | .confirming w _ _ _ => some w
  | _ => none

end Call

namespace Client

/-! ## What releases leave -/

section Releases

variable (c : Client)

theorem releaseAll_eq (as : List Attachment) : ∃ table sessions agenda,
    c.releaseAll as = { c with table, sessions, agenda } := by
  induction as generalizing c with
  | nil => exact ⟨c.table, c.sessions, c.agenda, rfl⟩
  | cons a as ih =>
    obtain ⟨agenda, h⟩ := c.release_eq a
    obtain ⟨table, sessions, agenda', h'⟩ := ih (c.release a)
    exact ⟨table, sessions, agenda', by rw [releaseAll, List.foldl_cons, ← releaseAll, h', h]⟩

theorem unregister_eq (key : ListenerKey) : ∃ table sessions agenda,
    c.unregister key =
      { c with table, sessions, agenda, registrations := c.registrations.filter (·.1 ≠ key) } := by
  unfold unregister
  split
  · next hnone =>
    refine ⟨c.table, c.sessions, c.agenda, ?_⟩
    rw [registered?, Option.map_eq_none_iff, List.find?_eq_none] at hnone
    rw [List.filter_eq_self.2 fun r hr => by simpa using hnone r hr]
  · exact releaseAll_eq _ _

theorem tearDown_eq :
    ∃ table sessions, c.tearDown = { c with table, sessions, registrations := [] } := by
  have hfold : ∀ (as : List Attachment) (b : Client), ∃ table sessions, (as.foldl (fun b a =>
      { b.modifySession a.session Session.close with
        table := b.table.modify a.feed Feed.stop }) b) = { b with table, sessions } := by
    intro as
    induction as with
    | nil => exact fun b => ⟨b.table, b.sessions, rfl⟩
    | cons a as ih => exact fun b => ih _
  obtain ⟨table, sessions, h⟩ :=
    hfold (c.registrations.flatMap (·.2)) { c with registrations := [] }
  unfold tearDown
  dsimp only
  rw [h]
  exact ⟨_, sessions, rfl⟩

theorem close_eq : ∃ table sessions agenda,
    c.close = { c with table, sessions, agenda, registrations := [] } := by
  unfold close
  dsimp only
  obtain ⟨agenda, h⟩ := foldl_announceStop_eq _ _
  obtain ⟨table, sessions, agenda', h'⟩ :=
    releaseAll_eq { c with registrations := [] } (c.registrations.flatMap (·.2))
  rw [h, h']
  exact ⟨_, sessions, agenda, rfl⟩

theorem tearDownIfUnused_eq : ∃ table sessions registrations,
    c.tearDownIfUnused = { c with table, sessions, registrations } := by
  unfold tearDownIfUnused
  split_ifs
  · obtain ⟨table, sessions, heq⟩ := c.tearDown_eq
    exact ⟨table, sessions, [], heq⟩
  · exact ⟨c.table, c.sessions, c.registrations, rfl⟩

theorem finish_eq {i : Nat} (r : CallResult) : ∃ table sessions registrations,
    c.finish i r = { c with
      table, sessions, registrations, calls := c.calls.filter (·.1 ≠ i)
      outbox := c.outbox ++ [.finished i r] } := by
  let b : Client := { c with calls := c.calls.filter (·.1 ≠ i) }.send (.finished i r)
  exact b.tearDownIfUnused_eq

theorem dropWait_eq (w : Nat) : ∃ table sessions registrations waits agenda,
    c.dropWait w = { c with table, sessions, registrations, waits, agenda } := by
  unfold dropWait cancelWait
  split
  · exact ⟨_, _, _, _, _, rfl⟩
  · dsimp only
    split
    · next n _ =>
      obtain ⟨table, sessions, agenda, heq⟩ := c.unregister_eq (.commit (.mailbox n))
      rw [heq]
      exact ⟨_, _, _, _, _, rfl⟩
    · exact ⟨_, _, _, _, _, rfl⟩

theorem removed_releaseAll {as : List Attachment} {a : Attachment} (ha : a ∈ as) {s : Session}
    (hs : (c.releaseAll as).sessions[a.session]? = some s) : s.removed = true := by
  induction as generalizing c with
  | nil => cases ha
  | cons b as ih =>
    rw [releaseAll, List.foldl_cons, ← releaseAll] at hs
    rcases List.mem_cons.1 ha with rfl | ha
    · have hsheds : (c.release a).Sheds (fun _ => True) ((c.release a).releaseAll as) :=
        sheds_releaseAll as _ fun _ _ => trivial
      have hlt : a.session < (c.release a).sessions.length :=
        hsheds.length ▸ (List.getElem?_eq_some_iff.1 hs).1
      obtain ⟨agenda, h⟩ := c.release_eq a
      have hclosed : ∀ s', (c.release a).sessions[a.session]? = some s' → s'.removed = true := by
        intro s' hs'
        rw [h, List.getElem?_modify_eq] at hs'
        obtain ⟨s'', -, rfl⟩ := Option.map_eq_some_iff.1 hs'
        rfl
      have hat := List.getElem?_eq_getElem hlt
      rcases hsheds.session hat with heq | ⟨-, heq⟩ <;> rw [heq, Option.some.injEq] at hs <;>
        subst hs
      · exact hclosed _ hat
      · rfl
    · exact ih _ ha hs

theorem removed_tearDown {key : ListenerKey} {as : List Attachment}
    (hkey : c.registered? key = some as) {a : Attachment} (ha : a ∈ as) {s : Session}
    (hs : c.tearDown.sessions[a.session]? = some s) : s.removed = true := by
  have hfold : ∀ (as : List Attachment) (b : Client) {s : Session}, a ∈ as →
      (as.foldl (fun b a =>
        { b.modifySession a.session Session.close with
          table := b.table.modify a.feed Feed.stop }) b).sessions[a.session]? = some s →
      s.removed = true := by
    intro as
    induction as using List.reverseRecOn with
    | nil => exact fun _ _ ha => absurd ha List.not_mem_nil
    | append_singleton as a' ih =>
      intro b s ha hs
      rw [List.foldl_append, List.foldl_cons, List.foldl_nil] at hs
      simp only [modifySession, List.getElem?_modify, Option.map_eq_map,
        Option.map_eq_some_iff] at hs
      obtain ⟨s', hs', rfl⟩ := hs
      split_ifs with heq
      · rfl
      · rcases List.mem_append.1 ha with ha | ha
        · exact ih b ha hs'
        · exact absurd (congrArg Attachment.session (List.mem_singleton.1 ha)).symm heq
  obtain ⟨r, hr, rfl⟩ := Option.map_eq_some_iff.1 hkey
  exact hfold _ _ (List.mem_flatMap.2 ⟨r, List.mem_of_find?_eq_some hr, ha⟩) hs

theorem removed_close {key : ListenerKey} {as : List Attachment}
    (hkey : c.registered? key = some as) {a : Attachment} (ha : a ∈ as) {s : Session}
    (hs : c.close.sessions[a.session]? = some s) : s.removed = true := by
  obtain ⟨r, hr, rfl⟩ := Option.map_eq_some_iff.1 hkey
  refine removed_releaseAll { c with registrations := [] }
    (List.mem_flatMap.2 ⟨r, List.mem_of_find?_eq_some hr, ha⟩) ?_
  unfold close at hs
  dsimp only at hs
  obtain ⟨agenda, h⟩ := foldl_announceStop_eq _ _
  rw [h] at hs
  exact hs

end Releases

/-! ## Deeds -/

/-- What a client works with. -/
def setup (c : Client) : Channel × Identity × Options := (c.channel, c.identity, c.options)

/-- The waits stay what they wait for, and no mailbox is put in place of another. -/
def SameWait (f : Wait → Wait) : Prop :=
  ∀ wait, (f wait).id = wait.id ∧ (f wait).limit = wait.limit ∧
    ∀ m ∈ (f wait).mailbox, ∃ m' ∈ wait.mailbox, m.1 = m'.1

/-- One deed of the call `i`, which may register the keys `new`, make sessions of `keys` and wait
for them, and touch `waits`. -/
inductive Deed (i : Nat) (new keys : ListenerKey → Prop) (waits : Nat → Prop) (c : Client) :
    Client → Prop
  /-- Sessions, keys, calls and waits stay as they are; time may pass. -/
  | notes {c' : Client} (sessions : c'.sessions = c.sessions)
      (registrations : c'.registrations = c.registrations) (calls : c'.calls = c.calls)
      (same : c'.waits = c.waits) (nextMailbox : c'.nextMailbox = c.nextMailbox)
      (setup : c'.setup = c.setup) (clock : c.clock ≤ c'.clock) : Deed i new keys waits c c'
  | sets (call : Call) (key : ∀ k ∈ call.key?, keys k) (wait : ∀ w ∈ call.wait?, waits w) :
      Deed i new keys waits c (c.setCall i call)
  | ends : Deed i new keys waits c { c with calls := c.calls.filter (·.1 ≠ i) }
  | reserves (key : ListenerKey) (mine : new key) (free : c.registered? key = none) :
      Deed i new keys waits c (c.reserve key)
  | completes (key : ListenerKey) (as : List Attachment) :
      Deed i new keys waits c (c.complete key as)
  | removes (key : ListenerKey) : Deed i new keys waits c (c.unregister key)
  | spawns (audience : Audience) (floor : Option Nat) (mine : keys audience.key) :
      Deed i new keys waits c (c.spawn audience floor).1
  | closes : Deed i new keys waits c c.close
  | tearsDown : Deed i new keys waits c c.tearDown
  | begins (id : TransactionId) (quorum : Option Quorum) (limit : Duration) :
      Deed i new keys waits c (c.newWait id quorum limit).1
  | modifies (w : Nat) (mine : waits w) (f : Wait → Wait) (same : SameWait f) :
      Deed i new keys waits c (c.modifyWait w f)
  /-- A wait gets a mailbox with the next number. -/
  | opens (w : Nat) (mine : waits w) (f : Wait → Wait)
      (opened : ∀ wait, (f wait).id = wait.id ∧ (f wait).limit = wait.limit ∧
        (f wait).mailbox = some (c.nextMailbox, [])) :
      Deed i new keys waits c ({ c with nextMailbox := c.nextMailbox + 1 }.modifyWait w f)

/-- A chain of deeds of the call `i`. -/
abbrev Deeds (i : Nat) (new keys : ListenerKey → Prop) (waits : Nat → Prop) :
    Client → Client → Prop :=
  Relation.ReflTransGen (Deed i new keys waits)

section Calls

variable {i : Nat} {new keys : ListenerKey → Prop} {waits : Nat → Prop} (c : Client)

theorem deed_send (r : Request) : Deed i new keys waits c (c.send r) :=
  .notes rfl rfl rfl rfl rfl rfl (Nat.le_refl _)

theorem deed_newCall : Deed i new keys waits c c.newCall.1 :=
  .notes rfl rfl rfl rfl rfl rfl (Nat.le_refl _)

theorem deed_attachTo (peer : Peer) (kind : BlockKind) (start : Option Nat) (session : Nat) :
    Deed i new keys waits c (c.attachTo peer kind start session).1 := by
  obtain ⟨agenda, h⟩ := c.attachTo_eq peer kind start session
  rw [h]
  exact .notes rfl rfl rfl rfl rfl rfl (Nat.le_refl _)

theorem deeds_tearDownIfUnused : Deeds i new keys waits c c.tearDownIfUnused := by
  unfold tearDownIfUnused
  split_ifs
  · exact .single .tearsDown
  · exact .refl

theorem deeds_finish (r : CallResult) : Deeds i new keys waits c (c.finish i r) := by
  unfold finish
  exact .trans (.tail (.single .ends) (deed_send _ _)) (deeds_tearDownIfUnused _)

theorem deeds_cancelWait {w : Nat} (mine : waits w) :
    Deeds i new keys waits c (c.cancelWait w) := by
  unfold cancelWait
  split
  · exact .refl
  · refine .tail ?_ (.modifies w mine _ fun wait => ⟨rfl, rfl, by simp⟩)
    split
    · exact .single (.removes _)
    · exact .refl

theorem deeds_dropWait {w : Nat} (mine : waits w) : Deeds i new keys waits c (c.dropWait w) :=
  .tail (deeds_cancelWait c mine)
    (.modifies w mine _ fun _ => ⟨rfl, rfl, fun m hm => ⟨m, hm, rfl⟩⟩)

theorem deeds_drop_finish {w : Nat} (mine : waits w) (r : CallResult) :
    Deeds i new keys waits c ((c.dropWait w).finish i r) :=
  (deeds_dropWait c mine).trans (deeds_finish _ r)

theorem deeds_lookAt {w : Nat} (mine : waits w) (room : Nat) (q : Quorum) (t : Tally)
    (payload : Option Bytes) : Deeds i new keys waits c (c.lookAt i w room q t payload) := by
  unfold lookAt
  split
  · exact .refl
  · dsimp only
    refine .head (.modifies w mine (·.drop room) fun wait => ⟨rfl, rfl, ?_⟩) ?_
    · intro m hm
      obtain ⟨m', hm', rfl⟩ := Option.map_eq_some_iff.1 hm
      exact ⟨m', hm', rfl⟩
    · split
      · exact .single (.sets _ (by simp [Call.key?]) (by simpa [Call.wait?] using mine))
      · exact deeds_drop_finish _ mine _

theorem deeds_confirm {w : Nat} (mine : waits w) (payload : Option Bytes) :
    Deeds i new keys waits c (c.confirm i w payload) := by
  unfold confirm
  split
  · exact .refl
  · split
    · exact .tail (.single (.sets _ (by simp [Call.key?]) (by simpa [Call.wait?] using mine)))
        (deed_send _ _)
    · exact deeds_drop_finish c mine _

theorem deeds_orderStep (r : OrderRequest) (payload : Bytes) {w : Nat} (mine : waits w)
    (s : OrderStep) : Deeds i new keys waits c (c.orderStep i r payload w s) := by
  rcases s with route | (e | reply)
  · exact .tail (.single (.sets _ (by simp [Call.key?]) (by simpa [Call.wait?] using mine)))
      (deed_send _ _)
  · exact deeds_drop_finish c mine _
  · simp only [orderStep]
    split_ifs
    · exact deeds_confirm c mine _
    · exact deeds_drop_finish c mine _

theorem deeds_proceed (next : AfterLink) (mine : ∀ w ∈ next.wait?, waits w) :
    Deeds i new keys waits c (c.proceed i next) := by
  cases next with
  | added => exact deeds_finish c _
  | listening => exact deeds_finish c _
  | order r payload w => exact deeds_orderStep c r payload (mine w rfl) _

/-! ## Attaching -/

theorem deeds_followLinks {key : ListenerKey} (mine : keys key) (links : List Link)
    (next : AfterLink) (hnext : ∀ w ∈ next.wait?, waits w) :
    Deeds i new keys waits c (c.followLinks i key links next) := by
  unfold followLinks
  dsimp only
  split_ifs
  · exact .head (.completes key _) (deeds_proceed _ next hnext)
  · exact .single (.sets _ (by simpa [Call.key?] using mine) hnext)

theorem deeds_attachListener {key : ListenerKey} (mine : keys key) (o : ListenerOptions)
    (start : Option Nat) :
    Deeds i new keys waits c (c.attachListener i key o start) := by
  unfold attachListener
  split
  · exact .head (.removes key) (deeds_finish _ _)
  · exact .head (.spawns _ _ (by simpa using mine)) (.head (deed_attachTo _ _ _ _ _)
      (deeds_followLinks _ mine _ _ (by simp [AfterLink.wait?])))

theorem deeds_spawnEach {l : ListenerId} (mine : keys (.commit l)) (id : String)
    (peers : List Peer) : Deeds i new keys waits c (c.spawnEach l id peers) := by
  induction peers generalizing c with
  | nil => exact .refl
  | cons p ps ih => exact .head (.spawns (.commit l p.name id) none mine) (ih _)

theorem deeds_attachEach (ss : List (Peer × Nat)) :
    Deeds i new keys waits c (c.attachEach ss).1 := by
  induction ss generalizing c with
  | nil => exact .refl
  | cons x rest ih =>
    exact .head (deed_attachTo c x.1 .filtered none x.2) (ih (c.attachTo x.1 .filtered none x.2).1)

theorem deeds_linkCommit {l : ListenerId} (hnew : new (.commit l)) (mine : keys (.commit l))
    (peers : List Peer) (id : String) (next : AfterLink) (hnext : ∀ w ∈ next.wait?, waits w) :
    Deeds i new keys waits c (c.linkCommit i l peers id next) := by
  cases free : c.registered? (.commit l) with
  | some _ =>
    unfold linkCommit
    rw [free]
    exact deeds_proceed c next hnext
  | none =>
    rw [linkCommit_eq c i l peers id next free]
    exact .head (.reserves _ hnew free) (.trans (deeds_spawnEach _ mine id peers)
      (.trans (deeds_attachEach _ _) (deeds_followLinks _ mine _ _ hnext)))

theorem deeds_openMailbox {w : Nat} (mine : waits w)
    (hnew : new (.commit (.mailbox c.nextMailbox))) (key : keys (.commit (.mailbox c.nextMailbox)))
    (next : AfterLink) (hnext : ∀ w ∈ next.wait?, waits w) :
    Deeds i new keys waits c (c.openMailbox i w next) := by
  unfold openMailbox
  split
  · exact .refl
  · next wait _ =>
    split
    · exact deeds_proceed c next hnext
    · split_ifs
      · exact .head (.modifies w mine (fun wait => { wait with quorum := none }) fun _ =>
          ⟨rfl, rfl, fun m hm => ⟨m, hm, rfl⟩⟩) (deeds_proceed _ next hnext)
      · dsimp only
        let f (old : Wait) : Wait :=
          { old with
            deadline := some (c.clock + wait.limit.ceilMillis), listener := some c.nextMailbox
            mailbox := some (c.nextMailbox, []) }
        exact .head (.opens w mine f fun _ => ⟨rfl, rfl, rfl⟩)
          (deeds_linkCommit _ hnew key _ _ next hnext)

theorem deeds_inquire (p : Proposal) (s : Chooser × InquiryStep) :
    Deeds i new keys waits c (c.inquire i p s) := by
  obtain ⟨chooser, inquiry | r⟩ := s
  all_goals
    have hnote : Deed i new keys waits c { c with chooser } :=
      .notes rfl rfl rfl rfl rfl rfl (Nat.le_refl _)
  · exact .tail (.head hnote (.single (.sets _ (by simp [Call.key?]) (by simp [Call.wait?]))))
      (deed_send _ _)
  · exact .head hnote (deeds_finish _ _)

theorem deeds_submit (inv : Invocation) :
    Deeds c.nextCall new keys waits c.newCall.1 (c.submit inv) := by
  unfold submit
  dsimp only
  split
  · exact deeds_finish _ _
  · split
    · exact deeds_finish _ _
    · exact .tail (.single (.sets _ (by simp [Call.key?]) (by simp [Call.wait?]))) (deed_send _ _)

theorem deeds_evaluate (inv : Invocation) :
    Deeds c.nextCall new keys waits c.newCall.1 (c.evaluate inv) := by
  unfold evaluate
  dsimp only
  split
  · exact deeds_finish _ _
  · exact deeds_inquire _ _ _

theorem deeds_addListener (s : Subject) (o : ListenerOptions) (owned : new s.key)
    (mine : keys s.key) : Deeds c.nextCall new keys waits c.newCall.1 (c.addListener s o) := by
  unfold addListener
  dsimp only
  split
  · exact deeds_finish _ _
  · next free =>
    refine .head (.reserves s.key owned free) ?_
    split
    · exact .tail (.single (.sets _ (by simpa [Call.key?] using mine) (by simp [Call.wait?])))
        (deed_send _ _)
    · exact deeds_attachListener _ mine o _

theorem deeds_abandon (mine : ∀ call, c.call? i = some call → ∀ w ∈ call.wait?, waits w) :
    Deeds i new keys waits c (c.abandon i) := by
  unfold abandon
  split
  · exact .refl
  · next call h =>
    have hwait := mine call h
    dsimp only
    split
    all_goals refine .trans ?_ (.head .ends (deeds_tearDownIfUnused _))
    · exact deeds_dropWait c (hwait _ rfl)
    · exact deeds_dropWait c (hwait _ rfl)
    · exact deeds_dropWait c (hwait _ rfl)
    · exact .refl

end Calls

/-! ## Moves -/

/-- The keys that a move adds. -/
def adds (c : Client) : Move → List ListenerKey
  | .addListener s _ => [s.key]
  | .addCommitListener l _ _ => [.commit l]
  | .listen _ | .endorsed _ _ => [.commit (.mailbox c.nextMailbox)]
  | _ => []

end Client

/-- The wait that the application names in a move. -/
def Move.wait? : Move → Option Nat
  | .listen w | .awaitConfirmation w | .cancelWait w | .letGoOfWait w => some w
  | _ => none

namespace Client

/-- The keys that a move may make sessions of: those that it adds and that of its call. -/
def MayAdd (c : Client) (m : Move) (key : ListenerKey) : Prop :=
  key ∈ c.adds m ∨ ∃ call, c.call? (c.actor m) = some call ∧ call.key? = some key

/-- The waits that a move may touch: the one that it names, that of its call and, when a transaction
is endorsed, the new one. -/
def MayTouch (c : Client) (m : Move) (w : Nat) : Prop :=
  m.wait? = some w ∨ (∃ call, c.call? (c.actor m) = some call ∧ call.wait? = some w) ∨
    w = c.waits.length ∧ ∃ i r, m = .endorsed i r

theorem deeds_goes {c c' : Client} {m : Move} {call : Call}
    (hcall : c.call? (c.actor m) = some call) (h : c.Goes (c.actor m) call m c') :
    Deeds (c.actor m) (· ∈ c.adds m) (c.MayAdd m) (c.MayTouch m) c c' := by
  have hkey : ∀ k ∈ call.key?, c.MayAdd m k := fun k hk => Or.inr ⟨_, hcall, hk⟩
  have hwait : ∀ w ∈ call.wait?, c.MayTouch m w := fun w hw => Or.inr (Or.inl ⟨_, hcall, hw⟩)
  generalize hi : c.actor m = i at h ⊢
  cases h with
  | attaches key o position => exact deeds_attachListener c (hkey key rfl) o _
  | unread key o e => exact .head (.removes _) (deeds_finish _ _)
  | follows key links next => exact deeds_followLinks c (hkey key rfl) _ _ hwait
  | unreached | refused => exact deeds_finish c _
  | @endorsed p quorum answers verdict =>
    let b := (c.newWait p.id (quorum.or c.defaultQuorum) c.options.commitTimeout).1
    have hmine : c.MayTouch (.endorsed i (.ok answers)) c.waits.length :=
      Or.inr (Or.inr ⟨rfl, i, _, rfl⟩)
    have hnew : .commit (.mailbox b.nextMailbox) ∈ c.adds (.endorsed i (.ok answers)) :=
      List.mem_singleton_self _
    refine .head (.begins _ _ _) (deeds_openMailbox b hmine hnew (Or.inl hnew) _ fun w hw => ?_)
    obtain rfl := Option.some.inj hw
    exact hmine
  | ordered request payload w route r => exact deeds_orderStep c _ _ (hwait w rfl) _
  | looks w q t payload => exact deeds_lookAt c (hwait w rfl) _ _ _ _
  | inquired p inquiry r => exact deeds_inquire c _ _

theorem deeds_apply (c : Client) {m : Move} (hfeed : m.feed? = none)
    (hsession : m.session? = none) :
    Deeds (c.actor m) (· ∈ c.adds m) (c.MayAdd m) (c.MayTouch m) c (c.apply m) := by
  cases hm : m.call? with
  | some i =>
    have hactor : c.actor m = i := actor_of_call hm
    obtain ⟨hsame, -⟩ | ⟨rfl, -⟩ | ⟨call, _, hcall, rfl, hgoes⟩ := c.call_cases hm
    · rw [hsame]
    · exact deeds_abandon c fun call hcall w hw => Or.inr (Or.inl ⟨call, hcall, hw⟩)
    · subst hactor
      exact deeds_goes hcall hgoes
  | none =>
    have hnamed : ∀ {w}, m.wait? = some w → c.MayTouch m w := Or.inl
    cases m with
    | submit inv => exact .head (deed_newCall c) (deeds_submit c inv)
    | evaluate inv => exact .head (deed_newCall c) (deeds_evaluate c inv)
    | addListener s o =>
      have hnew : s.key ∈ c.adds (.addListener s o) := List.mem_singleton_self _
      exact .head (deed_newCall c) (deeds_addListener c s o hnew (Or.inl hnew))
    | addCommitListener l peers id =>
      have hnew : .commit l ∈ c.adds (.addCommitListener l peers id) := List.mem_singleton_self _
      exact .head (deed_newCall c)
        (deeds_linkCommit c.newCall.1 hnew (Or.inl hnew) peers id _ (by simp [AfterLink.wait?]))
    | remove key => exact .single (.removes key)
    | close => exact .single .closes
    | letGo =>
      have hnote : Deed (c.actor .letGo) (· ∈ c.adds .letGo) (c.MayAdd .letGo) (c.MayTouch .letGo) c
          { c with held := false } := .notes rfl rfl rfl rfl rfl rfl (Nat.le_refl _)
      exact .head hnote (deeds_tearDownIfUnused _)
    | newWait id quorum limit => exact .single (.begins id quorum limit)
    | listen w =>
      have hnew : .commit (.mailbox c.nextMailbox) ∈ c.adds (.listen w) := List.mem_singleton_self _
      exact .head (deed_newCall c) (deeds_openMailbox c.newCall.1 (hnamed rfl) hnew (Or.inl hnew) _
        (by simp [AfterLink.wait?]))
    | awaitConfirmation w =>
      exact .head (deed_newCall c) (deeds_confirm c.newCall.1 (hnamed rfl) none)
    | cancelWait w => exact deeds_cancelWait c (hnamed rfl)
    | letGoOfWait w => exact .trans (deeds_dropWait c (hnamed rfl)) (deeds_tearDownIfUnused _)
    | tick millis => exact .single (.notes rfl rfl rfl rfl rfl rfl (Nat.le_add_right _ _))
    | abandon | checkpointRead | endorsed | ordered | inquired | resume => cases hm
    | requestStream _ | streamOpened _ | streamRefused _ _ | blockArrived _ _ | streamBroke _ _
    | streamEnded _ => cases hfeed
    | takeNext _ | answer _ _ => cases hsession

/-! ## What deeds keep -/

section Keeps

variable {i : Nat} {new keys : ListenerKey → Prop} {waits : Nat → Prop} {c c' : Client}

theorem Deed.mono {new' keys' : ListenerKey → Prop} {waits' : Nat → Prop}
    (h : Deed i new keys waits c c') (hnew : ∀ k, new k → new' k) (hkeys : ∀ k, keys k → keys' k)
    (hwaits : ∀ w, waits w → waits' w) : Deed i new' keys' waits' c c' := by
  cases h with
  | notes sessions registrations calls same nextMailbox setup clock =>
    exact .notes sessions registrations calls same nextMailbox setup clock
  | sets call key wait =>
    exact .sets call (fun k hk => hkeys k (key k hk)) fun w hw => hwaits w (wait w hw)
  | ends => exact .ends
  | reserves key mine free => exact .reserves key (hnew _ mine) free
  | completes key as => exact .completes key as
  | removes key => exact .removes key
  | spawns audience floor mine => exact .spawns audience floor (hkeys _ mine)
  | closes => exact .closes
  | tearsDown => exact .tearsDown
  | begins id quorum limit => exact .begins id quorum limit
  | modifies w mine f same => exact .modifies w (hwaits w mine) f same
  | opens w mine f opened => exact .opens w (hwaits w mine) f opened

theorem Deeds.mono {new' keys' : ListenerKey → Prop} {waits' : Nat → Prop}
    (h : Deeds i new keys waits c c') (hnew : ∀ k, new k → new' k) (hkeys : ∀ k, keys k → keys' k)
    (hwaits : ∀ w, waits w → waits' w) : Deeds i new' keys' waits' c c' := by
  induction h with
  | refl => exact .refl
  | tail _ h ih => exact ih.tail (h.mono hnew hkeys hwaits)

/-- A deed leaves sessions as they are, sheds some, or makes one of a key that it may put up. -/
theorem Deed.cases (h : Deed i new keys waits c c') :
    c'.sessions = c.sessions ∨ c.Sheds (fun _ => True) c' ∨
      ∃ audience floor, keys audience.key ∧ c'.sessions = c.sessions ++ [.new audience floor] := by
  cases h with
  | notes sessions => exact Or.inl sessions
  | sets | ends | reserves | begins | modifies | opens => exact Or.inl rfl
  | completes key as =>
    unfold complete
    split
    · exact Or.inr (Or.inl (sheds_releaseAll as c fun _ _ => trivial))
    · exact Or.inl rfl
  | removes key => exact Or.inr (Or.inl ((c.sheds_unregister key).mono fun _ _ => trivial))
  | spawns audience floor mine =>
    exact Or.inr (Or.inr ⟨audience, floor, mine, spawn_sessions ..⟩)
  | closes => exact Or.inr (Or.inl (c.sheds_close.mono fun _ _ => trivial))
  | tearsDown => exact Or.inr (Or.inl (c.sheds_tearDown.mono fun _ _ => trivial))

theorem Deed.session (h : Deed i new keys waits c c') {j : Nat} {s : Session}
    (hs : c.sessions[j]? = some s) :
    c'.sessions[j]? = some s ∨ c'.sessions[j]? = some s.close := by
  rcases h.cases with heq | hsheds | ⟨audience, floor, -, heq⟩
  · exact Or.inl (heq ▸ hs)
  · exact (hsheds.session hs).imp_right And.right
  · rw [heq]
    exact Or.inl (List.getElem?_append_left (List.getElem?_eq_some_iff.1 hs).1 ▸ hs)

theorem Deed.made (h : Deed i new keys waits c c') {j : Nat} {s : Session}
    (hs : c'.sessions[j]? = some s) (hj : c.sessions.length ≤ j) :
    ∃ audience floor, keys audience.key ∧ s = .new audience floor := by
  rcases h.cases with heq | hsheds | ⟨audience, floor, mine, heq⟩
  · rw [heq, List.getElem?_eq_none hj] at hs
    cases hs
  · rw [List.getElem?_eq_none (hsheds.length ▸ hj)] at hs
    cases hs
  · rw [heq, List.getElem?_append_right hj] at hs
    obtain ⟨hlt, hget⟩ := List.getElem?_eq_some_iff.1 hs
    simp only [List.length_singleton, Nat.lt_one_iff] at hlt
    simp only [hlt, List.getElem_cons_zero] at hget
    exact ⟨audience, floor, mine, hget.symm⟩

/-- The sessions after a deed were there before, or are new ones. -/
theorem Deed.session_back (h : Deed i new keys waits c c') {j : Nat} {s' : Session}
    (hs' : c'.sessions[j]? = some s') :
    (∃ s, c.sessions[j]? = some s ∧ (s' = s ∨ s' = s.close)) ∨
      c.sessions.length ≤ j ∧ ∃ audience floor, keys audience.key ∧ s' = .new audience floor := by
  rcases Nat.lt_or_ge j c.sessions.length with hlt | hge
  · have hs := List.getElem?_eq_getElem hlt
    refine Or.inl ⟨_, hs, ?_⟩
    rcases h.session hs with heq | heq <;> rw [hs', Option.some.injEq] at heq
    · exact Or.inl heq
    · exact Or.inr heq
  · exact Or.inr ⟨hge, h.made hs' hge⟩

/-- A deed leaves what the client works with, and does not turn the clock back. -/
theorem Deed.setup_clock (h : Deed i new keys waits c c') :
    c'.setup = c.setup ∧ c.clock ≤ c'.clock := by
  cases h with
  | notes _ _ _ _ _ setup clock => exact ⟨setup, clock⟩
  | sets | ends | reserves | begins | modifies | opens => exact ⟨rfl, Nat.le_refl _⟩
  | completes key as =>
    unfold complete
    split
    · obtain ⟨table, sessions, agenda, heq⟩ := c.releaseAll_eq as
      rw [heq]
      exact ⟨rfl, Nat.le_refl _⟩
    · exact ⟨rfl, Nat.le_refl _⟩
  | removes key =>
    obtain ⟨table, sessions, agenda, heq⟩ := c.unregister_eq key
    rw [heq]
    exact ⟨rfl, Nat.le_refl _⟩
  | spawns audience floor =>
    obtain ⟨agenda, heq⟩ := c.spawn_eq audience floor
    rw [heq]
    exact ⟨rfl, Nat.le_refl _⟩
  | closes =>
    obtain ⟨table, sessions, agenda, heq⟩ := c.close_eq
    rw [heq]
    exact ⟨rfl, Nat.le_refl _⟩
  | tearsDown =>
    obtain ⟨table, sessions, heq⟩ := c.tearDown_eq
    rw [heq]
    exact ⟨rfl, Nat.le_refl _⟩

theorem Deed.length_le (h : Deed i new keys waits c c') :
    c.sessions.length ≤ c'.sessions.length := by
  rcases h.cases with heq | hsheds | ⟨audience, floor, -, heq⟩
  · exact Nat.le_of_eq (congrArg _ heq).symm
  · exact Nat.le_of_eq hsheds.length.symm
  · simp [heq]

theorem Deeds.length_le (h : Deeds i new keys waits c c') :
    c.sessions.length ≤ c'.sessions.length := by
  induction h with
  | refl => exact Nat.le_refl _
  | tail _ h ih => exact Nat.le_trans ih h.length_le

/-- A call without a key makes no session. -/
theorem Deeds.length_eq (h : Deeds i new (fun _ => False) waits c c') :
    c'.sessions.length = c.sessions.length := by
  induction h with
  | refl => rfl
  | tail _ h ih =>
    rcases h.cases with heq | hsheds | ⟨audience, floor, hfalse, -⟩
    · rw [heq, ih]
    · rw [hsheds.length, ih]
    · exact hfalse.elim

theorem Deeds.session (h : Deeds i new keys waits c c') {j : Nat} {s : Session}
    (hs : c.sessions[j]? = some s) :
    ∃ s', c'.sessions[j]? = some s' ∧ (s' = s ∨ s' = s.close) := by
  induction h with
  | refl => exact ⟨s, hs, Or.inl rfl⟩
  | tail _ h ih =>
    obtain ⟨s', hs', hcase⟩ := ih
    rcases h.session hs' with heq | heq
    · exact ⟨s', heq, hcase⟩
    · refine ⟨s'.close, heq, Or.inr ?_⟩
      rcases hcase with rfl | rfl <;> rfl

theorem registered?_reserve {key key' : ListenerKey} (free : c.registered? key = none) :
    (c.reserve key).registered? key' = if key = key' then some [] else c.registered? key' := by
  rw [registered?, Option.map_eq_none_iff] at free
  simp only [registered?, reserve, List.find?_append]
  split_ifs with hk
  · subst hk
    rw [free]
    simp
  · simp [hk]

theorem registered?_filter {key key' : ListenerKey} :
    ({ c with registrations := c.registrations.filter (·.1 ≠ key) } : Client).registered? key' =
      if key = key' then none else c.registered? key' := by
  simp only [registered?, List.find?_filter]
  split_ifs with hk
  · simp [hk]
  · congr 2
    funext r
    by_cases hr : r.1 = key'
    · simp [hr, Ne.symm hk]
    · simp [hr]

theorem registered?_complete {key key' : ListenerKey} {as : List Attachment} :
    (c.complete key as).registered? key' =
      (c.registered? key').map fun bs => if key' = key then bs ++ as else bs := by
  unfold complete
  split
  · next hnone =>
    obtain ⟨table, sessions, agenda, h⟩ := c.releaseAll_eq as
    rw [h]
    change c.registered? key' = _
    by_cases hk : key' = key
    · subst hk
      rw [hnone, Option.map_none]
    · simp [hk]
  · have hfind : ((c.registrations.map fun r => if r.1 = key then (r.1, r.2 ++ as) else r).find?
        (·.1 = key')) =
        (c.registrations.find? (·.1 = key')).map fun r =>
          if r.1 = key then (r.1, r.2 ++ as) else r := by
      rw [List.find?_map]
      congr 2
      funext r
      simp only [Function.comp_apply]
      split_ifs <;> rfl
    simp only [registered?, hfind]
    cases hr : c.registrations.find? (·.1 = key') with
    | none => rfl
    | some r =>
      have hkey : r.1 = key' := by simpa using List.find?_some hr
      subst hkey
      simp only [Option.map_some]
      split_ifs <;> rfl

theorem registered?_of_registrations {key : ListenerKey}
    (h : c'.registrations = c.registrations) : c'.registered? key = c.registered? key := by
  rw [registered?, h, registered?]

theorem Deed.registered? (h : Deed i new keys waits c c') {key : ListenerKey}
    (hkey : c'.registered? key ≠ none) : c.registered? key ≠ none ∨ new key := by
  have hnil : c'.registrations = [] → c.registered? key ≠ none ∨ new key := fun hnil => by
    rw [Client.registered?, hnil] at hkey
    exact absurd rfl hkey
  cases h with
  | notes _ registrations => exact Or.inl (registered?_of_registrations registrations ▸ hkey)
  | sets | ends | begins | modifies | opens => exact Or.inl hkey
  | reserves key' mine free =>
    rw [registered?_reserve free] at hkey
    split_ifs at hkey with hk
    · exact Or.inr (hk ▸ mine)
    · exact Or.inl hkey
  | completes key' as =>
    rw [registered?_complete] at hkey
    exact Or.inl fun hnone => hkey (by rw [hnone, Option.map_none])
  | removes key' =>
    obtain ⟨table, sessions, agenda, heq⟩ := c.unregister_eq key'
    rw [heq] at hkey
    change ({ c with registrations := c.registrations.filter (·.1 ≠ key') } :
      Client).registered? key ≠ none at hkey
    rw [registered?_filter] at hkey
    split_ifs at hkey
    · exact absurd rfl hkey
    · exact Or.inl hkey
  | spawns audience floor =>
    obtain ⟨agenda, heq⟩ := c.spawn_eq audience floor
    rw [heq] at hkey
    exact Or.inl hkey
  | closes =>
    obtain ⟨table, sessions, agenda, heq⟩ := c.close_eq
    exact hnil (by rw [heq])
  | tearsDown => exact hnil c.tearDown_registrations

theorem Deed.calls (h : Deed i new keys waits c c') : c'.calls = c.calls ∨
    (∃ call, c' = c.setCall i call ∧ (∀ k ∈ call.key?, keys k) ∧ ∀ w ∈ call.wait?, waits w) ∨
    c' = { c with calls := c.calls.filter (·.1 ≠ i) } := by
  cases h with
  | notes _ _ calls => exact Or.inl calls
  | sets call key wait => exact Or.inr (Or.inl ⟨call, rfl, key, wait⟩)
  | ends => exact Or.inr (Or.inr rfl)
  | reserves | begins | modifies | opens => exact Or.inl rfl
  | completes key as =>
    unfold complete
    split
    · obtain ⟨table, sessions, agenda, heq⟩ := c.releaseAll_eq as
      exact Or.inl (by rw [heq])
    · exact Or.inl rfl
  | removes key => exact Or.inl (c.sheds_unregister key).calls
  | spawns audience floor =>
    obtain ⟨agenda, heq⟩ := c.spawn_eq audience floor
    exact Or.inl (by rw [heq])
  | closes => exact Or.inl c.sheds_close.calls
  | tearsDown => exact Or.inl c.sheds_tearDown.calls

theorem Deed.call? (h : Deed i new keys waits c c') {k : Nat} (hk : k ≠ i) :
    c'.call? k = c.call? k := by
  rcases h.calls with heq | ⟨call, rfl, -⟩ | rfl
  · exact call?_of_calls_eq heq k
  · exact call?_setCall_ne hk c call
  · exact call?_filter_ne hk c

theorem Deeds.call? (h : Deeds i new keys waits c c') {k : Nat} (hk : k ≠ i) :
    c'.call? k = c.call? k := by
  induction h with
  | refl => rfl
  | tail _ h ih => exact (h.call? hk).trans ih

/-- A call adds the key and has the wait that it had, or those that it may. -/
theorem Deed.call_back (h : Deed i new keys waits c c') {call : Call}
    (hcall : c'.call? i = some call) :
    c.call? i = some call ∨ (∀ k ∈ call.key?, keys k) ∧ ∀ w ∈ call.wait?, waits w := by
  rcases h.calls with heq | ⟨call', rfl, hmay⟩ | rfl
  · exact Or.inl (call?_of_calls_eq heq i ▸ hcall)
  · rw [call?_setCall_self, Option.some.injEq] at hcall
    exact Or.inr (hcall ▸ hmay)
  · rw [call?_filter_self] at hcall
    cases hcall

theorem Deeds.call_back (h : Deeds i new keys waits c c') {call : Call}
    (hcall : c'.call? i = some call) :
    c.call? i = some call ∨ (∀ k ∈ call.key?, keys k) ∧ ∀ w ∈ call.wait?, waits w := by
  induction h with
  | refl => exact Or.inl hcall
  | tail _ h ih => exact (h.call_back hcall).elim ih Or.inr

/-- A deed leaves the waits as they are, makes one, or changes one that it may touch; a mailbox is
then at most replaced by one with a number of its own. -/
theorem Deed.waits_cases (h : Deed i new keys waits c c') :
    (c'.waits = c.waits ∧ c'.nextMailbox = c.nextMailbox) ∨
    (c'.nextMailbox = c.nextMailbox ∧ ∃ wait, wait.mailbox = none ∧ c'.waits = c.waits ++ [wait]) ∨
    ∃ w f, waits w ∧ c'.waits = c.waits.modify w f ∧
      (c'.nextMailbox = c.nextMailbox ∧ SameWait f ∨
        c'.nextMailbox = c.nextMailbox + 1 ∧ ∀ wait, (f wait).id = wait.id ∧
          (f wait).limit = wait.limit ∧ (f wait).mailbox = some (c.nextMailbox, [])) := by
  cases h with
  | notes _ _ _ same nextMailbox _ => exact Or.inl ⟨same, nextMailbox⟩
  | sets | ends | reserves => exact Or.inl ⟨rfl, rfl⟩
  | completes key as =>
    unfold complete
    split
    · obtain ⟨table, sessions, agenda, heq⟩ := c.releaseAll_eq as
      exact Or.inl (by rw [heq]; exact ⟨rfl, rfl⟩)
    · exact Or.inl ⟨rfl, rfl⟩
  | removes key =>
    obtain ⟨table, sessions, agenda, heq⟩ := c.unregister_eq key
    exact Or.inl (by rw [heq]; exact ⟨rfl, rfl⟩)
  | spawns audience floor =>
    obtain ⟨agenda, heq⟩ := c.spawn_eq audience floor
    exact Or.inl (by rw [heq]; exact ⟨rfl, rfl⟩)
  | closes =>
    obtain ⟨table, sessions, agenda, heq⟩ := c.close_eq
    exact Or.inl (by rw [heq]; exact ⟨rfl, rfl⟩)
  | tearsDown =>
    obtain ⟨table, sessions, heq⟩ := c.tearDown_eq
    exact Or.inl (by rw [heq]; exact ⟨rfl, rfl⟩)
  | begins id quorum limit => exact Or.inr (Or.inl ⟨rfl, _, rfl, rfl⟩)
  | modifies w mine f same => exact Or.inr (Or.inr ⟨w, f, mine, rfl, Or.inl ⟨rfl, same⟩⟩)
  | opens w mine f opened => exact Or.inr (Or.inr ⟨w, f, mine, rfl, Or.inr ⟨rfl, opened⟩⟩)

theorem Deed.wait (h : Deed i new keys waits c c') {w : Nat} (hw : ¬ waits w)
    (hlt : w < c.waits.length) : c'.waits[w]? = c.waits[w]? := by
  rcases h.waits_cases with ⟨heq, -⟩ | ⟨-, wait, -, heq⟩ | ⟨v, f, mine, heq, -⟩
  · rw [heq]
  · rw [heq, List.getElem?_append_left hlt]
  · have hne : v ≠ w := fun h => hw (h ▸ mine)
    rw [heq, List.getElem?_modify_ne _ _ hne]

theorem Deed.waits_length (h : Deed i new keys waits c c') : c.waits.length ≤ c'.waits.length := by
  rcases h.waits_cases with ⟨heq, -⟩ | ⟨-, wait, -, heq⟩ | ⟨v, f, -, heq, -⟩ <;> simp [heq]

theorem Deed.nextMailbox (h : Deed i new keys waits c c') : c.nextMailbox ≤ c'.nextMailbox := by
  rcases h.waits_cases with ⟨-, heq⟩ | ⟨heq, -⟩ | ⟨v, f, -, -, ⟨heq, -⟩ | ⟨heq, -⟩⟩ <;> omega

/-- The number of the mailbox of a wait. -/
def mailboxOf? (c : Client) (w : Nat) : Option Nat :=
  ((c.waits[w]?).bind (·.mailbox)).map (·.1)

/-- Each mailbox is that of one wait, and its number was given. -/
structure MailboxesApart (c : Client) : Prop where
  given : ∀ {w n}, c.mailboxOf? w = some n → n < c.nextMailbox
  apart : ∀ {w w' n}, c.mailboxOf? w = some n → c.mailboxOf? w' = some n → w = w'

/-- Mailboxes stay apart when every wait has the mailbox that it had, but for one wait that may have
the next. -/
theorem MailboxesApart.of_waits (h : c.MailboxesApart) (v : Nat)
    (hnext : c.nextMailbox ≤ c'.nextMailbox)
    (hback : ∀ {w n}, c'.mailboxOf? w = some n → c.mailboxOf? w = some n ∨
      w = v ∧ n = c.nextMailbox ∧ n < c'.nextMailbox) : c'.MailboxesApart := by
  refine ⟨fun hw => ?_, fun hw hw' => ?_⟩
  · rcases hback hw with hw | ⟨-, -, hlt⟩
    · exact Nat.lt_of_lt_of_le (h.given hw) hnext
    · exact hlt
  · rcases hback hw with hw | ⟨hv, hn, -⟩ <;> rcases hback hw' with hw' | ⟨hv', hn', -⟩
    · exact h.apart hw hw'
    · exact absurd (h.given hw) (by omega)
    · exact absurd (h.given hw') (by omega)
    · exact hv.trans hv'.symm

theorem Deed.mailboxesApart (h : Deed i new keys waits c c') (hc : c.MailboxesApart) :
    c'.MailboxesApart := by
  have hnext := h.nextMailbox
  rcases h.waits_cases with ⟨heq, -⟩ | ⟨-, wait, hnone, heq⟩ | ⟨v, f, -, heq, hcase⟩
  · exact hc.of_waits 0 hnext fun hw => Or.inl (by rwa [mailboxOf?, heq] at hw)
  · refine hc.of_waits 0 hnext fun {w n} hw => Or.inl ?_
    rw [mailboxOf?, heq, List.getElem?_append] at hw
    split_ifs at hw with hlt
    · exact hw
    · rcases hd : w - c.waits.length with _ | d <;> simp [hd, hnone] at hw
  · refine hc.of_waits v hnext fun {w n} hw => ?_
    rw [mailboxOf?, heq, List.getElem?_modify] at hw
    simp only [Option.map_eq_map, Option.map_eq_some_iff, Option.bind_eq_some_iff] at hw
    obtain ⟨m, ⟨wait', ⟨wait, hwait, rfl⟩, hm⟩, rfl⟩ := hw
    have hback : ∀ m' ∈ wait.mailbox, c.mailboxOf? w = some m'.1 := fun m' hm' => by
      rw [mailboxOf?, hwait, Option.bind_some, hm', Option.map_some]
    split_ifs at hm with hvw
    · rcases hcase with ⟨-, hsame⟩ | ⟨hsucc, hnew⟩
      · obtain ⟨m', hm', hnum⟩ := (hsame wait).2.2 m hm
        exact Or.inl (hnum ▸ hback m' hm')
      · obtain rfl := Option.some.inj ((hnew wait).2.2.symm.trans hm)
        exact Or.inr ⟨hvw.symm, rfl, by omega⟩
    · exact Or.inl (hback m hm)

end Keeps

end Client

end LedgerClient
