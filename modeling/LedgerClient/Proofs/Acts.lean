import LedgerClient.Client.Moves
import LedgerClient.Proofs.Feeds
import Mathlib.Logic.Relation

/-!
# What calls do to a client

A call goes on in moves, and a move is a chain of few acts: it notes something, says what it waits
for or ends, registers and removes keys, makes sessions and attaches them, and gives the client up.
`Client.acts_apply` says so of every move but those of feeds and sessions; whatever the acts keep
is then kept by all of these moves. `Client.call_cases` says what a move of a call can be.

An act is done for one call, and it handles only sessions that this call may handle: its own ones
that are still pending, those that it has just made, and those that are registered under a key.
-/

namespace LedgerClient

/-- The sessions that a call has attached and not yet put under a key. -/
def Call.sessions : Call → List Nat
  | .linking _ links _ => links.map (·.attachment.session)
  | _ => []

/-- A request that a call sends on its way. -/
def Request.IsOf (i : Nat) : Request → Prop
  | .openStream .. | .rest .. | .ask .. => False
  | .readCheckpoint k _ | .propose k _ _ | .query k _ _ | .order k _ _ | .wakeAt k _
  | .finished k _ => k = i

namespace Client

/-- Whether a session is registered under some key. -/
def Registered (c : Client) (j : Nat) : Prop :=
  ∃ r ∈ c.registrations, ∃ a ∈ r.2, a.session = j

/-- Every feed's sessions are among those of the client. -/
def Bounded (c : Client) : Prop :=
  ∀ k f, c.table.feed? k = some f → ∀ j ∈ f.sessions, j < c.sessions.length

/-- The sessions under keys and those of calls are among those of the client. -/
structure Known (c : Client) : Prop where
  registered : ∀ j, c.Registered j → j < c.sessions.length
  pending : ∀ k call, c.call? k = some call → ∀ j ∈ call.sessions, j < c.sessions.length

/-- One act for the call `i`, which may handle the sessions `own`. -/
inductive Act (i : Nat) (own : Nat → Prop) (c : Client) : Client → Prop
  /-- Feeds, sessions, registrations and calls stay as they are. -/
  | notes {c' : Client} (table : c'.table = c.table) (sessions : c'.sessions = c.sessions)
      (registrations : c'.registrations = c.registrations) (calls : c'.calls = c.calls)
      (nextCall : c.nextCall ≤ c'.nextCall) (rs : List Request)
      (outbox : c'.outbox = c.outbox ++ rs)
      (of : ∀ r ∈ rs, r.IsOf i) : Act i own c c'
  | waits (call : Call) (owned : ∀ j ∈ call.sessions, own j ∧ j < c.sessions.length) :
      Act i own c (c.setCall i call)
  | ends : Act i own c { c with calls := c.calls.filter (·.1 ≠ i) }
  | reserves (key : ListenerKey) (free : c.registered? key = none) : Act i own c (c.reserve key)
  | completes (key : ListenerKey) (as : List Attachment)
      (owned : ∀ a ∈ as, own a.session ∧ a.session < c.sessions.length) :
      Act i own c (c.complete key as)
  | removes (key : ListenerKey) : Act i own c (c.unregister key)
  | spawns (audience : Audience) (floor : Option Nat) (owned : own c.sessions.length) :
      Act i own c (c.spawn audience floor).1
  /-- A new session is attached that is on no feed yet. -/
  | attaches (peer : Peer) (kind : BlockKind) (start : Option Nat) (session : Nat)
      (owned : own session) (fresh : ∃ a, c.sessions[session]? = some (.new a start))
      (apart : ∀ k f, c.table.feed? k = some f → session ∉ f.sessions) :
      Act i own c (c.attachTo peer kind start session).1
  | closes : Act i own c c.close
  | tearsDown : Act i own c c.tearDown

/-- A chain of acts for the call `i`. -/
abbrev Acts (i : Nat) (own : Nat → Prop) : Client → Client → Prop :=
  Relation.ReflTransGen (Act i own)

section Calls

variable {i : Nat} {own : Nat → Prop} (c : Client)

/-! ## Acts that only note something -/

theorem act_send {r : Request} (h : r.IsOf i) : Act i own c (c.send r) :=
  .notes rfl rfl rfl rfl (Nat.le_refl _) [r] rfl (by simpa using h)

theorem act_modifyWait (w : Nat) (f : Wait → Wait) : Act i own c (c.modifyWait w f) :=
  .notes rfl rfl rfl rfl (Nat.le_refl _) [] (by simp [modifyWait]) (by simp)

theorem act_newWait (id : TransactionId) (quorum : Option Quorum) (limit : Duration) :
    Act i own c (c.newWait id quorum limit).1 :=
  .notes rfl rfl rfl rfl (Nat.le_refl _) [] (by simp [newWait]) (by simp)

theorem act_newCall : Act i own c c.newCall.1 :=
  .notes rfl rfl rfl rfl (Nat.le_succ _) [] (by simp [newCall]) (by simp)

/-! ## Ends of calls -/

theorem acts_tearDownIfUnused : Acts i own c c.tearDownIfUnused := by
  unfold tearDownIfUnused
  split_ifs
  · exact .single .tearsDown
  · exact .refl

theorem acts_finish (r : CallResult) : Acts i own c (c.finish i r) := by
  unfold finish
  have hsend (c : Client) : Act i own c (c.send (.finished i r)) := act_send c rfl
  exact .trans (.tail (.single .ends) (hsend _)) (acts_tearDownIfUnused _)

theorem acts_cancelWait (w : Nat) : Acts i own c (c.cancelWait w) := by
  unfold cancelWait
  split
  · exact .refl
  · refine .tail ?_ (act_modifyWait _ _ _)
    split
    · exact .single (.removes _)
    · exact .refl

theorem acts_dropWait (w : Nat) : Acts i own c (c.dropWait w) :=
  .tail (acts_cancelWait c w) (act_modifyWait _ _ _)

theorem acts_drop_finish (w : Nat) (r : CallResult) : Acts i own c ((c.dropWait w).finish i r) :=
  (acts_dropWait c w).trans (acts_finish _ r)

/-! ## Ordering and confirming -/

theorem acts_lookAt (w room : Nat) (q : Quorum) (t : Tally) (payload : Option Bytes) :
    Acts i own c (c.lookAt i w room q t payload) := by
  unfold lookAt
  split
  · exact .refl
  · dsimp only
    refine .head (act_modifyWait c w (·.drop room)) ?_
    split
    · exact .single (.waits _ (by simp [Call.sessions]))
    · exact acts_drop_finish _ w _

theorem acts_confirm (w : Nat) (payload : Option Bytes) : Acts i own c (c.confirm i w payload) := by
  unfold confirm
  split
  · exact .refl
  · split
    · exact .tail (.single (.waits _ (by simp [Call.sessions]))) (act_send _ rfl)
    · exact acts_drop_finish c w _

theorem acts_orderStep (r : OrderRequest) (payload : Bytes) (w : Nat) (s : OrderStep) :
    Acts i own c (c.orderStep i r payload w s) := by
  rcases s with route | (e | reply)
  · exact .tail (.single (.waits _ (by simp [Call.sessions]))) (act_send _ rfl)
  · exact acts_drop_finish c w _
  · simp only [orderStep]
    split_ifs
    · exact acts_confirm c w _
    · exact acts_drop_finish c w _

theorem acts_proceed (next : AfterLink) : Acts i own c (c.proceed i next) := by
  cases next with
  | added => exact acts_finish c _
  | listening => exact acts_finish c _
  | order r payload w => exact acts_orderStep c r payload w _

/-! ## Attaching -/

theorem acts_followLinks (key : ListenerKey) (links : List Link) (next : AfterLink)
    (owned : ∀ l ∈ links, own l.attachment.session ∧ l.attachment.session < c.sessions.length) :
    Acts i own c (c.followLinks i key links next) := by
  have hlinks : ∀ l ∈ c.progress links,
      own l.attachment.session ∧ l.attachment.session < c.sessions.length := by
    intro l hl
    obtain ⟨l', hl', rfl⟩ := List.mem_map.1 hl
    exact owned l' hl'
  unfold followLinks
  dsimp only
  split_ifs
  · refine .trans (.single (.completes key _ ?_)) (acts_proceed _ next)
    intro a ha
    obtain ⟨l, hl, rfl⟩ := List.mem_map.1 ha
    exact hlinks l hl
  · refine .single (.waits _ fun j hj => ?_)
    obtain ⟨l, hl, rfl⟩ := List.mem_map.1 hj
    exact hlinks l hl

theorem wake_eq (a : Actor) : ∃ agenda, c.wake a = { c with agenda } := by
  unfold wake
  split_ifs
  · exact ⟨c.agenda, rfl⟩
  · exact ⟨_, rfl⟩

theorem attachTo_eq (peer : Peer) (kind : BlockKind) (start : Option Nat) (session : Nat) :
    let r := c.table.join c.options.reconnect peer kind start session
    ∃ agenda, c.attachTo peer kind start session =
      ({ c with table := r.1, agenda }, ⟨r.2, session⟩) := by
  unfold attachTo FeedTable.join
  cases start <;> dsimp only <;> split
  · next f _ =>
    split_ifs
    · obtain ⟨agenda, h⟩ := wake_eq { c with table := _ } (.feed _)
      exact ⟨agenda, by rw [h]⟩
    · exact ⟨c.agenda, rfl⟩
  · exact ⟨c.agenda, rfl⟩
  · split_ifs
    · obtain ⟨agenda, h⟩ := wake_eq { c with table := _ } (.feed _)
      exact ⟨agenda, by rw [h]⟩
    · exact ⟨c.agenda, rfl⟩
  · exact ⟨c.agenda, rfl⟩

theorem spawn_eq (audience : Audience) (floor : Option Nat) :
    ∃ agenda, c.spawn audience floor =
      ({ c with sessions := c.sessions ++ [.new audience floor], agenda }, c.sessions.length) := by
  unfold spawn
  dsimp only
  obtain ⟨agenda, h⟩ := wake_eq { c with sessions := c.sessions ++ [.new audience floor] }
    (.session c.sessions.length)
  exact ⟨agenda, by rw [h]⟩

@[simp] theorem spawn_sessions (audience : Audience) (floor : Option Nat) :
    (c.spawn audience floor).1.sessions = c.sessions ++ [.new audience floor] := by
  obtain ⟨agenda, h⟩ := c.spawn_eq audience floor
  rw [h]

@[simp] theorem spawn_table (audience : Audience) (floor : Option Nat) :
    (c.spawn audience floor).1.table = c.table := by
  obtain ⟨agenda, h⟩ := c.spawn_eq audience floor
  rw [h]

@[simp] theorem attachTo_sessions (peer : Peer) (kind : BlockKind) (start : Option Nat)
    (session : Nat) : (c.attachTo peer kind start session).1.sessions = c.sessions := by
  obtain ⟨agenda, h⟩ := c.attachTo_eq peer kind start session
  rw [h]

theorem attachTo_table (peer : Peer) (kind : BlockKind) (start : Option Nat) (session : Nat) :
    (c.attachTo peer kind start session).1.table =
      (c.table.join c.options.reconnect peer kind start session).1 := by
  obtain ⟨agenda, h⟩ := c.attachTo_eq peer kind start session
  rw [h]

theorem attachTo_session (peer : Peer) (kind : BlockKind) (start : Option Nat) (session : Nat) :
    (c.attachTo peer kind start session).2.session = session := by
  obtain ⟨agenda, h⟩ := c.attachTo_eq peer kind start session
  rw [h]

theorem acts_attachListener (key : ListenerKey) (o : ListenerOptions) (start : Option Nat)
    (bounded : c.Bounded) (owned : ∀ j, c.sessions.length ≤ j → own j) :
    Acts i own c (c.attachListener i key o start) := by
  unfold attachListener
  split
  · exact .head (.removes key) (acts_finish _ _)
  · next peer _ =>
    have hlength := owned _ (Nat.le_refl _)
    let c₁ := (c.spawn (key.audience o) start).1
    have hspawn : Act i own c c₁ := .spawns _ _ hlength
    have hfresh : c₁.sessions[c.sessions.length]? = some (.new (key.audience o) start) := by
      simp [c₁, spawn_sessions]
    have hattach : Act i own c₁ (c₁.attachTo peer o.kind start c.sessions.length).1 := by
      refine .attaches _ _ _ _ hlength ⟨_, hfresh⟩ fun k f hf hmem => ?_
      rw [spawn_table] at hf
      exact Nat.lt_irrefl _ (bounded k f hf _ hmem)
    refine .head hspawn (.head hattach (acts_followLinks _ _ _ _ fun l hl => ?_))
    obtain rfl := List.mem_singleton.1 hl
    have hsession := attachTo_session c₁ peer o.kind start c.sessions.length
    have hmade : c.sessions.length <
        (c₁.attachTo peer o.kind start c.sessions.length).1.sessions.length := by
      rw [attachTo_sessions]
      exact (List.getElem?_eq_some_iff.1 hfresh).1
    exact hsession.symm ▸ ⟨hlength, hmade⟩

end Calls

/-! ## Attaching a commit listener -/

/-- Makes a session of a commit listener for each peer. -/
def spawnEach (c : Client) (l : ListenerId) (id : String) : List Peer → Client
  | [] => c
  | p :: ps => (c.spawn (.commit l p.name id) none).1.spawnEach l id ps

/-- Attaches sessions to the shared feeds of their peers, one after the other. -/
def attachEach (c : Client) : List (Peer × Nat) → Client × List Attachment
  | [] => (c, [])
  | (p, s) :: rest =>
    let (c, a) := c.attachTo p .filtered none s
    let (c, as) := c.attachEach rest
    (c, a :: as)

theorem foldl_spawn (l : ListenerId) (id : String) (peers : List Peer) (c : Client)
    (sessions : List (Peer × Nat)) :
    peers.foldl (fun (c, sessions) p =>
      let (c, s) := c.spawn (.commit l p.name id) none
      (c, sessions ++ [(p, s)])) (c, sessions) =
      (c.spawnEach l id peers, sessions ++ peers.zipIdx c.sessions.length) := by
  induction peers generalizing c sessions with
  | nil => simp [spawnEach]
  | cons p ps ih =>
    rw [List.foldl_cons, ih]
    have hlength : (c.spawn (.commit l p.name id) none).1.sessions.length =
        c.sessions.length + 1 := by simp
    obtain ⟨agenda, h⟩ := c.spawn_eq (.commit l p.name id) none
    rw [hlength, h]
    simp [spawnEach, h]

theorem foldl_attach (sessions : List (Peer × Nat)) (c : Client) (links : List Link) :
    sessions.foldl (fun (c, links) (p, s) =>
      let (c, attachment) := c.attachTo p .filtered none s
      (c, links ++ [⟨attachment, false⟩])) (c, links) =
      ((c.attachEach sessions).1, links ++ (c.attachEach sessions).2.map (⟨·, false⟩)) := by
  induction sessions generalizing c links with
  | nil => simp [attachEach]
  | cons ps rest ih =>
    rw [List.foldl_cons, ih]
    simp [attachEach]

theorem linkCommit_eq (c : Client) (i : Nat) (l : ListenerId) (peers : List Peer) (id : String)
    (next : AfterLink) (free : c.registered? (.commit l) = none) :
    c.linkCommit i l peers id next =
      let r := ((c.reserve (.commit l)).spawnEach l id peers).attachEach
        (peers.zipIdx c.sessions.length)
      r.1.followLinks i (.commit l) (r.2.map (⟨·, false⟩)) next := by
  unfold linkCommit
  simp only [free, foldl_spawn, foldl_attach, List.nil_append]
  rfl

theorem attachListener_cases (c : Client) (i : Nat) (key : ListenerKey) (o : ListenerOptions)
    (start : Option Nat) :
    (∃ r, c.attachListener i key o start = (c.unregister key).finish i r) ∨
    ∃ table agenda a, a.session = c.sessions.length ∧ c.attachListener i key o start =
      ({ c with table, agenda, sessions := c.sessions ++ [.new (key.audience o) start] } :
        Client).followLinks i key [⟨a, false⟩] .added := by
  unfold attachListener
  split
  · exact Or.inl ⟨_, rfl⟩
  · next peer _ =>
    obtain ⟨agenda, hspawn⟩ := c.spawn_eq (key.audience o) start
    rw [hspawn]
    dsimp only
    obtain ⟨agenda', hattach⟩ := attachTo_eq { c with
      sessions := c.sessions ++ [.new (key.audience o) start], agenda } peer o.kind start
      c.sessions.length
    rw [hattach]
    exact Or.inr ⟨_, agenda', _, rfl, rfl⟩

@[simp] theorem spawnEach_table (c : Client) (l : ListenerId) (id : String) (peers : List Peer) :
    (c.spawnEach l id peers).table = c.table := by
  induction peers generalizing c with
  | nil => rfl
  | cons p ps ih =>
    rw [spawnEach, ih]
    exact c.spawn_table _ _

theorem spawnEach_sessions (c : Client) (l : ListenerId) (id : String) (peers : List Peer) :
    (c.spawnEach l id peers).sessions =
      c.sessions ++ peers.map fun p => .new (.commit l p.name id) none := by
  induction peers generalizing c with
  | nil => simp [spawnEach]
  | cons p ps ih => rw [spawnEach, ih, spawn_sessions, List.append_assoc, List.map_cons,
      List.singleton_append]

@[simp] theorem attachEach_sessions (c : Client) (ss : List (Peer × Nat)) :
    (c.attachEach ss).1.sessions = c.sessions := by
  induction ss generalizing c with
  | nil => rfl
  | cons x rest ih =>
    rw [attachEach, ih]
    exact attachTo_sessions ..

theorem attachEach_session (c : Client) (ss : List (Peer × Nat)) :
    (c.attachEach ss).2.map (·.session) = ss.map Prod.snd := by
  induction ss generalizing c with
  | nil => rfl
  | cons x rest ih => simp only [attachEach, List.map_cons, ih, attachTo_session]

/-- New sessions that are on no feed yet, each different from the others. -/
def Unattached (c : Client) (ss : List (Peer × Nat)) : Prop :=
  (ss.map Prod.snd).Nodup ∧ ∀ x ∈ ss, (∃ a, c.sessions[x.2]? = some (.new a none)) ∧
    ∀ k f, c.table.feed? k = some f → x.2 ∉ f.sessions

theorem Unattached.attachTo {c : Client} {x : Peer × Nat} {rest : List (Peer × Nat)}
    (h : c.Unattached (x :: rest)) :
    (c.attachTo x.1 .filtered none x.2).1.Unattached rest := by
  obtain ⟨hnodup, hfresh⟩ := h
  rw [List.map_cons, List.nodup_cons] at hnodup
  refine ⟨hnodup.2, fun y hy => ⟨?_, fun k f hf hmem => ?_⟩⟩
  · rw [attachTo_sessions]
    exact (hfresh y (List.mem_cons_of_mem _ hy)).1
  · rw [attachTo_table] at hf
    rcases FeedTable.mem_sessions_join _ _ _ _ _ hf hmem with heq | ⟨g, hg, hmem⟩
    · exact hnodup.1 (heq ▸ List.mem_map_of_mem hy)
    · exact (hfresh y (List.mem_cons_of_mem _ hy)).2 k g hg hmem

section Commit

variable {i : Nat} {own : Nat → Prop} (c : Client)

theorem acts_spawnEach (l : ListenerId) (id : String) (peers : List Peer)
    (owned : ∀ j, c.sessions.length ≤ j → own j) : Acts i own c (c.spawnEach l id peers) := by
  induction peers generalizing c with
  | nil => exact .refl
  | cons p ps ih =>
    refine .head (.spawns _ none (owned _ (Nat.le_refl _))) (ih _ fun j hj => owned j ?_)
    rw [spawn_sessions, List.length_append] at hj
    omega

theorem acts_attachEach (ss : List (Peer × Nat)) (owned : ∀ x ∈ ss, own x.2)
    (h : c.Unattached ss) : Acts i own c (c.attachEach ss).1 := by
  induction ss generalizing c with
  | nil => exact .refl
  | cons x rest ih =>
    obtain ⟨hfresh, hapart⟩ := h.2 x List.mem_cons_self
    exact .head (.attaches x.1 .filtered none x.2 (owned x List.mem_cons_self) hfresh hapart)
      (ih _ (fun y hy => owned y (List.mem_cons_of_mem _ hy)) h.attachTo)

/-- The sessions that were just made for the peers are new and unattached. -/
theorem unattached_spawnEach (l : ListenerId) (id : String) (peers : List Peer)
    (bounded : c.Bounded) :
    (c.spawnEach l id peers).Unattached (peers.zipIdx c.sessions.length) := by
  refine ⟨?_, fun x hx => ?_⟩
  · rw [List.zipIdx_map_snd]
    exact List.nodup_range'
  · obtain ⟨hle, hlt, hx1⟩ := List.mem_zipIdx hx
    refine ⟨⟨.commit l x.1.name id, ?_⟩, fun k f hf hmem => ?_⟩
    · rw [spawnEach_sessions, List.getElem?_append_right hle, List.getElem?_map,
        List.getElem?_eq_getElem (by omega), ← hx1]
      rfl
    · rw [spawnEach_table] at hf
      have := bounded k f hf _ hmem
      omega

theorem acts_linkCommit (l : ListenerId) (peers : List Peer) (id : String) (next : AfterLink)
    (bounded : c.Bounded) (owned : ∀ j, c.sessions.length ≤ j → own j) :
    Acts i own c (c.linkCommit i l peers id next) := by
  cases free : c.registered? (.commit l) with
  | some _ =>
    unfold linkCommit
    rw [free]
    exact acts_proceed c next
  | none =>
    rw [linkCommit_eq c i l peers id next free]
    have howned : ∀ x ∈ peers.zipIdx c.sessions.length, own x.2 := fun x hx =>
      owned _ (List.mem_zipIdx hx).1
    refine .head (.reserves _ free) (.trans (acts_spawnEach _ l id peers owned)
      (.trans (acts_attachEach _ _ howned (unattached_spawnEach _ l id peers bounded))
        (acts_followLinks _ _ _ _ fun k hk => ?_)))
    obtain ⟨a, ha, rfl⟩ := List.mem_map.1 hk
    have hmem := List.mem_map_of_mem (f := (·.session)) ha
    rw [attachEach_session] at hmem
    obtain ⟨x, hx, heq⟩ := List.mem_map.1 hmem
    have hmade : x.2 < ((c.reserve (.commit l)).spawnEach l id peers).sessions.length := by
      rw [spawnEach_sessions, List.length_append, List.length_map]
      exact (List.mem_zipIdx hx).2.1
    rw [attachEach_sessions]
    exact heq ▸ ⟨howned x hx, hmade⟩

theorem acts_openMailbox (w : Nat) (next : AfterLink) (bounded : c.Bounded)
    (owned : ∀ j, c.sessions.length ≤ j → own j) : Acts i own c (c.openMailbox i w next) := by
  unfold openMailbox
  split
  · exact .refl
  · next wait _ =>
    split
    · exact acts_proceed c next
    · split_ifs
      · exact .head (act_modifyWait c w fun wait => { wait with quorum := none }) (acts_proceed _ _)
      · dsimp only
        let c₁ : Client := { c with nextMailbox := c.nextMailbox + 1 }
        let f (wait : Wait) : Wait :=
          { wait with
            deadline := some (c.clock + wait.limit.ceilMillis), listener := some c.nextMailbox
            mailbox := some (c.nextMailbox, []) }
        have hnote : Act i own c c₁ :=
          .notes rfl rfl rfl rfl (Nat.le_refl _) [] (by simp [c₁]) (by simp)
        exact .head hnote (.head (act_modifyWait c₁ w _) (acts_linkCommit _ _ _ _ _ bounded owned))

/-! ## Moves -/

theorem acts_addListener (s : Subject) (o : ListenerOptions) (bounded : c.Bounded)
    (owned : ∀ j, c.sessions.length ≤ j → own j) :
    Acts c.nextCall own c.newCall.1 (c.addListener s o) := by
  unfold addListener
  dsimp only
  split
  · exact acts_finish c.newCall.1 _
  · next free =>
    refine .head (.reserves s.key free) ?_
    split
    · exact .tail (.single (.waits _ (by simp [Call.sessions]))) (act_send _ rfl)
    · exact acts_attachListener _ _ _ _ bounded owned

theorem acts_submit (inv : Invocation) : Acts c.nextCall own c.newCall.1 (c.submit inv) := by
  unfold submit
  dsimp only
  split
  · exact acts_finish c.newCall.1 _
  · split
    · exact acts_finish c.newCall.1 _
    · exact .tail (.single (.waits _ (by simp [Call.sessions]))) (act_send _ rfl)

theorem acts_inquire (p : Proposal) (s : Chooser × InquiryStep) :
    Acts i own c (c.inquire i p s) := by
  obtain ⟨chooser, inquiry | r⟩ := s
  all_goals
    have hnote : Act i own c { c with chooser } :=
      .notes rfl rfl rfl rfl (Nat.le_refl _) [] (by simp) (by simp)
  · exact .tail (.head hnote (.single (.waits _ (by simp [Call.sessions])))) (act_send _ rfl)
  · exact .head hnote (acts_finish _ _)

theorem acts_evaluate (inv : Invocation) : Acts c.nextCall own c.newCall.1 (c.evaluate inv) := by
  unfold evaluate
  dsimp only
  split
  · exact acts_finish c.newCall.1 _
  · exact acts_inquire c.newCall.1 _ _

theorem acts_abandon : Acts i own c (c.abandon i) := by
  unfold abandon
  split
  · exact .refl
  · dsimp only
    split
    all_goals refine .trans ?_ (.head .ends (acts_tearDownIfUnused _))
    · exact acts_dropWait c _
    · exact acts_dropWait c _
    · exact acts_dropWait c _
    · exact .refl

end Commit

end Client

/-- The call that a move goes on with. -/
def Move.call? : Move → Option Nat
  | .abandon i | .checkpointRead i _ | .endorsed i _ | .ordered i _ | .inquired i _
  | .resume i _ => some i
  | _ => none

/-- Whether a call waits for what a move brings. Outcomes need room. -/
def Call.fits : Call → Move → Bool
  | .readingCheckpoint .., .checkpointRead .. | .endorsing .., .endorsed ..
  | .ordering .., .ordered .. | .inquiring .., .inquired .. | .linking .., .resume ..
  | _, .abandon _ => true
  | .confirming .., .resume _ room => room ≠ 0
  | _, _ => false

/-- The feed that a move is one of. -/
def Move.feed? : Move → Option Nat
  | .requestStream i | .streamOpened i | .streamRefused i _ | .blockArrived i _ | .streamBroke i _
  | .streamEnded i => some i
  | _ => none

/-- The session that a move is one of. -/
def Move.session? : Move → Option Nat
  | .takeNext j | .answer j _ => some j
  | _ => none

/-- Whether a move is a new call. -/
def Move.isCall : Move → Bool
  | .submit _ | .evaluate _ | .addListener .. | .addCommitListener .. | .listen _
  | .awaitConfirmation _ => true
  | _ => false

namespace Client

/-- The call that acts in a move; a new call takes the next number. -/
def actor (c : Client) (m : Move) : Nat := m.call?.getD c.nextCall

theorem actor_of_call {c : Client} {m : Move} {i : Nat} (hm : m.call? = some i) :
    c.actor m = i := by
  rw [actor, hm, Option.getD_some]

theorem actor_of_fresh {c : Client} {m : Move} (hm : m.call? = none) : c.actor m = c.nextCall := by
  rw [actor, hm, Option.getD_none]

/-- The sessions that a call may handle in a move: those that it has pending and new ones. -/
def Owns (c : Client) (i j : Nat) : Prop :=
  c.sessions.length ≤ j ∨ ∃ call, c.call? i = some call ∧ j ∈ call.sessions

/-! ## How a call goes on -/

/-- A call takes what a move brings, as it waited for it, and goes on. -/
inductive Goes (c : Client) (i : Nat) : Call → Move → Client → Prop
  | attaches (key : ListenerKey) (o : ListenerOptions) (position : Option Nat) :
    Goes c i (.readingCheckpoint key o) (.checkpointRead i (.ok position))
      (c.attachListener i key o (position.or o.startBlock))
  | unread (key : ListenerKey) (o : ListenerOptions) (e : CheckpointError) :
    Goes c i (.readingCheckpoint key o) (.checkpointRead i (.error e))
      ((c.unregister key).finish i (.notAdded (.checkpoint e)))
  | follows (key : ListenerKey) (links : List Link) (next : AfterLink)
    {room : Nat} : Goes c i (.linking key links next) (.resume i room)
      (c.followLinks i key links next)
  | unreached (p : Proposal) (quorum : Option Quorum) (e : TransportError) :
    Goes c i (.endorsing p quorum) (.endorsed i (.error e))
      (c.finish i (.answered (.error (.transport e))))
  | refused (p : Proposal) (quorum : Option Quorum) {answers : List Answer}
    {refusals : List PeerRefusal} (h : Verdict.ofAnswers answers = .error refusals) :
    Goes c i (.endorsing p quorum) (.endorsed i (.ok answers))
      (c.finish i (.answered (.error (.notEndorsed refusals))))
  | endorsed (p : Proposal) (quorum : Option Quorum) {answers : List Answer} {verdict : Verdict}
    (h : Verdict.ofAnswers answers = .ok verdict) :
    Goes c i (.endorsing p quorum) (.endorsed i (.ok answers))
      ((c.newWait p.id (quorum.or c.defaultQuorum) c.options.commitTimeout).1.openMailbox i
        c.waits.length (.order ⟨p, verdict.valid⟩ verdict.payload c.waits.length))
  | ordered (request : OrderRequest) (payload : Bytes) (w : Nat) (route : OrderRoute)
    (r : Except TransportError OrderReply) :
    Goes c i (.ordering request payload w route) (.ordered i r)
      (c.orderStep i request payload w (route.receive r))
  | looks (w : Nat) (q : Quorum) (t : Tally) (payload : Option Bytes) {room : Nat}
    (h : room ≠ 0) : Goes c i (.confirming w q t payload) (.resume i room)
      (c.lookAt i w room q t payload)
  | inquired (p : Proposal) (inquiry : Inquiry) (r : Except TransportError Reply) :
    Goes c i (.inquiring p inquiry) (.inquired i r)
      (c.inquire i p (inquiry.receive c.chooser r))

/-- A move of a call does not fit what the call waits for and changes nothing, gives the call up, or
brings what it waits for. -/
theorem call_cases (c : Client) {i : Nat} {m : Move} (hm : m.call? = some i) :
    (c.apply m = c ∧ ∀ call, c.call? i = some call → call.fits m = false) ∨
      (m = .abandon i ∧ ∃ call, c.call? i = some call) ∨
      ∃ call c', c.call? i = some call ∧ c.apply m = c' ∧ c.Goes i call m c' := by
  cases hcall : c.call? i with
  | none =>
    refine Or.inl ⟨?_, by simp⟩
    cases m <;> simp only [Move.call?, reduceCtorEq, Option.some.injEq] at hm <;> subst hm <;>
      simp only [apply, abandon, checkpointRead, endorsed, ordered, inquired, resume, hcall]
  | some call =>
    cases m <;> simp only [Move.call?, reduceCtorEq, Option.some.injEq] at hm <;> subst hm
    case abandon => exact Or.inr (Or.inl ⟨rfl, call, rfl⟩)
    case checkpointRead r =>
      simp only [apply, checkpointRead, hcall]
      cases call with
      | readingCheckpoint key o =>
        cases r with
        | ok position => exact Or.inr (Or.inr ⟨_, _, rfl, rfl, .attaches key o position⟩)
        | error e => exact Or.inr (Or.inr ⟨_, _, rfl, rfl, .unread key o e⟩)
      | _ => exact Or.inl ⟨rfl, fun _ h => Option.some.inj h ▸ rfl⟩
    case endorsed r =>
      simp only [apply, endorsed, hcall]
      cases call with
      | endorsing p quorum =>
        refine Or.inr (Or.inr ⟨_, _, rfl, rfl, ?_⟩)
        cases r with
        | error e => exact .unreached p quorum e
        | ok answers =>
          dsimp only
          split
          · next h => exact .refused p quorum h
          · next h => exact .endorsed p quorum h
      | _ => exact Or.inl ⟨rfl, fun _ h => Option.some.inj h ▸ rfl⟩
    case ordered r =>
      simp only [apply, ordered, hcall]
      cases call with
      | ordering request payload w route =>
        exact Or.inr (Or.inr ⟨_, _, rfl, rfl, .ordered request payload w route r⟩)
      | _ => exact Or.inl ⟨rfl, fun _ h => Option.some.inj h ▸ rfl⟩
    case inquired r =>
      simp only [apply, inquired, hcall]
      cases call with
      | inquiring p inquiry => exact Or.inr (Or.inr ⟨_, _, rfl, rfl, .inquired p inquiry r⟩)
      | _ => exact Or.inl ⟨rfl, fun _ h => Option.some.inj h ▸ rfl⟩
    case resume room =>
      simp only [apply, resume, hcall]
      cases call with
      | linking key links next => exact Or.inr (Or.inr ⟨_, _, rfl, rfl, .follows key links next⟩)
      | confirming w q t payload =>
        by_cases hroom : room = 0
        · exact Or.inl ⟨if_pos hroom, fun _ h => Option.some.inj h ▸ by simp [Call.fits, hroom]⟩
        · exact Or.inr (Or.inr ⟨_, _, rfl, if_neg hroom, .looks w q t payload hroom⟩)
      | _ => exact Or.inl ⟨rfl, fun _ h => Option.some.inj h ▸ rfl⟩

theorem acts_goes {c c' : Client} {i : Nat} {call : Call} {m : Move} (bounded : c.Bounded)
    (known : c.Known) (hcall : c.call? i = some call) (h : c.Goes i call m c') :
    Acts i (c.Owns i) c c' := by
  have owned : ∀ j, c.sessions.length ≤ j → c.Owns i j := fun _ => Or.inl
  cases h with
  | attaches key o position => exact acts_attachListener c _ _ _ bounded owned
  | unread key o e => exact .head (.removes _) (acts_finish _ _)
  | follows key links next =>
    refine acts_followLinks c _ _ _ fun l hl => ?_
    have hmem := List.mem_map_of_mem (f := (·.attachment.session)) hl
    exact ⟨Or.inr ⟨_, hcall, hmem⟩, known.pending _ _ hcall _ hmem⟩
  | unreached | refused => exact acts_finish c _
  | endorsed => exact .head (act_newWait c _ _ _) (acts_openMailbox _ _ _ bounded owned)
  | ordered request payload w route r => exact acts_orderStep c _ _ _ _
  | looks w q t payload => exact acts_lookAt c _ _ _ _ _
  | inquired p inquiry r => exact acts_inquire c _ _

theorem acts_apply {c : Client} (bounded : c.Bounded) (known : c.Known) {m : Move}
    (hfeed : m.feed? = none) (hsession : m.session? = none) :
    Acts (c.actor m) (c.Owns (c.actor m)) c (c.apply m) := by
  cases hm : m.call? with
  | some i =>
    rw [actor_of_call hm]
    obtain ⟨hsame, -⟩ | ⟨rfl, -⟩ | ⟨call, _, hcall, rfl, hgoes⟩ := c.call_cases hm
    · rw [hsame]
    · exact acts_abandon c
    · exact acts_goes bounded known hcall hgoes
  | none =>
    have owned : ∀ i j, c.sessions.length ≤ j → c.Owns i j := fun _ _ hj => Or.inl hj
    cases m with
    | submit inv => exact .head (act_newCall c) (acts_submit c inv)
    | evaluate inv => exact .head (act_newCall c) (acts_evaluate c inv)
    | addListener s o => exact .head (act_newCall c) (acts_addListener c s o bounded (owned _))
    | addCommitListener l peers id =>
      exact .head (act_newCall c) (acts_linkCommit c.newCall.1 l peers id _ bounded (owned _))
    | remove key => exact .single (.removes key)
    | close => exact .single .closes
    | letGo =>
      have hnote : Act (c.actor .letGo) (c.Owns (c.actor .letGo)) c { c with held := false } :=
        .notes rfl rfl rfl rfl (Nat.le_refl _) [] (by simp) (by simp)
      exact .head hnote (acts_tearDownIfUnused _)
    | newWait id quorum limit => exact .single (act_newWait c id quorum limit)
    | listen w =>
      exact .head (act_newCall c) (acts_openMailbox c.newCall.1 w _ bounded (owned _))
    | awaitConfirmation w => exact .head (act_newCall c) (acts_confirm c.newCall.1 w none)
    | cancelWait w => exact acts_cancelWait c w
    | letGoOfWait w => exact .trans (acts_dropWait c w) (acts_tearDownIfUnused _)
    | tick millis =>
      exact .single (.notes rfl rfl rfl rfl (Nat.le_refl _) [] (by simp [apply, tick]) (by simp))
    | abandon | checkpointRead | endorsed | ordered | inquired | resume => cases hm
    | requestStream _ | streamOpened _ | streamRefused _ _ | blockArrived _ _ | streamBroke _ _
    | streamEnded _ => cases hfeed
    | takeNext _ | answer _ _ => cases hsession

end Client

end LedgerClient
