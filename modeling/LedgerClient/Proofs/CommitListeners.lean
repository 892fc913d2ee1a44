import LedgerClient.Proofs.Links

/-!
# Commit listeners when they are added

The application adds a commit listener, and so does the client for a wait, before it sends the
transaction for ordering (`Client.Adds`).  When such a call returns, the listener has a stream from
each peer or was told of a failure there, except where the turns of the peer's feed left it silent
(`Client.live_or_told_unless_silent`).
-/

namespace LedgerClient

namespace Client

/-! ## Attaching to each peer -/

section Attaching

variable {c : Client} {ss : List (Peer × Nat)}

theorem spawnEach_eq (c : Client) (l : ListenerId) (id : String) (peers : List Peer) :
    ∃ agenda, c.spawnEach l id peers =
      { c with
        sessions := c.sessions ++ peers.map fun p => .new (.commit l p.name id) none, agenda } := by
  induction peers generalizing c with
  | nil => exact ⟨c.agenda, by simp [spawnEach]⟩
  | cons p ps ih =>
    obtain ⟨agenda, h⟩ := c.spawn_eq (.commit l p.name id) none
    obtain ⟨agenda', h'⟩ := ih (c.spawn (.commit l p.name id) none).1
    refine ⟨agenda', ?_⟩
    rw [spawnEach, h', h]
    simp

theorem attachEach_eq (c : Client) (ss : List (Peer × Nat)) :
    ∃ table agenda, (c.attachEach ss).1 = { c with table, agenda } := by
  induction ss generalizing c with
  | nil => exact ⟨c.table, c.agenda, rfl⟩
  | cons x rest ih =>
    obtain ⟨agenda, h⟩ := c.attachTo_eq x.1 .filtered none x.2
    obtain ⟨table, agenda', h'⟩ := ih (c.attachTo x.1 .filtered none x.2).1
    exact ⟨table, agenda', by rw [attachEach, h', h]⟩

theorem sound_attachTo {x : Peer × Nat} {rest : List (Peer × Nat)} (hc : c.table.Sound)
    (h : c.Unattached (x :: rest)) : (c.attachTo x.1 .filtered none x.2).1.table.Sound := by
  rw [attachTo_table]
  exact hc.join _ _ _ _ _ fun hf => (h.2 x List.mem_cons_self).2 _ _ hf

/-- What is shared, and who is on a feed, stays when sessions are attached. -/
theorem attachEach_keeps (hc : c.table.Sound) (h : c.Unattached ss) :
    (∀ key k, c.table.shared? key = some k → (c.attachEach ss).1.table.shared? key = some k) ∧
      ∀ k f j, c.table.feed? k = some f → j ∈ f.sessions →
        ∃ f', (c.attachEach ss).1.table.feed? k = some f' ∧ j ∈ f'.sessions := by
  induction ss generalizing c with
  | nil => exact ⟨fun _ _ => id, fun k f j hf hj => ⟨f, hf, hj⟩⟩
  | cons x rest ih =>
    obtain ⟨hshared, hfeeds⟩ := ih (sound_attachTo hc h) h.attachTo
    refine ⟨fun key k hk => hshared key k ?_, fun k f j hf hj => ?_⟩
    · rw [attachTo_table]
      exact FeedTable.shared?_join_of_some _ _ _ _ _ hk
    · obtain ⟨f', hf', hcase⟩ := hc.feed?_join c.options.reconnect x.1 .filtered none x.2 hf
      rw [← attachTo_table] at hf'
      rcases hcase with rfl | rfl
      · exact hfeeds k _ j hf' hj
      · exact hfeeds k _ j hf' (Feed.mem_sessions_attach.2 (Or.inl hj))

theorem attachEach_mem (hc : c.table.Sound) (h : c.Unattached ss) {n : Nat} {p : Peer} {j : Nat}
    (hn : ss[n]? = some (p, j)) : ∃ a f, (c.attachEach ss).2[n]? = some ⟨a, j⟩ ∧
      (c.attachEach ss).1.table.shared? ⟨p.name, .filtered⟩ = some a ∧
      (c.attachEach ss).1.table.feed? a = some f ∧ j ∈ f.sessions := by
  induction ss generalizing c n with
  | nil => simp at hn
  | cons x rest ih =>
    have hsound := sound_attachTo hc h
    cases n with
    | zero =>
      obtain rfl : x = (p, j) := Option.some.inj hn
      let r := c.table.join c.options.reconnect p .filtered none j
      obtain ⟨agenda, heq⟩ := c.attachTo_eq p .filtered none j
      obtain ⟨f, hf, hj, -⟩ := hc.mem_join c.options.reconnect p .filtered none j
      have hshared := FeedTable.shared?_join (t := c.table) c.options.reconnect p .filtered j
      rw [← attachTo_table] at hf hshared
      obtain ⟨hkeeps, hfeeds⟩ := attachEach_keeps hsound h.attachTo
      obtain ⟨f', hf', hj'⟩ := hfeeds _ f j hf hj
      have hattachment : (c.attachTo p .filtered none j).2 = ⟨r.2, j⟩ := by rw [heq]
      exact ⟨r.2, f', congrArg some hattachment, hkeeps _ _ hshared, hf', hj'⟩
    | succ n => exact ih hsound h.attachTo hn

end Attaching

/-! ## Adding -/

section Adding

variable {c b : Client} {m : Move} {i : Nat} {l : ListenerId} {peers : List Peer} {id : String}
  {next : AfterLink}

/-- With a session for each peer attached, feeds, sessions and keys are all that is new. -/
theorem attachEach_spawnEach_eq (b : Client) (l : ListenerId) (id : String) (peers : List Peer)
    (ss : List (Peer × Nat)) : ∃ table agenda,
      (((b.reserve (.commit l)).spawnEach l id peers).attachEach ss).1 =
        { b with
          table, agenda, registrations := b.registrations ++ [(.commit l, [])]
          sessions := b.sessions ++ peers.map fun p => .new (.commit l p.name id) none } := by
  obtain ⟨agenda, hspawn⟩ := (b.reserve (.commit l)).spawnEach_eq l id peers
  obtain ⟨table, agenda', hattach⟩ :=
    ((b.reserve (.commit l)).spawnEach l id peers).attachEach_eq ss
  refine ⟨table, agenda', ?_⟩
  rw [hattach, hspawn]
  rfl

/-- A commit listener gets a session for each peer, which is linked to the shared feed of that
peer, before the call looks at the feeds for the first time. -/
theorem linkCommit_linked (peers : List Peer) (id : String) (next : AfterLink) (hb : b.Tidy)
    (hi : i < b.nextCall) (hfree : b.registered? (.commit l) = none) :
    ∃ (b' : Client) (as : List Attachment), b'.Tidy ∧ b'.outbox = b.outbox ∧
      b.linkCommit i l peers id next =
        b'.followLinks i (.commit l) (as.map (⟨·, false⟩)) next ∧
      ∀ n peer, peers[n]? = some peer → ∃ a f, ⟨a, b.sessions.length + n⟩ ∈ as ∧
        b'.table.shared? ⟨peer.name, .filtered⟩ = some a ∧ b'.table.feed? a = some f ∧
        f.isRunning = true ∧
        b'.sessions[b.sessions.length + n]? = some (.new (.commit l peer.name id) none) ∧
        b'.Linked i ⟨⟨a, b.sessions.length + n⟩, false⟩ peer.name f.phase [] [] := by
  let b₁ := (b.reserve (.commit l)).spawnEach l id peers
  let ss := peers.zipIdx b.sessions.length
  have hunattached : b₁.Unattached ss :=
    unattached_spawnEach (b.reserve (.commit l)) l id peers hb.bounded
  have hacts : Acts i (fun _ => True) b (b₁.attachEach ss).1 :=
    .head (.reserves _ hfree) (.trans (acts_spawnEach _ l id peers fun _ _ => trivial)
      (acts_attachEach _ ss (fun _ _ => trivial) hunattached))
  have htidy := hacts.tidy hb
  obtain ⟨table, agenda, hsame⟩ := b.attachEach_spawnEach_eq l id peers ss
  refine ⟨(b₁.attachEach ss).1, (b₁.attachEach ss).2, htidy, by rw [hsame],
    linkCommit_eq b i l peers id next hfree, fun n peer hn => ?_⟩
  have hss : ss[n]? = some (peer, b.sessions.length + n) := by
    rw [List.getElem?_zipIdx, hn, Option.map_some]
  have hsound : b₁.table.Sound := by
    rw [spawnEach_table]
    exact hb.sound
  obtain ⟨a, f, has, hshared, hf, hj⟩ := attachEach_mem hsound hunattached hss
  obtain ⟨g, hg, hruns, -, hkey⟩ := htidy.sound.runs (FeedTable.mem_of_shared? hshared)
  obtain rfl : g = f := Option.some.inj (hg.symm.trans hf)
  have hsession : (b₁.attachEach ss).1.sessions[b.sessions.length + n]? =
      some (.new (.commit l peer.name id) none) := by
    rw [hsame, List.getElem?_append_right (Nat.le_add_right _ _), Nat.add_sub_cancel_left,
      List.getElem?_map, hn, Option.map_some]
  have haside : (b₁.attachEach ss).1.Aside i (b.sessions.length + n) := by
    refine aside_of_new hb hi (Nat.le_add_right _ _) (List.getElem?_eq_some_iff.1 hsession).1
      (fun r hr => ?_) (by rw [hsame]) (by rw [hsame])
    rw [hsame] at hr
    exact (List.mem_append.1 hr).imp_right fun hr => by rw [List.mem_singleton.1 hr]
  refine ⟨a, g, List.mem_of_getElem? has, hshared, hf, hruns, hsession, htidy, haside,
    ⟨_, hsession, rfl⟩, ⟨g, hf, (congrArg FeedKey.peer hkey).symm, hj,
      Or.inr ⟨.start _, fun h => by cases h⟩⟩, by simp⟩

/-- The moves in which a call begins to add a commit listener, and how it goes on: the application
adds one, it listens for the outcomes of a wait, or a transaction was endorsed. -/
inductive Adds (c : Client) :
    Move → Nat → ListenerId → List Peer → String → AfterLink → Prop
  | application (l : ListenerId) (peers : List Peer) (id : String) :
      Adds c (.addCommitListener l peers id) c.nextCall l peers id .added
  | listening {w : Nat} {wait : Wait} {q : Quorum} (there : c.wait? w = some wait)
      (quorum : wait.quorum = some q) (peers : q.peers.isEmpty = false) :
      Adds c (.listen w) c.nextCall (.mailbox c.nextMailbox) q.peers wait.id.text .listening
  | submitting {i : Nat} {p : Proposal} {asked : Option Quorum} {answers : List Answer}
      {verdict : Verdict} {q : Quorum} (call : c.call? i = some (.endorsing p asked))
      (endorsed : Verdict.ofAnswers answers = .ok verdict)
      (quorum : asked.or c.defaultQuorum = some q) (peers : q.peers.isEmpty = false) :
      Adds c (.endorsed i (.ok answers)) i (.mailbox c.nextMailbox) q.peers p.id.text
        (.order ⟨p, verdict.valid⟩ verdict.payload c.waits.length)

theorem openMailbox_eq (i : Nat) (next : AfterLink) {w : Nat} {wait : Wait} {q : Quorum}
    (hw : c.wait? w = some wait) (hq : wait.quorum = some q) (hpeers : q.peers.isEmpty = false) :
    ∃ waits, c.openMailbox i w next =
      ({ c with waits, nextMailbox := c.nextMailbox + 1 } : Client).linkCommit i
        (.mailbox c.nextMailbox) q.peers wait.id.text next := by
  simp only [openMailbox, hw, hq, hpeers]
  exact ⟨_, rfl⟩

/-- Before it adds the listener, such a move takes a name for the call and notes the wait. -/
theorem Adds.apply_eq (h : c.Adds m i l peers id next) (hnamed : c.Named) :
    ∃ waits nextMailbox nextCall, i < nextCall ∧ c.apply m =
      ({ c with waits, nextMailbox, nextCall } : Client).linkCommit i l peers id next := by
  cases h with
  | application => exact ⟨c.waits, c.nextMailbox, c.nextCall + 1, Nat.lt_succ_self _, rfl⟩
  | listening there quorum peers =>
    obtain ⟨waits, heq⟩ :=
      openMailbox_eq (c := c.newCall.1) c.nextCall .listening there quorum peers
    exact ⟨waits, c.nextMailbox + 1, c.nextCall + 1, Nat.lt_succ_self _, heq⟩
  | @submitting i p asked answers verdict q call endorsed quorum peers =>
    let b := (c.newWait p.id (asked.or c.defaultQuorum) c.options.commitTimeout).1
    let next : AfterLink := .order ⟨p, verdict.valid⟩ verdict.payload c.waits.length
    have hw : b.wait? c.waits.length =
        some ⟨p.id, asked.or c.defaultQuorum, c.options.commitTimeout, none, none, none, true⟩ :=
      List.getElem?_concat_length
    have hendorsed : c.apply (.endorsed i (.ok answers)) = b.openMailbox i c.waits.length next := by
      simp only [apply, Client.endorsed, call, endorsed]
      rfl
    obtain ⟨waits, heq⟩ := openMailbox_eq i next hw quorum peers
    exact ⟨waits, c.nextMailbox + 1, c.nextCall, hnamed i _ call, hendorsed.trans heq⟩

end Adding

/-! ## Returning -/

/-- Commit listeners are live or told of a failure when the call that adds them returns, unless
their feed is silent.  The call is any that adds a commit listener in a client that comes about in
some way, and it returns at the end of a run in which whatever else may happen, with its key still
there; the feed is the shared one of a peer, which was not stopped. -/
theorem live_or_told_unless_silent (channel : Channel) (identity : Identity) (options : Options)
    (past : List Move) :
    let c := (new channel identity options).run past
    ∀ {m i l peers id next}, c.Adds m i l peers id next → c.registered? (.commit l) = none →
    ∀ ms, Returns i next c (m :: ms) →
    let c₀ := c.apply m
    let c₁ := c₀.run ms
    c₁.registered? (.commit l) ≠ none →
    ∀ n peer, peers[n]? = some peer →
    let j := c.sessions.length + n
    ∃ a f, c₀.table.shared? ⟨peer.name, .filtered⟩ = some a ∧ c₀.table.feed? a = some f ∧
      c₀.sessions[j]? = some (.new (.commit l peer.name id) none) ∧
      (¬ c₁.Stopped a →
        (c₁.Live a j ∨ (gather (received j) c₀ ms).any (·.isFaultOf peer.name) = true ↔
          ¬ Silent f.phase (gather (turn a) c₀ ms))) := by
  intro c m i l peers id next hadds hfree ms hreturns c₀ c₁ hkey n peer hn j
  have hc : c.Tidy := tidy_run channel identity options past
  obtain ⟨waits, nextMailbox, nextCall, hi, hlink⟩ :=
    hadds.apply_eq (named_run channel identity options past)
  let b : Client := { c with waits, nextMailbox, nextCall }
  have hb : b.Tidy := ⟨hc.sound, hc.bounded, ⟨hc.known.registered, hc.known.pending⟩, hc.fits⟩
  obtain ⟨b', as, -, hout, heq, hlinked⟩ := linkCommit_linked peers id next hb hi hfree
  obtain ⟨a, f, has, hshared, hf, hruns, hsession, h⟩ := hlinked n peer hn
  have hidle : f.phase ≠ .idle ∧ f.phase ≠ .stopped := by
    constructor <;> intro hp <;> simp [Feed.isRunning, hp] at hruns
  have hmem : ⟨⟨a, j⟩, false⟩ ∈ as.map (⟨·, false⟩ : Attachment → Link) :=
    List.mem_map_of_mem has
  have hunsent : b'.outbox = c.outbox := hout
  refine ⟨a, f, ?_⟩
  rcases h.follow_cases hmem hidle.1 hidle.2 hunsent (hlink.trans heq) (hc.apply m) hreturns with
    ⟨htable, hsessions, hcall, h', hreturns'⟩ | ⟨rfl, hdone⟩
  · refine ⟨htable ▸ hshared, htable ▸ hf, hsessions ▸ hsession, fun hstop => ?_⟩
    have hrun := h'.run hcall (note_mem_progress hmem) hidle.1 hidle.2 hreturns' hkey hstop
    rwa [List.nil_append, List.nil_append] at hrun
  · obtain ⟨htable, hsessions, hknown⟩ := hdone hkey
    exact ⟨htable ▸ hshared, htable ▸ hf, hsessions ▸ hsession, hknown⟩

/-- A client of one peer. -/
def lone : Client := new onePeer ⟨"org", []⟩ .default

/-- A commit listener is added on this peer. -/
def addOne (name : String) : Move := .addCommitListener (.app name) onePeer.peers "tx"

/-- The stream of the new feed is opened, and the call looks again. -/
def openedThen : List Move := [.requestStream 0, .streamOpened 0, .resume 0 128]

theorem live_when_opened :
    lone.Adds (addOne "l") 0 (.app "l") onePeer.peers "tx" .added ∧
      Returns 0 .added lone (addOne "l" :: openedThen) ∧
      ((lone.apply (addOne "l")).run openedThen).registered? (.commit (.app "l")) ≠ none ∧
      (((lone.apply (addOne "l")).run openedThen).Live 0 0 ∨
        (gather (received 0) (lone.apply (addOne "l")) openedThen).any
          (·.isFaultOf "peer") = true) := by
  have hadds : lone.Adds (addOne "l") 0 (.app "l") onePeer.peers "tx" .added := .application _ _ _
  have hreturns : Returns 0 .added lone (addOne "l" :: openedThen) := by decide +kernel
  have hkey : ((lone.apply (addOne "l")).run openedThen).registered? (.commit (.app "l")) ≠
      none := by
    decide +kernel
  have hlive := live_or_told_unless_silent onePeer ⟨"org", []⟩ .default [] hadds
    (by decide +kernel) openedThen hreturns hkey 0 ⟨"peer", "org", "", .all⟩ (by decide +kernel)
  obtain ⟨a, f, hshared, hf, -, hiff⟩ := hlive
  have hzero : (lone.apply (addOne "l")).table.shared? ⟨"peer", .filtered⟩ = some 0 := by
    decide +kernel
  have ha : a = 0 := Option.some.inj (hshared.symm.trans hzero)
  subst ha
  have hopening : (lone.apply (addOne "l")).table.feed? 0 = some (FeedTable.opening .default
      ⟨"peer", "org", "", .all⟩ .filtered none 0) := by decide +kernel
  have hphase := Option.some.inj (hf.symm.trans hopening)
  subst hphase
  exact ⟨hadds, hreturns, hkey, (hiff (by decide +kernel)).2 (by decide +kernel)⟩

/-- A second listener comes when the shared feed has taken the turns `ms`: the call returns at once
with its key in place, but no stream is open and nothing has been put into the queue of its
session. -/
def ReturnsUnheard (ms : List Move) : Prop :=
  let c := lone.run (addOne "first" :: ms)
  let c₀ := c.apply (addOne "second")
  Returns c.nextCall .added c [addOne "second"] ∧
    c₀.registered? (.commit (.app "second")) = some [⟨0, 1⟩] ∧ ¬ c₀.Stopped 0 ∧
    ¬ c₀.Live 0 1 ∧ (c₀.sessions[1]?).map Session.queue = some []

/-- So it goes while the feed rests from a failed start, a broken stream or the end of a stream. -/
theorem neither_live_nor_told_while_resting :
    ReturnsUnheard [.requestStream 0, .streamRefused 0 (.unreachable "peer" "down")] ∧
      ReturnsUnheard [.requestStream 0, .streamOpened 0,
        .streamBroke 0 (.streamBroken "peer" "down")] ∧
      ReturnsUnheard [.requestStream 0, .streamOpened 0, .streamEnded 0] := by
  unfold ReturnsUnheard
  decide +kernel

end Client

end LedgerClient
