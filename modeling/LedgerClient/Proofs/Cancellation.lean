import LedgerClient.Proofs.Cleanup

/-!
# What a given up call leaves

A call that is given up takes with it what it has put away: the mailbox of its wait, and the
sessions under it. What it has in its hands it leaves behind, and so a call that is given up while
it waits for the first attempts of feeds leaves its sessions open and on their feeds for good
(`Client.InHand.run`), and the key of a listener stays registered. In every other phase nothing is
left of it (`Client.given_up_leaves_pending`).
-/

namespace LedgerClient

/-- Whether a move submits a transaction or adds a listener. -/
def Move.begins : Move → Bool
  | .submit _ | .addListener .. | .addCommitListener .. => true
  | _ => false

theorem Move.isCall_of_begins {m : Move} (h : m.begins = true) : m.isCall = true := by
  cases m <;> first | rfl | cases h

namespace Client

/-- How a call that adds a key stands to the sessions `js` that it has made: it has none of them
while it reads its checkpoint, and then all in its hands. -/
inductive Attaching (i : Nat) (key : ListenerKey) (js : List Nat) (c : Client) : Prop
  | reading {o : ListenerOptions} (call : c.call? i = some (.readingCheckpoint key o))
      (sessions : js = [])
  | linking {links : List Link} (call : c.call? i = some (.linking key links .added))
      (sessions : ∀ j ∈ js, ∃ l ∈ links, l.attachment.session = j)
  | ended (gone : c.call? i = none)

/-- The call goes on, makes `k` sessions and opens no mailbox. -/
structure Makes (i : Nat) (key : ListenerKey) (js : List Nat) (k : Nat) (c c' : Client) : Prop where
  length : c'.sessions.length = c.sessions.length + k
  nextMailbox : c'.nextMailbox = c.nextMailbox
  attaching : c'.Attaching i key js

variable {i j : Nat} {js ns : List Nat} {key : ListenerKey} {b c c' : Client} {m : Move}
  {a : Attachment}

/-! ## Calls that add a listener -/

theorem makes_finish (b : Client) (r : CallResult) : Makes i key js 0 b (b.finish i r) := by
  obtain ⟨_, _, _, heq⟩ := b.finish_eq (i := i) r
  have hdeeds : Deeds i (fun _ => False) (fun _ => False) (fun _ => False) b (b.finish i r) :=
    deeds_finish b r
  exact ⟨Deeds.length_eq hdeeds, by rw [heq], .ended (b.finish_cases i r).2.1⟩

theorem makes_unregister_finish (b : Client) (r : CallResult) :
    Makes i key js 0 b ((b.unregister key).finish i r) := by
  have hfinished : Makes i key js 0 (b.unregister key) ((b.unregister key).finish i r) :=
    makes_finish _ r
  obtain ⟨_, _, _, heq⟩ := b.unregister_eq key
  exact ⟨hfinished.length.trans (b.sheds_unregister key).length,
    hfinished.nextMailbox.trans (by rw [heq]), hfinished.attaching⟩

theorem makes_followLinks (b : Client) {links : List Link}
    (hjs : ∀ j ∈ js, ∃ l ∈ links, l.attachment.session = j) :
    Makes i key js 0 b (b.followLinks i key links .added) := by
  unfold followLinks
  dsimp only
  split_ifs
  · let as := (b.progress links).map (·.attachment)
    have hfinished : Makes i key js 0 (b.complete key as) ((b.complete key as).finish i .added) :=
      makes_finish _ _
    obtain ⟨_, _, _, _, heq⟩ := b.complete_eq key as
    have hdeeds : Deeds i (fun _ => False) (fun _ => False) (fun _ => False) b
        (b.complete key as) := .single (.completes key as)
    exact ⟨hfinished.length.trans (Deeds.length_eq hdeeds),
      hfinished.nextMailbox.trans (by rw [heq]), hfinished.attaching⟩
  · refine ⟨rfl, rfl, .linking (b.call?_setCall_self _) fun j hj => ?_⟩
    obtain ⟨l, hl, rfl⟩ := hjs j hj
    exact ⟨_, note_mem_progress hl, rfl⟩

theorem makes_attachListener (b : Client) (o : ListenerOptions) (start : Option Nat) :
    ∃ k, Makes i key (List.range' b.sessions.length k) k b (b.attachListener i key o start) := by
  rcases attachListener_cases b i key o start with ⟨r, heq⟩ | ⟨table, agenda, a, ha, heq⟩ <;>
    rw [heq]
  · exact ⟨0, makes_unregister_finish b r⟩
  · let b' : Client := { b with
      table, agenda, sessions := b.sessions ++ [.new (key.audience o) start] }
    have hfollowed : Makes i key (List.range' b.sessions.length 1) 0 b'
        (b'.followLinks i key [⟨a, false⟩] .added) :=
      makes_followLinks b' fun j hj => ⟨_, List.mem_singleton_self _, by
        rw [List.mem_singleton.1 hj, ha]⟩
    refine ⟨1, hfollowed.length.trans ?_, hfollowed.nextMailbox, hfollowed.attaching⟩
    rw [List.length_append, List.length_singleton]

theorem makes_linkCommit (b : Client) (l : ListenerId) (peers : List Peer) (id : String) :
    ∃ k, Makes i (.commit l) (List.range' b.sessions.length k) k b
      (b.linkCommit i l peers id .added) := by
  cases hfree : b.registered? (.commit l) with
  | some _ =>
    refine ⟨0, ?_⟩
    unfold linkCommit
    rw [hfree]
    exact makes_finish b _
  | none =>
    refine ⟨peers.length, ?_⟩
    let b₁ := ((b.reserve (.commit l)).spawnEach l id peers).attachEach
      (peers.zipIdx b.sessions.length)
    obtain ⟨_, _, heq⟩ := b.attachEach_spawnEach_eq l id peers (peers.zipIdx b.sessions.length)
    have hb₁ : b₁.1.sessions.length = b.sessions.length + peers.length ∧
        b₁.1.nextMailbox = b.nextMailbox := by
      simp only [b₁, heq, List.length_append, List.length_map, and_self]
    have hsessions : b₁.2.map (·.session) = List.range' b.sessions.length peers.length := by
      rw [attachEach_session, List.zipIdx_map_snd]
    have hfollowed : Makes i (.commit l) (List.range' b.sessions.length peers.length) 0 b₁.1
        (b₁.1.followLinks i (.commit l) (b₁.2.map (⟨·, false⟩)) .added) := by
      refine makes_followLinks b₁.1 fun j hj => ?_
      rw [← hsessions] at hj
      obtain ⟨a, ha, rfl⟩ := List.mem_map.1 hj
      exact ⟨⟨a, false⟩, List.mem_map_of_mem ha, rfl⟩
    rw [linkCommit_eq b i l peers id .added hfree]
    exact ⟨hfollowed.length.trans hb₁.1, hfollowed.nextMailbox.trans hb₁.2, hfollowed.attaching⟩

/-- A move of a call that adds a key: it handles no other key and opens no mailbox, and has in its
hands what it has made. -/
structure Minds (i : Nat) (key : ListenerKey) (js : List Nat) (c : Client) (m : Move) : Prop where
  works : Works i (key = ·) c (c.apply m)
  mailboxes : c.opens i m = []
  attaching : (c.apply m).Attaching i key (js ++ c.spawned i m)

theorem Makes.minds {js' : List Nat} {k : Nat} (h : Makes i key js' k c (c.apply m))
    (hactor : c.actor m = i) (hworks : Works i (key = ·) c (c.apply m))
    (hjs : js' = js ++ List.range' c.sessions.length k) : Minds i key js c m := by
  have hspawned : c.spawned i m = List.range' c.sessions.length k := by
    unfold spawned
    rw [if_pos hactor, h.length, Nat.add_sub_cancel_left]
  have hopens : c.opens i m = [] := by
    unfold opens
    rw [if_pos hactor, h.nextMailbox, Nat.sub_self]
    rfl
  exact ⟨hworks, hopens, hspawned ▸ hjs ▸ h.attaching⟩

theorem Attaching.minds_same (h : c.Attaching i key js) (hc : c.Sane) (hactor : c.actor m = i)
    (happly : c.apply m = c) : Minds i key js c m := by
  have hmakes : Makes i key js 0 c (c.apply m) := by
    rw [happly]
    exact ⟨rfl, rfl, h⟩
  refine hmakes.minds hactor ?_ (List.append_nil _).symm
  rw [happly]
  exact .refl (hc.settled.ready i)

theorem Attaching.wait?_eq_none (h : c.Attaching i key js) {call : Call}
    (hcall : c.call? i = some call) : call.wait? = none := by
  cases h with
  | reading there | linking there =>
    obtain rfl := Option.some.inj (hcall.symm.trans there)
    rfl
  | ended gone => exact absurd (hcall.symm.trans gone) (by simp)

theorem abandon_eq {call : Call} (hcall : c.call? i = some call) (hwait : call.wait? = none) :
    c.abandon i = ({ c with calls := c.calls.filter (·.1 ≠ i) } : Client).tearDownIfUnused := by
  unfold abandon
  rw [hcall]
  cases call with
  | linking key links next =>
    cases next with
    | order r payload w => cases hwait
    | _ => rfl
  | ordering | confirming => cases hwait
  | _ => rfl

theorem abandon_eq_of_wait {call : Call} {w : Nat} (hcall : c.call? i = some call)
    (hwait : call.wait? = some w) : c.abandon i =
      ({ c.dropWait w with calls := (c.dropWait w).calls.filter (·.1 ≠ i) } :
        Client).tearDownIfUnused := by
  unfold abandon
  rw [hcall]
  cases call with
  | linking key links next =>
    cases next with
    | order r payload w' =>
      obtain rfl := Option.some.inj hwait
      rfl
    | _ => cases hwait
  | ordering | confirming =>
    obtain rfl := Option.some.inj hwait
    rfl
  | _ => cases hwait

theorem Attaching.minds_abandon (h : c.Attaching i key js) (hi : i < c.nextCall) {call : Call}
    (hcall : c.call? i = some call) : Minds i key js c (.abandon i) := by
  have heq : c.apply (.abandon i) = _ := abandon_eq hcall (h.wait?_eq_none hcall)
  have hworks : Works i (key = ·) c (c.apply (.abandon i)) :=
      works_abandon fun call' hcall' w hw => by
    rw [h.wait?_eq_none hcall'] at hw
    cases hw
  have hdeeds : Deeds i (fun _ => False) (fun _ => False) (fun _ => False) c
      (c.apply (.abandon i)) := heq ▸ .head .ends (deeds_tearDownIfUnused _)
  obtain ⟨_, _, _, hdown⟩ := tearDownIfUnused_eq { c with calls := c.calls.filter (·.1 ≠ i) }
  have hmakes : Makes i key js 0 c (c.apply (.abandon i)) :=
    ⟨Deeds.length_eq hdeeds, by rw [heq, hdown], .ended (abandon_over hi).1.gone⟩
  exact hmakes.minds rfl hworks (List.append_nil _).symm

theorem Attaching.own (h : c.Attaching i key js) (hc : c.Sane) (hactor : c.actor m = i)
    (hi : i < c.nextCall) : Minds i key js c m := by
  obtain ⟨hsame, -⟩ | ⟨rfl, call, hcall⟩ | ⟨call, b, hcall, hb, hgoes⟩ :=
    c.call_cases (call?_of_actor hactor hi)
  · exact h.minds_same hc hactor hsame
  · exact h.minds_abandon hi hcall
  cases h with
  | @reading o there sessions =>
    obtain rfl := Option.some.inj (hcall.symm.trans there)
    subst sessions
    cases hgoes with
    | attaches key o position =>
      obtain ⟨k, hmakes⟩ := makes_attachListener c o (position.or o.startBlock)
      rw [← hb] at hmakes
      exact hmakes.minds hactor (hb ▸ works_attachListener rfl hc.tidy hi _ _)
        (List.nil_append _).symm
    | unread key o e =>
      have hmakes : Makes i key [] 0 c (c.apply (.checkpointRead i (.error e))) :=
        hb ▸ makes_unregister_finish c _
      exact hmakes.minds hactor (hb ▸ .of_tasks (.single (.removes key rfl)) (works_finish _ _)) rfl
  | @linking links there sessions =>
    obtain rfl := Option.some.inj (hcall.symm.trans there)
    cases hgoes with
    | @follows _ _ _ room =>
      have hmakes : Makes i key js 0 c (c.apply (.resume i room)) :=
        hb ▸ makes_followLinks c sessions
      exact hmakes.minds hactor (hb ▸ works_followLinks rfl (hc.settled.ready i _ _ _ there)
        (by simp [AfterLink.wait?])) (List.append_nil _).symm
  | ended gone => simp [gone] at hcall

theorem minds_addListener (hc : c.Sane) (s : Subject) (o : ListenerOptions) :
    Minds c.nextCall s.key [] c (.addListener s o) := by
  have hworks : Works c.nextCall (s.key = ·) c (c.addListener s o) :=
    works_addListener hc.tidy s o rfl
  obtain ⟨k, hmakes⟩ : ∃ k, Makes c.nextCall s.key (List.range' c.sessions.length k) k c
      (c.addListener s o) := by
    unfold addListener
    dsimp only
    split
    · have hmakes : Makes c.nextCall s.key [] 0 c.newCall.1
          (c.newCall.1.finish c.nextCall .added) := makes_finish _ _
      exact ⟨0, hmakes.length, hmakes.nextMailbox, hmakes.attaching⟩
    · split
      · exact ⟨0, rfl, rfl, .reading (call?_setCall_self ..) rfl⟩
      · let b := c.newCall.1.reserve s.key
        obtain ⟨k, hmakes⟩ : ∃ k, Makes c.nextCall s.key (List.range' b.sessions.length k) k b
          (b.attachListener c.nextCall s.key o o.startBlock) := makes_attachListener b o _
        exact ⟨k, hmakes.length, hmakes.nextMailbox, hmakes.attaching⟩
  exact hmakes.minds rfl hworks (List.nil_append _).symm

theorem minds_addCommitListener (hc : c.Sane) (l : ListenerId) (peers : List Peer) (id : String) :
    Minds c.nextCall (.commit l) [] c (.addCommitListener l peers id) := by
  have hnew : Task c.nextCall (ListenerKey.commit l = ·) c c.newCall.1 := task_newCall c
  have hworks : Works c.nextCall (ListenerKey.commit l = ·) c (c.addCommitListener l peers id) :=
    .of_tasks (.single hnew) (works_linkCommit rfl (hnew.act.tidy hc.tidy) (Nat.lt_succ_self _)
      peers id (by simp [AfterLink.wait?]))
  obtain ⟨k, hmakes⟩ : ∃ k, Makes c.nextCall (.commit l) (List.range' c.newCall.1.sessions.length k)
    k c.newCall.1 (c.addCommitListener l peers id) := makes_linkCommit c.newCall.1 l peers id
  have hmakes' : Makes c.nextCall (.commit l) (List.range' c.sessions.length k) k c
      (c.apply (.addCommitListener l peers id)) :=
    ⟨hmakes.length, hmakes.nextMailbox, hmakes.attaching⟩
  exact hmakes'.minds rfl hworks (List.nil_append _).symm

/-- A call that adds a key has in its hands what it has made, whoever moves. -/
theorem Attaching.apply (h : c.Attaching i key js) (hc : c.Sane) (hi : i < c.nextCall) (m : Move) :
    (c.apply m).Attaching i key (js ++ c.spawned i m) ∧ c.opens i m = [] := by
  by_cases hactor : c.actor m = i
  · have hminds : Minds i key js c m := h.own hc hactor hi
    exact ⟨hminds.attaching, hminds.mailboxes⟩
  · have hcall := call?_apply hc.tidy hactor
    rw [spawned, opens, if_neg hactor, if_neg hactor, List.append_nil]
    refine ⟨?_, rfl⟩
    cases h with
    | reading there sessions => exact .reading (hcall.trans there) sessions
    | linking there sessions => exact .linking (hcall.trans there) sessions
    | ended gone => exact .ended (hcall.trans gone)

theorem Attaching.run {ms : List Move} (h : c.Attaching i key js) (hc : c.Sane)
    (hi : i < c.nextCall) : (c.run ms).Attaching i key (js ++ gather (spawned i) c ms) ∧
      gather (opens i) c ms = [] ∧ i < (c.run ms).nextCall := by
  induction ms generalizing c js with
  | nil =>
    rw [gather, List.append_nil]
    exact ⟨h, rfl, hi⟩
  | cons m ms ih =>
    obtain ⟨hnext, hopens⟩ := h.apply hc hi m
    rw [gather, gather, hopens, List.nil_append, ← List.append_assoc]
    exact ih hnext (hc.apply m) (Nat.lt_of_lt_of_le hi (nextCall_le_apply hc.tidy m))

/-! ## What is in the hands of a call that is over -/

theorem InHand.acts {k : Nat} {own : Nat → Prop} (h : c.InHand i key a) (hacts : Acts k own c c')
    (hown : ¬ own a.session) (hc : c.Tidy) : c'.InHand i key a := by
  obtain ⟨haside, hsession, hfeeds⟩ := hacts.untouched hown h.aside hc
  obtain ⟨f, hf, hon⟩ := h.attached
  obtain ⟨f', hf', -, hon', -⟩ := hfeeds a.feed f hf hon
  obtain ⟨s, hs, hopen⟩ := h.opened
  exact ⟨⟨f', hf', hon'⟩, ⟨s, hsession.trans hs, hopen⟩, haside⟩

/-- Moves of others leave what a call has in its hands. -/
theorem InHand.apply (h : c.InHand i key a) (hc : c.Tidy) (hm : c.actor m ≠ i) :
    (c.apply m).InHand i key a := by
  rcases steady_or_other hc m with hsteady | ⟨hfeed, hsession⟩
  · have hquiet := hsteady.quiet
    exact ⟨hsteady.attached h.attached, hsteady.opened h.opened,
      h.aside.of_eq hquiet.registrations hquiet.calls hquiet.nextCall hquiet.length⟩
  · exact h.acts (acts_apply hc.bounded hc.known hfeed hsession) (h.aside.not_owns hm) hc

/-- What a call has in its hands when it is given up stays open and on its feed. -/
theorem InHand.abandon (h : c.InHand i key a) (hc : c.Tidy) : (c.abandon i).InHand i key a := by
  have hacts : Acts i (fun _ => False) c (c.abandon i) := c.acts_abandon
  exact h.acts hacts id hc

/-- What was in the hands of a call that is over stays where it is for good. -/
theorem InHand.run {ms : List Move} (h : c.InHand i key a) (hc : c.Tidy) (hover : c.Over i) :
    (c.run ms).InHand i key a := by
  induction ms generalizing c with
  | nil => exact h
  | cons m ms ih =>
    refine ih ?_ (hc.apply m) (hover.apply hc m).1
    by_cases hm : c.actor m = i
    · exact (hover.apply_eq hm).symm ▸ h
    · exact h.apply hc hm

/-! ## Giving up -/

/-- A submission that is given up takes its mailbox and all sessions with it that it has not in its
hands. -/
theorem Tends.given_up (h : c.Tends i js ns) (hc : c.Sane) (hcall : c.call? i ≠ none) :
    (∀ j ∈ js, j ∉ c.leaves (.abandon i) → (c.abandon i).Released j) ∧
      ∀ n ∈ ns, (c.abandon i).registered? (.commit (.mailbox n)) = none := by
  have hdropped {call : Call} {w : Nat} {js : List Nat} (hthere : c.call? i = some call)
      (hwait : call.wait? = some w) (hkeeps : c.Keeps w js ns) :
      (∀ j ∈ js, (c.abandon i).Released j) ∧
        ∀ n ∈ ns, (c.abandon i).registered? (.commit (.mailbox n)) = none := by
    obtain ⟨-, -, hreleased, hremoved⟩ := hkeeps.drop hc.tidy (hc.settled.begin i)
    let b : Client := { c.dropWait w with calls := (c.dropWait w).calls.filter (·.1 ≠ i) }
    have heq : c.abandon i = b.tearDownIfUnused := abandon_eq_of_wait hthere hwait
    have hacts : Acts i (fun _ => True) (c.dropWait w) (c.abandon i) :=
      heq ▸ .head .ends (acts_tearDownIfUnused b)
    refine ⟨fun j hj => hacts.released (hreleased j hj), fun n hn => ?_⟩
    rw [heq]
    exact (b.registered?_tearDownIfUnused _).elim (·.trans (hremoved n hn)) id
  cases h with
  | endorsing there sessions mailboxes =>
    subst sessions mailboxes
    simp
  | @linking n w links r payload wait there hwait listener sessions mailboxes =>
    have hkeeps : c.Keeps w [] ns := ⟨wait, hwait, by rw [mailboxes, listener]; rfl, by simp⟩
    refine ⟨fun j hj hnot => absurd ?_ hnot, (hdropped there rfl hkeeps).2⟩
    obtain ⟨l, hl, rfl⟩ := sessions j hj
    simp only [leaves, there, Option.map_some, Option.getD_some, Call.sessions]
    exact List.mem_map_of_mem hl
  | ordering there keeps =>
    exact (hdropped there rfl keeps).imp_left fun hreleased j hj _ => hreleased j hj
  | confirming there keeps =>
    exact (hdropped there rfl keeps).imp_left fun hreleased j hj _ => hreleased j hj
  | ended gone => exact absurd gone hcall

/-- All that a call that adds a key has made is in its hands when it is given up. -/
theorem Attaching.leaves (h : c.Attaching i key js) (hcall : c.call? i ≠ none) :
    ∀ j ∈ js, j ∈ c.leaves (.abandon i) := by
  intro j hj
  cases h with
  | reading there sessions =>
    subst sessions
    exact absurd hj List.not_mem_nil
  | linking there sessions =>
    obtain ⟨l, hl, rfl⟩ := sessions j hj
    simp only [Client.leaves, there, Option.map_some, Option.getD_some, Call.sessions]
    exact List.mem_map_of_mem hl
  | ended gone => exact absurd gone hcall

theorem Minds.run {ms : List Move} (h : Minds i key [] c m) (hc : c.Sane)
    (hi : i < (c.apply m).nextCall) :
    (c.run (m :: ms)).Attaching i key (gather (spawned i) c (m :: ms)) ∧
      gather (opens i) c (m :: ms) = [] ∧ i < (c.run (m :: ms)).nextCall := by
  rw [gather, gather, h.mailboxes, List.nil_append]
  exact h.attaching.run (hc.apply m) hi

/-- A call that adds a key leaves all others alone, in each of its moves. -/
theorem Minds.frame {ms before after : List Move} {m' : Move} (h : Minds i key [] c m)
    (hc : c.Sane) (hi : i < (c.apply m).nextCall) (heq : m :: ms = before ++ m' :: after)
    (hactor : (c.run before).actor m' = i) :
    ∃ b, (c.run before).Frame (key = ·) b ∧
      ((c.run before).apply m' = b ∨ (c.run before).apply m' = b.tearDownIfUnused) := by
  cases before with
  | nil =>
    obtain ⟨rfl, -⟩ := List.cons.inj heq
    exact h.works.frame hc
  | cons m'' before =>
    obtain ⟨rfl, -⟩ := List.cons.inj heq
    obtain ⟨hattaching, -, hlt⟩ : (c.run (m :: before)).Attaching i key _ ∧ _ ∧ _ :=
      h.run hc hi
    exact (hattaching.own (hc.run _) hactor hlt).works.frame (hc.run _)

theorem tearDownIfUnused_of_held (h : c.held = true) : c.tearDownIfUnused = c := by
  simp [tearDownIfUnused, h]

/-- The call that begins with `m` is given up after `ms`: apart from what it has in its hands and
the key of its listener, nothing is left of it, and others were left alone. -/
structure GivenUp (c₀ : Client) (m : Move) (ms : List Move) : Prop where
  released : ∀ j ∈ gather (spawned c₀.nextCall) c₀ (m :: ms),
    j ∉ (c₀.run (m :: ms)).leaves (.abandon c₀.nextCall) →
      ((c₀.run (m :: ms)).abandon c₀.nextCall).Released j
  mailboxes : ∀ n ∈ gather (opens c₀.nextCall) c₀ (m :: ms),
    ((c₀.run (m :: ms)).abandon c₀.nextCall).registered? (.commit (.mailbox n)) = none
  frames : ∀ before m' after, m :: (ms ++ [.abandon c₀.nextCall]) = before ++ m' :: after →
    (c₀.run before).actor m' = c₀.nextCall →
    ∃ b, (c₀.run before).Frame (fun key => key ∈ c₀.adds m ∨
        MailboxKey (gather (opens c₀.nextCall) c₀ (before ++ [m'])) key) b ∧
      ((c₀.run before).apply m' = b ∨ (c₀.run before).apply m' = b.tearDownIfUnused)
  keys : ∀ key ∈ c₀.adds m, (c₀.run (m :: ms)).held = true →
    ((c₀.run (m :: ms)).abandon c₀.nextCall).registered? key =
      (c₀.run (m :: ms)).registered? key

theorem given_up_submission {inv : Invocation} {ms : List Move} {mine : List Nat}
    (hc : c.Orderly mine) (hsane : c.Sane) (hms : Proper mine c (.submit inv :: ms))
    (underway : (c.run (.submit inv :: ms)).call? c.nextCall ≠ none) :
    c.GivenUp (.submit inv) ms := by
  obtain ⟨htends, -⟩ :=
    (Tending.submitted hc hsane hms).resolve_right fun h => underway h.1
  obtain ⟨hreleased, hremoved⟩ := htends.given_up (hsane.run _) underway
  refine ⟨hreleased, hremoved, fun before m' after heq hactor => ?_,
    fun key hkey => absurd hkey List.not_mem_nil⟩
  have hmore : Proper mine c (.submit inv :: (ms ++ [.abandon c.nextCall])) :=
    hms.append ⟨proper_of_call? rfl, trivial⟩
  obtain ⟨b, hframe, hb⟩ := frame_submitted hc hsane hmore heq hactor
  exact ⟨b, hframe.mono fun _ => Or.inr, hb⟩

theorem Minds.given_up {ms : List Move} (h : Minds c.nextCall key [] c m) (hc : c.Sane)
    (hadds : c.adds m = [key]) (hlt : c.nextCall < (c.apply m).nextCall)
    (underway : (c.run (m :: ms)).call? c.nextCall ≠ none) : c.GivenUp m ms := by
  obtain ⟨hattaching, hnone, -⟩ : (c.run (m :: ms)).Attaching _ key _ ∧ _ := h.run hc hlt
  refine ⟨fun j hj hnot => absurd (hattaching.leaves underway j hj) hnot, by simp [hnone],
    fun before m' after heq hactor => ?_, fun key' _ hheld => ?_⟩
  · obtain ⟨b, hframe, hb⟩ := h.frame hc hlt heq hactor
    refine ⟨b, hframe.mono fun key' hkey => Or.inl ?_, hb⟩
    rw [hadds, ← hkey]
    exact List.mem_singleton_self key
  · obtain ⟨call, hcall⟩ := Option.ne_none_iff_exists'.1 underway
    rw [abandon_eq hcall (hattaching.wait?_eq_none hcall), tearDownIfUnused_of_held]
    · rfl
    · exact hheld

/-- A call that submits a transaction or adds a listener is given up while it is under way. Whatever
it has made and has not in its hands is gone then, and what others have registered is as it was; but
what it has in its hands stays open and on its feed for good, and the listener stays registered.

The sessions that it has made are removed and on no feed, but for those that it has pending. The
keys of its mailboxes are gone, and a feed with no other sessions is stopped and not shared. In each
of its moves, up to that with which it is given up, it left the registrations and the sessions of
others alone. A session that it has pending takes deliveries and is on its feed after whatever
follows, and the key of a listener is left as it is as long as the application holds the client. -/
theorem given_up_leaves_pending (channel : Channel) (identity : Identity) (options : Options)
    (past : List Move) (m : Move) (ms : List Move) (begins : m.begins = true)
    (proper : Proper [] (new channel identity options) (past ++ m :: ms))
    (underway : (((new channel identity options).run past).run (m :: ms)).call?
      ((new channel identity options).run past).nextCall ≠ none) :
    let c₀ := (new channel identity options).run past
    let i := c₀.nextCall
    let c := c₀.run (m :: ms)
    let c' := c.apply (.abandon i)
    let sessions := gather (spawned i) c₀ (m :: ms)
    let left := c.leaves (.abandon i)
    (∀ j ∈ sessions, j ∉ left → c'.Released j) ∧
    (∀ n ∈ gather (opens i) c₀ (m :: ms), c'.registered? (.commit (.mailbox n)) = none) ∧
    (∀ k f, c'.table.feed? k = some f → (∀ j ∈ f.sessions, j ∈ sessions ∧ j ∉ left) →
      f.phase = .stopped ∧ ∀ key, (key, k) ∉ c'.table.shared) ∧
    (∀ before m' after, m :: (ms ++ [.abandon i]) = before ++ m' :: after →
      (c₀.run before).actor m' = i →
      ∃ b, (c₀.run before).Frame (fun key => key ∈ c₀.adds m ∨
          MailboxKey (gather (opens i) c₀ (before ++ [m'])) key) b ∧
        ((c₀.run before).apply m' = b ∨ (c₀.run before).apply m' = b.tearDownIfUnused)) ∧
    (∀ j ∈ left, ∃ key a, a.session = j ∧
      ∀ more, (c'.run more).Open key j ∧ (c'.run more).Attached a) ∧
    ∀ key ∈ c₀.adds m, c.held = true → c'.registered? key = c.registered? key := by
  intro c₀ i c c' sessions left
  obtain ⟨hpast, hms⟩ := proper_append proper
  have hsane₀ : c₀.Sane := sane_run channel identity options past
  have hsane : c.Sane := hsane₀.run (m :: ms)
  have hlt : i < (c₀.apply m).nextCall :=
    nextCall_lt_of_isCall hsane₀.tidy (Move.isCall_of_begins begins)
  have hgiven : c₀.GivenUp m ms := by
    cases m with
    | submit inv =>
      exact given_up_submission ((orderly_new channel identity options).run hpast) hsane₀ hms
        underway
    | addListener s o => exact (minds_addListener hsane₀ s o).given_up hsane₀ rfl hlt underway
    | addCommitListener l peers id =>
      exact (minds_addCommitListener hsane₀ l peers id).given_up hsane₀ rfl hlt underway
    | _ => cases begins
  refine ⟨hgiven.released, hgiven.mailboxes, fun k f hf honly => ?_, hgiven.frames,
    fun j hj => ?_, hgiven.keys⟩
  · exact (hsane.apply (.abandon i)).deserted hf fun j hj =>
      hgiven.released j (honly j hj).1 (honly j hj).2
  · obtain ⟨call, hcall⟩ := Option.ne_none_iff_exists'.1 underway
    have hi := hsane.named i call hcall
    have hmem : j ∈ call.sessions := by
      have heq : left = call.sessions := by
        simp only [left, leaves, show c.call? i = some call from hcall, Option.map_some,
          Option.getD_some]
      exact heq ▸ hj
    cases call with
    | linking key links next =>
      obtain ⟨l, hl, rfl⟩ := List.mem_map.1 hmem
      have hinhand : c.InHand i key l.attachment := hsane.settled.ready i key links next hcall l hl
      refine ⟨key, l.attachment, rfl, fun more => ?_⟩
      have hlater : (c'.run more).InHand i key l.attachment :=
        (hinhand.abandon hsane.tidy).run (hsane.tidy.apply (.abandon i)) (abandon_over hi).1
      exact ⟨hlater.opened, hlater.attached⟩
    | _ => exact absurd hmem List.not_mem_nil

/-- The transaction is endorsed, its listener is attached on both peers, and an orderer is asked. -/
def sentForOrdering : List Move :=
  [.endorsed 1 (.ok (Answer.collect (.ofMillis 30000) answering)), .requestStream 1,
    .streamOpened 1, .resume 1 128]

/-- A submission that is given up while the orderer is asked takes its two sessions and its mailbox
with it; the feed that it shared goes on with the session of the other listener. -/
theorem given_up_while_ordering :
    let c₀ := (new twoByTwo ⟨"org", []⟩ .default).run listenerBefore
    let c := c₀.run (.submit calling :: sentForOrdering)
    let c' := c.apply (.abandon c₀.nextCall)
    Proper [] (new twoByTwo ⟨"org", []⟩ .default)
        (listenerBefore ++ .submit calling :: sentForOrdering) ∧
      c.call? c₀.nextCall ≠ none ∧ c.Open (.commit (.mailbox 0)) 1 ∧ c'.Released 1 ∧
      c'.Released 2 ∧ c'.registered? (.commit (.mailbox 0)) = none ∧
      (∃ f, c'.table.feed? 1 = some f ∧ f.phase = .stopped) ∧
      ∃ f, c'.table.feed? 0 = some f ∧ f.phase = .streaming ∧ f.sessions = [0] := by
  intro c₀ c c'
  have hproper : Proper [] (new twoByTwo ⟨"org", []⟩ .default)
      (listenerBefore ++ .submit calling :: sentForOrdering) := by decide +kernel
  have hunderway : c.call? c₀.nextCall ≠ none := by
    have hthere : (c.call? c₀.nextCall).isSome = true := by decide +kernel
    exact Option.isSome_iff_ne_none.1 hthere
  have hsessions : gather (spawned c₀.nextCall) c₀ (.submit calling :: sentForOrdering) =
      [1, 2] := by
    decide +kernel
  have hmailboxes : gather (opens c₀.nextCall) c₀ (.submit calling :: sentForOrdering) = [0] := by
    decide +kernel
  have hleft : c.leaves (.abandon c₀.nextCall) = [] := by decide +kernel
  have hopen : (c.sessions[1]?).map (fun s => (s.removed, s.audience.key)) =
      some (false, .commit (.mailbox 0)) := by decide +kernel
  have hfeed : (c'.table.feed? 0).map (fun f => (f.phase, f.sessions)) =
      some (.streaming, [0]) := by
    decide +kernel
  have hother : (c'.table.feed? 1).map (·.sessions) = some [] := by decide +kernel
  obtain ⟨hreleased, hremoved, hstopped, -⟩ := given_up_leaves_pending twoByTwo ⟨"org", []⟩ .default
    listenerBefore (.submit calling) sentForOrdering rfl hproper hunderway
  obtain ⟨s, hs, heq⟩ := Option.map_eq_some_iff.1 hopen
  obtain ⟨g, hg, hnone⟩ := Option.map_eq_some_iff.1 hother
  obtain ⟨f, hf, hphase⟩ := Option.map_eq_some_iff.1 hfeed
  have hnot (j : Nat) : j ∉ c.leaves (.abandon c₀.nextCall) := by
    rw [hleft]
    exact List.not_mem_nil
  refine ⟨hproper, hunderway, ⟨s, hs, congrArg Prod.fst heq, congrArg Prod.snd heq⟩,
    hreleased 1 ?_ (hnot 1), hreleased 2 ?_ (hnot 2), hremoved 0 ?_,
    ⟨g, hg, (hstopped 1 g hg fun j hj => ?_).1⟩, f, hf, congrArg Prod.fst hphase,
    congrArg Prod.snd hphase⟩
  · rw [hsessions]
    simp
  · rw [hsessions]
    simp
  · rw [hmailboxes]
    simp
  · rw [hnone] at hj
    exact (List.not_mem_nil hj).elim

/-- A commit listener is given up while it is attached, a block listener while it reads its
checkpoint, a submission while its listener is attached: what they have made takes deliveries on
running feeds, the listeners stay registered, and adding them again attaches nothing. -/
theorem left_behind_when_given_up :
    let adding := lone.run [addOne "l", .requestStream 0, .abandon 0]
    let o : ListenerOptions := { checkpointer := some "checkpoint" }
    let reading := lone.run [.addListener (.blocks (.app "l")) o, .abandon 0]
    let submitting := (new twoByTwo ⟨"org", []⟩ .default).run
      [.submit calling, .endorsed 0 (.ok (Answer.collect (.ofMillis 30000) answering)), .abandon 0]
    adding.sessions.map (·.removed) = [false] ∧
      adding.table.feeds.map (fun f => (f.phase, f.sessions)) = [(.connecting, [0])] ∧
      adding.registered? (.commit (.app "l")) = some [] ∧
      ((adding.apply (addOne "l")).sessions.length = 1 ∧
        (adding.apply (addOne "l")).calls.map (·.1) = []) ∧
      reading.registered? (.blocks (.app "l")) = some [] ∧
      ((reading.apply (.addListener (.blocks (.app "l")) o)).sessions.length = 0 ∧
        (reading.apply (.addListener (.blocks (.app "l")) o)).calls.map (·.1) = []) ∧
      submitting.sessions.map (·.removed) = [false, false] ∧
      submitting.table.feeds.map (fun f => (f.phase, f.sessions)) =
        [(.launching, [0]), (.launching, [1])] := by
  decide +kernel

end Client

end LedgerClient
