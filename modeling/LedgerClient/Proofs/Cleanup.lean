import LedgerClient.Proofs.Submissions
import LedgerClient.Proofs.Works

/-!
# What a submission leaves

A submitted transaction makes sessions for the mailbox of its wait. They are in its hands while it
waits for links, then they are under the key of the mailbox or released, and when it returns they
are all released and the key is gone (`Client.Tends`). In its moves it handles no other key, so that
whatever else is registered goes on as if it had not been there (`Client.submission_cleans_up`).
-/

namespace LedgerClient

namespace Client

/-- The sessions that a call makes in a move. -/
def spawned (i : Nat) (c : Client) (m : Move) : List Nat :=
  if c.actor m = i then
    List.range' c.sessions.length ((c.apply m).sessions.length - c.sessions.length)
  else []

/-- The numbers of the mailboxes that a call opens in a move. -/
def opens (i : Nat) (c : Client) (m : Move) : List Nat :=
  if c.actor m = i then List.range' c.nextMailbox ((c.apply m).nextMailbox - c.nextMailbox) else []

/-- The key of one of the mailboxes. -/
def MailboxKey (ns : List Nat) (key : ListenerKey) : Prop := ∃ n ∈ ns, key = .commit (.mailbox n)

/-- The wait `w` has the mailbox that was opened, and the sessions that were made are under its key,
unless they were released. -/
def Keeps (w : Nat) (js ns : List Nat) (c : Client) : Prop :=
  ∃ wait, c.waits[w]? = some wait ∧ ns = wait.listener.toList ∧
    ∀ j ∈ js, ∃ n ∈ wait.listener, c.Under (.commit (.mailbox n)) j ∨ c.Released j

/-- How the submission `i` stands to the sessions `js` that it has made and to the mailboxes `ns`
that it has opened. -/
inductive Tends (i : Nat) (js ns : List Nat) (c : Client) : Prop
  | endorsing {p : Proposal} {asked : Option Quorum} (call : c.call? i = some (.endorsing p asked))
      (sessions : js = []) (mailboxes : ns = [])
  | linking {n w : Nat} {links : List Link} {r : OrderRequest} {payload : Bytes} {wait : Wait}
      (call : c.call? i = some (.linking (.commit (.mailbox n)) links (.order r payload w)))
      (there : c.waits[w]? = some wait) (listener : wait.listener = some n)
      (sessions : ∀ j ∈ js, ∃ l ∈ links, l.attachment.session = j) (mailboxes : ns = [n])
  | ordering {w : Nat} {r : OrderRequest} {payload : Bytes} {route : OrderRoute}
      (call : c.call? i = some (.ordering r payload w route)) (keeps : c.Keeps w js ns)
  | confirming {w : Nat} {q : Quorum} {t : Tally} {payload : Option Bytes}
      (call : c.call? i = some (.confirming w q t payload)) (keeps : c.Keeps w js ns)
  | ended (gone : c.call? i = none) (released : ∀ j ∈ js, c.Released j)
      (removed : ∀ n ∈ ns, c.registered? (.commit (.mailbox n)) = none)

/-- A submission goes on without making sessions or opening mailboxes, and handles no key but that
of its mailbox. -/
structure Tended (i : Nat) (js ns : List Nat) (c c' : Client) : Prop where
  works : Works i (MailboxKey ns) c c'
  length : c'.sessions.length = c.sessions.length
  nextMailbox : c'.nextMailbox = c.nextMailbox
  tends : c'.Tends i js ns

variable {i w : Nat} {js ns : List Nat} {b c c' : Client} {m : Move}

/-! ## The course of a submission -/

theorem Tended.of_tasks (htasks : Tasks i (MailboxKey ns) c b)
    (hlength : b.sessions.length = c.sessions.length) (hnext : b.nextMailbox = c.nextMailbox)
    (h : Tended i js ns b c') : Tended i js ns c c' :=
  ⟨.of_tasks htasks h.works, h.length.trans hlength, h.nextMailbox.trans hnext, h.tends⟩

theorem Keeps.mails (h : c.Keeps w js ns) : c.Mails (MailboxKey ns) w := by
  obtain ⟨wait, hwait, rfl, -⟩ := h
  intro wait' n hwait' hn
  obtain rfl := Option.some.inj (hwait.symm.trans hwait')
  exact ⟨n, by simp [hn], rfl⟩

theorem Keeps.of_same (h : c.Keeps w js ns) (htable : c'.table = c.table)
    (hsessions : c'.sessions = c.sessions) (hregistrations : c'.registrations = c.registrations)
    (hwaits : (c'.waits[w]?).map (·.listener) = (c.waits[w]?).map (·.listener)) :
    c'.Keeps w js ns := by
  obtain ⟨wait, hwait, hns, hjs⟩ := h
  rw [hwait, Option.map_some, Option.map_eq_some_iff] at hwaits
  obtain ⟨wait', hwait', hlistener⟩ := hwaits
  rw [← hlistener] at hns hjs
  refine ⟨wait', hwait', hns, fun j hj => ?_⟩
  obtain ⟨n, hn, hcase⟩ := hjs j hj
  refine ⟨n, hn, hcase.imp (under_of_registrations hregistrations).2 fun hreleased => ?_⟩
  exact ⟨hsessions ▸ hreleased.removed, fun hf => hreleased.off (htable ▸ hf)⟩

/-- What happens to the mailbox of a wait leaves its listener. -/
theorem Keeps.modify (h : c.Keeps w js ns) {f : Wait → Wait}
    (hf : ∀ wait, (f wait).listener = wait.listener) : (c.modifyWait w f).Keeps w js ns := by
  refine h.of_same rfl rfl rfl ?_
  obtain ⟨wait, hwait, -⟩ := h
  simp [modifyWait, hwait, hf]

/-- A wait that is dropped loses its mailbox, and what was under its key is released. -/
theorem Keeps.drop (h : c.Keeps w js ns) (hc : c.Tidy) (hs : c.Settled (· = i)) :
    (c.dropWait w).sessions.length = c.sessions.length ∧
      (c.dropWait w).nextMailbox = c.nextMailbox ∧ (∀ j ∈ js, (c.dropWait w).Released j) ∧
      ∀ n ∈ ns, (c.dropWait w).registered? (.commit (.mailbox n)) = none := by
  obtain ⟨wait, hwait, rfl, hjs⟩ := h
  cases hlistener : wait.listener with
  | none =>
    have heq : ∃ waits, c.dropWait w = { c with waits } := by
      simp only [dropWait, cancelWait, wait?, hwait, hlistener]
      exact ⟨_, rfl⟩
    obtain ⟨waits, heq⟩ := heq
    rw [heq]
    refine ⟨rfl, rfl, fun j hj => ?_, by simp⟩
    obtain ⟨n, hn, -⟩ := hjs j hj
    rw [hlistener] at hn
    cases hn
  | some n =>
    have hdrop : ∃ waits, c.dropWait w =
        { c.unregister (.commit (.mailbox n)) with waits } := by
      simp only [dropWait, cancelWait, wait?, hwait, hlistener]
      exact ⟨_, rfl⟩
    obtain ⟨waits, hdrop⟩ := hdrop
    obtain ⟨table, sessions, agenda, heq⟩ := c.unregister_eq (.commit (.mailbox n))
    have hsheds := c.sheds_unregister (.commit (.mailbox n))
    rw [hdrop]
    refine ⟨hsheds.length, by rw [heq], fun j hj => ?_, fun n' hn' => ?_⟩
    · have hreleased : (c.unregister (.commit (.mailbox n))).Released j := by
        obtain ⟨n', hn', hunder | hreleased⟩ := hjs j hj <;>
          obtain rfl := Option.some.inj (hlistener.symm.trans hn')
        · exact (hs.unregister hc.sound _).2 j hunder
        · exact hreleased.sheds hsheds
      exact ⟨hreleased.removed, hreleased.off⟩
    · obtain rfl : n' = n := by simpa using hn'
      change (c.unregister (.commit (.mailbox n'))).registered? (.commit (.mailbox n')) = none
      rw [heq]
      exact registered?_filter.trans (if_pos rfl)

theorem Keeps.finish (h : c.Keeps w js ns) (hc : c.Tidy) (hs : c.Settled (· = i))
    (r : CallResult) : Tended i js ns c ((c.dropWait w).finish i r) := by
  obtain ⟨hlength, hnext, hreleased, hremoved⟩ := h.drop hc hs
  obtain ⟨_, _, _, heq⟩ := (c.dropWait w).finish_eq (i := i) r
  have hdeeds : Deeds i (fun _ => False) (fun _ => False) (fun _ => True) (c.dropWait w)
      ((c.dropWait w).finish i r) := deeds_finish _ r
  have hacts : Acts i (fun _ => True) (c.dropWait w) ((c.dropWait w).finish i r) :=
    acts_finish _ r
  refine ⟨works_drop_finish h.mails r, (Deeds.length_eq hdeeds).trans hlength,
    by rw [heq]; exact hnext,
    .ended ((c.dropWait w).finish_cases i r).2.1 (fun j hj => hacts.released (hreleased j hj))
      fun n hn => ?_⟩
  by_contra hne
  exact (Deeds.registered? hdeeds hne).elim (fun h => h (hremoved n hn)) id

theorem Keeps.ask (h : c.Keeps w js ns) (r : OrderRequest) (payload : Bytes) (route : OrderRoute) :
    Tended i js ns c ((c.setCall i (.ordering r payload w route)).send (.order i route r)) :=
  ⟨works_set_send c (fun _ _ _ => by simp) rfl, rfl, rfl,
    .ordering (c.call?_setCall_self _) (h.of_same rfl rfl rfl rfl)⟩

theorem Keeps.lookAt (h : c.Keeps w js ns) (hc : c.Tidy) (hs : c.Settled (· = i)) (room : Nat)
    (q : Quorum) (t : Tally) (payload : Option Bytes) :
    Tended i js ns c (c.lookAt i w room q t payload) := by
  have hthere := h
  obtain ⟨wait, hwait, -⟩ := hthere
  have hnote : Task i (MailboxKey ns) c (c.modifyWait w (·.drop room)) :=
    task_modifyWait c w (·.drop room)
  have hkeeps : (c.modifyWait w (·.drop room)).Keeps w js ns := h.modify fun _ => rfl
  refine .of_tasks (.single hnote) rfl rfl ?_
  unfold Client.lookAt wait?
  rw [hwait]
  dsimp only
  split
  · exact ⟨works_set _ (fun _ _ _ => by simp), rfl, rfl,
      .confirming (call?_setCall_self ..) (hkeeps.of_same rfl rfl rfl rfl)⟩
  · exact hkeeps.finish (hnote.act.tidy hc) (hnote.settled hc.sound hs) _

theorem Keeps.confirm (h : c.Keeps w js ns) (hc : c.Tidy) (hs : c.Settled (· = i))
    (payload : Option Bytes) : Tended i js ns c (c.confirm i w payload) := by
  have hthere := h
  obtain ⟨wait, hwait, -⟩ := hthere
  unfold Client.confirm wait?
  rw [hwait]
  dsimp only
  split
  · exact ⟨works_set_send c (fun _ _ _ => by simp) rfl, rfl, rfl,
      .confirming (c.call?_setCall_self _) (h.of_same rfl rfl rfl rfl)⟩
  · exact h.finish hc hs _

theorem Keeps.orderStep (h : c.Keeps w js ns) (hc : c.Tidy) (hs : c.Settled (· = i))
    (r : OrderRequest) (payload : Bytes) (s : OrderStep) :
    Tended i js ns c (c.orderStep i r payload w s) := by
  rcases s with route | (e | reply)
  · exact h.ask r payload route
  · exact h.finish hc hs _
  · simp only [Client.orderStep]
    split_ifs
    · exact h.confirm hc hs _
    · exact h.finish hc hs _

/-- What is in the hands of the call goes under the key of its mailbox once the first attempts are
over, and the transaction is ordered. -/
theorem tended_followLinks {n : Nat} {links : List Link} {r : OrderRequest} {payload : Bytes}
    {wait : Wait} (hc : c.Tidy) (hs : c.Settled (· = i)) (hwait : c.waits[w]? = some wait)
    (hlistener : wait.listener = some n)
    (hlinks : ∀ l ∈ links, c.InHand i (.commit (.mailbox n)) l.attachment)
    (hjs : ∀ j ∈ js, ∃ l ∈ links, l.attachment.session = j) :
    Tended i js [n] c (c.followLinks i (.commit (.mailbox n)) links (.order r payload w)) := by
  have hprogress := inHand_progress hlinks
  have hjs' : ∀ j ∈ js, ∃ l ∈ c.progress links, l.attachment.session = j := fun j hj => by
    obtain ⟨l, hl, rfl⟩ := hjs j hj
    exact ⟨_, note_mem_progress hl, rfl⟩
  have howned : MailboxKey [n] (.commit (.mailbox n)) := ⟨n, List.mem_singleton_self n, rfl⟩
  have hmails : c.Mails (MailboxKey [n]) w := fun wait' n' hwait' hn' => by
    obtain rfl := Option.some.inj (hwait.symm.trans hwait')
    obtain rfl := Option.some.inj (hlistener.symm.trans hn')
    exact howned
  have hworks : Works i (MailboxKey [n]) c
      (c.followLinks i (.commit (.mailbox n)) links (.order r payload w)) :=
    works_followLinks howned hlinks fun v hv => Option.some.inj hv ▸ hmails
  unfold Client.followLinks at hworks ⊢
  dsimp only at hworks ⊢
  split_ifs at hworks ⊢
  · let as := (c.progress links).map (·.attachment)
    have has : ∀ a ∈ as, c.InHand i (.commit (.mailbox n)) a := fun a ha => by
      obtain ⟨l, hl, rfl⟩ := List.mem_map.1 ha
      exact hprogress l hl
    have htask : Task i (MailboxKey [n]) c (c.complete (.commit (.mailbox n)) as) :=
      .completes _ as howned has
    obtain ⟨hsettled, hplaced⟩ := hs.complete hc.sound has
    obtain ⟨_, _, _, _, heq⟩ := c.complete_eq (.commit (.mailbox n)) as
    have hlength : (c.complete (.commit (.mailbox n)) as).sessions.length = c.sessions.length := by
      have hdeeds : Deeds i (fun _ => False) (fun _ => False) (fun _ => False) c
          (c.complete (.commit (.mailbox n)) as) := .single (.completes _ as)
      exact Deeds.length_eq hdeeds
    have hkeeps : (c.complete (.commit (.mailbox n)) as).Keeps w js [n] := by
      refine ⟨wait, by rw [heq]; exact hwait, by rw [hlistener]; rfl, fun j hj => ?_⟩
      obtain ⟨l, hl, rfl⟩ := hjs' j hj
      exact ⟨n, hlistener, hplaced _ (List.mem_map_of_mem hl)⟩
    refine .of_tasks (.single htask) hlength (by rw [heq]) ?_
    rcases (c.complete (.commit (.mailbox n)) as).proceed_order_cases i r payload w with
      ⟨route, hproceed⟩ | ⟨e, hproceed⟩
    · exact hproceed ▸ hkeeps.ask r payload route
    · exact hproceed ▸ hkeeps.finish (htask.act.tidy hc) hsettled _
  · exact ⟨hworks, rfl, rfl, .linking (c.call?_setCall_self _) hwait hlistener hjs' rfl⟩

theorem tended_finish (c : Client) (i : Nat) (r : CallResult) :
    Tended i [] [] c (c.finish i r) := by
  obtain ⟨_, _, _, heq⟩ := c.finish_eq (i := i) r
  have hdeeds : Deeds i (fun _ => False) (fun _ => False) (fun _ => True) c (c.finish i r) :=
    deeds_finish _ r
  exact ⟨works_finish c r, Deeds.length_eq hdeeds, by rw [heq],
    .ended (c.finish_cases i r).2.1 (fun _ hj => (List.not_mem_nil hj).elim)
      fun _ hn => (List.not_mem_nil hn).elim⟩

theorem tended_submit (c : Client) (inv : Invocation) :
    Tended c.nextCall [] [] c (c.apply (.submit inv)) := by
  have hnew : Task c.nextCall (MailboxKey []) c c.newCall.1 := task_newCall c
  refine .of_tasks (.single hnew) rfl rfl ?_
  change Tended c.nextCall [] [] c.newCall.1 (c.submit inv)
  unfold submit
  dsimp only
  split
  · exact tended_finish c.newCall.1 _ _
  · split
    · exact tended_finish c.newCall.1 _ _
    · exact ⟨works_set_send _ (fun _ _ _ => by simp) rfl, rfl, rfl,
        .endorsing (c.newCall.1.call?_setCall_self _) rfl rfl⟩

/-! ## The moves of a submission -/

/-- A move of a submission: it handles the mailboxes that it has opened, and tends what it has
made. -/
structure Attends (i : Nat) (js ns : List Nat) (c : Client) (m : Move) : Prop where
  works : Works i (MailboxKey (ns ++ c.opens i m)) c (c.apply m)
  tends : (c.apply m).Tends i (js ++ c.spawned i m) (ns ++ c.opens i m)

/-- First the call makes sessions and opens mailboxes, then it goes on with them. -/
theorem Attends.of_tended {k l : Nat} {js' ns' : List Nat} (hactor : c.actor m = i)
    (htasks : Tasks i (MailboxKey ns') c b) (hlength : b.sessions.length = c.sessions.length + k)
    (hnext : b.nextMailbox = c.nextMailbox + l) (h : Tended i js' ns' b (c.apply m))
    (hjs : js' = js ++ List.range' c.sessions.length k)
    (hns : ns' = ns ++ List.range' c.nextMailbox l) : Attends i js ns c m := by
  have hspawned : c.spawned i m = List.range' c.sessions.length k := by
    unfold spawned
    rw [if_pos hactor, h.length, hlength, Nat.add_sub_cancel_left]
  have hopens : c.opens i m = List.range' c.nextMailbox l := by
    unfold opens
    rw [if_pos hactor, h.nextMailbox, hnext, Nat.add_sub_cancel_left]
  subst hjs hns
  exact ⟨hopens ▸ .of_tasks htasks h.works, hspawned ▸ hopens ▸ h.tends⟩

theorem Tended.attends (h : Tended i js ns c (c.apply m)) (hactor : c.actor m = i) :
    Attends i js ns c m :=
  .of_tended (k := 0) (l := 0) hactor .refl rfl rfl h (List.append_nil _).symm
    (List.append_nil _).symm

theorem Attends.linkCommit {waits : List Wait} {wait : Wait} {r : OrderRequest} {payload : Bytes}
    {peers : List Peer} {id : String} (hc : c.Sane) (hactor : c.actor m = i) (hi : i < c.nextCall)
    (hfree : c.registered? (.commit (.mailbox c.nextMailbox)) = none)
    (hwait : waits[w]? = some wait) (hlistener : wait.listener = some c.nextMailbox)
    (happly : c.apply m = ({ c with waits, nextMailbox := c.nextMailbox + 1 } : Client).linkCommit i
      (.mailbox c.nextMailbox) peers id (.order r payload w)) : Attends i [] [] c m := by
  let n := c.nextMailbox
  let b₁ : Client := { c with waits, nextMailbox := n + 1 }
  let ss := peers.zipIdx c.sessions.length
  let b₂ := (b₁.reserve (.commit (.mailbox n))).spawnEach (.mailbox n) id peers
  let b₃ := b₂.attachEach ss
  have owned : MailboxKey [n] (.commit (.mailbox n)) := ⟨n, List.mem_singleton_self n, rfl⟩
  have htask : Task i (MailboxKey [n]) c b₁ :=
    .notes rfl rfl rfl rfl (Nat.le_refl _) [] (List.append_nil _).symm (by simp)
  have htidy : b₁.Tidy := htask.act.tidy hc.tidy
  have hunattached : b₂.Unattached ss :=
    unattached_spawnEach (b₁.reserve _) (.mailbox n) id peers htidy.bounded
  have htasks : Tasks i (MailboxKey [n]) c b₃.1 :=
    .head htask (.head (.reserves _ owned hfree)
      ((tasks_spawnEach owned id peers _).trans (tasks_attachEach hunattached)))
  obtain ⟨table, agenda, hb₃⟩ := b₁.attachEach_spawnEach_eq (.mailbox n) id peers ss
  have hlinks : ∀ l ∈ b₃.2.map fun a => (⟨a, false⟩ : Link),
      b₃.1.InHand i (.commit (.mailbox n)) l.attachment := fun l hl => by
    obtain ⟨a, ha, rfl⟩ := List.mem_map.1 hl
    exact inHand_attachEach htidy hi (.mailbox n) id peers a ha
  have hjs : ∀ j ∈ List.range' c.sessions.length peers.length,
      ∃ l ∈ b₃.2.map fun a => (⟨a, false⟩ : Link), l.attachment.session = j := by
    have hsessions : b₃.2.map (·.session) = List.range' c.sessions.length peers.length := by
      rw [attachEach_session, List.zipIdx_map_snd]
    intro j hj
    rw [← hsessions] at hj
    obtain ⟨a, ha, rfl⟩ := List.mem_map.1 hj
    exact ⟨⟨a, false⟩, List.mem_map_of_mem ha, rfl⟩
  have hwaits : b₃.1.waits = waits := by
    change (b₂.attachEach ss).1.waits = _
    rw [hb₃]
  rw [← hwaits] at hwait
  refine .of_tended (k := peers.length) (l := 1) hactor htasks ?_ ?_ ?_ rfl rfl
  · change (b₂.attachEach ss).1.sessions.length = _
    rw [hb₃, List.length_append, List.length_map]
  · change (b₂.attachEach ss).1.nextMailbox = _
    rw [hb₃]
  · rw [happly.trans (linkCommit_eq b₁ i (.mailbox n) peers id _ hfree)]
    exact tended_followLinks (Acts.tidy htasks.acts hc.tidy)
      (htasks.settled hc.tidy (hc.settled.begin i)) hwait hlistener hlinks hjs

/-- The proposal was endorsed: the transaction is ordered, if need be after sessions were made for
the mailbox of its wait. -/
theorem attends_endorsed {p : Proposal} {asked : Option Quorum} {answers : List Answer}
    {verdict : Verdict} (hc : c.Sane)
    (hfree : c.registered? (.commit (.mailbox c.nextMailbox)) = none) (hi : i < c.nextCall)
    (hb : c.apply (.endorsed i (.ok answers)) =
      (c.newWait p.id (asked.or c.defaultQuorum) c.options.commitTimeout).1.openMailbox i
        c.waits.length (.order ⟨p, verdict.valid⟩ verdict.payload c.waits.length)) :
    Attends i [] [] c (.endorsed i (.ok answers)) := by
  have hactor : c.actor (.endorsed i (.ok answers)) = i := rfl
  let w := c.waits.length
  let b := (c.newWait p.id (asked.or c.defaultQuorum) c.options.commitTimeout).1
  have hw : b.waits[w]? = some ⟨p.id, asked.or c.defaultQuorum, c.options.commitTimeout,
      none, none, none, true⟩ := List.getElem?_concat_length
  rcases openMailbox_cases b i _ hw with
    ⟨-, waits, hwait, heq⟩ | ⟨q, -, -, waits, hwait, heq⟩
  · have htask : Task i (MailboxKey []) c { c with waits } :=
      .notes rfl rfl rfl rfl (Nat.le_refl _) [] (List.append_nil _).symm (by simp)
    have hkeeps : ({ c with waits } : Client).Keeps w [] [] :=
      ⟨_, hwait, rfl, fun _ hj => (List.not_mem_nil hj).elim⟩
    have hproceed := hb.trans heq
    refine .of_tended (k := 0) (l := 0) hactor (.single htask) rfl rfl ?_ rfl rfl
    rcases ({ c with waits } : Client).proceed_order_cases i ⟨p, verdict.valid⟩ verdict.payload
        w with ⟨route, hask⟩ | ⟨e, hend⟩
    · exact hproceed.trans hask ▸ hkeeps.ask _ _ route
    · exact hproceed.trans hend ▸ hkeeps.finish (htask.act.tidy hc.tidy)
        (htask.settled hc.tidy.sound (hc.settled.begin i)) _
  · exact .linkCommit hc hactor hi hfree hwait rfl (hb.trans heq)

theorem Tends.mails (h : c.Tends i js ns) {call : Call} (hcall : c.call? i = some call) :
    ∀ w ∈ call.wait?, c.Mails (MailboxKey ns) w := by
  intro w hw
  cases h with
  | endorsing there =>
    obtain rfl := Option.some.inj (hcall.symm.trans there)
    cases hw
  | @linking n w' _ _ _ wait there hwait listener _ mailboxes =>
    obtain rfl := Option.some.inj (hcall.symm.trans there)
    obtain rfl := Option.some.inj hw
    subst mailboxes
    intro wait' n' hwait' hn'
    obtain rfl := Option.some.inj (hwait.symm.trans hwait')
    obtain rfl := Option.some.inj (listener.symm.trans hn')
    exact ⟨n, List.mem_singleton_self n, rfl⟩
  | ordering there keeps =>
    obtain rfl := Option.some.inj (hcall.symm.trans there)
    exact Option.some.inj hw ▸ keeps.mails
  | confirming there keeps =>
    obtain rfl := Option.some.inj (hcall.symm.trans there)
    exact Option.some.inj hw ▸ keeps.mails
  | ended gone => exact absurd (hcall.symm.trans gone) (by simp)

theorem Tends.attends_same (h : c.Tends i js ns) (hc : c.Sane) (hactor : c.actor m = i)
    (happly : c.apply m = c) : Attends i js ns c m := by
  refine Tended.attends ?_ hactor
  rw [happly]
  exact ⟨.refl (hc.settled.ready i), rfl, rfl, h⟩

/-- A submission tends what it has made in its own moves, until it is given up. -/
theorem Tends.own (h : c.Tends i js ns) (hc : c.Sane)
    (hfree : c.registered? (.commit (.mailbox c.nextMailbox)) = none) (hactor : c.actor m = i)
    (hi : i < c.nextCall) (hkept : m ≠ .abandon i) : Attends i js ns c m := by
  obtain ⟨hsame, -⟩ | ⟨hgiven, -⟩ | ⟨call, b, hcall, hb, hgoes⟩ :=
    c.call_cases (call?_of_actor hactor hi)
  · exact h.attends_same hc hactor hsame
  · exact absurd hgiven hkept
  have hbegin := hc.settled.begin i
  -- in each phase one move is left: the one that brings what the call waits for
  cases h with
  | endorsing there sessions mailboxes =>
    obtain rfl := Option.some.inj (hcall.symm.trans there)
    subst sessions mailboxes
    cases hgoes with
    | unreached | refused => exact Tended.attends (hb ▸ tended_finish c i _) hactor
    | endorsed => exact attends_endorsed hc hfree hi hb
  | linking there hwait listener sessions mailboxes =>
    obtain rfl := Option.some.inj (hcall.symm.trans there)
    subst mailboxes
    refine Tended.attends (hb ▸ ?_) hactor
    cases hgoes
    exact tended_followLinks hc.tidy hbegin hwait listener (hc.settled.ready i _ _ _ there) sessions
  | ordering there keeps =>
    obtain rfl := Option.some.inj (hcall.symm.trans there)
    refine Tended.attends (hb ▸ ?_) hactor
    cases hgoes
    exact keeps.orderStep hc.tidy hbegin _ _ _
  | confirming there keeps =>
    obtain rfl := Option.some.inj (hcall.symm.trans there)
    refine Tended.attends (hb ▸ ?_) hactor
    cases hgoes
    exact keeps.lookAt hc.tidy hbegin _ _ _ _
  | ended gone => simp [gone] at hcall

/-! ## Moves of others -/

variable {c₀ : Client} {inv : Invocation} {mine : List Nat} {h : Log} {n : Nat}

theorem Stage.owns (hs : Stage c₀ inv i mine c h) {call : Call} (hcall : c.call? i = some call)
    (hw : call.wait? = some w) : c.Own i w mine := by
  cases hs with
  | endorsing there =>
    obtain rfl := Option.some.inj (hcall.symm.trans there)
    cases hw
  | linking there _ _ own =>
    obtain rfl := Option.some.inj (hcall.symm.trans there)
    exact Option.some.inj hw ▸ own
  | ordering sent =>
    obtain rfl := Option.some.inj (hcall.symm.trans sent.call)
    exact Option.some.inj hw ▸ sent.own
  | confirming there _ _ own =>
    obtain rfl := Option.some.inj (hcall.symm.trans there)
    exact Option.some.inj hw ▸ own
  | ended gone => exact absurd (hcall.symm.trans gone) (by simp)

theorem nextMailbox_le_apply (hc : c.Orderly mine) (m : Move) :
    c.nextMailbox ≤ (c.apply m).nextMailbox := by
  cases hfeed : m.feed? with
  | some k => exact Nat.le_of_eq (told_feed hfeed).nextMailbox.symm
  | none =>
    cases hsession : m.session? with
    | some k => exact Nat.le_of_eq (told_session hc.waits.mailboxes hsession).nextMailbox.symm
    | none => exact (Deeds.waits_le (deeds_apply c hfeed hsession)).2

/-- The key of a mailbox that was opened is not added again. -/
theorem mailbox_not_mem_adds (hm : m.Proper mine) (hn : n < c.nextMailbox) :
    .commit (.mailbox n) ∉ c.adds m := by
  intro hadds
  cases m with
  | addListener s o =>
    have hkey := List.mem_singleton.1 hadds
    cases s <;> cases hkey
  | addCommitListener l peers id =>
    have hkey := List.mem_singleton.1 hadds
    have happ := hm.2 l rfl
    obtain rfl : .mailbox n = l := by simpa using hkey
    cases happ
  | listen | endorsed =>
    have hkey := List.mem_singleton.1 hadds
    simp only [ListenerKey.commit.injEq, ListenerId.mailbox.injEq] at hkey
    omega
  | _ => exact List.not_mem_nil hadds

theorem Tends.other (ht : c.Tends i js ns) (hs : Stage c₀ inv i mine c h) (hc : c.Orderly mine)
    (hsane : c.Sane) (hm : m.Proper mine) (hactor : c.actor m ≠ i)
    (hns : ∀ n ∈ ns, n < c.nextMailbox) : (c.apply m).Tends i js ns := by
  have hcall := call?_apply hc.tidy hactor
  have hwaits {call : Call} {w : Nat} (hthere : c.call? i = some call) (hw : call.wait? = some w)
      {wait : Wait} (hwait : c.waits[w]? = some wait) :
      ∃ wait', (c.apply m).waits[w]? = some wait' ∧ wait'.listener = wait.listener :=
    ⟨wait.told (c.posts · m), by rw [(hs.owns hthere hw).wait hc hm hactor, hwait]; rfl, rfl⟩
  have hkeeps {call : Call} {w : Nat} (hthere : c.call? i = some call) (hw : call.wait? = some w)
      (keeps : c.Keeps w js ns) : (c.apply m).Keeps w js ns := by
    obtain ⟨wait, hwait, hns, hjs⟩ := keeps
    obtain ⟨wait', hwait', hlistener⟩ := hwaits hthere hw hwait
    rw [← hlistener] at hns hjs
    have hused : ¬ (c.apply m).Unused := fun hunused =>
      absurd ((hcall.trans hthere).symm.trans (hunused.call?_eq_none i)) (by simp)
    refine ⟨wait', hwait', hns, fun j hj => ?_⟩
    obtain ⟨n, hn, hcase⟩ := hjs j hj
    exact ⟨n, hn, under_or_released_apply hsane hused hcase⟩
  cases ht with
  | endorsing there sessions mailboxes => exact .endorsing (hcall.trans there) sessions mailboxes
  | linking there hwait listener sessions mailboxes =>
    obtain ⟨wait', hwait', hlistener⟩ := hwaits there rfl hwait
    exact .linking (hcall.trans there) hwait' (hlistener.trans listener) sessions mailboxes
  | ordering there keeps => exact .ordering (hcall.trans there) (hkeeps there rfl keeps)
  | confirming there keeps => exact .confirming (hcall.trans there) (hkeeps there rfl keeps)
  | ended gone released removed =>
    exact .ended (hcall.trans gone) (fun j hj => (released j hj).apply hc.tidy m) fun n hn =>
      registered?_apply hc.tidy (removed n hn) (mailbox_not_mem_adds hm (hns n hn))

/-! ## The run of a submission -/

/-- A submission tends what it has made, or it was given up. -/
def Tending (i : Nat) (js ns : List Nat) (c : Client) (h : Log) : Prop :=
  (c.Tends i js ns ∧ ∀ n ∈ ns, n < c.nextMailbox) ∨ c.call? i = none ∧ h.results = []

theorem opens_lt (hn : n ∈ c.opens i m) : n < (c.apply m).nextMailbox := by
  unfold opens at hn
  split_ifs at hn
  · have hrange := List.mem_range'_1.1 hn
    omega
  · exact (List.not_mem_nil hn).elim

theorem Orderly.mailbox_free (hc : c.Orderly mine) :
    c.registered? (.commit (.mailbox c.nextMailbox)) = none := by
  by_contra hne
  exact Nat.lt_irrefl _ (hc.waits.keys hne)

theorem Tending.apply (ht : Tending i js ns c h) (hs : Stage c₀ inv i mine c h)
    (hc : c.Orderly mine) (hsane : c.Sane) (hi : i < c.nextCall) (hm : m.Proper mine) :
    Tending i (js ++ c.spawned i m) (ns ++ c.opens i m) (c.apply m) (h ++ .of i c m) := by
  have hresults {h : Log} (hnone : h.results = []) (hlog : Log.of i c m = .empty) :
      (h ++ Log.of i c m).results = [] := by
    rw [hlog, Log.append_empty, hnone]
  rcases ht with ⟨htends, hns⟩ | ⟨hgone, hnone⟩
  · have hns' : ∀ n ∈ ns ++ c.opens i m, n < (c.apply m).nextMailbox := fun n hn => by
      rcases List.mem_append.1 hn with hn | hn
      · exact Nat.lt_of_lt_of_le (hns n hn) (nextMailbox_le_apply hc m)
      · exact opens_lt hn
    by_cases hactor : c.actor m = i
    · by_cases hkept : m = .abandon i
      · subst hkept
        by_cases hcall : c.call? i = none
        · refine Or.inl ⟨(htends.attends_same hsane hactor ?_).tends, hns'⟩
          exact apply_eq_of_gone rfl hcall
        · refine Or.inr ⟨(abandon_over hi).1.gone, ?_⟩
          exact hresults (hs.results hcall) (log_of_abandon hi)
      · exact Or.inl ⟨(htends.own hsane hc.mailbox_free hactor hi hkept).tends, hns'⟩
    · have hsame : c.spawned i m = [] ∧ c.opens i m = [] := ⟨if_neg hactor, if_neg hactor⟩
      rw [hsame.2] at hns' ⊢
      rw [hsame.1, List.append_nil, List.append_nil]
      rw [List.append_nil] at hns'
      exact Or.inl ⟨htends.other hs hc hsane hm hactor hns, hns'⟩
  · have hover : c.Over i := ⟨hi, hgone⟩
    exact Or.inr ⟨(hover.apply hc.tidy m).1.gone, hresults hnone (log_of_gone hc.tidy hover)⟩

theorem Tending.run {ms : List Move} (ht : Tending i js ns c h) (hs : Stage c₀ inv i mine c h)
    (hc : c.Orderly mine) (hsane : c.Sane) (hsetup : c.setup = c₀.setup) (hi : i < c.nextCall)
    (hms : Proper mine c ms) : Tending i (js ++ gather (spawned i) c ms)
      (ns ++ gather (opens i) c ms) (c.run ms) (h ++ log i c ms) := by
  induction ms generalizing c h mine js ns with
  | nil =>
    rw [gather, gather, log, List.append_nil, List.append_nil, Log.append_empty]
    exact ht
  | cons m ms ih =>
    rw [gather, gather, log, ← List.append_assoc, ← List.append_assoc, ← Log.append_assoc]
    exact ih (ht.apply hs hc hsane hi hms.1) (hs.next hc hsetup hi hms.1).stage (hc.apply hms.1)
      (hsane.apply m) ((setup_apply hc.waits.mailboxes m).trans hsetup)
      (Nat.lt_of_lt_of_le hi (nextCall_le_apply hc.tidy m)) hms.2

/-- A move of a submission handles only the mailboxes that it has opened, also when it is given
up. -/
theorem Tending.works (ht : Tending i js ns c h) (hc : c.Orderly mine) (hsane : c.Sane)
    (hactor : c.actor m = i) (hi : i < c.nextCall) :
    Works i (MailboxKey (ns ++ c.opens i m)) c (c.apply m) := by
  rcases ht with ⟨htends, -⟩ | ⟨hgone, -⟩
  · by_cases hkept : m = .abandon i
    · subst hkept
      refine works_abandon fun call hcall w hw wait n hwait hn => ?_
      obtain ⟨n', hn', hkey⟩ := htends.mails hcall w hw wait n hwait hn
      exact ⟨n', List.mem_append_left _ hn', hkey⟩
    · exact (htends.own hsane hc.mailbox_free hactor hi hkept).works
  · rw [apply_eq_of_gone (call?_of_actor hactor hi) hgone]
    exact .refl (hsane.settled.ready i)

theorem Tending.submitted {ms : List Move} (hc : c₀.Orderly mine) (hsane : c₀.Sane)
    (hms : Proper mine c₀ (.submit inv :: ms)) :
    Tending c₀.nextCall (gather (spawned c₀.nextCall) c₀ (.submit inv :: ms))
      (gather (opens c₀.nextCall) c₀ (.submit inv :: ms)) (c₀.run (.submit inv :: ms))
      (log c₀.nextCall c₀ (.submit inv :: ms)) := by
  have hattends : Attends c₀.nextCall [] [] c₀ (.submit inv) := (tended_submit c₀ inv).attends rfl
  have hacts : Acts c₀.nextCall (fun _ => True) c₀.newCall.1 (c₀.apply (.submit inv)) :=
    acts_submit c₀ inv
  rw [gather, gather, log]
  refine Tending.run (c := c₀.apply (.submit inv)) (Or.inl ⟨hattends.tends, fun n => opens_lt⟩)
    (Stage.submit c₀ inv _).1 (hc.apply hms.1) (hsane.apply _)
    (setup_apply hc.waits.mailboxes _) hacts.sends.1 hms.2

/-- A feed whose sessions are all released has none left: it is stopped and not shared. -/
theorem Sane.deserted (hc : c.Sane) {k : Nat} {f : Feed} (hf : c.table.feed? k = some f)
    (hreleased : ∀ j ∈ f.sessions, c.Released j) :
    f.phase = .stopped ∧ ∀ key, (key, k) ∉ c.table.shared := by
  have hnone : f.sessions = [] := List.eq_nil_iff_forall_not_mem.2 fun j hj =>
    (hreleased j hj).off hf hj
  have hstopped := (hc.settled.staffed.manned.busy hf).resolve_right fun h => h.2 hnone
  refine ⟨hstopped, fun key hkey => ?_⟩
  obtain ⟨g, hg, hruns, -⟩ := hc.tidy.sound.runs hkey
  obtain rfl := Option.some.inj (hf.symm.trans hg)
  rw [FeedTable.not_isRunning_of_stopped hstopped] at hruns
  cases hruns

/-- A submission leaves what others have registered alone, in each of its moves. -/
theorem frame_submitted {ms before after : List Move} (hc : c₀.Orderly mine) (hsane : c₀.Sane)
    (hms : Proper mine c₀ (.submit inv :: ms)) (heq : .submit inv :: ms = before ++ m :: after)
    (hactor : (c₀.run before).actor m = c₀.nextCall) :
    ∃ b, (c₀.run before).Frame (MailboxKey (gather (opens c₀.nextCall) c₀ (before ++ [m]))) b ∧
      ((c₀.run before).apply m = b ∨ (c₀.run before).apply m = b.tearDownIfUnused) := by
  cases before with
  | nil =>
    obtain ⟨rfl, -⟩ := List.cons.inj heq
    have hworks : Works c₀.nextCall
        (MailboxKey (gather (opens c₀.nextCall) c₀ ([] ++ [.submit inv]))) c₀
        (c₀.apply (.submit inv)) := works_submit c₀ inv
    exact hworks.frame hsane
  | cons m' before =>
    obtain ⟨rfl, rfl⟩ := List.cons.inj heq
    have hbefore : Proper mine c₀ (.submit inv :: before) := (proper_append hms).1
    have hworks := (Tending.submitted hc hsane hbefore).works (hc.run hbefore) (hsane.run _)
      hactor (Stage.submitted hc hbefore).2.2
    have hlast : gather (opens c₀.nextCall) (c₀.run (.submit inv :: before)) [m] =
        opens c₀.nextCall (c₀.run (.submit inv :: before)) m := List.append_nil _
    rw [gather_append, hlast]
    exact hworks.frame (hsane.run _)

/-- When a submission has returned, well or with an error, whatever else has happened meanwhile, it
leaves nothing behind.

All sessions that it made are removed and on no feed, and the keys of its mailboxes are gone. A feed
with no other sessions is stopped and not shared. And whatever it did, it left the registrations and
the sessions of others alone: in each of its moves these stay as they are and on their feeds, which
go on, but for the move with which it leaves a client that nobody else holds. -/
theorem submission_cleans_up (channel : Channel) (identity : Identity) (options : Options)
    (past : List Move) (inv : Invocation) (ms : List Move)
    (proper : Proper [] (new channel identity options) (past ++ .submit inv :: ms))
    (returned : (log ((new channel identity options).run past).nextCall
      ((new channel identity options).run past) (.submit inv :: ms)).results ≠ []) :
    let c₀ := (new channel identity options).run past
    let i := c₀.nextCall
    let c := c₀.run (.submit inv :: ms)
    let sessions := gather (spawned i) c₀ (.submit inv :: ms)
    (∀ j ∈ sessions, c.Released j) ∧
    (∀ n ∈ gather (opens i) c₀ (.submit inv :: ms), c.registered? (.commit (.mailbox n)) = none) ∧
    (∀ k f, c.table.feed? k = some f → (∀ j ∈ f.sessions, j ∈ sessions) →
      f.phase = .stopped ∧ ∀ key, (key, k) ∉ c.table.shared) ∧
    ∀ before m after, .submit inv :: ms = before ++ m :: after → (c₀.run before).actor m = i →
      ∃ b, (c₀.run before).Frame (MailboxKey (gather (opens i) c₀ (before ++ [m]))) b ∧
        ((c₀.run before).apply m = b ∨ (c₀.run before).apply m = b.tearDownIfUnused) := by
  intro c₀ i c sessions
  obtain ⟨hpast, hms⟩ := proper_append proper
  have hc : c₀.Orderly (gather made (new channel identity options) past) :=
    (orderly_new channel identity options).run hpast
  have hsane : c₀.Sane := sane_run channel identity options past
  have hend : c.Sane := hsane.run _
  obtain ⟨hstage, -, hnamed⟩ := Stage.submitted hc hms
  obtain ⟨htends, -⟩ := (Tending.submitted hc hsane hms).resolve_right fun h => returned h.2
  have hgone : c.call? i = none := by
    by_contra hcall
    exact returned (hstage.results hcall)
  obtain ⟨hreleased, hremoved⟩ : (∀ j ∈ sessions, c.Released j) ∧
      ∀ n ∈ gather (opens i) c₀ (.submit inv :: ms),
        c.registered? (.commit (.mailbox n)) = none := by
    cases htends with
    | ended _ released removed => exact ⟨released, removed⟩
    | endorsing call => exact absurd (hgone.symm.trans call) (by simp)
    | linking call => exact absurd (hgone.symm.trans call) (by simp)
    | ordering call => exact absurd (hgone.symm.trans call) (by simp)
    | confirming call => exact absurd (hgone.symm.trans call) (by simp)
  exact ⟨hreleased, hremoved,
    fun k f hf honly => hend.deserted hf fun j hj => hreleased j (honly j hj),
    fun before m after heq hactor => frame_submitted hc hsane hms heq hactor⟩

/-- A listener of another transaction is on the feed of the first peer. -/
def listenerBefore : List Move :=
  [.addCommitListener (.app "l") [⟨"p1", "org", "", .all⟩] "other", .requestStream 0,
    .streamOpened 0, .resume 0 128]

/-- The transaction is submitted, shares that feed, and is confirmed by both peers. -/
def submittedBeside : List Move :=
  [.endorsed 1 (.ok (Answer.collect (.ofMillis 30000) answering)), .requestStream 1,
    .streamOpened 1, .resume 1 128, .ordered 1 (.ok ⟨OrderReply.accepted, ""⟩),
    .blockArrived 0 blockOfTx, .takeNext 0, .takeNext 1, .resume 1 128, .blockArrived 1 blockOfTx,
    .takeNext 2, .resume 1 128]

/-- The submission makes a session on the feed of each peer. When it has returned, these are off,
the feed that was its own is stopped, and the other goes on with the listener's session. -/
theorem listener_outlives_submission :
    let c₀ := (new twoByTwo ⟨"org", []⟩ .default).run listenerBefore
    let c := c₀.run (.submit calling :: submittedBeside)
    Proper [] (new twoByTwo ⟨"org", []⟩ .default)
        (listenerBefore ++ .submit calling :: submittedBeside) ∧
      (log c₀.nextCall c₀ (.submit calling :: submittedBeside)).results ≠ [] ∧
      c.Released 1 ∧ c.Released 2 ∧ c.registered? (.commit (.mailbox 0)) = none ∧
      (∃ f, c.table.feed? 1 = some f ∧ f.phase = .stopped) ∧
      ∃ f, c.table.feed? 0 = some f ∧ f.phase = .streaming ∧ f.sessions = [0] := by
  intro c₀ c
  have hproper : Proper [] (new twoByTwo ⟨"org", []⟩ .default)
      (listenerBefore ++ .submit calling :: submittedBeside) := by decide +kernel
  have hreturned : (log c₀.nextCall c₀ (.submit calling :: submittedBeside)).results ≠ [] := by
    decide +kernel
  have hsessions : gather (spawned c₀.nextCall) c₀ (.submit calling :: submittedBeside) =
      [1, 2] := by
    decide +kernel
  have hmailboxes : gather (opens c₀.nextCall) c₀ (.submit calling :: submittedBeside) = [0] := by
    decide +kernel
  have hfeed : (c.table.feed? 0).map (fun f => (f.phase, f.sessions)) = some (.streaming, [0]) := by
    decide +kernel
  have hother : (c.table.feed? 1).map (·.sessions) = some [] := by decide +kernel
  obtain ⟨hreleased, hremoved, hstopped, -⟩ := submission_cleans_up twoByTwo ⟨"org", []⟩ .default
    listenerBefore calling submittedBeside hproper hreturned
  obtain ⟨g, hg, hnone⟩ := Option.map_eq_some_iff.1 hother
  obtain ⟨f, hf, hphase⟩ := Option.map_eq_some_iff.1 hfeed
  refine ⟨hproper, hreturned, hreleased 1 ?_, hreleased 2 ?_, hremoved 0 ?_,
    ⟨g, hg, (hstopped 1 g hg fun j hj => ?_).1⟩, f, hf, congrArg Prod.fst hphase,
    congrArg Prod.snd hphase⟩
  · rw [hsessions]
    simp
  · rw [hsessions]
    simp
  · rw [hmailboxes]
    simp
  · rw [hnone] at hj
    exact (List.not_mem_nil hj).elim

end Client

end LedgerClient
