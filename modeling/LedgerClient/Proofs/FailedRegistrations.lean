import LedgerClient.Proofs.Absence
import LedgerClient.Proofs.Steps

/-!
# Failed registrations

A block or contract listener is registered before its checkpoint is read and before it is known
whether there is a peer to attach it to. If either fails, the registration is taken back, and what
the client did meanwhile, it would have done without the call (`Client.Reads.run`,
`Client.Beside.fail`). So the client is the one without the call, but for the call's number and its
requests, and stays so in whatever follows (`Client.failed_registration_changes_nothing`).
-/

namespace LedgerClient.Client

/-- A client is in use all along a run. -/
def InUse : Client → List Move → Prop
  | c, [] => ¬ c.Unused
  | c, m :: ms => ¬ c.Unused ∧ InUse (c.apply m) ms

instance decidableInUse : ∀ (c : Client) (ms : List Move), Decidable (InUse c ms)
  | c, [] => inferInstanceAs (Decidable (¬ c.Unused))
  | c, m :: ms =>
    have := decidableInUse (c.apply m) ms
    inferInstanceAs (Decidable (¬ c.Unused ∧ InUse (c.apply m) ms))

/-- A move adds what is registered already. -/
def Repeats (c : Client) : Move → Prop
  | .addListener s _ => c.registered? s.key ≠ none
  | .addCommitListener l _ _ => c.registered? (.commit l) ≠ none
  | _ => False

variable {i : Nat} {key : ListenerKey} {s : Subject} {o : ListenerOptions} {e : ListenError}
  {a b c : Client} {m : Move} {ms : List Move}

theorem InUse.start (h : c.InUse ms) : ¬ c.Unused := by
  cases ms with
  | nil => exact h
  | cons m ms => exact h.1

theorem nextCall_le_run (hc : c.Tidy) (ms : List Move) : c.nextCall ≤ (c.run ms).nextCall := by
  induction ms generalizing c with
  | nil => exact Nat.le_refl _
  | cons m ms ih => exact Nat.le_trans (nextCall_le_apply hc m) (ih (hc.apply m))

/-! ## Before the call and after it -/

theorem Beside.call?_eq_none (h : Beside i none a b) : a.call? i = none := by
  rw [Option.eq_none_iff_forall_ne_some]
  intro call hcall
  obtain ⟨entry, hentry, -⟩ := Option.map_eq_some_iff.1 hcall
  have hi : entry.1 = i := by simpa using List.find?_some hentry
  exact (h.reading entry (List.mem_of_find?_eq_some hentry) hi).1 rfl

/-- When the call is over, every move leads to the same without it. -/
theorem Beside.apply_over (h : Beside i none a b) (hnew : m.isCall = true → a.nextCall ≠ i) :
    Beside i none (a.apply m) (b.apply m) := by
  by_cases hm : m.call? = some i
  · have hb : b.call? i = none := by rw [h.eq, call?_without_self]
    rwa [apply_eq_of_gone hm h.call?_eq_none, apply_eq_of_gone hm hb]
  · exact h.apply hm hnew (by simp) (by simp) (by simp) fun hclaim => absurd rfl hclaim

theorem Beside.run (h : Beside i none a b) (ha : a.Tidy) (hi : i < a.nextCall) (ms : List Move) :
    Beside i none (a.run ms) (b.run ms) := by
  induction ms generalizing a b with
  | nil => exact h
  | cons m ms ih =>
    exact ih (h.apply_over fun _ => Nat.ne_of_gt hi) (ha.apply m)
      (Nat.lt_of_lt_of_le hi (nextCall_le_apply ha m))

/-- Before a call is made there is nothing of it. -/
theorem Beside.run_before (h : Beside i none c c) (hc : c.Tidy) (hi : (c.run ms).nextCall ≤ i) :
    Beside i none (c.run ms) (c.run ms) := by
  induction ms generalizing c with
  | nil => exact h
  | cons m ms ih =>
    refine ih (h.apply_over fun hnew => Nat.ne_of_lt ?_) (hc.apply m) hi
    exact Nat.lt_of_lt_of_le (nextCall_lt_of_isCall hc hnew)
      (Nat.le_trans (nextCall_le_run (hc.apply m) ms) hi)

theorem beside_before (channel : Channel) (identity : Identity) (options : Options)
    (past : List Move) : Beside ((new channel identity options).run past).nextCall none
      ((new channel identity options).run past) ((new channel identity options).run past) :=
  Beside.run_before ⟨rfl, by simp [new], by simp [new]⟩ (tidy_new channel identity options)
    (Nat.le_refl _)

/-! ## The call fails -/

theorem Beside.ends {claim : Option ListenerKey} (h : Beside i claim a b)
    (hfree : ∀ r ∈ a.registrations, some r.1 ≠ claim) (hused : ¬ b.Unused) (r : CallResult) :
    Beside i none (a.finish i r) b := by
  let ended : Client :=
    { a with calls := a.calls.filter (·.1 ≠ i) }.send (.finished i r)
  have hended : Beside i none ended b := by
    refine ⟨?_, fun entry hentry hi => ?_, fun r _ hnone => by cases hnone⟩
    · have hall : a.registrations.filter (some ·.1 ≠ claim) = a.registrations :=
        List.filter_eq_self.2 fun r hr => by simpa using hfree r hr
      rw [h.eq, without, hall, without_none]
      simp [ended, forget, Client.send, Request.IsOf]
    · exact absurd hi (by simpa using (List.mem_filter.1 hentry).2)
  have hdown := hended.tearDownIfUnused fun hclaim => absurd rfl hclaim
  rwa [tearDownIfUnused_of_used hused] at hdown

theorem Beside.fail (h : Beside i (some key) a b) (hused : ¬ b.Unused) (r : CallResult) :
    Beside i none ((a.unregister key).finish i r) b := by
  have hremoved : Beside i (some key) (a.unregister key) b := by
    have hb : b.unregister key = b := by
      unfold Client.unregister
      rw [h.eq, registered?_without_self]
    exact hb ▸ h.unregister key
  refine hremoved.ends (fun r hr heq => ?_) hused r
  obtain ⟨_, _, _, hfilter⟩ := a.unregister_eq key
  rw [hfilter] at hr
  exact absurd (Option.some.inj heq) (by simpa using (List.mem_filter.1 hr).2)

/-! ## The call is bound to succeed -/

/-- A call that has attached its listener waits for its link, or is over. -/
structure Bound (i : Nat) (c : Client) : Prop where
  named : i < c.nextCall
  call : c.call? i = none ∨ ∃ key links, c.call? i = some (.linking key links .added)

/-- A call that follows its links waits on, or says that the listener was added. -/
theorem followLinks_added (b : Client) (i : Nat) (key : ListenerKey) (links : List Link) :
    let b' := b.followLinks i key links .added
    (b'.outbox = b.outbox ∧ ∃ links, b'.call? i = some (.linking key links .added)) ∨
      b'.outbox = b.outbox ++ [.finished i .added] ∧ b'.call? i = none := by
  unfold followLinks
  dsimp only
  split_ifs
  · obtain ⟨hsent, hgone, -⟩ :=
      (b.complete key ((b.progress links).map (·.attachment))).finish_cases i .added
    exact Or.inr ⟨hsent.trans (by rw [(b.complete_outbox key _).1]), hgone⟩
  · exact Or.inl ⟨rfl, _, b.call?_setCall_self _⟩

/-- A move in which a call follows its links says nothing of it, or that the listener was added. -/
theorem bound_of_followLinks {key : ListenerKey} {links : List Link}
    (hb : c.apply m = b.followLinks i key links .added) (hout : b.outbox = c.outbox)
    (hnamed : i < (c.apply m).nextCall) :
    (c.apply m).Bound i ∧ ∀ r ∈ (Log.of i c m).results, r = .added := by
  rcases b.followLinks_added i key links with ⟨hsent, links', hcall⟩ | ⟨hsent, hgone⟩ <;>
    rw [← hb, hout] at hsent
  · rw [← hb] at hcall
    have hnone := (log_of_waiting (i := i) (hsent.trans (List.append_nil _).symm) (by simp)).2.2
    exact ⟨⟨hnamed, Or.inr ⟨key, links', hcall⟩⟩, by simp [hnone]⟩
  · rw [← hb] at hgone
    exact ⟨⟨hnamed, Or.inl hgone⟩, by simp [(log_of_finished hsent).2.2]⟩

theorem Bound.apply (h : c.Bound i) (hc : c.Tidy) (m : Move) :
    (c.apply m).Bound i ∧ ∀ r ∈ (Log.of i c m).results, r = .added := by
  have hnamed : i < (c.apply m).nextCall := Nat.lt_of_lt_of_le h.named (nextCall_le_apply hc m)
  by_cases hm : c.actor m = i
  · rcases h.call with hgone | ⟨key, links, hcall⟩
    · have hover : c.Over i := ⟨h.named, hgone⟩
      exact ⟨⟨hnamed, Or.inl (hover.apply hc m).1.gone⟩, by simp [log_of_gone hc hover, Log.empty]⟩
    · rcases apply_of_linking hcall h.named hm with hsame | rfl | ⟨room, rfl⟩
      · have hsilent := (views_of_silent (i := i) (by rw [sent_eq_nil hsame]; simp)).2.2
        rw [hsame, hsilent]
        exact ⟨h, by simp⟩
      · obtain ⟨hover, hout⟩ := abandon_over h.named
        have hsilent := (log_of_waiting (c := c) (m := .abandon i) (i := i)
          (hout.trans (List.append_nil _).symm) (by simp)).2.2
        exact ⟨⟨hnamed, Or.inl hover.gone⟩, by simp [hsilent]⟩
      · have hfollows : c.apply (.resume i room) = c.followLinks i key links .added := by
          simp only [Client.apply, resume, hcall]
        exact bound_of_followLinks hfollows rfl hnamed
  · rw [log_of_other hc hm]
    refine ⟨⟨hnamed, ?_⟩, by simp⟩
    rw [call?_apply hc hm]
    exact h.call

theorem Bound.results (h : c.Bound i) (hc : c.Tidy) (ms : List Move) :
    ∀ r ∈ (log i c ms).results, r = .added := by
  induction ms generalizing c with
  | nil => simp [log, Log.empty]
  | cons m ms ih =>
    obtain ⟨hnext, hresults⟩ := h.apply hc m
    intro r hr
    rw [log, Log.results_append, List.mem_append] at hr
    exact hr.elim (hresults r) (ih hnext (hc.apply m) r)

/-! ## The call reads its checkpoint -/

/-- A call reads the checkpoint of a listener that no other call adds; the second client is the
first one without the call and its registration. -/
structure Reads (i : Nat) (s : Subject) (a b : Client) : Prop where
  sane : a.Sane
  named : i < a.nextCall
  beside : Beside i (some s.key) a b
  call : ∃ o, a.call? i = some (.readingCheckpoint s.key o)
  alone : ∀ j, j ≠ i → ¬ a.Adding s.key j

theorem Reads.other (h : Reads i s a b) (hm : a.actor m ≠ i) (hnot : ∀ o, m ≠ .addListener s o)
    (hused : ¬ (b.apply m).Unused) :
    Reads i s (a.apply m) (b.apply m) ∧ (Log.of i a m).results = [] := by
  have hadds : s.key ∉ a.adds m := key_not_mem_adds hnot
  have hown : m.call? ≠ some i := fun hcall => hm (actor_of_call hcall)
  refine ⟨⟨h.sane.apply m, Nat.lt_of_lt_of_le h.named (nextCall_le_apply h.sane.tidy m), ?_, ?_,
    fun j hj hadding => h.alone j hj (call_key_back h.sane.tidy hadds hadding)⟩,
    by rw [log_of_other h.sane.tidy hm]⟩
  · refine h.beside.apply hown (fun _ => Nat.ne_of_gt h.named) (fun k hk heq => ?_)
      (fun l heq => ?_) (fun j hj call hcall k hk heq => ?_) fun _ => hused
    · exact hadds (Option.some.inj heq ▸ hk)
    · exact s.key_ne_commit l (Option.some.inj heq)
    · exact h.alone j hj ⟨call, hcall, Option.some.inj heq ▸ hk⟩
  · rw [call?_apply h.sane.tidy hm]
    exact h.call

/-- The listener is attached, or the call fails and leaves nothing. -/
theorem Beside.attaches {b' : Client} (h : Beside i (some s.key) b' b) (hused : ¬ b.Unused)
    {start : Option Nat} (hb : a.apply m = b'.attachListener i s.key o start)
    (hout : b'.outbox = a.outbox) (hnamed : i < (a.apply m).nextCall) :
    Beside i none (a.apply m) b ∨
      (a.apply m).Bound i ∧ ∀ r ∈ (Log.of i a m).results, r = .added := by
  rcases attachListener_cases b' i s.key o start with ⟨r, heq⟩ | ⟨table, agenda, x, -, heq⟩
  · exact Or.inl (hb.trans heq ▸ h.fail hused r)
  · refine Or.inr (bound_of_followLinks (hb.trans heq) ?_ hnamed)
    exact hout

/-- The call reads on, fails and leaves nothing, or is given up or bound to succeed. -/
theorem Reads.own (h : Reads i s a b) (hm : a.actor m = i) (hused : ¬ b.Unused) :
    b.apply m = b ∧ (Reads i s (a.apply m) b ∧ (Log.of i a m).results = [] ∨
      Beside i none (a.apply m) b ∨
        (a.apply m).Bound i ∧ ∀ r ∈ (Log.of i a m).results, r = .added) := by
  have hown := call?_of_actor hm h.named
  have hnamed : i < (a.apply m).nextCall :=
    Nat.lt_of_lt_of_le h.named (nextCall_le_apply h.sane.tidy m)
  refine ⟨apply_eq_of_gone hown (by rw [h.beside.eq, call?_without_self]), ?_⟩
  obtain ⟨o, hcall⟩ := h.call
  obtain ⟨hsame, -⟩ | ⟨rfl, -⟩ | ⟨call, a', hcall', ha', hgoes⟩ := a.call_cases hown
  · refine Or.inl ⟨by rwa [hsame], (views_of_silent (i := i) ?_).2.2⟩
    rw [sent_eq_nil hsame]
    simp
  · obtain ⟨hover, hout⟩ := abandon_over h.named
    have hsilent := (log_of_waiting (c := a) (m := .abandon i) (i := i)
      (hout.trans (List.append_nil _).symm) (by simp)).2.2
    exact Or.inr (Or.inr ⟨⟨hnamed, Or.inl hover.gone⟩, by simp [hsilent]⟩)
  · obtain rfl := Option.some.inj (hcall.symm.trans hcall')
    cases hgoes with
    | attaches _ _ position => exact Or.inr (h.beside.attaches hused ha' rfl hnamed)
    | unread _ _ e => exact Or.inr (Or.inl (ha' ▸ h.beside.fail hused _))

/-- When the call has failed, the client is as without it. -/
theorem Reads.run (h : Reads i s a b) (hfails : .notAdded e ∈ (log i a ms).results)
    (hnot : ∀ o, .addListener s o ∉ ms) (hused : b.InUse ms) :
    Beside i none (a.run ms) (b.run ms) := by
  induction ms generalizing a b with
  | nil => simp [log, Log.empty] at hfails
  | cons m ms ih =>
    have hrest : ∀ o, .addListener s o ∉ ms := fun o hmem => hnot o (List.mem_cons_of_mem _ hmem)
    obtain ⟨hnow, hlater⟩ := hused
    have hsane := h.sane.apply m
    have hnamed := Nat.lt_of_lt_of_le h.named (nextCall_le_apply h.sane.tidy m)
    rw [log, Log.results_append, List.mem_append] at hfails
    by_cases hm : a.actor m = i
    · obtain ⟨hb, hcase⟩ := h.own hm hnow
      rw [run_cons, run_cons, hb]
      rw [hb] at hlater
      rcases hcase with ⟨hreads, hnone⟩ | hover | ⟨hbound, hadded⟩
      · refine ih hreads (hfails.resolve_left ?_) hrest hlater
        simp [hnone]
      · exact hover.run hsane.tidy hnamed ms
      · rcases hfails with hnow | hlater
        · cases hadded _ hnow
        · cases hbound.results hsane.tidy ms _ hlater
    · obtain ⟨hreads, hnone⟩ := h.other hm
        (fun o heq => hnot o (heq ▸ List.mem_cons_self)) hlater.start
      refine ih hreads (hfails.resolve_left ?_) hrest hlater
      simp [hnone]

/-! ## The call begins -/

theorem Beside.claims (h : Beside i none a b) (hfree : a.registered? key = none) :
    Beside i (some key) (a.reserve key) b := by
  have hnone : ∀ r ∈ a.registrations, r.1 ≠ key := by simpa [registered?] using hfree
  refine ⟨?_, fun entry hentry hi => absurd rfl (h.reading entry hentry hi).1,
    fun r hr hclaim => ?_⟩
  · have hall : a.registrations.filter (some ·.1 ≠ some key) = a.registrations :=
      List.filter_eq_self.2 fun r hr => by simpa using hnone r hr
    rw [h.eq, without_none]
    simp only [without, Client.reserve, List.filter_append, hall]
    simp [forget]
  · rcases List.mem_append.1 hr with hr | hr
    · exact absurd (Option.some.inj hclaim) (hnone r hr)
    · rw [List.mem_singleton.1 hr]

theorem Beside.reads (h : Beside i (some key) a b) (o : ListenerOptions) (name : String) :
    Beside i (some key)
      ((a.setCall i (.readingCheckpoint key o)).send (.readCheckpoint i name)) b := by
  refine ⟨?_, fun entry hentry hi => ?_, h.bare⟩
  · rw [h.eq]
    simp [without, forget, Client.setCall, Client.send, Request.IsOf]
  · rcases List.mem_append.1 hentry with hentry | hentry
    · exact h.reading entry (List.mem_of_mem_filter hentry) hi
    · exact ⟨by simp, key, o, by rw [List.mem_singleton.1 hentry]⟩

theorem addListener_registered {as : List Attachment} (h : c.registered? s.key = some as)
    (o : ListenerOptions) : c.addListener s o = c.newCall.1.finish c.nextCall .added := by
  have hkey : c.newCall.1.registered? s.key = some as := h
  unfold addListener
  simp only [hkey]
  rfl

theorem addCommitListener_registered {l : ListenerId} {as : List Attachment}
    (h : c.registered? (.commit l) = some as) (peers : List Peer) (id : String) :
    c.addCommitListener l peers id = c.newCall.1.finish c.nextCall .added := by
  have hkey : c.newCall.1.registered? (.commit l) = some as := h
  unfold addCommitListener linkCommit
  simp only [hkey]
  rfl

theorem addListener_free (h : c.registered? s.key = none) (o : ListenerOptions) :
    c.addListener s o =
      match o.checkpointer with
      | some name => ((c.newCall.1.reserve s.key).setCall c.nextCall
          (.readingCheckpoint s.key o)).send (.readCheckpoint c.nextCall name)
      | none => (c.newCall.1.reserve s.key).attachListener c.nextCall s.key o o.startBlock := by
  have hkey : c.newCall.1.registered? s.key = none := h
  unfold addListener
  simp only [hkey]
  rfl

theorem registered?_of_fails (hc : c.Sane)
    (hfails : .notAdded e ∈ (log c.nextCall c (.addListener s o :: ms)).results) :
    c.registered? s.key = none := by
  rw [Option.eq_none_iff_forall_ne_some]
  intro as hkey
  have happly : c.apply (.addListener s o) = c.newCall.1.finish c.nextCall .added :=
    addListener_registered hkey o
  obtain ⟨hsent, hgone, -⟩ := c.newCall.1.finish_cases c.nextCall .added
  rw [← happly] at hsent hgone
  rw [log, Log.results_append, (log_of_finished hsent).2.2, log_of_over (hc.tidy.apply _)
    ⟨nextCall_lt_of_isCall hc.tidy rfl, hgone⟩] at hfails
  simp [Log.empty] at hfails

/-- A call that registers its listener leaves nothing when it has failed. -/
theorem Beside.addListener_fails (h : Beside c.nextCall none c c) (hc : c.Sane)
    (hidle : c.Idle s.key)
    (hfails : .notAdded e ∈ (log c.nextCall c (.addListener s o :: ms)).results)
    (hnot : ∀ o, .addListener s o ∉ ms) (hused : c.newCall.1.InUse ms) :
    Beside c.nextCall none (c.run (.addListener s o :: ms)) (c.newCall.1.run ms) := by
  have hsane := hc.apply (.addListener s o)
  have hnamed : c.nextCall < (c.apply (.addListener s o)).nextCall :=
    nextCall_lt_of_isCall hc.tidy rfl
  have hkey := registered?_of_fails hc hfails
  have happly : c.apply (.addListener s o) = _ := addListener_free hkey o
  have hclaimed : Beside c.nextCall (some s.key) (c.newCall.1.reserve s.key) c.newCall.1 :=
    h.newCall.1.claims hkey
  rw [log, Log.results_append, List.mem_append] at hfails
  cases hname : o.checkpointer with
  | some name =>
    rw [hname] at happly
    have hreads : Reads c.nextCall s (c.apply (.addListener s o)) c.newCall.1 := by
      refine ⟨hsane, hnamed, happly ▸ hclaimed.reads o name, ⟨o, ?_⟩, fun j hj hadding => ?_⟩
      · rw [happly]
        exact (c.newCall.1.reserve s.key).call?_setCall_self _
      · rw [happly] at hadding
        obtain ⟨call, hcall, hadds⟩ := hadding
        exact hidle.not_adding j
          ⟨call, (call?_setCall_ne hj (c.newCall.1.reserve s.key) _).symm.trans hcall, hadds⟩
    have hsent : (c.apply (.addListener s o)).outbox =
        c.outbox ++ [.readCheckpoint c.nextCall name] := by
      rw [happly]
      rfl
    refine hreads.run (hfails.resolve_left ?_) hnot hused
    rw [Log.of, sent_eq hsent]
    simp [Request.result?]
  | none =>
    rw [hname] at happly
    rcases hclaimed.attaches hused.start happly rfl hnamed with hover | ⟨hbound, hadded⟩
    · exact hover.run hsane.tidy hnamed ms
    · rcases hfails with hnow | hlater
      · cases hadded _ hnow
      · cases hbound.results hsane.tidy ms _ hlater

theorem registered?_run (hc : c.Tidy) (hkey : c.registered? s.key = none)
    (hnot : ∀ o, .addListener s o ∉ ms) : (c.run ms).registered? s.key = none := by
  induction ms generalizing c with
  | nil => exact hkey
  | cons m ms ih =>
    refine ih (hc.apply m) (registered?_apply hc hkey ?_)
      fun o hmem => hnot o (List.mem_cons_of_mem _ hmem)
    exact key_not_mem_adds fun o heq => hnot o (heq ▸ List.mem_cons_self)

/-- A call that adds what is registered already returns at once and leaves nothing. -/
theorem Beside.repeats (h : Beside c.nextCall none c c) (hm : c.Repeats m) (hused : ¬ c.Unused) :
    c.sent m = [.finished c.nextCall .added] ∧
      Beside c.nextCall none (c.apply m) c.newCall.1 := by
  have hends : c.apply m = c.newCall.1.finish c.nextCall .added := by
    cases m with
    | addListener s o =>
      obtain ⟨as, hkey⟩ := Option.ne_none_iff_exists'.1 hm
      exact addListener_registered hkey o
    | addCommitListener l peers id =>
      obtain ⟨as, hkey⟩ := Option.ne_none_iff_exists'.1 hm
      exact addCommitListener_registered hkey peers id
    | _ => exact hm.elim
  refine ⟨sent_eq ?_, hends ▸ h.newCall.1.ends (by simp) ?_ .added⟩
  · rw [hends]
    exact (c.newCall.1.finish_cases c.nextCall .added).1
  · exact fun hunused => hused ⟨hunused.held, hunused.calls, hunused.waits⟩

theorem Beside.forget_eq (h : Beside i none a b) : a.forget i = b := by
  rw [h.eq, without_none]

/-! ## The main statement -/

/-- **Failed registrations change nothing.**  A call adds a block or contract listener that no other
call adds, and fails, whatever happens meanwhile. Whoever makes a call holds the client until it
returns, so the client is in use without the call, too. But for the call's number and requests it
is then the client that it would be without the call: with the same registrations, feeds and
sessions, and the same streams asked for. The listener is not registered, and whatever follows goes
on as without the call.  A call that adds what is registered already returns at once that it was
added, and changes nothing; nor does the removal of what is not registered. -/
theorem failed_registration_changes_nothing (channel : Channel) (identity : Identity)
    (options : Options) (past : List Move) :
    let c := (new channel identity options).run past
    (∀ (s : Subject) (o : ListenerOptions) (e : ListenError) (during : List Move),
      c.Idle s.key → (∀ o, .addListener s o ∉ during) → c.newCall.1.InUse during →
      .notAdded e ∈ (log c.nextCall c (.addListener s o :: during)).results →
      let a := c.run (.addListener s o :: during)
      let b := c.newCall.1.run during
      a.forget c.nextCall = b ∧ a.registered? s.key = none ∧
        ∀ later, (a.run later).forget c.nextCall = b.run later) ∧
    (∀ m, c.Repeats m → ¬ c.Unused → c.sent m = [.finished c.nextCall .added] ∧
      (c.apply m).forget c.nextCall = c.newCall.1) ∧
    ∀ key, c.registered? key = none → c.apply (.remove key) = c := by
  intro c
  have hc : c.Sane := sane_run channel identity options past
  have hbefore : Beside c.nextCall none c c := beside_before channel identity options past
  refine ⟨fun s o e during hidle hnot hused hfails => ?_, fun m hm hused => ?_, fun key hkey => ?_⟩
  · have hover := hbefore.addListener_fails hc hidle hfails hnot hused
    have hsane : (c.run (.addListener s o :: during)).Sane := hc.run _
    have hnamed : c.nextCall < (c.run (.addListener s o :: during)).nextCall :=
      Nat.lt_of_lt_of_le (nextCall_lt_of_isCall hc.tidy rfl)
        (nextCall_le_run (hc.tidy.apply _) during)
    have hkey : c.registered? s.key = none := registered?_of_fails hc hfails
    have htidy : c.newCall.1.Tidy := (@act_newCall c.nextCall (fun _ => True) c).tidy hc.tidy
    have hfree : (c.newCall.1.run during).registered? s.key = none :=
      registered?_run htidy hkey hnot
    refine ⟨hover.forget_eq, ?_, fun later => (hover.run hsane.tidy hnamed later).forget_eq⟩
    rw [← hover.forget_eq] at hfree
    exact hfree
  · obtain ⟨hsent, hover⟩ := hbefore.repeats hm hused
    exact ⟨hsent, hover.forget_eq⟩
  · simp only [Client.apply, unregister, hkey]

/-- One listener is on the shared feed. -/
def oneListening : List Move :=
  [.addListener (.blocks (.app "l")) {}, .requestStream 0, .streamOpened 0, .resume 0 128]

/-- A block arrives, another listener is added, and the checkpoint cannot be read. -/
def meanwhile : List Move :=
  [.blockArrived 0 blockOfTx, .addListener (.blocks (.app "k")) {},
    .checkpointRead 1 (.error (.storage "unreadable"))]

/-- The listener whose checkpoint cannot be read leaves nothing beside the two others, one of which
is added again without effect. -/
theorem unread_beside_others :
    let s : Subject := .events "cc" (.app "m")
    let c := lone.run oneListening
    let a := c.run (.addListener s { checkpointer := some "checkpoint" } :: meanwhile)
    let again : Move := .addListener (.blocks (.app "l")) { startBlock := some 5 }
    c.Idle s.key ∧ c.newCall.1.InUse meanwhile ∧
      a.registrations.map (·.1) = [.blocks (.app "l"), .blocks (.app "k")] ∧
      a.forget c.nextCall = c.newCall.1.run meanwhile ∧
      (a.run [.takeNext 0]).forget c.nextCall = c.newCall.1.run (meanwhile ++ [.takeNext 0]) ∧
      c.sent again = [.finished c.nextCall .added] ∧
      (c.apply again).forget c.nextCall = c.newCall.1 ∧ c.apply (.remove s.key) = c := by
  intro s c a again
  have hidle : c.Idle s.key := by decide +kernel
  have hnot (o : ListenerOptions) : .addListener s o ∉ meanwhile := by simp [meanwhile, s]
  have hused : c.newCall.1.InUse meanwhile := by decide +kernel
  have hfails : .notAdded (.checkpoint (.storage "unreadable")) ∈ (log c.nextCall c
      (.addListener s { checkpointer := some "checkpoint" } :: meanwhile)).results := by
    decide +kernel
  have hregistered : a.registrations.map (·.1) = [.blocks (.app "l"), .blocks (.app "k")] := by
    decide +kernel
  have hrepeats : c.registered? (.blocks (.app "l")) ≠ none := by decide +kernel
  obtain ⟨hfailed, hrepeated, hremoved⟩ :=
    failed_registration_changes_nothing onePeer ⟨"org", []⟩ .default oneListening
  obtain ⟨hsame, -, hlater⟩ := hfailed s _ _ meanwhile hidle hnot hused hfails
  obtain ⟨hsent, hunchanged⟩ := hrepeated again hrepeats (by decide +kernel)
  refine ⟨hidle, hused, hregistered, hsame, ?_, hsent, hunchanged,
    hremoved s.key (by decide +kernel)⟩
  rw [run_append]
  exact hlater [.takeNext 0]

end LedgerClient.Client
