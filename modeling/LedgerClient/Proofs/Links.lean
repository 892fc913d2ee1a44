import LedgerClient.Proofs.Pending

/-!
# Links of a call

A call that has attached sessions comes back once no feed of theirs is in its first attempt.  What
is known by then follows from the turns that such a feed took since a session came to it
(`Client.Linked`): a stream is open or the session was told of a failure, unless the feed was
resting already and has not tried again, or its stream came to a clean end (`Silent`).
-/

namespace LedgerClient

/-- What becomes of an attempt to stream. -/
inductive Turn where
  | opened
  | failed
  | ended
  deriving DecidableEq, Repr

/-- The turn that a feed takes in a move. -/
def Move.turn? : Move → Option Turn
  | .streamOpened _ => some .opened
  | .streamRefused _ _ | .streamBroke _ _ => some .failed
  | .streamEnded _ => some .ended
  | _ => none

/-- Whether a delivery is the failure of a peer. -/
def Delivery.isFaultOf (peer : String) : Delivery → Bool
  | .fault f => f.peer = peer
  | .block _ _ => false

/-- The request by which a call goes on when its listener is attached. -/
def Request.returns (i : Nat) : AfterLink → Request → Bool
  | .added, .finished k .added => k = i
  | .listening, .finished k .listening => k = i
  | .order _ _ _, .order k _ _ => k = i
  | _, _ => false

instance (f : Feed) (m : Move) : Decidable (f.Admits m) := by
  cases m <;> unfold Feed.Admits <;> infer_instance

namespace Client

/-- The turn that a feed takes in a move, if it moves. -/
def turn (a : Nat) (c : Client) (m : Move) : List Turn :=
  if m.feed? = some a ∧ ∃ f ∈ c.table.feed? a, f.Admits m then m.turn?.toList else []

/-- What a move puts into the queue of a session. -/
def received (j : Nat) (c : Client) (m : Move) : List Delivery :=
  match c.sessions[j]?, (c.apply m).sessions[j]? with
  | some s, some s' => s'.queue.drop s.queue.length
  | _, _ => []

/-- A stream of the feed is open and the session is on it. -/
def Live (a j : Nat) (c : Client) : Prop :=
  ∃ f ∈ c.table.feed? a, f.phase = .streaming ∧ j ∈ f.sessions ∧
    ∃ s ∈ c.sessions[j]?, s.removed = false

/-- The feed was stopped. -/
def Stopped (a : Nat) (c : Client) : Prop := ∃ f ∈ c.table.feed? a, f.phase = .stopped

instance (a j : Nat) (c : Client) : Decidable (c.Live a j) :=
  inferInstanceAs (Decidable (∃ f ∈ c.table.feed? a, f.phase = .streaming ∧ j ∈ f.sessions ∧
    ∃ s ∈ c.sessions[j]?, s.removed = false))

instance (a : Nat) (c : Client) : Decidable (c.Stopped a) :=
  inferInstanceAs (Decidable (∃ f ∈ c.table.feed? a, f.phase = .stopped))

end Client

namespace Session

theorem foldl_deliver (ds : List Delivery) {s : Session} (hr : s.removed = false) :
    (ds.foldl deliver s).queue = s.queue ++ ds ∧ (ds.foldl deliver s).removed = false := by
  rw [foldl_deliver_eq, if_pos hr]
  exact ⟨rfl, hr⟩

theorem after_le (s : Session) (m : Move) :
    (s.after m).removed = s.removed ∧ (s.after m).queue.length ≤ s.queue.length := by
  cases m with
  | takeNext j =>
    refine ⟨s.removed_take, ?_⟩
    change s.take.queue.length ≤ _
    rcases s.take_cases with ⟨ht, -⟩ | ⟨-, -, ht⟩ | ⟨d, rest, -, -, hq, ht⟩
    · exact Nat.le_of_eq (congrArg (·.queue.length) ht)
    · have hnil : s.take.queue = [] := by rw [ht]
      exact hnil ▸ Nat.zero_le _
    · have hrest : s.take.queue = rest := by
        rcases ht with ⟨-, ht⟩ | ⟨-, ht⟩
        · rw [ht, queue_follow]
        · rw [ht]
      rw [hrest, hq]
      exact Nat.le_succ _
  | answer j r =>
    exact ⟨s.removed_answer r, Nat.le_of_eq (congrArg List.length (s.queue_answer r))⟩
  | _ => exact ⟨rfl, Nat.le_refl _⟩

end Session

/-! ## Turns -/

/-- How a feed stands after the turns that it took from the phase `p` on. -/
structure Course (p : FeedPhase) (ts : List Turn) (q : FeedPhase) : Prop where
  streaming : q = .streaming ↔ ts.getLast? = some .opened ∨ ts = [] ∧ p = .streaming
  before : ts = [] → p = .launching ∨ p = .connecting → q = .launching ∨ q = .connecting

/-- The turns leave a listener without a stream and without word: no attempt has failed, and the
feed was resting from the start or its last stream came to a clean end. -/
def Silent (p : FeedPhase) (ts : List Turn) : Prop :=
  .failed ∉ ts ∧
    (ts.getLast? = some .ended ∨ ts = [] ∧ (p = .resting true ∨ p = .resting false))

instance (p : FeedPhase) (ts : List Turn) : Decidable (Silent p ts) :=
  inferInstanceAs (Decidable (_ ∧ (_ ∨ _ ∧ (_ ∨ _))))

namespace Course

variable {p q : FeedPhase} {ts : List Turn}

theorem start (p : FeedPhase) : Course p [] p := ⟨by simp, fun _ => id⟩

/-- A turn that opens no stream leaves none open. -/
theorem turned {t : Turn} (ht : t ≠ .opened) (hq : q ≠ .streaming) : Course p (ts ++ [t]) q := by
  refine ⟨⟨fun h => absurd h hq, ?_⟩, fun h => by simp at h⟩
  rintro (h | ⟨h, -⟩)
  · rw [List.getLast?_concat, Option.some.injEq] at h
    exact absurd h ht
  · simp at h

theorem after {f : Feed} {m : Move} (h : Course p ts f.phase) (hm : f.Admits m)
    (r : ReconnectOptions) : Course p (ts ++ m.turn?.toList) (f.after r m).phase := by
  cases m with
  | requestStream i =>
    have hno : f.phase ≠ .streaming := by
      rcases hm with heq | ⟨failed, heq⟩ <;> simp [heq]
    rw [show (Move.requestStream i).turn?.toList = [] from rfl, List.append_nil]
    refine ⟨⟨fun hq => ?_, fun hq => absurd (h.streaming.2 hq) hno⟩, fun _ _ => Or.inr rfl⟩
    cases hq
  | streamOpened i =>
    refine ⟨⟨fun _ => Or.inl List.getLast?_concat, fun _ => rfl⟩, fun hts => ?_⟩
    simp [Move.turn?] at hts
  | streamRefused i e => exact turned (by decide) (by simp [Feed.after, Feed.rest])
  | streamBroke i e => exact turned (by decide) (by simp [Feed.after, Feed.rest])
  | streamEnded i => exact turned (by decide) (by simp [Feed.after, Feed.rest])
  | blockArrived i b =>
    rw [show (Move.blockArrived i b).turn?.toList = [] from rfl, List.append_nil]
    exact h
  | _ => exact hm.elim

end Course

/-! ## A link of a call -/

namespace Client

variable {i k : Nat} {c c' : Client} {m : Move}

theorem turn_of_ne {a : Nat} (hm : m.feed? ≠ some a) : c.turn a m = [] := if_neg fun h => hm h.1

theorem turn_of_admits {a : Nat} {f : Feed} (hm : m.feed? = some a) (hf : c.table.feed? a = some f)
    (hadmits : f.Admits m) : c.turn a m = m.turn?.toList := if_pos ⟨hm, f, hf, hadmits⟩

theorem received_eq {j : Nat} {s s' : Session} (hs : c.sessions[j]? = some s)
    (hs' : (c.apply m).sessions[j]? = some s') :
    c.received j m = s'.queue.drop s.queue.length := by
  simp only [received, hs, hs']

theorem received_eq_nil {j : Nat} (h : (c.apply m).sessions[j]? = c.sessions[j]?) :
    c.received j m = [] := by
  unfold received
  split
  · next s s' hs hs' =>
    rw [h, hs, Option.some.injEq] at hs'
    rw [hs', List.drop_length]
  · rfl

/-- A link that a call waits for: the session is the call's own and on its feed, whose turns and
failures since it came there are `ts` and among `ds`. -/
structure Linked (i : Nat) (l : Link) (peer : String) (p : FeedPhase) (ts : List Turn)
    (ds : List Delivery) (c : Client) : Prop where
  tidy : c.Tidy
  aside : c.Aside i l.attachment.session
  session : ∃ s, c.sessions[l.attachment.session]? = some s ∧ s.removed = false
  feed : ∃ f, c.table.feed? l.attachment.feed = some f ∧ f.peer.name = peer ∧
    l.attachment.session ∈ f.sessions ∧ (f.phase = .stopped ∨ Course p ts f.phase ∧
      (l.attempted = true → ts = [] → p ≠ .launching ∧ p ≠ .connecting))
  told : ds.any (·.isFaultOf peer) = true ↔ .failed ∈ ts

section Linked

variable {l : Link} {peer : String} {p : FeedPhase} {ts : List Turn} {ds : List Delivery}

theorem Linked.of_untouched (h : c.Linked i l peer p ts ds) (htidy : c'.Tidy)
    (haside : c'.Aside i l.attachment.session)
    (hsession : ∃ s, c'.sessions[l.attachment.session]? = some s ∧ s.removed = false)
    (hfeed : ∀ a f, c.table.feed? a = some f → l.attachment.session ∈ f.sessions →
      ∃ f', c'.table.feed? a = some f' ∧ f'.peer = f.peer ∧ l.attachment.session ∈ f'.sessions ∧
        (f'.phase = f.phase ∨ f'.phase = .stopped)) : c'.Linked i l peer p ts ds := by
  obtain ⟨f, hf, hpeer, hj, hcourse⟩ := h.feed
  obtain ⟨f', hf', hpeer', hj', hp⟩ := hfeed _ f hf hj
  refine ⟨htidy, haside, hsession, ⟨f', hf', by rw [hpeer', hpeer], hj', ?_⟩, h.told⟩
  rcases hp with hp | hp
  · rw [hp]
    exact hcourse
  · exact Or.inl hp

theorem faults_hands {f : Feed} (m : Move) :
    (f.hands m).any (·.isFaultOf f.peer.name) = true ↔ .failed ∈ m.turn?.toList := by
  cases m <;> simp [Feed.hands, Move.turn?, Delivery.isFaultOf]

/-- A feed that moves hands its failures to the session. -/
theorem Linked.feed_move (h : c.Linked i l peer p ts ds) (hm : m.feed? = some k) :
    (c.apply m).Linked i l peer p (ts ++ c.turn l.attachment.feed m)
      (ds ++ c.received l.attachment.session m) := by
  have htidy := h.tidy.apply m
  have haside := h.aside.apply h.tidy (actor_ne_of_feed hm h.aside.named)
  obtain ⟨s, hs, hr⟩ := h.session
  obtain ⟨f, hf, hpeer, hj, hcourse⟩ := h.feed
  rcases feed_move_cases (c := c) hm with ⟨hno, heq⟩ | ⟨g, hadmits, hg⟩
  · have hturn : c.turn l.attachment.feed m = [] := by
      refine if_neg ?_
      rintro ⟨hm', f', hf', hadmits⟩
      obtain rfl : k = l.attachment.feed := Option.some.inj (hm.symm.trans hm')
      exact hno f' hf' hadmits
    rw [hturn, received_eq_nil (by rw [heq]), List.append_nil, List.append_nil, heq]
    exact h
  have hsessions := hg.session (h.tidy.sound.nodup hg.feed) l.attachment.session
  by_cases hk : k = l.attachment.feed
  · subst hk
    obtain rfl : g = f := Option.some.inj (hg.feed.symm.trans hf)
    rw [if_pos hj, hs, Option.map_some] at hsessions
    obtain ⟨hqueue, hremoved⟩ := Session.foldl_deliver (g.hands m) hr
    have hsame := g.after_same c.options.reconnect m
    have hreceived : c.received l.attachment.session m = g.hands m := by
      rw [received_eq hs hsessions, hqueue, List.drop_left]
    rw [turn_of_admits hm hf hadmits, hreceived]
    refine ⟨htidy, haside, ⟨_, hsessions, hremoved⟩, ⟨_, by rw [hg.feeds, if_pos rfl],
      by rw [hsame.1, hpeer], by rw [hsame.2.2.2.2]; exact hj, ?_⟩, ?_⟩
    · rcases hcourse with hp | ⟨hcourse, hbefore⟩
      · have hruns := Feed.isRunning_of_admits hadmits
        simp [Feed.isRunning, hp] at hruns
      · exact Or.inr ⟨hcourse.after hadmits _, fun hl hts =>
          hbefore hl (List.append_eq_nil_iff.1 hts).1⟩
    · rw [List.any_append, Bool.or_eq_true, List.mem_append, h.told, ← hpeer, faults_hands]
  · -- the session is on one feed only, so the move of another one passes it by
    have hj' : l.attachment.session ∉ g.sessions := fun hj' =>
      hk (h.tidy.sound.apart hg.feed hf hj' hj)
    rw [if_neg hj'] at hsessions
    have hne' : m.feed? ≠ some l.attachment.feed := by
      rw [hm]
      exact fun h => hk (Option.some.inj h)
    rw [turn_of_ne hne', received_eq_nil hsessions, List.append_nil, List.append_nil]
    exact ⟨htidy, haside, ⟨s, hsessions.trans hs, hr⟩,
      ⟨f, by rw [hg.feeds, if_neg hk, hf], hpeer, hj, hcourse⟩, h.told⟩

theorem Linked.session_move (h : c.Linked i l peer p ts ds) (hm : m.session? = some k) :
    (c.apply m).Linked i l peer p ts ds ∧ c.received l.attachment.session m = [] := by
  have haside := h.aside.apply h.tidy (actor_ne_of_session hm h.aside.named)
  obtain ⟨s, hs, hr⟩ := h.session
  rcases session_move_cases (c := c) hm with ⟨-, heq⟩ | ⟨s₁, s', -, hs', hserves⟩
  · rw [received_eq_nil (by rw [heq]), heq]
    exact ⟨h, rfl⟩
  have hsession : ∃ s', (c.apply m).sessions[l.attachment.session]? = some s' ∧
      s'.removed = false ∧ s'.queue.length ≤ s.queue.length := by
    have hsessions := hserves.sessions l.attachment.session
    by_cases hk : k = l.attachment.session
    · subst hk
      obtain rfl : s₁ = s := Option.some.inj (hserves.session.symm.trans hs)
      rw [if_pos rfl] at hsessions
      obtain ⟨hremoved, hqueue⟩ := s₁.after_le m
      refine ⟨s', hsessions, ?_⟩
      rcases hs' with rfl | rfl
      · exact ⟨hremoved.trans hr, hqueue⟩
      · rw [Session.removed_answer, Session.queue_answer]
        exact ⟨hremoved.trans hr, hqueue⟩
    · rw [if_neg hk] at hsessions
      exact ⟨s, hsessions.trans hs, hr, Nat.le_refl _⟩
  obtain ⟨s', hs', hr', hqueue⟩ := hsession
  refine ⟨h.of_untouched (h.tidy.apply m) haside ⟨s', hs', hr'⟩
    fun a f hf hj => ⟨f, hserves.table ▸ hf, rfl, hj, Or.inl rfl⟩, ?_⟩
  rw [received_eq hs hs', List.drop_eq_nil_iff]
  exact hqueue

theorem Linked.apply (h : c.Linked i l peer p ts ds) (hm : c.actor m ≠ i) :
    (c.apply m).Linked i l peer p (ts ++ c.turn l.attachment.feed m)
      (ds ++ c.received l.attachment.session m) := by
  cases hfeed : m.feed? with
  | some k => exact h.feed_move hfeed
  | none =>
    rw [turn_of_ne (by simp [hfeed]), List.append_nil]
    cases hsession : m.session? with
    | some k =>
      obtain ⟨hlinked, hreceived⟩ := h.session_move hsession
      rw [hreceived, List.append_nil]
      exact hlinked
    | none =>
      have hacts := acts_apply h.tidy.bounded h.tidy.known hfeed hsession
      obtain ⟨haside, heq, hfeeds⟩ :=
        hacts.untouched (h.aside.not_owns hm) h.aside h.tidy
      rw [received_eq_nil heq, List.append_nil]
      obtain ⟨s, hs, hr⟩ := h.session
      exact h.of_untouched (h.tidy.apply m) haside ⟨s, heq.trans hs, hr⟩ hfeeds

/-- Notes whether the first attempt of a link's feed is over. -/
def note (c : Client) (l : Link) : Link :=
  { l with
    attempted := l.attempted ||
      match c.table.feed? l.attachment.feed with
      | some f => f.isAttempted
      | none => true }

theorem note_mem_progress {links : List Link} {l : Link} (hl : l ∈ links) :
    c.note l ∈ c.progress links := List.mem_map_of_mem hl

/-- An attempt that is over has taken a turn. -/
theorem Linked.note (h : c.Linked i l peer p ts ds) : c.Linked i (c.note l) peer p ts ds := by
  obtain ⟨f, hf, hpeer, hj, hcourse⟩ := h.feed
  refine ⟨h.tidy, h.aside, h.session, ⟨f, hf, hpeer, hj, ?_⟩, h.told⟩
  rcases hcourse with hp | ⟨hcourse, hbefore⟩
  · exact Or.inl hp
  refine Or.inr ⟨hcourse, fun hl hts => ?_⟩
  simp only [Client.note, hf, Bool.or_eq_true] at hl
  rcases hl with hl | hl
  · exact hbefore hl hts
  · have hno : ¬ (f.phase = .launching ∨ f.phase = .connecting) := by
      rintro (hp | hp) <;> simp [Feed.isAttempted, Feed.status, hp] at hl
    exact not_or.1 fun hp => hno (hcourse.before hts hp)

/-- When all attempts are over, a listener without a stream was told of a failure, or nothing at all
has come to it. -/
theorem Linked.live_or_told_iff (h : c.Linked i l peer p ts ds) (hl : l.attempted = true)
    (hidle : p ≠ .idle) (hstopped : p ≠ .stopped) (hs : ¬ c.Stopped l.attachment.feed) :
    (c.Live l.attachment.feed l.attachment.session ∨ ds.any (·.isFaultOf peer) = true) ↔
      ¬ Silent p ts := by
  obtain ⟨f, hf, -, hj, hcourse⟩ := h.feed
  obtain ⟨hcourse, hbefore⟩ := hcourse.resolve_left fun hp => hs ⟨f, hf, hp⟩
  obtain ⟨s, hsession, hr⟩ := h.session
  have hlive : c.Live l.attachment.feed l.attachment.session ↔
      ts.getLast? = some .opened ∨ ts = [] ∧ p = .streaming := by
    rw [← hcourse.streaming]
    constructor
    · rintro ⟨g, hg, hp, -⟩
      obtain rfl : f = g := Option.some.inj (hf.symm.trans hg)
      exact hp
    · exact fun hp => ⟨f, hf, hp, hj, s, hsession, hr⟩
  rw [hlive, h.told]
  cases hlast : ts.getLast? with
  | none =>
    obtain rfl : ts = [] := List.getLast?_eq_none_iff.1 hlast
    obtain ⟨hlaunching, hconnecting⟩ := hbefore hl rfl
    unfold Silent
    cases p with
    | resting failedStart => cases failedStart <;> simp
    | idle => exact absurd rfl hidle
    | stopped => exact absurd rfl hstopped
    | launching => exact absurd rfl hlaunching
    | connecting => exact absurd rfl hconnecting
    | streaming => simp
  | some t =>
    have hne : ts ≠ [] := by
      rintro rfl
      cases hlast
    have hmem : t ∈ ts := List.mem_of_getLast? hlast
    unfold Silent
    cases t with
    | opened => simp [hlast, hne]
    | failed => simp [hmem]
    | ended => simp [hlast, hne]

end Linked

/-! ## The end of the wait -/

section Proceeding

variable {key : ListenerKey}

theorem registered?_of_subset (h : c'.registrations ⊆ c.registrations)
    (hnone : c.registered? key = none) : c'.registered? key = none := by
  rw [registered?, Option.map_eq_none_iff, List.find?_eq_none] at hnone ⊢
  exact fun r hr => hnone r (h hr)

theorem tearDown_registrations (c : Client) : c.tearDown.registrations = [] := by
  have hfold : ∀ (as : List Attachment) (b : Client), (as.foldl (fun b a =>
      { b.modifySession a.session Session.close with
        table := b.table.modify a.feed Feed.stop }) b).registrations = b.registrations := by
    intro as
    induction as with
    | nil => exact fun _ => rfl
    | cons a as ih => exact fun b => ih _
  unfold tearDown
  exact hfold _ _

/-- Where the listener's key is still there, its attachments are put under it and nothing else
changes. -/
theorem complete_of_registered {as : List Attachment}
    (h : (c.complete key as).registered? key ≠ none) :
    (c.complete key as).table = c.table ∧ (c.complete key as).sessions = c.sessions := by
  unfold complete at h ⊢
  cases hkey : c.registered? key with
  | none =>
    simp only [hkey] at h
    have hsheds : c.Sheds (fun _ => True) (c.releaseAll as) :=
      sheds_releaseAll as c fun _ _ => trivial
    exact absurd (registered?_of_subset hsheds.registrations hkey) h
  | some _ => exact ⟨rfl, rfl⟩

theorem complete_outbox (c : Client) (key : ListenerKey) (as : List Attachment) :
    (c.complete key as).outbox = c.outbox ∧ (c.complete key as).nextCall = c.nextCall := by
  have hsheds : c.Sheds (fun _ => True) (c.releaseAll as) :=
    sheds_releaseAll as c fun _ _ => trivial
  unfold complete
  split
  · exact ⟨hsheds.outbox, hsheds.nextCall⟩
  · exact ⟨rfl, rfl⟩

theorem abandon_over (hi : i < c.nextCall) :
    (c.abandon i).Over i ∧ (c.abandon i).outbox = c.outbox := by
  unfold abandon
  split
  · next hgone => exact ⟨⟨hi, hgone⟩, rfl⟩
  · next call _ =>
    dsimp only
    have hdrop : ∀ b : Client, b.nextCall = c.nextCall ∧ b.outbox = c.outbox →
        ({ b with calls := b.calls.filter (·.1 ≠ i) } : Client).tearDownIfUnused.Over i ∧
          ({ b with calls := b.calls.filter (·.1 ≠ i) } : Client).tearDownIfUnused.outbox =
            c.outbox := by
      rintro b ⟨hnext, hout⟩
      obtain ⟨hcalls, hnext', hout'⟩ :=
        tearDownIfUnused_same { b with calls := b.calls.filter (·.1 ≠ i) }
      refine ⟨⟨?_, ?_⟩, hout'.trans hout⟩
      · rw [hnext']
        exact hnext ▸ hi
      · rw [call?_of_calls_eq hcalls]
        exact b.call?_filter_self
    split <;> first | exact hdrop _ (c.dropWait_same _).2 | exact hdrop c ⟨rfl, rfl⟩

/-- A call that ends says so and leaves its name; it may be the last one, and then the client gives
up everything. -/
theorem finish_cases (c : Client) (i : Nat) (r : CallResult) :
    (c.finish i r).outbox = c.outbox ++ [.finished i r] ∧ (c.finish i r).call? i = none ∧
      ((c.finish i r).registrations = [] ∨ (c.finish i r).table = c.table ∧
        (c.finish i r).sessions = c.sessions ∧ (c.finish i r).registrations = c.registrations) := by
  let b : Client := { c with calls := c.calls.filter (·.1 ≠ i) }.send (.finished i r)
  have hgone : b.call? i = none := c.call?_filter_self
  have hfinish : c.finish i r = b.tearDownIfUnused := rfl
  rw [hfinish]
  unfold tearDownIfUnused
  split_ifs
  · exact ⟨b.sheds_tearDown.outbox, (call?_of_calls_eq b.sheds_tearDown.calls i).trans hgone,
      Or.inl b.tearDown_registrations⟩
  · exact ⟨rfl, hgone, Or.inr ⟨rfl, rfl, rfl⟩⟩

/-- A call that goes on returns to its caller, unless there is nobody to order the transaction. -/
theorem proceed_cases (c : Client) (i : Nat) (next : AfterLink) :
    ∃ r, (c.proceed i next).outbox = c.outbox ++ [r] ∧
      (r.returns i next = true ∧ ((c.proceed i next).registrations = [] ∨
        (c.proceed i next).table = c.table ∧ (c.proceed i next).sessions = c.sessions ∧
          (c.proceed i next).registrations = c.registrations) ∨
      r.returns i next = false ∧ (c.proceed i next).call? i = none) := by
  cases next with
  | added =>
    obtain ⟨hout, -, hsame⟩ := c.finish_cases i .added
    exact ⟨_, hout, Or.inl ⟨by simp [Request.returns], hsame⟩⟩
  | listening =>
    obtain ⟨hout, -, hsame⟩ := c.finish_cases i .listening
    exact ⟨_, hout, Or.inl ⟨by simp [Request.returns], hsame⟩⟩
  | order request payload w =>
    have hproceed : c.proceed i (.order request payload w) = c.orderStep i request payload w
        (OrderRoute.start c.channel c.options.discoveryEnabled request.proposal.id) := rfl
    rw [hproceed]
    unfold OrderRoute.start
    split_ifs
    · exact ⟨_, rfl, Or.inl ⟨by simp [Request.returns], Or.inr ⟨rfl, rfl, rfl⟩⟩⟩
    · split
      · obtain ⟨hout, hgone, -⟩ := (c.dropWait w).finish_cases i
          (.answered (.error (.noOrderers request.proposal.id)))
        rw [(c.dropWait_same w).2.2] at hout
        exact ⟨_, hout, Or.inr ⟨rfl, hgone⟩⟩
      · exact ⟨_, rfl, Or.inl ⟨by simp [Request.returns], Or.inr ⟨rfl, rfl, rfl⟩⟩⟩

/-- The call waits on, or every attempt is over and it goes on; it returns, or it has come to an end
without returning. -/
theorem followLinks_cases (c : Client) (i : Nat) (key : ListenerKey) (links : List Link)
    (next : AfterLink) :
    let c' := c.followLinks i key links next
    c' = c.setCall i (.linking key (c.progress links) next) ∨
      (∀ l ∈ c.progress links, l.attempted = true) ∧ ∃ r, c'.outbox = c.outbox ++ [r] ∧
        (r.returns i next = true ∧
            (c'.registered? key ≠ none → c'.table = c.table ∧ c'.sessions = c.sessions) ∨
          r.returns i next = false ∧ (i < c.nextCall → c'.Over i)) := by
  intro c'
  by_cases hall : (c.progress links).all (·.attempted) = true
  · let b := c.complete key ((c.progress links).map (·.attachment))
    have hb : c' = b.proceed i next := if_pos hall
    obtain ⟨hout, hnext⟩ := c.complete_outbox key ((c.progress links).map (·.attachment))
    obtain ⟨r, hsent, hcases⟩ := b.proceed_cases i next
    rw [← hb] at hsent hcases
    refine Or.inr ⟨List.all_eq_true.1 hall, r, hsent.trans (congrArg (· ++ [r]) hout), ?_⟩
    rcases hcases with ⟨hr, hsame⟩ | ⟨hr, hgone⟩
    · refine Or.inl ⟨hr, fun hkey => ?_⟩
      rcases hsame with hnone | ⟨htable, hsessions, hregistrations⟩
      · rw [registered?, hnone] at hkey
        exact absurd rfl hkey
      · have hkey' : b.registered? key ≠ none := by
          rwa [registered?, ← hregistrations]
        obtain ⟨htable', hsessions'⟩ := complete_of_registered hkey'
        exact ⟨htable.trans htable', hsessions.trans hsessions'⟩
    · refine Or.inr ⟨hr, fun hi => ⟨Nat.lt_of_lt_of_le hi ?_, hgone⟩⟩
      have hacts : Acts i (fun _ => True) b (b.proceed i next) := acts_proceed b next
      rw [hb, ← hnext]
      exact hacts.sends.1
  · exact Or.inl (if_neg hall)

end Proceeding

/-! ## Every run -/

/-- In the last move of the run, and not before, the call goes on from its links. -/
def Returns (i : Nat) (next : AfterLink) : Client → List Move → Prop
  | _, [] => False
  | c, m :: ms =>
    if (c.sent m).any (·.returns i next) then ms = [] else Returns i next (c.apply m) ms

instance decidableReturns (i : Nat) (next : AfterLink) :
    ∀ (c : Client) (ms : List Move), Decidable (Returns i next c ms)
  | _, [] => .isFalse id
  | c, m :: ms =>
    have := decidableReturns i next (c.apply m) ms
    inferInstanceAs (Decidable
      (if (c.sent m).any (·.returns i next) then ms = [] else Returns i next (c.apply m) ms))

section Returning

variable {next : AfterLink} {ms : List Move}

theorem isOf_of_returns {r : Request} (h : r.returns i next = true) : r.IsOf i := by
  cases next <;> cases r <;> simp_all [Request.returns, Request.IsOf]
  all_goals
    next k result =>
      cases result <;> simp_all

theorem any_returns (h : ∀ r ∈ c.sent m, ¬ r.IsOf i) :
    (c.sent m).any (·.returns i next) = false := by
  rw [List.any_eq_false]
  exact fun r hr hret => h r hr (isOf_of_returns hret)

theorem Over.not_returns (h : c.Over i) (hc : c.Tidy) : ¬ Returns i next c ms := by
  induction ms generalizing c with
  | nil => exact id
  | cons m ms ih =>
    obtain ⟨hover, hsent⟩ := h.apply hc m
    rw [Returns, any_returns hsent]
    exact ih hover (hc.apply m)

variable {l : Link} {peer : String} {p : FeedPhase} {ts : List Turn} {ds : List Delivery}
  {key : ListenerKey} {links : List Link}

theorem Linked.setCall (h : c.Linked i l peer p ts ds) {call : Call}
    (htidy : (c.setCall i call).Tidy) : (c.setCall i call).Linked i (c.note l) peer p ts ds := by
  obtain ⟨-, haside, hsession, hfeed, htold⟩ := h.note
  refine ⟨htidy, ⟨haside.named, haside.made, haside.unregistered, fun k call hk hcall => ?_⟩,
    hsession, hfeed, htold⟩
  rw [call?_setCall_ne hk] at hcall
  exact haside.apart k call hk hcall

theorem live_of_eq {a j : Nat} (htable : c'.table = c.table)
    (hsessions : c'.sessions = c.sessions) : c'.Live a j ↔ c.Live a j := by
  unfold Live
  rw [htable, hsessions]

theorem stopped_of_eq {a : Nat} (htable : c'.table = c.table) : c'.Stopped a ↔ c.Stopped a := by
  unfold Stopped
  rw [htable]

/-- In the move `m` the call looks at its links, and nothing else is asked of the world.  It waits
on, or it returns in this move, and what is known of a link then is known if its key is there. -/
theorem Linked.follow_cases {b : Client} (h : b.Linked i l peer p ts ds) (hl : l ∈ links)
    (hidle : p ≠ .idle) (hstopped : p ≠ .stopped) (hout : b.outbox = c.outbox)
    (heq : c.apply m = b.followLinks i key links next) (htidy : (c.apply m).Tidy)
    (hreturns : Returns i next c (m :: ms)) :
    (c.apply m).table = b.table ∧ (c.apply m).sessions = b.sessions ∧
        (c.apply m).call? i = some (.linking key (b.progress links) next) ∧
        (c.apply m).Linked i (b.note l) peer p ts ds ∧ Returns i next (c.apply m) ms ∨
      ms = [] ∧ ((c.apply m).registered? key ≠ none →
        (c.apply m).table = b.table ∧ (c.apply m).sessions = b.sessions ∧
        (¬ (c.apply m).Stopped l.attachment.feed →
          ((c.apply m).Live l.attachment.feed l.attachment.session ∨
            ds.any (·.isFaultOf peer) = true ↔ ¬ Silent p ts))) := by
  rcases b.followLinks_cases i key links next with hwait | ⟨hall, r, hsent, hcases⟩
  · rw [← heq] at hwait
    have hsent : c.sent m = [] := by
      refine sent_eq ?_
      rw [hwait, List.append_nil]
      exact hout
    rw [Returns, hsent] at hreturns
    refine Or.inl ⟨by rw [hwait]; rfl, by rw [hwait]; rfl, ?_, ?_, hreturns⟩
    · rw [hwait]
      exact b.call?_setCall_self _
    · rw [hwait] at htidy ⊢
      exact h.setCall htidy
  · rw [← heq] at hsent hcases
    rw [hout] at hsent
    rw [Returns, sent_eq hsent, List.any_cons, List.any_nil, Bool.or_false] at hreturns
    rcases hcases with ⟨hr, hsame⟩ | ⟨hr, hover⟩
    · rw [if_pos hr] at hreturns
      refine Or.inr ⟨hreturns, fun hkey => ?_⟩
      obtain ⟨htable, hsessions⟩ := hsame hkey
      refine ⟨htable, hsessions, fun hstop => ?_⟩
      rw [stopped_of_eq htable] at hstop
      rw [live_of_eq htable hsessions]
      exact h.note.live_or_told_iff (hall _ (note_mem_progress hl)) hidle hstopped hstop
    · rw [if_neg (by simp [hr])] at hreturns
      exact absurd hreturns ((hover h.aside.named).not_returns htidy)

/-- From its links on, a call returns only when the attempts of all of them are over. -/
theorem Linked.run (h : c.Linked i l peer p ts ds)
    (hcall : c.call? i = some (.linking key links next)) (hl : l ∈ links)
    (hidle : p ≠ .idle) (hstopped : p ≠ .stopped) (hreturns : Returns i next c ms)
    (hkey : (c.run ms).registered? key ≠ none)
    (hrun : ¬ (c.run ms).Stopped l.attachment.feed) :
    ((c.run ms).Live l.attachment.feed l.attachment.session ∨
        (ds ++ gather (received l.attachment.session) c ms).any (·.isFaultOf peer) = true) ↔
      ¬ Silent p (ts ++ gather (turn l.attachment.feed) c ms) := by
  induction ms generalizing c l links ts ds with
  | nil => exact hreturns.elim
  | cons m ms ih =>
    simp only [run_cons, gather] at hkey hrun ⊢
    rw [← List.append_assoc, ← List.append_assoc]
    by_cases hm : c.actor m = i
    · have hturn : c.turn l.attachment.feed m = [] :=
        turn_of_ne fun hfeed => actor_ne_of_feed hfeed h.aside.named hm
      rw [hturn, List.append_nil]
      rcases apply_of_linking hcall h.aside.named hm with heq | rfl | ⟨room, rfl⟩
      · rw [Returns, sent_eq_nil heq] at hreturns
        rw [received_eq_nil (by rw [heq]), List.append_nil]
        rw [heq] at hkey hrun hreturns ⊢
        exact ih h hcall hl hreturns hkey hrun
      · -- a call that was given up returns no more
        obtain ⟨hover, hout⟩ := abandon_over h.aside.named
        have hsent : c.sent (.abandon i) = [] := sent_eq (by rw [List.append_nil]; exact hout)
        rw [Returns, hsent] at hreturns
        exact absurd hreturns (hover.not_returns (h.tidy.apply (.abandon i)))
      · have hresume : c.apply (.resume i room) = c.followLinks i key links next := by
          simp only [Client.apply, resume, hcall]
        rcases h.follow_cases hl hidle hstopped rfl hresume (h.tidy.apply (.resume i room))
          hreturns with
          ⟨-, hsessions, hcall', h', hreturns'⟩ | ⟨rfl, hdone⟩
        · rw [received_eq_nil (by rw [hsessions]), List.append_nil]
          have hlater := ih h' hcall' (note_mem_progress hl) hreturns' hkey hrun
          exact hlater
        · obtain ⟨-, hsessions, hknown⟩ := hdone hkey
          rw [received_eq_nil (by rw [hsessions])]
          simp only [gather, List.append_nil]
          exact hknown hrun
    · rw [Returns, any_returns (not_isOf_of_mem_sent h.tidy hm)] at hreturns
      exact ih (h.apply hm) ((call?_apply h.tidy hm).trans hcall) hl hreturns hkey hrun

end Returning

end Client

end LedgerClient
