import LedgerClient.Proofs.Deeds
import LedgerClient.Proofs.Links

/-!
# What a feed does for a session

A delivery that a feed hands out is put, once and at the end, into the queue of each session that is
on the feed and open, and nothing else is put there (`Client.received_eq_handed`).  So the moves of
the feed, with the moments at which a session comes aboard and leaves, are all that counts for where
the feed stands and for what the session receives (`Client.berth_apply`): a `Berth` is carried along
by these sights alone.
-/

namespace LedgerClient

namespace Client

variable {c c' : Client} {m : Move} {i j : Nat}

/-- The session is on the feed and open. -/
def Aboard (i j : Nat) (c : Client) : Prop :=
  ∃ f ∈ c.table.feed? i, j ∈ f.sessions ∧ ∃ s ∈ c.sessions[j]?, s.removed = false

instance (i j : Nat) (c : Client) : Decidable (c.Aboard i j) :=
  inferInstanceAs (Decidable (∃ f ∈ c.table.feed? i, j ∈ f.sessions ∧
    ∃ s ∈ c.sessions[j]?, s.removed = false))

/-- What the feed that moves hands to a session: all that it hands out, if the session is aboard. -/
def handed (j : Nat) (c : Client) (m : Move) : List Delivery :=
  match m.feed? with
  | none => []
  | some i =>
    match c.table.feed? i with
    | none => []
    | some f => if f.Admits m ∧ c.Aboard i j then f.hands m else []

theorem aboard_iff {f : Feed} {s : Session} (hf : c.table.feed? i = some f)
    (hs : c.sessions[j]? = some s) : c.Aboard i j ↔ j ∈ f.sessions ∧ s.removed = false := by
  simp [Aboard, hf, hs]

/-! ## Single moves -/

/-- Each session of a feed that moves takes what is handed out, if it is open. -/
theorem session_of_feed_move (hc : c.Tidy) {f : Feed} (hf : c.table.feed? i = some f)
    (hm : m.feed? = some i) (hadmits : f.Admits m) {s : Session} (hs : c.sessions[j]? = some s) :
    (c.apply m).sessions[j]? =
      some (if c.Aboard i j then { s with queue := s.queue ++ f.hands m } else s) := by
  have hfeeds := feeds_of_admits hm hf hadmits
  rw [hfeeds.session (hc.sound.nodup hf), hs, Option.map_some, Session.foldl_deliver_eq]
  simp only [aboard_iff hf hs]
  split_ifs <;> simp_all

theorem received_of_closed {s : Session} (hs : c.sessions[j]? = some s)
    (hs' : (c.apply m).sessions[j]? = some s.close) : c.received j m = [] := by
  rw [received_eq hs hs']
  exact List.drop_length

/-- Nothing but a move of a feed puts anything into the queue of a session. -/
theorem received_of_not_feed (hm : m.feed? = none) (j : Nat) : c.received j m = [] := by
  cases hs : c.sessions[j]? with
  | none => simp only [received, hs]
  | some s =>
    cases hsession : m.session? with
    | some k =>
      rcases session_move_cases (c := c) hsession with ⟨-, heq⟩ | ⟨s₁, s', -, hs', hserves⟩
      · exact received_eq_nil (by rw [heq])
      · have hsessions := hserves.sessions j
        split_ifs at hsessions with hkj
        · subst hkj
          obtain rfl : s₁ = s := Option.some.inj (hserves.session.symm.trans hs)
          rw [received_eq hs hsessions, List.drop_eq_nil_iff]
          rcases hs' with rfl | rfl
          · exact (s₁.after_le m).2
          · rw [Session.queue_answer]
            exact (s₁.after_le m).2
        · exact received_eq_nil hsessions
    | none =>
      obtain ⟨s', hs', rfl | rfl⟩ := Deeds.session (deeds_apply c hm hsession) hs
      · exact received_eq_nil (hs'.trans hs.symm)
      · exact received_of_closed hs hs'

/-- What a session receives in a move is what it is handed: each delivery that its feed hands out
while the session is aboard, once and in order. -/
theorem received_eq_handed (hc : c.Tidy) (m : Move) (j : Nat) :
    c.received j m = c.handed j m := by
  cases hfeed : m.feed? with
  | none => simp only [handed, hfeed, received_of_not_feed hfeed]
  | some i =>
    cases hf : c.table.feed? i with
    | none =>
      rcases feed_move_cases (c := c) hfeed with ⟨-, heq⟩ | ⟨g, -, hg⟩
      · simp only [handed, hfeed, hf, received_eq_nil (congrArg (·.sessions[j]?) heq)]
      · cases hf.symm.trans hg.feed
    | some f =>
      simp only [handed, hfeed, hf]
      by_cases hadmits : f.Admits m
      · cases hs : c.sessions[j]? with
        | none =>
          have haboard : ¬ c.Aboard i j := by simp [Aboard, hs]
          simp only [received, hs, haboard, and_false, if_false]
        | some s =>
          rw [received_eq hs (session_of_feed_move hc hf hfeed hadmits hs)]
          split_ifs <;> simp_all
      · rcases feed_move_cases (c := c) hfeed with ⟨-, heq⟩ | ⟨g, hg', hg⟩
        · rw [received_eq_nil (congrArg (·.sessions[j]?) heq), if_neg fun h => hadmits h.1]
        · obtain rfl : g = f := Option.some.inj (hg.feed.symm.trans hf)
          exact absurd hg' hadmits

end Client

/-! ## Sights -/

/-- A move of a feed, whichever feed it is one of. -/
def Move.unnumbered : Move → Move
  | .requestStream _ => .requestStream 0
  | .streamOpened _ => .streamOpened 0
  | .streamRefused _ e => .streamRefused 0 e
  | .blockArrived _ b => .blockArrived 0 b
  | .streamBroke _ e => .streamBroke 0 e
  | .streamEnded _ => .streamEnded 0
  | m => m

namespace Feed

/-- A feed without its sessions and attempts: what it feeds from, and what it delivered. -/
def bare (f : Feed) : Feed :=
  { f with phase := .idle, interval := ⟨0⟩, sessions := [], requests := [] }

/-- What a move does to the bare feed. -/
def moved (f : Feed) (m : Move) : Feed := (f.after .default m).bare

/-- The start that a move answers. -/
def settles (f : Feed) : Move → List (Option Nat)
  | .streamOpened _ | .streamRefused _ _ => [f.resumePosition]
  | _ => []

/-- The starts that the feed asked for and has an answer to.  It may have asked for one more, from
where it stands. -/
def Asked (f : Feed) (starts : List (Option Nat)) : Prop :=
  match f.phase with
  | .connecting => f.requests = starts ++ [f.resumePosition]
  | .stopped => f.requests = starts ∨ f.requests = starts ++ [f.resumePosition]
  | _ => f.requests = starts

variable {f f' : Feed} {starts : List (Option Nat)}

theorem bare_after (r : ReconnectOptions) (f : Feed) (m : Move) :
    (f.after r m).bare = f.bare.moved m.unnumbered := by
  cases m <;> simp [bare, moved, Move.unnumbered, after, rest, advance]

theorem hands_bare (f : Feed) (m : Move) : f.bare.hands m.unnumbered = f.hands m := by
  cases m <;> rfl

theorem settles_bare (f : Feed) (m : Move) : f.bare.settles m.unnumbered = f.settles m := by
  cases m <;> rfl

theorem Alike.bare {gone new : Nat → Prop} (h : f.Alike gone new f') : f'.bare = f.bare := by
  rw [h.same]
  rfl

theorem Asked.alike {gone new : Nat → Prop} (ha : f.Asked starts) (h : f.Alike gone new f') :
    f'.Asked starts := by
  have hrequests : f'.requests = f.requests := by rw [h.same]
  have hposition : f'.resumePosition = f.resumePosition := by rw [h.same]; rfl
  unfold Asked at ha ⊢
  rw [hrequests, hposition]
  rcases h.phase with hphase | hphase <;> rw [hphase]
  · exact ha
  · split at ha
    · exact Or.inr ha
    · exact ha
    · exact Or.inl ha

/-- A feed asks for the block after the last that it delivered, and again only when it had an
answer. -/
theorem Asked.after (ha : f.Asked starts) {m : Move} (hm : f.Admits m) (r : ReconnectOptions) :
    (f.after r m).Asked (starts ++ f.settles m) := by
  unfold Asked at ha
  cases m with
  | requestStream i =>
    have hasked : f.requests = starts := by
      rcases hm with hphase | ⟨failed, hphase⟩ <;> simpa only [hphase] using ha
    simp [Asked, Feed.after, settles, hasked, resumePosition]
  | streamOpened i | streamRefused i e =>
    simp only [show f.phase = .connecting from hm] at ha
    simp [Asked, Feed.after, settles, rest, ha]
  | blockArrived i b =>
    have hphase : f.phase = .streaming := hm
    simp only [hphase] at ha
    simp [Asked, Feed.after, settles, advance, hphase, ha]
  | streamBroke i e | streamEnded i =>
    simp only [show f.phase = .streaming from hm] at ha
    simp [Asked, Feed.after, settles, rest, ha]
  | _ => exact hm.elim

end Feed

/-- Whether a feed asks for a stream. -/
def Move.isRequest : Move → Bool
  | .requestStream _ => true
  | _ => false

/-- What there is to see of a feed and of a session that comes to it. -/
inductive Sight where
  /-- The feed is there. -/
  | made (f : Feed)
  /-- A start has its answer, or the stream does something. -/
  | moves (m : Move)
  /-- The session comes aboard. -/
  | joins
  /-- The session was closed. -/
  | leaves

/-- Where a feed stands, which starts of it were answered, whether a session is aboard, and what it
received. -/
structure Berth where
  feed : Option Feed
  starts : List (Option Nat)
  aboard : Bool
  received : List Delivery

namespace Berth

/-- What is seen is all that counts: the sessions and calls around it do not. -/
def after (b : Berth) : Sight → Berth
  | .made f => { b with feed := some f }
  | .moves m =>
    { b with
      feed := b.feed.map (·.moved m)
      starts := b.starts ++ (b.feed.map (·.settles m)).getD []
      received := b.received ++ if b.aboard then (b.feed.map (·.hands m)).getD [] else [] }
  | .joins => { b with aboard := true }
  | .leaves => { b with aboard := false }

/-- What is seen of a session that is aboard or not before a move, and after it. -/
def crossing (before after : Prop) [Decidable before] [Decidable after] : List Sight :=
  if before then (if after then [] else [.leaves]) else if after then [.joins] else []

theorem foldl_crossing (before after : Prop) [Decidable before] [Decidable after]
    (f : Option Feed) (starts : List (Option Nat)) (ds : List Delivery) :
    (crossing before after).foldl Berth.after ⟨f, starts, decide before, ds⟩ =
      ⟨f, starts, decide after, ds⟩ := by
  unfold crossing
  split_ifs <;> simp [Berth.after, *]

end Berth

namespace Client

variable {c c' : Client} {m : Move} {i j : Nat}

/-- What is seen of a feed in a move: anything but the requests that it makes by itself. -/
def stirs (i : Nat) (c : Client) (m : Move) : List Sight :=
  match c.table.feed? i with
  | none => ((c.apply m).table.feed? i).toList.map fun f => .made f.bare
  | some f =>
    if m.feed? = some i ∧ f.Admits m ∧ m.isRequest = false then [.moves m.unnumbered] else []

/-- What is seen of a feed and a session in a move. -/
def sights (i j : Nat) (c : Client) (m : Move) : List Sight :=
  c.stirs i m ++ Berth.crossing (c.Aboard i j) ((c.apply m).Aboard i j)

/-- The starts that a feed asked for and has an answer to; before it is there it asked for none. -/
def Asked (i : Nat) (c : Client) (starts : List (Option Nat)) : Prop :=
  match c.table.feed? i with
  | none => starts = []
  | some f => f.Asked starts

/-- The berth of a session, which received `ds` so far, and whose feed has these starts answered. -/
def berth (i j : Nat) (c : Client) (starts : List (Option Nat)) (ds : List Delivery) : Berth :=
  ⟨(c.table.feed? i).map Feed.bare, starts, decide (c.Aboard i j), ds⟩

variable {starts : List (Option Nat)}

theorem berth_new (channel : Channel) (identity : Identity) (options : Options) (i j : Nat) :
    (new channel identity options).berth i j [] [] = ⟨none, [], false, []⟩ := by
  simp [berth, Aboard, new, FeedTable.feed?, FeedTable.empty]

theorem Acts.bare {k : Nat} {own : Nat → Prop} (h : Acts k own c c') (hc : c.Tidy) {f : Feed}
    (hf : c.table.feed? i = some f) : ∃ f', c'.table.feed? i = some f' ∧ f'.bare = f.bare := by
  induction h with
  | refl => exact ⟨f, hf, rfl⟩
  | tail hprev hstep ih =>
    obtain ⟨f', hf', hbare⟩ := ih
    obtain ⟨f'', hf'', ha⟩ := hstep.feed (Acts.tidy hprev hc).sound hf'
    exact ⟨f'', hf'', ha.bare.trans hbare⟩

theorem Act.opening {k : Nat} {own : Nat → Prop} (h : Act k own c c')
    (hf : c.table.feed? i = none) {f : Feed} (hf' : c'.table.feed? i = some f) :
    ∃ r peer kind start session, f = FeedTable.opening r peer kind start session := by
  rcases h.cases with ⟨htable, -⟩ | hsheds | ⟨-, htable, -⟩ |
    ⟨r, peer, kind, start, session, -, -, -, htable, -⟩
  · rw [htable, hf] at hf'
    cases hf'
  · obtain ⟨f, hf'', -⟩ := hsheds.table.back hf'
    rw [hf] at hf''
    cases hf''
  · rw [htable, hf] at hf'
    cases hf'
  · rw [htable] at hf'
    exact ⟨r, peer, kind, start, session,
      FeedTable.feed?_join_new r peer kind start session hf hf'⟩

theorem Act.asked {k : Nat} {own : Nat → Prop} (h : Act k own c c') (hc : c.Tidy)
    (ha : c.Asked i starts) : c'.Asked i starts := by
  unfold Asked at ha
  cases hf : c.table.feed? i with
  | some f =>
    obtain ⟨f', hf', halike⟩ := h.feed hc.sound hf
    simp only [hf] at ha
    simp only [Asked, hf', ha.alike halike]
  | none =>
    simp only [hf] at ha
    subst ha
    unfold Asked
    split
    · rfl
    · next f' hf' =>
      obtain ⟨r, peer, kind, start, session, rfl⟩ := h.opening hf hf'
      rfl

theorem Acts.asked {k : Nat} {own : Nat → Prop} (h : Acts k own c c') (hc : c.Tidy)
    (ha : c.Asked i starts) : c'.Asked i starts := by
  induction h with
  | refl => exact ha
  | tail hprev hstep ih => exact hstep.asked (Acts.tidy hprev hc) ih

/-- The session is on no feed but this one. -/
def Only (i j : Nat) (c : Client) : Prop :=
  ∀ k < c.table.feeds.length, ∀ f ∈ c.table.feed? k, j ∈ f.sessions → k = i

instance (i j : Nat) (c : Client) : Decidable (c.Only i j) :=
  inferInstanceAs (Decidable
    (∀ k < c.table.feeds.length, ∀ f ∈ c.table.feed? k, j ∈ f.sessions → k = i))

theorem Only.eq (h : c.Only i j) {k : Nat} {f : Feed} (hf : c.table.feed? k = some f)
    (hj : j ∈ f.sessions) : k = i := h k (List.getElem?_eq_some_iff.1 hf).1 f hf hj

/-- What is handed to a session comes from the feed that it is on. -/
theorem handed_of_only (honly : c.Only i j) (hm : m.feed? ≠ some i) : c.handed j m = [] := by
  unfold handed
  split
  · rfl
  · next k hk =>
    split
    · rfl
    · next f hf =>
      refine if_neg fun ⟨_, f', hf', hj, _⟩ => hm ?_
      rw [hk, honly.eq hf' hj]

theorem handed_of_moved {f : Feed} (hf : c.table.feed? i = some f) (hm : m.feed? = some i)
    (hadmits : f.Admits m) : c.handed j m = if c.Aboard i j then f.hands m else [] := by
  simp only [handed, hm, hf, hadmits, true_and]

theorem handed_of_not_moved (honly : c.Only i j) {f : Feed} (hf : c.table.feed? i = some f)
    (hno : ¬ (m.feed? = some i ∧ f.Admits m)) : c.handed j m = [] := by
  by_cases hm : m.feed? = some i
  · have hadmits : ¬ f.Admits m := fun h => hno ⟨hm, h⟩
    simp only [handed, hm, hf, hadmits, false_and, if_false]
  · exact handed_of_only honly hm

theorem not_moves {f : Feed} (hf : c.table.feed? i = some f)
    (hno : ¬ (m.feed? = some i ∧ f.Admits m)) {g : Feed} (hg : c.table.feed? i = some g) :
    ¬ (m.feed? = some i ∧ g.Admits m) := by
  rwa [← Option.some.inj (hf.symm.trans hg)]

/-- A feed stays as it is, or calls act, unless it moves itself. -/
theorem not_moved_cases (hc : c.Tidy)
    (hno : ∀ {f}, c.table.feed? i = some f → ¬ (m.feed? = some i ∧ f.Admits m)) :
    (c.apply m).table.feed? i = c.table.feed? i ∨
      ∃ k own, Acts k own c (c.apply m) := by
  cases hfeed : m.feed? with
  | some k =>
    rcases feed_move_cases (c := c) hfeed with ⟨-, heq⟩ | ⟨g, hadmits, hg⟩
    · exact Or.inl (by rw [heq])
    · have hki : k ≠ i := by
        rintro rfl
        exact hno hg.feed ⟨hfeed, hadmits⟩
      exact Or.inl (by rw [hg.feeds, if_neg hki])
  | none =>
    cases hsession : m.session? with
    | some k =>
      rcases session_move_cases (c := c) hsession with ⟨-, heq⟩ | ⟨s, s', -, -, hserves⟩
      · exact Or.inl (by rw [heq])
      · exact Or.inl (by rw [hserves.table])
    | none => exact Or.inr ⟨_, _, acts_apply hc.bounded hc.known hfeed hsession⟩

theorem asked_of_not_moved (hc : c.Tidy)
    (hno : ∀ {f}, c.table.feed? i = some f → ¬ (m.feed? = some i ∧ f.Admits m))
    (ha : c.Asked i starts) : (c.apply m).Asked i starts := by
  rcases not_moved_cases hc hno with heq | ⟨k, own, hacts⟩
  · unfold Asked
    rw [heq]
    exact ha
  · exact hacts.asked hc ha

theorem bare_of_not_moved (hc : c.Tidy) {f : Feed} (hf : c.table.feed? i = some f)
    (hno : ¬ (m.feed? = some i ∧ f.Admits m)) :
    ((c.apply m).table.feed? i).map Feed.bare = some f.bare := by
  rcases not_moved_cases hc (not_moves hf hno) with heq | ⟨k, own, hacts⟩
  · rw [heq, hf, Option.map_some]
  · obtain ⟨f', hf', hbare⟩ := hacts.bare hc hf
    rw [hf', Option.map_some, hbare]

theorem feed_of_moved {f : Feed} (hf : c.table.feed? i = some f) (hm : m.feed? = some i)
    (hadmits : f.Admits m) :
    (c.apply m).table.feed? i = some (f.after c.options.reconnect m) := by
  rw [(feeds_of_admits hm hf hadmits).feeds, if_pos rfl]

/-- The start that a move of the feed answers. -/
def settled (i : Nat) (c : Client) (m : Move) : List (Option Nat) :=
  match c.table.feed? i with
  | none => []
  | some f => if m.feed? = some i ∧ f.Admits m then f.settles m else []

theorem asked_apply (hc : c.Tidy) (ha : c.Asked i starts) :
    (c.apply m).Asked i (starts ++ c.settled i m) := by
  unfold settled
  cases hf : c.table.feed? i with
  | none =>
    rw [List.append_nil]
    refine asked_of_not_moved hc (fun {f} hf' => ?_) ha
    rw [hf] at hf'
    cases hf'
  | some f =>
    dsimp only
    split_ifs with hmoved
    · simp only [Asked, hf] at ha
      simp only [Asked, feed_of_moved hf hmoved.1 hmoved.2]
      exact ha.after hmoved.2 _
    · rw [List.append_nil]
      exact asked_of_not_moved hc (not_moves hf hmoved) ha

/-- Up to the moment at which a session comes aboard or leaves. -/
theorem berth_stirs (hc : c.Tidy) (honly : c.Only i j) (m : Move) (ds : List Delivery) :
    (c.stirs i m).foldl Berth.after (c.berth i j starts ds) =
      ⟨((c.apply m).table.feed? i).map Feed.bare, starts ++ c.settled i m, decide (c.Aboard i j),
        ds ++ c.handed j m⟩ := by
  unfold stirs berth settled
  cases hf : c.table.feed? i with
  | none =>
    have hhanded : c.handed j m = [] := by
      by_cases hm : m.feed? = some i
      · simp only [handed, hm, hf]
      · exact handed_of_only honly hm
    cases hf' : (c.apply m).table.feed? i <;> simp [Berth.after, hhanded]
  | some f =>
    dsimp only
    by_cases hmoved : m.feed? = some i ∧ f.Admits m
    · obtain ⟨hm, hadmits⟩ := hmoved
      simp only [hm, hadmits, true_and, if_true]
      rw [feed_of_moved hf hm hadmits, handed_of_moved hf hm hadmits, Option.map_some,
        Option.map_some, Feed.bare_after]
      cases hrequest : m.isRequest with
      | false => simp [Berth.after, Feed.hands_bare, Feed.settles_bare]
      | true =>
        obtain ⟨k, rfl⟩ : ∃ k, m = .requestStream k := by
          cases m <;> first | exact ⟨_, rfl⟩ | cases hrequest
        simp [Feed.hands, Feed.settles, Feed.moved, Feed.after, Feed.bare, Move.unnumbered]
    · rw [if_neg fun h => hmoved ⟨h.1, h.2.1⟩, if_neg hmoved, bare_of_not_moved hc hf hmoved,
        handed_of_not_moved honly hf hmoved, List.append_nil, List.append_nil, List.foldl_nil,
        Option.map_some]

/-- What a session has received and where its feed stands follow from what is seen of the two. -/
theorem berth_apply (hc : c.Tidy) (honly : c.Only i j) (m : Move) (ds : List Delivery) :
    (c.sights i j m).foldl Berth.after (c.berth i j starts ds) =
      (c.apply m).berth i j (starts ++ c.settled i m) (ds ++ c.received j m) := by
  rw [received_eq_handed hc, sights, List.foldl_append, berth_stirs hc honly]
  exact Berth.foldl_crossing ..

end Client

end LedgerClient
