import LedgerClient.Proofs.Runs
import Mathlib.Data.List.Basic

/-!
# Reconnecting neither loses nor repeats

A feed asks each time for the block after the last one that it delivered, so over a faithful stream
(`Client.Faithful`) the blocks that arrive are consecutive, however often it fails or ends
(`Feed.Steady`).  A session that is on the feed from before the first of them begins to handle all
of them in this order and each of them once (`Session.Caught`): those that it has handled and those
that still wait for it are, together, what has arrived.
-/

namespace LedgerClient

namespace Session

/-- The blocks that wait for a session. -/
def waiting (s : Session) : List Nat := s.queue.filterMap numberOf

/-- The last block that a session has begun to handle. -/
def bound (s : Session) : Option Nat :=
  match s.work with
  | some (n, _) => n.or s.last
  | none => s.last

/-- The block that a session begins to handle when it takes its next delivery. -/
def begins? (s : Session) : Option Nat :=
  match s.work, s.removed, s.queue with
  | none, false, d :: _ => if s.accepts d then numberOf d else none
  | _, _, _ => none

end Session

namespace Client

/-- Whether a stream of the feed is open. -/
def Streams (c : Client) (i : Nat) : Prop := ∃ f ∈ c.table.feed? i, f.phase = .streaming

instance (c : Client) (i : Nat) : Decidable (c.Streams i) :=
  inferInstanceAs (Decidable (∃ f ∈ c.table.feed? i, f.phase = .streaming))

/-- The block that arrives on the open stream of a feed. -/
def arrival (i : Nat) (c : Client) : Move → List Nat
  | .blockArrived k b => if k = i ∧ c.Streams i then [b.number] else []
  | _ => []

/-- The block that a session begins to handle. -/
def beginning (j : Nat) (c : Client) : Move → List Nat
  | .takeNext k => if k = j then ((c.sessions[j]?).bind Session.begins?).toList else []
  | _ => []

/-- The start that a move asks a stream of the feed to have. -/
def asks? (i : Nat) (c : Client) (m : Move) : Option (Option Nat) :=
  (c.sent m).findSome? fun
    | .openStream k _ _ start => if k = i then some start else none
    | _ => none

/-- The block that the peer owes next on the stream of a feed, after a move; `none` is any block. -/
def owes (i : Nat) (c : Client) (owed : Option Nat) (m : Move) : Option Nat :=
  match m with
  | .requestStream _ => (c.asks? i m).getD owed
  | _ => if let n :: _ := c.arrival i m then some (n + 1) else owed

/-- A stream that was asked to start at a block begins there, any other where it will, and each
goes on with the next block. -/
def Faithful (i : Nat) : Client → Option Nat → List Move → Prop
  | _, _, [] => True
  | c, owed, m :: ms =>
    (∀ n ∈ c.arrival i m, ∀ k ∈ owed, n = k) ∧
      Faithful i (c.apply m) (c.owes i owed m) ms

instance decidableFaithful (i : Nat) :
    ∀ (c : Client) (owed : Option Nat) (ms : List Move), Decidable (Faithful i c owed ms)
  | _, _, [] => .isTrue trivial
  | c, owed, m :: ms =>
    have := decidableFaithful i (c.apply m) (c.owes i owed m) ms
    inferInstanceAs (Decidable (_ ∧ _))

end Client

/-! ## The feed -/

/-- The blocks that arrived so far are consecutive, the feed knows the last of them, and while it
has a stream, or has asked for one, the peer owes the block after it. -/
structure Feed.Steady (f : Feed) (owed : Option Nat) (arrived : List Nat) : Prop where
  consecutive : ∃ a, arrived = List.range' a arrived.length ∧ ∀ k, f.initial = some k → a = k
  last : f.last = arrived.getLast?
  owes : f.phase = .connecting ∨ f.phase = .streaming → owed = f.resumePosition

namespace Feed.Steady

variable {f f' : Feed} {owed : Option Nat} {arrived : List Nat}

theorem pairwise (h : f.Steady owed arrived) : arrived.Pairwise (· < ·) := by
  obtain ⟨a, ha, -⟩ := h.consecutive
  rw [ha]
  exact List.pairwise_lt_range'

theorem of_alike {gone new : Nat → Prop} (h : f.Steady owed arrived) (ha : f.Alike gone new f') :
    f'.Steady owed arrived := by
  rw [ha.same]
  refine ⟨h.consecutive, h.last, fun hp => ?_⟩
  rcases ha.phase with heq | heq
  · exact h.owes (heq ▸ hp)
  · simp [heq] at hp

theorem resumePosition_eq (h : f.Steady owed arrived) {a : Nat}
    (ha : arrived = List.range' a arrived.length) (hpos : 0 < arrived.length) :
    f.resumePosition = some (a + arrived.length) := by
  have hlast : arrived.getLast? = some (a + arrived.length - 1) := by
    rw [ha, List.getLast?_range', List.length_range', if_neg (by omega)]
  rw [Feed.resumePosition, h.last, hlast]
  simp only [Option.some.injEq]
  omega

theorem advance (h : f.Steady owed arrived) (hp : f.phase = .streaming) (r : ReconnectOptions)
    {n : Nat} (hn : ∀ k ∈ owed, n = k) :
    (f.advance r n).Steady (some (n + 1)) (arrived ++ [n]) := by
  obtain ⟨a, ha, hinitial⟩ := h.consecutive
  have howed := h.owes (Or.inr hp)
  by_cases hpos : 0 < arrived.length
  · have hn' : n = a + arrived.length := hn _ (howed.trans (h.resumePosition_eq ha hpos))
    have hlast : f.last = some (n - 1) := by
      rw [h.last, ha, List.getLast?_range', if_neg (by omega), hn']
    have hmax : (f.advance r n).last = some n := by
      simp only [Feed.advance, hlast]
      congr 1
      omega
    refine ⟨⟨a, ?_, hinitial⟩, ?_, fun _ => ?_⟩
    · rw [List.length_append, List.length_singleton, List.range'_1_concat, ← ha, ← hn']
    · rw [hmax, List.getLast?_concat]
    · rw [Feed.resumePosition, hmax]
  · have hnil : arrived = [] := by
      cases arrived with
      | nil => rfl
      | cons x xs => simp at hpos
    subst hnil
    have hlast : f.last = none := h.last
    have hmax : (f.advance r n).last = some n := by simp only [Feed.advance, hlast]
    refine ⟨⟨n, rfl, fun k hk => hn k ?_⟩, hmax, fun _ => ?_⟩
    · rw [howed, Feed.resumePosition, hlast]
      exact hk
    · rw [Feed.resumePosition, hmax]

end Feed.Steady

/-! ## The session -/

/-- What the session has begun to handle and what waits for it are, together, what has arrived; of
a session that was removed they are the front of it. -/
structure Session.Caught (s : Session) (arrived begun : List Nat) : Prop where
  front : begun ++ s.waiting <+: arrived
  all : s.removed = false → begun ++ s.waiting = arrived
  bound : ∀ n, s.bound = some n → n ∈ begun

namespace Session

theorem filterMap_numberOf_cons (d : Delivery) (ds : List Delivery) :
    (d :: ds).filterMap numberOf = (numberOf d).toList ++ ds.filterMap numberOf := by
  cases d <;> rfl

theorem bound_follow (s : Session) (n : Option Nat) (p : Plan) :
    (s.follow n p).bound = n.or s.last := by
  unfold follow
  split <;> rfl

theorem bound_answer (s : Session) (r : Response) : (s.answer r).bound = s.bound := by
  unfold answer
  split
  all_goals first
    | rfl
    | next hw => rw [bound_follow, bound, hw]

namespace Caught

variable {s : Session} {arrived begun : List Nat}

theorem of_eq {s' : Session} (h : s.Caught arrived begun) (hqueue : s'.queue = s.queue)
    (hbound : s'.bound = s.bound) (hremoved : s'.removed = false → s.removed = false) :
    s'.Caught arrived begun := by
  have hwaiting : s'.waiting = s.waiting := congrArg (List.filterMap numberOf) hqueue
  refine ⟨hwaiting ▸ h.front, fun hr => ?_, hbound ▸ h.bound⟩
  rw [hwaiting]
  exact h.all (hremoved hr)

theorem close (h : s.Caught arrived begun) : s.close.Caught arrived begun :=
  h.of_eq rfl rfl fun hr => by cases hr

theorem answer (h : s.Caught arrived begun) (r : Response) : (s.answer r).Caught arrived begun :=
  h.of_eq (s.queue_answer r) (s.bound_answer r) fun hr => s.removed_answer r ▸ hr

theorem of_removed (h : s.Caught arrived begun) (hr : s.removed = true) (ns : List Nat) :
    s.Caught (arrived ++ ns) begun :=
  ⟨h.front.trans (List.prefix_append arrived ns), fun hf => absurd hf (by simp [hr]), h.bound⟩

theorem deliver (h : s.Caught arrived begun) (d : Delivery) :
    (s.deliver d).Caught (arrived ++ (numberOf d).toList) begun := by
  unfold Session.deliver
  split_ifs with hr
  · exact h.of_removed hr _
  · have hwaiting : ({ s with queue := s.queue ++ [d] } : Session).waiting =
        s.waiting ++ (numberOf d).toList := by
      rw [waiting, List.filterMap_append, filterMap_numberOf_cons, List.filterMap_nil,
        List.append_nil]
      rfl
    have hall : begun ++ ({ s with queue := s.queue ++ [d] } : Session).waiting =
        arrived ++ (numberOf d).toList := by
      rw [hwaiting, ← List.append_assoc, h.all (by simpa using hr)]
    exact ⟨hall ▸ List.prefix_refl _, fun _ => hall, h.bound⟩

theorem deliverAll (ds : List Delivery) {s : Session} {arrived begun : List Nat}
    (h : s.Caught arrived begun) :
    (ds.foldl Session.deliver s).Caught (arrived ++ ds.filterMap numberOf) begun := by
  induction ds generalizing s arrived with
  | nil => rwa [List.filterMap_nil, List.append_nil]
  | cons d ds ih =>
    rw [List.foldl_cons, filterMap_numberOf_cons, ← List.append_assoc]
    exact ih (h.deliver d)

end Caught

/-- A session passes over nothing that waits for it: a block that waits lies above what was
begun. -/
theorem Caught.accepts {s : Session} {arrived begun : List Nat} (h : s.Caught arrived begun)
    (hfloor : ∀ x ∈ s.waiting, reaches s.floor x = true) (hinc : arrived.Pairwise (· < ·))
    (hw : s.work = none) (hr : s.removed = false) {d : Delivery} {rest : List Delivery}
    (hq : s.queue = d :: rest) : s.accepts d = true := by
  cases d with
  | fault f => rfl
  | block peer b =>
    have hmem : b.number ∈ s.waiting := by
      rw [waiting, hq, filterMap_numberOf_cons]
      exact List.mem_cons_self
    have hlow : reaches s.last b.number = true := by
      cases hl : s.last with
      | none => rfl
      | some n =>
        have hlast : s.bound = s.last := by rw [Session.bound, hw]
        have hn : n ∈ begun := h.bound n (hlast.trans hl)
        have hlt := (List.pairwise_append.1 (h.all hr ▸ hinc)).2.2 n hn _ hmem
        simpa [reaches] using Nat.le_of_lt hlt
    rw [Session.accepts, hfloor _ hmem, hlow, Bool.and_self]

theorem Caught.take {s : Session} {arrived begun : List Nat} (h : s.Caught arrived begun)
    (hfloor : ∀ x ∈ s.waiting, reaches s.floor x = true) (hinc : arrived.Pairwise (· < ·)) :
    s.take.Caught arrived (begun ++ s.begins?.toList) := by
  rcases s.take_cases with
    ⟨ht, hno⟩ | ⟨hw, hr, ht⟩ | ⟨d, rest, hw, hr, hq, ⟨hacc, ht⟩ | ⟨hacc, ht⟩⟩ <;> rw [ht]
  · have hnone : s.begins? = none := by
      unfold begins?
      split
      · next hw _ hq =>
        rcases hno with hno | hno
        · exact absurd hw hno
        · rw [hq] at hno
          cases hno
      · rfl
    rw [hnone, Option.toList_none, List.append_nil]
    exact h
  · have hnone : s.begins? = none := by simp [begins?, hw, hr]
    rw [hnone, Option.toList_none, List.append_nil]
    refine ⟨?_, fun hf => absurd hr (by simp [show s.removed = false from hf]), h.bound⟩
    have hfront := (List.prefix_append begun s.waiting).trans h.front
    change begun ++ [] <+: arrived
    rwa [List.append_nil]
  · have hbegins : s.begins? = numberOf d := by
      simp only [begins?, hw, hr, hq, hacc, if_true]
    have hwaiting : s.waiting = (numberOf d).toList ++ rest.filterMap numberOf := by
      rw [waiting, hq, filterMap_numberOf_cons]
    have hall : (begun ++ s.begins?.toList) ++ rest.filterMap numberOf = arrived := by
      rw [hbegins, List.append_assoc, ← hwaiting, h.all hr]
    have hfollow : ({ s with queue := rest }.follow (numberOf d) (s.audience.plan d)).waiting =
        rest.filterMap numberOf := by rw [waiting, queue_follow]
    rw [← hfollow] at hall
    refine ⟨hall ▸ List.prefix_refl _, fun _ => hall, fun n hn => ?_⟩
    rw [bound_follow] at hn
    rw [hbegins]
    cases hd : numberOf d with
    | some x =>
      rw [hd] at hn
      obtain rfl : x = n := Option.some.inj hn
      exact List.mem_append_right _ (List.mem_singleton_self x)
    | none =>
      rw [hd] at hn
      have hlast : s.bound = s.last := by rw [Session.bound, hw]
      exact List.mem_append_left _ (h.bound n (hlast.trans hn))
  · exact absurd (h.accepts hfloor hinc hw hr hq) (by simp [hacc])

end Session

/-! ## One move -/

namespace Client

variable {i j : Nat} {c c' : Client} {m : Move}

theorem arrival_of_ne (hm : m.feed? ≠ some i) (c : Client) : c.arrival i m = [] := by
  cases m with
  | blockArrived k b =>
    have hk : k ≠ i := fun h => hm (h ▸ rfl)
    rw [arrival, if_neg fun h => hk h.1]
  | _ => rfl

theorem beginning_of_ne (hm : m.session? ≠ some j) (c : Client) : c.beginning j m = [] := by
  cases m with
  | takeNext k =>
    have hk : k ≠ j := fun h => hm (h ▸ rfl)
    rw [beginning, if_neg hk]
  | _ => rfl

theorem beginning_takeNext {s : Session} (hs : c.sessions[j]? = some s) :
    c.beginning j (.takeNext j) = s.begins?.toList := by
  rw [beginning, if_pos rfl, hs, Option.bind_some]

theorem owes_of_silent (hm : ∀ k, m ≠ .requestStream k) (h : c.arrival i m = [])
    (owed : Option Nat) : c.owes i owed m = owed := by
  cases m with
  | requestStream k => exact absurd rfl (hm k)
  | _ => simp only [owes, h]

theorem asks?_eq_none (h : c.apply m = c) (i : Nat) : c.asks? i m = none := by
  rw [asks?, sent_eq_nil h, List.findSome?_nil]

theorem asks?_requestStream {f : Feed} {k : Nat} (hf : c.table.feed? k = some f)
    (hm : f.Admits (.requestStream k)) :
    c.asks? i (.requestStream k) = if k = i then some f.resumePosition else none := by
  have hsent : c.sent (.requestStream k) = [.openStream k f.peer.name f.kind f.resumePosition] := by
    rcases hm with hp | ⟨failed, hp⟩ <;>
      simp only [sent, apply, requestStream, hf, hp, send, List.drop_left]
  rw [asks?, hsent, List.findSome?_singleton]

theorem owes_of_ne (hm : m.feed? ≠ some i) (c : Client) (owed : Option Nat) :
    c.owes i owed m = owed := by
  cases m with
  | requestStream k =>
    have hk : k ≠ i := fun h => hm (h ▸ rfl)
    have hnone : c.asks? i (.requestStream k) = none := by
      rcases feed_move_cases (c := c) (m := .requestStream k) rfl with ⟨-, heq⟩ | ⟨f, hadmits, h⟩
      · exact asks?_eq_none heq i
      · rw [asks?_requestStream h.feed hadmits, if_neg hk]
    rw [owes, hnone, Option.getD_none]
  | _ => exact owes_of_silent (fun _ h => by cases h) (arrival_of_ne hm c) owed

/-- The feed `i` is steady, and the session `j` has caught what has arrived on it. -/
structure Follows (i j : Nat) (initial owed : Option Nat) (arrived begun : List Nat) (c : Client) :
    Prop where
  tidy : c.Tidy
  feed : ∃ f, c.table.feed? i = some f ∧ f.initial = initial ∧ f.Steady owed arrived ∧
    (j ∈ f.sessions ∨ ∀ s, c.sessions[j]? = some s → s.removed = true)
  session : ∃ s, c.sessions[j]? = some s ∧ s.floor = initial ∧ s.Caught arrived begun

section Step

variable {initial owed : Option Nat} {arrived begun : List Nat}

theorem Act.follows {k : Nat} {own : Nat → Prop} (h : Act k own c c')
    (hc : c.Follows i j initial owed arrived begun) :
    c'.Follows i j initial owed arrived begun := by
  obtain ⟨htidy, ⟨f, hf, hinitial, hsteady, hon⟩, s, hs, hfloor, hcaught⟩ := hc
  obtain ⟨f', hf', ha⟩ := h.feed htidy.sound hf
  have hsession : ∃ s', c'.sessions[j]? = some s' ∧ s'.floor = initial ∧
      s'.Caught arrived begun ∧ (s.removed = true → s'.removed = true) := by
    rcases h.session hs with heq | ⟨-, heq⟩
    · exact ⟨s, heq, hfloor, hcaught, id⟩
    · exact ⟨s.close, heq, hfloor, hcaught.close, fun _ => rfl⟩
  obtain ⟨s', hs', hfloor', hcaught', hremoved⟩ := hsession
  refine ⟨h.tidy htidy, ⟨f', hf', ?_, hsteady.of_alike ha, ?_⟩, s', hs', hfloor', hcaught'⟩
  · rw [ha.same]
    exact hinitial
  · rcases hon with hj | hr
    · by_cases hj' : j ∈ f'.sessions
      · exact Or.inl hj'
      · exact Or.inr fun s₁ hs₁ => h.detached htidy.sound hf hf' hj hj' hs₁
    · refine Or.inr fun s₁ hs₁ => ?_
      rw [hs', Option.some.injEq] at hs₁
      exact hs₁ ▸ hremoved (hr s hs)

theorem Acts.follows {k : Nat} {own : Nat → Prop} (h : Acts k own c c')
    (hc : c.Follows i j initial owed arrived begun) :
    c'.Follows i j initial owed arrived begun := by
  induction h with
  | refl => exact hc
  | tail _ h ih => exact h.follows ih

/-- A feed that moves asks for the next block, or moves on by the block that arrived. -/
theorem steady_after {f : Feed} (r : ReconnectOptions) (hf : c.table.feed? i = some f)
    (hm : m.feed? = some i) (hadmits : f.Admits m) (h : f.Steady owed arrived)
    (hnext : ∀ n ∈ c.arrival i m, ∀ k ∈ owed, n = k) :
    (f.after r m).Steady (c.owes i owed m) (arrived ++ c.arrival i m) := by
  cases m <;> simp only [Move.feed?, reduceCtorEq, Option.some.injEq] at hm <;> subst hm
  case requestStream i =>
    rw [owes, asks?_requestStream hf hadmits, if_pos rfl, Option.getD_some]
    rw [show c.arrival i (.requestStream i) = [] from rfl, List.append_nil]
    exact ⟨h.consecutive, h.last, fun _ => rfl⟩
  case streamOpened i =>
    rw [owes_of_silent (fun _ h => by cases h) rfl]
    rw [show c.arrival i (.streamOpened i) = [] from rfl, List.append_nil]
    exact ⟨h.consecutive, h.last, fun _ => h.owes (Or.inl hadmits)⟩
  case blockArrived i b =>
    have harrival : c.arrival i (.blockArrived i b) = [b.number] :=
      if_pos ⟨rfl, f, hf, hadmits⟩
    rw [harrival] at hnext
    simp only [owes, harrival]
    exact h.advance hadmits r (hnext _ (List.mem_singleton_self _))
  all_goals
    rw [owes_of_silent (fun _ h => by cases h) rfl]
    simp only [arrival, List.append_nil]
    refine ⟨h.consecutive, h.last, fun hp => ?_⟩
    simp [Feed.after, Feed.rest] at hp

theorem arrival_eq_hands {f : Feed} (hf : c.table.feed? i = some f) (hm : m.feed? = some i)
    (hadmits : f.Admits m) : c.arrival i m = (f.hands m).filterMap Session.numberOf := by
  cases m <;> simp only [Move.feed?, reduceCtorEq, Option.some.injEq] at hm <;> subst hm
  case blockArrived i b => exact if_pos ⟨rfl, f, hf, hadmits⟩
  all_goals rfl

theorem arrival_of_not_admits (hm : m.feed? = some i)
    (hno : ∀ f, c.table.feed? i = some f → ¬ f.Admits m) : c.arrival i m = [] := by
  cases m <;> simp only [Move.feed?, reduceCtorEq, Option.some.injEq] at hm <;> subst hm
  case blockArrived i b =>
    refine if_neg ?_
    rintro ⟨-, f, hf, hadmits⟩
    exact hno f hf hadmits
  all_goals rfl

theorem owes_of_not_admits (hm : m.feed? = some i)
    (hno : ∀ f, c.table.feed? i = some f → ¬ f.Admits m) (heq : c.apply m = c)
    (owed : Option Nat) : c.owes i owed m = owed := by
  have harrival := arrival_of_not_admits hm hno
  cases m with
  | requestStream k => rw [owes, asks?_eq_none heq, Option.getD_none]
  | _ => exact owes_of_silent (fun _ h => by cases h) harrival owed

/-- The move of a feed hands what arrives on `i` to the session `j`, and what arrives on another
feed to others. -/
theorem Follows.feed_move {k : Nat} (hc : c.Follows i j initial owed arrived begun)
    (hm : m.feed? = some k) (hnext : ∀ n ∈ c.arrival i m, ∀ l ∈ owed, n = l) :
    (c.apply m).Follows i j initial (c.owes i owed m) (arrived ++ c.arrival i m) begun := by
  rcases feed_move_cases (c := c) hm with ⟨hno, heq⟩ | ⟨g, hadmits, h⟩
  · have hsilent : c.arrival i m = [] ∧ c.owes i owed m = owed := by
      by_cases hik : k = i
      · subst hik
        exact ⟨arrival_of_not_admits hm hno, owes_of_not_admits hm hno heq owed⟩
      · have hne : m.feed? ≠ some i := fun h => hik (Option.some.inj (hm.symm.trans h))
        exact ⟨arrival_of_ne hne c, owes_of_ne hne c owed⟩
    rw [heq, hsilent.1, hsilent.2, List.append_nil]
    exact hc
  obtain ⟨htidy, ⟨f, hf, hinitial, hsteady, hon⟩, s, hs, hfloor, hcaught⟩ := hc
  have hsession := h.session (htidy.sound.nodup h.feed) j
  rw [hs, Option.map_some] at hsession
  have hsessions := (g.after_same c.options.reconnect m).2.2.2.2
  by_cases hik : k = i
  · subst hik
    obtain rfl : g = f := Option.some.inj (h.feed.symm.trans hf)
    refine ⟨htidy.apply m, ⟨_, by rw [h.feeds, if_pos rfl], ?_, ?_, ?_⟩, ?_⟩
    · exact (g.after_same c.options.reconnect m).2.2.2.1.trans hinitial
    · exact steady_after _ hf hm hadmits hsteady hnext
    · rw [hsessions]
      refine hon.imp_right fun hr s' hs' => ?_
      split_ifs at hsession <;> rw [hs', Option.some.injEq] at hsession <;> rw [hsession]
      · rw [Session.foldl_deliver_of_removed (hr s hs)]
        exact hr s hs
      · exact hr s hs
    · rw [arrival_eq_hands hf hm hadmits]
      split_ifs at hsession with hj
      · exact ⟨_, hsession, (Session.floor_foldl_deliver _ s).trans hfloor, hcaught.deliverAll _⟩
      · exact ⟨s, hsession, hfloor, hcaught.of_removed (hon.resolve_left hj s hs) _⟩
  · have hne : m.feed? ≠ some i := fun h => hik (Option.some.inj (hm.symm.trans h))
    rw [arrival_of_ne hne, owes_of_ne hne, List.append_nil]
    -- a session that is on another feed is not on this one, and so it was removed
    have hsame : (c.apply m).sessions[j]? = some s := by
      split_ifs at hsession with hj
      · have hj' : j ∉ f.sessions := fun hj' => hik (htidy.sound.apart h.feed hf hj hj')
        rwa [Session.foldl_deliver_of_removed (hon.resolve_left hj' s hs)] at hsession
      · exact hsession
    have hfeed : (c.apply m).table.feed? i = some f := by rw [h.feeds, if_neg hik, hf]
    refine ⟨htidy.apply m, ⟨f, hfeed, hinitial, hsteady, ?_⟩, s, hsame, hfloor, hcaught⟩
    rwa [hsame, ← hs]

theorem beginning_of_not_admits (hm : m.session? = some j) {s : Session}
    (hs : c.sessions[j]? = some s) (hno : ¬ s.Admits m) : c.beginning j m = [] := by
  cases m <;> simp only [Move.session?, reduceCtorEq, Option.some.injEq] at hm <;> subst hm
  case takeNext j =>
    rw [beginning_takeNext hs]
    unfold Session.begins?
    split
    · next hw _ hq =>
      have hready : s.isReady = true := by simp [Session.isReady, hw, hq]
      exact absurd hready hno
    · rfl
  all_goals rfl

/-- What has arrived lies at or above the floor of a session that begins where the feed does. -/
theorem reaches_floor {f : Feed} {s : Session} (hsteady : f.Steady owed arrived)
    (hfloor : s.floor = f.initial) (hcaught : s.Caught arrived begun) :
    ∀ x ∈ s.waiting, Session.reaches s.floor x = true := by
  intro x hx
  obtain ⟨a, ha, hinitial⟩ := hsteady.consecutive
  have hmem : x ∈ arrived := hcaught.front.subset (List.mem_append_right _ hx)
  rw [ha, List.mem_range'_1] at hmem
  cases hs : s.floor with
  | none => rfl
  | some k =>
    have hk : a = k := hinitial k (hfloor.symm.trans hs)
    simpa [Session.reaches] using hk ▸ hmem.1

/-- A session that moves begins with what it takes, and has caught the rest still. -/
theorem caught_of_own_move (hm : m.session? = some j) {s s' : Session}
    (hs : c.sessions[j]? = some s) (hs' : s' = s.after m ∨ s' = (s.after m).answer (.told true))
    (hcaught : s.Caught arrived begun) (hfloor : ∀ x ∈ s.waiting, Session.reaches s.floor x = true)
    (hinc : arrived.Pairwise (· < ·)) : s'.floor = s.floor ∧ s'.removed = s.removed ∧
      s'.Caught arrived (begun ++ c.beginning j m) := by
  have hafter : (s.after m).floor = s.floor ∧ (s.after m).removed = s.removed ∧
      (s.after m).Caught arrived (begun ++ c.beginning j m) := by
    cases m <;> simp only [Move.session?, reduceCtorEq, Option.some.injEq] at hm <;> subst hm
    case takeNext j =>
      rw [beginning_takeNext hs]
      exact ⟨s.floor_take, s.removed_take, hcaught.take hfloor hinc⟩
    case answer j r =>
      rw [show c.beginning j (.answer j r) = [] from rfl, List.append_nil]
      exact ⟨s.floor_answer r, s.removed_answer r, hcaught.answer r⟩
  obtain ⟨hfloor', hremoved, hcaught'⟩ := hafter
  rcases hs' with rfl | rfl
  · exact ⟨hfloor', hremoved, hcaught'⟩
  · exact ⟨(Session.floor_answer _ _).trans hfloor', (Session.removed_answer _ _).trans hremoved,
      hcaught'.answer _⟩

theorem Follows.session_move {k : Nat} (hc : c.Follows i j initial owed arrived begun)
    (hm : m.session? = some k) :
    (c.apply m).Follows i j initial owed arrived (begun ++ c.beginning j m) := by
  have htidy := hc.tidy.apply m
  obtain ⟨-, ⟨f, hf, hinitial, hsteady, hon⟩, s, hs, hfloor, hcaught⟩ := hc
  rcases session_move_cases (c := c) hm with ⟨hno, heq⟩ | ⟨s₁, s', hadmits, hs', h⟩
  · have hbeginning : c.beginning j m = [] := by
      by_cases hkj : k = j
      · subst hkj
        exact beginning_of_not_admits hm hs (hno s hs)
      · exact beginning_of_ne (fun h => hkj (Option.some.inj (hm.symm.trans h))) c
    rw [heq, hbeginning, List.append_nil]
    rw [heq] at htidy
    exact ⟨htidy, ⟨f, hf, hinitial, hsteady, hon⟩, s, hs, hfloor, hcaught⟩
  have hsessions := h.sessions j
  by_cases hkj : k = j
  · subst hkj
    obtain rfl : s₁ = s := Option.some.inj (h.session.symm.trans hs)
    rw [if_pos rfl] at hsessions
    have hreach := reaches_floor hsteady (hfloor.trans hinitial.symm) hcaught
    obtain ⟨hfloor', hremoved, hcaught'⟩ := caught_of_own_move hm hs hs' hcaught hreach
      hsteady.pairwise
    refine ⟨htidy, ⟨f, h.table ▸ hf, hinitial, hsteady, hon.imp_right fun hr s₂ hs₂ => ?_⟩, s',
      hsessions, hfloor'.trans hfloor, hcaught'⟩
    rw [hsessions, Option.some.injEq] at hs₂
    rw [← hs₂, hremoved]
    exact hr s₁ hs
  · rw [if_neg hkj] at hsessions
    rw [beginning_of_ne (fun h => hkj (Option.some.inj (hm.symm.trans h))), List.append_nil]
    exact ⟨htidy, ⟨f, h.table ▸ hf, hinitial, hsteady, by rwa [hsessions]⟩, s,
      hsessions.trans hs, hfloor, hcaught⟩

/-- What arrives in a move is caught, and what the session begins with is the next of it. -/
theorem Follows.apply (hc : c.Follows i j initial owed arrived begun) (m : Move)
    (hnext : ∀ n ∈ c.arrival i m, ∀ k ∈ owed, n = k) :
    (c.apply m).Follows i j initial (c.owes i owed m) (arrived ++ c.arrival i m)
      (begun ++ c.beginning j m) := by
  cases hfeed : m.feed? with
  | some k =>
    have hsession : m.session? ≠ some j := by
      cases m <;> simp_all [Move.feed?, Move.session?]
    rw [beginning_of_ne hsession, List.append_nil]
    exact hc.feed_move hfeed hnext
  | none =>
    have hne : m.feed? ≠ some i := by simp [hfeed]
    rw [arrival_of_ne hne, owes_of_ne hne, List.append_nil]
    cases hsession : m.session? with
    | some k => exact hc.session_move hsession
    | none =>
      rw [beginning_of_ne (by simp [hsession]), List.append_nil]
      exact (acts_apply hc.tidy.bounded hc.tidy.known hfeed hsession).follows hc

/-- A session that is on its feed from before the first block catches all that a faithful stream
brings. -/
theorem Follows.run (hc : c.Follows i j initial owed arrived begun) {ms : List Move}
    (h : Faithful i c owed ms) : ∃ owed', (c.run ms).Follows i j initial owed'
      (arrived ++ gather (arrival i) c ms) (begun ++ gather (beginning j) c ms) := by
  induction ms generalizing c owed arrived begun with
  | nil => exact ⟨owed, by simpa [gather] using hc⟩
  | cons m ms ih =>
    obtain ⟨owed', hrun⟩ := ih (hc.apply m h.1) h.2
    refine ⟨owed', ?_⟩
    simpa only [run_cons, gather, List.append_assoc] using hrun

end Step

/-! ## Every run -/

/-- What arrives on the feed `i` is `a`, `a + 1` and so on, and the session `j` begins to handle
these blocks in this order and each of them once: what it has not begun with waits for it, unless it
was removed, and comes next when nothing is in hand. -/
structure InStep (i j a : Nat) (c : Client) (ms : List Move) : Prop where
  arrives : ∃ n, gather (arrival i) c ms = List.range' a n
  begins : ∃ s, (c.run ms).sessions[j]? = some s ∧
    s.Caught (gather (arrival i) c ms) (gather (beginning j) c ms) ∧
    ∀ d rest, s.work = none → s.removed = false → s.queue = d :: rest →
      s.begins? = Session.numberOf d

theorem inStep_of_fresh {c : Client} {i j : Nat} {f : Feed} {ms : List Move} (hc : c.Tidy)
    (hf : c.table.feed? i = some f) (hlast : f.last = none) (hj : j ∈ f.sessions)
    (h : Faithful i c f.initial ms) :
    ∃ a, (∀ k, f.initial = some k → a = k) ∧ InStep i j a c ms := by
  obtain ⟨s, hs⟩ : ∃ s, c.sessions[j]? = some s :=
    ⟨_, List.getElem?_eq_getElem (hc.bounded i f hf j hj)⟩
  have hfits := hc.fits hf hj hs
  have huntouched := hfits.untouched hlast
  have hsteady : f.Steady f.initial [] :=
    ⟨⟨f.initial.getD 0, rfl, fun k hk => by rw [hk, Option.getD_some]⟩, hlast,
      fun _ => by rw [Feed.resumePosition, hlast]⟩
  have hwaiting : s.waiting = [] := by
    rw [Session.waiting, List.filterMap_eq_nil_iff]
    exact huntouched.queue
  have hcaught : s.Caught [] [] := by
    refine ⟨by simp [hwaiting], fun _ => by simp [hwaiting], fun n hn => ?_⟩
    unfold Session.bound at hn
    split at hn
    · next k p hw =>
      rw [huntouched.work k p hw, huntouched.last] at hn
      cases hn
    · rw [huntouched.last] at hn
      cases hn
  have hstart : c.Follows i j f.initial f.initial [] [] :=
    ⟨hc, ⟨f, hf, rfl, hsteady, Or.inl hj⟩, s, hs, hfits.floor, hcaught⟩
  obtain ⟨owed', -, ⟨f', hf', hinitial, hsteady', -⟩, s', hs', hfloor, hcaught'⟩ := hstart.run h
  rw [List.nil_append, List.nil_append] at *
  obtain ⟨a, ha, hstarts⟩ := hsteady'.consecutive
  refine ⟨a, fun k hk => hstarts k (hinitial.trans hk), ⟨_, ha⟩, s', hs', hcaught',
    fun d rest hw hr hq => ?_⟩
  have hacc := hcaught'.accepts (reaches_floor hsteady' (hfloor.trans hinitial.symm) hcaught')
    hsteady'.pairwise hw hr hq
  simp only [Session.begins?, hw, hr, hq, hacc, if_true]

/-- A call waits for a feed whose first attempt is not over. -/
theorem followLinks_of_launching {c : Client} {i : Nat} {key : ListenerKey} {a : Attachment}
    {next : AfterLink} {f : Feed} (hf : c.table.feed? a.feed = some f) (hp : f.phase = .launching) :
    c.followLinks i key [⟨a, false⟩] next = c.setCall i (.linking key [⟨a, false⟩] next) := by
  have hprogress : c.progress [⟨a, false⟩] = [⟨a, false⟩] := by
    simp [progress, hf, Feed.isAttempted, Feed.status, hp]
  simp [followLinks, hprogress]

/-- A listener that begins at a block gets a feed of its own that begins there. -/
theorem attachListener_start (c : Client) (i : Nat) (key : ListenerKey) (o : ListenerOptions)
    {peer : Peer} (hpeer : c.channel.localEventPeer? c.identity.organization = some peer)
    (k : Nat) :
    (c.attachListener i key o (some k)).table.feed? c.table.feeds.length =
        some (FeedTable.opening c.options.reconnect peer o.kind (some k) c.sessions.length) ∧
      (c.attachListener i key o (some k)).sessions =
        c.sessions ++ [.new (key.audience o) (some k)] := by
  obtain ⟨agenda, hspawn⟩ := c.spawn_eq (key.audience o) (some k)
  let c₁ : Client :=
    { c with sessions := c.sessions ++ [.new (key.audience o) (some k)], agenda }
  obtain ⟨agenda', hattach⟩ := c₁.attachTo_eq peer o.kind (some k) c.sessions.length
  let f := FeedTable.opening c.options.reconnect peer o.kind (some k) c.sessions.length
  let c₂ : Client :=
    { c₁ with table := ⟨c.table.feeds ++ [f], c.table.shared⟩, agenda := agenda' }
  have hf : c₂.table.feed? c.table.feeds.length = some f := by
    rw [FeedTable.feed?_append, if_pos rfl]
  have heq : c.attachListener i key o (some k) =
      c₂.followLinks i key [⟨⟨c.table.feeds.length, c.sessions.length⟩, false⟩] .added := by
    unfold attachListener
    simp only [hpeer, hspawn]
    exact congrArg (fun x : Client × Attachment => x.1.followLinks i key [⟨x.2, false⟩] .added)
      hattach
  rw [heq, followLinks_of_launching hf rfl]
  exact ⟨hf, rfl⟩

theorem addListener_eq {c : Client} {s : Subject} {o : ListenerOptions}
    (hplain : o.checkpointer = none) (hfree : c.registered? s.key = none) :
    c.addListener s o =
      (c.newCall.1.reserve s.key).attachListener c.nextCall s.key o o.startBlock := by
  have hfree' : c.newCall.1.registered? s.key = none := hfree
  simp only [addListener, hfree', hplain]
  rfl

/-- Reconnecting neither loses nor repeats a block.  Over a faithful stream, whatever else happens
and however often the stream fails, ends or cannot be opened, a listener that is added with a start
block handles this block and all that follow; a session that is on a shared feed before the first
block handles this first block, whichever it is, and all that follow. -/
theorem reconnects_neither_lose_nor_repeat (channel : Channel) (identity : Identity)
    (options : Options) (past : List Move) :
    let c := (new channel identity options).run past
    (∀ (s : Subject) (o : ListenerOptions) (k : Nat), o.startBlock = some k →
      o.checkpointer = none → c.registered? s.key = none →
      c.channel.localEventPeer? c.identity.organization ≠ none →
      let c' := c.apply (.addListener s o)
      c'.sessions[c.sessions.length]? = some (.new (s.key.audience o) (some k)) ∧
      ∀ ms, Faithful c.table.feeds.length c' (some k) ms →
        InStep c.table.feeds.length c.sessions.length k c' ms) ∧
    ∀ (i : Nat) (f : Feed) (j : Nat), c.table.feed? i = some f → f.shared = true →
      f.last = none → j ∈ f.sessions →
      ∀ ms, Faithful i c none ms → ∃ a, InStep i j a c ms := by
  intro c
  have hc : c.Tidy := tidy_run channel identity options past
  refine ⟨fun s o k hstart hplain hfree hpeer => ?_, fun i f j hf hshared hlast hj ms hms => ?_⟩
  · obtain ⟨peer, hpeer⟩ := Option.ne_none_iff_exists'.1 hpeer
    intro c'
    have hadd : c' = (c.newCall.1.reserve s.key).attachListener c.nextCall s.key o (some k) :=
      (addListener_eq hplain hfree).trans (by rw [hstart])
    obtain ⟨hf, hsessions⟩ :=
      attachListener_start (c.newCall.1.reserve s.key) c.nextCall s.key o hpeer k
    rw [← hadd] at hf hsessions
    refine ⟨?_, fun ms hms => ?_⟩
    · rw [hsessions]
      exact List.getElem?_concat_length
    · obtain ⟨a, ha, hstep⟩ := inStep_of_fresh (hc.apply (.addListener s o)) hf rfl
        (List.mem_singleton_self _) hms
      exact ha k rfl ▸ hstep
  · have hinitial : f.initial = none := by
      have h := hc.sound.begins hf
      rw [hshared] at h
      exact Option.isNone_iff_eq_none.1 h.symm
    obtain ⟨a, -, hstep⟩ := inStep_of_fresh hc hf hlast hj (hinitial ▸ hms)
    exact ⟨a, hstep⟩

/-- A block without transactions. -/
def emptyBlock (n : Nat) : Block := ⟨n, .full, [], none⟩

/-- The first attempt on a feed fails; a stream breaks after the block `n`, and the next one ends
after the block that follows it.  The session handles all of this at the end. -/
def brokenAfter (i j n : Nat) : List Move :=
  [.requestStream i, .streamRefused i (.unreachable "peer" "down"), .requestStream i,
    .streamOpened i, .blockArrived i (emptyBlock n), .streamBroke i (.streamBroken "peer" "down"),
    .requestStream i, .streamOpened i, .blockArrived i (emptyBlock (n + 1)), .streamEnded i] ++
  (List.replicate 4 [.takeNext j, .answer j (.told true)]).flatten

/-- A listener from block five on, on its own feed, and one on a shared feed. -/
theorem none_lost_nor_repeated_in_two_breaks :
    let c := (new onePeer ⟨"org", []⟩ .default).run [.addListener (.blocks (.app "old")) {}]
    let c' := c.apply (.addListener (.blocks (.app "new")) { startBlock := some 5 })
    gather (beginning 1) c' (brokenAfter 1 1 5) = [5, 6] ∧ InStep 1 1 5 c' (brokenAfter 1 1 5) ∧
      gather (beginning 0) c (brokenAfter 0 0 8) = [8, 9] ∧
      ∃ a, InStep 0 0 a c (brokenAfter 0 0 8) := by
  intro c c'
  obtain ⟨hown, hshared⟩ := reconnects_neither_lose_nor_repeat onePeer ⟨"org", []⟩ .default
    [.addListener (.blocks (.app "old")) {}]
  refine ⟨by decide +kernel, ?_, by decide +kernel, ?_⟩
  · exact (hown (.blocks (.app "new")) { startBlock := some 5 } 5 rfl rfl (by decide +kernel)
      (by decide +kernel)).2 _ (by decide +kernel)
  · exact hshared 0 (FeedTable.opening .default ⟨"peer", "org", "", .all⟩ .full none 0) 0
      (by decide +kernel) rfl rfl (by decide +kernel) _ (by decide +kernel)

end Client

end LedgerClient
