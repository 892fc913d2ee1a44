import LedgerClient.Proofs.Attempts

/-!
# Where a feed asks to begin

A feed knows the highest number of all blocks that arrived on it (`Client.Knows`), and asks for the
block after it, or, as long as nothing arrived, for the start that it was made with.  So from the
first block on its requests never go back.  But the numbers are the choice of the peer, and before
the first block nothing but the start holds the feed to it: when only blocks arrive that lie
further below, the next request is for less than the first.  This is the only way back
(`Client.goes_back_iff`).
-/

namespace LedgerClient

namespace Feed

/-- From one start to the next a feed goes back: from a number to a lower one, or to whatever comes
from now on. -/
def GoesBack (a b : Option Nat) : Prop := ∃ n ∈ a, ∀ k ∈ b, k < n

instance (a b : Option Nat) : Decidable (GoesBack a b) :=
  inferInstanceAs (Decidable (∃ n ∈ a, ∀ k ∈ b, k < n))

variable {initial : Option Nat} {ns before since : List Nat} {n : Nat}

/-- The bare feed begins and stands where the feed does. -/
theorem same_of_bare {f f' : Feed} (h : f'.bare = f.bare) :
    f'.initial = f.initial ∧ f'.last = f.last := by
  have hinitial := congrArg Feed.initial h
  have hlast := congrArg Feed.last h
  exact ⟨hinitial, hlast⟩

theorem startAfter_of_max (h : ns.max? = some n) : startAfter initial ns = some (n + 1) := by
  rw [startAfter, h]

/-- A feed that began at a block asks for less when blocks arrived, and all of them further
below. -/
theorem goesBack_from_initial :
    GoesBack initial (startAfter initial ns) ↔
      ns ≠ [] ∧ ∃ s, initial = some s ∧ ∀ n ∈ ns, n + 1 < s := by
  cases hmax : ns.max? with
  | none =>
    have hnil : ns = [] := List.max?_eq_none_iff.1 hmax
    subst hnil
    rw [show startAfter initial [] = initial from rfl]
    exact ⟨fun ⟨s, hs, hlow⟩ => absurd (hlow s hs) (Nat.lt_irrefl s), fun h => absurd rfl h.1⟩
  | some n =>
    obtain ⟨hmem, hle⟩ := List.max?_eq_some_iff.1 hmax
    rw [startAfter_of_max hmax]
    constructor
    · rintro ⟨s, hs, hlow⟩
      have hn : n + 1 < s := hlow _ rfl
      refine ⟨List.ne_nil_of_mem hmem, s, hs, fun k hk => ?_⟩
      have := hle k hk
      omega
    · rintro ⟨-, s, hs, hall⟩
      refine ⟨s, hs, ?_⟩
      rintro _ ⟨⟩
      exact hall n hmem

/-- A feed on which a block arrived never goes back, whatever arrives since. -/
theorem not_goesBack_of_arrived (hne : before ≠ []) (since : List Nat) :
    ¬ GoesBack (startAfter initial before) (startAfter initial (before ++ since)) := by
  obtain ⟨n, hn⟩ := Option.ne_none_iff_exists'.1 (mt List.max?_eq_none_iff.1 hne)
  have happend : before ++ since ≠ [] := List.append_ne_nil_of_left_ne_nil hne since
  obtain ⟨k, hk⟩ := Option.ne_none_iff_exists'.1 (mt List.max?_eq_none_iff.1 happend)
  have hle : n ≤ k := (List.max?_eq_some_iff.1 hk).2 n
    (List.mem_append_left _ (List.max?_eq_some_iff.1 hn).1)
  rw [startAfter_of_max hn, startAfter_of_max hk]
  rintro ⟨_, ⟨⟩, hlow⟩
  have := hlow _ rfl
  omega

theorem goesBack_startAfter_iff :
    GoesBack (startAfter initial before) (startAfter initial (before ++ since)) ↔
      before = [] ∧ since ≠ [] ∧ ∃ s, initial = some s ∧ ∀ n ∈ since, n + 1 < s := by
  by_cases hnil : before = []
  · subst hnil
    rw [List.nil_append, show startAfter initial [] = initial from rfl, goesBack_from_initial]
    simp
  · simp [hnil, not_goesBack_of_arrived hnil since]

end Feed

/-! ## What a feed knows -/

namespace Client

variable {c c' : Client} {m : Move} {i : Nat} {arrived : List Nat} {f : Feed}

/-- The feed knows the highest number of the blocks that arrived on it; before it is made, there are
none. -/
def Knows (i : Nat) (arrived : List Nat) (c : Client) : Prop :=
  match c.table.feed? i with
  | none => arrived = []
  | some f => f.last = arrived.max?

theorem knows_of_some (hf : c.table.feed? i = some f) :
    c.Knows i arrived ↔ f.last = arrived.max? := by
  rw [Knows, hf]

theorem knows_of_none (hf : c.table.feed? i = none) : c.Knows i arrived ↔ arrived = [] := by
  rw [Knows, hf]

theorem knows_new (channel : Channel) (identity : Identity) (options : Options) (i : Nat) :
    (new channel identity options).Knows i [] := rfl

theorem Knows.of_bare (h : c.Knows i arrived) {f' : Feed} (hf : c.table.feed? i = some f)
    (hf' : c'.table.feed? i = some f') (hbare : f'.bare = f.bare) : c'.Knows i arrived := by
  rw [knows_of_some hf', (Feed.same_of_bare hbare).2]
  exact (knows_of_some hf).1 h

/-- Calls leave what a feed knows, and nothing arrived on a feed that they make. -/
theorem Act.knows {k : Nat} {own : Nat → Prop} (h : Act k own c c') (hc : c.Tidy)
    (hknows : c.Knows i arrived) : c'.Knows i arrived := by
  cases hf : c.table.feed? i with
  | some f =>
    obtain ⟨f', hf', halike⟩ := h.feed hc.sound hf
    exact hknows.of_bare hf hf' halike.bare
  | none =>
    obtain rfl := (knows_of_none hf).1 hknows
    cases hf' : c'.table.feed? i with
    | none => exact (knows_of_none hf').2 rfl
    | some f' =>
      obtain ⟨r, peer, kind, start, session, rfl⟩ := h.opening hf hf'
      exact (knows_of_some hf').2 rfl

theorem Acts.knows {k : Nat} {own : Nat → Prop} (h : Acts k own c c') (hc : c.Tidy)
    (hknows : c.Knows i arrived) : c'.Knows i arrived := by
  induction h with
  | refl => exact hknows
  | tail hprev hstep ih => exact hstep.knows (Acts.tidy hprev hc) ih

theorem knows_of_not_moved (hc : c.Tidy)
    (hno : ∀ {f}, c.table.feed? i = some f → ¬ (m.feed? = some i ∧ f.Admits m))
    (h : c.Knows i arrived) : (c.apply m).Knows i arrived := by
  rcases not_moved_cases hc hno with heq | ⟨k, own, hacts⟩
  · rwa [Knows, heq]
  · exact hacts.knows hc h

theorem arrival_of_not_moved
    (hno : ∀ {f}, c.table.feed? i = some f → ¬ (m.feed? = some i ∧ f.Admits m)) :
    c.arrival i m = [] := by
  by_cases hm : m.feed? = some i
  · exact arrival_of_not_admits hm fun f hf hadmits => hno hf ⟨hm, hadmits⟩
  · exact arrival_of_ne hm c

theorem last_after {r : ReconnectOptions} (hf : c.table.feed? i = some f)
    (hm : m.feed? = some i) (hadmits : f.Admits m) (h : f.last = arrived.max?) :
    (f.after r m).last = (arrived ++ c.arrival i m).max? := by
  rw [arrival_eq_hands hf hm hadmits]
  cases m with
  | blockArrived k b =>
    have hnumber : (f.hands (.blockArrived k b)).filterMap Session.numberOf = [b.number] := rfl
    rw [hnumber, Passage.max?_concat, ← h]
    rfl
  | _ => exact h.trans (congrArg List.max? (List.append_nil _).symm)

theorem Knows.apply (h : c.Knows i arrived) (hc : c.Tidy) (m : Move) :
    (c.apply m).Knows i (arrived ++ c.arrival i m) := by
  by_cases hmoved : ∃ f, c.table.feed? i = some f ∧ m.feed? = some i ∧ f.Admits m
  · obtain ⟨f, hf, hm, hadmits⟩ := hmoved
    rw [knows_of_some (feed_of_moved hf hm hadmits)]
    exact last_after hf hm hadmits ((knows_of_some hf).1 h)
  · have hno : ∀ {f}, c.table.feed? i = some f → ¬ (m.feed? = some i ∧ f.Admits m) :=
      fun hf h => hmoved ⟨_, hf, h⟩
    rw [arrival_of_not_moved hno, List.append_nil]
    exact knows_of_not_moved hc hno h

theorem Knows.run (h : c.Knows i arrived) (hc : c.Tidy) (ms : List Move) :
    (c.run ms).Knows i (arrived ++ gather (arrival i) c ms) := by
  induction ms generalizing c arrived with
  | nil => rwa [gather, List.append_nil]
  | cons m ms ih =>
    rw [run_cons, gather, ← List.append_assoc]
    exact ih (h.apply hc m) (hc.apply m)

/-! ## Where it began -/

theorem initial_apply (hc : c.Tidy) (hf : c.table.feed? i = some f) (m : Move) :
    ∃ f', (c.apply m).table.feed? i = some f' ∧ f'.initial = f.initial := by
  by_cases hmoved : m.feed? = some i ∧ f.Admits m
  · obtain ⟨hm, hadmits⟩ := hmoved
    exact ⟨_, feed_of_moved hf hm hadmits, (f.after_same c.options.reconnect m).2.2.2.1⟩
  · obtain ⟨f', hf', hbare⟩ := Option.map_eq_some_iff.1 (bare_of_not_moved hc hf hmoved)
    exact ⟨f', hf', (Feed.same_of_bare hbare).1⟩

theorem initial_run (hc : c.Tidy) (hf : c.table.feed? i = some f) (ms : List Move) :
    ∃ f', (c.run ms).table.feed? i = some f' ∧ f'.initial = f.initial := by
  induction ms generalizing c f with
  | nil => exact ⟨f, hf, rfl⟩
  | cons m ms ih =>
    obtain ⟨g, hg, hinitial⟩ := initial_apply hc hf m
    obtain ⟨f', hf', hinitial'⟩ := ih (hc.apply m) hg
    exact ⟨f', hf', hinitial'.trans hinitial⟩

/-! ## What it asks for -/

/-- What a feed asks for follows from where it began and from what arrived on it. -/
theorem asks?_of_knows (hc : c.Tidy) (h : c.Knows i arrived) {a : Option Nat}
    (ha : c.asks? i m = some a) :
    ∃ f, c.table.feed? i = some f ∧ a = Feed.startAfter f.initial arrived := by
  obtain ⟨rfl, f, hf, hadmits⟩ := request_of_asks? hc (ha ▸ Option.some_ne_none a)
  rw [asks?_requestStream hf hadmits, if_pos rfl, Option.some.injEq] at ha
  refine ⟨f, hf, ha.symm.trans (Feed.resumePosition_eq_startAfter ?_)⟩
  exact (knows_of_some hf).1 h

/-- When a feed goes back.  In every run a feed asks each time for the block after the highest that
arrived on it, and for the start that it was made with as long as none did.  It asks for less than
this start when blocks arrived and all of them lie further below, and not otherwise.  So it goes
back, from one request to any later one, exactly if it was made with a start, no block had arrived
at the first of the two, and such blocks have arrived since. -/
theorem goes_back_iff (channel : Channel) (identity : Identity) (options : Options)
    (past : List Move) {m : Move} {i : Nat} {a : Option Nat} :
    let c := (new channel identity options).run past
    let before := gather (arrival i) (new channel identity options) past
    c.asks? i m = some a →
    ∃ f, c.table.feed? i = some f ∧ a = Feed.startAfter f.initial before ∧
      (Feed.GoesBack f.initial a ↔
        before ≠ [] ∧ ∃ s, f.initial = some s ∧ ∀ n ∈ before, n + 1 < s) ∧
      ∀ (between : List Move) {m' : Move} {b : Option Nat},
        let c' := c.run (m :: between)
        let since := gather (arrival i) c (m :: between)
        c'.asks? i m' = some b →
        b = Feed.startAfter f.initial (before ++ since) ∧
          (Feed.GoesBack a b ↔
            before = [] ∧ since ≠ [] ∧ ∃ s, f.initial = some s ∧ ∀ n ∈ since, n + 1 < s) := by
  intro c before ha
  have hc : c.Tidy := tidy_run channel identity options past
  have hknows : c.Knows i before :=
    (knows_new channel identity options i).run (tidy_new channel identity options) past
  obtain ⟨f, hf, rfl⟩ := asks?_of_knows hc hknows ha
  refine ⟨f, hf, rfl, Feed.goesBack_from_initial, ?_⟩
  intro between m' b c' since hb
  have hknows' : c'.Knows i (before ++ since) := hknows.run hc (m :: between)
  obtain ⟨f', hf', rfl⟩ := asks?_of_knows (hc.run (m :: between)) hknows' hb
  obtain ⟨g, hg, hinitial⟩ := initial_run hc hf (m :: between)
  obtain rfl : g = f' := Option.some.inj (hg.symm.trans hf')
  rw [hinitial]
  exact ⟨rfl, Feed.goesBack_startAfter_iff⟩

/-- A stream of the feed brings one block and ends. -/
def oneBlock (i n : Nat) : List Move :=
  [.streamOpened i, .blockArrived i (emptyBlock n), .streamEnded i]

/-- A listener from block ten on, whose peer sends block three. -/
theorem asks_for_four_after_ten :
    let c := (new onePeer ⟨"org", []⟩ .default).run
      [.addListener (.blocks (.app "new")) { startBlock := some 10 }]
    let c' := c.run (.requestStream 0 :: oneBlock 0 3)
    c.asks? 0 (.requestStream 0) = some (some 10) ∧ c'.asks? 0 (.requestStream 0) = some (some 4) ∧
      Feed.GoesBack (some 10) (some 4) := by
  decide +kernel

/-- Once there was a block the feed stays above it: after the blocks twelve and three it asks for
block thirteen. -/
theorem asks_for_thirteen_after_three :
    let past : List Move := .addListener (.blocks (.app "new")) { startBlock := some 10 } ::
      .requestStream 0 :: oneBlock 0 12
    let c := (new onePeer ⟨"org", []⟩ .default).run past
    let c' := c.run (.requestStream 0 :: oneBlock 0 3)
    c.asks? 0 (.requestStream 0) = some (some 13) ∧ c'.asks? 0 (.requestStream 0) = some (some 13) ∧
      ¬ Feed.GoesBack (some 13) (some 13) := by
  intro past c c'
  have ha : c.asks? 0 (.requestStream 0) = some (some 13) := by decide +kernel
  have hb : c'.asks? 0 (.requestStream 0) = some (some 13) := by decide +kernel
  obtain ⟨f, -, -, -, hlater⟩ := goes_back_iff onePeer ⟨"org", []⟩ .default past ha
  refine ⟨ha, hb, fun hback => ?_⟩
  have hnil := ((hlater (oneBlock 0 3) hb).2.1 hback).1
  exact absurd hnil (by decide +kernel)

end Client

end LedgerClient
