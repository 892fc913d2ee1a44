import LedgerClient.Proofs.Upkeep

/-!
# Moves of feeds and sessions

A move of a feed changes this feed alone and hands at most one delivery to the sessions on it
(`Client.Feeds`); a move of a session changes this session alone (`Client.Serves`).
Together with the acts of calls these are all moves, so that what each of the three kinds keeps is
kept by every run.
-/

namespace LedgerClient

namespace Feed

/-- Whether a move of a feed fits what the feed is doing. -/
def Admits (f : Feed) : Move → Prop
  | .requestStream _ => f.phase = .launching ∨ ∃ failed, f.phase = .resting failed
  | .streamOpened _ | .streamRefused _ _ => f.phase = .connecting
  | .blockArrived _ _ | .streamBroke _ _ | .streamEnded _ => f.phase = .streaming
  | _ => False

/-- The feed after a move of it. -/
def after (r : ReconnectOptions) (f : Feed) : Move → Feed
  | .requestStream _ =>
    { f with phase := .connecting, requests := f.requests ++ [f.resumePosition] }
  | .streamOpened _ => { f with phase := .streaming }
  | .streamRefused _ _ => f.rest r true
  | .blockArrived _ b => f.advance r b.number
  | .streamBroke _ _ | .streamEnded _ => f.rest r false
  | _ => f

/-- What a move of a feed hands to the sessions on it. -/
def hands (f : Feed) : Move → List Delivery
  | .streamRefused _ e | .streamBroke _ e => [.fault ⟨f.peer.name, e.message⟩]
  | .blockArrived _ b => [.block f.peer.name b]
  | _ => []

/-- A move of a feed leaves what it is, the sessions on it, and that it runs. -/
theorem after_same (r : ReconnectOptions) (f : Feed) (m : Move) :
    (f.after r m).peer = f.peer ∧ (f.after r m).kind = f.kind ∧
      (f.after r m).shared = f.shared ∧ (f.after r m).initial = f.initial ∧
      (f.after r m).sessions = f.sessions := by
  cases m <;> simp [after, rest, advance]

theorem isRunning_of_admits {f : Feed} {m : Move} (h : f.Admits m) : f.isRunning = true := by
  cases m <;> simp only [Admits] at h
  case requestStream => rcases h with h | ⟨failed, h⟩ <;> simp [isRunning, h]
  all_goals simp [isRunning, h]

theorem isRunning_after (r : ReconnectOptions) {f : Feed} {m : Move} (h : f.Admits m) :
    (f.after r m).isRunning = true := by
  cases m <;> simp only [Admits] at h
  case blockArrived => simp [after, advance, isRunning, h]
  all_goals rfl

end Feed

namespace Client

/-- The feed `i` has become `f'`, and its sessions were handed `ds`. -/
structure Feeds (i : Nat) (c c' : Client) (f f' : Feed) (ds : List Delivery) : Prop where
  feed : c.table.feed? i = some f
  feeds : ∀ k, c'.table.feed? k = if i = k then some f' else c.table.feed? k
  shared : c'.table.shared = c.table.shared
  length : c'.sessions.length = c.sessions.length
  session : f.sessions.Nodup → ∀ j, c'.sessions[j]? =
    if j ∈ f.sessions then (c.sessions[j]?).map fun s => ds.foldl Session.deliver s
    else c.sessions[j]?
  registrations : c'.registrations = c.registrations
  calls : c'.calls = c.calls
  nextCall : c'.nextCall = c.nextCall
  outbox : ∃ rs, c'.outbox = c.outbox ++ rs ∧ ∀ r ∈ rs, ∀ k, ¬ r.IsOf k

section Delivering

variable (c : Client) (d : Delivery)

theorem deliver_eq (j : Nat) : ∃ sessions agenda, c.deliver j d = { c with sessions, agenda } ∧
    sessions.length = c.sessions.length ∧
    ∀ k, sessions[k]? = if j = k then (c.sessions[k]?).map (·.deliver d) else c.sessions[k]? := by
  unfold deliver
  split
  · next s hs =>
    split_ifs with hr
    · refine ⟨c.sessions, c.agenda, rfl, rfl, fun k => ?_⟩
      split_ifs with hjk
      · rw [← hjk, hs, Option.map_some, Session.deliver, if_pos hr]
      · rfl
    · obtain ⟨agenda, h⟩ := wake_eq (c.modifySession j (·.deliver d)) (.session j)
      rw [h]
      refine ⟨_, agenda, rfl, List.length_modify .., fun k => ?_⟩
      simp only [modifySession, List.getElem?_modify]
      split_ifs <;> simp
  · next hs =>
    refine ⟨c.sessions, c.agenda, rfl, rfl, fun k => ?_⟩
    split_ifs with hjk
    · rw [← hjk, hs, Option.map_none]
    · rfl

theorem deliverAll_eq (f : Feed) : ∃ sessions agenda,
    c.deliverAll f d = { c with sessions, agenda } ∧ sessions.length = c.sessions.length ∧
    (f.sessions.Nodup → ∀ k, sessions[k]? =
      if k ∈ f.sessions then (c.sessions[k]?).map (·.deliver d) else c.sessions[k]?) := by
  unfold deliverAll
  generalize f.sessions = js
  induction js generalizing c with
  | nil => exact ⟨c.sessions, c.agenda, rfl, rfl, fun _ k => rfl⟩
  | cons j js ih =>
    obtain ⟨sessions₁, agenda₁, h₁, hlength₁, hsessions₁⟩ := c.deliver_eq d j
    obtain ⟨sessions, agenda, h, hlength, hsessions⟩ := ih (c.deliver j d)
    rw [List.foldl_cons, h, h₁]
    rw [h₁] at hlength hsessions
    refine ⟨sessions, agenda, rfl, hlength.trans hlength₁, fun hn k => ?_⟩
    rw [List.nodup_cons] at hn
    rw [hsessions hn.2 k]
    change (if k ∈ js then (sessions₁[k]?).map _ else sessions₁[k]?) = _
    rw [hsessions₁ k]
    by_cases hjk : j = k
    · subst hjk
      simp [hn.1]
    · simp [hjk, Ne.symm hjk]

end Delivering

/-! ## Feeds -/

section FeedMoves

variable {i : Nat} {c : Client} {m : Move}

theorem feeds_modify {f f' : Feed} {g : Feed → Feed} (hf : c.table.feed? i = some f) (hg : g f = f')
    (agenda : List Actor) (rs : List Request) (hrs : ∀ r ∈ rs, ∀ k, ¬ r.IsOf k) :
    Feeds i c { c with table := c.table.modify i g, agenda, outbox := c.outbox ++ rs } f f' [] where
  feed := hf
  feeds k := by
    rw [FeedTable.feed?_modify]
    split_ifs with hik
    · rw [← hik, hf, Option.map_some, hg]
    · rfl
  shared := rfl
  length := rfl
  session _ j := by split_ifs <;> simp
  registrations := rfl
  calls := rfl
  nextCall := rfl
  outbox := ⟨rs, rfl, hrs⟩

theorem Feeds.deliverAll {c' : Client} {f f' : Feed} (h : Feeds i c c' f f' []) (d : Delivery) :
    Feeds i c (c'.deliverAll f d) f f' [d] := by
  obtain ⟨sessions, agenda, heq, hlength, hsessions⟩ := c'.deliverAll_eq d f
  rw [heq]
  refine ⟨h.feed, h.feeds, h.shared, hlength.trans h.length, fun hn j => ?_, h.registrations,
    h.calls, h.nextCall, h.outbox⟩
  have hj := h.session hn j
  change sessions[j]? = _
  rw [hsessions hn j, hj]
  split_ifs <;> simp

theorem feeds_modify_silent {f f' : Feed} {g : Feed → Feed} (hf : c.table.feed? i = some f)
    (hg : g f = f') (agenda : List Actor) :
    Feeds i c { c with table := c.table.modify i g, agenda } f f' [] := by
  have h := feeds_modify hf hg agenda [] (by simp)
  rwa [List.append_nil] at h

theorem feeds_rest {f : Feed} (hf : c.table.feed? i = some f) (failedStart : Bool) :
    Feeds i c (c.restFeed i f failedStart) f (f.rest c.options.reconnect failedStart) [] :=
  feeds_modify hf rfl c.agenda _ (by simp [Request.IsOf])

/-- A move of a feed does not fit and changes nothing, or it is a step of the feed. -/
theorem feed_move_cases (hm : m.feed? = some i) :
    ((∀ f, c.table.feed? i = some f → ¬ f.Admits m) ∧ c.apply m = c) ∨
      ∃ f, f.Admits m ∧
        Feeds i c (c.apply m) f (f.after c.options.reconnect m) (f.hands m) := by
  cases hf : c.table.feed? i with
  | none =>
    refine Or.inl ⟨fun f h => (by cases h), ?_⟩
    cases m <;> simp only [Move.feed?, reduceCtorEq, Option.some.injEq] at hm <;> subst hm <;>
      simp only [apply, requestStream, streamOpened, streamRefused, blockArrived, streamBroke,
        streamEnded, hf]
  | some f =>
    by_cases h : f.Admits m
    · refine Or.inr ⟨f, h, ?_⟩
      cases m <;> simp only [Move.feed?, reduceCtorEq, Option.some.injEq] at hm <;> subst hm <;>
        simp only [Feed.Admits] at h
      case requestStream k =>
        rcases h with h | ⟨failed, h⟩ <;> simp only [apply, requestStream, hf, h]
        all_goals
          have hg : f.request = f.after c.options.reconnect (.requestStream k) := by
            simp only [Feed.request, h, Feed.after]
          exact feeds_modify hf hg c.agenda _ (by simp [Request.IsOf])
      case streamOpened k =>
        simp only [apply, streamOpened, hf, h, if_true]
        obtain ⟨agenda, heq⟩ := announce_eq { c with table := c.table.modify k Feed.opened } k
        rw [heq]
        exact feeds_modify_silent hf (by simp only [Feed.opened, h, Feed.after]) agenda
      case streamRefused k e =>
        simp only [apply, streamRefused, hf, h, if_true]
        obtain ⟨agenda, heq⟩ := announce_eq (c.restFeed k f true) k
        rw [heq]
        have hrest : Feeds k c { c.restFeed k f true with agenda } f
            (f.rest c.options.reconnect true) [] :=
          feeds_modify hf rfl agenda _ (by simp [Request.IsOf])
        exact hrest.deliverAll _
      case blockArrived k b =>
        simp only [apply, blockArrived, hf, h, if_true]
        exact (feeds_modify_silent hf rfl c.agenda).deliverAll _
      case streamBroke k e =>
        simp only [apply, streamBroke, hf, h, if_true]
        exact (feeds_rest hf false).deliverAll _
      case streamEnded k =>
        simp only [apply, streamEnded, hf, h, if_true]
        exact feeds_rest hf false
    · refine Or.inl ⟨fun f' hf' => (Option.some.inj hf') ▸ h, ?_⟩
      cases m <;> simp only [Move.feed?, reduceCtorEq, Option.some.injEq] at hm <;> subst hm <;>
        simp only [Feed.Admits] at h
      case requestStream k =>
        simp only [apply, requestStream, hf]
        split <;> simp_all
      all_goals simp only [apply, streamOpened, streamRefused, blockArrived, streamBroke,
        streamEnded, hf, h, if_false]

/-- A move that fits what its feed is doing is a step of the feed. -/
theorem feeds_of_admits (hm : m.feed? = some i) {f : Feed} (hf : c.table.feed? i = some f)
    (hadmits : f.Admits m) :
    Feeds i c (c.apply m) f (f.after c.options.reconnect m) (f.hands m) := by
  rcases feed_move_cases (c := c) hm with ⟨hno, -⟩ | ⟨g, -, hg⟩
  · exact absurd hadmits (hno f hf)
  · obtain rfl : g = f := Option.some.inj (hg.feed.symm.trans hf)
    exact hg

end FeedMoves

end Client

/-! ## Sessions -/

namespace Session

/-- Whether a move of a session fits what the session is doing. -/
def Admits (s : Session) : Move → Prop
  | .takeNext _ => s.isReady = true
  | .answer _ r => s.expects r = true
  | _ => False

/-- The session after a move of it, before an outcome for a mailbox is put there at once. -/
def after (s : Session) : Move → Session
  | .takeNext _ => s.take
  | .answer _ r => s.answer r
  | _ => s

end Session

namespace Client

/-- The session `j` has become `s'`. -/
structure Serves (j : Nat) (c c' : Client) (s s' : Session) : Prop where
  session : c.sessions[j]? = some s
  sessions : ∀ k, c'.sessions[k]? = if j = k then some s' else c.sessions[k]?
  length : c'.sessions.length = c.sessions.length
  table : c'.table = c.table
  registrations : c'.registrations = c.registrations
  calls : c'.calls = c.calls
  nextCall : c'.nextCall = c.nextCall
  outbox : ∃ rs, c'.outbox = c.outbox ++ rs ∧ ∀ r ∈ rs, ∀ k, ¬ r.IsOf k

section SessionMoves

variable {j : Nat} {c : Client} {m : Move}

theorem post_eq (c : Client) (n : Nat) (o : CommitOutcome) :
    ∃ waits agenda, c.post n o = { c with waits, agenda } := by
  unfold post
  split
  · exact ⟨c.waits, c.agenda, rfl⟩
  · obtain ⟨agenda, h⟩ := foldl_wake_eq (fun entry : Nat × Call => .call entry.1) _ _
    exact ⟨_, agenda, h⟩

theorem serves_modify {s : Session} (hs : c.sessions[j]? = some s) (g : Session → Session)
    (waits : List Wait) (agenda : List Actor) (rs : List Request)
    (hrs : ∀ r ∈ rs, ∀ k, ¬ r.IsOf k) :
    Serves j c
      { c with sessions := c.sessions.modify j g, waits, agenda, outbox := c.outbox ++ rs } s
      (g s) where
  session := hs
  sessions k := by
    simp only [List.getElem?_modify]
    split_ifs with hjk
    · rw [← hjk, hs]
      rfl
    · simp
  length := List.length_modify ..
  table := rfl
  registrations := rfl
  calls := rfl
  nextCall := rfl
  outbox := ⟨rs, rfl, hrs⟩

/-- What a session waits to know is asked, or a mailbox takes an outcome at once. -/
theorem serves_serve {s : Session} (hs : c.sessions[j]? = some s) (g : Session → Session) :
    ∃ s', (s' = g s ∨ s' = (g s).answer (.told true)) ∧
      Serves j c ((c.modifySession j g).serve j) s s' := by
  have hplain (rs : List Request) (hrs : ∀ r ∈ rs, ∀ k, ¬ r.IsOf k) :=
    serves_modify hs g c.waits c.agenda rs hrs
  unfold serve
  split
  · refine ⟨g s, Or.inl rfl, ?_⟩
    have h := hplain [] (by simp)
    rwa [List.append_nil] at h
  · next n o _ =>
    obtain ⟨waits, agenda, h⟩ := post_eq (c.modifySession j g) n o
    rw [h]
    refine ⟨_, Or.inr rfl, ?_⟩
    have h := serves_modify hs (fun s => (g s).answer (.told true)) waits agenda [] (by simp)
    rw [List.append_nil] at h
    simpa only [modifySession, List.modify_modify_eq, Function.comp_def] using h
  · exact ⟨g s, Or.inl rfl, hplain _ (by simp [Request.IsOf])⟩

/-- A move of a session does not fit and changes nothing, or it is a step of the session. -/
theorem session_move_cases (hm : m.session? = some j) :
    ((∀ s, c.sessions[j]? = some s → ¬ s.Admits m) ∧ c.apply m = c) ∨
      ∃ s s', s.Admits m ∧ (s' = s.after m ∨ s' = (s.after m).answer (.told true)) ∧
        Serves j c (c.apply m) s s' := by
  cases hs : c.sessions[j]? with
  | none =>
    refine Or.inl ⟨fun s h => (by cases h), ?_⟩
    cases m <;> simp only [Move.session?, reduceCtorEq, Option.some.injEq] at hm <;> subst hm <;>
      simp only [apply, takeNext, answer, hs]
  | some s =>
    by_cases h : s.Admits m
    · refine Or.inr ⟨s, ?_⟩
      cases m <;> simp only [Move.session?, reduceCtorEq, Option.some.injEq] at hm <;> subst hm <;>
        simp only [Session.Admits] at h
      case takeNext k =>
        obtain ⟨s', hs', hserves⟩ := serves_serve hs Session.take
        simp only [apply, takeNext, hs, h, if_true]
        exact ⟨s', h, hs', hserves⟩
      case answer k r =>
        obtain ⟨s', hs', hserves⟩ := serves_serve hs (·.answer r)
        simp only [apply, answer, hs, h, if_true]
        exact ⟨s', h, hs', hserves⟩
    · refine Or.inl ⟨fun s' hs' => (Option.some.inj hs') ▸ h, ?_⟩
      cases m <;> simp only [Move.session?, reduceCtorEq, Option.some.injEq] at hm <;> subst hm <;>
        simp only [Session.Admits] at h <;> simp only [apply, takeNext, answer, hs, h] <;> rfl

end SessionMoves

end Client

end LedgerClient
