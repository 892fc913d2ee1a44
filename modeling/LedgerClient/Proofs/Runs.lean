import LedgerClient.Proofs.Transport
import LedgerClient.Proofs.Watch

/-!
# Runs of a client

Every move of a client is one of a feed, one of a session or a chain of acts of a call, so what all
three keep holds in every state that a run reaches (`Client.tidy_run`).
-/

namespace LedgerClient

namespace FeedTable

/-- A table stays in order when one feed changes but for what it is and the sessions on it. -/
theorem Sound.update {t t' : FeedTable} (ht : t.Sound) {i : Nat} {f f' : Feed}
    (hf : t.feed? i = some f) (hfeeds : ∀ k, t'.feed? k = if i = k then some f' else t.feed? k)
    (hshared : t'.shared = t.shared) (hruns : f'.isRunning = true)
    (hsame : f'.peer = f.peer ∧ f'.kind = f.kind ∧ f'.shared = f.shared ∧ f'.initial = f.initial ∧
      f'.sessions = f.sessions) : t'.Sound := by
  obtain ⟨hpeer, hkind, hshare, hinitial, hsessions⟩ := hsame
  -- whatever is read of a feed here was read of a feed with the same sessions before
  have hback : ∀ {k g'}, t'.feed? k = some g' → ∃ g, t.feed? k = some g ∧
      g'.sessions = g.sessions ∧ g'.shared = g.shared ∧ g'.initial = g.initial := by
    intro k g' hg'
    rw [hfeeds] at hg'
    split_ifs at hg' with hik
    · obtain rfl := Option.some.inj hg'
      exact ⟨f, hik ▸ hf, hsessions, hshare, hinitial⟩
    · exact ⟨g', hg', rfl, rfl, rfl⟩
  refine ⟨fun hg' => ?_, fun hg' => ?_, fun hg₁ hg₂ hj₁ hj₂ => ?_, hshared ▸ ht.keys,
    fun {key k} hmem => ?_⟩
  · obtain ⟨g, hg, -, h₁, h₂⟩ := hback hg'
    rw [h₁, h₂]
    exact ht.begins hg
  · obtain ⟨g, hg, h, -⟩ := hback hg'
    exact h ▸ ht.nodup hg
  · obtain ⟨g, hg, h, -⟩ := hback hg₁
    obtain ⟨g', hg', h', -⟩ := hback hg₂
    exact ht.apart hg hg' (h ▸ hj₁) (h' ▸ hj₂)
  · obtain ⟨g, hg, hrest⟩ := ht.runs (hshared ▸ hmem)
    rw [hfeeds]
    split_ifs with hik
    · subst hik
      rw [hf, Option.some.injEq] at hg
      subst hg
      exact ⟨f', rfl, hruns, hshare.trans hrest.2.1, by rw [hpeer, hkind]; exact hrest.2.2⟩
    · exact ⟨g, hg, hrest⟩

end FeedTable

namespace Session

theorem Untouched.follow {s : Session} (h : s.Untouched) (p : Plan) :
    (s.follow none p).Untouched := by
  unfold Session.follow
  split
  · exact ⟨h.last, h.queue, fun _ _ hw => by cases hw⟩
  · refine ⟨h.last, h.queue, fun n q hw => ?_⟩
    simp only [Option.some.injEq, Prod.mk.injEq] at hw
    exact hw.1.symm

theorem Untouched.answer {s : Session} (h : s.Untouched) (r : Response) :
    (s.answer r).Untouched := by
  unfold Session.answer
  split
  all_goals first
    | exact h
    | next hw =>
      rw [h.work _ _ hw]
      exact h.follow _

theorem Untouched.take {s : Session} (h : s.Untouched) : s.take.Untouched := by
  rcases s.take_cases with
    ⟨ht, -⟩ | ⟨-, -, ht⟩ | ⟨d, rest, -, -, hq, ⟨-, ht⟩ | ⟨-, ht⟩⟩ <;> rw [ht]
  · exact h
  · exact ⟨h.last, fun _ hd => (List.not_mem_nil hd).elim, h.work⟩
  all_goals
    have hrest : ({ s with queue := rest } : Session).Untouched :=
      ⟨h.last, fun d' hd' => h.queue d' (hq ▸ List.mem_cons_of_mem _ hd'), h.work⟩
  · rw [h.queue d (hq ▸ List.mem_cons_self)]
    exact hrest.follow _
  · exact hrest

theorem Untouched.deliver {s : Session} (h : s.Untouched) {d : Delivery} (hd : numberOf d = none) :
    (s.deliver d).Untouched := by
  unfold Session.deliver
  split_ifs
  · exact h
  · refine ⟨h.last, fun d' hd' => ?_, h.work⟩
    rcases List.mem_append.1 hd' with hd' | hd'
    · exact h.queue d' hd'
    · obtain rfl := List.mem_singleton.1 hd'
      exact hd

end Session

namespace Feed.Fits

/-- A session stays fit for its feed when the feed moves. -/
theorem after {f : Feed} {s : Session} (h : f.Fits s) (r : ReconnectOptions) (m : Move) :
    (f.after r m).Fits ((f.hands m).foldl Session.deliver s) := by
  have hfault : ∀ {f' : Feed} {p : PeerFault}, f'.initial = f.initial → f'.last = f.last →
      f'.Fits (s.deliver (.fault p)) := fun h₁ h₂ =>
    ⟨(s.floor_deliver _).trans (h.floor.trans h₁.symm),
      fun hl => (h.untouched (h₂ ▸ hl)).deliver rfl⟩
  cases m with
  | blockArrived i b =>
    exact ⟨(s.floor_deliver _).trans h.floor, fun hl => by cases hl⟩
  | streamRefused i e => exact hfault rfl rfl
  | streamBroke i e => exact hfault rfl rfl
  | _ => exact ⟨h.floor, h.untouched⟩

theorem of_move {f : Feed} {s s' : Session} {m : Move} (h : f.Fits s)
    (hs' : s' = s.after m ∨ s' = (s.after m).answer (.told true)) : f.Fits s' := by
  have hafter : f.Fits (s.after m) := by
    cases m with
    | takeNext j => exact ⟨s.floor_take.trans h.floor, fun hl => (h.untouched hl).take⟩
    | answer j r => exact ⟨(s.floor_answer r).trans h.floor, fun hl => (h.untouched hl).answer r⟩
    | _ => exact h
  rcases hs' with rfl | rfl
  · exact hafter
  · exact ⟨(Session.floor_answer _ _).trans hafter.floor, fun hl => (hafter.untouched hl).answer _⟩

end Feed.Fits

namespace Client

variable {c c' : Client}

theorem Known.of_eq (hc : c.Known) (hregistrations : c'.registrations = c.registrations)
    (hcalls : c'.calls = c.calls) (hlength : c'.sessions.length = c.sessions.length) :
    c'.Known := by
  refine ⟨fun j hj => ?_, fun k call hcall => ?_⟩
  · unfold Registered at hj
    rw [hregistrations] at hj
    exact hlength ▸ hc.registered j hj
  · rw [call?_of_calls_eq hcalls] at hcall
    exact hlength ▸ hc.pending k call hcall

theorem Feeds.tidy {i : Nat} {f : Feed} {m : Move} (hc : c.Tidy) (hm : f.Admits m)
    (h : Feeds i c c' f (f.after c.options.reconnect m) (f.hands m)) : c'.Tidy := by
  have hsame := f.after_same c.options.reconnect m
  have hback : ∀ {k g'}, c'.table.feed? k = some g' → ∃ g, c.table.feed? k = some g ∧
      g'.sessions = g.sessions ∧ (k = i → g = f ∧ g' = f.after c.options.reconnect m) ∧
        (k ≠ i → g' = g) := by
    intro k g' hg'
    rw [h.feeds] at hg'
    split_ifs at hg' with hik
    · obtain rfl := Option.some.inj hg'
      exact ⟨f, hik ▸ h.feed, hsame.2.2.2.2, fun _ => ⟨rfl, rfl⟩, fun hne => absurd hik.symm hne⟩
    · exact ⟨g', hg', rfl, fun heq => absurd heq.symm hik, fun _ => rfl⟩
  refine ⟨hc.sound.update h.feed h.feeds h.shared (f.isRunning_after _ hm) hsame,
    fun k g' hg' j hj => ?_, hc.known.of_eq h.registrations h.calls h.length,
    fun {k g' j s'} hg' hj hs' => ?_⟩
  · obtain ⟨g, hg, hsessions, -⟩ := hback hg'
    rw [h.length]
    exact hc.bounded k g hg j (hsessions ▸ hj)
  · obtain ⟨g, hg, hsessions, heq, hne⟩ := hback hg'
    rw [hsessions] at hj
    obtain ⟨s, hs⟩ : ∃ s, c.sessions[j]? = some s :=
      ⟨_, List.getElem?_eq_getElem (hc.bounded k g hg j hj)⟩
    have hfits := hc.fits hg hj hs
    rw [h.session (hc.sound.nodup h.feed), hs] at hs'
    by_cases hk : k = i
    · obtain ⟨rfl, rfl⟩ := heq hk
      rw [if_pos hj] at hs'
      obtain rfl := Option.some.inj hs'
      exact hfits.after _ m
    · -- a session on another feed is not on this one, so nothing was handed to it
      have hj' : j ∉ f.sessions := fun hj' => hk (hc.sound.apart hg h.feed hj hj')
      rw [if_neg hj'] at hs'
      obtain rfl := Option.some.inj hs'
      exact hne hk ▸ hfits

theorem Serves.tidy {j : Nat} {s s' : Session} (hc : c.Tidy) (h : Serves j c c' s s')
    (hfits : ∀ f : Feed, f.Fits s → f.Fits s') : c'.Tidy := by
  refine ⟨h.table ▸ hc.sound, fun k f hf l hl => ?_,
    hc.known.of_eq h.registrations h.calls h.length, fun {k f l s₁} hf hl hs₁ => ?_⟩
  · rw [h.length]
    exact hc.bounded k f (h.table ▸ hf) l hl
  · rw [h.table] at hf
    rw [h.sessions] at hs₁
    split_ifs at hs₁ with hjl
    · subst hjl
      obtain rfl := Option.some.inj hs₁
      exact hfits f (hc.fits hf hl h.session)
    · exact hc.fits hf hl hs₁

theorem Tidy.apply (hc : c.Tidy) (m : Move) : (c.apply m).Tidy := by
  cases hfeed : m.feed? with
  | some i =>
    rcases feed_move_cases hfeed with ⟨-, heq⟩ | ⟨f, hm, h⟩
    · exact heq.symm ▸ hc
    · exact h.tidy hc hm
  | none =>
    cases hsession : m.session? with
    | some j =>
      rcases session_move_cases hsession with ⟨-, heq⟩ | ⟨s, s', -, hs', h⟩
      · exact heq.symm ▸ hc
      · exact h.tidy hc fun f hf => hf.of_move hs'
    | none => exact (acts_apply hc.bounded hc.known hfeed hsession).tidy hc

/-- The client after a run of moves. -/
def run (c : Client) (ms : List Move) : Client := ms.foldl apply c

@[simp] theorem run_nil (c : Client) : c.run [] = c := rfl

@[simp] theorem run_cons (c : Client) (m : Move) (ms : List Move) :
    c.run (m :: ms) = (c.apply m).run ms := rfl

theorem run_append (c : Client) (ms ms' : List Move) :
    c.run (ms ++ ms') = (c.run ms).run ms' := List.foldl_append

/-- What a move asks of the world. -/
def sent (c : Client) (m : Move) : List Request := (c.apply m).outbox.drop c.outbox.length

theorem sent_eq_nil {m : Move} (h : c.apply m = c) : c.sent m = [] := by
  rw [sent, h, List.drop_length]

/-- Gathers what the moves of a run give, each in the state that it is made in. -/
def gather {α : Type} (g : Client → Move → List α) : Client → List Move → List α
  | _, [] => []
  | c, m :: ms => g c m ++ gather g (c.apply m) ms

theorem gather_append {α : Type} (g : Client → Move → List α) (c : Client) (ms ms' : List Move) :
    gather g c (ms ++ ms') = gather g c ms ++ gather g (c.run ms) ms' := by
  induction ms generalizing c with
  | nil => rfl
  | cons m ms ih => rw [List.cons_append, gather, gather, ih, List.append_assoc]; rfl

theorem Tidy.run (hc : c.Tidy) (ms : List Move) : (c.run ms).Tidy := by
  induction ms generalizing c with
  | nil => exact hc
  | cons m ms ih => exact ih (hc.apply m)

theorem tidy_run (channel : Channel) (identity : Identity) (options : Options) (ms : List Move) :
    ((new channel identity options).run ms).Tidy := (tidy_new channel identity options).run ms

/-- The channel of one peer. -/
def onePeer : Channel := ⟨"channel", [⟨"peer", "org", "", .all⟩], [], false⟩

end Client

end LedgerClient
