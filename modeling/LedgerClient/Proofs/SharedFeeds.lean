import LedgerClient.Proofs.Moorings

/-!
# Shared feeds

Whatever order sessions join and leave in, how often they are released, what feeds do in between
and when the table is closed (`FeedTable.Reachable`), what is shared are running feeds with a
session, one for each peer and kind of block, and nothing that is done to another feed touches them
(`FeedTable.ordered_of_reachable`).
-/

namespace LedgerClient

namespace FeedTable

variable {t : FeedTable} {r : ReconnectOptions}

/-- The tables that come about.  Sessions join, those that are on a feed under ids of their own;
any session is released from any feed, once or again, on it or not; all that is shared is closed;
and a feed does what fits what it is doing. -/
inductive Reachable (r : ReconnectOptions) : FeedTable → Prop
  | empty : Reachable r .empty
  | acquire {t : FeedTable} (h : Reachable r t) (peer : Peer) (kind : BlockKind) {session : Nat}
      (hnew : ∀ {k f}, t.feed? k = some f → session ∉ f.sessions) :
      Reachable r (t.acquire r peer kind session).1
  | acquireReplay {t : FeedTable} (h : Reachable r t) (peer : Peer) (kind : BlockKind) (start : Nat)
      {session : Nat} (hnew : ∀ {k f}, t.feed? k = some f → session ∉ f.sessions) :
      Reachable r (t.acquireReplay r peer kind start session).1
  | release {t : FeedTable} (h : Reachable r t) (i session : Nat) :
      Reachable r (t.release i session)
  | close {t : FeedTable} (h : Reachable r t) : Reachable r t.close
  | move {t : FeedTable} (h : Reachable r t) {i : Nat} {f : Feed} {m : Move}
      (hf : t.feed? i = some f) (hm : f.Admits m) : Reachable r (t.modify i (·.after r m))

theorem sound_empty : empty.Sound := by
  constructor <;> simp [empty, feed?]

theorem feed?_modify_of_feed? {i : Nat} {f : Feed} (hf : t.feed? i = some f) (g : Feed → Feed)
    (k : Nat) : (t.modify i g).feed? k = if i = k then some (g f) else t.feed? k := by
  rw [feed?_modify]
  split_ifs with hik
  · rw [← hik, hf, Option.map_some]
  · rfl

/-- A table stays manned when a running feed goes on running. -/
theorem Manned.after (h : t.Manned) {i : Nat} {f : Feed} {m : Move} (hf : t.feed? i = some f)
    (hm : f.Admits m) : (t.modify i (·.after r m)).Manned := by
  obtain ⟨hpeer, hkind, hshare, -, hsessions⟩ := f.after_same r m
  have hruns := Feed.isRunning_of_admits hm
  refine ⟨fun {k g} hg => ?_, fun {k g} hg hruns' hshared => ?_⟩
  · rw [feed?_modify_of_feed? hf] at hg
    split_ifs at hg with hik
    · obtain rfl := Option.some.inj hg
      refine Or.inr ⟨Feed.isRunning_after r hm, hsessions ▸ ?_⟩
      refine ((h.busy hf).resolve_left fun hstop => ?_).2
      rw [not_isRunning_of_stopped hstop] at hruns
      cases hruns
    · exact h.busy hg
  · rw [feed?_modify_of_feed? hf] at hg
    split_ifs at hg with hik
    · obtain rfl := Option.some.inj hg
      rw [hpeer, hkind]
      exact hik ▸ h.listed hf hruns (hshare ▸ hshared)
    · exact h.listed hg hruns' hshared

theorem Reachable.sound_manned (h : t.Reachable r) : t.Sound ∧ t.Manned := by
  induction h with
  | empty => exact ⟨sound_empty, manned_empty⟩
  | @acquire t _ peer kind session hnew ih =>
    exact ⟨ih.1.join r peer kind none session hnew, ih.2.join r peer kind none session ih.1⟩
  | @acquireReplay t _ peer kind start session hnew ih =>
    exact ⟨ih.1.join r peer kind (some start) session hnew,
      ih.2.join r peer kind (some start) session ih.1⟩
  | release _ i session ih => exact ⟨ih.1.release i session, ih.2.release ih.1 i session⟩
  | close _ ih => exact ⟨ih.1.close, ih.2.close⟩
  | move _ hf hm ih =>
    exact ⟨ih.1.update hf (feed?_modify_of_feed? hf _) rfl (Feed.isRunning_after r hm)
      (Feed.after_same r _ _), ih.2.after hf hm⟩

/-! ## Releases that take nothing out -/

/-- A feed that keeps a session is not stopped, and nothing is taken out. -/
theorem shared_release_of_left {i j x : Nat} {f : Feed} (hf : t.feed? i = some f)
    (hx : x ∈ f.sessions) (hne : x ≠ j) : (t.release i j).shared = t.shared := by
  have hleft : (f.detach j).sessions.isEmpty = false := by
    have hmem : x ∈ (f.detach j).sessions := Feed.mem_sessions_detach.2 ⟨hx, hne⟩
    simpa using List.ne_nil_of_mem hmem
  have hdetach : (t.modify i (·.detach j)).feed? i = some (f.detach j) := by
    rw [feed?_modify_of_feed? hf, if_pos rfl]
  simp only [release, hdetach, hleft, Bool.false_eq_true, if_false]
  rfl

/-- A feed that is not made for sharing takes nothing out. -/
theorem shared_release_of_replay {i j : Nat} {f : Feed} (hf : t.feed? i = some f)
    (hshared : f.shared = false) : (t.release i j).shared = t.shared := by
  have hdetach : (t.modify i (·.detach j)).feed? i = some (f.detach j) := by
    rw [feed?_modify_of_feed? hf, if_pos rfl]
  simp only [release, hdetach]
  split_ifs
  · simp only [unshare, Feed.detach, hshared, Bool.false_and, Bool.false_eq_true, if_false]
    rfl
  · rfl

/-! ## The table of shared feeds -/

/-- What holds of a table of feeds: of what is shared in it, and of what its operations leave
alone. -/
structure Ordered (r : ReconnectOptions) (t : FeedTable) : Prop where
  /-- What is shared is made for sharing, is under its own key, runs and has a session. -/
  entries : ∀ {key k}, (key, k) ∈ t.shared → ∃ f, t.feed? k = some f ∧ f.shared = true ∧
    key = ⟨f.peer.name, f.kind⟩ ∧ f.isRunning = true ∧ f.sessions ≠ []
  /-- What is made for sharing and runs is found under its key. -/
  found : ∀ {k f}, t.feed? k = some f → f.shared = true → f.isRunning = true →
    t.shared? ⟨f.peer.name, f.kind⟩ = some k
  /-- One runs for a peer and a kind of block. -/
  single : ∀ {k k' f f'}, t.feed? k = some f → t.feed? k' = some f' → f.shared = true →
    f'.shared = true → f.isRunning = true → f'.isRunning = true → f.peer.name = f'.peer.name →
    f.kind = f'.kind → k = k'
  /-- A feed that another session is on is neither stopped nor taken out by a release. -/
  spared : ∀ {i f j x}, t.feed? i = some f → x ∈ f.sessions → x ≠ j →
    (t.release i j).feed? i = some (f.detach j) ∧ (t.release i j).shared = t.shared
  /-- A release changes no other feed and takes no other feed out. -/
  others : ∀ {i j k}, k ≠ i → (t.release i j).feed? k = t.feed? k ∧
    ∀ key, t.shared? key = some k → (t.release i j).shared? key = some k
  /-- A replay is not shared. -/
  replay : ∀ {k f}, t.feed? k = some f → f.shared = false → ∀ key, (key, k) ∉ t.shared
  /-- Acquiring a replay changes no feed and nothing that is shared. -/
  acquireReplay : ∀ peer kind start session,
    (t.acquireReplay r peer kind start session).1.shared = t.shared ∧
      ∀ {k f}, t.feed? k = some f → (t.acquireReplay r peer kind start session).1.feed? k = some f
  /-- Releasing a replay changes nothing that is shared and no other feed. -/
  releaseReplay : ∀ {i j f}, t.feed? i = some f → f.shared = false →
    (t.release i j).shared = t.shared ∧ ∀ {k}, k ≠ i → (t.release i j).feed? k = t.feed? k

theorem ordered_of_reachable (h : t.Reachable r) : t.Ordered r := by
  obtain ⟨hs, hm⟩ := h.sound_manned
  have hfound : ∀ {k f}, t.feed? k = some f → f.shared = true → f.isRunning = true →
      t.shared? ⟨f.peer.name, f.kind⟩ = some k := fun hf hshared hruns =>
    hs.shared?_of_mem (hm.listed hf hruns hshared)
  have hothers : ∀ {i j k}, k ≠ i → (t.release i j).feed? k = t.feed? k := fun hk => by
    rw [feed?_release, if_neg (Ne.symm hk)]
  refine ⟨fun hmem => ?_, hfound, fun hf hf' hshared hshared' hruns hruns' hpeer hkind => ?_,
    fun {i f j x} hf hx hne => ⟨?_, shared_release_of_left hf hx hne⟩,
    fun {i j k} hk => ⟨hothers hk, fun key hkey => ?_⟩, fun hf hshared key hmem => ?_,
    fun peer kind start session => ⟨rfl, fun {k f} hf => ?_⟩,
    fun hf hshared => ⟨shared_release_of_replay hf hshared, hothers⟩⟩
  · obtain ⟨f, hf, hruns, hshared, hkey⟩ := hs.runs hmem
    refine ⟨f, hf, hshared, hkey, hruns, ((hm.busy hf).resolve_left fun hstop => ?_).2⟩
    rw [not_isRunning_of_stopped hstop] at hruns
    cases hruns
  · have hk := hfound hf hshared hruns
    rw [hpeer, hkind, hfound hf' hshared' hruns'] at hk
    exact (Option.some.inj hk).symm
  · have hmem : x ∈ (f.detach j).sessions := Feed.mem_sessions_detach.2 ⟨hx, hne⟩
    rw [feed?_release, if_pos rfl, hf, Option.map_some,
      if_neg (by simpa using List.ne_nil_of_mem hmem)]
  · exact (hs.release i j).shared?_of_mem
      (mem_shared_release hs (mem_of_shared? hkey) fun _ _ heq => absurd heq.symm hk)
  · obtain ⟨g, hg, -, hshared', -⟩ := hs.runs hmem
    obtain rfl := Option.some.inj (hf.symm.trans hg)
    rw [hshared] at hshared'
    cases hshared'
  · have hk : k ≠ t.feeds.length := fun heq => by
      rw [heq, feed?_length] at hf
      cases hf
    exact feed?_append.trans (by rw [if_neg hk, hf])

/-- A session joins, the table is closed, another joins in its place, and the first is released
twice: the newer feed stays. -/
theorem ordered_after_late_release :
    let peer : Peer := ⟨"peer", "org", "", .all⟩
    let closed := (FeedTable.empty.acquire .default peer .full 1).1.close
    let late := ((closed.acquire .default peer .full 2).1.release 0 1).release 0 1
    late.shared? ⟨"peer", .full⟩ = some 1 ∧ late.Ordered .default ∧
      ∃ f, late.feed? 1 = some f ∧ f.isRunning = true ∧ f.sessions ≠ [] := by
  intro peer closed late
  have hclosed : closed.Reachable .default :=
    .close (.acquire .empty peer .full (by simp [empty, feed?]))
  have hoff : ∀ f ∈ closed.feeds, 2 ∉ f.sessions := by decide +kernel
  have hlate : late.Reachable .default :=
    ((hclosed.acquire peer .full fun hf =>
      hoff _ (List.mem_of_getElem? hf)).release 0 1).release 0 1
  have hordered := ordered_of_reachable hlate
  have hshared : late.shared? ⟨"peer", .full⟩ = some 1 := by decide +kernel
  obtain ⟨f, hf, -, -, hruns, hmanned⟩ := hordered.entries (mem_of_shared? hshared)
  exact ⟨hshared, hordered, f, hf, hruns, hmanned⟩

end FeedTable

end LedgerClient
