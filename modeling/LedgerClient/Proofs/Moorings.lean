import LedgerClient.Proofs.Removal

/-!
# Sessions on their feeds

A feed is stopped, or it runs with sessions on it, and a running feed that is made for sharing is
found under its key (`FeedTable.Manned`); all sessions on a running feed take deliveries
(`Client.Staffed`). This stays so when sessions are released from the feeds that they are on, and a
session that was released is off for good (`Client.Released`).
-/

namespace LedgerClient

namespace FeedTable

variable {t t' : FeedTable}

/-- A feed is stopped or has sessions, and what runs and is made for sharing is shared. -/
structure Manned (t : FeedTable) : Prop where
  busy : ∀ {k f}, t.feed? k = some f → f.phase = .stopped ∨ f.isRunning = true ∧ f.sessions ≠ []
  listed : ∀ {k f}, t.feed? k = some f → f.isRunning = true → f.shared = true →
    (⟨f.peer.name, f.kind⟩, k) ∈ t.shared

theorem not_isRunning_of_stopped {f : Feed} (h : f.phase = .stopped) : f.isRunning = false := by
  rw [Feed.isRunning, h]

theorem manned_empty : empty.Manned := by
  constructor <;> intro k f hf <;> simp [empty, feed?] at hf

/-! ## Leaving a feed -/

theorem feed?_release (t : FeedTable) (i j k : Nat) :
    (t.release i j).feed? k = if i = k then (t.feed? k).map fun f =>
      if (f.detach j).sessions.isEmpty then (f.detach j).stop else f.detach j
    else t.feed? k := by
  have hdetach : (t.modify i (·.detach j)).feed? i = (t.feed? i).map (·.detach j) := by
    rw [feed?_modify, if_pos rfl]
  unfold release
  dsimp only
  split
  · next hnone =>
    rw [feed?_modify]
    split_ifs with hik
    · rw [hdetach, Option.map_eq_none_iff] at hnone
      rw [← hik, hnone, Option.map_none, Option.map_none]
    · rfl
  · next f hf =>
    obtain ⟨g, hg, rfl⟩ := Option.map_eq_some_iff.1 (hdetach.symm.trans hf)
    by_cases hik : i = k
    · subst hik
      rw [if_pos rfl, hg, Option.map_some]
      split_ifs with hempty
      · rw [feed?, unshare_feeds, ← feed?, feed?_modify, if_pos rfl, hf, Option.map_some]
      · exact hf
    · rw [if_neg hik]
      split_ifs with hempty
      · rw [feed?, unshare_feeds, ← feed?, feed?_modify, if_neg hik, feed?_modify, if_neg hik]
      · rw [feed?_modify, if_neg hik]

theorem mem_shared_release (ht : t.Sound) {i j k : Nat} {key : FeedKey}
    (hmem : (key, k) ∈ t.shared)
    (hk : ∀ f, t.feed? k = some f → i = k → (f.detach j).sessions ≠ []) :
    (key, k) ∈ (t.release i j).shared := by
  unfold release
  dsimp only
  split
  · exact hmem
  · next f hf =>
    split_ifs with hempty
    · unfold unshare
      dsimp only
      split_ifs with hfound
      · refine List.mem_filter.2 ⟨hmem, decide_eq_true fun heq => ?_⟩
        obtain rfl : key = ⟨f.peer.name, f.kind⟩ := heq
        simp only [Bool.and_eq_true, decide_eq_true_eq] at hfound
        have hik : i = k := Option.some.inj (hfound.2.symm.trans (ht.shared?_of_mem hmem))
        rw [feed?_modify, if_pos rfl] at hf
        obtain ⟨g, hg, rfl⟩ := Option.map_eq_some_iff.1 hf
        exact hk g (hik ▸ hg) hik (List.isEmpty_iff.1 hempty)
      · exact hmem
    · exact hmem

theorem Manned.release (h : t.Manned) (ht : t.Sound) (i j : Nat) : (t.release i j).Manned := by
  refine ⟨fun {k f} hf => ?_, fun {k f} hf hruns hshared => ?_⟩
  · rw [feed?_release] at hf
    split_ifs at hf with hik
    · obtain ⟨g, hg, rfl⟩ := Option.map_eq_some_iff.1 hf
      split_ifs with hempty
      · exact Or.inl rfl
      · exact (h.busy hg).imp id fun hruns => ⟨hruns.1, by simpa using hempty⟩
    · exact h.busy hf
  · rw [feed?_release] at hf
    split_ifs at hf with hik
    · obtain ⟨g, hg, rfl⟩ := Option.map_eq_some_iff.1 hf
      split_ifs at hruns hshared ⊢ with hempty
      · cases hruns
      · have hold : (⟨g.peer.name, g.kind⟩, k) ∈ t.shared := h.listed hg hruns hshared
        refine mem_shared_release ht hold fun f hf _ => ?_
        obtain rfl := Option.some.inj (hg.symm.trans hf)
        simpa using hempty
    · exact mem_shared_release ht (h.listed hf hruns hshared) fun _ _ heq => absurd heq hik

/-! ## Joining a feed -/

section Join

variable (r : ReconnectOptions) (peer : Peer) (kind : BlockKind) (start : Option Nat)
  (session : Nat)

theorem mem_shared_join {key : FeedKey} {k : Nat} (hmem : (key, k) ∈ t.shared) :
    (key, k) ∈ (t.join r peer kind start session).1.shared := by
  rcases join_cases r peer kind start session with ⟨i, -, -, h⟩ | ⟨shared, h, hs⟩ <;> rw [h]
  · exact hmem
  · rcases hs with rfl | ⟨-, -, rfl⟩
    · exact hmem
    · exact List.mem_append_left _ hmem

/-- The feed that was not there before is the one that the session joins. -/
theorem eq_of_feed?_join {k : Nat} {f : Feed} (hk : t.feed? k = none)
    (hf : (t.join r peer kind start session).1.feed? k = some f) :
    k = (t.join r peer kind start session).2 := by
  rcases join_cases r peer kind start session with ⟨i, -, -, h⟩ | ⟨shared, h, -⟩ <;>
    rw [h] at hf ⊢
  · rw [feed?_modify, hk, Option.map_none, ite_self] at hf
    cases hf
  · rw [feed?_append, hk] at hf
    split_ifs at hf with hlast
    exact hlast

theorem Manned.join (h : t.Manned) (ht : t.Sound) :
    (t.join r peer kind start session).1.Manned := by
  refine ⟨fun {k f} hf => ?_, fun {k f} hf hruns hshared => ?_⟩
  · rcases feed?_join_cases r peer kind start session ht hf with rfl | ⟨g, hg, rfl | rfl⟩
    · exact Or.inr ⟨rfl, List.cons_ne_nil _ _⟩
    · exact h.busy hg
    · have hne : (g.attach session).sessions ≠ [] :=
        List.ne_nil_of_mem (Feed.mem_sessions_attach.2 (Or.inr rfl))
      refine (h.busy hg).imp (fun hstop => ?_) fun hruns =>
        ⟨(g.isRunning_attach session).trans hruns.1, hne⟩
      rw [g.same_attach]
      exact hstop
  · cases hk : t.feed? k with
    | some g =>
      obtain ⟨f', hf', hg⟩ := ht.feed?_join r peer kind start session hk
      obtain rfl := Option.some.inj (hf.symm.trans hf')
      have hold : (⟨g.peer.name, g.kind⟩, k) ∈ t.shared := by
        rcases hg with rfl | rfl
        · exact h.listed hk hruns hshared
        · rw [g.isRunning_attach] at hruns
          rw [g.same_attach] at hshared
          exact h.listed hk hruns hshared
      have hkey : (⟨f.peer.name, f.kind⟩ : FeedKey) = ⟨g.peer.name, g.kind⟩ := by
        rcases hg with rfl | rfl
        · rfl
        · rw [g.same_attach]
      exact hkey ▸ mem_shared_join r peer kind start session hold
    | none =>
      obtain rfl := feed?_join_new r peer kind start session hk hf
      cases start with
      | some n => cases hshared
      | none =>
        have hnew := eq_of_feed?_join r peer kind none session hk hf
        exact hnew ▸ mem_of_shared? (shared?_join r peer kind session)

end Join

/-! ## Closing the table -/

/-- What still runs when the shared feeds were stopped is not shared. -/
theorem feed?_close {k : Nat} {f : Feed} (hf : t.close.feed? k = some f)
    (hruns : f.isRunning = true) : t.feed? k = some f ∧ ∀ key, (key, k) ∉ t.shared := by
  have hfold : ∀ (es : List (FeedKey × Nat)) (t : FeedTable),
      (es.foldl (fun t e => t.modify e.2 Feed.stop) t).feed? k = some f →
      t.feed? k = some f ∧ ∀ key, (key, k) ∉ es := by
    intro es
    induction es with
    | nil => exact fun t h => ⟨h, fun _ => List.not_mem_nil⟩
    | cons e es ih =>
      intro t h
      obtain ⟨h, hnot⟩ := ih _ h
      rw [feed?_modify] at h
      split_ifs at h with hek
      · obtain ⟨g, -, rfl⟩ := Option.map_eq_some_iff.1 h
        cases hruns
      · refine ⟨h, fun key hmem => ?_⟩
        rcases List.mem_cons.1 hmem with rfl | hmem
        · exact hek rfl
        · exact hnot key hmem
  exact hfold t.shared t hf

theorem Manned.close (h : t.Manned) : t.close.Manned := by
  refine ⟨fun {k f} hf => ?_, fun {k f} hf hruns hshared => ?_⟩
  · cases hruns : f.isRunning with
    | true => exact hruns ▸ h.busy (feed?_close hf hruns).1
    | false =>
      have hsheds : t.Sheds (fun _ => False) t.close := t.sheds_close
      obtain ⟨g, hg, ha⟩ := hsheds.back hf
      refine Or.inl (ha.phase.elim (fun hphase => ?_) id)
      refine hphase.trans ((h.busy hg).elim id fun hruns' => ?_)
      rw [Feed.isRunning, hphase] at hruns
      exact absurd (hruns'.1.symm.trans hruns) (by simp)
  · obtain ⟨hf', hnot⟩ := feed?_close hf hruns
    exact absurd (h.listed hf' hruns hshared) (hnot _)

/-! ## What others do not notice -/

/-- A session that is not among `gone` stays on its feed, which goes on as it was under its key. -/
structure Spares (gone : Nat → Prop) (t t' : FeedTable) : Prop where
  feed : ∀ {k f j}, t.feed? k = some f → j ∈ f.sessions → ¬ gone j → ∃ f', t'.feed? k = some f' ∧
    j ∈ f'.sessions ∧ f'.phase = f.phase ∧ ∀ key, (key, k) ∈ t.shared → (key, k) ∈ t'.shared

variable {gone gone' : Nat → Prop} {t'' : FeedTable}

theorem Spares.refl (t : FeedTable) : t.Spares gone t :=
  ⟨fun hf hj _ => ⟨_, hf, hj, rfl, fun _ => id⟩⟩

theorem Spares.trans (h : t.Spares gone t') (h' : t'.Spares gone t'') : t.Spares gone t'' := by
  refine ⟨fun {k f j} hf hj hgone => ?_⟩
  obtain ⟨f', hf', hj', hphase, hkey⟩ := h.feed hf hj hgone
  obtain ⟨f'', hf'', hj'', hphase', hkey'⟩ := h'.feed hf' hj' hgone
  exact ⟨f'', hf'', hj'', hphase'.trans hphase, fun key => hkey' key ∘ hkey key⟩

theorem Spares.mono (h : t.Spares gone t') (hgone : ∀ j, gone j → gone' j) :
    t.Spares gone' t' :=
  ⟨fun hf hj hnot => h.feed hf hj fun hmem => hnot (hgone _ hmem)⟩

theorem spares_release (ht : t.Sound) (i : Nat) {j : Nat} (hj : gone j) :
    t.Spares gone (t.release i j) := by
  refine ⟨fun {k f x} hf hx hgone => ?_⟩
  have hstays : x ∈ (f.detach j).sessions :=
    Feed.mem_sessions_detach.2 ⟨hx, fun heq => hgone (heq ▸ hj)⟩
  have hne : (f.detach j).sessions ≠ [] := List.ne_nil_of_mem hstays
  have hshared : ∀ key, (key, k) ∈ t.shared → (key, k) ∈ (t.release i j).shared := fun key hmem =>
    mem_shared_release ht hmem fun f' hf' _ => by
      obtain rfl := Option.some.inj (hf.symm.trans hf')
      exact hne
  by_cases hik : i = k
  · refine ⟨f.detach j, ?_, hstays, rfl, hshared⟩
    rw [feed?_release, if_pos hik, hf, Option.map_some, if_neg (by simpa using hne)]
  · exact ⟨f, by rw [feed?_release, if_neg hik, hf], hx, rfl, hshared⟩

theorem spares_join (ht : t.Sound) (r : ReconnectOptions) (peer : Peer) (kind : BlockKind)
    (start : Option Nat) (session : Nat) :
    t.Spares gone (t.join r peer kind start session).1 := by
  refine ⟨fun {k f j} hf hj _ => ?_⟩
  obtain ⟨f', hf', hcase⟩ := ht.feed?_join r peer kind start session hf
  refine ⟨f', hf', ?_, ?_, fun _ => mem_shared_join r peer kind start session⟩
  · rcases hcase with rfl | rfl
    · exact hj
    · exact Feed.mem_sessions_attach.2 (Or.inl hj)
  · rcases hcase with rfl | rfl
    · rfl
    · rw [f.same_attach]

end FeedTable

namespace Client

variable {c c' : Client} {gone : Nat → Prop} {i j : Nat} {key : ListenerKey} {a : Attachment}

/-! ## Where sessions are -/

/-- The session of an attachment is on its feed. -/
def Attached (c : Client) (a : Attachment) : Prop :=
  ∃ f, c.table.feed? a.feed = some f ∧ a.session ∈ f.sessions

/-- A session tells the listener of a key, and takes deliveries. -/
def Open (c : Client) (key : ListenerKey) (j : Nat) : Prop :=
  ∃ s, c.sessions[j]? = some s ∧ s.removed = false ∧ s.audience.key = key

/-- A session was removed and is on no feed. -/
structure Released (c : Client) (j : Nat) : Prop where
  removed : ∃ s, c.sessions[j]? = some s ∧ s.removed = true
  off : ∀ {k f}, c.table.feed? k = some f → j ∉ f.sessions

/-- A call has an attachment in its hands that is in place. -/
structure InHand (c : Client) (i : Nat) (key : ListenerKey) (a : Attachment) : Prop where
  attached : c.Attached a
  opened : c.Open key a.session
  aside : c.Aside i a.session

/-- The session of an attachment is on no other feed. -/
def Sole (c : Client) (a : Attachment) : Prop :=
  ∀ k f, c.table.feed? k = some f → a.session ∈ f.sessions → k = a.feed

/-- Feeds are stopped or have sessions, and those on a running feed take deliveries. -/
structure Staffed (c : Client) : Prop where
  manned : c.table.Manned
  awake : ∀ {k f j}, c.table.feed? k = some f → f.isRunning = true → j ∈ f.sessions →
    ∃ s, c.sessions[j]? = some s ∧ s.removed = false

theorem Attached.sole (h : c.Attached a) (ht : c.table.Sound) : c.Sole a := by
  intro k f hf ha
  obtain ⟨g, hg, ha'⟩ := h
  exact ht.apart hf hg ha ha'

theorem Attached.sheds (h : c.Attached a) (hs : c.Sheds gone c') (ha : ¬ gone a.session) :
    c'.Attached a := by
  obtain ⟨f, hf, hmem⟩ := h
  obtain ⟨f', hf', hk⟩ := hs.table.feed hf
  exact ⟨f', hf', (hk.kept _ hmem).resolve_right ha⟩

theorem Open.sheds (h : c.Open key j) (hs : c.Sheds gone c') (hj : ¬ gone j) :
    c'.Open key j := by
  obtain ⟨s, hs', hopen⟩ := h
  exact ⟨s, (hs.session hs').resolve_right fun h => hj h.1, hopen⟩

theorem Sole.sheds (h : c.Sole a) (hs : c.Sheds gone c') : c'.Sole a := by
  intro k f hf ha
  obtain ⟨g, hg, hk⟩ := hs.table.back hf
  exact h k g hg ((hk.added _ ha).resolve_right id)

theorem Released.sheds (h : c.Released j) (hs : c.Sheds gone c') : c'.Released j := by
  obtain ⟨s, hs', hr⟩ := h.removed
  refine ⟨?_, fun hf hj => ?_⟩
  · rcases hs.session hs' with heq | ⟨-, heq⟩
    · exact ⟨s, heq, hr⟩
    · exact ⟨s.close, heq, rfl⟩
  · obtain ⟨g, hg, hk⟩ := hs.table.back hf
    exact h.off hg ((hk.added _ hj).resolve_right id)

theorem Staffed.of_eq (h : c.Staffed) (htable : c'.table = c.table)
    (hsessions : c'.sessions = c.sessions) : c'.Staffed := by
  refine ⟨htable ▸ h.manned, fun hf hruns hj => ?_⟩
  rw [htable] at hf
  rw [hsessions]
  exact h.awake hf hruns hj

/-! ## Releasing -/

theorem Staffed.release (h : c.Staffed) (ht : c.table.Sound) (ha : c.Sole a) :
    (c.release a).Staffed := by
  obtain ⟨agenda, heq⟩ := c.release_eq a
  rw [heq]
  refine ⟨h.manned.release ht _ _, fun {k f j} hf hruns hj => ?_⟩
  obtain ⟨g, hg, hj', hne⟩ : ∃ g : Feed, c.table.feed? k = some g ∧
      (g.isRunning = true ∧ j ∈ g.sessions) ∧ a.session ≠ j := by
    change (c.table.release a.feed a.session).feed? k = some f at hf
    rw [FeedTable.feed?_release] at hf
    split_ifs at hf with hk
    · obtain ⟨g, hg, rfl⟩ := Option.map_eq_some_iff.1 hf
      split_ifs at hruns hj with hempty
      · cases hruns
      · obtain ⟨hj, hne⟩ := Feed.mem_sessions_detach.1 hj
        exact ⟨g, hg, ⟨hruns, hj⟩, Ne.symm hne⟩
    · exact ⟨f, hf, ⟨hruns, hj⟩, fun heq => hk (ha k f hf (heq ▸ hj)).symm⟩
  obtain ⟨s, hs, hopen⟩ := h.awake hg hj'.1 hj'.2
  exact ⟨s, by rw [List.getElem?_modify, hs]; simp [hne], hopen⟩

theorem released_release (ha : c.Sole a) (hthere : a.session < c.sessions.length) :
    (c.release a).Released a.session := by
  obtain ⟨agenda, heq⟩ := c.release_eq a
  rw [heq]
  refine ⟨⟨c.sessions[a.session].close, ?_, rfl⟩, fun {k f} hf hj => ?_⟩
  · simp [List.getElem?_modify_eq, List.getElem?_eq_getElem hthere]
  · change (c.table.release a.feed a.session).feed? k = some f at hf
    rw [FeedTable.feed?_release] at hf
    split_ifs at hf with hk
    · obtain ⟨g, -, rfl⟩ := Option.map_eq_some_iff.1 hf
      have hoff : a.session ∉ (g.detach a.session).sessions := fun h =>
        (Feed.mem_sessions_detach.1 h).2 rfl
      split_ifs at hj
      · exact hoff hj
      · exact hoff hj
    · exact hk (ha k f hf hj).symm

/-- Sessions that are released together, each from the one feed that it is on, are all off. -/
theorem Staffed.releaseAll {as : List Attachment} (h : c.Staffed) (ht : c.table.Sound)
    (has : ∀ a ∈ as, c.Sole a ∧ a.session < c.sessions.length) :
    (c.releaseAll as).Staffed ∧ ∀ a ∈ as, (c.releaseAll as).Released a.session := by
  induction as generalizing c with
  | nil => exact ⟨h, fun a ha => (List.not_mem_nil ha).elim⟩
  | cons a as ih =>
    rw [List.forall_mem_cons] at has
    obtain ⟨⟨ha, hthere⟩, has⟩ := has
    have hsheds : c.Sheds (fun _ => True) (c.release a) := c.sheds_release trivial
    have hsound : (c.release a).table.Sound := by
      obtain ⟨agenda, heq⟩ := c.release_eq a
      exact heq ▸ ht.release _ _
    obtain ⟨hstaffed, hoff⟩ := ih (h.release ht ha) hsound fun b hb =>
      ⟨(has b hb).1.sheds hsheds, hsheds.length.symm ▸ (has b hb).2⟩
    refine ⟨hstaffed, List.forall_mem_cons.2 ⟨?_, hoff⟩⟩
    have hrest : (c.release a).Sheds (fun _ => True) ((c.release a).releaseAll as) :=
      sheds_releaseAll as _ fun _ _ => trivial
    exact (released_release ha hthere).sheds hrest

/-! ## What is stored and what is pending -/

theorem Aside.sheds (h : c.Aside i j) (hs : c.Sheds gone c') : c'.Aside i j where
  named := hs.nextCall ▸ h.named
  made := hs.length ▸ h.made
  unregistered := fun hj => h.unregistered (hs.registered hj)
  apart := fun k call hk hcall =>
    h.apart k call hk ((call?_of_calls_eq hs.calls k).symm.trans hcall)

theorem InHand.sheds (h : c.InHand i key a) (hs : c.Sheds gone c') (ha : ¬ gone a.session) :
    c'.InHand i key a :=
  ⟨h.attached.sheds hs ha, h.opened.sheds hs ha, h.aside.sheds hs⟩

theorem Open.lt (h : c.Open key j) : j < c.sessions.length := by
  obtain ⟨s, hs, -⟩ := h
  exact (List.getElem?_eq_some_iff.1 hs).1

/-- A session tells one listener. -/
theorem Open.key_eq {key' : ListenerKey} (h : c.Open key j) (h' : c.Open key' j) : key = key' := by
  obtain ⟨s, hs, -, rfl⟩ := h
  obtain ⟨s', hs', -, rfl⟩ := h'
  obtain rfl := Option.some.inj (hs.symm.trans hs')
  rfl

/-- What is stored under a key is in place and tells the listener of the key, and so is what a call
has pending, unless it is `busy`: then it is just at work. -/
structure Settled (busy : Nat → Prop) (c : Client) : Prop where
  staffed : c.Staffed
  keys : (c.registrations.map Prod.fst).Nodup
  stored : ∀ {key as}, c.registered? key = some as → ∀ a ∈ as, c.Attached a ∧ c.Open key a.session
  pending : ∀ {k key links next}, ¬ busy k → c.call? k = some (.linking key links next) →
    ∀ l ∈ links, c.InHand k key l.attachment

section Settled

variable {busy : Nat → Prop}

theorem registered?_of_mem {as : List Attachment} (h : (c.registrations.map Prod.fst).Nodup)
    (hmem : (key, as) ∈ c.registrations) : c.registered? key = some as := by
  cases hfind : c.registrations.find? (·.1 = key) with
  | none =>
    have := List.find?_eq_none.1 hfind _ hmem
    simp at this
  | some r =>
    have hkey : r.1 = key := by simpa using List.find?_some hfind
    have heq := List.inj_on_of_nodup_map h (List.mem_of_find?_eq_some hfind) hmem hkey
    rw [registered?, hfind, heq]
    rfl

theorem mem_of_registered? {as : List Attachment} (h : c.registered? key = some as) :
    (key, as) ∈ c.registrations := by
  obtain ⟨r, hr, rfl⟩ := Option.map_eq_some_iff.1 h
  have hkey : r.1 = key := by simpa using List.find?_some hr
  exact hkey ▸ List.mem_of_find?_eq_some hr

/-- Every session that is registered is in place under one key. -/
theorem Settled.registered (h : c.Settled busy) (hj : c.Registered j) :
    ∃ key as a, c.registered? key = some as ∧ a ∈ as ∧ a.session = j ∧ c.Attached a ∧
      c.Open key j := by
  obtain ⟨⟨key, as⟩, hr, a, ha, rfl⟩ := hj
  have hkey := registered?_of_mem h.keys hr
  obtain ⟨hattached, hopen⟩ := h.stored hkey a ha
  exact ⟨key, as, a, hkey, ha, rfl, hattached, hopen⟩

theorem Settled.forget (h : c.Settled busy) {rs : List (ListenerKey × List Attachment)}
    (hrs : rs.Sublist c.registrations) :
    ({ c with registrations := rs } : Client).Settled busy := by
  have hsheds : c.Sheds (fun _ => False) { c with registrations := rs } :=
    c.sheds_registrations hrs.subset
  refine ⟨h.staffed.of_eq rfl rfl, (hrs.map Prod.fst).nodup h.keys, fun hkey a ha => ?_,
    fun hk hcall l hl => (h.pending hk hcall l hl).sheds hsheds id⟩
  have hstored := h.stored (registered?_of_mem h.keys (hrs.subset (mem_of_registered? hkey))) a ha
  exact ⟨hstored.1.sheds hsheds id, hstored.2.sheds hsheds id⟩

/-- Sessions in place that are neither stored nor pending are released. -/
theorem Settled.releaseAll (h : c.Settled busy) (ht : c.table.Sound) {as : List Attachment}
    (has : ∀ a ∈ as, c.Attached a ∧ a.session < c.sessions.length)
    (hstored : ∀ a ∈ as, ¬ c.Registered a.session)
    (hpending : ∀ a ∈ as, ∀ k key, ¬ busy k → ¬ c.Pending k key a.session) :
    (c.releaseAll as).Settled busy := by
  have hsheds : c.Sheds (fun j => ∃ a ∈ as, a.session = j) (c.releaseAll as) :=
    sheds_releaseAll as c fun a ha => ⟨a, ha, rfl⟩
  obtain ⟨table, sessions, agenda, heq⟩ := c.releaseAll_eq as
  have hregistrations : (c.releaseAll as).registrations = c.registrations := by rw [heq]
  refine ⟨(h.staffed.releaseAll ht fun a ha => ⟨(has a ha).1.sole ht, (has a ha).2⟩).1,
    hregistrations ▸ h.keys, fun hkey a ha => ?_, fun {k key links next} hk hcall l hl => ?_⟩
  · rw [registered?_of_registrations hregistrations] at hkey
    have hgone : ¬ ∃ b ∈ as, b.session = a.session := by
      rintro ⟨b, hb, hsame⟩
      exact hstored b hb (hsame ▸ registered_of_mem hkey ha)
    exact ⟨(h.stored hkey a ha).1.sheds hsheds hgone, (h.stored hkey a ha).2.sheds hsheds hgone⟩
  · rw [call?_of_calls_eq hsheds.calls] at hcall
    refine (h.pending hk hcall l hl).sheds hsheds ?_
    rintro ⟨b, hb, hsame⟩
    exact hpending b hb k key hk ⟨links, next, hcall, l, hl, hsame.symm⟩

/-- What is stored is in nobody's hands. -/
theorem Settled.not_pending (h : c.Settled busy) (hj : c.Registered j) {k : Nat} (hk : ¬ busy k) :
    ¬ c.Pending k key j := by
  rintro ⟨links, next, hcall, l, hl, rfl⟩
  exact (h.pending hk hcall l hl).aside.unregistered hj

theorem Settled.not_registered_of_forgotten (h : c.Settled busy) {as : List Attachment}
    (hkey : c.registered? key = some as) (ha : a ∈ as) :
    ¬ ({ c with registrations := c.registrations.filter (·.1 ≠ key) } : Client).Registered
      a.session := by
  rintro ⟨⟨key', bs⟩, hr, b, hb, hsame⟩
  obtain ⟨hr, hne⟩ := List.mem_filter.1 hr
  have hopen := (h.stored (registered?_of_mem h.keys hr) b hb).2
  rw [hsame] at hopen
  exact of_decide_eq_true hne (hopen.key_eq (h.stored hkey a ha).2)

/-- A key is removed: what was stored under it is released, and the rest stays. -/
theorem Settled.unregister (h : c.Settled busy) (ht : c.table.Sound) (key : ListenerKey) :
    (c.unregister key).Settled busy ∧ ∀ j, c.Under key j → (c.unregister key).Released j := by
  unfold Client.unregister
  split
  · next hnone =>
    refine ⟨h, ?_⟩
    rintro j ⟨as, has, -⟩
    rw [hnone] at has
    cases has
  · next as hkey =>
    have hforget : ({ c with registrations := c.registrations.filter (·.1 ≠ key) } : Client).Settled
        busy := h.forget List.filter_sublist
    have has : ∀ a ∈ as, c.Attached a ∧ a.session < c.sessions.length := fun a ha =>
      ⟨(h.stored hkey a ha).1, (h.stored hkey a ha).2.lt⟩
    refine ⟨hforget.releaseAll ht has (fun a ha => h.not_registered_of_forgotten hkey ha)
      fun a ha _ _ hk => h.not_pending (registered_of_mem hkey ha) hk, ?_⟩
    rintro j ⟨as', has', a, ha, rfl⟩
    obtain rfl := Option.some.inj (hkey.symm.trans has')
    exact (hforget.staffed.releaseAll ht fun a ha => ⟨(has a ha).1.sole ht, (has a ha).2⟩).2 a ha

/-- A call puts what it has in its hands under a key, or releases it if the key is gone. -/
theorem Settled.complete (h : c.Settled (· = i)) (ht : c.table.Sound) {as : List Attachment}
    (has : ∀ a ∈ as, c.InHand i key a) :
    (c.complete key as).Settled (· = i) ∧
      ∀ a ∈ as, (c.complete key as).Under key a.session ∨
        (c.complete key as).Released a.session := by
  unfold Client.complete
  split
  · have hplace : ∀ a ∈ as, c.Attached a ∧ a.session < c.sessions.length := fun a ha =>
      ⟨(has a ha).attached, (has a ha).opened.lt⟩
    refine ⟨h.releaseAll ht hplace (fun a ha => (has a ha).aside.unregistered)
      fun a ha k key' hk hpending => ?_, fun a ha => Or.inr ?_⟩
    · obtain ⟨links, next, hcall, l, hl, hsame⟩ := hpending
      exact (has a ha).aside.apart k _ hk hcall (hsame ▸ List.mem_map_of_mem hl)
    · exact (h.staffed.releaseAll ht fun a ha => ⟨(hplace a ha).1.sole ht, (hplace a ha).2⟩).2 a ha
  · next bs hkey =>
    let c' : Client := { c with
      registrations := c.registrations.map fun r => if r.1 = key then (r.1, r.2 ++ as) else r }
    have hc' : c.complete key as = c' := by
      unfold Client.complete
      rw [hkey]
    have hfst : c'.registrations.map Prod.fst = c.registrations.map Prod.fst := by
      rw [List.map_map]
      refine List.map_congr_left fun r _ => ?_
      rw [Function.comp_apply]
      split_ifs <;> rfl
    have hfound : ∀ key', c'.registered? key' =
        (c.registered? key').map fun bs => if key' = key then bs ++ as else bs := fun key' => by
      rw [← hc', registered?_complete]
    refine ⟨⟨h.staffed.of_eq rfl rfl, hfst ▸ h.keys, fun {key' bs'} hkey' a ha => ?_,
      fun {k key' links next} hk hcall l hl => ?_⟩, fun a ha => Or.inl ?_⟩
    · rw [hfound] at hkey'
      obtain ⟨bs', hbs', rfl⟩ := Option.map_eq_some_iff.1 hkey'
      split_ifs at ha with heq
      · subst heq
        rcases List.mem_append.1 ha with ha | ha
        · exact h.stored hbs' a ha
        · exact ⟨(has a ha).attached, (has a ha).opened⟩
      · exact h.stored hbs' a ha
    · have hinhand := h.pending hk hcall l hl
      refine ⟨hinhand.attached, hinhand.opened, hinhand.aside.named, hinhand.aside.made, ?_,
        hinhand.aside.apart⟩
      rintro ⟨r, hr, a, ha, hsame⟩
      obtain ⟨r', hr', rfl⟩ := List.mem_map.1 hr
      -- what is new under the key is in the hands of the call at work, not of this one
      have hcase : a ∈ r'.2 ∨ a ∈ as := by
        split_ifs at ha
        · exact List.mem_append.1 ha
        · exact Or.inl ha
      rcases hcase with ha | ha
      · exact hinhand.aside.unregistered ⟨r', hr', a, ha, hsame⟩
      · exact (has a ha).aside.apart k _ hk hcall (hsame ▸ List.mem_map_of_mem hl)
    · refine ⟨bs ++ as, ?_, a, List.mem_append_right _ ha, rfl⟩
      change c'.registered? key = _
      rw [hfound, hkey, Option.map_some, if_pos rfl]

theorem Settled.all_registered (h : c.Settled busy) :
    ∀ a ∈ c.registrations.flatMap (·.2), c.Attached a ∧ a.session < c.sessions.length := by
  intro a ha
  obtain ⟨⟨key, as⟩, hr, ha⟩ := List.mem_flatMap.1 ha
  obtain ⟨hattached, hopen⟩ := h.stored (registered?_of_mem h.keys hr) a ha
  exact ⟨hattached, hopen.lt⟩

/-- Everything that is registered is released, and then the shared feeds are stopped. -/
theorem Settled.close (h : c.Settled busy) (ht : c.table.Sound) :
    c.close.Settled busy ∧ ∀ j, c.Registered j → c.close.Released j := by
  let as := c.registrations.flatMap (·.2)
  let c₀ : Client := { c with registrations := [] }
  have hforget : c₀.Settled busy := h.forget (List.nil_sublist _)
  have has : ∀ a ∈ as, c₀.Attached a ∧ a.session < c₀.sessions.length := h.all_registered
  have hreleased : (c₀.releaseAll as).Settled busy :=
    hforget.releaseAll ht has (fun _ _ ⟨_, hr, _⟩ => (List.not_mem_nil hr).elim)
      fun a ha k key hk => h.not_pending (registered_of_mem_flatMap ha) hk
  have hoff := (hforget.staffed.releaseAll ht fun a ha => ⟨(has a ha).1.sole ht, (has a ha).2⟩).2
  obtain ⟨agenda, hclose⟩ : ∃ agenda, c.close =
      { c₀.releaseAll as with table := (c₀.releaseAll as).table.close, agenda } := by
    unfold Client.close
    exact foldl_announceStop_eq _ _
  have hstop : (c₀.releaseAll as).Sheds (fun _ => False) c.close := by
    rw [hclose]
    exact (sheds_table _ (FeedTable.sheds_close _)).trans (sheds_agenda _ agenda)
  have hregistrations : c.close.registrations = [] := by
    obtain ⟨_, _, _, heq⟩ := c.close_eq
    rw [heq]
  refine ⟨⟨?_, by rw [hregistrations]; exact List.nodup_nil, fun {key as'} hkey => ?_,
    fun hk hcall l hl => ?_⟩, ?_⟩
  · rw [hclose]
    exact ⟨hreleased.staffed.manned.close, fun hf hruns hj =>
      hreleased.staffed.awake (FeedTable.feed?_close hf hruns).1 hruns hj⟩
  · rw [registered?, hregistrations] at hkey
    cases hkey
  · rw [call?_of_calls_eq hstop.calls] at hcall
    exact (hreleased.pending hk hcall l hl).sheds hstop id
  · rintro j ⟨r, hr, a, ha, rfl⟩
    exact (hoff a (List.mem_flatMap.2 ⟨r, hr, ha⟩)).sheds hstop

theorem Staffed.strand (h : c.Staffed) (ha : c.Sole a) :
    ({ c.modifySession a.session Session.close with
      table := c.table.modify a.feed Feed.stop } : Client).Staffed := by
  refine ⟨⟨fun {k f} hf => ?_, fun {k f} hf hruns hshared => ?_⟩, fun {k f j} hf hruns hj => ?_⟩
  all_goals
    change (c.table.modify a.feed Feed.stop).feed? k = some f at hf
    rw [FeedTable.feed?_modify] at hf
    split_ifs at hf with hk
  · obtain ⟨g, -, rfl⟩ := Option.map_eq_some_iff.1 hf
    exact Or.inl rfl
  · exact h.manned.busy hf
  · obtain ⟨g, -, rfl⟩ := Option.map_eq_some_iff.1 hf
    cases hruns
  · exact h.manned.listed hf hruns hshared
  · obtain ⟨g, -, rfl⟩ := Option.map_eq_some_iff.1 hf
    cases hruns
  · obtain ⟨s, hs, hopen⟩ := h.awake hf hruns hj
    have hne : a.session ≠ j := fun heq => hk (ha k f hf (heq ▸ hj)).symm
    exact ⟨s, by rw [modifySession, List.getElem?_modify, hs]; simp [hne], hopen⟩

/-- When the client is given up, no call is under way, and nothing is left running that was
registered or shared. -/
theorem Settled.tearDown (h : c.Settled busy) (ht : c.table.Sound) (hcalls : c.calls = []) :
    c.tearDown.Settled busy := by
  have hfold : ∀ (as : List Attachment) (b : Client), b.Staffed → (∀ a ∈ as, b.Sole a) →
      (as.foldl (fun b a =>
        { b.modifySession a.session Session.close with
          table := b.table.modify a.feed Feed.stop }) b).Staffed := by
    intro as
    induction as with
    | nil => exact fun _ h _ => h
    | cons a as ih =>
      intro b hb has
      rw [List.forall_mem_cons] at has
      refine ih _ (hb.strand has.1) fun a' ha' k f hf hmem => ?_
      change (b.table.modify a.feed Feed.stop).feed? k = some f at hf
      rw [FeedTable.feed?_modify] at hf
      split_ifs at hf
      · obtain ⟨g, hg, rfl⟩ := Option.map_eq_some_iff.1 hf
        exact has.2 a' ha' k g hg hmem
      · exact has.2 a' ha' k f hf hmem
  have hstranded := hfold (c.registrations.flatMap (·.2)) { c with registrations := [] }
    (h.staffed.of_eq rfl rfl) fun a ha => (h.all_registered a ha).1.sole ht
  have hnone : ∀ key, c.tearDown.registered? key = none := fun key => by
    rw [registered?, c.tearDown_registrations]
    rfl
  refine ⟨⟨hstranded.manned.close, fun hf hruns hj =>
      hstranded.awake (FeedTable.feed?_close hf hruns).1 hruns hj⟩,
    by rw [c.tearDown_registrations]; exact List.nodup_nil, fun {key as} hkey => ?_,
    fun hk hcall => ?_⟩
  · rw [hnone] at hkey
    cases hkey
  · rw [call?_of_calls_eq c.sheds_tearDown.calls, call?, hcalls] at hcall
    cases hcall

end Settled

end Client

end LedgerClient
