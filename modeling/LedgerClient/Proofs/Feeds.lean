import LedgerClient.Feed.Table
import Mathlib.Data.List.Nodup
import Mathlib.Tactic.Common

/-!
# Feeds in their table

What becomes of a feed while sessions join and leave: `Feed.Alike` says that it is the same feed
still, but for the sessions on it and for a stop.  A table stays in order (`FeedTable.Sound`): no
session is on two feeds, and what listeners share are running feeds under their own keys.
-/

namespace LedgerClient

namespace Feed

/-- The same feed still: sessions left it that are among `gone`, others came that are among `new`,
and it may have been stopped. -/
structure Alike (gone new : Nat → Prop) (f f' : Feed) : Prop where
  same : f' = { f with phase := f'.phase, sessions := f'.sessions }
  phase : f'.phase = f.phase ∨ f'.phase = .stopped
  kept : ∀ j ∈ f.sessions, j ∈ f'.sessions ∨ gone j
  added : ∀ j ∈ f'.sessions, j ∈ f.sessions ∨ new j
  nodup : f.sessions.Nodup → f'.sessions.Nodup

variable {gone new gone' new' : Nat → Prop} {f f' f'' : Feed}

theorem Alike.refl (f : Feed) : f.Alike gone new f :=
  ⟨rfl, Or.inl rfl, fun _ => Or.inl, fun _ => Or.inl, id⟩

theorem Alike.trans (h : f.Alike gone new f') (h' : f'.Alike gone new f'') :
    f.Alike gone new f'' := by
  refine ⟨?_, ?_, fun j hj => ?_, fun j hj => ?_, fun hn => h'.nodup (h.nodup hn)⟩
  · rw [h'.same, h.same]
  · rcases h'.phase with heq | heq
    · exact heq ▸ h.phase
    · exact Or.inr heq
  · rcases h.kept j hj with hj | hj
    · exact h'.kept j hj
    · exact Or.inr hj
  · rcases h'.added j hj with hj | hj
    · exact h.added j hj
    · exact Or.inr hj

theorem Alike.mono (h : f.Alike gone new f') (hgone : ∀ j, gone j → gone' j)
    (hnew : ∀ j, new j → new' j) : f.Alike gone' new' f' :=
  ⟨h.same, h.phase, fun j hj => (h.kept j hj).imp_right (hgone j),
    fun j hj => (h.added j hj).imp_right (hnew j), h.nodup⟩

theorem alike_stop (f : Feed) : f.Alike gone new f.stop :=
  ⟨rfl, Or.inr rfl, fun _ => Or.inl, fun _ => Or.inl, id⟩

theorem mem_sessions_detach {j x : Nat} : x ∈ (f.detach j).sessions ↔ x ∈ f.sessions ∧ x ≠ j := by
  simp [detach]

theorem alike_detach (f : Feed) {j : Nat} (hj : gone j) : f.Alike gone new (f.detach j) := by
  refine ⟨rfl, Or.inl rfl, fun x hx => ?_, fun x hx => ?_, fun hn => hn.filter _⟩
  · by_cases heq : x = j
    · exact Or.inr (heq ▸ hj)
    · exact Or.inl (mem_sessions_detach.2 ⟨hx, heq⟩)
  · exact Or.inl (mem_sessions_detach.1 hx).1

theorem mem_sessions_attach {j x : Nat} : x ∈ (f.attach j).sessions ↔ x ∈ f.sessions ∨ x = j := by
  unfold attach
  split_ifs with h
  · exact ⟨Or.inl, fun hx => hx.elim id fun hx => hx ▸ h⟩
  · simp

theorem same_attach (f : Feed) (j : Nat) :
    f.attach j = { f with sessions := (f.attach j).sessions } := by
  unfold attach
  split_ifs <;> rfl

theorem nodup_attach (h : f.sessions.Nodup) (j : Nat) : (f.attach j).sessions.Nodup := by
  unfold attach
  split_ifs with hj
  · exact h
  · refine List.nodup_append.2 ⟨h, List.nodup_singleton j, ?_⟩
    rintro x hx y hy rfl
    exact hj (List.mem_singleton.1 hy ▸ hx)

theorem alike_attach (f : Feed) {j : Nat} (hj : new j) : f.Alike gone new (f.attach j) := by
  refine ⟨?_, Or.inl ?_, fun x hx => Or.inl (mem_sessions_attach.2 (Or.inl hx)), fun x hx => ?_,
    fun h => nodup_attach h j⟩
  · rw [f.same_attach]
  · rw [f.same_attach]
  · rcases mem_sessions_attach.1 hx with hx | rfl
    · exact Or.inl hx
    · exact Or.inr hj

theorem isRunning_attach (f : Feed) (j : Nat) : (f.attach j).isRunning = f.isRunning := by
  unfold attach
  split_ifs <;> rfl

theorem sessions_launch (r : ReconnectOptions) (f : Feed) :
    (f.launch r).sessions = f.sessions := by
  unfold launch
  split_ifs <;> rfl

theorem launch_of_isRunning (r : ReconnectOptions) (h : f.isRunning = true) : f.launch r = f :=
  if_pos h

end Feed

namespace FeedTable

/-- The feed that is made for a session when none is shared. -/
def opening (r : ReconnectOptions) (peer : Peer) (kind : BlockKind) (start : Option Nat)
    (session : Nat) : Feed :=
  ⟨peer, kind, start.isNone, start, none, .launching, r.initial, [session], []⟩

/-- The table, and the feed, after a session was attached to the shared feed of a peer or to a feed
of its own that begins at `start`. -/
def join (r : ReconnectOptions) (t : FeedTable) (peer : Peer) (kind : BlockKind)
    (start : Option Nat) (session : Nat) : FeedTable × Nat :=
  match start with
  | some n => t.acquireReplay r peer kind n session
  | none => t.acquire r peer kind session

/-- No session is on a feed twice or on two feeds, a feed is made for sharing unless it begins at a
block, and what is shared are running feeds, each under its own key. -/
structure Sound (t : FeedTable) : Prop where
  begins : ∀ {k f}, t.feed? k = some f → f.shared = f.initial.isNone
  nodup : ∀ {k f}, t.feed? k = some f → f.sessions.Nodup
  apart : ∀ {k k' f f' j}, t.feed? k = some f → t.feed? k' = some f' → j ∈ f.sessions →
    j ∈ f'.sessions → k = k'
  keys : (t.shared.map Prod.fst).Nodup
  runs : ∀ {key k}, (key, k) ∈ t.shared → ∃ f, t.feed? k = some f ∧ f.isRunning = true ∧
    f.shared = true ∧ key = ⟨f.peer.name, f.kind⟩

@[simp] theorem feed?_modify (t : FeedTable) (i k : Nat) (g : Feed → Feed) :
    (t.modify i g).feed? k = if i = k then (t.feed? k).map g else t.feed? k := by
  simp only [feed?, modify, List.getElem?_modify]
  split_ifs <;> simp

theorem mem_of_shared? {t : FeedTable} {key : FeedKey} {k : Nat} (h : t.shared? key = some k) :
    (key, k) ∈ t.shared := by
  obtain ⟨e, he, rfl⟩ := Option.map_eq_some_iff.1 h
  have hkey : e.1 = key := by simpa using List.find?_some he
  exact hkey ▸ List.mem_of_find?_eq_some he

theorem not_mem_of_shared?_eq_none {t : FeedTable} {key : FeedKey} (h : t.shared? key = none)
    (k : Nat) : (key, k) ∉ t.shared := by
  intro hmem
  have := List.find?_eq_none.1 (Option.map_eq_none_iff.1 h) _ hmem
  simp at this

/-- In a list with distinct keys, a key is found with what it stands beside. -/
theorem Sound.shared?_of_mem {t : FeedTable} (h : t.Sound) {key : FeedKey} {k : Nat}
    (hmem : (key, k) ∈ t.shared) : t.shared? key = some k := by
  cases hk : t.shared? key with
  | none => exact absurd hmem (not_mem_of_shared?_eq_none hk k)
  | some k' =>
    have hmem' := mem_of_shared? hk
    have := List.inj_on_of_nodup_map h.keys hmem hmem' rfl
    exact congrArg some (Prod.mk.inj this).2.symm

/-! ## Sessions leave -/

/-- The same feeds still, but for sessions among `gone` that have left and feeds that were
stopped. -/
structure Sheds (gone : Nat → Prop) (t t' : FeedTable) : Prop where
  length : t'.feeds.length = t.feeds.length
  feed : ∀ {k f}, t.feed? k = some f →
    ∃ f', t'.feed? k = some f' ∧ f.Alike gone (fun _ => False) f'

variable {gone gone' : Nat → Prop} {t t' t'' : FeedTable}

theorem Sheds.refl (t : FeedTable) : t.Sheds gone t := ⟨rfl, fun h => ⟨_, h, .refl _⟩⟩

theorem Sheds.trans (h : t.Sheds gone t') (h' : t'.Sheds gone t'') : t.Sheds gone t'' := by
  refine ⟨h'.length.trans h.length, fun hf => ?_⟩
  obtain ⟨f', hf', ha⟩ := h.feed hf
  obtain ⟨f'', hf'', ha'⟩ := h'.feed hf'
  exact ⟨f'', hf'', ha.trans ha'⟩

theorem Sheds.mono (h : t.Sheds gone t') (hgone : ∀ j, gone j → gone' j) : t.Sheds gone' t' := by
  refine ⟨h.length, fun hf => ?_⟩
  obtain ⟨f', hf', ha⟩ := h.feed hf
  exact ⟨f', hf', ha.mono hgone fun _ => id⟩

theorem Sheds.mem_sessions (h : t.Sheds (fun _ => False) t') {k j : Nat} {f f' : Feed}
    (hf : t.feed? k = some f) (hf' : t'.feed? k = some f') (hj : j ∈ f.sessions) :
    j ∈ f'.sessions := by
  obtain ⟨f'', hf'', ha⟩ := h.feed hf
  rw [hf', Option.some.injEq] at hf''
  exact hf'' ▸ (ha.kept j hj).resolve_right id

theorem Sheds.back (h : t.Sheds gone t') {k : Nat} {f' : Feed} (hf' : t'.feed? k = some f') :
    ∃ f, t.feed? k = some f ∧ f.Alike gone (fun _ => False) f' := by
  have hk : k < t.feeds.length := by
    rw [← h.length]
    exact (List.getElem?_eq_some_iff.1 hf').1
  obtain ⟨f'', hf'', ha⟩ := h.feed (List.getElem?_eq_getElem hk)
  rw [hf', Option.some.injEq] at hf''
  exact ⟨_, List.getElem?_eq_getElem hk, hf'' ▸ ha⟩

theorem sheds_modify (t : FeedTable) (i : Nat) {g : Feed → Feed}
    (hg : ∀ f : Feed, f.Alike gone (fun _ => False) (g f)) : t.Sheds gone (t.modify i g) := by
  refine ⟨List.length_modify .., fun {k f} hf => ?_⟩
  rw [feed?_modify]
  split_ifs
  · exact ⟨g f, by rw [hf]; rfl, hg f⟩
  · exact ⟨f, hf, .refl f⟩

@[simp] theorem unshare_feeds (t : FeedTable) (i : Nat) (f : Feed) :
    (t.unshare i f).feeds = t.feeds := by
  unfold unshare
  dsimp only
  split_ifs <;> rfl

theorem sheds_unshare (t : FeedTable) (i : Nat) (f : Feed) : t.Sheds gone (t.unshare i f) := by
  refine ⟨by rw [unshare_feeds], fun hf => ⟨_, ?_, .refl _⟩⟩
  rw [feed?, unshare_feeds]
  exact hf

theorem sheds_release (t : FeedTable) (i : Nat) {j : Nat} (hj : gone j) :
    t.Sheds gone (t.release i j) := by
  have hdetach : t.Sheds gone (t.modify i (·.detach j)) :=
    t.sheds_modify i fun f => f.alike_detach hj
  unfold release
  dsimp only
  split
  · exact hdetach
  · split_ifs
    · exact hdetach.trans ((sheds_modify _ i Feed.alike_stop).trans (sheds_unshare _ _ _))
    · exact hdetach

theorem sheds_close (t : FeedTable) : t.Sheds gone t.close := by
  have hstop : ∀ (entries : List (FeedKey × Nat)) (t : FeedTable),
      t.Sheds gone (entries.foldl (fun t e => t.modify e.2 Feed.stop) t) := by
    intro entries
    induction entries with
    | nil => exact .refl
    | cons e es ih => exact fun t => (t.sheds_modify e.2 Feed.alike_stop).trans (ih _)
  exact ⟨(hstop t.shared t).length, (hstop t.shared t).feed⟩

theorem Sheds.begins (h : t.Sheds gone t') (ht : t.Sound) {k : Nat} {f : Feed}
    (hf : t'.feed? k = some f) : f.shared = f.initial.isNone := by
  obtain ⟨g, hg, ha⟩ := h.back hf
  rw [ha.same]
  exact (ht.begins hg :)

theorem Sheds.nodup (h : t.Sheds gone t') (ht : t.Sound) {k : Nat} {f : Feed}
    (hf : t'.feed? k = some f) : f.sessions.Nodup := by
  obtain ⟨g, hg, ha⟩ := h.back hf
  exact ha.nodup (ht.nodup hg)

theorem Sheds.apart (h : t.Sheds gone t') (ht : t.Sound) {k k' j : Nat} {f f' : Feed}
    (hf : t'.feed? k = some f) (hf' : t'.feed? k' = some f') (hj : j ∈ f.sessions)
    (hj' : j ∈ f'.sessions) : k = k' := by
  obtain ⟨g, hg, ha⟩ := h.back hf
  obtain ⟨g', hg', ha'⟩ := h.back hf'
  exact ht.apart hg hg' ((ha.added j hj).resolve_right id) ((ha'.added j hj').resolve_right id)

/-- Where nothing is shared the table is in order when its feeds are. -/
theorem Sheds.sound_of_unshared (h : t.Sheds gone t') (ht : t.Sound) (hs : t'.shared = []) :
    t'.Sound :=
  ⟨h.begins ht, h.nodup ht, h.apart ht, by simp [hs], by simp [hs]⟩

theorem Sound.close (ht : t.Sound) : t.close.Sound :=
  have hsheds : t.Sheds (fun _ => False) t.close := t.sheds_close
  hsheds.sound_of_unshared ht rfl

/-- What is shared after a change of one feed was shared before, and is as it was but for that
feed. -/
theorem runs_modify (ht : t.Sound) {i : Nat} {g : Feed → Feed} {key : FeedKey} {k : Nat}
    (hmem : (key, k) ∈ t.shared)
    (hg : ∀ f, t.feed? i = some f → k = i → (g f).isRunning = f.isRunning ∧
      (g f).shared = f.shared ∧ (g f).peer = f.peer ∧ (g f).kind = f.kind) :
    ∃ f, (t.modify i g).feed? k = some f ∧ f.isRunning = true ∧ f.shared = true ∧
      key = ⟨f.peer.name, f.kind⟩ := by
  obtain ⟨f, hf, hruns, hshared, hkey⟩ := ht.runs hmem
  rw [feed?_modify]
  split_ifs with hik
  · obtain ⟨h₁, h₂, h₃, h₄⟩ := hg f (hik ▸ hf) hik.symm
    exact ⟨g f, by rw [hf]; rfl, h₁.trans hruns, h₂.trans hshared, by rw [h₃, h₄]; exact hkey⟩
  · exact ⟨f, hf, hruns, hshared, hkey⟩

theorem unshare_sublist (t : FeedTable) (i : Nat) (f : Feed) :
    (t.unshare i f).shared.Sublist t.shared := by
  unfold unshare
  dsimp only
  split_ifs
  · exact List.filter_sublist
  · exact List.Sublist.refl _

/-- A feed that is found under its own key is taken out. -/
theorem not_mem_unshare {f : Feed} {i : Nat} (hf : f.shared = true)
    (hi : t.shared? ⟨f.peer.name, f.kind⟩ = some i) (k : Nat) :
    (⟨f.peer.name, f.kind⟩, k) ∉ (t.unshare i f).shared := by
  unfold unshare
  simp [hf, hi]

/-- A feed that is stopped because no session is left is no longer shared. -/
theorem Sound.release (ht : t.Sound) (i j : Nat) : (t.release i j).Sound := by
  have hsheds : t.Sheds (· = j) (t.release i j) := t.sheds_release i rfl
  suffices h : ((t.release i j).shared.map Prod.fst).Nodup ∧
      ∀ {key k}, (key, k) ∈ (t.release i j).shared → ∃ f, (t.release i j).feed? k = some f ∧
        f.isRunning = true ∧ f.shared = true ∧ key = ⟨f.peer.name, f.kind⟩ from
    ⟨hsheds.begins ht, hsheds.nodup ht, hsheds.apart ht, h.1, h.2⟩
  have hdetach : ∀ {key k}, (key, k) ∈ t.shared → ∃ f, (t.modify i (·.detach j)).feed? k = some f ∧
      f.isRunning = true ∧ f.shared = true ∧ key = ⟨f.peer.name, f.kind⟩ := fun hmem =>
    runs_modify ht hmem fun _ _ _ => ⟨rfl, rfl, rfl, rfl⟩
  unfold FeedTable.release
  dsimp only
  split
  · exact ⟨ht.keys, hdetach⟩
  · next f hf =>
    split_ifs with hempty
    · refine ⟨((unshare_sublist _ i f).map Prod.fst).nodup ht.keys, fun {key k} hmem => ?_⟩
      let t' := (t.modify i (·.detach j)).modify i Feed.stop
      have hmem' : (key, k) ∈ t'.shared := (t'.unshare_sublist i f).subset hmem
      obtain ⟨g, hg, hruns, hshared, hkey⟩ := hdetach hmem'
      have hik : i ≠ k := by
        rintro rfl
        rw [hf, Option.some.injEq] at hg
        subst hg
        have hfound : t'.shared? key = some i := ht.shared?_of_mem hmem'
        exact not_mem_unshare hshared (hkey ▸ hfound) i (hkey ▸ hmem)
      refine ⟨g, ?_, hruns, hshared, hkey⟩
      rw [feed?, unshare_feeds]
      change ((t.modify i (·.detach j)).modify i Feed.stop).feed? k = some g
      rw [feed?_modify, if_neg hik, hg]
    · exact ⟨ht.keys, hdetach⟩

/-! ## Sessions join -/

section Join

variable (r : ReconnectOptions) (peer : Peer) (kind : BlockKind) (start : Option Nat)
  (session : Nat)

/-- A session joins the feed that is shared, or a new one. -/
theorem join_cases :
    (∃ i, start = none ∧ t.shared? ⟨peer.name, kind⟩ = some i ∧
      t.join r peer kind start session = (t.modify i fun f => (f.attach session).launch r, i)) ∨
    ∃ shared, t.join r peer kind start session =
        (⟨t.feeds ++ [opening r peer kind start session], shared⟩, t.feeds.length) ∧
      (shared = t.shared ∨ start = none ∧ t.shared? ⟨peer.name, kind⟩ = none ∧
        shared = t.shared ++ [(⟨peer.name, kind⟩, t.feeds.length)]) := by
  cases start with
  | some n => exact Or.inr ⟨t.shared, rfl, Or.inl rfl⟩
  | none =>
    cases hi : t.shared? ⟨peer.name, kind⟩ with
    | some i => exact Or.inl ⟨i, rfl, rfl, by simp only [join, acquire, hi]⟩
    | none =>
      refine Or.inr ⟨t.shared ++ [(⟨peer.name, kind⟩, t.feeds.length)], ?_,
        Or.inr ⟨rfl, rfl, rfl⟩⟩
      simp only [join, acquire, hi]
      rfl

theorem feed?_append {f : Feed} {shared : List (FeedKey × Nat)} {k : Nat} :
    feed? ⟨t.feeds ++ [f], shared⟩ k = if k = t.feeds.length then some f else t.feed? k := by
  simp only [feed?, List.getElem?_append]
  split_ifs with h₁ h₂ h₂
  · omega
  · rfl
  · simp [h₂]
  · rw [List.getElem?_eq_none (by simp; omega), List.getElem?_eq_none (by omega)]

theorem feed?_length : t.feed? t.feeds.length = none := List.getElem?_eq_none (Nat.le_refl _)

theorem Sound.feed?_join (ht : t.Sound) {k : Nat} {f : Feed} (hf : t.feed? k = some f) :
    ∃ f', (t.join r peer kind start session).1.feed? k = some f' ∧
      (f' = f ∨ f' = f.attach session) := by
  rcases join_cases r peer kind start session with ⟨i, -, hi, h⟩ | ⟨shared, h, -⟩ <;> rw [h]
  · rw [feed?_modify]
    split_ifs with hik
    · obtain ⟨g, hg, hruns, -, -⟩ := ht.runs (mem_of_shared? hi)
      rw [hik, hf, Option.some.injEq] at hg
      subst hg
      refine ⟨f.attach session, ?_, Or.inr rfl⟩
      have hruns' := (f.isRunning_attach session).trans hruns
      rw [hf, Option.map_some, Feed.launch_of_isRunning r hruns']
    · exact ⟨f, hf, Or.inl rfl⟩
  · have hk : k ≠ t.feeds.length := by
      rintro rfl
      rw [feed?_length] at hf
      cases hf
    exact ⟨f, by rw [feed?_append, if_neg hk, hf], Or.inl rfl⟩

theorem feed?_join_new {k : Nat} {f : Feed} (hk : t.feed? k = none)
    (hf : (t.join r peer kind start session).1.feed? k = some f) :
    f = opening r peer kind start session := by
  rcases join_cases r peer kind start session with ⟨i, -, -, h⟩ | ⟨shared, h, -⟩ <;> rw [h] at hf
  · rw [feed?_modify, hk, Option.map_none, ite_self] at hf
    cases hf
  · rw [feed?_append, hk] at hf
    split_ifs at hf
    · exact (Option.some.inj hf).symm

theorem mem_sessions_join {k x : Nat} {f : Feed}
    (hf : (t.join r peer kind start session).1.feed? k = some f) (hx : x ∈ f.sessions) :
    x = session ∨ ∃ g, t.feed? k = some g ∧ x ∈ g.sessions := by
  rcases join_cases r peer kind start session with ⟨i, -, -, h⟩ | ⟨shared, h, -⟩ <;> rw [h] at hf
  · rw [feed?_modify] at hf
    split_ifs at hf
    · obtain ⟨g, hg, rfl⟩ := Option.map_eq_some_iff.1 hf
      rw [Feed.sessions_launch] at hx
      exact (Feed.mem_sessions_attach.1 hx).symm.imp_right fun hx => ⟨g, hg, hx⟩
    · exact Or.inr ⟨f, hf, hx⟩
  · rw [feed?_append] at hf
    split_ifs at hf
    · obtain rfl := Option.some.inj hf
      exact Or.inl (List.mem_singleton.1 hx)
    · exact Or.inr ⟨f, hf, hx⟩

theorem Sound.mem_join (ht : t.Sound) :
    ∃ f, (t.join r peer kind start session).1.feed? (t.join r peer kind start session).2 = some f ∧
      session ∈ f.sessions ∧ f.initial = start ∧ f.isRunning = true ∧ f.peer.name = peer.name ∧
      f.kind = kind := by
  rcases join_cases r peer kind start session with ⟨i, hs, hi, h⟩ | ⟨shared, h, -⟩ <;> rw [h]
  · obtain ⟨f, hf, hruns, hshared, hkey⟩ := ht.runs (mem_of_shared? hi)
    rw [FeedKey.mk.injEq] at hkey
    have hruns' := (f.isRunning_attach session).trans hruns
    have hinitial : f.initial = start := by
      rw [hs, ← Option.isNone_iff_eq_none, ← ht.begins hf, hshared]
    refine ⟨f.attach session, ?_, Feed.mem_sessions_attach.2 (Or.inr rfl), ?_, hruns', ?_, ?_⟩
    · rw [feed?_modify, if_pos rfl, hf, Option.map_some, Feed.launch_of_isRunning r hruns']
    all_goals
      unfold Feed.attach
      split_ifs <;> simp [hkey, hinitial]
  · exact ⟨_, by rw [feed?_append, if_pos rfl], List.mem_singleton_self _, rfl, rfl, rfl, rfl⟩

theorem shared?_append (t : FeedTable) {key key' : FeedKey} {k : Nat} {fs : List Feed} :
    shared? ⟨fs, t.shared ++ [(key, k)]⟩ key' =
      (t.shared? key').or (if key = key' then some k else none) := by
  rw [shared?, List.find?_append, shared?]
  cases t.shared.find? (·.1 = key') with
  | some e => rfl
  | none => by_cases h : key = key' <;> simp [h]

theorem shared?_join_of_some {key : FeedKey} {k : Nat} (hk : t.shared? key = some k) :
    (t.join r peer kind start session).1.shared? key = some k := by
  rcases join_cases r peer kind start session with ⟨i, -, -, h⟩ | ⟨shared, h, hs⟩ <;> rw [h]
  · exact hk
  · rcases hs with rfl | ⟨-, -, rfl⟩
    · exact hk
    · rw [shared?_append, hk, Option.some_or]

/-- The feed that a session joins from now on is the one that is shared. -/
theorem shared?_join :
    (t.join r peer kind none session).1.shared? ⟨peer.name, kind⟩ =
      some (t.join r peer kind none session).2 := by
  unfold join acquire
  dsimp only
  split
  · next i hi => exact hi
  · next hnone => rw [shared?_append, hnone, Option.none_or, if_pos rfl]

theorem eq_of_mem_join (hnew : ∀ {k f}, t.feed? k = some f → session ∉ f.sessions) {k : Nat}
    {f : Feed} (hf : (t.join r peer kind start session).1.feed? k = some f)
    (hmem : session ∈ f.sessions) : k = (t.join r peer kind start session).2 := by
  rcases join_cases r peer kind start session with ⟨i, -, -, h⟩ | ⟨shared, h, -⟩ <;>
    rw [h] at hf ⊢
  · rw [feed?_modify] at hf
    split_ifs at hf with hik
    · exact hik.symm
    · exact absurd hmem (hnew hf)
  · rw [feed?_append] at hf
    split_ifs at hf with hk
    · exact hk
    · exact absurd hmem (hnew hf)

/-- A feed of the table that was joined was opened for the session, or was there before. -/
theorem feed?_join_cases (ht : t.Sound) {k : Nat} {f : Feed}
    (hf : (t.join r peer kind start session).1.feed? k = some f) :
    f = opening r peer kind start session ∨
      ∃ g, t.feed? k = some g ∧ (f = g ∨ f = g.attach session) := by
  cases hk : t.feed? k with
  | none => exact Or.inl (feed?_join_new r peer kind start session hk hf)
  | some g =>
    obtain ⟨f', hf', hg⟩ := ht.feed?_join r peer kind start session hk
    rw [hf, Option.some.injEq] at hf'
    exact Or.inr ⟨g, rfl, hf' ▸ hg⟩

theorem Sound.keys_join (ht : t.Sound) :
    ((t.join r peer kind start session).1.shared.map Prod.fst).Nodup := by
  rcases join_cases r peer kind start session with ⟨i, -, -, h⟩ | ⟨shared, h, hs⟩ <;> rw [h]
  · exact ht.keys
  · rcases hs with rfl | ⟨-, hnone, rfl⟩
    · exact ht.keys
    · rw [List.map_append, List.map_singleton]
      refine List.nodup_append.2 ⟨ht.keys, List.nodup_singleton _, ?_⟩
      rintro x hx y hy rfl
      obtain ⟨e, he, hkey⟩ := List.mem_map.1 hx
      have heq : e = (⟨peer.name, kind⟩, e.2) :=
        Prod.ext (hkey.trans (List.mem_singleton.1 hy)) rfl
      exact not_mem_of_shared?_eq_none hnone e.2 (heq ▸ he)

/-- What is shared still runs under its key after a session joined. -/
theorem Sound.runs_join (ht : t.Sound) {key : FeedKey} {k : Nat}
    (hmem : (key, k) ∈ (t.join r peer kind start session).1.shared) :
    ∃ f, (t.join r peer kind start session).1.feed? k = some f ∧ f.isRunning = true ∧
      f.shared = true ∧ key = ⟨f.peer.name, f.kind⟩ := by
  rcases join_cases r peer kind start session with ⟨i, -, hi, h⟩ | ⟨shared, h, hs⟩ <;>
    rw [h] at hmem ⊢
  · refine runs_modify ht hmem fun f hf hki => ?_
    obtain ⟨g, hg, hruns, -, -⟩ := ht.runs hmem
    rw [hki, hf, Option.some.injEq] at hg
    subst hg
    rw [Feed.launch_of_isRunning r ((f.isRunning_attach session).trans hruns)]
    refine ⟨f.isRunning_attach session, ?_, ?_, ?_⟩ <;> rw [f.same_attach]
  · have hold : ∀ {key k}, (key, k) ∈ t.shared → ∃ f,
        feed? ⟨t.feeds ++ [opening r peer kind start session], shared⟩ k = some f ∧
          f.isRunning = true ∧ f.shared = true ∧ key = ⟨f.peer.name, f.kind⟩ := by
      intro key k hmem
      obtain ⟨f, hf, hrest⟩ := ht.runs hmem
      have hk : k ≠ t.feeds.length := by
        rintro rfl
        rw [feed?_length] at hf
        cases hf
      exact ⟨f, by rw [feed?_append, if_neg hk, hf], hrest⟩
    rcases hs with rfl | ⟨hstart, -, rfl⟩
    · exact hold hmem
    · rcases List.mem_append.1 hmem with hmem | hmem
      · exact hold hmem
      · obtain ⟨rfl, rfl⟩ := Prod.mk.inj (List.mem_singleton.1 hmem)
        refine ⟨_, by rw [feed?_append, if_pos rfl], rfl, ?_, rfl⟩
        rw [hstart]
        rfl

theorem Sound.join (ht : t.Sound)
    (hnew : ∀ {k f}, t.feed? k = some f → session ∉ f.sessions) :
    (t.join r peer kind start session).1.Sound := by
  refine ⟨fun hf => ?_, fun hf => ?_, fun {k k' f f' j} hf hf' hj hj' => ?_,
    ht.keys_join r peer kind start session, ht.runs_join r peer kind start session⟩
  · rcases feed?_join_cases r peer kind start session ht hf with rfl | ⟨g, hg, rfl | rfl⟩
    · rfl
    · exact ht.begins hg
    · rw [g.same_attach]
      exact (ht.begins hg :)
  · rcases feed?_join_cases r peer kind start session ht hf with rfl | ⟨g, hg, rfl | rfl⟩
    · exact List.nodup_singleton session
    · exact ht.nodup hg
    · exact Feed.nodup_attach (ht.nodup hg) session
  · by_cases heq : j = session
    · subst heq
      rw [eq_of_mem_join r peer kind start j hnew hf hj,
        eq_of_mem_join r peer kind start j hnew hf' hj']
    · obtain ⟨g, hg, hj⟩ := (mem_sessions_join r peer kind start session hf hj).resolve_left heq
      obtain ⟨g', hg', hj'⟩ :=
        (mem_sessions_join r peer kind start session hf' hj').resolve_left heq
      exact ht.apart hg hg' hj hj'

end Join

end FeedTable

end LedgerClient
