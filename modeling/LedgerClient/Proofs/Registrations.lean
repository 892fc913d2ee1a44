import LedgerClient.Proofs.Reconnects
import LedgerClient.Proofs.Works

/-!
# One registration, one session

A block or contract listener is registered under its key alone, so what a call finds under the key
when it ends may stand for another call: if the listener is removed and added again while the first
call still waits, both calls put their sessions under the one key
(`Client.registered_once_twice_attached`). As long as a listener is registered anew only when no
call is adding it (`Client.Unhurried`), one call at a time adds it, what this call finds under the
key is its own, and there is at most one session (`Client.Lone`,
`Client.one_registration_one_session`).
-/

namespace LedgerClient

theorem Subject.key_ne_commit (s : Subject) (l : ListenerId) : s.key ≠ .commit l := by
  cases s <;> simp [key]

theorem Subject.key_injective {s s' : Subject} (h : s.key = s'.key) : s = s' := by
  cases s <;> cases s' <;> simp_all [key]

namespace Client

/-- A call that adds a key is under way. -/
def Adding (c : Client) (key : ListenerKey) (i : Nat) : Prop :=
  ∃ call, c.call? i = some call ∧ call.key? = some key

/-- No call that adds the key is under way. -/
def Idle (c : Client) (key : ListenerKey) : Prop := ∀ entry ∈ c.calls, entry.2.key? ≠ some key

instance (c : Client) (key : ListenerKey) : Decidable (c.Idle key) :=
  inferInstanceAs (Decidable (∀ entry ∈ c.calls, entry.2.key? ≠ some key))

/-- The call that registers a listener anew in a move. -/
def takes (s : Subject) (c : Client) : Move → List Nat
  | .addListener s' _ => if s' = s ∧ c.registered? s.key = none then [c.nextCall] else []
  | _ => []

/-- In a run a listener is registered anew only when no call is adding it. -/
def Unhurried (s : Subject) : Client → List Move → Prop
  | _, [] => True
  | c, m :: ms => (c.takes s m = [] ∨ c.Idle s.key) ∧ Unhurried s (c.apply m) ms

instance decidableUnhurried (s : Subject) : ∀ (c : Client) (ms : List Move),
    Decidable (Unhurried s c ms)
  | _, [] => .isTrue trivial
  | c, m :: ms =>
    have := decidableUnhurried s (c.apply m) ms
    inferInstanceAs (Decidable ((c.takes s m = [] ∨ c.Idle s.key) ∧ Unhurried s (c.apply m) ms))

/-- One call at a time adds a key, with one session. Nothing is under the key while it does, and
the registration that it finds there is that of the `owner`. -/
structure Lone (key : ListenerKey) (owner : Option Nat) (c : Client) : Prop where
  one : ∀ {i k : Nat}, c.Adding key i → c.Adding key k → i = k
  links : ∀ {i : Nat} {links : List Link} {next : AfterLink},
    c.call? i = some (.linking key links next) → links.length = 1
  stored : ∀ {as : List Attachment}, c.registered? key = some as → as.length ≤ 1
  empty : ∀ {i : Nat} {as : List Attachment}, c.Adding key i → c.registered? key = some as →
    as = [] ∧ owner = some i

variable {s : Subject} {key : ListenerKey} {owner : Option Nat} {i : Nat} {b c c' : Client}
  {m : Move}

theorem Idle.not_adding (h : c.Idle key) (i : Nat) : ¬ c.Adding key i := by
  rintro ⟨call, hcall, hkey⟩
  obtain ⟨entry, hentry, rfl⟩ := Option.map_eq_some_iff.1 hcall
  exact h entry (List.mem_of_find?_eq_some hentry) hkey

/-! ## Calls that add a listener -/

/-- Nothing is added, and what is registered stays or goes. -/
theorem Lone.other (h : Lone key owner c)
    (hcalls : ∀ k call, c'.call? k = some call → call.key? = some key → c.call? k = some call)
    (hkey : c'.registered? key = c.registered? key ∨ c'.registered? key = none) :
    Lone key owner c' := by
  have hback {k : Nat} (hk : c'.Adding key k) : c.Adding key k := by
    obtain ⟨call, hcall, hadds⟩ := hk
    exact ⟨call, hcalls k call hcall hadds, hadds⟩
  have hstored {as : List Attachment} (has : c'.registered? key = some as) :
      c.registered? key = some as := by
    rcases hkey with hkey | hkey
    · exact hkey ▸ has
    · exact absurd (hkey.symm.trans has) (by simp)
  exact ⟨fun hi hk => h.one (hback hi) (hback hk), fun hcall => h.links (hcalls _ _ hcall rfl),
    fun has => h.stored (hstored has), fun hi has => h.empty (hback hi) (hstored has)⟩

theorem lone_of_done (hnone : ∀ k, ¬ c.Adding key k)
    (hstored : ∀ as, c.registered? key = some as → as.length ≤ 1) : Lone key owner c where
  one hi := absurd hi (hnone _)
  links hcall := absurd ⟨_, hcall, rfl⟩ (hnone _)
  stored has := hstored _ has
  empty hi := absurd hi (hnone _)

/-- The owner alone adds the key, or a call that lost its registration. -/
theorem lone_of_adding (hothers : ∀ k, k ≠ i → ¬ c.Adding key k)
    (hlinks : ∀ links next, c.call? i = some (.linking key links next) → links.length = 1)
    (hkey : c.registered? key = none ∨ c.registered? key = some [] ∧ owner = some i) :
    Lone key owner c := by
  have honly {k : Nat} (hk : c.Adding key k) : k = i := by
    by_contra hne
    exact hothers k hne hk
  have hnil {as : List Attachment} (has : c.registered? key = some as) :
      as = [] ∧ owner = some i := by
    rcases hkey with hkey | ⟨hkey, howner⟩
    · rw [hkey] at has
      cases has
    · exact ⟨Option.some.inj (has.symm.trans hkey), howner⟩
  refine ⟨fun hi hk => (honly hi).trans (honly hk).symm, fun {k links next} hcall => ?_,
    fun has => ?_, fun hk has => (honly hk).symm ▸ hnil has⟩
  · obtain rfl := honly ⟨_, hcall, rfl⟩
    exact hlinks links next hcall
  · rw [(hnil has).1]
    exact Nat.zero_le _

/-- When a call goes on, it adds no listener any more. -/
theorem not_adding_proceed (next : AfterLink) : ¬ (b.proceed i next).Adding key i := by
  rintro ⟨call, hcall, hkey⟩
  cases next with
  | added | listening =>
    rw [proceed, (b.finish_cases i _).2.1] at hcall
    cases hcall
  | order r payload w =>
    rcases b.proceed_order_cases i r payload w with ⟨route, heq⟩ | ⟨e, heq⟩ <;> rw [heq] at hcall
    · obtain rfl := Option.some.inj ((b.call?_setCall_self _).symm.trans hcall)
      cases hkey
    · rw [((b.dropWait w).finish_cases i _).2.1] at hcall
      cases hcall

theorem lone_followLinks (hnot : ∀ n, key ≠ .commit (.mailbox n))
    (hothers : ∀ k, k ≠ i → ¬ b.Adding key k)
    (hkey : b.registered? key = none ∨ b.registered? key = some [] ∧ owner = some i)
    {links : List Link} (hone : links.length = 1) (next : AfterLink) :
    Lone key owner (b.followLinks i key links next) := by
  have hdeeds : Deeds i (fun _ => True) (fun _ => True) (fun _ => True) b
      (b.followLinks i key links next) := deeds_followLinks b trivial links next fun _ _ => trivial
  have hothers' : ∀ k, k ≠ i → ¬ (b.followLinks i key links next).Adding key k :=
    fun k hk ⟨call, hcall, hadds⟩ => hothers k hk ⟨call, hdeeds.call? hk ▸ hcall, hadds⟩
  have hprogress : (b.progress links).length = 1 := (List.length_map _).trans hone
  unfold followLinks at hothers' ⊢
  dsimp only at hothers' ⊢
  split_ifs at hothers' ⊢
  · let b₁ := b.complete key ((b.progress links).map (·.attachment))
    have hstored : ∀ as, b₁.registered? key = some as → as.length ≤ 1 := fun as has => by
      rw [registered?_complete] at has
      rcases hkey with hkey | ⟨hkey, -⟩
      · rw [hkey] at has
        cases has
      · rw [hkey, Option.map_some, if_pos rfl, Option.some.injEq] at has
        rw [← has, List.nil_append, List.length_map]
        exact Nat.le_of_eq hprogress
    let mailbox (key : ListenerKey) : Prop := ∃ n, key = .commit (.mailbox n)
    have hworks : Works i mailbox b₁ (b₁.proceed i next) :=
      works_proceed fun w _ wait n _ _ => ⟨n, rfl⟩
    refine lone_of_done (fun k hk => ?_) fun as has => ?_
    · by_cases hki : k = i
      · subst hki
        exact not_adding_proceed next hk
      · exact hothers' k hki hk
    · rcases hworks.registered? fun ⟨n, hn⟩ => hnot n hn with hsame | hgone
      · exact hstored as (hsame ▸ has)
      · rw [hgone] at has
        cases has
  · refine lone_of_adding hothers' (fun links' next' hcall => ?_) hkey
    have heq := (b.call?_setCall_self (.linking key (b.progress links) next)).symm.trans hcall
    simp only [Option.some.injEq, Call.linking.injEq] at heq
    exact heq.2.1 ▸ hprogress

theorem lone_unregister_finish (hothers : ∀ k, k ≠ i → ¬ b.Adding key k) (r : CallResult) :
    Lone key owner ((b.unregister key).finish i r) := by
  obtain ⟨_, _, _, heq⟩ := b.unregister_eq key
  have hgone : (b.unregister key).registered? key = none := by
    rw [heq]
    exact registered?_filter.trans (if_pos rfl)
  have hdeeds : Deeds i (fun _ => True) (fun _ => True) (fun _ => True) b
      ((b.unregister key).finish i r) := .head (.removes key) (deeds_finish _ r)
  refine lone_of_done (fun k ⟨call, hcall, hadds⟩ => ?_) fun as has => ?_
  · by_cases hki : k = i
    · subst hki
      rw [((b.unregister key).finish_cases k r).2.1] at hcall
      cases hcall
    · exact hothers k hki ⟨call, hdeeds.call? hki ▸ hcall, hadds⟩
  · have hworks : Works i (fun _ => False) (b.unregister key) ((b.unregister key).finish i r) :=
      works_finish _ r
    rcases hworks.registered? id with hsame | hnone
    · rw [hsame, hgone] at has
      cases has
    · rw [hnone] at has
      cases has

theorem lone_attachListener (hnot : ∀ n, key ≠ .commit (.mailbox n))
    (hothers : ∀ k, k ≠ i → ¬ b.Adding key k)
    (hkey : b.registered? key = none ∨ b.registered? key = some [] ∧ owner = some i)
    (o : ListenerOptions) (start : Option Nat) :
    Lone key owner (b.attachListener i key o start) := by
  rcases attachListener_cases b i key o start with ⟨r, heq⟩ | ⟨table, agenda, a, -, heq⟩ <;>
    rw [heq]
  · exact lone_unregister_finish hothers r
  · let b' : Client := { b with
      table, agenda, sessions := b.sessions ++ [.new (key.audience o) start] }
    have hothers' : ∀ k, k ≠ i → ¬ b'.Adding key k := hothers
    exact lone_followLinks hnot hothers' hkey rfl .added

/-! ## Moves and runs -/

/-- A listener is added: it is registered already, or the new call takes its key. -/
theorem Lone.addListener (h : Lone s.key owner c)
    (hm : c.registered? s.key = none → c.Idle s.key) (o : ListenerOptions) :
    Lone s.key ((c.takes s (.addListener s o)).getLast?.or owner) (c.addListener s o) := by
  have hnot : ∀ n, s.key ≠ .commit (.mailbox n) := fun n => s.key_ne_commit _
  unfold Client.addListener takes
  dsimp only
  cases hkey : c.registered? s.key with
  | some as =>
    have hkey' : c.newCall.1.registered? s.key = some as := hkey
    have hworks : Works c.nextCall (fun _ => False) c.newCall.1
        (c.newCall.1.finish c.nextCall .added) := works_finish _ _
    have hdeeds : Deeds c.nextCall (fun _ => True) (fun _ => True) (fun _ => True) c.newCall.1
        (c.newCall.1.finish c.nextCall .added) := deeds_finish _ _
    simp only [hkey', reduceCtorEq, and_false, if_false, List.getLast?_nil, Option.none_or]
    refine h.other (fun k call hcall _ => ?_) (hworks.registered? id)
    by_cases hk : k = c.nextCall
    · subst hk
      have hgone : (c.newCall.1.finish c.nextCall .added).call? c.nextCall = none :=
        (c.newCall.1.finish_cases _ _).2.1
      exact absurd (hgone.symm.trans hcall) (by simp)
    · exact hdeeds.call? hk ▸ hcall
  | none =>
    have hkey' : c.newCall.1.registered? s.key = none := hkey
    have hidle := hm hkey
    let b := c.newCall.1.reserve s.key
    have hb : b.registered? s.key = some [] := by
      rw [registered?_reserve hkey', if_pos rfl]
    have hothers : ∀ k, k ≠ c.nextCall → ¬ b.Adding s.key k := fun k _ => hidle.not_adding k
    simp only [hkey', and_self, if_true, List.getLast?_singleton, Option.some_or]
    split
    · refine lone_of_adding (i := c.nextCall) (fun k hk ⟨call, hcall, hadds⟩ => ?_)
        (fun links next hcall => ?_) (Or.inr ⟨hb, rfl⟩)
      · exact hothers k hk ⟨call, b.call?_setCall_ne hk _ ▸ hcall, hadds⟩
      · have heq := (b.call?_setCall_self (.readingCheckpoint s.key o)).symm.trans hcall
        cases heq
    · exact lone_attachListener hnot hothers (Or.inr ⟨hb, rfl⟩) o o.startBlock

theorem Lone.own (h : Lone s.key owner c) (hc : c.Tidy) (hi : i < c.nextCall)
    (hm : m.call? = some i) (hadding : c.Adding s.key i) : Lone s.key owner (c.apply m) := by
  have hnot : ∀ n, s.key ≠ .commit (.mailbox n) := fun n => s.key_ne_commit _
  have hothers : ∀ k, k ≠ i → ¬ c.Adding s.key k := fun k hk hk' => hk (h.one hk' hadding)
  have hkey : c.registered? s.key = none ∨ c.registered? s.key = some [] ∧ owner = some i := by
    cases has : c.registered? s.key with
    | none => exact Or.inl rfl
    | some as =>
      obtain ⟨rfl, howner⟩ := h.empty hadding has
      exact Or.inr ⟨rfl, howner⟩
  obtain ⟨hsame, -⟩ | ⟨rfl, -⟩ | ⟨call, b, hcall, hb, hgoes⟩ := c.call_cases hm
  · rwa [hsame]
  · have hworks : Works i (fun key => ∃ n, key = .commit (.mailbox n)) c (c.abandon i) :=
      works_abandon fun _ _ w _ wait n _ _ => ⟨n, rfl⟩
    refine h.other (fun k call' hcall' _ => ?_) (hworks.registered? fun ⟨n, hn⟩ => hnot n hn)
    by_cases hk : k = i
    · subst hk
      exact absurd ((abandon_over hi).1.gone.symm.trans hcall') (by simp)
    · exact call?_apply (m := .abandon i) hc (Ne.symm hk) ▸ hcall'
  · obtain ⟨call', hcall', hadds⟩ := hadding
    obtain rfl := Option.some.inj (hcall.symm.trans hcall')
    rw [hb]
    cases hgoes with
    | attaches key o position =>
      obtain rfl := Option.some.inj hadds
      exact lone_attachListener hnot hothers hkey o _
    | unread key o e =>
      obtain rfl := Option.some.inj hadds
      exact lone_unregister_finish hothers _
    | follows key links next =>
      obtain rfl := Option.some.inj hadds
      exact lone_followLinks hnot hothers hkey (h.links hcall) next
    | _ => cases hadds

theorem key_not_mem_adds (hm : ∀ o, m ≠ .addListener s o) : s.key ∉ c.adds m := by
  intro hadds
  cases m with
  | addListener s' o =>
    obtain rfl := Subject.key_injective (List.mem_singleton.1 hadds)
    exact hm o rfl
  | addCommitListener | listen | endorsed =>
    exact s.key_ne_commit _ (List.mem_singleton.1 hadds)
  | _ => exact List.not_mem_nil hadds

/-- A move that neither adds the listener nor is one of a call that does. -/
theorem Lone.apply_other (h : Lone s.key owner c) (hc : c.Sane) (hm : ∀ o, m ≠ .addListener s o)
    (hactor : ¬ c.Adding s.key (c.actor m)) : Lone s.key owner (c.apply m) := by
  have hadds : s.key ∉ c.adds m := key_not_mem_adds hm
  refine h.other (fun k call hcall hkey => ?_) ?_
  · by_cases hk : c.actor m = k
    · subst hk
      exact absurd (call_key_back hc.tidy hadds ⟨call, hcall, hkey⟩) hactor
    · exact call?_apply hc.tidy hk ▸ hcall
  · rcases steady_or_works (m := m) hc.tidy hc.named (hc.settled.ready _) with
      hsteady | rfl | hworks
    · exact Or.inl (registered?_of_registrations hsteady.quiet.registrations)
    · obtain ⟨_, _, _, heq⟩ := c.close_eq
      exact Or.inr (by rw [apply, heq]; rfl)
    · by_cases hremove : m = .remove s.key
      · subst hremove
        obtain ⟨_, _, _, heq⟩ := c.unregister_eq s.key
        refine Or.inr ?_
        rw [apply, heq]
        exact registered?_filter.trans (if_pos rfl)
      · refine hworks.registered? ?_
        rintro ((hmem | hcall) | heq | ⟨w, wait, n, -, -, -, hkey⟩)
        · exact hadds hmem
        · exact hactor hcall
        · exact hremove heq
        · exact s.key_ne_commit _ hkey

theorem Lone.apply (h : Lone s.key owner c) (hc : c.Sane)
    (hm : c.takes s m = [] ∨ c.Idle s.key) :
    Lone s.key ((c.takes s m).getLast?.or owner) (c.apply m) := by
  by_cases hadd : ∃ o, m = .addListener s o
  · obtain ⟨o, rfl⟩ := hadd
    refine h.addListener (fun hkey => hm.resolve_left ?_) o
    simp [takes, hkey]
  · have hnone : c.takes s m = [] := by
      cases m with
      | addListener s' o =>
        refine if_neg fun heq => hadd ⟨o, ?_⟩
        rw [heq.1]
      | _ => rfl
    rw [hnone, List.getLast?_nil, Option.none_or]
    by_cases hactor : c.Adding s.key (c.actor m)
    · have hi : c.actor m < c.nextCall := by
        obtain ⟨call, hcall, -⟩ := hactor
        exact hc.named _ _ hcall
      exact h.own hc.tidy hi (call?_of_actor rfl hi) hactor
    · exact h.apply_other hc (fun o heq => hadd ⟨o, heq⟩) hactor

theorem Lone.run {ms : List Move} (h : Lone s.key owner c) (hc : c.Sane) (hms : Unhurried s c ms) :
    Lone s.key ((gather (takes s) c ms).getLast?.or owner) (c.run ms) := by
  induction ms generalizing c owner with
  | nil => exact h
  | cons m ms ih =>
    rw [gather, List.getLast?_append, Option.or_assoc]
    exact ih (h.apply hc hms.1) (hc.apply m) hms.2

/-! ## Sessions of a listener -/

theorem eq_of_length_le_one {α : Type} {xs : List α} (h : xs.length ≤ 1) {x y : α} (hx : x ∈ xs)
    (hy : y ∈ xs) : x = y := by
  rcases xs with _ | ⟨z, _ | ⟨_, _⟩⟩
  · cases hx
  · rw [List.mem_singleton.1 hx, List.mem_singleton.1 hy]
  · simp at h

/-- There is one session of the listener, under its key or pending, but for those that were left
behind. -/
theorem Lone.open_unique (h : Lone key owner c) {left : Nat → Prop}
    (hc : c.Accounted (fun _ => False) left) {j j' : Nat} (hj : c.Open key j)
    (hj' : c.Open key j') (hleft : ¬ left j) (hleft' : ¬ left j') : j = j' := by
  have hheld {j : Nat} (hj : c.Open key j) (hleft : ¬ left j) :
      c.Under key j ∨ ∃ i, c.Pending i key j := by
    obtain ⟨s, hs, hopen, rfl⟩ := hj
    rcases hc.held hs with hr | hunder | ⟨i, -, hpending⟩ | hfree
    · exact absurd (hopen.symm.trans hr) (by simp)
    · exact Or.inl hunder
    · exact Or.inr ⟨i, hpending⟩
    · exact absurd hfree hleft
  -- while a call has a session pending, nothing is under the key
  have hapart {i j j' : Nat} (hpending : c.Pending i key j) (hunder : c.Under key j') : False := by
    obtain ⟨links, next, hcall, -⟩ := hpending
    obtain ⟨as, has, a, ha, -⟩ := hunder
    rw [(h.empty ⟨_, hcall, rfl⟩ has).1] at ha
    cases ha
  rcases hheld hj hleft with hunder | ⟨i, hpending⟩ <;>
    rcases hheld hj' hleft' with hunder' | ⟨i', hpending'⟩
  · obtain ⟨as, has, a, ha, rfl⟩ := hunder
    obtain ⟨as', has', a', ha', rfl⟩ := hunder'
    obtain rfl := Option.some.inj (has.symm.trans has')
    rw [eq_of_length_le_one (h.stored has) ha ha']
  · exact (hapart hpending' hunder).elim
  · exact (hapart hpending hunder').elim
  · obtain ⟨links, next, hcall, l, hl, rfl⟩ := hpending
    obtain ⟨links', next', hcall', l', hl', rfl⟩ := hpending'
    obtain rfl : i = i' := h.one ⟨_, hcall, rfl⟩ ⟨_, hcall', rfl⟩
    obtain ⟨-, rfl, -⟩ : key = key ∧ links = links' ∧ next = next' := by
      simpa using hcall.symm.trans hcall'
    rw [eq_of_length_le_one (Nat.le_of_eq (h.links hcall)) hl hl']

/-- A block is handed to sessions that take deliveries, to each once. -/
theorem received_blockArrived (hc : c.Tidy) {k j : Nat} {d : Block}
    (h : c.received j (.blockArrived k d) ≠ []) :
    (∃ s, c.sessions[j]? = some s ∧ s.removed = false) ∧
      (c.received j (.blockArrived k d)).length = 1 := by
  rcases feed_move_cases (c := c) (m := .blockArrived k d) rfl with ⟨-, heq⟩ | ⟨f, -, hf⟩
  · exact absurd (received_eq_nil (by rw [heq])) h
  have hsession := hf.session (hc.sound.nodup hf.feed) j
  split_ifs at hsession with hj
  · cases hs : c.sessions[j]? with
    | none =>
      rw [hs] at hsession
      exact absurd (received_eq_nil (hsession.trans hs.symm)) h
    | some s =>
      rw [hs, Option.map_some] at hsession
      cases hr : s.removed with
      | true =>
        rw [Session.foldl_deliver_of_removed hr] at hsession
        exact absurd (received_eq_nil (hsession.trans hs.symm)) h
      | false =>
        refine ⟨⟨s, rfl, hr⟩, ?_⟩
        rw [received_eq hs hsession, (Session.foldl_deliver _ hr).1, List.drop_left]
        rfl
  · exact absurd (received_eq_nil hsession) h

/-- As long as a block or contract listener is registered anew only when no call is adding it, there
is at most one session of it that takes deliveries, but for those that given up calls left behind;
so a block that arrives is handed to the listener at most once. And whatever a call that adds the
listener does to what is registered under its key, also in ending, it does to a registration of its
own: no later call has registered the listener. -/
theorem one_registration_one_session (channel : Channel) (identity : Identity) (options : Options)
    (s : Subject) (ms : List Move) (unhurried : Unhurried s (new channel identity options) ms) :
    let c₀ := new channel identity options
    let c := c₀.run ms
    (∀ j j', c.Open s.key j → c.Open s.key j' → j ∉ gather leaves c₀ ms →
      j' ∉ gather leaves c₀ ms → j = j') ∧
    (∀ k d j j', (c.sessions[j]?).map (·.audience.key) = some s.key →
      (c.sessions[j']?).map (·.audience.key) = some s.key →
      j ∉ gather leaves c₀ ms → j' ∉ gather leaves c₀ ms →
      c.received j (.blockArrived k d) ≠ [] → c.received j' (.blockArrived k d) ≠ [] →
      j = j' ∧ (c.received j (.blockArrived k d)).length = 1) ∧
    ∀ m, c.Adding s.key (c.actor m) → (c.apply m).registered? s.key ≠ c.registered? s.key →
      (gather (takes s) c₀ ms).getLast? = some (c.actor m) := by
  intro c₀ c
  have hsane₀ : c₀.Sane := sane_run channel identity options []
  have hsane : c.Sane := hsane₀.run ms
  have haccounted := accounted_run channel identity options ms
  have hstart : Lone s.key none c₀ :=
    lone_of_done (fun _ ⟨_, hcall, _⟩ => by cases hcall) fun _ has => by cases has
  have hlone : Lone s.key ((gather (takes s) c₀ ms).getLast?.or none) c :=
    hstart.run hsane₀ unhurried
  rw [Option.or_none] at hlone
  have hunique : ∀ j j', c.Open s.key j → c.Open s.key j' → j ∉ gather leaves c₀ ms →
      j' ∉ gather leaves c₀ ms → j = j' := fun _ _ => hlone.open_unique haccounted
  refine ⟨hunique, fun k d j j' hkey hkey' hleft hleft' hj hj' => ?_, fun m hadding hchanged => ?_⟩
  · have hopen {j : Nat} (hkey : (c.sessions[j]?).map (·.audience.key) = some s.key)
        (hj : c.received j (.blockArrived k d) ≠ []) : c.Open s.key j := by
      obtain ⟨⟨t, ht, hr⟩, -⟩ := received_blockArrived hsane.tidy hj
      rw [ht, Option.map_some, Option.some.injEq] at hkey
      exact ⟨t, ht, hr, hkey⟩
    exact ⟨hunique j j' (hopen hkey hj) (hopen hkey' hj') hleft hleft',
      (received_blockArrived hsane.tidy hj).2⟩
  · cases has : c.registered? s.key with
    | some as => exact (hlone.empty hadding has).2
    | none =>
      have hi : c.actor m < c.nextCall := by
        obtain ⟨call, hcall, -⟩ := hadding
        exact hsane.named _ _ hcall
      have hm := call?_of_actor rfl hi
      have hadds : s.key ∉ c.adds m := by
        intro hadds
        cases m with
        | endorsed => exact s.key_ne_commit _ (List.mem_singleton.1 hadds)
        | addListener | addCommitListener | listen => cases hm
        | _ => exact List.not_mem_nil hadds
      exact absurd ((registered?_apply hsane.tidy has hadds).trans has.symm) hchanged

/-- A block listener is added and removed and, when that call has returned, added again. -/
def addedAgain : List Move :=
  [.addListener (.blocks (.app "l")) {}, .requestStream 0, .streamOpened 0, .resume 0 128,
    .remove (.blocks (.app "l")), .addListener (.blocks (.app "l")) {}, .requestStream 1,
    .streamOpened 1, .resume 1 128]

/-- The second session is the one that takes deliveries. -/
theorem only_second_session_open :
    let s : Subject := .blocks (.app "l")
    let c := lone.run addedAgain
    Unhurried s lone addedAgain ∧ c.Open s.key 1 ∧ ∀ j, c.Open s.key j → j = 1 := by
  intro s c
  have hunhurried : Unhurried s lone addedAgain := by decide +kernel
  have hsession : (c.sessions[1]?).map (fun t => (t.removed, t.audience.key)) =
      some (false, s.key) := by decide +kernel
  have hleft : gather leaves lone addedAgain = [] := by decide +kernel
  have hopen : c.Open s.key 1 := by
    obtain ⟨t, ht, heq⟩ := Option.map_eq_some_iff.1 hsession
    exact ⟨t, ht, congrArg Prod.fst heq, congrArg Prod.snd heq⟩
  have hnot (j : Nat) : j ∉ gather leaves lone addedAgain := by
    rw [hleft]
    exact List.not_mem_nil
  exact ⟨hunhurried, hopen, fun j hj => (one_registration_one_session onePeer ⟨"org", []⟩ .default s
    addedAgain hunhurried).1 j 1 hj hopen (hnot j) (hnot 1)⟩

/-- A block listener is removed and added again while its first call still waits. -/
def addedWhileAdding (o : ListenerOptions) : List Move :=
  [.addListener (.blocks (.app "l")) o, .remove (.blocks (.app "l")),
    .addListener (.blocks (.app "l")) o]

/-- Both calls return, both sessions are attached, and a block is handed to the listener twice. The
first call extends the registration of the second; if it cannot read its checkpoint, it removes
it. -/
theorem registered_once_twice_attached :
    let s : Subject := .blocks (.app "l")
    (let c := lone.run (addedWhileAdding {} ++ [.requestStream 0, .streamOpened 0])
      let c' := c.run [.resume 0 128, .resume 1 128]
      gather (takes s) lone (addedWhileAdding {}) = [0, 1] ∧
        (c.apply (.resume 0 128)).registered? s.key = some [⟨0, 0⟩] ∧ c'.calls.map (·.1) = [] ∧
        c'.registered? s.key = some [⟨0, 0⟩, ⟨0, 1⟩] ∧
        (c'.sessions.map fun t => (t.audience.key, t.removed)) = [(s.key, false), (s.key, false)] ∧
        (c'.received 0 (.blockArrived 0 blockOfTx)).length = 1 ∧
        (c'.received 1 (.blockArrived 0 blockOfTx)).length = 1) ∧
    (let checkpointed : ListenerOptions := { checkpointer := some "checkpoint" }
      let c := lone.run (addedWhileAdding checkpointed)
      gather (takes s) lone (addedWhileAdding checkpointed) = [0, 1] ∧
        c.registered? s.key = some [] ∧
        (c.apply (.checkpointRead 0 (.error (.storage "")))).registered? s.key = none) := by
  decide +kernel

end Client

end LedgerClient
