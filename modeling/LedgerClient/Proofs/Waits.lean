import LedgerClient.Proofs.Removal

/-!
# Waits in the hands of one call

A wait is touched by the call that has it, by the application if it made the wait, and by sessions,
which put outcomes into its mailbox. So as long as the application names no other waits
(`Client.Proper`), the wait that a submitted transaction makes is its own (`Client.Own`): other
moves leave it as it is, but for what sessions tell its mailbox (`Client.Own.wait`). A wait that
nobody has changes in nothing else over a whole run (`Client.run_of_unowned`).
-/

namespace LedgerClient

/-- Whether a listener is one of the application. -/
def ListenerId.isApp : ListenerId → Bool
  | .app _ => true
  | .mailbox _ => false

/-- The listener that the application adds for a commit in a move. -/
def Move.commitListener? : Move → Option ListenerId
  | .addCommitListener l _ _ => some l
  | _ => none

/-- The application names only waits that are `mine`, and no mailbox as a listener. -/
def Move.Proper (mine : List Nat) (m : Move) : Prop :=
  (∀ w ∈ m.wait?, w ∈ mine) ∧ ∀ l ∈ m.commitListener?, l.isApp = true

instance (mine : List Nat) (m : Move) : Decidable (m.Proper mine) :=
  inferInstanceAs (Decidable (_ ∧ _))

/-- A wait with outcomes added to its mailbox, which depend on the number of the mailbox. -/
def Wait.told (wait : Wait) (more : Nat → List CommitOutcome) : Wait :=
  { wait with mailbox := wait.mailbox.map fun b => (b.1, b.2 ++ more b.1) }

theorem Wait.told_of_nil {wait : Wait} {more : Nat → List CommitOutcome}
    (h : ∀ b ∈ wait.mailbox, more b.1 = []) : wait.told more = wait := by
  obtain ⟨id, quorum, limit, deadline, listener, _ | b, held⟩ := wait
  · rfl
  · simp [told, h b rfl]

namespace Client

variable {c c' : Client} {m : Move}

/-- The wait that the application makes in a move. -/
def made (c : Client) : Move → List Nat
  | .newWait .. => [c.waits.length]
  | _ => []

/-- In every move of a run the application names only waits that are `mine` or that it has made in
the run, and no mailbox as a listener. -/
def Proper (mine : List Nat) (c : Client) : List Move → Prop
  | [] => True
  | m :: ms => m.Proper mine ∧ Proper (mine ++ c.made m) (c.apply m) ms

instance decidableProper : ∀ (mine : List Nat) (c : Client) (ms : List Move),
    Decidable (Proper mine c ms)
  | _, _, [] => .isTrue trivial
  | mine, c, m :: ms =>
    have := decidableProper (mine ++ c.made m) (c.apply m) ms
    inferInstanceAs (Decidable (m.Proper mine ∧ Proper (mine ++ c.made m) (c.apply m) ms))

theorem proper_append {mine : List Nat} {ms ms' : List Move} (h : Proper mine c (ms ++ ms')) :
    Proper mine c ms ∧ Proper (mine ++ gather made c ms) (c.run ms) ms' := by
  induction ms generalizing c mine with
  | nil => exact ⟨trivial, by rwa [gather, List.append_nil]⟩
  | cons m ms ih =>
    obtain ⟨hm, h⟩ := h
    obtain ⟨hms, hms'⟩ := ih h
    refine ⟨⟨hm, hms⟩, ?_⟩
    rwa [gather, ← List.append_assoc]

theorem Proper.append {mine : List Nat} {ms ms' : List Move} (h : Proper mine c ms)
    (h' : Proper (mine ++ gather made c ms) (c.run ms) ms') : Proper mine c (ms ++ ms') := by
  induction ms generalizing c mine with
  | nil => rwa [gather, List.append_nil] at h'
  | cons m ms ih =>
    rw [gather, ← List.append_assoc] at h'
    exact ⟨h.1, ih h.2 h'⟩

/-! ## What mailboxes are told -/

/-- What a session begins to tell the mailbox with a number in a move. -/
def posts (n : Nat) (c : Client) (m : Move) : List CommitOutcome :=
  match m.session?.bind (c.sessions[·]?) with
  | none => []
  | some s =>
    if s.fits m then
      match (s.after m).question? with
      | some (.tell (.mailbox k) (.commit o)) => if k = n then [o] else []
      | _ => []
    else []

theorem posts_of_no_session (n : Nat) (h : m.session? = none) : c.posts n m = [] := by
  unfold posts
  rw [h]
  rfl

/-- In a move of a feed or a session, mailboxes take what they are told, and nothing else happens to
the waits. -/
structure Told (c c' : Client) (m : Move) : Prop where
  setup : c'.setup = c.setup
  clock : c'.clock = c.clock
  nextMailbox : c'.nextMailbox = c.nextMailbox
  length : c'.waits.length = c.waits.length
  wait : ∀ w : Nat, c'.waits[w]? = (c.waits[w]?).map fun wait => wait.told (c.posts · m)

theorem told_of_eq (hposts : ∀ n, c.posts n m = []) (hsetup : c'.setup = c.setup)
    (hclock : c'.clock = c.clock) (hnext : c'.nextMailbox = c.nextMailbox)
    (hwaits : c'.waits = c.waits) : Told c c' m := by
  refine ⟨hsetup, hclock, hnext, by rw [hwaits], fun w => ?_⟩
  rw [hwaits]
  cases c.waits[w]? with
  | none => rfl
  | some wait => rw [Option.map_some, Wait.told_of_nil fun b _ => hposts b.1]

theorem feed_move_eq {k : Nat} (hm : m.feed? = some k) : ∃ table sessions agenda outbox,
    c.apply m = { c with table, sessions, agenda, outbox } := by
  have hrest (b : Client) (f : Feed) (failed : Bool) : ∃ table outbox,
      b.restFeed k f failed = { b with table, outbox } := ⟨_, _, rfl⟩
  have hsame : ∃ table sessions agenda outbox, c = { c with table, sessions, agenda, outbox } :=
    ⟨c.table, c.sessions, c.agenda, c.outbox, rfl⟩
  cases m <;> simp only [Move.feed?, reduceCtorEq, Option.some.injEq] at hm <;> subst hm
  case requestStream k =>
    simp only [apply, requestStream]
    split
    · exact hsame
    · split
      · exact ⟨_, _, _, _, rfl⟩
      · exact ⟨_, _, _, _, rfl⟩
      · exact hsame
  case streamOpened k =>
    simp only [apply, streamOpened]
    split
    · exact hsame
    · split_ifs
      · obtain ⟨agenda, h⟩ := announce_eq { c with table := c.table.modify k Feed.opened } k
        exact ⟨_, _, agenda, _, h⟩
      · exact hsame
  case streamRefused k e =>
    simp only [apply, streamRefused]
    split
    · exact hsame
    · next f _ =>
      split_ifs
      · obtain ⟨table, outbox, h⟩ := hrest c f true
        obtain ⟨agenda, h'⟩ := announce_eq (c.restFeed k f true) k
        obtain ⟨sessions, agenda', h'', -⟩ :=
          ((c.restFeed k f true).announce k).deliverAll_eq (.fault ⟨f.peer.name, e.message⟩) f
        exact ⟨table, sessions, agenda', outbox, by rw [h'', h', h]⟩
      · exact hsame
  case blockArrived k b =>
    simp only [apply, blockArrived]
    split
    · exact hsame
    · next f _ =>
      split_ifs
      · obtain ⟨sessions, agenda, h, -⟩ := deliverAll_eq
          { c with table := c.table.modify k (Feed.advance c.options.reconnect b.number) }
          (.block f.peer.name b) f
        exact ⟨_, sessions, agenda, _, h⟩
      · exact hsame
  case streamBroke k e =>
    simp only [apply, streamBroke]
    split
    · exact hsame
    · next f _ =>
      split_ifs
      · obtain ⟨table, outbox, h⟩ := hrest c f false
        obtain ⟨sessions, agenda, h', -⟩ :=
          (c.restFeed k f false).deliverAll_eq (.fault ⟨f.peer.name, e.message⟩) f
        exact ⟨table, sessions, agenda, outbox, by rw [h', h]⟩
      · exact hsame
  case streamEnded k =>
    simp only [apply, streamEnded]
    split
    · exact hsame
    · next f _ =>
      split_ifs
      · obtain ⟨table, outbox, h⟩ := hrest c f false
        exact ⟨table, c.sessions, c.agenda, outbox, h⟩
      · exact hsame

theorem told_feed {k : Nat} (hm : m.feed? = some k) : Told c (c.apply m) m := by
  obtain ⟨table, sessions, agenda, outbox, heq⟩ := feed_move_eq (c := c) hm
  have hsession : m.session? = none := by
    cases m <;> simp only [Move.feed?, reduceCtorEq] at hm <;> rfl
  rw [heq]
  exact told_of_eq (fun n => posts_of_no_session n hsession) rfl rfl rfl rfl

/-- An outcome for a mailbox is put into it, if some wait has it. -/
theorem waits_post (hc : c.MailboxesApart) (n : Nat) (o : CommitOutcome) :
    (c.post n o).waits.length = c.waits.length ∧ ∀ w : Nat, (c.post n o).waits[w]? =
      (c.waits[w]?).map fun wait => wait.told fun k => if n = k then [o] else [] := by
  have hother {wait : Wait} (hany : (wait.mailbox.any fun b => decide (b.1 = n)) = false) :
      (wait.told fun k => if n = k then [o] else []) = wait := by
    refine Wait.told_of_nil fun b hb => if_neg fun hn => ?_
    rw [Option.any_eq_false] at hany
    exact of_decide_eq_false (hany b hb) hn.symm
  unfold post
  split
  · next hnone =>
    rw [List.findIdx?_eq_none_iff] at hnone
    refine ⟨rfl, fun w => ?_⟩
    cases hw : c.waits[w]? with
    | none => rfl
    | some wait => rw [Option.map_some, hother (hnone wait (List.mem_of_getElem? hw))]
  · next v hsome =>
    obtain ⟨agenda, h⟩ := foldl_wake_eq (fun entry : Nat × Call => .call entry.1) _ _
    rw [h]
    refine ⟨List.length_modify .., fun w => ?_⟩
    obtain ⟨hlt, hv, -⟩ := List.findIdx?_eq_some_iff_getElem.1 hsome
    have hnum : c.mailboxOf? v = some n := by
      rw [Option.any_eq_true] at hv
      obtain ⟨b, hb, hn⟩ := hv
      rw [mailboxOf?, List.getElem?_eq_getElem hlt, Option.bind_some, hb, Option.map_some,
        of_decide_eq_true hn]
    change (c.waits.modify v _)[w]? = _
    rw [List.getElem?_modify]
    cases hw : c.waits[w]? with
    | none => simp
    | some wait =>
      simp only [Option.map_eq_map, Option.map_some, Option.some.injEq]
      split_ifs with hvw
      · subst hvw
        unfold Wait.told
        rw [mailboxOf?, hw, Option.bind_some, Option.map_eq_some_iff] at hnum
        obtain ⟨b, hb, rfl⟩ := hnum
        simp [hb]
      · refine (hother ?_).symm
        rw [Option.any_eq_false]
        intro b hb
        refine decide_eq_false fun hn => hvw (hc.apart hnum ?_)
        rw [mailboxOf?, hw, Option.bind_some, hb, Option.map_some, hn]

/-- A move of a session does not fit and changes nothing, or it is a step of the session. -/
theorem session_move_eq {j : Nat} (hm : m.session? = some j) :
    (c.apply m = c ∧ ∀ n, c.posts n m = []) ∨
      ∃ s, c.sessions[j]? = some s ∧ s.fits m = true ∧
        c.apply m = (c.modifySession j (·.after m)).serve j := by
  have hposts : (∀ s, c.sessions[j]? = some s → s.fits m = false) → ∀ n, c.posts n m = [] := by
    intro h n
    unfold posts
    rw [hm, Option.bind_some]
    split
    · rfl
    · next s hs => simp [h s hs]
  cases hs : c.sessions[j]? with
  | none =>
    refine Or.inl ⟨?_, hposts fun s h => by rw [hs] at h; cases h⟩
    cases m <;> simp only [Move.session?, reduceCtorEq, Option.some.injEq] at hm <;> subst hm <;>
      simp only [apply, takeNext, answer, hs]
  | some s =>
    cases hfits : s.fits m with
    | false =>
      refine Or.inl ⟨?_, hposts fun s' h => Option.some.inj (hs.symm.trans h) ▸ hfits⟩
      cases m <;> simp only [Move.session?, reduceCtorEq, Option.some.injEq] at hm <;> subst hm <;>
        simp only [Session.fits] at hfits <;> simp [apply, takeNext, answer, hs, hfits]
    | true =>
      refine Or.inr ⟨s, rfl, hfits, ?_⟩
      cases m <;> simp only [Move.session?, reduceCtorEq, Option.some.injEq] at hm <;> subst hm <;>
        simp only [Session.fits] at hfits <;>
        simp only [apply, takeNext, answer, hs, hfits, if_true] <;> rfl

theorem told_session (hc : c.MailboxesApart) {j : Nat} (hm : m.session? = some j) :
    Told c (c.apply m) m := by
  rcases session_move_eq (c := c) hm with ⟨heq, hposts⟩ | ⟨s, hs, hfits, heq⟩
  · rw [heq]
    exact told_of_eq hposts rfl rfl rfl rfl
  · let b := c.modifySession j (·.after m)
    have hb : (b.sessions[j]?).bind Session.question? = (s.after m).question? := by
      change ((c.sessions.modify j _)[j]?).bind _ = _
      rw [List.getElem?_modify_eq, hs]
      rfl
    have hposts (n : Nat) : c.posts n m = match (s.after m).question? with
        | some (.tell (.mailbox k) (.commit o)) => if k = n then [o] else []
        | _ => [] := by
      unfold posts
      rw [hm, Option.bind_some, hs]
      exact if_pos hfits
    rw [heq]
    change Told c (b.serve j) m
    unfold serve
    rw [hb]
    split
    · next hq => exact told_of_eq (fun n => by rw [hposts, hq]) rfl rfl rfl rfl
    · next k o hq =>
      have hmailboxes : b.MailboxesApart := ⟨fun h => hc.given h, fun h h' => hc.apart h h'⟩
      obtain ⟨hlength, hwait⟩ := waits_post hmailboxes k o
      obtain ⟨waits, agenda, hpost⟩ := post_eq b k o
      refine ⟨by rw [hpost]; rfl, by rw [hpost]; rfl, by rw [hpost]; rfl, hlength, fun w => ?_⟩
      simp only [hposts, hq]
      exact hwait w
    · next q hnot hq =>
      refine told_of_eq (fun n => ?_) rfl rfl rfl rfl
      rw [hposts, hq]
      split
      · next heq => exact (hnot _ _ (Option.some.inj heq)).elim
      · rfl

/-! ## Waits that are known -/

/-- Every wait of a call is there, mailboxes are apart, and a mailbox is registered only after its
number was given. -/
structure WaitsKnown (c : Client) : Prop where
  known : ∀ {k : Nat} {call : Call} {w : Nat}, c.call? k = some call → call.wait? = some w →
    w < c.waits.length
  mailboxes : c.MailboxesApart
  keys : ∀ {n : Nat}, c.registered? (.commit (.mailbox n)) ≠ none → n < c.nextMailbox

section Deeds

variable {i : Nat} {new keys : ListenerKey → Prop} {waits : Nat → Prop}

theorem Deed.waitsKnown (h : Deed i new keys waits c c')
    (hnew : ∀ n, new (.commit (.mailbox n)) → n < c.nextMailbox)
    (hwaits : ∀ w, waits w → w < c.waits.length) (hc : c.WaitsKnown) : c'.WaitsKnown := by
  refine ⟨fun {k call w} hcall hw => ?_, h.mailboxesApart hc.mailboxes, fun {n} hn => ?_⟩
  · refine Nat.lt_of_lt_of_le ?_ h.waits_length
    by_cases hk : k = i
    · subst hk
      rcases h.call_back hcall with hcall | ⟨-, hmay⟩
      · exact hc.known hcall hw
      · exact hwaits w (hmay w hw)
    · exact hc.known (h.call? hk ▸ hcall) hw
  · exact Nat.lt_of_lt_of_le ((h.registered? hn).elim hc.keys (hnew n)) h.nextMailbox

theorem Deeds.waits_le (h : Deeds i new keys waits c c') :
    c.waits.length ≤ c'.waits.length ∧ c.nextMailbox ≤ c'.nextMailbox := by
  induction h with
  | refl => exact ⟨Nat.le_refl _, Nat.le_refl _⟩
  | tail _ h ih => exact ⟨Nat.le_trans ih.1 h.waits_length, Nat.le_trans ih.2 h.nextMailbox⟩

theorem Deeds.waitsKnown (h : Deeds i new keys waits c c')
    (hnew : ∀ n, new (.commit (.mailbox n)) → n < c.nextMailbox)
    (hwaits : ∀ w, waits w → w < c.waits.length) (hc : c.WaitsKnown) : c'.WaitsKnown := by
  induction h with
  | refl => exact hc
  | tail hdeeds h ih =>
    obtain ⟨hlength, hnext⟩ := Deeds.waits_le hdeeds
    exact h.waitsKnown (fun n hn => Nat.lt_of_lt_of_le (hnew n hn) hnext)
      (fun w hw => Nat.lt_of_lt_of_le (hwaits w hw) hlength) ih

theorem Deeds.wait (h : Deeds i new keys waits c c') {w : Nat} (hw : ¬ waits w)
    (hlt : w < c.waits.length) : c'.waits[w]? = c.waits[w]? := by
  induction h with
  | refl => rfl
  | tail hdeeds h ih =>
    exact (h.wait hw (Nat.lt_of_lt_of_le hlt (Deeds.waits_le hdeeds).1)).trans ih

theorem Deeds.setup_clock (h : Deeds i new keys waits c c') :
    c'.setup = c.setup ∧ c.clock ≤ c'.clock := by
  induction h with
  | refl => exact ⟨rfl, Nat.le_refl _⟩
  | tail _ h ih => exact ⟨h.setup_clock.1.trans ih.1, Nat.le_trans ih.2 h.setup_clock.2⟩

end Deeds

theorem WaitsKnown.openMailbox (hc : c.WaitsKnown) {i w : Nat} (hw : w < c.waits.length)
    {next : AfterLink} (hnext : ∀ v ∈ next.wait?, v < c.waits.length) :
    (c.openMailbox i w next).WaitsKnown := by
  let mine (v : Nat) : Prop := v = w ∨ next.wait? = some v
  let noKey (_ : ListenerKey) : Prop := False
  have hmine : ∀ v, mine v → v < c.waits.length := fun v hv =>
    hv.elim (fun h => h ▸ hw) (hnext v)
  unfold Client.openMailbox
  split
  · exact hc
  · next wait _ =>
    split
    · have hdeeds : Deeds i noKey noKey mine c (c.proceed i next) :=
        deeds_proceed c next fun v hv => Or.inr hv
      exact Deeds.waitsKnown hdeeds (fun _ => False.elim) hmine hc
    · split_ifs
      · have hgiven : Deed i noKey noKey mine c
            (c.modifyWait w fun wait => { wait with quorum := none }) :=
          .modifies w (Or.inl rfl) _ fun _ => ⟨rfl, rfl, fun m hm => ⟨m, hm, rfl⟩⟩
        exact Deeds.waitsKnown (.head hgiven (deeds_proceed _ next fun v hv => Or.inr hv))
          (fun _ => False.elim) hmine hc
      · dsimp only
        let f (old : Wait) : Wait :=
          { old with
            deadline := some (c.clock + wait.limit.ceilMillis), listener := some c.nextMailbox
            mailbox := some (c.nextMailbox, []) }
        let b : Client := { c with nextMailbox := c.nextMailbox + 1 }.modifyWait w f
        have hopens : Deed i noKey noKey mine c b :=
          .opens w (Or.inl rfl) f fun _ => ⟨rfl, rfl, rfl⟩
        let given (key : ListenerKey) : Prop := key = .commit (.mailbox c.nextMailbox)
        have hgiven : given (.commit (.mailbox c.nextMailbox)) := rfl
        have hlinks (peers : List Peer) : Deeds i given given mine b
            (b.linkCommit i (.mailbox c.nextMailbox) peers wait.id.text next) :=
          deeds_linkCommit b hgiven hgiven peers _ next fun v hv => Or.inr hv
        refine Deeds.waitsKnown (hlinks _) (fun n hn => ?_) (fun v hv => ?_)
          (hopens.waitsKnown (fun _ => False.elim) hmine hc)
        · simp only [given, ListenerKey.commit.injEq, ListenerId.mailbox.injEq] at hn
          exact hn ▸ Nat.lt_succ_self _
        · exact Nat.lt_of_lt_of_le (hmine v hv) hopens.waits_length

/-- A client in order, with waits known of calls and of the application. -/
structure Orderly (mine : List Nat) (c : Client) : Prop where
  tidy : c.Tidy
  named : c.Named
  waits : c.WaitsKnown
  mine : ∀ w ∈ mine, w < c.waits.length

theorem orderly_new (channel : Channel) (identity : Identity) (options : Options) :
    (new channel identity options).Orderly [] where
  tidy := tidy_new channel identity options
  named := named_run channel identity options []
  waits := {
    known := fun hcall => by cases hcall
    mailboxes := {
      given := fun hw => by simp [mailboxOf?, new] at hw
      apart := fun hw => by simp [mailboxOf?, new] at hw }
    keys := fun hn => absurd rfl hn }
  mine := by simp

theorem waits_length_apply (hmailboxes : c.MailboxesApart) (m : Move) :
    c.waits.length ≤ (c.apply m).waits.length := by
  cases hfeed : m.feed? with
  | some k => exact Nat.le_of_eq (told_feed hfeed).length.symm
  | none =>
    cases hsession : m.session? with
    | some k => exact Nat.le_of_eq (told_session hmailboxes hsession).length.symm
    | none => exact (Deeds.waits_le (deeds_apply c hfeed hsession)).1

theorem setup_clock_apply (hmailboxes : c.MailboxesApart) (m : Move) :
    (c.apply m).setup = c.setup ∧ c.clock ≤ (c.apply m).clock := by
  have htold (h : Told c (c.apply m) m) :
      (c.apply m).setup = c.setup ∧ c.clock ≤ (c.apply m).clock :=
    ⟨h.setup, Nat.le_of_eq h.clock.symm⟩
  cases hfeed : m.feed? with
  | some k => exact htold (told_feed hfeed)
  | none =>
    cases hsession : m.session? with
    | some k => exact htold (told_session hmailboxes hsession)
    | none => exact Deeds.setup_clock (deeds_apply c hfeed hsession)

theorem setup_apply (hmailboxes : c.MailboxesApart) (m : Move) : (c.apply m).setup = c.setup :=
  (setup_clock_apply hmailboxes m).1

theorem clock_le_apply (hmailboxes : c.MailboxesApart) (m : Move) : c.clock ≤ (c.apply m).clock :=
  (setup_clock_apply hmailboxes m).2

theorem Told.waitsKnown (h : Told c c' m) (hcalls : c'.calls = c.calls)
    (hregistrations : c'.registrations = c.registrations) (hc : c.WaitsKnown) : c'.WaitsKnown := by
  have hmailbox (w : Nat) : c'.mailboxOf? w = c.mailboxOf? w := by
    rw [mailboxOf?, h.wait, mailboxOf?]
    cases c.waits[w]? with
    | none => rfl
    | some wait =>
      simp only [Option.map_some, Option.bind_some, Wait.told]
      cases wait.mailbox <;> rfl
  refine ⟨fun {k call w} hcall hw => ?_, ⟨fun hw => ?_, fun hw hw' => ?_⟩, fun {n} hn => ?_⟩
  · exact h.length ▸ hc.known (call?_of_calls_eq hcalls k ▸ hcall) hw
  · exact h.nextMailbox ▸ hc.mailboxes.given (hmailbox _ ▸ hw)
  · exact hc.mailboxes.apart (hmailbox _ ▸ hw) (hmailbox _ ▸ hw')
  · exact h.nextMailbox ▸ hc.keys (registered?_of_registrations hregistrations ▸ hn)

theorem WaitsKnown.endorsed (hc : c.WaitsKnown) (i : Nat)
    (r : Except TransportError (List Answer)) : (c.endorsed i r).WaitsKnown := by
  let noKey (_ : ListenerKey) : Prop := False
  let noWait (_ : Nat) : Prop := False
  have hfinish (result : CallResult) : (c.finish i result).WaitsKnown := by
    have hdeeds : Deeds i noKey noKey noWait c (c.finish i result) := deeds_finish c result
    exact Deeds.waitsKnown hdeeds (fun _ => False.elim) (fun _ => False.elim) hc
  unfold Client.endorsed
  split
  · next p asked _ =>
    split
    · exact hfinish _
    · next answers =>
      split
      · exact hfinish _
      · let b := (c.newWait p.id (asked.or c.defaultQuorum) c.options.commitTimeout).1
        have hbegins : Deed i noKey noKey noWait c b := .begins _ _ _
        have hb : b.WaitsKnown :=
          hbegins.waitsKnown (fun _ => False.elim) (fun _ => False.elim) hc
        have hlt : c.waits.length < b.waits.length := by simp [b, newWait]
        refine hb.openMailbox hlt fun v hv => ?_
        obtain rfl := Option.some.inj hv
        exact hlt
  · exact hc

theorem Orderly.apply {mine : List Nat} (h : c.Orderly mine) (hm : m.Proper mine) :
    (c.apply m).Orderly (mine ++ c.made m) := by
  have hlength := waits_length_apply h.waits.mailboxes m
  refine ⟨h.tidy.apply m, named_apply h.tidy h.named m, ?_, fun w hw => ?_⟩
  · cases hfeed : m.feed? with
    | some k =>
      rcases feed_move_cases (c := c) hfeed with ⟨-, heq⟩ | ⟨f, -, hf⟩
      · exact heq.symm ▸ h.waits
      · exact (told_feed hfeed).waitsKnown hf.calls hf.registrations h.waits
    | none =>
      cases hsession : m.session? with
      | some k =>
        rcases session_move_cases (c := c) hsession with ⟨-, heq⟩ | ⟨s, s', -, -, hserves⟩
        · exact heq.symm ▸ h.waits
        · exact (told_session h.waits.mailboxes hsession).waitsKnown hserves.calls
            hserves.registrations h.waits
      | none =>
        have hplain (hadds : ∀ n, .commit (.mailbox n) ∉ c.adds m)
            (hnot : ¬ ∃ i r, m = .endorsed i r) : (c.apply m).WaitsKnown := by
          refine Deeds.waitsKnown (deeds_apply c hfeed hsession) (fun n hn => absurd hn (hadds n))
            (fun w hw => ?_) h.waits
          rcases hw with hw | ⟨call, hcall, hw⟩ | ⟨-, hendorsed⟩
          · exact h.mine w (hm.1 w hw)
          · exact h.waits.known hcall hw
          · exact absurd hendorsed hnot
        cases m with
        | endorsed i r => exact h.waits.endorsed i r
        | listen w =>
          have hnewCall : c.newCall.1.WaitsKnown :=
            ⟨h.waits.known, ⟨h.waits.mailboxes.given, h.waits.mailboxes.apart⟩, h.waits.keys⟩
          exact hnewCall.openMailbox (h.mine w (hm.1 w rfl)) (by simp [AfterLink.wait?])
        | addListener s o =>
          refine hplain (fun n hn => ?_) (by simp)
          have hkey := List.mem_singleton.1 hn
          cases s <;> cases hkey
        | addCommitListener l peers id =>
          refine hplain (fun n hn => ?_) (by simp)
          have hkey := List.mem_singleton.1 hn
          simp only [ListenerKey.commit.injEq] at hkey
          have happ := hm.2 l rfl
          rw [← hkey] at happ
          cases happ
        | _ => exact hplain (fun n hn => List.not_mem_nil hn) (by simp)
  · rcases List.mem_append.1 hw with hw | hw
    · exact Nat.lt_of_lt_of_le (h.mine w hw) hlength
    · cases m <;> simp only [made, List.not_mem_nil, List.mem_singleton] at hw
      case newWait id quorum limit =>
        subst hw
        simp [Client.apply, newWait]

theorem Orderly.run {mine : List Nat} {ms : List Move} (h : c.Orderly mine)
    (hms : Proper mine c ms) : (c.run ms).Orderly (mine ++ gather made c ms) := by
  induction ms generalizing c mine with
  | nil => rwa [gather, List.append_nil]
  | cons m ms ih =>
    rw [gather, ← List.append_assoc]
    exact ih (h.apply hms.1) hms.2

theorem Orderly.mono {mine mine' : List Nat} (h : c.Orderly mine) (hsub : ∀ v ∈ mine', v ∈ mine) :
    c.Orderly mine' :=
  ⟨h.tidy, h.named, h.waits, fun v hv => h.mine v (hsub v hv)⟩

/-! ## A wait of one call -/

/-- The wait `w` is that of the call `i`, and neither another call nor the application has it. -/
structure Own (i w : Nat) (mine : List Nat) (c : Client) : Prop where
  there : w < c.waits.length
  others : ∀ k call, k ≠ i → c.call? k = some call → call.wait? ≠ some w
  not_mine : w ∉ mine

section Own

variable {i w : Nat} {mine : List Nat}

theorem Own.not_mayTouch (h : c.Own i w mine) (hm : m.Proper mine) (hactor : c.actor m ≠ i) :
    ¬ c.MayTouch m w := by
  rintro (hw | ⟨call, hcall, hw⟩ | ⟨hw, -⟩)
  · exact h.not_mine (hm.1 w hw)
  · exact h.others _ call hactor hcall hw
  · exact absurd h.there (by omega)

theorem Own.apply (hc : c.Orderly mine) (h : c.Own i w mine) (hm : m.Proper mine) :
    (c.apply m).Own i w (mine ++ c.made m) := by
  refine ⟨Nat.lt_of_lt_of_le h.there (waits_length_apply hc.waits.mailboxes m),
    fun k call hk hcall => ?_, fun hw => ?_⟩
  · by_cases hactor : c.actor m = k
    · rcases quiet_or_deeds hc.tidy m with hquiet | hdeeds
      · exact h.others k call hk (call?_of_calls_eq hquiet.calls k ▸ hcall)
      · rcases Deeds.call_back hdeeds (hactor ▸ hcall) with hcall | ⟨-, hmay⟩
        · exact h.others _ call (hactor ▸ hk) hcall
        · exact fun hw => h.not_mayTouch hm (hactor ▸ hk) (hmay w hw)
    · exact h.others k call hk (call?_apply hc.tidy hactor ▸ hcall)
  · rcases List.mem_append.1 hw with hw | hw
    · exact h.not_mine hw
    · have hlt := h.there
      cases m <;> simp only [made, List.not_mem_nil, List.mem_singleton] at hw
      omega

/-- A move of another call, of the application or of the world leaves the wait as it is, but for
what its mailbox is told. -/
theorem Own.wait (hc : c.Orderly mine) (h : c.Own i w mine) (hm : m.Proper mine)
    (hactor : c.actor m ≠ i) :
    (c.apply m).waits[w]? = (c.waits[w]?).map fun wait => wait.told (c.posts · m) := by
  cases hfeed : m.feed? with
  | some k => exact (told_feed hfeed).wait w
  | none =>
    cases hsession : m.session? with
    | some k => exact (told_session hc.waits.mailboxes hsession).wait w
    | none =>
      rw [Deeds.wait (deeds_apply c hfeed hsession) (h.not_mayTouch hm hactor) h.there,
        List.getElem?_eq_getElem h.there, Option.map_some,
        Wait.told_of_nil fun b _ => posts_of_no_session b.1 hsession]

/-- A wait that no move names may be left out. -/
theorem Proper.without {mine' : List Nat} {ms : List Move} (hms : Proper mine c ms)
    (hnot : ∀ m ∈ ms, m.wait? ≠ some w) (hsub : ∀ v ∈ mine, v ≠ w → v ∈ mine') :
    Proper mine' c ms := by
  induction ms generalizing c mine mine' with
  | nil => trivial
  | cons m ms ih =>
    refine ⟨⟨fun v hv => hsub v (hms.1.1 v hv) ?_, hms.1.2⟩,
      ih hms.2 (fun m hm => hnot m (List.mem_cons_of_mem _ hm)) fun v hv hne => ?_⟩
    · rintro rfl
      exact hnot m List.mem_cons_self hv
    · rcases List.mem_append.1 hv with hv | hv
      · exact List.mem_append_left _ (hsub v hv hne)
      · exact List.mem_append_right _ hv

theorem Own.of_deeds {new keys : ListenerKey → Prop} {waits : Nat → Prop}
    (h : Deeds i new keys waits c c') (own : c.Own i w mine) : c'.Own i w mine :=
  ⟨Nat.lt_of_lt_of_le own.there (Deeds.waits_le h).1,
    fun k call hk hcall => own.others k call hk (Deeds.call? h hk ▸ hcall), own.not_mine⟩

/-- A wait that nobody has changes only in what its mailbox is told. -/
theorem run_of_unowned {ms : List Move} {wait : Wait} (hc : c.Orderly mine)
    (own : ∀ k, c.Own k w mine) (hms : Proper mine c ms) (hw : c.waits[w]? = some wait) :
    (c.run ms).waits[w]? = some (wait.told fun n => gather (posts n) c ms) ∧
      ∀ k, (c.run ms).Own k w (mine ++ gather made c ms) := by
  induction ms generalizing c mine wait with
  | nil =>
    refine ⟨?_, by simpa [gather] using own⟩
    rw [run_nil, hw, Wait.told_of_nil fun _ _ => rfl]
  | cons m ms ih =>
    have hother : c.actor m ≠ c.actor m + 1 := Nat.ne_of_lt (Nat.lt_succ_self _)
    have hw' := (own _).wait hc hms.1 hother
    rw [hw, Option.map_some] at hw'
    obtain ⟨htold, hown⟩ := ih (hc.apply hms.1) (fun k => (own k).apply hc hms.1) hms.2 hw'
    rw [run_cons, htold, gather, ← List.append_assoc]
    refine ⟨?_, hown⟩
    unfold Wait.told
    simp only [Option.map_map, gather, Function.comp_def, List.append_assoc]

end Own

/-! ## Audiences -/

/-- Whom a session tells never changes. -/
theorem audience_apply (hc : c.Tidy) (m : Move) {j : Nat} {s : Session}
    (hs : c.sessions[j]? = some s) :
    ∃ s', (c.apply m).sessions[j]? = some s' ∧ s'.audience = s.audience := by
  cases hfeed : m.feed? with
  | some k =>
    rcases feed_move_cases (c := c) hfeed with ⟨-, heq⟩ | ⟨f, -, hf⟩
    · exact ⟨s, heq.symm ▸ hs, rfl⟩
    · rw [hf.session (hc.sound.nodup hf.feed), hs]
      split_ifs
      · exact ⟨_, rfl, (wary_foldl_deliver _ s).1⟩
      · exact ⟨s, rfl, rfl⟩
  | none =>
    cases hsession : m.session? with
    | some k =>
      rcases session_move_cases (c := c) hsession with ⟨-, heq⟩ | ⟨s₀, s', -, hs', hserves⟩
      · exact ⟨s, heq.symm ▸ hs, rfl⟩
      · rw [hserves.sessions]
        split_ifs with hkj
        · subst hkj
          obtain rfl := Option.some.inj (hs.symm.trans hserves.session)
          refine ⟨s', rfl, ?_⟩
          rcases hs' with rfl | rfl
          · exact (wary_after s m).1
          · exact (Session.audience_answer ..).trans (wary_after s m).1
        · exact ⟨s, hs, rfl⟩
    | none =>
      obtain ⟨s', hs', rfl | rfl⟩ := Deeds.session (deeds_apply c hfeed hsession) hs
      · exact ⟨_, hs', rfl⟩
      · exact ⟨_, hs', rfl⟩

end Client

end LedgerClient
