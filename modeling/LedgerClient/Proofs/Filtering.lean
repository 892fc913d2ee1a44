import LedgerClient.Proofs.LastCalls

/-!
# Which deliveries are handled

A session knows its floor and the number of the last block that it handled.  This is as good as
knowing all that it was ever handed: a block is handled if it is not below the floor and not below
any earlier block that is not below the floor, whether or not that block was handled, and a fault
is always handled (`Delivery.Due`).  The number of the last block that was handled is the greatest
number so far that is not below the floor (`Delivery.getLast?_kept`), which carries the proof of
the main statement, `Watch.handles_what_is_due`.
-/

namespace LedgerClient

/-! ## Deliveries that are due -/

namespace Delivery

/-- The numbers of the blocks among deliveries. -/
def numbers (ds : List Delivery) : List Nat := ds.filterMap Session.numberOf

/-- The block numbers that are not below the floor. -/
def counted (floor : Option Nat) (ds : List Delivery) : List Nat :=
  (numbers ds).filter fun n => ∀ m ∈ floor, m ≤ n

/-- Whether a delivery is to be handled after earlier ones. -/
def Due (floor : Option Nat) (earlier : List Delivery) : Delivery → Prop
  | .block _ b => (∀ m ∈ floor, m ≤ b.number) ∧ ∀ n ∈ counted floor earlier, n ≤ b.number
  | .fault _ => True

instance (floor : Option Nat) (earlier : List Delivery) : DecidablePred (Due floor earlier) :=
  fun d =>
    match d with
    | .block _ b => inferInstanceAs
        (Decidable ((∀ m ∈ floor, m ≤ b.number) ∧ ∀ n ∈ counted floor earlier, n ≤ b.number))
    | .fault _ => inferInstanceAs (Decidable True)

/-- The deliveries that are to be handled, each after all before it. -/
def kept (floor : Option Nat) (earlier : List Delivery) : List Delivery → List Delivery
  | [] => []
  | d :: ds =>
    if d.Due floor earlier then d :: kept floor (earlier ++ [d]) ds
    else kept floor (earlier ++ [d]) ds

variable {floor : Option Nat} {earlier ds : List Delivery} {d : Delivery}

@[simp] theorem numbers_append (ds ds' : List Delivery) :
    numbers (ds ++ ds') = numbers ds ++ numbers ds' := List.filterMap_append

@[simp] theorem numbers_block (peer : String) (b : Block) :
    numbers [.block peer b] = [b.number] := rfl

@[simp] theorem numbers_fault (f : PeerFault) : numbers [.fault f] = [] := rfl

theorem counted_append (floor : Option Nat) (ds ds' : List Delivery) :
    counted floor (ds ++ ds') = counted floor ds ++ counted floor ds' := by
  rw [counted, numbers_append, List.filter_append]
  rfl

theorem kept_append (ds ds' : List Delivery) :
    kept floor earlier (ds ++ ds') =
      kept floor earlier ds ++ kept floor (earlier ++ ds) ds' := by
  induction ds generalizing earlier with
  | nil => simp [kept]
  | cons d ds ih =>
    simp only [List.cons_append, kept, ih, List.append_assoc]
    split_ifs <;> rfl

theorem mem_counted {n : Nat} :
    n ∈ counted floor ds ↔ n ∈ numbers ds ∧ ∀ m ∈ floor, m ≤ n := by
  simp [counted]

/-- What is due at the end of a list counts, and nothing that counts is greater. -/
theorem Due.max?_counted (h : d.Due floor earlier) :
    (counted floor (earlier ++ [d])).max? =
      (Session.numberOf d).or (counted floor earlier).max? := by
  rw [counted_append]
  cases d with
  | block peer b =>
    have hcounts : counted floor [.block peer b] = [b.number] := by
      simpa [counted, numbers, Session.numberOf] using h.1
    rw [hcounts, Session.numberOf, Option.some_or, List.max?_eq_some_iff]
    refine ⟨List.mem_append_right _ (List.mem_singleton_self _), fun n hn => ?_⟩
    rcases List.mem_append.1 hn with hn | hn
    · exact h.2 n hn
    · exact Nat.le_of_eq (List.mem_singleton.1 hn)
  | fault f =>
    have hcounts : counted floor [.fault f] = [] := rfl
    rw [hcounts, List.append_nil, Session.numberOf, Option.none_or]

/-- What is not due changes nothing: it does not count, or something greater came before it. -/
theorem max?_counted_of_not_due (h : ¬ d.Due floor earlier) :
    (counted floor (earlier ++ [d])).max? = (counted floor earlier).max? := by
  rw [counted_append]
  cases d with
  | fault f => exact absurd trivial h
  | block peer b =>
    by_cases hfloor : ∀ m ∈ floor, m ≤ b.number
    · have hcounts : counted floor [.block peer b] = [b.number] := by
        simpa [counted] using hfloor
      obtain ⟨n, hn, hlt⟩ : ∃ n ∈ counted floor earlier, b.number < n := by
        by_contra hnone
        exact h ⟨hfloor, fun n hn => Nat.le_of_not_lt fun hlt => hnone ⟨n, hn, hlt⟩⟩
      obtain ⟨top, htop⟩ : ∃ top, (counted floor earlier).max? = some top :=
        Option.ne_none_iff_exists'.1 fun hnone =>
          List.ne_nil_of_mem hn (List.max?_eq_none_iff.1 hnone)
      obtain ⟨hmem, hle⟩ := List.max?_eq_some_iff.1 htop
      rw [hcounts, htop, List.max?_eq_some_iff]
      refine ⟨List.mem_append_left _ hmem, fun k hk => ?_⟩
      rcases List.mem_append.1 hk with hk | hk
      · exact hle k hk
      · rw [List.mem_singleton.1 hk]
        exact Nat.le_trans (Nat.le_of_lt hlt) (hle n hn)
    · have hcounts : counted floor [.block peer b] = [] := by
        simpa [counted] using hfloor
      rw [hcounts, List.append_nil]

theorem kept_concat (floor : Option Nat) (ds : List Delivery) (d : Delivery) :
    kept floor [] (ds ++ [d]) =
      if d.Due floor ds then kept floor [] ds ++ [d] else kept floor [] ds := by
  rw [kept_append]
  simp only [kept, List.nil_append]
  split_ifs
  · rfl
  · exact List.append_nil _

/-- The last block that is kept has the greatest number that counts. -/
theorem getLast?_kept (floor : Option Nat) (ds : List Delivery) :
    (numbers (kept floor [] ds)).getLast? = (counted floor ds).max? := by
  induction ds using List.reverseRecOn with
  | nil => rfl
  | append_singleton ds d ih =>
    rw [kept_concat]
    split_ifs with hdue
    · rw [hdue.max?_counted, ← ih, numbers_append]
      cases d with
      | block peer b => exact List.getLast?_concat
      | fault f => rw [numbers_fault, List.append_nil, Session.numberOf, Option.none_or]
    · rw [max?_counted_of_not_due hdue, ih]

theorem pairwise_kept (floor : Option Nat) (ds : List Delivery) :
    (numbers (kept floor [] ds)).Pairwise (· ≤ ·) ∧
      ∀ n ∈ numbers (kept floor [] ds), n ∈ counted floor ds := by
  induction ds using List.reverseRecOn with
  | nil => exact ⟨List.Pairwise.nil, by simp [numbers, kept]⟩
  | append_singleton ds d ih =>
    obtain ⟨hsorted, hcounts⟩ := ih
    have hcounts' : ∀ n ∈ numbers (kept floor [] ds), n ∈ counted floor (ds ++ [d]) :=
      fun n hn => counted_append floor ds [d] ▸ List.mem_append_left _ (hcounts n hn)
    rw [kept_concat]
    split_ifs with hdue
    · cases d with
      | block peer b =>
        rw [numbers_append, numbers_block]
        refine ⟨?_, fun n hn => ?_⟩
        · refine List.pairwise_append.2 ⟨hsorted, List.pairwise_singleton _ _, fun n hn k hk => ?_⟩
          rw [List.mem_singleton.1 hk]
          exact hdue.2 n (hcounts n hn)
        · rcases List.mem_append.1 hn with hn | hn
          · exact hcounts' n hn
          · rw [List.mem_singleton.1 hn, mem_counted, numbers_append, numbers_block]
            exact ⟨List.mem_append_right _ (List.mem_singleton_self _), hdue.1⟩
      | fault f =>
        rw [numbers_append, numbers_fault, List.append_nil]
        exact ⟨hsorted, hcounts'⟩
    · exact ⟨hsorted, hcounts'⟩

end Delivery

/-! ## What a session knows -/

namespace Session

/-- The number of the last block that a session took up, handled or still in hand. -/
def newest (s : Session) : Option Nat :=
  match s.work with
  | none => s.last
  | some (n, _) => n.or s.last

theorem newest_follow (s : Session) (n : Option Nat) (p : Plan) :
    (s.follow n p).newest = n.or s.last := by
  unfold follow
  split <;> rfl

theorem newest_answer (s : Session) (r : Response) : (s.answer r).newest = s.newest := by
  unfold answer
  split <;> first | rfl | (rw [newest_follow, newest]; simp only [*])

/-- The session was handed `passed` before what waits now, and is neither closed nor behind. -/
structure Current (A : Audience) (floor : Option Nat) (passed : List Delivery) (s : Session) :
    Prop where
  audience_eq : s.audience = A
  floor_eq : s.floor = floor
  stays : s.removed = false
  newest_eq : s.newest = (Delivery.counted floor passed).max?

variable {A : Audience} {floor : Option Nat} {passed : List Delivery} {s : Session}

theorem current_new (A : Audience) (floor : Option Nat) :
    (Session.new A floor).Current A floor [] := ⟨rfl, rfl, rfl, rfl⟩

theorem reaches_eq_true {bound : Option Nat} {n : Nat} :
    reaches bound n = true ↔ ∀ m ∈ bound, m ≤ n := by
  cases bound <;> simp [reaches]

/-- Between two deliveries, the two numbers that a session keeps tell it what is due. -/
theorem Current.accepts_iff (h : s.Current A floor passed) (hw : s.work = none) (d : Delivery) :
    s.accepts d = true ↔ d.Due floor passed := by
  have hlast : s.last = (Delivery.counted floor passed).max? := by
    rw [← h.newest_eq, newest, hw]
  cases d with
  | fault f => exact ⟨fun _ => trivial, fun _ => rfl⟩
  | block peer b =>
    simp only [accepts, Bool.and_eq_true, reaches_eq_true, h.floor_eq, hlast, Delivery.Due]
    refine and_congr_right fun _ => ?_
    cases htop : (Delivery.counted floor passed).max? with
    | none => simp [List.max?_eq_none_iff.1 htop]
    | some top => simpa using List.max?_le_iff htop

theorem Current.follow (h : s.Current A floor passed) (hw : s.work = none) {d : Delivery}
    (hdue : d.Due floor passed) (p : Plan) :
    (s.follow (numberOf d) p).Current A floor (passed ++ [d]) := by
  refine ⟨(audience_follow _ _ _).trans h.audience_eq, (floor_follow _ _ _).trans h.floor_eq,
    (removed_follow _ _ _).trans h.stays, ?_⟩
  rw [newest_follow, hdue.max?_counted, ← h.newest_eq, Session.newest, hw]

theorem Current.pass (h : s.Current A floor passed) {d : Delivery}
    (hdue : ¬ d.Due floor passed) : s.Current A floor (passed ++ [d]) :=
  ⟨h.audience_eq, h.floor_eq, h.stays, (Delivery.max?_counted_of_not_due hdue).symm ▸ h.newest_eq⟩

theorem Current.answer (h : s.Current A floor passed) (r : Response) :
    (s.answer r).Current A floor passed :=
  ⟨(audience_answer _ _).trans h.audience_eq, (floor_answer _ _).trans h.floor_eq,
    (removed_answer _ _).trans h.stays, (newest_answer _ _).trans h.newest_eq⟩

theorem Current.withQueue (h : s.Current A floor passed) (queue : List Delivery) :
    { s with queue := queue }.Current A floor passed :=
  ⟨h.audience_eq, h.floor_eq, h.stays, h.newest_eq⟩

/-- What is next in the queue is handled if it is due and passed over if not. -/
theorem Current.take_eq (h : s.Current A floor passed) (hw : s.work = none) {d : Delivery}
    {rest : List Delivery} (hq : s.queue = d :: rest) :
    s.upNext? = (if d.Due floor passed then some d else none) ∧
      s.take = if d.Due floor passed then
          { s with queue := rest }.follow (numberOf d) (A.plan d)
        else { s with queue := rest } := by
  rcases s.take_cases with ⟨-, hn | hn⟩ | ⟨-, hr, -⟩ | ⟨d', rest', -, -, hq', htake⟩
  · exact absurd hw hn
  · rw [hq] at hn
    cases hn
  · rw [h.stays] at hr
    cases hr
  · rw [hq, List.cons.injEq] at hq'
    obtain ⟨rfl, rfl⟩ := hq'
    have hnext : s.upNext? = if s.accepts d = true then some d else none := by
      simp only [upNext?, hw, hq, h.stays, true_and]
    rw [hnext]
    simp only [h.accepts_iff hw, true_and]
    rcases htake with ⟨hacc, ht⟩ | ⟨hacc, ht⟩
    · rw [if_pos ((h.accepts_iff hw d).1 hacc), ht, h.audience_eq]
    · have hdue : ¬ d.Due floor passed := fun hdue => by simp [(h.accepts_iff hw d).2 hdue] at hacc
      rw [if_neg hdue, ht]

end Session

/-! ## Along a run -/

/-- A delivery as a listener without a checkpointer is told of it. -/
def Delivery.notice : Delivery → Notice
  | .block peer b => .block ⟨peer, b⟩
  | .fault f => .fault f

/-- The work in hand is a call and nothing else. -/
def Session.Telling (s : Session) : Prop :=
  ∀ n p, s.work = some (n, p) → ∃ m go, p = .tell m go ∧ ∀ ok, go ok = .finished

theorem Session.telling_of_none {s : Session} (h : s.work = none) : s.Telling := fun n p hw => by
  rw [h] at hw
  cases hw

theorem Audience.plan_block_none (l : ListenerId) (d : Delivery) :
    ∃ go, (Audience.block l none).plan d = .tell d.notice go ∧ ∀ ok, go ok = .finished := by
  cases d with
  | block peer b => exact ⟨_, rfl, fun ok => by cases ok <;> rfl⟩
  | fault f => exact ⟨_, rfl, fun _ => rfl⟩

/-- The answer to a call is the end of the work. -/
theorem Session.Telling.answer {s : Session} (h : s.Telling) {r : Response}
    (hr : s.expects r = true) : (s.answer r).work = none := by
  cases hw : s.work with
  | none => simp [Session.expects, hw] at hr
  | some np =>
    obtain ⟨n, p⟩ := np
    obtain ⟨m, go, rfl, hgo⟩ := h n p hw
    cases r with
    | told ok => simp only [Session.answer, hw, Session.follow, hgo, Session.unguard]
    | _ => simp [Session.expects, hw] at hr

namespace Watch

variable (opens : Checkpoint → Session) {a : Watch} {A : Audience} {floor : Option Nat}
  {passed : List Delivery}

/-- An incident leaves the session with all that it was handed taken or waiting, and what it took
up is what is due of it. -/
theorem current_after (h : a.session.Current A floor passed) {e : Incident} (hopen : e ≠ .removed)
    (hsame : e ≠ .restarts) :
    ∃ more, (a.after opens e).session.Current A floor (passed ++ more) ∧
      more ++ (a.after opens e).session.queue = a.session.queue ++ Incident.arrivals [e] ∧
      a.taken opens [e] = Delivery.kept floor passed more := by
  cases e with
  | arrives d =>
    have hd : a.session.deliver d = { a.session with queue := a.session.queue ++ [d] } := by
      simp [Session.deliver, h.stays]
    refine ⟨[], ?_, ?_, rfl⟩ <;> simp only [after, hd, List.append_nil, List.nil_append]
    · exact h.withQueue _
    · rfl
  | removed => exact absurd rfl hopen
  | begins =>
    rw [taken_begins]
    by_cases hidle : a.session.isReady = true
    · obtain ⟨hw, d, rest, hq⟩ : a.session.work = none ∧ ∃ d rest, a.session.queue = d :: rest := by
        cases hw : a.session.work <;> cases hq : a.session.queue <;>
          simp [Session.isReady, hw, hq] at hidle ⊢
      obtain ⟨hnext, htake⟩ := h.take_eq hw hq
      refine ⟨[d], ?_, ?_, ?_⟩
      · simp only [after, htake]
        split_ifs with hdue
        · exact (h.withQueue rest).follow hw hdue _
        · exact (h.withQueue rest).pass hdue
      · simp only [after, htake]
        split_ifs <;> simp [hq, Incident.arrivals]
      · rw [hnext, Delivery.kept]
        split_ifs <;> rfl
    · -- Nothing waits, or something is in hand.
      have hstill : a.session.upNext? = none ∧ a.session.take = a.session := by
        cases hw : a.session.work <;> cases hq : a.session.queue <;>
          simp [Session.isReady, Session.upNext?, Session.take, hw, hq] at hidle ⊢
      refine ⟨[], ?_, ?_, ?_⟩
      · simpa only [after, hstill.2, List.append_nil] using h
      · simp [after, hstill.2, Incident.arrivals]
      · rw [hstill.1]
        rfl
  | reads ok | changes ok | calls ok =>
    refine ⟨[], ?_, ?_, rfl⟩ <;>
      simp only [after, List.append_nil, List.nil_append, Incident.arrivals] <;> split <;>
        first | exact h | exact h.answer _ | rfl | exact Session.queue_answer _ _
  | restarts => exact absurd rfl hsame

theorem current_run (h : a.session.Current A floor passed) {es : List Incident}
    (hopen : .removed ∉ es) (hsame : .restarts ∉ es) :
    ∃ more, (a.run opens es).session.Current A floor (passed ++ more) ∧
      more ++ (a.run opens es).session.queue = a.session.queue ++ Incident.arrivals es ∧
      a.taken opens es = Delivery.kept floor passed more := by
  induction es generalizing a passed with
  | nil => exact ⟨[], by simpa using h, by simp [Incident.arrivals], rfl⟩
  | cons e es ih =>
    rw [List.mem_cons, not_or] at hopen hsame
    obtain ⟨more, hcurrent, hqueue, htaken⟩ :=
      current_after opens h (Ne.symm hopen.1) (Ne.symm hsame.1)
    obtain ⟨more', hcurrent', hqueue', htaken'⟩ := ih hcurrent hopen.2 hsame.2
    have harrivals : Incident.arrivals (e :: es) =
        Incident.arrivals [e] ++ Incident.arrivals es := by
      cases e with
      | restarts => exact absurd rfl hsame.1
      | _ => rfl
    refine ⟨more ++ more', ?_, ?_, ?_⟩
    · rwa [← List.append_assoc]
    · rw [run_cons, List.append_assoc, hqueue', ← List.append_assoc, hqueue, harrivals,
        List.append_assoc]
    · have hcons := taken_append opens a [e] es
      rw [List.singleton_append] at hcons
      rw [hcons, htaken, run_cons, run_nil, htaken', Delivery.kept_append]

theorem taken_of_removed (hr : a.session.removed = true) {es : List Incident}
    (hsame : .restarts ∉ es) : a.taken opens es = [] := by
  induction es generalizing a with
  | nil => rfl
  | cons e es ih =>
    rw [List.mem_cons, not_or] at hsame
    have hlater := ih (after_of_removed opens hr (Ne.symm hsame.1)).1 hsame.2
    cases e with
    | begins =>
      have hnone : a.session.upNext? = none := by
        rcases hnext : a.session.upNext? with _ | d
        · rfl
        · rw [(Session.upNext?_eq_some hnext).2.1] at hr
          cases hr
      simp only [taken, hnone, hlater, Option.toList_none, List.append_nil]
    | _ => exact hlater

/-- The calls of a block listener without a checkpointer are about what its session takes up. -/
theorem called_after {l : ListenerId} (ha : a.session.audience = .block l none)
    (h : a.session.Telling) {e : Incident} (hsame : e ≠ .restarts) :
    (a.after opens e).session.audience = .block l none ∧ (a.after opens e).session.Telling ∧
      (a.after opens e).called = a.called ++ (a.taken opens [e]).map Delivery.notice := by
  have same {b : Watch} (hw : b.session.work = a.session.work)
      (hb : b.session.audience = a.session.audience) (hacc : b.account = a.account) :
      b.session.audience = .block l none ∧ b.session.Telling ∧ b.called = a.called ++ [] :=
    ⟨hb.trans ha, fun n p hp => h n p (hw ▸ hp),
      (called_of_work hw hb hacc).trans (List.append_nil _).symm⟩
  have answers {ok : Bool} (he : e = .reads ok ∨ e = .changes ok ∨ e = .calls ok) :
      (a.after opens e).session.audience = .block l none ∧ (a.after opens e).session.Telling ∧
        (a.after opens e).called = a.called ++ [] := by
    rcases answered_after opens (a := a) he with heq | ⟨r, hr, hsession, hcalled⟩
    · rw [heq]
      exact same rfl rfl rfl
    · have hdone : (a.session.answer r).work = none := h.answer hr
      have hsilent : (a.session.answer r).notice? = none := by
        simp only [Session.notice?, Session.question?, hdone]
      rw [hsilent] at hcalled
      rw [hsession]
      exact ⟨(Session.audience_answer _ _).trans ha, Session.telling_of_none hdone, hcalled⟩
  cases e with
  | arrives d =>
    refine same ?_ (Session.audience_deliver _ _) rfl
    simp only [after, Session.deliver]
    split_ifs <;> rfl
  | removed => exact same rfl rfl rfl
  | begins =>
    rw [taken_begins]
    rcases a.session.take_upNext? with ⟨d, rest, hnext, htake⟩ | ⟨hnext, hwork⟩
    · obtain ⟨go, hplan, hgo⟩ := Audience.plan_block_none l d
      have hw : a.session.work = none := (Session.upNext?_eq_some hnext).1
      have hsilent : a.session.notice? = none := by
        simp only [Session.notice?, Session.question?, hw]
      rw [ha, hplan] at htake
      refine ⟨(Session.audience_take _).trans ha, ?_, ?_⟩
      · simp only [after, htake]
        rintro n p ⟨⟩
        exact ⟨_, go, rfl, hgo⟩
      · simp only [called, after, htake, hnext, hsilent, Option.toList_none, List.append_nil]
        rfl
    · rw [hnext]
      exact same hwork (Session.audience_take _) rfl
  | reads ok => exact answers (Or.inl rfl)
  | changes ok => exact answers (Or.inr (Or.inl rfl))
  | calls ok => exact answers (Or.inr (Or.inr rfl))
  | restarts => exact absurd rfl hsame

theorem called_run {l : ListenerId} (ha : a.session.audience = .block l none)
    (h : a.session.Telling) {es : List Incident} (hsame : .restarts ∉ es) :
    (a.run opens es).called = a.called ++ (a.taken opens es).map Delivery.notice := by
  induction es generalizing a with
  | nil => exact (List.append_nil _).symm
  | cons e es ih =>
    rw [List.mem_cons, not_or] at hsame
    obtain ⟨ha', h', hcalled⟩ := called_after opens ha h (Ne.symm hsame.1)
    have hcons := taken_append opens a [e] es
    rw [List.singleton_append] at hcons
    rw [run_cons, ih ha' h' hsame.2, hcalled, hcons, List.map_append, List.append_assoc]
    rfl

/-- What a session that began with a floor has made of its deliveries after a run: those that it
took from its queue have `passed`. -/
structure Filtered (A : Audience) (floor : Option Nat) (opens : Checkpoint → Session) (a : Watch)
    (es : List Incident) (passed : List Delivery) : Prop where
  /-- What arrived was taken, in its order, or waits. -/
  arrived : passed ++ (a.run opens es).session.queue = Incident.arrivals es
  /-- What was handled is what was due. -/
  handled : a.taken opens es = Delivery.kept floor [] passed
  /-- The next delivery is handled by the listener's plan if it is due, and passed over if not. -/
  next : ∀ d rest, (a.run opens es).session.work = none →
    (a.run opens es).session.queue = d :: rest →
    (a.run opens es).session.take =
      if d.Due floor passed then
        { (a.run opens es).session with queue := rest }.follow (Session.numberOf d) (A.plan d)
      else { (a.run opens es).session with queue := rest }
  /-- When the session is closed now, nothing else will be handled. -/
  closed : ∀ es', .restarts ∉ es' → a.taken opens (es ++ .removed :: es') = a.taken opens es
  /-- When it goes on undisturbed, all that arrived will have been considered. -/
  served : ∃ es', (∀ e ∈ es', e.Serves) ∧
    a.taken opens (es ++ es') = Delivery.kept floor [] (Incident.arrivals es)
  /-- Block numbers do not decrease. -/
  ordered : (Delivery.numbers (a.taken opens es)).Pairwise (· ≤ ·)
  floored : ∀ n ∈ Delivery.numbers (a.taken opens es), ∀ m ∈ floor, m ≤ n
  /-- A block with the number of the last one is handled again, a lower one is not. -/
  again : ∀ n peer b rest, (Delivery.numbers (a.taken opens es)).getLast? = some n →
    (a.run opens es).session.work = none →
    (a.run opens es).session.queue = .block peer b :: rest →
    (b.number = n → a.taken opens (es ++ [.begins]) = a.taken opens es ++ [.block peer b]) ∧
      (b.number < n → a.taken opens (es ++ [.begins]) = a.taken opens es)
  /-- A block listener without a checkpointer is called on all that is handled and nothing else. -/
  called : ∀ l, A = .block l none → ∀ es', .restarts ∉ es' →
    (a.run opens es').called = a.called ++ (a.taken opens es').map Delivery.notice

/-- A session may be closed at any moment.  Up to there it handles all faults, and a block exactly
if it is not below the floor nor below any earlier block that is not below the floor.  So block
numbers do not decrease, and a block with the number of the last one is handled again. -/
theorem handles_what_is_due (A : Audience) (floor : Option Nat) (w : Account)
    {es : List Incident} (hopen : .removed ∉ es) (hsame : .restarts ∉ es) :
    let opens : Checkpoint → Session := fun _ => .new A floor
    ∃ passed, Filtered A floor opens (start opens w) es passed := by
  intro opens
  obtain ⟨passed, hcurrent, hqueue, htaken⟩ :=
    current_run opens (a := start opens w) (Session.current_new A floor) hopen hsame
  rw [List.nil_append] at hcurrent
  obtain ⟨hsorted, hcounts⟩ := Delivery.pairwise_kept floor passed
  refine ⟨passed, ?_⟩
  constructor
  case arrived => exact hqueue
  case handled => exact htaken
  case next => exact fun d rest hw hq => (hcurrent.take_eq hw hq).2
  case closed =>
    intro es' hes'
    rw [taken_append]
    exact (congrArg _ (taken_of_removed opens rfl hes')).trans (List.append_nil _)
  case served =>
    have horder := inOrder_run opens (fun _ => rfl)
      (Session.inOrder_of_none (s := (start opens w).session) rfl) es
    obtain ⟨es', hserves, -, hempty⟩ := reaches_nil opens (fun _ => rfl) horder
    have hquiet : Incident.arrivals es' = [] :=
      List.eq_nil_iff_forall_not_mem.2 fun d hd => hserves _ (Incident.mem_of_mem_arrivals hd)
    obtain ⟨more, -, hqueue', htaken'⟩ := current_run opens hcurrent
      (fun hmem => hserves _ hmem) fun hmem => hserves _ hmem
    rw [hempty, hquiet, List.append_nil, List.append_nil] at hqueue'
    refine ⟨es', hserves, ?_⟩
    rw [taken_append, htaken, htaken', hqueue']
    have hkept := congrArg (Delivery.kept floor []) hqueue
    rw [Delivery.kept_append] at hkept
    exact hkept
  case ordered => exact htaken ▸ hsorted
  case floored => exact fun n hn => (Delivery.mem_counted.1 (hcounts n (htaken ▸ hn))).2
  case again =>
    intro n peer b rest hlast hw hq
    rw [htaken] at hlast
    change (Delivery.numbers (Delivery.kept floor [] passed)).getLast? = some n at hlast
    rw [Delivery.getLast?_kept] at hlast
    obtain ⟨hmem, hle⟩ := List.max?_eq_some_iff.1 hlast
    have hnext := (hcurrent.take_eq hw hq).1
    rw [taken_append, taken_begins, hnext]
    refine ⟨fun heq => ?_, fun hlt => ?_⟩
    · rw [if_pos ⟨heq ▸ (Delivery.mem_counted.1 hmem).2, heq ▸ hle⟩]
      rfl
    · rw [if_neg fun hdue => Nat.not_le_of_lt hlt (hdue.2 n hmem)]
      exact List.append_nil _
  case called =>
    rintro l rfl es' hes'
    exact called_run opens (a := start opens w) rfl (Session.telling_of_none rfl) hes'

end Watch

/-- Blocks around a floor of three, and a fault. -/
def strayDeliveries : List Delivery :=
  [2, 5].map (fun n => .block "peer" ⟨n, .full, [], none⟩) ++ [.fault ⟨"peer", "down"⟩] ++
    [4, 5, 9].map fun n => .block "peer" ⟨n, .full, [], none⟩

/-- Of the stray blocks five is handled twice; a session that is closed then does not come to
nine. -/
theorem handles_what_is_due_stray :
    let opens : Checkpoint → Session := fun _ => .new (.block (.app "l") none) (some 3)
    let a := Watch.start opens ⟨.empty, []⟩
    let es := strayDeliveries.map .arrives ++
      [.begins, .begins, .calls true, .begins, .calls false, .begins, .begins, .calls true]
    (∃ passed, Watch.Filtered (.block (.app "l") none) (some 3) opens a es passed) ∧
      (a.run opens (es ++ [.removed, .begins, .begins])).called =
        [.block ⟨"peer", ⟨5, .full, [], none⟩⟩, .fault ⟨"peer", "down"⟩,
          .block ⟨"peer", ⟨5, .full, [], none⟩⟩] :=
  ⟨Watch.handles_what_is_due _ _ _ (by simp [strayDeliveries]) (by simp [strayDeliveries]), rfl⟩

end LedgerClient
