import LedgerClient.Proofs.Submissions

/-!
# What comes before the deadline

The deadline of a wait counts from the moment when the listening began, and the wait itself may
begin at any time, also after the deadline, because the transaction was long in being ordered. A
call that waits has taken a part of what its mailbox was told, without a verdict, and the rest is in
the mailbox (`Vigil.Kept`); every look takes the next outcomes, as many as it has room for, and
keeps to this or ends the call. So the call ends with the first verdict of what it has taken by its
first look at the deadline or later, or names the peers that reported none of that. If this look has
room for all that is left, nothing that was told in time is lost
(`Client.settled_by_what_was_taken`); if it has not, an outcome may be
(`Client.left_behind_at_the_deadline`).
-/

namespace LedgerClient

/-- Whether a move resumes a call with room for outcomes. -/
def Move.resumes (i : Nat) : Move → Bool
  | .resume k room => k = i ∧ room ≠ 0
  | _ => false

/-- A wait for confirmation: the transaction and its quorum, how long the call waits, when it began
to listen, the number of its mailbox, and the payload that it answers with, if any. -/
structure Vigil where
  id : TransactionId
  quorum : Quorum
  limit : Duration
  start : Nat
  mailbox : Nat
  payload : Option Bytes

namespace Client

/-- What is told to a mailbox in a move, and when. -/
def timed (n : Nat) (c : Client) (m : Move) : List (Nat × CommitOutcome) :=
  (c.posts n m).map (c.clock, ·)

/-- What is told to a mailbox, and when, while a call is under way, until it is resumed at the
deadline or later. -/
def heard (i n deadline : Nat) : Client → List Move → List (Nat × CommitOutcome)
  | _, [] => []
  | c, m :: ms =>
    if (c.call? i).isNone ∨ m.resumes i ∧ deadline ≤ c.clock then []
    else c.timed n m ++ heard i n deadline (c.apply m) ms

end Client

namespace Vigil

open Confirmation Client

/-- The deadline counts from the beginning of the listening. -/
def deadline (v : Vigil) : Nat := v.start + v.limit.ceilMillis

/-- What the mailbox is told in a run, until the call looks at it at the deadline or later. -/
def heard (v : Vigil) (i : Nat) (c : Client) (ms : List Move) : List CommitOutcome :=
  (c.heard i v.mailbox v.deadline ms).map (·.2)

/-- Whether the mailbox is told nothing from the deadline on before the call looks at it. -/
def Prompt (v : Vigil) (i : Nat) (c : Client) (ms : List Move) : Prop :=
  ∀ o ∈ c.heard i v.mailbox v.deadline ms, o.1 < v.deadline

/-- What the mailbox is told before the deadline. -/
def inTime (v : Vigil) (c : Client) (ms : List Move) : List CommitOutcome :=
  ((gather (timed v.mailbox) c ms).filter (·.1 < v.deadline)).map (·.2)

/-- The call `i` has begun to wait, with `taken` taken before and `queued` in its mailbox, and what
is seen of it later is as these outcomes and those that come say. -/
structure Settles (v : Vigil) (i : Nat) (taken queued : List CommitOutcome) (c : Client)
    (ms : List Move) : Prop where
  once : (log i c ms).results.length ≤ 1
  /-- Outcomes are taken in the order in which they were told. -/
  order : (log i c ms).taken <+: queued ++ v.heard i c ms
  /-- What was taken counts, up to the first look at the deadline or later. If this look leaves
  nothing, that is what was queued and all that was told until then, and if meanwhile no more was
  told, it is what was told before the deadline. -/
  ended : ∀ result ∈ (log i c ms).results, ∃ r, result = .closing v.payload r ∧
    Concludes v.id v.quorum v.limit (taken ++ (log i c ms).taken) r ∧
    (Undecided v.quorum (taken ++ (log i c ms).taken) →
      ∃ l ∈ (log i c ms).looks, v.deadline ≤ l.time) ∧
    ((log i c ms).Ample v.deadline →
      Concludes v.id v.quorum v.limit (taken ++ queued ++ v.heard i c ms) r ∧
      (v.Prompt i c ms → Concludes v.id v.quorum v.limit (taken ++ queued ++ v.inTime c ms) r))
  /-- A call that has not ended found no verdict, and the deadline ahead whenever it looked. -/
  waiting : (log i c ms).results = [] → Undecided v.quorum (taken ++ (log i c ms).taken) ∧
    ∀ l ∈ (log i c ms).looks, l.time < v.deadline

end Vigil

section Vigils

open Confirmation Client

variable {v : Vigil} {c c' : Client} {i w : Nat} {mine : List Nat}
  {taken os : List CommitOutcome} {m : Move} {ms : List Move}

/-! ## What is heard -/

namespace Client

/-- Nothing is told before a deadline that has passed. -/
theorem filter_timed_of_late {n deadline : Nat} (hc : c.Orderly mine) (hms : Proper mine c ms)
    (hlate : deadline ≤ c.clock) : (gather (timed n) c ms).filter (·.1 < deadline) = [] := by
  induction ms generalizing c mine with
  | nil => rfl
  | cons m ms ih =>
    rw [gather, List.filter_append, List.append_eq_nil_iff]
    refine ⟨?_, ih (hc.apply hms.1) hms.2
      (Nat.le_trans hlate (clock_le_apply hc.waits.mailboxes m))⟩
    simp [timed, hlate]

theorem looks_of_not_resumes (hm : m.resumes i = false) : c.looks i m = [] := by
  unfold looks
  split
  · exact if_neg fun h => by simp [Move.resumes, h] at hm
  · rfl

end Client

/-! ## Looking -/

namespace Vigil

theorem heard_of_over (h : c.Over i) : v.heard i c ms = [] := by
  cases ms <;> simp [heard, Client.heard, h.gone]

theorem inTime_of_late (hc : c.Orderly mine) (hms : Proper mine c ms)
    (hlate : v.deadline ≤ c.clock) : v.inTime c ms = [] := by
  rw [inTime, filter_timed_of_late hc hms hlate]
  rfl

/-- What is told while the call waits is heard, and in time if the call looks promptly. -/
theorem heard_cons (ms : List Move) (hthere : c.call? i ≠ none)
    (hgoes : ¬ (m.resumes i = true ∧ v.deadline ≤ c.clock)) :
    v.heard i c (m :: ms) = c.posts v.mailbox m ++ v.heard i (c.apply m) ms ∧
      (v.Prompt i c (m :: ms) → v.Prompt i (c.apply m) ms ∧
        v.inTime c (m :: ms) = c.posts v.mailbox m ++ v.inTime (c.apply m) ms) := by
  have hheard : c.heard i v.mailbox v.deadline (m :: ms) =
      c.timed v.mailbox m ++ (c.apply m).heard i v.mailbox v.deadline ms :=
    if_neg fun h => h.elim (fun hnone => hthere (Option.isNone_iff_eq_none.1 hnone)) hgoes
  have hposts : (c.timed v.mailbox m).map (·.2) = c.posts v.mailbox m := by
    rw [timed, List.map_map]
    exact List.map_id _
  refine ⟨by rw [heard, hheard, List.map_append, hposts, heard], fun hprompt => ?_⟩
  unfold Prompt at hprompt ⊢
  rw [hheard] at hprompt
  refine ⟨fun o ho => hprompt o (List.mem_append_right _ ho), ?_⟩
  have hall : (c.timed v.mailbox m).filter (·.1 < v.deadline) = c.timed v.mailbox m :=
    List.filter_eq_self.2 fun o ho => by simpa using hprompt o (List.mem_append_left _ ho)
  rw [inTime, gather, List.filter_append, List.map_append, hall, hposts, inTime]

/-- The wait of a vigil, with outcomes in its mailbox. -/
def wait (v : Vigil) (listener : Option Nat) (held : Bool) (os : List CommitOutcome) : Wait :=
  ⟨v.id, some v.quorum, v.limit, some v.deadline, listener, some (v.mailbox, os), held⟩

/-- A look at a mailbox after some outcomes were taken without a verdict: the call waits on, with
the deadline ahead and still no verdict, or it ends. -/
theorem lookAt_cases (hpeers : v.quorum.peers ≠ []) {listener : Option Nat} {held : Bool}
    (hw : c.waits[w]? = some (v.wait listener held os)) (htaken : Undecided v.quorum taken)
    (room : Nat) :
    let b := c.modifyWait w (·.drop room)
    let now := taken ++ os.take room
    let looked := c.lookAt i w room v.quorum (counted v.quorum taken) v.payload
    ((c.clock < v.deadline ∧ Undecided v.quorum now) ∧
      looked = b.setCall i (.confirming w v.quorum (counted v.quorum now) v.payload)) ∨
    ∃ r, (if v.deadline ≤ c.clock then Concludes v.id v.quorum v.limit now r
        else Gives v.id v.quorum now r) ∧
      looked = (b.dropWait w).finish i (.closing v.payload r) := by
  intro b now looked
  have hwaits : takeAll v.id v.quorum (.new v.quorum.peers.length) taken =
      .waiting (counted v.quorum taken) :=
    (takeAll_eq_waiting_iff hpeers).2 ⟨rfl, htaken⟩
  -- taking on from the tally is taking everything from the beginning
  have hall : takeAll v.id v.quorum (.new v.quorum.peers.length) now =
      takeAll v.id v.quorum (counted v.quorum taken) (os.take room) := by
    rw [takeAll_append, hwaits]
    rfl
  rcases lookAt_split (i := i) (q := v.quorum) (t := counted v.quorum taken) room v.payload hw rfl
    rfl with ⟨t', htake, hclock, heq⟩ | ⟨r, hlook, heq⟩
  · have htake' := hall.trans htake
    obtain ⟨rfl, hundecided⟩ := (takeAll_eq_waiting_iff hpeers).1 htake'
    exact Or.inl ⟨⟨hclock, hundecided⟩, heq⟩
  · refine Or.inr ⟨r, ?_, heq⟩
    have hlook' : look v.id v.quorum v.limit (.new v.quorum.peers.length) now
        (decide (v.deadline ≤ c.clock)) = .ended r := by
      rw [look_eq, hall, ← look_eq]
      exact hlook
    simpa using ends_of_look hpeers hlook'

/-- A call that ends after its wait was dropped says so, and is over. -/
theorem results_of_finish {b : Client} {result : CallResult}
    (hb : c.apply m = (b.dropWait w).finish i result) (hout : b.outbox = c.outbox)
    (hnamed : i < (c.apply m).nextCall) :
    (Log.of i c m).results = [result] ∧ (c.apply m).Over i := by
  obtain ⟨hsent, hgone, -⟩ := (b.dropWait w).finish_cases i result
  rw [← hb] at hsent hgone
  exact ⟨(log_of_finished (hsent.trans (by rw [(b.dropWait_same w).2.2, hout]))).2.2,
    ⟨hnamed, hgone⟩⟩

/-- The call keeps the vigil: it has taken outcomes without a verdict, and `os` are in its
mailbox. -/
structure Kept (v : Vigil) (i w : Nat) (mine : List Nat) (taken os : List CommitOutcome)
    (c : Client) : Prop where
  named : i < c.nextCall
  own : c.Own i w mine
  undecided : Undecided v.quorum taken
  call : c.call? i = some (.confirming w v.quorum (counted v.quorum taken) v.payload)
  wait : ∃ listener held, c.waits[w]? = some (v.wait listener held os)

theorem Kept.call?_ne (hk : v.Kept i w mine taken os c) : c.call? i ≠ none := by
  simp [hk.call]

theorem Kept.other (hk : v.Kept i w mine taken os c) (hc : c.Orderly mine) (hm : m.Proper mine)
    (hactor : c.actor m ≠ i) :
    v.Kept i w (mine ++ c.made m) taken (os ++ c.posts v.mailbox m) (c.apply m) := by
  obtain ⟨listener, held, hw⟩ := hk.wait
  refine ⟨Nat.lt_of_lt_of_le hk.named (nextCall_le_apply hc.tidy m), hk.own.apply hc hm,
    hk.undecided, (call?_apply hc.tidy hactor).trans hk.call, listener, held, ?_⟩
  rw [hk.own.wait hc hm hactor, hw]
  rfl

/-- A call that keeps a vigil looks: it has taken what it had room for, and keeps the vigil with the
deadline ahead, or ends. -/
theorem Kept.look (hpeers : v.quorum.peers ≠ []) (hk : v.Kept i w mine taken os c)
    (hc : c.Orderly mine) {room : Nat} (hroom : room ≠ 0) :
    let d := Log.of i c (.resume i room)
    d.looks = [⟨c.clock, os.take room, os.drop room⟩] ∧
      ((c.clock < v.deadline ∧ d.results = [] ∧
        v.Kept i w (mine ++ c.made (.resume i room)) (taken ++ os.take room) (os.drop room)
          (c.apply (.resume i room))) ∨
      ∃ r, (if v.deadline ≤ c.clock then Concludes v.id v.quorum v.limit (taken ++ os.take room) r
          else Gives v.id v.quorum (taken ++ os.take room) r) ∧
        d.results = [.closing v.payload r] ∧ (c.apply (.resume i room)).Over i) := by
  intro d
  obtain ⟨listener, held, hw⟩ := hk.wait
  have hnamed := Nat.lt_of_lt_of_le hk.named (nextCall_le_apply hc.tidy (.resume i room))
  have hresume : c.apply (.resume i room) =
      c.lookAt i w room v.quorum (counted v.quorum taken) v.payload := by
    simp only [Client.apply, resume, hk.call, if_neg hroom]
  have hlooks : d.looks = [⟨c.clock, os.take room, os.drop room⟩] := by
    change c.looks i _ = _
    simp only [looks, hk.call, hroom, ne_eq, not_false_eq_true, and_self, if_true, hw]
    rfl
  refine ⟨hlooks, ?_⟩
  rcases lookAt_cases (i := i) hpeers hw hk.undecided room with ⟨hahead, heq⟩ | ⟨r, hr, heq⟩
  · have hb := hresume.trans heq
    have hsent : (c.apply (.resume i room)).outbox = c.outbox ++ [] := by
      rw [hb, List.append_nil]
      rfl
    refine Or.inl ⟨hahead.1, (log_of_waiting hsent (by simp)).2.2, hnamed,
      hk.own.apply hc (proper_of_call? (i := i) rfl), hahead.2, ?_, listener, held, ?_⟩
    · rw [hb]
      exact call?_setCall_self ..
    · rw [hb]
      change (c.waits.modify w (·.drop room))[w]? = _
      rw [List.getElem?_modify_eq, hw]
      rfl
  · exact Or.inr ⟨r, hr, results_of_finish (hresume.trans heq) rfl hnamed⟩

/-- A move in which the call does not look leaves the vigil kept, and at most tells more. -/
theorem Kept.passed (hk : v.Kept i w mine taken os c) (hc : c.Orderly mine) (hm : m.Proper mine)
    (hkeep : m ≠ .abandon i) (hlooks : m.resumes i = false) :
    v.Kept i w (mine ++ c.made m) taken (os ++ c.posts v.mailbox m) (c.apply m) ∧
      (Log.of i c m).results = [] := by
  by_cases hactor : c.actor m = i
  · have hown := call?_of_actor hactor hk.named
    obtain ⟨hsame, hfits⟩ | ⟨rfl, -⟩ | ⟨call, b, hcall, hb, hgoes⟩ := c.call_cases hown
    · rw [hsame, made_of_call? hown, List.append_nil,
        posts_of_no_session v.mailbox (session?_of_call? hown), List.append_nil]
      exact ⟨hk, congrArg Log.results (log_of_not_fits hown hsame hfits)⟩
    · exact absurd rfl hkeep
    · obtain rfl := Option.some.inj (hk.call.symm.trans hcall)
      cases hgoes with
      | looks _ _ _ _ hroom => simp [Move.resumes, hroom] at hlooks
  · exact ⟨hk.other hc hm hactor, congrArg Log.results (log_of_other hc.tidy hactor)⟩

/-- A look that ends the call gives what was taken, and what comes after a verdict or after the
deadline does not count. -/
theorem concludes_of_look {r : Except TransactionFailure Unit}
    (hr : if v.deadline ≤ c.clock then Concludes v.id v.quorum v.limit taken r
      else Gives v.id v.quorum taken r) (later : List CommitOutcome)
    (hlate : v.deadline ≤ c.clock → later = []) :
    Concludes v.id v.quorum v.limit (taken ++ later) r := by
  split_ifs at hr with h
  · rw [hlate h, List.append_nil]
    exact hr
  · exact (hr.append _).concludes

/-- A move after which the call goes on: what was in the mailbox or was told has been taken or is
still there. -/
theorem Settles.cons (os' : List CommitOutcome) (hthere : c.call? i ≠ none)
    (hgoes : ¬ (m.resumes i = true ∧ v.deadline ≤ c.clock))
    (hmail : os ++ c.posts v.mailbox m = (Log.of i c m).taken ++ os')
    (hresults : (Log.of i c m).results = [])
    (hearly : ∀ l ∈ (Log.of i c m).looks, l.time < v.deadline)
    (hs : v.Settles i (taken ++ (Log.of i c m).taken) os' (c.apply m) ms) :
    v.Settles i taken os c (m :: ms) := by
  obtain ⟨hheard, hprompt⟩ := heard_cons ms hthere hgoes
  have hmore (later : List CommitOutcome) : os ++ (c.posts v.mailbox m ++ later) =
      (Log.of i c m).taken ++ (os' ++ later) := by
    rw [← List.append_assoc, hmail, List.append_assoc]
  have hlast : (log i c (m :: ms)).results = (log i (c.apply m) ms).results := by
    rw [log, Log.results_append, hresults, List.nil_append]
  have htaken : taken ++ (log i c (m :: ms)).taken =
      taken ++ (Log.of i c m).taken ++ (log i (c.apply m) ms).taken := by
    rw [log, Log.taken_append, List.append_assoc]
  constructor
  · rw [hlast]
    exact hs.once
  · rw [hheard, hmore, log, Log.taken_append]
    exact (List.prefix_append_right_inj _).2 hs.order
  · rw [hlast, htaken, hheard]
    intro result hresult
    obtain ⟨r, hclosing, hr, hlate, hample⟩ := hs.ended result hresult
    refine ⟨r, hclosing, hr, fun hundecided => ?_, fun h => ?_⟩
    · obtain ⟨l, hl, hl'⟩ := hlate hundecided
      exact ⟨l, List.mem_append_right _ hl, hl'⟩
    · obtain ⟨hall, htime⟩ := hample fun l hl => h l (List.mem_append_right _ hl)
      refine ⟨?_, fun hp => ?_⟩
      · rw [List.append_assoc, hmore]
        simpa using hall
      · obtain ⟨hnext, heq⟩ := hprompt hp
        rw [heq, List.append_assoc, hmore]
        simpa using htime hnext
  · rw [hlast, htaken]
    intro hnone
    obtain ⟨hundecided, hahead⟩ := hs.waiting hnone
    exact ⟨hundecided, fun l hl => (List.mem_append.1 hl).elim (hearly l) (hahead l)⟩

theorem Settles.last {room : Nat} {r : Except TransactionFailure Unit} (hc : c.Orderly mine)
    (hms : Proper mine c (.resume i room :: ms)) (hroom : room ≠ 0) (hthere : c.call? i ≠ none)
    (hlooks : (Log.of i c (.resume i room)).looks = [⟨c.clock, os.take room, os.drop room⟩])
    (hr : if v.deadline ≤ c.clock then Concludes v.id v.quorum v.limit (taken ++ os.take room) r
      else Gives v.id v.quorum (taken ++ os.take room) r)
    (hone : (Log.of i c (.resume i room)).results = [.closing v.payload r])
    (hover : (c.apply (.resume i room)).Over i) :
    v.Settles i taken os c (.resume i room :: ms) := by
  have hlog : log i c (.resume i room :: ms) = Log.of i c (.resume i room) := by
    rw [log, log_of_over (hc.apply hms.1).tidy hover, Log.append_empty]
  have htaken : (Log.of i c (.resume i room)).taken = os.take room := by
    rw [Log.taken, hlooks]
    simp
  have hresumes : (Move.resume i room).resumes i = true := by simp [Move.resumes, hroom]
  -- the call is over, so nothing more is heard
  have hheard : v.heard i c (.resume i room :: ms) = [] := by
    by_cases hlate : v.deadline ≤ c.clock
    · simp [heard, Client.heard, hresumes, hlate]
    · rw [(heard_cons ms hthere fun h => hlate h.2).1, posts_of_no_session v.mailbox rfl,
        List.nil_append, heard_of_over hover]
  have hall (later : List CommitOutcome)
      (hnone : v.deadline ≤ c.clock → os.drop room = [] ∧ later = []) :
      Concludes v.id v.quorum v.limit (taken ++ os ++ later) r := by
    have hlater := concludes_of_look hr (os.drop room ++ later) fun hlate => by
      simp [hnone hlate]
    rwa [← List.append_assoc, List.append_assoc taken, List.take_append_drop] at hlater
  constructor
  · simp [hlog, hone]
  · rw [hlog, htaken, hheard, List.append_nil]
    exact List.take_prefix room os
  · intro result hresult
    rw [hlog] at hresult ⊢
    rw [htaken, hheard]
    refine ⟨r, by simpa [hone] using hresult, ?_, fun hundecided => ?_, fun hample => ?_⟩
    · simpa using concludes_of_look hr [] fun _ => rfl
    · refine ⟨_, hlooks ▸ List.mem_cons_self, Nat.not_lt.1 fun hahead => ?_⟩
      rw [if_neg (Nat.not_le.2 hahead)] at hr
      exact hr.not_undecided hundecided
    · have hleft (hlate : v.deadline ≤ c.clock) : os.drop room = [] :=
        hample _ (hlooks ▸ List.mem_cons_self) hlate
      exact ⟨hall [] fun hlate => ⟨hleft hlate, rfl⟩, fun _ =>
        hall _ fun hlate => ⟨hleft hlate, inTime_of_late hc hms hlate⟩⟩
  · intro hnone
    rw [hlog, hone] at hnone
    cases hnone

/-- A call that keeps a vigil waits on as long as it finds no verdict and the deadline ahead, or it
ends as what it has taken by then says. -/
theorem Kept.settles (hpeers : v.quorum.peers ≠ []) (hk : v.Kept i w mine taken os c)
    (hc : c.Orderly mine) (hms : Proper mine c ms) (hkeep : .abandon i ∉ ms) :
    v.Settles i taken os c ms := by
  induction ms generalizing c mine taken os with
  | nil =>
    refine ⟨Nat.zero_le _, List.nil_prefix, fun _ h => (List.not_mem_nil h).elim, fun _ => ⟨?_, ?_⟩⟩
    · exact (List.append_nil taken).symm ▸ hk.undecided
    · exact fun _ h => (List.not_mem_nil h).elim
  | cons m ms ih =>
    obtain ⟨hm, hrest⟩ : m ≠ .abandon i ∧ .abandon i ∉ ms := by
      simpa [eq_comm] using hkeep
    have hc' := hc.apply hms.1
    cases hresumes : m.resumes i with
    | false =>
      obtain ⟨hk', hnone⟩ := hk.passed hc hms.1 hm hresumes
      have hlooks : (Log.of i c m).looks = [] := looks_of_not_resumes hresumes
      have htaken : (Log.of i c m).taken = [] := by rw [Log.taken, hlooks, List.flatMap_nil]
      refine .cons _ hk.call?_ne (by simp [hresumes]) (by rw [htaken, List.nil_append]) hnone
        (by simp [hlooks]) ?_
      rw [htaken, List.append_nil]
      exact ih hk' hc' hms.2 hrest
    | true =>
      obtain ⟨room, rfl, hroom⟩ : ∃ room, m = .resume i room ∧ room ≠ 0 := by
        cases m <;> simp_all [Move.resumes]
      obtain ⟨hlooks, ⟨hahead, hnone, hk'⟩ | ⟨r, hr, hone, hover⟩⟩ := hk.look hpeers hc hroom
      · have htaken : (Log.of i c (.resume i room)).taken = os.take room := by
          rw [Log.taken, hlooks]
          simp
        refine .cons (os.drop room) hk.call?_ne (fun h => Nat.not_lt.2 h.2 hahead) ?_ hnone
          (by simp [hlooks, hahead]) ?_
        · rw [posts_of_no_session v.mailbox rfl, htaken, List.append_nil, List.take_append_drop]
        · rw [htaken]
          exact ih hk' hc' hms.2 hrest
      · exact .last hc hms hroom hk.call?_ne hlooks hr hone hover

/-- A call that begins to wait asks to be woken at the deadline, and settles the vigil from then
on. -/
theorem Settles.begin (hpeers : v.quorum.peers ≠ []) {mine' : List Nat}
    (hc' : (c.apply m).Orderly mine') (hms : Proper mine' (c.apply m) ms)
    (hkeep : .abandon i ∉ ms) {b : Client} (hb : c.apply m = b.confirm i w v.payload)
    (hout : b.outbox = c.outbox) {queued : List CommitOutcome} {listener : Option Nat} {held : Bool}
    (hw : b.waits[w]? = some (v.wait listener held queued)) (hnamed : i < (c.apply m).nextCall)
    (hown : (c.apply m).Own i w mine') :
    .wakeAt i v.deadline ∈ c.sent m ∧ v.Settles i [] queued (c.apply m) ms := by
  have hb' := hb.trans (confirm_eq v.payload hw rfl rfl rfl)
  have hsent : (c.apply m).outbox = c.outbox ++ [.wakeAt i v.deadline] := by
    rw [hb', ← hout]
    rfl
  refine ⟨by simp [sent_eq hsent], Kept.settles hpeers ⟨hnamed, hown, undecided_nil hpeers, ?_,
    listener, held, ?_⟩ hc' hms hkeep⟩
  · rw [hb']
    exact call?_setCall_self ..
  · rw [hb']
    exact hw

end Vigil

/-! ## Beginnings -/

namespace Client

/-- A wait that nobody has is opened for outcomes, with the deadline counted from now, unless its
quorum has no peers: that is given up. -/
theorem listen_opens {wait : Wait} {q : Quorum} (hw : c.waits[w]? = some wait)
    (hquorum : wait.quorum = some q)
    (hfree : ∀ k call, c.call? k = some call → call.wait? ≠ some w) (hnot : w ∉ mine) :
    let v : Vigil := ⟨wait.id, q, wait.limit, c.clock, c.nextMailbox, none⟩
    (c.apply (.listen w)).waits[w]? = some (if q.peers = [] then { wait with quorum := none }
        else v.wait (some c.nextMailbox) wait.held []) ∧
      ∀ k, (c.apply (.listen w)).Own k w mine := by
  intro v
  have hlisten : c.apply (.listen w) = c.newCall.1.openMailbox c.nextCall w .listening := rfl
  -- either way the call goes on without the wait
  obtain ⟨b, hcalls, hwait, hdeeds⟩ : ∃ b : Client, b.calls = c.calls ∧
      b.waits[w]? = some (if q.peers = [] then { wait with quorum := none }
        else v.wait (some c.nextMailbox) wait.held []) ∧
      Deeds c.nextCall (fun _ => True) (fun _ => True) (fun _ => False) b
        (c.apply (.listen w)) := by
    rcases openMailbox_cases c.newCall.1 c.nextCall .listening hw with
      ⟨hnone, waits, hwait, heq⟩ | ⟨q', hsome, hquorum', waits, hwait, heq⟩
    · have hempty : q.peers = [] := by simpa [hquorum] using hnone
      refine ⟨{ c.newCall.1 with waits }, rfl, hwait.trans (by rw [if_pos hempty]), ?_⟩
      rw [hlisten, heq]
      exact deeds_proceed _ _ (by simp [AfterLink.wait?])
    · obtain rfl := Option.some.inj (hquorum.symm.trans hquorum')
      have hpeers : q.peers ≠ [] := by simpa [hquorum] using (Option.filter_eq_some_iff.1 hsome).2
      refine ⟨{ c.newCall.1 with waits, nextMailbox := c.nextMailbox + 1 }, rfl,
        hwait.trans (by rw [if_neg hpeers, hquorum]; rfl), ?_⟩
      rw [hlisten, heq]
      exact deeds_linkCommit _ trivial trivial _ _ _ (by simp [AfterLink.wait?])
  have hlt : w < b.waits.length := (List.getElem?_eq_some_iff.1 hwait).1
  refine ⟨(Deeds.wait hdeeds id hlt).trans hwait, fun k =>
    ⟨Nat.lt_of_lt_of_le hlt (Deeds.waits_le hdeeds).1, fun k' call _ hcall hcw => ?_, hnot⟩⟩
  have hfree' (hcall : b.call? k' = some call) : False :=
    hfree k' call (call?_of_calls_eq hcalls k' ▸ hcall) hcw
  by_cases hk : k' = c.nextCall
  · subst hk
    rcases Deeds.call_back hdeeds hcall with hcall | ⟨-, hnone⟩
    · exact hfree' hcall
    · exact hnone w hcw
  · exact hfree' (Deeds.call? hdeeds hk ▸ hcall)

theorem confirm_of_no_quorum {wait : Wait} (payload : Option Bytes) (hw : c.waits[w]? = some wait)
    (hquorum : wait.quorum = none) :
    c.confirm i w payload = (c.dropWait w).finish i (.closing payload (.ok ())) := by
  unfold confirm wait?
  rw [hw]
  simp only [hquorum]
  cases payload <;> rfl

/-- The wait is told outcomes from the beginning of the listening on, and it is the call's own when
its confirmation is awaited. -/
theorem awaited_of_listen {before : List Move} {wait : Wait} {q : Quorum} (hc : c.Orderly mine)
    (hms : Proper mine c (.listen w :: (before ++ .awaitConfirmation w :: ms)))
    (hw : c.waits[w]? = some wait) (hquorum : wait.quorum = some q)
    (hfree : ∀ k call, c.call? k = some call → call.wait? ≠ some w)
    (hnot : ∀ m ∈ before ++ ms, m.wait? ≠ some w) :
    let v : Vigil := ⟨wait.id, q, wait.limit, c.clock, c.nextMailbox, none⟩
    let b := c.run (.listen w :: before)
    let b' := b.apply (.awaitConfirmation w)
    b.waits[w]? = some ((if q.peers = [] then { wait with quorum := none }
        else v.wait (some c.nextMailbox) wait.held []).told
          fun n => gather (posts n) c (.listen w :: before)) ∧
      b.nextCall < b'.nextCall ∧
      ∃ mine', b'.Orderly mine' ∧ Proper mine' b' ms ∧ b'.Own b.nextCall w mine' := by
  intro v b b'
  obtain ⟨hlisten, hrest⟩ := hms
  let c₁ := c.apply (.listen w)
  let known := mine ++ c.made (.listen w)
  have hc₁ : c₁.Orderly known := hc.apply hlisten
  obtain ⟨hbefore, hawait, hafter⟩ := proper_append hrest
  have hb : b.Orderly (known ++ gather made c₁ before) := hc₁.run hbefore
  -- nobody but the call has the wait, so it is left out of those of the application
  let others := known.filter (· ≠ w)
  have hothers : ∀ u ∈ others, u ∈ known := fun u hu => List.mem_of_mem_filter hu
  have hleft : ∀ u ∈ known, u ≠ w → u ∈ others := fun u hu hne =>
    List.mem_filter.2 ⟨hu, by simpa using hne⟩
  have hout : w ∉ others := by simp [others]
  obtain ⟨hopened, hunowned⟩ := listen_opens hw hquorum hfree hout
  obtain ⟨htold, hown⟩ := run_of_unowned (hc₁.mono hothers) hunowned
    (hbefore.without (fun m hm => hnot m (List.mem_append_left _ hm)) hleft) hopened
  have hdeeds : Deeds (b.actor (.awaitConfirmation w)) _ _ _ b b' := deeds_apply b rfl rfl
  refine ⟨htold, nextCall_lt_of_isCall hb.tidy rfl, others ++ gather made c₁ before,
    (hb.apply hawait).mono fun u hu => ?_, hafter.without (fun m hm =>
      hnot m (List.mem_append_right _ hm)) fun u hu hne => ?_, .of_deeds hdeeds (hown _)⟩
  · refine List.mem_append_left _ ?_
    rcases List.mem_append.1 hu with hu | hu
    · exact List.mem_append_left _ (hothers u hu)
    · exact List.mem_append_right _ hu
  · rcases List.mem_append.1 hu with hu | hu
    · rcases List.mem_append.1 hu with hu | hu
      · exact List.mem_append_left _ (hleft u hu hne)
      · exact List.mem_append_right _ hu
    · cases hu

/-- A call that waits for confirmation asks to be woken at its deadline, which counts from the
beginning of the listening, and takes what its mailbox was told since then, in the order in which it
was told; what was told before the wait began is queued, however late that is. The call ends with
the first verdict of what it has taken by its first look at the deadline or later, and if there is
none, it is timed out after the whole limit, for the peers that reported none of it. If that look
has room for all that is left, what counts is everything that was queued and everything that came
before the deadline. This is so for a wait of the application that is listened on and then awaited,
and for a submitted transaction, whose listening begins when it is endorsed and which begins to wait
when it was accepted for ordering. A quorum without peers is not listened on, and confirms at once.
-/
theorem settled_by_what_was_taken (channel : Channel) (identity : Identity) (options : Options)
    (past : List Move) :
    let c₀ := (new channel identity options).run past
    (∀ (w : Nat) (wait : Wait) (q : Quorum) (before ms : List Move),
      let c := c₀.run (.listen w :: before)
      let i := c.nextCall
      let c' := c.apply (.awaitConfirmation w)
      let v : Vigil := ⟨wait.id, q, wait.limit, c₀.clock, c₀.nextMailbox, none⟩
      Proper [] (new channel identity options)
        (past ++ .listen w :: (before ++ .awaitConfirmation w :: ms)) →
      c₀.waits[w]? = some wait → wait.quorum = some q →
      (∀ k call, c₀.call? k = some call → call.wait? ≠ some w) →
      (∀ m ∈ before ++ ms, m.wait? ≠ some w) → .abandon i ∉ ms →
      (q.peers ≠ [] → .wakeAt i v.deadline ∈ c.sent (.awaitConfirmation w) ∧
        v.Settles i [] (gather (posts v.mailbox) c₀ (.listen w :: before)) c' ms) ∧
      (q.peers = [] → (log i c (.awaitConfirmation w :: ms)).results = [.confirmed (.ok ())])) ∧
    ∀ (inv : Invocation) (q : Quorum) (before ms : List Move) (r : OrderRequest) (payload : Bytes)
      (w : Nat) (route : OrderRoute) (reply : OrderReply),
      let i := c₀.nextCall
      let c := c₀.run (.submit inv :: before)
      let h := log i c₀ (.submit inv :: before)
      Proper [] (new channel identity options)
        (past ++ .submit inv :: (before ++ .ordered i (.ok reply) :: ms)) →
      c₀.awaited inv = some q → c.call? i = some (.ordering r payload w route) →
      reply.isAccepted = true → .abandon i ∉ ms →
      ∃ time n, Endorsed c₀ inv h time r payload ∧ c.mailboxOf? w = some n ∧
        let v : Vigil := ⟨inv.id, q, c₀.options.commitTimeout, time, n, some payload⟩
        .wakeAt i v.deadline ∈ c.sent (.ordered i (.ok reply)) ∧
          v.Settles i [] h.reports (c.apply (.ordered i (.ok reply))) ms := by
  intro c₀
  let known := gather made (new channel identity options) past
  have horderly {rest : List Move}
      (proper : Proper [] (new channel identity options) (past ++ rest)) :
      c₀.Orderly known ∧ Proper known c₀ rest := by
    obtain ⟨hpast, hrest⟩ := proper_append proper
    exact ⟨(orderly_new channel identity options).run hpast, hrest⟩
  constructor
  · intro w wait q before ms c i c' v proper hw hquorum hfree hnot hkeep
    obtain ⟨hc₀, hms⟩ := horderly proper
    obtain ⟨htold, hnamed, mine', hc', hms', hown⟩ :=
      awaited_of_listen hc₀ hms hw hquorum hfree hnot
    constructor
    · intro hpeers
      rw [if_neg hpeers] at htold
      exact Vigil.Settles.begin (b := c.newCall.1) hpeers hc' hms' hkeep rfl rfl htold hnamed hown
    · intro hempty
      rw [if_pos hempty] at htold
      have hconfirm : c' = (c.newCall.1.dropWait w).finish i (.confirmed (.ok ())) :=
        confirm_of_no_quorum none htold rfl
      obtain ⟨hone, hover⟩ := Vigil.results_of_finish hconfirm rfl hnamed
      rw [log, Log.results_append, hone, log_of_over hc'.tidy hover]
      rfl
  · intro inv q before ms r payload w route reply i c h proper hawaited hcall haccepted hkeep
    obtain ⟨hc₀, hrest⟩ := horderly proper
    rw [← List.cons_append] at hrest
    obtain ⟨hbefore, hordered, hms⟩ := proper_append hrest
    have hc := hc₀.run hbefore
    obtain ⟨hstage, -, hnamed⟩ := Stage.submitted hc₀ hbefore
    cases hstage with
    | @ordering time n w' r' payload' route' sent =>
      obtain ⟨rfl, rfl, rfl, rfl⟩ : r = r' ∧ payload = payload' ∧ w = w' ∧ route = route' := by
        simpa using hcall.symm.trans sent.call
      have hwait := sent.wait
      rw [hawaited] at hwait
      have hmailbox : c.mailboxOf? w = some n := by
        rw [mailboxOf?, hwait]
        rfl
      have hconfirm : c.apply (.ordered i (.ok reply)) = c.confirm i w (some payload) :=
        (sent.apply_eq (.ok reply)).trans (if_pos haccepted)
      exact ⟨time, n, sent.endorsed, hmailbox, Vigil.Settles.begin (awaited_peers hawaited)
        (hc.apply hordered) hms hkeep hconfirm rfl hwait
        (Nat.lt_of_lt_of_le hnamed (nextCall_le_apply hc.tidy _)) (sent.own.apply hc hordered)⟩
    | endorsing call => cases hcall.symm.trans call
    | linking call => cases hcall.symm.trans call
    | confirming call => cases hcall.symm.trans call
    | ended call => cases hcall.symm.trans call

/-- Both peers report the transaction while it is ordered, and the deadline passes meanwhile. -/
def orderedLate : List Move :=
  [.endorsed 0 (.ok (Answer.collect (.ofMillis 30000) answering)), .requestStream 0,
    .requestStream 1, .streamOpened 0, .streamOpened 1, .resume 0 128, .blockArrived 0 blockOfTx,
    .takeNext 0, .blockArrived 1 blockOfTx, .takeNext 1, .tick 400000]

/-- The streams of both peers are open, and some time passes. -/
def openedForBoth : List Move :=
  [.requestStream 0, .requestStream 1, .streamOpened 0, .streamOpened 1, .resume 0 128, .tick 400]

/-- The first peer reports the transaction, the second does not, and the deadline comes. -/
def reportedByOne : List Move :=
  [.blockArrived 0 blockOfTx, .takeNext 0, .resume 1 128, .tick 600, .resume 1 128]

/-- The transaction that was accepted after the deadline is confirmed by what was queued. The other
wait is timed out at its deadline for the peer that has not reported. -/
theorem confirmed_late_and_timed_out :
    (let c₀ := new twoByTwo ⟨"org", []⟩ .default
      let c := c₀.run (.submit calling :: orderedLate)
      let c' := c.apply (.ordered 0 (.ok ⟨OrderReply.accepted, ""⟩))
      let queued := (log 0 c₀ (.submit calling :: orderedLate)).reports
      ∃ q n, let v : Vigil := ⟨⟨"tx"⟩, q, .ofMillis 300000, 0, n, some [42]⟩
        v.deadline ≤ c.clock ∧ queued.length = 2 ∧
        v.Settles 0 [] queued c' [.resume 0 128] ∧
        Confirmation.Concludes v.id v.quorum v.limit queued (.ok ())) ∧
    (let c₀ := (new twoByTwo ⟨"org", []⟩ .default).run
        [.newWait ⟨"tx"⟩ (some ⟨.all, twoByTwo.peers⟩) (.ofMillis 1000)]
      let c' := (c₀.run (.listen 0 :: openedForBoth)).apply (.awaitConfirmation 0)
      let v : Vigil := ⟨⟨"tx"⟩, ⟨.all, twoByTwo.peers⟩, .ofMillis 1000, 0, 0, none⟩
      v.Settles 1 [] [] c' reportedByOne ∧ v.Prompt 1 c' reportedByOne ∧
        (v.inTime c' reportedByOne).length = 1 ∧
        Confirmation.Concludes v.id v.quorum v.limit (v.inTime c' reportedByOne)
          (.error (.confirmationTimedOut ⟨"tx"⟩ (.ofMillis 1000) ["p2"]))) := by
  constructor
  · intro c₀ c c' queued
    have hproper : Proper [] c₀ ([] ++ .submit calling :: (orderedLate ++
        [.ordered 0 (.ok ⟨OrderReply.accepted, ""⟩), .resume 0 128])) := by decide +kernel
    have hawaited : (c₀.awaited calling).isSome = true := by decide +kernel
    obtain ⟨q, hq⟩ := Option.isSome_iff_exists.1 hawaited
    have hreplies : c.repliesTo 0 (.ordered 0 (.ok ⟨OrderReply.accepted, ""⟩)) ≠ [] := by
      rw [ne_eq, ← List.isEmpty_iff]
      decide +kernel
    obtain ⟨r, payload, w, route, hcall⟩ : ∃ r payload w route,
        c.call? 0 = some (.ordering r payload w route) := by
      unfold repliesTo at hreplies
      split at hreplies
      · next hcall => exact ⟨_, _, _, _, hcall⟩
      · exact absurd rfl hreplies
    obtain ⟨time, n, he, -, -, hsettles⟩ :=
      (settled_by_what_was_taken twoByTwo ⟨"org", []⟩ .default []).2 calling q orderedLate
        [.resume 0 128] r payload w route ⟨OrderReply.accepted, ""⟩ hproper hq hcall rfl (by simp)
    have htimes : (log 0 c₀ (.submit calling :: orderedLate)).answers.map (·.1) = [0] := by
      decide +kernel
    obtain ⟨answers, hanswers, -⟩ := he.answers
    obtain rfl : 0 = time := by
      simpa using htimes.symm.trans (congrArg (List.map (·.1)) hanswers)
    have hresult : .answered (.ok [42]) ∈ (log 0 c' [.resume 0 128]).results := by decide +kernel
    have hample (deadline : Nat) : (log 0 c' [.resume 0 128]).Ample deadline := by
      have hleft : ∀ l ∈ (log 0 c' [.resume 0 128]).looks, l.left = [] := by decide +kernel
      exact fun l hl _ => hleft l hl
    have hheard (v : Vigil) : v.heard 0 c' [.resume 0 128] = [] := by
      have hnone : c'.timed v.mailbox (.resume 0 128) = [] := by
        rw [timed, posts_of_no_session v.mailbox rfl, List.map_nil]
      simp [Vigil.heard, Client.heard, hnone]
    obtain ⟨result, hclosing, -, -, hconcludes⟩ := hsettles.ended _ hresult
    cases result with
    | error e => cases hclosing
    | ok _ =>
      obtain rfl : [42] = payload := by simpa [CallResult.closing, Except.map] using hclosing
      let v : Vigil := ⟨⟨"tx"⟩, q, .ofMillis 300000, 0, n, some [42]⟩
      have hcounted : Concludes v.id v.quorum v.limit
          ([] ++ queued ++ v.heard 0 c' [.resume 0 128]) (.ok ()) := (hconcludes (hample _)).1
      rw [hheard, List.nil_append, List.append_nil] at hcounted
      refine ⟨q, n, ?_, by decide +kernel, hsettles, hcounted⟩
      change 0 + (Duration.ofMillis 300000).ceilMillis ≤ c.clock
      decide +kernel
  · intro c₀ c' v
    have hproper : Proper [] (new twoByTwo ⟨"org", []⟩ .default)
        ([.newWait ⟨"tx"⟩ (some ⟨.all, twoByTwo.peers⟩) (.ofMillis 1000)] ++ .listen 0 ::
          (openedForBoth ++ .awaitConfirmation 0 :: reportedByOne)) := by decide +kernel
    have hnot : ∀ m ∈ openedForBoth ++ reportedByOne, m.wait? ≠ some 0 := by decide +kernel
    have hkeep : .abandon 1 ∉ reportedByOne := by simp [reportedByOne]
    obtain ⟨-, hsettles⟩ : _ ∧ v.Settles 1 [] [] c' reportedByOne :=
      ((settled_by_what_was_taken twoByTwo ⟨"org", []⟩ .default
        [.newWait ⟨"tx"⟩ (some ⟨.all, twoByTwo.peers⟩) (.ofMillis 1000)]).1 0 _ _ openedForBoth _
        hproper rfl rfl (fun k call hcall => by cases hcall) hnot hkeep).1 (by decide +kernel)
    have hprompt : v.Prompt 1 c' reportedByOne := by
      unfold Vigil.Prompt
      decide +kernel
    have hresult : .confirmed (.error (.confirmationTimedOut ⟨"tx"⟩ (.ofMillis 1000) ["p2"])) ∈
        (log 1 c' reportedByOne).results := by decide +kernel
    have hample : (log 1 c' reportedByOne).Ample v.deadline := by
      have hleft : ∀ l ∈ (log 1 c' reportedByOne).looks, l.left = [] := by decide +kernel
      exact fun l hl _ => hleft l hl
    obtain ⟨result, hclosing, -, -, hconcludes⟩ := hsettles.ended _ hresult
    obtain rfl : _ = result := by injection hclosing
    have hcounted := (hconcludes hample).2 hprompt
    rw [List.nil_append, List.nil_append] at hcounted
    exact ⟨hsettles, hprompt, by decide +kernel, hcounted⟩

/-- The first peer reports often in time and the second peer after it, the deadline passes before
the wait begins, and the first look has no room for the report of the second peer: it is lost to the
deadline, though it was queued before and confirms the transaction. -/
theorem left_behind_at_the_deadline :
    let past : List Move := [.newWait ⟨"tx"⟩ (some ⟨.all, twoByTwo.peers⟩) (.ofMillis 1000)]
    let c₀ := (new twoByTwo ⟨"org", []⟩ .default).run past
    let before : List Move := .listen 0 :: (openedForBoth ++ crowded ++ [.tick 1000])
    let c' := (c₀.run before).apply (.awaitConfirmation 0)
    let v : Vigil := ⟨⟨"tx"⟩, ⟨.all, twoByTwo.peers⟩, .ofMillis 1000, 0, 0, none⟩
    let queued := gather (posts v.mailbox) c₀ before
    Proper [] (new twoByTwo ⟨"org", []⟩ .default)
        (past ++ before ++ [.awaitConfirmation 0, .resume 1 128]) ∧
      (gather (timed v.mailbox) c₀ before).all (·.1 < v.deadline) = true ∧
      Gives v.id v.quorum queued (.ok ()) ∧ queued.length = 129 ∧
      (log 1 c' [.resume 1 128]).taken.length = 128 ∧
      (log 1 c' [.resume 1 128]).results =
        [.confirmed (.error (.confirmationTimedOut ⟨"tx"⟩ (.ofMillis 1000) ["p2"]))] := by
  intro past c₀ before c' v queued
  have hall : takeAll v.id v.quorum (.new v.quorum.peers.length) queued = .ended (.ok ()) := by
    decide +kernel
  refine ⟨?_, ?_, (takeAll_eq_ended_iff_gives (by simp [v, twoByTwo])).1 hall, ?_, ?_, ?_⟩ <;>
    decide +kernel

end Client

end Vigils

end LedgerClient
