import LedgerClient.Proofs.Interleavings

/-!
# What a look comes to

Outcomes are undecided as long as no commit is invalid and the rule waits; the first outcome after
which they are not gives the verdict. A look ends with the verdict of the outcomes that are there,
and only if there is none, and the deadline has passed, is the wait timed out: for the peers that
have reported none of them (`Confirmation.ends_of_look`).
-/

namespace LedgerClient

namespace Confirmation

variable {id : TransactionId} {q : Quorum} {limit : Duration} {os : List CommitOutcome}
  {r : Except TransactionFailure Unit}

/-- The names of the peers of a quorum, as it lists them. -/
def listed (q : Quorum) : List String := q.peers.map (·.name)

/-- Nothing is decided by the outcomes: no commit is invalid, and the rule waits after each. -/
structure Undecided (q : Quorum) (os : List CommitOutcome) : Prop where
  valid : ∀ c, .ok c ∈ os → c.code.isValid = true
  pending : ∀ fewer, fewer <+: os → q.rule.decide (counted q fewer) = .pending

/-- The first verdict that the outcomes give, one after the other: an invalid commit is a verdict at
once, any other outcome if the rule decides when it has been counted. -/
inductive Gives (id : TransactionId) (q : Quorum) (os : List CommitOutcome) :
    Except TransactionFailure Unit → Prop
  | invalid {taken later : List CommitOutcome} {c : Commit} (order : os = taken ++ .ok c :: later)
      (undecided : Undecided q taken) (invalid : c.code.isValid = false) :
      Gives id q os (.error (.invalidated id c.peer c.code))
  | committed {taken later : List CommitOutcome} {o : CommitOutcome}
      (order : os = taken ++ o :: later) (undecided : Undecided q taken)
      (valid : ∀ c, o = .ok c → c.code.isValid = true)
      (decided : q.rule.decide (counted q (taken ++ [o])) = .committed) : Gives id q os (.ok ())
  | failed {taken later : List CommitOutcome} {o : CommitOutcome}
      (order : os = taken ++ o :: later) (undecided : Undecided q taken)
      (valid : ∀ c, o = .ok c → c.code.isValid = true)
      (decided : q.rule.decide (counted q (taken ++ [o])) = .failed) :
      Gives id q os (.error (.unconfirmed id (counted q (taken ++ [o])).faults))

/-- What a wait comes to on the outcomes that count: their first verdict, and exactly if they give
none, a timeout, which names the peers, as the quorum lists them, that reported none of them. -/
structure Concludes (id : TransactionId) (q : Quorum) (limit : Duration) (os : List CommitOutcome)
    (r : Except TransactionFailure Unit) : Prop where
  verdict : ¬ Undecided q os → Gives id q os r
  timedOut : (∃ names, r = .error (.confirmationTimedOut id limit names)) ↔ Undecided q os
  pending : ∀ names, r = .error (.confirmationTimedOut id limit names) →
    names = (listed q).filter fun name => name ∉ os.map Tally.reporter

/-! ## Undecided outcomes -/

theorem undecided_nil (hpeers : q.peers ≠ []) : Undecided q [] := by
  have hpos : ¬ q.peers.length ≤ 0 := by simpa using hpeers
  refine ⟨fun _ hc => (List.not_mem_nil hc).elim, fun fewer hfewer => ?_⟩
  obtain rfl := List.prefix_nil.1 hfewer
  cases q.rule <;>
    simp [QuorumRule.decide, counted, Tally.recordAll, Tally.new, Tally.isComplete, hpos]

theorem undecided_concat {o : CommitOutcome} : Undecided q (os ++ [o]) ↔ Undecided q os ∧
    (∀ c, o = .ok c → c.code.isValid = true) ∧
      q.rule.decide (counted q (os ++ [o])) = .pending := by
  constructor
  · intro h
    exact ⟨⟨fun c hc => h.valid c (List.mem_append_left _ hc),
      fun fewer hfewer => h.pending fewer (hfewer.trans (List.prefix_append _ _))⟩,
      fun c hc => h.valid c (by simp [hc]), h.pending _ (List.prefix_refl _)⟩
  · rintro ⟨h, hvalid, hpending⟩
    refine ⟨fun c hc => ?_, fun fewer hfewer => ?_⟩
    · rcases List.mem_append.1 hc with hc | hc
      · exact h.valid c hc
      · exact hvalid c (List.mem_singleton.1 hc).symm
    · rcases List.prefix_concat_iff.1 hfewer with rfl | hfewer
      · exact hpending
      · exact h.pending fewer hfewer

/-! ## Taking outcomes -/

theorem judge_eq_waiting_iff {t t' : Tally} :
    take.judge id q t = .waiting t' ↔ t' = t ∧ q.rule.decide t = .pending := by
  unfold take.judge
  cases q.rule.decide t <;> simp [eq_comm (a := t')]

/-- A wait goes on with an outcome that is no invalid commit if the rule waits when it has been
counted. -/
theorem take_eq_waiting_iff {t t' : Tally} {o : CommitOutcome} : take id q t o = .waiting t' ↔
    (∀ c, o = .ok c → c.code.isValid = true) ∧ t' = (t.record o).1 ∧
      q.rule.decide (t.record o).1 = .pending := by
  cases o with
  | error f =>
    change take.judge id q _ = _ ↔ _
    simp [judge_eq_waiting_iff]
  | ok c =>
    unfold take
    cases hvalid : c.code.isValid <;> simp [hvalid, judge_eq_waiting_iff]

theorem takeAll_singleton (t : Tally) (o : CommitOutcome) :
    takeAll id q t [o] = take id q t o := by
  rw [takeAll_cons]
  cases take id q t o <;> rfl

theorem andThen_eq_waiting_iff {c : Confirmation} {go : Tally → Confirmation} {t : Tally} :
    c.andThen go = .waiting t ↔ ∃ t', c = .waiting t' ∧ go t' = .waiting t := by
  cases c <;> simp [andThen]

/-- A wait goes on as long as nothing is decided. -/
theorem takeAll_eq_waiting_iff (hpeers : q.peers ≠ []) {t : Tally} :
    takeAll id q (.new q.peers.length) os = .waiting t ↔ t = counted q os ∧ Undecided q os := by
  induction os using List.reverseRecOn generalizing t with
  | nil =>
    change Confirmation.waiting (counted q []) = .waiting t ↔ _
    simp [undecided_nil hpeers, eq_comm (a := t)]
  | append_singleton os o ih =>
    simp only [takeAll_append, andThen_eq_waiting_iff, takeAll_singleton, take_eq_waiting_iff, ih,
      undecided_concat, counted_concat]
    constructor
    · rintro ⟨_, ⟨rfl, hundecided⟩, hvalid, rfl, hpending⟩
      exact ⟨rfl, hundecided, hvalid, hpending⟩
    · rintro ⟨rfl, hundecided, hvalid, hpending⟩
      exact ⟨_, ⟨rfl, hundecided⟩, hvalid, rfl, hpending⟩

/-- A wait ends with the outcome at which it was still going on. -/
theorem takeAll_eq_ended_iff {t : Tally} {os : List CommitOutcome}
    {r : Except TransactionFailure Unit} :
    takeAll id q t os = .ended r ↔ ∃ taken o later t', os = taken ++ o :: later ∧
      takeAll id q t taken = .waiting t' ∧ take id q t' o = .ended r := by
  induction os generalizing t with
  | nil =>
    refine iff_of_false (fun h => by cases h) ?_
    rintro ⟨taken, o, later, t', heq, -⟩
    simp at heq
  | cons o os ih =>
    rw [takeAll_cons]
    cases htake : take id q t o with
    | ended r' =>
      constructor
      · intro h
        obtain rfl : r' = r := by injection h
        exact ⟨[], o, os, t, rfl, rfl, htake⟩
      · rintro ⟨taken, o', later, t', heq, hwaits, hended⟩
        cases taken with
        | nil =>
          obtain ⟨rfl, rfl⟩ := List.cons.inj heq
          obtain rfl : t = t' := by injection hwaits
          exact htake.symm.trans hended
        | cons o'' taken =>
          obtain ⟨rfl, rfl⟩ := List.cons.inj heq
          rw [takeAll_cons, htake] at hwaits
          cases hwaits
    | waiting t₁ =>
      change takeAll id q t₁ os = _ ↔ _
      rw [ih]
      constructor
      · rintro ⟨taken, o', later, t', rfl, hwaits, hended⟩
        refine ⟨o :: taken, o', later, t', rfl, ?_, hended⟩
        rw [takeAll_cons, htake]
        exact hwaits
      · rintro ⟨taken, o', later, t', heq, hwaits, hended⟩
        cases taken with
        | nil =>
          obtain ⟨rfl, rfl⟩ := List.cons.inj heq
          obtain rfl : t = t' := by injection hwaits
          rw [htake] at hended
          cases hended
        | cons o'' taken =>
          obtain ⟨rfl, rfl⟩ := List.cons.inj heq
          rw [takeAll_cons, htake] at hwaits
          exact ⟨taken, o', later, t', rfl, hwaits, hended⟩

theorem judge_eq_ended_iff {t : Tally} : take.judge id q t = .ended r ↔
    (q.rule.decide t = .committed ∧ r = .ok ()) ∨
      (q.rule.decide t = .failed ∧ r = .error (.unconfirmed id t.faults)) := by
  unfold take.judge
  cases q.rule.decide t <;> simp [eq_comm (a := r)]

/-- An outcome is a verdict if it is an invalid commit, or if the rule decides when it has been
counted. -/
theorem take_eq_ended_iff {t : Tally} {o : CommitOutcome} : take id q t o = .ended r ↔
    (∃ c, o = .ok c ∧ c.code.isValid = false ∧ r = .error (.invalidated id c.peer c.code)) ∨
      (∀ c, o = .ok c → c.code.isValid = true) ∧ take.judge id q (t.record o).1 = .ended r := by
  cases o with
  | error f =>
    change take.judge id q _ = _ ↔ _
    simp
  | ok c =>
    unfold take
    cases hvalid : c.code.isValid <;> simp [hvalid, eq_comm (a := r)]

theorem takeAll_eq_ended_iff_gives (hpeers : q.peers ≠ []) :
    takeAll id q (.new q.peers.length) os = .ended r ↔ Gives id q os r := by
  rw [takeAll_eq_ended_iff]
  constructor
  · rintro ⟨taken, o, later, t, horder, hwaits, hended⟩
    obtain ⟨rfl, hundecided⟩ := (takeAll_eq_waiting_iff hpeers).1 hwaits
    rcases take_eq_ended_iff.1 hended with ⟨c, rfl, hinvalid, rfl⟩ | ⟨hvalid, hjudge⟩
    · exact .invalid horder hundecided hinvalid
    · rw [← counted_concat] at hjudge
      rcases judge_eq_ended_iff.1 hjudge with ⟨hdecide, rfl⟩ | ⟨hdecide, rfl⟩
      · exact .committed horder hundecided hvalid hdecide
      · exact .failed horder hundecided hvalid hdecide
  · have htaken {taken : List CommitOutcome} (hundecided : Undecided q taken) :
        takeAll id q (.new q.peers.length) taken = .waiting (counted q taken) :=
      (takeAll_eq_waiting_iff hpeers).2 ⟨rfl, hundecided⟩
    rintro (⟨horder, hundecided, hinvalid⟩ | ⟨horder, hundecided, hvalid, hdecide⟩ |
      ⟨horder, hundecided, hvalid, hdecide⟩)
    · exact ⟨_, _, _, _, horder, htaken hundecided,
        take_eq_ended_iff.2 (Or.inl ⟨_, rfl, hinvalid, rfl⟩)⟩
    all_goals
      refine ⟨_, _, _, _, horder, htaken hundecided, take_eq_ended_iff.2 (Or.inr ⟨hvalid, ?_⟩)⟩
      rw [← counted_concat]
      refine judge_eq_ended_iff.2 ?_
    · exact Or.inl ⟨hdecide, rfl⟩
    · exact Or.inr ⟨hdecide, rfl⟩

/-! ## Looks -/

theorem Gives.not_undecided (h : Gives id q os r) : ¬ Undecided q os := by
  rintro ⟨hvalid, hpending⟩
  have hdecided {taken later : List CommitOutcome} {o : CommitOutcome}
      (horder : os = taken ++ o :: later) : q.rule.decide (counted q (taken ++ [o])) = .pending :=
    hpending _ ⟨later, by simp [horder]⟩
  cases h with
  | invalid order _ invalid =>
    rw [hvalid _ (order ▸ List.mem_append_right _ List.mem_cons_self)] at invalid
    cases invalid
  | committed order _ _ decided =>
    rw [hdecided order] at decided
    cases decided
  | failed order _ _ decided =>
    rw [hdecided order] at decided
    cases decided

/-- What comes after a verdict does not change it. -/
theorem Gives.append (h : Gives id q os r) (later : List CommitOutcome) :
    Gives id q (os ++ later) r := by
  cases h with
  | invalid order undecided invalid =>
    exact .invalid (order ▸ List.append_assoc ..) undecided invalid
  | committed order undecided valid decided =>
    exact .committed (order ▸ List.append_assoc ..) undecided valid decided
  | failed order undecided valid decided =>
    exact .failed (order ▸ List.append_assoc ..) undecided valid decided

theorem Gives.concludes (h : Gives id q os r) : Concludes id q limit os r := by
  have hno {names : List String} : r ≠ .error (.confirmationTimedOut id limit names) := by
    rintro rfl
    cases h
  exact ⟨fun _ => h, iff_of_false (fun ⟨_, hr⟩ => hno hr) h.not_undecided,
    fun _ hr => absurd hr hno⟩

theorem Undecided.concludes (h : Undecided q os) : Concludes id q limit os
    (.error (.confirmationTimedOut id limit
      ((listed q).filter fun name => name ∉ os.map Tally.reporter))) := by
  refine ⟨fun hno => absurd h hno, iff_of_true ⟨_, rfl⟩ h, fun names hr => ?_⟩
  simp only [Except.error.injEq, TransactionFailure.confirmationTimedOut.injEq, true_and] at hr
  exact hr.symm

theorem pending_counted : (counted q os).pending (listed q) =
    (listed q).filter fun name => name ∉ os.map Tally.reporter := by
  refine List.filter_congr fun name _ => ?_
  simp [Tally.mem_reported_new]

/-- A look that finds the deadline passed ends the wait, and any other only with a verdict. -/
theorem ends_of_look (hpeers : q.peers ≠ []) {passed : Bool}
    (h : look id q limit (.new q.peers.length) os passed = .ended r) :
    if passed then Concludes id q limit os r else Gives id q os r := by
  rw [look_eq] at h
  cases htake : takeAll id q (.new q.peers.length) os with
  | ended r' =>
    rw [htake] at h
    obtain rfl : r' = r := by injection h
    have hgives := (takeAll_eq_ended_iff_gives hpeers).1 htake
    split_ifs
    · exact hgives.concludes
    · exact hgives
  | waiting t =>
    obtain ⟨rfl, hundecided⟩ := (takeAll_eq_waiting_iff hpeers).1 htake
    rw [htake] at h
    change meet id q limit passed (counted q os) = _ at h
    cases passed with
    | false => cases h
    | true =>
      obtain rfl : Except.error (expired id q limit (counted q os)) = r := by injection h
      change Concludes id q limit os
        (.error (.confirmationTimedOut id limit ((counted q os).pending (listed q))))
      rw [pending_counted]
      exact hundecided.concludes

end Confirmation

end LedgerClient
