import LedgerClient.Proofs.Confirmations
import Mathlib.Data.List.Nodup
import Mathlib.Data.List.Dedup
import Mathlib.Data.List.Induction

/-!
# What a tally holds

Of all that a tally is offered it holds the first outcome of each peer (`Tally.recordAll_eq`),
commits and faults apart, in the order in which they came.  Both rules read two facts off a tally,
whether it holds a commit and whether it is complete, and neither fact passes away; so a commit
stays a commit, whoever reports later (`QuorumRule.decide_recordAll_of_committed`).  A failure stays
a failure because a complete tally takes nothing more, if no more peers report than it expects
(`Tally.recordAll_of_complete`); here the number of names counts.  Together:
`Tally.keeps_first_reports`.
-/

namespace LedgerClient

/-- The number of different peers that reported. -/
def Confirmation.distinct (os : List CommitOutcome) : Nat := (os.map Tally.reporter).dedup.length

namespace Tally

variable {expected : Nat} {t : Tally} {os more : List CommitOutcome} {o : CommitOutcome}

/-! ## Everything that is counted -/

/-- The commits among outcomes. -/
def commitsIn (os : List CommitOutcome) : List Commit := os.filterMap fun o => o.toOption

/-- The faults among outcomes. -/
def faultsIn (os : List CommitOutcome) : List PeerFault :=
  os.filterMap fun o => match o with | .ok _ => none | .error f => some f

theorem recordAll_append (t : Tally) (os os' : List CommitOutcome) :
    t.recordAll (os ++ os') = (t.recordAll os).recordAll os' := List.foldl_append

theorem recordAll_concat (t : Tally) (os : List CommitOutcome) (o : CommitOutcome) :
    t.recordAll (os ++ [o]) = ((t.recordAll os).record o).1 := t.recordAll_append os [o]

/-- A tally holds the first outcome of each peer. -/
theorem recordAll_eq (t : Tally) (os : List CommitOutcome) :
    t.recordAll os = ⟨t.expected, t.reported ++ (firsts t.reported os).map reporter,
      t.commits ++ commitsIn (firsts t.reported os),
      t.faults ++ faultsIn (firsts t.reported os)⟩ := by
  induction os generalizing t with
  | nil => simp [recordAll, firsts, commitsIn, faultsIn]
  | cons o os ih =>
    change (t.record o).1.recordAll os = _
    rw [ih, firsts]
    split_ifs with ho
    · rw [record_of_mem ho]
    · rw [reported_record_of_not_mem ho]
      unfold record
      rw [if_neg ho]
      cases o <;>
        simp [commitsIn, faultsIn, Except.toOption, List.append_assoc]

theorem nodup_reporters_firsts (seen : List String) (os : List CommitOutcome) :
    ((firsts seen os).map reporter).Nodup := by
  induction os generalizing seen with
  | nil => exact List.nodup_nil
  | cons o os ih =>
    rw [firsts]
    split_ifs with ho
    · exact ih seen
    · rw [List.map_cons, List.nodup_cons]
      refine ⟨fun hmem => ?_, ih _⟩
      obtain ⟨o', ho', heq⟩ := List.mem_map.1 hmem
      exact reporter_not_mem_of_mem_firsts ho'
        (heq ▸ List.mem_append_right _ (List.mem_singleton_self _))

theorem mem_reported_recordAll {p : String} :
    p ∈ (t.recordAll os).reported ↔ p ∈ t.reported ∨ ∃ o ∈ os, reporter o = p := by
  induction os generalizing t with
  | nil => simp [recordAll]
  | cons o os ih =>
    change p ∈ ((t.record o).1.recordAll os).reported ↔ _
    rw [ih, mem_reported_record]
    simp [or_assoc, eq_comm (a := p)]

/-! ## A fresh tally -/

theorem recordAll_new (expected : Nat) (os : List CommitOutcome) :
    (new expected).recordAll os =
      ⟨expected, (firsts [] os).map reporter, commitsIn (firsts [] os), faultsIn (firsts [] os)⟩ :=
  recordAll_eq _ os

theorem mem_reported_new {p : String} :
    p ∈ ((new expected).recordAll os).reported ↔ ∃ o ∈ os, reporter o = p :=
  mem_reported_recordAll.trans (or_iff_right List.not_mem_nil)

theorem nodup_reported_new (expected : Nat) (os : List CommitOutcome) :
    ((new expected).recordAll os).reported.Nodup := by
  rw [recordAll_new]
  exact nodup_reporters_firsts [] os

theorem length_reported_new (expected : Nat) (os : List CommitOutcome) :
    ((new expected).recordAll os).reported.length = Confirmation.distinct os := by
  refine List.Perm.length_eq ?_
  rw [List.perm_ext_iff_of_nodup (nodup_reported_new expected os) (List.nodup_dedup _)]
  intro p
  rw [mem_reported_new, List.mem_dedup, List.mem_map]

/-! ## First reports -/

/-- The outcomes that came when their peer had reported nothing, in the order in which they came. -/
def firstReports (os : List CommitOutcome) : List CommitOutcome :=
  (os.zipIdx.filter fun (o, k) => reporter o ∉ (os.take k).map reporter).map (·.1)

/-- An outcome that comes last is a first one if its peer has reported nothing. -/
theorem firstReports_concat (os : List CommitOutcome) (o : CommitOutcome) :
    firstReports (os ++ [o]) =
      firstReports os ++ if reporter o ∈ os.map reporter then [] else [o] := by
  have hbefore : ∀ x ∈ os.zipIdx, (os ++ [o]).take x.2 = os.take x.2 := fun x hx =>
    List.take_append_of_le_length (Nat.le_of_lt (List.mem_zipIdx' hx).1)
  unfold firstReports
  rw [List.zipIdx_append, List.filter_append, List.map_append]
  congr 1
  · refine congrArg _ (List.filter_congr fun x hx => ?_)
    simp only [hbefore x hx]
  · by_cases h : reporter o ∈ os.map reporter <;> simp [h]

/-- Going by what has been seen finds the same outcomes as looking back from each of them. -/
theorem firsts_eq_firstReports (os : List CommitOutcome) : firsts [] os = firstReports os := by
  induction os using List.reverseRecOn with
  | nil => rfl
  | append_singleton os o ih =>
    have hmore := firsts_append (new 0) os [o]
    rw [firstReports_concat, ← ih]
    refine hmore.trans (congrArg _ ?_)
    simp only [firsts, mem_reported_new, List.mem_map]

/-- Outcomes are commits and faults, and nothing else. -/
theorem parts_perm (os : List CommitOutcome) :
    ((commitsIn os).map Except.ok ++ (faultsIn os).map Except.error).Perm os := by
  induction os with
  | nil => exact .nil
  | cons o os ih =>
    cases o with
    | ok c => exact ih.cons _
    | error f => exact List.perm_middle.trans (ih.cons _)

/-- What a tally holds of the outcomes that it was offered: of each peer the first, commits and
faults apart and in the order in which they came, and as many names. -/
structure Holds (t : Tally) (os : List CommitOutcome) : Prop where
  commits : t.commits = commitsIn (firstReports os)
  faults : t.faults = faultsIn (firstReports os)
  together : (t.commits.map Except.ok ++ t.faults.map Except.error).Perm (firstReports os)
  sum : t.reported.length = t.commits.length + t.faults.length
  names : t.reported.length = Confirmation.distinct os

theorem holds_recordAll (expected : Nat) (os : List CommitOutcome) :
    Holds ((new expected).recordAll os) os := by
  have hnames := length_reported_new expected os
  rw [recordAll_new, firsts_eq_firstReports] at hnames ⊢
  have htogether := parts_perm (firstReports os)
  refine ⟨rfl, rfl, htogether, ?_, hnames⟩
  simpa using htogether.length_eq.symm

theorem record_eq_false_iff : (t.record o).2 = false ↔ reporter o ∈ t.reported := by
  unfold record
  split_ifs with h
  · exact iff_of_true rfl h
  · cases o <;> exact iff_of_false Bool.noConfusion h

/-! ## Decisions that last -/

theorem commits_recordAll_ne_nil (h : t.commits ≠ []) : (t.recordAll more).commits ≠ [] := by
  rw [recordAll_eq]
  exact List.append_ne_nil_of_left_ne_nil h _

theorem isComplete_recordAll (h : t.isComplete = true) : (t.recordAll more).isComplete = true := by
  rw [recordAll_eq, isComplete, decide_eq_true_iff]
  rw [isComplete, decide_eq_true_iff] at h
  simp only [List.length_append]
  omega

/-- A complete tally takes nothing more if no more peers report than it expects: their names are
all in it. -/
theorem recordAll_of_complete (few : Confirmation.distinct (os ++ more) ≤ expected)
    (complete : ((new expected).recordAll os).isComplete = true) :
    (new expected).recordAll (os ++ more) = (new expected).recordAll os := by
  -- the names that came first are as many as can report, so none is left for what came later
  have hall := length_reported_new expected (os ++ more)
  have hexpected : ((new expected).recordAll os).expected = expected := by rw [recordAll_new]
  rw [recordAll_append] at hall ⊢
  generalize (new expected).recordAll os = t at *
  rw [isComplete, decide_eq_true_iff, hexpected] at complete
  rw [recordAll_eq] at hall ⊢
  have hnone : firsts t.reported more = [] := by
    rw [← List.length_eq_zero_iff]
    simp only [List.length_append, List.length_map] at hall
    omega
  simp [hnone, commitsIn, faultsIn]

end Tally

namespace QuorumRule

variable {rule : QuorumRule} {expected : Nat} {t : Tally} {os more : List CommitOutcome}

/-- The rule waits while it lacks reports, and, under `any`, has no commit. -/
theorem decide_eq_pending_iff :
    rule.decide t = .pending ↔ t.isComplete = false ∧ (rule = .all ∨ t.commits = []) := by
  cases rule <;> cases hcomplete : t.isComplete <;> cases hcommits : t.commits <;>
    simp [decide, hcomplete, hcommits]

/-- The rule decides for a commit if there is one, and, under `all`, it lacks no report. -/
theorem decide_eq_committed_iff :
    rule.decide t = .committed ↔ t.commits ≠ [] ∧ (rule = .any ∨ t.isComplete = true) := by
  cases rule <;> cases hcomplete : t.isComplete <;> cases hcommits : t.commits <;>
    simp [decide, hcomplete, hcommits]

/-- Both rules see a failure when no report is lacking and none is a commit. -/
theorem decide_eq_failed_iff :
    rule.decide t = .failed ↔ t.commits = [] ∧ t.isComplete = true := by
  cases rule <;> cases hcomplete : t.isComplete <;> cases hcommits : t.commits <;>
    simp [decide, hcomplete, hcommits]

theorem decide_recordAll_of_committed (h : rule.decide t = .committed) :
    rule.decide (t.recordAll more) = .committed := by
  rw [decide_eq_committed_iff] at h ⊢
  exact ⟨Tally.commits_recordAll_ne_nil h.1, h.2.imp_right Tally.isComplete_recordAll⟩

/-- If no more peers report than are expected, a decision lasts, and a tally that has failed takes
nothing more. -/
theorem decide_recordAll_of_decided (few : Confirmation.distinct (os ++ more) ≤ expected)
    (decided : rule.decide ((Tally.new expected).recordAll os) ≠ .pending) :
    rule.decide ((Tally.new expected).recordAll (os ++ more)) =
        rule.decide ((Tally.new expected).recordAll os) ∧
      (rule.decide ((Tally.new expected).recordAll os) = .failed →
        (Tally.new expected).recordAll (os ++ more) = (Tally.new expected).recordAll os) := by
  have hfull (hfailed : rule.decide ((Tally.new expected).recordAll os) = .failed) :
      (Tally.new expected).recordAll (os ++ more) = (Tally.new expected).recordAll os :=
    Tally.recordAll_of_complete few (decide_eq_failed_iff.1 hfailed).2
  refine ⟨?_, hfull⟩
  cases hdecision : rule.decide ((Tally.new expected).recordAll os) with
  | pending => exact absurd hdecision decided
  | committed =>
    rw [Tally.recordAll_append]
    exact decide_recordAll_of_committed hdecision
  | failed => rw [hfull hdecision, hdecision]

end QuorumRule

namespace Tally

/-- Whatever a fresh tally is offered, it holds the first outcome of each peer.  An outcome is
turned away exactly if its peer has reported, and leaves the tally as it is.  Both rules see a
failure in the same tallies, and `any` sees a commit wherever `all` does.  If no more peers report
than are expected, no further outcome changes a decision. -/
theorem keeps_first_reports (expected : Nat) (os : List CommitOutcome) :
    let t := (new expected).recordAll os
    Holds t os ∧
      (∀ o, ((t.record o).2 = false ↔ ∃ earlier ∈ os, reporter earlier = reporter o) ∧
        ((t.record o).2 = false → (t.record o).1 = t)) ∧
      (QuorumRule.all.decide t = .failed ↔ QuorumRule.any.decide t = .failed) ∧
      (QuorumRule.all.decide t = .committed → QuorumRule.any.decide t = .committed) ∧
      ∀ (rule : QuorumRule) (more : List CommitOutcome),
        Confirmation.distinct (os ++ more) ≤ expected → rule.decide t ≠ .pending →
          rule.decide ((new expected).recordAll (os ++ more)) = rule.decide t := by
  intro t
  refine ⟨holds_recordAll expected os, fun o => ⟨?_, fun hturned => ?_⟩, ?_, fun hall => ?_,
    fun rule more few decided => ?_⟩
  · exact record_eq_false_iff.trans mem_reported_new
  · rw [record_of_mem (record_eq_false_iff.1 hturned)]
  · rw [QuorumRule.decide_eq_failed_iff, QuorumRule.decide_eq_failed_iff]
  · rw [QuorumRule.decide_eq_committed_iff] at hall ⊢
    exact ⟨hall.1, Or.inl rfl⟩
  · exact (QuorumRule.decide_recordAll_of_decided few decided).1

/-- Of two peers one fails before it commits, and the other fails; both commit afterwards.  The
first commit is turned away, and the failure stays one. -/
theorem still_failed_after_commits :
    let commit (peer : String) : CommitOutcome := .ok ⟨"tx", peer, .valid, 7⟩
    let fault (peer : String) : CommitOutcome := .error ⟨peer, "down"⟩
    let os := [fault "p1", commit "p1", fault "p2"]
    let more := [commit "p2", commit "p1"]
    let t := (new 2).recordAll os
    Confirmation.distinct (os ++ more) ≤ 2 ∧ QuorumRule.any.decide t = .failed ∧
      (((new 2).recordAll [fault "p1"]).record (commit "p1")).2 = false ∧
      t.commits = [] ∧ t.faults = [⟨"p1", "down"⟩, ⟨"p2", "down"⟩] ∧
      QuorumRule.any.decide ((new 2).recordAll (os ++ more)) = .failed := by
  intro commit fault os more t
  have hfew : Confirmation.distinct (os ++ more) ≤ 2 := by decide
  have hfailed : QuorumRule.any.decide t = .failed := rfl
  obtain ⟨-, hturned, -⟩ := keeps_first_reports 2 [fault "p1"]
  obtain ⟨hholds, -, -, -, hlasts⟩ := keeps_first_reports 2 os
  refine ⟨hfew, hfailed, (hturned (commit "p1")).1.2 ⟨fault "p1", by simp, rfl⟩, hholds.commits,
    hholds.faults, ?_⟩
  exact (hlasts .any more hfew (by decide)).trans hfailed

/-- With one more peer than is expected a failure does not last. -/
example :
    let fault : CommitOutcome := .error ⟨"p1", "down"⟩
    let commit : CommitOutcome := .ok ⟨"tx", "p2", .valid, 7⟩
    QuorumRule.all.decide ((new 1).recordAll [fault]) = .failed ∧
      QuorumRule.all.decide ((new 1).recordAll [fault, commit]) = .committed := by
  decide

end Tally

end LedgerClient
