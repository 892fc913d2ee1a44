import LedgerClient.Proofs.Verdicts

/-!
# When every peer has reported

A quorum's rule counts names that have reported against the length of its list of peers.  When the
list names no peer twice, the rule has decided as soon as all of them have reported, and a wait that
runs out of time names a peer that it still waited for.  A list that names a peer twice expects
more reports than there are names to make them: all its peers may have reported, and the rule waits
on (`Confirmation.decided_when_all_report`).
-/

namespace LedgerClient

namespace Confirmation

variable {id : TransactionId} {q : Quorum} {limit : Duration} {os : List CommitOutcome}

theorem pending_counted_eq_nil_iff :
    (counted q os).pending (listed q) = [] ↔
      ∀ p ∈ q.peers, ∃ o ∈ os, Tally.reporter o = p.name := by
  simp only [Tally.pending, listed, List.filter_eq_nil_iff, List.forall_mem_map, decide_eq_true_iff,
    not_not, Tally.mem_reported_new]

/-- A list that names a peer twice is longer than what its peers can report. -/
theorem not_isComplete_of_named_twice (htwice : ¬ (listed q).Nodup)
    (honly : ∀ o ∈ os, Tally.reporter o ∈ listed q) : (counted q os).isComplete = false := by
  have hsub : (counted q os).reported ⊆ (listed q).dedup := fun name hname =>
    List.mem_dedup.2 (reported_counted_subset honly hname)
  have hle := (List.subperm_of_subset (Tally.nodup_reported_new _ os) hsub).length_le
  have hlt : (listed q).dedup.length < (listed q).length := by
    refine Nat.lt_of_le_of_ne (List.dedup_sublist _).length_le fun heq => htwice ?_
    exact (List.dedup_sublist _).eq_of_length heq ▸ List.nodup_dedup _
  rw [Bool.eq_false_iff, ne_eq, isComplete_counted, Nat.not_le]
  exact Nat.lt_of_le_of_lt hle hlt

/-- A wait that runs out of time has not been decided, and names who has not reported. -/
theorem timedOut_of_lookEach (hpeers : q.peers ≠ []) {looks : List Look} {names : List String}
    (h : lookEach id q limit (.new q.peers.length) looks =
      .ended (.error (.confirmationTimedOut id limit names))) :
    q.rule.decide (counted q (Look.taken looks)) = .pending ∧
      names = (counted q (Look.taken looks)).pending (listed q) := by
  rw [lookEach_eq] at h
  have hends := ends_of_look hpeers h
  split_ifs at hends with hpassed
  · have hundecided := hends.timedOut.1 ⟨names, rfl⟩
    exact ⟨hundecided.pending _ (List.prefix_refl _),
      (hends.pending names rfl).trans pending_counted.symm⟩
  · cases hends

/-- A quorum that names no peer twice has decided when all its peers have reported, whoever else
reports; so while its rule waits there are peers that have not reported, and a wait that runs out of
time names some.  A quorum that names a peer twice, and hears from its own peers only, waits on when
all of them have reported, always under the rule `all`, and under `any` unless there was a commit;
nobody is left then whom it could name. -/
theorem decided_when_all_report (q : Quorum) :
    ((listed q).Nodup →
      (∀ os, (∀ p ∈ q.peers, ∃ o ∈ os, Tally.reporter o = p.name) →
        q.rule.decide (counted q os) ≠ .pending) ∧
      (∀ os, q.rule.decide (counted q os) = .pending → (counted q os).pending (listed q) ≠ []) ∧
      ∀ (id : TransactionId) (limit : Duration) (looks : List Look) (names : List String),
        q.peers ≠ [] → lookEach id q limit (.new q.peers.length) looks =
          .ended (.error (.confirmationTimedOut id limit names)) → names ≠ []) ∧
    (¬ (listed q).Nodup → ∀ os, (∀ o ∈ os, Tally.reporter o ∈ listed q) →
      (∀ p ∈ q.peers, ∃ o ∈ os, Tally.reporter o = p.name) →
      (q.rule.decide (counted q os) = .pending ↔ q.rule = .all ∨ (counted q os).commits = []) ∧
        (counted q os).pending (listed q) = []) := by
  constructor
  · intro hnodup
    have hdecided : ∀ os, (∀ p ∈ q.peers, ∃ o ∈ os, Tally.reporter o = p.name) →
        q.rule.decide (counted q os) ≠ .pending := by
      intro os hall hpending
      have hincomplete := (QuorumRule.decide_eq_pending_iff.1 hpending).1
      rw [isComplete_of_nodup hnodup hall] at hincomplete
      cases hincomplete
    have hnamed : ∀ os, q.rule.decide (counted q os) = .pending →
        (counted q os).pending (listed q) ≠ [] := fun os hpending hnil =>
      hdecided os (pending_counted_eq_nil_iff.1 hnil) hpending
    refine ⟨hdecided, hnamed, fun id limit looks names hpeers h => ?_⟩
    obtain ⟨hpending, rfl⟩ := timedOut_of_lookEach hpeers h
    exact hnamed _ hpending
  · intro htwice os honly hall
    have hincomplete := not_isComplete_of_named_twice htwice honly
    rw [QuorumRule.decide_eq_pending_iff, hincomplete]
    exact ⟨by simp, pending_counted_eq_nil_iff.2 hall⟩

/-- A peer that is named twice, and its commit or its fault: nothing is decided under the rule `all`
or `any`, and the wait runs out of time for nobody. -/
theorem undecided_when_named_twice :
    let peer : Peer := ⟨"p1", "org", "", .all⟩
    let commit : CommitOutcome := .ok ⟨"tx", "p1", .valid, 7⟩
    let fault : CommitOutcome := .error ⟨"p1", "down"⟩
    let limit : Duration := .ofSecs 1
    let nobody : Confirmation := .ended (.error (.confirmationTimedOut ⟨"tx"⟩ limit []))
    (Tally.reporter commit = "p1" ∧ Tally.reporter fault = "p1") ∧
    QuorumRule.decide .all (counted ⟨.all, [peer, peer]⟩ [commit]) = .pending ∧
    QuorumRule.decide .any (counted ⟨.any, [peer, peer]⟩ [fault]) = .pending ∧
    lookEach ⟨"tx"⟩ ⟨.all, [peer, peer]⟩ limit (.new 2) [⟨[commit], true⟩] = nobody ∧
    lookEach ⟨"tx"⟩ ⟨.any, [peer, peer]⟩ limit (.new 2) [⟨[fault], true⟩] = nobody :=
  ⟨⟨rfl, rfl⟩, rfl, rfl, rfl, rfl⟩

/-- Two peers, one of which fails before it commits while the other fails. -/
theorem decided_by_two_faults :
    let peers : List Peer := [⟨"p1", "org", "", .all⟩, ⟨"p2", "org", "", .all⟩]
    let os : List CommitOutcome :=
      [.error ⟨"p1", "down"⟩, .ok ⟨"tx", "p1", .valid, 7⟩, .error ⟨"p2", "down"⟩]
    (listed ⟨.any, peers⟩).Nodup ∧ (∀ p ∈ peers, ∃ o ∈ os, Tally.reporter o = p.name) ∧
      QuorumRule.decide .any (counted ⟨.any, peers⟩ os) ≠ .pending := by
  intro peers os
  have hnodup : (listed ⟨.any, peers⟩).Nodup := by decide +kernel
  have hall : ∀ p ∈ peers, ∃ o ∈ os, Tally.reporter o = p.name := by decide +kernel
  exact ⟨hnodup, hall, ((decided_when_all_report ⟨.any, peers⟩).1 hnodup).1 os hall⟩

end Confirmation

end LedgerClient
