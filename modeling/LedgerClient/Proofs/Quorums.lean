import LedgerClient.Proofs.Verdicts

/-!
# When a quorum confirms

A wait for confirmation ends well exactly if its quorum confirms (`Confirmation.takeAll_eq_ok_iff`):
the rule decides for a commit after some of the outcomes, not earlier, and with no invalid commit
among them.
-/

namespace LedgerClient

namespace Confirmation

variable {id : TransactionId} {q : Quorum} {limit : Duration}

/-- The quorum's rule has decided for a commit when some of the outcomes were taken, no invalid
commit among them, and it had not decided before. -/
def Confirmed (q : Quorum) (os : List CommitOutcome) : Prop :=
  ∃ taken later, os = taken ++ later ∧ (∀ c, .ok c ∈ taken → c.code.isValid = true) ∧
    q.rule.decide (counted q taken) = .committed ∧
    ∀ fewer, fewer <+: taken → fewer ≠ taken → q.rule.decide (counted q fewer) = .pending

/-- A quorum confirms exactly if this is the first verdict of the outcomes. -/
theorem gives_ok_iff (hpeers : q.peers ≠ []) {os : List CommitOutcome} :
    Gives id q os (.ok ()) ↔ Confirmed q os := by
  constructor
  · intro h
    cases h with
    | @committed taken later o order undecided valid decided =>
      refine ⟨taken ++ [o], later, by simp [order], fun c hc => ?_, decided,
        fun fewer hfewer hne => ?_⟩
      · rcases List.mem_append.1 hc with hc | hc
        · exact undecided.valid c hc
        · exact valid c (List.mem_singleton.1 hc).symm
      · exact undecided.pending fewer ((List.prefix_concat_iff.1 hfewer).resolve_left hne)
  · rintro ⟨taken, later, rfl, hvalid, hdecide, hpending⟩
    induction taken using List.reverseRecOn with
    | nil =>
      rw [(undecided_nil hpeers).pending [] (List.prefix_refl _)] at hdecide
      cases hdecide
    | append_singleton taken o =>
      have horder : taken ++ [o] ++ later = taken ++ o :: later := by simp
      refine .committed horder ⟨fun c hc => hvalid c (List.mem_append_left _ hc),
        fun fewer hfewer => ?_⟩ (fun c hc => hvalid c (by simp [hc])) hdecide
      refine hpending fewer (hfewer.trans (List.prefix_append _ _)) fun heq => ?_
      have hlength := hfewer.length_le
      rw [heq, List.length_append, List.length_singleton] at hlength
      omega

/-- A wait ends well exactly if its quorum confirms. -/
theorem takeAll_eq_ok_iff (hpeers : q.peers ≠ []) {os : List CommitOutcome} :
    takeAll id q (.new q.peers.length) os = .ended (.ok ()) ↔ Confirmed q os :=
  (takeAll_eq_ended_iff_gives hpeers).trans (gives_ok_iff hpeers)

/-- A look ends well exactly if its quorum confirms: the deadline makes no good end. -/
theorem look_eq_ok_iff (hpeers : q.peers ≠ []) {os : List CommitOutcome} {passed : Bool} :
    look id q limit (.new q.peers.length) os passed = .ended (.ok ()) ↔ Confirmed q os := by
  have hall : takeAll id q (.new q.peers.length) os = .ended (.ok ()) ↔ Confirmed q os :=
    takeAll_eq_ok_iff hpeers
  rw [← hall, look_eq]
  cases takeAll id q (.new q.peers.length) os with
  | ended r => rfl
  | waiting t =>
    refine iff_of_false (fun h => ?_) fun h => by cases h
    change meet id q limit passed t = _ at h
    unfold meet at h
    split_ifs at h
    cases h

end Confirmation

end LedgerClient
