import LedgerClient.Commit.Confirmation
import Mathlib.Tactic.Common

/-!
# Repeated reports

A wait for confirmation is looked at again and again, and each look takes the next outcomes of the
mailbox, as many as it has room for (`Confirmation.lookEach`). How the outcomes that are taken at
all are spread over the looks does not matter (`Confirmation.lookEach_eq`).

The tally counts each peer once, so a wait goes as if only the first outcome of each peer had
arrived, with one exception: a commit with an invalid code does not go through the tally, and ends
the wait also when its peer has reported before (`Confirmation.same_without_repeats_iff`).
-/

namespace LedgerClient

/-- A look at a wait: the outcomes that it takes, of those that have arrived and were not taken
before, and whether the deadline has passed. -/
structure Look where
  arrived : List CommitOutcome
  deadlinePassed : Bool

namespace Look

/-- The outcomes that are taken at all: none after the first look that finds the deadline passed. -/
def taken : List Look → List CommitOutcome
  | [] => []
  | l :: ls => if l.deadlinePassed then l.arrived else l.arrived ++ taken ls

end Look

namespace Tally

/-- The first outcome of each peer that is not among `seen`. -/
def firsts : List String → List CommitOutcome → List CommitOutcome
  | _, [] => []
  | seen, o :: os =>
    if reporter o ∈ seen then firsts seen os else o :: firsts (seen ++ [reporter o]) os

/-- Counts outcomes one after the other. -/
def recordAll (t : Tally) (os : List CommitOutcome) : Tally :=
  os.foldl (fun t o => (t.record o).1) t

theorem record_of_mem {t : Tally} {o : CommitOutcome} (h : reporter o ∈ t.reported) :
    t.record o = (t, false) := if_pos h

theorem reported_record_of_not_mem {t : Tally} {o : CommitOutcome} (h : reporter o ∉ t.reported) :
    (t.record o).1.reported = t.reported ++ [reporter o] := by
  unfold record
  rw [if_neg h]
  cases o <;> rfl

theorem mem_reported_record {t : Tally} {o : CommitOutcome} {p : String} :
    p ∈ (t.record o).1.reported ↔ p ∈ t.reported ∨ p = reporter o := by
  by_cases h : reporter o ∈ t.reported
  · rw [record_of_mem h]
    exact ⟨Or.inl, fun hp => hp.elim id fun hp => hp ▸ h⟩
  · rw [reported_record_of_not_mem h, List.mem_append, List.mem_singleton]

theorem reporter_not_mem_of_mem_firsts {seen : List String} {os : List CommitOutcome}
    {o : CommitOutcome} (h : o ∈ firsts seen os) : reporter o ∉ seen := by
  induction os generalizing seen with
  | nil => cases h
  | cons o' os ih =>
    unfold firsts at h
    split_ifs at h with ho'
    · exact ih h
    · rcases List.mem_cons.1 h with rfl | h
      · exact ho'
      · exact fun hseen => ih h (List.mem_append_left _ hseen)

theorem firsts_append (t : Tally) (os os' : List CommitOutcome) :
    firsts t.reported (os ++ os') =
      firsts t.reported os ++ firsts (t.recordAll os).reported os' := by
  induction os generalizing t with
  | nil => rfl
  | cons o os ih =>
    rw [List.cons_append, firsts, firsts]
    change _ = _ ++ firsts ((t.record o).1.recordAll os).reported os'
    split_ifs with ho
    · rw [record_of_mem ho]
      exact ih t
    · rw [← reported_record_of_not_mem ho, ih, List.cons_append]

end Tally

namespace Look

/-- The looks without every outcome of a peer that had reported before. -/
def once (t : Tally) : List Look → List Look
  | [] => []
  | l :: ls =>
    ⟨Tally.firsts t.reported l.arrived, l.deadlinePassed⟩ :: once (t.recordAll l.arrived) ls

theorem any_deadlinePassed_once (t : Tally) (ls : List Look) :
    (once t ls).any (·.deadlinePassed) = ls.any (·.deadlinePassed) := by
  induction ls generalizing t with
  | nil => rfl
  | cons l ls ih => rw [once, List.any_cons, List.any_cons, ih]

theorem taken_once (t : Tally) (ls : List Look) :
    taken (once t ls) = Tally.firsts t.reported (taken ls) := by
  induction ls generalizing t with
  | nil => rfl
  | cons l ls ih =>
    rw [once, taken, taken, ih]
    split_ifs
    · rfl
    · exact (Tally.firsts_append t _ _).symm

end Look

namespace Confirmation

variable (id : TransactionId) (q : Quorum) (limit : Duration)

/-- Looks at a wait until it ends. -/
def lookEach : Tally → List Look → Confirmation
  | t, [] => .waiting t
  | t, l :: ls =>
    match look id q limit t l.arrived l.deadlinePassed with
    | .waiting t => lookEach t ls
    | .ended result => .ended result

/-- Goes on if the wait does. -/
def andThen (c : Confirmation) (go : Tally → Confirmation) : Confirmation :=
  match c with
  | .waiting t => go t
  | .ended result => .ended result

/-- What the deadline makes of a wait that goes on. -/
def meet (passed : Bool) (t : Tally) : Confirmation :=
  if passed then .ended (.error (expired id q limit t)) else .waiting t

theorem andThen_assoc (c : Confirmation) (f g : Tally → Confirmation) :
    (c.andThen f).andThen g = c.andThen fun t => (f t).andThen g := by
  cases c <;> rfl

theorem takeAll_cons (t : Tally) (o : CommitOutcome) (os : List CommitOutcome) :
    takeAll id q t (o :: os) = (take id q t o).andThen fun t => takeAll id q t os := by
  rw [takeAll]
  cases take id q t o <;> rfl

theorem takeAll_append (t : Tally) (os os' : List CommitOutcome) :
    takeAll id q t (os ++ os') = (takeAll id q t os).andThen fun t => takeAll id q t os' := by
  induction os generalizing t with
  | nil => rfl
  | cons o os ih =>
    simp only [List.cons_append, takeAll_cons, andThen_assoc, ih]

theorem look_eq (t : Tally) (os : List CommitOutcome) (passed : Bool) :
    look id q limit t os passed = (takeAll id q t os).andThen (meet id q limit passed) := by
  unfold look
  cases takeAll id q t os <;> rfl

theorem lookEach_cons (t : Tally) (l : Look) (ls : List Look) :
    lookEach id q limit t (l :: ls) =
      (look id q limit t l.arrived l.deadlinePassed).andThen fun t => lookEach id q limit t ls := by
  rw [lookEach]
  cases look id q limit t l.arrived l.deadlinePassed <;> rfl

theorem lookEach_eq (t : Tally) (ls : List Look) :
    lookEach id q limit t ls =
      look id q limit t (Look.taken ls) (ls.any (·.deadlinePassed)) := by
  induction ls generalizing t with
  | nil => rfl
  | cons l ls ih =>
    rw [lookEach_cons, Look.taken, List.any_cons, look_eq, look_eq, andThen_assoc]
    cases l.deadlinePassed with
    | true => rfl
    | false =>
      have hgo (t : Tally) : (meet id q limit false t).andThen (fun t => lookEach id q limit t ls) =
          (takeAll id q t (Look.taken ls)).andThen
            (meet id q limit (ls.any (·.deadlinePassed))) := (ih t).trans (look_eq ..)
      simp only [Bool.false_eq_true, if_false, Bool.false_or, takeAll_append, andThen_assoc, hgo]

variable {id q limit}

/-- What comes later does not matter to a look that has found a verdict before the deadline. -/
theorem look_append {t : Tally} {os : List CommitOutcome} {passed : Bool}
    {r : Except TransactionFailure Unit} (h : look id q limit t os passed = .ended r)
    (later : List CommitOutcome) (hlater : passed = true → later = []) :
    look id q limit t (os ++ later) passed = .ended r := by
  cases passed with
  | true => rwa [hlater rfl, List.append_nil]
  | false =>
    rw [look_eq] at h ⊢
    rw [takeAll_append]
    cases htake : takeAll id q t os with
    | ended r' =>
      rw [htake] at h
      exact h
    | waiting t' =>
      rw [htake] at h
      cases h

/-- An outcome with which the wait goes on is valid or a fault, and is counted. -/
theorem take_eq_waiting {t t' : Tally} {o : CommitOutcome} (h : take id q t o = .waiting t') :
    t' = (t.record o).1 ∧ q.rule.decide t' = .pending ∧
      ∀ c, o = .ok c → c.code.isValid = true := by
  have hjudge : ∀ {t : Tally}, take.judge id q t = .waiting t' →
      t' = t ∧ q.rule.decide t' = .pending := by
    intro t h
    unfold take.judge at h
    split at h
    · next hd =>
      obtain rfl : t = t' := by injection h
      exact ⟨rfl, hd⟩
    · cases h
    · cases h
  cases o with
  | error f =>
    obtain ⟨h₁, h₂⟩ := hjudge (h : take.judge id q _ = _)
    exact ⟨h₁, h₂, fun c hc => by cases hc⟩
  | ok c =>
    unfold take at h
    dsimp only at h
    split_ifs at h with hvalid
    obtain ⟨h₁, h₂⟩ := hjudge h
    refine ⟨h₁, h₂, fun c' hc' => ?_⟩
    obtain rfl : c = c' := by injection hc'
    exact hvalid

/-- Nothing is changed by another outcome of a peer, unless it is an invalid commit. -/
theorem take_repeat {t : Tally} {o : CommitOutcome} (hpending : q.rule.decide t = .pending)
    (hmem : Tally.reporter o ∈ t.reported) (hvalid : ∀ c, o = .ok c → c.code.isValid = true) :
    take id q t o = .waiting t := by
  have hjudge : take.judge id q (t.record o).1 = .waiting t := by
    rw [Tally.record_of_mem hmem]
    simp only [take.judge, hpending]
  cases o with
  | error f => exact hjudge
  | ok c =>
    rw [take, if_pos (hvalid c rfl)]
    exact hjudge

/-- While a wait goes on, a peer that has reported reports an invalid commit. -/
def Overruled (id : TransactionId) (q : Quorum) (t : Tally) (os : List CommitOutcome) : Prop :=
  ∃ before c after, os = before ++ .ok c :: after ∧ c.code.isValid = false ∧
    c.peer ∈ t.reported ++ before.map Tally.reporter ∧ ∃ t', takeAll id q t before = .waiting t'

theorem overruled_cons {t : Tally} {o : CommitOutcome} {os : List CommitOutcome} :
    Overruled id q t (o :: os) ↔
      (∃ c, o = .ok c ∧ c.code.isValid = false ∧ c.peer ∈ t.reported) ∨
        ∃ t', take id q t o = .waiting t' ∧ Overruled id q t' os := by
  constructor
  · rintro ⟨before, c, after, heq, hinvalid, hmem, t', hwaits⟩
    cases before with
    | nil =>
      obtain ⟨rfl, rfl⟩ := List.cons.inj heq
      exact Or.inl ⟨c, rfl, hinvalid, by simpa using hmem⟩
    | cons o' before =>
      obtain ⟨rfl, rfl⟩ := List.cons.inj heq
      rw [takeAll_cons] at hwaits
      cases htake : take id q t o with
      | ended r =>
        rw [htake] at hwaits
        cases hwaits
      | waiting t₁ =>
        rw [htake] at hwaits
        refine Or.inr ⟨t₁, rfl, before, c, after, rfl, hinvalid, ?_, t', hwaits⟩
        obtain ⟨rfl, -, -⟩ := take_eq_waiting htake
        simp only [List.map_cons, List.mem_append, List.mem_cons] at hmem ⊢
        rw [Tally.mem_reported_record]
        tauto
  · rintro
      (⟨c, rfl, hinvalid, hmem⟩ | ⟨t₁, htake, before, c, after, rfl, hinvalid, hmem, t', hwaits⟩)
    · exact ⟨[], c, os, rfl, hinvalid, by simpa using hmem, t, rfl⟩
    · refine ⟨o :: before, c, after, rfl, hinvalid, ?_, t', ?_⟩
      · obtain ⟨rfl, -, -⟩ := take_eq_waiting htake
        simp only [List.map_cons, List.mem_append, List.mem_cons] at hmem ⊢
        rw [Tally.mem_reported_record] at hmem
        tauto
      · rw [takeAll_cons, htake]
        exact hwaits

/-- An invalid transaction is reported on the word of a peer whose outcome was taken. -/
theorem mem_of_takeAll_invalidated {t : Tally} {os : List CommitOutcome} {p : String}
    {code : ValidationCode} (h : takeAll id q t os = .ended (.error (.invalidated id p code))) :
    ∃ o ∈ os, Tally.reporter o = p := by
  induction os generalizing t with
  | nil => cases h
  | cons o os ih =>
    rw [takeAll_cons] at h
    cases htake : take id q t o with
    | waiting t' =>
      rw [htake] at h
      obtain ⟨o', ho', hp⟩ := ih h
      exact ⟨o', List.mem_cons_of_mem _ ho', hp⟩
    | ended r =>
      rw [htake] at h
      obtain rfl : r = .error (.invalidated id p code) := by injection h
      refine ⟨o, List.mem_cons_self, ?_⟩
      have hjudge : ∀ {t : Tally},
          take.judge id q t ≠ .ended (.error (.invalidated id p code)) := by
        intro t h
        unfold take.judge at h
        split at h <;> simp at h
      cases o with
      | error f => exact absurd htake hjudge
      | ok c =>
        unfold take at htake
        dsimp only at htake
        split_ifs at htake
        · exact absurd htake hjudge
        · simp only [ended.injEq, Except.error.injEq, TransactionFailure.invalidated.injEq] at htake
          exact htake.2.1

/-- Before anything is counted, or while the rule does not decide, a wait goes as if every peer
reported once, unless a peer that has reported reports an invalid commit: that ends the wait. -/
theorem takeAll_firsts {t : Tally} (h : t.reported = [] ∨ q.rule.decide t = .pending)
    (os : List CommitOutcome) :
    (¬ Overruled id q t os ∧ takeAll id q t (Tally.firsts t.reported os) = takeAll id q t os) ∨
      (Overruled id q t os ∧ ∃ p code,
        takeAll id q t os = .ended (.error (.invalidated id p code)) ∧
          takeAll id q t (Tally.firsts t.reported os) ≠
            .ended (.error (.invalidated id p code))) := by
  induction os generalizing t with
  | nil =>
    refine Or.inl ⟨?_, rfl⟩
    rintro ⟨before, c, after, heq, -⟩
    cases before <;> cases heq
  | cons o os ih =>
    rw [Tally.firsts, overruled_cons, takeAll_cons]
    split_ifs with hmem
    · have hpending : q.rule.decide t = .pending :=
        h.resolve_left fun hnil => List.not_mem_nil (hnil ▸ hmem)
      by_cases hinvalid : ∃ c, o = .ok c ∧ c.code.isValid = false
      · obtain ⟨c, rfl, hc⟩ := hinvalid
        refine Or.inr ⟨Or.inl ⟨c, rfl, hc, hmem⟩, c.peer, c.code, ?_, fun heq => ?_⟩
        · simp only [take, hc]
          rfl
        · obtain ⟨o, ho, hp⟩ := mem_of_takeAll_invalidated heq
          exact Tally.reporter_not_mem_of_mem_firsts ho (hp ▸ hmem)
      · have htake : take id q t o = .waiting t :=
          take_repeat hpending hmem fun c hc => by
            simpa using fun hcode => hinvalid ⟨c, hc, hcode⟩
        have hhead : ¬ ∃ c, o = .ok c ∧ c.code.isValid = false ∧ c.peer ∈ t.reported :=
          fun ⟨c, hc, hcode, _⟩ => hinvalid ⟨c, hc, hcode⟩
        simp only [hhead, htake, waiting.injEq, exists_eq_left', false_or]
        exact ih (Or.inr hpending)
    · have hhead : ¬ ∃ c, o = .ok c ∧ c.code.isValid = false ∧ c.peer ∈ t.reported := by
        rintro ⟨c, rfl, -, hc⟩
        exact hmem hc
      rw [takeAll_cons]
      cases htake : take id q t o with
      | ended r =>
        refine Or.inl ⟨?_, rfl⟩
        rintro (hc | ⟨t', ht', -⟩)
        · exact hhead hc
        · cases ht'
      | waiting t₁ =>
        obtain ⟨rfl, hpending, -⟩ := take_eq_waiting htake
        have hiff := ih (Or.inr hpending)
        rw [Tally.reported_record_of_not_mem hmem] at hiff
        simp only [hhead, waiting.injEq, exists_eq_left', false_or]
        exact hiff

/-- Leaving out every outcome of a peer that had reported before leaves a wait's end as it is,
exactly if no such outcome is an invalid commit that is taken while the wait goes on. -/
theorem same_without_repeats_iff (id : TransactionId) (q : Quorum) (limit : Duration)
    (ls : List Look) :
    let t := Tally.new q.peers.length
    lookEach id q limit t (Look.once t ls) = lookEach id q limit t ls ↔
      ¬ Overruled id q t (Look.taken ls) := by
  intro t
  rw [lookEach_eq, lookEach_eq, Look.taken_once, Look.any_deadlinePassed_once, look_eq, look_eq]
  have hstart : t.reported = [] ∨ q.rule.decide t = .pending := Or.inl rfl
  rcases takeAll_firsts hstart (Look.taken ls) with
    ⟨hnot, heq⟩ | ⟨hover, p, code, heq, hne⟩
  · exact iff_of_true (by rw [heq]) hnot
  · refine iff_of_false (fun hsame => ?_) (not_not_intro hover)
    rw [heq] at hsame
    cases hfirsts : takeAll id q t (Tally.firsts t.reported (Look.taken ls)) with
    | ended r =>
      rw [hfirsts] at hsame
      exact hne (hfirsts.trans hsame)
    | waiting t' =>
      rw [hfirsts] at hsame
      simp only [andThen, meet, expired] at hsame
      split_ifs at hsame
      simp at hsame

/-- A peer that reported a valid commit reports the transaction once more, as a duplicate, before
the second peer reports; under the other rule the first outcome was a fault. Either way the
transaction is said to be invalid, while without the repeated outcome it is confirmed. -/
theorem invalid_repeat_overrules :
    let commit (peer : String) (code : ValidationCode) : CommitOutcome := .ok ⟨"tx", peer, code, 1⟩
    let peers : List Peer := [⟨"p1", "org", "", .all⟩, ⟨"p2", "org", "", .all⟩]
    let limit : Duration := .ofSecs 30
    let duplicate : Look := ⟨[commit "p1" .duplicateId, commit "p2" .valid], false⟩
    let invalid : Confirmation := .ended (.error (.invalidated ⟨"tx"⟩ "p1" .duplicateId))
    (lookEach ⟨"tx"⟩ ⟨.all, peers⟩ limit (.new 2) [⟨[commit "p1" .valid], false⟩, duplicate] =
        invalid ∧
      lookEach ⟨"tx"⟩ ⟨.all, peers⟩ limit (.new 2)
        (Look.once (.new 2) [⟨[commit "p1" .valid], false⟩, duplicate]) = .ended (.ok ())) ∧
    lookEach ⟨"tx"⟩ ⟨.any, peers⟩ limit (.new 2)
        [⟨[.error ⟨"p1", "down"⟩], false⟩, duplicate] = invalid ∧
      lookEach ⟨"tx"⟩ ⟨.any, peers⟩ limit (.new 2)
        (Look.once (.new 2) [⟨[.error ⟨"p1", "down"⟩], false⟩, duplicate]) = .ended (.ok ()) :=
  ⟨⟨rfl, rfl⟩, rfl, rfl⟩

end Confirmation

end LedgerClient
