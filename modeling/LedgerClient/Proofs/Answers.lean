import LedgerClient.Endorsement.Collect
import Mathlib.Data.List.Basic
import Mathlib.Data.List.Perm.Basic
import Mathlib.Tactic.Common

/-!
# Answers side by side

Requests to several peers run side by side.  Whoever waits for them looks at this request or that
one: the result counts if it is there, and else the limit if it has run out (`Slot.look`).  What was
found for one request stays, and has nothing to do with the others (`Slot.lookAll_eq`).  So however
the looks are mixed, as long as each request is looked at when its result or its limit is due, what
comes of them is the list that `Answer.collect` makes of the requests alone, in the order of the
peers; and its verdict is a matter of this list (`answers_in_order`).
-/

namespace LedgerClient

/-- A request to a peer, and what was found of it so far. -/
structure Slot where
  peer : Peer
  arrival : Arrival Reply
  got : Option (Except TransportError Reply)

namespace Arrival

variable {α : Type} {target : String} {limit : Duration} {a : Arrival α}

/-- The result, if it is there by the limit. -/
def inTime (limit : Duration) (a : Arrival α) : Option (Except TransportError α) :=
  match a.delay with
  | some d => if d ≤ limit.ceilMillis then some a.result else none
  | none => none

/-- What there is to find of a request after a time: its result, or else that the limit has run
out. -/
def found (target : String) (limit : Duration) (time : Nat) (a : Arrival α) :
    Option (Except TransportError α) :=
  if ∃ d ∈ a.delay, d ≤ time then some a.result
  else if limit.ceilMillis ≤ time then some (.error (.timedOut target limit))
  else none

theorem within_eq (target : String) (limit : Duration) (a : Arrival α) :
    a.within target limit = (a.inTime limit).getD (.error (.timedOut target limit)) := by
  unfold within inTime
  cases a.delay with
  | none => rfl
  | some d => by_cases hle : d ≤ limit.ceilMillis <;> simp [hle]

theorem found_of_lt {time : Nat} (h : time < a.wait limit) : a.found target limit time = none := by
  unfold wait at h
  cases hd : a.delay with
  | none =>
    simp only [hd] at h
    simp [found, hd, Nat.not_le_of_lt h]
  | some d =>
    simp only [hd, Nat.lt_min] at h
    simp [found, hd, Nat.not_le_of_lt h.1, Nat.not_le_of_lt h.2]

/-- When it is due there is its result, if it is there by the limit, and else a timeout. -/
theorem found_wait : a.found target limit (a.wait limit) = some (a.within target limit) := by
  unfold found wait within
  cases hd : a.delay with
  | none => simp
  | some d =>
    by_cases hle : d ≤ limit.ceilMillis
    · simp [hle]
    · have hmin : min d limit.ceilMillis = limit.ceilMillis := by omega
      simp [hle, hmin]

end Arrival

namespace Slot

variable {s : Slot} {limit : Duration} {time : Nat}

/-- A request that was just sent. -/
def new (r : Peer × Arrival Reply) : Slot := ⟨r.1, r.2, none⟩

/-- Looks at a request; what was found before stays. -/
def look (limit : Duration) (time : Nat) (s : Slot) : Slot :=
  { s with got := s.got.or (s.arrival.found s.peer.name limit time) }

/-- What the caller gets of a request. -/
def result (limit : Duration) (s : Slot) : Except TransportError Reply :=
  s.arrival.within s.peer.name limit

/-- The answer that was found. -/
def answer? (s : Slot) : Option Answer := s.got.map (Answer.ofResult s.peer.name)

theorem look_of_got {x : Except TransportError Reply} (h : s.got = some x) (time : Nat) :
    s.look limit time = s := by
  rw [look, h, Option.some_or, ← h]

theorem look_of_lt (h : time < s.arrival.wait limit) : s.look limit time = s := by
  simp [look, Arrival.found_of_lt h]

theorem look_wait (h : s.got = none) :
    s.look limit (s.arrival.wait limit) = { s with got := some (s.result limit) } := by
  simp [look, h, Arrival.found_wait, result]

/-- Looks at one request, as long as none comes late, find what the caller gets once one of them
came when it was due. -/
theorem look_all {times : List Nat} (h : s.got = none) (hsorted : times.Pairwise (· ≤ ·))
    (hdue : s.arrival.wait limit ∈ times) :
    times.foldl (fun s time => s.look limit time) s = { s with got := some (s.result limit) } := by
  have hstays : ∀ (times : List Nat) (s : Slot) {x : Except TransportError Reply},
      s.got = some x → times.foldl (fun s time => s.look limit time) s = s := by
    intro times
    induction times with
    | nil => exact fun _ _ _ => rfl
    | cons time times ih =>
      intro s x hgot
      rw [List.foldl_cons, look_of_got hgot, ih s hgot]
  induction times with
  | nil => cases hdue
  | cons time times ih =>
    obtain ⟨hfirst, hrest⟩ := List.pairwise_cons.1 hsorted
    rw [List.foldl_cons]
    rcases List.mem_cons.1 hdue with rfl | hlater
    · rw [look_wait h]
      exact hstays times _ rfl
    · rcases Nat.lt_or_eq_of_le (hfirst _ hlater) with hlt | rfl
      · rw [look_of_lt hlt]
        exact ih hrest hlater
      · rw [look_wait h]
        exact hstays times _ rfl

/-- Looks at the request with a number, at a time. -/
def lookAt (limit : Duration) (slots : List Slot) (l : Nat × Nat) : List Slot :=
  slots.modify l.1 (look limit l.2)

def lookAll (limit : Duration) (slots : List Slot) (looks : List (Nat × Nat)) : List Slot :=
  looks.foldl (lookAt limit) slots

theorem getElem?_lookAt (slots : List Slot) (l : Nat × Nat) (i : Nat) :
    (lookAt limit slots l)[i]? =
      slots[i]?.map fun s => if l.1 = i then s.look limit l.2 else s := by
  rw [lookAt, List.getElem?_modify]
  split_ifs <;> simp

/-- What becomes of a request is a matter of the looks at it. -/
theorem lookAll_eq (slots : List Slot) (looks : List (Nat × Nat)) (i : Nat) :
    (lookAll limit slots looks)[i]? = slots[i]?.map fun s =>
      ((looks.filter (·.1 = i)).map (·.2)).foldl (fun s time => s.look limit time) s := by
  induction looks generalizing slots with
  | nil => simp [lookAll]
  | cons l looks ih =>
    change (lookAll limit (lookAt limit slots l) looks)[i]? = _
    rw [ih, getElem?_lookAt, Option.map_map]
    congr 1
    funext s
    by_cases hl : l.1 = i
    · simp [hl]
    · simp [hl]

/-- The answers, when there is one of each request. -/
def answers? (slots : List Slot) : Option (List Answer) := slots.mapM answer?

end Slot

/-- Looks at requests, none before an earlier one, and one at each request when its result or its
limit is due. -/
structure Slot.Prompt (limit : Duration) (requests : List (Peer × Arrival Reply))
    (looks : List (Nat × Nat)) : Prop where
  inOrder : looks.Pairwise fun l l' => l.2 ≤ l'.2
  due : ∀ i < requests.length, ∀ r ∈ requests[i]?, (i, r.2.wait limit) ∈ looks

namespace Slot

variable {limit : Duration} {requests : List (Peer × Arrival Reply)} {looks : List (Nat × Nat)}

/-- However the looks are mixed, each request ends with what the caller gets of it alone. -/
theorem Prompt.lookAll_eq (h : Prompt limit requests looks) :
    lookAll limit (requests.map new) looks =
      requests.map fun r => ⟨r.1, r.2, some (r.2.within r.1.name limit)⟩ := by
  refine List.ext_getElem? fun i => ?_
  rw [Slot.lookAll_eq, List.getElem?_map, List.getElem?_map]
  cases hr : requests[i]? with
  | none => rfl
  | some r =>
    have hi : i < requests.length := (List.getElem?_eq_some_iff.1 hr).1
    have hdue : r.2.wait limit ∈ (looks.filter (·.1 = i)).map (·.2) :=
      List.mem_map.2 ⟨(i, r.2.wait limit), List.mem_filter.2 ⟨h.due i hi r hr, by simp⟩, rfl⟩
    have hsorted : ((looks.filter (·.1 = i)).map (·.2)).Pairwise (· ≤ ·) :=
      List.pairwise_map.2 (h.inOrder.sublist List.filter_sublist)
    rw [Option.map_some, Option.map_some, Option.map_some]
    exact congrArg some (look_all (s := new r) rfl hsorted hdue)

theorem exists_prompt (limit : Duration) (requests : List (Peer × Arrival Reply)) :
    ∃ looks, Prompt limit requests looks := by
  let due : List (Nat × Nat) := requests.zipIdx.map fun x => (x.2, x.1.2.wait limit)
  refine ⟨due.mergeSort fun l l' => l.2 ≤ l'.2, ?_, fun i _ r hr => ?_⟩
  · have hsorted : (due.mergeSort fun l l' => l.2 ≤ l'.2).Pairwise fun l l' =>
        decide (l.2 ≤ l'.2) = true :=
      List.pairwise_mergeSort (fun a b c hab hbc => by simp at *; omega)
        (fun a b => by simp; omega) due
    exact hsorted.imp of_decide_eq_true
  · rw [List.mem_mergeSort]
    exact List.mem_map.2 ⟨(r, i), List.mem_zipIdx_iff_getElem?.2 hr, rfl⟩

theorem Prompt.answers (h : Prompt limit requests looks) :
    answers? (lookAll limit (requests.map new) looks) = some (Answer.collect limit requests) := by
  rw [h.lookAll_eq, answers?, Answer.collect]
  clear h
  induction requests with
  | nil => rfl
  | cons r requests ih =>
    rw [List.map_cons, List.mapM_cons, ih]
    rfl

end Slot

namespace Answer

variable {limit : Duration} {requests requests' : List (Peer × Arrival Reply)}

/-- An answer stands where its peer stands, and is made of the result that is there by the limit, or
tells of the timeout. -/
theorem getElem?_collect (i : Nat) :
    (collect limit requests)[i]? = requests[i]?.map fun r =>
      match r.2.inTime limit with
      | some result => ofResult r.1.name result
      | none => ⟨r.1.name, none, "", [], [],
          some (TransportError.timedOut r.1.name limit).message⟩ := by
  rw [collect, List.getElem?_map]
  congr 1
  funext r
  rw [Arrival.within_eq]
  cases r.2.inTime limit <;> rfl

theorem collect_congr (h : requests.map (fun r => (r.1.name, r.2.inTime limit)) =
    requests'.map fun r => (r.1.name, r.2.inTime limit)) :
    collect limit requests = collect limit requests' := by
  have hcollect : ∀ rs : List (Peer × Arrival Reply), collect limit rs =
      (rs.map fun r => (r.1.name, r.2.inTime limit)).map fun x =>
        ofResult x.1 (x.2.getD (.error (.timedOut x.1 limit))) := by
    intro rs
    rw [collect, List.map_map]
    exact List.map_congr_left fun r _ => by rw [Arrival.within_eq]; rfl
  rw [hcollect, hcollect, h]

theorem isValid_iff {a : Answer} :
    a.isValid = true ↔ a.fault = none ∧ ∃ s, a.status = some s ∧ s < 400 := by
  unfold isValid
  cases a.fault <;> cases a.status <;> simp

end Answer

namespace Verdict

/-- The verdict on a list of answers: the valid and the others, each in order; or, if none is valid,
a refusal for each answer. -/
theorem ofAnswers_eq (answers : List Answer) :
    ofAnswers answers = match answers.find? Answer.isValid with
      | some first =>
        .ok ⟨answers.filter Answer.isValid, answers.filter (!·.isValid), first.payload⟩
      | none => .error (answers.map Answer.refusal) := by
  rw [← List.head?_filter]
  unfold ofAnswers
  cases hvalid : answers.filter Answer.isValid with
  | cons first rest => rfl
  | nil =>
    have hall : answers.filter (!·.isValid) = answers := by
      rw [List.filter_eq_self]
      intro a ha
      simpa using List.filter_eq_nil_iff.1 hvalid a ha
    simp only [hall, List.head?_nil]

end Verdict

/-- Answers stand in the order of the peers and are judged as they stand.  The requests can be
looked at when they are due, and however these looks are mixed, they find what `Answer.collect`
makes of the requests: one answer for each peer, in order, made of the result that is there by the
limit, or of the timeout; what comes later is as good as what never comes.

Of any answers the valid ones and the others are kept apart in order, and each is among one of the
two; without a valid one there is a refusal for each answer, in order, with the text of the error if
there was one; with one the payload is that of the first. -/
theorem answers_in_order (limit : Duration) (requests : List (Peer × Arrival Reply)) :
    let collected := Answer.collect limit requests
    (∃ looks, Slot.Prompt limit requests looks) ∧
    (∀ looks, Slot.Prompt limit requests looks →
      Slot.answers? (Slot.lookAll limit (requests.map Slot.new) looks) = some collected) ∧
    collected.length = requests.length ∧
    (∀ i : Nat, collected[i]? = requests[i]?.map fun (r : Peer × Arrival Reply) =>
      match r.2.inTime limit with
      | some result => Answer.ofResult r.1.name result
      | none => ⟨r.1.name, none, "", [], [],
          some (TransportError.timedOut r.1.name limit).message⟩) ∧
    (∀ requests' : List (Peer × Arrival Reply),
      requests'.map (fun r => (r.1.name, r.2.inTime limit)) =
        requests.map (fun r => (r.1.name, r.2.inTime limit)) →
      Answer.collect limit requests' = collected) ∧
    ∀ answers : List Answer,
      (answers.filter Answer.isValid ++ answers.filter (!·.isValid)).Perm answers ∧
      (∀ a : Answer, a.isValid = true ↔ a.fault = none ∧ ∃ s, a.status = some s ∧ s < 400) ∧
      (∀ verdict, Verdict.ofAnswers answers = .ok verdict →
        verdict.valid = answers.filter Answer.isValid ∧
        verdict.invalid = answers.filter (!·.isValid) ∧
        ∃ first, answers.find? Answer.isValid = some first ∧ verdict.payload = first.payload) ∧
      ((∃ refusals, Verdict.ofAnswers answers = .error refusals) ↔
        answers.filter Answer.isValid = []) ∧
      ∀ refusals, Verdict.ofAnswers answers = .error refusals →
        refusals = answers.map fun a => ⟨a.peer, a.status, a.fault.getD a.message⟩ := by
  intro collected
  refine ⟨Slot.exists_prompt limit requests, fun looks prompt => prompt.answers,
    List.length_map _, Answer.getElem?_collect, fun requests' => Answer.collect_congr, ?_⟩
  intro answers
  refine ⟨List.filter_append_perm .., fun a => Answer.isValid_iff, ?_, ?_, ?_⟩ <;>
    rw [Verdict.ofAnswers_eq]
  · intro verdict h
    split at h
    · next first hfirst =>
      obtain rfl := Except.ok.inj h
      exact ⟨rfl, rfl, first, hfirst, rfl⟩
    · cases h
  · rw [List.filter_eq_nil_iff, ← List.find?_eq_none]
    cases answers.find? Answer.isValid <;> simp
  · intro refusals h
    split at h
    · cases h
    · exact (Except.error.inj h).symm

/-- The third of three peers answers first, the second not at all. -/
theorem first_payload_of_first_peer :
    let limit : Duration := .ofMillis 1000
    let reply (payload : Bytes) : Except TransportError Reply := .ok ⟨some 200, "", payload, []⟩
    let requests : List (Peer × Arrival Reply) :=
      [(⟨"p1", "org", "", .all⟩, ⟨some 30, reply [1]⟩),
        (⟨"p2", "org", "", .all⟩, ⟨none, reply [2]⟩),
        (⟨"p3", "org", "", .all⟩, ⟨some 10, reply [3]⟩)]
    let looks : List (Nat × Nat) := [(0, 0), (2, 10), (1, 10), (0, 30), (2, 30), (1, 1000)]
    let collected := Answer.collect limit requests
    Slot.Prompt limit requests looks ∧
      Slot.answers? (Slot.lookAll limit (requests.map Slot.new) looks) = some collected ∧
      collected.length = 3 ∧ collected.map (·.peer) = ["p1", "p2", "p3"] ∧
      (Verdict.ofAnswers collected).toOption.map (·.payload) = some [1] := by
  intro limit reply requests looks collected
  have hprompt : Slot.Prompt limit requests looks := ⟨by decide, by decide⟩
  obtain ⟨-, hfound, hlength, -⟩ := answers_in_order limit requests
  refine ⟨hprompt, hfound looks hprompt, hlength, ?_, ?_⟩
  · decide +kernel
  · decide +kernel

end LedgerClient
