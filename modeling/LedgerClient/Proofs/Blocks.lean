import LedgerClient.Proofs.Watch

/-!
# Blocks at work

How the plans for a block behave under the rule for plans.  A contract listener goes through the
transactions of a block; `BlockRule` says what is to be shown of an invariant between two of them,
and `BlockRule.keeps` makes the rule for the whole block of it.  A checkpoint covers a transaction
of a block when it is past the block, or at the block with the transaction's id recorded.
-/

namespace LedgerClient

/-! ## What a checkpoint covers -/

namespace Checkpoint

/-- Past the block with this number, or at it with the transaction recorded. -/
def Covers (c : Checkpoint) (n : Nat) (id : String) : Prop :=
  ∃ next, c.next = some next ∧ (n < next ∨ n = next ∧ id ∈ c.delivered)

/-- A checkpoint that is past a block has nothing of it to come. -/
def Past (c : Checkpoint) (n : Nat) : Prop := ∃ next, c.next = some next ∧ n < next

theorem covers_of_past {c : Checkpoint} {n : Nat} (h : c.Past n) (id : String) :
    c.Covers n id := by
  obtain ⟨next, hn, hlt⟩ := h
  exact ⟨next, hn, Or.inl hlt⟩

theorem covers_iff_of_next {c : Checkpoint} {n : Nat} (h : c.next = some n) (id : String) :
    c.Covers n id ↔ id ∈ c.delivered := by
  simp [Covers, h]

theorem not_covers_of_next_lt {c : Checkpoint} {n : Nat}
    (h : ∀ next, c.next = some next → next < n) (id : String) : ¬ c.Covers n id := by
  rintro ⟨next, hn, hlt | ⟨heq, -⟩⟩
  · have := h next hn
    omega
  · have := h next hn
    omega

theorem past_startingAt {n m : Nat} : (startingAt m).Past n ↔ n < m := by
  simp [Past, startingAt]

theorem covers_startingAt {n m : Nat} {id : String} : (startingAt m).Covers n id ↔ n < m := by
  simp [Covers, startingAt]

theorem Covers.moveTo {c : Checkpoint} {n m : Nat} {id : String} (h : c.Covers n id)
    (hm : ∀ next, c.next = some next → next < m) : (startingAt m).Covers n id := by
  obtain ⟨next, hn, hlt⟩ := h
  have := hm next hn
  exact covers_startingAt.2 (by omega)

theorem Past.moveTo {c : Checkpoint} {n m : Nat} (h : c.Past n)
    (hm : ∀ next, c.next = some next → next < m) : (startingAt m).Past n := by
  obtain ⟨next, hn, hlt⟩ := h
  have := hm next hn
  exact past_startingAt.2 (by omega)

theorem Covers.record {c : Checkpoint} {n : Nat} {id : String} (h : c.Covers n id)
    (id' : String) : (c.apply (.record id')).Covers n id := by
  obtain ⟨next, hn, hlt | ⟨heq, hid⟩⟩ := h
  · exact ⟨next, hn, Or.inl hlt⟩
  · exact ⟨next, hn, Or.inr ⟨heq, mem_insert.2 (Or.inr hid)⟩⟩

end Checkpoint

/-! ## The transactions of a block -/

/-- No two valid transactions of a block share an id. -/
def Block.Distinct (b : Block) : Prop :=
  b.transactions.Pairwise fun t t' => t.code.isValid → t'.code.isValid → t.id ≠ t'.id

theorem EventFilter.isValid_of_notices {f : EventFilter} {n : Nat} {t : BlockTransaction}
    (h : f.notices n t ≠ []) : t.code.isValid = true := by
  unfold notices at h
  split_ifs at h with hv
  · exact hv
  · exact absurd rfl h

/-- Each event that a listener is told of names its block and its transaction. -/
theorem EventFilter.of_mem_notices {f : EventFilter} {n : Nat} {t : BlockTransaction}
    {e : EventNotice} (h : e ∈ f.notices n t) : e.block = n ∧ e.transaction = t.id := by
  unfold notices at h
  split_ifs at h
  · obtain ⟨ce, -, rfl⟩ := List.mem_map.1 h
    exact ⟨rfl, rfl⟩
  · cases h

namespace Account

/-- Calls about events, one after the other, with their answers. -/
def tells (w : Account) (rs : List (EventNotice × Bool)) : Account :=
  { w with told := w.told ++ rs.map fun x => (.event x.1, x.2) }

@[simp] theorem tells_nil (w : Account) : w.tells [] = w := by simp [tells]

@[simp] theorem tells_checkpoint (w : Account) (rs : List (EventNotice × Bool)) :
    (w.tells rs).checkpoint = w.checkpoint := rfl

theorem tells_cons (w : Account) (e : EventNotice) (ok : Bool) (rs : List (EventNotice × Bool)) :
    w.tells ((e, ok) :: rs) = (w.tell (.event e) ok).tells rs := by
  simp [tells, tell]

end Account

section Rules

variable {allowed : Incident → Prop} {R : Account → Account → Prop} {E : Account → Prop}

namespace Plan

/-- The events of a transaction: the calls one by one, and then the rest with the answers. -/
theorem keeps_ofNotices {go : Bool → Plan} {ns : List EventNotice} {ok : Bool} {w : Account}
    (tells : ∀ rs e r es, ns = rs.map Prod.fst ++ e :: es → (∀ x ∈ rs, allowed (.calls x.2)) →
      allowed (.calls r) → R (w.tells rs) (w.tells (rs ++ [(e, r)])))
    (goes : ∀ rs, rs.map Prod.fst = ns → (∀ x ∈ rs, allowed (.calls x.2)) →
      (go (ok && rs.all (·.2))).Keeps allowed R E (w.tells rs)) :
    (ofNotices ok go ns).Keeps allowed R E w := by
  induction ns generalizing ok w with
  | nil => simpa [ofNotices] using goes [] rfl (by simp)
  | cons e es ih =>
    intro r hr
    refine ⟨by simpa [Account.tells_cons] using tells [] e r es rfl (by simp) hr, ih ?_ ?_⟩
    · intro rs e' r' es' hes hrs hr'
      simpa only [Account.tells_cons, List.cons_append] using
        tells ((e, r) :: rs) e' r' es' (by simp [hes]) (List.forall_mem_cons.2 ⟨hr, hrs⟩) hr'
    · intro rs hes hrs
      simpa only [Account.tells_cons, List.all_cons, Bool.and_assoc] using
        goes ((e, r) :: rs) (by simp [hes]) (List.forall_mem_cons.2 ⟨hr, hrs⟩)

/-- A contract listener's block: nothing is done if the checkpoint is past it, the ids are looked up
if it is at it, and otherwise it moves to it.  When it cannot be read where the checkpoint is, the
block is gone through as it is. -/
theorem keeps_ofContract_reading {f : EventFilter} {b : Block} {w : Account}
    (past : w.checkpoint.Past b.number → E w)
    (within : w.checkpoint.next = some b.number → ∀ ok, allowed (.reads ok) →
      (ofTransactions true f b.number (if ok then w.checkpoint.delivered else []) true
        b.transactions).Keeps allowed R E w)
    (ahead : (∀ next, w.checkpoint.next = some next → next < b.number) →
      (change (.moveTo b.number) (ofTransactions true f b.number [] true b.transactions)).Keeps
        allowed R E w)
    (unread : allowed (.reads false) →
      (ofTransactions true f b.number [] true b.transactions).Keeps allowed R E w) :
    (ofContract true f b).Keeps allowed R E w := by
  intro ok hok
  cases ok with
  | false => exact unread hok
  | true =>
    rw [if_pos rfl]
    cases hn : w.checkpoint.next with
    | none => exact ahead (by simp [hn])
    | some next =>
      dsimp only
      split_ifs with hlt heq
      · exact past ⟨next, hn, hlt⟩
      · subst heq
        intro ok' hok'
        cases ok' with
        | false => exact within hn false hok'
        | true => exact within hn true hok'
      · refine ahead fun next' hn' => ?_
        rw [hn] at hn'
        cases hn'
        omega

theorem keeps_ofContract {f : EventFilter} {b : Block} {w : Account}
    (reads : ∀ ok, allowed (.reads ok) → ok = true)
    (past : w.checkpoint.Past b.number → E w)
    (within : w.checkpoint.next = some b.number →
      (ofTransactions true f b.number w.checkpoint.delivered true b.transactions).Keeps
        allowed R E w)
    (ahead : (∀ next, w.checkpoint.next = some next → next < b.number) →
      (change (.moveTo b.number) (ofTransactions true f b.number [] true b.transactions)).Keeps
        allowed R E w) :
    (ofContract true f b).Keeps allowed R E w := by
  refine keeps_ofContract_reading past (fun hn ok hok => ?_) ahead fun hok => ?_
  · obtain rfl := reads ok hok
    exact within hn
  · cases reads false hok

/-- A block listener's block: nothing is done if the checkpoint is past it; otherwise, or when it
cannot be read where the checkpoint is, the listener is called, and the checkpoint is moved past the
block if the call succeeds. -/
theorem keeps_ofBlock_reading {peer : String} {b : Block} {w : Account}
    (past : w.checkpoint.Past b.number → E w)
    (calls : allowed (.reads false) ∨ ¬ w.checkpoint.Past b.number → ∀ ok,
      R w (w.tell (.block ⟨peer, b⟩) ok))
    (fails : allowed (.reads false) ∨ ¬ w.checkpoint.Past b.number →
      E (w.tell (.block ⟨peer, b⟩) false))
    (moves : allowed (.reads false) ∨ ¬ w.checkpoint.Past b.number → ∀ ok,
      allowed (.changes ok) →
      let called := w.tell (.block ⟨peer, b⟩) true
      R called (if ok then called.change (.moveTo (b.number + 1)) else called) ∧
        E (if ok then called.change (.moveTo (b.number + 1)) else called)) :
    (ofBlock true peer b).Keeps allowed R E w := by
  have call (hcalls : allowed (.reads false) ∨ ¬ w.checkpoint.Past b.number) :
      (tell (.block ⟨peer, b⟩) fun ok =>
        if ok then changeIf true (.moveTo (b.number + 1)) .finished else .finished).Keeps
          allowed R E w := by
    intro ok _
    refine ⟨calls hcalls ok, ?_⟩
    cases ok with
    | false => exact fails hcalls
    | true => exact moves hcalls
  intro ok hok
  cases ok with
  | false => exact call (Or.inl hok)
  | true =>
    rw [if_pos rfl]
    cases hn : w.checkpoint.next with
    | none => exact call (Or.inr (by simp [Checkpoint.Past, hn]))
    | some next =>
      dsimp only
      split_ifs with hlt
      · exact past ⟨next, hn, hlt⟩
      · exact call (Or.inr (by simpa [Checkpoint.Past, hn] using hlt))

theorem keeps_ofBlock {peer : String} {b : Block} {w : Account}
    (stores : ∀ e, allowed e → e.Stores) (past : w.checkpoint.Past b.number → E w)
    (calls : ¬ w.checkpoint.Past b.number → ∀ ok, R w (w.tell (.block ⟨peer, b⟩) ok))
    (fails : ¬ w.checkpoint.Past b.number → E (w.tell (.block ⟨peer, b⟩) false))
    (moves : ¬ w.checkpoint.Past b.number →
      let called := w.tell (.block ⟨peer, b⟩) true
      R called (called.change (.moveTo (b.number + 1))) ∧
        E (called.change (.moveTo (b.number + 1)))) :
    (ofBlock true peer b).Keeps allowed R E w := by
  have hnot : allowed (.reads false) ∨ ¬ w.checkpoint.Past b.number →
      ¬ w.checkpoint.Past b.number := fun h => h.resolve_left fun hok => by cases stores _ hok
  refine keeps_ofBlock_reading past (fun h => calls (hnot h)) (fun h => fails (hnot h))
    fun h ok hok => ?_
  obtain rfl : ok = true := stores _ hok
  exact moves (hnot h)

end Plan

/-- What is to be shown of an invariant `B` between the transactions of a block, which knows
whether all transactions so far were taken and which are left.  `delivered` are the ids that the
checkpoint had when the block was entered. -/
structure BlockRule (allowed : Incident → Prop) (R : Account → Account → Prop)
    (E : Account → Prop) (f : EventFilter) (n : Nat) (delivered : List String)
    (B : Bool → List BlockTransaction → Account → Prop) : Prop where
  skips : ∀ {complete t ts w}, B complete (t :: ts) w → f.notices n t = [] ∨ t.id ∈ delivered →
    B complete ts w
  tells : ∀ {complete t ts w}, B complete (t :: ts) w → t.id ∉ delivered →
    ∀ rs e r es, f.notices n t = rs.map Prod.fst ++ e :: es → (∀ x ∈ rs, allowed (.calls x.2)) →
      allowed (.calls r) → R (w.tells rs) (w.tells (rs ++ [(e, r)]))
  fails : ∀ {complete t ts w}, B complete (t :: ts) w → t.id ∉ delivered →
    ∀ rs, rs.map Prod.fst = f.notices n t → (∀ x ∈ rs, allowed (.calls x.2)) →
      (∃ x ∈ rs, x.2 = false) → B false ts (w.tells rs)
  records : ∀ {complete t ts w}, B complete (t :: ts) w → t.id ∉ delivered →
    ∀ rs, rs.map Prod.fst = f.notices n t → rs ≠ [] → (∀ x ∈ rs, allowed (.calls x.2)) →
      (∀ x ∈ rs, x.2 = true) → ∀ ok, allowed (.changes ok) →
      R (w.tells rs) (if ok then (w.tells rs).change (.record t.id) else w.tells rs) ∧
        B complete ts (if ok then (w.tells rs).change (.record t.id) else w.tells rs)
  leaves : ∀ {w}, B false [] w → E w
  ends : ∀ {w}, B true [] w → ∀ ok, allowed (.changes ok) →
    R w (if ok then w.change (.moveTo (n + 1)) else w) ∧
      E (if ok then w.change (.moveTo (n + 1)) else w)

theorem BlockRule.keeps {f : EventFilter} {n : Nat} {delivered : List String}
    {B : Bool → List BlockTransaction → Account → Prop}
    (rule : BlockRule allowed R E f n delivered B) {complete : Bool} {ts : List BlockTransaction}
    {w : Account} (h : B complete ts w) :
    (Plan.ofTransactions true f n delivered complete ts).Keeps allowed R E w := by
  induction ts generalizing complete w with
  | nil =>
    cases complete with
    | false => exact rule.leaves h
    | true => exact fun ok hok => rule.ends h ok hok
  | cons t ts ih =>
    unfold Plan.ofTransactions
    split_ifs with hskip
    · refine ih (rule.skips h ?_)
      simpa using hskip
    · rw [Bool.or_eq_true, not_or, List.isEmpty_iff, decide_eq_true_eq] at hskip
      obtain ⟨hne, hid⟩ := hskip
      refine Plan.keeps_ofNotices (rule.tells h hid) fun rs hrs hall => ?_
      cases hok : rs.all (·.2) with
      | true =>
        have hrs' : rs ≠ [] := by
          rintro rfl
          exact hne hrs.symm
        intro ok hc
        obtain ⟨hR, hB⟩ := rule.records h hid rs hrs hrs' hall (by simpa using hok) ok hc
        exact ⟨hR, ih hB⟩
      | false =>
        refine ih (rule.fails h hid rs hrs hall ?_)
        simpa using hok

end Rules

end LedgerClient
