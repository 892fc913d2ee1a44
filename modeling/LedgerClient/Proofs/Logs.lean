import LedgerClient.Proofs.Waits

/-!
# What is seen of a submitted transaction

The log of a call holds what is sent for a transaction and what comes back (`Client.Log`), as it is
seen from outside: requests in the outbox, answers and replies, outcomes that sessions tell its
mailbox, the looks that it takes at the mailbox, and how the call ends. It grows only in the moves
of its own call, but for the outcomes (`Client.log_of_other`), and only in those that fit what the
call waits for (`Client.log_of_not_fits`).
-/

namespace LedgerClient

deriving instance DecidableEq for CallResult, Confirmation

namespace Request

/-- The proposal that a call sends with a request. -/
def proposal? (i : Nat) : Request → Option (Targets × Proposal)
  | .propose k targets p => if k = i then some (targets, p) else none
  | _ => none

/-- The transaction that a call sends for ordering with a request. -/
def order? (i : Nat) : Request → Option (OrderRoute × OrderRequest)
  | .order k route r => if k = i then some (route, r) else none
  | _ => none

/-- How a call ends, as a request says. -/
def result? (i : Nat) : Request → Option CallResult
  | .finished k r => if k = i then some r else none
  | _ => none

theorem views_of_not_isOf {i : Nat} {r : Request} (h : ¬ r.IsOf i) :
    r.proposal? i = none ∧ r.order? i = none ∧ r.result? i = none := by
  cases r <;> simp_all [IsOf, proposal?, order?, result?]

end Request

namespace Client

variable {c : Client} {m : Move} {i : Nat}

/-- A look that a call takes at its mailbox: when, the outcomes that it takes out, and those that it
has no room for. -/
structure Glance where
  time : Nat
  taken : List CommitOutcome
  left : List CommitOutcome

/-- What has been seen of a submitted transaction. -/
structure Log where
  proposals : List (Targets × Proposal)
  /-- The answers to the proposal, and the time at which they were there. -/
  answers : List (Nat × Except TransportError (List Answer))
  orders : List (OrderRoute × OrderRequest)
  replies : List (Except TransportError OrderReply)
  /-- The outcomes that were told to the mailbox. -/
  reports : List CommitOutcome
  looks : List Glance
  results : List CallResult

namespace Log

def empty : Log := ⟨[], [], [], [], [], [], []⟩

def append (h h' : Log) : Log :=
  ⟨h.proposals ++ h'.proposals, h.answers ++ h'.answers, h.orders ++ h'.orders,
    h.replies ++ h'.replies, h.reports ++ h'.reports, h.looks ++ h'.looks,
    h.results ++ h'.results⟩

instance : Append Log := ⟨append⟩

@[simp] theorem proposals_append (h h' : Log) :
    (h ++ h').proposals = h.proposals ++ h'.proposals := rfl

@[simp] theorem answers_append (h h' : Log) : (h ++ h').answers = h.answers ++ h'.answers := rfl

@[simp] theorem orders_append (h h' : Log) : (h ++ h').orders = h.orders ++ h'.orders := rfl

@[simp] theorem replies_append (h h' : Log) : (h ++ h').replies = h.replies ++ h'.replies := rfl

@[simp] theorem reports_append (h h' : Log) : (h ++ h').reports = h.reports ++ h'.reports := rfl

@[simp] theorem looks_append (h h' : Log) : (h ++ h').looks = h.looks ++ h'.looks := rfl

@[simp] theorem results_append (h h' : Log) : (h ++ h').results = h.results ++ h'.results := rfl

/-- The outcomes that were taken out of the mailbox. -/
def taken (h : Log) : List CommitOutcome := h.looks.flatMap (·.taken)

@[simp] theorem taken_append (h h' : Log) : (h ++ h').taken = h.taken ++ h'.taken :=
  List.flatMap_append

theorem taken_of_look {h h' : Log} {l : Glance} (hlooks : h'.looks = h.looks ++ [l]) :
    h'.taken = h.taken ++ l.taken := by
  rw [taken, hlooks, List.flatMap_append]
  exact congrArg (h.taken ++ ·) (List.append_nil _)

/-- No look from a time on has left anything in the mailbox. -/
def Ample (h : Log) (deadline : Nat) : Prop := ∀ l ∈ h.looks, deadline ≤ l.time → l.left = []

theorem append_empty (h : Log) : h ++ empty = h := by
  change append h empty = h
  simp [append, empty]

theorem append_assoc (h₁ h₂ h₃ : Log) : h₁ ++ h₂ ++ h₃ = h₁ ++ (h₂ ++ h₃) := by
  change append (append h₁ h₂) h₃ = append h₁ (append h₂ h₃)
  simp [append]

end Log

/-! ## The log of a move -/

/-- The answers that a call gets to its proposal. -/
def answersTo (i : Nat) (c : Client) (m : Move) :
    List (Nat × Except TransportError (List Answer)) :=
  match m, c.call? i with
  | .endorsed k r, some (.endorsing ..) => if k = i then [(c.clock, r)] else []
  | _, _ => []

/-- The replies that a call gets from the ordering service. -/
def repliesTo (i : Nat) (c : Client) (m : Move) : List (Except TransportError OrderReply) :=
  match m, c.call? i with
  | .ordered k r, some (.ordering ..) => if k = i then [r] else []
  | _, _ => []

/-- The outcomes that are told to the mailbox of the wait of a call. -/
def reportsTo (i : Nat) (c : Client) (m : Move) : List CommitOutcome :=
  match ((c.call? i).bind Call.wait?).bind c.mailboxOf? with
  | some n => c.posts n m
  | none => []

/-- The look that a call takes at its mailbox when it is resumed with room for some outcomes. -/
def looks (i : Nat) (c : Client) (m : Move) : List Glance :=
  match m, c.call? i with
  | .resume k room, some (.confirming w ..) =>
    if k = i ∧ room ≠ 0 then
      (c.waits[w]?).toList.map fun wait =>
        ⟨c.clock, wait.queued.take room, wait.queued.drop room⟩
    else []
  | _, _ => []

def Log.of (i : Nat) (c : Client) (m : Move) : Log where
  proposals := (c.sent m).filterMap (Request.proposal? i)
  answers := c.answersTo i m
  orders := (c.sent m).filterMap (Request.order? i)
  replies := c.repliesTo i m
  reports := c.reportsTo i m
  looks := c.looks i m
  results := (c.sent m).filterMap (Request.result? i)

/-- The log of a run. -/
def log (i : Nat) : Client → List Move → Log
  | _, [] => .empty
  | c, m :: ms => .of i c m ++ log i (c.apply m) ms

theorem views_of_silent (h : ∀ r ∈ c.sent m, ¬ r.IsOf i) :
    (Log.of i c m).proposals = [] ∧ (Log.of i c m).orders = [] ∧ (Log.of i c m).results = [] := by
  simp only [Log.of, List.filterMap_eq_nil_iff]
  exact ⟨fun r hr => (Request.views_of_not_isOf (h r hr)).1,
    fun r hr => (Request.views_of_not_isOf (h r hr)).2.1,
    fun r hr => (Request.views_of_not_isOf (h r hr)).2.2⟩

theorem reportsTo_of_no_session (hm : m.session? = none) : c.reportsTo i m = [] := by
  unfold reportsTo
  split
  · exact posts_of_no_session _ hm
  · rfl

theorem session?_of_call? {k : Nat} (hm : m.call? = some k) : m.session? = none := by
  cases m <;> first | rfl | cases hm

/-- Moves in which the call does not act add only outcomes to its log. -/
theorem log_of_other (hc : c.Tidy) (hactor : c.actor m ≠ i) :
    Log.of i c m = ⟨[], [], [], [], c.reportsTo i m, [], []⟩ := by
  obtain ⟨hproposals, horders, hresults⟩ := views_of_silent (not_isOf_of_mem_sent hc hactor)
  have hanswers : c.answersTo i m = [] := by
    unfold answersTo
    split
    · exact if_neg fun hk => hactor hk
    · rfl
  have hreplies : c.repliesTo i m = [] := by
    unfold repliesTo
    split
    · exact if_neg fun hk => hactor hk
    · rfl
  have hlooks : c.looks i m = [] := by
    unfold looks
    split
    · exact if_neg fun hk => hactor hk.1
    · rfl
  simp only [Log.of] at hproposals horders hresults ⊢
  rw [hproposals, horders, hresults, hanswers, hreplies, hlooks]

theorem log_of_not_fits (hm : m.call? = some i) (hsame : c.apply m = c)
    (hfits : ∀ call, c.call? i = some call → call.fits m = false) : Log.of i c m = .empty := by
  obtain ⟨hproposals, horders, hresults⟩ := views_of_silent (c := c) (m := m) (i := i)
    (by rw [sent_eq_nil hsame]; simp)
  have hanswers : c.answersTo i m = [] := by
    unfold answersTo
    split
    · next hcall => exact absurd (hfits _ hcall) (by simp [Call.fits])
    · rfl
  have hreplies : c.repliesTo i m = [] := by
    unfold repliesTo
    split
    · next hcall => exact absurd (hfits _ hcall) (by simp [Call.fits])
    · rfl
  have hlooks : c.looks i m = [] := by
    unfold looks
    split
    · next hcall => exact if_neg fun hk => absurd (hfits _ hcall) (by simp [Call.fits, hk.2])
    · rfl
  simp only [Log.of] at hproposals horders hresults ⊢
  rw [hproposals, horders, hresults, hanswers, hreplies, hlooks,
    reportsTo_of_no_session (session?_of_call? hm)]
  rfl

theorem log_of_gone (hc : c.Tidy) (h : c.Over i) : Log.of i c m = .empty := by
  by_cases hactor : c.actor m = i
  · exact log_of_not_fits (call?_of_actor hactor h.named) (h.apply_eq hactor) fun call hcall =>
      absurd (h.gone.symm.trans hcall) (by simp)
  · rw [log_of_other hc hactor, reportsTo, h.gone]
    rfl

theorem log_of_over {ms : List Move} (hc : c.Tidy) (h : c.Over i) : log i c ms = .empty := by
  induction ms generalizing c with
  | nil => rfl
  | cons m ms ih =>
    rw [log, log_of_gone hc h, ih (hc.apply m) (h.apply hc m).1]
    rfl

end Client

end LedgerClient
