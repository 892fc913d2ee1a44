import LedgerClient.Client.Registration

/-!
# The course of calls

How each call goes on: a listener is attached, a transaction is endorsed, ordered and confirmed, a
query is answered. The wait for confirmation is set up before the transaction is sent for ordering,
and its deadline counts from then; whatever way the call ends, its mailbox is taken off again.
-/

namespace LedgerClient.Client

/-! ## Waits -/

def wait? (c : Client) (w : Nat) : Option Wait := c.waits[w]?

def modifyWait (c : Client) (w : Nat) (f : Wait → Wait) : Client :=
  { c with waits := c.waits.modify w f }

def newWait (c : Client) (id : TransactionId) (quorum : Option Quorum) (limit : Duration) :
    Client × Nat :=
  ({ c with waits := c.waits ++ [⟨id, quorum, limit, none, none, none, true⟩] }, c.waits.length)

/-- Takes a wait's mailbox off and forgets it. -/
def cancelWait (c : Client) (w : Nat) : Client :=
  match c.wait? w with
  | none => c
  | some wait =>
    let c :=
      match wait.listener with
      | some n => c.unregister (.commit (.mailbox n))
      | none => c
    c.modifyWait w fun wait => { wait with listener := none, mailbox := none }

/-- Nobody holds a wait any more: its mailbox is taken off. -/
def dropWait (c : Client) (w : Nat) : Client :=
  (c.cancelWait w).modifyWait w fun wait => { wait with held := false }

/-- Whether a call reads the mailbox of a wait. -/
def confirms (w : Nat) : Call → Bool
  | .confirming v .. => v = w
  | _ => false

/-- Puts an outcome into the mailbox with a number, and wakes the call that reads it. -/
def post (c : Client) (mailbox : Nat) (o : CommitOutcome) : Client :=
  match c.waits.findIdx? fun w => w.mailbox.any (·.1 = mailbox) with
  | none => c
  | some w =>
    let c := c.modifyWait w fun wait =>
      { wait with mailbox := wait.mailbox.map fun m => (m.1, m.2 ++ [o]) }
    (c.calls.filter fun entry => confirms w entry.2).foldl (fun c entry => c.wake (.call entry.1)) c

/-! ## Ordering and confirming -/

/-- One look at a wait: the first outcomes of its mailbox, as many as there is room for, then the
deadline. What is left over stays for another look. -/
def lookAt (c : Client) (i w room : Nat) (q : Quorum) (t : Tally) (payload : Option Bytes) :
    Client :=
  match c.wait? w with
  | none => c
  | some wait =>
    let c := c.modifyWait w (·.drop room)
    let passed := (wait.deadline.getD c.clock) ≤ c.clock
    match Confirmation.look wait.id q wait.limit t (wait.queued.take room) passed with
    | .waiting t => c.setCall i (.confirming w q t payload)
    | .ended r =>
      (c.dropWait w).finish i <|
        match payload with
        | some bytes => .answered (r.map fun _ => bytes)
        | none => .confirmed r

/-- Begins to wait for confirmation; the first look is taken when the call is resumed. Without a
quorum or a mailbox there is nothing to wait for. -/
def confirm (c : Client) (i w : Nat) (payload : Option Bytes) : Client :=
  match c.wait? w with
  | none => c
  | some wait =>
    match wait.quorum, wait.mailbox with
    | some q, some _ =>
      (c.setCall i (.confirming w q (.new q.peers.length) payload)).send
        (.wakeAt i (wait.deadline.getD c.clock))
    | _, _ =>
      (c.dropWait w).finish i <|
        match payload with
        | some bytes => .answered (.ok bytes)
        | none => .confirmed (.ok ())

/-- Goes on with ordering after a step of it. -/
def orderStep (c : Client) (i : Nat) (r : OrderRequest) (payload : Bytes) (w : Nat) :
    OrderStep → Client
  | .ask route => (c.setCall i (.ordering r payload w route)).send (.order i route r)
  | .done (.error e) => (c.dropWait w).finish i (.answered (.error e))
  | .done (.ok reply) =>
    if reply.isAccepted then c.confirm i w (some payload)
    else
      (c.dropWait w).finish i
        (.answered (.error (.rejected r.proposal.id reply.status reply.message)))

/-- Sends an endorsed transaction for ordering. -/
def startOrdering (c : Client) (i : Nat) (r : OrderRequest) (payload : Bytes) (w : Nat) : Client :=
  c.orderStep i r payload w
    (OrderRoute.start c.channel c.options.discoveryEnabled r.proposal.id)

/-! ## Attaching listeners -/

/-- Goes on after a listener was attached. -/
def proceed (c : Client) (i : Nat) : AfterLink → Client
  | .added => c.finish i .added
  | .listening => c.finish i .listening
  | .order r payload w => c.startOrdering i r payload w

/-- Notes which first attempts are over by now. -/
def progress (c : Client) (links : List Link) : List Link :=
  links.map fun l =>
    { l with
      attempted := l.attempted ||
        match c.table.feed? l.attachment.feed with
        | some f => f.isAttempted
        | none => true }

/-- Goes on once every first attempt is over. -/
def followLinks (c : Client) (i : Nat) (key : ListenerKey) (links : List Link) (next : AfterLink) :
    Client :=
  let links := c.progress links
  if links.all (·.attempted) then (c.complete key (links.map (·.attachment))).proceed i next
  else c.setCall i (.linking key links next)

/-- Attaches a block or contract listener. -/
def attachListener (c : Client) (i : Nat) (key : ListenerKey) (o : ListenerOptions)
    (start : Option Nat) : Client :=
  match c.channel.localEventPeer? c.identity.organization with
  | none => (c.unregister key).finish i (.notAdded (.noEventPeers c.channel.name))
  | some peer =>
    let (c, session) := c.spawn (key.audience o) start
    let (c, attachment) := c.attachTo peer o.kind start session
    c.followLinks i key [⟨attachment, false⟩] .added

/-- Adds a block or contract listener. -/
def addListener (c : Client) (s : Subject) (o : ListenerOptions) : Client :=
  let (c, i) := c.newCall
  match c.registered? s.key with
  | some _ => c.finish i .added
  | none =>
    let c := c.reserve s.key
    match o.checkpointer with
    | some name => (c.setCall i (.readingCheckpoint s.key o)).send (.readCheckpoint i name)
    | none => c.attachListener i s.key o o.startBlock

/-- The position of the checkpoint is there, or cannot be read. The checkpoint's block goes before
the start block of the options. -/
def checkpointRead (c : Client) (i : Nat) (r : Except CheckpointError (Option Nat)) : Client :=
  match c.call? i with
  | some (.readingCheckpoint key o) =>
    match r with
    | .ok position => c.attachListener i key o (position.or o.startBlock)
    | .error e => (c.unregister key).finish i (.notAdded (.checkpoint e))
  | _ => c

/-- Registers a commit listener and attaches it to the filtered feeds of peers. -/
def linkCommit (c : Client) (i : Nat) (l : ListenerId) (peers : List Peer) (id : String)
    (next : AfterLink) : Client :=
  match c.registered? (.commit l) with
  | some _ => c.proceed i next
  | none =>
    let c := c.reserve (.commit l)
    let (c, sessions) := peers.foldl (fun (c, sessions) p =>
      let (c, s) := c.spawn (.commit l p.name id) none
      (c, sessions ++ [(p, s)])) (c, [])
    let (c, links) := sessions.foldl (fun (c, links) (p, s) =>
      let (c, attachment) := c.attachTo p .filtered none s
      (c, links ++ [⟨attachment, false⟩])) (c, [])
    c.followLinks i (.commit l) links next

def addCommitListener (c : Client) (l : ListenerId) (peers : List Peer) (id : String) : Client :=
  let (c, i) := c.newCall
  c.linkCommit i l peers id .added

/-- Opens the mailbox of a wait and registers it on the peers of the quorum. A quorum without
peers is given up. -/
def openMailbox (c : Client) (i w : Nat) (next : AfterLink) : Client :=
  match c.wait? w with
  | none => c
  | some wait =>
    match wait.quorum with
    | none => c.proceed i next
    | some q =>
      if q.peers.isEmpty then
        (c.modifyWait w fun wait => { wait with quorum := none }).proceed i next
      else
        let n := c.nextMailbox
        let deadline := c.clock + wait.limit.ceilMillis
        let c := { c with nextMailbox := n + 1 }.modifyWait w fun wait =>
          { wait with deadline := some deadline, listener := some n, mailbox := some (n, []) }
        c.linkCommit i (.mailbox n) q.peers wait.id.text next

/-! ## Submitting -/

def proposalOf (c : Client) (inv : Invocation) : Except TransactionFailure Proposal :=
  Draft.build
    { id := some inv.id, channel := some c.channel.name, chaincode := some inv.chaincode
      function := some inv.function, args := inv.args, transient := inv.transient
      nonce := inv.nonce, creator := c.identity.credentials }

/-- Submits a transaction: it is endorsed first. -/
def submit (c : Client) (inv : Invocation) : Client :=
  let (c, i) := c.newCall
  match c.proposalOf inv with
  | .error e => c.finish i (.answered (.error e))
  | .ok p =>
    match Targets.choose c.channel inv.peers inv.organizations c.options.discoveryEnabled with
    | .error e => c.finish i (.answered (.error e))
    | .ok targets => (c.setCall i (.endorsing p inv.quorum)).send (.propose i targets p)

/-- The answers to a proposal are there, or discovery failed. -/
def endorsed (c : Client) (i : Nat) (r : Except TransportError (List Answer)) : Client :=
  match c.call? i with
  | some (.endorsing p quorum) =>
    match r with
    | .error e => c.finish i (.answered (.error (.transport e)))
    | .ok answers =>
      match Verdict.ofAnswers answers with
      | .error refusals => c.finish i (.answered (.error (.notEndorsed refusals)))
      | .ok verdict =>
        let (c, w) := c.newWait p.id (quorum.or c.defaultQuorum) c.options.commitTimeout
        c.openMailbox i w (.order ⟨p, verdict.valid⟩ verdict.payload w)
  | _ => c

/-- The ordering service answered, or could not be reached. -/
def ordered (c : Client) (i : Nat) (r : Except TransportError OrderReply) : Client :=
  match c.call? i with
  | some (.ordering request payload w route) => c.orderStep i request payload w (route.receive r)
  | _ => c

/-! ## Querying -/

/-- Goes on with a query after a step of it. -/
def inquire (c : Client) (i : Nat) (p : Proposal) : Chooser × InquiryStep → Client
  | (chooser, .ask inquiry) =>
    ({ c with chooser }.setCall i (.inquiring p inquiry)).send (.query i inquiry.asked p)
  | (chooser, .done r) => { c with chooser }.finish i (.answered r)

/-- Evaluates a function on one query peer. -/
def evaluate (c : Client) (inv : Invocation) : Client :=
  let (c, i) := c.newCall
  match c.proposalOf inv with
  | .error e => c.finish i (.answered (.error e))
  | .ok p => c.inquire i p (Inquiry.start c.chooser (inv.peers.getD c.queryPeers))

/-- The peer that was asked replied, or could not be reached. -/
def inquired (c : Client) (i : Nat) (r : Except TransportError Reply) : Client :=
  match c.call? i with
  | some (.inquiring p inquiry) => c.inquire i p (inquiry.receive c.chooser r)
  | _ => c

/-! ## Calls of their own on a wait -/

/-- Begins to listen for the outcomes of a wait. -/
def listen (c : Client) (w : Nat) : Client :=
  let (c, i) := c.newCall
  c.openMailbox i w .listening

/-- Waits for confirmation and gives the wait up. -/
def awaitConfirmation (c : Client) (w : Nat) : Client :=
  let (c, i) := c.newCall
  c.confirm i w none

/-! ## Going on and giving up -/

/-- Goes on with a call if what it waits for within the client is there. A call that waits for
outcomes takes no more of them than there is room for; without room it does not look at all. -/
def resume (c : Client) (i room : Nat) : Client :=
  match c.call? i with
  | some (.linking key links next) => c.followLinks i key links next
  | some (.confirming w q t payload) => if room = 0 then c else c.lookAt i w room q t payload
  | _ => c

/-- Gives up a call before its end. Its wait, if it has one, is dropped; what it has attached
otherwise stays. -/
def abandon (c : Client) (i : Nat) : Client :=
  match c.call? i with
  | none => c
  | some call =>
    let c :=
      match call with
      | .linking _ _ (.order _ _ w) | .ordering _ _ w _ | .confirming w _ _ _ => c.dropWait w
      | _ => c
    { c with calls := c.calls.filter (·.1 ≠ i) }.tearDownIfUnused

end LedgerClient.Client
