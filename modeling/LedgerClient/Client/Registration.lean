import LedgerClient.Client.State

/-!
# Registrations

A listener is registered under its key from the moment a call begins to add it. Adding a key that
is there changes nothing. When the call has attached its sessions it puts them under the key; if
the key is gone by then, the listener was removed meanwhile and the sessions are released.
-/

namespace LedgerClient

/-- A listener that is told of blocks or of the events of a chaincode. -/
inductive Subject where
  | blocks (l : ListenerId)
  | events (chaincode : String) (l : ListenerId)
  deriving DecidableEq, Repr, Inhabited

/-- The key that a listener is registered under. -/
def Subject.key : Subject → ListenerKey
  | .blocks l => .blocks l
  | .events chaincode l => .events chaincode l

/-- The audience that a key and options describe. -/
def ListenerKey.audience (o : ListenerOptions) : ListenerKey → Audience
  | .blocks l => .block l o.checkpointer
  | .events chaincode l => .contract l ⟨chaincode, o.eventName, o.kind⟩ o.checkpointer
  | .commit l => .commit l "" ""

namespace Client

/-- What is registered under a key. -/
def registered? (c : Client) (key : ListenerKey) : Option (List Attachment) :=
  (c.registrations.find? (·.1 = key)).map (·.2)

/-- Registers a key without sessions. -/
def reserve (c : Client) (key : ListenerKey) : Client :=
  { c with registrations := c.registrations ++ [(key, [])] }

/-- Puts sessions under a key, or releases them if the key is gone. -/
def complete (c : Client) (key : ListenerKey) (attachments : List Attachment) : Client :=
  match c.registered? key with
  | none => c.releaseAll attachments
  | some _ =>
    { c with
      registrations := c.registrations.map fun r =>
        if r.1 = key then (r.1, r.2 ++ attachments) else r }

/-- Removes a key and releases its sessions. -/
def unregister (c : Client) (key : ListenerKey) : Client :=
  match c.registered? key with
  | none => c
  | some attachments =>
    { c with registrations := c.registrations.filter (·.1 ≠ key) }.releaseAll attachments

/-- Removes every registration and stops every shared feed. -/
def close (c : Client) : Client :=
  let attachments := c.registrations.flatMap (·.2)
  let c := { c with registrations := [] }.releaseAll attachments
  let feeds := c.table.shared.map (·.2)
  feeds.foldl announceStop { c with table := c.table.close }

/-- Gives up everything once nobody holds the client: sessions are removed and feeds stopped. -/
def tearDown (c : Client) : Client :=
  let attachments := c.registrations.flatMap (·.2)
  let c := { c with registrations := [] }
  let c := attachments.foldl (fun c a =>
    { c.modifySession a.session Session.close with table := c.table.modify a.feed Feed.stop }) c
  { c with table := c.table.close }

/-- Calls and waits keep a client that the application no longer holds. -/
def tearDownIfUnused (c : Client) : Client :=
  if !c.held && c.calls.isEmpty && c.waits.all (!·.held) then c.tearDown else c

def finish (c : Client) (i : Nat) (r : CallResult) : Client :=
  ({ c with calls := c.calls.filter (·.1 ≠ i) }.send (.finished i r)).tearDownIfUnused

end Client

end LedgerClient
