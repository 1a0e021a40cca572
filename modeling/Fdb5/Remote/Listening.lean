import Fdb5.Remote.Messages

/-! The thread of `RemoteFDB` that listens on the data connection. -/
namespace Fdb5

open Effect Bytes

/-- An `eckit::Queue`: who pops an interrupted one gets its exception. -/
structure Queue (α : Type) where
  items : List α := []
  done : Bool := false
  exception : Option Failure := none

namespace Queue

variable {α : Type}

def emplace (q : Queue α) (a : α) : Queue α := { q with items := q.items ++ [a] }

def close (q : Queue α) : Queue α := { q with done := true }

def interrupt (q : Queue α) (e : Failure) : Queue α := { q with exception := some e }

end Queue

/-- What the listening thread delivers to. A request's queue outlives its entry in `messageQueues_`,
as the worker that pops it shares it. -/
structure Receivers where
  messageQueues : List UInt32 := []
  queues : UInt32 → Queue StoredMessage := fun _ => {}
  archiveID : UInt32 := 0
  archiveQueue : Option (Queue (Key × List UInt8)) := none
  retrieveMessageQueue : Queue StoredMessage := {}

namespace Receivers

variable (r : Receivers)

/-- `it->second` of an entry, changed. -/
def onQueue (id : UInt32) (f : Queue StoredMessage → Queue StoredMessage) : Receivers :=
  { r with queues := Function.update r.queues id (f (r.queues id)) }

/-- `messageQueues_.erase(it)`. -/
def erase (id : UInt32) : Receivers := { r with messageQueues := r.messageQueues.filter fun i => i ≠ id }

def retrieve (m : StoredMessage) : Receivers :=
  { r with retrieveMessageQueue := r.retrieveMessageQueue.emplace m }

/-- What the thread does with an exception that ends it. -/
def interruptAll (e : Failure) : Receivers where
  messageQueues := []
  queues id := if id ∈ r.messageQueues then (r.queues id).interrupt e else r.queues id
  archiveID := r.archiveID
  archiveQueue := r.archiveQueue.map (·.interrupt e)
  retrieveMessageQueue := r.retrieveMessageQueue.interrupt e

end Receivers

/-- `RemoteFDBException(msg, endpoint)`. -/
def remoteException (msg : List UInt8) : Failure := .exception (textOf msg)

namespace RemoteFDB

/-- `dataRead` of a payload. -/
def dataRead (hdr : MessageHeader) : EStateM Failure (List UInt8 × Receivers) (List UInt8) :=
  onFst (read hdr.payloadSize.toNat shortRead)

/-- The three kinds of messages that the loop delivers; `true` stands for `break`. -/
def deliverBlob (hdr : MessageHeader) : EStateM Failure (List UInt8 × Receivers) Unit := do
  let payload ← dataRead hdr
  onSnd (modify fun r =>
    if hdr.requestID ∈ r.messageQueues then r.onQueue hdr.requestID (·.emplace ⟨hdr, payload⟩)
    else r.retrieve ⟨hdr, payload⟩)

def deliverComplete (hdr : MessageHeader) : EStateM Failure (List UInt8 × Receivers) Unit :=
  onSnd (modify fun r =>
    if hdr.requestID ∈ r.messageQueues then (r.onQueue hdr.requestID (·.close)).erase hdr.requestID
    else r.retrieve ⟨hdr, []⟩)

def deliverError (hdr : MessageHeader) : EStateM Failure (List UInt8 × Receivers) Unit := do
  let r := (← get).2
  if hdr.requestID ∈ r.messageQueues then
    let msg ← dataRead hdr
    onSnd (modify fun r =>
      (r.onQueue hdr.requestID (·.interrupt (remoteException msg))).erase hdr.requestID)
  else if hdr.requestID = r.archiveID then
    match r.archiveQueue with
    | some queue =>
      let msg ← dataRead hdr
      onSnd (modify fun r => { r with archiveQueue := some (queue.interrupt (remoteException msg)) })
    | none => pure ()
  else
    let payload ← dataRead hdr
    onSnd (modify fun r => r.retrieve ⟨hdr, payload⟩)

/-- An iteration of `listeningThreadLoop`: whether the loop goes on. -/
def listen : EStateM Failure (List UInt8 × Receivers) Bool := do
  let hdr ← onFst (readValue MessageHeader.layout shortRead)
  ensure (hdr.marker = startMarker) "hdr.marker == StartMarker"
  ensure (hdr.version = currentVersion) "hdr.version == CurrentVersion"
  match Message.ofCode hdr.message with
  | some .exit => return false
  | some .blob => deliverBlob hdr
  | some .complete => deliverComplete hdr
  | some .error => deliverError hdr
  | _ => throw (.seriousBug "ERROR: Unexpected message recieved. ABORTING")
  onFst readTail
  return true

/-- An iteration with what catches an exception around the loop. -/
def listeningThreadLoop : EStateM Failure (List UInt8 × Receivers) Bool :=
  tryCatch listen fun e => do
    onSnd (modify fun r => r.interruptAll e)
    return false

theorem run_listeningThreadLoop {s : List UInt8 × Receivers} : listeningThreadLoop.run s = match listen.run s with
    | .ok b t => .ok b t
    | .error e t => .ok false (t.1, t.2.interruptAll e) := by
  rw [listeningThreadLoop, run_tryCatch]
  cases listen.run s <;> rfl

end RemoteFDB

/-- The data connection carries the answers of a server. -/
def WireMessage.FromServer (m : WireMessage) : Prop :=
  m.Fits ∧ (m.message = .blob ∨ m.message = .complete ∨ m.message = .error)

namespace Receivers

variable (r : Receivers) (reads : List UInt32) (m : WireMessage)

/-- Where a message belongs: to the request whose id it carries, and nowhere if that has ended. The
requests to read are those of `reads`. -/
def deliver : Receivers :=
  if m.requestID ∈ r.messageQueues then
    match m.message with
    | .blob => r.onQueue m.requestID (·.emplace m.stored)
    | .complete => (r.onQueue m.requestID (·.close)).erase m.requestID
    | _ => (r.onQueue m.requestID (·.interrupt (remoteException m.payload))).erase m.requestID
  else if m.requestID ∈ reads then
    r.retrieve (match m.message with | .complete => ⟨m.header, []⟩ | _ => m.stored)
  else if m.message = .error ∧ m.requestID = r.archiveID then
    { r with archiveQueue := r.archiveQueue.map (·.interrupt (remoteException m.payload)) }
  else r

/-- The message comes while its request can take it: nothing is completed with a payload, an archive
that fails has its queue, and any other message is for a request that has not ended. -/
def Expects : Prop :=
  (m.message = .complete → m.payload = []) ∧
  (m.requestID ∈ r.messageQueues ∨
    if m.message = .error ∧ m.requestID = r.archiveID
    then m.requestID ∉ reads ∧ (r.archiveQueue.isSome ∨ m.payload = [])
    else m.requestID ∈ reads)

/-- What the loop leaves of the payload of a message. -/
def unread : List UInt8 :=
  match m.message with
  | .complete => m.payload
  | .error =>
    if m.requestID ∉ r.messageQueues ∧ m.requestID = r.archiveID ∧ r.archiveQueue.isNone then m.payload else []
  | _ => []

/-- Where the loop puts a message. -/
def taken : Receivers :=
  if m.requestID ∈ r.messageQueues then r.deliver [] m
  else if m.message = .error ∧ m.requestID = r.archiveID then r.deliver [] m
  else r.retrieve (match m.message with | .complete => ⟨m.header, []⟩ | _ => m.stored)

end Receivers

namespace RemoteFDB

variable {r : Receivers} {reads : List UInt32} {m : WireMessage} {rest : List UInt8}
  {E : Failure → List UInt8 × Receivers → Prop}

theorem ends_dataRead {Q : List UInt8 → List UInt8 × Receivers → Prop} (h : m.Fits) :
    Ends (dataRead m.header) (m.payload ++ rest, r) Q E ↔ Q m.payload (rest, r) := by
  rw [dataRead, ends_focus, ends_read_append (WireMessage.payloadSize_header h).symm]

section Delivered

variable {Q : Unit → List UInt8 × Receivers → Prop}

theorem ends_deliverBlob (h : m.Fits) (hm : m.message = .blob) :
    Ends (deliverBlob m.header) (m.payload ++ rest, r) Q E ↔ Q () (r.unread m ++ rest, r.taken m) := by
  rw [deliverBlob, ends_bind, ends_dataRead h]
  by_cases hid : m.requestID ∈ r.messageQueues <;>
    simp [Receivers.unread, Receivers.taken, Receivers.deliver, WireMessage.stored, hm, hid]

theorem ends_deliverComplete (hm : m.message = .complete) :
    Ends (deliverComplete m.header) (m.payload ++ rest, r) Q E ↔ Q () (r.unread m ++ rest, r.taken m) := by
  by_cases hid : m.requestID ∈ r.messageQueues <;>
    simp [deliverComplete, Receivers.unread, Receivers.taken, Receivers.deliver, hm, hid]

theorem ends_deliverError (h : m.Fits) (hm : m.message = .error) :
    Ends (deliverError m.header) (m.payload ++ rest, r) Q E ↔ Q () (r.unread m ++ rest, r.taken m) := by
  rw [deliverError, ends_bind, ends_get]
  by_cases hid : m.requestID ∈ r.messageQueues
  · simp [Receivers.unread, Receivers.taken, Receivers.deliver, hm, hid, ends_dataRead h]
  · by_cases ha : m.requestID = r.archiveID
    · rw [ha] at hid
      cases hq : r.archiveQueue with
      | none =>
        have hr : { r with archiveQueue := none } = r := by rw [← hq]
        simp [Receivers.unread, Receivers.taken, Receivers.deliver, hm, hid, ha, hq, hr]
      | some queue =>
        simp [Receivers.unread, Receivers.taken, Receivers.deliver, hm, hid, ha, hq, ends_dataRead h]
    · simp [Receivers.unread, Receivers.taken, hm, hid, ha, ends_dataRead h, WireMessage.stored]

end Delivered

theorem ends_listen {Q : Bool → List UInt8 × Receivers → Prop} (h : m.FromServer) :
    Ends listen (m.encode ++ rest, r) Q E ↔
      Ends (onFst readTail) (r.unread m ++ (markerLayout.encode endMarker ++ rest), r.taken m) (fun _ => Q true) E := by
  rw [listen, ends_bind, ends_focus, WireMessage.encode_append, ends_readValue_append]
  simp only [ends_bind, ends_ensure]
  rcases h with ⟨hfits, hm | hm | hm⟩
  · simp [hm, ends_deliverBlob hfits hm]
  · simp [hm, ends_deliverComplete hm]
  · simp [hm, ends_deliverError hfits hm]

/-- An iteration ends at the next header exactly if it has read the payload. -/
theorem run_listen_eq {r' : Receivers} (h : m.FromServer) :
    listen.run (m.encode ++ rest, r) = .ok true (rest, r') ↔ r.unread m = [] ∧ r.taken m = r' := by
  constructor
  · intro hrun
    have hends : Ends listen (m.encode ++ rest, r)
        (fun _ t => t.1.length = (r.unread m).length + rest.length ∧ t.2 = r.taken m) fun _ _ => True := by
      have hwidth : markerLayout.width = 4 := rfl
      rw [ends_listen h, ends_focus, readTail, ends_bind, readValue, ends_map, ends_read]
      simp only [hwidth, List.length_append, WireMessage.length_endMarker, List.length_drop, ends_ensure]
      refine ⟨fun _ => ⟨fun _ => ⟨by omega, trivial⟩, fun _ => trivial⟩, fun _ => trivial⟩
    obtain ⟨hlen, htaken⟩ := hends.ok hrun
    refine ⟨List.eq_nil_of_length_eq_zero ?_, htaken.symm⟩
    change rest.length = (r.unread m).length + rest.length at hlen
    omega
  · rintro ⟨hunread, rfl⟩
    have hends : Ends listen (m.encode ++ rest, r) (fun b t => b = true ∧ t = (rest, r.taken m)) fun _ _ => False := by
      rw [ends_listen h, hunread, ends_focus, List.nil_append, ends_readTail]
      exact ⟨rfl, rfl⟩
    obtain ⟨b, t, hrun, rfl, rfl⟩ := hends.returns
    exact hrun

end RemoteFDB

namespace Receivers

variable {r : Receivers} {reads : List UInt32} {m : WireMessage}

theorem retrieve_ne {r' : Receivers} {x : StoredMessage}
    (h : r'.retrieveMessageQueue = r.retrieveMessageQueue) : r.retrieve x ≠ r' := by
  intro he
  have hitems := congrArg (fun r => r.retrieveMessageQueue.items.length) he
  simp [h, retrieve, Queue.emplace] at hitems

theorem unread_eq_nil : r.unread m = [] ↔ (m.message = .complete → m.payload = []) ∧
    (m.message = .error → m.requestID ∉ r.messageQueues → m.requestID = r.archiveID →
      r.archiveQueue.isSome ∨ m.payload = []) := by
  unfold unread
  cases m.message <;> simp
  cases r.archiveQueue <;> simp

/-- The loop is right about a message exactly if the message is expected. -/
theorem taken_iff : r.unread m = [] ∧ r.taken m = r.deliver reads m ↔ r.Expects reads m := by
  rw [unread_eq_nil]
  unfold taken Expects
  by_cases hid : m.requestID ∈ r.messageQueues
  · simp [deliver, hid]
  by_cases ha : m.message = .error ∧ m.requestID = r.archiveID
  · obtain ⟨hm, ha⟩ := ha
    rw [ha] at hid
    by_cases hr : r.archiveID ∈ reads
    · have hqueue : (r.deliver [] m).retrieveMessageQueue = r.retrieveMessageQueue := by
        simp [deliver, hm, ha, hid]
      have hretrieve : r.deliver reads m = r.retrieve m.stored := by simp [deliver, hm, ha, hid, hr]
      have hne : r.deliver [] m ≠ r.deliver reads m := hretrieve ▸ (retrieve_ne hqueue).symm
      simp [hm, ha, hid, hr, hne]
    · have heq : r.deliver [] m = r.deliver reads m := by simp [deliver, ha, hr]
      simp [hm, ha, hid, hr, heq]
  · rw [if_neg hid, if_neg ha, if_neg ha]
    by_cases hr : m.requestID ∈ reads
    · have htaken : r.deliver reads m = r.retrieve (match m.message with | .complete => ⟨m.header, []⟩ | _ => m.stored) := by
        simp [deliver, hid, hr]
      have hunread : m.message = .error → m.requestID ≠ r.archiveID := fun hm hid => ha ⟨hm, hid⟩
      simp +contextual [htaken, hr, hunread]
    · have htaken : r.deliver reads m = r := by simp [deliver, hid, hr, ha]
      have hne : ∀ x, r.retrieve x ≠ r := fun _ => retrieve_ne rfl
      simp [htaken, hid, hr, hne]

end Receivers

end Fdb5
