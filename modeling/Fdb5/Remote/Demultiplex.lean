import Fdb5.Library.Follows
import Fdb5.Remote.Listening

/-! Runs of the listening thread, between the steps of the client's other threads. -/
namespace Fdb5

open Effect Bytes

/-- What the other threads do to the receivers. -/
inductive ClientStep where
  /-- `messageQueues_.emplace` of a new request, in `forwardApiCall`. -/
  | forwardApiCall (id : UInt32)
  /-- The worker of a request takes a message from its queue. -/
  | popMessage (id : UInt32)
  /-- A request to read a field. -/
  | dataHandle (id : UInt32)
  /-- A handle takes a message. -/
  | popRetrieved
  /-- `archiveID_ = id`, and zero at the end of an archive. -/
  | setArchiveID (id : UInt32)
  /-- `archiveQueue_.reset(new ArchiveQueue)`. -/
  | newArchiveQueue
  /-- `archive` puts a field in the queue, and the archive thread takes some. -/
  | archive (key : Key) (data : List UInt8)
  | popArchive (popped : Nat)
  /-- `archiveQueue_->close()`, in `flush`. -/
  | closeArchiveQueue
  /-- `archiveQueue_.reset()`. -/
  | resetArchiveQueue

/-- A moment of the client: one of its threads takes a step, or a message is the next on the data
connection and the listening thread takes it. -/
inductive Moment where
  | client (step : ClientStep)
  | message (m : WireMessage)

namespace Queue

variable {α : Type}

def drop (q : Queue α) (popped : Nat) : Queue α := { q with items := q.items.drop popped }

end Queue

namespace Receivers

def step (r : Receivers) : ClientStep → Receivers
  | .forwardApiCall id =>
    if id ∈ r.messageQueues then r
    else { r with messageQueues := id :: r.messageQueues, queues := Function.update r.queues id {} }
  | .popMessage id => r.onQueue id (·.drop 1)
  | .dataHandle _ => r
  | .popRetrieved => { r with retrieveMessageQueue := r.retrieveMessageQueue.drop 1 }
  | .setArchiveID id => { r with archiveID := id }
  | .newArchiveQueue => { r with archiveQueue := some {} }
  | .archive key data => { r with archiveQueue := r.archiveQueue.map (·.emplace (key, data)) }
  | .popArchive popped => { r with archiveQueue := r.archiveQueue.map (·.drop popped) }
  | .closeArchiveQueue => { r with archiveQueue := r.archiveQueue.map (·.close) }
  | .resetArchiveQueue => { r with archiveQueue := none }

end Receivers

/-- The listening thread and what it reads from. -/
structure Listener where
  stream : List UInt8
  receivers : Receivers
  listening : Bool := true

def Listener.step (l : Listener) : Moment → Listener
  | .client c => { l with receivers := l.receivers.step c }
  | .message _ =>
    if l.listening then
      match RemoteFDB.listeningThreadLoop.run (l.stream, l.receivers) with
      | .ok listening (stream, receivers) => { stream, receivers, listening }
      | .error _ (stream, receivers) => { stream, receivers, listening := false }
    else l

/-- The bytes of the messages among some moments. -/
def sent (moments : List Moment) : List UInt8 :=
  moments.flatMap fun | .client _ => [] | .message m => m.encode

/-- The receivers and the requests to read that have not ended, where each message is delivered to
its request. -/
structure Delivery where
  receivers : Receivers
  reads : List UInt32 := []

namespace Delivery

def step (d : Delivery) : Moment → Delivery
  | .client (.dataHandle id) => { d with reads := id :: d.reads }
  | .client c => { d with receivers := d.receivers.step c }
  | .message m =>
    { receivers := d.receivers.deliver d.reads m
      reads := if m.message = .blob then d.reads else d.reads.filter fun id => id ≠ m.requestID }

/-- The condition on the state before a moment. -/
def Expects (d : Delivery) : Moment → Prop
  | .client _ => True
  | .message m => d.receivers.Expects d.reads m

end Delivery

variable {moments : List Moment} {rest : List UInt8}

theorem run_listeningThreadLoop_eq {s t : List UInt8 × Receivers} :
    RemoteFDB.listeningThreadLoop.run s = .ok true t ↔ RemoteFDB.listen.run s = .ok true t := by
  rw [RemoteFDB.run_listeningThreadLoop]
  cases RemoteFDB.listen.run s <;> simp

theorem step_message_eq {m : WireMessage} {r r' : Receivers} :
    Listener.step ⟨m.encode ++ rest, r, true⟩ (.message m) = ⟨rest, r', true⟩ ↔
      RemoteFDB.listen.run (m.encode ++ rest, r) = .ok true (rest, r') := by
  rw [← run_listeningThreadLoop_eq]
  unfold Listener.step
  cases RemoteFDB.listeningThreadLoop.run (m.encode ++ rest, r) with
  | ok b t =>
    obtain ⟨stream, receivers⟩ := t
    simp
    tauto
  | error e t => simp

theorem step_iff {a : Moment} {post : List Moment} {d : Delivery} (h : ∀ m, a = .message m → m.FromServer) :
    Listener.step ⟨sent (a :: post) ++ rest, d.receivers, true⟩ a =
      ⟨sent post ++ rest, (d.step a).receivers, true⟩ ↔ d.Expects a := by
  cases a with
  | client c => cases c <;> simp [Listener.step, Delivery.step, sent, Delivery.Expects, Receivers.step]
  | message m =>
    have hsent : sent (.message m :: post) ++ rest = m.encode ++ (sent post ++ rest) := by simp [sent]
    rw [hsent, step_message_eq, RemoteFDB.run_listen_eq (h m rfl)]
    exact Receivers.taken_iff

/-- A list request that has its answer and a field that is read, the archive's failure between them. -/
def interleavedMoments : List Moment :=
  [.client (.forwardApiCall 1), .client (.setArchiveID 2), .client .newArchiveQueue, .client (.dataHandle 3),
    .message ⟨.blob, 3, [7]⟩, .message ⟨.blob, 1, [8]⟩, .message ⟨.error, 2, [9]⟩, .message ⟨.complete, 1, []⟩,
    .message ⟨.complete, 3, []⟩]

/-- The archive that fails on the server when the client's archive thread has ended. -/
def lateError : List Moment :=
  [.client (.setArchiveID 1), .client .newArchiveQueue, .client (.setArchiveID 0), .client .resetArchiveQueue,
    .message ⟨.error, 1, [9]⟩]

end Fdb5
