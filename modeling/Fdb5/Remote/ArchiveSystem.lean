import Fdb5.Remote.ArchiveClient

/-! A `RemoteFDB` that archives and its server, with the connections between them. -/
namespace Fdb5

/-- What the FDB of the server has been made to do. -/
inductive FdbEvent (α : Type) where
  | archived (field : α)
  | flushed
deriving DecidableEq

/-- The worker of `archiveThreadLoop`, with the fields that it has counted. -/
inductive ServerWorker (α : Type) where
  | popping (totalArchived : Nat)
  | archiving (totalArchived : Nat) (fields : List α)
  | returned (totalArchived : Nat)
  | thrown (e : Failure)

/-- The reader of the data connection; `closing` waits for the worker, as `throwing` does. -/
inductive ServerReader where
  | reading
  | closing
  | throwing (e : Failure)
  | returned (totalArchived : Nat)
  | thrown (e : Failure)

/-- `RemoteHandler::archiveThreadLoop(id)`. -/
structure ServerThread (α : Type) where
  id : UInt32
  queue : Queue (List α) := {}
  worker : ServerWorker α := .popping 0
  reader : ServerReader := .reading

/-- `RemoteHandler::handle`; `getting` is in `flush`, and `stopped` is out of step with the connection. -/
inductive ControlLoop where
  | reading
  | getting (numArchived : Nat)
  | stopped

structure ArchiveServer (α : Type) where
  archiveFuture : Option (ServerThread α) := none
  loop : ControlLoop := .reading
  fdb : List (FdbEvent α) := []

/-- Both sides; the client's messages stay in its channels until the server takes them. A reply is `Received`,
or the failure of an Error. What was enqueued since the last `flush`, and the server's FDB when that ended. -/
structure ArchiveSystem (α : Type) where
  client : ArchiveClient α := {}
  server : ArchiveServer α := {}
  replies : List (Option Failure) := []
  enqueued : List α := []
  before : List (FdbEvent α) := []

inductive SystemStep (α : Type) where
  /-- A step of the client without an answer. -/
  | client (a : ArchiveStep α)
  /-- The client takes the answer to its request. -/
  | reply
  /-- The client fails to write its request, or to write more than a part of it. -/
  | unsent (part : Bool) (e : Failure)
  /-- The server is gone, and the client's read fails. -/
  | hangup (e : Failure)
  /-- The client's read fails while the server may answer. -/
  | unread (e : Failure)
  /-- The server takes a request; where it fails to write the acknowledgement, it sends an Error. -/
  | control (acknowledge : Option Failure)
  /-- The server's `flush` goes on, and that of its FDB may throw. -/
  | get (flush acknowledge : Option Failure)
  /-- `handle` ends, as it cannot read or write the connection, or with its process. -/
  | stop
  | read
  /-- The server's read of the data connection fails. -/
  | broken (e : Failure)
  /-- The worker goes on; the FDB may throw, after it has archived the field or not. -/
  | work (archive : Option (Bool × Failure))

namespace ArchiveMessage

variable {α : Type}

def requestID : ArchiveMessage α → UInt32
  | blob id _ | multiBlob id _ | flush id => id

/-- The fields in the payload, if it is not a Flush. -/
def payload : ArchiveMessage α → Option (List α)
  | blob _ field => some [field]
  | multiBlob _ fields => some fields
  | flush _ => none

end ArchiveMessage

namespace ServerThread

variable {α : Type} (serverMaxQueueSize : Nat) (t : ServerThread α)

/-- What catches an exception of the reader. -/
def throwing (e : Failure) : ServerThread α := { t with queue := t.queue.interrupt e, reader := .throwing e }

/-- The reader's connection breaks. -/
def broken (e : Failure) : ServerThread α :=
  match t.reader with
  | .reading | .closing => t.throwing e
  | _ => t

/-- The reader takes a message, or waits; whether the message is taken. -/
def take (m : ArchiveMessage α) : ServerThread α × Bool :=
  if m.requestID = t.id then
    match m.payload with
    | none => ({ t with queue := t.queue.close, reader := .closing }, true)
    | some fields =>
      match t.queue.exception with
      | some e => (t.throwing e, true)
      | none =>
        if t.queue.items.length < serverMaxQueueSize then ({ t with queue := t.queue.emplace fields }, true)
        else (t, false)
  else (t.throwing (.assertion "hdr.requestID == id"), true)

/-- `worker.get()`. -/
def join : ServerThread α :=
  match t.reader, t.worker with
  | .closing, .returned totalArchived => { t with reader := .returned totalArchived }
  | .closing, .thrown e => t.throwing e
  | .throwing e, .returned _ | .throwing e, .thrown _ => { t with reader := .thrown e }
  | _, _ => t

/-- The worker fails. -/
def failing (e : Failure) : ServerThread α := { t with queue := t.queue.interrupt e, worker := .thrown e }

end ServerThread

namespace ArchiveServer

variable {α : Type} (serverMaxQueueSize : Nat) (s : ArchiveServer α)

/-- The server's side of a request, and its reply, if it has one already. -/
def control : ControlRequest → ArchiveServer α × List (Option Failure)
  | .archive id =>
    if s.archiveFuture.isSome then ({ s with loop := .stopped }, [some (.assertion "!archiveFuture_.valid()")])
    else ({ s with archiveFuture := some { id } }, [none])
  | .flush _ numArchived =>
    if numArchived = 0 ∨ s.archiveFuture.isSome then
      if s.archiveFuture.isSome then ({ s with loop := .getting numArchived }, [])
      else (s, [none])
    else ({ s with loop := .stopped }, [some (.assertion "numArchived == 0 || archiveFuture_.valid()")])

/-- `archiveFuture_.get()` and what follows in `flush`. -/
def get (flush : Option Failure) : ArchiveServer α × List (Option Failure) :=
  match s.loop, s.archiveFuture with
  | .getting numArchived, some t =>
    match t.reader with
    | .returned n =>
      if numArchived = n then
        match flush with
        | none => ({ archiveFuture := none, loop := .reading, fdb := s.fdb ++ [.flushed] }, [none])
        | some e => ({ s with archiveFuture := none, loop := .stopped }, [some e])
      else ({ s with archiveFuture := none, loop := .stopped }, [some (.assertion "numArchived == n")])
    | .thrown e => ({ s with archiveFuture := none, loop := .stopped }, [some e])
    | _ => (s, [])
  | _, _ => (s, [])

/-- A step of the worker. -/
def work (t : ServerThread α) (archive : Option (Bool × Failure)) : ArchiveServer α :=
  match t.worker with
  | .popping n =>
    match t.queue.exception with
    | some e => { s with archiveFuture := some (t.failing e) }
    | none =>
      match t.queue.items with
      | [] => if t.queue.done then { s with archiveFuture := some { t with worker := .returned n } } else s
      | fields :: items =>
        { s with archiveFuture := some { t with queue := { t.queue with items }, worker := .archiving n fields } }
  | .archiving n [] => { s with archiveFuture := some { t with worker := .popping n } }
  | .archiving n (field :: fields) =>
    match archive with
    | none =>
      { s with
        archiveFuture := some { t with worker := .archiving (n + 1) fields }
        fdb := s.fdb ++ [.archived field] }
    | some (archived, e) =>
      { s with
        archiveFuture := some (t.failing e)
        fdb := if archived then s.fdb ++ [.archived field] else s.fdb }
  | _ => s

end ArchiveServer

namespace ArchiveSystem

variable {α : Type} (maxArchiveQueueLength maxArchiveBatchSize serverMaxQueueSize : Nat) (s : ArchiveSystem α)

/-- The client has taken a step; `flush` is that it was a call of `flush`. -/
def settle (c : ArchiveClient α) (flush : Bool) : ArchiveSystem α :=
  match s.client.caller, c.caller with
  | .emplacing field _, .idle =>
    if c.outcome = some .returned then { s with client := c, enqueued := s.enqueued ++ [field] }
    else { s with client := c }
  | .getting, .idle | .flushing, .idle => { s with client := c, enqueued := [], before := s.server.fdb }
  | .idle, .idle => if flush then { s with client := c, enqueued := [], before := s.server.fdb } else { s with client := c }
  | _, _ => { s with client := c }

def onClient (a : ArchiveStep α) (flush : Bool) : ArchiveSystem α :=
  s.settle (s.client.step maxArchiveQueueLength maxArchiveBatchSize a) flush

def onServer (t : ArchiveServer α × List (Option Failure)) (acknowledge : Option Failure) : ArchiveSystem α :=
  { s with server := t.1, replies := s.replies ++ t.2.map fun reply => reply.or acknowledge }

def onThread (f : ServerThread α → ServerThread α) : ArchiveSystem α :=
  { s with server := { s.server with archiveFuture := s.server.archiveFuture.map f } }

/-- The client's request fails. -/
def refuse (e : Failure) : ArchiveSystem α := s.onClient maxArchiveQueueLength maxArchiveBatchSize (.refused e) false

/-- The request is not on the connection, or what is there of it ends the server's loop. -/
def unsend (part : Bool) : ArchiveSystem α :=
  { s with
    client := { s.client with control := [] }
    server := { s.server with loop := if part then .stopped else s.server.loop } }

/-- A step of the system; the answers to a client come over the connection only. -/
def step : SystemStep α → ArchiveSystem α
  | .client a =>
    match a with
    | .received | .refused _ => s
    | .flush => s.onClient maxArchiveQueueLength maxArchiveBatchSize .flush true
    | a => s.onClient maxArchiveQueueLength maxArchiveBatchSize a false
  | .reply =>
    match s.replies with
    | [] => s
    | none :: replies => { s with replies }.onClient maxArchiveQueueLength maxArchiveBatchSize .received false
    | some e :: replies => { s with replies }.refuse maxArchiveQueueLength maxArchiveBatchSize e
  | .unsent part e =>
    match s.client.caller, s.client.control with
    | .requesting _ _, [_] | .flushing, [_] => (s.unsend part).refuse maxArchiveQueueLength maxArchiveBatchSize e
    | _, _ => s
  | .hangup e =>
    match s.server.loop with
    | .stopped => { s with replies := [] }.refuse maxArchiveQueueLength maxArchiveBatchSize e
    | _ => s
  | .unread e => s.refuse maxArchiveQueueLength maxArchiveBatchSize e
  | .control acknowledge =>
    match s.server.loop, s.client.control with
    | .reading, request :: control =>
      { s with client := { s.client with control } }.onServer (s.server.control request) acknowledge
    | _, _ => s
  | .get flush acknowledge => s.onServer (s.server.get flush) acknowledge
  | .stop => { s with server := { s.server with loop := .stopped } }
  | .read =>
    match s.server.archiveFuture, s.client.data with
    | some t, m :: data =>
      match t.reader with
      | .reading =>
        let (t, taken) := t.take serverMaxQueueSize m
        { s with
          server := { s.server with archiveFuture := some t }
          client := if taken then { s.client with data } else s.client }
      | _ => s.onThread .join
    | _, _ => s.onThread .join
  | .broken e => s.onThread (·.broken e)
  | .work archive =>
    match s.server.archiveFuture with
    | some t => { s with server := s.server.work t archive }
    | none => s

/-- A call of `flush` returns normally with the step. -/
def ReturnsFlush (a : SystemStep α) : Prop :=
  (s.client.caller = .flushing ∨ s.client.caller = .getting ∨ s.client.caller = .idle ∧ a = .client .flush) ∧
    (s.step maxArchiveQueueLength maxArchiveBatchSize serverMaxQueueSize a).client.caller = .idle ∧
    (s.step maxArchiveQueueLength maxArchiveBatchSize serverMaxQueueSize a).client.outcome = some .returned

/-- The FDB of the server has archived what was enqueued since the last `flush`, and has been flushed. -/
def Flushed : Prop := s.server.fdb = s.before ++ s.enqueued.map .archived ++ [.flushed]

end ArchiveSystem

/-! What is under way between the two sides. -/

namespace ArchiveThread

variable {α : Type}

/-- The elements that have been popped and not sent. -/
def elements : ArchiveThread α → List α
  | sending _ _ elements => elements
  | _ => []

/-- It has thrown, or hangs. -/
def Fails (thread : ArchiveThread α) : Prop := thread = .hung ∨ ∃ e, thread = .thrown e

/-- The thread of the request, with so many fields counted. -/
def Counts (id : UInt32) (n : Nat) : ArchiveThread α → Prop
  | start i => i = id ∧ n = 0
  | popping i m | sending i m _ | done i m => i = id ∧ n = m
  | returned m => n = m
  | hung | thrown _ => False

end ArchiveThread

/-- What the worker has archived, and what it has yet to of what it has popped. -/
def ServerWorker.Has {α : Type} (archived rest : List α) : ServerWorker α → Prop
  | .popping n | .returned n => n = archived.length ∧ rest = []
  | .archiving n fields => n = archived.length ∧ rest = fields
  | .thrown _ => False

namespace ServerThread

variable {α : Type} (t : ServerThread α)

/-- It will throw. -/
def Doomed : Prop :=
  (∃ e, t.worker = .thrown e) ∧ (∀ n, t.reader ≠ .returned n) ∨ (∃ e, t.reader = .throwing e) ∨ ∃ e, t.reader = .thrown e

/-- The Flush that an archive thread that has returned sent, until it is read. -/
def marker (t : ServerThread α) : ArchiveThread α → List (ArchiveMessage α)
  | .returned _ => match t.reader with | .reading => [.flush t.id] | _ => []
  | _ => []

end ServerThread

namespace ArchiveSystem

variable {α : Type} {maxArchiveQueueLength maxArchiveBatchSize serverMaxQueueSize : Nat} {s : ArchiveSystem α}

/-- What was enqueued is archived, or it is under way in its order: with the worker, in the queue of the server, on
the connection, with the archive thread or in the queue of the client. -/
structure Flows (s : ArchiveSystem α) (t : ServerThread α) (thread : ArchiveThread α) (items archived rest : List α)
    (messages : List (List α)) : Prop where
  fdb : s.server.fdb = s.before ++ archived.map .archived
  worker : t.worker.Has archived rest
  data : s.client.data = messages.map (ArchiveClient.message t.id) ++ t.marker thread
  order : archived ++ (rest ++ (t.queue.items.flatten ++ (messages.flatten ++ (thread.elements ++ items)))) = s.enqueued
  count : thread.Counts t.id
    (archived.length + (rest.length + (t.queue.items.flatten.length + messages.flatten.length)))
  exception : t.queue.exception = none
  closed : t.reader = .reading ∧ t.queue.done = false ∨
    (t.reader = .closing ∨ ∃ n, t.reader = .returned n) ∧ t.queue.done = true ∧ messages = [] ∧ ∃ n, thread = .returned n
  finished : ∀ n, t.worker = .returned n → t.queue.items = [] ∧ t.queue.done = true
  joined : ∀ n, t.reader = .returned n → t.worker = .returned n
  emptied : ∀ id n, thread = .done id n → items = []

/-- The server's thread will throw, or nothing is lost. -/
def Archives (s : ArchiveSystem α) (t : ServerThread α) (thread : ArchiveThread α) (items : List α) : Prop :=
  t.Doomed ∨ ∃ archived rest messages, Flows s t thread items archived rest messages

/-- What is in the client's queue. -/
def items (c : ArchiveClient α) : List α := (c.archiveQueue.map Queue.items).getD []

/-- The session has got the id 0, which stands for none. -/
def NoID (c : ArchiveClient α) : Prop :=
  ((∃ id, c.archiveFuture = some (.start id)) ∨ ∃ e, c.archiveFuture = some (.thrown e)) ∧ c.archiveID = 0 ∧
    c.caller = .idle

/-- The client cannot make another request. -/
def Stuck (c : ArchiveClient α) : Prop :=
  (c.Open ∧ (∃ thread, c.archiveFuture = some thread ∧ thread.Fails) ∧
      (c.caller = .idle ∨ (∃ field waiting, c.caller = .emplacing field waiting) ∨ c.caller = .getting)) ∨
    (c.archiveFuture = none ∧ c.archiveID ≠ 0 ∧ c.caller = .idle) ∨
    NoID c

section Server

variable {t : ServerThread α} {thread : ArchiveThread α} {queued archived rest : List α} {messages : List (List α)}
  {m : ArchiveMessage α} {data : List (ArchiveMessage α)}

@[simp] theorem requestID_message {id : UInt32} {fields : List α} : (ArchiveClient.message id fields).requestID = id := by
  unfold ArchiveClient.message
  split <;> rfl

@[simp] theorem payload_message {id : UInt32} {fields : List α} :
    (ArchiveClient.message id fields).payload = some fields := by
  unfold ArchiveClient.message
  split <;> rfl

theorem Flows.reader_ne (h : Flows s t thread queued archived rest messages) (e : Failure) :
    t.reader ≠ .throwing e ∧ t.reader ≠ .thrown e := by
  rcases h.closed with ⟨hreader, -⟩ | ⟨hreader | ⟨n, hreader⟩, -⟩ <;> simp [hreader]

theorem doomed_take (h : t.Doomed) (hreader : t.reader = .reading) : (t.take serverMaxQueueSize m).1.Doomed := by
  rcases h with ⟨⟨e, hworker⟩, -⟩ | ⟨e, hthrow⟩ | ⟨e, hthrow⟩
  · unfold ServerThread.take
    (repeat' split) <;> exact .inl ⟨⟨e, hworker⟩, by simp [ServerThread.throwing, hreader]⟩
  · rw [hreader] at hthrow
    cases hthrow
  · rw [hreader] at hthrow
    cases hthrow

theorem broken_same_or_doomed {e : Failure} : t.broken e = t ∨ (t.broken e).Doomed := by
  unfold ServerThread.broken
  split
  · exact .inr (.inr (.inl ⟨e, rfl⟩))
  · exact .inr (.inr (.inl ⟨e, rfl⟩))
  · exact .inl rfl

theorem doomed_join (h : t.Doomed) : t.join.Doomed := by
  unfold ServerThread.join
  split
  next n hreader hworker => rcases h with ⟨⟨e, h⟩, -⟩ | ⟨e, h⟩ | ⟨e, h⟩ <;> simp_all
  next e hreader hworker => exact .inr (.inl ⟨e, rfl⟩)
  next e n hreader hworker => exact .inr (.inr ⟨e, rfl⟩)
  next e e' hreader hworker => exact .inr (.inr ⟨e, rfl⟩)
  next => exact h

theorem doomed_work {server : ArchiveServer α} {archive : Option (Bool × Failure)}
    (hfuture : server.archiveFuture = some t) (h : t.Doomed) :
    ∃ t', (server.work t archive).archiveFuture = some t' ∧ t'.Doomed := by
  have hkeep : ∀ t' : ServerThread α, t'.reader = t.reader → (∀ e, t.worker = .thrown e → t'.worker = .thrown e) →
      t'.Doomed := by
    intro t' hreader hworker
    rcases h with ⟨⟨e, h⟩, hjoined⟩ | h | h
    · exact .inl ⟨⟨e, hworker e h⟩, hreader ▸ hjoined⟩
    · exact .inr (.inl (hreader ▸ h))
    · exact .inr (.inr (hreader ▸ h))
  have hjoined : ∀ n, t.reader ≠ .returned n := by
    rcases h with ⟨-, hjoined⟩ | ⟨e, h⟩ | ⟨e, h⟩
    · exact hjoined
    · simp [h]
    · simp [h]
  unfold ArchiveServer.work
  cases hworker : t.worker with
  | popping n =>
    cases hexception : t.queue.exception with
    | some e => exact ⟨_, rfl, .inl ⟨⟨e, rfl⟩, hjoined⟩⟩
    | none =>
      cases hitems : t.queue.items with
      | nil =>
        by_cases hdone : t.queue.done
        · simp only [if_pos hdone]
          exact ⟨_, rfl, hkeep _ rfl (by simp [hworker])⟩
        · simp only [if_neg hdone]
          exact ⟨t, hfuture, h⟩
      | cons fields items =>
        simp only [hexception]
        exact ⟨_, rfl, hkeep _ rfl (by simp [hworker])⟩
  | archiving n fields =>
    cases fields with
    | nil => exact ⟨_, rfl, hkeep _ rfl (by simp [hworker])⟩
    | cons field fields =>
      rcases archive with - | ⟨done, e⟩
      · exact ⟨_, rfl, hkeep _ rfl (by simp [hworker])⟩
      · exact ⟨_, rfl, .inl ⟨⟨e, rfl⟩, hjoined⟩⟩
  | returned n => exact ⟨t, hfuture, h⟩
  | thrown e => exact ⟨t, hfuture, h⟩

/-- The reader takes the next message, or the Flush behind the last. -/
theorem flows_take (h : Flows s t thread queued archived rest messages) (hreader : t.reader = .reading)
    (hdata : s.client.data = m :: data) (d : ArchiveClient α)
    (hd : d.data = if (t.take serverMaxQueueSize m).2 then data else m :: data) (server : ArchiveServer α)
    (hfdb : server.fdb = s.server.fdb) : ∃ messages',
      Flows { s with client := d, server } (t.take serverMaxQueueSize m).1 thread queued archived rest messages' := by
  have hopen : t.queue.done = false := by
    rcases h.closed with ⟨-, hdone⟩ | ⟨hclosed | ⟨n, hclosed⟩, -⟩
    · exact hdone
    · rw [hreader] at hclosed
      cases hclosed
    · rw [hreader] at hclosed
      cases hclosed
  have hworker : ∀ n, t.worker ≠ .returned n := by
    intro n hn
    rw [(h.finished n hn).2] at hopen
    cases hopen
  cases messages with
  | nil =>
    have hmarker : t.marker thread = m :: data := by
      rw [← hdata, h.data]
      rfl
    cases thread with
    | returned n =>
      simp only [ServerThread.marker, hreader, List.cons.injEq] at hmarker
      obtain ⟨rfl, rfl⟩ := hmarker
      have htake : t.take serverMaxQueueSize (.flush t.id) =
          ({ t with queue := t.queue.close, reader := .closing }, true) := by
        simp [ServerThread.take, ArchiveMessage.requestID, ArchiveMessage.payload]
      rw [htake] at hd ⊢
      refine ⟨[], ?_⟩
      refine ⟨hfdb.trans h.fdb, h.worker, by simpa [ServerThread.marker] using hd, h.order, h.count, h.exception,
        .inr ⟨.inl rfl, rfl, rfl, n, rfl⟩, fun n hn => absurd hn (hworker n), by simp, by simp⟩
    | _ => simp [ServerThread.marker] at hmarker
  | cons fields messages =>
    have hmessage : ArchiveClient.message t.id fields = m ∧
        messages.map (ArchiveClient.message t.id) ++ t.marker thread = data := by
      have heq := h.data.symm.trans hdata
      simpa using heq
    obtain ⟨rfl, rfl⟩ := hmessage
    by_cases hroom : t.queue.items.length < serverMaxQueueSize
    · have htake : t.take serverMaxQueueSize (ArchiveClient.message t.id fields) =
          ({ t with queue := t.queue.emplace fields }, true) := by
        simp [ServerThread.take, h.exception, hroom]
      rw [htake] at hd ⊢
      refine ⟨messages, ?_⟩
      refine ⟨hfdb.trans h.fdb, h.worker, hd, ?_, ?_, h.exception, ?_, fun n hn => absurd hn (hworker n), h.joined, h.emptied⟩
      · simpa [Queue.emplace] using h.order
      · have hcount := h.count
        simp only [List.flatten_cons, List.length_append] at hcount
        simpa [Queue.emplace, Nat.add_assoc] using hcount
      · exact .inl ⟨hreader, hopen⟩
    · have htake : t.take serverMaxQueueSize (ArchiveClient.message t.id fields) = (t, false) := by
        simp [ServerThread.take, h.exception, hroom]
      rw [htake] at hd ⊢
      refine ⟨fields :: messages, ?_⟩
      exact ⟨hfdb.trans h.fdb, h.worker, by simpa using hd, h.order, h.count, h.exception, h.closed, h.finished, h.joined,
        h.emptied⟩

theorem flows_join (h : Flows s t thread queued archived rest messages) (server : ArchiveServer α)
    (hfdb : server.fdb = s.server.fdb) : Flows { s with server } t.join thread queued archived rest messages := by
  unfold ServerThread.join
  split
  next n hreader hworker =>
    rcases h.closed with ⟨hreading, -⟩ | ⟨-, hdone, hmessages, k, hthread⟩
    · rw [hreader] at hreading
      cases hreading
    · have hmarker : t.marker thread = [] := by simp [hthread, ServerThread.marker, hreader]
      have hdata := h.data
      rw [hmarker] at hdata
      refine ⟨hfdb.trans h.fdb, h.worker, ?_, h.order, h.count, h.exception, .inr ⟨.inr ⟨n, rfl⟩, hdone, hmessages, k, hthread⟩,
        h.finished, ?_, h.emptied⟩
      · simpa [hthread, ServerThread.marker] using hdata
      · rintro _ ⟨⟩
        exact hworker
  next e hreader hworker =>
    have hhas := h.worker
    rw [hworker] at hhas
    exact hhas.elim
  next e n hreader hworker => exact absurd hreader (h.reader_ne e).1
  next e e' hreader hworker => exact absurd hreader (h.reader_ne e).1
  next => exact ⟨hfdb.trans h.fdb, h.worker, h.data, h.order, h.count, h.exception, h.closed, h.finished, h.joined, h.emptied⟩

/-- The worker goes on, or fails. -/
theorem archives_work {archive : Option (Bool × Failure)} (hfuture : s.server.archiveFuture = some t)
    (h : s.Archives t thread queued) : ∃ t', (s.server.work t archive).archiveFuture = some t' ∧
      Archives { s with server := s.server.work t archive } t' thread queued := by
  rcases h with hdoomed | ⟨archived, rest, messages, h⟩
  · obtain ⟨t', ht', hdoomed'⟩ := doomed_work hfuture hdoomed
    exact ⟨t', ht', .inl hdoomed'⟩
  have hworker := h.worker
  unfold ArchiveServer.work
  cases hw : t.worker with
  | popping n =>
    simp only [hw, ServerWorker.Has] at hworker
    obtain ⟨rfl, rfl⟩ := hworker
    have hjoined : ∀ n, t.reader ≠ .returned n := by
      intro n hn
      rw [h.joined n hn] at hw
      cases hw
    cases hitems : t.queue.items with
    | nil =>
      by_cases hdone : t.queue.done
      · simp only [h.exception, if_pos hdone]
        refine ⟨_, rfl, .inr ⟨archived, [], messages, h.fdb, ⟨rfl, rfl⟩, h.data, h.order, h.count, h.exception, h.closed, ?_,
          fun n hn => absurd hn (hjoined n), h.emptied⟩⟩
        exact fun _ _ => ⟨hitems, hdone⟩
      · simp only [h.exception, if_neg hdone]
        exact ⟨t, hfuture, .inr ⟨archived, [], messages, h⟩⟩
    | cons fields items =>
      simp only [h.exception]
      have horder := h.order
      have hcount := h.count
      refine ⟨_, rfl, .inr ⟨archived, fields, messages, h.fdb, ⟨rfl, rfl⟩, h.data, ?_, ?_, rfl, h.closed, by simp,
        fun n hn => absurd hn (hjoined n), h.emptied⟩⟩
      · simpa [hitems] using horder
      · simpa [hitems, Nat.add_assoc] using hcount
  | archiving n fields =>
    simp only [hw, ServerWorker.Has] at hworker
    obtain ⟨rfl, rfl⟩ := hworker
    have hjoined : ∀ n, t.reader ≠ .returned n := by
      intro n hn
      rw [h.joined n hn] at hw
      cases hw
    cases rest with
    | nil =>
      refine ⟨_, rfl, .inr ⟨archived, [], messages, h.fdb, ⟨rfl, rfl⟩, h.data, h.order, h.count, h.exception, h.closed,
        by simp, fun n hn => absurd hn (hjoined n), h.emptied⟩⟩
    | cons field rest =>
      rcases archive with - | ⟨done, e⟩
      · have hcount := h.count
        refine ⟨_, rfl, .inr ⟨archived ++ [field], rest, messages, ?_, ⟨by simp, rfl⟩, h.data, ?_, ?_, h.exception, h.closed,
          by simp, fun n hn => absurd hn (hjoined n), h.emptied⟩⟩
        · simp [h.fdb]
        · simpa using h.order
        · have hsum : (archived ++ [field]).length + (rest.length + (t.queue.items.flatten.length + messages.flatten.length)) =
              archived.length + ((field :: rest).length + (t.queue.items.flatten.length + messages.flatten.length)) := by
            simp only [List.length_append, List.length_cons, List.length_nil]
            omega
          rw [hsum]
          exact hcount
      · exact ⟨_, rfl, .inl (.inl ⟨⟨e, rfl⟩, hjoined⟩)⟩
  | returned n => exact ⟨t, hfuture, .inr ⟨archived, rest, messages, h⟩⟩
  | thrown e =>
    rw [hw] at hworker
    exact hworker.elim

end Server

section Client

variable {t : ServerThread α} {thread : ArchiveThread α} {c : ArchiveClient α}

theorem flows_reading {queued archived rest : List α} {messages : List (List α)}
    (h : Flows s t thread queued archived rest messages) (hthread : ∀ n, thread ≠ .returned n) :
    t.reader = .reading ∧ s.client.data = messages.map (ArchiveClient.message t.id) := by
  have hreader : t.reader = .reading := by
    rcases h.closed with ⟨hreader, -⟩ | ⟨-, -, -, n, hn⟩
    · exact hreader
    · exact absurd hn (hthread n)
  refine ⟨hreader, ?_⟩
  have hdata := h.data
  cases thread with
  | returned n => exact absurd rfl (hthread n)
  | _ => simpa [ServerThread.marker] using hdata

/-- What has been popped is in a message. -/
theorem Flows.sent {id : UInt32} {n : Nat} {elements queued archived rest : List α} {messages : List (List α)}
    (h : Flows s t (.sending id n elements) queued archived rest messages)
    (hsent : c.data = s.client.data ++ [ArchiveClient.message id elements]) :
    Flows { s with client := c } t (.popping id (n + elements.length)) queued archived rest (messages ++ [elements]) := by
  obtain ⟨hreader, hdata⟩ := flows_reading h (by simp)
  have horder := h.order
  obtain ⟨rfl, hcount⟩ := h.count
  have hclosed : t.reader = .reading ∧ t.queue.done = false := by simpa using h.closed
  refine ⟨h.fdb, h.worker, ?_, ?_, ⟨rfl, ?_⟩, h.exception, .inl hclosed, h.finished, h.joined, by simp⟩
  · simp [hsent, hdata, ServerThread.marker]
  · simpa [ArchiveThread.elements] using horder
  · simp only [List.flatten_append, List.flatten_cons, List.flatten_nil, List.append_nil, List.length_append]
    omega

/-- Behind the last message is the marker of the flush. -/
theorem Flows.marked {id : UInt32} {n : Nat} {queued archived rest : List α} {messages : List (List α)}
    (h : Flows s t (.done id n) queued archived rest messages) (hsent : c.data = s.client.data ++ [.flush id]) :
    Flows { s with client := c } t (.returned n) [] archived rest messages := by
  obtain ⟨hreader, hdata⟩ := flows_reading h (by simp)
  obtain ⟨rfl, hcount⟩ := h.count
  have hnil := h.emptied t.id n rfl
  have hclosed : t.reader = .reading ∧ t.queue.done = false := by simpa using h.closed
  refine ⟨h.fdb, h.worker, ?_, ?_, hcount, h.exception, .inl hclosed, h.finished, h.joined, by simp⟩
  · simp [hsent, hdata, ServerThread.marker, hreader]
  · simpa [ArchiveThread.elements, hnil] using h.order

/-- The archive thread sends on what it has popped, or fails. -/
theorem archives_thread {write : DataWrite} (hopen : s.client.Open) (hfuture : s.client.archiveFuture = some thread)
    (hfails : ¬ thread.Fails) (h : s.Archives t thread (items s.client)) :
    ∃ thread', (s.client.thread maxArchiveBatchSize write).archiveFuture = some thread' ∧
      (thread'.Fails ∨ ¬ thread'.Fails ∧ Archives { s with client := s.client.thread maxArchiveBatchSize write } t thread'
        (items (s.client.thread maxArchiveBatchSize write))) := by
  obtain ⟨other, queue, hother, hid, hqueue, hreturned, -, hdone, -⟩ := hopen
  obtain rfl : thread = other := Option.some.inj (hfuture.symm.trans hother)
  have hitems : items s.client = queue.items := by simp [items, hqueue]
  rw [hitems] at h
  cases thread with
  | start id =>
    simp only [ArchiveClient.thread, hfuture, hqueue, Option.isNone_some, Bool.false_eq_true, if_false, if_neg hid]
    refine ⟨_, rfl, .inr ⟨by simp [ArchiveThread.Fails], ?_⟩⟩
    rcases h with hdoomed | ⟨archived, rest, messages, h⟩
    · exact .inl hdoomed
    · have hcount := h.count
      exact .inr ⟨archived, rest, messages, h.fdb, h.worker, h.data, h.order, hcount, h.exception, by simpa using h.closed,
        h.finished, h.joined, by simp⟩
  | popping id n =>
    cases hexception : queue.exception with
    | some e =>
      simp only [ArchiveClient.thread, hfuture, hqueue, hexception]
      exact ⟨_, rfl, .inl (.inr ⟨e, rfl⟩)⟩
    | none =>
      by_cases hempty : queue.items.isEmpty
      · by_cases hclose : queue.done
        · simp only [ArchiveClient.thread, hfuture, hqueue, hexception, if_pos hempty, if_pos hclose]
          refine ⟨_, rfl, .inr ⟨by simp [ArchiveThread.Fails], ?_⟩⟩
          rcases h with hdoomed | ⟨archived, rest, messages, h⟩
          · exact .inl hdoomed
          · exact .inr ⟨archived, rest, messages, h.fdb, h.worker, h.data, h.order, h.count, h.exception, by simpa using h.closed,
              h.finished, h.joined, fun _ _ _ => List.isEmpty_iff.mp hempty⟩
        · have hself : s.client.thread maxArchiveBatchSize write = s.client := by
            simp only [ArchiveClient.thread, hfuture, hqueue, hexception, if_pos hempty, if_neg hclose]
          rw [hself, hitems]
          exact ⟨_, hfuture, .inr ⟨hfails, h⟩⟩
      · simp only [ArchiveClient.thread, hfuture, hqueue, hexception, if_neg hempty]
        refine ⟨_, rfl, .inr ⟨by simp [ArchiveThread.Fails], ?_⟩⟩
        rcases h with hdoomed | ⟨archived, rest, messages, h⟩
        · exact .inl hdoomed
        · refine .inr ⟨archived, rest, messages, h.fdb, h.worker, h.data, ?_, h.count, h.exception, by simpa using h.closed,
            h.finished, h.joined, by simp⟩
          have horder := h.order
          simpa [ArchiveThread.elements, items] using horder
  | sending id n elements =>
    cases write with
    | hangs =>
      simp only [ArchiveClient.thread, hfuture]
      exact ⟨_, rfl, .inl (.inl rfl)⟩
    | failed e =>
      simp only [ArchiveClient.thread, hfuture]
      exact ⟨_, rfl, .inl (.inr ⟨e, rfl⟩)⟩
    | written =>
      simp only [ArchiveClient.thread, hfuture]
      refine ⟨_, rfl, .inr ⟨by simp [ArchiveThread.Fails], ?_⟩⟩
      rcases h with hdoomed | ⟨archived, rest, messages, h⟩
      · exact .inl hdoomed
      · have hsame : items { s.client with
            archiveFuture := some (.popping id (n + elements.length))
            data := s.client.data ++ [ArchiveClient.message id elements] } = queue.items := hitems
        rw [hsame]
        exact .inr ⟨archived, rest, messages ++ [elements], h.sent rfl⟩
  | done id n =>
    cases write with
    | hangs =>
      simp only [ArchiveClient.thread, hfuture]
      exact ⟨_, rfl, .inl (.inl rfl)⟩
    | failed e =>
      simp only [ArchiveClient.thread, hfuture]
      exact ⟨_, rfl, .inl (.inr ⟨e, rfl⟩)⟩
    | written =>
      simp only [ArchiveClient.thread, hfuture]
      refine ⟨_, rfl, .inr ⟨by simp [ArchiveThread.Fails], ?_⟩⟩
      rcases h with hdoomed | ⟨archived, rest, messages, h⟩
      · exact .inl hdoomed
      · exact .inr ⟨archived, rest, messages, h.marked rfl⟩
  | returned n => exact absurd rfl (hreturned n)
  | hung => exact absurd (.inl rfl) hfails
  | thrown e => exact absurd (.inr ⟨e, rfl⟩) hfails

/-- An archive thread that has thrown stays with the session until `flush` takes its exception, and one that hangs
for ever. -/
theorem fails_step {a : ArchiveStep α} (hopen : c.Open) (hfuture : c.archiveFuture = some thread) (hfails : thread.Fails)
    (hcaller : c.caller = .idle ∨ (∃ field waiting, c.caller = .emplacing field waiting) ∨ c.caller = .getting) :
    Stuck (c.step maxArchiveQueueLength maxArchiveBatchSize a) ∧ (c.caller = .getting ∨
      (c.step maxArchiveQueueLength maxArchiveBatchSize a).archiveFuture ≠ none) := by
  have hsome : c.archiveFuture ≠ none := by simp [hfuture]
  have hkeep : Stuck c ∧ (c.caller = .getting ∨ c.archiveFuture ≠ none) :=
    ⟨.inl ⟨hopen, ⟨thread, hfuture, hfails⟩, hcaller⟩, .inr hsome⟩
  have hidle : ∀ outcome, c.caller ≠ .getting → Stuck (c.ends outcome) ∧ (c.caller = .getting ∨
      (c.ends outcome).archiveFuture ≠ none) := fun outcome hne =>
    ⟨.inl ⟨hopen.congr hne rfl rfl rfl, ⟨thread, hfuture, hfails⟩, .inl rfl⟩, .inr hsome⟩
  have hthe := hopen
  obtain ⟨other, queue, hthread, hid, hqueue, hreturned, hexception, hdone, hclosed⟩ := hthe
  obtain rfl : thread = other := Option.some.inj (hfuture.symm.trans hthread)
  cases a with
  | generateRequestID => exact ⟨.inl ⟨hopen, ⟨thread, hfuture, hfails⟩, hcaller⟩, hkeep.2⟩
  | archive field connect =>
    cases hc : c.caller with
    | idle =>
      have hne : c.caller ≠ .getting := by simp [hc]
      rw [← hc]
      cases connect with
      | some e' => simpa only [ArchiveClient.step, hc] using hidle (.threw e') hne
      | none =>
        simp only [ArchiveClient.step, hc, ArchiveClient.archive, hfuture, ArchiveClient.ready, Option.isNone_some,
          Bool.false_eq_true, if_false, if_neg hid]
        exact ⟨.inl ⟨hopen.congr hne hfuture.symm rfl rfl, ⟨thread, rfl, hfails⟩, .inr (.inl ⟨field, false, rfl⟩)⟩,
          .inr (by simp)⟩
    | requesting _ _ | emplacing _ _ | getting | flushing => simpa only [ArchiveClient.step, hc] using hkeep
  | flush =>
    cases hc : c.caller with
    | idle =>
      simp only [ArchiveClient.step, hc, ArchiveClient.flush, hfuture, if_neg hid, hqueue]
      exact ⟨.inl ⟨⟨thread, queue.close, rfl, hid, rfl, hreturned, hexception, fun _ => rfl, fun _ => rfl⟩,
        ⟨thread, rfl, hfails⟩, .inr (.inr rfl)⟩, .inr (by simp)⟩
    | requesting _ _ | emplacing _ _ | getting | flushing => simpa only [ArchiveClient.step, hc] using hkeep
  | received =>
    rcases hcaller with hc | ⟨field, waiting, hc⟩ | hc <;> simpa only [ArchiveClient.step, hc] using hkeep
  | refused e' =>
    rcases hcaller with hc | ⟨field, waiting, hc⟩ | hc <;> simpa only [ArchiveClient.step, hc] using hkeep
  | emplace =>
    rcases hcaller with hc | ⟨field, waiting, hc⟩ | hc
    · simpa only [ArchiveClient.step, hc] using hkeep
    · have hne : c.caller ≠ .getting := by simp [hc]
      cases he : queue.exception with
      | some e' => simpa only [ArchiveClient.step, hc, ArchiveClient.emplace, hqueue, he] using hidle (.threw e') hne
      | none =>
        by_cases hroom : queue.items.length < maxArchiveQueueLength
        · simp only [ArchiveClient.step, hc, ArchiveClient.emplace, hqueue, he, if_pos hroom]
          have hopen' : ({ c with archiveQueue := some (queue.emplace field) } : ArchiveClient α).Open :=
            ⟨thread, queue.emplace field, hfuture, hid, rfl, hreturned, hexception, hdone, hclosed⟩
          exact ⟨.inl ⟨hopen'.congr hne rfl rfl rfl, ⟨thread, hfuture, hfails⟩, .inl rfl⟩, .inr hsome⟩
        · simp only [ArchiveClient.step, hc, ArchiveClient.emplace, hqueue, he, if_neg hroom]
          exact ⟨.inl ⟨hopen.congr hne rfl rfl hqueue.symm, ⟨thread, hfuture, hfails⟩, .inr (.inl ⟨field, true, rfl⟩)⟩,
            .inr hsome⟩
    · simpa only [ArchiveClient.step, hc] using hkeep
  | get =>
    rcases hcaller with hc | ⟨field, waiting, hc⟩ | hc
    · simpa only [ArchiveClient.step, hc] using hkeep
    · simpa only [ArchiveClient.step, hc] using hkeep
    · rcases hfails with rfl | ⟨e, rfl⟩
      · simpa only [ArchiveClient.step, hc, ArchiveClient.get, hfuture] using hkeep
      · simp only [ArchiveClient.step, hc, ArchiveClient.get, hfuture]
        exact ⟨.inr (.inl ⟨rfl, hid, rfl⟩), .inl trivial⟩
  | thread write =>
    rcases hfails with rfl | ⟨e, rfl⟩ <;> simpa only [ArchiveClient.step, ArchiveClient.thread, hfuture] using hkeep
  | interrupt e' =>
    have hinterrupted : Stuck ({ c with archiveQueue := c.archiveQueue.map (·.interrupt e') } : ArchiveClient α) :=
      .inl ⟨⟨thread, queue.interrupt e', hfuture, hid, by simp [hqueue], hreturned,
        fun _ _ => by simp [Queue.interrupt], hdone, hclosed⟩, ⟨thread, hfuture, hfails⟩, hcaller⟩
    simp only [ArchiveClient.step]
    split
    · exact hkeep
    · exact ⟨hinterrupted, hkeep.2⟩

theorem noID_step {a : ArchiveStep α} (h : NoID c) : NoID (c.step maxArchiveQueueLength maxArchiveBatchSize a) := by
  have hkeep := h
  obtain ⟨hfuture, hid, hc⟩ := h
  obtain ⟨thread, hthread⟩ : ∃ thread, c.archiveFuture = some thread := by
    rcases hfuture with ⟨id, h⟩ | ⟨e, h⟩ <;> exact ⟨_, h⟩
  have hends : ∀ outcome, NoID (c.ends outcome) := fun _ => ⟨hfuture, hid, rfl⟩
  cases a with
  | archive field connect =>
    cases connect with
    | some e => simpa only [ArchiveClient.step, hc] using hends (.threw e)
    | none =>
      simpa only [ArchiveClient.step, hc, ArchiveClient.archive, hthread, ArchiveClient.ready, Option.isNone_some,
        Bool.false_eq_true, if_false, if_pos hid] using hends (.asserted "archiveID_ != 0")
  | flush =>
    simpa only [ArchiveClient.step, hc, ArchiveClient.flush, hthread, if_pos hid] using hends (.asserted "archiveID_ != 0")
  | thread write =>
    rcases hfuture with ⟨id, h⟩ | ⟨e, h⟩
    · simp only [ArchiveClient.step, ArchiveClient.thread, h, if_pos hid]
      split <;> exact ⟨.inr ⟨_, rfl⟩, hid, hc⟩
    · simpa only [ArchiveClient.step, ArchiveClient.thread, h] using hkeep
  | generateRequestID => exact ⟨hfuture, hid, hc⟩
  | interrupt e =>
    simp only [ArchiveClient.step, hc]
    exact ⟨hfuture, hid, rfl⟩
  | received | refused _ | emplace | get => simpa only [ArchiveClient.step, hc] using hkeep

theorem stuck_step {a : ArchiveStep α} (h : Stuck c) :
    Stuck (c.step maxArchiveQueueLength maxArchiveBatchSize a) ∧ (c.caller = .getting ∨
      ((c.step maxArchiveQueueLength maxArchiveBatchSize a).archiveFuture = none → c.archiveFuture = none)) := by
  rcases h with ⟨hopen, ⟨thread, hfuture, hfails⟩, hcaller⟩ | ⟨hfuture, hid, hc⟩ | ⟨hfuture, hid, hc⟩
  · have hstays : Stuck (c.step maxArchiveQueueLength maxArchiveBatchSize a) ∧ (c.caller = .getting ∨
        (c.step maxArchiveQueueLength maxArchiveBatchSize a).archiveFuture ≠ none) :=
      fails_step hopen hfuture hfails hcaller
    obtain ⟨hstuck, hgetting | hsome⟩ := hstays
    · exact ⟨hstuck, .inl hgetting⟩
    · exact ⟨hstuck, .inr fun hnone => absurd hnone hsome⟩
  · refine ⟨.inr (.inl ?_), .inr fun _ => hfuture⟩
    cases a with
    | archive field connect =>
      cases connect <;> simp [ArchiveClient.step, hc, ArchiveClient.archive, hfuture, hid, ArchiveClient.ends]
    | flush => simp [ArchiveClient.step, hc, ArchiveClient.flush, hfuture, hid, ArchiveClient.ends]
    | thread write => simp [ArchiveClient.step, ArchiveClient.thread, hfuture, hid, hc]
    | _ => simp [ArchiveClient.step, hfuture, hid, hc]
  · have hstep : NoID (c.step maxArchiveQueueLength maxArchiveBatchSize a) := noID_step ⟨hfuture, hid, hc⟩
    refine ⟨.inr (.inr hstep), .inr fun hnone => ?_⟩
    rcases hstep.1 with ⟨id, h⟩ | ⟨e, h⟩ <;> simp [hnone] at h

end Client

/-- The system after a step has no more than the client and what was enqueued changed. -/
@[simp] theorem settle_client {c : ArchiveClient α} {flush : Bool} : (s.settle c flush).client = c := by
  unfold settle
  (repeat' split) <;> rfl

@[simp] theorem settle_server {c : ArchiveClient α} {flush : Bool} : (s.settle c flush).server = s.server := by
  unfold settle
  (repeat' split) <;> rfl

@[simp] theorem settle_replies {c : ArchiveClient α} {flush : Bool} : (s.settle c flush).replies = s.replies := by
  unfold settle
  (repeat' split) <;> rfl

end ArchiveSystem

end Fdb5
