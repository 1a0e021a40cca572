import Fdb5.Library.Follows
import Fdb5.Remote.Messages

/-! Requests on the control connection and their answers. -/
namespace Fdb5

open Effect Bytes

/-- How the payloads of requests decode: `FDBToolRequest` with `extraDecode`, the count of a Flush, `Reanimator<FieldLocation>`. -/
structure Decoders where
  toolRequest : Message → List UInt8 → Except Failure Unit
  numArchived : List UInt8 → Except Failure Nat
  location : List UInt8 → Except Failure Unit

/-- What the handler meets at a request: the workers that have ended, the elements of an API call and what it throws
behind them, and how the archive thread, `FDB::flush` and `FieldLocation::dataHandle` end. -/
structure Outcomes where
  ready : UInt32 → Bool := fun _ => true
  apiCall : List (List UInt8) × Option Failure := ([], none)
  archived : Except Failure Nat := .ok 0
  flushed : Except Failure Unit := .ok ()
  dataHandle : Except Failure Unit := .ok ()

/-- A server as the client sees it on the control connection. A worker is kept with what it writes on the data
connection, `archiveFuture` is `archiveFuture_.valid()`, and `handling` is that `handle` has not ended. -/
structure ControlServer where
  controlSocket : List UInt8 := []
  sent : List UInt8 := []
  workerThreads : List (UInt32 × List WireMessage) := []
  archiveFuture : Bool := false
  handling : Bool := true

namespace RemoteHandler

variable (decoders : Decoders) (what : Failure → List UInt8) (o : Outcomes)

def onSocket {α : Type} (x : EStateM Failure (List UInt8) α) : EStateM Failure ControlServer α :=
  focus ControlServer.controlSocket (fun bytes s => { s with controlSocket := bytes }) x

def tidyWorkers (s : ControlServer) : ControlServer :=
  { s with workerThreads := s.workerThreads.filter fun worker => !o.ready worker.1 }

def receivePayload (hdr : MessageHeader) : EStateM Failure (List UInt8) (List UInt8) := do
  ensure (0 < hdr.payloadSize.toNat) "hdr.payloadSize > 0"
  read hdr.payloadSize.toNat shortRead

/-- `controlWrite(msg, requestID, payload, payloadLength)`; a text is never a null pointer. -/
def controlWrite (message : Message) (requestID : UInt32) (payload : Option (List UInt8)) :
    EStateM Failure ControlServer Unit := do
  ensure (payload = none ↔ payload.getD [] = []) "(payload == nullptr) == (payloadLength == 0)"
  modify fun s => { s with sent := s.sent ++ WireMessage.encode ⟨message, requestID, payload.getD []⟩ }

/-- The thread of `forwardApiCall`, which catches what the call throws. -/
def apiCallThread (requestID : UInt32) : List WireMessage :=
  o.apiCall.1.map (fun encoded => ⟨.blob, requestID, encoded⟩) ++
    [match o.apiCall.2 with
      | none => ⟨.complete, requestID, []⟩
      | some e => ⟨.error, requestID, what e⟩]

def forwardApiCall (message : Message) (hdr : MessageHeader) : EStateM Failure ControlServer Unit := do
  let payload ← onSocket (receivePayload hdr)
  lift (decoders.toolRequest message payload)
  let s ← get
  ensure (∀ worker ∈ s.workerThreads, worker.1 ≠ hdr.requestID)
    "workerThreads_.find(hdr.requestID) == workerThreads_.end()"
  set { s with workerThreads := s.workerThreads ++ [(hdr.requestID, apiCallThread what o hdr.requestID)] }

def archive (hdr : MessageHeader) : EStateM Failure ControlServer Unit := do
  ensure (hdr.payloadSize.toNat = 0) "hdr.payloadSize == 0"
  let s ← get
  ensure (s.archiveFuture = false) "!archiveFuture_.valid()"
  set { s with archiveFuture := true }

def flush (hdr : MessageHeader) : EStateM Failure ControlServer Unit := do
  let payload ← onSocket (receivePayload hdr)
  let numArchived ← lift (decoders.numArchived payload)
  let s ← get
  ensure (numArchived = 0 ∨ s.archiveFuture) "numArchived == 0 || archiveFuture_.valid()"
  if s.archiveFuture then
    -- `get()` lets go of the thread's result also where it throws what the thread threw.
    set { s with archiveFuture := false }
    let n ← lift o.archived
    ensure (numArchived = n) "numArchived == n"
    lift o.flushed

/-- `read`, which leaves the reading itself to another thread. -/
def readLocation (hdr : MessageHeader) : EStateM Failure ControlServer Unit := do
  let payload ← onSocket (receivePayload hdr)
  lift (decoders.location payload)
  lift o.dataHandle

/-- The messages of `forwardApiCall`. -/
def apiCalls : List Message := [.list, .dump, .purge, .stats, .status, .wipe, .control, .inspect]

/-- The `switch` of `handle`. -/
def dispatch (hdr : MessageHeader) : EStateM Failure ControlServer Unit :=
  match Message.ofCode hdr.message with
  | some .archive => archive hdr
  | some .flush => flush decoders o hdr
  | some .read => readLocation decoders o hdr
  | some m =>
    if m ∈ apiCalls then forwardApiCall decoders what o m hdr
    else throw (.seriousBug "ERROR: Unexpected message recieved. ABORTING")
  | none => throw (.seriousBug "ERROR: Unexpected message recieved. ABORTING")

/-- What is inside the `try`. -/
def answer (hdr : MessageHeader) : EStateM Failure ControlServer Unit := do
  dispatch decoders what o hdr
  onSocket readTail
  controlWrite .received hdr.requestID none

/-- An iteration of `handle`: whether it goes on; `what` is the text of an exception. -/
def handle : EStateM Failure ControlServer Bool := do
  modify (tidyWorkers o)
  let hdr ← onSocket (readValue MessageHeader.layout shortRead)
  ensure (hdr.marker = startMarker) "hdr.marker == StartMarker"
  ensure (hdr.version = currentVersion) "hdr.version == CurrentVersion"
  if hdr.message = Message.exit.code then return false
  else
    tryCatch (answer decoders what o hdr) fun e => controlWrite .error hdr.requestID (some (what e))
    return true

/-- The server, in a state where it has tidied its workers, can do what a request asks: its kind has a case in
`handle`, it has the payload that the case wants, and what the case decodes, asserts and calls throws nothing. The FDB
call of a worker may. -/
def Accepts (s : ControlServer) (m : WireMessage) : Prop :=
  (m.message = .archive ∧ m.payload = [] ∧ s.archiveFuture = false) ∨
  (m.message = .flush ∧ m.payload ≠ [] ∧ ∃ numArchived, decoders.numArchived m.payload = .ok numArchived ∧
    (s.archiveFuture = false → numArchived = 0) ∧
    (s.archiveFuture = true → o.archived = .ok numArchived ∧ o.flushed = .ok ())) ∨
  (m.message = .read ∧ m.payload ≠ [] ∧ decoders.location m.payload = .ok () ∧ o.dataHandle = .ok ()) ∨
  (m.message ∈ apiCalls ∧ m.payload ≠ [] ∧ decoders.toolRequest m.message m.payload = .ok () ∧
    ∀ worker ∈ s.workerThreads, worker.1 ≠ m.requestID)

end RemoteHandler

namespace RemoteFDB

def handleError (hdr : MessageHeader) : EStateM Failure (List UInt8) Unit := do
  ensure (hdr.marker = startMarker) "hdr.marker == StartMarker"
  ensure (hdr.version = currentVersion) "hdr.version == CurrentVersion"
  if hdr.message = Message.error.code then
    ensure (9 < hdr.payloadSize.toNat) "hdr.payloadSize > 9"
    let text ← read hdr.payloadSize.toNat shortRead
    tryCatch (do let _ ← readValue markerLayout shortRead) fun _ => return ()
    throw (.exception (textOf text))

/-- `controlWriteCheckResponse` after the request is written. -/
def checkResponse : EStateM Failure (List UInt8) Unit := do
  let response ← readValue MessageHeader.layout shortRead
  handleError response
  ensure (response.marker = startMarker) "response.marker == StartMarker"
  ensure (response.version = currentVersion) "response.version == CurrentVersion"
  ensure (response.message = Message.received.code) "response.message == fdb5::remote::Message::Received"
  readTail

end RemoteFDB

/-- The two ends of a control connection; `toClient` is what the client has not read. -/
structure ControlConnection where
  server : ControlServer := {}
  toClient : List UInt8 := []

namespace ControlConnection

variable (decoders : Decoders) (what : Failure → List UInt8)

/-- The server reads a message, if it still does. -/
def serve (o : Outcomes) (s : ControlServer) : ControlServer :=
  if s.handling then
    match (RemoteHandler.handle decoders what o).run s with
    | .ok handling s => { s with handling }
    | .error _ s => { s with handling := false }
  else s

/-- The server when the client has written a request, and what it does with it. -/
def written (c : ControlConnection) (m : WireMessage) : ControlServer :=
  { c.server with controlSocket := c.server.controlSocket ++ m.encode, sent := [] }

def served (c : ControlConnection) (request : WireMessage × Outcomes) : ControlServer :=
  serve decoders what request.2 (c.written request.1)

/-- A request: `controlWriteCheckResponse` on the client, and the handler on the server. -/
def step (c : ControlConnection) (request : WireMessage × Outcomes) : ControlConnection where
  server := served decoders what c request
  toClient := final (RemoteFDB.checkResponse.run (c.toClient ++ (served decoders what c request).sent))

/-- The server has sent one reply, which the client has read all of, and reads on behind the request. -/
def Framed (c : ControlConnection) (request : WireMessage × Outcomes) : Prop :=
  (∃ reply : WireMessage, (reply.message = .received ∨ reply.message = .error) ∧
      reply.requestID = request.1.requestID ∧ (served decoders what c request).sent = reply.encode) ∧
    (step decoders what c request).toClient = [] ∧ (served decoders what c request).controlSocket = [] ∧
    (served decoders what c request).handling

/-- The server can do what the request asks. -/
def Accepted (c : ControlConnection) (request : WireMessage × Outcomes) : Prop :=
  RemoteHandler.Accepts decoders request.2 (RemoteHandler.tidyWorkers request.2 c.server) request.1

end ControlConnection

section Framing

variable {decoders : Decoders} {what : Failure → List UInt8} {o : Outcomes} {s : ControlServer} {m : WireMessage}
  {rest : List UInt8}

namespace RemoteHandler

@[simp] theorem ends_onSocket {α : Type} {x : EStateM Failure (List UInt8) α} {Q : α → ControlServer → Prop}
    {E : Failure → ControlServer → Prop} : Ends (onSocket x) s Q E ↔
      Ends x s.controlSocket (fun a t => Q a { s with controlSocket := t })
        fun e t => E e { s with controlSocket := t } := ends_focus

theorem ends_receivePayload (h : m.Fits) {Q : List UInt8 → List UInt8 → Prop} {E : Failure → List UInt8 → Prop} :
    Ends (receivePayload m.header) (m.payload ++ rest) Q E ↔
      (m.payload ≠ [] → Q m.payload rest) ∧
        (m.payload = [] → E (.assertion "hdr.payloadSize > 0") (m.payload ++ rest)) := by
  have hsize := WireMessage.payloadSize_header h
  rw [receivePayload, ends_bind, ends_ensure, ends_read_append hsize.symm, hsize, List.length_pos_iff, ne_eq,
    not_not]

/-- A case of `handle` that stops behind the payload if `P`, and throws somewhere before otherwise. -/
def Handles (P : Prop) (x : EStateM Failure ControlServer Unit) (s : ControlServer) (rest : List UInt8) : Prop :=
  Ends x s (fun _ t => P ∧ t.controlSocket = rest ∧ t.sent = s.sent) fun _ t => ¬ P ∧ rest <:+ t.controlSocket

theorem Handles.congr {P P' : Prop} {x : EStateM Failure ControlServer Unit} (h : Handles P x s rest)
    (hP : P' ↔ P) : Handles P' x s rest := by
  rwa [propext hP]

theorem handles_archive (h : m.Fits) (hs : s.controlSocket = m.payload ++ rest) :
    Handles (m.payload = [] ∧ s.archiveFuture = false) (archive m.header) s rest := by
  have hsize : m.header.payloadSize.toNat = 0 ↔ m.payload = [] := by
    rw [WireMessage.payloadSize_header h, List.length_eq_zero_iff]
  have hsuffix : rest <:+ s.controlSocket := by
    rw [hs]
    exact List.suffix_append _ _
  simp only [Handles, archive, ends_bind, ends_ensure, ends_get, ends_set, hsize]
  refine ⟨fun hpayload => ⟨fun hfuture => ⟨⟨hpayload, hfuture⟩, ?_, trivial⟩, ?_⟩, ?_⟩
  · rw [hs, hpayload, List.nil_append]
  · exact fun hfuture => ⟨fun hP => hfuture hP.2, hsuffix⟩
  · exact fun hpayload => ⟨fun hP => hpayload hP.1, hsuffix⟩

/-- A case that reads the payload needs one. -/
theorem handles_receivePayload {P : Prop} {x : List UInt8 → EStateM Failure ControlServer Unit} (h : m.Fits)
    (hs : s.controlSocket = m.payload ++ rest) (hx : Handles P (x m.payload) { s with controlSocket := rest } rest) :
    Handles (m.payload ≠ [] ∧ P) (onSocket (receivePayload m.header) >>= x) s rest := by
  rw [Handles, ends_bind, ends_onSocket, hs, ends_receivePayload h]
  constructor
  · intro hpayload
    apply hx.mono
    · exact fun _ t ⟨hP, ht⟩ => ⟨⟨hpayload, hP⟩, ht⟩
    · exact fun _ t ⟨hP, ht⟩ => ⟨fun hboth => hP hboth.2, ht⟩
  · exact fun hpayload => ⟨fun hP => hP.1 hpayload, List.suffix_append _ _⟩

theorem handles_lift {P : Prop} {x : Unit → EStateM Failure ControlServer Unit} {r : Except Failure Unit}
    (hs : s.controlSocket = rest) (hx : Handles P (x ()) s rest) :
    Handles (r = .ok () ∧ P) (lift r >>= x) s rest := by
  rw [Handles, ends_bind, ends_lift]
  constructor
  · rintro ⟨⟩ hr
    apply hx.mono
    · exact fun _ t ⟨hP, ht⟩ => ⟨⟨hr, hP⟩, ht⟩
    · exact fun _ t ⟨hP, ht⟩ => ⟨fun hboth => hP hboth.2, ht⟩
  · intro e hr
    rw [hr]
    exact ⟨nofun, hs ▸ List.suffix_rfl⟩

theorem handles_forwardApiCall {message : Message} (h : m.Fits) (hs : s.controlSocket = m.payload ++ rest) :
    Handles (m.payload ≠ [] ∧ decoders.toolRequest message m.payload = .ok () ∧
      ∀ worker ∈ s.workerThreads, worker.1 ≠ m.requestID)
      (forwardApiCall decoders what o message m.header) s rest := by
  apply handles_receivePayload h hs
  apply handles_lift rfl
  simp only [Handles, ends_bind, ends_get, ends_ensure, ends_set]
  exact ⟨fun hworkers => ⟨hworkers, trivial, trivial⟩, fun hworkers => ⟨hworkers, List.suffix_rfl⟩⟩

theorem handles_readLocation (h : m.Fits) (hs : s.controlSocket = m.payload ++ rest) :
    Handles (m.payload ≠ [] ∧ decoders.location m.payload = .ok () ∧ o.dataHandle = .ok ())
      (readLocation decoders o m.header) s rest := by
  apply handles_receivePayload h hs
  apply handles_lift rfl
  rw [Handles, ends_lift]
  refine ⟨fun _ hr => ⟨hr, rfl, rfl⟩, fun e hr => ⟨?_, List.suffix_rfl⟩⟩
  rw [hr]
  nofun

/-- A Flush is acknowledged if it announces what the archive thread has archived, and the FDB is flushed. -/
theorem handles_flush (h : m.Fits) (hs : s.controlSocket = m.payload ++ rest) :
    Handles (m.payload ≠ [] ∧ ∃ numArchived, decoders.numArchived m.payload = .ok numArchived ∧
      (s.archiveFuture = false → numArchived = 0) ∧
      (s.archiveFuture = true → o.archived = .ok numArchived ∧ o.flushed = .ok ()))
      (flush decoders o m.header) s rest := by
  apply handles_receivePayload h hs
  rw [Handles, ends_bind, ends_lift]
  constructor
  swap
  · intro e hn
    refine ⟨?_, List.suffix_rfl⟩
    rintro ⟨n, hok, -⟩
    rw [hn] at hok
    cases hok
  intro n hn
  have hP : (∃ numArchived, decoders.numArchived m.payload = .ok numArchived ∧
      (s.archiveFuture = false → numArchived = 0) ∧
      (s.archiveFuture = true → o.archived = .ok numArchived ∧ o.flushed = .ok ())) ↔
      (s.archiveFuture = false → n = 0) ∧ (s.archiveFuture = true → o.archived = .ok n ∧ o.flushed = .ok ()) := by
    simp only [hn, Except.ok.injEq, exists_eq_left']
  rw [hP]
  cases hfuture : s.archiveFuture with
  | false =>
    simp only [ends_bind, ends_get, ends_ensure, ends_ite, Bool.false_eq_true, or_false, ends_pure]
    simp
  | true =>
    simp only [ends_bind, ends_get, ends_ensure, ends_ite, or_true, ends_set, ends_lift]
    cases harchived : o.archived with
    | error e => simp
    | ok k =>
      cases hflushed : o.flushed with
      | error e => by_cases hk : n = k <;> simp [hk]
      | ok u => by_cases hk : n = k <;> simp [hk, eq_comm]

/-- What is accepted, kind by kind. -/
theorem handles_dispatch (h : m.Fits) (hs : s.controlSocket = m.payload ++ rest) :
    Handles (Accepts decoders o s m) (dispatch decoders what o m.header) s rest := by
  have hthrow (haccepts : ¬ Accepts decoders o s m) (e : Failure) : Handles (Accepts decoders o s m) (throw e) s rest := by
    rw [Handles, ends_throw, hs]
    exact ⟨haccepts, List.suffix_append _ _⟩
  rw [dispatch, WireMessage.ofCode_header]
  cases hm : m.message with
  | archive =>
    apply (handles_archive h hs).congr
    simp [Accepts, hm, apiCalls]
  | flush =>
    apply (handles_flush h hs).congr
    simp [Accepts, hm, apiCalls]
  | read =>
    apply (handles_readLocation h hs).congr
    simp [Accepts, hm, apiCalls]
  | list | dump | purge | stats | status | wipe | control | inspect =>
    apply (handles_forwardApiCall h hs).congr
    simp [Accepts, hm, apiCalls]
  | none | exit | startup | error | retrieve | move | received | complete | blob | multiBlob =>
    apply hthrow
    simp [Accepts, hm, apiCalls]

theorem ends_controlWrite_socket {message : Message} {id : UInt32} {payload : Option (List UInt8)} :
    Ends (controlWrite message id payload) s (fun _ t => t.controlSocket = s.controlSocket)
      fun _ t => t.controlSocket = s.controlSocket := by
  rw [controlWrite, ends_bind, ends_ensure]
  exact ⟨fun _ => rfl, fun _ => rfl⟩

/-- A request that is not accepted leaves its end on the connection. -/
theorem ends_answer (h : m.Fits) (hs : s.controlSocket = m.payload ++ (markerLayout.encode endMarker ++ rest)) :
    Ends (answer decoders what o m.header) s (fun _ t => Accepts decoders o s m ∧ t.controlSocket = rest ∧
        t.sent = s.sent ++ WireMessage.encode ⟨.received, m.requestID, []⟩)
      fun _ t => ¬ Accepts decoders o s m ∧ markerLayout.encode endMarker ++ rest <:+ t.controlSocket := by
  rw [answer, ends_bind]
  apply (handles_dispatch h hs).mono
  · rintro - t ⟨haccepts, hsocket, hsent⟩
    rw [ends_bind, ends_onSocket, hsocket, ends_readTail, controlWrite, ends_bind, ends_ensure]
    refine ⟨fun _ => ⟨haccepts, rfl, ?_⟩, fun hne => absurd (by simp) hne⟩
    rw [hsent]
    rfl
  · exact fun _ _ h => h

theorem ends_handle (hm : m.message ≠ .exit) (hs : s.controlSocket = m.encode ++ rest)
    {Q : Bool → ControlServer → Prop} {E : Failure → ControlServer → Prop} :
    Ends (handle decoders what o) s Q E ↔
      Ends (answer decoders what o m.header)
        { tidyWorkers o s with controlSocket := m.payload ++ (markerLayout.encode endMarker ++ rest) }
        (fun _ => Q true) fun e t => Ends (controlWrite .error m.requestID (some (what e))) t (fun _ => Q true) E := by
  have hexit : ¬ m.header.message = Message.exit.code := fun hcode => hm (Message.code_inj.mp hcode)
  have htidy : (tidyWorkers o s).controlSocket = m.encode ++ rest := hs
  rw [handle, ends_bind, ends_modify, ends_bind, ends_onSocket, htidy, WireMessage.encode_append, ends_readValue_append]
  simp only [ends_bind, ends_ensure]
  simp only [WireMessage.marker_header, WireMessage.version_header, true_implies, not_true, false_implies, and_true,
    if_neg hexit, ends_bind, ends_tryCatch, ends_pure, WireMessage.requestID_header]

end RemoteHandler

namespace RemoteFDB

/-- The client reads an acknowledgement whole. -/
theorem ends_checkResponse_received {id : UInt32} : Ends checkResponse (WireMessage.encode ⟨.received, id, []⟩)
    (fun _ left => left = []) fun _ _ => False := by
  have hcode : (WireMessage.header ⟨.received, id, []⟩).message = Message.received.code := rfl
  have herror : ¬ (WireMessage.header ⟨.received, id, []⟩).message = Message.error.code := by
    rw [hcode]
    decide
  have hencode : WireMessage.encode ⟨.received, id, []⟩ = MessageHeader.layout.encode (WireMessage.header ⟨.received, id, []⟩) ++
      (markerLayout.encode endMarker ++ []) := by simp [WireMessage.encode]
  rw [checkResponse, ends_bind, hencode, ends_readValue_append, handleError, if_neg herror]
  simp only [ends_bind, ends_ensure, ends_pure, ends_readTail]
  simp [hcode]

end RemoteFDB

namespace ControlConnection

open RemoteHandler

variable {c : ControlConnection} {requests : List (WireMessage × Outcomes)} {request : WireMessage × Outcomes}

/-- A client's request: what `controlWriteCheckResponse` is called with. -/
def Request (m : WireMessage) : Prop := m.Fits ∧ m.message ≠ .exit

/-- Both ends are between two messages. -/
def Between (c : ControlConnection) : Prop := c.server.controlSocket = [] ∧ c.toClient = [] ∧ c.server.handling

theorem ends_handle_written (h : c.Between) (hm : Request m) {Q : Bool → ControlServer → Prop}
    {E : Failure → ControlServer → Prop} : Ends (handle decoders what o) (c.written m) Q E ↔
      Ends (answer decoders what o m.header) { tidyWorkers o c.server with
          controlSocket := m.payload ++ (markerLayout.encode endMarker ++ [])
          sent := [] }
        (fun _ => Q true) fun e t => Ends (controlWrite .error m.requestID (some (what e))) t (fun _ => Q true) E := by
  have hsocket : (c.written m).controlSocket = m.encode ++ [] := by simp [written, h.1]
  rw [ends_handle hm.2 hsocket]
  rfl

theorem served_accepted (h : c.Between) (hm : Request request.1) (haccepts : c.Accepted decoders request) :
    (served decoders what c request).controlSocket = [] ∧
      (served decoders what c request).sent = WireMessage.encode ⟨.received, request.1.requestID, []⟩ ∧
      (served decoders what c request).handling = true := by
  have hends : Ends (handle decoders what request.2) (c.written request.1)
      (fun b t => b = true ∧ t.controlSocket = [] ∧
        t.sent = WireMessage.encode ⟨.received, request.1.requestID, []⟩) fun _ _ => False := by
    rw [ends_handle_written h hm]
    apply (ends_answer hm.1 rfl).mono
    · exact fun _ t ⟨_, hsocket, hsent⟩ => ⟨rfl, hsocket, hsent⟩
    · exact fun _ t ⟨hnot, _⟩ => absurd haccepts hnot
  obtain ⟨b, t, hrun, rfl, hsocket, hsent⟩ := hends.returns
  have hhandling : (c.written request.1).handling = true := h.2.2
  rw [served, serve, if_pos hhandling, hrun]
  exact ⟨hsocket, hsent, rfl⟩

/-- A request that is not accepted leaves its end on the connection, or ends the handler. -/
theorem served_thrown (h : c.Between) (hm : Request request.1) (haccepts : ¬ c.Accepted decoders request) :
    (served decoders what c request).controlSocket ≠ [] ∨ (served decoders what c request).handling = false := by
  have hends : Ends (handle decoders what request.2) (c.written request.1) (fun _ t => t.controlSocket ≠ [])
      fun _ _ => True := by
    rw [ends_handle_written h hm]
    apply (ends_answer hm.1 rfl).mono
    · exact fun _ t ⟨hdone, _⟩ => absurd hdone haccepts
    · rintro e t ⟨-, hsuffix⟩
      apply ends_controlWrite_socket.mono ?_ fun _ _ _ => trivial
      intro _ u hu hnil
      rw [← hu, hnil, List.append_nil] at hsuffix
      exact absurd (List.suffix_nil.mp hsuffix) (by decide)
  have hhandling : (c.written request.1).handling = true := h.2.2
  rw [served, serve, if_pos hhandling]
  cases hrun : (handle decoders what request.2).run (c.written request.1) with
  | ok b t =>
    have hsocket := hends.ok hrun
    exact .inl hsocket
  | error e t => exact .inr rfl

theorem between_step (h : c.Between) (hm : Request request.1) (haccepts : c.Accepted decoders request) :
    (step decoders what c request).Between ∧ Framed decoders what c request := by
  obtain ⟨hsocket, hsent, hhandling⟩ : (served decoders what c request).controlSocket = [] ∧
      (served decoders what c request).sent = WireMessage.encode ⟨.received, request.1.requestID, []⟩ ∧
      (served decoders what c request).handling = true := served_accepted h hm haccepts
  have hclient : (step decoders what c request).toClient = [] := by
    rw [step, hsent, h.2.1, List.nil_append]
    exact (RemoteFDB.ends_checkResponse_received.mono (fun _ _ h => h) fun _ _ h => h.elim).final
  exact ⟨⟨hsocket, hclient, hhandling⟩, ⟨⟨.received, request.1.requestID, []⟩, .inl rfl, rfl, hsent⟩, hclient, hsocket,
    hhandling⟩

/-- Over a whole run the connection stays framed exactly if every request is accepted. -/
theorem framed_iff (h : ∀ request ∈ requests, Request request.1) (hc : c.Between) :
    Follows.Each (Framed decoders what) (step decoders what) c requests ↔
      Follows.Each (Accepted decoders) (step decoders what) c requests := by
  apply Follows.good_iff (f := step decoders what) (R := fun _ c d => c = d ∧ Between c)
    (G := fun _ c _ request => Framed decoders what c request)
  · rintro request hm - c d ⟨rfl, hc⟩
    constructor
    · intro hframed
      by_contra haccepts
      have hthrown : (served decoders what c request).controlSocket ≠ [] ∨
          (served decoders what c request).handling = false := served_thrown hc (h request hm) haccepts
      rcases hthrown with hsocket | hhandling
      · exact hsocket hframed.2.2.1
      · rw [hframed.2.2.2] at hhandling
        cases hhandling
    · exact fun haccepts => (between_step hc (h request hm) haccepts).2
  · rintro request hm - c d ⟨rfl, hc⟩ haccepts
    exact ⟨rfl, (between_step hc (h request hm) haccepts).1⟩
  · exact ⟨rfl, hc⟩

/-- Payloads of a single number. -/
def byteDecoders : Decoders where
  toolRequest _ _ := .ok ()
  numArchived bytes := .ok (bytes.headD 0).toNat
  location _ := .ok ()

/-- What an archive of one field ends with, and an FDB with a full disk. -/
def archivedOne : Outcomes := { archived := .ok 1 }

def diskFull : Outcomes := { archived := .ok 1, flushed := .error (.exception "No space left on device") }

/-- A list request whose FDB call throws. -/
def listThrows : Outcomes := { apiCall := ([], some (.userError "The request is refused")) }

theorem framed_archive : Follows.Each (Framed byteDecoders fun _ => []) (step byteDecoders fun _ => []) {}
      [(⟨.archive, 1, []⟩, {}), (⟨.list, 2, [7]⟩, listThrows), (⟨.flush, 3, [1]⟩, archivedOne)] ↔
    Follows.Each (Accepted byteDecoders) (step byteDecoders fun _ => []) {}
      [(⟨.archive, 1, []⟩, {}), (⟨.list, 2, [7]⟩, listThrows), (⟨.flush, 3, [1]⟩, archivedOne)] :=
  framed_iff (by simp [Request, WireMessage.Fits]) ⟨rfl, rfl, rfl⟩

/-- The server answers a failed Flush with an Error, which the client reads, and the end of the request is left. -/
theorem flush_unframed : ¬ Follows.Each (Framed byteDecoders fun _ => List.replicate 20 65)
    (step byteDecoders fun _ => List.replicate 20 65) {} [(⟨.archive, 1, []⟩, {}), (⟨.flush, 2, [1]⟩, diskFull)] := by
  intro h
  have hsocket := (h [(⟨.archive, 1, []⟩, {})] (⟨.flush, 2, [1]⟩, diskFull) [] rfl).2.2.1
  revert hsocket
  decide +kernel

end ControlConnection

end Framing

end Fdb5
