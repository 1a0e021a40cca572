import Fdb5.Library.Follows
import Fdb5.Remote.Listening

/-! Fields that are read over the connection: `FDBRemoteDataHandle` and the server's side of it. -/
namespace Fdb5

open Effect

/-- Why a call does not return: it throws, or it waits for a message that never comes. -/
inductive Stop where
  | failed (e : Failure)
  | waits

namespace RemoteHandler

/-- The messages for a field, where `chunks` is what its data handle reads until there is no more. -/
def writeToParent (requestID : UInt32) (chunks : List (List UInt8)) : List WireMessage :=
  chunks.map (fun data => ⟨.blob, requestID, data⟩) ++ [⟨.complete, requestID, []⟩]

def readLocationThreadLoop (queue : List (UInt32 × List (List UInt8))) : List WireMessage :=
  queue.flatMap fun elem => writeToParent elem.1 elem.2

end RemoteHandler

structure FDBRemoteDataHandle where
  pos : Nat := 0
  overallPosition : Nat := 0
  currentBuffer : List UInt8 := []
  complete : Bool := false

namespace FDBRemoteDataHandle

/-- `ASSERT(condition)` where a call may also wait. -/
def check {σ : Type} (c : Prop) [Decidable c] (condition : String) : EStateM Stop σ Unit :=
  if c then pure () else throw (.failed (.assertion condition))

/-- `queue_.pop(msg)`, which waits where nothing is queued. -/
def pop : EStateM Stop (List StoredMessage) StoredMessage := fun queue =>
  match queue with
  | msg :: queue => .ok msg queue
  | [] => .error .waits []

def bufferRead (sz : Nat) : EStateM Stop FDBRemoteDataHandle (List UInt8) := do
  let h ← get
  check (h.currentBuffer.length ≠ 0) "currentBuffer_.size() != 0"
  check (h.pos < h.currentBuffer.length) "pos_ < currentBuffer_.size()"
  let read := min sz (h.currentBuffer.length - h.pos)
  let bytes := (h.currentBuffer.drop h.pos).take read
  let h := { h with pos := h.pos + read, overallPosition := h.overallPosition + read }
  -- an exhausted buffer is freed
  set (if h.currentBuffer.length ≤ h.pos then { h with currentBuffer := [], pos := 0 } else h)
  return bytes

/-- What a call copies to the caller's buffer; as many bytes as it returns. -/
def read (sz : Nat) : EStateM Stop (List StoredMessage × FDBRemoteDataHandle) (List UInt8) := do
  let h := (← get).2
  if h.complete then
    return []
  else if h.currentBuffer.length ≠ 0 then
    onSnd (bufferRead sz)
  else
    let msg ← onFst pop
    check (msg.header.marker = startMarker) "hdr.marker == StartMarker"
    check (msg.header.version = currentVersion) "hdr.version == CurrentVersion"
    match Message.ofCode msg.header.message with
    | some .error => throw (.failed (remoteException msg.payload))
    | some .complete =>
      -- `complete_ = 0`
      onSnd (modify fun h => { h with complete := false })
      return []
    | some .blob =>
      onSnd (modify fun h => { h with currentBuffer := msg.payload })
      onSnd (bufferRead sz)
    | _ => throw (.failed (.assertion "hdr.message == fdb5::remote::Message::Blob"))

end FDBRemoteDataHandle

/-- A client that reads fields: the queue its handles share, the handles in the order of their requests, and
what the calls so far have returned. -/
structure RemoteReads where
  queue : List StoredMessage
  handles : Nat → FDBRemoteDataHandle := fun _ => {}
  returned : List (Nat × List UInt8) := []

/-- The bytes that calls have returned for a request. -/
def bytesOf (i : Nat) (returned : List (Nat × List UInt8)) : List UInt8 :=
  (returned.filter fun r => r.1 = i).flatMap Prod.snd

namespace RemoteReads

/-- A call of `read` on a handle with a size. -/
def step (s : RemoteReads) (call : Nat × Nat) : RemoteReads :=
  match (FDBRemoteDataHandle.read call.2).run (s.queue, s.handles call.1) with
  | .ok bytes (queue, h) =>
    { queue, handles := Function.update s.handles call.1 h, returned := s.returned ++ [(call.1, bytes)] }
  | .error _ (queue, h) => { s with queue, handles := Function.update s.handles call.1 h }

/-- The call returns; if one has returned 0 before, this one does too and takes no message. -/
def Returns (s : RemoteReads) (call : Nat × Nat) : Prop :=
  ∃ bytes, (s.step call).returned = s.returned ++ [(call.1, bytes)] ∧
    ((call.1, []) ∈ s.returned → bytes = [] ∧ (s.step call).queue = s.queue)

/-- The client with all that the server sends for some requests. -/
def start (requests : List (UInt32 × List (List UInt8))) : RemoteReads where
  queue := (RemoteHandler.readLocationThreadLoop requests).map WireMessage.stored

end RemoteReads

/-- What is left of the requests where the calls take them in order, chunk after chunk. -/
structure Streams where
  cur : Nat := 0
  remaining : List (UInt32 × List (List UInt8))
  returned : List (Nat × List UInt8) := []

namespace Streams

def step (t : Streams) (call : Nat × Nat) : Streams :=
  if call.1 < t.cur then { t with returned := t.returned ++ [(call.1, [])] }
  else
    match t.remaining with
    | [] => t
    | (_, []) :: rest => { cur := t.cur + 1, remaining := rest, returned := t.returned ++ [(call.1, [])] }
    | (id, chunk :: chunks) :: rest =>
      { t with
        remaining := (id, if call.2 < chunk.length then chunk.drop call.2 :: chunks else chunks) :: rest
        returned := t.returned ++ [(call.1, chunk.take call.2)] }

/-- The handle is of the request whose turn it is, or of one that has ended. -/
def InOrder (t : Streams) (call : Nat × Nat) : Prop :=
  0 < call.2 ∧ (call.1 < t.cur ∨ call.1 = t.cur ∧ t.remaining ≠ [])

/-- The bytes of a request that no call has returned. -/
def left (t : Streams) (i : Nat) : List UInt8 :=
  if i < t.cur then [] else (t.remaining.getD (i - t.cur) (0, [])).2.flatten

end Streams

/-- Calls that read the handles one after the other; a handle may be read again later. -/
def InOrder (requests : List (UInt32 × List (List UInt8))) : List (Nat × Nat) → Prop :=
  Follows.Each Streams.InOrder Streams.step { remaining := requests }

/-- No call is on a handle of which one has returned 0. -/
def ReadOnce (requests : List (UInt32 × List (List UInt8))) : List (Nat × Nat) → Prop :=
  Follows.Each (fun t call => ¬ call.1 < t.cur) Streams.step { remaining := requests }

namespace FDBRemoteDataHandle

variable {h : FDBRemoteDataHandle} {n : Nat} {queue : List StoredMessage}
  {Q : List UInt8 → List StoredMessage × FDBRemoteDataHandle → Prop}
  {E : Stop → List StoredMessage × FDBRemoteDataHandle → Prop}

/-- The handle when a call has copied up to `n` bytes. -/
def after (h : FDBRemoteDataHandle) (n : Nat) : FDBRemoteDataHandle :=
  if n < h.currentBuffer.length - h.pos then
    { h with pos := h.pos + n, overallPosition := h.overallPosition + n }
  else
    { h with
      pos := 0, overallPosition := h.overallPosition + (h.currentBuffer.length - h.pos), currentBuffer := [] }

@[simp] theorem ends_check {σ : Type} {c : Prop} [Decidable c] {condition : String} {s : σ} {Q : Unit → σ → Prop}
    {E : Stop → σ → Prop} : Ends (check c condition) s Q E ↔
      (c → Q () s) ∧ (¬ c → E (.failed (.assertion condition)) s) := by
  unfold check
  rw [ends_ite, ends_pure, ends_throw]

@[simp] theorem ends_pop_cons {msg : StoredMessage} {Q : StoredMessage → List StoredMessage → Prop}
    {E : Stop → List StoredMessage → Prop} : Ends pop (msg :: queue) Q E ↔ Q msg queue := Iff.rfl

@[simp] theorem ends_pop_nil {Q : StoredMessage → List StoredMessage → Prop}
    {E : Stop → List StoredMessage → Prop} : Ends pop [] Q E ↔ E .waits [] := Iff.rfl

theorem ends_bufferRead {Q : List UInt8 → FDBRemoteDataHandle → Prop} {E : Stop → FDBRemoteDataHandle → Prop}
    (hpos : h.pos < h.currentBuffer.length) :
    Ends (bufferRead n) h Q E ↔ Q ((h.currentBuffer.drop h.pos).take n) (h.after n) := by
  have hlen : h.currentBuffer.length ≠ 0 := by omega
  simp only [bufferRead, ends_bind, ends_get, ends_check, ends_set, ends_pure]
  simp only [hlen, hpos, ne_eq, not_false_eq_true, not_true_eq_false, forall_const, IsEmpty.forall_iff, and_true]
  by_cases hn : n < h.currentBuffer.length - h.pos
  · have hmin : min n (h.currentBuffer.length - h.pos) = n := by omega
    have hmore : ¬ h.currentBuffer.length ≤ h.pos + n := by omega
    rw [hmin, if_neg hmore, after, if_pos hn]
  · have hmin : min n (h.currentBuffer.length - h.pos) = h.currentBuffer.length - h.pos := by omega
    have hend : h.currentBuffer.length ≤ h.pos + (h.currentBuffer.length - h.pos) := by omega
    have hall : (h.currentBuffer.drop h.pos).length ≤ n := by rw [List.length_drop]; omega
    have htake := List.take_of_length_le hall
    have htake' : (h.currentBuffer.drop h.pos).take (h.currentBuffer.length - h.pos) = h.currentBuffer.drop h.pos :=
      List.take_of_length_le (by rw [List.length_drop])
    rw [hmin, if_pos hend, after, if_neg hn, htake, htake']

theorem ends_read_buffered (hc : h.complete = false) (hpos : h.pos < h.currentBuffer.length) :
    Ends (read n) (queue, h) Q E ↔ Q ((h.currentBuffer.drop h.pos).take n) (queue, h.after n) := by
  have hlen : h.currentBuffer.length ≠ 0 := by omega
  simp [read, hc, List.length_eq_zero_iff.not.mp hlen, ends_bufferRead hpos]

theorem ends_read_blob {id : UInt32} {data : List UInt8} (hc : h.complete = false) (hb : h.currentBuffer = [])
    (hpos : h.pos = 0) (hdata : data ≠ []) :
    Ends (read n) (WireMessage.stored ⟨.blob, id, data⟩ :: queue, h) Q E ↔
      Q (data.take n) (queue, { h with currentBuffer := data }.after n) := by
  obtain ⟨pos, overallPosition, currentBuffer, complete⟩ := h
  obtain rfl : complete = false := hc
  obtain rfl : currentBuffer = [] := hb
  obtain rfl : pos = 0 := hpos
  have hlt := List.length_pos_of_ne_nil hdata
  simp only [read, ends_bind, ends_get]
  simp [WireMessage.stored, ends_bufferRead (h := ⟨0, overallPosition, data, false⟩) hlt]

theorem ends_read_complete {id : UInt32} (hc : h.complete = false) (hb : h.currentBuffer = []) :
    Ends (read n) (WireMessage.stored ⟨.complete, id, []⟩ :: queue, h) Q E ↔ Q [] (queue, h) := by
  obtain ⟨pos, overallPosition, currentBuffer, complete⟩ := h
  obtain rfl : complete = false := hc
  obtain rfl : currentBuffer = [] := hb
  simp only [read, ends_bind, ends_get]
  simp [WireMessage.stored]

theorem ends_read_nothing (hc : h.complete = false) (hb : h.currentBuffer = []) :
    Ends (read n) ([], h) Q E ↔ E .waits ([], h) := by
  simp [read, hc, hb, ends_pop_nil]

end FDBRemoteDataHandle

end Fdb5
