import Mathlib.Algebra.BigOperators.Group.List.Basic
import Mathlib.Algebra.GroupWithZero.Nat
import Mathlib.Algebra.Order.BigOperators.Group.List
import Mathlib.Algebra.Order.Group.Nat
import Fdb5.Remote.KeyStream
import Fdb5.Remote.Messages

/-! Fields on their way to be archived: what `sendArchiveData` writes, and what the server reads of it. -/
namespace Fdb5

open Effect Bytes

namespace RemoteFDB

variable (format : StreamFormat) (id : UInt32)

/-- `keyStream << key` in a buffer of 4096 bytes. -/
def keyBuffer (key : Key) : Except Failure (List UInt8) := do
  let bytes ← key.encodeTo format
  if bytes.length ≤ 4096 then .ok bytes else .error (.exception "MemoryStream: write beyond the buffer")

/-- `dataWrite` of a message with a key and data, whose header gets a size of its own. -/
def dataWrite (message : Message) (payloadSize : Nat) (payload : List UInt8) : List UInt8 :=
  MessageHeader.layout.encode (.build message id payloadSize) ++ payload ++ markerLayout.encode endMarker

def sendArchiveDataOne (key : Key) (data : List UInt8) : Except Failure (List UInt8) := do
  assert (data.length ≠ 0) "length != 0"
  let keyBytes ← keyBuffer format key
  return dataWrite id .blob (data.length + keyBytes.length) (keyBytes ++ data)

/-- `keyBuffers`, each with the data of its element. -/
def keyBuffers (elements : List (Key × List UInt8)) : Except Failure (List (List UInt8 × List UInt8)) :=
  elements.mapM fun e => do return (← keyBuffer format e.1, e.2)

def containedSize (parts : List (List UInt8 × List UInt8)) : Nat :=
  (parts.map fun p => p.1.length + p.2.length + MessageHeader.layout.width + markerLayout.width).sum

/-- What a pop of the archive queue is sent as. -/
def sendArchiveData (elements : List (Key × List UInt8)) : Except Failure (List UInt8) :=
  match elements with
  | [(key, data)] => sendArchiveDataOne format id key data
  | _ => do
    let parts ← keyBuffers format elements
    return dataWrite id .multiBlob (containedSize parts)
      (parts.flatMap fun p => dataWrite id .blob (p.2.length + p.1.length) (p.1 ++ p.2))

end RemoteFDB

namespace RemoteHandler

variable (format : StreamFormat) (id : UInt32)

/-- An iteration of the loop that reads the data connection: the payload to queue, and whether it is of a
`MultiBlob`; nothing after a `Flush`. -/
def archiveRead : EStateM Failure (List UInt8) (Option (List UInt8 × Bool)) := do
  let hdr ← readValue MessageHeader.layout shortRead
  ensure (hdr.marker = startMarker) "hdr.marker == StartMarker"
  ensure (hdr.version = currentVersion) "hdr.version == CurrentVersion"
  ensure (hdr.requestID = id) "hdr.requestID == id"
  if hdr.message = Message.flush.code then
    return none
  else
    ensure (hdr.message = Message.blob.code ∨ hdr.message = Message.multiBlob.code)
      "hdr.message == Message::Blob || hdr.message == Message::MultiBlob"
    ensure (0 < hdr.payloadSize.toNat) "hdr.payloadSize > 0"
    let payload ← read hdr.payloadSize.toNat shortRead
    readTail
    return some (payload, hdr.message = Message.multiBlob.code)

/-- The worker archives what a payload holds. -/
def archiveBlobPayload (payload : List UInt8) : EStateM Failure (List (Key × List UInt8)) Unit := fun archived =>
  match (Key.decodeFrom format).run payload with
  | .ok key data => .ok () (archived ++ [(key, data)])
  | .error e _ => .error e archived

/-- `charData` has left the payload. -/
def outside : Failure := .undefinedBehaviour "charData beyond elem.first"

/-- The pointer's way through a `MultiBlob`; it takes at most as many turns as there are bytes. -/
def archiveMultiBlob : Nat → EStateM Failure (List UInt8 × List (Key × List UInt8)) Unit
  | 0 => return ()
  | turns + 1 => do
    if 0 < (← get).1.length then
      let hdr ← onFst (readValue MessageHeader.layout outside)
      ensure (hdr.marker = startMarker) "hdr->marker == StartMarker"
      ensure (hdr.version = currentVersion) "hdr->version == CurrentVersion"
      ensure (hdr.message = Message.blob.code) "hdr->message == Message::Blob"
      ensure (hdr.requestID = id) "hdr->requestID == id"
      let payload ← onFst (read hdr.payloadSize.toNat outside)
      let e ← onFst (readValue markerLayout outside)
      ensure (e = endMarker) "*e == EndMarker"
      onSnd (archiveBlobPayload format payload)
      archiveMultiBlob turns
    else return ()

/-- A turn of the worker with an element of its queue. -/
def archiveElem (elem : List UInt8 × Bool) : EStateM Failure (List (Key × List UInt8)) Unit := fun archived =>
  if elem.2 then
    match (archiveMultiBlob format id elem.1.length).run (elem.1, archived) with
    | .ok _ s => .ok () s.2
    | .error e s => .error e s.2
  else archiveBlobPayload format elem.1 archived

end RemoteHandler

/-- The message for a part of a batch. -/
def blobOf (id : UInt32) (part : List UInt8 × List UInt8) : WireMessage := ⟨.blob, id, part.1 ++ part.2⟩

/-- The message for a whole batch. -/
def batchMessage (id : UInt32) : List (List UInt8 × List UInt8) → WireMessage
  | [part] => blobOf id part
  | parts => ⟨.multiBlob, id, parts.flatMap fun p => (blobOf id p).encode⟩

variable {format : StreamFormat} {id : UInt32} {elements : List (Key × List UInt8)}
  {parts : List (List UInt8 × List UInt8)} {m : WireMessage} {bytes rest : List UInt8}

theorem length_contained : (parts.flatMap fun p => (blobOf id p).encode).length = RemoteFDB.containedSize parts := by
  have hwidth : markerLayout.width = 4 := rfl
  induction parts with
  | nil => rfl
  | cons p parts ih =>
    simp only [List.flatMap_cons, List.length_append, ih, RemoteFDB.containedSize, List.map_cons, List.sum_cons]
    simp [blobOf, MessageHeader.width_layout, hwidth]

theorem dataWrite_blob {p : List UInt8 × List UInt8} :
    RemoteFDB.dataWrite id .blob (p.2.length + p.1.length) (p.1 ++ p.2) = (blobOf id p).encode := by
  rw [Nat.add_comm, ← List.length_append]
  rfl

theorem dataWrite_multiBlob :
    RemoteFDB.dataWrite id .multiBlob (RemoteFDB.containedSize parts) (parts.flatMap fun p => (blobOf id p).encode) =
      WireMessage.encode ⟨.multiBlob, id, parts.flatMap fun p => (blobOf id p).encode⟩ := by
  have hlen : (parts.flatMap fun p => (blobOf id p).encode).length = RemoteFDB.containedSize parts := length_contained
  rw [← hlen]
  rfl

theorem batchMessage_of_length (h : parts.length ≠ 1) :
    batchMessage id parts = ⟨.multiBlob, id, parts.flatMap fun p => (blobOf id p).encode⟩ := by
  match parts with
  | [] => rfl
  | [_] => exact absurd rfl h
  | _ :: _ :: _ => rfl

theorem sendArchiveDataOne_ok {key : Key} {data : List UInt8} :
    RemoteFDB.sendArchiveDataOne format id key data = .ok bytes ↔
      ∃ keyBytes, RemoteFDB.keyBuffer format key = .ok keyBytes ∧ data ≠ [] ∧
        bytes = (blobOf id (keyBytes, data)).encode := by
  have hsent (keyBytes : List UInt8) :
    RemoteFDB.dataWrite id .blob (data.length + keyBytes.length) (keyBytes ++ data) = _ :=
      dataWrite_blob (p := (keyBytes, data))
  simp only [RemoteFDB.sendArchiveDataOne, except_bind_ok, except_pure_ok, assert_ok, hsent]
  constructor
  · rintro ⟨-, hdata, keyBytes, hkey, rfl⟩
    exact ⟨keyBytes, hkey, by simpa using hdata, rfl⟩
  · rintro ⟨keyBytes, hkey, hdata, rfl⟩
    exact ⟨(), by simpa using hdata, keyBytes, hkey, rfl⟩

theorem keyBuffers_singleton {key : Key} {data : List UInt8} :
    RemoteFDB.keyBuffers format [(key, data)] = .ok parts ↔
      ∃ keyBytes, RemoteFDB.keyBuffer format key = .ok keyBytes ∧ [(keyBytes, data)] = parts := by
  simp [RemoteFDB.keyBuffers]

theorem sendArchiveData_of_length (h : elements.length ≠ 1) : RemoteFDB.sendArchiveData format id elements = do
    let parts ← RemoteFDB.keyBuffers format elements
    return WireMessage.encode ⟨.multiBlob, id, parts.flatMap fun p => (blobOf id p).encode⟩ := by
  have hsent : RemoteFDB.sendArchiveData format id elements = do
      let parts ← RemoteFDB.keyBuffers format elements
      return RemoteFDB.dataWrite id .multiBlob (RemoteFDB.containedSize parts)
        (parts.flatMap fun p => RemoteFDB.dataWrite id .blob (p.2.length + p.1.length) (p.1 ++ p.2)) := by
    match elements with
    | [] => rfl
    | [_] => exact absurd rfl h
    | _ :: _ :: _ => rfl
  simpa only [dataWrite_blob, dataWrite_multiBlob] using hsent

/-- What is sent for a batch is one message; alone, an element needs data. -/
theorem sendArchiveData_ok : RemoteFDB.sendArchiveData format id elements = .ok bytes ↔
    ∃ parts, RemoteFDB.keyBuffers format elements = .ok parts ∧
      (elements.length = 1 → ∀ e ∈ elements, e.2 ≠ []) ∧ bytes = (batchMessage id parts).encode := by
  by_cases hlen : elements.length = 1
  · obtain ⟨⟨key, data⟩, rfl⟩ := List.length_eq_one_iff.mp hlen
    change RemoteFDB.sendArchiveDataOne format id key data = .ok bytes ↔ _
    rw [sendArchiveDataOne_ok]
    simp only [keyBuffers_singleton, batchMessage]
    constructor
    · rintro ⟨keyBytes, hkey, hdata, rfl⟩
      exact ⟨_, ⟨keyBytes, hkey, rfl⟩, by simpa using hdata, rfl⟩
    · rintro ⟨_, ⟨keyBytes, hkey, rfl⟩, hdata, rfl⟩
      exact ⟨keyBytes, hkey, by simpa using hdata, rfl⟩
  · rw [sendArchiveData_of_length hlen, except_bind_ok]
    apply exists_congr
    intro parts
    apply and_congr_right
    intro hparts
    have hlength : parts.length ≠ 1 := by
      rw [← (Key.mapM_ok hparts).length_eq]
      exact hlen
    rw [batchMessage_of_length hlength, except_pure_ok, eq_comm]
    simp [hlen]

namespace RemoteHandler

section Reader

variable {Q : Option (List UInt8 × Bool) → List UInt8 → Prop} {E : Failure → List UInt8 → Prop}

theorem ends_archiveRead (h : m.message = .blob ∨ m.message = .multiBlob) :
    Ends (archiveRead m.requestID) (m.encode ++ rest) Q E ↔
      Ends (do
        ensure (0 < m.header.payloadSize.toNat) "hdr.payloadSize > 0"
        let payload ← read m.header.payloadSize.toNat shortRead
        readTail
        return some (payload, decide (m.message = .multiBlob)))
        (m.payload ++ (markerLayout.encode endMarker ++ rest)) Q E := by
  rw [archiveRead, ends_bind, WireMessage.encode_append, ends_readValue_append]
  have hflush : m.header.message ≠ Message.flush.code := by
    rw [WireMessage.message_header, ne_eq, Message.code_inj]
    rcases h with hm | hm <;> simp [hm]
  have hkind : m.header.message = Message.blob.code ∨ m.header.message = Message.multiBlob.code := by
    simpa only [WireMessage.message_header, Message.code_inj] using h
  have hmulti : m.header.message = Message.multiBlob.code ↔ m.message = .multiBlob := by
    rw [WireMessage.message_header, Message.code_inj]
  simp only [ends_bind, ends_ensure, if_neg hflush, eq_true hkind]
  simp [hmulti]

theorem ends_archiveRead_fits (h : m.message = .blob ∨ m.message = .multiBlob) (hfits : m.Fits) (hne : m.payload ≠ []) :
    Ends (archiveRead m.requestID) (m.encode ++ rest) Q E ↔
      Q (some (m.payload, decide (m.message = .multiBlob))) rest := by
  have hsize := WireMessage.payloadSize_header hfits
  have hpos : 0 < m.header.payloadSize.toNat := by
    rw [hsize]
    exact List.length_pos_of_ne_nil hne
  rw [ends_archiveRead h, ends_bind, ends_ensure, ends_bind, ends_read_append hsize.symm]
  simp [hpos, ends_readTail]

/-- The reader is at the end of a message only if the size in its header is the payload's. -/
theorem fits_of_archiveRead (h : m.message = .blob ∨ m.message = .multiBlob) {elem : Option (List UInt8 × Bool)}
    (hrun : (archiveRead m.requestID).run (m.encode ++ rest) = .ok elem rest) : m.Fits ∧ m.payload ≠ [] := by
  have hends : Ends (archiveRead m.requestID) (m.encode ++ rest) (fun _ left =>
      0 < m.header.payloadSize.toNat ∧ left.length + m.header.payloadSize.toNat = m.payload.length + rest.length)
      fun _ _ => True := by
    have hwidth : markerLayout.width = 4 := rfl
    rw [ends_archiveRead h]
    simp only [ends_bind, ends_ensure, ends_read, readTail, readValue, ends_map, ends_pure, hwidth, List.length_drop,
      List.length_append, WireMessage.length_endMarker]
    refine ⟨fun hpos => ⟨fun hlen => ⟨fun hlen' => ⟨fun _ => ?_, fun _ => trivial⟩, fun _ => trivial⟩, fun _ => trivial⟩,
      fun _ => trivial⟩
    exact ⟨hpos, by omega⟩
  obtain ⟨hpos, hlen⟩ := hends.ok hrun
  have hsize : m.header.payloadSize.toNat = m.payload.length % 2 ^ 32 := by
    simp [WireMessage.header, MessageHeader.build]
  have hlt := Nat.mod_lt m.payload.length (show 2 ^ 32 > 0 by decide)
  constructor
  · unfold WireMessage.Fits
    omega
  · rintro hnil
    simp [hnil] at hsize
    omega

end Reader

section Worker

variable {key key' : Key} {keyBytes data : List UInt8} {archived fields : List (Key × List UInt8)}

theorem encodeTo_of_keyBuffer (h : RemoteFDB.keyBuffer format key = .ok keyBytes) : key.encodeTo format = .ok keyBytes := by
  simp only [RemoteFDB.keyBuffer, except_bind_ok] at h
  obtain ⟨bytes, hbytes, hlen⟩ := h
  split at hlen
  · exact hbytes.trans hlen
  · cases hlen

theorem run_archiveBlobPayload (h : RemoteFDB.keyBuffer format key = .ok keyBytes) (hkey : key.encode = .ok key') :
    (archiveBlobPayload format (keyBytes ++ data)).run archived = .ok () (archived ++ [(key', data)]) := by
  have hends : Ends (Key.decodeFrom format) (keyBytes ++ data) (fun k left => k = key' ∧ left = data) fun _ _ => False :=
    (Key.ends_decodeFrom (encodeTo_of_keyBuffer h) hkey).mpr ⟨rfl, rfl⟩
  obtain ⟨k, left, hrun, rfl, rfl⟩ := hends.returns
  change archiveBlobPayload format (keyBytes ++ left) archived = _
  rw [archiveBlobPayload, hrun]

theorem ends_archiveBlobPayload {Q : Unit → List (Key × List UInt8) → Prop} {E : Failure → List (Key × List UInt8) → Prop}
    (h : RemoteFDB.keyBuffer format key = .ok keyBytes) (hkey : key.encode = .ok key') :
    Ends (archiveBlobPayload format (keyBytes ++ data)) archived Q E ↔ Q () (archived ++ [(key', data)]) := by
  unfold Ends
  rw [run_archiveBlobPayload h hkey]

/-- What the server has of a batch. -/
def received (elements : List (Key × List UInt8)) : Except Failure (List (Key × List UInt8)) :=
  elements.mapM fun e => do return (← e.1.encode, e.2)

theorem ends_archiveMultiBlob_turn {turns : Nat} {Q : Unit → List UInt8 × List (Key × List UInt8) → Prop}
    {E : Failure → List UInt8 × List (Key × List UInt8) → Prop} (h : RemoteFDB.keyBuffer format key = .ok keyBytes)
    (hkey : key.encode = .ok key') (hfits : (blobOf id (keyBytes, data)).Fits) :
    Ends (archiveMultiBlob format id (turns + 1)) ((blobOf id (keyBytes, data)).encode ++ rest, archived) Q E ↔
      Ends (archiveMultiBlob format id turns) (rest, archived ++ [(key', data)]) Q E := by
  have hpos : 0 < ((blobOf id (keyBytes, data)).encode ++ rest).length := by
    rw [List.length_append, WireMessage.length_encode]
    omega
  have hsize : (blobOf id (keyBytes, data)).payload.length = (blobOf id (keyBytes, data)).header.payloadSize.toNat :=
    (WireMessage.payloadSize_header hfits).symm
  have hpayload : (blobOf id (keyBytes, data)).payload = keyBytes ++ data := rfl
  rw [archiveMultiBlob, ends_bind, ends_get, if_pos hpos, ends_bind, ends_focus, WireMessage.encode_append,
    ends_readValue_append]
  simp only [ends_bind, ends_ensure, ends_focus, ends_read_append hsize, ends_readValue_append]
  simp only [hpayload, ends_archiveBlobPayload h hkey]
  simp [blobOf, WireMessage.message_header]

theorem ends_archiveMultiBlob (hparts : RemoteFDB.keyBuffers format elements = .ok parts)
    (hfields : received elements = .ok fields) (hfits : ∀ p ∈ parts, (blobOf id p).Fits) {turns : Nat}
    (hturns : parts.length ≤ turns) : Ends (archiveMultiBlob format id turns)
      (parts.flatMap fun p => (blobOf id p).encode, archived) (fun _ s => s = ([], archived ++ fields)) fun _ _ => False := by
  induction elements generalizing parts fields archived turns with
  | nil =>
    obtain rfl : [] = parts := by simpa [RemoteFDB.keyBuffers] using hparts
    obtain rfl : [] = fields := by simpa [received] using hfields
    cases turns <;> simp [archiveMultiBlob]
  | cons e elements ih =>
    obtain ⟨key, data⟩ := e
    obtain ⟨keyBytes, hkey, parts, hparts', rfl⟩ : ∃ keyBytes, RemoteFDB.keyBuffer format key = .ok keyBytes ∧
        ∃ parts', RemoteFDB.keyBuffers format elements = .ok parts' ∧ (keyBytes, data) :: parts' = parts := by
      simpa [RemoteFDB.keyBuffers, List.mapM_cons] using hparts
    obtain ⟨key', hkey', fields, hfields', rfl⟩ : ∃ key', key.encode = .ok key' ∧
        ∃ fields', received elements = .ok fields' ∧ (key', data) :: fields' = fields := by
      simpa [received, List.mapM_cons] using hfields
    obtain ⟨hfit, hfits⟩ := List.forall_mem_cons.mp hfits
    obtain _ | turns := turns
    · simp at hturns
    have hrest : Ends (archiveMultiBlob format id turns) (parts.flatMap fun p => (blobOf id p).encode,
        archived ++ [(key', data)]) (fun _ s => s = ([], archived ++ [(key', data)] ++ fields)) fun _ _ => False :=
      ih hparts' hfields' hfits (Nat.le_of_succ_le_succ hturns)
    rw [List.flatMap_cons, ends_archiveMultiBlob_turn hkey hkey' hfit]
    simpa using hrest

theorem exists_received (h : RemoteFDB.keyBuffers format elements = .ok parts) :
    ∃ fields, received elements = .ok fields := by
  apply exists_mapM
  intro e he
  obtain ⟨p, -, hp⟩ := mem_mapM_of h he
  simp only [except_bind_ok, except_pure_ok] at hp
  obtain ⟨keyBytes, hkey, -⟩ := hp
  obtain ⟨key', hkey'⟩ := Key.exists_encode (encodeTo_of_keyBuffer hkey)
  exact ⟨(key', e.2), by simp [hkey']⟩

/-- The worker has the fields of a message that the reader has taken. -/
theorem run_archiveElem (hparts : RemoteFDB.keyBuffers format elements = .ok parts)
    (hfields : received elements = .ok fields) (hfits : (batchMessage id parts).Fits) :
    (archiveElem format id ((batchMessage id parts).payload, decide ((batchMessage id parts).message = .multiBlob))).run
      archived = .ok () (archived ++ fields) := by
  by_cases hlen : elements.length = 1
  · obtain ⟨⟨key, data⟩, rfl⟩ := List.length_eq_one_iff.mp hlen
    obtain ⟨keyBytes, hkey, rfl⟩ := keyBuffers_singleton.mp hparts
    obtain ⟨key', hkey', rfl⟩ : ∃ key', key.encode = .ok key' ∧ [(key', data)] = fields := by
      simpa [received] using hfields
    exact run_archiveBlobPayload hkey hkey'
  · have hlength : parts.length ≠ 1 := by
      rw [← (Key.mapM_ok hparts).length_eq]
      exact hlen
    rw [batchMessage_of_length hlength] at hfits ⊢
    have hfit : ∀ p ∈ parts, (blobOf id p).Fits := by
      intro p hp
      have hle := List.le_sum_of_mem (List.mem_map_of_mem (f := fun p => (blobOf id p).encode.length) hp)
      rw [← List.length_flatMap, WireMessage.length_encode] at hle
      exact Nat.lt_of_le_of_lt (Nat.le_of_add_right_le hle) hfits
    have hturns : parts.length ≤ (parts.flatMap fun p => (blobOf id p).encode).length := by
      rw [List.length_flatMap, ← List.length_map (f := fun p => (blobOf id p).encode.length)]
      apply List.length_le_sum_of_one_le
      intro i hi
      obtain ⟨p, -, rfl⟩ := List.mem_map.mp hi
      simp
    have hends : Ends (archiveMultiBlob format id _) (_, archived) (fun _ s => s = ([], archived ++ fields))
        fun _ _ => False := ends_archiveMultiBlob hparts hfields hfit hturns
    obtain ⟨u, s, hrun, rfl⟩ := hends.returns
    change archiveElem _ _ _ _ = _
    rw [archiveElem, if_pos (by simp), hrun]

end Worker

end RemoteHandler

open RemoteHandler

/-- The key that the server has is the one that was sent, with the same data. -/
def SameField (e field : Key × List UInt8) : Prop :=
  field.1.keys = e.1.keys ∧ field.1.names = e.1.names ∧ field.2 = e.2

/-- The server takes exactly what is sent for a batch, and has the keys that were sent with their data. -/
def RoundTrips (format : StreamFormat) (id : UInt32) (elements : List (Key × List UInt8)) : Prop :=
  ∃ bytes fields, RemoteFDB.sendArchiveData format id elements = .ok bytes ∧ List.Forall₂ SameField elements fields ∧
    ∀ rest, ∃ elem, (archiveRead id).run (bytes ++ rest) = .ok (some elem) rest ∧
      ∀ archived, (archiveElem format id elem).run archived = .ok () (archived ++ fields)

/-- What the server has are the keys that were sent exactly when these were canonical. -/
theorem sameField_received_iff {fields : List (Key × List UInt8)} (h : received elements = .ok fields) :
    List.Forall₂ SameField elements fields ↔ ∀ e ∈ elements, e.1.IsCanonical := by
  have hall : List.Forall₂ (fun e field => SameField e field ↔ e.1.IsCanonical) elements fields := by
    refine (Key.mapM_ok h).imp fun e field hfield => ?_
    simp only [except_bind_ok, except_pure_ok] at hfield
    obtain ⟨key, hkey, rfl⟩ := hfield
    have hnames : key.names = e.1.names := by
      obtain ⟨values, -, rfl⟩ := Key.encode_ok hkey
      rfl
    rw [SameField, Key.keys_encode_iff hkey]
    simp [hnames]
  clear h
  induction hall with
  | nil => simp
  | cons he _ ih =>
    rw [List.forall₂_cons, List.forall_mem_cons, he]
    exact and_congr_right fun _ => ih

/-- The size that goes into the header of a batch's message. -/
def messageSize : List (List UInt8 × List UInt8) → Nat
  | [part] => part.1.length + part.2.length
  | parts => RemoteFDB.containedSize parts

theorem length_batchMessage : (batchMessage id parts).payload.length = messageSize parts := by
  match parts with
  | [] => rfl
  | [_] => simp [batchMessage, blobOf, messageSize]
  | _ :: _ :: _ => exact length_contained

theorem batchMessage_kind : (batchMessage id parts).message = .blob ∨ (batchMessage id parts).message = .multiBlob := by
  match parts with
  | [] => exact .inr rfl
  | [_] => exact .inl rfl
  | _ :: _ :: _ => exact .inr rfl

theorem requestID_batchMessage (id : UInt32) (parts : List (List UInt8 × List UInt8)) :
    (batchMessage id parts).requestID = id := by
  match parts with
  | [] => rfl
  | [_] => rfl
  | _ :: _ :: _ => rfl

theorem batchMessage_ne_nil (hne : parts ≠ []) (hdata : ∀ p, parts = [p] → p.2 ≠ []) :
    (batchMessage id parts).payload ≠ [] := by
  match parts with
  | [] => exact absurd rfl hne
  | [p] => simp [batchMessage, blobOf, hdata p rfl]
  | p :: q :: parts =>
    apply List.ne_nil_of_length_pos
    simp [batchMessage]

theorem fits_batchMessage : (batchMessage id parts).Fits ↔ messageSize parts < 2 ^ 32 := by
  rw [WireMessage.Fits, length_batchMessage]

theorem run_archiveRead (hfits : (batchMessage id parts).Fits) (hpayload : (batchMessage id parts).payload ≠ []) :
    (archiveRead id).run ((batchMessage id parts).encode ++ rest) = .ok (some ((batchMessage id parts).payload,
      decide ((batchMessage id parts).message = .multiBlob))) rest := by
  have hends : Ends (archiveRead (batchMessage id parts).requestID) ((batchMessage id parts).encode ++ rest)
      (fun elem left => elem = some ((batchMessage id parts).payload,
        decide ((batchMessage id parts).message = .multiBlob)) ∧ left = rest) fun _ _ => False :=
    (ends_archiveRead_fits batchMessage_kind hfits hpayload).mpr ⟨rfl, rfl⟩
  obtain ⟨elem, left, hrun, rfl, rfl⟩ := hends.returns
  rwa [requestID_batchMessage] at hrun

/-- A batch is taken as it is sent exactly if its size fits the header and its keys are canonical; alone, an element
needs data. -/
theorem roundTrips_iff (hne : elements ≠ []) : RoundTrips format id elements ↔
    ∃ parts, RemoteFDB.keyBuffers format elements = .ok parts ∧ messageSize parts < 2 ^ 32 ∧
      (elements.length = 1 → ∀ e ∈ elements, e.2 ≠ []) ∧ ∀ e ∈ elements, e.1.IsCanonical := by
  constructor
  · rintro ⟨bytes, fields, hsend, hsame, hrest⟩
    obtain ⟨parts, hparts, hdata, rfl⟩ := sendArchiveData_ok.mp hsend
    obtain ⟨elem, hrun, hworker⟩ := hrest []
    have hread : (archiveRead (batchMessage id parts).requestID).run ((batchMessage id parts).encode ++ []) =
        .ok (some elem) [] := by
      rw [requestID_batchMessage]
      exact hrun
    obtain ⟨hfits, hpayload⟩ := fits_of_archiveRead batchMessage_kind hread
    obtain ⟨fields', hfields⟩ := exists_received hparts
    have hfirst : (archiveRead id).run ((batchMessage id parts).encode ++ []) = _ := run_archiveRead hfits hpayload
    rw [hrun] at hfirst
    obtain rfl : elem = _ := by
      injection hfirst with helem
      exact Option.some.inj helem
    have hboth := (hworker []).symm.trans (run_archiveElem hparts hfields hfits)
    obtain rfl : fields = fields' := by
      injection hboth
    exact ⟨parts, hparts, fits_batchMessage.mp hfits, hdata, (sameField_received_iff hfields).mp hsame⟩
  · rintro ⟨parts, hparts, hsize, hdata, hcanonical⟩
    obtain ⟨fields, hfields⟩ := exists_received hparts
    have hfits : (batchMessage id parts).Fits := fits_batchMessage.mpr hsize
    have hlen := (Key.mapM_ok hparts).length_eq
    have hpayload : (batchMessage id parts).payload ≠ [] := by
      apply batchMessage_ne_nil
      · intro h
        exact hne (List.eq_nil_of_length_eq_zero (by simpa [h] using hlen))
      · rintro p rfl
        obtain ⟨e, rfl⟩ := List.length_eq_one_iff.mp hlen
        obtain ⟨keyBytes, -, hp⟩ := keyBuffers_singleton.mp hparts
        obtain rfl := List.singleton_injective hp
        exact hdata rfl e (.head _)
    refine ⟨_, fields, sendArchiveData_ok.mpr ⟨parts, hparts, hdata, rfl⟩, (sameField_received_iff hfields).mpr hcanonical,
      fun rest => ?_⟩
    exact ⟨_, run_archiveRead hfits hpayload, fun archived => run_archiveElem hparts hfields hfits⟩

theorem messageSize_sublist {parts' : List (List UInt8 × List UInt8)} (h : parts'.Sublist parts) (hne : parts' ≠ []) :
    messageSize parts' ≤ messageSize parts := by
  let size (p : List UInt8 × List UInt8) := p.1.length + p.2.length + MessageHeader.layout.width + markerLayout.width
  have hsum : (parts'.map size).sum ≤ (parts.map size).sum := (h.map size).sum_le_sum fun _ _ => Nat.zero_le _
  rcases parts' with _ | ⟨q, _ | ⟨q', parts'⟩⟩
  · exact absurd rfl hne
  · rcases parts with _ | ⟨p, _ | ⟨p', parts⟩⟩
    · exact absurd (List.sublist_nil.mp h) hne
    · obtain rfl := List.singleton_sublist.mp h |> List.mem_singleton.mp
      exact Nat.le_refl _
    · have hle : size q ≤ ((p :: p' :: parts).map size).sum := by simpa using hsum
      exact Nat.le_trans (Nat.le_trans (Nat.le_add_right _ _) (Nat.le_add_right _ _)) hle
  · rcases parts with _ | ⟨p, _ | ⟨p', parts⟩⟩
    · exact absurd (List.sublist_nil.mp h) hne
    · exact absurd h.length_le (by simp)
    · exact hsum

/-- A batch is taken as it is sent however it is split into batches exactly if its size fits the header and each
element has data and a canonical key. -/
theorem splits_roundTrip_iff (hne : elements ≠ []) :
    (∀ batches : List (List (Key × List UInt8)), batches.flatten = elements → [] ∉ batches → ∀ batch ∈ batches, RoundTrips format id batch) ↔
      ∃ parts, RemoteFDB.keyBuffers format elements = .ok parts ∧ messageSize parts < 2 ^ 32 ∧
        ∀ e ∈ elements, e.2 ≠ [] ∧ e.1.IsCanonical := by
  constructor
  · intro h
    obtain ⟨parts, hparts, hsize, -, hcanonical⟩ := (roundTrips_iff hne).mp
      (h [elements] (by simp) (by simpa using hne) elements (by simp))
    refine ⟨parts, hparts, hsize, fun e he => ⟨?_, hcanonical e he⟩⟩
    have hflatten : (elements.map fun e => [e]).flatten = elements := by
      rw [← List.flatMap_def]
      exact List.flatMap_singleton' elements
    have hsingle := h (elements.map fun e => [e]) hflatten (by simp) [e] (by simpa using he)
    obtain ⟨-, -, -, hdata, -⟩ := (roundTrips_iff (by simp)).mp hsingle
    exact hdata rfl e (by simp)
  · rintro ⟨parts, hparts, hsize, hdata⟩ batches rfl hbatches batch hbatch
    have hsub := List.sublist_flatten_of_mem hbatch
    have hbatchNe : batch ≠ [] := fun h => hbatches (h ▸ hbatch)
    obtain ⟨parts', hparts', hsub'⟩ := mapM_sublist hparts hsub
    have hne' : parts' ≠ [] := by
      intro h
      have hlen := (Key.mapM_ok hparts').length_eq
      exact hbatchNe (List.eq_nil_of_length_eq_zero (by simpa [h] using hlen))
    refine (roundTrips_iff hbatchNe).mpr ⟨parts', hparts', ?_, fun _ e he => (hdata e (hsub.subset he)).1,
      fun e he => (hdata e (hsub.subset he)).2⟩
    exact Nat.lt_of_le_of_lt (messageSize_sublist hsub' hne') hsize

def fieldKey : Key := .ofList [("class", "od")] none

theorem isCanonical_fieldKey : fieldKey.IsCanonical := by
  intro keyword value _
  rw [Key.canonicalise, if_pos (.inr rfl)]

theorem splits_roundTrip_class : [(fieldKey, [7]), (fieldKey, [8, 9])] ≠ [] ∧
    ∀ batches : List (List (Key × List UInt8)), batches.flatten = [(fieldKey, [7]), (fieldKey, [8, 9])] →
      [] ∉ batches → ∀ batch ∈ batches, RoundTrips .eckit 1 batch :=
  ⟨by simp, (splits_roundTrip_iff (by simp)).mpr ⟨_, rfl, by decide +kernel, by simp [isCanonical_fieldKey]⟩⟩

/-- A field without data is taken with another in a batch, and fails alone. -/
theorem emptyData_alone : RoundTrips .eckit 1 [(fieldKey, []), (fieldKey, [7])] ∧ ¬ RoundTrips .eckit 1 [(fieldKey, [])] := by
  constructor
  · refine (roundTrips_iff (by simp)).mpr ⟨_, rfl, by decide +kernel, by simp, by simp [isCanonical_fieldKey]⟩
  · intro h
    obtain ⟨-, -, -, hdata, -⟩ := (roundTrips_iff (by simp)).mp h
    exact hdata rfl _ (.head _) rfl

end Fdb5
