import Fdb5.Key
import Fdb5.Library.Bytes

/-! The messages between `RemoteFDB` and its server, as they go over a connection. -/
namespace Fdb5

open Effect Bytes

inductive Message where
  | none
  | exit
  | startup
  | error
  | flush
  | archive
  | retrieve
  | list
  | dump
  | status
  | wipe
  | purge
  | stats
  | control
  | inspect
  | read
  | move
  | received
  | complete
  | blob
  | multiBlob
deriving DecidableEq, Repr

namespace Message

def code : Message → UInt16
  | none => 0
  | exit => 1
  | startup => 2
  | error => 3
  | flush => 100
  | archive => 101
  | retrieve => 102
  | list => 103
  | dump => 104
  | status => 105
  | wipe => 106
  | purge => 107
  | stats => 108
  | control => 109
  | inspect => 110
  | read => 111
  | move => 112
  | received => 200
  | complete => 201
  | blob => 300
  | multiBlob => 301

def all : List Message :=
  [none, exit, startup, error, flush, archive, retrieve, list, dump, status, wipe, purge, stats, control, inspect,
    read, move, received, complete, blob, multiBlob]

/-- The message that a header's number stands for, if it is one. -/
def ofCode (code : UInt16) : Option Message := all.find? fun m => m.code = code

@[simp] theorem ofCode_code (m : Message) : ofCode m.code = some m := by
  cases m <;> rfl

theorem code_inj {m m' : Message} : m.code = m'.code ↔ m = m' := by
  constructor
  · intro h
    simpa using congrArg ofCode h
  · rintro rfl
    rfl

end Message

structure MessageHeader where
  marker : Vector UInt8 4
  version : UInt16
  message : UInt16
  requestID : UInt32
  payloadSize : UInt32
  hash : Vector UInt8 16
deriving DecidableEq

/-- `SFDB`. -/
def startMarker : Vector UInt8 4 := #v[0x53, 0x46, 0x44, 0x42]

/-- `EFDB`. -/
def endMarker : Vector UInt8 4 := #v[0x45, 0x46, 0x44, 0x42]

def currentVersion : UInt16 := 9

namespace MessageHeader

/-- `MessageHeader(message, requestID, payloadSize)`; the conversion of the size to 32 bits takes
its low ones. -/
def build (message : Message) (requestID : UInt32) (payloadSize : Nat := 0) : MessageHeader where
  marker := startMarker
  version := currentVersion
  message := message.code
  requestID
  payloadSize := UInt32.ofNat payloadSize
  hash := Vector.replicate 16 0

def layout : Layout MessageHeader :=
  ((Layout.array 4).pair (Layout.uint16.pair (Layout.uint16.pair (Layout.uint32.pair
    (Layout.uint32.pair (Layout.array 16)))))).map
    (fun x => ⟨x.1, x.2.1, x.2.2.1, x.2.2.2.1, x.2.2.2.2.1, x.2.2.2.2.2⟩)
    (fun h => (h.marker, h.version, h.message, h.requestID, h.payloadSize, h.hash)) fun _ => rfl

/-- `sizeof(MessageHeader)`. -/
theorem width_layout : layout.width = 32 := rfl

end MessageHeader

/-- `FixedString<4>` in a stream. -/
def markerLayout : Layout (Vector UInt8 4) := Layout.array 4

/-- What a `std::string` holds, a character for each byte. -/
def textOf (bytes : List UInt8) : String := String.ofList (bytes.map fun b => Char.ofNat b.toNat)

/-- A message with the payload that its header gives the size of. -/
structure StoredMessage where
  header : MessageHeader
  payload : List UInt8
deriving DecidableEq

/-- A message as one side means it. -/
structure WireMessage where
  message : Message
  requestID : UInt32
  payload : List UInt8 := []

namespace WireMessage

/-- The size of the payload fits the header. -/
def Fits (m : WireMessage) : Prop := m.payload.length < 2 ^ 32

def header (m : WireMessage) : MessageHeader := .build m.message m.requestID m.payload.length

def stored (m : WireMessage) : StoredMessage := ⟨m.header, m.payload⟩

/-- What `controlWrite` and `dataWrite` write for a message. -/
def encode (m : WireMessage) : List UInt8 :=
  MessageHeader.layout.encode m.header ++ m.payload ++ markerLayout.encode endMarker

variable {m : WireMessage} {rest : List UInt8}

@[simp] theorem length_encode : m.encode.length = m.payload.length + 36 := by
  simp [encode, MessageHeader.width_layout, markerLayout, Layout.array]
  omega

@[simp] theorem length_endMarker : (markerLayout.encode endMarker).length = 4 := rfl

@[simp] theorem marker_header : m.header.marker = startMarker := rfl

@[simp] theorem version_header : m.header.version = currentVersion := rfl

@[simp] theorem requestID_header : m.header.requestID = m.requestID := rfl

theorem message_header : m.header.message = m.message.code := rfl

@[simp] theorem ofCode_header : Message.ofCode m.header.message = some m.message := Message.ofCode_code _

theorem payloadSize_header (h : m.Fits) : m.header.payloadSize.toNat = m.payload.length := by
  have hlt : m.payload.length < 4294967296 := h
  simp [header, MessageHeader.build, Nat.mod_eq_of_lt hlt]

theorem encode_append : m.encode ++ rest =
    MessageHeader.layout.encode m.header ++ (m.payload ++ (markerLayout.encode endMarker ++ rest)) := by
  simp [encode]

end WireMessage

/-- The two parts of `dataRead` and `controlRead` that fail. -/
def shortRead : Failure := .exception "TCPException: Read error"

/-- Reading the end marker of a message. -/
def readTail : EStateM Failure (List UInt8) Unit := do
  let tail ← readValue markerLayout shortRead
  ensure (tail = endMarker) "tail == EndMarker"

theorem ends_readTail {rest : List UInt8} {Q : Unit → List UInt8 → Prop} {E : Failure → List UInt8 → Prop} :
    Ends readTail (markerLayout.encode endMarker ++ rest) Q E ↔ Q () rest := by
  rw [readTail, ends_bind, ends_readValue_append]
  simp

end Fdb5
