import Mathlib.Data.List.Forall2
import Fdb5.Key
import Fdb5.Library.Bytes

/-! The records of a toc file, byte for byte. -/
namespace Fdb5

open Effect Bytes

/-- `TocRecord::Header`; `padding` is what aligns the time stamp. -/
structure RecordHeader where
  tag : UInt8
  spare : Vector UInt8 3
  serialisationVersion : UInt32
  fdbVersion : UInt32
  padding : Vector UInt8 4
  seconds : UInt64
  microseconds : UInt64
  pid : UInt32
  uid : UInt32
  hostname : Vector UInt8 64
  size : UInt64
deriving DecidableEq

def RecordHeader.layout : Layout RecordHeader :=
  (Layout.uint8.pair ((Layout.array 3).pair (Layout.uint32.pair (Layout.uint32.pair ((Layout.array 4).pair
    (Layout.uint64.pair (Layout.uint64.pair (Layout.uint32.pair (Layout.uint32.pair
      ((Layout.array 64).pair Layout.uint64)))))))))).map
    (fun x => ⟨x.1, x.2.1, x.2.2.1, x.2.2.2.1, x.2.2.2.2.1, x.2.2.2.2.2.1, x.2.2.2.2.2.2.1, x.2.2.2.2.2.2.2.1,
      x.2.2.2.2.2.2.2.2.1, x.2.2.2.2.2.2.2.2.2.1, x.2.2.2.2.2.2.2.2.2.2⟩)
    (fun h => (h.tag, h.spare, h.serialisationVersion, h.fdbVersion, h.padding, h.seconds, h.microseconds, h.pid,
      h.uid, h.hostname, h.size)) fun _ => rfl

/-- `sizeof(TocRecord::Header)`. -/
def headerSize : Nat := 112

@[simp] theorem width_header : RecordHeader.layout.width = headerSize := rfl

@[simp] theorem length_header {header : RecordHeader} : (RecordHeader.layout.encode header).length = headerSize :=
  RecordHeader.layout.length_encode header

def maxPayloadSize : Nat := 1024 * 1024

def sizeofTocRecord : Nat := headerSize + maxPayloadSize

/-- `TocSerialisationVersion::supported()`. -/
def supportedVersions : List UInt32 := [3, 2, 1]

theorem supported_two : 2 ∈ supportedVersions := by decide

/-- The value of the resource `fdbRoundTocRecords`, with which no record's size passes a `size_t`. -/
structure RoundSize where
  bytes : Nat := 1024
  pos : 0 < bytes := by decide
  fits : sizeofTocRecord + bytes ≤ 2 ^ 64 := by decide

/-- A record on the heap with the payload that its builder wrote; `rest` is what follows it in `payload_`. -/
structure BuiltRecord where
  header : RecordHeader
  payload : List UInt8
  rest : List UInt8
  length_payload : payload.length + rest.length = maxPayloadSize
  supported : header.serialisationVersion ∈ supportedVersions

/-- `eckit::round`. -/
def round (x n : Nat) : Nat := (x + n - 1) / n * n

namespace TocFile

variable (b : RoundSize)

/-- What `roundRecord` returns. -/
def roundedSize (payloadSize : Nat) : Nat := round (headerSize + payloadSize) b.bytes

/-- The header when `roundRecord` has set its size. -/
def roundRecord (r : BuiltRecord) : RecordHeader :=
  { r.header with size := UInt64.ofNat (roundedSize b r.payload.length) }

/-- What `append` writes: what is in memory from the record on. -/
def written (r : BuiltRecord) : Except Failure (List UInt8) :=
  let memory := RecordHeader.layout.encode (roundRecord b r) ++ (r.payload ++ r.rest)
  if roundedSize b r.payload.length ≤ memory.length then .ok (memory.take (roundedSize b r.payload.length))
  else .error (.undefinedBehaviour "write beyond the TocRecord")

def append (r : BuiltRecord) : EStateM Failure (List UInt8) Unit := do
  let bytes ← lift (written b r)
  modify fun file => file ++ bytes

/-- Writing to a buffer at an offset. -/
def place (buf : List UInt8) (offset : Nat) (bytes : List UInt8) : Except Failure (List UInt8) :=
  if offset + bytes.length ≤ buf.length then
    .ok (buf.take offset ++ bytes ++ buf.drop (offset + bytes.length))
  else .error (.undefinedBehaviour "record beyond the buffer")

/-- A turn of `compactSubTocIndexes`: a record is built in the buffer at `combinedSize`. -/
def placeRecord (block : List UInt8 × Nat) (r : BuiltRecord) : Except Failure (List UInt8 × Nat) := do
  let buf ← place block.1 block.2 (RecordHeader.layout.encode (roundRecord b r) ++ r.payload)
  return (buf, block.2 + roundedSize b r.payload.length)

def appendBlock (data : List UInt8) (size : Nat) : EStateM Failure (List UInt8) Unit := do
  ensure (size % b.bytes = 0) "size % recordRoundSize() == 0"
  if size ≤ data.length then modify fun file => file ++ data.take size
  else throw (.undefinedBehaviour "write beyond the buffer")

/-- The records are built in a buffer, which is written as one block. -/
def appendRecords (buf : List UInt8) (records : List BuiltRecord) : EStateM Failure (List UInt8) Unit := do
  let block ← lift (records.foldlM (placeRecord b) (buf, 0))
  appendBlock b block.1 block.2

/-- A toc file that is read, and the sizes of payloads that `readNextInternal` has asked for. -/
structure Reading where
  left : List UInt8
  requested : List Nat := []

def proxyRead (len : Nat) : EStateM Failure Reading (List UInt8) := fun s =>
  .ok (s.left.take len) { s with left := s.left.drop len }

/-- The header and what is read into `payload_`; nothing at the end of the file. -/
def readNextInternal : EStateM Failure Reading (Option (RecordHeader × List UInt8)) := do
  let bytes ← proxyRead headerSize
  if bytes.length = 0 then
    return none
  else
    ensure (bytes.length = headerSize) "len == sizeof(TocRecord::Header)"
    let header := RecordHeader.layout.decode bytes
    -- the difference of two `size_t`
    let request := (header.size - UInt64.ofNat headerSize).toNat
    modify fun s => { s with requested := s.requested ++ [request] }
    let payload ← proxyRead request
    if maxPayloadSize < payload.length then
      throw (.undefinedBehaviour "read beyond payload_")
    else
      ensure (payload.length = request) "size_t(len) == r.header_.size_ - sizeof(TocRecord::Header)"
      if header.serialisationVersion ∈ supportedVersions then
        return some (header, payload)
      else throw (.seriousBug "Record version mismatch")

/-- `while (readNextInternal(r))`, for so many turns at most. -/
def readRecords : Nat → EStateM Failure Reading (List (RecordHeader × List UInt8))
  | 0 => return []
  | turns + 1 => do
    match ← readNextInternal with
    | none => return []
    | some r =>
      let rs ← readRecords turns
      return r :: rs

/-- The bytes of a record in a file, with those that round it off. -/
def Chunk (r : BuiltRecord) (bytes : List UInt8) : Prop :=
  bytes.length = roundedSize b r.payload.length ∧
    RecordHeader.layout.encode (roundRecord b r) ++ r.payload <+: bytes

/-- What is read is a record that was written: its header, and its payload before what rounds it off. -/
def ReadAs (r : BuiltRecord) (read : RecordHeader × List UInt8) : Prop :=
  read.1 = roundRecord b r ∧ r.payload <+: read.2

/-- The record is no larger than a `TocRecord`. -/
def Fits (r : BuiltRecord) : Prop := roundedSize b r.payload.length ≤ sizeofTocRecord

section Round

variable {b} {r : BuiltRecord} {x n : Nat}

theorem round_le_iff {s : Nat} (hn : 0 < n) : round x n ≤ s ↔ x ≤ s / n * n := by
  have hlt : (x + n - 1) / n < s / n + 1 ↔ x + n - 1 < (s / n + 1) * n := Nat.div_lt_iff_lt_mul hn
  rw [round, ← Nat.le_div_iff_mul_le hn, ← Nat.lt_succ_iff, Nat.succ_eq_add_one, hlt, Nat.succ_mul]
  omega

theorem le_round (hn : 0 < n) : x ≤ round x n := by
  have h := (round_le_iff (x := x) (s := round x n) hn).mp (Nat.le_refl _)
  rwa [round, Nat.mul_div_cancel _ hn] at h

theorem fits_iff : Fits b r ↔ headerSize + r.payload.length ≤ sizeofTocRecord / b.bytes * b.bytes :=
  round_le_iff b.pos

theorem le_roundedSize : headerSize + r.payload.length ≤ roundedSize b r.payload.length := le_round b.pos

theorem size_roundRecord : (roundRecord b r).size.toNat = roundedSize b r.payload.length := by
  have hround := Nat.div_mul_le_self (headerSize + r.payload.length + b.bytes - 1) b.bytes
  have hpayload := r.length_payload
  have hsize := b.fits
  have hlt : roundedSize b r.payload.length < 2 ^ 64 := by
    unfold sizeofTocRecord at hsize
    unfold roundedSize round
    have hpos := b.pos
    omega
  exact UInt64.toNat_ofNat_of_lt' hlt

/-- How much of the payload the reader asks for. -/
theorem request_roundRecord : ((roundRecord b r).size - UInt64.ofNat headerSize).toNat =
    roundedSize b r.payload.length - headerSize := by
  have hle : UInt64.ofNat headerSize ≤ (roundRecord b r).size := by
    rw [UInt64.le_iff_toNat_le, size_roundRecord]
    exact Nat.le_trans (Nat.le_add_right headerSize _) le_roundedSize
  rw [UInt64.toNat_sub_of_le _ _ hle, size_roundRecord]
  rfl

end Round

section Read

variable {b} {r : BuiltRecord} {bytes rest : List UInt8} {requested : List Nat}
  {Q : Option (RecordHeader × List UInt8) → Reading → Prop} {E : Failure → Reading → Prop}

theorem ends_proxyRead {len : Nat} {s : Reading} {Q : List UInt8 → Reading → Prop} :
    Ends (proxyRead len) s Q E ↔ Q (s.left.take len) { s with left := s.left.drop len } := Iff.rfl

/-- A whole record that is in memory no longer than a `TocRecord` is read back. -/
theorem ends_readNextInternal_record {header : RecordHeader} {payload : List UInt8}
    (hrequest : payload.length = (header.size - UInt64.ofNat headerSize).toNat)
    (hmax : payload.length ≤ maxPayloadSize) (hsupported : header.serialisationVersion ∈ supportedVersions) :
    Ends readNextInternal ⟨RecordHeader.layout.encode header ++ (payload ++ rest), requested⟩ Q E ↔
      Q (some (header, payload)) ⟨rest, requested ++ [payload.length]⟩ := by
  have hheader : (RecordHeader.layout.encode header ++ (payload ++ rest)).take headerSize =
      RecordHeader.layout.encode header := List.take_left' length_header
  have hleft : (RecordHeader.layout.encode header ++ (payload ++ rest)).drop headerSize = payload ++ rest :=
    List.drop_left' length_header
  have hsome : ¬ headerSize = 0 := by decide
  simp only [readNextInternal, ends_bind, ends_proxyRead, hheader, hleft, length_header, if_neg hsome, ends_ensure,
    not_true, false_implies, true_implies, and_true, ends_modify, Layout.decode_encode_self, ← hrequest,
    List.take_left, List.drop_left, if_neg (Nat.not_lt.mpr hmax), if_pos hsupported, ends_pure]

theorem ends_readNextInternal_nil : Ends readNextInternal ⟨[], requested⟩ Q E ↔ Q none ⟨[], requested⟩ := by
  simp [readNextInternal, ends_proxyRead]

theorem ends_readNextInternal_chunk (hchunk : Chunk b r bytes) (hfits : Fits b r)
    (hQ : ∀ read requested, ReadAs b r read → Q (some read) ⟨rest, requested⟩) :
    Ends readNextInternal ⟨bytes ++ rest, requested⟩ Q E := by
  obtain ⟨hlen, padding, rfl⟩ := hchunk
  have hrequest : (r.payload ++ padding).length = ((roundRecord b r).size - UInt64.ofNat headerSize).toNat := by
    rw [request_roundRecord, ← hlen]
    simp only [List.length_append, length_header]
    omega
  have hmax : (r.payload ++ padding).length ≤ maxPayloadSize := by
    unfold Fits sizeofTocRecord at hfits
    rw [hrequest, request_roundRecord]
    omega
  have hstream : RecordHeader.layout.encode (roundRecord b r) ++ r.payload ++ padding ++ rest =
      RecordHeader.layout.encode (roundRecord b r) ++ ((r.payload ++ padding) ++ rest) := by simp
  rw [hstream]
  apply (ends_readNextInternal_record hrequest hmax r.supported).mpr
  apply hQ
  exact ⟨rfl, List.prefix_append _ _⟩

theorem ends_readRecords {records : List BuiltRecord} {chunks : List (List UInt8)}
    (hchunks : List.Forall₂ (Chunk b) records chunks) (hfits : ∀ r ∈ records, Fits b r) :
    ∀ turns requested, records.length < turns → Ends (readRecords turns) ⟨chunks.flatten, requested⟩
      (fun read _ => List.Forall₂ (ReadAs b) records read) fun _ _ => False := by
  induction hchunks with
  | nil =>
    rintro (_ | turns) requested h
    · exact absurd h (Nat.lt_irrefl 0)
    · rw [readRecords, ends_bind, List.flatten_nil, ends_readNextInternal_nil]
      exact .nil
  | @cons r chunk records chunks hchunk _ ih =>
    rintro (_ | turns) requested h
    · exact absurd h (Nat.not_lt_zero _)
    · rw [readRecords, ends_bind, List.flatten_cons]
      apply ends_readNextInternal_chunk hchunk (hfits r (.head _))
      intro read requested hread
      have htail := ih (fun r hr => hfits r (.tail _ hr)) turns requested (Nat.lt_of_succ_lt_succ h)
      simp only [ends_bind, ends_pure]
      exact htail.mono (fun _ _ hreads => .cons hread hreads) fun _ _ h => h

end Read

section Append

variable {b} {r : BuiltRecord} {records : List BuiltRecord}

theorem length_memory : (RecordHeader.layout.encode (roundRecord b r) ++ (r.payload ++ r.rest)).length =
    sizeofTocRecord := by
  rw [List.length_append, length_header, List.length_append, r.length_payload]
  rfl

theorem written_ok (hfits : Fits b r) : ∃ chunk, written b r = .ok chunk ∧ Chunk b r chunk := by
  have hsize : roundedSize b r.payload.length ≤ sizeofTocRecord := hfits
  refine ⟨_, by rw [written, length_memory, if_pos hsize], ?_, ?_⟩
  · rw [List.length_take, length_memory, Nat.min_eq_left hsize]
  · rw [← List.append_assoc, List.prefix_take_iff]
    exact ⟨List.prefix_append _ _, by simpa using le_roundedSize⟩

theorem fits_of_written {chunk : List UInt8} (h : written b r = .ok chunk) : Fits b r := by
  simp only [written, length_memory] at h
  split at h
  next hsize => exact hsize
  next => cases h

theorem chunk_of_written {chunk : List UInt8} (h : written b r = .ok chunk) : Chunk b r chunk := by
  obtain ⟨chunk', hchunk', hchunk⟩ := written_ok (fits_of_written h)
  obtain rfl := Except.ok.inj (hchunk'.symm.trans h)
  exact hchunk

theorem ends_append {file : List UInt8} {E : Failure → List UInt8 → Prop} (hfits : Fits b r) :
    Ends (append b r) file (fun _ file' => ∃ chunk, Chunk b r chunk ∧ file' = file ++ chunk) E := by
  obtain ⟨chunk, hwritten, hchunk⟩ := written_ok hfits
  simp only [append, hwritten, ends_bind, ends_lift, ends_modify, Except.ok.injEq, forall_eq', reduceCtorEq,
    false_implies, implies_true, and_true]
  exact ⟨chunk, hchunk, rfl⟩

/-- Records appended one by one are the chunks of the file. -/
theorem ends_appended (hfits : ∀ r ∈ records, Fits b r) : Ends (records.forM (append b)) []
    (fun _ file => ∃ chunks, List.Forall₂ (Chunk b) records chunks ∧ file = chunks.flatten) fun _ _ => False := by
  refine ends_forM_prefix (P := fun pre file => ∃ chunks, List.Forall₂ (Chunk b) pre chunks ∧ file = chunks.flatten)
    ?_ [] [] ⟨[], .nil, rfl⟩
  rintro pre r hr file ⟨chunks, hchunks, rfl⟩
  apply (ends_append (hfits r hr)).mono ?_ fun _ _ h => h
  rintro - file' ⟨chunk, hchunk, rfl⟩
  exact ⟨chunks ++ [chunk], List.rel_append hchunks (.cons hchunk .nil), by simp⟩

variable (b) in
/-- A block with the chunks of the records that were placed in it. -/
structure Placed (size : Nat) (records : List BuiltRecord) (block : List UInt8 × Nat) : Prop where
  length : block.1.length = size
  bounded : block.2 ≤ records.length * sizeofTocRecord
  rounded : b.bytes ∣ block.2
  chunks : ∃ chunks, List.Forall₂ (Chunk b) records chunks ∧ block.1.take block.2 = chunks.flatten

variable {size : Nat} {block : List UInt8 × Nat} {pre : List BuiltRecord}

theorem length_place {buf buf' bytes : List UInt8} {offset : Nat} (h : place buf offset bytes = .ok buf') :
    buf'.length = buf.length := by
  unfold place at h
  split at h
  next hle =>
    obtain rfl := Except.ok.inj h
    simp only [List.length_append, List.length_take, List.length_drop]
    omega
  next => cases h

/-- What a placed record adds to the block before it. -/
theorem take_place {buf buf' bytes : List UInt8} {offset len : Nat} (h : place buf offset bytes = .ok buf')
    (hlen : bytes.length ≤ len) (hroom : offset + len ≤ buf.length) :
    ∃ rest, buf'.take (offset + len) = buf.take offset ++ (bytes ++ rest) ∧ (bytes ++ rest).length = len := by
  unfold place at h
  rw [if_pos (by omega)] at h
  obtain rfl := Except.ok.inj h
  have hoffset : (buf.take offset).length = offset := by simp; omega
  refine ⟨(buf.drop (offset + bytes.length)).take (len - bytes.length), ?_, ?_⟩
  · rw [List.append_assoc, List.take_append, hoffset, Nat.add_sub_cancel_left, List.take_append,
      List.take_of_length_le (by omega), List.take_of_length_le hlen]
  · simp
    omega

theorem placeRecord_ok (h : Placed b size pre block) (hfits : Fits b r)
    (hroom : (pre.length + 1) * sizeofTocRecord ≤ size) :
    ∃ block', placeRecord b block r = .ok block' ∧ Placed b size (pre ++ [r]) block' := by
  obtain ⟨hlen, hbounded, hrounded, chunks, hchunks, htake⟩ := h
  have hsize : roundedSize b r.payload.length ≤ sizeofTocRecord := hfits
  have hbytes : (RecordHeader.layout.encode (roundRecord b r) ++ r.payload).length ≤
      roundedSize b r.payload.length := by simpa using le_roundedSize
  rw [Nat.succ_mul] at hroom
  obtain ⟨buf, hplace⟩ : ∃ buf, place block.1 block.2 (RecordHeader.layout.encode (roundRecord b r) ++ r.payload) =
      .ok buf := by
    unfold place
    rw [if_pos (by omega)]
    exact ⟨_, rfl⟩
  obtain ⟨rest, hbuf, hchunk⟩ := take_place hplace hbytes (by omega)
  refine ⟨(buf, block.2 + roundedSize b r.payload.length), by simp [placeRecord, hplace], ?_⟩
  apply Placed.mk
  · exact (length_place hplace).trans hlen
  · simp only [List.length_append, List.length_singleton, Nat.succ_mul]
    omega
  · exact Nat.dvd_add hrounded (Nat.dvd_mul_left _ _)
  · refine ⟨chunks ++ [_], List.rel_append hchunks (.cons ⟨hchunk, List.prefix_append _ _⟩ .nil), ?_⟩
    rw [hbuf, htake]
    simp

theorem placeRecords_ok (hfits : ∀ r ∈ records, Fits b r) :
    ∀ pre block, Placed b size pre block → (pre.length + records.length) * sizeofTocRecord ≤ size →
      ∃ block', records.foldlM (placeRecord b) block = .ok block' ∧ Placed b size (pre ++ records) block' := by
  induction records with
  | nil =>
    intro pre block h _
    exact ⟨block, rfl, by simpa using h⟩
  | cons r records ih =>
    intro pre block h hroom
    rw [List.length_cons, Nat.add_succ, ← Nat.succ_add] at hroom
    have hone : (pre.length + 1) * sizeofTocRecord ≤ size :=
      Nat.le_trans (Nat.mul_le_mul_right _ (Nat.le_add_right _ _)) hroom
    obtain ⟨block', hplace, hplaced⟩ := placeRecord_ok h (hfits r (.head _)) hone
    obtain ⟨block'', hrest, hdone⟩ := ih (fun r hr => hfits r (.tail _ hr)) (pre ++ [r]) block' hplaced
      (by simpa using hroom)
    refine ⟨block'', by simp [List.foldlM_cons, hplace, hrest], ?_⟩
    rwa [List.append_cons]

/-- Records that are built in a buffer large enough for them are the chunks of the file. -/
theorem ends_appendRecords {buf : List UInt8} (hfits : ∀ r ∈ records, Fits b r)
    (hbuf : records.length * sizeofTocRecord ≤ buf.length) : Ends (appendRecords b buf records) []
      (fun _ file => ∃ chunks, List.Forall₂ (Chunk b) records chunks ∧ file = chunks.flatten) fun _ _ => False := by
  have hstart : Placed b buf.length [] (buf, 0) := ⟨rfl, Nat.zero_le _, Nat.dvd_zero _, [], .nil, rfl⟩
  obtain ⟨block, hplaced, hlen, hbounded, hrounded, chunks, hchunks, htake⟩ := placeRecords_ok hfits [] (buf, 0) hstart
    (by simpa using hbuf)
  have hle : block.2 ≤ block.1.length := by
    rw [List.nil_append] at hbounded
    omega
  have hrem : block.2 % b.bytes = 0 := Nat.mod_eq_zero_of_dvd hrounded
  simp only [appendRecords, appendBlock, hplaced, ends_bind, ends_lift, ends_ensure, Except.ok.injEq, forall_eq',
    hrem, not_true, false_implies, true_implies, and_true, reduceCtorEq, implies_true, if_pos hle, ends_modify]
  exact ⟨chunks, hchunks, by simp [htake]⟩

end Append

/-- What is written, `readNextInternal` reads back, the same records in the same order, and then nothing. -/
def ReadBack (records : List BuiltRecord) (write : EStateM Failure (List UInt8) Unit) : Prop :=
  Ends write [] (fun _ file => ∀ turns, records.length < turns → Ends (readRecords turns) ⟨file, []⟩
    (fun read _ => List.Forall₂ (ReadAs b) records read) fun _ _ => False) fun _ _ => False

/-- The sizes of payloads that `readNextInternal` asks for. -/
def requests (bytes : List UInt8) : List Nat := (final (readNextInternal.run ⟨bytes, []⟩)).requested

/-- The codec is exact on records, and asks for no more than a payload of the content of a file. -/
structure Exact (records : List BuiltRecord) (bytes : List UInt8) : Prop where
  append : ReadBack b records (records.forM (append b))
  appendBlock : ∀ (fullIndexes : Nat) buf, records.length ≤ fullIndexes + 1 →
    buf.length = sizeofTocRecord * (fullIndexes + 1) → ReadBack b records (appendRecords b buf records)
  rounded : ∀ r ∈ records, roundedSize b r.payload.length ≤ sizeofTocRecord
  requested : ∀ request ∈ requests bytes, request ≤ maxPayloadSize

/-- The size in the header, if there is a whole one, is that of a record no larger than a `TocRecord`. -/
def SizeFits (bytes : List UInt8) : Prop :=
  headerSize ≤ bytes.length → headerSize ≤ (RecordHeader.layout.decode (bytes.take headerSize)).size.toNat ∧
    (RecordHeader.layout.decode (bytes.take headerSize)).size.toNat ≤ sizeofTocRecord

variable {b} {records : List BuiltRecord} {bytes : List UInt8}

theorem requests_of_ends {l : List Nat}
    (h : Ends readNextInternal ⟨bytes, []⟩ (fun _ s => s.requested = l) fun _ s => s.requested = l) :
    requests bytes = l := Ends.final (P := fun s : Reading => s.requested = l) h

theorem requests_of_header (h : headerSize ≤ bytes.length) : requests bytes =
    [((RecordHeader.layout.decode (bytes.take headerSize)).size - UInt64.ofNat headerSize).toNat] := by
  have hlen : (bytes.take headerSize).length = headerSize := List.length_take_of_le h
  have hsome : ¬ headerSize = 0 := by decide
  apply requests_of_ends
  simp only [readNextInternal, ends_bind, ends_proxyRead, hlen, hsome, ends_ensure, not_true, not_false_eq_true,
    false_implies, ends_modify, ends_ite, ends_throw, ends_pure, List.nil_append, implies_true, and_self]

theorem requests_of_torn (h : bytes.length < headerSize) : requests bytes = [] := by
  have hlen : ¬ (bytes.take headerSize).length = headerSize := by
    rw [List.length_take]
    omega
  apply requests_of_ends
  simp only [readNextInternal, ends_bind, ends_proxyRead, ends_ite, ends_ensure, hlen, false_implies, ends_pure,
    implies_true, and_self]

/-- A size is that of a record exactly if a `size_t` without the header is no more than a payload. -/
theorem requests_iff : (∀ request ∈ requests bytes, request ≤ maxPayloadSize) ↔ SizeFits bytes := by
  rcases Nat.lt_or_ge bytes.length headerSize with hlt | hle
  · rw [requests_of_torn hlt]
    simp [SizeFits, Nat.not_le.mpr hlt]
  · have hsub : ∀ size : UInt64, (size - UInt64.ofNat headerSize).toNat ≤ maxPayloadSize ↔
        headerSize ≤ size.toNat ∧ size.toNat ≤ sizeofTocRecord := by
      intro size
      have hlt := size.toNat_lt
      have hheader : (UInt64.ofNat headerSize).toNat = 112 := rfl
      rw [UInt64.toNat_sub, hheader]
      unfold sizeofTocRecord headerSize maxPayloadSize
      omega
    simp only [requests_of_header hle, SizeFits, hle, true_implies, List.mem_singleton, forall_eq, hsub]

/-- Exactly where no record and its header are longer than a `TocRecord` when the size is rounded down, and the
size that is read is that of a record, is the codec exact. -/
theorem codec_exact_iff : Exact b records bytes ↔
    (∀ r ∈ records, headerSize + r.payload.length ≤ sizeofTocRecord / b.bytes * b.bytes) ∧ SizeFits bytes := by
  constructor
  · intro h
    exact ⟨fun r hr => fits_iff.mp (h.rounded r hr), requests_iff.mp h.requested⟩
  · rintro ⟨hrecords, hsize⟩
    have hfits : ∀ r ∈ records, Fits b r := fun r hr => fits_iff.mpr (hrecords r hr)
    have hread : ∀ file : List UInt8, (∃ chunks, List.Forall₂ (Chunk b) records chunks ∧ file = chunks.flatten) →
        ∀ turns, records.length < turns → Ends (readRecords turns) ⟨file, []⟩
          (fun read _ => List.Forall₂ (ReadAs b) records read) fun _ _ => False := by
      rintro file ⟨chunks, hchunks, rfl⟩ turns hturns
      exact ends_readRecords hchunks hfits turns [] hturns
    apply Exact.mk
    · exact (ends_appended hfits).mono (fun _ => hread) fun _ _ h => h
    · intro fullIndexes buf hle hbuf
      have hroom : records.length * sizeofTocRecord ≤ buf.length := by
        rw [hbuf, Nat.mul_comm]
        exact Nat.mul_le_mul_left _ hle
      exact (ends_appendRecords hfits hroom).mono (fun _ => hread) fun _ _ h => h
    · exact hfits
    · exact requests_iff.mpr hsize

section Divergence

theorem length_zeros (n : Nat) : (List.replicate n (0 : UInt8)).length + ([] : List UInt8).length = n := by simp

/-- A record whose builder wrote a whole payload. -/
def fullRecord : BuiltRecord where
  header := ⟨'i'.toUInt8, Vector.replicate 3 0, 2, 0, Vector.replicate 4 0, 0, 0, 0, 0, Vector.replicate 64 0, 0⟩
  payload := List.replicate maxPayloadSize 0
  rest := []
  length_payload := length_zeros maxPayloadSize
  supported := supported_two

/-- A full payload is rounded to more than a `TocRecord`, and a size of zero asks for nearly 2^64 bytes. -/
theorem rounded_beyond : ¬ Exact {} [fullRecord] [] ∧ ¬ Exact {} [] (List.replicate headerSize 0) := by
  constructor
  · intro h
    have hle := h.rounded fullRecord (.head _)
    rw [show fullRecord.payload.length = maxPayloadSize from List.length_replicate] at hle
    exact absurd hle (by decide)
  · intro h
    have hle : SizeFits (List.replicate headerSize 0) := requests_iff.mp h.requested
    exact absurd (hle (by simp)).1 (by decide +kernel)

end Divergence

end TocFile

end Fdb5
