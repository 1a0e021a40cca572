import Mathlib.Data.Fintype.Basic
import Fdb5.Remote.KeyStream
import Fdb5.Toc.Records

/-! Processes that create a database at the same time. -/
namespace Fdb5.TocFile

open Effect Bytes

/-- `TocRecord::TOC_INIT`. -/
def tocInit : UInt8 := 't'.toUInt8

/-- The tags of what is appended to a toc that is there. -/
def entryTags : List UInt8 := ['i'.toUInt8, 'c'.toUInt8, 's'.toUInt8]

/-- What `eckit::MemoryStream` writes into payloads. -/
structure RecordFormat extends StreamFormat where
  putBool : Bool → List UInt8

/-- Processes with keys of one database, and what each has in memory before it builds its TOC_INIT. -/
structure Creators (n : Nat) where
  key : Fin n → Key
  isSubToc : Bool
  header : Fin n → RecordHeader
  heap : Fin n → Vector UInt8 maxPayloadSize
  same : ∀ p q, (key p).keys = (key q).keys
  tag : ∀ p, (header p).tag = tocInit
  supported : ∀ p, (header p).serialisationVersion ∈ supportedVersions

/-- A record of an index, a sub-toc or a mask. -/
structure Entry extends BuiltRecord where
  tag : header.tag ∈ entryTags

/-- Where a process is in `writeInitRecord`, with the file open, and after it. -/
inductive Stage where
  | start
  | opened
  | empty
  | ready
  | appending (entry : Entry)
  | stopped

/-- The process has left `writeInitRecord`. -/
def Stage.initialised : Stage → Prop
  | .ready | .appending _ => True
  | .start | .opened | .empty | .stopped => False

/-- The toc file, and the bytes of the records that have been appended to it. -/
structure Creation (n : Nat) where
  file : List UInt8
  stage : Fin n → Stage
  appended : List (List UInt8)

variable {n : Nat} (b : RoundSize) (format : RecordFormat) (c : Creators n) (p : Fin n)

namespace Creators

/-- The payload goes through a `MemoryStream` that ends with it. -/
def initRecord : Except Failure BuiltRecord := do
  let key ← (c.key p).encodeTo format.toStreamFormat
  let payload := key ++ format.putBool c.isSubToc
  if h : payload.length ≤ maxPayloadSize then
    return {
      header := c.header p
      payload
      rest := (c.heap p).toList.drop payload.length
      length_payload := by simp [h]
      supported := c.supported p }
  else throw (.exception "MemoryStream")

/-- What `readNext` and the checks of the first record leave a process with. -/
def readInit (file : List UInt8) : Stage :=
  match value (readNextInternal.run ⟨file, []⟩) with
  | .error _ => .stopped
  | .ok none => .empty
  | .ok (some r) =>
    match value ((Key.decodeFrom format.toStreamFormat).run r.2) with
    | .error _ => .stopped
    | .ok key => if r.1.tag = tocInit ∧ (c.key p).keys = key.keys then .ready else .stopped

/-- The write of `writeInitRecord`, at the offset that reading nothing has left the file at. -/
def writeInit (file : List UInt8) : Except Failure (List UInt8) := do
  let bytes ← written b (← c.initRecord format p)
  return bytes ++ file.drop bytes.length

end Creators

namespace Creation

variable {c}

def setStage (s : Creation n) (p : Fin n) (stage : Stage) : Creation n :=
  { s with stage := Function.update s.stage p stage }

def start : Creation n := ⟨[], fun _ => .start, []⟩

variable (c) in
inductive Step : Creation n → Creation n → Prop
  | open {s} {p : Fin n} : s.stage p = .start → Step s (s.setStage p .opened)
  | read {s} {p : Fin n} : s.stage p = .opened → Step s (s.setStage p (c.readInit format p s.file))
  | writeInit {s file} {p : Fin n} : s.stage p = .empty → c.writeInit b format p s.file = .ok file →
      Step s ({ s with file }.setStage p .ready)
  | throwInit {s e} {p : Fin n} : s.stage p = .empty → c.writeInit b format p s.file = .error e →
      Step s (s.setStage p .stopped)
  | openForAppend {s} {p : Fin n} (entry : Entry) : s.stage p = .ready → Step s (s.setStage p (.appending entry))
  | append {s entry bytes} {p : Fin n} : s.stage p = .appending entry → written b entry.toBuiltRecord = .ok bytes →
      Step s ({ s with file := s.file ++ bytes, appended := s.appended ++ [bytes] }.setStage p .ready)
  | throwAppend {s entry e} {p : Fin n} : s.stage p = .appending entry → written b entry.toBuiltRecord = .error e →
      Step s (s.setStage p .stopped)

variable (c) in
/-- The states of every interleaving. -/
inductive Reachable : Creation n → Prop
  | start : Reachable start
  | step {s t} : Reachable s → Step b format c s t → Reachable t

end Creation

/-- The tag of the record that the bytes begin with. -/
def tagOf (bytes : List UInt8) : UInt8 := (RecordHeader.layout.decode (bytes.take headerSize)).tag

/-- The bytes are one record, as its header says. -/
def Whole (bytes : List UInt8) : Prop :=
  headerSize ≤ bytes.length ∧ (RecordHeader.layout.decode (bytes.take headerSize)).size.toNat = bytes.length

/-- A sequence of whole records that starts with its one TOC_INIT, with every record that was appended in it. -/
def WellFormed (s : Creation n) : Prop :=
  ∃ records : List (List UInt8), s.file = records.flatten ∧ (∀ r ∈ records, Whole r) ∧ s.appended.Sublist records ∧
    (records = [] ∨ ∃ init rest, records = init :: rest ∧ tagOf init = tocInit ∧ ∀ r ∈ rest, tagOf r ≠ tocInit)

/-- The TOC_INIT records that the processes can write are rounded to one size. -/
def SameSize : Prop :=
  ∀ p q rp rq, c.initRecord format p = .ok rp → c.initRecord format q = .ok rq → Fits b rp → Fits b rq →
    roundedSize b rp.payload.length = roundedSize b rq.payload.length

section Whole

theorem Entry.tag_ne (entry : Entry) : entry.header.tag ≠ tocInit := by
  intro h
  have htag := entry.tag
  rw [h] at htag
  exact absurd htag (by decide)

variable {b} {r : BuiltRecord} {bytes rest : List UInt8}

theorem take_header (hchunk : Chunk b r bytes) : bytes.take headerSize = RecordHeader.layout.encode (roundRecord b r) := by
  obtain ⟨-, padding, rfl⟩ := hchunk
  rw [List.append_assoc]
  exact List.take_left' length_header

theorem Chunk.whole (hchunk : Chunk b r bytes) : Whole bytes := by
  refine ⟨?_, ?_⟩
  · rw [hchunk.1]
    exact Nat.le_trans (Nat.le_add_right _ _) le_roundedSize
  · rw [take_header hchunk, Layout.decode_encode_self, size_roundRecord, hchunk.1]

theorem Chunk.tag (hchunk : Chunk b r bytes) : tagOf bytes = r.header.tag := by
  rw [tagOf, take_header hchunk, Layout.decode_encode_self]
  rfl

theorem Whole.take_append (h : Whole bytes) : (bytes ++ rest).take headerSize = bytes.take headerSize :=
  List.take_append_of_le_length h.1

/-- A record at the front of a file is where any other reading of it begins. -/
theorem first_record {records : List (List UInt8)} (h : Whole bytes) (hrecords : ∀ r ∈ records, Whole r)
    (heq : bytes ++ rest = records.flatten) : ∃ tail, records = bytes :: tail ∧ rest = tail.flatten := by
  cases records with
  | nil =>
    have hnil : bytes = [] := (List.append_eq_nil_iff.mp heq).1
    have hle := h.1
    rw [hnil] at hle
    exact absurd hle (by decide)
  | cons first tail =>
    have hfirst := hrecords first (.head _)
    rw [List.flatten_cons] at heq
    have hheader : bytes.take headerSize = first.take headerSize := by
      have htake : (bytes ++ rest).take headerSize = bytes.take headerSize := h.take_append
      rw [← htake, heq, hfirst.take_append]
    have hlen : bytes.length = first.length := by rw [← h.2, ← hfirst.2, hheader]
    obtain ⟨rfl, rfl⟩ := List.append_inj heq hlen
    exact ⟨tail, rfl, rfl⟩

end Whole

/-- A record without a payload. -/
def blankEntry : Entry where
  header := ⟨'i'.toUInt8, Vector.replicate 3 0, 2, 0, Vector.replicate 4 0, 0, 0, 0, 0, Vector.replicate 64 0, 0⟩
  payload := []
  rest := List.replicate maxPayloadSize 0
  length_payload := (Nat.add_comm _ _).trans (length_zeros maxPayloadSize)
  supported := supported_two
  tag := by decide

theorem fits_blankEntry {b : RoundSize} {r : BuiltRecord} (h : Fits b r) : Fits b blankEntry.toBuiltRecord := by
  rw [fits_iff] at h ⊢
  exact Nat.le_trans (Nat.add_le_add_left (Nat.zero_le _) _) h

section Invariant

variable {b format c} {s t : Creation n} {p}

namespace Creation

@[simp] theorem setStage_file (stage : Stage) : (s.setStage p stage).file = s.file := rfl
@[simp] theorem setStage_appended (stage : Stage) : (s.setStage p stage).appended = s.appended := rfl

theorem setStage_stage (stage : Stage) (q : Fin n) :
    (s.setStage p stage).stage q = if q = p then stage else s.stage q := Function.update_apply ..

variable (b format c) in
/-- Nothing is in the file until a TOC_INIT is, and behind it is what was appended. -/
structure Inv (s : Creation n) : Prop where
  entries : ∀ bytes ∈ s.appended, ∃ entry : Entry, Chunk b entry.toBuiltRecord bytes
  file : (s.file = [] ∧ s.appended = [] ∧ ∀ p, ¬ (s.stage p).initialised) ∨
    ∃ p r init, c.initRecord format p = .ok r ∧ written b r = .ok init ∧ s.file = init ++ s.appended.flatten

theorem Inv.setStage {stage : Stage} (h : Inv b format c s) (hstage : s.file = [] → ¬ stage.initialised) :
    Inv b format c (s.setStage p stage) := by
  refine ⟨h.entries, ?_⟩
  rcases h.file with ⟨hfile, happended, hnone⟩ | hinit
  · refine .inl ⟨hfile, happended, fun q => ?_⟩
    rw [setStage_stage]
    split
    · exact hstage hfile
    · exact hnone q
  · exact .inr hinit

theorem Inv.nonempty (h : Inv b format c s) (hp : (s.stage p).initialised) :
    ∃ q r init, c.initRecord format q = .ok r ∧ written b r = .ok init ∧ s.file = init ++ s.appended.flatten := by
  rcases h.file with ⟨-, -, hnone⟩ | hinit
  · exact absurd hp (hnone p)
  · exact hinit

theorem readInit_nil : c.readInit format p [] = .empty := rfl

/-- With records of one size the file that a TOC_INIT is written over keeps what is behind it. -/
theorem writeInit_ok {file : List UInt8} (hsame : SameSize b format c) (h : Inv b format c s)
    (hwrite : c.writeInit b format p s.file = .ok file) : ∃ r init, c.initRecord format p = .ok r ∧
      written b r = .ok init ∧ file = init ++ s.appended.flatten := by
  simp only [Creators.writeInit, except_bind_ok, except_pure_ok] at hwrite
  obtain ⟨r, hr, init, hinit, rfl⟩ := hwrite
  refine ⟨r, init, hr, hinit, ?_⟩
  rcases h.file with ⟨hfile, happended, -⟩ | ⟨q, r', init', hr', hinit', hfile⟩
  · simp [hfile, happended]
  · have hlen : init'.length = init.length := by
      rw [(chunk_of_written hinit').1, (chunk_of_written hinit).1]
      exact hsame q p r' r hr' hr (fits_of_written hinit') (fits_of_written hinit)
    rw [hfile, List.drop_left' hlen]

theorem append_ne_nil {r : BuiltRecord} {init rest : List UInt8} (h : written b r = .ok init) : init ++ rest ≠ [] := by
  intro hnil
  have hle := (chunk_of_written h).whole.1
  rw [(List.append_eq_nil_iff.mp hnil).1] at hle
  exact absurd hle (by decide)

theorem Inv.step (hsame : SameSize b format c) (h : Inv b format c s) (hstep : Step b format c s t) :
    Inv b format c t := by
  cases hstep with
  | «open» _ => exact h.setStage fun _ => id
  | read _ =>
    apply h.setStage
    intro hfile
    rw [hfile, readInit_nil]
    exact id
  | writeInit _ hwrite =>
    obtain ⟨r, init, hr, hinit, rfl⟩ := writeInit_ok hsame h hwrite
    exact ⟨h.entries, .inr ⟨_, r, init, hr, hinit, rfl⟩⟩
  | throwInit _ _ => exact h.setStage fun _ => id
  | openForAppend entry hready =>
    apply h.setStage
    intro hfile
    obtain ⟨q, r, init, -, hinit, hinitial⟩ := h.nonempty (by rw [hready]; trivial)
    exact absurd (hinitial.symm.trans hfile) (append_ne_nil hinit)
  | @append entry bytes p hstage hwritten =>
    have hchunk := chunk_of_written hwritten
    obtain ⟨q, r, init, hr, hinit, hfile⟩ := h.nonempty (by rw [hstage]; trivial)
    refine ⟨?_, .inr ⟨q, r, init, hr, hinit, by simp [hfile]⟩⟩
    intro bytes' hbytes
    rcases List.mem_append.mp hbytes with hbytes | hbytes
    · exact h.entries bytes' hbytes
    · obtain rfl := List.mem_singleton.mp hbytes
      exact ⟨entry, hchunk⟩
  | throwAppend _ _ => exact h.setStage fun _ => id

theorem initRecord_tag {r : BuiltRecord} (h : c.initRecord format p = .ok r) : r.header.tag = tocInit := by
  simp only [Creators.initRecord, except_bind_ok] at h
  obtain ⟨key, -, h⟩ := h
  split at h
  · obtain rfl := Except.ok.inj h
    exact c.tag p
  · cases h

theorem Inv.wellFormed (h : Inv b format c s) : WellFormed s := by
  have hwhole : ∀ bytes ∈ s.appended, Whole bytes ∧ tagOf bytes ≠ tocInit := by
    intro bytes hbytes
    obtain ⟨entry, hchunk⟩ := h.entries bytes hbytes
    exact ⟨hchunk.whole, by rw [hchunk.tag]; exact entry.tag_ne⟩
  rcases h.file with ⟨hfile, happended, -⟩ | ⟨q, r, init, hr, hinit, hfile⟩
  · exact ⟨[], by simpa using hfile, by simp, by simp [happended], .inl rfl⟩
  · have hchunk := chunk_of_written hinit
    refine ⟨init :: s.appended, by simpa using hfile, ?_, List.sublist_cons_self _ _, .inr ⟨init, s.appended, rfl, ?_, ?_⟩⟩
    · intro bytes hbytes
      rcases List.mem_cons.mp hbytes with rfl | hbytes
      · exact hchunk.whole
      · exact (hwhole bytes hbytes).1
    · rw [hchunk.tag, initRecord_tag hr]
    · exact fun bytes hbytes => (hwhole bytes hbytes).2

theorem Reachable.inv (hsame : SameSize b format c) (h : Reachable b format c s) : Inv b format c s := by
  induction h with
  | start => exact ⟨List.forall_mem_nil _, .inl ⟨rfl, rfl, fun p => id⟩⟩
  | step _ hstep ih => exact ih.step hsame hstep

theorem exists_empty {q : Fin n} (hne : p ≠ q) : ∃ s, Reachable b format c s ∧ s.file = [] ∧ s.appended = [] ∧
    s.stage p = .empty ∧ s.stage q = .empty := by
  let s₁ : Creation n := start.setStage p .opened
  let s₂ : Creation n := s₁.setStage q .opened
  let s₃ : Creation n := s₂.setStage p .empty
  have h₁ : Reachable b format c s₁ := .step .start (.open rfl)
  have h₂ : Reachable b format c s₂ := h₁.step (.open (by simp [s₁, setStage_stage, hne.symm, start]))
  have h₃ : Reachable b format c s₃ := h₂.step (.read (by simp [s₁, s₂, setStage_stage, hne]))
  refine ⟨s₃.setStage q .empty, h₃.step (.read ?_), rfl, rfl, ?_, ?_⟩
  · simp [s₁, s₂, s₃, setStage_stage, hne.symm]
  · simp [s₃, setStage_stage, hne]
  · simp [setStage_stage]

/-- A record that was appended is not in a file that a larger TOC_INIT has been written over. -/
theorem not_wellFormed_of_over {init first bytes : List UInt8} (hinit : Whole init) (htag : tagOf init ≠ tagOf bytes)
    (hlt : first.length < init.length) (hfile : s.file = init ++ (first ++ bytes).drop init.length)
    (hbytes : bytes ∈ s.appended) (hne : bytes ≠ []) : ¬ WellFormed s := by
  rintro ⟨records, hrecords, hwhole, hsub, -⟩
  obtain ⟨tail, rfl, hrest⟩ := first_record hinit hwhole (hfile.symm.trans hrecords)
  rcases List.mem_cons.mp (hsub.mem hbytes) with rfl | htail
  · exact htag rfl
  · have hle := (List.sublist_flatten_of_mem htail).length_le
    have hpos := List.length_pos_of_ne_nil hne
    rw [← hrest, List.length_drop, List.length_append] at hle
    omega

/-- One process appends after its TOC_INIT, and another writes a larger one over both. -/
theorem not_wellFormed_of_lt {q : Fin n} {rp rq : BuiltRecord} (hp : c.initRecord format p = .ok rp)
    (hq : c.initRecord format q = .ok rq) (hfitsp : Fits b rp) (hfitsq : Fits b rq)
    (hlt : roundedSize b rp.payload.length < roundedSize b rq.payload.length) :
    ∃ s, Reachable b format c s ∧ ¬ WellFormed s := by
  have hne : p ≠ q := by
    rintro rfl
    obtain rfl := Except.ok.inj (hp.symm.trans hq)
    exact Nat.lt_irrefl _ hlt
  obtain ⟨s, hs, hfile, happended, hstagep, hstageq⟩ : ∃ s, Reachable b format c s ∧ s.file = [] ∧ s.appended = [] ∧
    s.stage p = .empty ∧ s.stage q = .empty := exists_empty hne
  obtain ⟨initp, hwrittenp, hchunkp⟩ := written_ok hfitsp
  obtain ⟨initq, hwrittenq, hchunkq⟩ := written_ok hfitsq
  obtain ⟨bytes, hwritten, hchunk⟩ := written_ok (fits_blankEntry hfitsp)
  let s₁ : Creation n := { s with file := initp }.setStage p .ready
  let s₂ : Creation n := s₁.setStage p (.appending blankEntry)
  let s₃ : Creation n := { s₂ with file := initp ++ bytes, appended := s.appended ++ [bytes] }.setStage p .ready
  let s₄ : Creation n := { s₃ with file := initq ++ (initp ++ bytes).drop initq.length }.setStage q .ready
  have h₁ : Reachable b format c s₁ := hs.step (.writeInit hstagep (by simp [Creators.writeInit, hp, hwrittenp, hfile]))
  have h₂ : Reachable b format c s₂ := h₁.step (.openForAppend blankEntry (by simp [s₁, setStage_stage]))
  have h₃ : Reachable b format c s₃ := h₂.step (.append (by simp [s₂, setStage_stage]) hwritten)
  have h₄ : Reachable b format c s₄ := by
    apply h₃.step (.writeInit _ (by simp [Creators.writeInit, hq, hwrittenq, s₃]))
    simp [s₁, s₂, s₃, setStage_stage, hne.symm, hstageq]
  refine ⟨s₄, h₄, not_wellFormed_of_over hchunkq.whole ?_ ?_ rfl (List.mem_append_right _ (.head _)) ?_⟩
  · rw [hchunkq.tag, hchunk.tag, initRecord_tag hq]
    exact (Entry.tag_ne blankEntry).symm
  · rw [hchunkp.1, hchunkq.1]
    exact hlt
  · have hnil : bytes ++ [] ≠ [] := append_ne_nil hwritten
    rwa [List.append_nil] at hnil

end Creation

theorem initRecord_ok {m : Nat} (h : ((c.key p).encodeTo format.toStreamFormat).toOption.map List.length = some m)
    (hm : m + (format.putBool c.isSubToc).length ≤ maxPayloadSize) :
    ∃ r, c.initRecord format p = .ok r ∧ r.payload.length = m + (format.putBool c.isSubToc).length := by
  cases hkey : (c.key p).encodeTo format.toStreamFormat with
  | error e => simp [hkey, Except.toOption] at h
  | ok bytes =>
    obtain rfl : bytes.length = m := by simpa [hkey, Except.toOption] using h
    have hlen : (bytes ++ format.putBool c.isSubToc).length ≤ maxPayloadSize := by simpa using hm
    simp only [Creators.initRecord, hkey, except_bind_ok]
    refine ⟨_, ⟨bytes, rfl, dif_pos hlen⟩, by simp⟩

end Invariant

section Typed

/-- The layout of `eckit::MemoryStream`, in which a flag has a tag and a byte. -/
def RecordFormat.eckit : RecordFormat := { StreamFormat.eckit with putBool b := [4, b.toUInt8] }

/-- The key of a database with a long value; with a registry its types are written too. -/
def longKey (registry : Option TypesRegistry) : Key :=
  .ofList [("class", "od"), ("expver", "0001"), ("stream", "oper"), ("date", "20200101"), ("time", "0000"),
    ("domain", String.ofList (List.replicate 675 'x'))] registry

/-- One key is as a stream or a string gives it, the other as the rules of a schema do. -/
def typedCreators : Creators 2 where
  key p := longKey (if p.val = 0 then none else some .untyped)
  isSubToc := false
  header _ := ⟨tocInit, Vector.replicate 3 0, 2, 0, Vector.replicate 4 0, 0, 0, 0, 0, Vector.replicate 64 0, 0⟩
  heap _ := Vector.replicate maxPayloadSize 0
  same _ _ := rfl
  tag _ := rfl
  supported _ := by decide

end Typed

end Fdb5.TocFile
