import Mathlib.Algebra.GroupWithZero.Nat
import Fdb5.Location

/-! A handle on one message of a file, which is rewritten as it is read. -/
namespace Fdb5

open Effect

/-- `memcpy` from a buffer, at a position of it. -/
def memcpy (buffer : List UInt8) (pos n : Nat) : Except Failure (List UInt8) :=
  if pos + n ≤ buffer.length then .ok ((buffer.drop pos).take n)
  else .error (.undefinedBehaviour "memcpy reads beyond the buffer")

structure SingleGribMungePartFileHandle where
  name : PathName
  /-- The bytes of the file, while it is open. -/
  file : Option (List UInt8) := none
  pos : Nat := 0
  offset : Nat
  length : Nat
  substitute : Key
  buffer : Option (List UInt8) := none

namespace SingleGribMungePartFileHandle

def estimate (h : SingleGribMungePartFileHandle) : Nat := h.length

def openForRead (files : PathName → Option (List UInt8)) : EStateM Failure SingleGribMungePartFileHandle Nat := do
  modify ({ · with pos := 0 })
  modify fun h => { h with file := files h.name }
  if (← get).file.isNone then
    throw (.system "fopen")
  modify ({ · with buffer := none })
  return (← get).estimate

/-- The part of the file, rewritten by eccodes with the substituted strings. -/
def messageBuffer (codes : List UInt8 → List (String × String) → Except Failure (List UInt8)) (file : List UInt8)
    (h : SingleGribMungePartFileHandle) : Except Failure (List UInt8) := do
  let readBuffer := (file.drop h.offset).take h.length
  assert (readBuffer.length = h.length) "::fread(readBuffer, 1, length_, file_) == static_cast<size_t>(length_)"
  codes readBuffer h.substitute.keys.toList

/-- What is left of `read` when the message is in the buffer. -/
def copyOut (length : Nat) : EStateM Failure SingleGribMungePartFileHandle (List UInt8) := do
  let h ← get
  if h.pos < h.length then
    let readLength := min (h.length - h.pos) length
    let bytes ← lift (memcpy (h.buffer.getD []) h.pos readLength)
    modify fun h => { h with pos := h.pos + readLength }
    return bytes
  else
    return []

/-- What a call copies to the caller's buffer; as many bytes as it returns. -/
def read (codes : List UInt8 → List (String × String) → Except Failure (List UInt8)) (length : Nat) :
    EStateM Failure SingleGribMungePartFileHandle (List UInt8) := do
  let h ← get
  match h.file with
  | none => throw (.assertion "file_")
  | some file =>
    if h.buffer.isNone then
      let message ← lift (messageBuffer codes file h)
      modify ({ · with buffer := some message, pos := 0 })
    copyOut length

variable {codes : List UInt8 → List (String × String) → Except Failure (List UInt8)}
  {files : PathName → Option (List UInt8)} {h : SingleGribMungePartFileHandle} {contents message : List UInt8}
  {sizes : List Nat} {p n : Nat}

/-- The handle is open, and has read so much of the message; the message may still have to be made. -/
def Reading (codes : List UInt8 → List (String × String) → Except Failure (List UInt8)) (message : List UInt8)
    (p : Nat) (h : SingleGribMungePartFileHandle) : Prop :=
  ∃ contents, h.file = some contents ∧
    (h.buffer = some message ∧ h.pos = p ∨ h.buffer = none ∧ p = 0 ∧ messageBuffer codes contents h = .ok message)

theorem ends_openForRead (hfile : files h.name = some contents) (hmessage : messageBuffer codes contents h = .ok message) :
    Ends (openForRead files) h (fun _ t => Reading codes message 0 t ∧ t.length = h.length) fun _ _ => False := by
  simp only [openForRead, ends_bind, ends_modify, ends_get, ends_ite, hfile]
  refine ⟨(by cases ·), fun _ => ⟨⟨contents, rfl, .inr ⟨rfl, rfl, ?_⟩⟩, rfl⟩⟩
  simpa [messageBuffer] using hmessage

/-- The next bytes of the message, as many as the stored part still has. -/
theorem ends_copyOut (hfile : h.file = some contents) (hb : h.buffer = some message) (hp : h.pos = p) :
    Ends (copyOut n) h
      (fun bytes t => bytes = (message.drop p).take (min (h.length - p) n) ∧
        Reading codes message (p + min (h.length - p) n) t ∧ t.length = h.length ∧
        (p ≤ message.length → p + min (h.length - p) n ≤ message.length))
      fun _ _ => message.length < p + min (h.length - p) n := by
  rw [copyOut, ends_bind, ends_get, ends_ite, hp, hb]
  refine ⟨fun hlt => ?_, fun hle => ?_⟩
  · rw [ends_bind, ends_lift, Option.getD_some, memcpy]
    refine ⟨fun bytes hbytes => ?_, fun e he => ?_⟩
    · split at hbytes
      next hfits =>
        cases hbytes
        exact ⟨rfl, ⟨contents, hfile, .inl ⟨hb, congrArg (· + _) hp⟩⟩, rfl, fun _ => hfits⟩
      next => cases hbytes
    · split at he
      next => cases he
      next hfits => omega
  · have hnone : min (h.length - p) n = 0 := by omega
    rw [hnone]
    exact ⟨by simp, ⟨contents, hfile, .inl ⟨hb, hp⟩⟩, rfl, id⟩

theorem ends_read (hr : Reading codes message p h) :
    Ends (read codes n) h
      (fun bytes t => bytes = (message.drop p).take (min (h.length - p) n) ∧
        Reading codes message (p + min (h.length - p) n) t ∧ t.length = h.length ∧
        (p ≤ message.length → p + min (h.length - p) n ≤ message.length))
      fun _ _ => message.length < p + min (h.length - p) n := by
  obtain ⟨contents, hfile, ⟨hb, hp⟩ | ⟨hb, rfl, hmessage⟩⟩ := hr
  · rw [read, ends_bind, ends_get]
    simp only [hfile, hb]
    exact ends_copyOut hfile hb hp
  · rw [read, ends_bind, ends_get]
    simp only [hfile, hb, Option.isNone_none, if_true, hmessage, ends_bind, ends_lift, Except.ok.injEq, reduceCtorEq]
    refine ⟨?_, fun _ h => h.elim⟩
    rintro _ rfl
    exact ends_copyOut hfile rfl rfl

/-- The reads together take what one read of all their bytes would take. -/
theorem ends_reads (hr : Reading codes message p h) (hp : p ≤ message.length) :
    Ends (sizes.mapM (read codes)) h
      (fun results t => results.flatten = (message.drop p).take (min (h.length - p) sizes.sum) ∧
        Reading codes message (p + min (h.length - p) sizes.sum) t ∧ t.length = h.length ∧
        p + min (h.length - p) sizes.sum ≤ message.length)
      fun _ _ => message.length < p + min (h.length - p) sizes.sum := by
  induction sizes generalizing p h with
  | nil => exact ⟨by simp, by simpa using hr, rfl, by simpa using hp⟩
  | cons n sizes ih =>
    rw [List.mapM_cons, ends_bind, List.sum_cons]
    apply (ends_read hr).mono _ fun _ _ h => by omega
    rintro bytes t ⟨hbytes, ht, hl, hle⟩
    have hmore : p + min (h.length - p) n + min (h.length - (p + min (h.length - p) n)) sizes.sum =
        p + min (h.length - p) (n + sizes.sum) := by omega
    have hrest := ih ht (hle hp)
    rw [hl, hmore] at hrest
    rw [ends_bind]
    apply hrest.mono _ fun _ _ h => h
    rintro results u ⟨hresults, hu, hlu, hend⟩
    have hsplit : min (h.length - p) (n + sizes.sum) =
        min (h.length - p) n + min (h.length - (p + min (h.length - p) n)) sizes.sum := by omega
    refine ⟨?_, hu, hlu, hend⟩
    rw [List.flatten_cons, hbytes, hresults, hsplit, List.take_add, List.drop_drop]

/-- Opened and read in pieces of these sizes, the handle gives the message as far as they reach, and nothing
once they reach its end. -/
def StreamsExactly (codes : List UInt8 → List (String × String) → Except Failure (List UInt8))
    (files : PathName → Option (List UInt8)) (h : SingleGribMungePartFileHandle) (message : List UInt8)
    (sizes : List Nat) : Prop :=
  ∃ results t, (openForRead files >>= fun _ => sizes.mapM (read codes)).run h = .ok results t ∧
    results.flatten = message.take sizes.sum ∧
    (message.length ≤ sizes.sum → ∀ n, ∃ u, (read codes n).run t = .ok [] u)

theorem streamsExactly_iff (hfile : files h.name = some contents)
    (hmessage : messageBuffer codes contents h = .ok message) :
    StreamsExactly codes files h message sizes ↔
      message.length = h.length ∨ sizes.sum < message.length ∧ sizes.sum ≤ h.length := by
  have hends : Ends (openForRead files >>= fun _ => sizes.mapM (read codes)) h
      (fun results t => results.flatten = message.take (min h.length sizes.sum) ∧
        Reading codes message (min h.length sizes.sum) t ∧ t.length = h.length ∧
        min h.length sizes.sum ≤ message.length)
      fun _ _ => message.length < min h.length sizes.sum := by
    refine ((ends_openForRead hfile hmessage).mono (fun _ t ht => ht) fun _ _ h => h.elim).bind fun _ t ⟨ht, hl⟩ => ?_
    simpa [hl] using ends_reads ht (Nat.zero_le _)
  constructor
  · rintro ⟨results, t, hrun, hresults, hfurther⟩
    obtain ⟨htake, ht, hl, hle⟩ := hends.ok hrun
    have hlength : min h.length sizes.sum = min sizes.sum message.length := by
      have := congrArg List.length (htake.symm.trans hresults)
      simp only [List.length_take] at this
      omega
    rcases Nat.lt_or_ge sizes.sum message.length with hlt | hge
    · omega
    · obtain ⟨u, hu⟩ := hfurther hge 1
      obtain ⟨-, -, -, hone⟩ := (ends_read ht).ok hu
      omega
  · intro h'
    have hnot : ¬ message.length < min h.length sizes.sum := by omega
    obtain ⟨results, t, hrun, hresults, ht, hl, hle⟩ := (hends.mono (fun _ _ h => h) fun _ _ h => hnot h).returns
    refine ⟨results, t, hrun, ?_, fun hge n => ?_⟩
    · rw [hresults]
      rcases h' with heq | h'
      · rw [← heq, Nat.min_comm, ← List.take_take, List.take_length]
      · rw [Nat.min_eq_right h'.2]
    · have hpos : h.length - min h.length sizes.sum = 0 := by omega
      have hread := @ends_read codes t message _ n ht
      rw [hl, hpos, Nat.zero_min, List.take_zero, Nat.add_zero] at hread
      obtain ⟨bytes, u, hu, rfl, -⟩ := (hread.mono (fun _ _ h => h) fun _ _ h => by omega).returns
      exact ⟨u, hu⟩

/-- The handle streams the rewritten message exactly if rewriting keeps its length; otherwise while the reads
stay within the shorter of the two, before the end of the message. -/
theorem read_streams (hfile : files h.name = some contents)
    (hmessage : messageBuffer codes contents h = .ok message) :
    ((∀ sizes, StreamsExactly codes files h message sizes) ↔ message.length = h.length) ∧
    ∀ sizes, StreamsExactly codes files h message sizes ↔
      message.length = h.length ∨ sizes.sum < message.length ∧ sizes.sum ≤ h.length := by
  refine ⟨⟨fun hall => ?_, fun heq sizes => (streamsExactly_iff hfile hmessage).mpr (.inl heq)⟩,
    fun sizes => streamsExactly_iff hfile hmessage⟩
  rcases (streamsExactly_iff hfile hmessage).mp (hall [message.length]) with heq | ⟨hlt, -⟩
  · exact heq
  · simp at hlt

section Sample

/-- A field of four bytes, some way into its file. -/
def sampleMessage : SingleGribMungePartFileHandle where
  name := ⟨"/fdb", ⟨"oper", none, "data"⟩⟩
  offset := 2
  length := 4
  substitute := Key.ofList [("expver", "0001")] none

def sampleFiles : PathName → Option (List UInt8) := fun _ => some [0, 0, 71, 82, 73, 66, 0]

theorem read_streams_sample :
    StreamsExactly (fun bytes _ => .ok bytes) sampleFiles sampleMessage [71, 82, 73, 66] [3, 0, 8] :=
  (read_streams rfl rfl).1.mpr rfl [3, 0, 8]

/-- A message that got longer loses its end; one that got shorter is read beyond its end. -/
theorem new_length_not_streamed :
    (¬ StreamsExactly (fun bytes _ => .ok (bytes ++ [55])) sampleFiles sampleMessage [71, 82, 73, 66, 55] [3, 8] ∧
      value ((openForRead sampleFiles >>= fun _ =>
        [3, 8].mapM (read fun bytes _ => .ok (bytes ++ [55]))).run sampleMessage) = .ok [[71, 82, 73], [66]]) ∧
    ¬ StreamsExactly (fun bytes _ => .ok bytes.dropLast) sampleFiles sampleMessage [71, 82, 73] [8] ∧
      value ((openForRead sampleFiles >>= fun _ => [8].mapM (read fun bytes _ => .ok bytes.dropLast)).run sampleMessage) =
        .error (.undefinedBehaviour "memcpy reads beyond the buffer") := by
  refine ⟨⟨fun h => ?_, rfl⟩, fun h => ?_, rfl⟩
  · rw [streamsExactly_iff rfl rfl] at h
    exact absurd h (by decide)
  · rw [streamsExactly_iff rfl rfl] at h
    exact absurd h (by decide)

end Sample

end SingleGribMungePartFileHandle

end Fdb5
