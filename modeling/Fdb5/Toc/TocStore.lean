import Fdb5.Key
import Fdb5.Library.AppendStream
import Fdb5.Library.Follows

/-! `TocStore`: the data files of a database, written through buffered streams. -/
namespace Fdb5

open Effect AppendStream

abbrev DataBytes := List UInt8

/-- `FDBFileHandle`; a deleted one is still in the map when a `close()` threw before the map was cleared. -/
structure FDBFileHandle where
  file : Option FileStream := none
  pos : Nat := 0
  deleted : Bool := false

namespace FDBFileHandle

/-- A file, where it exists, and the handle that appends to it. -/
abbrev Act := EStateM Failure (Option DataBytes × FDBFileHandle)

def openForAppend (opens : Bool) : Act Unit := do
  let (disk, h) ← get
  ensure (h.file = none) "!file_"
  if opens then set (some (disk.getD []), { h with file := some {}, pos := (disk.getD []).length })
  else throw (.exception "CantOpenFile")

/-- `file_`, after the assertion that there is one. -/
def stream (h : FDBFileHandle) : Except Failure FileStream :=
  match h.file with
  | some s => .ok s
  | none => .error (.assertion "file_")

/-- What `fwrite` takes of the data, and what the stream writes from its buffer. -/
structure Fwrite where
  taken : Nat
  drained : Nat := 0

def write (data : DataBytes) (w : Fwrite) : Act Nat := do
  let (disk, h) ← get
  let s ← lift h.stream
  let (disk, s) := fwrite w.taken w.drained data disk s
  set (disk, { h with file := some s })
  if (data.take w.taken).length ≠ data.length then throw (.exception "WriteError")
  set (disk, { h with file := some s, pos := h.pos + data.length })
  return data.length

/-- What `fflush` and `fclose` write before they fail, if they fail, and whether `fdatasync` does not fail. -/
structure Fflush where
  fails : Option Nat := none
  synced : Bool := true

def flush (f : Fflush) : Act Unit := do
  let (disk, h) ← get
  match h.file with
  | none => pure ()
  | some s =>
    let (disk, s) := drain (f.fails.getD s.buffered.length) disk s
    set (disk, { h with file := some s })
    if f.fails.isSome then throw (.exception "fflush")
    if f.synced = false then throw (.exception "fdatasync")
    ensure (h.pos = ftello disk s) "pos_ == current"

def close (f : Fflush) : Act Unit := do
  let (disk, h) ← get
  match h.file with
  | none => pure ()
  | some s =>
    set ((drain (f.fails.getD s.buffered.length) disk s).1, { h with file := none, pos := 0 })
    if f.fails.isSome then throw (.exception "fclose")

def position : Act Nat := return (← get).2.pos

end FDBFileHandle

/-- The data files, and the store that writes them. -/
structure TocStore where
  directory : String
  disk : String → Option DataBytes
  handles : Std.ExtTreeMap String FDBFileHandle := ∅
  dataPaths : List (StringDict × String) := []
  dirty : Bool := false

/-- `TocFieldLocation`, as `archive` makes it. -/
structure DataLocation where
  path : String
  offset : Nat
  length : Nat
deriving DecidableEq

namespace TocStore

abbrev Act := EStateM Failure TocStore

/-- The handle of a path that is in the map. -/
def handle (s : TocStore) (path : String) : FDBFileHandle := s.handles[path]?.getD {}

def putHandle (path : String) (t : Option DataBytes × FDBFileHandle) (s : TocStore) : TocStore :=
  { s with disk := Function.update s.disk path t.1, handles := s.handles.insert path t.2 }

/-- A call of the handle of a path. -/
def onHandle {α : Type} (path : String) (x : FDBFileHandle.Act α) : Act α := do
  if ((← get).handle path).deleted then throw (.undefinedBehaviour "dh")
  focus (fun s => (s.disk path, s.handle path)) (putHandle path) x

/-- `generateDataPath`; `unique` is what `PathName::unique` adds. -/
def generateDataPath (directory : String) (key : Key) (unique : String) : Except Failure String := do
  return directory ++ "/" ++ (← key.valuesToString) ++ unique ++ ".data"

/-- The path that `getDataPath` returns. -/
def dataPath (s : TocStore) (key : Key) (unique : String) : Except Failure String :=
  match s.dataPaths.find? fun e => e.1 = key.keys with
  | some e => .ok e.2
  | none => generateDataPath s.directory key unique

def getDataPath (key : Key) (unique : String) : Act String := do
  let path ← lift ((← get).dataPath key unique)
  modify fun s =>
    if (s.dataPaths.find? fun e => e.1 = key.keys).isSome then s else { s with dataPaths := (key.keys, path) :: s.dataPaths }
  return path

def getDataHandle (path : String) (opens : Bool) : Act Unit := do
  if path ∈ (← get).handles then pure ()
  else
    modify fun s => { s with handles := s.handles.insert path {} }
    onHandle path (FDBFileHandle.openForAppend opens)

/-- What the file system does in an `archive`. -/
structure Archiving where
  unique : String
  opens : Bool := true
  fwrite : FDBFileHandle.Fwrite

def archive (key : Key) (data : DataBytes) (a : Archiving) : Act DataLocation := do
  modify fun s => { s with dirty := true }
  let path ← getDataPath key a.unique
  getDataHandle path a.opens
  let position ← onHandle path FDBFileHandle.position
  let len ← onHandle path (FDBFileHandle.write data a.fwrite)
  ensure (len = data.length) "len == length"
  return ⟨path, position, data.length⟩

/-- What the file system does to each handle in a `flush` or a `close`. -/
abbrev Flushing := String → FDBFileHandle.Fflush

def flushDataHandles (f : Flushing) : Act Unit := do
  (← get).handles.keys.forM fun path => onHandle path (FDBFileHandle.flush (f path))

def flush (f : Flushing) : Act Unit := do
  if (← get).dirty = false then return
  flushDataHandles f
  modify fun s => { s with dirty := false }

/-- A turn of `closeDataHandles`. -/
def closeDataHandle (f : Flushing) (path : String) : Act Unit := do
  onHandle path (FDBFileHandle.close (f path))
  modify fun s => { s with handles := s.handles.insert path { s.handle path with deleted := true } }

def closeDataHandles (f : Flushing) : Act Unit := do
  (← get).handles.keys.forM (closeDataHandle f)
  modify fun s => { s with handles := ∅ }

def close (f : Flushing) : Act Unit := closeDataHandles f

end TocStore

/-- A field that `archive` has returned a location for, with the bytes it was given. -/
structure StoredField where
  location : DataLocation
  data : DataBytes
deriving DecidableEq

/-- A store, and the fields it has returned. -/
structure StoreRun where
  store : TocStore
  returned : List StoredField := []

inductive StoreCall where
  | archive (key : Key) (data : DataBytes) (a : TocStore.Archiving)
  | flush (f : TocStore.Flushing)
  | close (f : TocStore.Flushing)

namespace StoreRun

def step (s : StoreRun) : StoreCall → StoreRun
  | .archive key data a =>
    match (TocStore.archive key data a).run s.store with
    | .ok location t => ⟨t, s.returned ++ [⟨location, data⟩]⟩
    | .error _ t => { s with store := t }
  | .flush f => { s with store := final ((TocStore.flush f).run s.store) }
  | .close f => { s with store := final ((TocStore.close f).run s.store) }

/-- The ranges share no byte of a file. -/
def Disjoint (a b : DataLocation) : Prop :=
  a.path = b.path → a.offset + a.length ≤ b.offset ∨ b.offset + b.length ≤ a.offset

/-- Reading each field that has been returned gives its bytes. -/
def ReadsBack (s : StoreRun) (fields : List StoredField) : Prop :=
  ∀ field ∈ fields, field.location.length = field.data.length ∧
    ReadsAt ((s.store.disk field.location.path).getD []) field.location.offset field.data

/-- The call is a flush that returns normally. -/
def FlushReturns (s : StoreRun) : StoreCall → Prop
  | .flush f => ∃ t, (TocStore.flush f).run s.store = .ok () t
  | _ => False

/-- In a run no returned ranges overlap, and once a flush has returned the fields before it can be read. -/
structure Exact (s : StoreRun) (calls : List StoreCall) : Prop where
  disjoint : ∀ pre post, calls = pre ++ post →
    ((pre.foldl step s).returned.map StoredField.location).Pairwise Disjoint
  reads : ∀ pre call mid post, calls = pre ++ call :: mid ++ post → (pre.foldl step s).FlushReturns call →
    ((pre ++ call :: mid).foldl step s).ReadsBack (pre.foldl step s).returned

/-- After a write that failed with some bytes taken no other write to that stream succeeds, no `fclose` loses bytes,
and no handle is called that a `close()` has deleted before it threw. -/
def Safe (s : StoreRun) : StoreCall → Prop
  | .archive key data a => ∀ path, s.store.dataPath key a.unique = .ok path → (s.store.handle path).deleted = false ∧
    ∀ stream ∈ (s.store.handle path).file, stream.short = true → a.fwrite.taken < data.length
  | .flush _ => s.store.dirty = true → ∀ path ∈ s.store.handles, (s.store.handle path).deleted = false
  | .close f => ∀ path ∈ s.store.handles, (s.store.handle path).deleted = false ∧
    ∀ stream ∈ (s.store.handle path).file, ∀ n ∈ (f path).fails, stream.buffered.length ≤ n

instance (x : Except Failure String) (P : String → Prop) [∀ path, Decidable (P path)] :
    Decidable (∀ path, x = .ok path → P path) :=
  match x with
  | .ok path => decidable_of_iff (P path) (by simp)
  | .error _ => .isTrue (by simp)

instance (handles : Std.ExtTreeMap String FDBFileHandle) (P : String → Prop) [∀ path, Decidable (P path)] :
    Decidable (∀ path ∈ handles, P path) :=
  decidable_of_iff (∀ path ∈ handles.keys, P path) (by simp)

instance (s : StoreRun) : ∀ call, Decidable (s.Safe call)
  | .archive key data a => inferInstanceAs (Decidable (∀ path, s.store.dataPath key a.unique = .ok path →
      (s.store.handle path).deleted = false ∧
      ∀ stream ∈ (s.store.handle path).file, stream.short = true → a.fwrite.taken < data.length))
  | .flush _ => inferInstanceAs (Decidable (s.store.dirty = true → ∀ path ∈ s.store.handles, (s.store.handle path).deleted = false))
  | .close f => inferInstanceAs (Decidable (∀ path ∈ s.store.handles, (s.store.handle path).deleted = false ∧
      ∀ stream ∈ (s.store.handle path).file, ∀ n ∈ (f path).fails, stream.buffered.length ≤ n))

end StoreRun

namespace FDBFileHandle

/-- The bytes that have been given to a file, of which some may wait in the buffer of its stream. -/
def bytes (x : Option DataBytes × FDBFileHandle) : DataBytes := contents x.1 x.2.file

/-- The position is where the stream stands, unless a write has left a part there, and nothing waits where nothing may. -/
structure Good (dirty : Bool) (x : Option DataBytes × FDBFileHandle) : Prop where
  pos : ∀ stream ∈ x.2.file, stream.short = false → x.2.pos = (bytes x).length
  clean : dirty = false → ∀ stream ∈ x.2.file, stream.buffered = []

/-- A call keeps the handle so, and no byte is lost. -/
structure Next (dirty : Bool) (x y : Option DataBytes × FDBFileHandle) : Prop where
  good : Good dirty y
  disk : x.1.getD [] <+: y.1.getD []
  bytes : bytes x <+: bytes y
  deleted : y.2.deleted = x.2.deleted

variable {x : Option DataBytes × FDBFileHandle} {dirty : Bool} {f : Fflush} {data : DataBytes} {w : Fwrite}

theorem Good.next (h : Good dirty x) : Next dirty x x := ⟨h, List.prefix_rfl, List.prefix_rfl, rfl⟩

theorem ends_openForAppend {opens : Bool} (h : Good dirty x) : Ends (openForAppend opens) x
    (fun _ y => Next dirty x y ∧ bytes y = bytes x ∧ ∀ stream ∈ y.2.file, stream.short = false) fun _ => Next dirty x := by
  obtain ⟨disk, file, pos, deleted⟩ := x
  simp only [openForAppend, ends_bind, ends_get, ends_ensure]
  refine ⟨fun hfile => ?_, fun _ => h.next⟩
  obtain rfl : file = none := hfile
  cases opens with
  | false => simpa using h.next
  | true =>
    simp only [if_true, ends_set]
    have hbytes : bytes (some (disk.getD []), ⟨some {}, (disk.getD []).length, deleted⟩) = bytes (disk, ⟨none, pos, deleted⟩) := by
      simp [bytes]
    refine ⟨⟨⟨?_, by simp⟩, by simp, hbytes ▸ List.prefix_rfl, rfl⟩, hbytes, by simp⟩
    intro stream _ _
    rw [hbytes]
    simp [bytes]

theorem ends_write (h : Good true x) : Ends (write data w) x
    (fun len y => Next true x y ∧ len = data.length ∧ bytes y = bytes x ++ data ∧ x.2.file.isSome = true ∧ data.length ≤ w.taken)
    fun _ => Next true x := by
  obtain ⟨disk, file, pos, deleted⟩ := x
  cases file with
  | none => simpa [write, stream] using h.next
  | some stream =>
    let y := fwrite w.taken w.drained data disk stream
    have hbytes : ∀ pos, bytes (y.1, ⟨some y.2, pos, deleted⟩) = bytes (disk, ⟨some stream, pos, deleted⟩) ++ data.take w.taken :=
      fun _ => contents_fwrite
    have hnext : ∀ pos', (y.2.short = false → pos' = (bytes (y.1, ⟨some y.2, pos', deleted⟩)).length) →
        Next true (disk, ⟨some stream, pos, deleted⟩) (y.1, ⟨some y.2, pos', deleted⟩) := by
      intro pos' hpos
      refine ⟨⟨?_, by simp⟩, disk_fwrite, ?_, rfl⟩
      · intro stream' hstream hshort
        obtain rfl : y.2 = stream' := by simpa using hstream
        exact hpos hshort
      · rw [hbytes]
        exact List.prefix_append _ _
    have hpos : y.2.short = false → pos = (bytes (disk, ⟨some stream, pos, deleted⟩)).length ∧
        ¬ (0 < w.taken ∧ w.taken < data.length) := by
      intro hshort
      have hboth : stream.short = false ∧ (0 < w.taken → data.length ≤ w.taken) := by
        simpa [y, fwrite, drain] using hshort
      exact ⟨h.pos stream (by simp) hboth.1, by omega⟩
    have hwrite : Ends (write data w) (disk, ⟨some stream, pos, deleted⟩)
        (fun len z => (data.take w.taken).length = data.length ∧ len = data.length ∧
          z = (y.1, ⟨some y.2, pos + data.length, deleted⟩))
        fun _ z => (data.take w.taken).length ≠ data.length ∧ z = (y.1, ⟨some y.2, pos, deleted⟩) := by
      simp only [write, FDBFileHandle.stream, ends_bind, ends_get, ends_lift, ends_set]
      refine ⟨?_, by simp⟩
      intro _ hstream
      cases hstream
      simp only [ends_ite, ends_bind, ends_throw, ends_set, ends_pure]
      exact ⟨fun hne => ⟨hne, rfl⟩, fun heq => ⟨of_not_not heq, trivial, rfl⟩⟩
    apply hwrite.mono
    · rintro len _ ⟨htake, rfl, rfl⟩
      have htaken : data.length ≤ w.taken := by
        rw [List.length_take] at htake
        omega
      have hall : data.take w.taken = data := List.take_of_length_le htaken
      refine ⟨hnext _ ?_, rfl, by rw [hbytes, hall]; rfl, rfl, htaken⟩
      intro hshort
      rw [hbytes, hall, List.length_append]
      have := (hpos hshort).1
      simp only [bytes] at this ⊢
      omega
    · rintro _ _ ⟨htake, rfl⟩
      apply hnext
      intro hshort
      obtain ⟨heq, hpart⟩ := hpos hshort
      obtain htaken : w.taken = 0 := by
        simp at htake
        omega
      rw [hbytes, htaken]
      simpa using heq

/-- The stream of a handle writes from its buffer. -/
theorem next_drain {stream : FileStream} {n pos : Nat} {disk : Option DataBytes} {deleted : Bool}
    (h : Good dirty (disk, ⟨some stream, pos, deleted⟩)) (hclean : dirty = false → stream.buffered.length ≤ n) :
    Next dirty (disk, ⟨some stream, pos, deleted⟩) ((drain n disk stream).1, ⟨some (drain n disk stream).2, pos, deleted⟩) := by
  have hbytes : bytes ((drain n disk stream).1, ⟨some (drain n disk stream).2, pos, deleted⟩) =
      bytes (disk, ⟨some stream, pos, deleted⟩) := contents_drain
  refine ⟨⟨?_, ?_⟩, disk_drain, hbytes ▸ List.prefix_rfl, rfl⟩
  · intro stream' hstream hshort
    obtain rfl : (drain n disk stream).2 = stream' := by simpa using hstream
    rw [hbytes]
    exact h.pos stream (by simp) hshort
  · intro hdirty stream' hstream
    obtain rfl : (drain n disk stream).2 = stream' := by simpa using hstream
    exact (drain_all (hclean hdirty)).2

theorem ends_flush (h : Good true x) : Ends (flush f) x
    (fun _ y => Next true x y ∧ ∀ stream ∈ y.2.file, stream.buffered = []) fun _ => Next true x := by
  obtain ⟨disk, file, pos, deleted⟩ := x
  simp only [flush, ends_bind, ends_get]
  cases file with
  | none => exact ⟨h.next, by simp⟩
  | some stream =>
    have hnext := fun n => next_drain (n := n) h (by simp)
    cases hfails : f.fails with
    | some n => simpa [hfails] using hnext n
    | none =>
      have hall : stream.buffered.length ≤ (none : Option Nat).getD stream.buffered.length := Nat.le_refl _
      cases f.synced with
      | false => simpa [hfails] using hnext _
      | true =>
        have hempty : (drain _ disk stream).2.buffered = [] := (drain_all hall).2
        simp only [ends_bind, ends_set, Option.isSome_none, Bool.false_eq_true, if_false, Bool.true_eq_false, ends_ensure]
        refine ⟨fun _ => ⟨hnext _, ?_⟩, fun _ => hnext _⟩
        intro stream' hstream
        obtain rfl : (drain _ disk stream).2 = stream' := by simpa using hstream
        exact hempty

theorem ends_close (h : Good dirty x) (hlost : ∀ stream ∈ x.2.file, ∀ n ∈ f.fails, stream.buffered.length ≤ n) :
    Ends (close f) x (fun _ y => Next dirty x y ∧ y.2.file = none) fun _ => Next dirty x := by
  obtain ⟨disk, file, pos, deleted⟩ := x
  simp only [close, ends_bind, ends_get]
  cases file with
  | none => exact ⟨h.next, rfl⟩
  | some stream =>
    have hlength : stream.buffered.length ≤ f.fails.getD stream.buffered.length := by
      cases hfails : f.fails with
      | none => exact Nat.le_refl _
      | some n => exact hlost stream (by simp) n hfails
    have hdisk : (drain (f.fails.getD stream.buffered.length) disk stream).1 = some (contents disk (some stream)) :=
      (drain_all hlength).1
    have hnext : Next dirty (disk, ⟨some stream, pos, deleted⟩)
        ((drain (f.fails.getD stream.buffered.length) disk stream).1, ⟨none, 0, deleted⟩) := by
      refine ⟨⟨by simp, by simp⟩, disk_drain, ?_, rfl⟩
      rw [hdisk]
      simp [bytes]
    simp only [ends_bind, ends_set, ends_ite, ends_throw, ends_pure]
    exact ⟨fun _ => hnext, fun _ => ⟨hnext, trivial⟩⟩

end FDBFileHandle

namespace TocStore

variable {α : Type} {s t : TocStore} {path path' : String} {h : Option DataBytes × FDBFileHandle} {data : DataBytes}

@[simp] theorem disk_putHandle : (putHandle path h s).disk path' = if path' = path then h.1 else s.disk path' := by
  simp [putHandle, Function.update_apply]

@[simp] theorem handle_putHandle : (putHandle path h s).handle path' = if path' = path then h.2 else s.handle path' := by
  simp only [handle, putHandle, Std.ExtTreeMap.getElem?_insert, Std.LawfulEqCmp.compare_eq_iff_eq, eq_comm (a := path)]
  split <;> rfl

@[simp] theorem dirty_putHandle : (putHandle path h s).dirty = s.dirty := rfl

@[simp] theorem mem_putHandle : path' ∈ (putHandle path h s).handles ↔ path' = path ∨ path' ∈ s.handles := by
  simp [putHandle, eq_comm (a := path')]

@[simp] theorem ends_onHandle {x : FDBFileHandle.Act α} {Q : α → TocStore → Prop} {E : Failure → TocStore → Prop} :
    Ends (onHandle path x) s Q E ↔ ((s.handle path).deleted = true → E (.undefinedBehaviour "dh") s) ∧
      ((s.handle path).deleted = false →
        Ends x (s.disk path, s.handle path) (fun a h => Q a (putHandle path h s)) fun e h => E e (putHandle path h s)) := by
  unfold onHandle
  cases hdeleted : (s.handle path).deleted <;> simp [hdeleted]

/-- A path with its handle, which is a new one where the map has none. -/
def file (s : TocStore) (path : String) : Option DataBytes × FDBFileHandle := (s.disk path, s.handle path)

@[simp] theorem file_putHandle : (putHandle path h s).file path' = if path' = path then h else s.file path' := by
  unfold file
  split <;> simp [*]

def Sound (s : TocStore) : Prop := ∀ path, FDBFileHandle.Good s.dirty (s.file path)

/-- No byte is lost. -/
structure Grows (s t : TocStore) : Prop where
  disk : ∀ path, (s.disk path).getD [] <+: (t.disk path).getD []
  bytes : ∀ path, FDBFileHandle.bytes (s.file path) <+: FDBFileHandle.bytes (t.file path)

theorem Grows.refl (s : TocStore) : Grows s s := ⟨fun _ => List.prefix_rfl, fun _ => List.prefix_rfl⟩

theorem Grows.trans {u : TocStore} (h : Grows s t) (h' : Grows t u) : Grows s u :=
  ⟨fun path => (h.disk path).trans (h'.disk path), fun path => (h.bytes path).trans (h'.bytes path)⟩

theorem grows_putHandle (hnext : FDBFileHandle.Next s.dirty (s.file path) h) : Grows s (putHandle path h s) := by
  constructor <;> intro path'
  · by_cases heq : path' = path
    · subst heq
      simpa [file] using hnext.disk
    · simp [heq]
  · by_cases heq : path' = path
    · subst heq
      simpa using hnext.bytes
    · simp [heq]

theorem sound_putHandle (hs : s.Sound) (hnext : FDBFileHandle.Next s.dirty (s.file path) h) : (putHandle path h s).Sound := by
  intro path'
  by_cases heq : path' = path
  · subst heq
    simpa using hnext.good
  · simpa [heq] using hs path'

section Calls

open FDBFileHandle

variable {f : Flushing} {a : Archiving} {key : Key} {pre : List String}

/-- A call of a handle that keeps it sound. -/
theorem ends_onHandle_next {x : FDBFileHandle.Act α} {Q : α → Option DataBytes × FDBFileHandle → Prop} (hs : s.Sound)
    (hdeleted : (s.handle path).deleted = false)
    (hx : Ends x (s.file path) (fun a y => Next s.dirty (s.file path) y ∧ Q a y) fun _ => Next s.dirty (s.file path)) :
    Ends (onHandle path x) s
      (fun a t => t.Sound ∧ Grows s t ∧ ∃ y, t = putHandle path y s ∧ y.2.deleted = false ∧ Q a y)
      fun _ t => t.Sound ∧ Grows s t := by
  rw [ends_onHandle]
  refine ⟨fun h => by simp [hdeleted] at h, fun _ => ?_⟩
  apply hx.mono
  · rintro a y ⟨hnext, hq⟩
    exact ⟨sound_putHandle hs hnext, grows_putHandle hnext, y, rfl, hnext.deleted.trans hdeleted, hq⟩
  · intro _ y hnext
    exact ⟨sound_putHandle hs hnext, grows_putHandle hnext⟩

/-- Stores with the same files are as sound, and none has grown over the other. -/
theorem sound_congr (hs : s.Sound) (hfile : ∀ path, t.file path = s.file path) (hdirty : t.dirty = false → s.dirty = false) :
    t.Sound := by
  intro path
  rw [hfile]
  exact ⟨(hs path).pos, fun h => (hs path).clean (hdirty h)⟩

theorem grows_congr (hfile : ∀ path, t.file path = s.file path) : Grows s t := by
  constructor <;> intro path
  · have hdisk : t.disk path = s.disk path := congrArg Prod.fst (hfile path)
    exact hdisk ▸ List.prefix_rfl
  · exact hfile path ▸ List.prefix_rfl

theorem ends_getDataHandle {opens : Bool} {C : Prop} (hs : s.Sound) (hdeleted : (s.handle path).deleted = false)
    (hshort : ∀ stream ∈ (s.handle path).file, stream.short = true → C) :
    Ends (getDataHandle path opens) s
      (fun _ t => t.Sound ∧ Grows s t ∧ t.dirty = s.dirty ∧ (t.handle path).deleted = false ∧
        bytes (t.file path) = bytes (s.file path) ∧ ∀ stream ∈ (t.handle path).file, stream.short = true → C)
      fun _ t => t.Sound ∧ Grows s t := by
  unfold getDataHandle
  simp only [ends_bind, ends_get, ends_ite, ends_pure, ends_modify]
  refine ⟨fun _ => ⟨hs, .refl s, trivial, hdeleted, trivial, hshort⟩, fun hnew => ?_⟩
  let s' := { s with handles := s.handles.insert path {} }
  have hfile : ∀ path', s'.file path' = s.file path' := by
    intro path'
    by_cases heq : path' = path
    · subst heq
      simp [s', file, handle, hnew]
    · simp [s', file, handle, Std.ExtTreeMap.getElem?_insert, Ne.symm heq]
  have hs' : s'.Sound := sound_congr hs hfile id
  have hhandle : ∀ path', s'.handle path' = s.handle path' := fun path' => congrArg Prod.snd (hfile path')
  have hopen : Ends (onHandle path (openForAppend opens)) s' _ _ :=
    ends_onHandle_next hs' (by rw [hhandle]; exact hdeleted) (ends_openForAppend (hs' path))
  apply hopen.mono
  · rintro _ _ ⟨hsound, hgrows, y, rfl, hy, hbytes, hnot⟩
    refine ⟨hsound, (grows_congr hfile).trans hgrows, rfl, by simpa using hy, ?_, ?_⟩
    · rw [file_putHandle, if_pos rfl, hbytes, hfile]
    · intro stream hstream hshort
      rw [hnot stream (by simpa using hstream)] at hshort
      cases hshort
  · rintro _ u ⟨hsound, hgrows⟩
    exact ⟨hsound, (grows_congr hfile).trans hgrows⟩

theorem ends_getDataPath {unique : String} : Ends (getDataPath key unique) s
    (fun path t => s.dataPath key unique = .ok path ∧ (∀ p, t.file p = s.file p) ∧ t.dirty = s.dirty) fun _ t => t = s := by
  unfold getDataPath
  simp only [ends_bind, ends_modify, ends_get, ends_lift, ends_pure]
  refine ⟨fun path hpath => ⟨hpath, fun _ => ?_, ?_⟩, fun _ _ => trivial⟩ <;> split <;> rfl

/-- The end of `archive`, with the handle open. -/
theorem ends_place {w : Fwrite} (hs : s.Sound) (hdirty : s.dirty = true) (hdeleted : (s.handle path).deleted = false)
    (hshort : ∀ stream ∈ (s.handle path).file, stream.short = true → w.taken < data.length) :
    Ends (do
      let position ← onHandle path position
      let len ← onHandle path (write data w)
      ensure (len = data.length) "len == length"
      return (⟨path, position, data.length⟩ : DataLocation)) s
    (fun location t => t.Sound ∧ Grows s t ∧ path = location.path ∧ location.length = data.length ∧
      location.offset = (bytes (s.file path)).length ∧ bytes (t.file path) = bytes (s.file path) ++ data)
    fun _ t => t.Sound ∧ Grows s t := by
  rw [ends_bind, ends_onHandle]
  refine ⟨fun h => by simp [hdeleted] at h, fun _ => ?_⟩
  let s' := putHandle path (s.file path) s
  have hfile : ∀ p, s'.file p = s.file p := by
    intro p
    by_cases heq : p = path <;> simp [s', heq]
  have hs' : s'.Sound := sound_congr hs hfile id
  have hpos : data.length ≤ w.taken → ∀ stream ∈ (s.handle path).file, (s.handle path).pos = (bytes (s.file path)).length := by
    intro htaken stream hstream
    apply (hs path).pos stream hstream
    by_contra hnot
    have hpart := hshort stream hstream (by simpa using hnot)
    omega
  have hgood : Good true (s'.file path) := by
    rw [hfile, ← hdirty]
    exact hs path
  have hwrite : Ends (onHandle path (write data w)) s' _ _ := ends_onHandle_next hs' (by simpa [s', file] using hdeleted)
    (by rw [show s'.dirty = true from hdirty]; exact ends_write hgood)
  change Ends (onHandle path (write data w) >>= _) s' _ _
  rw [ends_bind]
  apply hwrite.mono
  · rintro len t ⟨ht, hgrows, y, rfl, -, rfl, hdata, hopen, htaken⟩
    obtain ⟨stream, hstream⟩ := Option.isSome_iff_exists.mp hopen
    rw [hfile] at hstream hdata
    simp only [ends_bind, ends_ensure, ends_pure]
    refine ⟨fun _ => ⟨ht, (grows_congr hfile).trans hgrows, trivial, trivial, hpos htaken stream hstream, ?_⟩, fun h => absurd trivial h⟩
    simpa using hdata
  · rintro _ t ⟨ht, hgrows⟩
    exact ⟨ht, (grows_congr hfile).trans hgrows⟩

/-- `archive` returns where the bytes of the file ended, and has put the field there. -/
theorem ends_archive (hs : s.Sound) (hsafe : ∀ path, s.dataPath key a.unique = .ok path →
      (s.handle path).deleted = false ∧
      ∀ stream ∈ (s.handle path).file, stream.short = true → a.fwrite.taken < data.length) :
    Ends (archive key data a) s
      (fun location t => t.Sound ∧ Grows s t ∧ location.length = data.length ∧
        location.offset = (bytes (s.file location.path)).length ∧
        bytes (t.file location.path) = bytes (s.file location.path) ++ data)
      fun _ t => t.Sound ∧ Grows s t := by
  unfold archive
  rw [ends_bind, ends_modify, ends_bind]
  let s₁ := { s with dirty := true }
  have hs₁ : s₁.Sound := sound_congr hs (fun _ => rfl) (by simp [s₁])
  have hg₁ : Grows s s₁ := grows_congr fun _ => rfl
  apply (ends_getDataPath (s := s₁)).mono
  · rintro path s₂ ⟨hpath, hfile₂, hdirty₂⟩
    have hs₂ : s₂.Sound := sound_congr hs₁ hfile₂ (by simp [hdirty₂])
    have hg₂ : Grows s s₂ := hg₁.trans (grows_congr hfile₂)
    have hhandle : s₂.handle path = s.handle path := congrArg Prod.snd (hfile₂ path)
    obtain ⟨hdeleted, hshort⟩ := hsafe path hpath
    rw [ends_bind]
    apply (ends_getDataHandle hs₂ (by rwa [hhandle]) (by rwa [hhandle])).mono
    · rintro _ s₃ ⟨hs₃, hg₃, hdirty₃, hdeleted₃, hbytes₃, hshort₃⟩
      have hd₃ : s₃.dirty = true := hdirty₃.trans (hdirty₂.trans rfl)
      have hg : Grows s s₃ := hg₂.trans hg₃
      have hbytes : bytes (s₃.file path) = bytes (s.file path) := hbytes₃.trans (congrArg bytes (hfile₂ path))
      have hplace := ends_place hs₃ hd₃ hdeleted₃ hshort₃
      apply hplace.mono
      · rintro location t ⟨ht, hgrows, rfl, hlength, hoffset, hdata⟩
        exact ⟨ht, hg.trans hgrows, hlength, by rw [hoffset, hbytes], by rw [hdata, hbytes]⟩
      · rintro _ t ⟨ht, hgrows⟩
        exact ⟨ht, hg.trans hgrows⟩
    · rintro _ s₃ ⟨hs₃, hg₃⟩
      exact ⟨hs₃, hg₂.trans hg₃⟩
  · rintro _ _ rfl
    exact ⟨hs₁, hg₁⟩

theorem file_of_not_mem (h : path ∉ s.handles) : (s.handle path).file = none := by
  simp [handle, h]

/-- A `flush` that returns leaves nothing waiting. -/
theorem ends_flush (hs : s.Sound) (hsafe : s.dirty = true → ∀ path ∈ s.handles, (s.handle path).deleted = false) :
    Ends (flush f) s (fun _ t => t.Sound ∧ Grows s t ∧ ∀ path, ∀ stream ∈ (t.handle path).file, stream.buffered = [])
      fun _ t => t.Sound ∧ Grows s t := by
  unfold flush flushDataHandles
  simp only [ends_bind, ends_get, ends_ite, ends_pure, ends_modify]
  refine ⟨fun hdirty => ⟨hs, .refl s, fun path => (hs path).clean hdirty⟩, fun hnot => ?_⟩
  have hdirty : s.dirty = true := by simpa using hnot
  let P (pre : List String) (t : TocStore) : Prop := t.Sound ∧ Grows s t ∧ t.dirty = true ∧
    (∀ path ∈ s.handles, (t.handle path).deleted = false) ∧
    ∀ path, path ∈ pre ∨ path ∉ s.handles → ∀ stream ∈ (t.handle path).file, stream.buffered = []
  have hloop : Ends (s.handles.keys.forM fun path => onHandle path (FDBFileHandle.flush (f path))) s
      (fun _ => P s.handles.keys) fun _ t => t.Sound ∧ Grows s t := by
    apply ends_forM_split
    · rintro pre path post hkeys t ⟨ht, hgrows, hd, hdeleted, hempty⟩
      have hpath : path ∈ s.handles := Std.ExtTreeMap.mem_keys.mp (by simp [hkeys])
      have hgood : Good true (t.file path) := hd ▸ ht path
      have hturn : Ends (onHandle path (FDBFileHandle.flush (f path))) t _ _ := ends_onHandle_next ht (hdeleted path hpath)
        (by rw [hd]; exact FDBFileHandle.ends_flush (f := f path) hgood)
      apply hturn.mono
      · rintro _ _ ⟨hu, hg, y, rfl, hy, hflushed⟩
        refine ⟨hu, hgrows.trans hg, hd, ?_, ?_⟩
        · intro path' hpath'
          by_cases heq : path' = path <;> simp [heq, hy, hdeleted path', hpath']
        · intro path' hpath' stream hstream
          by_cases heq : path' = path
          · exact hflushed stream (by simpa [heq] using hstream)
          · have hbefore : path' ∈ pre ∨ path' ∉ s.handles := by simpa [heq] using hpath'
            exact hempty path' hbefore stream (by simpa [heq] using hstream)
      · rintro _ u ⟨hu, hg⟩
        exact ⟨hu, hgrows.trans hg⟩
    · refine ⟨hs, .refl s, hdirty, hsafe hdirty, ?_⟩
      rintro path (hpath | hpath) stream hstream
      · cases hpath
      · simp [file_of_not_mem hpath] at hstream
  apply hloop.mono ?_ fun _ _ h => h
  rintro _ t ⟨ht, hgrows, -, -, hempty⟩
  have hall : ∀ path, ∀ stream ∈ (t.handle path).file, stream.buffered = [] := by
    intro path
    apply hempty
    by_cases hpath : path ∈ s.handles
    · exact .inl (Std.ExtTreeMap.mem_keys.mpr hpath)
    · exact .inr hpath
  exact ⟨fun path => ⟨(ht path).pos, fun _ => hall path⟩, hgrows.trans (grows_congr fun _ => rfl), hall⟩

/-- A turn of `closeDataHandles`. -/
theorem ends_closeDataHandle (hs : s.Sound) (hdeleted : (s.handle path).deleted = false)
    (hlost : ∀ stream ∈ (s.handle path).file, ∀ n ∈ (f path).fails, stream.buffered.length ≤ n) :
    Ends (closeDataHandle f path) s
      (fun _ t => t.Sound ∧ Grows s t ∧ (t.handle path).file = none ∧ ∀ p, p ≠ path → t.handle p = s.handle p)
      fun _ t => t.Sound ∧ Grows s t := by
  unfold closeDataHandle
  rw [ends_bind]
  apply (ends_onHandle_next hs hdeleted (FDBFileHandle.ends_close (hs path) hlost)).mono ?_ fun _ _ h => h
  rintro _ t ⟨ht, hgrows, y, hy, -, hclosed⟩
  rw [ends_modify]
  let u := { t with handles := t.handles.insert path { t.handle path with deleted := true } }
  have hpath : u.handle path = { t.handle path with deleted := true } := by simp [u, handle]
  have hother : ∀ p, p ≠ path → u.handle p = t.handle p := by
    intro p hp
    simp [u, handle, Std.ExtTreeMap.getElem?_insert, hp.symm]
  have hu : u.Sound := by
    intro p
    by_cases hp : p = path
    · subst hp
      have hgood : Good t.dirty (u.disk p, { t.handle p with deleted := true }) := ⟨(ht p).pos, (ht p).clean⟩
      rwa [file, hpath]
    · rw [file, hother p hp]
      exact ht p
  have hgrows' : Grows t u := by
    refine ⟨fun _ => List.prefix_rfl, fun p => ?_⟩
    have hbytes : bytes (u.file p) = bytes (t.file p) := by
      by_cases hp : p = path
      · subst hp
        rw [file, file, hpath]
        rfl
      · rw [file, file, hother p hp]
    exact hbytes ▸ List.prefix_rfl
  refine ⟨hu, hgrows.trans hgrows', ?_, ?_⟩
  · rw [hpath, hy]
    simpa using hclosed
  · intro p hp
    rw [hother p hp, hy]
    simp [hp]

/-- A `close` that fails nowhere with bytes lost. -/
theorem ends_close (hs : s.Sound) (hsafe : ∀ path ∈ s.handles, (s.handle path).deleted = false ∧
      ∀ stream ∈ (s.handle path).file, ∀ n ∈ (f path).fails, stream.buffered.length ≤ n) :
    Ends (close f) s (fun _ t => t.Sound ∧ Grows s t) fun _ t => t.Sound ∧ Grows s t := by
  unfold close closeDataHandles
  rw [ends_bind, ends_get, ends_bind]
  let P (pre : List String) (t : TocStore) : Prop := t.Sound ∧ Grows s t ∧ (∀ path ∉ pre, t.handle path = s.handle path) ∧
    ∀ path, path ∈ pre ∨ path ∉ s.handles → (t.handle path).file = none
  have hloop : Ends (s.handles.keys.forM (closeDataHandle f)) s (fun _ => P s.handles.keys) fun _ t => t.Sound ∧ Grows s t := by
    apply ends_forM_split
    · rintro pre path post hkeys t ⟨ht, hgrows, hsame, hclosed⟩
      have hpath : path ∈ s.handles := Std.ExtTreeMap.mem_keys.mp (by simp [hkeys])
      have hnew : path ∉ pre := by
        have hnodup : s.handles.keys.Nodup := Std.ExtTreeMap.nodup_keys
        rw [hkeys, List.nodup_append] at hnodup
        exact fun hmem => hnodup.2.2 path hmem path (by simp) rfl
      obtain ⟨hdeleted, hlost⟩ := hsafe path hpath
      rw [← hsame path hnew] at hdeleted hlost
      apply (ends_closeDataHandle ht hdeleted hlost).mono
      · rintro _ u ⟨hu, hg, hnone, hother⟩
        refine ⟨hu, hgrows.trans hg, ?_, ?_⟩
        · intro p hp
          obtain ⟨hpre, hne⟩ : p ∉ pre ∧ p ≠ path := by simpa using hp
          rw [hother p hne, hsame p hpre]
        · intro p hp
          by_cases heq : p = path
          · rw [heq, hnone]
          · rw [hother p heq]
            exact hclosed p (by simpa [heq] using hp)
      · rintro _ u ⟨hu, hg⟩
        exact ⟨hu, hgrows.trans hg⟩
    · refine ⟨hs, .refl s, fun _ _ => rfl, ?_⟩
      rintro path (hpath | hpath)
      · cases hpath
      · exact file_of_not_mem hpath
  apply hloop.mono ?_ fun _ _ h => h
  rintro _ t ⟨ht, hgrows, -, hclosed⟩
  rw [ends_modify]
  have hnone : ∀ path, (t.handle path).file = none := by
    intro path
    apply hclosed
    by_cases hpath : path ∈ s.handles
    · exact .inl (Std.ExtTreeMap.mem_keys.mpr hpath)
    · exact .inr hpath
  refine ⟨fun path => ⟨by simp [file, handle], by simp [file, handle]⟩, hgrows.trans ⟨fun _ => List.prefix_rfl, fun path => ?_⟩⟩
  have hbytes : bytes (t.file path) = (t.disk path).getD [] := by
    simp [bytes, file, hnone path]
  rw [hbytes]
  simp [bytes, file, handle]

end Calls

end TocStore

namespace StoreRun

variable {s : StoreRun} {call : StoreCall} {calls : List StoreCall}

/-- The store is sound, each returned range has its bytes, and the ranges are disjoint. -/
structure Holds (s : StoreRun) : Prop where
  sound : s.store.Sound
  known : ∀ field ∈ s.returned, field.location.length = field.data.length ∧
    ReadsAt (FDBFileHandle.bytes (s.store.file field.location.path)) field.location.offset field.data
  disjoint : (s.returned.map StoredField.location).Pairwise Disjoint

theorem holds_grows {t : TocStore} (h : s.Holds) (ht : t.Sound) (hgrows : TocStore.Grows s.store t) :
    Holds { s with store := t } where
  sound := ht
  known field hfield := ⟨(h.known field hfield).1, (h.known field hfield).2.extend (hgrows.bytes _)⟩
  disjoint := h.disjoint

/-- What a safe step keeps. -/
theorem holds_step (h : s.Holds) (hsafe : s.Safe call) : (s.step call).Holds ∧ TocStore.Grows s.store (s.step call).store := by
  cases call with
  | archive key data a =>
    have hends : Ends (TocStore.archive key data a) s.store _ _ := TocStore.ends_archive h.sound hsafe
    rw [step]
    cases hrun : (TocStore.archive key data a).run s.store with
    | error e t =>
      obtain ⟨ht, hgrows⟩ := hends.error hrun
      exact ⟨holds_grows h ht hgrows, hgrows⟩
    | ok location t =>
      obtain ⟨ht, hgrows, hlength, hoffset, hdata⟩ := hends.ok hrun
      have hold := holds_grows h ht hgrows
      refine ⟨⟨ht, ?_, ?_⟩, hgrows⟩
      · intro field hfield
        rcases List.mem_append.mp hfield with hfield | hfield
        · exact hold.known field hfield
        · obtain rfl := List.mem_singleton.mp hfield
          refine ⟨hlength, ?_⟩
          rw [hdata, hoffset]
          exact readsAt_end
      · rw [List.map_append, List.pairwise_append]
        refine ⟨h.disjoint, List.pairwise_singleton _ _, ?_⟩
        intro l hl l' hl' hpath
        obtain ⟨field, hfield, rfl⟩ := List.mem_map.mp hl
        obtain rfl : l' = location := by simpa using hl'
        obtain ⟨hfits, hreads, -⟩ := h.known field hfield
        rw [hpath] at hreads
        exact .inl (by omega)
  | flush f =>
    have hends : Ends (TocStore.flush f) s.store (fun _ t => t.Sound ∧ TocStore.Grows s.store t)
        fun _ t => t.Sound ∧ TocStore.Grows s.store t :=
      (TocStore.ends_flush h.sound hsafe).mono (fun _ _ h => ⟨h.1, h.2.1⟩) fun _ _ h => h
    obtain ⟨ht, hgrows⟩ := hends.final
    exact ⟨holds_grows h ht hgrows, hgrows⟩
  | close f =>
    obtain ⟨ht, hgrows⟩ := (TocStore.ends_close (f := f) h.sound hsafe).final
    exact ⟨holds_grows h ht hgrows, hgrows⟩

/-- After a flush that has returned, the bytes of each field are in the file. -/
theorem readsBack_of_flush (h : s.Holds) (hsafe : s.Safe call) (hreturns : s.FlushReturns call) :
    (s.step call).ReadsBack s.returned := by
  cases call with
  | flush f =>
    obtain ⟨t, hrun⟩ := hreturns
    obtain ⟨ht, hgrows, hempty⟩ := (TocStore.ends_flush h.sound hsafe).ok hrun
    intro field hfield
    obtain ⟨hlength, hreads⟩ := (holds_grows h ht hgrows).known field hfield
    have hbytes : ∀ path, FDBFileHandle.bytes (t.file path) = (t.disk path).getD [] := by
      intro path
      cases hfile : (t.handle path).file with
      | none => simp [FDBFileHandle.bytes, TocStore.file, hfile]
      | some stream => simp [FDBFileHandle.bytes, TocStore.file, hfile, contents, hempty path stream hfile]
    rw [step, hrun]
    refine ⟨hlength, ?_⟩
    rw [hbytes] at hreads
    exact hreads
  | _ => exact hreturns.elim

theorem holds_run {u : TocStore} (h : s.Holds) (hgrows : TocStore.Grows u s.store) (hsafe : Follows.Each Safe step s calls) :
    ∀ pre post, calls = pre ++ post → (pre.foldl step s).Holds ∧ TocStore.Grows u (pre.foldl step s).store := by
  let R (_ : List StoreCall) (_ : Unit) (t : StoreRun) : Prop := t.Holds ∧ TocStore.Grows u t.store
  have hR : R calls () s := ⟨h, hgrows⟩
  have hstep : ∀ call ∈ calls, ∀ post (_ : Unit) t, R (call :: post) () t → Safe t call → R post () (t.step call) := by
    rintro call - post - t ⟨ht, hg⟩ hcall
    obtain ⟨hnext, hg'⟩ := holds_step ht hcall
    exact ⟨hnext, hg.trans hg'⟩
  exact Follows.follows (f := fun (_ : Unit) (_ : StoreCall) => ()) (R := R) (s := ()) hstep hR hsafe

/-- A run of safe steps keeps the ranges apart, and every flush that returns makes the fields before it readable. -/
theorem ranges_exact {directory : String} {disk : String → Option DataBytes}
    (h : Follows.Each Safe step ⟨{ directory, disk }, []⟩ calls) : Exact ⟨{ directory, disk }, []⟩ calls := by
  have hstart : Holds ⟨{ directory, disk }, []⟩ :=
    ⟨fun path => ⟨by simp [TocStore.file, TocStore.handle], by simp [TocStore.file, TocStore.handle]⟩, by simp, by simp⟩
  have hrun := holds_run hstart (.refl _) h
  constructor
  · intro pre post heq
    exact (hrun pre post heq).1.disjoint
  · intro pre call mid post heq hreturns
    obtain ⟨hpre, -⟩ := hrun pre (call :: mid ++ post) (by simpa using heq)
    have hsafe := h pre call (mid ++ post) (by simpa using heq)
    obtain ⟨hcall, -⟩ := holds_step hpre hsafe
    have hreads := readsBack_of_flush hpre hsafe hreturns
    have hmid : Follows.Each Safe step ((pre ++ [call]).foldl step ⟨{ directory, disk }, []⟩) (mid ++ post) := by
      apply Follows.Each.suffix
      simpa [heq] using h
    rw [List.foldl_append] at hmid
    obtain ⟨-, hgrows⟩ := holds_run hcall (.refl _) hmid mid post rfl
    intro field hfield
    obtain ⟨hlength, hread⟩ := hreads field hfield
    rw [List.foldl_append, List.foldl_cons]
    exact ⟨hlength, hread.extend (hgrows.disk _)⟩

end StoreRun

/-- An index key, and the store of a new database. -/
def stepKey : Key := { keys := (∅ : StringDict).insert "step" "0", names := ["step"], canonical := true }

def newStore : StoreRun := ⟨{ directory := "/db", disk := fun _ => none }, []⟩

/-- A write fails with a byte taken, the file is closed, and opened again by the next archive. -/
def reopened : List StoreCall :=
  [.archive stepKey [1, 2, 3] ⟨".0", true, ⟨3, 2⟩⟩, .archive stepKey [4, 5, 6] ⟨".1", true, ⟨1, 0⟩⟩, .close fun _ => {},
    .archive stepKey [7, 8, 9] ⟨".2", true, ⟨3, 0⟩⟩, .flush fun _ => {}]

theorem ranges_exact_reopened : (reopened.foldl StoreRun.step newStore).returned.map StoredField.location =
      [⟨"/db/0.0.data", 0, 3⟩, ⟨"/db/0.0.data", 4, 3⟩] ∧
    StoreRun.Exact newStore reopened :=
  ⟨by decide +kernel, StoreRun.ranges_exact (by decide +kernel)⟩

/-- The next archive comes before the file is closed. -/
def writtenOn : List StoreCall :=
  [.archive stepKey [1, 2, 3] ⟨".0", true, ⟨3, 2⟩⟩, .archive stepKey [4, 5, 6] ⟨".1", true, ⟨1, 0⟩⟩,
    .archive stepKey [7, 8, 9] ⟨".2", true, ⟨3, 0⟩⟩, .close fun _ => {}, .flush fun _ => {}]

/-- A flush returns, and the last field that was archived reads as other bytes. -/
theorem range_displaced : ¬ StoreRun.Exact newStore writtenOn := by
  intro h
  have hreturns : (writtenOn.dropLast.foldl StoreRun.step newStore).FlushReturns (.flush fun _ => {}) := ⟨_, rfl⟩
  have hreads := h.reads writtenOn.dropLast (.flush fun _ => {}) [] [] rfl hreturns
  have hfield := hreads ⟨⟨"/db/0.0.data", 3, 3⟩, [7, 8, 9]⟩ (by decide +kernel)
  revert hfield
  decide +kernel

end Fdb5
