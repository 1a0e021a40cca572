import Mathlib.Data.List.DropRight
import Mathlib.Data.List.Induction
import Fdb5.Rules.Schema
import Fdb5.Toc.Index

/-! The file system under a database, as the writes it received, and the B-tree index files. -/
namespace Fdb5

open Effect

inductive TocRecord where
  | init (key : Key)
  | index (path : BaseName) (offset : Nat) (index : EncodedIndex)
  | subToc (path : StoredPath)
  | clear (path : StoredPath) (offset : Nat)
  | clearAll

namespace BTreeKey

/-- The key without the zeros at its end, which are not told from the padding. -/
def text (key : String) : String := String.ofList (key.toList.rdropWhile (· = Char.ofNat 0))

/-- `eckit::FixedString<32>` of a key, as the text in it. -/
def ofString (key : String) : Except Failure String := do
  assert (key.utf8ByteSize ≤ 32) "s.length() <= SIZE"
  return text key

end BTreeKey

/-- The entries of one B-tree segment. -/
abbrev Pages := Std.ExtTreeMap String FieldRef

inductive Write where
  | toc (path : PathName) (record : TocRecord)
  | segment (path : PathName) (offset : Nat) (pages : Pages)
  | data (path : PathName) (length : Nat)
  | schema (path : PathName) (schema : Schema)
  | remove (path : PathName)

namespace Write

/-- The file that a write is about. -/
def path : Write → PathName
  | toc path _ | segment path _ _ | data path _ | schema path _ | remove path => path

def onExists (p : PathName) (found : Bool) : Write → Bool
  | remove q => if q = p then false else found
  | w => if w.path = p then true else found

def onToc (p : PathName) (log : Option (List TocRecord)) : Write → Option (List TocRecord)
  | toc q r => if q = p then some (log.getD [] ++ [r]) else log
  | remove q => if q = p then none else log
  | _ => log

def onSegment (p : PathName) (offset : Nat) (pages : Option Pages) : Write → Option Pages
  | segment q o pages' => if q = p ∧ o = offset then some pages' else pages
  | remove q => if q = p then none else pages
  | _ => pages

def onSize (p : PathName) (size : Nat) : Write → Nat
  | segment q o pages => if q = p then max size (o + (pages.size + 1)) else size
  | remove q => if q = p then 0 else size
  | _ => size

def onData (p : PathName) (length : Option Nat) : Write → Option Nat
  | data q n => if q = p then some n else length
  | remove q => if q = p then none else length
  | _ => length

def onSchema (p : PathName) (schema : Option Schema) : Write → Option Schema
  | .schema q s => if q = p then some s else schema
  | remove q => if q = p then none else schema
  | _ => schema

end Write

/-- `faults` tells which of the next system calls fail; after its end none does. -/
structure Disk where
  writes : List Write := []
  stamp : Nat := 0
  faults : List Bool := []

namespace Disk

def append (d : Disk) (w : Write) : Disk := { d with writes := d.writes ++ [w] }

/-- `PathName::exists()`. -/
def pathExists (d : Disk) (p : PathName) : Bool := d.writes.foldl (Write.onExists p) false

/-- The records of a toc file. -/
def toc (d : Disk) (p : PathName) : Option (List TocRecord) := d.writes.foldl (Write.onToc p) none

/-- A segment of an index file. -/
def segment (d : Disk) (p : PathName) (offset : Nat) : Option Pages :=
  d.writes.foldl (Write.onSegment p offset) none

/-- `PathName::size()` of an index file: a header and its entries for each segment. -/
def size (d : Disk) (p : PathName) : Nat := d.writes.foldl (Write.onSize p) 0

/-- The bytes that a data file holds. -/
def data (d : Disk) (p : PathName) : Option Nat := d.writes.foldl (Write.onData p) none

def schema (d : Disk) (p : PathName) : Option Schema := d.writes.foldl (Write.onSchema p) none

section Append

variable (d : Disk) (w : Write) (p : PathName)

@[simp] theorem pathExists_append : (d.append w).pathExists p = w.onExists p (d.pathExists p) := by
  simp [pathExists, append]

@[simp] theorem toc_append : (d.append w).toc p = w.onToc p (d.toc p) := by
  simp [toc, append]

@[simp] theorem segment_append (offset : Nat) :
    (d.append w).segment p offset = w.onSegment p offset (d.segment p offset) := by
  simp [segment, append]

@[simp] theorem size_append : (d.append w).size p = w.onSize p (d.size p) := by
  simp [size, append]

@[simp] theorem data_append : (d.append w).data p = w.onData p (d.data p) := by
  simp [data, append]

@[simp] theorem schema_append : (d.append w).schema p = w.onSchema p (d.schema p) := by
  simp [schema, append]

end Append

/-- What holds of every disk without writes and is kept by each write holds of every disk. -/
theorem induction_on {P : Disk → Prop} (d : Disk)
    (empty : ∀ stamp faults, P { writes := [], stamp, faults })
    (append : ∀ d w, P d → P (d.append w)) : P d := by
  obtain ⟨writes, stamp, faults⟩ := d
  induction writes using List.reverseRecOn with
  | nil => exact empty stamp faults
  | append_singleton ws w ih => exact append ⟨ws, stamp, faults⟩ w ih

/-- A system call, which may fail. -/
def syscall (call : String) : EStateM Failure Disk Unit := do
  let d ← get
  match d.faults with
  | [] => pure ()
  | fault :: faults =>
    set { d with faults }
    if fault then throw (.system call) else pure ()

def write (w : Write) : EStateM Failure Disk Unit := do
  syscall "write"
  modify fun d => d.append w

/-- `PathName::unique(directory / stem)`, with an extension put after it. -/
def unique (directory stem extension : String) : EStateM Failure Disk PathName := do
  let d ← get
  set { d with stamp := d.stamp + 1 }
  return ⟨directory, ⟨stem, some d.stamp, extension⟩⟩

end Disk

/-- An open `TBTreeIndex`: its pages are written back on a flush and at the end. -/
structure BTreeHandle where
  path : PathName
  readOnly : Bool
  offset : Nat
  pages : Pages
  dirty : Bool := false

namespace TBTreeIndex

/-- The `BTree` constructor, which writes an empty segment where it finds none. -/
def build (path : PathName) (readOnly : Bool) (offset : Nat) : EStateM Failure Disk BTreeHandle := do
  Disk.syscall "open"
  match (← get).segment path offset with
  | some pages => return { path, readOnly, offset, pages }
  | none =>
    if readOnly then throw (.system "open")
    else
      Disk.write (.segment path offset ∅)
      return { path, readOnly, offset, pages := ∅ }

protected def get (h : BTreeHandle) (key : String) : EStateM Failure Disk (Option FieldRef) := do
  return h.pages[← lift (BTreeKey.ofString key)]?

def set (key : String) (ref : FieldRef) : EStateM Failure (BTreeHandle × Disk) Unit := do
  let k ← lift (BTreeKey.ofString key)
  onSnd (Disk.syscall "write")
  modify fun s => ({ s.1 with pages := s.1.pages.insert k ref, dirty := true }, s.2)

def flush : EStateM Failure (BTreeHandle × Disk) Unit := do
  let h ← (·.1) <$> get
  if h.dirty then
    onSnd (Disk.write (.segment h.path h.offset h.pages))
    modify fun s => ({ s.1 with dirty := false }, s.2)
  else pure ()

/-- `BTree::~BTree()`: an exception leaving a destructor ends the process. -/
def destroy (h : BTreeHandle) : EStateM Failure Disk Unit := fun d =>
  match flush.run (h, d) with
  | .ok _ t => .ok () t.2
  | .error _ t => .error .terminate t.2

end TBTreeIndex

/-- The B-tree backend on files. -/
def TBTreeIndex : BTreeIndex Disk BTreeHandle where
  build := TBTreeIndex.build
  get := TBTreeIndex.get
  set := TBTreeIndex.set
  flush := TBTreeIndex.flush
  destroy := TBTreeIndex.destroy
  size path := do
    Disk.syscall "stat"
    return (← get).size path

end Fdb5
