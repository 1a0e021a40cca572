import Mathlib.Data.List.Dedup
import Fdb5.Toc.Enumerate
import Fdb5.Toc.Writer

/-! A database as the tools see it: requests, control files, and the files of its directory. -/
namespace Fdb5

open Effect

/-- The parameters of a request, with their values. -/
structure MarsRequest where
  params : List (String × List String)

namespace MarsRequest

/-- `values(name, emptyOk)`. -/
def values (rq : MarsRequest) (name : String) : List String := (rq.params.lookup name).getD []

def unsetValues (rq : MarsRequest) (name : String) : MarsRequest :=
  ⟨rq.params.filter fun p => p.1 ≠ name⟩

end MarsRequest

namespace Key

/-- `Key::match(request)`: each parameter is a keyword of the key, whose value is among its own. -/
def matchRequest (k : Key) (rq : MarsRequest) : Bool :=
  rq.params.all fun p =>
    match k.find p.1 with
    | none => false
    | some value => value ∈ rq.values p.1

def partialMatch (k : Key) (rq : MarsRequest) : Bool :=
  k.keys.toList.all fun kv => (rq.values kv.1).isEmpty || kv.2 ∈ rq.values kv.1

end Key

namespace Disk

/-- The files of a directory, as `StdDir::children` lists them. -/
def children (d : Disk) (directory : String) : List PathName :=
  (d.writes.map Write.path).dedup.filter fun p => p.dirName = directory ∧ d.pathExists p

/-- The directory itself, among its files. -/
def directoryPath (directory : String) : PathName := ⟨directory, ⟨"", none, ""⟩⟩

def onDirectory (directory : String) (found : Bool) : Write → Bool
  | .remove p => if p = directoryPath directory then false else found
  | w => if w.path.dirName = directory then true else found

/-- `PathName::exists()` of a directory, which is made with its first file. -/
def directoryExists (d : Disk) (directory : String) : Bool :=
  d.writes.foldl (onDirectory directory) false || !(d.children directory).isEmpty

/-- `PathName::unlink()`, for which a file that is missing is no error. -/
def unlink (p : PathName) : EStateM Failure Disk Unit := do
  syscall "unlink"
  modify fun d => d.append (.remove p)

/-- `PathName::rmdir()`. -/
def rmdir (directory : String) : EStateM Failure Disk Unit := do
  syscall "rmdir"
  if (← get).children directory = [] then modify fun d => d.append (.remove (directoryPath directory))
  else throw (.system "rmdir")

section Children

variable {d : Disk} {p : PathName} {directory : String}

theorem mem_paths_of_pathExists (h : d.pathExists p = true) : p ∈ d.writes.map Write.path := by
  induction d using induction_on with
  | empty => cases h
  | append d w ih =>
    rw [pathExists_append] at h
    rw [append, List.map_append, List.mem_append]
    by_cases hp : w.path = p
    · exact .inr (by simp [hp])
    · refine .inl (ih ?_)
      cases w <;> simp only [Write.path] at hp <;> simpa [Write.onExists, Write.path, hp] using h

theorem mem_children :
    p ∈ d.children directory ↔ p.dirName = directory ∧ d.pathExists p = true := by
  simp only [children, List.mem_filter, List.mem_dedup, decide_eq_true_eq, and_iff_right_iff_imp]
  exact fun h => mem_paths_of_pathExists h.2

end Children

end Disk

inductive ControlIdentifier where
  | list
  | retrieve
  | archive
  | wipe
  | uniqueRoot

/-- `controlfile_lookup`. -/
def ControlIdentifier.controlFile : ControlIdentifier → BaseName
  | list => ⟨"list", none, ".lock"⟩
  | retrieve => ⟨"retrieve", none, ".lock"⟩
  | archive => ⟨"archive", none, ".lock"⟩
  | wipe => ⟨"wipe", none, ".lock"⟩
  | uniqueRoot => ⟨"duplicates", none, ".allow"⟩

/-- What `RootManager::directory(key)` answers. -/
structure TocPath where
  directory : String
  enabled : ControlIdentifier → Bool

inductive ControlAction where
  | disable
  | enable

namespace TocHandler

/-- `fullControlFilePath(name)`. -/
def controlFilePath (directory : String) (identifier : ControlIdentifier) : PathName :=
  ⟨directory, identifier.controlFile⟩

def createControlFile (directory : String) (identifier : ControlIdentifier) :
    EStateM Failure Disk Unit := do
  let path := controlFilePath directory identifier
  if (← get).pathExists path then pure () else Disk.write (.data path 0)

def removeControlFile (directory : String) (identifier : ControlIdentifier) :
    EStateM Failure Disk Unit := do
  let path := controlFilePath directory identifier
  if (← get).pathExists path then Disk.unlink path else pure ()

def control (directory : String) (action : ControlAction) (identifiers : List ControlIdentifier) :
    EStateM Failure Disk Unit :=
  identifiers.forM fun identifier =>
    match action with
    | .disable => createControlFile directory identifier
    | .enable => removeControlFile directory identifier

def enabled (d : Disk) (directory : String) (identifier : ControlIdentifier) : Bool :=
  d.pathExists (controlFilePath directory identifier) = false

def lockfilePaths (d : Disk) (directory : String) : List PathName :=
  ([.retrieve, .archive, .list, .wipe].map (controlFilePath directory)).filter fun p => d.pathExists p

/-- `buildClearRecord(r, index)`. -/
def buildClearRecord (idx : TocIndex BTreeHandle) : TocRecord :=
  .clear (.relative idx.path.baseName) idx.offset

end TocHandler

/-- A database opened for reading. The file system has one `realName()` for all names of a directory, and the
database's directory has its own. -/
structure TocCatalogue where
  directory : String
  version : Nat
  depth : Nat
  realName : String → String := id
  realName_directory : realName directory = directory

namespace TocCatalogue

open TocHandler

/-- A directory that has only its own name. -/
def plain (directory : String) (version depth : Nat) : TocCatalogue := ⟨directory, version, depth, id, rfl⟩

variable (c : TocCatalogue)

/-- `path.dirName().sameAs(basePath())`. -/
def isOwn (p : PathName) : Bool := c.realName p.dirName = c.realName c.directory

/-- The file that a path leads to. -/
def real (p : PathName) : PathName := ⟨c.realName p.dirName, p.baseName⟩

theorem isOwn_iff {c : TocCatalogue} {p : PathName} : c.isOwn p = true ↔ (c.real p).dirName = c.directory := by
  rw [isOwn, c.realName_directory, decide_eq_true_iff]
  rfl

theorem real_eq {c : TocCatalogue} {p : PathName} (h : p.dirName = c.directory) : c.real p = p := by
  rw [real, h, c.realName_directory, ← h]

theorem isOwn_of {c : TocCatalogue} {p : PathName} (h : p.dirName = c.directory) : c.isOwn p = true :=
  isOwn_iff.mpr ((congrArg PathName.dirName (real_eq h)).trans h)

abbrev tocPath : PathName := TocHandler.tocPath c.directory

abbrev schemaPath : PathName := TocHandler.schemaPath c.directory

/-- `indexes()`. -/
def indexes (d : Disk) : Except Failure (List (TocIndex BTreeHandle)) := do
  return (← loadIndexes d c.version c.depth c.tocPath).map Prod.fst

/-- `allMasked(metadata, data)`. -/
def allMasked (d : Disk) : Except Failure (List (PathName × Nat) × List URI) :=
  enumerateMasked d c.version c.depth c.tocPath {}

def maskIndexEntry (idx : TocIndex BTreeHandle) : EStateM Failure Disk Unit :=
  appendBlock c.tocPath [buildClearRecord idx]

/-- Whether `visitableLocations` lists the database, whose directory the configuration leads to. -/
def located (d : Disk) (rq : MarsRequest) : Bool :=
  match d.toc c.tocPath with
  | none => false
  | some log =>
    match databaseKey log with
    | .ok key => key.partialMatch rq
    | .error _ => false

/-- `DB::buildReader(uri)` and `open()`, which loads the schema. -/
def openReader (d : Disk) : Except Failure Key := do
  match d.toc c.tocPath with
  | none => throw (.system "open")
  | some log =>
    let key ← databaseKey log
    let _ ← loadIndexes d c.version c.depth c.tocPath
    match d.schema c.schemaPath with
    | none => throw (.system "open")
    | some _ => return key

variable {c} {d : Disk} {key : Key}

theorem openReader_ok : c.openReader d = .ok key ↔ ∃ log, d.toc c.tocPath = some log ∧
    databaseKey log = .ok key ∧ (∃ l, loadIndexes d c.version c.depth c.tocPath = .ok l) ∧
      ∃ schema, d.schema c.schemaPath = some schema := by
  rw [openReader]
  cases d.toc c.tocPath with
  | none => simp
  | some log =>
    cases d.schema c.schemaPath with
    | none => simp
    | some schema =>
      simp only [except_bind_ok, except_pure_ok, Option.some.injEq, exists_eq_left', exists_eq', and_true]
      constructor
      · rintro ⟨k, hk, l, hl, rfl⟩
        exact ⟨hk, l, hl⟩
      · rintro ⟨hk, l, hl⟩
        exact ⟨key, hk, l, hl, rfl⟩

theorem toc_of_openReader (h : c.openReader d = .ok key) :
    ∃ log, d.toc c.tocPath = some log ∧ databaseKey log = .ok key := by
  obtain ⟨log, hlog, hkey, -⟩ := openReader_ok.mp h
  exact ⟨log, hlog, hkey⟩

end TocCatalogue

end Fdb5
