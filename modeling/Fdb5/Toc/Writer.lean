import Fdb5.Toc.Handler

/-! Writing a toc, and the catalogue writer with its indexes. -/
namespace Fdb5

open Effect

namespace TocHandler

def tocPath (directory : String) : PathName := ⟨directory, ⟨"toc", none, ""⟩⟩

def schemaPath (directory : String) : PathName := ⟨directory, ⟨"schema", none, ""⟩⟩

def openForAppend (toc : PathName) : EStateM Failure Disk Unit := do
  Disk.syscall "open"
  if (← get).pathExists toc then pure () else throw (.system "open")

/-- Opens a toc and appends one record. -/
def append (toc : PathName) (record : TocRecord) : EStateM Failure Disk Unit := do
  openForAppend toc
  Disk.write (.toc toc record)

/-- `appendBlock(data, size)`: all records in one write. -/
def appendBlock (toc : PathName) (records : List TocRecord) : EStateM Failure Disk Unit := do
  openForAppend toc
  Disk.syscall "write"
  modify fun d => records.foldl (fun d r => d.append (.toc toc r)) d

/-- `writeInitRecord(key)`: the toc of a database is given a copy of the schema first. -/
def writeInitRecord (toc : PathName) (isSubToc : Bool) (schema : Schema) (key : Key) :
    EStateM Failure Disk Unit := do
  Disk.syscall "open"
  match (← get).toc toc with
  | some (.init stored :: _) => ensure (key.keys = stored.keys) "key == Key(s)"
  | some (_ :: _) => throw (.assertion "r->header_.tag_ == TocRecord::TOC_INIT")
  | none | some [] =>
    if isSubToc then pure ()
    else Disk.write (.schema (schemaPath toc.dirName) schema)
    Disk.write (.toc toc (.init (← lift key.encode)))

def buildIndexRecord (version : Nat) (idx : TocIndex BTreeHandle) : Except Failure TocRecord := do
  return .index idx.path.baseName idx.offset (← idx.encode version)

/-- `writeIndexRecord(index)` of the toc that is written to. -/
def appendIndex (toc : PathName) (version : Nat) (idx : TocIndex BTreeHandle) :
    EStateM Failure Disk Unit := do
  openForAppend toc
  Disk.write (.toc toc (← lift (buildIndexRecord version idx)))

/-- `buildSubTocMaskRecord(r, path)`: the offset of a sub-toc is always zero. -/
def buildSubTocMaskRecord (directory : String) (subToc : PathName) : TocRecord :=
  .clear (.of directory subToc) 0

end TocHandler

/-- The order of `std::map<Key, ..>`: keywords and values in turn. -/
def Key.order (k : Key) : List String := k.keys.toList.flatMap fun kv => [kv.1, kv.2]

abbrev IndexStore := Std.ExtTreeMap (List String) (TocIndex BTreeHandle)

namespace IndexStore

/-- A method of a stored index. -/
def onIndex (k : List String) (x : EStateM Failure (TocIndex BTreeHandle × Disk) Unit) :
    EStateM Failure (IndexStore × Disk) Unit := fun s =>
  match s.1[k]? with
  | none => .error (.undefinedBehaviour "null Index") s
  | some idx => (focus (fun s : IndexStore × Disk => (idx, s.2))
      (fun t s => (s.1.insert k t.1, t.2)) x).run s

/-- Adds the index of a key unless the store has it; its file gets a name of its own. -/
def make (directory : String) (key : Key) : EStateM Failure (IndexStore × Disk) Unit := do
  if key.order ∈ (← get).1 then pure ()
  else
    let stem ← lift key.valuesToString
    let path ← onSnd (Disk.unique directory stem ".index")
    modify fun s => (s.1.insert key.order (TocIndex.create key path), s.2)

end IndexStore

/-- The current indexes are given by their place in the stores. -/
structure TocCatalogueWriter where
  directory : String
  version : Nat
  schema : Schema
  useSubToc : Bool
  subTocWrite : Option PathName := none
  indexes : IndexStore := ∅
  fullIndexes : IndexStore := ∅
  current : Option (List String) := none
  currentFull : Option (List String) := none
  currentIndexKey : Key := {}
  dirty : Bool := false

abbrev WriterM := EStateM Failure (TocCatalogueWriter × Disk)

namespace TocCatalogueWriter

def tocPath (w : TocCatalogueWriter) : PathName := TocHandler.tocPath w.directory

def onIndexes {α : Type} (x : EStateM Failure (IndexStore × Disk) α) : WriterM α :=
  focus (fun s => (s.1.indexes, s.2)) (fun t s => ({ s.1 with indexes := t.1 }, t.2)) x

def onFullIndexes {α : Type} (x : EStateM Failure (IndexStore × Disk) α) : WriterM α :=
  focus (fun s => (s.1.fullIndexes, s.2)) (fun t s => ({ s.1 with fullIndexes := t.1 }, t.2)) x

def selectIndex (key : Key) : WriterM Unit := do
  modify fun s => ({ s.1 with currentIndexKey := key }, s.2)
  let w ← (·.1) <$> get
  onIndexes (IndexStore.make w.directory key)
  modify fun s => ({ s.1 with current := some key.order }, s.2)
  onIndexes (IndexStore.onIndex key.order (TocIndex.openIndex TBTreeIndex))
  -- the full indexes are not flushed with each step
  if w.useSubToc then
    onFullIndexes (IndexStore.make w.directory key)
    modify fun s => ({ s.1 with currentFull := some key.order }, s.2)
    onFullIndexes (IndexStore.onIndex key.order (TocIndex.openIndex TBTreeIndex))
  else pure ()

def deselectIndex : WriterM Unit :=
  modify fun s => ({ s.1 with current := none, currentFull := none, currentIndexKey := {} }, s.2)

/-- `current_.put(key, field)`, and the same for the full index. -/
def putCurrent (key : Key) (location : FieldLocation) : WriterM Unit := do
  let w ← (·.1) <$> get
  match w.current with
  | none => throw (.undefinedBehaviour "null Index")
  | some k => onIndexes (IndexStore.onIndex k (TocIndex.put TBTreeIndex key location))
  if w.useSubToc then
    match w.currentFull with
    | none => throw (.undefinedBehaviour "null Index")
    | some k => onFullIndexes (IndexStore.onIndex k (TocIndex.put TBTreeIndex key location))
  else pure ()

def archive (key : Key) (location : FieldLocation) : WriterM Unit := do
  modify fun s => ({ s.1 with dirty := true }, s.2)
  let w ← (·.1) <$> get
  if w.current.isNone then
    ensure (w.currentIndexKey.empty = false) "!currentIndexKey_.empty()"
    selectIndex w.currentIndexKey
  else pure ()
  putCurrent key location

/-- `writeSubTocRecord(subToc)` after the sub-toc was made. -/
def openSubToc : WriterM PathName := do
  let w ← (·.1) <$> get
  match w.subTocWrite with
  | some subToc => return subToc
  | none =>
    let subToc ← onSnd (Disk.unique w.directory "toc" "")
    modify fun s => ({ s.1 with subTocWrite := some subToc }, s.2)
    let key ← lift (TocHandler.databaseKey (((← get).2.toc w.tocPath).getD []))
    onSnd (TocHandler.writeInitRecord subToc true w.schema key)
    onSnd (TocHandler.append w.tocPath (.subToc (.of w.directory subToc)))
    return subToc

def writeIndexRecord (idx : TocIndex BTreeHandle) : WriterM Unit := do
  let w ← (·.1) <$> get
  let toc ← if w.useSubToc then openSubToc else pure w.tocPath
  onSnd (TocHandler.appendIndex toc w.version idx)

/-- One turn of the loop of `flushIndexes`. -/
def flushIndex (k : List String) : WriterM Unit := do
  match (← get).1.indexes[k]? with
  | none => pure ()
  | some idx =>
    if idx.dirty then
      onIndexes (IndexStore.onIndex k (TocIndex.flush TBTreeIndex))
      match (← get).1.indexes[k]? with
      | none => pure ()
      | some idx => writeIndexRecord idx
      onIndexes (IndexStore.onIndex k (TocIndex.reopen TBTreeIndex))
    else pure ()

def flushIndexes : WriterM Unit := do
  (← get).1.indexes.keys.forM flushIndex

def flush : WriterM Unit := do
  if (← get).1.dirty then
    flushIndexes
    modify fun s => ({ s.1 with dirty := false, current := none, currentFull := none }, s.2)
  else pure ()

/-- One turn of the loop of `compactSubTocIndexes`. -/
def compactIndex (records : List TocRecord) (k : List String) : WriterM (List TocRecord) := do
  match (← get).1.fullIndexes[k]? with
  | none => return records
  | some idx =>
    if idx.dirty then
      onFullIndexes (IndexStore.onIndex k (TocIndex.flush TBTreeIndex))
      match (← get).1.fullIndexes[k]? with
      | none => return records
      | some idx =>
        return records ++ [← lift (TocHandler.buildIndexRecord (← get).1.version idx)]
    else return records

def compactSubTocIndexes : WriterM Unit := do
  let w ← (·.1) <$> get
  match w.subTocWrite with
  | some subToc =>
    if w.useSubToc then
      let records ← w.fullIndexes.keys.foldlM compactIndex []
      onSnd (TocHandler.appendBlock w.tocPath
        (records ++ [TocHandler.buildSubTocMaskRecord w.directory subToc]))
    else pure ()
  | none => pure ()

def clean : WriterM Unit := do
  flush
  compactSubTocIndexes
  deselectIndex

def closeIndexes : WriterM Unit := do
  (← get).1.indexes.keys.forM fun k => onIndexes (IndexStore.onIndex k (TocIndex.close TBTreeIndex))
  (← get).1.fullIndexes.keys.forM fun k =>
    onFullIndexes (IndexStore.onIndex k (TocIndex.close TBTreeIndex))
  modify fun s => ({ s.1 with indexes := ∅, fullIndexes := ∅ }, s.2)

def close : WriterM Unit := closeIndexes

/-- `~TocCatalogueWriter()`, which no exception can leave. -/
def destroy : WriterM Unit := fun s =>
  match (do clean; close : WriterM Unit).run s with
  | .ok _ t => .ok () t
  | .error _ t => .error .terminate t

/-- `TocCatalogueWriter(key, config)`. -/
def build (directory : String) (version : Nat) (schema : Schema) (useSubToc : Bool) (key : Key) :
    EStateM Failure Disk TocCatalogueWriter := do
  TocHandler.writeInitRecord (TocHandler.tocPath directory) false schema key
  match (← get).schema (TocHandler.schemaPath directory) with
  | none => throw (.system "open")
  | some schema => return { directory, version, schema, useSubToc }

end TocCatalogueWriter

end Fdb5
