import Fdb5.Toc.DataFiles
import Fdb5.Toc.Session

/-! `DB` for writing: a catalogue writer and its store, and the DBs that processes have open on one database. -/
namespace Fdb5

open Effect

namespace PathName

/-- The path of a string, up to the last `/` and behind it. -/
def ofString (s : String) : PathName where
  dirName := String.ofList ((s.toList.reverse.dropWhile (· ≠ '/')).drop 1).reverse
  baseName := ⟨String.ofList (s.toList.reverse.takeWhile (· ≠ '/')).reverse, none, ""⟩

def asString (p : PathName) : String :=
  p.dirName ++ "/" ++ p.baseName.stem ++ ((p.baseName.stamp.map fun n => "." ++ n.repr).getD "") ++ p.baseName.extension

end PathName

/-- `TocFieldLocation(dataPath, position, length, Key())`. -/
def DataLocation.fieldLocation (l : DataLocation) : FieldLocation := .ofPath (.ofString l.path) l.offset l.length

/-- What is read from the data handle of a location. -/
def FieldLocation.bytes (data : String → Option DataBytes) (l : FieldLocation) : DataBytes :=
  (((data l.uri.path.asString).getD []).drop l.offset).take l.length

namespace TocCatalogueWriter

/-- `currentIndex().key()`. -/
def currentIndex : WriterM Key := do
  let w ← (·.1) <$> get
  if w.current.isNone then
    ensure (w.currentIndexKey.empty = false) "!currentIndexKey_.empty()"
    selectIndex w.currentIndexKey
  else pure ()
  let w ← (·.1) <$> get
  match w.current.bind (w.indexes[·]?) with
  | some idx => return idx.key
  | none => throw (.undefinedBehaviour "null Index")

end TocCatalogueWriter

/-- The stream for an index key takes no more once a write to it has failed in part. -/
def TocStore.Takes (S : TocStore) (index : StringDict) (data : DataBytes) (a : TocStore.Archiving) : Prop :=
  ∀ e ∈ S.dataPaths, e.1 = index → ∀ stream ∈ (S.handle e.2).file, stream.short = true → a.fwrite.taken < data.length

instance (S : TocStore) (index : StringDict) (data : DataBytes) (a : TocStore.Archiving) : Decidable (S.Takes index data a) :=
  inferInstanceAs (Decidable (∀ e ∈ S.dataPaths, e.1 = index → ∀ stream ∈ (S.handle e.2).file, stream.short = true →
    a.fwrite.taken < data.length))

/-- A `DB`; its store is made with the first field. -/
structure WriterDB where
  catalogue : TocCatalogueWriter
  store : Option TocStore := none

/-- A `DB` with the two kinds of files. -/
structure DbWorld where
  db : WriterDB
  disk : Disk
  data : String → Option DataBytes

namespace WriterDB

abbrev Act := EStateM Failure DbWorld

variable (storeDirectory : String)

def onCatalogue {α : Type} (x : WriterM α) : Act α :=
  focus (fun s => (s.db.catalogue, s.disk)) (fun t s => { s with db := { s.db with catalogue := t.1 }, disk := t.2 }) x

/-- `store()`, on the data files as they are. -/
def storeOf (db : WriterDB) (data : String → Option DataBytes) : TocStore :=
  { db.store.getD { directory := storeDirectory, disk := data } with disk := data }

def onStore {α : Type} (x : TocStore.Act α) : Act α :=
  focus (fun s => s.db.storeOf storeDirectory s.data) (fun t s => { s with db := { s.db with store := some t }, data := t.disk }) x

def archive (key : Key) (data : DataBytes) (a : TocStore.Archiving) : Act Unit := do
  let idxKey ← onCatalogue TocCatalogueWriter.currentIndex
  let location ← onStore storeDirectory (TocStore.archive idxKey data a)
  onCatalogue (TocCatalogueWriter.archive key location.fieldLocation)

def flush (f : TocStore.Flushing) : Act Unit := do
  if (← get).db.store.isSome then onStore storeDirectory (TocStore.flush f) else pure ()
  onCatalogue TocCatalogueWriter.flush

/-- `~DB()`: the store leaves its handles as they are. -/
def destroy : Act Unit := onCatalogue TocCatalogueWriter.destroy

end WriterDB

/-- A call on a DB; each number names one, which is built once. -/
inductive DbCall where
  | build (w : Nat) (key : Key)
  | selectIndex (w : Nat) (key : Key)
  | deselectIndex (w : Nat)
  | archive (w : Nat) (key : Key) (data : DataBytes) (a : TocStore.Archiving)
  | flush (w : Nat) (f : TocStore.Flushing)
  | destroy (w : Nat)

structure DbSystem where
  built : List Nat := []
  dbs : Nat → Option WriterDB := fun _ => none
  disk : Disk
  data : String → Option DataBytes

namespace DbSystem

variable (db : Database) (storeDirectory : String) (s : DbSystem)

def put (w : Nat) (t : DbWorld) : DbSystem :=
  { s with dbs := Function.update s.dbs w (some t.db), disk := t.disk, data := t.data }

/-- A call on a DB that is open, and what it throws. -/
def onDb (w : Nat) (x : WriterDB.Act Unit) : DbSystem × Option Failure :=
  match s.dbs w with
  | none => (s, some (.undefinedBehaviour "deleted DB"))
  | some D =>
    match x.run ⟨D, s.disk, s.data⟩ with
    | .ok _ t => (s.put w t, none)
    | .error e t => (s.put w t, some e)

def step : DbCall → DbSystem × Option Failure
  | .build w key =>
    if w ∈ s.built then (s, none)
    else
      match (TocCatalogueWriter.build db.directory db.version db.schema db.useSubToc key).run s.disk with
      | .ok W d => ({ s with built := w :: s.built, dbs := Function.update s.dbs w (some ⟨W, none⟩), disk := d }, none)
      | .error e d => ({ s with disk := d }, some e)
  | .selectIndex w key => s.onDb w (WriterDB.onCatalogue (TocCatalogueWriter.selectIndex key))
  | .deselectIndex w => s.onDb w (WriterDB.onCatalogue TocCatalogueWriter.deselectIndex)
  | .archive w key data a => s.onDb w (WriterDB.archive storeDirectory key data a)
  | .flush w f => s.onDb w (WriterDB.flush storeDirectory f)
  | .destroy w =>
    let t := s.onDb w WriterDB.destroy
    ({ t.1 with dbs := Function.update t.1.dbs w none }, t.2)

end DbSystem

/-- The keys of a field, and the DB that it was given to. -/
structure ArchivedKeys where
  writer : Nat
  index : Key
  key : Key

/-- What the callers are told: the DBs that they have open, and the fields of the archives that have returned, by index
key; `flushed` are those that a flush followed. -/
structure DbHistory where
  built : List Nat := []
  live : List Nat := []
  met : List (Nat × Nat) := []
  selected : Nat → Key := fun _ => {}
  archived : List ArchivedKeys := []
  pending : Nat → StringDict → List (Key × DataBytes) := fun _ _ => []
  flushed : StringDict → List (Key × DataBytes) := fun _ => []

namespace DbHistory

def build (H : DbHistory) (w : Nat) : DbHistory :=
  if w ∈ H.built then H
  else { H with built := w :: H.built, live := w :: H.live, met := H.met ++ H.live.map (·, w) }

def archive (H : DbHistory) (w : Nat) (field : Key × DataBytes) : DbHistory :=
  let κ := (H.selected w).keys
  { H with
    archived := H.archived ++ [⟨w, H.selected w, field.1⟩]
    pending := Function.update H.pending w (Function.update (H.pending w) κ (H.pending w κ ++ [field])) }

def flush (H : DbHistory) (w : Nat) : DbHistory :=
  { H with flushed := fun κ => H.flushed κ ++ H.pending w κ, pending := Function.update H.pending w fun _ => [] }

def step (H : DbHistory) (c : DbCall) (returned : Bool) : DbHistory :=
  match returned, c with
  | true, .build w _ => H.build w
  | true, .selectIndex w key => { H with selected := Function.update H.selected w key }
  | true, .deselectIndex w => { H with selected := Function.update H.selected w {} }
  | true, .archive w key data _ => H.archive w (key, data)
  | true, .flush w _ => H.flush w
  | true, .destroy w => { H.flush w with live := H.live.erase w }
  | false, _ => H

def Exclusive (H : DbHistory) (κ : StringDict) (fingerprint : String) : Prop :=
  ∀ a ∈ H.archived, ∀ b ∈ H.archived, a.index.keys = κ → b.index.keys = κ → a.key.fingerprint = fingerprint →
    b.key.fingerprint = fingerprint → ¬ ((a.writer, b.writer) ∈ H.met ∨ (b.writer, a.writer) ∈ H.met)

/-- The bytes that were archived last under the keys and flushed. -/
def last (H : DbHistory) (k1 k2 : Key) : Option DataBytes :=
  ((H.flushed k1.keys).findRev? fun field => field.1.canonicalValues = k2.canonicalValues).map (·.2)

end DbHistory

namespace DbSystem

variable (db : Database) (storeDirectory : String)

/-- A step, beside what the callers are told. -/
def track (s : DbSystem × DbHistory) (c : DbCall) : DbSystem × DbHistory :=
  let t := s.1.step db storeDirectory c
  (t.1, s.2.step c t.2.isNone)

def runCalls (d : Disk) (data : String → Option DataBytes) (calls : List DbCall) : DbSystem × DbHistory :=
  calls.foldl (track db storeDirectory) ({ disk := d, data }, {})

/-- No data file that is open has the unique part in its name. -/
def Unused (s : DbSystem) (unique : String) : Prop :=
  ∀ w ∈ s.built, ∀ D ∈ s.dbs w, ∀ S ∈ D.store, ∀ path ∈ S.handles.keys, ¬ (unique ++ ".data").toList <:+ path.toList

instance (s : DbSystem) (unique : String) : Decidable (s.Unused unique) :=
  inferInstanceAs (Decidable (∀ w ∈ s.built, ∀ D ∈ s.dbs w, ∀ S ∈ D.store, ∀ path ∈ S.handles.keys,
    ¬ (unique ++ ".data").toList <:+ path.toList))

/-- The callers hold to the keys that `Call.Proper` asks for; the name of a new data file is not in use, no stream takes
more once a write to it has failed in part, and a DB is destroyed with its fields flushed. -/
def Safe (s : DbSystem) : DbCall → Prop
  | .build _ key => key.Addresses db.key.keys
  | .deselectIndex _ | .flush _ _ => True
  | .selectIndex _ key => key.Selectable
  | .archive w key data a => (∀ location, Put.Archivable db.version ⟨key, location⟩) ∧ s.Unused a.unique ∧
    ∀ D ∈ s.dbs w, ∀ S ∈ D.store, S.Takes D.catalogue.currentIndexKey.keys data a
  | .destroy w => ∀ D ∈ s.dbs w, ∀ S ∈ D.store, S.dirty = false

instance (s : DbSystem) (w : Nat) : Decidable (Safe db s (.destroy w)) :=
  inferInstanceAs (Decidable (∀ D ∈ s.dbs w, ∀ S ∈ D.store, S.dirty = false))

end DbSystem

end Fdb5
