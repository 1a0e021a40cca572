import Fdb5.Inspect.Request
import Fdb5.Toc.Reader

/-! `MultiRetrieveVisitor` on the databases that an `Inspector` keeps open. -/
namespace Fdb5

open Effect

/-- `TocCatalogueReader::axis(keyword, s)`. -/
def TocCatalogueReader.axis (r : TocCatalogueReader) : Axes := fun keyword =>
  (r.matching.filterMap fun m => m.1.axes.axis[keyword]?).foldl
    (fun found values => some ((found.getD ∅).insertMany values.toList)) none

/-- What an inspector reads from its configuration. -/
structure DbConfig where
  schema : Schema
  directory : Disk → Key → Except Failure TocPath
  mars : MarsTypes
  version : Nat
  depth : Nat
  fdbMaxOpenDatabases : Nat

/-- A `DB` whose catalogue is open for reading. -/
structure DB where
  key : Key
  catalogue : TocCatalogueReader
  schema : Schema

/-- `DB::buildReader(key, config)` and `open()`; a database that is locked does not exist. -/
def DB.openReader (config : DbConfig) (d : Disk) (key : Key) : Except Failure (Option DB) := do
  let path ← config.directory d key
  let toc := TocHandler.tocPath path.directory
  let catalogue ← TocCatalogueReader.build d config.version config.depth toc
  if ¬ (path.enabled .retrieve ∧ TocHandler.enabled d path.directory .retrieve) then return none
  else if d.pathExists toc then
    match d.schema (TocHandler.schemaPath path.directory) with
    | none => throw (.system "open")
    | some schema => return some { key, catalogue, schema }
  else return none

structure ListElement where
  dbKey : Key
  indexKey : Key
  datumKey : Key
  location : FieldLocation

/-- A visitor with the cache of its inspector: `db_` is the cache's most recent entry, and stands
before the others. -/
structure MultiRetrieveVisitor where
  db : Option DB := none
  databases : List DB
  iterator : List ListElement := []

namespace MultiRetrieveVisitor

def opened (v : MultiRetrieveVisitor) : List DB := v.db.toList ++ v.databases

def selectDatabase (config : DbConfig) (d : Disk) (key : Key) : EStateM Failure MultiRetrieveVisitor Bool := do
  let v ← get
  match v.db.filter fun db => db.key.keys = key.keys with
  | some _ => return true
  | none =>
    match v.opened.find? fun db => db.key.keys = key.keys with
    | some db =>
      set { v with db := some db, databases := v.opened.eraseP fun db => db.key.keys = key.keys }
      return true
    | none =>
      match ← lift (DB.openReader config d key) with
      | none => return false
      | some db =>
        set { v with db := some db, databases := v.opened.take (config.fdbMaxOpenDatabases - 1) }
        return true

def selectIndex (key : Key) : EStateM Failure MultiRetrieveVisitor Bool := do
  match (← get).db with
  | none => throw (.assertion "db_")
  | some db =>
    let catalogue := db.catalogue.selectIndex key
    modify fun v => { v with db := some { db with catalogue } }
    return db.catalogue.currentIndexKey.keys = key.keys ∨ ¬ catalogue.matching.isEmpty

/-- The datum's key as it is listed, without the keywords that have no value. -/
def simplifiedKey (key : Key) : Key :=
  key.keys.toList.foldl (fun k kv => if kv.2 = "" then k else k.set kv.1 kv.2) {}

def selectDatum (d : Disk) (key : Key) : EStateM Failure MultiRetrieveVisitor Bool := do
  match (← get).db with
  | none => throw (.assertion "db_")
  | some db =>
    match ← lift (value ((db.catalogue.retrieve key).run d)) with
    | none => return false
    | some location =>
      modify fun v => { v with iterator := v.iterator ++ [{
        dbKey := db.key
        indexKey := db.catalogue.currentIndexKey
        datumKey := simplifiedKey key
        location }] }
      return true

/-- `values(request, keyword, registry, values)`, on the axes of the current database. -/
def values (mars : MarsTypes) (axes : Option Axes) (request : MarsRequest) (keyword : String)
    (registry : TypesRegistry) : Except Failure (List String) := do
  let type ← registry.lookupType keyword
  let list ← type.getValues mars request keyword axes
  let keys ← list.mapM fun l => do return (l, ← type.toKey keyword l)
  match axes.bind fun axes => axes keyword with
  | none => return list
  | some filter => return (keys.filter fun k => k.2 ∈ filter).map Prod.fst

def databaseSchema : EStateM Failure MultiRetrieveVisitor Schema := do
  match (← get).db with
  | none => throw (.assertion "db_")
  | some db => return db.schema

/-- The axes that the current database answers from. -/
def axes (v : MultiRetrieveVisitor) : Option Axes := v.db.map fun db => db.catalogue.axis

end MultiRetrieveVisitor

/-- `MultiRetrieveVisitor` as the visitor that it is. -/
def DbConfig.visitor (config : DbConfig) (d : Disk) : ReadVisitor MultiRetrieveVisitor where
  selectDatabase key _ := MultiRetrieveVisitor.selectDatabase config d key
  selectIndex key _ := MultiRetrieveVisitor.selectIndex key
  selectDatum key _ := MultiRetrieveVisitor.selectDatum d key
  values v := MultiRetrieveVisitor.values config.mars v.axes
  databaseSchema := MultiRetrieveVisitor.databaseSchema

/-- An inspector's open databases, the most recent first. -/
structure Inspector where
  databases : List DB := []

/-- `Inspector::inspect(request)`: the elements, and the databases that are open afterwards. -/
def Inspector.inspect (config : DbConfig) (d : Disk) (request : MarsRequest) :
    EStateM Failure Inspector (List ListElement) := do
  let i ← get
  match (config.schema.expandRequest (config.visitor d) request).run { databases := i.databases } with
  | .ok _ v =>
    set ({ databases := v.opened } : Inspector)
    return v.iterator
  | .error e v =>
    set ({ databases := v.opened } : Inspector)
    throw e

end Fdb5
