import Fdb5.Database.WriterDB
import Fdb5.KeyText
import Fdb5.Rules.FirstPath
import Fdb5.Toc.Catalogue

/-! `Archiver`: the DBs that a process has open to write to, and the visitor that files a field in them. -/
namespace Fdb5

open Effect

/-- What an archiver is configured with; each database has directories of its own. -/
structure ArchiveConfig where
  schema : Schema
  version : Nat
  useSubToc : Bool
  tocPath : StringDict → TocPath
  storeDirectory : StringDict → String
  fdbMaxNbDBsOpen : Nat := 64
  checkMissingKeysOnWrite : Bool := true
  matchFirstFdbRule : Bool := true

def ArchiveConfig.database (config : ArchiveConfig) (κ : StringDict) : Database where
  directory := (config.tocPath κ).directory
  version := config.version
  schema := config.schema
  key := { keys := κ, names := κ.keys, canonical := true }
  useSubToc := config.useSubToc

/-- An entry of `databases_`; a DB goes by the number that it was built with. -/
structure OpenDB where
  time : Nat
  key : Key
  db : Nat

structure Archiver where
  databases : Std.ExtTreeMap (List String) OpenDB := ∅
  prev0 : Key := {}
  prev1 : Key := {}
  current : Option (StringDict × Nat) := none

/-- The entries of `databases_`, in the order of their keys. -/
def Archiver.entries (X : Archiver) : List OpenDB := X.databases.toList.map (·.2)

/-- An archiver with the databases that it writes to; `next` is the number of the next DB. -/
structure ArchiverState where
  archiver : Archiver
  dbs : StringDict → DbSystem
  next : Nat

/-- What a call to `archive` meets: the time when it looks a database up, and what the file system does to the field. -/
structure Archiving where
  time : StringDict → Nat
  store : TocStore.Archiving

namespace Archiver

abbrev Act := EStateM Failure ArchiverState

variable (config : ArchiveConfig)

def onDB (κ : StringDict) (c : DbCall) : Act Unit := fun s =>
  match (s.dbs κ).step (config.database κ) (config.storeDirectory κ) c with
  | (t, none) => .ok () { s with dbs := Function.update s.dbs κ t }
  | (t, some e) => .error e { s with dbs := Function.update s.dbs κ t }

def setDatabases (f : Std.ExtTreeMap (List String) OpenDB → Std.ExtTreeMap (List String) OpenDB) : Act Unit :=
  modify fun s => { s with archiver := { s.archiver with databases := f s.archiver.databases } }

/-- The loop of `database(key)`: of the oldest entries it finds the last. -/
def oldest (time : Nat) (entries : List OpenDB) : Option OpenDB :=
  (entries.foldl (fun (found : Option OpenDB × Nat) e => if e.time ≤ found.2 then (some e, e.time) else found)
    (none, time + 24 * 60 * 60)).1

/-- `databases_.erase(key)`, which destroys the DB. -/
def close (e : OpenDB) : Act Unit := do
  setDatabases fun databases => databases.erase e.key.order
  onDB config e.key.keys (.destroy e.db)

/-- `TocCatalogue::enabled(ControlIdentifier::Archive)`. -/
def enabled (dbs : StringDict → DbSystem) (κ : StringDict) : Bool :=
  (config.tocPath κ).enabled .archive && TocHandler.enabled (dbs κ).disk (config.tocPath κ).directory .archive

def database (key : Key) (time : Nat) : Act Nat := do
  match (← get).archiver.databases[key.order]? with
  | some e =>
    setDatabases fun databases => databases.insert key.order { e with time }
    return e.db
  | none =>
    let X := (← get).archiver
    if config.fdbMaxNbDBsOpen ≤ X.databases.size then
      match oldest time X.entries with
      | some e => close config e
      | none => pure ()
    else pure ()
    let db := (← get).next
    modify fun s => { s with next := db + 1 }
    onDB config key.keys (.build db key)
    if enabled config (← get).dbs key.keys = false then
      onDB config key.keys (.destroy db)
      throw (.userError ("Database TocCatalogueWriter(" ++ (config.tocPath key.keys).directory ++
        ") matched for archived is LOCKED against archiving"))
    else pure ()
    setDatabases fun databases => databases.insert key.order { time, key, db }
    return db

/-- `current_`, which is asserted not to be null. -/
def currentDB (condition : String) : Act (StringDict × Nat) := do
  match (← get).archiver.current with
  | some p => return p
  | none => throw (.assertion condition)

/-- `ArchiveVisitor(owner, field, data, size)`. -/
def visitor (field : Key) (data : DataBytes) (x : Archiving) : WriteVisitor ArchiverState where
  selectDatabase key _ := do
    let db ← database config key (x.time key.keys)
    modify fun s => { s with archiver := { s.archiver with current := some (key.keys, db) } }
    onDB config key.keys (.deselectIndex db)
    return true
  selectIndex key _ := do
    let p ← currentDB "owner_.current_"
    onDB config p.1 (.selectIndex p.2 key)
    return true
  selectDatum key full := do
    if config.checkMissingKeysOnWrite then lift (field.validateKeysOf full) else pure ()
    let p ← currentDB "current()"
    onDB config p.1 (.archive p.2 key data x.store)
    return true
  databaseSchema := do
    let p ← currentDB "current()"
    match ((← get).dbs p.1).dbs p.2 with
    | some D => return D.catalogue.schema
    | none => throw (.undefinedBehaviour "deleted DB")

/-- The owner after the visitor, which kept `prev_` for it. -/
def leave (t : WriteState ArchiverState) : ArchiverState :=
  { t.visitor with archiver := { t.visitor.archiver with prev0 := t.prev0, prev1 := t.prev1 } }

def expand (field : Key) (data : DataBytes) (x : Archiving) : Act (Option RulePtr) := fun s =>
  match (config.schema.expand config.matchFirstFdbRule (visitor config field data x) field).run
      { prev0 := s.archiver.prev0, prev1 := s.archiver.prev1, visitor := s } with
  | .ok _ t => .ok t.rule (leave t)
  | .error e t => .error e (leave t)

def archive (field : Key) (data : DataBytes) (x : Archiving) : Act Unit := do
  match ← expand config field data x with
  | some rule => lift (rule.check field)
  | none => throw (.seriousBug ("FDB: Could not find a rule to archive \x7b" ++ (← lift field.toString) ++ "\x7d"))

def flush (f : StringDict → TocStore.Flushing) : Act Unit := do
  (← get).archiver.entries.forM fun e => onDB config e.key.keys (.flush e.db (f e.key.keys))

/-- `~Archiver()`, which no exception can leave. -/
def destroy (f : StringDict → TocStore.Flushing) : Act Unit := fun s =>
  match (do flush config f; (← get).archiver.entries.forM (close config) : Act Unit).run s with
  | .ok _ t => .ok () t
  | .error _ t => .error .terminate t

end Archiver

/-- A call on an archiver; each number names one, which is made once. -/
inductive ArchiverCall where
  | make (a : Nat)
  | archive (a : Nat) (field : Key) (data : DataBytes) (x : Archiving)
  | flush (a : Nat) (f : StringDict → TocStore.Flushing)
  | destroy (a : Nat) (f : StringDict → TocStore.Flushing)

/-- The archivers of all processes, over the databases. -/
structure ArchiverSystem where
  made : List Nat := []
  archivers : Nat → Option Archiver := fun _ => none
  dbs : StringDict → DbSystem
  next : Nat := 0

namespace ArchiverSystem

variable (config : ArchiveConfig) (s : ArchiverSystem)

def put (a : Nat) (t : ArchiverState) : ArchiverSystem :=
  { s with archivers := Function.update s.archivers a (some t.archiver), dbs := t.dbs, next := t.next }

/-- A call on an archiver, and what it throws. -/
def onArchiver (a : Nat) (x : Archiver.Act Unit) : ArchiverSystem × Option Failure :=
  match s.archivers a with
  | none => (s, some (.undefinedBehaviour "deleted Archiver"))
  | some X =>
    match x.run ⟨X, s.dbs, s.next⟩ with
    | .ok _ t => (s.put a t, none)
    | .error e t => (s.put a t, some e)

def step : ArchiverCall → ArchiverSystem × Option Failure
  | .make a =>
    if a ∈ s.made then (s, none)
    else ({ s with made := a :: s.made, archivers := Function.update s.archivers a (some {}) }, none)
  | .archive a field data x => s.onArchiver a (Archiver.archive config field data x)
  | .flush a f => s.onArchiver a (Archiver.flush config f)
  | .destroy a f =>
    let t := s.onArchiver a (Archiver.destroy config f)
    ({ t.1 with archivers := Function.update t.1.archivers a none }, t.2)

/-- A call, and what it throws. -/
def track (s : ArchiverSystem × List (ArchiverCall × Option Failure)) (c : ArchiverCall) :
    ArchiverSystem × List (ArchiverCall × Option Failure) :=
  let t := s.1.step config c
  (t.1, s.2 ++ [(c, t.2)])

def start (d : StringDict → Disk) (data : StringDict → String → Option DataBytes) : ArchiverSystem where
  dbs κ := { disk := d κ, data := data κ }

def runCalls (d : StringDict → Disk) (data : StringDict → String → Option DataBytes)
    (calls : List ArchiverCall) : ArchiverSystem × List (ArchiverCall × Option Failure) :=
  calls.foldl (track config) (start d data, [])

end ArchiverSystem

end Fdb5
