import Fdb5.Toc.Catalogue

/-! Wiping a database: the visitor that collects what to delete, and the deletion. -/
namespace Fdb5

open Effect

structure WipeFlags where
  doit : Bool := false
  porcelain : Bool := false
  unsafeWipeAll : Bool := false

/-- The sets are lists without an order; a path that is `""` is `none`. -/
structure TocWipeVisitor where
  catalogue : TocCatalogue
  indexRequest : MarsRequest
  flags : WipeFlags
  tocPath : Option PathName := none
  schemaPath : Option PathName := none
  subtocPaths : List PathName := []
  lockfilePaths : List PathName := []
  indexPaths : List PathName := []
  dataPaths : List PathName := []
  safePaths : List PathName := []
  residualPaths : List PathName := []
  indexesToMask : List (TocIndex BTreeHandle) := []

namespace TocWipeVisitor

/-- Whether the visitor removes the index: never one of another database. -/
def includes (v : TocWipeVisitor) (idx : TocIndex BTreeHandle) : Bool :=
  idx.key.matchRequest v.indexRequest && v.catalogue.isOwn idx.path

/-- `visitDatabase(catalogue, store)` of a new visitor. -/
def visitDatabase (c : TocCatalogue) (key : Key) (rq : MarsRequest) (flags : WipeFlags) :
    TocWipeVisitor where
  catalogue := c
  indexRequest := key.keys.toList.foldl (fun rq kv => rq.unsetValues kv.1) rq
  flags

/-- The loop of `visitIndex` over the data files. -/
def visitData (included : Bool) (v : TocWipeVisitor) (uri : URI) : TocWipeVisitor :=
  if included ∧ v.catalogue.isOwn uri.path then
    { v with dataPaths := v.dataPaths.insert uri.path }
  else { v with safePaths := v.safePaths.insert uri.path }

def visitIndex (v : TocWipeVisitor) (idx : TocIndex BTreeHandle) : TocWipeVisitor :=
  let v' := if v.includes idx then
      { v with indexesToMask := v.indexesToMask ++ [idx], indexPaths := v.indexPaths.insert idx.path }
    else { v with safePaths := v.safePaths.insert idx.path }
  idx.files.uris.foldl (visitData (v.includes idx)) v'

def addMaskedPaths (v : TocWipeVisitor) (masked : List (PathName × Nat) × List URI) :
    TocWipeVisitor :=
  let own (paths : List PathName) := paths.filter v.catalogue.isOwn
  let metadata := own (masked.1.map Prod.fst)
  { v with
    subtocPaths := metadata.filter (·.baseName.isSubToc) ∪ v.subtocPaths
    indexPaths := metadata.filter (!·.baseName.isSubToc) ∪ v.indexPaths
    dataPaths := own (masked.2.map URI.path) ∪ v.dataPaths }

def addMetadataPaths (v : TocWipeVisitor) (d : Disk) : Except Failure TocWipeVisitor := do
  let subtocs ← TocHandler.subTocPaths d v.catalogue.depth v.catalogue.tocPath
  return { v with
    schemaPath := some v.catalogue.schemaPath
    tocPath := some v.catalogue.tocPath
    subtocPaths := subtocs ∪ v.subtocPaths
    lockfilePaths := TocHandler.lockfilePaths d v.catalogue.directory ∪ v.lockfilePaths }

def keepMetadata (v : TocWipeVisitor) : TocWipeVisitor :=
  { v with subtocPaths := [], lockfilePaths := [], tocPath := none, schemaPath := none }

def ensureSafePaths (v : TocWipeVisitor) : TocWipeVisitor :=
  let delete (paths : List PathName) := paths.filter (· ∉ v.safePaths)
  { v with
    tocPath := v.tocPath.filter (· ∉ v.safePaths)
    schemaPath := v.schemaPath.filter (· ∉ v.safePaths)
    subtocPaths := delete v.subtocPaths
    lockfilePaths := delete v.lockfilePaths
    indexPaths := delete v.indexPaths
    dataPaths := delete v.dataPaths }

def deletePaths (v : TocWipeVisitor) : List PathName :=
  v.subtocPaths ++ v.lockfilePaths ++ v.indexPaths ++ v.dataPaths ++ v.tocPath.toList ++
    v.schemaPath.toList

def calculateResidualPaths (v : TocWipeVisitor) (d : Disk) : Except Failure TocWipeVisitor := do
  let there (paths : List PathName) := paths.filter fun p => d.pathExists (v.catalogue.real p)
  let v := { v with
    subtocPaths := there v.subtocPaths
    lockfilePaths := there v.lockfilePaths
    indexPaths := there v.indexPaths
    dataPaths := there v.dataPaths
    tocPath := v.tocPath.filter fun p => d.pathExists (v.catalogue.real p)
    schemaPath := v.schemaPath.filter fun p => d.pathExists (v.catalogue.real p) }
  let allPaths := d.children v.catalogue.directory
  if ∀ p ∈ v.deletePaths, p ∈ allPaths then
    return { v with residualPaths := allPaths.filter (· ∉ v.deletePaths) }
  else
    throw (.seriousBug ("Path to delete should be in existing path set. " ++
      "Are multiple wipe commands running simultaneously?"))

def anythingToWipe (v : TocWipeVisitor) : Bool :=
  !v.subtocPaths.isEmpty || !v.lockfilePaths.isEmpty || !v.indexPaths.isEmpty ||
    !v.dataPaths.isEmpty || !v.indexesToMask.isEmpty || v.tocPath.isSome || v.schemaPath.isSome

/-- `remove(path, .., doit)` of a file. -/
def remove (v : TocWipeVisitor) (p : PathName) : EStateM Failure Disk Unit :=
  if v.flags.doit then Disk.unlink (v.catalogue.real p) else pure ()

def removeExisting (v : TocWipeVisitor) (p : PathName) : EStateM Failure Disk Unit := do
  if (← get).pathExists (v.catalogue.real p) then v.remove p else pure ()

/-- A full wipe first locks the database, and the locks are deleted with it. -/
def lock (v : TocWipeVisitor) (wipeAll : Bool) : EStateM Failure Disk TocWipeVisitor :=
  if wipeAll ∧ v.flags.doit then do
    let directory := v.catalogue.directory
    TocHandler.control directory .disable [.list, .retrieve, .archive]
    let d ← get
    ensure (TocHandler.enabled d directory .list = false)
      "!catalogue_.enabled(ControlIdentifier::List)"
    ensure (TocHandler.enabled d directory .retrieve = false)
      "!catalogue_.enabled(ControlIdentifier::Retrieve)"
    ensure (TocHandler.enabled d directory .archive = false)
      "!catalogue_.enabled(ControlIdentifier::Archive)"
    return { v with lockfilePaths := TocHandler.lockfilePaths d directory ∪ v.lockfilePaths }
  else return v

def maskIndexes (v : TocWipeVisitor) (wipeAll : Bool) : EStateM Failure Disk Unit :=
  if wipeAll = false ∧ v.flags.doit then v.indexesToMask.forM v.catalogue.maskIndexEntry
  else pure ()

/-- The files that are deleted after the data, in their order. -/
def metadataPaths (v : TocWipeVisitor) : List PathName :=
  v.indexPaths ++ v.schemaPath.toList ++ v.subtocPaths ++ v.tocPath.toList ++ v.lockfilePaths

/-- The deletions of `wipe`. -/
def delete (v : TocWipeVisitor) (wipeAll : Bool) : EStateM Failure Disk Unit := do
  v.residualPaths.forM v.removeExisting
  v.dataPaths.forM v.remove
  v.metadataPaths.forM v.removeExisting
  if wipeAll ∧ (← get).directoryExists v.catalogue.directory ∧ v.flags.doit then
    Disk.rmdir v.catalogue.directory
  else pure ()

def wipe (v : TocWipeVisitor) (wipeAll : Bool) : EStateM Failure Disk Unit := do
  ensure v.anythingToWipe "anythingToWipe()"
  let v ← v.lock wipeAll
  v.maskIndexes wipeAll
  v.delete wipeAll

/-- What is deleted besides the indexes visited: all of the database if nothing is to be kept. -/
def complete (v : TocWipeVisitor) (d : Disk) : Except Failure TocWipeVisitor := do
  if v.safePaths.isEmpty then
    let v ← (v.addMaskedPaths (← v.catalogue.allMasked d)).addMetadataPaths d
    return v.ensureSafePaths
  else
    return v.keepMetadata.ensureSafePaths

/-- The checks before anything is deleted. -/
def checkResidual (v : TocWipeVisitor) (wipeAll : Bool) (d : Disk) : Except Failure TocWipeVisitor := do
  let v ← if wipeAll then v.calculateResidualPaths d else .ok v
  assert (v.flags.porcelain ∨ v.anythingToWipe) "anythingToWipe()"
  if wipeAll ∧ v.residualPaths ≠ [] ∧ v.flags.unsafeWipeAll = false ∧ v.flags.doit then
    throw (.exception "Cannot fully wipe unclean TocDB")
  else return v

def catalogueComplete (v : TocWipeVisitor) : EStateM Failure Disk Unit := do
  let wipeAll := v.safePaths.isEmpty
  let v ← lift (v.complete (← get))
  if v.anythingToWipe then
    let v ← lift (v.checkResidual wipeAll (← get))
    if v.flags.doit ∨ v.flags.porcelain then v.wipe wipeAll else pure ()
  else pure ()

end TocWipeVisitor

/-- `visitEntries(visitor, store)` with the visitor of a wipe: a database that is locked for wiping
is not visited, but the visitor is told of its end. -/
def TocCatalogue.visitEntries (c : TocCatalogue) (key : Key) (rq : MarsRequest) (flags : WipeFlags) :
    EStateM Failure Disk Unit := do
  let all ← lift (c.indexes (← get))
  if TocHandler.enabled (← get) c.directory .wipe then
    (all.foldl TocWipeVisitor.visitIndex (.visitDatabase c key rq flags)).catalogueComplete
  else throw (.assertion "internalVisitor_")

/-- `LocalFDB::wipe(request, doit, porcelain, unsafeWipeAll)`, as far as it is about one database. -/
def LocalFDB.wipe (c : TocCatalogue) (rq : MarsRequest) (flags : WipeFlags) :
    EStateM Failure Disk Unit := do
  if c.located (← get) rq then
    let key ← lift (c.openReader (← get))
    c.visitEntries key rq flags
  else pure ()

end Fdb5
