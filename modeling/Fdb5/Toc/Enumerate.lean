import Fdb5.Toc.Masking

/-! What a toc lists besides its indexes: the sub-tocs they are in, and what masked entries keep. -/
namespace Fdb5

open Effect

/-- The text of the name starts with `toc.`. -/
def BaseName.isSubToc (b : BaseName) : Bool :=
  "toc.".toList.isPrefixOf b.stem.toList || b.stem == "toc" && (b.stamp.isSome || b.extension != "")

namespace TocHandler

/-- An index with what `loadIndexes` says of it in `remapKeys`, `subTocs` and `indexInSubtoc`. -/
structure Loaded where
  index : TocIndex BTreeHandle
  remapKey : Key
  subToc : Option PathName

def loadEntry (version : Nat) (e : Entry) : Except Failure (List Loaded) := do
  return (← loadIndex version e).map fun x => ⟨x.1, x.2, e.subToc⟩

/-- `loadIndexes(false, &subTocs, &indexInSubtoc, &remapKeys)`. -/
def loadIndexesAndSubTocs (d : Disk) (version depth : Nat) (tocPath : PathName)
    (remapKey : Key := {}) (parentKey : Key := {}) : Except Failure (List Loaded) := do
  if d.pathExists tocPath then
    let entries ← read d indexFlags depth tocPath remapKey parentKey
    let indexes ← entries.mapM (loadEntry version)
    return indexes.flatten.reverse
  else return []

def subTocPaths (d : Disk) (depth : Nat) (tocPath : PathName) : Except Failure (List PathName) := do
  let entries ← read d { hideClearEntries := true } depth tocPath {} {}
  return entries.filterMap fun e => match e.record with
    | .subToc _ => some e.tocPath
    | _ => none

/-- The data files of the masked indexes that a toc records itself. -/
def maskedData (d : Disk) (version : Nat) (directory : String) (masked : MaskedEntries) :
    TocRecord → Except Failure (List URI)
  | .index path offset index =>
    if (path, offset) ∈ masked ∧ d.pathExists ⟨directory, path⟩ then do
      let idx : TocIndex BTreeHandle ←
        TocIndex.decode version directory ⟨directory, path⟩ offset index
      return idx.files.uris
    else return []
  | _ => return []

/-- What a masked entry adds, if its file exists; `sub` looks into a masked sub-toc. -/
def maskedEntry (d : Disk) (directory : String)
    (sub : PathName → Except Failure (List (PathName × Nat) × List URI)) (entry : BaseName × Nat) :
    Except Failure (List (PathName × Nat) × List URI) := do
  let absPath : PathName := ⟨directory, entry.1⟩
  if d.pathExists absPath = false then return ([], [])
  else if entry.1.isSubToc then
    let (metadata, data) ← sub absPath
    return ((absPath, entry.2) :: metadata, data)
  else return ([(absPath, entry.2)], [])

/-- `enumerateMasked(metadata, data)`: the masked files that exist, and the data files of masked
indexes. A masked sub-toc is opened for its own. -/
def enumerateMasked (d : Disk) (version : Nat) : (depth : Nat) → (tocPath : PathName) →
    (remapKey : Key) → Except Failure (List (PathName × Nat) × List URI)
  | depth, tocPath, remapKey =>
    match d.toc tocPath with
    | none => throw (.system "open")
    | some log => do
      let masked := populateMaskedEntriesList log
      let parts ← masked.mapM (maskedEntry d tocPath.dirName fun absPath => do
        match depth with
        | 0 => throw (.undefinedBehaviour "stack overflow")
        | depth + 1 =>
          let key ← remap d absPath remapKey
          let (metadata, data) ← enumerateMasked d version depth absPath key
          let indexes ← loadIndexes d version depth absPath key remapKey
          return (metadata ++ indexes.map fun x => (x.1.path, 0),
            data ++ indexes.flatMap fun x => x.1.files.uris))
      let data ← log.mapM (maskedData d version tocPath.dirName masked)
      return ((parts.map Prod.fst).flatten, (parts.map Prod.snd).flatten ++ data.flatten)

/-- How `enumerateMasked` looks into a masked sub-toc. -/
def enumerateSub (d : Disk) (version depth : Nat) (remapKey : Key) (absPath : PathName) :
    Except Failure (List (PathName × Nat) × List URI) :=
  match depth with
  | 0 => throw (.undefinedBehaviour "stack overflow")
  | depth + 1 => do
    let key ← remap d absPath remapKey
    let (metadata, data) ← enumerateMasked d version depth absPath key
    let indexes ← loadIndexes d version depth absPath key remapKey
    return (metadata ++ indexes.map fun x => (x.1.path, 0),
      data ++ indexes.flatMap fun x => x.1.files.uris)

theorem enumerateMasked_eq {d : Disk} {version depth : Nat} {tocPath : PathName} {remapKey : Key}
    {log : List TocRecord} (h : d.toc tocPath = some log) :
    enumerateMasked d version depth tocPath remapKey = (do
      let parts ← (populateMaskedEntriesList log).mapM
        (maskedEntry d tocPath.dirName (enumerateSub d version depth remapKey))
      let data ← log.mapM (maskedData d version tocPath.dirName (populateMaskedEntriesList log))
      return ((parts.map Prod.fst).flatten, (parts.map Prod.snd).flatten ++ data.flatten)) := by
  cases depth <;> rw [enumerateMasked, h] <;> rfl

theorem enumerateMasked_none {d : Disk} {version depth : Nat} {tocPath : PathName} {remapKey : Key}
    (h : d.toc tocPath = none) :
    enumerateMasked d version depth tocPath remapKey = .error (.system "open") := by
  cases depth <;> rw [enumerateMasked, h] <;> rfl

section Loaded

variable {d : Disk} {version depth : Nat} {tocPath : PathName} {remapKey parentKey : Key}

theorem mapM_loadEntry (entries : List Entry) :
    entries.mapM (loadIndex version) =
      (·.map fun l => l.map fun x : Loaded => (x.index, x.remapKey)) <$>
        entries.mapM (loadEntry version) := by
  induction entries with
  | nil => rfl
  | cons e entries ih =>
    simp only [List.mapM_cons, ih, loadEntry]
    cases loadIndex version e with
    | error => rfl
    | ok indexes =>
      cases entries.mapM (loadEntry version) with
      | error => rfl
      | ok rest =>
        simp [bind, Except.bind, pure, Except.pure, Functor.map, Except.map, Function.comp_def]

/-- The shorter form of `loadIndexes` leaves out in which sub-toc an index is. -/
theorem loadIndexes_eq : loadIndexes d version depth tocPath remapKey parentKey =
    (·.map fun x : Loaded => (x.index, x.remapKey)) <$>
      loadIndexesAndSubTocs d version depth tocPath remapKey parentKey := by
  rw [loadIndexes, loadIndexesAndSubTocs]
  by_cases he : d.pathExists tocPath = true
  · simp only [he, if_true, mapM_loadEntry]
    cases read d indexFlags depth tocPath remapKey parentKey with
    | error => rfl
    | ok entries =>
      cases h : entries.mapM (loadEntry version) with
      | error => simp [bind, Except.bind, Functor.map, Except.map, h]
      | ok indexes =>
        simp [bind, Except.bind, pure, Except.pure, Functor.map, Except.map, h, List.map_flatten]
  · simp [he, Functor.map, Except.map, pure, Except.pure]

end Loaded

end TocHandler

end Fdb5
