import Fdb5.Toc.Disk

/-! Reading a toc: masked entries, sub-tocs and the list of indexes. -/
namespace Fdb5

/-- `std::set<std::pair<PathName, Offset>>`, of which only membership is asked. -/
abbrev MaskedEntries := List (BaseName × Nat)

instance (entry : BaseName × Nat) (masked : MaskedEntries) : Decidable (entry ∈ masked) :=
  List.instDecidableMemOfLawfulBEq entry masked

/-- The name and offset under which a record can be masked. -/
def TocRecord.maskable : TocRecord → Option (BaseName × Nat)
  | .index path offset _ => some (path, offset)
  | .subToc path => some (path.baseName, 0)
  | _ => none

namespace TocHandler

def allMaskableEntries (records : List TocRecord) : MaskedEntries :=
  records.filterMap TocRecord.maskable

/-- What a record masks that comes after the records `seen`. -/
def maskedBy (seen : List TocRecord) : TocRecord → MaskedEntries
  | .clear path offset => [(path.baseName, offset)]
  | .clearAll => allMaskableEntries seen
  | .init _ | .index _ _ _ | .subToc _ => []

/-- The loop of `populateMaskedEntriesList`, after the records `seen`. -/
def populateFrom (seen : List TocRecord) : List TocRecord → MaskedEntries
  | [] => []
  | r :: rest => maskedBy seen r ++ populateFrom (seen ++ [r]) rest

def populateMaskedEntriesList (log : List TocRecord) : MaskedEntries := populateFrom [] log

structure ReadFlags where
  hideSubTocEntries : Bool := false
  hideClearEntries : Bool := false
  readMasked : Bool := false

/-- A record that `readNext` returned, with the toc it is in, the key that this toc is remapped
to and the sub-toc through which it was reached. -/
structure Entry where
  record : TocRecord
  tocPath : PathName
  remapKey : Key
  subToc : Option PathName := none

def databaseKey (log : List TocRecord) : Except Failure Key :=
  match log.findSome? fun | .init key => some key | _ => none with
  | some key => .ok key
  | none => .error (.seriousBug "Cannot find a TOC_INIT record")

/-- `TocHandler(path, parentKey)`: the key that the toc's own key is remapped to. -/
def remap (d : Disk) (path : PathName) (parentKey : Key) : Except Failure Key := do
  match d.toc path with
  | none => return {}
  | some log =>
    let key ← databaseKey log
    if parentKey.empty ∨ parentKey.keys = key.keys then return {}
    else if parentKey.keys.size ≠ key.keys.size then
      throw (.userError "Keys insufficiently matching for mount")
    else
      parentKey.keys.toList.foldlM (fun remapKey kv =>
        match key.find kv.1 with
        | none => throw (.userError "Keys insufficiently matching for mount")
        | some value => return if kv.2 = value then remapKey else remapKey.set kv.1 kv.2) {}

/-- The file that a `TOC_SUB_TOC` record of the directory leads to. -/
def subTocPath (d : Disk) (directory : String) : StoredPath → PathName
  | .absolute path => if d.pathExists path then path else ⟨directory, path.baseName⟩
  | .relative base => ⟨directory, base⟩

/-- The records that `readNext` returns for the rest of a toc; `readSub` opens a sub-toc with the
parent key and returns its records. -/
def readFrom (d : Disk) (flags : ReadFlags)
    (readSub : PathName → Key → Except Failure (List Entry)) (tocPath : PathName) (remapKey : Key)
    (masked : MaskedEntries) : Key → List TocRecord → Except Failure (List Entry)
  | _, [] => return []
  | parentKey, r :: rest =>
    match r with
    | .init key => do
      let entries ← readFrom d flags readSub tocPath remapKey masked
        (if parentKey.empty then key else parentKey) rest
      return ⟨r, tocPath, remapKey, none⟩ :: entries
    | .subToc path => do
      let absPath := subTocPath d tocPath.dirName path
      if (absPath.baseName, 0) ∈ masked ∧ (flags.readMasked = false ∨ d.pathExists absPath = false)
      then readFrom d flags readSub tocPath remapKey masked parentKey rest
      else
        let sub ← readSub absPath parentKey
        let sub := sub.map fun e => { e with subToc := some absPath }
        if flags.hideSubTocEntries then
          match sub with
          | ⟨.init _, _, _, _⟩ :: sub =>
            let entries ← readFrom d flags readSub tocPath remapKey masked parentKey rest
            return sub ++ entries
          | _ => throw (.assertion "r.header_.tag_ == TocRecord::TOC_INIT")
        else
          sub.forM fun e => match e.record with
            | .subToc _ => throw (.assertion "r.header_.tag_ != TocRecord::TOC_SUB_TOC")
            | _ => pure ()
          let entries ← readFrom d flags readSub tocPath remapKey masked parentKey rest
          return ⟨r, absPath, remapKey, some absPath⟩ :: sub ++ entries
    | .index path offset _ => do
      let entries ← readFrom d flags readSub tocPath remapKey masked parentKey rest
      if (path, offset) ∈ masked ∧
          (flags.readMasked = false ∨ d.pathExists ⟨tocPath.dirName, path⟩ = false)
      then return entries
      else return ⟨r, tocPath, remapKey, none⟩ :: entries
    | .clear _ _ | .clearAll => do
      let entries ← readFrom d flags readSub tocPath remapKey masked parentKey rest
      return if flags.hideClearEntries then entries else ⟨r, tocPath, remapKey, none⟩ :: entries

/-- What `readNext` returns for a toc opened for reading, with sub-tocs nested at most `depth`
deep: deeper ones, as in a cycle of mounts, overflow the stack. -/
def read (d : Disk) (flags : ReadFlags) :
    (depth : Nat) → (tocPath : PathName) → (remapKey parentKey : Key) → Except Failure (List Entry)
  | depth, tocPath, remapKey, parentKey =>
    match d.toc tocPath with
    | none => throw (.system "open")
    | some log => readFrom d flags (fun path key => do
        match depth with
        | 0 => throw (.undefinedBehaviour "stack overflow")
        | depth + 1 => read d flags depth path (← remap d path key) key)
      tocPath remapKey (populateMaskedEntriesList log) parentKey log

/-- The index of a record in `loadIndexes`, with its remap key. -/
def loadIndex (version : Nat) (e : Entry) : Except Failure (List (TocIndex BTreeHandle × Key)) :=
  match e.record with
  | .init _ => return []
  | .index path offset index => do
    let idx ← TocIndex.decode version e.tocPath.dirName ⟨e.tocPath.dirName, path⟩ offset index
    return [(idx, e.remapKey)]
  | .clear _ _ | .clearAll => throw (.assertion "r->header_.tag_ != TocRecord::TOC_CLEAR")
  | .subToc _ => throw (.seriousBug "TOC_SUB_TOC entry should be handled inside readNext")

/-- `loadIndexes(false, .., .., remapKeys)` of a handler whose own remap key is given. -/
def loadIndexes (d : Disk) (version depth : Nat) (tocPath : PathName) (remapKey : Key := {})
    (parentKey : Key := {}) : Except Failure (List (TocIndex BTreeHandle × Key)) := do
  if d.pathExists tocPath then
    let entries ← read d { hideSubTocEntries := true, hideClearEntries := true } depth tocPath
      remapKey parentKey
    let indexes ← entries.mapM (loadIndex version)
    return indexes.flatten.reverse
  else return []

end TocHandler

end Fdb5
