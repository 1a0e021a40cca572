import Fdb5.Location

/-! Indexes: axes, the key-value backend behind them, and the `TocIndex` that writes segments. -/
namespace Fdb5

open Effect

/-- The values of each keyword that an index covers. -/
structure IndexAxis where
  axis : Std.ExtTreeMap String (Std.ExtTreeSet String) := ∅
  readOnly : Bool := false

namespace IndexAxis

/-- `IndexAxis::insert(key)`: a keyword's set exists before its value is found. -/
def insert (key : Key) : EStateM Failure IndexAxis Unit := do
  ensure ((← get).readOnly = false) "!readOnly_"
  key.keys.keys.forM fun keyword => do
    modify fun a => { a with axis := a.axis.alter keyword fun s => some (s.getD ∅) }
    let value ← lift (key.canonicalValue keyword)
    modify fun a => { a with axis := a.axis.modify keyword fun s => s.insert value }

/-- `IndexAxis::contains(key)`. -/
def contains (a : IndexAxis) (key : Key) : Except Failure Bool :=
  a.axis.toList.foldlM (fun found kv => do
    if found then key.matchAxis kv.1 kv.2 else return false) true

def wipe : EStateM Failure IndexAxis Unit := do
  ensure ((← get).readOnly = false) "!readOnly_"
  modify fun a => { a with axis := ∅ }

end IndexAxis

structure FieldRef where
  uriId : Nat
  offset : Nat
  length : Nat
deriving DecidableEq, Repr

/-- The virtual methods of `BTreeIndex` on a volume of type `ν`, with the factory, the
destructor and the size of the file. -/
structure BTreeIndex (ν η : Type) where
  build : (path : PathName) → (readOnly : Bool) → (offset : Nat) → EStateM Failure ν η
  get : η → String → EStateM Failure ν (Option FieldRef)
  set : String → FieldRef → EStateM Failure (η × ν) Unit
  flush : EStateM Failure (η × ν) Unit
  destroy : η → EStateM Failure ν Unit
  size : PathName → EStateM Failure ν Nat

/-- A `TocIndex` whose backend has handles of type `η`. -/
structure TocIndex (η : Type) where
  key : Key
  type : String := "BTreeIndex"
  axes : IndexAxis := {}
  files : UriStore
  btree : Option η := none
  dirty : Bool := false
  write : Bool
  path : PathName
  offset : Nat

/-- What `TocIndex::encode` puts in a record. -/
structure EncodedIndex where
  files : List StoredURI
  axes : Std.ExtTreeMap String (Std.ExtTreeSet String)
  key : Key
  type : String

namespace TocIndex

variable {ν η : Type} (B : BTreeIndex ν η)

/-- `TocIndex(key, path, 0, WRITE)`. -/
def create (key : Key) (path : PathName) : TocIndex η where
  key
  files := { directory := path.dirName }
  write := true
  path
  offset := 0

/-- `TocIndex::encode(stream, version)`, which up to version 2 also writes the key's values. -/
def encode (version : Nat) (idx : TocIndex η) : Except Failure EncodedIndex := do
  let key ← idx.key.encode
  unless 3 ≤ version do
    let _ ← idx.key.valuesToString
  return { files := idx.files.encode, axes := idx.axes.axis, key, type := idx.type }

/-- `TocIndex(stream, version, directory, path, offset)`. -/
def decode (version : Nat) (directory : String) (path : PathName) (offset : Nat)
    (e : EncodedIndex) : Except Failure (TocIndex η) := do
  if 3 ≤ version then
    assert (e.axes.isEmpty = false) "!axis_.empty()"
    assert (e.key.empty = false) "!key_.empty()"
    assert (e.type ≠ "") "!type_.empty()"
  return {
    key := e.key
    type := e.type
    axes := { axis := e.axes }
    files := .decode directory e.files
    write := false
    path
    offset }

def mayContain (idx : TocIndex η) (key : Key) : Except Failure Bool := idx.axes.contains key

def withBTree {α : Type} (idx : TocIndex η) (f : η → EStateM Failure ν α) : EStateM Failure ν α :=
  match idx.btree with
  | none => throw (.assertion "btree_")
  | some b => f b

/-- `TocIndex::get(key, remapKey, field)`. -/
protected def get (idx : TocIndex η) (key remapKey : Key) : EStateM Failure ν (Option FieldLocation) :=
  idx.withBTree fun b => do
    match ← B.get b (← lift key.valuesToString) with
    | none => return none
    | some ref =>
      let uri ← lift (idx.files.get ref.uriId)
      return some { uri, offset := ref.offset, length := ref.length, remapKey }

/-- `open()` followed by `get(key, remapKey, field)`, as a reader calls them. -/
def lookup (idx : TocIndex η) (key remapKey : Key) : EStateM Failure ν (Option FieldLocation) := do
  if idx.btree.isSome then idx.get B key remapKey
  else
    let b ← B.build idx.path (idx.write = false) idx.offset
    TocIndex.get B { idx with btree := some b } key remapKey

/-- A method of the index on its open backend. -/
def onBTree (x : EStateM Failure (η × ν) Unit) : EStateM Failure (TocIndex η × ν) Unit := fun s =>
  match s.1.btree with
  | none => .error (.assertion "btree_") s
  | some b => (focus (fun s : TocIndex η × ν => (b, s.2))
      (fun t s => ({ s.1 with btree := some t.1 }, t.2)) x).run s

def openIndex : EStateM Failure (TocIndex η × ν) Unit := do
  let idx ← (·.1) <$> get
  if idx.btree.isNone then
    let b ← onSnd (B.build idx.path (idx.write = false) idx.offset)
    modify fun s => ({ s.1 with btree := some b }, s.2)
  else pure ()

def close : EStateM Failure (TocIndex η × ν) Unit := do
  match (← get).1.btree with
  | none => pure ()
  | some b =>
    modify fun s => ({ s.1 with btree := none }, s.2)
    onSnd (B.destroy b)

/-- `TocIndex::reopen()`: a new segment starts at the end of the file, with axes of its own. -/
def reopen : EStateM Failure (TocIndex η × ν) Unit := do
  close B
  let size ← onSnd (B.size (← get).1.path)
  modify fun s => ({ s.1 with offset := size }, s.2)
  onFst (focus (·.axes) (fun a idx => { idx with axes := a }) IndexAxis.wipe)
  openIndex B

/-- `IndexBase::put(key, field)` with `TocIndex::add(key, field)`. -/
def put (key : Key) (location : FieldLocation) : EStateM Failure (TocIndex η × ν) Unit := do
  onFst (focus (·.axes) (fun a idx => { idx with axes := a }) (IndexAxis.insert key))
  let idx ← (·.1) <$> get
  ensure (idx.btree.isSome) "btree_"
  ensure (idx.write) "mode_ == TocIndex::WRITE"
  let (uriId, files) ← lift (idx.files.insert location.uri)
  modify fun s => ({ s.1 with files }, s.2)
  let fingerprint ← lift key.valuesToString
  onBTree (B.set fingerprint { uriId, offset := location.offset, length := location.length })
  modify fun s => ({ s.1 with dirty := true }, s.2)

def flush : EStateM Failure (TocIndex η × ν) Unit := do
  let idx ← (·.1) <$> get
  ensure (idx.write) "mode_ == TocIndex::WRITE"
  if idx.dirty then
    onBTree B.flush
    modify fun s => ({ s.1 with dirty := false }, s.2)
  else pure ()

end TocIndex

end Fdb5
