import Mathlib.Data.List.Nodup
import Mathlib.Logic.Function.Basic
import Fdb5.Key

/-! The value sets of index axes as shared objects, and the registry that interns them. -/
namespace Fdb5

open Effect

/-- The values of a `DenseSet<std::string>`. -/
abbrev AxisValues := Std.ExtTreeSet String

/-- An `IndexAxis`, whose `shared_ptr`s are addresses of sets. -/
structure AxisObject where
  axis : Std.ExtTreeMap String Nat := ∅
  readOnly : Bool := false

/-- An element of the registry: its keyword, its pointer, and the values it was entered under. -/
structure AxisEntry where
  keyword : String
  ptr : Nat
  hashed : AxisValues

/-- What the reading of a stream comes to: whole axes one after another, and the exception that may stop it there, with
an axis of which some values have been read. -/
structure AxisStream where
  axes : List (String × AxisValues)
  stops : Option (Option (String × AxisValues) × Failure) := none

namespace AxisStream

/-- The stream is read to its end and has each keyword once, as `encode` writes it. -/
def Whole (stream : AxisStream) : Prop := stream.stops = none ∧ (stream.axes.map Prod.fst).Nodup

/-- There is no value in it. -/
def Bare (stream : AxisStream) : Prop := stream.axes = [] ∧ ∀ part e, stream.stops = some (part, e) → part = none

end AxisStream

/-- The sets that were allocated, the `IndexAxis` objects that are alive, and the `AxisRegistry`. -/
structure AxisHeap where
  sets : Nat → AxisValues := fun _ => ∅
  next : Nat := 0
  objects : Std.ExtTreeMap Nat AxisObject := ∅
  registry : List AxisEntry := []

namespace AxisHeap

/-- The object's axis of the keyword points to the set. -/
def Holds (w : AxisHeap) (o : Nat) (keyword : String) (p : Nat) : Prop :=
  ∃ a, w.objects[o]? = some a ∧ a.axis[keyword]? = some p

/-- The references that the objects have to sets. -/
def refs (w : AxisHeap) : List (Nat × String × Nat) :=
  w.objects.toList.flatMap fun e => e.2.axis.toList.map fun kv => (e.1, kv)

/-- `use_count()`. -/
def useCount (w : AxisHeap) (p : Nat) : Nat :=
  w.refs.countP (fun r => r.2.2 = p) + w.registry.countP (fun e => e.ptr = p)

/-- The values of an object's axis. -/
def values (w : AxisHeap) (o : Nat) (keyword : String) : Option AxisValues :=
  (w.objects[o]?.bind fun a => a.axis[keyword]?).map w.sets

def setObject (o : Nat) (a : AxisObject) : EStateM Failure AxisHeap Unit :=
  modify fun w => { w with objects := w.objects.insert o a }

def setValues (p : Nat) (v : AxisValues) : EStateM Failure AxisHeap Unit :=
  modify fun w => { w with sets := Function.update w.sets p v }

/-- `new DenseSet<std::string>`. -/
def newSet (v : AxisValues) : EStateM Failure AxisHeap Nat := do
  let p := (← get).next
  modify fun w => { w with sets := Function.update w.sets p v, next := p + 1 }
  return p

/-- An object that is alive. -/
def object (o : Nat) : EStateM Failure AxisHeap AxisObject := do
  match (← get).objects[o]? with
  | some a => return a
  | none => throw (.undefinedBehaviour "object")

/-- A place for a new object. -/
def vacant (o : Nat) : EStateM Failure AxisHeap Unit := do
  if (← get).objects[o]?.isSome then throw (.undefinedBehaviour "object") else pure ()

section Registry

variable (bucket : AxisValues → Nat)

/-- Whether a lookup in the `unordered_set` comes to the entry: through its bucket, which is that of the values
it was entered under, and by the values it has. -/
def finds (w : AxisHeap) (keyword : String) (v : AxisValues) (e : AxisEntry) : Bool :=
  e.keyword = keyword ∧ bucket e.hashed = bucket v ∧ w.sets e.ptr = v

/-- `AxisRegistry::release`. -/
def release (keyword : String) (ptr : Nat) : EStateM Failure AxisHeap Unit := do
  let w ← get
  if w.useCount ptr ≠ 2 then return
  else
    ensure (w.registry.any fun e => e.keyword = keyword) "it != axes_.end()"
    modify fun w => { w with registry := w.registry.filter fun e => !w.finds bucket keyword (w.sets ptr) e }
    ensure ((← get).useCount ptr = 1) "ptr.use_count() == 1"

/-- `AxisRegistry::deduplicate`, on the pointer of an object's axis. -/
def deduplicate (o : Nat) (keyword : String) (ptr : Nat) : EStateM Failure AxisHeap Unit := do
  let w ← get
  match w.registry.find? (w.finds bucket keyword (w.sets ptr)) with
  | none => modify fun w => { w with registry := w.registry ++ [⟨keyword, ptr, w.sets ptr⟩] }
  | some e =>
    let a ← object o
    setObject o { a with axis := a.axis.insert keyword e.ptr }

/-- A new set for a keyword, with the values that are read for it. -/
def readAxis (o : Nat) (kv : String × AxisValues) : EStateM Failure AxisHeap Nat := do
  let p ← newSet kv.2
  let a ← object o
  setObject o { a with axis := a.axis.insert kv.1 p }
  return p

/-- `IndexAxis::decode`. -/
def decode (o version : Nat) (stream : AxisStream) : EStateM Failure AxisHeap Unit := do
  let a ← object o
  if 3 ≤ version then ensure (a.axis.isEmpty = true) "axis_.empty()" else pure ()
  stream.axes.forM fun kv => do
    let p ← readAxis o kv
    deduplicate bucket o kv.1 p
  match stream.stops with
  | some (some kv, e) => do
    let _ ← readAxis o kv
    throw e
  | some (none, e) => throw e
  | none =>
    if 3 ≤ version then ensure ((← object o).axis.isEmpty = false) "!axis_.empty()" else pure ()

/-- `IndexAxis(stream, version)`; where it throws, the members go without `~IndexAxis()`. -/
def decodeNew (o version : Nat) (stream : AxisStream) : EStateM Failure AxisHeap Unit := do
  vacant o
  setObject o { readOnly := true }
  tryCatch (decode bucket o version stream) fun e => do
    modify fun w => { w with objects := w.objects.erase o }
    throw e

/-- `~IndexAxis()`. -/
def destroy (o : Nat) : EStateM Failure AxisHeap Unit := do
  let a ← object o
  if a.readOnly then a.axis.toList.forM fun kv => release bucket kv.1 kv.2 else pure ()
  modify fun w => { w with objects := w.objects.erase o }

end Registry

/-- `IndexAxis()`. -/
def create (o : Nat) : EStateM Failure AxisHeap Unit := do
  vacant o
  setObject o {}

/-- One turn of the loop of `IndexAxis::insert`. -/
def insertValue (o : Nat) (key : Key) (keyword : String) : EStateM Failure AxisHeap Unit := do
  let a ← object o
  let p ← match a.axis[keyword]? with
    | some p => pure p
    | none => do
      let p ← newSet ∅
      setObject o { a with axis := a.axis.insert keyword p }
      pure p
  let value ← lift (key.canonicalValue keyword)
  setValues p (((← get).sets p).insert value)

/-- `IndexAxis::insert(key)`. -/
def insert (o : Nat) (key : Key) : EStateM Failure AxisHeap Unit := do
  ensure ((← object o).readOnly = false) "!readOnly_"
  key.keys.keys.forM (insertValue o key)

/-- `IndexAxis::sort()`, which puts each set in order in its place and leaves its values. -/
def sort (o : Nat) : EStateM Failure AxisHeap Unit := do
  (← object o).axis.toList.forM fun kv => do setValues kv.2 ((← get).sets kv.2)

/-- `IndexAxis::wipe()`. -/
def wipe (o : Nat) : EStateM Failure AxisHeap Unit := do
  let a ← object o
  ensure (a.readOnly = false) "!readOnly_"
  setObject o { a with axis := ∅ }

/-- `IndexAxis::merge(other)`. -/
def merge (o other : Nat) : EStateM Failure AxisHeap Unit := do
  let a ← object o
  let b ← object other
  ensure (a.readOnly = false) "!readOnly_"
  b.axis.toList.forM fun kv => do
    let a ← object o
    match a.axis[kv.1]? with
    | none => setObject o { a with axis := a.axis.insert kv.1 kv.2 }
    | some p => do
      let w ← get
      setValues p (w.sets p ∪ w.sets kv.2)

/-- `IndexAxis(IndexAxis&&)`. -/
def moveNew (o rhs : Nat) : EStateM Failure AxisHeap Unit := do
  vacant o
  let a ← object rhs
  setObject o a
  setObject rhs { a with axis := ∅ }

/-- `operator=(IndexAxis&&)`, from another object. -/
def moveAssign (o rhs : Nat) : EStateM Failure AxisHeap Unit := do
  let _ ← object o
  let a ← object rhs
  if o = rhs then throw (.undefinedBehaviour "object") else pure ()
  setObject o a
  setObject rhs { a with axis := ∅ }

end AxisHeap

/-- What a program does with `IndexAxis` objects. -/
inductive AxisOp where
  | create (o : Nat)
  | decodeNew (o version : Nat) (stream : AxisStream)
  | decode (o version : Nat) (stream : AxisStream)
  | moveNew (o rhs : Nat)
  | moveAssign (o rhs : Nat)
  | insert (o : Nat) (key : Key)
  | sort (o : Nat)
  | wipe (o : Nat)
  | merge (o other : Nat)
  | destroy (o : Nat)

namespace AxisOp

def run (bucket : AxisValues → Nat) : AxisOp → EStateM Failure AxisHeap Unit
  | create o => AxisHeap.create o
  | decodeNew o version stream => AxisHeap.decodeNew bucket o version stream
  | decode o version stream => AxisHeap.decode bucket o version stream
  | moveNew o rhs => AxisHeap.moveNew o rhs
  | moveAssign o rhs => AxisHeap.moveAssign o rhs
  | insert o key => AxisHeap.insert o key
  | sort o => AxisHeap.sort o
  | wipe o => AxisHeap.wipe o
  | merge o other => AxisHeap.merge o other
  | destroy o => AxisHeap.destroy bucket o

/-- The receiver, and for a move the object that is moved from. -/
def receivers : AxisOp → List Nat
  | create o | decodeNew o _ _ | decode o _ _ | insert o _ | sort o | wipe o | merge o _ | destroy o => [o]
  | moveNew o rhs | moveAssign o rhs => [o, rhs]

end AxisOp

end Fdb5
