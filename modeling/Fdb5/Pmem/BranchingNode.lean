import Fdb5.Key

/-! The tree of branching nodes in persistent memory: inserts that lock one node at a time, lookups and visits. -/
namespace Fdb5

open Effect

/-- `PBaseNode::KeyType` and `PBaseNode::ValueType`, an `eckit::FixedString<12>`: it is made of the strings that fit, and
is the same string again. -/
structure NodeString (F : Type) where
  ofString : String → Except Failure F
  asString : F → String
  asString_ofString : ∀ s f, ofString s = .ok f → asString f = s

/-- What every `PBaseNode` has. -/
structure PBaseNode (F : Type) where
  idKey : F
  idValue : F
deriving DecidableEq

/-- A `PersistentPtr<PBaseNode>`, with the base of the node, which never changes. -/
inductive PersistentPtr (F D : Type) where
  | branchingNode (base : PBaseNode F) (address : Nat)
  | dataNode (base : PBaseNode F) (data : D)

/-- A `PBranchingNode` without its base. It is an index when it has axes. -/
structure PBranchingNode (F D : Type) where
  nodes : List (PersistentPtr F D)
  isIndex : Bool

abbrev PmemHeap (F D : Type) := List (PBranchingNode F D)

abbrev PmemAct (F D : Type) := EStateM Failure (PmemHeap F D)

variable {F D : Type}

def PersistentPtr.base : PersistentPtr F D → PBaseNode F
  | .branchingNode base _ => base
  | .dataNode base _ => base

def PersistentPtr.isDataNode : PersistentPtr F D → Bool
  | .branchingNode _ _ => false
  | .dataNode _ _ => true

/-- The branching node at an address. -/
def PmemHeap.node (heap : PmemHeap F D) (address : Nat) : Except Failure (PBranchingNode F D) :=
  match heap[address]? with
  | some node => .ok node
  | none => .error (.undefinedBehaviour "dereference")

/-- `nodes_.push_back_elem(node)`. -/
def pushBackElem (address : Nat) (node : PersistentPtr F D) : PmemAct F D Unit :=
  modify fun heap => heap.modify address fun b => { b with nodes := b.nodes ++ [node] }

/-- `Key::value`. -/
def Key.value (k : Key) (keyword : String) : Except Failure String :=
  match k.find keyword with
  | some value => .ok value
  | none => .error (.assertion "it != keys_.end()")

/-- An ordered sequence of key-value pairs. -/
def Key.pairs (k : Key) (names : List String) : Except Failure (List (String × String)) :=
  names.mapM fun name => do return (name, ← k.value name)

/-- The identifier of a node: all pairs of a key. -/
def Key.identifier (k : Key) : Except Failure (List (String × String)) := k.pairs k.names

def PBaseNode.key (fixed : NodeString F) (base : PBaseNode F) : String := fixed.asString base.idKey
def PBaseNode.value (fixed : NodeString F) (base : PBaseNode F) : String := fixed.asString base.idValue

namespace NodeString

variable (fixed : NodeString F)

/-- The base of a new node. -/
def construct (key value : String) : Except Failure (PBaseNode F) := do
  return { idKey := ← fixed.ofString key, idValue := ← fixed.ofString value }

variable [DecidableEq F]

/-- `PBaseNode::matches(key, value)`. -/
def matchesBase (base : PBaseNode F) (key value : String) : Except Failure Bool := do
  return decide (base = (← fixed.construct key value))

/-- The search through the subnodes, here from the front. -/
def search (key value : String) : List (PersistentPtr F D) → Except Failure (Option (PersistentPtr F D))
  | [] => .ok none
  | subnode :: nodes => do
    if ← fixed.matchesBase subnode.base key value then return some subnode else search key value nodes

/-- The new nodes of `getCreateBranchingNode`, each below the one before. -/
def createNodes (current : Nat) : List (String × String) → PmemAct F D Nat
  | [] => return current
  | (key, value) :: rest => do
    let base ← lift (fixed.construct key value)
    let heap ← get
    set (heap ++ [{ nodes := [], isIndex := false }])
    pushBackElem current (.branchingNode base heap.length)
    createNodes heap.length rest

/-- What one turn of the loop of `getCreateBranchingNode` does while it has the lock of `current`: where it goes on,
and with what. -/
def getCreateTurn (current : Nat) (key value : String) (rest : List (String × String)) :
    PmemAct F D (Nat × List (String × String)) := do
  let node ← lift ((← get).node current)
  match ← lift (fixed.search key value node.nodes.reverse) with
  | some (.branchingNode _ address) => return (address, rest)
  | some (.dataNode _ _) => throw (.assertion "subnode->isBranchingNode()")
  | none => return (← fixed.createNodes current ((key, value) :: rest), [])

/-- What `insertDataNode` does after it has found the parent, the most of it with the lock of the parent. -/
def appendDataNode (parent : Nat) (key : Key) (base : PBaseNode F) (data : D) : PmemAct F D Unit := do
  match key.names.getLast? with
  | none => throw (.undefinedBehaviour "ordered_keys[ordered_keys.size()-1]")
  | some k =>
    let v ← lift (key.value k)
    ensure ((← lift (fixed.matchesBase base k v)) = true) "dataNode->matches(k, v)"
    let node ← lift ((← get).node parent)
    node.nodes.forM fun n => do
      if ← lift (fixed.matchesBase n.base k v) then
        ensure (n.isDataNode = true) "dataParent.nodes_[i]->isDataNode()"
    pushBackElem parent (.dataNode base data)

/-- The loop of `getDataNode`. -/
def getDataLoop (heap : PmemHeap F D) (current : Nat) : List (String × String) → Except Failure (Option D)
  | [] => .ok none
  | (key, value) :: rest => do
    let node ← heap.node current
    match ← fixed.search key value node.nodes.reverse with
    | none => .ok none
    | some subnode =>
      if rest = [] then
        match subnode with
        | .dataNode _ data => .ok (some data)
        | .branchingNode _ _ => .error (.assertion "subnode->isDataNode()")
      else
        match subnode with
        | .branchingNode _ address => getDataLoop heap address rest
        | .dataNode _ _ => .error (.assertion "subnode->isBranchingNode()")

/-- `PBranchingNode::getDataNode(key, mgr)` of the node at an address. -/
def getDataNode (heap : PmemHeap F D) (address : Nat) (key : Key) : Except Failure (Option D) := do
  fixed.getDataLoop heap address (← key.identifier)

end NodeString

section Inserts

/-- A call of `insertDataNode` between two of its locks. -/
structure InsertCall (F D : Type) where
  key : Key
  base : PBaseNode F
  data : D
  current : Nat
  rest : List (String × String)

/-- The start of `insertDataNode`, up to its first lock. -/
def InsertCall.start (address : Nat) (key : Key) (base : PBaseNode F) (data : D) : Except Failure (InsertCall F D) := do
  if key.names = [] then throw (.undefinedBehaviour "--end")
  return { key, base, data, current := address, rest := ← key.pairs key.names.dropLast }

variable [DecidableEq F]

/-- What a call does with its next lock, and what it goes on with. -/
def InsertCall.next (fixed : NodeString F) (c : InsertCall F D) : PmemAct F D (Option (InsertCall F D)) :=
  match c.rest with
  | (key, value) :: rest => do
    let (current, rest) ← fixed.getCreateTurn c.current key value rest
    return some { c with current, rest }
  | [] => do
    fixed.appendDataNode c.current c.key c.base c.data
    return none

/-- The tree with the calls of `insertDataNode` that are under way and, in their order, those that are complete. -/
structure PmemTree (F D : Type) where
  heap : PmemHeap F D
  calls : Nat → Option (InsertCall F D)
  completed : List (Key × D)

/-- A process calls `insertDataNode` of the root, or takes and gives back its next lock. -/
inductive PmemEvent (F D : Type) where
  | call (process : Nat) (key : Key) (base : PBaseNode F) (data : D)
  | turn (process : Nat)

namespace PmemTree

def setCall (t : PmemTree F D) (process : Nat) (c : Option (InsertCall F D)) : PmemTree F D :=
  { t with calls := fun q => if q = process then c else t.calls q }

def init (isIndex : Bool) : PmemTree F D where
  heap := [{ nodes := [], isIndex }]
  calls _ := none
  completed := []

def step (fixed : NodeString F) (t : PmemTree F D) : PmemEvent F D → PmemTree F D
  | .call process key base data =>
    match t.calls process, InsertCall.start 0 key base data with
    | none, .ok c => t.setCall process (some c)
    | _, _ => t
  | .turn process =>
    match t.calls process with
    | none => t
    | some c =>
      match (c.next fixed).run t.heap with
      | .ok (some c) heap => { t with heap }.setCall process (some c)
      | .ok none heap => { t with heap, completed := t.completed ++ [(c.key, c.data)] }.setCall process none
      | .error _ heap => { t with heap }.setCall process none

def run (fixed : NodeString F) (isIndex : Bool) (events : List (PmemEvent F D)) : PmemTree F D :=
  events.foldl (step fixed) (init isIndex)

end PmemTree

end Inserts

namespace PBranchingNode

/-- What an `EntryVisitor` is called with. -/
inductive LeafVisit (D : Type) where
  | visitIndex (key : Key)
  | visitDatum (field : D) (keyFingerprint : String)

/-- The vector of keys, its back first, and the calls of the visitor so far. -/
structure LeafVisiting (D : Type) where
  keys : List Key
  visits : List (LeafVisit D)

abbrev VisitAct (D : Type) := EStateM Failure (LeafVisiting D)

/-- `keys.back()`. -/
def keysBack : VisitAct D Key := do
  match (← get).keys with
  | back :: _ => return back
  | [] => throw (.undefinedBehaviour "keys.back()")

def setBack (back : Key) : VisitAct D Unit := modify fun s => { s with keys := back :: s.keys.tail }

/-- `keys.back().push(key, value)`. -/
def keysPush (key value : String) : VisitAct D Unit := do setBack ((← keysBack).push key value)

/-- `keys.back().pop(key)`. -/
def keysPop (key : String) : VisitAct D Unit := do setBack (← lift ((← keysBack).pop key))

def visit (v : LeafVisit D) : VisitAct D Unit := modify fun s => { s with visits := s.visits ++ [v] }

variable (fixed : NodeString F)

/-- The turn of the loop over leaves in `visitLeaves`. -/
def visitLeaf (index : Option Key) (base : PBaseNode F) (data : D) : VisitAct D Unit := do
  ensure (index ≠ none) "!index.null()"
  keysPush (base.key fixed) (base.value fixed)
  let fingerprint ← lift (← keysBack).valuesToString
  visit (.visitDatum data fingerprint)
  keysPop (base.key fixed)

/-- The loops of `visitLeaves` over the leaves and the subtrees of a node, the newest first. -/
def visitSubnodes (index : Option Key) (node : PBranchingNode F D) (visitSubtree : PBaseNode F → Nat → VisitAct D Unit) :
    VisitAct D Unit := do
  (node.nodes.reverse.filterMap fun
    | .dataNode base data => some (base, data)
    | .branchingNode _ _ => none).forM fun (base, data) => visitLeaf fixed index base data
  (node.nodes.reverse.filterMap fun
    | .dataNode _ _ => none
    | .branchingNode base address => some (base, address)).forM fun (base, address) => visitSubtree base address

/-- `PBranchingNode::visitLeaves` of the node at an address, for a visitor that visits entries or not. An index is
its key. -/
def visitLeaves (entries : Bool) (heap : PmemHeap F D) : Nat → PBaseNode F → Nat → Option Key → VisitAct D Unit
  | 0, _, _, _ => throw (.undefinedBehaviour "stack")
  | n + 1, base, address, index => do
    let node ← lift (heap.node address)
    if base.key fixed = "" ∧ base.value fixed = "" then
      visitSubnodes fixed index node fun base address => visitLeaves entries heap n base address index
    else
      keysPush (base.key fixed) (base.value fixed)
      if node.isIndex then
        let key ← keysBack
        visit (.visitIndex key)
        if entries then
          modify fun s => { s with keys := {} :: s.keys }
          visitSubnodes fixed (some key) node fun base address => visitLeaves entries heap n base address (some key)
          modify fun s => { s with keys := s.keys.tail }
      else
        visitSubnodes fixed index node fun base address => visitLeaves entries heap n base address index
      keysPop (base.key fixed)

end PBranchingNode

end Fdb5
