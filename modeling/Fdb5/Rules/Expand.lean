import Fdb5.Rules.Schema

/-! The write expansion: a field walks the rule tree and drives a `WriteVisitor`. -/
namespace Fdb5

/-- The local `keys` (one a level) and `full` that the expansion pushes to and pops from. -/
structure Workspace where
  key0 : Key
  key1 : Key
  key2 : Key
  full : Key

namespace Workspace

def key (w : Workspace) : Nat → Key
  | 0 => w.key0
  | 1 => w.key1
  | _ => w.key2

def setKey (w : Workspace) (depth : Nat) (k : Key) : Workspace :=
  match depth with
  | 0 => { w with key0 := k }
  | 1 => { w with key1 := k }
  | _ => { w with key2 := k }

def push (w : Workspace) (depth : Nat) (keyword value : String) : Workspace :=
  { w.setKey depth ((w.key depth).push keyword value) with full := w.full.push keyword value }

def pop (w : Workspace) (depth : Nat) (keyword : String) : Except Failure Workspace := do
  let full ← w.full.pop keyword
  let k ← (w.key depth).pop keyword
  return { w.setKey depth k with full }

/-- Keys as `Schema::expand` allocates them. -/
def fresh (registry : TypesRegistry) : Workspace where
  key0 := { registry := some registry }
  key1 := { registry := some registry }
  key2 := { registry := some registry }
  full := { registry := some registry }

/-- Keys as `Schema::expandSecond` allocates them. -/
def below (registry : TypesRegistry) (dbKey : Key) : Workspace :=
  { fresh registry with key0 := dbKey, full := dbKey }

end Workspace

/-- The callbacks of a `WriteVisitor`, on a state of type `σ`. -/
structure WriteVisitor (σ : Type) where
  selectDatabase : Key → Key → EStateM Failure σ Bool
  selectIndex : Key → Key → EStateM Failure σ Bool
  selectDatum : Key → Key → EStateM Failure σ Bool
  databaseSchema : EStateM Failure σ Schema

/-- A visitor's `prev_` and `rule_` beside the state of its callbacks. -/
structure WriteState (σ : Type) where
  prev0 : Key := {}
  prev1 : Key := {}
  rule : Option RulePtr := none
  visitor : σ

variable {σ α : Type}

/-- A callback, run on the visitor's own state. -/
abbrev onVisitor (x : EStateM Failure σ α) : EStateM Failure (WriteState σ) α :=
  Effect.focus (·.visitor) (fun v s => { s with visitor := v }) x

namespace WriteVisitor

/-- The database branch of `Rule::expand`: select it unless it was the last one. -/
def visitDatabase (v : WriteVisitor σ) (key full : Key) :
    EStateM Failure (WriteState σ) Unit := do
  if key.keys ≠ (← get).prev0.keys then
    let _ ← onVisitor (v.selectDatabase key full)
    modify fun s => { s with prev0 := key }
    modify fun s => { s with prev1 := {} }
  else pure ()

/-- The index branch of `Rule::expand`. -/
def visitIndex (v : WriteVisitor σ) (key full : Key) :
    EStateM Failure (WriteState σ) Unit := do
  if key.keys ≠ (← get).prev1.keys then
    let _ ← onVisitor (v.selectIndex key full)
    modify fun s => { s with prev1 := key }
  else pure ()

/-- The leaf of `Rule::expand`. -/
def visitDatum (v : WriteVisitor σ) (rule : RulePtr) (key full : Key) :
    EStateM Failure (WriteState σ) Unit := do
  if (← get).rule.isSome then throw (.seriousBug "More than one rule matching") else pure ()
  modify fun s => { s with rule := some rule }
  let _ ← onVisitor (v.selectDatum key full)

end WriteVisitor

namespace Rule

/-- `Rule::expand(field, cur, depth, keys, full, visitor)`; `atEnd` is what follows the
last predicate. -/
def expandFrom (matchFirstFdbRule : Bool) (field : Key) (depth : Nat)
    (atEnd : Workspace → EStateM Failure (WriteState σ) Workspace) :
    List Predicate → Workspace → EStateM Failure (WriteState σ) Workspace
  | cur, w => do
    if matchFirstFdbRule ∧ (← get).rule.isSome then return w
    else
      ensure (depth < 3) "depth < 3"
      match cur with
      | [] => atEnd w
      | p :: next =>
        let value ← Effect.lift (p.value field)
        let w := w.push depth p.keyword value
        let w ← if p.accepts (w.key depth) then
            expandFrom matchFirstFdbRule field depth atEnd next w
          else pure w
        Effect.lift (w.pop depth p.keyword)

end Rule

/-- `Schema::expandSecond(field, visitor, dbKey)`; `expandRule` expands one second-level rule
below its parents. -/
def Schema.expandSecond
    (expandRule : List Rule → Rule → Workspace → EStateM Failure (WriteState σ) Workspace)
    (s : Schema) (dbKey : Key) : EStateM Failure (WriteState σ) Unit :=
  match s.databaseRule dbKey with
  | none => throw (.assertion "dbRule")
  | some dbRule => do
    let _ ← dbRule.rules.foldlM (fun w r => expandRule [dbRule] r w)
      (Workspace.below s.registry dbKey)

/-- `Rule::expand` past the last predicate; `expandRule` expands a rule one level down, below
its parents. -/
def Rule.atEnd (v : WriteVisitor σ)
    (expandRule : List Rule → Rule → Workspace → EStateM Failure (WriteState σ) Workspace)
    (depth : Nat) (parents : List Rule) (r : Rule) (w : Workspace) :
    EStateM Failure (WriteState σ) Workspace := do
  if r.rules.isEmpty then
    ensure (depth = 2) "depth == 2"
    v.visitDatum ⟨r, parents⟩ (w.key 2) w.full
    return w
  else
    match depth with
    | 0 =>
      v.visitDatabase (w.key 0) w.full
      let schema ← onVisitor v.databaseSchema
      schema.expandSecond expandRule (w.key 0)
      return w
    | 1 =>
      v.visitIndex (w.key 1) w.full
      r.rules.foldlM (fun w r' => expandRule (r :: parents) r' w) w
    | _ => throw (.assertion "depth == 0 || depth == 1")

/-- `Rule::expand(field, visitor, depth, keys, full)`, with `levels` levels left: the depth is
`3 - levels`. -/
def Rule.expand (matchFirstFdbRule : Bool) (v : WriteVisitor σ) (field : Key) :
    (levels : Nat) → List Rule → Rule → Workspace → EStateM Failure (WriteState σ) Workspace
  | 0, _, r, w => Rule.expandFrom matchFirstFdbRule field 3 (fun w => pure w) r.predicates w
  | levels + 1, parents, r, w =>
    let depth := 3 - (levels + 1)
    Rule.expandFrom matchFirstFdbRule field depth (fun w =>
      r.atEnd v (Rule.expand matchFirstFdbRule v field levels) depth parents
        (w.setKey depth { w.key depth with registry := some r.registry })) r.predicates w

/-- `Schema::expand(field, visitor)`. -/
def Schema.expand (matchFirstFdbRule : Bool) (v : WriteVisitor σ) (s : Schema) (field : Key) :
    EStateM Failure (WriteState σ) Unit := do
  modify fun t => { t with rule := none }
  let _ ← s.rules.foldlM (fun w r => Rule.expand matchFirstFdbRule v field 3 [] r w)
    (Workspace.fresh s.registry)

end Fdb5
