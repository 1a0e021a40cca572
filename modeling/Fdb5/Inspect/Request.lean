import Fdb5.Rules.Expand
import Fdb5.Toc.Catalogue

/-! The read expansion: a request walks the rule tree and drives a `ReadVisitor`. -/
namespace Fdb5

open Effect

/-- What metkit and eckit make of the values of a request. -/
structure MarsTypes where
  /-- `request.getValues(keyword, ..)` into numbers or dates, written back by the named type. -/
  translate : (type value : String) → Except Failure String
  /-- Steps as ranges, after `StepRangeNormalise::normalise` with the axis, where there is one. -/
  steps : List String → Option (List String) → Except Failure (List String)
  /-- What `ParamID::normalise` makes of the values and of the axis. -/
  params : List String → List String → Except Failure (List String × List String)

/-- `DB::axis(keyword, axis)`: none is found, or some. -/
abbrev Axes := String → Option (Std.ExtTreeSet String)

def Axes.values (axes : Axes) (keyword : String) : List String :=
  ((axes keyword).getD ∅).toList

/-- `Type::getValues(request, keyword, values, wind, db)`; `db` is what the axes come from. -/
def FieldType.getValues (mars : MarsTypes) (t : FieldType) (request : MarsRequest) (keyword : String)
    (db : Option Axes) : Except Failure (List String) :=
  let values := request.values keyword
  match t.type with
  | "Ignore" => .ok []
  | "Grid" => .ok ["+".intercalate values]
  | "First3" => .ok (values.map fun v => String.ofList (v.toList.take 3))
  | "Integer" | "Double" | "Date" | "Month" | "ClimateDaily" | "ClimateMonthly" =>
    values.mapM (mars.translate t.type)
  | "Step" =>
    mars.steps values (db.map fun axes => (axes.values "step").filter fun step => step ≠ "")
  | "Param" =>
    match db with
    | none => .error (.assertion "db")
    | some axes => do
      let (user, axis) ← mars.params values (axes.values keyword)
      return user.filter fun param => param ∈ axis
  | _ => .ok values

namespace Matcher

def isOptional : Matcher → Bool
  | .optional _ | .hidden _ => true
  | _ => false

def defaultValue : Matcher → Except Failure String
  | .optional d | .hidden d => .ok d
  | _ => .error (.seriousBug "not implemented")

end Matcher

namespace Predicate

def isOptional (p : Predicate) : Bool := p.matcher.isOptional

def defaultValue (p : Predicate) : Except Failure String := p.matcher.defaultValue

end Predicate

variable {σ : Type}

/-- The callbacks of a `ReadVisitor`, on a state of type `σ` at which `values` only looks. -/
structure ReadVisitor (σ : Type) where
  selectDatabase : Key → Key → EStateM Failure σ Bool
  selectIndex : Key → Key → EStateM Failure σ Bool
  selectDatum : Key → Key → EStateM Failure σ Bool
  values : σ → MarsRequest → String → TypesRegistry → Except Failure (List String)
  databaseSchema : EStateM Failure σ Schema

/-- The values that `Rule::expand` tries for a predicate: what the visitor leaves of the request's,
or the default where it leaves none. -/
def Predicate.offered (p : Predicate) (values : Except Failure (List String)) :
    Except Failure (List String) := do
  let values ← values
  if values.isEmpty ∧ p.isOptional then return values ++ [← p.defaultValue] else return values

/-- `keys[depth].registry(registry)`. -/
def Workspace.setRegistry (w : Workspace) (depth : Nat) (registry : TypesRegistry) : Workspace :=
  w.setKey depth { w.key depth with registry := some registry }

namespace Rule

/-- One turn of the loop over a predicate's values; `inner` expands what comes after it. -/
def turn (depth : Nat) (p : Predicate) (inner : Workspace → EStateM Failure σ Workspace)
    (w : Workspace) (value : String) : EStateM Failure σ Workspace := do
  let w := w.push depth p.keyword value
  let w ← if p.accepts (w.key depth) then inner w else pure w
  lift (w.pop depth p.keyword)

/-- `Rule::expand(request, cur, depth, keys, full, visitor)`; `atEnd` is what follows the
last predicate. -/
def expandRequestFrom (v : ReadVisitor σ) (request : MarsRequest) (registry : TypesRegistry)
    (depth : Nat) (atEnd : Workspace → EStateM Failure σ Workspace) :
    List Predicate → Workspace → EStateM Failure σ Workspace
  | [], w => do
    ensure (depth < 3) "depth < 3"
    atEnd w
  | p :: next, w => do
    ensure (depth < 3) "depth < 3"
    let values ← lift (p.offered (v.values (← get) request p.keyword registry))
    values.foldlM (turn depth p (expandRequestFrom v request registry depth atEnd next)) w

end Rule

/-- `Schema::expandSecond(request, visitor, dbKey)`; `expandRule` expands one second-level rule. -/
def Schema.expandRequestSecond (expandRule : Rule → Workspace → EStateM Failure σ Workspace)
    (s : Schema) (dbKey : Key) : EStateM Failure σ Unit :=
  match s.databaseRule dbKey with
  | none => throw (.assertion "dbRule")
  | some dbRule => do
    let _ ← dbRule.rules.foldlM (fun w r => expandRule r w) (Workspace.below s.registry dbKey)

/-- `Rule::expand` past the last predicate; `expandRule` expands a rule one level down. -/
def Rule.atEndRequest (v : ReadVisitor σ) (expandRule : Rule → Workspace → EStateM Failure σ Workspace)
    (depth : Nat) (r : Rule) (w : Workspace) : EStateM Failure σ Workspace := do
  let w := w.setRegistry depth r.registry
  if r.rules.isEmpty then
    ensure (depth = 2) "depth == 2"
    let _ ← v.selectDatum (w.key 2) w.full
    return w
  else
    match depth with
    | 0 =>
      if ← v.selectDatabase (w.key 0) w.full then
        ensure ((w.key 0).keys = w.full.keys) "keys[0] == full"
        let schema ← v.databaseSchema
        schema.expandRequestSecond expandRule (w.key 0)
        return w
      else return w
    | 1 =>
      if ← v.selectIndex (w.key 1) w.full then r.rules.foldlM (fun w r' => expandRule r' w) w
      else return w
    | _ => throw (.assertion "depth == 0 || depth == 1")

/-- `Rule::expand(request, visitor, depth, keys, full)`, with `levels` levels left: the depth is
`3 - levels`. -/
def Rule.expandRequest (v : ReadVisitor σ) (request : MarsRequest) :
    (levels : Nat) → Rule → Workspace → EStateM Failure σ Workspace
  | 0, r, w => Rule.expandRequestFrom v request r.registry 3 (fun w => pure w) r.predicates w
  | levels + 1, r, w =>
    let depth := 3 - (levels + 1)
    Rule.expandRequestFrom v request r.registry depth
      (r.atEndRequest v (Rule.expandRequest v request levels) depth) r.predicates w

/-- `Schema::expand(request, visitor)`. -/
def Schema.expandRequest (v : ReadVisitor σ) (s : Schema) (request : MarsRequest) :
    EStateM Failure σ Unit := do
  let _ ← s.rules.foldlM (fun w r => Rule.expandRequest v request 3 r w) (Workspace.fresh s.registry)

end Fdb5
