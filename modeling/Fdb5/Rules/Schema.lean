import Fdb5.Key

/-! Schemas: matchers, predicates and the rule trees that split a field's keywords. -/
namespace Fdb5

inductive Matcher where
  | always
  | value (value : String)
  | any (values : List String)
  | optional (default : String)
  | hidden (default : String)
deriving DecidableEq, Repr

namespace Matcher

/-- `Matcher::match(keyword, key)`. -/
def accepts (m : Matcher) (keyword : String) (key : Key) : Bool :=
  match m with
  | .always | .optional _ | .hidden _ => true
  | .value v => key.find keyword == some v
  | .any vs => match key.find keyword with
    | none => false
    | some v => vs.contains v

/-- `Matcher::value(key, keyword)`. -/
def valueOf (m : Matcher) (key : Key) (keyword : String) : Except Failure String :=
  match m with
  | .always | .value _ | .any _ => key.get keyword
  | .optional d => match key.find keyword with
    | none => .ok d
    | some _ => key.get keyword
  | .hidden d => .ok d

/-- `Matcher::fill(key, keyword, value)`. -/
def fill (m : Matcher) (key : Key) (keyword value : String) : Key :=
  match m with
  | .optional _ => if value = "" then key else key.push keyword value
  | _ => key.push keyword value

end Matcher

structure Predicate where
  keyword : String
  matcher : Matcher
deriving DecidableEq, Repr

namespace Predicate

def accepts (p : Predicate) (key : Key) : Bool := p.matcher.accepts p.keyword key

def value (p : Predicate) (key : Key) : Except Failure String :=
  p.matcher.valueOf key p.keyword

def fill (p : Predicate) (key : Key) (value : String) : Key :=
  p.matcher.fill key p.keyword value

end Predicate

/-- A rule with the registry that `Schema::check` linked to its parent's. -/
inductive Rule where
  | mk (line : Nat) (predicates : List Predicate) (rules : List Rule)
      (registry : TypesRegistry)

namespace Rule

def line : Rule → Nat
  | .mk line _ _ _ => line

def predicates : Rule → List Predicate
  | .mk _ predicates _ _ => predicates

def rules : Rule → List Rule
  | .mk _ _ rules _ => rules

def registry : Rule → TypesRegistry
  | .mk _ _ _ registry => registry

mutual
/-- `Rule::depth()`. -/
def depth : Rule → Nat
  | .mk _ _ rules _ => depths rules + 1

def depths : List Rule → Nat
  | [] => 0
  | r :: rs => max r.depth (depths rs)
end

/-- `Rule::match(key)`. -/
def accepts (r : Rule) (key : Key) : Bool := r.predicates.all fun p => p.accepts key

/-- `Rule::ruleFor(keys, depth)`, on the keys from `depth` on. -/
def ruleFor : List Key → Rule → Option Rule
  | [], r => some r
  | key :: keys, r => if r.accepts key then r.rules.findSome? (ruleFor keys) else none

/-- The loop of `Rule::fill`; `extra` tells that there is one value too many. -/
def fillLoop (extra : Bool) : List Predicate → List String → Key → Except Failure Key
  | [], [], key => .ok key
  | [], _ :: _, _ => .error (.assertion "it_value == values.end()")
  | _ :: _, [], _ => .error (.assertion "it_pred == predicates_.end()")
  | p :: ps, v :: vs, key =>
    if extra ∧ p.keyword = "quantile" then
      match vs with
      | [] => .error (.assertion "it_value != values.end()")
      | w :: ws => fillLoop extra ps ws (p.fill key (v ++ ":" ++ w))
    else fillLoop extra ps vs (p.fill key v)

def fill (r : Rule) (key : Key) (values : List String) : Except Failure Key := do
  assert (r.predicates.length ≤ values.length) "values.size() >= predicates_.size()"
  assert (values.length ≤ r.predicates.length + 1) "values.size() <= predicates_.size() + 1"
  fillLoop (values.length == r.predicates.length + 1) r.predicates values key

/-- The loop of `Rule::check` over one rule's own predicates. -/
def checkOwn (r : Rule) (key : Key) : Except Failure Unit :=
  r.predicates.forM fun p =>
    match key.find p.keyword with
    | none => .ok ()
    | some value => do
      let type ← r.registry.lookupType p.keyword
      let tidied ← type.tidy p.keyword value
      unless value = tidied do
        throw (.userError ("Rule check - metadata not valid (not in canonical form) - found: "
          ++ p.keyword ++ "=" ++ value ++ " - expecting " ++ tidied))

end Rule

/-- A `const Rule*` with the chain of parents that `Rule::parent_` leads through. -/
structure RulePtr where
  rule : Rule
  parents : List Rule

/-- `Rule::check(key)`: the rule's own predicates, then its parents'. -/
def RulePtr.check (p : RulePtr) (key : Key) : Except Failure Unit := do
  p.rule.checkOwn key
  p.parents.forM fun r => r.checkOwn key

/-- `Key(fingerprint, rule)`. -/
def Key.ofFingerprint (s : String) (rule : Option Rule) : Except Failure Key :=
  match rule with
  | none => .error (.assertion "rule")
  | some r => r.fill { registry := some r.registry } (tokenize s)

structure Schema where
  registry : TypesRegistry
  rules : List Rule

namespace Schema

/-- `Schema::check()`. -/
def check (s : Schema) : Except Failure Unit :=
  s.rules.forM fun r => assert (r.depth = 3) "(*i)->depth() == 3"

def ruleFor (s : Schema) (dbKey idxKey : Key) : Option Rule :=
  s.rules.findSome? (Rule.ruleFor [dbKey, idxKey])

/-- The rule from which `Schema::expandSecond` takes the second level. -/
def databaseRule (s : Schema) (dbKey : Key) : Option Rule :=
  s.rules.find? fun r => r.accepts dbKey

end Schema

end Fdb5
