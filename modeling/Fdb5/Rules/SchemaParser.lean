import Fdb5.Rules.Schema

/-! The text of schemas: the parser, and the dump of what it makes. -/
namespace Fdb5

open Effect

/-- A `Rule` as it is written, with the types of its own registry. -/
inductive ParsedRule where
  | mk (predicates : List Predicate) (rules : List ParsedRule) (types : StringDict)

namespace ParsedRule

def predicates : ParsedRule → List Predicate
  | .mk predicates _ _ => predicates

def rules : ParsedRule → List ParsedRule
  | .mk _ rules _ => rules

def types : ParsedRule → StringDict
  | .mk _ _ types => types

mutual
def decEq : (r r' : ParsedRule) → Decidable (r = r')
  | .mk predicates rules types, .mk predicates' rules' types' =>
    have := decEqList rules rules'
    decidable_of_iff (predicates = predicates' ∧ rules = rules' ∧ types = types') (by simp)

def decEqList : (rules rules' : List ParsedRule) → Decidable (rules = rules')
  | [], [] => isTrue rfl
  | [], _ :: _ => isFalse (by simp)
  | _ :: _, [] => isFalse (by simp)
  | r :: rules, r' :: rules' =>
    have := decEq r r'
    have := decEqList rules rules'
    decidable_of_iff (r = r' ∧ rules = rules') (by simp)
end

instance : DecidableEq ParsedRule := decEq

end ParsedRule

/-- A `Schema` as it is written. -/
structure ParsedSchema where
  types : StringDict
  rules : List ParsedRule
deriving DecidableEq

namespace SchemaParser

section Stream

/-- `isspace(c)`. -/
def isBlank (c : Char) : Bool := c = ' ' ∨ 9 ≤ c.toNat ∧ c.toNat ≤ 13

/-- What `eckit::StreamParser` gives of a text: neither blanks nor comments, which go from a `#` to the end of its
line. -/
def significant (comment : Bool) : List Char → List Char
  | [] => []
  | c :: text =>
    if comment then significant (c ≠ '\n') text
    else if c = '#' then significant true text
    else if isBlank c then significant false text
    else c :: significant false text

/-- What is at the end of the file. -/
def nul : Char := Char.ofNat 0

def peek : EStateM Failure (List Char) Char := do return (← get).headD nul

def consume (c : Char) : EStateM Failure (List Char) Unit := do
  match ← get with
  | d :: text => if d = c then set text else throw (.exception "StreamParser::consume")
  | [] => throw (.exception "StreamParser::next")

/-- A loop has had more turns than there are characters. -/
def endless : Failure := .undefinedBehaviour "for (;;)"

end Stream

/-- The characters that end an identifier wherever it stands. -/
def stops : List Char := [nul, '/', '=', ',', ';', ':', '[', ']', '?']

/-- The loop of `parseIdent`. -/
def identLoop (value emptyOK : Bool) (s : List Char) : List Char → EStateM.Result Failure (List Char) String
  | [] =>
    if s.isEmpty ∧ emptyOK = false then .error (.exception "Syntax error: found '0'") []
    else .ok (String.ofList s) []
  | c :: text =>
    if c ∈ stops then
      if s.isEmpty ∧ emptyOK = false then
        .error (.exception ("Syntax error: found '" ++ toString c.toNat ++ "'")) (c :: text)
      else .ok (String.ofList s) (c :: text)
    else if c = '-' ∧ s.isEmpty ∧ emptyOK = false then .error (.exception "Syntax error: found '-'") (c :: text)
    else if c = '-' ∧ value = false then .ok (String.ofList s) (c :: text)
    else identLoop value emptyOK (s ++ [c]) text

/-- `SchemaParser::parseIdent(value, emptyOK)`. -/
def parseIdent (value emptyOK : Bool) : EStateM Failure (List Char) String := identLoop value emptyOK []

/-- The loop over the values of a predicate. -/
def parseValues : Nat → Std.ExtTreeSet String → EStateM Failure (List Char) (Std.ExtTreeSet String)
  | 0, _ => throw endless
  | n + 1, values => do
    if (← peek) = '/' then
      consume '/'
      let v ← parseIdent true false
      parseValues n (values.insert v)
    else return values

/-- The matcher for the values of a predicate. -/
def matcherOf (values : Std.ExtTreeSet String) : Matcher :=
  match values.toList with
  | [] => .always
  | [v] => .value v
  | vs => .any vs

/-- What `parsePredicate` does about a type after the keyword. -/
def parseType (k : String) (types : StringDict) : EStateM Failure (List Char) StringDict := do
  if (← peek) = ':' then
    consume ':'
    ensure (types[k]? = none) "types.find(k) == types.end()"
    return types.insert k (← parseIdent false false)
  else return types

/-- What `parsePredicate` does about a matcher after that. -/
def parseMatcher (k : String) (types : StringDict) : EStateM Failure (List Char) (Predicate × StringDict) := do
  let c ← peek
  if c = '?' then
    consume '?'
    return (⟨k, .optional (← parseIdent true true)⟩, types)
  else if c = '-' then
    consume '-'
    return (⟨k, .hidden (← parseIdent true true)⟩, if types[k]? = none then types.insert k "Ignore" else types)
  else if c ≠ ',' ∧ c ≠ '[' ∧ c ≠ ']' then
    consume '='
    let v ← parseIdent true false
    let values ← parseValues ((← get).length + 1) ((∅ : Std.ExtTreeSet String).insert v)
    return (⟨k, matcherOf values⟩, types)
  else return (⟨k, matcherOf ∅⟩, types)

/-- `SchemaParser::parsePredicate(types)`. -/
def parsePredicate (types : StringDict) : EStateM Failure (List Char) (Predicate × StringDict) := do
  let k ← parseIdent false false
  let types ← parseType k types
  parseMatcher k types

/-- `SchemaParser::parseTypes(types)`. -/
def parseTypes : Nat → StringDict → EStateM Failure (List Char) StringDict
  | 0, _ => throw endless
  | n + 1, types => do
    let name ← parseIdent false true
    if name = "" then return types
    else
      consume ':'
      let type ← parseIdent false false
      consume ';'
      ensure (types[name]? = none) "types.find(name) == types.end()"
      parseTypes n (types.insert name type)

/-- The loop of `parseRule` over predicates. -/
def parsePredicates : Nat → List Predicate → StringDict → EStateM Failure (List Char) (List Predicate × StringDict)
  | 0, _, _ => throw endless
  | n + 1, predicates, types => do
    let (p, types) ← parsePredicate types
    if (← peek) = ',' then
      consume ','
      parsePredicates n (predicates ++ [p]) types
    else return (predicates ++ [p], types)

mutual
/-- `SchemaParser::parseRule(owner)`. -/
def parseRule : Nat → EStateM Failure (List Char) ParsedRule
  | 0 => throw endless
  | n + 1 => do
    consume '['
    if (← peek) = ']' then
      consume ']'
      return .mk [] [] ∅
    else parseBody n [] [] ∅

/-- The outer loop of `parseRule`. -/
def parseBody : Nat → List Predicate → List ParsedRule → StringDict → EStateM Failure (List Char) ParsedRule
  | 0, _, _, _ => throw endless
  | n + 1, predicates, rules, types => do
    let (predicates, rules, types) ← (do
      if (← peek) = '[' then
        let rules ← parseRules n rules
        return (predicates, rules, types)
      else
        let (predicates, types) ← parsePredicates n predicates types
        return (predicates, rules, types))
    if (← peek) = ']' then
      consume ']'
      return .mk predicates rules types
    else parseBody n predicates rules types

/-- The loop over rules, in a rule or in the schema. -/
def parseRules : Nat → List ParsedRule → EStateM Failure (List Char) (List ParsedRule)
  | 0, _ => throw endless
  | n + 1, rules => do
    if (← peek) = '[' then
      let r ← parseRule n
      parseRules n (rules ++ [r])
    else return rules
end

/-- The body of `SchemaParser::parse`, with loops of so many turns at most. -/
def parseSchema (n : Nat) : EStateM Failure (List Char) ParsedSchema := do
  let types ← parseTypes n ∅
  let rules ← parseRules n []
  let c ← peek
  if c ≠ nul then throw (.exception ("Error parsing rules: remaining char: " ++ String.singleton c))
  else return { types, rules }

/-- `SchemaParser::parse(owner, result, registry)` of a text, into a new schema. -/
def parse (text : String) : Except Failure ParsedSchema :=
  let chars := significant false text.toList
  value ((parseSchema (3 * chars.length + 3)).run chars)

end SchemaParser

/-- `TypesRegistry::dump(out, keyword)`. -/
def dumpType (types : StringDict) (keyword : String) : List Char :=
  match types[keyword]? with
  | some type => keyword.toList ++ ':' :: type.toList
  | none => keyword.toList

/-- The values of `MatchAny::dump`. -/
def dumpValues : List String → List Char
  | [] => []
  | [v] => v.toList
  | v :: vs => v.toList ++ '/' :: dumpValues vs

/-- `Predicate::dump(s, registry)`, by what its matcher does. -/
def Predicate.dump (types : StringDict) (p : Predicate) : List Char :=
  match p.matcher with
  | .always => dumpType types p.keyword
  | .value v => dumpType types p.keyword ++ '=' :: v.toList
  | .any vs => dumpType types p.keyword ++ '=' :: dumpValues vs
  | .optional d => dumpType types p.keyword ++ '?' :: d.toList
  | .hidden d => dumpType types p.keyword ++ '-' :: d.toList

/-- The predicates of `Rule::dump`. -/
def dumpPredicates (types : StringDict) : List Predicate → List Char
  | [] => []
  | [p] => p.dump types
  | p :: ps => p.dump types ++ ',' :: dumpPredicates types ps

mutual
/-- `Rule::dump(s, depth)`. -/
def ParsedRule.dump : ParsedRule → List Char
  | .mk predicates rules types => '[' :: (dumpPredicates types predicates ++ (dumpRules rules ++ [']']))

def dumpRules : List ParsedRule → List Char
  | [] => []
  | r :: rules => r.dump ++ dumpRules rules
end

/-- `Schema::dump(s)`. -/
def ParsedSchema.dump (s : ParsedSchema) : String :=
  String.ofList (s.types.toList.flatMap (fun kv => kv.1.toList ++ ':' :: kv.2.toList ++ [';', '\n']) ++
    s.rules.flatMap fun r => r.dump ++ ['\n'])

end Fdb5
