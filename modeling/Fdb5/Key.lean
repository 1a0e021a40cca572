import Mathlib.Tactic.Common
import Std.Data.ExtTreeMap
import Std.Data.ExtTreeSet
import Fdb5.Library.Effect

/-! Keys: the ordered keyword-value maps every layer of the database exchanges. -/
namespace Fdb5

/-- What the code throws, and the two ways in which a process can end instead. -/
inductive Failure where
  | assertion (condition : String)
  | seriousBug (what : String)
  | userError (what : String)
  | exception (what : String)
  | system (call : String)
  | undefinedBehaviour (what : String)
  | terminate
deriving DecidableEq, Repr

/-- `ASSERT(condition)`. -/
def assert (c : Prop) [Decidable c] (condition : String) : Except Failure Unit :=
  if c then .ok () else .error (.assertion condition)

theorem assert_ok {c : Prop} [Decidable c] {condition : String} {u : Unit} :
    assert c condition = .ok u ↔ c := by
  rw [assert]
  split <;> simp_all

/-- `ASSERT(condition)` in code that has a state. -/
def ensure {σ : Type} (c : Prop) [Decidable c] (condition : String) : EStateM Failure σ Unit :=
  Effect.lift (assert c condition)

@[simp] theorem ends_ensure {σ : Type} {c : Prop} [Decidable c] {condition : String} {s : σ}
    {Q : Unit → σ → Prop} {E : Failure → σ → Prop} : Effect.Ends (ensure c condition) s Q E ↔
      (c → Q () s) ∧ (¬ c → E (.assertion condition) s) := by
  by_cases h : c
  · rw [ensure, assert, if_pos h]
    exact ⟨fun hq => ⟨fun _ => hq, absurd h⟩, fun hq => hq.1 h⟩
  · rw [ensure, assert, if_neg h]
    exact ⟨fun hq => ⟨fun hc => absurd hc h, fun _ => hq⟩, fun hq => hq.2 h⟩

/-- `std::map<std::string, std::string>`. -/
abbrev StringDict := Std.ExtTreeMap String String

/-- `eckit::Regex`, which is what it matches. -/
abbrev Regex := String → Bool

/-- The virtual methods of `Type` that keys and rules call. -/
structure FieldType where
  type : String
  tidy : String → String → Except Failure String
  toKey : String → String → Except Failure String

/-- A types registry, linked to its parents. -/
structure TypesRegistry where
  lookupType : String → Except Failure FieldType

/-- `TypesRegistry::lookupType`: own types, then the parent's, then `Default`. -/
def TypesRegistry.link (build : String → String → Except Failure FieldType)
    (types : StringDict) (parent : Option TypesRegistry) : TypesRegistry where
  lookupType keyword :=
    match types[keyword]?, parent with
    | some type, _ => build type keyword
    | none, some registry => registry.lookupType keyword
    | none, none => build "Default" keyword

/-- `Type::tidy` and `Type::toKey`, which `TypeDefault` does not override. -/
def typeDefault : FieldType where
  type := "Default"
  tidy _ value := .ok value
  toKey _ value := .ok value

/-- The registry of a schema that gives no keyword a type. -/
def TypesRegistry.untyped : TypesRegistry where
  lookupType _ := .ok typeDefault

structure Key where
  keys : StringDict := ∅
  names : List String := []
  registry : Option TypesRegistry := none
  canonical : Bool := false

namespace Key

/-- The `std::initializer_list` constructor. -/
def ofList (l : List (String × String)) (registry : Option TypesRegistry) : Key :=
  let keys := l.foldl (fun d kv => if kv.1 ∈ d then d else d.insert kv.1 kv.2) (∅ : StringDict)
  { keys, names := keys.keys, registry, canonical := registry.isNone }

def find (k : Key) (keyword : String) : Option String := k.keys[keyword]?

def empty (k : Key) : Bool := k.keys.isEmpty

def set (k : Key) (keyword value : String) : Key :=
  if keyword ∈ k.keys then { k with keys := k.keys.insert keyword value }
  else { k with names := k.names ++ [keyword], keys := k.keys.insert keyword value }

/-- `Key::unset`: the names keep the keyword. -/
def unset (k : Key) (keyword : String) : Key := { k with keys := k.keys.erase keyword }

def push (k : Key) (keyword value : String) : Key :=
  { k with keys := k.keys.insert keyword value, names := k.names ++ [keyword] }

def pop (k : Key) (keyword : String) : Except Failure Key := do
  assert (k.names.getLast? = some keyword) "names_.back() == k"
  return { k with keys := k.keys.erase keyword, names := k.names.dropLast }

def get (k : Key) (keyword : String) : Except Failure String :=
  match k.find keyword with
  | some value => .ok value
  | none => .error (.seriousBug ("Key::get() failed for [" ++ keyword ++ "]"))

/-- `Key::registry() const`. -/
def registryOf (k : Key) : Except Failure TypesRegistry :=
  match k.registry with
  | some registry => .ok registry
  | none => .error (.seriousBug "TypesRegistry has not been set for Key prior to use")

def canonicalise (k : Key) (keyword value : String) : Except Failure String :=
  if value = "" ∨ k.canonical then .ok value
  else do
    let type ← (← k.registryOf).lookupType keyword
    type.toKey keyword value

def canonicalValue (k : Key) (keyword : String) : Except Failure String :=
  match k.find keyword with
  | some value => k.canonicalise keyword value
  | none => .error (.assertion "it != keys_.end()")

/-- The values that `valuesToString` joins, in the order of the names. -/
def canonicalValues (k : Key) : Except Failure (List String) :=
  k.names.mapM k.canonicalValue

def valuesToString (k : Key) : Except Failure String := do
  assert (k.names.length = k.keys.size) "names_.size() == keys_.size()"
  return ":".intercalate (← k.canonicalValues)

/-- `Key::match(key, values)` on an axis of canonical values. -/
def matchAxis (k : Key) (keyword : String) (values : Std.ExtTreeSet String) :
    Except Failure Bool :=
  match k.find keyword with
  | none => .ok false
  | some value =>
    if value ∈ values then .ok true
    else do return (← k.canonicalise keyword value) ∈ values

/-- `Key::validateKeysOf(other)`, which compares the keywords only. -/
def validateKeysOf (k other : Key) : Except Failure Unit := do
  unless k.canonical do
    let _ ← k.registryOf
  let missing := k.keys.keys.filter fun keyword => other.find keyword = none
  unless missing.isEmpty do
    throw (.seriousBug ("Keywords not used: " ++ ",".intercalate missing))

/-- What a stream gives back for a key written to it: no registry, canonical values. -/
def encode (k : Key) : Except Failure Key := do
  unless k.canonical do
    let _ ← k.registryOf
  let values ← k.keys.toList.mapM fun kv => do
    return (kv.1, ← k.canonicalise kv.1 kv.2)
  return { keys := Std.ExtTreeMap.ofList values, names := k.names, canonical := true }

/-- The entries of a key are looked up as the key itself is. -/
theorem lookup_toList {k : Key} {keyword : String} : k.keys.toList.lookup keyword = k.find keyword := by
  have hnodup : (k.keys.toList.map Prod.fst).Nodup :=
    List.pairwise_map.mpr (Std.ExtTreeMap.distinct_keys_toList.imp fun h => by simpa using h)
  cases hfind : k.find keyword with
  | none =>
    refine List.lookup_eq_none_iff.mpr fun kv hkv => ?_
    have hget := Std.ExtTreeMap.mem_toList_iff_getElem?_eq_some.mp hkv
    rw [bne_iff_ne]
    rintro rfl
    rw [find, hget] at hfind
    cases hfind
  | some value =>
    obtain ⟨l₁, l₂, hl⟩ := List.append_of_mem (Std.ExtTreeMap.mem_toList_iff_getElem?_eq_some.mpr hfind)
    refine List.lookup_eq_some_iff.mpr ⟨l₁, l₂, hl, fun kv hkv => ?_⟩
    rw [hl, List.map_append, List.nodup_append] at hnodup
    have hne := hnodup.2.2 kv.1 (List.mem_map_of_mem hkv) keyword (by simp)
    simpa using Ne.symm hne

/-- A keyword is one of the key's when it is found. -/
theorem mem_keys_iff {k : Key} {keyword : String} : keyword ∈ k.keys ↔ ∃ value, k.find keyword = some value := by
  rw [find, ← Option.isSome_iff_exists, Std.ExtTreeMap.isSome_getElem?_iff_mem]

end Key

/-- `eckit::Tokenizer(":", true)`. -/
def tokenize (s : String) : List String := (s.toList.splitOn ':').map String.ofList

end Fdb5
