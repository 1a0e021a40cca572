import Fdb5.Fingerprint
import Fdb5.Toc.FileSpace

/-! `RootManager`: the names of database directories, and the roots they may be under. -/
namespace Fdb5

open Effect

/-- `DbPathNamer`, with the texts of its expressions. -/
structure DbPathNamer where
  keyregex : StringDict
  format : String

namespace DbPathNamer

/-- `match(k, missing)`; `regex` is what `eckit::Regex` makes of a text. -/
def matches_ (regex : String → Regex) (n : DbPathNamer) (k : Key) (missing : Option String) : Bool :=
  k.keys.size = n.keyregex.size && k.keys.toList.all fun kv =>
    match n.keyregex[kv.1]? with
    | none => false
    | some expression => missing = some kv.2 || regex expression kv.2

/-- What stands for `{word}`. -/
def substitute (n : DbPathNamer) (k : Key) (missing : Option String) (word : String) : Except Failure String :=
  match k.find word, missing with
  | none, _ => .error (.userError ("FDB RootManager substituteVars: cannot find a value for '" ++ word ++ "'"))
  | some value, none => .ok value
  | some value, some missing =>
    if value = missing ∨ value = "" then
      match n.keyregex[word]? with
      | some expression => .ok expression
      | none => .error (.undefinedBehaviour "keyregex_.find(word)->second")
    else .ok value

/-- The loop of `substituteVars`, with the word it is in. -/
def substituteVars (n : DbPathNamer) (k : Key) (missing : Option String) : List Char → Option (List Char) → Except Failure String
  | [], none => .ok ""
  | [], some _ => .error (.userError "FDB RootManager substituteVars: missing \x7d")
  | '{' :: rest, none => substituteVars n k missing rest (some [])
  | '{' :: _, some _ => .error (.userError "FDB RootManager substituteVars: unexpected \x7b found")
  | '}' :: rest, some word => do
    let value ← n.substitute k missing (String.ofList word)
    return value ++ (← substituteVars n k missing rest none)
  | '}' :: _, none => .error (.userError "FDB RootManager substituteVars: unexpected \x7d found")
  | c :: rest, some word => substituteVars n k missing rest (some (word ++ [c]))
  | c :: rest, none => do return String.singleton c ++ (← substituteVars n k missing rest none)

def name (n : DbPathNamer) (k : Key) : Except Failure String := n.substituteVars k none n.format.toList none

def namePartial (n : DbPathNamer) (k : Key) (missing : String) : Except Failure String :=
  n.substituteVars k (some missing) n.format.toList none

end DbPathNamer

structure RootManager where
  regex : String → Regex
  dbPathNamers : List DbPathNamer := []
  spacesTable : List FileSpace

namespace RootManager

def dbPathName (m : RootManager) (key : Key) : Except Failure String :=
  match m.dbPathNamers.find? fun n => n.matches_ m.regex key none with
  | some n => n.name key
  | none => key.valuesToString

/-- The paths of the roots of a space that it has enabled and that exist. -/
def enabledRoots (tree : RootTree) (i : ControlIdentifier) (space : FileSpace) : List String :=
  (space.roots.filter fun r => r.usable tree i).map Root.path

/-- The roots of the spaces that match the key. -/
def rootsOf (m : RootManager) (tree : RootTree) (i : ControlIdentifier) (key : Key) : Except Failure (List String) := do
  let k ← key.valuesToString
  let roots := (m.spacesTable.filter fun space => space.re k).flatMap (enabledRoots tree i)
  return (Std.ExtTreeSet.ofList roots).toList

def canMoveToRoots (m : RootManager) (tree : RootTree) (key : Key) : Except Failure (List String) := m.rootsOf tree .wipe key

end RootManager

end Fdb5
