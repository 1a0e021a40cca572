import Fdb5.Key

/-! Paths, URIs and the locations of fields. -/
namespace Fdb5

/-- The last component of a path: `PathName::unique` puts a stamp after the stem. -/
structure BaseName where
  stem : String
  stamp : Option Nat := none
  extension : String := ""
deriving DecidableEq, Repr

structure PathName where
  dirName : String
  baseName : BaseName
deriving DecidableEq, Repr

/-- A path as a record stores it, absolute when it starts with a `/`. -/
inductive StoredPath where
  | relative (base : BaseName)
  | absolute (path : PathName)
deriving DecidableEq, Repr

namespace StoredPath

def baseName : StoredPath → BaseName
  | relative base => base
  | absolute path => path.baseName

/-- The path written for `path` by an object of the directory `directory`. -/
def of (directory : String) (path : PathName) : StoredPath :=
  if path.dirName = directory then .relative path.baseName else .absolute path

end StoredPath

structure URI where
  scheme : String
  path : PathName
deriving DecidableEq, Repr

structure FieldLocation where
  uri : URI
  offset : Nat
  length : Nat
  remapKey : Key := {}

/-- `TocFieldLocation(path, offset, length, Key())`. -/
def FieldLocation.ofPath (path : PathName) (offset length : Nat) : FieldLocation where
  uri := ⟨"file", path⟩
  offset
  length

/-- What `UriStore::encode` writes for one URI. -/
inductive StoredURI where
  | path (path : StoredPath)
  | raw (uri : URI)
deriving DecidableEq

/-- The URIs an index refers to; the id of each is its position. -/
structure UriStore where
  directory : String
  uris : List URI := []
  readOnly : Bool := false
deriving DecidableEq

namespace UriStore

def insert (s : UriStore) (uri : URI) : Except Failure (Nat × UriStore) := do
  assert (s.readOnly = false) "!readOnly_"
  if uri ∈ s.uris then return (s.uris.idxOf uri, s)
  else return (s.uris.length, { s with uris := s.uris ++ [uri] })

def get (s : UriStore) (id : Nat) : Except Failure URI :=
  match s.uris[id]? with
  | some uri => .ok uri
  | none => .error (.assertion "itr != paths_.end()")

def encode (s : UriStore) : List StoredURI :=
  s.uris.map fun uri =>
    if uri.scheme = "file" then .path (StoredPath.of s.directory uri.path) else .raw uri

/-- `UriStore(directory, stream)`. -/
def decode (directory : String) (l : List StoredURI) : UriStore where
  directory
  readOnly := true
  uris := l.map fun
    | .path (.relative base) => ⟨"file", ⟨directory, base⟩⟩
    | .path (.absolute path) => ⟨"file", path⟩
    | .raw uri =>
      if uri.scheme = "unix" ∨ uri.scheme = "file" then ⟨"file", uri.path⟩ else uri

/-- What a reader has in place of a URI that was stored: a `unix` one is read as a `file`. -/
def reread (uri : URI) : URI := if uri.scheme = "unix" then ⟨"file", uri.path⟩ else uri

theorem decode_encode (s : UriStore) : (decode s.directory s.encode).uris = s.uris.map reread := by
  simp only [decode, encode, List.map_map]
  refine List.map_congr_left fun uri _ => ?_
  obtain ⟨scheme, dirName, base⟩ := uri
  by_cases hf : scheme = "file"
  · by_cases hd : dirName = s.directory <;> simp [reread, StoredPath.of, hf, hd]
  · by_cases hu : scheme = "unix" <;> simp [reread, hf, hu]

/-- An inserted URI has the id returned, and earlier URIs keep theirs. -/
theorem insert_id {s t : UriStore} {uri : URI} {id : Nat} (h : s.insert uri = .ok (id, t)) :
    id = t.uris.idxOf uri ∧ uri ∈ t.uris ∧ s.uris <+: t.uris ∧ t.directory = s.directory ∧
      t.readOnly = s.readOnly := by
  rw [insert] at h
  by_cases hr : s.readOnly = false
  · simp only [assert, hr, if_true, bind, Except.bind] at h
    split at h
    · rename_i hm
      cases h
      exact ⟨rfl, hm, List.prefix_rfl, rfl, rfl⟩
    · rename_i hm
      cases h
      refine ⟨?_, by simp, List.prefix_append _ _, rfl, hr.symm⟩
      simp [List.idxOf_append, hm]
  · simp [assert, hr, bind, Except.bind] at h

theorem mem_insert {s t : UriStore} {uri u : URI} {id : Nat} (h : s.insert uri = .ok (id, t)) :
    u ∈ t.uris ↔ u ∈ s.uris ∨ u = uri := by
  rw [insert] at h
  by_cases hr : s.readOnly = false
  · simp only [assert, hr, if_true, bind, Except.bind] at h
    split at h
    · rename_i hm
      cases h
      exact ⟨.inl, fun h => h.elim id fun he => he ▸ hm⟩
    · cases h
      simp
  · simp [assert, hr, bind, Except.bind] at h

theorem insert_ok {s : UriStore} (h : s.readOnly = false) (uri : URI) :
    ∃ r, s.insert uri = .ok r := by
  rw [insert]
  simp only [assert, h, if_true, bind, Except.bind]
  split <;> exact ⟨_, rfl⟩

end UriStore

end Fdb5
