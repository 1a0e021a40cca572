import Mathlib.Tactic.Common
import Mathlib.Data.List.Nodup
import Fdb5.Library.LastWins
import Fdb5.Location

/-! The two maps of a `UriStore`, and what becomes of its URIs in another directory. -/
namespace Fdb5

open LastWins

/-- The path begins with a `/`. -/
def PathName.isAbsolute (p : PathName) : Bool := p.dirName.toList.head? = some '/'

/-- `directory / path`, for a path that is relative: that of a bare name has the directory `.`. -/
def PathName.under (directory : String) (p : PathName) : PathName :=
  if p.dirName = "." then ⟨directory, p.baseName⟩ else ⟨directory ++ "/" ++ p.dirName, p.baseName⟩

/-- The path of a file URI, for a database in this directory. -/
def PathName.rooted (directory : String) (p : PathName) : PathName :=
  if p.isAbsolute then p else p.under directory

/-- The file lies in a directory below this one. -/
def PathName.isBelow (directory : String) (p : PathName) : Bool :=
  (directory ++ "/").toList.isPrefixOf p.dirName.toList

/-- The same file when one directory has become another. -/
def PathName.relocate (directory directory' : String) (p : PathName) : PathName :=
  if p.dirName = directory ∨ p.isBelow directory then
    ⟨String.ofList (directory'.toList ++ p.dirName.toList.drop directory.length), p.baseName⟩
  else p

/-- The file's scheme is one of those that decoding treats alike. -/
def URI.isFile (uri : URI) : Bool := uri.scheme = "unix" ∨ uri.scheme = "file"

/-- What `encode` writes for one URI of a database in this directory. -/
def URI.encodeIn (directory : String) (uri : URI) : StoredURI :=
  if uri.scheme = "file" then .path (StoredPath.of directory uri.path) else .raw uri

/-- What the stream constructor makes of it, for a database in this directory. -/
def StoredURI.decodeIn (directory : String) : StoredURI → URI
  | .path (.relative base) => ⟨"file", ⟨directory, base⟩⟩
  | .path (.absolute p) => ⟨"file", p.rooted directory⟩
  | .raw uri => if uri.isFile then ⟨"file", uri.path.rooted directory⟩ else uri

/-- The same URI when one directory has become another. -/
def URI.relocate (directory directory' : String) (uri : URI) : URI :=
  if uri.isFile then ⟨uri.scheme, uri.path.relocate directory directory'⟩ else uri

/-- A `UriStore` with both its maps. -/
structure UriTable where
  directory : String
  next : Nat := 0
  readOnly : Bool := false
  ids : URI → Option Nat := fun _ => none
  paths : Std.ExtTreeMap Nat URI := ∅

namespace UriTable

/-- `UriStore::insert(path)`. -/
def insert (t : UriTable) (uri : URI) : Except Failure (Nat × UriTable) := do
  assert (t.readOnly = false) "!readOnly_"
  match t.ids uri with
  | some id => return (id, t)
  | none => return (t.next, { t with
      next := t.next + 1
      ids := Function.update t.ids uri (some t.next)
      paths := t.paths.insert t.next uri })

def get (t : UriTable) (id : Nat) : Except Failure URI :=
  match t.paths[id]? with
  | some uri => .ok uri
  | none => .error (.assertion "itr != paths_.end()")

def encode (t : UriTable) : List (Nat × StoredURI) :=
  t.paths.toList.map fun e => (e.1, e.2.encodeIn t.directory)

/-- One turn of the loop of `UriStore(directory, stream)`. -/
def decodeEntry (t : UriTable) (e : Nat × StoredURI) : UriTable :=
  let uri := e.2.decodeIn t.directory
  { t with
    next := max (e.1 + 1) t.next
    ids := Function.update t.ids uri (some e.1)
    paths := t.paths.insert e.1 uri }

/-- `UriStore(directory, stream)`. -/
def decode (directory : String) (l : List (Nat × StoredURI)) : UriTable :=
  l.foldl decodeEntry { directory, readOnly := true }

def insertAll (directory : String) (uris : List URI) : Except Failure UriTable :=
  uris.foldlM (fun t uri => Prod.snd <$> t.insert uri) { directory }

/-- Ids and URIs are in bijection. -/
def Bijection (t : UriTable) : Prop := ∀ id uri, t.paths[id]? = some uri ↔ t.ids uri = some id

/-- The table is the store that numbers its URIs by their positions. -/
structure Represents (t : UriTable) (s : UriStore) : Prop where
  directory : t.directory = s.directory
  readOnly : t.readOnly = s.readOnly
  next : t.next = s.uris.length
  nodup : s.uris.Nodup
  paths : ∀ id : Nat, t.paths[id]? = s.uris[id]?
  ids : ∀ uri, t.ids uri = if uri ∈ s.uris then some (s.uris.idxOf uri) else none

variable {t : UriTable} {s : UriStore} {directory directory' : String} {uri : URI} {uris : List URI} {id : Nat}

theorem represents_empty : Represents { directory } { directory } := by
  constructor <;> simp

theorem represents_insert (h : t.Represents s) (hr : s.readOnly = false) :
    ∃ id t' s', t.insert uri = .ok (id, t') ∧ s.insert uri = .ok (id, s') ∧ t'.Represents s' := by
  have hrt : t.readOnly = false := h.readOnly.trans hr
  by_cases hmem : uri ∈ s.uris
  · refine ⟨s.uris.idxOf uri, t, s, ?_, ?_, h⟩
    · simp [insert, assert, hrt, h.ids, hmem, bind, Except.bind, pure, Except.pure]
    · simp [UriStore.insert, assert, hr, hmem, bind, Except.bind, pure, Except.pure]
  · have ht : t.insert uri = .ok (t.next, { t with
        next := t.next + 1
        ids := Function.update t.ids uri (some t.next)
        paths := t.paths.insert t.next uri }) := by
      simp [insert, assert, hrt, h.ids, hmem, bind, Except.bind, pure, Except.pure]
    have hs : s.insert uri = .ok (s.uris.length, { s with uris := s.uris ++ [uri] }) := by
      simp [UriStore.insert, assert, hr, hmem, bind, Except.bind, pure, Except.pure]
    refine ⟨t.next, _, { s with uris := s.uris ++ [uri] }, ht, by rw [h.next]; exact hs, h.directory, h.readOnly,
      by simp [h.next], ?_, fun id => ?_, fun u => ?_⟩
    · rw [List.nodup_append]
      refine ⟨h.nodup, by simp, fun a ha b hb he => ?_⟩
      obtain rfl := List.mem_singleton.mp hb
      exact hmem (he ▸ ha)
    · rw [Std.ExtTreeMap.getElem?_insert, h.paths, h.next, List.getElem?_append]
      rcases Nat.lt_trichotomy s.uris.length id with hlt | rfl | hlt
      · have hnot : ¬ id < s.uris.length := by omega
        have hpos : [uri][id - s.uris.length]? = none := List.getElem?_eq_none (by simp; omega)
        simp [hnot, hpos, Nat.ne_of_lt hlt]
      · simp
      · simp [hlt, Nat.ne_of_gt hlt]
    · by_cases hu : u = uri
      · subst hu
        simp [h.next, List.idxOf_append, hmem]
      · simp only [Function.update_of_ne hu, h.ids, List.mem_append, List.mem_singleton, hu, or_false]
        split
        · rename_i hin
          rw [List.idxOf_append, if_pos hin]
        · rfl

theorem Represents.bijection (h : t.Represents s) : t.Bijection := by
  intro id uri
  rw [h.paths, h.ids]
  constructor
  · intro hid
    have hmem := List.mem_of_getElem? hid
    obtain ⟨hlt, rfl⟩ := List.getElem?_eq_some_iff.mp hid
    rw [if_pos hmem, h.nodup.idxOf_getElem]
  · intro hid
    split at hid
    · rename_i hmem
      obtain rfl := Option.some.inj hid
      exact List.getElem?_idxOf hmem
    · cases hid

theorem insertAll_represents (h : t.Represents s) (hr : s.readOnly = false) :
    ∃ t' s', uris.foldlM (fun t uri => Prod.snd <$> t.insert uri) t = Except.ok (ε := Failure) t' ∧
      t'.Represents s' ∧ s'.directory = s.directory ∧ ∀ u, u ∈ s'.uris ↔ u ∈ s.uris ∨ u ∈ uris := by
  induction uris generalizing t s with
  | nil => exact ⟨t, s, rfl, h, rfl, by simp⟩
  | cons uri uris ih =>
    obtain ⟨id, t₁, s₁, ht, hs, h₁⟩ : ∃ id t₁ s₁, t.insert uri = .ok (id, t₁) ∧ s.insert uri = .ok (id, s₁) ∧
      t₁.Represents s₁ := represents_insert h hr
    have hid := UriStore.insert_id hs
    obtain ⟨t', s', ht', h', hdir, hmem⟩ := ih h₁ (hid.2.2.2.2.trans hr)
    refine ⟨t', s', ?_, h', hdir.trans hid.2.2.2.1, fun u => ?_⟩
    · simpa [List.foldlM_cons, ht, bind, Except.bind, Functor.map, Except.map] using ht'
    · rw [hmem, UriStore.mem_insert hs, List.mem_cons, or_assoc]

/-- A table filled by inserts numbers its URIs by the order in which they came first. -/
theorem insertAll_ok (directory : String) (uris : List URI) : ∃ t s, insertAll directory uris = .ok t ∧
    t.Represents s ∧ s.directory = directory ∧ ∀ u, u ∈ s.uris ↔ u ∈ uris := by
  have hall : ∃ t : UriTable, ∃ s : UriStore, insertAll directory uris = .ok t ∧ t.Represents s ∧
      s.directory = directory ∧ ∀ u, u ∈ s.uris ↔ u ∈ ([] : List URI) ∨ u ∈ uris :=
    insertAll_represents represents_empty rfl
  obtain ⟨t, s, ht, h, hdir, hmem⟩ := hall
  exact ⟨t, s, ht, h, hdir, by simpa using hmem⟩

section Decode

variable {l : List (Nat × StoredURI)}

theorem decode_concat (e : Nat × StoredURI) : decode directory (l ++ [e]) = (decode directory l).decodeEntry e := by
  simp [decode]

theorem decode_paths : (decode directory l).paths = mapOf Prod.fst (fun e => e.2.decodeIn directory) l ∧
    (decode directory l).directory = directory := by
  induction l using List.reverseRecOn with
  | nil => exact ⟨rfl, rfl⟩
  | append_singleton l e ih =>
    rw [decode_concat, mapOf_concat, ← ih.1]
    refine ⟨?_, ih.2⟩
    simp only [decodeEntry, ih.2]

/-- Entries that are read as the same URIs make the same table. -/
theorem decode_congr {l' : List (Nat × StoredURI)} (h : List.Forall₂ (fun e e' =>
    e'.1 = e.1 ∧ e'.2.decodeIn directory = e.2.decodeIn directory) l l') : decode directory l' = decode directory l := by
  have hall : ∀ t : UriTable, t.directory = directory → l'.foldl decodeEntry t = l.foldl decodeEntry t := by
    induction h with
    | nil => exact fun _ _ => rfl
    | @cons e e' _ _ he _ ih =>
      intro t ht
      have hentry : t.decodeEntry e' = t.decodeEntry e := by rw [decodeEntry, decodeEntry, ht, he.1, he.2]
      rw [List.foldl_cons, List.foldl_cons, hentry]
      exact ih _ ht
  exact hall _ rfl

theorem findRev?_fst {e : Nat × StoredURI} (hl : (l.map Prod.fst).Nodup) (he : e ∈ l) :
    l.findRev? (fun a => a.1 = e.1) = some e := by
  obtain ⟨e', he'⟩ := findRev?_of_mem (p := fun a => a.1 = e.1) he (by simp)
  have hm := findRev?_mem he'
  rw [he', List.inj_on_of_nodup_map hl hm.1 he (by simpa using hm.2)]

theorem decode_getElem?_of_mem {e : Nat × StoredURI} (hl : (l.map Prod.fst).Nodup) (he : e ∈ l) :
    (decode directory l).paths[e.1]? = some (e.2.decodeIn directory) := by
  rw [decode_paths.1, mapOf_getElem?, findRev?_fst hl he, Option.map_some]

theorem decode_ids (uri : URI) :
    (decode directory l).ids uri = (l.findRev? fun e => e.2.decodeIn directory = uri).map Prod.fst := by
  induction l using List.reverseRecOn with
  | nil => rfl
  | append_singleton l e ih =>
    rw [decode_concat, findRev?_concat, decodeEntry, decode_paths.2]
    by_cases h : e.2.decodeIn directory = uri
    · simp [h]
    · simp [h, Function.update_of_ne (Ne.symm h), ih]

/-- Read back, ids and URIs are in bijection when no two entries are read as one URI. -/
theorem decode_bijection (hl : (l.map Prod.fst).Nodup) : (decode directory l).Bijection ↔
    ∀ e ∈ l, ∀ e' ∈ l, e.2.decodeIn directory = e'.2.decodeIn directory → e = e' := by
  have hkey : ∀ e ∈ l, l.findRev? (fun a => a.1 = e.1) = some e := fun e he => findRev?_fst hl he
  simp only [Bijection, decode_paths.1, mapOf_getElem?, decode_ids]
  constructor
  · intro h e he e' he' heq
    have h₁ := (h e.1 _).mp (by rw [hkey e he, Option.map_some])
    have h₂ := (h e'.1 _).mp (by rw [hkey e' he', Option.map_some])
    rw [heq, h₂] at h₁
    exact List.inj_on_of_nodup_map hl he he' (Option.some.inj h₁).symm
  · intro h id uri
    constructor
    · intro hid
      obtain ⟨e, he, rfl⟩ := Option.map_eq_some_iff.mp hid
      have hm := findRev?_mem he
      obtain ⟨e', he'⟩ := findRev?_of_mem (p := fun a => a.2.decodeIn directory = e.2.decodeIn directory) hm.1 (by simp)
      have hm' := findRev?_mem he'
      rw [he', h e' hm'.1 e hm.1 (by simpa using hm'.2)]
      simpa using hm.2
    · intro hid
      obtain ⟨e, he, rfl⟩ := Option.map_eq_some_iff.mp hid
      have hm := findRev?_mem he
      rw [hkey e hm.1]
      simpa using hm.2

end Decode

theorem encode_keys (t : UriTable) : (t.encode.map Prod.fst).Nodup := by
  have h : t.encode.map Prod.fst = t.paths.keys := by simp [encode, ← Std.ExtTreeMap.map_fst_toList_eq_keys]
  exact h ▸ Std.ExtTreeMap.nodup_keys

theorem mem_encode {e : Nat × StoredURI} :
    e ∈ t.encode ↔ ∃ uri, t.paths[e.1]? = some uri ∧ e.2 = uri.encodeIn t.directory := by
  obtain ⟨id, stored⟩ := e
  simp only [encode, List.mem_map, Prod.exists, Std.ExtTreeMap.mem_toList_iff_getElem?_eq_some, Prod.mk.injEq]
  constructor
  · rintro ⟨_, uri, h, rfl, rfl⟩
    exact ⟨uri, h, rfl⟩
  · rintro ⟨uri, h, rfl⟩
    exact ⟨id, uri, h, rfl, rfl⟩

/-- What becomes of a URI between two directories. -/
def reread (directory directory' : String) (uri : URI) : URI := (uri.encodeIn directory).decodeIn directory'

/-- Each id keeps its URI, as it is read back. -/
theorem decode_getElem? : (decode directory' t.encode).paths[id]? =
    (t.paths[id]?).map (reread t.directory directory') := by
  rw [decode_paths.1, mapOf_getElem?]
  cases hid : t.paths[id]? with
  | none =>
    cases hfind : t.encode.findRev? (fun e => e.1 = id) with
    | none => rfl
    | some e =>
      obtain ⟨he, hk⟩ := findRev?_mem hfind
      obtain ⟨uri, huri, _⟩ := mem_encode.mp he
      have hk : e.1 = id := by simpa using hk
      rw [hk, hid] at huri
      cases huri
  | some uri =>
    have hmem : (id, uri.encodeIn t.directory) ∈ t.encode := mem_encode.mpr ⟨uri, hid, rfl⟩
    obtain ⟨e, hfind⟩ := findRev?_of_mem (p := fun e => e.1 = id) hmem (by simp)
    obtain ⟨he, hk⟩ := findRev?_mem hfind
    rw [hfind, List.inj_on_of_nodup_map t.encode_keys he hmem (by simpa using hk)]
    rfl

/-- The ids stay in bijection with what is read back when no two URIs are read as one. -/
theorem Represents.decode_bijection (h : t.Represents s) : (decode directory' t.encode).Bijection ↔
    ∀ u ∈ s.uris, ∀ v ∈ s.uris, reread s.directory directory' u = reread s.directory directory' v → u = v := by
  rw [UriTable.decode_bijection t.encode_keys]
  constructor
  · intro hinj u hu v hv huv
    obtain ⟨i, hi⟩ := List.getElem?_of_mem hu
    obtain ⟨j, hj⟩ := List.getElem?_of_mem hv
    have hiu : (i, u.encodeIn t.directory) ∈ t.encode := mem_encode.mpr ⟨u, (h.paths i).trans hi, rfl⟩
    have hjv : (j, v.encodeIn t.directory) ∈ t.encode := mem_encode.mpr ⟨v, (h.paths j).trans hj, rfl⟩
    have hij := hinj _ hiu _ hjv (by simpa only [h.directory, reread] using huv)
    obtain rfl : i = j := congrArg Prod.fst hij
    exact Option.some.inj (hi.symm.trans hj)
  · intro hinj e he e' he' heq
    obtain ⟨u, hu, heu⟩ := mem_encode.mp he
    obtain ⟨v, hv, hev⟩ := mem_encode.mp he'
    rw [heu, hev, h.directory] at heq
    have hmu := List.mem_of_getElem? ((h.paths _).symm.trans hu)
    have hmv := List.mem_of_getElem? ((h.paths _).symm.trans hv)
    obtain rfl := hinj u hmu v hmv heq
    have hids := (h.bijection e.1 u).mp hu
    have hids' := (h.bijection e'.1 u).mp hv
    rw [hids] at hids'
    exact Prod.ext (Option.some.inj hids') (heu.trans hev.symm)

end UriTable

section Relocate

variable {directory directory' : String} {p : PathName} {uri : URI}

theorem PathName.isBelow_iff : p.isBelow directory ↔
    ∃ rest, p.dirName.toList = directory.toList ++ '/' :: rest := by
  rw [isBelow, List.isPrefixOf_iff_prefix, String.toList_append]
  exact ⟨fun ⟨rest, h⟩ => ⟨rest, by simpa using h.symm⟩, fun ⟨rest, h⟩ => ⟨rest, by simp [h]⟩⟩

/-- The file is named by the whole path, or by a bare name in a database of the directory `.`. -/
def PathName.isFixed (directory : String) (p : PathName) : Bool :=
  p.isAbsolute ∨ p.dirName = "." ∧ directory = "."

theorem PathName.rooted_eq_self : p.rooted directory = p ↔ p.isFixed directory := by
  obtain ⟨dirName, base⟩ := p
  by_cases habs : PathName.isAbsolute ⟨dirName, base⟩
  · simp [rooted, isFixed, habs]
  · by_cases hdot : dirName = "."
    · subst hdot
      simp [rooted, under, isFixed, habs]
    · have hne : directory ++ "/" ++ dirName ≠ dirName := fun h => by
        have := congrArg String.length h
        simp only [String.length_append] at this
        have : "/".length = 1 := rfl
        omega
      simp [rooted, under, isFixed, habs, hdot, hne]

theorem PathName.relocate_direct (base : BaseName) :
    PathName.relocate directory directory' ⟨directory, base⟩ = ⟨directory', base⟩ := by
  simp [relocate, ← String.length_toList]

theorem PathName.relocate_self : p.relocate directory directory = p := by
  have h : p.dirName = directory ∨ p.isBelow directory →
      directory.toList ++ p.dirName.toList.drop directory.length = p.dirName.toList := by
    rintro (rfl | h)
    · simp [← String.length_toList]
    · obtain ⟨rest, hrest⟩ := isBelow_iff.mp h
      simp [hrest, ← String.length_toList]
  rw [relocate]
  split
  · rename_i hin
    rw [h hin, String.ofList_toList]
  · rfl

/-- A path outside the directory is re-rooted where the file has moved when it is fixed, and the move does not
touch it. -/
theorem PathName.rooted_eq_relocate (hne : p.dirName ≠ directory) :
    p.rooted directory' = p.relocate directory directory' ↔
      p.isFixed directory' ∧ (p.isBelow directory → directory' = directory) := by
  by_cases hbelow : p.isBelow directory
  · by_cases hdir : directory' = directory
    · subst hdir
      rw [relocate_self, rooted_eq_self]
      simp
    · obtain ⟨rest, hrest⟩ := isBelow_iff.mp hbelow
      have hmoved : p.relocate directory directory' = ⟨String.ofList (directory'.toList ++ '/' :: rest), p.baseName⟩ := by
        simp [relocate, hbelow, hrest, ← String.length_toList]
      have hlen : p.dirName.toList.length = directory.toList.length + 1 + rest.length := by
        rw [hrest, List.length_append, List.length_cons]
        omega
      simp only [hbelow, hdir, imp_false, not_true, and_false, iff_false, hmoved]
      intro h
      have hdirs := congrArg (fun q => q.dirName.toList) h
      simp only [String.toList_ofList] at hdirs
      rw [rooted] at hdirs
      split at hdirs
      · rw [hrest] at hdirs
        exact hdir (String.toList_injective (List.append_cancel_right hdirs).symm)
      · have hdot : p.dirName ≠ "." := fun he => by
          rw [he] at hrest
          cases hd : directory.toList with
          | nil => simp [hd] at hrest
          | cons c cs => simp [hd] at hrest
        have hlens := congrArg List.length hdirs
        simp only [under, hdot, if_false, String.toList_append, List.length_append, List.length_cons] at hlens
        have hslash : "/".toList.length = 1 := rfl
        omega
  · have hstay : p.relocate directory directory' = p := by simp [relocate, hne, hbelow]
    rw [hstay, rooted_eq_self]
    simp [hbelow]

/-- Decoding treats the URI as a move of its database would have it. -/
def URI.follows (directory directory' : String) (uri : URI) : Bool :=
  uri.scheme ≠ "unix" ∧ (uri.scheme = "file" → uri.path.dirName ≠ directory →
    uri.path.isFixed directory' ∧ (uri.path.isBelow directory → directory' = directory))

theorem reread_eq_relocate : UriTable.reread directory directory' uri = uri.relocate directory directory' ↔
    uri.follows directory directory' := by
  obtain ⟨scheme, path⟩ := uri
  by_cases hfile : scheme = "file"
  · subst hfile
    by_cases hdir : path.dirName = directory
    · obtain ⟨dirName, base⟩ := path
      obtain rfl := hdir
      simp [UriTable.reread, URI.encodeIn, StoredURI.decodeIn, StoredPath.of, URI.relocate, URI.isFile, URI.follows,
        PathName.relocate_direct]
    · have h : path.rooted directory' = path.relocate directory directory' ↔ _ := PathName.rooted_eq_relocate hdir
      simp [UriTable.reread, URI.encodeIn, StoredURI.decodeIn, StoredPath.of, URI.relocate, URI.isFile, URI.follows,
        hdir, h, imp_iff_not_or]
  · by_cases hunix : scheme = "unix"
    · subst hunix
      simp [UriTable.reread, URI.encodeIn, StoredURI.decodeIn, URI.relocate, URI.isFile, URI.follows]
    · simp [UriTable.reread, URI.encodeIn, StoredURI.decodeIn, URI.relocate, URI.isFile, URI.follows, hfile, hunix]

theorem URI.relocate_direct (base : BaseName) :
    URI.relocate directory directory' ⟨"file", ⟨directory, base⟩⟩ = ⟨"file", ⟨directory', base⟩⟩ := by
  simp [relocate, isFile, PathName.relocate_direct]

theorem URI.relocate_self : uri.relocate directory directory = uri := by
  simp [relocate, PathName.relocate_self]

theorem follows_cases (h : uri.follows directory directory') (hne : directory' ≠ directory) :
    (∃ base, uri = ⟨"file", ⟨directory, base⟩⟩) ∨ uri.relocate directory directory' = uri := by
  obtain ⟨scheme, dirName, base⟩ := uri
  simp only [URI.follows, decide_eq_true_eq] at h
  by_cases hfile : scheme = "file"
  · by_cases hdir : dirName = directory
    · exact .inl ⟨base, by rw [hfile, hdir]⟩
    · have hbelow := (h.2 hfile hdir).2
      right
      simp [URI.relocate, PathName.relocate, hdir, mt hbelow hne]
  · right
    simp [URI.relocate, URI.isFile, hfile, h.1]

namespace UriTable

variable {uris : List URI} {t : UriTable} {s : UriStore}

/-- The table of a database found in another directory: ids and URIs are in bijection, and each id has the URI that
the move gives its file. -/
def Relocated (t : UriTable) (directory' : String) : Prop :=
  (decode directory' t.encode).Bijection ∧
    ∀ id : Nat, (decode directory' t.encode).paths[id]? = (t.paths[id]?).map (URI.relocate t.directory directory')

/-- Each URI is one that decoding moves rightly, and no file of the directory has the name of one in the other. -/
def Relocatable (directory directory' : String) (uris : List URI) : Prop :=
  (∀ uri ∈ uris, uri.follows directory directory') ∧
    ∀ base, ⟨"file", ⟨directory, base⟩⟩ ∈ uris → ⟨"file", ⟨directory', base⟩⟩ ∈ uris → directory' = directory

theorem relocate_inj_iff (h : ∀ uri ∈ uris, uri.follows directory directory') :
    (∀ u ∈ uris, ∀ v ∈ uris, u.relocate directory directory' = v.relocate directory directory' → u = v) ↔
      ∀ base, ⟨"file", ⟨directory, base⟩⟩ ∈ uris → ⟨"file", ⟨directory', base⟩⟩ ∈ uris → directory' = directory := by
  by_cases hdir : directory' = directory
  · subst hdir
    simp [URI.relocate_self]
  constructor
  · intro hinj base hu hv
    rcases follows_cases (h _ hv) hdir with ⟨base', he⟩ | hstay
    · simp_all
    · have := hinj _ hu _ hv (by rw [hstay, URI.relocate_direct])
      simp_all
  · intro hfree u hu v hv heq
    rcases follows_cases (h u hu) hdir with ⟨base, rfl⟩ | hus
    · rcases follows_cases (h v hv) hdir with ⟨base', rfl⟩ | hvs
      · rw [URI.relocate_direct, URI.relocate_direct] at heq
        simp_all
      · rw [URI.relocate_direct, hvs] at heq
        exact absurd (hfree base hu (heq ▸ hv)) hdir
    · rcases follows_cases (h v hv) hdir with ⟨base', rfl⟩ | hvs
      · rw [URI.relocate_direct, hus] at heq
        exact absurd (hfree base' hv (heq ▸ hu)) hdir
      · rwa [hus, hvs] at heq

theorem Represents.relocated_iff (h : t.Represents s) :
    t.Relocated directory' ↔ Relocatable s.directory directory' s.uris := by
  have hfollow : (∀ id : Nat, (decode directory' t.encode).paths[id]? =
      (t.paths[id]?).map (URI.relocate t.directory directory')) ↔
      ∀ uri ∈ s.uris, uri.follows s.directory directory' := by
    simp only [decode_getElem?, h.directory, ← reread_eq_relocate]
    constructor
    · intro hall uri huri
      obtain ⟨id, hid⟩ := List.getElem?_of_mem huri
      simpa [h.paths, hid] using hall id
    · intro hall id
      cases hid : t.paths[id]? with
      | none => rfl
      | some uri =>
        have huri := List.mem_of_getElem? ((h.paths id).symm.trans hid)
        rw [Option.map_some, Option.map_some, hall uri huri]
  rw [Relocated, hfollow, Relocatable, and_comm]
  apply and_congr_right
  intro hall
  rw [h.decode_bijection, ← relocate_inj_iff hall]
  have heq : ∀ u ∈ s.uris, reread s.directory directory' u = u.relocate s.directory directory' :=
    fun u hu => reread_eq_relocate.mpr (hall u hu)
  exact ⟨fun hinj u hu v hv huv => hinj u hu v hv (by rwa [heq u hu, heq v hv]),
    fun hinj u hu v hv huv => hinj u hu v hv (by rwa [heq u hu, heq v hv] at huv)⟩

theorem relocatable_congr {uris' : List URI} (h : ∀ u, u ∈ uris ↔ u ∈ uris') :
    Relocatable directory directory' uris ↔ Relocatable directory directory' uris' := by
  simp only [Relocatable, h]

/-- A table filled by any inserts keeps ids and URIs in bijection, and follows its database to another directory
exactly when no URI of it has the scheme `unix`, is relative, lies deeper in the directory or collides there. -/
theorem table_relocated_iff (directory : String) (uris : List URI) :
    ∃ t, insertAll directory uris = .ok t ∧ t.Bijection ∧
      ∀ directory', t.Relocated directory' ↔ Relocatable directory directory' uris := by
  obtain ⟨t, s, ht, h, rfl, hmem⟩ := insertAll_ok directory uris
  exact ⟨t, ht, h.bijection, fun directory' => h.relocated_iff.trans (relocatable_congr hmem)⟩

/-- A data file of the database that was inserted by its path alone has the scheme `unix`, and stays behind. -/
theorem unix_not_relocated : ¬ ∀ directory uris t, insertAll directory uris = .ok t →
    t.Bijection ∧ ∀ directory', t.Relocated directory' := by
  intro h
  obtain ⟨t, s, ht, hrep, hdir, hmem⟩ := insertAll_ok "/db" [⟨"unix", ⟨"/db", ⟨"a", none, ".data"⟩⟩⟩]
  have hall := hrep.relocated_iff.mp ((h _ _ t ht).2 "/new")
  rw [relocatable_congr hmem, hdir] at hall
  exact absurd (hall.1 _ (List.mem_singleton.mpr rfl)) (by decide)

end UriTable

end Relocate

end Fdb5
