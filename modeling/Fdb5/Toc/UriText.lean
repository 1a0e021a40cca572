import Mathlib.Data.List.TakeWhile
import Fdb5.Toc.UriTable

/-! The text that a `UriStore` writes for a URI, and the URI that is read from it. -/
namespace Fdb5

/-- `PathName::asString()`, where a base name is printed so. -/
def PathName.print (base : BaseName → String) (p : PathName) : String :=
  if p.dirName = "." then base p.baseName
  else if p.dirName = "/" then "/" ++ base p.baseName
  else p.dirName ++ "/" ++ base p.baseName

/-- How `eckit` prints paths and URIs, and the URI that it makes of a text: `isPath` has one pair of names for each path,
and `known` the schemes with a `URIManager`. What follows a path in a text, such as a query, is no part of it. -/
structure UriText where
  base : BaseName → String
  raw : URI → String
  parse : String → Except Failure URI
  isPath : PathName → Prop
  known : String → Prop
  isPath_base : ∀ {p}, isPath p → isPath ⟨".", p.baseName⟩
  parse_path : ∀ {p}, isPath p → ':' ∉ (p.print base).toList → parse (p.print base) = .ok ⟨"unix", p⟩
  parse_raw : ∀ {uri}, isPath uri.path → known uri.scheme → uri.isFile = false → parse (raw uri) = .ok uri
  parse_known : ∀ {s uri}, parse s = .ok uri → known uri.scheme
  parse_scheme : ∀ {scheme rest uri}, ':' ∉ scheme.toList → parse (scheme ++ ":" ++ rest) = .ok uri →
    uri.scheme = scheme ∧ (uri.isFile → (uri.path.print base).length ≤ rest.length)

namespace PathName

variable {directory : String} {p : PathName} {base : BaseName → String}

theorem baseName_rooted : (p.rooted directory).baseName = p.baseName := by
  rw [rooted, under]
  split
  · rfl
  · split <;> rfl

theorem isAbsolute_rooted (hd : directory.toList.head? = some '/') : (p.rooted directory).isAbsolute := by
  rw [rooted]
  by_cases h : p.isAbsolute
  · rwa [if_pos h]
  · rw [if_neg h, under]
    split
    · simp [isAbsolute, hd]
    · simp [isAbsolute, hd, List.head?_append]

theorem isFixed_iff (hd : directory.toList.head? = some '/') : p.isFixed directory ↔ p.isAbsolute := by
  have hdot : directory ≠ "." := by
    rintro rfl
    simp at hd
  simp [isFixed, hdot]

theorem length_base_le : (base p.baseName).length ≤ (p.print base).length := by
  rw [print]
  split
  · exact le_refl _
  · split <;> simp only [String.length_append] <;> omega

theorem head?_print (h : p.isAbsolute) : (p.print base).toList.head? = some '/' := by
  have habs : p.dirName.toList.head? = some '/' := by simpa [isAbsolute] using h
  have hdot : p.dirName ≠ "." := by
    intro he
    simp [he] at habs
  rw [print, if_neg hdot]
  split
  · simp
  · simp [habs, List.head?_append]

end PathName

namespace UriText

variable (text : UriText)

/-- What stands in the stream for one URI. -/
def written : StoredURI → String
  | .path (.relative base) => text.base base
  | .path (.absolute p) => p.print text.base
  | .raw uri => text.raw uri

/-- The URI has an entry that is read as the URI again. -/
def Keeps (directory : String) (uri : URI) : Prop :=
  if uri.scheme = "file" then uri.path.isAbsolute ∧ ':' ∉ (text.written (uri.encodeIn directory)).toList
  else uri.scheme ≠ "unix" ∧ text.known uri.scheme

variable {text} {directory : String} {uri u : URI}

theorem exists_scheme {s : String} (h : ':' ∈ s.toList) :
    ∃ scheme rest, s = scheme ++ ":" ++ rest ∧ ':' ∉ scheme.toList := by
  obtain ⟨l, l', hl, hno⟩ := List.eq_append_cons_of_mem h
  refine ⟨String.ofList l, String.ofList l', ?_, by simpa using hno⟩
  apply String.toList_injective
  simp [hl]

/-- What decoding makes of the URI that was read has the scheme `file` when that one is a file. -/
theorem isFile_of_decodeIn (h : (StoredURI.raw u).decodeIn directory = uri) (hfile : uri.scheme = "file") :
    u.isFile ∧ uri.path = u.path.rooted directory := by
  by_cases hu : u.isFile
  · rw [StoredURI.decodeIn, if_pos hu] at h
    exact ⟨hu, h ▸ rfl⟩
  · rw [StoredURI.decodeIn, if_neg hu] at h
    subst h
    exact absurd (by simp [URI.isFile, hfile]) hu

/-- A text with a `:` is not read as the file that it was written for. -/
theorem not_read_colon (hd : directory.toList.head? = some '/') (hfile : uri.scheme = "file")
    (hcolon : ':' ∈ (text.written (uri.encodeIn directory)).toList)
    (hparse : text.parse (text.written (uri.encodeIn directory)) = .ok u) :
    (StoredURI.raw u).decodeIn directory ≠ uri := by
  intro hread
  obtain ⟨hu, hpath⟩ := isFile_of_decodeIn hread hfile
  obtain ⟨scheme, rest, hsplit, hno⟩ := exists_scheme hcolon
  rw [hsplit] at hparse
  obtain ⟨hscheme, hlength⟩ := text.parse_scheme hno hparse
  by_cases hdir : uri.path.dirName = directory
  · -- the path that was read is too short for the base name
    have hwritten : text.written (uri.encodeIn directory) = text.base uri.path.baseName := by
      simp [URI.encodeIn, hfile, StoredPath.of, hdir, written]
    have hshort := hlength hu
    have hbase : (text.base u.path.baseName).length ≤ (u.path.print text.base).length := PathName.length_base_le
    rw [hpath, PathName.baseName_rooted, hsplit] at hwritten
    have hlengths := congrArg String.length hwritten
    simp only [String.length_append] at hlengths
    have : ":".length = 1 := rfl
    omega
  · -- the scheme would begin as the path does
    have hwritten : text.written (uri.encodeIn directory) = uri.path.print text.base := by
      simp [URI.encodeIn, hfile, StoredPath.of, hdir, written]
    have habs : uri.path.isAbsolute := hpath ▸ PathName.isAbsolute_rooted hd
    have hhead : (uri.path.print text.base).toList.head? = some '/' := PathName.head?_print habs
    rw [← hwritten, hsplit] at hhead
    simp only [URI.isFile, decide_eq_true_eq, hscheme] at hu
    rcases hu with rfl | rfl <;> simp at hhead

theorem reads_file_iff (hd : directory.toList.head? = some '/') (hp : text.isPath uri.path) (hfile : uri.scheme = "file") :
    (∃ u, text.parse (text.written (uri.encodeIn directory)) = .ok u ∧ (StoredURI.raw u).decodeIn directory = uri) ↔
      uri.path.isAbsolute ∧ ':' ∉ (text.written (uri.encodeIn directory)).toList := by
  by_cases hcolon : ':' ∈ (text.written (uri.encodeIn directory)).toList
  · simp only [hcolon, not_true, and_false, iff_false]
    rintro ⟨u, hparse, hread⟩
    exact not_read_colon hd hfile hcolon hparse hread
  · simp only [hcolon, not_false_eq_true, and_true]
    obtain ⟨scheme, dirName, base⟩ := uri
    obtain rfl := hfile
    by_cases hdir : dirName = directory
    · subst hdir
      have hwritten : text.written (URI.encodeIn dirName ⟨"file", dirName, base⟩) = PathName.print text.base ⟨".", base⟩ := by
        simp [URI.encodeIn, StoredPath.of, written, PathName.print]
      rw [hwritten] at hcolon ⊢
      have habs : PathName.isAbsolute ⟨dirName, base⟩ := by simp [PathName.isAbsolute, hd]
      refine iff_of_true ⟨_, text.parse_path (text.isPath_base hp) hcolon, ?_⟩ habs
      simp [StoredURI.decodeIn, URI.isFile, PathName.rooted, PathName.isAbsolute, PathName.under]
    · have hwritten : text.written (URI.encodeIn directory ⟨"file", dirName, base⟩) =
          PathName.print text.base ⟨dirName, base⟩ := by
        simp [URI.encodeIn, StoredPath.of, written, hdir]
      rw [hwritten] at hcolon ⊢
      rw [← PathName.isFixed_iff hd, ← PathName.rooted_eq_self, text.parse_path hp hcolon]
      simp [StoredURI.decodeIn, URI.isFile]

/-- The URI that is read from what was written for one is that one again, exactly when it is kept. -/
theorem reads_iff (hd : directory.toList.head? = some '/') (hp : text.isPath uri.path) :
    (∃ u, text.parse (text.written (uri.encodeIn directory)) = .ok u ∧ (StoredURI.raw u).decodeIn directory = uri) ↔
      text.Keeps directory uri := by
  rw [Keeps]
  split
  · rename_i hfile
    exact reads_file_iff hd hp hfile
  · rename_i hfile
    have hwritten : text.written (uri.encodeIn directory) = text.raw uri := by simp [URI.encodeIn, hfile, written]
    rw [hwritten]
    constructor
    · rintro ⟨u, hparse, rfl⟩
      by_cases hu : u.isFile
      · simp [StoredURI.decodeIn, hu] at hfile
      · rw [StoredURI.decodeIn, if_neg hu]
        simp only [URI.isFile, decide_eq_true_eq, not_or] at hu
        exact ⟨hu.1, text.parse_known hparse⟩
    · rintro ⟨hunix, hknown⟩
      have hno : uri.isFile = false := by simp [URI.isFile, hfile, hunix]
      exact ⟨uri, text.parse_raw hp hknown hno, by rw [StoredURI.decodeIn, if_neg (by simp [hno])]⟩

/-- A URI that is kept stays where it is when its table is read in its own directory. -/
theorem Keeps.follows (hd : directory.toList.head? = some '/') (h : text.Keeps directory uri) :
    uri.follows directory directory := by
  rw [Keeps] at h
  split at h
  · rename_i hfile
    have hfixed : uri.path.isFixed directory := (PathName.isFixed_iff hd).mpr h.1
    simp [URI.follows, hfile, hfixed]
  · rename_i hfile
    simp [URI.follows, hfile, h.1]

namespace Plain

/-- What stands before the last `/`, and what behind it. -/
def dirOf (s : String) : String := String.ofList ((s.toList.reverse.dropWhile (· ≠ '/')).drop 1).reverse

def stemOf (s : String) : String := String.ofList (s.toList.reverse.takeWhile (· ≠ '/')).reverse

def pathOf (s : String) : PathName where
  dirName := if '/' ∈ s.toList then (if dirOf s = "" then "/" else dirOf s) else "."
  baseName := ⟨stemOf s, none, ""⟩

def print (p : PathName) : String := p.print (·.stem)

def parse (s : String) : Except Failure URI :=
  if ':' ∈ s.toList then
    .ok ⟨String.ofList (s.toList.takeWhile (· ≠ ':')), pathOf (String.ofList ((s.toList.dropWhile (· ≠ ':')).drop 1))⟩
  else .ok ⟨"unix", pathOf s⟩

theorem stemOf_eq {s : String} (h : '/' ∉ s.toList) : stemOf s = s := by
  have hall : s.toList.reverse.takeWhile (· ≠ '/') = s.toList.reverse := by
    rw [List.takeWhile_eq_self_iff]
    intro c hc
    have hne : c ≠ '/' := fun he => h (he ▸ List.mem_reverse.mp hc)
    simpa using hne
  rw [stemOf, hall, List.reverse_reverse, String.ofList_toList]

theorem not_mem_stemOf (s : String) : '/' ∉ (stemOf s).toList := by
  intro h
  rw [stemOf, String.toList_ofList, List.mem_reverse] at h
  have := List.mem_takeWhile_imp h
  simp at this

theorem length_dirOf {s : String} (h : '/' ∈ s.toList) : (dirOf s).length + 1 + (stemOf s).length = s.length := by
  have hpos : 0 < (s.toList.reverse.dropWhile (· ≠ '/')).length := by
    rw [List.length_pos_iff, ne_eq, List.dropWhile_eq_nil_iff]
    intro hall
    have := hall '/' (List.mem_reverse.mpr h)
    simp at this
  have hsplit := congrArg List.length (List.takeWhile_append_dropWhile (p := (· ≠ '/')) (l := s.toList.reverse))
  simp only [dirOf, stemOf, String.length_ofList, List.length_reverse, List.length_drop, List.length_append,
    String.length_toList] at hsplit ⊢
  omega

theorem length_print_pathOf (s : String) : (print (pathOf s)).length ≤ s.length := by
  have hone : "/".length = 1 := rfl
  by_cases hslash : '/' ∈ s.toList
  · have hlength := length_dirOf hslash
    by_cases hdir : dirOf s = ""
    · have hroot : print (pathOf s) = "/" ++ stemOf s := by simp [print, PathName.print, pathOf, hslash, hdir]
      rw [hroot, String.length_append]
      omega
    · have hprint : print (pathOf s) = stemOf s ∨ print (pathOf s) = "/" ++ stemOf s ∨
          print (pathOf s) = dirOf s ++ "/" ++ stemOf s := by
        simp only [print, PathName.print, pathOf, hslash, hdir, if_true, if_false]
        split
        · exact .inl rfl
        · split
          · exact .inr (.inl rfl)
          · exact .inr (.inr rfl)
      rcases hprint with hprint | hprint | hprint <;> rw [hprint]
      · omega
      · rw [String.length_append]
        omega
      · rw [String.length_append, String.length_append]
        omega
  · have hprint : print (pathOf s) = s := by simp [print, PathName.print, pathOf, hslash, stemOf_eq hslash]
    exact le_of_eq (congrArg String.length hprint)

theorem parse_append {scheme rest : String} (h : ':' ∉ scheme.toList) :
    parse (scheme ++ ":" ++ rest) = .ok ⟨scheme, pathOf rest⟩ := by
  have hcolon : (scheme ++ ":" ++ rest).toList = scheme.toList ++ ':' :: rest.toList := by simp
  have hall : ∀ c ∈ scheme.toList, (decide (c ≠ ':')) = true := by
    intro c hc
    have hne : c ≠ ':' := fun he => h (he ▸ hc)
    simpa using hne
  rw [parse, hcolon, if_pos (by simp), List.takeWhile_append_of_pos hall, List.dropWhile_append_of_pos hall]
  simp

end Plain

/-- Paths that are printed with a `/`, and URIs with a `:`. -/
def plain : UriText where
  base b := b.stem
  raw uri := uri.scheme ++ ":" ++ Plain.print uri.path
  parse := Plain.parse
  isPath p := Plain.pathOf (Plain.print p) = p
  known scheme := ':' ∉ scheme.toList
  isPath_base {p} h := by
    have hbase : Plain.stemOf (Plain.print p) = p.baseName.stem := congrArg (·.baseName.stem) h
    have hstem := Plain.not_mem_stemOf (Plain.print p)
    rw [hbase] at hstem
    have hprint : Plain.print ⟨".", p.baseName⟩ = p.baseName.stem := by simp [Plain.print, PathName.print]
    have hname : p.baseName = ⟨p.baseName.stem, none, ""⟩ := by
      rw [← hbase]
      exact (congrArg PathName.baseName h).symm
    rw [hprint, Plain.pathOf, if_neg hstem, Plain.stemOf_eq hstem, ← hname]
  parse_path {p} h hcolon := by
    have hno : ':' ∉ (Plain.print p).toList := hcolon
    change Plain.parse (Plain.print p) = _
    rw [Plain.parse, if_neg hno, h]
  parse_raw {uri} h hknown _ := by rw [Plain.parse_append hknown, h]
  parse_known {s uri} h := by
    by_cases hcolon : ':' ∈ s.toList
    · obtain ⟨scheme, rest, rfl, hno⟩ := exists_scheme hcolon
      rw [Plain.parse_append hno] at h
      obtain rfl := Except.ok.inj h
      exact hno
    · rw [Plain.parse, if_neg hcolon] at h
      obtain rfl := Except.ok.inj h
      simp
  parse_scheme {scheme rest uri} hno h := by
    rw [Plain.parse_append hno] at h
    obtain rfl := Except.ok.inj h
    exact ⟨rfl, fun _ => Plain.length_print_pathOf rest⟩

end UriText

end Fdb5
