import Mathlib.Data.List.Forall2
import Fdb5.Fingerprint
import Fdb5.Library.Bytes

/-! Keys in a stream of bytes. -/
namespace Fdb5

open Effect

/-- The bytes that `eckit::Stream` writes for a value, and what it reads from them. -/
structure StreamFormat where
  putSize : Nat → List UInt8
  putString : String → List UInt8
  getSize : EStateM Failure (List UInt8) Nat
  getString : EStateM Failure (List UInt8) String
  getSize_putSize : ∀ n rest, getSize.run (putSize n ++ rest) = .ok n rest
  getString_putString : ∀ s rest, getString.run (putString s ++ rest) = .ok s rest

namespace StreamFormat

variable (format : StreamFormat)

def putPair (p : String × String) : List UInt8 := format.putString p.1 ++ format.putString p.2

def getPair : EStateM Failure (List UInt8) (String × String) := do
  let first ← format.getString
  let second ← format.getString
  return (first, second)

def getPairs (format : StreamFormat) : Nat → EStateM Failure (List UInt8) (List (String × String))
  | 0 => return []
  | n + 1 => do
    let p ← format.getPair
    let ps ← format.getPairs n
    return p :: ps

variable {format} {rest : List UInt8}

theorem ends_getSize {n : Nat} {Q : Nat → List UInt8 → Prop} {E : Failure → List UInt8 → Prop} :
    Ends format.getSize (format.putSize n ++ rest) Q E ↔ Q n rest := by
  unfold Ends
  rw [getSize_putSize]

theorem ends_getString {s : String} {Q : String → List UInt8 → Prop} {E : Failure → List UInt8 → Prop} :
    Ends format.getString (format.putString s ++ rest) Q E ↔ Q s rest := by
  unfold Ends
  rw [getString_putString]

theorem ends_getPair {p : String × String} {Q : String × String → List UInt8 → Prop}
    {E : Failure → List UInt8 → Prop} : Ends format.getPair (format.putPair p ++ rest) Q E ↔ Q p rest := by
  rw [getPair, putPair, List.append_assoc, ends_bind, ends_getString, ends_bind, ends_getString, ends_pure]

theorem ends_getPairs {ps : List (String × String)} {Q : List (String × String) → List UInt8 → Prop}
    {E : Failure → List UInt8 → Prop} :
    Ends (format.getPairs ps.length) (ps.flatMap format.putPair ++ rest) Q E ↔ Q ps rest := by
  induction ps generalizing Q with
  | nil => exact Iff.rfl
  | cons p ps ih =>
    rw [List.flatMap_cons, List.append_assoc, List.length_cons, getPairs, ends_bind, ends_getPair, ends_bind, ih,
      ends_pure]

end StreamFormat

namespace Key

variable {format : StreamFormat} {k : Key} {bytes rest : List UInt8}

/-- The canonical values with their keywords, in the order of a `std::map`. -/
def sentValues (k : Key) : Except Failure (List (String × String)) :=
  k.keys.toList.mapM fun kv => do
    return (kv.1, ← k.canonicalise kv.1 kv.2)

/-- The names with their types. -/
def sentNames (k : Key) : Except Failure (List (String × String)) :=
  k.names.mapM fun name =>
    if k.canonical then .ok (name, "")
    else do
      let type ← (← k.registryOf).lookupType name
      return (name, type.type)

/-- `Key::encode(s)`. -/
def encodeTo (format : StreamFormat) (k : Key) : Except Failure (List UInt8) := do
  unless k.canonical do
    let _ ← k.registryOf
  let values ← k.sentValues
  let names ← k.sentNames
  return format.putSize k.keys.size ++ (values.flatMap format.putPair ++
    (format.putSize k.names.length ++ names.flatMap format.putPair))

/-- `Key::decode(s)`. -/
def decodeFrom (format : StreamFormat) : EStateM Failure (List UInt8) Key := do
  let values ← format.getPairs (← format.getSize)
  let names ← format.getPairs (← format.getSize)
  return { keys := .ofList values, names := names.map Prod.fst, canonical := true }

theorem length_sentValues {values : List (String × String)} (h : k.sentValues = .ok values) :
    values.length = k.keys.size := by
  rw [← (mapM_ok h).length_eq, Std.ExtTreeMap.length_toList]

theorem fst_sentValues {values : List (String × String)} (h : k.sentValues = .ok values) :
    values.map Prod.fst = k.keys.toList.map Prod.fst := by
  have hfst : List.Forall₂ (fun a b : String × String => a.1 = b.1) k.keys.toList values := by
    apply (mapM_ok h).imp
    intro kv p hp
    simp only [except_bind_ok, except_pure_ok] at hp
    obtain ⟨v, -, rfl⟩ := hp
    rfl
  have hmap := (List.forall₂_map_right_iff (R := Eq)).mpr (List.forall₂_map_left_iff.mpr hfst)
  rw [List.forall₂_eq_eq_eq] at hmap
  exact hmap.symm

theorem fst_sentNames {names : List (String × String)} (h : k.sentNames = .ok names) :
    names.map Prod.fst = k.names := by
  have hall : List.Forall₂ (fun a b => a = Prod.fst b) k.names names := by
    apply (mapM_ok h).imp
    intro name p hp
    by_cases hc : k.canonical
    · rw [if_pos hc] at hp
      rw [← Except.ok.inj hp]
    · rw [if_neg hc] at hp
      simp only [except_bind_ok, except_pure_ok] at hp
      obtain ⟨registry, -, type, -, rfl⟩ := hp
      rfl
  have hmap := (List.forall₂_map_right_iff (R := Eq)).mpr hall
  rw [List.forall₂_eq_eq_eq] at hmap
  exact hmap.symm

theorem encode_eq : k.encode = (do
    unless k.canonical do
      let _ ← k.registryOf
    let values ← k.sentValues
    return { keys := .ofList values, names := k.names, canonical := true }) := rfl

theorem encodeTo_ok (h : k.encodeTo format = .ok bytes) : ∃ values names, k.sentValues = .ok values ∧
    k.sentNames = .ok names ∧ k.encode = .ok ⟨.ofList values, k.names, none, true⟩ ∧
    bytes = format.putSize k.keys.size ++ (values.flatMap format.putPair ++
      (format.putSize k.names.length ++ names.flatMap format.putPair)) := by
  unfold encodeTo at h
  by_cases hc : k.canonical
  · simp only [hc] at h
    obtain ⟨values, hvalues, names, hnames, hbytes⟩ : ∃ values, k.sentValues = .ok values ∧
      ∃ names, k.sentNames = .ok names ∧ _ = bytes := by simpa using h
    exact ⟨values, names, hvalues, hnames, by simp [encode_eq, hc, hvalues], hbytes.symm⟩
  · simp only [hc] at h
    obtain ⟨⟨registry, hregistry⟩, values, hvalues, names, hnames, hbytes⟩ : (∃ registry, k.registryOf = .ok registry) ∧
      ∃ values, k.sentValues = .ok values ∧ ∃ names, k.sentNames = .ok names ∧ _ = bytes := by simpa using h
    exact ⟨values, names, hvalues, hnames, by simp [encode_eq, hc, hregistry, hvalues], hbytes.symm⟩

theorem exists_encode (h : k.encodeTo format = .ok bytes) : ∃ k', k.encode = .ok k' := by
  obtain ⟨values, names, -, -, hencode, -⟩ := encodeTo_ok h
  exact ⟨_, hencode⟩

theorem encode_ok {k' : Key} (h : k.encode = .ok k') :
    ∃ values, k.sentValues = .ok values ∧ k' = ⟨.ofList values, k.names, none, true⟩ := by
  rw [encode_eq] at h
  by_cases hc : k.canonical
  · simp only [hc] at h
    obtain ⟨values, hvalues, hk⟩ : ∃ values, k.sentValues = .ok values ∧ _ = k' := by simpa using h
    exact ⟨values, hvalues, hk.symm⟩
  · simp only [hc] at h
    obtain ⟨-, values, hvalues, hk⟩ : (∃ registry, k.registryOf = .ok registry) ∧
      ∃ values, k.sentValues = .ok values ∧ _ = k' := by simpa using h
    exact ⟨values, hvalues, hk.symm⟩

theorem empty_encode {k' : Key} (h : k.encode = .ok k') : k'.empty = k.empty := by
  obtain ⟨values, hvalues, rfl⟩ := encode_ok h
  have hlen := length_sentValues hvalues
  rw [empty, empty, Bool.eq_iff_iff, Std.ExtTreeMap.isEmpty_iff, Std.ExtTreeMap.ofList_eq_empty_iff,
    Std.ExtTreeMap.isEmpty_eq_size_beq_zero, ← hlen]
  simp

/-- A key that was encoded has the canonical values of the key. -/
theorem canonicalValue_encode {k' : Key} (h : k.encode = .ok k') (keyword : String) :
    k'.canonicalValue keyword = k.canonicalValue keyword := by
  obtain ⟨values, hvalues, rfl⟩ := encode_ok h
  have hkeys := fst_sentValues hvalues
  have hnodup : (values.map Prod.fst).Nodup := by
    rw [hkeys, List.Nodup, List.pairwise_map]
    exact Std.ExtTreeMap.distinct_keys_toList.imp fun h => by simpa using h
  rw [canonicalValue, canonicalValue, find, find]
  cases hfind : k.keys[keyword]? with
  | some v =>
    have hmem := Std.ExtTreeMap.mem_toList_iff_getElem?_eq_some.mpr hfind
    obtain ⟨p, hp, hrel⟩ := mem_mapM_of hvalues hmem
    simp only [except_bind_ok, except_pure_ok] at hrel
    obtain ⟨c, hc, rfl⟩ := hrel
    have hdistinct : values.Pairwise fun a b => ¬ compare a.1 b.1 = .eq := by
      refine (List.pairwise_map.mp hnodup).imp fun hne => ?_
      simpa using hne
    rw [Std.ExtTreeMap.getElem?_ofList_of_mem (by simp) hdistinct hp]
    change canonicalise ⟨.ofList values, k.names, none, true⟩ keyword c = k.canonicalise keyword v
    rw [hc, canonicalise, if_pos (.inr rfl)]
  | none =>
    have hno : (Std.ExtTreeMap.ofList values)[keyword]? = none := by
      refine Std.ExtTreeMap.getElem?_ofList_of_contains_eq_false (Bool.eq_false_iff.mpr fun hc => ?_)
      rw [hkeys, List.contains_iff_mem] at hc
      obtain ⟨kv, hkv, rfl⟩ := List.mem_map.mp hc
      rw [Std.ExtTreeMap.mem_toList_iff_getElem?_eq_some.mp hkv] at hfind
      cases hfind
    rw [hno]

/-- The types leave each value of the key as it is. -/
def IsCanonical (k : Key) : Prop := ∀ keyword value, k.keys[keyword]? = some value → k.canonicalise keyword value = .ok value

/-- Encoding keeps the values exactly when they are canonical. -/
theorem keys_encode_iff {k' : Key} (h : k.encode = .ok k') : k'.keys = k.keys ↔ k.IsCanonical := by
  have hcanonical : k'.canonical = true := by
    obtain ⟨values, -, rfl⟩ := encode_ok h
    rfl
  have hvalue (keyword value : String) : k'.keys[keyword]? = some value ↔ k.canonicalValue keyword = .ok value := by
    rw [← canonicalValue_encode h, canonicalValue, find]
    cases k'.keys[keyword]? with
    | none => simp
    | some v => simp [canonicalise, hcanonical]
  constructor
  · intro hkeys keyword value hfind
    have hfound := (hvalue keyword value).mp (hkeys ▸ hfind)
    rwa [canonicalValue, find, hfind] at hfound
  · intro hall
    refine Std.ExtTreeMap.ext_getElem? fun keyword => Option.ext fun value => ?_
    rw [hvalue, canonicalValue, find]
    cases hfind : k.keys[keyword]? with
    | none => simp
    | some v => simp [hall keyword v hfind]

/-- A key is read back as `encode` says. -/
theorem ends_decodeFrom {k' : Key} (h : k.encodeTo format = .ok bytes) (hk : k.encode = .ok k')
    {Q : Key → List UInt8 → Prop} {E : Failure → List UInt8 → Prop} :
    Ends (decodeFrom format) (bytes ++ rest) Q E ↔ Q k' rest := by
  obtain ⟨values, names, hvalues, hnames, hencode, rfl⟩ := encodeTo_ok h
  obtain rfl := Except.ok.inj (hencode.symm.trans hk)
  have hsize : k.names.length = names.length := by rw [← fst_sentNames hnames, List.length_map]
  rw [decodeFrom, ← length_sentValues hvalues, hsize]
  simp only [ends_bind, List.append_assoc, StreamFormat.ends_getSize, StreamFormat.ends_getPairs, ends_pure,
    fst_sentNames hnames]

end Key

namespace StreamFormat

/-- A number as so many ones, with a zero after them. -/
def putOnes (n : Nat) : List UInt8 := List.replicate n 1 ++ [0]

def getOnes : EStateM Failure (List UInt8) Nat := fun s =>
  if 0 ∈ s then .ok (s.takeWhile fun b => b ≠ 0).length ((s.dropWhile fun b => b ≠ 0).drop 1)
  else .error (.exception "end of stream") s

/-- `tag_unsigned_long` and `tag_string`. -/
def tagUnsignedLong : UInt8 := 10

def tagString : UInt8 := 15

/-- The tag of a number that does not fit into four bytes, which a real stream cannot hold. -/
def tagHuge : UInt8 := 255

/-- A tag and a number in four bytes, the most significant first. -/
def putNumber (tag : UInt8) (n : Nat) : List UInt8 :=
  if n < 256 ^ 4 then tag :: (Bytes.le 4 n).reverse else tagHuge :: putOnes n

def getNumber (tag : UInt8) : EStateM Failure (List UInt8) Nat := do
  let t ← Bytes.read 1 (.exception "end of stream")
  if t = [tag] then
    return Bytes.ofLe (← Bytes.read 4 (.exception "end of stream")).reverse
  else if t = [tagHuge] then getOnes
  else throw (.exception "bad tag")

/-- A tag, the length and the bytes. -/
def putText (s : String) : List UInt8 := putNumber tagString s.toByteArray.data.toList.length ++ s.toByteArray.data.toList

def getText : EStateM Failure (List UInt8) String := do
  let bytes ← Bytes.read (← getNumber tagString) (.exception "end of stream")
  match String.fromUTF8? ⟨bytes.toArray⟩ with
  | some s => return s
  | none => throw (.exception "not UTF-8")

theorem run_getOnes (n : Nat) (rest : List UInt8) : getOnes.run (putOnes n ++ rest) = .ok n rest := by
  have hmem : (0 : UInt8) ∈ putOnes n ++ rest := by simp [putOnes]
  have hsplit : putOnes n ++ rest = List.replicate n 1 ++ 0 :: rest := by simp [putOnes]
  have hones : ∀ b ∈ List.replicate n (1 : UInt8), (decide (b ≠ 0)) = true := by
    intro b hb
    rw [List.eq_of_mem_replicate hb]
    rfl
  change getOnes _ = _
  rw [getOnes, if_pos hmem, hsplit, List.takeWhile_append_of_pos hones, List.dropWhile_append_of_pos hones]
  simp

theorem ends_getNumber {tag : UInt8} (htag : tag ≠ tagHuge) {n : Nat} {rest : List UInt8}
    {Q : Nat → List UInt8 → Prop} {E : Failure → List UInt8 → Prop} :
    Ends (getNumber tag) (putNumber tag n ++ rest) Q E ↔ Q n rest := by
  have hread (t : UInt8) (bytes : List UInt8) {Q' : List UInt8 → List UInt8 → Prop} :
      Ends (Bytes.read 1 (Failure.exception "end of stream")) (t :: bytes) Q' E ↔ Q' [t] bytes := by
    change Ends _ ([t] ++ bytes) Q' E ↔ _
    exact Bytes.ends_read_append rfl
  rw [getNumber, putNumber, ends_bind]
  by_cases hn : n < 256 ^ 4
  · rw [if_pos hn, List.cons_append, hread, if_pos rfl, ends_bind,
      Bytes.ends_read_append (by rw [List.length_reverse, Bytes.length_le]), ends_pure, List.reverse_reverse,
      Bytes.ofLe_le_of_lt hn]
  · have hne : [tagHuge] ≠ [tag] := fun h => htag (List.cons.inj h).1.symm
    rw [if_neg hn, List.cons_append, hread, if_neg hne, if_pos rfl, Ends, run_getOnes]

theorem ends_getText {s : String} {rest : List UInt8} {Q : String → List UInt8 → Prop}
    {E : Failure → List UInt8 → Prop} : Ends getText (putText s ++ rest) Q E ↔ Q s rest := by
  have hdecode : String.fromUTF8? ⟨s.toByteArray.data.toList.toArray⟩ = some s := by
    rw [Array.toArray_toList, String.fromUTF8?, dif_pos s.isValidUTF8]
    rfl
  rw [getText, putText, List.append_assoc, ends_bind, ends_getNumber (by decide), ends_bind,
    Bytes.ends_read_append rfl]
  simp only [hdecode, ends_pure]

/-- The layout of `eckit::Stream`. -/
def eckit : StreamFormat where
  putSize := putNumber tagUnsignedLong
  putString := putText
  getSize := getNumber tagUnsignedLong
  getString := getText
  getSize_putSize n rest := by
    have hends : Ends (getNumber tagUnsignedLong) (putNumber tagUnsignedLong n ++ rest)
        (fun m left => m = n ∧ left = rest) fun _ _ => False := (ends_getNumber (by decide)).mpr ⟨rfl, rfl⟩
    obtain ⟨m, left, hrun, rfl, rfl⟩ := hends.returns
    exact hrun
  getString_putString s rest := by
    have hends : Ends getText (putText s ++ rest) (fun t left => t = s ∧ left = rest) fun _ _ => False :=
      ends_getText.mpr ⟨rfl, rfl⟩
    obtain ⟨t, left, hrun, rfl, rfl⟩ := hends.returns
    exact hrun

end StreamFormat

end Fdb5
