import Fdb5.Remote.KeyStream
import Fdb5.Toc.AxisRegistry
import Fdb5.Toc.UriText

/-! The payload of a TOC_INDEX record: a `TocIndex` in a stream, in each version. -/
namespace Fdb5

open Effect LastWins

/-- The bytes that `eckit::Stream` has for objects and for times, and the texts that it has for URIs. -/
structure ObjectFormat extends StreamFormat where
  text : UriText
  startObject : List UInt8
  endObject : List UInt8
  putTime : Int → List UInt8
  next : EStateM Failure (List UInt8) Bool
  endObjectFound : EStateM Failure (List UInt8) Bool
  getTime : EStateM Failure (List UInt8) Int
  next_startObject : ∀ rest, next.run (startObject ++ rest) = .ok true rest
  endObjectFound_endObject : ∀ rest, endObjectFound.run (endObject ++ rest) = .ok true rest
  endObjectFound_putString : ∀ s rest, endObjectFound.run (putString s ++ rest) = .ok false (putString s ++ rest)
  getTime_putTime : ∀ t rest, getTime.run (putTime t ++ rest) = .ok t rest

/-- What an `IndexBase` writes of itself. -/
structure IndexBase where
  type : String
  axes : Std.ExtTreeMap String AxisValues
  key : Key
  timestamp : Int

/-- What a `TocIndex` writes of itself. -/
structure IndexPayload where
  files : UriTable
  base : IndexBase

namespace ObjectFormat

variable (format : ObjectFormat)

/-- `while (!s.endObjectFound()) { s >> k; ... }`, of so many turns at most. -/
def whileFields {α : Type} (field : String → α → EStateM Failure (List UInt8) α) :
    Nat → α → EStateM Failure (List UInt8) α
  | 0, _ => throw (.undefinedBehaviour "while")
  | n + 1, a => do
    if ← format.endObjectFound then return a
    else
      let k ← format.getString
      whileFields field n (← field k a)

/-- The loop over the fields of an object, none of which is empty. -/
def fields {α : Type} (field : String → α → EStateM Failure (List UInt8) α) (a : α) :
    EStateM Failure (List UInt8) α := do
  format.whileFields field ((← get).length + 1) a

end ObjectFormat

namespace UriTable

variable (format : ObjectFormat)

/-- `UriStore::encode(s)`. -/
def encodeTo (t : UriTable) : List UInt8 :=
  format.putSize t.paths.size ++
    t.encode.flatMap fun e => format.putSize e.1 ++ format.putString (format.text.written e.2)

def getEntries : Nat → UriTable → EStateM Failure (List UInt8) UriTable
  | 0, t => return t
  | n + 1, t => do
    let id ← format.getSize
    let uri ← lift (format.text.parse (← format.getString))
    getEntries n (t.decodeEntry (id, .raw uri))

/-- `UriStore(directory, s)`. -/
def decodeFrom (directory : String) : EStateM Failure (List UInt8) UriTable := do
  getEntries format (← format.getSize) { directory, readOnly := true }

end UriTable

namespace IndexBase

variable (format : ObjectFormat)

/-- The loop that `IndexAxis::encodeCurrent` and `IndexAxis::encodeLegacy` have. -/
def putAxes (axes : Std.ExtTreeMap String AxisValues) : List UInt8 :=
  axes.toList.flatMap fun kv =>
    format.putString kv.1 ++ (format.putSize kv.2.size ++ kv.2.toList.flatMap format.putString)

/-- `IndexAxis::encode(s, version)`. -/
def encodeAxes (version : Nat) (axes : Std.ExtTreeMap String AxisValues) : List UInt8 :=
  if 3 ≤ version then
    format.startObject ++ (format.putString "size" ++ (format.putSize axes.size ++
      (format.putString "axes" ++ (putAxes format axes ++ format.endObject))))
  else format.putSize axes.size ++ putAxes format axes

/-- `IndexBase::encode(s, version)`. -/
def encodeTo (version : Nat) (b : IndexBase) : Except Failure (List UInt8) := do
  let key ← b.key.encodeTo format.toStreamFormat
  if 3 ≤ version then
    return encodeAxes format version b.axes ++ (format.startObject ++ (format.putString "key" ++ (key ++
      (format.putString "type" ++ (format.putString b.type ++ (format.putString "time" ++
        (format.putTime b.timestamp ++ format.endObject)))))))
  else
    let values ← b.key.valuesToString
    return encodeAxes format version b.axes ++ (key ++ (format.putString values ++ format.putString b.type))

def getValues : Nat → AxisValues → EStateM Failure (List UInt8) AxisValues
  | 0, values => return values
  | m + 1, values => do
    let v ← format.getString
    getValues m (values.insert v)

/-- The loop that `IndexAxis::decodeCurrent` and `IndexAxis::decodeLegacy` have, where each set is interned. -/
def getAxes : Nat → Std.ExtTreeMap String AxisValues → EStateM Failure (List UInt8) (Std.ExtTreeMap String AxisValues)
  | 0, axes => return axes
  | n + 1, axes => do
    let k ← format.getString
    let m ← format.getSize
    let values ← getValues format m ∅
    getAxes n (axes.insert k values)

/-- A turn of the loop of `IndexAxis::decodeCurrent`, on the number of axes and the axes. -/
def axisField (k : String) (a : Nat × Std.ExtTreeMap String AxisValues) :
    EStateM Failure (List UInt8) (Nat × Std.ExtTreeMap String AxisValues) :=
  match k with
  | "size" => do return (← format.getSize, a.2)
  | "axes" => do
    ensure (a.1 ≠ 0) "n"
    return (a.1, ← getAxes format a.1 a.2)
  | _ => throw (.seriousBug ("IndexBase de-serialization error: " ++ k ++ " field is not recognized"))

/-- `IndexAxis::decode(s, version)` of an `IndexBase`'s axes, which are empty. -/
def decodeAxes (version : Nat) : EStateM Failure (List UInt8) (Std.ExtTreeMap String AxisValues) := do
  if 3 ≤ version then
    ensure ((← format.next) = true) "s.next()"
    let a ← format.fields (axisField format) (0, ∅)
    ensure (a.2.isEmpty = false) "!axis_.empty()"
    return a.2
  else getAxes format (← format.getSize) ∅

/-- A turn of the loop of `IndexBase::decodeCurrent`. -/
def baseField (k : String) (b : IndexBase) : EStateM Failure (List UInt8) IndexBase :=
  match k with
  | "key" => do return { b with key := ← Key.decodeFrom format.toStreamFormat }
  | "type" => do return { b with type := ← format.getString }
  | "time" => do return { b with timestamp := ← format.getTime }
  | _ => throw (.seriousBug ("IndexBase de-serialization error: " ++ k ++ " field is not recognized"))

/-- `IndexBase(s, version)`, with the timestamp that the memory of the object has. -/
def decodeFrom (version : Nat) (memory : Int) : EStateM Failure (List UInt8) IndexBase := do
  let axes ← decodeAxes format version
  if 3 ≤ version then
    ensure ((← format.next) = true) "s.next()"
    let b ← format.fields (baseField format) { type := "", axes, key := {}, timestamp := memory }
    ensure (b.key.empty = false) "!key_.empty()"
    ensure (b.type ≠ "") "!type_.empty()"
    ensure (b.timestamp ≠ 0) "timestamp_"
    return b
  else
    let key ← Key.decodeFrom format.toStreamFormat
    let _ ← format.getString
    let type ← format.getString
    return { type, axes, key, timestamp := 0 }

end IndexBase

namespace IndexPayload

variable (format : ObjectFormat)

/-- `TocIndex::encode(s, version)`. -/
def encodeTo (version : Nat) (x : IndexPayload) : Except Failure (List UInt8) := do
  return x.files.encodeTo format ++ (← x.base.encodeTo format version)

/-- `TocIndex(s, version, directory, path, offset)`. -/
def decodeFrom (version : Nat) (directory : String) (memory : Int) : EStateM Failure (List UInt8) IndexPayload := do
  let files ← UriTable.decodeFrom format directory
  return { files, base := ← IndexBase.decodeFrom format version memory }

end IndexPayload

section Read

variable {format : ObjectFormat} {rest : List UInt8} {E : Failure → List UInt8 → Prop}

namespace ObjectFormat

theorem ends_next {Q : Bool → List UInt8 → Prop} :
    Ends format.next (format.startObject ++ rest) Q E ↔ Q true rest := by
  unfold Ends
  rw [next_startObject]

theorem ends_getTime {t : Int} {Q : Int → List UInt8 → Prop} :
    Ends format.getTime (format.putTime t ++ rest) Q E ↔ Q t rest := by
  unfold Ends
  rw [getTime_putTime]

section Fields

variable {α : Type} {field : String → α → EStateM Failure (List UInt8) α} {a : α} {n : Nat} {Q : α → List UInt8 → Prop}

theorem ends_whileFields_end :
    Ends (format.whileFields field (n + 1) a) (format.endObject ++ rest) Q E ↔ Q a rest := by
  rw [whileFields, ends_bind, Ends, endObjectFound_endObject]
  exact Iff.rfl

theorem ends_whileFields_next {k : String} :
    Ends (format.whileFields field (n + 1) a) (format.putString k ++ rest) Q E ↔
      Ends (field k a) rest (fun b t => Ends (format.whileFields field n b) t Q E) E := by
  rw [whileFields, ends_bind, Ends, endObjectFound_putString]
  change Ends (_ >>= _) _ Q E ↔ _
  rw [ends_bind, StreamFormat.ends_getString, ends_bind]

end Fields

/-- Two texts are never written alike, so that none is written as nothing. -/
theorem length_putString (format : ObjectFormat) (s : String) : 0 < (format.putString s).length := by
  rw [List.length_pos_iff]
  intro hs
  have hall : ∀ t, t = s := by
    intro t
    have ht := format.getString_putString t []
    have hst := format.getString_putString s (format.putString t)
    rw [List.append_nil] at ht
    rw [hs, List.nil_append, ht] at hst
    injection hst
  have := (hall "0").trans (hall "1").symm
  exact absurd this (by decide)

end ObjectFormat

open ObjectFormat

namespace UriTable

/-- The entry as it is read. -/
def readEntry (text : UriText) (e : Nat × StoredURI) : Except Failure (Nat × StoredURI) := do
  return (e.1, .raw (← text.parse (text.written e.2)))

theorem fst_readEntry {text : UriText} {l l' : List (Nat × StoredURI)} (h : l.mapM (readEntry text) = .ok l') :
    l.map Prod.fst = l'.map Prod.fst := by
  have hall : List.Forall₂ (fun e e' : Nat × StoredURI => e.1 = e'.1) l l' := by
    refine (Key.mapM_ok h).imp fun e e' he => ?_
    simp only [readEntry, except_bind_ok, except_pure_ok] at he
    obtain ⟨u, -, rfl⟩ := he
    rfl
  have hmap := (List.forall₂_map_right_iff (R := Eq)).mpr (List.forall₂_map_left_iff.mpr hall)
  rwa [List.forall₂_eq_eq_eq] at hmap

theorem ends_getEntries {l : List (Nat × StoredURI)} : ∀ t,
    Ends (getEntries format l.length t)
      ((l.flatMap fun e => format.putSize e.1 ++ format.putString (format.text.written e.2)) ++ rest)
      (fun t' s => ∃ l', l.mapM (readEntry format.text) = .ok l' ∧ t' = l'.foldl decodeEntry t ∧ s = rest)
      fun _ _ => ∀ l', l.mapM (readEntry format.text) ≠ .ok l' := by
  induction l with
  | nil => exact fun t => (ends_pure t).mpr ⟨[], rfl, rfl, rfl⟩
  | cons e l ih =>
    intro t
    rw [List.flatMap_cons, List.append_assoc, List.append_assoc, List.length_cons, getEntries, ends_bind,
      StreamFormat.ends_getSize, ends_bind, StreamFormat.ends_getString, ends_bind, ends_lift, List.mapM_cons, readEntry]
    cases format.text.parse (format.text.written e.2) with
    | error failure =>
      refine ⟨fun _ h => (by cases h), fun _ _ l' h => ?_⟩
      cases h
    | ok uri =>
      refine ⟨fun u hu => ?_, fun _ h => (by cases h)⟩
      obtain rfl := Except.ok.inj hu
      refine (ih _).mono ?_ fun _ _ hno l' hl => ?_
      · rintro t' s ⟨l', hl, rfl, rfl⟩
        exact ⟨(e.1, .raw uri) :: l', by rw [hl]; rfl, rfl, rfl⟩
      · cases hr : l.mapM (readEntry format.text) with
        | error failure =>
          rw [hr] at hl
          cases hl
        | ok r => exact hno r hr

/-- A table is read back as `decode` says of the entries that are read. -/
theorem ends_decodeFrom {t : UriTable} {directory : String} :
    Ends (decodeFrom format directory) (t.encodeTo format ++ rest)
      (fun t' s => ∃ l, t.encode.mapM (readEntry format.text) = .ok l ∧ t' = decode directory l ∧ s = rest)
      fun _ _ => ∀ l, t.encode.mapM (readEntry format.text) ≠ .ok l := by
  have hsize : t.paths.size = t.encode.length := by simp [encode, Std.ExtTreeMap.length_toList]
  rw [decodeFrom, encodeTo, List.append_assoc, ends_bind, StreamFormat.ends_getSize, hsize]
  exact ends_getEntries _

end UriTable

namespace IndexBase

theorem ends_getValues {l : List String} {Q : AxisValues → List UInt8 → Prop} : ∀ values,
    Ends (getValues format l.length values) (l.flatMap format.putString ++ rest) Q E ↔
      Q (l.foldl (fun s v => s.insert v) values) rest := by
  induction l with
  | nil => exact fun values => Iff.rfl
  | cons v l ih =>
    intro values
    rw [List.flatMap_cons, List.append_assoc, List.length_cons, getValues, ends_bind, StreamFormat.ends_getString, ih]
    rfl

theorem foldl_values (values : AxisValues) : values.toList.foldl (fun s v => s.insert v) (∅ : AxisValues) = values := by
  rw [← Std.ExtTreeSet.ofList_eq_foldl]
  refine Std.ExtTreeSet.ext_mem fun v => ?_
  rw [Std.ExtTreeSet.mem_ofList, List.contains_iff_mem, Std.ExtTreeSet.mem_toList]

theorem ends_getAxes {l : List (String × AxisValues)} {Q : Std.ExtTreeMap String AxisValues → List UInt8 → Prop} :
    ∀ axes, Ends (getAxes format l.length axes) ((l.flatMap fun kv =>
      format.putString kv.1 ++ (format.putSize kv.2.size ++ kv.2.toList.flatMap format.putString)) ++ rest) Q E ↔
        Q (l.foldl (fun a kv => a.insert kv.1 kv.2) axes) rest := by
  induction l with
  | nil => exact fun axes => Iff.rfl
  | cons kv l ih =>
    intro axes
    rw [List.flatMap_cons, List.append_assoc, List.append_assoc, List.append_assoc, List.length_cons, getAxes,
      ends_bind, StreamFormat.ends_getString, ends_bind, StreamFormat.ends_getSize, ends_bind,
      ← Std.ExtTreeSet.length_toList, ends_getValues, foldl_values, ih]
    rfl

theorem ends_putAxes {axes : Std.ExtTreeMap String AxisValues}
    {Q : Std.ExtTreeMap String AxisValues → List UInt8 → Prop} :
    Ends (getAxes format axes.size ∅) (putAxes format axes ++ rest) Q E ↔ Q axes rest := by
  rw [← Std.ExtTreeMap.length_toList, putAxes, ends_getAxes, ← Std.ExtTreeMap.ofList_eq_foldl, ofList_toList]

/-- The axes of an index are read back if there are any, or by the version that does not ask. -/
theorem ends_decodeAxes {version : Nat} {axes : Std.ExtTreeMap String AxisValues} :
    Ends (decodeAxes format version) (encodeAxes format version axes ++ rest)
      (fun a t => a = axes ∧ t = rest ∧ (3 ≤ version → axes.isEmpty = false))
      fun _ _ => 3 ≤ version ∧ axes.isEmpty = true := by
  unfold decodeAxes encodeAxes
  by_cases hv : 3 ≤ version
  · simp only [hv, if_true, List.append_assoc, ends_bind, ends_next, ends_ensure, fields, ends_get]
    refine ⟨fun _ => ?_, fun h => absurd trivial h⟩
    obtain ⟨n, hn⟩ : ∃ n, (format.putString "size" ++ (format.putSize axes.size ++ (format.putString "axes" ++
        (putAxes format axes ++ (format.endObject ++ rest))))).length + 1 = n + 3 := by
      have h₁ := length_putString format "size"
      have h₂ := length_putString format "axes"
      simp only [List.length_append]
      exact Nat.exists_eq_add_of_le' (by omega)
    rw [hn, ends_whileFields_next]
    simp only [axisField, ends_bind, StreamFormat.ends_getSize, ends_pure, ends_whileFields_next, ends_ensure,
      ends_putAxes, ends_whileFields_end]
    have hsize : axes.isEmpty = true ↔ axes.size = 0 := by simp [Std.ExtTreeMap.isEmpty_eq_size_beq_zero]
    rw [ne_eq, ← hsize]
    cases axes.isEmpty <;> simp
  · simp only [hv, if_false, List.append_assoc, ends_bind, StreamFormat.ends_getSize, ends_putAxes, false_implies,
      and_true]

/-- Nothing that the current versions ask for is missing. -/
def Readable (version : Nat) (b : IndexBase) : Prop :=
  3 ≤ version → b.axes.isEmpty = false ∧ b.key.empty = false ∧ b.type ≠ "" ∧ b.timestamp ≠ 0

/-- The index as a reader has it, with its key as it is encoded. -/
def readBack (version : Nat) (b : IndexBase) (key : Key) : IndexBase :=
  { b with key, timestamp := if 3 ≤ version then b.timestamp else 0 }

theorem ends_decodeFrom {version : Nat} {memory : Int} {b : IndexBase} {bytes : List UInt8} {key : Key}
    (h : b.encodeTo format version = .ok bytes) (hk : b.key.encode = .ok key) :
    Ends (decodeFrom format version memory) (bytes ++ rest)
      (fun b' t => b' = b.readBack version key ∧ t = rest ∧ b.Readable version) fun _ _ => ¬ b.Readable version := by
  unfold decodeFrom
  simp only [encodeTo, except_bind_ok] at h
  obtain ⟨keyBytes, hkey, h⟩ := h
  by_cases hv : 3 ≤ version
  · rw [if_pos hv, except_pure_ok] at h
    subst h
    rw [List.append_assoc, ends_bind]
    refine ends_decodeAxes.mono ?_ fun _ _ hno h => ?_
    · rintro axes t ⟨rfl, rfl, haxes⟩
      simp only [hv, if_true, List.append_assoc, ends_bind, ends_next, ends_ensure, fields, ends_get]
      refine ⟨fun _ => ?_, fun h => absurd trivial h⟩
      obtain ⟨n, hn⟩ : ∃ n, (format.putString "key" ++ (keyBytes ++ (format.putString "type" ++ (format.putString b.type ++
          (format.putString "time" ++ (format.putTime b.timestamp ++ (format.endObject ++ rest))))))).length + 1 =
            n + 4 := by
        have h₁ := length_putString format "key"
        have h₂ := length_putString format "type"
        have h₃ := length_putString format "time"
        simp only [List.length_append]
        exact Nat.exists_eq_add_of_le' (by omega)
      rw [hn, ends_whileFields_next]
      simp only [baseField, ends_bind, Key.ends_decodeFrom hkey hk, ends_pure, ends_whileFields_next,
        StreamFormat.ends_getString, ends_getTime, ends_whileFields_end, Key.empty_encode hk]
      refine ⟨fun hkey => ⟨fun htype => ⟨fun htime => ?_, fun htime h => htime (h hv).2.2.2⟩, fun htype h => ?_⟩,
        fun hkey h => hkey (h hv).2.1⟩
      · exact ⟨by simp [readBack, hv], trivial, fun _ => ⟨haxes hv, hkey, htype, htime⟩⟩
      · exact htype (h hv).2.2.1
    · rw [(h hv).1] at hno
      exact absurd hno.2 (by decide)
  · rw [if_neg hv] at h
    simp only [except_bind_ok, except_pure_ok] at h
    obtain ⟨values, -, rfl⟩ := h
    rw [List.append_assoc, ends_bind]
    refine ends_decodeAxes.mono ?_ fun _ _ hno => absurd hno.1 hv
    rintro axes t ⟨rfl, rfl, -⟩
    simp only [hv, if_false, List.append_assoc, ends_bind, Key.ends_decodeFrom hkey hk, StreamFormat.ends_getString,
      ends_pure, readBack, Readable, false_implies, and_true]

end IndexBase

end Read

namespace ObjectFormat

/-- `tag_start_obj`, `tag_end_obj` and `tag_long`, and a tag for the times before 1970. -/
def tagStartObj : UInt8 := 1

def tagEndObj : UInt8 := 2

def tagLong : UInt8 := 9

def tagNegative : UInt8 := 254

def putLong : Int → List UInt8
  | .ofNat n => StreamFormat.putNumber tagLong n
  | .negSucc n => tagNegative :: StreamFormat.putOnes n

def getLong : EStateM Failure (List UInt8) Int := do
  let s ← get
  if s.head? = some tagNegative then
    set s.tail
    return .negSucc (← StreamFormat.getOnes)
  else return .ofNat (← StreamFormat.getNumber tagLong)

/-- The next tag is this one, and is taken. -/
def getTag (tag : UInt8) : EStateM Failure (List UInt8) Bool := do
  let s ← get
  if s.head? = some tag then
    set s.tail
    return true
  else return false

theorem head?_putNumber (tag : UInt8) (n : Nat) (rest : List UInt8) :
    (StreamFormat.putNumber tag n ++ rest).head? = some tag ∨
      (StreamFormat.putNumber tag n ++ rest).head? = some StreamFormat.tagHuge := by
  rw [StreamFormat.putNumber]
  split
  · exact .inl rfl
  · exact .inr rfl

theorem run_getLong (t : Int) (rest : List UInt8) : getLong.run (putLong t ++ rest) = .ok t rest := by
  have hends : Ends getLong (putLong t ++ rest) (fun u left => u = t ∧ left = rest) fun _ _ => False := by
    rw [getLong, ends_bind, ends_get]
    cases t with
    | ofNat n =>
      have hno : (StreamFormat.putNumber tagLong n ++ rest).head? ≠ some tagNegative := by
        rcases head?_putNumber tagLong n rest with h | h <;> rw [h] <;> decide
      rw [putLong, if_neg hno, ends_bind, StreamFormat.ends_getNumber (by decide)]
      exact ⟨rfl, rfl⟩
    | negSucc n =>
      rw [putLong, List.cons_append, if_pos (by rfl), ends_bind, ends_set, ends_bind, List.tail_cons, Ends,
        StreamFormat.run_getOnes]
      exact ⟨rfl, rfl⟩
  obtain ⟨u, left, hrun, rfl, rfl⟩ := hends.returns
  exact hrun

/-- The layout of `eckit::Stream`. -/
def eckit : ObjectFormat where
  toStreamFormat := .eckit
  text := .plain
  startObject := [tagStartObj]
  endObject := [tagEndObj]
  putTime := putLong
  next := getTag tagStartObj
  endObjectFound := getTag tagEndObj
  getTime := getLong
  next_startObject _ := rfl
  endObjectFound_endObject _ := rfl
  endObjectFound_putString s rest := by
    have hno : (StreamFormat.putText s ++ rest).head? ≠ some tagEndObj := by
      rw [StreamFormat.putText, List.append_assoc]
      rcases head?_putNumber StreamFormat.tagString s.toByteArray.data.toList.length (s.toByteArray.data.toList ++ rest)
        with h | h <;> rw [h] <;> decide
    change (getTag tagEndObj).run (StreamFormat.putText s ++ rest) = .ok false (StreamFormat.putText s ++ rest)
    have hends : Ends (getTag tagEndObj) (StreamFormat.putText s ++ rest)
        (fun b left => b = false ∧ left = StreamFormat.putText s ++ rest) fun _ _ => False := by
      rw [getTag, ends_bind, ends_get, if_neg hno]
      exact ⟨rfl, rfl⟩
    obtain ⟨b, left, hrun, rfl, rfl⟩ := hends.returns
    exact hrun
  getTime_putTime := run_getLong

end ObjectFormat

namespace IndexPayload

variable {format : ObjectFormat} {version : Nat} {x y : IndexPayload} {bytes : List UInt8} {s : UriStore}
  {directory : String} {uris : List URI} {files : UriTable} {base : IndexBase}

/-- The index that was read is the one that was written, with the timestamp if the version carries it. -/
structure Same (version : Nat) (x y : IndexPayload) : Prop where
  uris : ∀ id, y.files.get id = x.files.get id
  ids : ∀ uri, y.files.ids uri = x.files.ids uri
  axes : y.base.axes = x.base.axes
  names : y.base.key.names = x.base.key.names
  values : ∀ keyword, y.base.key.canonicalValue keyword = x.base.key.canonicalValue keyword
  type : y.base.type = x.base.type
  timestamp : 3 ≤ version → y.base.timestamp = x.base.timestamp

/-- The payload, with anything after it, is read to its end and gives the index, whatever the memory had. -/
def RoundTrips (format : ObjectFormat) (version : Nat) (x : IndexPayload) (bytes : List UInt8) : Prop :=
  ∀ memory rest, ∃ y, (decodeFrom format version x.files.directory memory).run (bytes ++ rest) = .ok y rest ∧
    Same version x y

section Table

variable (hd : s.directory.toList.head? = some '/') (h : files.Represents s)

include h

/-- Where no URI changes, the table does not. -/
theorem decode_same (hfollows : ∀ uri ∈ s.uris, uri.follows s.directory s.directory) :
    (∀ id, (UriTable.decode files.directory files.encode).get id = files.get id) ∧
      ∀ uri, (UriTable.decode files.directory files.encode).ids uri = files.ids uri := by
  have hstay : ∀ u ∈ s.uris, UriTable.reread s.directory s.directory u = u := by
    intro u hu
    rw [reread_eq_relocate.mpr (hfollows u hu), URI.relocate_self]
  have hpaths : ∀ id : Nat, (UriTable.decode files.directory files.encode).paths[id]? = files.paths[id]? := by
    intro id
    rw [UriTable.decode_getElem?, h.directory]
    cases hid : files.paths[id]? with
    | none => rfl
    | some u =>
      have hu := List.mem_of_getElem? ((h.paths id).symm.trans hid)
      rw [Option.map_some, hstay u hu]
  refine ⟨fun id => by rw [UriTable.get, UriTable.get, hpaths], fun uri => Option.ext fun id => ?_⟩
  have hbij : (UriTable.decode files.directory files.encode).Bijection := by
    rw [h.decode_bijection, h.directory]
    intro u hu v hv huv
    rwa [hstay u hu, hstay v hv] at huv
  rw [← hbij id uri, ← h.bijection id uri, hpaths]

variable (hp : ∀ uri ∈ s.uris, format.text.isPath uri.path)

include hd hp

/-- A table whose URIs are kept is read as `decode` has it. -/
theorem exists_read (hkeeps : ∀ uri ∈ s.uris, format.text.Keeps s.directory uri) :
    ∃ l, files.encode.mapM (UriTable.readEntry format.text) = .ok l ∧
      UriTable.decode files.directory l = UriTable.decode files.directory files.encode := by
  have hread : ∀ e ∈ files.encode, ∃ u, format.text.parse (format.text.written e.2) = .ok u ∧
      (StoredURI.raw u).decodeIn s.directory = e.2.decodeIn s.directory := by
    intro e he
    obtain ⟨uri, huri, hstored⟩ := UriTable.mem_encode.mp he
    have hmem := List.mem_of_getElem? ((h.paths e.1).symm.trans huri)
    obtain ⟨u, hparse, hu⟩ := (UriText.reads_iff hd (hp uri hmem)).mpr (hkeeps uri hmem)
    have hstay : UriTable.reread s.directory s.directory uri = uri := by
      rw [reread_eq_relocate.mpr ((hkeeps uri hmem).follows hd), URI.relocate_self]
    rw [hstored, h.directory]
    exact ⟨u, hparse, hu.trans hstay.symm⟩
  obtain ⟨l, hl⟩ := exists_mapM (l := files.encode) (f := UriTable.readEntry format.text) fun e he => by
    obtain ⟨u, hparse, -⟩ := hread e he
    exact ⟨_, by rw [UriTable.readEntry, hparse]; rfl⟩
  refine ⟨l, hl, UriTable.decode_congr ?_⟩
  rw [h.directory]
  refine ((List.forall₂_and_left _ _).mpr ⟨hread, Key.mapM_ok hl⟩).imp ?_
  rintro e e' ⟨⟨u, hparse, hu⟩, he⟩
  simp only [UriTable.readEntry, hparse, except_bind_ok, except_pure_ok] at he
  obtain ⟨_, hu', rfl⟩ := he
  obtain rfl := Except.ok.inj hu'
  exact ⟨rfl, hu⟩

/-- A table that is read as it was has only URIs that are kept. -/
theorem keeps_of_read {l : List (Nat × StoredURI)} (hl : files.encode.mapM (UriTable.readEntry format.text) = .ok l)
    (hsame : ∀ id, (UriTable.decode files.directory l).get id = files.get id) :
    ∀ uri ∈ s.uris, format.text.Keeps s.directory uri := by
  intro uri huri
  obtain ⟨id, hid⟩ := List.getElem?_of_mem huri
  have hpath := (h.paths id).trans hid
  obtain ⟨e, he, hentry⟩ := mem_mapM_of hl (UriTable.mem_encode.mpr ⟨uri, hpath, rfl⟩ :
    (id, uri.encodeIn files.directory) ∈ files.encode)
  simp only [UriTable.readEntry, except_bind_ok, except_pure_ok, h.directory] at hentry
  obtain ⟨u, hparse, rfl⟩ := hentry
  refine (UriText.reads_iff hd (hp uri huri)).mp ⟨u, hparse, ?_⟩
  have hget := hsame id
  have hread : (UriTable.decode files.directory l).paths[id]? = some ((StoredURI.raw u).decodeIn files.directory) :=
    UriTable.decode_getElem?_of_mem (UriTable.fst_readEntry hl ▸ files.encode_keys) he
  rw [UriTable.get, hread, UriTable.get, hpath, h.directory] at hget
  exact Except.ok.inj hget

end Table

theorem ends_decodeFrom {memory : Int} {rest : List UInt8} {key : Key} (h : x.encodeTo format version = .ok bytes)
    (hk : x.base.key.encode = .ok key) : Ends (decodeFrom format version directory memory) (bytes ++ rest)
      (fun y t => ∃ l, x.files.encode.mapM (UriTable.readEntry format.text) = .ok l ∧
        y = ⟨.decode directory l, x.base.readBack version key⟩ ∧ t = rest ∧ x.base.Readable version)
      fun _ _ => (∀ l, x.files.encode.mapM (UriTable.readEntry format.text) ≠ .ok l) ∨ ¬ x.base.Readable version := by
  simp only [encodeTo, except_bind_ok, except_pure_ok] at h
  obtain ⟨base, hbase, rfl⟩ := h
  rw [decodeFrom, List.append_assoc, ends_bind]
  refine UriTable.ends_decodeFrom.mono ?_ fun _ _ h => .inl h
  rintro files s ⟨l, hl, rfl, rfl⟩
  rw [ends_bind]
  refine (IndexBase.ends_decodeFrom hbase hk).mono ?_ fun _ _ h => .inr h
  rintro b t ⟨rfl, rfl, hread⟩
  exact ⟨l, hl, rfl, rfl, hread⟩

theorem exists_key (h : x.encodeTo format version = .ok bytes) : ∃ key, x.base.key.encode = .ok key := by
  simp only [encodeTo, IndexBase.encodeTo, except_bind_ok] at h
  obtain ⟨_, ⟨key, hkey, _⟩, _⟩ := h
  exact Key.exists_encode hkey

theorem same_readBack {key : Key} (h : x.files.Represents s) (hk : x.base.key.encode = .ok key)
    (hfollows : ∀ uri ∈ s.uris, uri.follows s.directory s.directory) :
    Same version x ⟨.decode x.files.directory x.files.encode, x.base.readBack version key⟩ where
  uris := (decode_same h hfollows).1
  ids := (decode_same h hfollows).2
  axes := rfl
  names := by
    obtain ⟨values, _, rfl⟩ := Key.encode_ok hk
    rfl
  values := Key.canonicalValue_encode hk
  type := rfl
  timestamp hv := by simp [IndexBase.readBack, hv]

theorem RoundTrips.readable (hround : RoundTrips format version x bytes) (he : x.encodeTo format version = .ok bytes) :
    x.base.Readable version := by
  obtain ⟨key, hk⟩ := exists_key he
  obtain ⟨y, hrun, -⟩ := hround 0 []
  obtain ⟨l, -, -, -, hread⟩ := (ends_decodeFrom he hk).ok hrun
  exact hread

theorem roundTrips_iff (hd : s.directory.toList.head? = some '/') (h : x.files.Represents s)
    (hp : ∀ uri ∈ s.uris, format.text.isPath uri.path) (he : x.encodeTo format version = .ok bytes) :
    RoundTrips format version x bytes ↔
      x.base.Readable version ∧ ∀ uri ∈ s.uris, format.text.Keeps s.directory uri := by
  obtain ⟨key, hk⟩ := exists_key he
  constructor
  · intro hround
    obtain ⟨y, hrun, hsame⟩ := hround 0 []
    obtain ⟨l, hl, rfl, -, hread⟩ := (ends_decodeFrom he hk).ok hrun
    exact ⟨hread, keeps_of_read hd h hp hl hsame.uris⟩
  · rintro ⟨hread, hkeeps⟩ memory rest
    obtain ⟨l, hl, hdecode⟩ := exists_read hd h hp hkeeps
    have hends : Ends (decodeFrom format version x.files.directory memory) (bytes ++ rest)
        (fun y t => y = ⟨.decode x.files.directory l, x.base.readBack version key⟩ ∧ t = rest) fun _ _ => False := by
      refine (ends_decodeFrom he hk).mono ?_ fun _ _ hno => hno.elim (fun hno => hno l hl) fun hno => hno hread
      rintro y t ⟨l', hl', rfl, rfl, -⟩
      obtain rfl := Except.ok.inj (hl'.symm.trans hl)
      exact ⟨rfl, rfl⟩
    obtain ⟨y, t, hrun, rfl, rfl⟩ := hends.returns
    exact ⟨_, hrun, hdecode ▸ same_readBack h hk fun uri huri => (hkeeps uri huri).follows hd⟩

/-- A payload with any table of URIs is read back as it was exactly when the current versions find what they ask for,
and each URI has an entry that is read as it. A database has the directory of a real path. -/
theorem payload_roundTrips_iff (hd : directory.toList.head? = some '/')
    (hp : ∀ uri ∈ uris, format.text.isPath uri.path) (ht : UriTable.insertAll directory uris = .ok files)
    (h : encodeTo format version ⟨files, base⟩ = .ok bytes) : RoundTrips format version ⟨files, base⟩ bytes ↔
      base.Readable version ∧ ∀ uri ∈ uris, format.text.Keeps directory uri := by
  obtain ⟨t, s, ht', hrep, rfl, hmem⟩ := UriTable.insertAll_ok directory uris
  obtain rfl : t = files := Except.ok.inj (ht'.symm.trans ht)
  rw [roundTrips_iff hd hrep (fun uri huri => hp uri ((hmem uri).mp huri)) h]
  simp only [hmem]

section Sample

/-- An index of one field, in the version. -/
def sampleIndex (key : Key) : IndexBase where
  type := "BTreeIndex"
  axes := (∅ : Std.ExtTreeMap String AxisValues).insert "param" ((∅ : AxisValues).insert "130")
  key
  timestamp := 1

def sampleURI : URI := ⟨"file", ⟨"/db", ⟨"sfc.data", none, ""⟩⟩⟩

/-- A file outside the directory, and one of another store. -/
def sampleURIs : List URI :=
  [sampleURI, ⟨"file", ⟨"/root/db", ⟨"pl.data", none, ""⟩⟩⟩, ⟨"daos", ⟨"/pool", ⟨"object", none, ""⟩⟩⟩]

theorem payload_roundTrips_sample : ∃ files bytes, UriTable.insertAll "/db" sampleURIs = .ok files ∧
    encodeTo .eckit 3 ⟨files, sampleIndex (.ofList [("levtype", "sfc")] none)⟩ = .ok bytes ∧
      RoundTrips .eckit 3 ⟨files, sampleIndex (.ofList [("levtype", "sfc")] none)⟩ bytes := by
  obtain ⟨files, s, ht, -⟩ := UriTable.insertAll_ok "/db" sampleURIs
  obtain ⟨bytes, hb⟩ : ∃ bytes,
    encodeTo .eckit 3 ⟨files, sampleIndex (.ofList [("levtype", "sfc")] none)⟩ = .ok bytes := ⟨_, rfl⟩
  have hpaths : ∀ uri ∈ sampleURIs, ObjectFormat.eckit.text.isPath uri.path := by
    change ∀ uri ∈ sampleURIs, UriText.Plain.pathOf (UriText.Plain.print uri.path) = uri.path
    decide
  have hkeeps : ∀ uri ∈ sampleURIs, ObjectFormat.eckit.text.Keeps "/db" uri := by
    simp [sampleURIs, sampleURI, UriText.Keeps, PathName.isAbsolute, URI.encodeIn, StoredPath.of, UriText.written,
      ObjectFormat.eckit, UriText.plain, PathName.print]
  refine ⟨files, bytes, ht, hb, (payload_roundTrips_iff (by decide) hpaths ht hb).mpr ⟨fun _ => ?_, hkeeps⟩⟩
  exact ⟨rfl, rfl, by decide, by decide⟩

/-- A schema with an empty rule gives an index an empty key, with which the current versions write it but do not read
it. -/
theorem empty_key_not_read : ∃ files bytes, UriTable.insertAll "/db" [sampleURI] = .ok files ∧
    encodeTo .eckit 3 ⟨files, sampleIndex (.ofList [] none)⟩ = .ok bytes ∧
      ¬ RoundTrips .eckit 3 ⟨files, sampleIndex (.ofList [] none)⟩ bytes := by
  obtain ⟨files, s, ht, hrep, -, -⟩ := UriTable.insertAll_ok "/db" [sampleURI]
  obtain ⟨bytes, hb⟩ : ∃ bytes, encodeTo .eckit 3 ⟨files, sampleIndex (.ofList [] none)⟩ = .ok bytes := ⟨_, rfl⟩
  refine ⟨files, bytes, ht, hb, fun hround => ?_⟩
  have hread := hround.readable hb (by decide)
  have hempty : (sampleIndex (.ofList [] none)).key.empty = true := rfl
  exact absurd (hempty.symm.trans hread.2.1) (by decide)

end Sample

end IndexPayload

end Fdb5
