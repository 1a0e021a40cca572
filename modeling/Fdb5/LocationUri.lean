import Mathlib.Algebra.Group.Int.Defs
import Mathlib.Data.List.TakeWhile
import Fdb5.Location
import Fdb5.Remote.KeyCalls

/-! Locations of fields packed into URIs, and unpacked from them. -/
namespace Fdb5

open Effect

def isspace (c : Char) : Bool := c = ' ' ∨ 9 ≤ c.toNat ∧ c.toNat ≤ 13

/-- `std::stoll`. -/
def stoll (s : String) : Except Failure Int64 :=
  let text := s.toList.dropWhile isspace
  let negative := text.head? = some '-'
  let text := if text.head? = some '-' ∨ text.head? = some '+' then text.tail else text
  let digits := text.takeWhile Char.isDigit
  let number : Int := if negative then -Nat.ofDigitChars 10 digits 0 else Nat.ofDigitChars 10 digits 0
  if digits = [] then .error (.exception "std::invalid_argument")
  else if -2 ^ 63 ≤ number ∧ number < 2 ^ 63 then .ok (Int64.ofInt number)
  else .error (.exception "std::out_of_range")

/-- `std::to_string`. -/
def to_string (n : Int64) : String := n.toInt.repr

/-- A URI with the parts that locations use. -/
structure LocationURI extends URI where
  fragment : String := ""
  query : StringDict := ∅

/-- `URI::query(name)`, which is empty where there is none. -/
def LocationURI.queryValue (uri : LocationURI) (name : String) : String := uri.query[name]?.getD ""

/-- A `FieldLocation` with all of its URI. -/
structure UriLocation where
  uri : LocationURI
  offset : Int64
  length : Int64
  remapKey : Key := {}

/-- Every keyword and value of the key is clean text. -/
def Key.AllClean (k : Key) : Prop := ∀ keyword value, k.find keyword = some value → Key.Clean keyword ∧ Key.Clean value

/-- A key is parsed again from its text exactly if its names enumerate its keywords and all its text is clean. -/
theorem Key.parse_asString {k : Key} (hne : k.keys ≠ ∅) :
    (∃ text k', k.asString = .ok text ∧ text ≠ "" ∧ Key.parseStringUntyped text = .ok k' ∧ k'.keys = k.keys) ↔
      k.Enumerated ∧ k.AllClean := by
  have hparsed {pairs : List (String × String)} (hfind : ∀ kv ∈ pairs, k.find kv.1 = some kv.2) (hclean : k.AllClean) :
      Key.parseStringUntyped (",".intercalate ((pairs.filter (·.2 ≠ "")).map fun kv => kv.1 ++ "=" ++ kv.2)) =
        .ok (Key.ofDict (pairs.foldl (fun keys kv => keys.insertIfNew kv.1 kv.2) ∅) none) := by
    have hpairs : ∀ kv ∈ pairs, Clean kv.1 ∧ Clean kv.2 := fun kv hkv => hclean _ _ (hfind kv hkv)
    rw [List.filter_eq_self.mpr fun kv hkv => by simpa using (hpairs kv hkv).2.1]
    exact Key.parseStringUntyped_join hpairs
  have hget {pairs : List (String × String)} (hfind : ∀ kv ∈ pairs, k.find kv.1 = some kv.2) (n : String) :
      (pairs.foldl (fun (keys : StringDict) kv => keys.insertIfNew kv.1 kv.2) ∅)[n]? =
        if n ∈ pairs.map Prod.fst then k.find n else none := by
    have hnone : n ∉ (∅ : StringDict) := Std.ExtTreeMap.not_mem_empty
    rw [Key.getElem?_insertPairs hfind (by simp)]
    simp only [hnone, or_false]
  constructor
  · rintro ⟨text, k', htext, -, hk', hkeys⟩
    have hclean : k.AllClean := fun keyword value hf => by
      refine Key.clean_parseStringUntyped hk' ?_
      rw [Key.find, hkeys]
      exact hf
    obtain ⟨hl, pairs, hfst, hfind, rfl⟩ := Key.asString_eq htext
    obtain rfl := Except.ok.inj ((hparsed hfind hclean).symm.trans hk')
    refine ⟨Key.enumerated_of_length hl fun n hn => ?_, hclean⟩
    rw [← hkeys, ← Std.ExtTreeMap.isSome_getElem?_iff_mem] at hn
    change (_[n]?).isSome = true at hn
    rw [show (Key.ofDict (pairs.foldl (fun keys kv => keys.insertIfNew kv.1 kv.2) ∅) none).keys[n]? = _ from hget hfind n] at hn
    split at hn
    next hin => exact hfst ▸ hin
    next => cases hn
  · rintro ⟨henum, hclean⟩
    obtain ⟨text, htext⟩ := henum.asString_ok
    obtain ⟨hl, pairs, hfst, hfind, rfl⟩ := Key.asString_eq htext
    have hkeys : pairs.foldl (fun (keys : StringDict) kv => keys.insertIfNew kv.1 kv.2) ∅ = k.keys := by
      refine Std.ExtTreeMap.ext_getElem? fun n => ?_
      rw [hget hfind, hfst]
      split
      next => rfl
      next hout => exact (Std.ExtTreeMap.getElem?_eq_none fun hn => hout ((henum.mem_iff n).mpr hn)).symm
    refine ⟨_, _, htext, fun hempty => ?_, hparsed hfind hclean, hkeys⟩
    have hnil : (∃ k', Key.parseStringUntyped "" = .ok k' ∧ k'.keys = ∅) := Key.parseStringUntyped_empty.mpr (by simp)
    obtain ⟨k', hk', hk''⟩ := hnil
    have hagain := hparsed hfind hclean
    rw [hempty, hk'] at hagain
    rw [Except.ok.inj hagain] at hk''
    exact hne (hkeys.symm.trans hk'')

namespace UriLocation

/-- A number in a URI, zero where there is none. -/
def numberOf (s : String) : Except Failure Int64 :=
  match stoll s with
  | .error (.exception "std::invalid_argument") => .ok 0
  | r => r

/-- `FieldLocation(uri)`. -/
def ofUri (uri : LocationURI) : Except Failure UriLocation := do
  let offset ← numberOf uri.fragment
  let lengthStr := uri.queryValue "length"
  let length ← if lengthStr ≠ "" then numberOf lengthStr else .ok 0
  let keyStr := uri.queryValue "remapKey"
  let remapKey ← if keyStr ≠ "" then Key.parseStringUntyped keyStr else .ok {}
  return { uri, offset, length, remapKey }

def fullUri (l : UriLocation) : Except Failure LocationURI := do
  let full := { l.uri with
    fragment := to_string l.offset
    query := l.uri.query.insert "length" (to_string l.length) }
  if l.remapKey.empty then return full
  else do
    let remapKey ← l.remapKey.asString
    return { full with query := full.query.insert "remapKey" remapKey }

section Numbers

variable {digits : List Char} {m : Nat}

theorem not_space_of_isDigit {c : Char} (h : c.isDigit = true) : isspace c = false ∧ c ≠ '-' ∧ c ≠ '+' := by
  rw [Char.isDigit_iff_toNat] at h
  have hlow : 48 ≤ c.toNat := h.1
  refine ⟨?_, ?_, ?_⟩
  · have hne : c ≠ ' ' := by rintro rfl; simp at hlow
    simp only [isspace, hne, false_or, decide_eq_false_iff_not]
    omega
  · rintro rfl
    simp at hlow
  · rintro rfl
    simp at hlow

theorem exists_toDigits (m : Nat) : ∃ c rest, Nat.toDigits 10 m = c :: rest ∧ c.isDigit = true ∧
    (Nat.toDigits 10 m).takeWhile Char.isDigit = Nat.toDigits 10 m := by
  have hd : ∀ c ∈ Nat.toDigits 10 m, c.isDigit = true := fun c => Nat.isDigit_of_mem_toDigits (by omega) (by omega)
  obtain ⟨c, rest, h⟩ := List.exists_cons_of_ne_nil (Nat.toDigits_ne_nil (n := m) (b := 10))
  exact ⟨c, rest, h, hd c (h ▸ List.mem_cons_self), List.takeWhile_eq_self_iff.mpr hd⟩

/-- A number that was written out is read again. -/
theorem stoll_to_string (n : Int64) : stoll (to_string n) = .ok n := by
  have hle := n.le_toInt
  have hlt := n.toInt_lt
  have hn := n.ofInt_toInt
  rw [stoll, to_string]
  generalize n.toInt = i at hle hlt hn
  cases i with
  | ofNat m =>
    obtain ⟨c, rest, hm, hc, hall⟩ := exists_toDigits m
    obtain ⟨hspace, hminus, hplus⟩ := not_space_of_isDigit hc
    have htext : ((Int.ofNat m).repr).toList.dropWhile isspace = Nat.toDigits 10 m := by
      rw [show (Int.ofNat m).repr = m.repr from rfl, Nat.toList_repr, hm, List.dropWhile_cons_of_neg (by simp [hspace])]
    have hhead : (Nat.toDigits 10 m).head? ≠ some '-' ∧ (Nat.toDigits 10 m).head? ≠ some '+' := by
      simp [hm, hminus, hplus]
    simp only [htext, hhead.1, hhead.2, or_self, if_false, hall, Nat.toDigits_ne_nil, Nat.ofDigitChars_ten_toDigits]
    rw [if_pos ⟨hle, hlt⟩]
    exact congrArg _ hn
  | negSucc m =>
    obtain ⟨c, rest, hm, hc, hall⟩ := exists_toDigits (m + 1)
    have htext : ((Int.negSucc m).repr).toList.dropWhile isspace = '-' :: Nat.toDigits 10 (m + 1) := by
      rw [show (Int.negSucc m).repr = "-" ++ (m + 1).repr from rfl, String.toList_append, Nat.toList_repr]
      rfl
    have hvalue : -((m + 1 : Nat) : Int) = Int.negSucc m := rfl
    simp only [htext, List.head?_cons, true_or, if_true, List.tail_cons, hall, Nat.toDigits_ne_nil, if_false,
      Nat.ofDigitChars_ten_toDigits, hvalue]
    rw [if_pos ⟨hle, hlt⟩]
    exact congrArg _ hn

theorem numberOf_to_string (n : Int64) : numberOf (to_string n) = .ok n := by
  rw [numberOf, stoll_to_string]

theorem to_string_ne (n : Int64) : to_string n ≠ "" := by
  rw [to_string]
  cases n.toInt with
  | ofNat m => exact Nat.repr_ne_empty
  | negSucc m =>
    intro h
    have := congrArg String.length h
    rw [show (Int.negSucc m).repr = "-" ++ (m + 1).repr from rfl, String.length_append] at this
    simp at this

end Numbers

variable {l : UriLocation} {uri : LocationURI}

/-- A location whose text is unpacked again. -/
def RoundTrips (l : UriLocation) : Prop :=
  ∃ uri l', l.fullUri = .ok uri ∧ ofUri uri = .ok l' ∧ l'.uri.toURI = l.uri.toURI ∧ l'.offset = l.offset ∧
    l'.length = l.length ∧ l'.remapKey.keys = l.remapKey.keys

/-- The numbers are always unpacked. -/
theorem ofUri_eq (hfragment : uri.fragment = to_string l.offset) (hlength : uri.queryValue "length" = to_string l.length) :
    ofUri uri = (fun remapKey => ⟨uri, l.offset, l.length, remapKey⟩) <$>
      if uri.queryValue "remapKey" ≠ "" then Key.parseStringUntyped (uri.queryValue "remapKey") else .ok {} := by
  rw [ofUri, hfragment, hlength, numberOf_to_string]
  simp only [ne_eq, to_string_ne, not_false_eq_true, if_true, numberOf_to_string]
  by_cases hkey : uri.queryValue "remapKey" = ""
  · simp only [hkey, not_true_eq_false, if_false]
    rfl
  · simp only [hkey, not_false_eq_true, if_true]
    cases Key.parseStringUntyped (uri.queryValue "remapKey") <;> rfl

/-- What the location has in its text, when its key is or is not written. -/
theorem fullUri_cases : l.remapKey.keys = ∅ ∧ (∃ uri, l.fullUri = .ok uri ∧ uri.toURI = l.uri.toURI ∧
      uri.fragment = to_string l.offset ∧ uri.queryValue "length" = to_string l.length ∧
      uri.queryValue "remapKey" = l.uri.queryValue "remapKey") ∨
    l.remapKey.keys ≠ ∅ ∧ ((∀ text, l.remapKey.asString ≠ .ok text) ∧ (∀ uri, l.fullUri ≠ .ok uri) ∨
      ∃ text uri, l.remapKey.asString = .ok text ∧ l.fullUri = .ok uri ∧ uri.toURI = l.uri.toURI ∧
        uri.fragment = to_string l.offset ∧ uri.queryValue "length" = to_string l.length ∧
        uri.queryValue "remapKey" = text) := by
  by_cases he : l.remapKey.keys = ∅
  · have hempty : l.remapKey.empty = true := by rw [Key.empty, Std.ExtTreeMap.isEmpty_iff, he]
    rw [fullUri]
    simp only [hempty, if_true]
    refine .inl ⟨he, _, rfl, rfl, rfl, by simp [LocationURI.queryValue], ?_⟩
    rw [LocationURI.queryValue, Std.ExtTreeMap.getElem?_insert, if_neg (by decide)]
    rfl
  · refine .inr ⟨he, ?_⟩
    have hempty : l.remapKey.empty = false := by
      rw [Key.empty, ← Bool.not_eq_true, Std.ExtTreeMap.isEmpty_iff]
      exact he
    rw [fullUri]
    simp only [hempty]
    cases htext : l.remapKey.asString with
    | error e => exact .inl ⟨fun text h => (by cases h), fun uri h => (by cases h)⟩
    | ok text =>
      refine .inr ⟨text, _, rfl, rfl, rfl, rfl, ?_, by simp [LocationURI.queryValue]⟩
      rw [LocationURI.queryValue, Std.ExtTreeMap.getElem?_insert, if_neg (by decide)]
      simp

theorem roundTrips_empty (he : l.remapKey.keys = ∅) :
    l.RoundTrips ↔ ∀ c ∈ (l.uri.queryValue "remapKey").toList, c = ',' := by
  rcases fullUri_cases with ⟨-, uri, hfull, huri, hfragment, hlength, hkey⟩ | ⟨hne, -⟩
  · rw [← Key.parseStringUntyped_empty, ← hkey]
    have hof := ofUri_eq hfragment hlength
    constructor
    · rintro ⟨uri', l', hfull', hl', -, -, -, hkeys⟩
      obtain rfl := Except.ok.inj (hfull.symm.trans hfull')
      rw [hof, except_map_ok] at hl'
      obtain ⟨k, hk, rfl⟩ := hl'
      split at hk
      next => exact ⟨k, hk, hkeys.trans he⟩
      next hnone =>
        rw [not_not.mp hnone]
        exact Key.parseStringUntyped_empty.mpr (by simp)
    · rintro ⟨k, hk, hkeys⟩
      by_cases hnone : uri.queryValue "remapKey" = ""
      · rw [if_neg (not_not.mpr hnone)] at hof
        exact ⟨uri, _, hfull, hof, huri, rfl, rfl, he.symm⟩
      · rw [if_pos hnone, hk] at hof
        exact ⟨uri, _, hfull, hof, huri, rfl, rfl, hkeys.trans he.symm⟩
  · exact absurd he hne

theorem roundTrips_key (hne : l.remapKey.keys ≠ ∅) :
    l.RoundTrips ↔ l.remapKey.Enumerated ∧ l.remapKey.AllClean := by
  rw [← Key.parse_asString hne]
  rcases fullUri_cases with ⟨he, -⟩ | ⟨-, ⟨hno, hfail⟩ | ⟨text, uri, htext, hfull, huri, hfragment, hlength, hkey⟩⟩
  · exact absurd he hne
  · constructor
    · rintro ⟨uri, l', hfull, -⟩
      exact absurd hfull (hfail uri)
    · rintro ⟨text, k', htext, -⟩
      exact absurd htext (hno text)
  · have hof := ofUri_eq hfragment hlength
    rw [hkey] at hof
    constructor
    · rintro ⟨uri', l', hfull', hl', -, -, -, hkeys⟩
      obtain rfl := Except.ok.inj (hfull.symm.trans hfull')
      rw [hof, except_map_ok] at hl'
      obtain ⟨k, hk, rfl⟩ := hl'
      split at hk
      next hsome => exact ⟨text, k, htext, hsome, hk, hkeys⟩
      next =>
        cases hk
        exact absurd hkeys.symm hne
    · rintro ⟨text', k', htext', hsome, hk', hkeys⟩
      obtain rfl := Except.ok.inj (htext.symm.trans htext')
      rw [if_pos hsome, hk'] at hof
      exact ⟨uri, _, hfull, hof, huri, rfl, rfl, hkeys⟩

/-- A location is unpacked from its text, its key where the names enumerate its keywords and all its text is clean. -/
theorem fullUri_roundTrips (l : UriLocation) : l.RoundTrips ↔
    l.remapKey.keys = ∅ ∧ (∀ c ∈ (l.uri.queryValue "remapKey").toList, c = ',') ∨
    l.remapKey.keys ≠ ∅ ∧ l.remapKey.Enumerated ∧ l.remapKey.AllClean := by
  by_cases he : l.remapKey.keys = ∅
  · simp only [he, roundTrips_empty, true_and, ne_eq, not_true_eq_false, false_and, or_false]
  · simp only [he, roundTrips_key he, false_and, ne_eq, not_false_eq_true, true_and, false_or]

/-- A location of a remapped field. -/
def remapped (keys : List (String × String)) : UriLocation where
  uri := { scheme := "file", path := ⟨"/fdb", ⟨"oper", none, "data"⟩⟩ }
  offset := 10
  length := 4
  remapKey := Key.ofList keys none

/-- An empty value is dropped, and separators in a value cut it or make the text unreadable. -/
theorem remapKey_not_unpacked : ¬ (remapped [("expver", "0001"), ("number", "")]).RoundTrips ∧
    ¬ (remapped [("expver", "a,b=c")]).RoundTrips ∧ ¬ (remapped [("expver", "a=b")]).RoundTrips ∧
    (((remapped [("expver", "0001"), ("number", "")]).fullUri >>= ofUri).map fun l => l.remapKey.keys.toList) =
      .ok [("expver", "0001")] ∧
    (((remapped [("expver", "a,b=c")]).fullUri >>= ofUri).map fun l => l.remapKey.keys.toList) =
      .ok [("b", "c"), ("expver", "a")] ∧
    (((remapped [("expver", "a=b")]).fullUri >>= ofUri).map fun l => l.remapKey.keys.toList) =
      .error (.assertion "kv.size() == 2") := by
  have hlost (keys : List (String × String)) (keyword value : String) (hfind : (Key.ofList keys none).find keyword = some value)
      (hv : ¬ (Key.Clean keyword ∧ Key.Clean value)) : ¬ (remapped keys).RoundTrips := by
    have hne : (remapped keys).remapKey.keys ≠ ∅ := by
      intro he
      rw [Key.find, show (Key.ofList keys none).keys = ∅ from he] at hfind
      simp at hfind
    rw [roundTrips_key hne]
    exact fun h => hv (h.2 keyword value hfind)
  refine ⟨?_, ?_, ?_, by decide +kernel, by decide +kernel, by decide +kernel⟩
  · exact hlost _ "number" "" (by decide +kernel) (by decide)
  · exact hlost _ "expver" "a,b=c" (by decide +kernel) (by decide)
  · exact hlost _ "expver" "a=b" (by decide +kernel) (by decide)

end UriLocation

end Fdb5
