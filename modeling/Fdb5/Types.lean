import Mathlib.Algebra.Group.Nat.Defs
import Fdb5.Inspect.Restored

/-! The types of the registry that read dates and times, and the canonical values they print. -/
namespace Fdb5

open Effect

/-- `eckit::Date`, by its components. -/
structure Date where
  year : Nat
  month : Nat
  day : Nat
  year_lt : year < 10000
  month_pos : 0 < month
  month_le : month ≤ 12
  day_pos : 0 < day
  day_le : day ≤ 31

/-- `eckit::Time`, by the components that are printed. -/
structure Time where
  hours : Nat
  minutes : Nat
  hours_lt : hours < 24
  minutes_lt : minutes < 60

/-- The constructors of `eckit::Date` and `eckit::Time` and the translator that the types use. -/
structure Eckit where
  date : String → Except Failure Date
  dateOfLong : Int → Except Failure Date
  time : String → Except Failure Time
  toLong : String → Except Failure Int

/-- `setfill('0') << setw(width)`. -/
def setw (width : Nat) (s : String) : String := String.ofList (List.replicate (width - s.length) '0' ++ s.toList)

namespace Date

def yyyymmdd (d : Date) : Nat := d.year * 10000 + d.month * 100 + d.day

/-- The texts of relative days, today's and those before. -/
def Relative (s : String) : Prop := s.toList.head? = some '-' ∨ ∀ c ∈ s.toList, c = '0'

/-- The texts that a date is read from: `yyyymmdd`, `yyyy-mm-dd` and relative days. -/
def Documented (s : String) : Prop :=
  s.length = 8 ∧ (∀ c ∈ s.toList, c.isDigit) ∨
    s.length = 10 ∧ s.toList[4]? = some '-' ∧ s.toList[7]? = some '-' ∨ Relative s

instance (s : String) : Decidable (Relative s) :=
  decidable_of_iff (s.toList.head? = some '-' ∨ s.toList.all (· = '0')) (by simp [Relative])

instance (s : String) : Decidable (Documented s) :=
  decidable_of_iff (s.length = 8 ∧ s.toList.all (·.isDigit) ∨
    s.length = 10 ∧ s.toList[4]? = some '-' ∧ s.toList[7]? = some '-' ∨ Relative s) (by simp [Documented])

end Date

/-- A time as `hhmm`. -/
def Time.hhmm (t : Time) : String := setw 2 t.hours.repr ++ setw 2 t.minutes.repr

/-- Dates are read from the documented texts only, and times from `hhmm` among others. -/
structure Eckit.Documented (e : Eckit) : Prop where
  date : ∀ s d, e.date s = .ok d → Date.Documented s
  time : ∀ t, e.time t.hhmm = .ok t

def months : List String := ["jan", "feb", "mar", "apr", "may", "jun", "jul", "aug", "sep", "oct", "nov", "dec"]

/-- `isdigit(value[0])`. -/
def startsWithDigit (value : String) : Bool := value.toList.head?.any Char.isDigit

namespace TypeClimateDaily

/-- What is returned as an `int`. -/
def month (e : Eckit) (value : String) : Except Failure Int :=
  if startsWithDigit value then do
    let date ← e.date value
    return ((date.month * 100 + date.day : Nat) : Int)
  else
    match tokens '-' value with
    | [name, day] =>
      match months.idxOf? name with
      | some i => do
        let n ← e.toLong day
        return Int.bmod ((i + 1) * 100 + n) (2 ^ 32)
      | none => .error (.seriousBug ("TypeClimateDaily: invalid date: " ++ value))
    | _ => .error (.assertion "v.size() == 2")

def toKey (e : Eckit) (value : String) : Except Failure String := do
  return setw 4 (← month e value).repr

end TypeClimateDaily

namespace TypeClimateMonthly

def month (e : Eckit) (value : String) : Except Failure Nat :=
  if startsWithDigit value then do
    let date ← e.date value
    return date.month
  else
    match months.idxOf? value with
    | some i => .ok (i + 1)
    | none => .error (.seriousBug ("TypeClimateMonthly: invalid date: " ++ value))

def toKey (e : Eckit) (value : String) : Except Failure String := do
  return (← month e value).repr

end TypeClimateMonthly

def TypeMonth.toKey (e : Eckit) (value : String) : Except Failure String := do
  let date ← e.date value
  return (date.year * 100 + date.month).repr

/-- `TypeDate::tidy`; the key is the value. -/
def TypeDate.tidy (e : Eckit) (value : String) : Except Failure String := do
  if value.toList.head? = some '0' ∨ value.toList.head? = some '-' then
    let n ← e.toLong value
    if n ≤ 0 then
      let now ← e.dateOfLong n
      return now.yyyymmdd.repr
  return value

namespace TypeTime

def tidy (e : Eckit) (value : String) : Except Failure String := do
  let n ← e.toLong value
  let n := if n < 100 then n * 100 else n
  return setw 4 n.repr

def toKey (e : Eckit) (value : String) : Except Failure String := do
  let t := if value.utf8ByteSize < 2 then "0" ++ value else value
  let time ← e.time t
  return setw 2 time.hours.repr ++ setw 2 time.minutes.repr

end TypeTime

/-- The types of dates and times that a registry builds. -/
inductive CalendarType where
  | climateDaily
  | climateMonthly
  | date
  | month
  | time
deriving DecidableEq, Repr

namespace CalendarType

def toKey (e : Eckit) : CalendarType → String → Except Failure String
  | climateDaily => TypeClimateDaily.toKey e
  | climateMonthly => TypeClimateMonthly.toKey e
  | date => .ok
  | month => TypeMonth.toKey e
  | time => TypeTime.toKey e

def fieldType (e : Eckit) : CalendarType → FieldType
  | climateDaily => ⟨"ClimateDaily", fun _ => .ok, fun _ => TypeClimateDaily.toKey e⟩
  | climateMonthly => ⟨"ClimateMonthly", fun _ => .ok, fun _ => TypeClimateMonthly.toKey e⟩
  | date => ⟨"Date", fun _ => TypeDate.tidy e, fun _ => .ok⟩
  | month => ⟨"Month", fun _ => .ok, fun _ => TypeMonth.toKey e⟩
  | time => ⟨"Time", fun _ => TypeTime.tidy e, fun _ => TypeTime.toKey e⟩

@[simp] theorem fieldType_toKey (e : Eckit) (t : CalendarType) (keyword : String) :
    (t.fieldType e).toKey keyword = t.toKey e := by
  cases t <;> rfl

end CalendarType

section Digits

variable {s : String} {n w : Nat}

theorem toList_setw : (setw w s).toList = List.replicate (w - s.length) '0' ++ s.toList := String.toList_ofList ..

theorem length_setw : (setw w s).length = max w s.length := by
  rw [← String.length_toList, toList_setw, List.length_append, List.length_replicate, String.length_toList]
  omega

theorem isDigit_setw : ∀ c ∈ (setw w n.repr).toList, c.isDigit := by
  intro c hc
  rw [toList_setw, Nat.toList_repr] at hc
  rcases List.mem_append.mp hc with hc | hc
  · rw [List.eq_of_mem_replicate hc]
    rfl
  · exact Nat.isDigit_of_mem_toDigits (by omega) (by omega) hc

theorem ofDigitChars_setw : Nat.ofDigitChars 10 (setw w n.repr).toList 0 = n := by
  rw [toList_setw, Nat.toList_repr, Nat.ofDigitChars_append, Nat.ofDigitChars_replicate_zero, Nat.mul_zero,
    Nat.ofDigitChars_ten_toDigits]

theorem setw_zero : setw 0 s = s := by
  rw [setw, Nat.zero_sub, List.replicate_zero, List.nil_append, String.ofList_toList]

/-- A positive number of at most six digits is no text of a date. -/
theorem not_documented (hpos : 0 < n) (hlt : n < 10 ^ 6) (hw : w ≤ 6) : ¬ Date.Documented (setw w n.repr) := by
  have hlength : (setw w n.repr).length ≤ 6 := by
    have hrepr := (Nat.length_repr_le_iff (by omega : 0 < 6)).mpr hlt
    rw [length_setw]
    omega
  rintro (⟨h, -⟩ | ⟨h, -⟩ | hminus | hzeros)
  · omega
  · omega
  · have hdigit := isDigit_setw _ (List.mem_of_head? hminus)
    cases hdigit
  · have hvalue := ofDigitChars_setw (w := w) (n := n)
    rw [List.eq_replicate_of_mem hzeros, Nat.ofDigitChars_replicate_zero] at hvalue
    omega

theorem setw_ne (hs : s ≠ "") : setw w s ≠ "" := by
  intro h
  have hlist := congrArg String.toList h
  rw [toList_setw] at hlist
  exact hs (String.toList_eq_nil_iff.mp (List.append_eq_nil_iff.mp hlist).2)

theorem setw_repr_ne : setw w n.repr ≠ "" := setw_ne Nat.repr_ne_empty

theorem startsWithDigit_setw : startsWithDigit (setw w n.repr) = true := by
  rw [startsWithDigit]
  cases h : (setw w n.repr).toList.head? with
  | none =>
    exact absurd (String.toList_eq_nil_iff.mp (List.head?_eq_none_iff.mp h)) setw_repr_ne
  | some c => exact isDigit_setw c (List.mem_of_head? h)

end Digits

section Fixpoints

variable {e : Eckit} {value key : String} {t : CalendarType}

theorem month_letters {name : String} (h : name ∈ months) : ∃ c ∈ name.toList, c.isDigit = false ∧ c ≠ '-' := by
  have hletters : ∀ name ∈ months, name.toList.any fun c => !c.isDigit && c ≠ '-' := by decide
  simpa using hletters name h

theorem mem_months {i : Nat} {name : String} (h : months.idxOf? name = some i) : name ∈ months ∧ i < 12 := by
  obtain ⟨hi, heq, -⟩ := List.findIdx?_eq_some_iff_getElem.mp h
  exact ⟨beq_iff_eq.mp heq ▸ List.getElem_mem hi, hi⟩

theorem repr_chars (n : Int) : ∀ c ∈ (setw 4 n.repr).toList, c.isDigit ∨ c = '-' := by
  cases n with
  | ofNat m => exact fun c hc => .inl (isDigit_setw c hc)
  | negSucc m =>
    intro c hc
    rw [toList_setw, show (Int.negSucc m).repr = "-" ++ (m + 1).repr from rfl, String.toList_append] at hc
    rcases List.mem_append.mp hc with hc | hc
    · exact .inl (by rw [List.eq_of_mem_replicate hc]; rfl)
    · rcases List.mem_append.mp hc with hc | hc
      · exact .inr (List.mem_singleton.mp hc)
      · rw [Nat.toList_repr] at hc
        exact .inl (Nat.isDigit_of_mem_toDigits (by omega) (by omega) hc)

/-- A day of a year has no text of a date, and its month no name that is left. -/
theorem climateDaily_ne (he : e.Documented) : TypeClimateDaily.toKey e key ≠ .ok key := by
  intro h
  obtain ⟨n, hn, hkey⟩ := except_bind_ok.mp h
  have hkey : setw 4 n.repr = key := Except.ok.inj hkey
  rw [TypeClimateDaily.month] at hn
  split at hn
  · obtain ⟨d, hd, hn⟩ := except_bind_ok.mp hn
    obtain rfl := Except.ok.inj hn
    have hbounds := And.intro d.month_pos (And.intro d.month_le d.day_le)
    apply not_documented (n := d.month * 100 + d.day) (w := 4) (by omega) (by omega) (by omega)
    have hkey : setw 4 (d.month * 100 + d.day).repr = key := hkey
    rw [hkey]
    exact he.date key d hd
  · split at hn
    next name day htokens =>
      split at hn
      next i hi =>
        obtain ⟨c, hc, hdigit, hminus⟩ := month_letters (mem_months hi).1
        have hmem : name ∈ tokens '-' key := by simp [htokens]
        have hchar := repr_chars n c (hkey ▸ (mem_tokens hmem).2.2 hc)
        simp [hdigit, hminus] at hchar
      next => cases hn
    next => cases hn

theorem climateMonthly_ne (he : e.Documented) : TypeClimateMonthly.toKey e key ≠ .ok key := by
  intro h
  obtain ⟨n, hn, hkey⟩ := except_bind_ok.mp h
  have hkey : n.repr = key := Except.ok.inj hkey
  rw [TypeClimateMonthly.month] at hn
  split at hn
  · obtain ⟨d, hd, hn⟩ := except_bind_ok.mp hn
    obtain rfl := Except.ok.inj hn
    have hle := d.month_le
    apply not_documented (w := 0) d.month_pos (by omega) (by omega)
    rw [setw_zero, hkey]
    exact he.date key d hd
  next hstart =>
    apply hstart
    rw [← hkey, ← setw_zero (s := n.repr)]
    exact startsWithDigit_setw

theorem month_ne (he : e.Documented) : TypeMonth.toKey e key ≠ .ok key := by
  intro h
  obtain ⟨d, hd, hkey⟩ := except_bind_ok.mp h
  have hkey : (d.year * 100 + d.month).repr = key := Except.ok.inj hkey
  have hbounds := And.intro d.month_pos (And.intro d.month_le d.year_lt)
  apply not_documented (n := d.year * 100 + d.month) (w := 0) (by omega) (by omega) (by omega)
  rw [setw_zero, hkey]
  exact he.date key d hd

/-- A time is printed as it is read again. -/
theorem time_again (he : e.Documented) (h : TypeTime.toKey e value = .ok key) : TypeTime.toKey e key = .ok key := by
  obtain ⟨t, -, hkey⟩ := except_bind_ok.mp h
  have hkey : t.hhmm = key := Except.ok.inj hkey
  have hsize : ¬ key.utf8ByteSize < 2 := by
    have hhours : (setw 2 t.hours.repr).utf8ByteSize ≠ 0 := mt String.utf8ByteSize_eq_zero_iff.mp setw_repr_ne
    have hminutes : (setw 2 t.minutes.repr).utf8ByteSize ≠ 0 := mt String.utf8ByteSize_eq_zero_iff.mp setw_repr_ne
    rw [← hkey, Time.hhmm, String.utf8ByteSize_append]
    omega
  rw [TypeTime.toKey, if_neg hsize, ← hkey]
  exact except_bind_ok.mpr ⟨t, he.time t, rfl⟩

/-- A value that was printed is printed again as it is by dates and times, and by no other of these types. -/
theorem toKey_again (he : e.Documented) (h : t.toKey e value = .ok key) :
    t.toKey e key = .ok key ↔ t = .date ∨ t = .time := by
  cases t with
  | climateDaily => exact iff_of_false (climateDaily_ne he) (by simp)
  | climateMonthly => exact iff_of_false (climateMonthly_ne he) (by simp)
  | date => exact iff_of_true rfl (.inl rfl)
  | month => exact iff_of_false (month_ne he) (by simp)
  | time => exact iff_of_true (time_again he h) (.inr rfl)

end Fixpoints

/-- The type of a keyword: one of dates and times, or that of keywords without a type. -/
def calendarType (e : Eckit) : Option CalendarType → FieldType
  | some t => t.fieldType e
  | none => typeDefault

/-- The registry of the key gives the keyword the type. -/
structure Key.TypedBy (e : Eckit) (k : Key) (keyword : String) (t : Option CalendarType) : Prop where
  canonical : k.canonical = false
  registry : ∃ r, k.registry = some r ∧ r.lookupType keyword = .ok (calendarType e t)

/-- The keyword of a key that is made again has the value that was stored of another, with the registry of its rule. -/
structure Key.Rebuilt (k k' : Key) (keyword : String) : Prop where
  registry : k'.registry = k.registry
  canonical : k'.canonical = false
  value : ∃ value, k.canonicalValue keyword = .ok value ∧ k'.find keyword = some value

section Rebuilt

variable {e : Eckit} {k k' : Key} {keyword : String} {t : Option CalendarType}

theorem Key.canonicalValue_eq {r : TypesRegistry} {value : String} (hcanonical : k.canonical = false)
    (hregistry : k.registry = some r) (htype : r.lookupType keyword = .ok (calendarType e t))
    (hfind : k.find keyword = some value) :
    k.canonicalValue keyword = if value = "" then .ok value else (calendarType e t).toKey keyword value := by
  simp only [canonicalValue, hfind, canonicalise, hcanonical, Bool.false_eq_true, or_false, registryOf, hregistry]
  split
  · rfl
  · simp only [bind, Except.bind, htype]

/-- Only a date is printed as nothing, when nothing was given. -/
theorem CalendarType.toKey_ne {t : CalendarType} {value : String} (hvalue : value ≠ "") : t.toKey e value ≠ .ok "" := by
  intro h
  cases t with
  | climateDaily =>
    obtain ⟨n, -, hkey⟩ := except_bind_ok.mp h
    have hne : n.repr ≠ "" := by
      cases n with
      | ofNat m => exact Nat.repr_ne_empty
      | negSucc m => exact fun hrepr => absurd (congrArg String.length hrepr) (by simp [Int.repr, String.length_append])
    exact setw_ne hne (Except.ok.inj hkey)
  | climateMonthly =>
    obtain ⟨n, -, hkey⟩ := except_bind_ok.mp h
    exact Nat.repr_ne_empty (Except.ok.inj hkey)
  | date => exact hvalue (Except.ok.inj h)
  | month =>
    obtain ⟨d, -, hkey⟩ := except_bind_ok.mp h
    exact Nat.repr_ne_empty (Except.ok.inj hkey)
  | time =>
    obtain ⟨t, -, hkey⟩ := except_bind_ok.mp h
    have hhours : setw 2 t.hours.repr ≠ "" := setw_repr_ne
    exact hhours (String.append_eq_empty_iff.mp (Except.ok.inj hkey)).1

/-- A rebuilt keyword keeps its canonical value if that is empty, or if its type prints it again. -/
theorem canonicalValue_again (he : e.Documented) (htyped : k.TypedBy e keyword t) (hrebuilt : k.Rebuilt k' keyword) :
    k'.canonicalValue keyword = k.canonicalValue keyword ↔
      k.find keyword = some "" ∨ t = none ∨ t = some .date ∨ t = some .time := by
  obtain ⟨r, hregistry, htype⟩ := htyped.registry
  obtain ⟨stored, hstored, hfind'⟩ := hrebuilt.value
  have hagain := Key.canonicalValue_eq hrebuilt.canonical (hrebuilt.registry.trans hregistry) htype hfind'
  cases hfind : k.find keyword with
  | none =>
    rw [Key.canonicalValue, hfind] at hstored
    cases hstored
  | some value =>
    rw [Key.canonicalValue_eq htyped.canonical hregistry htype hfind] at hstored
    rw [hagain, Key.canonicalValue_eq htyped.canonical hregistry htype hfind]
    by_cases hvalue : value = ""
    · subst hvalue
      obtain rfl := Except.ok.inj hstored
      simp
    · rw [if_neg hvalue] at hstored ⊢
      rw [hstored]
      cases t with
      | none =>
        obtain rfl : value = stored := Except.ok.inj hstored
        simp [calendarType, typeDefault]
      | some t =>
        rw [calendarType, CalendarType.fieldType_toKey] at hstored
        have hne : stored ≠ "" := fun h => CalendarType.toKey_ne hvalue (h ▸ hstored)
        rw [if_neg hne, calendarType, CalendarType.fieldType_toKey, toKey_again he hstored]
        simp [hvalue]

/-- What a rule makes of the fingerprint of a key is the key, made again of its stored values. -/
theorem rebuilt_ofFingerprint {r : Rule} {values : List String} {s value : String} (h : r.Canonical k values)
    (hs : k.valuesToString = .ok s) (hk' : Key.ofFingerprint s (some r) = .ok k') (hfind : k'.find keyword = some value) :
    k.Rebuilt k' keyword := by
  have hne : r.predicates ≠ [] := by
    intro hnil
    rw [Rule.ofFingerprint_no_predicates hnil (by simp [h.1.names.1, hnil]) hs] at hk'
    cases hk'
  obtain ⟨s', k'', hs', hk'', hvalues⟩ := h.restores hne (h.1.nodup hs)
  obtain rfl := Except.ok.inj (hs'.symm.trans hs)
  obtain rfl := Except.ok.inj (hk''.symm.trans hk')
  obtain ⟨p, -, -, hvalue, -⟩ := (hvalues keyword value).mp hfind
  obtain ⟨r', pairs, hr, -, rfl⟩ := Key.ofFingerprint_ok hk''
  obtain rfl := Option.some.inj hr
  obtain ⟨k₁, -, rfl⟩ := h.1
  exact ⟨Rule.kept_fillAll.1, Rule.kept_fillAll.2, value, hvalue, hfind⟩

/-- A canonical value of a date or a time is its own canonical value exactly if it is a `Date` or a `Time`, and a keyword
of a key that is made again of stored values has its stored value exactly if it is one of these, untyped or empty. -/
theorem canonical_again (he : e.Documented) :
    (∀ (t : CalendarType) (value key : String), t.toKey e value = .ok key →
      (t.toKey e key = .ok key ↔ t = .date ∨ t = .time)) ∧
    (∀ (k k' : Key) (keyword : String) (t : Option CalendarType), k.TypedBy e keyword t → k.Rebuilt k' keyword →
      (k'.canonicalValue keyword = k.canonicalValue keyword ↔
        k.find keyword = some "" ∨ t = none ∨ t = some .date ∨ t = some .time)) ∧
    ∀ (k k' : Key) (types : String → Option CalendarType),
      (∀ keyword ∈ k.names, k.TypedBy e keyword (types keyword) ∧ k.Rebuilt k' keyword) →
      ((∀ keyword ∈ k.names, k'.canonicalValue keyword = k.canonicalValue keyword) ↔
        ∀ keyword ∈ k.names, k.find keyword = some "" ∨
          types keyword = none ∨ types keyword = some .date ∨ types keyword = some .time) :=
  ⟨fun _ _ _ => toKey_again he, fun _ _ _ _ htyped hrebuilt => canonicalValue_again he htyped hrebuilt,
    fun _ _ _ h => forall₂_congr fun _ hkeyword => canonicalValue_again he (h _ hkeyword).1 (h _ hkeyword).2⟩

end Rebuilt

section Sample

def dateOf (n : Nat) : Except Failure Date :=
  if h : n / 10000 < 10000 ∧ 0 < n / 100 % 100 ∧ n / 100 % 100 ≤ 12 ∧ 0 < n % 100 ∧ n % 100 ≤ 31 then
    .ok ⟨_, _, _, h.1, h.2.1, h.2.2.1, h.2.2.2.1, h.2.2.2.2⟩
  else .error (.exception "BadDate")

def timeOf (n : Nat) : Except Failure Time :=
  if h : n / 100 < 24 ∧ n % 100 < 60 then .ok ⟨_, _, h.1, h.2⟩ else .error (.exception "BadTime")

/-- Dates and times of digits, on a day in April 2021 that relative days do not leave. -/
def sampleEckit : Eckit where
  date s :=
    if Date.Relative s then dateOf 20210427
    else if Date.Documented s then dateOf (Nat.ofDigitChars 10 (s.toList.filter Char.isDigit) 0)
    else .error (.exception "BadDate")
  dateOfLong _ := dateOf 20210427
  time s :=
    if s.length = 4 ∧ s.toList.all (·.isDigit) then timeOf (Nat.ofDigitChars 10 s.toList 0)
    else .error (.exception "BadTime")
  toLong s := .ok (Nat.ofDigitChars 10 s.toList 0)

theorem documented_sampleEckit : sampleEckit.Documented where
  date s d h := by
    simp only [sampleEckit] at h
    split at h
    next hrelative => exact .inr (.inr hrelative)
    next =>
      split at h
      next hdocumented => exact hdocumented
      next => cases h
  time t := by
    have hhours := t.hours_lt
    have hminutes := t.minutes_lt
    have hlength (n : Nat) (hn : n < 100) : (setw 2 n.repr).length = 2 := by
      have hrepr := (Nat.length_repr_le_iff (n := n) (by omega : 0 < 2)).mpr (by omega)
      rw [length_setw]
      omega
    have hnumber : Nat.ofDigitChars 10 t.hhmm.toList 0 = t.hours * 100 + t.minutes := by
      rw [Time.hhmm, String.toList_append, Nat.ofDigitChars_append, Nat.ofDigitChars_eq_ofDigitChars_zero,
        ofDigitChars_setw, ofDigitChars_setw, String.length_toList, hlength _ (by omega)]
      omega
    have hform : t.hhmm.length = 4 ∧ t.hhmm.toList.all (·.isDigit) := by
      constructor
      · rw [Time.hhmm, String.length_append, hlength _ (by omega), hlength _ (by omega)]
      · rw [List.all_eq_true]
        intro c hc
        rw [Time.hhmm, String.toList_append] at hc
        exact (List.mem_append.mp hc).elim (isDigit_setw c) (isDigit_setw c)
    have hh : (t.hours * 100 + t.minutes) / 100 = t.hours := by omega
    have hm : (t.hours * 100 + t.minutes) % 100 = t.minutes := by omega
    simp only [sampleEckit, if_pos hform, hnumber, timeOf, hh, hm]
    rw [dif_pos ⟨hhours, hminutes⟩]

/-- The day of the tests: a climatology has the month as key, and the month is no date. -/
theorem climate_not_again : sampleEckit.Documented ∧
    CalendarType.toKey sampleEckit .climateMonthly "20210427" = .ok "4" ∧
    CalendarType.toKey sampleEckit .climateMonthly "4" = .error (.exception "BadDate") ∧
    CalendarType.toKey sampleEckit .climateDaily "20210427" = .ok "0427" ∧
    CalendarType.toKey sampleEckit .climateDaily "0427" = .error (.exception "BadDate") ∧
    CalendarType.toKey sampleEckit .month "20210427" = .ok "202104" ∧
    CalendarType.toKey sampleEckit .month "202104" = .error (.exception "BadDate") :=
  ⟨documented_sampleEckit, by decide +kernel, by decide +kernel, by decide +kernel, by decide +kernel, by decide +kernel,
    by decide +kernel⟩

/-- A rule with a `Time` and a `ClimateMonthly`. -/
def typedRule : Rule :=
  .mk 3 [⟨"time", .always⟩, ⟨"month", .always⟩] [] ⟨fun keyword => .ok <| calendarType sampleEckit <|
    if keyword = "time" then some .time else if keyword = "month" then some .climateMonthly else none⟩

def typedKey : Key := (({ registry := some typedRule.registry } : Key).push "time" "0600").push "month" "apr"

theorem canonical_typedKey : typedRule.Canonical typedKey ["0600", "4"] := by
  refine ⟨⟨_, ⟨"0600", rfl, "apr", rfl, rfl⟩, rfl⟩, by decide +kernel, ?_⟩
  refine .cons ?_ (.cons ?_ .nil) <;> decide

/-- The stored values `0600:4` are read back, the time as it was, and the month as no canonical value. -/
theorem canonical_again_time : CalendarType.toKey sampleEckit .time "0600" = .ok "0600" ∧
    ¬ CalendarType.toKey sampleEckit .climateMonthly "4" = .ok "4" ∧
    ∃ k', Key.ofFingerprint "0600:4" (some typedRule) = .ok k' ∧
      k'.canonicalValue "time" = typedKey.canonicalValue "time" ∧
      ¬ k'.canonicalValue "month" = typedKey.canonicalValue "month" := by
  have hagain := canonical_again documented_sampleEckit
  have hs : typedKey.valuesToString = .ok "0600:4" := by decide +kernel
  refine ⟨(hagain.1 .time "0600" "0600" (by decide +kernel)).mpr (.inr rfl), fun h => ?_, _, rfl, ?_, fun h => ?_⟩
  · have hmonth : CalendarType.toKey sampleEckit .climateMonthly "apr" = .ok "4" := by decide +kernel
    simpa using (hagain.1 .climateMonthly "apr" "4" hmonth).mp h
  · refine (hagain.2.1 _ _ "time" (some .time) ⟨rfl, _, rfl, rfl⟩ ?_).mpr (.inr (.inr (.inr rfl)))
    exact rebuilt_ofFingerprint canonical_typedKey hs rfl rfl
  · have hmonth := (hagain.2.1 _ _ "month" (some .climateMonthly) ⟨rfl, _, rfl, rfl⟩
      (rebuilt_ofFingerprint canonical_typedKey hs rfl rfl)).mp h
    simp [typedKey, Key.find_push] at hmonth

end Sample

end Fdb5
