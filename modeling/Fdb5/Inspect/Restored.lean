import Fdb5.Inspect.Branch
import Fdb5.Remote.KeyCalls

/-! The key that a rule makes of the fingerprint of one it has built. -/
namespace Fdb5

open Effect

theorem tokenize_join (a b : String) : tokenize (a ++ ":" ++ b) = tokenize a ++ tokenize b := by
  have hsplit : (a ++ ":" ++ b).toList = a.toList ++ ':' :: b.toList := by simp
  rw [tokenize, hsplit, List.splitOn_append_cons_self, List.map_append]
  rfl

/-- The tokens of a fingerprint are those of its values. -/
theorem tokenize_values {values : List String} (hv : values ≠ []) :
    tokenize (":".intercalate values) = values.flatMap tokenize := by
  induction values with
  | nil => exact absurd rfl hv
  | cons v values ih =>
    cases values with
    | nil => simp [String.intercalate_singleton]
    | cons w values =>
      rw [String.intercalate_cons_cons, tokenize_join, ih (List.cons_ne_nil _ _)]
      rfl

/-- A value without a colon is one token; one with a colon is two, between which it stood. -/
theorem tokenize_of_count {v : String} (h : v.toList.count ':' ≤ 1) :
    ':' ∉ v.toList ∧ tokenize v = [v] ∨ ∃ a b, v = a ++ ":" ++ b ∧ tokenize v = [a, b] := by
  by_cases hc : ':' ∈ v.toList
  · obtain ⟨l, r, hlr⟩ := List.append_of_mem hc
    rw [hlr, List.count_append, List.count_cons_self] at h
    have hl : ':' ∉ l := List.count_eq_zero.mp (by omega)
    have hr : ':' ∉ r := List.count_eq_zero.mp (by omega)
    have hv : v = String.ofList l ++ ":" ++ String.ofList r := String.toList_injective (by simp [hlr])
    refine .inr ⟨String.ofList l, String.ofList r, hv, ?_⟩
    rw [hv, tokenize_join]
    simp [tokenize, List.splitOn_eq_singleton hl, List.splitOn_eq_singleton hr]
  · exact .inl ⟨hc, by simp [tokenize, List.splitOn_eq_singleton hc]⟩

/-- A canonical value that a fingerprint keeps apart from the others: a quantile may hold one colon. -/
def Separable (keyword value : String) : Prop :=
  value.toList.count ':' ≤ if keyword = "quantile" then 1 else 0

instance (keyword value : String) : Decidable (Separable keyword value) :=
  inferInstanceAs (Decidable (_ ≤ _))

theorem Separable.quantile {keyword value : String} (h : Separable keyword value) (hc : ':' ∈ value.toList) :
    keyword = "quantile" := by
  by_contra hne
  have hzero : value.toList.count ':' ≤ 0 := by simpa [Separable, hne] using h
  exact List.count_eq_zero.mp (Nat.le_zero.mp hzero) hc

theorem Separable.tokens {keyword value : String} (h : Separable keyword value) :
    ':' ∉ value.toList ∧ tokenize value = [value] ∨ ∃ a b, value = a ++ ":" ++ b ∧ tokenize value = [a, b] :=
  tokenize_of_count (Nat.le_trans h (by split <;> omega))

namespace Rule

variable {ps : List Predicate} {values : List String}

/-- Each predicate is paired with its value, where the colon of a quantile tells that there is one more. -/
theorem pairing_tokens {extra : Bool} (h : List.Forall₂ (fun p v => Separable p.keyword v) ps values)
    (hextra : ∀ pv ∈ ps.zip values, pv.1.keyword = "quantile" → (extra = true ↔ ':' ∈ pv.2.toList)) :
    pairing extra ps (values.flatMap tokenize) = .ok (ps.zip values) := by
  induction h with
  | nil => rfl
  | @cons p v ps values hpv _ ih =>
    have hrest := ih fun pv hmem => hextra pv (List.mem_cons_of_mem _ hmem)
    rcases hpv.tokens with ⟨hno, htok⟩ | ⟨a, b, hv, htok⟩
    · have hnot : ¬ (extra = true ∧ p.keyword = "quantile") := by
        rintro ⟨he, hq⟩
        exact hno ((hextra (p, v) List.mem_cons_self hq).mp he)
      rw [List.flatMap_cons, htok, List.singleton_append]
      simp [pairing, hnot, hrest]
    · have hc : ':' ∈ v.toList := by simp [hv]
      have hq := hpv.quantile hc
      have he := (hextra (p, v) List.mem_cons_self hq).mpr hc
      rw [List.flatMap_cons, htok, hv]
      simp [pairing, he, hq] at hrest ⊢
      simp [hrest]

/-- With one quantile at most there is a token more than there are predicates exactly if it has a colon. -/
theorem length_tokens (h : List.Forall₂ (fun p v => Separable p.keyword v) ps values)
    (hnodup : (ps.map (·.keyword)).Nodup) :
    (values.flatMap tokenize).length = ps.length ∧ (∀ v ∈ values, ':' ∉ v.toList) ∨
    (values.flatMap tokenize).length = ps.length + 1 ∧ "quantile" ∈ ps.map (·.keyword) ∧
      ∀ pv ∈ ps.zip values, pv.1.keyword = "quantile" → ':' ∈ pv.2.toList := by
  induction h with
  | nil => exact .inl ⟨rfl, by simp⟩
  | @cons p v ps values hpv hrest ih =>
    rw [List.map_cons, List.nodup_cons] at hnodup
    rw [List.flatMap_cons, List.zip_cons_cons, List.map_cons]
    rcases hpv.tokens with ⟨hno, htok⟩ | ⟨a, b, hv, htok⟩
    · rcases ih hnodup.2 with ⟨hl, hall⟩ | ⟨hl, hmem, hall⟩
      · exact .inl ⟨by simp [htok, hl], List.forall_mem_cons.mpr ⟨hno, hall⟩⟩
      · refine .inr ⟨by simp [htok, hl, Nat.add_comm], List.mem_cons_of_mem _ hmem, ?_⟩
        rw [List.forall_mem_cons]
        exact ⟨fun hq => absurd (hq ▸ hmem) hnodup.1, hall⟩
    · have hc : ':' ∈ v.toList := by simp [hv]
      have hq := hpv.quantile hc
      rcases ih hnodup.2 with ⟨hl, -⟩ | ⟨-, hmem, -⟩
      · refine .inr ⟨by simp [htok, hl, Nat.add_comm], by simp [hq], ?_⟩
        rw [List.forall_mem_cons]
        refine ⟨fun _ => hc, fun pv hpv' hq' => ?_⟩
        have hin : pv.1.keyword ∈ ps.map (·.keyword) := List.mem_map_of_mem (List.of_mem_zip hpv').1
        exact absurd (hq.trans hq'.symm ▸ hin) hnodup.1
      · exact absurd (hq ▸ hmem) hnodup.1

/-- The rule gives each predicate the value that the fingerprint was taken of. -/
theorem pairing_fingerprint (h : List.Forall₂ (fun p v => Separable p.keyword v) ps values) (hne : ps ≠ [])
    (hnodup : (ps.map (·.keyword)).Nodup) :
    pairing ((tokenize (":".intercalate values)).length == ps.length + 1) ps (tokenize (":".intercalate values)) =
      .ok (ps.zip values) ∧
    ps.length ≤ (tokenize (":".intercalate values)).length ∧
    (tokenize (":".intercalate values)).length ≤ ps.length + 1 := by
  have hvalues : values ≠ [] := by
    rintro rfl
    cases h
    exact hne rfl
  rw [tokenize_values hvalues]
  rcases length_tokens h hnodup with ⟨hl, hall⟩ | ⟨hl, -, hall⟩
  · refine ⟨pairing_tokens h fun pv hpv _ => ?_, by omega, by omega⟩
    have hno := hall pv.2 (List.of_mem_zip hpv).2
    simp [hl, hno]
  · refine ⟨pairing_tokens h fun pv hpv hq => ?_, by omega, by omega⟩
    simp [hl, hall pv hpv hq]

/-- Filling changes neither the registry of a key nor how it is canonicalised. -/
theorem kept_fillAll {pairs : List (Predicate × String)} {k : Key} : (fillAll pairs k).registry = k.registry ∧ (fillAll pairs k).canonical = k.canonical := by
  induction pairs generalizing k with
  | nil => exact ⟨rfl, rfl⟩
  | cons pv pairs ih =>
    obtain ⟨hregistry, hcanonical⟩ := ih (k := pv.1.fill k pv.2)
    have hcons : fillAll (pv :: pairs) k = fillAll pairs (pv.1.fill k pv.2) := rfl
    rw [hcons, hregistry, hcanonical, Predicate.fill, Matcher.fill.eq_def]
    split
    · split <;> exact ⟨rfl, rfl⟩
    · exact ⟨rfl, rfl⟩

/-- What a filled key has: the values that were not left out, and what it had before. -/
theorem find_fillAll {pairs : List (Predicate × String)} {k : Key} {keyword value : String}
    (hnodup : (pairs.map (·.1.keyword)).Nodup) : (fillAll pairs k).find keyword = some value ↔
      (∃ pv ∈ pairs, pv.1.keyword = keyword ∧ pv.2 = value ∧ ¬ (value = "" ∧ pv.1.optional)) ∨
      k.find keyword = some value ∧ ∀ pv ∈ pairs, pv.1.keyword = keyword → pv.2 = "" ∧ pv.1.optional := by
  induction pairs generalizing k with
  | nil => simp [fillAll]
  | cons pv pairs ih =>
    rw [List.map_cons, List.nodup_cons] at hnodup
    change (fillAll pairs (pv.1.fill k pv.2)).find keyword = some value ↔ _
    rw [ih hnodup.2]
    simp only [List.mem_cons, or_and_right, exists_or, exists_eq_left, forall_eq_or_imp]
    have hlater (hk : pv.1.keyword = keyword) : ∀ pv' ∈ pairs, pv'.1.keyword ≠ keyword :=
      fun pv' hpv' he => hnodup.1 (he.trans hk.symm ▸ List.mem_map_of_mem (f := fun pv => pv.1.keyword) hpv')
    by_cases hk : pv.1.keyword = keyword
    · by_cases hout : pv.2 = "" ∧ pv.1.optional
      · have hsame : pv.1.fill k pv.2 = k := by
          obtain ⟨hv, d, hd⟩ := hout
          simp [Predicate.fill, Matcher.fill, hd, hv]
        rw [hsame]
        constructor
        · rintro (hp | ⟨hf, hall⟩)
          · exact .inl (.inr hp)
          · exact .inr ⟨hf, fun _ => hout, hall⟩
        · rintro ((⟨-, rfl, hgiven⟩ | hp) | ⟨hf, -, hall⟩)
          · exact absurd hout hgiven
          · exact .inl hp
          · exact .inr ⟨hf, hall⟩
      · rw [Predicate.fill_eq hout, hk, Key.find_push, Option.some.injEq]
        constructor
        · rintro (hp | ⟨rfl, -⟩)
          · exact .inl (.inr hp)
          · exact .inl (.inl ⟨rfl, rfl, hout⟩)
        · rintro ((⟨-, hv, -⟩ | ⟨pv', hpv', he, -⟩) | ⟨-, hfirst, -⟩)
          · exact .inr ⟨hv, fun pv' hpv' he => absurd he (hlater hk pv' hpv')⟩
          · exact absurd he (hlater hk pv' hpv')
          · exact absurd (hfirst rfl) hout
    · rw [Predicate.fill_other hk]
      simp [hk]

variable {k k' : Key} {r : Rule} {values' : List String} {s : String}

/-- A key that a rule assigns to a field is one that it builds. -/
theorem builds_of_assign {field : Key} (h : r.assign field = .ok (some k)) : r.Builds k := by
  have hpicks (cur : List Predicate) : ∀ k k' : Key, assignFrom field cur k = .ok (some k') → Picks cur k k' := by
    induction cur with
    | nil =>
      intro k k' h
      cases h
      rfl
    | cons p next ih =>
      intro k k' h
      rw [assignFrom_cons] at h
      cases hv : p.value field with
      | error e => simp [hv] at h
      | ok value =>
        simp only [hv] at h
        split at h
        next hacc => exact ⟨value, hacc, ih _ _ h⟩
        next => cases h
  have hblank : Key.Blank {} := ⟨rfl, rfl, rfl⟩
  rw [assignFrom_blank field r hblank] at h
  cases ha : assignFrom field r.predicates {} with
  | error e => simp [ha, Except.map] at h
  | ok found =>
    cases found with
    | none => simp [ha, Except.map] at h
    | some k₁ =>
      simp only [ha, Except.map, Option.map_some, Except.ok.injEq, Option.some.injEq] at h
      exact ⟨k₁, hpicks _ _ _ ha, h.symm⟩

/-- A fingerprint is taken only of a key whose rule names no keyword twice. -/
theorem Builds.nodup (h : r.Builds k) (hs : k.valuesToString = .ok s) : (r.predicates.map (·.keyword)).Nodup := by
  obtain ⟨-, -, -, hl⟩ := Key.valuesToString_ok hs
  obtain ⟨hnames, hkeys⟩ := h.names
  exact hnames ▸ (Key.enumerated_of_length hl fun n hn => hnames ▸ (hkeys n).mp hn).nodup

/-- The key's fingerprint is made, and gives back the canonical values, less those left out by optional
predicates. -/
def Restores (r : Rule) (k : Key) : Prop :=
  ∃ s k', k.valuesToString = .ok s ∧ Key.ofFingerprint s (some r) = .ok k' ∧
    ∀ keyword value, k'.find keyword = some value ↔
      ∃ p ∈ r.predicates, p.keyword = keyword ∧ k.canonicalValue keyword = .ok value ∧ ¬ (value = "" ∧ p.optional)

/-- The canonical values of what a rule built, each separable. -/
def Canonical (r : Rule) (k : Key) (values : List String) : Prop :=
  r.Builds k ∧ k.canonicalValues = .ok values ∧
    List.Forall₂ (fun p v => Separable p.keyword v) r.predicates values

theorem Canonical.mem_zip (h : Canonical r k values) {p : Predicate} {v : String} (hp : (p, v) ∈ r.predicates.zip values) :
    k.canonicalValue p.keyword = .ok v := by
  obtain ⟨hb, hv, -⟩ := h
  have hall := Key.mapM_ok hv
  rw [hb.names.1, List.forall₂_map_left_iff] at hall
  exact (List.forall₂_iff_zip.mp hall).2 hp

theorem Canonical.exists_zip (h : Canonical r k values) {p : Predicate} (hp : p ∈ r.predicates) :
    ∃ v, (p, v) ∈ r.predicates.zip values := by
  have hlen := h.2.2.length_eq
  obtain ⟨i, hi, rfl⟩ := List.mem_iff_getElem.mp hp
  exact ⟨values[i], List.mem_iff_getElem.mpr ⟨i, by simp; omega, by simp⟩⟩

/-- The canonical values of a key that names no keyword twice are restored, if there are any. -/
theorem Canonical.restores (h : Canonical r k values) (hne : r.predicates ≠ [])
    (hnodup : (r.predicates.map (·.keyword)).Nodup) : Restores r k := by
  obtain ⟨hpair, hmin, hmax⟩ := pairing_fingerprint h.2.2 hne hnodup
  obtain ⟨hnames, hkeys⟩ := h.1.names
  have henum : k.Enumerated := ⟨hnames ▸ hnodup, fun n => hnames ▸ (hkeys n).symm⟩
  refine ⟨":".intercalate values, fillAll (r.predicates.zip values) { registry := some r.registry }, ?_, ?_, ?_⟩
  · rw [henum.valuesToString_eq, h.2.1]
    rfl
  · rw [Key.ofFingerprint, fill, assert, if_pos hmin, assert, if_pos hmax]
    change fillLoop _ _ _ _ = _
    rw [fillLoop_eq, hpair]
    rfl
  · intro keyword value
    have hzip : ((r.predicates.zip values).map (·.1.keyword)).Nodup := by
      have hfst : (r.predicates.zip values).map (·.1.keyword) = r.predicates.map (·.keyword) := by
        have hcomp := List.map_fst_zip (Nat.le_of_eq h.2.2.length_eq)
        conv_rhs => rw [← hcomp, List.map_map]
        rfl
      rwa [hfst]
    rw [find_fillAll hzip]
    constructor
    · rintro (⟨⟨p, v⟩, hpv, rfl, rfl, hgiven⟩ | ⟨hf, -⟩)
      · exact ⟨p, (List.of_mem_zip hpv).1, rfl, h.mem_zip hpv, hgiven⟩
      · simp [Key.find] at hf
    · rintro ⟨p, hp, rfl, hv, hgiven⟩
      obtain ⟨v, hpv⟩ := h.exists_zip hp
      obtain rfl := Except.ok.inj ((h.mem_zip hpv).symm.trans hv)
      exact .inl ⟨(p, v), hpv, rfl, rfl, hgiven⟩

/-- Without predicates the empty fingerprint still has a token. -/
theorem ofFingerprint_no_predicates (hnil : r.predicates = []) (hnames : k.names = [])
    (hs : k.valuesToString = .ok s) : Key.ofFingerprint s (some r) = .error (.assertion "it_value == values.end()") := by
  obtain ⟨values, hv, rfl, -⟩ := Key.valuesToString_ok hs
  rw [Key.canonicalValues, hnames] at hv
  cases hv
  change r.fill _ [""] = _
  simp [fill, hnil, assert, fillLoop]
  rfl

theorem restores_iff (h : Canonical r k values) :
    Restores r k ↔ r.predicates ≠ [] ∧ (r.predicates.map (·.keyword)).Nodup := by
  constructor
  · rintro ⟨s, k', hs, hk', -⟩
    refine ⟨fun hnil => ?_, h.1.nodup hs⟩
    rw [ofFingerprint_no_predicates hnil (by simp [h.1.names.1, hnil]) hs] at hk'
    cases hk'
  · rintro ⟨hne, hnodup⟩
    exact h.restores hne hnodup

/-- Two keys of a rule with one fingerprint have the same canonical values. -/
theorem Canonical.injective (h : Canonical r k values) (h' : Canonical r k' values')
    (hs : k.valuesToString = .ok s) (hs' : k'.valuesToString = .ok s) : values = values' := by
  have hlen := h.2.2.length_eq
  have hlen' := h'.2.2.length_eq
  by_cases hnil : r.predicates = []
  · rw [hnil, List.length_nil] at hlen hlen'
    rw [List.length_eq_zero_iff.mp hlen.symm, List.length_eq_zero_iff.mp hlen'.symm]
  · have hnodup := h.1.nodup hs
    obtain ⟨_, hv, rfl, -⟩ := Key.valuesToString_ok hs
    obtain ⟨_, hv', heq, -⟩ := Key.valuesToString_ok hs'
    obtain rfl := Except.ok.inj (hv.symm.trans h.2.1)
    obtain rfl := Except.ok.inj (hv'.symm.trans h'.2.1)
    have hpair := (pairing_fingerprint h.2.2 hnil hnodup).1
    rw [heq, (pairing_fingerprint h'.2.2 hnil hnodup).1] at hpair
    have hsnd := congrArg (List.map Prod.snd) (Except.ok.inj hpair)
    rw [List.map_snd_zip (Nat.le_of_eq hlen'.symm), List.map_snd_zip (Nat.le_of_eq hlen.symm)] at hsnd
    exact hsnd.symm

/-- A key built by a rule is restored from its fingerprint if the rule has predicates and no two with one keyword. -/
theorem ofFingerprint_restores (h : Canonical r k values) :
    (Restores r k ↔ r.predicates ≠ [] ∧ (r.predicates.map (·.keyword)).Nodup) ∧
    ∀ k' values', Canonical r k' values' → ∀ s, k.valuesToString = .ok s → k'.valuesToString = .ok s →
      values = values' :=
  ⟨restores_iff h, fun _ _ h' _ hs hs' => h.injective h' hs hs'⟩

section Sample

/-- `[ type, quantile, number? ]` -/
def quantileRule : Rule :=
  .mk 3 [⟨"type", .always⟩, ⟨"quantile", .always⟩, ⟨"number", .optional ""⟩] [] .untyped

def quantileKey : Key :=
  ((({ registry := some .untyped } : Key).push "type" "pd").push "quantile" "1:5").push "number" ""

theorem canonical_quantileKey : Canonical quantileRule quantileKey ["pd", "1:5", ""] := by
  refine ⟨⟨_, ⟨"pd", rfl, "1:5", rfl, "", rfl, rfl⟩, rfl⟩, by decide +kernel, ?_⟩
  refine .cons ?_ (.cons ?_ (.cons ?_ .nil)) <;> decide

theorem ofFingerprint_restores_quantile : Restores quantileRule quantileKey :=
  (ofFingerprint_restores canonical_quantileKey).1.mpr ⟨by decide, by decide⟩

/-- `[ ]`, and `[ step, step ]` -/
def emptyRule : Rule := .mk 3 [] [] .untyped

def repeatedRule : Rule := .mk 3 [⟨"step", .always⟩, ⟨"step", .always⟩] [] .untyped

def repeatedKey : Key := (({ registry := some .untyped } : Key).push "step" "6").push "step" "6"

/-- The key of a rule without predicates is not read back, and one of a rule that repeats a keyword has no
fingerprint. -/
theorem fingerprint_not_restored :
    (Canonical emptyRule { registry := some .untyped } [] ∧
      Key.valuesToString { registry := some .untyped } = .ok "" ∧
      (Key.ofFingerprint "" (some emptyRule)).toOption.isNone ∧ ¬ Restores emptyRule { registry := some .untyped }) ∧
    Canonical repeatedRule repeatedKey ["6", "6"] ∧
      repeatedKey.valuesToString = .error (.assertion "names_.size() == keys_.size()") ∧
      ¬ Restores repeatedRule repeatedKey := by
  have hempty : Canonical emptyRule { registry := some .untyped } [] := ⟨⟨_, rfl, rfl⟩, rfl, .nil⟩
  have hrepeated : Canonical repeatedRule repeatedKey ["6", "6"] := by
    refine ⟨⟨_, ⟨"6", rfl, "6", rfl, rfl⟩, rfl⟩, by decide +kernel, ?_⟩
    refine .cons ?_ (.cons ?_ .nil) <;> decide
  refine ⟨⟨hempty, rfl, rfl, fun h => ((restores_iff hempty).mp h).1 rfl⟩, hrepeated, by decide +kernel, fun h => ?_⟩
  exact absurd ((restores_iff hrepeated).mp h).2 (by decide)

end Sample

end Rule

end Fdb5
