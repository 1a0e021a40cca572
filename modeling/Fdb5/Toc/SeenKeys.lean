import Fdb5.Inspect.Restored
import Fdb5.Toc.ListAgreement

/-! Equality and hashing of keys, and the listed keys that a deduplicating iterator has seen. -/
namespace Fdb5

open Effect FirstWins

theorem intercalate_tokenize (s : String) : ":".intercalate (tokenize s) = s := by
  apply String.toList_injective
  have hsep : (":" : String).toList = [':'] := rfl
  rw [String.toList_intercalate, hsep, tokenize, List.map_map]
  simp [Function.comp_def, List.intercalate_splitOn]

namespace Key

variable {a b k : Key} {keyword : String} {l : List (String × String)}

/-- `std::hash<fdb5::Key>`, by the hash of a string. -/
def stdHash (hash : String → Nat) (k : Key) : Except Failure Nat := hash <$> k.valuesToString

/-- The keys have a hash and it is the same, whatever the hash of strings is. -/
def HashAlike (a b : Key) : Prop := ∀ hash, ∃ n, a.stdHash hash = .ok n ∧ b.stdHash hash = .ok n

theorem hashAlike_iff_valuesToString :
    a.HashAlike b ↔ ∃ s, a.valuesToString = .ok s ∧ b.valuesToString = .ok s := by
  constructor
  · intro h
    obtain ⟨_, ha, hb⟩ := h fun _ => 0
    obtain ⟨s, hs, -⟩ := except_map_ok.mp ha
    obtain ⟨t, ht, -⟩ := except_map_ok.mp hb
    obtain ⟨n, ha, hb⟩ := h fun u => if u = s then 1 else 0
    simp only [stdHash, hs, ht, except_map_ok, Except.ok.injEq, exists_eq_left', if_true] at ha hb
    have hst : t = s := by
      by_contra hne
      rw [if_neg hne] at hb
      omega
    exact ⟨s, hs, hst ▸ ht⟩
  · rintro ⟨s, ha, hb⟩ hash
    exact ⟨hash s, by simp [stdHash, ha], by simp [stdHash, hb]⟩

/-- Joined values read the same exactly if they agree colon by colon. -/
theorem intercalate_eq_iff {v w : List String} (h : v = [] ↔ w = []) :
    ":".intercalate v = ":".intercalate w ↔ v.flatMap tokenize = w.flatMap tokenize := by
  by_cases hv : v = []
  · rw [hv, h.mp hv]
    exact iff_of_true rfl rfl
  · have hw : w ≠ [] := fun hw => hv (h.mpr hw)
    rw [← tokenize_values hv, ← tokenize_values hw]
    constructor
    · exact congrArg tokenize
    · intro htokens
      rw [← intercalate_tokenize (":".intercalate v), htokens, intercalate_tokenize]

/-- The key with these values set. -/
def setAll (k : Key) (l : List (String × String)) : Key := l.foldl (fun k kv => k.set kv.1 kv.2) k

theorem mem_set {keyword' value : String} : keyword ∈ (k.set keyword' value).keys ↔ keyword = keyword' ∨ keyword ∈ k.keys := by
  rw [set]
  split <;> rw [Std.ExtTreeMap.mem_insert, Std.compare_eq_iff_eq, eq_comm]

/-- Setting a value gives the key a name more where it gets a keyword more. -/
theorem length_set {keyword' value : String} :
    (k.set keyword' value).names.length + k.keys.size = k.names.length + (k.set keyword' value).keys.size := by
  rw [set]
  split
  · rename_i h
    simp [Std.ExtTreeMap.size_insert, h]
  · rename_i h
    simp [Std.ExtTreeMap.size_insert, h]
    omega

theorem mem_setAll : keyword ∈ (k.setAll l).keys ↔ keyword ∈ l.map Prod.fst ∨ keyword ∈ k.keys := by
  induction l generalizing k with
  | nil => simp [setAll]
  | cons kv l ih =>
    change keyword ∈ ((k.set kv.1 kv.2).setAll l).keys ↔ _
    rw [ih, mem_set, List.map_cons, List.mem_cons]
    tauto

theorem length_setAll : (k.setAll l).names.length + k.keys.size = k.names.length + (k.setAll l).keys.size := by
  induction l generalizing k with
  | nil => rfl
  | cons kv l ih =>
    have hone : (k.set kv.1 kv.2).names.length + k.keys.size = k.names.length + (k.set kv.1 kv.2).keys.size := length_set
    have hrest : ((k.set kv.1 kv.2).setAll l).names.length + (k.set kv.1 kv.2).keys.size =
        (k.set kv.1 kv.2).names.length + ((k.set kv.1 kv.2).setAll l).keys.size := ih
    change ((k.set kv.1 kv.2).setAll l).names.length + _ = _ + ((k.set kv.1 kv.2).setAll l).keys.size
    omega

theorem kept_setAll : (k.setAll l).registry = k.registry ∧ (k.setAll l).canonical = k.canonical := by
  induction l generalizing k with
  | nil => exact ⟨rfl, rfl⟩
  | cons kv l ih =>
    obtain ⟨hregistry, hcanonical⟩ := ih (k := k.set kv.1 kv.2)
    refine ⟨hregistry.trans ?_, hcanonical.trans ?_⟩
    all_goals
      rw [set]
      split <;> rfl

theorem canonicalise_setAll : (k.setAll l).canonicalise = k.canonicalise := by
  funext keyword value
  simp only [canonicalise, registryOf, kept_setAll]

/-- The keywords that a key does not have become names, in their order. -/
theorem names_setAll (hl : (l.map Prod.fst).Nodup) :
    (k.setAll l).names = k.names ++ (l.map Prod.fst).filter fun keyword => keyword ∉ k.keys := by
  induction l generalizing k with
  | nil => simp [setAll]
  | cons kv l ih =>
    obtain ⟨hnew, hl⟩ := List.nodup_cons.mp hl
    have hrest : ((l.map Prod.fst).filter fun keyword => keyword ∉ (k.set kv.1 kv.2).keys) =
        (l.map Prod.fst).filter fun keyword => keyword ∉ k.keys := by
      apply List.filter_congr
      intro keyword hmem
      have hne : keyword ≠ kv.1 := fun he => hnew (he ▸ hmem)
      simp [mem_set, hne]
    change ((k.set kv.1 kv.2).setAll l).names = _
    rw [ih hl, hrest, List.map_cons, List.filter_cons, set]
    by_cases h : kv.1 ∈ k.keys <;> simp [h]

theorem find_setAll (hl : (l.map Prod.fst).Nodup) :
    (k.setAll l).find keyword = (l.lookup keyword).or (k.find keyword) := by
  induction l generalizing k with
  | nil => simp [setAll]
  | cons kv l ih =>
    obtain ⟨name, value⟩ := kv
    obtain ⟨hnew, hl⟩ := List.nodup_cons.mp hl
    change ((k.set name value).setAll l).find keyword = _
    rw [ih hl, find_set, List.lookup_cons]
    by_cases hk : keyword = name
    · subst hk
      have hnone : l.lookup keyword = none := by
        rw [List.lookup_eq_none_iff]
        intro kv hkv
        exact bne_iff_ne.mpr fun he => hnew (List.mem_map.mpr ⟨kv, hkv, he.symm⟩)
      simp [hnone]
    · have hne : (keyword == name) = false := by simpa using hk
      rw [hne, if_neg (Ne.symm hk)]

end Key

namespace ListElement

variable (el : ListElement)

/-- The keywords of the combined key, as its names have them: those of the datum key in its own order, then what the
database key and the index key add, each in the order of its map. -/
def order : List String :=
  (el.datumKey.names ++ el.dbKey.keys.keys.filter fun keyword => keyword ∉ el.datumKey.keys) ++
    el.indexKey.keys.keys.filter fun keyword => ¬ (keyword ∈ el.dbKey.keys ∨ keyword ∈ el.datumKey.keys)

/-- The value of the last part that has the keyword. -/
def valueOf (keyword : String) : Option String :=
  (el.datumKey.find keyword).or ((el.indexKey.find keyword).or (el.dbKey.find keyword))

/-- The value in the form that the datum key's types give it, or as it is in a datum key from a stream. -/
def form (keyword : String) : Except Failure String :=
  match el.valueOf keyword with
  | some value => el.datumKey.canonicalise keyword value
  | none => .error (.assertion "it != keys_.end()")

variable {el}

theorem combinedKey_eq : el.combinedKey =
    ((el.datumKey.setAll el.dbKey.keys.toList).setAll el.indexKey.keys.toList).setAll el.datumKey.keys.toList := rfl

theorem nodup_toList {m : StringDict} : (m.toList.map Prod.fst).Nodup := by
  rw [Std.ExtTreeMap.map_fst_toList_eq_keys]
  exact Std.ExtTreeMap.nodup_keys

theorem names_combinedKey : el.combinedKey.names = el.order := by
  have hown : (el.datumKey.keys.keys.filter fun keyword => ¬ (keyword ∈ el.indexKey.keys ∨ keyword ∈ el.dbKey.keys ∨
      keyword ∈ el.datumKey.keys)) = [] := by
    rw [List.filter_eq_nil_iff]
    intro keyword hmem
    simp [Std.ExtTreeMap.mem_keys.mp hmem]
  rw [combinedKey_eq, Key.names_setAll nodup_toList, Key.names_setAll nodup_toList, Key.names_setAll nodup_toList]
  simp only [Std.ExtTreeMap.map_fst_toList_eq_keys, Key.mem_setAll, Std.ExtTreeMap.mem_keys, hown, List.append_nil, order]

theorem find_combinedKey {keyword : String} : el.combinedKey.find keyword = el.valueOf keyword := by
  rw [combinedKey_eq, Key.find_setAll nodup_toList, Key.find_setAll nodup_toList, Key.find_setAll nodup_toList,
    Key.lookup_toList, Key.lookup_toList, Key.lookup_toList, valueOf]
  cases el.datumKey.find keyword <;> cases el.indexKey.find keyword <;> cases el.dbKey.find keyword <;> rfl

/-- A datum key alone is its own combined key. -/
theorem combinedKey_alone {k : Key} : Fdb5.combinedKey {} {} k = k := by
  have hown : (k.keys.keys.filter fun keyword => keyword ∉ k.keys) = [] := by
    rw [List.filter_eq_nil_iff]
    intro keyword hmem
    simp [Std.ExtTreeMap.mem_keys.mp hmem]
  change k.setAll k.keys.toList = k
  refine Key.ext_of_find ?_ Key.kept_setAll.2 Key.kept_setAll.1 fun keyword => ?_
  · rw [Key.names_setAll nodup_toList, Std.ExtTreeMap.map_fst_toList_eq_keys, hown, List.append_nil]
  · rw [Key.find_setAll nodup_toList, Key.lookup_toList, Option.or_self]

theorem length_combinedKey : el.combinedKey.names.length = el.combinedKey.keys.size ↔
    el.datumKey.names.length = el.datumKey.keys.size := by
  have h0 : (el.datumKey.setAll el.dbKey.keys.toList).names.length + _ = _ := Key.length_setAll
  have h1 : ((el.datumKey.setAll el.dbKey.keys.toList).setAll el.indexKey.keys.toList).names.length + _ = _ :=
    Key.length_setAll
  have h2 : el.combinedKey.names.length + _ = _ := Key.length_setAll (k := (el.datumKey.setAll el.dbKey.keys.toList).setAll
    el.indexKey.keys.toList) (l := el.datumKey.keys.toList)
  change _ = _ + el.combinedKey.keys.size at h2
  omega

theorem canonicalValue_combinedKey {keyword : String} : el.combinedKey.canonicalValue keyword = el.form keyword := by
  have hcanonicalise : el.combinedKey.canonicalise = el.datumKey.canonicalise := by
    rw [combinedKey_eq, Key.canonicalise_setAll, Key.canonicalise_setAll, Key.canonicalise_setAll]
  cases hv : el.valueOf keyword with
  | none => simp only [Key.canonicalValue, find_combinedKey, form, hv]
  | some value => simp only [Key.canonicalValue, find_combinedKey, form, hv, hcanonicalise]

/-- The string that is hashed is that of the forms, in order, where the datum key has each keyword once. -/
theorem valuesToString_combinedKey {s : String} : el.combinedKey.valuesToString = .ok s ↔
    el.datumKey.names.length = el.datumKey.keys.size ∧ ∃ v, el.order.mapM el.form = .ok v ∧ ":".intercalate v = s := by
  have hvalues : el.combinedKey.canonicalValues = el.order.mapM el.form := by
    rw [Key.canonicalValues, names_combinedKey]
    exact mapM_congr fun _ _ => canonicalValue_combinedKey
  rw [← length_combinedKey, Key.valuesToString, assert, hvalues]
  by_cases hl : el.combinedKey.names.length = el.combinedKey.keys.size
  · simp [hl, bind, Except.bind]
    cases el.order.mapM el.form <;> simp [pure, Except.pure]
  · simp [hl, bind, Except.bind]

/-- The datum keys have each keyword once, every value has a form, and the forms agree in the two orders, colon by
colon. -/
structure ReadsAs (x y : ListElement) : Prop where
  once : x.datumKey.names.length = x.datumKey.keys.size
  once' : y.datumKey.names.length = y.datumKey.keys.size
  forms : ∃ v w, x.order.mapM x.form = .ok v ∧ y.order.mapM y.form = .ok w ∧ v.flatMap tokenize = w.flatMap tokenize

variable {x y : ListElement}

theorem length_forms {v : List String} (h : x.order.mapM x.form = .ok v) : v.length = x.combinedKey.names.length := by
  rw [names_combinedKey]
  exact (Key.mapM_ok h).length_eq.symm

/-- Equal combined keys hash alike exactly if they read the same. -/
theorem hashAlike_iff (h : x.combinedKey.keys = y.combinedKey.keys) :
    x.combinedKey.HashAlike y.combinedKey ↔ x.ReadsAs y := by
  have hempty {v w : List String} (hx : x.datumKey.names.length = x.datumKey.keys.size)
      (hy : y.datumKey.names.length = y.datumKey.keys.size) (hv : x.order.mapM x.form = .ok v)
      (hw : y.order.mapM y.form = .ok w) : v = [] ↔ w = [] := by
    rw [← List.length_eq_zero_iff, ← List.length_eq_zero_iff, length_forms hv, length_forms hw,
      length_combinedKey.mpr hx, length_combinedKey.mpr hy, h]
  rw [Key.hashAlike_iff_valuesToString]
  constructor
  · rintro ⟨s, hs, ht⟩
    obtain ⟨hx, v, hv, rfl⟩ := valuesToString_combinedKey.mp hs
    obtain ⟨hy, w, hw, heq⟩ := valuesToString_combinedKey.mp ht
    exact ⟨hx, hy, v, w, hv, hw, (Key.intercalate_eq_iff (hempty hx hy hv hw)).mp heq.symm⟩
  · rintro ⟨hx, hy, v, w, hv, hw, htokens⟩
    refine ⟨_, valuesToString_combinedKey.mpr ⟨hx, v, hv, rfl⟩, valuesToString_combinedKey.mpr ⟨hy, w, hw, ?_⟩⟩
    exact ((Key.intercalate_eq_iff (hempty hx hy hv hw)).mpr htokens).symm

theorem mem_combinedKey {keyword : String} : keyword ∈ x.combinedKey.keys ↔
    keyword ∈ x.datumKey.keys ∨ keyword ∈ x.indexKey.keys ∨ keyword ∈ x.dbKey.keys := by
  rw [combinedKey_eq, Key.mem_setAll, Key.mem_setAll, Key.mem_setAll, Std.ExtTreeMap.map_fst_toList_eq_keys,
    Std.ExtTreeMap.map_fst_toList_eq_keys, Std.ExtTreeMap.map_fst_toList_eq_keys, Std.ExtTreeMap.mem_keys,
    Std.ExtTreeMap.mem_keys, Std.ExtTreeMap.mem_keys]
  tauto

/-- In a datum key from a stream each value stands as it is. -/
theorem form_of_stream (h : x.datumKey.canonical = true) {keyword value : String} (hv : x.valueOf keyword = some value) :
    x.form keyword = .ok value := by
  rw [form, hv]
  simp [Key.canonicalise, h]

end ListElement

section Fingerprint

variable {pairs : List (Predicate × String)} {k : Key} {r : Rule} {text : String}

theorem map_fst_pairing {extra : Bool} {ps : List Predicate} {vs : List String}
    (h : Rule.pairing extra ps vs = .ok pairs) : pairs.map Prod.fst = ps := by
  fun_induction Rule.pairing extra ps vs generalizing pairs with
  | case1 => cases h; rfl
  | case2 => cases h
  | case3 => cases h
  | case4 => cases h
  | case5 p ps v hq w ws ih =>
    obtain ⟨rest, hrest, rfl⟩ := except_map_ok.mp h
    rw [List.map_cons, ih hrest]
  | case6 p ps v vs hq ih =>
    obtain ⟨rest, hrest, rfl⟩ := except_map_ok.mp h
    rw [List.map_cons, ih hrest]

/-- A fingerprint gives a key the keywords of the rule, in the order of the rule, but for those left out. -/
theorem names_fillAll (hn : (pairs.map (·.1.keyword)).Nodup) (hk : ∀ pv ∈ pairs, pv.1.keyword ∉ k.keys) :
    (Rule.fillAll pairs k).names =
      k.names ++ (pairs.map (·.1.keyword)).filter (fun keyword => keyword ∈ (Rule.fillAll pairs k).keys) ∧
    ∀ keyword ∉ pairs.map (·.1.keyword), (keyword ∈ (Rule.fillAll pairs k).keys ↔ keyword ∈ k.keys) := by
  induction pairs generalizing k with
  | nil => simp [Rule.fillAll]
  | cons pv pairs ih =>
    obtain ⟨hnew, hn⟩ := List.nodup_cons.mp hn
    have hcons : Rule.fillAll (pv :: pairs) k = Rule.fillAll pairs (pv.1.fill k pv.2) := rfl
    rw [hcons]
    by_cases hout : pv.2 = "" ∧ pv.1.optional
    · have hsame : pv.1.fill k pv.2 = k := by
        obtain ⟨hv, d, hd⟩ := hout
        simp [Predicate.fill, Matcher.fill, hd, hv]
      obtain ⟨hnames, hkeys⟩ := ih hn fun pv' hpv' => hk pv' (.tail _ hpv')
      have hnot : pv.1.keyword ∉ (Rule.fillAll pairs k).keys := fun h => hk pv (.head _) ((hkeys _ hnew).mp h)
      rw [hsame]
      refine ⟨?_, fun keyword hmem => hkeys keyword fun h => hmem (.tail _ h)⟩
      rw [List.map_cons, List.filter_cons_of_neg (by simpa using hnot)]
      exact hnames
    · have hpush : pv.1.fill k pv.2 = k.push pv.1.keyword pv.2 := Predicate.fill_eq hout
      obtain ⟨hnames, hkeys⟩ := ih (k := k.push pv.1.keyword pv.2) hn fun pv' hpv' hmem => by
        rcases Key.mem_push.mp hmem with he | hmem
        · exact hnew (List.mem_map.mpr ⟨pv', hpv', he⟩)
        · exact hk pv' (.tail _ hpv') hmem
      have hin : pv.1.keyword ∈ (Rule.fillAll pairs (k.push pv.1.keyword pv.2)).keys :=
        (hkeys _ hnew).mpr (Key.mem_push.mpr (.inl rfl))
      rw [hpush]
      refine ⟨?_, fun keyword hmem => ?_⟩
      · rw [List.map_cons, List.filter_cons_of_pos (by simpa using hin)]
        refine hnames.trans ?_
        rw [Key.push_names, List.append_assoc]
        rfl
      · have hne : keyword ≠ pv.1.keyword := fun he => hmem (he ▸ .head _)
        refine (hkeys keyword fun h => hmem (.tail _ h)).trans ?_
        rw [Key.mem_push, or_iff_right hne]

/-- A datum key that a rule without repeated keywords makes of a fingerprint. -/
theorem names_ofFingerprint (h : Key.ofFingerprint text (some r) = .ok k) (hn : (r.predicates.map (·.keyword)).Nodup) :
    k.names = (r.predicates.map (·.keyword)).filter (fun keyword => keyword ∈ k.keys) ∧ k.Enumerated ∧
      k.registry = some r.registry ∧ k.canonical = false := by
  obtain ⟨r', pairs, hr, hpairs, rfl⟩ := Key.ofFingerprint_ok h
  cases hr
  have hkeywords : pairs.map (·.1.keyword) = r.predicates.map (·.keyword) := by
    rw [← map_fst_pairing hpairs, List.map_map]
    rfl
  rw [← hkeywords] at hn ⊢
  have hnames : (Rule.fillAll pairs { registry := some r.registry }).names =
      [] ++ (pairs.map (·.1.keyword)).filter _ ∧ _ := names_fillAll hn (by simp)
  have honce : Key.FilledOnce pairs := (List.pairwise_map.mp hn).imp fun hne he => absurd he hne
  exact ⟨hnames.1, (Key.Enumerated.empty _).fillAll honce (by simp), Rule.kept_fillAll⟩

end Fingerprint

namespace ListElement

variable {x y : ListElement} {r : Rule} {text text' : String}

/-- The outer keys of the element have no keyword of the rule. -/
def Aside (el : ListElement) (r : Rule) : Prop :=
  ∀ p ∈ r.predicates, p.keyword ∉ el.dbKey.keys ∧ p.keyword ∉ el.indexKey.keys

/-- Maps with the same keywords have these in the same order. -/
theorem keys_eq_of_mem {m m' : StringDict} (h : ∀ keyword, keyword ∈ m ↔ keyword ∈ m') : m.keys = m'.keys := by
  have hperm : m.keys.Perm m'.keys :=
    (List.perm_ext_iff_of_nodup Std.ExtTreeMap.nodup_keys Std.ExtTreeMap.nodup_keys).mpr (by simpa using h)
  refine hperm.eq_of_pairwise (fun a b _ _ hlt hgt => ?_) Std.ExtTreeMap.ordered_keys Std.ExtTreeMap.ordered_keys
  exact absurd (Std.OrientedCmp.gt_of_lt hgt) (by rw [hlt]; decide)

/-- Elements of one field whose datum keys are of one rule, and whose outer keys have the same other keywords, read the
same. -/
theorem readsAs_of_rule (hx : Key.ofFingerprint text (some r) = .ok x.datumKey)
    (hy : Key.ofFingerprint text' (some r) = .ok y.datumKey) (hn : (r.predicates.map (·.keyword)).Nodup)
    (hax : x.Aside r) (hay : y.Aside r) (hdb : ∀ keyword, keyword ∈ x.dbKey.keys ↔ keyword ∈ y.dbKey.keys)
    (hindex : ∀ keyword, keyword ∈ x.indexKey.keys ↔ keyword ∈ y.indexKey.keys)
    (hfield : x.combinedKey.keys = y.combinedKey.keys) {v : List String} (hv : x.order.mapM x.form = .ok v) :
    x.ReadsAs y := by
  obtain ⟨hnames, henum, hregistry, hcanonical⟩ := names_ofFingerprint hx hn
  obtain ⟨hnames', henum', hregistry', hcanonical'⟩ := names_ofFingerprint hy hn
  have hown : x.datumKey.names = y.datumKey.names := by
    rw [hnames, hnames']
    apply List.filter_congr
    intro keyword hmem
    obtain ⟨p, hp, rfl⟩ := List.mem_map.mp hmem
    have hiff : p.keyword ∈ x.combinedKey.keys ↔ p.keyword ∈ y.combinedKey.keys := by rw [hfield]
    rw [mem_combinedKey, mem_combinedKey] at hiff
    simpa [(hax p hp).1, (hax p hp).2, (hay p hp).1, (hay p hp).2] using hiff
  have hmem (keyword : String) : keyword ∈ x.datumKey.keys ↔ keyword ∈ y.datumKey.keys := by
    rw [← henum.mem_iff, ← henum'.mem_iff, hown]
  have horder : x.order = y.order := by
    rw [order, order, hown]
    simp only [keys_eq_of_mem hdb, keys_eq_of_mem hindex, hmem, hdb]
  have hform : x.form = y.form := by
    funext keyword
    have hvalue : x.valueOf keyword = y.valueOf keyword := by
      rw [← find_combinedKey, ← find_combinedKey, Key.find, Key.find, hfield]
    have hcanonicalise : x.datumKey.canonicalise = y.datumKey.canonicalise := by
      funext keyword value
      simp only [Key.canonicalise, Key.registryOf, hregistry, hregistry', hcanonical, hcanonical']
    rw [form, form, hvalue, hcanonicalise]
  exact ⟨henum.length, henum'.length, v, v, hv, by rw [← horder, ← hform]; exact hv, rfl⟩

end ListElement

section Dedup

variable {els : List ListedElement}

/-- The map of the key that an element is known by. -/
def ListedElement.field (el : ListedElement) : StringDict := el.combinedKey.keys

/-- Each field is listed, once. -/
def ListsOnce (els : List ListedElement) : Prop := ∃ out, ListIterator.elements [] els = .ok out ∧ out.Sublist els ∧
  (out.map (·.field)).Nodup ∧ ∀ el ∈ els, ∃ el' ∈ out, el'.field = el.field

theorem seenAs_eq {a b : Key} {s t : String} (ha : a.valuesToString = .ok s) (hb : b.valuesToString = .ok t) :
    OpenDatabase.seenAs a = OpenDatabase.seenAs b ↔ s = t ∧ a.keys = b.keys := by
  rw [OpenDatabase.seenAs, OpenDatabase.seenAs, Key.fingerprint, Key.fingerprint, ha, hb, Prod.mk.injEq]

/-- A list without duplicates has each field once exactly if the keys of each field hash alike. -/
theorem listsOnce_iff : ListsOnce els ↔
    ∀ x ∈ els, ∀ y ∈ els, x.field = y.field → x.combinedKey.HashAlike y.combinedKey := by
  have hmem {x : ListedElement} (hx : x ∈ els) : OpenDatabase.seenAs x.combinedKey ∈
      (firsts (fun el : ListedElement => OpenDatabase.seenAs el.combinedKey) [] els).map
        fun el => OpenDatabase.seenAs el.combinedKey :=
    mem_map_firsts.mpr ⟨by simp, List.mem_map_of_mem hx⟩
  constructor
  · rintro ⟨out, hout, -, hnodup, -⟩ x hx y hy hxy
    obtain ⟨hhash, rfl⟩ := OpenDatabase.elements_iff.mp hout
    obtain ⟨x', hx', hseenx⟩ := List.mem_map.mp (hmem hx)
    obtain ⟨y', hy', hseeny⟩ := List.mem_map.mp (hmem hy)
    have hfield : x'.field = y'.field := by
      rw [ListedElement.field, ListedElement.field]
      exact (congrArg Prod.snd hseenx).trans (hxy.trans (congrArg Prod.snd hseeny).symm)
    obtain rfl := List.inj_on_of_nodup_map hnodup hx' hy' hfield
    obtain ⟨s, hs⟩ := hhash x hx
    obtain ⟨t, ht⟩ := hhash y hy
    obtain ⟨rfl, -⟩ := (seenAs_eq hs ht).mp (hseenx.symm.trans hseeny)
    exact Key.hashAlike_iff_valuesToString.mpr ⟨s, hs, ht⟩
  · intro halike
    have hhash : ∀ el ∈ els, ∃ hash, el.combinedKey.valuesToString = .ok hash := by
      intro el hel
      obtain ⟨s, hs, -⟩ := Key.hashAlike_iff_valuesToString.mp (halike el hel el hel rfl)
      exact ⟨s, hs⟩
    have hseen : ∀ x ∈ els, ∀ y ∈ els, x.field = y.field →
        OpenDatabase.seenAs x.combinedKey = OpenDatabase.seenAs y.combinedKey := by
      intro x hx y hy hxy
      obtain ⟨s, hs, ht⟩ := Key.hashAlike_iff_valuesToString.mp (halike x hx y hy hxy)
      exact (seenAs_eq hs ht).mpr ⟨rfl, hxy⟩
    refine ⟨_, OpenDatabase.elements_iff.mpr ⟨hhash, rfl⟩, firsts_sublist, ?_, fun el hel => ?_⟩
    · have hnodup : ((firsts (fun el : ListedElement => OpenDatabase.seenAs el.combinedKey) [] els).map fun el =>
          OpenDatabase.seenAs el.combinedKey).Nodup := nodup_map_firsts
      rw [List.Nodup, List.pairwise_map] at hnodup ⊢
      refine hnodup.imp_of_mem fun {x y} hx hy hne hxy => hne ?_
      exact hseen x (mem_of_firsts hx) y (mem_of_firsts hy) hxy
    · obtain ⟨el', hel', hseen⟩ := List.mem_map.mp (hmem hel)
      exact ⟨el', hel', congrArg Prod.snd hseen⟩

/-- Equal combined keys hash alike exactly if they read the same, and a list without duplicates has each field once
exactly if those of each field do. -/
theorem seenKeys_once (els : List ListedElement) :
    (∀ x y : ListElement, x.combinedKey.keys = y.combinedKey.keys →
      (x.combinedKey.HashAlike y.combinedKey ↔ x.ReadsAs y)) ∧
    (ListsOnce els ↔ ∀ x ∈ els, ∀ y ∈ els, x.field = y.field → x.toListElement.ReadsAs y.toListElement) := by
  refine ⟨fun x y => ListElement.hashAlike_iff, ?_⟩
  rw [listsOnce_iff]
  refine forall₂_congr fun x _ => forall₂_congr fun y _ => forall_congr' fun hxy => ?_
  exact ListElement.hashAlike_iff hxy

section Sample

/-- A listed field of the class `od` and the type `fc`, with its datum key from a fingerprint. -/
def listedAs (rule : Rule) (fingerprint : String) : ListedElement where
  dbKey := Key.ofList [("class", "od")] none
  indexKey := Key.ofList [("type", "fc")] none
  datumKey := (Key.ofFingerprint fingerprint (some rule)).toOption.getD {}
  location := FieldLocation.ofPath ⟨"/fdb", ⟨"oper", none, "data"⟩⟩ 0 4
  timestamp := 0

/-- The element as a client has it from a server: the datum key is one from a stream. -/
def received (el : ListedElement) : ListedElement :=
  { el with datumKey := { el.datumKey with registry := none, canonical := true } }

/-- `[ step, param ]` and `[ param, step ]`, as two schemas may have it. -/
def stepParamRule : Rule := .mk 3 [⟨"step", .always⟩, ⟨"param", .always⟩] [] .untyped

def paramStepRule : Rule := .mk 3 [⟨"param", .always⟩, ⟨"step", .always⟩] [] .untyped

/-- A field that is listed here and by a server is listed once, beside another. -/
theorem seenKeys_once_sample :
    (listedAs stepParamRule "6:130").combinedKey.HashAlike (received (listedAs stepParamRule "6:130")).combinedKey ∧
    ListsOnce [listedAs stepParamRule "6:130", received (listedAs stepParamRule "6:130"), listedAs stepParamRule "12:130"] := by
  have hsix : (listedAs stepParamRule "6:130").order.mapM (listedAs stepParamRule "6:130").form =
      .ok ["6", "130", "od", "fc"] := by decide +kernel
  have hreceived : (received (listedAs stepParamRule "6:130")).order.mapM (received (listedAs stepParamRule "6:130")).form =
      .ok ["6", "130", "od", "fc"] := by decide +kernel
  have htwelve : (listedAs stepParamRule "12:130").order.mapM (listedAs stepParamRule "12:130").form =
      .ok ["12", "130", "od", "fc"] := by decide +kernel
  have honce : (listedAs stepParamRule "6:130").datumKey.names.length = (listedAs stepParamRule "6:130").datumKey.keys.size := by
    decide +kernel
  have honce' : (listedAs stepParamRule "12:130").datumKey.names.length =
      (listedAs stepParamRule "12:130").datumKey.keys.size := by decide +kernel
  have hsame : (received (listedAs stepParamRule "6:130")).field = (listedAs stepParamRule "6:130").field :=
    Std.ExtTreeMap.toList_inj.mp (by decide +kernel)
  have hother : (listedAs stepParamRule "12:130").field ≠ (listedAs stepParamRule "6:130").field := fun h =>
    absurd (congrArg Std.ExtTreeMap.toList h) (by decide +kernel)
  obtain ⟨hhash, honces⟩ := seenKeys_once
    [listedAs stepParamRule "6:130", received (listedAs stepParamRule "6:130"), listedAs stepParamRule "12:130"]
  refine ⟨(hhash _ _ hsame.symm).mpr ⟨honce, honce, _, _, hsix, hreceived, rfl⟩, honces.mpr ?_⟩
  simp only [List.mem_cons, List.not_mem_nil, or_false]
  rintro x (rfl | rfl | rfl) y (rfl | rfl | rfl) hxy
  · exact ⟨honce, honce, _, _, hsix, hsix, rfl⟩
  · exact ⟨honce, honce, _, _, hsix, hreceived, rfl⟩
  · exact absurd hxy.symm hother
  · exact ⟨honce, honce, _, _, hreceived, hsix, rfl⟩
  · exact ⟨honce, honce, _, _, hreceived, hreceived, rfl⟩
  · exact absurd (hxy.symm.trans hsame) hother
  · exact absurd hxy hother
  · exact absurd (hxy.trans hsame) hother
  · exact ⟨honce', honce', _, _, htwelve, htwelve, rfl⟩

/-- One field whose keyword orders differ has two hashes, and is listed twice. -/
theorem equal_keys_hash_apart :
    (listedAs stepParamRule "6:130").combinedKey.keys = (listedAs paramStepRule "130:6").combinedKey.keys ∧
    (listedAs stepParamRule "6:130").combinedKey.valuesToString = .ok "6:130:od:fc" ∧
    (listedAs paramStepRule "130:6").combinedKey.valuesToString = .ok "130:6:od:fc" ∧
    ¬ (listedAs stepParamRule "6:130").combinedKey.HashAlike (listedAs paramStepRule "130:6").combinedKey ∧
    ¬ ListsOnce [listedAs stepParamRule "6:130", listedAs paramStepRule "130:6"] := by
  have hone : (listedAs stepParamRule "6:130").combinedKey.valuesToString = .ok "6:130:od:fc" := by decide +kernel
  have htwo : (listedAs paramStepRule "130:6").combinedKey.valuesToString = .ok "130:6:od:fc" := by decide +kernel
  have hsame : (listedAs stepParamRule "6:130").combinedKey.keys = (listedAs paramStepRule "130:6").combinedKey.keys :=
    Std.ExtTreeMap.toList_inj.mp (by decide +kernel)
  have hapart : ¬ (listedAs stepParamRule "6:130").combinedKey.HashAlike (listedAs paramStepRule "130:6").combinedKey := by
    intro h
    obtain ⟨s, hs, ht⟩ := Key.hashAlike_iff_valuesToString.mp h
    rw [hone] at hs
    rw [htwo] at ht
    exact absurd (Except.ok.inj hs |>.trans (Except.ok.inj ht).symm) (by decide)
  refine ⟨hsame, hone, htwo, hapart, fun h => hapart ?_⟩
  exact listsOnce_iff.mp h _ (.head _) _ (.tail _ (.head _)) hsame

end Sample

end Dedup

end Fdb5
