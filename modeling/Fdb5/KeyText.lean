import Fdb5.Fingerprint

/-! Keys written as text, and read from it. -/
namespace Fdb5

open Effect

/-- `eckit::Tokenizer(separator)`, which leaves empty tokens out. -/
def tokens (separator : Char) (s : String) : List String :=
  ((s.toList.splitOn separator).filter (· ≠ [])).map String.ofList

/-- A piece of a split list has no separator, and only what the list has. -/
theorem mem_splitOn {α : Type} [BEq α] [LawfulBEq α] {a : α} {xs l : List α} (h : l ∈ xs.splitOn a) : a ∉ l ∧ l ⊆ xs := by
  induction xs generalizing l with
  | nil =>
    rw [List.splitOn_nil, List.mem_singleton] at h
    simp [h]
  | cons x xs ih =>
    rw [List.splitOn_cons_eq_if_modifyHead] at h
    split at h
    next =>
      rcases List.mem_cons.mp h with rfl | h
      · simp
      · exact ⟨(ih h).1, List.subset_cons_of_subset x (ih h).2⟩
    next hx =>
      obtain ⟨l', rest, hsplit⟩ := List.exists_cons_of_ne_nil (List.splitOn_ne_nil a xs)
      rw [hsplit, List.modifyHead_cons] at h
      rcases List.mem_cons.mp h with rfl | h
      · obtain ⟨hno, hsub⟩ := ih (hsplit ▸ List.mem_cons_self)
        have hne : ¬ a = x := fun he => hx (by simp [he])
        exact ⟨by simp [hno, hne], List.cons_subset_cons x hsub⟩
      · obtain ⟨hno, hsub⟩ := ih (hsplit ▸ List.mem_cons_of_mem _ h)
        exact ⟨hno, List.subset_cons_of_subset x hsub⟩

section Tokens

variable {separator : Char} {s t : String} {pieces : List String}

theorem mem_tokens (h : t ∈ tokens separator s) : t ≠ "" ∧ separator ∉ t.toList ∧ t.toList ⊆ s.toList := by
  obtain ⟨l, hl, rfl⟩ := List.mem_map.mp h
  obtain ⟨hl, hne⟩ := List.mem_filter.mp hl
  obtain ⟨hno, hsub⟩ := mem_splitOn hl
  rw [String.toList_ofList]
  exact ⟨by simpa using hne, hno, hsub⟩

/-- Only a string of separators has no tokens. -/
theorem tokens_eq_nil : tokens separator s = [] ↔ ∀ c ∈ s.toList, c = separator := by
  have hsplit (xs : List Char) : (∀ l ∈ xs.splitOn separator, l = []) ↔ ∀ c ∈ xs, c = separator := by
    induction xs with
    | nil => simp
    | cons x xs ih =>
      rw [List.splitOn_cons_eq_if_modifyHead, List.forall_mem_cons]
      by_cases hx : x = separator
      · simp [hx, ih]
      · obtain ⟨l, rest, hl⟩ := List.exists_cons_of_ne_nil (List.splitOn_ne_nil separator xs)
        simp [hx, hl]
  rw [tokens, List.map_eq_nil_iff, List.filter_eq_nil_iff, ← hsplit]
  simp

/-- Joined pieces are the tokens again, where none is empty. -/
theorem tokens_intercalate (hp : ∀ p ∈ pieces, p ≠ "" ∧ separator ∉ p.toList) :
    tokens separator ((String.singleton separator).intercalate pieces) = pieces := by
  have hfilter : (pieces.map String.toList).filter (· ≠ []) = pieces.map String.toList := by
    rw [List.filter_eq_self]
    intro l hl
    obtain ⟨p, hmem, rfl⟩ := List.mem_map.mp hl
    simpa using (hp p hmem).1
  by_cases hnil : pieces = []
  · subst hnil
    rfl
  · rw [tokens, String.toList_intercalate, String.toList_singleton,
      List.splitOn_intercalate separator (by simpa using fun p hmem => (hp p hmem).2) (by simpa using hnil), hfilter,
      List.map_map]
    simp [Function.comp_def]

end Tokens

namespace Key

/-- `Key(keys, registry)`. -/
def ofDict (keys : StringDict) (registry : Option TypesRegistry) : Key :=
  { keys, names := keys.keys, registry }

/-- What both parsers make of one token between commas. -/
def parsePair (bit : String) : Except Failure (String × String) :=
  match tokens '=' bit with
  | [keyword, value] => .ok (keyword, value)
  | _ => .error (.assertion "kv.size() == 2")

def parseStringUntyped (s : String) : Except Failure Key := do
  let keys ← (tokens ',' s).foldlM (fun keys bit => do
    let kv ← parsePair bit
    return keys.insertIfNew kv.1 kv.2) (∅ : StringDict)
  return ofDict keys none

def parseString (s : String) (registry : TypesRegistry) : Except Failure Key :=
  (tokens ',' s).foldlM (fun ret bit => do
    let kv ← parsePair bit
    let t ← registry.lookupType kv.1
    let v ← t.tidy kv.1 kv.2
    return if ret.find kv.1 = none then ret.push kv.1 v else ret.set kv.1 v) { registry := some registry }

/-- The keyword and value that `toString` finds for a name. -/
def named (k : Key) (name : String) : Except Failure (String × String) :=
  match k.find name with
  | some value => .ok (name, value)
  | none => .error (.assertion "i != keys_.end()")

def toString (k : Key) : Except Failure String := do
  let pairs ← k.names.mapM k.named
  return ",".intercalate ((pairs.filter (·.2 ≠ "")).map fun kv => kv.1 ++ "=" ++ kv.2)

/-- `Key::operator std::string()`. -/
def asString (k : Key) : Except Failure String := do
  assert (k.names.length = k.keys.size) "names_.size() == keys_.size()"
  k.toString

/-- Text that the parsers take for one keyword or value. -/
def Clean (s : String) : Prop := s ≠ "" ∧ ',' ∉ s.toList ∧ '=' ∉ s.toList

instance (s : String) : Decidable (Clean s) := inferInstanceAs (Decidable (_ ∧ _))

section Text

variable {s bit keyword value : String} {kv : String × String} {pairs : List (String × String)} {k : Key}

theorem parsePair_ok (h : parsePair bit = .ok kv) (hbit : ',' ∉ bit.toList) : Clean kv.1 ∧ Clean kv.2 := by
  have hpair : tokens '=' bit = [kv.1, kv.2] := by
    unfold parsePair at h
    split at h
    next keyword value htokens =>
      cases h
      exact htokens
    next => cases h
  have hclean (t : String) (ht : t ∈ tokens '=' bit) : Clean t := by
    obtain ⟨hne, hno, hsub⟩ := mem_tokens ht
    exact ⟨hne, fun hc => hbit (hsub hc), hno⟩
  exact ⟨hclean _ (by simp [hpair]), hclean _ (by simp [hpair])⟩

theorem parsePair_join (hk : Clean keyword) (hv : Clean value) :
    parsePair (keyword ++ "=" ++ value) = .ok (keyword, value) := by
  have hjoin : keyword ++ "=" ++ value = (String.singleton '=').intercalate [keyword, value] := by
    simp [String.intercalate_cons_cons]
  have htokens : tokens '=' (keyword ++ "=" ++ value) = [keyword, value] := by
    rw [hjoin]
    refine tokens_intercalate fun p hp => ?_
    simp only [List.mem_cons, List.not_mem_nil, or_false] at hp
    rcases hp with rfl | rfl
    · exact ⟨hk.1, hk.2.2⟩
    · exact ⟨hv.1, hv.2.2⟩
  rw [parsePair, htokens]

/-- The untyped parser makes keywords and values of clean text only. -/
theorem clean_parseStringUntyped (h : parseStringUntyped s = .ok k) (hf : k.find keyword = some value) :
    Clean keyword ∧ Clean value := by
  have hloop (bits : List String) (hbits : ∀ bit ∈ bits, ',' ∉ bit.toList) (keys keys' : StringDict)
      (hkeys : ∀ keyword value : String, keys[keyword]? = some value → Clean keyword ∧ Clean value)
      (hfold : bits.foldlM (fun keys bit => do
        let kv ← parsePair bit
        return keys.insertIfNew kv.1 kv.2) keys = Except.ok keys') :
      ∀ keyword value : String, keys'[keyword]? = some value → Clean keyword ∧ Clean value := by
    induction bits generalizing keys with
    | nil => exact Except.ok.inj hfold ▸ hkeys
    | cons bit bits ih =>
      obtain ⟨hbit, hbits⟩ := List.forall_mem_cons.mp hbits
      simp only [List.foldlM_cons, except_bind_ok, except_pure_ok] at hfold
      obtain ⟨keys₁, ⟨kv, hkv, rfl⟩, hfold⟩ := hfold
      refine ih hbits _ (fun keyword value hget => ?_) hfold
      rw [Std.ExtTreeMap.getElem?_insertIfNew] at hget
      split at hget
      next heq =>
        rw [Std.LawfulEqCmp.compare_eq_iff_eq] at heq
        cases hget
        exact heq.1 ▸ parsePair_ok hkv hbit
      next => exact hkeys keyword value hget
  simp only [parseStringUntyped, except_bind_ok, except_pure_ok] at h
  obtain ⟨keys, hfold, rfl⟩ := h
  exact hloop _ (fun bit hbit => (mem_tokens hbit).2.1) ∅ keys (by simp) hfold keyword value hf

/-- Clean pairs joined by commas are parsed again, the first of each keyword. -/
theorem parseStringUntyped_join (hp : ∀ kv ∈ pairs, Clean kv.1 ∧ Clean kv.2) :
    parseStringUntyped (",".intercalate (pairs.map fun kv => kv.1 ++ "=" ++ kv.2)) =
      .ok (ofDict (pairs.foldl (fun keys kv => keys.insertIfNew kv.1 kv.2) ∅) none) := by
  have hloop (keys : StringDict) : (pairs.map fun kv => kv.1 ++ "=" ++ kv.2).foldlM (fun keys bit => do
      let kv ← parsePair bit
      return keys.insertIfNew kv.1 kv.2) keys =
        Except.ok (pairs.foldl (fun keys kv => keys.insertIfNew kv.1 kv.2) keys) := by
    induction pairs generalizing keys with
    | nil => rfl
    | cons kv pairs ih =>
      obtain ⟨⟨hk, hv⟩, hp⟩ := List.forall_mem_cons.mp hp
      rw [List.map_cons, List.foldlM_cons, parsePair_join hk hv]
      exact ih hp _
  have htokens : tokens ',' (",".intercalate (pairs.map fun kv => kv.1 ++ "=" ++ kv.2)) =
      pairs.map fun kv => kv.1 ++ "=" ++ kv.2 := by
    refine tokens_intercalate fun bit hbit => ?_
    obtain ⟨kv, hmem, rfl⟩ := List.mem_map.mp hbit
    obtain ⟨⟨hne, hcomma, -⟩, -, hcomma', -⟩ := hp kv hmem
    exact ⟨by simp [hne], by simp [hcomma, hcomma']⟩
  rw [parseStringUntyped, htokens, hloop]
  rfl

/-- A map made of pairs that agree with `f` agrees with it where there is a pair. -/
theorem getElem?_insertPairs {f : String → Option String} (hp : ∀ kv ∈ pairs, f kv.1 = some kv.2) {keys : StringDict}
    (hkeys : ∀ keyword value : String, keys[keyword]? = some value → f keyword = some value) :
    (pairs.foldl (fun keys kv => keys.insertIfNew kv.1 kv.2) keys)[keyword]? =
      if keyword ∈ pairs.map Prod.fst ∨ keyword ∈ keys then f keyword else none := by
  induction pairs generalizing keys with
  | nil =>
    simp only [List.foldl_nil, List.map_nil, List.not_mem_nil, false_or]
    split
    next hin =>
      obtain ⟨value, hvalue⟩ := Option.isSome_iff_exists.mp (Std.ExtTreeMap.isSome_getElem?_iff_mem.mpr hin)
      rw [hvalue, hkeys keyword value hvalue]
    next hout => exact Std.ExtTreeMap.getElem?_eq_none hout
  | cons kv pairs ih =>
    obtain ⟨hkv, hp⟩ := List.forall_mem_cons.mp hp
    rw [List.foldl_cons, ih hp]
    · simp only [Std.ExtTreeMap.mem_insertIfNew, Std.LawfulEqCmp.compare_eq_iff_eq, List.map_cons, List.mem_cons]
      congr 1
      rw [eq_comm (a := kv.1)]
      simp only [or_assoc, or_left_comm]
    · intro keyword value hget
      rw [Std.ExtTreeMap.getElem?_insertIfNew] at hget
      split at hget
      next heq =>
        rw [Std.LawfulEqCmp.compare_eq_iff_eq] at heq
        cases hget
        exact heq.1 ▸ hkv
      next => exact hkeys keyword value hget

/-- What is parsed of a string is empty only for separators. -/
theorem parseStringUntyped_empty : (∃ k, parseStringUntyped s = .ok k ∧ k.keys = ∅) ↔ ∀ c ∈ s.toList, c = ',' := by
  have hgrows (bits : List String) (keys keys' : StringDict) (hne : ∃ keyword, keyword ∈ keys)
      (hfold : bits.foldlM (fun keys bit => do
        let kv ← parsePair bit
        return keys.insertIfNew kv.1 kv.2) keys = Except.ok keys') : ∃ keyword, keyword ∈ keys' := by
    induction bits generalizing keys with
    | nil => exact Except.ok.inj hfold ▸ hne
    | cons bit bits ih =>
      simp only [List.foldlM_cons, except_bind_ok, except_pure_ok] at hfold
      obtain ⟨keys₁, ⟨kv, hkv, rfl⟩, hfold⟩ := hfold
      obtain ⟨keyword, hin⟩ := hne
      exact ih _ ⟨keyword, Std.ExtTreeMap.mem_insertIfNew.mpr (.inr hin)⟩ hfold
  rw [← tokens_eq_nil, parseStringUntyped]
  cases htokens : tokens ',' s with
  | nil => exact ⟨fun _ => rfl, fun _ => ⟨ofDict ∅ none, rfl, rfl⟩⟩
  | cons bit bits =>
    refine ⟨?_, fun h => by cases h⟩
    rintro ⟨k, hk, hempty⟩
    simp only [List.foldlM_cons, except_bind_ok, except_pure_ok] at hk
    obtain ⟨keys, ⟨keys₁, ⟨kv, -, rfl⟩, hfold⟩, rfl⟩ := hk
    obtain ⟨keyword, hin⟩ := hgrows bits _ keys ⟨kv.1, by simp⟩ hfold
    rw [show keys = ∅ from hempty] at hin
    exact absurd hin Std.ExtTreeMap.not_mem_empty

theorem mapM_named {names : List String} (h : names.mapM k.named = .ok pairs) :
    pairs.map Prod.fst = names ∧ ∀ kv ∈ pairs, k.find kv.1 = some kv.2 := by
  induction names generalizing pairs with
  | nil =>
    cases h
    simp
  | cons name names ih =>
    simp only [List.mapM_cons, except_bind_ok, except_pure_ok] at h
    obtain ⟨kv, hkv, rest, hrest, rfl⟩ := h
    obtain ⟨hfst, hfind⟩ := ih hrest
    unfold named at hkv
    split at hkv
    next value hvalue =>
      cases hkv
      exact ⟨by rw [List.map_cons, hfst], List.forall_mem_cons.mpr ⟨hvalue, hfind⟩⟩
    next => cases hkv

/-- The text of a key names its keywords with their values, those that are not empty. -/
theorem asString_eq {text : String} (h : k.asString = .ok text) : k.names.length = k.keys.size ∧
    ∃ pairs : List (String × String), pairs.map Prod.fst = k.names ∧ (∀ kv ∈ pairs, k.find kv.1 = some kv.2) ∧
      text = ",".intercalate ((pairs.filter (·.2 ≠ "")).map fun kv => kv.1 ++ "=" ++ kv.2) := by
  simp only [asString, toString, except_bind_ok, except_pure_ok] at h
  obtain ⟨_, hl, pairs, hpairs, rfl⟩ := h
  obtain ⟨hfst, hfind⟩ := mapM_named hpairs
  exact ⟨assert_ok.mp hl, pairs, hfst, hfind, rfl⟩

end Text

end Key

end Fdb5
