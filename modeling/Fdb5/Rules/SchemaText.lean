import Fdb5.Library.LastWins
import Fdb5.Rules.SchemaParser

/-! Schemas written out and parsed again. -/
namespace Fdb5

open Effect

namespace SchemaParser

variable {text rest : List Char} {s : List Char} {c : Char} {value emptyOK : Bool} {n : Nat}

section Ident

/-- What `parseIdent` may return. -/
structure Ident (value emptyOK : Bool) (s : List Char) : Prop where
  plain : ∀ c ∈ s, c ∉ stops
  name : value = false → '-' ∉ s
  nonempty : emptyOK = false → s ≠ []
  first : emptyOK = false → s.head? ≠ some '-'

/-- Where `parseIdent` stops. -/
def Stopped (value : Bool) (rest : List Char) : Prop :=
  ∀ c ∈ rest.head?, c ∈ stops ∨ c = '-' ∧ value = false

theorem Ident.of_loop (hplain : ∀ c ∈ s, c ∉ stops) (hname : value = false → '-' ∉ s)
    (hfirst : emptyOK = false → s.head? ≠ some '-') (h : ¬ (s.isEmpty = true ∧ emptyOK = false)) :
    Ident value emptyOK (String.ofList s).toList := by
  rw [String.toList_ofList]
  refine ⟨hplain, hname, fun he hs => h ⟨by simp [hs], he⟩, hfirst⟩

theorem ends_identLoop (hplain : ∀ c ∈ s, c ∉ stops) (hname : value = false → '-' ∉ s)
    (hfirst : emptyOK = false → s.head? ≠ some '-') : Ends (identLoop value emptyOK s) text
      (fun t rest => s ++ text = t.toList ++ rest ∧ Ident value emptyOK t.toList) fun e _ => e ≠ endless := by
  induction text generalizing s with
  | nil =>
    unfold Ends EStateM.run identLoop
    by_cases h : s.isEmpty = true ∧ emptyOK = false
    · rw [if_pos h]
      simp [endless]
    · rw [if_neg h]
      exact ⟨by rw [String.toList_ofList], .of_loop hplain hname hfirst h⟩
  | cons c text ih =>
    unfold Ends EStateM.run identLoop
    by_cases hstop : c ∈ stops
    · rw [if_pos hstop]
      by_cases h : s.isEmpty = true ∧ emptyOK = false
      · rw [if_pos h]
        simp [endless]
      · rw [if_neg h]
        exact ⟨by rw [String.toList_ofList], .of_loop hplain hname hfirst h⟩
    · rw [if_neg hstop]
      by_cases hdash : c = '-' ∧ s.isEmpty = true ∧ emptyOK = false
      · rw [if_pos hdash]
        simp [endless]
      · rw [if_neg hdash]
        by_cases hend : c = '-' ∧ value = false
        · rw [if_pos hend]
          exact ⟨by rw [String.toList_ofList], .of_loop hplain hname hfirst fun h => hdash ⟨hend.1, h⟩⟩
        · rw [if_neg hend]
          have hnext := @ih (s ++ [c]) ?_ ?_ ?_
          · rwa [List.append_assoc] at hnext
          · intro d hd
            rcases List.mem_append.mp hd with hd | hd
            · exact hplain d hd
            · rw [List.mem_singleton.mp hd]
              exact hstop
          · intro hv hd
            rcases List.mem_append.mp hd with hd | hd
            · exact hname hv hd
            · exact hend ⟨(List.mem_singleton.mp hd).symm, hv⟩
          · intro he
            cases s with
            | nil =>
              intro hc
              exact hdash ⟨by simpa using hc, rfl, he⟩
            | cons d s => exact hfirst he

/-- An identifier is a part of the text, of the characters that it may have. -/
theorem ends_parseIdent : Ends (parseIdent value emptyOK) text
    (fun t rest => text = t.toList ++ rest ∧ Ident value emptyOK t.toList) fun e _ => e ≠ endless :=
  ends_identLoop (s := []) (by simp) (by simp) (by simp)

theorem ends_identLoop_append {t : List Char} {Q : String → List Char → Prop} {E : Failure → List Char → Prop}
    (hplain : ∀ c ∈ t, c ∉ stops) (hname : value = false → '-' ∉ t)
    (hfirst : ¬ (s ++ t).isEmpty ∨ emptyOK = true) (hdash : s ≠ [] ∨ emptyOK = true ∨ t.head? ≠ some '-')
    (hstop : Stopped value rest) :
    Ends (identLoop value emptyOK s) (t ++ rest) Q E ↔ Q (String.ofList (s ++ t)) rest := by
  induction t generalizing s with
  | nil =>
    have hne : ¬ (s.isEmpty = true ∧ emptyOK = false) := by
      rintro ⟨hs, he⟩
      simp_all
    rw [List.append_nil, List.nil_append]
    cases rest with
    | nil =>
      unfold Ends EStateM.run identLoop
      rw [if_neg hne]
    | cons c rest =>
      unfold Ends EStateM.run identLoop
      rcases hstop c rfl with hc | hc
      · rw [if_pos hc, if_neg hne]
      · by_cases hc' : c ∈ stops
        · rw [if_pos hc', if_neg hne]
        · rw [if_neg hc', if_neg fun h => hne h.2, if_pos hc]
  | cons c t ih =>
    have hc : c ∉ stops := hplain c List.mem_cons_self
    have h₁ : ¬ (c = '-' ∧ s.isEmpty = true ∧ emptyOK = false) := by
      rintro ⟨rfl, hs, he⟩
      simp_all
    have h₂ : ¬ (c = '-' ∧ value = false) := fun h => hname h.2 (h.1 ▸ List.mem_cons_self)
    rw [List.append_cons s c t, ← ih (fun d hd => hplain d (List.mem_cons_of_mem c hd))
      (fun hv hd => hname hv (List.mem_cons_of_mem c hd)) (.inl (by simp)) (.inl (by simp))]
    rw [List.cons_append]
    unfold Ends EStateM.run
    rw [identLoop, if_neg hc, if_neg h₁, if_neg h₂]

/-- An identifier is read again, up to where it stops. -/
theorem ends_ident {t : String} {Q : String → List Char → Prop} {E : Failure → List Char → Prop}
    (h : Ident value emptyOK t.toList) (hstop : Stopped value rest) :
    Ends (parseIdent value emptyOK) (t.toList ++ rest) Q E ↔ Q t rest := by
  have hends : Ends (identLoop value emptyOK []) (t.toList ++ rest) Q E ↔ Q (String.ofList ([] ++ t.toList)) rest :=
    ends_identLoop_append h.plain h.name ?_ ?_ hstop
  · rwa [List.nil_append, String.ofList_toList] at hends
  · cases emptyOK with
    | true => exact .inr rfl
    | false => exact .inl (by simpa using h.nonempty rfl)
  · cases emptyOK with
    | true => exact .inr (.inl rfl)
    | false => exact .inr (.inr (h.first rfl))

end Ident

section Stream

theorem ends_peek {Q : Char → List Char → Prop} {E : Failure → List Char → Prop} :
    Ends peek text Q E ↔ Q (text.headD nul) text := by
  rw [peek, ends_bind, ends_get, ends_pure]

theorem ends_consume_cons {Q : Unit → List Char → Prop} {E : Failure → List Char → Prop} :
    Ends (consume c) (c :: rest) Q E ↔ Q () rest := by
  rw [consume, ends_bind, ends_get]
  simp

theorem ends_consume {Q : Unit → List Char → Prop} {E : Failure → List Char → Prop}
    (hQ : ∀ rest, text = c :: rest → Q () rest) (hE : ∀ e, e ≠ endless → E e text) : Ends (consume c) text Q E := by
  rw [consume, ends_bind, ends_get]
  cases text with
  | nil => exact hE _ (by simp [endless])
  | cons d text =>
    by_cases hd : d = c
    · subst hd
      simpa using hQ text rfl
    · simpa [hd] using hE (.exception "StreamParser::consume") (by simp [endless])

end Stream

section Written

/-- No character of the text is skipped. -/
def Plain (l : List Char) : Prop := ∀ c ∈ l, isBlank c = false ∧ c ≠ '#'

theorem Plain.suffix (h : Plain text) (hs : rest <:+ text) : Plain rest :=
  fun c hc => h c (hs.subset hc)

/-- An identifier that is found again where it is written. -/
structure Word (value emptyOK : Bool) (s : String) : Prop where
  ident : Ident value emptyOK s.toList
  plain : Plain s.toList

/-- A matcher that a predicate's text may give. -/
def Made : Matcher → Prop
  | .always => True
  | .value v => Word true false v
  | .any vs => vs ≠ [] ∧ (∀ v ∈ vs, Word true false v) ∧ matcherOf (.ofList vs) = .any vs
  | .optional d | .hidden d => Word true true d

/-- The predicates and types that the text of a rule may give. -/
structure Written (predicates : List Predicate) (types : StringDict) : Prop where
  keyword : ∀ p ∈ predicates, Word false false p.keyword
  matcher : ∀ p ∈ predicates, Made p.matcher
  hidden : ∀ p ∈ predicates, ∀ d, p.matcher = .hidden d → types[p.keyword]? ≠ none
  type : ∀ k t : String, types[k]? = some t → Word false false t
  used : ∀ k t : String, types[k]? = some t → ∃ p ∈ predicates, p.keyword = k

/-- A rule that a text may give. -/
inductive WellFormed : ParsedRule → Prop
  | mk {predicates rules types} (own : Written predicates types) (sub : ∀ r ∈ rules, WellFormed r) :
    WellFormed (.mk predicates rules types)

/-- What a predicate may do to the types. -/
def Declares (k : String) (types types' : StringDict) : Prop :=
  types' = types ∨ ∃ t, Word false false t ∧ types[k]? = none ∧ types' = types.insert k t

variable {predicates : List Predicate} {types types' : StringDict} {p : Predicate} {k : String}

theorem written_empty : Written [] ∅ := by
  constructor <;> simp

theorem Declares.getElem? {t : String} {k' : String} (h : Declares k types types') (ht : types[k']? = some t) :
    types'[k']? = some t := by
  rcases h with rfl | ⟨t', -, hnone, rfl⟩
  · exact ht
  · have hne : ¬ k = k' := by
      rintro rfl
      exact absurd (hnone.symm.trans ht) (by simp)
    simpa [Std.ExtTreeMap.getElem?_insert, hne] using ht

theorem Written.add (h : Written predicates types) (hk : Word false false p.keyword) (hm : Made p.matcher)
    (hd : Declares p.keyword types types') (hh : ∀ d, p.matcher = .hidden d → types'[p.keyword]? ≠ none) :
    Written (predicates ++ [p]) types' := by
  have hcases {k t : String} (ht : types'[k]? = some t) : types[k]? = some t ∨ k = p.keyword ∧ Word false false t := by
    rcases hd with rfl | ⟨t', hword, -, rfl⟩
    · exact .inl ht
    · by_cases hkk : p.keyword = k
      · subst hkk
        obtain rfl : t' = t := by simpa using ht
        exact .inr ⟨rfl, hword⟩
      · exact .inl (by simpa [Std.ExtTreeMap.getElem?_insert, hkk] using ht)
  constructor
  · intro q hq
    rcases List.mem_append.mp hq with hq | hq
    · exact h.keyword q hq
    · rw [List.mem_singleton.mp hq]
      exact hk
  · intro q hq
    rcases List.mem_append.mp hq with hq | hq
    · exact h.matcher q hq
    · rw [List.mem_singleton.mp hq]
      exact hm
  · intro q hq d hqd
    rcases List.mem_append.mp hq with hq | hq
    · obtain ⟨t, ht⟩ := Option.ne_none_iff_exists'.mp (h.hidden q hq d hqd)
      rw [hd.getElem? ht]
      simp
    · obtain rfl := List.mem_singleton.mp hq
      exact hh d hqd
  · intro k t ht
    rcases hcases ht with ht | ht
    · exact h.type k t ht
    · exact ht.2
  · intro k t ht
    rcases hcases ht with ht | ht
    · obtain ⟨q, hq, hqk⟩ := h.used k t ht
      exact ⟨q, List.mem_append_left _ hq, hqk⟩
    · exact ⟨p, by simp, ht.1.symm⟩

theorem ends_word (h : Plain text) : Ends (parseIdent value emptyOK) text
    (fun t rest => Word value emptyOK t ∧ rest <:+ text ∧ (emptyOK = false → rest.length < text.length))
    fun e _ => e ≠ endless := by
  refine ends_parseIdent.mono (fun t rest ⟨htext, hident⟩ => ?_) fun _ _ h => h
  refine ⟨⟨hident, fun c hc => h c (by simp [htext, hc])⟩, ⟨t.toList, htext.symm⟩, fun he => ?_⟩
  have hpos := List.length_pos_iff.mpr (hident.nonempty he)
  rw [htext, List.length_append]
  omega

theorem ends_parseType (h : Plain text) : Ends (parseType k types) text
    (fun types' rest => Declares k types types' ∧ rest <:+ text) fun e _ => e ≠ endless := by
  rw [parseType, ends_bind, ends_peek, ends_ite]
  refine ⟨fun _ => ?_, fun _ => ⟨.inl rfl, List.suffix_refl _⟩⟩
  rw [ends_bind]
  refine ends_consume (fun rest htext => ?_) fun _ h => h
  have hrest : rest <:+ text := ⟨[':'], by simp [htext]⟩
  rw [ends_bind, ends_ensure]
  refine ⟨fun hnone => ?_, fun _ => by simp [endless]⟩
  exact (ends_word (h.suffix hrest)).bind fun t left ⟨ht, hleft, _⟩ => ⟨.inr ⟨t, ht, hnone, rfl⟩, hleft.trans hrest⟩

theorem ends_parseValues (hn : text.length < n) {values : Std.ExtTreeSet String} (h : Plain text)
    (hv : ∀ v ∈ values, Word true false v) : Ends (parseValues n values) text
      (fun values' rest => (∀ v ∈ values', Word true false v) ∧ (∀ v ∈ values, v ∈ values') ∧ rest <:+ text)
      fun e _ => e ≠ endless := by
  induction n generalizing text values with
  | zero => omega
  | succ n ih =>
    rw [parseValues, ends_bind, ends_peek, ends_ite]
    refine ⟨fun _ => ?_, fun _ => ⟨hv, fun _ h => h, List.suffix_refl _⟩⟩
    rw [ends_bind]
    refine ends_consume (fun rest htext => ?_) fun _ h => h
    have hrest : rest <:+ text := ⟨['/'], by simp [htext]⟩
    refine (ends_word (h.suffix hrest)).bind fun v left ⟨hword, hleft, _⟩ => ?_
    have hshort : left.length < n := by
      have := hleft.length_le
      simp only [htext, List.length_cons] at hn
      omega
    have hall : ∀ u ∈ values.insert v, Word true false u := by
      intro u hu
      rcases Std.ExtTreeSet.mem_insert.mp hu with hu | hu
      · rw [← Std.compare_eq_iff_eq.mp hu]
        exact hword
      · exact hv u hu
    refine (ih hshort (h.suffix (hleft.trans hrest)) hall).mono (fun values' left' ⟨hw, hsub, hl⟩ => ?_) fun _ _ h => h
    exact ⟨hw, fun u hu => hsub u (Std.ExtTreeSet.mem_insert.mpr (.inr hu)), hl.trans (hleft.trans hrest)⟩

theorem made_matcherOf {values : Std.ExtTreeSet String} (h : ∀ v ∈ values, Word true false v) :
    Made (matcherOf values) := by
  have hset : Std.ExtTreeSet.ofList values.toList = values := by
    refine Std.ExtTreeSet.ext_mem fun v => ?_
    rw [Std.ExtTreeSet.mem_ofList, List.contains_iff_mem, Std.ExtTreeSet.mem_toList]
  have hall : ∀ v ∈ values.toList, Word true false v := fun v hv => h v (Std.ExtTreeSet.mem_toList.mp hv)
  unfold matcherOf
  split
  · trivial
  next v hv =>
    exact hall v (by simp [hv])
  next hne hnone =>
    refine ⟨hne, hall, ?_⟩
    rw [hset, matcherOf]
    split
    next h => exact absurd h hne
    next v h => exact absurd h (hnone v)
    next => rfl

/-- What is left of a text after something of it was read. -/
structure Left (text rest : List Char) : Prop where
  suffix : rest <:+ text
  length : rest.length < text.length

theorem Left.trans_suffix {left : List Char} (h : Left text rest) (hs : left <:+ rest) : Left text left := by
  have := hs.length_le
  have := h.length
  exact ⟨hs.trans h.suffix, by omega⟩

theorem left_cons : Left (c :: rest) rest := ⟨List.suffix_cons c rest, by simp⟩

theorem ends_parsePredicate (h : Plain text) (hw : Written predicates types) : Ends (parsePredicate types) text
    (fun r rest => Written (predicates ++ [r.1]) r.2 ∧ Left text rest) fun e _ => e ≠ endless := by
  unfold parsePredicate
  refine (ends_word h).bind fun k rest ⟨hk, hrest, hlen⟩ => ?_
  refine (ends_parseType (h.suffix hrest)).bind fun types' left ⟨hd, hleft⟩ => ?_
  have hl : Left text left := Left.trans_suffix ⟨hrest, hlen rfl⟩ hleft
  have hplain := h.suffix hl.suffix
  rw [parseMatcher, ends_bind, ends_peek]
  simp only [ends_ite]
  refine ⟨fun _ => ?_, fun _ => ⟨fun _ => ?_, fun _ => ⟨fun _ => ?_, fun _ => ?_⟩⟩⟩
  · rw [ends_bind]
    refine ends_consume (fun more hmore => ?_) fun _ h => h
    have hm : Left text more := hl.trans_suffix ⟨['?'], by simp [hmore]⟩
    refine (ends_word (h.suffix hm.suffix)).bind fun d last ⟨hword, hlast, _⟩ => ?_
    exact ⟨hw.add hk hword hd (by simp), hm.trans_suffix hlast⟩
  · rw [ends_bind]
    refine ends_consume (fun more hmore => ?_) fun _ h => h
    have hm : Left text more := hl.trans_suffix ⟨['-'], by simp [hmore]⟩
    refine (ends_word (h.suffix hm.suffix)).bind fun d last ⟨hword, hlast, _⟩ => ?_
    have hignore : Word false false "Ignore" := by
      have hchars (c : Char) (hc : c ∈ "Ignore".toList) : c ∉ stops ∧ isBlank c = false ∧ c ≠ '#' := by
        simp only [String.reduceToList, List.mem_cons, List.not_mem_nil, or_false] at hc
        rcases hc with rfl | rfl | rfl | rfl | rfl | rfl <;> decide
      exact ⟨⟨fun c hc => (hchars c hc).1, by decide, by decide, by decide⟩, fun c hc => (hchars c hc).2⟩
    refine ⟨hw.add hk hword ?_ ?_, hm.trans_suffix hlast⟩
    · by_cases hnone : types'[k]? = none
      · rw [if_pos hnone]
        rcases hd with rfl | ⟨t, _, _, rfl⟩
        · exact .inr ⟨"Ignore", hignore, hnone, rfl⟩
        · simp at hnone
      · rw [if_neg hnone]
        exact hd
    · intro _ _
      by_cases hnone : types'[k]? = none <;> simp [hnone]
  · rw [ends_bind]
    refine ends_consume (fun more hmore => ?_) fun _ h => h
    have hm : Left text more := hl.trans_suffix ⟨['='], by simp [hmore]⟩
    refine (ends_word (h.suffix hm.suffix)).bind fun v after ⟨hword, hafter, _⟩ => ?_
    have ha := hm.trans_suffix hafter
    have hone : ∀ u ∈ (∅ : Std.ExtTreeSet String).insert v, Word true false u := by
      intro u hu
      obtain rfl : v = u := by simpa using hu
      exact hword
    rw [ends_bind, ends_get]
    refine (ends_parseValues (Nat.lt_succ_self _) (h.suffix ha.suffix) hone).bind fun values last ⟨hall, _, hlast⟩ => ?_
    refine ⟨hw.add hk (made_matcherOf hall) hd ?_, ha.trans_suffix hlast⟩
    intro d hmatcher
    unfold matcherOf at hmatcher
    split at hmatcher <;> cases hmatcher
  · have hnone : ∀ v ∈ (∅ : Std.ExtTreeSet String), Word true false v := by simp
    refine ⟨hw.add hk (made_matcherOf hnone) hd ?_, hl⟩
    intro d hmatcher
    unfold matcherOf at hmatcher
    split at hmatcher <;> cases hmatcher

theorem ends_parsePredicates (h : Plain text) (hw : Written predicates types) :
    Ends (parsePredicates n predicates types) text (fun r rest => Written r.1 r.2 ∧ Left text rest)
      fun e _ => text.length < n → e ≠ endless := by
  induction n generalizing text predicates types with
  | zero =>
    intro hn
    omega
  | succ n ih =>
    unfold parsePredicates
    have hpred : Ends (parsePredicate types) text (fun r rest => Written (predicates ++ [r.1]) r.2 ∧ Left text rest)
        fun e _ => text.length < n + 1 → e ≠ endless :=
      (ends_parsePredicate h hw).mono (fun _ _ h => h) fun _ _ he _ => he
    refine hpred.bind fun r rest ⟨hr, hl⟩ => ?_
    rw [ends_bind, ends_peek, ends_ite]
    refine ⟨fun _ => ?_, fun _ => ⟨hr, hl⟩⟩
    rw [ends_bind]
    refine ends_consume (fun more hmore => ?_) fun _ h _ => h
    have hm : Left text more := hl.trans_suffix ⟨[','], by simp [hmore]⟩
    have hlen := hm.length
    refine (ih (h.suffix hm.suffix) hr).mono (fun r' last ⟨hr', hlast⟩ => ?_) fun e _ he hn => he (by omega)
    exact ⟨hr', hm.trans_suffix hlast.suffix⟩

/-- What `parseRule` makes with so many turns, and that three for each character are enough. -/
def RuleMade (n : Nat) : Prop := ∀ text, Plain text → Ends (parseRule n) text
  (fun r rest => WellFormed r ∧ Left text rest) fun e _ => 3 * text.length < n → e ≠ endless

def RulesMade (n : Nat) : Prop := ∀ text rules, Plain text → (∀ r ∈ rules, WellFormed r) →
  Ends (parseRules n rules) text
    (fun rules' rest => (∀ r ∈ rules', WellFormed r) ∧ rest <:+ text ∧ (text.headD nul = '[' → Left text rest))
    fun e _ => 3 * text.length + 1 < n → e ≠ endless

def BodyMade (n : Nat) : Prop := ∀ text predicates rules types, Plain text → Written predicates types →
  (∀ r ∈ rules, WellFormed r) → Ends (parseBody n predicates rules types) text
    (fun r rest => WellFormed r ∧ rest <:+ text) fun e _ => 3 * text.length + 2 < n → e ≠ endless

theorem ruleMade_succ (h : BodyMade n) : RuleMade (n + 1) := by
  intro text hplain
  rw [parseRule, ends_bind]
  refine ends_consume (fun rest htext => ?_) fun _ h _ => h
  subst htext
  have hrest := hplain.suffix (List.suffix_cons _ rest)
  rw [ends_bind, ends_peek, ends_ite]
  constructor
  · intro _
    rw [ends_bind]
    refine ends_consume (fun left hleft => ?_) fun _ h _ => h
    subst hleft
    exact ⟨.mk written_empty (by simp), left_cons.trans_suffix (List.suffix_cons _ _)⟩
  · intro _
    refine (h rest [] [] ∅ hrest written_empty (by simp)).mono (fun r left ⟨hr, hleft⟩ => ?_) fun e _ he hn => ?_
    · exact ⟨hr, left_cons.trans_suffix hleft⟩
    · apply he
      rw [List.length_cons] at hn
      omega

theorem rulesMade_succ (hr : RuleMade n) (h : RulesMade n) : RulesMade (n + 1) := by
  intro text rules hplain hrules
  rw [parseRules, ends_bind, ends_peek, ends_ite]
  constructor
  · intro _
    have hrule : Ends (parseRule n) text (fun r rest => WellFormed r ∧ Left text rest)
        fun e _ => 3 * text.length + 1 < n + 1 → e ≠ endless :=
      (hr text hplain).mono (fun _ _ h => h) fun e _ he hn => he (by omega)
    refine hrule.bind fun r rest ⟨hwell, hleft⟩ => ?_
    have hall : ∀ q ∈ rules ++ [r], WellFormed q := by
      intro q hq
      rcases List.mem_append.mp hq with hq | hq
      · exact hrules q hq
      · rw [List.mem_singleton.mp hq]
        exact hwell
    refine (h rest _ (hplain.suffix hleft.suffix) hall).mono (fun rules' left ⟨hw, hsub, _⟩ => ?_) fun e _ he hn => ?_
    · exact ⟨hw, hsub.trans hleft.suffix, fun _ => hleft.trans_suffix hsub⟩
    · have := hleft.length
      exact he (by omega)
  · intro hne
    exact ⟨hrules, List.suffix_refl _, fun h => absurd h hne⟩

theorem bodyMade_succ (hr : RulesMade n) (h : BodyMade n) : BodyMade (n + 1) := by
  intro text predicates rules types hplain hwritten hrules
  have hturn : Ends (do
      if (← peek) = '[' then
        let rules ← parseRules n rules
        return (predicates, rules, types)
      else
        let parsed ← parsePredicates n predicates types
        return (parsed.1, rules, parsed.2)) text
      (fun x rest => Written x.1 x.2.2 ∧ (∀ r ∈ x.2.1, WellFormed r) ∧ Left text rest)
      fun e _ => 3 * text.length + 2 < n + 1 → e ≠ endless := by
    rw [ends_bind, ends_peek, ends_ite]
    constructor
    · intro hopen
      rw [ends_bind]
      apply (hr text rules hplain hrules).mono _ fun e _ he hn => he (by omega)
      rintro rules' rest ⟨hw, -, hl⟩
      exact ⟨hwritten, hw, hl hopen⟩
    · intro _
      rw [ends_bind]
      apply (ends_parsePredicates hplain hwritten).mono _ fun e _ he hn => he (by omega)
      rintro r rest ⟨hw, hl⟩
      exact ⟨hw, hrules, hl⟩
  rw [parseBody]
  apply hturn.bind
  rintro x rest ⟨hw, hsub, hl⟩
  rw [ends_bind, ends_peek, ends_ite]
  constructor
  · intro _
    rw [ends_bind]
    refine ends_consume (fun left hleft => ?_) fun _ h _ => h
    have hlast : left <:+ rest := ⟨[']'], by simp [hleft]⟩
    exact ⟨.mk hw hsub, hlast.trans hl.suffix⟩
  · intro _
    have hlen := hl.length
    apply (h rest _ _ _ (hplain.suffix hl.suffix) hw hsub).mono _ fun e _ he hn => he (by omega)
    rintro r left ⟨hr, hleft⟩
    exact ⟨hr, hleft.trans hl.suffix⟩

theorem made (n : Nat) : RuleMade n ∧ RulesMade n ∧ BodyMade n := by
  induction n with
  | zero =>
    refine ⟨?_, ?_, ?_⟩
    · intro text _ hn
      omega
    · intro text rules _ _ hn
      omega
    · intro text predicates rules types _ _ _ hn
      omega
  | succ n ih => exact ⟨ruleMade_succ ih.2.2, rulesMade_succ ih.1 ih.2.1, bodyMade_succ ih.2.1 ih.2.2⟩

end Written

section Dump

variable {predicates : List Predicate} {types acc acc' : StringDict} {p : Predicate}

/-- The types after a predicate whose type is written beside it, unless they have its keyword already. -/
def declared (types acc : StringDict) (p : Predicate) : Option StringDict :=
  match types[p.keyword]? with
  | none => some acc
  | some t => if acc[p.keyword]? = none then some (acc.insert p.keyword t) else none

/-- No two predicates have one keyword that has a type. -/
def Unique (types : StringDict) (predicates : List Predicate) : Prop :=
  predicates.Pairwise fun p q => p.keyword = q.keyword → types[p.keyword]? = none

theorem foldlM_declared : (∃ acc', predicates.foldlM (declared types) acc = some acc') ↔
    Unique types predicates ∧ ∀ p ∈ predicates, types[p.keyword]? = none ∨ acc[p.keyword]? = none := by
  induction predicates generalizing acc with
  | nil => simp [Unique]
  | cons p ps ih =>
    rw [List.foldlM_cons, Unique, List.pairwise_cons]
    simp only [List.forall_mem_cons]
    cases ht : types[p.keyword]? with
    | none =>
      have hp : declared types acc p = some acc := by rw [declared, ht]
      rw [hp, Option.bind_eq_bind, Option.bind_some, ih]
      simp [Unique]
    | some t =>
      by_cases hnone : acc[p.keyword]? = none
      · have hp : declared types acc p = some (acc.insert p.keyword t) := by rw [declared, ht]; simp [hnone]
        rw [hp, Option.bind_eq_bind, Option.bind_some, ih]
        simp only [hnone, or_true, true_and, reduceCtorEq, imp_false]
        constructor
        · rintro ⟨hu, hall⟩
          refine ⟨⟨fun q hq hk => ?_, hu⟩, fun q hq => ?_⟩
          · have := hall q hq
            simp [← hk, ht] at this
          · refine (hall q hq).imp_right fun h => ?_
            by_cases hk : p.keyword = q.keyword
            · simp [hk] at h
            · simpa [Std.ExtTreeMap.getElem?_insert, hk] using h
        · rintro ⟨⟨hne, hu⟩, hall⟩
          refine ⟨hu, fun q hq => (hall q hq).imp_right fun h => ?_⟩
          simpa [Std.ExtTreeMap.getElem?_insert, hne q hq] using h
      · have hp : declared types acc p = none := by rw [declared, ht]; simp [hnone]
        rw [hp, Option.bind_eq_bind, Option.bind_none]
        simp [hnone]

theorem foldlM_declared_getElem? (h : predicates.foldlM (declared types) acc = some acc') (k : String) :
    acc'[k]? = if (∃ p ∈ predicates, p.keyword = k) ∧ types[k]? ≠ none then types[k]? else acc[k]? := by
  induction predicates generalizing acc with
  | nil =>
    obtain rfl : acc = acc' := by simpa using h
    simp
  | cons p ps ih =>
    rw [List.foldlM_cons, Option.bind_eq_bind, Option.bind_eq_some_iff] at h
    obtain ⟨next, hp, h⟩ := h
    rw [ih h, declared] at *
    simp only [List.mem_cons, exists_eq_or_imp]
    cases ht : types[p.keyword]? with
    | none =>
      obtain rfl : acc = next := by simpa [ht] using hp
      by_cases hk : p.keyword = k
      · subst hk
        simp [ht]
      · simp [hk]
    | some t =>
      obtain ⟨-, rfl⟩ : acc[p.keyword]? = none ∧ acc.insert p.keyword t = next := by simpa [ht] using hp
      by_cases hk : p.keyword = k
      · subst hk
        simp [ht]
      · simp [hk, Std.ExtTreeMap.getElem?_insert]

/-- The types that are declared again are those of the rule. -/
theorem Written.types_eq (h : Written predicates types) (hf : predicates.foldlM (declared types) ∅ = some acc) :
    acc = types := by
  refine Std.ExtTreeMap.ext_getElem? fun k => ?_
  rw [foldlM_declared_getElem? hf]
  cases ht : types[k]? with
  | none => simp
  | some t =>
    have := h.used k t ht
    simp [this]

theorem unique_iff :
    (∃ acc, predicates.foldlM (declared types) ∅ = some acc) ↔ Unique types predicates := by
  rw [foldlM_declared]
  simp

/-- What follows a predicate in a rule. -/
def Follows (rest : List Char) : Prop := ∃ c text, rest = c :: text ∧ (c = ',' ∨ c = '[' ∨ c = ']')

theorem Follows.stopped (h : Follows rest) : Stopped value rest := by
  obtain ⟨c, text, rfl, hc⟩ := h
  intro d hd
  obtain rfl : c = d := by simpa using hd
  rcases hc with rfl | rfl | rfl <;> exact .inl (by decide)

theorem stopped_cons (h : c ∈ stops) : Stopped value (c :: rest) := by
  intro d hd
  obtain rfl : c = d := by simpa using hd
  exact .inl h

theorem dumpValues_cons {v : String} {vs : List String} :
    dumpValues (v :: vs) = v.toList ++ vs.flatMap fun u => '/' :: u.toList := by
  induction vs generalizing v with
  | nil => simp [dumpValues]
  | cons u vs ih => simp [dumpValues, ih]

theorem ends_dumpValues {vs : List String} {values : Std.ExtTreeSet String} (hn : vs.length < n)
    (hv : ∀ u ∈ vs, Word true false u) (hf : Follows rest) {Q : Std.ExtTreeSet String → List Char → Prop}
    {E : Failure → List Char → Prop} :
    Ends (parseValues n values) ((vs.flatMap fun u => '/' :: u.toList) ++ rest) Q E ↔
      Q (vs.foldl (fun s v => s.insert v) values) rest := by
  induction vs generalizing n values with
  | nil =>
    obtain ⟨m, rfl⟩ := Nat.exists_eq_succ_of_ne_zero (Nat.ne_of_gt hn)
    obtain ⟨c, text, rfl, hc⟩ := hf
    have hne : c ≠ '/' := by rcases hc with rfl | rfl | rfl <;> decide
    rw [parseValues, ends_bind, ends_peek]
    simp [hne]
  | cons u vs ih =>
    obtain ⟨m, rfl⟩ := Nat.exists_eq_succ_of_ne_zero (Nat.ne_of_gt (Nat.zero_lt_of_lt hn))
    have hstop : Stopped true ((vs.flatMap fun u => '/' :: u.toList) ++ rest) := by
      cases vs with
      | nil => exact hf.stopped
      | cons _ _ => exact stopped_cons (by decide)
    rw [List.flatMap_cons, List.append_assoc, List.cons_append, parseValues, ends_bind, ends_peek, List.headD_cons,
      if_pos rfl, ends_bind, ends_consume_cons, ends_bind, ends_ident (hv u List.mem_cons_self).ident hstop,
      ih (by simpa using hn) fun w hw => hv w (List.mem_cons_of_mem u hw)]
    rfl

/-- What a matcher writes after the keyword. -/
def dumpMatcher : Matcher → List Char
  | .always => []
  | .value v => '=' :: v.toList
  | .any vs => '=' :: dumpValues vs
  | .optional d => '?' :: d.toList
  | .hidden d => '-' :: d.toList

theorem dump_eq : p.dump types = dumpType types p.keyword ++ dumpMatcher p.matcher := by
  unfold Predicate.dump dumpMatcher
  split <;> simp_all

theorem stopped_dumpMatcher {m : Matcher} (hf : Follows rest) : Stopped false (dumpMatcher m ++ rest) := by
  cases m with
  | always => exact hf.stopped
  | hidden d =>
    intro c hc
    obtain rfl : '-' = c := by simpa [dumpMatcher] using hc
    exact .inr ⟨rfl, rfl⟩
  | value v => exact stopped_cons (by decide)
  | any vs => exact stopped_cons (by decide)
  | optional d => exact stopped_cons (by decide)

theorem headD_dumpMatcher {m : Matcher} (hf : Follows rest) : (dumpMatcher m ++ rest).headD nul ≠ ':' := by
  cases m with
  | always =>
    obtain ⟨c, text, rfl, hc⟩ := hf
    rcases hc with rfl | rfl | rfl <;> simp [dumpMatcher]
  | _ => simp [dumpMatcher]

/-- The keyword and its type, as they are written, declare the type again. -/
theorem ends_dumpType {k : String} {α : Type} {f : String → StringDict → EStateM Failure (List Char) α}
    {Q : α → List Char → Prop} {E : Failure → List Char → Prop} (hk : Word false false k)
    (ht : ∀ t, types[k]? = some t → Word false false t) (hs : Stopped false rest) (hc : rest.headD nul ≠ ':')
    (hnone : types[k]? = none → Ends (f k acc) rest Q E)
    (hsome : ∀ t, types[k]? = some t → acc[k]? = none → Ends (f k (acc.insert k t)) rest Q E)
    (hclash : ∀ t e left, types[k]? = some t → acc[k]? ≠ none → E e left) :
    Ends (parseIdent false false >>= fun k => parseType k acc >>= f k) (dumpType types k ++ rest) Q E := by
  rw [dumpType, ends_bind]
  cases htype : types[k]? with
  | none =>
    rw [ends_ident hk.ident hs, ends_bind, parseType, ends_bind, ends_peek, if_neg hc, ends_pure]
    exact hnone htype
  | some t =>
    rw [List.append_assoc, List.cons_append, ends_ident hk.ident (stopped_cons (by decide)), ends_bind, parseType,
      ends_bind, ends_peek, List.headD_cons, if_pos rfl, ends_bind, ends_consume_cons, ends_bind, ends_ensure]
    refine ⟨fun hacc => ?_, fun hacc => hclash t _ _ htype hacc⟩
    rw [ends_bind, ends_ident (ht t htype).ident hs, ends_pure]
    exact hsome t htype hacc

theorem matcherOf_singleton {v : String} : matcherOf ((∅ : Std.ExtTreeSet String).insert v) = .value v := by
  have hsize : ((∅ : Std.ExtTreeSet String).insert v).toList.length = 1 := by
    rw [Std.ExtTreeSet.length_toList, Std.ExtTreeSet.size_insert]
    simp
  obtain ⟨u, hu⟩ := List.length_eq_one_iff.mp hsize
  have hmem : v ∈ ((∅ : Std.ExtTreeSet String).insert v).toList := by simp
  rw [hu, List.mem_singleton] at hmem
  rw [matcherOf, hu, hmem]

theorem length_dumpValues (vs : List String) : vs.length ≤ (vs.flatMap fun u => '/' :: u.toList).length := by
  induction vs with
  | nil => simp
  | cons u vs ih =>
    rw [List.flatMap_cons, List.length_append, List.length_cons, List.length_cons]
    omega

/-- The values that a predicate is written with. -/
theorem ends_dumpMatcher_values {k v : String} {vs : List String} {Q : Predicate × StringDict → List Char → Prop}
    {E : Failure → List Char → Prop} (hv : ∀ u ∈ v :: vs, Word true false u) (hf : Follows rest)
    (hQ : Q (⟨k, matcherOf (.ofList (v :: vs))⟩, acc) rest) :
    Ends (parseMatcher k acc) ('=' :: dumpValues (v :: vs) ++ rest) Q E := by
  have hstop : Stopped true ((vs.flatMap fun u => '/' :: u.toList) ++ rest) := by
    cases vs with
    | nil => exact hf.stopped
    | cons _ _ => exact stopped_cons (by decide)
  have hlen : vs.length < ((vs.flatMap fun u => '/' :: u.toList) ++ rest).length + 1 := by
    have := length_dumpValues vs
    rw [List.length_append]
    omega
  rw [parseMatcher, ends_bind, ends_peek, List.cons_append, List.headD_cons, if_neg (by decide), if_neg (by decide),
    if_pos (by decide), ends_bind, ends_consume_cons, dumpValues_cons, List.append_assoc, ends_bind,
    ends_ident (hv v List.mem_cons_self).ident hstop, ends_bind, ends_get, ends_bind,
    ends_dumpValues hlen (fun u hu => hv u (List.mem_cons_of_mem v hu)) hf, ends_pure]
  rwa [Std.ExtTreeSet.ofList_eq_foldl, List.foldl_cons] at hQ

theorem ends_dumpMatcher {Q : Predicate × StringDict → List Char → Prop} {E : Failure → List Char → Prop}
    (hm : Made p.matcher) (hh : ∀ d, p.matcher = .hidden d → acc[p.keyword]? ≠ none) (hf : Follows rest)
    (hQ : Q (p, acc) rest) : Ends (parseMatcher p.keyword acc) (dumpMatcher p.matcher ++ rest) Q E := by
  obtain ⟨k, m⟩ := p
  cases m with
  | always =>
    obtain ⟨c, text, rfl, hc⟩ := hf
    have h₁ : c ≠ '?' := by rcases hc with rfl | rfl | rfl <;> decide
    have h₂ : c ≠ '-' := by rcases hc with rfl | rfl | rfl <;> decide
    have h₃ : ¬ (c ≠ ',' ∧ c ≠ '[' ∧ c ≠ ']') := by rcases hc with rfl | rfl | rfl <;> decide
    have hempty : matcherOf ∅ = .always := rfl
    rw [parseMatcher, ends_bind, ends_peek, dumpMatcher, List.nil_append, List.headD_cons, if_neg h₁, if_neg h₂,
      if_neg h₃, ends_pure, hempty]
    exact hQ
  | value v =>
    have hv : ∀ u ∈ [v], Word true false u := by
      intro u hu
      rw [List.mem_singleton.mp hu]
      exact hm
    refine ends_dumpMatcher_values hv hf ?_
    rw [Std.ExtTreeSet.ofList_eq_foldl, List.foldl_cons, List.foldl_nil, matcherOf_singleton]
    exact hQ
  | any vs =>
    obtain ⟨hne, hv, hmatcher⟩ := hm
    obtain ⟨v, vs, rfl⟩ := List.exists_cons_of_ne_nil hne
    exact ends_dumpMatcher_values hv hf (hmatcher ▸ hQ)
  | optional d =>
    rw [parseMatcher, ends_bind, ends_peek, dumpMatcher, List.cons_append, List.headD_cons, if_pos rfl, ends_bind,
      ends_consume_cons, ends_bind, ends_ident (Word.ident hm) hf.stopped, ends_pure]
    exact hQ
  | hidden d =>
    rw [parseMatcher, ends_bind, ends_peek, dumpMatcher, List.cons_append, List.headD_cons, if_neg (by decide),
      if_pos rfl, ends_bind, ends_consume_cons, ends_bind, ends_ident (Word.ident hm) hf.stopped, ends_pure,
      if_neg (hh d rfl)]
    exact hQ

/-- A predicate is read again, unless it declares the type of its keyword again. -/
theorem ends_dumpPredicate (hw : Written predicates types) (hp : p ∈ predicates) (hf : Follows rest) :
    Ends (parsePredicate acc) (p.dump types ++ rest)
      (fun r left => declared types acc p = some r.2 ∧ r.1 = p ∧ left = rest)
      fun _ _ => declared types acc p = none := by
  rw [dump_eq, List.append_assoc, parsePredicate]
  apply ends_dumpType (hw.keyword p hp) (hw.type _) (stopped_dumpMatcher hf) (headD_dumpMatcher hf)
  · intro hnone
    apply ends_dumpMatcher (hw.matcher p hp) (fun d hd => absurd hnone (hw.hidden p hp d hd)) hf
    exact ⟨by rw [declared, hnone], rfl, rfl⟩
  · intro t ht hacc
    apply ends_dumpMatcher (hw.matcher p hp) (fun d hd => by simp) hf
    exact ⟨by simp [declared, ht, hacc], rfl, rfl⟩
  · intro t e left ht hacc
    simp [declared, ht, hacc]

/-- What follows the predicates of a rule. -/
def Closes (rest : List Char) : Prop := ∃ c text, rest = c :: text ∧ (c = '[' ∨ c = ']')

theorem Closes.follows (h : Closes rest) : Follows rest := by
  obtain ⟨c, text, rfl, hc⟩ := h
  exact ⟨c, text, rfl, .inr hc⟩

theorem ends_dumpPredicates {ps done : List Predicate} (hw : Written predicates types) (hps : ps ≠ [])
    (hsub : ∀ p ∈ ps, p ∈ predicates) (hf : Closes rest) :
    Ends (parsePredicates n done acc) (dumpPredicates types ps ++ rest)
      (fun r left => ps.foldlM (declared types) acc = some r.2 ∧ r.1 = done ++ ps ∧ left = rest)
      fun e _ => e = endless ∨ ps.foldlM (declared types) acc = none := by
  induction ps generalizing n done acc with
  | nil => exact absurd rfl hps
  | cons p ps ih =>
    cases n with
    | zero => exact .inl rfl
    | succ n =>
      have hp := hsub p List.mem_cons_self
      unfold parsePredicates
      cases ps with
      | nil =>
        have hpred : Ends (parsePredicate acc) (p.dump types ++ rest)
            (fun r left => declared types acc p = some r.2 ∧ r.1 = p ∧ left = rest)
            fun e _ => e = endless ∨ [p].foldlM (declared types) acc = none :=
          (ends_dumpPredicate hw hp hf.follows).mono (fun _ _ h => h) fun _ _ h => .inr (by simp [h])
        refine hpred.bind fun r left ⟨hr, hrp, hleft⟩ => ?_
        subst hleft
        obtain ⟨c, text, rfl, hc⟩ := hf
        have hne : c ≠ ',' := by rcases hc with rfl | rfl <;> decide
        rw [ends_bind, ends_peek, List.headD_cons, if_neg hne]
        exact ⟨by simp [hr], by rw [hrp], rfl⟩
      | cons q qs =>
        have hdump : dumpPredicates types (p :: q :: qs) ++ rest =
            p.dump types ++ (',' :: (dumpPredicates types (q :: qs) ++ rest)) := by
          simp [dumpPredicates]
        rw [hdump]
        have hpred : Ends (parsePredicate acc) (p.dump types ++ (',' :: (dumpPredicates types (q :: qs) ++ rest)))
            (fun r left => declared types acc p = some r.2 ∧ r.1 = p ∧ left = ',' :: (dumpPredicates types (q :: qs) ++ rest))
            fun e _ => e = endless ∨ (p :: q :: qs).foldlM (declared types) acc = none :=
          (ends_dumpPredicate hw hp ⟨',', _, rfl, .inl rfl⟩).mono (fun _ _ h => h) fun _ _ h => .inr (by
            rw [List.foldlM_cons, h]
            rfl)
        refine hpred.bind fun r left ⟨hr, hrp, hleft⟩ => ?_
        subst hleft
        rw [ends_bind, ends_peek, List.headD_cons, if_pos rfl, ends_bind, ends_consume_cons, List.foldlM_cons, hr]
        refine (ih (by simp) fun u hu => hsub u (List.mem_cons_of_mem p hu)).mono ?_ fun _ _ h => h
        rintro r' left ⟨hr', hdone, hleft⟩
        exact ⟨hr', by rw [hdone, hrp, List.append_assoc]; rfl, hleft⟩

/-- No rule has two predicates of one keyword that has a type. -/
inductive Distinct : ParsedRule → Prop
  | mk {predicates rules types} (own : Unique types predicates) (sub : ∀ r ∈ rules, Distinct r) :
    Distinct (.mk predicates rules types)

/-- A rule that is written out is read again if it is distinct, and only then. -/
def RuleAgain (n : Nat) : Prop := ∀ r rest, WellFormed r → Ends (parseRule n) (r.dump ++ rest)
  (fun r' left => Distinct r ∧ r' = r ∧ left = rest) fun e _ => e = endless ∨ ¬ Distinct r

def RulesAgain (n : Nat) : Prop := ∀ rules done rest, (∀ r ∈ rules, WellFormed r) → rest.headD nul ≠ '[' →
  Ends (parseRules n done) (dumpRules rules ++ rest)
    (fun rules' left => (∀ r ∈ rules, Distinct r) ∧ rules' = done ++ rules ∧ left = rest)
    fun e _ => e = endless ∨ ¬ ∀ r ∈ rules, Distinct r

theorem dump_cons {r : ParsedRule} : ∃ text, r.dump = '[' :: text := by
  cases r
  exact ⟨_, rfl⟩

theorem rulesAgain_succ (hr : RuleAgain n) (h : RulesAgain n) : RulesAgain (n + 1) := by
  intro rules done rest hwell hrest
  cases rules with
  | nil =>
    rw [dumpRules, List.nil_append, parseRules, ends_bind, ends_peek, if_neg hrest]
    exact ⟨by simp, by simp, rfl⟩
  | cons r rules =>
    obtain ⟨text, htext⟩ := @dump_cons r
    have hopen : (dumpRules (r :: rules) ++ rest).headD nul = '[' := by simp [dumpRules, htext]
    rw [parseRules, ends_bind, ends_peek, if_pos hopen, dumpRules, List.append_assoc]
    have hrule : Ends (parseRule n) (r.dump ++ (dumpRules rules ++ rest))
        (fun r' left => Distinct r ∧ r' = r ∧ left = dumpRules rules ++ rest)
        fun e _ => e = endless ∨ ¬ ∀ q ∈ r :: rules, Distinct q :=
      (hr r _ (hwell r List.mem_cons_self)).mono (fun _ _ h => h) fun _ _ he =>
        he.imp_right fun hno hall => hno (hall r List.mem_cons_self)
    refine hrule.bind fun r' left ⟨hd, hr', hleft⟩ => ?_
    subst hr' hleft
    refine (h rules _ rest (fun q hq => hwell q (List.mem_cons_of_mem _ hq)) hrest).mono ?_ fun _ _ he =>
      he.imp_right fun hno hall => hno fun q hq => hall q (List.mem_cons_of_mem _ hq)
    rintro rules' left ⟨hall, hrules, hleft⟩
    refine ⟨?_, by rw [hrules, List.append_assoc]; rfl, hleft⟩
    intro q hq
    rcases List.mem_cons.mp hq with rfl | hq
    · exact hd
    · exact hall q hq

theorem headD_dumpRules {rules : List ParsedRule} (h : rules ≠ []) : (dumpRules rules ++ rest).headD nul = '[' := by
  obtain ⟨r, rules, rfl⟩ := List.exists_cons_of_ne_nil h
  obtain ⟨text, htext⟩ := @dump_cons r
  simp [dumpRules, htext]

/-- The turn of the loop that reads the rules of a rule is its last. -/
theorem ends_bodyRules {rules : List ParsedRule} (h : RulesAgain n) (hne : rules ≠ [])
    (hwell : ∀ r ∈ rules, WellFormed r) : Ends (parseBody (n + 1) predicates [] types) (dumpRules rules ++ ']' :: rest)
      (fun r' left => (∀ r ∈ rules, Distinct r) ∧ r' = .mk predicates rules types ∧ left = rest)
      fun e _ => e = endless ∨ ¬ ∀ r ∈ rules, Distinct r := by
  rw [parseBody, ends_bind, ends_bind, ends_peek, headD_dumpRules hne, if_pos rfl, ends_bind]
  refine (h rules [] (']' :: rest) hwell (by simp)).mono ?_ fun _ _ h => h
  rintro rules' left ⟨hall, rfl, rfl⟩
  rw [ends_pure]
  dsimp only
  rw [ends_bind, ends_peek, List.headD_cons, if_pos rfl, ends_bind, ends_consume_cons]
  exact ⟨hall, rfl, rfl⟩

theorem headD_dumpPredicates {ps : List Predicate} (hw : Written predicates types) (hne : ps ≠ [])
    (hsub : ∀ p ∈ ps, p ∈ predicates) : (dumpPredicates types ps ++ rest).headD nul ∉ stops := by
  obtain ⟨p, ps, rfl⟩ := List.exists_cons_of_ne_nil hne
  have hword := hw.keyword p (hsub p List.mem_cons_self)
  obtain ⟨c, k, hk⟩ := List.exists_cons_of_ne_nil (hword.ident.nonempty rfl)
  have hc : c ∉ stops := hword.ident.plain c (by simp [hk])
  have hhead : ∃ text, dumpPredicates types (p :: ps) ++ rest = c :: text := by
    have htype : ∃ text, dumpType types p.keyword = c :: text := by
      rw [dumpType, hk]
      split <;> exact ⟨_, rfl⟩
    obtain ⟨text, htext⟩ := htype
    cases ps with
    | nil => exact ⟨_, by rw [dumpPredicates, dump_eq, htext]; rfl⟩
    | cons q ps => exact ⟨_, by simp only [dumpPredicates, dump_eq, htext, List.cons_append]; rfl⟩
  obtain ⟨text, htext⟩ := hhead
  rwa [htext]

theorem ruleAgain (h : ∀ m < n, RulesAgain m) : RuleAgain n := by
  intro r rest hwell
  obtain ⟨hw, hsub⟩ := hwell
  rename_i predicates rules types
  have hdistinct : Distinct (.mk predicates rules types) ↔ Unique types predicates ∧ ∀ r ∈ rules, Distinct r :=
    ⟨fun ⟨own, sub⟩ => ⟨own, sub⟩, fun ⟨own, sub⟩ => .mk own sub⟩
  cases n with
  | zero => exact .inl rfl
  | succ n =>
    have hdump : (ParsedRule.mk predicates rules types).dump ++ rest =
        '[' :: (dumpPredicates types predicates ++ (dumpRules rules ++ ']' :: rest)) := by
      simp [ParsedRule.dump]
    rw [hdump, parseRule, ends_bind, ends_consume_cons, ends_bind, ends_peek]
    by_cases hps : predicates = []
    · subst hps
      obtain rfl : ∅ = types := hw.types_eq rfl
      rw [dumpPredicates, List.nil_append]
      by_cases hrs : rules = []
      · subst hrs
        rw [dumpRules, List.nil_append, List.headD_cons, if_pos rfl, ends_bind, ends_consume_cons]
        exact ⟨hdistinct.mpr ⟨.nil, by simp⟩, rfl, rfl⟩
      · rw [headD_dumpRules hrs, if_neg (by decide)]
        cases n with
        | zero => exact .inl rfl
        | succ n =>
          refine (ends_bodyRules (h n (by omega)) hrs hsub).mono ?_ fun _ _ he =>
            he.imp_right fun hno hd => hno (hdistinct.mp hd).2
          rintro r' left ⟨hall, rfl, rfl⟩
          exact ⟨hdistinct.mpr ⟨.nil, hall⟩, rfl, rfl⟩
    · have hhead := @headD_dumpPredicates (dumpRules rules ++ ']' :: rest) _ _ _ hw hps fun _ h => h
      have hclose : (dumpPredicates types predicates ++ (dumpRules rules ++ ']' :: rest)).headD nul ≠ ']' := by
        intro h
        rw [h] at hhead
        exact hhead (by decide)
      have hopen : (dumpPredicates types predicates ++ (dumpRules rules ++ ']' :: rest)).headD nul ≠ '[' := by
        intro h
        rw [h] at hhead
        exact hhead (by decide)
      rw [if_neg hclose]
      cases n with
      | zero => exact .inl rfl
      | succ n =>
        have hf : Closes (dumpRules rules ++ ']' :: rest) := by
          cases rules with
          | nil => exact ⟨']', rest, rfl, .inr rfl⟩
          | cons r rules =>
            obtain ⟨text, htext⟩ := @dump_cons r
            exact ⟨'[', _, by rw [dumpRules, htext]; rfl, .inl rfl⟩
        rw [parseBody, ends_bind, ends_bind, ends_peek, if_neg hopen, ends_bind]
        refine (ends_dumpPredicates hw hps (fun _ h => h) hf).mono ?_ fun _ _ he => he.imp_right fun hno hd => ?_
        · rintro ⟨ps, acc⟩ left ⟨hacc, hdone, rfl⟩
          have hunique := unique_iff.mp ⟨acc, hacc⟩
          obtain rfl := hw.types_eq hacc
          obtain rfl : predicates = ps := hdone.symm
          rw [ends_pure]
          dsimp only
          rw [ends_bind, ends_peek]
          by_cases hrs : rules = []
          · subst hrs
            rw [dumpRules, List.nil_append, List.headD_cons, if_pos rfl, ends_bind, ends_consume_cons]
            exact ⟨hdistinct.mpr ⟨hunique, by simp⟩, rfl, rfl⟩
          · rw [headD_dumpRules hrs, if_neg (by decide)]
            cases n with
            | zero => exact .inl rfl
            | succ n =>
              refine (ends_bodyRules (h n (by omega)) hrs hsub).mono ?_ fun _ _ he =>
                he.imp_right fun hno hd => hno (hdistinct.mp hd).2
              rintro r' left ⟨hall, rfl, rfl⟩
              exact ⟨hdistinct.mpr ⟨hunique, hall⟩, rfl, rfl⟩
        · obtain ⟨acc, hacc⟩ := unique_iff.mpr (hdistinct.mp hd).1
          rw [hacc] at hno
          cases hno

theorem again (n : Nat) : RuleAgain n ∧ RulesAgain n := by
  induction n using Nat.strongRecOn with
  | ind n ih =>
    refine ⟨ruleAgain fun m hm => (ih m hm).2, ?_⟩
    cases n with
    | zero => exact fun _ _ _ _ _ => .inl rfl
    | succ n => exact rulesAgain_succ (ih n (by omega)).1 (ih n (by omega)).2

end Dump

section Significant

variable {predicates : List Predicate} {types : StringDict} {p : Predicate} {l : List Char}

theorem plain_significant : ∀ comment, Plain (significant comment text) := by
  induction text with
  | nil => exact fun _ c hc => absurd hc List.not_mem_nil
  | cons c text ih =>
    intro comment
    rw [significant]
    split
    · exact ih _
    · split
      · exact ih _
      next hhash =>
        split
        · exact ih _
        next hblank =>
          intro d hd
          rcases List.mem_cons.mp hd with rfl | hd
          · exact ⟨by simpa using hblank, hhash⟩
          · exact ih false d hd

theorem significant_append (h : Plain l) : significant false (l ++ text) = l ++ significant false text := by
  induction l with
  | nil => rfl
  | cons c l ih =>
    obtain ⟨hblank, hhash⟩ := h c List.mem_cons_self
    rw [List.cons_append, significant, if_neg (by decide), if_neg hhash, if_neg (by simp [hblank]),
      ih fun d hd => h d (List.mem_cons_of_mem c hd)]
    rfl

theorem significant_newline : significant false ('\n' :: text) = significant false text := by
  rw [significant, if_neg (by decide), if_neg (by decide), if_pos (by decide)]

theorem Plain.append {l' : List Char} (h : Plain l) (h' : Plain l') : Plain (l ++ l') := by
  intro c hc
  rcases List.mem_append.mp hc with hc | hc
  · exact h c hc
  · exact h' c hc

theorem Plain.cons (hc : isBlank c = false ∧ c ≠ '#') (h : Plain l) : Plain (c :: l) := by
  intro d hd
  rcases List.mem_cons.mp hd with rfl | hd
  · exact hc
  · exact h d hd

theorem plain_nil : Plain [] := fun _ h => absurd h List.not_mem_nil

theorem plain_dumpValues {vs : List String} (h : ∀ v ∈ vs, Word true false v) : Plain (dumpValues vs) := by
  cases vs with
  | nil => exact plain_nil
  | cons v vs =>
    rw [dumpValues_cons]
    refine (h v List.mem_cons_self).plain.append fun c hc => ?_
    obtain ⟨u, hu, hcu⟩ := List.mem_flatMap.mp hc
    rcases List.mem_cons.mp hcu with rfl | hcu
    · decide
    · exact (h u (List.mem_cons_of_mem v hu)).plain c hcu

theorem plain_dumpPredicate (hw : Written predicates types) (hp : p ∈ predicates) : Plain (p.dump types) := by
  rw [dump_eq]
  have htype : Plain (dumpType types p.keyword) := by
    rw [dumpType]
    split
    next t ht => exact (hw.keyword p hp).plain.append (.cons (by decide) (hw.type _ t ht).plain)
    · exact (hw.keyword p hp).plain
  have hm := hw.matcher p hp
  refine htype.append ?_
  cases hmatcher : p.matcher with
  | always => exact plain_nil
  | value v =>
    rw [hmatcher] at hm
    exact .cons (by decide) (Word.plain hm)
  | any vs =>
    rw [hmatcher] at hm
    exact .cons (by decide) (plain_dumpValues hm.2.1)
  | optional d =>
    rw [hmatcher] at hm
    exact .cons (by decide) (Word.plain hm)
  | hidden d =>
    rw [hmatcher] at hm
    exact .cons (by decide) (Word.plain hm)

theorem plain_dumpPredicates {ps : List Predicate} (hw : Written predicates types)
    (hsub : ∀ p ∈ ps, p ∈ predicates) : Plain (dumpPredicates types ps) := by
  induction ps with
  | nil => exact plain_nil
  | cons p ps ih =>
    have hp := plain_dumpPredicate hw (hsub p List.mem_cons_self)
    have hps := ih fun q hq => hsub q (List.mem_cons_of_mem p hq)
    cases ps with
    | nil => exact hp
    | cons q ps => exact hp.append (.cons (by decide) hps)

mutual
theorem plain_dump : (r : ParsedRule) → WellFormed r → Plain r.dump
  | .mk predicates rules types, h => by
    obtain ⟨hw, hsub⟩ := h
    rw [ParsedRule.dump]
    exact .cons (by decide) ((plain_dumpPredicates hw fun _ h => h).append
      ((plain_dumpRules rules hsub).append (.cons (by decide) plain_nil)))

theorem plain_dumpRules : (rules : List ParsedRule) → (∀ r ∈ rules, WellFormed r) → Plain (dumpRules rules)
  | [], _ => plain_nil
  | r :: rules, h => (plain_dump r (h r List.mem_cons_self)).append
    (plain_dumpRules rules fun q hq => h q (List.mem_cons_of_mem r hq))
end

end Significant

section Schema

variable {types acc : StringDict} {s : ParsedSchema}

/-- A schema that a text may give. -/
structure Wrote (s : ParsedSchema) : Prop where
  types : ∀ k t : String, s.types[k]? = some t → Word false false k ∧ Word false false t
  rules : ∀ r ∈ s.rules, WellFormed r

theorem Word.of_ne_empty {name : String} (h : Word false true name) (hne : name ≠ "") : Word false false name := by
  refine ⟨⟨h.ident.plain, h.ident.name, fun _ hnil => hne ?_, fun _ hfirst => ?_⟩, h.plain⟩
  · rw [← String.toList_inj, hnil]
    rfl
  · exact h.ident.name rfl (List.mem_of_mem_head? hfirst)

theorem ends_parseTypes (h : Plain text)
    (ht : ∀ k t : String, types[k]? = some t → Word false false k ∧ Word false false t) :
    Ends (parseTypes n types) text (fun types' rest =>
      (∀ k t : String, types'[k]? = some t → Word false false k ∧ Word false false t) ∧ rest <:+ text)
      fun e _ => text.length < n → e ≠ endless := by
  induction n generalizing text types with
  | zero =>
    intro hn
    omega
  | succ n ih =>
    have hident {text' : List Char} (h : Plain text') (value emptyOK : Bool) : Ends (parseIdent value emptyOK) text'
        (fun t rest => Word value emptyOK t ∧ rest <:+ text' ∧ (emptyOK = false → rest.length < text'.length))
        fun e _ => text.length < n + 1 → e ≠ endless := (ends_word h).mono (fun _ _ h => h) fun _ _ h _ => h
    rw [parseTypes]
    refine (hident h false true).bind fun name rest ⟨hname, hrest, _⟩ => ?_
    rw [ends_ite]
    refine ⟨fun _ => ⟨ht, hrest⟩, fun hne => ?_⟩
    rw [ends_bind]
    refine ends_consume (fun left hleft => ?_) fun _ h _ => h
    have hl : left <:+ text := .trans ⟨[':'], by simp [hleft]⟩ hrest
    refine (hident (h.suffix hl) false false).bind fun type more ⟨htype, hmore, hlen⟩ => ?_
    rw [ends_bind]
    refine ends_consume (fun last hlast => ?_) fun _ h _ => h
    have hs : last <:+ text := .trans ⟨[';'], by simp [hlast]⟩ (hmore.trans hl)
    rw [ends_bind, ends_ensure]
    refine ⟨fun hnone => ?_, fun _ _ => by simp [endless]⟩
    have hall : ∀ k t : String, (types.insert name type)[k]? = some t → Word false false k ∧ Word false false t := by
      intro k t hkt
      by_cases hk : name = k
      · subst hk
        obtain rfl : type = t := by simpa using hkt
        exact ⟨hname.of_ne_empty hne, htype⟩
      · exact ht k t (by simpa [Std.ExtTreeMap.getElem?_insert, hk] using hkt)
    refine (ih (h.suffix hs) hall).mono (fun _ left' ⟨hw, hl'⟩ => ⟨hw, hl'.trans hs⟩) fun e _ he hn => he ?_
    have h₁ := hlen rfl
    have h₂ := hl.length_le
    simp only [hlast, List.length_cons] at h₁
    omega

/-- What is read of any text, with turns enough for its length. -/
theorem ends_parseSchema (h : Plain text) : Ends (parseSchema n) text (fun s _ => Wrote s)
    fun e _ => 3 * text.length + 2 < n → e ≠ endless := by
  rw [parseSchema]
  have htypes : Ends (parseTypes n ∅) text (fun types rest =>
      (∀ k t : String, types[k]? = some t → Word false false k ∧ Word false false t) ∧ rest <:+ text)
      fun e _ => 3 * text.length + 2 < n → e ≠ endless :=
    (ends_parseTypes h (by simp)).mono (fun _ _ h => h) fun _ _ he hn => he (by omega)
  refine htypes.bind fun types rest ⟨ht, hrest⟩ => ?_
  have hrules : Ends (parseRules n []) rest (fun rules _ => ∀ r ∈ rules, WellFormed r)
      fun e _ => 3 * text.length + 2 < n → e ≠ endless := by
    have hlen := hrest.length_le
    exact ((made n).2.1 rest [] (h.suffix hrest) (by simp)).mono (fun _ _ h => h.1) fun _ _ he hn => he (by omega)
  refine hrules.bind fun rules left hwell => ?_
  rw [ends_bind, ends_peek, ends_ite]
  exact ⟨fun _ _ => by simp [endless], fun _ => ⟨ht, hwell⟩⟩

/-- What `Schema::dump` writes, without the ends of lines. -/
def dumpSignificant (s : ParsedSchema) : List Char :=
  s.types.toList.flatMap (fun kv => kv.1.toList ++ ':' :: kv.2.toList ++ [';']) ++ dumpRules s.rules

theorem significant_dump (h : Wrote s) : significant false s.dump.toList = dumpSignificant s := by
  have htypes : ∀ l : List (String × String), (∀ kv ∈ l, kv ∈ s.types.toList) → ∀ text,
      significant false (l.flatMap (fun kv => kv.1.toList ++ ':' :: kv.2.toList ++ [';', '\n']) ++ text) =
        l.flatMap (fun kv => kv.1.toList ++ ':' :: kv.2.toList ++ [';']) ++ significant false text := by
    intro l hl text
    induction l with
    | nil => rfl
    | cons kv l ih =>
      obtain ⟨hk, ht⟩ := h.types kv.1 kv.2 (Std.ExtTreeMap.mem_toList_iff_getElem?_eq_some.mp (hl kv List.mem_cons_self))
      have hplain : Plain (kv.1.toList ++ ':' :: kv.2.toList ++ [';']) :=
        (hk.plain.append (.cons (by decide) ht.plain)).append (.cons (by decide) plain_nil)
      have hsplit : (kv :: l).flatMap (fun kv => kv.1.toList ++ ':' :: kv.2.toList ++ [';', '\n']) ++ text =
          (kv.1.toList ++ ':' :: kv.2.toList ++ [';']) ++ ('\n' ::
            (l.flatMap (fun kv => kv.1.toList ++ ':' :: kv.2.toList ++ [';', '\n']) ++ text)) := by
        simp
      rw [hsplit, significant_append hplain, significant_newline, ih fun e he => hl e (List.mem_cons_of_mem kv he)]
      simp
  have hrules : ∀ rules : List ParsedRule, (∀ r ∈ rules, WellFormed r) →
      significant false (rules.flatMap fun r => r.dump ++ ['\n']) = dumpRules rules := by
    intro rules hwell
    induction rules with
    | nil => rfl
    | cons r rules ih =>
      have hsplit : ((r :: rules).flatMap fun r => r.dump ++ ['\n']) =
          r.dump ++ ('\n' :: rules.flatMap fun r => r.dump ++ ['\n']) := by
        simp
      rw [hsplit, significant_append (plain_dump r (hwell r List.mem_cons_self)), significant_newline,
        ih fun q hq => hwell q (List.mem_cons_of_mem r hq), dumpRules]
  rw [ParsedSchema.dump, String.toList_ofList, htypes _ fun _ h => h, hrules _ h.rules]
  rfl

theorem ends_dumpTypes {l : List (String × String)} (hl : (l.map Prod.fst).Nodup)
    (hacc : ∀ kv ∈ l, acc[kv.1]? = none) (hword : ∀ kv ∈ l, Word false false kv.1 ∧ Word false false kv.2)
    (hrest : Stopped false rest) :
    Ends (parseTypes n acc) (l.flatMap (fun kv => kv.1.toList ++ ':' :: kv.2.toList ++ [';']) ++ rest)
      (fun types left => types = l.foldl (fun a kv => a.insert kv.1 kv.2) acc ∧ left = rest) fun e _ => e = endless := by
  induction n generalizing l acc with
  | zero => exact rfl
  | succ n ih =>
    rw [parseTypes, ends_bind]
    cases l with
    | nil =>
      have hident : Ident false true "".toList := ⟨by simp, by simp, by simp, by simp⟩
      have hends := (ends_ident (Q := fun name left => Ends (if name = "" then return acc else do
        consume ':'
        let type ← parseIdent false false
        consume ';'
        ensure (acc[name]? = none) "types.find(name) == types.end()"
        parseTypes n (acc.insert name type)) left (fun types left => types = acc ∧ left = rest) fun e _ => e = endless)
        (E := fun e _ => e = endless) hident hrest).mpr ⟨rfl, rfl⟩
      exact hends
    | cons kv l =>
      obtain ⟨hk, ht⟩ := hword kv List.mem_cons_self
      obtain ⟨hnew, hnodup⟩ := List.nodup_cons.mp hl
      have hsplit : (kv :: l).flatMap (fun kv => kv.1.toList ++ ':' :: kv.2.toList ++ [';']) ++ rest =
          kv.1.toList ++ (':' :: (kv.2.toList ++ (';' ::
            (l.flatMap (fun kv => kv.1.toList ++ ':' :: kv.2.toList ++ [';']) ++ rest)))) := by
        simp
      have hident : Ident false true kv.1.toList := ⟨hk.ident.plain, hk.ident.name, by simp, by simp⟩
      have hne : kv.1 ≠ "" := fun h => hk.ident.nonempty rfl (by rw [h]; rfl)
      rw [hsplit, ends_ident hident (stopped_cons (by decide)), if_neg hne, ends_bind, ends_consume_cons, ends_bind,
        ends_ident ht.ident (stopped_cons (by decide)), ends_bind, ends_consume_cons, ends_bind, ends_ensure]
      refine ⟨fun _ => ?_, fun h => absurd (hacc kv List.mem_cons_self) h⟩
      refine ih hnodup (fun e he => ?_) fun e he => hword e (List.mem_cons_of_mem kv he)
      have hke : ¬ kv.1 = e.1 := fun h => hnew (h ▸ List.mem_map_of_mem he)
      simpa [Std.ExtTreeMap.getElem?_insert, hke] using hacc e (List.mem_cons_of_mem kv he)

theorem ends_dumpSchema (h : Wrote s) : Ends (parseSchema n) (dumpSignificant s)
    (fun s' _ => (∀ r ∈ s.rules, Distinct r) ∧ s' = s) fun e _ => e = endless ∨ ¬ ∀ r ∈ s.rules, Distinct r := by
  have hstop : Stopped false (dumpRules s.rules) := by
    cases s.rules with
    | nil =>
      intro c hc
      cases hc
    | cons r rules =>
      obtain ⟨text, htext⟩ := @dump_cons r
      rw [dumpRules, htext]
      exact stopped_cons (by decide)
  have hword : ∀ kv ∈ s.types.toList, Word false false kv.1 ∧ Word false false kv.2 :=
    fun kv hkv => h.types kv.1 kv.2 (Std.ExtTreeMap.mem_toList_iff_getElem?_eq_some.mp hkv)
  have hnodup : (s.types.toList.map Prod.fst).Nodup :=
    List.pairwise_map.mpr (Std.ExtTreeMap.distinct_keys_toList.imp fun h => by simpa using h)
  have htypes : Ends (parseTypes n ∅) (dumpSignificant s) (fun types left => types = s.types ∧ left = dumpRules s.rules)
      fun e _ => e = endless ∨ ¬ ∀ r ∈ s.rules, Distinct r := by
    refine (ends_dumpTypes hnodup (by simp) hword hstop).mono (fun types left ⟨ht, hl⟩ => ⟨?_, hl⟩) fun _ _ he => .inl he
    rw [ht, ← Std.ExtTreeMap.ofList_eq_foldl, LastWins.ofList_toList]
  rw [parseSchema]
  refine htypes.bind fun types left ⟨ht, hl⟩ => ?_
  subst ht hl
  have hrules := (again n).2 s.rules [] [] h.rules (by decide)
  rw [List.append_nil] at hrules
  refine hrules.bind fun rules left ⟨hall, hr, hl⟩ => ?_
  subst hr hl
  rw [ends_bind, ends_peek, List.headD_nil, if_neg (by simp), ends_pure]
  exact ⟨hall, rfl⟩

theorem wrote_parse {text : String} (h : parse text = .ok s) : Wrote s := by
  obtain ⟨t, hrun⟩ := value_eq_ok.mp h
  exact (ends_parseSchema (plain_significant false)).ok hrun

/-- The text of a schema, written out, is parsed to the same schema exactly when no rule of it has two predicates of
one keyword that has a type there. -/
theorem parse_dump_iff {text : String} (h : parse text = .ok s) :
    parse s.dump = .ok s ↔ ∀ r ∈ s.rules, Distinct r := by
  have hw := wrote_parse h
  have hchars := significant_dump hw
  have hplain : Plain (dumpSignificant s) := hchars ▸ plain_significant false
  have hagain : Ends (parseSchema (3 * (dumpSignificant s).length + 3)) (dumpSignificant s)
      (fun s' _ => (∀ r ∈ s.rules, Distinct r) ∧ s' = s) fun _ _ => ¬ ∀ r ∈ s.rules, Distinct r := by
    refine ((ends_dumpSchema hw).and (ends_parseSchema hplain)).mono (fun _ _ h => h.1) fun e _ ⟨he, hfuel⟩ => ?_
    exact he.resolve_left (hfuel (by omega))
  rw [parse, hchars, value_eq_ok]
  constructor
  · rintro ⟨t, hrun⟩
    exact (hagain.ok hrun).1
  · intro hall
    obtain ⟨s', t, hrun, -, rfl⟩ := (hagain.mono (fun _ _ h => h) fun _ _ hno => hno hall).returns
    exact ⟨t, hrun⟩

section Sample

/-- A schema with each kind of matcher, and with types of its own and of a rule. -/
def sampleSchema : ParsedSchema where
  types := (∅ : StringDict).insert "step" "Step"
  rules := [.mk [⟨"class", .value "od"⟩, ⟨"expver", .optional "0001"⟩]
    [.mk [⟨"type", .any ["an", "fc"]⟩, ⟨"stream", .hidden "oper"⟩] [.mk [⟨"step", .always⟩] [] ∅]
      (((∅ : StringDict).insert "type" "T").insert "stream" "Ignore")] ∅]

def sampleText : String :=
  "step : Step;\n[class=od, expver?0001 # a database\n [type:T=an/fc, stream-oper [step]]]"

theorem parse_dump_sample : parse sampleText = .ok sampleSchema ∧ parse sampleSchema.dump = .ok sampleSchema := by
  have hparse : parse sampleText = .ok sampleSchema := by decide +kernel
  refine ⟨hparse, (parse_dump_iff hparse).mpr ?_⟩
  intro r hr
  obtain rfl := List.mem_singleton.mp hr
  refine .mk (by simp [Unique]) fun r hr => ?_
  obtain rfl := List.mem_singleton.mp hr
  refine .mk (by simp [Unique]) fun r hr => ?_
  obtain rfl := List.mem_singleton.mp hr
  exact .mk (by simp [Unique]) (by simp)

/-- A keyword that is typed in one predicate and named in another. -/
def typedTwice : ParsedSchema where
  types := ∅
  rules := [.mk [⟨"class", .always⟩, ⟨"class", .always⟩] [] ((∅ : StringDict).insert "class" "Expver")]

/-- Its type is written with both predicates. -/
theorem typed_twice_not_parsed : parse "[class:Expver,class]" = .ok typedTwice ∧
    parse typedTwice.dump = .error (.assertion "types.find(k) == types.end()") := by
  constructor
  · decide +kernel
  · decide +kernel

end Sample

end Schema

end SchemaParser

end Fdb5
