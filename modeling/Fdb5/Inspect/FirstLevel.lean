import Fdb5.Inspect.Backtracking
import Fdb5.Toc.Listing

/-! First-level keys of a request: the one it expands to and the ones it matches. -/
namespace Fdb5

open Effect

section Model

variable (absent : String → Failure)

/-- `Matcher::values(request, keyword)`; for a keyword that it does not have `MarsRequest::values` throws `absent`. -/
def Matcher.values (m : Matcher) (rq : MarsRequest) (keyword : String) : Except Failure (List String) :=
  match m with
  | .hidden d => .ok [d]
  | .optional d => if rq.has keyword then .ok (rq.values keyword) else .ok [d]
  | _ => if rq.has keyword then .ok (rq.values keyword) else .error (absent keyword)

def Predicate.values (p : Predicate) (rq : MarsRequest) : Except Failure (List String) :=
  p.matcher.values absent rq p.keyword

namespace Rule

/-- The loop of `Rule::expandFirstLevel` over the values of a predicate; `inner` goes on with the next predicate. -/
def tryValues (p : Predicate) (inner : Key → Bool → Except Failure (Key × Bool)) :
    List String → Key → Bool → Except Failure (Key × Bool)
  | [], result, found => .ok (result, found)
  | value :: rest, result, found => do
    let result := result.push p.keyword value
    let (result, found) ← if p.accepts result then inner result found else pure (result, found)
    if !found then
      let result ← result.pop p.keyword
      tryValues p inner rest result found
    else return (result, found)

/-- `Rule::expandFirstLevel(rq, cur, result, found)`. -/
def expandFirstLevelFrom (rq : MarsRequest) : List Predicate → Key → Bool → Except Failure (Key × Bool)
  | [], result, _ => .ok (result, true)
  | p :: next, result, found => do
    let values ← p.values absent rq
    tryValues p (expandFirstLevelFrom rq next) values result found

def expandFirstLevel (rq : MarsRequest) (r : Rule) (result : Key) (done : Bool) : Except Failure (Key × Bool) :=
  expandFirstLevelFrom absent rq r.predicates result done

/-- `std::set<Key>::insert`: keys are ordered by their maps. -/
def insertKey (k : Key) (result : List Key) : List Key :=
  if k.keys ∈ result.map Key.keys then result else result ++ [k]

/-- `Rule::matchFirstLevel(request, cur, tmp, result, missing)`. -/
def matchFirstLevelFrom (rq : MarsRequest) (missing : String) :
    List Predicate → Key × List Key → Except Failure (Key × List Key)
  | [], (tmp, result) => .ok (tmp, insertKey tmp result)
  | p :: next, (tmp, result) =>
    if rq.has p.keyword then do
      let values ← p.values absent rq
      values.foldlM (fun (tmp, result) value => do
        let tmp := tmp.push p.keyword value
        let (tmp, result) ← if p.accepts tmp then matchFirstLevelFrom rq missing next (tmp, result)
          else pure (tmp, result)
        return (← tmp.pop p.keyword, result)) (tmp, result)
    else do
      let (tmp, result) ← matchFirstLevelFrom rq missing next (tmp.push p.keyword missing, result)
      return (← tmp.pop p.keyword, result)

def matchFirstLevel (rq : MarsRequest) (missing : String) (r : Rule) (result : List Key) : Except Failure (List Key) :=
  Prod.snd <$> matchFirstLevelFrom absent rq missing r.predicates ({ registry := some r.registry }, result)

end Rule

namespace Schema

/-- The loop of `Schema::expandFirstLevel` over the rules. -/
def expandFirstLevelRules (rq : MarsRequest) : List Rule → Key → Except Failure (Key × Bool)
  | [], result => .ok (result, false)
  | r :: rest, result => do
    let (result, found) ← r.expandFirstLevel absent rq result false
    if found then return ({ result with registry := some r.registry }, true)
    else expandFirstLevelRules rq rest result

def expandFirstLevel (rq : MarsRequest) (s : Schema) (result : Key) : Except Failure (Key × Bool) :=
  expandFirstLevelRules absent rq s.rules result

def matchFirstLevel (rq : MarsRequest) (missing : String) (s : Schema) (result : List Key) :
    Except Failure (List Key) :=
  s.rules.foldlM (fun result r => r.matchFirstLevel absent rq missing result) result

end Schema

end Model

/-- What a rule's keywords can be filled with: the values on offer for a predicate, and whether they are matched. -/
structure Offer where
  values : Predicate → List String
  matched : Predicate → Bool

namespace Offer

/-- The request's own values, defaults where an optional keyword is absent and for hidden keywords, and nothing where
another keyword is absent. -/
def given (rq : MarsRequest) (p : Predicate) : List String :=
  match p.matcher with
  | .hidden d => [d]
  | .optional d => if rq.has p.keyword then rq.values p.keyword else [d]
  | _ => rq.values p.keyword

def expansion (rq : MarsRequest) : Offer where
  values := given rq
  matched _ := true

/-- Absent keywords are left as missing, and a missing value is not matched. -/
def matching (rq : MarsRequest) (missing : String) : Offer where
  values p := if rq.has p.keyword then given rq p else [missing]
  matched p := rq.has p.keyword

end Offer

/-- The key is a choice for the rule: it has the rule's keywords and no others, each with a value on offer, and all of
its predicates match. -/
structure Rule.Choice (o : Offer) (r : Rule) (k : Key) : Prop where
  keywords : k.Exactly r.keywords
  offered : ∀ p ∈ r.predicates, ∃ value ∈ o.values p, k.find p.keyword = some value
  accepts : ∀ p ∈ r.predicates, o.matched p → p.accepts k

section Search

variable {absent : String → Failure} {rq : MarsRequest} {missing : String} {o : Offer} {ps next : List Predicate}
variable {p : Predicate} {k k' k'' : Key} {value : String} {r : Rule}

/-- What a search can push for the predicates, one value after the other. -/
def Offer.Pushes (o : Offer) : List Predicate → Key → Key → Prop
  | [], k, k' => k' = k
  | p :: next, k, k' => ∃ value ∈ o.values p, (o.matched p → p.accepts (k.push p.keyword value)) ∧
      o.Pushes next (k.push p.keyword value) k'

/-- A predicate looks at the value of its own keyword. -/
theorem accepts_push (h : k.find p.keyword = some value) : p.accepts (k'.push p.keyword value) = p.accepts k :=
  Predicate.accepts_congr ((Key.find_push ..).trans h.symm)

/-- Keywords that a key does not have are new after another one is pushed. -/
theorem not_mem_push (hnodup : p.keyword ∉ next.map (·.keyword)) (hnew : ∀ q ∈ next, q.keyword ∉ k.keys)
    (value : String) : ∀ q ∈ next, q.keyword ∉ (k.push p.keyword value).keys := by
  intro q hq hin
  rcases Key.mem_push.mp hin with heq | hin
  · exact hnodup (heq ▸ List.mem_map_of_mem hq)
  · exact hnew q hq hin

theorem Offer.Pushes.frame (h : o.Pushes ps k k') :
    k'.names = k.names ++ ps.map (·.keyword) ∧ k'.registry = k.registry ∧ k'.canonical = k.canonical ∧
      ∀ keyword ∉ ps.map (·.keyword), k'.find keyword = k.find keyword := by
  induction ps generalizing k with
  | nil =>
    obtain rfl := h
    simp
  | cons p next ih =>
    obtain ⟨value, -, -, h⟩ := h
    obtain ⟨hnames, hregistry, hcanonical, hfind⟩ := ih h
    refine ⟨by simp [hnames], hregistry, hcanonical, fun keyword hk => ?_⟩
    rw [List.map_cons, List.mem_cons, not_or] at hk
    rw [hfind keyword hk.2, Key.find_push_eq, if_neg (Ne.symm hk.1)]

/-- With distinct keywords each keeps the value that was pushed for it. -/
theorem Offer.Pushes.values (hnodup : (ps.map (·.keyword)).Nodup) (h : o.Pushes ps k k') :
    ∀ p ∈ ps, (∃ value ∈ o.values p, k'.find p.keyword = some value) ∧ (o.matched p → p.accepts k') := by
  induction ps generalizing k with
  | nil => simp
  | cons p next ih =>
    obtain ⟨value, hvalue, haccepts, h⟩ := h
    rw [List.map_cons, List.nodup_cons] at hnodup
    have hfind : k'.find p.keyword = some value := by
      rw [h.frame.2.2.2 p.keyword hnodup.1, Key.find_push]
    rw [List.forall_mem_cons]
    refine ⟨⟨⟨value, hvalue, hfind⟩, fun hmatched => ?_⟩, ih hnodup.2 h⟩
    have hsame : p.accepts (k.push p.keyword value) = p.accepts k' := accepts_push hfind
    rw [← hsame]
    exact haccepts hmatched

/-- A key with values on offer is found by pushing them. -/
theorem Offer.pushes_of (h : ∀ p ∈ ps, (∃ value ∈ o.values p, k.find p.keyword = some value) ∧
    (o.matched p → p.accepts k)) (k₀ : Key) :
    ∃ k', o.Pushes ps k₀ k' ∧ ∀ p ∈ ps, k'.find p.keyword = k.find p.keyword := by
  induction ps generalizing k₀ with
  | nil => exact ⟨k₀, rfl, by simp⟩
  | cons p next ih =>
    rw [List.forall_mem_cons] at h
    obtain ⟨⟨⟨value, hvalue, hfind⟩, haccepts⟩, hnext⟩ := h
    obtain ⟨k', hpushes, hsame⟩ := ih hnext (k₀.push p.keyword value)
    refine ⟨k', ⟨value, hvalue, fun hmatched => ?_, hpushes⟩, ?_⟩
    · rw [accepts_push hfind]
      exact haccepts hmatched
    · rw [List.forall_mem_cons]
      refine ⟨?_, hsame⟩
      by_cases hp : p.keyword ∈ next.map (·.keyword)
      · obtain ⟨p', hp', hkeyword⟩ := List.mem_map.mp hp
        rw [← hkeyword, hsame p' hp']
      · rw [hpushes.frame.2.2.2 p.keyword hp, Key.find_push, hfind]

/-- A predicate that cannot do without its keyword, which the request does not have. -/
def Predicate.Wanting (rq : MarsRequest) (p : Predicate) : Prop := ¬ p.isOptional ∧ ¬ rq.has p.keyword

theorem MarsRequest.values_of_not_has {keyword : String} (h : ¬ rq.has keyword) : rq.values keyword = [] := by
  rw [MarsRequest.has, Bool.not_eq_true, Option.isSome_eq_false_iff, Option.isNone_iff_eq_none] at h
  rw [MarsRequest.values, h]
  rfl

theorem Predicate.values_eq (p : Predicate) :
    (p.Wanting rq ∧ p.values absent rq = .error (absent p.keyword)) ∨
      (¬ p.Wanting rq ∧ p.values absent rq = .ok (Offer.given rq p)) := by
  obtain ⟨keyword, matcher⟩ := p
  cases matcher with
  | hidden d => exact .inr ⟨fun h => h.1 rfl, rfl⟩
  | optional d =>
    refine .inr ⟨fun h => h.1 rfl, ?_⟩
    simp only [values, Matcher.values, Offer.given]
    split <;> rfl
  | _ =>
    by_cases h : rq.has keyword
    · exact .inr ⟨fun hw => hw.2 h, by simp [values, Matcher.values, Offer.given, h]⟩
    · exact .inl ⟨⟨by simp [isOptional, Matcher.isOptional], h⟩, by simp [values, Matcher.values, h]⟩

theorem Predicate.Wanting.given_eq (h : p.Wanting rq) : Offer.given rq p = [] := by
  obtain ⟨hoptional, hhas⟩ := h
  obtain ⟨keyword, matcher⟩ := p
  cases matcher with
  | hidden d => exact absurd rfl hoptional
  | optional d => exact absurd rfl hoptional
  | _ => exact MarsRequest.values_of_not_has hhas

/-- A search that comes to a predicate whose keyword is wanting. -/
def Stuck (rq : MarsRequest) : List Predicate → Key → Prop
  | [], _ => False
  | p :: next, k => p.Wanting rq ∨ ∃ value ∈ Offer.given rq p, p.accepts (k.push p.keyword value) ∧
      Stuck rq next (k.push p.keyword value)

/-- How a search from the key ends: it has found a key, or is stuck, or has found that neither can be and left the key
as it was. -/
def Ending (x : Except Failure (Key × Bool)) (k : Key) (F : Key → Prop) (S : Prop) : Prop :=
  match x with
  | .ok (k', true) => F k'
  | .error _ => S
  | .ok (k', false) => k' = k ∧ (∀ k', ¬ F k') ∧ ¬ S

theorem Ending.congr {x : Except Failure (Key × Bool)} {F F' : Key → Prop} {S S' : Prop} (h : Ending x k F S)
    (hF : ∀ k', F k' ↔ F' k') (hS : S ↔ S') : Ending x k F' S' := by
  have hF : F = F' := funext fun k' => propext (hF k')
  rwa [← hF, ← propext hS]

namespace Rule

theorem tryValues_cons {inner : Key → Bool → Except Failure (Key × Bool)} {rest : List String} :
    tryValues p inner (value :: rest) k false =
      (if p.accepts (k.push p.keyword value) then inner (k.push p.keyword value) false
        else .ok (k.push p.keyword value, false)) >>= fun r =>
          if r.2 then .ok (r.1, true) else r.1.pop p.keyword >>= fun k' => tryValues p inner rest k' false := by
  rw [tryValues]
  split
  · cases inner (k.push p.keyword value) false with
    | error e => rfl
    | ok r =>
      obtain ⟨k', found⟩ := r
      cases found <;> rfl
  · rfl

/-- The values are tried up to the first that leads to an end, or to a predicate that is stuck. -/
theorem tryValues_outcome {inner : Key → Bool → Except Failure (Key × Bool)} {F : String → Key → Prop}
    {S : String → Prop} (hnew : p.keyword ∉ k.keys)
    (hinner : ∀ value, Ending (inner (k.push p.keyword value) false) (k.push p.keyword value) (F value) (S value))
    (values : List String) : Ending (tryValues p inner values k false) k
      (fun k' => ∃ value ∈ values, p.accepts (k.push p.keyword value) ∧ F value k')
      (∃ value ∈ values, p.accepts (k.push p.keyword value) ∧ S value) := by
  induction values with
  | nil => exact ⟨rfl, by simp, by simp⟩
  | cons value rest ih =>
    have hstep := hinner value
    have hnext (hno : p.accepts (k.push p.keyword value) → (∀ k', ¬ F value k') ∧ ¬ S value) :
        Ending (tryValues p inner rest k false) k
          (fun k' => ∃ v ∈ value :: rest, p.accepts (k.push p.keyword v) ∧ F v k')
          (∃ v ∈ value :: rest, p.accepts (k.push p.keyword v) ∧ S v) := by
      apply ih.congr
      · intro k'
        constructor
        · exact fun ⟨v, hv, h⟩ => ⟨v, .tail _ hv, h⟩
        · rintro ⟨v, hv, h⟩
          rcases List.mem_cons.mp hv with rfl | hv
          · exact absurd h.2 ((hno h.1).1 k')
          · exact ⟨v, hv, h⟩
      · constructor
        · exact fun ⟨v, hv, h⟩ => ⟨v, .tail _ hv, h⟩
        · rintro ⟨v, hv, h⟩
          rcases List.mem_cons.mp hv with rfl | hv
          · exact absurd h.2 (hno h.1).2
          · exact ⟨v, hv, h⟩
    rw [tryValues_cons]
    by_cases haccepts : p.accepts (k.push p.keyword value) = true
    · rw [if_pos haccepts]
      cases hinner : inner (k.push p.keyword value) false with
      | error e =>
        rw [hinner] at hstep
        exact ⟨value, List.mem_cons_self, haccepts, hstep⟩
      | ok r =>
        obtain ⟨k', found⟩ := r
        rw [hinner] at hstep
        cases found with
        | true => exact ⟨value, List.mem_cons_self, haccepts, hstep⟩
        | false =>
          obtain ⟨rfl, hno⟩ := hstep
          change Ending (Key.pop _ _ >>= _) _ _ _
          rw [Key.pop_push hnew]
          change Ending (tryValues p inner rest k false) _ _ _
          exact hnext fun _ => hno
    · rw [if_neg haccepts]
      change Ending (Key.pop _ _ >>= _) _ _ _
      rw [Key.pop_push hnew]
      change Ending (tryValues p inner rest k false) _ _ _
      exact hnext fun h => absurd h haccepts

/-- The search over the predicates ends in a key that can be pushed, or is stuck, or leaves the key. -/
theorem expandFirstLevelFrom_outcome (hnodup : (ps.map (·.keyword)).Nodup) (hnew : ∀ p ∈ ps, p.keyword ∉ k.keys) :
    Ending (expandFirstLevelFrom absent rq ps k false) k ((Offer.expansion rq).Pushes ps k) (Stuck rq ps k) := by
  induction ps generalizing k with
  | nil => exact rfl
  | cons p next ih =>
    rw [List.map_cons, List.nodup_cons] at hnodup
    rw [List.forall_mem_cons] at hnew
    rw [expandFirstLevelFrom]
    rcases @p.values_eq absent rq with ⟨hwanting, hvalues⟩ | ⟨hwanting, hvalues⟩
    · rw [hvalues]
      exact .inl hwanting
    · rw [hvalues]
      have hinner (value : String) := ih hnodup.2 (not_mem_push hnodup.1 hnew.2 value)
      apply (tryValues_outcome hnew.1 hinner (Offer.given rq p)).congr
      · intro k'
        simp [Offer.Pushes, Offer.expansion]
      · rw [Stuck]
        exact (or_iff_right hwanting).symm

/-- The keys that can be pushed from an empty one are the choices for the rule. -/
theorem choice_of_pushes (hnodup : r.keywords.Nodup) (hk : k.Exactly []) (h : o.Pushes r.predicates k k') :
    r.Choice o k' where
  keywords := by
    refine ⟨by rw [h.frame.1, hk.named]; rfl, fun keyword => ?_⟩
    by_cases hmem : keyword ∈ r.keywords
    · obtain ⟨p, hp, rfl⟩ := List.mem_map.mp hmem
      obtain ⟨⟨value, -, hfind⟩, -⟩ := h.values hnodup p hp
      have hsome : (k'.find p.keyword).isSome := Option.isSome_iff_exists.mpr ⟨value, hfind⟩
      exact iff_of_true (Std.ExtTreeMap.isSome_getElem?_iff_mem.mp hsome) hmem
    · have hnone : k'.find keyword = none := by
        rw [h.frame.2.2.2 keyword hmem]
        exact Std.ExtTreeMap.getElem?_eq_none fun hin => by simpa using (hk.keys keyword).mp hin
      refine iff_of_false (fun hin => ?_) hmem
      have hsome := Std.ExtTreeMap.isSome_getElem?_iff_mem.mpr hin
      rw [show k'.keys[keyword]? = none from hnone] at hsome
      cases hsome
  offered p hp := (h.values hnodup p hp).1
  accepts p hp := (h.values hnodup p hp).2

theorem Choice.pushes (hk : k.Exactly []) (h : r.Choice o k') :
    ∃ k'', o.Pushes r.predicates k k'' ∧ k''.keys = k'.keys := by
  obtain ⟨k'', hpushes, hsame⟩ := Offer.pushes_of (fun p hp => ⟨h.offered p hp, h.accepts p hp⟩) k
  refine ⟨k'', hpushes, Std.ExtTreeMap.ext_getElem? fun keyword => ?_⟩
  by_cases hmem : keyword ∈ r.keywords
  · obtain ⟨p, hp, rfl⟩ := List.mem_map.mp hmem
    exact hsame p hp
  · have hnone : k.find keyword = none :=
      Std.ExtTreeMap.getElem?_eq_none fun hin => by simpa using (hk.keys keyword).mp hin
    exact ((hpushes.frame.2.2.2 keyword hmem).trans hnone).trans
      (Std.ExtTreeMap.getElem?_eq_none fun hin => hmem ((h.keywords.keys keyword).mp hin)).symm

/-- The values for the predicates before one can be chosen, and the request does not have its keyword. -/
def Wanting (rq : MarsRequest) (r : Rule) : Prop :=
  ∃ before p after, r.predicates = before ++ p :: after ∧ p.Wanting rq ∧
    ∃ k : Key, ∀ q ∈ before, (∃ value ∈ Offer.given rq q, k.find q.keyword = some value) ∧ q.accepts k

theorem stuck_iff : Stuck rq ps k ↔ ∃ before p after, ps = before ++ p :: after ∧ p.Wanting rq ∧
    ∃ k', (Offer.expansion rq).Pushes before k k' := by
  induction ps generalizing k with
  | nil => simp [Stuck]
  | cons q next ih =>
    rw [Stuck]
    constructor
    · rintro (hq | ⟨value, hvalue, haccepts, hstuck⟩)
      · exact ⟨[], q, next, rfl, hq, k, rfl⟩
      · obtain ⟨before, p, after, rfl, hp, k', hk'⟩ := ih.mp hstuck
        exact ⟨q :: before, p, after, rfl, hp, k', value, hvalue, fun _ => haccepts, hk'⟩
    · rintro ⟨before, p, after, heq, hp, k', hk'⟩
      cases before with
      | nil =>
        obtain ⟨rfl, -⟩ := List.cons.inj heq
        exact .inl hp
      | cons q' before =>
        obtain ⟨rfl, rfl⟩ := List.cons.inj heq
        obtain ⟨value, hvalue, haccepts, hk'⟩ := hk'
        exact .inr ⟨value, hvalue, haccepts rfl, ih.mpr ⟨before, p, after, rfl, hp, k', hk'⟩⟩

theorem wanting_iff (hnodup : r.keywords.Nodup) : r.Wanting rq ↔ Stuck rq r.predicates k := by
  rw [stuck_iff]
  refine exists_congr fun before => exists_congr fun p => exists_congr fun after => and_congr_right fun heq => ?_
  refine and_congr_right fun _ => ⟨fun ⟨k', hk'⟩ => ?_, fun ⟨k', hk'⟩ => ⟨k', fun q hq => ?_⟩⟩
  · have hbefore : ∀ q ∈ before, (∃ value ∈ (Offer.expansion rq).values q, k'.find q.keyword = some value) ∧
        ((Offer.expansion rq).matched q → q.accepts k') := fun q hq => ⟨(hk' q hq).1, fun _ => (hk' q hq).2⟩
    obtain ⟨k'', hk'', -⟩ := Offer.pushes_of hbefore k
    exact ⟨k'', hk''⟩
  · rw [keywords, heq, List.map_append, List.nodup_append] at hnodup
    obtain ⟨hoffered, haccepts⟩ := hk'.values hnodup.1 q hq
    exact ⟨hoffered, haccepts rfl⟩

theorem Wanting.no_choice (h : r.Wanting rq) : ¬ r.Choice (.expansion rq) k := by
  obtain ⟨before, p, after, heq, hp, -⟩ := h
  intro hchoice
  obtain ⟨value, hvalue, -⟩ := hchoice.offered p (by simp [heq])
  have hgiven : value ∈ Offer.given rq p := hvalue
  rw [hp.given_eq] at hgiven
  cases hgiven

/-- A rule expands to a choice, or it is wanting and throws, or neither can be and the key is as it was. -/
theorem expandFirstLevel_outcome (hnodup : r.keywords.Nodup) (hk : k.Exactly []) :
    Ending (r.expandFirstLevel absent rq k false) k
      (fun k' => r.Choice (.expansion rq) k' ∧ (Offer.expansion rq).Pushes r.predicates k k') (r.Wanting rq) := by
  have hnew : ∀ p ∈ r.predicates, p.keyword ∉ k.keys := fun p _ hin => by simpa using (hk.keys p.keyword).mp hin
  apply (expandFirstLevelFrom_outcome hnodup hnew).congr
  · exact fun k' => ⟨fun h => ⟨choice_of_pushes hnodup hk h, h⟩, fun h => h.2⟩
  · exact (wanting_iff hnodup).symm

end Rule

/-- The first of the rules that is wanting or has a choice is like this. -/
def First (rq : MarsRequest) (rules : List Rule) (P : Rule → Prop) : Prop :=
  ∃ pre r post, rules = pre ++ r :: post ∧
    (∀ r' ∈ pre, (∀ k, ¬ r'.Choice (.expansion rq) k) ∧ ¬ r'.Wanting rq) ∧ P r

theorem first_cons {rules : List Rule} {P : Rule → Prop} :
    First rq (r :: rules) P ↔ P r ∨ ((∀ k, ¬ r.Choice (.expansion rq) k) ∧ ¬ r.Wanting rq) ∧ First rq rules P := by
  constructor
  · rintro ⟨pre, r', post, heq, hpre, hr'⟩
    cases pre with
    | nil =>
      obtain ⟨rfl, rfl⟩ := List.cons.inj heq
      exact .inl hr'
    | cons q pre =>
      obtain ⟨rfl, rfl⟩ := List.cons.inj heq
      rw [List.forall_mem_cons] at hpre
      exact .inr ⟨hpre.1, pre, r', post, rfl, hpre.2, hr'⟩
  · rintro (hr | ⟨hno, pre, r', post, rfl, hpre, hr'⟩)
    · exact ⟨[], r, rules, rfl, by simp, hr⟩
    · exact ⟨r :: pre, r', post, rfl, List.forall_mem_cons.mpr ⟨hno, hpre⟩, hr'⟩

theorem Rule.Choice.setRegistry {registry : Option TypesRegistry} (h : r.Choice o k) :
    r.Choice o { k with registry := registry } where
  keywords := ⟨h.keywords.named, h.keywords.keys⟩
  offered := h.offered
  accepts p hp hmatched := by
    have hsame : p.accepts { k with registry := registry } = p.accepts k := Predicate.accepts_congr rfl
    exact hsame.trans (h.accepts p hp hmatched)

theorem expandFirstLevelRules_outcome {rules : List Rule} (hnodup : ∀ r ∈ rules, r.keywords.Nodup)
    (hk : k.Exactly []) :
    Ending (Schema.expandFirstLevelRules absent rq rules k) k
      (fun k' => First rq rules fun r => r.Choice (.expansion rq) k' ∧ k'.registry = some r.registry)
      (First rq rules (·.Wanting rq)) := by
  induction rules with
  | nil => exact ⟨rfl, by simp [First], by simp [First]⟩
  | cons r rest ih =>
    rw [List.forall_mem_cons] at hnodup
    have hrule : Ending (r.expandFirstLevel absent rq k false) k _ _ := Rule.expandFirstLevel_outcome hnodup.1 hk
    rw [Schema.expandFirstLevelRules]
    cases hrun : r.expandFirstLevel absent rq k false with
    | error e =>
      rw [hrun] at hrule
      exact first_cons.mpr (.inl hrule)
    | ok result =>
      obtain ⟨k', found⟩ := result
      rw [hrun] at hrule
      cases found with
      | true => exact first_cons.mpr (.inl ⟨hrule.1.setRegistry, rfl⟩)
      | false =>
        obtain ⟨rfl, hchoice, hwanting⟩ := hrule
        have hchoice : ∀ k, ¬ r.Choice (.expansion rq) k := by
          intro k hk'
          obtain ⟨k'', hpushes, -⟩ := hk'.pushes hk
          exact hchoice k'' ⟨Rule.choice_of_pushes hnodup.1 hk hpushes, hpushes⟩
        apply (ih hnodup.2).congr
        · exact fun k' => (first_cons.trans ((or_iff_right fun h => hchoice k' h.1).trans
            (and_iff_right ⟨hchoice, hwanting⟩))).symm
        · exact (first_cons.trans ((or_iff_right hwanting).trans (and_iff_right ⟨hchoice, hwanting⟩))).symm

/-- Of two rules that each are the first, none is before the other. -/
theorem First.unique {rules : List Rule} {P Q : Rule → Prop}
    (hP : ∀ r, P r → r.Wanting rq ∨ ∃ k, r.Choice (.expansion rq) k)
    (hQ : ∀ r, Q r → r.Wanting rq ∨ ∃ k, r.Choice (.expansion rq) k) (h : First rq rules P) (h' : First rq rules Q) :
    ∃ r, P r ∧ Q r := by
  have hnot (P : Rule → Prop) (hP : ∀ r, P r → r.Wanting rq ∨ ∃ k, r.Choice (.expansion rq) k) (r : Rule) (hr : P r)
      (hno : (∀ k, ¬ r.Choice (.expansion rq) k) ∧ ¬ r.Wanting rq) : False :=
    (hP r hr).elim hno.2 fun ⟨k, hk⟩ => hno.1 k hk
  induction rules with
  | nil =>
    obtain ⟨pre, r, post, heq, -⟩ := h
    simp at heq
  | cons r rest ih =>
    rcases first_cons.mp h with hr | ⟨hno, h⟩ <;> rcases first_cons.mp h' with hr' | ⟨hno', h'⟩
    · exact ⟨r, hr, hr'⟩
    · exact (hnot P hP r hr hno').elim
    · exact (hnot Q hQ r hr' hno).elim
    · exact ih h h'

/-- The outcome of the expansion, said of what it returns. -/
theorem expandFirstLevel_iff {s : Schema} (hnodup : ∀ r ∈ s.rules, r.keywords.Nodup) (hk : k.Exactly []) :
    ((∃ key, s.expandFirstLevel absent rq k = .ok (key, true)) ↔
      First rq s.rules fun r => ∃ key, r.Choice (.expansion rq) key) ∧
    (∀ key, s.expandFirstLevel absent rq k = .ok (key, true) →
      First rq s.rules fun r => r.Choice (.expansion rq) key ∧ key.registry = some r.registry) ∧
    ((∃ e, s.expandFirstLevel absent rq k = .error e) ↔ First rq s.rules (·.Wanting rq)) ∧
    ∀ key, s.expandFirstLevel absent rq k = .ok (key, false) → key = k := by
  have h : Ending (s.expandFirstLevel absent rq k) k _ _ := expandFirstLevelRules_outcome hnodup hk
  have hfound {key : Key}
      (hkey : First rq s.rules fun r => r.Choice (.expansion rq) key ∧ key.registry = some r.registry) :
      First rq s.rules fun r => ∃ key, r.Choice (.expansion rq) key := by
    obtain ⟨pre, r, post, heq, hpre, hr⟩ := hkey
    exact ⟨pre, r, post, heq, hpre, key, hr.1⟩
  have hkey (hfirst : First rq s.rules fun r => ∃ key, r.Choice (.expansion rq) key) :
      ∃ key, First rq s.rules fun r => r.Choice (.expansion rq) key ∧ key.registry = some r.registry := by
    obtain ⟨pre, r, post, heq, hpre, key, hr⟩ := hfirst
    exact ⟨{ key with registry := some r.registry }, pre, r, post, heq, hpre, hr.setRegistry, rfl⟩
  have hnever (hfirst : First rq s.rules fun r => ∃ key, r.Choice (.expansion rq) key)
      (hwanting : First rq s.rules (·.Wanting rq)) : False := by
    obtain ⟨r, ⟨key, hr⟩, hw⟩ := hfirst.unique (fun _ h => .inr h) (fun _ h => .inl h) hwanting
    exact hw.no_choice hr
  cases hrun : s.expandFirstLevel absent rq k with
  | error e =>
    rw [hrun] at h
    simp only [reduceCtorEq, exists_false, false_iff, false_implies, implies_true, true_and, Except.error.injEq,
      exists_eq', true_iff, and_true]
    exact ⟨fun hfirst => hnever hfirst h, h⟩
  | ok result =>
    obtain ⟨key, found⟩ := result
    rw [hrun] at h
    cases found with
    | true =>
      refine ⟨iff_of_true ⟨key, rfl⟩ (hfound h), fun key' he => ?_, iff_of_false (by simp) (hnever (hfound h)), by simp⟩
      obtain ⟨rfl, -⟩ := Prod.mk.inj (Except.ok.inj he)
      exact h
    | false =>
      obtain ⟨rfl, hno, hwanting⟩ := h
      refine ⟨iff_of_false (by simp) fun hfirst => ?_, by simp, iff_of_false (by simp) hwanting, fun key' he => ?_⟩
      · obtain ⟨key, hkey⟩ := hkey hfirst
        exact hno key hkey
      · exact (Prod.mk.inj (Except.ok.inj he)).1.symm

/-- The keys of a set after a search that adds these to it. -/
structure Collects (before after : List Key) (S : Key → Prop) : Prop where
  kept : before ⊆ after
  only : ∀ k ∈ after, k ∈ before ∨ S k
  all : ∀ k, S k → ∃ k' ∈ after, k'.keys = k.keys
  once : (before.map Key.keys).Nodup → (after.map Key.keys).Nodup

theorem Collects.nil {l : List Key} : Collects l l fun _ => False :=
  ⟨fun _ h => h, fun _ h => .inl h, fun _ h => h.elim, id⟩

theorem Collects.trans {l l' l'' : List Key} {S S' : Key → Prop} (h : Collects l l' S) (h' : Collects l' l'' S') :
    Collects l l'' fun k => S k ∨ S' k where
  kept _ hk := h'.kept (h.kept hk)
  only k hk := by
    rcases h'.only k hk with hk | hk
    · exact (h.only k hk).imp_right .inl
    · exact .inr (.inr hk)
  all k hk := by
    rcases hk with hk | hk
    · obtain ⟨k', hk', heq⟩ := h.all k hk
      exact ⟨k', h'.kept hk', heq⟩
    · exact h'.all k hk
  once hnodup := h'.once (h.once hnodup)

theorem Collects.congr {l l' : List Key} {S S' : Key → Prop} (h : Collects l l' S) (hS : ∀ k, S k ↔ S' k) :
    Collects l l' S' := by
  rwa [← show S = S' from funext fun k => propext (hS k)]

theorem collects_insertKey {l : List Key} : Collects l (Rule.insertKey k l) fun k' => k' = k := by
  rw [Rule.insertKey]
  split
  next hmem =>
    refine ⟨fun _ h => h, fun _ h => .inl h, ?_, id⟩
    rintro _ rfl
    exact List.mem_map.mp hmem
  next hmem =>
    refine ⟨List.subset_append_left _ _, fun k' hk' => ?_, ?_, fun hnodup => ?_⟩
    · exact (List.mem_append.mp hk').imp_right List.mem_singleton.mp
    · rintro _ rfl
      exact ⟨_, by simp, rfl⟩
    · rw [List.map_append, List.nodup_append]
      refine ⟨hnodup, by simp, fun a ha b hb he => hmem ?_⟩
      obtain rfl : b = k.keys := by simpa using hb
      exact he ▸ ha

/-- A value for a predicate adds what follows from it, if it is matched, and is popped again. -/
theorem matchTurn_collects {inner : Key × List Key → Except Failure (Key × List Key)} {S : Key → Prop}
    (hnew : p.keyword ∉ k.keys) {l : List Key}
    (hinner : ∀ l, ∃ l', inner (k.push p.keyword value, l) = .ok (k.push p.keyword value, l') ∧ Collects l l' S) :
    ∃ l', (do
      let (tmp, result) ← if p.accepts (k.push p.keyword value) then inner (k.push p.keyword value, l)
        else pure (k.push p.keyword value, l)
      return (← tmp.pop p.keyword, result) : Except Failure (Key × List Key)) = .ok (k, l') ∧
      Collects l l' fun k' => p.accepts (k.push p.keyword value) ∧ S k' := by
  by_cases haccepts : p.accepts (k.push p.keyword value) = true
  · obtain ⟨l', hl', hcollects⟩ := hinner l
    refine ⟨l', ?_, hcollects.congr fun _ => (and_iff_right haccepts).symm⟩
    rw [if_pos haccepts, hl']
    change (do return (← (k.push p.keyword value).pop p.keyword, l') : Except Failure (Key × List Key)) = _
    rw [Key.pop_push hnew]
    rfl
  · refine ⟨l, ?_, Collects.nil.congr fun _ => iff_of_false id fun h => haccepts h.1⟩
    rw [if_neg haccepts]
    change (do return (← (k.push p.keyword value).pop p.keyword, l) : Except Failure (Key × List Key)) = _
    rw [Key.pop_push hnew]
    rfl

/-- The values are tried one after the other, each from the same key. -/
theorem matchValues_collects {inner : Key × List Key → Except Failure (Key × List Key)} {S : String → Key → Prop}
    (hnew : p.keyword ∉ k.keys) (hinner : ∀ value l, ∃ l',
      inner (k.push p.keyword value, l) = .ok (k.push p.keyword value, l') ∧ Collects l l' (S value))
    (values : List String) (l : List Key) : ∃ l', values.foldlM (fun (tmp, result) value => do
        let tmp := tmp.push p.keyword value
        let (tmp, result) ← if p.accepts tmp then inner (tmp, result) else pure (tmp, result)
        return (← tmp.pop p.keyword, result)) (k, l) = Except.ok (k, l') ∧
      Collects l l' fun k' => ∃ value ∈ values, p.accepts (k.push p.keyword value) ∧ S value k' := by
  induction values generalizing l with
  | nil => exact ⟨l, rfl, Collects.nil.congr fun _ => by simp⟩
  | cons value rest ih =>
    obtain ⟨l₁, hl₁, hcollects₁⟩ := matchTurn_collects hnew (l := l) (hinner value)
    obtain ⟨l₂, hl₂, hcollects₂⟩ := ih l₁
    refine ⟨l₂, ?_, (hcollects₁.trans hcollects₂).congr fun k' => by simp⟩
    rw [List.foldlM_cons]
    simp only
    rw [hl₁]
    exact hl₂

/-- The search adds the keys that can be pushed, and leaves its own key as it was. -/
theorem matchFirstLevelFrom_collects (hnodup : (ps.map (·.keyword)).Nodup) (hnew : ∀ p ∈ ps, p.keyword ∉ k.keys)
    (l : List Key) : ∃ l', Rule.matchFirstLevelFrom absent rq missing ps (k, l) = .ok (k, l') ∧
      Collects l l' ((Offer.matching rq missing).Pushes ps k) := by
  induction ps generalizing k l with
  | nil => exact ⟨_, rfl, collects_insertKey⟩
  | cons p next ih =>
    rw [List.map_cons, List.nodup_cons] at hnodup
    rw [List.forall_mem_cons] at hnew
    have hinner (value : String) (l : List Key) := ih hnodup.2 (not_mem_push hnodup.1 hnew.2 value) l
    rw [Rule.matchFirstLevelFrom]
    by_cases hhas : rq.has p.keyword = true
    · have hvalues : p.values absent rq = .ok (Offer.given rq p) :=
        (p.values_eq.resolve_left fun h => h.1.2 hhas).2
      obtain ⟨l', hl', hcollects⟩ := matchValues_collects hnew.1 hinner (Offer.given rq p) l
      refine ⟨l', ?_, hcollects.congr fun k' => ?_⟩
      · rw [if_pos hhas, hvalues]
        exact hl'
      · simp [Offer.Pushes, Offer.matching, hhas]
    · obtain ⟨l', hl', hcollects⟩ := hinner missing l
      refine ⟨l', ?_, hcollects.congr fun k' => ?_⟩
      · rw [if_neg hhas, hl']
        change (do return (← (k.push p.keyword missing).pop p.keyword, l') : Except Failure (Key × List Key)) = _
        rw [Key.pop_push hnew.1]
        rfl
      · simp [Offer.Pushes, Offer.matching, hhas]

theorem matchFirstLevel_collects {rules : List Rule} (hnodup : ∀ r ∈ rules, r.keywords.Nodup) (l : List Key) :
    ∃ l', rules.foldlM (fun result r => r.matchFirstLevel absent rq missing result) l = .ok l' ∧
      Collects l l' fun k => ∃ r ∈ rules,
        (Offer.matching rq missing).Pushes r.predicates { registry := some r.registry } k := by
  induction rules generalizing l with
  | nil => exact ⟨l, rfl, Collects.nil.congr fun _ => by simp⟩
  | cons r rest ih =>
    rw [List.forall_mem_cons] at hnodup
    obtain ⟨l₁, hl₁, hcollects₁⟩ := @matchFirstLevelFrom_collects absent rq missing _ { registry := some r.registry }
      hnodup.1 (fun p _ => Std.ExtTreeMap.not_mem_empty) l
    obtain ⟨l₂, hl₂, hcollects₂⟩ := ih hnodup.2 l₁
    refine ⟨l₂, ?_, (hcollects₁.trans hcollects₂).congr fun k => by simp⟩
    rw [List.foldlM_cons, Rule.matchFirstLevel, hl₁]
    exact hl₂

theorem matchFirstLevel_iff {s : Schema} (hnodup : ∀ r ∈ s.rules, r.keywords.Nodup) :
    ∃ out, s.matchFirstLevel absent rq missing [] = .ok out ∧ (out.map Key.keys).Nodup ∧
      (∀ k ∈ out, ∃ r ∈ s.rules, r.Choice (.matching rq missing) k ∧ k.registry = some r.registry) ∧
      ∀ r ∈ s.rules, ∀ k, r.Choice (.matching rq missing) k → ∃ k' ∈ out, k'.keys = k.keys := by
  obtain ⟨out, hout, hcollects⟩ := @matchFirstLevel_collects absent rq missing s.rules hnodup []
  have hblank (registry : TypesRegistry) : Key.Exactly [] { registry := some registry } := ⟨rfl, fun _ => by simp⟩
  refine ⟨out, hout, hcollects.once List.nodup_nil, fun k hk => ?_, fun r hr k hk => ?_⟩
  · obtain ⟨r, hr, hpushes⟩ := (hcollects.only k hk).resolve_left List.not_mem_nil
    exact ⟨r, hr, Rule.choice_of_pushes (hnodup r hr) (hblank _) hpushes, hpushes.frame.2.1⟩
  · obtain ⟨k', hpushes, hkeys⟩ := hk.pushes (hblank r.registry)
    obtain ⟨k'', hk'', heq⟩ := hcollects.all k' ⟨r, hr, hpushes⟩
    exact ⟨k'', hk'', heq.trans hkeys⟩

end Search

/-- Of rules that name each keyword once, a request expands to a choice for the first rule that has one, unless a rule
before it wants a keyword that the request does not have; and it matches the keys of all choices in which absent keywords
are missing. -/
theorem firstLevel_exact (absent : String → Failure) (rq : MarsRequest) {s : Schema}
    (hnodup : ∀ r ∈ s.rules, r.keywords.Nodup) :
    (∀ k : Key, k.Exactly [] →
      ((∃ key, s.expandFirstLevel absent rq k = .ok (key, true)) ↔
        First rq s.rules fun r => ∃ key, r.Choice (.expansion rq) key) ∧
      (∀ key, s.expandFirstLevel absent rq k = .ok (key, true) →
        First rq s.rules fun r => r.Choice (.expansion rq) key ∧ key.registry = some r.registry) ∧
      ((∃ e, s.expandFirstLevel absent rq k = .error e) ↔ First rq s.rules (·.Wanting rq)) ∧
      ∀ key, s.expandFirstLevel absent rq k = .ok (key, false) → key = k) ∧
    ∀ missing, ∃ out, s.matchFirstLevel absent rq missing [] = .ok out ∧ (out.map Key.keys).Nodup ∧
      (∀ k ∈ out, ∃ r ∈ s.rules, r.Choice (.matching rq missing) k ∧ k.registry = some r.registry) ∧
      ∀ r ∈ s.rules, ∀ k, r.Choice (.matching rq missing) k → ∃ k' ∈ out, k'.keys = k.keys :=
  ⟨fun _ hk => expandFirstLevel_iff hnodup hk, fun _ => matchFirstLevel_iff hnodup⟩

section Sample

/-- `[ class, date [..]]` and `[ class, stream [..]]`. -/
def datedOrStreamed : Schema where
  registry := .untyped
  rules := [.mk 1 [⟨"class", .always⟩, ⟨"date", .always⟩] [] .untyped,
    .mk 2 [⟨"class", .always⟩, ⟨"stream", .always⟩] [] .untyped]

/-- `[ class, domain-g [..]]`. -/
def hiddenDomain : Schema where
  registry := .untyped
  rules := [.mk 1 [⟨"class", .always⟩, ⟨"domain", .hidden "g"⟩] [] .untyped]

/-- `[ class=od, class=rd [..]]`. -/
def repeatedClass : Schema where
  registry := .untyped
  rules := [.mk 1 [⟨"class", .value "od"⟩, ⟨"class", .value "rd"⟩] [] .untyped]

def noParameter (keyword : String) : Failure := .userError ("No parameter called " ++ keyword)

/-- A hidden keyword has its default and not the request's value; a choice for the second rule is not found when the
first wants a keyword; and a key is found for a rule that names a keyword twice and has no choice. -/
theorem firstLevel_not_exact :
    (hiddenDomain.expandFirstLevel noParameter ⟨[("class", ["od"]), ("domain", ["x"])]⟩ {}).map
      (fun r => (r.1.find "domain", r.2)) = .ok (some "g", true) ∧
    (datedOrStreamed.expandFirstLevel noParameter ⟨[("class", ["od"]), ("stream", ["oper"])]⟩ {}).isOk = false ∧
    (∃ r ∈ datedOrStreamed.rules, ∃ k,
      r.Choice (.expansion ⟨[("class", ["od"]), ("stream", ["oper"])]⟩) k) ∧
    (repeatedClass.expandFirstLevel noParameter ⟨[("class", ["od", "rd"])]⟩ {}).map
      (fun r => (r.1.find "class", r.2)) = .ok (some "rd", true) ∧
    ∀ r ∈ repeatedClass.rules, ∀ k, ¬ r.Choice (.expansion ⟨[("class", ["od", "rd"])]⟩) k := by
  refine ⟨by decide +kernel, by decide +kernel, ⟨.mk 2 [⟨"class", .always⟩, ⟨"stream", .always⟩] [] .untyped, by
    simp [datedOrStreamed], _, Rule.choice_of_pushes (k := {}) (by decide) ⟨rfl, fun _ => by simp⟩
      ⟨"od", by decide, fun _ => rfl, "oper", by decide, fun _ => rfl, rfl⟩⟩, by decide +kernel, ?_⟩
  intro r hr k hk
  obtain rfl := List.mem_singleton.mp hr
  have hod : (k.find "class" == some "od") = true := hk.accepts ⟨"class", .value "od"⟩ (by decide) rfl
  have hrd : (k.find "class" == some "rd") = true := hk.accepts ⟨"class", .value "rd"⟩ (by decide) rfl
  rw [eq_of_beq hod] at hrd
  exact absurd (eq_of_beq hrd) (by decide)

theorem firstLevel_exact_streamed : ∃ out,
    datedOrStreamed.matchFirstLevel noParameter ⟨[("class", ["od"]), ("stream", ["oper"])]⟩ "" [] = .ok out ∧
      (out.map Key.keys).Nodup ∧
      ∀ k ∈ out, ∃ r ∈ datedOrStreamed.rules,
        r.Choice (.matching ⟨[("class", ["od"]), ("stream", ["oper"])]⟩ "") k := by
  have hnodup : ∀ r ∈ datedOrStreamed.rules, r.keywords.Nodup := by
    simp [datedOrStreamed, Rule.keywords, Rule.predicates]
  obtain ⟨out, hout, honce, honly, -⟩ := (firstLevel_exact noParameter
    ⟨[("class", ["od"]), ("stream", ["oper"])]⟩ hnodup).2 ""
  exact ⟨out, hout, honce, fun k hk => (honly k hk).imp fun _ h => ⟨h.1, h.2.1⟩⟩

example : (datedOrStreamed.matchFirstLevel noParameter ⟨[("class", ["od"]), ("stream", ["oper"])]⟩ "" []).map
    (fun out => out.map fun k => k.keys.toList) =
      .ok [[("class", "od"), ("date", "")], [("class", "od"), ("stream", "oper")]] := by decide +kernel

end Sample

end Fdb5
