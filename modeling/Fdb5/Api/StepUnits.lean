import Fdb5.Fingerprint
import Fdb5.Inspect.Lookups
import Fdb5.Inspect.Restored

/-! Archiving a field by its step and the units of the step, which the API erases. -/
namespace Fdb5

open Effect Search

/-- `metkit::mars::StepRange`: the canonical form of a step, which is its own canonical form. -/
structure StepRange where
  canon : String → Except Failure String
  idem : ∀ v c, canon v = .ok c → canon c = .ok c

/-- `TypeStep`. -/
def typeStep (range : StepRange) : FieldType where
  type := "Step"
  tidy _ value := .ok value
  toKey _ value := range.canon value

/-- A step as keys store it: an empty one stays empty. -/
def StepRange.ofStep (range : StepRange) (value : String) : Except Failure String :=
  if value = "" then .ok "" else range.canon value

/-- The values a matcher lets a rule take. -/
def Matcher.allows (m : Matcher) (value : String) : Bool :=
  match m with
  | .value v => value = v
  | .any vs => vs.contains value
  | _ => true

def Key.entry (k : Key) (keyword : String) : Except Failure (String × String) := do
  return (keyword, ← k.canonicalValue keyword)

/-- The keywords of a key with their canonical values, in the order of the names. -/
def Key.stored (k : Key) : Except Failure (List (String × String)) := k.names.mapM k.entry

/-- The three keys as the database, the index and the fingerprint keep them. -/
structure StoredKeys where
  database : List (String × String)
  index : List (String × String)
  datum : List (String × String)
deriving DecidableEq

namespace LevelKeys

/-- The `full` key that the expansion ends with. -/
def full (ks : LevelKeys) : Key :=
  [ks.index, ks.datum].foldl (fun full k => k.names.foldl (fun full keyword =>
    full.push keyword ((k.find keyword).getD "")) full) ks.database

def stored (ks : LevelKeys) : Except Failure StoredKeys := do
  return ⟨← ks.database.stored, ← ks.index.stored, ← ks.datum.stored⟩

end LevelKeys

namespace StoredKeys

def entries (c : StoredKeys) : List (String × String) := c.database ++ c.index ++ c.datum

end StoredKeys

/-- The three keys of a path, where its rules accept the field. -/
def Path.assign (s : Schema) (field : Key) (p : Path) : Except Failure (Option LevelKeys) := do
  match ← p.first.assign field with
  | none => return none
  | some k0 =>
    match s.databaseRule k0 with
    | none => throw (.assertion "dbRule")
    | some _ =>
      match ← p.second.assign field with
      | none => return none
      | some k1 =>
        match ← p.third.assign field with
        | none => return none
        | some k2 => return some ⟨k0, k1, k2⟩

namespace Schema

/-- The `canonicalStep` of `FDB::archive`, where it is computed. -/
def canonicalStep (s : Schema) (key : Key) (stepunit : String) : Except Failure (Option String) :=
  if 0 < stepunit.length ∧ stepunit.toList.head? ≠ some 'h' then
    match key.find "step" with
    | some step => do
      let type ← s.registry.lookupType "step"
      return some (← type.toKey "step" (step ++ stepunit))
    | none => .ok none
  else .ok none

/-- What `FDB::archive` makes of the key before the archival itself: the units are erased, the step stays. -/
def keyInternal (s : Schema) (key : Key) : Except Failure Key := do
  let keyInternal := { key with registry := some s.registry }
  match keyInternal.find "stepunits" with
  | none => return keyInternal
  | some stepunit =>
    let _ ← s.canonicalStep keyInternal stepunit
    return keyInternal.unset "stepunits"

/-- The keys under which `FDB::archive` has a field stored: those of the first path that accepts it. -/
def archive (s : Schema) (key : Key) : Except Failure StoredKeys := do
  let field ← s.keyInternal key
  match ← (s.paths field).findSomeM? (Path.assign s field) with
  | none => throw (.seriousBug "FDB: Could not find a rule to archive")
  | some ks => do
    field.validateKeysOf ks.full
    ks.stored

/-- The keys that the first path of rules to accept the key makes of it. -/
def firstKeys (s : Schema) (key : Key) : Except Failure (Option LevelKeys) := do
  let field ← s.keyInternal key
  (s.paths field).findSomeM? (Path.assign s field)

/-- The expansion of a request for these values comes to keys which are stored so. -/
def Retrieves (s : Schema) (request : Key) (c : StoredKeys) : Prop :=
  ∃ t, (s.expandRequest (seeker s) (.ofKey request)).run {} = .ok () t ∧ ∃ ks ∈ t.found, ks.stored = .ok c

/-- The rules of the three levels. -/
def allRules (s : Schema) : List Rule :=
  let second := s.rules.flatMap Rule.rules
  s.rules ++ second ++ second.flatMap Rule.rules

/-- The schema files steps, under the type `Step`. -/
structure FilesSteps (s : Schema) (range : StepRange) : Prop where
  levels : s.ThreeLevels
  types : s.registry.lookupType "step" = .ok (typeStep range)
  typesOf : ∀ r ∈ s.allRules, r.registry.lookupType "step" = .ok (typeStep range)
  shown : ∀ r ∈ s.allRules, ∀ p ∈ r.predicates, p.keyword = "step" → ∀ d, p.matcher ≠ .hidden d

/-- No rule that is restricted to some steps tells these two apart. -/
def Alike (s : Schema) (step step' : String) : Prop :=
  ∀ r ∈ s.allRules, ∀ p ∈ r.predicates, p.keyword = "step" → p.matcher.allows step = p.matcher.allows step'

end Schema

/-- Two fields that differ in their steps only. -/
structure Key.FieldTwin (step step' : String) (k k' : Key) : Prop where
  step : k.find "step" = some step
  step' : k'.find "step" = some step'
  other : ∀ keyword, keyword ≠ "step" → k.find keyword = k'.find keyword

/-- Two keys that rules assign to such fields. -/
structure Key.Twin (step step' : String) (k k' : Key) : Prop where
  names : k.names = k'.names
  registry : k.registry = k'.registry
  canonical : k.canonical = k'.canonical
  step : k.find "step" = none ∧ k'.find "step" = none ∨ k.find "step" = some step ∧ k'.find "step" = some step'
  other : ∀ keyword, keyword ≠ "step" → k.find keyword = k'.find keyword

section Twin

variable {s : Schema} {range : StepRange} {step step' value : String} {k k' field field' : Key} {p : Predicate} {r : Rule}

theorem Key.Twin.push (h : k.Twin step step' k') (hp : p.keyword ≠ "step") :
    (k.push p.keyword value).Twin step step' (k'.push p.keyword value) where
  names := by rw [push_names, push_names, h.names]
  registry := h.registry
  canonical := h.canonical
  step := by simpa only [find_push_eq, hp, if_false] using h.step
  other keyword hk := by rw [find_push_eq, find_push_eq, h.other keyword hk]

theorem Key.Twin.push_step (h : k.Twin step step' k') : (k.push "step" step).Twin step step' (k'.push "step" step') where
  names := by rw [push_names, push_names, h.names]
  registry := h.registry
  canonical := h.canonical
  step := .inr ⟨find_push _ _ _, find_push _ _ _⟩
  other keyword hk := by rw [find_push_eq, find_push_eq, if_neg (Ne.symm hk), if_neg (Ne.symm hk), h.other keyword hk]

/-- What a predicate accepts depends on the value of its keyword. -/
theorem Predicate.accepts_find (h : k.find p.keyword = some value) : p.accepts k = p.matcher.allows value := by
  obtain ⟨keyword, matcher⟩ := p
  cases matcher <;> simp_all [accepts, Matcher.accepts, Matcher.allows]
  rfl

theorem Predicate.value_congr (h : field.find p.keyword = field'.find p.keyword) : p.value field = p.value field' := by
  obtain ⟨keyword, matcher⟩ := p
  cases matcher <;> simp_all [value, Matcher.valueOf, Key.get]

/-- A predicate that does not hide its keyword takes the value the field has. -/
theorem Predicate.value_eq (hp : ∀ d, p.matcher ≠ .hidden d) (h : field.find p.keyword = some value) :
    p.value field = .ok value := by
  obtain ⟨keyword, matcher⟩ := p
  cases matcher <;> simp_all [Predicate.value, Matcher.valueOf, Key.get]

theorem Rule.assignFrom_agree (h : field.FieldTwin step step' field') {cur : List Predicate} :
    (∀ p ∈ cur, p.keyword = "step" → (∀ d, p.matcher ≠ .hidden d) ∧ p.matcher.allows step = p.matcher.allows step') →
    ∀ {k k' : Key}, k.Twin step step' k' →
      Agree (Key.Twin step step') (assignFrom field cur k) (assignFrom field' cur k') := by
  induction cur with
  | nil => exact fun _ k k' hk => .found hk
  | cons p next ih =>
    intro hstep k k' hk
    have hnext := @ih fun q hq => hstep q (List.mem_cons_of_mem p hq)
    rw [assignFrom_cons, assignFrom_cons]
    by_cases hp : p.keyword = "step"
    · obtain ⟨hshown, hallows⟩ := hstep p List.mem_cons_self hp
      have hv := Predicate.value_eq hshown (hp ▸ h.step)
      have hv' := Predicate.value_eq hshown (hp ▸ h.step')
      have hacc : p.accepts (k.push p.keyword step) = p.accepts (k'.push p.keyword step') := by
        rw [Predicate.accepts_find (Key.find_push _ _ _), Predicate.accepts_find (Key.find_push _ _ _), hallows]
      rw [hv, hv']
      simp only [hacc]
      split
      · exact hnext (hp ▸ hk.push_step)
      · exact .refused
    · rw [Predicate.value_congr (h.other p.keyword hp)]
      cases hv : p.value field' with
      | error e => exact .error e
      | ok value =>
        have hacc : p.accepts (k.push p.keyword value) = p.accepts (k'.push p.keyword value) := by
          rw [Predicate.accepts_find (Key.find_push _ _ _), Predicate.accepts_find (Key.find_push _ _ _)]
        simp only [hacc]
        split
        · exact hnext (hk.push hp)
        · exact .refused

/-- The three levels hold the rules that paths are made of. -/
theorem Schema.mem_allRules : (r ∈ s.rules → r ∈ s.allRules) ∧ (∀ f ∈ s.rules, r ∈ f.rules → r ∈ s.allRules) ∧
    ∀ f ∈ s.rules, ∀ i ∈ f.rules, r ∈ i.rules → r ∈ s.allRules := by
  simp only [allRules, List.mem_append, List.mem_flatMap]
  exact ⟨fun h => .inl (.inl h), fun f hf h => .inl (.inr ⟨f, hf, h⟩), fun f hf i hi h => .inr ⟨i, ⟨f, hf, hi⟩, h⟩⟩

theorem Rule.assign_agree (hs : s.FilesSteps range) (ha : s.Alike step step') (h : field.FieldTwin step step' field')
    (hr : r ∈ s.allRules) : Agree (Key.Twin step step') (r.assign field) (r.assign field') := by
  apply assignFrom_agree h
  · intro p hp hk
    exact ⟨hs.shown r hr p hp hk, ha r hr p hp hk⟩
  · exact ⟨rfl, rfl, rfl, .inl ⟨rfl, rfl⟩, fun _ _ => rfl⟩

theorem Rule.accepts_twin (ha : s.Alike step step') (hr : r ∈ s.allRules) (h : k.Twin step step' k') :
    r.accepts k = r.accepts k' := by
  have hall : ∀ p ∈ r.predicates, p.accepts k = p.accepts k' := by
    intro p hp
    by_cases hk : p.keyword = "step"
    · rcases h.step with ⟨hn, hn'⟩ | ⟨hv, hv'⟩
      · rw [← hk] at hn hn'
        obtain ⟨keyword, matcher⟩ := p
        cases matcher <;> simp_all [Predicate.accepts, Matcher.accepts]
      · rw [Predicate.accepts_find (hk ▸ hv), Predicate.accepts_find (hk ▸ hv'), ha r hr p hp hk]
    · have hf := h.other p.keyword hk
      obtain ⟨keyword, matcher⟩ := p
      cases matcher <;> simp_all [Predicate.accepts, Matcher.accepts]
  rw [Bool.eq_iff_iff, Rule.accepts, Rule.accepts, List.all_eq_true, List.all_eq_true]
  exact ⟨fun hacc p hp => hall p hp ▸ hacc p hp, fun hacc p hp => (hall p hp).symm ▸ hacc p hp⟩

theorem Schema.databaseRule_twin (ha : s.Alike step step') (h : k.Twin step step' k') :
    s.databaseRule k = s.databaseRule k' := by
  have hall : ∀ r ∈ s.rules, r.accepts k = r.accepts k' := fun r hr => Rule.accepts_twin ha (mem_allRules.1 hr) h
  rw [databaseRule, databaseRule]
  generalize s.rules = rules at hall
  induction rules with
  | nil => rfl
  | cons r rules ih =>
    rw [List.find?_cons, List.find?_cons, hall r List.mem_cons_self, ih fun q hq => hall q (List.mem_cons_of_mem r hq)]

theorem Schema.paths_twin (hs : s.FilesSteps range) (ha : s.Alike step step') (h : field.FieldTwin step step' field') :
    s.paths field = s.paths field' := by
  have hbelow : ∀ f ∈ s.rules, s.below field f = s.below field' f := by
    intro f hf
    have hagree := Rule.assign_agree hs ha h (mem_allRules.1 hf)
    rw [below, below]
    generalize f.assign field = x at hagree
    generalize f.assign field' = y at hagree
    cases hagree with
    | error e => rfl
    | refused => rfl
    | found hk => simp only [databaseRule_twin ha hk]
  rw [paths, paths]
  generalize s.rules = rules at hbelow
  induction rules with
  | nil => rfl
  | cons f rules ih =>
    rw [List.flatMap_cons, List.flatMap_cons, hbelow f List.mem_cons_self,
      ih fun g hg => hbelow g (List.mem_cons_of_mem f hg)]

theorem Schema.mem_paths {p : Path} (hp : p ∈ s.paths field) :
    p.first ∈ s.allRules ∧ p.second ∈ s.allRules ∧ p.third ∈ s.allRules := by
  simp only [paths, List.mem_flatMap, List.mem_map] at hp
  obtain ⟨f, hf, i, hi, r, hr, rfl⟩ := hp
  have hbelow : s.below field f ∈ s.rules := by
    rw [below]
    split
    · rename_i dbKey _
      cases hd : s.databaseRule dbKey with
      | none => exact hf
      | some d => exact databaseRule_mem hd
    · exact hf
  exact ⟨mem_allRules.1 hf, mem_allRules.2.1 _ hbelow hi, mem_allRules.2.2 _ hbelow i hi hr⟩

/-- The keys of the three levels differ in the step only. -/
structure LevelKeys.Twin (step step' : String) (ks ks' : LevelKeys) : Prop where
  database : ks.database.Twin step step' ks'.database
  index : ks.index.Twin step step' ks'.index
  datum : ks.datum.Twin step step' ks'.datum

theorem Path.assign_agree (hs : s.FilesSteps range) (ha : s.Alike step step') (h : field.FieldTwin step step' field')
    {p : Path} (hp : p ∈ s.paths field) :
    Agree (LevelKeys.Twin step step') (p.assign s field) (p.assign s field') := by
  obtain ⟨hfirst, hsecond, hthird⟩ := Schema.mem_paths hp
  have h0 := Rule.assign_agree hs ha h hfirst
  have h1 := Rule.assign_agree hs ha h hsecond
  have h2 := Rule.assign_agree hs ha h hthird
  rw [assign, assign]
  generalize p.first.assign field = x0, p.first.assign field' = y0 at h0
  generalize p.second.assign field = x1, p.second.assign field' = y1 at h1
  generalize p.third.assign field = x2, p.third.assign field' = y2 at h2
  cases h0 with
  | error e => exact .error e
  | refused => exact .refused
  | found h0 =>
    simp only [Schema.databaseRule_twin ha h0, bind, Except.bind]
    split
    · exact .error _
    · cases h1 with
      | error e => exact .error e
      | refused => exact .refused
      | found h1 =>
        cases h2 with
        | error e => exact .error e
        | refused => exact .refused
        | found h2 => exact .found ⟨h0, h1, h2⟩

end Twin

section Stored

variable {s : Schema} {range : StepRange} {step step' value : String} {k k' field field' : Key} {r : Rule}
  {l : List (String × String)}

/-- The keys are stored alike, step apart. -/
structure Key.SameBut (k k' : Key) : Prop where
  names : k.names = k'.names
  value : ∀ keyword ∈ k.names, keyword ≠ "step" → k.canonicalValue keyword = k'.canonicalValue keyword

structure LevelKeys.SameBut (ks ks' : LevelKeys) : Prop where
  database : ks.database.SameBut ks'.database
  index : ks.index.SameBut ks'.index
  datum : ks.datum.SameBut ks'.datum

/-- A key that a rule of the schema makes of a field of this step. -/
structure Key.Assigned (range : StepRange) (step : String) (k : Key) : Prop where
  named : ∀ keyword, keyword ∈ k.keys ↔ keyword ∈ k.names
  canonical : k.canonical = false
  types : ∃ registry, k.registry = some registry ∧ registry.lookupType "step" = .ok (typeStep range)
  step : ∀ v, k.find "step" = some v → v = step

theorem Rule.assigned_of_builds (hs : s.FilesSteps range) (hr : r ∈ s.allRules) (hk : r.Builds k)
    (hstep : ∀ v, k.find "step" = some v → v = step) : k.Assigned range step := by
  refine ⟨fun keyword => ?_, ?_, ?_, hstep⟩
  · rw [hk.names.1, hk.names.2]
  · obtain ⟨k', hpicks, rfl⟩ := hk
    exact hpicks.names.2
  · obtain ⟨k', _, rfl⟩ := hk
    exact ⟨_, rfl, hs.typesOf r hr⟩

theorem Rule.assigned (hs : s.FilesSteps range) (hr : r ∈ s.allRules) (hstep : field.find "step" = some step)
    (h : r.assign field = .ok (some k)) : k.Assigned range step := by
  have htwin := (assign_agree hs (fun _ _ _ _ _ => rfl) ⟨hstep, hstep, fun _ _ => rfl⟩ hr).related h h
  refine assigned_of_builds hs hr (builds_of_assign h) fun v hv => ?_
  rcases htwin.step with ⟨hn, _⟩ | ⟨hs, _⟩
  · rw [hn] at hv
    cases hv
  · rw [hs] at hv
    exact (Option.some.inj hv).symm

/-- What the expansion of a request makes of a step is the step that is asked for. -/
theorem Rule.sought_assigned (hs : s.FilesSteps range) (hr : r ∈ s.allRules) (hstep : field.find "step" = some step)
    (h : r.sought field = some k) : k.Assigned range step := by
  refine assigned_of_builds hs hr (builds_of_sought h) fun v hv => ?_
  obtain ⟨k', hk, rfl⟩ := Option.map_eq_some_iff.mp h
  rcases soughtFrom_value hk hstep with ⟨hnone, -⟩ | hvalue
  · exact absurd (hv.symm.trans hnone) (by simp [Key.find])
  · exact Option.some.inj (hv.symm.trans hvalue)

theorem Key.Assigned.canonicalise (h : k.Assigned range step) : k.canonicalise "step" value = range.ofStep value := by
  obtain ⟨registry, hregistry, htype⟩ := h.types
  by_cases hv : value = ""
  · simp [Key.canonicalise, StepRange.ofStep, hv]
  · simp [Key.canonicalise, StepRange.ofStep, hv, h.canonical, registryOf, hregistry, htype, typeStep, bind, Except.bind]

theorem Key.mem_stored (h : k.stored = .ok l) {keyword x : String} :
    (keyword, x) ∈ l ↔ keyword ∈ k.names ∧ k.canonicalValue keyword = .ok x := by
  have hall := mapM_ok h
  clear h
  generalize k.names = names at hall
  induction hall with
  | nil => simp
  | @cons name e names l he hrest ih =>
    rw [entry] at he
    cases hn : k.canonicalValue name with
    | error err => simp [hn, bind, Except.bind] at he
    | ok v =>
      simp only [hn, bind, Except.bind, pure, Except.pure, Except.ok.injEq] at he
      subst he
      rw [List.mem_cons, List.mem_cons]
      constructor
      · rintro (hhead | hmem)
        · cases hhead
          exact ⟨.inl rfl, hn⟩
        · exact ⟨.inr (ih.mp hmem).1, (ih.mp hmem).2⟩
      · rintro ⟨rfl | hmem, hv⟩
        · rw [hn] at hv
          cases hv
          exact .inl rfl
        · exact .inr (ih.mpr ⟨hmem, hv⟩)

/-- Every name of a key that could be stored has a value there. -/
theorem Key.exists_stored (h : k.stored = .ok l) {keyword : String} (hn : keyword ∈ k.names) : ∃ x, (keyword, x) ∈ l := by
  have hall := mapM_ok h
  clear h
  generalize k.names = names at hall hn
  induction hall with
  | nil => cases hn
  | @cons name e names l he hrest ih =>
    rcases List.mem_cons.mp hn with rfl | hn
    · rw [entry] at he
      cases hv : k.canonicalValue keyword with
      | error err => simp [hv, bind, Except.bind] at he
      | ok v =>
        simp only [hv, bind, Except.bind, pure, Except.pure, Except.ok.injEq] at he
        exact ⟨v, he ▸ List.mem_cons_self⟩
    · obtain ⟨x, hx⟩ := ih hn
      exact ⟨x, List.mem_cons_of_mem _ hx⟩

/-- The step is stored in its canonical form. -/
theorem Key.Assigned.stored_step (h : k.Assigned range step) (hl : k.stored = .ok l) {x : String}
    (hx : ("step", x) ∈ l) : range.ofStep step = .ok x := by
  obtain ⟨_, hv⟩ := (mem_stored hl).mp hx
  rw [canonicalValue] at hv
  cases hf : k.find "step" with
  | none => simp [hf] at hv
  | some v =>
    obtain rfl := h.step v hf
    rw [hf] at hv
    exact h.canonicalise.symm.trans hv

theorem Key.stored_names (h : k.stored = .ok l) : l.map Prod.fst = k.names := by
  have hall := mapM_ok h
  clear h
  generalize k.names = names at hall
  induction hall with
  | nil => rfl
  | @cons name e names l he hrest ih =>
    rw [entry] at he
    cases hv : k.canonicalValue name with
    | error err => simp [hv, bind, Except.bind] at he
    | ok v =>
      simp only [hv, bind, Except.bind, pure, Except.pure, Except.ok.injEq] at he
      rw [List.map_cons, ih, ← he]

theorem Key.Assigned.canonicalValue_step (h : k.Assigned range step) (hn : "step" ∈ k.names) :
    k.canonicalValue "step" = range.ofStep step := by
  obtain ⟨v, hv⟩ := Key.mem_keys_iff.mp ((h.named "step").mpr hn)
  obtain rfl := h.step v hv
  rw [canonicalValue, hv]
  exact h.canonicalise

/-- Two keys are stored alike when they are, step apart, if their steps are. -/
theorem Key.Assigned.stored_iff (h : k.Assigned range step) (h' : k'.Assigned range step') (hl : k.stored = .ok l)
    (hstep : range.ofStep step = range.ofStep step') : k'.stored = .ok l ↔ k.SameBut k' := by
  constructor
  · intro hl'
    refine ⟨(stored_names hl).symm.trans (stored_names hl'), fun keyword hn _ => ?_⟩
    obtain ⟨x, hx⟩ := exists_stored hl hn
    rw [((mem_stored hl).mp hx).2, ((mem_stored hl').mp hx).2]
  · rintro ⟨hnames, hvalue⟩
    rw [← hl, stored, stored, ← hnames]
    apply mapM_congr
    intro keyword hn
    rw [entry, entry]
    by_cases hk : keyword = "step"
    · subst hk
      rw [h.canonicalValue_step hn, h'.canonicalValue_step (hnames ▸ hn), hstep]
    · rw [hvalue keyword hn hk]

theorem Key.Twin.sameBut (ht : k.Twin step step' k') : k.SameBut k' := by
  refine ⟨ht.names, fun keyword _ hk => ?_⟩
  have hcanon : k.canonicalise = k'.canonicalise := by
    funext keyword value
    simp only [Key.canonicalise, registryOf, ht.registry, ht.canonical]
  rw [canonicalValue, canonicalValue, ht.other keyword hk, hcanon]

/-- The keys of a path through the schema, for a field of this step. -/
structure LevelKeys.Assigned (range : StepRange) (step : String) (ks : LevelKeys) : Prop where
  database : ks.database.Assigned range step
  index : ks.index.Assigned range step
  datum : ks.datum.Assigned range step

theorem Path.assign_ok {p : Path} {ks : LevelKeys} (h : p.assign s field = .ok (some ks)) :
    p.first.assign field = .ok (some ks.database) ∧ p.second.assign field = .ok (some ks.index) ∧
      p.third.assign field = .ok (some ks.datum) := by
  rw [assign] at h
  match h0 : p.first.assign field with
  | .error e => simp [h0, bind, Except.bind] at h
  | .ok none => simp [h0, bind, Except.bind, pure, Except.pure] at h
  | .ok (some k0) =>
    match hd : s.databaseRule k0, h1 : p.second.assign field, h2 : p.third.assign field with
    | none, _, _ => simp [h0, hd, bind, Except.bind, throw, throwThe, MonadExceptOf.throw] at h
    | some d, .error e, _ => simp [h0, hd, h1, bind, Except.bind] at h
    | some d, .ok none, _ => simp [h0, hd, h1, bind, Except.bind, pure, Except.pure] at h
    | some d, .ok (some k1), .error e => simp [h0, hd, h1, h2, bind, Except.bind] at h
    | some d, .ok (some k1), .ok none => simp [h0, hd, h1, h2, bind, Except.bind, pure, Except.pure] at h
    | some d, .ok (some k1), .ok (some k2) =>
      simp only [h0, hd, h1, h2, bind, Except.bind, pure, Except.pure, Except.ok.injEq, Option.some.injEq] at h
      subst h
      exact ⟨rfl, rfl, rfl⟩

theorem Path.assigned (hs : s.FilesSteps range) {p : Path} (hp : p ∈ s.paths field) (hstep : field.find "step" = some step)
    {ks : LevelKeys} (h : p.assign s field = .ok (some ks)) : ks.Assigned range step := by
  obtain ⟨hfirst, hsecond, hthird⟩ := Schema.mem_paths hp
  obtain ⟨h0, h1, h2⟩ := assign_ok h
  exact ⟨Rule.assigned hs hfirst hstep h0, Rule.assigned hs hsecond hstep h1, Rule.assigned hs hthird hstep h2⟩

theorem Schema.seeks_assigned (hs : s.FilesSteps range) (hstep : field.find "step" = some step) {ks : LevelKeys}
    (h : ks ∈ s.seeks field) : ks.Assigned range step := by
  obtain ⟨f, hf, h0, d, hd, i, hi, h1, r, hr, h2⟩ := mem_seeks.mp h
  have hmem := databaseRule_mem hd
  exact ⟨Rule.sought_assigned hs (mem_allRules.1 hf) hstep h0, Rule.sought_assigned hs (mem_allRules.2.1 d hmem hi) hstep h1,
    Rule.sought_assigned hs (mem_allRules.2.2 d hmem i hi hr) hstep h2⟩

namespace LevelKeys

variable {ks ks' : LevelKeys} {c : StoredKeys}

theorem stored_ok (h : ks.stored = .ok c) :
    ks.database.stored = .ok c.database ∧ ks.index.stored = .ok c.index ∧ ks.datum.stored = .ok c.datum := by
  rw [stored] at h
  match h0 : ks.database.stored, h1 : ks.index.stored, h2 : ks.datum.stored with
  | .error e, _, _ => simp [h0, bind, Except.bind] at h
  | .ok l0, .error e, _ => simp [h0, h1, bind, Except.bind] at h
  | .ok l0, .ok l1, .error e => simp [h0, h1, h2, bind, Except.bind] at h
  | .ok l0, .ok l1, .ok l2 =>
    simp only [h0, h1, h2, bind, Except.bind, pure, Except.pure, Except.ok.injEq] at h
    subst h
    exact ⟨rfl, rfl, rfl⟩

theorem stored_eq_ok : ks.stored = .ok c ↔
    ks.database.stored = .ok c.database ∧ ks.index.stored = .ok c.index ∧ ks.datum.stored = .ok c.datum := by
  refine ⟨stored_ok, ?_⟩
  rintro ⟨h0, h1, h2⟩
  rw [stored, h0, h1, h2]
  rfl

theorem Assigned.stored_iff (h : ks.Assigned range step) (h' : ks'.Assigned range step') (hc : ks.stored = .ok c)
    (hstep : range.ofStep step = range.ofStep step') : ks'.stored = .ok c ↔ ks.SameBut ks' := by
  obtain ⟨h0, h1, h2⟩ := stored_ok hc
  rw [stored_eq_ok, h.database.stored_iff h'.database h0 hstep, h.index.stored_iff h'.index h1 hstep,
    h.datum.stored_iff h'.datum h2 hstep]
  exact ⟨fun ⟨h0, h1, h2⟩ => ⟨h0, h1, h2⟩, fun h => ⟨h.database, h.index, h.datum⟩⟩

theorem Twin.sameBut (ht : ks.Twin step step' ks') : ks.SameBut ks' :=
  ⟨ht.database.sameBut, ht.index.sameBut, ht.datum.sameBut⟩

/-- Wherever the step is stored, it is in its canonical form. -/
theorem Assigned.stored_step (h : ks.Assigned range step) (hc : ks.stored = .ok c) {x : String}
    (hx : ("step", x) ∈ c.entries) : range.ofStep step = .ok x := by
  obtain ⟨h0, h1, h2⟩ := stored_ok hc
  simp only [StoredKeys.entries, List.mem_append] at hx
  rcases hx with (hx | hx) | hx
  · exact h.database.stored_step h0 hx
  · exact h.index.stored_step h1 hx
  · exact h.datum.stored_step h2 hx

theorem find_pushes {names : List String} {value : String → String} {keyword : String} :
    ∀ {k : Key}, (names.foldl (fun full keyword => full.push keyword (value keyword)) k).find keyword ≠ none →
      k.find keyword ≠ none ∨ keyword ∈ names := by
  induction names with
  | nil => exact fun h => .inl h
  | cons name names ih =>
    intro k h
    rcases ih h with h | h
    · rw [Key.find_push_eq] at h
      by_cases hn : name = keyword
      · exact .inr (hn ▸ List.mem_cons_self)
      · rw [if_neg hn] at h
        exact .inl h
    · exact .inr (List.mem_cons_of_mem name h)

theorem mem_names_of_full (h : ks.Assigned range step) {keyword : String} (hf : ks.full.find keyword ≠ none) :
    keyword ∈ ks.database.names ∨ keyword ∈ ks.index.names ∨ keyword ∈ ks.datum.names := by
  rcases find_pushes hf with hf | hf
  · rcases find_pushes hf with hf | hf
    · obtain ⟨v, hv⟩ := Option.ne_none_iff_exists'.mp hf
      exact .inl ((h.database.named keyword).mp (Std.ExtTreeMap.mem_iff_isSome_getElem?.mpr (by rw [← Key.find, hv]; rfl)))
    · exact .inr (.inl hf)
  · exact .inr (.inr hf)

/-- A keyword of the whole key is stored with a value. -/
theorem stored_of_full (h : ks.Assigned range step) (hc : ks.stored = .ok c) {keyword : String}
    (hf : ks.full.find keyword ≠ none) : ∃ x, (keyword, x) ∈ c.entries := by
  obtain ⟨h0, h1, h2⟩ := stored_ok hc
  simp only [StoredKeys.entries, List.mem_append]
  rcases mem_names_of_full h hf with hn | hn | hn
  · obtain ⟨x, hx⟩ := Key.exists_stored h0 hn
    exact ⟨x, .inl (.inl hx)⟩
  · obtain ⟨x, hx⟩ := Key.exists_stored h1 hn
    exact ⟨x, .inl (.inr hx)⟩
  · obtain ⟨x, hx⟩ := Key.exists_stored h2 hn
    exact ⟨x, .inr hx⟩

end LevelKeys

/-- What the expansion records for a path is what it assigns. -/
theorem Schema.outcome_assign {p : Path} : Agree (fun a ks => a.2 = ⟨ks.database.keys, ks.index.keys, ks.datum⟩)
    (s.outcome field p) (p.assign s field) := by
  rw [outcome, Path.assign]
  rcases p.first.assign field with e | _ | k0
  · exact .error e
  · exact .refused
  cases hd : s.databaseRule k0 with
  | none =>
    simp only [hd, bind, Except.bind]
    exact .error _
  | some d =>
    simp only [hd, bind, Except.bind]
    rcases p.second.assign field with e | _ | k1
    · exact .error e
    · exact .refused
    rcases p.third.assign field with e | _ | k2
    · exact .error e
    · exact .refused
    · exact .found rfl

theorem Key.find_unset (k : Key) (keyword other : String) : (k.unset keyword).find other =
    if keyword = other then none else k.find other := by
  rw [Key.find, Key.unset, Std.ExtTreeMap.getElem?_erase]
  simp [Key.find]

theorem Key.validateKeysOf_ok {full : Key} {keyword : String} (h : k.validateKeysOf full = .ok ()) (hk : k.find keyword ≠ none) :
    full.find keyword ≠ none := by
  intro hnone
  have hmem : keyword ∈ k.keys.keys.filter fun keyword => full.find keyword = none := by
    rw [List.mem_filter, Std.ExtTreeMap.mem_keys, Std.ExtTreeMap.mem_iff_isSome_getElem?]
    exact ⟨Option.isSome_iff_ne_none.mpr hk, by simpa using hnone⟩
  have hne : (k.keys.keys.filter fun keyword => full.find keyword = none).isEmpty = false := by
    cases hl : k.keys.keys.filter fun keyword => full.find keyword = none with
    | nil => simp [hl] at hmem
    | cons _ _ => rfl
  rw [validateKeysOf] at h
  simp only [hne, bind, Except.bind] at h
  split at h
  · cases h
  · cases hr : k.registryOf with
    | error e => simp [hr] at h
    | ok registry => simp [hr, throw, throwThe, MonadExceptOf.throw] at h

namespace Schema

variable {key key' : Key} {c c' : StoredKeys} {d : String}

theorem keyInternal_find (h : s.keyInternal key = .ok field) (keyword : String) : field.find keyword =
    if keyword = "stepunits" then none else key.find keyword := by
  rw [keyInternal] at h
  have hsame : Key.find { key with registry := some s.registry } = key.find := rfl
  cases hu : key.find "stepunits" with
  | none =>
    simp only [hsame, hu, pure, Except.pure, Except.ok.injEq] at h
    subst h
    by_cases hk : keyword = "stepunits"
    · simp [hk, hsame, hu]
    · simp [hk, hsame]
  | some units =>
    cases hstep : s.canonicalStep { key with registry := some s.registry } units with
    | error e => simp [hsame, hu, hstep, bind, Except.bind] at h
    | ok o =>
      simp only [hsame, hu, hstep, bind, Except.bind, pure, Except.pure, Except.ok.injEq] at h
      subst h
      rw [Key.find_unset, hsame]
      simp only [eq_comm]

/-- What is stored was assigned by the first path that accepts the field, the step in its canonical form. -/
theorem archive_ok (hs : s.FilesSteps range) (h : s.archive key = .ok c) (hstep : key.find "step" = some step) :
    ∃ (field : Key) (p : Path) (ks : LevelKeys), s.keyInternal key = .ok field ∧ field.find "step" = some step ∧ p ∈ s.paths field ∧
      (s.paths field).findSomeM? (Path.assign s field) = .ok (some ks) ∧ p.assign s field = .ok (some ks) ∧
      ks.Assigned range step ∧ ks.stored = .ok c ∧ ∃ x, ("step", x) ∈ c.entries ∧ range.ofStep step = .ok x := by
  rw [archive] at h
  cases hf : s.keyInternal key with
  | error e => simp [hf, bind, Except.bind] at h
  | ok field =>
    have hfind : field.find "step" = some step := by
      rw [keyInternal_find hf, if_neg (by decide), hstep]
    simp only [hf, bind, Except.bind] at h
    match hfound : (s.paths field).findSomeM? (Path.assign s field) with
    | .error e => simp [hfound] at h
    | .ok none => simp [hfound, throw, throwThe, MonadExceptOf.throw] at h
    | .ok (some ks) =>
      obtain ⟨pre, p, post, hp, _, hassign⟩ := findSomeM?_mem hfound
      have hmem : p ∈ s.paths field := hp ▸ List.mem_append_right _ List.mem_cons_self
      have hassigned := Path.assigned hs hmem hfind hassign
      simp only [hfound] at h
      cases hv : field.validateKeysOf ks.full with
      | error e => simp [hv] at h
      | ok _ =>
        simp only [hv] at h
        obtain ⟨x, hx⟩ := LevelKeys.stored_of_full hassigned h (Key.validateKeysOf_ok hv (by rw [hfind]; exact Option.some_ne_none _))
        exact ⟨field, p, ks, rfl, hfind, hmem, hfound, hassign, hassigned, h, x, hx, hassigned.stored_step h hx⟩

theorem archive_first (hs : s.FilesSteps range) (h : s.archive key = .ok c) (hstep : key.find "step" = some step) :
    ∃ ks x, s.firstKeys key = .ok (some ks) ∧ ks.Assigned range step ∧ ks.stored = .ok c ∧ ("step", x) ∈ c.entries ∧
      range.ofStep step = .ok x := by
  obtain ⟨field, p, ks, hfield, _, _, hfound, _, hassigned, hst, x, hx, hv⟩ := archive_ok hs h hstep
  refine ⟨ks, x, ?_, hassigned, hst, hx, hv⟩
  rw [firstKeys, hfield]
  exact hfound

/-- The expansion of the rules files the field under the keys that are stored. -/
theorem archive_expand (hcheck : s.check = .ok ()) (hthird : ∀ f ∈ s.rules, ∀ i ∈ f.rules, i.rules ≠ [])
    (h : s.archive key = .ok c) : ∃ (field : Key) (ks : LevelKeys), s.keyInternal key = .ok field ∧ ks.stored = .ok c ∧
      ∀ t : WriteState Recorder, t.prev0.keys = t.visitor.database → t.prev1.keys = t.visitor.index →
        ∃ u, (s.expand true (recorder s) field).run t = .ok () u ∧
          u.visitor.data = t.visitor.data ++ [⟨ks.database.keys, ks.index.keys, ks.datum⟩] := by
  rw [archive] at h
  cases hf : s.keyInternal key with
  | error e => simp [hf, bind, Except.bind] at h
  | ok field =>
    simp only [hf, bind, Except.bind] at h
    have hagree := agree_findSomeM? fun p (_ : p ∈ s.paths field) =>
      show Agree _ (s.outcome field p) (p.assign s field) from outcome_assign
    match hfound : (s.paths field).findSomeM? (Path.assign s field) with
    | .error e => simp [hfound] at h
    | .ok none => simp [hfound, throw, throwThe, MonadExceptOf.throw] at h
    | .ok (some ks) =>
      simp only [hfound] at h
      rw [hfound] at hagree
      refine ⟨field, ks, rfl, ?_, fun t ht ht' => ?_⟩
      · cases hv : field.validateKeysOf ks.full with
        | error e => simp [hv] at h
        | ok _ => simpa [hv] using h
      · have hends := ends_expand field (threeLevels_of_check hcheck hthird) ht ht'
        rw [search_eq_paths (threeLevels_of_check hcheck hthird)] at hends
        generalize (s.paths field).findSomeM? (s.outcome field) = o at hagree hends
        cases hagree with
        | @found a _ ha =>
          match hx : (s.expand true (recorder s) field).run t with
          | .ok () u =>
            obtain ⟨o', ho', hu⟩ := hends.ok hx
            cases ho'
            exact ⟨u, rfl, by rw [hu.data, Option.map_some, Option.toList_some, ha]⟩
          | .error e u =>
            cases (hends.error hx).1

/-- The step of a key with its units, in the canonical units of the type. -/
def denotes (range : StepRange) (key : Key) : Except Failure String :=
  range.ofStep ((key.find "step").getD "" ++ (key.find "stepunits").getD "")

/-- The request for the field of a key by its canonical step. -/
def requestOf (key : Key) (step : String) : Key := (key.unset "stepunits").set "step" step

/-- Two keys with a step each that differ in step and units only. -/
structure Differ (key key' : Key) : Prop where
  step : ∃ step, key.find "step" = some step
  step' : ∃ step, key'.find "step" = some step
  other : ∀ keyword, keyword ≠ "step" → keyword ≠ "stepunits" → key.find keyword = key'.find keyword

/-- The stored key is that of the step denoted, which a request for it looks up. -/
def Found (s : Schema) (range : StepRange) (key : Key) (c : StoredKeys) : Prop :=
  ∃ d, denotes range key = .ok d ∧ s.Retrieves (requestOf key d) c

/-- Among the keys that a request for the step denoted looks up are some like those that the first path makes of the
key, step apart. -/
def Kept (s : Schema) (range : StepRange) (key : Key) : Prop :=
  ∀ ks d, s.firstKeys key = .ok (some ks) → denotes range key = .ok d → ∃ ks' ∈ s.seeks (requestOf key d), ks.SameBut ks'

/-- If the keys denote one step, the first paths that accept them make like keys of them, step apart. -/
def Together (s : Schema) (range : StepRange) (key key' : Key) : Prop :=
  ∀ ks ks', s.firstKeys key = .ok (some ks) → s.firstKeys key' = .ok (some ks') →
    denotes range key = denotes range key' → ks.SameBut ks'

/-- The units change nothing about the step. -/
def UnitsIdle (range : StepRange) (key : Key) : Prop :=
  denotes range key = range.ofStep ((key.find "step").getD "")

/-- The rules that are restricted to some steps take the step as it is given for the canonical one. -/
def ListsIdle (s : Schema) (range : StepRange) (key : Key) : Prop :=
  ∀ d, denotes range key = .ok d → s.Alike ((key.find "step").getD "") d

theorem StepRange.ofStep_idem {v d : String} (h : range.ofStep v = .ok d) : range.ofStep d = .ok d := by
  by_cases hd : d = ""
  · simp [StepRange.ofStep, hd]
  · by_cases hv : v = ""
    · simp [StepRange.ofStep, hv] at h
      exact absurd h hd
    · simp only [StepRange.ofStep, hv, if_false] at h
      simp [StepRange.ofStep, hd, range.idem v d h]

theorem requestOf_find (keyword : String) : (requestOf key d).find keyword =
    if keyword = "step" then some d else if keyword = "stepunits" then none else key.find keyword := by
  rw [requestOf, Key.find_set, Key.find_unset]
  simp only [eq_comm]

theorem retrieves_iff (hs : s.FilesSteps range) {request : Key} :
    s.Retrieves request c ↔ ∃ ks ∈ s.seeks request, ks.stored = .ok c := by
  have hends : Ends (s.expandRequest (seeker s) (.ofKey request)) {} (fun _ u => u.found = s.seeks request)
      fun _ _ => False := ends_seeks hs.levels
  obtain ⟨_, u, hrun, hfound⟩ := hends.returns
  constructor
  · rintro ⟨t, ht, hks⟩
    cases hrun.symm.trans ht
    rwa [hfound] at hks
  · rintro ⟨ks, hks, hc⟩
    exact ⟨u, hrun, ks, hfound ▸ hks, hc⟩

/-- A stored step is the one that the requests which find it ask for. -/
theorem Retrieves.stored_step (hs : s.FilesSteps range) (h : s.Retrieves (requestOf key d) c) {x : String}
    (hx : ("step", x) ∈ c.entries) : range.ofStep d = .ok x := by
  obtain ⟨ks, hks, hc⟩ := (retrieves_iff hs).mp h
  exact (seeks_assigned hs (by rw [requestOf_find, if_pos rfl]) hks).stored_step hc hx

theorem Found.unitsIdle (hs : s.FilesSteps range) (hstep : key.find "step" = some step) (hc : s.archive key = .ok c)
    (h : s.Found range key c) : UnitsIdle range key := by
  obtain ⟨_, x, _, _, _, hx, hv⟩ := archive_first hs hc hstep
  obtain ⟨d, hd, hr⟩ := h
  have hdx : range.ofStep d = .ok x := hr.stored_step hs hx
  rw [StepRange.ofStep_idem hd] at hdx
  rw [UnitsIdle, hd, hstep, Option.getD_some, hv, hdx]

/-- Where the units are idle, a key is found by the step it denotes when a request for that looks up keys like its own. -/
theorem found_iff (hs : s.FilesSteps range) (hstep : key.find "step" = some step) (hc : s.archive key = .ok c)
    (hunits : UnitsIdle range key) : s.Found range key c ↔ s.Kept range key := by
  obtain ⟨ks, x, hfirst, hassigned, hst, _, hx⟩ := archive_first hs hc hstep
  have hd : denotes range key = .ok x := by rw [hunits, hstep, Option.getD_some, hx]
  have hlike : ∀ ks' ∈ s.seeks (requestOf key x), (ks'.stored = .ok c ↔ ks.SameBut ks') := fun ks' hks' =>
    hassigned.stored_iff (seeks_assigned hs (by rw [requestOf_find, if_pos rfl]) hks') hst
      (hx.trans (StepRange.ofStep_idem hx).symm)
  constructor
  · rintro ⟨d, hd', hr⟩ ks₁ d' hfirst' hd''
    cases hd.symm.trans hd'
    cases hd.symm.trans hd''
    cases hfirst.symm.trans hfirst'
    obtain ⟨ks', hks', hc'⟩ := (retrieves_iff hs).mp hr
    exact ⟨ks', hks', (hlike ks' hks').mp hc'⟩
  · intro hkept
    obtain ⟨ks', hks', hsame⟩ := hkept ks x hfirst hd
    exact ⟨x, hd, (retrieves_iff hs).mpr ⟨ks', hks', (hlike ks' hks').mpr hsame⟩⟩

/-- Where the units are idle, keys are stored as one exactly when they denote one step if they are together. -/
theorem stored_eq_iff (hs : s.FilesSteps range) (hdiffer : Differ key key') (hc : s.archive key = .ok c)
    (hc' : s.archive key' = .ok c') (hunits : UnitsIdle range key) (hunits' : UnitsIdle range key') :
    (c = c' ↔ denotes range key = denotes range key') ↔ s.Together range key key' := by
  obtain ⟨step, hstep⟩ := hdiffer.step
  obtain ⟨step', hstep'⟩ := hdiffer.step'
  obtain ⟨ks, x, hfirst, hassigned, hst, hmem, hx⟩ := archive_first hs hc hstep
  obtain ⟨ks', x', hfirst', hassigned', hst', _, hx'⟩ := archive_first hs hc' hstep'
  have hd : denotes range key = .ok x := by rw [hunits, hstep, Option.getD_some, hx]
  have hd' : denotes range key' = .ok x' := by rw [hunits', hstep', Option.getD_some, hx']
  have hlike : x = x' → (c = c' ↔ ks.SameBut ks') := by
    rintro rfl
    rw [← hassigned.stored_iff hassigned' hst (hx.trans hx'.symm), hst', Except.ok.injEq, eq_comm]
  have hone : c = c' → x = x' := by
    rintro rfl
    have := hassigned'.stored_step hst' hmem
    rw [hx', Except.ok.injEq] at this
    exact this.symm
  rw [hd, hd', Except.ok.injEq]
  constructor
  · intro hiff ks₁ ks₂ h₁ h₂ hdenote
    cases hfirst.symm.trans h₁
    cases hfirst'.symm.trans h₂
    rw [hd, hd', Except.ok.injEq] at hdenote
    exact (hlike hdenote).mp (hiff.mpr hdenote)
  · intro htogether
    exact ⟨hone, fun h => (hlike h).mpr (htogether ks ks' hfirst hfirst' (by rw [hd, hd', h]))⟩

/-- No rule hides a keyword that the key has. -/
def HidesNothing (s : Schema) (key : Key) : Prop :=
  ∀ r ∈ s.allRules, ∀ p ∈ r.predicates, ∀ d, p.matcher = .hidden d → key.find p.keyword = none

/-- A request for a field that hides nothing looks up what a path assigns to it. -/
theorem seeks_of_assign (hhidden : s.HidesNothing field) {p : Path} {ks : LevelKeys} (hp : p ∈ s.paths field)
    (h : p.assign s field = .ok (some ks)) : ks ∈ s.seeks field := by
  obtain ⟨hfirst, hsecond, hthird⟩ := mem_paths hp
  obtain ⟨h0, h1, h2⟩ := Path.assign_ok h
  simp only [paths, List.mem_flatMap, List.mem_map] at hp
  obtain ⟨f, hf, i, hi, r, hr, rfl⟩ := hp
  obtain ⟨d, hd⟩ : ∃ d, s.databaseRule ks.database = some d := by
    rw [Path.assign, h0] at h
    cases hd : s.databaseRule ks.database with
    | none => simp [hd, bind, Except.bind, throw, throwThe, MonadExceptOf.throw] at h
    | some d => exact ⟨d, rfl⟩
  rw [below, h0] at hi
  simp only [hd, Option.getD_some] at hi
  exact mem_seeks.mpr ⟨f, hf, Rule.sought_of_assign (hhidden f hfirst) h0, d, hd, i, hi,
    Rule.sought_of_assign (hhidden i hsecond) h1, r, hr, Rule.sought_of_assign (hhidden r hthird) h2⟩

/-- A request looks up keys like those of the first path where no list of steps and no hidden keyword is in the way. -/
theorem kept_of_lists (hs : s.FilesSteps range) (hstep : key.find "step" = some step) (hc : s.archive key = .ok c)
    (hlists : s.ListsIdle range key) (hhidden : s.HidesNothing key) : s.Kept range key := by
  intro ks₁ d hfirst hd
  obtain ⟨field, p, ks, hfield, hfind, hp, hfound, hassign, _⟩ := archive_ok hs hc hstep
  rw [firstKeys, hfield] at hfirst
  cases hfound.symm.trans hfirst
  have halike : s.Alike step d := by simpa [hstep] using hlists d hd
  have htwin : field.FieldTwin step d (requestOf key d) := by
    refine ⟨hfind, by rw [requestOf_find, if_pos rfl], fun keyword hk => ?_⟩
    rw [keyInternal_find hfield, requestOf_find, if_neg hk]
  have hpaths := paths_twin hs halike htwin
  have hagree := Path.assign_agree hs halike htwin hp
  rw [hassign] at hagree
  generalize hy : p.assign s (requestOf key d) = y at hagree
  cases hagree with
  | @found _ ks' ht =>
    refine ⟨ks', seeks_of_assign (fun r hr q hq e he => ?_) (hpaths ▸ hp) hy, ht.sameBut⟩
    rw [requestOf_find]
    split
    · rename_i hk
      exact absurd he (hs.shown r hr q hq hk e)
    · split
      · rfl
      · exact hhidden r hr q hq e he

/-- Keys that denote one step are filed alike where no list of steps tells that from what they are given with. -/
theorem together_of_lists (hs : s.FilesSteps range) (hdiffer : Differ key key') (hc : s.archive key = .ok c)
    (hc' : s.archive key' = .ok c') (hunits : UnitsIdle range key) (hlists : s.ListsIdle range key)
    (hlists' : s.ListsIdle range key') : s.Together range key key' := by
  intro ks₁ ks₂ h₁ h₂ hdenote
  obtain ⟨step, hstep⟩ := hdiffer.step
  obtain ⟨step', hstep'⟩ := hdiffer.step'
  obtain ⟨field, p, ks, hfield, hfind, hp, hfound, _, _, _, x, _, hx⟩ := archive_ok hs hc hstep
  obtain ⟨field', p', ks', hfield', hfind', _, hfound', _⟩ := archive_ok hs hc' hstep'
  rw [firstKeys, hfield] at h₁
  rw [firstKeys, hfield'] at h₂
  cases hfound.symm.trans h₁
  cases hfound'.symm.trans h₂
  have hd : denotes range key = .ok x := by rw [hunits, hstep, Option.getD_some, hx]
  have ha : s.Alike step x := by simpa [hstep] using hlists x hd
  have ha' : s.Alike step' x := by simpa [hstep'] using hlists' x (hdenote ▸ hd)
  have halike : s.Alike step step' := fun r hr q hq hk => (ha r hr q hq hk).trans (ha' r hr q hq hk).symm
  have htwin : field.FieldTwin step step' field' := by
    refine ⟨hfind, hfind', fun keyword hk => ?_⟩
    rw [keyInternal_find hfield, keyInternal_find hfield']
    split
    · rfl
    · rename_i hu
      exact hdiffer.other keyword hk hu
  have hpaths := paths_twin hs halike htwin
  have hagree := agree_findSomeM? fun q hq => Path.assign_agree hs halike htwin (p := q) hq
  exact (hagree.related hfound (hpaths ▸ hfound')).sameBut

end Schema

end Stored

/-- Steps in hours, of which six is written in two ways. -/
def sampleRange : StepRange where
  canon value := .ok (if value = "6h" then "6" else value)
  idem v c h := by
    obtain rfl := Except.ok.inj h
    by_cases hv : v = "6h" <;> simp [hv]

def sampleTypes : TypesRegistry where
  lookupType keyword := .ok (if keyword = "step" then typeStep sampleRange else typeDefault)

/-- `[ class [ type [ step ]]]`. -/
def classTypeStep : Schema where
  registry := sampleTypes
  rules := [.mk 1 [⟨"class", .always⟩] [.mk 2 [⟨"type", .always⟩] [.mk 3 [⟨"step", .always⟩] [] sampleTypes]
    sampleTypes] sampleTypes]

theorem filesSteps_classTypeStep : classTypeStep.FilesSteps sampleRange where
  levels := by constructor <;> simp [classTypeStep, Rule.rules]
  types := rfl
  typesOf r hr := by
    simp only [Schema.allRules, classTypeStep, Rule.rules, List.flatMap_cons, List.flatMap_nil, List.append_nil,
      List.cons_append, List.nil_append, List.mem_cons, List.not_mem_nil, or_false] at hr
    rcases hr with rfl | rfl | rfl <;> rfl
  shown r hr p hp _ d := by
    simp only [Schema.allRules, classTypeStep, Rule.rules, List.flatMap_cons, List.flatMap_nil, List.append_nil,
      List.cons_append, List.nil_append, List.mem_cons, List.not_mem_nil, or_false] at hr
    rcases hr with rfl | rfl | rfl <;> simp_all [Rule.predicates]

def stepField (step units : String) : Key :=
  Key.ofList [("class", "od"), ("type", "fc"), ("step", step), ("stepunits", units)] none

def storedStep (step : String) : StoredKeys := ⟨[("class", "od")], [("type", "fc")], [("step", step)]⟩

theorem stepField_find (step units keyword : String) : (stepField step units).find keyword =
    if keyword = "class" then some "od" else if keyword = "type" then some "fc"
      else if keyword = "step" then some step else if keyword = "stepunits" then some units else none := by
  have hkeys : (stepField step units).keys = ((((∅ : StringDict).insert "class" "od").insert "type" "fc").insert
      "step" step).insert "stepunits" units := by
    simp [stepField, Key.ofList, Std.ExtTreeMap.mem_insert]
  rw [Key.find, hkeys]
  simp only [Std.ExtTreeMap.getElem?_insert, Std.LawfulEqCmp.compare_eq_iff_eq, Std.ExtTreeMap.getElem?_empty]
  grind

theorem differ_stepField (step units step' units' : String) :
    Schema.Differ (stepField step units) (stepField step' units') where
  step := ⟨step, by simp [stepField_find]⟩
  step' := ⟨step', by simp [stepField_find]⟩
  other keyword hs hu := by simp [stepField_find, hs, hu]

theorem listsIdle_classTypeStep (key : Key) : classTypeStep.ListsIdle sampleRange key := by
  intro d _ r hr p hp _
  simp only [Schema.allRules, classTypeStep, Rule.rules, List.flatMap_cons, List.flatMap_nil, List.append_nil,
    List.cons_append, List.nil_append, List.mem_cons, List.not_mem_nil, or_false] at hr
  rcases hr with rfl | rfl | rfl <;> simp_all [Rule.predicates, Matcher.allows]

theorem hidesNothing_classTypeStep (key : Key) : classTypeStep.HidesNothing key := by
  intro r hr p hp d he
  simp only [Schema.allRules, classTypeStep, Rule.rules, List.flatMap_cons, List.flatMap_nil, List.append_nil,
    List.cons_append, List.nil_append, List.mem_cons, List.not_mem_nil, or_false] at hr
  rcases hr with rfl | rfl | rfl <;> simp_all [Rule.predicates]

theorem stepField_step (step units : String) : (stepField step units).find "step" = some step := by
  simp [stepField_find]

end Fdb5
