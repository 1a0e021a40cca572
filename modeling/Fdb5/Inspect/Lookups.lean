import Fdb5.Inspect.Search
import Fdb5.Rules.FirstPath
import Fdb5.Toc.AxisMatch

/-! What a request with one value to a keyword looks up. -/
namespace Fdb5

open Effect

/-- The three keys of a datum that is stored or asked for. -/
structure LevelKeys where
  database : Key
  index : Key
  datum : Key

/-- What a reader that goes everywhere has selected, and looked up. -/
structure Lookups where
  database : Key := {}
  index : Key := {}
  found : List LevelKeys := []

/-- A visitor that takes the values of the request as they are, and notes the keys of each datum it is asked for. -/
def seeker (s : Schema) : ReadVisitor Lookups where
  selectDatabase key _ := do
    modify fun t => { t with database := key }
    return true
  selectIndex key _ := do
    modify fun t => { t with index := key }
    return true
  selectDatum key _ := do
    modify fun t => { t with found := t.found ++ [⟨t.database, t.index, key⟩] }
    return true
  values _ request keyword _ := .ok (request.values keyword)
  databaseSchema := return s

section Sought

variable (request : Key)

/-- The value that is tried for a predicate: that of the request, or the default. -/
def Predicate.sought (p : Predicate) : Option String :=
  match request.find p.keyword with
  | some value => some value
  | none => p.defaultValue.toOption

def Rule.soughtFrom : List Predicate → Key → Option Key
  | [], k => some k
  | p :: next, k =>
    match p.sought request with
    | none => none
    | some value =>
      if p.accepts (k.push p.keyword value) then soughtFrom next (k.push p.keyword value) else none

/-- The key that a rule makes of the request. -/
def Rule.sought (r : Rule) : Option Key :=
  (soughtFrom request r.predicates {}).map fun k => { k with registry := some r.registry }

/-- The keys that the request looks up below an index key. -/
def Rule.seeksDatum (k0 k1 : Key) (r : Rule) : List LevelKeys := (r.sought request).toList.map fun k2 => ⟨k0, k1, k2⟩

def Rule.seeksIndex (k0 : Key) (i : Rule) : List LevelKeys :=
  (i.sought request).toList.flatMap fun k1 => i.rules.flatMap (Rule.seeksDatum request k0 k1)

def Schema.seeksDatabase (s : Schema) (f : Rule) : List LevelKeys :=
  (f.sought request).toList.flatMap fun k0 =>
    (s.databaseRule k0).toList.flatMap fun d => d.rules.flatMap (Rule.seeksIndex request k0)

/-- All keys that the request looks up. -/
def Schema.seeks (s : Schema) : List LevelKeys := s.rules.flatMap (s.seeksDatabase request)

end Sought

section Values

variable {request k k' : Key} {p : Predicate} {ps : List Predicate} {keyword value : String} {α : Type}

theorem Predicate.offered_ofKey :
    p.offered (.ok ((MarsRequest.ofKey request).values p.keyword)) = .ok (p.sought request).toList := by
  rw [MarsRequest.values_ofKey, Predicate.sought, Predicate.offered]
  cases request.find p.keyword with
  | some value => rfl
  | none =>
    obtain ⟨keyword, matcher⟩ := p
    cases matcher <;> rfl

/-- A search for one value to a keyword finds what there is for the key that is made of them. -/
theorem searchFrom_ofKey {found : Key → Except Failure (List α)} :
    searchFrom (fun p => .ok (p.sought request).toList) found ps k =
      match Rule.soughtFrom request ps k with
      | none => .ok []
      | some k' => found k' := by
  induction ps generalizing k with
  | nil => rfl
  | cons p next ih =>
    have hone : ∀ (value : String) (g : String → Except Failure (List α)),
        (do let parts ← [value].mapM g; return parts.flatten) = g value := by
      intro value g
      rw [List.mapM_cons, List.mapM_nil]
      cases g value <;> simp [bind, Except.bind, pure, Except.pure]
    rw [searchFrom, Rule.soughtFrom]
    cases p.sought request with
    | none => rfl
    | some value =>
      refine (hone value _).trans ?_
      by_cases ha : p.accepts (k.push p.keyword value) = true
      · simp only [ha, if_true, ih]
      · simp [ha]

/-- Each keyword that the request has gets its value. -/
theorem Rule.soughtFrom_value (h : soughtFrom request ps k = some k') (hr : request.find keyword = some value) :
    k'.find keyword = k.find keyword ∧ keyword ∉ ps.map (·.keyword) ∨ k'.find keyword = some value := by
  induction ps generalizing k with
  | nil => exact .inl ⟨by rw [← Option.some.inj h], by simp⟩
  | cons p next ih =>
    rw [soughtFrom] at h
    cases hv : p.sought request with
    | none => simp [hv] at h
    | some v =>
      simp only [hv] at h
      split at h
      · rcases ih h with ⟨hsame, hnot⟩ | hvalue
        · rw [Key.find_push_eq] at hsame
          by_cases hp : p.keyword = keyword
          · rw [if_pos hp] at hsame
            rw [Predicate.sought, hp, hr] at hv
            exact .inr (hsame.trans hv.symm)
          · rw [if_neg hp] at hsame
            refine .inl ⟨hsame, ?_⟩
            rw [List.map_cons, List.mem_cons]
            exact fun hmem => hmem.elim (fun h => hp h.symm) hnot
        · exact .inr hvalue
      · cases h

theorem Rule.soughtFrom_allows (h : soughtFrom request ps k = some k') :
    ∀ p ∈ ps, ∃ value, p.sought request = some value ∧ ∀ k : Key, p.accepts (k.push p.keyword value) = true := by
  induction ps generalizing k with
  | nil => simp
  | cons p next ih =>
    rw [soughtFrom] at h
    cases hv : p.sought request with
    | none => simp [hv] at h
    | some value =>
      simp only [hv] at h
      split at h
      · rename_i ha
        rintro q (_ | ⟨_, hq⟩)
        · refine ⟨value, hv, fun k' => ?_⟩
          rw [← ha]
          exact Predicate.accepts_congr (by rw [Key.find_push, Key.find_push])
        · exact ih h q hq
      · cases h

theorem Rule.builds_of_sought {r : Rule} (h : r.sought request = some k) : r.Builds k := by
  have hpicks (ps : List Predicate) : ∀ k k' : Key, soughtFrom request ps k = some k' → Picks ps k k' := by
    induction ps with
    | nil => exact fun _ _ h => (Option.some.inj h).symm
    | cons p next ih =>
      intro k k' h
      rw [soughtFrom] at h
      cases hv : p.sought request with
      | none => simp [hv] at h
      | some value =>
        simp only [hv] at h
        split at h
        next hacc => exact ⟨value, hacc, ih _ _ h⟩
        next => cases h
  obtain ⟨k', hk, rfl⟩ := Option.map_eq_some_iff.mp h
  exact ⟨k', hpicks _ _ _ hk, rfl⟩

/-- A rule accepts the key that it makes of a request. -/
theorem Rule.accepts_of_sought {r : Rule} (h : r.sought request = some k) : r.accepts k = true := by
  obtain ⟨k', hk, rfl⟩ := Option.map_eq_some_iff.mp h
  rw [accepts, List.all_eq_true]
  intro p hp
  obtain ⟨value, hv, ha⟩ := soughtFrom_allows hk p hp
  cases hr : request.find p.keyword with
  | some w =>
    rw [Predicate.sought, hr] at hv
    obtain rfl := Option.some.inj hv
    rw [← ha {}]
    refine Predicate.accepts_congr ?_
    rw [Key.find_push]
    exact (soughtFrom_value hk hr).resolve_left fun h => h.2 (List.mem_map_of_mem hp)
  | none =>
    obtain ⟨keyword, matcher⟩ := p
    rw [Predicate.sought, hr] at hv
    cases matcher with
    | always => rfl
    | optional d => rfl
    | hidden d => rfl
    | value v => cases hv
    | any vs => cases hv

/-- A value that is archived is the one looked up, if it is not a hidden default. -/
theorem Predicate.sought_of_value (hhidden : ∀ d, p.matcher = .hidden d → request.find p.keyword = none)
    (h : p.value request = .ok value) : p.sought request = some value := by
  obtain ⟨keyword, matcher⟩ := p
  rw [sought]
  cases hf : request.find keyword with
  | some v =>
    cases matcher with
    | hidden d => exact absurd (hf.symm.trans (hhidden d rfl)) (by simp)
    | always | value _ | any _ | optional _ => simp_all [Predicate.value, Matcher.valueOf, Key.get]
  | none =>
    cases matcher <;> simp_all [Predicate.value, Matcher.valueOf, Key.get, defaultValue, Matcher.defaultValue,
      Except.toOption]

theorem Rule.sought_of_assign {r : Rule}
    (hhidden : ∀ p ∈ r.predicates, ∀ d, p.matcher = .hidden d → request.find p.keyword = none)
    (h : r.assign request = .ok (some k)) : r.sought request = some k := by
  have hfrom (ps : List Predicate) (hps : ∀ p ∈ ps, ∀ d, p.matcher = .hidden d → request.find p.keyword = none) :
      ∀ k k' : Key, assignFrom request ps k = .ok (some k') → soughtFrom request ps k = some k' := by
    induction ps with
    | nil =>
      intro k k' h
      cases h
      rfl
    | cons p next ih =>
      intro k k' h
      rw [assignFrom_cons] at h
      cases hv : p.value request with
      | error e => simp [hv] at h
      | ok value =>
        simp only [hv] at h
        rw [soughtFrom, Predicate.sought_of_value (hps p (.head _)) hv]
        split at h
        next hacc => exact (if_pos hacc).trans (ih (fun q hq => hps q (.tail _ hq)) _ _ h)
        next => cases h
  have hblank : Key.Blank {} := ⟨rfl, rfl, rfl⟩
  rw [assignFrom_blank request r hblank] at h
  cases ha : assignFrom request r.predicates {} with
  | error e => simp [ha, Except.map] at h
  | ok found =>
    cases found with
    | none => simp [ha, Except.map] at h
    | some k₁ =>
      simp only [ha, Except.map, Option.map_some, Except.ok.injEq, Option.some.injEq] at h
      rw [sought, hfrom _ hhidden _ _ ha, Option.map_some, h]

end Values

section Run

variable {s : Schema} {request k0 k1 : Key} {r : Rule} {outer : Nat → Key} {full : List String} {depth : Nat} {w : Workspace}
  {t : Lookups}

/-- The expansion of a rule looks up what there is for the key that it makes of the request. -/
theorem ends_sought {atEnd : Workspace → EStateM Failure Lookups Workspace} {I : Lookups → Prop}
    {F : Key → Except Failure (List LevelKeys)} {B : Key → List LevelKeys} (hd : depth < 3)
    (hatEnd : ∀ k w t, w.At outer full depth [] k → I t → Ends (atEnd w) t (fun w' u => w'.At outer full depth [] k ∧ I u ∧
      ∃ ys, F { k with registry := some r.registry } = .ok ys ∧ u.found = t.found ++ ys)
        fun e _ => F { k with registry := some r.registry } = .error e)
    (hfound : ∀ k, r.sought request = some k → F k = .ok (B k)) (hw : w.At outer full depth r.predicates {})
    (ht : I t) : Ends (Rule.expandRequestFrom (seeker s) (.ofKey request) r.registry depth atEnd r.predicates w) t
      (fun w' u => w'.At outer full depth r.predicates {} ∧ I u ∧
        u.found = t.found ++ (r.sought request).toList.flatMap B) fun _ _ => False := by
  have hsearch : Ends (Rule.expandRequestFrom (seeker s) (.ofKey request) r.registry depth atEnd r.predicates w) t
      (fun w' u => w'.At outer full depth r.predicates {} ∧ I u ∧
        ∃ ys, searchFrom (fun p => .ok (p.sought request).toList) (fun k => F { k with registry := some r.registry })
          r.predicates {} = .ok ys ∧ Lookups.found u = Lookups.found t ++ ys)
      fun e _ => searchFrom (fun p => .ok (p.sought request).toList) (fun k => F { k with registry := some r.registry })
        r.predicates {} = .error e :=
    Rule.ends_searchFrom (C := fun _ => True) hd (fun p _ _ _ => Predicate.offered_ofKey)
      (fun _ k w t _ hw ht _ => hatEnd k w t hw ht) [] w t hw ht
      fun e (_ : Rule.OccursFrom _ _ _ depth _ (fun _ _ _ _ => False) _ _ _ _ e) => trivial
  rw [searchFrom_ofKey] at hsearch
  cases hk : Rule.soughtFrom request r.predicates {} with
  | none =>
    rw [hk] at hsearch
    refine hsearch.mono ?_ fun e _ he => by cases he
    rintro w' u ⟨hw', hu, ys, hys, hall⟩
    cases hys
    exact ⟨hw', hu, by rw [hall, Rule.sought, hk]; rfl⟩
  | some k =>
    have hsought : r.sought request = some { k with registry := some r.registry } := by rw [Rule.sought, hk]; rfl
    simp only [hk, hfound _ hsought] at hsearch
    refine hsearch.mono ?_ fun e _ he => by cases he
    rintro w' u ⟨hw', hu, ys, hys, hall⟩
    cases hys
    exact ⟨hw', hu, by rw [hall, hsought]; simp⟩

/-- So does the expansion of the rules of a level, one after the other. -/
theorem ends_soughtRules {rules : List Rule} {expandRule : Rule → Workspace → EStateM Failure Lookups Workspace}
    {I : Lookups → Prop} {F : Rule → List LevelKeys} (hw : w.At outer full depth [] {}) (ht : I t)
    (h : ∀ r ∈ rules, ∀ w t, w.At outer full depth r.predicates {} → I t → Ends (expandRule r w) t
      (fun w' u => w'.At outer full depth r.predicates {} ∧ I u ∧ u.found = t.found ++ F r) fun _ _ => False) :
    Ends (rules.foldlM (fun w r => expandRule r w) w) t
      (fun w' u => w'.At outer full depth [] {} ∧ I u ∧ u.found = t.found ++ rules.flatMap F) fun _ _ => False := by
  have hsearch : Ends (rules.foldlM (fun w r => expandRule r w) w) t (fun w' u => (w'.At outer full depth [] {} ∧ I u) ∧
      ∃ parts, rules.mapM (fun r => Except.ok (F r)) = (.ok parts : Except Failure _) ∧ Lookups.found u = Lookups.found t ++ parts.flatten)
      fun e _ => rules.mapM (fun r => Except.ok (F r)) = .error e := by
    refine Rule.ends_searchRules (C := fun _ => True) hw ht
      (fun e (_ : Rule.OccursIn _ (fun _ _ _ _ => False) _ _ _ e) => trivial) fun r hr w t hw ht _ => ?_
    refine (h r hr w t hw ht).mono ?_ fun _ _ h => h.elim
    rintro w' u ⟨hw', hu, hfound⟩
    exact ⟨hw', hu, _, rfl, hfound⟩
  have hmap : rules.mapM (fun r => Except.ok (F r)) = (.ok (rules.map F) : Except Failure _) := List.mapM_pure
  rw [hmap] at hsearch
  refine hsearch.mono ?_ fun e _ he => by cases he
  rintro w' u ⟨⟨hw', hu⟩, parts, hparts, hfound⟩
  cases hparts
  exact ⟨hw', hu, hfound⟩

theorem ends_seeksDatum (hr : r.rules = []) (hw : w.At outer full 2 r.predicates {})
    (ht : t.database = k0 ∧ t.index = k1) : Ends (Rule.expandRequest (seeker s) (.ofKey request) 1 r w) t
      (fun w' u => w'.At outer full 2 r.predicates {} ∧ (u.database = k0 ∧ u.index = k1) ∧
        u.found = t.found ++ r.seeksDatum request k0 k1) fun _ _ => False := by
  rw [Rule.seeksDatum, List.map_eq_flatMap]
  refine ends_sought (F := fun k2 => .ok [⟨k0, k1, k2⟩]) (I := fun t => t.database = k0 ∧ t.index = k1) (by omega) ?_
    (fun _ _ => rfl) hw ht
  rintro k w t hw ⟨rfl, rfl⟩
  rw [Rule.ends_atEnd_datum, hw.key_eq (by omega), hr, List.isEmpty_nil, if_pos rfl]
  exact ⟨hw.setRegistry (by omega) _, ⟨rfl, rfl⟩, _, rfl, rfl⟩

theorem ends_seeksIndex (hr : r.rules ≠ []) (hleaf : ∀ r' ∈ r.rules, r'.rules = []) (hw : w.At outer full 1 r.predicates {})
    (ht : t.database = k0) : Ends (Rule.expandRequest (seeker s) (.ofKey request) 2 r w) t
      (fun w' u => w'.At outer full 1 r.predicates {} ∧ u.database = k0 ∧
        u.found = t.found ++ r.seeksIndex request k0) fun _ _ => False := by
  refine ends_sought (F := fun k1 => .ok (r.rules.flatMap (Rule.seeksDatum request k0 k1)))
    (I := fun t => t.database = k0) (by omega) ?_ (fun _ _ => rfl) hw ht
  intro k w t hw ht
  rw [Rule.ends_atEnd_index, hw.key_eq (by omega), if_neg (by simpa using hr)]
  replace hw : (w.setRegistry 1 r.registry).At outer full 1 [] k := hw.setRegistry (by omega) _
  change Ends (r.rules.foldlM _ _) { t with index := { k with registry := some r.registry } } _ _
  refine (ends_soughtRules (t := { t with index := { k with registry := some r.registry } })
    (I := fun u => u.database = k0 ∧ u.index = { k with registry := some r.registry }) (hw.deepen (by omega)) ⟨ht, rfl⟩
    fun r' hr' w t hw ht => ends_seeksDatum (hleaf r' hr') hw ht).mono ?_ fun _ _ h => h.elim
  rintro w' u ⟨hw', hu, hfound⟩
  exact ⟨hw.back rfl hw', hu.1, _, rfl, hfound⟩

theorem ends_seeksDatabase (hs : s.ThreeLevels) (hr : r ∈ s.rules) (hw : w.At outer full 0 r.predicates {}) :
    Ends (Rule.expandRequest (seeker s) (.ofKey request) 3 r w) t
      (fun w' u => w'.At outer full 0 r.predicates {} ∧ True ∧ u.found = t.found ++ s.seeksDatabase request r)
      fun _ _ => False := by
  refine ends_sought (I := fun _ => True) (B := fun k0 => (s.databaseRule k0).toList.flatMap fun d =>
      d.rules.flatMap (Rule.seeksIndex request k0))
    (F := fun k0 => (s.databaseRule k0).elim (.error (.assertion "dbRule")) fun d =>
      .ok (d.rules.flatMap (Rule.seeksIndex request k0))) (by omega) ?_ ?_ hw trivial
  · intro k w t hw _
    have hfull := hw.fullKeys rfl
    rw [Rule.ends_atEnd_database, hw.key_eq (by omega), if_neg (by simpa using hs.second r hr)]
    refine ⟨fun _ => ?_, fun hne => absurd hfull.symm hne⟩
    change Ends (Schema.expandRequestSecond _ s _) _ _ _
    rw [Schema.expandRequestSecond]
    cases hd : s.databaseRule { k with registry := some r.registry } with
    | none => rfl
    | some d =>
      have hmem := Schema.databaseRule_mem hd
      refine (ends_bind _ _).mpr ((ends_soughtRules (I := fun u => u.database = { k with registry := some r.registry })
        Workspace.At.below rfl fun i hi w t hw ht => ends_seeksIndex (hs.third d hmem i hi) (hs.leaf d hmem i hi) hw ht).mono
        ?_ fun _ _ h => h.elim)
      rintro _ u ⟨-, -, hfound⟩
      exact ⟨hw.setRegistry (by omega) _, trivial, _, rfl, hfound⟩
  · intro k0 hk
    have hsome : (s.databaseRule k0).isSome = true := List.find?_isSome.mpr ⟨r, hr, Rule.accepts_of_sought hk⟩
    obtain ⟨d, hd⟩ := Option.isSome_iff_exists.mp hsome
    simp [hd]

theorem mem_seeks {ks : LevelKeys} : ks ∈ s.seeks request ↔ ∃ f ∈ s.rules, f.sought request = some ks.database ∧
    ∃ d, s.databaseRule ks.database = some d ∧ ∃ i ∈ d.rules, i.sought request = some ks.index ∧
      ∃ r ∈ i.rules, r.sought request = some ks.datum := by
  obtain ⟨k0, k1, k2⟩ := ks
  simp only [Schema.seeks, Schema.seeksDatabase, Rule.seeksIndex, Rule.seeksDatum, List.mem_flatMap, List.mem_map,
    Option.mem_toList, LevelKeys.mk.injEq]
  constructor
  · rintro ⟨f, hf, _, hk0, d, hd, i, hi, _, hk1, r, hr, _, hk2, rfl, rfl, rfl⟩
    exact ⟨f, hf, hk0, d, hd, i, hi, hk1, r, hr, hk2⟩
  · rintro ⟨f, hf, hk0, d, hd, i, hi, hk1, r, hr, hk2⟩
    exact ⟨f, hf, k0, hk0, d, hd, i, hi, k1, hk1, r, hr, k2, hk2, rfl, rfl, rfl⟩

/-- The expansion of a request looks up the keys that the rules make of it. -/
theorem ends_seeks (hs : s.ThreeLevels) : Ends (s.expandRequest (seeker s) (.ofKey request)) t
    (fun _ u => u.found = t.found ++ s.seeks request) fun _ _ => False := by
  rw [Schema.expandRequest, ends_bind]
  have hfresh : (Workspace.fresh s.registry).At (fun _ => {}) [] 0 [] {} := .fresh
  exact (ends_soughtRules (I := fun _ => True) hfresh trivial fun r hr w _ hw _ => ends_seeksDatabase hs hr hw).mono
    (fun _ _ h => h.2.2) fun _ _ h => h

end Run

end Fdb5
