import Fdb5.Rules.Assign
import Fdb5.Inspect.Request

/-! The branches of a read expansion: the keys that they build and what the visitor is asked. -/
namespace Fdb5

open Effect

variable {σ : Type}

/-- The keys that a rule's predicates can make of a key. -/
def Rule.Picks : List Predicate → Key → Key → Prop
  | [], k, k' => k' = k
  | p :: next, k, k' =>
    ∃ value, p.accepts (k.push p.keyword value) ∧ Picks next (k.push p.keyword value) k'

/-- The expansion is at the predicates `next` of a level: the level's key is `k`, less what later
predicates push again, and nothing is left of deeper levels. -/
structure Workspace.At (outer : Nat → Key) (full : List String) (depth : Nat) (next : List Predicate)
    (k : Key) (w : Workspace) : Prop where
  shallow : ∀ j < depth, w.key j = outer j
  names : (w.key depth).names = k.names
  canonical : (w.key depth).canonical = k.canonical
  find : ∀ keyword, (w.key depth).find keyword = k.find keyword ∨
    keyword ∈ next.map (·.keyword) ∧ (w.key depth).find keyword = none
  deeper : ∀ j, depth < j → j < 3 → (w.key j).Blank
  fullNames : w.full.names = full ++ k.names
  fullKeys : depth = 0 → w.full.keys = w.key0.keys

namespace Key

variable {k k' : Key} {keyword value : String}

theorem pop_ok {names : List String} (h : k.names = names ++ [keyword]) : ∃ k', k.pop keyword = .ok k' ∧
    k'.names = names ∧ k'.keys = k.keys.erase keyword ∧ k'.canonical = k.canonical ∧
      ∀ other, k'.find other = if keyword = other then none else k.find other := by
  refine ⟨_, pop_of_names h, rfl, rfl, rfl, fun other => ?_⟩
  simp only [find, Std.ExtTreeMap.getElem?_erase, Std.LawfulEqCmp.compare_eq_iff_eq]

theorem ext_of_find (hnames : k.names = k'.names) (hcanonical : k.canonical = k'.canonical)
    (hregistry : k.registry = k'.registry) (h : ∀ keyword, k.find keyword = k'.find keyword) : k = k' := by
  obtain ⟨keys, names, registry, canonical⟩ := k
  obtain ⟨keys', names', registry', canonical'⟩ := k'
  simp only at hnames hcanonical hregistry
  subst hnames hcanonical hregistry
  congr 1
  exact Std.ExtTreeMap.ext_getElem? h

end Key

theorem Predicate.accepts_congr {p : Predicate} {k k' : Key} (h : k.find p.keyword = k'.find p.keyword) :
    p.accepts k = p.accepts k' := by
  obtain ⟨keyword, matcher⟩ := p
  cases matcher <;> simp only [accepts, Matcher.accepts, h]

namespace Workspace

variable {outer : Nat → Key} {full : List String} {depth j : Nat} {next : List Predicate} {k : Key}
  {w : Workspace} {p : Predicate} {value : String} {key : Key}

namespace At

theorem push (hd : depth < 3) (h : w.At outer full depth (p :: next) k) :
    (w.push depth p.keyword value).At outer full depth next (k.push p.keyword value) where
  shallow j hj := by rw [key_push_ne _ _ (by omega) hd (by omega), h.shallow j hj]
  names := by rw [key_push hd, Key.push_names, Key.push_names, h.names]
  canonical := by rw [key_push hd]; exact h.canonical
  find keyword := by
    rw [key_push hd, Key.find_push_eq, Key.find_push_eq]
    by_cases hk : p.keyword = keyword
    · simp [hk]
    · rw [if_neg hk, if_neg hk]
      refine (h.find keyword).imp_right fun ⟨hmem, hnone⟩ => ⟨?_, hnone⟩
      rcases List.mem_cons.mp hmem with rfl | hmem
      · exact absurd rfl hk
      · exact hmem
  deeper j hj hj3 := by rw [key_push_ne _ _ hj3 hd (by omega)]; exact h.deeper j hj hj3
  fullNames := by simp [Workspace.push, Key.push, h.fullNames]
  fullKeys := by
    rintro rfl
    have := h.fullKeys rfl
    simp [Workspace.push, Workspace.setKey, Workspace.key, Key.push, this]

theorem pop (hd : depth < 3) (h : w.At outer full depth next (k.push p.keyword value)) :
    ∃ w', w.pop depth p.keyword = .ok w' ∧ w'.At outer full depth (p :: next) k := by
  obtain ⟨f, hf, hfnames, hfkeys, -⟩ : ∃ f, w.full.pop p.keyword = .ok f ∧ f.names = full ++ k.names ∧ _ :=
    Key.pop_ok (by rw [h.fullNames, Key.push_names, List.append_assoc])
  obtain ⟨k', hk, hnames, hkeys, hcanonical, hfind⟩ : ∃ k', (w.key depth).pop p.keyword = .ok k' ∧
      k'.names = k.names ∧ _ := Key.pop_ok (by rw [h.names, Key.push_names])
  have hkey : ({ w.setKey depth k' with full := f } : Workspace).key depth = k' := key_setKey hd _
  refine ⟨{ w.setKey depth k' with full := f }, by simp [Workspace.pop, hf, hk, bind, Except.bind, pure,
    Except.pure], ⟨fun j hj => ?_, ?_, ?_, fun keyword => ?_, fun j hj hj3 => ?_, ?_, ?_⟩⟩
  · exact (key_setKey_ne _ (by omega) hd (by omega)).trans (h.shallow j hj)
  · rw [hkey, hnames]
  · rw [hkey, hcanonical, h.canonical]
    rfl
  · rw [hkey, hfind]
    have hold := h.find keyword
    rw [Key.find_push_eq] at hold
    by_cases hp : p.keyword = keyword
    · exact .inr ⟨by simp [hp], if_pos hp⟩
    · rw [if_neg hp] at hold ⊢
      exact hold.imp_right fun h => ⟨List.mem_cons_of_mem _ h.1, h.2⟩
  · have hne : ({ w.setKey depth k' with full := f } : Workspace).key j = w.key j :=
      key_setKey_ne _ hj3 hd (by omega)
    rw [hne]
    exact h.deeper j hj hj3
  · exact hfnames
  · rintro rfl
    have hsame := h.fullKeys rfl
    rw [hfkeys, hsame]
    exact hkeys.symm

/-- A level is through when a deeper one is. -/
theorem blank (hk : k.Blank) (h : w.At outer full depth next k) : (w.key depth).Blank where
  names := h.names.trans hk.names
  canonical := h.canonical.trans hk.canonical
  keys := by
    refine Std.ExtTreeMap.ext_getElem? fun keyword => ?_
    have hnone : k.find keyword = none := by simp [Key.find, hk.keys]
    rcases h.find keyword with hfind | ⟨-, hfind⟩
    · exact (hfind.trans hnone).trans (by simp)
    · exact hfind.trans (by simp)

/-- At the end of a level its key is the one that was built. -/
theorem key_eq (hd : depth < 3) (h : w.At outer full depth [] k) (registry : TypesRegistry) :
    (w.setRegistry depth registry).key depth = { k with registry := some registry } :=
  (key_setKey hd _).trans (Key.ext_of_find h.names h.canonical rfl fun keyword =>
    (h.find keyword).resolve_right fun ⟨hmem, _⟩ => by cases hmem)

/-- Setting the registry of the level's key changes nothing else. -/
theorem setRegistry (hd : depth < 3) (h : w.At outer full depth next k) (registry : TypesRegistry) :
    (w.setRegistry depth registry).At outer full depth next k := by
  have hkey : (w.setRegistry depth registry).key depth = { w.key depth with registry := some registry } :=
    key_setKey hd _
  rw [Workspace.setRegistry] at hkey ⊢
  refine ⟨fun j hj => ?_, ?_, ?_, fun keyword => ?_, fun j hj hj3 => ?_, ?_, ?_⟩
  · rw [key_setKey_ne _ (by omega) hd (by omega)]
    exact h.shallow j hj
  · rw [hkey]
    exact h.names
  · rw [hkey]
    exact h.canonical
  · rw [hkey]
    exact h.find keyword
  · rw [key_setKey_ne _ hj3 hd (by omega)]
    exact h.deeper j hj hj3
  · rw [full_setKey]
    exact h.fullNames
  · rintro rfl
    exact h.fullKeys rfl

/-- The next level starts with a blank key. -/
theorem deepen (_ : depth < 2) (h : w.At outer full depth [] k) :
    w.At w.key w.full.names (depth + 1) next {} := by
  have hblank := h.deeper (depth + 1) (by omega) (by omega)
  refine ⟨fun _ _ => rfl, hblank.names, hblank.canonical, fun keyword => .inl ?_, fun j hj hj3 => ?_, ?_, ?_⟩
  · simp [Key.find, hblank.keys]
  · exact h.deeper j (by omega) hj3
  · exact (List.append_nil _).symm
  · omega

/-- After the next level this one is as it was. -/
theorem back {w' : Workspace} {next' : List Predicate} (hd : depth = 1) (h : w.At outer full depth [] k)
    (h' : w'.At w.key w.full.names (depth + 1) next' {}) : w'.At outer full depth [] k := by
  subst hd
  have hkey : w'.key 1 = w.key 1 := h'.shallow 1 (by omega)
  refine ⟨fun j hj => ?_, ?_, ?_, fun keyword => ?_, fun j hj hj3 => ?_, ?_, fun h => by omega⟩
  · rw [h'.shallow j (by omega), h.shallow j hj]
  · rw [hkey, h.names]
  · rw [hkey, h.canonical]
  · rw [hkey]
    exact h.find keyword
  · obtain rfl : j = 2 := by omega
    exact h'.blank ⟨rfl, rfl, rfl⟩
  · rw [h'.fullNames, List.append_nil, h.fullNames]

theorem fresh {registry : TypesRegistry} : (fresh registry).At outer [] 0 next {} := by
  refine ⟨fun j hj => by omega, rfl, rfl, fun _ => .inl rfl, fun j hj hj3 => ?_, rfl, fun _ => rfl⟩
  match j, hj, hj3 with
  | 1, _, _ | 2, _, _ => exact ⟨rfl, rfl, rfl⟩

theorem below {registry : TypesRegistry} {dbKey : Key} :
    (below registry dbKey).At (fun _ => dbKey) dbKey.names 1 next {} := by
  refine ⟨fun j hj => ?_, rfl, rfl, fun _ => .inl rfl, fun j hj hj3 => ?_, ?_, fun h => by omega⟩
  · obtain rfl : j = 0 := by omega
    rfl
  · obtain rfl : j = 2 := by omega
    exact ⟨rfl, rfl, rfl⟩
  · exact (List.append_nil _).symm

/-- A level where the expansion of one rule is through is one where that of another can start. -/
theorem restart {next' : List Predicate} (h : w.At outer full depth next {}) :
    w.At outer full depth next' {} := by
  have hblank := h.blank ⟨rfl, rfl, rfl⟩
  exact ⟨h.shallow, h.names, h.canonical, fun keyword => .inl (by simp [Key.find, hblank.keys]), h.deeper,
    h.fullNames, h.fullKeys⟩

end At

end Workspace

namespace Rule

section From

variable {v : ReadVisitor σ} {request : MarsRequest} {registry : TypesRegistry} {outer : Nat → Key}
  {full : List String} {depth : Nat} {atEnd inner : Workspace → EStateM Failure σ Workspace}
  {p : Predicate} {next ps : List Predicate} {k : Key} {w : Workspace} {value : String} {s : σ}
  {I : σ → Prop}

/-- A turn is what follows for the key with the value, where the predicate accepts it. -/
theorem ends_turn {E : Failure → σ → Prop} (hd : depth < 3) (hw : w.At outer full depth (p :: next) k)
    (hyes : p.accepts (k.push p.keyword value) →
      (w.push depth p.keyword value).At outer full depth next (k.push p.keyword value) →
      Ends (inner (w.push depth p.keyword value)) s
        (fun w' t => w'.At outer full depth next (k.push p.keyword value) ∧ I t) E)
    (hno : ¬ p.accepts (k.push p.keyword value) → I s) :
    Ends (turn depth p inner w value) s (fun w' t => w'.At outer full depth (p :: next) k ∧ I t) E := by
  have hpush : (w.push depth p.keyword value).At outer full depth next _ := hw.push hd
  have haccepts : p.accepts ((w.push depth p.keyword value).key depth) = p.accepts (k.push p.keyword value) := by
    refine Predicate.accepts_congr ?_
    rw [Workspace.key_push hd _ _, Key.find_push_eq, Key.find_push_eq, if_pos rfl, if_pos rfl]
  have hpop : ∀ (w' : Workspace) t, w'.At outer full depth next (k.push p.keyword value) ∧ I t →
      Ends (lift (w'.pop depth p.keyword)) t (fun w' t => w'.At outer full depth (p :: next) k ∧ I t) E := by
    rintro w' t ⟨hw', ht⟩
    obtain ⟨w'', hok, hw''⟩ := hw'.pop hd
    rw [hok, ends_lift]
    exact ⟨fun _ h => Except.ok.inj h ▸ ⟨hw'', ht⟩, fun _ h => by cases h⟩
  rw [turn]
  simp only [haccepts]
  split
  · rename_i h
    rw [ends_bind]
    exact (hyes h hpush).mono hpop fun _ _ h => h
  · rename_i h
    rw [ends_bind, ends_pure]
    exact hpop _ _ ⟨hpush, hno h⟩

/-- An expansion leaves the workspace as it was and keeps what its ends keep. -/
theorem ends_expandRequestFrom (hd : depth < 3)
    (hatEnd : ∀ k' w s, Picks ps k k' → w.At outer full depth [] k' → I s →
      Ends (atEnd w) s (fun w' t => w'.At outer full depth [] k' ∧ I t) fun _ => I) :
    ∀ w s, w.At outer full depth ps k → I s → Ends (expandRequestFrom v request registry depth atEnd ps w) s
      (fun w' t => w'.At outer full depth ps k ∧ I t) fun _ => I := by
  induction ps generalizing k with
  | nil =>
    intro w s hw hs
    rw [expandRequestFrom]
    simp only [ends_bind, ends_ensure, hd, not_true, false_implies, and_true, true_implies]
    exact hatEnd k w s rfl hw hs
  | cons p next ih =>
    intro w s hw hs
    rw [expandRequestFrom]
    simp only [ends_bind, ends_ensure, hd, not_true, false_implies, and_true, true_implies, ends_get, ends_lift]
    refine ⟨fun values _ => ?_, fun _ _ => hs⟩
    refine ends_foldlM (fun value _ w s hw => ?_) w s ⟨hw, hs⟩
    refine ends_turn hd hw.1 (fun h hpush => ?_) fun _ => hw.2
    exact ih (fun k' w s hk' => hatEnd k' w s ⟨value, h, hk'⟩) _ s hpush hw.2

end From

section AtEnd

variable {v : ReadVisitor σ} {expandRule : Rule → Workspace → EStateM Failure σ Workspace} {r : Rule} {w : Workspace}
  {s : σ} {Q : Workspace → σ → Prop} {E : Failure → σ → Prop}

theorem ends_atEnd_datum : Ends (r.atEndRequest v expandRule 2 w) s Q E ↔
    if r.rules.isEmpty then Ends (v.selectDatum ((w.setRegistry 2 r.registry).key 2) w.full) s
      (fun _ t => Q (w.setRegistry 2 r.registry) t) E
    else E (.assertion "depth == 0 || depth == 1") s := by
  have hfull : (w.setRegistry 2 r.registry).full = w.full := Workspace.full_setKey _
  unfold atEndRequest
  by_cases hr : r.rules.isEmpty
  · simp [hr, hfull]
  · simp only [hr, Bool.false_eq_true, if_false]
    rfl

theorem ends_atEnd_index : Ends (r.atEndRequest v expandRule 1 w) s Q E ↔
    if r.rules.isEmpty then E (.assertion "depth == 2") s
    else Ends (v.selectIndex ((w.setRegistry 1 r.registry).key 1) w.full) s (fun b t =>
      if b then Ends (r.rules.foldlM (fun w r' => expandRule r' w) (w.setRegistry 1 r.registry)) t Q E
      else Q (w.setRegistry 1 r.registry) t) E := by
  have hfull : (w.setRegistry 1 r.registry).full = w.full := Workspace.full_setKey _
  rw [atEndRequest]
  by_cases hr : r.rules.isEmpty
  · simp [hr]
  · simp only [hr, Bool.false_eq_true, if_false, ends_bind, hfull]
    refine ⟨fun h => h.mono (fun b t ht => ?_) fun _ _ h => h, fun h => h.mono (fun b t ht => ?_) fun _ _ h => h⟩
    all_goals cases b <;> exact ht

theorem ends_atEnd_database : Ends (r.atEndRequest v expandRule 0 w) s Q E ↔
    if r.rules.isEmpty then E (.assertion "depth == 2") s
    else Ends (v.selectDatabase ((w.setRegistry 0 r.registry).key 0) w.full) s (fun b t =>
      if b then (w.key0.keys = w.full.keys → Ends v.databaseSchema t (fun schema t =>
          Ends (schema.expandRequestSecond expandRule ((w.setRegistry 0 r.registry).key 0)) t
            (fun _ t => Q (w.setRegistry 0 r.registry) t) E) E) ∧
        (w.key0.keys ≠ w.full.keys → E (.assertion "keys[0] == full") t)
      else Q (w.setRegistry 0 r.registry) t) E := by
  have hfull : (w.setRegistry 0 r.registry).full = w.full := Workspace.full_setKey _
  have hkeys : ((w.setRegistry 0 r.registry).key 0).keys = w.key0.keys := rfl
  rw [atEndRequest]
  by_cases hr : r.rules.isEmpty
  · simp [hr]
  · simp only [hr, Bool.false_eq_true, if_false, ends_bind, hfull]
    refine ⟨fun h => h.mono (fun b t ht => ?_) fun _ _ h => h, fun h => h.mono (fun b t ht => ?_) fun _ _ h => h⟩
    · cases b with
      | false => exact ht
      | true => simpa only [if_true, ends_bind, ends_ensure, hkeys, hfull, ends_pure] using ht
    · cases b with
      | false => exact ht
      | true => simpa only [if_true, ends_bind, ends_ensure, hkeys, hfull, ends_pure] using ht

end AtEnd

/-- The keys that a rule can build, with its registry. -/
def Builds (r : Rule) (k : Key) : Prop :=
  ∃ k', Picks r.predicates {} k' ∧ k = { k' with registry := some r.registry }

theorem Picks.names {ps : List Predicate} {k k₁ : Key} (h : Picks ps k k₁) :
    k₁.names = k.names ++ ps.map (·.keyword) ∧ k₁.canonical = k.canonical := by
  induction ps generalizing k with
  | nil =>
    obtain rfl := h
    simp
  | cons p next ih =>
    obtain ⟨value, -, h⟩ := h
    obtain ⟨hnames, hcanonical⟩ := ih h
    exact ⟨by simp [hnames], hcanonical⟩

theorem Picks.mem_keys {ps : List Predicate} {k k₁ : Key} {n : String} (h : Picks ps k k₁) :
    n ∈ k₁.keys ↔ n ∈ k.keys ∨ n ∈ ps.map (·.keyword) := by
  induction ps generalizing k with
  | nil =>
    obtain rfl := h
    simp
  | cons p next ih =>
    obtain ⟨value, -, h⟩ := h
    rw [ih h, Key.push_keys, Std.ExtTreeMap.mem_insert, Std.LawfulEqCmp.compare_eq_iff_eq, List.map_cons, List.mem_cons,
      eq_comm (a := n)]
    tauto

/-- What a rule builds has the keywords of its predicates, as names and in the map. -/
theorem Builds.names {r : Rule} {k : Key} (h : r.Builds k) :
    k.names = r.predicates.map (·.keyword) ∧ ∀ n, n ∈ k.keys ↔ n ∈ r.predicates.map (·.keyword) := by
  obtain ⟨k₁, hpicks, rfl⟩ := h
  refine ⟨by simpa using hpicks.names.1, fun n => ?_⟩
  simpa using hpicks.mem_keys (n := n)

end Rule

/-- What a visitor keeps: before a database is selected, when one is, and when an index is, too. -/
structure ReadVisitor.Keeps (v : ReadVisitor σ) (rules : List Rule) (I₀ : σ → Prop) (I₁ : Key → σ → Prop)
    (I₂ : Key → Key → σ → Prop) : Prop where
  weaken₁ : ∀ k s, I₁ k s → I₀ s
  weaken₂ : ∀ k k' s, I₂ k k' s → I₁ k s
  selectDatabase : ∀ r ∈ rules, ∀ k full s, r.Builds k → I₀ s → Ends (v.selectDatabase k full) s
    (fun b t => if b then I₁ k t else I₀ t) fun _ => I₀
  databaseSchema : ∀ k s, I₁ k s → Ends v.databaseSchema s (fun _ => I₁ k) fun _ => I₁ k
  selectIndex : ∀ k k' full s, I₁ k s → Ends (v.selectIndex k' full) s
    (fun b t => if b then I₂ k k' t else I₁ k t) fun _ => I₁ k
  selectDatum : ∀ k k' k'' full s, I₂ k k' s → Ends (v.selectDatum k'' full) s (fun _ => I₂ k k') fun _ => I₂ k k'

namespace ReadVisitor.Keeps

variable {v : ReadVisitor σ} {request : MarsRequest} {rules : List Rule} {I₀ : σ → Prop} {I₁ : Key → σ → Prop}
  {I₂ : Key → Key → σ → Prop} {outer : Nat → Key} {full : List String} {r : Rule} {k k' : Key} {w : Workspace}
  {s : σ}

theorem ends_atEnd_datum {expandRule : Rule → Workspace → EStateM Failure σ Workspace} {k'' : Key}
    (h : v.Keeps rules I₀ I₁ I₂) (hw : w.At outer full 2 [] k'') (hs : I₂ k k' s) :
    Ends (r.atEndRequest v expandRule 2 w) s (fun w' t => w'.At outer full 2 [] k'' ∧ I₂ k k' t)
      fun _ => I₂ k k' := by
  rw [Rule.ends_atEnd_datum]
  split
  · exact (h.selectDatum k k' _ _ s hs).mono (fun _ _ ht => ⟨hw.setRegistry (by omega) _, ht⟩) fun _ _ h => h
  · exact hs

theorem ends_datum (h : v.Keeps rules I₀ I₁ I₂) (hw : w.At outer full 2 r.predicates {}) (hs : I₂ k k' s) :
    Ends (Rule.expandRequest v request 1 r w) s (fun w' t => w'.At outer full 2 r.predicates {} ∧ I₂ k k' t)
      fun _ => I₂ k k' :=
  Rule.ends_expandRequestFrom (by omega : 2 < 3) (fun _ _ _ _ => h.ends_atEnd_datum) w s hw hs

/-- A loop over the rules of a level. -/
theorem ends_rules {depth : Nat} {P : σ → Prop} {rules : List Rule}
    {expandRule : Rule → Workspace → EStateM Failure σ Workspace}
    (hw : w.At outer full depth [] {}) (hs : P s)
    (h : ∀ r ∈ rules, ∀ w t, w.At outer full depth r.predicates {} → P t → Ends (expandRule r w) t
      (fun w' t => w'.At outer full depth r.predicates {} ∧ P t) fun _ => P) :
    Ends (rules.foldlM (fun w r => expandRule r w) w) s (fun w' t => w'.At outer full depth [] {} ∧ P t)
      fun _ => P := by
  refine ends_foldlM (fun r hr w t hw => ?_) w s ⟨hw, hs⟩
  exact (h r hr w t (hw.1.restart) hw.2).mono (fun _ _ hw' => ⟨hw'.1.restart, hw'.2⟩) fun _ _ ht => ht

theorem ends_atEnd_index (h : v.Keeps rules I₀ I₁ I₂) (hw : w.At outer full 1 [] k') (hs : I₁ k s) :
    Ends (r.atEndRequest v (Rule.expandRequest v request 1) 1 w) s
      (fun w' t => w'.At outer full 1 [] k' ∧ I₁ k t) fun _ => I₁ k := by
  replace hw := hw.setRegistry (by omega) r.registry
  rw [Rule.ends_atEnd_index]
  split
  · exact hs
  · refine (h.selectIndex k _ _ s hs).mono (fun b t ht => ?_) fun _ _ h => h
    cases b with
    | false => exact ⟨hw, ht⟩
    | true =>
      replace ht : I₂ k _ t := ht
      refine (ends_rules (hw.deepen (by omega)) ht fun r' _ w t hw ht => h.ends_datum hw ht).mono
        (fun _ _ hw' => ⟨hw.back rfl hw'.1, h.weaken₂ _ _ _ hw'.2⟩) fun _ t ht' => h.weaken₂ _ _ _ ht'

theorem ends_index (h : v.Keeps rules I₀ I₁ I₂) (hw : w.At outer full 1 r.predicates {}) (hs : I₁ k s) :
    Ends (Rule.expandRequest v request 2 r w) s (fun w' t => w'.At outer full 1 r.predicates {} ∧ I₁ k t)
      fun _ => I₁ k :=
  Rule.ends_expandRequestFrom (by omega : 1 < 3) (fun _ _ _ _ => h.ends_atEnd_index) w s hw hs

theorem ends_atEnd_database (h : v.Keeps rules I₀ I₁ I₂) (hr : r ∈ rules) (hk : Rule.Picks r.predicates {} k)
    (hw : w.At outer full 0 [] k) (hs : I₀ s) :
    Ends (r.atEndRequest v (Rule.expandRequest v request 2) 0 w) s
      (fun w' t => w'.At outer full 0 [] k ∧ I₀ t) fun _ => I₀ := by
  have hkey := hw.key_eq (by omega) r.registry
  replace hw := hw.setRegistry (by omega) r.registry
  rw [Rule.ends_atEnd_database]
  split
  · exact hs
  · refine (h.selectDatabase r hr _ _ s ⟨k, hk, hkey⟩ hs).mono (fun b t ht => ?_) fun _ _ h => h
    cases b with
    | false => exact ⟨hw, ht⟩
    | true =>
      replace ht : I₁ _ t := ht
      refine ⟨fun _ => ?_, fun _ => h.weaken₁ _ _ ht⟩
      refine (h.databaseSchema _ t ht).mono (fun schema t ht => ?_) fun _ _ ht => h.weaken₁ _ _ ht
      rw [Schema.expandRequestSecond]
      split
      · exact h.weaken₁ _ _ ht
      · rw [ends_bind]
        exact (ends_rules Workspace.At.below ht fun r' _ w t hw ht => h.ends_index hw ht).mono
          (fun _ t ht => ⟨hw, h.weaken₁ _ _ ht.2⟩) fun _ t ht => h.weaken₁ _ _ ht

theorem ends_database (h : v.Keeps rules I₀ I₁ I₂) (hr : r ∈ rules) (hw : w.At outer full 0 r.predicates {})
    (hs : I₀ s) : Ends (Rule.expandRequest v request 3 r w) s
      (fun w' t => w'.At outer full 0 r.predicates {} ∧ I₀ t) fun _ => I₀ :=
  Rule.ends_expandRequestFrom (by omega : 0 < 3) (fun _ _ _ hk => h.ends_atEnd_database hr hk) w s hw hs

theorem ends_expandRequest {schema : Schema} (h : v.Keeps schema.rules I₀ I₁ I₂) (hs : I₀ s) :
    Ends (schema.expandRequest v request) s (fun _ => I₀) fun _ => I₀ := by
  rw [Schema.expandRequest, ends_bind]
  have hfresh : (Workspace.fresh schema.registry).At (fun _ => {}) [] 0 [] {} := .fresh
  exact (ends_rules hfresh hs fun r hr w t hw ht => h.ends_database hr hw ht).mono (fun _ _ ht => ht.2) fun _ _ h => h

end ReadVisitor.Keeps

end Fdb5
