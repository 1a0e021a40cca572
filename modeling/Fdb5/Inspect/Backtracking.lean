import Fdb5.Inspect.Branch

/-! What the two expansions leave of their workspace, and the keys that they pass to a visitor. -/
namespace Fdb5

open Effect

/-- The keywords of a rule's own predicates. -/
def Rule.keywords (r : Rule) : List String := r.predicates.map (·.keyword)

namespace Key

/-- The key names these keywords in this order, and has values for them and for no others. -/
structure Exactly (names : List String) (k : Key) : Prop where
  named : k.names = names
  keys : ∀ keyword, keyword ∈ k.keys ↔ keyword ∈ names

/-- The same key, but for the types of its registry. -/
structure Same (k k' : Key) : Prop where
  keys : k'.keys = k.keys
  names : k'.names = k.names
  canonical : k'.canonical = k.canonical

variable {k k' k'' : Key} {names : List String} {keyword value : String}

theorem Same.refl (k : Key) : k.Same k := ⟨rfl, rfl, rfl⟩

theorem Same.trans (h : k.Same k') (h' : k'.Same k'') : k.Same k'' :=
  ⟨h'.keys.trans h.keys, h'.names.trans h.names, h'.canonical.trans h.canonical⟩

theorem Same.eq (h : k.Same k') (hregistry : k'.registry = k.registry) : k' = k := by
  obtain ⟨hkeys, hnames, hcanonical⟩ := h
  cases k
  cases k'
  simp_all

theorem Exactly.same (h : k.Exactly names) (hs : k.Same k') : k'.Exactly names :=
  ⟨hs.names.trans h.named, fun keyword => hs.keys ▸ h.keys keyword⟩

theorem Blank.exactly (h : k.Blank) : k.Exactly [] := ⟨h.names, fun _ => by simp [h.keys]⟩

theorem Blank.same (h : k.Blank) (hs : k.Same k') : k'.Blank :=
  ⟨hs.names.trans h.names, hs.keys.trans h.keys, hs.canonical.trans h.canonical⟩

theorem Exactly.push (h : k.Exactly names) : (k.push keyword value).Exactly (names ++ [keyword]) := by
  refine ⟨by rw [push_names, h.named], fun other => ?_⟩
  rw [mem_push, h.keys, List.mem_append, List.mem_singleton, or_comm]

/-- A new keyword that was pushed is popped, and nothing of it is left. -/
theorem Same.pop (hnew : keyword ∉ k.keys) (h : (k.push keyword value).Same k') :
    ∃ k'', k'.pop keyword = .ok k'' ∧ k.Same k'' ∧ k''.registry = k'.registry := by
  refine ⟨_, pop_of_names (h.names.trans (push_names ..)), ⟨?_, rfl, h.canonical⟩, rfl⟩
  show k'.keys.erase keyword = k.keys
  rw [h.keys, erase_push hnew]

end Key

namespace Workspace

/-- An expansion at the depth leaves the keys above and the full key as they were, and of the others only the types of
the registry can be new. -/
structure Restored (depth : Nat) (w w' : Workspace) : Prop where
  above : ∀ d < depth, w'.key d = w.key d
  level : ∀ d, depth ≤ d → d < 3 → (w.key d).Same (w'.key d)
  full : w'.full = w.full

/-- With these predicates of a level to come, its key and the full key will name what they have to, and the keys of the
levels below are blank. -/
structure Stage (depth : Nat) (names full : List String) (next : List Predicate) (w : Workspace) : Prop where
  key : ∃ before, (w.key depth).Exactly before ∧ before ++ next.map (·.keyword) = names
  fullKey : ∃ before, w.full.Exactly before ∧ before ++ next.map (·.keyword) = full
  below : w.Ready (depth + 1)

variable {depth : Nat} {names full : List String} {next : List Predicate} {p : Predicate} {w w' w'' : Workspace}
variable {value : String}

theorem Restored.refl (w : Workspace) : w.Restored depth w :=
  ⟨fun _ _ => rfl, fun _ _ _ => .refl _, rfl⟩

theorem Restored.trans (h : w.Restored depth w') (h' : w'.Restored depth w'') : w.Restored depth w'' where
  above d hd := (h'.above d hd).trans (h.above d hd)
  level d hle hd := (h.level d hle hd).trans (h'.level d hle hd)
  full := h'.full.trans h.full

theorem Stage.restored (hd : depth < 3) (h : w.Stage depth names full next) (hr : w.Restored depth w') :
    w'.Stage depth names full next where
  key := by
    obtain ⟨before, hkey, hnames⟩ := h.key
    exact ⟨before, hkey.same (hr.level depth (Nat.le_refl _) hd), hnames⟩
  fullKey := by
    rw [hr.full]
    exact h.fullKey
  below d hle hd := (h.below d hle hd).same (hr.level d (by omega) hd)

theorem Stage.push (hd : depth < 3) (h : w.Stage depth names full (p :: next)) :
    (w.push depth p.keyword value).Stage depth names full next where
  key := by
    obtain ⟨before, hkey, hnames⟩ := h.key
    refine ⟨before ++ [p.keyword], ?_, by rw [← hnames]; simp⟩
    rw [key_push hd]
    exact hkey.push
  fullKey := by
    obtain ⟨before, hfull, hnames⟩ := h.fullKey
    exact ⟨before ++ [p.keyword], hfull.push, by rw [← hnames]; simp⟩
  below d hle hd' := by
    rw [key_push_ne _ _ hd' hd (by omega)]
    exact h.below d hle hd'

theorem not_mem_of_nodup {before : List String} (hnodup : names.Nodup)
    (hnames : before ++ (p :: next).map (·.keyword) = names) : p.keyword ∉ before := by
  rw [← hnames, List.map_cons, List.nodup_append] at hnodup
  exact fun hmem => hnodup.2.2 _ hmem _ List.mem_cons_self rfl

/-- A keyword that no other on the path repeats is popped as it was pushed. -/
theorem Restored.pop (hd : depth < 3) (hnames : names.Nodup) (hfull : full.Nodup)
    (hw : w.Stage depth names full (p :: next)) (h : (w.push depth p.keyword value).Restored depth w') :
    ∃ w'', w'.pop depth p.keyword = .ok w'' ∧ w.Restored depth w'' := by
  obtain ⟨before, hkey, hbefore⟩ := hw.key
  obtain ⟨beforeFull, hfullKey, hbeforeFull⟩ := hw.fullKey
  have hnew : p.keyword ∉ (w.key depth).keys := by
    rw [hkey.keys]
    exact not_mem_of_nodup hnames hbefore
  have hnewFull : p.keyword ∉ w.full.keys := by
    rw [hfullKey.keys]
    exact not_mem_of_nodup hfull hbeforeFull
  have hlevel := h.level depth (Nat.le_refl _) hd
  rw [key_push hd] at hlevel
  obtain ⟨k, hk, hsame, -⟩ := hlevel.pop hnew
  obtain ⟨f, hf, hsameFull, hregistry⟩ := Key.Same.pop hnewFull (h.full ▸ .refl _ : (w.full.push _ value).Same w'.full)
  have hf' : f = w.full := hsameFull.eq (by rw [hregistry, h.full, full_push, Key.push_registry])
  subst hf'
  refine ⟨{ w'.setKey depth k with full := w.full }, ?_, fun d hlt => ?_, fun d hle hd' => ?_, rfl⟩
  · simp only [Workspace.pop, hf, hk, bind, Except.bind, pure, Except.pure]
  · have habove := h.above d hlt
    rw [key_push_ne _ _ (by omega) hd (by omega)] at habove
    exact (key_setKey_ne k (by omega) hd (by omega)).trans habove
  · change (w.key d).Same ((w'.setKey depth k).key d)
    rcases Nat.eq_or_lt_of_le hle with rfl | hlt
    · rw [key_setKey hd]
      exact hsame
    · have hbelow := h.level d hle hd'
      rw [key_push_ne _ _ hd' hd (by omega)] at hbelow
      rw [key_setKey_ne k hd' hd (by omega)]
      exact hbelow

/-- Setting the registry of the level's key is all that an end does to the workspace. -/
theorem restored_setRegistry (hd : depth < 3) (registry : TypesRegistry) :
    w.Restored depth (w.setRegistry depth registry) where
  above d hlt := key_setKey_ne _ (by omega) hd (by omega)
  level d hle hd' := by
    rw [Workspace.setRegistry]
    rcases Nat.eq_or_lt_of_le hle with rfl | hlt
    · rw [key_setKey hd]
      exact ⟨rfl, rfl, rfl⟩
    · rw [key_setKey_ne _ hd' hd (by omega)]
      exact .refl _
  full := full_setKey _

/-- A level further down leaves this one as it was, too. -/
theorem Restored.weaken (h : w.Restored (depth + 1) w') : w.Restored depth w' where
  above d hlt := h.above d (by omega)
  level d hle hd := by
    rcases Nat.eq_or_lt_of_le hle with rfl | hlt
    · rw [h.above depth (by omega)]
      exact .refl _
    · exact h.level d hlt hd
  full := h.full

/-- At the end of a level a rule of the next can start. -/
theorem Stage.deepen (hd : depth + 1 < 3) (h : w.Stage depth names full []) (r : Rule) :
    w.Stage (depth + 1) r.keywords (full ++ r.keywords) r.predicates where
  key := ⟨[], (h.below (depth + 1) (Nat.le_refl _) hd).exactly, rfl⟩
  fullKey := by
    obtain ⟨before, hfull, hnames⟩ := h.fullKey
    rw [List.map_nil, List.append_nil] at hnames
    exact ⟨before, hfull, by rw [hnames]; rfl⟩
  below d hle hd' := h.below d (by omega) hd'

theorem Stage.key_exactly (h : w.Stage depth names full []) : (w.key depth).Exactly names := by
  obtain ⟨before, hkey, hnames⟩ := h.key
  rw [List.map_nil, List.append_nil] at hnames
  exact hnames ▸ hkey

theorem Stage.full_exactly (h : w.Stage depth names full []) : w.full.Exactly full := by
  obtain ⟨before, hfull, hnames⟩ := h.fullKey
  rw [List.map_nil, List.append_nil] at hnames
  exact hnames ▸ hfull

/-- The second level starts like the end of the first. -/
theorem stage_below {dbKey : Key} {registry : TypesRegistry} (h : dbKey.Exactly names) :
    (below registry dbKey).Stage 0 names names [] where
  key := ⟨names, h, List.append_nil _⟩
  fullKey := ⟨names, h, List.append_nil _⟩
  below d hle hd := by
    match d, hle, hd with
    | 1, _, _ | 2, _, _ => exact ⟨rfl, rfl, rfl⟩

end Workspace

section Turns

variable {σ : Type} {depth : Nat} {names full : List String} {next : List Predicate} {p : Predicate} {w : Workspace}
variable {value : String} {s : σ} {P : σ → Prop} {inner : Workspace → EStateM Failure σ Workspace}

/-- One value that is tried leaves the workspace as it was, if what comes after it does. -/
theorem ends_turn_restored (hd : depth < 3) (hnames : names.Nodup) (hfull : full.Nodup)
    (hw : w.Stage depth names full (p :: next)) (hs : P s)
    (hinner : ∀ w, w.Stage depth names full next → Ends (inner w) s (fun w' t => w.Restored depth w' ∧ P t) fun _ => P) :
    Ends (Rule.turn depth p inner w value) s (fun w' t => w.Restored depth w' ∧ P t) fun _ => P := by
  have hpop : ∀ w' t, (w.push depth p.keyword value).Restored depth w' ∧ P t →
      Ends (lift (w'.pop depth p.keyword)) t (fun w' t => w.Restored depth w' ∧ P t) fun _ => P := by
    rintro w' t ⟨hw', ht⟩
    obtain ⟨w'', hok, hw''⟩ := hw'.pop hd hnames hfull hw
    rw [hok, ends_lift]
    exact ⟨fun _ h => Except.ok.inj h ▸ ⟨hw'', ht⟩, fun _ h => by cases h⟩
  rw [Rule.turn]
  simp only
  split
  · rw [ends_bind]
    exact (hinner _ (hw.push hd)).mono hpop fun _ _ h => h
  · rw [ends_bind, ends_pure]
    exact hpop _ _ ⟨.refl _, hs⟩

/-- So do all the values that the request has for the predicates of a rule. -/
theorem ends_expandRequestFrom_restored {v : ReadVisitor σ} {request : MarsRequest} {registry : TypesRegistry}
    {atEnd : Workspace → EStateM Failure σ Workspace} {ps : List Predicate}
    (hd : depth < 3) (hnames : names.Nodup) (hfull : full.Nodup)
    (hatEnd : ∀ w s, w.Stage depth names full [] → P s →
      Ends (atEnd w) s (fun w' t => w.Restored depth w' ∧ P t) fun _ => P) :
    ∀ w s, w.Stage depth names full ps → P s → Ends (Rule.expandRequestFrom v request registry depth atEnd ps w) s
      (fun w' t => w.Restored depth w' ∧ P t) fun _ => P := by
  induction ps with
  | nil =>
    intro w s hw hs
    rw [Rule.expandRequestFrom]
    simp only [ends_bind, ends_ensure, hd, not_true, false_implies, and_true, true_implies]
    exact hatEnd w s hw hs
  | cons p next ih =>
    intro w s hw hs
    rw [Rule.expandRequestFrom]
    simp only [ends_bind, ends_ensure, hd, not_true, false_implies, and_true, true_implies, ends_get, ends_lift]
    refine ⟨fun values _ => ?_, fun _ _ => hs⟩
    apply ends_foldlM (P := fun w' t => w.Restored depth w' ∧ P t) _ w s ⟨.refl w, hs⟩
    rintro value - w' t ⟨hw', ht⟩
    have hstage := hw.restored hd hw'
    exact (ends_turn_restored hd hnames hfull hstage ht fun w hw => ih w t hw ht).mono
      (fun _ _ h => ⟨hw'.trans h.1, h.2⟩) fun _ _ h => h

/-- The values of a field are one for each predicate. -/
theorem ends_expandFrom_restored {matchFirst : Bool} {field : Key} {ps : List Predicate} {P : WriteState σ → Prop}
    {atEnd : Workspace → EStateM Failure (WriteState σ) Workspace}
    (hd : depth < 3) (hnames : names.Nodup) (hfull : full.Nodup)
    (hatEnd : ∀ w s, w.Stage depth names full [] → P s →
      Ends (atEnd w) s (fun w' t => w.Restored depth w' ∧ P t) fun _ => P) :
    ∀ w s, w.Stage depth names full ps → P s → Ends (Rule.expandFrom matchFirst field depth atEnd ps w) s
      (fun w' t => w.Restored depth w' ∧ P t) fun _ => P := by
  induction ps with
  | nil =>
    intro w s hw hs
    rw [Rule.expandFrom]
    rw [ends_bind, ends_get, ends_ite]
    refine ⟨fun _ => ⟨.refl w, hs⟩, fun _ => ?_⟩
    simp only [ends_bind, ends_ensure, hd, not_true, false_implies, and_true, true_implies]
    exact hatEnd w s hw hs
  | cons p next ih =>
    intro w s hw hs
    rw [Rule.expandFrom]
    rw [ends_bind, ends_get, ends_ite]
    refine ⟨fun _ => ⟨.refl w, hs⟩, fun _ => ?_⟩
    simp only [ends_bind, ends_ensure, hd, not_true, false_implies, and_true, true_implies]
    rw [ends_lift]
    refine ⟨fun value _ => ?_, fun _ _ => hs⟩
    exact ends_turn_restored hd hnames hfull hw hs fun w hw => ih w s hw hs

end Turns

/-- What a visitor is told by one call: the level, the level's key and the full key. -/
structure VisitorCall where
  level : Nat
  key : Key
  full : Key

namespace Rule

/-- The rules that can follow a rule with so many levels left: its own rules, but after a rule of the first level those
of the rule that a schema of the database has for the key. -/
def Next (database : Schema → Prop) (levels : Nat) (r r' : Rule) : Prop :=
  if levels = 3 then
    ∃ schema dbKey d, database schema ∧ dbKey.Exactly r.keywords ∧ schema.databaseRule dbKey = some d ∧ r' ∈ d.rules
  else r' ∈ r.rules

/-- On no path down from the rule, after keywords that the full key has, is a keyword repeated. -/
def KeywordsOnce (database : Schema → Prop) : (levels : Nat) → List String → Rule → Prop
  | 0, _, _ => True
  | levels + 1, full, r => (full ++ r.keywords).Nodup ∧
    ∀ r', r.Next database (levels + 1) r' → r'.KeywordsOnce database levels (full ++ r.keywords)

/-- A call for a rule on a path down from the rule: the key has the keywords of the rule's predicates and no others, and
the full key those of the path. -/
def Calls (database : Schema → Prop) : (levels : Nat) → List String → Rule → VisitorCall → Prop
  | 0, _, _, _ => False
  | levels + 1, full, r, c =>
    c.level = 2 - levels ∧ c.key.Exactly r.keywords ∧ c.full.Exactly (full ++ r.keywords) ∨
      ∃ r', r.Next database (levels + 1) r' ∧ r'.Calls database levels (full ++ r.keywords) c

end Rule

/-- The workspace as a rule of the level is given it: the keys from the level on are blank, and the full key names what it
has values for, which for a rule of the first level is nothing. -/
structure Workspace.Entry (depth : Nat) (w : Workspace) : Prop where
  ready : w.Ready depth
  full : w.full.Exactly w.full.names
  first : depth = 0 → w.full.names = []

section Visitors

variable {σ : Type}

/-- A visitor whose calls keep what holds of its state, and which opens only some schemas. -/
structure ReadVisitor.Holds (v : ReadVisitor σ) (database : Schema → Prop) (calls : VisitorCall → Prop)
    (P : σ → Prop) : Prop where
  selectDatabase : ∀ key full s, calls ⟨0, key, full⟩ → P s → Ends (v.selectDatabase key full) s (fun _ => P) fun _ => P
  selectIndex : ∀ key full s, calls ⟨1, key, full⟩ → P s → Ends (v.selectIndex key full) s (fun _ => P) fun _ => P
  selectDatum : ∀ key full s, calls ⟨2, key, full⟩ → P s → Ends (v.selectDatum key full) s (fun _ => P) fun _ => P
  databaseSchema : ∀ s, P s → Ends v.databaseSchema s (fun schema t => database schema ∧ P t) fun _ => P

structure WriteVisitor.Holds (v : WriteVisitor σ) (database : Schema → Prop) (calls : VisitorCall → Prop)
    (P : σ → Prop) : Prop where
  selectDatabase : ∀ key full s, calls ⟨0, key, full⟩ → P s → Ends (v.selectDatabase key full) s (fun _ => P) fun _ => P
  selectIndex : ∀ key full s, calls ⟨1, key, full⟩ → P s → Ends (v.selectIndex key full) s (fun _ => P) fun _ => P
  selectDatum : ∀ key full s, calls ⟨2, key, full⟩ → P s → Ends (v.selectDatum key full) s (fun _ => P) fun _ => P
  databaseSchema : ∀ s, P s → Ends v.databaseSchema s (fun schema t => database schema ∧ P t) fun _ => P

variable {database : Schema → Prop} {calls : VisitorCall → Prop} {P : σ → Prop} {r : Rule} {w : Workspace} {s : σ}
variable {names full : List String} {depth levels : Nat}

theorem ends_true {α : Type} {x : EStateM Failure σ α} : Ends x s (fun _ _ => True) fun _ _ => True :=
  ends_iff.mpr ⟨fun _ _ _ => trivial, fun _ _ _ => trivial⟩

/-- The rules of a level one after the other, each from the workspace that the one before it left. -/
theorem ends_rules_restored {rules : List Rule} {expandRule : Rule → Workspace → EStateM Failure σ Workspace}
    (hd : depth + 1 < 3) (hw : w.Stage depth names full []) (hs : P s)
    (hrule : ∀ r' ∈ rules, ∀ w t, w.Stage (depth + 1) r'.keywords (full ++ r'.keywords) r'.predicates → P t →
      Ends (expandRule r' w) t (fun w' t => w.Restored (depth + 1) w' ∧ P t) fun _ => P) :
    Ends (rules.foldlM (fun w r' => expandRule r' w) w) s (fun w' t => w.Restored depth w' ∧ P t) fun _ => P := by
  apply ends_foldlM (P := fun w' t => w.Restored depth w' ∧ P t) _ w s ⟨.refl w, hs⟩
  rintro r' hr' w' t ⟨hw', ht⟩
  have hstage := (hw.restored (by omega) hw').deepen hd r'
  exact (hrule r' hr' w' t hstage ht).mono (fun _ _ h => ⟨hw'.trans h.1.weaken, h.2⟩) fun _ _ h => h

section ReadEnds

variable {v : ReadVisitor σ} {expandRule : Rule → Workspace → EStateM Failure σ Workspace}

theorem ends_atEnd_datum_restored (hv : v.Holds database calls P) (hcalls : ∀ c, r.Calls database 1 full c → calls c)
    (hw : w.Stage 2 r.keywords (full ++ r.keywords) []) (hs : P s) :
    Ends (r.atEndRequest v expandRule 2 w) s (fun w' t => w.Restored 2 w' ∧ P t) fun _ => P := by
  have hset : w.Restored 2 (w.setRegistry 2 r.registry) := w.restored_setRegistry (by omega) r.registry
  have hkey := (hw.restored (by omega) hset).key_exactly
  rw [Rule.ends_atEnd_datum]
  split
  · have hcall := hcalls ⟨2, (w.setRegistry 2 r.registry).key 2, w.full⟩ (.inl ⟨rfl, hkey, hw.full_exactly⟩)
    exact (hv.selectDatum _ _ s hcall hs).mono (fun _ _ ht => ⟨hset, ht⟩) fun _ _ h => h
  · exact hs

theorem ends_atEnd_index_restored (hv : v.Holds database calls P) (hcalls : ∀ c, r.Calls database 2 full c → calls c)
    (hw : w.Stage 1 r.keywords (full ++ r.keywords) []) (hs : P s)
    (hrule : ∀ r' ∈ r.rules, ∀ w t, w.Stage 2 r'.keywords (full ++ r.keywords ++ r'.keywords) r'.predicates → P t →
      Ends (expandRule r' w) t (fun w' t => w.Restored 2 w' ∧ P t) fun _ => P) :
    Ends (r.atEndRequest v expandRule 1 w) s (fun w' t => w.Restored 1 w' ∧ P t) fun _ => P := by
  have hset : w.Restored 1 (w.setRegistry 1 r.registry) := w.restored_setRegistry (by omega) r.registry
  have hwset := hw.restored (by omega) hset
  rw [Rule.ends_atEnd_index]
  split
  · exact hs
  · have hcall := hcalls ⟨1, (w.setRegistry 1 r.registry).key 1, w.full⟩ (.inl ⟨rfl, hwset.key_exactly, hw.full_exactly⟩)
    apply (hv.selectIndex _ _ s hcall hs).mono _ fun _ _ h => h
    intro b t ht
    cases b with
    | false => exact ⟨hset, ht⟩
    | true => exact (ends_rules_restored (by omega) hwset ht hrule).mono (fun _ _ h => ⟨hset.trans h.1, h.2⟩) fun _ _ h => h

theorem ends_atEnd_database_restored (hv : v.Holds database calls P) (hcalls : ∀ c, r.Calls database 3 [] c → calls c)
    (hw : w.Stage 0 r.keywords r.keywords []) (hs : P s)
    (hrule : ∀ r', r.Next database 3 r' → ∀ w t, w.Stage 1 r'.keywords (r.keywords ++ r'.keywords) r'.predicates → P t →
      Ends (expandRule r' w) t (fun w' t => w.Restored 1 w' ∧ P t) fun _ => P) :
    Ends (r.atEndRequest v expandRule 0 w) s (fun w' t => w.Restored 0 w' ∧ P t) fun _ => P := by
  have hset : w.Restored 0 (w.setRegistry 0 r.registry) := w.restored_setRegistry (by omega) r.registry
  have hkey := (hw.restored (by omega) hset).key_exactly
  rw [Rule.ends_atEnd_database]
  split
  · exact hs
  · have hcall := hcalls ⟨0, (w.setRegistry 0 r.registry).key 0, w.full⟩ (.inl ⟨rfl, hkey, hw.full_exactly⟩)
    apply (hv.selectDatabase _ _ s hcall hs).mono _ fun _ _ h => h
    intro b t ht
    cases b with
    | false => exact ⟨hset, ht⟩
    | true =>
      refine ⟨fun _ => ?_, fun _ => ht⟩
      apply (hv.databaseSchema t ht).mono _ fun _ _ h => h
      rintro schema t ⟨hschema, ht⟩
      rw [Schema.expandRequestSecond]
      split
      · exact ht
      next d hd =>
        rw [ends_bind]
        apply (ends_rules_restored (by omega) (Workspace.stage_below hkey) ht _).mono (fun _ _ h => ⟨hset, h.2⟩) fun _ _ h => h
        exact fun r' hr' => hrule r' ⟨schema, _, d, hschema, hkey, hd, hr'⟩

end ReadEnds

/-- The read expansion restores its workspace and makes only calls for the rules on its path. -/
theorem ends_expandRequest_restored {v : ReadVisitor σ} {request : MarsRequest} (hv : v.Holds database calls P) :
    ∀ levels (full : List String) (r : Rule) (w : Workspace) (s : σ), levels ≤ 3 → (levels = 3 → full = []) →
      w.Stage (3 - levels) r.keywords (full ++ r.keywords) r.predicates → r.KeywordsOnce database levels full →
      (∀ c, r.Calls database levels full c → calls c) → P s → Ends (Rule.expandRequest v request levels r w) s
        (fun w' t => w.Restored (3 - levels) w' ∧ P t) fun _ => P := by
  intro levels
  induction levels with
  | zero =>
    intro full r w s _ _ _ _ _ hs
    rw [Rule.expandRequest]
    cases r.predicates <;>
      · rw [Rule.expandRequestFrom]
        simp only [ends_bind, ends_ensure, Nat.lt_irrefl, false_implies, not_false_eq_true, true_implies, true_and]
        exact hs
  | succ levels ih =>
    intro full r w s hle hfirst hw honce hcalls hs
    obtain ⟨hnodup, hnext⟩ := honce
    have hkeywords : r.keywords.Nodup := (List.nodup_append.mp hnodup).2.1
    rw [Rule.expandRequest]
    apply ends_expandRequestFrom_restored (by omega) hkeywords hnodup _ w s hw hs
    intro w s hw hs
    have hbelow : ∀ r', r.Next database (levels + 1) r' → ∀ w t,
        w.Stage (3 - levels) r'.keywords (full ++ r.keywords ++ r'.keywords) r'.predicates → P t →
          Ends (Rule.expandRequest v request levels r' w) t (fun w' t => w.Restored (3 - levels) w' ∧ P t) fun _ => P :=
      fun r' hr' w t hw ht => ih _ r' w t (by omega) (by omega) hw (hnext r' hr')
        (fun c hc => hcalls c (.inr ⟨r', hr', hc⟩)) ht
    rcases levels with _ | _ | _ | levels
    · exact ends_atEnd_datum_restored hv hcalls hw hs
    · exact ends_atEnd_index_restored hv hcalls hw hs fun r' hr' => hbelow r' hr'
    · obtain rfl := hfirst rfl
      exact ends_atEnd_database_restored hv hcalls hw hs hbelow
    · omega

section WriteEnds

variable {v : WriteVisitor σ} {t : WriteState σ} {key fullKey : Key} {parents : List Rule}
variable {expandRule : List Rule → Rule → Workspace → EStateM Failure (WriteState σ) Workspace}

theorem ends_visitDatabase_holds (hv : v.Holds database calls P) (hcall : calls ⟨0, key, fullKey⟩) (ht : P t.visitor) :
    Ends (v.visitDatabase key fullKey) t (fun _ t => P t.visitor) fun _ t => P t.visitor := by
  rw [WriteVisitor.visitDatabase]
  simp only [ends_bind, ends_get, ends_ite, ends_pure, ends_modify, ends_focus]
  exact ⟨fun _ => hv.selectDatabase _ _ _ hcall ht, fun _ => ht⟩

theorem ends_visitIndex_holds (hv : v.Holds database calls P) (hcall : calls ⟨1, key, fullKey⟩) (ht : P t.visitor) :
    Ends (v.visitIndex key fullKey) t (fun _ t => P t.visitor) fun _ t => P t.visitor := by
  rw [WriteVisitor.visitIndex]
  simp only [ends_bind, ends_get, ends_ite, ends_pure, ends_modify, ends_focus]
  exact ⟨fun _ => hv.selectIndex _ _ _ hcall ht, fun _ => ht⟩

theorem ends_visitDatum_holds {rule : RulePtr} (hv : v.Holds database calls P) (hcall : calls ⟨2, key, fullKey⟩)
    (ht : P t.visitor) :
    Ends (v.visitDatum rule key fullKey) t (fun _ t => P t.visitor) fun _ t => P t.visitor := by
  rw [WriteVisitor.visitDatum]
  simp only [ends_bind, ends_get, ends_ite, ends_throw, ends_pure, ends_modify, ends_focus]
  exact ⟨fun _ => ht, fun _ => hv.selectDatum _ _ _ hcall ht⟩

theorem ends_atEnd_datum_written (hv : v.Holds database calls P) (hcalls : ∀ c, r.Calls database 1 full c → calls c)
    (hw : w.Stage 2 r.keywords (full ++ r.keywords) []) (ht : P t.visitor) :
    Ends (r.atEnd v expandRule 2 parents w) t (fun w' t => w.Restored 2 w' ∧ P t.visitor) fun _ t => P t.visitor := by
  unfold Rule.atEnd
  split
  · simp only [ends_bind, ends_ensure, true_implies, not_true, false_implies, and_true]
    have hcall := hcalls ⟨2, w.key 2, w.full⟩ (.inl ⟨rfl, hw.key_exactly, hw.full_exactly⟩)
    exact (ends_visitDatum_holds hv hcall ht).mono (fun _ _ ht => ⟨.refl w, ht⟩) fun _ _ h => h
  · exact ht

theorem ends_atEnd_index_written (hv : v.Holds database calls P) (hcalls : ∀ c, r.Calls database 2 full c → calls c)
    (hw : w.Stage 1 r.keywords (full ++ r.keywords) []) (ht : P t.visitor)
    (hrule : ∀ r' ∈ r.rules, ∀ w t, w.Stage 2 r'.keywords (full ++ r.keywords ++ r'.keywords) r'.predicates →
      P t.visitor → Ends (expandRule (r :: parents) r' w) t (fun w' t => w.Restored 2 w' ∧ P t.visitor)
        fun _ t => P t.visitor) :
    Ends (r.atEnd v expandRule 1 parents w) t (fun w' t => w.Restored 1 w' ∧ P t.visitor) fun _ t => P t.visitor := by
  rw [Rule.atEnd]
  split
  · simp only [ends_bind, ends_ensure]
    exact ⟨fun h => absurd h (by omega), fun _ => ht⟩
  · rw [ends_bind]
    have hcall := hcalls ⟨1, w.key 1, w.full⟩ (.inl ⟨rfl, hw.key_exactly, hw.full_exactly⟩)
    apply (ends_visitIndex_holds hv hcall ht).mono _ fun _ _ h => h
    exact fun _ t ht => ends_rules_restored (P := fun t : WriteState σ => P t.visitor) (by omega) hw ht hrule

theorem ends_atEnd_database_written (hv : v.Holds database calls P) (hcalls : ∀ c, r.Calls database 3 [] c → calls c)
    (hw : w.Stage 0 r.keywords r.keywords []) (ht : P t.visitor)
    (hrule : ∀ r', r.Next database 3 r' → ∀ parents w t, w.Stage 1 r'.keywords (r.keywords ++ r'.keywords) r'.predicates →
      P t.visitor → Ends (expandRule parents r' w) t (fun w' t => w.Restored 1 w' ∧ P t.visitor) fun _ t => P t.visitor) :
    Ends (r.atEnd v expandRule 0 parents w) t (fun w' t => w.Restored 0 w' ∧ P t.visitor) fun _ t => P t.visitor := by
  rw [Rule.atEnd]
  split
  · simp only [ends_bind, ends_ensure]
    exact ⟨fun h => absurd h (by omega), fun _ => ht⟩
  · simp only [ends_bind, ends_pure]
    have hcall := hcalls ⟨0, w.key 0, w.full⟩ (.inl ⟨rfl, hw.key_exactly, hw.full_exactly⟩)
    apply (ends_visitDatabase_holds hv hcall ht).mono _ fun _ _ h => h
    intro _ t ht
    rw [ends_focus]
    apply (hv.databaseSchema _ ht).mono _ fun _ _ h => h
    rintro schema u ⟨hschema, hu⟩
    rw [Schema.expandSecond]
    split
    · exact hu
    next d hd =>
      rw [ends_bind]
      have hstage : (Workspace.below schema.registry (w.key 0)).Stage 0 r.keywords r.keywords [] :=
        Workspace.stage_below hw.key_exactly
      have hloop : Ends (d.rules.foldlM (fun w r' => expandRule [d] r' w) _) { t with visitor := u } _ _ :=
        ends_rules_restored (P := fun t : WriteState σ => P t.visitor) (by omega) hstage hu
          fun r' hr' => hrule r' ⟨schema, _, d, hschema, hw.key_exactly, hd, hr'⟩ [d]
      exact hloop.mono (fun _ _ h => ⟨.refl w, h.2⟩) fun _ _ h => h

/-- The write expansion restores its workspace and makes only calls for the rules on its path. -/
theorem ends_expand_restored {matchFirst : Bool} {field : Key} (hv : v.Holds database calls P) :
    ∀ levels (full : List String) (r : Rule) (parents : List Rule) (w : Workspace) (t : WriteState σ), levels ≤ 3 →
      (levels = 3 → full = []) → w.Stage (3 - levels) r.keywords (full ++ r.keywords) r.predicates →
      r.KeywordsOnce database levels full → (∀ c, r.Calls database levels full c → calls c) → P t.visitor →
      Ends (Rule.expand matchFirst v field levels parents r w) t
        (fun w' t => w.Restored (3 - levels) w' ∧ P t.visitor) fun _ t => P t.visitor := by
  intro levels
  induction levels with
  | zero =>
    intro full r parents w t _ _ _ _ _ ht
    rw [Rule.expand]
    cases r.predicates <;>
      · rw [Rule.expandFrom]
        simp only [ends_bind, ends_get, ends_ite, ends_pure, ends_ensure, Nat.lt_irrefl, false_implies,
          not_false_eq_true, true_implies, true_and]
        exact ⟨fun _ => ⟨.refl w, ht⟩, fun _ => ht⟩
  | succ levels ih =>
    intro full r parents w t hle hfirst hw honce hcalls ht
    obtain ⟨hnodup, hnext⟩ := honce
    have hkeywords : r.keywords.Nodup := (List.nodup_append.mp hnodup).2.1
    rw [Rule.expand]
    apply ends_expandFrom_restored (P := fun t : WriteState σ => P t.visitor) (by omega) hkeywords hnodup _ w t hw ht
    intro w t hw ht
    have hset : w.Restored (3 - (levels + 1)) (w.setRegistry (3 - (levels + 1)) r.registry) := w.restored_setRegistry (by omega) r.registry
    have hw := hw.restored (by omega) hset
    have hbelow : ∀ r', r.Next database (levels + 1) r' → ∀ parents w t,
        w.Stage (3 - levels) r'.keywords (full ++ r.keywords ++ r'.keywords) r'.predicates → P t.visitor →
          Ends (Rule.expand matchFirst v field levels parents r' w) t
            (fun w' t => w.Restored (3 - levels) w' ∧ P t.visitor) fun _ t => P t.visitor :=
      fun r' hr' parents w t hw ht => ih _ r' parents w t (by omega) (by omega) hw (hnext r' hr')
        (fun c hc => hcalls c (.inr ⟨r', hr', hc⟩)) ht
    apply Ends.mono (Q := fun w' t => (w.setRegistry (3 - (levels + 1)) r.registry).Restored (3 - (levels + 1)) w' ∧
      P t.visitor) _ (fun _ _ h => ⟨hset.trans h.1, h.2⟩) fun _ _ h => h
    match levels, hle with
    | 0, _ => exact ends_atEnd_datum_written hv hcalls hw ht
    | 1, _ => exact ends_atEnd_index_written hv hcalls hw ht fun r' hr' => hbelow r' hr' _
    | 2, _ =>
      obtain rfl := hfirst rfl
      exact ends_atEnd_database_written hv hcalls hw ht hbelow

end WriteEnds

/-- The visitor with a record of the calls that it was given. -/
def ReadVisitor.recorded (v : ReadVisitor σ) : ReadVisitor (σ × List VisitorCall) where
  selectDatabase key full := do
    modify fun s => (s.1, s.2 ++ [⟨0, key, full⟩])
    focus Prod.fst (fun a s => (a, s.2)) (v.selectDatabase key full)
  selectIndex key full := do
    modify fun s => (s.1, s.2 ++ [⟨1, key, full⟩])
    focus Prod.fst (fun a s => (a, s.2)) (v.selectIndex key full)
  selectDatum key full := do
    modify fun s => (s.1, s.2 ++ [⟨2, key, full⟩])
    focus Prod.fst (fun a s => (a, s.2)) (v.selectDatum key full)
  values s := v.values s.1
  databaseSchema := focus Prod.fst (fun a s => (a, s.2)) v.databaseSchema

def WriteVisitor.recorded (v : WriteVisitor σ) : WriteVisitor (σ × List VisitorCall) where
  selectDatabase key full := do
    modify fun s => (s.1, s.2 ++ [⟨0, key, full⟩])
    focus Prod.fst (fun a s => (a, s.2)) (v.selectDatabase key full)
  selectIndex key full := do
    modify fun s => (s.1, s.2 ++ [⟨1, key, full⟩])
    focus Prod.fst (fun a s => (a, s.2)) (v.selectIndex key full)
  selectDatum key full := do
    modify fun s => (s.1, s.2 ++ [⟨2, key, full⟩])
    focus Prod.fst (fun a s => (a, s.2)) (v.selectDatum key full)
  databaseSchema := focus Prod.fst (fun a s => (a, s.2)) v.databaseSchema

/-- A call that is recorded is one of these when those before it are. -/
theorem ends_recorded {α : Type} {x : EStateM Failure σ α} {c : VisitorCall} {s : σ × List VisitorCall} (hc : calls c)
    (hs : ∀ c ∈ s.2, calls c) : Ends (focus Prod.fst (fun a s => (a, s.2)) x) (s.1, s.2 ++ [c])
      (fun _ t => ∀ c ∈ t.2, calls c) fun _ t => ∀ c ∈ t.2, calls c := by
  have hall : ∀ c' ∈ s.2 ++ [c], calls c' := by
    intro c' hc'
    rcases List.mem_append.mp hc' with hc' | hc'
    · exact hs c' hc'
    · exact List.mem_singleton.mp hc' ▸ hc
  rw [ends_focus, ends_iff]
  exact ⟨fun _ _ _ => hall, fun _ _ _ => hall⟩

theorem ReadVisitor.holds_true {v : ReadVisitor σ}
    (hv : ∀ s, Ends v.databaseSchema s (fun schema _ => database schema) fun _ _ => True) :
    v.Holds database calls fun _ => True where
  selectDatabase _ _ _ _ _ := ends_true
  selectIndex _ _ _ _ _ := ends_true
  selectDatum _ _ _ _ _ := ends_true
  databaseSchema s _ := (hv s).mono (fun _ _ h => ⟨h, trivial⟩) fun _ _ _ => trivial

theorem WriteVisitor.holds_true {v : WriteVisitor σ}
    (hv : ∀ s, Ends v.databaseSchema s (fun schema _ => database schema) fun _ _ => True) :
    v.Holds database calls fun _ => True where
  selectDatabase _ _ _ _ _ := ends_true
  selectIndex _ _ _ _ _ := ends_true
  selectDatum _ _ _ _ _ := ends_true
  databaseSchema s _ := (hv s).mono (fun _ _ h => ⟨h, trivial⟩) fun _ _ _ => trivial

theorem ReadVisitor.recorded_holds {v : ReadVisitor σ}
    (hv : ∀ s, Ends v.databaseSchema s (fun schema _ => database schema) fun _ _ => True) :
    v.recorded.Holds database calls fun t => ∀ c ∈ t.2, calls c where
  selectDatabase _ _ _ hc hs := ends_recorded hc hs
  selectIndex _ _ _ hc hs := ends_recorded hc hs
  selectDatum _ _ _ hc hs := ends_recorded hc hs
  databaseSchema s hs := ends_focus.mpr ((hv s.1).mono (fun _ _ h => ⟨h, hs⟩) fun _ _ _ => hs)

theorem WriteVisitor.recorded_holds {v : WriteVisitor σ}
    (hv : ∀ s, Ends v.databaseSchema s (fun schema _ => database schema) fun _ _ => True) :
    v.recorded.Holds database calls fun t => ∀ c ∈ t.2, calls c where
  selectDatabase _ _ _ hc hs := ends_recorded hc hs
  selectIndex _ _ _ hc hs := ends_recorded hc hs
  selectDatum _ _ _ hc hs := ends_recorded hc hs
  databaseSchema s hs := ends_focus.mpr ((hv s.1).mono (fun _ _ h => ⟨h, hs⟩) fun _ _ _ => hs)

theorem Workspace.Entry.stage (hd : depth < 3) (h : w.Entry depth) (r : Rule) :
    w.Stage depth r.keywords (w.full.names ++ r.keywords) r.predicates where
  key := ⟨[], (h.ready.blank hd).exactly, rfl⟩
  fullKey := ⟨w.full.names, h.full, rfl⟩
  below d hle hd' := h.ready d (by omega) hd'

end Visitors

section Sample

/-- A rule of a second level, over one of the third for each keyword. -/
def datedRule (registry : TypesRegistry) (keywords : List String) : Rule :=
  .mk 1 [⟨"date", .always⟩] (keywords.map fun keyword => .mk 2 [⟨keyword, .always⟩] [] registry) registry

def deafVisitor : WriteVisitor Unit where
  selectDatabase _ _ := pure true
  selectIndex _ _ := pure true
  selectDatum _ _ := pure true
  databaseSchema := throw (.exception "no schema")

def deafReader : ReadVisitor Unit where
  selectDatabase _ _ := pure true
  selectIndex _ _ := pure true
  selectDatum _ _ := pure true
  values _ _ _ _ := .ok ["1", "2"]
  databaseSchema := throw (.exception "no schema")

def datedField : Key := .ofList [("class", "od"), ("date", "1"), ("step", "0")] (some .untyped)

/-- The workspace below the database key `class=od`, of a schema whose registry knows no type. -/
def datedWorkspace : Workspace :=
  .below ⟨fun _ => .error (.seriousBug "no type")⟩ (.ofList [("class", "od")] (some .untyped))

theorem entry_datedWorkspace : datedWorkspace.Entry 1 where
  ready d hle hd := by
    match d, hle, hd with
    | 1, _, _ | 2, _, _ => exact ⟨rfl, rfl, rfl⟩
  full := by
    have hkeys : datedWorkspace.full.keys = (∅ : StringDict).insert "class" "od" := rfl
    have hnames : datedWorkspace.full.names = ["class"] := by decide +kernel
    refine ⟨rfl, fun keyword => ?_⟩
    rw [hkeys, hnames, Std.ExtTreeMap.mem_insert, Std.LawfulEqCmp.compare_eq_iff_eq, List.mem_singleton]
    simp [eq_comm]
  first h := absurd h (by omega)

end Sample

end Fdb5
