import Fdb5.Inspect.Branch

/-! What happens in a read expansion: the callbacks on its branches, with the state before each. -/
namespace Fdb5

open Effect

variable {σ ε : Type}

/-- A value that was taken for a predicate, and the visitor's state when it was asked for values. -/
structure Choice (σ : Type) where
  predicate : Predicate
  registry : TypesRegistry
  state : σ
  value : String

namespace Choice

/-- The value was one of those that the predicate's turn of the expansion goes through. -/
def Taken (v : ReadVisitor σ) (request : MarsRequest) (c : Choice σ) : Prop :=
  ∃ values, c.predicate.offered (v.values c.state request c.predicate.keyword c.registry) = .ok values ∧
    c.value ∈ values

/-- The key that choices build. -/
def pushAll (k : Key) (choices : List (Choice σ)) : Key :=
  choices.foldl (fun k c => k.push c.predicate.keyword c.value) k

/-- The key of a level at its end. -/
def key (registry : TypesRegistry) (choices : List (Choice σ)) : Key :=
  { pushAll {} choices with registry := some registry }

end Choice

/-- A callback of the visitor; an index is selected past the predicates of a rule, and the choices that led to a datum
are those of each level. -/
inductive Event (σ : Type) where
  | asks (depth : Nat) (p : Predicate) (registry : TypesRegistry) (s : σ)
  | selectsIndex (r : Rule) (key : Key) (s : σ)
  | selectsDatum (choices : List (List (Choice σ))) (key : Key) (s : σ)

namespace Rule

/-- What happens in the expansion of the predicates of a level; `occursAtEnd` is what happens past
the last one, and each turn of a loop starts where the turns before it ended. -/
def OccursFrom (v : ReadVisitor σ) (request : MarsRequest) (registry : TypesRegistry) (depth : Nat)
    (atEnd : Workspace → EStateM Failure σ Workspace)
    (occursAtEnd : List (Choice σ) → Workspace → σ → Event σ → Prop) :
    List Predicate → List (Choice σ) → Workspace → σ → Event σ → Prop
  | [], choices, w, s, e => occursAtEnd choices w s e
  | p :: next, choices, w, s, e =>
    e = .asks depth p registry s ∨
    ∃ pre value post w' s', p.offered (v.values s request p.keyword registry) = .ok (pre ++ value :: post) ∧
      (pre.foldlM (turn depth p (expandRequestFrom v request registry depth atEnd next)) w).run s = .ok w' s' ∧
      p.accepts ((w'.push depth p.keyword value).key depth) ∧
      OccursFrom v request registry depth atEnd occursAtEnd next (choices ++ [⟨p, registry, s, value⟩])
        (w'.push depth p.keyword value) s' e

/-- What happens in a loop over rules. -/
def OccursIn (expandRule : Rule → Workspace → EStateM Failure σ Workspace)
    (occurs : Rule → Workspace → σ → Event σ → Prop) (rules : List Rule) (w : Workspace) (s : σ)
    (e : Event σ) : Prop :=
  ∃ pre r post w' s', rules = pre ++ r :: post ∧
    (pre.foldlM (fun w r => expandRule r w) w).run s = .ok w' s' ∧ occurs r w' s' e

/-- What happens past the last predicate of a rule. -/
def OccursAtEnd (v : ReadVisitor σ) (expandRule : Rule → Workspace → EStateM Failure σ Workspace)
    (occurs : Rule → Workspace → σ → Event σ → Prop) (depth : Nat) (r : Rule)
    (choices : List (List (Choice σ))) (w : Workspace) (s : σ) (e : Event σ) : Prop :=
  let w := w.setRegistry depth r.registry
  if r.rules.isEmpty then depth = 2 ∧ e = .selectsDatum choices (w.key 2) s
  else
    match depth with
    | 0 => ∃ s' schema s'' dbRule, (v.selectDatabase (w.key 0) w.full).run s = .ok true s' ∧
        v.databaseSchema.run s' = .ok schema s'' ∧ schema.databaseRule (w.key 0) = some dbRule ∧
        OccursIn expandRule occurs dbRule.rules (Workspace.below schema.registry (w.key 0)) s'' e
    | 1 => e = .selectsIndex r (w.key 1) s ∨ ∃ s', (v.selectIndex (w.key 1) w.full).run s = .ok true s' ∧
        OccursIn expandRule occurs r.rules w s' e
    | _ => False

section AtEnd

variable {v : ReadVisitor σ} {expandRule : Rule → Workspace → EStateM Failure σ Workspace}
  {occurs : Rule → Workspace → σ → Event σ → Prop} {r : Rule} {choices : List (List (Choice σ))}
  {w : Workspace} {s : σ} {e : Event σ}

theorem occursAtEnd_leaf {depth : Nat} (hr : r.rules.isEmpty) :
    r.OccursAtEnd v expandRule occurs depth choices w s e ↔
      depth = 2 ∧ e = .selectsDatum choices ((w.setRegistry depth r.registry).key 2) s := by
  unfold OccursAtEnd
  rw [if_pos hr]

theorem occursAtEnd_index (hr : ¬ r.rules.isEmpty) : r.OccursAtEnd v expandRule occurs 1 choices w s e ↔
    e = .selectsIndex r ((w.setRegistry 1 r.registry).key 1) s ∨
    ∃ s', (v.selectIndex ((w.setRegistry 1 r.registry).key 1) w.full).run s = .ok true s' ∧
      OccursIn expandRule occurs r.rules (w.setRegistry 1 r.registry) s' e := by
  unfold OccursAtEnd
  rw [if_neg hr]
  exact Iff.rfl

theorem occursAtEnd_database (hr : ¬ r.rules.isEmpty) : r.OccursAtEnd v expandRule occurs 0 choices w s e ↔
    ∃ s' schema s'' dbRule, (v.selectDatabase ((w.setRegistry 0 r.registry).key 0) w.full).run s = .ok true s' ∧
      v.databaseSchema.run s' = .ok schema s'' ∧
      schema.databaseRule ((w.setRegistry 0 r.registry).key 0) = some dbRule ∧
      OccursIn expandRule occurs dbRule.rules
        (Workspace.below schema.registry ((w.setRegistry 0 r.registry).key 0)) s'' e := by
  unfold OccursAtEnd
  rw [if_neg hr]
  exact Iff.rfl

end AtEnd

/-- What happens in the expansion of a rule, after the choices of the levels above. -/
def Occurs (v : ReadVisitor σ) (request : MarsRequest) :
    (levels : Nat) → List (List (Choice σ)) → Rule → Workspace → σ → Event σ → Prop
  | 0, _, _, _, _, _ => False
  | levels + 1, outer, r, w, s, e =>
    let depth := 3 - (levels + 1)
    OccursFrom v request r.registry depth (r.atEndRequest v (expandRequest v request levels) depth)
      (fun choices => r.OccursAtEnd v (expandRequest v request levels)
        (Occurs v request levels (outer ++ [choices])) depth (outer ++ [choices])) r.predicates [] w s e

end Rule

/-- What happens in the expansion of a request. -/
def Schema.Occurs (v : ReadVisitor σ) (schema : Schema) (request : MarsRequest) (s : σ) (e : Event σ) : Prop :=
  Rule.OccursIn (Rule.expandRequest v request 3) (Rule.Occurs v request 3 []) schema.rules
    (Workspace.fresh schema.registry) s e

/-- A visitor that notes each datum it finds. -/
structure ReadVisitor.Notes (v : ReadVisitor σ) (notes : σ → List ε) (found : Key → σ → Option ε) : Prop where
  selectDatabase : ∀ k full s, Ends (v.selectDatabase k full) s (fun _ t => notes t = notes s) fun _ _ => True
  databaseSchema : ∀ s, Ends v.databaseSchema s (fun _ t => notes t = notes s) fun _ _ => True
  selectIndex : ∀ k full s, Ends (v.selectIndex k full) s (fun _ t => notes t = notes s) fun _ _ => True
  selectDatum : ∀ k full s, Ends (v.selectDatum k full) s (fun _ t => notes t = notes s ++ (found k s).toList)
    fun _ _ => True

namespace ReadVisitor.Notes

/-- What is noted between two states is what was found on the branches. -/
def Adds (notes : σ → List ε) (found : Key → σ → Option ε) (occurs : Event σ → Prop) (s t : σ) : Prop :=
  ∀ x, x ∈ notes t ↔ x ∈ notes s ∨ ∃ choices key s', occurs (.selectsDatum choices key s') ∧ found key s' = some x

namespace Adds

variable {notes : σ → List ε} {found : Key → σ → Option ε} {s t u : σ} {occurs occurs' occurs'' : Event σ → Prop}

theorem none (h : notes t = notes s) (hnone : ∀ choices key s', ¬ occurs (.selectsDatum choices key s')) :
    Adds notes found occurs s t := by
  intro x
  rw [h]
  exact ⟨.inl, fun hx => hx.resolve_right fun ⟨_, _, _, ho, _⟩ => hnone _ _ _ ho⟩

theorem trans (h : Adds notes found occurs s t) (h' : Adds notes found occurs' t u)
    (hor : ∀ choices key s', occurs'' (.selectsDatum choices key s') ↔
      occurs (.selectsDatum choices key s') ∨ occurs' (.selectsDatum choices key s')) :
    Adds notes found occurs'' s u := by
  intro x
  rw [h' x, h x, or_assoc]
  refine or_congr_right ⟨?_, ?_⟩
  · rintro (⟨c, k, s', ho, hf⟩ | ⟨c, k, s', ho, hf⟩)
    · exact ⟨c, k, s', (hor _ _ _).mpr (.inl ho), hf⟩
    · exact ⟨c, k, s', (hor _ _ _).mpr (.inr ho), hf⟩
  · rintro ⟨c, k, s', ho, hf⟩
    rcases (hor _ _ _).mp ho with ho | ho
    · exact .inl ⟨c, k, s', ho, hf⟩
    · exact .inr ⟨c, k, s', ho, hf⟩

theorem congr (h : Adds notes found occurs s t) (hiff : ∀ choices key s',
    occurs (.selectsDatum choices key s') ↔ occurs' (.selectsDatum choices key s')) :
    Adds notes found occurs' s t := by
  simpa only [Adds, hiff] using h

variable (notes found) in
/-- What a loop notes is what its turns find. -/
theorem loop {α β : Type} {l : List α} {f : β → α → EStateM Failure σ β} {b₀ : β}
    {occ : α → β → σ → Event σ → Prop} (h : ∀ a b t, Ends (f b a) t
      (fun _ t' => Adds notes found (occ a b t) t t') fun _ _ => True) :
    Ends (l.foldlM f b₀) s (fun _ t => Adds notes found (fun e => ∃ pre a post b s', l = pre ++ a :: post ∧
      (pre.foldlM f b₀).run s = .ok b s' ∧ occ a b s' e) s t) fun _ _ => True := by
  refine ends_foldlM_run (P := fun l' _ t => Adds notes found (fun e => ∃ pre a post b s',
    l' = pre ++ a :: post ∧ (pre.foldlM f b₀).run s = .ok b s' ∧ occ a b s' e) s t) ?_ ?_
  · intro pre a post b t _ hrun hpre
    refine (h a b t).mono (fun _ u hu => hpre.trans hu fun choices key s' => ⟨?_, ?_⟩) fun _ _ h => h
    · rintro ⟨pre', a', post', b', t', hl, hrun', ho⟩
      rcases List.eq_nil_or_concat post' with rfl | ⟨post', c, rfl⟩
      · obtain ⟨rfl, hac⟩ := List.append_inj' hl rfl
        obtain rfl : a = a' := by simpa using hac
        rw [hrun] at hrun'
        obtain ⟨rfl, rfl⟩ := EStateM.Result.ok.inj hrun'
        exact .inr ho
      · rw [List.concat_eq_append, ← List.cons_append, ← List.append_assoc] at hl
        obtain ⟨hl, -⟩ := List.append_inj' hl rfl
        exact .inl ⟨pre', a', post', b', t', hl, hrun', ho⟩
    · rintro (⟨pre', a', post', b', t', rfl, hrun', ho⟩ | ho)
      · exact ⟨pre', a', post' ++ [a], b', t', by simp, hrun', ho⟩
      · exact ⟨pre, a, [], b, t, rfl, hrun, ho⟩
  · refine none rfl fun _ _ _ ⟨pre, a, post, _, _, hl, _⟩ => ?_
    simp at hl

end Adds

variable {v : ReadVisitor σ} {notes : σ → List ε} {found : Key → σ → Option ε} {request : MarsRequest}
  {r : Rule} {w : Workspace} {s : σ}

theorem ends_expandRequestFrom {registry : TypesRegistry} {depth : Nat}
    {atEnd : Workspace → EStateM Failure σ Workspace}
    {occursAtEnd : List (Choice σ) → Workspace → σ → Event σ → Prop} {ps : List Predicate}
    (hatEnd : ∀ choices w s, Ends (atEnd w) s (fun _ t => Adds notes found (occursAtEnd choices w s) s t)
      fun _ _ => True) : ∀ choices w s, Ends (Rule.expandRequestFrom v request registry depth atEnd ps w) s
    (fun _ t => Adds notes found (Rule.OccursFrom v request registry depth atEnd occursAtEnd ps choices w s) s t)
      fun _ _ => True := by
  induction ps with
  | nil =>
    intro choices w s
    rw [Rule.expandRequestFrom]
    simp only [ends_bind, ends_ensure, implies_true, and_true]
    exact fun _ => hatEnd choices w s
  | cons p next ih =>
    intro choices w s
    rw [Rule.expandRequestFrom]
    simp only [ends_bind, ends_ensure, implies_true, and_true, ends_get, ends_lift]
    intro _ values hvalues
    have hturn : ∀ value w' s', Ends (Rule.turn depth p (Rule.expandRequestFrom v request registry depth atEnd next)
        w' value) s' (fun _ t => Adds notes found (fun e => p.accepts ((w'.push depth p.keyword value).key depth) ∧
          Rule.OccursFrom v request registry depth atEnd occursAtEnd next (choices ++ [⟨p, registry, s, value⟩])
            (w'.push depth p.keyword value) s' e) s' t) fun _ _ => True := by
      intro value w' s'
      rw [Rule.turn]
      split
      · rename_i ha
        rw [ends_bind]
        refine (ih (choices ++ [⟨p, registry, s, value⟩]) _ s').mono (fun w'' t ht => ?_) fun _ _ h => h
        rw [ends_lift]
        exact ⟨fun _ _ => ht.congr fun _ _ _ => by simp [ha], fun _ _ => trivial⟩
      · rename_i ha
        rw [ends_bind, ends_pure, ends_lift]
        exact ⟨fun _ _ => .none rfl fun _ _ _ ho => ha ho.1, fun _ _ => trivial⟩
    refine (Adds.loop _ _ hturn).mono (fun _ t ht => ht.congr fun c k s' => ?_) fun _ _ h => h
    rw [Rule.OccursFrom]
    constructor
    · rintro ⟨pre, value, post, w', t', rfl, hrun, ho⟩
      exact .inr ⟨pre, value, post, w', t', hvalues, hrun, ho⟩
    · rintro (ho | ⟨pre, value, post, w', t', hv, hrun, ho⟩)
      · cases ho
      · exact ⟨pre, value, post, w', t', Except.ok.inj (hvalues.symm.trans hv), hrun, ho⟩

theorem ends_datum (h : v.Notes notes found) (outer : List (List (Choice σ))) :
    Ends (Rule.expandRequest v request 1 r w) s
      (fun _ t => Adds notes found (Rule.Occurs v request 1 outer r w s) s t) fun _ _ => True := by
  change Ends (Rule.expandRequestFrom v request r.registry 2 (r.atEndRequest v _ 2) r.predicates w) s _ _
  refine ends_expandRequestFrom (fun choices w s => ?_) [] w s
  rw [Rule.ends_atEnd_datum]
  split
  · rename_i hr
    refine (h.selectDatum _ _ s).mono (fun _ t ht x => ?_) fun _ _ h => h
    rw [ht, List.mem_append, Option.mem_toList]
    refine or_congr_right ⟨fun hx => ⟨outer ++ [choices], _, s, ?_, hx⟩, ?_⟩
    · exact (Rule.occursAtEnd_leaf hr).mpr ⟨rfl, rfl⟩
    · rintro ⟨c, k, s', ho, hf⟩
      obtain ⟨-, ho⟩ := (Rule.occursAtEnd_leaf hr).mp ho
      cases ho
      exact hf
  · trivial

theorem ends_index (h : v.Notes notes found) (outer : List (List (Choice σ))) :
    Ends (Rule.expandRequest v request 2 r w) s
      (fun _ t => Adds notes found (Rule.Occurs v request 2 outer r w s) s t) fun _ _ => True := by
  change Ends (Rule.expandRequestFrom v request r.registry 1 (r.atEndRequest v _ 1) r.predicates w) s _ _
  refine ends_expandRequestFrom (fun choices w s => ?_) [] w s
  rw [Rule.ends_atEnd_index]
  split
  · trivial
  · rename_i hr
    refine ends_iff.mpr ⟨fun b t hrun => ?_, fun _ _ _ => trivial⟩
    have hsame := (h.selectIndex _ _ s).ok hrun
    cases b with
    | false =>
      refine .none hsame fun _ _ _ ho => ?_
      rcases (Rule.occursAtEnd_index hr).mp ho with ho | ⟨t', hrun', -⟩
      · cases ho
      · rw [hrun] at hrun'
        cases hrun'
    | true =>
      have hnone : Adds notes found (fun _ => False) s t := .none hsame fun _ _ _ ho => ho
      refine (Adds.loop notes found fun r' w' t' => h.ends_datum (r := r') (w := w')
        (outer ++ [choices])).mono (fun _ u hu => hnone.trans hu fun c k s' => ?_) fun _ _ h => h
      rw [false_or]
      refine (Rule.occursAtEnd_index hr).trans ⟨?_, ?_⟩
      · rintro (ho | ⟨t', hrun', ho⟩)
        · cases ho
        · rw [hrun] at hrun'
          cases hrun'
          exact ho
      · exact fun ho => .inr ⟨t, hrun, ho⟩

theorem ends_database (h : v.Notes notes found) (outer : List (List (Choice σ))) :
    Ends (Rule.expandRequest v request 3 r w) s
      (fun _ t => Adds notes found (Rule.Occurs v request 3 outer r w s) s t) fun _ _ => True := by
  change Ends (Rule.expandRequestFrom v request r.registry 0 (r.atEndRequest v _ 0) r.predicates w) s _ _
  refine ends_expandRequestFrom (fun choices w s => ?_) [] w s
  rw [Rule.ends_atEnd_database]
  split
  · trivial
  · rename_i hr
    refine ends_iff.mpr ⟨fun b t hrun => ?_, fun _ _ _ => trivial⟩
    have hsame := (h.selectDatabase _ _ s).ok hrun
    cases b with
    | false =>
      refine .none hsame fun _ _ _ ho => ?_
      obtain ⟨t', _, _, _, hrun', -⟩ := (Rule.occursAtEnd_database hr).mp ho
      rw [hrun] at hrun'
      cases hrun'
    | true =>
      refine ⟨fun _ => ends_iff.mpr ⟨fun schema u hschema => ?_, fun _ _ _ => trivial⟩, fun _ => trivial⟩
      have hnone : Adds notes found (fun _ => False) s u :=
        .none (((h.databaseSchema t).ok hschema).trans hsame) fun _ _ _ ho => ho
      rw [Schema.expandRequestSecond]
      split
      · trivial
      · rename_i dbRule hdb
        rw [ends_bind]
        refine (Adds.loop notes found fun r' w' t' => h.ends_index (r := r') (w := w')
          (outer ++ [choices])).mono (fun _ u' hu => hnone.trans hu fun c k s' => ?_) fun _ _ h => h
        rw [false_or]
        refine (Rule.occursAtEnd_database hr).trans ⟨?_, ?_⟩
        · rintro ⟨t', schema', u', dbRule', hrun', hschema', hdb', ho⟩
          rw [hrun] at hrun'
          cases hrun'
          rw [hschema] at hschema'
          cases hschema'
          rw [hdb] at hdb'
          cases hdb'
          exact ho
        · exact fun ho => ⟨t, schema, u, dbRule, hrun, hschema, hdb, ho⟩

/-- An expansion notes what it finds on its branches, and nothing else. -/
theorem ends_expandRequest {schema : Schema} (h : v.Notes notes found) :
    Ends (schema.expandRequest v request) s (fun _ t => Adds notes found (schema.Occurs v request s) s t)
      fun _ _ => True := by
  rw [Schema.expandRequest, ends_bind]
  exact (Adds.loop notes found fun r w t => h.ends_database (r := r) (w := w) []).mono
    (fun _ _ ht => ht) fun _ _ h => h

end ReadVisitor.Notes

section Path

variable {v : ReadVisitor σ} {request : MarsRequest} {rules : List Rule} {outer : Nat → Key} {full : List String}
  {r : Rule} {k k' : Key} {w : Workspace} {s : σ} {e : Event σ}

/-- What happens in a level is that one of its predicates is asked for values, or it happens past the predicates, after
choices that build the level's key. -/
theorem Rule.occursFrom_cases {registry : TypesRegistry} {depth : Nat}
    {atEnd : Workspace → EStateM Failure σ Workspace}
    {occursAtEnd : List (Choice σ) → Workspace → σ → Event σ → Prop} {I : σ → Prop} {ps : List Predicate}
    (hd : depth < 3)
    (hatEnd : ∀ k' w s, Picks ps k k' → w.At outer full depth [] k' → I s →
      Ends (atEnd w) s (fun w' t => w'.At outer full depth [] k' ∧ I t) fun _ => I) :
    ∀ choices w s, w.At outer full depth ps k → I s →
      OccursFrom v request registry depth atEnd occursAtEnd ps choices w s e →
      (∃ p ∈ ps, ∃ s', I s' ∧ e = .asks depth p registry s') ∨ ∃ tail w' s', occursAtEnd (choices ++ tail) w' s' e ∧ w'.At outer full depth [] (Choice.pushAll k tail) ∧
        Picks ps k (Choice.pushAll k tail) ∧ I s' ∧ ∀ c ∈ tail, c.Taken v request := by
  induction ps generalizing k with
  | nil =>
    intro choices w s hw hs ho
    exact .inr ⟨[], w, s, by simpa [OccursFrom] using ho, hw, rfl, hs, fun _ hc => by cases hc⟩
  | cons p next ih =>
    intro choices w s hw hs ho
    rcases ho with ho | ⟨pre, value, post, w', s', hv, hrun, ha, ho⟩
    · exact .inl ⟨p, List.mem_cons_self, s, hs, ho⟩
    · -- the turns before this one leave the workspace as it was
      have hpre : w'.At outer full depth (p :: next) k ∧ I s' := by
        have hloop : Ends (pre.foldlM (turn depth p (expandRequestFrom v request registry depth atEnd next)) w) s
            (fun w' t => w'.At outer full depth (p :: next) k ∧ I t) fun _ => I := by
          refine ends_foldlM (fun x _ w t hw => ?_) w s ⟨hw, hs⟩
          refine ends_turn hd hw.1 (fun h hpush => ?_) fun _ => hw.2
          exact ends_expandRequestFrom hd (fun k' w s hk' => hatEnd k' w s ⟨x, h, hk'⟩) _ t hpush hw.2
        exact hloop.ok hrun
      have hpush : (w'.push depth p.keyword value).At outer full depth next _ := hpre.1.push hd
      have haccepts : p.accepts (k.push p.keyword value) := by
        rw [← ha]
        refine Predicate.accepts_congr ?_
        rw [Workspace.key_push hd _ _, Key.find_push_eq, Key.find_push_eq, if_pos rfl, if_pos rfl]
      rcases ih (fun k' w s hk' => hatEnd k' w s ⟨value, haccepts, hk'⟩) _ _ s' hpush hpre.2 ho with
        ⟨q, hq, hasked⟩ | ⟨tail, w'', s'', ho, hw'', hk, hs'', htail⟩
      · exact .inl ⟨q, List.mem_cons_of_mem _ hq, hasked⟩
      · refine .inr ⟨⟨p, registry, s, value⟩ :: tail, w'', s'', by simpa using ho, hw'', ⟨value, haccepts, hk⟩, hs'',
          fun c hc => ?_⟩
        rcases List.mem_cons.mp hc with rfl | hc
        · exact ⟨_, hv, by simp⟩
        · exact htail c hc

/-- What is no question for values happens past the predicates. -/
theorem Rule.occursFrom_end {registry : TypesRegistry} {depth : Nat}
    {atEnd : Workspace → EStateM Failure σ Workspace}
    {occursAtEnd : List (Choice σ) → Workspace → σ → Event σ → Prop} {I : σ → Prop} {ps : List Predicate}
    (hd : depth < 3) (he : ∀ p registry s, e ≠ .asks depth p registry s)
    (hatEnd : ∀ k' w s, Picks ps k k' → w.At outer full depth [] k' → I s →
      Ends (atEnd w) s (fun w' t => w'.At outer full depth [] k' ∧ I t) fun _ => I)
    (choices : List (Choice σ)) (w : Workspace) (s : σ) (hw : w.At outer full depth ps k) (hs : I s)
    (ho : OccursFrom v request registry depth atEnd occursAtEnd ps choices w s e) :
    ∃ tail w' s', occursAtEnd (choices ++ tail) w' s' e ∧ w'.At outer full depth [] (Choice.pushAll k tail) ∧
      Picks ps k (Choice.pushAll k tail) ∧ I s' ∧ ∀ c ∈ tail, c.Taken v request := by
  refine (occursFrom_cases hd hatEnd choices w s hw hs ho).resolve_left ?_
  rintro ⟨p, -, s', -, h⟩
  exact he p registry s' h

/-- A turn of a loop over rules starts where the turns before it left what the visitor keeps. -/
theorem Rule.occursIn_turn {depth : Nat} {I : σ → Prop} {expandRule : Rule → Workspace → EStateM Failure σ Workspace}
    {occurs : Rule → Workspace → σ → Event σ → Prop} (hw : w.At outer full depth [] {}) (hs : I s)
    (h : ∀ r ∈ rules, ∀ w t, w.At outer full depth r.predicates {} → I t → Ends (expandRule r w) t
      (fun w' t => w'.At outer full depth r.predicates {} ∧ I t) fun _ => I)
    (ho : OccursIn expandRule occurs rules w s e) :
    ∃ r ∈ rules, ∃ w' s', w'.At outer full depth r.predicates {} ∧ I s' ∧ occurs r w' s' e := by
  obtain ⟨pre, r, post, w', s', rfl, hrun, ho⟩ := ho
  have hpre := (ReadVisitor.Keeps.ends_rules hw hs fun r hr => h r (List.mem_append_left _ hr)).ok hrun
  exact ⟨r, by simp, w', s', hpre.1.restart, hpre.2, ho⟩

namespace ReadVisitor.Keeps

variable {I₀ : σ → Prop} {I₁ : Key → σ → Prop} {I₂ : Key → Key → σ → Prop} {above choices : List (List (Choice σ))}
  {key : Key} {t : σ}

theorem occurs_datum (h : v.Keeps rules I₀ I₁ I₂) (hw : w.At outer full 2 r.predicates {}) (hs : I₂ k k' s)
    (ho : Rule.Occurs v request 1 above r w s (.selectsDatum choices key t)) :
    ∃ c registry, choices = above ++ [c] ∧ key = Choice.key registry c ∧ I₂ k k' t ∧
      ∀ x ∈ c, x.Taken v request := by
  obtain ⟨c, w', s', ho, hw', -, hs', hc⟩ := Rule.occursFrom_end (by omega : 2 < 3)
    (fun _ _ _ h => by cases h) (fun _ _ _ _ => h.ends_atEnd_datum) [] w s hw hs ho
  by_cases hr : r.rules.isEmpty
  · obtain ⟨-, ho⟩ := (Rule.occursAtEnd_leaf hr).mp ho
    cases ho
    exact ⟨c, r.registry, rfl, hw'.key_eq (by omega) _, hs', hc⟩
  · unfold Rule.OccursAtEnd at ho
    rw [if_neg hr] at ho
    exact ho.elim

theorem occurs_index (h : v.Keeps rules I₀ I₁ I₂) (hw : w.At outer full 1 r.predicates {}) (hs : I₁ k s)
    (ho : Rule.Occurs v request 2 above r w s (.selectsDatum choices key t)) :
    ∃ c₁ c₂ r₁ r₂, choices = above ++ [c₁, c₂] ∧ key = Choice.key r₂ c₂ ∧ I₂ k (Choice.key r₁ c₁) t ∧
      ∀ x ∈ c₁ ++ c₂, x.Taken v request := by
  obtain ⟨c, w', s', ho, hw', -, hs', hc⟩ := Rule.occursFrom_end (by omega : 1 < 3)
    (fun _ _ _ h => by cases h) (fun _ _ _ _ => h.ends_atEnd_index) [] w s hw hs ho
  by_cases hr : r.rules.isEmpty
  · obtain ⟨hd, -⟩ := (Rule.occursAtEnd_leaf hr).mp ho
    cases hd
  · rcases (Rule.occursAtEnd_index hr).mp ho with ho | ⟨s'', hrun, ho⟩
    · cases ho
    · have hkey : _ = Choice.key r.registry c := hw'.key_eq (by omega) r.registry
      rw [hkey] at hrun
      have hs'' : I₂ k (Choice.key r.registry c) s'' := (h.selectIndex k _ _ s' hs').ok hrun
      obtain ⟨r', -, w'', t', hw'', ht', ho⟩ := Rule.occursIn_turn ((hw'.setRegistry (by omega) _).deepen (by omega))
        hs'' (fun r' _ w t hw ht => h.ends_datum hw ht) ho
      obtain ⟨c', r₂, rfl, hkey, ht, hc'⟩ := h.occurs_datum hw'' ht' ho
      refine ⟨c, c', r.registry, r₂, by simp, hkey, ht, fun x hx => ?_⟩
      exact (List.mem_append.mp hx).elim (hc x) (hc' x)

theorem occurs_database (h : v.Keeps rules I₀ I₁ I₂) (hr : r ∈ rules) (hw : w.At outer full 0 r.predicates {})
    (hs : I₀ s) (ho : Rule.Occurs v request 3 above r w s (.selectsDatum choices key t)) :
    ∃ c₀ c₁ c₂ r₀ r₁ r₂, choices = above ++ [c₀, c₁, c₂] ∧ key = Choice.key r₂ c₂ ∧
      I₂ (Choice.key r₀ c₀) (Choice.key r₁ c₁) t ∧ ∀ x ∈ c₀ ++ (c₁ ++ c₂), x.Taken v request := by
  obtain ⟨c, w', s', ho, hw', hk, hs', hc⟩ := Rule.occursFrom_end (by omega : 0 < 3)
    (fun _ _ _ h => by cases h) (fun _ _ _ hk => h.ends_atEnd_database hr hk) [] w s hw hs ho
  by_cases hrules : r.rules.isEmpty
  · obtain ⟨hd, -⟩ := (Rule.occursAtEnd_leaf hrules).mp ho
    cases hd
  · obtain ⟨s₁, schema, s₂, dbRule, hrun, hschema, -, ho⟩ := (Rule.occursAtEnd_database hrules).mp ho
    have hkey : _ = Choice.key r.registry c := hw'.key_eq (by omega) r.registry
    rw [hkey] at hrun ho
    have hs₁ : I₁ (Choice.key r.registry c) s₁ := (h.selectDatabase r hr _ _ s' ⟨_, hk, rfl⟩ hs').ok hrun
    have hs₂ := (h.databaseSchema _ s₁ hs₁).ok hschema
    obtain ⟨r', -, w'', t', hw'', ht', ho⟩ := Rule.occursIn_turn Workspace.At.below hs₂
      (fun r' _ w t hw ht => h.ends_index hw ht) ho
    obtain ⟨c₁, c₂, r₁, r₂, rfl, hkey, ht, hc'⟩ := h.occurs_index hw'' ht' ho
    refine ⟨c, c₁, c₂, r.registry, r₁, r₂, by simp, hkey, ht, fun x hx => ?_⟩
    exact (List.mem_append.mp hx).elim (hc x) (hc' x)

/-- A datum is asked for after choices that build the keys of the three levels. -/
theorem occurs {schema : Schema} (h : v.Keeps schema.rules I₀ I₁ I₂) (hs : I₀ s)
    (ho : schema.Occurs v request s (.selectsDatum choices key t)) :
    ∃ c₀ c₁ c₂ r₀ r₁ r₂, choices = [c₀, c₁, c₂] ∧ key = Choice.key r₂ c₂ ∧
      I₂ (Choice.key r₀ c₀) (Choice.key r₁ c₁) t ∧ ∀ x ∈ c₀ ++ (c₁ ++ c₂), x.Taken v request := by
  have hfresh : (Workspace.fresh schema.registry).At (fun _ => {}) [] 0 [] {} := .fresh
  obtain ⟨r, hr, w', s', hw', hs', ho⟩ := Rule.occursIn_turn hfresh hs
    (fun r hr w t hw ht => h.ends_database hr hw ht) ho
  exact h.occurs_database hr hw' hs' ho

/-- What may happen in an expansion while a visitor keeps what it does: questions for the values of predicates of the two
upper levels, selections of index keys that second-level rules build, and anything at the third level. -/
inductive May (v : ReadVisitor σ) (rules : List Rule) (I₀ : σ → Prop) (I₁ : Key → σ → Prop) : Event σ → Prop
  | database {r : Rule} {p : Predicate} {s : σ} (hr : r ∈ rules) (hp : p ∈ r.predicates) (hs : I₀ s) :
      May v rules I₀ I₁ (.asks 0 p r.registry s)
  | index {k : Key} {schema : Schema} {dbRule r : Rule} {p : Predicate} {s t u : σ} (hs : I₁ k s)
      (hschema : v.databaseSchema.run s = .ok schema u) (hrule : schema.databaseRule k = some dbRule)
      (hr : r ∈ dbRule.rules) (hp : p ∈ r.predicates) (ht : I₁ k t) : May v rules I₀ I₁ (.asks 1 p r.registry t)
  | selects {k key : Key} {schema : Schema} {dbRule r : Rule} {s t u : σ} (hs : I₁ k s)
      (hschema : v.databaseSchema.run s = .ok schema u) (hrule : schema.databaseRule k = some dbRule)
      (hr : r ∈ dbRule.rules) (hkey : r.Builds key) (ht : I₁ k t) : May v rules I₀ I₁ (.selectsIndex r key t)
  | datum (p : Predicate) (registry : TypesRegistry) (s : σ) : May v rules I₀ I₁ (.asks 2 p registry s)
  | selectsDatum (choices : List (List (Choice σ))) (key : Key) (s : σ) :
      May v rules I₀ I₁ (.selectsDatum choices key s)

theorem may_datum (h : v.Keeps rules I₀ I₁ I₂) (hw : w.At outer full 2 r.predicates {}) (hs : I₂ k k' s)
    (ho : Rule.Occurs v request 1 above r w s e) : May v rules I₀ I₁ e := by
  rcases Rule.occursFrom_cases (by omega : 2 < 3) (fun _ _ _ _ => h.ends_atEnd_datum) [] w s hw hs ho with
    ⟨p, -, t, -, rfl⟩ | ⟨c, w', s', ho, -⟩
  · exact .datum p r.registry t
  · by_cases hr : r.rules.isEmpty
    · obtain ⟨-, rfl⟩ := (Rule.occursAtEnd_leaf hr).mp ho
      exact .selectsDatum _ _ _
    · unfold Rule.OccursAtEnd at ho
      rw [if_neg hr] at ho
      exact ho.elim

theorem may_index {schema : Schema} {dbRule : Rule} {u : σ} (h : v.Keeps rules I₀ I₁ I₂) (ht : I₁ k t)
    (hschema : v.databaseSchema.run t = .ok schema u) (hrule : schema.databaseRule k = some dbRule)
    (hr : r ∈ dbRule.rules) (hw : w.At outer full 1 r.predicates {}) (hs : I₁ k s)
    (ho : Rule.Occurs v request 2 above r w s e) : May v rules I₀ I₁ e := by
  rcases Rule.occursFrom_cases (by omega : 1 < 3) (fun _ _ _ _ => h.ends_atEnd_index) [] w s hw hs ho with
    ⟨p, hp, t', ht', rfl⟩ | ⟨c, w', s', ho, hw', hpicks, hs', -⟩
  · exact .index ht hschema hrule hr hp ht'
  · by_cases hrules : r.rules.isEmpty
    · obtain ⟨hd, -⟩ := (Rule.occursAtEnd_leaf hrules).mp ho
      cases hd
    · have hkey := hw'.key_eq (by omega) r.registry
      rcases (Rule.occursAtEnd_index hrules).mp ho with rfl | ⟨s'', hrun, ho⟩
      · rw [hkey]
        exact .selects ht hschema hrule hr ⟨_, hpicks, rfl⟩ hs'
      · have hs'' : I₂ k _ s'' := (h.selectIndex k _ _ s' hs').ok hrun
        obtain ⟨r', -, w'', t', hw'', ht', ho⟩ := Rule.occursIn_turn ((hw'.setRegistry (by omega) _).deepen (by omega))
          hs'' (fun r' _ w t hw ht => h.ends_datum hw ht) ho
        exact h.may_datum hw'' ht' ho

theorem may_database (h : v.Keeps rules I₀ I₁ I₂) (hr : r ∈ rules) (hw : w.At outer full 0 r.predicates {}) (hs : I₀ s)
    (ho : Rule.Occurs v request 3 above r w s e) : May v rules I₀ I₁ e := by
  rcases Rule.occursFrom_cases (by omega : 0 < 3) (fun _ _ _ hk => h.ends_atEnd_database hr hk) [] w s hw hs ho with
    ⟨p, hp, t', ht', rfl⟩ | ⟨c, w', s', ho, hw', hpicks, hs', -⟩
  · exact .database hr hp ht'
  · by_cases hrules : r.rules.isEmpty
    · obtain ⟨hd, -⟩ := (Rule.occursAtEnd_leaf hrules).mp ho
      cases hd
    · obtain ⟨s₁, schema, s₂, dbRule, hrun, hschema, hdbRule, ho⟩ := (Rule.occursAtEnd_database hrules).mp ho
      rw [hw'.key_eq (by omega) r.registry] at hrun hdbRule ho
      have hs₁ : I₁ _ s₁ := (h.selectDatabase r hr _ _ s' ⟨_, hpicks, rfl⟩ hs').ok hrun
      have hs₂ := (h.databaseSchema _ s₁ hs₁).ok hschema
      obtain ⟨r', hr', w'', t', hw'', ht', ho⟩ := Rule.occursIn_turn Workspace.At.below hs₂
        (fun r' _ w t hw ht => h.ends_index hw ht) ho
      exact h.may_index hs₁ hschema hdbRule hr' hw'' ht' ho

/-- All that happens in an expansion may happen while the visitor keeps what it does. -/
theorem may {schema : Schema} (h : v.Keeps schema.rules I₀ I₁ I₂) (hs : I₀ s) (ho : schema.Occurs v request s e) :
    May v schema.rules I₀ I₁ e := by
  have hfresh : (Workspace.fresh schema.registry).At (fun _ => {}) [] 0 [] {} := .fresh
  obtain ⟨r, hr, w', s', hw', hs', ho⟩ := Rule.occursIn_turn hfresh hs
    (fun r hr w t hw ht => h.ends_database hr hw ht) ho
  exact h.may_database hr hw' hs' ho

end ReadVisitor.Keeps

end Path

end Fdb5
