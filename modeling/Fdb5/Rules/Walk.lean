import Fdb5.Rules.Assign

/-! The three levels of the write expansion, for any visitor. -/
namespace Fdb5

open Effect

variable {σ : Type} {v : WriteVisitor σ} {field : Key} {matchFirst : Bool}

namespace Rule

variable {s : WriteState σ} {E : Failure → WriteState σ → Prop}

theorem assignFrom_registry (registry : Option TypesRegistry) (cur : List Predicate) :
    ∀ k : Key, assignFrom field cur { k with registry } =
      (assignFrom field cur k).map (Option.map fun k => { k with registry }) := by
  induction cur with
  | nil => intro k; rfl
  | cons p next ih =>
    intro k
    rw [assignFrom_cons, assignFrom_cons]
    cases p.value field with
    | error e => rfl
    | ok value =>
      have hpush : Key.push { k with registry } p.keyword value =
          { k.push p.keyword value with registry } := rfl
      have hacc : p.accepts { k.push p.keyword value with registry } =
          p.accepts (k.push p.keyword value) := by
        cases hm : p.matcher <;> simp [Predicate.accepts, Matcher.accepts, Key.find, hm]
      simp only [hpush, hacc]
      split
      · exact ih _
      · rfl

/-- On a blank key the predicates assign what the rule does, up to the registry that the end
of the rule sets. -/
theorem assignFrom_blank (field : Key) (r : Rule) {k : Key} (hk : k.Blank) :
    r.assign field = (assignFrom field r.predicates k).map
      (Option.map fun k => { k with registry := some r.registry }) := by
  rw [assign, hk.eq, ← assignFrom_registry]

/-- Expanding a rule from a ready workspace: it is stuck, refuses, or ends with its key. -/
theorem ends_expandFrom_ready {depth : Nat} {r : Rule} {w : Workspace}
    {f : Workspace → EStateM Failure (WriteState σ) Workspace}
    {Q : Workspace → WriteState σ → Prop}
    (hd : depth < 3) (hs : ¬ (matchFirst ∧ s.rule.isSome)) (hw : w.Ready depth)
    (hstuck : ∀ e, r.assign field = .error e → E e s)
    (hno : r.assign field = .ok none → ∀ w', w.Back depth w' → Q w' s)
    (hyes : ∀ k w₁, r.assign field = .ok (some k) → k.Listed → w₁.key depth = k →
      (∀ d < depth, w₁.key d = w.key d) → w₁.Ready (depth + 1) →
      Ends (f w₁) s (fun w₂ t => w₁.Back depth w₂ ∧ ∀ w', w.Back depth w' → Q w' t) E) :
    Ends (expandFrom matchFirst field depth (fun w =>
      f (w.setKey depth { w.key depth with registry := some r.registry })) r.predicates w)
      s Q E := by
  have hb := hw.blank hd
  have ha := assignFrom_blank field r hb
  refine ends_expandFrom hd hs hb.listed (fun d hle => hw d (by omega)) (fun e he => ?_)
    (fun hn => ?_) fun k w₁ hk hw₁ hother hl => ?_
  · exact hstuck e (by rw [ha, he]; rfl)
  · exact hno (by rw [ha, hn]; rfl)
  · set w₂ := w₁.setKey depth { w₁.key depth with registry := some r.registry } with hw₂
    have hother₂ : ∀ d < 3, d ≠ depth → w₂.key d = w.key d := fun d hd' hne =>
      (Workspace.key_setKey_ne _ hd' hd hne).trans (hother d hd' hne)
    have hkey : w₂.key depth = { k with registry := some r.registry } := by
      rw [hw₂, Workspace.key_setKey hd, hw₁]
    refine (hyes { k with registry := some r.registry } w₂ (by rw [ha, hk]; rfl) hl hkey (fun d hlt => hother₂ d (by omega) (by omega))
      fun d hle hd' => ?_).mono (fun w₃ t h => ⟨?_, h.2⟩) fun _ _ h => h
    · rw [hother₂ d hd' (by omega)]; exact hw d (by omega) hd'
    · refine ⟨fun d hlt => ?_, ?_, ?_, h.1.listed, h.1.lower, ?_⟩
      · exact (h.1.upper d hlt).trans (Workspace.key_setKey_ne _ (by omega) hd (by omega))
      · rw [h.1.names, hkey, hw₁]
      · rw [h.1.canonical, hkey, hw₁]
      · rw [h.1.full, hw₂, Workspace.full_setKey]

variable {parents : List Rule} {r : Rule} {w : Workspace} {Q : Workspace → WriteState σ → Prop}

/-- Once a rule is selected, the rules after it are passed over. -/
theorem expand_pass (hm : matchFirst = true) (hs : s.rule.isSome) (levels : Nat) :
    Ends (Rule.expand matchFirst v field levels parents r w) s (fun w' t => w' = w ∧ t = s)
      fun _ _ => False := by
  cases levels <;>
  · rw [Rule.expand]
    cases r.predicates <;> simp [expandFrom, ends_bind, hm, hs]

theorem ends_expand_datum (hs : ¬ (matchFirst ∧ s.rule.isSome)) (hw : w.Ready 2)
    (hinner : r.rules ≠ [] → ∀ e, E e s)
    (hstuck : ∀ e, r.assign field = .error e → E e s)
    (hno : r.assign field = .ok none → ∀ w', w.Back 2 w' → Q w' s)
    (hyes : ∀ k full, r.assign field = .ok (some k) → Ends (v.visitDatum ⟨r, parents⟩ k full) s
      (fun _ t => ∀ w', w.Back 2 w' → Q w' t) E) :
    Ends (Rule.expand matchFirst v field 1 parents r w) s Q E := by
  change Ends (expandFrom matchFirst field 2 _ r.predicates w) s Q E
  refine ends_expandFrom_ready (f := r.atEnd v _ 2 parents) (by omega) hs hw hstuck hno
    fun k w₁ hk hl hw₁ _ hr => ?_
  unfold Rule.atEnd
  by_cases hr' : r.rules = []
  · simp only [hr', List.isEmpty_nil, if_true, ends_bind, ensure, ends_lift, assert]
    refine ⟨fun _ _ => ?_, fun e he => by simp at he⟩
    rw [hw₁]
    exact (hyes k _ hk).mono (fun _ t ht => ⟨.refl (hw₁ ▸ hl) hr, ht⟩) fun _ _ h => h
  · simp only [List.isEmpty_iff, hr', if_false]
    exact hinner hr' _

theorem ends_expand_index (hs : ¬ (matchFirst ∧ s.rule.isSome)) (hw : w.Ready 1)
    (hleaf : r.rules = [] → ∀ e, E e s)
    (hstuck : ∀ e, r.assign field = .error e → E e s)
    (hno : r.assign field = .ok none → ∀ w', w.Back 1 w' → Q w' s)
    (hyes : ∀ k w₁, r.assign field = .ok (some k) → w₁.key 0 = w.key 0 → w₁.Ready 2 →
      Ends (v.visitIndex k w₁.full) s (fun _ t =>
        Ends (r.rules.foldlM (fun w r' => Rule.expand matchFirst v field 1 (r :: parents) r' w) w₁)
          t (fun w₂ u => w₁.Back 2 w₂ ∧ ∀ w', w.Back 1 w' → Q w' u) E) E) :
    Ends (Rule.expand matchFirst v field 2 parents r w) s Q E := by
  change Ends (expandFrom matchFirst field 1 _ r.predicates w) s Q E
  refine ends_expandFrom_ready (f := r.atEnd v _ 1 parents) (by omega) hs hw hstuck hno
    fun k w₁ hk hl hw₁ hup hr => ?_
  unfold Rule.atEnd
  by_cases hr' : r.rules = []
  · simp only [hr', List.isEmpty_nil, if_true, ends_bind, ensure, ends_lift, assert]
    exact ⟨fun a ha => by simp at ha, fun e _ => hleaf hr' e⟩
  · simp only [List.isEmpty_iff, hr', if_false, ends_bind]
    have hkey : w₁.key1 = k := hw₁
    rw [show w₁.key 1 = k from hkey]
    refine (hyes k w₁ hk (hup 0 (by omega)) hr).mono (fun _ t h => h.mono (fun w₂ u h => ?_)
      fun _ _ h => h) fun _ _ h => h
    exact ⟨h.1.deeper (hw₁ ▸ hl) hr, h.2⟩

theorem ends_expand_database (hs : ¬ (matchFirst ∧ s.rule.isSome)) (hw : w.Ready 0)
    (hleaf : r.rules = [] → ∀ e, E e s)
    (hstuck : ∀ e, r.assign field = .error e → E e s)
    (hno : r.assign field = .ok none → ∀ w', w.Back 0 w' → Q w' s)
    (hyes : ∀ k full, r.assign field = .ok (some k) → Ends (v.visitDatabase k full) s
      (fun _ t => Ends (onVisitor v.databaseSchema) t (fun schema u =>
        Ends (schema.expandSecond (Rule.expand matchFirst v field 2) k) u
          (fun _ u' => ∀ w', w.Back 0 w' → Q w' u') E) E) E) :
    Ends (Rule.expand matchFirst v field 3 parents r w) s Q E := by
  change Ends (expandFrom matchFirst field 0 _ r.predicates w) s Q E
  refine ends_expandFrom_ready (f := r.atEnd v _ 0 parents) (by omega) hs hw hstuck hno
    fun k w₁ hk hl hw₁ _ hr => ?_
  unfold Rule.atEnd
  by_cases hr' : r.rules = []
  · simp only [hr', List.isEmpty_nil, if_true, ends_bind, ensure, ends_lift, assert]
    exact ⟨fun a ha => by simp at ha, fun e _ => hleaf hr' e⟩
  · simp only [List.isEmpty_iff, hr', if_false, ends_bind, ends_pure]
    rw [show w₁.key 0 = k from hw₁]
    refine (hyes k w₁.full hk).mono (fun _ t h => h.mono (fun schema u h => h.mono
      (fun _ u' h => ⟨.refl (hw₁ ▸ hl) hr, h⟩) fun _ _ h => h) fun _ _ h => h) fun _ _ h => h

end Rule

theorem Workspace.ready_fresh (registry : TypesRegistry) : (Workspace.fresh registry).Ready 0 := by
  intro d _ hd
  match d, hd with
  | 0, _ | 1, _ | 2, _ => exact ⟨rfl, rfl, rfl⟩

theorem Workspace.ready_below (registry : TypesRegistry) (dbKey : Key) :
    (Workspace.below registry dbKey).Ready 1 := by
  intro d hle hd
  match d, hle, hd with
  | 1, _, _ | 2, _, _ => exact ⟨rfl, rfl, rfl⟩

end Fdb5
