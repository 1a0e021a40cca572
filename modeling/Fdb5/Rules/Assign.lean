import Fdb5.Rules.Expand

/-! What one rule assigns to a field, and that its expansion leaves the workspace as it was. -/
namespace Fdb5

open Effect

namespace Key

/-- Every keyword that has a value is among the names. -/
def Listed (k : Key) : Prop := ∀ keyword ∈ k.keys, keyword ∈ k.names

/-- A key as the expansion starts a level with. -/
structure Blank (k : Key) : Prop where
  names : k.names = []
  keys : k.keys = ∅
  canonical : k.canonical = false

theorem Blank.listed {k : Key} (h : k.Blank) : k.Listed := by
  simp [Listed, h.keys]

theorem Listed.blank {k : Key} (h : k.Listed) (hn : k.names = []) (hc : k.canonical = false) :
    k.Blank := by
  refine ⟨hn, Std.ExtTreeMap.ext_getElem? fun x => ?_, hc⟩
  have hx : x ∉ k.keys := fun hx => by simpa [hn] using h x hx
  simpa using hx

theorem Blank.eq {k : Key} (h : k.Blank) : k = { registry := k.registry } := by
  obtain ⟨keys, names, registry, canonical⟩ := k
  obtain ⟨hn, hk, hc⟩ := h
  simp_all

@[simp] theorem push_names (k : Key) (keyword value : String) :
    (k.push keyword value).names = k.names ++ [keyword] := rfl
@[simp] theorem push_keys (k : Key) (keyword value : String) :
    (k.push keyword value).keys = k.keys.insert keyword value := rfl
@[simp] theorem push_registry (k : Key) (keyword value : String) :
    (k.push keyword value).registry = k.registry := rfl
@[simp] theorem push_canonical (k : Key) (keyword value : String) :
    (k.push keyword value).canonical = k.canonical := rfl

@[simp] theorem find_push (k : Key) (keyword value : String) :
    (k.push keyword value).find keyword = some value := by
  simp [find]

theorem find_push_eq {k : Key} {keyword value : String} (other : String) :
    (k.push keyword value).find other = if keyword = other then some value else k.find other := by
  rw [find, push, Std.ExtTreeMap.getElem?_insert]
  simp [find]

theorem find_set {k : Key} {keyword value : String} (other : String) :
    (k.set keyword value).find other = if keyword = other then some value else k.find other := by
  rw [set]
  split <;> simp [find, Std.ExtTreeMap.getElem?_insert]

theorem mem_push {k : Key} {keyword keyword' value : String} :
    keyword' ∈ (k.push keyword value).keys ↔ keyword' = keyword ∨ keyword' ∈ k.keys := by
  rw [push_keys, Std.ExtTreeMap.mem_insert, Std.compare_eq_iff_eq, eq_comm]

theorem Listed.push {k : Key} (h : k.Listed) (keyword value : String) :
    (k.push keyword value).Listed := by
  intro x hx
  simp only [push_keys, Std.ExtTreeMap.mem_insert,
    Std.LawfulEqCmp.compare_eq_iff_eq] at hx
  rcases hx with rfl | hx
  · simp
  · simp [h x hx]

/-- What was pushed last can be popped, and the names are then those before. -/
theorem pop_of_names {k : Key} {names : List String} {keyword : String}
    (h : k.names = names ++ [keyword]) :
    k.pop keyword = .ok { k with keys := k.keys.erase keyword, names } := by
  simp [pop, assert, h, pure, Except.pure, bind, Except.bind]

theorem erase_push {k : Key} {keyword value : String} (h : keyword ∉ k.keys) :
    (k.push keyword value).keys.erase keyword = k.keys := by
  apply Std.ExtTreeMap.ext_getElem?
  intro other
  rw [push_keys, Std.ExtTreeMap.getElem?_erase, Std.ExtTreeMap.getElem?_insert]
  by_cases ho : keyword = other
  · subst ho
    simp [Std.ExtTreeMap.getElem?_eq_none h]
  · simp [ho]

/-- A keyword that was not there is pushed and popped without a trace. -/
theorem pop_push {k : Key} {keyword value : String} (h : keyword ∉ k.keys) :
    (k.push keyword value).pop keyword = .ok k := by
  rw [pop_of_names (push_names k keyword value), erase_push h]
  rfl

theorem Listed.pop {k : Key} {names : List String} {keyword : String} (hk : k.Listed)
    (h : k.names = names ++ [keyword]) :
    Key.Listed { k with keys := k.keys.erase keyword, names } := by
  intro x hx
  simp only [Std.ExtTreeMap.mem_erase, ne_eq, Std.LawfulEqCmp.compare_eq_iff_eq] at hx
  have := hk x hx.2
  simp only [h, List.mem_append, List.mem_singleton] at this
  exact this.resolve_right fun e => hx.1 e.symm

end Key

namespace Workspace

variable {w w' w₁ w₂ : Workspace} {depth d : Nat}

@[simp] theorem key_setKey (h : depth < 3) (k : Key) : (w.setKey depth k).key depth = k := by
  match depth, h with
  | 0, _ | 1, _ | 2, _ => rfl

theorem key_setKey_ne (k : Key) (hd : d < 3) (h : depth < 3) (hne : d ≠ depth) :
    (w.setKey depth k).key d = w.key d := by
  match depth, h with
  | 0, _ | 1, _ | 2, _ => match d, hd with
    | 0, _ | 1, _ | 2, _ => first | rfl | exact absurd rfl hne

@[simp] theorem full_setKey (k : Key) : (w.setKey depth k).full = w.full := by
  unfold setKey; split <;> rfl

@[simp] theorem full_push (keyword value : String) :
    (w.push depth keyword value).full = w.full.push keyword value := rfl

@[simp] theorem key_push (h : depth < 3) (keyword value : String) :
    (w.push depth keyword value).key depth = (w.key depth).push keyword value :=
  key_setKey h _

theorem key_push_ne (keyword value : String) (hd : d < 3) (h : depth < 3) (hne : d ≠ depth) :
    (w.push depth keyword value).key d = w.key d := key_setKey_ne _ hd h hne

/-- The workspace is ready for a rule at `depth`: nothing is assigned from there on. -/
def Ready (depth : Nat) (w : Workspace) : Prop := ∀ d, depth ≤ d → d < 3 → (w.key d).Blank

/-- What a rule at `depth` leaves of the workspace it was given. -/
structure Back (depth : Nat) (w w' : Workspace) : Prop where
  upper : ∀ d < depth, w'.key d = w.key d
  names : (w'.key depth).names = (w.key depth).names
  canonical : (w'.key depth).canonical = (w.key depth).canonical
  listed : (w'.key depth).Listed
  lower : ∀ d, depth < d → d < 3 → (w'.key d).Blank
  full : w'.full.names = w.full.names

theorem Back.refl (hl : (w.key depth).Listed) (hr : w.Ready (depth + 1)) : Back depth w w where
  upper _ _ := rfl
  names := rfl
  canonical := rfl
  listed := hl
  lower := hr
  full := rfl

theorem Ready.blank (h : w.Ready depth) (hd : depth < 3) : (w.key depth).Blank :=
  h depth (Nat.le_refl _) hd

theorem Ready.back (h : w.Ready depth) (hd : depth < 3) : Back depth w w :=
  Back.refl (h.blank hd).listed fun d hlt => h d (by omega)

theorem Back.ready (h : Back depth w w') (hw : w.Ready depth) : w'.Ready depth := by
  intro d hle hd
  rcases Nat.lt_or_eq_of_le hle with hlt | rfl
  · exact h.lower d hlt hd
  · have hb := hw depth (Nat.le_refl _) hd
    exact h.listed.blank (h.names.trans hb.names) (h.canonical.trans hb.canonical)

theorem Back.trans (h : Back depth w w₁) (h' : Back depth w₁ w₂) : Back depth w w₂ where
  upper d hd := (h'.upper d hd).trans (h.upper d hd)
  names := h'.names.trans h.names
  canonical := h'.canonical.trans h.canonical
  listed := h'.listed
  lower := h'.lower
  full := h'.full.trans h.full

/-- A rule one level further down leaves this level as it was. -/
theorem Back.deeper (h : Back (depth + 1) w w') (hl : (w.key depth).Listed)
    (hr : w.Ready (depth + 1)) : Back depth w w' where
  upper d hlt := h.upper d (by omega)
  names := by rw [h.upper depth (by omega)]
  canonical := by rw [h.upper depth (by omega)]
  listed := by rw [h.upper depth (by omega)]; exact hl
  lower := fun d hlt hd => h.ready hr d hlt hd
  full := h.full

/-- Popping undoes a push, whatever was done in between. -/
theorem Back.pop {keyword value : String} (hd : depth < 3)
    (h : Back depth (w.push depth keyword value) w') :
    ∃ w'', w'.pop depth keyword = .ok w'' ∧ Back depth w w'' := by
  have hn : (w'.key depth).names = (w.key depth).names ++ [keyword] := by
    rw [h.names, key_push hd, Key.push_names]
  have hf : w'.full.names = w.full.names ++ [keyword] := by
    rw [h.full, full_push, Key.push_names]
  refine ⟨_, by rw [Workspace.pop, Key.pop_of_names hn, Key.pop_of_names hf]; rfl, ?_⟩
  refine ⟨fun d hlt => ?_, ?_, ?_, ?_, fun d hlt hd' => ?_, rfl⟩
  · have := h.upper d hlt
    rw [key_push_ne _ _ (by omega) hd (by omega)] at this
    exact (key_setKey_ne _ (by omega) hd (by omega)).trans this
  · change ((w'.setKey depth _).key depth).names = _
    rw [key_setKey hd]
  · have := h.canonical
    rw [key_push hd, Key.push_canonical] at this
    change ((w'.setKey depth _).key depth).canonical = _
    rw [key_setKey hd, ← this]
  · change Key.Listed ((w'.setKey depth _).key depth)
    rw [key_setKey hd]
    exact h.listed.pop hn
  · change Key.Blank ((w'.setKey depth _).key d)
    rw [key_setKey_ne _ hd' hd (by omega)]
    exact h.lower d hlt hd'

end Workspace

namespace Rule

variable {σ : Type} {field : Key} {depth : Nat}

/-- The key that the predicates from `cur` on make of `k`, none where a matcher refuses. -/
def assignFrom (field : Key) : List Predicate → Key → Except Failure (Option Key)
  | [], k => .ok (some k)
  | p :: next, k => do
    let value ← p.value field
    let k := k.push p.keyword value
    if p.accepts k then assignFrom field next k else return none

/-- The key that a rule assigns to a field. -/
def assign (field : Key) (r : Rule) : Except Failure (Option Key) :=
  assignFrom field r.predicates { registry := some r.registry }

theorem assignFrom_cons (field : Key) (p : Predicate) (next : List Predicate) (k : Key) :
    assignFrom field (p :: next) k = match p.value field with
      | .error e => .error e
      | .ok value => if p.accepts (k.push p.keyword value) then
          assignFrom field next (k.push p.keyword value) else .ok none := by
  rw [assignFrom]
  cases p.value field <;> rfl

/-- Expanding the predicates of a rule does at its end what `assignFrom` says, and leaves a
workspace that only the end can have changed below this level. -/
theorem ends_expandFrom {matchFirst : Bool}
    {atEnd : Workspace → EStateM Failure (WriteState σ) Workspace} {s : WriteState σ}
    (hd : depth < 3) (hs : ¬ (matchFirst ∧ s.rule.isSome)) {cur : List Predicate} :
    ∀ {w : Workspace} {Q : Workspace → WriteState σ → Prop} {E : Failure → WriteState σ → Prop},
      (w.key depth).Listed → w.Ready (depth + 1) →
      (∀ e, assignFrom field cur (w.key depth) = .error e → E e s) →
      (assignFrom field cur (w.key depth) = .ok none → ∀ w', w.Back depth w' → Q w' s) →
      (∀ k w₁, assignFrom field cur (w.key depth) = .ok (some k) → w₁.key depth = k →
        (∀ d < 3, d ≠ depth → w₁.key d = w.key d) → k.Listed →
        Ends (atEnd w₁) s
          (fun w₂ t => w₁.Back depth w₂ ∧ ∀ w', w.Back depth w' → Q w' t) E) →
      Ends (expandFrom matchFirst field depth atEnd cur w) s Q E := by
  induction cur with
  | nil =>
    intro w Q E hl hr _ _ hyes
    rw [expandFrom]
    simp only [ends_bind, ends_get, if_neg hs, ensure, ends_lift, assert, if_pos hd]
    refine ⟨fun _ _ => ?_, fun e he => by simp at he⟩
    exact (hyes _ w rfl rfl (fun _ _ _ => rfl) hl).mono (fun w₂ t h => h.2 w₂ h.1)
      fun _ _ h => h
  | cons p next ih =>
    intro w Q E hl hr hstuck hno hyes
    rw [expandFrom]
    simp only [ends_bind, ends_get, if_neg hs, ensure, ends_lift, assert, if_pos hd]
    refine ⟨fun _ _ => ⟨fun value hv => ?_, fun e he => ?_⟩, fun e he => by simp at he⟩
    · set w₁ := w.push depth p.keyword value
      have hk : w₁.key depth = (w.key depth).push p.keyword value := Workspace.key_push hd _ _
      have hl₁ : (w₁.key depth).Listed := hk ▸ hl.push _ _
      have hr₁ : w₁.Ready (depth + 1) := fun d hle hd' => by
        rw [Workspace.key_push_ne _ _ hd' hd (by omega)]; exact hr d hle hd'
      have hpop : ∀ {t : WriteState σ}, (∀ w', w.Back depth w' → Q w' t) →
          ∀ w', w₁.Back depth w' → Ends (lift (w'.pop depth p.keyword)) t Q E := by
        intro t hQ w' hw'
        obtain ⟨w'', hp, hb⟩ := hw'.pop hd
        simpa [hp] using hQ w'' hb
      have hcons := assignFrom_cons field p next (w.key depth)
      simp only [hv, ← hk] at hcons
      by_cases hacc : p.accepts (w₁.key depth) = true
      · simp only [hacc, if_true, ends_bind] at hcons ⊢
        rw [hcons] at hstuck hno hyes
        refine ih (Q := fun w' t => Ends (lift (w'.pop depth p.keyword)) t Q E) hl₁ hr₁ hstuck (fun h => hpop (hno h)) fun k w₂ ha hk₂ hother hk' => ?_
        refine (hyes k w₂ ha hk₂ (fun d hd' hne => ?_) hk').mono
          (fun _ _ h => ⟨h.1, hpop h.2⟩) fun _ _ h => h
        rw [hother d hd' hne, Workspace.key_push_ne _ _ hd' hd hne]
      · simp only [hacc, Bool.false_eq_true, if_false, ends_bind, ends_pure] at hcons ⊢
        rw [hcons] at hno
        exact hpop (hno rfl) w₁ (.refl hl₁ hr₁)
    · exact hstuck e (by rw [assignFrom_cons, he])

end Rule

end Fdb5
