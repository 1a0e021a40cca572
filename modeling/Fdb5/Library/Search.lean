import Fdb5.Library.Effect

/-! Depth-first search where a candidate may be refused, accepted, or end the search in error. -/
namespace Search

open Effect

variable {ε σ α β γ : Type}

section Pure

variable {f : α → Except ε (Option β)} {l l₁ l₂ : List α}

theorem findSomeM?_cons_none {a : α} (h : f a = .ok none) :
    (a :: l).findSomeM? f = l.findSomeM? f := by
  rw [List.findSomeM?_cons, h]; rfl

theorem findSomeM?_cons_some {a : α} {b : β} (h : f a = .ok (some b)) :
    (a :: l).findSomeM? f = .ok (some b) := by
  rw [List.findSomeM?_cons, h]; rfl

theorem findSomeM?_cons_error {a : α} {e : ε} (h : f a = .error e) :
    (a :: l).findSomeM? f = .error e := by
  rw [List.findSomeM?_cons, h]; rfl

theorem findSomeM?_append : (l₁ ++ l₂).findSomeM? f =
    match l₁.findSomeM? f with
    | .ok none => l₂.findSomeM? f
    | r => r := by
  induction l₁ with
  | nil => rfl
  | cons a l ih =>
    rw [List.cons_append]
    match h : f a with
    | .error e => rw [findSomeM?_cons_error h, findSomeM?_cons_error h]
    | .ok none => rw [findSomeM?_cons_none h, findSomeM?_cons_none h, ih]
    | .ok (some b) => rw [findSomeM?_cons_some h, findSomeM?_cons_some h]

/-- A nested search is the search of the flattened list. -/
theorem findSomeM?_flatMap {g : γ → List α} {m : List γ} :
    (m.flatMap g).findSomeM? f = m.findSomeM? fun c => (g c).findSomeM? f := by
  induction m with
  | nil => rfl
  | cons c m ih =>
    rw [List.flatMap_cons, findSomeM?_append, ih]
    match h : (g c).findSomeM? f with
    | .error e => rw [findSomeM?_cons_error (by exact h)]
    | .ok none => rw [findSomeM?_cons_none (by exact h)]
    | .ok (some b) => rw [findSomeM?_cons_some (by exact h)]

theorem findSomeM?_map {g : γ → α} {m : List γ} :
    (m.map g).findSomeM? f = m.findSomeM? fun c => f (g c) := by
  rw [List.map_eq_flatMap, findSomeM?_flatMap]
  congr 1
  funext c
  match h : f (g c) with
  | .error e => rw [findSomeM?_cons_error h]
  | .ok none => rw [findSomeM?_cons_none h]; rfl
  | .ok (some b) => rw [findSomeM?_cons_some h]

theorem findSomeM?_congr {g : α → Except ε (Option β)} (h : ∀ a ∈ l, f a = g a) :
    l.findSomeM? f = l.findSomeM? g := by
  induction l with
  | nil => rfl
  | cons a l ih =>
    rw [List.findSomeM?_cons, List.findSomeM?_cons, h a List.mem_cons_self,
      ih fun b hb => h b (List.mem_cons_of_mem a hb)]

theorem findSomeM?_none (h : ∀ a ∈ l, f a = .ok none) : l.findSomeM? f = .ok none := by
  induction l with
  | nil => rfl
  | cons a l ih =>
    rw [findSomeM?_cons_none (h a List.mem_cons_self)]
    exact ih fun b hb => h b (List.mem_cons_of_mem a hb)

/-- A non-empty search whose every candidate answers the same gives that answer. -/
theorem findSomeM?_const {r : Except ε (Option β)} (hl : l ≠ []) (h : ∀ a ∈ l, f a = r) :
    l.findSomeM? f = r := by
  match r with
  | .ok none => exact findSomeM?_none h
  | .ok (some b) =>
    obtain ⟨a, l, rfl⟩ := List.exists_cons_of_ne_nil hl
    exact findSomeM?_cons_some (h a List.mem_cons_self)
  | .error e =>
    obtain ⟨a, l, rfl⟩ := List.exists_cons_of_ne_nil hl
    exact findSomeM?_cons_error (h a List.mem_cons_self)

/-- The first candidate that is not refused decides. -/
theorem findSomeM?_first {a : α} {b : β} (h₁ : ∀ c ∈ l₁, f c = .ok none)
    (h : f a = .ok (some b)) : (l₁ ++ a :: l₂).findSomeM? f = .ok (some b) := by
  rw [findSomeM?_append, findSomeM?_none h₁]
  exact findSomeM?_cons_some h

/-- The first candidate that fails ends the search. -/
theorem findSomeM?_first_error {a : α} {e : ε} (h₁ : ∀ c ∈ l₁, f c = .ok none)
    (h : f a = .error e) : (l₁ ++ a :: l₂).findSomeM? f = .error e := by
  rw [findSomeM?_append, findSomeM?_none h₁]
  exact findSomeM?_cons_error h

/-- What a search found, one of its candidates gave. -/
theorem findSomeM?_mem {b : β} (h : l.findSomeM? f = .ok (some b)) :
    ∃ pre a post, l = pre ++ a :: post ∧ (∀ c ∈ pre, f c = .ok none) ∧ f a = .ok (some b) := by
  induction l with
  | nil => cases h
  | cons a l ih =>
    match ha : f a with
    | .error e => rw [findSomeM?_cons_error ha] at h; cases h
    | .ok none =>
      obtain ⟨pre, c, post, rfl, hpre, hc⟩ := ih (by rwa [findSomeM?_cons_none ha] at h)
      refine ⟨a :: pre, c, post, rfl, fun d hd => ?_, hc⟩
      rcases List.mem_cons.mp hd with rfl | hd
      · exact ha
      · exact hpre d hd
    | .ok (some c) =>
      rw [findSomeM?_cons_some ha] at h
      exact ⟨[], a, l, rfl, by simp, ha.trans h⟩

end Pure

section Agree

variable {R : β → γ → Prop}

/-- Two searches fail alike, refuse alike, or find what `R` relates. -/
inductive Agree (R : β → γ → Prop) : Except ε (Option β) → Except ε (Option γ) → Prop where
  | error (e : ε) : Agree R (.error e) (.error e)
  | refused : Agree R (.ok none) (.ok none)
  | found {b : β} {c : γ} (h : R b c) : Agree R (.ok (some b)) (.ok (some c))

theorem Agree.mono {R' : β → γ → Prop} {x : Except ε (Option β)} {y : Except ε (Option γ)} (h : Agree R x y)
    (hr : ∀ b c, R b c → R' b c) : Agree R' x y := by
  cases h with
  | error e => exact .error e
  | refused => exact .refused
  | found h => exact .found (hr _ _ h)

theorem Agree.related {x : Except ε (Option β)} {y : Except ε (Option γ)} {b : β} {c : γ} (h : Agree R x y)
    (hx : x = .ok (some b)) (hy : y = .ok (some c)) : R b c := by
  cases h with
  | error e => cases hx
  | refused => cases hx
  | found h =>
    cases hx
    cases hy
    exact h

/-- Searches that agree on every candidate agree. -/
theorem agree_findSomeM? {f : α → Except ε (Option β)} {g : α → Except ε (Option γ)} {l : List α}
    (h : ∀ a ∈ l, Agree R (f a) (g a)) : Agree R (l.findSomeM? f) (l.findSomeM? g) := by
  induction l with
  | nil => exact .refused
  | cons a l ih =>
    have ha := h a List.mem_cons_self
    generalize hf : f a = x at ha
    generalize hg : g a = y at ha
    cases ha with
    | error e =>
      rw [findSomeM?_cons_error hf, findSomeM?_cons_error hg]
      exact .error e
    | refused =>
      rw [findSomeM?_cons_none hf, findSomeM?_cons_none hg]
      exact ih fun b hb => h b (List.mem_cons_of_mem a hb)
    | found hr =>
      rw [findSomeM?_cons_some hf, findSomeM?_cons_some hg]
      exact .found hr

end Agree

/-- A loop that tries the candidates in turn and passes over those after the first success
ends as the search does; `P` says what holds of the state, given what was found so far, and `E` what
holds where a candidate fails. -/
theorem ends_foldlM_findSomeM? {f : β → α → EStateM ε σ β} {g : α → Except ε (Option γ)}
    {P : Option γ → β → σ → Prop} {E : σ → Prop} {l : List α}
    (htry : ∀ a ∈ l, ∀ b s, P none b s → Ends (f b a) s
      (fun b' t => ∃ o, g a = .ok o ∧ P o b' t) fun e t => g a = .error e ∧ E t)
    (hpass : ∀ a ∈ l, ∀ c b s, P (some c) b s → Ends (f b a) s (P (some c)) fun _ _ => False) :
    ∀ b s, P none b s → Ends (l.foldlM f b) s
      (fun b' t => ∃ o, l.findSomeM? g = .ok o ∧ P o b' t) fun e t => l.findSomeM? g = .error e ∧ E t := by
  induction l with
  | nil => intro b s hs; exact ⟨none, rfl, hs⟩
  | cons a l ih =>
    intro b s hs
    rw [List.foldlM_cons, ends_bind]
    refine (htry a List.mem_cons_self b s hs).mono (fun b' t ⟨o, ho, ht⟩ => ?_)
      fun e t he => ⟨findSomeM?_cons_error he.1, he.2⟩
    match o with
    | none =>
      rw [findSomeM?_cons_none ho]
      exact ih (fun c hc => htry c (List.mem_cons_of_mem a hc))
        (fun c hc => hpass c (List.mem_cons_of_mem a hc)) b' t ht
    | some c =>
      rw [findSomeM?_cons_some ho]
      refine (ends_foldlM (fun d hd => hpass d (List.mem_cons_of_mem a hd) c) b' t ht).mono
        (fun _ _ h => ⟨some c, rfl, h⟩) fun _ _ h => h.elim

/-- The same where what is thrown is any failure of the loop's turns, and only a candidate with a result that `C` holds of
need be tried. -/
theorem ends_foldlM_search {f : β → α → EStateM ε σ β} {g : α → Except ε (Option γ)} {C : γ → Prop}
    {P : Option γ → β → σ → Prop} {E : ε → σ → Prop} {l : List α}
    (htry : ∀ a ∈ l, (∀ c, g a = .ok (some c) → C c) → ∀ b s, P none b s →
      Ends (f b a) s (fun b' t => ∃ o, g a = .ok o ∧ P o b' t) E)
    (hpass : ∀ a ∈ l, ∀ c b s, P (some c) b s → Ends (f b a) s (P (some c)) fun _ _ => False)
    (hC : ∀ c, l.findSomeM? g = .ok (some c) → C c) :
    ∀ b s, P none b s → Ends (l.foldlM f b) s (fun b' t => ∃ o, l.findSomeM? g = .ok o ∧ P o b' t) E := by
  induction l with
  | nil => intro b s hs; exact ⟨none, rfl, hs⟩
  | cons a l ih =>
    intro b s hs
    rw [List.foldlM_cons, ends_bind]
    refine (htry a List.mem_cons_self (fun c hc => hC c (findSomeM?_cons_some hc)) b s hs).mono (fun b' t ht => ?_)
      fun _ _ h => h
    obtain ⟨o, ho, ht⟩ := ht
    cases o with
    | none =>
      rw [findSomeM?_cons_none ho] at hC ⊢
      exact ih (fun c hc => htry c (List.mem_cons_of_mem a hc)) (fun c hc => hpass c (List.mem_cons_of_mem a hc)) hC b' t ht
    | some c =>
      rw [findSomeM?_cons_some ho]
      refine (ends_foldlM (fun d hd => hpass d (List.mem_cons_of_mem a hd) c) b' t ht).mono
        (fun _ _ h => ⟨some c, rfl, h⟩) fun _ _ h => h.elim

end Search
