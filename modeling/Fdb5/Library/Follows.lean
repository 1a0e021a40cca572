import Mathlib.Data.List.Basic

/-! Runs of steps: what holds at each of them, and runs that follow another run. -/
namespace Follows

variable {α σ τ : Type} {f : σ → α → σ} {g : τ → α → τ} {R : List α → σ → τ → Prop} {P : τ → α → Prop}
  {G : List α → σ → τ → α → Prop} {l : List α} {a : α} {s : σ} {t : τ}

/-- At each step of the run `P` holds of the state and what is done there. -/
def Each (P : τ → α → Prop) (g : τ → α → τ) (t : τ) (l : List α) : Prop :=
  ∀ pre a post, l = pre ++ a :: post → P (pre.foldl g t) a

theorem each_nil : Each P g t [] := by simp [Each]

theorem each_cons : Each P g t (a :: l) ↔ P t a ∧ Each P g (g t a) l := by
  constructor
  · intro h
    refine ⟨h [] a l rfl, fun pre b post heq => ?_⟩
    exact h (a :: pre) b post (by rw [heq, List.cons_append])
  · rintro ⟨ha, h⟩ pre b post heq
    cases pre with
    | nil =>
      obtain ⟨rfl, rfl⟩ := List.cons.inj heq
      exact ha
    | cons c pre =>
      obtain ⟨rfl, htail⟩ := List.cons.inj heq
      exact h pre b post htail

theorem Each.suffix {pre : List α} (h : Each P g t (pre ++ l)) : Each P g (pre.foldl g t) l := by
  intro mid a post heq
  have hstep := h (pre ++ mid) a post (by rw [heq, List.append_assoc])
  rwa [List.foldl_append] at hstep

instance decidableEach [∀ t a, Decidable (P t a)] : ∀ l t, Decidable (Each P g t l)
  | [], _ => .isTrue each_nil
  | a :: l, t => @decidable_of_iff' _ _ each_cons (@instDecidableAnd _ _ _ (decidableEach l (g t a)))

theorem Each.mono {Q : τ → α → Prop} (h : Each P g t l) (hPQ : ∀ t a, P t a → Q t a) : Each Q g t l :=
  fun pre a post heq => hPQ _ a (h pre a post heq)

/-- A run whose steps keep it with another one is with it at every moment. -/
theorem follows (hstep : ∀ a ∈ l, ∀ post s t, R (a :: post) s t → P t a → R post (f s a) (g t a)) (h : R l s t)
    (hP : Each P g t l) : ∀ pre post, l = pre ++ post → R post (pre.foldl f s) (pre.foldl g t) := by
  induction l generalizing s t with
  | nil =>
    intro pre post heq
    obtain ⟨rfl, rfl⟩ := List.append_eq_nil_iff.mp heq.symm
    exact h
  | cons a l ih =>
    obtain ⟨ha, hl⟩ := each_cons.mp hP
    intro pre post heq
    cases pre with
    | nil =>
      obtain rfl : a :: l = post := heq
      exact h
    | cons c pre =>
      obtain ⟨rfl, htail⟩ := List.cons.inj heq
      have hR := hstep a List.mem_cons_self l s t h ha
      exact ih (fun b hb => hstep b (List.mem_cons_of_mem a hb)) hR hl pre post htail

/-- Where the steps that keep a run with another one are the good ones, every step is good exactly if
each has what it takes to keep the run there. -/
theorem good_iff (hgood : ∀ a ∈ l, ∀ post s t, R (a :: post) s t → (G post s t a ↔ P t a))
    (hstep : ∀ a ∈ l, ∀ post s t, R (a :: post) s t → P t a → R post (f s a) (g t a)) (h : R l s t) :
    (∀ pre a post, l = pre ++ a :: post → G post (pre.foldl f s) (pre.foldl g t) a) ↔ Each P g t l := by
  constructor
  · induction l generalizing s t with
    | nil => exact fun _ => each_nil
    | cons a l ih =>
      intro hall
      have ha := (hgood a List.mem_cons_self l s t h).mp (hall [] a l rfl)
      have hR := hstep a List.mem_cons_self l s t h ha
      refine each_cons.mpr ⟨ha, ?_⟩
      apply ih (fun b hb => hgood b (List.mem_cons_of_mem a hb)) (fun b hb => hstep b (List.mem_cons_of_mem a hb)) hR
      intro pre b post heq
      exact hall (a :: pre) b post (by rw [heq, List.cons_append])
  · intro hP pre a post heq
    have hR := follows hstep h hP pre (a :: post) heq
    exact (hgood a (by simp [heq]) post _ _ hR).mpr (hP pre a post heq)

/-- The same of one run, where an invariant makes the steps good. -/
theorem each_iff {I : τ → Prop} {Q : τ → α → Prop} (hgood : ∀ t a, I t → (Q t a ↔ P t a))
    (hstep : ∀ t a, I t → P t a → I (g t a)) (h : I t) : Each Q g t l ↔ Each P g t l := by
  let R (_ : List α) (s t : τ) : Prop := s = t ∧ I t
  have hQ : ∀ a ∈ l, ∀ post s t, R (a :: post) s t → (Q s a ↔ P t a) := by
    rintro a - post s t ⟨rfl, hs⟩
    exact hgood s a hs
  have hR : ∀ a ∈ l, ∀ post s t, R (a :: post) s t → P t a → R post (g s a) (g t a) := by
    rintro a - post s t ⟨rfl, hs⟩ hP
    exact ⟨rfl, hstep s a hs hP⟩
  exact good_iff (G := fun _ s _ a => Q s a) hQ hR ⟨rfl, h⟩

end Follows
