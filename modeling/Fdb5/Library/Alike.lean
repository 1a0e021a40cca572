import Fdb5.Library.Effect

/-! Two computations on states of their own that end alike. -/
namespace Effect

variable {ε σ τ α β γ : Type}

/-- Both return, into `R`, or both throw the same, into `S`. -/
def Alike (R : α → σ → β → τ → Prop) (S : σ → τ → Prop) (x : EStateM ε σ α) (s : σ) (y : EStateM ε τ β) (t : τ) : Prop :=
  Ends x s (fun a s' => ∃ b t', y.run t = .ok b t' ∧ R a s' b t') fun e s' => ∃ t', y.run t = .error e t' ∧ S s' t'

variable {R : α → σ → β → τ → Prop} {S : σ → τ → Prop} {x : EStateM ε σ α} {y : EStateM ε τ β} {s : σ} {t : τ}

theorem alike_pure {a : α} {b : β} (h : R a s b t) : Alike R S (pure a : EStateM ε σ α) s (pure b) t := ⟨b, t, rfl, h⟩

theorem Alike.mono {R' : α → σ → β → τ → Prop} {S' : σ → τ → Prop} (h : Alike R S x s y t)
    (hR : ∀ a s b t, R a s b t → R' a s b t) (hS : ∀ s t, S s t → S' s t) : Alike R' S' x s y t := by
  apply Ends.mono h
  · rintro a s' ⟨b, t', hrun, hb⟩
    exact ⟨b, t', hrun, hR a s' b t' hb⟩
  · rintro e s' ⟨t', hrun, ht⟩
    exact ⟨t', hrun, hS s' t' ht⟩

theorem Alike.bind {α' β' : Type} {R' : α' → σ → β' → τ → Prop} {f : α → EStateM ε σ α'} {g : β → EStateM ε τ β'}
    (h : Alike R S x s y t) (hf : ∀ a s b t, R a s b t → Alike R' S (f a) s (g b) t) :
    Alike R' S (x >>= f) s (y >>= g) t := by
  unfold Alike
  rw [ends_bind]
  apply Ends.mono h
  · rintro a s' ⟨b, t', hrun, hb⟩
    rw [EStateM.run_bind, hrun]
    exact hf a s' b t' hb
  · rintro e s' ⟨t', hrun, ht⟩
    rw [EStateM.run_bind, hrun]
    exact ⟨t', rfl, ht⟩

/-- A part of the state alone is at work, and it is the state of the other computation. -/
theorem alike_focus {part : σ → τ} {put : τ → σ → σ} {R : β → σ → β → τ → Prop} (x : EStateM ε τ β) (hpart : part s = t)
    (hR : ∀ b t, R b (put t s) b t) (hS : ∀ t, S (put t s) t) : Alike R S (focus part put x) s x t := by
  subst hpart
  rw [Alike, ends_focus, ends_iff]
  exact ⟨fun b t hrun => ⟨b, t, hrun, hR b t⟩, fun e t hrun => ⟨t, hrun, hS t⟩⟩

/-- Loops whose turns end alike do, where only the second hands a value on. -/
theorem alike_forM_foldlM {l : List γ} {f : γ → EStateM ε σ PUnit} {g : β → γ → EStateM ε τ β} {R : β → σ → τ → Prop}
    (h : ∀ c ∈ l, ∀ b s t, R b s t → Alike (fun _ s b t => R b s t) S (f c) s (g b c) t) :
    ∀ b s t, R b s t → Alike (fun _ s b t => R b s t) S (l.forM f) s (l.foldlM g b) t := by
  induction l with
  | nil => exact fun b s t hR => alike_pure hR
  | cons c l ih =>
    intro b s t hR
    rw [List.foldlM_cons]
    apply (h c (.head _) b s t hR).bind
    intro _ s b t hR
    exact ih (fun d hd => h d (.tail _ hd)) b s t hR

end Effect
