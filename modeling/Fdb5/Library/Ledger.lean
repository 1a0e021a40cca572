import Mathlib.Algebra.GroupWithZero.Nat
import Mathlib.Data.List.Basic
import Mathlib.Data.List.Nodup

/-! Accounts kept by key in a list, each opened when it is first entered. -/
namespace Ledger

variable {κ α : Type} [DecidableEq κ]

/-- The account of a key changed, after it is opened if there is none. -/
def update (zero : α) (f : α → α) (k : κ) : List (κ × α) → List (κ × α)
  | [] => [(k, f zero)]
  | (k', a) :: l => if k' = k then (k', f a) :: l else (k', a) :: update zero f k l

/-- What is in the account of a key. -/
def get (zero : α) (k : κ) : List (κ × α) → α
  | [] => zero
  | (k', a) :: l => if k' = k then a else get zero k l

/-- The sum of a measure over the accounts. -/
def total (m : α → Nat) (l : List (κ × α)) : Nat := (l.map fun p => m p.2).sum

variable {zero : α} {f : α → α} {k k' : κ} {l : List (κ × α)} {m : α → Nat} {d : Nat}

theorem total_update (hzero : m zero = 0) (hf : ∀ a, m (f a) = m a + d) :
    total m (update zero f k l) = total m l + d := by
  induction l with
  | nil => simp [update, total, hf, hzero]
  | cons p l ih =>
    obtain ⟨k', a⟩ := p
    simp only [total] at ih ⊢
    rw [update]
    split
    · simp only [List.map_cons, List.sum_cons, hf]
      omega
    · simp only [List.map_cons, List.sum_cons, ih]
      omega

theorem get_update : get zero k' (update zero f k l) = if k = k' then f (get zero k l) else get zero k' l := by
  induction l with
  | nil => rfl
  | cons p l ih =>
    obtain ⟨j, a⟩ := p
    rw [update]
    by_cases hj : j = k
    · subst hj
      by_cases h : j = k' <;> simp [get, h]
    · by_cases h : k = k'
      · subst h
        simpa [get, hj] using ih
      · simp only [if_neg hj, get, ih, if_neg h]

omit [DecidableEq κ] in
/-- A difference is summed as the difference of the sums. -/
theorem total_sub {n : α → Nat} (h : ∀ p ∈ l, n p.2 ≤ m p.2) : total (fun a => m a - n a) l + total n l = total m l := by
  induction l with
  | nil => rfl
  | cons p l ih =>
    obtain ⟨hp, hl⟩ := List.forall_mem_cons.mp h
    have hrest := ih hl
    simp only [total, List.map_cons, List.sum_cons] at hrest ⊢
    omega

/-- Two changes of one account are one. -/
theorem update_update {g : α → α} : update zero g k (update zero f k l) = update zero (g ∘ f) k l := by
  induction l with
  | nil => simp [update]
  | cons p l ih =>
    obtain ⟨k', a⟩ := p
    by_cases h : k' = k <;> simp [update, h, ih]

/-- What holds of each account holds after a change that keeps it. -/
theorem forall_update {P : α → Prop} (hzero : P (f zero)) (hf : ∀ a, P a → P (f a)) (h : ∀ p ∈ l, P p.2) :
    ∀ p ∈ update zero f k l, P p.2 := by
  induction l with
  | nil =>
    intro p hp
    rw [update, List.mem_singleton] at hp
    rw [hp]
    exact hzero
  | cons q l ih =>
    obtain ⟨k', a⟩ := q
    obtain ⟨ha, hl⟩ := List.forall_mem_cons.mp h
    rw [update]
    split
    · exact List.forall_mem_cons.mpr ⟨hf a ha, hl⟩
    · exact List.forall_mem_cons.mpr ⟨ha, ih hl⟩

theorem keys_update : (update zero f k l).map Prod.fst =
    if k ∈ l.map Prod.fst then l.map Prod.fst else l.map Prod.fst ++ [k] := by
  induction l with
  | nil => simp [update]
  | cons p l ih =>
    obtain ⟨k', a⟩ := p
    rw [update]
    by_cases h : k' = k
    · simp [h]
    · have hk : ¬ k = k' := fun he => h he.symm
      simp only [if_neg h, List.map_cons, ih, List.mem_cons, hk, false_or]
      split <;> rfl

/-- No key has two accounts. -/
theorem nodup_update (h : (l.map Prod.fst).Nodup) : ((update zero f k l).map Prod.fst).Nodup := by
  rw [keys_update]
  split
  · exact h
  next hk =>
    rw [List.nodup_append]
    refine ⟨h, by simp, fun a ha b hb => ?_⟩
    rw [List.mem_singleton.mp hb]
    exact fun he => hk (he ▸ ha)

end Ledger
