import Mathlib.Data.List.Basic

/-! Lists in which the first element of a key wins. -/
namespace FirstWins

variable {α κ : Type} [DecidableEq κ] {key : α → κ} {seen : List κ} {l : List α} {a b : α} {k : κ}

/-- The first element of each key that was not seen before. -/
def firsts (key : α → κ) : List κ → List α → List α
  | _, [] => []
  | seen, a :: l => if key a ∈ seen then firsts key seen l else a :: firsts key (key a :: seen) l

theorem firsts_filter : (firsts key seen l).filter (fun a => key a = k) =
    if k ∈ seen then [] else (l.find? fun a => key a = k).toList := by
  induction l generalizing seen with
  | nil => simp [firsts]
  | cons a l ih =>
    rw [firsts, List.find?_cons]
    by_cases hk : key a = k
    · subst hk
      by_cases hs : key a ∈ seen <;> simp [hs, ih]
    · by_cases hs : key a ∈ seen
      · simp [hs, hk, ih]
      · simp [hs, hk, ih, Ne.symm hk]

theorem firsts_sublist : (firsts key seen l).Sublist l := by
  induction l generalizing seen with
  | nil => exact .slnil
  | cons a l ih =>
    rw [firsts]
    split
    · exact ih.cons a
    · exact ih.cons_cons a

theorem mem_of_firsts (h : a ∈ firsts key seen l) : a ∈ l := firsts_sublist.subset h

theorem mem_map_firsts : k ∈ (firsts key seen l).map key ↔ k ∉ seen ∧ k ∈ l.map key := by
  induction l generalizing seen with
  | nil => simp [firsts]
  | cons a l ih =>
    rw [firsts, List.map_cons, List.mem_cons]
    by_cases ha : key a ∈ seen
    · rw [if_pos ha, ih]
      have hne : k ∉ seen → k ≠ key a := fun hk he => hk (he ▸ ha)
      tauto
    · rw [if_neg ha, List.map_cons, List.mem_cons, ih, List.mem_cons]
      have hne : k = key a → k ∉ seen := fun he => he ▸ ha
      tauto

theorem nodup_map_firsts : ((firsts key seen l).map key).Nodup := by
  induction l generalizing seen with
  | nil => simp [firsts]
  | cons a l ih =>
    rw [firsts]
    split
    · exact ih
    · rw [List.map_cons, List.nodup_cons, mem_map_firsts]
      exact ⟨fun h => h.1 List.mem_cons_self, ih⟩

/-- One more element is left if its key is new. -/
theorem firsts_concat : firsts key seen (l ++ [a]) =
    firsts key seen l ++ if key a ∈ seen ∨ key a ∈ l.map key then [] else [a] := by
  induction l generalizing seen with
  | nil => by_cases h : key a ∈ seen <;> simp [firsts, h]
  | cons b l ih =>
    rw [List.cons_append, firsts, firsts]
    by_cases hb : key b ∈ seen
    · have hsame : (key a ∈ seen ∨ key a ∈ (b :: l).map key) ↔ key a ∈ seen ∨ key a ∈ l.map key := by
        rw [List.map_cons, List.mem_cons]
        exact ⟨fun h => h.elim .inl fun h => h.elim (fun he => .inl (he ▸ hb)) .inr, fun h => h.imp id .inr⟩
      simp only [if_pos hb, ih, hsame]
    · have hsame : (key a ∈ key b :: seen ∨ key a ∈ l.map key) ↔ key a ∈ seen ∨ key a ∈ (b :: l).map key := by
        rw [List.map_cons, List.mem_cons, List.mem_cons]
        tauto
      simp only [if_neg hb, ih, hsame, List.cons_append]

/-- No two elements are left with one key. -/
theorem firsts_unique (ha : a ∈ firsts key seen l) (hb : b ∈ firsts key seen l) (h : key a = key b) : a = b := by
  have hfilter : (firsts key seen l).filter (fun c => key c = key a) = _ := firsts_filter
  have hma : a ∈ (firsts key seen l).filter (fun c => key c = key a) := by simp [ha]
  have hmb : b ∈ (firsts key seen l).filter (fun c => key c = key a) := by simp [hb, h]
  rw [hfilter] at hma hmb
  split at hma
  · cases hma
  · rename_i hs
    simp only [hs, if_false, Option.mem_toList] at hma hmb
    exact Option.some.inj (hma.symm.trans hmb)

/-- A search finds the only element that is looked for. -/
theorem find?_unique {p : α → Bool} (hm : a ∈ l) (hp : p a = true) (hu : ∀ b ∈ l, p b = true → b = a) :
    l.find? p = some a := by
  cases h : l.find? p with
  | none => simp [List.find?_eq_none.mp h a hm] at hp
  | some b => rw [hu b (List.mem_of_find?_eq_some h) (List.find?_some h)]

end FirstWins
