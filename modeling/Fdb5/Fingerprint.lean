import Fdb5.Key

/-! Fingerprints: canonical values joined by colons, and what can be read back from them. -/
namespace Fdb5

/-- The values that a join by colons keeps apart. -/
def Plain (values : List String) : Prop := ∀ v ∈ values, ':' ∉ v.toList

instance (values : List String) : Decidable (Plain values) :=
  inferInstanceAs (Decidable (∀ v ∈ values, ':' ∉ v.toList))

/-- Splitting undoes joining: one value a token. -/
theorem tokenize_intercalate {values : List String} (hv : values ≠ []) (hp : Plain values) :
    tokenize (":".intercalate values) = values := by
  have hsep : (":" : String).toList = [':'] := rfl
  rw [tokenize, String.toList_intercalate, hsep,
    List.splitOn_intercalate ':' (by simpa [Plain] using hp) (by simpa using hv), List.map_map]
  simp [Function.comp_def]

theorem intercalate_injective {values values' : List String} (hv : values ≠ [])
    (hv' : values' ≠ []) (hp : Plain values) (hp' : Plain values')
    (h : ":".intercalate values = ":".intercalate values') : values = values' := by
  rw [← tokenize_intercalate hv hp, h, tokenize_intercalate hv' hp']

namespace Key

variable {k : Key} {fingerprint : String}

/-- A fingerprint is taken of a key that has as many names as values. -/
theorem valuesToString_ok (h : k.valuesToString = .ok fingerprint) :
    ∃ values, k.canonicalValues = .ok values ∧ fingerprint = ":".intercalate values ∧
      k.names.length = k.keys.size := by
  rw [valuesToString] at h
  by_cases hl : k.names.length = k.keys.size
  · cases hv : k.canonicalValues with
    | error e => simp [assert, hl, hv, bind, Except.bind] at h
    | ok values =>
      simp only [assert, hl, if_true, hv, bind, Except.bind, pure, Except.pure, Except.ok.injEq] at h
      exact ⟨values, rfl, h.symm, hl⟩
  · simp [assert, hl, bind, Except.bind] at h

theorem mapM_ok {α β ε : Type} {f : α → Except ε β} {l : List α} {r : List β}
    (h : l.mapM f = .ok r) : List.Forall₂ (fun a b => f a = .ok b) l r := by
  induction l generalizing r with
  | nil => cases h; exact .nil
  | cons a l ih =>
    rw [List.mapM_cons] at h
    cases ha : f a with
    | error e => simp [ha, bind, Except.bind] at h
    | ok b =>
      cases hl : l.mapM f with
      | error e => simp [ha, hl, bind, Except.bind] at h
      | ok bs =>
        simp only [ha, hl, bind, Except.bind, pure, Except.pure, Except.ok.injEq] at h
        exact h ▸ .cons ha (ih hl)

end Key

end Fdb5
