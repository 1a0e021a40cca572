import Mathlib.Data.List.Forall2
import Fdb5.Fingerprint
import Fdb5.Rules.FirstPath

/-! The read side's use of a schema: which rule it finds for the keys, and what a predicate fills in. -/
namespace Fdb5

open Effect Search

section Rules

variable {s : Schema} {field k k' k0 k1 : Key} {d i r : Rule}

/-- Whether a rule accepts a key depends on its values only. -/
theorem Rule.accepts_congr (h : k.keys = k'.keys) (r : Rule) : r.accepts k = r.accepts k' := by
  have : ∀ p : Predicate, p.accepts k = p.accepts k' := by
    intro p
    cases hm : p.matcher <;> simp [Predicate.accepts, Matcher.accepts, Key.find, hm, h]
  simp only [Rule.accepts, this]

theorem Schema.databaseRule_congr (h : k.keys = k'.keys) (s : Schema) :
    s.databaseRule k = s.databaseRule k' := by
  simp only [Schema.databaseRule, Rule.accepts_congr h]

/-- What a search finds lies below the rule that the database key leads back to. -/
theorem Schema.search_databaseRule {a : Filed} (h : s.search field = .ok (some (⟨r, [i, d]⟩, a)))
    (hk : k0.keys = a.database) : s.databaseRule k0 = some d ∧
      ∃ k2, r.assign field = .ok (some k2) ∧ a.datum = k2 := by
  obtain ⟨_, f, _, _, _, hf⟩ := findSomeM?_mem h
  rw [searchDatabase] at hf
  rcases ha : f.assign field with e | _ | kf
  · simp [ha, bind, Except.bind] at hf
  · rw [ha] at hf
    cases hf
  cases hd : s.databaseRule kf with
  | none =>
    simp only [ha, hd, bind, Except.bind] at hf
    cases hf
  | some d' =>
    simp only [ha, hd, bind, Except.bind] at hf
    obtain ⟨_, j, _, _, _, hj⟩ := findSomeM?_mem hf
    rw [Rule.searchIndex] at hj
    rcases ha1 : j.assign field with e | _ | kj
    · simp [ha1, bind, Except.bind] at hj
    · rw [ha1] at hj
      cases hj
    simp only [ha1, bind, Except.bind] at hj
    obtain ⟨_, c, _, _, _, hc⟩ := findSomeM?_mem hj
    rw [Rule.searchDatum] at hc
    rcases ha2 : c.assign field with e | _ | kc
    · simp [ha2, bind, Except.bind] at hc
    · rw [ha2] at hc
      cases hc
    · rw [ha2] at hc
      cases hc
      exact ⟨(databaseRule_congr hk s).trans hd, kc, ha2, rfl⟩

/-- The read side takes the first rule below the first second-level rule that matches. -/
theorem Schema.ruleFor_eq (hthird : ∀ f ∈ s.rules, ∀ i ∈ f.rules, i.rules ≠ [])
    (hd : s.databaseRule k0 = some d) (hi : d.rules.find? (fun j => j.accepts k1) = some i) :
    s.ruleFor k0 k1 = i.rules.head? := by
  have hbelow : ∀ {rs : List Rule}, (∀ j ∈ rs, j.rules ≠ []) →
      rs.find? (fun j => j.accepts k1) = some i →
      rs.findSome? (Rule.ruleFor [k1]) = i.rules.head? := by
    intro rs
    induction rs with
    | nil => intro _ h; cases h
    | cons j rs ih =>
      intro hne h
      rw [List.find?_cons] at h
      rw [List.findSome?_cons]
      cases hj : j.accepts k1 with
      | false =>
        rw [Rule.ruleFor, hj]
        exact ih (fun c hc => hne c (List.mem_cons_of_mem j hc)) (by simpa [hj] using h)
      | true =>
        obtain rfl : j = i := by simpa [hj] using h
        obtain ⟨c, cs, hc⟩ := List.exists_cons_of_ne_nil (hne j List.mem_cons_self)
        simp [Rule.ruleFor, hj, hc]
  have hdi := hbelow (hthird d (databaseRule_mem hd)) hi
  obtain ⟨c, hc⟩ := Option.isSome_iff_exists.mp (List.isSome_head?.mpr
    (hthird d (databaseRule_mem hd) i (List.mem_of_find?_eq_some hi)))
  rw [ruleFor, hc]
  rw [databaseRule] at hd
  generalize s.rules = fs at hd
  induction fs with
  | nil => cases hd
  | cons f fs ih =>
    rw [List.find?_cons] at hd
    rw [List.findSome?_cons]
    cases hf : f.accepts k0 with
    | false =>
      rw [Rule.ruleFor, hf]
      exact ih (by simpa [hf] using hd)
    | true =>
      obtain rfl : f = d := by simpa [hf] using hd
      rw [Rule.ruleFor, hf, if_pos rfl, hdi, hc]

end Rules

section Rebuild

variable {k : Key}

/-- A predicate that leaves out an empty value. -/
def Predicate.optional (p : Predicate) : Prop := ∃ d, p.matcher = .optional d

theorem Predicate.fill_eq {p : Predicate} {value : String} (h : ¬ (value = "" ∧ p.optional)) :
    p.fill k value = k.push p.keyword value := by
  rw [Predicate.fill, Matcher.fill.eq_def]
  split
  · rename_i d hm
    rw [if_neg fun hv => h ⟨hv, d, hm⟩]
  · rfl

theorem Predicate.fill_other {p : Predicate} {value keyword : String} (h : p.keyword ≠ keyword) :
    (p.fill k value).find keyword = k.find keyword := by
  have hpush : (k.push p.keyword value).find keyword = k.find keyword := by
    simp [Key.find, Std.ExtTreeMap.getElem?_insert, h]
  rw [Predicate.fill, Matcher.fill.eq_def]
  split
  · split
    · rfl
    · exact hpush
  · exact hpush

end Rebuild

end Fdb5
