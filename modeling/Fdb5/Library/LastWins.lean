import Mathlib.Data.List.Induction
import Std.Data.ExtTreeMap

/-! Maps in which the last entry of a key wins. -/
namespace LastWins

variable {α κ β : Type}

section List

variable {p : α → Bool} {l l₁ l₂ : List α} {a : α}

theorem findRev?_append : (l₁ ++ l₂).findRev? p = (l₂.findRev? p).or (l₁.findRev? p) := by
  simp

theorem findRev?_concat : (l ++ [a]).findRev? p = if p a then some a else l.findRev? p := by
  rw [findRev?_append]
  cases h : p a <;> simp [h]

theorem findRev?_mem (h : l.findRev? p = some a) : a ∈ l ∧ p a := by
  rw [List.findRev?_eq_find?_reverse] at h
  exact ⟨by simpa using List.mem_of_find?_eq_some h, List.find?_some h⟩

theorem findRev?_of_mem (h : a ∈ l) (ha : p a = true) : ∃ b, l.findRev? p = some b := by
  cases hfind : l.findRev? p with
  | some b => exact ⟨b, rfl⟩
  | none =>
    rw [List.findRev?_eq_find?_reverse, List.find?_eq_none] at hfind
    exact absurd ha (hfind a (List.mem_reverse.mpr h))

theorem findRev?_congr {q : α → Bool} (h : ∀ a ∈ l, p a = q a) : l.findRev? p = l.findRev? q := by
  induction l using List.reverseRecOn with
  | nil => rfl
  | append_singleton l a ih =>
    rw [findRev?_concat, findRev?_concat, h a (by simp), ih fun b hb => h b (List.mem_append_left _ hb)]

/-- Lists that go together element by element have the same last match. -/
theorem findRev?_forall₂ {γ : Type} {R : α → β → Prop} {l' : List β} {q : β → Bool} {f : α → γ} {g : β → γ}
    (h : List.Forall₂ R l l') (hp : ∀ a b, R a b → p a = q b) (hf : ∀ a b, R a b → f a = g b) :
    (l.findRev? p).map f = (l'.findRev? q).map g := by
  induction h with
  | nil => rfl
  | @cons a b l l' hab _ ih =>
    simp only [List.findRev?_eq_find?_reverse, List.reverse_cons, List.find?_append, Option.map_or] at ih ⊢
    rw [ih]
    congr 1
    cases hq : q b <;> simp [hp a b hab, hf a b hab, hq]

/-- Leaving out what does not match changes nothing. -/
theorem findRev?_filter_map {f : α → β} {q : β → Bool} (h : ∀ a ∈ l, q (f a) → p a) :
    ((l.filter p).map f).findRev? q = (l.map f).findRev? q := by
  induction l using List.reverseRecOn with
  | nil => rfl
  | append_singleton l a ih =>
    have hl := ih fun b hb => h b (List.mem_append_left _ hb)
    rw [List.filter_append, List.map_append, List.map_append, findRev?_append, findRev?_append, hl]
    cases hp : p a with
    | true => simp [hp]
    | false =>
      have hq : q (f a) = false := by
        by_contra hq
        have := h a (by simp) (by simpa using hq)
        simp [hp] at this
      simp [hp, hq]

end List

/-- A map is made again from what it holds. -/
theorem ofList_toList [Ord κ] [Std.TransOrd κ] [Std.LawfulEqOrd κ] (m : Std.ExtTreeMap κ β) :
    Std.ExtTreeMap.ofList m.toList = m := by
  classical
  refine Std.ExtTreeMap.ext_getElem? fun k => ?_
  cases h : m[k]? with
  | some v =>
    exact Std.ExtTreeMap.getElem?_ofList_of_mem (by simp) Std.ExtTreeMap.distinct_keys_toList
      (Std.ExtTreeMap.mem_toList_iff_getElem?_eq_some.mpr h)
  | none =>
    refine Std.ExtTreeMap.getElem?_ofList_of_contains_eq_false (Bool.eq_false_iff.mpr fun hc => ?_)
    have hm : k ∈ m := by simpa using hc
    rw [← Std.ExtTreeMap.isSome_getElem?_iff_mem, h] at hm
    cases hm

section Map

variable [Ord κ] [Std.TransOrd κ] {key : α → κ} {value value' : α → β}

/-- The map that a sequence of insertions makes. -/
def mapOf (key : α → κ) (value : α → β) (l : List α) : Std.ExtTreeMap κ β :=
  l.foldl (fun m a => m.insert (key a) (value a)) ∅

@[simp] theorem mapOf_nil : mapOf key value [] = ∅ := rfl

theorem mapOf_concat (l : List α) (a : α) :
    mapOf key value (l ++ [a]) = (mapOf key value l).insert (key a) (value a) := by
  simp [mapOf]

theorem mapOf_congr {l : List α} (h : ∀ a ∈ l, value a = value' a) :
    mapOf key value l = mapOf key value' l := by
  induction l using List.reverseRecOn with
  | nil => rfl
  | append_singleton l a ih =>
    rw [mapOf_concat, mapOf_concat, h a (by simp), ih fun b hb => h b (by simp [hb])]

/-- Looking a key up finds what was inserted under it last. -/
theorem mapOf_getElem? [Std.LawfulEqOrd κ] [DecidableEq κ] (l : List α) (k : κ) :
    (mapOf key value l)[k]? = (l.findRev? fun a => key a = k).map value := by
  induction l using List.reverseRecOn with
  | nil => simp
  | append_singleton l a ih =>
    rw [mapOf_concat, Std.ExtTreeMap.getElem?_insert, findRev?_concat, ih]
    by_cases h : key a = k <;> simp [h]

end Map

section Entries

variable [DecidableEq κ] {log : List (κ × β)} {e : κ × β} {k : κ} {b : β} {q : κ → Bool}

/-- The entries of a map written as a list, after one more insertion. -/
def put (l : List (κ × β)) (e : κ × β) : List (κ × β) := l.filter (fun f => f.1 ≠ e.1) ++ [e]

/-- The entries after all insertions of a log. -/
def entries (log : List (κ × β)) : List (κ × β) := log.foldl put []

theorem entries_concat : entries (log ++ [e]) = put (entries log) e := by simp [entries]

/-- An entry is the last insertion of its key. -/
theorem mem_entries : (k, b) ∈ entries log ↔ log.findRev? (fun f => f.1 = k) = some (k, b) := by
  induction log using List.reverseRecOn with
  | nil => simp [entries]
  | append_singleton log e ih =>
    rw [entries_concat, findRev?_concat, put, List.mem_append, List.mem_filter, ih]
    by_cases h : e.1 = k
    · subst h
      simp [Prod.ext_iff, eq_comm]
    · have hne : (k, b) ≠ e := fun he => h (by rw [← he])
      simp [h, hne, Ne.symm h]

theorem nodup_entries : ((entries log).map Prod.fst).Nodup := by
  induction log using List.reverseRecOn with
  | nil => simp [entries]
  | append_singleton log e ih =>
    rw [entries_concat, put, List.map_append, List.nodup_append]
    refine ⟨ih.sublist ((List.filter_sublist).map _), by simp, ?_⟩
    rintro k hk k' hk' rfl
    obtain ⟨f, hf, rfl⟩ := List.mem_map.mp hk
    have hne := (List.mem_filter.mp hf).2
    simp_all

/-- Only what is inserted under the keys of interest counts. -/
theorem findRev?_filter_key : (log.filter fun f => q f.1).findRev? (fun f => f.1 = k) =
    if q k then log.findRev? (fun f => f.1 = k) else none := by
  induction log using List.reverseRecOn with
  | nil => simp
  | append_singleton log e ih =>
    rw [List.filter_append, findRev?_append, ih, findRev?_concat]
    by_cases h : e.1 = k
    · subst h
      cases hq : q e.1 <;> simp [hq]
    · cases hq : q e.1 <;> simp [hq, h]

end Entries

end LastWins
