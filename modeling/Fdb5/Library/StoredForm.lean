import Fdb5.Library.LastWins

/-! Maps that keep their keys in a form of their own, and give them out again. -/
namespace StoredForm

open LastWins

variable {α κ β : Type}

/-- How a map keeps a key, to which it comes when it is gone through, and how it gives them out. -/
structure Form (α κ : Type) where
  store : α → κ
  visits : κ → Bool
  name : κ → α

/-- Each key that was set is given out once, with the value last set for it, and nothing else is. -/
structure Exact [DecidableEq α] (sets visited : List (α × β)) : Prop where
  once : (visited.map Prod.fst).Nodup
  entry : ∀ key value, (key, value) ∈ visited ↔ sets.findRev? (fun e => e.1 = key) = some (key, value)

variable [Ord κ] [Std.TransOrd κ] [Std.LawfulEqOrd κ]

/-- What is given out of a map. -/
def Form.visit (F : Form α κ) (m : Std.ExtTreeMap κ β) : List (α × β) :=
  (m.toList.filter fun e => F.visits e.1).map fun e => (F.name e.1, e.2)

variable {F : Form α κ} {sets : List (α × β)} {m : Std.ExtTreeMap κ β}

theorem mem_visit {key : α} {value : β} :
    (key, value) ∈ F.visit m ↔ ∃ x, m[x]? = some value ∧ F.visits x = true ∧ F.name x = key := by
  rw [Form.visit, List.mem_map]
  constructor
  · rintro ⟨⟨x, v⟩, hmem, he⟩
    obtain ⟨rfl, rfl⟩ := Prod.ext_iff.mp he
    obtain ⟨hx, hv⟩ := List.mem_filter.mp hmem
    exact ⟨x, Std.ExtTreeMap.mem_toList_iff_getElem?_eq_some.mp hx, hv, rfl⟩
  · rintro ⟨x, hx, hv, rfl⟩
    exact ⟨(x, value), List.mem_filter.mpr ⟨Std.ExtTreeMap.mem_toList_iff_getElem?_eq_some.mpr hx, hv⟩, rfl⟩

variable [DecidableEq α] [DecidableEq κ]

theorem findRev?_key {key : α} {value : β} (h : (key, value) ∈ sets) :
    ∃ v, sets.findRev? (fun e => e.1 = key) = some (key, v) := by
  obtain ⟨⟨k, v⟩, hfind⟩ : ∃ e, sets.findRev? (fun e => e.1 = key) = some e :=
    findRev?_of_mem h (decide_eq_true (rfl : key = key))
  obtain ⟨-, hk⟩ := findRev?_mem hfind
  obtain rfl : k = key := of_decide_eq_true hk
  exact ⟨v, hfind⟩

/-- A map gives its keys out exactly if it comes to each and keeps it unchanged. -/
theorem visit_exact_iff (hname : ∀ e ∈ sets, F.name (F.store (F.name (F.store e.1))) = F.name (F.store e.1)) :
    Exact sets (F.visit (mapOf (fun e => F.store e.1) Prod.snd sets)) ↔
      ∀ e ∈ sets, F.visits (F.store e.1) = true ∧ F.name (F.store e.1) = e.1 := by
  have hget : ∀ x value, (mapOf (fun e : α × β => F.store e.1) Prod.snd sets)[x]? = some value ↔
      ∃ key, sets.findRev? (fun e => F.store e.1 = x) = some (key, value) := by
    intro x value
    rw [mapOf_getElem?, Option.map_eq_some_iff]
    exact ⟨fun ⟨e, he, hv⟩ => ⟨e.1, hv ▸ he⟩, fun ⟨key, h⟩ => ⟨_, h, rfl⟩⟩
  have hstored : ∀ x value, (mapOf (fun e : α × β => F.store e.1) Prod.snd sets)[x]? = some value →
      ∃ e ∈ sets, F.store e.1 = x := by
    intro x value hx
    obtain ⟨key, hfind⟩ := (hget x value).mp hx
    obtain ⟨hmem, hk⟩ := findRev?_mem hfind
    exact ⟨_, hmem, of_decide_eq_true hk⟩
  constructor
  · intro h
    have hgiven : ∀ e ∈ sets, ∃ x value, (mapOf (fun e : α × β => F.store e.1) Prod.snd sets)[x]? = some value ∧
        F.visits x = true ∧ F.name x = e.1 := by
      rintro ⟨key, value⟩ he
      obtain ⟨v, hv⟩ := findRev?_key he
      obtain ⟨x, hx⟩ := mem_visit.mp ((h.entry key v).mpr hv)
      exact ⟨x, v, hx⟩
    have hkept : ∀ e ∈ sets, F.name (F.store e.1) = e.1 := by
      intro e he
      obtain ⟨x, value, hx, -, hk⟩ := hgiven e he
      obtain ⟨e', he', rfl⟩ := hstored x value hx
      rw [← hk, hname e' he']
    intro e he
    obtain ⟨x, value, hx, hv, hk⟩ := hgiven e he
    obtain ⟨e', he', rfl⟩ := hstored x value hx
    have hsame : e'.1 = e.1 := (hkept e' he').symm.trans hk
    exact ⟨hsame ▸ hv, hkept e he⟩
  · intro h
    have hfind : ∀ key value, (key, value) ∈ sets →
        sets.findRev? (fun e => F.store e.1 = F.store key) = sets.findRev? fun e => e.1 = key := by
      intro key value hmem
      apply findRev?_congr
      intro e he
      rw [decide_eq_decide]
      refine ⟨fun hstore => ?_, fun hk => by rw [hk]⟩
      rw [← (h e he).2, hstore, (h _ hmem).2]
    refine ⟨?_, fun key value => ?_⟩
    · have hkeys : ((mapOf (fun e : α × β => F.store e.1) Prod.snd sets).toList.map Prod.fst).Nodup := by
        rw [Std.ExtTreeMap.map_fst_toList_eq_keys]
        exact Std.ExtTreeMap.nodup_keys
      rw [Form.visit, List.map_map]
      rw [List.Nodup, List.pairwise_map] at hkeys ⊢
      refine (List.Pairwise.filter _ hkeys).imp_of_mem ?_
      rintro ⟨x, v⟩ ⟨y, w⟩ hx hy hne heq
      obtain ⟨e, he, rfl⟩ := hstored x v (Std.ExtTreeMap.mem_toList_iff_getElem?_eq_some.mp (List.mem_filter.mp hx).1)
      obtain ⟨e', he', rfl⟩ := hstored y w (Std.ExtTreeMap.mem_toList_iff_getElem?_eq_some.mp (List.mem_filter.mp hy).1)
      have hnames : F.name (F.store e.1) = F.name (F.store e'.1) := heq
      rw [(h e he).2, (h e' he').2] at hnames
      exact hne (by rw [hnames])
    · rw [mem_visit]
      constructor
      · rintro ⟨x, hx, -, rfl⟩
        obtain ⟨⟨key, v⟩, he, rfl⟩ := hstored x value hx
        obtain ⟨k, hk⟩ := (hget _ value).mp hx
        have hkept : F.name (F.store key) = key := (h _ he).2
        rw [hfind key v he] at hk
        rw [hkept, hk]
        obtain ⟨-, hkey⟩ := findRev?_mem hk
        obtain rfl : k = key := of_decide_eq_true hkey
        rfl
      · intro hlast
        obtain ⟨hmem, -⟩ := findRev?_mem hlast
        obtain ⟨hv, hkept⟩ := h _ hmem
        refine ⟨F.store key, (hget _ value).mpr ⟨key, ?_⟩, hv, hkept⟩
        rw [hfind key value hmem, hlast]

end StoredForm
