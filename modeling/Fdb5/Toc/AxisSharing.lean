import Mathlib.Data.List.Induction
import Fdb5.Toc.AxisRegistry

/-! Axes of `IndexAxis` objects as the registry shares them: what an operation on one leaves of the others. -/
namespace Fdb5

open Effect

namespace AxisHeap

variable {w w' : AxisHeap} {o o' p p' : Nat} {keyword keyword' : String} {a : AxisObject} {e : AxisEntry}
  {readOnly : Bool}

/-- `Holds`, with the object's flag. -/
def HoldsAs (w : AxisHeap) (readOnly : Bool) (o : Nat) (keyword : String) (p : Nat) : Prop :=
  ∃ a, w.objects[o]? = some a ∧ a.readOnly = readOnly ∧ a.axis[keyword]? = some p

theorem HoldsAs.holds (h : w.HoldsAs readOnly o keyword p) : w.Holds o keyword p :=
  let ⟨a, ha, _, hp⟩ := h
  ⟨a, ha, hp⟩

theorem Holds.cases (h : w.Holds o keyword p) : w.HoldsAs false o keyword p ∨ w.HoldsAs true o keyword p := by
  obtain ⟨a, ha, hp⟩ := h
  cases hr : a.readOnly with
  | false => exact .inl ⟨a, ha, hr, hp⟩
  | true => exact .inr ⟨a, ha, hr, hp⟩

/-- A set is of one axis that may be changed, or it is registered and of axes that are only read. -/
structure Interned (w : AxisHeap) : Prop where
  bound : ∀ {o keyword p}, w.Holds o keyword p → p < w.next
  unique : ∀ {o keyword p o' keyword'}, w.HoldsAs false o keyword p → w.Holds o' keyword' p →
    o' = o ∧ keyword' = keyword
  unregistered : ∀ {o keyword p e}, w.HoldsAs false o keyword p → e ∈ w.registry → e.ptr ≠ p
  registered : ∀ {o keyword p}, w.HoldsAs true o keyword p → ∃ e ∈ w.registry, e.ptr = p ∧ e.keyword = keyword
  nodup : (w.registry.map (·.ptr)).Nodup
  current : ∀ {e}, e ∈ w.registry → w.sets e.ptr = e.hashed
  distinct : ∀ {e e'}, e ∈ w.registry → e' ∈ w.registry → e.keyword = e'.keyword → e.hashed = e'.hashed → e = e'
  used : ∀ {e}, e ∈ w.registry → ∃ o, w.Holds o e.keyword e.ptr

theorem Interned.entry_bound (h : w.Interned) (he : e ∈ w.registry) : e.ptr < w.next := by
  obtain ⟨o, ho⟩ := h.used he
  exact h.bound ho

/-- An entry is found by its pointer. -/
theorem Interned.entry_unique (h : w.Interned) {e' : AxisEntry} (he : e ∈ w.registry) (he' : e' ∈ w.registry)
    (hp : e.ptr = e'.ptr) : e = e' :=
  List.inj_on_of_nodup_map h.nodup he he' hp

theorem interned_empty : ({} : AxisHeap).Interned := by
  have hno : ∀ {readOnly o keyword p}, ¬ ({} : AxisHeap).HoldsAs readOnly o keyword p := by
    rintro readOnly o keyword p ⟨a, ha, -⟩
    simp at ha
  have hno' : ∀ {o keyword p}, ¬ ({} : AxisHeap).Holds o keyword p := by
    rintro o keyword p ⟨a, ha, -⟩
    simp at ha
  constructor
  · intro o keyword p h
    exact absurd h hno'
  · intro o keyword p o' keyword' h
    exact absurd h hno
  · intro o keyword p e h
    exact absurd h hno
  · intro o keyword p h
    exact absurd h hno
  · exact List.nodup_nil
  · intro e he
    exact absurd he List.not_mem_nil
  · intro e e' he
    exact absurd he List.not_mem_nil
  · intro e he
    exact absurd he List.not_mem_nil

section Count

theorem mem_refs : (o, keyword, p) ∈ w.refs ↔ w.Holds o keyword p := by
  simp only [refs, List.mem_flatMap, List.mem_map, Prod.mk.injEq, Prod.exists,
    Std.ExtTreeMap.mem_toList_iff_getElem?_eq_some, Holds]
  constructor
  · rintro ⟨o', a, ha, k, q, hk, rfl, rfl, rfl⟩
    exact ⟨a, ha, hk⟩
  · rintro ⟨a, ha, hp⟩
    exact ⟨o, a, ha, keyword, p, hp, rfl, rfl, rfl⟩

theorem nodup_toList {α β : Type} [Ord α] [Std.TransOrd α] [Std.LawfulEqOrd α] (m : Std.ExtTreeMap α β) :
    (m.toList.map (·.1)).Nodup := by
  have h := m.distinct_keys_toList
  rw [List.Nodup, List.pairwise_map]
  refine h.imp fun hne heq => hne ?_
  rw [heq]
  exact Std.ReflCmp.compare_self

theorem nodup_refs (w : AxisHeap) : w.refs.Nodup := by
  rw [refs, List.nodup_flatMap]
  constructor
  · rintro ⟨o, a⟩ -
    refine (nodup_toList a.axis).of_map _ |>.map ?_
    intro x y hxy
    exact (Prod.mk.inj hxy).2
  · have h := nodup_toList w.objects
    rw [List.Nodup, List.pairwise_map] at h
    refine h.imp fun {x y} hne => ?_
    apply List.disjoint_left.mpr
    rintro r hx hy
    obtain ⟨_, _, rfl⟩ := List.mem_map.mp hx
    obtain ⟨_, _, hr⟩ := List.mem_map.mp hy
    exact hne (Prod.mk.inj hr).1.symm

theorem countP_eq_one {α : Type} {P : α → Bool} {l : List α} (hl : l.Nodup) {x : α} (hx : x ∈ l) (hP : P x = true) :
    l.countP P = 1 ↔ ∀ y ∈ l, P y = true → y = x := by
  classical
  constructor
  · intro h y hy hPy
    rw [List.countP_eq_length_filter, List.length_eq_one_iff] at h
    obtain ⟨z, hz⟩ := h
    have hxz : x ∈ l.filter P := List.mem_filter.mpr ⟨hx, hP⟩
    have hyz : y ∈ l.filter P := List.mem_filter.mpr ⟨hy, hPy⟩
    rw [hz, List.mem_singleton] at hxz hyz
    rw [hxz, hyz]
  · intro h
    have hle : l.countP P ≤ l.countP (· == x) := List.countP_mono_left fun y hy hPy => by simp [h y hy hPy]
    have hone : l.countP (· == x) = 1 := List.count_eq_one_of_mem hl hx
    have hpos := List.countP_pos_iff.mpr ⟨x, hx, hP⟩
    omega

/-- Whether a set is of no other object is what the references to it tell. -/
theorem countP_refs (h : w.Holds o keyword p) : w.refs.countP (fun r => r.2.2 = p) = 1 ↔
    ∀ o' keyword', w.Holds o' keyword' p → o' = o ∧ keyword' = keyword := by
  rw [countP_eq_one (nodup_refs w) (mem_refs.mpr h) (by simp)]
  constructor
  · intro hu o' keyword' h'
    have := hu _ (mem_refs.mpr h') (by simp)
    simpa using this
  · rintro hu ⟨o', keyword', p'⟩ hr hp
    obtain rfl : p' = p := by simpa using hp
    obtain ⟨rfl, rfl⟩ := hu o' keyword' (mem_refs.mp hr)
    rfl

theorem countP_registry (h : (w.registry.map (·.ptr)).Nodup) (he : e ∈ w.registry) :
    w.registry.countP (fun e' => e'.ptr = e.ptr) = 1 := by
  rw [countP_eq_one (h.of_map _) he (by simp)]
  intro e' he' hp
  exact List.inj_on_of_nodup_map h he' he (by simpa using hp)

end Count

section Turn

variable {touched touched' : List Nat} {v : AxisValues}

/-- The sets stay in order, and objects that are not touched stay as they were, with the values of their axes. -/
structure Turn (touched : List Nat) (w w' : AxisHeap) : Prop where
  interned : w'.Interned
  others : ∀ o ∉ touched, w'.objects[o]? = w.objects[o]?
  kept : ∀ o ∉ touched, ∀ keyword p, w.Holds o keyword p → w'.sets p = w.sets p

theorem Turn.refl (h : w.Interned) : Turn touched w w :=
  ⟨h, fun _ _ => rfl, fun _ _ _ _ _ => rfl⟩

theorem Turn.mono (h : Turn touched w w') (hsub : touched ⊆ touched') : Turn touched' w w' :=
  ⟨h.interned, fun o ho => h.others o fun hm => ho (hsub hm), fun o ho => h.kept o fun hm => ho (hsub hm)⟩

theorem Turn.trans {w'' : AxisHeap} (h : Turn touched w w') (h' : Turn touched w' w'') : Turn touched w w'' := by
  constructor
  · exact h'.interned
  · intro o ho
    exact (h'.others o ho).trans (h.others o ho)
  · intro o ho keyword p hp
    have hp' : w'.Holds o keyword p := by
      obtain ⟨a, ha, hp⟩ := hp
      exact ⟨a, (h.others o ho).trans ha, hp⟩
    exact (h'.kept o ho keyword p hp').trans (h.kept o ho keyword p hp)

theorem Turn.values (h : Turn touched w w') (ho : o ∉ touched) (keyword : String) :
    w'.values o keyword = w.values o keyword := by
  unfold AxisHeap.values
  rw [h.others o ho]
  cases hp : w.objects[o]?.bind fun a => a.axis[keyword]? with
  | none => rfl
  | some p =>
    obtain ⟨a, ha, hp⟩ := Option.bind_eq_some_iff.mp hp
    have := h.kept o ho keyword p ⟨a, ha, hp⟩
    simp [this]

/-- An object's axis given a set for a keyword. -/
def link (w : AxisHeap) (o : Nat) (a : AxisObject) (keyword : String) (p : Nat) : AxisHeap :=
  { w with objects := w.objects.insert o { a with axis := a.axis.insert keyword p } }

theorem link_link {q : Nat} : (w.link o a keyword p).link o { a with axis := a.axis.insert keyword p } keyword q =
    w.link o a keyword q := by
  have haxis : (a.axis.insert keyword p).insert keyword q = a.axis.insert keyword q := by
    refine Std.ExtTreeMap.ext_getElem? fun k => ?_
    simp only [Std.ExtTreeMap.getElem?_insert]
    split <;> rfl
  have hobj (b c : AxisObject) : (w.objects.insert o b).insert o c = w.objects.insert o c := by
    refine Std.ExtTreeMap.ext_getElem? fun k => ?_
    simp only [Std.ExtTreeMap.getElem?_insert]
    split <;> rfl
  simp [link, haxis, hobj]

theorem erase_link : (w.link o a keyword p).objects.erase o = w.objects.erase o := by
  refine Std.ExtTreeMap.ext_getElem? fun k => ?_
  simp only [link, Std.ExtTreeMap.getElem?_erase, Std.ExtTreeMap.getElem?_insert]
  split <;> rfl

theorem getElem?_link : (w.link o a keyword p).objects[o']? =
    if o' = o then some { a with axis := a.axis.insert keyword p } else w.objects[o']? := by
  simp only [link, Std.ExtTreeMap.getElem?_insert, Std.compare_eq_iff_eq]
  by_cases h : o = o' <;> simp [h, eq_comm]

theorem holdsAs_link (ha : w.objects[o]? = some a) : (w.link o a keyword p).HoldsAs readOnly o' keyword' p' ↔
    o' = o ∧ keyword' = keyword ∧ readOnly = a.readOnly ∧ p' = p ∨
      ¬ (o' = o ∧ keyword' = keyword) ∧ w.HoldsAs readOnly o' keyword' p' := by
  unfold HoldsAs
  rw [getElem?_link]
  by_cases ho : o' = o
  · subst ho
    by_cases hk : keyword' = keyword
    · subst hk
      simp [eq_comm]
    · have : ¬ keyword = keyword' := fun h => hk h.symm
      simp [ha, hk, this, Std.ExtTreeMap.getElem?_insert]
  · simp [ho]

theorem holds_link (ha : w.objects[o]? = some a) (h : (w.link o a keyword p).Holds o' keyword' p') :
    o' = o ∧ keyword' = keyword ∧ p' = p ∨ w.Holds o' keyword' p' := by
  rcases h.cases with h' | h' <;> rcases (holdsAs_link ha).mp h' with ⟨h₁, h₂, -, h₃⟩ | ⟨-, h'⟩
  · exact .inl ⟨h₁, h₂, h₃⟩
  · exact .inr h'.holds
  · exact .inl ⟨h₁, h₂, h₃⟩
  · exact .inr h'.holds

theorem others_link : ∀ o' ∉ [o], (w.link o a keyword p).objects[o']? = w.objects[o']? := by
  intro o' ho
  rw [getElem?_link, if_neg (by simpa using ho)]

/-- A new set. -/
def fresh (w : AxisHeap) (v : AxisValues) : AxisHeap :=
  { w with sets := Function.update w.sets w.next v, next := w.next + 1 }

/-- A new set changes nothing for those there are. -/
theorem turn_fresh (h : w.Interned) : Turn [] w (w.fresh v) := by
  have hne {p : Nat} (hp : p < w.next) : Function.update w.sets w.next v p = w.sets p :=
    Function.update_of_ne (by omega) _ _
  constructor
  · constructor
    · intro o keyword p hp
      exact Nat.lt_succ_of_lt (h.bound hp)
    · exact h.unique
    · exact h.unregistered
    · exact h.registered
    · exact h.nodup
    · intro e he
      exact (hne (h.entry_bound he)).trans (h.current he)
    · exact h.distinct
    · exact h.used
  · exact fun o _ => rfl
  · intro o _ keyword p hp
    exact hne (h.bound hp)

/-- The values of a set that one axis may change. -/
theorem turn_setValues (h : w.Interned) (hp : w.HoldsAs false o keyword p) :
    Turn [o] w { w with sets := Function.update w.sets p v } := by
  constructor
  · constructor
    · exact h.bound
    · exact h.unique
    · exact h.unregistered
    · exact h.registered
    · exact h.nodup
    · intro e he
      exact (Function.update_of_ne (h.unregistered hp he) _ _).trans (h.current he)
    · exact h.distinct
    · exact h.used
  · exact fun o _ => rfl
  · intro o' ho keyword' p' hp'
    refine Function.update_of_ne ?_ _ _
    rintro rfl
    exact ho (by simp [(h.unique hp hp').1])

/-- A set of its own for an axis that may be changed. -/
theorem turn_link (h : w.Interned) (ha : w.objects[o]? = some a) (hr : a.readOnly = false) (hp : p < w.next)
    (hfree : ∀ o keyword, ¬ w.Holds o keyword p) (hreg : ∀ e ∈ w.registry, e.ptr ≠ p) :
    Turn [o] w (w.link o a keyword p) := by
  have hcases {readOnly o' keyword' p'} (h' : (w.link o a keyword p).HoldsAs readOnly o' keyword' p') :=
    (holdsAs_link ha).mp h'
  have hholds {o' keyword' p'} (h' : (w.link o a keyword p).Holds o' keyword' p') := holds_link ha h'
  constructor
  · constructor
    · intro o' keyword' p' h'
      rcases hholds h' with ⟨-, -, rfl⟩ | h'
      · exact hp
      · exact h.bound h'
    · intro o' keyword' p' o'' keyword'' h' h''
      rcases hcases h' with ⟨rfl, rfl, -, rfl⟩ | ⟨-, hold⟩
      · rcases hholds h'' with ⟨rfl, rfl, -⟩ | h''
        · exact ⟨rfl, rfl⟩
        · exact absurd h'' (hfree _ _)
      · rcases hholds h'' with ⟨rfl, rfl, rfl⟩ | h''
        · exact absurd hold.holds (hfree _ _)
        · exact h.unique hold h''
    · intro o' keyword' p' e h' he
      rcases hcases h' with ⟨-, -, -, rfl⟩ | ⟨-, h'⟩
      · exact hreg e he
      · exact h.unregistered h' he
    · intro o' keyword' p' h'
      rcases hcases h' with ⟨-, -, hro, -⟩ | ⟨-, h'⟩
      · simp [hr] at hro
      · exact h.registered h'
    · exact h.nodup
    · exact h.current
    · exact h.distinct
    · intro e he
      obtain ⟨o', ho'⟩ := h.used he
      refine ⟨o', ?_⟩
      -- what is registered is of no axis that may be changed
      have hro : w.HoldsAs true o' e.keyword e.ptr := ho'.cases.resolve_left fun h' => h.unregistered h' he rfl
      refine ((holdsAs_link ha).mpr (.inr ⟨?_, hro⟩)).holds
      rintro ⟨rfl, -⟩
      obtain ⟨b, hb, hbr, -⟩ := hro
      obtain rfl : a = b := Option.some.inj (ha.symm.trans hb)
      exact absurd (hr.symm.trans hbr) (by decide)
  · exact others_link
  · exact fun _ _ _ _ _ => rfl

theorem HoldsAs.link (ha : w.objects[o]? = some a) (hk : a.axis[keyword]? = none)
    (h : w.HoldsAs readOnly o' keyword' p') : (w.link o a keyword p).HoldsAs readOnly o' keyword' p' := by
  refine (holdsAs_link ha).mpr (.inr ⟨?_, h⟩)
  rintro ⟨rfl, rfl⟩
  obtain ⟨b, hb, -, hp⟩ := h
  obtain rfl : a = b := Option.some.inj (ha.symm.trans hb)
  simp [hk] at hp

theorem Holds.link (ha : w.objects[o]? = some a) (hk : a.axis[keyword]? = none) (h : w.Holds o' keyword' p') :
    (w.link o a keyword p).Holds o' keyword' p' :=
  h.cases.elim (fun h => (h.link ha hk).holds) fun h => (h.link ha hk).holds

/-- An axis that is only read takes a set there is. -/
theorem turn_link_registered (h : w.Interned) (ha : w.objects[o]? = some a) (hr : a.readOnly = true)
    (hk : a.axis[keyword]? = none) (he : e ∈ w.registry) (hek : e.keyword = keyword) :
    Turn [o] w (w.link o a keyword e.ptr) := by
  have hfalse {o' keyword' p'} (h' : (w.link o a keyword e.ptr).HoldsAs false o' keyword' p') :
      w.HoldsAs false o' keyword' p' := by
    rcases (holdsAs_link ha).mp h' with ⟨-, -, hro, -⟩ | ⟨-, h'⟩
    · simp [hr] at hro
    · exact h'
  constructor
  · constructor
    · intro o' keyword' p' h'
      rcases holds_link ha h' with ⟨-, -, rfl⟩ | h'
      · exact h.entry_bound he
      · exact h.bound h'
    · intro o' keyword' p' o'' keyword'' h' h''
      rcases holds_link ha h'' with ⟨-, -, rfl⟩ | h''
      · exact absurd rfl (h.unregistered (hfalse h') he)
      · exact h.unique (hfalse h') h''
    · intro o' keyword' p' e' h' he'
      exact h.unregistered (hfalse h') he'
    · intro o' keyword' p' h'
      rcases (holdsAs_link ha).mp h' with ⟨-, rfl, -, rfl⟩ | ⟨-, h'⟩
      · exact ⟨e, he, rfl, hek⟩
      · exact h.registered h'
    · exact h.nodup
    · exact h.current
    · exact h.distinct
    · intro e' he'
      obtain ⟨o', ho'⟩ := h.used he'
      exact ⟨o', ho'.link ha hk⟩
  · exact others_link
  · exact fun _ _ _ _ _ => rfl

/-- An axis that is only read takes a new set, which is registered. -/
theorem turn_register (h : w.Interned) (ha : w.objects[o]? = some a) (hr : a.readOnly = true)
    (hk : a.axis[keyword]? = none) (hp : p < w.next) (hfree : ∀ o keyword, ¬ w.Holds o keyword p)
    (hnew : ∀ e ∈ w.registry, e.keyword = keyword → e.hashed ≠ w.sets p) :
    Turn [o] w { w.link o a keyword p with registry := w.registry ++ [⟨keyword, p, w.sets p⟩] } := by
  have hreg {e : AxisEntry} (he : e ∈ w.registry) : e.ptr ≠ p := by
    rintro rfl
    obtain ⟨o', ho'⟩ := h.used he
    exact hfree _ _ ho'
  have hfalse {o' keyword' p'} (h' : (w.link o a keyword p).HoldsAs false o' keyword' p') :
      w.HoldsAs false o' keyword' p' := by
    rcases (holdsAs_link ha).mp h' with ⟨-, -, hro, -⟩ | ⟨-, h'⟩
    · simp [hr] at hro
    · exact h'
  constructor
  · constructor
    · intro o' keyword' p' h'
      rcases holds_link ha h' with ⟨-, -, rfl⟩ | h'
      · exact hp
      · exact h.bound h'
    · intro o' keyword' p' o'' keyword'' h' h''
      rcases holds_link ha h'' with ⟨-, -, rfl⟩ | h''
      · exact absurd (hfalse h').holds (hfree _ _)
      · exact h.unique (hfalse h') h''
    · intro o' keyword' p' e' h' he'
      rcases List.mem_append.mp he' with he' | he'
      · exact h.unregistered (hfalse h') he'
      · obtain rfl := List.mem_singleton.mp he'
        rintro rfl
        exact hfree _ _ (hfalse h').holds
    · intro o' keyword' p' h'
      rcases (holdsAs_link ha).mp h' with ⟨-, rfl, -, rfl⟩ | ⟨-, h'⟩
      · exact ⟨_, List.mem_append_right _ List.mem_cons_self, rfl, rfl⟩
      · obtain ⟨e, he, hep, hek⟩ := h.registered h'
        exact ⟨e, List.mem_append_left _ he, hep, hek⟩
    · rw [List.map_append, List.nodup_append]
      refine ⟨h.nodup, List.nodup_singleton _, ?_⟩
      intro q hq q' hq'
      obtain ⟨e, he, rfl⟩ := List.mem_map.mp hq
      obtain rfl : q' = p := by simpa using hq'
      exact hreg he
    · intro e he
      rcases List.mem_append.mp he with he | he
      · exact h.current he
      · obtain rfl := List.mem_singleton.mp he
        rfl
    · intro e e' he he' hk hv
      rcases List.mem_append.mp he with he | he <;> rcases List.mem_append.mp he' with he' | he'
      · exact h.distinct he he' hk hv
      · obtain rfl := List.mem_singleton.mp he'
        exact absurd hv (hnew e he hk)
      · obtain rfl := List.mem_singleton.mp he
        exact absurd hv.symm (hnew e' he' hk.symm)
      · rw [List.mem_singleton.mp he, List.mem_singleton.mp he']
    · intro e he
      rcases List.mem_append.mp he with he | he
      · obtain ⟨o', ho'⟩ := h.used he
        exact ⟨o', ho'.link ha hk⟩
      · obtain rfl := List.mem_singleton.mp he
        exact ⟨o, ((holdsAs_link ha).mpr (.inl ⟨rfl, rfl, hr.symm, rfl⟩)).holds⟩
  · exact others_link
  · exact fun _ _ _ _ _ => rfl

theorem Interned.used_elsewhere (h : w.Interned) (he : e ∈ w.registry) (hno : ¬ w.Holds o e.keyword e.ptr) :
    ∃ o' ≠ o, w.Holds o' e.keyword e.ptr := by
  obtain ⟨o', ho'⟩ := h.used he
  refine ⟨o', ?_, ho'⟩
  rintro rfl
  exact hno ho'

/-- An object that lets go of sets, which others go on using if they are registered. -/
theorem turn_shrink (h : w.Interned) (hs : w'.sets = w.sets) (hn : w'.next = w.next)
    (ho : ∀ o' ∉ [o], w'.objects[o']? = w.objects[o']?) (hreg : w'.registry.Sublist w.registry)
    (hsub : ∀ {readOnly keyword p}, w'.HoldsAs readOnly o keyword p → w.HoldsAs readOnly o keyword p)
    (hkeep : ∀ {o' e}, e ∈ w.registry → w'.Holds o' e.keyword e.ptr → e ∈ w'.registry)
    (hused : ∀ {e}, e ∈ w'.registry → ∃ o' ≠ o, w.Holds o' e.keyword e.ptr) : Turn [o] w w' := by
  have hsub' {readOnly o' keyword p} (h' : w'.HoldsAs readOnly o' keyword p) : w.HoldsAs readOnly o' keyword p := by
    by_cases hoo : o' = o
    · subst hoo
      exact hsub h'
    · obtain ⟨a, ha, h'⟩ := h'
      exact ⟨a, (ho o' (by simpa using hoo)).symm.trans ha, h'⟩
  have hholds {o' keyword p} (h' : w'.Holds o' keyword p) : w.Holds o' keyword p :=
    h'.cases.elim (fun h' => (hsub' h').holds) fun h' => (hsub' h').holds
  constructor
  · constructor
    · intro o' keyword p h'
      exact hn ▸ h.bound (hholds h')
    · intro o' keyword p o'' keyword'' h' h''
      exact h.unique (hsub' h') (hholds h'')
    · intro o' keyword p e h' he
      exact h.unregistered (hsub' h') (hreg.subset he)
    · intro o' keyword p h'
      obtain ⟨e, he, rfl, rfl⟩ := h.registered (hsub' h')
      exact ⟨e, hkeep he h'.holds, rfl, rfl⟩
    · exact h.nodup.sublist (hreg.map _)
    · intro e he
      exact hs ▸ h.current (hreg.subset he)
    · intro e e' he he'
      exact h.distinct (hreg.subset he) (hreg.subset he')
    · intro e he
      obtain ⟨o', hne, a, ha, hp⟩ := hused he
      exact ⟨o', a, (ho o' (by simpa using hne)).trans ha, hp⟩
  · exact ho
  · intro o' _ keyword p _
    rw [hs]

theorem others_insert : ∀ o' ∉ [o], (w.objects.insert o a)[o']? = w.objects[o']? := by
  intro o' ho'
  have : ¬ o = o' := fun h => ho' (by simp [h])
  simp [Std.ExtTreeMap.getElem?_insert, this]

theorem others_erase : ∀ o' ∉ [o], (w.objects.erase o)[o']? = w.objects[o']? := by
  intro o' ho'
  have : ¬ o = o' := fun h => ho' (by simp [h])
  simp [Std.ExtTreeMap.getElem?_erase, this]

/-- An object goes that has no axes. -/
theorem turn_erase (h : w.Interned) (hempty : ∀ a, w.objects[o]? = some a → a.axis = ∅) :
    Turn [o] w { w with objects := w.objects.erase o } := by
  refine turn_shrink h rfl rfl others_erase (List.Sublist.refl _) ?_ (fun he _ => he) ?_
  · rintro readOnly keyword p ⟨b, hb, -⟩
    simp at hb
  · intro e he
    apply h.used_elsewhere he
    rintro ⟨b, hb, hp⟩
    simp [hempty b hb] at hp

/-- An object without axes in a place where there was none. -/
theorem turn_bare (h : w.Interned) (hnone : w.objects[o]? = none) (ha : a.axis = ∅) :
    Turn [o] w { w with objects := w.objects.insert o a } := by
  have hnew {readOnly keyword p} :
      ¬ AxisHeap.HoldsAs { w with objects := w.objects.insert o a } readOnly o keyword p := by
    rintro ⟨b, hb, -, hp⟩
    obtain rfl : a = b := by simpa using hb
    simp [ha] at hp
  refine turn_shrink h rfl rfl others_insert (List.Sublist.refl _) (fun h' => absurd h' hnew) (fun he _ => he) ?_
  intro e he
  apply h.used_elsewhere he
  rintro ⟨b, hb, -⟩
  exact absurd (hnone.symm.trans hb) (by simp)

/-- The axis of one object goes to another. -/
def passed (w : AxisHeap) (o rhs : Nat) (a : AxisObject) : AxisHeap :=
  { w with objects := (w.objects.insert o a).insert rhs { a with axis := ∅ } }

theorem holdsAs_passed {rhs : Nat} (ha : w.objects[rhs]? = some a) (hne : o ≠ rhs) :
    (w.passed o rhs a).HoldsAs readOnly o' keyword p ↔
      o' ≠ rhs ∧ w.HoldsAs readOnly (if o' = o then rhs else o') keyword p := by
  unfold HoldsAs passed
  simp only [Std.ExtTreeMap.getElem?_insert, Std.compare_eq_iff_eq]
  by_cases hr : o' = rhs
  · subst hr
    simp
  · by_cases ho : o' = o
    · subst ho
      simp [hr, ha, eq_comm]
    · have hr' : ¬ rhs = o' := fun h => hr h.symm
      have ho' : ¬ o = o' := fun h => ho h.symm
      simp [hr, ho, hr', ho']

theorem holds_passed {rhs : Nat} (ha : w.objects[rhs]? = some a) (hne : o ≠ rhs) :
    (w.passed o rhs a).Holds o' keyword p ↔ o' ≠ rhs ∧ w.Holds (if o' = o then rhs else o') keyword p := by
  constructor
  · intro h
    rcases h.cases with h | h <;> obtain ⟨hr, h⟩ := (holdsAs_passed ha hne).mp h <;> exact ⟨hr, h.holds⟩
  · rintro ⟨hr, h⟩
    rcases h.cases with h | h <;> exact ((holdsAs_passed ha hne).mpr ⟨hr, h⟩).holds

/-- A move, where what the receiver had is of others too as far as it is registered. -/
theorem turn_passed {rhs : Nat} (h : w.Interned) (ha : w.objects[rhs]? = some a) (hne : o ≠ rhs)
    (hleft : ∀ e ∈ w.registry, w.Holds o e.keyword e.ptr → ∃ o' ≠ o, w.Holds o' e.keyword e.ptr) :
    Turn [o, rhs] w (w.passed o rhs a) := by
  constructor
  · constructor
    · intro o' keyword p h'
      exact h.bound ((holds_passed ha hne).mp h').2
    · intro o₁ keyword p o₂ keyword' h₁ h₂
      obtain ⟨hr₁, h₁⟩ := (holdsAs_passed ha hne).mp h₁
      obtain ⟨hr₂, h₂⟩ := (holds_passed ha hne).mp h₂
      obtain ⟨hsame, hk⟩ := h.unique h₁ h₂
      refine ⟨?_, hk⟩
      split at hsame <;> split at hsame <;> simp_all
    · intro o' keyword p e h' he
      exact h.unregistered ((holdsAs_passed ha hne).mp h').2 he
    · intro o' keyword p h'
      exact h.registered ((holdsAs_passed ha hne).mp h').2
    · exact h.nodup
    · exact h.current
    · exact h.distinct
    · intro e he
      have hother : ∃ o' ≠ o, w.Holds o' e.keyword e.ptr := by
        obtain ⟨o', ho'⟩ := h.used he
        by_cases hoo : o' = o
        · exact hleft e he (hoo ▸ ho')
        · exact ⟨o', hoo, ho'⟩
      obtain ⟨o', hoo, ho'⟩ := hother
      by_cases hr : o' = rhs
      · subst hr
        exact ⟨o, (holds_passed ha hne).mpr ⟨hne, by simpa using ho'⟩⟩
      · exact ⟨o', (holds_passed ha hne).mpr ⟨hr, by simpa [hoo] using ho'⟩⟩
  · intro o' ho'
    simp only [List.mem_cons, List.not_mem_nil, or_false, not_or] at ho'
    have h₁ : ¬ rhs = o' := fun h => ho'.2 h.symm
    have h₂ : ¬ o = o' := fun h => ho'.1 h.symm
    simp [passed, Std.ExtTreeMap.getElem?_insert, h₁, h₂]
  · exact fun _ _ _ _ _ => rfl

end Turn

section Operations

variable {bucket : AxisValues → Nat} {key : Key} {Q : AxisObject → AxisHeap → Prop} {E : Failure → AxisHeap → Prop}

@[simp] theorem ends_object : Ends (object o) w Q E ↔
    (∀ a, w.objects[o]? = some a → Q a w) ∧ (w.objects[o]? = none → E (.undefinedBehaviour "object") w) := by
  simp only [object, ends_bind, ends_get]
  cases h : w.objects[o]? <;> simp

@[simp] theorem ends_vacant {Q : Unit → AxisHeap → Prop} : Ends (vacant o) w Q E ↔
    (w.objects[o]? = none → Q () w) ∧ (w.objects[o]? ≠ none → E (.undefinedBehaviour "object") w) := by
  simp only [vacant, ends_bind, ends_get, ends_ite, ends_throw, ends_pure]
  cases h : w.objects[o]? <;> simp

theorem Interned.fresh_unheld {v : AxisValues} (h : w.Interned) :
    ∀ o keyword, ¬ (w.fresh v).Holds o keyword w.next :=
  fun _ _ hp => absurd (h.bound hp) (Nat.lt_irrefl _)

/-- The receiver of an operation that changes values is not read-only. -/
def Writable (w : AxisHeap) (o : Nat) : Prop :=
  ∀ a, w.objects[o]? = some a → a.readOnly = false

theorem ends_insertValue (h : w.Interned) (hw : w.Writable o) : Ends (insertValue o key keyword) w
    (fun _ t => Turn [o] w t ∧ t.Writable o) fun _ t => Turn [o] w t := by
  unfold insertValue
  simp only [ends_bind, ends_object]
  refine ⟨fun a ha => ?_, fun _ => .refl h⟩
  have hr := hw a ha
  cases hp : a.axis[keyword]? with
  | some p =>
    simp only [ends_pure, ends_bind, ends_lift, ends_get, setValues, ends_modify]
    exact ⟨fun value _ => ⟨turn_setValues h ⟨a, ha, hr, hp⟩, hw⟩, fun _ _ => .refl h⟩
  | none =>
    simp only [newSet, setObject, setValues, ends_pure, ends_bind, ends_lift, ends_get, ends_modify]
    have hfresh : Turn [o] w (w.fresh ∅) := (turn_fresh h).mono (by simp)
    have hlink : Turn [o] (w.fresh ∅) ((w.fresh ∅).link o a keyword w.next) := by
      apply turn_link hfresh.interned ha hr (Nat.lt_succ_self _) h.fresh_unheld
      intro e he
      exact Nat.ne_of_lt (h.entry_bound he)
    have hturn := hfresh.trans hlink
    have hheld : ((w.fresh ∅).link o a keyword w.next).HoldsAs false o keyword w.next :=
      (holdsAs_link ha).mpr (.inl ⟨rfl, rfl, hr.symm, rfl⟩)
    refine ⟨fun value _ => ⟨hturn.trans (turn_setValues hlink.interned hheld), ?_⟩, fun _ _ => hturn⟩
    intro b hb
    change ((w.fresh ∅).link o a keyword w.next).objects[o]? = some b at hb
    rw [getElem?_link, if_pos rfl, Option.some_inj] at hb
    exact hb ▸ hr

theorem ends_insert (h : w.Interned) : Ends (insert o key) w (fun _ => Turn [o] w) fun _ => Turn [o] w := by
  unfold insert
  simp only [ends_bind, ends_object, ends_ensure]
  refine ⟨fun a ha => ⟨fun hr => ?_, fun _ => .refl h⟩, fun _ => .refl h⟩
  have hw : w.Writable o := by
    intro b hb
    obtain rfl : a = b := Option.some.inj (ha.symm.trans hb)
    exact hr
  refine (ends_forM (P := fun t => Turn [o] w t ∧ t.Writable o) ?_ w ⟨.refl h, hw⟩).mono (fun _ _ ht => ht.1)
    fun _ _ ht => ht
  rintro keyword - t ⟨hturn, ht⟩
  exact (ends_insertValue hturn.interned ht).mono (fun _ _ h' => ⟨hturn.trans h'.1, h'.2⟩) fun _ _ h' => hturn.trans h'

theorem ends_sort (h : w.Interned) : Ends (sort o) w (fun _ => Turn [o] w) fun _ => Turn [o] w := by
  unfold sort
  simp only [ends_bind, ends_object]
  refine ⟨fun a _ => ?_, fun _ => .refl h⟩
  refine (ends_forM (P := fun t => t = w) ?_ w rfl).mono (fun _ t ht => ?_) fun _ _ ht => ht
  · rintro kv - t rfl
    simp only [ends_bind, ends_get, setValues, ends_modify, Function.update_eq_self]
  · rw [ht]
    exact .refl h

theorem ends_create (h : w.Interned) : Ends (create o) w (fun _ => Turn [o] w) fun _ => Turn [o] w := by
  unfold create
  simp only [ends_bind, ends_vacant, setObject, ends_modify]
  exact ⟨fun hnone => turn_bare h hnone rfl, fun _ => .refl h⟩

theorem ends_wipe (h : w.Interned) : Ends (wipe o) w (fun _ => Turn [o] w) fun _ => Turn [o] w := by
  unfold wipe
  simp only [ends_bind, ends_object, ends_ensure, setObject, ends_modify]
  refine ⟨fun a ha => ⟨fun hr => ?_, fun _ => .refl h⟩, fun _ => .refl h⟩
  refine turn_shrink h rfl rfl others_insert (List.Sublist.refl _) ?_ (fun he _ => he) ?_
  · rintro readOnly keyword p ⟨b, hb, -, hp⟩
    obtain rfl : ({ a with axis := ∅ } : AxisObject) = b := by simpa using hb
    simp at hp
  · intro e he
    apply h.used_elsewhere he
    rintro ⟨b, hb, hp⟩
    obtain rfl : a = b := Option.some.inj (ha.symm.trans hb)
    exact h.unregistered ⟨a, ha, hr, hp⟩ he rfl

/-- A merge into an axis that has every keyword of the other changes the axis's own sets. -/
theorem ends_merge {other : Nat} (h : w.Interned)
    (hkeys : ∀ a, w.objects[o]? = some a → a.readOnly = false →
      ∀ keyword p, w.Holds other keyword p → ∃ q, w.Holds o keyword q) :
    Ends (merge o other) w (fun _ => Turn [o] w) fun _ => Turn [o] w := by
  unfold merge
  simp only [ends_bind, ends_object, ends_ensure]
  refine ⟨fun a ha => ⟨fun b hb => ⟨fun hr => ?_, fun _ => .refl h⟩, fun _ => .refl h⟩, fun _ => .refl h⟩
  refine (ends_forM (P := fun t => Turn [o] w t ∧ t.objects = w.objects) ?_ w ⟨.refl h, rfl⟩).mono
    (fun _ _ ht => ht.1) fun _ _ ht => ht
  rintro ⟨keyword, q⟩ hkv t ⟨hturn, hobj⟩
  rw [Std.ExtTreeMap.mem_toList_iff_getElem?_eq_some] at hkv
  obtain ⟨p, c, hc, hp⟩ := hkeys a ha hr keyword q ⟨b, hb, hkv⟩
  obtain rfl : a = c := Option.some.inj (ha.symm.trans hc)
  have hat : t.objects[o]? = some a := by rw [hobj, ha]
  simp only [ends_bind, ends_object, hat, Option.some.injEq, reduceCtorEq, forall_eq', hp, ends_get, setValues,
    ends_modify, false_implies, and_true]
  exact ⟨hturn.trans (turn_setValues hturn.interned ⟨a, hat, hr, hp⟩), hobj⟩

/-- The axis of an object that is only read, before the keywords of a stream that are still to come. -/
def Awaits (w : AxisHeap) (o : Nat) (keywords : List String) : Prop :=
  ∃ a, w.objects[o]? = some a ∧ a.readOnly = true ∧ ∀ keyword ∈ keywords, a.axis[keyword]? = none

theorem awaits_link {keywords : List String} {q : Nat} (hr : a.readOnly = true)
    (hk : ∀ k ∈ keyword :: keywords, a.axis[k]? = none) (hn : keyword ∉ keywords) :
    (w.link o a keyword q).Awaits o keywords := by
  refine ⟨{ a with axis := a.axis.insert keyword q }, by rw [getElem?_link, if_pos rfl], hr, ?_⟩
  intro k hmem
  have hne : ¬ keyword = k := by
    rintro rfl
    exact hn hmem
  simp [Std.ExtTreeMap.getElem?_insert, hne, hk k (List.mem_cons_of_mem _ hmem)]

/-- A set that only the axis being decoded has is registered, or gives way to the one that is. -/
theorem ends_deduplicate (h : w.Interned) (ha : w.objects[o]? = some a) (hr : a.readOnly = true)
    (hk : a.axis[keyword]? = none) (hp : p < w.next) (hfree : ∀ o keyword, ¬ w.Holds o keyword p) :
    Ends (deduplicate bucket o keyword p) (w.link o a keyword p)
      (fun _ t => Turn [o] w t ∧ ∃ q, t.objects = (w.link o a keyword q).objects) fun _ _ => False := by
  have hget : (w.link o a keyword p).objects[o]? = some { a with axis := a.axis.insert keyword p } := by
    rw [getElem?_link, if_pos rfl]
  simp only [deduplicate, ends_bind, ends_get]
  split
  next hnone =>
    refine ⟨turn_register h ha hr hk hp hfree ?_, p, rfl⟩
    intro e he hek hev
    apply List.find?_eq_none.mp hnone e he
    simp only [finds, decide_eq_true_eq]
    exact ⟨hek, congrArg bucket hev, (h.current he).trans hev⟩
  next e hfind =>
    have he : e ∈ w.registry := List.mem_of_find?_eq_some hfind
    have hfound := List.find?_some hfind
    simp only [finds, decide_eq_true_eq] at hfound
    simp only [ends_bind, ends_object, hget, Option.some.injEq, forall_eq', reduceCtorEq, false_implies, and_true,
      setObject, ends_modify]
    have hsame : (w.link o a keyword p).link o { a with axis := a.axis.insert keyword p } keyword e.ptr =
        w.link o a keyword e.ptr := link_link
    have hturn := turn_link_registered h ha hr hk he hfound.1
    rw [← hsame] at hturn
    exact ⟨hturn, e.ptr, congrArg AxisHeap.objects hsame⟩

theorem ends_readAxis {kv : String × AxisValues} {Q : Nat → AxisHeap → Prop} (ha : w.objects[o]? = some a) :
    Ends (readAxis o kv) w Q E ↔ Q w.next ((w.fresh kv.2).link o a kv.1 w.next) := by
  simp only [readAxis, newSet, ends_bind, ends_get, ends_modify, ends_pure, ends_object, setObject, ha, Option.some.injEq,
    forall_eq', reduceCtorEq, false_implies, and_true]
  rfl

theorem ends_decodeTurn {kv : String × AxisValues} {keywords : List String} (h : w.Interned)
    (ho : w.Awaits o (kv.1 :: keywords)) (hn : kv.1 ∉ keywords) :
    Ends (do
      let p ← readAxis o kv
      deduplicate bucket o kv.1 p) w (fun _ t => Turn [o] w t ∧ t.Awaits o keywords) fun _ _ => False := by
  obtain ⟨a, ha, hr, hk⟩ := ho
  have hfresh : Turn [o] w (w.fresh kv.2) := (turn_fresh h).mono (by simp)
  have hdedup : Ends (deduplicate bucket o kv.1 w.next) ((w.fresh kv.2).link o a kv.1 w.next)
      (fun _ t => Turn [o] (w.fresh kv.2) t ∧ ∃ q, t.objects = ((w.fresh kv.2).link o a kv.1 q).objects)
      fun _ _ => False :=
    ends_deduplicate hfresh.interned ha hr (hk kv.1 List.mem_cons_self) (Nat.lt_succ_self _) h.fresh_unheld
  rw [ends_bind, ends_readAxis ha]
  apply hdedup.mono _ fun _ _ h => h
  rintro _ t ⟨ht, q, hq⟩
  refine ⟨hfresh.trans ht, ?_⟩
  obtain ⟨b, hb, hb'⟩ : ((w.fresh kv.2).link o a kv.1 q).Awaits o keywords := awaits_link hr hk hn
  exact ⟨b, (congrArg (·[o]?) hq).trans hb, hb'⟩

theorem ends_decodeLoop {l : List (String × AxisValues)} (hl : (l.map Prod.fst).Nodup) :
    ∀ t, Turn [o] w t → t.Awaits o (l.map Prod.fst) → Ends (l.forM fun kv => do
      let p ← readAxis o kv
      deduplicate bucket o kv.1 p) t (fun _ => Turn [o] w) fun _ _ => False := by
  induction l with
  | nil => exact fun _ ht _ => ht
  | cons kv l ih =>
    intro t ht ho
    obtain ⟨hn, hl⟩ := List.nodup_cons.mp hl
    change Ends (_ >>= fun _ => l.forM _) t _ _
    rw [ends_bind]
    refine (ends_decodeTurn ht.interned ho hn).mono ?_ fun _ _ h => h
    rintro _ u ⟨hu, hawaits⟩
    exact ih hl u (ht.trans hu) hawaits

/-- A whole stream is decoded into an axis that is only read and has none of its keywords; where it is turned away,
nothing has been read of it. -/
theorem ends_decode_whole {version : Nat} {stream : AxisStream} (h : w.Interned) (hs : stream.Whole)
    (ha : w.objects[o]? = some a) (hr : a.readOnly = true)
    (hk : ∀ keyword ∈ stream.axes.map Prod.fst, a.axis[keyword]? = none) :
    Ends (decode bucket o version stream) w (fun _ => Turn [o] w)
      fun _ t => Turn [o] w t ∧ (a.axis = ∅ → ∀ b, t.objects[o]? = some b → b.axis = ∅) := by
  obtain ⟨hstops, hnodup⟩ := hs
  have hloop : Ends (stream.axes.forM fun kv => do
      let p ← readAxis o kv
      deduplicate bucket o kv.1 p) w (fun _ => Turn [o] w) fun _ _ => False :=
    ends_decodeLoop hnodup w (.refl h) ⟨a, ha, hr, hk⟩
  have hstart : Turn [o] w w ∧ (a.axis = ∅ → ∀ b, w.objects[o]? = some b → b.axis = ∅) := by
    refine ⟨.refl h, fun hempty b hb => ?_⟩
    rwa [← Option.some.inj (ha.symm.trans hb)]
  simp only [decode, hstops, ends_bind, ends_object, ends_ite, ends_ensure, ends_pure]
  have hread : Ends (stream.axes.forM fun kv => do
      let p ← readAxis o kv
      deduplicate bucket o kv.1 p) w (fun _ t => (3 ≤ version →
        (∀ b, t.objects[o]? = some b → (b.axis.isEmpty = false → Turn [o] w t) ∧
          (¬ b.axis.isEmpty = false → Turn [o] w t ∧ (a.axis = ∅ → ∀ b, t.objects[o]? = some b → b.axis = ∅))) ∧
        (t.objects[o]? = none → Turn [o] w t ∧ (a.axis = ∅ → ∀ b, t.objects[o]? = some b → b.axis = ∅))) ∧
        (¬ 3 ≤ version → Turn [o] w t)) fun _ t =>
          Turn [o] w t ∧ (a.axis = ∅ → ∀ b, t.objects[o]? = some b → b.axis = ∅) := by
    apply hloop.mono ?_ fun _ _ h => h.elim
    refine fun _ t ht => ⟨fun _ => ⟨fun b hb => ⟨fun _ => ht, fun hempty => ⟨ht, fun _ b' hb' => ?_⟩⟩, fun hnone => ⟨ht, ?_⟩⟩,
      fun _ => ht⟩
    · rw [← Option.some.inj (hb.symm.trans hb')]
      simpa using hempty
    · intro _ b hb
      exact absurd (hnone.symm.trans hb) (by simp)
  exact ⟨fun _ _ => ⟨fun _ => ⟨fun _ => hread, fun _ => hstart⟩, fun _ => hread⟩, fun _ => hstart⟩

/-- Of a stream without a value there is nothing to decode. -/
theorem ends_decode_bare {version : Nat} {stream : AxisStream} (hs : stream.Bare) :
    Ends (decode bucket o version stream) w (fun _ t => t = w) fun _ t => t = w := by
  obtain ⟨haxes, hstops⟩ := hs
  cases hstop : stream.stops with
  | none =>
    simp only [decode, haxes, hstop, ends_bind, ends_object, ends_ite, ends_ensure]
    simp
  | some stop =>
    obtain ⟨part, e⟩ := stop
    obtain rfl := hstops part e hstop
    simp only [decode, haxes, hstop, ends_bind, ends_object, ends_ite, ends_ensure]
    simp

theorem ends_decodeNew {version : Nat} {stream : AxisStream} (h : w.Interned) (hs : stream.Whole ∨ stream.axes = []) :
    Ends (decodeNew bucket o version stream) w (fun _ => Turn [o] w) fun _ => Turn [o] w := by
  unfold decodeNew
  simp only [ends_bind, ends_vacant, setObject, ends_modify, ends_tryCatch, ends_throw]
  refine ⟨fun hnone => ?_, fun _ => .refl h⟩
  have hbare : Turn [o] w { w with objects := w.objects.insert o { readOnly := true } } := turn_bare h hnone rfl
  have hget : (w.objects.insert o { readOnly := true })[o]? = some { readOnly := true } := by simp
  have herase (t : AxisHeap) (ht : Turn [o] w t) (hempty : ∀ b, t.objects[o]? = some b → b.axis = ∅) :
      Turn [o] w { t with objects := t.objects.erase o } := ht.trans (turn_erase ht.interned hempty)
  rcases hs with hwhole | hnil
  · refine (ends_decode_whole hbare.interned hwhole hget rfl (by simp)).mono (fun _ _ ht => hbare.trans ht) ?_
    rintro _ t ⟨ht, hempty⟩
    exact herase t (hbare.trans ht) (hempty rfl)
  · have hbareget : ∀ b, (w.objects.insert o { readOnly := true })[o]? = some b → b.axis = ∅ := by
      intro b hb
      rw [← Option.some.inj (hget.symm.trans hb)]
    by_cases hparts : ∃ kv e, stream.stops = some (some kv, e)
    · obtain ⟨kv, e, hstops⟩ := hparts
      simp only [decode, hnil, hstops, ends_bind, ends_object, ends_ite, ends_ensure, ends_throw]
      have hpart : Ends (readAxis o kv) { w with objects := w.objects.insert o { readOnly := true } }
          (fun _ t => Turn [o] w { t with objects := t.objects.erase o })
          fun _ t => Turn [o] w { t with objects := t.objects.erase o } := by
        have hfresh := turn_fresh (v := kv.2) hbare.interned
        have hgone := herase _ (hbare.trans (hfresh.mono (by simp))) hbareget
        rw [ends_readAxis hget, erase_link]
        exact hgone
      exact ⟨fun _ _ => ⟨fun _ => ⟨fun _ => hpart, fun _ => herase _ hbare hbareget⟩, fun _ => hpart⟩,
        fun _ => herase _ hbare hbareget⟩
    · refine (ends_decode_bare ⟨hnil, fun part e hstops => ?_⟩).mono (fun _ t ht => ht ▸ hbare) ?_
      · cases part with
        | none => rfl
        | some kv => exact absurd ⟨kv, e, hstops⟩ hparts
      · rintro _ t rfl
        exact herase _ hbare hbareget

/-- A stream decoded into an axis there is. -/
theorem ends_decode {version : Nat} {stream : AxisStream} (h : w.Interned)
    (hs : ∀ a, w.objects[o]? = some a → (3 ≤ version → a.axis.isEmpty = true) → stream.Bare ∨
      stream.Whole ∧ a.readOnly = true ∧ ∀ keyword ∈ stream.axes.map Prod.fst, a.axis[keyword]? = none) :
    Ends (decode bucket o version stream) w (fun _ => Turn [o] w) fun _ => Turn [o] w := by
  cases ha : w.objects[o]? with
  | none =>
    rw [decode, ends_bind, ends_object]
    exact ⟨fun a hsome => absurd (ha.symm.trans hsome) (by simp), fun _ => .refl h⟩
  | some a =>
    by_cases hv : 3 ≤ version → a.axis.isEmpty = true
    · rcases hs a ha hv with hbare | ⟨hwhole, hr, hk⟩
      · refine (ends_decode_bare hbare).mono ?_ ?_ <;> rintro _ t rfl <;> exact .refl h
      · exact (ends_decode_whole h hwhole ha hr hk).mono (fun _ _ ht => ht) fun _ _ ht => ht.1
    · rw [Classical.not_imp] at hv
      rw [decode, ends_bind, ends_object]
      simp only [ha, Option.some.injEq, forall_eq', reduceCtorEq, false_implies, and_true, ends_bind, if_pos hv.1, ends_ensure,
        hv.2, not_false_eq_true, true_implies, true_and]
      exact .refl h

theorem ends_moveNew {rhs : Nat} (h : w.Interned) :
    Ends (moveNew o rhs) w (fun _ => Turn [o, rhs] w) fun _ => Turn [o, rhs] w := by
  unfold moveNew
  simp only [ends_bind, ends_vacant, ends_object, setObject, ends_modify]
  refine ⟨fun hnone => ⟨fun a ha => ?_, fun _ => .refl h⟩, fun _ => .refl h⟩
  have hne : o ≠ rhs := by
    rintro rfl
    rw [hnone] at ha
    exact absurd ha (by simp)
  apply turn_passed h ha hne
  rintro e - ⟨b, hb, -⟩
  rw [hnone] at hb
  exact absurd hb (by simp)

/-- A move onto an axis whose registered sets are of others too. -/
theorem ends_moveAssign {rhs : Nat} (h : w.Interned)
    (hs : ∀ keyword p, w.HoldsAs true o keyword p → ∃ o' ≠ o, w.Holds o' keyword p) :
    Ends (moveAssign o rhs) w (fun _ => Turn [o, rhs] w) fun _ => Turn [o, rhs] w := by
  unfold moveAssign
  simp only [ends_bind, ends_object, ends_ite, ends_throw, setObject, ends_modify]
  refine ⟨fun _ _ => ⟨fun a ha => ⟨fun _ => .refl h, fun hne => ?_⟩, fun _ => .refl h⟩, fun _ => .refl h⟩
  apply turn_passed h ha hne
  intro e he ho
  exact hs _ _ (ho.cases.resolve_left fun h' => h.unregistered h' he rfl)

section Release

/-- An object is the only user of a registered set if there is one reference to it. -/
theorem Interned.sole_iff (h : w.Interned) (he : e ∈ w.registry) (ho : w.Holds o e.keyword e.ptr) :
    w.refs.countP (fun r => r.2.2 = e.ptr) = 1 ↔ ¬ ∃ o' ≠ o, w.Holds o' e.keyword e.ptr := by
  rw [countP_refs ho]
  constructor
  · rintro hu ⟨o', hne, ho'⟩
    exact hne (hu o' _ ho').1
  · intro hno o' keyword' h'
    have hreg : w.HoldsAs true o' keyword' e.ptr := h'.cases.resolve_left fun h' => h.unregistered h' he rfl
    obtain ⟨e', he', hp, rfl⟩ := h.registered hreg
    obtain rfl := h.entry_unique he' he hp
    refine ⟨?_, rfl⟩
    by_contra hne
    exact hno ⟨o', hne, h'⟩

/-- What is left in the registry when the pointers were released. -/
def leaves (w : AxisHeap) (released : List (String × Nat)) (e : AxisEntry) : Bool :=
  (e.keyword, e.ptr) ∈ released → ¬ w.refs.countP (fun r => r.2.2 = e.ptr) = 1

/-- The heap with the pointers released. -/
def released (w : AxisHeap) (l : List (String × Nat)) : AxisHeap :=
  { w with registry := w.registry.filter (w.leaves l) }

theorem released_nil : w.released [] = w := by
  have hall : w.registry.filter (w.leaves []) = w.registry := List.filter_eq_self.mpr fun e _ => by simp [leaves]
  rw [released, hall]

/-- A release takes out the entry of the pointer if the axis is its only user. -/
theorem ends_release {l : List (String × Nat)} (h : w.Interned) (he : e ∈ w.registry)
    (hl : (e.keyword, e.ptr) ∉ l) : Ends (release bucket e.keyword e.ptr) (w.released l)
      (fun _ t => t = w.released (l ++ [(e.keyword, e.ptr)])) fun _ _ => False := by
  have hin : e ∈ (w.released l).registry := List.mem_filter.mpr ⟨he, by simp [leaves, hl]⟩
  have hcount : (w.released l).useCount e.ptr = w.refs.countP (fun r => r.2.2 = e.ptr) + 1 := by
    have hone : (w.released l).registry.countP (fun e' => e'.ptr = e.ptr) = 1 :=
      countP_registry (h.nodup.sublist (List.filter_sublist.map _)) hin
    rw [useCount, hone]
    rfl
  -- with the pointer there goes the entry for it, and no other
  have hmore {e'} (he' : e' ∈ w.registry) : w.leaves (l ++ [(e.keyword, e.ptr)]) e' =
      (w.leaves l e' && !(decide (e'.ptr = e.ptr) && decide (w.refs.countP (fun r => r.2.2 = e.ptr) = 1))) := by
    by_cases hee : e'.ptr = e.ptr
    · obtain rfl := h.entry_unique he' he hee
      simp [leaves, hl]
    · simp [leaves, hee]
  unfold release
  simp only [ends_bind, ends_get, ends_ite, ends_pure, ends_ensure, ends_modify, hcount]
  constructor
  · intro hne
    have hshared : ¬ w.refs.countP (fun r => r.2.2 = e.ptr) = 1 := by omega
    refine congrArg (fun r => { w with registry := r }) (List.filter_congr fun e' he' => ?_)
    rw [hmore he']
    simp [hshared]
  · intro hne
    have hsole : w.refs.countP (fun r => r.2.2 = e.ptr) = 1 := by omega
    have hfinds {e'} (he' : e' ∈ w.registry) :
        (w.released l).finds bucket e.keyword ((w.released l).sets e.ptr) e' = decide (e'.ptr = e.ptr) := by
      rw [finds, decide_eq_decide]
      constructor
      · rintro ⟨hk, -, hv⟩
        rw [h.distinct he' he hk (((h.current he').symm.trans hv).trans (h.current he))]
      · intro hp
        obtain rfl := h.entry_unique he' he hp
        exact ⟨rfl, congrArg bucket (h.current he).symm, rfl⟩
    have hfilter : (w.released l).registry.filter
        (fun e' => !(w.released l).finds bucket e.keyword ((w.released l).sets e.ptr) e') =
        (w.released (l ++ [(e.keyword, e.ptr)])).registry := by
      change (w.registry.filter (w.leaves l)).filter _ = w.registry.filter _
      rw [List.filter_filter]
      refine List.filter_congr fun e' he' => ?_
      rw [hmore he', hfinds he', Bool.and_comm]
      simp [hsole]
    rw [hfilter]
    refine ⟨fun _ => ⟨fun _ => rfl, fun hcontra => hcontra ?_⟩, fun hcontra => hcontra ?_⟩
    · have hnone : (w.released (l ++ [(e.keyword, e.ptr)])).registry.countP (fun e' => e'.ptr = e.ptr) = 0 := by
        rw [List.countP_eq_zero]
        intro e' he' hp
        obtain ⟨he', hleaves⟩ := List.mem_filter.mp he'
        obtain rfl := h.entry_unique he' he (by simpa using hp)
        simp [leaves, hsole] at hleaves
      change w.refs.countP _ + (w.released (l ++ [(e.keyword, e.ptr)])).registry.countP _ = 1
      rw [hnone, hsole]
    · exact List.any_eq_true.mpr ⟨e, hin, by simp⟩

/-- The destructor returns, and takes out of the registry what it alone used. -/
theorem ends_destroy (h : w.Interned) (ha : w.objects[o]? = some a) :
    Ends (destroy bucket o) w (fun _ => Turn [o] w) fun _ _ => False := by
  have hgone {l : List (String × Nat)} {readOnly keyword p} :
      ¬ AxisHeap.HoldsAs { w.released l with objects := w.objects.erase o } readOnly o keyword p := by
    rintro ⟨b, hb, -⟩
    simp at hb
  unfold destroy
  simp only [ends_bind, ends_object, ha, Option.some.injEq, forall_eq', reduceCtorEq, false_implies, and_true,
    ends_modify, ends_ite]
  constructor
  · intro hr
    have hloop : Ends (a.axis.toList.forM fun kv => release bucket kv.1 kv.2) w
        (fun _ t => t = w.released a.axis.toList) fun _ _ => False := by
      refine ends_forM_split (P := fun l t => t = w.released l) ?_ released_nil.symm
      rintro l ⟨keyword, p⟩ l' hsplit t rfl
      have hmem : (keyword, p) ∈ a.axis.toList := by simp [hsplit]
      have hp := Std.ExtTreeMap.mem_toList_iff_getElem?_eq_some.mp hmem
      obtain ⟨e, he, rfl, rfl⟩ := h.registered ⟨a, ha, hr, hp⟩
      apply ends_release h he
      have hnodup := (nodup_toList a.axis).of_map
      rw [hsplit, List.nodup_append] at hnodup
      intro hl
      exact hnodup.2.2 _ hl _ List.mem_cons_self rfl
    refine hloop.mono (fun _ t ht => ?_) fun _ _ h => h
    subst ht
    have hheld {e : AxisEntry} (hk : (e.keyword, e.ptr) ∈ a.axis.toList) : w.Holds o e.keyword e.ptr :=
      ⟨a, ha, Std.ExtTreeMap.mem_toList_iff_getElem?_eq_some.mp hk⟩
    refine turn_shrink h rfl rfl others_erase List.filter_sublist (fun h' => absurd h' hgone) ?_ ?_
    · rintro o' e he ⟨b, hb, hp⟩
      refine List.mem_filter.mpr ⟨he, ?_⟩
      simp only [leaves, decide_eq_true_eq]
      intro hk hsole
      have hne : o' ≠ o := by
        rintro rfl
        simp at hb
      refine (h.sole_iff he (hheld hk)).mp hsole ⟨o', hne, b, ?_, hp⟩
      rw [← hb]
      exact (others_erase o' (by simpa using hne)).symm
    · intro e he
      obtain ⟨he, hleaves⟩ := List.mem_filter.mp he
      by_cases ho : w.Holds o e.keyword e.ptr
      · simp only [leaves, decide_eq_true_eq] at hleaves
        obtain ⟨b, hb, hp⟩ := id ho
        obtain rfl : a = b := Option.some.inj (ha.symm.trans hb)
        have hshared := hleaves (Std.ExtTreeMap.mem_toList_iff_getElem?_eq_some.mpr hp)
        rw [h.sole_iff he ho, not_not] at hshared
        exact hshared
      · exact h.used_elsewhere he ho
  · intro hr
    refine turn_shrink h rfl rfl others_erase (List.Sublist.refl _) ?_ (fun he _ => he) ?_
    · rintro readOnly keyword p ⟨b, hb, -⟩
      simp at hb
    · intro e he
      apply h.used_elsewhere he
      rintro ⟨b, hb, hp⟩
      obtain rfl : a = b := Option.some.inj (ha.symm.trans hb)
      exact h.unregistered ⟨a, ha, by simpa using hr, hp⟩ he rfl

end Release

end Operations

end AxisHeap

namespace AxisOp

open AxisHeap

variable {bucket : AxisValues → Nat} {w : AxisHeap} {ops : List AxisOp}

/-- The operation shares no set outside the registry, and no registered set with an axis that does not release it. -/
def Sound (w : AxisHeap) : AxisOp → Prop
  | merge o other => ∀ a, w.objects[o]? = some a → a.readOnly = false →
    ∀ keyword p, w.Holds other keyword p → ∃ q, w.Holds o keyword q
  | moveAssign o _ => ∀ keyword p, w.HoldsAs true o keyword p → ∃ o' ≠ o, w.Holds o' keyword p
  | decodeNew _ _ stream => stream.Whole ∨ stream.axes = []
  | decode o version stream => ∀ a, w.objects[o]? = some a → (3 ≤ version → a.axis.isEmpty = true) →
    stream.Bare ∨ stream.Whole ∧ a.readOnly = true ∧ ∀ keyword ∈ stream.axes.map Prod.fst, a.axis[keyword]? = none
  | _ => True

/-- The operation changes the values of its receivers, keeps one registered set for each content, each in use, and
lets its object go if it is a destructor. -/
structure Keeps (bucket : AxisValues → Nat) (op : AxisOp) (w w' : AxisHeap) : Prop where
  values : ∀ o ∉ op.receivers, ∀ keyword, w'.values o keyword = w.values o keyword
  distinct : ∀ e ∈ w'.registry, ∀ e' ∈ w'.registry, e.keyword = e'.keyword → w'.sets e.ptr = w'.sets e'.ptr → e = e'
  used : ∀ e ∈ w'.registry, ∃ o, w'.Holds o e.keyword e.ptr
  returns : ∀ o, op = destroy o → w.objects[o]? ≠ none → ((op.run bucket).run w) = .ok () w'

/-- One operation, whether it returns or throws. -/
theorem ends_run (op : AxisOp) (h : w.Interned) (hs : op.Sound w) :
    Ends (op.run bucket) w (fun _ => Turn op.receivers w) fun _ => Turn op.receivers w := by
  cases op with
  | create o => exact ends_create h
  | decodeNew o version stream => exact ends_decodeNew h hs
  | decode o version stream => exact ends_decode h hs
  | moveNew o rhs => exact ends_moveNew h
  | moveAssign o rhs => exact ends_moveAssign h hs
  | insert o key => exact ends_insert h
  | sort o => exact ends_sort h
  | wipe o => exact ends_wipe h
  | merge o other => exact ends_merge h hs
  | destroy o =>
    cases ho : w.objects[o]? with
    | some a => exact (ends_destroy h ho).mono (fun _ _ ht => ht) fun _ _ ht => ht.elim
    | none =>
      rw [run, AxisHeap.destroy, ends_bind, ends_object]
      exact ⟨fun a ha => absurd (ho.symm.trans ha) (by simp), fun _ => .refl h⟩

theorem keeps_step (op : AxisOp) (h : w.Interned) (hs : op.Sound w) :
    Keeps bucket op w (final ((op.run bucket).run w)) := by
  have hturn : Turn op.receivers w (final ((op.run bucket).run w)) := (ends_run op h hs).final
  have hi := hturn.interned
  constructor
  · intro o ho keyword
    exact hturn.values ho keyword
  · intro e he e' he' hk hv
    exact hi.distinct he he' hk (((hi.current he).symm.trans hv).trans (hi.current he'))
  · intro e he
    exact hi.used he
  · rintro o rfl ho
    obtain ⟨a, ha⟩ := Option.ne_none_iff_exists'.mp ho
    have hends : Ends (AxisHeap.destroy bucket o) w (fun _ => Turn [o] w) fun _ _ => False := ends_destroy h ha
    obtain ⟨_, t, ht, -⟩ := hends.returns
    change (AxisHeap.destroy bucket o).run w = .ok () (final ((AxisHeap.destroy bucket o).run w))
    rw [ht, final_ok]

/-- The heap after the operations, each of which may return or throw. -/
def after (bucket : AxisValues → Nat) (ops : List AxisOp) : AxisHeap :=
  ops.foldl (fun w op => final ((op.run bucket).run w)) {}

/-- Each operation of a program is one that shares sets as it may. -/
def SoundRun (bucket : AxisValues → Nat) (ops : List AxisOp) : Prop :=
  ∀ done op rest, ops = done ++ op :: rest → op.Sound (after bucket done)

def KeepsRun (bucket : AxisValues → Nat) (ops : List AxisOp) : Prop :=
  ∀ done op rest, ops = done ++ op :: rest → Keeps bucket op (after bucket done) (after bucket (done ++ [op]))

theorem after_append (op : AxisOp) :
    after bucket (ops ++ [op]) = final ((op.run bucket).run (after bucket ops)) := by
  rw [after, List.foldl_append]
  rfl

theorem interned_after (h : SoundRun bucket ops) : (after bucket ops).Interned := by
  induction ops using List.reverseRecOn with
  | nil => exact interned_empty
  | append_singleton ops op ih =>
    have hdone : (after bucket ops).Interned := by
      apply ih
      intro done op' rest hops
      exact h done op' (rest ++ [op]) (by simp [hops])
    rw [after_append]
    exact (ends_run op hdone (h ops op [] rfl)).final.interned

/-- In a program of such operations, an axis's values are changed by operations on the axis itself. -/
theorem sharing_kept (h : SoundRun bucket ops) : KeepsRun bucket ops := by
  intro done op rest hops
  rw [after_append]
  apply keeps_step op
  · apply interned_after
    intro done' op' rest' hdone
    exact h done' op' (rest' ++ op :: rest) (by simp [hops, hdone])
  · exact h done op rest hops

section Sample

/-- The axes of an index with one step. -/
def stepAxes (step : String) : AxisStream := { axes := [("step", (∅ : AxisValues).insert step)] }

/-- Two indexes that are read, whose axes a visitor collects. -/
def visitAxes : List AxisOp :=
  [create 0, decode 0 3 (stepAxes "0"), create 1, decode 1 3 (stepAxes "6"), create 2, merge 2 0, merge 2 1]

/-- Axes that are read and dropped again, and others whose stream is cut in their first values. -/
def readAxes : List AxisOp :=
  [decodeNew 0 3 (stepAxes "0"), decodeNew 1 3 (stepAxes "0"),
    decodeNew 2 3 { axes := [], stops := some (some ("step", ∅), .exception "Short stream") }, destroy 0, destroy 1]

theorem sharing_kept_decoded : KeepsRun Std.ExtTreeSet.size readAxes := by
  apply sharing_kept
  intro done op rest hops
  have hop : op ∈ readAxes := by simp [hops]
  simp only [readAxes, List.mem_cons, List.not_mem_nil, or_false] at hop
  rcases hop with rfl | rfl | rfl | rfl | rfl
  · exact .inl ⟨rfl, by simp [stepAxes]⟩
  · exact .inl ⟨rfl, by simp [stepAxes]⟩
  · exact .inr rfl
  · exact trivial
  · exact trivial

/-- A set that is registered before the constructor throws stays there without a user. -/
example : (after Std.ExtTreeSet.size
    [decodeNew 0 3 { stepAxes "0" with stops := some (none, .seriousBug "field is not recognized") }]).registry.length = 1 :=
  rfl

/-- The second merge changes the axis of the first index, whose set the visitor's axis shares. -/
theorem merge_changes_other : ¬ ∀ bucket ops, KeepsRun bucket ops := by
  intro h
  have hvalues := (h Std.ExtTreeSet.size visitAxes (visitAxes.take 6) (merge 2 1) [] rfl).values 0 (by decide) "step"
  have hbefore : ((after Std.ExtTreeSet.size (visitAxes.take 6)).values 0 "step").map (·.contains "6") = some false :=
    rfl
  have hafter : ((after Std.ExtTreeSet.size (visitAxes.take 6 ++ [merge 2 1])).values 0 "step").map (·.contains "6") =
    some true := rfl
  rw [hvalues, hbefore] at hafter
  exact absurd hafter (by decide)

end Sample

end AxisOp

end Fdb5
