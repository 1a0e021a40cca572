import Mathlib.Data.List.Nodup

/-! Tries that only grow, with their nodes in the cells of a heap. -/
namespace Trie

/-- What a node has a list of: an edge to a node, or a datum that ends here. -/
inductive Entry (ι δ : Type) where
  | branch (label : ι) (address : Nat)
  | leaf (label : ι) (datum : δ)

abbrev Heap (ι δ : Type) := List (List (Entry ι δ))

variable {ι δ : Type} {h : Heap ι δ} {l l' : ι} {a b x n : Nat} {d : δ} {p q ls : List ι}

def entries (h : Heap ι δ) (a : Nat) : List (Entry ι δ) := h[a]?.getD []

def branchLabel : Entry ι δ → Option ι
  | .branch l _ => some l
  | .leaf _ _ => none

/-- A new entry in a node. -/
def put (h : Heap ι δ) (a : Nat) (e : Entry ι δ) : Heap ι δ := h.modify a (· ++ [e])

/-- A new node, below another one. -/
def link (h : Heap ι δ) (a : Nat) (l : ι) : Heap ι δ := put (h ++ [[]]) a (.branch l h.length)

section Entries

variable {e : Entry ι δ}

theorem entries_put_self (ha : a < h.length) : entries (put h a e) a = entries h a ++ [e] := by
  simp [entries, put, ha]

theorem entries_put_ne (hb : b ≠ a) : entries (put h a e) b = entries h b := by
  simp [entries, put, Ne.symm hb]

@[simp] theorem length_put : (put h a e).length = h.length := by simp [put]

@[simp] theorem length_link : (link h a l).length = h.length + 1 := by simp [link]

theorem entries_fresh : entries (h ++ [[]]) a = entries h a := by
  unfold entries
  by_cases ha : a < h.length
  · rw [List.getElem?_append_left ha]
  · rw [List.getElem?_eq_none (Nat.le_of_not_lt ha)]
    by_cases hl : a = h.length
    · simp [hl]
    · rw [List.getElem?_eq_none]
      simp only [List.length_append, List.length_singleton]
      omega

theorem entries_link_self (ha : a < h.length) : entries (link h a l) a = entries h a ++ [.branch l h.length] := by
  rw [link, entries_put_self, entries_fresh]
  simp only [List.length_append, List.length_singleton]
  omega

theorem entries_link_ne (hb : b ≠ a) : entries (link h a l) b = entries h b := by
  rw [link, entries_put_ne hb, entries_fresh]

theorem entries_length : entries h h.length = [] := by simp [entries]

end Entries

variable [DecidableEq ι]

def child? (l : ι) (es : List (Entry ι δ)) : Option Nat :=
  es.findSome? fun
    | .branch l' b => if l' = l then some b else none
    | .leaf _ _ => none

def dataAt (l : ι) (es : List (Entry ι δ)) : List δ :=
  es.filterMap fun
    | .branch _ _ => none
    | .leaf l' d => if l' = l then some d else none

/-- The node that a path leads to. -/
def walk (h : Heap ι δ) : Nat → List ι → Option Nat
  | a, [] => some a
  | a, l :: ls =>
    match child? l (entries h a) with
    | some b => walk h b ls
    | none => none

/-- The data at the end of a path, in the order in which they were put there. -/
def stored (h : Heap ι δ) : Nat → List ι → List δ
  | _, [] => []
  | a, [l] => dataAt l (entries h a)
  | a, l :: ls =>
    match child? l (entries h a) with
    | some b => stored h b ls
    | none => []

theorem walk_nil : walk h a [] = some a := rfl

theorem walk_cons : walk h a (l :: ls) = (child? l (entries h a)).bind fun b => walk h b ls := by
  rw [walk]
  cases child? l (entries h a) <;> rfl

theorem walk_append : walk h a (p ++ q) = (walk h a p).bind fun b => walk h b q := by
  induction p generalizing a with
  | nil => rfl
  | cons l p ih =>
    rw [List.cons_append, walk_cons, walk_cons]
    cases child? l (entries h a) with
    | none => rfl
    | some b => exact ih

theorem walk_concat (hw : walk h a p = some b) : walk h a (p ++ [l]) = child? l (entries h b) := by
  rw [walk_append, hw, Option.bind_some, walk_cons]
  cases child? l (entries h b) <;> rfl

theorem stored_concat : stored h a (p ++ [l]) = ((walk h a p).map fun b => dataAt l (entries h b)).getD [] := by
  induction p generalizing a with
  | nil => rfl
  | cons l' p ih =>
    cases hp : p ++ [l] with
    | nil => simp at hp
    | cons l'' ls =>
      rw [List.cons_append, hp, stored, walk_cons]
      · cases child? l' (entries h a) with
        | none => rfl
        | some b => exact (hp ▸ ih :)
      · simp

/-- Nothing is stored below an edge that is not there. -/
theorem stored_of_child_none (hw : walk h a p = some b) (hnone : child? l (entries h b) = none) (hq : q ≠ []) :
    stored h a (p ++ l :: q) = [] := by
  rcases List.eq_nil_or_concat q with rfl | ⟨q, l', rfl⟩
  · exact absurd rfl hq
  · have hsplit : p ++ l :: q.concat l' = (p ++ l :: q) ++ [l'] := by simp
    rw [hsplit, stored_concat, walk_append, hw, Option.bind_some, walk_cons, hnone]
    rfl

section Children

variable {es : List (Entry ι δ)} {e : Entry ι δ}

theorem child?_mem (hc : child? l es = some b) : .branch l b ∈ es := by
  obtain ⟨e, he, hb⟩ := List.exists_of_findSome?_eq_some hc
  cases e with
  | leaf l' d => cases hb
  | branch l' b' =>
    by_cases hl : l' = l
    · simp only [hl, if_true, Option.some.injEq] at hb
      rwa [hl, hb] at he
    · simp [hl] at hb

theorem child?_eq_none : child? l es = none ↔ ∀ b, .branch l b ∉ es := by
  constructor
  · intro hc b hb
    have hnone := List.findSome?_eq_none_iff.mp hc _ hb
    simp at hnone
  · intro hno
    cases hc : child? l es with
    | none => rfl
    | some b => exact absurd (child?_mem hc) (hno b)

/-- With one branch of a label, that is the child. -/
theorem child?_of_mem (hu : (es.filterMap branchLabel).Nodup) (hb : .branch l b ∈ es) : child? l es = some b := by
  induction es with
  | nil => cases hb
  | cons e es ih =>
    cases e with
    | leaf l' d => exact ih hu (by simpa using hb)
    | branch l' b' =>
      have hcons : (l' :: es.filterMap branchLabel).Nodup := hu
      rw [List.nodup_cons] at hcons
      rcases List.mem_cons.mp hb with hb | hb
      · cases hb
        simp [child?]
      · have hne : ¬ l' = l := by
          rintro rfl
          exact hcons.1 (List.mem_filterMap.mpr ⟨_, hb, rfl⟩)
        rw [child?, List.findSome?_cons]
        simp only [hne, if_false]
        exact ih hcons.2 hb

theorem child?_put_leaf : child? l (es ++ [.leaf l' d]) = child? l es := by
  simp [child?, List.findSome?_append]

theorem child?_put_branch (hnone : child? l' es = none) :
    child? l (es ++ [.branch l' b]) = if l' = l then some b else child? l es := by
  by_cases hl : l' = l
  · subst hl
    rw [child?, List.findSome?_append]
    rw [child?] at hnone
    simp [hnone]
  · simp [child?, List.findSome?_append, hl]

theorem dataAt_put_leaf : dataAt l (es ++ [.leaf l' d]) = dataAt l es ++ if l' = l then [d] else [] := by
  by_cases hl : l' = l <;> simp [dataAt, hl]

theorem dataAt_put_branch : dataAt l (es ++ [.branch l' b]) = dataAt l es := by simp [dataAt]

end Children

section WellFormed

/-- A heap whose cells are the nodes of one trie, with its root in the first. -/
structure WellFormed (h : Heap ι δ) : Prop where
  root : 0 < h.length
  unique : ∀ a, ((entries h a).filterMap branchLabel).Nodup
  above : ∀ a l b, .branch l b ∈ entries h a → a < b ∧ b < h.length
  apart : ∀ p q b, walk h 0 p = some b → walk h 0 q = some b → p = q

theorem WellFormed.child_of_mem (hw : WellFormed h) (hb : .branch l b ∈ entries h a) : child? l (entries h a) = some b :=
  child?_of_mem (hw.unique a) hb

theorem WellFormed.walk_lt (hw : WellFormed h) (ha : a < h.length) (hp : walk h a p = some b) : b < h.length := by
  induction p generalizing a with
  | nil =>
    cases hp
    exact ha
  | cons l p ih =>
    rw [walk_cons] at hp
    obtain ⟨c, hc, hp⟩ := Option.bind_eq_some_iff.mp hp
    exact ih (hw.above a l c (child?_mem hc)).2 hp

theorem wellFormed_singleton : WellFormed ([[]] : Heap ι δ) := by
  have hentries (a : Nat) : entries ([[]] : Heap ι δ) a = [] := by
    cases a <;> simp [entries]
  have hwalk {p : List ι} {b : Nat} (hp : walk ([[]] : Heap ι δ) 0 p = some b) : p = [] := by
    cases p with
    | nil => rfl
    | cons l p =>
      rw [walk_cons, hentries] at hp
      cases hp
  refine ⟨by simp, fun a => ?_, fun a l b hb => ?_, fun p q b hp hq => ?_⟩
  · simp [hentries]
  · simp [hentries] at hb
  · rw [hwalk hp, hwalk hq]

theorem child?_entries_put_leaf : child? l (entries (put h a (.leaf l' d)) x) = child? l (entries h x) := by
  by_cases hx : x = a
  · subst hx
    by_cases hlen : x < h.length
    · rw [entries_put_self hlen, child?_put_leaf]
    · simp [entries, put, hlen]
  · rw [entries_put_ne hx]

/-- A datum leads nowhere. -/
theorem walk_put_leaf : walk (put h a (.leaf l d)) x p = walk h x p := by
  induction p generalizing x with
  | nil => rfl
  | cons l' p ih =>
    rw [walk_cons, walk_cons, child?_entries_put_leaf]
    simp only [ih]

theorem WellFormed.put_leaf (hw : WellFormed h) : WellFormed (put h a (.leaf l d)) := by
  have hbranch {e : Entry ι δ} {x : Nat} (he : e ∈ entries (put h a (.leaf l d)) x) :
      e ∈ entries h x ∨ e = .leaf l d := by
    by_cases hx : x = a
    · subst hx
      by_cases hlen : x < h.length
      · rw [entries_put_self hlen] at he
        simpa using he
      · simp [entries, put, hlen] at he
    · exact .inl (by rwa [entries_put_ne hx] at he)
  constructor
  · rw [length_put]
    exact hw.root
  · intro x
    by_cases hx : x = a
    · subst hx
      by_cases hlen : x < h.length
      · rw [entries_put_self hlen, List.filterMap_append]
        exact (List.append_nil _).symm ▸ hw.unique x
      · simp [entries, put, hlen]
    · rw [entries_put_ne hx]
      exact hw.unique x
  · intro x l' b hb
    rw [length_put]
    rcases hbranch hb with hb | hb
    · exact hw.above x l' b hb
    · cases hb
  · intro p q b hp hq
    rw [walk_put_leaf] at hp hq
    exact hw.apart p q b hp hq

theorem stored_put_leaf (hw : WellFormed h) (hq : walk h 0 q = some a) :
    stored (put h a (.leaf l d)) 0 p = stored h 0 p ++ if p = q ++ [l] then [d] else [] := by
  rcases List.eq_nil_or_concat p with rfl | ⟨p, l', rfl⟩
  · simp [stored]
  · rw [List.concat_eq_append, stored_concat, stored_concat, walk_put_leaf]
    have hlen := hw.walk_lt hw.root hq
    cases hp : walk h 0 p with
    | none =>
      have hne : ¬ p ++ [l'] = q ++ [l] := by
        intro heq
        rw [(List.append_inj' heq rfl).1, hq] at hp
        cases hp
      simp [hne]
    | some b =>
      by_cases hb : b = a
      · subst hb
        obtain rfl := hw.apart p q b hp hq
        simp [entries_put_self hlen, dataAt_put_leaf, eq_comm]
      · have hne : ¬ p ++ [l'] = q ++ [l] := by
          intro heq
          rw [(List.append_inj' heq rfl).1, hq] at hp
          exact hb (Option.some.inj hp).symm
        simp [entries_put_ne hb, hne]

theorem child?_entries_link (ha : a < h.length) (hnone : child? l (entries h a) = none) :
    child? l' (entries (link h a l) x) =
      if x = a ∧ l' = l then some h.length else child? l' (entries h x) := by
  by_cases hx : x = a
  · subst hx
    rw [entries_link_self ha, child?_put_branch hnone]
    simp [eq_comm]
  · rw [entries_link_ne hx, if_neg fun h => hx h.1]

/-- A new node is found below the one it was put in, and nothing else changes. -/
theorem WellFormed.walk_link (hw : WellFormed h) (ha : a < h.length) (hnone : child? l (entries h a) = none)
    (hx : x < h.length) : walk (link h a l) x p = some b ↔
      walk h x p = some b ∨ b = h.length ∧ ∃ q, walk h x q = some a ∧ p = q ++ [l] := by
  induction p generalizing x with
  | nil => simp [walk_nil]
  | cons l' p ih =>
    rw [walk_cons, walk_cons, child?_entries_link ha hnone]
    by_cases hnew : x = a ∧ l' = l
    · obtain ⟨rfl, rfl⟩ := hnew
      have hend : walk (link h x l') h.length p = some b ↔ b = h.length ∧ p = [] := by
        cases p with
        | nil => simp [walk_nil, eq_comm]
        | cons l p =>
          rw [walk_cons, entries_link_ne (Nat.ne_of_gt hx), entries_length]
          simp [child?]
      rw [if_pos ⟨rfl, rfl⟩, Option.bind_some, hend, hnone]
      constructor
      · rintro ⟨hb, rfl⟩
        exact .inr ⟨hb, [], rfl, rfl⟩
      · rintro (hb | ⟨hb, q, hq, hp⟩)
        · cases hb
        · cases q with
          | nil => exact ⟨hb, by simpa using hp⟩
          | cons l q =>
            obtain ⟨rfl, -⟩ := List.cons.inj hp
            rw [walk_cons, hnone] at hq
            cases hq
    · rw [if_neg hnew]
      have hsplit : (∃ q, walk h x q = some a ∧ l' :: p = q ++ [l]) ↔
          ∃ c, child? l' (entries h x) = some c ∧ ∃ q, walk h c q = some a ∧ p = q ++ [l] := by
        constructor
        · rintro ⟨q, hq, hp⟩
          cases q with
          | nil =>
            obtain ⟨rfl, -⟩ := List.cons.inj hp
            exact absurd ⟨Option.some.inj hq, rfl⟩ hnew
          | cons l q =>
            rw [List.cons_append, List.cons.injEq] at hp
            obtain ⟨rfl, hp⟩ := hp
            rw [walk_cons] at hq
            obtain ⟨c, hc, hq⟩ := Option.bind_eq_some_iff.mp hq
            exact ⟨c, hc, q, hq, hp⟩
        · rintro ⟨c, hc, q, hq, rfl⟩
          exact ⟨l' :: q, by rw [walk_cons, hc, Option.bind_some, hq], rfl⟩
      rw [hsplit]
      cases hc : child? l' (entries h x) with
      | none => simp
      | some c =>
        rw [Option.bind_some, Option.bind_some, ih (hw.above x l' c (child?_mem hc)).2]
        simp

theorem WellFormed.link (hw : WellFormed h) (ha : a < h.length) (hnone : child? l (entries h a) = none) :
    WellFormed (link h a l) := by
  constructor
  · rw [length_link]
    omega
  · intro x
    by_cases hx : x = a
    · subst hx
      rw [entries_link_self ha, List.filterMap_append]
      refine List.Nodup.append (hw.unique x) (by simp [branchLabel]) ?_
      intro l' hl' hl
      obtain rfl : l' = l := by simpa [branchLabel] using hl
      obtain ⟨e, he, hel⟩ := List.mem_filterMap.mp hl'
      cases e with
      | leaf l d => cases hel
      | branch l b =>
        cases hel
        exact child?_eq_none.mp hnone b he
    · rw [entries_link_ne hx]
      exact hw.unique x
  · intro x l' b hb
    rw [length_link]
    by_cases hx : x = a
    · subst hx
      rw [entries_link_self ha] at hb
      rcases List.mem_append.mp hb with hb | hb
      · have := hw.above x l' b hb
        omega
      · cases List.mem_singleton.mp hb
        omega
    · rw [entries_link_ne hx] at hb
      have := hw.above x l' b hb
      omega
  · intro p q b hp hq
    rcases (hw.walk_link ha hnone hw.root).mp hp with hp | ⟨rfl, p', hp', rfl⟩
    · rcases (hw.walk_link ha hnone hw.root).mp hq with hq | ⟨rfl, q', hq', rfl⟩
      · exact hw.apart p q b hp hq
      · exact absurd (hw.walk_lt hw.root hp) (by omega)
    · rcases (hw.walk_link ha hnone hw.root).mp hq with hq | ⟨-, q', hq', rfl⟩
      · exact absurd (hw.walk_lt hw.root hq) (by omega)
      · rw [hw.apart p' q' a hp' hq']

/-- A new node has no data. -/
theorem stored_link (hw : WellFormed h) (ha : a < h.length) (hnone : child? l (entries h a) = none) :
    stored (link h a l) 0 p = stored h 0 p := by
  rcases List.eq_nil_or_concat p with rfl | ⟨p, l', rfl⟩
  · rfl
  · rw [List.concat_eq_append, stored_concat, stored_concat]
    have hdata (b : Nat) : dataAt l' (entries (link h a l) b) = dataAt l' (entries h b) := by
      by_cases hb : b = a
      · subst hb
        rw [entries_link_self ha, dataAt_put_branch]
      · rw [entries_link_ne hb]
    cases hp : walk h 0 p with
    | some b =>
      rw [(hw.walk_link ha hnone hw.root).mpr (.inl hp)]
      simp [hdata]
    | none =>
      cases hp' : walk (link h a l) 0 p with
      | none => rfl
      | some b =>
        rcases (hw.walk_link ha hnone hw.root).mp hp' with hb | ⟨rfl, -⟩
        · simp [hp] at hb
        · rw [Option.map_some, Option.getD_some, hdata, entries_length]
          rfl

end WellFormed

section Leaves

/-- Every datum below a node with its path, the newer ones of a node first. -/
def leaves (h : Heap ι δ) : Nat → Nat → List (List ι × δ)
  | 0, _ => []
  | n + 1, a =>
    (entries h a).reverse.filterMap (fun
      | .branch _ _ => none
      | .leaf l d => some ([l], d)) ++
    (entries h a).reverse.flatMap fun
      | .branch l b => (leaves h n b).map fun pd => (l :: pd.1, pd.2)
      | .leaf _ _ => []

/-- Of all branches only the child of a label can have something under that label. -/
theorem flatMap_child {f : Nat → List δ} {es : List (Entry ι δ)} (hu : (es.filterMap branchLabel).Nodup) :
    (es.reverse.flatMap fun
      | .branch l' b => if l' = l then f b else []
      | .leaf _ _ => []) = ((child? l es).map f).getD [] := by
  induction es with
  | nil => rfl
  | cons e es ih =>
    rw [List.reverse_cons, List.flatMap_append, List.flatMap_singleton]
    cases e with
    | leaf l' d => simpa [child?] using ih hu
    | branch l' b =>
      have hcons : (l' :: es.filterMap branchLabel).Nodup := hu
      rw [List.nodup_cons] at hcons
      rw [ih hcons.2]
      by_cases hl : l' = l
      · subst hl
        have hnone : child? l' es = none := by
          apply child?_eq_none.mpr
          intro c hc
          exact hcons.1 (List.mem_filterMap.mpr ⟨_, hc, rfl⟩)
        rw [hnone]
        simp [child?]
      · simp [child?, hl]

theorem filter_own {es : List (Entry ι δ)} : ((es.filterMap fun
      | .branch _ _ => none
      | .leaf l d => some ([l], d)).filter fun pd : List ι × δ => pd.1 = p).map Prod.snd =
    match p with
    | [l] => dataAt l es
    | _ => [] := by
  induction es with
  | nil => rcases p with - | ⟨l, - | ⟨l', p⟩⟩ <;> rfl
  | cons e es ih =>
    cases e with
    | branch l' b => simpa [dataAt] using ih
    | leaf l' d =>
      rcases p with - | ⟨l, - | ⟨l'', p⟩⟩
      · simpa using ih
      · by_cases hl : l' = l
        · simpa [hl, dataAt] using ih
        · simpa [hl, dataAt] using ih
      · simpa using ih

theorem dataAt_reverse {es : List (Entry ι δ)} : dataAt l es.reverse = (dataAt l es).reverse := by
  rw [dataAt, List.filterMap_reverse]
  rfl

theorem stored_cons_cons : stored h a (l :: l' :: ls) =
    ((child? l (entries h a)).map fun b => stored h b (l' :: ls)).getD [] := by
  rw [stored]
  · cases child? l (entries h a) <;> rfl
  · simp

/-- Under each path, all that was put there and nothing else, the newest first. -/
theorem WellFormed.leaves_filter (hw : WellFormed h) (ha : a < h.length) (hn : h.length ≤ n + a) :
    ((leaves h n a).filter fun pd => pd.1 = p).map Prod.snd = (stored h a p).reverse := by
  induction n generalizing a p with
  | zero => omega
  | succ n ih =>
    have hbelow : (((entries h a).reverse.flatMap fun
        | .branch l b => (leaves h n b).map fun pd => (l :: pd.1, pd.2)
        | .leaf _ _ => []).filter fun pd => pd.1 = p).map Prod.snd =
        match p with
        | [] => []
        | l :: ls => ((child? l (entries h a)).map fun b => (stored h b ls).reverse).getD [] := by
      rw [List.filter_flatMap, List.map_flatMap]
      cases p with
      | nil =>
        refine List.flatMap_eq_nil_iff.mpr fun e _ => ?_
        cases e <;> simp [List.filter_map, Function.comp_def]
      | cons l ls =>
        apply Eq.trans _ (flatMap_child (hw.unique a))
        refine List.flatMap_congr fun e he => ?_
        cases e with
        | leaf l' d => rfl
        | branch l' b =>
          by_cases hl : l' = l
          · obtain ⟨hab, hb⟩ := hw.above a l' b (List.mem_reverse.mp he)
            have hrest := @ih b ls hb (by omega)
            simp only [hl, if_true]
            rw [← hrest, List.filter_map, List.map_map]
            simp [Function.comp_def]
          · simp [hl, List.filter_map, Function.comp_def]
    rw [leaves, List.filter_append, List.map_append, hbelow, filter_own]
    rcases p with - | ⟨l, - | ⟨l', ls⟩⟩
    · rfl
    · simp only [stored, ← dataAt_reverse]
      cases child? l (entries h a) <;> exact List.append_nil _
    · rw [stored_cons_cons]
      change (Option.map _ _).getD _ = _
      cases child? l (entries h a) <;> rfl

end Leaves

end Trie
