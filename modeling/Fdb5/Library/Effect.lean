import Mathlib.Control.Basic

/-! Computations whose state survives an exception: what they can end in. -/
namespace Effect

variable {ε σ α β : Type}

/-- Started in `s`, the computation returns into `Q` or throws into `E`. -/
def Ends (x : EStateM ε σ α) (s : σ) (Q : α → σ → Prop) (E : ε → σ → Prop) : Prop :=
  match x.run s with
  | .ok a t => Q a t
  | .error e t => E e t

/-- The state left behind, whether the computation returned or threw. -/
def final : EStateM.Result ε σ α → σ
  | .ok _ t => t
  | .error _ t => t

/-- What a computation returned or threw. -/
def value : EStateM.Result ε σ α → Except ε α
  | .ok a _ => .ok a
  | .error e _ => .error e

@[simp] theorem value_ok (a : α) (t : σ) : value (.ok a t : EStateM.Result ε σ α) = .ok a := rfl
@[simp] theorem value_error (e : ε) (t : σ) :
    value (.error e t : EStateM.Result ε σ α) = .error e := rfl
theorem value_eq_ok {r : EStateM.Result ε σ α} {a : α} : value r = .ok a ↔ ∃ t, r = .ok a t := by
  cases r <;> simp

@[simp] theorem final_ok (a : α) (t : σ) : final (.ok a t : EStateM.Result ε σ α) = t := rfl
@[simp] theorem final_error (e : ε) (t : σ) :
    final (.error e t : EStateM.Result ε σ α) = t := rfl

section Rules

variable {s : σ} {Q Q' : α → σ → Prop} {E E' : ε → σ → Prop}

theorem ends_iff {x : EStateM ε σ α} : Ends x s Q E ↔
    (∀ a t, x.run s = .ok a t → Q a t) ∧ (∀ e t, x.run s = .error e t → E e t) := by
  unfold Ends
  cases h : x.run s <;> simp

theorem ends_run_ok {x : EStateM ε σ α} {a : α} {t : σ} (h : x.run s = .ok a t) : Ends x s Q E ↔ Q a t := by
  unfold Ends
  rw [h]

theorem Ends.ok {x : EStateM ε σ α} {a : α} {t : σ} (h : Ends x s Q E)
    (hx : x.run s = .ok a t) : Q a t := (ends_iff.mp h).1 a t hx

theorem Ends.error {x : EStateM ε σ α} {e : ε} {t : σ} (h : Ends x s Q E)
    (hx : x.run s = .error e t) : E e t := (ends_iff.mp h).2 e t hx

theorem Ends.returns {x : EStateM ε σ α} (h : Ends x s Q fun _ _ => False) :
    ∃ a t, x.run s = .ok a t ∧ Q a t := by
  unfold Ends at h
  cases hx : x.run s with
  | ok a t => exact ⟨a, t, rfl, by simpa [hx] using h⟩
  | error e t => simp [hx] at h

theorem Ends.final {x : EStateM ε σ α} {P : σ → Prop} (h : Ends x s (fun _ => P) fun _ => P) :
    P (final (x.run s)) := by
  unfold Ends at h
  cases hx : x.run s <;> simpa [hx] using h

theorem Ends.value {x : EStateM ε σ α} {r : Except ε α}
    (h : Ends x s (fun a _ => .ok a = r) fun e _ => .error e = r) : value (x.run s) = r := by
  unfold Ends at h
  cases hx : x.run s <;> simpa [hx] using h

theorem Ends.mono {x : EStateM ε σ α} (h : Ends x s Q E) (hQ : ∀ a t, Q a t → Q' a t)
    (hE : ∀ e t, E e t → E' e t) : Ends x s Q' E' :=
  ends_iff.mpr ⟨fun a t hx => hQ a t (h.ok hx), fun e t hx => hE e t (h.error hx)⟩

theorem Ends.and {x : EStateM ε σ α} (h : Ends x s Q E) (h' : Ends x s Q' E') :
    Ends x s (fun a t => Q a t ∧ Q' a t) fun e t => E e t ∧ E' e t :=
  ends_iff.mpr ⟨fun _ _ hx => ⟨h.ok hx, h'.ok hx⟩, fun _ _ hx => ⟨h.error hx, h'.error hx⟩⟩

@[simp] theorem ends_pure (a : α) : Ends (pure a : EStateM ε σ α) s Q E ↔ Q a s := Iff.rfl

@[simp] theorem ends_throw (e : ε) : Ends (throw e : EStateM ε σ α) s Q E ↔ E e s := Iff.rfl

@[simp] theorem ends_bind (x : EStateM ε σ α) (f : α → EStateM ε σ β) {Q : β → σ → Prop} :
    Ends (x >>= f) s Q E ↔ Ends x s (fun a t => Ends (f a) t Q E) E := by
  unfold Ends
  rw [EStateM.run_bind]
  cases x.run s <;> rfl

@[simp] theorem ends_map (x : EStateM ε σ α) (f : α → β) {Q : β → σ → Prop} :
    Ends (f <$> x) s Q E ↔ Ends x s (fun a t => Q (f a) t) E := by
  unfold Ends
  rw [map_eq_pure_bind, EStateM.run_bind]
  cases x.run s <;> rfl

@[simp] theorem ends_get {Q : σ → σ → Prop} :
    Ends (get : EStateM ε σ σ) s Q E ↔ Q s s := Iff.rfl

@[simp] theorem ends_set (t : σ) {Q : PUnit → σ → Prop} :
    Ends (set t : EStateM ε σ PUnit) s Q E ↔ Q ⟨⟩ t := Iff.rfl

@[simp] theorem ends_modify (f : σ → σ) {Q : PUnit → σ → Prop} :
    Ends (modify f : EStateM ε σ PUnit) s Q E ↔ Q ⟨⟩ (f s) := Iff.rfl

theorem run_tryCatch (x : EStateM ε σ α) (f : ε → EStateM ε σ α) (s : σ) : (tryCatch x f).run s =
    match x.run s with
    | .ok a t => .ok a t
    | .error e t => (f e).run t := by
  change EStateM.tryCatch x f s = _
  unfold EStateM.tryCatch EStateM.run
  cases x s <;> rfl

theorem ends_tryCatch (x : EStateM ε σ α) (f : ε → EStateM ε σ α) :
    Ends (tryCatch x f) s Q E ↔ Ends x s Q fun e t => Ends (f e) t Q E := by
  unfold Ends
  rw [run_tryCatch]
  cases x.run s <;> rfl

theorem ends_ite (c : Prop) [Decidable c] (x y : EStateM ε σ α) :
    Ends (if c then x else y) s Q E ↔ (c → Ends x s Q E) ∧ (¬ c → Ends y s Q E) := by
  by_cases h : c <;> simp [h]

theorem Ends.bind {x : EStateM ε σ α} {f : α → EStateM ε σ β} {P : α → σ → Prop} {Q : β → σ → Prop}
    (hx : Ends x s P E) (hf : ∀ a t, P a t → Ends (f a) t Q E) : Ends (x >>= f) s Q E := by
  rw [ends_bind]
  exact hx.mono hf fun _ _ h => h

/-- A loop that keeps `P` at every turn keeps it whatever turn it throws in. -/
theorem ends_forM {l : List α} {f : α → EStateM ε σ PUnit} {P : σ → Prop} {E : ε → σ → Prop}
    (h : ∀ a ∈ l, ∀ s, P s → Ends (f a) s (fun _ => P) E) :
    ∀ s, P s → Ends (l.forM f) s (fun _ => P) E := by
  induction l with
  | nil => intro s hs; exact hs
  | cons a l ih =>
    intro s hs
    change Ends (f a >>= fun _ => l.forM f) s _ _
    rw [ends_bind]
    refine (h a List.mem_cons_self s hs).mono (fun _ t ht => ?_) fun _ _ h => h
    exact ih (fun b hb => h b (List.mem_cons_of_mem a hb)) t ht

theorem ends_forM_append {l l' : List α} {f : α → EStateM ε σ PUnit} {Q : PUnit → σ → Prop}
    {E : ε → σ → Prop} : ∀ s, Ends ((l ++ l').forM f) s Q E ↔
      Ends (l.forM f) s (fun _ t => Ends (l'.forM f) t Q E) E := by
  induction l with
  | nil => exact fun _ => Iff.rfl
  | cons a l ih =>
    intro s
    change Ends (f a >>= fun _ => (l ++ l').forM f) s Q E ↔ Ends (f a >>= fun _ => l.forM f) s _ E
    simp only [ends_bind, ih]

/-- The same with a value carried from turn to turn. -/
theorem ends_foldlM {l : List α} {f : β → α → EStateM ε σ β} {P : β → σ → Prop}
    {E : ε → σ → Prop} (h : ∀ a ∈ l, ∀ b s, P b s → Ends (f b a) s P E) :
    ∀ b s, P b s → Ends (l.foldlM f b) s P E := by
  induction l with
  | nil => intro b s hs; exact hs
  | cons a l ih =>
    intro b s hs
    rw [List.foldlM_cons, ends_bind]
    refine (h a List.mem_cons_self b s hs).mono (fun c t ht => ?_) fun _ _ h => h
    exact ih (fun d hd => h d (List.mem_cons_of_mem a hd)) c t ht

/-- A loop whose invariant may look at the run that led to a turn. -/
theorem ends_foldlM_run {l : List α} {f : β → α → EStateM ε σ β} {b₀ : β} {s₀ : σ}
    {P : List α → β → σ → Prop} {E : ε → σ → Prop}
    (h : ∀ pre a post b s, l = pre ++ a :: post → (pre.foldlM f b₀).run s₀ = .ok b s → P pre b s →
      Ends (f b a) s (P (pre ++ [a])) E) (h₀ : P [] b₀ s₀) : Ends (l.foldlM f b₀) s₀ (P l) E := by
  have hrun : ∀ pre post b s, l = pre ++ post → (pre.foldlM f b₀).run s₀ = .ok b s → P pre b s →
      Ends (post.foldlM f b) s (P l) E := by
    intro pre post
    induction post generalizing pre with
    | nil =>
      rintro b s rfl - hs
      rw [List.append_nil]
      exact hs
    | cons a post ih =>
      intro b s hl hpre hs
      rw [List.foldlM_cons, ends_bind]
      refine ends_iff.mpr ⟨fun c t hc => ?_, fun e t hc => (h pre a post b s hl hpre hs).error hc⟩
      refine ih (pre ++ [a]) c t (by simp [hl]) ?_ ((h pre a post b s hl hpre hs).ok hc)
      rw [List.foldlM_append, EStateM.run_bind, hpre]
      simpa using hc
  exact hrun [] l b₀ s₀ rfl rfl h₀

/-- A loop whose invariant is about the elements it has been through. -/
theorem ends_forM_prefix {l : List α} {f : α → EStateM ε σ PUnit} {P : List α → σ → Prop}
    {E : ε → σ → Prop}
    (h : ∀ pre, ∀ a ∈ l, ∀ s, P pre s → Ends (f a) s (fun _ => P (pre ++ [a])) E) :
    ∀ pre s, P pre s → Ends (l.forM f) s (fun _ => P (pre ++ l)) E := by
  induction l with
  | nil => intro pre s hs; simpa using hs
  | cons a l ih =>
    intro pre s hs
    change Ends (f a >>= fun _ => l.forM f) s _ _
    rw [ends_bind, List.append_cons]
    refine (h pre a List.mem_cons_self s hs).mono (fun _ t ht => ?_) fun _ _ h => h
    exact ih (fun pre b hb => h pre b (List.mem_cons_of_mem a hb)) _ t ht

/-- The same where a turn may look at the elements before and after its own. -/
theorem ends_forM_split {l : List α} {f : α → EStateM ε σ PUnit} {P : List α → σ → Prop} {E : ε → σ → Prop}
    (h : ∀ pre a post, l = pre ++ a :: post → ∀ s, P pre s → Ends (f a) s (fun _ => P (pre ++ [a])) E) (hs : P [] s) :
    Ends (l.forM f) s (fun _ => P l) E := by
  have hrest : ∀ post pre, l = pre ++ post → ∀ s, P pre s → Ends (post.forM f) s (fun _ => P l) E := by
    intro post
    induction post with
    | nil =>
      rintro pre rfl s hs
      simpa using hs
    | cons a post ih =>
      intro pre hl s hs
      change Ends (f a >>= fun _ => post.forM f) s _ _
      rw [ends_bind]
      refine (h pre a post hl s hs).mono (fun _ t ht => ?_) fun _ _ h => h
      exact ih (pre ++ [a]) (by simp [hl]) t ht
  exact hrest l [] rfl s hs

end Rules

/-- A pure computation that may fail, run without touching the state. -/
def lift (x : Except ε α) : EStateM ε σ α := fun s =>
  match x with
  | .ok a => .ok a s
  | .error e => .error e s

@[simp] theorem ends_lift {x : Except ε α} {s : σ} {Q : α → σ → Prop} {E : ε → σ → Prop} :
    Ends (lift x) s Q E ↔ (∀ a, x = .ok a → Q a s) ∧ (∀ e, x = .error e → E e s) := by
  cases x <;> simp [Ends, lift, EStateM.run]

@[simp] theorem run_lift_ok (a : α) (s : σ) :
    (lift (.ok a : Except ε α)).run s = .ok a s := rfl

@[simp] theorem run_lift_error (e : ε) (s : σ) :
    (lift (.error e : Except ε α)).run s = .error e s := rfl

/-- A computation that leaves its state alone is a pure one. -/
theorem run_eq_lift {x : EStateM ε σ α} {s : σ} {r : Except ε α} :
    x.run s = (lift r).run s ↔
      Ends x s (fun a t => t = s ∧ r = .ok a) fun e t => t = s ∧ r = .error e := by
  unfold Ends
  cases hx : x.run s <;> cases r <;> simp [eq_comm, and_comm]

/-- A computation on a part of the state. -/
def focus {τ : Type} (part : σ → τ) (put : τ → σ → σ) (x : EStateM ε τ α) : EStateM ε σ α :=
  fun s => match x.run (part s) with
    | .ok a t => .ok a (put t s)
    | .error e t => .error e (put t s)

@[simp] theorem ends_focus {τ : Type} {part : σ → τ} {put : τ → σ → σ} {x : EStateM ε τ α} {s : σ}
    {Q : α → σ → Prop} {E : ε → σ → Prop} : Ends (focus part put x) s Q E ↔
      Ends x (part s) (fun a t => Q a (put t s)) fun e t => E e (put t s) := by
  simp only [Ends, focus, EStateM.run]
  cases x (part s) <;> rfl

abbrev onFst {τ : Type} (x : EStateM ε σ α) : EStateM ε (σ × τ) α :=
  focus Prod.fst (fun a s => (a, s.2)) x

abbrev onSnd {τ : Type} (x : EStateM ε τ α) : EStateM ε (σ × τ) α :=
  focus Prod.snd (fun b s => (s.1, b)) x

section Except

variable {x : Except ε α} {f : α → Except ε β} {b : β}

@[simp] theorem except_bind_ok : (x >>= f) = .ok b ↔ ∃ a, x = .ok a ∧ f a = .ok b := by
  cases x <;> simp [bind, Except.bind]

@[simp] theorem except_map_ok {f : α → β} : f <$> x = .ok b ↔ ∃ a, x = .ok a ∧ f a = b := by
  cases x <;> simp [Functor.map, Except.map]

@[simp] theorem except_map_error {f : α → β} {e : ε} : f <$> x = .error e ↔ x = .error e := by
  cases x <;> simp [Functor.map, Except.map]

@[simp] theorem except_pure_ok {a a' : α} : (pure a : Except ε α) = .ok a' ↔ a = a' := by
  simp [pure, Except.pure]

@[simp] theorem except_throw_ok {e : ε} {a : α} : (throw e : Except ε α) = .ok a ↔ False := by
  simp [throw, throwThe, MonadExceptOf.throw]

end Except

section Failing

theorem bind_ne {x : Except ε α} {f : α → Except ε β} {e : ε}
    (hx : x ≠ .error e) (hf : ∀ a, f a ≠ .error e) : (x >>= f) ≠ .error e := by
  cases x with
  | error e' => exact fun h => hx (by simpa [bind, Except.bind] using h)
  | ok a => exact hf a

theorem forM_ne {l : List α} {f : α → Except ε Unit} {e : ε}
    (h : ∀ a, f a ≠ .error e) : l.forM f ≠ .error e := by
  induction l with
  | nil => intro h; cases h
  | cons a l ih => exact bind_ne (h a) fun _ => ih

theorem foldlM_ne {l : List α} {f : β → α → Except ε β} {e : ε}
    (h : ∀ b a, f b a ≠ .error e) : ∀ b, l.foldlM f b ≠ .error e := by
  induction l with
  | nil => intro b h; cases h
  | cons a l ih =>
    intro b
    rw [List.foldlM_cons]
    exact bind_ne (h b a) ih

theorem mapM_congr {l : List α} {f g : α → Except ε β}
    (h : ∀ a ∈ l, f a = g a) : l.mapM f = l.mapM g := by
  induction l with
  | nil => rfl
  | cons a l ih =>
    rw [List.mapM_cons, List.mapM_cons, h a (.head _), ih fun b hb => h b (.tail _ hb)]

theorem mapM_fmap {γ : Type} {f : α → Except ε β} {φ : β → γ} (l : List α) :
    (l.mapM fun a => φ <$> f a) = List.map φ <$> l.mapM f := by
  induction l with
  | nil => rfl
  | cons a l ih =>
    rw [List.mapM_cons, ih, List.mapM_cons]
    simp only [map_eq_pure_bind, bind_assoc, pure_bind, List.map_cons]

theorem mapM_ne {l : List α} {f : α → Except ε β} {e : ε}
    (h : ∀ a ∈ l, f a ≠ .error e) : l.mapM f ≠ .error e := by
  induction l with
  | nil => intro h; cases h
  | cons a l ih =>
    rw [List.mapM_cons]
    refine bind_ne (h a (.head _)) fun _ => bind_ne (ih fun b hb => h b (.tail _ hb)) fun _ => ?_
    simp [pure, Except.pure]

theorem mem_mapM {f : α → Except ε β} {l : List α} {l' : List β} {b : β}
    (h : l.mapM f = .ok l') (hb : b ∈ l') : ∃ a ∈ l, f a = .ok b := by
  induction l generalizing l' with
  | nil =>
    obtain rfl : l' = [] := by simpa [pure, Except.pure] using h.symm
    cases hb
  | cons a l ih =>
    simp only [List.mapM_cons, except_bind_ok, except_pure_ok] at h
    obtain ⟨b', hb', rest, hrest, rfl⟩ := h
    rcases List.mem_cons.mp hb with rfl | hb
    · exact ⟨a, .head _, hb'⟩
    · obtain ⟨a', ha', h'⟩ := ih hrest hb
      exact ⟨a', .tail _ ha', h'⟩

theorem mem_mapM_of {f : α → Except ε β} {l : List α} {l' : List β} {a : α}
    (h : l.mapM f = .ok l') (ha : a ∈ l) : ∃ b ∈ l', f a = .ok b := by
  induction l generalizing l' with
  | nil => cases ha
  | cons a' l ih =>
    simp only [List.mapM_cons, except_bind_ok, except_pure_ok] at h
    obtain ⟨b, hb, rest, hrest, rfl⟩ := h
    rcases List.mem_cons.mp ha with rfl | ha
    · exact ⟨b, .head _, hb⟩
    · obtain ⟨b', hb', h'⟩ := ih hrest ha
      exact ⟨b', .tail _ hb', h'⟩

theorem exists_mapM {f : α → Except ε β} {l : List α} (h : ∀ a ∈ l, ∃ b, f a = .ok b) :
    ∃ l', l.mapM f = .ok l' := by
  induction l with
  | nil => exact ⟨[], rfl⟩
  | cons a l ih =>
    obtain ⟨b, hb⟩ := h a (.head _)
    obtain ⟨l', hl'⟩ := ih fun a ha => h a (.tail _ ha)
    exact ⟨b :: l', by simp [List.mapM_cons, hb, hl', bind, Except.bind, pure, Except.pure]⟩

theorem mapM_sublist {f : α → Except ε β} {l l' : List α} {r : List β} (h : l.mapM f = .ok r) (hs : l'.Sublist l) :
    ∃ r', l'.mapM f = .ok r' ∧ r'.Sublist r := by
  induction hs generalizing r with
  | slnil => exact ⟨r, h, .refl r⟩
  | cons a _ ih =>
    simp only [List.mapM_cons, except_bind_ok, except_pure_ok] at h
    obtain ⟨b, -, r, hr, rfl⟩ := h
    obtain ⟨r', hr', hsub⟩ := ih hr
    exact ⟨r', hr', hsub.cons b⟩
  | cons_cons a _ ih =>
    simp only [List.mapM_cons, except_bind_ok, except_pure_ok] at h
    obtain ⟨b, hb, r, hr, rfl⟩ := h
    obtain ⟨r', hr', hsub⟩ := ih hr
    exact ⟨b :: r', by simp [List.mapM_cons, hb, hr'], hsub.cons_cons b⟩

theorem mapM_filter {f : α → Except ε (List β)} {P : α → Bool} {Q : β → Bool}
    {l : List α} {parts : List (List β)} (h : ∀ a ∈ l, ∀ bs, f a = .ok bs → ∀ b ∈ bs, Q b = P a)
    (hl : l.mapM f = .ok parts) :
    ∃ parts', (l.filter P).mapM f = .ok parts' ∧ parts'.flatten = parts.flatten.filter Q := by
  induction l generalizing parts with
  | nil =>
    obtain rfl : parts = [] := by simpa [pure, Except.pure] using hl.symm
    exact ⟨[], rfl, rfl⟩
  | cons a l ih =>
    simp only [List.mapM_cons, except_bind_ok, except_pure_ok] at hl
    obtain ⟨bs, hbs, rest, hrest, rfl⟩ := hl
    obtain ⟨parts', hparts, hflat⟩ := ih (fun a ha => h a (.tail _ ha)) hrest
    have hb := h a (.head _) bs hbs
    cases hP : P a with
    | true =>
      refine ⟨bs :: parts', by simp [hP, List.mapM_cons, hbs, hparts, bind, Except.bind, pure,
        Except.pure], ?_⟩
      have hall : bs.filter Q = bs := List.filter_eq_self.mpr fun b hmem => by rw [hb b hmem, hP]
      rw [List.flatten_cons, List.flatten_cons, List.filter_append, hflat, hall]
    | false =>
      refine ⟨parts', by rw [List.filter_cons_of_neg (by simp [hP]), hparts], ?_⟩
      have hnone : bs.filter Q = [] := List.filter_eq_nil_iff.mpr fun b hmem => by simp [hb b hmem, hP]
      rw [List.flatten_cons, List.filter_append, hflat, hnone, List.nil_append]

end Failing

section Refines

variable {γ : Type} {l l' : List α} {g : α → Except ε (List γ)}

/-- A loop does what a pure one says if each of its turns does. -/
theorem ends_foldlM_mapM {f : β → α → EStateM ε σ β} {b₀ : β} {s₀ : σ} {J : β → σ → Prop} {out : σ → List γ}
    (h : ∀ pre a post b t, l = pre ++ a :: post → (pre.foldlM f b₀).run s₀ = .ok b t → J b t →
      Ends (f b a) t (fun b' t' => J b' t' ∧ ∃ ys, g a = .ok ys ∧ out t' = out t ++ ys) fun e _ => g a = .error e)
    (h₀ : J b₀ s₀) : Ends (l.foldlM f b₀) s₀
      (fun b t => J b t ∧ ∃ parts, l.mapM g = .ok parts ∧ out t = out s₀ ++ parts.flatten)
      fun e _ => l.mapM g = .error e := by
  refine ends_foldlM_run (P := fun pre b t => J b t ∧ ∃ parts, pre.mapM g = .ok parts ∧
    out t = out s₀ ++ parts.flatten) ?_ ⟨h₀, [], rfl, by simp⟩
  rintro pre a post b t hl hrun ⟨hJ, parts, hparts, hout⟩
  refine (h pre a post b t hl hrun hJ).mono ?_ fun e t he => ?_
  · rintro b' t' ⟨hJ', ys, hys, hout'⟩
    refine ⟨hJ', parts ++ [ys], ?_, ?_⟩
    · simp [List.mapM_append, hparts, hys, bind, Except.bind, pure, Except.pure]
    · simp [hout', hout]
  · simp [hl, List.mapM_append, hparts, he, bind, Except.bind]

theorem mem_mapM_flatten {parts : List (List γ)} {x : γ} (h : l.mapM g = .ok parts) :
    x ∈ parts.flatten ↔ ∃ a ∈ l, ∃ ys, g a = .ok ys ∧ x ∈ ys := by
  rw [List.mem_flatten]
  constructor
  · rintro ⟨ys, hys, hx⟩
    obtain ⟨a, ha, hg⟩ := mem_mapM h hys
    exact ⟨a, ha, ys, hg, hx⟩
  · rintro ⟨a, ha, ys, hg, hx⟩
    obtain ⟨ys', hys', hg'⟩ := mem_mapM_of h ha
    rw [hg] at hg'
    exact ⟨ys', hys', Except.ok.inj hg' ▸ hx⟩

/-- In another order a loop fails as well, or finds the same. -/
theorem mapM_perm (h : l.Perm l') :
    (∃ parts parts', l.mapM g = .ok parts ∧ l'.mapM g = .ok parts' ∧
      ∀ x, x ∈ parts.flatten ↔ x ∈ parts'.flatten) ∨ ∃ e e', l.mapM g = .error e ∧ l'.mapM g = .error e' := by
  have hmem : ∀ a, a ∈ l ↔ a ∈ l' := fun a => h.mem_iff
  cases hl : l.mapM g with
  | ok parts =>
    obtain ⟨parts', hl'⟩ := exists_mapM (l := l') (f := g) fun a ha =>
      (mem_mapM_of hl ((hmem a).mpr ha)).imp fun _ h => h.2
    refine .inl ⟨parts, parts', rfl, hl', fun x => ?_⟩
    rw [mem_mapM_flatten hl, mem_mapM_flatten hl']
    simp only [hmem]
  | error e =>
    cases hl' : l'.mapM g with
    | ok parts' =>
      obtain ⟨parts, hok⟩ := exists_mapM (l := l) (f := g) fun a ha =>
        (mem_mapM_of hl' ((hmem a).mp ha)).imp fun _ h => h.2
      rw [hl] at hok
      cases hok
    | error e' => exact .inr ⟨e, e', rfl, rfl⟩

end Refines

end Effect
