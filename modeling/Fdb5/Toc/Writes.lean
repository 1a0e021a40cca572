import Fdb5.Toc.Catalogue

/-! What a computation adds to the writes of a disk, however it ends. -/
namespace Fdb5

open Effect

/-- From `d` to `d'` only writes of `W` were added. -/
def Disk.Grows (W : Write → Prop) (d d' : Disk) : Prop :=
  ∃ added, d'.writes = d.writes ++ added ∧ ∀ w ∈ added, W w

/-- However it ends, the computation adds no write but those of `W`. -/
def OnlyWrites {α : Type} (W : Write → Prop) (x : EStateM Failure Disk α) : Prop :=
  ∀ d, Ends x d (fun _ => d.Grows W) fun _ => d.Grows W

section Grows

variable {α β : Type} {W : Write → Prop} {d d' d'' : Disk} {w : Write} {p : PathName}

@[simp] theorem Disk.Grows.refl : d.Grows W d := ⟨[], by simp, by simp⟩

theorem Disk.Grows.trans (h : d.Grows W d') (h' : d'.Grows W d'') : d.Grows W d'' := by
  obtain ⟨added, hw, hs⟩ := h
  obtain ⟨added', hw', hs'⟩ := h'
  refine ⟨added ++ added', by rw [hw', hw, List.append_assoc], fun w hw => ?_⟩
  exact (List.mem_append.mp hw).elim (hs w) (hs' w)

theorem Disk.Grows.append (h : W w) : d.Grows W (d.append w) :=
  ⟨[w], rfl, fun _ hw => List.mem_singleton.mp hw ▸ h⟩

theorem Disk.Grows.mono {W' : Write → Prop} (h : d.Grows W d') (hW : ∀ w, W w → W' w) :
    d.Grows W' d' := by
  obtain ⟨added, hadded, hs⟩ := h
  exact ⟨added, hadded, fun w hw => hW w (hs w hw)⟩

/-- What each of the writes leaves alone is the same on both disks. -/
theorem Disk.Grows.foldl {γ : Type} {f : γ → Write → γ} {init : γ} (h : d.Grows W d')
    (hf : ∀ w, W w → ∀ x, f x w = x) : d'.writes.foldl f init = d.writes.foldl f init := by
  obtain ⟨added, hadded, hs⟩ := h
  rw [hadded, List.foldl_append]
  generalize d.writes.foldl f init = x
  clear hadded
  induction added with
  | nil => rfl
  | cons w added ih =>
    rw [List.foldl_cons, hf w (hs w (.head _))]
    exact ih fun w hw => hs w (.tail _ hw)

/-- What each of them leaves alone or takes away is the same or gone. -/
theorem Disk.Grows.foldl_or {γ : Type} {f : γ → Write → γ} {init z : γ} (h : d.Grows W d')
    (hf : ∀ w, W w → (∀ x, f x w = x) ∨ ∀ x, f x w = z) :
    d'.writes.foldl f init = d.writes.foldl f init ∨ d'.writes.foldl f init = z := by
  obtain ⟨added, hadded, hs⟩ := h
  rw [hadded, List.foldl_append]
  generalize d.writes.foldl f init = x
  clear hadded
  induction added using List.reverseRecOn with
  | nil => exact .inl rfl
  | append_singleton added w ih =>
    rw [List.foldl_append]
    rcases hf w (hs w (by simp)) with hkeep | hgone
    · rw [List.foldl_cons, List.foldl_nil, hkeep]
      exact ih fun w hw => hs w (List.mem_append_left _ hw)
    · exact .inr (hgone _)

/-- A file that is new is one that was written. -/
theorem Disk.Grows.exists_new (h : d.Grows W d') (hp : d'.pathExists p = true) :
    d.pathExists p = true ∨ ∃ w, W w ∧ w.path = p ∧ ∀ q, w ≠ .remove q := by
  obtain ⟨added, hadded, hs⟩ := h
  rw [pathExists, hadded, List.foldl_append] at hp
  change added.foldl (Write.onExists p) (d.pathExists p) = true at hp
  generalize d.pathExists p = found at hp
  clear hadded
  induction added generalizing found with
  | nil => exact .inl hp
  | cons w added ih =>
    rw [List.foldl_cons] at hp
    rcases ih (fun w hw => hs w (.tail _ hw)) _ hp with h | h
    · cases w with
      | remove q =>
        refine .inl ?_
        rw [Write.onExists] at h
        split at h
        · cases h
        · exact h
      | _ =>
        by_cases hpath : found = true
        · exact .inl hpath
        · refine .inr ⟨_, hs _ (.head _), ?_, by simp⟩
          by_contra hne
          simp [Write.onExists, Write.path] at h hne
          simp_all
    · exact .inr h

/-- What is written between two of the states was written from the first on. -/
theorem Disk.Grows.between {t : Disk} (h : d.Grows W d') (ht : d.writes <+: t.writes)
    (ht' : t.writes <+: d'.writes) : d.Grows W t := by
  obtain ⟨added, hadded, hs⟩ := h
  obtain ⟨more, hmore⟩ := ht
  rw [hadded, ← hmore] at ht'
  exact ⟨more, hmore.symm, fun w hw => hs w (((List.prefix_append_right_inj _).mp ht').subset hw)⟩

/-- The write removes a file of `S`. -/
def RemovesOf (S : PathName → Prop) (w : Write) : Prop := ∃ p, S p ∧ w = .remove p

section Removal

variable {S : PathName → Prop}

theorem RemovesOf.ne (hp : ¬ S p) (hw : RemovesOf S w) : ∃ q, q ≠ p ∧ w = .remove q := by
  obtain ⟨q, hq, rfl⟩ := hw
  exact ⟨q, fun he => hp (he ▸ hq), rfl⟩

namespace Disk.Grows

theorem toc_eq (h : d.Grows (RemovesOf S) d') (hp : ¬ S p) : d'.toc p = d.toc p := by
  refine h.foldl fun w hw x => ?_
  obtain ⟨q, hq, rfl⟩ := hw.ne hp
  exact if_neg hq

theorem pathExists_eq (h : d.Grows (RemovesOf S) d') (hp : ¬ S p) :
    d'.pathExists p = d.pathExists p := by
  refine h.foldl fun w hw x => ?_
  obtain ⟨q, hq, rfl⟩ := hw.ne hp
  exact if_neg hq

theorem toc_or (h : d.Grows (RemovesOf S) d') : d'.toc p = d.toc p ∨ d'.toc p = none := by
  refine h.foldl_or fun w ⟨q, _, hw⟩ => ?_
  subst hw
  by_cases hq : q = p
  · exact .inr fun x => if_pos hq
  · exact .inl fun x => if_neg hq

end Disk.Grows

end Removal

namespace OnlyWrites

theorem pure (a : α) : OnlyWrites W (Pure.pure a : EStateM Failure Disk α) := fun _ => .refl

theorem throw (e : Failure) : OnlyWrites W (MonadExcept.throw e : EStateM Failure Disk α) :=
  fun _ => .refl

theorem bind {x : EStateM Failure Disk α} {f : α → EStateM Failure Disk β} (hx : OnlyWrites W x)
    (hf : ∀ a, OnlyWrites W (f a)) : OnlyWrites W (x >>= f) := by
  intro d
  rw [ends_bind]
  refine (hx d).mono (fun a t ht => ?_) fun _ _ h => h
  exact (hf a t).mono (fun _ _ => ht.trans) fun _ _ => ht.trans

/-- The same where what follows relies on what was returned. -/
theorem bind_of {P : α → Prop} {x : EStateM Failure Disk α} {f : α → EStateM Failure Disk β}
    (hx : ∀ d, Ends x d (fun a t => d.Grows W t ∧ P a) fun _ => d.Grows W)
    (hf : ∀ a, P a → OnlyWrites W (f a)) : OnlyWrites W (x >>= f) := by
  intro d
  rw [ends_bind]
  refine (hx d).mono (fun a t ht => ?_) fun _ _ h => h
  exact (hf a ht.2 t).mono (fun _ _ => ht.1.trans) fun _ _ => ht.1.trans

theorem get : OnlyWrites W (MonadState.get : EStateM Failure Disk Disk) := fun _ => .refl

theorem lift (x : Except Failure α) : OnlyWrites W (Effect.lift x) := by
  intro d
  rw [ends_lift]
  exact ⟨fun _ _ => .refl, fun _ _ => .refl⟩

theorem ite {c : Prop} [Decidable c] {x y : EStateM Failure Disk α} (hx : c → OnlyWrites W x)
    (hy : ¬ c → OnlyWrites W y) : OnlyWrites W (if c then x else y) := by
  split
  · exact hx ‹_›
  · exact hy ‹_›

theorem forM {l : List α} {f : α → EStateM Failure Disk PUnit} (h : ∀ a ∈ l, OnlyWrites W (f a)) :
    OnlyWrites W (l.forM f) := fun d =>
  ends_forM (fun a ha t ht => (h a ha t).mono (fun _ _ => ht.trans) fun _ _ => ht.trans) d .refl

theorem ensure (c : Prop) [Decidable c] (condition : String) :
    OnlyWrites W (Fdb5.ensure c condition) := lift _

theorem syscall (call : String) : OnlyWrites W (Disk.syscall call) := by
  intro d
  rw [Disk.syscall, ends_bind, ends_get]
  cases d.faults with
  | nil => exact .refl
  | cons fault faults =>
    rw [ends_bind, ends_set, ends_ite]
    exact ⟨fun _ => ⟨[], by simp, by simp⟩, fun _ => ⟨[], by simp, by simp⟩⟩

theorem modifies {f : Disk → Disk} (h : ∀ d, Disk.Grows W d (f d)) :
    OnlyWrites W (modify f : EStateM Failure Disk PUnit) := h

theorem write (h : W w) : OnlyWrites W (Disk.write w) :=
  (syscall _).bind fun _ => modifies fun _ => .append h

theorem unlink (h : W (.remove p)) : OnlyWrites W (Disk.unlink p) :=
  (syscall _).bind fun _ => modifies fun _ => .append h

theorem rmdir {directory : String} (h : W (.remove (Disk.directoryPath directory))) :
    OnlyWrites W (Disk.rmdir directory) :=
  (syscall _).bind fun _ => get.bind fun _ => ite (fun _ => modifies fun _ => .append h)
    fun _ => throw _

theorem appendBlock {toc : PathName} {records : List TocRecord} (h : ∀ r ∈ records, W (.toc toc r)) :
    OnlyWrites W (TocHandler.appendBlock toc records) := by
  refine ((syscall _).bind fun _ => get.bind fun _ => ite (fun _ => pure _) fun _ => throw _).bind
    fun _ => (syscall _).bind fun _ => modifies fun d => ?_
  induction records generalizing d with
  | nil => exact .refl
  | cons r records ih =>
    exact (Disk.Grows.append (h r (.head _))).trans (ih (fun r hr => h r (.tail _ hr)) _)

theorem disable {directory : String} {identifiers : List ControlIdentifier}
    (h : ∀ identifier, W (.data (TocHandler.controlFilePath directory identifier) 0)) :
    OnlyWrites W (TocHandler.control directory .disable identifiers) :=
  forM fun _ _ => get.bind fun _ => ite (fun _ => pure _) fun _ => write (h _)

end OnlyWrites

end Grows

end Fdb5
