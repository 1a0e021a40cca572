import Fdb5.Toc.TocStore

/-! Which data files the calls of a `TocStore` leave alone. -/
namespace Fdb5

open Effect AppendStream

namespace FDBFileHandle

variable {x : Option DataBytes × FDBFileHandle} {data : DataBytes} {w : Fwrite} {f : Fflush} {opens : Bool}

/-- No call but `close()` on the store deletes a handle. -/
theorem ends_openForAppend_kept : Ends (openForAppend opens) x (fun _ y => y.2.deleted = x.2.deleted)
    fun _ y => y.2.deleted = x.2.deleted := by
  obtain ⟨disk, h⟩ := x
  unfold openForAppend
  rw [ends_bind, ends_get]
  cases opens <;> simp [ends_bind, ends_ensure]

theorem ends_write_kept : Ends (write data w) x (fun _ y => y.2.deleted = x.2.deleted)
    fun _ y => y.2.deleted = x.2.deleted := by
  obtain ⟨disk, h⟩ := x
  unfold write
  simp only [ends_bind, ends_get, ends_lift, ends_set, ends_ite, ends_throw, ends_pure]
  simp

theorem ends_flush_kept : Ends (flush f) x (fun _ y => y.2.deleted = x.2.deleted)
    fun _ y => y.2.deleted = x.2.deleted := by
  obtain ⟨disk, h⟩ := x
  unfold flush
  rw [ends_bind, ends_get]
  cases hfile : h.file with
  | none => simp [hfile]
  | some stream => simp [hfile, ends_bind, ends_set, ends_ite, ends_throw, ends_ensure]

end FDBFileHandle

namespace TocStore

/-- The files of the store lie in its directory. -/
def Placed (s : TocStore) : Prop := ∀ e ∈ s.dataPaths, '/' ∈ e.2.toList

/-- Nothing outside `S` is written, no other handle is opened, and none is deleted. -/
structure Touches (S : String → Prop) (s t : TocStore) : Prop where
  disk : ∀ path, ¬ S path → t.disk path = s.disk path
  handles : ∀ path ∈ t.handles, path ∈ s.handles ∨ S path
  deleted : (∀ path, (s.handle path).deleted = false) → ∀ path, (t.handle path).deleted = false
  placed : s.Placed → t.Placed

variable {S : String → Prop} {s t u : TocStore} {path : String} {α : Type} {key : Key} {data : DataBytes}
  {a : Archiving} {f : Flushing}

theorem Touches.refl : Touches S s s := ⟨fun _ _ => rfl, fun _ h => .inl h, id, id⟩

theorem Touches.trans (h : Touches S s t) (h' : Touches S t u) : Touches S s u where
  disk path hp := (h'.disk path hp).trans (h.disk path hp)
  handles path hp := (h'.handles path hp).elim (h.handles path) .inr
  deleted hs := h'.deleted (h.deleted hs)
  placed hs := h'.placed (h.placed hs)

theorem touches_onHandle {x : FDBFileHandle.Act α} (hS : S path)
    (hx : Ends x (s.file path) (fun _ y => y.2.deleted = (s.handle path).deleted)
      fun _ y => y.2.deleted = (s.handle path).deleted) :
    Ends (onHandle path x) s (fun _ t => Touches S s t) fun _ t => Touches S s t := by
  have hput : ∀ y : Option DataBytes × FDBFileHandle, y.2.deleted = (s.handle path).deleted →
      Touches S s (putHandle path y s) := by
    intro y hy
    constructor
    · intro path' hp
      have hne : path' ≠ path := fun he => hp (he ▸ hS)
      simp [hne]
    · intro path' hp
      rcases mem_putHandle.mp hp with rfl | hp
      · exact .inr hS
      · exact .inl hp
    · intro hs path'
      rw [handle_putHandle]
      split
      · exact hy.trans (hs path)
      · exact hs path'
    · exact id
  rw [ends_onHandle]
  refine ⟨fun _ => .refl, fun _ => hx.mono (fun _ y hy => hput y hy) fun _ y hy => hput y hy⟩

theorem touches_congr (hdisk : t.disk = s.disk) (hhandles : t.handles = s.handles) (hplaced : s.Placed → t.Placed) :
    Touches S s t :=
  ⟨fun _ _ => by rw [hdisk], fun _ h => .inl (hhandles ▸ h), fun h path => by simpa [handle, hhandles] using h path, hplaced⟩

theorem dataPath_placed {unique : String} (hs : s.Placed) (h : s.dataPath key unique = .ok path) : '/' ∈ path.toList := by
  unfold dataPath at h
  split at h
  next e he =>
    obtain rfl := Except.ok.inj h
    exact hs e (List.mem_of_find?_eq_some he)
  next =>
    simp only [generateDataPath, Effect.except_bind_ok, Effect.except_pure_ok] at h
    obtain ⟨values, -, rfl⟩ := h
    simp

/-- The calls of `onHandle` in a row. -/
theorem Touches.ends {β : Type} {x : Act α} {g : α → Act β} (hx : Ends x s (fun _ t => Touches S s t) fun _ t => Touches S s t)
    (hg : ∀ a t, Ends (g a) t (fun _ u => Touches S t u) fun _ u => Touches S t u) :
    Ends (x >>= g) s (fun _ u => Touches S s u) fun _ u => Touches S s u := by
  rw [ends_bind]
  exact hx.mono (fun a t ht => (hg a t).mono (fun _ _ hu => ht.trans hu) fun _ _ hu => ht.trans hu) fun _ _ ht => ht

theorem touches_getDataHandle {opens : Bool} (hS : S path) : Ends (getDataHandle path opens) s (fun _ t => Touches S s t)
    fun _ t => Touches S s t := by
  unfold getDataHandle
  simp only [ends_bind, ends_get, ends_ite, ends_pure, ends_modify]
  refine ⟨fun _ => .refl, fun hnew => ?_⟩
  have hopened : Touches S s { s with handles := s.handles.insert path {} } := by
    refine ⟨fun _ _ => rfl, fun path' hp => ?_, fun hs path' => ?_, id⟩
    · rcases Std.ExtTreeMap.mem_insert.mp hp with heq | hp
      · exact .inr ((Std.LawfulEqCmp.compare_eq_iff_eq.mp heq) ▸ hS)
      · exact .inl hp
    · have hold := hs path'
      by_cases heq : path' = path
      · simp [handle, heq]
      · simpa [handle, Std.ExtTreeMap.getElem?_insert, Ne.symm heq] using hold
  exact (touches_onHandle hS FDBFileHandle.ends_openForAppend_kept).mono (fun _ _ ht => hopened.trans ht)
    fun _ _ ht => hopened.trans ht

theorem touches_getDataPath {unique : String} : Ends (getDataPath key unique) s
    (fun path t => s.dataPath key unique = .ok path ∧ Touches S s t) fun _ t => Touches S s t := by
  unfold getDataPath
  simp only [ends_bind, ends_get, ends_lift, ends_modify, ends_pure]
  refine ⟨fun path hpath => ⟨hpath, ?_⟩, fun _ _ => .refl⟩
  split
  · exact .refl
  · refine ⟨fun _ _ => rfl, fun _ h => .inl h, id, fun hs e he => ?_⟩
    rcases List.mem_cons.mp he with rfl | he
    · exact dataPath_placed hs hpath
    · exact hs e he

theorem touches_place {opens : Bool} {w : FDBFileHandle.Fwrite} (hS : S path) : Ends (do
      getDataHandle path opens
      let position ← onHandle path FDBFileHandle.position
      let len ← onHandle path (FDBFileHandle.write data w)
      ensure (len = data.length) "len == length"
      return (⟨path, position, data.length⟩ : DataLocation)) s (fun _ t => Touches S s t) fun _ t => Touches S s t := by
  refine Touches.ends (touches_getDataHandle hS) fun _ t => ?_
  refine Touches.ends (touches_onHandle hS ?_) fun position t => ?_
  · rw [FDBFileHandle.position, ends_bind, ends_get, ends_pure]
    rfl
  refine Touches.ends (touches_onHandle hS FDBFileHandle.ends_write_kept) fun len t => ?_
  simp only [ends_bind, ends_ensure, ends_pure]
  exact ⟨fun _ => .refl, fun _ => .refl⟩

/-- `archive` touches no file but the one that its field goes to. -/
theorem touches_archive : Ends (archive key data a) s (fun _ t => Touches (fun p => s.dataPath key a.unique = .ok p) s t)
    fun _ t => Touches (fun p => s.dataPath key a.unique = .ok p) s t := by
  unfold archive
  rw [ends_bind, ends_modify, ends_bind]
  have hdirty : Touches (fun p => s.dataPath key a.unique = .ok p) s { s with dirty := true } := touches_congr rfl rfl id
  apply touches_getDataPath.mono ?_ fun _ t ht => hdirty.trans ht
  rintro path t ⟨hpath, ht⟩
  have hS : s.dataPath key a.unique = .ok path := hpath
  exact (touches_place (S := fun p => s.dataPath key a.unique = .ok p) hS).mono (fun _ _ hu => (hdirty.trans ht).trans hu)
    fun _ _ hu => (hdirty.trans ht).trans hu

/-- A field is given a location in the file that it goes to. -/
theorem ends_archive_path : Ends (archive key data a) s (fun location _ => s.dataPath key a.unique = .ok location.path)
    fun _ _ => True := by
  have htrue : ∀ {β : Type} {x : Act β} {s : TocStore}, Ends x s (fun _ _ => True) fun _ _ => True :=
    ends_iff.mpr ⟨fun _ _ _ => trivial, fun _ _ _ => trivial⟩
  unfold archive
  rw [ends_bind, ends_modify, ends_bind]
  apply (touches_getDataPath (S := fun _ => True)).mono ?_ fun _ _ _ => trivial
  rintro path t ⟨hpath, -⟩
  rw [ends_bind]
  apply htrue.mono ?_ fun _ _ _ => trivial
  intro _ t₁ _
  rw [ends_bind]
  apply htrue.mono ?_ fun _ _ _ => trivial
  intro position t₂ _
  rw [ends_bind]
  apply htrue.mono ?_ fun _ _ _ => trivial
  intro len t₃ _
  simp only [ends_bind, ends_ensure, ends_pure]
  exact ⟨fun _ => hpath, fun _ => trivial⟩

theorem touches_flush : Ends (flush f) s (fun _ t => Touches (· ∈ s.handles) s t) fun _ t => Touches (· ∈ s.handles) s t := by
  unfold flush flushDataHandles
  simp only [ends_bind, ends_get, ends_ite, ends_pure, ends_modify]
  refine ⟨fun _ => .refl, fun _ => ?_⟩
  have hloop : Ends (s.handles.keys.forM fun path => onHandle path (FDBFileHandle.flush (f path))) s
      (fun _ t => Touches (· ∈ s.handles) s t) fun _ t => Touches (· ∈ s.handles) s t := by
    apply ends_forM_split (P := fun _ t => Touches (· ∈ s.handles) s t)
    · intro pre path post hkeys t ht
      have hpath : path ∈ s.handles := Std.ExtTreeMap.mem_keys.mp (by simp [hkeys])
      exact (touches_onHandle hpath FDBFileHandle.ends_flush_kept).mono (fun _ _ hu => ht.trans hu) fun _ _ hu => ht.trans hu
    · exact .refl
  exact hloop.mono (fun _ _ ht => ht.trans (touches_congr rfl rfl id)) fun _ _ ht => ht

/-- No handle changes the flag of its store. -/
theorem dirty_onHandle {x : FDBFileHandle.Act α} {b : Bool} (hs : s.dirty = b) :
    Ends (onHandle path x) s (fun _ t => t.dirty = b) fun _ t => t.dirty = b := by
  rw [ends_onHandle]
  exact ⟨fun _ => hs, fun _ => ends_iff.mpr ⟨fun _ _ _ => hs, fun _ _ _ => hs⟩⟩

/-- A field leaves its store to be flushed, also where the call throws. -/
theorem dirty_archive : Ends (archive key data a) s (fun _ t => t.dirty = true) fun _ t => t.dirty = true := by
  have hpath : ∀ t : TocStore, t.dirty = true →
      Ends (getDataPath key a.unique) t (fun _ t => t.dirty = true) fun _ t => t.dirty = true := by
    intro t ht
    unfold getDataPath
    simp only [ends_bind, ends_get, ends_lift, ends_modify, ends_pure]
    refine ⟨fun path _ => ?_, fun _ _ => ht⟩
    split <;> exact ht
  have hhandle : ∀ path, ∀ t : TocStore, t.dirty = true →
      Ends (getDataHandle path a.opens) t (fun _ t => t.dirty = true) fun _ t => t.dirty = true := by
    intro path t ht
    unfold getDataHandle
    simp only [ends_bind, ends_get, ends_ite, ends_pure, ends_modify]
    exact ⟨fun _ => ht, fun _ => dirty_onHandle ht⟩
  unfold archive
  rw [ends_bind, ends_modify]
  refine (hpath _ rfl).bind fun path t₁ ht₁ => (hhandle path t₁ ht₁).bind fun _ t₂ ht₂ => ?_
  refine (dirty_onHandle ht₂).bind fun position t₃ ht₃ => (dirty_onHandle ht₃).bind fun len t₄ ht₄ => ?_
  simp only [ends_bind, ends_ensure, ends_pure]
  exact ⟨fun _ => ht₄, fun _ => ht₄⟩

/-- A store that a flush throws in is still to be flushed. -/
theorem dirty_flush : Ends (flush f) s (fun _ t => t.dirty = false) fun _ t => t.dirty = true := by
  unfold flush flushDataHandles
  simp only [ends_bind, ends_get, ends_ite, ends_pure, ends_modify]
  refine ⟨fun hclean => hclean, fun hdirty => ?_⟩
  have hs : s.dirty = true := by simpa using hdirty
  exact (ends_forM (P := fun t => t.dirty = true) (fun path _ t ht => dirty_onHandle ht) s hs).mono (fun _ _ _ => trivial)
    fun _ _ h => h

/-- The store has a handle for each path that it has made. -/
def Cached (s : TocStore) : Prop := ∀ e ∈ s.dataPaths, e.2 ∈ s.handles

/-- The same, but for a path that is yet to be opened. -/
def CachedBut (path : String) (s : TocStore) : Prop := ∀ e ∈ s.dataPaths, e.2 ∈ s.handles ∨ e.2 = path

theorem cached_onHandle {x : FDBFileHandle.Act α} (hs : s.CachedBut path) (hx : s.Cached ∨ path ∈ s.handles) :
    Ends (onHandle path x) s (fun _ t => t.Cached ∧ path ∈ t.handles) fun _ t => t.Cached := by
  have hput : ∀ y, (putHandle path y s).Cached := by
    intro y e he
    rw [mem_putHandle]
    exact (hs e he).elim .inr .inl
  rw [ends_onHandle]
  refine ⟨fun _ => ?_, fun _ => ends_iff.mpr ⟨fun _ y _ => ⟨hput y, mem_putHandle.mpr (.inl rfl)⟩, fun _ y _ => hput y⟩⟩
  rcases hx with hx | hx
  · exact hx
  · exact fun e he => (hs e he).elim id fun heq => heq ▸ hx

theorem cached_archive (hs : s.Cached) : Ends (archive key data a) s (fun _ t => t.Cached) fun _ t => t.Cached := by
  have hkept : ∀ {t : TocStore} {path}, t.Cached → t.CachedBut path := fun ht e he => .inl (ht e he)
  have hhandle : ∀ path, ∀ t : TocStore, t.CachedBut path →
      Ends (getDataHandle path a.opens) t (fun _ t => t.Cached ∧ path ∈ t.handles) fun _ t => t.Cached := by
    intro path t ht
    unfold getDataHandle
    simp only [ends_bind, ends_get, ends_ite, ends_pure, ends_modify]
    refine ⟨fun hmem => ⟨fun e he => (ht e he).elim id fun heq => heq ▸ hmem, hmem⟩, fun _ => ?_⟩
    have hopened : ∀ e ∈ t.dataPaths, e.2 ∈ t.handles.insert path {} := by
      intro e he
      rw [Std.ExtTreeMap.mem_insert, Std.LawfulEqCmp.compare_eq_iff_eq]
      exact (ht e he).elim .inr fun heq => .inl heq.symm
    exact cached_onHandle (s := { t with handles := t.handles.insert path {} }) (hkept hopened) (.inl hopened)
  unfold archive getDataPath
  simp only [ends_bind, ends_modify, ends_get, ends_lift, ends_pure]
  refine ⟨fun path _ => ?_, fun _ _ => hs⟩
  refine (hhandle path _ ?_).mono (fun _ t₁ ht₁ => ?_) fun _ _ h => h
  · unfold CachedBut
    split
    · exact fun e he => .inl (hs e he)
    · intro e he
      rcases List.mem_cons.mp he with rfl | he
      · exact .inr rfl
      · exact .inl (hs e he)
  · refine (cached_onHandle (hkept ht₁.1) (.inl ht₁.1)).mono (fun position t₂ ht₂ => ?_) fun _ _ h => h
    refine (cached_onHandle (hkept ht₂.1) (.inl ht₂.1)).mono (fun len t₃ ht₃ => ?_) fun _ _ h => h
    simp only [ends_ensure]
    exact ⟨fun _ => ht₃.1, fun _ => ht₃.1⟩

theorem cached_flush (hs : s.Cached) : Ends (flush f) s (fun _ t => t.Cached) fun _ t => t.Cached := by
  unfold flush flushDataHandles
  simp only [ends_bind, ends_get, ends_ite, ends_pure, ends_modify]
  refine ⟨fun _ => hs, fun _ => ?_⟩
  have hloop := ends_forM (P := fun t => t.Cached) (E := fun _ t => t.Cached) (l := s.handles.keys)
    (f := fun path => onHandle path (FDBFileHandle.flush (f path)))
    (fun path _ t ht => (cached_onHandle (fun e he => .inl (ht e he)) (.inl ht)).mono (fun _ _ h => h.1) fun _ _ h => h) s hs
  exact hloop.mono (fun _ _ ht => ht) fun _ _ ht => ht

/-- A path that is made ends with what is unique in it. -/
theorem generateDataPath_suffix {directory unique : String} (h : generateDataPath directory key unique = .ok path) :
    (unique ++ ".data").toList <:+ path.toList := by
  simp only [generateDataPath, Effect.except_bind_ok, Effect.except_pure_ok] at h
  obtain ⟨values, -, rfl⟩ := h
  exact ⟨(directory ++ "/" ++ values).toList, by simp⟩

end TocStore

end Fdb5
