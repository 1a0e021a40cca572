import Fdb5.Toc.Segment
import Fdb5.Toc.Writer

/-! The stores of open indexes of a catalogue writer: what each call on one of them does. -/
namespace Fdb5

open Effect

namespace Disk

variable {d : Disk} {p : PathName} {offset : Nat}

/-- No file has a name that is yet to be given. -/
def Stamped (d : Disk) : Prop :=
  ∀ w ∈ d.writes, ∀ n, w.path.baseName.stamp = some n → n < d.stamp

theorem Stamped.append (h : d.Stamped) {w : Write}
    (hw : ∀ n, w.path.baseName.stamp = some n → n < d.stamp) : (d.append w).Stamped := by
  intro w' hw'
  rcases List.mem_append.mp hw' with hw' | hw'
  · exact h w' hw'
  · rw [List.mem_singleton.mp hw']
    exact hw

/-- A file that was never written to is not there. -/
theorem none_of_unwritten (h : ∀ w ∈ d.writes, w.path ≠ p) :
    d.segment p offset = none ∧ d.toc p = none := by
  induction d using induction_on with
  | empty => exact ⟨rfl, rfl⟩
  | append d w ih =>
    obtain ⟨hs, ht⟩ := ih fun w' hw' => h w' (List.mem_append_left _ hw')
    have hw : w.path ≠ p := h w (by simp [Disk.append])
    rw [segment_append, toc_append, hs, ht]
    cases w <;> simp_all [Write.onSegment, Write.onToc, Write.path]

theorem Stamped.none (h : d.Stamped) (hp : p.baseName.stamp = some d.stamp) :
    d.segment p offset = none ∧ d.toc p = none := by
  refine none_of_unwritten fun w hw he => ?_
  exact absurd (h w hw d.stamp (he ▸ hp)) (Nat.lt_irrefl _)

end Disk

/-- The place of a segment: a file and an offset. -/
abbrev Position := PathName × Nat

def TocIndex.position {η : Type} (idx : TocIndex η) : Position := (idx.path, idx.offset)

/-- A change of a disk that leaves the segments of `K`, the tocs of `T` and the schemas as they are. -/
structure Disk.Keeps (K : Position → Prop) (T : PathName → Prop) (d d' : Disk) : Prop where
  faults : d'.faults = d.faults
  schema : ∀ p, d'.schema p = d.schema p
  stamped : d.Stamped → d'.Stamped
  stamp : d.stamp ≤ d'.stamp
  toc : ∀ p, T p → d'.toc p = d.toc p
  segment : ∀ p o, K (p, o) → d'.segment p o = d.segment p o

namespace Disk.Keeps

variable {K K' : Position → Prop} {T T' : PathName → Prop} {d d' d'' : Disk}

theorem refl : Keeps K T d d := ⟨rfl, fun _ => rfl, id, Nat.le_refl _, fun _ _ => rfl, fun _ _ _ => rfl⟩

theorem trans (h : Keeps K T d d') (h' : Keeps K T d' d'') : Keeps K T d d'' :=
  ⟨h'.faults.trans h.faults, fun p => (h'.schema p).trans (h.schema p),
    fun hs => h'.stamped (h.stamped hs), Nat.le_trans h.stamp h'.stamp,
    fun p hp => (h'.toc p hp).trans (h.toc p hp),
    fun p o hk => (h'.segment p o hk).trans (h.segment p o hk)⟩

theorem mono (h : Keeps K T d d') (hk : ∀ x, K' x → K x) (ht : ∀ p, T' p → T p) :
    Keeps K' T' d d' :=
  ⟨h.faults, h.schema, h.stamped, h.stamp, fun p hp => h.toc p (ht p hp),
    fun p o hx => h.segment p o (hk _ hx)⟩

/-- A segment written outside `K`. -/
theorem write {p : PathName} {o : Nat} {pages : Pages} (hk : ¬ K (p, o))
    (hp : ∀ n, p.baseName.stamp = some n → n < d.stamp) :
    Keeps K T d (d.append (.segment p o pages)) := by
  refine ⟨rfl, fun q => ?_, fun h => h.append hp, Nat.le_refl _, fun q _ => ?_, fun q o' hq => ?_⟩
  · simp [Write.onSchema]
  · simp [Write.onToc]
  · rw [segment_append, Write.onSegment, if_neg]
    rintro ⟨rfl, rfl⟩
    exact hk hq

/-- A record appended to a toc outside `T`. -/
theorem append {p : PathName} {r : TocRecord} (ht : ¬ T p)
    (hp : ∀ n, p.baseName.stamp = some n → n < d.stamp) : Keeps K T d (d.append (.toc p r)) := by
  refine ⟨rfl, fun q => ?_, fun h => h.append hp, Nat.le_refl _, fun q hq => ?_, fun q o' _ => ?_⟩
  · simp [Write.onSchema]
  · rw [toc_append, Write.onToc, if_neg]
    rintro rfl
    exact ht hq
  · simp [Write.onSegment]

/-- A name given to a file. -/
theorem unique {d : Disk} : Keeps K T d { d with stamp := d.stamp + 1 } :=
  ⟨rfl, fun _ => rfl, fun h w hw n hn => Nat.lt_succ_of_lt (h w hw n hn), Nat.le_succ _, fun _ _ => rfl,
    fun _ _ _ => rfl⟩

end Disk.Keeps

/-- Keys of stores and of records: not empty, and already in canonical form. -/
structure Key.Selectable (k : Key) : Prop where
  nonempty : k.empty = false
  encodable : k.Encodable
  canonical : ∃ e, k.encode = .ok e ∧ e.keys = k.keys

/-- The place of an index key in a store. -/
def StringDict.order (d : StringDict) : List String := d.toList.flatMap fun kv => [kv.1, kv.2]

theorem flatMap_pair_injective {l l' : List (String × String)}
    (h : (l.flatMap fun kv => [kv.1, kv.2]) = l'.flatMap fun kv => [kv.1, kv.2]) : l = l' := by
  induction l generalizing l' with
  | nil => cases l' with
    | nil => rfl
    | cons => simp at h
  | cons kv l ih => cases l' with
    | nil => simp at h
    | cons kv' l' =>
      simp only [List.flatMap_cons, List.cons_append, List.nil_append, List.cons.injEq] at h
      obtain ⟨h₁, h₂, h⟩ := h
      rw [ih h, Prod.ext h₁ h₂]

theorem StringDict.order_injective {d d' : StringDict} (h : order d = order d') : d = d' :=
  Std.ExtTreeMap.toList_inj.mp (flatMap_pair_injective h)

namespace TocIndex

variable {idx : TocIndex BTreeHandle} {d d' : Disk} {flushed pending : List Put}

theorem Writing.frame (h : Writing idx d flushed pending)
    (hs : d'.segment idx.path idx.offset = d.segment idx.path idx.offset) :
    Writing idx d' flushed pending :=
  ⟨h.write, h.filesWritable, h.directory, h.axesWritable, h.axes, h.known, h.handle,
    hs.trans h.segment⟩

/-- An open index of the database directory for an index key. -/
structure OpenFor (idx : TocIndex BTreeHandle) (directory : String) (κ : StringDict) (d : Disk)
    (flushed pending : List Put) : Prop where
  writing : Writing idx d flushed pending
  dirty : idx.dirty = !pending.isEmpty
  keys : idx.key.keys = κ
  selectable : idx.key.Selectable
  type : idx.type = "BTreeIndex"
  dirName : idx.path.dirName = directory
  extension : idx.path.baseName.extension = ".index"
  stamp : ∃ n, idx.path.baseName.stamp = some n ∧ n < d.stamp

theorem OpenFor.frame {directory : String} {κ : StringDict} {K : Position → Prop}
    {T : PathName → Prop} (h : OpenFor idx directory κ d flushed pending) (hk : d.Keeps K T d') (hp : K idx.position) :
    OpenFor idx directory κ d' flushed pending := by
  obtain ⟨n, hn, hlt⟩ := h.stamp
  exact ⟨h.writing.frame (hk.segment _ _ hp), h.dirty, h.keys, h.selectable, h.type, h.dirName,
    h.extension, n, hn, Nat.lt_of_lt_of_le hlt hk.stamp⟩

/-- Writing the index's own segment keeps everything else. -/
theorem OpenFor.keeps {directory : String} {κ : StringDict} {K : Position → Prop}
    {T : PathName → Prop} (h : OpenFor idx directory κ d flushed pending) (hp : ¬ K idx.position)
    (hw : Disk.SegmentWritten idx.path idx.offset d d') : d.Keeps K T d' := by
  obtain ⟨n, hn, hlt⟩ := h.stamp
  obtain rfl | ⟨pages, rfl⟩ := hw
  · exact .refl
  · exact .write hp fun m hm => by rw [hn] at hm; cases hm; exact hlt

end TocIndex

/-- A store of open indexes on a disk, none of which is at a position of `K`. -/
structure StoreSim (directory : String) (K : Position → Prop)
    (flushed pending : StringDict → List Put) (s : IndexStore × Disk) : Prop where
  faults : s.2.faults = []
  stamped : s.2.Stamped
  kept : ∀ p o, K (p, o) → ∃ pages, s.2.segment p o = some pages
  key : ∀ k ∈ s.1, ∃ κ, k = StringDict.order κ
  index : ∀ κ idx, s.1[StringDict.order κ]? = some idx →
    idx.OpenFor directory κ s.2 (flushed κ) (pending κ)
  apart : ∀ κ idx, s.1[StringDict.order κ]? = some idx → ¬ K idx.position
  distinct : ∀ κ κ' idx idx', s.1[StringDict.order κ]? = some idx →
    s.1[StringDict.order κ']? = some idx' → κ ≠ κ' → idx.position ≠ idx'.position
  stored : ∀ κ, flushed κ ++ pending κ ≠ [] → StringDict.order κ ∈ s.1

namespace IndexStore

/-- The positions to keep while one index of the store is worked on. -/
def Rest (K : Position → Prop) (store : IndexStore) (κ : StringDict) (x : Position) : Prop :=
  K x ∨ ∃ κ' idx, κ' ≠ κ ∧ store[StringDict.order κ']? = some idx ∧ x = idx.position

theorem mem_iff {store : IndexStore} {k : List String} : k ∈ store ↔ ∃ idx, store[k]? = some idx := by
  rw [← Std.ExtTreeMap.isSome_getElem?_iff_mem, Option.isSome_iff_exists]

theorem getElem?_insert {store : IndexStore} {κ κ' : StringDict} {idx : TocIndex BTreeHandle} :
    (store.insert (StringDict.order κ) idx)[StringDict.order κ']? =
      if κ = κ' then some idx else store[StringDict.order κ']? := by
  rw [Std.ExtTreeMap.getElem?_insert]
  by_cases h : κ = κ'
  · simp [h]
  · simp [h, show StringDict.order κ ≠ StringDict.order κ' from fun he => h (StringDict.order_injective he)]

theorem insert_same {store : IndexStore} {k : List String} {idx : TocIndex BTreeHandle}
    (h : store[k]? = some idx) : store.insert k idx = store := by
  refine Std.ExtTreeMap.ext_getElem? fun k' => ?_
  rw [Std.ExtTreeMap.getElem?_insert]
  split
  · rename_i he
    rw [← Std.LawfulEqCmp.compare_eq_iff_eq.mp he, h]
  · rfl

theorem insert_insert {store : IndexStore} {k : List String} {idx idx' : TocIndex BTreeHandle} :
    (store.insert k idx).insert k idx' = store.insert k idx' := by
  refine Std.ExtTreeMap.ext_getElem? fun k' => ?_
  rw [Std.ExtTreeMap.getElem?_insert, Std.ExtTreeMap.getElem?_insert, Std.ExtTreeMap.getElem?_insert]
  split <;> rfl

theorem ends_onIndex {store : IndexStore} {k : List String} {idx : TocIndex BTreeHandle} {d : Disk}
    {x : EStateM Failure (TocIndex BTreeHandle × Disk) Unit} {Q : Unit → IndexStore × Disk → Prop}
    {E : Failure → IndexStore × Disk → Prop} (h : store[k]? = some idx) :
    Ends (onIndex k x) (store, d) Q E ↔ Ends x (idx, d)
      (fun u t => Q u (store.insert k t.1, t.2)) fun e t => E e (store.insert k t.1, t.2) := by
  unfold Ends onIndex EStateM.run
  simp only [h, focus, EStateM.run]
  cases x (idx, d) <;> rfl

end IndexStore

namespace StoreSim

open IndexStore

variable {directory : String} {K : Position → Prop} {flushed pending : StringDict → List Put}
  {store : IndexStore} {d d' : Disk} {κ : StringDict} {idx idx' : TocIndex BTreeHandle}

theorem not_rest (h : StoreSim directory K flushed pending (store, d))
    (hidx : store[StringDict.order κ]? = some idx) : ¬ Rest K store κ idx.position := by
  rintro (hk | ⟨κ', idx', hne, hidx', he⟩)
  · exact h.apart κ idx hidx hk
  · exact h.distinct κ κ' idx idx' hidx hidx' hne.symm he

theorem rest_kept (h : StoreSim directory K flushed pending (store, d)) {p : PathName} {o : Nat}
    (hx : Rest K store κ (p, o)) : ∃ pages, d.segment p o = some pages := by
  rcases hx with hk | ⟨κ', idx', -, hidx', he⟩
  · exact h.kept p o hk
  · cases he
    exact ⟨_, (h.index κ' idx' hidx').writing.segment⟩

/-- The store after a call on one index that left the others alone. -/
theorem update (h : StoreSim directory K flushed pending (store, d)) {T : PathName → Prop}
    {f p : List Put} (hk : d.Keeps (Rest K store κ) T d') (hidx : idx'.OpenFor directory κ d' f p)
    (hnew : ¬ Rest K store κ idx'.position) :
    StoreSim directory K (Function.update flushed κ f) (Function.update pending κ p)
      (store.insert (StringDict.order κ) idx', d') := by
  refine ⟨hk.faults.trans h.faults, hk.stamped h.stamped, fun p o hx => ?_, fun k hmem => ?_,
    fun κ' idx'' hget => ?_, fun κ' idx'' hget => ?_, fun κ₁ κ₂ i₁ i₂ hget₁ hget₂ hne => ?_,
    fun κ' hne => ?_⟩
  · obtain ⟨pages, hp⟩ := h.kept p o hx
    exact ⟨pages, (hk.segment p o (.inl hx)).trans hp⟩
  · rw [Std.ExtTreeMap.mem_insert] at hmem
    rcases hmem with hmem | hmem
    · exact ⟨κ, (Std.LawfulEqCmp.compare_eq_iff_eq.mp hmem).symm⟩
    · exact h.key k hmem
  · rw [getElem?_insert] at hget
    split at hget
    · rename_i he
      subst he
      cases hget
      simpa using hidx
    · rename_i hne
      have hne' : κ' ≠ κ := fun he => hne he.symm
      rw [Function.update_of_ne hne', Function.update_of_ne hne']
      exact (h.index κ' idx'' hget).frame hk (.inr ⟨κ', idx'', hne', hget, rfl⟩)
  · rw [getElem?_insert] at hget
    split at hget
    · cases hget
      exact fun hx => hnew (.inl hx)
    · exact h.apart κ' idx'' hget
  · rw [getElem?_insert] at hget₁ hget₂
    split at hget₁ <;> split at hget₂
    · simp_all
    · cases hget₁
      exact fun he => hnew (.inr ⟨κ₂, i₂, by simp_all [eq_comm], hget₂, he⟩)
    · cases hget₂
      exact fun he => hnew (.inr ⟨κ₁, i₁, by simp_all [eq_comm], hget₁, he.symm⟩)
    · exact h.distinct κ₁ κ₂ i₁ i₂ hget₁ hget₂ hne
  · rw [mem_iff, getElem?_insert]
    by_cases he : κ = κ'
    · simp [he]
    · have hne' : κ' ≠ κ := fun he' => he he'.symm
      rw [Function.update_of_ne hne', Function.update_of_ne hne'] at hne
      rw [if_neg he]
      exact mem_iff.mp (h.stored κ' hne)

/-- The store on a disk that others changed, who keep away from its positions. -/
theorem frame (h : StoreSim directory K flushed pending (store, d)) {K' K'' : Position → Prop}
    {T : PathName → Prop} (hk : d.Keeps K' T d')
    (hp : ∀ κ idx, store[StringDict.order κ]? = some idx → K' idx.position)
    (hkept : ∀ p o, K'' (p, o) → ∃ pages, d'.segment p o = some pages)
    (hapart : ∀ κ idx, store[StringDict.order κ]? = some idx → ¬ K'' idx.position) :
    StoreSim directory K'' flushed pending (store, d') :=
  ⟨hk.faults.trans h.faults, hk.stamped h.stamped, hkept, h.key,
    fun κ idx hidx => (h.index κ idx hidx).frame hk (hp κ idx hidx), hapart, h.distinct, h.stored⟩

/-- The store and the disk after `make`. -/
def Made (directory : String) (key : Key) (s u : IndexStore × Disk) : Prop :=
  key.order ∈ s.1 ∧ u = s ∨ key.order ∉ s.1 ∧ ∃ stem,
    u = (s.1.insert key.order (TocIndex.create key ⟨directory, ⟨stem, some s.2.stamp, ".index"⟩⟩),
      { s.2 with stamp := s.2.stamp + 1 })

theorem ends_make {s : IndexStore × Disk} {key : Key} (hk : key.Selectable) :
    Ends (make directory key) s (fun _ u => Made directory key s u) fun _ _ => False := by
  rw [make]
  simp only [ends_bind, ends_get, ends_ite, ends_pure]
  refine ⟨fun hmem => .inl ⟨hmem, rfl⟩, fun hmem => ?_⟩
  simp only [ends_lift, hk.encodable.fingerprint, ends_focus, Disk.unique, ends_bind, ends_get,
    ends_set, ends_pure, ends_modify]
  refine ⟨fun stem _ => .inr ⟨hmem, stem, rfl⟩, fun _ h => by cases h⟩

/-- Opening the index of a key: an open one stays as it is, a new one gets its first segment. -/
theorem ends_open {s u : IndexStore × Disk} {key : Key} (hk : key.Selectable)
    (h : StoreSim directory K flushed pending s) (hm : Made directory key s u) :
    Ends (onIndex key.order (TocIndex.openIndex TBTreeIndex)) u
      (fun _ v => StoreSim directory K flushed pending v ∧ s.2.Keeps K (fun _ => True) v.2 ∧
        key.order ∈ v.1) fun _ _ => False := by
  obtain ⟨store, d⟩ := s
  obtain ⟨hmem, rfl⟩ | ⟨hmem, stem, rfl⟩ := hm
  · obtain ⟨idx, hidx⟩ := mem_iff.mp hmem
    have hopen := h.index key.keys idx hidx
    rw [ends_onIndex hidx, TocIndex.openIndex]
    simp only [ends_bind, ends_map, ends_get, hopen.writing.handle, Option.isNone_some,
      Bool.false_eq_true, if_false, ends_pure]
    rw [insert_same hidx]
    exact ⟨h, .refl, hmem⟩
  · have hfresh : d.segment ⟨directory, ⟨stem, some d.stamp, ".index"⟩⟩ 0 = none ∧ _ :=
      h.stamped.none rfl
    have hempty : flushed key.keys ++ pending key.keys = [] := by
      by_contra hne
      exact hmem (h.stored _ hne)
    obtain ⟨hf, hp⟩ := List.append_eq_nil_iff.mp hempty
    set path : PathName := ⟨directory, ⟨stem, some d.stamp, ".index"⟩⟩ with hpath'
    have hget : (store.insert key.order (TocIndex.create key path))[key.order]? =
      some (TocIndex.create key path) := Std.ExtTreeMap.getElem?_insert_self
    rw [ends_onIndex hget]
    refine (TocIndex.ends_open_create (d := { d with stamp := d.stamp + 1 }) h.faults hfresh.1).mono
      ?_ fun _ _ h => h
    rintro _ ⟨idx, d'⟩ ⟨rfl, hw, -, hpath, hoff, hkey, hdirty, htype⟩
    have hkeep : ∀ K', (¬ K' (idx.path, idx.offset)) → d.Keeps K' (fun _ => True)
        ({ d with stamp := d.stamp + 1 }.append (.segment idx.path 0 ∅)) := by
      intro K' hk'
      refine .trans .unique (.write (by rwa [hoff] at hk') fun n hn => ?_)
      rw [hpath] at hn
      cases hn
      exact Nat.lt_succ_self _
    have hrest : ¬ Rest K store key.keys idx.position := by
      intro hx
      obtain ⟨pages, hp⟩ := h.rest_kept hx
      rw [hpath, hoff, hfresh.1] at hp
      cases hp
    have hnew : idx.OpenFor directory key.keys
        ({ d with stamp := d.stamp + 1 }.append (.segment idx.path 0 ∅)) [] [] :=
      ⟨by rw [hpath]; exact hw, hdirty, by rw [hkey], by rw [hkey]; exact hk, htype, by rw [hpath],
        by rw [hpath], d.stamp, by rw [hpath], Nat.lt_succ_self _⟩
    rw [insert_insert, ← hpath]
    refine ⟨?_, hkeep K fun hx => hrest (.inl hx), ?_⟩
    · have := h.update (hkeep _ hrest) hnew hrest
      rwa [← hf, Function.update_eq_self, hf, ← hp, Function.update_eq_self] at this
    · simp

theorem ends_put {p : Put} (h : StoreSim directory K flushed pending (store, d))
    (hmem : StringDict.order κ ∈ store) (hp : p.key.Storable) :
    Ends (onIndex (StringDict.order κ) (TocIndex.put TBTreeIndex p.key p.location)) (store, d)
      (fun _ u => StoreSim directory K flushed (Function.update pending κ (pending κ ++ [p])) u ∧
        u.2 = d ∧ ∀ k, k ∈ u.1 ↔ k ∈ store) fun _ _ => False := by
  obtain ⟨idx, hidx⟩ := mem_iff.mp hmem
  have hopen := h.index κ idx hidx
  rw [ends_onIndex hidx]
  refine (TocIndex.ends_put h.faults hopen.writing hp.toEncodable hp.length).mono ?_ fun _ _ h => h
  rintro _ ⟨idx', d'⟩ ⟨hd, hw, -, hpath, hoff, hkey, hdirty, htype⟩
  obtain rfl : d' = d := hd
  have hposition : idx'.position = idx.position := Prod.ext hpath hoff
  have hopen' : idx'.OpenFor directory κ d' (flushed κ) (pending κ ++ [p]) :=
    ⟨hw, hdirty.trans (by simp), by rw [hkey, hopen.keys], by rw [hkey]; exact hopen.selectable,
      htype.trans hopen.type, by rw [hpath, hopen.dirName], by rw [hpath, hopen.extension],
      by rw [hpath]; exact hopen.stamp⟩
  refine ⟨?_, rfl, fun k => ?_⟩
  · have := h.update (T := fun _ => True) .refl hopen' (by rw [hposition]; exact h.not_rest hidx)
    rwa [Function.update_eq_self] at this
  · rw [Std.ExtTreeMap.mem_insert, Std.LawfulEqCmp.compare_eq_iff_eq]
    exact ⟨fun hk => hk.elim (fun he => he ▸ hmem) id, .inr⟩

/-- A flush writes what is pending. -/
theorem ends_flush (h : StoreSim directory K flushed pending (store, d))
    (hidx : store[StringDict.order κ]? = some idx) (hdirty : idx.dirty = true) :
    Ends (onIndex (StringDict.order κ) (TocIndex.flush TBTreeIndex)) (store, d)
      (fun _ u => StoreSim directory K (Function.update flushed κ (flushed κ ++ pending κ))
          (Function.update pending κ []) u ∧
        d.Keeps (Rest K store κ) (fun _ => True) u.2 ∧
        ∃ idx', u.1 = store.insert (StringDict.order κ) idx' ∧ idx'.position = idx.position)
      fun _ _ => False := by
  have hopen := h.index κ idx hidx
  rw [ends_onIndex hidx]
  refine (TocIndex.ends_flush h.faults hopen.writing hdirty).mono ?_ fun _ _ h => h
  rintro _ ⟨idx', d'⟩ ⟨hwritten, hw, -, -, hpath, hoff, hkey, hd, htype⟩
  have hposition : idx'.position = idx.position := Prod.ext hpath hoff
  have hkeeps : d.Keeps (Rest K store κ) (fun _ => True) d' :=
    hopen.keeps (h.not_rest hidx) hwritten
  obtain ⟨n, hn, hlt⟩ := hopen.stamp
  have hopen' : idx'.OpenFor directory κ d' (flushed κ ++ pending κ) [] :=
    ⟨hw, hd, by rw [hkey, hopen.keys], by rw [hkey]; exact hopen.selectable,
      htype.trans hopen.type, by rw [hpath, hopen.dirName], by rw [hpath, hopen.extension],
      n, by rw [hpath, hn], Nat.lt_of_lt_of_le hlt hkeeps.stamp⟩
  exact ⟨h.update hkeeps hopen' (by rw [hposition]; exact h.not_rest hidx), hkeeps, idx', rfl,
    hposition⟩

/-- Reopening leaves the segment so far behind. -/
theorem ends_reopen (h : StoreSim directory K flushed pending (store, d))
    (hidx : store[StringDict.order κ]? = some idx) (hpending : pending κ = []) :
    Ends (onIndex (StringDict.order κ) (TocIndex.reopen TBTreeIndex)) (store, d)
      (fun _ u => StoreSim directory (fun x => K x ∨ x = idx.position)
          (Function.update flushed κ []) pending u ∧
        d.Keeps (fun x => K x ∨ x = idx.position) (fun _ => True) u.2 ∧
        ∀ k, k ∈ u.1 ↔ k ∈ store)
      fun _ _ => False := by
  have hopen := h.index κ idx hidx
  have hw := hopen.writing
  rw [hpending] at hw
  rw [ends_onIndex hidx]
  refine (TocIndex.ends_reopen h.faults hw).mono ?_ fun _ _ h => h
  rintro _ ⟨idx', d'⟩ ⟨⟨d₁, hwritten, hsegment, hoff, hd'⟩, hw', -, hpath, hkey, hd, htype⟩
  obtain ⟨n, hn, hlt⟩ := hopen.stamp
  have hnone : d₁.segment idx.path idx'.offset = none := by
    rw [show idx'.offset = _ from hoff]
    exact Disk.segment_size _
  have hkeeps₁ : d.Keeps (fun x => Rest K store κ x ∨ x = idx.position) (fun _ => True) d₁ := by
    have hk := hopen.keeps (T := fun _ => True) (h.not_rest hidx) hwritten
    refine ⟨hk.faults, hk.schema, hk.stamped, hk.stamp, hk.toc, fun p o hx => ?_⟩
    rcases hx with hx | hx
    · exact hk.segment p o hx
    · cases hx
      rw [hsegment, hw.segment, List.append_nil]
  have hfresh : ∀ p o, Rest K store κ (p, o) ∨ (p, o) = idx.position →
      (p, o) ≠ (idx.path, idx'.offset) := by
    rintro p o hx he
    have hsome : ∃ pages, d.segment p o = some pages := by
      rcases hx with hx | hx
      · exact h.rest_kept hx
      · cases hx
        exact ⟨_, hw.segment⟩
    cases he
    obtain ⟨pages, hp⟩ := hsome
    rw [← hkeeps₁.segment _ _ hx, hnone] at hp
    cases hp
  have hkeeps : d.Keeps (fun x => Rest K store κ x ∨ x = idx.position) (fun _ => True) d' := by
    rw [show d' = _ from hd']
    refine hkeeps₁.trans (.write (fun hx => hfresh _ _ hx rfl) fun m hm => ?_)
    rw [hn] at hm
    cases hm
    exact Nat.lt_of_lt_of_le hlt hkeeps₁.stamp
  have hopen' : idx'.OpenFor directory κ d' [] (pending κ) := by
    rw [hpending]
    refine ⟨hw', ?_, by rw [hkey, hopen.keys], by rw [hkey]; exact hopen.selectable,
      htype.trans hopen.type, by rw [hpath, hopen.dirName], by rw [hpath, hopen.extension],
      n, by rw [hpath, hn], Nat.lt_of_lt_of_le hlt hkeeps.stamp⟩
    exact hd.trans (by rw [hopen.dirty, hpending])
  have hposition : idx'.position = (idx.path, idx'.offset) := Prod.ext hpath rfl
  have hsim := h.update (hkeeps.mono (fun _ => .inl) fun _ => id) hopen'
    (fun hx => hfresh _ _ (.inl (hposition ▸ hx)) rfl)
  rw [Function.update_eq_self] at hsim
  have hrefl : d'.Keeps (fun _ => True) (fun _ => True) d' := .refl
  refine ⟨hsim.frame hrefl (fun _ _ _ => trivial) ?_ ?_,
    hkeeps.mono (fun x hx => hx.imp .inl id) fun _ => id, fun k => ?_⟩
  · rintro p o (hx | hx)
    · exact hsim.kept p o hx
    · cases hx
      exact ⟨_, (hkeeps.segment _ _ (.inr rfl)).trans hw.segment⟩
  · rintro κ' i hget (hx | hx)
    · exact hsim.apart κ' i hget hx
    · rw [getElem?_insert] at hget
      split at hget
      · cases hget
        exact hfresh _ _ (.inr rfl) (hx.symm.trans hposition)
      · rename_i hne
        exact h.distinct κ' κ i idx hget hidx (fun he => hne he.symm) hx
  · rw [Std.ExtTreeMap.mem_insert, Std.LawfulEqCmp.compare_eq_iff_eq]
    exact ⟨fun hk => hk.elim (fun he => he ▸ mem_iff.mpr ⟨idx, hidx⟩) id, .inr⟩

/-- A position where an index of the store is open. -/
def At (store : IndexStore) (x : Position) : Prop :=
  ∃ κ idx, store[StringDict.order κ]? = some idx ∧ x = idx.position

/-- The other store of a writer, after calls on this one. -/
theorem other {store' other : IndexStore} {flushed' pending' : StringDict → List Put}
    {T : PathName → Prop}
    (h : StoreSim directory (fun x => K x ∨ At other x) flushed pending (store', d'))
    (hk : d.Keeps (fun x => K x ∨ At other x) T d')
    (ho : StoreSim directory (fun x => K x ∨ At store x) flushed' pending' (other, d)) :
    StoreSim directory (fun x => K x ∨ At store' x) flushed' pending' (other, d') := by
  refine ho.frame hk (fun κ idx hidx => .inr ⟨κ, idx, hidx, rfl⟩) ?_ ?_
  · rintro p o (hx | ⟨κ, idx, hidx, he⟩)
    · exact h.kept p o (.inl hx)
    · cases he
      exact ⟨_, (h.index κ idx hidx).writing.segment⟩
  · rintro κ idx hidx (hx | ⟨κ', idx', hidx', he⟩)
    · exact ho.apart κ idx hidx (.inl hx)
    · exact h.apart κ' idx' hidx' (.inr ⟨κ, idx, hidx, he.symm⟩)

/-- Nothing is pending in any index of the store, so that closing writes nothing. -/
def Closable (store : IndexStore) (d : Disk) : Prop :=
  ∀ (k : List String) (idx : TocIndex BTreeHandle), store[k]? = some idx →
    idx.btree = none ∨ ∃ flushed, idx.Writing d flushed []

theorem closable (h : StoreSim directory K flushed pending (store, d))
    (hp : ∀ κ, pending κ = []) : Closable store d := by
  intro k idx hidx
  obtain ⟨κ, rfl⟩ := h.key k (mem_iff.mpr ⟨idx, hidx⟩)
  have hw := (h.index κ idx hidx).writing
  rw [hp κ] at hw
  exact .inr ⟨_, hw⟩

theorem ends_close {k : List String} (h : Closable store d) (hk : k ∈ store) :
    Ends (onIndex k (TocIndex.close TBTreeIndex)) (store, d)
      (fun _ u => u.2 = d ∧ Closable u.1 d ∧ ∀ k', k' ∈ store → k' ∈ u.1) fun _ _ => False := by
  obtain ⟨idx, hidx⟩ := mem_iff.mp hk
  have hclosed : ∀ idx', idx'.btree = none → Closable (store.insert k idx') d := by
    intro idx' hb k' i hget
    rw [Std.ExtTreeMap.getElem?_insert] at hget
    split at hget
    · cases hget
      exact .inl hb
    · exact h k' i hget
  rw [ends_onIndex hidx]
  rcases h k idx hidx with hb | ⟨flushed, hw⟩
  · rw [TocIndex.close]
    simp only [ends_bind, ends_get, hb, ends_pure]
    exact ⟨trivial, hclosed idx hb, fun k' hk' => by rw [insert_same hidx]; exact hk'⟩
  · rw [TocIndex.ends_close hw]
    refine ⟨rfl, hclosed _ rfl, fun k' hk' => ?_⟩
    rw [Std.ExtTreeMap.mem_insert]
    exact .inr hk'

end StoreSim

end Fdb5
