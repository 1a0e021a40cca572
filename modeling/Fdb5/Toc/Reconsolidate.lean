import Fdb5.Toc.PartialWipe

/-! Writing all indexes of a database anew: `reconsolidateIndexesAndTocs`. -/
namespace Fdb5

open Effect

/-- `EntryVisitor`, with the catalogue's key and schema and the index that it was shown. -/
structure ConsolidateIndexVisitor where
  currentCatalogue : Option (Key × Schema) := none
  currentIndex : Option (TocIndex BTreeHandle) := none

/-- `TocIndex::entries(visitor)`; the closer shuts an index that was not open before. -/
def TocIndex.entries (idx : TocIndex BTreeHandle)
    (visitDatum : FieldLocation → String → WriterM Unit) : WriterM Unit := do
  let b ← match idx.btree with
    | some b => pure b
    | none => onSnd (TBTreeIndex.build idx.path (idx.write = false) idx.offset)
  b.pages.toList.forM fun e => do
    let uri ← lift (idx.files.get e.2.uriId)
    visitDatum { uri, offset := e.2.offset, length := e.2.length, remapKey := {} } e.1
  if idx.btree.isNone then onSnd (TBTreeIndex.destroy b) else pure ()

namespace TocCatalogueWriter

/-- `index(key, uri, offset, length)`. -/
def index (key : Key) (uri : URI) (offset length : Nat) : WriterM Unit :=
  archive key { uri, offset, length, remapKey := {} }

end TocCatalogueWriter

namespace ConsolidateIndexVisitor

def visitIndex (v : ConsolidateIndexVisitor) (idx : TocIndex BTreeHandle) : ConsolidateIndexVisitor :=
  { v with currentIndex := some idx }

/-- `EntryVisitor::visitDatum(field, keyFingerprint)`, then the visitor's own for the key. -/
def visitDatum (v : ConsolidateIndexVisitor) (location : FieldLocation) (fingerprint : String) :
    WriterM Unit :=
  match v.currentCatalogue, v.currentIndex with
  | none, _ => throw (.assertion "currentCatalogue_")
  | some _, none => throw (.assertion "currentIndex_")
  | some (key, schema), some idx => do
    let key ← lift (Key.ofFingerprint fingerprint (schema.ruleFor key idx.key))
    TocCatalogueWriter.index key location.uri location.offset location.length

end ConsolidateIndexVisitor

namespace TocCatalogueWriter

/-- One turn of the loop over the indexes. -/
def reconsolidateIndex (v : ConsolidateIndexVisitor) (idx : TocIndex BTreeHandle) : WriterM Unit := do
  selectIndex idx.key
  idx.entries (v.visitIndex idx).visitDatum

/-- The records that mask what was visited. -/
def maskRecords (directory : String) (readIndexes : List TocHandler.Loaded) : List TocRecord :=
  (readIndexes.filter (·.subToc.isNone)).map (fun x => TocHandler.buildClearRecord x.index) ++
    (readIndexes.filterMap (·.subToc)).dedup.map (TocHandler.buildSubTocMaskRecord directory)

def reconsolidateIndexesAndTocs (depth : Nat) : WriterM Unit := do
  let w ← (·.1) <$> get
  let readIndexes ← lift (TocHandler.loadIndexesAndSubTocs (← get).2 w.version depth w.tocPath)
  readIndexes.forM fun x => reconsolidateIndex {} x.index
  clean
  close
  onSnd (TocHandler.appendBlock w.tocPath (maskRecords w.directory readIndexes))

end TocCatalogueWriter

/-- Nothing that could be read before was changed. -/
structure Disk.Untouched (d d' : Disk) : Prop where
  faults : d'.faults = d.faults
  toc : ∀ q, d'.toc q = d.toc q
  exists_of : ∀ q, d.pathExists q = true → d'.pathExists q = true
  segment : ∀ q o pages, d.segment q o = some pages → d'.segment q o = some pages

namespace Disk.Untouched

variable {d d' d'' : Disk}

theorem refl : d.Untouched d := ⟨rfl, fun _ => rfl, fun _ h => h, fun _ _ _ h => h⟩

theorem trans (h : d.Untouched d') (h' : d'.Untouched d'') : d.Untouched d'' :=
  ⟨h'.faults.trans h.faults, fun q => (h'.toc q).trans (h.toc q),
    fun q hq => h'.exists_of q (h.exists_of q hq),
    fun q o pages hp => h'.segment q o pages (h.segment q o pages hp)⟩

theorem unique : d.Untouched { d with stamp := d.stamp + 1 } :=
  ⟨rfl, fun _ => rfl, fun _ h => h, fun _ _ _ h => h⟩

theorem newSegment {p : PathName} {offset : Nat} (h : d.segment p offset = none) :
    d.Untouched (d.append (.segment p offset ∅)) := by
  refine ⟨rfl, fun q => by simp [Write.onToc], fun q hq => ?_, fun q o pages hp => ?_⟩
  · simp [Write.onExists, Write.path, hq]
  · rw [segment_append, Write.onSegment, if_neg]
    · exact hp
    · rintro ⟨rfl, rfl⟩
      rw [h] at hp
      cases hp

end Disk.Untouched

namespace TBTreeIndex

variable {d : Disk} {p : PathName} {offset : Nat}

theorem ends_build_there {readOnly : Bool} {pages : Pages} {Q : BTreeHandle → Disk → Prop}
    {E : Failure → Disk → Prop} (hf : d.faults = []) (h : d.segment p offset = some pages) :
    Ends (build p readOnly offset) d Q E ↔ Q { path := p, readOnly, offset, pages } d := by
  rw [build]
  simp only [ends_bind, Disk.ends_syscall hf, ends_get, h, ends_pure]

theorem ends_build_writable (hf : d.faults = []) :
    Ends (build p false offset) d (fun b d' => b.dirty = false ∧ d.Untouched d') fun _ _ => False := by
  cases h : d.segment p offset with
  | some pages => exact (ends_build_there hf h).mpr ⟨rfl, .refl⟩
  | none =>
    rw [build]
    simp only [ends_bind, Disk.ends_syscall hf, ends_get, h, Bool.false_eq_true, if_false,
      Disk.ends_write hf, ends_pure]
    exact ⟨trivial, .newSegment h⟩

end TBTreeIndex

/-- The index is there to be written, and nothing has been written to it. -/
structure TocIndex.Idle (idx : TocIndex BTreeHandle) : Prop where
  write : idx.write = true
  clean : idx.dirty = false
  handle : ∀ b, idx.btree = some b → b.dirty = false

def IndexStore.Idle (store : IndexStore) : Prop :=
  ∀ (k : List String) (idx : TocIndex BTreeHandle), store[k]? = some idx → idx.Idle

namespace IndexStore

variable {store : IndexStore} {d : Disk} {key : Key} {directory : String}

theorem Idle.insert {k : List String} {idx : TocIndex BTreeHandle} (h : store.Idle) (hidx : idx.Idle) :
    Idle (store.insert k idx) := by
  intro k' i hget
  rw [Std.ExtTreeMap.getElem?_insert] at hget
  split at hget
  · cases hget
    exact hidx
  · exact h k' i hget

theorem ends_make_idle (h : store.Idle) (hk : ∃ stem, key.valuesToString = .ok stem) :
    Ends (make directory key) (store, d)
      (fun _ u => u.1.Idle ∧ d.Untouched u.2 ∧ key.order ∈ u.1) fun _ _ => False := by
  obtain ⟨stem, hstem⟩ := hk
  rw [make]
  simp only [ends_bind, ends_get, ends_ite, ends_pure]
  refine ⟨fun hmem => ⟨h, .refl, hmem⟩, fun hmem => ?_⟩
  simp only [hstem, ends_lift, Except.ok.injEq, forall_eq', reduceCtorEq, false_implies, implies_true,
    and_true, ends_focus, Disk.unique, ends_bind, ends_get, ends_set, ends_pure, ends_modify]
  exact ⟨h.insert ⟨rfl, rfl, fun _ hb => by cases hb⟩, .unique, by simp⟩

theorem ends_open_idle (hf : d.faults = []) (h : store.Idle) (hmem : key.order ∈ store) :
    Ends (onIndex key.order (TocIndex.openIndex TBTreeIndex)) (store, d)
      (fun _ u => u.1.Idle ∧ d.Untouched u.2) fun _ _ => False := by
  obtain ⟨idx, hidx⟩ := mem_iff.mp hmem
  have hidle := h _ idx hidx
  rw [ends_onIndex hidx, TocIndex.openIndex]
  simp only [ends_bind, ends_map, ends_get]
  cases hb : idx.btree with
  | some b =>
    simp only [Option.isNone_some, Bool.false_eq_true, if_false, ends_pure]
    exact ⟨h.insert hidle, .refl⟩
  | none =>
    simp only [Option.isNone_none, if_true, ends_bind, ends_focus, ends_modify, hidle.write,
      Bool.true_eq_false, decide_false]
    refine (TBTreeIndex.ends_build_writable hf).mono (fun b d' hd => ?_) fun _ _ h => h
    exact ⟨h.insert ⟨rfl, hidle.clean, fun _ he => Option.some.inj he ▸ hd.1⟩, hd.2⟩

theorem ends_close_idle {k : List String} (hf : d.faults = []) (h : store.Idle) (hmem : k ∈ store) :
    Ends (onIndex k (TocIndex.close TBTreeIndex)) (store, d)
      (fun _ u => u.1.Idle ∧ u.2 = d ∧ ∀ k', k' ∈ store → k' ∈ u.1) fun _ _ => False := by
  obtain ⟨idx, hidx⟩ := mem_iff.mp hmem
  have hidle := h _ idx hidx
  have hkept : ∀ (i : TocIndex BTreeHandle) k', k' ∈ store → k' ∈ store.insert k i := fun i k' hk' => by
    rw [Std.ExtTreeMap.mem_insert]
    exact .inr hk'
  rw [ends_onIndex hidx, TocIndex.close]
  simp only [ends_bind, ends_get]
  cases hb : idx.btree with
  | none => exact ⟨h.insert hidle, rfl, hkept _⟩
  | some b =>
    simp only [ends_bind, ends_modify, ends_focus, TBTreeIndex, TocIndex.ends_destroy hf,
      hidle.handle b hb, Bool.false_eq_true, if_false]
    exact ⟨h.insert ⟨hidle.write, hidle.clean, fun _ hb => by cases hb⟩, trivial, hkept _⟩

end IndexStore

namespace TocCatalogueWriter

/-- The writer was given nothing since it was `w`, and its disk is as `d`. -/
structure Idle (w : TocCatalogueWriter) (d : Disk) (s : TocCatalogueWriter × Disk) : Prop where
  directory : s.1.directory = w.directory
  version : s.1.version = w.version
  clean : s.1.dirty = false
  subTocWrite : s.1.subTocWrite = none
  indexes : s.1.indexes.Idle
  fullIndexes : s.1.fullIndexes.Idle
  faults : s.2.faults = []
  untouched : d.Untouched s.2

variable {w : TocCatalogueWriter} {d : Disk} {s : TocCatalogueWriter × Disk} {key : Key}

theorem ends_selectIndex_idle (h : Idle w d s) (hk : ∃ stem, key.valuesToString = .ok stem) :
    Ends (selectIndex key) s (fun _ => Idle w d) fun _ _ => False := by
  obtain ⟨w', d₀⟩ := s
  obtain ⟨hdir, hver, hclean, hsub, hidx, hfull, hf, hd⟩ := h
  simp only at hdir hver hclean hsub hidx hfull hf hd
  rw [selectIndex]
  simp only [ends_bind, ends_modify, ends_map, ends_get, onIndexes, onFullIndexes, ends_focus]
  refine (IndexStore.ends_make_idle hidx hk).mono ?_ fun _ _ h => h
  rintro _ ⟨store₁, d₁⟩ ⟨hidx₁, hd₁, hmem⟩
  refine (IndexStore.ends_open_idle (hd₁.faults.trans hf) hidx₁ hmem).mono ?_ fun _ _ h => h
  rintro _ ⟨store₂, d₂⟩ ⟨hidx₂, hd₂⟩
  have hto := (hd.trans hd₁).trans hd₂
  have hf₂ : d₂.faults = [] := hd₂.faults.trans (hd₁.faults.trans hf)
  rw [ends_ite]
  refine ⟨fun _ => ?_, fun _ => ⟨hdir, hver, hclean, hsub, hidx₂, hfull, hf₂, hto⟩⟩
  simp only [ends_bind, ends_focus, ends_modify]
  refine (IndexStore.ends_make_idle hfull hk).mono ?_ fun _ _ h => h
  rintro _ ⟨store₃, d₃⟩ ⟨hfull₃, hd₃, hmem₃⟩
  refine (IndexStore.ends_open_idle (hd₃.faults.trans hf₂) hfull₃ hmem₃).mono ?_ fun _ _ h => h
  rintro _ ⟨store₄, d₄⟩ ⟨hfull₄, hd₄⟩
  exact ⟨hdir, hver, hclean, hsub, hidx₂, hfull₄, hd₄.faults.trans (hd₃.faults.trans hf₂),
    (hto.trans hd₃).trans hd₄⟩

/-- Visiting an index goes well if the index has no entry, and only then. -/
theorem ends_reconsolidateIndex {idx : TocIndex BTreeHandle} {pages : Pages} (h : Idle w d s)
    (hk : ∃ stem, idx.key.valuesToString = .ok stem) (hidx : idx.IsLoaded)
    (hpages : d.segment idx.path idx.offset = some pages) :
    Ends (reconsolidateIndex {} idx) s (fun _ u => Idle w d u ∧ pages = ∅) fun _ _ => pages ≠ ∅ := by
  rw [reconsolidateIndex, ends_bind]
  refine (ends_selectIndex_idle h hk).mono (fun _ u hu => ?_) fun _ _ h => h.elim
  obtain ⟨w', d'⟩ := u
  have hd := hu.untouched
  have hf := hu.faults
  simp only at hd hf
  rw [TocIndex.entries]
  simp only [hidx.2, Option.isNone_none, if_true, ends_bind, ends_focus,
    TBTreeIndex.ends_build_there hf (hd.segment _ _ _ hpages)]
  cases hlist : pages.toList with
  | nil =>
    have hempty : pages = ∅ := by simpa using hlist
    change Ends (pure ()) _ _ _
    simp only [ends_pure, TocIndex.ends_destroy hf, Bool.false_eq_true, if_false]
    exact ⟨hu, hempty⟩
  | cons e entries =>
    have hne : pages ≠ ∅ := by
      rintro rfl
      cases hlist
    -- the first entry meets the visitor, which was not shown the catalogue
    change Ends (_ >>= fun _ => entries.forM _) _ _ _
    simp only [ends_bind, ends_lift, ConsolidateIndexVisitor.visitIndex,
      ConsolidateIndexVisitor.visitDatum, ends_throw]
    exact ⟨fun _ _ => hne, fun _ _ => hne⟩

theorem ends_closeIndexes_idle (h : Idle w d s) :
    Ends closeIndexes s (fun _ => Idle w d) fun _ _ => False := by
  have hindexes : ∀ keys : List (List String), ∀ t, (Idle w d t ∧ ∀ k ∈ keys, k ∈ t.1.indexes) →
      Ends (keys.forM fun k => onIndexes (IndexStore.onIndex k (TocIndex.close TBTreeIndex))) t
        (fun _ u => Idle w d u ∧ ∀ k ∈ keys, k ∈ u.1.indexes) fun _ _ => False := by
    intro keys
    refine ends_forM fun k hk t ht => ?_
    obtain ⟨ht, hkeys⟩ := ht
    rw [onIndexes, ends_focus]
    refine (IndexStore.ends_close_idle ht.faults ht.indexes (hkeys k hk)).mono ?_ fun _ _ h => h
    rintro _ ⟨store, d'⟩ ⟨hstore, rfl, hmem⟩
    exact ⟨⟨ht.directory, ht.version, ht.clean, ht.subTocWrite, hstore, ht.fullIndexes, ht.faults,
      ht.untouched⟩, fun k' hk' => hmem k' (hkeys k' hk')⟩
  have hfull : ∀ keys : List (List String), ∀ t, (Idle w d t ∧ ∀ k ∈ keys, k ∈ t.1.fullIndexes) →
      Ends (keys.forM fun k => onFullIndexes (IndexStore.onIndex k (TocIndex.close TBTreeIndex))) t
        (fun _ u => Idle w d u ∧ ∀ k ∈ keys, k ∈ u.1.fullIndexes) fun _ _ => False := by
    intro keys
    refine ends_forM fun k hk t ht => ?_
    obtain ⟨ht, hkeys⟩ := ht
    rw [onFullIndexes, ends_focus]
    refine (IndexStore.ends_close_idle ht.faults ht.fullIndexes (hkeys k hk)).mono ?_ fun _ _ h => h
    rintro _ ⟨store, d'⟩ ⟨hstore, rfl, hmem⟩
    exact ⟨⟨ht.directory, ht.version, ht.clean, ht.subTocWrite, ht.indexes, hstore, ht.faults,
      ht.untouched⟩, fun k' hk' => hmem k' (hkeys k' hk')⟩
  rw [closeIndexes]
  simp only [ends_bind, ends_get]
  refine (hindexes _ s ⟨h, fun k hk => Std.ExtTreeMap.mem_keys.mp hk⟩).mono (fun _ t ht => ?_)
    fun _ _ h => h
  refine (hfull _ t ⟨ht.1, fun k hk => Std.ExtTreeMap.mem_keys.mp hk⟩).mono (fun _ u hu => ?_)
    fun _ _ h => h
  have hu := hu.1
  exact ⟨hu.directory, hu.version, hu.clean, hu.subTocWrite, fun _ _ he => by simp at he,
    fun _ _ he => by simp at he, hu.faults, hu.untouched⟩

theorem ends_clean_idle (h : Idle w d s) : Ends clean s (fun _ => Idle w d) fun _ _ => False := by
  rw [clean, flush, compactSubTocIndexes]
  simp only [ends_bind, ends_get, ends_map, h.clean, Bool.false_eq_true, if_false, ends_pure,
    h.subTocWrite, deselectIndex, ends_modify]
  exact ⟨h.directory, h.version, rfl, rfl, h.indexes, h.fullIndexes, h.faults, h.untouched⟩

end TocCatalogueWriter

/-- What a reader answered before it still answers. -/
def PreservesRetrieval (version depth : Nat) (toc : PathName) (d d' : Disk) : Prop :=
  ∀ k1 k2 r, d.retrieve version depth toc k1 k2 = .ok r → d'.retrieve version depth toc k1 k2 = .ok r

/-- Every visible index has a B-tree without entries. -/
def NoEntries (d : Disk) (l : List TocHandler.Loaded) : Prop :=
  ∀ x ∈ l, d.segment x.index.path x.index.offset = some ∅

/-- The indexes are as writers leave them: their keys can be written and their B-trees are there. -/
structure ReadableIndexes (d : Disk) (l : List TocHandler.Loaded) : Prop where
  key : ∀ x ∈ l, ∃ stem, x.index.key.valuesToString = .ok stem
  segment : ∀ x ∈ l, ∃ pages, d.segment x.index.path x.index.offset = some pages

section Reconsolidate

open TocHandler TocCatalogueWriter

variable {w : TocCatalogueWriter} {d d' : Disk} {l : List Loaded} {depth version : Nat}
  {log : List TocRecord} {toc : PathName} {s : TocCatalogueWriter × Disk}

theorem ends_reconsolidateAll (h : Idle w d s) (hr : ReadableIndexes d l)
    (hloaded : ∀ x ∈ l, x.index.IsLoaded) :
    Ends (l.forM fun x => reconsolidateIndex {} x.index) s (fun _ u => Idle w d u ∧ NoEntries d l)
      fun _ _ => ¬ NoEntries d l := by
  refine ends_forM_prefix (P := fun pre u => Idle w d u ∧ NoEntries d pre) (fun pre x hx u hu => ?_) [] s
    ⟨h, fun x hx => by cases hx⟩
  obtain ⟨pages, hpages⟩ := hr.segment x hx
  refine (ends_reconsolidateIndex hu.1 (hr.key x hx) (hloaded x hx) hpages).mono
    (fun _ v hv => ⟨hv.1, fun y hy => ?_⟩) fun _ _ hne hall => hne ?_
  · rcases List.mem_append.mp hy with hy | hy
    · exact hu.2 y hy
    · rw [List.mem_singleton.mp hy, hpages, hv.2]
  · exact Option.some.inj (hpages.symm.trans (hall x hx))

theorem onlyClears_maskRecords {directory : String} : OnlyClears (maskRecords directory l) := by
  intro r hr
  rcases List.mem_append.mp hr with hr | hr <;> obtain ⟨_, -, rfl⟩ := List.mem_map.mp hr
  · exact ⟨_, _, rfl⟩
  · exact ⟨_, _, rfl⟩

/-- All that was visited is masked. -/
theorem maskName_maskRecords {directory : String} {x : Loaded} (hx : x ∈ l) :
    x.maskName ∈ clearedNames (maskRecords directory l) := by
  refine mem_populateFrom.mpr (.inl ?_)
  cases hsub : x.subToc with
  | none =>
    refine ⟨_, _, List.mem_append_left _ (List.mem_map.mpr ⟨x, List.mem_filter.mpr ⟨hx, ?_⟩, rfl⟩), ?_⟩
    · simp [hsub]
    · simp [Loaded.maskName, hsub, StoredPath.baseName]
  | some q =>
    refine ⟨_, _, List.mem_append_right _ (List.mem_map.mpr ⟨q, List.mem_dedup.mpr
      (List.mem_filterMap.mpr ⟨x, hx, hsub⟩), rfl⟩), ?_⟩
    simp only [Loaded.maskName, hsub, StoredPath.of]
    split <;> rfl

theorem find_empty {key : Key} {m : TocIndex BTreeHandle × Key} {r : Option FieldLocation}
    (hm : d.segment m.1.path m.1.offset = some ∅) (h : TocIndex.find d key m = .ok r) : r = none := by
  simp only [TocIndex.find, except_bind_ok] at h
  obtain ⟨b, -, h⟩ := h
  split at h
  · rw [hm] at h
    simp only [except_bind_ok, Std.ExtTreeMap.getElem?_empty] at h
    obtain ⟨-, -, -, -, h⟩ := h
    exact (except_pure_ok.mp h).symm
  · exact (except_pure_ok.mp h).symm

theorem findFrom_empty {key : Key} {ms : List (TocIndex BTreeHandle × Key)} {r : Option FieldLocation}
    (hms : ∀ m ∈ ms, d.segment m.1.path m.1.offset = some ∅)
    (h : TocCatalogueReader.findFrom d key ms = .ok r) : r = none := by
  induction ms with
  | nil => exact (except_pure_ok.mp h).symm
  | cons m ms ih =>
    simp only [TocCatalogueReader.findFrom, except_bind_ok] at h
    obtain ⟨found, hfound, h⟩ := h
    obtain rfl := find_empty (hms m (.head _)) hfound
    exact ih (fun m hm => hms m (.tail _ hm)) h

/-- Where no index has an entry nothing is ever found. -/
theorem retrieve_noEntries (hf : d.faults = []) (hl : loadIndexesAndSubTocs d version depth toc = .ok l)
    (hempty : NoEntries d l) {k1 k2 : Key} {r : Option FieldLocation}
    (h : d.retrieve version depth toc k1 k2 = .ok r) : r = none := by
  have hload : loadIndexes d version depth toc = .ok (l.map fun x => (x.index, x.remapKey)) := by
    rw [loadIndexes_eq, hl]
    rfl
  rw [Disk.retrieve_eq hf hload fun m hm => ?_] at h
  · split at h
    · exact (Except.ok.inj h).symm
    · refine findFrom_empty (fun m hm => ?_) h
      obtain ⟨x, hx, rfl⟩ := List.mem_map.mp (List.mem_of_mem_filter hm)
      exact hempty x hx
  · obtain ⟨x, hx, rfl⟩ := List.mem_map.mp hm
    exact isLoaded hl x hx

theorem retrieve_nothing (hf : d.faults = []) (hl : loadIndexesAndSubTocs d version depth toc = .ok [])
    (k1 k2 : Key) : d.retrieve version depth toc k1 k2 = .ok none := by
  have hload : loadIndexes d version depth toc = .ok [] := by
    rw [loadIndexes_eq, hl]
    rfl
  rw [Disk.retrieve_eq hf hload fun m hm => by cases hm]
  split <;> rfl

/-- What is visible after masks were appended to a toc. -/
theorem load_masked {added : List TocRecord} (hover : d.Overlaid) (hd : d.Untouched d')
    (hlog : d.toc toc = some log) (hadded : OnlyClears added)
    (hl : loadIndexesAndSubTocs d version depth toc = .ok l) :
    loadIndexesAndSubTocs (added.foldl (fun d r => d.append (.toc toc r)) d') version depth toc =
      .ok (l.filter fun x => x.maskName ∉ clearedNames added) := by
  obtain ⟨key, rest, hrest⟩ := hover.init _ log hlog
  refine load_cleared ⟨fun q hq => ?_, fun q log path hq hr => ?_⟩ hlog ⟨rest, hrest⟩ ?_ hadded hl
  · rw [toc_appended, if_neg fun h => hq h.1, hd.toc]
  · rcases hover.subToc q log hq path hr with ⟨base, rfl, -⟩ | ⟨directory, rfl, -, source, hs⟩
    · rfl
    · have hex := Disk.pathExists_of_toc hs
      rw [subTocPath_exists hex, subTocPath_exists (pathExists_appended (hd.exists_of _ hex))]
  · rw [toc_appended, hd.toc, hlog]
    cases added <;> simp

/-- Reconsolidation runs to its end, and leaves what is retrieved as it was, if and only if there is
nothing to consolidate: the visitor trips over the first entry that it is given. -/
theorem reconsolidates_iff (directory : String) (schema : Schema) (useSubToc : Bool)
    (hover : d.Overlaid) (hlog : d.toc (TocHandler.tocPath directory) = some log)
    (hl : loadIndexesAndSubTocs d version depth (TocHandler.tocPath directory) = .ok l)
    (hr : ReadableIndexes d l) :
    (∃ u, (reconsolidateIndexesAndTocs depth).run
        (({ directory, version, schema, useSubToc } : TocCatalogueWriter), d) = .ok () u ∧
      PreservesRetrieval version depth (TocHandler.tocPath directory) d u.2) ↔ NoEntries d l := by
  set w : TocCatalogueWriter := { directory, version, schema, useSubToc } with hw
  have hidle : Idle w d (w, d) := ⟨rfl, rfl, rfl, rfl, fun _ _ he => by simp [hw] at he,
    fun _ _ he => by simp [hw] at he, hover.faults, .refl⟩
  have hends : Ends (reconsolidateIndexesAndTocs depth) (w, d)
      (fun _ u => NoEntries d l ∧ u.2.faults = [] ∧
        loadIndexesAndSubTocs u.2 version depth (TocHandler.tocPath directory) = .ok [])
      fun _ _ => ¬ NoEntries d l := by
    rw [reconsolidateIndexesAndTocs]
    simp only [ends_bind, ends_map, ends_get, ends_lift]
    have hl' : loadIndexesAndSubTocs d w.version depth w.tocPath = .ok l := hl
    rw [hl']
    simp only [Except.ok.injEq, forall_eq', reduceCtorEq, false_implies, implies_true, and_true]
    refine (ends_reconsolidateAll hidle hr (isLoaded hl)).mono (fun _ s hs => ?_) fun _ _ h => h
    refine (ends_clean_idle hs.1).mono (fun _ s hs' => ?_) fun _ _ h => h.elim
    rw [close]
    refine (ends_closeIndexes_idle hs').mono (fun _ s hs'' => ?_) fun _ _ h => h.elim
    obtain ⟨w', d'⟩ := s
    have hf := hs''.faults
    have hd := hs''.untouched
    simp only at hf hd
    have hlog' : d'.toc w.tocPath = some log := (hd.toc _).trans hlog
    rw [ends_focus, appendBlock, ends_bind, TocHandler.ends_openForAppend hf hlog']
    simp only [ends_bind, Disk.ends_syscall hf, ends_modify]
    refine ⟨hs.2, faults_appended.trans hf, ?_⟩
    refine (load_masked hover hd hlog onlyClears_maskRecords hl).trans ?_
    refine congrArg Except.ok (List.filter_eq_nil_iff.mpr fun x hx => ?_)
    simpa using maskName_maskRecords hx
  constructor
  · rintro ⟨u, hrun, -⟩
    exact (hends.ok hrun).1
  · intro hempty
    obtain ⟨_, u, hrun, -, hf, hnone⟩ := (hends.mono (fun _ _ h => h) fun _ _ h => h hempty).returns
    refine ⟨u, hrun, fun k1 k2 r hret => ?_⟩
    obtain rfl := retrieve_noEntries hover.faults hl hempty hret
    exact retrieve_nothing hf hnone k1 k2

end Reconsolidate

section TwoTypes

open TocHandler TocCatalogueWriter

/-- The database with one field in the index of its own toc. -/
def oneField : Disk where
  writes := twoTypes.writes ++ [.segment (fileOf "an" ".index") 0
    ((∅ : Pages).insert "1000" { uriId := 0, offset := 0, length := 1 })]

def odWriter : TocCatalogueWriter where
  directory := "/od"
  version := od.version
  schema := ⟨.untyped, []⟩
  useSubToc := false

/-- Two indexes without fields are masked, and nothing is found as before. -/
theorem reconsolidates_twoTypes : ∃ u, (reconsolidateIndexesAndTocs od.depth).run (odWriter, twoTypes) =
    .ok () u ∧ PreservesRetrieval od.version od.depth od.tocPath twoTypes u.2 := by
  obtain ⟨fc, an, hl, hkeys, hsegments⟩ : ∃ fc an : Loaded,
      loadIndexesAndSubTocs twoTypes od.version od.depth od.tocPath = .ok [fc, an] ∧
      (∀ x ∈ [fc, an], ∃ stem, x.index.key.valuesToString = .ok stem) ∧
      ∀ x ∈ [fc, an], twoTypes.segment x.index.path x.index.offset = some ∅ := by
    refine ⟨_, _, rfl, fun x hx => ?_, fun x hx => ?_⟩
    all_goals rcases List.mem_pair.mp hx with rfl | rfl
    · exact ⟨_, rfl⟩
    · exact ⟨_, rfl⟩
    · rfl
    · rfl
  obtain ⟨log, hlog⟩ : ∃ log, twoTypes.toc od.tocPath = some log := ⟨_, rfl⟩
  exact (reconsolidates_iff "/od" ⟨.untyped, []⟩ false twoTypes_overlaid hlog hl
    ⟨hkeys, fun x hx => ⟨_, hsegments x hx⟩⟩).mpr hsegments

/-- One field that is found before is enough for the assertion to fail. -/
theorem reconsolidate_oneField :
    (∃ l, oneField.retrieve od.version od.depth od.tocPath (Key.ofList [("type", "an")] none)
        (Key.ofList [("step", "1000")] none) = .ok (some l)) ∧
      value ((reconsolidateIndexesAndTocs od.depth).run (odWriter, oneField)) =
        .error (.assertion "currentCatalogue_") ∧
      ¬ ∃ u, (reconsolidateIndexesAndTocs od.depth).run (odWriter, oneField) = .ok () u ∧
        PreservesRetrieval od.version od.depth od.tocPath oneField u.2 := by
  have hfail : value ((reconsolidateIndexesAndTocs od.depth).run (odWriter, oneField)) =
      .error (.assertion "currentCatalogue_") := rfl
  refine ⟨⟨_, rfl⟩, hfail, ?_⟩
  rintro ⟨u, hrun, -⟩
  rw [hrun] at hfail
  cases hfail

end TwoTypes

end Fdb5
