import Fdb5.Toc.Enumeration
import Fdb5.Toc.FullWipe
import Fdb5.Toc.PartialWipe

/-! Running a full wipe again after a crash. -/
namespace Fdb5

open Effect TocHandler

/-- The wipe finds no directory, or it finds the database and leaves nothing of it. -/
def Resumes (c : TocCatalogue) (rq : MarsRequest) (flags : WipeFlags) (d : Disk) : Prop :=
  d.directoryExists c.directory = false ∨ c.located d rq = true ∧
    ∃ d', (LocalFDB.wipe c rq flags).run d = .ok () d' ∧ d'.children c.directory = [] ∧
      d'.directoryExists c.directory = false

/-- The toc records an index of this name. -/
def HasIndex (d : Disk) (toc : PathName) (path : BaseName) : Prop :=
  ∃ log offset e, d.toc toc = some log ∧ .index path offset e ∈ log

/-- Index, data, control files and tocs are different files, and own sub-tocs are named as such. -/
structure Disk.OneKind (d : Disk) (version : Nat) : Prop where
  index : ∀ toc path, HasIndex d toc path →
    d.toc ⟨toc.dirName, path⟩ = none ∧ ∀ i : ControlIdentifier, path ≠ i.controlFile
  data : ∀ idx toc path offset e, RecordedIndex d version idx toc path offset e →
    ∀ uri ∈ idx.files.uris, d.toc uri.path = none ∧
      ∀ toc path, HasIndex d toc path → uri.path ≠ ⟨toc.dirName, path⟩
  subToc : ∀ p log, d.toc p = some log → ∀ base, .subToc (.relative base) ∈ log →
    base.isSubToc = true

namespace TocWipeVisitor

variable {v : TocWipeVisitor} {d d' t : Disk} {p q : PathName} {log : List TocRecord}
  {masked : List (PathName × Nat) × List URI} {subtocs : List PathName}

/-- The files visited are those of indexes that tocs record. -/
structure Recorded (v : TocWipeVisitor) (d : Disk) : Prop where
  index : ∀ p ∈ v.indexPaths, p.dirName = v.catalogue.directory ∧ ∃ idx toc path offset e,
    RecordedIndex d v.catalogue.version idx toc path offset e ∧ idx.path = p
  data : ∀ p ∈ v.dataPaths, p.dirName = v.catalogue.directory ∧ ∃ idx toc path offset e,
    RecordedIndex d v.catalogue.version idx toc path offset e ∧ ∃ uri ∈ idx.files.uris, uri.path = p

/-- What is known before the first deletion of a full wipe. -/
structure Sound (v : TocWipeVisitor) (d : Disk) (log : List TocRecord)
    (masked : List (PathName × Nat) × List URI) (subtocs : List PathName) : Prop where
  overlaid : d.Overlaid
  real : ∀ p, v.catalogue.real p = p
  oneKind : d.OneKind v.catalogue.version
  toc : d.toc v.catalogue.tocPath = some log
  recorded : v.Recorded d
  unfilled : v.Unfilled
  ready : v.Ready d masked subtocs

theorem hasIndex_of_recorded {idx : TocIndex BTreeHandle} {version offset : Nat} {toc : PathName}
    {path : BaseName} {e : EncodedIndex} (h : RecordedIndex d version idx toc path offset e) :
    HasIndex d toc path := by
  obtain ⟨log, hlog, hr⟩ := h.record
  exact ⟨log, offset, e, hlog, hr⟩

theorem path_of_recorded {idx : TocIndex BTreeHandle} {version offset : Nat} {toc : PathName}
    {path : BaseName} {e : EncodedIndex} (h : RecordedIndex d version idx toc path offset e) :
    idx.path = ⟨toc.dirName, path⟩ := by
  rw [TocIndex.decode_ok h.decoded]
  rfl

namespace Sound

theorem enumerated (h : v.Sound d log masked subtocs) :
    Enumerated d v.catalogue.version v.catalogue.depth v.catalogue.tocPath log masked :=
  TocHandler.enumerated h.toc h.ready.allMasked

theorem data_recorded (h : v.Sound d log masked subtocs) (hq : v.IsDataPath masked q) :
    ∃ idx toc path offset e, RecordedIndex d v.catalogue.version idx toc path offset e ∧
      ∃ uri ∈ idx.files.uris, uri.path = q := by
  rcases hq with hq | ⟨-, hq⟩
  · exact (h.recorded.data q hq).2
  · obtain ⟨uri, huri, rfl⟩ := List.mem_map.mp hq
    rcases (h.enumerated.data uri).mp huri with ⟨o, sub, ho, hsub⟩ | ⟨path, idx, hidx, hfiles⟩
    · obtain ⟨-, -, hname, -, henum⟩ := ho
      obtain ⟨-, -, hdata⟩ := enumerateSub_ok h.overlaid (ne_masterName hname) henum
      obtain ⟨idx, toc, path, offset, e, hr, hfiles⟩ := hdata uri hsub
      exact ⟨idx, toc, path, offset, e, hr, uri, hfiles, rfl⟩
    · obtain ⟨offset, e, hmem, -, -, hdecode⟩ := hidx
      exact ⟨idx, _, path, offset, e, ⟨⟨log, h.toc, hmem⟩, hdecode⟩, uri, hfiles, rfl⟩

theorem index_recorded (h : v.Sound d log masked subtocs) (hq : v.IsIndexPath masked q) :
    (∃ toc path, HasIndex d toc path ∧ q = ⟨toc.dirName, path⟩) ∨ q.baseName.isSubToc = false := by
  rcases hq with hq | ⟨-, -, hname⟩
  · obtain ⟨-, idx, toc, path, offset, e, hr, rfl⟩ := h.recorded.index q hq
    exact .inl ⟨toc, path, hasIndex_of_recorded hr, path_of_recorded hr⟩
  · exact .inr hname

/-- Only what is no sub-toc is deleted before the schema. -/
theorem kept_subToc (h : v.Sound d log masked subtocs) (hq : v.Claimed masked subtocs d q)
    (hname : q.baseName.isSubToc = true) {sub : List TocRecord} (hsub : d.toc q = some sub) :
    ¬ ((¬ v.Claimed masked subtocs d q ∨ v.IsDataPath masked q) ∨ v.IsIndexPath masked q) := by
  rintro ((hno | hdata) | hindex)
  · exact hno hq
  · obtain ⟨idx, toc, path, offset, e, hr, uri, huri, rfl⟩ := h.data_recorded hdata
    rw [(h.oneKind.data idx toc path offset e hr uri huri).1] at hsub
    cases hsub
  · rcases h.index_recorded hindex with ⟨toc, path, hr, rfl⟩ | hno
    · rw [(h.oneKind.index toc path hr).1] at hsub
      cases hsub
    · rw [hname] at hno
      cases hno

/-- The data of an index goes before the index. -/
theorem kept_index (h : v.Sound d log masked subtocs) {toc : PathName} {path : BaseName}
    (hr : HasIndex d toc path) (hq : v.Claimed masked subtocs d ⟨toc.dirName, path⟩) :
    ¬ (¬ v.Claimed masked subtocs d ⟨toc.dirName, path⟩ ∨ v.IsDataPath masked ⟨toc.dirName, path⟩) := by
  rintro (hno | hdata)
  · exact hno hq
  · obtain ⟨idx, toc', path', offset, e, hr', uri, huri, he⟩ := h.data_recorded hdata
    exact (h.oneKind.data idx toc' path' offset e hr' uri huri).2 toc path hr he

/-- The sub-tocs that are read are the database's own. -/
theorem relative_subToc (h : v.Sound d log masked subtocs) {path : StoredPath} (hr : .subToc path ∈ log)
    (hm : (path.baseName, 0) ∉ populateMaskedEntriesList log) :
    ∃ base, path = .relative base ∧ base.isSubToc = true := by
  rcases h.overlaid.subToc _ log h.toc path hr with ⟨base, rfl, -⟩ | ⟨directory, rfl, hne, source, hs⟩
  · exact ⟨base, rfl, h.oneKind.subToc _ log h.toc base hr⟩
  · have hex := Disk.pathExists_of_toc hs
    have hmem := mem_subTocPaths h.ready.subTocPaths ((mem_openedSubTocs h.toc).mpr ⟨_, hr, hm, rfl⟩)
    rw [subTocPath_exists hex] at hmem
    exact absurd (h.ready.inside _ (.inr (.inr (.inl (.inl hmem)))) ((h.real _).symm ▸ hex)) hne

end Sound

/-- The writes of a full wipe that deletes files of `S`. -/
def Deletes (directory : String) (S : PathName → Prop) (w : Write) : Prop :=
  Locks directory w ∨ RemovesOf S w

section Deletes

variable {directory : String} {S : PathName → Prop}

theorem deletes_kept (h : d.Grows (Deletes directory S) t) (hq : ¬ S q) :
    t.toc q = d.toc q ∧ (d.pathExists q = true → t.pathExists q = true) := by
  constructor
  · refine h.foldl fun w hw x => ?_
    rcases hw with ⟨i, -, rfl⟩ | hw
    · rfl
    · obtain ⟨o, ho, rfl⟩ := hw.ne hq
      exact if_neg ho
  · obtain ⟨added, hadded, hs⟩ := h
    rw [Disk.pathExists, Disk.pathExists, hadded, List.foldl_append]
    generalize d.writes.foldl (Write.onExists q) false = found
    clear hadded
    induction added generalizing found with
    | nil => exact id
    | cons w added ih =>
      rintro rfl
      rw [List.foldl_cons]
      refine ih (fun w hw => hs w (.tail _ hw)) _ ?_
      rcases hs w (.head _) with ⟨i, -, rfl⟩ | hw
      · simp [Write.onExists]
      · obtain ⟨o, ho, rfl⟩ := hw.ne hq
        exact if_neg ho

theorem deletes_toc (h : d.Grows (Deletes directory S) t) : t.toc q = d.toc q ∨ t.toc q = none := by
  refine h.foldl_or fun w hw => ?_
  rcases hw with ⟨i, -, rfl⟩ | ⟨o, -, rfl⟩
  · exact .inl fun _ => rfl
  · by_cases ho : o = q
    · exact .inr fun _ => if_pos ho
    · exact .inl fun _ => if_neg ho

theorem deletes_exists (h : d.Grows (Deletes directory S) t) (hq : t.pathExists q = true) :
    d.pathExists q = true ∨ ∃ i ∈ [ControlIdentifier.list, .retrieve, .archive],
      q = controlFilePath directory i := by
  refine (h.exists_new hq).imp id ?_
  rintro ⟨w, ⟨i, hi, rfl⟩ | ⟨o, -, rfl⟩, hpath, hno⟩
  · exact ⟨i, hi, hpath.symm⟩
  · exact absurd rfl (hno o)

end Deletes

/-- A disk that a crash can leave while the schema is still there. -/
structure Crashed (v : TocWipeVisitor) (masked : List (PathName × Nat) × List URI)
    (subtocs : List PathName) (d t : Disk) : Prop where
  grows : d.Grows (Deletes v.catalogue.directory fun p =>
    (¬ v.Claimed masked subtocs d p ∨ v.IsDataPath masked p) ∨ v.IsIndexPath masked p) t
  ordered : ∀ p, v.IsDataPath masked p → d.pathExists p = true → t.pathExists p = true →
    d.Grows (Deletes v.catalogue.directory fun p =>
      ¬ v.Claimed masked subtocs d p ∨ v.IsDataPath masked p) t

theorem mem_dataPaths_cleaned : p ∈ ((v.claim masked subtocs d).cleaned d).dataPaths ↔
    v.IsDataPath masked p ∧ d.pathExists (v.catalogue.real p) = true := by
  simp only [cleaned, existing, claim, addMaskedPaths, IsDataPath, List.mem_filter,
    List.mem_union_iff]
  grind

theorem mem_indexPaths_cleaned : p ∈ ((v.claim masked subtocs d).cleaned d).indexPaths ↔
    v.IsIndexPath masked p ∧ d.pathExists (v.catalogue.real p) = true := by
  simp only [cleaned, existing, claim, addMaskedPaths, IsIndexPath, List.mem_filter,
    List.mem_union_iff, Bool.not_eq_true']
  grind

/-- While the schema is there, nothing but residual files, data and indexes has been deleted. -/
theorem crashed (hv : v.Unfilled) (hreal : ∀ p, v.catalogue.real p = p) (h : ((v.claim masked subtocs d).cleaned d).Erased d d')
    (hschema : d.pathExists v.catalogue.schemaPath = true) (ht : d.writes <+: t.writes)
    (ht' : t.writes <+: d'.writes) (hthere : t.pathExists v.catalogue.schemaPath = true) :
    v.Crashed masked subtocs d t := by
  obtain ⟨-, -, d₁, hlocks, d₂, d₃, h₂, h₃, hd₃, hgone⟩ := h
  have hto₂ : d.Grows (Deletes v.catalogue.directory fun p =>
      ¬ v.Claimed masked subtocs d p ∨ v.IsDataPath masked p) d₂ := by
    refine (hlocks.mono fun w hw => .inl hw).trans (h₂.grows.mono fun w ⟨p, hp, hw⟩ => .inr ⟨p, ?_, hw⟩)
    rcases List.mem_append.mp hp with hp | hp
    · exact .inl ((mem_residual hv).mp hp).2
    · exact .inr (mem_dataPaths_cleaned.mp hp).1
  have hto₃ : d.Grows (Deletes v.catalogue.directory fun p =>
      (¬ v.Claimed masked subtocs d p ∨ v.IsDataPath masked p) ∨ v.IsIndexPath masked p) d₃ := by
    refine (hto₂.mono fun w hw => hw.imp id fun ⟨p, hp, hw⟩ => ⟨p, .inl hp, hw⟩).trans
      (h₃.grows.mono fun w ⟨p, hp, hw⟩ => .inr ⟨p, .inr (mem_indexPaths_cleaned.mp hp).1, hw⟩)
  have hs : ((v.claim masked subtocs d).cleaned d).schemaPath = some v.catalogue.schemaPath := by
    simp [cleaned, existing, claim, addMaskedPaths, hreal, hschema]
  have hbefore : t.writes <+: d₃.writes := by
    rcases List.prefix_or_prefix_of_prefix ht' hd₃ with h | h
    · exact h
    · by_cases heq : t.writes = d₃.writes
      · exact heq ▸ List.prefix_rfl
      · rw [hgone t h ht' heq _ hs] at hthere
        cases hthere
  refine ⟨hto₃.between ht hbefore, fun p hp hex hpt => ?_⟩
  obtain ⟨added, hadded, -⟩ := h₃.grows
  rcases List.prefix_or_prefix_of_prefix hbefore ⟨added, hadded.symm⟩ with h | h
  · exact hto₂.between ht h
  · have hno := pathExists_removed (h₃.grows.between h hbefore)
      (h₂.gone p (List.mem_append_right _ (mem_dataPaths_cleaned.mpr ⟨hp, (hreal p).symm ▸ hex⟩)))
    rw [hno] at hpt
    cases hpt

namespace Sound

theorem toc_kept (h : v.Sound d log masked subtocs) (hc : v.Crashed masked subtocs d t)
    (hq : v.Claimed masked subtocs d q) (hname : q.baseName.isSubToc = true) :
    t.toc q = d.toc q := by
  cases hsub : d.toc q with
  | none => exact (deletes_toc hc.grows).elim (fun he => he.trans hsub) id
  | some sub => rw [← hsub, (deletes_kept hc.grows (h.kept_subToc hq hname hsub)).1]

/-- The tocs of the database are read as before. -/
theorem sameToc (h : v.Sound d log masked subtocs) (hc : v.Crashed masked subtocs d t)
    (htoc : t.toc v.catalogue.tocPath = some log) :
    ∀ o, Relation.ReflTransGen (Mounts d) v.catalogue.tocPath o → SameToc d t o := by
  intro o ho
  rcases ho.cases_head with rfl | ⟨q, hq, hrest⟩
  · refine ⟨htoc.trans h.toc.symm, fun log' path hlog hr hm => ?_⟩
    obtain rfl := Option.some.inj (h.toc.symm.trans hlog)
    obtain ⟨base, rfl, -⟩ := h.relative_subToc hr hm
    rfl
  · have hmem := mem_subTocPaths h.ready.subTocPaths hq
    obtain ⟨path, hr, hm, rfl⟩ := (mem_openedSubTocs h.toc).mp hq
    obtain ⟨base, rfl, hname⟩ := h.relative_subToc hr hm
    have hnone : ∀ o, ¬ Mounts d ⟨v.catalogue.directory, base⟩ o := by
      intro o ho
      cases hlog : d.toc ⟨v.catalogue.directory, base⟩ with
      | none => rw [Mounts, openedSubTocs_none hlog] at ho; cases ho
      | some sub => rw [Mounts, (populate_own h.overlaid (ne_masterName hname) hlog).2] at ho; cases ho
    rcases hrest.cases_head with rfl | ⟨o', ho', -⟩
    · refine ⟨h.toc_kept hc (.inr (.inr (.inl (.inl hmem)))) hname, fun sub path hsub hr' hm' => ?_⟩
      exact absurd ((mem_openedSubTocs hsub).mpr ⟨path, hr', hm', rfl⟩) (hnone _)
    · exact absurd ho' (hnone o')

theorem subTocPaths_same (h : v.Sound d log masked subtocs) (hc : v.Crashed masked subtocs d t)
    (htoc : t.toc v.catalogue.tocPath = some log) :
    TocHandler.subTocPaths t v.catalogue.depth v.catalogue.tocPath = .ok subtocs := by
  rw [TocHandler.subTocPaths, read_same rfl (h.sameToc hc htoc)]
  exact h.ready.subTocPaths

theorem loadIndexes_same (h : v.Sound d log masked subtocs) (hc : v.Crashed masked subtocs d t)
    (htoc : t.toc v.catalogue.tocPath = some log) :
    loadIndexes t v.catalogue.version v.catalogue.depth v.catalogue.tocPath =
      loadIndexes d v.catalogue.version v.catalogue.depth v.catalogue.tocPath := by
  rw [loadIndexes, loadIndexes, read_same rfl (h.sameToc hc htoc),
    if_pos (Disk.pathExists_of_toc htoc), if_pos (Disk.pathExists_of_toc h.toc)]

/-- A masked sub-toc is still there, with what it leads to. -/
theorem maskedSubToc_kept (h : v.Sound d log masked subtocs) (hc : v.Crashed masked subtocs d t)
    {sub : List (PathName × Nat) × List URI}
    (hq : MaskedSubToc d v.catalogue.version v.catalogue.depth v.catalogue.tocPath log q sub) :
    MaskedSubToc t v.catalogue.version v.catalogue.depth v.catalogue.tocPath log q sub := by
  obtain ⟨hmask, hdir, hname, hex, henum⟩ := hq
  obtain ⟨⟨inner, hinner⟩, -⟩ := enumerateSub_ok h.overlaid (ne_masterName hname) henum
  have hclaimed : v.Claimed masked subtocs d q :=
    .inr (.inr (.inl (.inr ⟨TocCatalogue.isOwn_of hdir, (h.enumerated.metadata q).mpr (.inl ⟨hmask, hdir, hex⟩), hname⟩)))
  obtain ⟨htoc, hthere⟩ := deletes_kept hc.grows (h.kept_subToc hclaimed hname hinner)
  refine ⟨hmask, hdir, hname, hthere hex, ?_⟩
  exact enumerateSub_same h.overlaid (ne_masterName hname) htoc ((hthere hex).trans hex.symm) henum

theorem controlFile_isSubToc (i : ControlIdentifier) : i.controlFile.isSubToc = false := by
  cases i <;> decide

/-- The masked entries can be enumerated again. -/
theorem exists_allMasked (h : v.Sound d log masked subtocs) (hc : v.Crashed masked subtocs d t)
    (htoc : t.toc v.catalogue.tocPath = some log) : ∃ masked', v.catalogue.allMasked t = .ok masked' := by
  refine exists_enumerated htoc (fun e he hname hex => ?_) fun path offset e hr hm hex => ?_
  · rcases deletes_exists hc.grows hex with hex | ⟨i, -, hi⟩
    · obtain ⟨sub, hsub⟩ := h.enumerated.subToc e he hname hex
      exact ⟨sub, (h.maskedSubToc_kept hc hsub).2.2.2.2⟩
    · rw [(PathName.mk.inj hi).2, controlFile_isSubToc] at hname
      cases hname
  · rcases deletes_exists hc.grows hex with hex | ⟨i, -, hi⟩
    · exact h.enumerated.index path offset e hr hm hex
    · exact absurd (PathName.mk.inj hi).2 ((h.oneKind.index _ path ⟨log, offset, e, h.toc, hr⟩).2 i)

/-- What belonged to the database and is still there still belongs to it. -/
theorem claimed_kept (h : v.Sound d log masked subtocs) (hc : v.Crashed masked subtocs d t)
    (htoc : t.toc v.catalogue.tocPath = some log) {masked' : List (PathName × Nat) × List URI}
    (hmasked : v.catalogue.allMasked t = .ok masked') (hq : v.Claimed masked subtocs d q)
    (hex : d.pathExists q = true) (hthere : t.pathExists q = true) :
    v.Claimed masked' subtocs t q := by
  have henum := TocHandler.enumerated htoc hmasked
  have hmeta : q ∈ masked.1.map Prod.fst → q ∈ masked'.1.map Prod.fst := by
    intro hmem
    refine (henum.metadata q).mpr (((h.enumerated.metadata q).mp hmem).imp ?_ ?_)
    · exact fun ⟨hmask, hdir, _⟩ => ⟨hmask, hdir, hthere⟩
    · exact fun ⟨q', sub, hsub, hmem⟩ => ⟨q', sub, h.maskedSubToc_kept hc hsub, hmem⟩
  rcases hq with hindex | hdata | hsub | hlock | htoc' | hschema
  · exact .inl (hindex.imp id fun ⟨hdir, hmem, hname⟩ => ⟨hdir, hmeta hmem, hname⟩)
  · have hordered := hc.ordered q hdata hex hthere
    refine .inr (.inl (hdata.imp id fun ⟨hdir, hmem⟩ => ⟨hdir, ?_⟩))
    obtain ⟨uri, huri, rfl⟩ := List.mem_map.mp hmem
    refine List.mem_map_of_mem ((henum.data uri).mpr (((h.enumerated.data uri).mp huri).imp ?_ ?_))
    · exact fun ⟨q', sub, hsub, hmem⟩ => ⟨q', sub, h.maskedSubToc_kept hc hsub, hmem⟩
    · rintro ⟨path, idx, ⟨offset, e, hr, hm, hex', hidx⟩, hfiles⟩
      refine ⟨path, idx, ⟨offset, e, hr, hm, ?_, hidx⟩, hfiles⟩
      have hmem' := (h.enumerated.metadata ⟨v.catalogue.directory, path⟩).mpr
        (.inl ⟨⟨offset, hm⟩, rfl, hex'⟩)
      have hclaimed : v.Claimed masked subtocs d ⟨v.catalogue.directory, path⟩ := by
        cases hname : path.isSubToc with
        | true => exact .inr (.inr (.inl (.inr ⟨TocCatalogue.isOwn_of rfl, hmem', hname⟩)))
        | false => exact .inl (.inr ⟨TocCatalogue.isOwn_of rfl, hmem', hname⟩)
      exact (deletes_kept hordered (h.kept_index ⟨log, offset, e, h.toc, hr⟩ hclaimed)).2 hex'
  · exact .inr (.inr (.inl (hsub.imp id fun ⟨hdir, hmem, hname⟩ => ⟨hdir, hmeta hmem, hname⟩)))
  · obtain ⟨hmem, -⟩ := List.mem_filter.mp hlock
    exact .inr (.inr (.inr (.inl (List.mem_filter.mpr ⟨hmem, hthere⟩))))
  · exact .inr (.inr (.inr (.inr (.inl htoc'))))
  · exact .inr (.inr (.inr (.inr (.inr hschema))))

/-- A full wipe can be run again while the toc is there. -/
theorem ready_again (h : v.Sound d log masked subtocs) (hc : v.Crashed masked subtocs d t)
    (htoc : t.toc v.catalogue.tocPath = some log) : ∃ masked', v.Ready t masked' subtocs := by
  obtain ⟨masked', hmasked⟩ := h.exists_allMasked hc htoc
  have hlock : ∀ i ∈ [ControlIdentifier.list, .retrieve, .archive],
      t.pathExists (controlFilePath v.catalogue.directory i) = true →
        controlFilePath v.catalogue.directory i ∈ TocHandler.lockfilePaths t v.catalogue.directory := by
    intro i hi hex
    refine List.mem_filter.mpr ⟨List.mem_map_of_mem ?_, hex⟩
    simp only [List.mem_cons, List.not_mem_nil, or_false] at hi
    rcases hi with rfl | rfl | rfl <;> simp
  refine ⟨masked', hmasked, h.subTocPaths_same hc htoc, fun p hp hex => ?_, ?_⟩
  · have hown : v.catalogue.isOwn p = true → p.dirName = v.catalogue.directory := by
      rw [TocCatalogue.isOwn_iff, h.real]
      exact id
    rcases hp with (hp | ⟨hdir, -⟩) | (hp | ⟨hdir, -⟩) | (hp | ⟨hdir, -⟩) | hp | rfl | rfl
    · exact (h.recorded.index p hp).1
    · exact hown hdir
    · exact (h.recorded.data p hp).1
    · exact hown hdir
    · rw [h.real] at hex
      rcases deletes_exists hc.grows hex with hex | ⟨i, -, rfl⟩
      · exact h.ready.inside p (.inr (.inr (.inl (.inl hp)))) ((h.real p).symm ▸ hex)
      · rfl
    · exact hown hdir
    · exact mem_lockfilePaths hp
    · rfl
    · rfl
  · refine h.ready.clean.imp id fun hall p hp => ?_
    obtain ⟨hdir, hex⟩ := Disk.mem_children.mp hp
    rcases deletes_exists hc.grows hex with hex' | ⟨i, hi, rfl⟩
    · exact h.claimed_kept hc htoc hmasked (hall p (Disk.mem_children.mpr ⟨hdir, hex'⟩)) hex' hex
    · exact .inr (.inr (.inr (.inl (hlock i hi hex))))

end Sound

end TocWipeVisitor

section Resume

open TocCatalogue

variable {c : TocCatalogue} {key : Key} {rq : MarsRequest} {flags : WipeFlags}
  {all : List (TocIndex BTreeHandle)} {d d' t : Disk} {p : PathName}

theorem Disk.pathExists_of_schema {schema : Schema} (h : d.schema p = some schema) :
    d.pathExists p = true := by
  induction d using induction_on generalizing schema with
  | empty => cases h
  | append d w ih =>
    rw [schema_append] at h
    rw [pathExists_append]
    cases w with
    | schema q s =>
      by_cases hq : q = p
      · simp [Write.onExists, Write.path, hq]
      · rw [Write.onSchema, if_neg hq] at h
        simp [Write.onExists, ih h]
    | remove q =>
      rw [Write.onSchema] at h
      split at h
      · cases h
      · rw [Write.onExists, if_neg ‹_›, ih h]
    | _ => simp [Write.onExists, ih h]

theorem TocCatalogue.recorded_visitor (hall : c.indexes d = .ok all) (hmatch : c.MatchesAll key rq all) :
    (c.visitor key rq flags all).Recorded d := by
  have hrecorded : ∀ idx ∈ all, ∃ toc path offset e, RecordedIndex d c.version idx toc path offset e := by
    intro idx hidx
    simp only [TocCatalogue.indexes, except_bind_ok, except_pure_ok] at hall
    obtain ⟨l, hl, rfl⟩ := hall
    obtain ⟨x, hx, rfl⟩ := List.mem_map.mp hidx
    exact loadIndexes_recorded hl hx
  refine ⟨fun p hp => ?_, fun p hp => ?_⟩
  · rcases (visited_visitor.index p).mp hp with hp | ⟨idx, hidx, -, rfl⟩
    · cases hp
    · obtain ⟨toc, path, offset, e, hr⟩ := hrecorded idx hidx
      rw [visitor_catalogue]
      exact ⟨(hmatch idx hidx).2 _ (.head _), idx, toc, path, offset, e, hr, rfl⟩
  · rcases (visited_visitor.data p).mp hp with hp | ⟨idx, hidx, -, -, uri, huri, rfl⟩
    · cases hp
    · obtain ⟨toc, path, offset, e, hr⟩ := hrecorded idx hidx
      rw [visitor_catalogue]
      exact ⟨(hmatch idx hidx).2 _ (.tail _ (List.mem_map_of_mem huri)), idx, toc, path, offset, e, hr, uri, huri, rfl⟩

theorem opened_of_wipe (h : (LocalFDB.wipe c rq flags).run d = .ok () d')
    (hlocated : c.located d rq = true) : ∃ key, c.openReader d = .ok key := by
  refine Ends.ok (Q := fun _ _ => ∃ key, c.openReader d = .ok key) (E := fun _ _ => True) ?_ h
  rw [LocalFDB.wipe]
  simp only [ends_bind, ends_get, hlocated, if_true, ends_lift]
  exact ⟨fun key hkey => ends_iff.mpr ⟨fun _ _ _ => ⟨key, hkey⟩, fun _ _ _ => trivial⟩,
    fun _ _ => trivial⟩

/-- After a crash of a full wipe, the wipe can be run again to its end as long as the toc and the
schema are there, or if all is gone, but not in between. -/
theorem resumes_iff (hreal : ∀ p, c.real p = p) (hover : d.Overlaid) (hkind : d.OneKind c.version)
    (hkey : c.openReader d = .ok key) (hall : c.indexes d = .ok all)
    (hlocated : c.located d rq = true) (henabled : enabled d c.directory .wipe = true)
    (hmatch : c.MatchesAll key rq all) (hdoit : flags.doit = true)
    (hrun : (LocalFDB.wipe c rq flags).run d = .ok () d') (hf : t.faults = [])
    (ht : d.writes <+: t.writes) (ht' : t.writes <+: d'.writes) :
    Resumes c rq flags t ↔ t.directoryExists c.directory = false ∨
      (∃ log, t.toc c.tocPath = some log) ∧ ∃ schema, t.schema c.schemaPath = some schema := by
  constructor
  · rintro (hgone | ⟨hlocated', d'', hrun', -⟩)
    · exact .inl hgone
    · obtain ⟨key', hkey'⟩ := opened_of_wipe hrun' hlocated'
      obtain ⟨log, hlog, -, -, hschema⟩ := openReader_ok.mp hkey'
      exact .inr ⟨⟨log, hlog⟩, hschema⟩
  · rintro (hgone | ⟨⟨log', hlog'⟩, schema', hschema'⟩)
    · exact .inl hgone
    · obtain ⟨masked, subtocs, hready, herased⟩ :=
        (ends_wipe_all hover.faults hlocated hkey hall henabled hmatch hdoit).ok hrun
      obtain ⟨log, hlog, hdbkey, ⟨l, hl⟩, schema, hschema⟩ := openReader_ok.mp hkey
      have hcat : (c.visitor key rq flags all).catalogue = c := visitor_catalogue
      have hsound : (c.visitor key rq flags all).Sound d log masked subtocs :=
        ⟨hover, fun p => by rw [hcat, hreal], hcat.symm ▸ hkind, hcat.symm ▸ hlog, recorded_visitor hall hmatch,
          unfilled_visitor hmatch, hready⟩
      have hcrashed : (c.visitor key rq flags all).Crashed masked subtocs d t := by
        refine TocWipeVisitor.crashed (unfilled_visitor hmatch) (fun p => by rw [hcat, hreal]) herased ?_ ht ht' ?_
        · rw [hcat]
          exact Disk.pathExists_of_schema hschema
        · rw [hcat]
          exact Disk.pathExists_of_schema hschema'
      have htoc : t.toc c.tocPath = some log := by
        rcases TocWipeVisitor.deletes_toc hcrashed.grows with he | he
        · rw [he, hlog]
        · rw [hlog'] at he
          cases he
      have hload := hsound.loadIndexes_same hcrashed (hcat.symm ▸ htoc)
      rw [hcat] at hload
      have hkey' : c.openReader t = .ok key :=
        openReader_ok.mpr ⟨log, htoc, hdbkey, ⟨l, hload.trans hl⟩, schema', hschema'⟩
      have hall' : c.indexes t = .ok all := by
        rw [indexes, hload]
        exact hall
      have hlocated' : c.located t rq = true := by
        rw [located, htoc]
        rwa [located, hlog] at hlocated
      have henabled' : enabled t c.directory .wipe = true := by
        rw [enabled, decide_eq_true_eq]
        by_contra hex
        rcases TocWipeVisitor.deletes_exists hcrashed.grows (by simpa using hex) with hex | ⟨i, hi, he⟩
        · rw [enabled, hex] at henabled
          cases henabled
        · rw [controlFilePath, controlFilePath, PathName.mk.injEq] at he
          simp only [List.mem_cons, List.not_mem_nil, or_false] at hi
          rcases hi with rfl | rfl | rfl <;> simp [ControlIdentifier.controlFile] at he
      have hagain : ∃ masked subtocs, (c.visitor key rq flags all).Ready t masked subtocs := by
        obtain ⟨masked', hready'⟩ := hsound.ready_again hcrashed (hcat.symm ▸ htoc)
        exact ⟨masked', subtocs, hready'⟩
      obtain ⟨_, d'', hrun', _, _, -, herased'⟩ := ((ends_wipe_all hf hlocated' hkey' hall' henabled'
        hmatch hdoit).mono (fun _ _ h => h) fun _ _ hno => hno hagain).returns
      refine .inr ⟨hlocated', d'', hrun', ?_, ?_⟩
      · have hempty : d''.children (c.visitor key rq flags all).catalogue.directory = [] :=
          herased'.children
        rwa [hcat] at hempty
      · have hgone : d''.directoryExists (c.visitor key rq flags all).catalogue.directory = false :=
          herased'.gone
        rwa [hcat] at hgone

end Resume

section TwoTypes

def wholeOd : MarsRequest := ⟨[("class", ["od"])]⟩

/-- The disk after a crash that follows the first `n` writes of the wipe. -/
def crashedTwoTypes (n : Nat) : Disk where
  writes := (final ((LocalFDB.wipe od wholeOd { doit := true }).run twoTypes)).writes.take
    (twoTypes.writes.length + n)

theorem twoTypes_index {toc : PathName} {path : BaseName} {offset : Nat} {e : EncodedIndex}
    {log : List TocRecord} (hlog : twoTypes.toc toc = some log) (hr : .index path offset e ∈ log) :
    toc.dirName = "/od" ∧ ∃ type, (type = "an" ∨ type = "fc") ∧
      path = (fileOf type ".index").baseName ∧ e = indexOf type := by
  rw [toc_twoTypes] at hlog
  split at hlog
  · subst toc
    obtain rfl := Option.some.inj hlog
    obtain ⟨rfl, -, rfl⟩ : path = (fileOf "fc" ".index").baseName ∧ offset = 0 ∧ e = indexOf "fc" := by
      simpa [indexRecord] using hr
    exact ⟨rfl, "fc", .inr rfl, rfl, rfl⟩
  · split at hlog
    · subst toc
      obtain rfl := Option.some.inj hlog
      obtain ⟨rfl, -, rfl⟩ : path = (fileOf "an" ".index").baseName ∧ offset = 0 ∧ e = indexOf "an" := by
        simpa [indexRecord] using hr
      exact ⟨rfl, "an", .inl rfl, rfl, rfl⟩
    · cases hlog

theorem twoTypes_oneKind : twoTypes.OneKind od.version := by
  refine ⟨?_, ?_, fun p log hlog base hr => ?_⟩
  · rintro toc path ⟨log, offset, e, hlog, hr⟩
    obtain ⟨hdir, type, htype, rfl, rfl⟩ := twoTypes_index hlog hr
    rw [hdir, toc_twoTypes]
    rcases htype with rfl | rfl <;>
      exact ⟨by decide, fun i => by cases i <;> decide⟩
  · intro idx toc path offset e hrecorded uri huri
    obtain ⟨log, hlog, hr⟩ := hrecorded.record
    obtain ⟨hdir, type, htype, rfl, rfl⟩ := twoTypes_index hlog hr
    have hidx := TocIndex.decode_ok hrecorded.decoded
    rw [hdir] at hidx
    subst idx
    obtain rfl : uri = ⟨"file", fileOf type ".data"⟩ := List.mem_singleton.mp huri
    refine ⟨?_, ?_⟩
    · rw [toc_twoTypes]
      rcases htype with rfl | rfl <;> decide
    · rintro toc' path' ⟨log', offset', e', hlog', hr'⟩ he
      obtain ⟨-, type', -, rfl, -⟩ := twoTypes_index hlog' hr'
      simp [fileOf] at he
  · rw [toc_twoTypes] at hlog
    split at hlog
    · obtain rfl := Option.some.inj hlog
      simp [indexRecord] at hr
    · split at hlog
      · obtain rfl := Option.some.inj hlog
        obtain rfl : base = odSubToc.baseName := by simpa [indexRecord] using hr
        decide
      · cases hlog

theorem wipe_twoTypes_ok : ∃ d', (LocalFDB.wipe od wholeOd { doit := true }).run twoTypes = .ok () d' ∧
    ∀ n, twoTypes.writes <+: (crashedTwoTypes n).writes ∧ (crashedTwoTypes n).writes <+: d'.writes := by
  have hok : (value ((LocalFDB.wipe od wholeOd { doit := true }).run twoTypes)).isOk = true := by
    decide +kernel
  obtain ⟨added, hadded, -⟩ : od.DeletesSafely wholeOd twoTypes
      (final ((LocalFDB.wipe od wholeOd { doit := true }).run twoTypes)) :=
    wipe_safe rfl fun _ _ _ _ _ _ _ => namedAlike_of_real fun _ => rfl
  cases hrun : (LocalFDB.wipe od wholeOd { doit := true }).run twoTypes with
  | error e d' => rw [hrun] at hok; cases hok
  | ok u d' =>
    refine ⟨d', rfl, fun n => ?_⟩
    rw [hrun] at hadded
    have hcrash : (crashedTwoTypes n).writes = twoTypes.writes ++ added.take n := by
      rw [crashedTwoTypes, hrun]
      change List.take _ d'.writes = _
      rw [show d'.writes = twoTypes.writes ++ added from hadded, List.take_length_add_append]
    rw [hcrash, show d'.writes = twoTypes.writes ++ added from hadded]
    exact ⟨List.prefix_append _ _, (List.prefix_append_right_inj _).mpr (List.take_prefix n added)⟩

/-- After a crash that left the schema, the wipe is done when it is run again. -/
theorem resumes_twoTypes : Resumes od wholeOd { doit := true } (crashedTwoTypes 5) := by
  obtain ⟨d', hrun, hcrash⟩ := wipe_twoTypes_ok
  obtain ⟨fc, an, hl, -, -, hfc, han, -⟩ := load_twoTypes
  have hfiles : ∀ idx ∈ [fc.index, an.index], ∀ p ∈ idx.filePaths, p.dirName = "/od" := by
    intro idx hidx p hp
    rcases List.mem_pair.mp hidx with rfl | rfl
    · rw [hfc] at hp
      rcases List.mem_pair.mp hp with rfl | rfl <;> rfl
    · rw [han] at hp
      rcases List.mem_pair.mp hp with rfl | rfl <;> rfl
  have hmatch : od.MatchesAll classOd wholeOd [fc.index, an.index] := by
    intro idx hidx
    refine ⟨?_, hfiles idx hidx⟩
    have hdir : idx.path.dirName = od.directory := hfiles idx hidx idx.path (.head _)
    have hrest : (TocWipeVisitor.visitDatabase od classOd wholeOd {}).indexRequest = ⟨[]⟩ := rfl
    rw [TocCatalogue.matched, TocWipeVisitor.includes, hrest, Key.matchRequest, Bool.and_eq_true]
    exact ⟨rfl, TocCatalogue.isOwn_of hdir⟩
  have hthere : ((crashedTwoTypes 5).toc od.tocPath).isSome = true ∧
      ((crashedTwoTypes 5).schema od.schemaPath).isSome = true := by decide +kernel
  refine (resumes_iff (fun _ => rfl) twoTypes_overlaid twoTypes_oneKind (show od.openReader twoTypes = .ok classOd from rfl)
    (TocCatalogue.indexes_eq hl) (show od.located twoTypes wholeOd = true from rfl) rfl hmatch rfl hrun
    rfl (hcrash 5).1 (hcrash 5).2).mpr (.inr ?_)
  exact ⟨Option.isSome_iff_exists.mp hthere.1, Option.isSome_iff_exists.mp hthere.2⟩

/-- A crash between the deletions of the schema and the toc leaves a database that cannot be opened,
and one after the deletion of the toc a directory that no wipe looks into. -/
theorem not_resumed_twoTypes : ∃ d', (LocalFDB.wipe od wholeOd { doit := true }).run twoTypes = .ok () d' ∧
    (crashedTwoTypes 8).writes <+: d'.writes ∧ ¬ Resumes od wholeOd { doit := true } (crashedTwoTypes 8) ∧
    (crashedTwoTypes 10).writes <+: d'.writes ∧ ¬ Resumes od wholeOd { doit := true } (crashedTwoTypes 10) := by
  obtain ⟨d', hrun, hcrash⟩ := wipe_twoTypes_ok
  have hthere : (crashedTwoTypes 8).directoryExists "/od" = true ∧
      (crashedTwoTypes 10).directoryExists "/od" = true := by decide +kernel
  refine ⟨d', hrun, (hcrash 8).2, ?_, (hcrash 10).2, ?_⟩
  · rintro (hgone | ⟨-, d'', hrun', -⟩)
    · exact Bool.noConfusion (hgone.symm.trans hthere.1)
    · have herror : (value ((LocalFDB.wipe od wholeOd { doit := true }).run (crashedTwoTypes 8))).isOk =
          false := by decide +kernel
      rw [hrun'] at herror
      cases herror
  · have hlost : od.located (crashedTwoTypes 10) wholeOd = false := by decide +kernel
    rintro (hgone | ⟨hlocated, -⟩)
    · exact Bool.noConfusion (hgone.symm.trans hthere.2)
    · exact Bool.noConfusion (hlocated.symm.trans hlost)

end TwoTypes

end Fdb5
