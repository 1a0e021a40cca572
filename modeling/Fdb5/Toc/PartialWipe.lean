import Fdb5.Toc.Clearing
import Fdb5.Toc.WipeRun

/-! What a wipe leaves of a database of which it matches only a part. -/
namespace Fdb5

open Effect TocHandler

section Partial

variable {c : TocCatalogue} {key : Key} {rq : MarsRequest} {flags : WipeFlags} {d d' : Disk}
  {l : List Loaded} {x y : Loaded} {p : PathName} {log : List TocRecord}

/-- The files of the visible indexes are no tocs, and each index file is of one key and in a directory of its own name. -/
structure IndexFiles (c : TocCatalogue) (d : Disk) (l : List Loaded) : Prop where
  noToc : ∀ x ∈ l, ∀ p ∈ c.files x.index, d.toc p = none
  real : ∀ x ∈ l, c.real x.index.path = x.index.path
  oneKey : ∀ x ∈ l, ∀ y ∈ l, x.index.path = y.index.path → x.index.key.keys = y.index.key.keys

/-- Of the visible indexes those have gone that the request matches, and the files of the others
are still there. -/
structure PartlyWiped (c : TocCatalogue) (key : Key) (rq : MarsRequest) (d d' : Disk) : Prop where
  visible : ∃ l, loadIndexesAndSubTocs d c.version c.depth c.tocPath = .ok l ∧
    loadIndexesAndSubTocs d' c.version c.depth c.tocPath =
      .ok (l.filter fun x => !c.matched key rq x.index)
  files : ∀ l', loadIndexesAndSubTocs d' c.version c.depth c.tocPath = .ok l' → ∀ x ∈ l',
    ∀ p ∈ c.files x.index, d.pathExists p = true → d'.pathExists p = true

theorem TocCatalogue.indexes_eq (hl : loadIndexesAndSubTocs d c.version c.depth c.tocPath = .ok l) :
    c.indexes d = .ok (l.map Loaded.index) := by
  rw [TocCatalogue.indexes, loadIndexes_eq, hl]
  simp [bind, Except.bind, Functor.map, Except.map, pure, Except.pure]

theorem TocCatalogue.loaded_of_indexes {all : List (TocIndex BTreeHandle)} (h : c.indexes d = .ok all) :
    ∃ l, loadIndexesAndSubTocs d c.version c.depth c.tocPath = .ok l ∧ all = l.map Loaded.index := by
  cases hl : loadIndexesAndSubTocs d c.version c.depth c.tocPath with
  | ok l => exact ⟨l, rfl, Except.ok.inj (h.symm.trans (indexes_eq hl))⟩
  | error e =>
    rw [TocCatalogue.indexes, loadIndexes_eq, hl] at h
    cases h

/-- A wipe of a part masks the matched indexes and removes their files, but for those that others name. -/
theorem ends_partialWipe (hf : d.faults = []) (hkey : c.openReader d = .ok key)
    (hl : loadIndexesAndSubTocs d c.version c.depth c.tocPath = .ok l)
    (hlocated : c.located d rq = true) (henabled : enabled d c.directory .wipe = true)
    (hmatched : ∃ x ∈ l, c.matched key rq x.index = true)
    (hunmatched : ∃ x ∈ l, c.matched key rq x.index = false) (hdoit : flags.doit = true) :
    Ends (LocalFDB.wipe c rq flags) d (fun _ d' => ∃ ps : List PathName,
      (∀ p, p ∈ ps ↔ Doomed c key rq (l.map Loaded.index) p) ∧
      TocWipeVisitor.Removed (ps.map c.real)
        (c.masked ((l.map Loaded.index).filter (c.matched key rq)) d) d') fun _ _ => False := by
  obtain ⟨log, hlog, -⟩ := TocCatalogue.toc_of_openReader hkey
  rw [LocalFDB.wipe]
  simp only [ends_bind, ends_get, hlocated, if_true, ends_lift, hkey, TocCatalogue.visitEntries,
    TocCatalogue.indexes_eq hl, Except.ok.injEq, forall_eq', henabled, reduceCtorEq, false_implies,
    implies_true, and_true]
  set v := (l.map Loaded.index).foldl TocWipeVisitor.visitIndex (.visitDatabase c key rq flags)
  have hv : (TocWipeVisitor.visitDatabase c key rq flags).Visited (l.map Loaded.index) v :=
    TocWipeVisitor.visited_fold
  have hcat : v.catalogue = c := by rw [hv.frame]; rfl
  have hflags : v.flags = flags := by rw [hv.frame]; rfl
  have hdoit' : v.keepMetadata.ensureSafePaths.flags.doit = true :=
    (congrArg WipeFlags.doit hflags).trans hdoit
  have hmask : v.indexesToMask = (l.map Loaded.index).filter (c.matched key rq) := by
    rw [hv.frame]
    rfl
  have hsafe : v.safePaths ≠ [] := by
    obtain ⟨x, hx, hno⟩ := hunmatched
    have hmem := (hv.safe x.index.path).mpr (.inr ⟨x.index, List.mem_map_of_mem hx, .inl ⟨hno, rfl⟩⟩)
    exact List.ne_nil_of_mem hmem
  have hany : v.indexesToMask ≠ [] := by
    obtain ⟨x, hx, hyes⟩ := hmatched
    rw [hmask]
    exact List.ne_nil_of_mem (List.mem_filter.mpr ⟨List.mem_map_of_mem hx, hyes⟩)
  rw [TocWipeVisitor.catalogueComplete]
  simp only [ends_bind, ends_get, ends_lift, TocWipeVisitor.complete_part hsafe, Except.ok.injEq,
    forall_eq', List.isEmpty_eq_false_iff.mpr hsafe, reduceCtorEq, false_implies, implies_true,
    and_true]
  have hcompleted : v.keepMetadata.ensureSafePaths.anythingToWipe = true := by
    simp [TocWipeVisitor.anythingToWipe, TocWipeVisitor.ensureSafePaths, TocWipeVisitor.keepMetadata,
      hany]
  simp only [hcompleted, if_true, ends_bind, ends_get, ends_lift,
    TocWipeVisitor.checkResidual_part, Except.ok.injEq, forall_eq', hdoit', true_or, reduceCtorEq,
    false_implies, implies_true, and_true]
  refine (TocWipeVisitor.ends_wipe_part hf (hcat ▸ hlog) hdoit' hcompleted).mono
    (fun _ d' h => ?_) fun _ _ h => h
  have hresidual : v.keepMetadata.ensureSafePaths.residualPaths = [] := by
    change v.residualPaths = []
    rw [hv.frame]
    rfl
  rw [hresidual, List.nil_append, show v.keepMetadata.ensureSafePaths.catalogue = c from hcat,
    show v.keepMetadata.ensureSafePaths.indexesToMask = _ from hmask] at h
  exact ⟨_, fun p => TocWipeVisitor.mem_part.trans (TocWipeVisitor.doomed_iff hv), h⟩

/-- The disk on which the matched indexes are masked and files of them removed. -/
structure WipedOf (c : TocCatalogue) (key : Key) (rq : MarsRequest) (l : List Loaded) (d d' : Disk) :
    Prop where
  toc : ∀ q, d'.toc q = if q = c.tocPath then
    some ((d.toc c.tocPath).getD [] ++
      ((l.map Loaded.index).filter (c.matched key rq)).map buildClearRecord)
    else d.toc q
  exists_toc : ∀ q log, d.toc q = some log → d'.pathExists q = true
  kept : ∀ p, d.pathExists p = true → d'.pathExists p = false →
    ∃ q, Doomed c key rq (l.map Loaded.index) q ∧ p = c.real q

theorem wipedOf {ps : List PathName} (hfiles : IndexFiles c d l) (hlog : d.toc c.tocPath = some log)
    (hps : ∀ p, p ∈ ps ↔ Doomed c key rq (l.map Loaded.index) p)
    (h : TocWipeVisitor.Removed (ps.map c.real) (c.masked ((l.map Loaded.index).filter (c.matched key rq)) d) d') :
    WipedOf c key rq l d d' := by
  have hnone : ∀ q ∈ ps.map c.real, d.toc q = none := by
    intro q hmem
    obtain ⟨p, hp, rfl⟩ := List.mem_map.mp hmem
    obtain ⟨idx, hidx, -, hfile⟩ := ((hps p).mp hp).matched
    obtain ⟨x, hx, rfl⟩ := List.mem_map.mp hidx
    exact hfiles.noToc x hx _ (List.mem_map_of_mem hfile)
  have htoc : ∀ q log, d.toc q = some log → q ∉ ps.map c.real := by
    intro q log hq hmem
    rw [hnone q hmem] at hq
    cases hq
  set d₁ := c.masked ((l.map Loaded.index).filter (c.matched key rq)) d
  have hexists : ∀ q, d.pathExists q = true → d₁.pathExists q = true :=
    fun q hq => pathExists_appended hq
  refine ⟨fun q => ?_, fun q log hq => ?_, fun p hex hgone => ?_⟩
  · have hd₁ : d₁.toc q = if q = c.tocPath then some ((d.toc c.tocPath).getD [] ++
        ((l.map Loaded.index).filter (c.matched key rq)).map buildClearRecord) else d.toc q := by
      rw [show d₁.toc q = _ from toc_appended]
      by_cases hq : q = c.tocPath
      · subst hq
        cases (l.map Loaded.index).filter (c.matched key rq) <;> simp [hlog]
      · simp [hq]
    rw [← hd₁]
    by_cases hq : q ∈ ps.map c.real
    · have hne : q ≠ c.tocPath := fun he => htoc q log (he ▸ hlog) hq
      have hd₁none : d₁.toc q = none := by rw [hd₁, if_neg hne, hnone q hq]
      exact h.grows.toc_or.elim id fun he => he.trans hd₁none.symm
    · exact h.grows.toc_eq hq
  · rw [h.grows.pathExists_eq (htoc q log hq)]
    exact hexists q (Disk.pathExists_of_toc hq)
  · by_contra hno
    rw [h.grows.pathExists_eq fun hmem => ?_, hexists p hex] at hgone
    · cases hgone
    · obtain ⟨q, hq, rfl⟩ := List.mem_map.mp hmem
      exact hno ⟨q, (hps q).mp hq, rfl⟩

theorem clearedNames_map {indexes : List (TocIndex BTreeHandle)} :
    clearedNames (indexes.map buildClearRecord) =
      indexes.map fun idx => (idx.path.baseName, idx.offset) := by
  rw [clearedNames, populateMaskedEntriesList]
  generalize ([] : List TocRecord) = seen
  induction indexes generalizing seen with
  | nil => rfl
  | cons idx indexes ih =>
    rw [List.map_cons, List.map_cons, populateFrom, ih]
    rfl

/-- What is visible afterwards is not masked by the names of the matched indexes. -/
theorem WipedOf.load (h : WipedOf c key rq l d d') (hover : d.Overlaid)
    (hlog : d.toc c.tocPath = some log)
    (hl : loadIndexesAndSubTocs d c.version c.depth c.tocPath = .ok l) :
    loadIndexesAndSubTocs d' c.version c.depth c.tocPath = .ok (l.filter fun x => x.maskName ∉
      ((l.map Loaded.index).filter (c.matched key rq)).map fun idx =>
        (idx.path.baseName, idx.offset)) := by
  obtain ⟨e, rest, hrest⟩ := hover.init _ log hlog
  have hframed : Framed d d' c.tocPath := by
    refine ⟨fun q hq => by rw [h.toc, if_neg hq], fun q log path hq hr => ?_⟩
    rcases hover.subToc q log hq path hr with ⟨base, rfl, -⟩ | ⟨directory, rfl, -, source, hs⟩
    · rfl
    · rw [subTocPath_exists (Disk.pathExists_of_toc hs), subTocPath_exists (h.exists_toc _ _ hs)]
  have hadded : OnlyClears
      (((l.map Loaded.index).filter (c.matched key rq)).map buildClearRecord) := by
    intro r hr
    obtain ⟨idx, -, rfl⟩ := List.mem_map.mp hr
    exact ⟨_, _, rfl⟩
  rw [load_cleared hframed hlog ⟨rest, hrest⟩ (by rw [h.toc, if_pos rfl, hlog]; rfl) hadded hl,
    clearedNames_map]

theorem path_ext {p q : PathName} (hdir : p.dirName = q.dirName) (hbase : p.baseName = q.baseName) :
    p = q := by
  cases p
  cases q
  simp_all

theorem matched_congr {idx idx' : TocIndex BTreeHandle} (hkey : idx.key.keys = idx'.key.keys)
    (hdir : idx.path.dirName = idx'.path.dirName) :
    c.matched key rq idx = c.matched key rq idx' := by
  rw [TocCatalogue.matched, TocCatalogue.matched, TocWipeVisitor.includes, TocWipeVisitor.includes,
    TocCatalogue.isOwn, TocCatalogue.isOwn, hdir]
  congr 1
  rw [Key.matchRequest, Key.matchRequest]
  simp only [Key.find, hkey]

/-- A matched index is masked under its name, and its name masks nothing that is unmatched. -/
theorem mask_matched (hover : d.Overlaid) (hfiles : IndexFiles c d l)
    (hlog : d.toc c.tocPath = some log)
    (hl : loadIndexesAndSubTocs d c.version c.depth c.tocPath = .ok l) (hx : x ∈ l) :
    (x.maskName ∈ ((l.map Loaded.index).filter (c.matched key rq)).map fun idx =>
        (idx.path.baseName, idx.offset)) ↔
      x.subToc = none ∧ c.matched key rq x.index = true := by
  obtain ⟨e, rest, hrest⟩ := hover.init _ log hlog
  constructor
  · intro hmem
    obtain ⟨idx, hidx, hname⟩ := List.mem_map.mp hmem
    obtain ⟨hidx, hmatched⟩ := List.mem_filter.mp hidx
    obtain ⟨y, hy, rfl⟩ := List.mem_map.mp hidx
    have hdir : y.index.path.dirName = c.directory := by
      rw [← hfiles.real y hy]
      exact TocCatalogue.isOwn_iff.mp (TocWipeVisitor.matched_own hmatched)
    cases hsub : x.subToc with
    | none =>
      refine ⟨rfl, ?_⟩
      rw [Loaded.maskName, hsub, Prod.mk.injEq] at hname
      have hxdir : x.index.path.dirName = c.directory := dirName_own hlog ⟨rest, hrest⟩ hl hx hsub
      have hpath : x.index.path = y.index.path := path_ext (hxdir.trans hdir.symm) hname.1.symm
      rw [← hmatched]
      exact matched_congr (hfiles.oneKey x hx y hy hpath) (by rw [hpath])
    | some q =>
      -- the file that is masked would be the sub-toc itself, or the database's toc
      rw [Loaded.maskName, hsub, Prod.mk.injEq] at hname
      obtain ⟨sub, hq⟩ := toc_of_subToc hlog ⟨rest, hrest⟩ hl hx hsub
      have hno : d.toc (c.real y.index.path) = none := hfiles.noToc y hy _ (.head _)
      rw [hfiles.real y hy] at hno
      rcases via_loaded hover hlog hl hx hsub with ⟨hqdir, -⟩ | ⟨-, hqname⟩
      · rw [path_ext (hdir.trans hqdir.symm) hname.1, hq] at hno
        cases hno
      · have hmaster : y.index.path = c.tocPath := path_ext hdir (hname.1.trans hqname)
        rw [hmaster, hlog] at hno
        cases hno
  · rintro ⟨hsub, hmatched⟩
    rw [Loaded.maskName, hsub]
    exact List.mem_map.mpr ⟨x.index, List.mem_filter.mpr ⟨List.mem_map_of_mem hx, hmatched⟩, rfl⟩

/-- A wipe of a part, which always completes, leaves exactly the unmatched indexes with their files if and only if all
that it matches are recorded in the toc of the database itself and not in a sub-toc, and the indexes name their files
alike. -/
theorem partly_wiped_iff (hover : d.Overlaid) (hfiles : IndexFiles c d l)
    (hkey : c.openReader d = .ok key)
    (hl : loadIndexesAndSubTocs d c.version c.depth c.tocPath = .ok l)
    (hlocated : c.located d rq = true) (henabled : enabled d c.directory .wipe = true)
    (hmatched : ∃ x ∈ l, c.matched key rq x.index = true)
    (hunmatched : ∃ x ∈ l, c.matched key rq x.index = false) (hdoit : flags.doit = true) :
    ∃ d', (LocalFDB.wipe c rq flags).run d = .ok () d' ∧ (PartlyWiped c key rq d d' ↔
      (∀ x ∈ l, c.matched key rq x.index = true → x.subToc = none) ∧
        NamedAlike c key rq (l.map Loaded.index) d) := by
  obtain ⟨log, hlog, -⟩ := TocCatalogue.toc_of_openReader hkey
  obtain ⟨_, d', hrun, ps, hps, hremoved⟩ := (ends_partialWipe hover.faults hkey hl hlocated henabled
    hmatched hunmatched hdoit).returns
  refine ⟨d', hrun, ?_⟩
  have hwiped := wipedOf hfiles hlog hps hremoved
  have hload := hwiped.load hover hlog hl
  have hiff {x : Loaded} (hx : x ∈ l) : x.maskName ∈ ((l.map Loaded.index).filter (c.matched key rq)).map
      (fun idx => (idx.path.baseName, idx.offset)) ↔ x.subToc = none ∧ c.matched key rq x.index = true :=
    mask_matched hover hfiles hlog hl hx
  constructor
  · rintro ⟨⟨_, hl', hafter⟩, hkept⟩
    cases hl.symm.trans hl'
    refine ⟨fun x hx hmatch => ?_, fun idx hidx hm p hp hown hex hother => ?_⟩
    · by_contra hsub
      have hstays : x ∈ l.filter fun x => x.maskName ∉ ((l.map Loaded.index).filter
          (c.matched key rq)).map fun idx => (idx.path.baseName, idx.offset) :=
        List.mem_filter.mpr ⟨hx, decide_eq_true fun hmem => hsub ((hiff hx).mp hmem).1⟩
      rw [Except.ok.inj (hload.symm.trans hafter)] at hstays
      simpa [hmatch] using (List.mem_filter.mp hstays).2
    · obtain ⟨other, hother, hno, hfile⟩ := hother
      obtain ⟨y, hy, rfl⟩ := List.mem_map.mp hother
      by_contra hunprotected
      have hdoomed : Doomed c key rq (l.map Loaded.index) p :=
        ⟨hown, ⟨idx, hidx, hm, hp⟩, fun o ho hno hmem => hunprotected ⟨o, ho, hno, hmem⟩⟩
      have hgone := hremoved.gone _ (List.mem_map_of_mem ((hps p).mpr hdoomed))
      rw [hkept _ hafter y (List.mem_filter.mpr ⟨hy, by simp [hno]⟩) _ hfile hex] at hgone
      cases hgone
  · rintro ⟨hcond, hname⟩
    have hfilter : (l.filter fun x => x.maskName ∉ ((l.map Loaded.index).filter
        (c.matched key rq)).map fun idx => (idx.path.baseName, idx.offset)) =
        l.filter fun x => !c.matched key rq x.index := by
      refine List.filter_congr fun x hx => ?_
      cases hm : c.matched key rq x.index with
      | true => exact decide_eq_false fun hno => hno ((hiff hx).mpr ⟨hcond x hx hm, hm⟩)
      | false => exact decide_eq_true fun hmem => Bool.noConfusion (hm.symm.trans ((hiff hx).mp hmem).2)
    rw [hfilter] at hload
    refine ⟨⟨l, hl, hload⟩, fun l' hl' x hx p hp hex => ?_⟩
    obtain rfl := Except.ok.inj (hload.symm.trans hl')
    obtain ⟨hx, hno⟩ := List.mem_filter.mp hx
    by_contra hgone
    obtain ⟨q, hq, rfl⟩ := hwiped.kept p hex (by simpa using hgone)
    exact (TocWipeVisitor.safe_files hname hq hex).unused x.index (List.mem_map_of_mem hx) (by simpa using hno) hp

/-- The names that the indexes have for the files in use are all that keeps a wipe from deleting one: with such names
none is deleted, whether the wipe ends or fails on the way, and without them one is, unless a system call fails. -/
theorem wipe_safe_iff (h : flags.unsafeWipeAll = false) :
    ((c.located d rq = true → enabled d c.directory .wipe = true → flags.doit = true →
        ∀ key all, c.openReader d = .ok key → c.indexes d = .ok all → NamedAlike c key rq all d) →
      c.DeletesSafely rq d (final ((LocalFDB.wipe c rq flags).run d))) ∧
    (d.faults = [] → c.DeletesSafely rq d (final ((LocalFDB.wipe c rq flags).run d)) →
      c.located d rq = true → enabled d c.directory .wipe = true → flags.doit = true →
        ∀ key all, c.openReader d = .ok key → c.indexes d = .ok all → NamedAlike c key rq all d) := by
  refine ⟨wipe_safe h, fun hf hsafe hlocated henabled hdoit key all hkey hall idx hidx hm p hp hown hex => ?_⟩
  rintro ⟨other, hother, hno, hfile⟩
  obtain ⟨l, hl, rfl⟩ := TocCatalogue.loaded_of_indexes hall
  obtain ⟨x, hx, rfl⟩ := List.mem_map.mp hidx
  obtain ⟨y, hy, rfl⟩ := List.mem_map.mp hother
  by_contra hunprotected
  have hdoomed : Doomed c key rq (l.map Loaded.index) p :=
    ⟨hown, ⟨x.index, hidx, hm, hp⟩, fun o ho hno hmem => hunprotected ⟨o, ho, hno, hmem⟩⟩
  obtain ⟨_, d', hrun, ps, hps, hremoved⟩ := (ends_partialWipe hf hkey hl hlocated henabled
    ⟨x, hx, hm⟩ ⟨y, hy, hno⟩ hdoit).returns
  rw [hrun] at hsafe
  have hgone := hremoved.gone _ (List.mem_map_of_mem ((hps p).mpr hdoomed))
  obtain ⟨key', all', hkey', hall', hdelete⟩ := hsafe.removed hex hgone hex
  obtain rfl := Except.ok.inj (hkey.symm.trans hkey')
  obtain rfl := Except.ok.inj (hall.symm.trans hall')
  exact hdelete.unused y.index hother hno hfile

end Partial

section TwoTypes

theorem toc_twoTypes (p : PathName) : twoTypes.toc p =
    if p = odSubToc then some [.init classOd, indexRecord "fc"]
    else if p = od.tocPath then
      some [.init classOd, indexRecord "an", .subToc (.relative odSubToc.baseName)]
    else none := by
  by_cases hsub : p = odSubToc
  · subst hsub
    rfl
  · by_cases hmaster : p = od.tocPath
    · subst hmaster
      rfl
    · rw [if_neg hsub, if_neg hmaster]
      simp [twoTypes, fieldsOf, Disk.toc, Write.onToc, Ne.symm hsub, Ne.symm hmaster]

theorem twoTypes_overlaid : twoTypes.Overlaid := by
  have hlog : ∀ p log, twoTypes.toc p = some log →
      p = odSubToc ∧ log = [.init classOd, indexRecord "fc"] ∨
      p = od.tocPath ∧ log = [.init classOd, indexRecord "an", .subToc (.relative odSubToc.baseName)] := by
    intro p log h
    rw [toc_twoTypes] at h
    split at h
    · exact .inl ⟨‹_›, (Option.some.inj h).symm⟩
    · split at h
      · exact .inr ⟨‹_›, (Option.some.inj h).symm⟩
      · cases h
  refine ⟨rfl, fun p log h => ?_, fun p log h path _ _ hr => ?_, fun p log h path hr => ?_,
    fun p log h hp r hr => ?_⟩
  all_goals rcases hlog p log h with ⟨rfl, rfl⟩ | ⟨rfl, rfl⟩
  · exact ⟨_, _, rfl, by simp [indexRecord]⟩
  · exact ⟨_, _, rfl, by simp [indexRecord]⟩
  · obtain ⟨rfl, -⟩ : path = (fileOf "fc" ".index").baseName ∧ _ := by simpa [indexRecord] using hr
    simp [fileOf, masterName]
  · obtain ⟨rfl, -⟩ : path = (fileOf "an" ".index").baseName ∧ _ := by simpa [indexRecord] using hr
    simp [fileOf, masterName]
  · simp [indexRecord] at hr
  · obtain rfl : path = .relative odSubToc.baseName := by simpa [indexRecord] using hr
    exact .inl ⟨_, rfl, by simp [odSubToc, masterName]⟩
  · rcases List.mem_pair.mp hr with rfl | rfl
    · exact .inl ⟨_, rfl⟩
    · exact .inr ⟨_, _, _, rfl⟩
  · exact absurd rfl hp

/-- The two indexes as they are loaded, and which of them a request matches. -/
theorem load_twoTypes : ∃ fc an : Loaded,
    loadIndexesAndSubTocs twoTypes od.version od.depth od.tocPath = .ok [fc, an] ∧
      fc.subToc = some odSubToc ∧ an.subToc = none ∧
      fc.index.filePaths = [fileOf "fc" ".index", fileOf "fc" ".data"] ∧
      an.index.filePaths = [fileOf "an" ".index", fileOf "an" ".data"] ∧
      od.matched classOd (requestOf "an") fc.index = false ∧
      od.matched classOd (requestOf "an") an.index = true ∧
      od.matched classOd (requestOf "fc") fc.index = true ∧
      od.matched classOd (requestOf "fc") an.index = false :=
  ⟨_, _, rfl, rfl, rfl, rfl, rfl, rfl, rfl, rfl, rfl⟩

/-- Of two indexes the one that is matched is deleted, with its data. -/
theorem wipe_safe_twoTypes :
    final ((LocalFDB.wipe od (requestOf "an") { doit := true }).run twoTypes) = { twoTypes with
      writes := twoTypes.writes ++ [
        .toc od.tocPath (.clear (.relative (fileOf "an" ".index").baseName) 0),
        .remove (fileOf "an" ".data"), .remove (fileOf "an" ".index")] } ∧
    od.DeletesSafely (requestOf "an") twoTypes
      (final ((LocalFDB.wipe od (requestOf "an") { doit := true }).run twoTypes)) :=
  ⟨rfl, (wipe_safe_iff rfl).1 fun _ _ _ _ _ _ _ => namedAlike_of_real fun _ => rfl⟩

/-- The index in the toc of the database can be wiped. -/
theorem partly_wiped_an : ∃ d', (LocalFDB.wipe od (requestOf "an") { doit := true }).run twoTypes =
    .ok () d' ∧ PartlyWiped od classOd (requestOf "an") twoTypes d' := by
  obtain ⟨fc, an, hl, hsub, hown, hfc, han, hno, hyes, -⟩ := load_twoTypes
  have hfiles : IndexFiles od twoTypes [fc, an] := by
    refine ⟨fun x hx p hp => ?_, fun _ _ => rfl, fun x hx y hy he => ?_⟩
    · rw [TocCatalogue.files, show od.real = id from rfl, List.map_id] at hp
      rw [toc_twoTypes]
      rcases List.mem_pair.mp hx with rfl | rfl
      · rw [hfc] at hp
        rcases List.mem_pair.mp hp with rfl | rfl <;> decide
      · rw [han] at hp
        rcases List.mem_pair.mp hp with rfl | rfl <;> decide
    · have hpath : fc.index.path ≠ an.index.path := by
        rw [(List.cons.inj hfc).1, (List.cons.inj han).1]
        decide
      rcases List.mem_pair.mp hx with rfl | rfl <;> rcases List.mem_pair.mp hy with rfl | rfl
      · rfl
      · exact absurd he hpath
      · exact absurd he.symm hpath
      · rfl
  obtain ⟨d', hrun, hiff⟩ : ∃ d', (LocalFDB.wipe od (requestOf "an") { doit := true }).run twoTypes =
      .ok () d' ∧ (PartlyWiped od classOd (requestOf "an") twoTypes d' ↔ _) :=
    partly_wiped_iff twoTypes_overlaid hfiles (show od.openReader twoTypes = .ok classOd from rfl) hl
      (show od.located twoTypes (requestOf "an") = true from rfl) rfl
      ⟨an, by simp, hyes⟩ ⟨fc, by simp, hno⟩ rfl
  refine ⟨d', hrun, hiff.mpr ⟨fun x hx hm => ?_, namedAlike_of_real fun _ => rfl⟩⟩
  rcases List.mem_pair.mp hx with rfl | rfl
  · rw [hno] at hm
    cases hm
  · exact hown

/-- The index in the sub-toc stays visible when it is wiped, without its file. -/
theorem wiped_fc_visible : ∃ l d', loadIndexesAndSubTocs twoTypes od.version od.depth od.tocPath = .ok l ∧
    l.map (fun x => od.matched classOd (requestOf "fc") x.index) = [true, false] ∧
    (LocalFDB.wipe od (requestOf "fc") { doit := true }).run twoTypes = .ok () d' ∧
    loadIndexesAndSubTocs d' od.version od.depth od.tocPath = .ok l ∧
    d'.pathExists (fileOf "fc" ".index") = false ∧
    ¬ PartlyWiped od classOd (requestOf "fc") twoTypes d' := by
  obtain ⟨fc, an, hl, hload⟩ : ∃ fc an, loadIndexesAndSubTocs twoTypes od.version od.depth od.tocPath =
      .ok [fc, an] ∧ loadIndexesAndSubTocs
        (final ((LocalFDB.wipe od (requestOf "fc") { doit := true }).run twoTypes)) od.version od.depth
        od.tocPath = .ok [fc, an] ∧
      [fc, an].map (fun x => od.matched classOd (requestOf "fc") x.index) = [true, false] :=
    ⟨_, _, rfl, rfl, rfl⟩
  refine ⟨[fc, an], _, hl, hload.2, rfl, hload.1, rfl, fun h => ?_⟩
  obtain ⟨l, hl', hafter⟩ := h.visible
  cases hl.symm.trans hl'
  have hlength := congrArg (Except.map List.length) (hload.1.symm.trans hafter)
  have hm := hload.2
  simp only [List.map_cons, List.map_nil, List.cons.injEq] at hm
  simp [hm, Except.map] at hlength

end TwoTypes

section Linked

/-- The database of two types where `/link` is a symbolic link to its directory. -/
def linkedOd : TocCatalogue where
  directory := "/od"
  version := 2
  depth := 2
  realName name := if name = "/link" then "/od" else name
  realName_directory := rfl

/-- An index that has adopted the data of another one, under the name that the link gives it. -/
def adoptingIndex : EncodedIndex :=
  { indexOf "an" with files := [.path (.absolute ⟨"/link", (fileOf "fc" ".data").baseName⟩)] }

def adopted : Disk where
  writes := [.schema linkedOd.schemaPath ⟨.untyped, []⟩, .toc linkedOd.tocPath (.init classOd)] ++
    fieldsOf "fc" ++ [.toc linkedOd.tocPath (indexRecord "fc"), .segment (fileOf "an" ".index") 0 ∅,
      .toc linkedOd.tocPath (.index (fileOf "an" ".index").baseName 0 adoptingIndex)]

/-- The data of the index that is kept is deleted with the one that has adopted it. -/
theorem adopted_deleted : ¬ linkedOd.DeletesSafely (requestOf "an") adopted
    (final ((LocalFDB.wipe linkedOd (requestOf "an") { doit := true }).run adopted)) := by
  intro h
  obtain ⟨all, fc, hall, hfc, hno, hfile⟩ : ∃ all fc, linkedOd.indexes adopted = .ok all ∧ fc ∈ all ∧
      linkedOd.matched classOd (requestOf "an") fc = false ∧ fileOf "fc" ".data" ∈ linkedOd.files fc :=
    ⟨_, _, rfl, .tail _ (.head _), rfl, by decide⟩
  have hgone : (final ((LocalFDB.wipe linkedOd (requestOf "an") { doit := true }).run adopted)).pathExists
      (fileOf "fc" ".data") = false := rfl
  obtain ⟨key, all', hkey, hall', hdelete⟩ := h.removed rfl hgone rfl
  obtain rfl := Except.ok.inj (hall.symm.trans hall')
  obtain rfl := Except.ok.inj ((show linkedOd.openReader adopted = .ok classOd from rfl).symm.trans hkey)
  exact hdelete.unused fc hfc hno hfile

end Linked

end Fdb5
