import Fdb5.Toc.Clearing
import Fdb5.Toc.WipeRun

/-! A wipe of a whole database: what it collects, and that it leaves nothing behind. -/
namespace Fdb5

open Effect

namespace TocWipeVisitor

variable {v v' : TocWipeVisitor} {d d' : Disk} {p : PathName} {subtocs : List PathName}
  {masked : List (PathName × Nat) × List URI}

/-- What a full wipe knows before it deletes anything. -/
def collect (v : TocWipeVisitor) (d : Disk) : Except Failure TocWipeVisitor := do
  (← v.complete d).checkResidual true d

/-- No more than indexes and their data has been visited, and nothing is to be kept. -/
structure Unfilled (v : TocWipeVisitor) : Prop where
  safe : v.safePaths = []
  subtoc : v.subtocPaths = []
  lockfile : v.lockfilePaths = []

def IsIndexPath (v : TocWipeVisitor) (masked : List (PathName × Nat) × List URI) (p : PathName) :
    Prop :=
  p ∈ v.indexPaths ∨ v.catalogue.isOwn p = true ∧ p ∈ masked.1.map Prod.fst ∧ p.baseName.isSubToc = false

def IsDataPath (v : TocWipeVisitor) (masked : List (PathName × Nat) × List URI) (p : PathName) :
    Prop :=
  p ∈ v.dataPaths ∨ v.catalogue.isOwn p = true ∧ p ∈ masked.2.map URI.path

def IsSubTocPath (v : TocWipeVisitor) (masked : List (PathName × Nat) × List URI)
    (subtocs : List PathName) (p : PathName) : Prop :=
  p ∈ subtocs ∨ v.catalogue.isOwn p = true ∧ p ∈ masked.1.map Prod.fst ∧ p.baseName.isSubToc = true

/-- What belongs to the database. -/
def Claimed (v : TocWipeVisitor) (masked : List (PathName × Nat) × List URI)
    (subtocs : List PathName) (d : Disk) (p : PathName) : Prop :=
  v.IsIndexPath masked p ∨ v.IsDataPath masked p ∨ v.IsSubTocPath masked subtocs p ∨
    p ∈ TocHandler.lockfilePaths d v.catalogue.directory ∨ p = v.catalogue.tocPath ∨
    p = v.catalogue.schemaPath

/-- The visitor without what is missing. -/
def existing (v : TocWipeVisitor) (d : Disk) : TocWipeVisitor :=
  let there (paths : List PathName) := paths.filter fun p => d.pathExists (v.catalogue.real p)
  { v with
    subtocPaths := there v.subtocPaths
    lockfilePaths := there v.lockfilePaths
    indexPaths := there v.indexPaths
    dataPaths := there v.dataPaths
    tocPath := v.tocPath.filter fun p => d.pathExists (v.catalogue.real p)
    schemaPath := v.schemaPath.filter fun p => d.pathExists (v.catalogue.real p) }

/-- The visitor with all that belongs to the database. -/
def claim (v : TocWipeVisitor) (masked : List (PathName × Nat) × List URI)
    (subtocs : List PathName) (d : Disk) : TocWipeVisitor :=
  let v' := v.addMaskedPaths masked
  { v' with
    tocPath := some v.catalogue.tocPath
    schemaPath := some v.catalogue.schemaPath
    subtocPaths := subtocs ∪ v'.subtocPaths
    lockfilePaths := TocHandler.lockfilePaths d v.catalogue.directory ∪ v'.lockfilePaths }

theorem complete_ok (hv : v.Unfilled) : v.complete d = .ok v' ↔ ∃ masked subtocs,
    v.catalogue.allMasked d = .ok masked ∧
      TocHandler.subTocPaths d v.catalogue.depth v.catalogue.tocPath = .ok subtocs ∧
        v' = v.claim masked subtocs d := by
  rw [complete, hv.safe, List.isEmpty_nil, if_pos rfl]
  simp only [addMetadataPaths, except_bind_ok, except_pure_ok]
  have hkeep : ∀ masked subtocs, (show TocWipeVisitor from { v.addMaskedPaths masked with
      schemaPath := some (v.addMaskedPaths masked).catalogue.schemaPath
      tocPath := some (v.addMaskedPaths masked).catalogue.tocPath
      subtocPaths := subtocs ∪ (v.addMaskedPaths masked).subtocPaths
      lockfilePaths := TocHandler.lockfilePaths d (v.addMaskedPaths masked).catalogue.directory ∪
        (v.addMaskedPaths masked).lockfilePaths }).ensureSafePaths = v.claim masked subtocs d := by
    intro masked subtocs
    simp [ensureSafePaths, claim, addMaskedPaths, hv.safe]
  constructor
  · rintro ⟨masked, hmasked, _, ⟨subtocs, hsub, rfl⟩, rfl⟩
    exact ⟨masked, subtocs, hmasked, hsub, hkeep masked subtocs⟩
  · rintro ⟨masked, subtocs, hmasked, hsub, rfl⟩
    exact ⟨masked, hmasked, _, ⟨subtocs, hsub, rfl⟩, hkeep masked subtocs⟩

/-- What of the directory is not to go with the rest. -/
def residual (v : TocWipeVisitor) (d : Disk) : List PathName :=
  (d.children v.catalogue.directory).filter (· ∉ (v.existing d).deletePaths)

/-- The visitor of a full wipe that goes on. -/
def cleaned (v : TocWipeVisitor) (d : Disk) : TocWipeVisitor :=
  { v.existing d with residualPaths := v.residual d }

theorem checkResidual_ok (hdoit : v.flags.doit = true) : v.checkResidual true d = .ok v' ↔
    (∀ p ∈ (v.existing d).deletePaths, p ∈ d.children v.catalogue.directory) ∧
      (v.flags.porcelain = true ∨ (v.existing d).anythingToWipe = true) ∧
      (v.residual d = [] ∨ v.flags.unsafeWipeAll = true) ∧ v' = v.cleaned d := by
  rw [checkResidual, if_pos rfl, except_bind_ok]
  change (∃ w, (if ∀ p ∈ (v.existing d).deletePaths, p ∈ d.children v.catalogue.directory then
    Except.ok (v.cleaned d) else _) = Except.ok w ∧ _) ↔ _
  constructor
  · rintro ⟨w, hw, h⟩
    split at hw
    · rename_i hall
      obtain rfl := Except.ok.inj hw
      simp only [except_bind_ok, assert_ok] at h
      obtain ⟨_, hany, h⟩ := h
      split at h
      · simp at h
      · rename_i hclean
        refine ⟨hall, hany, ?_, (except_pure_ok.mp h).symm⟩
        by_contra hno
        rw [not_or, Bool.not_eq_true] at hno
        exact hclean ⟨trivial, hno.1, hno.2, hdoit⟩
    · cases hw
  · rintro ⟨hall, hany, hclean, rfl⟩
    refine ⟨_, if_pos hall, ?_⟩
    simp only [except_bind_ok, assert_ok]
    refine ⟨(), hany, if_neg ?_⟩
    rintro ⟨-, hne, hu, -⟩
    rcases hclean with h | h
    · exact hne h
    · exact Bool.noConfusion (hu.symm.trans h)

theorem mem_delete_claim (hv : v.Unfilled) : p ∈ ((v.claim masked subtocs d).existing d).deletePaths ↔
    v.Claimed masked subtocs d p ∧ d.pathExists (v.catalogue.real p) = true := by
  simp only [deletePaths, existing, claim, addMaskedPaths, hv.subtoc, hv.lockfile, Claimed, IsIndexPath,
    IsDataPath, IsSubTocPath, List.mem_append, List.mem_filter, List.mem_union_iff,
    Option.mem_toList, Option.filter_eq_some_iff, Option.some.injEq, List.not_mem_nil,
    or_false, Bool.not_eq_true']
  grind

/-- Nothing keeps a full wipe from going on. -/
structure Ready (v : TocWipeVisitor) (d : Disk) (masked : List (PathName × Nat) × List URI)
    (subtocs : List PathName) : Prop where
  allMasked : v.catalogue.allMasked d = .ok masked
  subTocPaths : TocHandler.subTocPaths d v.catalogue.depth v.catalogue.tocPath = .ok subtocs
  inside : ∀ p, v.Claimed masked subtocs d p → d.pathExists (v.catalogue.real p) = true →
    p.dirName = v.catalogue.directory
  clean : v.flags.unsafeWipeAll = true ∨
    ∀ p ∈ d.children v.catalogue.directory, v.Claimed masked subtocs d p

theorem mem_residual (hv : v.Unfilled) : p ∈ (v.claim masked subtocs d).residual d ↔
    p ∈ d.children v.catalogue.directory ∧ ¬ v.Claimed masked subtocs d p := by
  rw [residual, List.mem_filter, decide_eq_true_iff, mem_delete_claim hv]
  refine and_congr_right fun hp => not_congr (and_iff_left ?_)
  obtain ⟨hdir, hex⟩ := Disk.mem_children.mp hp
  have hreal : v.catalogue.real p = p := TocCatalogue.real_eq hdir
  rwa [hreal]

theorem ready_iff (hv : v.Unfilled) (hdoit : v.flags.doit = true)
    (htoc : d.pathExists v.catalogue.tocPath = true) :
    (∃ w, v.complete d = .ok w ∧ w.checkResidual true d = .ok v') ↔
      ∃ masked subtocs, v.Ready d masked subtocs ∧ v' = (v.claim masked subtocs d).cleaned d := by
  have hany : ∀ masked subtocs, ((v.claim masked subtocs d).existing d).anythingToWipe = true := by
    intro masked subtocs
    have htoc' : d.pathExists (v.catalogue.real v.catalogue.tocPath) = true := by rwa [TocCatalogue.real_eq rfl]
    simp [anythingToWipe, existing, claim, addMaskedPaths, htoc']
  have hflags : ∀ masked subtocs, (v.claim masked subtocs d).flags = v.flags := fun _ _ => rfl
  have hdelete : ∀ masked subtocs, (∀ p ∈ ((v.claim masked subtocs d).existing d).deletePaths,
      p ∈ d.children v.catalogue.directory) ↔ ∀ p, v.Claimed masked subtocs d p →
        d.pathExists (v.catalogue.real p) = true → p.dirName = v.catalogue.directory := by
    intro masked subtocs
    simp only [mem_delete_claim hv, Disk.mem_children]
    refine ⟨fun h p hp hex => (h p ⟨hp, hex⟩).1, fun h p hp => ?_⟩
    have hdir := h p hp.1 hp.2
    exact ⟨hdir, TocCatalogue.real_eq hdir ▸ hp.2⟩
  have hclean : ∀ masked subtocs, (v.claim masked subtocs d).residual d = [] ↔
      ∀ p ∈ d.children v.catalogue.directory, v.Claimed masked subtocs d p := by
    intro masked subtocs
    simp only [List.eq_nil_iff_forall_not_mem, mem_residual hv, not_and, not_not]
  constructor
  · rintro ⟨w, hw, h⟩
    obtain ⟨masked, subtocs, hmasked, hsub, rfl⟩ := (complete_ok hv).mp hw
    obtain ⟨hall, -, hres, rfl⟩ := (checkResidual_ok (hflags masked subtocs ▸ hdoit)).mp h
    rw [hclean, hflags] at hres
    exact ⟨masked, subtocs, ⟨hmasked, hsub, (hdelete _ _).mp hall, hres.symm⟩, rfl⟩
  · rintro ⟨masked, subtocs, h, rfl⟩
    refine ⟨_, (complete_ok hv).mpr ⟨masked, subtocs, h.allMasked, h.subTocPaths, rfl⟩, ?_⟩
    have hres := h.clean.symm
    rw [← hclean, ← hflags masked subtocs] at hres
    exact (checkResidual_ok (hflags masked subtocs ▸ hdoit)).mpr
      ⟨(hdelete _ _).mpr h.inside, .inr (hany _ _), hres, rfl⟩

/-- The locks that a full wipe makes. -/
def Locks (directory : String) (w : Write) : Prop :=
  ∃ i ∈ [ControlIdentifier.list, .retrieve, .archive],
    w = .data (TocHandler.controlFilePath directory i) 0

theorem ends_lock_full (hf : d.faults = []) (hdoit : v.flags.doit = true) :
    Ends (v.lock true) d (fun v' t => t.faults = [] ∧ d.Grows (Locks v.catalogue.directory) t ∧
      v' = { v with lockfilePaths := TocHandler.lockfilePaths t v.catalogue.directory ∪
        v.lockfilePaths }) fun _ _ => False := by
  rw [lock, if_pos ⟨rfl, hdoit⟩]
  simp only [ends_bind]
  have hcontrol := ends_forM_prefix
    (l := [ControlIdentifier.list, .retrieve, .archive])
    (f := TocHandler.createControlFile v.catalogue.directory)
    (P := fun pre t => t.faults = [] ∧ d.Grows (Locks v.catalogue.directory) t ∧
      ∀ i ∈ pre, t.pathExists (TocHandler.controlFilePath v.catalogue.directory i) = true)
    (E := fun _ _ => False) (fun pre i _ t ht => ?_) [] d ⟨hf, .refl, by simp⟩
  · refine hcontrol.mono (fun _ t ht => ?_) fun _ _ h => h
    obtain ⟨hft, hgrows, hmade⟩ := ht
    have hdisabled : ∀ i ∈ [ControlIdentifier.list, .retrieve, .archive],
        TocHandler.enabled t v.catalogue.directory i = false := fun i hi => by
      simp [TocHandler.enabled, hmade i hi]
    simp only [ends_get, ends_ensure, ends_pure, hdisabled .list (by simp),
      hdisabled .retrieve (by simp), hdisabled .archive (by simp)]
    simp [hft, hgrows]
  · obtain ⟨hft, hgrows, hmade⟩ := ht
    rw [TocHandler.createControlFile, ends_bind, ends_get, ends_ite]
    refine ⟨fun hex => ⟨hft, hgrows, fun j hj => ?_⟩, fun _ => (Disk.ends_write hft).mpr
      ⟨hft, hgrows.trans (.append ⟨i, ‹_›, rfl⟩), fun j hj => ?_⟩⟩
    · rcases List.mem_append.mp hj with hj | hj
      · exact hmade j hj
      · rwa [List.mem_singleton.mp hj]
    · rcases List.mem_append.mp hj with hj | hj
      · exact Disk.pathExists_append_of (by simp) (hmade j hj)
      · rw [List.mem_singleton.mp hj]
        simp [Write.onExists, Write.path]

/-- Nothing of the database is left. -/
structure Erased (v : TocWipeVisitor) (d d' : Disk) : Prop where
  children : d'.children v.catalogue.directory = []
  gone : d'.directoryExists v.catalogue.directory = false
  deleted : ∃ t, d.Grows (Locks v.catalogue.directory) t ∧ v.Deleted t d'

theorem ends_wipe_full (hf : d.faults = []) (hdoit : v.flags.doit = true)
    (hany : v.anythingToWipe = true)
    (hall : ∀ p ∈ d.children v.catalogue.directory, p ∈ v.residualPaths ∨ p ∈ v.deletePaths)
    (hinside : ∀ p, p ∈ v.residualPaths ∨ p ∈ v.deletePaths → p.dirName = v.catalogue.directory) :
    Ends (v.wipe true) d (fun _ => v.Erased d) fun _ _ => False := by
  rw [wipe]
  simp only [ends_bind, ends_ensure, hany, not_true_eq_false, false_implies, true_implies, and_true]
  refine (ends_lock_full hf hdoit).mono (fun w t ht => ?_) fun _ _ h => h
  obtain ⟨hft, hgrows, hw⟩ := ht
  have hcat : w.catalogue = v.catalogue := by rw [hw]
  rw [maskIndexes, if_neg (by simp), ends_pure]
  refine (ends_delete_full hft (by rwa [hw]) (fun p hp => ?_) fun p hp => ?_).mono (fun _ d' hd' => ?_) fun _ _ h => h
  · subst hw
    by_cases hlock : p ∈ TocHandler.lockfilePaths t v.catalogue.directory
    · exact mem_lockfilePaths hlock
    · refine hinside p ?_
      simp only [metadataPaths, deletePaths, List.mem_append, List.mem_union_iff, hlock, false_or] at hp ⊢
      grind
  · rw [hcat] at hp
    subst hw
    obtain ⟨hdir, hex⟩ := Disk.mem_children.mp hp
    simp only [metadataPaths, List.mem_append, List.mem_union_iff]
    rcases hgrows.exists_new hex with hex | ⟨_, ⟨i, hi, rfl⟩, hpath, -⟩
    · have hmem := hall p (Disk.mem_children.mpr ⟨hdir, hex⟩)
      simp only [deletePaths, List.mem_append] at hmem
      grind
    · have hlock : p ∈ TocHandler.lockfilePaths t v.catalogue.directory := by
        refine List.mem_filter.mpr ⟨List.mem_map.mpr ⟨i, ?_, hpath⟩, hex⟩
        simp only [List.mem_cons, List.not_mem_nil, or_false] at hi
        rcases hi with rfl | rfl | rfl <;> simp
      grind
  · subst hw
    exact ⟨hd'.1, hd'.2.1, t, hgrows, hd'.2.2⟩

/-- A full wipe goes on to the end if it is ready, and fails otherwise. -/
theorem ends_catalogueComplete_full (hf : d.faults = []) (hv : v.Unfilled)
    (hdoit : v.flags.doit = true) (htoc : d.pathExists v.catalogue.tocPath = true) :
    Ends v.catalogueComplete d
      (fun _ d' => ∃ masked subtocs, v.Ready d masked subtocs ∧
        ((v.claim masked subtocs d).cleaned d).Erased d d')
      fun _ _ => ¬ ∃ masked subtocs, v.Ready d masked subtocs := by
  have hready : ∀ {masked subtocs}, v.Ready d masked subtocs →
      v.complete d = .ok (v.claim masked subtocs d) ∧
        (v.claim masked subtocs d).checkResidual true d = .ok ((v.claim masked subtocs d).cleaned d) := by
    intro masked subtocs h
    obtain ⟨w, hw, hres⟩ := (ready_iff hv hdoit htoc).mpr ⟨masked, subtocs, h, rfl⟩
    have hclaim := (complete_ok hv).mpr ⟨masked, subtocs, h.allMasked, h.subTocPaths, rfl⟩
    rw [hclaim] at hw
    obtain rfl := Except.ok.inj hw
    exact ⟨hclaim, hres⟩
  rw [catalogueComplete]
  simp only [ends_bind, ends_get, ends_lift, hv.safe, List.isEmpty_nil]
  constructor
  · intro w hw
    obtain ⟨masked, subtocs, -, -, rfl⟩ := (complete_ok hv).mp hw
    have hany : (v.claim masked subtocs d).anythingToWipe = true := by simp [anythingToWipe, claim]
    rw [if_pos hany]
    simp only [ends_bind, ends_get, ends_lift]
    constructor
    · intro w' hw'
      obtain ⟨masked', subtocs', h, rfl⟩ := (ready_iff hv hdoit htoc).mp ⟨_, hw, hw'⟩
      have hdoit' : ((v.claim masked' subtocs' d).cleaned d).flags.doit = true := hdoit
      rw [if_pos (.inl hdoit')]
      refine (ends_wipe_full hf hdoit' ?_ (fun p hp => ?_) fun p hp => ?_).mono
        (fun _ _ hd' => ⟨masked', subtocs', h, hd'⟩) fun _ _ h => h.elim
      · have htoc' : d.pathExists (v.catalogue.real v.catalogue.tocPath) = true := by rwa [TocCatalogue.real_eq rfl]
        simp [anythingToWipe, cleaned, existing, claim, addMaskedPaths, htoc']
      · by_cases hdelete : p ∈ ((v.claim masked' subtocs' d).cleaned d).deletePaths
        · exact .inr hdelete
        · exact .inl (List.mem_filter.mpr ⟨hp, decide_eq_true hdelete⟩)
      · rcases hp with hp | hp
        · exact (Disk.mem_children.mp (List.mem_of_mem_filter hp)).1
        · obtain ⟨hclaimed, hex⟩ := (mem_delete_claim hv).mp hp
          exact h.inside p hclaimed hex
    · rintro e he ⟨masked', subtocs', h⟩
      rw [(hready h).1] at hw
      rw [← Except.ok.inj hw, (hready h).2] at he
      cases he
  · rintro e he ⟨masked, subtocs, h⟩
    rw [(hready h).1] at he
    cases he

end TocWipeVisitor

namespace TocCatalogue

variable {c : TocCatalogue} {key : Key} {rq : MarsRequest} {flags : WipeFlags}
  {all : List (TocIndex BTreeHandle)} {d : Disk}

/-- The request is about all of the database, which keeps its files in its directory. -/
def MatchesAll (c : TocCatalogue) (key : Key) (rq : MarsRequest) (all : List (TocIndex BTreeHandle)) :
    Prop :=
  ∀ idx ∈ all, c.matched key rq idx = true ∧ ∀ p ∈ idx.filePaths, p.dirName = c.directory

/-- The visitor after it has visited all indexes. -/
def visitor (c : TocCatalogue) (key : Key) (rq : MarsRequest) (flags : WipeFlags)
    (all : List (TocIndex BTreeHandle)) : TocWipeVisitor :=
  all.foldl TocWipeVisitor.visitIndex (.visitDatabase c key rq flags)

theorem visited_visitor :
    (TocWipeVisitor.visitDatabase c key rq flags).Visited all (c.visitor key rq flags all) :=
  TocWipeVisitor.visited_fold

theorem visitor_catalogue : (c.visitor key rq flags all).catalogue = c := by
  rw [visited_visitor.frame]
  rfl

theorem visitor_flags : (c.visitor key rq flags all).flags = flags := by
  rw [visited_visitor.frame]
  rfl

theorem unfilled_visitor (h : c.MatchesAll key rq all) : (c.visitor key rq flags all).Unfilled := by
  refine ⟨List.eq_nil_iff_forall_not_mem.mpr fun p hp => ?_, ?_, ?_⟩
  · rcases (visited_visitor.safe p).mp hp with hp | ⟨idx, hidx, ⟨hno, -⟩ | ⟨⟨uri, huri, rfl⟩, hno⟩⟩
    · cases hp
    · rw [TocWipeVisitor.matched_eq, (h idx hidx).1] at hno
      cases hno
    · exact hno ⟨(h idx hidx).1, TocCatalogue.isOwn_of ((h idx hidx).2 _ (.tail _ (List.mem_map_of_mem huri)))⟩
  · rw [visited_visitor.frame]
    rfl
  · rw [visited_visitor.frame]
    rfl

theorem ends_wipe_all (hf : d.faults = []) (hlocated : c.located d rq = true)
    (hkey : c.openReader d = .ok key) (hall : c.indexes d = .ok all)
    (henabled : TocHandler.enabled d c.directory .wipe = true) (hmatch : c.MatchesAll key rq all)
    (hdoit : flags.doit = true) :
    Ends (LocalFDB.wipe c rq flags) d
      (fun _ d' => ∃ masked subtocs, (c.visitor key rq flags all).Ready d masked subtocs ∧
        (((c.visitor key rq flags all).claim masked subtocs d).cleaned d).Erased d d')
      fun _ _ => ¬ ∃ masked subtocs, (c.visitor key rq flags all).Ready d masked subtocs := by
  have htoc : d.pathExists (c.visitor key rq flags all).catalogue.tocPath = true := by
    obtain ⟨log, hlog, -⟩ := toc_of_openReader hkey
    rw [visitor_catalogue]
    exact Disk.pathExists_of_toc hlog
  rw [LocalFDB.wipe]
  simp only [ends_bind, ends_get, ends_ite, ends_lift, hlocated, hkey, visitEntries, hall, henabled,
    Except.ok.injEq, forall_eq', not_true_eq_false, false_implies, true_implies, reduceCtorEq,
    implies_true, and_true]
  have hdoit' : (c.visitor key rq flags all).flags.doit = true := by rw [visitor_flags, hdoit]
  exact TocWipeVisitor.ends_catalogueComplete_full hf (unfilled_visitor hmatch) hdoit' htoc

end TocCatalogue

end Fdb5
