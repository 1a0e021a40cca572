import Fdb5.Toc.Wipe
import Fdb5.Toc.Writes

/-! A wipe deletes nothing that an index uses which it does not wipe. -/
namespace Fdb5

open Effect

/-- If the write removes a file, it is one of `S`. -/
def Write.Removes (S : PathName → Prop) (w : Write) : Prop := ∀ p, w = .remove p → S p

/-- A file that has gone was removed. -/
theorem Disk.Grows.removed {S : PathName → Prop} {d d' : Disk} {p : PathName} (h : d.Grows (Write.Removes S) d')
    (hp : d.pathExists p = true) (hgone : d'.pathExists p = false) : S p := by
  obtain ⟨added, hadded, hs⟩ := h
  rw [pathExists, hadded, List.foldl_append] at hgone
  rw [pathExists] at hp
  generalize d.writes.foldl (Write.onExists p) false = found at hp hgone
  clear hadded
  induction added generalizing found with
  | nil => exact absurd (hp.symm.trans hgone) (by decide)
  | cons w added ih =>
    rw [List.foldl_cons] at hgone
    by_cases hw : w = .remove p
    · exact hs w (.head _) p hw
    · refine ih (fun w hw => hs w (.tail _ hw)) _ ?_ hgone
      cases w with
      | remove q => simpa [Write.onExists, show q ≠ p from fun he => hw (he ▸ rfl)] using hp
      | _ => simp [Write.onExists, hp]

namespace TocWipeVisitor

variable {v v' : TocWipeVisitor} {idx : TocIndex BTreeHandle} {l : List (TocIndex BTreeHandle)}
  {p : PathName}

/-- What visiting the indexes `l` adds to the sets of the visitor. -/
structure Visited (v : TocWipeVisitor) (l : List (TocIndex BTreeHandle)) (v' : TocWipeVisitor) :
    Prop where
  frame : v' = { v with
    indexPaths := v'.indexPaths
    dataPaths := v'.dataPaths
    safePaths := v'.safePaths
    indexesToMask := v.indexesToMask ++ l.filter v.includes }
  index : ∀ p, p ∈ v'.indexPaths ↔ p ∈ v.indexPaths ∨ ∃ idx ∈ l, v.includes idx = true ∧ idx.path = p
  data : ∀ p, p ∈ v'.dataPaths ↔ p ∈ v.dataPaths ∨ ∃ idx ∈ l, v.includes idx = true ∧
    v.catalogue.isOwn p = true ∧ ∃ uri ∈ idx.files.uris, uri.path = p
  safe : ∀ p, p ∈ v'.safePaths ↔ p ∈ v.safePaths ∨ ∃ idx ∈ l,
    v.includes idx = false ∧ idx.path = p ∨
      (∃ uri ∈ idx.files.uris, uri.path = p) ∧
        ¬ (v.includes idx = true ∧ v.catalogue.isOwn p = true)

theorem visitData_fold (v : TocWipeVisitor) (included : Bool) (uris : List URI) :
    ∃ dataPaths safePaths, uris.foldl (visitData included) v = { v with dataPaths, safePaths } ∧
      (∀ p, p ∈ dataPaths ↔ p ∈ v.dataPaths ∨ included = true ∧
        v.catalogue.isOwn p = true ∧ ∃ uri ∈ uris, uri.path = p) ∧
      ∀ p, p ∈ safePaths ↔ p ∈ v.safePaths ∨ (∃ uri ∈ uris, uri.path = p) ∧
        ¬ (included = true ∧ v.catalogue.isOwn p = true) := by
  induction uris generalizing v with
  | nil => exact ⟨_, _, rfl, by simp, by simp⟩
  | cons uri uris ih =>
    obtain ⟨dataPaths, safePaths, heq, hdata, hsafe⟩ := ih (visitData included v uri)
    by_cases h : included = true ∧ v.catalogue.isOwn uri.path = true
    · rw [visitData, if_pos h] at heq hdata hsafe
      refine ⟨dataPaths, safePaths, by rw [List.foldl_cons, visitData, if_pos h, heq], fun p => ?_,
        fun p => ?_⟩
      · rw [hdata, List.mem_insert_iff]
        grind
      · rw [hsafe]
        grind
    · rw [visitData, if_neg h] at heq hdata hsafe
      refine ⟨dataPaths, safePaths, by rw [List.foldl_cons, visitData, if_neg h, heq], fun p => ?_,
        fun p => ?_⟩
      · rw [hdata]
        grind
      · rw [hsafe, List.mem_insert_iff]
        grind

/-- One step of the visit. -/
theorem visited_visitIndex : v.Visited [idx] (v.visitIndex idx) := by
  cases h : v.includes idx with
  | true =>
    obtain ⟨dataPaths, safePaths, heq, hdata, hsafe⟩ := visitData_fold
      { v with indexesToMask := v.indexesToMask ++ [idx], indexPaths := v.indexPaths.insert idx.path }
      true idx.files.uris
    rw [visitIndex, h, if_pos rfl, heq]
    refine ⟨by simp [h], fun p => ?_, fun p => ?_, fun p => ?_⟩
    · simp [h, List.mem_insert_iff]
      grind
    · rw [hdata]
      simp [h]
    · rw [hsafe]
      simp [h]
  | false =>
    obtain ⟨dataPaths, safePaths, heq, hdata, hsafe⟩ := visitData_fold
      { v with safePaths := v.safePaths.insert idx.path } false idx.files.uris
    rw [visitIndex, h, if_neg (by simp), heq]
    refine ⟨by simp [h], fun p => ?_, fun p => ?_, fun p => ?_⟩
    · simp [h]
    · rw [hdata]
      simp [h]
    · rw [hsafe]
      simp [h]
      grind

theorem Visited.trans {l' : List (TocIndex BTreeHandle)} {v'' : TocWipeVisitor}
    (h : v.Visited l v') (h' : v'.Visited l' v'') : v.Visited (l ++ l') v'' := by
  have hinc : v'.includes = v.includes := by
    funext idx
    rw [h.frame]
    rfl
  have hdir : v'.catalogue = v.catalogue := by rw [h.frame]
  refine ⟨?_, fun p => ?_, fun p => ?_, fun p => ?_⟩
  · rw [h'.frame, hinc, h.frame]
    simp
  · rw [h'.index, h.index, hinc]
    grind
  · rw [h'.data, h.data, hinc, hdir]
    grind
  · rw [h'.safe, h.safe, hinc, hdir]
    grind

/-- The whole visit. -/
theorem visited_fold : v.Visited l (l.foldl visitIndex v) := by
  induction l using List.reverseRecOn with
  | nil => exact ⟨by simp, by simp, by simp, by simp⟩
  | append_singleton l idx ih =>
    rw [List.foldl_append]
    exact ih.trans visited_visitIndex

end TocWipeVisitor

/-- The index file and the data files of an index. -/
def TocIndex.filePaths (idx : TocIndex BTreeHandle) : List PathName :=
  idx.path :: idx.files.uris.map URI.path

/-- Whether a wipe with this request is about the index. -/
def TocCatalogue.matched (c : TocCatalogue) (key : Key) (rq : MarsRequest)
    (idx : TocIndex BTreeHandle) : Bool :=
  (TocWipeVisitor.visitDatabase c key rq {}).includes idx

/-- The files of an index, whatever they are called in it. -/
def TocCatalogue.files (c : TocCatalogue) (idx : TocIndex BTreeHandle) : List PathName := idx.filePaths.map c.real

/-- What may be deleted of a database with the visible indexes `all`. -/
structure SafeToDelete (c : TocCatalogue) (key : Key) (rq : MarsRequest)
    (all : List (TocIndex BTreeHandle)) (p : PathName) : Prop where
  inside : p.dirName = c.directory
  unused : ∀ idx ∈ all, c.matched key rq idx = false → p ∉ c.files idx
  metadata : (∀ idx ∈ all, p ∉ c.files idx) → ∀ idx ∈ all, c.matched key rq idx = true

/-- A file of the directory that both a matched and an unmatched index use has, in the matched one, a name by which an
unmatched one uses it. -/
def NamedAlike (c : TocCatalogue) (key : Key) (rq : MarsRequest) (all : List (TocIndex BTreeHandle)) (d : Disk) : Prop :=
  ∀ idx ∈ all, c.matched key rq idx = true → ∀ p ∈ idx.filePaths, c.isOwn p = true →
    d.pathExists (c.real p) = true → (∃ other ∈ all, c.matched key rq other = false ∧ c.real p ∈ c.files other) →
      ∃ other ∈ all, c.matched key rq other = false ∧ p ∈ other.filePaths

/-- The path of a matched index that no unmatched one protects. -/
structure Doomed (c : TocCatalogue) (key : Key) (rq : MarsRequest) (all : List (TocIndex BTreeHandle))
    (p : PathName) : Prop where
  own : c.isOwn p = true
  matched : ∃ idx ∈ all, c.matched key rq idx = true ∧ p ∈ idx.filePaths
  unprotected : ∀ idx ∈ all, c.matched key rq idx = false → p ∉ idx.filePaths

/-- Where each directory has one name, the indexes name their files alike. -/
theorem namedAlike_of_real {c : TocCatalogue} {key : Key} {rq : MarsRequest} {all : List (TocIndex BTreeHandle)}
    {d : Disk} (h : ∀ p, c.real p = p) : NamedAlike c key rq all d := by
  rintro idx - - p - - - ⟨other, hother, hno, hfile⟩
  obtain ⟨q, hq, he⟩ := List.mem_map.mp hfile
  rw [h, h] at he
  exact ⟨other, hother, hno, he ▸ hq⟩

namespace TocWipeVisitor

section Sets

variable {v v' : TocWipeVisitor} {d : Disk} {p : PathName} {S : PathName → Prop}

theorem onlyWrites_remove (h : v.flags.doit = true → S (v.catalogue.real p)) : OnlyWrites (Write.Removes S) (v.remove p) :=
  .ite (fun hdoit => .unlink fun _ he => by cases he; exact h hdoit) fun _ => .pure _

theorem onlyWrites_removeExisting (h : v.flags.doit = true → S (v.catalogue.real p)) :
    OnlyWrites (Write.Removes S) (v.removeExisting p) :=
  OnlyWrites.get.bind fun _ => .ite (fun _ => onlyWrites_remove h) fun _ => .pure _

theorem onlyWrites_delete {wipeAll : Bool}
    (h : v.flags.doit = true → ∀ p ∈ v.residualPaths ++ v.dataPaths ++ v.metadataPaths, S (v.catalogue.real p))
    (hdir : wipeAll = true → S (Disk.directoryPath v.catalogue.directory)) :
    OnlyWrites (Write.Removes S) (v.delete wipeAll) := by
  refine (OnlyWrites.forM fun p hp => onlyWrites_removeExisting fun hdoit => h hdoit p ?_).bind
    fun _ => (OnlyWrites.forM fun p hp => onlyWrites_remove fun hdoit => h hdoit p ?_).bind
    fun _ => (OnlyWrites.forM fun p hp => onlyWrites_removeExisting fun hdoit => h hdoit p ?_).bind
    fun _ => OnlyWrites.get.bind fun _ => .ite (fun hall => .rmdir fun _ he => by cases he; exact hdir hall.1) fun _ => .pure _
  all_goals simp [hp]

theorem mem_lockfilePaths {directory : String} (h : p ∈ TocHandler.lockfilePaths d directory) :
    p.dirName = directory := by
  obtain ⟨identifier, -, rfl⟩ := List.mem_map.mp (List.mem_of_mem_filter h)
  rfl

theorem ends_lock {wipeAll : Bool} : Ends (v.lock wipeAll) d (fun v' t => d.Grows (Write.Removes S) t ∧ ∃ paths,
      (∀ p ∈ paths, wipeAll = true ∧ p.dirName = v.catalogue.directory) ∧
        v' = { v with lockfilePaths := paths ∪ v.lockfilePaths }) fun _ => d.Grows (Write.Removes S) := by
  rw [lock, ends_ite]
  refine ⟨fun hall => ?_, fun _ => ⟨.refl, [], by simp, by simp⟩⟩
  rw [ends_bind]
  refine (OnlyWrites.disable (fun _ _ he => by cases he) d).mono (fun _ t ht => ?_) fun _ _ h => h
  simp only [ends_bind, ends_get, ends_ensure, ends_pure]
  refine ⟨fun _ => ⟨fun _ => ⟨fun _ => ⟨ht, _, fun p hp => ⟨hall.1, mem_lockfilePaths hp⟩, rfl⟩,
    fun _ => ht⟩, fun _ => ht⟩, fun _ => ht⟩

theorem onlyWrites_wipe {wipeAll : Bool}
    (h : v.flags.doit = true → ∀ p ∈ v.residualPaths ++ v.dataPaths ++ v.metadataPaths, S (v.catalogue.real p))
    (hdir : wipeAll = true → ∀ p, p.dirName = v.catalogue.directory → S p) :
    OnlyWrites (Write.Removes S) (v.wipe wipeAll) := by
  refine (OnlyWrites.ensure _ _).bind fun _ => OnlyWrites.bind_of (fun d => ends_lock) ?_
  rintro _ ⟨paths, hpaths, rfl⟩
  refine OnlyWrites.bind (.ite (fun _ => .forM fun _ _ => .appendBlock fun _ _ _ he => by cases he) fun _ => .pure _) fun _ =>
    onlyWrites_delete (fun hdoit p hp => ?_) fun hall => hdir hall _ rfl
  by_cases hlock : p ∈ paths
  · obtain ⟨hall, hp⟩ := hpaths p hlock
    exact hdir hall _ (by rwa [TocCatalogue.real_eq hp])
  · refine h hdoit p ?_
    simp only [metadataPaths, List.mem_append, List.mem_union_iff, hlock, false_or] at hp ⊢
    exact hp

/-- Where something is to be kept, only indexes and data are deleted. -/
theorem complete_part (h : v.safePaths ≠ []) :
    v.complete d = .ok v.keepMetadata.ensureSafePaths := by
  rw [complete, if_neg (by simpa using h)]
  rfl

theorem mem_part : p ∈ v.keepMetadata.ensureSafePaths.dataPaths ++ v.keepMetadata.ensureSafePaths.metadataPaths ↔
    (p ∈ v.dataPaths ∨ p ∈ v.indexPaths) ∧ p ∉ v.safePaths := by
  simp only [ensureSafePaths, keepMetadata, metadataPaths, Option.filter_none, Option.toList_none,
    List.filter_nil, List.append_nil, List.mem_append, List.mem_filter, or_and_right]
  exact or_congr (and_congr_right fun _ => decide_eq_true_iff) (and_congr_right fun _ => decide_eq_true_iff)

theorem checkResidual_part (h : v.anythingToWipe = true) : v.checkResidual false d = .ok v := by
  simp [checkResidual, assert, h]

theorem complete_full (h : v.safePaths = []) (hv : v.complete d = .ok v') :
    v'.catalogue = v.catalogue ∧ v'.flags = v.flags := by
  rw [complete, h, List.isEmpty_nil, if_pos rfl] at hv
  simp only [addMetadataPaths, except_bind_ok, except_pure_ok] at hv
  obtain ⟨masked, -, _, ⟨subtocs, -, rfl⟩, rfl⟩ := hv
  exact ⟨rfl, rfl⟩

/-- A full wipe that goes on deletes files of the directory alone, and leaves none. -/
theorem checkResidual_full (h : v.checkResidual true d = .ok v') :
    v'.catalogue = v.catalogue ∧ v'.flags = v.flags ∧
      (∀ p ∈ v'.deletePaths, p ∈ d.children v.catalogue.directory) ∧
      v'.residualPaths = (d.children v.catalogue.directory).filter (· ∉ v'.deletePaths) ∧
      (v.flags.unsafeWipeAll = false → v.flags.doit = true → v'.residualPaths = []) := by
  simp only [checkResidual, if_true, except_bind_ok, calculateResidualPaths] at h
  obtain ⟨v'', h, -, -, h'⟩ := h
  split at h
  · rename_i hall
    obtain rfl := except_pure_ok.mp h
    split at h'
    · simp at h'
    · rename_i hno
      obtain rfl := except_pure_ok.mp h'
      refine ⟨rfl, rfl, hall, rfl, fun hu hdoit => ?_⟩
      by_contra hne
      exact hno ⟨trivial, hne, hu, hdoit⟩
  · simp at h

end Sets

theorem matched_eq {c : TocCatalogue} {key : Key} {rq : MarsRequest} {flags : WipeFlags} :
    (visitDatabase c key rq flags).includes = c.matched key rq := rfl

section Safety

variable {c : TocCatalogue} {key : Key} {rq : MarsRequest} {flags : WipeFlags} {v v' : TocWipeVisitor}
  {all : List (TocIndex BTreeHandle)} {d : Disk} {p : PathName}

theorem matched_own {idx : TocIndex BTreeHandle} (h : c.matched key rq idx = true) : c.isOwn idx.path = true := by
  rw [TocCatalogue.matched, includes, Bool.and_eq_true] at h
  exact h.2

/-- What the visit found, without what it found to be safe. -/
theorem doomed_iff (hv : (visitDatabase c key rq flags).Visited all v) :
    (p ∈ v.dataPaths ∨ p ∈ v.indexPaths) ∧ p ∉ v.safePaths ↔ Doomed c key rq all p := by
  have hindex : p ∈ v.indexPaths ↔ ∃ idx ∈ all, c.matched key rq idx = true ∧ idx.path = p := by
    rw [hv.index, matched_eq]
    simp [visitDatabase]
  have hdata : p ∈ v.dataPaths ↔ ∃ idx ∈ all, c.matched key rq idx = true ∧ c.isOwn p = true ∧
      ∃ uri ∈ idx.files.uris, uri.path = p := by
    rw [hv.data, matched_eq]
    simp [visitDatabase]
  have hsafe : p ∈ v.safePaths ↔ ∃ idx ∈ all, c.matched key rq idx = false ∧ idx.path = p ∨
      (∃ uri ∈ idx.files.uris, uri.path = p) ∧ ¬ (c.matched key rq idx = true ∧ c.isOwn p = true) := by
    rw [hv.safe, matched_eq]
    simp [visitDatabase]
  constructor
  · rintro ⟨hp, hno⟩
    have hfile : c.isOwn p = true ∧ ∃ idx ∈ all, c.matched key rq idx = true ∧ p ∈ idx.filePaths := by
      rcases hp with hp | hp
      · obtain ⟨idx, hidx, hm, hown, uri, huri, rfl⟩ := hdata.mp hp
        exact ⟨hown, idx, hidx, hm, .tail _ (List.mem_map_of_mem huri)⟩
      · obtain ⟨idx, hidx, hm, rfl⟩ := hindex.mp hp
        exact ⟨matched_own hm, idx, hidx, hm, .head _⟩
    refine ⟨hfile.1, hfile.2, fun idx hidx hm hmem => hno (hsafe.mpr ⟨idx, hidx, ?_⟩)⟩
    rcases List.mem_cons.mp hmem with rfl | hmem
    · exact .inl ⟨hm, rfl⟩
    · obtain ⟨uri, huri, rfl⟩ := List.mem_map.mp hmem
      exact .inr ⟨⟨uri, huri, rfl⟩, by simp [hm]⟩
  · rintro ⟨hown, ⟨idx, hidx, hm, hmem⟩, hunprotected⟩
    refine ⟨?_, fun hp => ?_⟩
    · rcases List.mem_cons.mp hmem with rfl | hmem
      · exact .inr (hindex.mpr ⟨idx, hidx, hm, rfl⟩)
      · obtain ⟨uri, huri, rfl⟩ := List.mem_map.mp hmem
        exact .inl (hdata.mpr ⟨idx, hidx, hm, hown, uri, huri, rfl⟩)
    · obtain ⟨other, hother, ⟨hno, rfl⟩ | ⟨⟨uri, huri, rfl⟩, hno⟩⟩ := hsafe.mp hp
      · exact hunprotected other hother hno (.head _)
      · have hunmatched : c.matched key rq other = false := by simpa [hown] using hno
        exact hunprotected other hother hunmatched (.tail _ (List.mem_map_of_mem huri))

theorem safe_files (hname : NamedAlike c key rq all d) (hp : Doomed c key rq all p)
    (hex : d.pathExists (c.real p) = true) : SafeToDelete c key rq all (c.real p) := by
  obtain ⟨idx, hidx, hm, hmem⟩ := hp.matched
  refine ⟨TocCatalogue.isOwn_iff.mp hp.own, fun other hother hno hfile => ?_, fun hno => ?_⟩
  · obtain ⟨other', hother', hno', hmem'⟩ := hname idx hidx hm p hmem hp.own hex ⟨other, hother, hno, hfile⟩
    exact hp.unprotected other' hother' hno' hmem'
  · exact absurd (List.mem_map_of_mem hmem) (hno idx hidx)

/-- Nothing is safe only if all indexes are matched, and then all of the directory may go. -/
theorem safe_all (hv : (visitDatabase c key rq flags).Visited all v) (hs : v.safePaths = [])
    (hp : p.dirName = c.directory) : SafeToDelete c key rq all p := by
  have hall : ∀ idx ∈ all, c.matched key rq idx = true := by
    intro idx hidx
    by_contra hno
    have hmem := (hv.safe idx.path).mpr (.inr ⟨idx, hidx, .inl ⟨by rw [matched_eq]; simpa using hno, rfl⟩⟩)
    rw [hs] at hmem
    cases hmem
  exact ⟨hp, fun idx hidx hno => absurd (hall idx hidx) (by simp [hno]), fun _ => hall⟩

/-- Completing the visit deletes, of what is on the disk, only what no unmatched index needs. -/
theorem onlyWrites_complete (hu : flags.unsafeWipeAll = false)
    (hv : (visitDatabase c key rq flags).Visited all v)
    (hname : flags.doit = true → NamedAlike c key rq all d) : OnlyWrites
      (Write.Removes fun p => d.pathExists p = true → SafeToDelete c key rq all p) v.catalogueComplete := by
  have hcat : v.catalogue = c := by rw [hv.frame]; rfl
  have hflags : v.flags = flags := by rw [hv.frame]; rfl
  intro d₀
  rw [catalogueComplete]
  simp only [ends_bind, ends_get, ends_lift]
  refine ⟨fun v₁ h₁ => ?_, fun _ _ => .refl⟩
  refine OnlyWrites.ite (fun hany => ?_) (fun _ => .pure _) d₀
  intro d₁
  simp only [ends_bind, ends_get, ends_lift]
  refine ⟨fun v₂ h₂ => ?_, fun _ _ => .refl⟩
  refine OnlyWrites.ite (fun _ => ?_) (fun _ => .pure _) d₁
  by_cases hs : v.safePaths = []
  · obtain ⟨hcat₁, hflags₁⟩ := complete_full hs h₁
    rw [hs] at h₂
    obtain ⟨hcat₂, hflags₂, hdelete, -, hresidual⟩ := checkResidual_full h₂
    rw [hcat₁, hcat] at hdelete hcat₂
    rw [hflags₁, hflags] at hflags₂ hresidual
    refine onlyWrites_wipe (fun hdoit p hp _ => ?_) fun _ p hp _ => safe_all hv hs (hp.trans (by rw [hcat₂]))
    rw [hresidual hu (by rwa [hflags₂] at hdoit), List.nil_append] at hp
    have hdir : p.dirName = c.directory := by
      refine (Disk.mem_children.mp (hdelete p ?_)).1
      simp only [deletePaths, metadataPaths, List.mem_append] at hp ⊢
      grind
    rw [hcat₂, TocCatalogue.real_eq hdir]
    exact safe_all hv hs hdir
  · rw [complete_part hs] at h₁
    obtain rfl := Except.ok.inj h₁
    rw [List.isEmpty_eq_false_iff.mpr hs, checkResidual_part hany] at h₂
    obtain rfl := Except.ok.inj h₂
    rw [List.isEmpty_eq_false_iff.mpr hs]
    have hresidual : v.residualPaths = [] := by rw [hv.frame]; rfl
    refine onlyWrites_wipe (fun hdoit p hp hex => ?_) fun h => by cases h
    rw [show v.keepMetadata.ensureSafePaths.residualPaths = [] from hresidual, List.nil_append] at hp
    rw [show v.keepMetadata.ensureSafePaths.catalogue = c from hcat] at hex ⊢
    exact safe_files (hname (hflags ▸ hdoit)) ((doomed_iff hv).mp (mem_part.mp hp)) hex

end Safety

end TocWipeVisitor

/-- Of the files that were on the disk, only those are deleted that no visible index needs which the request does not
match. -/
def TocCatalogue.DeletesSafely (c : TocCatalogue) (rq : MarsRequest) (d d' : Disk) : Prop :=
  d.Grows (Write.Removes fun p => d.pathExists p = true → ∃ key all, c.openReader d = .ok key ∧
    c.indexes d = .ok all ∧ SafeToDelete c key rq all p) d'

/-- No wipe without `unsafeWipeAll` deletes, whether it ends or fails on the way, a file outside the
directory, a file that an unmatched visible index uses, or, while there is such an index, a file that
is no index or data file, if the indexes name their files alike. -/
theorem wipe_safe {c : TocCatalogue} {rq : MarsRequest} {flags : WipeFlags} {d : Disk}
    (h : flags.unsafeWipeAll = false)
    (hname : c.located d rq = true → TocHandler.enabled d c.directory .wipe = true → flags.doit = true →
      ∀ key all, c.openReader d = .ok key → c.indexes d = .ok all → NamedAlike c key rq all d) :
    c.DeletesSafely rq d (final ((LocalFDB.wipe c rq flags).run d)) := by
  refine Ends.final ?_
  rw [LocalFDB.wipe]
  simp only [ends_bind, ends_get, ends_ite, ends_lift, ends_pure, TocCatalogue.visitEntries, ends_throw]
  refine ⟨fun hlocated => ⟨fun key hkey => ⟨fun all hall => ⟨fun henabled => ?_, fun _ => .refl⟩, fun _ _ => .refl⟩,
    fun _ _ => .refl⟩, fun _ => .refl⟩
  exact (TocWipeVisitor.onlyWrites_complete h TocWipeVisitor.visited_fold
    (fun hdoit => hname hlocated henabled hdoit key all hkey hall) d).mono
    (fun _ t ht => ht.mono fun w hw p hp hex => ⟨key, all, hkey, hall, hw p hp hex⟩)
    fun _ t ht => ht.mono fun w hw p hp hex => ⟨key, all, hkey, hall, hw p hp hex⟩

section TwoTypes

def od : TocCatalogue := .plain "/od" 2 2

def classOd : Key := Key.ofList [("class", "od")] none

def fileOf (type extension : String) : PathName := ⟨"/od", ⟨type, some 0, extension⟩⟩

def indexOf (type : String) : EncodedIndex where
  files := [.path (.relative (fileOf type ".data").baseName)]
  axes := ∅
  key := Key.ofList [("type", type)] none
  type := "BTreeIndex"

def fieldsOf (type : String) : List Write :=
  [.data (fileOf type ".data") 1, .segment (fileOf type ".index") 0 ∅]

def indexRecord (type : String) : TocRecord := .index (fileOf type ".index").baseName 0 (indexOf type)

def odSubToc : PathName := ⟨"/od", ⟨"toc", some 0, ""⟩⟩

/-- A database with the index of one type in its toc and that of another in a sub-toc. -/
def twoTypes : Disk where
  writes := [.schema od.schemaPath ⟨.untyped, []⟩, .toc od.tocPath (.init classOd)] ++
    fieldsOf "an" ++ [.toc od.tocPath (indexRecord "an")] ++
    fieldsOf "fc" ++ [.toc odSubToc (.init classOd), .toc odSubToc (indexRecord "fc"),
      .toc od.tocPath (.subToc (.relative odSubToc.baseName))]

def requestOf (type : String) : MarsRequest := ⟨[("class", ["od"]), ("type", [type])]⟩

end TwoTypes

end Fdb5
