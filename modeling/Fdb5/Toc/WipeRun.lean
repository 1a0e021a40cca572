import Fdb5.Toc.WipeSafety
import Fdb5.Toc.WriterCalls

/-! The deletions of a wipe during which no system call fails. -/
namespace Fdb5

open Effect

/-- The disk on which the records are masked that the indexes were loaded from. -/
def TocCatalogue.masked (c : TocCatalogue) (indexes : List (TocIndex BTreeHandle)) (d : Disk) : Disk :=
  (indexes.map TocHandler.buildClearRecord).foldl (fun d r => d.append (.toc c.tocPath r)) d

namespace TocWipeVisitor

variable {v : TocWipeVisitor} {d d' : Disk} {p : PathName} {ps : List PathName}
  {Q : Unit → Disk → Prop} {E : Failure → Disk → Prop}

theorem ends_remove (hf : d.faults = []) (hdoit : v.flags.doit = true) :
    Ends (v.remove p) d Q E ↔ Q () (d.append (.remove (v.catalogue.real p))) := by
  rw [remove, if_pos hdoit, Disk.unlink, ends_bind, Disk.ends_syscall hf, ends_modify]

theorem ends_removeExisting (hf : d.faults = []) (hdoit : v.flags.doit = true) :
    Ends (v.removeExisting p) d Q E ↔
      Q () (if d.pathExists (v.catalogue.real p) then d.append (.remove (v.catalogue.real p)) else d) := by
  rw [removeExisting, ends_bind, ends_get]
  split
  · exact ends_remove hf hdoit
  · exact Iff.rfl

/-- The files `ps` were removed, and no others. -/
structure Removed (ps : List PathName) (d d' : Disk) : Prop where
  faults : d'.faults = []
  grows : d.Grows (RemovesOf (· ∈ ps)) d'
  gone : ∀ p ∈ ps, d'.pathExists p = false

theorem Removed.refl (hf : d.faults = []) : Removed [] d d := ⟨hf, .refl, by simp⟩

theorem pathExists_gone (h : d.Grows (RemovesOf fun _ => True) d') (hp : d.pathExists p = false) :
    d'.pathExists p = false := by
  refine (h.foldl_or (z := false) fun w ⟨q, _, hw⟩ => ?_).elim (fun he => he.trans hp) id
  subst hw
  by_cases hq : q = p
  · exact .inr fun x => if_pos hq
  · exact .inl fun x => if_neg hq

theorem pathExists_removed (h : d.Grows (RemovesOf (· ∈ ps)) d') (hp : d.pathExists p = false) :
    d'.pathExists p = false :=
  pathExists_gone (h.mono fun _ ⟨q, _, hw⟩ => ⟨q, trivial, hw⟩) hp

theorem Removed.trans {t : Disk} {qs : List PathName} (h : Removed ps d t) (h' : Removed qs t d') :
    Removed (ps ++ qs) d d' := by
  refine ⟨h'.faults, ?_, fun p hp => ?_⟩
  · exact (h.grows.mono fun w ⟨q, hq, hw⟩ => ⟨q, List.mem_append_left _ hq, hw⟩).trans
      (h'.grows.mono fun w ⟨q, hq, hw⟩ => ⟨q, List.mem_append_right _ hq, hw⟩)
  · rcases List.mem_append.mp hp with hp | hp
    · exact pathExists_removed h'.grows (h.gone p hp)
    · exact h'.gone p hp

/-- One more file is removed. -/
theorem Removed.snoc {t : Disk} (h : Removed ps d t) (ht : t.faults = d'.faults)
    (hp : d' = t.append (.remove p) ∨ d' = t ∧ t.pathExists p = false) :
    Removed (ps ++ [p]) d d' := by
  have hgrows : d.Grows (RemovesOf (· ∈ ps ++ [p])) t :=
    h.grows.mono fun w ⟨q, hq, hw⟩ => ⟨q, List.mem_append_left _ hq, hw⟩
  rcases hp with rfl | ⟨rfl, hp⟩
  · refine ⟨h.faults, hgrows.trans (.append ⟨p, by simp, rfl⟩), fun q hq => ?_⟩
    rw [Disk.pathExists_append, Write.onExists]
    by_cases hqp : p = q
    · exact if_pos hqp
    · rw [if_neg hqp]
      exact h.gone q ((List.mem_append.mp hq).resolve_right (by simpa using Ne.symm hqp))
  · refine ⟨h.faults, hgrows, fun q hq => ?_⟩
    rcases List.mem_append.mp hq with hq | hq
    · exact h.gone q hq
    · rwa [List.mem_singleton.mp hq]

theorem ends_removeAll (hf : d.faults = []) (hdoit : v.flags.doit = true) :
    Ends (ps.forM v.remove) d (fun _ => Removed (ps.map v.catalogue.real) d) fun _ _ => False := by
  refine ends_forM_prefix (P := fun pre => Removed (pre.map v.catalogue.real) d) (fun pre p _ t ht => ?_) [] d (.refl hf)
  rw [ends_remove ht.faults hdoit, List.map_append]
  exact ht.snoc rfl (.inl rfl)

theorem ends_removeAllExisting (hf : d.faults = []) (hdoit : v.flags.doit = true) :
    Ends (ps.forM v.removeExisting) d (fun _ => Removed (ps.map v.catalogue.real) d) fun _ _ => False := by
  refine ends_forM_prefix (P := fun pre => Removed (pre.map v.catalogue.real) d) (fun pre p _ t ht => ?_) [] d (.refl hf)
  rw [ends_removeExisting ht.faults hdoit, List.map_append]
  cases hp : t.pathExists (v.catalogue.real p) with
  | true => exact ht.snoc rfl (.inl rfl)
  | false => exact ht.snoc rfl (.inr ⟨rfl, hp⟩)

theorem ends_maskIndexes {log : List TocRecord} (hf : d.faults = [])
    (hlog : d.toc v.catalogue.tocPath = some log) (hdoit : v.flags.doit = true) :
    Ends (v.maskIndexes false) d (fun _ d' => d' = v.catalogue.masked v.indexesToMask d) fun _ _ => False := by
  rw [maskIndexes, if_pos ⟨rfl, hdoit⟩, TocCatalogue.masked]
  have hloop := ends_forM_prefix (l := v.indexesToMask) (f := v.catalogue.maskIndexEntry)
    (P := fun pre t => t = (pre.map TocHandler.buildClearRecord).foldl
      (fun d r => d.append (.toc v.catalogue.tocPath r)) d) (E := fun _ _ => False)
    (fun pre idx _ t ht => ?_) [] d rfl
  · simpa using hloop
  · have hpre : ∃ log, t.toc v.catalogue.tocPath = some log := by
      rw [ht, TocHandler.toc_appended]
      split
      · exact ⟨_, rfl⟩
      · exact ⟨log, hlog⟩
    obtain ⟨log', hlog'⟩ := hpre
    have hft : t.faults = [] := by rw [ht, TocHandler.faults_appended, hf]
    rw [TocCatalogue.maskIndexEntry, TocHandler.appendBlock, ends_bind,
      TocHandler.ends_openForAppend hft hlog', ends_bind, Disk.ends_syscall hft, ends_modify, ht]
    simp

/-- A wipe of a part masks the indexes first and then deletes them and their data. -/
theorem ends_wipe_part {log : List TocRecord} (hf : d.faults = [])
    (hlog : d.toc v.catalogue.tocPath = some log) (hdoit : v.flags.doit = true)
    (hany : v.anythingToWipe = true) : Ends (v.wipe false) d
      (fun _ => Removed ((v.residualPaths ++ v.dataPaths ++ v.metadataPaths).map v.catalogue.real)
        (v.catalogue.masked v.indexesToMask d))
      fun _ _ => False := by
  have hlock : v.lock false = pure v := by simp [lock]
  rw [wipe, hlock]
  simp only [ends_bind, ends_ensure, ends_pure, hany, not_true_eq_false, false_implies, true_implies,
    and_true]
  refine (ends_maskIndexes hf hlog hdoit).mono (fun _ t ht => ?_) fun _ _ h => h
  have hft : t.faults = [] := by rw [ht, TocCatalogue.masked, TocHandler.faults_appended, hf]
  rw [delete]
  simp only [ends_bind]
  refine (ends_removeAllExisting hft hdoit).mono (fun _ t₁ h₁ => ?_) fun _ _ h => h
  refine (ends_removeAll h₁.faults hdoit).mono (fun _ t₂ h₂ => ?_) fun _ _ h => h
  refine (ends_removeAllExisting h₂.faults hdoit).mono (fun _ t₃ h₃ => ?_) fun _ _ h => h
  simp only [ends_get, Bool.false_eq_true, false_and, if_false, ends_pure, ← ht, List.map_append]
  exact (h₁.trans h₂).trans (by simpa using h₃)

theorem Removed.nil_children {directory : String} (h : Removed ps d d')
    (hall : ∀ p ∈ d.children directory, p ∈ ps) : d'.children directory = [] := by
  refine List.eq_nil_iff_forall_not_mem.mpr fun p hp => ?_
  obtain ⟨hdir, hexists⟩ := Disk.mem_children.mp hp
  have hbefore : d.pathExists p = true := by
    by_contra hno
    rw [pathExists_removed h.grows (by simpa using hno)] at hexists
    cases hexists
  rw [h.gone p (hall p (Disk.mem_children.mpr ⟨hdir, hbefore⟩))] at hexists
  cases hexists

/-- Once the deletions have gone on from `d₃`, the schema is no longer there. -/
theorem schema_gone {s : PathName} {d₃ d₄ t : Disk} (h : Removed [s] d₃ d₄)
    (hrest : d₄.Grows (RemovesOf fun _ => True) d') (ht : d₃.writes <+: t.writes)
    (ht' : t.writes <+: d'.writes) (hne : t.writes ≠ d₃.writes) : t.pathExists s = false := by
  obtain ⟨added, hadded, hs⟩ := h.grows
  obtain ⟨rest, hrest, hr⟩ := hrest
  obtain ⟨more, hmore⟩ := ht
  have hpre : more <+: added ++ rest := by
    rw [hrest, hadded, ← hmore, List.append_assoc] at ht'
    exact (List.prefix_append_right_inj _).mp ht'
  have hremoves : ∀ w ∈ more, RemovesOf (fun _ => True) w := by
    intro w hw
    rcases List.mem_append.mp (hpre.subset hw) with hw | hw
    · obtain ⟨q, -, he⟩ := hs w hw
      exact ⟨q, trivial, he⟩
    · exact hr w hw
  cases added with
  | nil =>
    have hgone : d₃.pathExists s = false := by
      rw [Disk.pathExists, ← List.append_nil d₃.writes, ← hadded]
      exact h.gone s (by simp)
    exact pathExists_gone ⟨more, hmore.symm, hremoves⟩ hgone
  | cons w added =>
    cases more with
    | nil => exact absurd (by simpa using hmore.symm) hne
    | cons w' more =>
      obtain rfl : w' = w := (List.cons_prefix_cons.mp hpre).1
      obtain ⟨q, hq, rfl⟩ := hs w' (.head _)
      obtain rfl : q = s := by simpa using hq
      refine pathExists_gone (d := d₃.append (.remove q)) ⟨more, ?_, fun w hw => hremoves w (.tail _ hw)⟩ ?_
      · rw [← hmore, Disk.append, List.append_assoc, List.singleton_append]
      · simp [Write.onExists]

/-- The deletions of a full wipe: data before indexes, and the rest after the schema. -/
def Deleted (v : TocWipeVisitor) (d d' : Disk) : Prop :=
  ∃ d₂ d₃, Removed (v.residualPaths ++ v.dataPaths) d d₂ ∧ Removed v.indexPaths d₂ d₃ ∧
    d₃.writes <+: d'.writes ∧ ∀ t : Disk, d₃.writes <+: t.writes → t.writes <+: d'.writes →
      t.writes ≠ d₃.writes → ∀ s, v.schemaPath = some s → t.pathExists s = false

theorem ends_rmdir {directory : String} (hf : d.faults = []) (hempty : d.children directory = []) :
    Ends (Disk.rmdir directory) d Q E ↔ Q () (d.append (.remove (Disk.directoryPath directory))) := by
  rw [Disk.rmdir, ends_bind, Disk.ends_syscall hf, ends_bind, ends_get, if_pos hempty, ends_modify]

/-- A directory without files is gone once it is removed. -/
theorem removed_directory {directory : String} (hempty : d.children directory = []) :
    (d.append (.remove (Disk.directoryPath directory))).children directory = [] ∧
      (d.append (.remove (Disk.directoryPath directory))).directoryExists directory = false := by
  have hchildren : (d.append (.remove (Disk.directoryPath directory))).children directory = [] := by
    refine List.eq_nil_iff_forall_not_mem.mpr fun p hp => ?_
    obtain ⟨hdir, hexists⟩ := Disk.mem_children.mp hp
    have hmem : p ∈ d.children directory := by
      refine Disk.mem_children.mpr ⟨hdir, ?_⟩
      by_contra hno
      rw [pathExists_gone (.append ⟨_, trivial, rfl⟩) (by simpa using hno)] at hexists
      cases hexists
    rw [hempty] at hmem
    cases hmem
  refine ⟨hchildren, ?_⟩
  rw [Disk.directoryExists, hchildren]
  simp [Disk.append, Disk.onDirectory]

theorem ends_removeReal (hf : d.faults = []) (hdoit : v.flags.doit = true)
    (hreal : ∀ p ∈ ps, p.dirName = v.catalogue.directory) :
    Ends (ps.forM v.remove) d (fun _ => Removed ps d) (fun _ _ => False) ∧
      Ends (ps.forM v.removeExisting) d (fun _ => Removed ps d) fun _ _ => False := by
  have hmap : ps.map v.catalogue.real = ps := by
    conv_rhs => rw [← List.map_id ps]
    exact List.map_congr_left fun p hp => TocCatalogue.real_eq (hreal p hp)
  have hall : Ends (ps.forM v.remove) d _ _ := ends_removeAll hf hdoit
  have hexisting : Ends (ps.forM v.removeExisting) d _ _ := ends_removeAllExisting hf hdoit
  rw [hmap] at hall hexisting
  exact ⟨hall, hexisting⟩

theorem ends_delete_full (hf : d.faults = []) (hdoit : v.flags.doit = true)
    (hreal : ∀ p ∈ v.residualPaths ++ v.dataPaths ++ v.metadataPaths, p.dirName = v.catalogue.directory)
    (hall : ∀ p ∈ d.children v.catalogue.directory,
      p ∈ v.residualPaths ++ v.dataPaths ++ v.metadataPaths) :
    Ends (v.delete true) d (fun _ d' => d'.children v.catalogue.directory = [] ∧
      d'.directoryExists v.catalogue.directory = false ∧ v.Deleted d d') fun _ _ => False := by
  simp only [metadataPaths, List.mem_append, or_imp, forall_and] at hreal
  obtain ⟨⟨hresidual, hdata⟩, ⟨⟨⟨hindex, hschema⟩, hsub⟩, htoc⟩, hlock⟩ := hreal
  rw [delete]
  simp only [ends_bind, metadataPaths, ends_forM_append, ends_get]
  refine (ends_removeReal hf hdoit hresidual).2.mono (fun _ t₁ h₁ => ?_) fun _ _ h => h
  refine (ends_removeReal h₁.faults hdoit hdata).1.mono (fun _ d₂ h₂ => ?_) fun _ _ h => h
  refine (ends_removeReal h₂.faults hdoit hindex).2.mono (fun _ d₃ h₃ => ?_) fun _ _ h => h
  refine (ends_removeReal h₃.faults hdoit hschema).2.mono (fun _ d₄ h₄ => ?_) fun _ _ h => h
  refine (ends_removeReal h₄.faults hdoit hsub).2.mono (fun _ d₅ h₅ => ?_) fun _ _ h => h
  refine (ends_removeReal h₅.faults hdoit htoc).2.mono (fun _ d₆ h₆ => ?_) fun _ _ h => h
  refine (ends_removeReal h₆.faults hdoit hlock).2.mono (fun _ d₇ h₇ => ?_) fun _ _ h => h
  have hrest := (h₅.trans h₆).trans h₇
  have hempty : d₇.children v.catalogue.directory = [] := by
    refine ((((h₁.trans h₂).trans h₃).trans h₄).trans hrest).nil_children fun p hp => ?_
    have := hall p hp
    simp only [metadataPaths, List.mem_append] at this ⊢
    grind
  have hall (P : PathName → Prop) : ∀ w, RemovesOf P w → RemovesOf (fun _ => True) w := by
    rintro w ⟨q, -, hw⟩
    exact ⟨q, trivial, hw⟩
  have hgrown : d₄.Grows (RemovesOf fun _ => True) d₇ := hrest.grows.mono (hall _)
  have hdeleted : ∀ d', d₇.Grows (RemovesOf fun _ => True) d' → v.Deleted d d' := by
    intro d' hlast
    obtain ⟨added, hadded, -⟩ := (h₄.grows.mono (hall _)).trans (hgrown.trans hlast)
    refine ⟨d₂, d₃, h₁.trans h₂, h₃, ⟨added, hadded.symm⟩, fun t ht ht' hne s hs => ?_⟩
    rw [hs] at h₄
    exact schema_gone h₄ (hgrown.trans hlast) ht ht' hne
  rw [ends_ite]
  refine ⟨fun _ => (ends_rmdir h₇.faults hempty).mpr ?_, fun hno => ⟨hempty, ?_, hdeleted _ .refl⟩⟩
  · obtain ⟨hchildren, hgone⟩ := removed_directory hempty
    exact ⟨hchildren, hgone, hdeleted _ (.append ⟨_, trivial, rfl⟩)⟩
  · by_contra hthere
    exact hno ⟨trivial, by simpa using hthere, hdoit⟩

end TocWipeVisitor

end Fdb5
