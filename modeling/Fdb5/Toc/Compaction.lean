import Fdb5.Toc.Session

/-! The end of a writer: its full indexes take the place of its sub-toc in the master toc. -/
namespace Fdb5

open Effect IndexStore

variable {db : Database} {base : Position → Option Pages} {H : History} {writers : Nat → Option TocCatalogueWriter} {P : Position → Prop}
  {d d' : Disk} {w : Nat} {W W' : TocCatalogueWriter} {e : Key} {records : List TocRecord} {items : List Item}
  {K : Position → Prop} {puts : StringDict → List Put} {κ : StringDict}

/-- The full indexes of a writer when those of `done` were flushed, and the records made of them. -/
structure Compacting (db : Database) (K : Position → Prop) (puts : StringDict → List Put)
    (done : List StringDict) (records : List TocRecord) (segs : List Segment) (W : TocCatalogueWriter)
    (s u : TocCatalogueWriter × Disk) : Prop where
  writer : u.1 = { W with fullIndexes := u.1.fullIndexes }
  sim : StoreSim db.directory K (fun κ => if κ ∈ done then puts κ else [])
    (fun κ => if κ ∈ done then [] else puts κ) (u.1.fullIndexes, u.2)
  keeps : s.2.Keeps K (fun _ => True) u.2
  same : ∀ k, k ∈ u.1.fullIndexes ↔ k ∈ s.1.fullIndexes
  position : ∀ x, StoreSim.At u.1.fullIndexes x → StoreSim.At s.1.fullIndexes x
  records : List.Forall₂ (fun r seg => seg.index ∈ done ∧ ∃ idx, u.1.fullIndexes[StringDict.order seg.index]? = some idx ∧
    IndexRecord db u.2 seg idx.position r) records segs
  under : ∀ κ, Segment.under κ segs = if κ ∈ done then puts κ else []

namespace Compacting

variable {done : List StringDict} {segs : List Segment} {s u : TocCatalogueWriter × Disk}

/-- One turn of the loop of `compactSubTocIndexes`. -/
theorem ends_compactIndex (h : Compacting db K puts done records segs W s u) (hver : W.version = db.version)
    (hp : ∀ p ∈ puts κ, p.Archivable db.version) (hnew : κ ∉ done) (hmem : StringDict.order κ ∈ s.1.fullIndexes) :
    Ends (TocCatalogueWriter.compactIndex records (StringDict.order κ)) u
      (fun records' v => ∃ segs', Compacting db K puts (done ++ [κ]) records' segs' W s v) fun _ _ => False := by
  obtain ⟨w, d⟩ := u
  obtain ⟨hw, hsim, hkeeps, hsame, hposition, hrecords, hunder⟩ := h
  obtain ⟨fullIndexes, rfl⟩ : ∃ fullIndexes, w = { W with fullIndexes } := ⟨_, hw⟩
  simp only at hsim hkeeps hsame hposition hrecords
  obtain ⟨idx, hidx⟩ := mem_iff.mp ((hsame _).mpr hmem)
  have hopen := hsim.index κ idx hidx
  simp only [hnew, if_false] at hopen
  rw [TocCatalogueWriter.compactIndex]
  simp only [ends_bind, ends_get, hidx, ends_ite]
  refine ⟨fun hdirty => ?_, fun hclean => ?_⟩
  · have hne : puts κ ≠ [] := by
      have := hopen.dirty.symm.trans hdirty
      rintro he
      simp [he] at this
    simp only [TocCatalogueWriter.onFullIndexes, ends_focus]
    refine (hsim.ends_flush hidx hdirty).mono ?_ fun _ _ h => h
    rintro _ ⟨store, d'⟩ ⟨hsim', hkeeps', idx', hstore, hpos⟩
    have hget : ∀ κ', store[StringDict.order κ']? = if κ = κ' then some idx' else fullIndexes[StringDict.order κ']? :=
      fun κ' => by rw [show store = _ from hstore, getElem?_insert]
    have hopen' := hsim'.index κ idx' (by rw [hget, if_pos rfl])
    simp only [Function.update_self, hnew, if_false, List.nil_append] at hopen'
    obtain ⟨r, hr, hrec⟩ := hopen'.record hne hp
    rw [← hver] at hr
    simp only [hget, if_true, ends_bind, ends_get, ends_lift, hr, ends_pure]
    refine ⟨fun _ he => ?_, fun _ he => by cases he⟩
    cases he
    refine ⟨segs ++ [⟨κ, puts κ⟩], rfl, ?_, ?_, fun k => ?_, fun x hx => ?_, ?_, fun κ' => ?_⟩
    · convert hsim' using 1
      · funext κ'
        by_cases hκ : κ' = κ
        · simp [hκ, hnew]
        · simp [hκ]
      · funext κ'
        by_cases hκ : κ' = κ
        · simp [hκ]
        · simp [hκ]
    · exact hkeeps.trans (hkeeps'.mono (fun _ => .inl) fun _ => id)
    · rw [show store = _ from hstore, Std.ExtTreeMap.mem_insert, Std.LawfulEqCmp.compare_eq_iff_eq, hsame]
      exact ⟨fun hk => hk.elim (fun he => he ▸ hmem) id, .inr⟩
    · obtain ⟨κ', i, hi, rfl⟩ := hx
      rw [hget] at hi
      split at hi
      · cases hi
        exact hposition _ ⟨κ, idx, hidx, hpos⟩
      · exact hposition _ ⟨κ', i, hi, rfl⟩
    · refine List.rel_append (hrecords.imp ?_) (.cons ⟨by simp, idx', by rw [hget, if_pos rfl], hrec⟩ .nil)
      rintro r seg ⟨hdone, i, hi, hr⟩
      have hother : κ ≠ seg.index := fun he => hnew (he ▸ hdone)
      exact ⟨by simp [hdone], i, by rw [hget, if_neg hother, hi],
        hr.frame (hkeeps'.segment _ _ (.inr ⟨seg.index, i, hother.symm, hi, rfl⟩))⟩
    · rw [Segment.under_append, hunder, Segment.under_singleton]
      by_cases hκ : κ = κ'
      · subst hκ
        simp [hnew]
      · have : ¬ κ' = κ := fun he => hκ he.symm
        simp [hκ, this]
  · have hnone : puts κ = [] := by
      have := hopen.dirty
      simpa [hclean] using this
    refine ⟨segs, rfl, ?_, hkeeps, hsame, hposition, hrecords.imp fun r seg hr => ⟨by simp [hr.1], hr.2⟩, fun κ' => ?_⟩
    · convert hsim using 1
      · funext κ'
        by_cases hκ : κ' = κ
        · simp [hκ, hnone]
        · simp [hκ]
      · funext κ'
        by_cases hκ : κ' = κ
        · simp [hκ, hnone]
        · simp [hκ]
    · rw [hunder]
      by_cases hκ : κ' = κ
      · simp [hκ, hnone]
      · simp [hκ]

theorem ends_compactIndexes {rest : List StringDict} (h : Compacting db K puts done records segs W s u)
    (hver : W.version = db.version) (hp : ∀ κ, ∀ p ∈ puts κ, p.Archivable db.version)
    (hnodup : (done ++ rest).Nodup) (hmem : ∀ κ ∈ rest, StringDict.order κ ∈ s.1.fullIndexes) :
    Ends ((rest.map StringDict.order).foldlM TocCatalogueWriter.compactIndex records) u
      (fun records' v => ∃ segs', Compacting db K puts (done ++ rest) records' segs' W s v) fun _ _ => False := by
  induction rest generalizing done records segs u with
  | nil => exact ⟨segs, by simpa using h⟩
  | cons κ rest ih =>
    rw [List.map_cons, List.foldlM_cons, ends_bind]
    have hnew : κ ∉ done := fun hκ => (List.nodup_append.mp hnodup).2.2 κ hκ κ (by simp) rfl
    refine (h.ends_compactIndex hver (hp κ) hnew (hmem κ (.head _))).mono ?_ fun _ _ h => h
    rintro records' v ⟨segs', h'⟩
    rw [List.append_cons] at hnodup ⊢
    exact ih h' hnodup fun κ' hκ' => hmem κ' (.tail _ hκ')

end Compacting

section Append

variable {toc : PathName} {log : List TocRecord}

theorem Disk.Keeps.appended {T : PathName → Prop} (ht : ¬ T toc)
    (hstamp : ∀ n, toc.baseName.stamp = some n → n < d.stamp) :
    d.Keeps K T (records.foldl (fun d r => d.append (.toc toc r)) d) := by
  induction records generalizing d with
  | nil => exact .refl
  | cons r records ih => exact (Disk.Keeps.append ht hstamp).trans (ih hstamp)

theorem TocHandler.ends_appendBlock {Q : Unit → Disk → Prop} {E : Failure → Disk → Prop} (hf : d.faults = [])
    (hlog : d.toc toc = some log) : Ends (appendBlock toc records) d Q E ↔
      Q () (records.foldl (fun d r => d.append (.toc toc r)) d) := by
  rw [appendBlock, ends_bind, ends_openForAppend hf hlog, ends_bind, Disk.ends_syscall hf, ends_modify]

end Append

/-- A writer without a sub-toc leaves. -/
theorem Shows.leave (h : Shows H items) (hf : H.Facts) (hno : ∀ base segs, .subToc w base segs ∉ items) :
    Shows { H with live := H.live.erase w } items := by
  refine ⟨h.archived, fun v base segs hi => ?_, fun v hv => h.none v (List.mem_of_mem_erase hv), h.met, h.last⟩
  obtain ⟨hv, hκ⟩ := h.own v base segs hi
  refine ⟨hf.nodup.mem_erase_iff.mpr ⟨?_, hv⟩, hκ⟩
  rintro rfl
  exact hno base segs hi

theorem Layout.leave (h : Layout db H writers P d e records items) (hf : H.Facts)
    (hno : ∀ base segs, .subToc w base segs ∉ items) :
    Layout db { H with live := H.live.erase w } (Function.update writers w none) P d e records items := by
  refine ⟨h.toc, h.canonical, h.key, h.schema, h.records, fun v V p hV => ?_, h.distinct, h.masked, h.clear, h.plain, ?_⟩
  · by_cases hv : v = w
    · rw [hv, Function.update_self] at hV
      cases hV
    · rw [Function.update_of_ne hv] at hV
      exact h.opened v V p hV
  · have hshows := h.shows
    split at hshows
    · rename_i hs
      rw [if_pos hs]
      exact hshows.leave hf hno
    · rename_i hs
      rw [if_neg hs]
      exact hshows

/-- The records that compaction appends mask the sub-toc and show all that the writer was given. -/
theorem Layout.compact {P' : Position → Prop} {m : Nat} {pre post : List Item} {segs fulls : List Segment}
    {rs : List TocRecord} (h : Layout db H writers P d e records (pre ++ .subToc w (subTocName m) segs :: post))
    (hf : H.Facts) (hp : ∀ κ, H.pending w κ = []) (on : db.useSubToc = true)
    (hkeeps : d.Keeps (Held writers P w) (fun q => q ≠ db.tocPath) d') (hP : ∀ x, P x → P' x)
    (hrs : List.Forall₂ (fun r seg => ∃ x, P' x ∧ IndexRecord db d' seg x r) rs fulls)
    (hfulls : ∀ κ, Segment.under κ fulls = H.puts w κ)
    (htoc : d'.toc db.tocPath = some (.init e :: records ++ (rs ++ [.clear (.relative (subTocName m)) 0]))) :
    Layout db { H with live := H.live.erase w } (Function.update writers w none) P' d' e
      (records ++ rs ++ [.clear (.relative (subTocName m)) 0])
      (pre ++ .masked (subTocName m) :: post ++ fulls.map (.index w) ++ [.clear (subTocName m)]) := by
  have hshows := h.shows
  rw [if_pos on] at hshows
  have hsame : ∀ n, d'.toc ⟨db.directory, subTocName n⟩ = d.toc ⟨db.directory, subTocName n⟩ :=
    fun n => hkeeps.toc _ (tocPath_ne n).symm
  have hmem : Item.subToc w (subTocName m) segs ∈ pre ++ .subToc w (subTocName m) segs :: post := by simp
  obtain ⟨_, log, hm, hlog⟩ := h.toc_of_mem hmem rfl
  cases hm
  have hframe : ∀ r item, RecordShows db P e.keys d r item → RecordShows db P' e.keys d' r item := fun r item hr =>
    hr.frame hP (fun p o hx => hkeeps.segment p o (.inl hx)) hkeeps.stamp
      (fun n log hl => ⟨log, (hsame n).trans hl⟩) fun _ n _ _ => hsame n
  have hsub : ∀ v base s, .subToc v base s ∈ pre ++ .masked (subTocName m) :: post ++ fulls.map (.index w) ++
      [.clear (subTocName m)] ↔ .subToc v base s ∈ pre ++ post := by
    intro v base s
    simp
  have hold : ∀ item, item ∈ pre ++ post → item ∈ pre ++ .subToc w (subTocName m) segs :: post := by
    intro item hi
    simp only [List.mem_append, List.mem_cons] at hi ⊢
    tauto
  refine ⟨by rw [htoc]; simp, h.canonical, h.key, ?_, ?_, fun v V p hV => ?_, fun v u base s s' hv hu => ?_,
    fun base hb => ?_, fun base hb v s hv => ?_, fun hoff => absurd on (by simp [hoff]), ?_⟩
  · exact (hkeeps.schema _).trans h.schema
  · refine List.rel_append (List.rel_append ?_ ?_) (.cons (.clear m log ((hsame m).trans hlog)) .nil)
    · refine forall₂_replace (fun r item _ hr => hframe r item hr) (fun r hr => ?_) h.records
      cases hr with
      | subToc => exact .masked m log ((hsame m).trans hlog)
    · rw [List.forall₂_map_right_iff]
      refine hrs.imp ?_
      rintro r seg ⟨x, hx, hr⟩
      exact .index w seg x r hx hr
  · by_cases hv : v = w
    · rw [hv, Function.update_self] at hV
      cases hV
    · rw [Function.update_of_ne hv] at hV
      rw [h.opened v V p hV]
      refine exists_congr fun base => exists_congr fun s => and_congr_right fun _ => ?_
      rw [hsub]
      simp [hv]
  · exact h.distinct v u base s s' (hold _ ((hsub ..).mp hv)) (hold _ ((hsub ..).mp hu))
  · by_cases hbm : base = subTocName m
    · simp [hbm]
    · have := h.masked base (by simpa [hbm] using hb)
      simpa [hbm] using this
  · have hv' := (hsub ..).mp hv
    by_cases hbm : base = subTocName m
    · exact h.other_base on hv' hbm
    · exact h.clear base (by simpa [hbm] using hb) v s (hold _ hv')
  · rw [if_pos on]
    exact hshows.compact hf hp hfulls

theorem Shares.leave {P' : Position → Prop} {T : PathName → Prop} (h : Shares db H writers P d) (hf : H.Facts)
    (hkeeps : d.Keeps (Held writers P w) T d') (hnew : ∀ x, P' x → P x ∨ ¬ Held writers P w x)
    (hkept : ∀ p o, P' (p, o) → ∃ pages, d'.segment p o = some pages) :
    Shares db { H with live := H.live.erase w } (Function.update writers w none) P' d' := by
  refine h.update hkeeps (fun W hW => by cases hW) hnew hkept (fun v => ?_) fun _ _ => ⟨rfl, rfl, rfl⟩
  by_cases hv : v = w
  · simp [hv, hf.nodup.mem_erase_iff]
  · simp [hv, List.mem_erase_of_ne hv]

namespace StoreSim

variable {store : IndexStore}

theorem Closable.frame (h : Closable store d) (hs : ∀ (k : List String) (idx : TocIndex BTreeHandle),
    store[k]? = some idx → d'.segment idx.path idx.offset = d.segment idx.path idx.offset) : Closable store d' := by
  intro k idx hidx
  refine (h k idx hidx).imp id ?_
  rintro ⟨flushed, hw⟩
  exact ⟨flushed, hw.frame (hs k idx hidx)⟩

end StoreSim

namespace TocCatalogueWriter

/-- Closing indexes in which nothing is pending writes nothing. -/
theorem ends_closeIndexes (hi : StoreSim.Closable W.indexes d) (hfull : StoreSim.Closable W.fullIndexes d) :
    Ends closeIndexes (W, d) (fun _ u => u.2 = d) fun _ _ => False := by
  rw [closeIndexes]
  simp only [ends_bind, ends_get, ends_modify]
  refine (ends_forM (P := fun s : TocCatalogueWriter × Disk => s.2 = d ∧ StoreSim.Closable s.1.indexes d ∧
    (∀ k ∈ W.indexes.keys, k ∈ s.1.indexes) ∧ StoreSim.Closable s.1.fullIndexes d) (E := fun _ _ => False)
    ?_ (W, d) ⟨rfl, hi, fun k hk => Std.ExtTreeMap.mem_keys.mp hk, hfull⟩).mono ?_ fun _ _ h => h
  · rintro k hk ⟨V, d'⟩ ⟨hd, hV, hmem, hVfull⟩
    obtain rfl : d' = d := hd
    simp only [onIndexes, ends_focus]
    refine (StoreSim.ends_close hV (hmem k hk)).mono ?_ fun _ _ h => h
    rintro _ ⟨store, _⟩ ⟨hd, hc, hkeep⟩
    exact ⟨hd, hc, fun k hk => hkeep k (hmem k hk), hVfull⟩
  · rintro _ ⟨V, d'⟩ ⟨hd, -, -, hVfull⟩
    obtain rfl : d' = d := hd
    refine (ends_forM (P := fun s : TocCatalogueWriter × Disk => s.2 = d' ∧ StoreSim.Closable s.1.fullIndexes d' ∧
      ∀ k ∈ V.fullIndexes.keys, k ∈ s.1.fullIndexes) (E := fun _ _ => False) ?_ (V, d')
      ⟨rfl, hVfull, fun k hk => Std.ExtTreeMap.mem_keys.mp hk⟩).mono (fun _ _ h => h.1) fun _ _ h => h
    rintro k hk ⟨U, d⟩ ⟨hd, hU, hmem⟩
    obtain rfl : d = d' := hd
    simp only [onFullIndexes, ends_focus]
    refine (StoreSim.ends_close hU (hmem k hk)).mono ?_ fun _ _ h => h
    rintro _ ⟨store, _⟩ ⟨hd, hc, hkeep⟩
    exact ⟨hd, hc, fun k hk => hkeep k (hmem k hk)⟩

end TocCatalogueWriter

namespace Simulates

/-- The writer is gone from the tocs, and closing it writes nothing. -/
def Gone (db : Database) (base : Position → Option Pages) (H : History) (writers : Nat → Option TocCatalogueWriter) (w : Nat)
    (u : TocCatalogueWriter × Disk) : Prop :=
  Simulates db base { H with live := H.live.erase w } (Function.update writers w none) u.2 ∧
    StoreSim.Closable u.1.indexes u.2 ∧ StoreSim.Closable u.1.fullIndexes u.2

theorem ends_compactSubTocIndexes (h : Simulates db base H writers d) (hW : writers w = some W)
    (hp : ∀ κ, H.pending w κ = []) : Ends TocCatalogueWriter.compactSubTocIndexes (W, d)
      (fun _ u => Gone db base H writers w u) fun _ _ => False := by
  obtain ⟨P, e, records, items, hrests, hshares, hlayout⟩ := h.layout
  have hw : w ∈ H.live := (hshares.live w).mpr ⟨W, hW⟩
  have hsim := hshares.writer w W hW
  have hputs : ∀ κ, ∀ p ∈ H.puts w κ, p.Archivable db.version := by
    intro κ p hmem
    rw [h.facts.puts w hw, hp, List.append_nil, History.flushedBy, List.mem_map] at hmem
    obtain ⟨f, hf, rfl⟩ := hmem
    obtain ⟨a, ha, -, -, hap⟩ := h.facts.flushed κ f (List.mem_of_mem_filter hf)
    exact hap ▸ h.archivable a ha
  rw [TocCatalogueWriter.compactSubTocIndexes]
  simp only [ends_bind, ends_map, ends_get]
  cases hsub : W.subTocWrite with
  | none =>
    have hno : ∀ base segs, .subToc w base segs ∉ items := by
      intro base segs hi
      have := (hlayout.opened w W ⟨db.directory, base⟩ hW).mpr ⟨base, segs, rfl, hi⟩
      rw [hsub] at this
      cases this
    refine ⟨⟨h.facts.close, h.selected, h.archivable, P, e, records, items, hrests,
      hshares.leave h.facts (T := fun _ => True) .refl (fun x => .inl) hshares.kept,
      hlayout.leave h.facts hno⟩, StoreSim.closable hsim.indexes hp, StoreSim.closable hsim.fullIndexes fun κ => ?_⟩
    by_cases hon : db.useSubToc = true
    · have hshows := hlayout.shows
      rw [if_pos hon] at hshows
      rw [if_pos hon, h.facts.puts w hw, hp, hshows.none w hw hno]
      rfl
    · rw [if_neg hon]
  | some p =>
    obtain ⟨base, segs, rfl, hmem⟩ := (hlayout.opened w W p hW).mp hsub
    obtain ⟨m, -, rfl, -⟩ := hlayout.toc_of_mem hmem rfl
    have hon : db.useSubToc = true := by
      by_contra hoff
      exact hlayout.plain (by simpa using hoff) w _ segs hmem
    obtain ⟨pre, post, rfl⟩ := List.append_of_mem hmem
    have hfull := hsim.fullIndexes
    simp only [hon, if_true] at hfull
    obtain ⟨κs, hκs, hnodup, hκmem⟩ := exists_keys hfull
    have hstart : Compacting db (fun x => Held writers P w x ∨ StoreSim.At W.indexes x) (H.puts w) [] [] [] W
        (W, d) (W, d) :=
      ⟨rfl, by simpa using hfull, .refl, fun _ => Iff.rfl, fun _ hx => hx, .nil, by simp⟩
    have huse : W.useSubToc = true := hsim.useSubToc.trans hon
    dsimp only
    rw [if_pos huse, ← hκs]
    simp only [ends_bind]
    refine (hstart.ends_compactIndexes hsim.version hputs (by simpa using hnodup)
      fun κ hκ => (hκmem κ).mp hκ).mono ?_ fun _ _ h => h
    rintro rs ⟨W₁, d₁⟩ ⟨fulls, hc⟩
    rw [List.nil_append] at hc
    obtain ⟨hW₁, hsim₁, hkeeps₁, hsame, hposition, hrs, hunder⟩ := hc
    simp only at hW₁ hsim₁ hkeeps₁ hsame hposition hrs
    have hnone : ∀ κ, κ ∉ κs → H.puts w κ = [] := by
      intro κ hκ
      by_contra hne
      exact hκ ((hκmem κ).mpr (hfull.stored κ (by simpa using hne)))
    have hclear : TocHandler.buildSubTocMaskRecord W.directory ⟨db.directory, subTocName m⟩ =
        .clear (.relative (subTocName m)) 0 := by
      rw [TocHandler.buildSubTocMaskRecord, hsim.directory, StoredPath.of, if_pos rfl]
    have htocPath : W.tocPath = db.tocPath := by
      rw [TocCatalogueWriter.tocPath, hsim.directory]
      rfl
    have hlog₁ : d₁.toc db.tocPath = some (.init e :: records) := (hkeeps₁.toc _ trivial).trans hlayout.toc
    rw [hclear, htocPath, ends_focus, TocHandler.ends_appendBlock hsim₁.faults hlog₁]
    set d₂ := (rs ++ [TocRecord.clear (.relative (subTocName m)) 0]).foldl
      (fun (d : Disk) r => d.append (.toc db.tocPath r)) d₁ with hd₂
    have hkeeps₂ : d₁.Keeps (fun _ => True) (fun q => q ≠ db.tocPath) d₂ :=
      .appended (fun hne => hne rfl) fun n hn => db.stamp_tocPath hn
    have hkeeps : d.Keeps (Held writers P w) (fun q => q ≠ db.tocPath) d₂ :=
      (hkeeps₁.mono (fun _ => .inl) fun _ _ => trivial).trans (hkeeps₂.mono (fun _ _ => trivial) fun _ => id)
    have hkept : ∀ p o, P (p, o) ∨ StoreSim.At W₁.fullIndexes (p, o) → ∃ pages, d₂.segment p o = some pages := by
      rintro p o (hx | ⟨κ, idx, hidx, he⟩)
      · obtain ⟨pages, hs⟩ := hshares.kept p o hx
        exact ⟨pages, (hkeeps.segment p o (.inl hx)).trans hs⟩
      · cases he
        exact ⟨_, (hkeeps₂.segment _ _ trivial).trans (hsim₁.index κ idx hidx).writing.segment⟩
    refine ⟨⟨h.facts.close, h.selected, h.archivable, fun x => P x ∨ StoreSim.At W₁.fullIndexes x, e, _, _,
      hrests.step hkeeps (fun _ => .inl) fun _ => .inl, hshares.leave h.facts hkeeps ?_ hkept,
      hlayout.compact h.facts hp hon hkeeps (fun _ => .inl) (hrs.imp ?_) ?_ ?_⟩, ?_, ?_⟩
    · rintro x (hx | hx)
      · exact .inl hx
      · exact .inr (hsim.apart (.inr (hposition x hx)))
    · rintro r seg ⟨-, idx, hidx, hr⟩
      exact ⟨idx.position, .inr ⟨_, idx, hidx, rfl⟩, hr.frame (hkeeps₂.segment _ _ trivial)⟩
    · intro κ
      rw [hunder]
      by_cases hκ : κ ∈ κs
      · rw [if_pos hκ]
      · rw [if_neg hκ, hnone κ hκ]
    · rw [hd₂, TocHandler.toc_appended, if_pos ⟨rfl, by simp⟩, hlog₁]
      rfl
    · rw [show W₁.indexes = W.indexes by rw [hW₁]]
      refine (StoreSim.closable hsim.indexes hp).frame fun k idx hidx => ?_
      obtain ⟨κ, rfl⟩ := hsim.indexes.key k (mem_iff.mpr ⟨idx, hidx⟩)
      exact (hkeeps₂.segment _ _ trivial).trans (hkeeps₁.segment _ _ (.inr ⟨κ, idx, hidx, rfl⟩))
    · refine (StoreSim.closable hsim₁ fun κ => ?_).frame fun k idx _ => hkeeps₂.segment _ _ trivial
      by_cases hκ : κ ∈ κs
      · rw [if_pos hκ]
      · rw [if_neg hκ, hnone κ hκ]

/-- The end of a writer: a flush, the compaction, and nothing more. -/
theorem ends_destroy (h : Simulates db base H writers d) (hW : writers w = some W) (hw : w ∈ H.live) :
    Ends TocCatalogueWriter.destroy (W, d)
      (fun _ u => Simulates db base (H.step (.close w)) (Function.update writers w none) u.2) fun _ _ => False := by
  have hends : Ends (do TocCatalogueWriter.clean; TocCatalogueWriter.close : WriterM Unit) (W, d)
      (fun _ u => Simulates db base (H.step (.close w)) (Function.update writers w none) u.2) fun _ _ => False := by
    rw [TocCatalogueWriter.clean]
    simp only [ends_bind]
    refine (h.ends_flush hW).mono ?_ fun _ _ h => h
    rintro _ ⟨W₁, d₁⟩ h₁
    refine (h₁.ends_compactSubTocIndexes (Function.update_self ..) fun κ => by simp [History.flush]).mono ?_
      fun _ _ h => h
    rintro _ ⟨W₂, d₂⟩ ⟨h₂, hi, hfull⟩
    simp only [TocCatalogueWriter.deselectIndex, ends_modify, TocCatalogueWriter.close]
    refine Ends.mono (Q := fun _ u => u.2 = d₂) (E := fun _ _ => False) ?_ ?_ fun _ _ h => h
    · exact TocCatalogueWriter.ends_closeIndexes hi hfull
    rintro _ ⟨W₃, d₃⟩ rfl
    rw [History.step, if_pos hw]
    rw [Function.update_idem] at h₂
    exact h₂
  unfold Ends at hends ⊢
  simp only [TocCatalogueWriter.destroy, EStateM.run] at hends ⊢
  cases hx : (do TocCatalogueWriter.clean; TocCatalogueWriter.close : WriterM Unit) (W, d) with
  | ok _ t =>
    rw [hx] at hends
    exact hends
  | error _ t =>
    rw [hx] at hends
    exact hends.elim

end Simulates

end Fdb5
