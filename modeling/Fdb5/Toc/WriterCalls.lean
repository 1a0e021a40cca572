import Fdb5.Toc.IndexStore
import Fdb5.Toc.Reader

/-! What each call on a catalogue writer does to its indexes and to the tocs. -/
namespace Fdb5

open Effect IndexStore

/-- A database directory, as its writers are configured. -/
structure Database where
  directory : String
  version : Nat
  schema : Schema
  key : Key
  useSubToc : Bool

def Database.tocPath (db : Database) : PathName := TocHandler.tocPath db.directory

/-- A writer with the fields that it was given since its last flush (`pending`) and since it was
made (`puts`), by index key; `K` are the positions that belong to others. -/
structure WriterSim (db : Database) (K : Position → Prop) (selected : Key)
    (pending puts : StringDict → List Put) (s : TocCatalogueWriter × Disk) : Prop where
  directory : s.1.directory = db.directory
  version : s.1.version = db.version
  useSubToc : s.1.useSubToc = db.useSubToc
  key : s.1.currentIndexKey = selected
  selectable : selected.empty = false → selected.Selectable
  indexes : StoreSim db.directory (fun x => K x ∨ StoreSim.At s.1.fullIndexes x) (fun _ => [])
    pending (s.1.indexes, s.2)
  fullIndexes : StoreSim db.directory (fun x => K x ∨ StoreSim.At s.1.indexes x) (fun _ => [])
    (fun κ => if db.useSubToc then puts κ else []) (s.1.fullIndexes, s.2)
  dirty : s.1.dirty = false → ∀ κ, pending κ = []
  current : ∀ k, s.1.current = some k → k = selected.order ∧ k ∈ s.1.indexes ∧
    selected.empty = false
  currentFull : db.useSubToc = true → s.1.currentFull = s.1.current ∧
    ∀ k, s.1.current = some k → k ∈ s.1.fullIndexes
  schema : s.1.schema = db.schema

namespace WriterSim

variable {db : Database} {K : Position → Prop} {selected key : Key}
  {pending puts : StringDict → List Put} {s : TocCatalogueWriter × Disk}

theorem ends_selectIndex (h : WriterSim db K selected pending puts s) (hk : key.Selectable) :
    Ends (TocCatalogueWriter.selectIndex key) s
      (fun _ u => WriterSim db K key pending puts u ∧ s.2.Keeps K (fun _ => True) u.2 ∧
        u.1.subTocWrite = s.1.subTocWrite ∧ u.1.current = some key.order ∧
        u.1.dirty = s.1.dirty) fun _ _ => False := by
  obtain ⟨w, d⟩ := s
  obtain ⟨hdir, hver, hsub, -, -, hidx, hfull, hdirty, -, -, hschema⟩ := h
  simp only at hdir hver hsub hidx hfull hdirty
  rw [TocCatalogueWriter.selectIndex]
  simp only [ends_bind, ends_modify, ends_map, ends_get, TocCatalogueWriter.onIndexes,
    TocCatalogueWriter.onFullIndexes, ends_focus, hdir, hsub]
  refine (StoreSim.ends_make hk).mono (fun _ u hm => ?_) fun _ _ h => h
  refine (StoreSim.ends_open hk hidx hm).mono ?_ fun _ _ h => h
  rintro _ ⟨indexes, d'⟩ ⟨hidx', hkeeps, hmem⟩
  have hfull' := hidx'.other hkeeps hfull
  rw [ends_ite]
  refine ⟨fun hs => ?_, fun hs => ?_⟩
  · simp only [ends_bind, ends_focus, ends_modify]
    refine (StoreSim.ends_make hk).mono (fun _ u hm => ?_) fun _ _ h => h
    refine (StoreSim.ends_open hk hfull' hm).mono ?_ fun _ _ h => h
    rintro _ ⟨fullIndexes, d''⟩ ⟨hfull'', hkeeps', hmem'⟩
    refine ⟨⟨rfl, hver, rfl, rfl, fun _ => hk, hfull''.other hkeeps' hidx', hfull'', hdirty, ?_,
      fun _ => ⟨rfl, ?_⟩, hschema⟩, (hkeeps.mono (fun _ => .inl) fun _ => id).trans
        (hkeeps'.mono (fun _ => .inl) fun _ => id), trivial, trivial, trivial⟩
    · rintro _ ⟨⟩
      exact ⟨rfl, hmem, hk.nonempty⟩
    · rintro _ ⟨⟩
      exact hmem'
  · simp only [ends_pure, and_true]
    refine ⟨⟨rfl, hver, rfl, rfl, fun _ => hk, hidx', hfull', hdirty, ?_, ?_, hschema⟩,
      hkeeps.mono (fun _ => .inl) fun _ => id⟩
    · rintro _ ⟨⟩
      exact ⟨rfl, hmem, hk.nonempty⟩
    · exact fun he => absurd he hs

theorem ends_deselectIndex (h : WriterSim db K selected pending puts s) :
    Ends TocCatalogueWriter.deselectIndex s (fun _ u => WriterSim db K {} pending puts u ∧ u.2 = s.2 ∧
      u.1.subTocWrite = s.1.subTocWrite) fun _ _ => False := by
  refine ⟨⟨h.directory, h.version, h.useSubToc, rfl, fun he => ?_, h.indexes, h.fullIndexes, h.dirty, fun k hk => ?_,
    fun _ => ⟨rfl, fun k hk => ?_⟩, h.schema⟩, rfl, rfl⟩
  · simp [Key.empty] at he
  · cases hk
  · cases hk

/-- A field put in the index of the key that is selected. -/
theorem ends_put {p : Put} (h : WriterSim db K selected pending puts s)
    (hcurrent : s.1.current = some selected.order) (hp : p.key.Storable) (hdirty : s.1.dirty = true) :
    Ends (TocCatalogueWriter.putCurrent p.key p.location) s
      (fun _ u => WriterSim db K selected
          (Function.update pending selected.keys (pending selected.keys ++ [p]))
          (Function.update puts selected.keys (puts selected.keys ++ [p])) u ∧ u.2 = s.2 ∧
        u.1.subTocWrite = s.1.subTocWrite) fun _ _ => False := by
  obtain ⟨w, d⟩ := s
  obtain ⟨hdir, hver, hsub, hkey, hsel, hidx, hfull, -, hcur, hcurFull, hschema⟩ := h
  simp only at hdir hver hsub hidx hfull hcur hcurFull hcurrent hdirty hkey
  obtain ⟨-, hmem, hne⟩ := hcur _ hcurrent
  rw [TocCatalogueWriter.putCurrent]
  simp only [ends_bind, ends_map, ends_get, hcurrent, TocCatalogueWriter.onIndexes,
    TocCatalogueWriter.onFullIndexes, ends_focus, hsub]
  refine (StoreSim.ends_put hidx hmem hp).mono ?_ fun _ _ h => h
  rintro _ ⟨indexes, d'⟩ ⟨hidx', hd', hmem'⟩
  obtain rfl : d' = d := hd'
  have hfull' := hidx'.other (T := fun _ => True) .refl hfull
  have hcur' : ∀ k, w.current = some k → k = selected.order ∧ k ∈ indexes ∧ selected.empty = false :=
    fun k hk => (hcur k hk).imp id fun h => ⟨(hmem' k).mpr h.1, h.2⟩
  rw [ends_ite]
  refine ⟨fun hs => ?_, fun hs => ?_⟩
  · obtain ⟨hcf, hmemFull⟩ := hcurFull hs
    rw [hcf, hcurrent]
    simp only [ends_focus]
    refine (StoreSim.ends_put hfull' (hmemFull _ hcurrent) hp).mono ?_ fun _ _ h => h
    rintro _ ⟨fullIndexes, d''⟩ ⟨hfull'', hd'', hmem''⟩
    obtain rfl : d'' = d' := hd''
    refine ⟨⟨hdir, hver, rfl, hkey, hsel, hfull''.other (T := fun _ => True) .refl hidx', ?_,
      fun he => absurd he (by simp [hdirty]), by rw [← hcurrent]; exact hcur',
      fun _ => ⟨rfl, fun k hk => (hmem'' k).mpr (hmemFull k (hcurrent.trans hk))⟩, hschema⟩, rfl, trivial⟩
    have hsame : (fun κ => if db.useSubToc then
        Function.update puts selected.keys (puts selected.keys ++ [p]) κ else []) =
        Function.update (fun κ => if db.useSubToc then puts κ else []) selected.keys
          ((if db.useSubToc then puts selected.keys else []) ++ [p]) := by
      funext κ
      by_cases hκ : κ = selected.keys <;> simp [Function.update, hs, hκ]
    rw [hsame]
    exact hfull''
  · simp only [ends_pure, and_true]
    refine ⟨hdir, hver, rfl, hkey, hsel, hidx', ?_, fun he => absurd he (by simp [hdirty]),
      by rw [← hcurrent]; exact hcur', fun he => absurd he hs, hschema⟩
    simpa [hs] using hfull'

theorem setDirty (h : WriterSim db K selected pending puts s) :
    WriterSim db K selected pending puts ({ s.1 with dirty := true }, s.2) :=
  ⟨h.directory, h.version, h.useSubToc, h.key, h.selectable, h.indexes, h.fullIndexes,
    fun hd => absurd hd (by simp), h.current, h.currentFull, h.schema⟩

/-- A field archived where an index key is selected, whether its index is current or not. -/
theorem ends_archive {p : Put} (h : WriterSim db K selected pending puts s)
    (hne : selected.empty = false) (hp : p.key.Storable) :
    Ends (TocCatalogueWriter.archive p.key p.location) s
      (fun _ u => WriterSim db K selected
          (Function.update pending selected.keys (pending selected.keys ++ [p]))
          (Function.update puts selected.keys (puts selected.keys ++ [p])) u ∧
        s.2.Keeps K (fun _ => True) u.2 ∧ u.1.subTocWrite = s.1.subTocWrite)
      fun _ _ => False := by
  obtain ⟨w, d⟩ := s
  have h' := h.setDirty
  have hkey : w.currentIndexKey = selected := h.key
  rw [TocCatalogueWriter.archive]
  simp only [ends_bind, ends_modify, ends_map, ends_get, ends_ite]
  refine ⟨fun hnone => ?_, fun hsome => ?_⟩
  · simp only [ends_ensure, hkey, hne, true_implies, not_true_eq_false, false_implies,
      and_true]
    refine (ends_selectIndex h' (h.selectable hne)).mono ?_ fun _ _ h => h
    rintro _ s ⟨hs, hkeeps, hsub, hcurrent, hdirty⟩
    refine (ends_put hs hcurrent hp hdirty).mono ?_ fun _ _ h => h
    rintro _ u ⟨hu, hd, hsub'⟩
    exact ⟨hu, by rw [hd]; exact hkeeps, hsub'.trans hsub⟩
  · obtain ⟨k, hc⟩ : ∃ k, w.current = some k := Option.ne_none_iff_exists'.mp (by simpa using hsome)
    obtain ⟨rfl, -, -⟩ := h.current k hc
    refine (ends_put h' hc hp rfl).mono ?_ fun _ _ h => h
    rintro _ u ⟨hu, hd, hsub⟩
    exact ⟨hu, by rw [hd]; exact .refl, hsub⟩

/-- Without a key selected an archived field is refused. -/
theorem ends_archive_unselected {k : Key} {location : FieldLocation}
    (h : WriterSim db K selected pending puts s) (he : selected.empty = true) :
    Ends (TocCatalogueWriter.archive k location) s (fun _ _ => False)
      (fun _ u => WriterSim db K selected pending puts u ∧ u.2 = s.2 ∧
        u.1.subTocWrite = s.1.subTocWrite) := by
  obtain ⟨w, d⟩ := s
  have hkey : w.currentIndexKey = selected := h.key
  have hcurrent : w.current = none := by
    cases hc : w.current with
    | none => rfl
    | some k =>
      have := (h.current k hc).2.2
      simp [he] at this
  rw [TocCatalogueWriter.archive]
  simp only [ends_bind, ends_modify, ends_map, ends_get, hcurrent, Option.isNone_none, if_true,
    ends_ensure, hkey, he, Bool.true_eq_false, false_implies, not_false_eq_true, true_implies,
    true_and]
  exact ⟨by simpa [hcurrent, hkey] using h.setDirty, trivial⟩

end WriterSim

namespace TocHandler

variable {d : Disk} {toc : PathName} {log : List TocRecord} {Q : Unit → Disk → Prop}
  {E : Failure → Disk → Prop}

theorem ends_openForAppend (hf : d.faults = []) (hlog : d.toc toc = some log) :
    Ends (openForAppend toc) d Q E ↔ Q () d := by
  rw [openForAppend]
  simp only [ends_bind, Disk.ends_syscall hf, ends_get, Disk.pathExists_of_toc hlog, if_true,
    ends_pure]

theorem ends_append {r : TocRecord} (hf : d.faults = []) (hlog : d.toc toc = some log) :
    Ends (append toc r) d Q E ↔ Q () (d.append (.toc toc r)) := by
  rw [append, ends_bind, ends_openForAppend hf hlog, Disk.ends_write hf]

theorem ends_appendIndex {version : Nat} {idx : TocIndex BTreeHandle} {r : TocRecord}
    (hf : d.faults = []) (hlog : d.toc toc = some log)
    (hr : buildIndexRecord version idx = .ok r) :
    Ends (appendIndex toc version idx) d Q E ↔ Q () (d.append (.toc toc r)) := by
  rw [appendIndex, ends_bind, ends_openForAppend hf hlog]
  simp only [ends_bind, ends_lift, hr, Disk.ends_write hf]
  exact ⟨fun h => h.1 r rfl, fun h => ⟨fun _ he => by cases he; exact h, fun _ he => by cases he⟩⟩

theorem ends_writeInitRecord_new {schema : Schema} {key key' : Key} (hf : d.faults = [])
    (hnone : d.toc toc = none) (hkey : key.encode = .ok key') :
    Ends (writeInitRecord toc true schema key) d Q E ↔ Q () (d.append (.toc toc (.init key'))) := by
  rw [writeInitRecord]
  simp only [ends_bind, Disk.ends_syscall hf, ends_get, hnone, if_true, ends_lift, hkey,
    Disk.ends_write hf]
  exact ⟨fun h => h.1 key' rfl, fun h => ⟨fun _ he => by cases he; exact h, fun _ he => by cases he⟩⟩

theorem toc_append_same {q : PathName} {r : TocRecord} (hlog : d.toc toc = some log) :
    (d.append (.toc toc r)).toc q = if q = toc then some (log ++ [r]) else d.toc q := by
  rw [Disk.toc_append, Write.onToc]
  by_cases hq : q = toc
  · simp [hq, hlog]
  · rw [if_neg hq, if_neg fun h => hq h.symm]

theorem toc_appended {p : PathName} {records : List TocRecord} :
    (records.foldl (fun d r => d.append (.toc toc r)) d).toc p =
      if p = toc ∧ records ≠ [] then some ((d.toc toc).getD [] ++ records) else d.toc p := by
  induction records generalizing d with
  | nil => simp
  | cons r records ih =>
    rw [List.foldl_cons, ih]
    by_cases hp : p = toc
    · subst hp
      cases records <;> simp [Write.onToc]
    · have : toc ≠ p := fun h => hp h.symm
      simp [hp, this, Write.onToc]

theorem pathExists_appended {p : PathName} {records : List TocRecord} (hp : d.pathExists p = true) :
    (records.foldl (fun d r => d.append (.toc toc r)) d).pathExists p = true := by
  induction records generalizing d with
  | nil => exact hp
  | cons r records ih =>
    refine ih ?_
    simp [Write.onExists, Write.path, hp]

theorem faults_appended {records : List TocRecord} :
    (records.foldl (fun d r => d.append (.toc toc r)) d).faults = d.faults := by
  induction records generalizing d with
  | nil => rfl
  | cons r records ih => rw [List.foldl_cons, ih, Disk.faults_append]

end TocHandler

/-- What a record appended by a writer changes in the tocs: the master toc, or the writer's sub-toc,
which the first record makes. -/
inductive Published (db : Database) (r : TocRecord) (s u : TocCatalogueWriter × Disk) : Prop
  | master (log : List TocRecord) (off : db.useSubToc = false)
      (same : u.1.subTocWrite = s.1.subTocWrite) (before : s.2.toc db.tocPath = some log)
      (after : ∀ q, u.2.toc q = if q = db.tocPath then some (log ++ [r]) else s.2.toc q)
  | subToc (p : PathName) (log : List TocRecord) (on : db.useSubToc = true)
      (same : s.1.subTocWrite = some p ∧ u.1.subTocWrite = some p) (before : s.2.toc p = some log)
      (after : ∀ q, u.2.toc q = if q = p then some (log ++ [r]) else s.2.toc q)
  | newSubToc (n : Nat) (e e' : Key) (log : List TocRecord) (on : db.useSubToc = true)
      (unmade : s.1.subTocWrite = none)
      (made : u.1.subTocWrite = some ⟨db.directory, ⟨"toc", some n, ""⟩⟩) (lt : n < u.2.stamp)
      (fresh : s.2.toc ⟨db.directory, ⟨"toc", some n, ""⟩⟩ = none)
      (before : s.2.toc db.tocPath = some (.init e :: log)) (keys : e'.keys = e.keys)
      (after : ∀ q, u.2.toc q =
        if q = ⟨db.directory, ⟨"toc", some n, ""⟩⟩ then some [.init e', r]
        else if q = db.tocPath then some (.init e :: log ++ [.subToc (.relative ⟨"toc", some n, ""⟩)])
        else s.2.toc q)

/-- The tocs that a writer appends to. -/
structure TocsOpen (db : Database) (s : TocCatalogueWriter × Disk) : Prop where
  master : ∃ e log, s.2.toc db.tocPath = some (.init e :: log) ∧ e.canonical = true
  subToc : ∀ p, s.1.subTocWrite = some p → (∃ log, s.2.toc p = some log) ∧
    ∃ n, p = ⟨db.directory, ⟨"toc", some n, ""⟩⟩ ∧ n < s.2.stamp

theorem Database.stamp_tocPath (db : Database) {n m : Nat} (h : db.tocPath.baseName.stamp = some n) :
    n < m := by cases h

namespace TocsOpen

variable {db : Database} {s : TocCatalogueWriter × Disk} {idx : TocIndex BTreeHandle} {r : TocRecord}

theorem ends_writeIndexRecord (h : TocsOpen db s) (hdir : s.1.directory = db.directory)
    (hver : s.1.version = db.version) (hsub : s.1.useSubToc = db.useSubToc)
    (hf : s.2.faults = []) (hst : s.2.Stamped)
    (hr : TocHandler.buildIndexRecord db.version idx = .ok r) :
    Ends (TocCatalogueWriter.writeIndexRecord idx) s
      (fun _ u => Published db r s u ∧ s.2.Keeps (fun _ => True) (fun _ => False) u.2 ∧
        u.1 = { s.1 with subTocWrite := u.1.subTocWrite }) fun _ _ => False := by
  obtain ⟨w, d⟩ := s
  obtain ⟨e, log, hlog, hcanonical⟩ := h.master
  obtain ⟨e', he, hkeys, -⟩ := Key.encode_canonical hcanonical
  simp only at hdir hver hsub hf hst hlog
  have htoc : w.tocPath = db.tocPath := by rw [TocCatalogueWriter.tocPath, hdir]; rfl
  rw [TocCatalogueWriter.writeIndexRecord]
  simp only [ends_bind, ends_map, ends_get, hsub, hver, htoc]
  rw [ends_ite]
  refine ⟨fun hon => ?_, fun hoff => ?_⟩
  · rw [TocCatalogueWriter.openSubToc]
    simp only [ends_bind, ends_map, ends_get]
    cases hw : w.subTocWrite with
    | some p =>
      obtain ⟨⟨sublog, hp⟩, n, rfl, hn⟩ := h.subToc p hw
      simp only [ends_pure, ends_focus, TocHandler.ends_appendIndex hf hp hr]
      exact ⟨.subToc _ sublog hon ⟨hw, hw⟩ hp fun q => TocHandler.toc_append_same hp,
        .append (by simp) (by simpa using hn), by cases w; simp_all⟩
    | none =>
      set p : PathName := ⟨db.directory, ⟨"toc", some d.stamp, ""⟩⟩ with hp
      have hfresh : d.toc p = none := (show d.segment p 0 = none ∧ _ from hst.none rfl).2
      have hne : db.tocPath ≠ p := fun h => by rw [h] at hlog; rw [hfresh] at hlog; cases hlog
      simp only [ends_bind, ends_focus, Disk.unique, ends_get, ends_set, ends_pure, ends_modify,
        hdir, htoc, ← hp]
      set d₀ : Disk := { d with stamp := d.stamp + 1 } with hd₀
      have hf₀ : d₀.faults = [] := hf
      have hlog₀ : d₀.toc db.tocPath = some (.init e :: log) := hlog
      have hfresh₀ : d₀.toc p = none := hfresh
      have hkey : TocHandler.databaseKey ((d₀.toc db.tocPath).getD []) = .ok e := by
        rw [hlog₀]
        rfl
      rw [ends_lift]
      refine ⟨fun key hkey' => ?_, fun _ he => by rw [hkey] at he; cases he⟩
      obtain rfl : e = key := by rwa [hkey, Except.ok.injEq] at hkey'
      simp only [TocHandler.ends_writeInitRecord_new hf₀ hfresh₀ he]
      set d₁ := d₀.append (.toc p (.init e')) with hd₁
      have hlog₁ : d₁.toc db.tocPath = some (.init e :: log) := by simp [hd₁, Write.onToc, hne.symm, hlog₀]
      have hp₁ : d₁.toc p = some [.init e'] := by simp [hd₁, Write.onToc, hfresh₀]
      rw [TocHandler.ends_append (d := d₁) hf hlog₁]
      set d₂ := d₁.append (.toc db.tocPath (.subToc (.of db.directory p))) with hd₂
      have hp₂ : d₂.toc p = some [.init e'] := by
        rw [hd₂, TocHandler.toc_append_same hlog₁, if_neg hne.symm, hp₁]
      rw [TocHandler.ends_appendIndex (d := d₂) hf hp₂ hr]
      refine ⟨.newSubToc d.stamp e e' log hon hw rfl (Nat.lt_succ_self _) hfresh hlog hkeys fun q => ?_,
        ?_, by cases w; simp_all⟩
      · rw [TocHandler.toc_append_same hp₂, ← hp]
        by_cases hq : q = p
        · simp [hq]
        · have hother : d₁.toc q = d.toc q := by
            rw [hd₁, Disk.toc_append, Write.onToc, if_neg fun h => hq h.symm]
            rfl
          rw [if_neg hq, if_neg hq, hd₂, TocHandler.toc_append_same hlog₁, hother, StoredPath.of,
            if_pos rfl]
      · have hstamp : ∀ n, p.baseName.stamp = some n → n < d₀.stamp := by
          rintro n ⟨⟩
          exact Nat.lt_succ_self _
        exact .trans .unique (.trans (.append (by simp) hstamp) (.trans
          (.append (by simp) fun n hn => db.stamp_tocPath hn) (.append (by simp) hstamp)))
  · simp only [ends_bind, ends_pure, ends_focus]
    rw [TocHandler.ends_appendIndex hf hlog hr]
    exact ⟨.master _ (by simpa using hoff) rfl hlog fun q => TocHandler.toc_append_same hlog,
      .append (by simp) fun n hn => db.stamp_tocPath hn, by cases w; simp_all⟩

end TocsOpen

/-- The record of the directory under which a reader finds the segment. -/
def IndexRecord (db : Database) (d : Disk) (seg : Segment) (x : Position) (r : TocRecord) : Prop :=
  ∃ base offset e idx, r = .index base offset e ∧ x = (⟨db.directory, base⟩, offset) ∧
    TocIndex.decode db.version db.directory ⟨db.directory, base⟩ offset e = .ok idx ∧
    idx.Holds d seg ∧ base.extension = ".index"

theorem IndexRecord.frame {db : Database} {d d' : Disk} {seg : Segment} {x : Position} {r : TocRecord}
    (h : IndexRecord db d seg x r) (hs : d'.segment x.1 x.2 = d.segment x.1 x.2) :
    IndexRecord db d' seg x r := by
  obtain ⟨base, offset, e, idx, hr, rfl, hdecode, hholds, hext⟩ := h
  refine ⟨base, offset, e, idx, hr, rfl, hdecode, ?_, hext⟩
  obtain ⟨uris, hpages, huris⟩ := hholds.pages
  obtain rfl := TocIndex.decode_ok hdecode
  exact ⟨hholds.key, hholds.readOnly, hholds.closed, hholds.axes, hholds.storable, uris, hs.trans hpages, huris⟩

/-- What is known of a field when it is archived. -/
structure Put.Archivable (version : Nat) (p : Put) : Prop where
  storable : p.key.Storable
  keyword : 3 ≤ version → ∃ keyword, keyword ∈ p.key.keys

/-- The record made of a flushed index leads to its segment. -/
theorem TocIndex.OpenFor.record {db : Database} {idx : TocIndex BTreeHandle} {κ : StringDict}
    {d : Disk} {puts : List Put} (h : idx.OpenFor db.directory κ d puts []) (hne : puts ≠ [])
    (hputs : ∀ p ∈ puts, p.Archivable db.version) :
    ∃ r, TocHandler.buildIndexRecord db.version idx = .ok r ∧
      IndexRecord db d ⟨κ, puts⟩ idx.position r := by
  obtain ⟨k, hk, hkeys⟩ := h.selectable.canonical
  have hw := h.writing
  have haxes := hw.axes
  have hknown := hw.known
  rw [List.append_nil] at haxes hknown
  have he : idx.encode db.version = _ := encode_ok h.selectable.encodable hk
  have hpath : (⟨db.directory, idx.path.baseName⟩ : PathName) = idx.path := by rw [← h.dirName]
  refine ⟨_, by rw [TocHandler.buildIndexRecord, he]; rfl, idx.path.baseName, idx.offset, _, _, rfl,
    by rw [hpath]; rfl, decode_of ?_, ?_, h.extension⟩
  · intro hv
    refine ⟨?_, ?_, by simp [h.type]⟩
    · obtain ⟨p, hp⟩ := List.exists_mem_of_ne_nil puts hne
      obtain ⟨keyword, hkeyword⟩ := (hputs p hp).keyword hv
      have hmem := (haxes.keyword keyword).mpr ⟨p, hp, hkeyword⟩
      refine Std.ExtTreeMap.isEmpty_eq_false_iff.mpr fun h => ?_
      rw [show idx.axes.axis = ∅ from h] at hmem
      simp at hmem
    · rw [Key.empty, hkeys]
      exact h.selectable.nonempty
  · refine ⟨hkeys.trans h.keys, rfl, rfl, haxes, fun p hp => (hputs p hp).storable, idx.files.uris, ?_, ?_, hknown⟩
    · rw [hpath]
      exact hw.segment
    · rw [← UriStore.decode_encode, hw.directory, h.dirName]
      rfl

namespace Published

variable {db : Database} {r : TocRecord} {s s' u u' : TocCatalogueWriter × Disk}

theorem congr (h : Published db r s u) (hs : s'.1.subTocWrite = s.1.subTocWrite)
    (hst : ∀ q, s'.2.toc q = s.2.toc q) (hu : u'.1.subTocWrite = u.1.subTocWrite)
    (hut : ∀ q, u'.2.toc q = u.2.toc q) (hlt : u.2.stamp ≤ u'.2.stamp) : Published db r s' u' := by
  cases h with
  | master log off same before after =>
    exact .master log off (by rw [hu, hs, same]) (by rw [hst, before]) fun q => by rw [hut, hst, after]
  | subToc p log on same before after =>
    exact .subToc p log on ⟨by rw [hs, same.1], by rw [hu, same.2]⟩ (by rw [hst, before])
      fun q => by rw [hut, hst, after]
  | newSubToc n e e' log on unmade made lt fresh before keys after =>
    exact .newSubToc n e e' log on (by rw [hs, unmade]) (by rw [hu, made]) (Nat.lt_of_lt_of_le lt hlt)
      (by rw [hst, fresh]) (by rw [hst, before]) keys fun q => by rw [hut, hst, after]

theorem tocsOpen (h : Published db r s u) (ht : TocsOpen db s) (hlt : s.2.stamp ≤ u.2.stamp) :
    TocsOpen db u := by
  obtain ⟨e, log, hlog, hcanonical⟩ := ht.master
  have hne : ∀ n, db.tocPath ≠ ⟨db.directory, ⟨"toc", some n, ""⟩⟩ := by
    rintro n ⟨⟩
  cases h with
  | master log' off same before after =>
    obtain rfl : .init e :: log = log' := by rwa [before, Option.some.injEq, eq_comm] at hlog
    refine ⟨⟨e, log ++ [r], by rw [after, if_pos rfl]; rfl, hcanonical⟩, fun p hp => ?_⟩
    obtain ⟨⟨log', hp'⟩, n, rfl, hn⟩ := ht.subToc p (same ▸ hp)
    exact ⟨⟨log', by rw [after, if_neg (hne n).symm, hp']⟩, n, rfl, Nat.lt_of_lt_of_le hn hlt⟩
  | subToc p log' on same before after =>
    obtain ⟨-, n, rfl, hn⟩ := ht.subToc p same.1
    refine ⟨⟨e, log, by rw [after, if_neg (hne n), hlog], hcanonical⟩, fun p hp => ?_⟩
    obtain rfl := Option.some.inj (same.2.symm.trans hp)
    exact ⟨⟨_, by rw [after, if_pos rfl]⟩, n, rfl, Nat.lt_of_lt_of_le hn hlt⟩
  | newSubToc n e₁ e' log' on unmade made lt fresh before keys after =>
    obtain ⟨rfl, rfl⟩ : e = e₁ ∧ log = log' := by simpa [hlog] using before
    refine ⟨⟨e, _, by rw [after, if_neg (hne n), if_pos rfl]; rfl, hcanonical⟩, fun p hp => ?_⟩
    obtain rfl := Option.some.inj (made.symm.trans hp)
    exact ⟨⟨_, by rw [after, if_pos rfl]⟩, n, rfl, lt⟩

end Published

theorem TocsOpen.keeps {db : Database} {s u : TocCatalogueWriter × Disk} {K : Position → Prop}
    (h : TocsOpen db s) (hk : s.2.Keeps K (fun _ => True) u.2)
    (hs : u.1.subTocWrite = s.1.subTocWrite) : TocsOpen db u := by
  obtain ⟨e, log, hlog, hcanonical⟩ := h.master
  refine ⟨⟨e, log, by rw [hk.toc _ trivial, hlog], hcanonical⟩, fun p hp => ?_⟩
  obtain ⟨⟨log', hp'⟩, n, hn, hlt⟩ := h.subToc p (hs ▸ hp)
  exact ⟨⟨log', by rw [hk.toc _ trivial, hp']⟩, n, hn, Nat.lt_of_lt_of_le hlt hk.stamp⟩

namespace WriterSim

variable {db : Database} {K : Position → Prop} {selected : Key}
  {pending puts : StringDict → List Put} {s : TocCatalogueWriter × Disk} {κ : StringDict}

/-- What one turn of `flushIndexes` makes: the segment gets a record, and a new one is begun. -/
structure Flushed (db : Database) (K : Position → Prop) (selected : Key)
    (pending puts : StringDict → List Put) (κ : StringDict) (x : Position) (r : TocRecord)
    (s u : TocCatalogueWriter × Disk) : Prop where
  sim : WriterSim db (fun y => K y ∨ y = x) selected (Function.update pending κ []) puts u
  tocs : TocsOpen db u
  published : Published db r s u
  keeps : s.2.Keeps K (fun _ => False) u.2
  record : IndexRecord db u.2 ⟨κ, pending κ⟩ x r
  apart : ¬ K x

theorem ends_flushIndex (h : WriterSim db K selected pending puts s) (ht : TocsOpen db s)
    (hp : ∀ p ∈ pending κ, p.Archivable db.version) :
    Ends (TocCatalogueWriter.flushIndex (StringDict.order κ)) s
      (fun _ u => pending κ = [] ∧ u = s ∨
        pending κ ≠ [] ∧ ∃ x r, Flushed db K selected pending puts κ x r s u)
      fun _ _ => False := by
  obtain ⟨w, d⟩ := s
  rw [TocCatalogueWriter.flushIndex]
  simp only [ends_bind, ends_get]
  cases hidx : w.indexes[StringDict.order κ]? with
  | none =>
    refine .inl ⟨?_, rfl⟩
    by_contra hne
    obtain ⟨idx, hidx'⟩ := mem_iff.mp (h.indexes.stored κ (by simpa using hne))
    rw [hidx] at hidx'
    cases hidx'
  | some idx =>
    have hopen := h.indexes.index κ idx hidx
    rw [ends_ite]
    refine ⟨fun hdirty => ?_, fun hdirty => .inl ⟨?_, rfl⟩⟩
    · have hne : pending κ ≠ [] := by
        have := hopen.dirty.symm.trans hdirty
        rintro he
        simp [he] at this
      simp only [ends_bind, TocCatalogueWriter.onIndexes, ends_focus, ends_get]
      refine (h.indexes.ends_flush hidx hdirty).mono ?_ fun _ _ h => h
      rintro _ ⟨indexes₁, d₁⟩ ⟨hidx₁, hkeeps₁, idx₁, hstore, hpos⟩
      have hget₁ : indexes₁[StringDict.order κ]? = some idx₁ := by
        rw [show indexes₁ = _ from hstore]
        exact Std.ExtTreeMap.getElem?_insert_self
      have hopen₁ := hidx₁.index κ idx₁ hget₁
      simp only [Function.update_self, List.nil_append] at hopen₁
      obtain ⟨r, hr, hrec⟩ := hopen₁.record hne hp
      simp only [hget₁, ends_bind, ends_focus]
      have ht₁ : TocsOpen db ({ w with indexes := indexes₁ }, d₁) := ht.keeps hkeeps₁ rfl
      refine (ht₁.ends_writeIndexRecord h.directory h.version h.useSubToc hidx₁.faults hidx₁.stamped
        hr).mono ?_ fun _ _ h => h
      rintro _ ⟨w₂, d₂⟩ ⟨hpub, hkeeps₂, hw₂⟩
      obtain ⟨subToc, rfl⟩ : ∃ subToc, w₂ = { w with indexes := indexes₁, subTocWrite := subToc } :=
        ⟨_, hw₂⟩
      have hidx₂ : StoreSim db.directory (fun x => K x ∨ StoreSim.At w.fullIndexes x) _ _ (_, _) :=
        hidx₁.frame hkeeps₂
        (fun _ _ _ => trivial) (fun p o hx => by
          obtain ⟨pages, hp⟩ := hidx₁.kept p o hx
          exact ⟨pages, (hkeeps₂.segment p o trivial).trans hp⟩) hidx₁.apart
      refine (hidx₂.ends_reopen hget₁ (by simp)).mono ?_ fun _ _ h => h
      rintro _ ⟨indexes₃, d₃⟩ ⟨hidx₃, hkeeps₃, hmem₃⟩
      rw [List.nil_append, Function.update_idem, Function.update_eq_self_iff.mpr rfl] at hidx₃
      have hmem : ∀ k ∈ w.indexes, k ∈ indexes₃ := by
        intro k hk
        rw [hmem₃, show indexes₁ = _ from hstore, Std.ExtTreeMap.mem_insert]
        exact .inr hk
      have hkeeps : d.Keeps (fun x => K x ∨ StoreSim.At w.fullIndexes x) (fun _ => False) d₃ :=
        (hkeeps₁.mono (fun _ => .inl) fun _ => False.elim).trans
          ((hkeeps₂.mono (fun _ _ => trivial) fun _ => id).trans
            (hkeeps₃.mono (fun _ => .inl) fun _ => False.elim))
      have hfull : StoreSim db.directory
          (fun y => (K y ∨ y = idx₁.position) ∨ StoreSim.At indexes₃ y) _ _ (_, _) :=
        h.fullIndexes.frame hkeeps
        (fun κ' i hi => .inr ⟨κ', i, hi, rfl⟩) ?_ ?_
      · refine .inr ⟨hne, idx₁.position, r, ?_, ?_, ?_, hkeeps.mono (fun _ => .inl) fun _ => id, ?_,
          hpos ▸ fun hx => h.indexes.apart κ idx hidx (.inl hx)⟩
        · refine ⟨h.directory, h.version, h.useSubToc, h.key, h.selectable, ?_, hfull, ?_,
            fun k hk => ?_, h.currentFull, h.schema⟩
          · convert hidx₃ using 2
            exact or_right_comm
          · intro hd κ'
            have := h.dirty hd κ'
            by_cases he : κ' = κ <;> simp [Function.update, he, this]
          · obtain ⟨hk₁, hk₂, hk₃⟩ := h.current k hk
            exact ⟨hk₁, hmem k hk₂, hk₃⟩
        · exact (hpub.tocsOpen ht₁ hkeeps₂.stamp).keeps hkeeps₃ rfl
        · exact hpub.congr rfl (fun q => (hkeeps₁.toc q trivial).symm) rfl
            (fun q => hkeeps₃.toc q trivial) hkeeps₃.stamp
        · exact hrec.frame ((hkeeps₃.segment _ _ (.inr rfl)).trans (hkeeps₂.segment _ _ trivial))
      · rintro p o (hx | ⟨κ', i, hi, he⟩)
        · exact hidx₃.kept p o (hx.imp .inl id)
        · cases he
          exact ⟨_, (hidx₃.index κ' i hi).writing.segment⟩
      · rintro κ' i hi ((hx | hx) | ⟨κ₂, i₂, hi₂, he⟩)
        · exact h.fullIndexes.apart κ' i hi (.inl hx)
        · exact h.fullIndexes.apart κ' i hi (.inr ⟨κ, idx, hidx, hx.trans hpos⟩)
        · exact hidx₃.apart κ₂ i₂ hi₂ (.inl (.inr ⟨κ', i, hi, he.symm⟩))
    · have := hopen.dirty
      simpa [hdirty] using this

end WriterSim

end Fdb5
