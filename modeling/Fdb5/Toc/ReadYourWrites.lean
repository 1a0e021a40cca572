import Fdb5.Toc.Compaction

/-! What a reader finds after any calls on the writers of a database. -/
namespace Fdb5

open Effect LastWins TocHandler

section Run

variable {db : Database} {base : Position → Option Pages} {H : History} {d d₀ : Disk} {s : WriterSystem} {K : Position → Prop} {c : Call}
  {calls : List Call} {w : Nat} {key : Key} {W : TocCatalogueWriter}
  {writers : Nat → Option TocCatalogueWriter}

theorem StoreSim.empty {directory : String} (hf : d.faults = []) (hs : d.Stamped)
    (hkept : ∀ p o, K (p, o) → ∃ pages, d.segment p o = some pages) :
    StoreSim directory K (fun _ => []) (fun _ => []) (∅, d) := by
  refine ⟨hf, hs, hkept, ?_, ?_, ?_, ?_, ?_⟩ <;> simp

/-- A writer that was just made. -/
def Database.madeWriter (db : Database) : TocCatalogueWriter :=
  { directory := db.directory, version := db.version, schema := db.schema, useSubToc := db.useSubToc }

theorem WriterSim.made (hf : d.faults = []) (hs : d.Stamped)
    (hkept : ∀ p o, K (p, o) → ∃ pages, d.segment p o = some pages) :
    WriterSim db K {} (fun _ => []) (fun _ => []) (db.madeWriter, d) := by
  have hempty : ∀ x, ¬ StoreSim.At ∅ x := by
    rintro x ⟨κ, idx, hidx, -⟩
    simp at hidx
  have hkept' : ∀ p o, K (p, o) ∨ StoreSim.At ∅ (p, o) → ∃ pages, d.segment p o = some pages :=
    fun p o hx => hkept p o (hx.resolve_right (hempty _))
  refine ⟨rfl, rfl, rfl, rfl, fun h => ?_, .empty hf hs hkept', ?_, fun _ _ => rfl, fun k hk => ?_,
    fun _ => ⟨rfl, fun k hk => ?_⟩, rfl⟩
  · simp [Key.empty] at h
  · simp only [ite_self]
    exact .empty hf hs hkept'
  · cases hk
  · cases hk

theorem Key.canonical_of_encode {k e : Key} (h : k.encode = .ok e) : e.canonical = true := by
  unfold encode at h
  split at h
  · simp only [except_bind_ok, except_pure_ok] at h
    obtain ⟨_, _, values, -, rfl⟩ := h
    rfl
  · simp only [except_bind_ok, except_pure_ok] at h
    obtain ⟨_, -, _, _, values, -, rfl⟩ := h
    rfl

/-- The first writer makes the toc and the copy of the schema. -/
theorem ends_build_new (hd : db.Absent d) (hkey : key.Addresses db.key.keys) :
    Ends (TocCatalogueWriter.build db.directory db.version db.schema db.useSubToc key) d
      (fun W d' => W = db.madeWriter ∧ ∃ e, e.canonical = true ∧ e.keys = db.key.keys ∧
        d' = (d.append (.schema (schemaPath db.directory) db.schema)).append (.toc db.tocPath (.init e)))
      fun _ _ => False := by
  obtain ⟨e, he, hkeys⟩ := hkey.canonical
  have hnone : d.toc db.tocPath = none := by
    cases htoc : d.toc db.tocPath with
    | none => rfl
    | some log =>
      have := Disk.pathExists_of_toc htoc
      rw [hd.absent] at this
      cases this
  have hf : (d.append (.schema (schemaPath db.directory) db.schema)).faults = [] := hd.faults
  have hschema : ((d.append (.schema (schemaPath db.directory) db.schema)).append
      (.toc db.tocPath (.init e))).schema (schemaPath db.directory) = some db.schema := by
    simp [Write.onSchema]
  rw [TocCatalogueWriter.build, writeInitRecord]
  simp only [ends_bind, Disk.ends_syscall hd.faults, ends_get,
    show d.toc (TocHandler.tocPath db.directory) = none from hnone, Bool.false_eq_true, if_false,
    Disk.ends_write hd.faults, ends_lift, he]
  refine ⟨fun _ h => ?_, fun _ h => by cases h⟩
  cases h
  have hpath : schemaPath (TocHandler.tocPath db.directory).dirName = schemaPath db.directory := rfl
  rw [hpath, show TocHandler.tocPath db.directory = db.tocPath from rfl, Disk.ends_write hf, hschema]
  exact ⟨rfl, e, Key.canonical_of_encode he, hkeys, rfl⟩

/-- A later one finds both. -/
theorem ends_build_again {e : Key} {records : List TocRecord} (hf : d.faults = [])
    (htoc : d.toc db.tocPath = some (.init e :: records)) (hkey : key.keys = e.keys)
    (hschema : d.schema (schemaPath db.directory) = some db.schema) :
    Ends (TocCatalogueWriter.build db.directory db.version db.schema db.useSubToc key) d
      (fun W d' => W = db.madeWriter ∧ d' = d) fun _ _ => False := by
  rw [TocCatalogueWriter.build, writeInitRecord]
  simp only [ends_bind, Disk.ends_syscall hf, ends_get, show d.toc (TocHandler.tocPath db.directory) = _ from htoc,
    ends_ensure, hkey, true_implies, not_true_eq_false, false_implies, and_true, hschema]
  exact ⟨rfl, rfl⟩

/-- A writer joins those that are open. -/
theorem Simulates.join (h : Simulates db base H writers d) (hw : w ∉ H.built) :
    Simulates db base (H.step (.build w key)) (Function.update writers w (some db.madeWriter)) d := by
  have hfacts : History.Facts (H.step (.build w key)) := h.facts.build hw
  obtain ⟨P, e, records, items, hrests, hshares, hlayout⟩ := h.layout
  have hlive : w ∉ H.live := fun hl => hw (h.facts.built w hl)
  rw [History.step, if_neg hw] at hfacts ⊢
  have hno : ∀ base segs, .subToc w base segs ∉ items := by
    intro base segs hi
    by_cases hon : db.useSubToc = true
    · have hshows := hlayout.shows
      rw [if_pos hon] at hshows
      exact hlive (hshows.own w base segs hi).1
    · exact hlayout.plain (by simpa using hon) w base segs hi
  refine ⟨hfacts, fun v hv => h.selected v fun hm => hv (.tail _ hm), h.archivable, P, e, records, items, hrests, ?_, ?_⟩
  · refine hshares.update (T := fun _ => True) .refl (fun W hW => ?_) (fun x => .inl) hshares.kept (fun v => ?_)
      fun _ _ => ⟨rfl, rfl, rfl⟩
    · cases hW
      have hpending : H.pending w = fun _ => [] := funext fun κ => (h.facts.unbuilt w hw κ).2.1
      have hputs : H.puts w = fun _ => [] := funext fun κ => (h.facts.unbuilt w hw κ).1
      dsimp only
      rw [h.selected w hw, hpending, hputs]
      refine .made hshares.faults hshares.stamped ?_
      rintro p o (hx | ⟨v, V, -, hV, hx⟩)
      · exact hshares.kept p o hx
      · exact (hshares.writer v V hV).opened hx
    · by_cases hv : v = w <;> simp [hv]
  · refine ⟨hlayout.toc, hlayout.canonical, hlayout.key, hlayout.schema, hlayout.records, fun v V p hV => ?_,
      hlayout.distinct, hlayout.masked, hlayout.clear, hlayout.plain, ?_⟩
    · by_cases hv : v = w
      · subst hv
        rw [Function.update_self, Option.some.injEq] at hV
        subst hV
        constructor
        · rintro ⟨⟩
        · rintro ⟨base, segs, -, hi⟩
          exact absurd hi (hno base segs)
      · rw [Function.update_of_ne hv] at hV
        exact hlayout.opened v V p hV
    · have hshows := hlayout.shows
      split at hshows
      · rename_i hs
        rw [if_pos hs]
        refine hshows.mono rfl (fun _ ha => ha) (fun u v hm => hm.imp (List.mem_append_left _) (List.mem_append_left _))
          (fun v hv => .tail _ hv) fun v hv hold κ => ?_
        obtain rfl : v = w := (List.mem_cons.mp hv).resolve_right hold
        exact (h.facts.unbuilt v hw κ).2.2
      · rename_i hs
        rw [if_neg hs]
        exact hshows

/-- The system follows the history: before the first writer the disk is as it was. -/
structure Tracks (db : Database) (base : Position → Option Pages) (d₀ : Disk) (H : History) (s : WriterSystem) :
    Prop where
  built : s.built = H.built
  state : (H = {} ∧ s.writers = (fun _ => none) ∧ s.disk = d₀ ∧ ∀ x, base x = none) ∨ Simulates db base H s.writers s.disk

theorem Tracks.build (h : Tracks db base d₀ H s) (hd : db.Absent d₀) (hkey : key.Addresses db.key.keys) :
    Tracks db base d₀ (H.step (.build w key)) (db.step s (.build w key)) := by
  by_cases hw : w ∈ H.built
  · rw [Database.step, History.step, h.built, if_pos hw, if_pos hw]
    exact h
  have hbuilt : (H.step (.build w key)).built = w :: H.built := by rw [History.step, if_neg hw]
  rw [Database.step, h.built, if_neg hw]
  rcases h.state with ⟨rfl, hwriters, hdisk, hbase⟩ | hsim
  · rw [hdisk]
    obtain ⟨W, d', hrun, rfl, e, hcanonical, hkeys, rfl⟩ := (ends_build_new hd hkey).returns
    rw [hrun, hwriters]
    refine ⟨hbuilt.symm, .inr (Simulates.join ⟨History.facts_empty, fun _ _ => rfl, by simp, fun _ => False, e, [], [],
      fun x pages hx => by simp [hbase] at hx, ⟨by simp, by simp, hd.faults, ?_, by simp⟩, ⟨?_, hcanonical, hkeys, ?_, .nil, by simp, by simp, by simp, by simp,
        by simp, ?_⟩⟩ hw)⟩
    · exact (hd.stamped.append fun n hn => by cases hn).append fun n hn => by cases hn
    · have hnone : d₀.toc db.tocPath = none := by
        cases htoc : d₀.toc db.tocPath with
        | none => rfl
        | some log =>
          have := Disk.pathExists_of_toc htoc
          rw [hd.absent] at this
          cases this
      simp [Write.onToc, hnone]
    · simp [Write.onSchema]
    · split
      · exact .empty
      · exact fun κ => rfl
  · obtain ⟨P, e, records, items, -, hshares, hlayout⟩ := hsim.layout
    obtain ⟨W, d', hrun, rfl, rfl⟩ := (ends_build_again hshares.faults hlayout.toc (hkey.keys.trans hlayout.key.symm) hlayout.schema).returns
    rw [hrun]
    exact ⟨hbuilt.symm, .inr (hsim.join hw)⟩

/-- A call on a writer that is not open is none. -/
theorem Tracks.absent (h : Tracks db base d₀ H s) (hw : w ∉ H.live) : s.writers w = none := by
  rcases h.state with ⟨rfl, hwriters, -, -⟩ | hsim
  · rw [hwriters]
  · obtain ⟨P, e, records, items, -, hshares, -⟩ := hsim.layout
    cases hW : s.writers w with
    | none => rfl
    | some W => exact absurd ((hshares.live w).mpr ⟨W, hW⟩) hw

theorem Tracks.present (h : Tracks db base d₀ H s) (hw : w ∈ H.live) :
    Simulates db base H s.writers s.disk ∧ ∃ W, s.writers w = some W := by
  rcases h.state with ⟨rfl, -, -, -⟩ | hsim
  · cases hw
  · obtain ⟨P, e, records, items, -, hshares, -⟩ := hsim.layout
    exact ⟨hsim, (hshares.live w).mp hw⟩

/-- A call on an open writer, which returns or throws. -/
theorem Tracks.onWriter {x : WriterM Unit} {H' : History} (h : Tracks db base d₀ H s) (hW : s.writers w = some W)
    (hbuilt : H'.built = H.built)
    (hx : Ends x (W, s.disk) (fun _ u => Simulates db base H' (Function.update s.writers w (some u.1)) u.2)
      fun _ u => Simulates db base H' (Function.update s.writers w (some u.1)) u.2) :
    Tracks db base d₀ H' (Database.onWriter s w x) := by
  rw [Database.onWriter, hW]
  exact ⟨h.built.trans hbuilt.symm, .inr (Ends.final (P := fun u : TocCatalogueWriter × Disk =>
    Simulates db base H' (Function.update s.writers w (some u.1)) u.2) hx)⟩

theorem Tracks.step (h : Tracks db base d₀ H s) (hd : db.Absent d₀) (hc : c.Proper db.version db.key.keys) : Tracks db base d₀ (H.step c) (db.step s c) := by
  have hskip : ∀ {w x}, w ∉ H.live → Database.onWriter s w x = s := fun hw => by
    rw [Database.onWriter, h.absent hw]
  cases c with
  | build w key => exact h.build hd hc
  | selectIndex w key =>
    rw [Database.step]
    by_cases hw : w ∈ H.live
    · obtain ⟨hsim, W, hW⟩ := h.present hw
      refine h.onWriter hW ?_ ((hsim.ends_selectIndex hW hc hw).mono (fun _ _ h => h) fun _ _ h => h.elim)
      rw [History.step, if_pos hw]
    · rw [hskip hw, History.step, if_neg hw]
      exact h
  | deselectIndex w =>
    rw [Database.step]
    by_cases hw : w ∈ H.live
    · obtain ⟨hsim, W, hW⟩ := h.present hw
      refine h.onWriter hW ?_ ((hsim.ends_deselectIndex hW hw).mono (fun _ _ h => h) fun _ _ h => h.elim)
      rw [History.step, if_pos hw]
    · rw [hskip hw, History.step, if_neg hw]
      exact h
  | archive w key location =>
    rw [Database.step]
    by_cases hw : w ∈ H.live
    · obtain ⟨hsim, W, hW⟩ := h.present hw
      have hbuilt : (H.step (.archive w key location)).built = H.built := by
        rw [History.step]
        split <;> rfl
      cases he : (H.selected w).empty with
      | false =>
        exact h.onWriter hW hbuilt ((hsim.ends_archive hW hc hw he).mono (fun _ _ h => h) fun _ _ h => h.elim)
      | true =>
        exact h.onWriter hW hbuilt ((hsim.ends_archive_unselected hW he).mono (fun _ _ h => h.elim) fun _ _ h => h)
    · rw [hskip hw, History.step, if_neg fun h => hw h.1]
      exact h
  | flush w =>
    rw [Database.step, History.step]
    by_cases hw : w ∈ H.live
    · obtain ⟨hsim, W, hW⟩ := h.present hw
      rw [if_pos hw]
      exact h.onWriter hW rfl ((hsim.ends_flush hW).mono (fun _ _ h => h) fun _ _ h => h.elim)
    · rw [hskip hw, if_neg hw]
      exact h
  | close w =>
    rw [Database.step]
    by_cases hw : w ∈ H.live
    · obtain ⟨hsim, W, hW⟩ := h.present hw
      rw [Database.onWriter, hW]
      have hends := Ends.final (P := fun u : TocCatalogueWriter × Disk => Simulates db base (H.step (.close w))
        (Function.update s.writers w none) u.2) ((hsim.ends_destroy hW hw).mono (fun _ _ h => h) fun _ _ h => h.elim)
      refine ⟨?_, .inr ?_⟩
      · rw [History.step, if_pos hw]
        exact h.built
      · simpa using hends
    · rw [hskip hw, History.step, if_neg hw, Function.update_eq_self_iff.mpr (h.absent hw).symm]
      exact h

theorem Tracks.run (h : Tracks db base d₀ H s) (hd : db.Absent d₀) (hcalls : ∀ c ∈ calls, c.Proper db.version db.key.keys) :
    Tracks db base d₀ (calls.foldl History.step H) (calls.foldl db.step s) := by
  induction calls generalizing H s with
  | nil => exact h
  | cons c calls ih => exact ih (h.step hd (hcalls c (.head _))) fun c hc => hcalls c (.tail _ hc)

/-- After any calls the writers and the disk are what the history says. -/
theorem tracks_runCalls (hd : db.Absent d₀) (hcalls : ∀ c ∈ calls, c.Proper db.version db.key.keys) :
    Tracks db (fun _ => none) d₀ (History.of calls) (db.runCalls d₀ calls) :=
  Tracks.run ⟨rfl, .inl ⟨rfl, rfl, rfl, fun _ => rfl⟩⟩ hd hcalls

end Run

section Read

variable {db : Database} {H : History} {writers : Nat → Option TocCatalogueWriter} {P : Position → Prop} {d : Disk}
  {e key : Key} {records log : List TocRecord} {items : List Item} {segs : List Segment} {seg : Segment}
  {x : Position} {r : TocRecord} {depth n : Nat} {path : PathName} {w : Nat}

/-- What a reader loads for a segment. -/
def Loads (P : Position → Prop) (d : Disk) (m : TocIndex BTreeHandle × Key) (seg : Segment) : Prop :=
  (m.1.Holds d seg ∧ m.2 = {}) ∧ P m.1.position

theorem IndexRecord.load (path : PathName) (subToc : Option PathName) (h : IndexRecord db d seg x r) (hx : P x)
    (hp : path.dirName = db.directory) :
    ∃ m, loadIndex db.version ⟨r, path, {}, subToc⟩ = .ok [m] ∧ Loads P d m seg := by
  obtain ⟨base, offset, e, idx, rfl, rfl, hdecode, hholds, -⟩ := h
  refine ⟨(idx, {}), ?_, ⟨hholds, rfl⟩, by rw [TocIndex.decode_ok hdecode]; exact hx⟩
  simp [loadIndex, hp, hdecode, bind, Except.bind, pure, Except.pure]

theorem mapM_loadIndex (path : PathName) (hp : path.dirName = db.directory)
    (h : List.Forall₂ (fun r seg => ∃ x, P x ∧ IndexRecord db d seg x r) records segs) :
    ∃ ms, (records.map fun r => (⟨r, path, {}, none⟩ : Entry)).mapM (loadIndex db.version) = .ok ms ∧
      List.Forall₂ (Loads P d) ms.flatten segs := by
  induction h with
  | nil => exact ⟨[], rfl, .nil⟩
  | @cons r seg records segs hr _ ih =>
    obtain ⟨x, hx, hr⟩ := hr
    obtain ⟨m, hm, hloads⟩ := hr.load path none hx hp
    obtain ⟨ms, hms, hrest⟩ := ih
    refine ⟨[m] :: ms, ?_, .cons hloads hrest⟩
    rw [List.map_cons, List.mapM_cons, hm, hms]
    rfl

/-- A toc of indexes is read as it is. -/
theorem readFrom_indexes {readSub : PathName → Key → Except Failure (List Entry)} {parentKey : Key}
    (h : ∀ r ∈ records, ∃ base offset e, r = .index base offset e) :
    readFrom d indexFlags readSub path {} [] parentKey records = .ok (records.map fun r => ⟨r, path, {}, none⟩) := by
  induction records with
  | nil => rfl
  | cons r records ih =>
    obtain ⟨base, offset, e, rfl⟩ := h r (.head _)
    rw [readFrom, ih fun r hr => h r (.tail _ hr)]
    simp [bind, Except.bind, pure, Except.pure]

theorem populateFrom_indexes {seen : List TocRecord} (h : ∀ r ∈ records, ∃ base offset e, r = .index base offset e) :
    populateFrom seen records = [] := by
  induction records generalizing seen with
  | nil => rfl
  | cons r records ih =>
    obtain ⟨base, offset, e, rfl⟩ := h r (.head _)
    rw [populateFrom, ih fun r hr => h r (.tail _ hr)]
    rfl

/-- The sub-toc of a writer contributes its segments. -/
theorem contribution_subToc (htoc : d.toc ⟨db.directory, subTocName n⟩ = some (.init e :: records))
    (hkeys : e.keys = key.keys) (h : List.Forall₂ (fun r seg => ∃ x, P x ∧ IndexRecord db d seg x r) records segs) :
    ∃ l, contribution d db.version (depth + 1) db.tocPath key (.subToc (.relative (subTocName n))) = .ok l ∧
      List.Forall₂ (Loads P d) l segs := by
  have hindexes : ∀ r ∈ records, ∃ base offset e, r = .index base offset e := by
    intro r hr
    obtain ⟨i, hi, rfl⟩ := List.getElem_of_mem hr
    obtain ⟨x, -, base, offset, e, idx, he, -⟩ := h.get hi (h.length_eq ▸ hi)
    exact ⟨base, offset, e, he⟩
  have hmasked : populateMaskedEntriesList (.init e :: records) = [] := by
    rw [populateMaskedEntriesList, populateFrom, populateFrom_indexes hindexes]
    rfl
  have hremap : remap d ⟨db.directory, subTocName n⟩ key = .ok {} := by
    rw [remap, htoc]
    simp [databaseKey, hkeys, bind, Except.bind, pure, Except.pure]
  have hread : readSub d indexFlags (depth + 1) ⟨db.directory, subTocName n⟩ key =
      .ok (⟨.init e, ⟨db.directory, subTocName n⟩, {}, none⟩ ::
        records.map fun r => ⟨r, ⟨db.directory, subTocName n⟩, {}, none⟩) := by
    rw [readSub, hremap]
    change read d indexFlags depth _ _ _ = _
    rw [read_eq htoc, hmasked, readFrom, readFrom_indexes hindexes]
    rfl
  obtain ⟨ms, hms, hloads⟩ := mapM_loadIndex ⟨db.directory, subTocName n⟩ rfl h
  refine ⟨ms.flatten, ?_, hloads⟩
  have hpath : subTocPath d db.tocPath.dirName (.relative (subTocName n)) = ⟨db.directory, subTocName n⟩ := rfl
  rw [contribution, ownEntries, hpath, hread]
  simp only [bind, Except.bind, pure, Except.pure]
  rw [mapM_loadIndex_map, hms]

/-- Whether the mask of a sub-toc hides what the item shows. -/
def Item.hidden : Item → Bool
  | .masked _ => true
  | _ => false

/-- The records that are not masked contribute the segments of their items. -/
theorem contributions_shown (depth : Nat) (mask : TocRecord → Bool)
    (h : List.Forall₂ (RecordShows db P key.keys d) records items)
    (hmask : ∀ item ∈ items, ∀ r, RecordShows db P key.keys d r item → mask r = item.hidden) :
    ∃ parts, (records.filter fun r => !mask r).mapM (contribution d db.version (depth + 1) db.tocPath key) =
      .ok parts ∧ List.Forall₂ (Loads P d) parts.flatten (items.flatMap Item.segs) := by
  induction h with
  | nil => exact ⟨[], rfl, .nil⟩
  | @cons r item records items hr _ ih =>
    obtain ⟨parts, hparts, hloads⟩ := ih fun item hi => hmask item (.tail _ hi)
    have hm := hmask item (.head _) r hr
    have hcase : item.hidden = true ∧ item.segs = [] ∨ item.hidden = false ∧
        ∃ part, contribution d db.version (depth + 1) db.tocPath key r = .ok part ∧
          List.Forall₂ (Loads P d) part item.segs := by
      cases hr with
      | index w seg x r recorded record =>
        obtain ⟨m, hload, hl⟩ := record.load db.tocPath none recorded rfl
        obtain ⟨base, offset, e, idx, rfl, -⟩ := record
        refine .inr ⟨rfl, [m], ?_, .cons hl .nil⟩
        rw [contribution, ownEntries]
        simp [List.mapM_cons, hload, bind, Except.bind, pure, Except.pure]
      | subToc w n segs e records lt toc same shows => exact .inr ⟨rfl, contribution_subToc toc same shows⟩
      | masked => exact .inl ⟨rfl, rfl⟩
      | clear => exact .inr ⟨rfl, [], rfl, .nil⟩
    rw [List.filter_cons, hm, List.flatMap_cons]
    rcases hcase with ⟨hh, hs⟩ | ⟨hh, part, hpart, hs⟩
    · rw [hh, hs]
      exact ⟨parts, hparts, hloads⟩
    · refine ⟨part :: parts, ?_, List.rel_append hs hloads⟩
      rw [hh, Bool.not_false, if_pos rfl, List.mapM_cons, hpart, hparts]
      rfl

/-- What the masks of the master toc hide. -/
theorem Layout.masks (h : Layout db H writers P d e records items) {item : Item} (hi : item ∈ items)
    (hr : RecordShows db P e.keys d r item) :
    masks (populateMaskedEntriesList (.init e :: records)) r = item.hidden := by
  have hclear : ∀ name, name ∈ populateMaskedEntriesList (.init e :: records) ↔
      ∃ n, .clear (subTocName n) ∈ items ∧ name = (subTocName n, 0) := by
    intro name
    rw [populateMaskedEntriesList, mem_populateFrom]
    constructor
    · rintro (⟨path, offset, hmem, rfl⟩ | ⟨pre, post, hl, -⟩)
      · obtain ⟨item, hi, hr⟩ := h.item_of_mem (r := .clear path offset) (by simpa using hmem)
        cases hr with
        | index w seg x r recorded record =>
          obtain ⟨_, _, _, _, he, -⟩ := record
          cases he
        | clear n log toc => exact ⟨n, hi, rfl⟩
      · have hmem : .clearAll ∈ TocRecord.init e :: records := by simp [hl]
        obtain ⟨item, -, hr⟩ := h.item_of_mem (r := .clearAll) (by simpa using hmem)
        cases hr with
        | index w seg x r recorded record =>
          obtain ⟨_, _, _, _, he, -⟩ := record
          cases he
    · rintro ⟨n, hi, rfl⟩
      obtain ⟨r, hmem, hr⟩ := h.record_of_mem hi
      cases hr with
      | clear n log toc => exact .inl ⟨_, _, .tail _ hmem, rfl⟩
  cases hr with
  | index w seg x r recorded record =>
    obtain ⟨base, offset, e, idx, rfl, -, -, -, hext⟩ := record
    rw [TocHandler.masks, TocRecord.maskable, Option.any_some]
    refine decide_eq_false ?_
    rw [hclear]
    rintro ⟨n, -, he⟩
    rw [(Prod.mk.inj he).1] at hext
    simp at hext
  | subToc w n segs e' records' lt toc same shows =>
    rw [TocHandler.masks, TocRecord.maskable, Option.any_some]
    refine decide_eq_false ?_
    rw [hclear]
    rintro ⟨m, hm, he⟩
    have hname : subTocName n = subTocName m := (Prod.mk.inj he).1
    exact h.clear _ hm w segs (hname ▸ hi)
  | masked n log toc =>
    rw [TocHandler.masks, TocRecord.maskable, Option.any_some]
    refine decide_eq_true ?_
    rw [StoredPath.baseName, hclear]
    exact ⟨n, h.masked _ hi, rfl⟩
  | clear n log toc => rfl

/-- A reader loads the segments of the items, the newest first. -/
theorem Layout.loadIndexes (depth : Nat) (h : Layout db H writers P d e records items) :
    ∃ l, loadIndexes d db.version (depth + 1) db.tocPath = .ok l ∧
      List.Forall₂ (Loads P d) l.reverse (items.flatMap Item.segs) := by
  have hinit : ∀ k, .init k ∉ records := by
    intro k hk
    obtain ⟨item, -, hr⟩ := h.item_of_mem hk
    cases hr with
    | index w seg x r recorded record =>
      obtain ⟨_, _, _, _, he, -⟩ := record
      cases he
  have hkey : ∀ k, .init k ∈ TocRecord.init e :: records → k = e := by
    intro k hk
    rcases List.mem_cons.mp hk with he | hk
    · cases he
      rfl
    · exact absurd hk (hinit k)
  obtain ⟨parts, hparts, hloads⟩ := contributions_shown depth
    (TocHandler.masks (populateMaskedEntriesList (.init e :: records))) h.records fun item hi r hr => h.masks hi hr
  have hparent : ∀ masked, readFrom d indexFlags (readSub d indexFlags (depth + 1)) db.tocPath {} masked {}
      (.init e :: records) = readFrom d indexFlags (readSub d indexFlags (depth + 1)) db.tocPath {} masked e
      (.init e :: records) := fun masked => by simp [readFrom, Key.empty]
  have hall : ((TocRecord.init e :: records).filter fun r =>
      !TocHandler.masks (populateMaskedEntriesList (.init e :: records)) r).mapM
        (contribution d db.version (depth + 1) db.tocPath e) = .ok ([] :: parts) := by
    rw [List.filter_cons, if_pos (by rfl), List.mapM_cons, hparts]
    rfl
  obtain ⟨entries, hentries, indexes, hindexes, hflat⟩ := (readFrom_contribution hkey).mpr ⟨_, hall, rfl⟩
  refine ⟨indexes.flatten.reverse, ?_, ?_⟩
  · rw [TocHandler.loadIndexes, if_pos (Disk.pathExists_of_toc h.toc), read_eq h.toc, hparent, hentries]
    simp only [bind, Except.bind, hindexes]
    rfl
  · rw [List.reverse_reverse, hflat]
    exact hloads

/-- What is shown under an index key was archived under it. -/
theorem Layout.shown_archived {κ : StringDict} {p : Put} (h : Layout db H writers P d e records items)
    (hf : H.Facts) (hp : p ∈ visible items κ) : ∃ a ∈ H.archived, a.index.keys = κ ∧ a.put = p := by
  have hshows := h.shows
  split at hshows
  · obtain ⟨item, hi, seg, hs, rfl, hput⟩ := mem_visible.mp hp
    obtain ⟨w, -, a, ha, -, hκ, hput⟩ := hshows.archived item hi seg hs p hput
    exact ⟨a, ha, hκ, hput⟩
  · rw [hshows κ] at hp
    obtain ⟨f, hfm, rfl⟩ := List.mem_map.mp hp
    obtain ⟨a, ha, -, hκ, hput⟩ := hf.flushed κ f hfm
    exact ⟨a, ha, hκ, hput⟩

/-- The last field shown with a fingerprint is the last one that was flushed. -/
theorem Layout.shown_last {κ : StringDict} {fingerprint : String} (h : Layout db H writers P d e records items)
    (hx : db.useSubToc = true → H.Exclusive κ fingerprint) :
    (visible items κ).findRev? (fun p => p.fingerprint = fingerprint) =
      ((H.flushed κ).map (·.2)).findRev? fun p => p.fingerprint = fingerprint := by
  have hshows := h.shows
  split at hshows
  · rename_i hs
    exact hshows.last κ fingerprint (hx hs)
  · rw [hshows κ]

end Read

section Answers

variable {db : Database} {d₀ : Disk} {calls : List Call} {k1 k2 : Key} {names : List String} {H : History}

/-- What the history says of a key is what its fingerprint finds. -/
theorem History.last_fingerprint (hf : H.Facts) (hk2 : k2.Fits names)
    (hfits : ∀ a ∈ H.archived, a.index.keys = k1.keys → a.put.key.Fits names) :
    H.last k1 k2 = ((H.flushed k1.keys).map (·.2)).findRev? fun p => p.fingerprint = k2.fingerprint := by
  refine findRev?_congr fun p hp => ?_
  obtain ⟨f, hfm, rfl⟩ := List.mem_map.mp hp
  obtain ⟨a, ha, -, hκ, hput⟩ := hf.flushed k1.keys f hfm
  have hpfits := hfits a ha hκ
  rw [hput] at hpfits
  exact decide_eq_decide.mpr (hpfits.fingerprint_iff hk2).symm

/-- A reader finds the last field that was flushed. -/
theorem Database.retrieve_last (hd : db.Absent d₀) (hcalls : ∀ c ∈ calls, c.Proper db.version db.key.keys) (depth : Nat) (hk1 : k1.keys ≠ ∅) (hk2 : k2.Fits names)
    (hfits : ∀ a ∈ (History.of calls).archived, a.index.keys = k1.keys → a.put.key.Fits names)
    (hx : db.useSubToc = true → (History.of calls).Exclusive k1.keys k2.fingerprint) :
    (db.runCalls d₀ calls).disk.retrieve db.version (depth + 1) db.tocPath k1 k2 =
      .ok (((History.of calls).last k1 k2).map Put.found) := by
  rcases (tracks_runCalls hd hcalls).state with ⟨hH, -, hdisk, -⟩ | hsim
  · have hk1' : ¬ (∅ : StringDict) = k1.keys := fun he => hk1 he.symm
    rw [hdisk, hH, Disk.retrieve, TocCatalogueReader.build, loadIndexes, if_neg (by simp [hd.absent])]
    simp [bind, Except.bind, pure, Except.pure, TocCatalogueReader.selectIndex, TocCatalogueReader.retrieve, hk1']
    rfl
  · obtain ⟨P, e, records, items, -, hshares, hlayout⟩ := hsim.layout
    obtain ⟨l, hl, hloads⟩ := hlayout.loadIndexes depth
    have hsegs : ∀ seg ∈ items.flatMap Item.segs, seg.index = k1.keys → ∀ p ∈ seg.puts, p.key.Fits names := by
      intro seg hseg hindex p hp
      have hvisible : p ∈ visible items k1.keys := Segment.mem_under.mpr ⟨seg, hseg, hindex, hp⟩
      obtain ⟨a, ha, hκ, rfl⟩ := hlayout.shown_archived hsim.facts hvisible
      exact hfits a ha hκ
    rw [Disk.retrieve_found hshares.faults hl (hloads.imp fun _ _ h => h.1) hk1 hk2 hsegs, History.last_fingerprint hsim.facts hk2 hfits,
      ← hlayout.shown_last hx]
    rfl

theorem TocCatalogueReader.findFrom_congr {d d' : Disk} {key : Key} {l : List (TocIndex BTreeHandle × Key)}
    (h : ∀ m ∈ l, d'.segment m.1.path m.1.offset = d.segment m.1.path m.1.offset) :
    findFrom d' key l = findFrom d key l := by
  induction l with
  | nil => rfl
  | cons m l ih =>
    rw [findFrom, findFrom, TocIndex.find, TocIndex.find, h m (.head _), ih fun m hm => h m (.tail _ hm)]

/-- The answer of a reader that was made before, when no segment that it loaded has changed. -/
theorem TocCatalogueReader.retrieve_congr {d d' : Disk} {r : TocCatalogueReader} (hf : d.faults = [])
    (hf' : d'.faults = []) (hr : r.matching = []) (hloaded : ∀ m ∈ r.indexes, m.1.IsLoaded)
    (h : ∀ m ∈ r.indexes, d'.segment m.1.path m.1.offset = d.segment m.1.path m.1.offset) :
    value (((r.selectIndex k1).retrieve k2).run d') = value (((r.selectIndex k1).retrieve k2).run d) := by
  have hmatching : ∀ m ∈ (r.selectIndex k1).matching, m ∈ r.indexes := by
    intro m hm
    rw [selectIndex] at hm
    split at hm
    · rw [hr] at hm
      cases hm
    · exact List.mem_of_mem_filter hm
  rw [retrieve, run_retrieveFrom hf' fun m hm => hloaded m (hmatching m hm),
    run_retrieveFrom hf fun m hm => hloaded m (hmatching m hm),
    findFrom_congr fun m hm => h m (hmatching m hm)]
  cases findFrom d k2 (r.selectIndex k1).matching <;> rfl

theorem exists_of_forall₂ {α β : Type} {R : α → β → Prop} {l : List α} {l' : List β} (h : List.Forall₂ R l l')
    {a : α} (ha : a ∈ l) : ∃ b, R a b := by
  obtain ⟨i, hi, rfl⟩ := List.getElem_of_mem ha
  exact ⟨_, h.get hi (h.length_eq ▸ hi)⟩

/-- After any calls a reader can be made. -/
theorem Database.exists_reader (hd : db.Absent d₀) (hcalls : ∀ c ∈ calls, c.Proper db.version db.key.keys) (depth : Nat) : ∃ r,
    TocCatalogueReader.build (db.runCalls d₀ calls).disk db.version (depth + 1) db.tocPath = .ok r := by
  rcases (tracks_runCalls hd hcalls).state with ⟨-, -, hdisk, -⟩ | hsim
  · rw [hdisk, TocCatalogueReader.build, loadIndexes, if_neg (by simp [hd.absent])]
    exact ⟨_, rfl⟩
  · obtain ⟨P, e, records, items, -, -, hlayout⟩ := hsim.layout
    obtain ⟨l, hl, -⟩ := hlayout.loadIndexes depth
    rw [TocCatalogueReader.build, hl]
    exact ⟨_, rfl⟩

/-- A reader answers from the tocs as it read them: no later call on any writer changes what it finds. -/
theorem Database.reader_isolated (db : Database) (d₀ : Disk) (before after : List Call) (depth : Nat)
    (r : TocCatalogueReader) (k1 k2 : Key) (hd : db.Absent d₀)
    (hbefore : ∀ c ∈ before, c.Proper db.version db.key.keys) (hafter : ∀ c ∈ after, c.Proper db.version db.key.keys)
    (hr : TocCatalogueReader.build (db.runCalls d₀ before).disk db.version (depth + 1) db.tocPath = .ok r) :
    value (((r.selectIndex k1).retrieve k2).run (db.runCalls d₀ (before ++ after)).disk) =
      value (((r.selectIndex k1).retrieve k2).run (db.runCalls d₀ before).disk) := by
  classical
  have hbuild : ∃ l, loadIndexes (db.runCalls d₀ before).disk db.version (depth + 1) db.tocPath = .ok l ∧
      r = { indexes := l } := by
    simp only [TocCatalogueReader.build, except_bind_ok, except_pure_ok] at hr
    obtain ⟨l, hl, rfl⟩ := hr
    exact ⟨l, hl, rfl⟩
  obtain ⟨l, hl, rfl⟩ := hbuild
  have htracks : Tracks db (fun _ => none) d₀ _ _ := tracks_runCalls hd hbefore
  have hfaults : ∀ {base H s}, Tracks db base d₀ H s → s.disk.faults = [] := by
    intro base H s h
    rcases h.state with ⟨-, -, hdisk, -⟩ | hsim
    · rw [hdisk, hd.faults]
    · obtain ⟨P, e, records, items, -, hshares, -⟩ := hsim.layout
      exact hshares.faults
  have hrun : db.runCalls d₀ (before ++ after) = after.foldl db.step (db.runCalls d₀ before) := List.foldl_append
  rcases htracks.state with ⟨hH, -, hdisk, -⟩ | hsim
  · have hnil : l = [] := by
      rw [hdisk, loadIndexes, if_neg (by simp [hd.absent])] at hl
      exact (Except.ok.inj hl).symm
    subst hnil
    refine TocCatalogueReader.retrieve_congr (hfaults htracks) ?_ rfl (by simp) (by simp)
    rw [hrun]
    exact hfaults (htracks.run hd hafter)
  · obtain ⟨P, e, records, items, -, hshares, hlayout⟩ := hsim.layout
    obtain ⟨l', hl', hloads⟩ := hlayout.loadIndexes depth
    obtain rfl : l' = l := Except.ok.inj (hl'.symm.trans hl)
    have hm : ∀ m ∈ l', ∃ seg, Loads P (db.runCalls d₀ before).disk m seg := fun m hm =>
      exists_of_forall₂ hloads (List.mem_reverse.mpr hm)
    have hbase : Tracks db (fun x => if P x then (db.runCalls d₀ before).disk.segment x.1 x.2 else none) d₀
        (History.of before) (db.runCalls d₀ before) := by
      refine ⟨htracks.built, .inr ⟨hsim.facts, hsim.selected, hsim.archivable, P, e, records, items, ?_, hshares,
        hlayout⟩⟩
      intro x pages hx
      dsimp only at hx
      by_cases hP : P x
      · rw [if_pos hP] at hx
        exact ⟨hP, hx⟩
      · rw [if_neg hP] at hx
        cases hx
    have hlast := hbase.run hd hafter
    rw [hrun]
    refine TocCatalogueReader.retrieve_congr (hfaults htracks) (hfaults hlast) rfl (fun m hmem => ?_) fun m hmem => ?_
    · obtain ⟨seg, ⟨hholds, -⟩, -⟩ := hm m hmem
      exact ⟨hholds.readOnly, hholds.closed⟩
    · obtain ⟨seg, ⟨hholds, -⟩, hP⟩ := hm m hmem
      obtain ⟨uris, hpages, -⟩ := hholds.pages
      have hknown : (if P m.1.position then (db.runCalls d₀ before).disk.segment m.1.position.1 m.1.position.2
          else none) = some (Put.pages uris seg.puts) := by
        rw [if_pos hP]
        exact hpages
      rcases hlast.state with ⟨-, -, -, hnone⟩ | hsim'
      · rw [hnone m.1.position] at hknown
        cases hknown
      · obtain ⟨P', e', records', items', hrests, -, -⟩ := hsim'.layout
        exact (hrests _ _ hknown).2.trans hpages.symm

end Answers

section Sessions

def sessionKey : Key := Key.ofList [("class", "od")] none

def sessionDatabase : Database where
  directory := "/root/od"
  version := 3
  schema := ⟨.untyped, []⟩
  key := sessionKey
  useSubToc := false

def sessionIndex : Key := Key.ofList [("type", "an")] none

def sessionField : Key := Key.ofList [("step", "0")] none

def earlierPlace : FieldLocation := .ofPath ⟨"/root/od", ⟨"an", some 7, ".data"⟩⟩ 0 10

def laterPlace : FieldLocation := .ofPath ⟨"/root/od", ⟨"an", some 7, ".data"⟩⟩ 10 10

/-- Two writers that are open at the same time; the field archived first is flushed last. -/
def overlappingCalls : List Call := [.build 0 sessionKey, .build 1 sessionKey, .selectIndex 0 sessionIndex, .archive 0 sessionField earlierPlace,
  .selectIndex 1 sessionIndex, .archive 1 sessionField laterPlace, .flush 1, .flush 0, .close 0]

/-- One writer after the other. -/
def successiveCalls : List Call := [.build 0 sessionKey, .selectIndex 0 sessionIndex,
  .archive 0 sessionField earlierPlace, .close 0, .build 1 sessionKey, .selectIndex 1 sessionIndex, .archive 1 sessionField laterPlace, .flush 1]

theorem sessionIndex_selectable : sessionIndex.Selectable :=
  ⟨by decide, ⟨⟨_, rfl⟩, fun _ h => Key.canonicalValue_of_canonical rfl h⟩, by
    obtain ⟨e, he, hkeys, -⟩ := Key.encode_canonical (k := sessionIndex) rfl
    exact ⟨e, he, hkeys⟩⟩

theorem sessionKey_addresses : sessionKey.Addresses sessionKey.keys := by
  obtain ⟨e, he, hkeys, -⟩ := Key.encode_canonical (k := sessionKey) rfl
  exact ⟨rfl, e, he, hkeys⟩

theorem sessionField_fits : sessionField.Fits ["step"] := by
  refine ⟨⟨⟨⟨_, rfl⟩, fun _ h => Key.canonicalValue_of_canonical rfl h⟩, by decide, rfl⟩, rfl, fun keyword => ?_, ?_⟩
  · simp [sessionField, Key.ofList, eq_comm (a := "step")]
  · rintro values hv
    obtain rfl : ["0"] = values := Except.ok.inj hv
    decide

theorem session_archivable {location : FieldLocation} : Put.Archivable 3 ⟨sessionField, location⟩ :=
  ⟨sessionField_fits.storable, fun _ => ⟨"step", (sessionField_fits.keyword "step").mpr (by simp)⟩⟩

theorem session_absent {db : Database} : db.Absent {} := ⟨rfl, by simp [Disk.Stamped], rfl⟩

theorem overlapping_proper : ∀ c ∈ overlappingCalls, c.Proper 3 sessionKey.keys := by
  simp [overlappingCalls, Call.Proper, sessionKey_addresses, sessionIndex_selectable, session_archivable]

theorem successive_proper : ∀ c ∈ successiveCalls, c.Proper 3 sessionKey.keys := by
  simp [successiveCalls, Call.Proper, sessionKey_addresses, sessionIndex_selectable, session_archivable]

theorem sessionIndex_keys : sessionIndex.keys ≠ ∅ := by
  rw [Ne, ← Std.ExtTreeMap.isEmpty_iff]
  exact Bool.eq_false_iff.mp sessionIndex_selectable.nonempty

theorem session_fits {calls : List Call}
    (h : (History.of calls).archived.map (·.put.key) = [sessionField, sessionField]) :
    ∀ a ∈ (History.of calls).archived, a.index.keys = sessionIndex.keys → a.put.key.Fits ["step"] := by
  intro a ha _
  have hm := List.mem_map_of_mem (f := (·.put.key)) ha
  rw [h] at hm
  have hkey : a.put.key = sessionField := by simpa using hm
  rw [hkey]
  exact sessionField_fits

theorem successive_exclusive : (History.of successiveCalls).Exclusive sessionIndex.keys sessionField.fingerprint := by
  intro a _ b _ _ _ _ _ hmet
  have : (History.of successiveCalls).met = [] := rfl
  rw [History.Met, this] at hmet
  simp at hmet

/-- A reader made before the second writer goes on finding the first one's field. -/
theorem successive_isolated : ∃ r, TocCatalogueReader.build (sessionDatabase.runCalls {} (successiveCalls.take 4)).disk
    3 1 sessionDatabase.tocPath = .ok r ∧
      value (((r.selectIndex sessionIndex).retrieve sessionField).run
        (sessionDatabase.runCalls {} (successiveCalls.take 4 ++ successiveCalls.drop 4)).disk) =
      value (((r.selectIndex sessionIndex).retrieve sessionField).run
        (sessionDatabase.runCalls {} (successiveCalls.take 4)).disk) := by
  have hbefore : ∀ c ∈ successiveCalls.take 4, c.Proper 3 sessionKey.keys := fun c hc => successive_proper c (List.mem_of_mem_take hc)
  have hafter : ∀ c ∈ successiveCalls.drop 4, c.Proper 3 sessionKey.keys := fun c hc => successive_proper c (List.mem_of_mem_drop hc)
  obtain ⟨r, hr⟩ := Database.exists_reader (session_absent : sessionDatabase.Absent {}) hbefore 0
  exact ⟨r, hr, Database.reader_isolated sessionDatabase {} _ _ 0 r sessionIndex sessionField session_absent
    hbefore hafter hr⟩

end Sessions

end Fdb5
