import Mathlib.Data.List.Nodup
import Mathlib.Data.Set.List
import Fdb5.Toc.Layout
import Fdb5.Toc.WriterCalls

/-! The catalogue writers of a database on one disk: what any order of their calls keeps. -/
namespace Fdb5

open Effect IndexStore

/-- The writers that are open, each with the number under which it was built. -/
structure WriterSystem where
  built : List Nat := []
  writers : Nat → Option TocCatalogueWriter := fun _ => none
  disk : Disk

namespace Database

variable (db : Database) (s : WriterSystem)

/-- A call on one of the writers, which an exception leaves as it is by then. -/
def onWriter (w : Nat) (x : WriterM Unit) : WriterSystem :=
  match s.writers w with
  | none => s
  | some W =>
    let t := final (x.run (W, s.disk))
    { s with writers := Function.update s.writers w (some t.1), disk := t.2 }

def step : Call → WriterSystem
  | .build w key =>
    if w ∈ s.built then s
    else
      match (TocCatalogueWriter.build db.directory db.version db.schema db.useSubToc key).run s.disk with
      | .ok W d =>
        { built := w :: s.built, writers := Function.update s.writers w (some W), disk := d }
      | .error _ d => { s with disk := d }
  | .selectIndex w key => onWriter s w (TocCatalogueWriter.selectIndex key)
  | .deselectIndex w => onWriter s w TocCatalogueWriter.deselectIndex
  | .archive w key location => onWriter s w (TocCatalogueWriter.archive key location)
  | .flush w => onWriter s w TocCatalogueWriter.flush
  | .close w =>
    let s' := onWriter s w TocCatalogueWriter.destroy
    { s' with writers := Function.update s'.writers w none }

def runCalls (d : Disk) (calls : List Call) : WriterSystem := calls.foldl db.step { disk := d }

/-- A disk without the database: nothing fails on it, and no name on it is yet to be given. -/
structure Absent (d : Disk) : Prop where
  faults : d.faults = []
  stamped : d.Stamped
  absent : d.pathExists db.tocPath = false

end Database

/-- The key is the database's, and already in canonical form. -/
structure Key.Addresses (k : Key) (database : StringDict) : Prop where
  keys : k.keys = database
  canonical : ∃ e, k.encode = .ok e ∧ e.keys = database

/-- What the callers of a writer hold to: the keys of the database and of indexes are canonical, and every index takes the
field. -/
def Call.Proper (version : Nat) (database : StringDict) : Call → Prop
  | .build _ key => key.Addresses database
  | .selectIndex _ key => key.Selectable
  | .archive _ key location => Put.Archivable version ⟨key, location⟩
  | .deselectIndex _ | .flush _ | .close _ => True

/-- A position where the writer has an index open. -/
def TocCatalogueWriter.Opens (w : TocCatalogueWriter) (x : Position) : Prop :=
  StoreSim.At w.indexes x ∨ StoreSim.At w.fullIndexes x

/-- The positions that a writer leaves alone: those that tocs record, and those of other writers. -/
def Held (writers : Nat → Option TocCatalogueWriter) (P : Position → Prop) (w : Nat) (x : Position) : Prop :=
  P x ∨ ∃ v W, v ≠ w ∧ writers v = some W ∧ W.Opens x

section Held

variable {writers : Nat → Option TocCatalogueWriter} {P P' : Position → Prop} {w v : Nat} {x y : Position}
  {W : Option TocCatalogueWriter}

theorem held_update_self : Held (Function.update writers w W) P w x ↔ Held writers P w x := by
  refine or_congr_right (exists_congr fun v => exists_congr fun V => and_congr_right fun hne => ?_)
  rw [Function.update_of_ne hne]

theorem held_or : Held writers (fun x => P x ∨ x = y) w x ↔ Held writers P w x ∨ x = y := or_right_comm

end Held

namespace WriterSim

variable {db : Database} {K K' : Position → Prop} {selected : Key} {pending puts : StringDict → List Put}
  {W : TocCatalogueWriter} {d d' : Disk} {s : TocCatalogueWriter × Disk} {x : Position}

theorem congr (h : WriterSim db K selected pending puts s) (hK : ∀ x, K x ↔ K' x) :
    WriterSim db K' selected pending puts s := by
  obtain rfl : K = K' := funext fun x => propext (hK x)
  exact h

theorem kept (h : WriterSim db K selected pending puts s) {p : PathName} {o : Nat} (hx : K (p, o)) :
    ∃ pages, s.2.segment p o = some pages := h.indexes.kept p o (.inl hx)

/-- The segment of an open index is on disk. -/
theorem opened (h : WriterSim db K selected pending puts s) {p : PathName} {o : Nat} (hx : s.1.Opens (p, o)) :
    ∃ pages, s.2.segment p o = some pages := by
  rcases hx with ⟨κ, idx, hidx, he⟩ | hx
  · cases he
    exact ⟨_, (h.indexes.index κ idx hidx).writing.segment⟩
  · exact h.indexes.kept p o (.inr hx)

theorem apart (h : WriterSim db K selected pending puts s) (hx : s.1.Opens x) : ¬ K x := by
  rcases hx with ⟨κ, idx, hidx, rfl⟩ | ⟨κ, idx, hidx, rfl⟩
  · exact fun hk => h.indexes.apart κ idx hidx (.inl hk)
  · exact fun hk => h.fullIndexes.apart κ idx hidx (.inl hk)

/-- A writer that others leave alone. -/
theorem frame {K₁ : Position → Prop} {T : PathName → Prop} (h : WriterSim db K selected pending puts (W, d))
    (hk : d.Keeps K₁ T d') (hown : ∀ x, W.Opens x → K₁ x)
    (hkept : ∀ p o, K' (p, o) → ∃ pages, d'.segment p o = some pages)
    (hapart : ∀ x, W.Opens x → ¬ K' x) : WriterSim db K' selected pending puts (W, d') := by
  have hsegment : ∀ p o, W.Opens (p, o) → ∃ pages, d'.segment p o = some pages := fun p o hx => by
    obtain ⟨pages, hp⟩ := h.opened hx
    exact ⟨pages, (hk.segment p o (hown _ hx)).trans hp⟩
  refine ⟨h.directory, h.version, h.useSubToc, h.key, h.selectable, ?_, ?_, h.dirty, h.current, h.currentFull, h.schema⟩
  · refine h.indexes.frame hk (fun κ idx hidx => hown _ (.inl ⟨κ, idx, hidx, rfl⟩)) ?_ ?_
    · rintro p o (hx | hx)
      · exact hkept p o hx
      · exact hsegment p o (.inr hx)
    · rintro κ idx hidx (hx | hx)
      · exact hapart _ (.inl ⟨κ, idx, hidx, rfl⟩) hx
      · exact h.indexes.apart κ idx hidx (.inr hx)
  · refine h.fullIndexes.frame hk (fun κ idx hidx => hown _ (.inr ⟨κ, idx, hidx, rfl⟩)) ?_ ?_
    · rintro p o (hx | hx)
      · exact hkept p o hx
      · exact hsegment p o (.inl hx)
    · rintro κ idx hidx (hx | hx)
      · exact hapart _ (.inr ⟨κ, idx, hidx, rfl⟩) hx
      · exact h.fullIndexes.apart κ idx hidx (.inr hx)

end WriterSim

/-- The name of a sub-toc that a writer made. -/
abbrev subTocName (n : Nat) : BaseName := ⟨"toc", some n, ""⟩

/-- The sub-toc that an item is about. -/
def Item.base : Item → Option BaseName
  | .index _ _ => none
  | .subToc _ base _ | .masked base | .clear base => some base

/-- A record of the master toc and what it shows; `P` are the positions that tocs record. -/
inductive RecordShows (db : Database) (P : Position → Prop) (keys : StringDict) (d : Disk) :
    TocRecord → Item → Prop
  | index (w : Nat) (seg : Segment) (x : Position) (r : TocRecord) (recorded : P x)
      (record : IndexRecord db d seg x r) : RecordShows db P keys d r (.index w seg)
  | subToc (w n : Nat) (segs : List Segment) (e : Key) (records : List TocRecord) (lt : n < d.stamp)
      (toc : d.toc ⟨db.directory, subTocName n⟩ = some (.init e :: records)) (same : e.keys = keys)
      (shows : List.Forall₂ (fun r seg => ∃ x, P x ∧ IndexRecord db d seg x r) records segs) :
      RecordShows db P keys d (.subToc (.relative (subTocName n))) (.subToc w (subTocName n) segs)
  | masked (n : Nat) (log : List TocRecord) (toc : d.toc ⟨db.directory, subTocName n⟩ = some log) :
      RecordShows db P keys d (.subToc (.relative (subTocName n))) (.masked (subTocName n))
  | clear (n : Nat) (log : List TocRecord) (toc : d.toc ⟨db.directory, subTocName n⟩ = some log) :
      RecordShows db P keys d (.clear (.relative (subTocName n)) 0) (.clear (subTocName n))

/-- The open writers share a disk, none at a position of another one or of the tocs. -/
structure Shares (db : Database) (H : History) (writers : Nat → Option TocCatalogueWriter)
    (P : Position → Prop) (d : Disk) : Prop where
  live : ∀ w, w ∈ H.live ↔ ∃ W, writers w = some W
  writer : ∀ w W, writers w = some W →
    WriterSim db (Held writers P w) (H.selected w) (H.pending w) (H.puts w) (W, d)
  faults : d.faults = []
  stamped : d.Stamped
  kept : ∀ p o, P (p, o) → ∃ pages, d.segment p o = some pages

/-- The master toc shows the items, in which each writer has at most one sub-toc. -/
structure Layout (db : Database) (H : History) (writers : Nat → Option TocCatalogueWriter)
    (P : Position → Prop) (d : Disk) (e : Key) (records : List TocRecord) (items : List Item) : Prop where
  toc : d.toc db.tocPath = some (.init e :: records)
  canonical : e.canonical = true
  key : e.keys = db.key.keys
  schema : d.schema (TocHandler.schemaPath db.directory) = some db.schema
  records : List.Forall₂ (RecordShows db P e.keys d) records items
  opened : ∀ w W p, writers w = some W → (W.subTocWrite = some p ↔
    ∃ base segs, p = ⟨db.directory, base⟩ ∧ .subToc w base segs ∈ items)
  distinct : ∀ v w base segs segs', .subToc v base segs ∈ items → .subToc w base segs' ∈ items → v = w
  masked : ∀ base, .masked base ∈ items → .clear base ∈ items
  clear : ∀ base, .clear base ∈ items → ∀ w segs, .subToc w base segs ∉ items
  plain : db.useSubToc = false → ∀ w base segs, .subToc w base segs ∉ items
  shows : if db.useSubToc then Shows H items else ShowsAll H items

/-- The positions that tocs record include those of `base`, with the pages that they had then. -/
def Rests (base : Position → Option Pages) (P : Position → Prop) (d : Disk) : Prop :=
  ∀ x pages, base x = some pages → P x ∧ d.segment x.1 x.2 = some pages

/-- The writers and the disk are what the calls of the history make of them. -/
structure Simulates (db : Database) (base : Position → Option Pages) (H : History)
    (writers : Nat → Option TocCatalogueWriter) (d : Disk) : Prop where
  facts : H.Facts
  selected : ∀ w, w ∉ H.built → H.selected w = {}
  archivable : ∀ a ∈ H.archived, a.put.Archivable db.version
  layout : ∃ P e records items, Rests base P d ∧ Shares db H writers P d ∧ Layout db H writers P d e records items

theorem Rests.step {base : Position → Option Pages} {P P' K : Position → Prop} {T : PathName → Prop} {d d' : Disk}
    (h : Rests base P d) (hkeeps : d.Keeps K T d') (hK : ∀ x, P x → K x) (hP : ∀ x, P x → P' x) : Rests base P' d' := by
  intro x pages hx
  obtain ⟨hPx, hs⟩ := h x pages hx
  exact ⟨hP x hPx, (hkeeps.segment x.1 x.2 (hK x hPx)).trans hs⟩

section Shares

variable {db : Database} {H H' : History} {writers : Nat → Option TocCatalogueWriter} {P P' : Position → Prop}
  {d d' : Disk} {w v : Nat} {W V : TocCatalogueWriter} {W' : Option TocCatalogueWriter} {T : PathName → Prop}
  {keys : StringDict} {r : TocRecord} {item : Item} {x : Position}

/-- A writer beside the one that made a call. -/
theorem Shares.other (h : Shares db H writers P d) (hkeeps : d.Keeps (Held writers P w) T d')
    (hsim : ∀ W, W' = some W → WriterSim db (Held writers P' w) (H'.selected w) (H'.pending w) (H'.puts w) (W, d'))
    (hnew : ∀ x, P' x → P x ∨ ¬ Held writers P w x)
    (hkept : ∀ p o, P' (p, o) → ∃ pages, d'.segment p o = some pages) (hne : v ≠ w) (hV : writers v = some V) :
    WriterSim db (Held (Function.update writers w W') P' v) (H.selected v) (H.pending v) (H.puts v) (V, d') := by
  refine (h.writer v V hV).frame hkeeps (fun x hx => .inr ⟨v, V, hne, hV, hx⟩) ?_ ?_
  · rintro p o (hx | ⟨u, U, hu, hU, hx⟩)
    · exact hkept p o hx
    · by_cases huw : u = w
      · subst huw
        rw [Function.update_self] at hU
        exact (hsim U hU).opened hx
      · rw [Function.update_of_ne huw] at hU
        obtain ⟨pages, hp⟩ := (h.writer u U hU).opened hx
        exact ⟨pages, (hkeeps.segment p o (.inr ⟨u, U, huw, hU, hx⟩)).trans hp⟩
  · rintro x hx (hP' | ⟨u, U, hu, hU, hx'⟩)
    · rcases hnew x hP' with hP' | hno
      · exact (h.writer v V hV).apart hx (.inl hP')
      · exact hno (.inr ⟨v, V, hne, hV, hx⟩)
    · by_cases huw : u = w
      · subst huw
        rw [Function.update_self] at hU
        exact (hsim U hU).apart hx' (.inr ⟨v, V, hne, hV, hx⟩)
      · rw [Function.update_of_ne huw] at hU
        exact (h.writer v V hV).apart hx (.inr ⟨u, U, hu, hU, hx'⟩)

/-- The writers after a call on one of them, which may have ended it. -/
theorem Shares.update (h : Shares db H writers P d) (hkeeps : d.Keeps (Held writers P w) T d')
    (hsim : ∀ W, W' = some W → WriterSim db (Held writers P' w) (H'.selected w) (H'.pending w) (H'.puts w) (W, d'))
    (hnew : ∀ x, P' x → P x ∨ ¬ Held writers P w x)
    (hkept : ∀ p o, P' (p, o) → ∃ pages, d'.segment p o = some pages)
    (hlive : ∀ v, v ∈ H'.live ↔ if v = w then ∃ W, W' = some W else v ∈ H.live)
    (hothers : ∀ v, v ≠ w → H'.selected v = H.selected v ∧ H'.pending v = H.pending v ∧ H'.puts v = H.puts v) :
    Shares db H' (Function.update writers w W') P' d' := by
  refine ⟨fun v => ?_, fun v V hV => ?_, hkeeps.faults.trans h.faults, hkeeps.stamped h.stamped, hkept⟩
  · rw [hlive]
    by_cases hv : v = w
    · simp [hv]
    · rw [if_neg hv, Function.update_of_ne hv, h.live]
  · by_cases hv : v = w
    · subst hv
      rw [Function.update_self] at hV
      exact (hsim V hV).congr fun x => held_update_self.symm
    · obtain ⟨h₁, h₂, h₃⟩ := hothers v hv
      rw [Function.update_of_ne hv] at hV
      rw [h₁, h₂, h₃]
      exact h.other hkeeps hsim hnew hkept hv hV

/-- What a record shows stays where its toc and its segments do. -/
theorem RecordShows.frame (h : RecordShows db P keys d r item) (hP : ∀ x, P x → P' x)
    (hsegment : ∀ p o, P (p, o) → d'.segment p o = d.segment p o) (hstamp : d.stamp ≤ d'.stamp)
    (hexists : ∀ n log, d.toc ⟨db.directory, subTocName n⟩ = some log →
      ∃ log', d'.toc ⟨db.directory, subTocName n⟩ = some log')
    (hsame : ∀ w n segs, item = .subToc w (subTocName n) segs →
      d'.toc ⟨db.directory, subTocName n⟩ = d.toc ⟨db.directory, subTocName n⟩) :
    RecordShows db P' keys d' r item := by
  cases h with
  | index w seg x r recorded record =>
    exact .index w seg x _ (hP x recorded) (record.frame (hsegment x.1 x.2 recorded))
  | subToc w n segs e records lt toc same shows =>
    refine .subToc w n segs e records (Nat.lt_of_lt_of_le lt hstamp) ((hsame w n segs rfl).trans toc) same
      (shows.imp ?_)
    rintro r seg ⟨x, hx, hr⟩
    exact ⟨x, hP x hx, hr.frame (hsegment x.1 x.2 hx)⟩
  | masked n log toc =>
    obtain ⟨log', h'⟩ := hexists n log toc
    exact .masked n log' h'
  | clear n log toc =>
    obtain ⟨log', h'⟩ := hexists n log toc
    exact .clear n log' h'

end Shares

/-- One element replaced, while the others stay related. -/
theorem forall₂_replace {α β : Type} {R S : α → β → Prop} {pre post : List β} {b b' : β}
    (hother : ∀ a, ∀ x ∈ pre ++ post, R a x → S a x) (hb : ∀ a, R a b → S a b') :
    ∀ {l : List α}, List.Forall₂ R l (pre ++ b :: post) → List.Forall₂ S l (pre ++ b' :: post) := by
  induction pre with
  | nil =>
    intro l h
    obtain ⟨a, l, ha, hl, rfl⟩ := List.forall₂_cons_right_iff.mp h
    refine .cons (hb a ha) ?_
    rw [List.forall₂_iff_get] at hl ⊢
    exact ⟨hl.1, fun i h₁ h₂ => hother _ _ (by simp) (hl.2 i h₁ h₂)⟩
  | cons c pre ih =>
    intro l h
    obtain ⟨a, l, ha, hl, rfl⟩ := List.forall₂_cons_right_iff.mp h
    exact .cons (hother a c (by simp) ha) (ih (fun a x hx => hother a x (List.mem_cons_of_mem _ hx)) hl)

section Calls

variable {db : Database} {base : Position → Option Pages} {H H' : History} {writers : Nat → Option TocCatalogueWriter} {P : Position → Prop}
  {d d' : Disk} {w : Nat} {W W' : TocCatalogueWriter} {e key : Key} {records : List TocRecord} {items : List Item}

/-- What the history changes besides what was flushed does not matter to what is shown. -/
theorem shows_mono (hf : H'.flushed = H.flushed) (ha : ∀ a ∈ H.archived, a ∈ H'.archived)
    (hm : H'.met = H.met) (hl : H'.live = H.live) (h : if db.useSubToc then Shows H items else ShowsAll H items) :
    if db.useSubToc then Shows H' items else ShowsAll H' items := by
  split at h
  · rename_i hs
    rw [if_pos hs]
    exact h.mono hf ha (fun u v => by rw [History.Met, History.Met, hm]; exact id) (by simp [hl])
      fun v hv hno => absurd (hl ▸ hv) hno
  · rename_i hs
    rw [if_neg hs]
    intro κ
    rw [hf]
    exact h κ

/-- A call that appends to no toc changes nothing that the tocs show. -/
theorem Layout.quiet (h : Layout db H writers P d e records items)
    (hkeeps : d.Keeps (Held writers P w) (fun _ => True) d') (hW : writers w = some W)
    (hsub : W'.subTocWrite = W.subTocWrite)
    (hshows : if db.useSubToc then Shows H' items else ShowsAll H' items) :
    Layout db H' (Function.update writers w (some W')) P d' e records items := by
  refine ⟨(hkeeps.toc _ trivial).trans h.toc, h.canonical, h.key, ?_, h.records.imp fun r item hr => ?_,
    fun v V p hV => ?_, h.distinct, h.masked, h.clear, h.plain, hshows⟩
  · exact (hkeeps.schema _).trans h.schema
  · exact hr.frame (fun _ => id) (fun p o hx => hkeeps.segment p o (.inl hx)) hkeeps.stamp
      (fun n log hl => ⟨log, (hkeeps.toc _ trivial).trans hl⟩) fun _ n _ _ => hkeeps.toc _ trivial
  · by_cases hv : v = w
    · subst hv
      rw [Function.update_self, Option.some.injEq] at hV
      rw [← hV, hsub]
      exact h.opened v W p hW
    · rw [Function.update_of_ne hv] at hV
      exact h.opened v V p hV

theorem Layout.record_of_mem {item : Item} (h : Layout db H writers P d e records items) (hi : item ∈ items) :
    ∃ r ∈ records, RecordShows db P e.keys d r item := by
  obtain ⟨i, hlt, rfl⟩ := List.getElem_of_mem hi
  exact ⟨_, List.getElem_mem (h.records.length_eq ▸ hlt), h.records.get (h.records.length_eq ▸ hlt) hlt⟩

theorem Layout.item_of_mem {r : TocRecord} (h : Layout db H writers P d e records items) (hr : r ∈ records) :
    ∃ item ∈ items, RecordShows db P e.keys d r item := by
  obtain ⟨i, hlt, rfl⟩ := List.getElem_of_mem hr
  exact ⟨_, List.getElem_mem (h.records.length_eq ▸ hlt), h.records.get hlt (h.records.length_eq ▸ hlt)⟩

theorem Layout.tocsOpen (h : Layout db H writers P d e records items) (hW : writers w = some W) :
    TocsOpen db (W, d) := by
  refine ⟨⟨e, records, h.toc, h.canonical⟩, fun p hp => ?_⟩
  obtain ⟨base, segs, rfl, hi⟩ := (h.opened w W p hW).mp hp
  obtain ⟨r, -, hr⟩ := h.record_of_mem hi
  cases hr with
  | subToc w n segs e records lt toc same shows => exact ⟨⟨_, toc⟩, n, rfl, lt⟩

/-- The sub-tocs of others are named otherwise. -/
theorem Layout.other_base {pre post : List Item} {base base' : BaseName} {segs segs' : List Segment} {v : Nat}
    (h : Layout db H writers P d e records (pre ++ .subToc w base segs :: post)) (hon : db.useSubToc = true)
    (hi : .subToc v base' segs' ∈ pre ++ post) : base' ≠ base := by
  rintro rfl
  have hshows := h.shows
  rw [if_pos hon] at hshows
  refine hshows.other_writer hi rfl (h.distinct v w base' segs' segs ?_ (by simp))
  simp only [List.mem_append, List.mem_cons] at hi ⊢
  tauto

theorem tocPath_ne (n : Nat) : db.tocPath ≠ ⟨db.directory, subTocName n⟩ := by
  rintro ⟨⟩

/-- The sub-toc that an item is about, which is a file of the directory. -/
theorem Layout.toc_of_mem {item : Item} {base : BaseName} (h : Layout db H writers P d e records items)
    (hi : item ∈ items) (hb : item.base = some base) :
    ∃ n log, base = subTocName n ∧ d.toc ⟨db.directory, subTocName n⟩ = some log := by
  obtain ⟨r, -, hr⟩ := h.record_of_mem hi
  cases hr with
  | index => cases hb
  | subToc w n segs e records lt toc same shows => exact ⟨n, _, (Option.some.inj hb).symm, toc⟩
  | masked n log toc | clear n log toc => exact ⟨n, log, (Option.some.inj hb).symm, toc⟩

section Publish

variable {κ : StringDict} {x : Position} {r : TocRecord} {T : PathName → Prop}

theorem RecordShows.kept {keys : StringDict} {r : TocRecord} {item : Item} (h : RecordShows db P keys d r item)
    (hkeeps : d.Keeps (Held writers P w) T d')
    (hexists : ∀ n log, d.toc ⟨db.directory, subTocName n⟩ = some log →
      ∃ log', d'.toc ⟨db.directory, subTocName n⟩ = some log')
    (hsame : ∀ w n segs, item = .subToc w (subTocName n) segs →
      d'.toc ⟨db.directory, subTocName n⟩ = d.toc ⟨db.directory, subTocName n⟩) :
    RecordShows db (fun y => P y ∨ y = x) keys d' r item :=
  h.frame (fun _ => .inl) (fun p o hx => hkeeps.segment p o (.inl hx)) hkeeps.stamp hexists hsame

theorem Layout.schema_kept (h : Layout db H writers P d e records items) (hkeeps : d.Keeps (Held writers P w) T d') :
    d'.schema (TocHandler.schemaPath db.directory) = some db.schema := (hkeeps.schema _).trans h.schema

/-- Without sub-tocs the record of a flushed index goes to the end of the master toc. -/
theorem Layout.publish_master (h : Layout db H writers P d e records items) (hW : writers w = some W)
    (hkeeps : d.Keeps (Held writers P w) T d') (hrecord : IndexRecord db d' ⟨κ, H.pending w κ⟩ x r)
    (off : db.useSubToc = false) (same : W'.subTocWrite = W.subTocWrite)
    (after : ∀ q, d'.toc q = if q = db.tocPath then some (.init e :: records ++ [r]) else d.toc q) :
    Layout db (H.publish w κ) (Function.update writers w (some W')) (fun y => P y ∨ y = x) d' e (records ++ [r])
      (items ++ [.index w ⟨κ, H.pending w κ⟩]) := by
  have htoc : ∀ n, d'.toc ⟨db.directory, subTocName n⟩ = d.toc ⟨db.directory, subTocName n⟩ := fun n => by
    rw [after, if_neg (tocPath_ne n).symm]
  have hshows := h.shows
  rw [if_neg (by simp [off])] at hshows
  refine ⟨by rw [after, if_pos rfl]; rfl, h.canonical, h.key, h.schema_kept hkeeps, ?_, fun v V p hV => ?_,
    fun v u base segs segs' hv hu => ?_, fun base hb => ?_, fun base hb v segs hv => ?_,
    fun _ v base segs hv => ?_, ?_⟩
  · refine List.rel_append (h.records.imp fun r item hr => ?_) (.cons ?_ .nil)
    · exact hr.kept hkeeps (fun n log hl => ⟨log, (htoc n).trans hl⟩) fun _ n _ _ => htoc n
    · exact .index w _ x r (.inr rfl) hrecord
  · by_cases hv : v = w
    · subst hv
      rw [Function.update_self, Option.some.injEq] at hV
      rw [← hV, same, h.opened v W p hW]
      simp
    · rw [Function.update_of_ne hv] at hV
      rw [h.opened v V p hV]
      simp
  · exact h.distinct v u base segs segs' (by simpa using hv) (by simpa using hu)
  · exact List.mem_append_left _ (h.masked base (by simpa using hb))
  · exact h.clear base (by simpa using hb) v segs (by simpa using hv)
  · exact h.plain off v base segs (by simpa using hv)
  · rw [if_neg (by simp [off])]
    exact hshows.publish

/-- With sub-tocs it goes to the end of the writer's own one. -/
theorem Layout.publish_subToc {p : PathName} {log : List TocRecord} (h : Layout db H writers P d e records items)
    (hf : H.Facts) (hW : writers w = some W) (hkeeps : d.Keeps (Held writers P w) T d')
    (hrecord : IndexRecord db d' ⟨κ, H.pending w κ⟩ x r) (on : db.useSubToc = true)
    (same : W.subTocWrite = some p ∧ W'.subTocWrite = some p) (before : d.toc p = some log)
    (after : ∀ q, d'.toc q = if q = p then some (log ++ [r]) else d.toc q) :
    ∃ items', Layout db (H.publish w κ) (Function.update writers w (some W')) (fun y => P y ∨ y = x) d' e records
      items' := by
  obtain ⟨base, segs, rfl, hmem⟩ := (h.opened w W p hW).mp same.1
  obtain ⟨m, -, rfl, -⟩ := h.toc_of_mem hmem rfl
  obtain ⟨pre, post, rfl⟩ := List.append_of_mem hmem
  have hshows := h.shows
  rw [if_pos on] at hshows
  have htoc : ∀ n, subTocName n ≠ subTocName m →
      d'.toc ⟨db.directory, subTocName n⟩ = d.toc ⟨db.directory, subTocName n⟩ := fun n hn => by
    rw [after, if_neg fun he => hn (congrArg PathName.baseName he)]
  have hexists : ∀ n log, d.toc ⟨db.directory, subTocName n⟩ = some log →
      ∃ log', d'.toc ⟨db.directory, subTocName n⟩ = some log' := fun n log hl => by
    by_cases hn : subTocName n = subTocName m
    · exact ⟨_, by rw [after, if_pos (by rw [hn])]⟩
    · exact ⟨log, (htoc n hn).trans hl⟩
  have hitem : ∀ v b s, .subToc v b s ∈ pre ++ .subToc w (subTocName m) (segs ++ [⟨κ, H.pending w κ⟩]) :: post →
      ∃ s₀, .subToc v b s₀ ∈ pre ++ .subToc w (subTocName m) segs :: post := by
    intro v b s hi
    simp only [List.mem_append, List.mem_cons, Item.subToc.injEq] at hi
    rcases hi with hi | ⟨rfl, rfl, -⟩ | hi
    · exact ⟨s, by simp [hi]⟩
    · exact ⟨segs, by simp⟩
    · exact ⟨s, by simp [hi]⟩
  have hitem' : ∀ v b s, .subToc v b s ∈ pre ++ .subToc w (subTocName m) segs :: post →
      ∃ s₀, .subToc v b s₀ ∈ pre ++ .subToc w (subTocName m) (segs ++ [⟨κ, H.pending w κ⟩]) :: post := by
    intro v b s hi
    simp only [List.mem_append, List.mem_cons, Item.subToc.injEq] at hi
    rcases hi with hi | ⟨rfl, rfl, -⟩ | hi
    · exact ⟨s, by simp [hi]⟩
    · exact ⟨segs ++ [⟨κ, H.pending v κ⟩], by simp⟩
    · exact ⟨s, by simp [hi]⟩
  refine ⟨pre ++ .subToc w (subTocName m) (segs ++ [⟨κ, H.pending w κ⟩]) :: post, ?_, h.canonical, h.key,
    h.schema_kept hkeeps, forall₂_replace (fun r item hi hr => ?_) (fun r' hr => ?_) h.records,
    fun v V p hV => ?_, fun v u b s s' hv hu => ?_, fun b hb => ?_, fun b hb v s hv => ?_,
    fun hoff => absurd on (by simp [hoff]), ?_⟩
  · rw [after, if_neg (tocPath_ne m), h.toc]
  · refine hr.kept hkeeps hexists fun v n s he => htoc n ?_
    rw [he] at hi
    exact h.other_base on hi
  · cases hr with
    | subToc w n segs e' records' lt toc same shows =>
      obtain rfl : .init e' :: records' = log := by rwa [toc, Option.some.injEq] at before
      refine .subToc w m _ e' (records' ++ [r]) (Nat.lt_of_lt_of_le lt hkeeps.stamp) (by rw [after, if_pos rfl]; rfl)
        same (List.rel_append (shows.imp ?_) (.cons ⟨x, .inr rfl, hrecord⟩ .nil))
      rintro r seg ⟨y, hy, hr⟩
      exact ⟨y, .inl hy, hr.frame (hkeeps.segment _ _ (.inl hy))⟩
  · have hold : V.subTocWrite = some p ↔ ∃ base segs₀, p = ⟨db.directory, base⟩ ∧
        .subToc v base segs₀ ∈ pre ++ .subToc w (subTocName m) segs :: post := by
      by_cases hv : v = w
      · subst hv
        rw [Function.update_self, Option.some.injEq] at hV
        rw [← hV, same.2, ← same.1, h.opened v W p hW]
      · rw [Function.update_of_ne hv] at hV
        exact h.opened v V p hV
    rw [hold]
    refine exists_congr fun b => ⟨?_, ?_⟩
    · rintro ⟨s, rfl, hs⟩
      obtain ⟨s', hs'⟩ := hitem' v b s hs
      exact ⟨s', rfl, hs'⟩
    · rintro ⟨s, rfl, hs⟩
      obtain ⟨s', hs'⟩ := hitem v b s hs
      exact ⟨s', rfl, hs'⟩
  · obtain ⟨s₁, h₁⟩ := hitem v b s hv
    obtain ⟨s₂, h₂⟩ := hitem u b s' hu
    exact h.distinct v u b s₁ s₂ h₁ h₂
  · have := h.masked b (by simpa using hb)
    simpa using this
  · obtain ⟨s', hs'⟩ := hitem v b s hv
    exact h.clear b (by simpa using hb) v s' hs'
  · rw [if_pos on]
    exact hshows.publish hf

/-- The first record of a writer makes its sub-toc. -/
theorem Layout.publish_newSubToc {n : Nat} {e' : Key} (h : Layout db H writers P d e records items)
    (hf : H.Facts) (hw : w ∈ H.live) (hW : writers w = some W) (hkeeps : d.Keeps (Held writers P w) T d')
    (hrecord : IndexRecord db d' ⟨κ, H.pending w κ⟩ x r) (on : db.useSubToc = true)
    (unmade : W.subTocWrite = none) (made : W'.subTocWrite = some ⟨db.directory, subTocName n⟩)
    (lt : n < d'.stamp) (fresh : d.toc ⟨db.directory, subTocName n⟩ = none) (keys : e'.keys = e.keys)
    (after : ∀ q, d'.toc q = if q = ⟨db.directory, subTocName n⟩ then some [.init e', r]
      else if q = db.tocPath then some (.init e :: records ++ [.subToc (.relative (subTocName n))]) else d.toc q) :
    Layout db (H.publish w κ) (Function.update writers w (some W')) (fun y => P y ∨ y = x) d' e
      (records ++ [.subToc (.relative (subTocName n))])
      (items ++ [.subToc w (subTocName n) [⟨κ, H.pending w κ⟩]]) := by
  have hshows := h.shows
  rw [if_pos on] at hshows
  have hno : ∀ base segs, .subToc w base segs ∉ items := by
    intro base segs hi
    have := (h.opened w W ⟨db.directory, base⟩ hW).mpr ⟨base, segs, rfl, hi⟩
    rw [unmade] at this
    cases this
  have htoc : ∀ m log, d.toc ⟨db.directory, subTocName m⟩ = some log →
      d'.toc ⟨db.directory, subTocName m⟩ = some log := by
    intro m log hl
    rw [after, if_neg, if_neg (tocPath_ne m).symm, hl]
    rintro he
    rw [he, fresh] at hl
    cases hl
  have hfresh : ∀ item ∈ items, item.base ≠ some (subTocName n) := by
    intro item hi hb
    obtain ⟨m, log, hm, hl⟩ := h.toc_of_mem hi hb
    rw [← hm, fresh] at hl
    cases hl
  have hbegun : Shows H (items ++ [.subToc w (subTocName n) []]) := hshows.begin hf hw hno
  refine ⟨?_, h.canonical, h.key, h.schema_kept hkeeps, ?_, fun v V p hV => ?_, fun v u b s s' hv hu => ?_,
    fun b hb => ?_, fun b hb v s hv => ?_, fun hoff => absurd on (by simp [hoff]), ?_⟩
  · rw [after, if_neg (tocPath_ne n), if_pos rfl]
    rfl
  · refine List.rel_append (h.records.imp fun r item hr => ?_) (.cons ?_ .nil)
    · refine hr.kept hkeeps (fun m log hl => ⟨log, htoc m log hl⟩) ?_
      rintro v m segs rfl
      cases hr with
      | subToc w m segs e records lt toc same shows => rw [htoc m _ toc, toc]
    · exact .subToc w n _ e' [r] lt (by rw [after, if_pos rfl]) keys (.cons ⟨x, .inr rfl, hrecord⟩ .nil)
  · by_cases hv : v = w
    · subst hv
      rw [Function.update_self, Option.some.injEq] at hV
      rw [← hV, made]
      simp only [Option.some.injEq, List.mem_append, hno, List.mem_singleton, Item.subToc.injEq, true_and, false_or]
      constructor
      · rintro rfl
        exact ⟨_, _, rfl, rfl, rfl⟩
      · rintro ⟨b, s, rfl, rfl, rfl⟩
        rfl
    · rw [Function.update_of_ne hv] at hV
      rw [h.opened v V p hV]
      simp [hv]
  · simp only [List.mem_append, List.mem_singleton, Item.subToc.injEq] at hv hu
    rcases hv with hv | ⟨hvw, hvb, -⟩ <;> rcases hu with hu | ⟨huw, hub, -⟩
    · exact h.distinct v u b s s' hv hu
    · exact absurd (congrArg some hub) (hfresh _ hv)
    · exact absurd (congrArg some hvb) (hfresh _ hu)
    · exact hvw.trans huw.symm
  · exact List.mem_append_left _ (h.masked b (by simpa using hb))
  · have hclear : .clear b ∈ items := by simpa using hb
    simp only [List.mem_append, List.mem_singleton, Item.subToc.injEq] at hv
    rcases hv with hv | ⟨-, rfl, -⟩
    · exact h.clear b hclear v s hv
    · exact hfresh _ hclear rfl
  · rw [if_pos on]
    simpa using hbegun.publish hf (κ := κ)

end Publish

namespace Simulates

/-- A call of a writer that appends to no toc. -/
theorem quiet (h : Simulates db base H writers d) (hW : writers w = some W) {s : Key}
    {pending puts : StringDict → List Put} {x : WriterM Unit}
    (hx : ∀ P, WriterSim db (Held writers P w) (H.selected w) (H.pending w) (H.puts w) (W, d) →
      Ends x (W, d) (fun _ u => WriterSim db (Held writers P w) s pending puts u ∧
        d.Keeps (Held writers P w) (fun _ => True) u.2 ∧ u.1.subTocWrite = W.subTocWrite) fun _ _ => False)
    (hfacts : H'.Facts) (hbuilt : H'.built = H.built) (hlive : H'.live = H.live) (hmet : H'.met = H.met)
    (hflushed : H'.flushed = H.flushed) (harchived : ∀ a ∈ H.archived, a ∈ H'.archived)
    (harchivable : ∀ a ∈ H'.archived, a.put.Archivable db.version)
    (hown : H'.selected w = s ∧ H'.pending w = pending ∧ H'.puts w = puts)
    (hothers : ∀ v, v ≠ w → H'.selected v = H.selected v ∧ H'.pending v = H.pending v ∧ H'.puts v = H.puts v) :
    Ends x (W, d) (fun _ u => Simulates db base H' (Function.update writers w (some u.1)) u.2) fun _ _ => False := by
  obtain ⟨P, e, records, items, hrests, hshares, hlayout⟩ := h.layout
  obtain ⟨rfl, rfl, rfl⟩ := hown
  have hw : w ∈ H.live := (hshares.live w).mpr ⟨W, hW⟩
  refine (hx P (hshares.writer w W hW)).mono ?_ fun _ _ h => h
  rintro _ ⟨W', d'⟩ ⟨hsim, hkeeps, hsub⟩
  refine ⟨hfacts, fun v hv => ?_, harchivable, P, e, records, items,
    hrests.step hkeeps (fun _ => .inl) fun _ => id, ?_, ?_⟩
  · have hne : v ≠ w := by
      rintro rfl
      exact hv (hbuilt ▸ h.facts.built v hw)
    rw [(hothers v hne).1]
    exact h.selected v (hbuilt ▸ hv)
  · refine hshares.update hkeeps (fun W'' hW'' => ?_) (fun x hx => .inl hx) (fun p o hx => ?_) (fun v => ?_) hothers
    · obtain rfl : W' = W'' := Option.some.inj hW''
      exact hsim
    · obtain ⟨pages, hp⟩ := hshares.kept p o hx
      exact ⟨pages, (hkeeps.segment p o (.inl hx)).trans hp⟩
    · rw [hlive]
      by_cases hv : v = w
      · simp [hv, hw]
      · simp [hv]
  · exact hlayout.quiet hkeeps hW hsub (shows_mono hflushed harchived hmet hlive hlayout.shows)

theorem ends_selectIndex (h : Simulates db base H writers d) (hW : writers w = some W) (hk : key.Selectable)
    (hw : w ∈ H.live) : Ends (TocCatalogueWriter.selectIndex key) (W, d)
      (fun _ u => Simulates db base (H.step (.selectIndex w key)) (Function.update writers w (some u.1)) u.2)
      fun _ _ => False := by
  have hf := h.facts
  rw [History.step, if_pos hw]
  refine h.quiet hW (fun P hsim => ?_)
    ⟨hf.built, hf.nodup, hf.unbuilt, hf.puts, hf.flushed, hf.pending, hf.met, hf.tenure⟩ rfl rfl rfl rfl
    (fun _ ha => ha) h.archivable ⟨Function.update_self .., rfl, rfl⟩
    fun v hv => ⟨Function.update_of_ne hv .., rfl, rfl⟩
  refine (hsim.ends_selectIndex hk).mono ?_ fun _ _ h => h
  rintro _ u ⟨hu, hkeeps, hsub, -⟩
  exact ⟨hu, hkeeps, hsub⟩

theorem ends_deselectIndex (h : Simulates db base H writers d) (hW : writers w = some W) (hw : w ∈ H.live) :
    Ends TocCatalogueWriter.deselectIndex (W, d)
      (fun _ u => Simulates db base (H.step (.deselectIndex w)) (Function.update writers w (some u.1)) u.2)
      fun _ _ => False := by
  have hf := h.facts
  rw [History.step, if_pos hw]
  refine h.quiet hW (fun P hsim => ?_)
    ⟨hf.built, hf.nodup, hf.unbuilt, hf.puts, hf.flushed, hf.pending, hf.met, hf.tenure⟩ rfl rfl rfl rfl
    (fun _ ha => ha) h.archivable ⟨Function.update_self .., rfl, rfl⟩
    fun v hv => ⟨Function.update_of_ne hv .., rfl, rfl⟩
  refine hsim.ends_deselectIndex.mono ?_ fun _ _ h => h
  rintro _ u ⟨hu, hd, hsub⟩
  exact ⟨hu, by rw [hd]; exact .refl, hsub⟩

theorem ends_archive (h : Simulates db base H writers d) (hW : writers w = some W) {location : FieldLocation}
    (hp : Put.Archivable db.version ⟨key, location⟩) (hw : w ∈ H.live) (hne : (H.selected w).empty = false) :
    Ends (TocCatalogueWriter.archive key location) (W, d)
      (fun _ u => Simulates db base (H.step (.archive w key location)) (Function.update writers w (some u.1)) u.2)
      fun _ _ => False := by
  rw [History.step, if_pos ⟨hw, hne⟩]
  refine h.quiet hW (fun P hsim => ?_) (h.facts.archive hw) rfl rfl rfl rfl
    (fun _ ha => List.mem_append_left _ ha) (fun a ha => ?_)
    ⟨rfl, Function.update_self .., Function.update_self ..⟩
    fun v hv => ⟨rfl, Function.update_of_ne hv .., Function.update_of_ne hv ..⟩
  · exact hsim.ends_archive (p := ⟨key, location⟩) hne hp.storable
  · rcases List.mem_append.mp ha with ha | ha
    · exact h.archivable a ha
    · rw [List.mem_singleton.mp ha]
      exact hp

/-- Without a selected key the call throws, and nothing has changed but a flag. -/
theorem ends_archive_unselected (h : Simulates db base H writers d) (hW : writers w = some W)
    {location : FieldLocation} (he : (H.selected w).empty = true) :
    Ends (TocCatalogueWriter.archive key location) (W, d) (fun _ _ => False)
      (fun _ u => Simulates db base (H.step (.archive w key location)) (Function.update writers w (some u.1)) u.2) := by
  obtain ⟨P, e, records, items, hrests, hshares, hlayout⟩ := h.layout
  have hw : w ∈ H.live := (hshares.live w).mpr ⟨W, hW⟩
  rw [History.step, if_neg (by simp [he])]
  refine ((hshares.writer w W hW).ends_archive_unselected he).mono (fun _ _ h => h) ?_
  rintro _ ⟨W', d'⟩ ⟨hsim, hd, hsub⟩
  obtain rfl : d' = d := hd
  refine ⟨h.facts, h.selected, h.archivable, P, e, records, items, hrests, ?_, ?_⟩
  · refine hshares.update (T := fun _ => True) .refl (fun W'' hW'' => ?_) (fun x hx => .inl hx) hshares.kept
      (fun v => ?_) fun v _ => ⟨rfl, rfl, rfl⟩
    · obtain rfl : W' = W'' := Option.some.inj hW''
      exact hsim
    · by_cases hv : v = w
      · simp [hv, hw]
      · simp [hv]
  · exact hlayout.quiet .refl hW hsub hlayout.shows

/-- One turn of the loop of a flush. -/
theorem ends_flushIndex {κ : StringDict} (h : Simulates db base H writers d) (hW : writers w = some W) :
    Ends (TocCatalogueWriter.flushIndex (StringDict.order κ)) (W, d)
      (fun _ u => Simulates db base (H.publish w κ) (Function.update writers w (some u.1)) u.2) fun _ _ => False := by
  obtain ⟨P, e, records, items, hrests, hshares, hlayout⟩ := h.layout
  have hw : w ∈ H.live := (hshares.live w).mpr ⟨W, hW⟩
  have hputs : ∀ p ∈ H.pending w κ, p.Archivable db.version := fun p hp => by
    obtain ⟨a, ha, -, -, rfl⟩ := h.facts.pending w κ p hp
    exact h.archivable a ha
  refine ((hshares.writer w W hW).ends_flushIndex (hlayout.tocsOpen hW) hputs).mono ?_ fun _ _ h => h
  rintro _ ⟨W', d'⟩ (⟨hnone, he⟩ | ⟨-, x, r, hfl⟩)
  · obtain ⟨rfl, rfl⟩ := Prod.mk.inj he
    rw [Function.update_eq_self_iff.mpr hW.symm, History.publish_nil hnone]
    exact h
  · obtain ⟨hsim, -, hpub, hkeeps, hrecord, hapart⟩ := hfl
    refine ⟨h.facts.publish hw, h.selected, h.archivable, fun y => P y ∨ y = x, e, ?_⟩
    have hshares' : Shares db (H.publish w κ) (Function.update writers w (some W')) (fun y => P y ∨ y = x) d' := by
      refine hshares.update hkeeps (fun W'' hW'' => ?_) ?_ ?_ (fun v => ?_) fun v hv => ⟨rfl, ?_, rfl⟩
      · obtain rfl : W' = W'' := Option.some.inj hW''
        rw [show (H.publish w κ).pending w = Function.update (H.pending w) κ [] from Function.update_self ..]
        exact hsim.congr fun y => held_or.symm
      · rintro y (hy | rfl)
        · exact .inl hy
        · exact .inr hapart
      · rintro p o (hp | hp)
        · obtain ⟨pages, hs⟩ := hshares.kept p o hp
          exact ⟨pages, (hkeeps.segment p o (.inl hp)).trans hs⟩
        · exact hsim.kept (.inr hp)
      · by_cases hv : v = w
        · rw [if_pos hv, hv]
          exact ⟨fun _ => ⟨W', rfl⟩, fun _ => hw⟩
        · rw [if_neg hv]
          exact Iff.rfl
      · exact Function.update_of_ne hv ..
    have hrests' : Rests base (fun y => P y ∨ y = x) d' := hrests.step hkeeps (fun _ => .inl) fun _ => .inl
    cases hpub with
    | master log off same before after =>
      obtain rfl : .init e :: records = log := by rwa [hlayout.toc, Option.some.injEq] at before
      exact ⟨_, _, hrests', hshares', hlayout.publish_master hW hkeeps hrecord off same after⟩
    | subToc p log on same before after =>
      obtain ⟨items', hitems⟩ := hlayout.publish_subToc h.facts hW hkeeps hrecord on same before after
      exact ⟨_, items', hrests', hshares', hitems⟩
    | newSubToc n e₁ e' log on unmade made lt fresh before keys after =>
      obtain ⟨rfl, rfl⟩ : e = e₁ ∧ records = log := by simpa [hlayout.toc] using before
      exact ⟨_, _, hrests', hshares', hlayout.publish_newSubToc h.facts hw hW hkeeps hrecord on unmade made lt fresh keys after⟩

/-- The loop of a flush goes through the places of index keys. -/
theorem exists_keys {directory : String} {K : Position → Prop} {flushed pending : StringDict → List Put}
    {store : IndexStore} (h : StoreSim directory K flushed pending (store, d)) :
    ∃ κs : List StringDict, κs.map StringDict.order = store.keys ∧ κs.Nodup ∧
      ∀ κ, κ ∈ κs ↔ StringDict.order κ ∈ store := by
  obtain ⟨κs, hκs⟩ : store.keys ∈ Set.range (List.map StringDict.order) := by
    rw [Set.range_list_map]
    intro k hk
    obtain ⟨κ, rfl⟩ := h.key k (Std.ExtTreeMap.mem_keys.mp hk)
    exact ⟨κ, rfl⟩
  refine ⟨κs, hκs, List.Nodup.of_map StringDict.order (hκs ▸ Std.ExtTreeMap.nodup_keys), fun κ => ?_⟩
  rw [← Std.ExtTreeMap.mem_keys, ← hκs, List.mem_map]
  constructor
  · exact fun hκ => ⟨κ, hκ, rfl⟩
  · rintro ⟨κ', hκ', he⟩
    rwa [← StringDict.order_injective he]

theorem ends_flushIndexes {κs : List StringDict} (h : Simulates db base H writers d) (hW : writers w = some W) :
    Ends ((κs.map StringDict.order).forM TocCatalogueWriter.flushIndex) (W, d)
      (fun _ u => Simulates db base (κs.foldl (fun H κ => H.publish w κ) H) (Function.update writers w (some u.1)) u.2)
      fun _ _ => False := by
  induction κs generalizing H writers W d with
  | nil =>
    change Simulates db base H (Function.update writers w (some W)) d
    rw [Function.update_eq_self_iff.mpr hW.symm]
    exact h
  | cons κ κs ih =>
    change Ends (_ >>= fun _ => (κs.map StringDict.order).forM TocCatalogueWriter.flushIndex) _ _ _
    rw [ends_bind]
    refine (h.ends_flushIndex hW).mono ?_ fun _ _ h => h
    rintro _ ⟨W', d'⟩ h'
    have := ih h' (Function.update_self ..)
    simp only [Function.update_idem] at this
    exact this

/-- The flags that a flush leaves. -/
theorem ends_settle (h : Simulates db base H writers d) (hW : writers w = some W) (hp : ∀ κ, H.pending w κ = []) :
    Simulates db base H (Function.update writers w (some { W with dirty := false, current := none, currentFull := none }))
      d := by
  have hends := h.quiet (x := modify fun s : TocCatalogueWriter × Disk =>
      ({ s.1 with dirty := false, current := none, currentFull := none }, s.2)) hW (fun P hsim => ?_) h.facts rfl rfl
    rfl rfl (fun _ ha => ha) h.archivable ⟨rfl, rfl, rfl⟩ fun _ _ => ⟨rfl, rfl, rfl⟩
  · exact hends
  · obtain ⟨hdir, hver, hsub, hkey, hsel, hidx, hfull, -, -, -, hschema⟩ := hsim
    refine ⟨⟨hdir, hver, hsub, hkey, hsel, hidx, hfull, fun _ => hp, fun k hk => ?_, fun _ => ⟨rfl, fun k hk => ?_⟩, hschema⟩,
      .refl, rfl⟩
    · cases hk
    · cases hk

/-- A flush publishes what is pending in any index of the writer. -/
theorem ends_flush (h : Simulates db base H writers d) (hW : writers w = some W) :
    Ends TocCatalogueWriter.flush (W, d)
      (fun _ u => Simulates db base (H.flush w) (Function.update writers w (some u.1)) u.2) fun _ _ => False := by
  obtain ⟨P, e, records, items, hrests, hshares, hlayout⟩ := h.layout
  have hsim := hshares.writer w W hW
  rw [TocCatalogueWriter.flush]
  simp only [ends_bind, ends_get, ends_ite]
  refine ⟨fun hdirty => ?_, fun hclean => ?_⟩
  · rw [TocCatalogueWriter.flushIndexes]
    simp only [ends_bind, ends_get, ends_modify]
    obtain ⟨κs, hκs, -, hmem⟩ := exists_keys hsim.indexes
    rw [← hκs]
    refine (h.ends_flushIndexes hW).mono ?_ fun _ _ h => h
    rintro _ ⟨W', d'⟩ h'
    rw [History.flush_eq fun κ hne => (hmem κ).mpr (hsim.indexes.stored κ (by simpa using hne))] at h'
    have hnone : ∀ κ, (H.flush w).pending w κ = [] := fun κ => by simp [History.flush]
    have := h'.ends_settle (Function.update_self ..) hnone
    simp only [Function.update_idem] at this
    exact this
  · have hnone := hsim.dirty (by simpa using hclean)
    have hself : H.flush w = H := (History.flush_eq (l := []) fun κ hne => absurd (hnone κ) hne).symm
    rw [ends_pure, hself, Function.update_eq_self_iff.mpr hW.symm]
    exact h

end Simulates

end Calls

end Fdb5
