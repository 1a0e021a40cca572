import Mathlib.Data.List.TakeWhile
import Fdb5.Database.WriterDB
import Fdb5.Toc.ReadYourWrites

/-! The bytes that a reader gets after any calls on the DBs of a database. -/
namespace Fdb5

open Effect AppendStream LastWins

theorem PathName.asString_ofString {s : String} (h : '/' ∈ s.toList) : (PathName.ofString s).asString = s := by
  have hrest : (s.toList.reverse.dropWhile (· ≠ '/')) = '/' :: (s.toList.reverse.dropWhile (· ≠ '/')).drop 1 := by
    cases hd : s.toList.reverse.dropWhile (· ≠ '/') with
    | nil =>
      have := List.dropWhile_eq_nil_iff.mp hd '/' (List.mem_reverse.mpr h)
      simp at this
    | cons c l =>
      have hc := List.head?_dropWhile_not (· ≠ '/') s.toList.reverse
      rw [hd] at hc
      have hslash : c = '/' := by simpa using hc
      simp [hslash]
  have hsplit := List.takeWhile_append_dropWhile (p := (· ≠ '/')) (l := s.toList.reverse)
  rw [hrest] at hsplit
  have hwhole := congrArg List.reverse hsplit
  simp only [List.reverse_append, List.reverse_cons, List.reverse_reverse] at hwhole
  apply String.toList_injective
  simpa [asString, ofString] using hwhole

/-- Bytes that stand in a data file are read through their location. -/
theorem DataLocation.bytes_fieldLocation {l : DataLocation} {files : String → Option DataBytes} {data : DataBytes}
    (hpath : '/' ∈ l.path.toList) (hlength : l.length = data.length)
    (h : ReadsAt ((files l.path).getD []) l.offset data) : l.fieldLocation.bytes files = data := by
  have hread : l.fieldLocation.uri.path.asString = l.path := PathName.asString_ofString hpath
  have hall : l.fieldLocation.length = data.length := hlength
  rw [FieldLocation.bytes, hread, hall]
  exact h.2

theorem Put.bytes_found {p : Put} {files : String → Option DataBytes} : p.found.bytes files = p.location.bytes files := by
  simp only [FieldLocation.bytes, Put.found, UriStore.reread]
  split <;> rfl

/-- A call on the catalogue is none on the store. -/
theorem WriterDB.store_onCatalogue {α : Type} {x : WriterM α} {u : DbWorld} :
    Ends (onCatalogue x) u (fun _ t => t.db.store = u.db.store) fun _ t => t.db.store = u.db.store := by
  rw [onCatalogue, ends_focus]
  exact ends_iff.mpr ⟨fun _ _ _ => rfl, fun _ _ _ => rfl⟩

namespace DbSystem

variable (storeDirectory : String) (s : DbSystem)

/-- The writers alone. -/
def index : WriterSystem := ⟨s.built, fun w => (s.dbs w).map WriterDB.catalogue, s.disk⟩

/-- A data file as the store of a DB has it. -/
def file (w : Nat) (path : String) : Option DataBytes × FDBFileHandle :=
  ((s.dbs w).map fun D => (D.storeOf storeDirectory s.data).file path).getD (s.data path, {})

/-- Each store is sound, and no two have one file open. -/
structure Stores : Prop where
  sound : ∀ w D, s.dbs w = some D → (D.storeOf storeDirectory s.data).Sound
  deleted : ∀ w D, s.dbs w = some D → ∀ path, ((D.storeOf storeDirectory s.data).handle path).deleted = false
  placed : ∀ w D, s.dbs w = some D → (D.storeOf storeDirectory s.data).Placed
  cached : ∀ w D, s.dbs w = some D → (D.storeOf storeDirectory s.data).Cached
  apart : ∀ v w D E path, v ≠ w → s.dbs v = some D → s.dbs w = some E → path ∈ (D.storeOf storeDirectory s.data).handles →
    path ∉ (E.storeOf storeDirectory s.data).handles

/-- No byte is lost, of those in the files and of those that wait. -/
structure Grows (t : DbSystem) : Prop where
  data : ∀ path, (s.data path).getD [] <+: (t.data path).getD []
  file : ∀ w path, FDBFileHandle.bytes (s.file storeDirectory w path) <+: FDBFileHandle.bytes (t.file storeDirectory w path)

variable {storeDirectory s} {t : DbSystem} {D E : WriterDB} {v w : Nat} {W : TocCatalogueWriter} {d : Disk}
  {S : String → Prop} {T : TocStore} {path : String} {data : String → Option DataBytes}

theorem Grows.refl : s.Grows storeDirectory s := ⟨fun _ => List.prefix_rfl, fun _ _ => List.prefix_rfl⟩

@[simp] theorem dbs_put {u : DbWorld} : (s.put w u).dbs v = if v = w then some u.db else s.dbs v :=
  Function.update_apply ..

@[simp] theorem data_put {u : DbWorld} : (s.put w u).data = u.data := rfl

@[simp] theorem put_put {u u' : DbWorld} : (s.put w u).put w u' = s.put w u' := by simp [put]

theorem onDb_none {x : WriterDB.Act Unit} (hD : s.dbs w = none) :
    s.onDb w x = (s, some (.undefinedBehaviour "deleted DB")) := by
  rw [onDb, hD]

theorem onDb_ok {x : WriterDB.Act Unit} {u : DbWorld} (hD : s.dbs w = some D)
    (hx : x.run ⟨D, s.disk, s.data⟩ = .ok () u) : s.onDb w x = (s.put w u, none) := by
  simp only [onDb, hD, hx]

theorem file_some (hD : s.dbs w = some D) : s.file storeDirectory w path = (D.storeOf storeDirectory s.data).file path := by
  simp [file, hD]

/-- A call on the catalogue of a DB leaves the files as they are. -/
theorem grows_catalogue (hD : s.dbs w = some D) :
    s.Grows storeDirectory (s.put w ⟨{ D with catalogue := W }, d, s.data⟩) := by
  refine ⟨fun path => List.prefix_rfl, fun v path => ?_⟩
  by_cases hv : v = w
  · subst hv
    rw [file_some hD, file_some (D := { D with catalogue := W }) (by simp)]
    exact List.prefix_rfl
  · simp [file, hv]

/-- DBs that have the same stores, up to the catalogues. -/
theorem stores_congr (hdata : t.data = s.data)
    (hold : ∀ v E, t.dbs v = some E → E.store = none ∨ ∃ F, s.dbs v = some F ∧ E.store = F.store)
    (h : s.Stores storeDirectory) : t.Stores storeDirectory := by
  have hstore : ∀ v E, t.dbs v = some E → E.storeOf storeDirectory t.data = { directory := storeDirectory, disk := s.data } ∨
      ∃ F, s.dbs v = some F ∧ E.storeOf storeDirectory t.data = F.storeOf storeDirectory s.data := by
    intro v E hE
    rw [hdata]
    rcases hold v E hE with hnone | ⟨F, hF, heq⟩
    · exact .inl (by simp [WriterDB.storeOf, hnone])
    · exact .inr ⟨F, hF, by simp [WriterDB.storeOf, heq]⟩
  constructor
  · intro v E hE
    rcases hstore v E hE with heq | ⟨F, hF, heq⟩
    · rw [heq]
      exact fun path => ⟨by simp [TocStore.file, TocStore.handle], by simp [TocStore.file, TocStore.handle]⟩
    · exact heq ▸ h.sound v F hF
  · intro v E hE
    rcases hstore v E hE with heq | ⟨F, hF, heq⟩
    · simp [heq, TocStore.handle]
    · exact heq ▸ h.deleted v F hF
  · intro v E hE
    rcases hstore v E hE with heq | ⟨F, hF, heq⟩
    · simp [heq, TocStore.Placed]
    · exact heq ▸ h.placed v F hF
  · intro v E hE
    rcases hstore v E hE with heq | ⟨F, hF, heq⟩
    · simp [heq, TocStore.Cached]
    · exact heq ▸ h.cached v F hF
  · intro u v E E' path hne hE hE' hpath
    rcases hstore u E hE with heq | ⟨F, hF, heq⟩
    · simp [heq] at hpath
    rcases hstore v E' hE' with heq' | ⟨F', hF', heq'⟩
    · simp [heq']
    · rw [heq] at hpath
      rw [heq']
      exact h.apart u v F F' path hne hF hF' hpath

theorem storeOf_disk (data : String → Option DataBytes) {data' : String → Option DataBytes} :
    E.storeOf storeDirectory data' = { E.storeOf storeDirectory data with disk := data' } := by
  obtain ⟨W, _ | T⟩ := E <;> rfl

theorem file_storeOf (data : String → Option DataBytes) {data' : String → Option DataBytes} :
    (E.storeOf storeDirectory data').file path = (data' path, (E.storeOf storeDirectory data).handle path) := by
  rw [storeOf_disk data]
  rfl

theorem handle_of_not_mem (h : path ∉ T.handles) : T.handle path = {} := by
  simp [TocStore.handle, h]

@[simp] theorem bytes_closed {bytes : Option DataBytes} : FDBFileHandle.bytes (bytes, {}) = bytes.getD [] := by
  simp [FDBFileHandle.bytes, contents]

/-- A call of the store of one DB on files that no other store has open. -/
theorem Stores.onStore (h : s.Stores storeDirectory) (hD : s.dbs w = some D)
    (htouches : TocStore.Touches S (D.storeOf storeDirectory s.data) T) (hsound : T.Sound) (hcached : T.Cached)
    (hgrows : TocStore.Grows (D.storeOf storeDirectory s.data) T)
    (hfree : ∀ v E, v ≠ w → s.dbs v = some E → ∀ path, S path → path ∉ (E.storeOf storeDirectory s.data).handles) :
    (s.put w ⟨{ D with store := some T }, d, T.disk⟩).Stores storeDirectory ∧
      s.Grows storeDirectory (s.put w ⟨{ D with store := some T }, d, T.disk⟩) := by
  have hcases : ∀ v E, (s.put w ⟨{ D with store := some T }, d, T.disk⟩).dbs v = some E →
      (v = w ∧ E.storeOf storeDirectory T.disk = T) ∨ (v ≠ w ∧ s.dbs v = some E ∧
        E.storeOf storeDirectory T.disk = { E.storeOf storeDirectory s.data with disk := T.disk }) := by
    intro v E hE
    by_cases hv : v = w
    · subst hv
      rw [dbs_put, if_pos rfl, Option.some.injEq] at hE
      exact .inl ⟨rfl, hE ▸ rfl⟩
    · rw [dbs_put, if_neg hv] at hE
      exact .inr ⟨hv, hE, storeOf_disk s.data⟩
  have hother : ∀ v E, v ≠ w → s.dbs v = some E → ∀ path ∈ (E.storeOf storeDirectory s.data).handles,
      T.disk path = s.data path := by
    intro v E hv hE path hpath
    exact htouches.disk path fun hS => hfree v E hv hE path hS hpath
  refine ⟨⟨?_, ?_, ?_, ?_, ?_⟩, fun path => hgrows.disk path, ?_⟩
  · intro v E hE path
    rcases hcases v E hE with ⟨-, heq⟩ | ⟨hv, hE, heq⟩
    · exact heq ▸ hsound path
    change FDBFileHandle.Good (E.storeOf storeDirectory T.disk).dirty ((E.storeOf storeDirectory T.disk).file path)
    rw [file_storeOf s.data, heq]
    by_cases hpath : path ∈ (E.storeOf storeDirectory s.data).handles
    · rw [hother v E hv hE path hpath]
      exact h.sound v E hE path
    · rw [handle_of_not_mem hpath]
      exact ⟨by simp, by simp⟩
  · intro v E hE path
    rcases hcases v E hE with ⟨-, heq⟩ | ⟨-, hE, heq⟩
    · exact heq ▸ htouches.deleted (h.deleted w D hD) path
    · exact heq ▸ h.deleted v E hE path
  · intro v E hE
    rcases hcases v E hE with ⟨-, heq⟩ | ⟨-, hE, heq⟩
    · exact heq ▸ htouches.placed (h.placed w D hD)
    · exact heq ▸ h.placed v E hE
  · intro v E hE
    rcases hcases v E hE with ⟨-, heq⟩ | ⟨-, hE, heq⟩
    · exact heq ▸ hcached
    · exact heq ▸ h.cached v E hE
  · intro u v E E' path hne hE hE' hpath
    change path ∈ (E.storeOf storeDirectory T.disk).handles at hpath
    change path ∉ (E'.storeOf storeDirectory T.disk).handles
    rcases hcases u E hE with ⟨hu, heq⟩ | ⟨hu, hE, heq⟩ <;> rcases hcases v E' hE' with ⟨hv, heq'⟩ | ⟨hv, hE', heq'⟩ <;>
      rw [heq] at hpath <;> rw [heq']
    · exact absurd (hu.trans hv.symm) hne
    · rcases htouches.handles path hpath with hold | hS
      · exact h.apart w v D E' path (Ne.symm hv) hD hE' hold
      · exact hfree v E' hv hE' path hS
    · intro hmem
      rcases htouches.handles path hmem with hold | hS
      · exact h.apart u w E D path hu hE hD hpath hold
      · exact hfree u E hu hE path hS hpath
    · exact h.apart u v E E' path hne hE hE' hpath
  · intro v path
    by_cases hv : v = w
    · subst hv
      rw [file_some hD, file_some (D := { D with store := some T }) (by simp)]
      exact hgrows.bytes path
    cases hE : s.dbs v with
    | none =>
      simp only [file, dbs_put, if_neg hv, hE, Option.map_none, Option.getD_none, bytes_closed]
      exact hgrows.disk path
    | some E =>
      rw [file_some hE, file_some (D := E) (by simp [hv, hE])]
      change _ <+: FDBFileHandle.bytes ((E.storeOf storeDirectory T.disk).file path)
      rw [file_storeOf s.data, file_storeOf s.data]
      by_cases hpath : path ∈ (E.storeOf storeDirectory s.data).handles
      · simp only [hother v E hv hE path hpath, List.prefix_rfl]
      · rw [handle_of_not_mem hpath, bytes_closed, bytes_closed]
        exact hgrows.disk path

end DbSystem

/-- The location that the index has for a field, at which its bytes stand in the files. -/
def Located (files : String → DataBytes) (p : Put) (field : Key × DataBytes) : Prop :=
  ∃ l : DataLocation, p = ⟨field.1, l.fieldLocation⟩ ∧ '/' ∈ l.path.toList ∧ l.length = field.2.length ∧
    ReadsAt (files l.path) l.offset field.2

/-- What was called on the writers beside what was called on the DBs. -/
structure Matches (storeDirectory : String) (s : DbSystem) (G : History) (H : DbHistory) : Prop where
  built : H.built = G.built
  live : H.live = G.live
  met : H.met = G.met
  selected : H.selected = G.selected
  archived : H.archived = G.archived.map fun a => ⟨a.writer, a.index, a.put.key⟩
  pending : ∀ w κ, List.Forall₂ (Located fun path => FDBFileHandle.bytes (s.file storeDirectory w path))
    (G.pending w κ) (H.pending w κ)
  flushed : ∀ κ, List.Forall₂ (Located fun path => (s.data path).getD []) ((G.flushed κ).map (·.2)) (H.flushed κ)

section Matches

variable {storeDirectory : String} {s t : DbSystem} {G : History} {H : DbHistory} {files files' : String → DataBytes}
  {p : Put} {field : Key × DataBytes} {w : Nat} {key : Key} {data : DataBytes} {l : DataLocation}

theorem Located.extend (h : Located files p field) (hfiles : ∀ path, files path <+: files' path) : Located files' p field := by
  obtain ⟨l, hp, hpath, hlength, hreads⟩ := h
  exact ⟨l, hp, hpath, hlength, hreads.extend (hfiles l.path)⟩

theorem Located.bytes {data : String → Option DataBytes} (h : Located (fun path => (data path).getD []) p field) :
    p.found.bytes data = field.2 := by
  obtain ⟨l, rfl, hpath, hlength, hreads⟩ := h
  exact Put.bytes_found.trans (l.bytes_fieldLocation hpath hlength hreads)

theorem Matches.grows (h : Matches storeDirectory s G H) (hgrows : s.Grows storeDirectory t) :
    Matches storeDirectory t G H :=
  ⟨h.built, h.live, h.met, h.selected, h.archived,
    fun w κ => (h.pending w κ).imp fun _ _ hp => hp.extend (hgrows.file w),
    fun κ => (h.flushed κ).imp fun _ _ hp => hp.extend hgrows.data⟩

theorem Matches.build (h : Matches storeDirectory s G H) : Matches storeDirectory s (G.step (.build w key)) (H.build w) := by
  rw [History.step, DbHistory.build, h.built]
  split
  · exact h
  · exact ⟨rfl, congrArg (w :: ·) h.live, by simp [h.met, h.live], h.selected, h.archived, h.pending, h.flushed⟩

theorem Matches.selectIndex (h : Matches storeDirectory s G H) (hw : w ∈ G.live) :
    Matches storeDirectory s (G.step (.selectIndex w key)) { H with selected := Function.update H.selected w key } := by
  rw [History.step, if_pos hw]
  exact ⟨h.built, h.live, h.met, by simp [h.selected], h.archived, h.pending, h.flushed⟩

theorem Matches.deselectIndex (h : Matches storeDirectory s G H) (hw : w ∈ G.live) :
    Matches storeDirectory s (G.step (.deselectIndex w)) { H with selected := Function.update H.selected w {} } := by
  rw [History.step, if_pos hw]
  exact ⟨h.built, h.live, h.met, by simp [h.selected], h.archived, h.pending, h.flushed⟩

theorem Matches.archive (h : Matches storeDirectory s G H) (hw : w ∈ G.live) (hne : (G.selected w).empty = false)
    (hl : Located (fun path => FDBFileHandle.bytes (s.file storeDirectory w path)) ⟨key, l.fieldLocation⟩ (key, data)) :
    Matches storeDirectory s (G.step (.archive w key l.fieldLocation)) (H.archive w (key, data)) := by
  rw [History.step, if_pos ⟨hw, hne⟩]
  refine ⟨h.built, h.live, h.met, h.selected, by simp [DbHistory.archive, History.archive, h.archived, h.selected],
    fun v κ => ?_, h.flushed⟩
  simp only [DbHistory.archive, History.archive, h.selected]
  by_cases hv : v = w
  · subst hv
    simp only [Function.update_self]
    by_cases hκ : κ = (G.selected v).keys
    · subst hκ
      simp only [Function.update_self]
      exact List.rel_append (h.pending v _) (.cons hl .nil)
    · simp only [Function.update_of_ne hκ]
      exact h.pending v κ
  · simp only [Function.update_of_ne hv]
    exact h.pending v κ

theorem Matches.flush (h : Matches storeDirectory s G H)
    (hw : ∀ path, FDBFileHandle.bytes (s.file storeDirectory w path) = (s.data path).getD []) :
    Matches storeDirectory s (G.flush w) (H.flush w) := by
  refine ⟨h.built, h.live, h.met, h.selected, h.archived, fun v κ => ?_, fun κ => ?_⟩
  · simp only [DbHistory.flush, History.flush]
    by_cases hv : v = w
    · subst hv
      simp
    · simp only [Function.update_of_ne hv]
      exact h.pending v κ
  · simp only [DbHistory.flush, History.flush, List.map_append, List.map_map]
    refine List.rel_append (h.flushed κ) ?_
    have hpending := h.pending w κ
    simp only [hw] at hpending
    simpa [Function.comp_def] using hpending

end Matches

theorem History.of_concat {calls : List Call} {c : Call} : History.of (calls ++ [c]) = (History.of calls).step c :=
  List.foldl_append

/-- The DBs are what the calls on the writers and the fields in the stores make of them. -/
structure Holds (db : Database) (storeDirectory : String) (d₀ : Disk) (s : DbSystem) (H : DbHistory) (calls : List Call) :
    Prop where
  index : s.index = db.runCalls d₀ calls
  proper : ∀ c ∈ calls, c.Proper db.version db.key.keys
  stores : s.Stores storeDirectory
  fields : Matches storeDirectory s (History.of calls) H

namespace Holds

variable {db : Database} {storeDirectory : String} {d₀ : Disk} {s : DbSystem} {H H' : DbHistory} {calls : List Call} {c : Call}
  {w : Nat} {D : WriterDB} {W : TocCatalogueWriter} {d : Disk} {x : WriterM Unit} {u : TocCatalogueWriter × Disk}

theorem tracks (h : Holds db storeDirectory d₀ s H calls) (hd : db.Absent d₀) :
    Tracks db (fun _ => none) d₀ (History.of calls) s.index := by
  rw [h.index]
  exact tracks_runCalls hd h.proper

/-- A DB that is open has an open writer. -/
theorem present (h : Holds db storeDirectory d₀ s H calls) (hd : db.Absent d₀)
    (hD : s.dbs w = some D) : w ∈ (History.of calls).live ∧
      Simulates db (fun _ => none) (History.of calls) s.index.writers s.disk ∧ s.index.writers w = some D.catalogue := by
  have hW : s.index.writers w = some D.catalogue := by simp [DbSystem.index, hD]
  have hw : w ∈ (History.of calls).live := by
    by_contra hw
    rw [(h.tracks hd).absent hw] at hW
    cases hW
  exact ⟨hw, ((h.tracks hd).present hw).1, hW⟩

theorem built (h : Holds db storeDirectory d₀ s H calls) (hd : db.Absent d₀)
    (hD : s.dbs w = some D) : w ∈ s.built := by
  obtain ⟨hw, hsim, -⟩ := h.present hd hD
  have hbuilt : s.built = (History.of calls).built := (h.tracks hd).built
  rw [hbuilt]
  exact hsim.facts.built w hw

/-- What has been called on the catalogue of a DB was called on its writer. -/
theorem catalogue (h : Holds db storeDirectory d₀ s H calls) (hD : s.dbs w = some D) (hc : c.Proper db.version db.key.keys)
    (hstep : db.step s.index c = Database.onWriter s.index w x) (hx : x.run (D.catalogue, s.disk) = .ok () u)
    (hfields : Matches storeDirectory s ((History.of calls).step c) H') :
    Holds db storeDirectory d₀ (s.put w ⟨{ D with catalogue := u.1 }, u.2, s.data⟩) H' (calls ++ [c]) := by
  constructor
  · rw [Database.runCalls, List.foldl_append]
    change _ = db.step (db.runCalls d₀ calls) c
    rw [← h.index, hstep, Database.onWriter]
    have hW : s.index.writers w = some D.catalogue := by simp [DbSystem.index, hD]
    have hrun : x.run (D.catalogue, s.index.disk) = .ok () u := hx
    simp only [hW, hrun, final_ok]
    simp only [DbSystem.index, DbSystem.put, WriterSystem.mk.injEq, true_and, and_true]
    funext v
    by_cases hv : v = w <;> simp [hv]
  · intro c' hc'
    rcases List.mem_append.mp hc' with hc' | hc'
    · exact h.proper c' hc'
    · exact List.mem_singleton.mp hc' ▸ hc
  · refine DbSystem.stores_congr (s := s) rfl (fun v E hE => ?_) h.stores
    by_cases hv : v = w
    · subst hv
      rw [DbSystem.dbs_put, if_pos rfl, Option.some.injEq] at hE
      exact .inr ⟨D, hD, hE ▸ rfl⟩
    · rw [DbSystem.dbs_put, if_neg hv] at hE
      exact .inr ⟨E, hE, rfl⟩
  · rw [History.of_concat]
    exact hfields.grows (DbSystem.grows_catalogue hD)

/-- The same of a call that returns. -/
theorem ends_catalogue (h : Holds db storeDirectory d₀ s H calls) (hD : s.dbs w = some D) (hc : c.Proper db.version db.key.keys)
    (hstep : db.step s.index c = Database.onWriter s.index w x)
    (hx : ∃ a u, x.run (D.catalogue, s.disk) = .ok a u)
    (hfields : Matches storeDirectory s ((History.of calls).step c) H') :
    Ends (WriterDB.onCatalogue x) ⟨D, s.disk, s.data⟩
      (fun _ t => Holds db storeDirectory d₀ (s.put w t) H' (calls ++ [c])) fun _ _ => False := by
  obtain ⟨_, u, hrun⟩ := hx
  rw [WriterDB.onCatalogue, ends_focus, ends_run_ok hrun]
  exact h.catalogue hD hc hstep hrun hfields

theorem put_self (hD : s.dbs w = some D) : s.put w ⟨D, s.disk, s.data⟩ = s := by
  simp [DbSystem.put, ← hD]

/-- `currentIndex()` selects at most what is selected already. -/
theorem ends_currentIndex (h : Holds db storeDirectory d₀ s H calls) (hd : db.Absent d₀)
    (hD : s.dbs w = some D) : Ends TocCatalogueWriter.currentIndex (D.catalogue, s.disk)
      (fun idxKey u => idxKey.keys = D.catalogue.currentIndexKey.keys ∧
        ∃ calls', Holds db storeDirectory d₀ (s.put w ⟨{ D with catalogue := u.1 }, u.2, s.data⟩) H calls' ∧
          ((History.of calls').selected w).empty = false)
      fun _ u => u = (D.catalogue, s.disk) := by
  obtain ⟨hw, hsim, hW⟩ := h.present hd hD
  obtain ⟨P, e, records, items, -, hshares, -⟩ := hsim.layout
  have hwriter := hshares.writer w D.catalogue hW
  have hselected : D.catalogue.currentIndexKey = (History.of calls).selected w := hwriter.key
  rw [TocCatalogueWriter.currentIndex]
  simp only [ends_bind, ends_map, ends_get, ends_ite]
  refine ⟨fun hnone => ?_, fun hsome => ?_⟩
  · rw [ends_ensure]
    refine ⟨fun hne => ?_, fun _ => rfl⟩
    rw [hselected] at hne
    have hselectable := hwriter.selectable hne
    obtain ⟨_, u, hrun, hu⟩ := (hwriter.ends_selectIndex hselectable).returns
    rw [hselected, ends_run_ok hrun]
    obtain ⟨hwriter', -, -, hcurrent, -⟩ := hu
    obtain ⟨-, hmem, -⟩ := hwriter'.current _ hcurrent
    obtain ⟨idx, hidx⟩ := Std.ExtTreeMap.isSome_getElem?_iff_mem.mpr hmem |> Option.isSome_iff_exists.mp
    simp only [hcurrent, Option.bind_some, hidx, ends_pure]
    have hstep : (History.of calls).step (.selectIndex w ((History.of calls).selected w)) = History.of calls := by
      rw [History.step, if_pos hw, Function.update_eq_self]
    refine ⟨(hwriter'.indexes.index _ idx hidx).keys,
      calls ++ [.selectIndex w ((History.of calls).selected w)], h.catalogue (c := .selectIndex w _) hD hselectable rfl hrun ?_, ?_⟩
    · rw [hstep]
      exact h.fields
    · rw [History.of_concat, hstep]
      exact hne
  · obtain ⟨k, hcurrent⟩ := Option.ne_none_iff_exists'.mp (by simpa using hsome)
    obtain ⟨rfl, hmem, hne⟩ := hwriter.current k hcurrent
    obtain ⟨idx, hidx⟩ := Std.ExtTreeMap.isSome_getElem?_iff_mem.mpr hmem |> Option.isSome_iff_exists.mp
    have hindex : D.catalogue.indexes[((History.of calls).selected w).order]? = some idx := hidx
    simp only [hcurrent, Option.bind_some, hindex, ends_pure]
    refine ⟨(hwriter.indexes.index _ idx hidx).keys.trans (by rw [hselected]), calls, ?_, hne⟩
    rw [put_self hD]
    exact h

/-- A call of the store of a DB, on files that no other store has open. -/
theorem store {S : String → Prop} {T : TocStore} (h : Holds db storeDirectory d₀ s H calls) (hD : s.dbs w = some D)
    (htouches : TocStore.Touches S (D.storeOf storeDirectory s.data) T) (hsound : T.Sound) (hcached : T.Cached)
    (hgrows : TocStore.Grows (D.storeOf storeDirectory s.data) T)
    (hfree : ∀ v E, v ≠ w → s.dbs v = some E → ∀ path, S path → path ∉ (E.storeOf storeDirectory s.data).handles) :
    Holds db storeDirectory d₀ (s.put w ⟨{ D with store := some T }, s.disk, T.disk⟩) H calls := by
  obtain ⟨hstores, hmore⟩ := h.stores.onStore (d := s.disk) hD htouches hsound hcached hgrows hfree
  refine ⟨?_, h.proper, hstores, h.fields.grows hmore⟩
  rw [← h.index]
  simp only [DbSystem.index, DbSystem.put, WriterSystem.mk.injEq, true_and, and_true]
  funext v
  by_cases hv : v = w <;> simp [hv, hD]

/-- The store takes a field, in a file that no other store has open. -/
theorem ends_storeArchive {idxKey : Key} (key : Key) {data : DataBytes} {a : TocStore.Archiving}
    (h : Holds db storeDirectory d₀ s H calls) (hD : s.dbs w = some D)
    (hsafe : ∀ path, (D.storeOf storeDirectory s.data).dataPath idxKey a.unique = .ok path →
      (∀ v, v ≠ w → ∀ E ∈ s.dbs v, ∀ S ∈ E.store, path ∉ S.handles) ∧
      ∀ stream ∈ ((D.storeOf storeDirectory s.data).handle path).file, stream.short = true → a.fwrite.taken < data.length) :
    Ends (TocStore.archive idxKey data a) (D.storeOf storeDirectory s.data)
      (fun l T => Holds db storeDirectory d₀ (s.put w ⟨{ D with store := some T }, s.disk, T.disk⟩) H calls ∧
        Located (fun path => FDBFileHandle.bytes (T.file path)) ⟨key, l.fieldLocation⟩ (key, data))
      fun _ T => Holds db storeDirectory d₀ (s.put w ⟨{ D with store := some T }, s.disk, T.disk⟩) H calls := by
  have hfree : ∀ v E, v ≠ w → s.dbs v = some E → ∀ path,
      (D.storeOf storeDirectory s.data).dataPath idxKey a.unique = .ok path →
        path ∉ (E.storeOf storeDirectory s.data).handles := by
    intro v E hv hE path hp
    obtain ⟨W, _ | S⟩ := E
    · simp [WriterDB.storeOf]
    · exact (hsafe path hp).1 v hv _ hE S rfl
  have hstore := (TocStore.ends_archive (h.stores.sound w D hD)
    fun path hp => ⟨h.stores.deleted w D hD path, (hsafe path hp).2⟩).and
      ((TocStore.touches_archive.and TocStore.ends_archive_path).and (TocStore.cached_archive (h.stores.cached w D hD)))
  refine hstore.mono ?_ ?_
  · rintro l T ⟨⟨hsound, hgrows, hlength, hoffset, hbytes⟩, ⟨htouches, hpath⟩, hcached⟩
    refine ⟨h.store hD htouches hsound hcached hgrows hfree, l, rfl,
      TocStore.dataPath_placed (h.stores.placed w D hD) hpath, hlength, ?_⟩
    change ReadsAt (FDBFileHandle.bytes (T.file l.path)) l.offset data
    rw [hbytes, hoffset]
    exact readsAt_end
  · rintro _ T ⟨⟨hsound, hgrows⟩, ⟨htouches, -⟩, hcached⟩
    exact h.store hD htouches hsound hcached hgrows hfree

/-- A field goes to a file that no other store has open. -/
theorem dataPath_free {idxKey : Key} {data : DataBytes} {a : TocStore.Archiving} {path : String}
    (h : Holds db storeDirectory d₀ s H calls) (hd : db.Absent d₀) (hD : s.dbs w = some D)
    (hpath : (D.storeOf storeDirectory s.data).dataPath idxKey a.unique = .ok path) (hunused : s.Unused a.unique)
    (htakes : ∀ S, D.store = some S → S.Takes idxKey.keys data a) :
    (∀ v, v ≠ w → ∀ E ∈ s.dbs v, ∀ S ∈ E.store, path ∉ S.handles) ∧
      ∀ stream ∈ ((D.storeOf storeDirectory s.data).handle path).file, stream.short = true → a.fwrite.taken < data.length := by
  have hnew : (D.storeOf storeDirectory s.data).dataPaths.find? (fun e => e.1 = idxKey.keys) = none →
      ∀ v, ∀ E ∈ s.dbs v, ∀ S ∈ E.store, path ∉ S.handles := by
    intro hnone v E hE S hS hmem
    rw [TocStore.dataPath, hnone] at hpath
    exact hunused v (h.built hd hE) E hE S hS path (Std.ExtTreeMap.mem_keys.mpr hmem) (TocStore.generateDataPath_suffix hpath)
  cases hfind : (D.storeOf storeDirectory s.data).dataPaths.find? (fun e => e.1 = idxKey.keys) with
  | none =>
    refine ⟨fun v _ => hnew hfind v, fun stream hstream => ?_⟩
    obtain ⟨W, _ | S⟩ := D
    · simp [WriterDB.storeOf, TocStore.handle] at hstream
    · have hnot : path ∉ ((⟨W, some S⟩ : WriterDB).storeOf storeDirectory s.data).handles := hnew hfind w _ hD S rfl
      rw [DbSystem.handle_of_not_mem hnot] at hstream
      cases hstream
  | some e =>
    rw [TocStore.dataPath, hfind] at hpath
    obtain rfl := Except.ok.inj hpath
    have hmem := List.mem_of_find?_eq_some hfind
    have hindex : e.1 = idxKey.keys := by simpa using List.find?_some hfind
    refine ⟨fun v hv E hE S hS hcontra => ?_, fun stream hstream => ?_⟩
    · obtain ⟨V, _ | S'⟩ := E
      · cases hS
      · obtain rfl : S' = S := Option.some.inj hS
        exact h.stores.apart w v D _ e.2 hv.symm hD hE (h.stores.cached w D hD e hmem) hcontra
    · obtain ⟨W, _ | S⟩ := D
      · simp [WriterDB.storeOf] at hmem
      · exact htakes S rfl e hmem hindex stream hstream

theorem ends_archive {key : Key} {data : DataBytes} {a : TocStore.Archiving} (h : Holds db storeDirectory d₀ s H calls)
    (hd : db.Absent d₀) (hD : s.dbs w = some D)
    (hsafe : s.Safe db (.archive w key data a)) :
    Ends (WriterDB.archive storeDirectory key data a) ⟨D, s.disk, s.data⟩
      (fun _ t => ∃ calls', Holds db storeDirectory d₀ (s.put w t) (H.archive w (key, data)) calls')
      fun _ t => ∃ calls', Holds db storeDirectory d₀ (s.put w t) H calls' := by
  obtain ⟨harchivable, hunused, htakes⟩ := hsafe
  rw [WriterDB.archive]
  simp only [ends_bind, ends_focus, WriterDB.onCatalogue, WriterDB.onStore]
  have hcurrent := h.ends_currentIndex hd hD
  refine ends_iff.mpr ⟨fun idxKey u hrun => ?_, fun _ u hrun => ?_⟩
  · obtain ⟨hkeys, calls₁, h₁, hne⟩ := hcurrent.ok hrun
    have hD₁ : (s.put w ⟨{ D with catalogue := u.1 }, u.2, s.data⟩).dbs w = some { D with catalogue := u.1 } := by simp
    refine (h₁.ends_storeArchive key hD₁ fun path hp => ?_).mono ?_ ?_
    · have hp' : (D.storeOf storeDirectory s.data).dataPath idxKey a.unique = .ok path := hp
      have htaken : ∀ S, D.store = some S → S.Takes idxKey.keys data a := by
        intro S hS
        rw [hkeys]
        exact htakes D hD S hS
      obtain ⟨hothers, hshort⟩ := h.dataPath_free hd hD hp' hunused htaken
      refine ⟨fun v hv E hE => ?_, hshort⟩
      rw [DbSystem.dbs_put, if_neg hv] at hE
      exact hothers v hv E hE
    · rintro l T ⟨h₂, hl⟩
      rw [DbSystem.put_put] at h₂
      change Holds db storeDirectory d₀ (s.put w ⟨⟨u.1, some T⟩, u.2, T.disk⟩) H calls₁ at h₂
      have hD₂ : (s.put w ⟨⟨u.1, some T⟩, u.2, T.disk⟩).dbs w = some ⟨u.1, some T⟩ := by simp
      obtain ⟨hw, hsim, hW⟩ := h₂.present hd hD₂
      obtain ⟨b, v, hrun', -⟩ := (hsim.ends_archive hW (harchivable l.fieldLocation) hw hne).returns
      have hfields : Matches storeDirectory (s.put w ⟨⟨u.1, some T⟩, u.2, T.disk⟩)
          ((History.of calls₁).step (.archive w key l.fieldLocation)) (H.archive w (key, data)) := by
        refine h₂.fields.archive hw hne ?_
        simp only [DbSystem.file_some hD₂]
        exact hl
      have h₃ := h₂.ends_catalogue (c := .archive w key l.fieldLocation) hD₂ (harchivable _) rfl ⟨b, v, hrun'⟩ hfields
      rw [WriterDB.onCatalogue, ends_focus] at h₃
      refine h₃.mono ?_ fun _ _ h => h.elim
      intro _ t ht
      rw [DbSystem.put_put] at ht
      exact ⟨_, ht⟩
    · intro _ T h₂
      rw [DbSystem.put_put] at h₂
      exact ⟨calls₁, h₂⟩
  · obtain rfl := hcurrent.error hrun
    refine ⟨calls, ?_⟩
    rw [put_self hD]
    exact h

theorem bytes_of_clean {y : Option DataBytes × FDBFileHandle} (h : ∀ stream ∈ y.2.file, stream.buffered = []) :
    FDBFileHandle.bytes y = y.1.getD [] := by
  obtain ⟨disk, _ | stream, pos, deleted⟩ := y
  · simp [FDBFileHandle.bytes, contents]
  · simpa [FDBFileHandle.bytes, contents] using h stream rfl

/-- The catalogue publishes what is pending, none of which waits in a store. -/
theorem ends_flushCatalogue (h : Holds db storeDirectory d₀ s H calls) (hd : db.Absent d₀)
    (hD : s.dbs w = some D) (hclean : ∀ path, FDBFileHandle.bytes (s.file storeDirectory w path) = (s.data path).getD []) :
    Ends (WriterDB.onCatalogue TocCatalogueWriter.flush) ⟨D, s.disk, s.data⟩
      (fun _ t => Holds db storeDirectory d₀ (s.put w t) (H.flush w) (calls ++ [.flush w])) fun _ _ => False := by
  obtain ⟨hw, hsim, hW⟩ := h.present hd hD
  obtain ⟨a, u, hrun, -⟩ := (hsim.ends_flush hW).returns
  refine h.ends_catalogue (c := .flush w) hD trivial rfl ⟨a, u, hrun⟩ ?_
  rw [History.step, if_pos hw]
  exact h.fields.flush hclean

theorem ends_flush {f : TocStore.Flushing} (h : Holds db storeDirectory d₀ s H calls) (hd : db.Absent d₀)
    (hD : s.dbs w = some D) :
    Ends (WriterDB.flush storeDirectory f) ⟨D, s.disk, s.data⟩
      (fun _ t => (∃ calls', Holds db storeDirectory d₀ (s.put w t) (H.flush w) calls') ∧
        ∀ S, t.db.store = some S → S.dirty = false)
      fun _ t => (∃ calls', Holds db storeDirectory d₀ (s.put w t) H calls') ∧ ∃ S, t.db.store = some S ∧ S.dirty = true := by
  rw [WriterDB.flush]
  simp only [ends_bind, ends_get, ends_ite, WriterDB.onStore, ends_focus]
  refine ⟨fun _ => ?_, fun hnone => ?_⟩
  · have hsound := h.stores.sound w D hD
    have hfree : ∀ v E, v ≠ w → s.dbs v = some E → ∀ path, path ∈ (D.storeOf storeDirectory s.data).handles →
        path ∉ (E.storeOf storeDirectory s.data).handles := fun v E hv hE path =>
      h.stores.apart w v D E path hv.symm hD hE
    have hstore := (TocStore.ends_flush hsound fun _ path _ => h.stores.deleted w D hD path).and
      ((TocStore.touches_flush.and TocStore.dirty_flush).and (TocStore.cached_flush (f := f) (h.stores.cached w D hD)))
    refine hstore.mono ?_ ?_
    · rintro _ T ⟨⟨hT, hgrows, hempty⟩, ⟨htouches, hclean⟩, hcached⟩
      have h₁ := h.store hD htouches hT hcached hgrows hfree
      have hD₁ : (s.put w ⟨{ D with store := some T }, s.disk, T.disk⟩).dbs w = some { D with store := some T } := by simp
      have hflush := h₁.ends_flushCatalogue hd hD₁ fun path => by
        rw [DbSystem.file_some hD₁]
        exact bytes_of_clean (y := T.file path) (hempty path)
      refine (hflush.and WriterDB.store_onCatalogue).mono ?_ fun _ _ h => h.1.elim
      rintro _ t ⟨ht, hstore⟩
      rw [DbSystem.put_put] at ht
      refine ⟨⟨_, ht⟩, fun S hS => ?_⟩
      obtain rfl : T = S := Option.some.inj (hstore.symm.trans hS)
      exact hclean
    · rintro _ T ⟨⟨hT, hgrows⟩, ⟨htouches, hdirty⟩, hcached⟩
      exact ⟨⟨calls, h.store hD htouches hT hcached hgrows hfree⟩, T, rfl, hdirty⟩
  · have hstore : D.store = none := by simpa using hnone
    have hflush := h.ends_flushCatalogue hd hD fun path => by
      rw [DbSystem.file_some hD, WriterDB.storeOf, hstore]
      exact bytes_of_clean (by simp [TocStore.file, TocStore.handle])
    refine (hflush.and WriterDB.store_onCatalogue).mono ?_ fun _ _ h => h.1.elim
    rintro _ t ⟨ht, hkept⟩
    refine ⟨⟨_, ht⟩, fun S hS => ?_⟩
    have hnone : (none : Option TocStore) = some S := hstore.symm.trans (hkept.symm.trans hS)
    cases hnone

/-- A DB ends with nothing that waits in its store. -/
theorem destroy (h : Holds db storeDirectory d₀ s H calls) (hd : db.Absent d₀)
    (hD : s.dbs w = some D) (hclean : ∀ S, D.store = some S → S.dirty = false) :
    ∃ t, WriterDB.destroy.run ⟨D, s.disk, s.data⟩ = .ok () t ∧
      Holds db storeDirectory d₀ { s.put w t with dbs := Function.update (s.put w t).dbs w none }
        { H.flush w with live := H.live.erase w } (calls ++ [.close w]) := by
  obtain ⟨hw, hsim, hW⟩ := h.present hd hD
  obtain ⟨_, u, hrun, -⟩ := (hsim.ends_destroy hW hw).returns
  have hfile : ∀ path, FDBFileHandle.bytes (s.file storeDirectory w path) = (s.data path).getD [] := by
    intro path
    rw [DbSystem.file_some hD]
    refine bytes_of_clean (y := (D.storeOf storeDirectory s.data).file path) ((h.stores.sound w D hD path).clean ?_)
    obtain ⟨W, _ | S⟩ := D
    · rfl
    · exact hclean S rfl
  refine ⟨⟨{ D with catalogue := u.1 }, u.2, s.data⟩, ?_, ?_, ?_, ?_, ?_⟩
  · simp only [WriterDB.destroy, WriterDB.onCatalogue, focus, EStateM.run] at hrun ⊢
    rw [hrun]
  · rw [Database.runCalls, List.foldl_append]
    change _ = db.step (db.runCalls d₀ calls) (.close w)
    have hrun' : TocCatalogueWriter.destroy.run (D.catalogue, s.index.disk) = .ok () u := hrun
    rw [← h.index, Database.step, Database.onWriter]
    simp only [hW, hrun', final_ok]
    simp only [DbSystem.index, DbSystem.put, Function.update_idem, WriterSystem.mk.injEq, true_and, and_true]
    funext v
    by_cases hv : v = w <;> simp [hv]
  · intro c hc
    rcases List.mem_append.mp hc with hc | hc
    · exact h.proper c hc
    · rw [List.mem_singleton.mp hc]
      trivial
  · refine DbSystem.stores_congr (s := s) rfl (fun v E hE => ?_) h.stores
    by_cases hv : v = w
    · simp [hv] at hE
    · exact .inr ⟨E, by simpa [hv] using hE, rfl⟩
  · have hfields := h.fields.flush hfile
    have hgrows : s.Grows storeDirectory
        { s.put w ⟨{ D with catalogue := u.1 }, u.2, s.data⟩ with
          dbs := Function.update (s.put w ⟨{ D with catalogue := u.1 }, u.2, s.data⟩).dbs w none } := by
      refine ⟨fun path => List.prefix_rfl, fun v path => ?_⟩
      by_cases hv : v = w
      · subst hv
        rw [hfile]
        simp [DbSystem.file]
      · simp [DbSystem.file, hv]
    rw [History.of_concat, History.step, if_pos hw]
    refine Matches.grows ⟨hfields.built, ?_, hfields.met, hfields.selected, hfields.archived, hfields.pending,
      hfields.flushed⟩ hgrows
    exact congrArg (·.erase w) h.fields.live

/-- A call on a DB keeps the fields of the callers' and of the DBs' the same. -/
theorem onDb {c : DbCall} {y : WriterDB.Act Unit} (h : Holds db storeDirectory d₀ s H calls)
    (hy : ∀ D, s.dbs w = some D → Ends y ⟨D, s.disk, s.data⟩
      (fun _ t => ∃ calls', Holds db storeDirectory d₀ (s.put w t) (H.step c true) calls')
      fun _ t => ∃ calls', Holds db storeDirectory d₀ (s.put w t) H calls') :
    ∃ calls', Holds db storeDirectory d₀ (s.onDb w y).1 (H.step c (s.onDb w y).2.isNone) calls' := by
  cases hD : s.dbs w with
  | none =>
    rw [DbSystem.onDb_none hD]
    exact ⟨calls, h⟩
  | some D =>
    have hends := hy D hD
    rw [Ends] at hends
    rw [DbSystem.onDb, hD]
    dsimp only
    split at hends <;> rename_i hrun <;> rw [hrun] <;> exact hends

theorem absent (h : Holds db storeDirectory d₀ s H calls) (hd : db.Absent d₀) (hw : w ∉ s.built) :
    w ∉ (History.of calls).built ∧ w ∉ (History.of calls).live ∧ s.dbs w = none := by
  have htracks := h.tracks hd
  have hnot : w ∉ (History.of calls).built := htracks.built ▸ hw
  have hlive : w ∉ (History.of calls).live := by
    rcases htracks.state with ⟨hG, -⟩ | hsim
    · simp [hG]
    · exact fun hl => hnot (hsim.facts.built w hl)
  exact ⟨hnot, hlive, by simpa [DbSystem.index] using htracks.absent hlive⟩

/-- A writer can be built at any time. -/
theorem runs_build {key : Key} (h : Holds db storeDirectory d₀ s H calls) (hd : db.Absent d₀)
    (hkey : key.Addresses db.key.keys) (hw : w ∉ s.built) :
    ∃ W d, (TocCatalogueWriter.build db.directory db.version db.schema db.useSubToc key).run s.disk = .ok W d := by
  obtain ⟨hnot, hlive, -⟩ := h.absent hd hw
  cases hrun : (TocCatalogueWriter.build db.directory db.version db.schema db.useSubToc key).run s.disk with
  | ok W d => exact ⟨W, d, rfl⟩
  | error e d =>
    have hnext := (h.tracks hd).step (c := .build w key) hd hkey
    have hmem : w ∈ ((History.of calls).step (.build w key)).live := by
      rw [History.step, if_neg hnot]
      exact .head _
    obtain ⟨W, hW⟩ := (hnext.present hmem).2
    have hrun' : (TocCatalogueWriter.build db.directory db.version db.schema db.useSubToc key).run s.index.disk =
      .error e d := hrun
    rw [Database.step, if_neg (show w ∉ s.index.built from hw), hrun'] at hW
    rw [(h.tracks hd).absent hlive] at hW
    cases hW

/-- A DB that is built has nothing in its store. -/
theorem build {key : Key} (h : Holds db storeDirectory d₀ s H calls) (hd : db.Absent d₀)
    (hkey : key.Addresses db.key.keys) :
    Holds db storeDirectory d₀ (s.step db storeDirectory (.build w key)).1
      (H.step (.build w key) (s.step db storeDirectory (.build w key)).2.isNone) (calls ++ [.build w key]) := by
  have hproper : ∀ c ∈ calls ++ [.build w key], c.Proper db.version db.key.keys := by
    intro c hc
    rcases List.mem_append.mp hc with hc | hc
    · exact h.proper c hc
    · rw [List.mem_singleton.mp hc]
      exact hkey
  have hindex : db.runCalls d₀ (calls ++ [.build w key]) = db.step s.index (.build w key) := by
    rw [h.index]
    exact List.foldl_append
  rw [DbSystem.step]
  split
  · rename_i hw
    refine ⟨?_, hproper, h.stores, ?_⟩
    · rw [hindex, Database.step, if_pos (show w ∈ s.index.built from hw)]
    · rw [History.of_concat]
      exact h.fields.build
  rename_i hw
  obtain ⟨-, -, hnone⟩ := h.absent hd hw
  obtain ⟨W, d, hrun⟩ := h.runs_build hd hkey hw
  have hrun' : (TocCatalogueWriter.build db.directory db.version db.schema db.useSubToc key).run s.index.disk =
    .ok W d := hrun
  rw [hrun]
  refine ⟨?_, hproper, ?_, ?_⟩
  · rw [hindex, Database.step, if_neg (show w ∉ s.index.built from hw), hrun']
    simp only [DbSystem.index, WriterSystem.mk.injEq, true_and, and_true]
    funext v
    by_cases hv : v = w <;> simp [hv]
  · refine DbSystem.stores_congr (s := s) rfl (fun v E hE => ?_) h.stores
    by_cases hv : v = w
    · subst hv
      simp only [Function.update_self, Option.some.injEq] at hE
      exact .inl (hE ▸ rfl)
    · exact .inr ⟨E, by simpa [hv] using hE, rfl⟩
  · rw [History.of_concat]
    refine h.fields.build.grows ⟨fun path => List.prefix_rfl, fun v path => ?_⟩
    by_cases hv : v = w
    · subst hv
      simp [DbSystem.file, hnone, WriterDB.storeOf, TocStore.file, TocStore.handle]
    · simp [DbSystem.file, hv]

theorem step {c : DbCall} (h : Holds db storeDirectory d₀ s H calls) (hd : db.Absent d₀)
    (hc : s.Safe db c) : ∃ calls', Holds db storeDirectory d₀ (s.step db storeDirectory c).1
      (H.step c (s.step db storeDirectory c).2.isNone) calls' := by
  cases c with
  | build w key => exact ⟨_, h.build hd hc⟩
  | selectIndex w key =>
    refine h.onDb fun D hD => ?_
    obtain ⟨hw, hsim, hW⟩ := h.present hd hD
    obtain ⟨a, u, hrun, -⟩ := (hsim.ends_selectIndex hW hc hw).returns
    refine (h.ends_catalogue (c := .selectIndex w key) hD hc rfl ⟨a, u, hrun⟩ (h.fields.selectIndex hw)).mono ?_
      fun _ _ h => h.elim
    exact fun _ t ht => ⟨_, ht⟩
  | deselectIndex w =>
    refine h.onDb fun D hD => ?_
    obtain ⟨hw, hsim, hW⟩ := h.present hd hD
    obtain ⟨a, u, hrun, -⟩ := (hsim.ends_deselectIndex hW hw).returns
    refine (h.ends_catalogue (c := .deselectIndex w) hD trivial rfl ⟨a, u, hrun⟩ (h.fields.deselectIndex hw)).mono ?_
      fun _ _ h => h.elim
    exact fun _ t ht => ⟨_, ht⟩
  | archive w key data a => exact h.onDb fun D hD => h.ends_archive hd hD hc
  | flush w f => exact h.onDb fun D hD => (h.ends_flush hd hD).mono (fun _ _ h => h.1) fun _ _ h => h.1
  | destroy w =>
    rw [DbSystem.step]
    cases hD : s.dbs w with
    | none =>
      have hself : Function.update s.dbs w none = s.dbs := by rw [← hD, Function.update_eq_self]
      simp only [DbSystem.onDb_none hD, hself]
      exact ⟨calls, h⟩
    | some D =>
      obtain ⟨t, hrun, ht⟩ := h.destroy hd hD (hc D hD)
      simp only [DbSystem.onDb_ok hD hrun]
      exact ⟨_, ht⟩

theorem run {dbCalls : List DbCall} (h : Holds db storeDirectory d₀ s H calls) (hd : db.Absent d₀)
    (hsafe : Follows.Each (fun t => t.1.Safe db) (DbSystem.track db storeDirectory) (s, H) dbCalls) :
    ∃ calls', Holds db storeDirectory d₀ (dbCalls.foldl (DbSystem.track db storeDirectory) (s, H)).1
      (dbCalls.foldl (DbSystem.track db storeDirectory) (s, H)).2 calls' := by
  induction dbCalls generalizing s H calls with
  | nil => exact ⟨calls, h⟩
  | cons c dbCalls ih =>
    obtain ⟨hc, hrest⟩ := Follows.each_cons.mp hsafe
    obtain ⟨calls', h'⟩ := h.step hd hc
    exact ih h' hrest

end Holds

/-- What a reader gets is what the callers were told. -/
theorem Holds.reads_last {db : Database} {storeDirectory : String} {d₀ : Disk} {s : DbSystem} {H : DbHistory}
    {calls : List Call} {k1 k2 : Key} {names : List String} (h : Holds db storeDirectory d₀ s H calls) (hd : db.Absent d₀)
    (depth : Nat) (hk1 : k1.keys ≠ ∅) (hk2 : k2.Fits names)
    (hfits : ∀ a ∈ H.archived, a.index.keys = k1.keys → a.key.Fits names)
    (hx : db.useSubToc = true → H.Exclusive k1.keys k2.fingerprint) :
    (s.disk.retrieve db.version (depth + 1) db.tocPath k1 k2).map (Option.map (FieldLocation.bytes s.data)) =
      .ok (H.last k1 k2) := by
  have harchived : ∀ a ∈ (History.of calls).archived, ⟨a.writer, a.index, a.put.key⟩ ∈ H.archived := by
    intro a ha
    rw [h.fields.archived]
    exact List.mem_map_of_mem ha
  have hexclusive : db.useSubToc = true → (History.of calls).Exclusive k1.keys k2.fingerprint := by
    intro hon a ha b hb hκ hκ' hf hf'
    have hmet := hx hon _ (harchived a ha) _ (harchived b hb) hκ hκ' hf hf'
    rwa [h.fields.met] at hmet
  have hread := Database.retrieve_last hd h.proper depth hk1 hk2 (fun a ha => hfits _ (harchived a ha)) hexclusive
  rw [← h.index] at hread
  change s.disk.retrieve _ _ _ _ _ = _ at hread
  rw [hread]
  simp only [Except.map, Option.map_map]
  refine congrArg Except.ok (findRev?_forall₂ (h.fields.flushed k1.keys) ?_ fun p field hp => hp.bytes)
  rintro p field ⟨l, rfl, -⟩
  rfl

theorem Holds.start {db : Database} {storeDirectory : String} {d₀ : Disk} {data₀ : String → Option DataBytes} :
    Holds db storeDirectory d₀ { disk := d₀, data := data₀ } {} [] :=
  ⟨rfl, by simp, ⟨by simp, by simp, by simp, by simp, by simp⟩, ⟨rfl, rfl, rfl, rfl, rfl, fun _ _ => .nil, fun _ => .nil⟩⟩

/-- Every field that was archived was given in a call. -/
theorem DbSystem.archived_runCalls {db : Database} {storeDirectory : String} {d₀ : Disk} {data₀ : String → Option DataBytes}
    {calls : List DbCall} {a : ArchivedKeys} (ha : a ∈ (runCalls db storeDirectory d₀ data₀ calls).2.archived) :
    ∃ w data x, .archive w a.key data x ∈ calls := by
  induction calls using List.reverseRecOn with
  | nil => cases ha
  | append_singleton calls c ih =>
    rw [runCalls, List.foldl_append] at ha
    change a ∈ (DbHistory.step (runCalls db storeDirectory d₀ data₀ calls).2 c _).archived at ha
    have hold : a ∈ (runCalls db storeDirectory d₀ data₀ calls).2.archived ∨ ∃ w data x, c = .archive w a.key data x := by
      generalize (step db storeDirectory _ c).2.isNone = returned at ha
      cases returned with
      | false => exact .inl ha
      | true =>
        cases c with
        | build w key =>
          simp only [DbHistory.step, DbHistory.build] at ha
          split at ha <;> exact .inl ha
        | archive w key data x =>
          rcases List.mem_append.mp ha with ha | ha
          · exact .inl ha
          · exact .inr ⟨w, data, x, by rw [List.mem_singleton.mp ha]⟩
        | selectIndex w key => exact .inl ha
        | deselectIndex w => exact .inl ha
        | flush w f => exact .inl ha
        | destroy w => exact .inl ha
    rcases hold with ha | ⟨w, data, x, rfl⟩
    · obtain ⟨w, data, x, hmem⟩ := ih ha
      exact ⟨w, data, x, List.mem_append_left _ hmem⟩
    · exact ⟨w, data, x, by simp⟩

section Example

def earlierWrite : TocStore.Archiving := ⟨".1", true, ⟨3, 1⟩⟩

def laterWrite : TocStore.Archiving := ⟨".2", true, ⟨2, 0⟩⟩

/-- Two DBs that are open at the same time; some bytes of the first field reach its file before the flush. -/
def overlappingDbCalls : List DbCall := [.build 0 sessionKey, .selectIndex 0 sessionIndex, .build 1 sessionKey,
  .selectIndex 1 sessionIndex,
  .archive 0 sessionField [1, 2, 3] earlierWrite, .archive 1 sessionField [4, 5] laterWrite, .flush 0 fun _ => {},
  .flush 1 fun _ => {}, .destroy 0]

theorem overlapping_safe : Follows.Each (fun t => t.1.Safe sessionDatabase)
    (DbSystem.track sessionDatabase "/root/od") ({ disk := {}, data := fun _ => none }, {}) overlappingDbCalls := by
  simp only [overlappingDbCalls, Follows.each_cons, Follows.each_nil, and_true]
  refine ⟨sessionKey_addresses, sessionIndex_selectable, sessionKey_addresses, sessionIndex_selectable,
    ⟨fun _ => session_archivable, ?_⟩, ⟨fun _ => session_archivable, ?_⟩, trivial, trivial, ?_⟩
  all_goals decide +kernel

theorem overlapping_fits : ∀ a ∈ (DbSystem.runCalls sessionDatabase "/root/od" {} (fun _ => none) overlappingDbCalls).2.archived,
    a.index.keys = sessionIndex.keys → a.key.Fits ["step"] := by
  intro a ha _
  obtain ⟨w, data, x, hmem⟩ := DbSystem.archived_runCalls ha
  have hkey : a.key = sessionField := by
    simp [overlappingDbCalls] at hmem
    grind
  rw [hkey]
  exact sessionField_fits

end Example

end Fdb5
