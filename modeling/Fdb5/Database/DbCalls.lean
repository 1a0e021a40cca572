import Fdb5.Database.LastBytes

/-! What each call on a DB leaves of the DBs of a database. -/
namespace Fdb5

open Effect

/-- Nothing waits in a DB whose store has nothing to flush. -/
def DbSystem.Clean (s : DbSystem) (H : DbHistory) : Prop :=
  ∀ w D, s.dbs w = some D → (∀ S, D.store = some S → S.dirty = false) → ∀ κ, H.pending w κ = []

/-- The stores that are in use are those of before, on the files of before. -/
structure DbSystem.Quiet (s t : DbSystem) : Prop where
  data : t.data = s.data
  store : ∀ w D, t.dbs w = some D → D.store = none ∨ ∃ E, s.dbs w = some E ∧ D.store = E.store

section Calls

variable {db : Database} {storeDirectory : String} {d₀ : Disk} {s t u : DbSystem} {H : DbHistory} {calls : List Call} {c : DbCall}
  {w : Nat} {key : Key} {D : WriterDB} {data : DataBytes} {a : TocStore.Archiving} {f : TocStore.Flushing}

theorem DbSystem.Quiet.refl : s.Quiet s := ⟨rfl, fun _ D hD => .inr ⟨D, hD, rfl⟩⟩

theorem DbSystem.Quiet.trans (h : s.Quiet t) (h' : t.Quiet u) : s.Quiet u := by
  refine ⟨h'.data.trans h.data, fun w D hD => ?_⟩
  rcases h'.store w D hD with hnone | ⟨E, hE, heq⟩
  · exact .inl hnone
  · rcases h.store w E hE with hnone | ⟨F, hF, heq'⟩
    · exact .inl (heq.trans hnone)
    · exact .inr ⟨F, hF, heq.trans heq'⟩

namespace Holds

theorem live_iff (h : Holds db storeDirectory d₀ s H calls) (hd : db.Absent d₀) : w ∈ H.live ↔ ∃ D, s.dbs w = some D := by
  rw [h.fields.live]
  constructor
  · intro hw
    obtain ⟨-, W, hW⟩ := (h.tracks hd).present hw
    obtain ⟨D, hD, -⟩ := Option.map_eq_some_iff.mp hW
    exact ⟨D, hD⟩
  · rintro ⟨D, hD⟩
    exact (h.present hd hD).1

theorem built_iff (h : Holds db storeDirectory d₀ s H calls) (hd : db.Absent d₀) : w ∈ s.built ↔ w ∈ H.built := by
  have hbuilt : s.built = (History.of calls).built := (h.tracks hd).built
  rw [h.fields.built, hbuilt]

theorem live_built (h : Holds db storeDirectory d₀ s H calls) (hd : db.Absent d₀) (hw : w ∈ H.live) : w ∈ H.built := by
  obtain ⟨D, hD⟩ := (h.live_iff hd).mp hw
  exact (h.built_iff hd).mp (h.built hd hD)

/-- A DB that was never built has nothing to flush. -/
theorem pending_unbuilt (h : Holds db storeDirectory d₀ s H calls) (hd : db.Absent d₀) (hw : w ∉ H.built) (κ : StringDict) :
    H.pending w κ = [] := by
  have hpending := h.fields.pending w κ
  rw [h.fields.built] at hw
  have hnil : (History.of calls).pending w κ = [] := by
    rcases (h.tracks hd).state with ⟨hG, -⟩ | hsim
    · rw [hG]
    · exact (hsim.facts.unbuilt w hw κ).2.1
  rw [hnil] at hpending
  exact List.forall₂_nil_left_iff.mp hpending

/-- The catalogue of an open DB has the schema of the database. -/
theorem schema (h : Holds db storeDirectory d₀ s H calls) (hd : db.Absent d₀) (hD : s.dbs w = some D) :
    D.catalogue.schema = db.schema := by
  obtain ⟨-, hsim, hW⟩ := h.present hd hD
  obtain ⟨P, e, records, items, -, hshares, -⟩ := hsim.layout
  exact (hshares.writer w D.catalogue hW).schema

/-- The index that an open DB has selected is the one that was asked for. -/
theorem selected (h : Holds db storeDirectory d₀ s H calls) (hd : db.Absent d₀) (hD : s.dbs w = some D) :
    D.catalogue.currentIndexKey = H.selected w := by
  obtain ⟨-, hsim, hW⟩ := h.present hd hD
  obtain ⟨P, e, records, items, -, hshares, -⟩ := hsim.layout
  rw [h.fields.selected]
  exact (hshares.writer w D.catalogue hW).key

theorem step_build (h : Holds db storeDirectory d₀ s H calls) (hd : db.Absent d₀) (hkey : key.Addresses db.key.keys)
    (hw : w ∉ H.built) : ∃ W d, s.step db storeDirectory (.build w key) =
      ({ s with built := w :: s.built, dbs := Function.update s.dbs w (some ⟨W, none⟩), disk := d }, none) := by
  have hnot : w ∉ s.built := fun hm => hw ((h.built_iff hd).mp hm)
  obtain ⟨W, d, hrun⟩ := h.runs_build hd hkey hnot
  exact ⟨W, d, by rw [DbSystem.step, if_neg hnot, hrun]⟩

theorem step_catalogue {x : WriterM Unit} (hD : s.dbs w = some D) (hx : ∃ a u, x.run (D.catalogue, s.disk) = .ok a u) :
    ∃ W d, s.onDb w (WriterDB.onCatalogue x) = (s.put w ⟨{ D with catalogue := W }, d, s.data⟩, none) := by
  obtain ⟨_, u, hrun⟩ := hx
  refine ⟨u.1, u.2, DbSystem.onDb_ok hD ?_⟩
  simp only [WriterDB.onCatalogue, focus, EStateM.run] at hrun ⊢
  rw [hrun]

theorem step_selectIndex (h : Holds db storeDirectory d₀ s H calls) (hd : db.Absent d₀) (hD : s.dbs w = some D)
    (hkey : key.Selectable) : ∃ W d,
      s.step db storeDirectory (.selectIndex w key) = (s.put w ⟨{ D with catalogue := W }, d, s.data⟩, none) := by
  obtain ⟨hw, hsim, hW⟩ := h.present hd hD
  obtain ⟨a, u, hrun, -⟩ := (hsim.ends_selectIndex hW hkey hw).returns
  exact step_catalogue hD ⟨a, u, hrun⟩

theorem step_deselectIndex (h : Holds db storeDirectory d₀ s H calls) (hd : db.Absent d₀) (hD : s.dbs w = some D) :
    ∃ W d, s.step db storeDirectory (.deselectIndex w) = (s.put w ⟨{ D with catalogue := W }, d, s.data⟩, none) := by
  obtain ⟨hw, hsim, hW⟩ := h.present hd hD
  obtain ⟨a, u, hrun, -⟩ := (hsim.ends_deselectIndex hW hw).returns
  exact step_catalogue hD ⟨a, u, hrun⟩

theorem step_destroy (h : Holds db storeDirectory d₀ s H calls) (hd : db.Absent d₀) (hD : s.dbs w = some D) :
    ∃ d, s.step db storeDirectory (.destroy w) = ({ s with dbs := Function.update s.dbs w none, disk := d }, none) := by
  obtain ⟨hw, hsim, hW⟩ := h.present hd hD
  obtain ⟨a, u, hrun, -⟩ := (hsim.ends_destroy hW hw).returns
  obtain ⟨W, d, hstep⟩ := step_catalogue (x := TocCatalogueWriter.destroy) hD ⟨a, u, hrun⟩
  refine ⟨d, ?_⟩
  rw [DbSystem.step, WriterDB.destroy, hstep]
  simp [DbSystem.put]

end Holds

/-- A call that selects an index, or none, and one that ends a DB, leave the stores as they are. -/
theorem DbSystem.quiet_put {W : TocCatalogueWriter} {d : Disk} (hD : s.dbs w = some D) :
    s.Quiet (s.put w ⟨{ D with catalogue := W }, d, s.data⟩) := by
  refine ⟨rfl, fun v E hE => ?_⟩
  by_cases hv : v = w
  · subst hv
    rw [dbs_put, if_pos rfl, Option.some.injEq] at hE
    exact .inr ⟨D, hD, hE ▸ rfl⟩
  · rw [dbs_put, if_neg hv] at hE
    exact .inr ⟨E, hE, rfl⟩

theorem DbSystem.Clean.put_catalogue {W : TocCatalogueWriter} {d : Disk} {H' : DbHistory} (h : s.Clean H) (hD : s.dbs w = some D)
    (hH : ∀ v κ, H'.pending v κ = H.pending v κ) : (s.put w ⟨{ D with catalogue := W }, d, s.data⟩).Clean H' := by
  intro v E hE hclean κ
  rw [hH]
  by_cases hv : v = w
  · subst hv
    rw [dbs_put, if_pos rfl, Option.some.injEq] at hE
    subst hE
    exact h v D hD hclean κ
  · rw [dbs_put, if_neg hv] at hE
    exact h v E hE hclean κ

/-- Of a DB that was called only its own store can be another than before. -/
theorem DbSystem.Clean.put {v : DbWorld} {H' : DbHistory} (h : s.Clean H) (hH : ∀ v, v ≠ w → H'.pending v = H.pending v)
    (hw : (∀ S, v.db.store = some S → S.dirty = false) → ∀ κ, H'.pending w κ = []) : (s.put w v).Clean H' := by
  intro u E hE hclean κ
  by_cases hu : u = w
  · subst hu
    rw [dbs_put, if_pos rfl, Option.some.injEq] at hE
    subst hE
    exact hw hclean κ
  · rw [dbs_put, if_neg hu] at hE
    rw [hH u hu]
    exact h u E hE hclean κ

theorem WriterDB.dirty_archive {v : DbWorld} : Ends (archive storeDirectory key data a) v
    (fun _ t => ∃ S, t.db.store = some S ∧ S.dirty = true)
    fun _ t => t.db.store = v.db.store ∨ ∃ S, t.db.store = some S ∧ S.dirty = true := by
  unfold archive
  simp only [ends_bind, onCatalogue, onStore, ends_focus]
  refine ends_iff.mpr ⟨fun idxKey u _ => ?_, fun _ u _ => .inl trivial⟩
  refine TocStore.dirty_archive.mono (fun location T hT => ?_) fun _ T hT => .inr ⟨T, rfl, hT⟩
  exact ends_iff.mpr ⟨fun _ _ _ => ⟨T, rfl, hT⟩, fun _ _ _ => .inr ⟨T, rfl, hT⟩⟩

theorem Holds.clean (h : Holds db storeDirectory d₀ s H calls) (hd : db.Absent d₀) (hclean : s.Clean H)
    (hc : s.Safe db c) :
    (s.step db storeDirectory c).1.Clean (H.step c (s.step db storeDirectory c).2.isNone) := by
  cases c with
  | build w key =>
    by_cases hw : w ∈ H.built
    · rw [DbSystem.step, if_pos ((h.built_iff hd).mpr hw)]
      simpa [DbHistory.step, DbHistory.build, hw] using hclean
    · obtain ⟨W, d, hstep⟩ := h.step_build hd hc hw
      rw [hstep]
      intro v E hE hstore κ
      have hpending : (H.step (.build w key) true).pending = H.pending := by simp [DbHistory.step, DbHistory.build, hw]
      change (H.step (.build w key) true).pending v κ = []
      rw [hpending]
      by_cases hv : v = w
      · subst hv
        exact h.pending_unbuilt hd hw κ
      · exact hclean v E (by simpa [hv] using hE) hstore κ
  | selectIndex w key =>
    cases hD : s.dbs w with
    | none =>
      rw [DbSystem.step, DbSystem.onDb_none hD]
      exact hclean
    | some D =>
      obtain ⟨W, d, hstep⟩ := h.step_selectIndex hd hD hc
      rw [hstep]
      exact hclean.put_catalogue hD fun _ _ => rfl
  | deselectIndex w =>
    cases hD : s.dbs w with
    | none =>
      rw [DbSystem.step, DbSystem.onDb_none hD]
      exact hclean
    | some D =>
      obtain ⟨W, d, hstep⟩ := h.step_deselectIndex hd hD
      rw [hstep]
      exact hclean.put_catalogue hD fun _ _ => rfl
  | archive w key data a =>
    cases hD : s.dbs w with
    | none =>
      rw [DbSystem.step, DbSystem.onDb_none hD]
      exact hclean
    | some D =>
      have hends : Ends (WriterDB.archive storeDirectory key data a) ⟨D, s.disk, s.data⟩ _ _ := WriterDB.dirty_archive
      rw [DbSystem.step, DbSystem.onDb, hD]
      dsimp only
      cases hrun : (WriterDB.archive storeDirectory key data a).run ⟨D, s.disk, s.data⟩ with
      | ok _ t =>
        obtain ⟨S, hS, hdirty⟩ := hends.ok hrun
        refine hclean.put (fun v hv => ?_) fun hstore => ?_
        · simp [DbHistory.step, DbHistory.archive, hv]
        · simp [hstore S hS] at hdirty
      | error e t =>
        refine hclean.put (fun _ _ => rfl) fun hstore => ?_
        rcases hends.error hrun with hsame | ⟨S, hS, hdirty⟩
        · exact hclean w D hD (hsame ▸ hstore)
        · simp [hstore S hS] at hdirty
  | flush w f =>
    cases hD : s.dbs w with
    | none =>
      rw [DbSystem.step, DbSystem.onDb_none hD]
      exact hclean
    | some D =>
      have hends := h.ends_flush (f := f) hd hD
      rw [DbSystem.step, DbSystem.onDb, hD]
      dsimp only
      cases hrun : (WriterDB.flush storeDirectory f).run ⟨D, s.disk, s.data⟩ with
      | ok _ t =>
        refine hclean.put (fun v hv => ?_) fun _ κ => ?_
        · simp [DbHistory.step, DbHistory.flush, hv]
        · simp [DbHistory.step, DbHistory.flush]
      | error e t =>
        obtain ⟨-, S, hS, hdirty⟩ := hends.error hrun
        refine hclean.put (fun _ _ => rfl) fun hstore => ?_
        simp [hstore S hS] at hdirty
  | destroy w =>
    cases hD : s.dbs w with
    | none =>
      have hself : Function.update s.dbs w none = s.dbs := by rw [← hD, Function.update_eq_self]
      simp only [DbSystem.step, DbSystem.onDb_none hD, hself]
      exact hclean
    | some D =>
      obtain ⟨d, hstep⟩ := h.step_destroy hd hD
      rw [hstep]
      intro v E hE hstore κ
      have hv : v ≠ w := by
        rintro rfl
        simp at hE
      change (H.flush w).pending v κ = []
      simp only [DbHistory.flush, Function.update_of_ne hv]
      exact hclean v E (by simpa [hv] using hE) hstore κ

end Calls

end Fdb5
