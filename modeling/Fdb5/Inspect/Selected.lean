import Fdb5.Inspect.Retrieve
import Fdb5.Inspect.Events

/-! What a retrieve visitor has selected while it is below a database and below an index. -/
namespace Fdb5

open Effect

theorem DB.key_openReader {config : DbConfig} {d : Disk} {key : Key} {db : DB}
    (h : DB.openReader config d key = .ok (some db)) : db.key = key := by
  rw [DB.openReader] at h
  simp only [except_bind_ok] at h
  obtain ⟨path, -, catalogue, -, h⟩ := h
  split at h
  · simp at h
  · split at h
    · split at h
      · simp at h
      · simp at h
        exact h ▸ rfl
    · simp at h

namespace MultiRetrieveVisitor

/-- All databases that are open are good. -/
def AllOpen (G : DB → Prop) (v : MultiRetrieveVisitor) : Prop := ∀ db ∈ v.opened, G db

/-- The database of a key is selected. -/
def InDatabase (G : DB → Prop) (k : Key) (v : MultiRetrieveVisitor) : Prop :=
  v.AllOpen G ∧ ∃ db, v.db = some db ∧ db.key.keys = k.keys

/-- The indexes of a key are selected in the database of another. -/
def InIndex (G : DB → Prop) (k k' : Key) (v : MultiRetrieveVisitor) : Prop :=
  v.AllOpen G ∧ ∃ db, v.db = some db ∧ db.key.keys = k.keys ∧ db.catalogue.currentIndexKey.keys = k'.keys

variable {G : DB → Prop} {config : DbConfig} {d : Disk} {k k' key : Key} {v : MultiRetrieveVisitor} {db : DB}

theorem mem_opened : db ∈ v.opened ↔ v.db = some db ∨ db ∈ v.databases := by
  simp [opened]

theorem currentIndexKey_selectIndex (r : TocCatalogueReader) :
    (r.selectIndex key).currentIndexKey.keys = key.keys := by
  rw [TocCatalogueReader.selectIndex]
  split
  · rename_i h
    exact h
  · rfl

theorem ends_selectDatabase (hopen : ∀ db, DB.openReader config d k = .ok (some db) → G db)
    (hv : v.AllOpen G) : Ends (selectDatabase config d k) v
      (fun b v' => (if b then InDatabase G k v' else AllOpen G v') ∧ v'.iterator = v.iterator ∧
        (b = false → DB.openReader config d k = .ok none))
      fun e v' => AllOpen G v' ∧ DB.openReader config d k = .error e := by
  rw [selectDatabase, ends_bind, ends_get]
  cases hcurrent : v.db.filter fun db => db.key.keys = k.keys with
  | some db =>
    obtain ⟨hdb, hkey⟩ := Option.filter_eq_some_iff.mp hcurrent
    exact ⟨⟨hv, db, hdb, of_decide_eq_true hkey⟩, rfl, fun h => by cases h⟩
  | none =>
    cases hfind : v.opened.find? fun db => db.key.keys = k.keys with
    | some db =>
      have hkey : db.key.keys = k.keys := by simpa using List.find?_some hfind
      refine ⟨⟨fun db' hdb' => ?_, db, rfl, hkey⟩, rfl, fun h => by cases h⟩
      rcases mem_opened.mp hdb' with h | h
      · exact Option.some.inj h ▸ hv db (List.mem_of_find?_eq_some hfind)
      · exact hv db' (List.mem_of_mem_eraseP h)
    | none =>
      simp only [ends_bind, ends_lift]
      refine ⟨fun r hr => ?_, fun _ he => ⟨hv, he⟩⟩
      cases r with
      | none => exact ⟨hv, rfl, fun _ => hr⟩
      | some db =>
        have hkey : db.key = k := DB.key_openReader hr
        refine ⟨⟨fun db' hdb' => ?_, db, rfl, by rw [hkey]⟩, rfl, fun h => by cases h⟩
        rcases mem_opened.mp hdb' with h | h
        · exact Option.some.inj h ▸ hopen db hr
        · exact hv db' (List.mem_of_mem_take h)

theorem ends_selectIndex (hselect : ∀ db, G db → G { db with catalogue := db.catalogue.selectIndex k' })
    (hv : InDatabase G k v) : Ends (selectIndex k') v
      (fun b v' => (if b then InIndex G k k' v' else InDatabase G k v') ∧ v'.iterator = v.iterator)
      fun _ _ => False := by
  obtain ⟨hall, db, hdb, hkey⟩ := hv
  rw [selectIndex, ends_bind, ends_get]
  simp only [hdb, ends_bind, ends_modify, ends_pure]
  have hgood : AllOpen G { v with db := some { db with catalogue := db.catalogue.selectIndex k' } } := by
    intro db' hdb'
    rcases mem_opened.mp hdb' with h | h
    · exact Option.some.inj h ▸ hselect db (hall db (mem_opened.mpr (.inl hdb)))
    · exact hall db' (mem_opened.mpr (.inr h))
  refine ⟨?_, trivial⟩
  split
  · exact ⟨hgood, _, rfl, hkey, currentIndexKey_selectIndex _⟩
  · exact ⟨hgood, _, rfl, hkey⟩

/-- The element that the visitor lists for a key, if it finds it. -/
def found (d : Disk) (key : Key) (v : MultiRetrieveVisitor) : Option ListElement :=
  v.db.bind fun db => match value ((db.catalogue.retrieve key).run d) with
    | .ok (some location) => some {
        dbKey := db.key
        indexKey := db.catalogue.currentIndexKey
        datumKey := simplifiedKey key
        location }
    | _ => none

theorem ends_selectDatum : Ends (selectDatum d key) v
    (fun _ v' => v' = { v with iterator := v.iterator ++ (found d key v).toList } ∧
      ∀ db, v.db = some db → ∃ r, value ((db.catalogue.retrieve key).run d) = .ok r)
    fun e v' => v' = v ∧ ∀ db, v.db = some db → value ((db.catalogue.retrieve key).run d) = .error e := by
  rw [selectDatum, found, ends_bind, ends_get]
  cases hdb : v.db with
  | none => exact ⟨rfl, fun _ h => by cases h⟩
  | some db =>
    simp only [ends_bind, ends_lift, Option.some.injEq, forall_eq']
    refine ⟨fun r hr => ?_, fun _ he => ⟨trivial, he⟩⟩
    rw [Option.bind_some, hr]
    cases r with
    | none => simp [← hdb]
    | some location => simp [hdb]

theorem notes : (config.visitor d).Notes (·.iterator) (found d) where
  selectDatabase k full s := (ends_selectDatabase (G := fun _ => True) (fun _ _ => trivial)
    (fun _ _ => trivial)).mono (fun _ _ h => h.2.1) fun _ _ _ => trivial
  databaseSchema s := by
    change Ends databaseSchema s _ _
    rw [databaseSchema, ends_bind, ends_get]
    cases s.db with
    | none => trivial
    | some db => rfl
  selectIndex k full s := by
    change Ends (selectIndex k) s _ _
    rw [selectIndex, ends_bind, ends_get]
    cases s.db with
    | none => trivial
    | some db => rfl
  selectDatum k full s := ends_selectDatum.mono (fun _ _ h => by rw [h.1]) fun _ _ _ => trivial

/-- Selecting keeps good databases good, if those that are opened for the schema's rules are. -/
theorem keeps {rules : List Rule}
    (hselect : ∀ key db, G db → G { db with catalogue := db.catalogue.selectIndex key })
    (hopen : ∀ r ∈ rules, ∀ key db, r.Builds key → DB.openReader config d key = .ok (some db) → G db) :
    (config.visitor d).Keeps rules (AllOpen G) (InDatabase G) (InIndex G) where
  weaken₁ _ _ h := h.1
  weaken₂ _ _ _ h := ⟨h.1, h.2.imp fun _ h => ⟨h.1, h.2.1⟩⟩
  selectDatabase r hr k full s hk hs := (ends_selectDatabase (fun db => hopen r hr k db hk) hs).mono
    (fun _ _ h => h.1) fun _ _ h => h.1
  databaseSchema k s hs := by
    obtain ⟨-, db, hdb, -⟩ := id hs
    change Ends databaseSchema s _ _
    rw [databaseSchema, ends_bind, ends_get, hdb]
    exact hs
  selectIndex k k' full s hs := (ends_selectIndex (hselect k') hs).mono (fun _ _ h => h.1) fun _ _ h => h.elim
  selectDatum k k' k'' full s hs := ends_selectDatum.mono (fun _ _ h => h.1 ▸ hs) fun _ _ h => h.1 ▸ hs

end MultiRetrieveVisitor

end Fdb5
