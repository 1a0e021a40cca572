import Mathlib.Data.List.Pairwise
import Fdb5.Inspect.Search
import Fdb5.Rules.ReadBack

/-! What an inspector finds does not depend on what it was asked before, when nothing is left selected. -/
namespace Fdb5

open Effect

/-- A matching list belongs to the current index key, or there is neither yet. -/
def TocCatalogueReader.Selected (r : TocCatalogueReader) : Prop :=
  r.matching = (r.indexes.filter fun m => m.1.key.keys = r.currentIndexKey.keys) ∨
    r.matching = [] ∧ r.currentIndexKey.keys = ∅

/-- An open database is what opening it again would give, up to what is selected in it. -/
def DB.Genuine (config : DbConfig) (d : Disk) (rules : List Rule) (db : DB) : Prop :=
  db.catalogue.Selected ∧ ∃ r ∈ rules, r.Builds db.key ∧ ∃ db₀, openReader config d db.key = .ok (some db₀) ∧
    db₀.schema = db.schema ∧ db₀.catalogue.indexes = db.catalogue.indexes

/-- No database key fits two of the rules. -/
def Rule.Exclusive (rules : List Rule) : Prop :=
  rules.Pairwise fun r r' => ∀ k k', r.Builds k → r'.Builds k' → k.keys ≠ k'.keys

namespace Rule

variable {k₁ k₂ : Key} {r r' : Rule} {rules : List Rule}

/-- A rule builds one key with given values. -/
theorem Builds.ext (h : r.Builds k₁) (h' : r.Builds k₂) (hkeys : k₁.keys = k₂.keys) : k₁ = k₂ := by
  obtain ⟨k, hk, rfl⟩ := h
  obtain ⟨k', hk', rfl⟩ := h'
  refine Key.ext_of_find ?_ ?_ rfl fun keyword => ?_
  · exact hk.names.1.trans hk'.names.1.symm
  · exact hk.names.2.trans hk'.names.2.symm
  · exact congrArg (·[keyword]?) hkeys

/-- Exclusive rules build one key with given values. -/
theorem Exclusive.ext (h : Exclusive rules) (hr : r ∈ rules) (hr' : r' ∈ rules) (hk : r.Builds k₁)
    (hk' : r'.Builds k₂) (hkeys : k₁.keys = k₂.keys) : k₁ = k₂ := by
  by_cases hrr : r = r'
  · subst hrr
    exact hk.ext hk' hkeys
  · have : Std.Symm fun r r' : Rule => ∀ k k', r.Builds k → r'.Builds k' → k.keys ≠ k'.keys :=
      ⟨fun _ _ h k k' hk hk' => (h k' k hk' hk).symm⟩
    exact absurd hkeys (List.Pairwise.forall h hr hr' hrr _ _ hk hk')

theorem Exclusive.perm {rules' : List Rule} (h : Exclusive rules) (hperm : rules.Perm rules') : Exclusive rules' :=
  (hperm.pairwise_iff fun h k k' hk hk' => (h k' k hk' hk).symm).mp h

end Rule

section Selected

variable {r : TocCatalogueReader} {key : Key}

theorem TocCatalogueReader.indexes_selectIndex : (r.selectIndex key).indexes = r.indexes := by
  rw [selectIndex]
  split <;> rfl

theorem TocCatalogueReader.Selected.selectIndex (h : r.Selected) : (r.selectIndex key).Selected := by
  rw [TocCatalogueReader.selectIndex]
  split
  · exact h
  · exact .inl rfl

theorem TocCatalogueReader.axis_congr {r' : TocCatalogueReader} (h : r.matching = r'.matching) : r.axis = r'.axis := by
  funext keyword
  simp only [axis, h]

/-- Selecting a key selects its indexes, if it is not one that has been selected without those it has. -/
theorem TocCatalogueReader.Selected.matching_selectIndex (h : r.Selected)
    (hclean : r.currentIndexKey.keys = key.keys → r.matching ≠ [] ∨ ∀ m ∈ r.indexes, m.1.key.keys ≠ key.keys) :
    (r.selectIndex key).matching = r.indexes.filter fun m => m.1.key.keys = key.keys := by
  rw [TocCatalogueReader.selectIndex]
  split
  next hkey =>
    rcases h with hmatching | ⟨hnil, -⟩
    · rw [hmatching, hkey]
    · have hnone := (hclean hkey).resolve_left fun hne => hne hnil
      rw [hnil, eq_comm, List.filter_eq_nil_iff]
      simpa using hnone
  · rfl

theorem DB.Genuine.selectIndex {config : DbConfig} {d : Disk} {rules : List Rule} {db : DB}
    (h : db.Genuine config d rules) :
    DB.Genuine config d rules { db with catalogue := db.catalogue.selectIndex key } := by
  obtain ⟨hselected, r, hr, hk, db₀, hopen, hschema, hindexes⟩ := h
  exact ⟨hselected.selectIndex, r, hr, hk, db₀, hopen, hschema,
    hindexes.trans TocCatalogueReader.indexes_selectIndex.symm⟩

theorem DB.genuine_openReader {config : DbConfig} {d : Disk} {rules : List Rule} {db : DB} {r : Rule} (hr : r ∈ rules)
    (hk : r.Builds key) (hopen : DB.openReader config d key = .ok (some db)) : db.Genuine config d rules := by
  have hkey := key_openReader hopen
  refine ⟨.inr ?_, r, hr, hkey ▸ hk, db, hkey ▸ hopen, rfl, rfl⟩
  rw [DB.openReader] at hopen
  simp only [except_bind_ok] at hopen
  obtain ⟨path, -, catalogue, hcatalogue, hopen⟩ := hopen
  have hnew : catalogue.matching = [] ∧ catalogue.currentIndexKey.keys = ∅ := by
    rw [TocCatalogueReader.build] at hcatalogue
    simp only [except_bind_ok, except_pure_ok] at hcatalogue
    obtain ⟨_, -, rfl⟩ := hcatalogue
    exact ⟨rfl, rfl⟩
  split at hopen
  · simp at hopen
  · split at hopen
    · split at hopen
      · simp at hopen
      · simp at hopen
        exact hopen ▸ hnew
    · simp at hopen

end Selected

namespace MultiRetrieveVisitor

/-- All databases are genuine, and the selected one has a key and these indexes. -/
def AtDatabase (config : DbConfig) (d : Disk) (rules : List Rule) (dbKey : StringDict)
    (indexes : List (TocIndex BTreeHandle × Key)) (v : MultiRetrieveVisitor) : Prop :=
  v.AllOpen (DB.Genuine config d rules) ∧ ∃ db, v.db = some db ∧ db.key.keys = dbKey ∧ db.catalogue.indexes = indexes

/-- In the selected database the indexes of a key are selected. -/
def AtIndex (config : DbConfig) (d : Disk) (rules : List Rule) (dbKey indexKey : StringDict)
    (selected : TocCatalogueReader) (v : MultiRetrieveVisitor) : Prop :=
  v.AllOpen (DB.Genuine config d rules) ∧ ∃ db, v.db = some db ∧ db.key.keys = dbKey ∧
    db.catalogue.currentIndexKey.keys = indexKey ∧ db.catalogue.indexes = selected.indexes ∧
      db.catalogue.matching = selected.matching

section Levels

variable {config : DbConfig} {d : Disk} {request : MarsRequest} {rules : List Rule} {r : Rule} {w : Workspace}
  {v : MultiRetrieveVisitor} {outer : Nat → Key} {full : List String} {above : List (List (Choice MultiRetrieveVisitor))}
  {dbKey indexKey : StringDict} {indexes : List (TocIndex BTreeHandle × Key)} {selected : TocCatalogueReader}

theorem AtIndex.atDatabase (h : AtIndex config d rules dbKey indexKey selected v) :
    AtDatabase config d rules dbKey selected.indexes v :=
  ⟨h.1, h.2.imp fun _ h => ⟨h.1, h.2.1, h.2.2.2.1⟩⟩

theorem run_databaseSchema {db : DB} (h : v.db = some db) : databaseSchema.run v = .ok db.schema v := by
  obtain ⟨_, databases, iterator⟩ := v
  cases h
  rfl

theorem ends_selectedDatum {key : Key} (hv : AtIndex config d rules dbKey indexKey selected v) :
    Ends (selectDatum d key) v (fun _ t => AtIndex config d rules dbKey indexKey selected t ∧
      ∃ location, value ((selected.retrieve key).run d) = .ok location ∧ t.listed = v.listed ++
        (location.map fun l => (dbKey, indexKey, (simplifiedKey key).keys, l)).toList)
      fun e _ => value ((selected.retrieve key).run d) = .error e := by
  obtain ⟨hall, db, hdb, rfl, rfl, hindexes, hmatching⟩ := hv
  have hretrieve : db.catalogue.retrieve key = selected.retrieve key := by
    rw [TocCatalogueReader.retrieve, TocCatalogueReader.retrieve, hmatching]
  refine ends_selectDatum.mono (fun _ t ht => ?_) fun e _ he => hretrieve ▸ he.2 db hdb
  obtain ⟨rfl, hlocation⟩ := ht
  obtain ⟨location, hlocation⟩ := hlocation db hdb
  refine ⟨⟨hall, db, hdb, rfl, rfl, hindexes, hmatching⟩, location, hretrieve ▸ hlocation, ?_⟩
  rw [listed, found, hdb, Option.bind_some, hlocation]
  cases location <;> simp [listed, ListElement.content]

theorem ends_searchDatum (hw : w.At outer full 2 r.predicates {})
    (hv : AtIndex config d rules dbKey indexKey selected v) :
    Ends (Rule.expandRequest (config.visitor d) request 1 r w) v
      (fun w' t => w'.At outer full 2 r.predicates {} ∧ AtIndex config d rules dbKey indexKey selected t ∧
        ∃ ys, searchDatum config d request dbKey indexKey selected r = .ok ys ∧ t.listed = v.listed ++ ys)
      fun e _ => searchDatum config d request dbKey indexKey selected r = .error e := by
  refine Rule.ends_searchFrom (C := fun _ => True) (by omega)
    ?_ ?_ [] w v hw hv fun e (_ : Rule.OccursFrom _ _ _ 2 _ (fun _ _ _ _ => False) _ _ _ _ e) => trivial
  · rintro p s ⟨-, db, hdb, -, -, -, hmatching⟩ -
    have haxes : MultiRetrieveVisitor.axes s = some selected.axis := by
      rw [MultiRetrieveVisitor.axes, hdb, Option.map_some, TocCatalogueReader.axis_congr hmatching]
    change p.offered (MultiRetrieveVisitor.values config.mars s.axes request p.keyword r.registry) = _
    rw [haxes]
    rfl
  · intro _ k' w s _ hw hs _
    rw [Rule.ends_atEnd_datum, hw.key_eq (by omega)]
    split
    · refine (ends_selectedDatum hs).mono (fun _ t ht => ?_) fun e _ he => ?_
      · obtain ⟨ht, location, hlocation, hlisted⟩ := ht
        refine ⟨hw.setRegistry (by omega) _, ht, _, ?_, hlisted⟩
        cases location <;> simp [hlocation, bind, Except.bind, pure, Except.pure]
      · simp [he, bind, Except.bind]
    · rfl

theorem ends_selectedIndex {key : Key} (hv : AtDatabase config d rules dbKey indexes v)
    (hclean : Event.Clean config request (.selectsIndex r key v)) : Ends (selectIndex key) v
      (fun b t => t.listed = v.listed ∧ ∃ matching, matching = (indexes.filter fun m => m.1.key.keys = key.keys) ∧
        (b = ! matching.isEmpty ∨ b = true ∧ matching = [] ∧ ∀ r' ∈ r.rules, config.Quiet request r') ∧
        AtIndex config d rules dbKey key.keys { indexes, matching } t) fun _ _ => False := by
  obtain ⟨hall, db, hdb, rfl, rfl⟩ := hv
  have hgenuine := hall db (mem_opened.mpr (.inl hdb))
  have hmatching := hgenuine.1.matching_selectIndex fun hkey => (hclean db hdb hkey).imp_right And.left
  rw [selectIndex, ends_bind, ends_get]
  simp only [hdb, ends_bind, ends_modify, ends_pure]
  refine ⟨rfl, _, rfl, ?_, fun db' hdb' => ?_, _, rfl, rfl, currentIndexKey_selectIndex _, ?_, hmatching⟩
  · rw [hmatching]
    by_cases hkey : db.catalogue.currentIndexKey.keys = key.keys
    · by_cases hempty : (db.catalogue.indexes.filter fun m => m.1.key.keys = key.keys) = []
      · -- an index key that has been selected in vain is taken for one that has indexes
        have hnil : db.catalogue.matching = [] := by
          rw [← hempty, ← hmatching, TocCatalogueReader.selectIndex, if_pos hkey]
        have hquiet := ((hclean db hdb hkey).resolve_left fun hne => hne hnil).2
        exact .inr ⟨by simp [hkey], hempty, hquiet⟩
      · exact .inl (by simp only [hkey, true_or, decide_true, List.isEmpty_eq_false_iff.mpr hempty, Bool.not_false])
    · exact .inl (by simp [hkey])
  · rcases mem_opened.mp hdb' with h | h
    · exact Option.some.inj h ▸ hgenuine.selectIndex
    · exact hall db' (mem_opened.mpr (.inr h))
  · exact TocCatalogueReader.indexes_selectIndex

theorem ends_searchIndex (hw : w.At outer full 1 r.predicates {}) (hv : AtDatabase config d rules dbKey indexes v)
    (hclean : ∀ e, Rule.Occurs (config.visitor d) request 2 above r w v e → e.Clean config request) :
    Ends (Rule.expandRequest (config.visitor d) request 2 r w) v
      (fun w' t => w'.At outer full 1 r.predicates {} ∧ AtDatabase config d rules dbKey indexes t ∧
        ∃ ys, searchIndex config d request dbKey indexes r = .ok ys ∧ t.listed = v.listed ++ ys)
      fun e _ => searchIndex config d request dbKey indexes r = .error e := by
  refine Rule.ends_searchFrom (by omega) ?_ ?_ [] w v hw hv hclean
  · rintro p s ⟨-, db, hdb, -, -⟩ hasks
    rw [Event.Clean, unselectedAxes, hdb] at hasks
    exact congrArg p.offered hasks
  · intro choices k' w s _ hw hs hclean
    have hkey := hw.key_eq (by omega) r.registry
    rw [Rule.ends_atEnd_index, hkey]
    by_cases hr : r.rules.isEmpty
    · simp [hr]
    · have hselects : Event.Clean config request (.selectsIndex r { k' with registry := some r.registry } s) :=
        hclean _ ((Rule.occursAtEnd_index hr).mpr (.inl (by rw [hkey])))
      simp only [hr, Bool.false_eq_true, if_false]
      refine (ends_selectedIndex hs hselects).mono (fun b t ht => ?_) fun _ _ h => h.elim
      obtain ⟨hlisted, matching, rfl, hb, ht⟩ := ht
      replace hw : (w.setRegistry 1 r.registry).At outer full 1 [] k' := hw.setRegistry (by omega) _
      cases b with
      | false =>
        have hmatching := hb.resolve_right fun h => Bool.false_ne_true h.1
        rw [eq_comm, Bool.not_eq_false'] at hmatching
        simp only [hmatching, Bool.false_eq_true, if_false, if_true]
        exact ⟨hw, ht.atDatabase, [], rfl, by rw [hlisted, List.append_nil]⟩
      | true =>
        have hsearch : (if (indexes.filter fun m => m.1.key.keys = k'.keys).isEmpty then .ok [] else do
            let parts ← r.rules.mapM (searchDatum config d request dbKey k'.keys
              { indexes, matching := indexes.filter fun m => m.1.key.keys = k'.keys })
            return parts.flatten) = do
            let parts ← r.rules.mapM (searchDatum config d request dbKey k'.keys
              { indexes, matching := indexes.filter fun m => m.1.key.keys = k'.keys })
            return parts.flatten := by
          split
          next hempty =>
            have hquiet := (hb.resolve_left fun h => by simp [hempty] at h).2
            rw [hquiet.1]
            exact (searchDatum_quiet hquiet.2).symm
          next => rfl
        simp only [if_true, hsearch]
        have hbelow : Workspace.At _ _ 2 [] {} _ := hw.deepen (by omega)
        refine Ends.mono (Rule.ends_searchRules (C := fun _ => True) hbelow ht
          (fun e (_ : Rule.OccursIn _ (fun _ _ _ _ => False) _ _ _ e) => trivial)
          fun r' _ w t hw ht _ => ends_searchDatum (r := r') hw ht) (fun w' u hu => ?_) fun e _ he => ?_
        · obtain ⟨⟨hw', hu⟩, parts, hparts, hlisted'⟩ := hu
          refine ⟨hw.back rfl hw', hu.atDatabase, parts.flatten, ?_, by rw [hlisted', hlisted]⟩
          simp [hparts, bind, Except.bind, pure, Except.pure]
        · simp [he, bind, Except.bind]

theorem ends_selectedDatabase {key : Key} (hexclusive : Rule.Exclusive rules) (hr : r ∈ rules) (hk : r.Builds key)
    (hv : v.AllOpen (DB.Genuine config d rules)) : Ends (selectDatabase config d key) v
      (fun b t => t.listed = v.listed ∧ t.AllOpen (DB.Genuine config d rules) ∧
        if b then ∃ db₀, DB.openReader config d key = .ok (some db₀) ∧ ∃ db, t.db = some db ∧ db.key.keys = key.keys ∧
          db.schema = db₀.schema ∧ db.catalogue.indexes = db₀.catalogue.indexes
        else DB.openReader config d key = .ok none)
      fun e _ => DB.openReader config d key = .error e := by
  refine (ends_selectDatabase (fun db => DB.genuine_openReader hr hk) hv).mono (fun b t ht => ?_) fun _ _ h => h.2
  obtain ⟨hselected, hiterator, hnone⟩ := ht
  have hlisted : t.listed = v.listed := congrArg (List.map ListElement.content) hiterator
  cases b with
  | false => exact ⟨hlisted, hselected, hnone rfl⟩
  | true =>
    obtain ⟨hall, db, hdb, hkey⟩ : InDatabase (DB.Genuine config d rules) key t := hselected
    obtain ⟨-, r', hr', hk', db₀, hopen, hschema, hindexes⟩ := hall db (mem_opened.mpr (.inl hdb))
    obtain rfl := hexclusive.ext hr' hr hk' hk hkey
    exact ⟨hlisted, hall, db₀, hopen, db, hdb, hkey, hschema.symm, hindexes.symm⟩

theorem ends_searchDatabase (hexclusive : Rule.Exclusive rules) (hr : r ∈ rules)
    (hw : w.At outer full 0 r.predicates {}) (hv : v.AllOpen (DB.Genuine config d rules))
    (hclean : ∀ e, Rule.Occurs (config.visitor d) request 3 above r w v e → e.Clean config request) :
    Ends (Rule.expandRequest (config.visitor d) request 3 r w) v
      (fun w' t => w'.At outer full 0 r.predicates {} ∧ t.AllOpen (DB.Genuine config d rules) ∧
        ∃ ys, searchDatabase config d request r = .ok ys ∧ t.listed = v.listed ++ ys)
      fun e _ => searchDatabase config d request r = .error e := by
  refine Rule.ends_searchFrom (by omega) ?_ ?_ [] w v hw hv hclean
  · exact fun p s _ hasks => congrArg p.offered hasks
  · intro choices k' w s hk' hw hs hclean
    have hkey := hw.key_eq (by omega) r.registry
    have hbuilds : r.Builds { k' with registry := some r.registry } := ⟨k', hk', rfl⟩
    rw [Rule.ends_atEnd_database, hkey]
    by_cases hrules : r.rules.isEmpty
    · simp [hrules]
    · simp only [hrules, Bool.false_eq_true, if_false]
      have hfull := hw.fullKeys rfl
      replace hw := hw.setRegistry (by omega) r.registry
      refine ends_iff.mpr ⟨fun b t hrun => ?_, fun e t hrun => ?_⟩
      · obtain ⟨hlisted, hall, hopen⟩ := (ends_selectedDatabase hexclusive hr hbuilds hs).ok hrun
        cases b with
        | false =>
          replace hopen : DB.openReader config d _ = .ok none := hopen
          exact ⟨hw, hall, [], by simp [hopen, bind, Except.bind, pure, Except.pure], by rw [hlisted, List.append_nil]⟩
        | true =>
          obtain ⟨db₀, hopen, db, hdb, hdbKey, hschema, hindexes⟩ := hopen
          refine ⟨fun _ => ?_, fun hne => absurd hfull.symm hne⟩
          change Ends databaseSchema t _ _
          rw [databaseSchema, ends_bind, ends_get, hdb, ends_pure, Schema.expandRequestSecond, hschema]
          cases hrule : db₀.schema.databaseRule { k' with registry := some r.registry } with
          | none => simp [hopen, hrule, bind, Except.bind]
          | some dbRule =>
            simp only [ends_bind, ends_pure]
            have hat : AtDatabase config d rules k'.keys db₀.catalogue.indexes t :=
              ⟨hall, db, hdb, hdbKey, hindexes⟩
            have hbelow : ∀ e, Rule.OccursIn (Rule.expandRequest (config.visitor d) request 2)
                (Rule.Occurs (config.visitor d) request 2 (above ++ [choices])) dbRule.rules
                (Workspace.below db₀.schema.registry { k' with registry := some r.registry }) t e →
                e.Clean config request := by
              intro e ho
              refine hclean e ((Rule.occursAtEnd_database hrules).mpr ⟨t, db₀.schema, t, dbRule, ?_⟩)
              rw [hkey]
              exact ⟨hrun, hschema ▸ run_databaseSchema hdb, hrule, ho⟩
            refine Ends.mono (Rule.ends_searchRules Workspace.At.below hat hbelow
              fun r' _ w t hw ht => ends_searchIndex (r := r') hw ht) (fun w' u hu => ?_) fun e _ he => ?_
            · obtain ⟨⟨-, hu⟩, parts, hparts, hlisted'⟩ := hu
              refine ⟨hw, hu.1, parts.flatten, ?_, by rw [hlisted', hlisted]⟩
              simp [hopen, hrule, hparts, bind, Except.bind, pure, Except.pure]
            · simp [hopen, hrule, he, bind, Except.bind]
      · have he := (ends_selectedDatabase hexclusive hr hbuilds hs).error hrun
        simp [he, bind, Except.bind]

end Levels

end MultiRetrieveVisitor

/-- An inspector as calls of `inspect` leave it, whatever they end in. -/
inductive Inspector.Reachable (config : DbConfig) (d : Disk) : Inspector → Prop
  | new : Reachable config d {}
  | inspect {i : Inspector} (h : Reachable config d i) (request : MarsRequest) :
      Reachable config d (final ((Inspector.inspect config d request).run i))

/-- Nothing that earlier branches and calls leave selected makes a difference in a call. -/
def Inspector.Undisturbed (config : DbConfig) (d : Disk) (request : MarsRequest) (i : Inspector) : Prop :=
  ∀ e, config.schema.Occurs (config.visitor d) request { databases := i.databases } e → e.Clean config request

/-- Two calls find the same elements, in any order, or both throw. -/
def ListElement.SameSet (x y : Except Failure (List ListElement)) : Prop :=
  (∃ elements elements', x = .ok elements ∧ y = .ok elements' ∧
    ∀ c, c ∈ elements.map content ↔ c ∈ elements'.map content) ∨ ∃ e e', x = .error e ∧ y = .error e'

/-- The configuration with its schema's first-level rules in another order. -/
def DbConfig.reorder (config : DbConfig) (rules : List Rule) : DbConfig :=
  { config with schema := { config.schema with rules } }

namespace Inspector

variable {config : DbConfig} {d : Disk} {request : MarsRequest} {i i' : Inspector} {rules : List Rule}

theorem Reachable.genuine (h : i.Reachable config d) :
    ∀ db ∈ i.databases, db.Genuine config d config.schema.rules := by
  induction h with
  | new => exact fun _ h => by cases h
  | @inspect i _ request ih =>
    have hkeeps : (config.visitor d).Keeps config.schema.rules _ _ _ :=
      MultiRetrieveVisitor.keeps (G := DB.Genuine config d config.schema.rules) (fun _ _ h => h.selectIndex)
        fun r hr key db => DB.genuine_openReader hr
    have hopen : MultiRetrieveVisitor.AllOpen (DB.Genuine config d config.schema.rules) { databases := i.databases } :=
      fun db hdb => ih db (by simpa [MultiRetrieveVisitor.opened] using hdb)
    have hvisit : Ends (config.schema.expandRequest (config.visitor d) request) _ _ _ := hkeeps.ends_expandRequest hopen
    refine Ends.final (P := fun i : Inspector => ∀ db ∈ i.databases, db.Genuine config d config.schema.rules) ?_
    rw [Inspector.inspect, ends_bind, ends_get]
    split
    · rename_i hrun
      exact hvisit.ok hrun
    · rename_i hrun
      exact hvisit.error hrun

/-- An undisturbed call finds what a search without state finds. -/
theorem Reachable.inspect_eq_search (h : i.Reachable config d) (hexclusive : Rule.Exclusive config.schema.rules)
    (hclean : i.Undisturbed config d request) :
    List.map ListElement.content <$> value ((Inspector.inspect config d request).run i) =
      search config d request config.schema.rules := by
  have hopen : MultiRetrieveVisitor.AllOpen (DB.Genuine config d config.schema.rules) { databases := i.databases } :=
    fun db hdb => h.genuine db (by simpa [MultiRetrieveVisitor.opened] using hdb)
  have hfresh : (Workspace.fresh config.schema.registry).At (fun _ => {}) [] 0 [] {} := .fresh
  have hvisit : Ends (config.schema.expandRequest (config.visitor d) request) { databases := i.databases }
      (fun _ t => search config d request config.schema.rules = .ok t.listed)
      fun e _ => search config d request config.schema.rules = .error e := by
    rw [Schema.expandRequest, ends_bind]
    refine Ends.mono (Rule.ends_searchRules hfresh hopen hclean fun r hr w t hw ht hclean =>
      MultiRetrieveVisitor.ends_searchDatabase hexclusive hr hw ht hclean) (fun w' t ht => ?_) fun e _ he => ?_
    · obtain ⟨-, parts, hparts, hlisted⟩ := ht
      rw [ends_pure, search, hparts, hlisted]
      rfl
    · rw [search, he]
      rfl
  have hcall : Ends (Inspector.inspect config d request) i
      (fun elements _ => search config d request config.schema.rules = .ok (elements.map ListElement.content))
      fun e _ => search config d request config.schema.rules = .error e := by
    rw [Inspector.inspect, ends_bind, ends_get]
    split
    · rename_i hrun
      exact hvisit.ok hrun
    · rename_i hrun
      exact hvisit.error hrun
  cases hrun : (Inspector.inspect config d request).run i with
  | ok elements i' => exact (hcall.ok hrun).symm
  | error e i' => exact (hcall.error hrun).symm

/-- What two searches find is the same, with the first-level rules in any order. -/
theorem sameSet_of_search {x y : Except Failure (List ListElement)} (hperm : config.schema.rules.Perm rules)
    (hx : List.map ListElement.content <$> x = search config d request config.schema.rules)
    (hy : List.map ListElement.content <$> y = search config d request rules) : ListElement.SameSet x y := by
  rcases mapM_perm (g := searchDatabase config d request) hperm with
    ⟨parts, parts', hparts, hparts', hmem⟩ | ⟨e, e', he, he'⟩
  · rw [search, hparts] at hx
    rw [search, hparts'] at hy
    obtain ⟨elements, hok, hcontent⟩ := except_map_ok.mp hx
    obtain ⟨elements', hok', hcontent'⟩ := except_map_ok.mp hy
    exact .inl ⟨elements, elements', hok, hok', fun c => by rw [hcontent, hcontent', hmem c]⟩
  · rw [search, he] at hx
    rw [search, he'] at hy
    exact .inr ⟨e, e', except_map_error.mp hx, except_map_error.mp hy⟩

/-- Undisturbed calls of reachable inspectors find the same, with the first-level rules in any order. -/
theorem inspect_sameSet (hexclusive : Rule.Exclusive config.schema.rules) (hperm : config.schema.rules.Perm rules)
    (hi : i.Reachable config d) (hi' : i'.Reachable (config.reorder rules) d)
    (hclean : i.Undisturbed config d request) (hclean' : i'.Undisturbed (config.reorder rules) d request) :
    ListElement.SameSet (value ((Inspector.inspect config d request).run i))
      (value ((Inspector.inspect (config.reorder rules) d request).run i')) :=
  sameSet_of_search hperm (hi.inspect_eq_search hexclusive hclean)
    (hi'.inspect_eq_search (hexclusive.perm hperm) hclean')

end Inspector

section Apart

/-- The database is one that the store has under a key of the first level. -/
def DbConfig.Stores (config : DbConfig) (d : Disk) (db : DB) : Prop :=
  ∃ r ∈ config.schema.rules, r.Builds db.key ∧ DB.openReader config d db.key = .ok (some db)

/-- The type of the predicate reads no axes, and no stored index has one for its keyword. -/
def DbConfig.AxisFree (config : DbConfig) (d : Disk) (registry : TypesRegistry) (p : Predicate) : Prop :=
  (∀ t, registry.lookupType p.keyword = .ok t → t.type ≠ "Step" ∧ t.type ≠ "Param") ∧
    ∀ db, config.Stores d db → ∀ m ∈ db.catalogue.indexes, p.keyword ∉ m.1.axes.axis

/-- No keyword of a first or second level is an axis of a stored index, and the third level does not throw where no index
is selected. -/
structure DbConfig.Apart (config : DbConfig) (d : Disk) (request : MarsRequest) : Prop where
  first : ∀ r ∈ config.schema.rules, ∀ p ∈ r.predicates, config.AxisFree d r.registry p
  second : ∀ db, config.Stores d db → ∀ dbRule, db.schema.databaseRule db.key = some dbRule → ∀ r ∈ dbRule.rules,
    r.predicates ≠ [] ∧ (∀ p ∈ r.predicates, config.AxisFree d r.registry p) ∧ ∀ r' ∈ r.rules, config.Quiet request r'

variable {config : DbConfig} {d : Disk} {request : MarsRequest} {rules : List Rule} {db : DB} {k key : Key} {r : Rule}
  {registry : TypesRegistry} {p : Predicate} {v : MultiRetrieveVisitor} {i i' : Inspector}

/-- A genuine database is stored, with its schema and indexes. -/
theorem DB.Genuine.stored (h : db.Genuine config d config.schema.rules) :
    ∃ db₀, config.Stores d db₀ ∧ db₀.key = db.key ∧ db₀.schema = db.schema ∧
      db₀.catalogue.indexes = db.catalogue.indexes := by
  obtain ⟨-, r, hr, hk, db₀, hopen, hschema, hindexes⟩ := h
  have hkey : db₀.key = db.key := key_openReader hopen
  exact ⟨db₀, ⟨r, hr, hkey ▸ hk, hkey ▸ hopen⟩, hkey, hschema, hindexes⟩

theorem TocCatalogueReader.Selected.mem_indexes {reader : TocCatalogueReader} (h : reader.Selected)
    {m : TocIndex BTreeHandle × Key} (hm : m ∈ reader.matching) : m ∈ reader.indexes := by
  rcases h with h | ⟨hnil, -⟩
  · rw [h] at hm
    exact List.mem_of_mem_filter hm
  · simp [hnil] at hm

/-- Without an axis for the keyword the axes do not matter to a type that does not read them. -/
theorem MultiRetrieveVisitor.values_free {axes axes' : Option Axes} {keyword : String} {mars : MarsTypes}
    (htype : ∀ t, registry.lookupType keyword = .ok t → t.type ≠ "Step" ∧ t.type ≠ "Param")
    (h : (axes.bind fun a => a keyword) = none) (h' : (axes'.bind fun a => a keyword) = none) :
    values mars axes request keyword registry = values mars axes' request keyword registry := by
  rw [values, values, h, h']
  cases ht : registry.lookupType keyword with
  | error e => rfl
  | ok t =>
    obtain ⟨hstep, hparam⟩ := htype t ht
    have hread : t.getValues mars request keyword axes = t.getValues mars request keyword axes' := by
      rw [FieldType.getValues.eq_def, FieldType.getValues.eq_def]
      split <;> first | rfl | contradiction
    simp only [bind, Except.bind, hread]

/-- No database that is open has an axis for the keyword. -/
theorem DbConfig.AxisFree.axes (h : config.AxisFree d registry p)
    (hopen : v.AllOpen (DB.Genuine config d config.schema.rules)) : (v.axes.bind fun a => a p.keyword) = none := by
  rw [MultiRetrieveVisitor.axes]
  cases hdb : v.db with
  | none => rfl
  | some db =>
    have hgenuine := hopen db (MultiRetrieveVisitor.mem_opened.mpr (.inl hdb))
    obtain ⟨db₀, hstores, -, -, hindexes⟩ := hgenuine.stored
    have hnone : (db.catalogue.matching.filterMap fun m => m.1.axes.axis[p.keyword]?) = [] := by
      rw [List.filterMap_eq_nil_iff]
      intro m hm
      have hfree := h.2 db₀ hstores m (hindexes ▸ hgenuine.1.mem_indexes hm)
      simpa using hfree
    change db.catalogue.axis p.keyword = none
    rw [TocCatalogueReader.axis, hnone]
    rfl

theorem DbConfig.AxisFree.unselectedAxes (v : MultiRetrieveVisitor) {depth : Nat} (hdepth : depth < 2) (keyword : String) :
    ((v.unselectedAxes depth).bind fun a => a keyword) = none := by
  obtain rfl | rfl : depth = 0 ∨ depth = 1 := by omega
  · rfl
  · rw [MultiRetrieveVisitor.unselectedAxes]
    cases v.db <;> rfl

/-- A key that has been selected without indexes has none. -/
theorem TocCatalogueReader.Selected.no_index {reader : TocCatalogueReader} (h : reader.Selected)
    (hkey : reader.currentIndexKey.keys = key.keys) (hne : key.keys ≠ ∅) (hnil : reader.matching = []) :
    ∀ m ∈ reader.indexes, m.1.key.keys ≠ key.keys := by
  rcases h with hmatching | ⟨-, hempty⟩
  · rw [hnil, hkey, eq_comm, List.filter_eq_nil_iff] at hmatching
    simpa using hmatching
  · exact absurd (hkey.symm.trans hempty) hne

/-- Where the levels are apart, nothing that earlier branches and calls leave selected makes a difference. -/
theorem Inspector.Reachable.undisturbed (h : i.Reachable config d) (hapart : config.Apart d request) :
    i.Undisturbed config d request := by
  have hkeeps : (config.visitor d).Keeps config.schema.rules _ _ _ :=
    MultiRetrieveVisitor.keeps (G := DB.Genuine config d config.schema.rules) (fun _ _ h => h.selectIndex)
      fun r hr key db => DB.genuine_openReader hr
  have hopen : MultiRetrieveVisitor.AllOpen (DB.Genuine config d config.schema.rules) { databases := i.databases } :=
    fun db hdb => h.genuine db (by simpa [MultiRetrieveVisitor.opened] using hdb)
  have hsecond {k : Key} {schema : Schema} {dbRule r : Rule} {s u : MultiRetrieveVisitor}
      (hs : MultiRetrieveVisitor.InDatabase (DB.Genuine config d config.schema.rules) k s)
      (hschema : MultiRetrieveVisitor.databaseSchema.run s = .ok schema u) (hrule : schema.databaseRule k = some dbRule)
      (hr : r ∈ dbRule.rules) : r.predicates ≠ [] ∧ (∀ p ∈ r.predicates, config.AxisFree d r.registry p) ∧
        ∀ r' ∈ r.rules, config.Quiet request r' := by
    obtain ⟨hall, db, hdb, hkey⟩ := hs
    obtain ⟨db₀, hstores, hkey₀, hschema₀, -⟩ := (hall db (MultiRetrieveVisitor.mem_opened.mpr (.inl hdb))).stored
    rw [MultiRetrieveVisitor.run_databaseSchema hdb] at hschema
    cases hschema
    have hkeys : db₀.key.keys = k.keys := by rw [hkey₀, hkey]
    rw [← hschema₀, ← Schema.databaseRule_congr hkeys] at hrule
    exact hapart.second db₀ hstores dbRule hrule r hr
  intro e ho
  cases hkeeps.may hopen ho with
  | database hr hp hs =>
    have hfree := hapart.first _ hr _ hp
    exact MultiRetrieveVisitor.values_free hfree.1 (hfree.axes hs) (DbConfig.AxisFree.unselectedAxes _ (by omega) _)
  | index hs hschema hrule hr hp ht =>
    have hfree := (hsecond hs hschema hrule hr).2.1 _ hp
    exact MultiRetrieveVisitor.values_free hfree.1 (hfree.axes ht.1) (DbConfig.AxisFree.unselectedAxes _ (by omega) _)
  | selects hs hschema hrule hr hkey ht =>
    intro db hdb hsame
    obtain ⟨hne, -, hquiet⟩ := hsecond hs hschema hrule hr
    have hselected := (ht.1 db (MultiRetrieveVisitor.mem_opened.mpr (.inl hdb))).1
    refine or_iff_not_imp_left.mpr fun hnil => ⟨hselected.no_index hsame (fun hempty => ?_) (not_not.mp hnil), hquiet⟩
    obtain ⟨p, hp⟩ := List.exists_mem_of_ne_nil _ hne
    have hin := (hkey.names.2 p.keyword).mpr (List.mem_map_of_mem hp)
    rw [hempty] at hin
    exact Std.ExtTreeMap.not_mem_empty hin
  | datum => rfl
  | selectsDatum => trivial

theorem DbConfig.Apart.reorder (h : config.Apart d request) (hperm : config.schema.rules.Perm rules) :
    (config.reorder rules).Apart d request := by
  have hstores {db : DB} (hdb : (config.reorder rules).Stores d db) : config.Stores d db :=
    hdb.imp fun _ hr => ⟨hperm.mem_iff.mpr hr.1, hr.2⟩
  have hfree {registry : TypesRegistry} {p : Predicate} (hp : config.AxisFree d registry p) :
      (config.reorder rules).AxisFree d registry p := ⟨hp.1, fun db hdb => hp.2 db (hstores hdb)⟩
  refine ⟨fun r hr p hp => hfree (h.first r (hperm.mem_iff.mpr hr) p hp), fun db hdb dbRule hrule r hr => ?_⟩
  obtain ⟨hne, hp, hquiet⟩ := h.second db (hstores hdb) dbRule hrule r hr
  exact ⟨hne, fun p hmem => hfree (hp p hmem), hquiet⟩

/-- Where no upper keyword is an axis, reachable inspectors find the same whatever they were asked before. -/
theorem Inspector.sameSet_of_apart (hexclusive : Rule.Exclusive config.schema.rules) (hperm : config.schema.rules.Perm rules)
    (hi : i.Reachable config d) (hi' : i'.Reachable (config.reorder rules) d) (hapart : config.Apart d request) :
    ListElement.SameSet (value ((Inspector.inspect config d request).run i))
      (value ((Inspector.inspect (config.reorder rules) d request).run i')) :=
  sameSet_of_search hperm (hi.inspect_eq_search hexclusive (hi.undisturbed hapart))
    (hi'.inspect_eq_search (hexclusive.perm hperm) (hi'.undisturbed (hapart.reorder hperm)))

end Apart

section Sample

/-- Analyses are indexed by type, forecasts by type and step. -/
def stepSchema : Schema where
  registry := .untyped
  rules := [.mk 1 [⟨"class", .always⟩] [
    .mk 1 [⟨"type", .value "an"⟩] [.mk 1 [⟨"step", .always⟩, ⟨"param", .always⟩] [] .untyped] .untyped,
    .mk 1 [⟨"type", .value "fc"⟩, ⟨"step", .always⟩] [.mk 1 [⟨"param", .always⟩] [] .untyped] .untyped] .untyped]

def analysisAndForecast : Disk :=
  sampleDatabase stepSchema [
    (Key.ofList [("type", "an")] none, [("step", ["0"]), ("param", ["130"])], ["0:130"]),
    (Key.ofList [("type", "fc"), ("step", "6")] none, [("param", ["130"])], ["130"])]

def analysis : MarsRequest := ⟨[("class", ["od"]), ("type", ["an"]), ("step", ["0"]), ("param", ["130"])]⟩

def forecast : MarsRequest := ⟨[("class", ["od"]), ("type", ["fc"]), ("step", ["6"]), ("param", ["130"])]⟩

/-- After the analysis its steps are still selected, and the forecast is not found any more. -/
theorem forecast_afterAnalysis : ∃ i, Inspector.Reachable (sampleConfig stepSchema) analysisAndForecast i ∧
    ¬ ListElement.SameSet
      (value ((Inspector.inspect (sampleConfig stepSchema) analysisAndForecast forecast).run {}))
      (value ((Inspector.inspect (sampleConfig stepSchema) analysisAndForecast forecast).run i)) := by
  refine ⟨_, .inspect .new analysis, ?_⟩
  obtain ⟨e, hfresh⟩ : ∃ e,
      value ((Inspector.inspect (sampleConfig stepSchema) analysisAndForecast forecast).run {}) = .ok [e] := ⟨_, rfl⟩
  have hafter : value ((Inspector.inspect (sampleConfig stepSchema) analysisAndForecast forecast).run
      (final ((Inspector.inspect (sampleConfig stepSchema) analysisAndForecast analysis).run {}))) = .ok [] := rfl
  rw [hfresh, hafter]
  rintro (⟨elements, elements', hok, hok', hsame⟩ | ⟨_, _, herror, -⟩)
  · cases hok
    cases hok'
    simpa using hsame e.content
  · cases herror

/-- Two classes, with rules of their own. -/
def classSchema : Schema where
  registry := .untyped
  rules := [
    .mk 1 [⟨"class", .value "od"⟩] [.mk 1 [⟨"type", .always⟩] [.mk 1 [⟨"param", .always⟩] [] .untyped] .untyped] .untyped,
    .mk 2 [⟨"class", .value "rd"⟩] [.mk 2 [⟨"type", .always⟩] [.mk 2 [⟨"param", .always⟩] [] .untyped] .untyped] .untyped]

def twoParams : Disk :=
  sampleDatabase classSchema [(Key.ofList [("type", "an")] none, [("param", ["130", "131"])], ["130", "131"])]

def paramRequest (value : String) : MarsRequest := ⟨[("class", ["od"]), ("type", ["an"]), ("param", [value])]⟩

theorem exclusive_classSchema : Rule.Exclusive classSchema.rules := by
  have hclass : ∀ {value k}, Rule.Picks [⟨"class", .value value⟩] {} k → k.find "class" = some value := by
    rintro value k ⟨value', haccepts, rfl⟩
    simpa [Predicate.accepts, Matcher.accepts, Key.find_push_eq] using haccepts
  refine .cons (fun r hr => ?_) (List.pairwise_singleton _ _)
  rintro _ _ ⟨k, hk, rfl⟩ ⟨k', hk', rfl⟩ hkeys
  obtain rfl := List.mem_singleton.mp hr
  have hfind : k.find "class" = k'.find "class" := congrArg (·["class"]?) hkeys
  rw [hclass hk, hclass hk'] at hfind
  simp at hfind

/-- Classes and types are no axes of the index of params. -/
theorem apart_classSchema (value : String) : (sampleConfig classSchema).Apart twoParams (paramRequest value) := by
  obtain ⟨catalogue, hopen, haxes⟩ : ∃ catalogue, (∀ key, DB.openReader (sampleConfig classSchema) twoParams key =
      .ok (some ⟨key, catalogue, classSchema⟩)) ∧ ∀ m ∈ catalogue.indexes,
        m.1.axes.axis = Std.ExtTreeMap.ofList [("param", Std.ExtTreeSet.ofList ["130", "131"])] := by
    refine ⟨_, fun _ => rfl, fun m hm => ?_⟩
    obtain rfl := List.mem_singleton.mp hm
    rfl
  have hstores (db : DB) (h : (sampleConfig classSchema).Stores twoParams db) :
      db.schema = classSchema ∧ db.catalogue = catalogue := by
    obtain ⟨-, -, -, hdb⟩ := h
    have hsame := Option.some.inj (Except.ok.inj ((hopen db.key).symm.trans hdb))
    exact ⟨(congrArg DB.schema hsame).symm, (congrArg DB.catalogue hsame).symm⟩
  have hfree (p : Predicate) (hp : p.keyword ≠ "param") : (sampleConfig classSchema).AxisFree twoParams .untyped p := by
    refine ⟨fun t ht => ?_, fun db hdb m hm => ?_⟩
    · cases ht
      exact ⟨by decide, by decide⟩
    · rw [(hstores db hdb).2] at hm
      rw [haxes m hm]
      simpa using hp.symm
  refine ⟨fun r hr p hp => ?_, fun db hdb dbRule hrule r hr => ?_⟩
  · rcases List.mem_pair.mp hr with rfl | rfl <;> obtain rfl := List.mem_singleton.mp hp <;> exact hfree _ (by decide)
  · rw [Schema.databaseRule, (hstores db hdb).1] at hrule
    rcases List.mem_pair.mp (List.mem_of_find?_eq_some hrule) with rfl | rfl <;> obtain rfl := List.mem_singleton.mp hr
    all_goals
      refine ⟨by decide, fun p hp => ?_, fun r' hr' => ?_⟩
      · obtain rfl := List.mem_singleton.mp hp
        exact hfree _ (by decide)
      · obtain rfl := List.mem_singleton.mp hr'
        refine ⟨rfl, fun p hp => ?_⟩
        obtain rfl := List.mem_singleton.mp hp
        exact ⟨[value], rfl⟩

theorem sameSet_afterParam : ListElement.SameSet
    (value ((Inspector.inspect (sampleConfig classSchema) twoParams (paramRequest "130")).run {}))
    (value ((Inspector.inspect ((sampleConfig classSchema).reorder classSchema.rules.reverse) twoParams (paramRequest "130")).run
      (final ((Inspector.inspect ((sampleConfig classSchema).reorder classSchema.rules.reverse) twoParams
        (paramRequest "131")).run {})))) :=
  Inspector.inspect_sameSet exclusive_classSchema (List.reverse_perm _).symm .new (.inspect .new _)
    (Inspector.Reachable.new.undisturbed (apart_classSchema "130"))
    ((Inspector.Reachable.inspect .new _).undisturbed ((apart_classSchema "130").reorder (List.reverse_perm _).symm))

end Sample

end Fdb5
