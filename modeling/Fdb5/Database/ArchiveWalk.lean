import Mathlib.Data.List.Perm.Subperm
import Fdb5.Database.ArchiverRun

/-! What an archiver does to the databases while a field is expanded. -/
namespace Fdb5

open Effect Search Archiver

/-- The places in `databases_` of the databases that a field can be looked for in. -/
def Schema.databaseKeys (s : Schema) (field : Key) : List (List String) :=
  s.rules.filterMap fun f =>
    match f.assign field with
    | .ok (some k) => some k.order
    | _ => none

/-- The keys that the rules make of a field are canonical, and every index takes it. -/
structure Schema.Canonical (s : Schema) (version : Nat) (field : Key) : Prop where
  database : ∀ f ∈ s.rules, ∀ k, f.assign field = .ok (some k) → k.Addresses k.keys
  index : ∀ f ∈ s.rules, ∀ i ∈ f.rules, ∀ k, i.assign field = .ok (some k) → k.Selectable
  datum : ∀ f ∈ s.rules, ∀ i ∈ f.rules, ∀ r ∈ i.rules, ∀ k, r.assign field = .ok (some k) →
    ∀ location, Put.Archivable version ⟨k, location⟩

/-- `current_` is an open DB. -/
def Archiver.Open (X : Archiver) : Prop := ∀ p ∈ X.current, ∃ e ∈ X.databases[p.1.order]?, e.db = p.2

instance (X : Archiver) : Decidable X.Open :=
  inferInstanceAs (Decidable (∀ p ∈ X.current, ∃ e ∈ X.databases[p.1.order]?, e.db = p.2))

namespace ArchiverSystem

variable (config : ArchiveConfig) (s : ArchiverSystem)

/-- The DB of an entry has nothing to flush. -/
def Flushed (e : OpenDB) : Prop := ∀ D ∈ (s.dbs e.key.keys).dbs e.db, ∀ S ∈ D.store, S.dirty = false

instance (e : OpenDB) : Decidable (s.Flushed e) :=
  inferInstanceAs (Decidable (∀ D ∈ (s.dbs e.key.keys).dbs e.db, ∀ S ∈ D.store, S.dirty = false))

/-- What is asked of a call to `archive`: either no DB has to be closed for it, or those that can be have nothing to flush;
the name of a new data file is not in use, and no stream takes more once a write to it has failed in part. -/
structure Takes (X : Archiver) (field : Key) (data : DataBytes) (x : Archiving) : Prop where
  current : X.Open
  room : (X.databases.keys ++ config.schema.databaseKeys field).dedup.length ≤ config.fdbMaxNbDBsOpen ∨
    ∀ e ∈ X.entries, s.Flushed e
  unused : ∀ filed ∈ config.schema.filed field, (s.dbs filed.database).Unused x.store.unique
  stream : ∀ filed ∈ config.schema.filed field, ∀ e ∈ X.databases[filed.database.order]?,
    ∀ D ∈ (s.dbs filed.database).dbs e.db, ∀ S ∈ D.store, S.Takes filed.index data x.store

instance (X : Archiver) (field : Key) (data : DataBytes) (x : Archiving) : Decidable (s.Takes config X field data x) :=
  decidable_of_iff (X.Open ∧
    ((X.databases.keys ++ config.schema.databaseKeys field).dedup.length ≤ config.fdbMaxNbDBsOpen ∨
      ∀ e ∈ X.entries, s.Flushed e) ∧
    (∀ filed ∈ config.schema.filed field, (s.dbs filed.database).Unused x.store.unique) ∧
    ∀ filed ∈ config.schema.filed field, ∀ e ∈ X.databases[filed.database.order]?,
      ∀ D ∈ (s.dbs filed.database).dbs e.db, ∀ S ∈ D.store, S.Takes filed.index data x.store)
    ⟨fun h => ⟨h.1, h.2.1, h.2.2.1, h.2.2.2⟩, fun h => ⟨h.current, h.room, h.unused, h.stream⟩⟩

/-- The keys of a field that is archived are canonical, and its archiver takes it; of the other calls nothing is asked. -/
def Safe : ArchiverCall → Prop
  | .make _ | .flush _ _ | .destroy _ _ => True
  | .archive a field data x =>
    config.schema.Canonical config.version field ∧ ∀ X ∈ s.archivers a, s.Takes config X field data x

end ArchiverSystem

/-- What an archive has done while it looks for a rule: DBs are opened and closed, and indexes selected. -/
structure Selects (config : ArchiveConfig) (d₀ : StringDict → Disk) (A : ArchiveHistory) (s : ArchiverSystem) (a : Nat)
    (X : Archiver) (field : Key) (u : ArchiverState) : Prop where
  booked : ∃ h owner, Booked config d₀ A (s.put a u) h owner
  quiet : ∀ κ, (s.dbs κ).Quiet (u.dbs κ)
  next : s.next ≤ u.next
  entries : ∀ (k : List String) (e : OpenDB), u.archiver.databases[k]? = some e →
    s.next ≤ e.db ∨ ∃ e₀, X.databases[k]? = some e₀ ∧ e₀.db = e.db
  keys : ∀ k ∈ u.archiver.databases, k ∈ X.databases ∨ k ∈ config.schema.databaseKeys field

/-- Where an expansion stands: it looks for a rule, or it has filed the field. -/
structure Walks (config : ArchiveConfig) (d₀ : StringDict → Disk) (A : ArchiveHistory) (s : ArchiverSystem) (a : Nat)
    (X : Archiver) (field : Key) (data : DataBytes) (found : Option (RulePtr × Filed)) (m : WriteState ArchiverState) :
    Prop where
  rule : m.rule = found.map (·.1)
  selects : found = none → Selects config d₀ A s a X field (leave m) ∧ m.visitor.archiver.Open
  filed : ∀ rule filed, found = some (rule, filed) →
    ∃ h owner, Booked config d₀ (A.archive a filed data) (s.put a (leave m)) h owner

section Walk

variable {config : ArchiveConfig} {d₀ : StringDict → Disk} {A : ArchiveHistory} {s : ArchiverSystem}
  {h : StringDict → DbHistory} {owner : StringDict → Nat → Nat} {a : Nat} {X : Archiver} {κ : StringDict} {t : DbSystem}
  {next w : Nat} {e : OpenDB} {key field : Key} {data : DataBytes} {x : Archiving} {u v : ArchiverState}
  {c : DbCall} {failure : Failure}

theorem ArchiverSystem.after_put : (s.put a u).after a X κ t next = s.put a ⟨X, Function.update u.dbs κ t, next⟩ := by
  simp [after, put]

theorem ArchiverSystem.put_self (hX : s.archivers a = some X) : s.put a ⟨X, s.dbs, s.next⟩ = s := by
  simp [put, ← hX]

theorem ArchiverSystem.archivers_put : (s.put a u).archivers a = some u.archiver := by
  simp [put]

theorem Archiver.erase_insert {databases : Std.ExtTreeMap (List String) OpenDB} {k : List String} (hk : databases[k]? = none) :
    (databases.insert k e).erase k = databases := by
  apply Std.ExtTreeMap.ext_getElem?
  intro k'
  rw [Std.ExtTreeMap.getElem?_erase, Std.ExtTreeMap.getElem?_insert]
  split
  · rename_i heq
    rw [← Std.LawfulEqCmp.compare_eq_iff_eq.mp heq, hk]
  · rfl

theorem ends_onDB {Q : Unit → ArchiverState → Prop} {E : Failure → ArchiverState → Prop}
    (hstep : (u.dbs κ).step (config.database κ) (config.storeDirectory κ) c = (t, none))
    (hQ : Q () { u with dbs := Function.update u.dbs κ t }) : Ends (onDB config κ c) u Q E := by
  simpa only [Ends, onDB, EStateM.run, hstep] using hQ

theorem ends_onDB_throws {Q : Unit → ArchiverState → Prop} {E : Failure → ArchiverState → Prop}
    (hstep : (u.dbs κ).step (config.database κ) (config.storeDirectory κ) c = (t, some failure))
    (hE : E failure { u with dbs := Function.update u.dbs κ t }) : Ends (onDB config κ c) u Q E := by
  simpa only [Ends, onDB, EStateM.run, hstep] using hE

theorem ends_setDatabases {f : Std.ExtTreeMap (List String) OpenDB → Std.ExtTreeMap (List String) OpenDB}
    {Q : Unit → ArchiverState → Prop} {E : Failure → ArchiverState → Prop} : Ends (setDatabases f) u Q E ↔
      Q () { u with archiver := { u.archiver with databases := f u.archiver.databases } } := Iff.rfl

theorem Archiver.oldest_mem {time : Nat} {entries : List OpenDB} (h : oldest time entries = some e) : e ∈ entries := by
  refine List.foldlRecOn (motive := fun found : Option OpenDB × Nat => ∀ e, found.1 = some e → e ∈ entries) entries _
    (by simp) (fun found hfound e' he' e he => ?_) e h
  split at he
  · obtain rfl := Option.some.inj he
    exact he'
  · exact hfound e he

/-- What `entries` lists stands in the map. -/
theorem Archiver.mem_entries : e ∈ X.entries ↔ ∃ k : List String, X.databases[k]? = some e := by
  simp only [entries, List.mem_map, Prod.exists, Std.ExtTreeMap.mem_toList_iff_getElem?_eq_some, exists_eq_right]

namespace Selects

/-- A DB that was opened in the call has no number of before. -/
theorem unopened (hb : Booked config d₀ A s h owner) (hd : ∀ κ, (config.database κ).Absent (d₀ κ)) (hw : s.next ≤ w) :
    (s.dbs κ).dbs w = none := by
  by_contra hne
  obtain ⟨D, hD⟩ := Option.ne_none_iff_exists'.mp hne
  obtain ⟨calls, hholds⟩ := (hb.account κ).holds
  have hlive := (hholds.live_iff (hd κ)).mpr ⟨D, hD⟩
  exact absurd ((hb.account κ).fresh w (hholds.live_built (hd κ) hlive)) (by omega)

/-- What holds of the stores that the archiver had holds of those that it has. -/
theorem store (h : Selects config d₀ A s a X field u) (hb : ∃ h owner, Booked config d₀ A s h owner)
    (hd : ∀ κ, (config.database κ).Absent (d₀ κ)) {k : List String} {P : TocStore → Prop}
    (he : u.archiver.databases[k]? = some e)
    (hP : ∀ e₀ : OpenDB, X.databases[k]? = some e₀ → e₀.db = e.db → ∀ D ∈ (s.dbs κ).dbs e.db, ∀ S ∈ D.store, P S) :
    ∀ D ∈ (u.dbs κ).dbs e.db, ∀ S ∈ D.store, P S := by
  intro D hD S hS
  obtain ⟨h₀, owner₀, hb⟩ := hb
  rcases (h.quiet κ).store e.db D hD with hnone | ⟨E, hE, hsame⟩
  · simp [hnone] at hS
  · rcases h.entries k e he with hnew | ⟨e₀, he₀, hdb⟩
    · rw [unopened hb hd hnew] at hE
      cases hE
    · exact hP e₀ he₀ hdb E hE S (hsame ▸ hS)

/-- One database more that is quiet. -/
theorem quiet_update (h : Selects config d₀ A s a X field u) (hquiet : (u.dbs κ).Quiet t) (κ' : StringDict) :
    (s.dbs κ').Quiet (Function.update u.dbs κ t κ') := by
  by_cases hκ : κ' = κ
  · subst hκ
    rw [Function.update_self]
    exact (h.quiet κ').trans hquiet
  · rw [Function.update_of_ne hκ]
    exact h.quiet κ'

/-- A DB whose store was flushed before the call is closed. -/
theorem close {m : WriteState ArchiverState} {k : List String} (h : Selects config d₀ A s a X field (leave m))
    (hb : ∃ h owner, Booked config d₀ A s h owner) (hX : s.archivers a = some X)
    (hd : ∀ κ, (config.database κ).Absent (d₀ κ)) (he : m.visitor.archiver.databases[k]? = some e)
    (hflushed : ∀ e ∈ X.entries, s.Flushed e) :
    Ends (Archiver.close config e) m.visitor (fun _ v => Selects config d₀ A s a X field (leave { m with visitor := v }) ∧
      v.archiver.databases = m.visitor.archiver.databases.erase k) fun _ _ => False := by
  obtain ⟨h₁, owner₁, hb₁⟩ := h.booked
  have hX₁ := ArchiverSystem.archivers_put (s := s) (a := a) (u := leave m)
  obtain ⟨-, hkeyed, -⟩ := hb₁.archiver a _ hX₁
  obtain rfl := hkeyed k e he
  have hclean : ∀ D ∈ (m.visitor.dbs e.key.keys).dbs e.db, ∀ S ∈ D.store, S.dirty = false := by
    refine h.store hb hd he fun e₀ he₀ hdb D hD S hS => ?_
    obtain ⟨h₀, owner₀, hb₀⟩ := hb
    have hκ : e₀.key.keys = e.key.keys := (StringDict.order_injective ((hb₀.archiver a X hX).2.keyed _ e₀ he₀)).symm
    exact hflushed e₀ (mem_entries.mpr ⟨_, he₀⟩) D (by rw [hκ, hdb]; exact hD) S hS
  obtain ⟨t, hstep, hquiet, h', hb'⟩ := hb₁.close hd hX₁ he hclean
  rw [Archiver.close, ends_bind, ends_setDatabases]
  refine ends_onDB hstep ⟨⟨⟨h', owner₁, ?_⟩, h.quiet_update hquiet, h.next, fun k e' he' => ?_, fun k hk => ?_⟩, rfl⟩
  · rwa [ArchiverSystem.after_put] at hb'
  · refine h.entries k e' ?_
    simp only [leave, Std.ExtTreeMap.getElem?_erase] at he'
    split at he'
    · cases he'
    · exact he'
  · exact h.keys k (Std.ExtTreeMap.mem_of_mem_erase hk)

/-- There is room for a database of the field, where it was asked for. -/
theorem room (h : Selects config d₀ A s a X field u)
    (hroom : (X.databases.keys ++ config.schema.databaseKeys field).dedup.length ≤ config.fdbMaxNbDBsOpen)
    (hkey : key.order ∈ config.schema.databaseKeys field) (hnone : key.order ∉ u.archiver.databases) :
    u.archiver.databases.size < config.fdbMaxNbDBsOpen := by
  have hnodup : (key.order :: u.archiver.databases.keys).Nodup :=
    List.nodup_cons.mpr ⟨fun hm => hnone (Std.ExtTreeMap.mem_keys.mp hm), Std.ExtTreeMap.nodup_keys⟩
  have hsub : key.order :: u.archiver.databases.keys ⊆ (X.databases.keys ++ config.schema.databaseKeys field).dedup := by
    intro k hk
    rw [List.mem_dedup, List.mem_append]
    rcases List.mem_cons.mp hk with rfl | hk
    · exact .inr hkey
    · exact (h.keys k (Std.ExtTreeMap.mem_keys.mp hk)).imp_left Std.ExtTreeMap.mem_keys.mpr
  have hle := (hnodup.subperm hsub).length_le
  rw [List.length_cons, Std.ExtTreeMap.length_keys] at hle
  omega

/-- The DB of an entry that is looked up again. -/
theorem touch {m : WriteState ArchiverState} {time : Nat} (h : Selects config d₀ A s a X field (leave m))
    (he : m.visitor.archiver.databases[key.order]? = some e) :
    Ends (setDatabases fun databases => databases.insert key.order { e with time }) m.visitor
      (fun _ v => Selects config d₀ A s a X field (leave { m with visitor := v }) ∧
        ∃ e', v.archiver.databases[key.order]? = some e' ∧ e'.db = e.db) fun _ _ => False := by
  obtain ⟨h₁, owner₁, hb₁⟩ := h.booked
  have hX₁ := ArchiverSystem.archivers_put (s := s) (a := a) (u := leave m)
  have hb' := hb₁.touch time hX₁ he
  rw [ArchiverSystem.after_put] at hb'
  simp only [ArchiverSystem.put, leave, Function.update_eq_self] at hb'
  refine ends_setDatabases.mpr ⟨⟨⟨h₁, owner₁, hb'⟩, h.quiet, h.next, fun k e' he' => ?_, fun k hk => ?_⟩, _,
    Std.ExtTreeMap.getElem?_insert_self, rfl⟩
  · simp only [leave, Std.ExtTreeMap.getElem?_insert] at he'
    split at he'
    · rename_i hk
      obtain rfl := Option.some.inj he'
      exact h.entries k e (by rw [← Std.LawfulEqCmp.compare_eq_iff_eq.mp hk]; exact he)
    · exact h.entries k e' he'
  · rcases Std.ExtTreeMap.mem_insert.mp hk with hk | hk
    · refine h.keys k ?_
      rw [← Std.LawfulEqCmp.compare_eq_iff_eq.mp hk, ← Std.ExtTreeMap.isSome_getElem?_iff_mem]
      exact Option.isSome_iff_exists.mpr ⟨e, he⟩
    · exact h.keys k hk

/-- The DB of a database that was not open: it is kept, or destroyed at once when the database is locked. -/
theorem build {m : WriteState ArchiverState} {time : Nat} (h : Selects config d₀ A s a X field (leave m))
    (hd : ∀ κ, (config.database κ).Absent (d₀ κ)) (hnone : m.visitor.archiver.databases[key.order]? = none)
    (hkey : key.Addresses key.keys) (hin : key.order ∈ config.schema.databaseKeys field) (hother : key.keys ≠ m.prev0.keys) :
    Ends (do
        let db := (← get).next
        modify fun s => { s with next := db + 1 }
        onDB config key.keys (.build db key)
        if enabled config (← get).dbs key.keys = false then
          onDB config key.keys (.destroy db)
          throw (.userError ("Database TocCatalogueWriter(" ++ (config.tocPath key.keys).directory ++
            ") matched for archived is LOCKED against archiving"))
        else pure ()
        setDatabases fun databases => databases.insert key.order { time, key, db }
        return db) m.visitor
      (fun db v => Selects config d₀ A s a X field (leave { m with visitor := v }) ∧
        ∃ e, v.archiver.databases[key.order]? = some e ∧ e.db = db)
      fun _ v => ∃ h owner, Booked config d₀ A (s.put a (leave { m with visitor := v })) h owner := by
  obtain ⟨h₁, owner₁, hb₁⟩ := h.booked
  have hX₁ := ArchiverSystem.archivers_put (s := s) (a := a) (u := leave m)
  obtain ⟨t, hstep, hquiet, h₂, owner₂, hb₂⟩ := hb₁.build time hd hX₁ hnone hkey hother
  rw [ArchiverSystem.after_put] at hb₂
  simp only [ends_bind, ends_get, ends_modify, ends_ite, ends_pure, ends_throw]
  refine ends_onDB hstep ⟨fun _ => ?_, fun _ => ⟨⟨⟨h₂, owner₂, hb₂⟩, h.quiet_update hquiet, Nat.le_succ_of_le h.next,
    fun k e he => ?_, fun k hk => ?_⟩, _, Std.ExtTreeMap.getElem?_insert_self, rfl⟩⟩
  · have hclean : ∀ D ∈ t.dbs m.visitor.next, ∀ S ∈ D.store, S.dirty = false := by
      intro D hD S hS
      rcases hquiet.store _ D hD with hnone | ⟨E, hE, -⟩
      · simp [hnone] at hS
      · cases (unopened hb₁ hd (Nat.le_refl _)).symm.trans hE
    obtain ⟨t', hstep', -, h₃, hb₃⟩ := hb₂.close hd ArchiverSystem.archivers_put Std.ExtTreeMap.getElem?_insert_self
      (by simpa [ArchiverSystem.put, leave] using hclean)
    rw [ArchiverSystem.after_put] at hb₃
    refine ends_onDB hstep' ⟨h₃, owner₂, ?_⟩
    simpa only [ArchiverSystem.put, leave, erase_insert hnone] using hb₃
  · simp only [leave, Std.ExtTreeMap.getElem?_insert] at he
    split at he
    · obtain rfl := Option.some.inj he
      exact .inl h.next
    · exact h.entries k e he
  · rcases Std.ExtTreeMap.mem_insert.mp hk with hk | hk
    · exact .inr (Std.LawfulEqCmp.compare_eq_iff_eq.mp hk ▸ hin)
    · exact h.keys k hk

/-- A database of the field is open after it was asked for. -/
theorem database {m : WriteState ArchiverState} {time : Nat} (h : Selects config d₀ A s a X field (leave m))
    (hb : ∃ h owner, Booked config d₀ A s h owner) (hX : s.archivers a = some X) (hd : ∀ κ, (config.database κ).Absent (d₀ κ))
    (hroom : (X.databases.keys ++ config.schema.databaseKeys field).dedup.length ≤ config.fdbMaxNbDBsOpen ∨
      ∀ e ∈ X.entries, s.Flushed e)
    (hkey : key.Addresses key.keys) (hin : key.order ∈ config.schema.databaseKeys field) (hother : key.keys ≠ m.prev0.keys) :
    Ends (Archiver.database config key time) m.visitor
      (fun db v => Selects config d₀ A s a X field (leave { m with visitor := v }) ∧
        ∃ e, v.archiver.databases[key.order]? = some e ∧ e.db = db)
      fun _ v => ∃ h owner, Booked config d₀ A (s.put a (leave { m with visitor := v })) h owner := by
  rw [Archiver.database, ends_bind, ends_get]
  cases he : m.visitor.archiver.databases[key.order]? with
  | some e =>
    dsimp only
    rw [ends_bind]
    exact (h.touch he).mono (fun _ _ hv => hv) fun _ _ hv => hv.elim
  | none =>
    dsimp only
    rw [ends_bind, ends_get, ends_ite]
    refine ⟨fun hfull => ?_, fun _ => h.build hd he hkey hin hother⟩
    cases hold : oldest time m.visitor.archiver.entries with
    | none => exact h.build hd he hkey hin hother
    | some e =>
      obtain ⟨k, hk⟩ := mem_entries.mp (oldest_mem hold)
      have hnot : key.order ∉ m.visitor.archiver.databases := by
        rw [← Std.ExtTreeMap.isSome_getElem?_iff_mem, he]
        simp
      have hflushed := hroom.resolve_left fun hroom => absurd (h.room hroom hin hnot) (Nat.not_lt.mpr hfull)
      rw [ends_bind]
      refine (h.close hb hX hd hk hflushed).mono (fun _ v hv => ?_) fun _ _ hv => hv.elim
      refine hv.1.build hd ?_ hkey hin hother
      rw [hv.2, Std.ExtTreeMap.getElem?_erase, he, ite_self]

end Selects

namespace Walks

variable {m : WriteState ArchiverState} {full : Key} {rule : RulePtr}

/-- `current_` is null, or an entry of the map. -/
theorem ends_currentDB {condition : String} {Q : StringDict × Nat → ArchiverState → Prop}
    (h : Walks config d₀ A s a X field data none m)
    (hQ : ∀ κ (e : OpenDB), m.visitor.archiver.current = some (κ, e.db) → m.visitor.archiver.databases[κ.order]? = some e →
      Q (κ, e.db) m.visitor) :
    Ends (currentDB condition) m.visitor Q
      fun _ v => ∃ h owner, Booked config d₀ A (s.put a (leave { m with visitor := v })) h owner := by
  obtain ⟨hsel, hopen⟩ := h.selects rfl
  rw [currentDB, ends_bind, ends_get]
  cases hc : m.visitor.archiver.current with
  | none => exact hsel.booked
  | some p =>
    obtain ⟨e, he, hdb⟩ := hopen p hc
    have hp : p = (p.1, e.db) := by rw [hdb]
    have := hQ p.1 e (hp ▸ hc) he
    rwa [← hp] at this

theorem ends_visitIndex (h : Walks config d₀ A s a X field data none m) (hd : ∀ κ, (config.database κ).Absent (d₀ κ))
    (hkey : key.Selectable) :
    Ends ((visitor config field data x).visitIndex key full) m
      (fun _ m' => Walks config d₀ A s a X field data none m' ∧ m'.prev0 = m.prev0 ∧ m'.prev1.keys = key.keys)
      fun _ m' => ∃ h owner, Booked config d₀ A (s.put a (leave m')) h owner := by
  rw [WriteVisitor.visitIndex]
  simp only [ends_bind, ends_get, ends_ite, ends_pure, ends_modify, ends_focus, visitor]
  refine ⟨fun _ => ?_, fun heq => ⟨h, trivial, (not_not.mp heq).symm⟩⟩
  refine h.ends_currentDB fun κ e hc he => ?_
  obtain ⟨hsel, hopen⟩ := h.selects rfl
  obtain ⟨h₁, owner₁, hb₁⟩ := hsel.booked
  obtain ⟨t, hstep, hquiet, h₂, hb₂⟩ := hb₁.selectIndex hd ArchiverSystem.archivers_put hc he hkey
  rw [ArchiverSystem.after_put] at hb₂
  exact ends_onDB hstep ⟨⟨h.rule, fun _ => ⟨⟨⟨h₂, owner₁, hb₂⟩, hsel.quiet_update hquiet, hsel.next, hsel.entries, hsel.keys⟩,
    hopen⟩, by simp⟩, trivial, trivial⟩

theorem ends_databaseSchema (h : Walks config d₀ A s a X field data none m)
    (hd : ∀ κ, (config.database κ).Absent (d₀ κ)) :
    Ends (onVisitor (visitor config field data x).databaseSchema) m (fun schema m' => schema = config.schema ∧ m' = m)
      fun _ m' => ∃ h owner, Booked config d₀ A (s.put a (leave m')) h owner := by
  simp only [ends_bind, ends_get, ends_focus, visitor]
  refine h.ends_currentDB fun κ e hc he => ?_
  obtain ⟨h₁, owner₁, hb₁⟩ := (h.selects rfl).1.booked
  have hslot : (s.put a (leave m)).opens κ a = some e.db := by
    rw [ArchiverSystem.opens_of ArchiverSystem.archivers_put]
    exact congrArg (Option.map OpenDB.db) he
  obtain ⟨D, hD⟩ := (hb₁.account κ).opened (hd κ) hslot
  obtain ⟨calls, hholds⟩ := (hb₁.account κ).holds
  have hopen : (m.visitor.dbs κ).dbs e.db = some D := hD
  simp only [hopen, ends_pure]
  exact ⟨hholds.schema (hd κ) hD, trivial⟩

section Visitor

variable (hb : ∃ h owner, Booked config d₀ A s h owner) (hd : ∀ κ, (config.database κ).Absent (d₀ κ))
  (htakes : s.Takes config X field data x)
include hb hd htakes

theorem ends_visitDatabase (h : Walks config d₀ A s a X field data none m) (hX : s.archivers a = some X)
    (hkey : key.Addresses key.keys) (hin : key.order ∈ config.schema.databaseKeys field) :
    Ends ((visitor config field data x).visitDatabase key full) m
      (fun _ m' => Walks config d₀ A s a X field data none m' ∧ m'.prev0.keys = key.keys)
      fun _ m' => ∃ h owner, Booked config d₀ A (s.put a (leave m')) h owner := by
  rw [WriteVisitor.visitDatabase]
  simp only [ends_bind, ends_get, ends_ite, ends_pure, ends_modify, ends_focus, visitor]
  refine ⟨fun hne => ?_, fun heq => ⟨h, (not_not.mp heq).symm⟩⟩
  refine ((h.selects rfl).1.database hb hX hd htakes.room hkey hin hne).mono (fun db v hv => ?_) fun _ _ hv => hv
  obtain ⟨hsel, e, he, rfl⟩ := hv
  obtain ⟨h₁, owner₁, hb₁⟩ := hsel.booked
  obtain ⟨t, hstep, hquiet, h₂, hb₂⟩ := hb₁.select hd ArchiverSystem.archivers_put he
  rw [ArchiverSystem.after_put] at hb₂
  refine ends_onDB hstep ⟨⟨h.rule, fun _ => ⟨⟨⟨h₂, owner₁, hb₂⟩, hsel.quiet_update hquiet, hsel.next, hsel.entries, hsel.keys⟩,
    fun p hc => ?_⟩, by simp⟩, trivial⟩
  obtain rfl := Option.some.inj hc
  exact ⟨e, he, rfl⟩

/-- The call on the DB that files the field is one that its caller may make. -/
theorem safe (h : Selects config d₀ A s a X field (leave m)) (hc : m.visitor.archiver.current = some (κ, e.db))
    (he : m.visitor.archiver.databases[κ.order]? = some e)
    (hfound : config.schema.search field = .ok (some (rule, ⟨m.prev0.keys, m.prev1.keys, key⟩)))
    (hdatum : ∀ location, Put.Archivable config.version ⟨key, location⟩) :
    (m.visitor.dbs κ).Safe (config.database κ) (.archive e.db key data x.store) := by
  obtain ⟨h₁, owner₁, hb₁⟩ := h.booked
  obtain ⟨hprev, hindex⟩ := (hb₁.archiver a _ ArchiverSystem.archivers_put).2.selected κ e.db hc
  have hselected : ((h₁ κ).selected e.db).keys = m.prev1.keys := hindex e he rfl
  obtain rfl : κ = m.prev0.keys := hprev
  obtain ⟨calls₁, hholds₁⟩ := (hb₁.account m.prev0.keys).holds
  have hfiled : ⟨m.prev0.keys, m.prev1.keys, key⟩ ∈ config.schema.filed field := by
    rw [Schema.filed, hfound]
    rfl
  refine ⟨hdatum, fun w _ D hD S hS path hpath => ?_, fun D hD S hS => ?_⟩
  · obtain ⟨h₀, owner₀, hb₀⟩ := hb
    obtain ⟨calls₀, hholds₀⟩ := (hb₀.account m.prev0.keys).holds
    rcases (h.quiet m.prev0.keys).store w D hD with hnone | ⟨E, hE, hsame⟩
    · simp [hnone] at hS
    · exact htakes.unused _ hfiled w (hholds₀.built (hd _) hE) E hE S (hsame ▸ hS) path hpath
  · have hkeys : D.catalogue.currentIndexKey.keys = m.prev1.keys := by
      rw [hholds₁.selected (hd _) hD]
      exact hselected
    rw [hkeys]
    exact h.store hb hd he (P := fun S => S.Takes m.prev1.keys data x.store)
      (fun e₀ he₀ hdb D hD S hS => htakes.stream _ hfiled e₀ he₀ D (hdb ▸ hD) S hS) D hD S hS

theorem ends_visitDatum (h : Walks config d₀ A s a X field data none m)
    (hfound : config.schema.search field = .ok (some (rule, ⟨m.prev0.keys, m.prev1.keys, key⟩)))
    (hdatum : ∀ location, Put.Archivable config.version ⟨key, location⟩) :
    Ends ((visitor config field data x).visitDatum rule key full) m
      (fun _ m' => Walks config d₀ A s a X field data (some (rule, ⟨m.prev0.keys, m.prev1.keys, key⟩)) m')
      fun _ m' => ∃ h owner, Booked config d₀ A (s.put a (leave m')) h owner := by
  have hsel := (h.selects rfl).1
  rw [WriteVisitor.visitDatum]
  simp only [ends_bind, ends_get, ends_ite, ends_pure, ends_modify, ends_throw, ends_focus, visitor, ends_lift]
  refine ⟨fun hsome => by simp [h.rule] at hsome, fun _ => ?_⟩
  have harchive : Ends (currentDB "current()" >>= fun p => onDB config p.1 (.archive p.2 key data x.store)) m.visitor
      (fun _ v => Walks config d₀ A s a X field data (some (rule, ⟨m.prev0.keys, m.prev1.keys, key⟩))
        { m with rule := some rule, visitor := v })
      fun _ v => ∃ h owner, Booked config d₀ A (s.put a (leave { m with rule := some rule, visitor := v })) h owner := by
    rw [ends_bind]
    refine h.ends_currentDB fun κ e hc he => ?_
    obtain ⟨h₁, owner₁, hb₁⟩ := hsel.booked
    have hsafe := safe hb hd htakes hsel hc he hfound hdatum
    obtain ⟨t, thrown, hstep, h₂, hb₂⟩ := hb₁.archive hd ArchiverSystem.archivers_put hc he hsafe
    rw [ArchiverSystem.after_put] at hb₂
    cases thrown with
    | none =>
      refine ends_onDB hstep ⟨rfl, by simp, fun rule' filed hfiled => ?_⟩
      obtain ⟨rfl, rfl⟩ := Prod.mk.inj (Option.some.inj hfiled)
      exact ⟨h₂, owner₁, hb₂⟩
    | some e => exact ends_onDB_throws hstep ⟨h₂, owner₁, hb₂⟩
  rw [ends_bind] at harchive
  exact ⟨fun _ => ⟨fun _ _ => harchive, fun _ _ => hsel.booked⟩, fun _ => harchive⟩

end Visitor

section Levels

variable {f i r : Rule} {k : Workspace} {parents : List Rule}

theorem select (h : Walks config d₀ A s a X field data none m) : ¬ (true = true ∧ m.rule.isSome) := by
  simp [h.rule]

variable (hb : ∃ h owner, Booked config d₀ A s h owner) (hd : ∀ κ, (config.database κ).Absent (d₀ κ))
  (htakes : s.Takes config X field data x) (hcanonical : config.schema.Canonical config.version field)
include hb hd htakes hcanonical

theorem ends_datum (hs : config.schema.ThreeLevels) (hf : f ∈ config.schema.rules) (hi : i ∈ f.rules) (hr : r ∈ i.rules)
    (hk : k.Ready 2) (h : Walks config d₀ A s a X field data none m)
    (hC : ∀ c, r.searchDatum field parents m.prev0.keys m.prev1.keys = .ok (some c) →
      config.schema.search field = .ok (some c)) :
    Ends (Rule.expand true (visitor config field data x) field 1 parents r k) m
      (fun k' m' => ∃ o, r.searchDatum field parents m.prev0.keys m.prev1.keys = .ok o ∧ k.Back 2 k' ∧
        Walks config d₀ A s a X field data o m' ∧ (o = none → m' = m))
      fun _ m' => ∃ h owner, Booked config d₀ A (s.put a (leave m')) h owner := by
  have hstays := (h.selects rfl).1.booked
  refine Rule.ends_expand_datum h.select hk (absurd (hs.leaf f hf i hi r hr)) (fun _ _ => hstays) (fun hn k' hback => ?_)
    fun key full hkey => ?_
  · exact ⟨none, by rw [Rule.searchDatum, hn]; rfl, hback, h, fun _ => rfl⟩
  · have hsearch : r.searchDatum field parents m.prev0.keys m.prev1.keys =
        .ok (some (⟨r, parents⟩, ⟨m.prev0.keys, m.prev1.keys, key⟩)) := by rw [Rule.searchDatum, hkey]; rfl
    refine (h.ends_visitDatum hb hd htakes (hC _ hsearch) (hcanonical.datum f hf i hi r hr key hkey)).mono
      (fun _ m' hm' k' hback => ?_) fun _ _ hm' => hm'
    exact ⟨_, hsearch, hback, hm', by simp⟩

theorem ends_index (hs : config.schema.ThreeLevels) (hf : f ∈ config.schema.rules) (hi : i ∈ f.rules)
    (hk : k.Ready 1) (h : Walks config d₀ A s a X field data none m)
    (hC : ∀ c, i.searchIndex field parents m.prev0.keys = .ok (some c) → config.schema.search field = .ok (some c)) :
    Ends (Rule.expand true (visitor config field data x) field 2 parents i k) m
      (fun k' m' => ∃ o, i.searchIndex field parents m.prev0.keys = .ok o ∧ k.Back 1 k' ∧
        Walks config d₀ A s a X field data o m' ∧ (o = none → m'.prev0 = m.prev0))
      fun _ m' => ∃ h owner, Booked config d₀ A (s.put a (leave m')) h owner := by
  have hstays := (h.selects rfl).1.booked
  refine Rule.ends_expand_index h.select hk (absurd · (hs.third f hf i hi)) (fun _ _ => hstays) (fun hn k' hback => ?_)
    fun key k₁ hkey _ hk₁ => ?_
  · exact ⟨none, by rw [Rule.searchIndex, hn]; rfl, hback, h, fun _ => rfl⟩
  refine (h.ends_visitIndex hd (hcanonical.index f hf i hi key hkey)).mono (fun _ m₁ hm₁ => ?_) fun _ _ hm' => hm'
  obtain ⟨hwalks, hprev0, hprev1⟩ := hm₁
  have hsearch : i.searchIndex field parents m.prev0.keys =
      i.rules.findSomeM? (Rule.searchDatum field (i :: parents) m.prev0.keys key.keys) := by
    rw [Rule.searchIndex, hkey]
    rfl
  rw [hsearch] at hC ⊢
  apply Ends.mono (ends_foldlM_search (P := fun o k' m' => k₁.Back 2 k' ∧ Walks config d₀ A s a X field data o m' ∧
    (o = none → m'.prev0 = m.prev0 ∧ m'.prev1.keys = key.keys)) ?_ ?_ hC k₁ m₁
    ⟨hk₁.back (by omega), hwalks, fun _ => ⟨hprev0, hprev1⟩⟩) _ fun _ _ hm' => hm'
  · rintro r hr hCr k' m' ⟨hback, hwalks', hsame⟩
    obtain ⟨hsame0, hsame1⟩ := hsame rfl
    rw [← hsame0, ← hsame1] at hCr ⊢
    apply (ends_datum hb hd htakes hcanonical hs hf hi hr (hback.ready hk₁) hwalks' hCr).mono _ fun _ _ hm' => hm'
    rintro k₂ m₂ ⟨o, ho, hback', hwalks₂, hkept⟩
    refine ⟨o, ho, hback.trans hback', hwalks₂, fun hnone => ?_⟩
    rw [hkept hnone]
    exact ⟨rfl, rfl⟩
  · rintro r - o k' m' ⟨hback, hwalks', hsame⟩
    apply (Rule.expand_pass rfl (by simp [hwalks'.rule]) 1).mono _ fun _ _ hm' => hm'
    rintro k₂ m₂ ⟨rfl, rfl⟩
    exact ⟨hback, hwalks', hsame⟩
  · rintro k₂ m₂ ⟨o, ho, hback, hwalks₂, hsame⟩
    exact ⟨hback, fun k' hback' => ⟨o, ho, hback', hwalks₂, fun hnone => (hsame hnone).1⟩⟩

theorem ends_database (hs : config.schema.ThreeLevels) (hX : s.archivers a = some X) (hf : f ∈ config.schema.rules)
    (hk : k.Ready 0) (h : Walks config d₀ A s a X field data none m)
    (hC : ∀ c, config.schema.searchDatabase field f = .ok (some c) → config.schema.search field = .ok (some c)) :
    Ends (Rule.expand true (visitor config field data x) field 3 [] f k) m
      (fun k' m' => ∃ o, config.schema.searchDatabase field f = .ok o ∧ k.Back 0 k' ∧
        Walks config d₀ A s a X field data o m')
      fun _ m' => ∃ h owner, Booked config d₀ A (s.put a (leave m')) h owner := by
  have hstays := (h.selects rfl).1.booked
  refine Rule.ends_expand_database h.select hk (absurd · (hs.second f hf)) (fun _ _ => hstays) (fun hn k' hback => ?_)
    fun key full hkey => ?_
  · exact ⟨none, by rw [Schema.searchDatabase, hn]; rfl, hback, h⟩
  have hin : key.order ∈ config.schema.databaseKeys field := List.mem_filterMap.mpr ⟨f, hf, by rw [hkey]⟩
  apply (h.ends_visitDatabase hb hd htakes hX (hcanonical.database f hf key hkey) hin).mono _ fun _ _ hm' => hm'
  rintro _ m₁ ⟨hwalks, hprev0⟩
  apply (hwalks.ends_databaseSchema hd).mono _ fun _ _ hm' => hm'
  rintro _ _ ⟨rfl, rfl⟩
  rw [Schema.expandSecond]
  cases hdb : config.schema.databaseRule key with
  | none => exact (hwalks.selects rfl).1.booked
  | some d =>
    have hsearch : config.schema.searchDatabase field f = d.rules.findSomeM? (Rule.searchIndex field [d] key.keys) := by
      simp only [Schema.searchDatabase, hkey, hdb, bind, Except.bind]
    have hdm := Schema.databaseRule_mem hdb
    rw [hsearch] at hC
    simp only [hsearch, ends_bind, ends_pure]
    have hk₁ := Workspace.ready_below config.schema.registry key
    apply Ends.mono (ends_foldlM_search (P := fun o k' m' => (Workspace.below config.schema.registry key).Back 1 k' ∧
      Walks config d₀ A s a X field data o m' ∧ (o = none → m'.prev0.keys = key.keys)) ?_ ?_ hC _ _
      ⟨hk₁.back (by omega), hwalks, fun _ => hprev0⟩) _ fun _ _ hm' => hm'
    · rintro i hi hCi k' m' ⟨hback, hwalks', hsame⟩
      rw [← hsame rfl] at hCi ⊢
      apply (ends_index hb hd htakes hcanonical hs hdm hi (hback.ready hk₁) hwalks' hCi).mono _ fun _ _ hm' => hm'
      rintro k₂ m₂ ⟨o, ho, hback', hwalks₂, hkept⟩
      exact ⟨o, ho, hback.trans hback', hwalks₂, fun hnone => by rw [hkept hnone]⟩
    · rintro i - o k' m' ⟨hback, hwalks', hsame⟩
      apply (Rule.expand_pass rfl (by simp [hwalks'.rule]) 2).mono _ fun _ _ hm' => hm'
      rintro k₂ m₂ ⟨rfl, rfl⟩
      exact ⟨hback, hwalks', hsame⟩
    · rintro k₂ m₂ ⟨o, ho, hback, hwalks₂, -⟩ k' hback'
      exact ⟨o, ho, hback', hwalks₂⟩

theorem ends_expand (hs : config.schema.ThreeLevels) (hX : s.archivers a = some X)
    (h : Walks config d₀ A s a X field data none { m with rule := none }) :
    Ends (config.schema.expand true (visitor config field data x) field) m
      (fun _ m' => ∃ o, config.schema.search field = .ok o ∧ Walks config d₀ A s a X field data o m')
      fun _ m' => ∃ h owner, Booked config d₀ A (s.put a (leave m')) h owner := by
  rw [Schema.expand]
  simp only [ends_bind, ends_modify, ends_pure]
  have hk := Workspace.ready_fresh config.schema.registry
  apply Ends.mono (ends_foldlM_search (P := fun o k' m' => (Workspace.fresh config.schema.registry).Back 0 k' ∧
    Walks config d₀ A s a X field data o m') (g := config.schema.searchDatabase field)
    (C := fun c => config.schema.search field = .ok (some c)) ?_ ?_ (fun _ => id) _ _ ⟨hk.back (by omega), h⟩) _
    fun _ _ hm' => hm'
  · rintro f hf hCf k' m' ⟨hback, hwalks⟩
    apply (ends_database hb hd htakes hcanonical hs hX hf (hback.ready hk) hwalks hCf).mono _ fun _ _ hm' => hm'
    rintro k₂ m₂ ⟨o, ho, hback', hwalks₂⟩
    exact ⟨o, ho, hback.trans hback', hwalks₂⟩
  · rintro f - o k' m' ⟨hback, hwalks⟩
    apply (Rule.expand_pass rfl (by simp [hwalks.rule]) 3).mono _ fun _ _ hm' => hm'
    rintro k₂ m₂ ⟨rfl, rfl⟩
    exact ⟨hback, hwalks⟩
  · rintro k₂ m₂ ⟨o, ho, -, hwalks⟩
    exact ⟨o, ho, hwalks⟩

end Levels

end Walks

end Walk

end Fdb5
