import Fdb5.Database.Accounts

/-! What the calls on the archivers of all processes keep. -/
namespace Fdb5

open Effect Archiver

/-- The DB of a database that an archiver has open. -/
def ArchiverSystem.opens (s : ArchiverSystem) (κ : StringDict) (a : Nat) : Option Nat :=
  (s.archivers a).bind fun X => (X.databases[κ.order]?).map OpenDB.db

/-- The entries stand under their keys, and `prev_` tells what is selected in `current_`. -/
structure Archiver.Kept (X : Archiver) (h : StringDict → DbHistory) : Prop where
  keyed : ∀ k, ∀ e : OpenDB, X.databases[k]? = some e → k = e.key.order
  selected : ∀ κ w, X.current = some (κ, w) → κ = X.prev0.keys ∧
    ∀ e : OpenDB, X.databases[κ.order]? = some e → e.db = w → ((h κ).selected w).keys = X.prev1.keys

/-- The archivers and the databases are what the fields that were archived make of them. -/
structure Booked (config : ArchiveConfig) (d₀ : StringDict → Disk) (A : ArchiveHistory) (s : ArchiverSystem)
    (h : StringDict → DbHistory) (owner : StringDict → Nat → Nat) : Prop where
  account : ∀ κ, Account (config.database κ) (config.storeDirectory κ) (d₀ κ) A (fun a => s.archivers a ≠ none) (s.opens κ)
    (s.dbs κ) (h κ) (owner κ) s.next
  archiver : ∀ a X, s.archivers a = some X → a ∈ A.live ∧ X.Kept h
  met : ∀ a ∈ A.live, ∀ b ∈ A.live, a ≠ b → A.Met a b
  made : s.made = A.made
  known : ∀ a ∈ A.live, a ∈ A.made
  unmade : ∀ a, a ∉ A.made → ∀ κ κ', A.pending a κ κ' = []

section Booked

variable {config : ArchiveConfig} {d₀ : StringDict → Disk} {A A' : ArchiveHistory} {s : ArchiverSystem}
  {h : StringDict → DbHistory} {owner : StringDict → Nat → Nat} {a b : Nat} {X X' : Archiver} {κ : StringDict} {t : DbSystem}
  {H : DbHistory} {owns : Nat → Nat} {next w : Nat} {e : OpenDB} {key : Key}

/-- The system after an archiver has called a DB of one database. -/
def ArchiverSystem.after (s : ArchiverSystem) (a : Nat) (X : Archiver) (κ : StringDict) (t : DbSystem) (next : Nat) :
    ArchiverSystem :=
  { s with archivers := Function.update s.archivers a (some X), dbs := Function.update s.dbs κ t, next }

theorem ArchiverSystem.opens_of (hX : s.archivers a = some X) (κ : StringDict) :
    s.opens κ a = (X.databases[κ.order]?).map OpenDB.db := by
  simp [opens, hX]

theorem ArchiverSystem.opens_after {κ' : StringDict} : (s.after a X κ t next).opens κ' =
    Function.update (s.opens κ') a ((X.databases[κ'.order]?).map OpenDB.db) := by
  funext b
  by_cases hb : b = a
  · subst hb
    simp [opens, after]
  · simp [opens, after, hb]

/-- A call that changes one database, and of the archivers only the caller. -/
theorem Booked.after (hb : Booked config d₀ A s h owner) (hX : s.archivers a = some X)
    (haccount : Account (config.database κ) (config.storeDirectory κ) (d₀ κ) A' (fun a => s.archivers a ≠ none)
      (Function.update (s.opens κ) a ((X'.databases[κ.order]?).map OpenDB.db)) t H owns next)
    (hothers : ∀ κ', κ' ≠ κ → (X'.databases[κ'.order]?).map OpenDB.db = (X.databases[κ'.order]?).map OpenDB.db)
    (hnext : s.next ≤ next)
    (hpending : ∀ κ', κ' ≠ κ → (∀ b, A'.pending b κ' = A.pending b κ') ∧ A'.flushed κ' = A.flushed κ')
    (hselected : ∀ w, s.opens κ a ≠ some w → H.selected w = (h κ).selected w) (hkept : X'.Kept (Function.update h κ H))
    (harchived : ∀ x ∈ A.archived, x ∈ A'.archived) (hmet : A'.met = A.met) (hlive : A'.live = A.live)
    (hmade : A'.made = A.made) (hunmade : ∀ b, b ≠ a → A'.pending b = A.pending b) :
    Booked config d₀ A' (s.after a X' κ t next) (Function.update h κ H) (Function.update owner κ owns) := by
  have hthere : (fun b => (s.after a X' κ t next).archivers b ≠ none) = fun b => s.archivers b ≠ none := by
    funext b
    by_cases hba : b = a
    · subst hba
      simp [ArchiverSystem.after, hX]
    · simp [ArchiverSystem.after, hba]
  have hmem : a ∈ A.live := (hb.archiver a X hX).1
  refine ⟨fun κ' => ?_, fun b Y hY => ?_, ?_, hb.made.trans hmade.symm, fun b hbl => ?_, fun b hbm κ' κ'' => ?_⟩
  · rw [hthere, ArchiverSystem.opens_after]
    by_cases hκ : κ' = κ
    · subst hκ
      simpa [ArchiverSystem.after] using haccount
    · simp only [ArchiverSystem.after, Function.update_of_ne hκ]
      rw [hothers κ' hκ, ← ArchiverSystem.opens_of hX κ', Function.update_eq_self]
      refine (hb.account κ').other (fun _ _ => id) (fun _ _ ht => ⟨ht, rfl⟩) (fun b ht hnot => ?_) hnext (hpending κ' hκ).1
        (hpending κ' hκ).2 harchived (fun b c hm => by rwa [ArchiveHistory.Met, hmet]) fun w _ hw => hlive ▸ hw
      obtain ⟨Y, hY⟩ := Option.ne_none_iff_exists'.mp ht
      exact absurd (hb.archiver b Y hY).1 hnot
  · by_cases hba : b = a
    · subst hba
      obtain rfl : X' = Y := by simpa [ArchiverSystem.after] using hY
      exact ⟨hlive ▸ hmem, hkept⟩
    · have hY' : s.archivers b = some Y := by simpa [ArchiverSystem.after, hba] using hY
      obtain ⟨hbl, hkeyed, hsel⟩ := hb.archiver b Y hY'
      refine ⟨hlive ▸ hbl, hkeyed, fun κ' w hc => ?_⟩
      obtain ⟨hprev, hold⟩ := hsel κ' w hc
      refine ⟨hprev, fun e he hdb => ?_⟩
      by_cases hκ : κ' = κ
      · subst hκ
        have hslot : s.opens κ' b = some w := by rw [ArchiverSystem.opens_of hY', he, Option.map_some, hdb]
        have hne : s.opens κ' a ≠ some w := by
          intro hcontra
          exact hba (((hb.account κ').slot b w hslot).2.symm.trans ((hb.account κ').slot a w hcontra).2)
        rw [Function.update_self, hselected w hne]
        exact hold e he hdb
      · rw [Function.update_of_ne hκ]
        exact hold e he hdb
  · intro b hbl c hcl hne
    rw [hlive] at hbl hcl
    rw [ArchiveHistory.Met, hmet]
    exact hb.met b hbl c hcl hne
  · rw [hmade]
    exact hb.known b (hlive ▸ hbl)
  · have hba : b ≠ a := by
      rintro rfl
      rw [hmade] at hbm
      exact hbm (hb.known b hmem)
    rw [hunmade b hba]
    exact hb.unmade b (hmade ▸ hbm) κ' κ''

/-- A call on a DB of the archiver that leaves the fields as they were. -/
theorem Booked.called (hb : Booked config d₀ A s h owner) (hX : s.archivers a = some X) (hsame : X'.databases = X.databases)
    (haccount : Account (config.database κ) (config.storeDirectory κ) (d₀ κ) A (fun a => s.archivers a ≠ none) (s.opens κ) t H
      (owner κ) s.next)
    (hselected : ∀ w, s.opens κ a ≠ some w → H.selected w = (h κ).selected w) (hkept : X'.Kept (Function.update h κ H)) :
    Booked config d₀ A (s.after a X' κ t s.next) (Function.update h κ H) owner := by
  rw [← Function.update_eq_self (f := owner) κ]
  refine hb.after hX ?_ (fun κ' _ => by rw [hsame]) (Nat.le_refl _) (fun _ _ => ⟨fun _ => rfl, rfl⟩) hselected hkept
    (fun _ => id) rfl rfl rfl fun _ _ => rfl
  rw [hsame, ← ArchiverSystem.opens_of hX, Function.update_eq_self]
  exact haccount

/-- An entry of the map that is looked up again. -/
theorem Booked.touch (time : Nat) (hb : Booked config d₀ A s h owner) (hX : s.archivers a = some X)
    (he : X.databases[key.order]? = some e) :
    Booked config d₀ A
      (s.after a { X with databases := X.databases.insert key.order { e with time } } key.keys (s.dbs key.keys) s.next) h
      owner := by
  obtain ⟨-, hkeyed, hselected⟩ := hb.archiver a X hX
  have hdb : ∀ k : List String,
      ((X.databases.insert key.order { e with time })[k]?).map OpenDB.db = (X.databases[k]?).map OpenDB.db := by
    intro k
    rw [Std.ExtTreeMap.getElem?_insert]
    split
    · rename_i hk
      rw [← Std.LawfulEqCmp.compare_eq_iff_eq.mp hk, he]
      rfl
    · rfl
  have hacc := hb.account key.keys
  rw [← Function.update_eq_self (f := h) key.keys, ← Function.update_eq_self (f := owner) key.keys]
  refine hb.after hX ?_ (fun _ _ => hdb _) (Nat.le_refl _) (fun _ _ => ⟨fun _ => rfl, rfl⟩) (fun _ _ => rfl) ?_ (fun _ => id)
    rfl rfl rfl fun _ _ => rfl
  · rw [hdb, ← ArchiverSystem.opens_of hX, Function.update_eq_self]
    exact hacc
  · rw [Function.update_eq_self]
    refine ⟨fun k e' he' => ?_, fun κ w hc => ?_⟩
    · rw [Std.ExtTreeMap.getElem?_insert] at he'
      split at he'
      · rename_i hk
        obtain rfl := Option.some.inj he'
        rw [← Std.LawfulEqCmp.compare_eq_iff_eq.mp hk]
        exact hkeyed _ e he
      · exact hkeyed k e' he'
    · obtain ⟨hprev, hold⟩ := hselected κ w hc
      refine ⟨hprev, fun e' he' hw => ?_⟩
      have hsame := hdb κ.order
      rw [he', Option.map_some] at hsame
      obtain ⟨e₀, he₀, hdb₀⟩ := Option.map_eq_some_iff.mp hsame.symm
      exact hold e₀ he₀ (hdb₀.trans hw)

/-- A DB that has nothing to flush is closed. -/
theorem Booked.close {k : List String} (hb : Booked config d₀ A s h owner) (hd : ∀ κ, (config.database κ).Absent (d₀ κ))
    (hX : s.archivers a = some X) (he : X.databases[k]? = some e)
    (hclean : ∀ D ∈ (s.dbs e.key.keys).dbs e.db, ∀ S ∈ D.store, S.dirty = false) :
    ∃ t, (s.dbs e.key.keys).step (config.database e.key.keys) (config.storeDirectory e.key.keys) (.destroy e.db) = (t, none) ∧
      (s.dbs e.key.keys).Quiet t ∧ ∃ h', Booked config d₀ A
        (s.after a { X with databases := X.databases.erase e.key.order } e.key.keys t s.next) h' owner := by
  obtain ⟨-, hkeyed, hselected⟩ := hb.archiver a X hX
  obtain rfl := hkeyed k e he
  have hs : s.opens e.key.keys a = some e.db := by
    rw [ArchiverSystem.opens_of hX]
    exact congrArg (Option.map _) he
  obtain ⟨t, hstep, hquiet, hacc⟩ := (hb.account e.key.keys).close (hd _) hs hclean
  have herase : ∀ k : List String, k ≠ e.key.order → (X.databases.erase e.key.order)[k]? = X.databases[k]? := by
    intro k hk
    rw [Std.ExtTreeMap.getElem?_erase, if_neg fun heq => hk (Std.LawfulEqCmp.compare_eq_iff_eq.mp heq).symm]
  have hsub : ∀ k : List String, ∀ e' : OpenDB,
      (X.databases.erase e.key.order)[k]? = some e' → X.databases[k]? = some e' := by
    intro k e' he'
    rw [Std.ExtTreeMap.getElem?_erase] at he'
    split at he'
    · cases he'
    · exact he'
  refine ⟨t, hstep, hquiet,
    Function.update h e.key.keys { (h e.key.keys).flush e.db with live := (h e.key.keys).live.erase e.db }, ?_⟩
  rw [← Function.update_eq_self (f := owner) e.key.keys]
  refine hb.after hX ?_ (fun κ' hκ => ?_) (Nat.le_refl _) (fun _ _ => ⟨fun _ => rfl, rfl⟩) (fun _ _ => rfl) ?_ (fun _ => id)
    rfl rfl rfl fun _ _ => rfl
  · have hnone : (X.databases.erase e.key.order)[StringDict.order e.key.keys]? = none := Std.ExtTreeMap.getElem?_erase_self
    rw [hnone]
    exact hacc
  · rw [herase κ'.order fun heq => hκ (StringDict.order_injective heq)]
  · refine ⟨fun k e' he' => hkeyed k e' (hsub k e' he'), fun κ w hc => ?_⟩
    obtain ⟨hprev, hold⟩ := hselected κ w hc
    refine ⟨hprev, fun e' he' hw => ?_⟩
    have hsame : (Function.update h e.key.keys
        { (h e.key.keys).flush e.db with live := (h e.key.keys).live.erase e.db } κ).selected = (h κ).selected := by
      by_cases hκ : κ = e.key.keys
      · subst hκ
        simp [DbHistory.flush]
      · simp [hκ]
    rw [hsame]
    exact hold e' (hsub _ e' he') hw

/-- A database that the archiver does not have open is opened. -/
theorem Booked.build (time : Nat) (hb : Booked config d₀ A s h owner) (hd : ∀ κ, (config.database κ).Absent (d₀ κ))
    (hX : s.archivers a = some X) (hnone : X.databases[key.order]? = none) (hkey : key.Addresses key.keys)
    (hother : key.keys ≠ X.prev0.keys) :
    ∃ t, (s.dbs key.keys).step (config.database key.keys) (config.storeDirectory key.keys) (.build s.next key) = (t, none) ∧
      (s.dbs key.keys).Quiet t ∧ ∃ h' owner', Booked config d₀ A
        (s.after a { X with databases := X.databases.insert key.order ⟨time, key, s.next⟩ } key.keys t (s.next + 1)) h' owner' := by
  obtain ⟨ha, hkeyed, hselected⟩ := hb.archiver a X hX
  have hs : s.opens key.keys a = none := by
    rw [ArchiverSystem.opens_of hX]
    exact congrArg (Option.map _) hnone
  obtain ⟨t, hstep, hquiet, hacc⟩ := (hb.account key.keys).build (hd _) hs (by simp [hX]) ha
    (fun b hbl hne => hb.met b hbl a ha hne) hkey
  have hinsert : ∀ k : List String, k ≠ key.order →
      (X.databases.insert key.order ⟨time, key, s.next⟩)[k]? = X.databases[k]? := by
    intro k hk
    rw [Std.ExtTreeMap.getElem?_insert, if_neg fun heq => hk (Std.LawfulEqCmp.compare_eq_iff_eq.mp heq).symm]
  refine ⟨t, hstep, hquiet, Function.update h key.keys ((h key.keys).build s.next),
    Function.update owner key.keys (Function.update (owner key.keys) s.next a), ?_⟩
  refine hb.after hX ?_ (fun κ' hκ => ?_) (Nat.le_succ _) (fun _ _ => ⟨fun _ => rfl, rfl⟩) (fun w _ => ?_) ?_ (fun _ => id)
    rfl rfl rfl fun _ _ => rfl
  · have hself : (X.databases.insert key.order (⟨time, key, s.next⟩ : OpenDB))[StringDict.order key.keys]? =
        some ⟨time, key, s.next⟩ := Std.ExtTreeMap.getElem?_insert_self
    rw [hself]
    exact hacc
  · rw [hinsert κ'.order fun heq => hκ (StringDict.order_injective heq)]
  · rw [DbHistory.build]
    split <;> rfl
  · refine ⟨fun k e' he' => ?_, fun κ w hc => ?_⟩
    · by_cases hk : k = key.order
      · rw [hk, Std.ExtTreeMap.getElem?_insert_self] at he'
        obtain rfl := Option.some.inj he'
        exact hk
      · rw [hinsert k hk] at he'
        exact hkeyed k e' he'
    · obtain ⟨hprev, hold⟩ := hselected κ w hc
      have hκ : κ ≠ key.keys := fun heq => hother (heq ▸ hprev)
      refine ⟨hprev, fun e' he' hw => ?_⟩
      rw [hinsert κ.order fun heq => hκ (StringDict.order_injective heq)] at he'
      rw [Function.update_of_ne hκ]
      exact hold e' he' hw

/-- A database is selected, and no index in it. -/
theorem Booked.select (hb : Booked config d₀ A s h owner) (hd : ∀ κ, (config.database κ).Absent (d₀ κ))
    (hX : s.archivers a = some X) (he : X.databases[key.order]? = some e) :
    ∃ t, (s.dbs key.keys).step (config.database key.keys) (config.storeDirectory key.keys) (.deselectIndex e.db) = (t, none) ∧
      (s.dbs key.keys).Quiet t ∧ ∃ h', Booked config d₀ A
        (s.after a { X with current := some (key.keys, e.db), prev0 := key, prev1 := {} } key.keys t s.next) h' owner := by
  obtain ⟨-, hkeyed, -⟩ := hb.archiver a X hX
  have hs : s.opens key.keys a = some e.db := by
    rw [ArchiverSystem.opens_of hX]
    exact congrArg (Option.map _) he
  obtain ⟨t, hstep, hquiet, hacc⟩ := (hb.account key.keys).deselectIndex (hd _) hs
  refine ⟨t, hstep, hquiet,
    Function.update h key.keys { h key.keys with selected := Function.update (h key.keys).selected e.db {} }, ?_⟩
  refine hb.called (κ := key.keys) hX rfl hacc (fun w hw => ?_) ?_
  · refine Function.update_of_ne ?_ ..
    rintro rfl
    exact hw hs
  · refine ⟨hkeyed, fun κ w hc => ?_⟩
    obtain ⟨rfl, rfl⟩ := Prod.mk.inj (Option.some.inj hc)
    refine ⟨rfl, fun _ _ _ => ?_⟩
    simp

/-- An index is selected in the database that is selected. -/
theorem Booked.selectIndex (hb : Booked config d₀ A s h owner) (hd : ∀ κ, (config.database κ).Absent (d₀ κ))
    (hX : s.archivers a = some X) (hc : X.current = some (κ, e.db)) (he : X.databases[κ.order]? = some e)
    (hkey : key.Selectable) :
    ∃ t, (s.dbs κ).step (config.database κ) (config.storeDirectory κ) (.selectIndex e.db key) = (t, none) ∧
      (s.dbs κ).Quiet t ∧ ∃ h', Booked config d₀ A (s.after a { X with prev1 := key } κ t s.next) h' owner := by
  obtain ⟨-, hkeyed, hselected⟩ := hb.archiver a X hX
  have hs : s.opens κ a = some e.db := by
    rw [ArchiverSystem.opens_of hX, he]
    rfl
  obtain ⟨t, hstep, hquiet, hacc⟩ := (hb.account κ).selectIndex (hd _) hs hkey
  refine ⟨t, hstep, hquiet, Function.update h κ { h κ with selected := Function.update (h κ).selected e.db key }, ?_⟩
  refine hb.called hX rfl hacc (fun w hw => ?_) ?_
  · refine Function.update_of_ne ?_ ..
    rintro rfl
    exact hw hs
  · refine ⟨hkeyed, fun κ' w hc' => ?_⟩
    obtain ⟨rfl, rfl⟩ := Prod.mk.inj (Option.some.inj (hc.symm.trans hc'))
    refine ⟨(hselected κ e.db hc).1, fun _ _ _ => ?_⟩
    simp

/-- A field is filed under the keys that `prev_` has, or not at all. -/
theorem Booked.archive {data : DataBytes} {x : TocStore.Archiving} (hb : Booked config d₀ A s h owner)
    (hd : ∀ κ, (config.database κ).Absent (d₀ κ)) (hX : s.archivers a = some X) (hc : X.current = some (κ, e.db))
    (he : X.databases[κ.order]? = some e) (hsafe : (s.dbs κ).Safe (config.database κ) (.archive e.db key data x)) :
    ∃ t thrown, (s.dbs κ).step (config.database κ) (config.storeDirectory κ) (.archive e.db key data x) = (t, thrown) ∧
      ∃ h', Booked config d₀ (if thrown = none then A.archive a ⟨X.prev0.keys, X.prev1.keys, key⟩ data else A)
        (s.after a X κ t s.next) h' owner := by
  obtain ⟨-, hkept⟩ := hb.archiver a X hX
  obtain ⟨hprev, hindex⟩ := hkept.selected κ e.db hc
  have hs : s.opens κ a = some e.db := by
    rw [ArchiverSystem.opens_of hX, he]
    rfl
  have hacc := (hb.account κ).archive (hd κ) hs (by simp [hX]) hsafe
  generalize (s.dbs κ).step (config.database κ) (config.storeDirectory κ) (.archive e.db key data x) = r at hacc
  obtain ⟨t, thrown⟩ := r
  refine ⟨t, thrown, rfl, ?_⟩
  cases thrown with
  | none =>
    rw [if_pos rfl, ← Function.update_eq_self (f := owner) κ]
    have hdone := hacc.1 rfl
    rw [hindex e he rfl] at hdone
    subst hprev
    refine ⟨Function.update h X.prev0.keys ((h X.prev0.keys).archive e.db (key, data)), ?_⟩
    refine hb.after hX ?_ (fun _ _ => rfl) (Nat.le_refl _) (fun κ' hκ => ⟨fun b => ?_, rfl⟩) (fun _ _ => rfl) ?_
      (fun _ => List.mem_append_left _) rfl rfl rfl fun b hba => Function.update_of_ne hba ..
    · rw [← ArchiverSystem.opens_of hX, Function.update_eq_self]
      exact hdone
    · by_cases hba : b = a
      · simp [ArchiveHistory.archive, hba, hκ]
      · simp [ArchiveHistory.archive, hba]
    · refine ⟨hkept.keyed, fun κ' w hc' => ?_⟩
      obtain ⟨rfl, rfl⟩ := Prod.mk.inj (Option.some.inj (hc.symm.trans hc'))
      refine ⟨rfl, fun e' he' hw => ?_⟩
      rw [Function.update_self]
      exact hindex e' he' hw
  | some failure =>
    rw [if_neg (by simp)]
    refine ⟨Function.update h κ (h κ), hb.called hX rfl (hacc.2 (by simp)) (fun _ _ => rfl) ?_⟩
    rw [Function.update_eq_self]
    exact hkept

/-- The fields of one database are flushed, or stay as they were. -/
theorem Booked.flush {k : List String} {f : TocStore.Flushing} (hb : Booked config d₀ A s h owner)
    (hd : ∀ κ, (config.database κ).Absent (d₀ κ)) (hX : s.archivers a = some X) (he : X.databases[k]? = some e) :
    ∃ t thrown, (s.dbs e.key.keys).step (config.database e.key.keys) (config.storeDirectory e.key.keys) (.flush e.db f) =
      (t, thrown) ∧ (thrown = none → ∀ D ∈ t.dbs e.db, ∀ S ∈ D.store, S.dirty = false) ∧
      ∃ h', Booked config d₀ (if thrown = none then A.publish a fun κ => κ = e.key.keys else A)
        (s.after a X e.key.keys t s.next) h' owner := by
  obtain ⟨-, hkept⟩ := hb.archiver a X hX
  obtain rfl := hkept.keyed k e he
  have hs : s.opens e.key.keys a = some e.db := by
    rw [ArchiverSystem.opens_of hX]
    exact congrArg (Option.map _) he
  have hacc := (hb.account e.key.keys).flush f (fun κ => κ = e.key.keys) (hd _) hs (by simp [hX]) (decide_eq_true rfl)
  generalize (s.dbs e.key.keys).step (config.database e.key.keys) (config.storeDirectory e.key.keys) (.flush e.db f) = r at hacc
  obtain ⟨t, thrown⟩ := r
  refine ⟨t, thrown, rfl, fun hnone => (hacc.1 hnone).2, ?_⟩
  cases thrown with
  | none =>
    rw [if_pos rfl, ← Function.update_eq_self (f := owner) e.key.keys]
    refine ⟨Function.update h e.key.keys ((h e.key.keys).flush e.db), ?_⟩
    refine hb.after hX ?_ (fun _ _ => rfl) (Nat.le_refl _) (fun κ' hκ => ⟨fun b => ?_, ?_⟩) (fun _ _ => rfl) ?_
      (fun _ => id) rfl rfl rfl fun b hba => Function.update_of_ne hba ..
    · rw [← ArchiverSystem.opens_of hX, Function.update_eq_self]
      exact (hacc.1 rfl).1
    · by_cases hba : b = a
      · simp [ArchiveHistory.publish, hba, hκ]
      · simp [ArchiveHistory.publish, hba]
    · simp [ArchiveHistory.publish, hκ]
    · refine ⟨hkept.keyed, fun κ' w hc' => ?_⟩
      obtain ⟨hprev, hindex⟩ := hkept.selected κ' w hc'
      refine ⟨hprev, fun e' he' hw => ?_⟩
      have hsame : (Function.update h e.key.keys ((h e.key.keys).flush e.db) κ').selected = (h κ').selected := by
        by_cases hκ : κ' = e.key.keys
        · subst hκ
          simp [DbHistory.flush]
        · simp [hκ]
      rw [hsame]
      exact hindex e' he' hw
  | some failure =>
    rw [if_neg (by simp)]
    refine ⟨Function.update h e.key.keys (h e.key.keys), hb.called hX rfl (hacc.2 (by simp)) (fun _ _ => rfl) ?_⟩
    rw [Function.update_eq_self]
    exact hkept

end Booked

end Fdb5
