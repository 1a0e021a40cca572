import Fdb5.Database.ArchiveWalk

/-! What a reader gets after any calls on the archivers of all processes. -/
namespace Fdb5

open Effect Archiver

/-- A flush that has gone through some of the entries. -/
structure FlushedTo (config : ArchiveConfig) (d₀ : StringDict → Disk) (A : ArchiveHistory) (s : ArchiverSystem) (a : Nat)
    (X : Archiver) (pre : List OpenDB) (u : ArchiverState) : Prop where
  archiver : u.archiver = X
  booked : ∃ h owner,
    Booked config d₀ (A.publish a fun κ => decide (κ ∈ pre.map fun e => e.key.keys)) (s.put a u) h owner
  flushed : ∀ e ∈ pre, e ∈ X.entries ∧ (s.put a u).Flushed e

/-- An archiver that has closed some of its entries. -/
structure ClosedTo (config : ArchiveConfig) (d₀ : StringDict → Disk) (A : ArchiveHistory) (s : ArchiverSystem) (a : Nat)
    (X : Archiver) (pre : List OpenDB) (u : ArchiverState) : Prop where
  booked : ∃ h owner, Booked config d₀ A (s.put a u) h owner
  databases : ∀ k : List String,
    u.archiver.databases[k]? = if k ∈ pre.map fun e => e.key.order then none else X.databases[k]?
  flushed : ∀ e ∈ X.entries, (s.put a u).Flushed e

section Calls

variable {config : ArchiveConfig} {d₀ : StringDict → Disk} {A A' : ArchiveHistory} {s : ArchiverSystem}
  {h : StringDict → DbHistory} {owner : StringDict → Nat → Nat} {a : Nat} {X : Archiver} {field : Key} {data : DataBytes}
  {x : Archiving} {f : StringDict → TocStore.Flushing} {e : OpenDB} {c : ArchiverCall}

/-- An expansion that leaves the archiver ends as that of the schema. -/
theorem ends_visit {u : ArchiverState} {Q : Option RulePtr → ArchiverState → Prop} {E : Failure → ArchiverState → Prop}
    (h : Ends (config.schema.expand config.matchFirstFdbRule (visitor config field data x) field)
      { prev0 := u.archiver.prev0, prev1 := u.archiver.prev1, visitor := u } (fun _ m => Q m.rule (leave m))
      fun e m => E e (leave m)) :
    Ends (Archiver.expand config field data x) u Q E := by
  simp only [Ends, Archiver.expand, EStateM.run] at h ⊢
  cases hrun : config.schema.expand config.matchFirstFdbRule (visitor config field data x) field
    { prev0 := u.archiver.prev0, prev1 := u.archiver.prev1, visitor := u } <;> simpa only [hrun] using h

theorem Booked.ends_archive (hb : Booked config d₀ A s h owner) (hd : ∀ κ, (config.database κ).Absent (d₀ κ))
    (hs : config.schema.ThreeLevels) (hfirst : config.matchFirstFdbRule = true) (hX : s.archivers a = some X)
    (hcanonical : config.schema.Canonical config.version field) (htakes : s.Takes config X field data x) :
    Ends (Archiver.archive config field data x) ⟨X, s.dbs, s.next⟩
      (fun _ u => ∃ A', A.Step config.schema (.archive a field data x) none A' ∧
        ∃ h owner, Booked config d₀ A' (s.put a u) h owner)
      fun e u => ∃ A', A.Step config.schema (.archive a field data x) (some e) A' ∧
        ∃ h owner, Booked config d₀ A' (s.put a u) h owner := by
  have hstart : Walks config d₀ A s a X field data none
      { prev0 := X.prev0, prev1 := X.prev1, rule := none, visitor := ⟨X, s.dbs, s.next⟩ } := by
    refine ⟨rfl, fun _ => ⟨⟨⟨h, owner, ?_⟩, fun κ => .refl, Nat.le_refl _, fun k e he => .inr ⟨e, he, rfl⟩, fun k => .inl⟩,
      htakes.current⟩, by simp⟩
    change Booked config d₀ A (s.put a ⟨X, s.dbs, s.next⟩) h owner
    rw [ArchiverSystem.put_self hX]
    exact hb
  rw [Archiver.archive, ends_bind]
  refine ends_visit ?_
  rw [hfirst]
  refine (Walks.ends_expand ⟨h, owner, hb⟩ hd htakes hcanonical hs hX hstart).mono (fun _ m hm => ?_)
    fun e m hm => ⟨A, .refused e, hm⟩
  obtain ⟨found, hsearch, hwalks⟩ := hm
  cases found with
  | none =>
    have hrule : m.rule = none := hwalks.rule
    have hbooked := (hwalks.selects rfl).1.booked
    simp only [hrule, ends_bind, ends_lift, ends_throw]
    exact ⟨fun _ _ => ⟨A, .refused _, hbooked⟩, fun e _ => ⟨A, .refused e, hbooked⟩⟩
  | some p =>
    have hrule : m.rule = some p.1 := hwalks.rule
    have hbooked := hwalks.filed p.1 p.2 rfl
    simp only [hrule, ends_lift]
    exact ⟨fun _ hcheck => ⟨_, .archived hsearch hcheck, hbooked⟩, fun e hcheck => ⟨_, .unchecked hsearch hcheck, hbooked⟩⟩

theorem Archiver.Kept.entry_eq {e' : OpenDB} (hk : X.Kept h) (he : e ∈ X.entries) (he' : e' ∈ X.entries)
    (hκ : e.key.keys = e'.key.keys) : e = e' := by
  obtain ⟨k, hek⟩ := mem_entries.mp he
  obtain ⟨k', hek'⟩ := mem_entries.mp he'
  obtain rfl := hk.keyed k e hek
  obtain rfl := hk.keyed k' e' hek'
  have horder : e.key.order = e'.key.order := congrArg StringDict.order hκ
  rw [horder, hek'] at hek
  exact (Option.some.inj hek).symm

theorem Archiver.Kept.nodup (hk : X.Kept h) : (X.entries.map fun e => e.key.order).Nodup := by
  have hkeys : X.entries.map (fun e => e.key.order) = X.databases.keys := by
    rw [Archiver.entries, List.map_map, ← Std.ExtTreeMap.map_fst_toList_eq_keys]
    refine List.map_congr_left fun p hp => ?_
    exact (hk.keyed p.1 p.2 (Std.ExtTreeMap.mem_toList_iff_getElem?_eq_some.mp hp)).symm
  rw [hkeys]
  exact Std.ExtTreeMap.nodup_keys

theorem ArchiverSystem.put_put {u v : ArchiverState} : (s.put a u).put a v = s.put a v := by
  simp [put]

theorem FlushedTo.step {pre : List OpenDB} {u : ArchiverState} (hu : FlushedTo config d₀ A s a X pre u)
    (hd : ∀ κ, (config.database κ).Absent (d₀ κ)) (hkept : X.Kept h) (he : e ∈ X.entries) :
    Ends (onDB config e.key.keys (.flush e.db (f e.key.keys))) u (fun _ => FlushedTo config d₀ A s a X (pre ++ [e]))
      fun _ u => ∃ P h owner, Booked config d₀ (A.publish a P) (s.put a u) h owner := by
  obtain ⟨hXu, ⟨h₁, owner₁, hb₁⟩, hpre⟩ := hu
  obtain ⟨k, hek⟩ := mem_entries.mp he
  have hX₁ : (s.put a u).archivers a = some X := by rw [ArchiverSystem.archivers_put, hXu]
  obtain ⟨t, thrown, hstep, hclean, h₂, hb₂⟩ := hb₁.flush (f := f e.key.keys) hd hX₁ hek
  rw [ArchiverSystem.after_put] at hb₂
  obtain ⟨Y, dbs, next⟩ := u
  obtain rfl : Y = X := hXu
  cases thrown with
  | some failure => exact ends_onDB_throws hstep ⟨_, h₂, owner₁, hb₂⟩
  | none =>
    rw [if_pos rfl, ArchiveHistory.publish_publish] at hb₂
    have hfun : (fun κ => decide (κ ∈ pre.map fun e => e.key.keys) || decide (κ = e.key.keys)) =
        fun κ => decide (κ ∈ (pre ++ [e]).map fun e => e.key.keys) := by
      funext κ
      simp
    rw [hfun] at hb₂
    refine ends_onDB hstep ⟨rfl, ⟨h₂, owner₁, hb₂⟩, fun e' he' => ?_⟩
    have hmem : e' ∈ Y.entries := by
      rcases List.mem_append.mp he' with he' | he'
      · exact (hpre e' he').1
      · exact List.mem_singleton.mp he' ▸ he
    refine ⟨hmem, fun D hD S hS => ?_⟩
    by_cases hκ : e'.key.keys = e.key.keys
    · obtain rfl := hkept.entry_eq hmem he hκ
      exact hclean rfl D (by simpa [ArchiverSystem.put] using hD) S hS
    · rcases List.mem_append.mp he' with he' | he'
      · exact (hpre e' he').2 D (by simpa [ArchiverSystem.put, hκ] using hD) S hS
      · exact absurd (congrArg (fun e => e.key.keys) (List.mem_singleton.mp he')) hκ

/-- Nothing waits in a database that the archiver does not have open. -/
theorem Booked.publish_entries (hb : Booked config d₀ A s h owner) (hX : s.archivers a = some X) :
    (A.publish a fun κ => decide (κ ∈ X.entries.map fun e => e.key.keys)) = A.flush a := by
  refine ArchiveHistory.publish_congr fun κ hne κ' => ?_
  by_contra hpending
  obtain ⟨w, hw⟩ := Option.ne_none_iff_exists'.mp ((hb.account κ).placed a (by simp [hX]) κ' hpending)
  rw [ArchiverSystem.opens_of hX] at hw
  obtain ⟨e, he, -⟩ := Option.map_eq_some_iff.mp hw
  have hκ : κ = e.key.keys := StringDict.order_injective ((hb.archiver a X hX).2.keyed _ e he)
  exact hne (decide_eq_true (List.mem_map.mpr ⟨e, mem_entries.mpr ⟨_, he⟩, hκ.symm⟩))

theorem Booked.ends_flush (hb : Booked config d₀ A s h owner) (hd : ∀ κ, (config.database κ).Absent (d₀ κ))
    (hX : s.archivers a = some X) : Ends (Archiver.flush config f) ⟨X, s.dbs, s.next⟩
      (fun _ u => u.archiver = X ∧ (∃ h owner, Booked config d₀ (A.flush a) (s.put a u) h owner) ∧
        ∀ e ∈ X.entries, (s.put a u).Flushed e)
      fun _ u => ∃ P h owner, Booked config d₀ (A.publish a P) (s.put a u) h owner := by
  have hkept := (hb.archiver a X hX).2
  have hstart : FlushedTo config d₀ A s a X [] ⟨X, s.dbs, s.next⟩ := by
    refine ⟨rfl, ⟨h, owner, ?_⟩, by simp⟩
    rw [ArchiverSystem.put_self hX, ArchiveHistory.publish_none (by simp)]
    exact hb
  rw [Archiver.flush, ends_bind, ends_get]
  have hloop := ends_forM_prefix (P := FlushedTo config d₀ A s a X)
    (f := fun e => onDB config e.key.keys (.flush e.db (f e.key.keys))) (fun pre e he u hu => hu.step hd hkept he) [] ⟨X, s.dbs, s.next⟩ hstart
  refine hloop.mono (fun _ u hu => ?_) fun _ _ hu => hu
  rw [List.nil_append] at hu
  refine ⟨hu.archiver, ?_, fun e he => (hu.flushed e he).2⟩
  rw [← hb.publish_entries hX]
  exact hu.booked

theorem ClosedTo.step {pre post : List OpenDB} {u : ArchiverState} (hu : ClosedTo config d₀ A s a X pre u)
    (hd : ∀ κ, (config.database κ).Absent (d₀ κ)) (hkept : X.Kept h) (hl : X.entries = pre ++ e :: post) :
    Ends (Archiver.close config e) u (fun _ => ClosedTo config d₀ A s a X (pre ++ [e])) fun _ _ => False := by
  obtain ⟨⟨h₁, owner₁, hb₁⟩, hdatabases, hclean⟩ := hu
  have he : e ∈ X.entries := by simp [hl]
  obtain ⟨k, hek⟩ := mem_entries.mp he
  obtain rfl := hkept.keyed k e hek
  have hnot : e.key.order ∉ pre.map fun e => e.key.order := by
    have hnodup := hkept.nodup
    rw [hl, List.map_append, List.map_cons] at hnodup
    intro hmem
    exact (List.nodup_append.mp hnodup).2.2 _ hmem _ List.mem_cons_self rfl
  have hentry : u.archiver.databases[e.key.order]? = some e := by rw [hdatabases, if_neg hnot, hek]
  obtain ⟨t, hstep, hquiet, h₂, hb₂⟩ := hb₁.close hd ArchiverSystem.archivers_put hentry (hclean e he)
  rw [ArchiverSystem.after_put] at hb₂
  rw [Archiver.close, ends_bind, ends_setDatabases]
  refine ends_onDB hstep ⟨⟨h₂, owner₁, hb₂⟩, fun k => ?_, fun e' he' D hD S hS => ?_⟩
  · simp only [Std.ExtTreeMap.getElem?_erase, hdatabases k, List.map_append, List.mem_append, List.map_cons, List.map_nil,
      List.mem_singleton, Std.LawfulEqCmp.compare_eq_iff_eq]
    by_cases hk : e.key.order = k
    · simp [hk]
    · simp [hk, Ne.symm hk]
  · by_cases hκ : e'.key.keys = e.key.keys
    · have hD' : t.dbs e'.db = some D := by simpa [ArchiverSystem.put, hκ] using hD
      rcases hquiet.store _ D hD' with hnone | ⟨E, hE, hsame⟩
      · simp [hnone] at hS
      · exact hclean e' he' E (by simpa [ArchiverSystem.put, hκ] using hE) S (hsame ▸ hS)
    · exact hclean e' he' D (by simpa [ArchiverSystem.put, hκ] using hD) S hS

theorem Booked.ends_close (hb : Booked config d₀ A s h owner) (hd : ∀ κ, (config.database κ).Absent (d₀ κ))
    (hX : s.archivers a = some X) (hflushed : ∀ e ∈ X.entries, s.Flushed e) :
    Ends (X.entries.forM (Archiver.close config)) ⟨X, s.dbs, s.next⟩
      (fun _ u => (∃ h owner, Booked config d₀ A (s.put a u) h owner) ∧ ∀ κ, (s.put a u).opens κ a = none) fun _ _ => False := by
  have hkept := (hb.archiver a X hX).2
  have hstart : ClosedTo config d₀ A s a X [] ⟨X, s.dbs, s.next⟩ := by
    have hself := ArchiverSystem.put_self hX
    exact ⟨⟨h, owner, hself.symm ▸ hb⟩, by simp, fun e he => hself.symm ▸ hflushed e he⟩
  refine (ends_forM_split (fun pre e post hl u hu => ClosedTo.step hu hd hkept hl) hstart).mono (fun _ u hu => ?_)
    fun _ _ hu => hu
  refine ⟨hu.booked, fun κ => ?_⟩
  rw [ArchiverSystem.opens_of ArchiverSystem.archivers_put, hu.databases]
  split
  · rfl
  · rename_i hnot
    cases hentry : X.databases[κ.order]? with
    | none => rfl
    | some e => exact absurd (List.mem_map.mpr ⟨e, mem_entries.mpr ⟨_, hentry⟩, (hkept.keyed _ e hentry).symm⟩) hnot

theorem Booked.ends_destroy (hb : Booked config d₀ A s h owner) (hd : ∀ κ, (config.database κ).Absent (d₀ κ))
    (hX : s.archivers a = some X) : Ends (Archiver.destroy config f) ⟨X, s.dbs, s.next⟩
      (fun _ u => (∃ h owner, Booked config d₀ (A.flush a) (s.put a u) h owner) ∧ ∀ κ, (s.put a u).opens κ a = none)
      fun _ u => ∃ P h owner, Booked config d₀ (A.publish a P) (s.put a u) h owner := by
  have hboth : Ends (do Archiver.flush config f; (← get).archiver.entries.forM (Archiver.close config) : Act Unit)
      ⟨X, s.dbs, s.next⟩
      (fun _ u => (∃ h owner, Booked config d₀ (A.flush a) (s.put a u) h owner) ∧ ∀ κ, (s.put a u).opens κ a = none)
      fun _ u => ∃ P h owner, Booked config d₀ (A.publish a P) (s.put a u) h owner := by
    rw [ends_bind]
    refine (hb.ends_flush hd hX).mono (fun _ u hu => ?_) fun _ _ hu => hu
    obtain ⟨hXu, ⟨h₁, owner₁, hb₁⟩, hflushed⟩ := hu
    obtain ⟨Y, dbs, next⟩ := u
    obtain rfl : Y = X := hXu
    rw [ends_bind, ends_get]
    refine (hb₁.ends_close hd ArchiverSystem.archivers_put hflushed).mono (fun _ v hv => ?_) fun _ _ hv => hv.elim
    rwa [ArchiverSystem.put_put] at hv
  simp only [Ends, Archiver.destroy, EStateM.run] at hboth ⊢
  generalize (do Archiver.flush config f; (← get).archiver.entries.forM (Archiver.close config) : Act Unit) _ = r at hboth ⊢
  cases r <;> exact hboth

/-- An archiver is gone; what it has open stays open where its process was terminated. -/
theorem Booked.leave {live : List Nat} (hb : Booked config d₀ A s h owner) (hsub : ∀ b ∈ live, b ∈ A.live)
    (hrest : ∀ b ∈ A.live, b ≠ a → b ∈ live) (hX : s.archivers a ≠ none) (hopens : a ∈ live ∨ ∀ κ, s.opens κ a = none) :
    Booked config d₀ { A with live } { s with archivers := Function.update s.archivers a none } h owner := by
  have hof : ∀ b, b ≠ a → ∀ κ,
      ({ s with archivers := Function.update s.archivers a none } : ArchiverSystem).opens κ b = s.opens κ b := by
    intro b hba κ
    simp [ArchiverSystem.opens, hba]
  refine ⟨fun κ => ?_, fun b Y hY => ?_, fun b hbl c hcl => hb.met b (hsub b hbl) c (hsub c hcl), hb.made,
    fun b hbl => hb.known b (hsub b hbl), hb.unmade⟩
  · refine (hb.account κ).other (fun b w hw => ?_) (fun b _ ht => ?_) (fun b ht hnot κ' => ?_) (Nat.le_refl _)
      (fun _ => rfl) rfl (fun _ => id) (fun _ _ => id) fun w hw hmem => ?_
    · by_cases hba : b = a
      · subst hba
        simp [ArchiverSystem.opens] at hw
      · rwa [hof b hba] at hw
    · have hba : b ≠ a := by
        rintro rfl
        simp at ht
      exact ⟨by simpa [hba] using ht, hof b hba κ⟩
    · have hba : b ≠ a := by
        rintro rfl
        simp at ht
      obtain ⟨Y, hY⟩ := Option.ne_none_iff_exists'.mp (show s.archivers b ≠ none by simpa [hba] using ht)
      exact absurd (hb.archiver b Y hY).1 hnot
    · by_cases hwa : owner κ w = a
      · rcases hopens with hal | hnone
        · exact hwa ▸ hal
        · have hslot := ((hb.account κ).live w hw).2 (hwa ▸ hX)
          rw [hwa, hnone κ] at hslot
          cases hslot
      · exact hrest _ hmem hwa
  · have hba : b ≠ a := by
      rintro rfl
      simp at hY
    have hY' : s.archivers b = some Y := by simpa [hba] using hY
    exact ⟨hrest b (hb.archiver b Y hY').1 hba, (hb.archiver b Y hY').2⟩

theorem Booked.make (hb : Booked config d₀ A s h owner) (ha : a ∉ A.made) : Booked config d₀ (A.make a)
    { s with made := a :: s.made, archivers := Function.update s.archivers a (some {}) } h owner := by
  have hlive : a ∉ A.live := fun hmem => ha (hb.known a hmem)
  have hne : ∀ b ∈ A.live, b ≠ a := fun b hmem hba => hlive (hba ▸ hmem)
  have hof : ∀ b, b ≠ a → ∀ κ, ({ s with made := a :: s.made, archivers := Function.update s.archivers a (some {}) } :
      ArchiverSystem).opens κ b = s.opens κ b := by
    intro b hba κ
    simp [ArchiverSystem.opens, hba]
  refine ⟨fun κ => ?_, fun b Y hY => ?_, fun b hbl c hcl hbc => ?_, congrArg (a :: ·) hb.made, fun b hbl => ?_,
    fun b hbm => hb.unmade b fun hmem => hbm (.tail _ hmem)⟩
  · refine (hb.account κ).other (fun b w hw => ?_) (fun b hmem ht => ?_) (fun b ht hnot κ' => ?_) (Nat.le_refl _)
      (fun _ => rfl) rfl (fun _ => id) (fun b c hm => ?_) fun _ _ hmem => .tail _ hmem
    · by_cases hba : b = a
      · subst hba
        simp [ArchiverSystem.opens] at hw
      · rwa [hof b hba] at hw
    · exact ⟨by simpa [hne b hmem] using ht, hof b (hne b hmem) κ⟩
    · by_cases hba : b = a
      · exact hb.unmade b (hba ▸ ha) _ _
      · obtain ⟨Y, hY⟩ := Option.ne_none_iff_exists'.mp (show s.archivers b ≠ none by simpa [hba] using ht)
        exact absurd (hb.archiver b Y hY).1 hnot
    · exact hm.imp (List.mem_append_left _) (List.mem_append_left _)
  · by_cases hba : b = a
    · subst hba
      obtain rfl : {} = Y := by simpa using hY
      exact ⟨.head _, by simp, by simp⟩
    · have hY' : s.archivers b = some Y := by simpa [hba] using hY
      exact ⟨.tail _ (hb.archiver b Y hY').1, (hb.archiver b Y hY').2⟩
  · rcases List.mem_cons.mp hbl with rfl | hbl' <;> rcases List.mem_cons.mp hcl with rfl | hcl'
    · exact absurd rfl hbc
    · exact .inr (List.mem_append_right _ (List.mem_map.mpr ⟨c, hcl', rfl⟩))
    · exact .inl (List.mem_append_right _ (List.mem_map.mpr ⟨b, hbl', rfl⟩))
    · exact (hb.met b hbl' c hcl' hbc).imp (List.mem_append_left _) (List.mem_append_left _)
  · rcases List.mem_cons.mp hbl with rfl | hbl
    · exact .head _
    · exact .tail _ (hb.known b hbl)

namespace ArchiverSystem

theorem onArchiver_ends {y : Act Unit} {P : Option Failure → ArchiverSystem → Prop} (hX : s.archivers a = some X)
    (h : Ends y ⟨X, s.dbs, s.next⟩ (fun _ u => P none (s.put a u)) fun e u => P (some e) (s.put a u)) :
    P (s.onArchiver a y).2 (s.onArchiver a y).1 := by
  rw [onArchiver, hX]
  unfold Ends at h
  dsimp only
  cases hrun : y.run ⟨X, s.dbs, s.next⟩ with
  | ok _ u => simpa [hrun] using h
  | error e u => simpa [hrun] using h

theorem onArchiver_none {y : Act Unit} (hX : s.archivers a = none) :
    s.onArchiver a y = (s, some (.undefinedBehaviour "deleted Archiver")) := by
  rw [onArchiver, hX]

end ArchiverSystem

/-- Every call does to the databases what it does to the fields. -/
theorem Booked.step (hb : Booked config d₀ A s h owner) (hd : ∀ κ, (config.database κ).Absent (d₀ κ))
    (hs : config.schema.ThreeLevels) (hfirst : config.matchFirstFdbRule = true) (hsafe : s.Safe config c) :
    ∃ A', A.Step config.schema c (s.step config c).2 A' ∧ ∃ h owner, Booked config d₀ A' (s.step config c).1 h owner := by
  have hnothing : ∀ a, A.publish a (fun _ => false) = A := fun a => ArchiveHistory.publish_none (by simp)
  cases c with
  | make a =>
    by_cases ha : a ∈ s.made
    · rw [ArchiverSystem.step, if_pos ha]
      exact ⟨A, .made (hb.made ▸ ha), h, owner, hb⟩
    · rw [ArchiverSystem.step, if_neg ha]
      rw [hb.made] at ha
      exact ⟨A.make a, .make ha, h, owner, hb.make ha⟩
  | archive a field data x =>
    rw [ArchiverSystem.step]
    cases hX : s.archivers a with
    | none =>
      rw [ArchiverSystem.onArchiver_none hX]
      exact ⟨A, .refused _, h, owner, hb⟩
    | some X =>
      exact ArchiverSystem.onArchiver_ends (P := fun thrown t => ∃ A', A.Step config.schema (.archive a field data x) thrown A' ∧
        ∃ h owner, Booked config d₀ A' t h owner) hX (hb.ends_archive hd hs hfirst hX hsafe.1 (hsafe.2 X hX))
  | flush a f =>
    rw [ArchiverSystem.step]
    cases hX : s.archivers a with
    | none =>
      rw [ArchiverSystem.onArchiver_none hX]
      exact ⟨_, .flushFailed _ fun _ => false, h, owner, (hnothing a).symm ▸ hb⟩
    | some X =>
      refine ArchiverSystem.onArchiver_ends (P := fun thrown t => ∃ A', A.Step config.schema (.flush a f) thrown A' ∧
        ∃ h owner, Booked config d₀ A' t h owner) hX ((hb.ends_flush hd hX).mono (fun _ u hu => ?_) fun e u hu => ?_)
      · exact ⟨_, .flushed, hu.2.1⟩
      · obtain ⟨P, hbooked⟩ := hu
        exact ⟨_, .flushFailed e P, hbooked⟩
  | destroy a f =>
    rw [ArchiverSystem.step]
    cases hX : s.archivers a with
    | none =>
      rw [ArchiverSystem.onArchiver_none hX]
      have hself : Function.update s.archivers a none = s.archivers := by rw [← hX, Function.update_eq_self]
      simp only [hself]
      exact ⟨_, .destroyFailed _ fun _ => false, h, owner, (hnothing a).symm ▸ hb⟩
    | some X =>
      have hmem : a ∈ A.live := (hb.archiver a X hX).1
      have hpresent : ∀ u, (s.put a u).archivers a ≠ none := fun u => by simp [ArchiverSystem.archivers_put]
      refine ArchiverSystem.onArchiver_ends (P := fun thrown t => ∃ A', A.Step config.schema (.destroy a f) thrown A' ∧
        ∃ h owner, Booked config d₀ A' { t with archivers := Function.update t.archivers a none } h owner) hX
        ((hb.ends_destroy hd hX).mono (fun _ u hu => ?_) fun e u hu => ?_)
      · obtain ⟨⟨h₁, owner₁, hb₁⟩, hopens⟩ := hu
        exact ⟨_, .destroyed, h₁, owner₁, hb₁.leave (fun _ => List.mem_of_mem_erase)
          (fun b hbl hne => (List.mem_erase_of_ne hne).mpr hbl) (hpresent u) (.inr hopens)⟩
      · obtain ⟨P, h₁, owner₁, hb₁⟩ := hu
        exact ⟨_, .destroyFailed e P, h₁, owner₁, hb₁.leave (fun _ => id) (fun _ hbl _ => hbl) (hpresent u) (.inl hmem)⟩

theorem Booked.start {data₀ : StringDict → String → Option DataBytes} :
    Booked config d₀ {} (ArchiverSystem.start d₀ data₀) (fun _ => {}) fun _ _ => 0 where
  account κ := {
    holds := ⟨[], Holds.start⟩
    clean := by simp [DbSystem.Clean, ArchiverSystem.start]
    fresh := by simp
    slot := by simp [ArchiverSystem.opens, ArchiverSystem.start]
    live := by simp
    pending := by simp
    placed := by simp
    flushed := rfl
    archived := by simp
    met := by simp }
  archiver := by simp [ArchiverSystem.start]
  met := by simp
  made := rfl
  known := by simp
  unmade := by simp

theorem Booked.run {calls : List ArchiverCall} {ended : List (ArchiverCall × Option Failure)}
    (hb : Booked config d₀ A s h owner) (hA : ArchiveHistory.Explains config.schema ended A)
    (hd : ∀ κ, (config.database κ).Absent (d₀ κ)) (hs : config.schema.ThreeLevels) (hfirst : config.matchFirstFdbRule = true)
    (hsafe : Follows.Each (fun t => t.1.Safe config) (ArchiverSystem.track config) (s, ended) calls) :
    ∃ A', ArchiveHistory.Explains config.schema (calls.foldl (ArchiverSystem.track config) (s, ended)).2 A' ∧
      ∃ h owner, Booked config d₀ A' (calls.foldl (ArchiverSystem.track config) (s, ended)).1 h owner := by
  induction calls generalizing A s h owner ended with
  | nil => exact ⟨A, hA, h, owner, hb⟩
  | cons c calls ih =>
    rw [Follows.each_cons] at hsafe
    obtain ⟨A', hstep, h', owner', hb'⟩ := hb.step hd hs hfirst hsafe.1
    exact ih hb' (.step hA hstep) hsafe.2

end Calls

/-- The calls that have ended are those that were made. -/
theorem ArchiverSystem.calls_runCalls {config : ArchiveConfig} {d : StringDict → Disk}
    {data : StringDict → String → Option DataBytes} {calls : List ArchiverCall} :
    (runCalls config d data calls).2.map (·.1) = calls := by
  have hrest : ∀ s, (calls.foldl (track config) s).2.map (·.1) = s.2.map (·.1) ++ calls := by
    induction calls with
    | nil => simp
    | cons c calls ih =>
      intro s
      rw [List.foldl_cons, ih]
      simp [track]
  exact hrest _

section Example

def archiveSchema : Schema where
  registry := .untyped
  rules := [.mk 1 [⟨"class", .always⟩] [.mk 1 [⟨"type", .always⟩] [.mk 1 [⟨"step", .always⟩] [] .untyped] .untyped] .untyped]

/-- No more than one DB is kept open. -/
def archiveConfig : ArchiveConfig where
  schema := archiveSchema
  version := 3
  useSubToc := false
  tocPath κ := ⟨"/root/" ++ κ.values.headD "", fun _ => true⟩
  storeDirectory κ := "/root/" ++ κ.values.headD ""
  fdbMaxNbDBsOpen := 1

def archivedField (value : String) : Key := Key.ofList [("class", value), ("type", "an"), ("step", "0")] none

/-- What a rule for one keyword assigns. -/
def assignedKey (keyword value : String) : Key := Key.push { registry := some .untyped } keyword value

theorem assignedKey_encodable {keyword value : String} (hvalues : ∃ s, (assignedKey keyword value).valuesToString = .ok s)
    (hvalue : ∃ v, (assignedKey keyword value).canonicalValue keyword = .ok v) : (assignedKey keyword value).Encodable := by
  refine ⟨hvalues, fun keyword' h => ?_⟩
  rcases Key.mem_push.mp h with rfl | h
  · exact hvalue
  · simp at h

theorem assignedStep_fits : (assignedKey "step" "0").Fits ["step"] := by
  refine ⟨⟨assignedKey_encodable ⟨_, rfl⟩ ⟨_, rfl⟩, by decide, rfl⟩, rfl, fun keyword => ?_, ?_⟩
  · simp [assignedKey, eq_comm (a := "step")]
  · rintro values hv
    obtain rfl : ["0"] = values := Except.ok.inj hv
    decide

theorem archivedField_canonical {value : String} (h : value = "od" ∨ value = "rd") :
    archiveSchema.Canonical 3 (archivedField value) := by
  refine ⟨fun f hf k hk => ?_, fun f hf i hi k hk => ?_, fun f hf i hi r hr k hk => ?_⟩
  · obtain rfl := List.mem_singleton.mp hf
    rcases h with rfl | rfl
    · obtain rfl : assignedKey "class" "od" = k := Option.some.inj (Except.ok.inj hk)
      exact ⟨rfl, _, rfl, rfl⟩
    · obtain rfl : assignedKey "class" "rd" = k := Option.some.inj (Except.ok.inj hk)
      exact ⟨rfl, _, rfl, rfl⟩
  · obtain rfl := List.mem_singleton.mp hf
    obtain rfl := List.mem_singleton.mp hi
    have hassigned : assignedKey "type" "an" = k := by
      rcases h with rfl | rfl <;> exact Option.some.inj (Except.ok.inj hk)
    subst hassigned
    exact ⟨rfl, assignedKey_encodable ⟨_, rfl⟩ ⟨_, rfl⟩, _, rfl, rfl⟩
  · obtain rfl := List.mem_singleton.mp hf
    obtain rfl := List.mem_singleton.mp hi
    obtain rfl := List.mem_singleton.mp hr
    have hassigned : assignedKey "step" "0" = k := by
      rcases h with rfl | rfl <;> exact Option.some.inj (Except.ok.inj hk)
    subst hassigned
    exact fun _ => ⟨assignedStep_fits.storable, fun _ => ⟨"step", Key.mem_push.mpr (.inl rfl)⟩⟩

/-- Two archivers that are there at the same time; the first has to close a DB to open another. -/
def evictingCalls : List ArchiverCall := [.make 0, .make 1,
  .archive 0 (archivedField "od") [1, 2, 3] ⟨fun _ => 10, earlierWrite⟩,
  .archive 1 (archivedField "od") [4, 5] ⟨fun _ => 11, laterWrite⟩, .flush 0 fun _ _ => {}, .flush 1 fun _ _ => {},
  .archive 0 (archivedField "rd") [7] ⟨fun _ => 12, ⟨".3", true, ⟨1, 0⟩⟩⟩, .destroy 0 fun _ _ => {}]

theorem evicting_safe : Follows.Each (fun t => t.1.Safe archiveConfig) (ArchiverSystem.track archiveConfig)
    (ArchiverSystem.start (fun _ => {}) fun _ _ => none, []) evictingCalls := by
  simp only [evictingCalls, Follows.each_cons, Follows.each_nil, and_true]
  refine ⟨trivial, trivial, ⟨archivedField_canonical (.inl rfl), ?_⟩, ⟨archivedField_canonical (.inl rfl), ?_⟩, trivial, trivial,
    ⟨archivedField_canonical (.inr rfl), ?_⟩, trivial⟩
  all_goals decide +kernel

theorem archiveSchema_threeLevels : archiveSchema.ThreeLevels := by
  refine ⟨?_, ?_, ?_⟩ <;> simp [archiveSchema, Rule.rules]

end Example

end Fdb5
