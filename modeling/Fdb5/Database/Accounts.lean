import Fdb5.Database.ArchiveHistory
import Fdb5.Database.DbCalls

/-! What the archivers of all processes have open in one database, beside the fields that they were given. -/
namespace Fdb5

open Effect

/-- A database and the fields under its key: `owner` tells whose a DB is, `opens` which DB an archiver has open, if it is
`there`. -/
structure Account (db : Database) (storeDirectory : String) (d₀ : Disk) (A : ArchiveHistory) (there : Nat → Prop)
    (opens : Nat → Option Nat) (s : DbSystem) (H : DbHistory) (owner : Nat → Nat) (next : Nat) : Prop where
  holds : ∃ calls, Holds db storeDirectory d₀ s H calls
  clean : s.Clean H
  fresh : ∀ w ∈ H.built, w < next
  slot : ∀ a w, opens a = some w → w ∈ H.live ∧ owner w = a
  live : ∀ w ∈ H.live, owner w ∈ A.live ∧ (there (owner w) → opens (owner w) = some w)
  pending : ∀ w ∈ H.live, H.pending w = A.pending (owner w) db.key.keys
  placed : ∀ a, there a → ∀ κ, A.pending a db.key.keys κ ≠ [] → opens a ≠ none
  flushed : H.flushed = A.flushed db.key.keys
  archived : ∀ x ∈ H.archived, x.writer < next ∧ ⟨owner x.writer, db.key.keys, x.index.keys, x.key⟩ ∈ A.archived
  met : ∀ p ∈ H.met, p.1 < next ∧ p.2 < next ∧ A.Met (owner p.1) (owner p.2)

namespace Account

variable {db : Database} {storeDirectory : String} {d₀ : Disk} {A A' : ArchiveHistory} {there there' : Nat → Prop}
  {opens opens' : Nat → Option Nat} {s t : DbSystem} {H : DbHistory} {owner : Nat → Nat} {next next' a w : Nat} {key : Key}
  {data : DataBytes}

/-- What is done in another database, or to the archivers alone. -/
theorem other (h : Account db storeDirectory d₀ A there opens s H owner next)
    (hslot : ∀ b w, opens' b = some w → opens b = some w)
    (hthere : ∀ b ∈ A.live, there' b → there b ∧ opens' b = opens b)
    (hplaced : ∀ b, there' b → b ∉ A.live → ∀ κ, A.pending b db.key.keys κ = []) (hnext : next ≤ next')
    (hpending : ∀ b, A'.pending b db.key.keys = A.pending b db.key.keys)
    (hflushed : A'.flushed db.key.keys = A.flushed db.key.keys) (harchived : ∀ x ∈ A.archived, x ∈ A'.archived)
    (hmet : ∀ a b, A.Met a b → A'.Met a b) (hlive : ∀ w ∈ H.live, owner w ∈ A.live → owner w ∈ A'.live) :
    Account db storeDirectory d₀ A' there' opens' s H owner next' := by
  refine ⟨h.holds, h.clean, fun w hw => Nat.lt_of_lt_of_le (h.fresh w hw) hnext, fun b w hb => h.slot b w (hslot b w hb),
    fun w hw => ?_, fun w hw => ?_, fun b hb κ hne => ?_, h.flushed.trans hflushed.symm, fun x hx => ?_, fun p hp => ?_⟩
  · obtain ⟨hmem, hown⟩ := h.live w hw
    refine ⟨hlive w hw hmem, fun ht => ?_⟩
    obtain ⟨ht, hsame⟩ := hthere _ hmem ht
    rw [hsame]
    exact hown ht
  · rw [hpending]
    exact h.pending w hw
  · rw [hpending] at hne
    by_cases hmem : b ∈ A.live
    · obtain ⟨ht, hsame⟩ := hthere b hmem hb
      rw [hsame]
      exact h.placed b ht κ hne
    · exact absurd (hplaced b hb hmem κ) hne
  · obtain ⟨hlt, hmem⟩ := h.archived x hx
    exact ⟨Nat.lt_of_lt_of_le hlt hnext, harchived _ hmem⟩
  · obtain ⟨h₁, h₂, hm⟩ := h.met p hp
    exact ⟨Nat.lt_of_lt_of_le h₁ hnext, Nat.lt_of_lt_of_le h₂ hnext, hmet _ _ hm⟩

/-- An archiver's DB is open. -/
theorem opened (h : Account db storeDirectory d₀ A there opens s H owner next) (hd : db.Absent d₀) (hs : opens a = some w) :
    ∃ D, s.dbs w = some D := by
  obtain ⟨calls, hholds⟩ := h.holds
  exact (hholds.live_iff hd).mp (h.slot a w hs).1

theorem nodup (h : Account db storeDirectory d₀ A there opens s H owner next) (hd : db.Absent d₀) : H.live.Nodup := by
  obtain ⟨calls, hholds⟩ := h.holds
  rw [hholds.fields.live]
  rcases (hholds.tracks hd).state with ⟨hG, -⟩ | hsim
  · simp [hG]
  · exact hsim.facts.nodup

/-- A DB that is closed with nothing to flush. -/
theorem close (h : Account db storeDirectory d₀ A there opens s H owner next) (hd : db.Absent d₀) (hs : opens a = some w)
    (hclean : ∀ D ∈ s.dbs w, ∀ S ∈ D.store, S.dirty = false) :
    ∃ t, s.step db storeDirectory (.destroy w) = (t, none) ∧ s.Quiet t ∧
      Account db storeDirectory d₀ A there (Function.update opens a none) t { H.flush w with live := H.live.erase w } owner
        next := by
  obtain ⟨D, hD⟩ := h.opened hd hs
  obtain ⟨calls, hholds⟩ := h.holds
  obtain ⟨hw, hown⟩ := h.slot a w hs
  obtain ⟨d, hstep⟩ := hholds.step_destroy hd hD
  have hnone : ∀ κ, H.pending w κ = [] := h.clean w D hD (hclean D hD)
  have hafter := hholds.step (c := .destroy w) hd hclean
  have hclean' := hholds.clean (c := .destroy w) hd h.clean hclean
  rw [hstep] at hafter hclean'
  have hmem : ∀ v, v ∈ H.live.erase w ↔ v ≠ w ∧ v ∈ H.live := fun v => (h.nodup hd).mem_erase_iff
  have hpending : ∀ v, v ≠ w → (H.flush w).pending v = H.pending v := fun v hv => by simp [DbHistory.flush, hv]
  refine ⟨_, hstep, ⟨rfl, fun v E hE => ?_⟩, hafter, hclean', h.fresh, fun b v hb => ?_, fun v hv => ?_, fun v hv => ?_,
    fun b hb κ hne => ?_, ?_, h.archived, h.met⟩
  · by_cases hv : v = w
    · simp [hv] at hE
    · exact .inr ⟨E, by simpa [hv] using hE, rfl⟩
  · by_cases hba : b = a
    · simp [hba] at hb
    · rw [Function.update_of_ne hba] at hb
      obtain ⟨hv, hvb⟩ := h.slot b v hb
      refine ⟨(hmem v).mpr ⟨?_, hv⟩, hvb⟩
      rintro rfl
      exact hba (hvb.symm.trans hown)
  · obtain ⟨hne, hv⟩ := (hmem v).mp hv
    obtain ⟨hlive, hslot⟩ := h.live v hv
    refine ⟨hlive, fun ht => ?_⟩
    have hva : owner v ≠ a := by
      intro hva
      have hv' := hslot ht
      rw [hva, hs, Option.some.injEq] at hv'
      exact hne hv'.symm
    rw [Function.update_of_ne hva]
    exact hslot ht
  · obtain ⟨hne, hv⟩ := (hmem v).mp hv
    exact (hpending v hne).trans (h.pending v hv)
  · by_cases hba : b = a
    · rw [hba, ← hown, ← h.pending w hw] at hne
      exact absurd (hnone κ) hne
    · rw [Function.update_of_ne hba]
      exact h.placed b hb κ hne
  · rw [← h.flushed]
    funext κ
    change H.flushed κ ++ H.pending w κ = H.flushed κ
    rw [hnone κ, List.append_nil]

/-- An archiver opens the database. -/
theorem build (h : Account db storeDirectory d₀ A there opens s H owner next) (hd : db.Absent d₀) (hs : opens a = none)
    (ha : there a) (hA : a ∈ A.live) (hmet : ∀ b ∈ A.live, b ≠ a → A.Met b a) (hkey : key.Addresses db.key.keys) :
    ∃ t, s.step db storeDirectory (.build next key) = (t, none) ∧ s.Quiet t ∧
      Account db storeDirectory d₀ A there (Function.update opens a (some next)) t (H.build next)
        (Function.update owner next a) (next + 1) := by
  obtain ⟨calls, hholds⟩ := h.holds
  have hnew : next ∉ H.built := fun hm => Nat.lt_irrefl _ (h.fresh next hm)
  have hne : ∀ w ∈ H.built, w ≠ next := fun w hw => Nat.ne_of_lt (h.fresh w hw)
  have hnel : ∀ w ∈ H.live, w ≠ next := fun w hw => hne w (hholds.live_built hd hw)
  obtain ⟨W, d, hstep⟩ := hholds.step_build hd hkey hnew
  have hafter := hholds.step (c := .build next key) hd hkey
  have hclean' := hholds.clean (c := .build next key) hd h.clean hkey
  rw [hstep] at hafter hclean'
  have hbuild : H.build next =
      { H with built := next :: H.built, live := next :: H.live, met := H.met ++ H.live.map (·, next) } := by
    rw [DbHistory.build, if_neg hnew]
  have hnobody : ∀ v ∈ H.live, owner v ≠ a := by
    intro v hv hva
    have hslot := (h.live v hv).2 (hva ▸ ha)
    rw [hva, hs] at hslot
    cases hslot
  refine ⟨_, hstep, ⟨rfl, fun v E hE => ?_⟩, hafter, hclean', ?_, fun b v hb => ?_, ?_, ?_, fun b hb κ hne => ?_, ?_, ?_, ?_⟩
  · by_cases hv : v = next
    · subst hv
      simp only [Function.update_self, Option.some.injEq] at hE
      exact .inl (hE ▸ rfl)
    · exact .inr ⟨E, by simpa [hv] using hE, rfl⟩
  · rw [hbuild]
    intro v hv
    rcases List.mem_cons.mp hv with rfl | hv
    · exact Nat.lt_succ_self _
    · exact Nat.lt_succ_of_lt (h.fresh v hv)
  · rw [hbuild]
    by_cases hba : b = a
    · subst hba
      simp only [Function.update_self, Option.some.injEq] at hb
      subst hb
      exact ⟨.head _, by simp⟩
    · rw [Function.update_of_ne hba] at hb
      obtain ⟨hv, hvb⟩ := h.slot b v hb
      exact ⟨.tail _ hv, by rw [Function.update_of_ne (hnel v hv), hvb]⟩
  · rw [hbuild]
    intro v hv
    rcases List.mem_cons.mp hv with rfl | hv
    · simp [hA]
    · rw [Function.update_of_ne (hnel v hv), Function.update_of_ne (hnobody v hv)]
      exact h.live v hv
  · rw [hbuild]
    intro v hv
    rcases List.mem_cons.mp hv with rfl | hv
    · rw [Function.update_self]
      funext κ
      change H.pending v κ = _
      rw [hholds.pending_unbuilt hd hnew κ]
      by_contra hne
      exact h.placed a ha κ (Ne.symm hne) hs
    · rw [Function.update_of_ne (hnel v hv)]
      exact h.pending v hv
  · by_cases hba : b = a
    · simp [hba]
    · rw [Function.update_of_ne hba]
      exact h.placed b hb κ hne
  · rw [hbuild]
    exact h.flushed
  · rw [hbuild]
    intro x hx
    obtain ⟨hlt, hmem⟩ := h.archived x hx
    exact ⟨Nat.lt_succ_of_lt hlt, by rw [Function.update_of_ne (Nat.ne_of_lt hlt)]; exact hmem⟩
  · rw [hbuild]
    intro p hp
    rcases List.mem_append.mp hp with hp | hp
    · obtain ⟨h₁, h₂, hm⟩ := h.met p hp
      rw [Function.update_of_ne (Nat.ne_of_lt h₁), Function.update_of_ne (Nat.ne_of_lt h₂)]
      exact ⟨Nat.lt_succ_of_lt h₁, Nat.lt_succ_of_lt h₂, hm⟩
    · obtain ⟨v, hv, rfl⟩ := List.mem_map.mp hp
      refine ⟨Nat.lt_succ_of_lt (h.fresh v (hholds.live_built hd hv)), Nat.lt_succ_self _, ?_⟩
      rw [Function.update_self, Function.update_of_ne (hnel v hv)]
      exact hmet _ (h.live v hv).1 (hnobody v hv)

/-- What is selected does not matter to the fields. -/
theorem select {k : Nat → Key} (h : Account db storeDirectory d₀ A there opens s H owner next)
    (hholds : ∃ calls, Holds db storeDirectory d₀ t { H with selected := k } calls)
    (hclean : t.Clean { H with selected := k }) :
    Account db storeDirectory d₀ A there opens t { H with selected := k } owner next :=
  ⟨hholds, hclean, h.fresh, h.slot, h.live, h.pending, h.placed, h.flushed, h.archived, h.met⟩

theorem selectIndex (h : Account db storeDirectory d₀ A there opens s H owner next) (hd : db.Absent d₀) (hs : opens a = some w)
    (hkey : key.Selectable) : ∃ t, s.step db storeDirectory (.selectIndex w key) = (t, none) ∧ s.Quiet t ∧
      Account db storeDirectory d₀ A there opens t { H with selected := Function.update H.selected w key } owner next := by
  obtain ⟨D, hD⟩ := h.opened hd hs
  obtain ⟨calls, hholds⟩ := h.holds
  obtain ⟨W, d, hstep⟩ := hholds.step_selectIndex hd hD hkey
  have hafter := hholds.step (c := .selectIndex w key) hd hkey
  have hclean := hholds.clean (c := .selectIndex w key) hd h.clean hkey
  rw [hstep] at hafter hclean
  exact ⟨_, hstep, DbSystem.quiet_put hD, h.select hafter hclean⟩

theorem deselectIndex (h : Account db storeDirectory d₀ A there opens s H owner next) (hd : db.Absent d₀)
    (hs : opens a = some w) : ∃ t, s.step db storeDirectory (.deselectIndex w) = (t, none) ∧ s.Quiet t ∧
      Account db storeDirectory d₀ A there opens t { H with selected := Function.update H.selected w {} } owner next := by
  obtain ⟨D, hD⟩ := h.opened hd hs
  obtain ⟨calls, hholds⟩ := h.holds
  obtain ⟨W, d, hstep⟩ := hholds.step_deselectIndex hd hD
  have hafter := hholds.step (c := .deselectIndex w) hd trivial
  have hclean := hholds.clean (c := .deselectIndex w) hd h.clean trivial
  rw [hstep] at hafter hclean
  exact ⟨_, hstep, DbSystem.quiet_put hD, h.select hafter hclean⟩

/-- An archiver has one DB of the database. -/
theorem owner_ne (h : Account db storeDirectory d₀ A there opens s H owner next) (hs : opens a = some w) (ha : there a)
    {v : Nat} (hv : v ∈ H.live) (hne : v ≠ w) : owner v ≠ a := by
  intro hva
  have hslot := (h.live v hv).2 (hva ▸ ha)
  rw [hva, hs, Option.some.injEq] at hslot
  exact hne hslot.symm

/-- A field that is archived waits for its archiver to flush, and one that is not leaves all as it was. -/
theorem archive {x : TocStore.Archiving} (h : Account db storeDirectory d₀ A there opens s H owner next) (hd : db.Absent d₀)
    (hs : opens a = some w) (ha : there a) (hsafe : s.Safe db (.archive w key data x)) :
    ((s.step db storeDirectory (.archive w key data x)).2 = none →
      Account db storeDirectory d₀ (A.archive a ⟨db.key.keys, (H.selected w).keys, key⟩ data) there opens
        (s.step db storeDirectory (.archive w key data x)).1 (H.archive w (key, data)) owner next) ∧
    ((s.step db storeDirectory (.archive w key data x)).2 ≠ none →
      Account db storeDirectory d₀ A there opens (s.step db storeDirectory (.archive w key data x)).1 H owner next) := by
  obtain ⟨calls, hholds⟩ := h.holds
  obtain ⟨hw, hown⟩ := h.slot a w hs
  have hafter := hholds.step (c := .archive w key data x) hd hsafe
  have hclean := hholds.clean (c := .archive w key data x) hd h.clean hsafe
  generalize s.step db storeDirectory (.archive w key data x) = r at hafter hclean ⊢
  obtain ⟨t, thrown⟩ := r
  refine ⟨fun hnone => ?_, fun hthrown => ?_⟩
  · obtain rfl : thrown = none := hnone
    refine ⟨hafter, hclean, h.fresh, h.slot, h.live, fun v hv => ?_, fun b hb κ hne => ?_, h.flushed, fun y hy => ?_, h.met⟩
    · by_cases hvw : v = w
      · subst hvw
        simp only [DbHistory.archive, ArchiveHistory.archive, Function.update_self, hown]
        rw [h.pending v hw, hown]
      · simp only [DbHistory.archive, ArchiveHistory.archive, Function.update_of_ne hvw,
          Function.update_of_ne (h.owner_ne hs ha hv hvw)]
        exact h.pending v hv
    · by_cases hba : b = a
      · rw [hba, hs]
        simp
      · simp only [ArchiveHistory.archive, Function.update_of_ne hba] at hne
        exact h.placed b hb κ hne
    · rcases List.mem_append.mp hy with hy | hy
      · obtain ⟨hlt, hmem⟩ := h.archived y hy
        exact ⟨hlt, List.mem_append_left _ hmem⟩
      · rw [List.mem_singleton.mp hy]
        refine ⟨h.fresh w (hholds.live_built hd hw), List.mem_append_right _ ?_⟩
        rw [hown]
        exact List.mem_singleton.mpr rfl
  · obtain ⟨e, rfl⟩ : ∃ e, thrown = some e := Option.ne_none_iff_exists'.mp hthrown
    exact ⟨hafter, hclean, h.fresh, h.slot, h.live, h.pending, h.placed, h.flushed, h.archived, h.met⟩

/-- A flush leaves nothing waiting, or all as it was. -/
theorem flush (f : TocStore.Flushing) (databases : StringDict → Bool)
    (h : Account db storeDirectory d₀ A there opens s H owner next) (hd : db.Absent d₀) (hs : opens a = some w) (ha : there a)
    (hκ : databases db.key.keys = true) :
    ((s.step db storeDirectory (.flush w f)).2 = none →
      Account db storeDirectory d₀ (A.publish a databases) there opens (s.step db storeDirectory (.flush w f)).1 (H.flush w)
        owner next ∧ ∀ D ∈ (s.step db storeDirectory (.flush w f)).1.dbs w, ∀ S ∈ D.store, S.dirty = false) ∧
    ((s.step db storeDirectory (.flush w f)).2 ≠ none →
      Account db storeDirectory d₀ A there opens (s.step db storeDirectory (.flush w f)).1 H owner next) := by
  obtain ⟨D, hD⟩ := h.opened hd hs
  obtain ⟨calls, hholds⟩ := h.holds
  obtain ⟨hw, hown⟩ := h.slot a w hs
  have hafter := hholds.step (c := .flush w f) hd trivial
  have hclean := hholds.clean (c := .flush w f) hd h.clean trivial
  have hflushed : (s.step db storeDirectory (.flush w f)).2 = none →
      ∀ E ∈ (s.step db storeDirectory (.flush w f)).1.dbs w, ∀ S ∈ E.store, S.dirty = false := by
    have hends := hholds.ends_flush (f := f) hd hD
    rw [DbSystem.step, DbSystem.onDb, hD]
    dsimp only
    cases hrun : (WriterDB.flush storeDirectory f).run ⟨D, s.disk, s.data⟩ with
    | ok _ t =>
      intro _ E hE S hS
      obtain rfl : t.db = E := by simpa using hE
      exact (hends.ok hrun).2 S hS
    | error e t => simp
  generalize s.step db storeDirectory (.flush w f) = r at hafter hclean hflushed ⊢
  obtain ⟨t, thrown⟩ := r
  refine ⟨fun hnone => ⟨?_, hflushed hnone⟩, fun hthrown => ?_⟩
  · obtain rfl : thrown = none := hnone
    refine ⟨hafter, hclean, h.fresh, h.slot, h.live, fun v hv => ?_, fun b hb κ hne => ?_, ?_, h.archived, h.met⟩
    · by_cases hvw : v = w
      · subst hvw
        simp [DbHistory.flush, ArchiveHistory.publish, hown, hκ]
      · simp only [DbHistory.flush, ArchiveHistory.publish, Function.update_of_ne hvw,
          Function.update_of_ne (h.owner_ne hs ha hv hvw)]
        exact h.pending v hv
    · by_cases hba : b = a
      · rw [hba, hs]
        simp
      · simp only [ArchiveHistory.publish, Function.update_of_ne hba] at hne
        exact h.placed b hb κ hne
    · funext κ
      change H.flushed κ ++ H.pending w κ = A.flushed db.key.keys κ ++ _
      rw [h.flushed, h.pending w hw, hown, if_pos hκ]
  · obtain ⟨e, rfl⟩ : ∃ e, thrown = some e := Option.ne_none_iff_exists'.mp hthrown
    exact ⟨hafter, hclean, h.fresh, h.slot, h.live, h.pending, h.placed, h.flushed, h.archived, h.met⟩

end Account

end Fdb5
