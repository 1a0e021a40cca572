import Fdb5.Api.DistFDB

/-! `DistFDB::flush`, and the flush of the FDB over it: what the two layers of dirty flags remember. -/
namespace Fdb5

open Effect

/-- An FDB over a `DistFDB`. -/
structure FDB (α : Type) (n : Nat) where
  dirty : Bool := false
  lanes : Fin n → Lane α := fun _ => {}

section Flush

variable {α : Type} {n : Nat}

/-- `FDB::flush` of a lane; `left` are the fields that the FDB behind it still has where its flush throws. -/
def Lane.flushTask (left : Option (List α)) : EStateM Unit (Lane α) Unit := do
  if (← get).dirty then
    match left with
    | none => modify fun lane => { lane with unflushed := [] }
    | some fields => do
      modify fun lane => { lane with unflushed := fields }
      throw ()
    modify fun lane => { lane with dirty := false }

namespace DistFDB

/-- The loop of `flush`: a task for each lane, and its future. No two tasks have a lane in common. -/
def launch (left : Fin n → Option (List α)) : List (Fin n) → EStateM DistThrow (Fin n → Lane α) (List (Except Unit Unit))
  | [] => pure []
  | i :: rest => do
    let task := (Lane.flushTask (left i)).run ((← get) i)
    modify fun lanes => Function.update lanes i (final task)
    let futures ← launch left rest
    return value task :: futures

/-- The futures are destroyed, which waits for the tasks, and `get` is called of none. -/
def flush (left : Fin n → Option (List α)) : EStateM DistThrow (Fin n → Lane α) Unit := do
  let _futures ← launch left (List.finRange n)

end DistFDB

namespace FDB

/-- `internal_->` of a call. -/
def internal {β : Type} (x : EStateM DistThrow (Fin n → Lane α) β) : EStateM DistThrow (FDB α n) β :=
  focus FDB.lanes (fun lanes fdb => { fdb with lanes }) x

def archive (field : α) (order : RendezvousOrder n) (outcome : Fin n → ArchiveOutcome) : EStateM DistThrow (FDB α n) Unit := do
  internal (DistFDB.archive field order outcome)
  modify fun fdb => { fdb with dirty := true }

def flush (left : Fin n → Option (List α)) : EStateM DistThrow (FDB α n) Unit := do
  if (← get).dirty then
    internal (DistFDB.flush left)
    modify fun fdb => { fdb with dirty := false }

/-- A call on the FDB, with what the lanes' FDBs do in it. -/
def step (fdb : FDB α n) : DistCall α n → FDB α n
  | .archive field order outcome => final ((archive field order outcome).run fdb)
  | .flush left => final ((flush left).run fdb)

/-- A flush of the lanes that returns has flushed each; so has one of the FDB, and where it throws the FDB and the lanes
that failed are still dirty. -/
def FlushesAll (left : Fin n → Option (List α)) (fdb : FDB α n) : Prop :=
  Ends (DistFDB.flush left) fdb.lanes (fun _ after => ∀ i, (after i).dirty = false) (fun _ _ => True) ∧
  Ends (flush left) fdb (fun _ after => ∀ i, (after.lanes i).dirty = false) fun _ after =>
    after.dirty = true ∧ ∀ i, (fdb.lanes i).dirty = true → left i ≠ none → (after.lanes i).dirty = true

/-- No flush of a dirty lane throws. -/
def LanesFlush (left : Fin n → Option (List α)) (fdb : FDB α n) : Prop :=
  ∀ i, (fdb.lanes i).dirty = true → left i = none

/-- While a lane is dirty, so is the FDB. -/
def Covered (fdb : FDB α n) : Prop := ∀ i, (fdb.lanes i).dirty = true → fdb.dirty = true

end FDB

variable {left : Fin n → Option (List α)} {lanes : Fin n → Lane α} {fdb : FDB α n} {i : Fin n} {order : List (Fin n)}
  {field : α} {outcome : Fin n → ArchiveOutcome}

theorem Lane.final_flushTask (lane : Lane α) (left : Option (List α)) :
    final ((Lane.flushTask left).run lane) = lane.flush left := by
  have hends : Ends (Lane.flushTask left) lane (fun _ after => after = lane.flush left) fun _ after =>
      after = lane.flush left := by
    rw [Lane.flushTask, ends_bind, ends_get, ends_ite]
    constructor
    · intro hdirty
      cases left <;> simp [Lane.flush, hdirty]
    · intro hclean
      simp [Lane.flush, hclean]
  exact hends.final

@[simp] theorem Lane.flush_dirty (lane : Lane α) (left : Option (List α)) :
    (lane.flush left).dirty = (lane.dirty && left.isSome) := by
  cases hdirty : lane.dirty <;> cases left <;> simp [Lane.flush, hdirty]

namespace DistFDB

/-- Every task has run when the loop is over, whatever its future holds. -/
theorem ends_launch {ids : List (Fin n)} (h : ids.Nodup) : Ends (launch left ids) lanes
    (fun _ after => (∀ i ∈ ids, after i = (lanes i).flush (left i)) ∧ ∀ i ∉ ids, after i = lanes i)
    fun _ _ => False := by
  induction ids generalizing lanes with
  | nil => simp [launch]
  | cons j rest ih =>
    obtain ⟨hnot, hrest⟩ := List.nodup_cons.mp h
    simp only [launch, ends_bind, ends_get, ends_modify, ends_pure, Lane.final_flushTask]
    apply (ih hrest).mono
    · rintro futures after ⟨hin, hout⟩
      constructor
      · intro i hi
        by_cases hij : i = j
        · subst hij
          simp [hout i hnot]
        · rw [hin i ((List.mem_cons.mp hi).resolve_left hij)]
          simp [hij]
      · intro i hi
        rw [List.mem_cons, not_or] at hi
        rw [hout i hi.2]
        simp [hi.1]
    · exact fun _ _ h => h

theorem ends_flush : Ends (flush left) lanes (fun _ after => ∀ i, after i = (lanes i).flush (left i)) fun _ _ => False := by
  rw [flush, ends_bind]
  apply (ends_launch (List.nodup_finRange n)).mono
  · exact fun futures after hafter i => hafter.1 i (List.mem_finRange i)
  · exact fun _ _ h => h

/-- A lane gets dirty in a call that returns only. -/
theorem ends_dirty : Ends (archiveLoop field outcome order) lanes (fun _ _ => True) fun _ after =>
    ∀ i, (after i).dirty = (lanes i).dirty := by
  induction order generalizing lanes with
  | nil => exact fun _ => rfl
  | cons j rest ih =>
    by_cases hw : (lanes j).Writable
    · cases ho : outcome j with
      | returns => exact (ends_accepted hw ho).mpr trivial
      | throws put eckit =>
        have hput : ∀ i, (Function.update lanes j (if put then (lanes j).put field else lanes j) i).dirty = (lanes i).dirty := by
          intro i
          by_cases hi : i = j
          · subst hi
            cases put <;> simp [Lane.put]
          · simp [hi]
        have hskipped : ∀ i, (Function.update lanes j ((lanes j).skipped field put) i).dirty = (lanes i).dirty := by
          intro i
          by_cases hi : i = j
          · subst hi
            cases put <;> simp [Lane.skipped, Lane.put, Lane.disable]
          · simp [hi]
        rw [ends_thrown hw ho]
        split
        · exact hput
        split
        · exact hput
        apply ih.mono
        · exact fun _ _ h => h
        · intro e after hafter i
          rw [hafter i, hskipped i]
    · exact (ends_passed hw).mpr ih

end DistFDB

namespace FDB

theorem ends_flush : Ends (flush left) fdb (fun _ after => after.dirty = false ∧
    ∀ i, after.lanes i = if fdb.dirty then (fdb.lanes i).flush (left i) else fdb.lanes i) fun _ _ => False := by
  rw [flush, ends_bind, ends_get]
  cases hdirty : fdb.dirty with
  | false => exact ⟨hdirty, fun _ => rfl⟩
  | true =>
    simp only [if_true, ends_bind, internal, ends_focus, ends_modify]
    apply DistFDB.ends_flush.mono
    · exact fun _ _ hafter => ⟨trivial, hafter⟩
    · exact fun _ _ h => h

theorem dirty_flushed : (∀ i, ((fdb.lanes i).flush (left i)).dirty = false) ↔ LanesFlush left fdb := by
  constructor
  · intro h i hi
    simpa [hi] using h i
  · intro h i
    cases hi : (fdb.lanes i).dirty with
    | false => simp [hi]
    | true => simp [h i hi]

theorem flushesAll_iff (h : Covered fdb) : FlushesAll left fdb ↔ LanesFlush left fdb := by
  constructor
  · rintro ⟨hlanes, -⟩
    have hends : Ends (DistFDB.flush left) fdb.lanes (fun _ _ => LanesFlush left fdb) fun _ _ => False := by
      apply (DistFDB.ends_flush.and hlanes).mono
      · rintro _ after ⟨hafter, hclean⟩
        apply dirty_flushed.mp
        intro i
        rw [← hafter i]
        exact hclean i
      · exact fun _ _ h => h.1
    obtain ⟨_, _, -, hflush⟩ := hends.returns
    exact hflush
  · intro hflush
    have hclean := dirty_flushed.mpr hflush
    constructor
    · apply DistFDB.ends_flush.mono
      · intro _ after hafter i
        rw [hafter i]
        exact hclean i
      · exact fun _ _ h => h.elim
    · apply ends_flush.mono
      · rintro _ after ⟨-, hafter⟩ i
        rw [hafter i]
        cases hdirty : fdb.dirty with
        | true => exact hclean i
        | false =>
          cases hi : (fdb.lanes i).dirty with
          | false => exact hi
          | true => exact absurd (h i hi) (by simp [hdirty])
      · exact fun _ _ h => h.elim

/-- What is needed of a call: of a flush, that no dirty lane throws in it. -/
def Safe (fdb : FDB α n) : DistCall α n → Prop
  | .archive _ _ _ => True
  | .flush left => LanesFlush left fdb

/-- What is wanted of it. -/
def Exact (fdb : FDB α n) : DistCall α n → Prop
  | .archive _ _ _ => True
  | .flush left => FlushesAll left fdb

theorem covered_step {call : DistCall α n} (h : Covered fdb) (hsafe : Safe fdb call) : Covered (fdb.step call) := by
  cases call with
  | archive field order outcome =>
    have hends : Ends (archive field order outcome) fdb (fun _ => Covered) fun _ => Covered := by
      rw [archive, ends_bind, internal, ends_focus]
      apply DistFDB.ends_dirty.mono
      · exact fun _ after _ i _ => rfl
      · intro e after hafter i hi
        exact h i (by rw [← hafter i]; exact hi)
    exact hends.final
  | flush left =>
    have hends : Ends (flush left) fdb (fun _ => Covered) fun _ => Covered := by
      have hall := ((flushesAll_iff h).mpr hsafe).2
      apply (ends_flush.and hall).mono
      · rintro _ after ⟨-, hclean⟩ i hi
        simp [hclean i] at hi
      · exact fun _ _ h => h.1.elim
    exact hends.final

/-- In a run of calls every flush that returns has flushed all exactly if no dirty lane throws in one. -/
theorem flush_all_iff {calls : List (DistCall α n)} (h : Covered fdb) :
    Follows.Each Exact step fdb calls ↔ Follows.Each Safe step fdb calls := by
  apply Follows.each_iff (I := Covered)
  · intro fdb call hcovered
    cases call with
    | archive field order outcome => exact Iff.rfl
    | flush left => exact flushesAll_iff hcovered
  · exact fun _ _ hcovered hsafe => covered_step hcovered hsafe
  · exact h

end FDB

end Flush

/-- Both lanes are flushed. -/
theorem FDB.flush_all_twoLanes : Follows.Each FDB.Exact FDB.step ({} : FDB Nat 2)
    [.archive 7 twoLanes fun _ => .returns, .flush fun _ => none] := by
  apply (FDB.flush_all_iff (by simp [FDB.Covered])).mpr
  simp [Follows.each_cons, Follows.each_nil, FDB.Safe, FDB.LanesFlush]

/-- The flush of the only dirty lane throws: the call returns, and the next one does nothing. -/
theorem flush_lost :
    let fdb : FDB Nat 2 := FDB.step {} (.archive 7 twoLanes fun _ => .returns)
    (∃ after, (FDB.flush fun _ => some [7]).run fdb = .ok () after ∧ after.dirty = false ∧ (after.lanes 0).dirty = true ∧
      (FDB.flush fun _ => none).run after = .ok () after) ∧
    ¬ FDB.FlushesAll (fun _ => some [7]) fdb := by
  constructor
  · exact ⟨_, rfl, rfl, rfl, rfl⟩
  · rintro ⟨hlanes, -⟩
    have hclean : true = false := hlanes 0
    cases hclean

end Fdb5
