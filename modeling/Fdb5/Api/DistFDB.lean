import Mathlib.Logic.Function.Basic
import Fdb5.Library.Effect
import Fdb5.Library.Follows

/-! `DistFDB`: fields distributed over lanes, each an FDB of its own. -/
namespace Fdb5

open Effect

/-- How the archive of the FDB behind a lane ends. One that throws may have put the field in its index before, and
need not throw an `eckit::Exception`. -/
inductive ArchiveOutcome where
  | returns
  | throws (put eckit : Bool)
deriving DecidableEq

/-- A lane, with the fields that its FDB publishes when it is flushed or closed. -/
structure Lane (α : Type) where
  enabled : Bool := true
  disabled : Bool := false
  dirty : Bool := false
  unflushed : List α := []

/-- What `DistFDB::archive` throws: one of its two `DistributionError`s, or what it does not catch. -/
inductive DistThrow where
  | archiveFailure (idx : Nat)
  | noWritableLanes
  | uncaught
deriving DecidableEq

namespace Lane

variable {α : Type}

def put (lane : Lane α) (field : α) : Lane α := { lane with unflushed := lane.unflushed ++ [field] }

/-- `internal_->archive`; an exception is `true` where it is an `eckit::Exception`. -/
def internalArchive (field : α) : ArchiveOutcome → EStateM Bool (Lane α) Unit
  | .returns => modify fun lane => lane.put field
  | .throws put eckit => do
    if put then
      modify fun lane => lane.put field
    throw eckit

/-- `FDB::archive`. -/
def archive (field : α) (outcome : ArchiveOutcome) : EStateM Bool (Lane α) Unit := do
  internalArchive field outcome
  modify fun lane => { lane with dirty := true }

def disable (lane : Lane α) : Lane α := { lane with disabled := true }

/-- The loop does not pass the lane over. -/
def Writable (lane : Lane α) : Prop := lane.enabled = true ∧ lane.disabled = false

instance {lane : Lane α} : Decidable lane.Writable := inferInstanceAs (Decidable (_ ∧ _))

end Lane

/-- What `hashOrder` gives for a key: the lanes in some order. -/
structure RendezvousOrder (n : Nat) where
  laneIndices : List (Fin n)
  nodup : laneIndices.Nodup
  complete : ∀ i, i ∈ laneIndices

namespace DistFDB

variable {α : Type} {n : Nat}

/-- The loop of `archive` over the lanes that are left. -/
def archiveLoop (field : α) (outcome : Fin n → ArchiveOutcome) : List (Fin n) → EStateM DistThrow (Fin n → Lane α) Unit
  | [] => throw .noWritableLanes
  | idx :: rest => do
    let lane := (← get) idx
    if lane.enabled = false then archiveLoop field outcome rest
    else if lane.disabled then archiveLoop field outcome rest
    else
      match (Lane.archive field (outcome idx)).run lane with
      | .ok _ lane => modify fun lanes => Function.update lanes idx lane
      | .error false lane => do
        modify fun lanes => Function.update lanes idx lane
        throw .uncaught
      | .error true lane => do
        modify fun lanes => Function.update lanes idx lane
        if lane.dirty then throw (.archiveFailure idx)
        else
          modify fun lanes => Function.update lanes idx lane.disable
          archiveLoop field outcome rest

def archive (field : α) (order : RendezvousOrder n) (outcome : Fin n → ArchiveOutcome) :
    EStateM DistThrow (Fin n → Lane α) Unit :=
  archiveLoop field outcome order.laneIndices

end DistFDB

section Exact

variable {α : Type} {n : Nat}

/-- The lane after its archive has thrown, where the loop goes on. -/
def Lane.skipped (field : α) (put : Bool) (lane : Lane α) : Lane α :=
  (if put then lane.put field else lane).disable

/-- The turn of a lane comes: it is writable, and each writable one before it is passed over with its failure. -/
def Tried (lanes : Fin n → Lane α) (outcome : Fin n → ArchiveOutcome) (order : List (Fin n)) (i : Fin n) : Prop :=
  ∃ pre post, order = pre ++ i :: post ∧ (lanes i).Writable ∧
    ∀ j ∈ pre, (lanes j).Writable → (lanes j).dirty = false ∧ ∃ put, outcome j = .throws put true

/-- A lane that can be tried is marked where it has fields that are not published. -/
def Marked (lanes : Fin n → Lane α) : Prop := ∀ i, (lanes i).Writable → (lanes i).unflushed ≠ [] → (lanes i).dirty = true

/-- A lane whose failure is passed over has nothing that is not published. -/
def NotHidden (lanes after : Fin n → Lane α) : Prop :=
  ∀ j, (lanes j).disabled = false → (after j).disabled = true → (after j).unflushed = []

/-- The field is in one lane, the first of the order to accept it. -/
def ExactReturn (field : α) (order : List (Fin n)) (outcome : Fin n → ArchiveOutcome) (lanes : Fin n → Lane α) (_ : Unit)
    (after : Fin n → Lane α) : Prop :=
  NotHidden lanes after ∧ ∃ i pre post, order = pre ++ i :: post ∧ (lanes i).Writable ∧ outcome i = .returns ∧
    (∀ j ∈ pre, (lanes j).Writable → outcome j ≠ .returns) ∧
    ∀ j, (after j).unflushed = if j = i then (lanes j).unflushed ++ [field] else (lanes j).unflushed

/-- The field is in no lane. -/
def ExactThrow (lanes after : Fin n → Lane α) : Prop :=
  NotHidden lanes after ∧ ∀ j, (after j).unflushed = (lanes j).unflushed

/-- Exactly one lane publishes the field if the call returns, and none if it throws. -/
def DistFDB.Exact (field : α) (order : RendezvousOrder n) (outcome : Fin n → ArchiveOutcome) (lanes : Fin n → Lane α) : Prop :=
  Ends (DistFDB.archive field order outcome) lanes (ExactReturn field order.laneIndices outcome lanes) fun _ => ExactThrow lanes

namespace DistFDB

variable {field : α} {outcome : Fin n → ArchiveOutcome} {order rest : List (Fin n)} {lanes : Fin n → Lane α} {i j : Fin n}
  {put eckit : Bool} {Q : Unit → (Fin n → Lane α) → Prop} {E : DistThrow → (Fin n → Lane α) → Prop}

theorem ends_passed (h : ¬ (lanes i).Writable) : Ends (archiveLoop field outcome (i :: rest)) lanes Q E ↔
    Ends (archiveLoop field outcome rest) lanes Q E := by
  rw [archiveLoop, ends_bind, ends_get]
  by_cases he : (lanes i).enabled = false
  · rw [if_pos he]
  · have hd : (lanes i).disabled = true := by
      by_contra hd
      exact h ⟨by simpa using he, by simpa using hd⟩
    rw [if_neg he, if_pos hd]

theorem ends_accepted (h : (lanes i).Writable) (ho : outcome i = .returns) :
    Ends (archiveLoop field outcome (i :: rest)) lanes Q E ↔
      Q () (Function.update lanes i { (lanes i).put field with dirty := true }) := by
  have hrun : (Lane.archive field .returns).run (lanes i) = .ok () { (lanes i).put field with dirty := true } := rfl
  rw [archiveLoop, ends_bind, ends_get, ho, if_neg (by simp [h.1]), if_neg (by simp [h.2]), hrun]
  exact Iff.rfl

theorem ends_thrown (h : (lanes i).Writable) (ho : outcome i = .throws put eckit) :
    Ends (archiveLoop field outcome (i :: rest)) lanes Q E ↔
      if eckit = false then E .uncaught (Function.update lanes i (if put then (lanes i).put field else lanes i))
      else if (lanes i).dirty then
        E (.archiveFailure i) (Function.update lanes i (if put then (lanes i).put field else lanes i))
      else Ends (archiveLoop field outcome rest) (Function.update lanes i ((lanes i).skipped field put)) Q E := by
  have hrun : (Lane.archive field (.throws put eckit)).run (lanes i) =
      .error eckit (if put then (lanes i).put field else lanes i) := by
    cases put <;> rfl
  have hdirty : (if put then (lanes i).put field else lanes i).dirty = (lanes i).dirty := by cases put <;> rfl
  rw [archiveLoop, ends_bind, ends_get, ho, if_neg (by simp [h.1]), if_neg (by simp [h.2]), hrun]
  cases eckit with
  | false => exact Iff.rfl
  | true =>
    simp only [ends_bind, ends_modify, hdirty]
    cases hd : (lanes i).dirty with
    | true => exact Iff.rfl
    | false => simp [Lane.skipped]

/-- The loop leaves the lanes alone that are not left. -/
theorem ends_frame (h : i ∉ order) :
    Ends (archiveLoop field outcome order) lanes (fun _ after => after i = lanes i) fun _ after => after i = lanes i := by
  induction order generalizing lanes with
  | nil => exact rfl
  | cons j rest ih =>
    have hne : i ≠ j := fun he => h (he ▸ .head _)
    have hrest : i ∉ rest := fun hi => h (.tail _ hi)
    by_cases hw : (lanes j).Writable
    · cases ho : outcome j with
      | returns =>
        rw [ends_accepted hw ho]
        exact Function.update_of_ne hne _ _
      | throws put eckit =>
        rw [ends_thrown hw ho]
        split
        · exact Function.update_of_ne hne _ _
        split
        · exact Function.update_of_ne hne _ _
        have hloop : Ends _ (Function.update lanes j ((lanes j).skipped field put)) _ _ := ih hrest
        rwa [Function.update_of_ne hne] at hloop
    · rw [ends_passed hw]
      exact ih hrest

/-- A lane that has put the field and thrown keeps it, and is disabled if the loop goes on. -/
theorem ends_tried (ht : Tried lanes outcome order i) (ho : outcome i = .throws true eckit) (hnodup : order.Nodup) :
    Ends (archiveLoop field outcome order) lanes
      (fun _ after => (after i).unflushed = (lanes i).unflushed ++ [field] ∧ (after i).disabled = true)
      fun _ after => (after i).unflushed = (lanes i).unflushed ++ [field] := by
  obtain ⟨pre, post, rfl, hw, hpre⟩ := ht
  induction pre generalizing lanes with
  | nil =>
    rw [List.nil_append, ends_thrown hw ho]
    have hput : (if true then (lanes i).put field else lanes i).unflushed = (lanes i).unflushed ++ [field] := rfl
    split
    · rwa [Function.update_self]
    split
    · rwa [Function.update_self]
    apply (ends_frame (List.nodup_cons.mp hnodup).1).mono
    · intro u after hafter
      rw [hafter, Function.update_self]
      exact ⟨rfl, rfl⟩
    · intro e after hafter
      rw [hafter, Function.update_self]
      rfl
  | cons j pre ih =>
    obtain ⟨hj, hpre⟩ := List.forall_mem_cons.mp hpre
    obtain ⟨hnot, hnodup⟩ := List.nodup_cons.mp hnodup
    by_cases hwj : (lanes j).Writable
    · obtain ⟨hdirty, put, hput⟩ := hj hwj
      have hne : i ≠ j := fun he => hnot (he ▸ by simp)
      have hsame : ∀ k ∈ pre, Function.update lanes j ((lanes j).skipped field put) k = lanes k := by
        intro k hk
        have hnk : k ≠ j := fun he => hnot (he ▸ List.mem_append_left _ hk)
        exact Function.update_of_ne hnk _ _
      have hloop : Ends _ (Function.update lanes j ((lanes j).skipped field put)) _ _ :=
        ih hnodup (by rwa [Function.update_of_ne hne]) fun k hk => by rw [hsame k hk]; exact hpre k hk
      rw [Function.update_of_ne hne] at hloop
      rw [List.cons_append, ends_thrown hwj hput]
      simpa [hdirty] using hloop
    · rw [List.cons_append, ends_passed hwj]
      exact ih hnodup hw hpre

section Skipped

/-- The lanes where the failure of one has been passed over. -/
def skip (lanes : Fin n → Lane α) (i : Fin n) : Fin n → Lane α := Function.update lanes i (lanes i).disable

@[simp] theorem unflushed_skip : (skip lanes i j).unflushed = (lanes j).unflushed := by
  by_cases h : j = i
  · subst h
    simp [skip, Lane.disable]
  · simp [skip, h]

theorem skip_of_ne (h : j ≠ i) : skip lanes i j = lanes j := Function.update_of_ne h _ _

theorem writable_skip : (skip lanes i j).Writable ↔ j ≠ i ∧ (lanes j).Writable := by
  by_cases h : j = i
  · subst h
    simp [skip, Lane.disable, Lane.Writable]
  · simp [skip_of_ne h, h]

theorem marked_skip (h : Marked lanes) : Marked (skip lanes i) := by
  intro j hw
  obtain ⟨hne, hj⟩ := writable_skip.mp hw
  rw [skip_of_ne hne]
  exact h j hj

theorem tried_skip (h : Tried (skip lanes i) outcome rest j) (hnot : i ∉ rest)
    (hi : (lanes i).Writable → (lanes i).dirty = false ∧ ∃ put, outcome i = .throws put true) :
    Tried lanes outcome (i :: rest) j := by
  obtain ⟨pre, post, rfl, hw, hpre⟩ := h
  refine ⟨i :: pre, post, rfl, (writable_skip.mp hw).2, ?_⟩
  intro k hk hwk
  rcases List.mem_cons.mp hk with rfl | hk
  · exact hi hwk
  · have hne : k ≠ i := fun he => hnot (he ▸ List.mem_append_left _ hk)
    have hkpre := hpre k hk (writable_skip.mpr ⟨hne, hwk⟩)
    rwa [skip_of_ne hne] at hkpre

theorem notHidden_skip {after : Fin n → Lane α} (h : NotHidden (skip lanes i) after) (hi : (after i).unflushed = []) :
    NotHidden lanes after := by
  intro j hj hafter
  by_cases he : j = i
  · exact he ▸ hi
  · exact h j (by rwa [skip_of_ne he]) hafter

end Skipped

/-- Where no lane that is tried throws after it has put the field, the loop is exact. -/
theorem ends_safe (hmarked : Marked lanes) (hnodup : order.Nodup)
    (hsafe : ∀ i eckit, Tried lanes outcome order i → outcome i ≠ .throws true eckit) :
    Ends (archiveLoop field outcome order) lanes (ExactReturn field order outcome lanes) fun _ => ExactThrow lanes := by
  induction order generalizing lanes with
  | nil => exact ⟨fun j hj hafter => by simp [hj] at hafter, fun _ => rfl⟩
  | cons i rest ih =>
    obtain ⟨hnot, hnodup⟩ := List.nodup_cons.mp hnodup
    by_cases hw : (lanes i).Writable
    · cases ho : outcome i with
      | returns =>
        rw [ends_accepted hw ho]
        refine ⟨?_, i, [], rest, rfl, hw, ho, by simp, ?_⟩
        · intro j hj hafter
          by_cases he : j = i
          · subst he
            simp [Lane.put, hj] at hafter
          · simp [he, hj] at hafter
        · intro j
          by_cases he : j = i
          · subst he
            simp [Lane.put]
          · simp [he]
      | throws put eckit =>
        have htried : Tried lanes outcome (i :: rest) i := ⟨[], rest, rfl, hw, by simp⟩
        obtain rfl : put = false := by
          cases put with
          | false => rfl
          | true => exact absurd ho (hsafe i eckit htried)
        have hsame : ExactThrow lanes (Function.update lanes i (lanes i)) := by
          rw [Function.update_eq_self]
          exact ⟨fun j hj hafter => by simp [hj] at hafter, fun _ => rfl⟩
        rw [ends_thrown hw ho]
        split
        · exact hsame
        split
        · exact hsame
        rename_i heckit hdirty
        have hskipped : (lanes i).dirty = false ∧ ∃ put, outcome i = .throws put true :=
          ⟨by simpa using hdirty, false, by simpa [heckit] using ho⟩
        have hnone : (lanes i).unflushed = [] := by
          by_contra hne
          exact hdirty (hmarked i hw hne)
        have hrest : Ends (archiveLoop field outcome rest) (skip lanes i) _ _ := ih (marked_skip hmarked) hnodup
          fun j eckit ht => hsafe j eckit (tried_skip ht hnot fun _ => hskipped)
        apply hrest.mono
        · rintro u after ⟨hhidden, k, pre, post, rfl, hk, hreturns, hfirst, hfields⟩
          obtain ⟨hki, hk⟩ := writable_skip.mp hk
          simp only [unflushed_skip] at hfields
          refine ⟨notHidden_skip hhidden ?_, k, i :: pre, post, rfl, hk, hreturns, ?_, hfields⟩
          · rw [hfields, if_neg hki.symm, hnone]
          · intro j hj hwj
            rcases List.mem_cons.mp hj with rfl | hj
            · simp [ho]
            · have hji : j ≠ i := fun he => hnot (he ▸ List.mem_append_left _ hj)
              exact hfirst j hj (writable_skip.mpr ⟨hji, hwj⟩)
        · rintro e after ⟨hhidden, hfields⟩
          refine ⟨notHidden_skip hhidden ?_, fun j => ?_⟩
          · rw [hfields, unflushed_skip, hnone]
          · rw [hfields, unflushed_skip]
    · rw [ends_passed hw]
      apply (ih hmarked hnodup ?_).mono
      · rintro u after ⟨hhidden, k, pre, post, rfl, hk, hreturns, hfirst, hfields⟩
        exact ⟨hhidden, k, i :: pre, post, rfl, hk, hreturns, by simpa [hw] using hfirst, hfields⟩
      · exact fun _ _ hthrow => hthrow
      · rintro j eckit ⟨pre, post, rfl, hj, hpre⟩
        exact hsafe j eckit ⟨i :: pre, post, rfl, hj, by simpa [hw] using hpre⟩

theorem ends_marked (hmarked : Marked lanes) (hnodup : order.Nodup)
    (hsafe : ∀ i eckit, Tried lanes outcome order i → outcome i ≠ .throws true eckit) :
    Ends (archiveLoop field outcome order) lanes (fun _ => Marked) fun _ => Marked := by
  induction order generalizing lanes with
  | nil => exact hmarked
  | cons i rest ih =>
    obtain ⟨hnot, hnodup⟩ := List.nodup_cons.mp hnodup
    by_cases hw : (lanes i).Writable
    · cases ho : outcome i with
      | returns =>
        rw [ends_accepted hw ho]
        intro j hj
        by_cases he : j = i
        · subst he
          simp
        · simpa [he] using hmarked j (by simpa [he] using hj)
      | throws put eckit =>
        have htried : Tried lanes outcome (i :: rest) i := ⟨[], rest, rfl, hw, by simp⟩
        obtain rfl : put = false := by
          cases put with
          | false => rfl
          | true => exact absurd ho (hsafe i eckit htried)
        have hsame : Marked (Function.update lanes i (lanes i)) := by rwa [Function.update_eq_self]
        rw [ends_thrown hw ho]
        split
        · exact hsame
        split
        · exact hsame
        rename_i heckit hdirty
        have hskipped : (lanes i).dirty = false ∧ ∃ put, outcome i = .throws put true :=
          ⟨by simpa using hdirty, false, by simpa [heckit] using ho⟩
        have hrest : Ends (archiveLoop field outcome rest) (skip lanes i) _ _ := ih (marked_skip hmarked) hnodup
          fun j eckit ht => hsafe j eckit (tried_skip ht hnot fun _ => hskipped)
        exact hrest
    · rw [ends_passed hw]
      apply ih hmarked hnodup
      rintro j eckit ⟨pre, post, rfl, hj, hpre⟩
      exact hsafe j eckit ⟨i :: pre, post, rfl, hj, by simpa [hw] using hpre⟩

/-- The archive is exact exactly if no lane that is tried throws after it has put the field. -/
theorem exact_iff (order : RendezvousOrder n) (hmarked : Marked lanes) : Exact field order outcome lanes ↔
    ∀ i eckit, Tried lanes outcome order.laneIndices i → outcome i ≠ .throws true eckit := by
  constructor
  · intro hexact i eckit ht ho
    have hw : (lanes i).Writable := by
      obtain ⟨pre, post, -, hw, -⟩ := ht
      exact hw
    have hends : Ends (archive field order outcome) lanes _ _ := (ends_tried ht ho order.nodup).and hexact
    have hfalse : Ends (archive field order outcome) lanes (fun _ _ => False) fun _ _ => False := by
      apply hends.mono
      · rintro u after ⟨⟨hfields, hdisabled⟩, hhidden, -⟩
        simpa [hfields] using hhidden i hw.2 hdisabled
      · rintro e after ⟨hfields, -, hsame⟩
        simpa [hfields] using hsame i
    exact (hfalse.returns).elim fun _ h => h.elim fun _ h => h.2
  · intro hsafe
    exact ends_safe hmarked order.nodup hsafe

end DistFDB

/-- A call on the lanes: an archive with what the lanes' FDBs do in it, or a flush, which leaves some fields of the
lanes that throw. -/
inductive DistCall (α : Type) (n : Nat) where
  | archive (field : α) (order : RendezvousOrder n) (outcome : Fin n → ArchiveOutcome)
  | flush (left : Fin n → Option (List α))

/-- `FDB::flush`. -/
def Lane.flush (lane : Lane α) (left : Option (List α)) : Lane α :=
  if lane.dirty then
    match left with
    | none => { lane with dirty := false, unflushed := [] }
    | some left => { lane with unflushed := left }
  else lane

namespace DistCall

def step (lanes : Fin n → Lane α) : DistCall α n → Fin n → Lane α
  | archive field order outcome => final ((DistFDB.archive field order outcome).run lanes)
  | flush left => fun i => (lanes i).flush (left i)

def Exact (lanes : Fin n → Lane α) : DistCall α n → Prop
  | archive field order outcome => DistFDB.Exact field order outcome lanes
  | flush _ => True

/-- No lane that is tried throws after it has put the field. -/
def Safe (lanes : Fin n → Lane α) : DistCall α n → Prop
  | archive _ order outcome => ∀ i eckit, Tried lanes outcome order.laneIndices i → outcome i ≠ .throws true eckit
  | flush _ => True

variable {lanes : Fin n → Lane α} {call : DistCall α n} {calls : List (DistCall α n)}

theorem exact_iff_safe (h : Marked lanes) : call.Exact lanes ↔ call.Safe lanes := by
  cases call with
  | archive field order outcome => exact DistFDB.exact_iff order h
  | flush left => exact Iff.rfl

theorem marked_step (h : Marked lanes) (hsafe : call.Safe lanes) : Marked (call.step lanes) := by
  cases call with
  | archive field order outcome => exact (DistFDB.ends_marked h order.nodup hsafe).final
  | flush left =>
    intro i hw hne
    cases hd : (lanes i).dirty with
    | false =>
      have hsame : step lanes (.flush left) i = lanes i := by simp [step, Lane.flush, hd]
      rw [hsame] at hw hne ⊢
      exact h i hw hne
    | true =>
      cases hl : left i with
      | none => simp [step, Lane.flush, hd, hl] at hne
      | some fields => simp [step, Lane.flush, hd, hl]

end DistCall

/-- In a run of calls every archive is exact exactly if in none a lane that is tried throws after it has put the field. -/
theorem dist_exact_iff {lanes : Fin n → Lane α} {calls : List (DistCall α n)} (h : Marked lanes) :
    Follows.Each DistCall.Exact DistCall.step lanes calls ↔ Follows.Each DistCall.Safe DistCall.step lanes calls := by
  apply Follows.each_iff (I := Marked)
  · exact fun _ _ hlanes => DistCall.exact_iff_safe hlanes
  · exact fun _ _ hlanes hsafe => DistCall.marked_step hlanes hsafe
  · exact h

end Exact

/-- Two lanes in their order. -/
def twoLanes : RendezvousOrder 2 where
  laneIndices := [0, 1]
  nodup := by decide
  complete := by decide

/-- The first lane fails, and after that is passed over. -/
theorem dist_exact_twoLanes : Follows.Each DistCall.Exact DistCall.step (fun _ => {})
    [.archive 7 twoLanes fun i => if i = 0 then .throws false true else .returns, .flush fun _ => none,
      .archive 8 twoLanes fun _ => .returns] := by
  apply (dist_exact_iff (by simp [Marked])).mpr
  simp [Follows.each_cons, Follows.each_nil, DistCall.Safe]

/-- The first lane puts the field and then throws: the call returns, and both lanes have the field. -/
theorem archived_twice :
    (∃ after, (DistFDB.archive 7 twoLanes fun i => if i = 0 then .throws true true else .returns).run (fun _ => {}) =
      .ok () after ∧ (after 0).unflushed = [7] ∧ (after 1).unflushed = [7]) ∧
    ¬ DistFDB.Exact 7 twoLanes (fun i => if i = 0 then .throws true true else .returns) fun _ => {} := by
  constructor
  · exact ⟨_, rfl, rfl, rfl⟩
  · rintro ⟨hhidden, -⟩
    have hnone : [7] = ([] : List Nat) := hhidden 0 rfl rfl
    cases hnone

end Fdb5
