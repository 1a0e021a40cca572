import Fdb5.Library.Alike
import Fdb5.Toc.Wipe

/-! The visitors of `LocalFDB::wipe` and `LocalFDB::purge`: one for all the databases of a call, with an internal
visitor for the one that is visited. -/
namespace Fdb5

open Effect

/-- What ends a visit: a check of the visitor, or the catalogue or the internal visitor it calls. -/
inductive VisitThrow (ε : Type) where
  | failure (what : Failure)
  | internal (e : ε)
deriving DecidableEq

/-- What a visitor asks a catalogue, and the hooks of the visitor that the catalogue makes. -/
structure CatalogueType (C I D V δ ε : Type) where
  indexes : C → δ → Except ε (List I)
  wipeEnabled : C → δ → Bool
  /-- `catalogue.key().match(request_)`. -/
  keyMatches : C → Bool
  entries : I → δ → Except ε (List D)
  makeVisitor : C → EStateM ε δ V
  visitDatabase : C → V → EStateM ε δ V
  visitIndexes : V → Bool
  visitIndex : I → V → EStateM ε δ V
  visitDatum : D → V → EStateM ε δ V
  catalogueComplete : C → V → EStateM ε δ V
  report : V → EStateM ε δ Unit
  purge : V → EStateM ε δ Unit

/-- A visitor on the databases that it visits. -/
structure LocalVisitor (V δ : Type) where
  internalVisitor : Option V := none
  world : δ

/-- The hooks of a visitor that are called for a database. -/
structure EntryVisitor (C I D σ ε : Type) where
  visitEntries : Bool
  visitIndexes : EStateM ε σ Bool
  visitDatabase : C → EStateM ε σ Bool
  visitIndex : I → EStateM ε σ Bool
  visitDatum : D → EStateM ε σ Unit
  catalogueComplete : C → EStateM ε σ Unit

section Visit

variable {C I D V δ ε β γ : Type}

/-- A call into the catalogue or the internal visitor. -/
def inside (x : EStateM ε δ β) : EStateM (VisitThrow ε) δ β := fun w =>
  match x.run w with
  | .ok b w => .ok b w
  | .error e w => .error (.internal e) w

/-- The same of a hook, where a flag is set. -/
def insideIf (flag : Bool) (hook : V → EStateM ε δ V) (v : V) : EStateM (VisitThrow ε) δ V :=
  if flag then inside (hook v) else pure v

namespace LocalVisitor

def onWorld (x : EStateM (VisitThrow ε) δ β) : EStateM (VisitThrow ε) (LocalVisitor V δ) β :=
  focus LocalVisitor.world (fun world s => { s with world }) x

/-- `internalVisitor_->` of a hook, with what happens where there is none. -/
def deref (null : Failure) (hook : V → EStateM ε δ V) : EStateM (VisitThrow ε) (LocalVisitor V δ) Unit := do
  match (← get).internalVisitor with
  | none => throw (.failure null)
  | some v =>
    let v ← onWorld (inside (hook v))
    modify fun s => { s with internalVisitor := some v }

/-- The same where a flag is set. -/
def derefIf (flag : Bool) (null : Failure) (hook : V → EStateM ε δ V) : EStateM (VisitThrow ε) (LocalVisitor V δ) Unit :=
  if flag then deref null hook else pure ()

/-- `internalVisitor_.reset(visitor)`. -/
def reset (v : Option V) : EStateM (VisitThrow ε) (LocalVisitor V δ) Unit := modify fun s => { s with internalVisitor := v }

end LocalVisitor

open LocalVisitor

namespace CatalogueType

/-- What is read from the disk. -/
def reads {ρ : Type} (f : δ → Except ε ρ) : EStateM (VisitThrow ε) δ ρ := inside (do lift (f (← get)))

/-- `entries(visitor)` of an index. -/
def indexEntries (T : CatalogueType C I D V δ ε) (visitor : EntryVisitor C I D (LocalVisitor V δ) (VisitThrow ε)) (idx : I) :
    EStateM (VisitThrow ε) (LocalVisitor V δ) Unit := do
  if ← visitor.visitIndex idx then
    let data ← onWorld (reads (T.entries idx))
    data.forM visitor.visitDatum

/-- The turn of an index in `visitEntries`. -/
def visitIndexEntries (T : CatalogueType C I D V δ ε) (visitor : EntryVisitor C I D (LocalVisitor V δ) (VisitThrow ε))
    (idx : I) : EStateM (VisitThrow ε) (LocalVisitor V δ) Unit := do
  if visitor.visitEntries then T.indexEntries visitor idx
  else let _ ← visitor.visitIndex idx

def visitAllIndexes (T : CatalogueType C I D V δ ε) (visitor : EntryVisitor C I D (LocalVisitor V δ) (VisitThrow ε))
    (all : List I) : EStateM (VisitThrow ε) (LocalVisitor V δ) Unit := do
  if ← visitor.visitIndexes then
    all.forM (T.visitIndexEntries visitor)

/-- The rest of `visitEntries`, once the indexes are loaded. -/
def visitAll (T : CatalogueType C I D V δ ε) (visitor : EntryVisitor C I D (LocalVisitor V δ) (VisitThrow ε)) (c : C)
    (all : List I) : EStateM (VisitThrow ε) (LocalVisitor V δ) Unit := do
  if ← visitor.visitDatabase c then
    T.visitAllIndexes visitor all
  visitor.catalogueComplete c

/-- `TocCatalogue::visitEntries(visitor, store)`. -/
def visitEntries (T : CatalogueType C I D V δ ε) (visitor : EntryVisitor C I D (LocalVisitor V δ) (VisitThrow ε)) (c : C) :
    EStateM (VisitThrow ε) (LocalVisitor V δ) Unit := do
  let all ← onWorld (reads (T.indexes c))
  T.visitAll visitor c all

/-- `internalVisitor_.reset(..)` with a new visitor of the catalogue, and its `visitDatabase`. -/
def resetVisitor (T : CatalogueType C I D V δ ε) (null : Failure) (c : C) : EStateM (VisitThrow ε) (LocalVisitor V δ) Unit := do
  let v ← onWorld (inside (T.makeVisitor c))
  reset (some v)
  deref null (T.visitDatabase c)

/-- The visitor of `LocalFDB::wipe`. -/
def wipeVisitor (T : CatalogueType C I D V δ ε) : EntryVisitor C I D (LocalVisitor V δ) (VisitThrow ε) where
  visitEntries := false
  visitIndexes := do
    match (← get).internalVisitor with
    | none => throw (.failure (.assertion "internalVisitor_"))
    | some v => return T.visitIndexes v
  visitDatabase c := do
    if T.wipeEnabled c (← get).world = false then return false
    if (← get).internalVisitor.isSome then throw (.failure (.assertion "!internalVisitor_"))
    T.resetVisitor (.assertion "internalVisitor_") c
    return true
  visitIndex idx := do
    deref (.assertion "internalVisitor_") (T.visitIndex idx)
    return false
  visitDatum _ := throw (.failure (.exception "Not implemented: visitDatum"))
  catalogueComplete c := do
    deref (.assertion "internalVisitor_") (T.catalogueComplete c)
    reset none

/-- The visitor of `LocalFDB::purge`. Its hooks do not check that there is an internal visitor. -/
def purgeVisitor (T : CatalogueType C I D V δ ε) (doit porcelain : Bool) :
    EntryVisitor C I D (LocalVisitor V δ) (VisitThrow ε) where
  visitEntries := true
  visitIndexes := pure true
  visitDatabase c := do
    if T.wipeEnabled c (← get).world = false then return false
    if T.keyMatches c = false then throw (.failure (.userError "Purging not supported for over-specified requests."))
    if (← get).internalVisitor.isSome then throw (.failure (.assertion "!internalVisitor_"))
    T.resetVisitor (.undefinedBehaviour "internalVisitor_") c
    return true
  visitIndex idx := do
    deref (.undefinedBehaviour "internalVisitor_") (T.visitIndex idx)
    return true
  visitDatum datum := deref (.undefinedBehaviour "internalVisitor_") (T.visitDatum datum)
  catalogueComplete c := do
    deref (.undefinedBehaviour "internalVisitor_") (T.catalogueComplete c)
    derefIf (!porcelain) (.undefinedBehaviour "internalVisitor_") fun v => do T.report v; return v
    derefIf (doit || porcelain) (.undefinedBehaviour "internalVisitor_") fun v => do T.purge v; return v
    reset none

/-- A new visitor of the catalogue, for one database. -/
def start (T : CatalogueType C I D V δ ε) (c : C) : EStateM (VisitThrow ε) δ V := do
  let v ← inside (T.makeVisitor c)
  inside (T.visitDatabase c v)

/-- The indexes in a wipe. -/
def wipeIndexes (T : CatalogueType C I D V δ ε) (all : List I) (v : V) : EStateM (VisitThrow ε) δ V :=
  if T.visitIndexes v then all.foldlM (fun v idx => inside (T.visitIndex idx v)) v else pure v

/-- The wipe of one database by a visitor of its own. -/
def wipeOne (T : CatalogueType C I D V δ ε) (c : C) (all : List I) : EStateM (VisitThrow ε) δ Unit := do
  let v ← T.start c
  let v ← T.wipeIndexes all v
  let _ ← inside (T.catalogueComplete c v)

/-- The turn of an index in a purge. -/
def purgeIndex (T : CatalogueType C I D V δ ε) (v : V) (idx : I) : EStateM (VisitThrow ε) δ V := do
  let v ← inside (T.visitIndex idx v)
  let data ← reads (T.entries idx)
  data.foldlM (fun v datum => inside (T.visitDatum datum v)) v

/-- The report and the purge, where the flags ask for them. -/
def purgeEnd (T : CatalogueType C I D V δ ε) (doit porcelain : Bool) (v : V) : EStateM (VisitThrow ε) δ Unit := do
  let v ← insideIf (!porcelain) (fun v => do T.report v; return v) v
  let _ ← insideIf (doit || porcelain) (fun v => do T.purge v; return v) v

/-- The purge of one database by a visitor of its own. -/
def purgeOne (T : CatalogueType C I D V δ ε) (doit porcelain : Bool) (c : C) (all : List I) :
    EStateM (VisitThrow ε) δ Unit := do
  if T.keyMatches c = false then throw (.failure (.userError "Purging not supported for over-specified requests."))
  let v ← T.start c
  let v ← all.foldlM T.purgeIndex v
  let v ← inside (T.catalogueComplete c v)
  T.purgeEnd doit porcelain v

/-- What is to be done to a database: a locked one is left as it is. -/
def unlocked (T : CatalogueType C I D V δ ε) (one : C → List I → EStateM (VisitThrow ε) δ Unit) (c : C) :
    EStateM (VisitThrow ε) δ Unit := do
  let all ← reads (T.indexes c)
  if T.wipeEnabled c (← get) then one c all

/-- The traversal does to each database that is not locked what a visitor of its own would do, once, and ends as that
does. -/
def ActsOnUnlocked (T : CatalogueType C I D V δ ε) (visitor : EntryVisitor C I D (LocalVisitor V δ) (VisitThrow ε))
    (one : C → List I → EStateM (VisitThrow ε) δ Unit) (dbs : List C) (w : δ) : Prop :=
  Alike (fun _ s _ w => s = ⟨none, w⟩) (fun s w => s.world = w) (dbs.forM (T.visitEntries visitor)) ⟨none, w⟩
    (dbs.forM (T.unlocked one)) w

/-- The database can be visited, and is locked. -/
def Locked (T : CatalogueType C I D V δ ε) (c : C) (w : δ) : Prop :=
  (∃ all, T.indexes c w = .ok all) ∧ T.wipeEnabled c w = false

/-- No database is locked when its turn comes. -/
def NoneLocked (T : CatalogueType C I D V δ ε) (one : C → List I → EStateM (VisitThrow ε) δ Unit) (dbs : List C) (w : δ) :
    Prop :=
  ∀ pre c post w', dbs = pre ++ c :: post → (pre.forM (T.unlocked one)).run w = .ok () w' → ¬ T.Locked c w'

variable {T : CatalogueType C I D V δ ε} {visitor : EntryVisitor C I D (LocalVisitor V δ) (VisitThrow ε)}
  {one : C → List I → EStateM (VisitThrow ε) δ Unit} {dbs : List C} {c : C} {all : List I} {v : V} {w w' : δ}
  {null : Failure} {e : ε}

/-- The visitor throws of its own at a database that is locked, and does its part of any other. -/
structure Stumbles (T : CatalogueType C I D V δ ε) (visitor : EntryVisitor C I D (LocalVisitor V δ) (VisitThrow ε))
    (one : C → List I → EStateM (VisitThrow ε) δ Unit) (null : Failure) : Prop where
  visits : ∀ c all w, T.wipeEnabled c w = true →
    Alike (fun _ s _ w => s = ⟨none, w⟩) (fun s w => s.world = w) (T.visitAll visitor c all) ⟨none, w⟩ (one c all) w
  stumbles : ∀ c w, T.Locked c w → Ends (T.visitEntries visitor c) ⟨none, w⟩ (fun _ _ => False) fun e _ => e = .failure null
  other : ∀ c all w, Ends (one c all) w (fun _ _ => True) fun e _ => e ≠ .failure null

theorem run_reads {ρ : Type} (f : δ → Except ε ρ) : (reads f).run w =
    match f w with
    | .ok r => .ok r w
    | .error e => .error (.internal e) w := by
  have hrun : (do lift (f (← get)) : EStateM ε δ ρ).run w = (lift (f w)).run w := rfl
  change inside _ w = _
  unfold inside
  rw [hrun]
  cases f w <;> rfl

theorem ends_reads {ρ : Type} {f : δ → Except ε ρ} {Q : ρ → δ → Prop} {E : VisitThrow ε → δ → Prop} :
    Ends (reads f) w Q E ↔ match f w with
      | .ok r => Q r w
      | .error e => E (.internal e) w := by
  unfold Ends
  rw [run_reads]
  cases f w <;> exact Iff.rfl

theorem run_unlocked (h : T.indexes c w = .ok all) :
    (T.unlocked one c).run w = if T.wipeEnabled c w then (one c all).run w else .ok () w := by
  rw [unlocked, EStateM.run_bind, run_reads, h]
  change EStateM.run (if T.wipeEnabled c w then one c all else pure ()) w = _
  split <;> rfl

theorem ends_unlocked (h : T.Stumbles visitor one null) :
    Ends (T.unlocked one c) w (fun _ _ => True) fun e _ => e ≠ .failure null := by
  cases hall : T.indexes c w with
  | error e =>
    have hrun : (T.unlocked one c).run w = .error (.internal e) w := by rw [unlocked, EStateM.run_bind, run_reads, hall]
    unfold Ends
    rw [hrun]
    simp
  | ok all =>
    have hone := h.other c all w
    unfold Ends at hone ⊢
    rw [run_unlocked hall]
    cases T.wipeEnabled c w with
    | true => exact hone
    | false => trivial

theorem alike_visitEntries (h : T.Stumbles visitor one null) (hlocked : ¬ T.Locked c w) :
    Alike (fun _ s _ w => s = ⟨none, w⟩) (fun s w => s.world = w) (T.visitEntries visitor c) ⟨none, w⟩ (T.unlocked one c) w := by
  cases hall : T.indexes c w with
  | error e =>
    have hrun : (T.unlocked one c).run w = .error (.internal e) w := by rw [unlocked, EStateM.run_bind, run_reads, hall]
    rw [Alike, visitEntries, ends_bind, onWorld, ends_focus, ends_reads, hall]
    exact ⟨w, hrun, rfl⟩
  | ok all =>
    have henabled : T.wipeEnabled c w = true := by
      by_contra hne
      exact hlocked ⟨⟨all, hall⟩, by simpa using hne⟩
    have halike := h.visits c all w henabled
    rw [Alike, visitEntries, ends_bind, onWorld, ends_focus, ends_reads, hall, run_unlocked hall, if_pos henabled]
    exact halike

theorem forM_cons {ε σ α : Type} (f : α → EStateM ε σ Unit) (a : α) (l : List α) :
    (a :: l).forM f = f a >>= fun _ => l.forM f := rfl

theorem not_locked_head (h : T.Stumbles visitor one null) (hacts : T.ActsOnUnlocked visitor one (c :: dbs) w) :
    ¬ T.Locked c w := by
  intro hlocked
  have hother : Ends ((c :: dbs).forM (T.unlocked one)) w (fun _ _ => True) fun e _ => e ≠ .failure null :=
    ends_forM (fun _ _ _ _ => ends_unlocked h) w trivial
  have hends : Ends ((c :: dbs).forM (T.visitEntries visitor)) ⟨none, w⟩ _ _ := hacts
  rw [forM_cons, ends_bind] at hends
  have hfalse : Ends (T.visitEntries visitor c) ⟨none, w⟩ (fun _ _ => False) fun _ _ => False := by
    apply ((h.stumbles c w hlocked).and hends).mono
    · exact fun _ _ h => h.1
    · rintro e s ⟨rfl, t, hrun, -⟩
      exact hother.error hrun rfl
  obtain ⟨_, _, _, hfalse⟩ := hfalse.returns
  exact hfalse

/-- The traversal is right exactly if no database is locked when its turn comes. -/
theorem Stumbles.acts_iff (h : T.Stumbles visitor one null) : T.ActsOnUnlocked visitor one dbs w ↔ T.NoneLocked one dbs w := by
  constructor
  · intro hacts pre c post w' heq hrun
    induction pre generalizing dbs w with
    | nil =>
      obtain rfl : w = w' := by cases hrun; rfl
      rw [heq] at hacts
      exact not_locked_head h hacts
    | cons a pre ih =>
      subst heq
      have hlocked := not_locked_head h hacts
      rw [forM_cons, EStateM.run_bind] at hrun
      cases ha : (T.unlocked one a).run w with
      | error e t => simp [ha] at hrun
      | ok u w₁ =>
        rw [ha] at hrun
        apply ih _ rfl hrun
        have hends : Ends ((a :: (pre ++ c :: post)).forM (T.visitEntries visitor)) ⟨none, w⟩ _ _ := hacts
        rw [forM_cons, ends_bind] at hends
        have hvisit : Ends (T.visitEntries visitor a) ⟨none, w⟩ _ _ := alike_visitEntries h hlocked
        cases hv : (T.visitEntries visitor a).run ⟨none, w⟩ with
        | error e s =>
          obtain ⟨t, herr, -⟩ := hvisit.error hv
          simp [ha] at herr
        | ok u' s =>
          obtain ⟨_, t, hok, rfl⟩ := hvisit.ok hv
          obtain rfl : w₁ = t := by simpa [ha] using hok
          have htail := hends.ok hv
          rw [List.cons_append, forM_cons, EStateM.run_bind, ha] at htail
          exact htail
  · intro hnone
    induction dbs generalizing w with
    | nil => exact alike_pure rfl
    | cons a dbs ih =>
      have hlocked : ¬ T.Locked a w := hnone [] a dbs w rfl rfl
      rw [ActsOnUnlocked, forM_cons, forM_cons]
      have hvisit : Ends (T.visitEntries visitor a) ⟨none, w⟩ _ _ := alike_visitEntries h hlocked
      rw [Alike, ends_bind]
      apply hvisit.mono
      · rintro u s ⟨u', w₁, ha, rfl⟩
        rw [EStateM.run_bind, ha]
        apply ih
        intro pre c post w' heq hrun
        apply hnone (a :: pre) c post w' (by rw [heq, List.cons_append])
        rw [forM_cons, EStateM.run_bind, ha]
        exact hrun
      · rintro e s ⟨w₁, ha, hw⟩
        rw [EStateM.run_bind, ha]
        exact ⟨w₁, rfl, hw⟩

section Hooks

theorem alike_onWorld {ρ : Type} (x : EStateM (VisitThrow ε) δ ρ) (v : Option V) (w : δ) :
    Alike (fun r s r' w => r = r' ∧ s = ⟨v, w⟩) (fun s w => s.world = w) (onWorld x) ⟨v, w⟩ x w :=
  alike_focus x rfl (fun _ _ => ⟨rfl, rfl⟩) fun _ => rfl

theorem alike_deref (null : Failure) (hook : V → EStateM ε δ V) (v : V) (w : δ) :
    Alike (fun _ s v w => s = ⟨some v, w⟩) (fun s w => s.world = w) (deref null hook) ⟨some v, w⟩ (inside (hook v)) w := by
  have halike : Alike (fun _ s v w => s = ⟨some v, w⟩) (fun s w => s.world = w)
      (onWorld (inside (hook v)) >>= fun v => reset (some v)) ⟨some v, w⟩ (inside (hook v) >>= pure) w := by
    apply (alike_onWorld (inside (hook v)) (some v) w).bind
    rintro v _ v' w ⟨rfl, rfl⟩
    exact ⟨v, w, rfl, rfl⟩
  rw [bind_pure] at halike
  exact halike

theorem run_inside {ρ : Type} (x : EStateM ε δ ρ) (w : δ) : (inside x).run w =
    match x.run w with
    | .ok b w => .ok b w
    | .error e w => .error (.internal e) w := rfl

theorem ends_inside {ρ : Type} (x : EStateM ε δ ρ) (w : δ) (null : Failure) :
    Ends (inside x) w (fun _ _ => True) fun e _ => e ≠ .failure null := by
  unfold Ends
  rw [run_inside]
  cases x.run w <;> simp

theorem ends_start (T : CatalogueType C I D V δ ε) (c : C) (w : δ) (null : Failure) :
    Ends (T.start c) w (fun _ _ => True) fun e _ => e ≠ .failure null := by
  rw [start, ends_bind]
  apply (ends_inside _ w null).mono
  · exact fun v w _ => ends_inside _ w null
  · exact fun _ _ h => h

theorem alike_resetVisitor (T : CatalogueType C I D V δ ε) (null : Failure) (c : C) (w : δ) :
    Alike (fun _ s v w => s = ⟨some v, w⟩) (fun s w => s.world = w) (T.resetVisitor null c) ⟨none, w⟩ (T.start c) w := by
  apply (alike_onWorld (inside (T.makeVisitor c)) none w).bind
  rintro v _ v' w ⟨rfl, rfl⟩
  exact alike_deref null (T.visitDatabase c) v w

theorem alike_complete (T : CatalogueType C I D V δ ε) (null : Failure) (c : C) (v : V) (w : δ) :
    Alike (fun _ s _ w => s = ⟨none, w⟩) (fun s w => s.world = w)
      (deref null (T.catalogueComplete c) >>= fun _ => reset none) ⟨some v, w⟩
      (inside (T.catalogueComplete c v) >>= fun _ => pure ()) w := by
  apply (alike_deref null (T.catalogueComplete c) v w).bind
  rintro _ _ v w rfl
  exact ⟨(), w, rfl, rfl⟩

theorem wipe_visitDatabase (T : CatalogueType C I D V δ ε) (c : C) (w : δ) (henabled : T.wipeEnabled c w = true) :
    Alike (fun b s v w => b = true ∧ s = ⟨some v, w⟩) (fun s w => s.world = w) (T.wipeVisitor.visitDatabase c) ⟨none, w⟩
      (T.start c) w := by
  simp only [Alike, wipeVisitor, ends_bind, ends_get, henabled, Bool.true_eq_false, Bool.false_eq_true, if_false,
    Option.isSome_none, ends_pure]
  apply Ends.mono (alike_resetVisitor T (.assertion "internalVisitor_") c w)
  · rintro _ s ⟨v, w, hrun, rfl⟩
    exact ⟨v, w, hrun, trivial, rfl⟩
  · exact fun _ _ h => h

theorem wipe_visitAllIndexes (T : CatalogueType C I D V δ ε) (all : List I) (v : V) (w : δ) :
    Alike (fun _ s v w => s = ⟨some v, w⟩) (fun s w => s.world = w) (T.visitAllIndexes T.wipeVisitor all) ⟨some v, w⟩
      (T.wipeIndexes all v) w := by
  have hloop : ∀ v s w, s = ⟨some v, w⟩ → Alike (fun _ s v w => s = ⟨some v, w⟩) (fun s w => s.world = w)
      (all.forM (T.visitIndexEntries T.wipeVisitor)) s (all.foldlM (fun v idx => inside (T.visitIndex idx v)) v) w := by
    apply alike_forM_foldlM (R := fun (v : V) (s : LocalVisitor V δ) (w : δ) => s = ⟨some v, w⟩)
    rintro idx - v _ w rfl
    simp only [Alike, visitIndexEntries, wipeVisitor, Bool.false_eq_true, if_false, ends_bind, ends_pure]
    exact alike_deref (.assertion "internalVisitor_") (T.visitIndex idx) v w
  change Alike _ _ (if T.visitIndexes v then all.forM (T.visitIndexEntries T.wipeVisitor) else pure ()) _
    (if T.visitIndexes v then _ else _) _
  split
  · exact hloop v _ w rfl
  · exact ⟨v, w, rfl, rfl⟩

theorem wipe_stumbles (T : CatalogueType C I D V δ ε) :
    T.Stumbles T.wipeVisitor T.wipeOne (.assertion "internalVisitor_") where
  visits c all w henabled := by
    apply (wipe_visitDatabase T c w henabled).bind
    rintro _ _ v w ⟨rfl, rfl⟩
    rw [if_pos rfl]
    apply (wipe_visitAllIndexes T all v w).bind
    rintro _ _ v w rfl
    exact alike_complete T _ c v w
  stumbles c w hlocked := by
    obtain ⟨⟨all, hall⟩, hdisabled⟩ := hlocked
    rw [visitEntries, ends_bind, onWorld, ends_focus, ends_reads, hall]
    simp only [visitAll, wipeVisitor, ends_bind, ends_get, hdisabled, if_true]
    exact rfl
  other c all w := by
    rw [wipeOne, ends_bind]
    apply (ends_start T c w _).mono
    · intro v w _
      rw [ends_bind, wipeIndexes]
      have hrest : ∀ v w, Ends (do let _ ← inside (T.catalogueComplete c v) : EStateM (VisitThrow ε) δ Unit) w
          (fun _ _ => True) fun e _ => e ≠ .failure (.assertion "internalVisitor_") := by
        intro v w
        rw [ends_bind]
        exact (ends_inside _ w _).mono (fun _ _ _ => trivial) fun _ _ h => h
      split
      · apply (ends_foldlM (P := fun _ _ => True) _ v w trivial).mono
        · exact fun v w _ => hrest v w
        · exact fun _ _ h => h
        · exact fun idx _ v w _ => ends_inside _ w _
      · exact hrest v w
    · exact fun _ _ h => h

theorem alike_derefIf (flag : Bool) (null : Failure) (hook : V → EStateM ε δ V) (v : V) (w : δ) :
    Alike (fun _ s v w => s = ⟨some v, w⟩) (fun s w => s.world = w) (derefIf flag null hook) ⟨some v, w⟩
      (insideIf flag hook v) w := by
  cases flag with
  | true => exact alike_deref null hook v w
  | false => exact ⟨v, w, rfl, rfl⟩

theorem purge_indexEntries (T : CatalogueType C I D V δ ε) (doit porcelain : Bool) (idx : I) (v : V) (w : δ) :
    Alike (fun _ s v w => s = ⟨some v, w⟩) (fun s w => s.world = w) (T.indexEntries (T.purgeVisitor doit porcelain) idx)
      ⟨some v, w⟩ (T.purgeIndex v idx) w := by
  have hvisit : Alike (fun b s v w => b = true ∧ s = ⟨some v, w⟩) (fun s w => s.world = w)
      ((T.purgeVisitor doit porcelain).visitIndex idx) ⟨some v, w⟩ (inside (T.visitIndex idx v)) w := by
    have hderef := alike_deref (.undefinedBehaviour "internalVisitor_") (T.visitIndex idx) v w
    simp only [Alike, purgeVisitor, ends_bind, ends_pure]
    apply Ends.mono hderef
    · rintro _ s ⟨v, w, hrun, rfl⟩
      exact ⟨v, w, hrun, trivial, rfl⟩
    · exact fun _ _ h => h
  apply hvisit.bind
  rintro _ _ v w ⟨rfl, rfl⟩
  rw [if_pos rfl]
  apply (alike_onWorld (reads (T.entries idx)) (some v) w).bind
  rintro data _ data' w ⟨rfl, rfl⟩
  have hloop := alike_forM_foldlM (R := fun (v : V) (s : LocalVisitor V δ) (w : δ) => s = ⟨some v, w⟩) (l := data)
    (f := (T.purgeVisitor doit porcelain).visitDatum) (g := fun v datum => inside (T.visitDatum datum v))
    (S := fun s w => s.world = w) (by
      rintro datum - v _ w rfl
      exact alike_deref _ (T.visitDatum datum) v w)
  exact hloop v _ w rfl

theorem purge_visitAllIndexes (T : CatalogueType C I D V δ ε) (doit porcelain : Bool) (all : List I) (v : V) (w : δ) :
    Alike (fun _ s v w => s = ⟨some v, w⟩) (fun s w => s.world = w)
      (T.visitAllIndexes (T.purgeVisitor doit porcelain) all) ⟨some v, w⟩ (all.foldlM T.purgeIndex v) w := by
  have hloop := alike_forM_foldlM (R := fun (v : V) (s : LocalVisitor V δ) (w : δ) => s = ⟨some v, w⟩) (l := all)
    (f := T.visitIndexEntries (T.purgeVisitor doit porcelain)) (g := T.purgeIndex) (S := fun s w => s.world = w) (by
      rintro idx - v _ w rfl
      exact purge_indexEntries T doit porcelain idx v w)
  exact hloop v _ w rfl

theorem purge_complete (T : CatalogueType C I D V δ ε) (doit porcelain : Bool) (c : C) (v : V) (w : δ) :
    Alike (fun _ s _ w => s = ⟨none, w⟩) (fun s w => s.world = w) ((T.purgeVisitor doit porcelain).catalogueComplete c)
      ⟨some v, w⟩ (inside (T.catalogueComplete c v) >>= T.purgeEnd doit porcelain) w := by
  apply (alike_deref _ (T.catalogueComplete c) v w).bind
  rintro _ _ v w rfl
  apply (alike_derefIf (!porcelain) _ (fun v => do T.report v; return v) v w).bind
  rintro _ _ v w rfl
  apply (alike_derefIf (doit || porcelain) _ (fun v => do T.purge v; return v) v w).bind
  rintro _ _ v w rfl
  exact ⟨(), w, rfl, rfl⟩

theorem ends_insideIf (flag : Bool) (hook : V → EStateM ε δ V) (v : V) (w : δ) (null : Failure) :
    Ends (insideIf flag hook v) w (fun _ _ => True) fun e _ => e ≠ .failure null := by
  cases flag with
  | true => exact ends_inside _ w null
  | false => trivial

theorem ends_purgeIndex (T : CatalogueType C I D V δ ε) (idx : I) (v : V) (w : δ) (null : Failure) :
    Ends (T.purgeIndex v idx) w (fun _ _ => True) fun e _ => e ≠ .failure null := by
  simp only [purgeIndex, ends_bind]
  apply (ends_inside _ w null).mono
  · intro v w _
    apply (ends_inside (do lift (T.entries idx (← get))) w null).mono
    · intro data w _
      exact ends_foldlM (P := fun _ _ => True) (fun datum _ v w _ => ends_inside _ w null) v w trivial
    · exact fun _ _ h => h
  · exact fun _ _ h => h

theorem purge_stumbles (T : CatalogueType C I D V δ ε) (doit porcelain : Bool) :
    T.Stumbles (T.purgeVisitor doit porcelain) (T.purgeOne doit porcelain) (.undefinedBehaviour "internalVisitor_") where
  visits c all w henabled := by
    cases hmatch : T.keyMatches c with
    | false =>
      have hrun : (T.purgeOne doit porcelain c all).run w =
          .error (.failure (.userError "Purging not supported for over-specified requests.")) w := by
        rw [purgeOne, if_pos hmatch]
        rfl
      simp only [Alike, visitAll, purgeVisitor, ends_bind, ends_get, henabled, Bool.true_eq_false, if_false, hmatch, if_true,
        ends_throw]
      exact ⟨w, hrun, rfl⟩
    | true =>
      have hstart : Alike (fun b s v w => b = true ∧ s = ⟨some v, w⟩) (fun s w => s.world = w)
          ((T.purgeVisitor doit porcelain).visitDatabase c) ⟨none, w⟩ (T.start c) w := by
        simp only [Alike, purgeVisitor, ends_bind, ends_get, henabled, hmatch, Bool.true_eq_false, Bool.false_eq_true, if_false,
          Option.isSome_none, ends_pure]
        apply Ends.mono (alike_resetVisitor T (.undefinedBehaviour "internalVisitor_") c w)
        · rintro _ s ⟨v, w, hrun, rfl⟩
          exact ⟨v, w, hrun, trivial, rfl⟩
        · exact fun _ _ h => h
      rw [purgeOne, if_neg (by simp [hmatch])]
      apply hstart.bind
      rintro _ _ v w ⟨rfl, rfl⟩
      rw [if_pos rfl]
      apply (purge_visitAllIndexes T doit porcelain all v w).bind
      rintro _ _ v w rfl
      exact purge_complete T doit porcelain c v w
  stumbles c w hlocked := by
    obtain ⟨⟨all, hall⟩, hdisabled⟩ := hlocked
    rw [visitEntries, ends_bind, onWorld, ends_focus, ends_reads, hall]
    simp only [visitAll, purgeVisitor, ends_bind, ends_get, hdisabled, if_true]
    exact rfl
  other c all w := by
    cases hmatch : T.keyMatches c with
    | false =>
      rw [purgeOne, if_pos hmatch]
      simp
    | true =>
      rw [purgeOne, if_neg (by simp [hmatch]), ends_bind]
      apply (ends_start T c w _).mono
      · intro v w _
        rw [ends_bind]
        apply (ends_foldlM (P := fun _ _ => True) (fun idx _ v w _ => ends_purgeIndex T idx v w _) v w trivial).mono
        · intro v w _
          rw [ends_bind]
          apply (ends_inside _ w _).mono
          · intro v w _
            simp only [purgeEnd, ends_bind, ends_pure]
            apply (ends_insideIf _ _ v w _).mono
            · exact fun v w _ => ends_insideIf _ _ v w _
            · exact fun _ _ h => h
          · exact fun _ _ h => h
        · exact fun _ _ h => h
      · exact fun _ _ h => h

end Hooks

/-- A wipe, and a purge, acts on exactly the unlocked databases if and only if none is locked when its turn comes. -/
theorem visits_iff (T : CatalogueType C I D V δ ε) (doit porcelain : Bool) (dbs : List C) (w : δ) :
    (T.ActsOnUnlocked T.wipeVisitor T.wipeOne dbs w ↔ T.NoneLocked T.wipeOne dbs w) ∧
    (T.ActsOnUnlocked (T.purgeVisitor doit porcelain) (T.purgeOne doit porcelain) dbs w ↔
      T.NoneLocked (T.purgeOne doit porcelain) dbs w) :=
  ⟨T.wipe_stumbles.acts_iff, (T.purge_stumbles doit porcelain).acts_iff⟩

/-- Databases `0`, `1`, .. of which `0` is locked, and visitors that write down whose they are and how far they got. -/
def numbered : CatalogueType Nat Unit Unit (Nat × Nat) (List (Nat × Nat)) Unit where
  indexes _ _ := .ok [()]
  wipeEnabled c _ := c != 0
  keyMatches _ := true
  entries _ _ := .ok [()]
  makeVisitor c := pure (c, 0)
  visitDatabase _ v := pure v
  visitIndexes _ := true
  visitIndex _ v := pure (v.1, v.2 + 1)
  visitDatum _ v := pure (v.1, v.2 + 1)
  catalogueComplete _ v := do
    modify (· ++ [v])
    return v
  report _ := pure ()
  purge _ := pure ()

example : (([1, 2].forM (numbered.visitEntries numbered.wipeVisitor)).run ⟨none, []⟩) = .ok () ⟨none, [(1, 1), (2, 1)]⟩ := rfl

/-- The locked database ends the call, by the assertion or the null pointer, before the other is visited. -/
theorem locked_stumbles :
    ([0, 1].forM (numbered.visitEntries numbered.wipeVisitor)).run ⟨none, []⟩ =
      .error (.failure (.assertion "internalVisitor_")) ⟨none, []⟩ ∧
    ([0, 1].forM (numbered.visitEntries (numbered.purgeVisitor true false))).run ⟨none, []⟩ =
      .error (.failure (.undefinedBehaviour "internalVisitor_")) ⟨none, []⟩ ∧
    ¬ numbered.ActsOnUnlocked numbered.wipeVisitor numbered.wipeOne [0, 1] [] ∧
    ¬ numbered.ActsOnUnlocked (numbered.purgeVisitor true false) (numbered.purgeOne true false) [0, 1] [] := by
  refine ⟨rfl, rfl, ?_, ?_⟩
  · rintro ⟨_, hrun, -⟩
    cases hrun
  · rintro ⟨_, hrun, -⟩
    cases hrun

end CatalogueType

end Visit

/-- What a wipe asks a `TocCatalogue` and its `TocWipeVisitor`, whose `visitDatabase` fills in what the constructor leaves
empty. It reads no entries and purges nothing. -/
def TocCatalogue.wiping (rq : MarsRequest) (flags : WipeFlags) :
    CatalogueType (TocCatalogue × Key) (TocIndex BTreeHandle) Empty TocWipeVisitor Disk Failure where
  indexes c d := c.1.indexes d
  wipeEnabled c d := TocHandler.enabled d c.1.directory .wipe
  keyMatches c := c.2.matchRequest rq
  entries _ _ := .ok []
  makeVisitor c := pure (.visitDatabase c.1 c.2 rq flags)
  visitDatabase _ v := pure v
  visitIndexes _ := true
  visitIndex idx v := pure (v.visitIndex idx)
  visitDatum datum _ := nomatch datum
  catalogueComplete _ v := do
    v.catalogueComplete
    return v
  report _ := pure ()
  purge _ := pure ()

open CatalogueType in
/-- The wipe of one database that is not locked is the one that the catalogue's own visit does. -/
theorem TocCatalogue.wipeOne_wiping {c : TocCatalogue} {key : Key} {rq : MarsRequest} {flags : WipeFlags} {d : Disk}
    {all : List (TocIndex BTreeHandle)} (hall : c.indexes d = .ok all) (h : TocHandler.enabled d c.directory .wipe = true) :
    ((wiping rq flags).wipeOne (c, key) all).run d = (inside (c.visitEntries key rq flags)).run d := by
  have hindexes : ∀ l v, ((wiping rq flags).wipeIndexes l v).run d = .ok (l.foldl TocWipeVisitor.visitIndex v) d := by
    intro l v
    change (l.foldlM (fun v idx => inside ((wiping rq flags).visitIndex idx v)) v).run d = _
    induction l generalizing v with
    | nil => rfl
    | cons idx l ih =>
      rw [List.foldlM_cons, EStateM.run_bind]
      exact ih (v.visitIndex idx)
  have hvisit : (c.visitEntries key rq flags).run d =
      ((all.foldl TocWipeVisitor.visitIndex (.visitDatabase c key rq flags)).catalogueComplete).run d := by
    simp [TocCatalogue.visitEntries, EStateM.run_bind, hall, h]
  rw [wipeOne, EStateM.run_bind]
  change ((wiping rq flags).wipeIndexes all (.visitDatabase c key rq flags) >>= fun v =>
    inside (v.catalogueComplete >>= fun _ => pure v) >>= fun _ => pure ()).run d = _
  rw [EStateM.run_bind, hindexes]
  change (inside (_ >>= _) >>= _).run d = _
  rw [EStateM.run_bind, run_inside, run_inside, hvisit, EStateM.run_bind]
  cases (all.foldl TocWipeVisitor.visitIndex (.visitDatabase c key rq flags)).catalogueComplete.run d <;> rfl

end Fdb5
