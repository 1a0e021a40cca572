import Fdb5.Database.Archiver

/-! What is archived and flushed through the archivers of all processes. -/
namespace Fdb5

/-- The keys that a field is to be filed under. -/
def Schema.filed (s : Schema) (field : Key) : Option Filed :=
  match s.search field with
  | .ok found => found.map (·.2)
  | .error _ => none

/-- The keys that a field was filed under, and the archiver that it was given to. -/
structure ArchivedField where
  archiver : Nat
  filed : Filed

/-- Fields by database and index: `pending` are those that an archiver has yet to flush; `met` are the pairs of archivers
that were there at the same time. -/
structure ArchiveHistory where
  made : List Nat := []
  live : List Nat := []
  met : List (Nat × Nat) := []
  archived : List ArchivedField := []
  pending : Nat → StringDict → StringDict → List (Key × DataBytes) := fun _ _ _ => []
  flushed : StringDict → StringDict → List (Key × DataBytes) := fun _ _ => []

namespace ArchiveHistory

variable (A : ArchiveHistory)

def make (a : Nat) : ArchiveHistory :=
  { A with made := a :: A.made, live := a :: A.live, met := A.met ++ A.live.map (·, a) }

def archive (a : Nat) (filed : Filed) (data : DataBytes) : ArchiveHistory :=
  let indexes := A.pending a filed.database
  { A with
    archived := A.archived ++ [⟨a, filed⟩]
    pending := Function.update A.pending a (Function.update (A.pending a) filed.database
      (Function.update indexes filed.index (indexes filed.index ++ [(filed.datum, data)]))) }

/-- What an archiver has yet to flush to some of the databases is flushed. -/
def publish (a : Nat) (databases : StringDict → Bool) : ArchiveHistory :=
  { A with
    flushed := fun κ κ' => A.flushed κ κ' ++ if databases κ then A.pending a κ κ' else []
    pending := Function.update A.pending a fun κ κ' => if databases κ then [] else A.pending a κ κ' }

def flush (a : Nat) : ArchiveHistory := A.publish a fun _ => true

def Met (a b : Nat) : Prop := (a, b) ∈ A.met ∨ (b, a) ∈ A.met

/-- No field is given to two archivers that were there at the same time. -/
def Exclusive (database index : StringDict) (fingerprint : String) : Prop :=
  ∀ x ∈ A.archived, ∀ y ∈ A.archived, x.filed.database = database → y.filed.database = database →
    x.filed.index = index → y.filed.index = index → x.filed.datum.fingerprint = fingerprint →
      y.filed.datum.fingerprint = fingerprint → ¬ A.Met x.archiver y.archiver

/-- The bytes that were archived last under the keys and flushed. -/
def last (k0 k1 k2 : Key) : Option DataBytes :=
  ((A.flushed k0.keys k1.keys).findRev? fun field => field.1.canonicalValues = k2.canonicalValues).map (·.2)

/-- What a call makes of the fields, with what it throws. A flush that throws has flushed some of the databases. -/
inductive Step (s : Schema) (A : ArchiveHistory) : ArchiverCall → Option Failure → ArchiveHistory → Prop
  | make {a : Nat} (new : a ∉ A.made) : Step s A (.make a) none (A.make a)
  | made {a : Nat} (old : a ∈ A.made) : Step s A (.make a) none A
  | archived {a : Nat} {field : Key} {data : DataBytes} {x : Archiving} {rule : RulePtr} {filed : Filed}
      (found : s.search field = .ok (some (rule, filed))) (checked : rule.check field = .ok ()) :
      Step s A (.archive a field data x) none (A.archive a filed data)
  | unchecked {a : Nat} {field : Key} {data : DataBytes} {x : Archiving} {rule : RulePtr} {filed : Filed} {e : Failure}
      (found : s.search field = .ok (some (rule, filed))) (unchecked : rule.check field = .error e) :
      Step s A (.archive a field data x) (some e) (A.archive a filed data)
  | refused {a : Nat} {field : Key} {data : DataBytes} {x : Archiving} (e : Failure) :
      Step s A (.archive a field data x) (some e) A
  | flushed {a : Nat} {f : StringDict → TocStore.Flushing} : Step s A (.flush a f) none (A.flush a)
  | flushFailed {a : Nat} {f : StringDict → TocStore.Flushing} (e : Failure) (databases : StringDict → Bool) :
      Step s A (.flush a f) (some e) (A.publish a databases)
  | destroyed {a : Nat} {f : StringDict → TocStore.Flushing} :
      Step s A (.destroy a f) none { A.flush a with live := A.live.erase a }
  | destroyFailed {a : Nat} {f : StringDict → TocStore.Flushing} (e : Failure) (databases : StringDict → Bool) :
      Step s A (.destroy a f) (some e) (A.publish a databases)

/-- The fields after calls that ended as given. -/
inductive Explains (s : Schema) : List (ArchiverCall × Option Failure) → ArchiveHistory → Prop
  | nil : Explains s [] {}
  | step {calls : List (ArchiverCall × Option Failure)} {A A' : ArchiveHistory} {c : ArchiverCall} {thrown : Option Failure}
      (before : Explains s calls A) (step : Step s A c thrown A') : Explains s (calls ++ [(c, thrown)]) A'

section Facts

variable {A A' : ArchiveHistory} {a : Nat} {P Q : StringDict → Bool} {s : Schema}

theorem publish_publish : (A.publish a P).publish a Q = A.publish a fun κ => P κ || Q κ := by
  simp only [publish, mk.injEq, true_and, Function.update_self, Function.update_idem]
  refine ⟨congrArg (Function.update A.pending a) (funext fun κ => funext fun κ' => ?_), funext fun κ => funext fun κ' => ?_⟩
  · by_cases hP : P κ = true <;> by_cases hQ : Q κ = true <;> simp [hP, hQ]
  · by_cases hP : P κ = true <;> by_cases hQ : Q κ = true <;> simp [hP, hQ]

/-- Databases in which nothing waits may be flushed or not. -/
theorem publish_congr (h : ∀ κ, P κ ≠ Q κ → ∀ κ', A.pending a κ κ' = []) : A.publish a P = A.publish a Q := by
  have hpending : ∀ κ κ', (if P κ then A.pending a κ κ' else []) = if Q κ then A.pending a κ κ' else [] := by
    intro κ κ'
    by_cases heq : P κ = Q κ
    · rw [heq]
    · simp [h κ heq κ']
  have hrest : ∀ κ κ', (if P κ then [] else A.pending a κ κ') = if Q κ then [] else A.pending a κ κ' := by
    intro κ κ'
    by_cases heq : P κ = Q κ
    · rw [heq]
    · simp [h κ heq κ']
  simp only [publish, hpending, hrest]

theorem publish_none (h : ∀ κ, P κ = true → ∀ κ', A.pending a κ κ' = []) : A.publish a P = A := by
  have hrest : (fun κ κ' => if P κ then [] else A.pending a κ κ') = A.pending a := by
    funext κ κ'
    split
    · rename_i hP
      exact (h κ hP κ').symm
    · rfl
  have hpending : (fun κ κ' => A.flushed κ κ' ++ if P κ then A.pending a κ κ' else []) = A.flushed := by
    funext κ κ'
    split
    · rename_i hP
      rw [h κ hP κ', List.append_nil]
    · rw [List.append_nil]
  rw [publish, hrest, hpending, Function.update_eq_self]

/-- What a call that returns makes of the fields. -/
def step (s : Schema) (A : ArchiveHistory) : ArchiverCall → ArchiveHistory
  | .make a => if a ∈ A.made then A else A.make a
  | .archive a field data _ =>
    match s.filed field with
    | some filed => A.archive a filed data
    | none => A
  | .flush a _ => A.flush a
  | .destroy a _ => { A.flush a with live := A.live.erase a }

theorem Step.returned {s : Schema} {A A' : ArchiveHistory} {c : ArchiverCall} (h : A.Step s c none A') : A' = A.step s c := by
  cases h with
  | make new => exact (if_neg new).symm
  | made old => exact (if_pos old).symm
  | archived found checked => simp [step, Schema.filed, found]
  | flushed => rfl
  | destroyed => rfl

/-- Where every call has returned, the calls alone tell what was archived. -/
theorem Explains.returned {s : Schema} {A : ArchiveHistory} {calls : List (ArchiverCall × Option Failure)}
    (h : Explains s calls A) (hnone : ∀ c ∈ calls, c.2 = none) : A = (calls.map (·.1)).foldl (ArchiveHistory.step s) {} := by
  induction h with
  | nil => rfl
  | step before last ih =>
    rw [List.map_append, List.foldl_append, ← ih fun c hc => hnone c (List.mem_append_left _ hc)]
    have hthrown := hnone _ (List.mem_append_right _ List.mem_cons_self)
    dsimp only at hthrown
    subst hthrown
    exact last.returned

end Facts

end ArchiveHistory

end Fdb5
