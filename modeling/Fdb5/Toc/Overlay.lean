import Mathlib.Logic.Relation
import Fdb5.Toc.Enumerate
import Fdb5.Toc.WriterCalls

/-! Mounting databases on each other: `overlayDB` and the tool that calls it. -/
namespace Fdb5

open Effect

/-- What a process is configured with; sub-tocs nested more than `depth` deep overflow its stack. -/
structure Config where
  directory : Key → String
  version : Nat
  depth : Nat
  schema : Schema
  useSubToc : Bool := false

namespace TocCatalogueWriter

/-- The loop of `overlayDB` over the keywords of the writer's key. -/
def checkVariableKeys (key otherKey : Key) (variableKeys : List String) : Except Failure Unit :=
  key.keys.toList.forM fun kv =>
    match otherKey.find kv.1 with
    | none => throw (.userError "Keys insufficiently matching for mount")
    | some value =>
      if kv.2 = value ∨ kv.1 ∈ variableKeys then .ok ()
      else throw (.userError ("Key " ++ kv.1 ++ " not allowed to differ between DBs"))

/-- `overlayDB(otherCat, variableKeys, unmount)` of the writer of a directory. -/
def overlayDB (version depth : Nat) (directory : String) (key : Key) (otherDirectory : String)
    (otherKey : Key) (variableKeys : List String) (unmount : Bool) :
    EStateM Failure Disk Unit := do
  let toc := TocHandler.tocPath directory
  let other := TocHandler.tocPath otherDirectory
  if otherKey.keys.size ≠ key.keys.size then
    throw (.userError "Keys insufficiently matching for mount")
  else pure ()
  lift (checkVariableKeys key otherKey variableKeys)
  if unmount then
    let indexes ← lift (TocHandler.loadIndexesAndSubTocs (← get) version depth toc)
    if some other ∈ indexes.map (·.subToc) then
      TocHandler.appendBlock toc [TocHandler.buildSubTocMaskRecord directory other]
    else throw (.userError "Cannot unmount DB: Not currently mounted")
  else TocHandler.append toc (.subToc (.of directory other))

end TocCatalogueWriter

/-- A call of `fdb-overlay`, with the keys that its two requests expand to. -/
structure FdbOverlay where
  source : Key
  target : Key
  variableKeys : List String := ["class", "expver"]
  remove : Bool := false
  force : Bool := false

namespace FdbOverlay

/-- What a reader built from the key does with the disk: it loads the indexes. -/
def buildReader (conf : Config) (key : Key) : EStateM Failure Disk Unit := do
  let _ ← lift (TocHandler.loadIndexes (← get) conf.version conf.depth
    (TocHandler.tocPath (conf.directory key)))

def execute (conf : Config) (o : FdbOverlay) : EStateM Failure Disk Unit := do
  let source := conf.directory o.source
  let target := conf.directory o.target
  if o.source.keys.keys ≠ o.target.keys.keys then
    throw (.userError "Keys insufficiently matching for mount")
  else pure ()
  lift (TocCatalogueWriter.checkVariableKeys o.target o.source o.variableKeys)
  buildReader conf o.source
  if (← get).pathExists (TocHandler.tocPath source) = false then
    throw (.userError "Source database not found")
  else pure ()
  buildReader conf o.target
  let found := (← get).pathExists (TocHandler.tocPath target)
  if o.remove ∧ found = false then
    throw (.userError "Target database must already already exist")
  else if o.remove = false ∧ found ∧ o.force = false then
    throw (.userError "Target database already exists")
  else pure ()
  ensure (target ≠ source) "dbTarget->uri() != dbSource->uri()"
  let _ ← TocCatalogueWriter.build target conf.version conf.schema conf.useSubToc o.target
  TocCatalogueWriter.overlayDB conf.version conf.depth target o.target source o.source
    o.variableKeys o.remove

end FdbOverlay

namespace TocHandler

variable {d d' : Disk} {p q : PathName} {log : List TocRecord} {r : TocRecord}

/-- The sub-tocs that reading a toc opens, which are those not masked, in their order. -/
def openedSubTocs (d : Disk) (p : PathName) : List PathName :=
  match d.toc p with
  | none => []
  | some log => log.filterMap fun
    | .subToc path =>
      if (path.baseName, 0) ∈ populateMaskedEntriesList log then none
      else some (subTocPath d p.dirName path)
    | _ => none

theorem mem_openedSubTocs (h : d.toc p = some log) : q ∈ openedSubTocs d p ↔ ∃ path, .subToc path ∈ log ∧
    (path.baseName, 0) ∉ populateMaskedEntriesList log ∧ subTocPath d p.dirName path = q := by
  rw [openedSubTocs, h, List.mem_filterMap]
  constructor
  · rintro ⟨r, hr, hq⟩
    cases r with
    | subToc path =>
      by_cases hm : (path.baseName, 0) ∈ populateMaskedEntriesList log
      · simp [hm] at hq
      · exact ⟨path, hr, hm, by simpa [hm] using hq⟩
    | _ => cases hq
  · rintro ⟨path, hr, hm, rfl⟩
    exact ⟨_, hr, by simp [hm]⟩

theorem openedSubTocs_none (h : d.toc p = none) : openedSubTocs d p = [] := by
  rw [openedSubTocs, h]

end TocHandler

/-- The name of the toc of a database; its sub-tocs have other names. -/
def masterName : BaseName := ⟨"toc", none, ""⟩

/-- The tocs of databases that were mounted on each other: each starts with its only `TOC_INIT`,
indexes and own sub-tocs have names of their own, and only a database's toc has more than indexes. -/
structure Disk.Overlaid (d : Disk) : Prop where
  faults : d.faults = []
  init : ∀ p log, d.toc p = some log → ∃ key rest, log = .init key :: rest ∧ ∀ k, .init k ∉ rest
  index : ∀ p log, d.toc p = some log → ∀ path offset e, .index path offset e ∈ log →
    path ≠ masterName
  subToc : ∀ p log, d.toc p = some log → ∀ path, .subToc path ∈ log →
    (∃ base, path = .relative base ∧ base ≠ masterName) ∨
      ∃ directory, path = .absolute (TocHandler.tocPath directory) ∧ directory ≠ p.dirName ∧
        ∃ log, d.toc (TocHandler.tocPath directory) = some log
  own : ∀ p log, d.toc p = some log → p.baseName ≠ masterName → ∀ r ∈ log,
    (∃ key, r = .init key) ∨ ∃ path offset e, r = .index path offset e

/-- Databases of which none is mounted yet. -/
structure Disk.Unmounted (d : Disk) : Prop extends d.Overlaid where
  relative : ∀ p log, d.toc p = some log → ∀ path, .subToc path ∈ log → ∃ base, path = .relative base

/-- Calls of the tool that were all accepted, each where `ok` holds of the disk before it. -/
inductive Overlays (conf : Config) (ok : Disk → FdbOverlay → Prop) : Disk → Disk → Prop
  | refl (d : Disk) : Overlays conf ok d d
  | step {d d' d'' : Disk} {o : FdbOverlay} (h : Overlays conf ok d d') (hok : ok d' o)
      (accepted : (o.execute conf).run d' = .ok () d'') : Overlays conf ok d d''

section Executed

variable {conf : Config} {o : FdbOverlay} {d d' : Disk}

/-- What an accepted call leaves behind: one record more in the toc of the target, which the call
made when there was none. -/
structure FdbOverlay.Executed (conf : Config) (o : FdbOverlay) (d d' : Disk) : Prop where
  ne : conf.directory o.target ≠ conf.directory o.source
  source : ∃ log, d.toc (TocHandler.tocPath (conf.directory o.source)) = some log
  faults : d'.faults = []
  exists_of : ∀ p, d.pathExists p = true → d'.pathExists p = true
  appended : ∃ log, (d.toc (TocHandler.tocPath (conf.directory o.target)) = some log ∨
      d.toc (TocHandler.tocPath (conf.directory o.target)) = none ∧ ∃ key, log = [.init key]) ∧
    ∀ p, d'.toc p = if p = TocHandler.tocPath (conf.directory o.target) then some (log ++ [
      if o.remove then .clear (.absolute (TocHandler.tocPath (conf.directory o.source))) 0
      else .subToc (.absolute (TocHandler.tocPath (conf.directory o.source)))]) else d.toc p

theorem Disk.toc_of_loadIndexes {version depth : Nat} {p : PathName}
    {l : List (TocIndex BTreeHandle × Key)} (h : TocHandler.loadIndexes d version depth p = .ok l)
    (hp : d.pathExists p = true) : ∃ log, d.toc p = some log := by
  rw [TocHandler.loadIndexes, if_pos hp] at h
  simp only [except_bind_ok] at h
  obtain ⟨entries, he, -⟩ := h
  cases hlog : d.toc p with
  | some log => exact ⟨log, rfl⟩
  | none => cases depth <;> rw [TocHandler.read, hlog] at he <;> cases he

theorem Disk.pathExists_append_of {w : Write} {p : PathName} (hw : ∀ q, w ≠ .remove q)
    (h : d.pathExists p = true) : (d.append w).pathExists p = true := by
  rw [pathExists_append]
  cases w with
  | remove q => exact absurd rfl (hw q)
  | _ => simp [Write.onExists, h]

/-- Building a writer gives a database its toc unless it has one. -/
theorem TocCatalogueWriter.ends_build {directory : String} {version : Nat} {schema : Schema}
    {useSubToc : Bool} {key : Key} (h : d.Overlaid) :
    Ends (build directory version schema useSubToc key) d
      (fun _ d' => d'.faults = [] ∧ (∀ p, d.pathExists p = true → d'.pathExists p = true) ∧
        (d' = d ∧ (∃ log, d.toc (TocHandler.tocPath directory) = some log) ∨
          d.toc (TocHandler.tocPath directory) = none ∧ ∃ key, ∀ p, d'.toc p =
            if p = TocHandler.tocPath directory then some [.init key] else d.toc p))
      fun _ _ => True := by
  rw [build, TocHandler.writeInitRecord]
  simp only [ends_bind, Disk.ends_syscall h.faults, ends_get]
  cases hlog : d.toc (TocHandler.tocPath directory) with
  | some log =>
    obtain ⟨key', rest, rfl, -⟩ := h.init _ _ hlog
    simp only [ends_ensure]
    refine ⟨fun _ => ?_, fun _ => trivial⟩
    cases d.schema (TocHandler.schemaPath directory) with
    | none => trivial
    | some schema => exact ⟨h.faults, fun _ => id, .inl ⟨rfl, _, rfl⟩⟩
  | none =>
    simp only [Bool.false_eq_true, if_false, ends_bind, Disk.ends_write h.faults, ends_lift]
    refine ⟨fun key' hkey => ?_, fun _ _ => trivial⟩
    rw [Disk.ends_write (by exact h.faults)]
    set d₁ := d.append (.schema (TocHandler.schemaPath (TocHandler.tocPath directory).dirName) schema)
    cases (d₁.append (.toc (TocHandler.tocPath directory) (.init key'))).schema
        (TocHandler.schemaPath directory) with
    | none => trivial
    | some schema =>
      refine ⟨h.faults, fun p hp => Disk.pathExists_append_of (by simp)
        (Disk.pathExists_append_of (by simp) hp), .inr ⟨trivial, key', fun p => ?_⟩⟩
      by_cases hp : p = TocHandler.tocPath directory
      · subst hp
        simp [d₁, Write.onToc, hlog]
      · have hne : TocHandler.tocPath directory ≠ p := fun h => hp h.symm
        simp [d₁, Write.onToc, hp, hne]

theorem FdbOverlay.ends_buildReader {key : Key} :
    Ends (buildReader conf key) d (fun _ d' => d' = d ∧
      (d.pathExists (TocHandler.tocPath (conf.directory key)) = true →
        ∃ log, d.toc (TocHandler.tocPath (conf.directory key)) = some log)) fun _ _ => True := by
  rw [buildReader]
  simp only [ends_bind, ends_get, ends_lift, ends_pure, implies_true, and_true]
  exact fun _ hl => ⟨trivial, Disk.toc_of_loadIndexes hl⟩

theorem TocCatalogueWriter.ends_overlayDB {version depth : Nat} {directory other : String}
    {key otherKey : Key} {variableKeys : List String} {unmount : Bool} {log : List TocRecord}
    (hf : d.faults = []) (hlog : d.toc (TocHandler.tocPath directory) = some log) :
    Ends (overlayDB version depth directory key other otherKey variableKeys unmount) d
      (fun _ d' => (unmount = true → ∃ indexes, TocHandler.loadIndexesAndSubTocs d version depth
          (TocHandler.tocPath directory) = .ok indexes ∧
          some (TocHandler.tocPath other) ∈ indexes.map (·.subToc)) ∧
        d' = d.append (.toc (TocHandler.tocPath directory)
          (if unmount then TocHandler.buildSubTocMaskRecord directory (TocHandler.tocPath other)
          else .subToc (.of directory (TocHandler.tocPath other)))))
      fun _ _ => True := by
  rw [overlayDB]
  simp only [ends_bind, ends_ite, ends_throw, implies_true, true_and, ends_lift, ends_get,
    and_true]
  refine fun _ _ _ => ⟨fun hu indexes hl hmem => ?_, fun hu => ?_⟩
  · rw [TocHandler.appendBlock, ends_bind, TocHandler.ends_openForAppend hf hlog]
    simp only [ends_bind, Disk.ends_syscall hf, ends_modify, List.foldl_cons, List.foldl_nil, hu, if_true]
    exact ⟨fun _ => ⟨indexes, hl, hmem⟩, trivial⟩
  · rw [TocHandler.ends_append hf hlog]
    exact ⟨fun h => absurd h hu, by rw [if_neg hu]⟩

/-- Every accepted call of the tool appends one record to the toc of its target. -/
theorem FdbOverlay.execute_ok (h : d.Overlaid) (hx : (o.execute conf).run d = .ok () d') :
    o.Executed conf d d' := by
  have hends : Ends (o.execute conf) d (fun _ d' => o.Executed conf d d') fun _ _ => True := by
    rw [execute]
    simp only [ends_bind, ends_ite, ends_throw, implies_true, true_and, ends_lift, ends_get,
      and_true, ends_ensure]
    intro _ _ _
    refine ends_buildReader.mono ?_ fun _ _ _ => trivial
    rintro _ t ⟨ht, hsource⟩ hfound
    subst t
    refine ends_buildReader.mono ?_ fun _ _ _ => trivial
    rintro _ t ⟨ht, -⟩ - - hne
    subst t
    refine (TocCatalogueWriter.ends_build h).mono ?_ fun _ _ _ => trivial
    rintro _ d₁ ⟨hf, hexists, hbuilt⟩
    obtain ⟨log, hlog, happended⟩ : ∃ log, d₁.toc (TocHandler.tocPath (conf.directory o.target)) =
        some log ∧ ((d.toc (TocHandler.tocPath (conf.directory o.target)) = some log ∨
          d.toc (TocHandler.tocPath (conf.directory o.target)) = none ∧ ∃ key, log = [.init key]) ∧
        ∀ p, p ≠ TocHandler.tocPath (conf.directory o.target) → d₁.toc p = d.toc p) := by
      rcases hbuilt with ⟨heq, log, hlog⟩ | ⟨hnone, key, htoc⟩
      · exact ⟨log, by rw [heq, hlog], .inl hlog, fun _ _ => by rw [heq]⟩
      · exact ⟨_, by rw [htoc, if_pos rfl], .inr ⟨hnone, key, rfl⟩, fun p hp => by rw [htoc, if_neg hp]⟩
    refine (TocCatalogueWriter.ends_overlayDB hf hlog).mono ?_ fun _ _ _ => trivial
    rintro _ _ ⟨-, rfl⟩
    refine ⟨hne, hsource (by simpa using hfound), hf, fun p hp => Disk.pathExists_append_of (by simp) (hexists p hp),
      log, happended.1, fun p => ?_⟩
    rw [TocHandler.toc_append_same hlog, TocHandler.buildSubTocMaskRecord, StoredPath.of,
      if_neg (show (TocHandler.tocPath (conf.directory o.source)).dirName ≠ _ from hne.symm)]
    by_cases hp : p = TocHandler.tocPath (conf.directory o.target)
    · rw [if_pos hp, if_pos hp]
    · rw [if_neg hp, if_neg hp, happended.2 p hp]
  exact hends.ok hx

end Executed

namespace FdbOverlay.Executed

variable {conf : Config} {o : FdbOverlay} {d d' : Disk} {p : PathName} {log : List TocRecord}
  {r : TocRecord}

theorem toc_of (h : o.Executed conf d d') (hlog : d.toc p = some log) :
    ∃ added, d'.toc p = some (log ++ added) := by
  obtain ⟨log', hbefore, hafter⟩ := h.appended
  rw [hafter]
  by_cases hp : p = TocHandler.tocPath (conf.directory o.target)
  · subst hp
    obtain rfl : log' = log := by
      rcases hbefore with hb | ⟨hb, -⟩ <;> rw [hlog] at hb <;> cases hb
      rfl
    exact ⟨_, if_pos rfl⟩
  · exact ⟨[], by rw [if_neg hp, hlog, List.append_nil]⟩

/-- The records that are new are in the target's toc. -/
theorem record (h : o.Executed conf d d') (hlog : d'.toc p = some log) (hr : r ∈ log) :
    (∃ log, d.toc p = some log ∧ r ∈ log) ∨
      p = TocHandler.tocPath (conf.directory o.target) ∧ ((∃ key, r = .init key) ∨
        o.remove = true ∧ r = .clear (.absolute (TocHandler.tocPath (conf.directory o.source))) 0 ∨
        o.remove = false ∧ r = .subToc (.absolute (TocHandler.tocPath (conf.directory o.source)))) := by
  obtain ⟨log', hbefore, hafter⟩ := h.appended
  rw [hafter] at hlog
  by_cases hp : p = TocHandler.tocPath (conf.directory o.target)
  · subst hp
    rw [if_pos rfl, Option.some.injEq] at hlog
    subst hlog
    rcases List.mem_append.mp hr with hr | hr
    · rcases hbefore with hb | ⟨-, key, rfl⟩
      · exact .inl ⟨log', hb, hr⟩
      · exact .inr ⟨rfl, .inl ⟨key, by simpa using hr⟩⟩
    · cases hremove : o.remove <;> simp [hremove] at hr <;> simp [hr]
  · rw [if_neg hp] at hlog
    exact .inl ⟨log, hlog, hr⟩

theorem overlaid (h : o.Executed conf d d') (hd : d.Overlaid) : d'.Overlaid where
  faults := h.faults
  init p log hlog := by
    obtain ⟨log', hbefore, hafter⟩ := h.appended
    rw [hafter] at hlog
    by_cases hp : p = TocHandler.tocPath (conf.directory o.target)
    · rw [if_pos hp, Option.some.injEq] at hlog
      subst hlog
      rcases hbefore with hb | ⟨-, key, rfl⟩
      · obtain ⟨key, rest, rfl, hrest⟩ := hd.init _ _ hb
        refine ⟨key, _, rfl, fun k hk => ?_⟩
        rcases List.mem_append.mp hk with hk | hk
        · exact hrest k hk
        · cases hremove : o.remove <;> simp [hremove] at hk
      · refine ⟨key, _, rfl, fun k hk => ?_⟩
        cases hremove : o.remove <;> simp [hremove] at hk
    · rw [if_neg hp] at hlog
      exact hd.init p log hlog
  index p log hlog path offset e hr := by
    rcases h.record hlog hr with ⟨log', hlog', hr'⟩ | ⟨-, ⟨_, ⟨⟩⟩ | ⟨-, ⟨⟩⟩ | ⟨-, ⟨⟩⟩⟩
    exact hd.index p log' hlog' path offset e hr'
  subToc p log hlog path hr := by
    rcases h.record hlog hr with ⟨log', hlog', hr'⟩ | ⟨rfl, ⟨_, ⟨⟩⟩ | ⟨-, ⟨⟩⟩ | ⟨-, hr'⟩⟩
    · rcases hd.subToc p log' hlog' path hr' with hrel | ⟨directory, hpath, hne, source, hsource⟩
      · exact .inl hrel
      · obtain ⟨added, hadded⟩ := h.toc_of hsource
        exact .inr ⟨directory, hpath, hne, _, hadded⟩
    · obtain ⟨source, hsource⟩ := h.source
      obtain ⟨added, hadded⟩ := h.toc_of hsource
      exact .inr ⟨_, by simpa using hr', fun h' => h.ne h'.symm, _, hadded⟩
  own p log hlog hp r hr := by
    rcases h.record hlog hr with ⟨log', hlog', hr'⟩ | ⟨rfl, -⟩
    · exact hd.own p log' hlog' hp r hr'
    · exact absurd rfl hp

end FdbOverlay.Executed

theorem Overlays.overlaid {conf : Config} {ok : Disk → FdbOverlay → Prop} {d d' : Disk}
    (h : Overlays conf ok d d') (hd : d.Overlaid) : d'.Overlaid := by
  induction h with
  | refl => exact hd
  | step _ _ accepted ih => exact (FdbOverlay.execute_ok ih accepted).overlaid ih

end Fdb5
