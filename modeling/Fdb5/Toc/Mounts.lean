import Fdb5.Library.Acyclic
import Fdb5.Toc.Overlay

/-! Loading a toc ends where no mount closes a cycle. -/
namespace Fdb5

open Effect Acyclic

namespace TocHandler

variable {d : Disk} {flags : ReadFlags} {p q : PathName} {log : List TocRecord} {n m : Nat}

/-- Reading `p` opens `q`. -/
def Mounts (d : Disk) (p q : PathName) : Prop := q ∈ openedSubTocs d p

/-- What happens when sub-tocs are nested deeper than the stack allows. -/
def overflow : Failure := .undefinedBehaviour "stack overflow"

section ReadFrom

variable {rs rs' : PathName → Key → Except Failure (List Entry)} {masked : MaskedEntries}

/-- A read depends only on what it reads in sub-tocs that are not masked. -/
theorem readFrom_congr {d' : Disk} (hf : flags.readMasked = false) {remapKey : Key}
    (h : ∀ path, .subToc path ∈ log → (path.baseName, 0) ∉ masked →
      subTocPath d' p.dirName path = subTocPath d p.dirName path ∧
        ∀ key, rs' (subTocPath d p.dirName path) key = rs (subTocPath d p.dirName path) key) :
    ∀ parentKey, readFrom d' flags rs' p remapKey masked parentKey log =
      readFrom d flags rs p remapKey masked parentKey log := by
  induction log with
  | nil => exact fun _ => rfl
  | cons r log ih =>
    replace ih := ih fun path hr hm => h path (.tail _ hr) hm
    intro parentKey
    cases r with
    | init | clear | clearAll => simp only [readFrom, ih]
    | index => simp only [readFrom, ih, hf, true_or, and_true]
    | subToc path =>
      by_cases hm : (path.baseName, 0) ∈ masked
      · simp only [readFrom, subTocPath_baseName, hm, hf, true_or, and_self, if_true, ih]
      · obtain ⟨hsub, hrs⟩ := h path (.head _) hm
        simp only [readFrom, hsub, subTocPath_baseName, hm, false_and, if_false, hrs, ih]

/-- A read whose sub-tocs do not overflow the stack does not. -/
theorem readFrom_ne (hf : flags.readMasked = false) {remapKey : Key}
    (h : ∀ path, .subToc path ∈ log → (path.baseName, 0) ∉ masked → ∀ key,
      rs (subTocPath d p.dirName path) key ≠ .error overflow) :
    ∀ parentKey, readFrom d flags rs p remapKey masked parentKey log ≠ .error overflow := by
  induction log with
  | nil => intro _ h; cases h
  | cons r log ih =>
    replace ih := ih fun path hr hm => h path (.tail _ hr) hm
    intro parentKey
    cases r with
    | init | clear | clearAll =>
      rw [readFrom]
      exact bind_ne (ih _) fun a => by simp [pure, Except.pure]
    | index =>
      rw [readFrom]
      refine bind_ne (ih _) fun a => ?_
      split <;> simp [pure, Except.pure]
    | subToc path =>
      by_cases hm : (path.baseName, 0) ∈ masked
      · simp only [readFrom, subTocPath_baseName, hm, hf, true_or, and_self, if_true]
        exact ih _
      · simp only [readFrom, subTocPath_baseName, hm, false_and, if_false]
        refine bind_ne (h path (.head _) hm _) fun sub => ?_
        split
        · split
          · exact bind_ne (ih _) fun a => by simp [pure, Except.pure]
          · simp [throw, throwThe, MonadExceptOf.throw, overflow]
        · refine bind_ne (forM_ne fun e => ?_) fun _ => bind_ne (ih _) fun a => ?_
          · split <;> simp [throw, throwThe, MonadExceptOf.throw, overflow, pure, Except.pure]
          · simp [pure, Except.pure]

end ReadFrom

theorem databaseKey_ne (log : List TocRecord) : databaseKey log ≠ .error overflow := by
  rw [databaseKey]
  split <;> simp [overflow]

theorem remap_ne (d : Disk) (path : PathName) (key : Key) : remap d path key ≠ .error overflow := by
  rw [remap]
  split
  · simp [pure, Except.pure]
  · refine bind_ne (databaseKey_ne _) fun _ => ?_
    split
    · simp [pure, Except.pure]
    · split
      · simp [throw, throwThe, MonadExceptOf.throw, overflow]
      · refine foldlM_ne (fun remapKey kv => ?_) _
        split
        · simp [throw, throwThe, MonadExceptOf.throw, overflow]
        · split <;> simp [pure, Except.pure]

/-- The tocs that a read opens which meets no error, each as often as it is opened. -/
def openings (d : Disk) : (depth : Nat) → (tocPath : PathName) → List PathName
  | 0, p => [p]
  | depth + 1, p => p :: (openedSubTocs d p).flatMap (openings d depth)

/-- From the depth `n` on a deeper stack makes no difference to reading the toc. -/
structure Settled (d : Disk) (flags : ReadFlags) (p : PathName) (n : Nat) : Prop where
  same : ∀ m, n ≤ m → ∀ remapKey parentKey,
    read d flags m p remapKey parentKey = read d flags n p remapKey parentKey
  ends : ∀ remapKey parentKey, read d flags n p remapKey parentKey ≠ .error overflow
  opened : ∀ m, n ≤ m → openings d m p = openings d n p

theorem Settled.later (h : Settled d flags p n) (hm : n ≤ m) : Settled d flags p m where
  same k hk remapKey parentKey := by rw [h.same k (by omega), h.same m hm]
  ends remapKey parentKey := by rw [h.same m hm]; exact h.ends remapKey parentKey
  opened k hk := by rw [h.opened k (by omega), h.opened m hm]

/-- For finitely many tocs one depth is enough. -/
theorem exists_settled {l : List PathName} (h : ∀ q ∈ l, ∃ n, Settled d flags q n) :
    ∃ n, ∀ q ∈ l, Settled d flags q n := by
  induction l with
  | nil => exact ⟨0, by simp⟩
  | cons q l ih =>
    obtain ⟨n, hn⟩ := h q (.head _)
    obtain ⟨m, hm⟩ := ih fun o ho => h o (.tail _ ho)
    refine ⟨max n m, fun o ho => ?_⟩
    rcases List.mem_cons.mp ho with rfl | ho
    · exact hn.later (Nat.le_max_left n m)
    · exact (hm o ho).later (Nat.le_max_right n m)

/-- A toc from which no chain of mounts leads on forever is read with a stack of some depth. -/
theorem settled_of_acc (hf : flags.readMasked = false) (h : Acc (fun q p => Mounts d p q) p) :
    ∃ n, Settled d flags p n := by
  induction h with
  | intro p _ ih =>
    obtain ⟨n, hn⟩ := exists_settled ih
    refine ⟨n + 1, ?_, ?_, ?_⟩
    · intro m hm remapKey parentKey
      obtain ⟨m, rfl⟩ : ∃ k, m = k + 1 := ⟨m - 1, by omega⟩
      cases hlog : d.toc p with
      | none => rw [read, read, hlog]
      | some log =>
        rw [read_eq hlog, read_eq hlog]
        refine readFrom_congr hf (fun path hr hmask => ⟨rfl, fun key => ?_⟩) parentKey
        have hq := hn _ ((mem_openedSubTocs hlog).mpr ⟨path, hr, hmask, rfl⟩)
        rw [readSub, readSub]
        congr 1
        funext key'
        exact hq.same m (by omega) key' key
    · intro remapKey parentKey
      cases hlog : d.toc p with
      | none =>
        rw [read, hlog]
        simp [throw, throwThe, MonadExceptOf.throw, overflow]
      | some log =>
        rw [read_eq hlog]
        refine readFrom_ne hf (fun path hr hmask key => ?_) parentKey
        rw [readSub]
        refine bind_ne (remap_ne d _ key) fun key' => ?_
        exact (hn _ ((mem_openedSubTocs hlog).mpr ⟨path, hr, hmask, rfl⟩)).ends key' key
    · intro m hm
      obtain ⟨m, rfl⟩ : ∃ k, m = k + 1 := ⟨m - 1, by omega⟩
      rw [openings, openings]
      congr 1
      exact List.flatMap_congr fun q hq => (hn q hq).opened m (by omega)

theorem decode_ne {version offset : Nat} {directory : String} {path : PathName} {e : EncodedIndex} :
    (TocIndex.decode version directory path offset e : Except Failure (TocIndex BTreeHandle)) ≠
      .error overflow := by
  rw [TocIndex.decode]
  split
  · refine bind_ne ?_ fun _ => bind_ne ?_ fun _ => bind_ne ?_ fun _ => by simp [pure, Except.pure]
    all_goals rw [assert]; split <;> simp [overflow]
  · simp [pure, Except.pure]

theorem loadIndex_ne {version : Nat} (e : Entry) : loadIndex version e ≠ .error overflow := by
  rw [loadIndex]
  split
  · simp [pure, Except.pure]
  · exact bind_ne decode_ne fun _ => by simp [pure, Except.pure]
  all_goals simp [throw, throwThe, MonadExceptOf.throw, overflow]

theorem Settled.loadIndexes {version : Nat} {remapKey parentKey : Key}
    (h : Settled d indexFlags p n) (hm : n ≤ m) :
    loadIndexes d version m p remapKey parentKey = loadIndexes d version n p remapKey parentKey ∧
      loadIndexes d version n p remapKey parentKey ≠ .error overflow := by
  simp only [TocHandler.loadIndexes, h.same m hm, true_and]
  split
  · refine bind_ne (h.ends remapKey parentKey) fun entries =>
      bind_ne (mapM_ne fun e _ => loadIndex_ne e) fun _ => ?_
    simp [pure, Except.pure]
  · simp [pure, Except.pure]

section Enumerate

variable {version : Nat} {remapKey : Key}

theorem maskedData_ne {masked : MaskedEntries} {directory : String} (r : TocRecord) :
    maskedData d version directory masked r ≠ .error overflow := by
  rw [maskedData.eq_def]
  split
  · split
    · exact bind_ne decode_ne fun _ => by simp [pure, Except.pure]
    · simp [pure, Except.pure]
  · simp [pure, Except.pure]

/-- A toc that is not a database's masks nothing and opens nothing. -/
theorem populate_own (h : d.Overlaid) (hp : p.baseName ≠ masterName) (hlog : d.toc p = some log) :
    populateMaskedEntriesList log = [] ∧ openedSubTocs d p = [] := by
  have hown := h.own p log hlog hp
  have hpop : populateMaskedEntriesList log = [] := by
    refine List.eq_nil_iff_forall_not_mem.mpr fun n hn => ?_
    rcases mem_populateFrom.mp hn with ⟨path, offset, hr, -⟩ | ⟨pre, post, hl, -⟩
    · rcases hown _ hr with ⟨_, ⟨⟩⟩ | ⟨_, _, _, ⟨⟩⟩
    · rcases hown .clearAll (by rw [hl]; simp) with ⟨_, ⟨⟩⟩ | ⟨_, _, _, ⟨⟩⟩
  refine ⟨hpop, List.eq_nil_iff_forall_not_mem.mpr fun q hq => ?_⟩
  obtain ⟨path, hr, -⟩ := (mem_openedSubTocs hlog).mp hq
  rcases hown _ hr with ⟨_, ⟨⟩⟩ | ⟨_, _, _, ⟨⟩⟩

theorem settled_own (h : d.Overlaid) (hf : flags.readMasked = false)
    (hp : p.baseName ≠ masterName) : ∃ n, Settled d flags p n := by
  refine settled_of_acc hf (Acc.intro _ fun q hq => ?_)
  cases hlog : d.toc p with
  | none => rw [Mounts, openedSubTocs_none hlog] at hq; cases hq
  | some log => rw [Mounts, (populate_own h hp hlog).2] at hq; cases hq

theorem enumerateMasked_own (h : d.Overlaid) (hp : p.baseName ≠ masterName) :
    enumerateMasked d version n p remapKey = enumerateMasked d version m p remapKey ∧
      enumerateMasked d version m p remapKey ≠ .error overflow := by
  cases hlog : d.toc p with
  | none =>
    rw [enumerateMasked_none hlog, enumerateMasked_none hlog]
    exact ⟨rfl, by simp [overflow]⟩
  | some log =>
    rw [enumerateMasked_eq hlog, enumerateMasked_eq hlog, (populate_own h hp hlog).1]
    refine ⟨rfl, bind_ne (by simp [pure, Except.pure]) fun _ => ?_⟩
    refine bind_ne (mapM_ne fun r _ => maskedData_ne r) fun _ => by simp [pure, Except.pure]

theorem ne_masterName {b : BaseName} (h : b.isSubToc = true) : b ≠ masterName := by
  rintro rfl
  exact absurd h (by decide)

/-- Masked sub-tocs hold nothing that is masked, so one level is enough to enumerate them. -/
theorem exists_enumerateMasked (h : d.Overlaid) : ∃ n, ∀ m, n ≤ m →
    enumerateMasked d version m p remapKey = enumerateMasked d version n p remapKey ∧
      enumerateMasked d version n p remapKey ≠ .error overflow := by
  cases hlog : d.toc p with
  | none =>
    refine ⟨0, fun m _ => ?_⟩
    rw [enumerateMasked_none hlog, enumerateMasked_none hlog]
    exact ⟨rfl, by simp [overflow]⟩
  | some log =>
    obtain ⟨n, hn⟩ : ∃ n, ∀ q ∈ ((populateMaskedEntriesList log).filter fun e => e.1.isSubToc).map
        (fun e => (⟨p.dirName, e.1⟩ : PathName)), Settled d indexFlags q n := by
      refine exists_settled fun q hq => ?_
      obtain ⟨e, he, rfl⟩ := List.mem_map.mp hq
      exact settled_own h rfl (ne_masterName (List.mem_filter.mp he).2)
    replace hn : ∀ e ∈ populateMaskedEntriesList log, e.1.isSubToc = true →
        Settled d indexFlags ⟨p.dirName, e.1⟩ n := fun e he hsub =>
      hn _ (List.mem_map.mpr ⟨e, List.mem_filter.mpr ⟨he, hsub⟩, rfl⟩)
    refine ⟨n + 1, fun m hm => ?_⟩
    obtain ⟨m, rfl⟩ : ∃ k, m = k + 1 := ⟨m - 1, by omega⟩
    rw [enumerateMasked_eq hlog, enumerateMasked_eq hlog]
    constructor
    · rw [mapM_congr fun e he => ?_]
      simp only [maskedEntry]
      split
      · rfl
      · split
        · rename_i hsub
          rw [enumerateSub, enumerateSub]
          have henum : ∀ key, enumerateMasked d version m ⟨p.dirName, e.1⟩ key =
              enumerateMasked d version n ⟨p.dirName, e.1⟩ key := fun key =>
            (enumerateMasked_own h (ne_masterName hsub)).1
          simp only [henum, ((hn e he hsub).loadIndexes (Nat.le_of_succ_le_succ hm)).1]
        · rfl
    · refine bind_ne (mapM_ne fun e he => ?_) fun _ =>
        bind_ne (mapM_ne fun r _ => maskedData_ne r) fun _ => by simp [pure, Except.pure]
      simp only [maskedEntry]
      split
      · simp [pure, Except.pure]
      · split
        · rename_i hsub
          rw [enumerateSub]
          refine bind_ne (bind_ne (remap_ne d _ _) fun _ =>
            bind_ne (enumerateMasked_own (n := 0) h (ne_masterName hsub)).2 fun _ =>
              bind_ne ((hn e he hsub).loadIndexes (Nat.le_refl n)).2 fun _ => ?_) fun _ => ?_
          all_goals simp [pure, Except.pure]
        · simp [pure, Except.pure]

end Enumerate

theorem populate_append {n : BaseName × Nat} {post : List TocRecord}
    (h : n ∈ populateMaskedEntriesList log) : n ∈ populateMaskedEntriesList (log ++ post) := by
  rcases mem_populateFrom.mp h with ⟨path, offset, hr, he⟩ | ⟨pre, rest, hl, hn⟩
  · exact mem_populateFrom.mpr (.inl ⟨path, offset, List.mem_append_left _ hr, he⟩)
  · exact mem_populateFrom.mpr (.inr ⟨pre, rest ++ post, by rw [hl]; simp, hn⟩)

end TocHandler

open TocHandler

section Run

variable {conf : Config} {o : FdbOverlay} {d d' : Disk} {p q : PathName}

/-- The call mounts a database on one that it reaches itself, through mounts that are not masked. -/
def FdbOverlay.Closes (conf : Config) (d : Disk) (o : FdbOverlay) : Prop :=
  o.remove = false ∧
    (masterName, 0) ∉ populateMaskedEntriesList ((d.toc (tocPath (conf.directory o.target))).getD []) ∧
    Relation.ReflTransGen (Mounts d) (tocPath (conf.directory o.source))
      (tocPath (conf.directory o.target))

theorem subTocPath_exists {directory : String} (h : d.pathExists q = true) :
    subTocPath d directory (.absolute q) = q := by
  rw [subTocPath, if_pos h]

/-- A call adds no edge but the one from its target to its source. -/
theorem FdbOverlay.Executed.mounts (h : o.Executed conf d d') (hd : d.Overlaid)
    (hm : Mounts d' p q) : Mounts d p q ∨ o.remove = false ∧
      (masterName, 0) ∉ populateMaskedEntriesList
        ((d.toc (tocPath (conf.directory o.target))).getD []) ∧
      p = tocPath (conf.directory o.target) ∧ q = tocPath (conf.directory o.source) := by
  cases hlog' : d'.toc p with
  | none => rw [Mounts, openedSubTocs_none hlog'] at hm; cases hm
  | some log' =>
    obtain ⟨path, hr, hmask, rfl⟩ := (mem_openedSubTocs hlog').mp hm
    rcases h.record hlog' hr with ⟨log, hlog, hr'⟩ | ⟨rfl, ⟨_, ⟨⟩⟩ | ⟨-, ⟨⟩⟩ | ⟨hremove, hr'⟩⟩
    · obtain ⟨added, hadded⟩ := h.toc_of hlog
      obtain rfl : log' = log ++ added := by rwa [hlog', Option.some.injEq] at hadded
      refine .inl ((mem_openedSubTocs hlog).mpr ⟨path, hr', fun hn => hmask (populate_append hn), ?_⟩)
      rcases hd.subToc p log hlog path hr' with ⟨base, rfl, -⟩ | ⟨directory, rfl, -, source, hsource⟩
      · rfl
      · have hexists := Disk.pathExists_of_toc hsource
        rw [subTocPath_exists hexists, subTocPath_exists (h.exists_of _ hexists)]
    · obtain rfl : path = .absolute (tocPath (conf.directory o.source)) := by simpa using hr'
      obtain ⟨source, hsource⟩ := h.source
      rw [subTocPath_exists (h.exists_of _ (Disk.pathExists_of_toc hsource))]
      refine .inr ⟨hremove, fun hn => hmask ?_, rfl, rfl⟩
      cases hlog : d.toc (tocPath (conf.directory o.target)) with
      | none => rw [hlog] at hn; cases hn
      | some log =>
        obtain ⟨added, hadded⟩ := h.toc_of hlog
        obtain rfl : log' = log ++ added := by rwa [hlog', Option.some.injEq] at hadded
        rw [hlog] at hn
        exact populate_append hn

theorem Disk.Unmounted.terminating (h : d.Unmounted) : Terminating (Mounts d) := by
  refine terminating_of_two fun p q o hpq hqo => ?_
  cases hlog : d.toc p with
  | none => rw [Mounts, openedSubTocs_none hlog] at hpq; cases hpq
  | some log =>
    obtain ⟨path, hr, -, rfl⟩ := (mem_openedSubTocs hlog).mp hpq
    obtain ⟨base, rfl⟩ := h.relative p log hlog path hr
    rcases h.subToc p log hlog _ hr with ⟨base', he, hne⟩ | ⟨_, ⟨⟩, -⟩
    obtain rfl : base = base' := by simpa using he
    cases hsub : d.toc (subTocPath d p.dirName (.relative base)) with
    | none => rw [Mounts, openedSubTocs_none hsub] at hqo; cases hqo
    | some sub => rw [Mounts, (populate_own h.toOverlaid hne hsub).2] at hqo; cases hqo

theorem FdbOverlay.Executed.terminating (h : o.Executed conf d d') (hd : d.Overlaid)
    (ht : Terminating (Mounts d)) (hc : ¬ o.Closes conf d) : Terminating (Mounts d') := by
  by_cases hnew : o.remove = false ∧ (masterName, 0) ∉ populateMaskedEntriesList
      ((d.toc (tocPath (conf.directory o.target))).getD [])
  · refine ht.insert (fun hreach => hc ⟨hnew.1, hnew.2, hreach⟩) fun p q hm => ?_
    exact (h.mounts hd hm).imp id fun ⟨_, _, hp, hq⟩ => ⟨hp, hq⟩
  · refine ht.mono fun p q hm => (h.mounts hd hm).resolve_right ?_
    exact fun ⟨hremove, hmask, _, _⟩ => hnew ⟨hremove, hmask⟩

theorem Overlays.terminating (h : Overlays conf (fun d o => ¬ o.Closes conf d) d d')
    (hd : d.Unmounted) : Terminating (Mounts d') := by
  induction h with
  | refl => exact hd.terminating
  | step h hok accepted ih =>
    have hover := h.overlaid hd.toOverlaid
    exact (FdbOverlay.execute_ok hover accepted).terminating hover ih hok

/-- Where no mount closes a cycle, `loadIndexes` and `enumerateMasked` end on every database with
what they find on a stack of some depth, each toc being opened as often as there, and
`databaseKey` with the first record. -/
theorem loading_terminates (hd : d.Unmounted)
    (h : Overlays conf (fun d o => ¬ o.Closes conf d) d d') (p : PathName) :
    ∃ n, ∀ m, n ≤ m →
      (loadIndexes d' conf.version m p = loadIndexes d' conf.version n p ∧
        loadIndexes d' conf.version n p ≠ .error overflow) ∧
      (enumerateMasked d' conf.version m p {} = enumerateMasked d' conf.version n p {} ∧
        enumerateMasked d' conf.version n p {} ≠ .error overflow) ∧
      openings d' m p = openings d' n p ∧
      ∀ log, d'.toc p = some log → ∃ key, log.head? = some (.init key) ∧
        databaseKey log = .ok key := by
  have hover := h.overlaid hd.toOverlaid
  obtain ⟨n₁, hread⟩ : ∃ n, Settled d' indexFlags p n :=
    settled_of_acc rfl ((h.terminating hd).apply p)
  obtain ⟨n₂, henum⟩ : ∃ n, ∀ m, n ≤ m →
      enumerateMasked d' conf.version m p {} = enumerateMasked d' conf.version n p {} ∧
        enumerateMasked d' conf.version n p {} ≠ .error overflow := exists_enumerateMasked hover
  refine ⟨max n₁ n₂, fun m hm => ⟨⟨?_, ?_⟩, ⟨?_, ?_⟩, ?_, fun log hlog => ?_⟩⟩
  · rw [(hread.loadIndexes (by omega)).1, (hread.loadIndexes (Nat.le_max_left n₁ n₂)).1]
  · rw [(hread.loadIndexes (Nat.le_max_left n₁ n₂)).1]
    exact (hread.loadIndexes (Nat.le_refl n₁)).2
  · rw [(henum m (by omega)).1, (henum _ (Nat.le_max_right n₁ n₂)).1]
  · rw [(henum _ (Nat.le_max_right n₁ n₂)).1]
    exact (henum n₂ (Nat.le_refl n₂)).2
  · rw [hread.opened m (by omega), hread.opened _ (Nat.le_max_left n₁ n₂)]
  · obtain ⟨key, rest, rfl, -⟩ := hover.init p log hlog
    exact ⟨key, rfl, rfl⟩

end Run

section Cycle

def classKey (value : String) : Key := Key.ofList [("class", value)] none

def emptySchema : Schema := ⟨.untyped, []⟩

/-- Each class has a directory of its own. -/
def classRoots : Config where
  directory key := if key.find "class" = some "od" then "/od" else "/rd"
  version := 3
  depth := 2
  schema := emptySchema

/-- Two databases without fields. -/
def twoDatabases : Disk where
  writes := [
    .schema (schemaPath "/od") emptySchema, .toc (tocPath "/od") (.init (classKey "od")),
    .schema (schemaPath "/rd") emptySchema, .toc (tocPath "/rd") (.init (classKey "rd"))]

def mountOn (source target : String) : FdbOverlay where
  source := classKey source
  target := classKey target
  force := true

def rdOnOd : Disk := twoDatabases.append (.toc (tocPath "/od") (.subToc (.absolute (tocPath "/rd"))))

def onEachOther : Disk := rdOnOd.append (.toc (tocPath "/rd") (.subToc (.absolute (tocPath "/od"))))

theorem toc_twoDatabases (p : PathName) : twoDatabases.toc p =
    if p = tocPath "/rd" then some [.init (classKey "rd")]
    else if p = tocPath "/od" then some [.init (classKey "od")] else none := by
  by_cases hrd : p = tocPath "/rd"
  · subst hrd
    rfl
  · by_cases hod : p = tocPath "/od"
    · subst hod
      rfl
    · rw [if_neg hrd, if_neg hod]
      simp [twoDatabases, Disk.toc, Write.onToc, Ne.symm hrd, Ne.symm hod]

theorem twoDatabases_unmounted : twoDatabases.Unmounted := by
  have hlog : ∀ p log, twoDatabases.toc p = some log →
      p.baseName = masterName ∧ ∃ key, log = [.init key] := by
    intro p log h
    rw [toc_twoDatabases] at h
    split at h
    · cases h
      subst p
      exact ⟨rfl, _, rfl⟩
    · split at h
      · cases h
        subst p
        exact ⟨rfl, _, rfl⟩
      · cases h
  refine ⟨⟨rfl, fun p log h => ?_, fun p log h _ _ _ hr => ?_, fun p log h _ hr => ?_,
    fun p log h hp => ?_⟩, fun p log h _ hr => ?_⟩
  all_goals obtain ⟨hname, key, rfl⟩ := hlog p log h
  · exact ⟨key, [], rfl, by simp⟩
  · simp at hr
  · simp at hr
  · exact absurd hname hp
  · simp at hr

theorem rdOnOd_accepted : ((mountOn "rd" "od").execute classRoots).run twoDatabases = .ok () rdOnOd :=
  rfl

theorem onEachOther_accepted :
    ((mountOn "od" "rd").execute classRoots).run rdOnOd = .ok () onEachOther := rfl

theorem readFrom_error {flags : ReadFlags} {rs : PathName → Key → Except Failure (List Entry)}
    {d : Disk} {p : PathName} {remapKey parentKey key : Key} {masked : MaskedEntries}
    {path : StoredPath} {rest : List TocRecord} {e : Failure} (hk : parentKey.empty = false)
    (hm : (path.baseName, 0) ∉ masked)
    (h : rs (subTocPath d p.dirName path) parentKey = .error e) :
    readFrom d flags rs p remapKey masked parentKey (.init key :: .subToc path :: rest) =
      .error e := by
  simp [readFrom, hk, subTocPath_baseName, hm, h, bind, Except.bind]

/-- Whichever of the two is read, the other is opened before it ends. -/
theorem read_onEachOther (depth : Nat) (remapKey : Key) :
    read onEachOther indexFlags depth (tocPath "/od") remapKey (classKey "od") = .error overflow ∧
      read onEachOther indexFlags depth (tocPath "/rd") remapKey (classKey "od") =
        .error overflow := by
  have hod : onEachOther.toc (tocPath "/od") =
      some [.init (classKey "od"), .subToc (.absolute (tocPath "/rd"))] := rfl
  have hrd : onEachOther.toc (tocPath "/rd") =
      some [.init (classKey "rd"), .subToc (.absolute (tocPath "/od"))] := rfl
  induction depth generalizing remapKey with
  | zero =>
    rw [read_eq hod, read_eq hrd]
    exact ⟨readFrom_error rfl (by decide) rfl, readFrom_error rfl (by decide) rfl⟩
  | succ depth ih =>
    rw [read_eq hod, read_eq hrd]
    refine ⟨readFrom_error rfl (by decide) ?_, readFrom_error rfl (by decide) ?_⟩
    · obtain ⟨key, hkey⟩ : ∃ key, remap onEachOther (tocPath "/rd") (classKey "od") = .ok key :=
        ⟨_, rfl⟩
      rw [show subTocPath onEachOther _ _ = tocPath "/rd" from rfl, readSub, hkey]
      exact (ih key).2
    · obtain ⟨key, hkey⟩ : ∃ key, remap onEachOther (tocPath "/od") (classKey "od") = .ok key :=
        ⟨_, rfl⟩
      rw [show subTocPath onEachOther _ _ = tocPath "/od" from rfl, readSub, hkey]
      exact (ih key).1

theorem loading_terminates_rdOnOd : ∃ n, ∀ m, n ≤ m →
    loadIndexes rdOnOd 3 m (tocPath "/od") = loadIndexes rdOnOd 3 n (tocPath "/od") ∧
      loadIndexes rdOnOd 3 n (tocPath "/od") ≠ .error overflow := by
  have hrun : Overlays classRoots (fun d o => ¬ o.Closes classRoots d) twoDatabases rdOnOd := by
    refine .step (.refl _) (fun hc => ?_) rdOnOd_accepted
    obtain ⟨-, -, hreach⟩ := hc
    rcases Relation.ReflTransGen.cases_head hreach with he | ⟨q, hq, -⟩
    · exact absurd he (by decide)
    · cases hq
  obtain ⟨n, hn⟩ := loading_terminates twoDatabases_unmounted hrun (tocPath "/od")
  exact ⟨n, fun m hm => (hn m hm).1⟩

/-- Mounting the second database back on the first is accepted too, and then neither can be read
on a stack of any depth. -/
theorem loading_overflows : ∃ d, twoDatabases.Unmounted ∧
    Overlays classRoots (fun _ _ => True) twoDatabases d ∧
    ∀ depth, loadIndexes d 3 depth (tocPath "/od") = .error overflow := by
  refine ⟨onEachOther, twoDatabases_unmounted, .step (.step (.refl _) trivial rdOnOd_accepted) trivial
    onEachOther_accepted, fun depth => ?_⟩
  have hlog : onEachOther.toc (tocPath "/od") =
      some [.init (classKey "od"), .subToc (.absolute (tocPath "/rd"))] := rfl
  have hread : read onEachOther indexFlags depth (tocPath "/od") {} {} = .error overflow := by
    rw [read_eq hlog, readFrom]
    have h := (read_onEachOther depth {}).1
    rw [read_eq hlog, readFrom] at h
    simpa [Key.empty] using h
  rw [loadIndexes, if_pos (Disk.pathExists_of_toc hlog), hread]
  rfl

end Cycle

end Fdb5
