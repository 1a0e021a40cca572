import Fdb5.Fingerprint
import Fdb5.Library.FirstWins
import Fdb5.Library.Ledger
import Fdb5.Location

/-! The visitors that gather statistics of a database, for reports and before a purge. -/
namespace Fdb5

open Effect Ledger FirstWins

structure TocDbStats where
  dbCount : Nat := 0
  tocRecordsCount : Nat := 0
  tocFileSize : Nat := 0
  schemaFileSize : Nat := 0
  ownedFilesSize : Nat := 0
  adoptedFilesSize : Nat := 0
  indexFilesSize : Nat := 0
  ownedFilesCount : Nat := 0
  adoptedFilesCount : Nat := 0
  indexFilesCount : Nat := 0

/-- `TocDbStats::operator+=`. -/
def TocDbStats.add (s rhs : TocDbStats) : TocDbStats where
  dbCount := s.dbCount + rhs.dbCount
  tocRecordsCount := s.tocRecordsCount + rhs.tocRecordsCount
  tocFileSize := s.tocFileSize + rhs.tocFileSize
  schemaFileSize := s.schemaFileSize + rhs.schemaFileSize
  ownedFilesSize := s.ownedFilesSize + rhs.ownedFilesSize
  adoptedFilesSize := s.adoptedFilesSize + rhs.adoptedFilesSize
  indexFilesSize := s.indexFilesSize + rhs.indexFilesSize
  ownedFilesCount := s.ownedFilesCount + rhs.ownedFilesCount
  adoptedFilesCount := s.adoptedFilesCount + rhs.adoptedFilesCount
  indexFilesCount := s.indexFilesCount + rhs.indexFilesCount

structure TocIndexStats where
  fieldsCount : Nat := 0
  duplicatesCount : Nat := 0
  fieldsSize : Nat := 0
  duplicatesSize : Nat := 0

namespace TocIndexStats

/-- `TocIndexStats::operator+=`. -/
def add (s rhs : TocIndexStats) : TocIndexStats where
  fieldsCount := s.fieldsCount + rhs.fieldsCount
  duplicatesCount := s.duplicatesCount + rhs.duplicatesCount
  fieldsSize := s.fieldsSize + rhs.fieldsSize
  duplicatesSize := s.duplicatesSize + rhs.duplicatesSize

def addField (len : Nat) (s : TocIndexStats) : TocIndexStats :=
  { s with fieldsCount := s.fieldsCount + 1, fieldsSize := s.fieldsSize + len }

def addDuplicate (len : Nat) (s : TocIndexStats) : TocIndexStats :=
  { s with duplicatesCount := s.duplicatesCount + 1, duplicatesSize := s.duplicatesSize + len }

end TocIndexStats

/-- An index that is visited: the object that the maps order it by, its key and its file. -/
structure VisitedIndex where
  content : Nat
  key : Key
  path : PathName

/-- What the file system says of two directories, and of the size of a file. -/
structure FileFacts where
  sameAs : String → String → Bool
  size : PathName → Except Failure Nat

structure TocStatsReportVisitor where
  directory : String
  includeReferencedNonOwnedData : Bool
  dbStats : TocDbStats
  currentIndex : Option VisitedIndex := none
  allDataFiles : List PathName := []
  allIndexFiles : List PathName := []
  indexUsage : List (PathName × Nat) := []
  dataUsage : List (PathName × Nat) := []
  active : List String := []
  indexStats : List (Nat × TocIndexStats) := []
  lastDataPath : PathName
  lastIndexPath : PathName

namespace TocStatsReportVisitor

/-- The constructor, given `catalogue.basePath()`, `catalogue.stats()` and `PathName()`. -/
def new (directory : String) (includeReferenced : Bool) (stats : TocDbStats) (unset : PathName) :
    TocStatsReportVisitor where
  directory
  includeReferencedNonOwnedData := includeReferenced
  dbStats := stats
  lastDataPath := unset
  lastIndexPath := unset

/-- `set.insert(path)`. -/
def insertPath (path : PathName) (files : List PathName) : List PathName :=
  if path ∈ files then files else files ++ [path]

/-- `EntryVisitor::visitIndex`. -/
def visitIndex (index : VisitedIndex) : EStateM Failure TocStatsReportVisitor Unit :=
  modify ({ · with currentIndex := some index })

/-- The data file of a datum, counted into the sizes when it is new. -/
def noteDataFile (facts : FileFacts) (dataPath : PathName) (dbStats : TocDbStats) :
    EStateM Failure TocStatsReportVisitor TocDbStats := do
  let v ← get
  if v.lastDataPath ≠ dataPath then
    let dbStats ← if dataPath ∈ v.allDataFiles then pure dbStats else do
      let size ← lift (facts.size dataPath)
      modify fun v => { v with allDataFiles := insertPath dataPath v.allDataFiles }
      pure <| if facts.sameAs dataPath.dirName v.directory then
        { dbStats with
          ownedFilesSize := dbStats.ownedFilesSize + size
          ownedFilesCount := dbStats.ownedFilesCount + 1 }
      else
        { dbStats with
          adoptedFilesSize := dbStats.adoptedFilesSize + size
          adoptedFilesCount := dbStats.adoptedFilesCount + 1 }
    modify ({ · with lastDataPath := dataPath })
    return dbStats
  else
    return dbStats

/-- The same for the file of the index. -/
def noteIndexFile (facts : FileFacts) (indexPath : PathName) (dbStats : TocDbStats) :
    EStateM Failure TocStatsReportVisitor TocDbStats := do
  let v ← get
  if v.lastIndexPath ≠ indexPath then
    let dbStats ← if indexPath ∈ v.allIndexFiles then pure dbStats else do
      let size ← lift (facts.size indexPath)
      modify fun v => { v with allIndexFiles := insertPath indexPath v.allIndexFiles }
      pure { dbStats with
        indexFilesSize := dbStats.indexFilesSize + size
        indexFilesCount := dbStats.indexFilesCount + 1 }
    modify ({ · with lastIndexPath := indexPath })
    return dbStats
  else
    return dbStats

/-- What is counted of a datum, when it is the first of its identity and when it is not. -/
def count (index : VisitedIndex) (dataPath : PathName) (len : Nat) (unique : String) (v : TocStatsReportVisitor) :
    TocStatsReportVisitor :=
  if unique ∉ v.active then
    { v with
      active := v.active ++ [unique]
      indexUsage := update 0 (· + 1) index.path v.indexUsage
      dataUsage := update 0 (· + 1) dataPath v.dataUsage }
  else
    { v with
      indexStats := update {} (·.addDuplicate len) index.content v.indexStats
      indexUsage := update 0 id index.path v.indexUsage
      dataUsage := update 0 id dataPath v.dataUsage }

/-- The index and the data file are both in the database's own directory. -/
def owned (facts : FileFacts) (directory : String) (index : VisitedIndex) (dataPath : PathName) : Bool :=
  facts.sameAs index.path.dirName directory && facts.sameAs dataPath.dirName directory

def visitDatum (facts : FileFacts) (location : FieldLocation) (fieldFingerprint : String) :
    EStateM Failure TocStatsReportVisitor Unit := do
  let v ← get
  match v.currentIndex with
  | none => throw (.undefinedBehaviour "*currentIndex_")
  | some index =>
    let dataPath := location.uri.path
    if !v.includeReferencedNonOwnedData && !owned facts v.directory index dataPath then
      return
    else
      modify fun v => { v with indexStats := update {} (·.addField location.length) index.content v.indexStats }
      let dbStats ← noteDataFile facts dataPath {}
      let dbStats ← noteIndexFile facts index.path dbStats
      let values ← lift index.key.valuesToString
      modify (count index dataPath location.length (values ++ "+" ++ fieldFingerprint))
      modify fun v => { v with dbStats := v.dbStats.add dbStats }

/-- `TocPurgeVisitor::visitDatabase`, with what `allMasked` gave. -/
def visitMasked (metadata data : List PathName) (v : TocStatsReportVisitor) : TocStatsReportVisitor :=
  let v := metadata.foldl (fun v path => { v with
    allIndexFiles := insertPath path v.allIndexFiles
    indexUsage := update 0 (· + 0) path v.indexUsage }) v
  data.foldl (fun v path => { v with
    allDataFiles := insertPath path v.allDataFiles
    dataUsage := update 0 (· + 0) path v.dataUsage }) v

def indexStatistics (v : TocStatsReportVisitor) : TocIndexStats :=
  v.indexStats.foldl (fun total it => total.add it.2) {}

end TocStatsReportVisitor

/-- What the visitor is shown: the masked files (of a purge), an index, a datum. -/
inductive StatsVisit where
  | masked (metadata data : List PathName)
  | index (visited : VisitedIndex)
  | datum (location : FieldLocation) (fieldFingerprint : String)

namespace StatsVisit

def run (facts : FileFacts) : StatsVisit → EStateM Failure TocStatsReportVisitor Unit
  | .masked metadata data => modify (TocStatsReportVisitor.visitMasked metadata data)
  | .index visited => TocStatsReportVisitor.visitIndex visited
  | .datum location fieldFingerprint => TocStatsReportVisitor.visitDatum facts location fieldFingerprint

end StatsVisit

/-- A datum that is counted, with the index it was visited in. -/
structure VisitedDatum where
  index : VisitedIndex
  location : FieldLocation
  fieldFingerprint : String

namespace VisitedDatum

def dataPath (d : VisitedDatum) : PathName := d.location.uri.path

/-- What a field is told from others by. -/
def identity (d : VisitedDatum) : Option String :=
  d.index.key.valuesToString.toOption.map fun values => values ++ "+" ++ d.fieldFingerprint

/-- The data that are the first of their identity. -/
def reachable (l : List VisitedDatum) : List VisitedDatum := firsts identity [] l

end VisitedDatum

/-- The data that a visitor counts among all it is shown. -/
structure Shown where
  currentIndex : Option VisitedIndex := none
  data : List VisitedDatum := []

namespace Shown

def see (facts : FileFacts) (directory : String) (includeReferenced : Bool) (s : Shown) : StatsVisit → Shown
  | .masked _ _ => s
  | .index visited => { s with currentIndex := some visited }
  | .datum location fieldFingerprint =>
    match s.currentIndex with
    | none => s
    | some index =>
      if !includeReferenced && !TocStatsReportVisitor.owned facts directory index location.uri.path then s
      else { s with data := s.data ++ [⟨index, location, fieldFingerprint⟩] }

/-- The data counted of a sequence of visits. -/
def countedData (facts : FileFacts) (directory : String) (includeReferenced : Bool) (visits : List StatsVisit) :
    List VisitedDatum := (visits.foldl (see facts directory includeReferenced) {}).data

end Shown

/-- The size totals are those of files that are counted once each, some of the data files and some of the index files
that the visitor has noted. -/
structure SizesAccount (facts : FileFacts) (base : TocDbStats) (v : TocStatsReportVisitor) (stats : TocDbStats)
    (data index : List (PathName × Nat)) : Prop where
  dataOnce : (data.map Prod.fst).Nodup
  indexOnce : (index.map Prod.fst).Nodup
  dataNoted : ∀ p ∈ data, p.1 ∈ v.allDataFiles
  indexNoted : ∀ p ∈ index, p.1 ∈ v.allIndexFiles
  sizes : ∀ p ∈ data ++ index, facts.size p.1 = .ok p.2
  ownedSize : stats.ownedFilesSize = base.ownedFilesSize +
    ((data.filter fun p => facts.sameAs p.1.dirName v.directory).map Prod.snd).sum
  adoptedSize : stats.adoptedFilesSize = base.adoptedFilesSize +
    ((data.filter fun p => !facts.sameAs p.1.dirName v.directory).map Prod.snd).sum
  indexSize : stats.indexFilesSize = base.indexFilesSize + (index.map Prod.snd).sum

/-- The maps and counters of a visitor that has counted the data `l`. -/
structure CountsAccount (l : List VisitedDatum) (v : TocStatsReportVisitor) : Prop where
  active : v.active.map some = (VisitedDatum.reachable l).map VisitedDatum.identity
  indexUsage : ∀ path, get 0 path v.indexUsage =
    ((VisitedDatum.reachable l).filter fun d => d.index.path = path).length
  dataUsage : ∀ path, get 0 path v.dataUsage = ((VisitedDatum.reachable l).filter fun d => d.dataPath = path).length
  indexUsageOnce : (v.indexUsage.map Prod.fst).Nodup
  dataUsageOnce : (v.dataUsage.map Prod.fst).Nodup
  indexTotal : total id v.indexUsage = v.active.length
  dataTotal : total id v.dataUsage = v.active.length
  fields : total TocIndexStats.fieldsCount v.indexStats =
    v.active.length + total TocIndexStats.duplicatesCount v.indexStats
  duplicates : ∀ p ∈ v.indexStats, p.2.duplicatesCount ≤ p.2.fieldsCount

section Counts

variable {facts : FileFacts} {base stats : TocDbStats} {v : TocStatsReportVisitor} {l : List VisitedDatum}
variable {data index : List (PathName × Nat)} {d : VisitedDatum} {unique : String}

theorem CountsAccount.mem_active (h : CountsAccount l v) :
    unique ∈ v.active ↔ some unique ∈ l.map VisitedDatum.identity := by
  have hsome : unique ∈ v.active ↔ some unique ∈ v.active.map some := by simp
  rw [hsome, h.active, VisitedDatum.reachable, mem_map_firsts]
  exact and_iff_right List.not_mem_nil

theorem reachable_concat : VisitedDatum.reachable (l ++ [d]) = VisitedDatum.reachable l ++
    if d.identity ∈ l.map VisitedDatum.identity then [] else [d] := by
  rw [VisitedDatum.reachable, firsts_concat, VisitedDatum.reachable]
  simp only [List.not_mem_nil, false_or]

/-- Counting a datum keeps the accounts, when its field was added to those of its index. -/
theorem CountsAccount.count {w : TocStatsReportVisitor} {len : Nat} (h : CountsAccount l v) (hu : d.identity = some unique)
    (hactive : w.active = v.active) (hindex : w.indexUsage = v.indexUsage) (hdata : w.dataUsage = v.dataUsage)
    (hstats : w.indexStats = update {} (·.addField len) d.index.content v.indexStats) :
    CountsAccount (l ++ [d]) (w.count d.index d.dataPath len unique) := by
  have hmem : unique ∈ v.active ↔ some unique ∈ l.map VisitedDatum.identity := h.mem_active
  have htotal := h.fields
  rw [← hu] at hmem
  by_cases hnew : unique ∈ v.active
  · have hreachable : VisitedDatum.reachable (l ++ [d]) = VisitedDatum.reachable l := by
      rw [reachable_concat, if_pos (hmem.mp hnew), List.append_nil]
    have hone : update {} (·.addDuplicate len) d.index.content w.indexStats =
        update {} (TocIndexStats.addDuplicate len ∘ TocIndexStats.addField len) d.index.content v.indexStats := by
      rw [hstats, update_update]
    have hfields : total TocIndexStats.fieldsCount (update {} (·.addDuplicate len) d.index.content w.indexStats) =
        total TocIndexStats.fieldsCount v.indexStats + 1 := by
      rw [hone]
      exact total_update rfl fun _ => rfl
    have hduplicates :
        total TocIndexStats.duplicatesCount (update {} (·.addDuplicate len) d.index.content w.indexStats) =
          total TocIndexStats.duplicatesCount v.indexStats + 1 := by
      rw [hone]
      exact total_update rfl fun _ => rfl
    rw [TocStatsReportVisitor.count, hactive, if_neg (not_not_intro hnew)]
    constructor
    · rw [hreachable]
      exact h.active
    · intro path
      simp only [hindex, get_update, hreachable, h.indexUsage]
      by_cases hp : d.index.path = path <;> simp [hp]
    · intro path
      simp only [hdata, get_update, hreachable, h.dataUsage]
      by_cases hp : d.dataPath = path <;> simp [hp]
    · rw [hindex]
      exact nodup_update h.indexUsageOnce
    · rw [hdata]
      exact nodup_update h.dataUsageOnce
    · rw [hindex, ← h.indexTotal]
      exact total_update (d := 0) rfl fun _ => rfl
    · rw [hdata, ← h.dataTotal]
      exact total_update (d := 0) rfl fun _ => rfl
    · simp only
      omega
    · rw [hone]
      exact forall_update (P := fun a : TocIndexStats => a.duplicatesCount ≤ a.fieldsCount) (Nat.le_refl 1)
        (fun _ h => Nat.succ_le_succ h) h.duplicates
  · have hreachable : VisitedDatum.reachable (l ++ [d]) = VisitedDatum.reachable l ++ [d] := by
      rw [reachable_concat, if_neg fun hd => hnew (hmem.mpr hd)]
    have hfields : total TocIndexStats.fieldsCount w.indexStats = total TocIndexStats.fieldsCount v.indexStats + 1 := by
      rw [hstats]
      exact total_update rfl fun _ => rfl
    have hduplicates :
        total TocIndexStats.duplicatesCount w.indexStats = total TocIndexStats.duplicatesCount v.indexStats + 0 := by
      rw [hstats]
      exact total_update rfl fun _ => rfl
    rw [TocStatsReportVisitor.count, hactive, if_pos hnew]
    constructor
    · simp only [List.map_append, h.active, hreachable, List.map_cons, List.map_nil, hu]
    · intro path
      simp only [hindex, get_update, hreachable, h.indexUsage, List.filter_append, List.length_append]
      by_cases hp : d.index.path = path <;> simp [hp]
    · intro path
      simp only [hdata, get_update, hreachable, h.dataUsage, List.filter_append, List.length_append]
      by_cases hp : d.dataPath = path <;> simp [hp]
    · rw [hindex]
      exact nodup_update h.indexUsageOnce
    · rw [hdata]
      exact nodup_update h.dataUsageOnce
    · rw [hindex, List.length_append, ← h.indexTotal]
      exact total_update rfl fun _ => rfl
    · rw [hdata, List.length_append, ← h.dataTotal]
      exact total_update rfl fun _ => rfl
    · simp only [List.length_append, List.length_singleton]
      omega
    · rw [hstats]
      exact forall_update (P := fun a : TocIndexStats => a.duplicatesCount ≤ a.fieldsCount) (Nat.zero_le 1)
        (fun _ h => Nat.le_succ_of_le h) h.duplicates

theorem SizesAccount.mono {w : TocStatsReportVisitor} (h : SizesAccount facts base v stats data index)
    (hdata : v.allDataFiles ⊆ w.allDataFiles) (hindex : v.allIndexFiles ⊆ w.allIndexFiles)
    (hdirectory : w.directory = v.directory) : SizesAccount facts base w stats data index := by
  obtain ⟨hdo, hio, hdn, hin, hs, ho, ha, hi⟩ := h
  rw [← hdirectory] at ho ha
  exact ⟨hdo, hio, fun p hp => hdata (hdn p hp), fun p hp => hindex (hin p hp), hs, ho, ha, hi⟩

theorem once_concat {files : List PathName} {path : PathName} {size : Nat} (h : (data.map Prod.fst).Nodup)
    (hnoted : ∀ p ∈ data, p.1 ∈ files) (hnew : path ∉ files) : ((data ++ [(path, size)]).map Prod.fst).Nodup := by
  rw [List.map_append, List.nodup_append]
  refine ⟨h, by simp, ?_⟩
  intro a ha b hb he
  obtain ⟨p, hp, rfl⟩ := List.mem_map.mp ha
  obtain rfl : b = path := List.mem_singleton.mp hb
  exact hnew (he ▸ hnoted p hp)

theorem noted_concat {files : List PathName} {path : PathName} {size : Nat} (hnoted : ∀ p ∈ data, p.1 ∈ files) :
    ∀ p ∈ data ++ [(path, size)], p.1 ∈ files ++ [path] := by
  intro p hp
  rcases List.mem_append.mp hp with hp | hp
  · exact List.mem_append_left _ (hnoted p hp)
  · rw [List.mem_singleton.mp hp]
    exact List.mem_append_right _ List.mem_cons_self

/-- The size of a data file that was not noted yet is added. -/
theorem SizesAccount.addData {stats' : TocDbStats} {path : PathName} {size : Nat}
    (h : SizesAccount facts base v stats data index) (hnew : path ∉ v.allDataFiles) (hsize : facts.size path = .ok size)
    (howned : stats'.ownedFilesSize =
      stats.ownedFilesSize + if facts.sameAs path.dirName v.directory then size else 0)
    (hadopted : stats'.adoptedFilesSize =
      stats.adoptedFilesSize + if facts.sameAs path.dirName v.directory then 0 else size)
    (hindex : stats'.indexFilesSize = stats.indexFilesSize) :
    SizesAccount facts base { v with allDataFiles := v.allDataFiles ++ [path] } stats' (data ++ [(path, size)]) index where
  dataOnce := once_concat h.dataOnce h.dataNoted hnew
  indexOnce := h.indexOnce
  dataNoted := noted_concat h.dataNoted
  indexNoted := h.indexNoted
  sizes := by
    intro p hp
    have hs := h.sizes p
    simp only [List.mem_append, List.mem_singleton] at hp hs
    rcases hp with (hp | rfl) | hp
    · exact hs (.inl hp)
    · exact hsize
    · exact hs (.inr hp)
  ownedSize := by
    rw [howned, h.ownedSize, List.filter_append, List.map_append, List.sum_append]
    by_cases hsame : facts.sameAs path.dirName v.directory <;> simp [hsame, Nat.add_assoc]
  adoptedSize := by
    rw [hadopted, h.adoptedSize, List.filter_append, List.map_append, List.sum_append]
    by_cases hsame : facts.sameAs path.dirName v.directory <;> simp [hsame, Nat.add_assoc]
  indexSize := hindex.trans h.indexSize

/-- So is the size of an index file. -/
theorem SizesAccount.addIndex {stats' : TocDbStats} {path : PathName} {size : Nat}
    (h : SizesAccount facts base v stats data index) (hnew : path ∉ v.allIndexFiles) (hsize : facts.size path = .ok size)
    (howned : stats'.ownedFilesSize = stats.ownedFilesSize) (hadopted : stats'.adoptedFilesSize = stats.adoptedFilesSize)
    (hindex : stats'.indexFilesSize = stats.indexFilesSize + size) :
    SizesAccount facts base { v with allIndexFiles := v.allIndexFiles ++ [path] } stats' data (index ++ [(path, size)]) where
  dataOnce := h.dataOnce
  indexOnce := once_concat h.indexOnce h.indexNoted hnew
  dataNoted := h.dataNoted
  indexNoted := noted_concat h.indexNoted
  sizes := by
    intro p hp
    have hs := h.sizes p
    simp only [List.mem_append, List.mem_singleton] at hp hs
    rcases hp with hp | hp | rfl
    · exact hs (.inl hp)
    · exact hs (.inr hp)
    · exact hsize
  ownedSize := howned.trans h.ownedSize
  adoptedSize := hadopted.trans h.adoptedSize
  indexSize := by
    rw [hindex, h.indexSize, List.map_append, List.sum_append]
    simp [Nat.add_assoc]

/-- The data file of a datum is noted, and nothing else changes but the sizes. -/
theorem ends_noteDataFile {path : PathName} (h : SizesAccount facts base v (v.dbStats.add stats) data index) :
    Ends (TocStatsReportVisitor.noteDataFile facts path stats) v
      (fun stats' v' => ∃ files data', v' = { v with allDataFiles := files, lastDataPath := path } ∧
        SizesAccount facts base v' (v.dbStats.add stats') data' index) fun _ _ => True := by
  simp only [TocStatsReportVisitor.noteDataFile, ends_bind, ends_get]
  rw [ends_ite]
  constructor
  · intro hlast
    rw [ends_ite]
    constructor
    · intro hmem
      exact ⟨v.allDataFiles, data, rfl, h.mono (fun _ h => h) (fun _ h => h) rfl⟩
    · intro hnew
      simp only [ends_bind, ends_lift, ends_modify, ends_pure, implies_true, and_true]
      intro size hsize
      simp only [TocStatsReportVisitor.insertPath, if_neg hnew]
      refine ⟨_, data ++ [(path, size)], rfl, (h.addData hnew hsize ?_ ?_ ?_).mono (fun _ h => h) (fun _ h => h) rfl⟩
      all_goals split <;> simp [TocDbStats.add, Nat.add_assoc]
  · intro hlast
    rw [not_not] at hlast
    exact ⟨v.allDataFiles, data, by rw [← hlast], h⟩

/-- So is the file of its index. -/
theorem ends_noteIndexFile {path : PathName} (h : SizesAccount facts base v (v.dbStats.add stats) data index) :
    Ends (TocStatsReportVisitor.noteIndexFile facts path stats) v
      (fun stats' v' => ∃ files index', v' = { v with allIndexFiles := files, lastIndexPath := path } ∧
        SizesAccount facts base v' (v.dbStats.add stats') data index') fun _ _ => True := by
  simp only [TocStatsReportVisitor.noteIndexFile, ends_bind, ends_get]
  rw [ends_ite]
  constructor
  · intro hlast
    rw [ends_ite]
    constructor
    · intro hmem
      exact ⟨v.allIndexFiles, index, rfl, h.mono (fun _ h => h) (fun _ h => h) rfl⟩
    · intro hnew
      simp only [ends_bind, ends_lift, ends_modify, ends_pure, implies_true, and_true]
      intro size hsize
      simp only [TocStatsReportVisitor.insertPath, if_neg hnew]
      refine ⟨_, _, rfl, (h.addIndex hnew hsize ?_ ?_ ?_).mono (fun _ h => h) (fun _ h => h) rfl⟩
      all_goals simp [TocDbStats.add, Nat.add_assoc]
  · intro hlast
    rw [not_not] at hlast
    exact ⟨v.allIndexFiles, index, by rw [← hlast], h⟩

end Counts

/-- What a visitor of a database of the directory has counted, of all it was shown. -/
structure StatsAccount (facts : FileFacts) (directory : String) (includeReferenced : Bool) (base : TocDbStats)
    (s : Shown) (v : TocStatsReportVisitor) : Prop where
  directory : v.directory = directory
  includeReferenced : v.includeReferencedNonOwnedData = includeReferenced
  currentIndex : v.currentIndex = s.currentIndex
  counts : CountsAccount s.data v
  sizes : ∃ data index, SizesAccount facts base v v.dbStats data index

section Visits

variable {facts : FileFacts} {directory : String} {includeReferenced : Bool} {base : TocDbStats} {s : Shown}
variable {v : TocStatsReportVisitor}

theorem insertPath_subset (path : PathName) (files : List PathName) :
    files ⊆ TocStatsReportVisitor.insertPath path files := by
  intro p hp
  rw [TocStatsReportVisitor.insertPath]
  split
  · exact hp
  · exact List.mem_append_left _ hp

theorem get_masked (path path' : PathName) (usage : List (PathName × Nat)) :
    get 0 path (update 0 (· + 0) path' usage) = get 0 path usage := by
  rw [get_update]
  split
  next h => rw [h, Nat.add_zero]
  · rfl

theorem StatsAccount.maskIndex (h : StatsAccount facts directory includeReferenced base s v) (path : PathName) :
    StatsAccount facts directory includeReferenced base s { v with
      allIndexFiles := TocStatsReportVisitor.insertPath path v.allIndexFiles
      indexUsage := update 0 (· + 0) path v.indexUsage } where
  directory := h.directory
  includeReferenced := h.includeReferenced
  currentIndex := h.currentIndex
  counts := { h.counts with
    indexUsage := fun p => (get_masked p path v.indexUsage).trans (h.counts.indexUsage p)
    indexUsageOnce := nodup_update h.counts.indexUsageOnce
    indexTotal := (total_update (m := id) (d := 0) rfl fun _ => rfl).trans h.counts.indexTotal }
  sizes := by
    obtain ⟨data, index, hsizes⟩ := h.sizes
    exact ⟨data, index, hsizes.mono (fun _ h => h) (insertPath_subset path _) rfl⟩

theorem StatsAccount.maskData (h : StatsAccount facts directory includeReferenced base s v) (path : PathName) :
    StatsAccount facts directory includeReferenced base s { v with
      allDataFiles := TocStatsReportVisitor.insertPath path v.allDataFiles
      dataUsage := update 0 (· + 0) path v.dataUsage } where
  directory := h.directory
  includeReferenced := h.includeReferenced
  currentIndex := h.currentIndex
  counts := { h.counts with
    dataUsage := fun p => (get_masked p path v.dataUsage).trans (h.counts.dataUsage p)
    dataUsageOnce := nodup_update h.counts.dataUsageOnce
    dataTotal := (total_update (m := id) (d := 0) rfl fun _ => rfl).trans h.counts.dataTotal }
  sizes := by
    obtain ⟨data, index, hsizes⟩ := h.sizes
    exact ⟨data, index, hsizes.mono (insertPath_subset path _) (fun _ h => h) rfl⟩

theorem StatsAccount.visitMasked (h : StatsAccount facts directory includeReferenced base s v)
    (metadata data : List PathName) :
    StatsAccount facts directory includeReferenced base s (v.visitMasked metadata data) := by
  have hmetadata := List.foldlRecOn metadata _ h fun _ hv path _ => StatsAccount.maskIndex hv path
  exact List.foldlRecOn data _ hmetadata fun _ hv path _ => StatsAccount.maskData hv path

theorem count_frame {index : VisitedIndex} {path : PathName} {len : Nat} {unique : String} :
    ∃ active indexStats indexUsage dataUsage, v.count index path len unique =
      { v with active := active, indexStats := indexStats, indexUsage := indexUsage, dataUsage := dataUsage } := by
  rw [TocStatsReportVisitor.count]
  split <;> exact ⟨_, _, _, _, rfl⟩

/-- A datum that is visited is counted, if it is not left out, and the accounts stay balanced. -/
theorem ends_statsDatum {location : FieldLocation} {fieldFingerprint : String}
    (h : StatsAccount facts directory includeReferenced base s v) :
    Ends (TocStatsReportVisitor.visitDatum facts location fieldFingerprint) v
      (fun _ => StatsAccount facts directory includeReferenced base
        (s.see facts directory includeReferenced (.datum location fieldFingerprint))) fun _ _ => True := by
  obtain rfl := h.directory
  obtain rfl := h.includeReferenced
  simp only [TocStatsReportVisitor.visitDatum, ends_bind, ends_get]
  cases hcurrent : v.currentIndex with
  | none => trivial
  | some index =>
    have hsee : s.currentIndex = some index := h.currentIndex.symm.trans hcurrent
    simp only [Shown.see, hsee]
    rw [ends_ite]
    constructor
    · intro hout
      rw [if_pos hout]
      exact h
    · intro hin
      obtain ⟨data, indexes, hsizes⟩ := h.sizes
      have hstart : SizesAccount facts base
          { v with indexStats := update {} (·.addField location.length) index.content v.indexStats } (v.dbStats.add {})
          data indexes := hsizes.mono (fun _ h => h) (fun _ h => h) rfl
      simp only [if_neg hin, ends_bind, ends_modify]
      apply (ends_noteDataFile hstart).mono _ fun _ _ _ => trivial
      rintro stats _ ⟨dataFiles, data, rfl, hsizes⟩
      apply (ends_noteIndexFile hsizes).mono _ fun _ _ _ => trivial
      rintro stats _ ⟨indexFiles, indexes, rfl, hsizes⟩
      simp only [ends_lift, implies_true, and_true]
      intro values hvalues
      have hidentity : VisitedDatum.identity ⟨index, location, fieldFingerprint⟩ =
          some (values ++ "+" ++ fieldFingerprint) := by
        rw [VisitedDatum.identity, hvalues]
        rfl
      have hcounts := h.counts.count hidentity rfl rfl rfl rfl (w := { v with
        allDataFiles := dataFiles
        allIndexFiles := indexFiles
        indexStats := update {} (·.addField location.length) index.content v.indexStats
        lastDataPath := location.uri.path
        lastIndexPath := index.path })
      obtain ⟨active, indexStats, indexUsage, dataUsage, hcount⟩ := count_frame
      simp only [VisitedDatum.dataPath] at hcounts
      rw [hcount] at hcounts ⊢
      exact ⟨rfl, rfl, hcurrent, { hcounts with }, _, _, hsizes.mono (fun _ h => h) (fun _ h => h) rfl⟩

/-- Every visit keeps the accounts. -/
theorem ends_statsVisit (visit : StatsVisit) (h : StatsAccount facts directory includeReferenced base s v) :
    Ends (visit.run facts) v (fun _ => StatsAccount facts directory includeReferenced base
      (s.see facts directory includeReferenced visit)) fun _ _ => True := by
  cases visit with
  | masked metadata data => exact h.visitMasked metadata data
  | index visited =>
    obtain ⟨data, index, hsizes⟩ := h.sizes
    exact ⟨h.directory, h.includeReferenced, rfl, { h.counts with }, data, index, { hsizes with }⟩
  | datum location fieldFingerprint => exact ends_statsDatum h

theorem ends_statsVisits (visits : List StatsVisit) (h : StatsAccount facts directory includeReferenced base {} v) :
    Ends (visits.forM (·.run facts)) v (fun _ => StatsAccount facts directory includeReferenced base
      (visits.foldl (Shown.see facts directory includeReferenced) {})) fun _ _ => True := by
  apply ends_forM_prefix (P := fun pre => StatsAccount facts directory includeReferenced base
    (pre.foldl (Shown.see facts directory includeReferenced) {})) _ [] v h
  intro pre visit _ w hw
  rw [List.foldl_concat]
  exact ends_statsVisit visit hw

theorem indexStatistics_eq : v.indexStatistics.fieldsCount = total TocIndexStats.fieldsCount v.indexStats ∧
    v.indexStatistics.duplicatesCount = total TocIndexStats.duplicatesCount v.indexStats := by
  have hfold : ∀ (l : List (Nat × TocIndexStats)) (sum : TocIndexStats),
      (l.foldl (fun sum it => sum.add it.2) sum).fieldsCount = sum.fieldsCount + total TocIndexStats.fieldsCount l ∧
      (l.foldl (fun sum it => sum.add it.2) sum).duplicatesCount =
        sum.duplicatesCount + total TocIndexStats.duplicatesCount l := by
    intro l
    induction l with
    | nil => exact fun _ => ⟨rfl, rfl⟩
    | cons it l ih =>
      intro sum
      obtain ⟨hfields, hduplicates⟩ := ih (sum.add it.2)
      rw [List.foldl_cons, hfields, hduplicates]
      simp [total, TocIndexStats.add, Nat.add_assoc]
  simpa [TocStatsReportVisitor.indexStatistics] using hfold v.indexStats {}

theorem statsAccount_new (unset : PathName) : StatsAccount facts directory includeReferenced base {}
    (TocStatsReportVisitor.new directory includeReferenced base unset) := by
  refine ⟨rfl, rfl, rfl, ?_, [], [], ?_⟩
  · constructor <;> simp [TocStatsReportVisitor.new, VisitedDatum.reachable, firsts, Ledger.get, total]
  · constructor <;> simp [TocStatsReportVisitor.new]

/-- After any visits the fields of the indexes that are no duplicates are as many as the active ones, and as the uses of
the index files and of the data files are; a file without use has none of the first data of an identity; and the size
totals grew by the sizes of files that are taken once each. -/
theorem statistics_account {visits : List StatsVisit} {unset : PathName}
    (h : (visits.forM (·.run facts)).run (TocStatsReportVisitor.new directory includeReferenced base unset) = .ok () v) :
    let reachable := VisitedDatum.reachable (Shown.countedData facts directory includeReferenced visits)
    v.active.Nodup ∧ (∀ it ∈ v.indexStats, it.2.duplicatesCount ≤ it.2.fieldsCount) ∧
      (v.indexStats.map fun it => it.2.fieldsCount - it.2.duplicatesCount).sum = v.active.length ∧
      v.indexStatistics.fieldsCount = v.active.length + v.indexStatistics.duplicatesCount ∧
      (v.indexUsage.map Prod.snd).sum = v.active.length ∧ (v.dataUsage.map Prod.snd).sum = v.active.length ∧
      (v.indexUsage.map Prod.fst).Nodup ∧ (v.dataUsage.map Prod.fst).Nodup ∧
      (∀ path, get 0 path v.indexUsage = 0 ↔ ∀ d ∈ reachable, d.index.path ≠ path) ∧
      (∀ path, get 0 path v.dataUsage = 0 ↔ ∀ d ∈ reachable, d.dataPath ≠ path) ∧
      ∃ data index, SizesAccount facts base v v.dbStats data index := by
  obtain ⟨hdirectory, hincluded, hcurrent, hcounts, hsizes⟩ := (ends_statsVisits visits (statsAccount_new unset)).ok h
  have hnodup : (v.active.map some).Nodup := by
    rw [hcounts.active]
    exact nodup_map_firsts
  have hsub := total_sub hcounts.duplicates
  have hfields := hcounts.fields
  refine ⟨hnodup.of_map some, hcounts.duplicates, ?_, ?_, hcounts.indexTotal, hcounts.dataTotal, hcounts.indexUsageOnce,
    hcounts.dataUsageOnce, ?_, ?_, hsizes⟩
  · change total (fun a => a.fieldsCount - a.duplicatesCount) v.indexStats = _
    omega
  · rw [indexStatistics_eq.1, indexStatistics_eq.2]
    exact hfields
  · intro path
    rw [hcounts.indexUsage, List.length_eq_zero_iff, List.filter_eq_nil_iff]
    simp [Shown.countedData]
  · intro path
    rw [hcounts.dataUsage, List.length_eq_zero_iff, List.filter_eq_nil_iff]
    simp [Shown.countedData]

end Visits

section Purge

def purgedPath (stem : String) : PathName := ⟨"/fdb/od", { stem }⟩

def purgedFacts : FileFacts where
  sameAs a b := a == b
  size _ := .ok 100

def purgedDatum (stem fieldFingerprint : String) : StatsVisit :=
  .datum (.ofPath (purgedPath stem) 0 10) fieldFingerprint

/-- A file is masked, and of three data the last repeats the first. -/
def purgedVisits : List StatsVisit :=
  [.masked [purgedPath "old.index"] [purgedPath "old.data"], .index ⟨0, {}, purgedPath "an.index"⟩,
    purgedDatum "new.data" "130", purgedDatum "new.data" "131", purgedDatum "old.data" "130"]

theorem statistics_account_purge : ∃ v,
    (purgedVisits.forM (·.run purgedFacts)).run (.new "/fdb/od" false {} ⟨"/", { stem := "" }⟩) = .ok () v ∧
      (v.indexStats.map fun it => it.2.fieldsCount - it.2.duplicatesCount).sum = v.active.length ∧
      (v.indexUsage.map Prod.snd).sum = v.active.length ∧ (v.dataUsage.map Prod.snd).sum = v.active.length ∧
      ∃ data index, SizesAccount purgedFacts {} v v.dbStats data index := by
  have hok : (value ((purgedVisits.forM (·.run purgedFacts)).run
      (.new "/fdb/od" false {} ⟨"/", { stem := "" }⟩))).isOk = true := by decide +kernel
  cases h : (purgedVisits.forM (·.run purgedFacts)).run (.new "/fdb/od" false {} ⟨"/", { stem := "" }⟩) with
  | error e t =>
    rw [h] at hok
    cases hok
  | ok a v =>
    obtain ⟨-, -, hfields, -, hindex, hdata, -, -, -, -, hsizes⟩ := statistics_account h
    exact ⟨v, rfl, hfields, hindex, hdata, hsizes⟩

example : (final ((purgedVisits.forM (·.run purgedFacts)).run
    (.new "/fdb/od" false {} ⟨"/", { stem := "" }⟩))).dataUsage.map (fun p => (p.1.baseName.stem, p.2)) =
      [("old.data", 0), ("new.data", 2)] := by decide +kernel

end Purge

end Fdb5
