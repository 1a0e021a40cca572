import Mathlib.Data.List.Infix
import Mathlib.Data.List.Sort
import Fdb5.Toc.RootManager

/-! Moving a database: what `TocStore` and `TocMoveVisitor` put into the queue of copies. -/
namespace Fdb5

open Effect

/-- A directory, as the components of its real path. -/
abbrev Directory := List String

/-- The components that a string adds to a path. -/
def components (path : String) : Directory := ((path.toList.splitOn '/').map String.ofList).filter (· ≠ "")

structure DirEntry where
  name : String
  size : Nat := 0
deriving DecidableEq

/-- What `readdir` gives: each name once. -/
structure Listing where
  entries : List DirEntry
  nodup : (entries.map DirEntry.name).Nodup

/-- `FileCopy` of a file; the copy of no file is the directory itself. -/
structure FileCopy where
  src : Directory
  dest : Directory
  sync : Bool := false
deriving DecidableEq

def FileCopy.of (srcPath destPath : Directory) (fileName : String) : FileCopy := ⟨srcPath ++ [fileName], destPath ++ [fileName], false⟩

/-- `strstr(name, part)`. -/
def strstr (name part : String) : Bool := part.toList <:+: name.toList

/-- `catalogue_` of a database at `parent / name`, the `dest_` of the visitor, and the two root managers. -/
structure TocMoveVisitor where
  parent : Directory
  name : String
  key : Key
  scheme : String := "file"
  destPath : Directory
  catalogueManager : RootManager
  storeManager : RootManager
  tree : RootTree
  sameAs : Directory → Directory → Bool
  locked : String → Bool := fun _ => false

/-- The directories, and the queue. -/
structure MoveState where
  dirs : Directory → Option Listing
  queue : List FileCopy := []

abbrev MoveAct := EStateM Failure MoveState

/-- `readdir` until it ends, of what `opendir` returns without a check. -/
def readdir (p : Directory) : MoveAct (List DirEntry) := do
  match (← get).dirs p with
  | some listing => return listing.entries
  | none => throw (.undefinedBehaviour "readdir(NULL)")

def mkdir (p : Directory) : MoveAct Unit :=
  modify fun s => if (s.dirs p).isSome then s else { s with dirs := Function.update s.dirs p (some ⟨[], .nil⟩) }

def emplace (copies : List FileCopy) : MoveAct Unit := modify fun s => { s with queue := s.queue ++ copies }

namespace TocMoveVisitor

def basePath (v : TocMoveVisitor) : Directory := v.parent ++ [v.name]

/-- `destPath / catalogue_.basePath().baseName(true)`. -/
def destDb (v : TocMoveVisitor) : Directory := v.destPath ++ [v.name]

def catalogueRoots (v : TocMoveVisitor) : Except Failure (List String) := v.catalogueManager.canMoveToRoots v.tree v.key

def storeRoots (v : TocMoveVisitor) : Except Failure (List String) := v.storeManager.canMoveToRoots v.tree v.key

/-- `root.sameAs(destPath)`. -/
def isDest (v : TocMoveVisitor) (root : String) : Bool := v.sameAs (components root) v.destPath

end TocMoveVisitor

namespace MovedStore

open TocMoveVisitor

variable (v : TocMoveVisitor)

/-- `directory_ / key.valuesToString()`; `buildStore` gives the store the URI of the catalogue, and its directory is the
parent of that path. -/
def srcDb : Except Failure Directory := do return v.parent ++ components (← v.key.valuesToString)

/-- `destPath / key.valuesToString()`. -/
def destDb : Except Failure Directory := do return v.destPath ++ components (← v.key.valuesToString)

def isData (name : String) : Bool := strstr name ".data"

/-- The data files, the largest first. -/
def copies (src dest : Directory) (entries : List DirEntry) : List FileCopy :=
  ((entries.filter fun e => isData e.name).mergeSort fun a b => b.size ≤ a.size).map fun e => .of src dest e.name

def moveToRoot : MoveAct Unit := do
  let src ← lift (srcDb v)
  let dest ← lift (destDb v)
  mkdir dest
  let entries ← readdir src
  emplace (copies src dest entries)

def moveTo : MoveAct Unit := do
  let roots ← lift v.storeRoots
  roots.forM fun root => if v.isDest root then moveToRoot v else pure ()

/-- `(src_db / name).unlink(false)`. -/
def unlink (src : Directory) (name : String) (s : MoveState) : MoveState :=
  { s with dirs := Function.update s.dirs src ((s.dirs src).map fun l =>
    ⟨l.entries.filter fun e => e.name ≠ name, l.nodup.sublist (List.filter_sublist.map _)⟩) }

/-- `remove(key)`. -/
def remove : MoveAct Unit := do
  let src ← lift (srcDb v)
  let entries ← readdir src
  entries.forM fun e => if isData e.name then modify (unlink src e.name) else pure ()

/-- The schemes of a destination that can be moved to. -/
def schemes : List String := ["", "toc", "file", "unix"]

def canMoveTo : Except Failure Unit := do
  let roots ← if v.scheme ∈ schemes then v.storeRoots else pure []
  if roots.any v.isDest then return else throw (.userError "Destination cannot be used to archive a DB")

end MovedStore

namespace TocMoveVisitor

def isCatalogue (name : String) : Bool := strstr name ".index" || strstr name "toc." || strstr name "schema"

def isControl (name : String) : Bool := strstr name ".lock" || strstr name "duplicates.allow"

variable (v : TocMoveVisitor)

/-- The copies of the catalogue's files, with the toc after the other files and the control files after it, and then the
folder. -/
def copies (entries : List DirEntry) : List FileCopy :=
  (entries.filter fun e => isCatalogue e.name).map (fun e => .of v.basePath v.destDb e.name) ++
    { FileCopy.of v.basePath v.destDb "toc" with sync := true } ::
    (entries.filter fun e => isControl e.name).map (fun e => .of v.basePath v.destDb e.name) ++ [⟨v.basePath, [], false⟩]

def moveRoot : MoveAct Unit := do
  mkdir v.destDb
  emplace (v.copies (← readdir v.basePath))

def move : MoveAct Unit := do
  MovedStore.moveTo v
  let roots ← lift v.catalogueRoots
  roots.forM fun root => if v.isDest root then v.moveRoot else pure ()

/-- The checks of `visitDatabase`. -/
def check : MoveAct Unit := do
  let entries ← readdir v.basePath
  if entries.any fun e => strstr e.name ".index" && v.locked e.name then throw (.userError "Index file is locked")
  if v.scheme ∉ MovedStore.schemes then throw (.userError "Destination not supported")
  let roots ← lift v.catalogueRoots
  if roots.any v.isDest = false then throw (.userError "Destination cannot be used to archive a DB")
  if ((← get).dirs v.destDb).isSome then throw (.userError "Target folder already exist!")

def visitDatabase : MoveAct Unit := do
  v.check
  lift (MovedStore.canMoveTo v)
  v.move

end TocMoveVisitor

/-- The files that are made in a database's directory; `unique` is what `PathName::unique` adds. -/
inductive DbFile where
  | toc
  | subToc (unique : String)
  | schema
  | index (values unique : String)
  | data (values unique : String)
  | control (i : ControlIdentifier)

def DbFile.name : DbFile → String
  | toc => "toc"
  | subToc unique => "toc." ++ unique
  | schema => "schema"
  | index values unique => values ++ "." ++ unique ++ ".index"
  | data values unique => values ++ "." ++ unique ++ ".data"
  | control i => i.controlFile.stem ++ i.controlFile.extension

namespace TocMoveVisitor

variable (v : TocMoveVisitor)

/-- The store copies and removes in the directories that the visitor copies. -/
def SameDirectories : Prop := MovedStore.srcDb v = .ok v.basePath ∧ MovedStore.destDb v = .ok v.destDb

/-- Copies of a file of the database's directory. -/
def copyCount (queue : List FileCopy) (name : String) : Nat :=
  queue.countP fun c => c.src = v.basePath ++ [name] && c.dest = v.destDb ++ [name]

/-- Each file of the database is to be copied once. -/
def CopiedOnce (listing : Listing) (queue : List FileCopy) : Prop :=
  ∀ file : DbFile, file.name ∈ listing.entries.map DirEntry.name → v.copyCount queue file.name = 1

/-- The last component of the directory is what the key's values make. -/
def NamedByValues : Prop := ∃ values, v.key.valuesToString = .ok values ∧ components values = [v.name]

/-- The name has the mark of one kind of file, for which one root is the destination. -/
def OneKind (name : String) : Prop :=
  [MovedStore.isData name, isCatalogue name, name = "toc", isControl name].count true = 1 ∧
    ∃ roots, (if MovedStore.isData name then v.storeRoots else v.catalogueRoots) = .ok roots ∧ roots.countP v.isDest = 1

section Directories

variable {v}

theorem sameDirectories_iff : v.SameDirectories ↔ v.NamedByValues := by
  constructor
  · rintro ⟨hsrc, -⟩
    rw [MovedStore.srcDb] at hsrc
    obtain ⟨values, hvalues, heq⟩ := except_bind_ok.mp hsrc
    obtain heq : v.parent ++ components values = v.parent ++ [v.name] := Except.ok.inj heq
    exact ⟨values, hvalues, List.append_cancel_left heq⟩
  · rintro ⟨values, hvalues, heq⟩
    constructor
    · rw [MovedStore.srcDb, hvalues]
      exact congrArg (fun c => Except.ok (v.parent ++ c)) heq
    · rw [MovedStore.destDb, hvalues]
      exact congrArg (fun c => Except.ok (v.destPath ++ c)) heq

end Directories

section Remove

variable {v} {s t : MoveState} {src dest : Directory} {listing left : Listing} {gone gone' : DirEntry → Bool}

/-- Of the directory's files these are unlinked, and no other is. -/
def Unlinked (src : Directory) (listing : Listing) (gone : DirEntry → Bool) (s t : MoveState) : Prop :=
  t.queue = s.queue ∧ (∀ p, p ≠ src → t.dirs p = s.dirs p) ∧
    ∃ left, t.dirs src = some left ∧ left.entries = listing.entries.filter fun e => !gone e

theorem Unlinked.congr (h : Unlinked src listing gone s t) (hgone : ∀ e ∈ listing.entries, gone e = gone' e) :
    Unlinked src listing gone' s t := by
  obtain ⟨hqueue, hothers, left, hleft, hentries⟩ := h
  exact ⟨hqueue, hothers, left, hleft, hentries.trans (List.filter_congr fun e he => by rw [hgone e he])⟩

theorem Unlinked.unlink (h : Unlinked src listing gone s t) (name : String) :
    Unlinked src listing (fun e => gone e || e.name == name) s (MovedStore.unlink src name t) := by
  obtain ⟨hqueue, hothers, left, hleft, hentries⟩ := h
  refine ⟨hqueue, fun p hp => by simp [MovedStore.unlink, hp, hothers p hp], ?_⟩
  refine ⟨⟨left.entries.filter fun e => e.name ≠ name, left.nodup.sublist (List.filter_sublist.map _)⟩,
    by simp [MovedStore.unlink, hleft], ?_⟩
  change left.entries.filter _ = _
  rw [hentries, List.filter_filter]
  refine List.filter_congr fun e _ => ?_
  by_cases he : e.name = name <;> simp [he]

/-- The store unlinks the data files of its directory, and nothing else. -/
theorem ends_remove (hsrc : MovedStore.srcDb v = .ok src) (hs : s.dirs src = some listing) :
    Ends (MovedStore.remove v) s (fun _ t => Unlinked src listing (fun e => MovedStore.isData e.name) s t)
      fun _ _ => False := by
  rw [MovedStore.remove, hsrc]
  simp only [ends_bind, ends_lift, Except.ok.injEq, reduceCtorEq, implies_true, and_true, forall_eq', readdir, hs, ends_get,
    ends_pure, false_implies]
  have hturn : ∀ done, ∀ e ∈ listing.entries, ∀ t,
      Unlinked src listing (fun e => MovedStore.isData e.name && done.any fun a => e.name == a.name) s t →
        Ends (if MovedStore.isData e.name then modify (MovedStore.unlink src e.name) else pure () : MoveAct Unit) t
          (fun _ => Unlinked src listing
            (fun a => MovedStore.isData a.name && (done ++ [e]).any fun b => a.name == b.name) s) fun _ _ => False := by
    intro done e _ t ht
    rw [ends_ite]
    refine ⟨fun hdata => (ends_modify _).mpr ((ht.unlink e.name).congr fun a _ => ?_), fun hdata => ht.congr fun a _ => ?_⟩
    · by_cases ha : a.name = e.name
      · simp [ha, hdata]
      · simp [beq_eq_false_iff_ne.mpr ha]
    · by_cases ha : a.name = e.name
      · simp [ha, hdata]
      · simp [beq_eq_false_iff_ne.mpr ha]
  have hloop := ends_forM_prefix hturn [] s ⟨rfl, fun _ _ => rfl, listing, hs, by simp⟩
  refine hloop.mono (fun _ t ht => ht.congr fun e he => ?_) fun _ _ h => h
  have hany : (listing.entries.any fun a => e.name == a.name) = true := List.any_eq_true.mpr ⟨e, he, by simp⟩
  simp [hany]

/-- The files that are unlinked are those that the store copies. -/
theorem Unlinked.iff_copied (h : Unlinked src listing (fun e => MovedStore.isData e.name) s t) {e : DirEntry}
    (he : e ∈ listing.entries) : (∃ left, t.dirs src = some left ∧ e ∉ left.entries) ↔
      FileCopy.of src dest e.name ∈ MovedStore.copies src dest listing.entries := by
  obtain ⟨-, -, left, hleft, hentries⟩ := h
  have hcopied : FileCopy.of src dest e.name ∈ MovedStore.copies src dest listing.entries ↔ MovedStore.isData e.name := by
    simp only [MovedStore.copies, List.mem_map, List.mem_mergeSort, List.mem_filter]
    constructor
    · rintro ⟨a, ⟨-, hdata⟩, hcopy⟩
      have hname : a.name = e.name := by simpa [FileCopy.of] using hcopy
      exact hname ▸ hdata
    · exact fun hdata => ⟨e, ⟨he, hdata⟩, rfl⟩
  simp [hcopied, hleft, hentries, he]

end Remove

section Queue

variable {v} {roots : List String} {x : MoveAct Unit} {part : List FileCopy} {s : MoveState} {listing : Listing}

/-- A loop over the roots does its part for each that is the destination. -/
theorem ends_eachDest (hx : ∀ s, s.dirs v.basePath = some listing → Ends x s
      (fun _ t => t.dirs v.basePath = some listing ∧ t.queue = s.queue ++ part) fun _ _ => True) :
    ∀ s, s.dirs v.basePath = some listing → Ends (roots.forM fun root => if v.isDest root then x else pure ()) s
      (fun _ t => t.dirs v.basePath = some listing ∧
        t.queue = s.queue ++ (List.replicate (roots.countP v.isDest) part).flatten) fun _ _ => True := by
  induction roots with
  | nil =>
    intro s hs
    exact ⟨hs, by simp⟩
  | cons root roots ih =>
    intro s hs
    change Ends ((if v.isDest root then x else pure ()) >>= fun _ => roots.forM _) s _ _
    rw [ends_bind]
    by_cases hroot : v.isDest root = true
    · rw [if_pos hroot]
      apply (hx s hs).mono ?_ fun _ _ h => h
      rintro _ t ⟨ht, hqueue⟩
      apply (ih t ht).mono ?_ fun _ _ h => h
      rintro _ u ⟨hu, hrest⟩
      refine ⟨hu, ?_⟩
      rw [hrest, hqueue, List.countP_cons_of_pos hroot, List.replicate_succ, List.flatten_cons, List.append_assoc]
    · rw [if_neg hroot, ends_pure]
      apply (ih s hs).mono ?_ fun _ _ h => h
      rintro _ u ⟨hu, hrest⟩
      exact ⟨hu, by rw [hrest, List.countP_cons_of_neg hroot]⟩

theorem ends_mkdir {p : Directory} (hs : s.dirs v.basePath = some listing) :
    Ends (mkdir p) s (fun _ t => t.dirs v.basePath = some listing ∧ t.queue = s.queue) fun _ _ => True := by
  unfold mkdir
  rw [ends_modify]
  split
  · exact ⟨hs, rfl⟩
  · rename_i hnone
    have hne : v.basePath ≠ p := by
      rintro rfl
      simp [hs] at hnone
    exact ⟨by simp [hne, hs], rfl⟩

theorem ends_readdir (hs : s.dirs v.basePath = some listing) :
    Ends (readdir v.basePath) s (fun entries t => t = s ∧ entries = listing.entries) fun _ _ => True := by
  simp [readdir, hs]

theorem ends_moveToRoot (hsame : v.SameDirectories) (hs : s.dirs v.basePath = some listing) :
    Ends (MovedStore.moveToRoot v) s (fun _ t => t.dirs v.basePath = some listing ∧
      t.queue = s.queue ++ MovedStore.copies v.basePath v.destDb listing.entries) fun _ _ => True := by
  unfold MovedStore.moveToRoot
  rw [hsame.1, hsame.2]
  simp only [ends_bind, ends_lift, Except.ok.injEq, reduceCtorEq, implies_true, and_true, forall_eq']
  apply (ends_mkdir hs).mono ?_ fun _ _ h => h
  rintro _ t ⟨ht, hqueue⟩
  apply (ends_readdir ht).mono ?_ fun _ _ h => h
  rintro _ _ ⟨rfl, rfl⟩
  exact ⟨ht, congrArg (· ++ _) hqueue⟩

theorem ends_moveRoot (hs : s.dirs v.basePath = some listing) :
    Ends v.moveRoot s (fun _ t => t.dirs v.basePath = some listing ∧ t.queue = s.queue ++ v.copies listing.entries)
      fun _ _ => True := by
  unfold moveRoot
  rw [ends_bind]
  apply (ends_mkdir hs).mono ?_ fun _ _ h => h
  rintro _ t ⟨ht, hqueue⟩
  rw [ends_bind]
  apply (ends_readdir ht).mono ?_ fun _ _ h => h
  rintro _ _ ⟨rfl, rfl⟩
  exact ⟨ht, congrArg (· ++ _) hqueue⟩

theorem ends_check (hs : s.dirs v.basePath = some listing) : Ends v.check s
    (fun _ t => t = s ∧ ∃ catalogues, v.catalogueRoots = .ok catalogues ∧ 0 < catalogues.countP v.isDest) fun _ _ => True := by
  unfold check
  rw [ends_bind]
  apply (ends_readdir hs).mono ?_ fun _ _ h => h
  rintro _ _ ⟨rfl, rfl⟩
  simp only [ends_bind, ends_ite, ends_throw, ends_pure, ends_lift, ends_get]
  refine ⟨fun _ => trivial, fun _ => ⟨fun _ => trivial, fun _ => ⟨fun catalogues hroots => ⟨fun _ => trivial, fun hany => ?_⟩,
    fun _ _ => trivial⟩⟩⟩
  have hpos : 0 < catalogues.countP v.isDest := by
    rw [List.countP_pos_iff]
    simpa using hany
  exact ⟨fun _ => trivial, fun _ => ⟨trivial, catalogues, hroots, hpos⟩⟩

theorem storeRoots_of_canMoveTo (h : MovedStore.canMoveTo v = .ok ()) :
    ∃ stores, v.storeRoots = .ok stores ∧ 0 < stores.countP v.isDest := by
  rw [MovedStore.canMoveTo] at h
  by_cases hscheme : v.scheme ∈ MovedStore.schemes
  · rw [if_pos hscheme] at h
    obtain ⟨stores, hroots, hany⟩ := except_bind_ok.mp h
    refine ⟨stores, hroots, ?_⟩
    rw [List.countP_pos_iff]
    by_contra hnone
    have hnot : stores.any v.isDest = false := by simpa using hnone
    simp only [hnot] at hany
    cases hany
  · rw [if_neg hscheme] at h
    cases h

/-- What a move has queued, once for each root that is the destination. -/
theorem ends_visitDatabase (hsame : v.SameDirectories) (hs : s.dirs v.basePath = some listing) :
    Ends v.visitDatabase s (fun _ t => ∃ stores catalogues, v.storeRoots = .ok stores ∧ v.catalogueRoots = .ok catalogues ∧
        0 < stores.countP v.isDest ∧ 0 < catalogues.countP v.isDest ∧
        t.queue = s.queue ++
          (List.replicate (stores.countP v.isDest) (MovedStore.copies v.basePath v.destDb listing.entries)).flatten ++
          (List.replicate (catalogues.countP v.isDest) (v.copies listing.entries)).flatten)
      fun _ _ => True := by
  unfold visitDatabase
  rw [ends_bind]
  apply (ends_check hs).mono ?_ fun _ _ h => h
  rintro _ _ ⟨rfl, catalogues, hcatalogues, hpos⟩
  rw [ends_bind, ends_lift]
  refine ⟨fun _ hcan => ?_, fun _ _ => trivial⟩
  obtain ⟨stores, hstores, hpos'⟩ := storeRoots_of_canMoveTo hcan
  unfold move MovedStore.moveTo
  simp only [ends_bind, ends_lift, hstores, hcatalogues, Except.ok.injEq, reduceCtorEq, implies_true, and_true, forall_eq']
  apply (ends_eachDest (fun _ h => ends_moveToRoot hsame h) _ hs).mono ?_ fun _ _ h => h
  rintro _ t ⟨ht, hqueue⟩
  apply (ends_eachDest (fun _ h => ends_moveRoot h) _ ht).mono ?_ fun _ _ h => h
  rintro _ u ⟨-, hrest⟩
  exact ⟨stores, catalogues, rfl, rfl, hpos', hpos, by rw [hrest, hqueue]⟩

end Queue

section Counts

variable {v} {entries : List DirEntry} {name : String} {p : String → Bool} {queue queue' : List FileCopy} {n : Nat}

theorem copyCount_append : v.copyCount (queue ++ queue') name = v.copyCount queue name + v.copyCount queue' name :=
  List.countP_append

theorem copyCount_replicate : v.copyCount (List.replicate n queue).flatten name = n * v.copyCount queue name := by
  simp [copyCount, List.countP_flatten]

/-- A file that is listed is copied once by a loop that takes it. -/
theorem copyCount_filter (hnodup : (entries.map DirEntry.name).Nodup) (hmem : name ∈ entries.map DirEntry.name) :
    v.copyCount ((entries.filter fun e => p e.name).map fun e => .of v.basePath v.destDb e.name) name = (p name).toNat := by
  have hcount : (entries.map DirEntry.name).count name = 1 := List.count_eq_one_of_mem hnodup hmem
  have hcopies : v.copyCount ((entries.filter fun e => p e.name).map fun e => .of v.basePath v.destDb e.name) name =
      ((entries.map DirEntry.name).filter p).count name := by
    rw [copyCount, List.countP_map, List.filter_map, List.count, List.countP_map]
    apply List.countP_congr
    intro e _
    simp [FileCopy.of]
  rw [hcopies]
  cases hp : p name with
  | true => rw [List.count_filter hp, hcount, Bool.toNat_true]
  | false =>
    rw [Bool.toNat_false]
    exact List.count_eq_zero_of_not_mem fun h => by simp [(List.mem_filter.mp h).2] at hp

theorem copyCount_data (hnodup : (entries.map DirEntry.name).Nodup) (hmem : name ∈ entries.map DirEntry.name) :
    v.copyCount (MovedStore.copies v.basePath v.destDb entries) name = (MovedStore.isData name).toNat := by
  rw [← copyCount_filter (p := MovedStore.isData) hnodup hmem]
  exact ((List.mergeSort_perm _ _).map _).countP_eq _

theorem copyCount_copies (hnodup : (entries.map DirEntry.name).Nodup) (hmem : name ∈ entries.map DirEntry.name) :
    v.copyCount (v.copies entries) name =
      (isCatalogue name).toNat + (decide (name = "toc")).toNat + (isControl name).toNat := by
  have htoc : v.copyCount [{ FileCopy.of v.basePath v.destDb "toc" with sync := true }] name = (decide (name = "toc")).toNat := by
    by_cases hname : name = "toc" <;> simp [copyCount, FileCopy.of, hname, eq_comm (a := "toc")]
  have hfolder : v.copyCount [⟨v.basePath, [], false⟩] name = 0 := by
    simp [copyCount]
  have hsplit : v.copies entries = (entries.filter fun e => isCatalogue e.name).map (fun e => .of v.basePath v.destDb e.name) ++
      ([{ FileCopy.of v.basePath v.destDb "toc" with sync := true }] ++
        ((entries.filter fun e => isControl e.name).map (fun e => .of v.basePath v.destDb e.name) ++
          [⟨v.basePath, [], false⟩])) := by
    simp [copies]
  rw [hsplit, copyCount_append, copyCount_append, copyCount_append, copyCount_filter hnodup hmem, htoc,
    copyCount_filter hnodup hmem, hfolder]
  omega

end Counts

section Names

variable {v} {name : String}

/-- A file is to be copied once if its name has the mark of one kind. -/
theorem copied_iff {stores catalogues : List String} (hstores : v.storeRoots = .ok stores)
    (hcatalogues : v.catalogueRoots = .ok catalogues) (hpos : 0 < stores.countP v.isDest)
    (hpos' : 0 < catalogues.countP v.isDest) :
    stores.countP v.isDest * (MovedStore.isData name).toNat + catalogues.countP v.isDest *
      ((isCatalogue name).toNat + (decide (name = "toc")).toNat + (isControl name).toNat) = 1 ↔ v.OneKind name := by
  have hone : (∃ roots, (if MovedStore.isData name then v.storeRoots else v.catalogueRoots) = .ok roots ∧
      roots.countP v.isDest = 1) ↔
      if MovedStore.isData name then stores.countP v.isDest = 1 else catalogues.countP v.isDest = 1 := by
    rw [hstores, hcatalogues]
    split <;> simp
  rw [OneKind, hone]
  generalize stores.countP v.isDest = n at hpos ⊢
  generalize catalogues.countP v.isDest = m at hpos' ⊢
  cases MovedStore.isData name <;> cases isCatalogue name <;> cases decide (name = "toc") <;> cases isControl name <;>
    simp <;> omega

end Names

/-- The store and the visitor work on the same directories exactly if the directory has the name that the key's values
make; and a move that succeeds then queues each file once exactly if no name has the marks of two kinds and one root is
the destination. -/
theorem moves_iff (v : TocMoveVisitor) (dirs : Directory → Option Listing) : (v.SameDirectories ↔ v.NamedByValues) ∧
    ∀ t listing, dirs v.basePath = some listing → v.visitDatabase.run { dirs } = .ok () t →
      (v.SameDirectories ∧ v.CopiedOnce listing t.queue ↔ v.NamedByValues ∧
        ∀ file : DbFile, file.name ∈ listing.entries.map DirEntry.name → v.OneKind file.name) := by
  refine ⟨sameDirectories_iff, fun t listing hlisting hrun => ?_⟩
  rw [← sameDirectories_iff]
  apply and_congr_right
  intro hsame
  obtain ⟨stores, catalogues, hstores, hcatalogues, hpos, hpos', ht⟩ := (ends_visitDatabase hsame hlisting).ok hrun
  apply forall_congr'
  intro file
  apply imp_congr_right
  intro hmem
  rw [ht, List.nil_append, copyCount_append, copyCount_replicate, copyCount_replicate,
    copyCount_data listing.nodup hmem, copyCount_copies listing.nodup hmem]
  exact copied_iff hstores hcatalogues hpos hpos'

end TocMoveVisitor

/-- A naming table that joins the values with a dash. -/
def dashNames (space : FileSpace) : RootManager where
  regex _ _ := true
  dbPathNamers := [⟨(∅ : StringDict).insert "class" "od" |>.insert "expver" "[0-9]*", "{class}-{expver}"⟩]
  spacesTable := [space]

/-- A file space of two roots. -/
def moveSpace : FileSpace where
  handler := "Default"
  roots := [{ path := "/data1" }, { path := "/data2" }]

def odKey : Key where
  keys := (∅ : StringDict).insert "class" "od" |>.insert "expver" "0001"
  names := ["class", "expver"]
  canonical := true

/-- A database of a naming table, which is to be moved from the first root to the second. -/
def dashMove : TocMoveVisitor where
  parent := ["data1"]
  name := "od-0001"
  key := odKey
  destPath := ["data2"]
  catalogueManager := dashNames moveSpace
  storeManager := dashNames moveSpace
  tree := { dirs := fun _ => true }
  sameAs p q := p = q

/-- The store looks for the data files in a directory that is not the database's. -/
theorem move_elsewhere : (dashNames moveSpace).dbPathName odKey = .ok dashMove.name ∧
    MovedStore.srcDb dashMove = .ok ["data1", "od:0001"] ∧ ¬ dashMove.SameDirectories := by
  refine ⟨by decide +kernel, by decide +kernel, ?_⟩
  intro h
  have hsrc : MovedStore.srcDb dashMove = .ok ["data1", "od:0001"] := by decide +kernel
  have heq := Except.ok.inj (hsrc.symm.trans h.1)
  revert heq
  decide +kernel

/-- The same database with the name of its values. -/
def colonMove : TocMoveVisitor := { dashMove with
  name := "od:0001"
  catalogueManager := { dashNames moveSpace with dbPathNamers := [] }
  storeManager := { dashNames moveSpace with dbPathNamers := [] } }

/-- A file of each kind. -/
def colonListing : Listing where
  entries := [⟨"toc", 1⟩, ⟨"schema", 1⟩, ⟨"oper.1.index", 1⟩, ⟨"oper.1.data", 1⟩, ⟨"archive.lock", 1⟩]
  nodup := by decide +kernel

def colonDirs (p : Directory) : Option Listing := if p = colonMove.basePath then some colonListing else none

theorem moves_iff_colon : ∃ t, colonMove.visitDatabase.run { dirs := colonDirs } = .ok () t ∧
    colonMove.SameDirectories ∧ colonMove.CopiedOnce colonListing t.queue := by
  obtain ⟨t, hrun⟩ : ∃ t, colonMove.visitDatabase.run { dirs := colonDirs } = .ok () t := ⟨_, rfl⟩
  have hnamed : colonMove.NamedByValues := ⟨"od:0001", by decide +kernel, by decide +kernel⟩
  have hkinds : ∀ name ∈ colonListing.entries.map DirEntry.name, colonMove.OneKind name := by
    intro name hname
    have hmark : [MovedStore.isData name, TocMoveVisitor.isCatalogue name, name = "toc", TocMoveVisitor.isControl name].count true = 1 := by
      revert name
      decide +kernel
    refine ⟨hmark, ["/data1", "/data2"], ?_, by decide +kernel⟩
    split <;> decide +kernel
  have hmove := (TocMoveVisitor.moves_iff colonMove colonDirs).2 t colonListing rfl hrun
  exact ⟨t, hrun, hmove.mpr ⟨hnamed, fun file hfile => hkinds _ hfile⟩⟩

end Fdb5
