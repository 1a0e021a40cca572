import Fdb5.Toc.Handler

/-! Which records of a toc are hidden, and what the others contribute to the list of indexes. -/
namespace Fdb5

open Effect

namespace Disk

variable {d : Disk} {p : PathName}

theorem pathExists_of_toc {log : List TocRecord} (h : d.toc p = some log) :
    d.pathExists p = true := by
  induction d using induction_on generalizing log with
  | empty => cases h
  | append d w ih =>
    rw [toc_append] at h
    rw [pathExists_append]
    cases w with
    | toc q r =>
      simp only [Write.onToc, Write.onExists, Write.path] at h ⊢
      split at h
      · simp [*]
      · simp [*, ih h]
    | remove q =>
      simp only [Write.onToc, Write.onExists] at h ⊢
      split at h
      · cases h
      · simp [*, ih h]
    | segment | data | schema => simp [Write.onExists, ih h]

end Disk

namespace TocHandler

variable {d : Disk} {version depth : Nat} {tocPath : PathName} {key : Key}
  {log seen rest : List TocRecord} {r : TocRecord} {n : BaseName × Nat}

theorem mem_maskedBy : n ∈ maskedBy seen r ↔
    (∃ path offset, r = .clear path offset ∧ (path.baseName, offset) = n) ∨
    r = .clearAll ∧ n ∈ allMaskableEntries seen := by
  cases r <;> simp [maskedBy, eq_comm]

theorem mem_populateFrom : n ∈ populateFrom seen log ↔
    (∃ path offset, .clear path offset ∈ log ∧ (path.baseName, offset) = n) ∨
    ∃ pre post, log = pre ++ .clearAll :: post ∧ n ∈ allMaskableEntries (seen ++ pre) := by
  induction log generalizing seen with
  | nil => simp [populateFrom]
  | cons r rest ih =>
    rw [populateFrom, List.mem_append, mem_maskedBy, ih]
    constructor
    · rintro ((⟨path, offset, rfl, he⟩ | ⟨rfl, hn⟩) | ⟨path, offset, hm, he⟩ | ⟨pre, post, hl, hn⟩)
      · exact .inl ⟨path, offset, .head _, he⟩
      · exact .inr ⟨[], rest, rfl, by simpa using hn⟩
      · exact .inl ⟨path, offset, .tail _ hm, he⟩
      · exact .inr ⟨r :: pre, post, by rw [hl]; rfl, by simpa using hn⟩
    · rintro (⟨path, offset, hm, he⟩ | ⟨pre, post, hl, hn⟩)
      · rcases List.mem_cons.mp hm with rfl | hm
        · exact .inl (.inl ⟨path, offset, rfl, he⟩)
        · exact .inr (.inl ⟨path, offset, hm, he⟩)
      · cases pre with
        | nil =>
          obtain ⟨rfl, rfl⟩ := List.cons.inj hl
          exact .inl (.inr ⟨rfl, by simpa using hn⟩)
        | cons r' pre =>
          obtain ⟨rfl, rfl⟩ := List.cons.inj hl
          exact .inr (.inr ⟨pre, post, rfl, by simpa using hn⟩)

/-- No `TOC_CLEAR` of the log names the record, and no `*` comes after a record of its name. -/
def Shown (log : List TocRecord) (r : TocRecord) : Prop :=
  ∀ n, r.maskable = some n →
    (∀ path offset, .clear path offset ∈ log → (path.baseName, offset) ≠ n) ∧
    ∀ pre post, log = pre ++ .clearAll :: post → ∀ r' ∈ pre, r'.maskable ≠ some n

theorem shown_iff : Shown log r ↔
    ∀ n, r.maskable = some n → n ∉ populateMaskedEntriesList log := by
  refine forall₂_congr fun n _ => ?_
  simp only [populateMaskedEntriesList, mem_populateFrom, List.nil_append, allMaskableEntries,
    List.mem_filterMap, not_or, not_exists, not_and]

/-- Whether the record is among the masked entries. -/
def masks (masked : MaskedEntries) (r : TocRecord) : Bool := r.maskable.any fun n => n ∈ masked

theorem shown_iff_masks : Shown log r ↔ masks (populateMaskedEntriesList log) r = false := by
  rw [shown_iff, masks]
  cases r.maskable <;> simp

instance (log : List TocRecord) (r : TocRecord) : Decidable (Shown log r) :=
  decidable_of_iff _ shown_iff_masks.symm

/-- How `read` opens a sub-toc. -/
def readSub (d : Disk) (flags : ReadFlags) (depth : Nat) (path : PathName) (key : Key) :
    Except Failure (List Entry) :=
  match depth with
  | 0 => throw (.undefinedBehaviour "stack overflow")
  | depth + 1 => do read d flags depth path (← remap d path key) key

theorem read_eq {flags : ReadFlags} {remapKey parentKey : Key} (h : d.toc tocPath = some log) :
    read d flags depth tocPath remapKey parentKey =
      readFrom d flags (readSub d flags depth) tocPath remapKey (populateMaskedEntriesList log)
        parentKey log := by
  cases depth <;> rw [read, h] <;> rfl

/-- The flags with which `loadIndexes` reads. -/
abbrev indexFlags : ReadFlags := { hideSubTocEntries := true, hideClearEntries := true }

/-- The records that one record of a toc makes `readNext` return, when it is not masked. -/
def ownEntries (d : Disk) (depth : Nat) (tocPath : PathName) (key : Key) (r : TocRecord) :
    Except Failure (List Entry) :=
  match r with
  | .init _ | .index _ _ _ => return [⟨r, tocPath, {}, none⟩]
  | .clear _ _ | .clearAll => return []
  | .subToc path => do
    let absPath := subTocPath d tocPath.dirName path
    match ← readSub d indexFlags depth absPath key with
    | ⟨.init _, _, _, _⟩ :: sub => return sub.map fun e => { e with subToc := some absPath }
    | _ => throw (.assertion "r.header_.tag_ == TocRecord::TOC_INIT")

theorem subTocPath_baseName (d : Disk) (directory : String) (path : StoredPath) :
    (subTocPath d directory path).baseName = path.baseName := by
  cases path with
  | relative base => rfl
  | absolute path => rw [subTocPath]; split <;> rfl

/-- A record is read before the rest, unless it is masked. -/
theorem readFrom_cons {masked : MaskedEntries} (hkey : ∀ k, r = .init k → k = key) :
    readFrom d indexFlags (readSub d indexFlags depth) tocPath {} masked key (r :: rest) = (do
      let own ← if masks masked r then pure [] else ownEntries d depth tocPath key r
      let tail ← readFrom d indexFlags (readSub d indexFlags depth) tocPath {} masked key rest
      return own ++ tail) := by
  cases r with
  | init k =>
    obtain rfl := hkey k rfl
    simp [readFrom, masks, TocRecord.maskable, ownEntries]
  | index path offset index =>
    by_cases hm : (path, offset) ∈ masked <;>
      simp [readFrom, masks, TocRecord.maskable, ownEntries, hm]
  | clear | clearAll => simp [readFrom, masks, TocRecord.maskable, ownEntries]
  | subToc path =>
    by_cases hm : (path.baseName, 0) ∈ masked
    · simp [readFrom, masks, TocRecord.maskable, hm, subTocPath_baseName]
    · simp only [readFrom, masks, TocRecord.maskable, ownEntries, hm, subTocPath_baseName,
        Option.any_some, decide_false, false_and, if_false, Bool.false_eq_true, if_true]
      rcases readSub d indexFlags depth (subTocPath d tocPath.dirName path) key with e | _ | ⟨entry, sub⟩
      · rfl
      · rfl
      · obtain ⟨r, _, _, _⟩ := entry
        cases r <;> rfl

theorem mapM_loadIndex_map (sub : List Entry) (path : PathName) :
    (sub.map fun e => { e with subToc := some path }).mapM (loadIndex version) =
      sub.mapM (loadIndex version) := by
  rw [List.mapM_map]
  rfl

/-- What a record that is not hidden contributes: an index itself, a sub-toc all that it holds. -/
def contribution (d : Disk) (version depth : Nat) (tocPath : PathName) (key : Key) (r : TocRecord) :
    Except Failure (List (TocIndex BTreeHandle × Key)) := do
  let entries ← ownEntries d depth tocPath key r
  return (← entries.mapM (loadIndex version)).flatten

/-- The records read for `loadIndexes` give the contributions of those that are not masked. -/
theorem readFrom_contribution {masked : MaskedEntries} {l : List (TocIndex BTreeHandle × Key)}
    (hkey : ∀ k, .init k ∈ log → k = key) :
    (∃ entries, readFrom d indexFlags (readSub d indexFlags depth) tocPath {} masked key log =
        .ok entries ∧ ∃ indexes, entries.mapM (loadIndex version) = .ok indexes ∧
          indexes.flatten = l) ↔
    ∃ parts, (log.filter fun r => !masks masked r).mapM
      (contribution d version depth tocPath key) = .ok parts ∧ parts.flatten = l := by
  induction log generalizing l with
  | nil => simp [readFrom]
  | cons r rest ih =>
    replace ih := fun l => ih (l := l) fun k hk => hkey k (.tail _ hk)
    rw [readFrom_cons fun k hk => hkey k (hk ▸ .head _), List.filter_cons]
    cases hm : masks masked r with
    | true => simpa using ih l
    | false =>
      simp only [Bool.not_false, if_true, Bool.false_eq_true, if_false, except_bind_ok,
        except_pure_ok, List.mapM_cons, contribution]
      constructor
      · rintro ⟨_, ⟨own, ho, tail, ht, rfl⟩, indexes, hi, rfl⟩
        rw [List.mapM_append] at hi
        simp only [except_bind_ok, except_pure_ok] at hi
        obtain ⟨a, ha, b, hb, rfl⟩ := hi
        obtain ⟨parts, hp, hl⟩ := (ih b.flatten).mp ⟨tail, ht, b, hb, rfl⟩
        exact ⟨_, ⟨_, ⟨own, ho, a, ha, rfl⟩, parts, hp, rfl⟩, by simp [hl]⟩
      · rintro ⟨_, ⟨_, ⟨own, ho, a, ha, rfl⟩, parts, hp, rfl⟩, rfl⟩
        obtain ⟨tail, ht, b, hb, hl⟩ := (ih parts.flatten).mpr ⟨parts, hp, rfl⟩
        refine ⟨own ++ tail, ⟨own, ho, tail, ht, rfl⟩, a ++ b, ?_, by simp [hl]⟩
        rw [List.mapM_append]
        simp only [except_bind_ok, except_pure_ok]
        exact ⟨a, ha, b, hb, rfl⟩

/-- `loadIndexes` returns, newest first, what the records contribute that no `TOC_CLEAR` names
and whose name no record had before a clear-all. -/
theorem loadIndexes_shown (d : Disk) (version depth : Nat) (tocPath : PathName) (key : Key)
    (log : List TocRecord) (hlog : d.toc tocPath = some (.init key :: log))
    (hinit : ∀ k, .init k ∈ log → k = key) (l : List (TocIndex BTreeHandle × Key)) :
    loadIndexes d version depth tocPath = .ok l ↔
      ∃ parts, ((TocRecord.init key :: log).filter fun r => Shown (.init key :: log) r).mapM
        (contribution d version depth tocPath key) = .ok parts ∧ l = parts.flatten.reverse := by
  have hk : ∀ k, .init k ∈ TocRecord.init key :: log → k = key := by
    intro k hk
    rcases List.mem_cons.mp hk with h | h
    · cases h; rfl
    · exact hinit k h
  have hfilter : ((TocRecord.init key :: log).filter fun r => Shown (.init key :: log) r) =
      (TocRecord.init key :: log).filter fun r =>
        !masks (populateMaskedEntriesList (.init key :: log)) r :=
    List.filter_congr fun r _ => by simp [shown_iff_masks]
  have hparent : ∀ masked, readFrom d indexFlags (readSub d indexFlags depth) tocPath {} masked {}
      (.init key :: log) = readFrom d indexFlags (readSub d indexFlags depth) tocPath {} masked key
      (.init key :: log) := by
    intro masked
    simp [readFrom, Key.empty]
  rw [loadIndexes, if_pos (Disk.pathExists_of_toc hlog), read_eq hlog, hparent, hfilter]
  simp only [except_bind_ok, except_pure_ok]
  constructor
  · rintro ⟨entries, he, indexes, hi, rfl⟩
    obtain ⟨parts, hp, hl⟩ := (readFrom_contribution hk).mp ⟨entries, he, indexes, hi, rfl⟩
    exact ⟨parts, hp, by rw [hl]⟩
  · rintro ⟨parts, hp, rfl⟩
    obtain ⟨entries, he, indexes, hi, hl⟩ := (readFrom_contribution hk).mpr ⟨parts, hp, rfl⟩
    exact ⟨entries, he, indexes, hi, by rw [hl]⟩

section Mounts

def master : PathName := ⟨"/root", ⟨"toc", none, ""⟩⟩

def mounted : PathName := ⟨"/root", ⟨"toc", some 0, ""⟩⟩

def databaseName : Key := Key.ofList [("class", "od")] none

def someIndex : EncodedIndex where
  files := []
  axes := ∅
  key := Key.ofList [("type", "an")] none
  type := "BTreeIndex"

/-- A sub-toc with one index, mounted, cleared and mounted again. -/
def remounted : Disk where
  writes := [
    .toc mounted (.init databaseName),
    .toc mounted (.index ⟨"an", some 1, ".index"⟩ 0 someIndex),
    .toc master (.init databaseName),
    .toc master (.subToc (.relative mounted.baseName)),
    .toc master (.clear (.relative mounted.baseName) 0),
    .toc master (.subToc (.relative mounted.baseName))]

def otherMounted : PathName := ⟨"/root", ⟨"toc", some 1, ""⟩⟩

/-- Two mounted sub-tocs with one index each, of which the first is cleared. -/
def halfCleared : Disk where
  writes := [
    .toc mounted (.init databaseName),
    .toc mounted (.index ⟨"an", some 1, ".index"⟩ 0 someIndex),
    .toc otherMounted (.init databaseName),
    .toc otherMounted (.index ⟨"an", some 2, ".index"⟩ 0 someIndex),
    .toc master (.init databaseName),
    .toc master (.subToc (.relative mounted.baseName)),
    .toc master (.subToc (.relative otherMounted.baseName)),
    .toc master (.clear (.relative mounted.baseName) 0)]

theorem loadIndexes_shown_master : ∃ l, loadIndexes halfCleared 2 1 master = .ok l ∧
    l.map (·.1.path) = [⟨"/root", ⟨"an", some 2, ".index"⟩⟩] :=
  ⟨_, (loadIndexes_shown halfCleared 2 1 master databaseName _ rfl (by simp) _).mpr ⟨_, rfl, rfl⟩, rfl⟩

/-- The record appended after the `TOC_CLEAR` is hidden by it. -/
theorem remounted_subToc_hidden :
    (∃ log, remounted.toc master = some (log ++ [.subToc (.relative mounted.baseName)]) ∧
      .clear (.relative mounted.baseName) 0 ∈ log) ∧
    (∃ part, contribution remounted 2 1 master databaseName (.subToc (.relative mounted.baseName)) =
      .ok part ∧ part.length = 1) ∧
    loadIndexes remounted 2 1 master = .ok [] :=
  ⟨⟨[.init databaseName, .subToc (.relative mounted.baseName),
    .clear (.relative mounted.baseName) 0], rfl, by simp⟩, ⟨_, rfl, rfl⟩, rfl⟩

end Mounts

end TocHandler

end Fdb5
