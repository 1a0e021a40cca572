import Fdb5.Toc.Clearing

/-! What the sub-tocs and the masked entries of a toc lead to. -/
namespace Fdb5

open Effect

namespace TocHandler

variable {d t : Disk} {flags : ReadFlags} {p q : PathName} {log : List TocRecord}
  {version depth n : Nat} {remapKey parentKey : Key}

/-- The index is recorded in a toc. -/
structure RecordedIndex (d : Disk) (version : Nat) (idx : TocIndex BTreeHandle) (toc : PathName)
    (path : BaseName) (offset : Nat) (e : EncodedIndex) : Prop where
  record : ∃ log, d.toc toc = some log ∧ .index path offset e ∈ log
  decoded : TocIndex.decode version toc.dirName ⟨toc.dirName, path⟩ offset e = .ok idx

/-- If the entry is an index, a toc holds its record. -/
def IsRecorded (d : Disk) (e : Entry) : Prop :=
  ∀ path offset i, e.record = .index path offset i → ∃ log, d.toc e.tocPath = some log ∧ e.record ∈ log

theorem readFrom_recorded {rs : PathName → Key → Except Failure (List Entry)} {masked : MaskedEntries}
    {full : List TocRecord} (hfull : d.toc p = some full)
    (hrs : ∀ q key sub, rs q key = .ok sub → ∀ e ∈ sub, IsRecorded d e) (hlog : ∀ r ∈ log, r ∈ full) :
    ∀ {parentKey entries}, readFrom d indexFlags rs p remapKey masked parentKey log = .ok entries →
      ∀ e ∈ entries, IsRecorded d e := by
  induction log with
  | nil =>
    intro _ entries h e he
    obtain rfl := except_pure_ok.mp h
    cases he
  | cons r log ih =>
    replace ih := @ih fun r hr => hlog r (.tail _ hr)
    have hown : IsRecorded d ⟨r, p, remapKey, none⟩ :=
      fun _ _ _ _ => ⟨full, hfull, hlog r (.head _)⟩
    intro parentKey entries h e he
    cases r with
    | init key =>
      simp only [readFrom, except_bind_ok, except_pure_ok] at h
      obtain ⟨tail, ht, rfl⟩ := h
      rcases List.mem_cons.mp he with rfl | he
      · exact hown
      · exact ih ht e he
    | index =>
      simp only [readFrom, except_bind_ok] at h
      obtain ⟨tail, ht, h⟩ := h
      split at h
      · exact ih ht e (except_pure_ok.mp h ▸ he)
      · obtain rfl := except_pure_ok.mp h
        rcases List.mem_cons.mp he with rfl | he
        · exact hown
        · exact ih ht e he
    | clear | clearAll =>
      simp only [readFrom, if_true, except_bind_ok, except_pure_ok] at h
      obtain ⟨tail, ht, rfl⟩ := h
      exact ih ht e he
    | subToc path =>
      by_cases hm : (path.baseName, 0) ∈ masked
      · simp only [readFrom, subTocPath_baseName, hm, true_or, and_self, if_true] at h
        exact ih h e he
      · simp only [readFrom, subTocPath_baseName, hm, false_and, if_false, if_true, except_bind_ok] at h
        obtain ⟨sub, hsub, h⟩ := h
        split at h
        · rename_i hmap
          simp only [except_bind_ok, except_pure_ok] at h
          obtain ⟨tail, ht, rfl⟩ := h
          rcases List.mem_append.mp he with he | he
          · have hmem : e ∈ sub.map fun e => { e with subToc := some (subTocPath d p.dirName path) } := by
              rw [hmap]
              exact .tail _ he
            obtain ⟨e', he', rfl⟩ := List.mem_map.mp hmem
            exact hrs _ _ sub hsub e' he'
          · exact ih ht e he
        · simp at h

theorem read_recorded {entries : List Entry}
    (h : read d indexFlags n p remapKey parentKey = .ok entries) : ∀ e ∈ entries, IsRecorded d e := by
  induction n generalizing p remapKey parentKey entries with
  | zero =>
    cases hlog : d.toc p with
    | none => rw [read, hlog] at h; cases h
    | some log =>
      rw [read_eq hlog] at h
      exact readFrom_recorded hlog (fun _ _ _ hsub => by cases hsub) (fun _ hr => hr) h
  | succ n ih =>
    cases hlog : d.toc p with
    | none => rw [read, hlog] at h; cases h
    | some log =>
      rw [read_eq hlog] at h
      refine readFrom_recorded hlog (fun q key sub hsub => ?_) (fun _ hr => hr) h
      simp only [readSub, except_bind_ok] at hsub
      obtain ⟨key', -, hread⟩ := hsub
      exact ih hread

/-- Every index that is loaded is recorded in some toc. -/
theorem loadIndexes_recorded {l : List (TocIndex BTreeHandle × Key)}
    (h : loadIndexes d version depth p remapKey parentKey = .ok l) {x : TocIndex BTreeHandle × Key}
    (hx : x ∈ l) : ∃ toc path offset e, RecordedIndex d version x.1 toc path offset e := by
  rw [loadIndexes_eq, except_map_ok] at h
  obtain ⟨l, h, rfl⟩ := h
  obtain ⟨y, hy, rfl⟩ := List.mem_map.mp hx
  rw [loadIndexesAndSubTocs] at h
  split at h
  · simp only [except_bind_ok, except_pure_ok] at h
    obtain ⟨entries, hread, parts, hparts, rfl⟩ := h
    obtain ⟨ys, hys, hy⟩ := List.mem_flatten.mp (List.mem_reverse.mp hy)
    obtain ⟨e, he, hload⟩ := mem_mapM hparts hys
    obtain ⟨-, path, offset, i, hr, hidx⟩ := mem_loadEntry hload hy
    obtain ⟨log, hlog, hmem⟩ := read_recorded hread e he path offset i hr
    exact ⟨e.tocPath, path, offset, i, ⟨log, hlog, hr ▸ hmem⟩, hidx⟩
  · obtain rfl := except_pure_ok.mp h
    cases hy

/-- Every sub-toc that is opened is listed. -/
theorem readFrom_lists {rs : PathName → Key → Except Failure (List Entry)} {masked : MaskedEntries}
    {path : StoredPath} (hr : .subToc path ∈ log) (hm : (path.baseName, 0) ∉ masked) :
    ∀ {parentKey entries}, readFrom d { hideClearEntries := true } rs p remapKey masked parentKey log =
      .ok entries → ∃ e ∈ entries, e.record = .subToc path ∧ e.tocPath = subTocPath d p.dirName path := by
  induction log with
  | nil => cases hr
  | cons r log ih =>
    intro parentKey entries h
    rcases List.mem_cons.mp hr with rfl | hmem
    · simp only [readFrom, subTocPath_baseName, hm, false_and, if_false, Bool.false_eq_true,
        except_bind_ok, except_pure_ok] at h
      obtain ⟨sub, -, _, -, tail, -, rfl⟩ := h
      exact ⟨_, .head _, rfl, rfl⟩
    · cases r with
      | init | index | clear | clearAll =>
        simp only [readFrom, except_bind_ok] at h
        obtain ⟨tail, ht, h⟩ := h
        obtain ⟨e, he, hrecord⟩ := ih hmem ht
        refine ⟨e, ?_, hrecord⟩
        first
          | obtain rfl := except_pure_ok.mp h
            simp [he]
          | split at h <;> obtain rfl := except_pure_ok.mp h <;> simp [he]
      | subToc other =>
        by_cases hother : (other.baseName, 0) ∈ masked
        · simp only [readFrom, subTocPath_baseName, hother, true_or, and_self, if_true] at h
          exact ih hmem h
        · simp only [readFrom, subTocPath_baseName, hother, false_and, if_false, Bool.false_eq_true,
            except_bind_ok, except_pure_ok] at h
          obtain ⟨sub, -, _, -, tail, ht, rfl⟩ := h
          obtain ⟨e, he, hrecord⟩ := ih hmem ht
          exact ⟨e, by simp [he], hrecord⟩

theorem mem_subTocPaths {subtocs : List PathName} (h : subTocPaths d depth p = .ok subtocs)
    (hq : Mounts d p q) : q ∈ subtocs := by
  simp only [subTocPaths, except_bind_ok, except_pure_ok] at h
  obtain ⟨entries, hread, rfl⟩ := h
  cases hlog : d.toc p with
  | none => rw [Mounts, openedSubTocs_none hlog] at hq; cases hq
  | some log =>
    obtain ⟨path, hr, hm, rfl⟩ := (mem_openedSubTocs hlog).mp hq
    rw [read_eq hlog] at hread
    obtain ⟨e, he, hrecord, htoc⟩ := readFrom_lists hr hm hread
    exact List.mem_filterMap.mpr ⟨e, he, by rw [hrecord, htoc]⟩

section Enumerate

variable {masked : List (PathName × Nat) × List URI}

/-- The masked sub-tocs that exist, and what they hold. -/
def MaskedSubToc (d : Disk) (version depth : Nat) (p : PathName) (log : List TocRecord) (q : PathName)
    (sub : List (PathName × Nat) × List URI) : Prop :=
  (∃ offset, (q.baseName, offset) ∈ populateMaskedEntriesList log) ∧ q.dirName = p.dirName ∧
    q.baseName.isSubToc = true ∧ d.pathExists q = true ∧ enumerateSub d version depth {} q = .ok sub

/-- The masked indexes whose files exist. -/
def MaskedIndex (d : Disk) (version : Nat) (p : PathName) (log : List TocRecord) (path : BaseName)
    (idx : TocIndex BTreeHandle) : Prop :=
  ∃ offset e, .index path offset e ∈ log ∧ (path, offset) ∈ populateMaskedEntriesList log ∧
    d.pathExists ⟨p.dirName, path⟩ = true ∧
    TocIndex.decode version p.dirName ⟨p.dirName, path⟩ offset e = .ok idx

/-- What is enumerated of a toc. -/
structure Enumerated (d : Disk) (version depth : Nat) (p : PathName) (log : List TocRecord)
    (masked : List (PathName × Nat) × List URI) : Prop where
  metadata : ∀ q, q ∈ masked.1.map Prod.fst ↔
    ((∃ offset, (q.baseName, offset) ∈ populateMaskedEntriesList log) ∧ q.dirName = p.dirName ∧
      d.pathExists q = true) ∨
    ∃ q' sub, MaskedSubToc d version depth p log q' sub ∧ q ∈ sub.1.map Prod.fst
  data : ∀ uri, uri ∈ masked.2 ↔ (∃ q' sub, MaskedSubToc d version depth p log q' sub ∧ uri ∈ sub.2) ∨
    ∃ path idx, MaskedIndex d version p log path idx ∧ uri ∈ idx.files.uris
  subToc : ∀ e ∈ populateMaskedEntriesList log, e.1.isSubToc = true →
    d.pathExists ⟨p.dirName, e.1⟩ = true → ∃ sub, MaskedSubToc d version depth p log ⟨p.dirName, e.1⟩ sub
  index : ∀ path offset e, .index path offset e ∈ log → (path, offset) ∈ populateMaskedEntriesList log →
    d.pathExists ⟨p.dirName, path⟩ = true → ∃ idx : TocIndex BTreeHandle,
      TocIndex.decode version p.dirName ⟨p.dirName, path⟩ offset e = .ok idx

theorem maskedEntry_ok {sub : PathName → Except Failure (List (PathName × Nat) × List URI)}
    {directory : String} {e : BaseName × Nat} (h : maskedEntry d directory sub e = .ok masked) :
    d.pathExists ⟨directory, e.1⟩ = false ∧ masked = ([], []) ∨
      d.pathExists ⟨directory, e.1⟩ = true ∧ (e.1.isSubToc = false ∧
          masked = ([(⟨directory, e.1⟩, e.2)], []) ∨
        e.1.isSubToc = true ∧ ∃ s, sub ⟨directory, e.1⟩ = .ok s ∧
          masked = ((⟨directory, e.1⟩, e.2) :: s.1, s.2)) := by
  simp only [maskedEntry] at h
  split at h
  · exact .inl ⟨‹_›, (except_pure_ok.mp h).symm⟩
  · refine .inr ⟨by simpa using ‹¬ d.pathExists _ = false›, ?_⟩
    split at h
    · simp only [except_bind_ok] at h
      obtain ⟨s, hs, h⟩ := h
      exact .inr ⟨‹_›, s, hs, (except_pure_ok.mp h).symm⟩
    · exact .inl ⟨by simpa using ‹¬ e.1.isSubToc = true›, (except_pure_ok.mp h).symm⟩

theorem maskedData_ok {directory : String} {entries : MaskedEntries} {r : TocRecord} {uris : List URI}
    (h : maskedData d version directory entries r = .ok uris) {uri : URI} : uri ∈ uris ↔
      ∃ path offset e, ∃ idx : TocIndex BTreeHandle, r = .index path offset e ∧
        (path, offset) ∈ entries ∧ d.pathExists ⟨directory, path⟩ = true ∧
        TocIndex.decode version directory ⟨directory, path⟩ offset e = .ok idx ∧
        uri ∈ idx.files.uris := by
  cases r with
  | index path offset e =>
    rw [maskedData] at h
    split at h
    · rename_i hm
      simp only [except_bind_ok, except_pure_ok] at h
      obtain ⟨idx, hidx, rfl⟩ := h
      constructor
      · exact fun huri => ⟨path, offset, e, idx, rfl, hm.1, hm.2, hidx, huri⟩
      · rintro ⟨_, _, _, idx', ⟨⟩, -, -, hidx', huri⟩
        rwa [Except.ok.inj (hidx.symm.trans hidx')]
    · rename_i hm
      obtain rfl := except_pure_ok.mp h
      refine ⟨fun huri => (List.not_mem_nil huri).elim, ?_⟩
      rintro ⟨_, _, _, _, ⟨⟩, hmask, hex, -⟩
      exact absurd ⟨hmask, hex⟩ hm
  | init | subToc | clear | clearAll =>
    obtain rfl := except_pure_ok.mp h
    refine ⟨fun huri => (List.not_mem_nil huri).elim, ?_⟩
    rintro ⟨_, _, _, _, ⟨⟩, -⟩

theorem enumerated (hlog : d.toc p = some log)
    (h : enumerateMasked d version depth p {} = .ok masked) : Enumerated d version depth p log masked := by
  rw [enumerateMasked_eq hlog] at h
  simp only [except_bind_ok, except_pure_ok] at h
  obtain ⟨parts, hparts, data, hdata, rfl⟩ := h
  -- a masked sub-toc is the entry of its own part
  have hsub : ∀ {q sub}, MaskedSubToc d version depth p log q sub →
      ∃ part ∈ parts, part.1.tail = sub.1 ∧ part.2 = sub.2 ∧ part.1 ≠ [] := by
    rintro q sub ⟨⟨offset, hmem⟩, hdir, hname, hex, henum⟩
    obtain ⟨part, hpart, hentry⟩ := mem_mapM_of hparts hmem
    have hq : (⟨p.dirName, q.baseName⟩ : PathName) = q := by rw [← hdir]
    rcases maskedEntry_ok hentry with ⟨hno, -⟩ | ⟨-, ⟨hno, -⟩ | ⟨-, s, hs, rfl⟩⟩
    · rw [hq, hex] at hno
      cases hno
    · rw [hname] at hno
      cases hno
    · rw [hq, henum] at hs
      obtain rfl := Except.ok.inj hs
      exact ⟨_, hpart, rfl, rfl, by simp⟩
  refine ⟨fun q => ?_, fun uri => ?_, fun e he hname hex => ?_, fun path offset e hr hm hex => ?_⟩
  · simp only [List.mem_map, List.mem_flatten]
    constructor
    · rintro ⟨m, ⟨_, ⟨part, hpart, rfl⟩, hm⟩, rfl⟩
      obtain ⟨e, he, hentry⟩ := mem_mapM hparts hpart
      rcases maskedEntry_ok hentry with ⟨-, rfl⟩ | ⟨hex, ⟨-, rfl⟩ | ⟨hname, s, hs, rfl⟩⟩
      · cases hm
      · obtain rfl := List.mem_singleton.mp hm
        exact .inl ⟨⟨_, he⟩, rfl, hex⟩
      · rcases List.mem_cons.mp hm with rfl | hm
        · exact .inl ⟨⟨_, he⟩, rfl, hex⟩
        · exact .inr ⟨⟨p.dirName, e.1⟩, s, ⟨⟨_, he⟩, rfl, hname, hex, hs⟩, m, hm, rfl⟩
    · rintro (⟨⟨offset, hmem⟩, hdir, hex⟩ | ⟨q', sub, hq', m, hm, rfl⟩)
      · obtain ⟨part, hpart, hentry⟩ := mem_mapM_of hparts hmem
        have hq : (⟨p.dirName, q.baseName⟩ : PathName) = q := by rw [← hdir]
        rcases maskedEntry_ok hentry with ⟨hno, -⟩ | ⟨-, ⟨-, rfl⟩ | ⟨-, s, -, rfl⟩⟩
        · rw [hq, hex] at hno
          cases hno
        · exact ⟨_, ⟨_, ⟨_, hpart, rfl⟩, .head _⟩, hq⟩
        · exact ⟨_, ⟨_, ⟨_, hpart, rfl⟩, .head _⟩, hq⟩
      · obtain ⟨part, hpart, htail, -⟩ := hsub hq'
        exact ⟨m, ⟨_, ⟨_, hpart, rfl⟩, List.mem_of_mem_tail (htail ▸ hm)⟩, rfl⟩
  · simp only [List.mem_append, List.mem_flatten, List.mem_map]
    constructor
    · rintro (⟨_, ⟨part, hpart, rfl⟩, huri⟩ | ⟨uris, huris, huri⟩)
      · obtain ⟨e, he, hentry⟩ := mem_mapM hparts hpart
        rcases maskedEntry_ok hentry with ⟨-, rfl⟩ | ⟨hex, ⟨-, rfl⟩ | ⟨hname, s, hs, rfl⟩⟩
        · cases huri
        · cases huri
        · exact .inl ⟨⟨p.dirName, e.1⟩, s, ⟨⟨_, he⟩, rfl, hname, hex, hs⟩, huri⟩
      · obtain ⟨r, hr, hpart⟩ := mem_mapM hdata huris
        obtain ⟨path, offset, e, idx, rfl, hm, hex, hidx, huri⟩ := (maskedData_ok hpart).mp huri
        exact .inr ⟨path, idx, ⟨offset, e, hr, hm, hex, hidx⟩, huri⟩
    · rintro (⟨q', sub, hq', huri⟩ | ⟨path, idx, ⟨offset, e, hr, hm, hex, hidx⟩, huri⟩)
      · obtain ⟨part, hpart, -, hdata', -⟩ := hsub hq'
        exact .inl ⟨_, ⟨part, hpart, rfl⟩, hdata' ▸ huri⟩
      · obtain ⟨uris, huris, hpart⟩ := mem_mapM_of hdata hr
        exact .inr ⟨uris, huris,
          (maskedData_ok hpart).mpr ⟨path, offset, e, idx, rfl, hm, hex, hidx, huri⟩⟩
  · obtain ⟨part, -, hentry⟩ := mem_mapM_of hparts he
    rcases maskedEntry_ok hentry with ⟨hno, -⟩ | ⟨-, ⟨hno, -⟩ | ⟨-, s, hs, -⟩⟩
    · rw [hex] at hno
      cases hno
    · rw [hname] at hno
      cases hno
    · exact ⟨s, ⟨_, he⟩, rfl, hname, hex, hs⟩
  · obtain ⟨uris, -, hpart⟩ := mem_mapM_of hdata hr
    rw [maskedData, if_pos ⟨hm, hex⟩] at hpart
    simp only [except_bind_ok] at hpart
    obtain ⟨idx, hidx, -⟩ := hpart
    exact ⟨idx, hidx⟩

/-- What the enumeration of a toc needs of the files that exist. -/
theorem exists_enumerated (hlog : d.toc p = some log)
    (hsub : ∀ e ∈ populateMaskedEntriesList log, e.1.isSubToc = true →
      d.pathExists ⟨p.dirName, e.1⟩ = true → ∃ sub, enumerateSub d version depth {} ⟨p.dirName, e.1⟩ = .ok sub)
    (hindex : ∀ path offset e, .index path offset e ∈ log →
      (path, offset) ∈ populateMaskedEntriesList log → d.pathExists ⟨p.dirName, path⟩ = true →
        ∃ idx : TocIndex BTreeHandle,
          TocIndex.decode version p.dirName ⟨p.dirName, path⟩ offset e = .ok idx) :
    ∃ masked, enumerateMasked d version depth p {} = .ok masked := by
  obtain ⟨parts, hparts⟩ := exists_mapM (f := maskedEntry d p.dirName (enumerateSub d version depth {}))
    (l := populateMaskedEntriesList log) fun e he => by
      rw [maskedEntry]
      split
      · exact ⟨_, rfl⟩
      · split
        · obtain ⟨sub, hs⟩ := hsub e he ‹_› (by simpa using ‹¬ d.pathExists _ = false›)
          exact ⟨_, by rw [hs]; rfl⟩
        · exact ⟨_, rfl⟩
  obtain ⟨data, hdata⟩ := exists_mapM
    (f := maskedData d version p.dirName (populateMaskedEntriesList log)) (l := log) fun r hr => by
      cases r with
      | index path offset e =>
        rw [maskedData]
        split
        · obtain ⟨idx, hidx⟩ := hindex path offset e hr (by tauto) (by tauto)
          exact ⟨_, by rw [hidx]; rfl⟩
        · exact ⟨_, rfl⟩
      | init | subToc | clear | clearAll => exact ⟨_, rfl⟩
  exact ⟨_, by rw [enumerateMasked_eq hlog, hparts]; simp only [bind, Except.bind, hdata]; rfl⟩

/-- A toc that masks nothing. -/
theorem enumerateMasked_empty (hlog : d.toc q = some log) (hnone : populateMaskedEntriesList log = []) :
    enumerateMasked d version depth q remapKey = .ok ([], []) := by
  have hdata : ∃ data, log.mapM (maskedData d version q.dirName []) = .ok data ∧ data.flatten = [] := by
    obtain ⟨data, hdata⟩ := exists_mapM (f := maskedData d version q.dirName []) (l := log) fun r _ => by
      cases r <;> simp [maskedData, pure, Except.pure]
    refine ⟨data, hdata, List.eq_nil_iff_forall_not_mem.mpr fun uri huri => ?_⟩
    obtain ⟨uris, huris, huri⟩ := List.mem_flatten.mp huri
    obtain ⟨r, -, hr⟩ := mem_mapM hdata huris
    obtain ⟨path, offset, e, idx, -, hm, -⟩ := (maskedData_ok hr).mp huri
    cases hm
  obtain ⟨data, hdata, hnil⟩ := hdata
  rw [enumerateMasked_eq hlog, hnone]
  simp only [List.mapM_nil, pure, Except.pure, bind, Except.bind, hdata, List.map_nil, List.flatten_nil,
    hnil, List.append_nil]

/-- What is enumerated of a masked sub-toc are its indexes. -/
theorem enumerateSub_ok {sub : List (PathName × Nat) × List URI} (h : d.Overlaid)
    (hq : q.baseName ≠ masterName) (hsub : enumerateSub d version depth {} q = .ok sub) :
    (∃ log, d.toc q = some log) ∧
      (∀ o ∈ sub.1.map Prod.fst, ∃ idx toc path offset e,
        RecordedIndex d version idx toc path offset e ∧ o = idx.path) ∧
      ∀ uri ∈ sub.2, ∃ idx toc path offset e,
        RecordedIndex d version idx toc path offset e ∧ uri ∈ idx.files.uris := by
  cases depth with
  | zero => cases hsub
  | succ depth =>
    simp only [enumerateSub, except_bind_ok, except_pure_ok] at hsub
    obtain ⟨key, -, masked, hmasked, l, hl, rfl⟩ := hsub
    cases hlog : d.toc q with
    | none => rw [enumerateMasked_none hlog] at hmasked; cases hmasked
    | some log =>
      obtain rfl := Except.ok.inj
        ((enumerateMasked_empty hlog (populate_own h hq hlog).1).symm.trans hmasked)
      refine ⟨⟨log, rfl⟩, fun o ho => ?_, fun uri huri => ?_⟩
      · simp only [List.nil_append, List.map_map, List.mem_map] at ho
        obtain ⟨x, hx, rfl⟩ := ho
        obtain ⟨toc, path, offset, e, hr⟩ := loadIndexes_recorded hl hx
        exact ⟨x.1, toc, path, offset, e, hr, rfl⟩
      · obtain ⟨x, hx, huri⟩ := List.mem_flatMap.mp huri
        obtain ⟨toc, path, offset, e, hr⟩ := loadIndexes_recorded hl hx
        exact ⟨x.1, toc, path, offset, e, hr, huri⟩

theorem enumerateSub_same (h : d.Overlaid) (hq : q.baseName ≠ masterName) (htoc : t.toc q = d.toc q)
    (hex : t.pathExists q = d.pathExists q) {sub : List (PathName × Nat) × List URI}
    (hsub : enumerateSub d version depth {} q = .ok sub) :
    enumerateSub t version depth {} q = .ok sub := by
  obtain ⟨⟨log, hlog⟩, -⟩ := enumerateSub_ok h hq hsub
  obtain ⟨hempty, hopened⟩ := populate_own h hq hlog
  have hsame : ∀ o, Relation.ReflTransGen (Mounts d) q o → SameToc d t o := by
    intro o ho
    rcases ho.cases_head with rfl | ⟨o', ho', -⟩
    · refine ⟨htoc, fun log' path hlog' hr hm => ?_⟩
      have hmem := (mem_openedSubTocs hlog').mpr ⟨path, hr, hm, rfl⟩
      rw [hopened] at hmem
      cases hmem
    · rw [Mounts, hopened] at ho'
      cases ho'
  cases depth with
  | zero => cases hsub
  | succ depth =>
    simp only [enumerateSub, except_bind_ok, except_pure_ok] at hsub ⊢
    obtain ⟨key, hkey, masked, hmasked, l, hl, rfl⟩ := hsub
    refine ⟨key, (remap_congr htoc {}).trans hkey, masked, ?_, l, ?_, rfl⟩
    · rw [enumerateMasked_empty (htoc.trans hlog) hempty, ← hmasked, enumerateMasked_empty hlog hempty]
    · rw [loadIndexes, hex, read_same rfl hsame]
      exact hl

end Enumerate

end TocHandler

end Fdb5
