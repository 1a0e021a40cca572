import Fdb5.Toc.Mounts

/-! What is read from a toc after masks were appended to it, or files removed that it does not need. -/
namespace Fdb5

open Effect

namespace TocHandler

variable {d d' : Disk} {flags : ReadFlags} {p q t : PathName} {log : List TocRecord}
  {version depth n m : Nat} {key : Key} {l : List Loaded}

/-- The records read for `loadIndexes` are those of the records that are not masked. -/
theorem readFrom_parts {masked : MaskedEntries} (hkey : ∀ k, .init k ∈ log → k = key) :
    readFrom d indexFlags (readSub d indexFlags depth) p {} masked key log =
      List.flatten <$> (log.filter fun r => !masks masked r).mapM (ownEntries d depth p key) := by
  induction log with
  | nil => rfl
  | cons r log ih =>
    rw [readFrom_cons fun k hk => hkey k (hk ▸ .head _), ih fun k hk => hkey k (.tail _ hk),
      List.filter_cons]
    cases hm : masks masked r with
    | true => simp
    | false =>
      simp only [Bool.false_eq_true, if_false, Bool.not_false, if_true, List.mapM_cons]
      cases ownEntries d depth p key r with
      | error => rfl
      | ok own =>
        cases (log.filter fun r => !masks masked r).mapM (ownEntries d depth p key) <;> rfl

theorem remap_congr {path : PathName} (h : d'.toc path = d.toc path) (key : Key) :
    remap d' path key = remap d path key := by
  rw [remap, remap, h]

/-- A toc is the same on both disks and leads to the same sub-tocs. -/
structure SameToc (d d' : Disk) (p : PathName) : Prop where
  toc : d'.toc p = d.toc p
  subToc : ∀ log path, d.toc p = some log → .subToc path ∈ log →
    (path.baseName, 0) ∉ populateMaskedEntriesList log →
      subTocPath d' p.dirName path = subTocPath d p.dirName path

/-- A read is not changed by what is written to tocs that it does not reach. -/
theorem read_same (hf : flags.readMasked = false)
    (h : ∀ q, Relation.ReflTransGen (Mounts d) p q → SameToc d d' q) (remapKey parentKey : Key) :
    read d' flags n p remapKey parentKey = read d flags n p remapKey parentKey := by
  induction n generalizing p remapKey parentKey with
  | zero =>
    have hp := h p .refl
    cases hlog : d.toc p with
    | none => rw [read, read, hp.toc, hlog]
    | some log =>
      rw [read_eq hlog, read_eq (hp.toc.trans hlog)]
      exact readFrom_congr hf (fun path hr hm => ⟨hp.subToc log path hlog hr hm, fun _ => rfl⟩) _
  | succ n ih =>
    have hp := h p .refl
    cases hlog : d.toc p with
    | none => rw [read, read, hp.toc, hlog]
    | some log =>
      rw [read_eq hlog, read_eq (hp.toc.trans hlog)]
      refine readFrom_congr hf
        (fun path hr hm => ⟨hp.subToc log path hlog hr hm, fun key => ?_⟩) parentKey
      have hopened : Mounts d p (subTocPath d p.dirName path) :=
        (mem_openedSubTocs hlog).mpr ⟨path, hr, hm, rfl⟩
      rw [readSub, readSub, remap_congr (h _ (.single hopened)).toc]
      congr 1
      funext key'
      exact ih (fun q hq => h q (.head hopened hq)) key' key

/-- From `d` to `d'` no toc but `t` has changed, and the records lead to the same sub-tocs. -/
structure Framed (d d' : Disk) (t : PathName) : Prop where
  toc : ∀ p, p ≠ t → d'.toc p = d.toc p
  subToc : ∀ p log path, d.toc p = some log → .subToc path ∈ log →
    subTocPath d' p.dirName path = subTocPath d p.dirName path

theorem Framed.same (h : Framed d d' t) (hp : p ≠ t) : SameToc d d' p :=
  ⟨h.toc p hp, fun log path hlog hr _ => h.subToc p log path hlog hr⟩

theorem readFrom_opened {rs : PathName → Key → Except Failure (List Entry)} {masked : MaskedEntries}
    {remapKey : Key} {path : StoredPath} (hr : .subToc path ∈ log)
    (hm : (path.baseName, 0) ∉ masked) : ∀ {parentKey : Key} {entries : List Entry},
    readFrom d indexFlags rs p remapKey masked parentKey log = .ok entries →
      ∃ key sub, rs (subTocPath d p.dirName path) key = .ok sub := by
  induction log with
  | nil => cases hr
  | cons r log ih =>
    intro parentKey entries h
    rcases List.mem_cons.mp hr with rfl | hmem
    · simp only [readFrom, subTocPath_baseName, hm, false_and, if_false, except_bind_ok] at h
      obtain ⟨sub, hsub, -⟩ := h
      exact ⟨_, _, hsub⟩
    · cases r with
      | init | index | clear | clearAll =>
        simp only [readFrom, except_bind_ok] at h
        obtain ⟨tail, ht, -⟩ := h
        exact ih hmem ht
      | subToc other =>
        by_cases hother : (other.baseName, 0) ∈ masked
        · simp only [readFrom, subTocPath_baseName, hother, true_or, and_self, if_true] at h
          exact ih hmem h
        · simp only [readFrom, subTocPath_baseName, hother, false_and, if_false, if_true,
            except_bind_ok] at h
          obtain ⟨sub, -, h⟩ := h
          split at h
          · simp only [except_bind_ok] at h
            obtain ⟨tail, ht, -⟩ := h
            exact ih hmem ht
          · simp at h

/-- Every toc that a read opens is itself read, with less of the stack. -/
theorem read_opened {remapKey parentKey : Key} {entries : List Entry}
    (h : read d indexFlags n p remapKey parentKey = .ok entries) (hq : Mounts d p q) :
    ∃ m < n, ∃ remapKey parentKey entries,
      read d indexFlags m q remapKey parentKey = .ok entries := by
  cases hlog : d.toc p with
  | none => rw [Mounts, openedSubTocs_none hlog] at hq; cases hq
  | some log =>
    obtain ⟨path, hr, hm, rfl⟩ := (mem_openedSubTocs hlog).mp hq
    rw [read_eq hlog] at h
    obtain ⟨key, sub, hsub⟩ := readFrom_opened hr hm h
    cases n with
    | zero => cases hsub
    | succ n =>
      simp only [readSub, except_bind_ok] at hsub
      obtain ⟨key', -, hread⟩ := hsub
      exact ⟨n, Nat.lt_succ_self n, key', key, sub, hread⟩

/-- A toc that can be read is not among those that it opens. -/
theorem not_reaches_self {remapKey parentKey : Key} {entries : List Entry}
    (h : read d indexFlags n p remapKey parentKey = .ok entries) (hq : Mounts d p q) :
    ¬ Relation.ReflTransGen (Mounts d) q p := by
  intro hreach
  induction n using Nat.strong_induction_on generalizing remapKey parentKey entries with
  | _ n ih =>
    have hback : ∀ {q}, Relation.ReflTransGen (Mounts d) q p → ∀ {m remapKey parentKey entries},
        m < n → read d indexFlags m q remapKey parentKey = .ok entries → False := by
      intro q hreach
      induction hreach using Relation.ReflTransGen.head_induction_on with
      | refl => exact fun hm hread => ih _ hm hread
      | head hqo _ ih' =>
        intro m _ _ _ hm hread
        obtain ⟨k, hk, _, _, _, hread'⟩ := read_opened hread hqo
        exact ih' (Nat.lt_trans hk hm) hread'
    obtain ⟨m, hm, _, _, _, hread⟩ := read_opened h hq
    exact hback hreach hm hread

theorem populateFrom_append {seen added : List TocRecord} :
    populateFrom seen (log ++ added) = populateFrom seen log ++ populateFrom (seen ++ log) added := by
  induction log generalizing seen with
  | nil => simp [populateFrom]
  | cons r log ih => simp [populateFrom, ih]

theorem read_parts (hlog : d.toc p = some log)
    (hinit : ∃ rest, log = .init key :: rest ∧ ∀ k, .init k ∉ rest) :
    read d indexFlags depth p {} {} = List.flatten <$>
      (log.filter fun r => !masks (populateMaskedEntriesList log) r).mapM
        (ownEntries d depth p key) := by
  obtain ⟨rest, rfl, hrest⟩ := hinit
  have hk : ∀ k, .init k ∈ TocRecord.init key :: rest → k = key := by
    intro k hk
    rcases List.mem_cons.mp hk with h | h
    · cases h
      rfl
    · exact absurd h (hrest k)
  rw [read_eq hlog, ← readFrom_parts hk]
  simp [readFrom, Key.empty]

/-- The sub-toc through which what a record leads to is reached. -/
def TocRecord.via (d : Disk) (directory : String) : TocRecord → Option PathName
  | .subToc path => some (subTocPath d directory path)
  | _ => none

theorem ownEntries_via {r : TocRecord} {entries : List Entry}
    (h : ownEntries d depth p key r = .ok entries) {e : Entry} (he : e ∈ entries) :
    e.subToc = TocRecord.via d p.dirName r := by
  cases r with
  | init | index =>
    obtain rfl : entries = [_] := (except_pure_ok.mp h).symm
    rw [List.mem_singleton.mp he]
    rfl
  | clear | clearAll =>
    obtain rfl : entries = [] := (except_pure_ok.mp h).symm
    cases he
  | subToc path =>
    simp only [ownEntries, except_bind_ok] at h
    obtain ⟨sub, -, h⟩ := h
    split at h
    · obtain rfl := except_pure_ok.mp h
      obtain ⟨e', -, rfl⟩ := List.mem_map.mp he
      rfl
    · simp at h

/-- An index comes from a `TOC_INDEX` record. -/
theorem mem_loadEntry {e : Entry} {x : Loaded} (h : loadEntry version e = .ok l) (hx : x ∈ l) :
    x.subToc = e.subToc ∧ ∃ path offset encoded, e.record = .index path offset encoded ∧
      TocIndex.decode version e.tocPath.dirName ⟨e.tocPath.dirName, path⟩ offset encoded =
        .ok x.index := by
  simp only [loadEntry, except_bind_ok, except_pure_ok] at h
  obtain ⟨indexes, hi, rfl⟩ := h
  obtain ⟨m, hm, rfl⟩ := List.mem_map.mp hx
  rw [loadIndex] at hi
  split at hi
  · obtain rfl := except_pure_ok.mp hi
    cases hm
  · rename_i hrecord
    simp only [except_bind_ok, except_pure_ok] at hi
    obtain ⟨idx, hidx, rfl⟩ := hi
    rw [List.mem_singleton.mp hm]
    exact ⟨rfl, _, _, _, hrecord, hidx⟩
  all_goals simp at hi

/-- What a record leads to is not changed by an append to the toc that the record is in. -/
theorem ownEntries_frame (h : Framed d d' p) {r : TocRecord} (hlog : d.toc p = some log)
    (hr : r ∈ log) (hm : masks (populateMaskedEntriesList log) r = false)
    {entries : List Entry} (hread : read d indexFlags depth p {} {} = .ok entries) :
    ownEntries d' depth p key r = ownEntries d depth p key r := by
  cases r with
  | init | index | clear | clearAll => rfl
  | subToc path =>
    have hopened : Mounts d p (subTocPath d p.dirName path) :=
      (mem_openedSubTocs hlog).mpr ⟨path, hr, by simpa [masks, TocRecord.maskable] using hm, rfl⟩
    have hreach := not_reaches_self hread hopened
    have hrs : readSub d' indexFlags depth (subTocPath d p.dirName path) key =
        readSub d indexFlags depth (subTocPath d p.dirName path) key := by
      cases depth with
      | zero => rfl
      | succ depth =>
        rw [readSub, readSub, remap_congr (h.toc _ fun he => hreach (by rw [he]))]
        congr 1
        funext key'
        exact read_same rfl (fun q hq => h.same fun he => hreach (by rwa [he] at hq)) key' key
    simp only [ownEntries, h.subToc p log path hlog hr, hrs]

/-- The name and offset under which the record can be masked that leads to an index. -/
def Loaded.maskName (x : Loaded) : BaseName × Nat :=
  match x.subToc with
  | none => (x.index.path.baseName, x.index.offset)
  | some q => (q.baseName, 0)

def Entry.maskName (e : Entry) : Option (BaseName × Nat) :=
  match e.subToc with
  | none => e.record.maskable
  | some q => some (q.baseName, 0)

theorem maskName_ownEntries {r : TocRecord} {entries : List Entry}
    (h : ownEntries d depth p key r = .ok entries) : ∀ e ∈ entries, e.maskName = r.maskable := by
  intro e he
  rw [Entry.maskName, ownEntries_via h he]
  cases r with
  | subToc path => simp [TocRecord.via, TocRecord.maskable, subTocPath_baseName]
  | init | index =>
    obtain rfl : entries = [_] := (except_pure_ok.mp h).symm
    obtain rfl := List.mem_singleton.mp he
    rfl
  | clear | clearAll =>
    obtain rfl : entries = [] := (except_pure_ok.mp h).symm
    cases he

theorem maskName_loadEntry {e : Entry} (h : loadEntry version e = .ok l) :
    ∀ x ∈ l, e.maskName = some x.maskName := by
  intro x hx
  obtain ⟨hsub, path, offset, encoded, hrecord, hidx⟩ := mem_loadEntry h hx
  rw [Entry.maskName, Loaded.maskName, hsub]
  cases e.subToc with
  | some q => rfl
  | none =>
    rw [hrecord, TocIndex.decode_ok hidx]
    rfl

/-- Each index that is visible was reached from a record of the toc that is not masked. -/
theorem exists_entry (hlog : d.toc p = some log)
    (hinit : ∃ rest, log = .init key :: rest ∧ ∀ k, .init k ∉ rest)
    (hl : loadIndexesAndSubTocs d version depth p = .ok l) {x : Loaded} (hx : x ∈ l) :
    ∃ r ∈ log, ∃ entries, ownEntries d depth p key r = .ok entries ∧ ∃ e ∈ entries, ∃ xs,
      loadEntry version e = .ok xs ∧ x ∈ xs := by
  rw [loadIndexesAndSubTocs, if_pos (Disk.pathExists_of_toc hlog), read_parts hlog hinit] at hl
  simp only [except_bind_ok, except_map_ok, except_pure_ok] at hl
  obtain ⟨_, ⟨own, hown, rfl⟩, parts, hparts, rfl⟩ := hl
  obtain ⟨xs, hxs, hx⟩ := List.mem_flatten.mp (List.mem_reverse.mp hx)
  obtain ⟨e, he, hload⟩ := mem_mapM hparts hxs
  obtain ⟨es, hes, he⟩ := List.mem_flatten.mp he
  obtain ⟨r, hr, hentries⟩ := mem_mapM hown hes
  exact ⟨r, List.mem_of_mem_filter hr, es, hentries, e, he, xs, hload, hx⟩

theorem exists_record (hlog : d.toc p = some log)
    (hinit : ∃ rest, log = .init key :: rest ∧ ∀ k, .init k ∉ rest)
    (hl : loadIndexesAndSubTocs d version depth p = .ok l) {x : Loaded} (hx : x ∈ l) :
    ∃ r ∈ log, x.subToc = TocRecord.via d p.dirName r ∧ r.maskable = some x.maskName := by
  obtain ⟨r, hr, es, hentries, e, he, xs, hload, hx⟩ := exists_entry hlog hinit hl hx
  refine ⟨r, hr, ?_, ?_⟩
  · rw [(mem_loadEntry hload hx).1, ownEntries_via hentries he]
  · rw [← maskName_ownEntries hentries e he, maskName_loadEntry hload x hx]

/-- An index of the database's own toc is in its directory. -/
theorem dirName_own (hlog : d.toc p = some log)
    (hinit : ∃ rest, log = .init key :: rest ∧ ∀ k, .init k ∉ rest)
    (hl : loadIndexesAndSubTocs d version depth p = .ok l) {x : Loaded} (hx : x ∈ l)
    (hnone : x.subToc = none) : x.index.path.dirName = p.dirName := by
  obtain ⟨r, hr, es, hentries, e, he, xs, hload, hx⟩ := exists_entry hlog hinit hl hx
  obtain ⟨hsub, path, offset, encoded, -, hidx⟩ := mem_loadEntry hload hx
  rw [TocIndex.decode_ok hidx]
  rw [hnone, ownEntries_via hentries he] at hsub
  cases r with
  | init | index =>
    obtain rfl : es = [_] := (except_pure_ok.mp hentries).symm
    obtain rfl := List.mem_singleton.mp he
    rfl
  | clear | clearAll =>
    obtain rfl : es = [] := (except_pure_ok.mp hentries).symm
    cases he
  | subToc path => cases hsub

/-- A sub-toc through which an index is visible exists. -/
theorem toc_of_subToc (hlog : d.toc p = some log)
    (hinit : ∃ rest, log = .init key :: rest ∧ ∀ k, .init k ∉ rest)
    (hl : loadIndexesAndSubTocs d version depth p = .ok l) {x : Loaded} (hx : x ∈ l)
    (hq : x.subToc = some q) : ∃ sub, d.toc q = some sub := by
  obtain ⟨r, hr, es, hentries, e, he, xs, hload, hx⟩ := exists_entry hlog hinit hl hx
  rw [(mem_loadEntry hload hx).1, ownEntries_via hentries he] at hq
  cases r with
  | init | index | clear | clearAll => cases hq
  | subToc path =>
    obtain rfl : subTocPath d p.dirName path = q := Option.some.inj hq
    simp only [ownEntries, except_bind_ok] at hentries
    obtain ⟨sub, hsub, -⟩ := hentries
    cases depth with
    | zero => cases hsub
    | succ depth =>
      simp only [readSub, except_bind_ok] at hsub
      obtain ⟨_, -, hread⟩ := hsub
      cases hsublog : d.toc (subTocPath d p.dirName path) with
      | some log => exact ⟨log, rfl⟩
      | none => rw [read, hsublog] at hread; cases hread

theorem isLoaded (hl : loadIndexesAndSubTocs d version depth p = .ok l) :
    ∀ x ∈ l, x.index.IsLoaded := by
  rw [loadIndexesAndSubTocs] at hl
  split at hl
  · simp only [except_bind_ok, except_pure_ok] at hl
    obtain ⟨entries, -, parts, hparts, rfl⟩ := hl
    intro x hx
    obtain ⟨xs, hxs, hx⟩ := List.mem_flatten.mp (List.mem_reverse.mp hx)
    obtain ⟨e, -, he⟩ := mem_mapM hparts hxs
    obtain ⟨-, path, offset, encoded, -, hidx⟩ := mem_loadEntry he hx
    rw [TocIndex.decode_ok hidx]
    exact ⟨rfl, rfl⟩
  · obtain rfl := except_pure_ok.mp hl
    simp

theorem exists_record_of_overlaid (h : d.Overlaid) (hlog : d.toc p = some log)
    (hl : loadIndexesAndSubTocs d version depth p = .ok l) {x : Loaded} (hx : x ∈ l) :
    ∃ r ∈ log, x.subToc = TocRecord.via d p.dirName r ∧ r.maskable = some x.maskName := by
  obtain ⟨key, rest, hrest⟩ := h.init p log hlog
  exact exists_record hlog ⟨rest, hrest⟩ hl hx

/-- The sub-toc of an index is the database's own, under another name, or the toc of another one. -/
theorem via_loaded (h : d.Overlaid) (hlog : d.toc p = some log)
    (hl : loadIndexesAndSubTocs d version depth p = .ok l) {x : Loaded} (hx : x ∈ l)
    (hq : x.subToc = some q) :
    q.dirName = p.dirName ∧ q.baseName ≠ masterName ∨
      q.dirName ≠ p.dirName ∧ q.baseName = masterName := by
  obtain ⟨r, hr, hvia, -⟩ := exists_record_of_overlaid h hlog hl hx
  rw [hq] at hvia
  cases r with
  | init | index | clear | clearAll => cases hvia
  | subToc path =>
    obtain rfl : q = subTocPath d p.dirName path := by simpa [TocRecord.via] using hvia
    rcases h.subToc p log hlog path hr with ⟨base, rfl, hbase⟩ | ⟨directory, rfl, hne, source, hs⟩
    · exact .inl ⟨rfl, hbase⟩
    · rw [subTocPath_exists (Disk.pathExists_of_toc hs)]
      exact .inr ⟨hne, rfl⟩

/-- Only masks of single entries are appended. -/
def OnlyClears (added : List TocRecord) : Prop := ∀ r ∈ added, ∃ path offset, r = .clear path offset

/-- The entries that such records mask. -/
def clearedNames (added : List TocRecord) : MaskedEntries := populateMaskedEntriesList added

theorem populateFrom_clears {seen added : List TocRecord} (h : OnlyClears added) :
    populateFrom seen added = clearedNames added := by
  rw [clearedNames, populateMaskedEntriesList]
  generalize ([] : List TocRecord) = seen'
  induction added generalizing seen seen' with
  | nil => rfl
  | cons r added ih =>
    obtain ⟨path, offset, rfl⟩ := h r (.head _)
    rw [populateFrom, populateFrom, ih fun r hr => h r (.tail _ hr)]
    rfl

theorem filter_cleared {added : List TocRecord} (h : OnlyClears added) :
    ((log ++ added).filter fun r => !masks (populateMaskedEntriesList (log ++ added)) r) =
      ((log.filter fun r => !masks (populateMaskedEntriesList log) r).filter
        fun r => !masks (clearedNames added) r) ++ added := by
  have hmasks : ∀ r, masks (populateMaskedEntriesList (log ++ added)) r =
      (masks (populateMaskedEntriesList log) r || masks (clearedNames added) r) := by
    intro r
    rw [populateMaskedEntriesList, populateFrom_append, List.nil_append, populateFrom_clears h,
      masks, masks, masks, populateMaskedEntriesList]
    cases r.maskable <;> simp
  rw [List.filter_append, List.filter_filter]
  congr 1
  · refine List.filter_congr fun r _ => ?_
    rw [hmasks, Bool.not_or, Bool.and_comm]
  · refine List.filter_eq_self.mpr fun r hr => ?_
    obtain ⟨path, offset, rfl⟩ := h r hr
    rfl

theorem clears_ownEntries {added : List TocRecord} (h : OnlyClears added) :
    ∃ parts, added.mapM (ownEntries d depth p key) = .ok parts ∧ parts.flatten = [] := by
  induction added with
  | nil => exact ⟨[], rfl, rfl⟩
  | cons r added ih =>
    obtain ⟨path, offset, rfl⟩ := h r (.head _)
    obtain ⟨parts, hparts, hflat⟩ := ih fun r hr => h r (.tail _ hr)
    exact ⟨[] :: parts, by simp [List.mapM_cons, ownEntries, hparts, bind, Except.bind, pure,
      Except.pure], hflat⟩

/-- An index is hidden if the record that leads to it is masked. -/
theorem load_cleared {added : List TocRecord} (h : Framed d d' p) (hlog : d.toc p = some log)
    (hinit : ∃ rest, log = .init key :: rest ∧ ∀ k, .init k ∉ rest)
    (hlog' : d'.toc p = some (log ++ added)) (hadded : OnlyClears added)
    (hl : loadIndexesAndSubTocs d version depth p = .ok l) :
    loadIndexesAndSubTocs d' version depth p =
      .ok (l.filter fun x => x.maskName ∉ clearedNames added) := by
  rw [loadIndexesAndSubTocs, if_pos (Disk.pathExists_of_toc hlog)] at hl
  simp only [except_bind_ok, except_pure_ok] at hl
  obtain ⟨entries, hread, parts, hparts, rfl⟩ := hl
  have hread₀ := hread
  rw [read_parts hlog hinit] at hread
  simp only [except_map_ok] at hread
  obtain ⟨own, hown, rfl⟩ := hread
  have hkept : ∀ r ∈ log.filter (fun r => !masks (populateMaskedEntriesList log) r), ∀ es,
      ownEntries d depth p key r = .ok es → ∀ e ∈ es,
        (!e.maskName.any fun n => n ∈ clearedNames added) = !masks (clearedNames added) r :=
    fun r _ es hes e he => by rw [maskName_ownEntries hes e he, masks]
  obtain ⟨own', hown', hflat⟩ := mapM_filter hkept hown
  obtain ⟨parts', hparts', hflat'⟩ : ∃ parts', (own.flatten.filter fun e =>
      !e.maskName.any fun n => n ∈ clearedNames added).mapM (loadEntry version) = .ok parts' ∧
        parts'.flatten = parts.flatten.filter fun x => x.maskName ∉ clearedNames added :=
    mapM_filter (fun e _ xs hxs x hx => by simp [maskName_loadEntry hxs x hx]) hparts
  have hframe : ∀ r ∈ (log.filter fun r => !masks (populateMaskedEntriesList log) r).filter
      fun r => !masks (clearedNames added) r, ownEntries d' depth p key r =
        ownEntries d depth p key r := by
    intro r hr
    obtain ⟨hr, hm⟩ := List.mem_filter.mp (List.mem_filter.mp hr).1
    exact ownEntries_frame h hlog hr (by simpa using hm) hread₀
  obtain ⟨none, hnone, hempty⟩ : ∃ parts, added.mapM (ownEntries d' depth p key) = .ok parts ∧
      parts.flatten = [] := clears_ownEntries hadded
  have hread' : read d' indexFlags depth p {} {} =
      .ok (own.flatten.filter fun e => !e.maskName.any fun n => n ∈ clearedNames added) := by
    have hinit' : ∃ rest', log ++ added = .init key :: rest' ∧ ∀ k, .init k ∉ rest' := by
      obtain ⟨rest, rfl, hrest⟩ := hinit
      refine ⟨rest ++ added, rfl, fun k hk => ?_⟩
      rcases List.mem_append.mp hk with hk | hk
      · exact hrest k hk
      · obtain ⟨_, _, he⟩ := hadded _ hk
        cases he
    rw [read_parts hlog' hinit', filter_cleared hadded, List.mapM_append, mapM_congr hframe, hown',
      hnone]
    simp [bind, Except.bind, pure, Except.pure, Functor.map, Except.map, hflat, hempty]
  rw [loadIndexesAndSubTocs, if_pos (Disk.pathExists_of_toc hlog'), hread']
  simp only [bind, Except.bind, hparts', pure, Except.pure]
  rw [hflat', List.filter_reverse]

end TocHandler

end Fdb5
