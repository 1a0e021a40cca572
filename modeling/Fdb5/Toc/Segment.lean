import Fdb5.Library.LastWins
import Fdb5.Toc.Disk

/-! An index in write mode over B-tree files: what one put, flush or reopening makes of it. -/
namespace Fdb5

open Effect LastWins

/-- Nothing in the key can make an index reject it. -/
structure Key.Encodable (k : Key) : Prop where
  values : ∃ s, k.valuesToString = .ok s
  canonical : ∀ keyword ∈ k.keys, ∃ v, k.canonicalValue keyword = .ok v

/-- A canonical key has every value as it is. -/
theorem Key.canonicalValue_of_canonical {k : Key} {keyword : String} (hc : k.canonical = true)
    (h : keyword ∈ k.keys) : ∃ v, k.canonicalValue keyword = .ok v := by
  obtain ⟨v, hv⟩ := Option.isSome_iff_exists.mp (Std.ExtTreeMap.isSome_getElem?_iff_mem.mpr h)
  exact ⟨v, by simp [canonicalValue, find, hv, canonicalise, hc]⟩

/-- Encoding a canonical key changes nothing in it. -/
theorem Key.encode_canonical {k : Key} (hc : k.canonical = true) :
    ∃ e, k.encode = .ok e ∧ e.keys = k.keys ∧ e.canonical = true := by
  have hvalues : (k.keys.toList.mapM fun kv => do
      return (kv.1, ← k.canonicalise kv.1 kv.2) : Except Failure (List (String × String))) =
      .ok k.keys.toList := by
    generalize k.keys.toList = l
    induction l with
    | nil => rfl
    | cons kv l ih =>
      rw [List.mapM_cons, ih]
      simp [canonicalise, hc, bind, Except.bind, pure, Except.pure]
  refine ⟨_, by rw [encode, hvalues]; simp [hc, bind, Except.bind, pure, Except.pure]; rfl, ?_, rfl⟩
  exact ofList_toList k.keys

def Key.fingerprint (k : Key) : String :=
  match k.valuesToString with
  | .ok s => s
  | .error _ => ""

theorem Key.Encodable.fingerprint {k : Key} (h : k.Encodable) :
    k.valuesToString = .ok k.fingerprint := by
  obtain ⟨s, hs⟩ := h.values
  rw [Key.fingerprint, hs]

namespace BTreeKey

variable {key : String}

theorem ofString_ok (h : key.utf8ByteSize ≤ 32) : ofString key = .ok (text key) := by
  simp [ofString, assert, h, bind, Except.bind, pure, Except.pure]

theorem ofString_error (h : ¬ key.utf8ByteSize ≤ 32) : ofString key = .error (.assertion "s.length() <= SIZE") := by
  simp [ofString, assert, h, bind, Except.bind]

end BTreeKey

/-- A B-tree index has the key under its own fingerprint. -/
structure Key.Storable (k : Key) : Prop extends Key.Encodable k where
  length : k.fingerprint.utf8ByteSize ≤ 32
  unpadded : BTreeKey.text k.fingerprint = k.fingerprint

theorem Key.Storable.btreeKey {k : Key} (h : k.Storable) : BTreeKey.ofString k.fingerprint = .ok k.fingerprint := by
  rw [BTreeKey.ofString_ok h.length, h.unpadded]

/-- A field put in an index. -/
structure Put where
  key : Key
  location : FieldLocation

namespace Put

def fingerprint (p : Put) : String := p.key.fingerprint

/-- What a B-tree index has the field under. -/
def stored (p : Put) : String := BTreeKey.text p.fingerprint

/-- The reference under which an index with these URIs stores the field. -/
def ref (uris : List URI) (p : Put) : FieldRef where
  uriId := uris.idxOf p.location.uri
  offset := p.location.offset
  length := p.location.length

/-- The pages of a segment that holds the puts. -/
def pages (uris : List URI) (puts : List Put) : Pages := mapOf stored (ref uris) puts

theorem pages_concat (uris : List URI) (puts : List Put) (p : Put) :
    pages uris (puts ++ [p]) = (pages uris puts).insert p.stored (p.ref uris) :=
  mapOf_concat puts p

/-- The pages of fields that each have their fingerprint as key. -/
theorem pages_getElem? {uris : List URI} {puts : List Put} (h : ∀ p ∈ puts, p.key.Storable) (fingerprint : String) :
    (pages uris puts)[fingerprint]? = (puts.findRev? fun p => p.fingerprint = fingerprint).map (ref uris) := by
  have hstored : puts.findRev? (fun p => p.stored = fingerprint) = puts.findRev? fun p => p.fingerprint = fingerprint :=
    findRev?_congr fun p hp => by rw [show p.stored = p.fingerprint from (h p hp).unpadded]
  rw [pages, mapOf_getElem?, hstored]

theorem ref_prefix {uris uris' : List URI} {p : Put} (h : uris <+: uris')
    (hp : p.location.uri ∈ uris) : p.ref uris' = p.ref uris := by
  obtain ⟨l, rfl⟩ := h
  rw [ref, ref, List.idxOf_append, if_pos hp]

theorem pages_prefix {uris uris' : List URI} {puts : List Put} (h : uris <+: uris')
    (hp : ∀ p ∈ puts, p.location.uri ∈ uris) : pages uris' puts = pages uris puts :=
  mapOf_congr fun p hm => ref_prefix h (hp p hm)

end Put

namespace Disk

variable {d : Disk} {call : String} {w : Write} {Q : Unit → Disk → Prop} {E : Failure → Disk → Prop}

/-- Without faults a system call does what it is asked to. -/
theorem ends_syscall (h : d.faults = []) : Ends (syscall call) d Q E ↔ Q () d := by
  simp [syscall, h]

theorem ends_write (h : d.faults = []) : Ends (write w) d Q E ↔ Q () (d.append w) := by
  simp [write, ends_syscall h]

@[simp] theorem faults_append : (d.append w).faults = d.faults := rfl

@[simp] theorem stamp_append : (d.append w).stamp = d.stamp := rfl

/-- A segment lies inside its file. -/
theorem segment_lt_size {p : PathName} {offset : Nat} {pages : Pages}
    (h : d.segment p offset = some pages) : offset < d.size p := by
  induction d using induction_on generalizing pages with
  | empty => cases h
  | append d w ih =>
    rw [segment_append] at h
    rw [size_append]
    cases w with
    | segment q o pages' =>
      simp only [Write.onSegment, Write.onSize] at h ⊢
      by_cases hq : q = p
      · by_cases ho : o = offset
        · simp only [hq, ho, if_true]
          omega
        · simp only [hq, ho, and_false, if_false, if_true] at h ⊢
          have := ih h
          omega
      · simp only [hq, false_and, if_false] at h ⊢
        exact ih h
    | remove q =>
      simp only [Write.onSegment, Write.onSize] at h ⊢
      split at h
      · cases h
      · simp only [*, if_false]
        exact ih h
    | toc | data | schema => exact ih h

theorem segment_size (p : PathName) : d.segment p (d.size p) = none := by
  cases h : d.segment p (d.size p) with
  | none => rfl
  | some pages => exact absurd (segment_lt_size h) (Nat.lt_irrefl _)

end Disk

/-- The axes have the value for the keyword. -/
def AxisValue (axis : Std.ExtTreeMap String (Std.ExtTreeSet String)) (keyword v : String) : Prop :=
  ∃ s, axis[keyword]? = some s ∧ v ∈ s

/-- The axes of an index that the puts went to. -/
structure Covers (axis : Std.ExtTreeMap String (Std.ExtTreeSet String)) (puts : List Put) : Prop where
  keyword : ∀ keyword, keyword ∈ axis ↔ ∃ p ∈ puts, keyword ∈ p.key.keys
  value : ∀ keyword v, AxisValue axis keyword v ↔
    ∃ p ∈ puts, keyword ∈ p.key.keys ∧ p.key.canonicalValue keyword = .ok v

theorem covers_nil : Covers ∅ [] := ⟨by simp, by simp [AxisValue]⟩

namespace IndexAxis

/-- One turn of the loop of `insert`. -/
def addValue (axis : Std.ExtTreeMap String (Std.ExtTreeSet String)) (keyword value : String) :
    Std.ExtTreeMap String (Std.ExtTreeSet String) :=
  (axis.alter keyword fun s => some (s.getD ∅)).modify keyword fun s => s.insert value

variable {axis : Std.ExtTreeMap String (Std.ExtTreeSet String)} {keyword keyword' value v : String}

theorem addValue_getElem? : (addValue axis keyword value)[keyword']? =
    if keyword = keyword' then some ((axis[keyword]?.getD ∅).insert value)
    else axis[keyword']? := by
  rw [addValue, Std.ExtTreeMap.getElem?_modify, Std.ExtTreeMap.getElem?_alter_self,
    Std.ExtTreeMap.getElem?_alter]
  by_cases h : keyword = keyword' <;> simp [h]

theorem mem_addValue : keyword' ∈ addValue axis keyword value ↔
    keyword' ∈ axis ∨ keyword = keyword' := by
  rw [← Std.ExtTreeMap.isSome_getElem?_iff_mem, ← Std.ExtTreeMap.isSome_getElem?_iff_mem,
    addValue_getElem?]
  by_cases h : keyword = keyword' <;> simp [h]

theorem axisValue_addValue : AxisValue (addValue axis keyword value) keyword' v ↔
    AxisValue axis keyword' v ∨ keyword = keyword' ∧ value = v := by
  rw [AxisValue, AxisValue, addValue_getElem?]
  by_cases h : keyword = keyword'
  · subst h
    cases axis[keyword]? <;> simp [or_comm]
  · simp [h]

/-- The loop of `insert` adds one value for each keyword. -/
theorem ends_insert_loop {key : Key} {keywords : List String}
    (hk : ∀ keyword ∈ keywords, ∃ v, key.canonicalValue keyword = .ok v) :
    ∀ a : IndexAxis, Ends (keywords.forM fun keyword => do
        modify fun a => { a with axis := a.axis.alter keyword fun s => some (s.getD ∅) }
        let value ← lift (key.canonicalValue keyword)
        modify fun a => { a with axis := a.axis.modify keyword fun s => s.insert value }) a
      (fun _ b => b.readOnly = a.readOnly ∧
        (∀ keyword, keyword ∈ b.axis ↔ keyword ∈ a.axis ∨ keyword ∈ keywords) ∧
        ∀ keyword v, AxisValue b.axis keyword v ↔ AxisValue a.axis keyword v ∨
          keyword ∈ keywords ∧ key.canonicalValue keyword = .ok v) fun _ _ => False := by
  induction keywords with
  | nil => intro a; exact ⟨rfl, by simp, by simp⟩
  | cons keyword keywords ih =>
    intro a
    obtain ⟨value, hv⟩ := hk keyword List.mem_cons_self
    change Ends (_ >>= fun _ => keywords.forM _) a _ _
    rw [ends_bind]
    simp only [ends_bind, ends_modify, hv, ends_lift]
    refine ⟨fun _ h => ?_, fun _ h => by cases h⟩
    cases h
    apply (ih (fun k hk' => hk k (List.mem_cons_of_mem _ hk')) _).mono _ fun _ _ h => h
    rintro _ b ⟨hr, hmem, hval⟩
    refine ⟨hr, fun k => ?_, fun k v => ?_⟩
    · rw [hmem k]
      change k ∈ addValue a.axis keyword value ∨ _ ↔ _
      rw [mem_addValue, List.mem_cons, or_assoc, eq_comm]
    · rw [hval k v]
      change AxisValue (addValue a.axis keyword value) k v ∨ _ ↔ _
      rw [axisValue_addValue, List.mem_cons, or_assoc]
      refine or_congr_right ?_
      constructor
      · rintro (⟨rfl, rfl⟩ | ⟨hm, h⟩)
        · exact ⟨.inl rfl, hv⟩
        · exact ⟨.inr hm, h⟩
      · rintro ⟨rfl | hm, h⟩
        · rw [hv, Except.ok.injEq] at h
          exact .inl ⟨rfl, h⟩
        · exact .inr ⟨hm, h⟩

theorem ends_insert_values {a : IndexAxis} {key : Key} (hr : a.readOnly = false)
    (hk : key.Encodable) :
    Ends (insert key) a (fun _ b => b.readOnly = false ∧
      (∀ keyword, keyword ∈ b.axis ↔ keyword ∈ a.axis ∨ keyword ∈ key.keys) ∧
      ∀ keyword v, AxisValue b.axis keyword v ↔ AxisValue a.axis keyword v ∨
        keyword ∈ key.keys ∧ key.canonicalValue keyword = .ok v) fun _ _ => False := by
  rw [insert]
  simp only [ends_bind, ends_get, ends_ensure, hr, true_implies, not_true_eq_false, false_implies,
    and_true]
  apply (ends_insert_loop (fun keyword h => hk.canonical keyword (by simpa using h)) a).mono _ fun _ _ h => h
  rintro _ b ⟨hb, hmem, hval⟩
  refine ⟨hb.trans hr, fun k => ?_, fun k v => ?_⟩
  · simpa using hmem k
  · simpa using hval k v

theorem ends_insert {a : IndexAxis} {p : Put} {puts : List Put} (hr : a.readOnly = false)
    (hk : p.key.Encodable) (hc : Covers a.axis puts) :
    Ends (insert p.key) a (fun _ b => b.readOnly = false ∧ Covers b.axis (puts ++ [p]))
      fun _ _ => False := by
  refine (ends_insert_values hr hk).mono
    (fun _ b ⟨hb, hmem, hval⟩ => ⟨hb, fun k => ?_, fun k v => ?_⟩) fun _ _ h => h
  · rw [hmem, hc.keyword]
    simp [or_and_right, exists_or]
  · rw [hval, hc.value]
    simp [or_and_right, exists_or]

end IndexAxis

section Records

variable {η : Type} {version offset : Nat} {directory : String} {path : PathName}
  {e : EncodedIndex} {idx : TocIndex η}

theorem TocIndex.encode_ok {k : Key} (hk : idx.key.Encodable) (he : idx.key.encode = .ok k) :
    idx.encode version =
      .ok { files := idx.files.encode, axes := idx.axes.axis, key := k, type := idx.type } := by
  by_cases hv : 3 ≤ version <;>
    simp [encode, he, hk.fingerprint, hv, bind, Except.bind, pure, Except.pure]

/-- An index as it is read from a record. -/
def TocIndex.ofRecord (directory : String) (path : PathName) (offset : Nat) (e : EncodedIndex) :
    TocIndex η where
  key := e.key
  type := e.type
  axes := { axis := e.axes }
  files := .decode directory e.files
  write := false
  path
  offset

theorem TocIndex.decode_of (h : 3 ≤ version →
      e.axes.isEmpty = false ∧ e.key.empty = false ∧ e.type ≠ "") :
    decode version directory path offset e = .ok (ofRecord (η := η) directory path offset e) := by
  rw [decode]
  by_cases hv : 3 ≤ version
  · simp [assert, hv, h hv, bind, Except.bind, pure, Except.pure, ofRecord]
  · simp [hv, pure, Except.pure, ofRecord]

theorem TocIndex.decode_ok (h : decode version directory path offset e = .ok idx) :
    idx = ofRecord directory path offset e := by
  rw [decode] at h
  by_cases hv : 3 ≤ version
  · by_cases ha : e.axes.isEmpty = false <;> by_cases hk : e.key.empty = false <;>
      by_cases ht : e.type = "" <;>
      simp [assert, hv, ha, hk, ht, bind, Except.bind, pure, Except.pure] at h
    exact h.symm
  · simp [hv, pure, Except.pure] at h
    exact h.symm

end Records

/-- At most one write since `d`, of the segment at `offset` of the file `p`. -/
def Disk.SegmentWritten (p : PathName) (offset : Nat) (d d' : Disk) : Prop :=
  d' = d ∨ ∃ pages, d' = d.append (.segment p offset pages)

namespace Disk.SegmentWritten

variable {d d' : Disk} {p q : PathName} {offset o : Nat}

theorem segment_ne (h : SegmentWritten p offset d d') (hne : q ≠ p ∨ o ≠ offset) :
    d'.segment q o = d.segment q o := by
  obtain rfl | ⟨pages, rfl⟩ := h
  · rfl
  · rw [segment_append, Write.onSegment, if_neg fun h => hne.elim (· h.1.symm) (· h.2.symm)]

theorem faults (h : SegmentWritten p offset d d') : d'.faults = d.faults := by
  obtain rfl | ⟨pages, rfl⟩ := h <;> rfl

end Disk.SegmentWritten

namespace TocIndex

/-- An index open for writing whose current segment has the `flushed` puts on disk and the
`pending` ones in its pages only. -/
structure Writing (idx : TocIndex BTreeHandle) (d : Disk) (flushed pending : List Put) : Prop where
  write : idx.write = true
  filesWritable : idx.files.readOnly = false
  directory : idx.files.directory = idx.path.dirName
  axesWritable : idx.axes.readOnly = false
  axes : Covers idx.axes.axis (flushed ++ pending)
  known : ∀ p ∈ flushed ++ pending, p.location.uri ∈ idx.files.uris
  handle : idx.btree = some ⟨idx.path, false, idx.offset,
    Put.pages idx.files.uris (flushed ++ pending), !pending.isEmpty⟩
  segment : d.segment idx.path idx.offset = some (Put.pages idx.files.uris flushed)

variable {idx : TocIndex BTreeHandle} {d : Disk} {flushed pending : List Put} {p : Put}

/-- Opening a new index writes its first segment. -/
theorem ends_open_create {key : Key} {path : PathName} (hf : d.faults = [])
    (hn : d.segment path 0 = none) :
    Ends (openIndex TBTreeIndex) (create key path, d)
      (fun _ s => s.2 = d.append (.segment path 0 ∅) ∧ Writing s.1 s.2 [] [] ∧
        s.1.files = (create (η := BTreeHandle) key path).files ∧ s.1.path = path ∧
        s.1.offset = 0 ∧ s.1.key = key ∧ s.1.dirty = false ∧ s.1.type = "BTreeIndex")
      fun _ _ => False := by
  rw [openIndex]
  simp only [ends_bind, ends_map, ends_get, create, Option.isNone_none, if_true, ends_focus,
    TBTreeIndex, TBTreeIndex.build, Disk.ends_syscall hf, hn, ends_modify, decide_false,
    Bool.true_eq_false, Bool.false_eq_true, if_false, Disk.ends_write hf, ends_pure]
  refine ⟨trivial, ⟨rfl, rfl, rfl, rfl, covers_nil, by simp, rfl, ?_⟩,
    trivial, trivial, trivial, trivial, trivial, trivial⟩
  simp [Write.onSegment, Put.pages]

theorem ends_onBTree {η ν : Type} {idx : TocIndex η} {v : ν} {b : η}
    {x : EStateM Failure (η × ν) Unit} {Q : Unit → TocIndex η × ν → Prop}
    {E : Failure → TocIndex η × ν → Prop} (hb : idx.btree = some b) :
    Ends (onBTree x) (idx, v) Q E ↔ Ends x (b, v)
      (fun u t => Q u ({ idx with btree := some t.1 }, t.2))
      fun e t => E e ({ idx with btree := some t.1 }, t.2) := by
  unfold Ends onBTree EStateM.run
  simp only [hb, focus, EStateM.run]
  cases x (b, v) <;> rfl

theorem ends_put (hf : d.faults = []) (hw : Writing idx d flushed pending)
    (hk : p.key.Encodable) (hlength : p.fingerprint.utf8ByteSize ≤ 32) :
    Ends (put TBTreeIndex p.key p.location) (idx, d)
      (fun _ s => s.2 = d ∧ Writing s.1 d flushed (pending ++ [p]) ∧
        (∃ id, idx.files.insert p.location.uri = .ok (id, s.1.files)) ∧ s.1.path = idx.path ∧ s.1.offset = idx.offset ∧
        s.1.key = idx.key ∧ s.1.dirty = true ∧ s.1.type = idx.type)
      fun _ _ => False := by
  have hb := hw.handle
  obtain ⟨⟨uriId, files⟩, hins⟩ := UriStore.insert_ok hw.filesWritable p.location.uri
  obtain ⟨rfl, hmem, hpre, hdir, hro⟩ := UriStore.insert_id hins
  rw [put]
  simp only [ends_bind, ends_focus, ends_map, ends_get, ends_ensure, ends_lift, hb, hw.write,
    Option.isSome_some, true_implies, not_true_eq_false, false_implies, and_true, hins,
    hk.fingerprint, ends_modify]
  refine (IndexAxis.ends_insert hw.axesWritable hk hw.axes).mono (fun _ a ha => ?_)
    fun _ _ h => h
  refine ⟨fun r hr => ?_, fun _ h => by cases h⟩
  cases hr
  refine ⟨fun s hs => ?_, fun _ h => by cases h⟩
  cases hs
  have hkey : BTreeKey.ofString p.key.fingerprint = .ok p.stored := BTreeKey.ofString_ok hlength
  rw [ends_onBTree rfl]
  simp only [TBTreeIndex, TBTreeIndex.set, ends_bind, ends_lift, hkey, Except.ok.injEq, forall_eq', reduceCtorEq,
    false_implies, implies_true, ends_focus, Disk.ends_syscall hf, ends_modify, and_self, and_true, true_and]
  have hflushed := Put.pages_prefix hpre fun q hq => hw.known q (List.mem_append_left _ hq)
  have hall := Put.pages_prefix hpre hw.known
  refine ⟨⟨rfl, hro.trans hw.filesWritable, hdir.trans hw.directory, ha.1, ?_,
    fun q hq => ?_, ?_, ?_⟩, _, rfl⟩
  · rw [← List.append_assoc]
    exact ha.2
  · rw [← List.append_assoc, List.mem_append, List.mem_singleton] at hq
    rcases hq with hq | rfl
    · exact hpre.subset (hw.known q hq)
    · exact hmem
  · rw [← List.append_assoc, Put.pages_concat]
    simp [hall, Put.ref]
  · dsimp only
    rw [hflushed]
    exact hw.segment

/-- A fingerprint that is too long is refused after the axes and the URI were taken up. -/
theorem ends_put_long (hw : Writing idx d flushed pending) (hk : p.key.Encodable)
    (hlong : ¬ p.fingerprint.utf8ByteSize ≤ 32) :
    Ends (put TBTreeIndex p.key p.location) (idx, d) (fun _ _ => False)
      fun f s => f = .assertion "s.length() <= SIZE" ∧ s.2 = d := by
  have hb := hw.handle
  obtain ⟨⟨uriId, files⟩, hins⟩ := UriStore.insert_ok hw.filesWritable p.location.uri
  have hkey : BTreeKey.ofString p.key.fingerprint = .error (.assertion "s.length() <= SIZE") :=
    BTreeKey.ofString_error hlong
  rw [put]
  simp only [ends_bind, ends_focus, ends_map, ends_get, ends_ensure, ends_lift, hb, hw.write,
    Option.isSome_some, true_implies, not_true_eq_false, false_implies, and_true, hins,
    hk.fingerprint, ends_modify]
  refine (IndexAxis.ends_insert hw.axesWritable hk hw.axes).mono (fun _ a ha => ?_) fun _ _ h => h.elim
  refine ⟨fun r hr => ?_, fun _ h => by cases h⟩
  cases hr
  refine ⟨fun s hs => ?_, fun _ h => by cases h⟩
  cases hs
  rw [ends_onBTree rfl]
  simp only [TBTreeIndex, TBTreeIndex.set, ends_bind, ends_lift, hkey, reduceCtorEq, false_implies, implies_true,
    Except.error.injEq, forall_eq', and_self]

/-- Destroying a handle writes its pages back. -/
theorem ends_destroy {h : BTreeHandle} {Q : Unit → Disk → Prop} {E : Failure → Disk → Prop}
    (hf : d.faults = []) : Ends (TBTreeIndex.destroy h) d Q E ↔
      Q () (if h.dirty then d.append (.segment h.path h.offset h.pages) else d) := by
  have hrun : Ends TBTreeIndex.flush (h, d)
      (fun _ s => s.2 = if h.dirty then d.append (.segment h.path h.offset h.pages) else d)
      fun _ _ => False := by
    rw [TBTreeIndex.flush]
    simp only [ends_bind, ends_map, ends_get, ends_ite, ends_focus, Disk.ends_write hf,
      ends_modify, ends_pure]
    exact ⟨fun hd => by rw [if_pos hd], fun hd => by rw [if_neg hd]⟩
  unfold Ends at hrun ⊢
  simp only [TBTreeIndex.destroy, EStateM.run] at hrun ⊢
  cases hx : TBTreeIndex.flush (h, d) with
  | ok _ s =>
    rw [hx] at hrun
    rw [← (show s.2 = _ from hrun)]
  | error _ s =>
    rw [hx] at hrun
    exact hrun.elim

/-- A flush writes the segment's pages where some are pending. -/
theorem ends_flush (hf : d.faults = []) (hw : Writing idx d flushed pending)
    (hdirty : idx.dirty = true) :
    Ends (flush TBTreeIndex) (idx, d)
      (fun _ s => Disk.SegmentWritten idx.path idx.offset d s.2 ∧
        Writing s.1 s.2 (flushed ++ pending) [] ∧ s.1.files = idx.files ∧ s.1.axes = idx.axes ∧
        s.1.path = idx.path ∧ s.1.offset = idx.offset ∧ s.1.key = idx.key ∧ s.1.dirty = false ∧
        s.1.type = idx.type)
      fun _ _ => False := by
  have hb := hw.handle
  rw [flush]
  simp only [ends_bind, ends_map, ends_get, ends_ensure, hw.write, true_implies, not_true_eq_false,
    false_implies, and_true, hdirty, if_true, ends_modify, ends_onBTree hb, TBTreeIndex,
    TBTreeIndex.flush]
  cases pending with
  | nil =>
    simp only [List.isEmpty_nil, Bool.not_true, Bool.false_eq_true, if_false, ends_pure]
    refine ⟨.inl rfl, rfl, hw.filesWritable, hw.directory, hw.axesWritable, ?_, ?_, ?_, ?_⟩
    · simpa using hw.axes
    · simpa using hw.known
    · simp
    · simpa using hw.segment
  | cons p pending =>
    simp only [List.isEmpty_cons, Bool.not_false, if_true, ends_bind, ends_focus,
      Disk.ends_write hf, ends_modify]
    refine ⟨.inr ⟨_, rfl⟩, rfl, hw.filesWritable, hw.directory, hw.axesWritable, ?_, ?_, ?_, ?_⟩
    · simpa using hw.axes
    · simpa using hw.known
    · simp
    · simp [Write.onSegment]

/-- Reopening writes what is pending and starts an empty segment at the end of the file. -/
theorem ends_reopen (hf : d.faults = []) (hw : Writing idx d flushed pending) :
    Ends (reopen TBTreeIndex) (idx, d)
      (fun _ s => (∃ d₁, Disk.SegmentWritten idx.path idx.offset d d₁ ∧
          d₁.segment idx.path idx.offset =
            some (Put.pages idx.files.uris (flushed ++ pending)) ∧
          s.1.offset = d₁.size idx.path ∧ s.2 = d₁.append (.segment idx.path s.1.offset ∅)) ∧
        Writing s.1 s.2 [] [] ∧ s.1.files = idx.files ∧ s.1.path = idx.path ∧
        s.1.key = idx.key ∧ s.1.dirty = idx.dirty ∧ s.1.type = idx.type)
      fun _ _ => False := by
  have hb := hw.handle
  set d₁ := if !pending.isEmpty then d.append (.segment idx.path idx.offset
    (Put.pages idx.files.uris (flushed ++ pending))) else d with hd₁
  have hwritten : Disk.SegmentWritten idx.path idx.offset d d₁ := by
    cases pending
    · exact .inl rfl
    · exact .inr ⟨_, rfl⟩
  have hsegment : d₁.segment idx.path idx.offset =
      some (Put.pages idx.files.uris (flushed ++ pending)) := by
    cases pending
    · simpa [hd₁] using hw.segment
    · simp [hd₁, Write.onSegment]
  have hf₁ : d₁.faults = [] := by cases pending <;> exact hf
  rw [reopen, close]
  simp only [ends_bind, ends_get, hb, ends_modify, ends_focus, TBTreeIndex, ends_destroy hf, ← hd₁,
    Disk.ends_syscall hf₁, ends_pure, IndexAxis.wipe, ends_ensure, hw.axesWritable, true_implies,
    not_true_eq_false, false_implies, and_true, openIndex, ends_map, Option.isNone_none, if_true,
    TBTreeIndex.build, Disk.segment_size, hw.write, Bool.true_eq_false, decide_false,
    Bool.false_eq_true, if_false, Disk.ends_write hf₁]
  refine ⟨⟨d₁, hwritten, hsegment, rfl, rfl⟩, rfl, hw.filesWritable, hw.directory, rfl, covers_nil,
    by simp, rfl, ?_⟩
  simp [Write.onSegment, Put.pages]

/-- Closing an index that has nothing pending leaves the disk as it is. -/
theorem ends_close (hw : Writing idx d flushed []) {Q : Unit → TocIndex BTreeHandle × Disk → Prop}
    {E : Failure → TocIndex BTreeHandle × Disk → Prop} :
    Ends (close TBTreeIndex) (idx, d) Q E ↔ Q () ({ idx with btree := none }, d) := by
  have hb := hw.handle
  rw [close]
  simp only [ends_bind, ends_get, hb, ends_modify, ends_focus]
  rfl

end TocIndex

end Fdb5
