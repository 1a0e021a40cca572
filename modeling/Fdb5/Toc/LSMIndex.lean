import Mathlib.Data.List.Forall2
import Fdb5.Toc.Segment

/-! The Parallax backend, and where it answers as the B-tree backend does. -/
namespace Fdb5

open Effect LastWins

/-- The stores of a Parallax volume, each named after the path of an index. -/
structure Parallax where
  stores : PathName → Pages := fun _ => ∅

theorem forall₂_getElem? {α β : Type} {R : α → β → Prop} {l : List α} {l' : List β} {i : Nat} {a : α}
    {b : β} (h : List.Forall₂ R l l') (ha : l[i]? = some a) (hb : l'[i]? = some b) : R a b := by
  obtain ⟨hi, rfl⟩ := List.getElem?_eq_some_iff.mp ha
  obtain ⟨hi', rfl⟩ := List.getElem?_eq_some_iff.mp hb
  exact h.get hi hi'

/-- What is left of a key that is passed on as a C string. -/
def cString (s : String) : String := String.ofList (s.toList.takeWhile (· ≠ Char.ofNat 0))

/-- The Parallax backend: the file at the path is a dummy that stays empty, and the offset is not
used. -/
def LSMIndex : BTreeIndex Parallax PathName where
  build path _ _ := return path
  get h key := return ((← get).stores h)[cString key]?
  set key ref := modify fun s =>
    (s.1, { stores := Function.update s.2.stores s.1 ((s.2.stores s.1).insert (cString key) ref) })
  flush := return ()
  destroy _ := return ()
  size _ := return 0

inductive IndexOp where
  | put (p : Put)
  | flush
  | reopen

/-- A `TOC_INDEX` entry of the one index file. -/
structure IndexEntry where
  offset : Nat
  index : EncodedIndex

namespace IndexOp

variable {ν η : Type} (B : BTreeIndex ν η) (version : Nat)

/-- One call on the index; a flush of a dirty index is followed by its entry. -/
def run : IndexOp → EStateM Failure (TocIndex η × ν) (List IndexEntry)
  | put p => do
    TocIndex.put B p.key p.location
    return []
  | flush => do
    let dirty := (← get).1.dirty
    TocIndex.flush B
    if dirty then
      let idx := (← get).1
      return [{ offset := idx.offset, index := ← lift (idx.encode version) }]
    else return []
  | reopen => do
    TocIndex.reopen B
    return []

def runAll : List IndexOp → EStateM Failure (TocIndex η × ν) (List IndexEntry)
  | [] => return []
  | op :: ops => do
    let entries ← op.run B version
    return entries ++ (← runAll ops)

/-- An index opened for writing and the calls on it. -/
def session (ops : List IndexOp) : EStateM Failure (TocIndex η × ν) (List IndexEntry) := do
  TocIndex.openIndex B
  runAll B version ops

end IndexOp

/-- The puts of a sequence of calls by segments: those before the current one, and of the current
one those that a flush wrote and those that none did yet. An entry has the number of its segment
and all puts before it. -/
structure Trace where
  closed : List (List Put) := []
  flushed : List Put := []
  pending : List Put := []
  dirty : Bool := false
  entries : List (Nat × List Put) := []

namespace Trace

def puts (t : Trace) : List Put := t.closed.flatten ++ (t.flushed ++ t.pending)

/-- What a segment has on disk. -/
def content (t : Trace) (n : Nat) : List Put := t.closed[n]?.getD t.flushed

/-- The last put of a segment on disk whose fingerprint is the same B-tree key. -/
def lastInSegment (t : Trace) (n : Nat) (fingerprint : String) : Option Put :=
  (t.content n).findRev? fun p => p.stored = BTreeKey.text fingerprint

/-- The last put of all, of whatever segment, whose fingerprint is the same C string. -/
def lastInFile (t : Trace) (fingerprint : String) : Option Put :=
  t.puts.findRev? fun p => cString p.fingerprint = cString fingerprint

def step (t : Trace) : IndexOp → Trace
  | .put p => { t with pending := t.pending ++ [p], dirty := true }
  | .flush =>
    if t.dirty then
      { t with
        flushed := t.flushed ++ t.pending
        pending := []
        dirty := false
        entries := t.entries ++ [(t.closed.length, t.puts)] }
    else t
  | .reopen => { t with closed := t.closed ++ [t.flushed ++ t.pending], flushed := [], pending := [] }

def of (ops : List IndexOp) : Trace := ops.foldl step {}

end Trace

/-- The answer of `get` where it finds this put, through the URI table of an entry that comes after
the puts `known`. -/
def Put.answer (known : List Put) : Option Put → Except Failure (Option FieldLocation)
  | none => .ok none
  | some p =>
    if p.location.uri ∈ known.map (·.location.uri) then
      .ok (some { p.location with uri := UriStore.reread p.location.uri, remapKey := {} })
    else .error (.assertion "itr != paths_.end()")

/-- The URIs of the puts, and no others. -/
def TableOf (uris : List URI) (puts : List Put) : Prop :=
  ∀ uri, uri ∈ uris ↔ uri ∈ puts.map (·.location.uri)

theorem TableOf.mem {uris : List URI} {puts : List Put} {p : Put} (h : TableOf uris puts)
    (hp : p ∈ puts) : p.location.uri ∈ uris := (h _).mpr (List.mem_map_of_mem hp)

/-- The entry has the table of the puts before it, as far as the index has it now. -/
def EntryTable (files : UriStore) (e : IndexEntry) (te : Nat × List Put) : Prop :=
  ∃ uris, uris <+: files.uris ∧ TableOf uris te.2 ∧
    e.index.files = UriStore.encode { files with uris }

theorem EntryTable.mono {files files' : UriStore} {e : IndexEntry} {te : Nat × List Put}
    (h : EntryTable files e te) (hp : files.uris <+: files'.uris)
    (hd : files'.directory = files.directory) : EntryTable files' e te := by
  obtain ⟨uris, hu, ht, he⟩ := h
  exact ⟨uris, hu.trans hp, ht, by rw [he]; simp [UriStore.encode, hd]⟩

namespace Trace

variable {t : Trace} {p : Put}

theorem step_flush_dirty (h : t.dirty = true) : t.step .flush =
    { t with
      flushed := t.flushed ++ t.pending
      pending := []
      dirty := false
      entries := t.entries ++ [(t.closed.length, t.puts)] } := by
  simp [step, h]

theorem step_flush_clean (h : t.dirty = false) : t.step .flush = t := by simp [step, h]

@[simp] theorem puts_put : (t.step (.put p)).puts = t.puts ++ [p] := by simp [step, puts]

@[simp] theorem puts_flush : (t.step .flush).puts = t.puts := by
  cases h : t.dirty <;> simp [step, puts, h]

@[simp] theorem puts_reopen : (t.step .reopen).puts = t.puts := by simp [step, puts]

end Trace

theorem EntryTable.get {files : UriStore} {e : IndexEntry} {te : Nat × List Put}
    (h : EntryTable files e te) (p : Put) :
    (UriStore.decode files.directory e.index.files).get (p.ref files.uris).uriId =
      if p.location.uri ∈ te.2.map (·.location.uri) then .ok (UriStore.reread p.location.uri)
      else .error (.assertion "itr != paths_.end()") := by
  obtain ⟨uris, ⟨rest, hrest⟩, ht, he⟩ := h
  have hdecode : (UriStore.decode files.directory e.index.files).uris = uris.map UriStore.reread := by
    rw [he]
    exact UriStore.decode_encode { files with uris }
  rw [UriStore.get, hdecode, List.getElem?_map, Put.ref, ← hrest, List.idxOf_append]
  by_cases hu : p.location.uri ∈ uris
  · rw [if_pos hu, if_pos ((ht _).mp hu), List.getElem?_idxOf hu]
    rfl
  · rw [if_neg hu, if_neg fun h => hu ((ht _).mpr h), List.getElem?_eq_none (by simp)]
    rfl

/-- The answer once the backend was asked for the fingerprint. -/
theorem EntryTable.ends_get {ν η : Type} {B : BTreeIndex ν η} {idx : TocIndex η} {b : η}
    {files : UriStore} {e : IndexEntry} {te : Nat × List Put} {k : Key} {v : ν} {p : Option Put}
    (h : EntryTable files e te) (hb : idx.btree = some b)
    (hfiles : idx.files = .decode files.directory e.index.files) (hk : k.Encodable)
    (hget : Ends (B.get b k.fingerprint) v
      (fun r u => u = v ∧ r = p.map (Put.ref files.uris)) fun _ _ => False) :
    Ends (idx.get B k {}) v (fun r _ => .ok r = Put.answer te.2 p)
      fun f _ => .error f = Put.answer te.2 p := by
  rw [TocIndex.get, TocIndex.withBTree, hb]
  simp only [ends_bind, ends_lift, hk.fingerprint]
  refine ⟨fun _ hfp => ?_, fun _ hfp => by cases hfp⟩
  cases hfp
  refine hget.mono ?_ fun _ _ h => h.elim
  rintro _ _ ⟨rfl, rfl⟩
  cases p with
  | none => simp [Put.answer]
  | some p =>
    simp only [Option.map_some, ends_bind, ends_lift, ends_pure, hfiles, h.get, Put.answer]
    split
    · refine ⟨fun uri hu => ?_, fun _ hu => by cases hu⟩
      cases hu
      rfl
    · exact ⟨fun _ hu => (by cases hu), fun _ hu => (by cases hu; rfl)⟩

/-- What every call keeps, over any backend, a sequence of calls keeps. -/
theorem IndexOp.ends_runAll {ν η : Type} {B : BTreeIndex ν η} {version : Nat} {ops : List IndexOp}
    {Sim : Trace → List IndexEntry → TocIndex η × ν → Prop}
    (h : ∀ op ∈ ops, ∀ t es s, Sim t es s →
      Ends (op.run B version) s (fun es' u => Sim (t.step op) (es ++ es') u) fun _ _ => False)
    {t : Trace} {es : List IndexEntry} {s : TocIndex η × ν} (hs : Sim t es s) :
    Ends (runAll B version ops) s (fun es' u => Sim (ops.foldl Trace.step t) (es ++ es') u)
      fun _ _ => False := by
  induction ops generalizing t es s with
  | nil => simpa [runAll] using hs
  | cons op ops ih =>
    rw [runAll]
    simp only [ends_bind, ends_pure]
    refine (h op (.head _) t es s hs).mono (fun es₁ u hu => ?_) fun _ _ h => h
    refine (ih (fun op hop => h op (.tail _ hop)) hu).mono (fun es₂ u' hu' => ?_) fun _ _ h => h
    rwa [← List.append_assoc]

section BTree

/-- The state of the B-tree index after the calls of the trace, with the entries so far. -/
structure BTreeSim (key : Key) (path : PathName) (t : Trace) (es : List IndexEntry)
    (s : TocIndex BTreeHandle × Disk) : Prop where
  faults : s.2.faults = []
  writing : s.1.Writing s.2 t.flushed t.pending
  sameKey : s.1.key = key
  samePath : s.1.path = path
  dirty : s.1.dirty = t.dirty
  table : TableOf s.1.files.uris t.puts
  segments : ∃ offsets : List Nat, offsets.length = t.closed.length ∧
    (∀ n o : Nat, offsets[n]? = some o → o ≠ s.1.offset ∧
      s.2.segment path o = some (Put.pages s.1.files.uris (t.closed[n]?.getD []))) ∧
    List.Forall₂ (fun e te => EntryTable s.1.files e te ∧
      (offsets ++ [s.1.offset])[te.1]? = some e.offset) es t.entries

variable {key : Key} {path : PathName} {t : Trace} {es : List IndexEntry}
  {s : TocIndex BTreeHandle × Disk} {version : Nat}

theorem closed_puts {n : Nat} {p : Put} (h : p ∈ t.closed[n]?.getD []) : p ∈ t.puts := by
  cases hn : t.closed[n]? with
  | none => simp [hn] at h
  | some l =>
    rw [hn] at h
    exact List.mem_append_left _ (List.mem_flatten.mpr ⟨l, List.mem_of_getElem? hn, h⟩)

theorem ends_btree_put {p : Put} (h : BTreeSim key path t es s) (hp : p.key.Encodable)
    (hlength : p.fingerprint.utf8ByteSize ≤ 32) :
    Ends (IndexOp.run TBTreeIndex version (.put p)) s
      (fun es' u => BTreeSim key path (t.step (.put p)) (es ++ es') u) fun _ _ => False := by
  obtain ⟨idx, d⟩ := s
  rw [IndexOp.run]
  simp only [ends_bind, ends_pure]
  refine (TocIndex.ends_put h.faults h.writing hp hlength).mono ?_ fun _ _ h => h
  rintro _ ⟨idx', _⟩ ⟨rfl, hw, ⟨id, hins⟩, hpath, hoff, hkey, hd, _⟩
  obtain ⟨-, -, hpre, hdir, -⟩ := UriStore.insert_id hins
  obtain ⟨offsets, hlen, hseg, hes⟩ := h.segments
  refine ⟨h.faults, hw, hkey.trans h.sameKey, hpath.trans h.samePath, hd, fun u => ?_,
    offsets, hlen, fun n o ho => ?_, ?_⟩
  · rw [UriStore.mem_insert hins, h.table u, Trace.puts_put]
    simp
  · obtain ⟨hne, hs⟩ := hseg n o ho
    refine ⟨by rwa [hoff], hs.trans (congrArg some ?_)⟩
    exact (Put.pages_prefix hpre fun q hq => h.table.mem (closed_puts hq)).symm
  · rw [List.append_nil]
    exact hes.imp fun _ _ he => ⟨he.1.mono hpre hdir, by rw [hoff]; exact he.2⟩

theorem ends_btree_flush (h : BTreeSim key path t es s) (hk : key.Encodable)
    (hek : ∃ k, key.encode = .ok k) :
    Ends (IndexOp.run TBTreeIndex version .flush) s
      (fun es' u => BTreeSim key path (t.step .flush) (es ++ es') u) fun _ _ => False := by
  obtain ⟨idx, d⟩ := s
  rw [IndexOp.run]
  simp only [ends_bind, ends_get, ends_ite, ends_pure]
  cases hdirty : t.dirty with
  | false =>
    have hd : idx.dirty = false := h.dirty.trans hdirty
    have hwrite : idx.write = true := h.writing.write
    simp only [TocIndex.flush, ends_bind, ends_map, ends_get, ends_ensure, hwrite, hd,
      Bool.false_eq_true, if_false, ends_pure, false_implies, true_and, not_false_eq_true,
      true_implies, not_true_eq_false, and_true, List.append_nil, Trace.step_flush_clean hdirty]
    exact h
  | true =>
    have hd : idx.dirty = true := h.dirty.trans hdirty
    refine (TocIndex.ends_flush h.faults h.writing hd).mono ?_ fun _ _ h => h
    rintro _ ⟨idx', d'⟩ ⟨hwr, hw, hfiles, -, hpath, hoff, hkey, hd', -⟩
    simp only [hd, true_implies, not_true_eq_false, false_implies, and_true, ends_lift]
    obtain ⟨k, hek⟩ := hek
    have he : TocIndex.encode version idx' = _ := TocIndex.encode_ok
      (by rw [hkey.trans h.sameKey]; exact hk) (by rw [hkey.trans h.sameKey]; exact hek)
    rw [he]
    refine ⟨fun _ he' => ?_, fun _ he' => by cases he'⟩
    cases he'
    obtain ⟨offsets, hlen, hseg, hes⟩ := h.segments
    rw [Trace.step_flush_dirty hdirty]
    refine ⟨hwr.faults.trans h.faults, hw, hkey.trans h.sameKey, hpath.trans h.samePath, hd', ?_,
      offsets, hlen, fun n o ho => ?_, ?_⟩
    · rw [hfiles]
      simpa [Trace.puts, List.append_assoc] using h.table
    · obtain ⟨hne, hs⟩ := hseg n o ho
      refine ⟨by rwa [hoff], ?_⟩
      rw [hwr.segment_ne (.inr hne), hs, hfiles]
    · refine List.rel_append ?_ (.cons ⟨⟨idx'.files.uris, List.prefix_rfl, ?_, rfl⟩, ?_⟩ .nil)
      · exact hes.imp fun _ _ he => ⟨by rw [hfiles]; exact he.1, by rw [hoff]; exact he.2⟩
      · rw [hfiles]
        exact h.table
      · simp [← hlen]

theorem ends_btree_reopen (h : BTreeSim key path t es s) :
    Ends (IndexOp.run TBTreeIndex version .reopen) s
      (fun es' u => BTreeSim key path (t.step .reopen) (es ++ es') u) fun _ _ => False := by
  obtain ⟨idx, d⟩ := s
  rw [IndexOp.run]
  simp only [ends_bind, ends_pure, List.append_nil]
  refine (TocIndex.ends_reopen h.faults h.writing).mono ?_ fun _ _ h => h
  rintro _ ⟨idx', d'⟩ ⟨⟨d₁, hwr, hs₁, hoff, hd'⟩, hw, hfiles, hpath, hkey, hd, -⟩
  obtain ⟨offsets, hlen, hseg, hes⟩ := h.segments
  have hne : ∀ o pages, d₁.segment idx.path o = some pages → o ≠ idx'.offset := by
    rintro o pages hs rfl
    rw [hoff, Disk.segment_size] at hs
    cases hs
  have hkeep : ∀ o, o ≠ idx'.offset → d'.segment idx.path o = d₁.segment idx.path o := by
    intro o ho
    have hwr' : Disk.SegmentWritten idx.path idx'.offset d₁ d' := .inr ⟨_, hd'⟩
    exact hwr'.segment_ne (.inr ho)
  refine ⟨by rw [hd']; exact hwr.faults.trans h.faults, hw, hkey.trans h.sameKey,
    hpath.trans h.samePath, hd.trans h.dirty, ?_, offsets ++ [idx.offset], by simp [Trace.step, hlen],
    fun n o ho => ?_, ?_⟩
  · rw [hfiles, Trace.puts_reopen]
    exact h.table
  · have hsame : d₁.segment idx.path o =
        some (Put.pages idx.files.uris ((t.step .reopen).closed[n]?.getD [])) := by
      rcases Nat.lt_or_ge n offsets.length with hn | hn
      · rw [List.getElem?_append_left hn] at ho
        obtain ⟨ho', hs⟩ := hseg n o ho
        rw [hwr.segment_ne (.inr ho'), h.samePath, hs]
        simp only [Trace.step]
        rw [List.getElem?_append_left (hlen ▸ hn)]
      · rw [List.getElem?_append_right hn] at ho
        have hn' : n = offsets.length := by
          by_contra hlt
          simp [show n - offsets.length ≠ 0 by omega] at ho
        subst hn'
        simp only [Nat.sub_self, List.getElem?_cons_zero, Option.some.injEq] at ho
        subst ho
        rw [hs₁]
        simp [Trace.step, hlen]
    have := hne o _ hsame
    refine ⟨this, ?_⟩
    rw [← h.samePath, hkeep o this, hsame, hfiles]
  · refine hes.imp fun e te he => ⟨by rw [hfiles]; exact he.1, ?_⟩
    rw [List.getElem?_append_left (List.getElem?_eq_some_iff.mp he.2).1]
    exact he.2

theorem ends_btree_op {op : IndexOp} (h : BTreeSim key path t es s) (hk : key.Encodable)
    (hek : ∃ k, key.encode = .ok k)
    (hop : ∀ p, op = .put p → p.key.Encodable ∧ p.fingerprint.utf8ByteSize ≤ 32) :
    Ends (op.run TBTreeIndex version) s
      (fun es' u => BTreeSim key path (t.step op) (es ++ es') u) fun _ _ => False := by
  cases op with
  | put p => exact ends_btree_put h (hop p rfl).1 (hop p rfl).2
  | flush => exact ends_btree_flush h hk hek
  | reopen => exact ends_btree_reopen h

theorem ends_btree_open {d : Disk} (hf : d.faults = []) (hn : d.segment path 0 = none) :
    Ends (TocIndex.openIndex TBTreeIndex) (TocIndex.create key path, d)
      (fun _ s => BTreeSim key path {} [] s) fun _ _ => False := by
  refine (TocIndex.ends_open_create hf hn).mono ?_ fun _ _ h => h
  rintro _ s ⟨hd, hw, hfiles, hpath, hoff, hkey, hdirty, -⟩
  refine ⟨by rw [hd]; exact hf, hw, hkey, hpath, hdirty, ?_, [], rfl, by simp, .nil⟩
  simp [hfiles, TocIndex.create, TableOf, Trace.puts]

/-- A session over B-tree files ends in the state that the trace of its calls describes. -/
theorem btree_session {ops : List IndexOp} (hk : key.Encodable) (hek : ∃ k, key.encode = .ok k)
    (hops : ∀ p, .put p ∈ ops → p.key.Encodable ∧ p.fingerprint.utf8ByteSize ≤ 32) {d : Disk}
    (hf : d.faults = []) (hn : d.segment path 0 = none) :
    ∃ es s, (IndexOp.session TBTreeIndex version ops).run (TocIndex.create key path, d) = .ok es s ∧
      BTreeSim key path (Trace.of ops) es s := by
  apply Ends.returns
  rw [IndexOp.session, ends_bind]
  refine (ends_btree_open hf hn).mono (fun _ s h => ?_) fun _ _ h => h
  exact IndexOp.ends_runAll (fun op hop _ _ _ h => ends_btree_op h hk hek fun p hp => hops p (hp ▸ hop)) h

theorem ends_btree_runAll_long {ops : List IndexOp} (h : BTreeSim key path t es s) (hk : key.Encodable)
    (hek : ∃ k, key.encode = .ok k) (hops : ∀ p, .put p ∈ ops → p.key.Encodable)
    (hlong : ∃ p, .put p ∈ ops ∧ ¬ p.fingerprint.utf8ByteSize ≤ 32) :
    Ends (IndexOp.runAll TBTreeIndex version ops) s (fun _ _ => False)
      fun f _ => f = .assertion "s.length() <= SIZE" := by
  induction ops generalizing t es s with
  | nil => simp at hlong
  | cons op ops ih =>
    rw [IndexOp.runAll, ends_bind]
    by_cases hop : ∀ p, op = .put p → p.fingerprint.utf8ByteSize ≤ 32
    · refine (ends_btree_op h hk hek fun p hp => ⟨hops p (hp ▸ .head _), hop p hp⟩).mono (fun es' u hu => ?_)
        fun _ _ h => h.elim
      obtain ⟨p, hp, hp'⟩ := hlong
      have hrest : .put p ∈ ops := (List.mem_cons.mp hp).resolve_left fun he => hp' (hop p he.symm)
      rw [ends_bind]
      exact (ih hu (fun q hq => hops q (.tail _ hq)) ⟨p, hrest, hp'⟩).mono (fun _ _ h => h.elim) fun _ _ h => h
    · obtain ⟨p, hp⟩ := not_forall.mp hop
      obtain ⟨rfl, hp'⟩ := Classical.not_imp.mp hp
      rw [IndexOp.run, ends_bind]
      exact (TocIndex.ends_put_long h.writing (hops p (.head _)) hp').mono (fun _ _ h => h.elim) fun _ _ h => h.1

/-- A session over B-tree files returns exactly when no fingerprint is too long. -/
theorem btree_session_iff {ops : List IndexOp} (hk : key.Encodable) (hek : ∃ k, key.encode = .ok k)
    (hops : ∀ p, .put p ∈ ops → p.key.Encodable) {d : Disk} (hf : d.faults = []) (hn : d.segment path 0 = none) :
    (∃ es s, (IndexOp.session TBTreeIndex version ops).run (TocIndex.create key path, d) = .ok es s) ↔
      ∀ p, .put p ∈ ops → p.fingerprint.utf8ByteSize ≤ 32 := by
  constructor
  · rintro ⟨es, s, hrun⟩
    by_contra hnot
    obtain ⟨p, hp⟩ := not_forall.mp hnot
    have hlong : Ends (IndexOp.session TBTreeIndex version ops) (TocIndex.create key path, d) (fun _ _ => False)
        fun f _ => f = .assertion "s.length() <= SIZE" := by
      rw [IndexOp.session, ends_bind]
      refine (ends_btree_open hf hn).mono (fun _ s h => ?_) fun _ _ h => h.elim
      exact ends_btree_runAll_long h hk hek hops ⟨p, Classical.not_imp.mp hp⟩
    exact hlong.ok hrun
  · intro hlength
    obtain ⟨es, s, hrun, -⟩ := btree_session hk hek (fun p hp => ⟨hops p hp, hlength p hp⟩) hf hn
    exact ⟨es, s, hrun⟩

/-- An entry has the table of the puts before it, and its segment on disk. -/
theorem BTreeSim.entry (h : BTreeSim key path t es s) {i : Nat} {e : IndexEntry}
    {te : Nat × List Put} (he : es[i]? = some e) (hte : t.entries[i]? = some te) :
    EntryTable s.1.files e te ∧ s.2.segment path e.offset = some (Put.pages s.1.files.uris (t.content te.1)) := by
  obtain ⟨offsets, hlen, hseg, hes⟩ := h.segments
  obtain ⟨htable, hoff⟩ := forall₂_getElem? hes he hte
  refine ⟨htable, ?_⟩
  rcases Nat.lt_or_ge te.1 offsets.length with hn | hn
  · rw [List.getElem?_append_left hn] at hoff
    rw [(hseg _ _ hoff).2, Trace.content]
    simp [show te.1 < t.closed.length from hlen ▸ hn]
  · rw [List.getElem?_append_right hn, List.getElem?_singleton] at hoff
    split at hoff
    · obtain hoff : s.1.offset = e.offset := by simpa using hoff
      have hsame := h.writing.segment
      rw [h.samePath, hoff] at hsame
      rw [hsame, Trace.content, List.getElem?_eq_none (hlen ▸ hn)]
      rfl
    · cases hoff

/-- A reader at an entry gets the last put of the entry's segment, for a key that is not too long. -/
theorem btree_lookup (h : BTreeSim key path t es s) {i : Nat} {e : IndexEntry}
    {te : Nat × List Put} (he : es[i]? = some e) (hte : t.entries[i]? = some te)
    {idx : TocIndex BTreeHandle}
    (hidx : TocIndex.decode version path.dirName path e.offset e.index = .ok idx) {k : Key}
    (hk : k.Encodable) :
    value ((idx.lookup TBTreeIndex k {}).run s.2) =
      if k.fingerprint.utf8ByteSize ≤ 32 then Put.answer te.2 (t.lastInSegment te.1 k.fingerprint)
      else .error (.assertion "s.length() <= SIZE") := by
  obtain ⟨htable, hsegment⟩ := h.entry he hte
  have hdir : s.1.files.directory = path.dirName := by rw [h.writing.directory, h.samePath]
  obtain rfl := TocIndex.decode_ok hidx
  refine Ends.value ?_
  rw [TocIndex.lookup]
  simp only [TocIndex.ofRecord, Option.isSome_none, Bool.false_eq_true, if_false, ends_bind,
    TBTreeIndex, TBTreeIndex.build, Disk.ends_syscall h.faults, ends_get, hsegment, ends_pure]
  by_cases hlength : k.fingerprint.utf8ByteSize ≤ 32
  · rw [if_pos hlength]
    refine htable.ends_get rfl (by rw [hdir]) hk ?_
    simp only [TBTreeIndex.get, BTreeKey.ofString_ok hlength, ends_bind, ends_lift, ends_pure, Except.ok.injEq,
      forall_eq', reduceCtorEq, false_implies, implies_true, and_true, Put.pages, mapOf_getElem?]
    exact ⟨trivial, rfl⟩
  · rw [if_neg hlength, TocIndex.get, TocIndex.withBTree]
    simp only [TBTreeIndex.get, BTreeKey.ofString_error hlength, ends_bind, ends_lift, hk.fingerprint, Except.ok.injEq,
      forall_eq', reduceCtorEq, false_implies, implies_true, and_true, Except.error.injEq]

end BTree

section LSM

/-- The state of the Parallax index after the calls of the trace, with the entries so far. -/
structure LSMSim (key : Key) (path : PathName) (t : Trace) (es : List IndexEntry)
    (s : TocIndex PathName × Parallax) : Prop where
  write : s.1.write = true
  filesWritable : s.1.files.readOnly = false
  axesWritable : s.1.axes.readOnly = false
  handle : s.1.btree = some path
  sameKey : s.1.key = key
  samePath : s.1.path = path
  dirty : s.1.dirty = t.dirty
  directory : s.1.files.directory = path.dirName
  table : TableOf s.1.files.uris t.puts
  store : s.2.stores path = mapOf (fun p => cString p.fingerprint) (Put.ref s.1.files.uris) t.puts
  entries : List.Forall₂ (EntryTable s.1.files) es t.entries

variable {key : Key} {path : PathName} {t : Trace} {es : List IndexEntry}
  {s : TocIndex PathName × Parallax} {version : Nat}

theorem ends_lsm_put {p : Put} (h : LSMSim key path t es s) (hp : p.key.Encodable) :
    Ends (IndexOp.run LSMIndex version (.put p)) s
      (fun es' u => LSMSim key path (t.step (.put p)) (es ++ es') u) fun _ _ => False := by
  obtain ⟨idx, v⟩ := s
  obtain ⟨hwrite, hfw, haw, hb, hkey, hpath, hdirty, hdir, htable, hstore, hentries⟩ := h
  simp only at hwrite hfw haw hb hkey hpath hdirty hdir htable hstore hentries
  obtain ⟨⟨uriId, files⟩, hins⟩ := UriStore.insert_ok hfw p.location.uri
  obtain ⟨rfl, hmem, hpre, hdir', hro⟩ := UriStore.insert_id hins
  rw [IndexOp.run, TocIndex.put]
  simp only [ends_bind, ends_focus, ends_map, ends_get, ends_ensure, ends_lift, hb, hwrite,
    Option.isSome_some, true_implies, not_true_eq_false, false_implies, and_true, hins,
    hp.fingerprint, ends_modify, ends_pure]
  refine (IndexAxis.ends_insert_values haw hp).mono (fun _ a ha => ?_) fun _ _ h => h
  refine ⟨fun r hr => ?_, fun _ h => by cases h⟩
  cases hr
  refine ⟨fun s hs => ?_, fun _ h => by cases h⟩
  cases hs
  rw [TocIndex.ends_onBTree rfl]
  simp only [LSMIndex, ends_modify, List.append_nil]
  refine ⟨rfl, hro.trans hfw, ha.1, rfl, hkey, hpath, rfl, hdir'.trans hdir, fun u => ?_, ?_,
    hentries.imp fun _ _ he => he.mono hpre hdir'⟩
  · rw [UriStore.mem_insert hins, htable u, Trace.puts_put]
    simp
  · rw [Trace.puts_put, mapOf_concat]
    simp only [Function.update_self, hstore]
    rw [mapOf_congr fun q hq => (Put.ref_prefix hpre (htable.mem hq)).symm]
    rfl

theorem ends_lsm_flush (h : LSMSim key path t es s) (hk : key.Encodable)
    (hek : ∃ k, key.encode = .ok k) :
    Ends (IndexOp.run LSMIndex version .flush) s
      (fun es' u => LSMSim key path (t.step .flush) (es ++ es') u) fun _ _ => False := by
  obtain ⟨idx, v⟩ := s
  have hwrite : idx.write = true := h.write
  rw [IndexOp.run]
  simp only [TocIndex.flush, ends_bind, ends_map, ends_get, ends_ensure, hwrite, true_implies,
    not_true_eq_false, false_implies, and_true]
  cases hdirty : t.dirty with
  | false =>
    have hd : idx.dirty = false := h.dirty.trans hdirty
    simp only [hd, Bool.false_eq_true, if_false, ends_pure, List.append_nil,
      Trace.step_flush_clean hdirty]
    exact h
  | true =>
    have hd : idx.dirty = true := h.dirty.trans hdirty
    simp only [hd, if_true, ends_bind]
    rw [TocIndex.ends_onBTree h.handle]
    simp only [LSMIndex, ends_pure, ends_modify, ends_get, ends_lift]
    obtain ⟨k, hek⟩ := hek
    have he : TocIndex.encode version { idx with btree := some path, dirty := false } = _ :=
      TocIndex.encode_ok (by rw [show idx.key = key from h.sameKey]; exact hk)
        (by rw [show idx.key = key from h.sameKey]; exact hek)
    rw [he]
    refine ⟨fun _ he' => ?_, fun _ he' => by cases he'⟩
    cases he'
    have hputs := Trace.puts_flush (t := t)
    rw [Trace.step_flush_dirty hdirty] at hputs ⊢
    refine ⟨h.write, h.filesWritable, h.axesWritable, rfl, h.sameKey, h.samePath, rfl, h.directory,
      ?_, ?_, ?_⟩
    · rw [hputs]
      exact h.table
    · rw [hputs]
      exact h.store
    · exact List.rel_append h.entries (.cons ⟨idx.files.uris, List.prefix_rfl, h.table, rfl⟩ .nil)

theorem ends_lsm_reopen (h : LSMSim key path t es s) :
    Ends (IndexOp.run LSMIndex version .reopen) s
      (fun es' u => LSMSim key path (t.step .reopen) (es ++ es') u) fun _ _ => False := by
  obtain ⟨idx, v⟩ := s
  have haxes : idx.axes.readOnly = false := h.axesWritable
  have hhandle : idx.btree = some path := h.handle
  rw [IndexOp.run, TocIndex.reopen, TocIndex.close]
  simp only [ends_bind, ends_get, hhandle, ends_modify, ends_focus, LSMIndex, ends_pure,
    IndexAxis.wipe, ends_ensure, haxes, true_implies, not_true_eq_false, false_implies, and_true,
    TocIndex.openIndex, ends_map, Option.isNone_none, if_true, List.append_nil]
  refine ⟨h.write, h.filesWritable, rfl, congrArg some h.samePath, h.sameKey, h.samePath, h.dirty,
    h.directory, ?_, ?_, h.entries⟩
  · rw [Trace.puts_reopen]
    exact h.table
  · rw [Trace.puts_reopen]
    exact h.store

theorem ends_lsm_op {op : IndexOp} (h : LSMSim key path t es s) (hk : key.Encodable)
    (hek : ∃ k, key.encode = .ok k) (hop : ∀ p, op = .put p → p.key.Encodable) :
    Ends (op.run LSMIndex version) s
      (fun es' u => LSMSim key path (t.step op) (es ++ es') u) fun _ _ => False := by
  cases op with
  | put p => exact ends_lsm_put h (hop p rfl)
  | flush => exact ends_lsm_flush h hk hek
  | reopen => exact ends_lsm_reopen h

/-- A session over Parallax ends in the state that the trace of its calls describes. -/
theorem lsm_session {ops : List IndexOp} (hk : key.Encodable)
    (hek : ∃ k, key.encode = .ok k) (hops : ∀ p, .put p ∈ ops → p.key.Encodable) {v : Parallax}
    (hn : v.stores path = ∅) :
    ∃ es s, (IndexOp.session LSMIndex version ops).run (TocIndex.create key path, v) = .ok es s ∧
      LSMSim key path (Trace.of ops) es s := by
  apply Ends.returns
  rw [IndexOp.session, ends_bind]
  have h : LSMSim key path {} [] 
      ({ TocIndex.create (η := PathName) key path with btree := some path }, v) := by
    refine ⟨rfl, rfl, rfl, rfl, rfl, rfl, rfl, rfl, ?_, hn, .nil⟩
    simp [TocIndex.create, TableOf, Trace.puts]
  exact IndexOp.ends_runAll (fun op hop _ _ _ h => ends_lsm_op h hk hek fun p hp => hops p (hp ▸ hop)) h

/-- A reader at an entry gets the last put of the whole file. -/
theorem lsm_lookup (h : LSMSim key path t es s) {i : Nat} {e : IndexEntry}
    {te : Nat × List Put} (he : es[i]? = some e) (hte : t.entries[i]? = some te)
    {idx : TocIndex PathName}
    (hidx : TocIndex.decode version path.dirName path e.offset e.index = .ok idx) {k : Key}
    (hk : k.Encodable) :
    value ((idx.lookup LSMIndex k {}).run s.2) =
      Put.answer te.2 (t.lastInFile k.fingerprint) := by
  have htable := forall₂_getElem? h.entries he hte
  obtain rfl := TocIndex.decode_ok hidx
  refine Ends.value ?_
  rw [TocIndex.lookup]
  simp only [TocIndex.ofRecord, Option.isSome_none, Bool.false_eq_true, if_false, ends_bind,
    LSMIndex, ends_pure]
  refine htable.ends_get rfl (by rw [h.directory]) hk ?_
  simp only [ends_bind, ends_get, ends_pure, h.store, mapOf_getElem?]
  exact ⟨trivial, rfl⟩

end LSM

theorem Put.answer_ne_assertion (known : List Put) (p : Option Put) :
    answer known p ≠ .error (.assertion "s.length() <= SIZE") := by
  cases p with
  | none => simp [answer]
  | some p =>
    rw [answer]
    split <;> simp

/-- The B-tree takes every put exactly when no fingerprint is too long. Then, at the entry of a segment and for a
key, the two backends answer the same exactly when the key is not too long and the last put of the whole file
whose fingerprint is the key's as a C string is as good, through the entry's URI table, as the last put of the
segment under the key. -/
theorem lsm_refines_btree_iff (version : Nat) (key : Key) (path : PathName) (ops : List IndexOp)
    (hk : key.Encodable) (hek : ∃ k, key.encode = .ok k)
    (hops : ∀ p, .put p ∈ ops → p.key.Encodable) (d : Disk) (hf : d.faults = [])
    (hd : d.segment path 0 = none) (v : Parallax) (hv : v.stores path = ∅) :
    ∃ es' s', (IndexOp.session LSMIndex version ops).run (TocIndex.create key path, v) = .ok es' s' ∧
      es'.length = (Trace.of ops).entries.length ∧
      ((∃ es s, (IndexOp.session TBTreeIndex version ops).run (TocIndex.create key path, d) = .ok es s) ↔
        ∀ p, .put p ∈ ops → p.fingerprint.utf8ByteSize ≤ 32) ∧
      ∀ es s, (IndexOp.session TBTreeIndex version ops).run (TocIndex.create key path, d) = .ok es s →
        es.length = (Trace.of ops).entries.length ∧
        ∀ (i : Nat) (e e' : IndexEntry) (te : Nat × List Put), es[i]? = some e → es'[i]? = some e' →
          (Trace.of ops).entries[i]? = some te →
          ∀ idx idx', TocIndex.decode version path.dirName path e.offset e.index = .ok idx →
            TocIndex.decode version path.dirName path e'.offset e'.index = .ok idx' →
            ∀ k : Key, k.Encodable →
              (value ((idx'.lookup LSMIndex k {}).run s'.2) =
                  value ((idx.lookup TBTreeIndex k {}).run s.2) ↔
                k.fingerprint.utf8ByteSize ≤ 32 ∧
                  Put.answer te.2 ((Trace.of ops).lastInFile k.fingerprint) =
                    Put.answer te.2 ((Trace.of ops).lastInSegment te.1 k.fingerprint)) := by
  obtain ⟨es', s', hrun', hl⟩ := lsm_session hk hek hops hv
  refine ⟨es', s', hrun', hl.entries.length_eq, btree_session_iff hk hek hops hf hd, ?_⟩
  intro es s hrun
  have hlength := (btree_session_iff hk hek hops hf hd).mp ⟨es, s, hrun⟩
  obtain ⟨es₁, s₁, hrun₁, hb⟩ : ∃ es s, (IndexOp.session TBTreeIndex version ops).run (TocIndex.create key path, d) =
      .ok es s ∧ BTreeSim key path (Trace.of ops) es s :=
    btree_session hk hek (fun p hp => ⟨hops p hp, hlength p hp⟩) hf hd
  obtain ⟨rfl, rfl⟩ := EStateM.Result.ok.inj (hrun₁.symm.trans hrun)
  obtain ⟨_, -, -, hes⟩ := hb.segments
  refine ⟨hes.length_eq, ?_⟩
  intro i e e' te he he' hte idx idx' hidx hidx' k hk
  rw [btree_lookup hb he hte hidx hk, lsm_lookup hl he' hte hidx' hk]
  by_cases hfits : k.fingerprint.utf8ByteSize ≤ 32
  · rw [if_pos hfits]
    exact ⟨fun h => ⟨hfits, h⟩, fun h => h.2⟩
  · rw [if_neg hfits]
    exact ⟨fun h => absurd h (Put.answer_ne_assertion _ _), fun h => absurd h.1 hfits⟩

section Reopened

def param (value : String) : Key := Key.ofList [("param", value)] none

def dataFile : PathName := ⟨"/root", ⟨"data", some 0, ".data"⟩⟩

def indexFile : PathName := ⟨"/root", ⟨"index", some 1, ".index"⟩⟩

def field (offset : Nat) : Put := ⟨param "t", .ofPath dataFile offset 8⟩

/-- A field archived, and archived again after a flush. -/
def archivedTwice : List IndexOp := [.put (field 0), .flush, .reopen, .put (field 8), .flush]

theorem encodable_param : (param "t").Encodable :=
  ⟨⟨"t", rfl⟩, fun _ h => Key.canonicalValue_of_canonical rfl h⟩

theorem short_param : (param "t").fingerprint.utf8ByteSize ≤ 32 := by
  have h : (param "t").fingerprint = "t" := rfl
  rw [h]
  decide

/-- One put and a flush: the two backends agree on it. -/
theorem lsm_refines_btree_iff_once :
    ∃ es s es' s' e e' idx idx',
      (IndexOp.session TBTreeIndex 2 [.put (field 0), .flush]).run
        (TocIndex.create (param "t") indexFile, {}) = .ok es s ∧
      (IndexOp.session LSMIndex 2 [.put (field 0), .flush]).run
        (TocIndex.create (param "t") indexFile, {}) = .ok es' s' ∧
      es = [e] ∧ es' = [e'] ∧
      TocIndex.decode 2 indexFile.dirName indexFile e.offset e.index = .ok idx ∧
      TocIndex.decode 2 indexFile.dirName indexFile e'.offset e'.index = .ok idx' ∧
      value ((idx'.lookup LSMIndex (param "t") {}).run s'.2) = value ((idx.lookup TBTreeIndex (param "t") {}).run s.2) := by
  obtain ⟨es', s', hrun', hlength', hreturns, hall⟩ := lsm_refines_btree_iff 2 (param "t") indexFile
    [.put (field 0), .flush] encodable_param ⟨_, rfl⟩ (by simp [field, encodable_param]) {} rfl rfl {} rfl
  obtain ⟨es, s, hrun⟩ := hreturns.mpr (by simpa [field, Put.fingerprint] using short_param)
  obtain ⟨hlength, hgets⟩ := hall es s hrun
  obtain ⟨e, rfl⟩ := List.length_eq_one_iff.mp hlength
  obtain ⟨e', rfl⟩ := List.length_eq_one_iff.mp hlength'
  have hidx : TocIndex.decode (η := BTreeHandle) 2 indexFile.dirName indexFile e.offset e.index =
      .ok _ := TocIndex.decode_of (by simp)
  have hidx' : TocIndex.decode (η := PathName) 2 indexFile.dirName indexFile e'.offset e'.index =
      .ok _ := TocIndex.decode_of (by simp)
  refine ⟨[e], s, [e'], s', e, e', _, _, hrun, hrun', rfl, rfl, hidx, hidx', ?_⟩
  exact (hgets 0 e e' (0, [field 0]) rfl rfl rfl _ _ hidx hidx' (param "t") encodable_param).mpr ⟨short_param, rfl⟩

/-- At the first entry the B-tree has the first location, Parallax the second one. -/
theorem lsm_answers_later_segment :
    ∃ es s es' s' e e' idx idx',
      (IndexOp.session TBTreeIndex 2 archivedTwice).run (TocIndex.create (param "t") indexFile, {}) =
        .ok es s ∧
      (IndexOp.session LSMIndex 2 archivedTwice).run (TocIndex.create (param "t") indexFile, {}) =
        .ok es' s' ∧
      es[0]? = some e ∧ es'[0]? = some e' ∧
      TocIndex.decode 2 indexFile.dirName indexFile e.offset e.index = .ok idx ∧
      TocIndex.decode 2 indexFile.dirName indexFile e'.offset e'.index = .ok idx' ∧
      value ((idx.lookup TBTreeIndex (param "t") {}).run s.2) = .ok (some (.ofPath dataFile 0 8)) ∧
      value ((idx'.lookup LSMIndex (param "t") {}).run s'.2) = .ok (some (.ofPath dataFile 8 8)) := by
  have hops : ∀ p, .put p ∈ archivedTwice → p.key.Encodable ∧ p.fingerprint.utf8ByteSize ≤ 32 := by
    intro p hp
    obtain rfl | rfl : p = field 0 ∨ p = field 8 := by simpa [archivedTwice] using hp
    · exact ⟨encodable_param, short_param⟩
    · exact ⟨encodable_param, short_param⟩
  obtain ⟨es, s, hrun, hb⟩ : ∃ es s, (IndexOp.session TBTreeIndex 2 archivedTwice).run
      (TocIndex.create (param "t") indexFile, {}) = .ok es s ∧ BTreeSim _ _ _ es s :=
    btree_session encodable_param ⟨_, rfl⟩ hops rfl rfl
  obtain ⟨es', s', hrun', hl⟩ : ∃ es s, (IndexOp.session LSMIndex 2 archivedTwice).run
      (TocIndex.create (param "t") indexFile, {}) = .ok es s ∧ LSMSim _ _ _ es s :=
    lsm_session encodable_param ⟨_, rfl⟩ (fun p hp => (hops p hp).1) rfl
  have htrace : Trace.of archivedTwice = {
      closed := [[field 0]]
      flushed := [field 8]
      entries := [(0, [field 0]), (1, [field 0, field 8])] } := rfl
  obtain ⟨_, -, -, hes⟩ := hb.segments
  obtain ⟨e, he⟩ : ∃ e, es[0]? = some e := ⟨_, List.getElem?_eq_getElem (by simp [hes.length_eq, htrace])⟩
  obtain ⟨e', he'⟩ : ∃ e, es'[0]? = some e :=
    ⟨_, List.getElem?_eq_getElem (by simp [hl.entries.length_eq, htrace])⟩
  have hidx : TocIndex.decode (η := BTreeHandle) 2 indexFile.dirName indexFile e.offset e.index =
      .ok _ := TocIndex.decode_of (by simp)
  have hidx' : TocIndex.decode (η := PathName) 2 indexFile.dirName indexFile e'.offset e'.index =
      .ok _ := TocIndex.decode_of (by simp)
  have hte : (Trace.of archivedTwice).entries[0]? = some (0, [field 0]) := by rw [htrace]; rfl
  refine ⟨es, s, es', s', e, e', _, _, hrun, hrun', he, he', hidx, hidx', ?_, ?_⟩
  · rw [btree_lookup hb he hte hidx encodable_param, if_pos short_param]
    rfl
  · rw [lsm_lookup hl he' hte hidx' encodable_param]
    rfl

end Reopened

end Fdb5
