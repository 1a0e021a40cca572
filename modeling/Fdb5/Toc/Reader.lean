import Mathlib.Data.List.Forall2
import Fdb5.Toc.Masking
import Fdb5.Toc.Segment
import Fdb5.Fingerprint

/-! The catalogue reader, and what it finds in the segments it loaded. -/
namespace Fdb5

open Effect LastWins

structure TocCatalogueReader where
  indexes : List (TocIndex BTreeHandle × Key)
  matching : List (TocIndex BTreeHandle × Key) := []
  currentIndexKey : Key := {}

namespace TocCatalogueReader

/-- `loadIndexesAndRemap()` of a database. -/
def build (d : Disk) (version depth : Nat) (tocPath : PathName) :
    Except Failure TocCatalogueReader := do
  return { indexes := ← TocHandler.loadIndexes d version depth tocPath }

def selectIndex (r : TocCatalogueReader) (key : Key) : TocCatalogueReader :=
  if r.currentIndexKey.keys = key.keys then r
  else { r with currentIndexKey := key, matching := r.indexes.filter fun m => m.1.key.keys = key.keys }

/-- The loop of `retrieve`. -/
def retrieveFrom (key : Key) :
    List (TocIndex BTreeHandle × Key) → EStateM Failure Disk (Option FieldLocation)
  | [] => return none
  | (idx, remapKey) :: rest => do
    if ← lift (idx.mayContain key) then
      match ← idx.lookup TBTreeIndex key remapKey with
      | some location => return some location
      | none => retrieveFrom key rest
    else retrieveFrom key rest

def retrieve (r : TocCatalogueReader) (key : Key) : EStateM Failure Disk (Option FieldLocation) :=
  retrieveFrom key r.matching

end TocCatalogueReader

/-- A reader that is made now, selects `k1` and retrieves `k2`. -/
def Disk.retrieve (d : Disk) (version depth : Nat) (tocPath : PathName) (k1 k2 : Key) :
    Except Failure (Option FieldLocation) := do
  let r ← TocCatalogueReader.build d version depth tocPath
  value (((r.selectIndex k1).retrieve k2).run d)

/-- The fields of one segment, which belongs to an index key. -/
structure Segment where
  index : StringDict
  puts : List Put

/-- An index as loaded is the reader's view of the segment. -/
structure TocIndex.Holds (idx : TocIndex BTreeHandle) (d : Disk) (seg : Segment) : Prop where
  key : idx.key.keys = seg.index
  readOnly : idx.write = false
  closed : idx.btree = none
  axes : Covers idx.axes.axis seg.puts
  storable : ∀ p ∈ seg.puts, p.key.Storable
  pages : ∃ uris, d.segment idx.path idx.offset = some (Put.pages uris seg.puts) ∧
    idx.files.uris = uris.map UriStore.reread ∧ ∀ p ∈ seg.puts, p.location.uri ∈ uris

/-- What a reader makes of an archived location. -/
def Put.found (p : Put) : FieldLocation :=
  { p.location with uri := UriStore.reread p.location.uri, remapKey := {} }

/-- The key has the keywords in this order, and values that a fingerprint keeps apart. -/
structure Key.Fits (names : List String) (k : Key) : Prop where
  storable : k.Storable
  order : k.names = names
  keyword : ∀ keyword, keyword ∈ k.keys ↔ keyword ∈ names
  plain : ∀ values, k.canonicalValues = .ok values → Plain values

namespace Key.Fits

variable {names : List String} {k k' : Key}

/-- Among keys with the same keywords a fingerprint stands for the values. -/
theorem fingerprint_iff (h : k.Fits names) (h' : k'.Fits names) :
    k.fingerprint = k'.fingerprint ↔ k.canonicalValues = k'.canonicalValues := by
  obtain ⟨values, hv, hf, -⟩ := Key.valuesToString_ok h.storable.fingerprint
  obtain ⟨values', hv', hf', -⟩ := Key.valuesToString_ok h'.storable.fingerprint
  have hl := (Key.mapM_ok hv).length_eq
  have hl' := (Key.mapM_ok hv').length_eq
  rw [h.order] at hl
  rw [h'.order] at hl'
  rw [hf, hf', hv, hv', Except.ok.injEq]
  refine ⟨fun he => ?_, fun he => by rw [he]⟩
  cases names with
  | nil =>
    rw [List.length_nil] at hl hl'
    rw [List.length_eq_zero_iff.mp hl.symm, List.length_eq_zero_iff.mp hl'.symm]
  | cons =>
    refine intercalate_injective ?_ ?_ (h.plain _ hv) (h'.plain _ hv') he
    · rintro rfl
      simp at hl
    · rintro rfl
      simp at hl'

/-- Equal values mean an equal value for each keyword. -/
theorem canonicalValue_eq (h : k.Fits names) (h' : k'.Fits names)
    (hv : k.canonicalValues = k'.canonicalValues) {keyword : String} (hk : keyword ∈ names) :
    k.canonicalValue keyword = k'.canonicalValue keyword := by
  obtain ⟨values, hvs, -⟩ := Key.valuesToString_ok h.storable.fingerprint
  have hvs' : k'.canonicalValues = .ok values := hv ▸ hvs
  obtain ⟨i, hi⟩ := List.getElem?_of_mem hk
  have hforall := Key.mapM_ok hvs
  have hforall' := Key.mapM_ok hvs'
  rw [h.order] at hforall
  rw [h'.order] at hforall'
  obtain ⟨hi', rfl⟩ := List.getElem?_eq_some_iff.mp hi
  have h₁ := hforall.get hi' (hforall.length_eq ▸ hi')
  have h₂ := hforall'.get hi' (hforall.length_eq ▸ hi')
  exact h₁.trans h₂.symm

end Key.Fits

section Axes

variable {k : Key} {values : Std.ExtTreeSet String} {keyword : String}

/-- Whether a key is on an axis can always be told, and it is if its canonical value is. -/
theorem Key.matchAxis_ok (hk : k.Encodable) : ∃ b, k.matchAxis keyword values = .ok b ∧
    ∀ v, k.canonicalValue keyword = .ok v → v ∈ values → b = true := by
  rw [matchAxis, canonicalValue]
  cases hf : k.find keyword with
  | none => exact ⟨false, rfl, fun _ h => by simp at h⟩
  | some value =>
    by_cases hm : value ∈ values
    · exact ⟨true, by simp [hm], fun _ _ _ => rfl⟩
    · obtain ⟨v', hv'⟩ := hk.canonical keyword
        (Std.ExtTreeMap.isSome_getElem?_iff_mem.mp (by rw [show k.keys[keyword]? = _ from hf]; rfl))
      simp only [canonicalValue, hf] at hv'
      refine ⟨decide (v' ∈ values), by simp [hm, hv'], fun v hv hmem => ?_⟩
      simp only [hv', Except.ok.injEq] at hv
      simpa [hv] using hmem

/-- An index whose axes have all the key's values is not skipped. -/
theorem IndexAxis.contains_ok {a : IndexAxis} (hk : k.Encodable) : ∃ b, a.contains k = .ok b ∧
    ((∀ keyword ∈ a.axis, ∃ v, k.canonicalValue keyword = .ok v ∧ AxisValue a.axis keyword v) →
      b = true) := by
  have hloop : ∀ l : List (String × Std.ExtTreeSet String), ∀ b₀, ∃ b,
      l.foldlM (fun found kv => do if found then k.matchAxis kv.1 kv.2 else return false) b₀ =
        (.ok b : Except Failure Bool) ∧
      (b₀ = true → (∀ kv ∈ l, ∃ v, k.canonicalValue kv.1 = .ok v ∧ v ∈ kv.2) → b = true) := by
    intro l
    induction l with
    | nil => exact fun b₀ => ⟨b₀, rfl, fun h _ => h⟩
    | cons kv l ih =>
      intro b₀
      rw [List.foldlM_cons]
      cases b₀ with
      | false =>
        obtain ⟨b, hb, -⟩ := ih false
        exact ⟨b, by simpa using hb, fun h => by cases h⟩
      | true =>
        obtain ⟨b₁, hb₁, hmatch⟩ : ∃ b, k.matchAxis kv.1 kv.2 = .ok b ∧ _ := Key.matchAxis_ok hk
        obtain ⟨b, hb, himp⟩ := ih b₁
        refine ⟨b, by simpa [hb₁] using hb, fun _ hall => ?_⟩
        obtain ⟨v, hv, hmem⟩ := hall kv List.mem_cons_self
        exact himp (hmatch v hv hmem)
          fun kv' h' => hall kv' (List.mem_cons_of_mem _ h')
  obtain ⟨b, hb, himp⟩ := hloop a.axis.toList true
  refine ⟨b, hb, fun h => himp rfl fun kv hkv => ?_⟩
  have hget : a.axis[kv.1]? = some kv.2 := Std.ExtTreeMap.mem_toList_iff_getElem?_eq_some.mp hkv
  obtain ⟨v, hv, s, hs, hmem⟩ := h kv.1 (Std.ExtTreeMap.isSome_getElem?_iff_mem.mp (by rw [hget]; rfl))
  rw [hget, Option.some.injEq] at hs
  exact ⟨v, hv, hs ▸ hmem⟩

end Axes

namespace TocIndex.Holds

variable {idx : TocIndex BTreeHandle} {d : Disk} {seg : Segment} {k : Key} {names : List String}

/-- A segment that is skipped has nothing under the key's fingerprint, where that stands for the values. -/
theorem mayContain_skips (h : idx.Holds d seg) (hk : k.Encodable)
    (hkeyword : ∀ p ∈ seg.puts, ∀ keyword ∈ p.key.keys, keyword ∈ k.keys)
    (hsame : ∀ p ∈ seg.puts, p.fingerprint = k.fingerprint →
      ∀ keyword ∈ k.keys, p.key.canonicalValue keyword = k.canonicalValue keyword) :
    ∃ b, idx.mayContain k = .ok b ∧
      (b = false → seg.puts.findRev? (fun p => p.fingerprint = k.fingerprint) = none) := by
  obtain ⟨b, hb, himp⟩ := IndexAxis.contains_ok (a := idx.axes) hk
  refine ⟨b, hb, fun hfalse => ?_⟩
  cases hfind : seg.puts.findRev? (fun p => p.fingerprint = k.fingerprint) with
  | none => rfl
  | some p =>
    obtain ⟨hp, hfp⟩ := findRev?_mem hfind
    refine absurd (himp fun keyword hkey => ?_) (by simp [hfalse])
    obtain ⟨q, hq, hmem⟩ := (h.axes.keyword keyword).mp hkey
    have hkmem := hkeyword q hq keyword hmem
    obtain ⟨v, hv⟩ := hk.canonical keyword hkmem
    have hpv := (hsame p hp (of_decide_eq_true hfp) keyword hkmem).trans hv
    have hpmem : keyword ∈ p.key.keys := by
      by_contra hnot
      rw [Key.canonicalValue, Key.find, Std.ExtTreeMap.getElem?_eq_none hnot] at hpv
      cases hpv
    exact ⟨v, hv, (h.axes.value keyword v).mpr ⟨p, hp, hpmem, hpv⟩⟩

/-- A segment that is skipped has nothing under the key's fingerprint. -/
theorem mayContain_ok (h : idx.Holds d seg) (hk : k.Fits names)
    (hseg : ∀ p ∈ seg.puts, p.key.Fits names) : ∃ b, idx.mayContain k = .ok b ∧
      (b = false → seg.puts.findRev? (fun p => p.fingerprint = k.fingerprint) = none) := by
  apply h.mayContain_skips hk.storable.toEncodable
  · intro p hp keyword hkeyword
    exact (hk.keyword keyword).mpr (((hseg p hp).keyword keyword).mp hkeyword)
  · intro p hp hfp keyword hkeyword
    have hsame := (Key.Fits.fingerprint_iff (hseg p hp) hk).mp hfp
    exact Key.Fits.canonicalValue_eq (hseg p hp) hk hsame ((hk.keyword keyword).mp hkeyword)

/-- Looking a key up finds the last field of the segment with its fingerprint. -/
theorem ends_lookup (h : idx.Holds d seg) (hf : d.faults = []) (hk : k.Storable) :
    Ends (idx.lookup TBTreeIndex k {}) d (fun r d' => d' = d ∧
      r = (seg.puts.findRev? fun p => p.fingerprint = k.fingerprint).map Put.found)
      fun _ _ => False := by
  obtain ⟨uris, hpages, huris, hknown⟩ := h.pages
  rw [TocIndex.lookup]
  simp only [h.closed, h.readOnly, Option.isSome_none, Bool.false_eq_true, if_false, ends_bind,
    TBTreeIndex, TBTreeIndex.build, Disk.ends_syscall hf, ends_get, hpages, ends_pure,
    TocIndex.get, TocIndex.withBTree, ends_lift, hk.fingerprint]
  refine ⟨fun _ hfp => ?_, fun _ hfp => by cases hfp⟩
  cases hfp
  simp only [TBTreeIndex.get, ends_bind, ends_lift, hk.btreeKey, Except.ok.injEq, forall_eq', reduceCtorEq,
    false_implies, implies_true, and_true, ends_pure, Put.pages_getElem? h.storable]
  cases hfind : seg.puts.findRev? (fun p => p.fingerprint = k.fingerprint) with
  | none => simp
  | some p =>
    obtain ⟨hp, -⟩ := findRev?_mem hfind
    have hget : idx.files.get (p.ref uris).uriId = .ok (UriStore.reread p.location.uri) := by
      rw [UriStore.get, huris, List.getElem?_map, Put.ref, List.getElem?_idxOf (hknown p hp)]
      rfl
    simp only [Option.map_some, ends_bind, ends_lift, hget, ends_pure]
    refine ⟨fun uri hu => ?_, fun _ hu => by cases hu⟩
    cases hu
    exact ⟨trivial, rfl⟩

end TocIndex.Holds

/-- A reader that goes through segments, the newest first, finds the last field of all. -/
theorem TocCatalogueReader.ends_retrieveFrom {d : Disk} {k : Key} {names : List String}
    (hf : d.faults = []) (hk : k.Fits names) {l : List (TocIndex BTreeHandle × Key)}
    {segs : List Segment} (h : List.Forall₂ (fun m seg => m.1.Holds d seg ∧ m.2 = {}) l segs)
    (hsegs : ∀ seg ∈ segs, ∀ p ∈ seg.puts, p.key.Fits names) :
    Ends (retrieveFrom k l) d (fun r d' => d' = d ∧
      r = ((segs.reverse.flatMap (·.puts)).findRev? fun p => p.fingerprint = k.fingerprint).map
        Put.found) fun _ _ => False := by
  induction h with
  | nil => exact ⟨rfl, rfl⟩
  | @cons m seg l segs hm _ ih =>
    obtain ⟨idx, _⟩ := m
    obtain ⟨hholds, rfl⟩ := hm
    obtain ⟨b, hb, hskip⟩ := hholds.mayContain_ok hk fun p => hsegs seg (.head _) p
    replace ih := ih fun s hs => hsegs s (.tail _ hs)
    simp only [List.reverse_cons, List.flatMap_append, List.flatMap_singleton, findRev?_append]
    rw [retrieveFrom]
    simp only [ends_bind, ends_lift, hb]
    refine ⟨fun _ h => ?_, fun _ h => by cases h⟩
    cases h
    cases b with
    | false =>
      simp only [Bool.false_eq_true, if_false, hskip rfl, Option.none_or]
      exact ih
    | true =>
      simp only [if_true, ends_bind]
      refine (hholds.ends_lookup hf hk.storable).mono ?_ fun _ _ h => h
      rintro r _ ⟨rfl, rfl⟩
      cases hfind : seg.puts.findRev? fun p => p.fingerprint = k.fingerprint with
      | none => simpa [hfind] using ih
      | some p => simp

/-- What a reader finds under an index key, given the segments that the tocs show. -/
theorem Disk.retrieve_found {d : Disk} {version depth : Nat} {toc : PathName} {k1 k2 : Key}
    {names : List String} {l : List (TocIndex BTreeHandle × Key)} {segs : List Segment}
    (hf : d.faults = []) (hl : TocHandler.loadIndexes d version depth toc = .ok l)
    (h : List.Forall₂ (fun m seg => m.1.Holds d seg ∧ m.2 = {}) l.reverse segs)
    (hk1 : k1.keys ≠ ∅) (hk2 : k2.Fits names)
    (hsegs : ∀ seg ∈ segs, seg.index = k1.keys → ∀ p ∈ seg.puts, p.key.Fits names) :
    d.retrieve version depth toc k1 k2 = .ok
      ((((segs.filter fun seg => seg.index = k1.keys).flatMap (·.puts)).findRev? fun p =>
        p.fingerprint = k2.fingerprint).map Put.found) := by
  have hselect : (TocCatalogueReader.selectIndex { indexes := l } k1).matching =
      l.filter fun m => m.1.key.keys = k1.keys := by
    rw [TocCatalogueReader.selectIndex, if_neg fun h => hk1 h.symm]
  have hmatching : List.Forall₂ (fun m seg => m.1.Holds d seg ∧ m.2 = {})
      (l.filter fun m => m.1.key.keys = k1.keys)
      (segs.filter fun seg => seg.index = k1.keys).reverse := by
    rw [← List.filter_reverse]
    refine List.rel_filter (fun m seg hm => ?_) (by simpa using List.rel_reverse h)
    simp [hm.1.key]
  rw [retrieve, TocCatalogueReader.build, hl]
  simp only [bind, Except.bind, pure, Except.pure]
  refine Ends.value ?_
  rw [TocCatalogueReader.retrieve, hselect]
  refine (TocCatalogueReader.ends_retrieveFrom hf hk2 hmatching ?_).mono ?_ fun _ _ h => h.elim
  · intro seg hseg
    obtain ⟨hmem, hindex⟩ := by simpa using hseg
    exact hsegs seg hmem hindex
  · rintro _ _ ⟨-, rfl⟩
    rw [List.reverse_reverse]

section Find

/-- What an index that was loaded answers for a key. -/
def TocIndex.find (d : Disk) (key : Key) (m : TocIndex BTreeHandle × Key) :
    Except Failure (Option FieldLocation) := do
  if ← m.1.mayContain key then
    match d.segment m.1.path m.1.offset with
    | none => throw (.system "open")
    | some pages =>
      match pages[← BTreeKey.ofString (← key.valuesToString)]? with
      | none => return none
      | some ref =>
        return some { uri := ← m.1.files.get ref.uriId, offset := ref.offset, length := ref.length,
                      remapKey := m.2 }
  else return none

/-- What the first index answers that has the key. -/
def TocCatalogueReader.findFrom (d : Disk) (key : Key) :
    List (TocIndex BTreeHandle × Key) → Except Failure (Option FieldLocation)
  | [] => return none
  | m :: rest => do
    match ← TocIndex.find d key m with
    | some location => return some location
    | none => findFrom d key rest

/-- An index as `loadIndexes` makes it. -/
def TocIndex.IsLoaded (idx : TocIndex BTreeHandle) : Prop := idx.write = false ∧ idx.btree = none

variable {d : Disk} {key : Key} {l : List (TocIndex BTreeHandle × Key)}

theorem TocIndex.run_lookup {idx : TocIndex BTreeHandle} {remapKey : Key} (hf : d.faults = [])
    (h : idx.IsLoaded) (hk : idx.mayContain key = .ok true) :
    (idx.lookup TBTreeIndex key remapKey).run d = (lift (find d key (idx, remapKey))).run d := by
  obtain ⟨hw, hb⟩ := h
  rw [run_eq_lift, lookup, find, hk]
  simp only [hb, hw, Option.isSome_none, Bool.false_eq_true, if_false, ends_bind, TBTreeIndex,
    TBTreeIndex.build, Disk.ends_syscall hf, ends_get, decide_true, if_true]
  cases hs : d.segment idx.path idx.offset with
  | none => exact ⟨rfl, rfl⟩
  | some pages =>
    simp only [ends_pure, TocIndex.get, withBTree, ends_bind, ends_lift]
    refine ⟨fun fp hfp => ?_, fun e he => ⟨trivial, by simp [bind, Except.bind, he]⟩⟩
    simp only [TBTreeIndex.get, ends_bind, ends_lift, ends_pure]
    refine ⟨fun k hk => ?_, fun e he => ⟨trivial, by simp [bind, Except.bind, hfp, he]⟩⟩
    cases hp : pages[k]? with
    | none => exact ⟨rfl, by simp [bind, Except.bind, hfp, hk, hp]⟩
    | some ref =>
      simp only [ends_bind, ends_lift, ends_pure]
      exact ⟨fun uri hu => ⟨trivial, by simp [bind, Except.bind, hfp, hk, hp, hu]⟩,
        fun e he => ⟨trivial, by simp [bind, Except.bind, hfp, hk, hp, he]⟩⟩

theorem TocCatalogueReader.run_retrieveFrom (hf : d.faults = []) (h : ∀ m ∈ l, m.1.IsLoaded) :
    (retrieveFrom key l).run d = (lift (findFrom d key l)).run d := by
  induction l with
  | nil => rfl
  | cons m l ih =>
    obtain ⟨idx, remapKey⟩ := m
    replace ih := ih fun m hm => h m (.tail _ hm)
    rw [run_eq_lift] at ih ⊢
    rw [retrieveFrom, findFrom]
    simp only [ends_bind, ends_lift]
    refine ⟨fun b hb => ?_, fun e he => ⟨trivial, by simp [TocIndex.find, he, bind, Except.bind]⟩⟩
    cases b with
    | false =>
      have hnone : TocIndex.find d key (idx, remapKey) = .ok none := by
        simp [TocIndex.find, hb, bind, Except.bind, pure, Except.pure]
      simp only [Bool.false_eq_true, if_false, hnone]
      exact ih
    | true =>
      have hlookup : (idx.lookup TBTreeIndex key remapKey).run d = _ := TocIndex.run_lookup hf (h _ (.head _)) hb
      rw [run_eq_lift] at hlookup
      simp only [if_true, ends_bind]
      refine hlookup.mono ?_ fun e t he => ⟨he.1, by simp [he.2, bind, Except.bind]⟩
      rintro r t ⟨rfl, hfind⟩
      rw [hfind]
      cases r with
      | none => exact ih
      | some location => exact ⟨rfl, rfl⟩

/-- Without faults the answer of a reader depends on the segments alone. -/
theorem Disk.retrieve_eq {version depth : Nat} {toc : PathName} {k1 k2 : Key} (hf : d.faults = [])
    (hl : TocHandler.loadIndexes d version depth toc = .ok l) (h : ∀ m ∈ l, m.1.IsLoaded) :
    d.retrieve version depth toc k1 k2 = if k1.keys = ∅ then .ok none
      else TocCatalogueReader.findFrom d k2 (l.filter fun m => m.1.key.keys = k1.keys) := by
  rw [retrieve, TocCatalogueReader.build, hl]
  simp only [bind, Except.bind, pure, Except.pure, TocCatalogueReader.selectIndex,
    TocCatalogueReader.retrieve]
  by_cases hk1 : k1.keys = ∅
  · rw [if_pos hk1, if_pos (by rw [hk1])]
    rfl
  · rw [if_neg hk1, if_neg fun h => hk1 h.symm,
      TocCatalogueReader.run_retrieveFrom hf fun m hm => h m (List.mem_of_mem_filter hm)]
    cases TocCatalogueReader.findFrom d k2 (l.filter fun m => m.1.key.keys = k1.keys) <;> rfl

end Find

end Fdb5
