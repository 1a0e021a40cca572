import Fdb5.Inspect.Retrieve

/-! Listing a database: what a visitor shows of the segments that a reader loaded. -/
namespace Fdb5

open Effect LastWins

/-- A field as an index gives it out. -/
structure Field where
  location : FieldLocation
  timestamp : Nat

section Retrieve

variable (time : TocIndex BTreeHandle → Nat)

/-- `TocIndex::get(key, remapKey, field)` on an index that is opened, with the location that the
factory builds; `time` is the `timestamp()` of the indexes. -/
def TocIndex.getField (idx : TocIndex BTreeHandle) (key remapKey : Key) :
    EStateM Failure Disk (Option Field) := do
  match ← idx.lookup TBTreeIndex key remapKey with
  | none => return none
  | some location =>
    ensure (location.length ≠ 0) "length != 0"
    return some ⟨location, time idx⟩

/-- The loop of `retrieve(key, field)`. -/
def TocCatalogueReader.retrieveFieldFrom (key : Key) :
    List (TocIndex BTreeHandle × Key) → EStateM Failure Disk (Option Field)
  | [] => return none
  | (idx, remapKey) :: rest => do
    if ← lift (idx.mayContain key) then
      match ← idx.getField time key remapKey with
      | some field => return some field
      | none => retrieveFieldFrom key rest
    else retrieveFieldFrom key rest

/-- A reader that is made now, selects `k1` and retrieves the field of `k2`. -/
def Disk.retrieveField (d : Disk) (version depth : Nat) (tocPath : PathName) (k1 k2 : Key) :
    Except Failure (Option Field) := do
  let r ← TocCatalogueReader.build d version depth tocPath
  value ((TocCatalogueReader.retrieveFieldFrom time k2 (r.selectIndex k1).matching).run d)

end Retrieve

/-- `BTree::range("", "\255", ..)`: UTF-8 begins no character with this byte, and those outside ASCII
with a greater one. -/
def TBTreeIndex.ranged (fingerprint : String) : Bool :=
  fingerprint.toList.head?.all fun c => c.toNat < 128

def MarsRequest.has (rq : MarsRequest) (name : String) : Bool := (rq.params.lookup name).isSome

def IndexAxis.partialMatch (a : IndexAxis) (rq : MarsRequest) : Bool :=
  a.axis.toList.all fun kv => !rq.has kv.1 || (rq.values kv.1).any fun v => v ∈ kv.2

def TocIndex.partialMatch (idx : TocIndex BTreeHandle) (rq : MarsRequest) : Bool :=
  idx.key.partialMatch rq && idx.axes.partialMatch rq

structure ListedElement extends ListElement where
  timestamp : Nat

/-- `ListElement::combinedKey()` of an element with these parts. -/
def combinedKey (dbKey indexKey datumKey : Key) : Key :=
  [dbKey, indexKey, datumKey].foldl
    (fun combined part => part.keys.toList.foldl (fun k kv => k.set kv.1 kv.2) combined) datumKey

def ListElement.combinedKey (el : ListElement) : Key := Fdb5.combinedKey el.dbKey el.indexKey el.datumKey

/-- What `next` of a deduplicating `ListIterator` returns until the end, after the keys seen. -/
def ListIterator.elements : List (String × StringDict) → List ListedElement → Except Failure (List ListedElement)
  | _, [] => return []
  | seen, el :: rest => do
    let combined := el.combinedKey
    let hash ← combined.valuesToString
    if (hash, combined.keys) ∈ seen then elements seen rest
    else return el :: (← elements ((hash, combined.keys) :: seen) rest)

/-- The request without what the key says. -/
def MarsRequest.subselect (rq : MarsRequest) (key : Key) : MarsRequest :=
  key.keys.toList.foldl (fun rq kv => rq.unsetValues kv.1) rq

/-- A `ListVisitor` that is in a database. -/
structure ListVisitor where
  key : Key
  schema : Schema
  request : MarsRequest

namespace ListVisitor

variable (time : TocIndex BTreeHandle → Nat) (v : ListVisitor)

def indexRequest : MarsRequest := v.request.subselect v.key

def datumRequest (idx : TocIndex BTreeHandle) : MarsRequest := v.indexRequest.subselect idx.key

/-- The key that `visitDatum(field, keyFingerprint)` makes of the fingerprint. -/
def datumKey (indexKey : Key) (fingerprint : String) : Except Failure Key :=
  Key.ofFingerprint fingerprint (v.schema.ruleFor v.key indexKey)

def visitDatum (idx : TocIndex BTreeHandle) (field : Field) (fingerprint : String) :
    Except Failure (List ListedElement) := do
  let key ← v.datumKey idx.key fingerprint
  if key.matchRequest (v.datumRequest idx) then
    return [⟨⟨v.key, idx.key, key, field.location⟩, field.timestamp⟩]
  else return []

/-- `TocIndexVisitor::visit(keyFingerprint, ref)`, whose location has no remap key. -/
def visit (idx : TocIndex BTreeHandle) (entry : String × FieldRef) : Except Failure (List ListedElement) := do
  let uri ← idx.files.get entry.2.uriId
  v.visitDatum idx ⟨{ uri, offset := entry.2.offset, length := entry.2.length }, time idx⟩ entry.1

/-- `TocIndex::entries(visitor)`. -/
def entries (idx : TocIndex BTreeHandle) : EStateM Failure Disk (List ListedElement) := do
  if idx.partialMatch v.request then
    let h ← match idx.btree with
      | some h => pure h
      | none => TBTreeIndex.build idx.path (idx.write = false) idx.offset
    let found ← lift ((h.pages.toList.filter fun e => TBTreeIndex.ranged e.1).mapM (v.visit time idx))
    return found.flatten
  else return []

def visitIndexes : List (TocIndex BTreeHandle) → EStateM Failure Disk (List ListedElement)
  | [] => return []
  | idx :: rest => do
    let found ← v.entries time idx
    return found ++ (← visitIndexes rest)

end ListVisitor

namespace TocCatalogue

/-- `visitEntries` with a `ListVisitor`, after `DB::buildReader(uri)` and `open()`. -/
def list (c : TocCatalogue) (time : TocIndex BTreeHandle → Nat) (enabled : ControlIdentifier → Bool)
    (rq : MarsRequest) : EStateM Failure Disk (List ListedElement) := do
  let d ← get
  let key ← lift (c.openReader d)
  let indexes ← lift (c.indexes d)
  match d.schema c.schemaPath with
  | none => throw (.system "open")
  | some schema =>
    if enabled .list ∧ TocHandler.enabled d c.directory .list then
      ensure (key.partialMatch rq) "catalogue.key().partialMatch(request_)"
      ListVisitor.visitIndexes time ⟨key, schema, rq⟩ indexes
    else return []

end TocCatalogue

/-- An index that a reader has loaded, with its remap key and the segment it holds. -/
structure HeldIndex where
  index : TocIndex BTreeHandle
  remapKey : Key
  segment : Segment

namespace HeldIndex

/-- The field of the segment that was put under the fingerprint last. -/
def last (x : HeldIndex) (fingerprint : String) : Option (HeldIndex × Put) :=
  (x.segment.puts.findRev? fun p => p.fingerprint = fingerprint).map (x, ·)

theorem last_eq_some {x y : HeldIndex} {p : Put} {fingerprint : String} (h : x.last fingerprint = some (y, p)) :
    y = x ∧ p ∈ x.segment.puts ∧ p.fingerprint = fingerprint := by
  obtain ⟨q, hq, he⟩ := Option.map_eq_some_iff.mp h
  obtain ⟨rfl, rfl⟩ := Prod.ext_iff.mp he
  obtain ⟨hmem, hfp⟩ := findRev?_mem hq
  exact ⟨rfl, hmem, of_decide_eq_true hfp⟩

theorem last_of_mem {x : HeldIndex} {p : Put} (h : p ∈ x.segment.puts) : ∃ q, x.last p.fingerprint = some (x, q) := by
  rw [last]
  cases hfind : x.segment.puts.findRev? fun q => q.fingerprint = p.fingerprint with
  | some q => exact ⟨q, rfl⟩
  | none =>
    rw [List.findRev?_eq_find?_reverse, List.find?_eq_none] at hfind
    simp at hfind
    exact absurd rfl (hfind p h)

end HeldIndex

/-- The newest field under a fingerprint among the indexes with an index key. -/
def newest (held : List HeldIndex) (index : StringDict) (fingerprint : String) : Option (HeldIndex × Put) :=
  held.findSome? fun x => if x.segment.index = index then x.last fingerprint else none

/-- Fields under one index key have the same keywords, and the same values if a fingerprint. -/
structure Put.Comparable (p q : Put) : Prop where
  names : p.key.names = q.key.names
  keyword : ∀ keyword ∈ p.key.keys, keyword ∈ q.key.keys
  value : p.fingerprint = q.fingerprint →
    ∀ keyword, p.key.canonicalValue keyword = q.key.canonicalValue keyword

/-- The field that `get` makes of a put that an index holds. -/
def HeldIndex.field (time : TocIndex BTreeHandle → Nat) (y : HeldIndex × Put) : Field :=
  ⟨{ y.2.found with remapKey := y.1.remapKey }, time y.1.index⟩

section Retrieve

variable {d : Disk} {time : TocIndex BTreeHandle → Nat} {held : List HeldIndex} {p : Put}

theorem TocIndex.Holds.mayContain_last {x : HeldIndex} (h : x.index.Holds d x.segment) (hk : p.key.Encodable)
    (hsame : ∀ q ∈ x.segment.puts, q.Comparable p) :
    ∃ b, x.index.mayContain p.key = .ok b ∧ (b = false → x.last p.fingerprint = none) := by
  obtain ⟨b, hb, hskip⟩ := h.mayContain_skips hk (fun q hq => (hsame q hq).keyword)
    fun q hq hfp keyword _ => (hsame q hq).value hfp keyword
  exact ⟨b, hb, fun hfalse => by rw [HeldIndex.last, Put.fingerprint, hskip hfalse]; rfl⟩

theorem TocIndex.Holds.find_eq {x : HeldIndex} (h : x.index.Holds d x.segment) (hk : p.key.Storable)
    (hsame : ∀ q ∈ x.segment.puts, q.Comparable p) :
    TocIndex.find d p.key (x.index, x.remapKey) =
      .ok ((x.last p.fingerprint).map fun y => { y.2.found with remapKey := y.1.remapKey }) := by
  obtain ⟨b, hb, hskip⟩ := h.mayContain_last hk.toEncodable hsame
  obtain ⟨uris, hpages, huris, hknown⟩ := h.pages
  rw [TocIndex.find, hb]
  cases b with
  | false => rw [hskip rfl]; rfl
  | true =>
    have hrefs : (Put.pages uris x.segment.puts)[p.key.fingerprint]? =
        (x.segment.puts.findRev? fun q => q.fingerprint = p.fingerprint).map (Put.ref uris) :=
      Put.pages_getElem? h.storable _
    simp only [bind, Except.bind, if_true, hpages, hk.fingerprint, hk.btreeKey, hrefs, HeldIndex.last]
    cases hfind : x.segment.puts.findRev? (fun q => q.fingerprint = p.fingerprint) with
    | none => rfl
    | some q =>
      obtain ⟨hq, -⟩ := findRev?_mem hfind
      have hget : x.index.files.get (q.ref uris).uriId = .ok (UriStore.reread q.location.uri) := by
        rw [UriStore.get, huris, List.getElem?_map, Put.ref, List.getElem?_idxOf (hknown q hq)]
        rfl
      simp only [Option.map_some, hget]
      rfl

theorem TocCatalogueReader.ends_retrieveFieldFrom (hf : d.faults = []) (hk : p.key.Storable)
    (h : ∀ x ∈ held, x.index.Holds d x.segment ∧ ∀ q ∈ x.segment.puts, q.Comparable p) :
    Ends (retrieveFieldFrom time p.key (held.map fun x => (x.index, x.remapKey))) d
      (fun r _ => r = (held.findSome? fun x => x.last p.fingerprint).map (HeldIndex.field time) ∧
        ∀ y ∈ held.findSome? fun x => x.last p.fingerprint, y.2.location.length ≠ 0)
      fun _ _ => ∃ y ∈ held.findSome? fun x => x.last p.fingerprint, y.2.location.length = 0 := by
  induction held with
  | nil => exact ⟨rfl, by simp⟩
  | cons x held ih =>
    obtain ⟨hholds, hsame⟩ := h x (.head _)
    obtain ⟨b, hb, hskip⟩ := hholds.mayContain_last hk.toEncodable hsame
    replace ih := ih fun y hy => h y (.tail _ hy)
    rw [List.map_cons, retrieveFieldFrom, List.findSome?_cons]
    simp only [ends_bind, ends_lift, hb]
    refine ⟨fun _ h => ?_, fun _ h => by cases h⟩
    cases h
    cases b with
    | false =>
      simp only [Bool.false_eq_true, if_false, hskip rfl]
      exact ih
    | true =>
      have hlookup : (x.index.lookup TBTreeIndex p.key x.remapKey).run d = _ :=
        TocIndex.run_lookup hf ⟨hholds.readOnly, hholds.closed⟩ hb
      rw [run_eq_lift, hholds.find_eq hk hsame] at hlookup
      simp only [if_true, ends_bind, TocIndex.getField]
      refine hlookup.mono ?_ fun e t he => by cases he.2
      rintro r t ⟨rfl, hr⟩
      cases hr
      cases hlast : x.last p.fingerprint with
      | none => exact ih
      | some y =>
        obtain ⟨y, q⟩ := y
        obtain ⟨rfl, -⟩ := HeldIndex.last_eq_some hlast
        simp only [Option.map_some, ends_bind, ends_ensure, ends_pure, Option.mem_def, Option.some.injEq,
          forall_eq', exists_eq_left']
        exact ⟨fun hlength => ⟨rfl, hlength⟩, fun hlength => by simpa [Put.found] using hlength⟩

end Retrieve

namespace ListVisitor

variable {v : ListVisitor} {time : TocIndex BTreeHandle → Nat} {d : Disk} {x : HeldIndex} {p : Put} {k : Key}
  {held : List HeldIndex}

/-- What the list has for the put. -/
def element (v : ListVisitor) (time : TocIndex BTreeHandle → Nat) (x : HeldIndex) (p : Put) (k : Key) : ListedElement :=
  ⟨⟨v.key, x.index.key, k, p.found⟩, time x.index⟩

/-- The list comes to the put, under this key, and the rest of the request is met. -/
structure Shows (v : ListVisitor) (x : HeldIndex) (p : Put) (k : Key) : Prop where
  index : x.index.partialMatch v.request = true
  last : x.last p.fingerprint = some (x, p)
  ranged : TBTreeIndex.ranged p.fingerprint = true
  key : v.datumKey x.index.key p.fingerprint = .ok k
  datum : k.matchRequest (v.datumRequest x.index) = true

theorem visit_put {uris : List URI} (huris : x.index.files.uris = uris.map UriStore.reread) (hp : p.location.uri ∈ uris) :
    v.visit time x.index (p.fingerprint, p.ref uris) =
      v.visitDatum x.index ⟨p.found, time x.index⟩ p.fingerprint := by
  have hget : x.index.files.get (p.ref uris).uriId = .ok (UriStore.reread p.location.uri) := by
    rw [UriStore.get, huris, List.getElem?_map, Put.ref, List.getElem?_idxOf hp]
    rfl
  rw [visit, hget]
  rfl

theorem mem_visitDatum {field : Field} {fingerprint : String} {els : List ListedElement} {el : ListedElement}
    (h : v.visitDatum x.index field fingerprint = .ok els) : el ∈ els ↔
      ∃ k, v.datumKey x.index.key fingerprint = .ok k ∧ k.matchRequest (v.datumRequest x.index) = true ∧
        el = ⟨⟨v.key, x.index.key, k, field.location⟩, field.timestamp⟩ := by
  simp only [visitDatum, except_bind_ok] at h
  obtain ⟨k, hk, h⟩ := h
  by_cases hm : k.matchRequest (v.datumRequest x.index) = true
  · rw [if_pos hm] at h
    cases h
    simp [hk, hm]
  · rw [if_neg hm] at h
    cases h
    simp [hk, hm]

/-- The entries of an index that is not skipped are visited one by one. -/
theorem run_entries_pages {uris : List URI} (hf : d.faults = []) (hx : x.index.Holds d x.segment)
    (hpages : d.segment x.index.path x.index.offset = some (Put.pages uris x.segment.puts))
    (hm : x.index.partialMatch v.request = true) : (v.entries time x.index).run d =
      (lift (List.flatten <$> ((Put.pages uris x.segment.puts).toList.filter fun e => TBTreeIndex.ranged e.1).mapM
        (v.visit time x.index))).run d := by
  rw [run_eq_lift, entries, if_pos hm]
  simp only [hx.closed, hx.readOnly, decide_true, ends_bind, TBTreeIndex.build, Disk.ends_syscall hf, ends_get, hpages,
    ends_pure, ends_lift, except_map_ok, except_map_error]
  exact ⟨fun a ha => ⟨trivial, a, ha, rfl⟩, fun e he => ⟨trivial, he⟩⟩

/-- One index: the fields shown are the last of their fingerprints. -/
theorem run_entries (hf : d.faults = []) (hx : x.index.Holds d x.segment)
    (hread : x.index.partialMatch v.request = true →
      ∀ p ∈ x.segment.puts, ∃ k, v.datumKey x.index.key p.fingerprint = .ok k) :
    ∃ els, (v.entries time x.index).run d = .ok els d ∧
      ∀ el, el ∈ els ↔ ∃ p k, v.Shows x p k ∧ el = v.element time x p k := by
  by_cases hm : x.index.partialMatch v.request = true
  · obtain ⟨uris, hpages, huris, hknown⟩ := hx.pages
    have hentry : ∀ fp ref, (fp, ref) ∈ (Put.pages uris x.segment.puts).toList ↔
        ∃ p, x.last p.fingerprint = some (x, p) ∧ fp = p.fingerprint ∧ ref = p.ref uris := by
      intro fp ref
      rw [Std.ExtTreeMap.mem_toList_iff_getElem?_eq_some, Put.pages_getElem? hx.storable, Option.map_eq_some_iff]
      constructor
      · rintro ⟨p, hp, rfl⟩
        obtain ⟨-, hfp⟩ := findRev?_mem hp
        obtain rfl := of_decide_eq_true hfp
        exact ⟨p, by rw [HeldIndex.last, hp]; rfl, rfl, rfl⟩
      · rintro ⟨p, hp, rfl, rfl⟩
        obtain ⟨q, hq, he⟩ := Option.map_eq_some_iff.mp hp
        cases he
        exact ⟨p, hq, rfl⟩
    have hvisit : ∀ p, x.last p.fingerprint = some (x, p) → v.visit time x.index (p.fingerprint, p.ref uris) =
        v.visitDatum x.index ⟨p.found, time x.index⟩ p.fingerprint :=
      fun p hp => visit_put huris (hknown p (HeldIndex.last_eq_some hp).2.1)
    obtain ⟨parts, hparts⟩ := exists_mapM (f := v.visit time x.index)
      (l := (Put.pages uris x.segment.puts).toList.filter fun e => TBTreeIndex.ranged e.1) (by
        rintro ⟨fp, ref⟩ he
        obtain ⟨p, hp, rfl, rfl⟩ := (hentry fp ref).mp (List.mem_of_mem_filter he)
        obtain ⟨k, hk⟩ := hread hm p (HeldIndex.last_eq_some hp).2.1
        rw [hvisit p hp, visitDatum, hk]
        by_cases hd : k.matchRequest (v.datumRequest x.index) = true
        · exact ⟨_, by simp only [bind, Except.bind, if_pos hd]; rfl⟩
        · exact ⟨_, by simp only [bind, Except.bind, if_neg hd]; rfl⟩)
    refine ⟨parts.flatten, ?_, fun el => ?_⟩
    · rw [run_entries_pages hf hx hpages hm, hparts]
      rfl
    · rw [mem_mapM_flatten hparts]
      constructor
      · rintro ⟨⟨fp, ref⟩, he, els, hels, hel⟩
        obtain ⟨p, hp, rfl, rfl⟩ := (hentry fp ref).mp (List.mem_of_mem_filter he)
        rw [hvisit p hp] at hels
        obtain ⟨k, hk, hd, rfl⟩ := (mem_visitDatum hels).mp hel
        exact ⟨p, k, ⟨hm, hp, (List.mem_filter.mp he).2, hk, hd⟩, rfl⟩
      · rintro ⟨p, k, hs, rfl⟩
        have he : (p.fingerprint, p.ref uris) ∈
            (Put.pages uris x.segment.puts).toList.filter fun e => TBTreeIndex.ranged e.1 :=
          List.mem_filter.mpr ⟨(hentry _ _).mpr ⟨p, hs.last, rfl, rfl⟩, hs.ranged⟩
        obtain ⟨els, -, hels⟩ := mem_mapM_of hparts he
        refine ⟨_, he, els, hels, ?_⟩
        rw [hvisit p hs.last] at hels
        exact (mem_visitDatum hels).mpr ⟨k, hs.key, hs.datum, rfl⟩
  · refine ⟨[], by rw [entries, if_neg hm]; rfl, fun el => ?_⟩
    simp only [List.not_mem_nil, false_iff, not_exists, not_and]
    exact fun p k hs => absurd hs.index hm

/-- What the list has of one index. -/
def shown (v : ListVisitor) (time : TocIndex BTreeHandle → Nat) (d : Disk) (x : HeldIndex) : List ListedElement :=
  match (v.entries time x.index).run d with
  | .ok els _ => els
  | .error _ _ => []

theorem run_visitIndexes (hf : d.faults = []) (hheld : ∀ x ∈ held, x.index.Holds d x.segment)
    (hread : ∀ x ∈ held, x.index.partialMatch v.request = true →
      ∀ p ∈ x.segment.puts, ∃ k, v.datumKey x.index.key p.fingerprint = .ok k) :
    (v.visitIndexes time (held.map HeldIndex.index)).run d = .ok (held.flatMap (v.shown time d)) d ∧
      ∀ x ∈ held, ∀ el, el ∈ v.shown time d x ↔ ∃ p k, v.Shows x p k ∧ el = v.element time x p k := by
  induction held with
  | nil => exact ⟨rfl, by simp⟩
  | cons x held ih =>
    obtain ⟨els, hrun, hmem⟩ : ∃ els, (v.entries time x.index).run d = .ok els d ∧ _ :=
      run_entries hf (hheld x (.head _)) (hread x (.head _))
    obtain ⟨hrest, hall⟩ := ih (fun y hy => hheld y (.tail _ hy)) fun y hy => hread y (.tail _ hy)
    have hshown : v.shown time d x = els := by rw [shown, hrun]
    refine ⟨?_, ?_⟩
    · have hends : Ends (v.visitIndexes time ((x :: held).map HeldIndex.index)) d
          (fun r t => r = (x :: held).flatMap (v.shown time d) ∧ t = d) fun _ _ => False := by
        rw [List.map_cons, visitIndexes]
        simp only [ends_bind, ends_run_ok hrun, ends_run_ok hrest, ends_pure, List.flatMap_cons, hshown]
        trivial
      obtain ⟨r, t, hok, rfl, rfl⟩ := hends.returns
      exact hok
    · intro y hy
      rcases List.mem_cons.mp hy with rfl | hy
      · rw [hshown]
        exact hmem
      · exact hall y hy

end ListVisitor

end Fdb5
