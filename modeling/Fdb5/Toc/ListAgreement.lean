import Mathlib.Data.List.Find
import Fdb5.Library.FirstWins
import Fdb5.Rules.ReadBack
import Fdb5.Toc.Listing

/-! Whether a list without duplicates agrees with a reader, on each field that it is about. -/
namespace Fdb5

open Effect LastWins FirstWins

/-- The key has the field's values as a list shows them: one that is empty may be left out. -/
structure Key.ListedAs (k listed : Key) : Prop where
  value : ∀ keyword v, listed.find keyword = some v → k.canonicalValue keyword = .ok v
  missing : ∀ keyword ∈ k.keys, listed.find keyword = none → k.canonicalValue keyword = .ok ""

namespace ListedElement

/-- The element is about the field with these keys. -/
def isFor (index datum : StringDict) (el : ListedElement) : Bool :=
  el.indexKey.keys = index ∧ el.datumKey.keys = datum

/-- The element says of the field what a reader does. -/
structure Agrees (el : ListedElement) (f : Field) : Prop where
  uri : el.location.uri = f.location.uri
  offset : el.location.offset = f.location.offset
  length : el.location.length = f.location.length
  remapKey : el.location.remapKey.keys = f.location.remapKey.keys
  timestamp : el.timestamp = f.timestamp

end ListedElement

/-- A database that can be listed: what its reader loads, and the fields that this holds. -/
structure OpenDatabase where
  disk : Disk
  catalogue : TocCatalogue
  enabled : ControlIdentifier → Bool
  time : TocIndex BTreeHandle → Nat
  key : Key
  schema : Schema
  held : List HeldIndex
  faults : disk.faults = []
  opened : catalogue.openReader disk = .ok key
  schemaRead : disk.schema catalogue.schemaPath = some schema
  listable : enabled .list = true ∧ TocHandler.enabled disk catalogue.directory .list = true
  loaded : TocHandler.loadIndexes disk catalogue.version catalogue.depth catalogue.tocPath =
    .ok (held.map fun x => (x.index, x.remapKey))
  holds : ∀ x ∈ held, x.index.Holds disk x.segment
  comparable : ∀ x ∈ held, ∀ y ∈ held, x.segment.index = y.segment.index →
    ∀ p ∈ x.segment.puts, ∀ q ∈ y.segment.puts, p.Comparable q
  levels : ∀ x ∈ held, ∀ p ∈ x.segment.puts, ∀ keyword ∈ p.key.keys,
    keyword ∉ key.keys ∧ keyword ∉ x.segment.index

namespace OpenDatabase

variable (db : OpenDatabase) (rq : MarsRequest)

def visitor : ListVisitor := ⟨db.key, db.schema, rq⟩

/-- `FDB::list(request, true)` as it comes to this database. -/
def list : Except Failure (List ListedElement) := do
  ListIterator.elements [] (← value ((db.catalogue.list db.time db.enabled rq).run db.disk))

def retrieve (k1 k2 : Key) : Except Failure (Option Field) :=
  db.disk.retrieveField db.time db.catalogue.version db.catalogue.depth db.catalogue.tocPath k1 k2

/-- The key of the field is read back from its fingerprint. -/
structure Reads (x : HeldIndex) (p : Put) (k : Key) : Prop where
  key : Key.ofFingerprint p.fingerprint (db.schema.ruleFor db.key x.index.key) = .ok k
  listed : p.key.ListedAs k

/-- The request selects the field by the keys it is listed under. -/
structure Selects (x : HeldIndex) (p : Put) (k : Key) : Prop where
  held : x ∈ db.held
  index : x.index.key.partialMatch rq = true
  put : p ∈ x.segment.puts
  key : (db.visitor rq).datumKey x.index.key p.fingerprint = .ok k
  datum : k.matchRequest ((db.visitor rq).datumRequest x.index) = true

/-- The fields under the index keys of interest are read back under their own keys. -/
def Readable : Prop := ∀ x ∈ db.held, x.index.key.partialMatch rq = true →
  ∀ p ∈ x.segment.puts, ∃ k, db.Reads x p k

/-- A list without duplicates has one element for each field it is about, which says where a reader
finds the field. -/
def ListAgrees : Prop := ∃ els, db.list rq = .ok els ∧ db.Readable rq ∧
  ∀ x p k, db.Selects rq x p k → ∃ el f, els.filter (ListedElement.isFor x.segment.index k.keys) = [el] ∧
    db.retrieve x.index.key p.key = .ok (some f) ∧ el.Agrees f

/-- By which the `unordered_set` of a `ListIterator` knows a key. -/
def seenAs (combined : Key) : String × StringDict := (combined.fingerprint, combined.keys)

/-- Both sides come to the field, and its newest version is not in a remapped index. -/
structure Plainly (x : HeldIndex) (p : Put) (k : Key) : Prop where
  index : x.segment.index ≠ ∅
  ranged : TBTreeIndex.ranged p.fingerprint = true
  hashed : ∃ hash, (combinedKey db.key x.index.key k).valuesToString = .ok hash
  newest : ∀ y ∈ newest db.held x.segment.index p.fingerprint, y.1.remapKey.keys = ∅ ∧ y.2.location.length ≠ 0

/-- The fields can be told apart and are found plainly. -/
structure Unmixed : Prop where
  database : db.key.partialMatch rq = true
  readable : db.Readable rq
  plainly : ∀ x p k, db.Selects rq x p k → db.Plainly x p k
  apart : ∀ x p k y q k', db.Selects rq x p k → db.Selects rq y q k' →
    seenAs (combinedKey db.key x.index.key k) = seenAs (combinedKey db.key y.index.key k') →
    x.segment.index = y.segment.index ∧ p.fingerprint = q.fingerprint

variable {db} {rq} {x y : HeldIndex} {p q : Put} {k k' : Key} {fingerprint : String}

theorem combinedKey_congr {index index' : Key} (h : index.keys = index'.keys) :
    combinedKey db.key index k = combinedKey db.key index' k := by
  simp only [combinedKey, List.foldl_cons, List.foldl_nil, h]

theorem ruleFor_congr {index index' : Key} (h : index.keys = index'.keys) :
    db.schema.ruleFor db.key index = db.schema.ruleFor db.key index' := by
  have hrule : ∀ r, Rule.ruleFor [index] r = Rule.ruleFor [index'] r := by
    intro r
    rw [Rule.ruleFor, Rule.ruleFor, Rule.accepts_congr h]
  have hall : Rule.ruleFor [index] = Rule.ruleFor [index'] := funext hrule
  have hboth : Rule.ruleFor [db.key, index] = Rule.ruleFor [db.key, index'] := by
    funext r
    rw [Rule.ruleFor, Rule.ruleFor, hall]
  rw [Schema.ruleFor, Schema.ruleFor, hboth]

theorem keys_eq (hx : x ∈ db.held) : x.index.key.keys = x.segment.index := (db.holds x hx).key

/-- Under one index key a fingerprint is read back as one key. -/
theorem datumKey_congr (hx : x ∈ db.held) (hy : y ∈ db.held) (h : x.segment.index = y.segment.index) :
    (db.visitor rq).datumKey x.index.key fingerprint = (db.visitor rq).datumKey y.index.key fingerprint := by
  have hkeys : x.index.key.keys = y.index.key.keys := by rw [keys_eq hx, keys_eq hy, h]
  rw [ListVisitor.datumKey, ListVisitor.datumKey]
  have hrule : db.schema.ruleFor db.key x.index.key = db.schema.ruleFor db.key y.index.key := ruleFor_congr hkeys
  exact congrArg _ hrule

/-- Fields that are listed under one key have one fingerprint. -/
theorem fingerprint_eq (hx : x ∈ db.held) (hy : y ∈ db.held) (h : x.segment.index = y.segment.index)
    (hp : p ∈ x.segment.puts) (hq : q ∈ y.segment.puts) (hk : p.key.ListedAs k) (hk' : q.key.ListedAs k')
    (hkeys : k.keys = k'.keys) : p.fingerprint = q.fingerprint := by
  have hsame := db.comparable x hx y hy h p hp q hq
  have hfind : ∀ keyword, k.find keyword = k'.find keyword := fun keyword => by rw [Key.find, Key.find, hkeys]
  obtain ⟨values, hv, hfp, -⟩ := Key.valuesToString_ok ((db.holds x hx).storable p hp).fingerprint
  obtain ⟨values', hv', hfp', -⟩ := Key.valuesToString_ok ((db.holds y hy).storable q hq).fingerprint
  have hforall := Key.mapM_ok hv
  have hvalues : p.key.canonicalValues = q.key.canonicalValues := by
    rw [Key.canonicalValues, Key.canonicalValues, ← hsame.names]
    apply mapM_congr
    intro keyword hkeyword
    obtain ⟨v, -, hcanonical⟩ := mem_mapM_of hv hkeyword
    have hmem : keyword ∈ p.key.keys := by
      by_contra hnot
      rw [Key.canonicalValue, Key.find, Std.ExtTreeMap.getElem?_eq_none hnot] at hcanonical
      cases hcanonical
    cases hf : k.find keyword with
    | some w => rw [hk.value keyword w hf, hk'.value keyword w (hfind keyword ▸ hf)]
    | none =>
      rw [hk.missing keyword hmem hf, hk'.missing keyword (hsame.keyword keyword hmem) (hfind keyword ▸ hf)]
  have heq : values = values' := by
    rw [hvalues, hv'] at hv
    exact (Except.ok.inj hv).symm
  exact hfp.trans (heq ▸ hfp'.symm)

theorem subselect_params (key : Key) : (rq.subselect key).params = rq.params.filter fun p => p.1 ∉ key.keys := by
  have hfold : ∀ l : List (String × String), ∀ rq : MarsRequest,
      (l.foldl (fun rq kv => rq.unsetValues kv.1) rq).params = rq.params.filter fun p => p.1 ∉ l.map Prod.fst := by
    intro l
    induction l with
    | nil => intro rq; simp
    | cons kv l ih =>
      intro rq
      rw [List.foldl_cons, ih, MarsRequest.unsetValues, List.filter_filter]
      congr 1
      funext p
      by_cases h : p.1 = kv.1 <;> simp [h]
  rw [MarsRequest.subselect, hfold]
  congr 1
  funext p
  have hmem : p.1 ∈ key.keys.toList.map Prod.fst ↔ p.1 ∈ key.keys := by
    rw [Std.ExtTreeMap.map_fst_toList_eq_keys]
    simp
  simp only [hmem]

theorem lookup_subselect {key : Key} {keyword : String} (h : keyword ∉ key.keys) :
    (rq.subselect key).params.lookup keyword = rq.params.lookup keyword := by
  rw [subselect_params]
  induction rq.params with
  | nil => rfl
  | cons p l ih =>
    by_cases hp : keyword = p.1
    · obtain ⟨name, values⟩ := p
      obtain rfl : keyword = name := hp
      simp [h]
    · obtain ⟨name, values⟩ := p
      have hne : (keyword == name) = false := by simpa using hp
      rw [List.filter_cons, List.lookup_cons, hne]
      split
      · rw [List.lookup_cons, hne]
        exact ih
      · exact ih

/-- An index that has a selected field is not skipped by a list. -/
theorem partialMatch_of_selected (hy : y ∈ db.held) (hq : q ∈ y.segment.puts) (hindex : y.index.key.partialMatch rq = true)
    (hk : q.key.ListedAs k) (hd : k.matchRequest ((db.visitor rq).datumRequest y.index) = true) :
    y.index.partialMatch rq = true := by
  rw [TocIndex.partialMatch, hindex, Bool.true_and, IndexAxis.partialMatch, List.all_eq_true]
  rintro ⟨keyword, values⟩ hmem
  have haxis := Std.ExtTreeMap.mem_toList_iff_getElem?_eq_some.mp hmem
  have hkeyword : keyword ∈ y.index.axes.axis := Std.ExtTreeMap.isSome_getElem?_iff_mem.mp (by rw [haxis]; rfl)
  obtain ⟨p, hp, hpk⟩ := ((db.holds y hy).axes.keyword keyword).mp hkeyword
  have hqk := (db.comparable y hy y hy rfl p hp q hq).keyword keyword hpk
  obtain ⟨hdb, hsegment⟩ := db.levels y hy q hq keyword hqk
  have hlookup : ((db.visitor rq).datumRequest y.index).params.lookup keyword = rq.params.lookup keyword := by
    rw [ListVisitor.datumRequest, lookup_subselect (by rw [keys_eq hy]; exact hsegment)]
    exact lookup_subselect hdb
  cases hrq : rq.params.lookup keyword with
  | none => simp [MarsRequest.has, hrq]
  | some wanted =>
    rw [hrq] at hlookup
    have hparam : (keyword, wanted) ∈ ((db.visitor rq).datumRequest y.index).params := by
      obtain ⟨l₁, l₂, hsplit, -⟩ := List.lookup_eq_some_iff.mp hlookup
      simp [hsplit]
    have hvalue := List.all_eq_true.mp hd _ hparam
    cases hf : k.find keyword with
    | none => simp [hf] at hvalue
    | some v =>
      simp only [hf, MarsRequest.values, hlookup, decide_eq_true_eq] at hvalue
      obtain ⟨s, hs, hv⟩ := ((db.holds y hy).axes.value keyword v).mpr ⟨q, hq, hqk, hk.value keyword v hf⟩
      obtain rfl := Option.some.inj (hs.symm.trans haxis)
      simp only [MarsRequest.has, hrq, Option.isSome_some, Bool.not_true, Bool.false_or, List.any_eq_true, decide_eq_true_eq]
      exact ⟨v, by simpa [MarsRequest.values, hrq] using hvalue, hv⟩

theorem indexes_eq : db.catalogue.indexes db.disk = .ok (db.held.map HeldIndex.index) := by
  rw [TocCatalogue.indexes, db.loaded]
  simp [bind, Except.bind, pure, Except.pure, Function.comp_def]

/-- What a list has for the database, duplicates included. -/
def elements (db : OpenDatabase) (rq : MarsRequest) : List ListedElement :=
  db.held.flatMap ((db.visitor rq).shown db.time db.disk)

theorem Readable.run_visitIndexes (hread : db.Readable rq) :
    ((db.visitor rq).visitIndexes db.time (db.held.map HeldIndex.index)).run db.disk = .ok (db.elements rq) db.disk ∧
      ∀ x ∈ db.held, ∀ el, el ∈ (db.visitor rq).shown db.time db.disk x ↔
        ∃ p k, (db.visitor rq).Shows x p k ∧ el = (db.visitor rq).element db.time x p k := by
  apply ListVisitor.run_visitIndexes db.faults db.holds
  intro x hx hm p hp
  obtain ⟨k, hk⟩ := hread x hx (Bool.and_eq_true_iff.mp hm).1 p hp
  exact ⟨k, hk.key⟩

theorem mem_elements (hread : db.Readable rq) {el : ListedElement} : el ∈ db.elements rq ↔
    ∃ x ∈ db.held, ∃ p k, (db.visitor rq).Shows x p k ∧ el = (db.visitor rq).element db.time x p k := by
  obtain ⟨-, hmem⟩ := hread.run_visitIndexes
  rw [elements, List.mem_flatMap]
  constructor
  · rintro ⟨x, hx, hel⟩
    exact ⟨x, hx, (hmem x hx el).mp hel⟩
  · rintro ⟨x, hx, hel⟩
    exact ⟨x, hx, (hmem x hx el).mpr hel⟩

theorem value_list (hdb : db.key.partialMatch rq = true) (hread : db.Readable rq) :
    value ((db.catalogue.list db.time db.enabled rq).run db.disk) = .ok (db.elements rq) := by
  obtain ⟨hrun, -⟩ := hread.run_visitIndexes
  refine Ends.value ?_
  rw [TocCatalogue.list]
  simp only [ends_bind, ends_get, ends_lift, db.opened, indexes_eq, db.schemaRead]
  refine ⟨fun _ hkey => ⟨fun _ hindexes => ?_, fun _ he => by cases he⟩, fun _ he => by cases he⟩
  cases hkey
  cases hindexes
  rw [if_pos db.listable]
  simp only [ends_bind, ends_ensure, hdb, forall_true_left, not_true_eq_false, false_implies, and_true]
  exact (ends_run_ok hrun).mpr rfl

/-- Only a request that the database meets is listed. -/
theorem partialMatch_of_list {els : List ListedElement} (h : db.list rq = .ok els) : db.key.partialMatch rq = true := by
  by_contra hnot
  have hfails : value ((db.catalogue.list db.time db.enabled rq).run db.disk) =
      .error (.assertion "catalogue.key().partialMatch(request_)") := by
    refine Ends.value ?_
    rw [TocCatalogue.list]
    simp only [ends_bind, ends_get, ends_lift, db.opened, indexes_eq, db.schemaRead]
    refine ⟨fun _ hkey => ⟨fun _ hindexes => ?_, fun _ he => by cases he⟩, fun _ he => by cases he⟩
    cases hkey
    rw [if_pos db.listable]
    simp [hnot]
  rw [list, hfails] at h
  cases h

theorem newest_eq_filter (held : List HeldIndex) (index : StringDict) :
    (held.filter fun x => x.segment.index = index).findSome? (fun x => x.last fingerprint) =
      newest held index fingerprint := by
  induction held with
  | nil => rfl
  | cons x held ih =>
    rw [newest, List.findSome?_cons]
    by_cases h : x.segment.index = index
    · rw [if_pos h, List.filter_cons_of_pos (by simpa using h), List.findSome?_cons, ih]
      rfl
    · rw [if_neg h, List.filter_cons_of_neg (by simpa using h), ih]
      rfl

/-- A reader finds the newest field under the fingerprint, unless that is empty. -/
theorem retrieve_iff (hx : x ∈ db.held) (hp : p ∈ x.segment.puts) {f : Field} :
    db.retrieve x.index.key p.key = .ok (some f) ↔ x.segment.index ≠ ∅ ∧
      ∃ y ∈ newest db.held x.segment.index p.fingerprint, y.2.location.length ≠ 0 ∧ f = HeldIndex.field db.time y := by
  have hkeys := keys_eq hx
  rw [retrieve, Disk.retrieveField, TocCatalogueReader.build, db.loaded]
  simp only [bind, Except.bind, pure, Except.pure, TocCatalogueReader.selectIndex]
  by_cases hempty : x.segment.index = ∅
  · rw [if_pos (by rw [hkeys, hempty])]
    simp [TocCatalogueReader.retrieveFieldFrom, EStateM.run, pure, EStateM.pure, hempty]
  · rw [if_neg (fun h => hempty (hkeys ▸ h.symm))]
    have hmatching : ((db.held.map fun x => (x.index, x.remapKey)).filter fun m => m.1.key.keys = x.index.key.keys) =
        (db.held.filter fun y => y.segment.index = x.segment.index).map fun x => (x.index, x.remapKey) := by
      rw [List.filter_map]
      congr 1
      apply List.filter_congr
      intro y hy
      simp [keys_eq hy, hkeys]
    have hsame : ∀ y ∈ db.held.filter fun y => y.segment.index = x.segment.index,
        y.index.Holds db.disk y.segment ∧ ∀ q ∈ y.segment.puts, q.Comparable p := by
      intro y hy
      obtain ⟨hy, hindex⟩ := by simpa using hy
      exact ⟨db.holds y hy, fun q hq => db.comparable y hy x hx hindex q hq p hp⟩
    have hends : Ends (TocCatalogueReader.retrieveFieldFrom db.time p.key _) db.disk _ _ :=
      TocCatalogueReader.ends_retrieveFieldFrom db.faults ((db.holds x hx).storable p hp) hsame
    rw [newest_eq_filter] at hends
    rw [hmatching]
    generalize TocCatalogueReader.retrieveFieldFrom db.time p.key _ = loop at hends ⊢
    cases hrun : loop.run db.disk with
    | ok r t =>
      obtain ⟨hr, hlength⟩ := hends.ok hrun
      rw [value_ok, hr]
      cases hnewest : newest db.held x.segment.index p.fingerprint with
      | none => simp
      | some y =>
        have := hlength y hnewest
        simp [hempty, this, eq_comm]
    | error e t =>
      obtain ⟨y, hy, hlength⟩ := hends.error hrun
      rw [value_error]
      simp only [reduceCtorEq, false_iff, not_and, not_exists]
      rintro - z hz hne
      obtain rfl := Option.some.inj (hy.symm.trans hz)
      exact absurd hlength hne

/-- An iterator ends where each key has a hash, and returns the first element of each. -/
theorem elements_iff {seen : List (String × StringDict)} {l els : List ListedElement} :
    ListIterator.elements seen l = .ok els ↔ (∀ el ∈ l, ∃ hash, el.combinedKey.valuesToString = .ok hash) ∧
      els = firsts (fun el : ListedElement => seenAs el.combinedKey) seen l := by
  induction l generalizing seen els with
  | nil => simp [ListIterator.elements, firsts, pure, Except.pure, eq_comm]
  | cons el l ih =>
    rw [ListIterator.elements, firsts]
    cases hhash : el.combinedKey.valuesToString with
    | error e => simp [bind, Except.bind, hhash]
    | ok hash =>
      have hseen : (hash, el.combinedKey.keys) = seenAs el.combinedKey := by rw [seenAs, Key.fingerprint, hhash]
      simp only [bind, Except.bind, hseen, List.forall_mem_cons, hhash, Except.ok.injEq, exists_eq', true_and]
      split
      · exact ih
      · cases hrest : ListIterator.elements (seenAs el.combinedKey :: seen) l with
        | error e =>
          simp only [reduceCtorEq, false_iff, not_and]
          intro hall
          have hok : ListIterator.elements (seenAs el.combinedKey :: seen) l = .ok _ := ih.mpr ⟨hall, rfl⟩
          rw [hrest] at hok
          cases hok
        | ok rest =>
          obtain ⟨hall, rfl⟩ := ih.mp hrest
          simp only [pure, Except.pure, Except.ok.injEq]
          exact ⟨fun h => ⟨hall, h.symm⟩, fun h => h.2.symm⟩

/-- Where a selected field is shown, and under which put. -/
theorem Selects.shows (h : db.Selects rq x p k) (hread : db.Readable rq) (hranged : TBTreeIndex.ranged p.fingerprint = true)
    (hy : y ∈ db.held) (hindex : y.segment.index = x.segment.index) (hlast : y.last p.fingerprint = some (y, q)) :
    (db.visitor rq).Shows y q k := by
  obtain ⟨-, hq, hfp⟩ := HeldIndex.last_eq_some hlast
  have hkeys : y.index.key.keys = x.index.key.keys := by rw [keys_eq hy, keys_eq h.held, hindex]
  have hpartial : y.index.key.partialMatch rq = true := by rw [Key.partialMatch, hkeys]; exact h.index
  have hkey : (db.visitor rq).datumKey y.index.key q.fingerprint = .ok k := by
    rw [hfp, datumKey_congr hy h.held hindex]
    exact h.key
  have hdatum : k.matchRequest ((db.visitor rq).datumRequest y.index) = true := by
    rw [ListVisitor.datumRequest, MarsRequest.subselect, hkeys]
    exact h.datum
  obtain ⟨k', hk'⟩ := hread y hy hpartial q hq
  obtain rfl : k' = k := Except.ok.inj (hk'.key.symm.trans hkey)
  exact ⟨partialMatch_of_selected hy hq hpartial hk'.listed hdatum, hfp ▸ hlast, hfp ▸ hranged, hkey, hdatum⟩

theorem selects_of_shows (hy : y ∈ db.held) (h : (db.visitor rq).Shows y q k) : db.Selects rq y q k :=
  ⟨hy, (Bool.and_eq_true_iff.mp h.index).1, (HeldIndex.last_eq_some h.last).2.1, h.key, h.datum⟩

theorem Selects.reads (h : db.Selects rq x p k) (hread : db.Readable rq) : db.Reads x p k := by
  obtain ⟨k', hk'⟩ := hread x h.held h.index p h.put
  obtain rfl : k' = k := Except.ok.inj (hk'.key.symm.trans h.key)
  exact hk'

/-- An element that is about a selected field shows a put of its fingerprint. -/
theorem Selects.fingerprint_eq (h : db.Selects rq x p k) (hread : db.Readable rq) (h' : db.Selects rq y q k')
    (hindex : x.segment.index = y.segment.index) (hkeys : k.keys = k'.keys) : p.fingerprint = q.fingerprint :=
  OpenDatabase.fingerprint_eq h.held h'.held hindex h.put h'.put (h.reads hread).listed (h'.reads hread).listed hkeys

theorem Selects.key_eq (h : db.Selects rq x p k) (h' : db.Selects rq y q k') (hindex : x.segment.index = y.segment.index)
    (hfp : p.fingerprint = q.fingerprint) : k = k' := by
  have hkey := h'.key
  rw [← hfp, ← datumKey_congr h.held h'.held hindex, h.key] at hkey
  exact Except.ok.inj hkey

theorem isFor_element (hy : y ∈ db.held) : ((db.visitor rq).element db.time y q k').isFor x.segment.index k.keys = true ↔
    y.segment.index = x.segment.index ∧ k'.keys = k.keys := by
  simp [ListedElement.isFor, ListVisitor.element, keys_eq hy]

/-- The first element about a selected field shows its newest version. -/
theorem Selects.find (h : db.Selects rq x p k) (hread : db.Readable rq) (hranged : TBTreeIndex.ranged p.fingerprint = true) :
    (db.elements rq).find? (ListedElement.isFor x.segment.index k.keys) =
      (newest db.held x.segment.index p.fingerprint).map fun y => (db.visitor rq).element db.time y.1 y.2 k := by
  obtain ⟨-, hmem⟩ := hread.run_visitIndexes
  have hone : ∀ y ∈ db.held, ((db.visitor rq).shown db.time db.disk y).find? (ListedElement.isFor x.segment.index k.keys) =
      Option.map (fun y => (db.visitor rq).element db.time y.1 y.2 k)
        (if y.segment.index = x.segment.index then y.last p.fingerprint else none) := by
    intro y hy
    have hfp : ∀ q k', (db.visitor rq).Shows y q k' →
        ((db.visitor rq).element db.time y q k').isFor x.segment.index k.keys = true →
        y.segment.index = x.segment.index ∧ y.last p.fingerprint = some (y, q) ∧ k' = k := by
      intro q k' hs hfor
      obtain ⟨hindex, hkeys⟩ := (isFor_element hy).mp hfor
      have hsel := selects_of_shows hy hs
      have hsame := h.fingerprint_eq hread hsel hindex.symm hkeys.symm
      exact ⟨hindex, hsame ▸ hs.last, (h.key_eq hsel hindex.symm hsame).symm⟩
    have hnone : (y.segment.index = x.segment.index → y.last p.fingerprint = none) →
        ((db.visitor rq).shown db.time db.disk y).find? (ListedElement.isFor x.segment.index k.keys) = none := by
      intro hno
      rw [List.find?_eq_none]
      intro el hel hfor
      obtain ⟨q, k', hs, rfl⟩ := (hmem y hy el).mp hel
      obtain ⟨hindex, hlast, -⟩ := hfp q k' hs hfor
      rw [hno hindex] at hlast
      cases hlast
    by_cases hindex : y.segment.index = x.segment.index
    · rw [if_pos hindex]
      cases hlast : y.last p.fingerprint with
      | none => exact hnone fun _ => hlast
      | some z =>
        obtain ⟨z, q⟩ := z
        obtain ⟨rfl, -⟩ := HeldIndex.last_eq_some hlast
        apply find?_unique
        · exact (hmem z hy _).mpr ⟨q, k, h.shows hread hranged hy hindex hlast, rfl⟩
        · exact (isFor_element hy).mpr ⟨hindex, rfl⟩
        · intro el hel hfor
          obtain ⟨q', k', hs, rfl⟩ := (hmem z hy el).mp hel
          obtain ⟨-, hlast', rfl⟩ := hfp q' k' hs hfor
          cases hlast.symm.trans hlast'
          rfl
    · rw [if_neg hindex]
      exact hnone fun h => absurd h hindex
  rw [elements, List.find?_flatMap, newest, List.map_findSome?]
  clear hmem
  generalize hheld : db.held = held at hone
  clear hheld
  induction held with
  | nil => rfl
  | cons y held ih =>
    rw [List.findSome?_cons, List.findSome?_cons, hone y (.head _), ih fun z hz => hone z (.tail _ hz)]
    rfl

theorem newest_of_held (hx : x ∈ db.held) (hp : p ∈ x.segment.puts) :
    ∃ y q, newest db.held x.segment.index p.fingerprint = some (y, q) := by
  cases hnewest : newest db.held x.segment.index p.fingerprint with
  | some y => exact ⟨y.1, y.2, rfl⟩
  | none =>
    obtain ⟨q, hq⟩ := HeldIndex.last_of_mem hp
    have hnone := List.findSome?_eq_none_iff.mp hnewest x hx
    rw [if_pos rfl, hq] at hnone
    cases hnone

theorem newest_held {index : StringDict} (h : newest db.held index fingerprint = some (y, q)) :
    y ∈ db.held ∧ y.segment.index = index ∧ y.last fingerprint = some (y, q) := by
  obtain ⟨z, hz, hlast⟩ := List.exists_of_findSome?_eq_some h
  split at hlast
  · rename_i hindex
    obtain ⟨rfl, -⟩ := HeldIndex.last_eq_some hlast
    exact ⟨hz, hindex, hlast⟩
  · cases hlast

/-- What is seen of an element under a selected field's keys. -/
theorem Selects.mem_isFor (h : db.Selects rq x p k) (hread : db.Readable rq) {el : ListedElement}
    (hel : el ∈ db.elements rq) (hfor : el.isFor x.segment.index k.keys = true) :
    ∃ y ∈ db.held, ∃ q, y.segment.index = x.segment.index ∧ (db.visitor rq).Shows y q k ∧
      p.fingerprint = q.fingerprint ∧ el = (db.visitor rq).element db.time y q k := by
  obtain ⟨y, hy, q, k', hs, rfl⟩ := (mem_elements hread).mp hel
  obtain ⟨hindex, hkeys⟩ := (isFor_element hy).mp hfor
  have hsel := selects_of_shows hy hs
  have hfp := h.fingerprint_eq hread hsel hindex.symm hkeys.symm
  obtain rfl := h.key_eq hsel hindex.symm hfp
  exact ⟨y, hy, q, hindex, hs, hfp, rfl⟩

theorem combinedKey_element (hx : x ∈ db.held) (hy : y ∈ db.held) (h : y.segment.index = x.segment.index) :
    ((db.visitor rq).element db.time y q k).combinedKey = combinedKey db.key x.index.key k :=
  combinedKey_congr (show y.index.key.keys = _ by rw [keys_eq hy, keys_eq hx, h])

/-- A list that agrees with the reader is of fields that can be told apart and are found plainly. -/
theorem ListAgrees.unmixed (h : db.ListAgrees rq) : db.Unmixed rq := by
  obtain ⟨els, hlist, hread, hall⟩ := h
  have hdb := partialMatch_of_list hlist
  rw [list, value_list hdb hread] at hlist
  obtain ⟨hhash, rfl⟩ := elements_iff.mp hlist
  have hmem : ∀ {x p k} (hsel : db.Selects rq x p k), ∃ el f, db.retrieve x.index.key p.key = .ok (some f) ∧ el.Agrees f ∧
      el ∈ firsts (fun el : ListedElement => seenAs el.combinedKey) [] (db.elements rq) ∧
      el.isFor x.segment.index k.keys = true := by
    intro x p k hsel
    obtain ⟨el, f, hfilter, hf, hagrees⟩ := hall x p k hsel
    have hel : el ∈ (firsts (fun el : ListedElement => seenAs el.combinedKey) [] (db.elements rq)).filter
        (ListedElement.isFor x.segment.index k.keys) := by simp [hfilter]
    exact ⟨el, f, hf, hagrees, List.mem_filter.mp hel⟩
  refine ⟨hdb, hread, fun x p k hsel => ?_, fun x p k y q k' hsel hsel' hseen => ?_⟩
  · obtain ⟨el, f, hf, hagrees, hel, hfor⟩ := hmem hsel
    obtain ⟨y, hy, q, hindex, hs, hfp, rfl⟩ := hsel.mem_isFor hread (mem_of_firsts hel) hfor
    obtain ⟨hne, z, hz, hlength, rfl⟩ := (retrieve_iff hsel.held hsel.put).mp hf
    obtain ⟨hash, hhash⟩ := hhash _ (mem_of_firsts hel)
    refine ⟨hne, hfp ▸ hs.ranged, ⟨hash, ?_⟩, fun w hw => ?_⟩
    · rw [combinedKey_element hsel.held hy hindex] at hhash
      exact hhash
    · obtain rfl := Option.some.inj (hz.symm.trans hw)
      exact ⟨hagrees.remapKey.symm, hlength⟩
  · obtain ⟨el, -, -, -, hel, hfor⟩ := hmem hsel
    obtain ⟨el', -, -, -, hel', hfor'⟩ := hmem hsel'
    obtain ⟨z, hz, r, hindex, hs, hfp, rfl⟩ := hsel.mem_isFor hread (mem_of_firsts hel) hfor
    obtain ⟨z', hz', r', hindex', hs', hfp', rfl⟩ := hsel'.mem_isFor hread (mem_of_firsts hel') hfor'
    have heq := firsts_unique hel hel' (by
      rw [combinedKey_element hsel.held hz hindex, combinedKey_element hsel'.held hz' hindex', hseen])
    rw [heq] at hfor
    obtain ⟨hindex'', hkeys⟩ := (isFor_element hz').mp hfor
    have hsame : x.segment.index = y.segment.index := hindex''.symm.trans hindex'
    exact ⟨hsame, hsel.fingerprint_eq hread hsel' hsame hkeys.symm⟩

theorem Unmixed.listAgrees (h : db.Unmixed rq) : db.ListAgrees rq := by
  have hread := h.readable
  have hhash : ∀ el ∈ db.elements rq, ∃ hash, el.combinedKey.valuesToString = .ok hash := by
    intro el hel
    obtain ⟨x, hx, p, k, hs, rfl⟩ := (mem_elements hread).mp hel
    exact (h.plainly x p k (selects_of_shows hx hs)).hashed
  refine ⟨_, by rw [list, value_list h.database hread]; exact elements_iff.mpr ⟨hhash, rfl⟩, hread, fun x p k hsel => ?_⟩
  have hplain := h.plainly x p k hsel
  obtain ⟨y, q, hnewest⟩ := newest_of_held hsel.held hsel.put
  obtain ⟨hremap, hlength⟩ := hplain.newest _ hnewest
  obtain ⟨hy, hindex, -⟩ := newest_held hnewest
  have hfind := hsel.find hread hplain.ranged
  rw [hnewest, Option.map_some] at hfind
  have hsame : ∀ el ∈ db.elements rq, el.isFor x.segment.index k.keys =
      decide (seenAs el.combinedKey = seenAs (combinedKey db.key x.index.key k)) := by
    intro el hel
    rw [Bool.eq_iff_iff, decide_eq_true_eq]
    constructor
    · intro hfor
      obtain ⟨z, hz, r, hz', -, -, rfl⟩ := hsel.mem_isFor hread hel hfor
      rw [combinedKey_element hsel.held hz hz']
    · intro hseen
      obtain ⟨z, hz, r, k', hs, rfl⟩ := (mem_elements hread).mp hel
      have hsel' := selects_of_shows hz hs
      obtain ⟨hz', hfp⟩ := h.apart z r k' x p k hsel' hsel hseen
      obtain rfl := hsel'.key_eq hsel hz' hfp
      exact (isFor_element hz).mpr ⟨hz', rfl⟩
  refine ⟨(db.visitor rq).element db.time y q k, HeldIndex.field db.time (y, q), ?_, ?_, ?_⟩
  · rw [List.filter_congr fun el hel => hsame el (mem_of_firsts hel), firsts_filter, if_neg List.not_mem_nil,
      ← List.find?_congr hsame, hfind]
    rfl
  · exact (retrieve_iff hsel.held hsel.put).mpr ⟨hplain.index, _, hnewest, hlength, rfl⟩
  · exact ⟨rfl, rfl, rfl, hremap.symm, rfl⟩

/-- A list without duplicates agrees with the reader exactly if the fields can be told apart, both sides
come to them, and none is newest in an index that is remapped. -/
theorem list_agrees_iff : db.ListAgrees rq ↔ db.Unmixed rq := ⟨ListAgrees.unmixed, Unmixed.listAgrees⟩

section Mounted

/-- A database `class=rd`, which is mounted on `class=od`. -/
def mountedTocRecords : List (PathName × TocRecord) :=
  let rd : PathName := ⟨"/rd", ⟨"toc", none, ""⟩⟩
  let od : PathName := ⟨"/od", ⟨"toc", none, ""⟩⟩
  [(rd, .init (Key.ofList [("class", "rd")] none)), (rd, .index ⟨"an", some 1, ".index"⟩ 0
    { files := [.path (.relative ⟨"an", some 2, ".data"⟩)]
      axes := (∅ : Std.ExtTreeMap String (Std.ExtTreeSet String)).insert "step" ((∅ : Std.ExtTreeSet String).insert "0")
      key := Key.ofList [("type", "an")] none
      type := "BTreeIndex" }),
    (od, .init (Key.ofList [("class", "od")] none)), (od, .subToc (.absolute rd))]

def mountedPut : Put where
  key := Key.ofList [("step", "0")] none
  location := .ofPath ⟨"/rd", ⟨"an", some 2, ".data"⟩⟩ 0 4

def mountedUris : List URI := [⟨"file", ⟨"/rd", ⟨"an", some 2, ".data"⟩⟩⟩]

def mountedSchema : Schema where
  registry := .untyped
  rules := [.mk 1 [⟨"class", .always⟩] [.mk 1 [⟨"type", .always⟩] [.mk 1 [⟨"step", .always⟩] [] .untyped] .untyped] .untyped]

def mountedDisk : Disk where
  writes := .schema ⟨"/od", ⟨"schema", none, ""⟩⟩ mountedSchema ::
    .segment ⟨"/rd", ⟨"an", some 1, ".index"⟩⟩ 0 (Put.pages mountedUris [mountedPut]) ::
    mountedTocRecords.map fun r => .toc r.1 r.2

def mountedIndex : HeldIndex where
  index := {
    key := Key.ofList [("type", "an")] none
    axes := {
      axis := (∅ : Std.ExtTreeMap String (Std.ExtTreeSet String)).insert "step" ((∅ : Std.ExtTreeSet String).insert "0") }
    files := { directory := "/rd", uris := mountedUris, readOnly := true }
    write := false
    path := ⟨"/rd", ⟨"an", some 1, ".index"⟩⟩
    offset := 0 }
  remapKey := ({} : Key).set "class" "od"
  segment := ⟨(Key.ofList [("type", "an")] none).keys, [mountedPut]⟩

theorem mountedIndex_holds : mountedIndex.index.Holds mountedDisk mountedIndex.segment where
  key := rfl
  readOnly := rfl
  closed := rfl
  axes := by
    have hkeys : (Key.ofList [("step", "0")] none).keys = (∅ : StringDict).insert "step" "0" := rfl
    have hvalue : (Key.ofList [("step", "0")] none).canonicalValue "step" = .ok "0" := rfl
    refine ⟨fun keyword => ?_, fun keyword v => ?_⟩
    · simp [mountedIndex, mountedPut, hkeys, eq_comm]
    · simp only [mountedIndex, List.mem_singleton, exists_eq_left, AxisValue]
      by_cases h : keyword = "step"
      · subst h
        simp [hvalue, mountedPut, hkeys]
      · have h' : "step" ≠ keyword := fun he => h he.symm
        simp [mountedPut, hkeys, h']
  storable := by
    simp only [mountedIndex, List.mem_singleton, forall_eq]
    exact ⟨⟨⟨"0", rfl⟩, fun _ => Key.canonicalValue_of_canonical rfl⟩, by decide, rfl⟩
  pages := ⟨mountedUris, rfl, rfl, by simp [mountedIndex, mountedPut, mountedUris, FieldLocation.ofPath]⟩

def mountedDatabase : OpenDatabase where
  disk := mountedDisk
  catalogue := .plain "/od" 2 1
  enabled _ := true
  time _ := 0
  key := Key.ofList [("class", "od")] none
  schema := mountedSchema
  held := [mountedIndex]
  faults := rfl
  opened := rfl
  schemaRead := rfl
  listable := ⟨rfl, rfl⟩
  loaded := rfl
  holds := by simpa using mountedIndex_holds
  comparable := by
    simp only [List.mem_singleton, forall_eq, mountedIndex, forall_true_left]
    exact ⟨rfl, fun _ h => h, fun _ _ => rfl⟩
  levels := by
    have hstep : mountedPut.key.keys = (∅ : StringDict).insert "step" "0" := rfl
    have hclass : (Key.ofList [("class", "od")] none).keys = (∅ : StringDict).insert "class" "od" := rfl
    have htype : (Key.ofList [("type", "an")] none).keys = (∅ : StringDict).insert "type" "an" := rfl
    simp only [List.mem_singleton, forall_eq, mountedIndex, hstep, hclass, htype]
    intro keyword hkeyword
    obtain rfl : "step" = keyword := by simpa using hkeyword
    simp

/-- A list has no remap key for a field of a mounted database, which a reader has. -/
theorem mounted_listed_elsewhere : ¬ mountedDatabase.ListAgrees ⟨[]⟩ := by
  intro h
  have hunmixed := h.unmixed
  have hx : mountedIndex ∈ mountedDatabase.held := List.mem_singleton.mpr rfl
  have hp : mountedPut ∈ mountedIndex.segment.puts := List.mem_singleton.mpr rfl
  obtain ⟨k, hk⟩ := hunmixed.readable mountedIndex hx (by simp [Key.partialMatch, MarsRequest.values]) mountedPut hp
  have hsel : mountedDatabase.Selects ⟨[]⟩ mountedIndex mountedPut k :=
    ⟨hx, by simp [Key.partialMatch, MarsRequest.values], hp, hk.key, rfl⟩
  have hnewest := (hunmixed.plainly _ _ _ hsel).newest (mountedIndex, mountedPut) rfl
  have hkeys : mountedIndex.remapKey.keys = (∅ : StringDict).insert "class" "od" := rfl
  have hempty := hnewest.1
  rw [hkeys] at hempty
  exact Std.ExtTreeMap.insert_ne_empty hempty

end Mounted

end OpenDatabase

end Fdb5
