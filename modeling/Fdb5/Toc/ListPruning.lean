import Mathlib.Data.List.Flatten
import Fdb5.Toc.AxisMatch
import Fdb5.Toc.ListAgreement

/-! Which fields a list has, when a request is split over three keys and indexes are skipped by their axes. -/
namespace Fdb5

open Effect LastWins

/-- A database that a `ListVisitor` is in: its indexes hold what their axes say, the fields are read back under their
keys, and the request partially matches its key. -/
structure ListedCatalogue where
  disk : Disk
  visitor : ListVisitor
  time : TocIndex BTreeHandle → Nat
  held : List HeldIndex
  faults : disk.faults = []
  holds : ∀ x ∈ held, x.index.Holds disk x.segment
  reads : ∀ x ∈ held, ∀ p ∈ x.segment.puts, ∃ k,
    visitor.datumKey x.index.key p.fingerprint = .ok k ∧ p.key.ListedAs k
  requested : visitor.key.partialMatch visitor.request = true

section Sublists

variable {α β : Type} {l : List α} {f g : α → List β}

theorem flatMap_inj_of_sublist (hsub : ∀ a ∈ l, (f a).Sublist (g a)) (h : l.flatMap f = l.flatMap g) :
    ∀ a ∈ l, f a = g a := by
  induction l with
  | nil => simp
  | cons a l ih =>
    have htail : ∀ b ∈ l, (f b).Sublist (g b) := fun b hb => hsub b (.tail _ hb)
    have hhead := (hsub a (.head _)).length_le
    have hrest := (List.Sublist.flatMap_right l htail).length_le
    have hlength := congrArg List.length h
    rw [List.flatMap_cons, List.flatMap_cons] at h
    simp only [List.flatMap_cons, List.length_append] at hlength
    obtain ⟨ha, hl⟩ := List.append_inj h (by omega)
    rintro b (_ | ⟨_, hb⟩)
    · exact ha
    · exact ih htail hl b hb

/-- Parts taken of each list are together what a filter takes of all when each part is what the filter takes. -/
theorem flatMap_eq_filter_iff {keep : β → Bool} (hsub : ∀ a ∈ l, (f a).Sublist (g a)) :
    l.flatMap f = (l.flatMap g).filter keep ↔ ∀ a ∈ l, f a = (g a).filter keep := by
  rw [List.filter_flatMap]
  constructor
  · intro h
    have hkept : ∀ a ∈ l, ∀ b ∈ f a, keep b = true := by
      intro a ha b hb
      have hmem := List.mem_flatMap.mpr ⟨a, ha, hb⟩
      rw [h] at hmem
      obtain ⟨_, -, hb'⟩ := List.mem_flatMap.mp hmem
      exact (List.mem_filter.mp hb').2
    refine flatMap_inj_of_sublist (fun a ha => ?_) h
    rw [← List.filter_eq_self.mpr (hkept a ha)]
    exact (hsub a ha).filter keep
  · exact List.flatMap_congr

end Sublists

namespace ListVisitor

variable (v : ListVisitor) (time : TocIndex BTreeHandle → Nat) (d : Disk) (x : HeldIndex) (p : Put) (k : Key)

/-- A visit of every entry of the index: that of a visitor which asks for nothing. -/
def everything : List ListedElement := ({ v with request := ⟨[]⟩ } : ListVisitor).shown time d x

/-- Every keyword of the request occurs in one of the three keys, with a requested value wherever it occurs. -/
def keeps (el : ListedElement) : Bool := v.request.params.all fun asked =>
  ([el.dbKey, el.indexKey, el.datumKey].any fun part => decide (asked.1 ∈ part.keys)) &&
    [el.dbKey, el.indexKey, el.datumKey].all fun part =>
      (part.find asked.1).all fun value => decide (value ∈ v.request.values asked.1)

/-- A visit of every entry of the index comes to the field, and reads this key for it. -/
structure Visits : Prop where
  last : x.last p.fingerprint = some (x, p)
  ranged : TBTreeIndex.ranged p.fingerprint = true
  key : v.datumKey x.index.key p.fingerprint = .ok k

/-- A keyword that the request asks for and the database or the index has. -/
def IsOuter (keyword : String) : Prop :=
  v.request.has keyword = true ∧ (keyword ∈ v.key.keys ∨ keyword ∈ x.index.key.keys)

/-- Such a keyword that fields of the index have as well. -/
def Doubled (keyword : String) : Prop := v.IsOuter x keyword ∧ ∃ p ∈ x.segment.puts, keyword ∈ p.key.keys

/-- A field of the index has a requested value of the keyword. -/
def Offers (keyword : String) : Prop := ∃ p ∈ x.segment.puts, keyword ∈ p.key.keys ∧
  ∃ value ∈ v.request.values keyword, p.key.canonicalValue keyword = .ok value

/-- The index key has requested values where values are requested, and the field has a requested value of each
keyword that neither outer key has. -/
structure Candidate : Prop extends v.Visits x p k where
  index : ∀ keyword value, x.index.key.find keyword = some value →
    v.request.values keyword = [] ∨ value ∈ v.request.values keyword
  inner : ∀ keyword, v.request.has keyword = true → ¬ v.IsOuter x keyword →
    ∃ value, k.find keyword = some value ∧ value ∈ v.request.values keyword

/-- No values are requested of an outer keyword, or the field has one that is not requested. -/
def Refused : Prop := ∃ keyword, v.IsOuter x keyword ∧
  (v.request.values keyword = [] ∨ ∃ value, k.find keyword = some value ∧ value ∉ v.request.values keyword)

/-- The fields of the index that come close are all wanted and offered, or all unwanted and not offered. -/
inductive Even : Prop
  | none (closed : ∀ p k, ¬ v.Candidate x p k)
  | wanted (asked : ∀ keyword, v.IsOuter x keyword → v.request.values keyword ≠ [])
      (offered : ∀ keyword, v.Doubled x keyword → v.Offers x keyword)
      (suits : ∀ p k, v.Candidate x p k → ∀ keyword, v.Doubled x keyword →
        ∀ value, k.find keyword = some value → value ∈ v.request.values keyword)
  | unwanted (keyword : String) (doubled : v.Doubled x keyword) (offered : ¬ v.Offers x keyword)
      (refused : ∀ p k, v.Candidate x p k → v.Refused x k)

end ListVisitor

namespace ListedCatalogue

variable {c : ListedCatalogue} {x : HeldIndex} {p : Put} {k : Key} {rq : MarsRequest}

theorem has_iff {keyword : String} : rq.has keyword = true ↔ ∃ values, (keyword, values) ∈ rq.params := by
  rw [MarsRequest.has, List.lookup_isSome_iff]
  constructor
  · rintro ⟨⟨name, values⟩, hmem, he⟩
    obtain rfl := beq_iff_eq.mp he
    exact ⟨values, hmem⟩
  · rintro ⟨values, hmem⟩
    exact ⟨_, hmem, beq_self_eq_true _⟩

theorem matchRequest_iff : k.matchRequest rq = true ↔ ∀ keyword, rq.has keyword = true →
    ∃ value, k.find keyword = some value ∧ value ∈ rq.values keyword := by
  rw [Key.matchRequest, List.all_eq_true]
  constructor
  · intro hall keyword hhas
    obtain ⟨values, hmem⟩ := has_iff.mp hhas
    have hmatch := hall _ hmem
    cases hf : k.find keyword with
    | none => simp [hf] at hmatch
    | some value => exact ⟨value, rfl, by simpa [hf] using hmatch⟩
  · rintro hall ⟨keyword, values⟩ hmem
    obtain ⟨value, hf, hvalue⟩ := hall keyword (has_iff.mpr ⟨values, hmem⟩)
    simp [hf, hvalue]

theorem has_subselect {key : Key} {keyword : String} :
    (rq.subselect key).has keyword = true ↔ rq.has keyword = true ∧ keyword ∉ key.keys := by
  simp only [has_iff, OpenDatabase.subselect_params, List.mem_filter, decide_eq_true_eq, exists_and_right]

theorem values_subselect {key : Key} {keyword : String} (h : keyword ∉ key.keys) :
    (rq.subselect key).values keyword = rq.values keyword := by
  rw [MarsRequest.values, OpenDatabase.lookup_subselect h, MarsRequest.values]

/-- The datum filter is about the keywords that neither outer key has. -/
theorem datumRequest_iff {v : ListVisitor} : k.matchRequest (v.datumRequest x.index) = true ↔
    ∀ keyword, v.request.has keyword = true → ¬ v.IsOuter x keyword →
      ∃ value, k.find keyword = some value ∧ value ∈ v.request.values keyword := by
  rw [matchRequest_iff]
  apply forall_congr'
  intro keyword
  rw [ListVisitor.datumRequest, ListVisitor.indexRequest, has_subselect, has_subselect, ListVisitor.IsOuter]
  constructor
  · intro hall hhas hinner
    have hdb : keyword ∉ v.key.keys := fun h => hinner ⟨hhas, .inl h⟩
    have hindex : keyword ∉ x.index.key.keys := fun h => hinner ⟨hhas, .inr h⟩
    obtain ⟨value, hf, hvalue⟩ := hall ⟨⟨hhas, hdb⟩, hindex⟩
    rw [values_subselect hindex, values_subselect hdb] at hvalue
    exact ⟨value, hf, hvalue⟩
  · rintro hall ⟨⟨hhas, hdb⟩, hindex⟩
    rw [values_subselect hindex, values_subselect hdb]
    exact hall hhas fun h => h.2.elim hdb hindex

theorem visits_listed (hx : x ∈ c.held) (hv : c.visitor.Visits x p k) : p ∈ x.segment.puts ∧ p.key.ListedAs k := by
  have hput := (HeldIndex.last_eq_some hv.last).2.1
  obtain ⟨k', hk', hlisted⟩ := c.reads x hx p hput
  obtain rfl : k' = k := Except.ok.inj (hk'.symm.trans hv.key)
  exact ⟨hput, hlisted⟩

theorem mem_keys_of_listed (hlisted : p.key.ListedAs k) {keyword value : String} (hf : k.find keyword = some value) :
    keyword ∈ p.key.keys ∧ p.key.canonicalValue keyword = .ok value := by
  have hcanonical := hlisted.value keyword value hf
  refine ⟨?_, hcanonical⟩
  rw [Key.canonicalValue] at hcanonical
  cases hraw : p.key.find keyword with
  | none => simp [hraw] at hcanonical
  | some raw => exact Key.mem_keys_iff.mpr ⟨raw, hraw⟩

/-- The axes let a keyword pass when a field of the index has a requested value of it. -/
theorem axes_partialMatch_iff (hx : x ∈ c.held) : x.index.axes.partialMatch c.visitor.request = true ↔
    ∀ keyword, c.visitor.request.has keyword = true → (∃ p ∈ x.segment.puts, keyword ∈ p.key.keys) →
      c.visitor.Offers x keyword := by
  have haxes := (c.holds x hx).axes
  rw [IndexAxis.partialMatch_iff]
  constructor
  · intro hall keyword hhas hheld
    obtain ⟨values, hvalues⟩ :=
      Option.isSome_iff_exists.mp (Std.ExtTreeMap.isSome_getElem?_iff_mem.mpr ((haxes.keyword keyword).mpr hheld))
    obtain ⟨value, hvalue, hin⟩ := hall keyword values hvalues hhas
    obtain ⟨p, hp, hk, hcanonical⟩ := (haxes.value keyword value).mp ⟨values, hvalues, hin⟩
    exact ⟨p, hp, hk, value, hvalue, hcanonical⟩
  · intro hall keyword values hvalues hhas
    have hmem : keyword ∈ x.index.axes.axis := Std.ExtTreeMap.isSome_getElem?_iff_mem.mp (by rw [hvalues]; rfl)
    obtain ⟨p, hp, hk, value, hvalue, hcanonical⟩ := hall keyword hhas ((haxes.keyword keyword).mp hmem)
    obtain ⟨values', hvalues', hin⟩ := (haxes.value keyword value).mpr ⟨p, hp, hk, hcanonical⟩
    obtain rfl := Option.some.inj (hvalues.symm.trans hvalues')
    exact ⟨value, hvalue, hin⟩

/-- The visitor lists a field that comes close when the keywords of the outer keys that fields have are offered. -/
theorem shows_iff (hx : x ∈ c.held) (hv : c.visitor.Visits x p k) : c.visitor.Shows x p k ↔
    c.visitor.Candidate x p k ∧ ∀ keyword, c.visitor.Doubled x keyword → c.visitor.Offers x keyword := by
  obtain ⟨hput, hlisted⟩ := visits_listed hx hv
  have hboth : x.index.partialMatch c.visitor.request = true ↔ x.index.key.partialMatch c.visitor.request = true ∧
      x.index.axes.partialMatch c.visitor.request = true := by
    rw [TocIndex.partialMatch, Bool.and_eq_true]
  constructor
  · intro hshows
    obtain ⟨hindex, haxes⟩ := hboth.mp hshows.index
    exact ⟨⟨hv, Key.partialMatch_iff.mp hindex, datumRequest_iff.mp hshows.datum⟩,
      fun keyword hdoubled => (axes_partialMatch_iff hx).mp haxes keyword hdoubled.1.1 hdoubled.2⟩
  · rintro ⟨hcandidate, hoffers⟩
    have haxes : x.index.axes.partialMatch c.visitor.request = true := by
      refine (axes_partialMatch_iff hx).mpr fun keyword hhas hheld => ?_
      by_cases houter : c.visitor.IsOuter x keyword
      · exact hoffers keyword ⟨houter, hheld⟩
      · obtain ⟨value, hf, hvalue⟩ := hcandidate.inner keyword hhas houter
        obtain ⟨hk, hcanonical⟩ := mem_keys_of_listed hlisted hf
        exact ⟨p, hput, hk, value, hvalue, hcanonical⟩
    exact ⟨hboth.mpr ⟨Key.partialMatch_iff.mpr hcandidate.index, haxes⟩, hv.last, hv.ranged, hv.key,
      datumRequest_iff.mpr hcandidate.inner⟩

theorem keeps_eq_true {el : ListedElement} : c.visitor.keeps el = true ↔
    ∀ keyword, c.visitor.request.has keyword = true →
      (keyword ∈ el.dbKey.keys ∨ keyword ∈ el.indexKey.keys ∨ keyword ∈ el.datumKey.keys) ∧
        (∀ value, el.dbKey.find keyword = some value → value ∈ c.visitor.request.values keyword) ∧
        (∀ value, el.indexKey.find keyword = some value → value ∈ c.visitor.request.values keyword) ∧
        ∀ value, el.datumKey.find keyword = some value → value ∈ c.visitor.request.values keyword := by
  simp only [ListVisitor.keeps, List.all_eq_true, Prod.forall, has_iff, forall_exists_index, Bool.and_eq_true,
    List.any_cons, List.any_nil, List.all_cons, List.all_nil, Bool.or_eq_true, Option.all_eq_true, decide_eq_true_eq,
    Bool.false_eq_true, or_false, and_true]

/-- A field is to be kept when it comes close and no keyword of the outer keys refuses it. -/
theorem keeps_iff (hv : c.visitor.Visits x p k) : c.visitor.keeps (c.visitor.element c.time x p k) = true ↔
    c.visitor.Candidate x p k ∧ ¬ c.visitor.Refused x k := by
  rw [keeps_eq_true]
  simp only [ListVisitor.element]
  constructor
  · intro hkeeps
    refine ⟨⟨hv, fun keyword value hf => ?_, fun keyword hhas hinner => ?_⟩, ?_⟩
    · cases hhas : c.visitor.request.has keyword with
      | false =>
        rw [MarsRequest.has, Option.isSome_eq_false_iff, Option.isNone_iff_eq_none] at hhas
        exact .inl (by rw [MarsRequest.values, hhas]; rfl)
      | true => exact .inr ((hkeeps keyword hhas).2.2.1 value hf)
    · obtain ⟨hoccurs, _, _, hdatum⟩ := hkeeps keyword hhas
      have hmem : keyword ∈ k.keys := by
        rcases hoccurs with h | h | h
        · exact absurd ⟨hhas, .inl h⟩ hinner
        · exact absurd ⟨hhas, .inr h⟩ hinner
        · exact h
      obtain ⟨value, hf⟩ := Key.mem_keys_iff.mp hmem
      exact ⟨value, hf, hdatum value hf⟩
    · rintro ⟨keyword, houter, hbad⟩
      obtain ⟨_, hdb, hindex, hdatum⟩ := hkeeps keyword houter.1
      rcases hbad with hnone | ⟨value, hf, hvalue⟩
      · rcases houter.2 with h | h
        · obtain ⟨value, hf⟩ := Key.mem_keys_iff.mp h
          exact List.ne_nil_of_mem (hdb value hf) hnone
        · obtain ⟨value, hf⟩ := Key.mem_keys_iff.mp h
          exact List.ne_nil_of_mem (hindex value hf) hnone
      · exact hvalue (hdatum value hf)
  · rintro ⟨hcandidate, hrefused⟩ keyword hhas
    have hdb := Key.partialMatch_iff.mp c.requested
    by_cases houter : c.visitor.IsOuter x keyword
    · have hne : c.visitor.request.values keyword ≠ [] := fun hnone => hrefused ⟨keyword, houter, .inl hnone⟩
      refine ⟨houter.2.imp_right .inl, fun value hf => ?_, fun value hf => ?_, fun value hf => ?_⟩
      · exact (hdb keyword value hf).resolve_left hne
      · exact (hcandidate.index keyword value hf).resolve_left hne
      · by_contra hvalue
        exact hrefused ⟨keyword, houter, .inr ⟨value, hf, hvalue⟩⟩
    · obtain ⟨value, hf, hvalue⟩ := hcandidate.inner keyword hhas houter
      refine ⟨.inr (.inr (Key.mem_keys_iff.mpr ⟨value, hf⟩)), fun other hother => ?_, fun other hother => ?_,
        fun other hother => ?_⟩
      · exact absurd ⟨hhas, .inl (Key.mem_keys_iff.mpr ⟨other, hother⟩)⟩ houter
      · exact absurd ⟨hhas, .inr (Key.mem_keys_iff.mpr ⟨other, hother⟩)⟩ houter
      · rw [hf, Option.some.injEq] at hother
        exact hother ▸ hvalue

theorem partialMatch_nothing (idx : TocIndex BTreeHandle) : idx.partialMatch ⟨[]⟩ = true := by
  simp [TocIndex.partialMatch, Key.partialMatch, IndexAxis.partialMatch, MarsRequest.values, MarsRequest.has]

theorem matchRequest_nothing {v : ListVisitor} :
    k.matchRequest (({ v with request := ⟨[]⟩ } : ListVisitor).datumRequest x.index) = true := by
  simp [Key.matchRequest, ListVisitor.datumRequest, ListVisitor.indexRequest, OpenDatabase.subselect_params]

/-- Of an entry a visitor shows what the residual request leaves of the field that is read there. -/
theorem visit_eq_filter {v : ListVisitor} {time : TocIndex BTreeHandle → Nat} (e : String × FieldRef) :
    v.visit time x.index e = List.filter (fun el => el.datumKey.matchRequest (v.datumRequest x.index)) <$>
      ({ v with request := ⟨[]⟩ } : ListVisitor).visit time x.index e := by
  rw [ListVisitor.visit, ListVisitor.visit, map_bind]
  congr 1
  funext uri
  rw [ListVisitor.visitDatum, ListVisitor.visitDatum, map_bind]
  congr 1
  funext k
  rw [if_pos matchRequest_nothing]
  by_cases hm : k.matchRequest (v.datumRequest x.index) = true <;> simp [hm]

theorem run_list (c : ListedCatalogue) :
    (c.visitor.visitIndexes c.time (c.held.map HeldIndex.index)).run c.disk =
      .ok (c.held.flatMap (c.visitor.shown c.time c.disk)) c.disk ∧
    ∀ x ∈ c.held, ∀ el, el ∈ c.visitor.shown c.time c.disk x ↔
      ∃ p k, c.visitor.Shows x p k ∧ el = c.visitor.element c.time x p k := by
  apply ListVisitor.run_visitIndexes c.faults c.holds
  intro x hx _ p hp
  obtain ⟨k, hk, _⟩ := c.reads x hx p hp
  exact ⟨k, hk⟩

theorem run_everything (hx : x ∈ c.held) :
    (({ c.visitor with request := ⟨[]⟩ } : ListVisitor).entries c.time x.index).run c.disk =
      .ok (c.visitor.everything c.time c.disk x) c.disk ∧
    ∀ el, el ∈ c.visitor.everything c.time c.disk x ↔
      ∃ p k, c.visitor.Visits x p k ∧ el = c.visitor.element c.time x p k := by
  obtain ⟨els, hrun, hmem⟩ : ∃ els, (({ c.visitor with request := ⟨[]⟩ } : ListVisitor).entries c.time x.index).run
      c.disk = .ok els c.disk ∧ _ := ListVisitor.run_entries
    c.faults (c.holds x hx) fun _ p hp => (c.reads x hx p hp).imp fun _ h => h.1
  have heq : c.visitor.everything c.time c.disk x = els := by rw [ListVisitor.everything, ListVisitor.shown, hrun]
  rw [heq]
  refine ⟨hrun, fun el => (hmem el).trans ⟨?_, ?_⟩⟩
  · rintro ⟨p, k, hshows, rfl⟩
    exact ⟨p, k, ⟨hshows.last, hshows.ranged, hshows.key⟩, rfl⟩
  · rintro ⟨p, k, hv, rfl⟩
    exact ⟨p, k, ⟨partialMatch_nothing _, hv.last, hv.ranged, hv.key, matchRequest_nothing⟩, rfl⟩

/-- What the visitor shows of an index is what its filters leave of everything in it. -/
theorem shown_eq_filter (hx : x ∈ c.held) : c.visitor.shown c.time c.disk x =
    (c.visitor.everything c.time c.disk x).filter fun el =>
      x.index.partialMatch c.visitor.request && el.datumKey.matchRequest (c.visitor.datumRequest x.index) := by
  by_cases hm : x.index.partialMatch c.visitor.request = true
  · obtain ⟨uris, hpages, -, -⟩ := (c.holds x hx).pages
    have hall := (run_everything hx).1
    rw [ListVisitor.run_entries_pages c.faults (c.holds x hx) hpages (partialMatch_nothing _)] at hall
    rw [ListVisitor.shown, ListVisitor.run_entries_pages c.faults (c.holds x hx) hpages hm, funext visit_eq_filter,
      mapM_fmap]
    cases hfound : ((Put.pages uris x.segment.puts).toList.filter fun e => TBTreeIndex.ranged e.1).mapM
        (({ c.visitor with request := ⟨[]⟩ } : ListVisitor).visit c.time x.index) with
    | error e =>
      rw [hfound] at hall
      cases hall
    | ok found =>
      rw [hfound, Functor.map, Except.instMonad] at hall
      obtain ⟨hall, -⟩ := EStateM.Result.ok.inj hall
      rw [← hall]
      simp [Functor.map, Except.map, List.filter_flatten, hm]
  · rw [ListVisitor.shown, ListVisitor.entries, if_neg hm]
    simp [hm]

/-- The list is that of the kept ones among all entries of all indexes. -/
def ListsExactly (c : ListedCatalogue) : Prop :=
  (c.visitor.visitIndexes c.time (c.held.map HeldIndex.index)).run c.disk =
    .ok ((c.held.flatMap (c.visitor.everything c.time c.disk)).filter c.visitor.keeps) c.disk

theorem listsExactly_iff_each : c.ListsExactly ↔ ∀ x ∈ c.held,
    c.visitor.shown c.time c.disk x = (c.visitor.everything c.time c.disk x).filter c.visitor.keeps := by
  rw [ListsExactly, c.run_list.1, EStateM.Result.ok.injEq, and_iff_left rfl]
  apply flatMap_eq_filter_iff
  intro x hx
  rw [shown_eq_filter hx]
  exact List.filter_sublist

/-- Of one index the list is exact when a field that comes close is refused just when a keyword is not offered. -/
theorem shown_exact_iff (hx : x ∈ c.held) :
    c.visitor.shown c.time c.disk x = (c.visitor.everything c.time c.disk x).filter c.visitor.keeps ↔
      ∀ p k, c.visitor.Candidate x p k →
        ((∀ keyword, c.visitor.Doubled x keyword → c.visitor.Offers x keyword) ↔ ¬ c.visitor.Refused x k) := by
  have hshown : ∀ p k, c.visitor.Visits x p k →
      ((x.index.partialMatch c.visitor.request && k.matchRequest (c.visitor.datumRequest x.index)) = true ↔
        c.visitor.Shows x p k) := by
    intro p k hv
    rw [Bool.and_eq_true]
    exact ⟨fun h => ⟨h.1, hv.last, hv.ranged, hv.key, h.2⟩, fun h => ⟨h.index, h.datum⟩⟩
  rw [shown_eq_filter hx]
  constructor
  · intro hsame p k hcandidate
    have hv := hcandidate.toVisits
    have hel := ((run_everything hx).2 _).mpr ⟨p, k, hv, rfl⟩
    have hiff := iff_of_eq (congrArg (c.visitor.element c.time x p k ∈ ·) hsame)
    simp only [List.mem_filter, hel, true_and, keeps_iff hv] at hiff
    have hboth := (shows_iff hx hv).symm.trans ((hshown p k hv).symm.trans hiff)
    simpa only [hcandidate, true_and] using hboth
  · intro hagree
    apply List.filter_congr
    intro el hel
    obtain ⟨p, k, hv, rfl⟩ := ((run_everything hx).2 el).mp hel
    rw [Bool.eq_iff_iff, keeps_iff hv]
    refine (hshown p k hv).trans ((shows_iff hx hv).trans (and_congr_right fun hcandidate => hagree p k hcandidate))

theorem even_iff (hx : x ∈ c.held) : c.visitor.Even x ↔ ∀ p k, c.visitor.Candidate x p k →
    ((∀ keyword, c.visitor.Doubled x keyword → c.visitor.Offers x keyword) ↔ ¬ c.visitor.Refused x k) := by
  constructor
  · rintro (hclosed | ⟨hasked, hoffered, hsuits⟩ | ⟨keyword, hdoubled, hoffered, hrefused⟩) p k hcandidate
    · exact absurd hcandidate (hclosed p k)
    · refine iff_of_true hoffered ?_
      rintro ⟨keyword, houter, hnone | ⟨value, hf, hvalue⟩⟩
      · exact hasked keyword houter hnone
      · obtain ⟨hput, hlisted⟩ := visits_listed hx hcandidate.toVisits
        exact hvalue (hsuits p k hcandidate keyword ⟨houter, p, hput, (mem_keys_of_listed hlisted hf).1⟩ value hf)
    · exact iff_of_false (fun h => hoffered (h keyword hdoubled)) fun h => h (hrefused p k hcandidate)
  · intro hagree
    by_cases hclosed : ∃ p k, c.visitor.Candidate x p k
    · obtain ⟨p, k, hcandidate⟩ := hclosed
      by_cases hoffered : ∀ keyword, c.visitor.Doubled x keyword → c.visitor.Offers x keyword
      · have hkept : ∀ q k', c.visitor.Candidate x q k' → ¬ c.visitor.Refused x k' :=
          fun q k' h => (hagree q k' h).mp hoffered
        refine .wanted (fun keyword houter hnone => hkept p k hcandidate ⟨keyword, houter, .inl hnone⟩) hoffered ?_
        intro q k' h keyword hdoubled value hf
        by_contra hvalue
        exact hkept q k' h ⟨keyword, hdoubled.1, .inr ⟨value, hf, hvalue⟩⟩
      · obtain ⟨keyword, hmissing⟩ := not_forall.mp hoffered
        obtain ⟨hdoubled, hnot⟩ := Classical.not_imp.mp hmissing
        refine .unwanted keyword hdoubled hnot fun q k' h => ?_
        by_contra hrefused
        exact hoffered ((hagree q k' h).mpr hrefused)
    · exact .none fun p k hcandidate => hclosed ⟨p, k, hcandidate⟩

/-- The list is exact when the fields of each index that come close are all wanted and offered, or all unwanted and not
offered. -/
theorem list_pruning_iff (c : ListedCatalogue) : c.ListsExactly ↔ ∀ x ∈ c.held, c.visitor.Even x :=
  listsExactly_iff_each.trans (forall₂_congr fun _ hx => (shown_exact_iff hx).trans (even_iff hx).symm)

/-- So it is where no keyword of the fields is asked for that an outer key has too, nor one of these without values. -/
theorem lists_exactly_of_separate (hseparate : ∀ x ∈ c.held, ∀ keyword, c.visitor.IsOuter x keyword →
    c.visitor.request.values keyword ≠ [] ∧ ∀ p ∈ x.segment.puts, keyword ∉ p.key.keys) : c.ListsExactly := by
  have hnone : ∀ x ∈ c.held, ∀ keyword, ¬ c.visitor.Doubled x keyword := by
    rintro x hx keyword ⟨houter, p, hp, hk⟩
    exact (hseparate x hx keyword houter).2 p hp hk
  refine listsExactly_iff_each.mpr fun x hx => (shown_exact_iff hx).mpr ((even_iff hx).mp ?_)
  exact .wanted (fun keyword houter => (hseparate x hx keyword houter).1)
    (fun keyword hdoubled => absurd hdoubled (hnone x hx keyword))
    fun _ _ _ keyword hdoubled => absurd hdoubled (hnone x hx keyword)

section Sample

/-- Two fields of an index `time=1200`, one of which was archived with another time of the same canonical form. -/
def timePuts : List Put := [samplePut [("param", "130"), ("time", "12")], samplePut [("param", "131"), ("time", "1200")]]

def timeUris : List URI := [⟨"file", ⟨"/db", ⟨"an", none, ".data"⟩⟩⟩]

def timeAxes : IndexAxis := final ((timePuts.forM fun p => IndexAxis.insert p.key).run {})

def timeSchema : Schema where
  registry := .untyped
  rules := [.mk 1 [⟨"class", .always⟩] [.mk 1 [⟨"time", .always⟩]
    [.mk 1 [⟨"param", .always⟩, ⟨"time", .always⟩] [] .untyped] .untyped] .untyped]

def timeDisk : Disk where
  writes := [.segment newIndex.path 0 (Put.pages timeUris timePuts)]

def timeIndex : HeldIndex where
  index := {
    key := Key.ofList [("time", "1200")] none
    axes := timeAxes
    files := { directory := "/db", uris := timeUris, readOnly := true }
    write := false
    path := newIndex.path
    offset := 0 }
  remapKey := {}
  segment := ⟨(Key.ofList [("time", "1200")] none).keys, timePuts⟩

theorem covers_timeAxes : Covers timeAxes.axis timePuts := by
  have hrun : (timePuts.forM fun p => IndexAxis.insert p.key).run {} = .ok () timeAxes := rfl
  have hends := ends_forM_prefix (fun pre p (_ : p ∈ timePuts) (a : IndexAxis) (ha : Covers a.axis pre) =>
    (IndexAxis.ends_insert_covers (p := p) ha).mono (fun _ _ h => h.1) fun _ _ h => h) [] {} covers_nil
  exact hends.ok hrun

theorem timeIndex_holds : timeIndex.index.Holds timeDisk timeIndex.segment where
  key := rfl
  readOnly := rfl
  closed := rfl
  axes := covers_timeAxes
  storable := by
    simp only [timeIndex, timePuts, List.mem_cons, List.not_mem_nil, or_false, forall_eq_or_imp, forall_eq]
    exact ⟨⟨⟨⟨_, rfl⟩, fun _ => Key.canonicalValue_of_canonical rfl⟩, by decide, rfl⟩,
      ⟨⟨_, rfl⟩, fun _ => Key.canonicalValue_of_canonical rfl⟩, by decide, rfl⟩
  pages := ⟨timeUris, rfl, rfl, by simp [timeIndex, timePuts, timeUris, samplePut, FieldLocation.ofPath]⟩

def timeVisitor : ListVisitor := ⟨Key.ofList [("class", "od")] none, timeSchema, ⟨[("class", ["od"]), ("time", ["1200"])]⟩⟩

/-- A canonical key is listed as one with the same values. -/
theorem listedAs_of_keys {k listed : Key} (hc : k.canonical = true) (h : listed.keys = k.keys) : k.ListedAs listed where
  value keyword v hv := by
    rw [Key.find, h] at hv
    simp [Key.canonicalValue, Key.find, hv, Key.canonicalise, hc]
  missing keyword hk hn := by
    obtain ⟨value, hv⟩ := Key.mem_keys_iff.mp hk
    rw [Key.find, h] at hn
    rw [Key.find, hn] at hv
    cases hv

def timeCatalogue : ListedCatalogue where
  disk := timeDisk
  visitor := timeVisitor
  time _ := 0
  held := [timeIndex]
  faults := rfl
  holds := by simpa using timeIndex_holds
  reads := by
    simp only [forall_eq, timeIndex, timePuts, List.mem_cons, List.not_mem_nil, or_false,
      forall_eq_or_imp]
    exact ⟨⟨_, rfl, listedAs_of_keys rfl rfl⟩, ⟨_, rfl, listedAs_of_keys rfl rfl⟩⟩
  requested := rfl

theorem timeVisitor_isOuter {keyword : String} (h : timeVisitor.IsOuter timeIndex keyword) :
    keyword = "class" ∨ keyword = "time" := by
  obtain ⟨values, hvalues⟩ := has_iff.mp h.1
  simp only [timeVisitor, List.mem_cons, List.not_mem_nil, or_false, Prod.mk.injEq] at hvalues
  exact hvalues.imp And.left And.left

/-- The field of the other time is listed, since the axes have the time that is asked for. -/
theorem other_time_listed : ¬ timeCatalogue.ListsExactly := by
  intro h
  have hx : timeIndex ∈ timeCatalogue.held := List.mem_singleton.mpr rfl
  have hread : ∃ k, timeVisitor.datumKey timeIndex.index.key (samplePut [("param", "130"), ("time", "12")]).fingerprint =
      .ok k ∧ k.find "time" = some "12" := ⟨_, rfl, rfl⟩
  obtain ⟨k, hk, htime⟩ := hread
  have hcandidate : timeVisitor.Candidate timeIndex (samplePut [("param", "130"), ("time", "12")]) k := {
    last := rfl
    ranged := rfl
    key := hk
    index := Key.partialMatch_iff.mp rfl
    inner := by
      intro keyword hhas hinner
      obtain ⟨values, hvalues⟩ := has_iff.mp hhas
      simp only [timeVisitor, List.mem_cons, List.not_mem_nil, or_false, Prod.mk.injEq] at hvalues
      rcases hvalues with ⟨rfl, -⟩ | ⟨rfl, -⟩
      · exact absurd ⟨hhas, .inl (by decide)⟩ hinner
      · exact absurd ⟨hhas, .inr (by decide)⟩ hinner }
  have hoffers : ∀ keyword, timeVisitor.Doubled timeIndex keyword → timeVisitor.Offers timeIndex keyword := by
    rintro keyword ⟨houter, p, hp, hkey⟩
    rcases timeVisitor_isOuter houter with rfl | rfl
    · simp only [timeIndex, timePuts, List.mem_cons, List.not_mem_nil, or_false] at hp
      rcases hp with rfl | rfl <;> exact absurd hkey (by decide)
    · exact ⟨samplePut [("param", "131"), ("time", "1200")], by simp [timeIndex, timePuts], by decide, "1200", by decide, rfl⟩
  have hexact := (shown_exact_iff hx).mp (listsExactly_iff_each.mp h timeIndex hx)
  refine (hexact _ k hcandidate).mp hoffers ⟨"time", ⟨rfl, .inr (by decide)⟩, .inr ⟨"12", htime, by decide⟩⟩

end Sample

end ListedCatalogue

end Fdb5
