import Fdb5.Toc.Listing

/-! What the axes of an index let through: the keys that were put there, and the requests for them. -/
namespace Fdb5

open Effect

section Insert

variable {a : IndexAxis} {key : Key} {p : Put} {puts : List Put} {keywords : List String}

/-- Where the loop of `insert` comes to its end, every keyword had a canonical value. -/
theorem IndexAxis.ends_insert_canonical : ∀ a : IndexAxis, Ends (keywords.forM fun keyword => do
      modify fun a => { a with axis := a.axis.alter keyword fun s => some (s.getD ∅) }
      let value ← lift (key.canonicalValue keyword)
      modify fun a => { a with axis := a.axis.modify keyword fun s => s.insert value }) a
    (fun _ _ => ∀ keyword ∈ keywords, ∃ v, key.canonicalValue keyword = .ok v) fun _ _ => True := by
  induction keywords with
  | nil => intro a; exact fun _ h => by cases h
  | cons keyword keywords ih =>
    intro a
    change Ends (_ >>= fun _ => keywords.forM _) a _ _
    rw [ends_bind]
    simp only [ends_bind, ends_modify, ends_lift]
    refine ⟨fun value hv => ?_, fun _ _ => trivial⟩
    apply (ih _).mono
    · intro _ _ hall other hother
      rcases List.mem_cons.mp hother with rfl | hother
      · exact ⟨value, hv⟩
      · exact hall other hother
    · exact fun _ _ h => h

/-- An insertion that returns had a canonical value for each keyword, and the axes cover its key. -/
theorem IndexAxis.ends_insert_covers (hc : Covers a.axis puts) : Ends (insert p.key) a
    (fun _ b => Covers b.axis (puts ++ [p]) ∧ ∀ keyword ∈ p.key.keys, ∃ v, p.key.canonicalValue keyword = .ok v)
    fun _ _ => True := by
  by_cases hall : ∀ keyword ∈ p.key.keys.keys, ∃ v, p.key.canonicalValue keyword = .ok v
  · rw [insert]
    simp only [ends_bind, ends_get, ends_ensure]
    refine ⟨fun _ => (ends_insert_loop hall a).mono (fun _ b hb => ?_) fun _ _ _ => trivial, fun _ => trivial⟩
    obtain ⟨_, hmem, hval⟩ := hb
    refine ⟨⟨fun keyword => ?_, fun keyword v => ?_⟩, fun keyword h => hall keyword (by simpa using h)⟩
    · rw [hmem, hc.keyword]
      simp [or_and_right, exists_or]
    · rw [hval, hc.value]
      simp [or_and_right, exists_or]
  · rw [insert]
    simp only [ends_bind, ends_get, ends_ensure]
    exact ⟨fun _ => (ends_insert_canonical a).mono (fun _ _ h => absurd h hall) fun _ _ _ => trivial, fun _ => trivial⟩

end Insert

section Put

variable {ν η : Type} {B : BTreeIndex ν η} {idx : TocIndex η} {s : ν} {p : Put} {puts done : List Put}

/-- What becomes of an index's axes; its other parts may change. -/
structure TocIndex.Collects (idx : TocIndex η) (puts : List Put) : Prop where
  covers : Covers idx.axes.axis puts
  canonical : ∀ p ∈ puts, ∀ keyword ∈ p.key.keys, ∃ v, p.key.canonicalValue keyword = .ok v

theorem TocIndex.ends_onBTree_axes {x : EStateM Failure (η × ν) Unit} {t : TocIndex η × ν} :
    Ends (onBTree x) t (fun _ u => u.1.axes = t.1.axes) fun _ _ => True := by
  obtain ⟨idx, s⟩ := t
  unfold Ends EStateM.run onBTree
  cases idx.btree with
  | none => trivial
  | some b =>
    change Ends _ (idx, s) (fun _ u => u.1.axes = idx.axes) fun _ _ => True
    rw [ends_focus]
    unfold Ends
    cases x.run (b, s) <;> trivial

theorem TocIndex.ends_put_collects (h : idx.Collects done) :
    Ends (put B p.key p.location) (idx, s) (fun _ t => t.1.Collects (done ++ [p])) fun _ _ => True := by
  rw [put]
  simp only [ends_bind, onFst, ends_focus, ends_map, ends_get, ends_ensure, ends_lift, ends_modify]
  apply (IndexAxis.ends_insert_covers h.covers).mono
  · rintro _ axes ⟨hcovers, hcanonical⟩
    have hcollects : ∀ {t : TocIndex η}, t.axes = axes → t.Collects (done ++ [p]) := by
      rintro t rfl
      refine ⟨hcovers, fun q hq => ?_⟩
      rcases List.mem_append.mp hq with hq | hq
      · exact h.canonical q hq
      · obtain rfl := List.mem_singleton.mp hq
        exact hcanonical
    refine ⟨fun _ => ⟨fun _ => ⟨fun files _ => ⟨fun fingerprint _ => ?_, fun _ _ => trivial⟩, fun _ _ => trivial⟩,
      fun _ => trivial⟩, fun _ => trivial⟩
    exact ends_onBTree_axes.mono (fun _ t ht => hcollects ht) fun _ _ _ => trivial
  · exact fun _ _ _ => trivial

/-- Puts into an index whose axes are empty leave the axes that cover their keys. -/
theorem TocIndex.collects_of_puts {written : TocIndex η} {s' : ν} (hnew : idx.axes.axis = ∅)
    (hputs : (puts.forM fun p => put B p.key p.location).run (idx, s) = .ok () (written, s')) : written.Collects puts := by
  have hempty : idx.Collects [] := ⟨hnew ▸ covers_nil, fun _ hp => by cases hp⟩
  have hall := ends_forM_prefix (fun pre p (_ : p ∈ puts) (t : TocIndex η × ν) (ht : t.1.Collects pre) =>
    ends_put_collects (B := B) (s := t.2) ht) [] (idx, s) hempty
  simpa using hall.ok hputs

end Put

section Match

variable {a : IndexAxis} {k : Key} {keyword v : String} {values : Std.ExtTreeSet String} {puts : List Put} {p : Put}
  {rq : MarsRequest}

theorem foldlM_all {α : Type} {f : α → Except Failure Bool} {l : List α} : ∀ {b : Bool},
    l.foldlM (fun found a => do if found then f a else return false) b = .ok true ↔ b = true ∧ ∀ a ∈ l, f a = .ok true := by
  induction l with
  | nil => simp
  | cons a l ih =>
    intro b
    cases b with
    | false => simp [ih]
    | true => simp [ih]

theorem Key.matchAxis_true : k.matchAxis keyword values = .ok true ↔ ∃ value, k.find keyword = some value ∧
    (value ∈ values ∨ ∃ c, k.canonicalise keyword value = .ok c ∧ c ∈ values) := by
  rw [matchAxis]
  cases hf : k.find keyword with
  | none => simp
  | some value =>
    by_cases hv : value ∈ values
    · simp [hv]
    · simp [hv]

theorem IndexAxis.contains_true : a.contains k = .ok true ↔
    ∀ keyword values, a.axis[keyword]? = some values → k.matchAxis keyword values = .ok true := by
  rw [contains, foldlM_all]
  simp [Std.ExtTreeMap.mem_toList_iff_getElem?_eq_some]

/-- The axes take a key that was put for one of theirs when it has all the keywords of the others. -/
theorem Covers.contains_iff (h : Covers a.axis puts) (hp : p ∈ puts)
    (hcanonical : ∀ keyword ∈ p.key.keys, ∃ v, p.key.canonicalValue keyword = .ok v) :
    a.contains p.key = .ok true ↔ ∀ q ∈ puts, ∀ keyword ∈ q.key.keys, keyword ∈ p.key.keys := by
  rw [IndexAxis.contains_true]
  constructor
  · intro hall q hq keyword hk
    have hmem := (h.keyword keyword).mpr ⟨q, hq, hk⟩
    obtain ⟨values, hvalues⟩ := Option.isSome_iff_exists.mp (Std.ExtTreeMap.isSome_getElem?_iff_mem.mpr hmem)
    obtain ⟨value, hvalue, _⟩ := Key.matchAxis_true.mp (hall keyword values hvalues)
    exact Key.mem_keys_iff.mpr ⟨value, hvalue⟩
  · intro hall keyword values hvalues
    have hmem : keyword ∈ a.axis := Std.ExtTreeMap.isSome_getElem?_iff_mem.mp (by rw [hvalues]; rfl)
    obtain ⟨q, hq, hk⟩ := (h.keyword keyword).mp hmem
    have hkey := hall q hq keyword hk
    obtain ⟨v, hv⟩ := hcanonical keyword hkey
    obtain ⟨values', hvalues', hin⟩ := (h.value keyword v).mpr ⟨p, hp, hkey, hv⟩
    rw [hvalues] at hvalues'
    obtain rfl := Option.some.inj hvalues'
    obtain ⟨value, hfind⟩ := Key.mem_keys_iff.mp hkey
    simp only [Key.canonicalValue, hfind] at hv
    exact Key.matchAxis_true.mpr ⟨value, hfind, .inr ⟨v, hv, hin⟩⟩

theorem IndexAxis.partialMatch_iff : a.partialMatch rq = true ↔ ∀ keyword values, a.axis[keyword]? = some values →
    rq.has keyword = true → ∃ v ∈ rq.values keyword, v ∈ values := by
  rw [partialMatch, List.all_eq_true]
  simp only [Prod.forall, Std.ExtTreeMap.mem_toList_iff_getElem?_eq_some, Bool.or_eq_true, Bool.not_eq_true',
    List.any_eq_true, decide_eq_true_eq]
  refine forall_congr' fun keyword => forall_congr' fun values => imp_congr_right fun _ => ?_
  cases rq.has keyword <;> simp

/-- The request is for the field of the key: it gives the values of the key, and those of its index for the other
keywords of that it asks for, and has no keyword that only other fields of the index have. -/
structure MarsRequest.Gives (rq : MarsRequest) (idx : TocIndex BTreeHandle) (k : Key) : Prop where
  datum : ∀ keyword v, k.find keyword = some v → v ∈ rq.values keyword
  index : ∀ keyword v, idx.key.find keyword = some v → k.find keyword = none → rq.values keyword = [] ∨ v ∈ rq.values keyword
  nothingElse : ∀ keyword ∈ idx.axes.axis, rq.has keyword = true → keyword ∈ k.keys

/-- The request with the values of a key alone. -/
def MarsRequest.ofKey (k : Key) : MarsRequest := ⟨k.keys.toList.map fun kv => (kv.1, [kv.2])⟩

theorem lookup_map_snd {β γ : Type} {f : β → γ} {l : List (String × β)} :
    (l.map fun kv => (kv.1, f kv.2)).lookup keyword = (l.lookup keyword).map f := by
  induction l with
  | nil => rfl
  | cons kv l ih =>
    rw [List.map_cons, List.lookup_cons, List.lookup_cons, ih]
    cases keyword == kv.1 <;> rfl

theorem MarsRequest.lookup_ofKey : (ofKey k).params.lookup keyword = (k.find keyword).map fun v => [v] := by
  rw [← Key.lookup_toList]
  exact lookup_map_snd (f := fun v => [v])

theorem MarsRequest.values_ofKey : (ofKey k).values keyword = (k.find keyword).toList := by
  rw [values, lookup_ofKey]
  cases k.find keyword <;> rfl

theorem MarsRequest.has_ofKey : (ofKey k).has keyword = (k.find keyword).isSome := by
  rw [has, lookup_ofKey, Option.isSome_map]

theorem Key.partialMatch_iff : k.partialMatch rq = true ↔ ∀ keyword v, k.find keyword = some v →
    rq.values keyword = [] ∨ v ∈ rq.values keyword := by
  rw [partialMatch, List.all_eq_true]
  simp only [Prod.forall, Std.ExtTreeMap.mem_toList_iff_getElem?_eq_some, Bool.or_eq_true, List.isEmpty_iff,
    decide_eq_true_eq, find]

/-- The requests for a key that was put pass the index when each value of the key is a canonical one of the axes, and
that of the index where this has the keyword too. -/
theorem TocIndex.passes_iff {idx : TocIndex BTreeHandle} (h : Covers idx.axes.axis puts) :
    (∀ rq : MarsRequest, rq.Gives idx k → idx.partialMatch rq = true) ↔
      ∀ keyword v, k.find keyword = some v → (∀ w, idx.key.find keyword = some w → w = v) ∧
        (keyword ∈ idx.axes.axis → ∃ q ∈ puts, q.key.canonicalValue keyword = .ok v) := by
  constructor
  · intro hall
    have hgives : (MarsRequest.ofKey k).Gives idx k := by
      refine ⟨fun keyword v hv => ?_, fun keyword v hv hn => ?_, fun keyword _ hhas => ?_⟩
      · simp [MarsRequest.values_ofKey, hv]
      · simp [MarsRequest.values_ofKey, hn]
      · rw [MarsRequest.has_ofKey] at hhas
        exact Key.mem_keys_iff.mpr (Option.isSome_iff_exists.mp hhas)
    have hpass := hall _ hgives
    rw [TocIndex.partialMatch, Bool.and_eq_true, Key.partialMatch_iff, IndexAxis.partialMatch_iff] at hpass
    intro keyword v hv
    constructor
    · intro w hw
      simpa [MarsRequest.values_ofKey, hv] using hpass.1 keyword w hw
    · intro hmem
      obtain ⟨values, hvalues⟩ := Option.isSome_iff_exists.mp (Std.ExtTreeMap.isSome_getElem?_iff_mem.mpr hmem)
      obtain ⟨v', hv', hin⟩ := hpass.2 keyword values hvalues (by rw [MarsRequest.has_ofKey, hv]; rfl)
      obtain rfl : v' = v := by simpa [MarsRequest.values_ofKey, hv] using hv'
      obtain ⟨q, hq, _, hcanonical⟩ := (h.value keyword v').mp ⟨values, hvalues, hin⟩
      exact ⟨q, hq, hcanonical⟩
  · intro hall rq hrq
    rw [TocIndex.partialMatch, Bool.and_eq_true, Key.partialMatch_iff, IndexAxis.partialMatch_iff]
    constructor
    · intro keyword w hw
      cases hv : k.find keyword with
      | none => exact hrq.index keyword w hw hv
      | some v =>
        obtain rfl := (hall keyword v hv).1 w hw
        exact .inr (hrq.datum keyword w hv)
    · intro keyword values hvalues hhas
      have hmem : keyword ∈ idx.axes.axis := Std.ExtTreeMap.isSome_getElem?_iff_mem.mp (by rw [hvalues]; rfl)
      obtain ⟨v, hv⟩ := Key.mem_keys_iff.mp (hrq.nothingElse keyword hmem hhas)
      obtain ⟨q, hq, hcanonical⟩ := (hall keyword v hv).2 hmem
      have hkey : keyword ∈ q.key.keys := by
        rw [Key.canonicalValue] at hcanonical
        cases hf : q.key.find keyword with
        | none => simp [hf] at hcanonical
        | some raw => exact Key.mem_keys_iff.mpr ⟨raw, hf⟩
      obtain ⟨values', hvalues', hin⟩ := (h.value keyword v).mpr ⟨q, hq, hkey, hcanonical⟩
      rw [hvalues] at hvalues'
      obtain rfl := Option.some.inj hvalues'
      exact ⟨v, hrq.datum keyword v hv, hin⟩

end Match

section ReadBack

variable {ν : Type} {B : BTreeIndex ν BTreeHandle} {idx written read : TocIndex BTreeHandle} {s s' : ν} {puts : List Put}
  {version offset : Nat} {directory : String} {path : PathName} {e : EncodedIndex}

theorem TocIndex.axes_readBack (he : written.encode version = .ok e) (hd : decode version directory path offset e = .ok read) :
    read.axes.axis = written.axes.axis := by
  rw [decode_ok hd]
  rw [encode] at he
  by_cases hv : 3 ≤ version
  · simp only [hv, if_true, except_bind_ok, except_pure_ok] at he
    obtain ⟨key, _, rfl⟩ := he
    rfl
  · simp only [hv, if_false, except_bind_ok, except_pure_ok] at he
    obtain ⟨key, _, fingerprint, _, rfl⟩ := he
    rfl

/-- An index that was filled, written and read back denies no key that was put there and no request for one exactly
when all keys have the same keywords, and each of their values is the canonical one of some key, and that of the
index where its key has the keyword. -/
theorem TocIndex.no_false_negatives_iff (hnew : idx.axes.axis = ∅)
    (hputs : (puts.forM fun p => put B p.key p.location).run (idx, s) = .ok () (written, s'))
    (he : written.encode version = .ok e) (hd : decode version directory path offset e = .ok read) :
    (∀ p ∈ puts, read.mayContain p.key = .ok true ∧ ∀ rq : MarsRequest, rq.Gives read p.key → read.partialMatch rq = true) ↔
      (∀ p ∈ puts, ∀ q ∈ puts, ∀ keyword ∈ q.key.keys, keyword ∈ p.key.keys) ∧
      ∀ p ∈ puts, ∀ keyword v, p.key.find keyword = some v → (∃ q ∈ puts, q.key.canonicalValue keyword = .ok v) ∧
        ∀ w, read.key.find keyword = some w → w = v := by
  have hcollects := collects_of_puts hnew hputs
  have hcovers : Covers read.axes.axis puts := axes_readBack he hd ▸ hcollects.covers
  simp only [mayContain]
  constructor
  · intro hall
    refine ⟨fun p hp => (hcovers.contains_iff hp (hcollects.canonical p hp)).mp (hall p hp).1, fun p hp keyword v hv => ?_⟩
    obtain ⟨hindex, haxis⟩ := (passes_iff hcovers).mp (hall p hp).2 keyword v hv
    have hkey : keyword ∈ p.key.keys := Key.mem_keys_iff.mpr ⟨v, hv⟩
    exact ⟨haxis ((hcovers.keyword keyword).mpr ⟨p, hp, hkey⟩), hindex⟩
  · rintro ⟨hkeywords, hvalues⟩ p hp
    refine ⟨(hcovers.contains_iff hp (hcollects.canonical p hp)).mpr (hkeywords p hp), (passes_iff hcovers).mpr ?_⟩
    intro keyword v hv
    obtain ⟨hput, hindex⟩ := hvalues p hp keyword v hv
    exact ⟨hindex, fun _ => hput⟩

end ReadBack

/-- An index that is open on a new segment. -/
def newIndex : TocIndex BTreeHandle :=
  { (TocIndex.create (Key.ofList [("type", "an")] none) ⟨"/db", ⟨"an", none, ".index"⟩⟩ : TocIndex BTreeHandle) with
    btree := some ⟨⟨"/db", ⟨"an", none, ".index"⟩⟩, false, 0, ∅, false⟩ }

def samplePut (l : List (String × String)) : Put :=
  ⟨Key.ofList l none, .ofPath ⟨"/db", ⟨"an", none, ".data"⟩⟩ 0 1⟩

def onNewIndex (puts : List Put) : EStateM.Result Failure (TocIndex BTreeHandle × Disk) Unit :=
  (puts.forM fun p => TocIndex.put TBTreeIndex p.key p.location).run (newIndex, {})

theorem samplePut_find {value keyword v : String} (h : (samplePut [("param", value)]).key.find keyword = some v) :
    keyword = "param" ∧ v = value := by
  have hkeys : (samplePut [("param", value)]).key.keys = (∅ : StringDict).insert "param" value := by
    simp [samplePut, Key.ofList]
  rw [Key.find, hkeys, Std.ExtTreeMap.getElem?_insert] at h
  by_cases hk : "param" = keyword <;> simp_all

/-- Two fields of different values are found in an index that is written and read back. -/
theorem no_false_negatives_param : ∃ read : TocIndex BTreeHandle,
    ∀ p ∈ [samplePut [("param", "130")], samplePut [("param", "131")]], read.mayContain p.key = .ok true ∧
      ∀ rq : MarsRequest, rq.Gives read p.key → read.partialMatch rq = true := by
  have hrun : ∃ written d, onNewIndex [samplePut [("param", "130")], samplePut [("param", "131")]] = .ok () (written, d) ∧
      ∃ e, written.encode 3 = .ok e ∧ ∃ read : TocIndex BTreeHandle,
        TocIndex.decode 3 "/db" newIndex.path 0 e = .ok read ∧ read.key.find "param" = none :=
    ⟨_, _, rfl, _, rfl, _, rfl, rfl⟩
  obtain ⟨written, d, hputs, e, he, read, hd, hkey⟩ := hrun
  have hput : ∀ p ∈ [samplePut [("param", "130")], samplePut [("param", "131")]],
      p = samplePut [("param", "130")] ∨ p = samplePut [("param", "131")] := by
    simp
  refine ⟨read, (TocIndex.no_false_negatives_iff rfl hputs he hd).mpr ⟨?_, ?_⟩⟩
  · intro p hp q hq keyword hk
    have hparam : keyword = "param" := by
      obtain ⟨v, hv⟩ := Key.mem_keys_iff.mp hk
      rcases hput q hq with rfl | rfl <;> exact (samplePut_find hv).1
    subst hparam
    rcases hput p hp with rfl | rfl <;> exact Key.mem_keys_iff.mpr ⟨_, rfl⟩
  · intro p hp keyword v hv
    have hcanonical : keyword = "param" ∧ p.key.canonicalValue keyword = .ok v := by
      rcases hput p hp with rfl | rfl <;> obtain ⟨rfl, rfl⟩ := samplePut_find hv <;> exact ⟨rfl, rfl⟩
    obtain ⟨rfl, hcanonical⟩ := hcanonical
    exact ⟨⟨p, hp, hcanonical⟩, fun w hw => by rw [hkey] at hw; cases hw⟩

/-- An index with a field that has a keyword more denies the one that has not. -/
theorem axes_deny_put : ∃ written d e, ∃ read : TocIndex BTreeHandle,
    onNewIndex [samplePut [("param", "130")], samplePut [("param", "130"), ("number", "1")]] = .ok () (written, d) ∧
      written.encode 3 = .ok e ∧ TocIndex.decode 3 "/db" newIndex.path 0 e = .ok read ∧
        read.mayContain (samplePut [("param", "130")]).key = .ok false := ⟨_, _, _, _, rfl, rfl, rfl, rfl⟩

end Fdb5
