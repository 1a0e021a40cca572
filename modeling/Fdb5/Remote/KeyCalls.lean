import Mathlib.Data.List.Induction
import Mathlib.Data.List.Perm.Subperm
import Fdb5.KeyText
import Fdb5.Remote.KeyStream
import Fdb5.Rules.Filling
import Fdb5.Rules.ReadBack

/-! The calls that make and change a key, and the agreement of its names with its map. -/
namespace Fdb5

open Effect

/-- A key made anew, or a call on it. -/
inductive KeyCall where
  | empty (registry : Option TypesRegistry)
  | ofFingerprint (s : String) (rule : Option Rule)
  | ofDict (keys : StringDict) (registry : Option TypesRegistry)
  | ofList (l : List (String × String)) (registry : Option TypesRegistry)
  | ofStream (bytes : List UInt8)
  | parseString (s : String) (registry : TypesRegistry)
  | parseStringUntyped (s : String)
  | set (keyword value : String)
  | unset (keyword : String)
  | push (keyword value : String)
  | pop (keyword : String)
  | clear

namespace Key

def clear (k : Key) : Key := { k with registry := none, keys := ∅, names := [] }

end Key

namespace KeyCall

/-- `Key::pop`, which has erased the value when its assertion fails. -/
def popCall (keyword : String) : EStateM Failure Key Unit := do
  modify fun k => k.unset keyword
  if (← get).names = [] then
    throw (.undefinedBehaviour "names_.back()")
  ensure ((← get).names.getLast? = some keyword) "names_.back() == k"
  modify fun k => { k with names := k.names.dropLast }

/-- A key in place of the one before, if it can be made. -/
def replace (made : Except Failure Key) : EStateM Failure Key Unit := do
  let made ← lift made
  modify fun _ => made

def run (format : StreamFormat) : KeyCall → EStateM Failure Key Unit
  | .empty registry => replace (.ok { registry })
  | .ofFingerprint s rule => replace (Key.ofFingerprint s rule)
  | .ofDict keys registry => replace (.ok (Key.ofDict keys registry))
  | .ofList l registry => replace (.ok (Key.ofList l registry))
  | .ofStream bytes => replace (value ((Key.decodeFrom format).run bytes))
  | .parseString s registry => replace (Key.parseString s registry)
  | .parseStringUntyped s => replace (Key.parseStringUntyped s)
  | .set keyword value => modify fun k => k.set keyword value
  | .unset keyword => modify fun k => k.unset keyword
  | .push keyword value => modify fun k => k.push keyword value
  | .pop keyword => popCall keyword
  | .clear => modify Key.clear

/-- The key after these calls, of which some may have thrown. -/
def runAll (format : StreamFormat) (calls : List KeyCall) : Key :=
  calls.foldl (fun k call => final ((call.run format).run k)) {}

end KeyCall

namespace Key

variable {k k' : Key} {keyword value : String}

/-- The names are the keywords of the map, each once. -/
structure Enumerated (k : Key) : Prop where
  nodup : k.names.Nodup
  mem_iff : ∀ n, n ∈ k.names ↔ n ∈ k.keys

theorem enumerated_ofDict (keys : StringDict) (registry : Option TypesRegistry) : (ofDict keys registry).Enumerated where
  nodup := Std.ExtTreeMap.nodup_keys
  mem_iff _ := Std.ExtTreeMap.mem_keys

theorem Enumerated.empty (registry : Option TypesRegistry) : Enumerated { registry } where
  nodup := List.nodup_nil
  mem_iff n := by simp

theorem Enumerated.length (h : k.Enumerated) : k.names.length = k.keys.size := by
  have hperm : k.names.Perm k.keys.keys := (List.perm_ext_iff_of_nodup h.nodup Std.ExtTreeMap.nodup_keys).mpr
    fun n => (h.mem_iff n).trans Std.ExtTreeMap.mem_keys.symm
  rw [hperm.length_eq, Std.ExtTreeMap.length_keys]

/-- As many names as keywords, with every keyword among them, are the keywords once each. -/
theorem enumerated_of_length (hl : k.names.length = k.keys.size) (hsub : ∀ n ∈ k.keys, n ∈ k.names) : k.Enumerated := by
  have hsub' : k.keys.keys ⊆ k.names := fun n hn => hsub n (Std.ExtTreeMap.mem_keys.mp hn)
  have hle : k.names.length ≤ k.keys.keys.length := by simp [hl]
  have hperm := (List.subperm_of_subset Std.ExtTreeMap.nodup_keys hsub').perm_of_length_le hle
  exact ⟨hperm.nodup_iff.mp Std.ExtTreeMap.nodup_keys, fun n => hperm.mem_iff.symm.trans Std.ExtTreeMap.mem_keys⟩

theorem Enumerated.push (h : k.Enumerated) (hk : keyword ∉ k.keys) : (k.push keyword value).Enumerated where
  nodup := by
    have hn : keyword ∉ k.names := fun hn => hk ((h.mem_iff keyword).mp hn)
    rw [push_names, List.nodup_append]
    refine ⟨h.nodup, by simp, fun n hmem m hm => ?_⟩
    rw [List.mem_singleton.mp hm]
    exact fun he => hn (he ▸ hmem)
  mem_iff n := by
    rw [push_names, push_keys, List.mem_append, List.mem_singleton, h.mem_iff, Std.ExtTreeMap.mem_insert,
      Std.LawfulEqCmp.compare_eq_iff_eq, or_comm, eq_comm]

theorem Enumerated.set (h : k.Enumerated) : (k.set keyword value).Enumerated := by
  rw [Key.set]
  split
  next hk =>
    refine ⟨h.nodup, fun n => ?_⟩
    rw [Std.ExtTreeMap.mem_insert, Std.LawfulEqCmp.compare_eq_iff_eq, h.mem_iff]
    exact ⟨.inr, Or.rec (fun he => he ▸ hk) id⟩
  next hk => exact h.push hk

theorem Enumerated.unset (h : k.Enumerated) (hk : keyword ∉ k.keys) : (k.unset keyword).Enumerated where
  nodup := h.nodup
  mem_iff n := by
    change n ∈ k.names ↔ n ∈ k.keys.erase keyword
    rw [h.mem_iff, Std.ExtTreeMap.mem_erase, ne_eq, Std.LawfulEqCmp.compare_eq_iff_eq]
    exact ⟨fun hn => ⟨fun he => hk (he ▸ hn), hn⟩, And.right⟩

theorem Enumerated.valuesToString_eq (h : k.Enumerated) :
    k.valuesToString = (":".intercalate ·) <$> k.canonicalValues := by
  rw [valuesToString, assert, if_pos h.length]
  cases k.canonicalValues <;> rfl

theorem Enumerated.asString_ok (h : k.Enumerated) : ∃ text, k.asString = .ok text := by
  obtain ⟨pairs, hpairs⟩ : ∃ pairs, k.names.mapM k.named = .ok pairs := by
    refine exists_mapM fun n hn => ?_
    obtain ⟨value, hvalue⟩ := mem_keys_iff.mp ((h.mem_iff n).mp hn)
    exact ⟨(n, value), by rw [named, hvalue]⟩
  refine ⟨_, by rw [asString, assert, if_pos h.length, toString, hpairs]; rfl⟩

/-- The keyword that was pushed last is taken off both. -/
theorem Enumerated.pop {names : List String} (h : k.Enumerated) (hn : k.names = names ++ [keyword]) :
    Enumerated { k.unset keyword with names } := by
  have hnodup := h.nodup
  rw [hn, List.nodup_append] at hnodup
  refine ⟨hnodup.1, fun n => ?_⟩
  have hmem := h.mem_iff n
  rw [hn, List.mem_append, List.mem_singleton] at hmem
  change n ∈ names ↔ n ∈ k.keys.erase keyword
  rw [Std.ExtTreeMap.mem_erase, ne_eq, Std.LawfulEqCmp.compare_eq_iff_eq, ← hmem]
  constructor
  · intro hin
    exact ⟨fun he => hnodup.2.2 n hin keyword (List.mem_singleton_self _) he.symm, .inl hin⟩
  · rintro ⟨hne, hin | rfl⟩
    · exact hin
    · exact absurd rfl hne

theorem ends_popCall (h : k.Enumerated) (hm : k.names.getLast? = some keyword ∨ keyword ∉ k.keys ∧ k.names ≠ []) :
    Ends (KeyCall.popCall keyword) k (fun _ => Enumerated) fun _ => Enumerated := by
  simp only [KeyCall.popCall, ends_bind, ends_modify, ends_get, ends_ite, ends_throw, ends_ensure]
  constructor
  · intro hnil
    rcases hm with hlast | ⟨-, hne⟩
    · rw [show k.names = [] from hnil] at hlast
      cases hlast
    · exact absurd hnil hne
  · intro _
    constructor
    · intro hlast
      obtain ⟨names, hn⟩ := List.getLast?_eq_some_iff.mp hlast
      have hpop := h.pop hn
      rwa [show names = k.names.dropLast by rw [show k.names = _ from hn, List.dropLast_concat]] at hpop
    · intro hlast
      exact h.unset (hm.resolve_left hlast).1

/-- Of two predicates with one keyword, one is optional and has no value. -/
def FilledOnce (pairs : List (Predicate × String)) : Prop :=
  pairs.Pairwise fun a b => a.1.keyword = b.1.keyword → a.2 = "" ∧ a.1.optional ∨ b.2 = "" ∧ b.1.optional

theorem Enumerated.fillAll {pairs : List (Predicate × String)} (h : k.Enumerated) (hp : FilledOnce pairs)
    (hk : ∀ pv ∈ pairs, pv.1.keyword ∈ k.keys → pv.2 = "" ∧ pv.1.optional) : (Rule.fillAll pairs k).Enumerated := by
  induction pairs generalizing k with
  | nil => exact h
  | cons pv pairs ih =>
    obtain ⟨hfirst, hrest⟩ := List.pairwise_cons.mp hp
    have hlater : ∀ pv' ∈ pairs, pv'.1.keyword ∈ k.keys → pv'.2 = "" ∧ pv'.1.optional :=
      fun pv' hpv' => hk pv' (List.mem_cons_of_mem _ hpv')
    by_cases hout : pv.2 = "" ∧ pv.1.optional
    · have hsame : pv.1.fill k pv.2 = k := by
        obtain ⟨hv, d, hd⟩ := hout
        simp [Predicate.fill, Matcher.fill, hd, hv]
      change (Rule.fillAll pairs (pv.1.fill k pv.2)).Enumerated
      rw [hsame]
      exact ih h hrest hlater
    · change (Rule.fillAll pairs (pv.1.fill k pv.2)).Enumerated
      rw [Predicate.fill_eq hout]
      have hnew : pv.1.keyword ∉ k.keys := fun hin => hout (hk pv List.mem_cons_self hin)
      refine ih (h.push hnew) hrest fun pv' hpv' hin => ?_
      rw [push_keys, Std.ExtTreeMap.mem_insert, Std.LawfulEqCmp.compare_eq_iff_eq] at hin
      rcases hin with heq | hin
      · exact (hfirst pv' hpv' heq).resolve_left hout
      · exact hlater pv' hpv' hin

theorem ofFingerprint_ok {s : String} {rule : Option Rule} (h : ofFingerprint s rule = .ok k) :
    ∃ r pairs, rule = some r ∧
      Rule.pairing ((tokenize s).length == r.predicates.length + 1) r.predicates (tokenize s) = .ok pairs ∧
      k = Rule.fillAll pairs { registry := some r.registry } := by
  cases rule with
  | none => cases h
  | some r =>
    simp only [ofFingerprint, Rule.fill, except_bind_ok, Rule.fillLoop_eq, except_map_ok] at h
    obtain ⟨-, -, -, -, pairs, hpairs, rfl⟩ := h
    exact ⟨r, pairs, rfl, hpairs, rfl⟩

theorem enumerated_parseString {s : String} {registry : TypesRegistry} (h : parseString s registry = .ok k) :
    k.Enumerated := by
  have hloop (bits : List String) (ret ret' : Key) (hret : ret.Enumerated) (hfold : bits.foldlM (fun ret bit => do
      let kv ← parsePair bit
      let t ← registry.lookupType kv.1
      let v ← t.tidy kv.1 kv.2
      return if ret.find kv.1 = none then ret.push kv.1 v else ret.set kv.1 v) ret = .ok ret') : ret'.Enumerated := by
    induction bits generalizing ret with
    | nil => exact Except.ok.inj hfold ▸ hret
    | cons bit bits ih =>
      simp only [List.foldlM_cons, except_bind_ok, except_pure_ok] at hfold
      obtain ⟨ret₁, ⟨kv, -, t, -, v, -, rfl⟩, hfold⟩ := hfold
      refine ih _ ?_ hfold
      split
      next hnone => exact hret.push fun hin => by obtain ⟨w, hw⟩ := mem_keys_iff.mp hin; simp [hnone] at hw
      next => exact hret.set
  exact hloop _ _ _ (Enumerated.empty _) h

theorem enumerated_parseStringUntyped {s : String} (h : parseStringUntyped s = .ok k) : k.Enumerated := by
  simp only [parseStringUntyped, except_bind_ok, except_pure_ok] at h
  obtain ⟨keys, -, rfl⟩ := h
  exact enumerated_ofDict keys none

section Stream

variable {format : StreamFormat} {bytes rest : List UInt8}

/-- A key in a stream whose names are the keywords of its pairs, each once. -/
def Sent (format : StreamFormat) (bytes : List UInt8) : Prop :=
  ∃ (pairs names : List (String × String)) (rest : List UInt8), bytes = format.putSize pairs.length ++ (pairs.flatMap format.putPair ++
      (format.putSize names.length ++ (names.flatMap format.putPair ++ rest))) ∧
    (names.map Prod.fst).Nodup ∧ ∀ n, n ∈ names.map Prod.fst ↔ n ∈ pairs.map Prod.fst

/-- So is every key that is written with its names and map together. -/
theorem Enumerated.sent (h : k.Enumerated) (hk : k.encodeTo format = .ok bytes) : Sent format (bytes ++ rest) := by
  obtain ⟨values, names, hvalues, hnames, -, rfl⟩ := encodeTo_ok hk
  have hsize : k.names.length = names.length := by rw [← fst_sentNames hnames, List.length_map]
  refine ⟨values, names, rest, ?_, by rw [fst_sentNames hnames]; exact h.nodup, fun n => ?_⟩
  · rw [length_sentValues hvalues, hsize]
    simp only [List.append_assoc]
  · rw [fst_sentNames hnames, h.mem_iff, fst_sentValues hvalues, Std.ExtTreeMap.map_fst_toList_eq_keys,
      Std.ExtTreeMap.mem_keys]

theorem enumerated_decodeFrom (h : Sent format bytes) (hk : (decodeFrom format).run bytes = .ok k rest) :
    k.Enumerated := by
  obtain ⟨pairs, names, rest', rfl, hnodup, hsame⟩ := h
  have hends : Ends (decodeFrom format) (format.putSize pairs.length ++ (pairs.flatMap format.putPair ++
      (format.putSize names.length ++ (names.flatMap format.putPair ++ rest')))) (fun k _ => k.Enumerated)
      fun _ _ => True := by
    simp only [decodeFrom, ends_bind, StreamFormat.ends_getSize, StreamFormat.ends_getPairs, ends_pure]
    refine ⟨hnodup, fun n => ?_⟩
    rw [hsame, Std.ExtTreeMap.mem_ofList, List.contains_iff_mem]
  exact hends.ok hk

/-- What is read back of a key that was written: its names in their order, with its canonical values. -/
theorem decodeFrom_encodeTo (h : k.Enumerated) (hk : k.encodeTo format = .ok bytes) :
    ∃ k', (decodeFrom format).run (bytes ++ rest) = .ok k' rest ∧ k'.names = k.names ∧ k'.Enumerated ∧
      ∀ keyword value, k'.find keyword = some value ↔ k.canonicalValue keyword = .ok value := by
  obtain ⟨values, names, hvalues, hnames, hencode, hbytes⟩ := encodeTo_ok hk
  have hends : Ends (decodeFrom format) (bytes ++ rest)
      (fun k' t => k' = ⟨.ofList values, k.names, none, true⟩ ∧ t = rest) fun _ _ => False :=
    (ends_decodeFrom hk hencode).mpr ⟨rfl, rfl⟩
  obtain ⟨_, _, hrun, rfl, rfl⟩ := hends.returns
  have hcanonical (keyword value : String) :
      find ⟨.ofList values, k.names, none, true⟩ keyword = some value ↔ k.canonicalValue keyword = .ok value := by
    rw [← canonicalValue_encode hencode, canonicalValue]
    cases find ⟨.ofList values, k.names, none, true⟩ keyword <;> simp [canonicalise]
  refine ⟨_, hrun, rfl, ⟨h.nodup, fun n => ?_⟩, hcanonical⟩
  rw [h.mem_iff, Std.ExtTreeMap.mem_ofList, List.contains_iff_mem, fst_sentValues hvalues,
    Std.ExtTreeMap.map_fst_toList_eq_keys, Std.ExtTreeMap.mem_keys]

end Stream

end Key

namespace KeyCall

variable {format : StreamFormat} {k : Key} {call : KeyCall} {calls pre : List KeyCall}

/-- The calls that keep the names and the map together, on a key that has them so. -/
def Meets (format : StreamFormat) (k : Key) : KeyCall → Prop
  | .ofFingerprint s rule => ∀ r pairs, rule = some r →
      Rule.pairing ((tokenize s).length == r.predicates.length + 1) r.predicates (tokenize s) = .ok pairs →
      Key.FilledOnce pairs
  | .ofStream bytes => Key.Sent format bytes
  | .unset keyword => keyword ∉ k.keys
  | .push keyword _ => keyword ∉ k.keys
  | .pop keyword => k.names.getLast? = some keyword ∨ keyword ∉ k.keys ∧ k.names ≠ []
  | _ => True

theorem enumerated_replace {made : Except Failure Key} (h : k.Enumerated)
    (hmade : ∀ k', made = .ok k' → k'.Enumerated) : (final ((replace made).run k)).Enumerated := by
  cases made with
  | error e => exact h
  | ok k' => exact hmade k' rfl

theorem enumerated_run (h : k.Enumerated) (hm : call.Meets format k) :
    (final ((call.run format).run k)).Enumerated := by
  cases call with
  | empty registry => exact Key.Enumerated.empty registry
  | ofDict keys registry => exact Key.enumerated_ofDict keys registry
  | ofList l registry => exact ⟨Std.ExtTreeMap.nodup_keys, fun _ => Std.ExtTreeMap.mem_keys⟩
  | clear => exact ⟨List.nodup_nil, fun n => by simp [KeyCall.run, Key.clear]⟩
  | set keyword value => exact h.set
  | unset keyword => exact h.unset hm
  | push keyword value => exact h.push hm
  | pop keyword => exact (Key.ends_popCall h hm).final
  | parseString s registry => exact enumerated_replace h fun _ => Key.enumerated_parseString
  | parseStringUntyped s => exact enumerated_replace h fun _ => Key.enumerated_parseStringUntyped
  | ofFingerprint s rule =>
    refine enumerated_replace h fun k' hk' => ?_
    obtain ⟨r, pairs, rfl, hpairs, rfl⟩ := Key.ofFingerprint_ok hk'
    exact (Key.Enumerated.empty _).fillAll (hm r pairs rfl hpairs) (by simp)
  | ofStream bytes =>
    refine enumerated_replace h fun k' hk' => ?_
    obtain ⟨rest, hrun⟩ := value_eq_ok.mp hk'
    exact Key.enumerated_decodeFrom hm hrun

theorem enumerated_runAll (h : ∀ pre call post, calls = pre ++ call :: post → call.Meets format (runAll format pre)) :
    (runAll format calls).Enumerated := by
  induction calls using List.reverseRecOn with
  | nil => exact Key.Enumerated.empty none
  | append_singleton calls call ih =>
    rw [runAll, List.foldl_concat]
    refine enumerated_run (ih fun pre c post hc => h pre c (post ++ [call]) (by simp [hc])) ?_
    exact h calls call [] rfl

/-- As long as no call erases a keyword that stays among the names, nor names one again, every key reached has its
keywords as its names; it has a text and a fingerprint, and is read back as it was written. -/
theorem names_enumerate_keywords
    (h : ∀ pre call post, calls = pre ++ call :: post → call.Meets format (runAll format pre)) (hpre : pre <+: calls) :
    ((runAll format pre).names.Nodup ∧ ∀ n, n ∈ (runAll format pre).names ↔ n ∈ (runAll format pre).keys) ∧
    (runAll format pre).names.length = (runAll format pre).keys.size ∧
    (∃ text, (runAll format pre).asString = .ok text) ∧
    (runAll format pre).valuesToString = (":".intercalate ·) <$> (runAll format pre).canonicalValues ∧
    ∀ bytes rest, (runAll format pre).encodeTo format = .ok bytes →
      ∃ k', (Key.decodeFrom format).run (bytes ++ rest) = .ok k' rest ∧ k'.names = (runAll format pre).names ∧
        ∀ keyword value, k'.find keyword = some value ↔ (runAll format pre).canonicalValue keyword = .ok value := by
  have hpre' : (runAll format pre).Enumerated := by
    obtain ⟨post, rfl⟩ := hpre
    exact enumerated_runAll fun pre' call post' hc => h pre' call (post' ++ post) (by simp [hc])
  refine ⟨⟨hpre'.nodup, hpre'.mem_iff⟩, hpre'.length, hpre'.asString_ok, hpre'.valuesToString_eq, fun bytes rest hbytes => ?_⟩
  obtain ⟨k', hrun, hnames, -, hfind⟩ := Key.decodeFrom_encodeTo hpre' hbytes
  exact ⟨k', hrun, hnames, hfind⟩

section Sample

/-- A keyword pushed on a key of two, one of these set again, and the keyword popped. -/
def sampleCalls : List KeyCall :=
  [.ofList [("class", "od"), ("expver", "0001")] none, .push "step" "6", .set "expver" "0002", .pop "step"]

theorem names_enumerate_keywords_sample :
    ∃ text, (runAll .eckit sampleCalls).asString = .ok text := by
  refine (@names_enumerate_keywords .eckit sampleCalls sampleCalls ?_ List.prefix_rfl).2.2.1
  rintro (_ | ⟨_, _ | ⟨_, _ | ⟨_, _ | ⟨_, pre⟩⟩⟩⟩) call post h
  · cases h
    trivial
  · cases h
    change "step" ∉ (runAll .eckit [_]).keys
    decide +kernel
  · cases h
    trivial
  · cases h
    exact .inl rfl
  · simp [sampleCalls] at h

/-- `unset` and a repeated `push` leave more names than keywords; an outer keyword popped by mistake is erased. -/
theorem names_outnumber_keywords :
    (runAll .eckit [.ofList [("class", "od"), ("expver", "0001")] none, .unset "expver"]).valuesToString =
      .error (.assertion "names_.size() == keys_.size()") ∧
    (runAll .eckit [.ofList [("class", "od"), ("expver", "0001")] none, .unset "expver"]).asString =
      .error (.assertion "names_.size() == keys_.size()") ∧
    (runAll .eckit [.push "step" "6", .push "step" "12"]).valuesToString =
      .error (.assertion "names_.size() == keys_.size()") ∧
    (runAll .eckit [.push "step" "6", .push "step" "12", .pop "step"]).names = ["step"] ∧
    (runAll .eckit [.push "step" "6", .push "step" "12", .pop "step"]).find "step" = none ∧
    (runAll .eckit [.push "step" "6", .push "param" "1", .pop "step"]).names = ["step", "param"] ∧
    (runAll .eckit [.push "step" "6", .push "param" "1", .pop "step"]).find "step" = none := by
  decide +kernel

end Sample

end KeyCall

end Fdb5
