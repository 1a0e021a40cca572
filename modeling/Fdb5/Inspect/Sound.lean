import Fdb5.Library.LastWins
import Fdb5.Inspect.Selected

/-! Whether an element that is found has values that the request gives. -/
namespace Fdb5

open Effect LastWins

/-- `Key::canonicalise(keyword, value)` with the keyword's type at hand. -/
def FieldType.canonicalise (t : FieldType) (keyword value : String) : Except Failure String :=
  if value = "" then .ok value else t.toKey keyword value

namespace Choice

/-- The choice of a level that counts for a keyword is the last. -/
def last (choices : List (Choice MultiRetrieveVisitor)) (keyword : String) :
    Option (Choice MultiRetrieveVisitor) :=
  choices.findRev? fun c => c.predicate.keyword = keyword

/-- The request gives a value for the choice's keyword, as it is written or as the keyword's type
reads it, up to the type's canonical form. -/
def Requested (config : DbConfig) (request : MarsRequest) (c : Choice MultiRetrieveVisitor)
    (value : String) : Prop :=
  ∃ type read u canonical, c.registry.lookupType c.predicate.keyword = .ok type ∧
    type.getValues config.mars request c.predicate.keyword c.state.axes = .ok read ∧
    u ∈ request.values c.predicate.keyword ++ read ∧
    type.canonicalise c.predicate.keyword u = .ok canonical ∧
    type.canonicalise c.predicate.keyword value = .ok canonical

/-- The request gives the keyword, the axes leave none of its values, and the default that stands in
for them is not one that the request gives. -/
def Overrides (config : DbConfig) (request : MarsRequest) (c : Choice MultiRetrieveVisitor) : Prop :=
  request.values c.predicate.keyword ≠ [] ∧ c.predicate.isOptional ∧
    MultiRetrieveVisitor.values config.mars c.state.axes request c.predicate.keyword c.registry = .ok [] ∧
    ∀ default, c.predicate.defaultValue = .ok default → ¬ c.Requested config request default

end Choice

namespace ListElement

/-- The key of an element at a level. -/
def levelKey (e : ListElement) : Nat → Key
  | 0 => e.dbKey
  | 1 => e.indexKey
  | _ => e.datumKey

/-- For each keyword of the request on the path of rules, the element has a value that the request
gives; a datum's key leaves out the keywords that have the empty value. -/
def Answers (config : DbConfig) (request : MarsRequest) (choices : List (List (Choice MultiRetrieveVisitor)))
    (e : ListElement) : Prop :=
  ∀ level cs keyword c, choices[level]? = some cs → Choice.last cs keyword = some c →
    request.values keyword ≠ [] →
      c.Requested config request (((e.levelKey level).find keyword).getD "")

end ListElement

/-- Inspecting a request finds an element at the end of a branch. -/
def Inspector.Finds (config : DbConfig) (d : Disk) (request : MarsRequest) (i : Inspector)
    (choices : List (List (Choice MultiRetrieveVisitor))) (e : ListElement) : Prop :=
  ∃ key v, config.schema.Occurs (config.visitor d) request { databases := i.databases }
    (.selectsDatum choices key v) ∧ MultiRetrieveVisitor.found d key v = some e

section Sound

variable {config : DbConfig} {d : Disk} {request : MarsRequest} {i : Inspector}
  {choices : List (List (Choice MultiRetrieveVisitor))} {c : Choice MultiRetrieveVisitor} {e : ListElement}
  {keyword value : String} {k : Key}

theorem Choice.find_pushAll {cs : List (Choice MultiRetrieveVisitor)} :
    (pushAll {} cs).find keyword = (last cs keyword).map (·.value) := by
  induction cs using List.reverseRecOn with
  | nil => simp [pushAll, last, Key.find]
  | append_singleton cs c ih =>
    rw [pushAll, List.foldl_append, last, findRev?_concat]
    change (Key.push (pushAll {} cs) _ _).find keyword = _
    rw [Key.find_push_eq, ih]
    by_cases h : c.predicate.keyword = keyword
    · simp [h]
    · simp [h, last]

theorem MultiRetrieveVisitor.find_simplify {l : List (String × String)} (hl : (l.map Prod.fst).Nodup) :
    ∀ k : Key, (l.foldl (fun k kv => if kv.2 = "" then k else k.set kv.1 kv.2) k).find keyword =
      ((l.lookup keyword).filter fun v => v ≠ "").or (k.find keyword) := by
  induction l with
  | nil => exact fun k => rfl
  | cons kv l ih =>
    intro k
    obtain ⟨hkv, hrest⟩ := List.nodup_cons.mp hl
    obtain ⟨keyword', value⟩ := kv
    rw [List.foldl_cons, ih hrest, List.lookup_cons]
    by_cases hk : keyword = keyword'
    · subst hk
      have hnone : l.lookup keyword = none := List.lookup_eq_none_iff.mpr fun kv hkv' => by
        simpa using fun h => hkv (List.mem_map.mpr ⟨kv, hkv', h.symm⟩)
      by_cases hv : value = ""
      · simp [hnone, hv, Option.filter]
      · simp [hnone, hv, Key.find_set, Option.filter]
    · rw [beq_false_of_ne hk]
      by_cases hv : value = ""
      · simp [hv]
      · simp [hv, Key.find_set, Ne.symm hk]

/-- A datum's key as it is listed has the values of the key, less the empty ones. -/
theorem MultiRetrieveVisitor.find_simplifiedKey :
    ((simplifiedKey k).find keyword).getD "" = (k.find keyword).getD "" := by
  have hnodup : (k.keys.toList.map Prod.fst).Nodup :=
    List.pairwise_map.mpr (Std.ExtTreeMap.distinct_keys_toList.imp fun h => by simpa using h)
  rw [simplifiedKey, find_simplify hnodup, Key.lookup_toList]
  cases k.find keyword with
  | none => rfl
  | some value => by_cases hv : value = "" <;> simp [hv, Key.find, Option.filter]

/-- What the visitor leaves of the request's values is among what the keyword's type reads. -/
theorem MultiRetrieveVisitor.requested_of_values {values : List String}
    (h : MultiRetrieveVisitor.values config.mars c.state.axes request c.predicate.keyword c.registry = .ok values)
    (hv : value ∈ values) : c.Requested config request value := by
  rw [MultiRetrieveVisitor.values] at h
  simp only [except_bind_ok] at h
  obtain ⟨type, htype, list, hlist, keys, hkeys, h⟩ := h
  have hmem : value ∈ list := by
    split at h
    · exact except_pure_ok.mp h ▸ hv
    · obtain ⟨kv, hkv, rfl⟩ := List.mem_map.mp (except_pure_ok.mp h ▸ hv)
      obtain ⟨l, hl, hkv⟩ := mem_mapM hkeys (List.mem_of_mem_filter hkv)
      obtain ⟨_, -, rfl⟩ := by simpa using hkv
      exact hl
  obtain ⟨kv, -, hkv⟩ := mem_mapM_of hkeys hmem
  obtain ⟨key, hkey, -⟩ := by simpa using hkv
  obtain ⟨canonical, hcanonical⟩ : ∃ canonical, type.canonicalise c.predicate.keyword value = .ok canonical := by
    rw [FieldType.canonicalise]
    split
    · exact ⟨_, rfl⟩
    · exact ⟨_, hkey⟩
  exact ⟨type, list, value, canonical, htype, hlist, List.mem_append_right _ hmem, hcanonical, hcanonical⟩

/-- What an expansion goes through: the visitor's values, or a default where there are none. -/
theorem Predicate.offered_ok {p : Predicate} {values : Except Failure (List String)} {offered : List String}
    (h : p.offered values = .ok offered) : (values = .ok offered ∧ (offered = [] → ¬ p.isOptional)) ∨
      (values = .ok [] ∧ p.isOptional ∧ ∃ default, p.defaultValue = .ok default ∧ offered = [default]) := by
  rw [Predicate.offered] at h
  simp only [except_bind_ok] at h
  obtain ⟨list, rfl, h⟩ := h
  split at h
  · rename_i hempty
    obtain ⟨hnil, hopt⟩ := hempty
    obtain rfl := List.isEmpty_iff.mp hnil
    simp only [except_bind_ok, except_pure_ok, List.nil_append] at h
    obtain ⟨default, hdefault, rfl⟩ := h
    exact .inr ⟨rfl, hopt, default, hdefault, rfl⟩
  · rename_i hfull
    obtain rfl := except_pure_ok.mp h
    exact .inl ⟨rfl, fun hnil hopt => hfull ⟨by simp [hnil], hopt⟩⟩

/-- A choice has a value of the request, unless it overrides the request with a default. -/
theorem Choice.requested_iff (h : c.Taken (config.visitor d) request)
    (hgiven : request.values c.predicate.keyword ≠ []) :
    c.Requested config request c.value ↔ ¬ c.Overrides config request := by
  obtain ⟨offered, hoffered, hmem⟩ := h
  constructor
  · rintro hreq ⟨-, hopt, hvalues, hdefault⟩
    rcases Predicate.offered_ok hoffered with ⟨hsome, -⟩ | ⟨-, -, default, hd, rfl⟩
    · obtain rfl : [] = offered := Except.ok.inj (hvalues.symm.trans hsome)
      cases hmem
    · exact hdefault default hd (List.mem_singleton.mp hmem ▸ hreq)
  · intro hnot
    rcases Predicate.offered_ok hoffered with ⟨hsome, -⟩ | ⟨hnone, hopt, default, hd, rfl⟩
    · exact MultiRetrieveVisitor.requested_of_values hsome hmem
    · rw [List.mem_singleton.mp hmem]
      by_contra hreq
      refine hnot ⟨hgiven, hopt, hnone, fun default' hd' => ?_⟩
      rw [hd] at hd'
      exact Except.ok.inj hd' ▸ hreq

/-- The element at the end of a branch has the values that the branch took. -/
theorem Inspector.Finds.value_eq (h : i.Finds config d request choices e) {level : Nat}
    {cs : List (Choice MultiRetrieveVisitor)} (hcs : choices[level]? = some cs)
    (hc : Choice.last cs keyword = some c) :
    ((e.levelKey level).find keyword).getD "" = c.value ∧ c.predicate.keyword = keyword ∧
      c.Taken (config.visitor d) request := by
  obtain ⟨key, v, ho, hfound⟩ := h
  have hkeeps : (config.visitor d).Keeps config.schema.rules _ _ _ :=
    MultiRetrieveVisitor.keeps (G := fun _ => True) (fun _ _ _ => trivial) fun _ _ _ _ _ _ => trivial
  obtain ⟨c₀, c₁, c₂, r₀, r₁, r₂, rfl, rfl, hin, htaken⟩ := hkeeps.occurs (fun _ _ => trivial) ho
  obtain ⟨-, db, hdb, hkey, hindex⟩ := hin
  obtain ⟨hmem, hkeyword⟩ := findRev?_mem hc
  have hvalue : ∀ registry, (Choice.key registry cs).find keyword = some c.value := fun registry =>
    Choice.find_pushAll.trans (by rw [hc]; rfl)
  rw [MultiRetrieveVisitor.found, hdb, Option.bind_some] at hfound
  split at hfound
  · cases hfound
    refine ⟨?_, of_decide_eq_true hkeyword, ?_⟩
    · rcases level with _ | _ | _ | level <;> cases hcs
      · exact congrArg (·.getD "") ((congrArg (·[keyword]?) hkey).trans (hvalue r₀))
      · exact congrArg (·.getD "") ((congrArg (·[keyword]?) hindex).trans (hvalue r₁))
      · exact MultiRetrieveVisitor.find_simplifiedKey.trans (congrArg (·.getD "") (hvalue r₂))
    · apply htaken c
      rcases level with _ | _ | _ | level <;> cases hcs <;> simp [hmem]
  · cases hfound

/-- An element answers a request if and only if no choice on its branch overrides it. -/
theorem Inspector.Finds.answers_iff (h : i.Finds config d request choices e) :
    e.Answers config request choices ↔
      ∀ cs ∈ choices, ∀ keyword c, Choice.last cs keyword = some c → ¬ c.Overrides config request := by
  constructor
  · intro hans cs hcs keyword c hc hover
    obtain ⟨level, hlevel⟩ := List.getElem?_of_mem hcs
    obtain ⟨hvalue, rfl, htaken⟩ := h.value_eq hlevel hc
    have hreq := hans level cs _ c hlevel hc hover.1
    rw [hvalue] at hreq
    exact (Choice.requested_iff htaken hover.1).mp hreq hover
  · intro hnone level cs keyword c hlevel hc hgiven
    obtain ⟨hvalue, rfl, htaken⟩ := h.value_eq hlevel hc
    rw [hvalue]
    exact (Choice.requested_iff htaken hgiven).mpr (hnone cs (List.mem_of_getElem? hlevel) _ c hc)

/-- What an inspection lists is what it finds on the branches of its expansion. -/
theorem Inspector.mem_inspect {i' : Inspector} {elements : List ListElement}
    (h : (Inspector.inspect config d request).run i = .ok elements i') :
    e ∈ elements ↔ ∃ choices, i.Finds config d request choices e := by
  have hends : Ends (inspect config d request) i
      (fun elements _ => ∀ e, e ∈ elements ↔ ∃ choices, i.Finds config d request choices e) fun _ _ => True := by
    rw [inspect, ends_bind, ends_get]
    split
    · rename_i v hrun
      rw [ends_bind, ends_set, ends_pure]
      intro e
      have hnotes : (config.visitor d).Notes _ _ := MultiRetrieveVisitor.notes
      refine (hnotes.ends_expandRequest.ok hrun e).trans ?_
      simp only [List.not_mem_nil, false_or, Finds]
    · trivial
  exact hends.ok h e

/-- Inspection is sound if and only if no branch that ends in a field has a choice that overrides the
request with a default. -/
theorem inspect_sound_iff {i' : Inspector} {elements : List ListElement}
    (h : (Inspector.inspect config d request).run i = .ok elements i') :
    (∀ e, e ∈ elements ↔ ∃ choices, i.Finds config d request choices e) ∧
    ((∀ choices e, i.Finds config d request choices e → e.Answers config request choices) ↔
      ∀ choices e, i.Finds config d request choices e → ∀ cs ∈ choices, ∀ keyword c,
        Choice.last cs keyword = some c → ¬ c.Overrides config request) :=
  ⟨fun _ => Inspector.mem_inspect h,
    forall_congr' fun _ => forall_congr' fun _ => forall_congr' fun hf => hf.answers_iff⟩

end Sound

section Sample

/-- A database of class od with one index for each of some keys, with its axes and fields. -/
def sampleDatabase (schema : Schema)
    (indexes : List (Key × List (String × List String) × List String)) : Disk where
  writes := [.schema (TocHandler.schemaPath "/od") schema,
      .toc (TocHandler.tocPath "/od") (.init (Key.ofList [("class", "od")] none))] ++
    indexes.zipIdx.flatMap fun x =>
      let path : PathName := ⟨"/od", ⟨"fields", some x.2, ".index"⟩⟩
      [.segment path 0 (Std.ExtTreeMap.ofList (x.1.2.2.map fun f => (f, (⟨0, 0, 1⟩ : FieldRef)))),
       .toc (TocHandler.tocPath "/od") (.index path.baseName 0 {
        files := [.path (.relative ⟨"fields", some x.2, ".data"⟩)]
        axes := Std.ExtTreeMap.ofList (x.1.2.1.map fun kv => (kv.1, Std.ExtTreeSet.ofList kv.2))
        key := x.1.1
        type := "BTreeIndex" })]

def sampleConfig (schema : Schema) : DbConfig where
  schema
  directory _ _ := .ok ⟨"/od", fun _ => true⟩
  mars := ⟨fun _ value => .ok value, fun steps _ => .ok steps, fun user axis => .ok (user, axis)⟩
  version := 3
  depth := 1
  fdbMaxOpenDatabases := 16

/-- Ensemble members have numbers, and number 0 stands for fields without one. -/
def numberSchema : Schema where
  registry := .untyped
  rules := [.mk 1 [⟨"class", .always⟩] [.mk 1 [⟨"type", .always⟩]
    [.mk 1 [⟨"param", .always⟩, ⟨"number", .optional "0"⟩] [] .untyped] .untyped] .untyped]

def unnumbered : Disk :=
  sampleDatabase numberSchema [(Key.ofList [("type", "an")] none, [("param", ["130"]), ("number", ["0"])], ["130:0"])]

def memberFive : MarsRequest := ⟨[("class", ["od"]), ("type", ["an"]), ("param", ["130"]), ("number", ["5"])]⟩

/-- Number 5 is asked for, and number 0 is found. -/
theorem unsound_memberFive : numberSchema.registry.lookupType "number" = .ok typeDefault ∧
    memberFive.values "number" = ["5"] ∧ ∃ elements i',
      (Inspector.inspect (sampleConfig numberSchema) unnumbered memberFive).run {} = .ok elements i' ∧
      elements.map (fun e => e.datumKey.find "number") = [some "0"] ∧
      typeDefault.canonicalise "number" "0" ≠ typeDefault.canonicalise "number" "5" :=
  ⟨rfl, rfl, _, _, rfl, rfl, by decide⟩

theorem sound_memberFive : ∃ elements i',
    (Inspector.inspect (sampleConfig numberSchema) unnumbered memberFive).run {} = .ok elements i' ∧
    (∀ e, e ∈ elements ↔ ∃ choices, Inspector.Finds (sampleConfig numberSchema) unnumbered memberFive {} choices e) ∧
    ((∀ choices e, Inspector.Finds (sampleConfig numberSchema) unnumbered memberFive {} choices e →
        e.Answers (sampleConfig numberSchema) memberFive choices) ↔
      ∀ choices e, Inspector.Finds (sampleConfig numberSchema) unnumbered memberFive {} choices e →
        ∀ cs ∈ choices, ∀ keyword c, Choice.last cs keyword = some c →
          ¬ c.Overrides (sampleConfig numberSchema) memberFive) :=
  ⟨_, _, rfl, inspect_sound_iff rfl⟩

end Sample

end Fdb5
