import Fdb5.Library.LastWins
import Fdb5.Toc.Catalogue

/-! `SelectFDB`: a field goes to the first sub-FDB whose criteria its key meets. -/
namespace Fdb5

open Effect

abbrev SelectMap := Std.ExtTreeMap String Regex

/-- `parseFDBSelect`; `tokenizer` is `eckit::Tokenizer` of a separator. -/
def parseFDBSelect (tokenizer : Char → String → List String) (regex : String → Regex) (select : String) :
    Except Failure SelectMap :=
  (tokenizer ',' select).foldlM (fun selectDict keyValue =>
    match tokenizer '=' keyValue with
    | [key, value] =>
      if key ∈ selectDict then .error (.userError ("Invalid select condition for pool: " ++ select))
      else .ok (selectDict.insert key (regex value))
    | _ => .error (.userError ("Invalid select condition for pool: " ++ select))) ∅

structure FDBToolRequest where
  request : MarsRequest
  all : Bool := false

/-- A field of the key is among those that the request asks for. -/
def MarsRequest.meets (rq : MarsRequest) (key : StringDict) : Bool := Key.partialMatch { keys := key } rq

/-- A sub-FDB, with the location of the last archive of each key. -/
structure SubFDB (L : Type) where
  fields : List (StringDict × L) := []

namespace SubFDB

variable {L : Type}

def archive (key : StringDict) (location : L) (fdb : SubFDB L) : SubFDB L := ⟨LastWins.put fdb.fields (key, location)⟩

def inspect (rq : MarsRequest) (fdb : SubFDB L) : List (StringDict × L) := fdb.fields.filter fun f => rq.meets f.1

def list (request : FDBToolRequest) (fdb : SubFDB L) : List (StringDict × L) := fdb.inspect request.request

end SubFDB

namespace SelectMap

/-- `matches(key, select, requireMissing)`. -/
def matchesKey (select : SelectMap) (key : StringDict) (requireMissing : Bool) : Bool :=
  select.toList.all fun kv =>
    match key[kv.1]? with
    | none => !requireMissing
    | some value => kv.2 value

/-- `matches(request, select, requireMissing)`. -/
def matchesRequest (select : SelectMap) (rq : MarsRequest) (requireMissing : Bool) : Bool :=
  select.toList.all fun kv =>
    if (rq.values kv.1).isEmpty then !requireMissing else (rq.values kv.1).any kv.2

end SelectMap

/-- `subFdbs_`. -/
abbrev SelectFDB (L : Type) := List (SelectMap × SubFDB L)

namespace SelectFDB

variable {L : Type}

/-- The constructor, from the select criteria of the sub-FDBs. -/
def construct (selects : List SelectMap) : SelectFDB L := selects.map fun select => (select, {})

def archive (key : StringDict) (location : L) : SelectFDB L → Except Failure (SelectFDB L)
  | [] => .error (.userError "No matching fdb for key")
  | (select, fdb) :: rest =>
    if select.matchesKey key true then .ok ((select, fdb.archive key location) :: rest)
    else do return (select, fdb) :: (← archive key location rest)

def inspect (rq : MarsRequest) (subFdbs : SelectFDB L) : List (StringDict × L) :=
  subFdbs.flatMap fun sub => if sub.1.matchesRequest rq true then sub.2.inspect rq else []

/-- `queryInternal` of a query that sends a list of elements. -/
def queryInternal (request : FDBToolRequest) (fn : SubFDB L → List (StringDict × L)) (subFdbs : SelectFDB L) :
    List (StringDict × L) :=
  subFdbs.flatMap fun sub => if sub.1.matchesRequest request.request false || request.all then fn sub.2 else []

def list (request : FDBToolRequest) (subFdbs : SelectFDB L) : List (StringDict × L) :=
  subFdbs.queryInternal request (SubFDB.list request)

/-- An archive on an FDB, with the archives that have returned. One that throws changes nothing. -/
def step (run : SelectFDB L × List (StringDict × L)) (field : StringDict × L) : SelectFDB L × List (StringDict × L) :=
  match archive field.1 field.2 run.1 with
  | .ok subFdbs => (subFdbs, run.2 ++ [field])
  | .error _ => run

/-- A query returns the fields that were archived and are asked for, each once and where its last archive put it. -/
def ReturnsArchived (out archived : List (StringDict × L)) (rq : MarsRequest) : Prop :=
  (out.map Prod.fst).Nodup ∧
  ∀ key location, (key, location) ∈ out ↔
    archived.findRev? (fun f => f.1 = key) = some (key, location) ∧ rq.meets key = true

/-- The request gives every keyword that a sub-FDB selects by. -/
def GivesSelecting (selects : List SelectMap) (rq : MarsRequest) : Prop :=
  ∀ select ∈ selects, ∀ kv ∈ select.toList, rq.values kv.1 ≠ []

/-- The lists, and the inspections that give every selecting keyword, return what was archived. -/
def ReadsItsWrites (selects : List SelectMap) (run : SelectFDB L × List (StringDict × L)) : Prop :=
  (∀ request : FDBToolRequest, ReturnsArchived (run.1.list request) run.2 request.request) ∧
  ∀ rq, GivesSelecting selects rq → ReturnsArchived (run.1.inspect rq) run.2 rq

/-- Each sub-FDB has, of the fields that those before it did not take, the ones that meet its criteria. -/
def Routed : SelectFDB L → List (StringDict × L) → Prop
  | [], archived => archived = []
  | (select, fdb) :: rest, archived =>
    fdb.fields = LastWins.entries (archived.filter fun f => select.matchesKey f.1 true) ∧
    Routed rest (archived.filter fun f => !select.matchesKey f.1 true)

variable {subFdbs subFdbs' : SelectFDB L} {archived : List (StringDict × L)} {key : StringDict} {location : L}
  {rq : MarsRequest} {select : SelectMap} {queried : SelectMap → Bool}

section Matching

theorem value_mem (h : rq.meets key = true) {keyword value : String} (hkey : key[keyword]? = some value)
    (hne : rq.values keyword ≠ []) : value ∈ rq.values keyword := by
  have hall := List.all_eq_true.mp h (keyword, value) (Std.ExtTreeMap.mem_toList_iff_getElem?_eq_some.mpr hkey)
  simpa [hne] using hall

/-- A request for a field meets the criteria that the field's key does, if only it gives what they are about. -/
theorem matchesRequest_of_matchesKey {requireMissing : Bool} (hkey : select.matchesKey key true = true)
    (hmeets : rq.meets key = true) (hgiven : requireMissing = true → ∀ kv ∈ select.toList, rq.values kv.1 ≠ []) :
    select.matchesRequest rq requireMissing = true := by
  apply List.all_eq_true.mpr
  intro kv hkv
  have hmatch := List.all_eq_true.mp hkey kv hkv
  cases hvalue : key[kv.1]? with
  | none => simp [hvalue] at hmatch
  | some value =>
    rw [hvalue] at hmatch
    split
    · rename_i hempty
      cases requireMissing with
      | false => rfl
      | true => exact absurd (List.isEmpty_iff.mp hempty) (hgiven rfl kv hkv)
    · rename_i hne
      exact List.any_eq_true.mpr ⟨value, value_mem hmeets hvalue (by simpa using hne), hmatch⟩

end Matching

section Routing

theorem routed_construct (selects : List SelectMap) : Routed (construct selects : SelectFDB L) [] := by
  induction selects with
  | nil => rfl
  | cons select selects ih => exact ⟨rfl, ih⟩

theorem routed_archive (h : Routed subFdbs archived) (ha : archive key location subFdbs = .ok subFdbs') :
    Routed subFdbs' (archived ++ [(key, location)]) ∧ subFdbs'.map Prod.fst = subFdbs.map Prod.fst := by
  induction subFdbs generalizing archived subFdbs' with
  | nil => cases ha
  | cons sub rest ih =>
    obtain ⟨select, fdb⟩ := sub
    obtain ⟨hfields, hrest⟩ := h
    rw [archive] at ha
    split at ha
    · rename_i hmatch
      obtain rfl : _ = subFdbs' := Except.ok.inj ha
      refine ⟨⟨?_, ?_⟩, rfl⟩
      · simp [SubFDB.archive, hfields, List.filter_append, hmatch, LastWins.entries_concat]
      · simpa [List.filter_append, hmatch] using hrest
    · rename_i hmatch
      simp only [except_bind_ok, except_pure_ok] at ha
      obtain ⟨rest', hok, rfl⟩ := ha
      obtain ⟨hrouted, hselects⟩ := ih hrest hok
      refine ⟨⟨?_, ?_⟩, by simp [hselects]⟩
      · simp [hfields, List.filter_append, hmatch]
      · simpa [List.filter_append, hmatch] using hrouted

theorem mem_routed {sub : SelectMap × SubFDB L} {f : StringDict × L} (h : Routed subFdbs archived) (hsub : sub ∈ subFdbs)
    (hf : f ∈ sub.2.fields) : f ∈ archived := by
  induction subFdbs generalizing archived with
  | nil => cases hsub
  | cons first rest ih =>
    obtain ⟨hfields, hrest⟩ := h
    rcases List.mem_cons.mp hsub with rfl | hsub
    · rw [hfields] at hf
      exact List.mem_of_mem_filter (LastWins.findRev?_mem (LastWins.mem_entries.mp hf)).1
    · exact List.mem_of_mem_filter (ih hrest hsub)

theorem fields_of_queried {sub : SelectMap × SubFDB L} {f : StringDict × L}
    (hf : f ∈ if queried sub.1 then sub.2.inspect rq else []) : f ∈ sub.2.fields := by
  split at hf
  · exact List.mem_of_mem_filter hf
  · cases hf

theorem mem_query (h : Routed subFdbs archived)
    (hq : ∀ sub ∈ subFdbs, ∀ key, sub.1.matchesKey key true = true → rq.meets key = true → queried sub.1 = true) :
    (key, location) ∈ (subFdbs.flatMap fun sub => if queried sub.1 then sub.2.inspect rq else []) ↔
      archived.findRev? (fun f => f.1 = key) = some (key, location) ∧ rq.meets key = true := by
  induction subFdbs generalizing archived with
  | nil =>
    obtain rfl : archived = [] := h
    simp
  | cons sub rest ih =>
    obtain ⟨select, fdb⟩ := sub
    obtain ⟨hfields, hrest⟩ := h
    have hfirst : (key, location) ∈ fdb.fields ↔
        select.matchesKey key true = true ∧ archived.findRev? (fun f => f.1 = key) = some (key, location) := by
      rw [hfields, LastWins.mem_entries, LastWins.findRev?_filter_key (q := fun k => select.matchesKey k true)]
      cases select.matchesKey key true <;> simp
    have htail := ih hrest fun sub hsub => hq sub (.tail _ hsub)
    rw [LastWins.findRev?_filter_key (q := fun k => !select.matchesKey k true)] at htail
    rw [List.flatMap_cons, List.mem_append, htail]
    cases hmatch : select.matchesKey key true with
    | false =>
      have hnot : (key, location) ∉ fdb.fields := fun hmem => by simp [hmatch] at hfirst; exact hfirst hmem
      split <;> simp [SubFDB.inspect, hnot]
    | true =>
      have hqueried := hq (select, fdb) (.head _) key hmatch
      split
      · simp [SubFDB.inspect, hfirst, hmatch]
      · rename_i hne
        have hmeets : rq.meets key = false := by simpa using fun hm => hne (hqueried hm)
        simp [hmeets]

theorem nodup_query (h : Routed subFdbs archived) :
    ((subFdbs.flatMap fun sub => if queried sub.1 then sub.2.inspect rq else []).map Prod.fst).Nodup := by
  induction subFdbs generalizing archived with
  | nil => exact .nil
  | cons sub rest ih =>
    obtain ⟨select, fdb⟩ := sub
    obtain ⟨hfields, hrest⟩ := h
    have hfirst : ∀ f ∈ (if queried select then fdb.inspect rq else []), select.matchesKey f.1 true = true := by
      intro f hf
      have hmem : f ∈ fdb.fields := (fields_of_queried hf : f ∈ (select, fdb).2.fields)
      rw [hfields] at hmem
      exact (List.mem_filter.mp (LastWins.findRev?_mem (LastWins.mem_entries.mp hmem)).1).2
    have hlater : ∀ f ∈ rest.flatMap (fun sub => if queried sub.1 then sub.2.inspect rq else []),
        select.matchesKey f.1 true = false := by
      intro f hf
      obtain ⟨sub, hsub, hf⟩ := List.mem_flatMap.mp hf
      have hmem := mem_routed hrest hsub (fields_of_queried hf)
      simpa using (List.mem_filter.mp hmem).2
    rw [List.flatMap_cons, List.map_append, List.nodup_append]
    refine ⟨?_, ih hrest, ?_⟩
    · split
      · have hnodup : (fdb.fields.map Prod.fst).Nodup := by
          rw [hfields]
          exact LastWins.nodup_entries
        exact hnodup.sublist ((List.filter_sublist).map _)
      · exact .nil
    · rintro key hkey key' hkey' rfl
      obtain ⟨f, hf, rfl⟩ := List.mem_map.mp hkey
      obtain ⟨f', hf', heq⟩ := List.mem_map.mp hkey'
      have hno := hlater f' hf'
      rw [heq, hfirst f hf] at hno
      cases hno

theorem returnsArchived_query (h : Routed subFdbs archived)
    (hq : ∀ sub ∈ subFdbs, ∀ key, sub.1.matchesKey key true = true → rq.meets key = true → queried sub.1 = true) :
    ReturnsArchived (subFdbs.flatMap fun sub => if queried sub.1 then sub.2.inspect rq else []) archived rq :=
  ⟨nodup_query h, fun _ _ => mem_query h hq⟩

theorem routed_run (selects : List SelectMap) (calls : List (StringDict × L)) :
    let run := calls.foldl step (construct selects, [])
    Routed run.1 run.2 ∧ run.1.map Prod.fst = selects := by
  induction calls using List.reverseRecOn with
  | nil => exact ⟨routed_construct selects, by simp [construct, Function.comp_def]⟩
  | append_singleton calls field ih =>
    rw [List.foldl_append]
    obtain ⟨hrouted, hselects⟩ := ih
    simp only [List.foldl_cons, List.foldl_nil, step]
    split
    · rename_i hok
      obtain ⟨hnext, hsame⟩ := routed_archive hrouted hok
      exact ⟨hnext, hsame.trans hselects⟩
    · exact ⟨hrouted, hselects⟩

/-- After any archives a list, and an inspection that gives every selecting keyword, returns each archived field that is
asked for, from one sub-FDB and with its last location. -/
theorem reads_its_writes (selects : List SelectMap) (calls : List (StringDict × L)) :
    ReadsItsWrites selects (calls.foldl step (construct selects, [])) := by
  obtain ⟨hrouted, hselects⟩ := routed_run selects calls
  constructor
  · intro request
    let queried (select : SelectMap) : Bool := select.matchesRequest request.request false || request.all
    have hquery : ∀ sub ∈ (calls.foldl step (construct selects, [])).1, ∀ key, sub.1.matchesKey key true = true →
        request.request.meets key = true → queried sub.1 = true := by
      intro sub _ key hkey hmeets
      have hmatch : sub.1.matchesRequest request.request false = true := matchesRequest_of_matchesKey hkey hmeets (by simp)
      simp [queried, hmatch]
    exact returnsArchived_query hrouted hquery
  · intro rq hgives
    let queried (select : SelectMap) : Bool := select.matchesRequest rq true
    have hquery : ∀ sub ∈ (calls.foldl step (construct selects, [])).1, ∀ key, sub.1.matchesKey key true = true →
        rq.meets key = true → queried sub.1 = true := by
      intro sub hsub key hkey hmeets
      apply matchesRequest_of_matchesKey hkey hmeets
      intro _ kv hkv
      exact hgives sub.1 (by rw [← hselects]; exact List.mem_map_of_mem hsub) kv hkv
    exact returnsArchived_query hrouted hquery

end Routing

end SelectFDB

end Fdb5
