import Fdb5.Library.Search
import Fdb5.Rules.Walk

/-! Which path of rules an expansion follows: the first, depth first, that accepts the field. -/
namespace Fdb5

open Effect Search

/-- The three keys that a datum is filed under. -/
structure Filed where
  database : StringDict
  index : StringDict
  datum : Key

/-- A visitor that keeps what is selected and the data it was called for. -/
structure Recorder where
  database : StringDict := ∅
  index : StringDict := ∅
  data : List Filed := []

def recorder (s : Schema) : WriteVisitor Recorder where
  selectDatabase key _ := do
    modify fun r => { r with database := key.keys, index := ∅ }
    return true
  selectIndex key _ := do
    modify fun r => { r with index := key.keys }
    return true
  selectDatum key _ := do
    modify fun r => { r with data := r.data ++ [⟨r.database, r.index, key⟩] }
    return true
  databaseSchema := return s

structure Path where
  first : Rule
  second : Rule
  third : Rule

namespace Schema

variable (s : Schema) (field : Key)

/-- The rule whose children the expansion goes on to after `f`: the first one that matches the
key `f` assigned. -/
def below (f : Rule) : Rule :=
  match f.assign field with
  | .ok (some dbKey) => (s.databaseRule dbKey).getD f
  | _ => f

/-- The paths that an expansion can follow, depth first. -/
def paths : List Path :=
  s.rules.flatMap fun f => (s.below field f).rules.flatMap fun i => i.rules.map fun r => ⟨f, i, r⟩

/-- What a path makes of the field: it is stuck, refuses it, or assigns the three keys. -/
def outcome (p : Path) : Except Failure (Option (RulePtr × Filed)) := do
  match ← p.first.assign field with
  | none => return none
  | some k0 =>
    match s.databaseRule k0 with
    | none => throw (.assertion "dbRule")
    | some d =>
      match ← p.second.assign field with
      | none => return none
      | some k1 =>
        match ← p.third.assign field with
        | none => return none
        | some k2 => return some (⟨p.third, [p.second, d]⟩, ⟨k0.keys, k1.keys, k2⟩)

end Schema

section Search

variable (field : Key)

def Rule.searchDatum (parents : List Rule) (database index : StringDict) (r : Rule) :
    Except Failure (Option (RulePtr × Filed)) := do
  match ← r.assign field with
  | none => return none
  | some k => return some (⟨r, parents⟩, ⟨database, index, k⟩)

def Rule.searchIndex (parents : List Rule) (database : StringDict) (i : Rule) :
    Except Failure (Option (RulePtr × Filed)) := do
  match ← i.assign field with
  | none => return none
  | some k => i.rules.findSomeM? (Rule.searchDatum field (i :: parents) database k.keys)

def Schema.searchDatabase (s : Schema) (f : Rule) : Except Failure (Option (RulePtr × Filed)) := do
  match ← f.assign field with
  | none => return none
  | some k =>
    match s.databaseRule k with
    | none => throw (.assertion "dbRule")
    | some d => d.rules.findSomeM? (Rule.searchIndex field [d] k.keys)

/-- The search that an expansion performs, without the visitor. -/
def Schema.search (s : Schema) : Except Failure (Option (RulePtr × Filed)) :=
  s.rules.findSomeM? (s.searchDatabase field)

end Search

/-- Every branch of the schema has its three levels. -/
structure Schema.ThreeLevels (s : Schema) : Prop where
  second : ∀ f ∈ s.rules, f.rules ≠ []
  third : ∀ f ∈ s.rules, ∀ i ∈ f.rules, i.rules ≠ []
  leaf : ∀ f ∈ s.rules, ∀ i ∈ f.rules, ∀ r ∈ i.rules, r.rules = []

namespace Rule

theorem depth_eq (r : Rule) : r.depth = depths r.rules + 1 := by
  cases r with
  | mk => rw [depth, rules]

theorem depth_le_depths {r : Rule} : ∀ {rs : List Rule}, r ∈ rs → r.depth ≤ depths rs
  | r' :: rs, h => by
    rw [depths]
    rcases List.mem_cons.mp h with rfl | h
    · exact Nat.le_max_left _ _
    · exact Nat.le_trans (depth_le_depths h) (Nat.le_max_right _ _)

theorem depth_child {r c : Rule} (h : c ∈ r.rules) : c.depth < r.depth := by
  rw [depth_eq r]
  exact Nat.lt_succ_of_le (depth_le_depths h)

theorem rules_of_depth_one {r : Rule} (h : r.depth ≤ 1) : r.rules = [] := by
  refine List.eq_nil_iff_forall_not_mem.mpr fun c hc => ?_
  have := depth_child hc
  have := depth_eq c
  omega

end Rule

namespace Schema

variable {s : Schema} {field : Key}

theorem check_depth (h : s.check = .ok ()) : ∀ f ∈ s.rules, f.depth = 3 := by
  obtain ⟨registry, rules⟩ := s
  change rules.forM _ = _ at h
  induction rules with
  | nil => simp
  | cons f rules ih =>
    change ((assert (f.depth = 3) _) >>= fun _ => rules.forM _) = _ at h
    by_cases hf : f.depth = 3
    · intro f' hf'
      rcases List.mem_cons.mp hf' with rfl | hf'
      · exact hf
      · rw [assert, if_pos hf] at h
        exact ih h f' hf'
    · rw [assert, if_neg hf] at h
      cases h

/-- `Schema::check` leaves open only whether a second-level rule has rules below it. -/
theorem threeLevels_of_check (h : s.check = .ok ())
    (hi : ∀ f ∈ s.rules, ∀ i ∈ f.rules, i.rules ≠ []) : s.ThreeLevels where
  second f hf hnil := by
    have := check_depth h f hf
    rw [Rule.depth_eq, hnil, Rule.depths] at this
    omega
  third := hi
  leaf f hf i hif r hr := by
    have := check_depth h f hf
    have := Rule.depth_child hif
    have := Rule.depth_child hr
    exact Rule.rules_of_depth_one (by omega)

theorem databaseRule_mem {k : Key} {d : Rule} (h : s.databaseRule k = some d) : d ∈ s.rules :=
  List.mem_of_find?_eq_some h

/-- The paths of a three-level schema give the search candidate by candidate. -/
theorem search_eq_paths (h : s.ThreeLevels) :
    s.search field = (s.paths field).findSomeM? (s.outcome field) := by
  rw [paths, findSomeM?_flatMap, search]
  refine findSomeM?_congr fun f hf => ?_
  have hsome : ∀ {d : Rule}, d ∈ s.rules →
      (d.rules.flatMap fun i => i.rules.map fun r => (⟨f, i, r⟩ : Path)) ≠ [] := by
    intro d hd hnil
    obtain ⟨i, hi⟩ := List.exists_mem_of_ne_nil _ (h.second d hd)
    have := List.flatMap_eq_nil_iff.mp hnil i hi
    exact h.third d hd i hi (by simpa using this)
  have hfirst : ∀ {d : Rule}, ∀ p ∈ d.rules.flatMap fun i => i.rules.map fun r =>
      (⟨f, i, r⟩ : Path), p.first = f := by
    intro d p hp
    simp only [List.mem_flatMap, List.mem_map] at hp
    obtain ⟨_, _, _, _, rfl⟩ := hp
    rfl
  rw [searchDatabase, below]
  match hk : f.assign field with
  | .error e =>
    refine (findSomeM?_const (hsome hf) fun p hp => ?_).symm
    rw [outcome, hfirst p hp, hk]; rfl
  | .ok none =>
    refine (findSomeM?_const (hsome hf) fun p hp => ?_).symm
    rw [outcome, hfirst p hp, hk]; rfl
  | .ok (some k0) =>
    match hd : s.databaseRule k0 with
    | none =>
      simp only [hd, Option.getD_none, bind, Except.bind]
      refine (findSomeM?_const (hsome hf) fun p hp => ?_).symm
      rw [outcome, hfirst p hp, hk]
      simp only [hd, bind, Except.bind]
    | some d =>
      simp only [hd, Option.getD_some, bind, Except.bind]
      rw [findSomeM?_flatMap]
      refine findSomeM?_congr fun i hi => ?_
      have hi' := h.third d (databaseRule_mem hd) i hi
      rw [findSomeM?_map, Rule.searchIndex]
      match hk1 : i.assign field with
      | .error e =>
        refine (findSomeM?_const hi' fun r _ => ?_).symm
        simp [outcome, hk, hd, hk1, bind, Except.bind]
      | .ok none =>
        refine (findSomeM?_const hi' fun r _ => ?_).symm
        simp only [outcome, hk, hd, hk1, bind, Except.bind]
      | .ok (some k1) =>
        refine findSomeM?_congr fun r _ => ?_
        simp only [outcome, hk, hd, hk1, bind, Except.bind, Rule.searchDatum]

end Schema

/-- The recorder agrees with the visitor's memory of the last keys, and since `data` it was
called for what `found` says. -/
structure Recorded (data : List Filed) (found : Option (RulePtr × Filed))
    (t : WriteState Recorder) : Prop where
  database : t.prev0.keys = t.visitor.database
  index : t.prev1.keys = t.visitor.index
  rule : t.rule = found.map (·.1)
  data : t.visitor.data = data ++ (found.map (·.2)).toList

section Recorder

variable {s : Schema} {field key full : Key} {data : List Filed} {t : WriteState Recorder}
  {database index : StringDict} {found : Option (RulePtr × Filed)} {parents : List Rule}
  {w₀ w : Workspace} {r : Rule}

theorem ends_visitDatabase (h : Recorded data none t) :
    Ends ((recorder s).visitDatabase key full) t
      (fun _ u => Recorded data none u ∧ u.visitor.database = key.keys) fun _ _ => False := by
  rw [WriteVisitor.visitDatabase]
  simp only [ends_bind, ends_get, ends_ite, ends_pure, ends_modify, ends_focus, recorder,
    and_true]
  refine ⟨fun _ => ⟨rfl, rfl, h.rule, h.data⟩, fun hne => ⟨h, ?_⟩⟩
  rw [← h.database, not_not.mp hne]

theorem ends_visitIndex (h : Recorded data none t) :
    Ends ((recorder s).visitIndex key full) t
      (fun _ u => Recorded data none u ∧ u.visitor.database = t.visitor.database ∧
        u.visitor.index = key.keys) fun _ _ => False := by
  rw [WriteVisitor.visitIndex]
  simp only [ends_bind, ends_get, ends_ite, ends_pure, ends_modify, ends_focus, recorder,
    and_true, true_and]
  refine ⟨fun _ => ⟨h.database, rfl, h.rule, h.data⟩, fun hne => ⟨h, ?_⟩⟩
  rw [← h.index, not_not.mp hne]

theorem ends_visitDatum {p : RulePtr} (h : Recorded data none t) :
    Ends ((recorder s).visitDatum p key full) t
      (fun _ u => Recorded data (some (p, ⟨t.visitor.database, t.visitor.index, key⟩)) u ∧
        u.visitor.database = t.visitor.database ∧ u.visitor.index = t.visitor.index)
      fun _ _ => False := by
  have hdata : t.visitor.data = data := by simpa using h.data
  rw [WriteVisitor.visitDatum]
  simp only [ends_bind, ends_get, ends_ite, ends_throw, ends_pure, ends_modify, ends_focus,
    recorder, and_true]
  refine ⟨fun hs => by simp [h.rule] at hs, fun _ => ⟨h.database, h.index, rfl, ?_⟩⟩
  rw [hdata]; rfl

theorem Recorded.select (h : Recorded data none t) : ¬ (true = true ∧ t.rule.isSome) := by
  simp [h.rule]

theorem ends_datum (s : Schema) (field : Key) (parents : List Rule) (hr : r.rules = []) (hw : w.Ready 2) (h : Recorded data none t) :
    Ends (Rule.expand true (recorder s) field 1 parents r w) t
      (fun w' u => ∃ o, r.searchDatum field parents t.visitor.database t.visitor.index = .ok o ∧
        w.Back 2 w' ∧ Recorded data o u ∧ u.visitor.database = t.visitor.database ∧
        u.visitor.index = t.visitor.index)
      fun e u => r.searchDatum field parents t.visitor.database t.visitor.index = .error e ∧
        Recorded data none u := by
  refine Rule.ends_expand_datum h.select hw (absurd hr) (fun e he => ⟨?_, h⟩) (fun hn w' hb => ?_)
    fun k full hk => ?_
  · rw [Rule.searchDatum, he]; rfl
  · exact ⟨none, by rw [Rule.searchDatum, hn]; rfl, hb, h, rfl, rfl⟩
  · refine (ends_visitDatum h).mono (fun _ u hu w' hb => ?_) fun _ _ h => h.elim
    exact ⟨_, by rw [Rule.searchDatum, hk]; rfl, hb, hu⟩

theorem ends_index (s : Schema) (field : Key) (parents : List Rule) (hr : r.rules ≠ []) (hleaf : ∀ c ∈ r.rules, c.rules = []) (hw : w.Ready 1)
    (h : Recorded data none t) :
    Ends (Rule.expand true (recorder s) field 2 parents r w) t
      (fun w' u => ∃ o, r.searchIndex field parents t.visitor.database = .ok o ∧
        w.Back 1 w' ∧ Recorded data o u ∧ u.visitor.database = t.visitor.database)
      fun e u => r.searchIndex field parents t.visitor.database = .error e ∧ Recorded data none u := by
  refine Rule.ends_expand_index h.select hw (absurd · hr) (fun e he => ⟨?_, h⟩) (fun hn w' hb => ?_)
    fun k w₁ hk _ hw₁ => ?_
  · rw [Rule.searchIndex, he]; rfl
  · exact ⟨none, by rw [Rule.searchIndex, hn]; rfl, hb, h, rfl⟩
  refine (ends_visitIndex h).mono (fun _ u ⟨hu, hdb, hidx⟩ => ?_) fun _ _ h => h.elim
  have hsearch : r.searchIndex field parents t.visitor.database =
      r.rules.findSomeM? (Rule.searchDatum field (r :: parents) t.visitor.database k.keys) := by
    rw [Rule.searchIndex, hk]; rfl
  rw [hsearch]
  refine (ends_foldlM_findSomeM? (P := fun o w' u => w₁.Back 2 w' ∧ Recorded data o u ∧
    u.visitor.database = t.visitor.database ∧ u.visitor.index = k.keys)
    (fun c hc w' u ⟨hb, hu, hdb, hidx⟩ => ?_) (fun c _ o w' u ⟨hb, hu, hrest⟩ => ?_)
    w₁ u ⟨hw₁.back (by omega), hu, hdb, hidx⟩).mono
    (fun w₂ u ⟨o, ho, hb, hu⟩ => ⟨hb, fun w' hb' => ⟨o, ho, hb', hu.1, hu.2.1⟩⟩) fun _ _ h => h
  · have := ends_datum s field (r :: parents) (hleaf c hc)
      (hb.ready hw₁) hu
    rw [hdb, hidx] at this
    exact this.mono (fun w₂ u ⟨o, ho, hb', hu⟩ => ⟨o, ho, hb.trans hb', hu⟩) fun _ _ h => h
  · refine (Rule.expand_pass rfl (by simp [hu.rule]) 1).mono (fun w₂ u' he => ?_) fun _ _ h => h
    obtain ⟨rfl, rfl⟩ := he
    exact ⟨hb, hu, hrest⟩

theorem ends_database (hs : s.ThreeLevels) (hr : r ∈ s.rules) (hw : w.Ready 0)
    (h : Recorded data none t) :
    Ends (Rule.expand true (recorder s) field 3 [] r w) t
      (fun w' u => ∃ o, s.searchDatabase field r = .ok o ∧ w.Back 0 w' ∧ Recorded data o u)
      fun e u => s.searchDatabase field r = .error e ∧ Recorded data none u := by
  refine Rule.ends_expand_database h.select hw (absurd · (hs.second r hr)) (fun e he => ⟨?_, h⟩)
    (fun hn w' hb => ?_) fun k full hk => ?_
  · rw [Schema.searchDatabase, he]; rfl
  · exact ⟨none, by rw [Schema.searchDatabase, hn]; rfl, hb, h⟩
  apply (ends_visitDatabase h).mono _ fun _ _ h => h.elim
  rintro _ u ⟨hu, hdb⟩
  change Ends (s.expandSecond _ k) u _ _
  rw [Schema.expandSecond]
  cases hd : s.databaseRule k with
  | none =>
    have hsearch : s.searchDatabase field r = .error (.assertion "dbRule") := by
      simp only [Schema.searchDatabase, hk, hd, bind, Except.bind]; rfl
    simpa [hu] using hsearch
  | some d =>
    have hsearch : s.searchDatabase field r =
        d.rules.findSomeM? (Rule.searchIndex field [d] k.keys) := by
      simp only [Schema.searchDatabase, hk, hd, bind, Except.bind]
    have hdm := Schema.databaseRule_mem hd
    simp only [hsearch, ends_bind, ends_pure]
    have hw₁ := Workspace.ready_below s.registry k
    apply Ends.mono (ends_foldlM_findSomeM? (P := fun o w' u =>
      (Workspace.below s.registry k).Back 1 w' ∧ Recorded data o u ∧ u.visitor.database = k.keys)
      ?_ ?_ _ u ⟨hw₁.back (by omega), hu, hdb⟩) _ fun _ _ h => h
    · rintro c hc w' u ⟨hb, hu, hdb⟩
      have hindex := ends_index s field [d] (hs.third d hdm c hc) (hs.leaf d hdm c hc) (hb.ready hw₁) hu
      rw [hdb] at hindex
      apply hindex.mono _ fun _ _ h => h
      rintro w₂ u ⟨o, ho, hb', hu⟩
      exact ⟨o, ho, hb.trans hb', hu⟩
    · rintro c - o w' u ⟨hb, hu, hrest⟩
      apply (Rule.expand_pass rfl (by simp [hu.rule]) 2).mono _ fun _ _ h => h
      rintro w₂ u' ⟨rfl, rfl⟩
      exact ⟨hb, hu, hrest⟩
    · rintro w₂ u ⟨o, ho, hb, hu⟩ w' hb'
      exact ⟨o, ho, hb', hu.1⟩

/-- The expansion calls the recorder for what the search finds, and throws where it does. -/
theorem ends_expand (field : Key) (hs : s.ThreeLevels) (hdb : t.prev0.keys = t.visitor.database)
    (hidx : t.prev1.keys = t.visitor.index) :
    Ends (s.expand true (recorder s) field) t
      (fun _ u => ∃ o, s.search field = .ok o ∧ Recorded t.visitor.data o u)
      fun e u => s.search field = .error e ∧ Recorded t.visitor.data none u := by
  rw [Schema.expand, Schema.search]
  simp only [ends_bind, ends_modify, ends_pure]
  have hw := Workspace.ready_fresh s.registry
  apply Ends.mono (ends_foldlM_findSomeM? (P := fun o w' u =>
    (Workspace.fresh s.registry).Back 0 w' ∧ Recorded t.visitor.data o u) ?_ ?_
    (Workspace.fresh s.registry) { t with rule := none } ⟨hw.back (by omega), ⟨hdb, hidx, rfl, by simp⟩⟩)
    _ fun _ _ h => h
  · rintro c hc w' u ⟨hb, hu⟩
    apply (ends_database hs hc (hb.ready hw) hu).mono _ fun _ _ h => h
    rintro w₂ u ⟨o, ho, hb', hu⟩
    exact ⟨o, ho, hb.trans hb', hu⟩
  · rintro c - o w' u ⟨hb, hu⟩
    apply (Rule.expand_pass rfl (by simp [hu.rule]) 3).mono _ fun _ _ h => h
    rintro w₂ u' ⟨rfl, rfl⟩
    exact ⟨hb, hu⟩
  · rintro w₂ u ⟨o, ho, hb, hu⟩
    exact ⟨o, ho, hu⟩

end Recorder

/-- With `matchFirstFdbRule` on, the datum is selected once, by the first path that does not
refuse the field, and never when all of them refuse it. Where the first such path is stuck, that is thrown
and no datum is selected. -/
theorem expand_takes_first_path (s : Schema) (field : Key) (t : WriteState Recorder)
    (hcheck : s.check = .ok ()) (hthird : ∀ f ∈ s.rules, ∀ i ∈ f.rules, i.rules ≠ [])
    (hdb : t.prev0.keys = t.visitor.database) (hidx : t.prev1.keys = t.visitor.index) :
    (∀ pre p post r a, s.paths field = pre ++ p :: post →
      (∀ q ∈ pre, s.outcome field q = .ok none) → s.outcome field p = .ok (some (r, a)) →
      ∃ u, (s.expand true (recorder s) field).run t = .ok () u ∧
        u.visitor.data = t.visitor.data ++ [a] ∧ u.rule = some r) ∧
    ((∀ q ∈ s.paths field, s.outcome field q = .ok none) →
      ∃ u, (s.expand true (recorder s) field).run t = .ok () u ∧
        u.visitor.data = t.visitor.data ∧ u.rule = none) ∧
    (∀ pre p post e, s.paths field = pre ++ p :: post →
      (∀ q ∈ pre, s.outcome field q = .ok none) → s.outcome field p = .error e →
      ∃ u, (s.expand true (recorder s) field).run t = .error e u ∧
        u.visitor.data = t.visitor.data ∧ u.rule = none) := by
  have hs := Schema.threeLevels_of_check hcheck hthird
  have hrun : ∀ {o}, s.search field = .ok o →
      ∃ u, (s.expand true (recorder s) field).run t = .ok () u ∧
        Recorded t.visitor.data o u := by
    intro o ho
    have h := ends_expand field hs hdb hidx
    match hx : (s.expand true (recorder s) field).run t with
    | .ok () u =>
      obtain ⟨o', ho', hu⟩ := h.ok hx
      rw [ho, Except.ok.injEq] at ho'
      exact ⟨u, rfl, ho' ▸ hu⟩
    | .error e u =>
      have hsearch := (h.error hx).1
      rw [ho] at hsearch
      cases hsearch
  refine ⟨fun pre p post r a hp hpre ha => ?_, fun hnone => ?_, fun pre p post e hp hpre he => ?_⟩
  · obtain ⟨u, hu, hrec⟩ := hrun (o := some (r, a))
      (by rw [Schema.search_eq_paths hs, hp]; exact findSomeM?_first hpre ha)
    exact ⟨u, hu, hrec.data, hrec.rule⟩
  · obtain ⟨u, hu, hrec⟩ := hrun (o := none)
      (by rw [Schema.search_eq_paths hs]; exact findSomeM?_none hnone)
    exact ⟨u, hu, by simpa using hrec.data, hrec.rule⟩
  · have hsearch : s.search field = .error e := by
      rw [Schema.search_eq_paths hs, hp]
      exact findSomeM?_first_error hpre he
    have h := ends_expand field hs hdb hidx
    cases hx : (s.expand true (recorder s) field).run t with
    | ok r u =>
      obtain ⟨o, ho, -⟩ := h.ok hx
      rw [hsearch] at ho
      cases ho
    | error e' u =>
      obtain ⟨he', hrec⟩ := h.error hx
      obtain rfl := Except.error.inj (hsearch.symm.trans he')
      exact ⟨u, rfl, by simpa using hrec.data, hrec.rule⟩

/-- `[ a [ b=1 [ c ]]]` and `[ a, d [ b=2 [ c ]]]`. -/
def overlapping : Schema where
  registry := .untyped
  rules := [
    .mk 1 [⟨"a", .always⟩] [.mk 1 [⟨"b", .value "1"⟩]
      [.mk 1 [⟨"c", .always⟩] [] .untyped] .untyped] .untyped,
    .mk 2 [⟨"a", .always⟩, ⟨"d", .always⟩] [.mk 2 [⟨"b", .value "2"⟩]
      [.mk 2 [⟨"c", .always⟩] [] .untyped] .untyped] .untyped]

def overlappingField (b : String) : Key :=
  Key.ofList [("a", "x"), ("b", b), ("c", "z"), ("d", "w")] none

theorem expand_takes_first_path_overlapping :
    (∃ u, (overlapping.expand true (recorder overlapping) (overlappingField "1")).run
      { visitor := {} } = .ok () u ∧ u.visitor.data.length = 1) ∧
    ∃ e u, (overlapping.expand true (recorder overlapping) (Key.ofList [("a", "x"), ("c", "z"), ("d", "w")] none)).run
      { visitor := {} } = .error e u ∧ u.visitor.data = [] := by
  have hthird : ∀ f ∈ overlapping.rules, ∀ i ∈ f.rules, i.rules ≠ [] := by simp [overlapping, Rule.rules]
  constructor
  · obtain ⟨u, hu, hdata, -⟩ := (expand_takes_first_path overlapping (overlappingField "1")
      { visitor := {} } rfl hthird rfl rfl).1 [] _ _ _ _ rfl (by simp) rfl
    exact ⟨u, hu, by simp [hdata]⟩
  · obtain ⟨u, hu, hdata, -⟩ := (expand_takes_first_path overlapping
      (Key.ofList [("a", "x"), ("c", "z"), ("d", "w")] none) { visitor := {} } rfl hthird rfl rfl).2.2 [] _ _ _ rfl
      (by simp) rfl
    exact ⟨_, u, hu, hdata⟩

/-- The path of the second first-level rule accepts the field, which has every keyword that the
schema names, and no datum is selected: below `{a=x,d=w}` the first rule is the one that matches. -/
theorem expand_misses_accepting_path :
    overlapping.check = .ok () ∧
    (∃ f i r, f ∈ overlapping.rules ∧ i ∈ f.rules ∧ r ∈ i.rules ∧
      (∃ k, f.assign (overlappingField "2") = .ok (some k)) ∧
      (∃ k, i.assign (overlappingField "2") = .ok (some k)) ∧
      (∃ k, r.assign (overlappingField "2") = .ok (some k))) ∧
    (final ((overlapping.expand true (recorder overlapping) (overlappingField "2")).run
      { visitor := {} })).visitor.data.length = 0 := by
  refine ⟨rfl, ⟨_, _, _, .tail _ (.head _), .head _, .head _, ⟨_, rfl⟩, ⟨_, rfl⟩, ⟨_, rfl⟩⟩, ?_⟩
  decide

end Fdb5
