import Fdb5.Inspect.Sound

/-! What an inspection finds when nothing is left selected: a search without state. -/
namespace Fdb5

open Effect

/-- What an element says, whatever order its keys have their keywords in. -/
def ListElement.content (e : ListElement) : StringDict × StringDict × StringDict × FieldLocation :=
  (e.dbKey.keys, e.indexKey.keys, e.datumKey.keys, e.location)

/-- What is found for the values that the predicates are offered, one after the other. -/
def searchFrom {α : Type} (offer : Predicate → Except Failure (List String)) (found : Key → Except Failure (List α)) :
    List Predicate → Key → Except Failure (List α)
  | [], k => found k
  | p :: next, k => do
    let values ← offer p
    let parts ← values.mapM fun value =>
      if p.accepts (k.push p.keyword value) then searchFrom offer found next (k.push p.keyword value)
      else .ok []
    return parts.flatten

section Search

variable (config : DbConfig) (d : Disk) (request : MarsRequest)

/-- The values that a predicate is offered on some axes. -/
def DbConfig.offer (axes : Option Axes) (registry : TypesRegistry) (p : Predicate) : Except Failure (List String) :=
  p.offered (MultiRetrieveVisitor.values config.mars axes request p.keyword registry)

/-- The third-level rule has values on offer for each of its predicates where no index is selected. -/
def DbConfig.Quiet (r : Rule) : Prop :=
  r.rules.isEmpty ∧ ∀ p ∈ r.predicates, ∃ values, config.offer request (some fun _ => none) r.registry p = .ok values

/-- What is found below an index key, in the indexes that are selected. -/
def searchDatum (dbKey indexKey : StringDict) (selected : TocCatalogueReader) (r : Rule) :
    Except Failure (List (StringDict × StringDict × StringDict × FieldLocation)) :=
  searchFrom (config.offer request (some selected.axis) r.registry) (fun k =>
    if r.rules.isEmpty then do
      let key := { k with registry := some r.registry }
      match ← value ((selected.retrieve key).run d) with
      | none => return []
      | some location =>
        return [(dbKey, indexKey, (MultiRetrieveVisitor.simplifiedKey key).keys, location)]
    else .error (.assertion "depth == 0 || depth == 1")) r.predicates {}

/-- What is found below a database that has these indexes, none of them selected. -/
def searchIndex (dbKey : StringDict) (indexes : List (TocIndex BTreeHandle × Key)) (r : Rule) :
    Except Failure (List (StringDict × StringDict × StringDict × FieldLocation)) :=
  searchFrom (config.offer request (some fun _ => none) r.registry) (fun k =>
    if r.rules.isEmpty then .error (.assertion "depth == 2")
    else
      let matching := indexes.filter fun m => m.1.key.keys = k.keys
      if matching.isEmpty then .ok []
      else do
        let parts ← r.rules.mapM (searchDatum config d request dbKey k.keys { indexes, matching })
        return parts.flatten) r.predicates {}

/-- What is found below a first-level rule. -/
def searchDatabase (r : Rule) :
    Except Failure (List (StringDict × StringDict × StringDict × FieldLocation)) :=
  searchFrom (config.offer request none r.registry) (fun k =>
    if r.rules.isEmpty then .error (.assertion "depth == 2")
    else do
      let key := { k with registry := some r.registry }
      match ← DB.openReader config d key with
      | none => return []
      | some db =>
        match db.schema.databaseRule key with
        | none => .error (.assertion "dbRule")
        | some dbRule =>
          let parts ← dbRule.rules.mapM (searchIndex config d request key.keys db.catalogue.indexes)
          return parts.flatten) r.predicates {}

/-- What a request finds in a store. -/
def search (rules : List Rule) :
    Except Failure (List (StringDict × StringDict × StringDict × FieldLocation)) := do
  let parts ← rules.mapM (searchDatabase config d request)
  return parts.flatten

end Search

section Quiet

variable {α : Type} {offer : Predicate → Except Failure (List String)} {found : Key → Except Failure (List α)}
  {ps : List Predicate}

theorem searchFrom_nil (hoffer : ∀ p ∈ ps, ∃ values, offer p = .ok values) (hfound : ∀ k, found k = .ok []) (k : Key) :
    searchFrom offer found ps k = .ok [] := by
  induction ps generalizing k with
  | nil => exact hfound k
  | cons p next ih =>
    obtain ⟨⟨values, hvalues⟩, hnext⟩ := List.forall_mem_cons.mp hoffer
    have hturn : (fun value => if p.accepts (k.push p.keyword value) then searchFrom offer found next (k.push p.keyword value)
        else .ok []) = fun _ => (pure [] : Except Failure (List α)) := by
      funext value
      rw [ih hnext, ite_self]
      rfl
    have hloop : values.mapM (fun _ => (pure [] : Except Failure (List α))) = .ok (values.map fun _ => []) :=
      List.mapM_pure
    rw [searchFrom, hvalues, hturn]
    change (do let parts ← values.mapM (fun _ => (pure [] : Except Failure (List α))); return parts.flatten) = _
    rw [hloop]
    simp [bind, Except.bind, pure, Except.pure]

/-- A quiet rule finds nothing where no index is selected, and throws nothing. -/
theorem DbConfig.Quiet.searchDatum {config : DbConfig} {d : Disk} {request : MarsRequest} {r : Rule} {dbKey indexKey : StringDict}
    {indexes : List (TocIndex BTreeHandle × Key)} (h : config.Quiet request r) :
    Fdb5.searchDatum config d request dbKey indexKey { indexes } r = .ok [] := by
  refine searchFrom_nil h.2 (fun k => ?_) {}
  rw [if_pos h.1]
  rfl

/-- Below an index key that has no indexes quiet rules find nothing. -/
theorem searchDatum_quiet {config : DbConfig} {d : Disk} {request : MarsRequest} {rules : List Rule} {dbKey indexKey : StringDict}
    {indexes : List (TocIndex BTreeHandle × Key)} (h : ∀ r ∈ rules, config.Quiet request r) :
    (do let parts ← rules.mapM (searchDatum config d request dbKey indexKey { indexes }); return parts.flatten) = .ok [] := by
  have hloop : rules.mapM (searchDatum config d request dbKey indexKey { indexes }) = .ok (rules.map fun _ => []) :=
    (mapM_congr fun r hr => (h r hr).searchDatum).trans List.mapM_pure
  rw [hloop]
  simp [bind, Except.bind, pure, Except.pure]

end Quiet

namespace MultiRetrieveVisitor

/-- The axes to ask at a depth when no earlier branch has selected anything. -/
def unselectedAxes (v : MultiRetrieveVisitor) : Nat → Option Axes
  | 0 => none
  | 1 => v.db.map fun _ _ => none
  | _ => v.axes

/-- The contents of what has been listed. -/
def listed (v : MultiRetrieveVisitor) : List (StringDict × StringDict × StringDict × FieldLocation) :=
  v.iterator.map ListElement.content

end MultiRetrieveVisitor

/-- What is left selected by earlier branches and calls makes no difference: neither to the values of
a first- or second-level keyword, nor to what is found below an index key that has no indexes. -/
def Event.Clean (config : DbConfig) (request : MarsRequest) : Event MultiRetrieveVisitor → Prop
  | .asks depth p registry v =>
    MultiRetrieveVisitor.values config.mars v.axes request p.keyword registry =
      MultiRetrieveVisitor.values config.mars (v.unselectedAxes depth) request p.keyword registry
  | .selectsIndex r key v => ∀ db, v.db = some db → db.catalogue.currentIndexKey.keys = key.keys →
      db.catalogue.matching ≠ [] ∨
        (∀ m ∈ db.catalogue.indexes, m.1.key.keys ≠ key.keys) ∧ ∀ r' ∈ r.rules, config.Quiet request r'
  | .selectsDatum _ _ _ => True

section From

variable {σ α : Type} {v : ReadVisitor σ} {request : MarsRequest} {registry : TypesRegistry} {outer : Nat → Key}
  {full : List String} {depth : Nat} {atEnd : Workspace → EStateM Failure σ Workspace}
  {occursAtEnd : List (Choice σ) → Workspace → σ → Event σ → Prop} {C : Event σ → Prop} {I : σ → Prop}
  {out : σ → List α} {offer : Predicate → Except Failure (List String)} {found : Key → Except Failure (List α)}
  {ps : List Predicate} {k : Key}

/-- An expansion lists what the search finds, if the visitor offers what the search is offered. -/
theorem Rule.ends_searchFrom (hd : depth < 3)
    (hoffer : ∀ p s, I s → C (.asks depth p registry s) →
      p.offered (v.values s request p.keyword registry) = offer p)
    (hatEnd : ∀ choices k' w s, Picks ps k k' → w.At outer full depth [] k' → I s →
      (∀ e, occursAtEnd choices w s e → C e) → Ends (atEnd w) s
        (fun w' t => w'.At outer full depth [] k' ∧ I t ∧ ∃ ys, found k' = .ok ys ∧ out t = out s ++ ys)
        fun e _ => found k' = .error e) :
    ∀ choices w s, w.At outer full depth ps k → I s →
      (∀ e, OccursFrom v request registry depth atEnd occursAtEnd ps choices w s e → C e) →
      Ends (expandRequestFrom v request registry depth atEnd ps w) s
        (fun w' t => w'.At outer full depth ps k ∧ I t ∧
          ∃ ys, searchFrom offer found ps k = .ok ys ∧ out t = out s ++ ys)
        fun e _ => searchFrom offer found ps k = .error e := by
  induction ps generalizing k with
  | nil =>
    intro choices w s hw hs hclean
    rw [expandRequestFrom]
    simp only [ends_bind, ends_ensure, hd, not_true, false_implies, and_true, true_implies]
    exact hatEnd choices k w s rfl hw hs hclean
  | cons p next ih =>
    intro choices w s hw hs hclean
    rw [expandRequestFrom]
    simp only [ends_bind, ends_ensure, hd, not_true, false_implies, and_true, true_implies, ends_get, ends_lift]
    have hvalues := hoffer p s hs (hclean _ (.inl rfl))
    refine ⟨fun values hok => ?_, fun e he => by simp [searchFrom, ← hvalues, he, bind, Except.bind]⟩
    have hsearch : searchFrom offer found (p :: next) k = (do
        let parts ← values.mapM fun value =>
          if p.accepts (k.push p.keyword value) then searchFrom offer found next (k.push p.keyword value)
          else .ok []
        return parts.flatten) := by
      rw [searchFrom, ← hvalues, hok]
      rfl
    have hloop : Ends (values.foldlM (turn depth p (expandRequestFrom v request registry depth atEnd next)) w) s
        (fun w' t => (w'.At outer full depth (p :: next) k ∧ I t) ∧ ∃ parts, values.mapM (fun value =>
          if p.accepts (k.push p.keyword value) then searchFrom offer found next (k.push p.keyword value)
          else .ok []) = .ok parts ∧ out t = out s ++ parts.flatten)
        (fun e _ => values.mapM (fun value =>
          if p.accepts (k.push p.keyword value) then searchFrom offer found next (k.push p.keyword value)
          else .ok []) = .error e) := by
      refine ends_foldlM_mapM (J := fun w t => Workspace.At outer full depth (p :: next) k w ∧ I t) ?_ ⟨hw, hs⟩
      rintro pre value post w' t rfl hrun ⟨hw', ht⟩
      have haccepts : p.accepts ((w'.push depth p.keyword value).key depth) = p.accepts (k.push p.keyword value) := by
        refine Predicate.accepts_congr ?_
        rw [Workspace.key_push hd _ _, Key.find_push_eq, Key.find_push_eq, if_pos rfl, if_pos rfl]
      refine (ends_turn (I := fun t' => I t' ∧ ∃ ys, (if p.accepts (k.push p.keyword value)
        then searchFrom offer found next (k.push p.keyword value) else .ok []) = .ok ys ∧ out t' = out t ++ ys)
        hd hw' (fun h hpush => ?_) fun h => ?_).mono (fun _ _ h => ⟨⟨h.1, h.2.1⟩, h.2.2⟩) fun _ _ h => h
      · -- a turn lists what the search finds for its value
        simp only [h, if_true]
        refine ih (fun choices k' w s hk' => hatEnd choices k' w s ⟨value, h, hk'⟩) (choices ++ [⟨p, registry, s, value⟩])
          _ t hpush ht fun e he => ?_
        exact hclean e (.inr ⟨pre, value, post, w', t, hok, hrun, haccepts.trans h, he⟩)
      · exact ⟨ht, [], by simp [h], by simp⟩
    refine hloop.mono (fun w' t hparts => ?_) fun e _ he => ?_
    · obtain ⟨⟨hw', ht⟩, parts, hparts, hout⟩ := hparts
      exact ⟨hw', ht, parts.flatten, by simp [hsearch, hparts, bind, Except.bind, pure, Except.pure], hout⟩
    · rw [hsearch, he]
      rfl

/-- A loop over rules lists what the search finds below each of them. -/
theorem Rule.ends_searchRules {rules : List Rule} {expandRule : Rule → Workspace → EStateM Failure σ Workspace}
    {occurs : Rule → Workspace → σ → Event σ → Prop} {find : Rule → Except Failure (List α)} {w : Workspace} {s : σ}
    (hw : w.At outer full depth [] {}) (hs : I s)
    (hclean : ∀ e, OccursIn expandRule occurs rules w s e → C e)
    (h : ∀ r ∈ rules, ∀ w t, w.At outer full depth r.predicates {} → I t → (∀ e, occurs r w t e → C e) →
      Ends (expandRule r w) t (fun w' t' => w'.At outer full depth r.predicates {} ∧ I t' ∧
        ∃ ys, find r = .ok ys ∧ out t' = out t ++ ys) fun e _ => find r = .error e) :
    Ends (rules.foldlM (fun w r => expandRule r w) w) s (fun w' t => (w'.At outer full depth [] {} ∧ I t) ∧
      ∃ parts, rules.mapM find = .ok parts ∧ out t = out s ++ parts.flatten)
      fun e _ => rules.mapM find = .error e := by
  refine ends_foldlM_mapM (J := fun (w : Workspace) t => w.At outer full depth [] {} ∧ I t) ?_ ⟨hw, hs⟩
  rintro pre r post w' t rfl hrun ⟨hw', ht⟩
  refine (h r (by simp) w' t hw'.restart ht fun e he => ?_).mono (fun _ _ h => ⟨⟨h.1.restart, h.2.1⟩, h.2.2⟩)
    fun _ _ h => h
  exact hclean e ⟨pre, r, post, w', t, rfl, hrun, he⟩

end From

end Fdb5
