import Fdb5.Fingerprint
import Fdb5.Rules.Assign
import Fdb5.Pmem.InsertDataNode

/-! Visits of the leaves of the tree of branching nodes. -/
namespace Fdb5

open Effect

variable {F D : Type} {fixed : NodeString F} {heap : PmemHeap F D} {base : PBaseNode F} {a n : Nat}
  {keyword value : String} {p ids : List (String × String)} {d : D} {k : Key} {stack : List Key} {index : Key}
  {paths : List String → Prop} {isIndex : Bool}

namespace Key

/-- A key with pairs below it. -/
def pushPairs (k : Key) (ids : List (String × String)) : Key := ids.foldl (fun k kv => k.push kv.1 kv.2) k

theorem pushPairs_concat {kv : String × String} : k.pushPairs (p ++ [kv]) = (k.pushPairs p).push kv.1 kv.2 := by
  rw [pushPairs, List.foldl_concat]
  rfl

theorem mem_pushPairs : keyword ∈ (k.pushPairs p).keys ↔ keyword ∈ p.map Prod.fst ∨ keyword ∈ k.keys := by
  induction p using List.reverseRecOn with
  | nil => simp [pushPairs]
  | append_singleton p kv ih =>
    rw [pushPairs_concat, mem_push, ih]
    simp [or_assoc, or_left_comm]

theorem pushPairs_names : (k.pushPairs p).names = k.names ++ p.map Prod.fst := by
  induction p using List.reverseRecOn with
  | nil => simp [pushPairs]
  | append_singleton p kv ih =>
    rw [pushPairs_concat, push_names, ih]
    simp

theorem canonicalise_pushPairs {keyword value : String} :
    (k.pushPairs p).canonicalise keyword value = k.canonicalise keyword value := by
  induction p using List.reverseRecOn with
  | nil => rfl
  | append_singleton p kv ih =>
    rw [pushPairs_concat, ← ih]
    rfl

theorem valuesToString_returns : (∃ s, k.valuesToString = .ok s) ↔
    k.names.length = k.keys.size ∧ ∀ name ∈ k.names, ∃ v, k.canonicalValue name = .ok v := by
  constructor
  · rintro ⟨s, hs⟩
    obtain ⟨values, hvalues, -, hlength⟩ := valuesToString_ok hs
    refine ⟨hlength, fun name hname => ?_⟩
    obtain ⟨v, -, hv⟩ := mem_mapM_of hvalues hname
    exact ⟨v, hv⟩
  · rintro ⟨hlength, hall⟩
    obtain ⟨values, hvalues⟩ := exists_mapM hall
    refine ⟨":".intercalate values, ?_⟩
    simp only [valuesToString, assert, hlength, if_true, canonicalValues, hvalues]
    rfl

/-- A key with one more pair has a fingerprint if it has one without it and the value can be canonicalised. -/
theorem valuesToString_push (hk : keyword ∉ k.keys) (hn : keyword ∉ k.names) :
    (∃ s, (k.push keyword value).valuesToString = .ok s) ↔
      (∃ s, k.valuesToString = .ok s) ∧ ∃ v, k.canonicalise keyword value = .ok v := by
  have hsize : (k.push keyword value).keys.size = k.keys.size + 1 := by
    rw [push_keys, Std.ExtTreeMap.size_insert]
    exact if_neg hk
  have hlast : (k.push keyword value).canonicalValue keyword = k.canonicalise keyword value := by
    rw [canonicalValue, find_push]
    rfl
  have hrest {name : String} (hname : name ∈ k.names) :
      (k.push keyword value).canonicalValue name = k.canonicalValue name := by
    have hne : ¬ keyword = name := by
      rintro rfl
      exact hn hname
    have hfind : (k.push keyword value).find name = k.find name := by
      rw [find, find, push_keys, Std.ExtTreeMap.getElem?_insert]
      simp [hne]
    rw [canonicalValue, canonicalValue, hfind]
    rfl
  rw [valuesToString_returns, valuesToString_returns, hsize, push_names, List.length_append, List.length_singleton]
  constructor
  · rintro ⟨hlength, hall⟩
    refine ⟨⟨by omega, fun name hname => ?_⟩, ?_⟩
    · rw [← hrest hname]
      exact hall name (List.mem_append_left _ hname)
    · rw [← hlast]
      exact hall keyword (by simp)
  · rintro ⟨⟨hlength, hall⟩, hv⟩
    refine ⟨by omega, fun name hname => ?_⟩
    rcases List.mem_append.mp hname with hname | hname
    · rw [hrest hname]
      exact hall name hname
    · rw [List.mem_singleton.mp hname, hlast]
      exact hv

/-- A key and pairs below it whose values can all be canonicalised. -/
def Spoken (k : Key) (ids : List (String × String)) : Prop :=
  (∃ s, k.valuesToString = .ok s) ∧ ∀ kv ∈ ids, ∃ v, k.canonicalise kv.1 kv.2 = .ok v

theorem valuesToString_pushPairs (hnodup : (ids.map Prod.fst).Nodup)
    (hnew : ∀ keyword ∈ ids.map Prod.fst, keyword ∉ k.keys ∧ keyword ∉ k.names) :
    (∃ s, (k.pushPairs ids).valuesToString = .ok s) ↔ k.Spoken ids := by
  induction ids using List.reverseRecOn with
  | nil => simp [pushPairs, Spoken]
  | append_singleton ids kv ih =>
    rw [List.map_append, List.map_singleton] at hnodup hnew
    have hrest := ih (List.nodup_append.mp hnodup).1 fun keyword hk => hnew keyword (List.mem_append_left _ hk)
    have hlast := hnew kv.1 (by simp)
    have hdiffer : kv.1 ∉ ids.map Prod.fst :=
      fun hmem => (List.nodup_append.mp hnodup).2.2 kv.1 hmem kv.1 (by simp) rfl
    rw [pushPairs_concat, valuesToString_push, hrest, canonicalise_pushPairs]
    · simp only [Spoken, List.mem_append, List.mem_singleton, or_imp, forall_and, forall_eq, and_assoc]
    · rw [mem_pushPairs]
      exact fun h => h.elim hdiffer hlast.1
    · rw [pushPairs_names, List.mem_append]
      exact fun h => h.elim hlast.2 hdiffer

/-- Below an index nothing but empty values has a fingerprint: the key there has no registry. -/
theorem spoken_empty : ({} : Key).Spoken ids ↔ ∀ kv ∈ ids, kv.2 = "" := by
  have hempty : ∃ s, ({} : Key).valuesToString = .ok s := ⟨"", by decide⟩
  have hcanonicalise {keyword value : String} : (∃ v, ({} : Key).canonicalise keyword value = .ok v) ↔ value = "" := by
    by_cases hv : value = "" <;> simp [canonicalise, hv, registryOf]
  simp only [Spoken, hempty, true_and, hcanonicalise]

end Key

namespace PBranchingNode

/-- The call of the visitor for a datum below a key. -/
def datumOf (k : Key) (pd : List (String × String) × D) : Except Failure (LeafVisit D) := do
  return .visitDatum pd.2 (← (k.pushPairs pd.1).valuesToString)

/-- With such keys on the stack, the visitor is called for these data, below `k`, or one of their keys has no
fingerprint. -/
def Shows (x : VisitAct D Unit) (k : Key) (stack : List Key) (below : List (List (String × String) × D)) : Prop :=
  ∀ visits, Ends x ⟨stack, visits⟩
    (fun _ s => ∃ events, below.mapM (datumOf k) = .ok events ∧ s = ⟨stack, visits ++ events⟩)
    fun _ _ => ∀ events, below.mapM (datumOf k) ≠ .ok events

section Shows

variable {x y : VisitAct D Unit} {below below' : List (List (String × String) × D)}

theorem Shows.append (hx : Shows x k stack below) (hy : Shows y k stack below') :
    Shows (x >>= fun _ => y) k stack (below ++ below') := by
  intro visits
  rw [ends_bind]
  refine (hx visits).mono (fun _ s hs => ?_) fun _ _ hno events hall => ?_
  · obtain ⟨events, hevents, rfl⟩ := hs
    refine (hy _).mono (fun _ s hs => ?_) fun _ _ hno all hall => ?_
    · obtain ⟨events', hevents', rfl⟩ := hs
      exact ⟨events ++ events', by simp [List.mapM_append, hevents, hevents'], by simp⟩
    · simp only [List.mapM_append, except_bind_ok] at hall
      obtain ⟨_, -, events', hevents', -⟩ := hall
      exact hno events' hevents'
  · simp only [List.mapM_append, except_bind_ok] at hall
    obtain ⟨events', hevents', -⟩ := hall
    exact hno events' hevents'

theorem Shows.forM {α : Type} {l : List α} {f : α → VisitAct D Unit} {g : α → List (List (String × String) × D)}
    (h : ∀ a ∈ l, Shows (f a) k stack (g a)) : Shows (l.forM f) k stack (l.flatMap g) := by
  induction l with
  | nil => exact fun visits => ⟨[], rfl, by simp⟩
  | cons a l ih =>
    have hrest := ih fun b hb => h b (List.mem_cons_of_mem a hb)
    exact (h a List.mem_cons_self).append hrest

end Shows

section Stack

variable {visits : List (LeafVisit D)} {back : Key} {Q : Unit → LeafVisiting D → Prop}
  {E : Failure → LeafVisiting D → Prop}

theorem ends_keysBack {Q : Key → LeafVisiting D → Prop} :
    Ends keysBack ⟨back :: stack, visits⟩ Q E ↔ Q back ⟨back :: stack, visits⟩ := by
  rw [keysBack, ends_bind, ends_get]
  exact Iff.rfl

theorem ends_keysPush : Ends (keysPush keyword value) ⟨back :: stack, visits⟩ Q E ↔
    Q () ⟨back.push keyword value :: stack, visits⟩ := by
  rw [keysPush, ends_bind, ends_keysBack, setBack, ends_modify]
  exact Iff.rfl

theorem ends_keysPop (h : keyword ∉ back.keys) :
    Ends (keysPop keyword) ⟨back.push keyword value :: stack, visits⟩ Q E ↔ Q () ⟨back :: stack, visits⟩ := by
  rw [keysPop, ends_bind, ends_keysBack, Key.pop_push h, ends_bind, ends_lift]
  simp [setBack]

end Stack

/-- A leaf is shown with the key it is at. -/
theorem shows_visitLeaf (h : (base.name fixed).1 ∉ (k.pushPairs p).keys) :
    Shows (visitLeaf fixed (some index) base d) k (k.pushPairs p :: stack) [(p ++ [base.name fixed], d)] := by
  intro visits
  have hkey : (k.pushPairs p).push (base.key fixed) (base.value fixed) = k.pushPairs (p ++ [base.name fixed]) := by
    rw [Key.pushPairs_concat]
    rfl
  rw [visitLeaf, ends_bind, ends_ensure]
  refine ⟨fun _ => ?_, fun hno => absurd hno (by simp)⟩
  rw [ends_bind, ends_keysPush, ends_bind, ends_keysBack, ends_bind, ends_lift]
  constructor
  · intro fingerprint hfingerprint
    rw [ends_bind, visit, ends_modify]
    refine (ends_keysPop h).mpr ⟨[.visitDatum d fingerprint], ?_, rfl⟩
    rw [hkey] at hfingerprint
    simp [datumOf, hfingerprint]
  · intro e he events hevents
    rw [hkey] at he
    simp [datumOf, he] at hevents

/-- The keywords on a path are all there, different from each other and from those of the key above. -/
def Fresh (paths : List String → Prop) (k : Key) : Prop :=
  ∀ names, paths names → names.Nodup ∧ ∀ keyword ∈ names, keyword ≠ "" ∧ keyword ∉ k.keys ∧ keyword ∉ k.names

theorem Fresh.not_mem {l : String × String} {q : List String} (hf : Fresh paths k)
    (hl : paths ((p ++ [l]).map Prod.fst ++ q)) : l.1 ≠ "" ∧ l.1 ∉ (k.pushPairs p).keys := by
  obtain ⟨hnodup, hnew⟩ := hf _ hl
  obtain ⟨hne, hk, -⟩ := hnew l.1 (by simp)
  refine ⟨hne, ?_⟩
  rw [Key.mem_pushPairs]
  rintro (hp | hp)
  · rw [List.map_append, List.append_assoc, List.nodup_append] at hnodup
    exact hnodup.2.2 l.1 hp l.1 (by simp) rfl
  · exact hk hp

/-- The data that a pointer to a data node leads to. -/
def PersistentPtr.data? : PersistentPtr F D → Option (PBaseNode F × D)
  | .dataNode base data => some (base, data)
  | .branchingNode _ _ => none

/-- The address of a branching node. -/
def PersistentPtr.address? : PersistentPtr F D → Option (PBaseNode F × Nat)
  | .dataNode _ _ => none
  | .branchingNode base address => some (base, address)

/-- The data of the subnodes, with the data of the subtrees as they are visited. -/
theorem shows_visitSubnodes {node : PBranchingNode F D} {recurse : PBaseNode F → Nat → VisitAct D Unit}
    (h : Sound fixed paths isIndex heap) (hf : Fresh paths k) (hw : Trie.walk (heap.shape fixed) 0 p = some a)
    (hnode : heap.node a = .ok node)
    (hrecurse : ∀ base b, .branch (base.name fixed) b ∈ Trie.entries (heap.shape fixed) a →
      Shows (recurse base b) k (k.pushPairs p :: stack)
        ((Trie.leaves (heap.shape fixed) n b).map fun pd => (p ++ base.name fixed :: pd.1, pd.2))) :
    Shows (visitSubnodes fixed (some index) node recurse) k (k.pushPairs p :: stack)
      ((Trie.leaves (heap.shape fixed) (n + 1) a).map fun pd => (p ++ pd.1, pd.2)) := by
  have hentries : Trie.entries (heap.shape fixed) a = node.nodes.map (PersistentPtr.entry fixed) := entries_shape hnode
  have hmem {m : PersistentPtr F D} (hm : m ∈ node.nodes.reverse) :
      m.entry fixed ∈ Trie.entries (heap.shape fixed) a := by
    rw [hentries]
    exact List.mem_map_of_mem (List.mem_reverse.mp hm)
  have hleaves : (Trie.leaves (heap.shape fixed) (n + 1) a).map (fun pd => (p ++ pd.1, pd.2)) =
      ((node.nodes.reverse.filterMap PersistentPtr.data?).flatMap fun bd => [(p ++ [bd.1.name fixed], bd.2)]) ++
      ((node.nodes.reverse.filterMap PersistentPtr.address?).flatMap fun ba =>
        (Trie.leaves (heap.shape fixed) n ba.2).map fun pd => (p ++ ba.1.name fixed :: pd.1, pd.2)) := by
    rw [Trie.leaves, hentries, ← List.map_reverse, List.map_append]
    congr 1
    · induction node.nodes.reverse with
      | nil => rfl
      | cons m nodes ih =>
        cases m with
        | branchingNode base b => exact ih
        | dataNode base d => exact congrArg (List.cons (p ++ [base.name fixed], d)) ih
    · induction node.nodes.reverse with
      | nil => rfl
      | cons m nodes ih =>
        cases m with
        | branchingNode base b => simpa [PersistentPtr.entry, PersistentPtr.address?, Function.comp_def] using ih
        | dataNode base d => exact ih
  rw [hleaves]
  apply Shows.append
  · apply Shows.forM
    intro bd hbd
    obtain ⟨m, hm, hmbd⟩ := List.mem_filterMap.mp hbd
    cases m with
    | branchingNode base b => cases hmbd
    | dataNode base d =>
      cases hmbd
      have hpath := h.planned.leaves p a (base.name fixed) d hw (hmem hm)
      rw [← List.append_nil (List.map _ _)] at hpath
      exact shows_visitLeaf (hf.not_mem hpath).2
  · apply Shows.forM
    intro ba hba
    obtain ⟨m, hm, hmba⟩ := List.mem_filterMap.mp hba
    cases m with
    | dataNode base d => cases hmba
    | branchingNode base b =>
      cases hmba
      exact hrecurse base b (hmem hm)

theorem isIndex_of_pos {node : PBranchingNode F D} (h : Sound fixed paths isIndex heap) (hnode : heap.node a = .ok node) :
    node.isIndex = (decide (a = 0) && isIndex) := by
  obtain ⟨m, hm⟩ := h.axes
  have hget := congrArg (fun l => l[a]?) hm
  simp only [List.getElem?_map, PmemHeap.node_ok.mp hnode, Option.map_some] at hget
  cases a with
  | zero => simpa using hget
  | succ a =>
    rw [List.getElem?_cons_succ] at hget
    simpa using (List.mem_replicate.mp (List.mem_of_getElem? hget.symm)).2

/-- A subtree is shown below the path to its node. -/
theorem shows_visitLeaves {b : Nat} (h : Sound fixed paths isIndex heap) (hf : Fresh paths k)
    (hw : Trie.walk (heap.shape fixed) 0 p = some a)
    (hb : .branch (base.name fixed) b ∈ Trie.entries (heap.shape fixed) a) (hn : heap.length ≤ n + b) :
    Shows (visitLeaves fixed true heap n base b (some index)) k (k.pushPairs p :: stack)
      ((Trie.leaves (heap.shape fixed) n b).map fun pd => (p ++ base.name fixed :: pd.1, pd.2)) := by
  induction n generalizing base b a p with
  | zero =>
    have hlt := (h.planned.wf.above a (base.name fixed) b hb).2
    rw [length_shape] at hlt
    omega
  | succ n ih =>
    obtain ⟨q, -, hpath⟩ := h.planned.branches p a (base.name fixed) b hw hb
    obtain ⟨hne, hnew⟩ := hf.not_mem hpath
    obtain ⟨hab, hlt⟩ := h.planned.wf.above a (base.name fixed) b hb
    rw [length_shape] at hlt
    obtain ⟨node, hnode⟩ := PmemHeap.node_lt hlt
    have haxes : node.isIndex = false := by
      have hpos : ¬ b = 0 := by omega
      simpa [hpos] using isIndex_of_pos h hnode
    have hchild : Trie.walk (heap.shape fixed) 0 (p ++ [base.name fixed]) = some b := by
      rw [Trie.walk_concat hw]
      exact h.planned.wf.child_of_mem hb
    have hsub := @shows_visitSubnodes _ _ _ _ _ _ _ _ stack index _ _ _ _ h hf hchild hnode
      fun base' c hc => ih hchild hc (by have := (h.planned.wf.above b _ c hc).1; omega)
    have hkey : (k.pushPairs p).push (base.key fixed) (base.value fixed) = k.pushPairs (p ++ [base.name fixed]) := by
      rw [Key.pushPairs_concat]
      rfl
    intro visits
    rw [visitLeaves, hnode, ends_bind, ends_lift]
    refine ⟨fun node' hnode' => ?_, fun e he => by cases he⟩
    cases hnode'
    rw [if_neg fun hempty => hne hempty.1, ends_bind, ends_keysPush, haxes, hkey]
    simp only [Bool.false_eq_true, if_false]
    rw [ends_bind]
    simp only [List.append_assoc, List.singleton_append] at hsub
    refine (hsub visits).mono (fun _ s hs => ?_) fun _ _ hno => hno
    obtain ⟨events, hevents, rfl⟩ := hs
    rw [← hkey]
    exact (ends_keysPop hnew).mpr ⟨events, hevents, rfl⟩

section Root

variable {t : PmemTree F D} {root : PBaseNode F} {back : Key} {above : Option Key} {visits : List (LeafVisit D)}

/-- The key that the pairs of a leaf are pushed to: what the caller has at the back, or below an index a new one. -/
def startKey (fixed : NodeString F) (base : PBaseNode F) (isIndex : Bool) (back : Key) : Key :=
  if base.key fixed = "" ∧ base.value fixed = "" then back
  else if isIndex then {} else back.push (base.key fixed) (base.value fixed)

/-- The call of the visitor for the root, if it is an index. -/
def rootVisit (fixed : NodeString F) (base : PBaseNode F) (isIndex : Bool) (back : Key) : List (LeafVisit D) :=
  if ¬ (base.key fixed = "" ∧ base.value fixed = "") ∧ isIndex then
    [.visitIndex (back.push (base.key fixed) (base.value fixed))]
  else []

/-- A call of `visitLeaves` for the root that gives an index, unless the root is one. -/
structure Callable (fixed : NodeString F) (base : PBaseNode F) (isIndex : Bool) (back : Key) (above : Option Key) :
    Prop where
  new : base.key fixed ∉ back.keys
  index : above = none → ¬ (base.key fixed = "" ∧ base.value fixed = "") ∧ isIndex = true

theorem ends_visitLeaves (h : Sound fixed paths isIndex heap) (hc : Callable fixed root isIndex back above)
    (hf : Fresh paths (startKey fixed root isIndex back)) (hn : heap.length ≤ n) :
    Ends (visitLeaves fixed true heap n root 0 above) ⟨back :: stack, visits⟩
      (fun _ s => ∃ events, (Trie.leaves (heap.shape fixed) n 0).mapM (datumOf (startKey fixed root isIndex back)) =
        .ok events ∧ s = ⟨back :: stack, visits ++ rootVisit fixed root isIndex back ++ events⟩)
      fun _ _ => ∀ events, (Trie.leaves (heap.shape fixed) n 0).mapM (datumOf (startKey fixed root isIndex back)) ≠
        .ok events := by
  have hlt := h.planned.wf.root
  rw [length_shape] at hlt
  obtain ⟨node, hnode⟩ := PmemHeap.node_lt hlt
  have haxes : node.isIndex = isIndex := by simpa using isIndex_of_pos h hnode
  obtain ⟨n, rfl⟩ : ∃ m, n = m + 1 := ⟨n - 1, by omega⟩
  have hsub {index : Key} {stack : List Key} : Shows (visitSubnodes fixed (some index) node fun base b =>
      visitLeaves fixed true heap n base b (some index)) (startKey fixed root isIndex back)
      (startKey fixed root isIndex back :: stack) (Trie.leaves (heap.shape fixed) (n + 1) 0) := by
    have hrecurse (base : PBaseNode F) (b : Nat)
        (hb : .branch (base.name fixed) b ∈ Trie.entries (heap.shape fixed) 0) :
        Shows (visitLeaves fixed true heap n base b (some index)) (startKey fixed root isIndex back)
          ((startKey fixed root isIndex back).pushPairs [] :: stack)
          ((Trie.leaves (heap.shape fixed) n b).map fun pd => ([] ++ base.name fixed :: pd.1, pd.2)) := by
      have := (h.planned.wf.above 0 _ b hb).1
      exact shows_visitLeaves h hf Trie.walk_nil hb (by omega)
    have hshows := @shows_visitSubnodes _ _ _ _ _ _ _ _ stack index _ _ _ _ h hf Trie.walk_nil hnode hrecurse
    simpa [Key.pushPairs] using hshows
  rw [visitLeaves, hnode, ends_bind, ends_lift]
  refine ⟨fun node' hnode' => ?_, fun e he => by cases he⟩
  cases hnode'
  by_cases hempty : root.key fixed = "" ∧ root.value fixed = ""
  · rw [if_pos hempty]
    have hstart : startKey fixed root isIndex back = back := if_pos hempty
    have hroot : (rootVisit fixed root isIndex back : List (LeafVisit D)) = [] := if_neg fun h => h.1 hempty
    obtain ⟨index, rfl⟩ := Option.ne_none_iff_exists'.mp fun habove => (hc.index habove).1 hempty
    rw [hroot, List.append_nil]
    rw [hstart] at hsub ⊢
    exact hsub visits
  · rw [if_neg hempty, ends_bind, ends_keysPush, haxes]
    cases isIndex with
    | true =>
      have hstart : startKey fixed root true back = {} := by simp [startKey, hempty]
      have hroot : (rootVisit fixed root true back : List (LeafVisit D)) =
          [.visitIndex (back.push (root.key fixed) (root.value fixed))] := if_pos ⟨hempty, rfl⟩
      rw [hstart] at hsub ⊢
      simp only [if_true]
      rw [ends_bind, ends_keysBack, ends_bind, visit, ends_modify, ends_bind, ends_modify, ends_bind]
      refine (hsub _).mono (fun _ s hs => ?_) fun _ _ hno => hno
      obtain ⟨events, hevents, rfl⟩ := hs
      rw [ends_bind, ends_modify]
      exact (ends_keysPop hc.new).mpr ⟨events, hevents, by rw [hroot]⟩
    | false =>
      have hstart : startKey fixed root false back = back.push (root.key fixed) (root.value fixed) := by
        simp [startKey, hempty]
      have hroot : (rootVisit fixed root false back : List (LeafVisit D)) = [] := if_neg fun h => by simpa using h.2
      obtain ⟨index, rfl⟩ := Option.ne_none_iff_exists'.mp fun habove => by simpa using (hc.index habove).2
      rw [hstart] at hsub ⊢
      simp only [Bool.false_eq_true, if_false]
      rw [ends_bind]
      refine (hsub _).mono (fun _ s hs => ?_) fun _ _ hno => hno
      obtain ⟨events, hevents, rfl⟩ := hs
      exact (ends_keysPop hc.new).mpr ⟨events, hevents, by rw [hroot, List.append_nil]⟩

/-- The visitor is called once for each completed insert, with its full key, and for one key the newest first. -/
def VisitsEach (fixed : NodeString F) [DecidableEq F] (isIndex : Bool) (t : PmemTree F D) (n : Nat) (root : PBaseNode F)
    (above : Option Key) (back : Key) (stack : List Key) (visits : List (LeafVisit D)) : Prop :=
  ∃ leaves : List (List (String × String) × D), ∃ events,
    (visitLeaves fixed true t.heap n root 0 above).run ⟨back :: stack, visits⟩ =
      .ok () ⟨back :: stack, visits ++ rootVisit fixed root isIndex back ++ events⟩ ∧
    leaves.mapM (datumOf (startKey fixed root isIndex back)) = .ok events ∧
    ∀ ids, (leaves.filter fun pd => pd.1 = ids).map Prod.snd = (insertsOf t.completed ids).reverse

variable [DecidableEq F]

theorem visitsEach_iff (h : t.Holds fixed paths isIndex) (hc : Callable fixed root isIndex back above)
    (hf : Fresh paths (startKey fixed root isIndex back)) (hn : t.heap.length ≤ n) :
    VisitsEach fixed isIndex t n root above back stack visits ↔
      ∀ e ∈ t.completed, ∀ ids, e.1.identifier = .ok ids → (startKey fixed root isIndex back).Spoken ids := by
  have hwf := h.sound.planned.wf
  have hends := @ends_visitLeaves _ _ _ _ _ stack _ _ _ _ _ visits h.sound hc hf hn
  have hfilter (ids : List (String × String)) : ((Trie.leaves (t.heap.shape fixed) n 0).filter
      fun pd => pd.1 = ids).map Prod.snd = (insertsOf t.completed ids).reverse := by
    rw [hwf.leaves_filter hwf.root (by rw [length_shape]; omega), h.stored]
  have hmem {ids : List (String × String)} {d : D} : (ids, d) ∈ Trie.leaves (t.heap.shape fixed) n 0 ↔
      d ∈ insertsOf t.completed ids := by
    have hrev : d ∈ (insertsOf t.completed ids).reverse ↔ d ∈ insertsOf t.completed ids := List.mem_reverse
    rw [← hrev, ← hfilter]
    simp
  have hspoken {e : Key × D} {ids : List (String × String)} (he : e ∈ t.completed) (hid : e.1.identifier = .ok ids) :
      (∃ event, datumOf (startKey fixed root isIndex back) (ids, e.2) = .ok event) ↔
        (startKey fixed root isIndex back).Spoken ids := by
    have hpath := (h.identified e he).1
    rw [← pairs_names hid] at hpath
    obtain ⟨hnodup, hnew⟩ := hf _ hpath
    rw [← Key.valuesToString_pushPairs hnodup fun keyword hk => (hnew keyword hk).2]
    simp [datumOf]
  constructor
  · rintro ⟨_, _, hrun, -, -⟩ ⟨key, d⟩ he ids hid
    obtain ⟨events, hevents, -⟩ := hends.ok hrun
    obtain ⟨event, -, hevent⟩ := mem_mapM_of hevents (hmem.mpr (mem_insertsOf.mpr ⟨key, he, hid⟩))
    exact (hspoken he hid).mp ⟨event, hevent⟩
  · intro hall
    obtain ⟨events, hevents⟩ := exists_mapM (f := datumOf (startKey fixed root isIndex back))
      (l := Trie.leaves (t.heap.shape fixed) n 0) fun ⟨ids, d⟩ hd => by
        obtain ⟨key, he, hid⟩ := mem_insertsOf.mp (hmem.mp hd)
        exact (hspoken he hid).mpr (hall (key, d) he ids hid)
    have hreturns := hends.mono (fun _ _ h => h) fun _ _ hno => hno events hevents
    obtain ⟨_, s, hrun, events', hevents', rfl⟩ := hreturns.returns
    exact ⟨_, events', hrun, hevents', hfilter⟩

end Root

/-- In every interleaving of inserts of keys that go by the paths of a schema, no node has two branches of one name, a
lookup gives what the last completed insert of its key put there, and the leaves are visited each once and newest
first, if the key at the back of the caller's, or a new one below an index, can canonicalise what was inserted. -/
theorem insertDataNode_lastWins [DecidableEq F] {events : List (PmemEvent F D)} (hpaths : PrefixFree paths)
    (hevents : ∀ q key base d, .call q key base d ∈ events → paths key.names) :
    (∀ node ∈ (PmemTree.run fixed isIndex events).heap, (node.branchNames fixed).Nodup) ∧
    (∀ key ids, paths key.names → key.identifier = .ok ids →
      (∀ kv ∈ ids, ∃ base, fixed.construct kv.1 kv.2 = .ok base) →
      fixed.getDataNode (PmemTree.run fixed isIndex events).heap 0 key =
        .ok (insertsOf (PmemTree.run fixed isIndex events).completed ids).getLast?) ∧
    ∀ root above back stack visits n, Callable fixed root isIndex back above →
      Fresh paths (startKey fixed root isIndex back) → (PmemTree.run fixed isIndex events).heap.length ≤ n →
      (VisitsEach fixed isIndex (PmemTree.run fixed isIndex events) n root above back stack visits ↔
        ∀ e ∈ (PmemTree.run fixed isIndex events).completed, ∀ ids, e.1.identifier = .ok ids →
          (startKey fixed root isIndex back).Spoken ids) := by
  have hholds : (PmemTree.run fixed isIndex events).Holds fixed paths isIndex := holds_run hevents
  refine ⟨fun node hnode => ?_, fun key ids hk hid hfit => ?_, fun root above back stack visits n hc hf hn => ?_⟩
  · obtain ⟨a, ha⟩ := List.mem_iff_getElem?.mp hnode
    rw [← branchLabel_entries (PmemHeap.node_ok.mpr ha)]
    exact hholds.sound.planned.wf.unique a
  · exact getDataNode_holds hholds hpaths hk hid hfit
  · exact visitsEach_iff hholds hc hf hn

section Sample

/-- Strings of at most 12 bytes. -/
def fixedString12 : NodeString String where
  ofString s := if s.utf8ByteSize ≤ 12 then .ok s else .error (.assertion "s.length() <= SIZE")
  asString s := s
  asString_ofString s f h := by
    split at h
    · exact (Except.ok.inj h).symm
    · cases h

def stepParam (step param : String) : Key := (({} : Key).push "step" step).push "param" param

/-- Two processes that insert into one new branch, and one that inserts again. -/
def sampleInserts : List (PmemEvent String Nat) :=
  [.call 0 (stepParam "1" "130") ⟨"param", "130"⟩ 7, .call 1 (stepParam "1" "131") ⟨"param", "131"⟩ 8,
    .turn 0, .turn 1, .turn 1, .turn 0, .call 2 (stepParam "1" "130") ⟨"param", "130"⟩ 9, .turn 2, .turn 2]

theorem sample_lastWins : fixedString12.getDataNode (PmemTree.run fixedString12 false sampleInserts).heap 0
    (stepParam "1" "130") = .ok (some 9) ∧
    VisitsEach fixedString12 false (PmemTree.run fixedString12 false sampleInserts) 3 ⟨"", ""⟩ (some {})
      { registry := some .untyped } [] [] := by
  have hpaths : PrefixFree (· = ["step", "param"]) := by
    rintro p q hq rfl hpq
    exact hq (List.append_cancel_left (hpq.trans (List.append_nil _).symm))
  have hevents : ∀ q key base d, .call q key base d ∈ sampleInserts → key.names = ["step", "param"] := by
    intro q key base d hmem
    simp only [sampleInserts, List.mem_cons, reduceCtorEq, PmemEvent.call.injEq, List.not_mem_nil, or_false,
      false_or] at hmem
    rcases hmem with ⟨-, rfl, -⟩ | ⟨-, rfl, -⟩ | ⟨-, rfl, -⟩ <;> rfl
  have hspoken (ids : List (String × String)) : ({ registry := some .untyped } : Key).Spoken ids := by
    refine ⟨⟨"", by decide⟩, fun kv _ => ⟨kv.2, ?_⟩⟩
    by_cases hv : kv.2 = "" <;> simp [Key.canonicalise, Key.registryOf, TypesRegistry.untyped, typeDefault, hv]
  have hfresh : Fresh (· = ["step", "param"]) { registry := some .untyped } := by
    rintro names rfl
    exact ⟨by decide, by simp⟩
  obtain ⟨-, hget, hvisits⟩ := @insertDataNode_lastWins _ _ fixedString12 _ false _ _ hpaths hevents
  constructor
  · apply (hget (stepParam "1" "130") [("step", "1"), ("param", "130")] rfl (by decide +kernel) ?_).trans
    · decide +kernel
    · rintro kv hkv
      simp only [List.mem_cons, List.not_mem_nil, or_false] at hkv
      rcases hkv with rfl | rfl
      · exact ⟨⟨"step", "1"⟩, by decide +kernel⟩
      · exact ⟨⟨"param", "130"⟩, by decide +kernel⟩
  · apply (hvisits ⟨"", ""⟩ (some {}) { registry := some .untyped } [] [] 3 ⟨by decide, by simp⟩ hfresh ?_).mpr
    · intro e _ ids _
      exact hspoken ids
    · decide +kernel

/-- The key below an index has no registry, and the first datum cannot be visited. -/
theorem index_not_visited : (PmemTree.run fixedString12 true sampleInserts).completed.map Prod.snd = [8, 7, 9] ∧
    Effect.value ((visitLeaves fixedString12 true (PmemTree.run fixedString12 true sampleInserts).heap 3
      ⟨"levtype", "sfc"⟩ 0 none).run ⟨[{}], []⟩) =
        .error (.seriousBug "TypesRegistry has not been set for Key prior to use") := by
  constructor
  · decide +kernel
  · decide +kernel

end Sample

end PBranchingNode

end Fdb5
