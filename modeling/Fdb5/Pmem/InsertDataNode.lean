import Mathlib.Data.List.Induction
import Fdb5.Library.Trie
import Fdb5.Pmem.BranchingNode

/-! Inserts into the tree of branching nodes, and what a lookup finds after them. -/
namespace Fdb5

open Effect

variable {F D : Type} {fixed : NodeString F} {heap heap' : PmemHeap F D} {base : PBaseNode F} {a b current : Nat}
  {key value : String} {done ids rest : List (String × String)} {d : D} {k : Key} {c : InsertCall F D}
  {paths : List String → Prop} {isIndex : Bool}

section Shape

/-- What a node is found by. -/
def PBaseNode.name (fixed : NodeString F) (base : PBaseNode F) : String × String := (base.key fixed, base.value fixed)

def PersistentPtr.entry (fixed : NodeString F) : PersistentPtr F D → Trie.Entry (String × String) D
  | .branchingNode base address => .branch (base.name fixed) address
  | .dataNode base data => .leaf (base.name fixed) data

/-- The trie that the nodes are. -/
def PmemHeap.shape (fixed : NodeString F) (heap : PmemHeap F D) : Trie.Heap (String × String) D :=
  heap.map fun node => node.nodes.map (PersistentPtr.entry fixed)

@[simp] theorem length_shape : (heap.shape fixed).length = heap.length := by simp [PmemHeap.shape]

theorem PmemHeap.node_ok {node : PBranchingNode F D} : heap.node a = .ok node ↔ heap[a]? = some node := by
  rw [PmemHeap.node]
  cases heap[a]? <;> simp

theorem PmemHeap.node_lt (h : a < heap.length) : ∃ node, heap.node a = .ok node :=
  ⟨heap[a], PmemHeap.node_ok.mpr (List.getElem?_eq_getElem h)⟩

theorem entries_shape {node : PBranchingNode F D} (h : heap.node a = .ok node) :
    Trie.entries (heap.shape fixed) a = node.nodes.map (PersistentPtr.entry fixed) := by
  simp [Trie.entries, PmemHeap.shape, PmemHeap.node_ok.mp h]

/-- The names of the branching nodes in a node. -/
def PBranchingNode.branchNames (fixed : NodeString F) (node : PBranchingNode F D) : List (String × String) :=
  node.nodes.filterMap fun
    | .branchingNode base _ => some (base.name fixed)
    | .dataNode _ _ => none

theorem branchLabel_entries {node : PBranchingNode F D} (h : heap.node a = .ok node) :
    (Trie.entries (heap.shape fixed) a).filterMap Trie.branchLabel = node.branchNames fixed := by
  rw [entries_shape h, List.filterMap_map, PBranchingNode.branchNames]
  congr 1
  funext n
  cases n <;> rfl

theorem shape_modify {n : PersistentPtr F D} :
    PmemHeap.shape fixed (heap.modify a fun b => { b with nodes := b.nodes ++ [n] }) =
      Trie.put (heap.shape fixed) a (n.entry fixed) := by
  apply List.ext_getElem?
  intro i
  simp only [PmemHeap.shape, Trie.put, List.getElem?_map, List.getElem?_modify]
  cases heap[i]? with
  | none => rfl
  | some node => by_cases hi : a = i <;> simp [hi]

/-- The heap with a new branching node in the node `current`. -/
def PmemHeap.create (heap : PmemHeap F D) (current : Nat) (base : PBaseNode F) : PmemHeap F D :=
  List.modify (heap ++ [{ nodes := [], isIndex := false }]) current
    fun b => { b with nodes := b.nodes ++ [.branchingNode base heap.length] }

theorem shape_create : (heap.create current base).shape fixed =
    Trie.link (heap.shape fixed) current (base.name fixed) := by
  have hnew : PmemHeap.shape fixed (heap ++ [{ nodes := [], isIndex := false }]) = heap.shape fixed ++ [[]] := by
    simp [PmemHeap.shape]
  rw [PmemHeap.create, shape_modify, Trie.link, length_shape, hnew]
  rfl

end Shape

section Names

/-- A base that was made of its own key and value. -/
def Made (fixed : NodeString F) (base : PBaseNode F) : Prop :=
  fixed.construct (base.key fixed) (base.value fixed) = .ok base

theorem construct_ok (h : fixed.construct key value = .ok base) : base.name fixed = (key, value) := by
  simp only [NodeString.construct, except_bind_ok, except_pure_ok] at h
  obtain ⟨f, hf, g, hg, rfl⟩ := h
  rw [PBaseNode.name, PBaseNode.key, PBaseNode.value, fixed.asString_ofString key f hf,
    fixed.asString_ofString value g hg]

theorem made_construct (h : fixed.construct key value = .ok base) : Made fixed base := by
  have hname := construct_ok h
  rw [PBaseNode.name, Prod.mk.injEq] at hname
  rw [Made, hname.1, hname.2, h]

variable [DecidableEq F]

theorem matchesBase_ok {r : Bool} (hm : Made fixed base) (h : fixed.matchesBase base key value = .ok r) :
    r = decide (base.name fixed = (key, value)) := by
  simp only [NodeString.matchesBase, except_bind_ok, except_pure_ok] at h
  obtain ⟨base', hbase, rfl⟩ := h
  apply decide_eq_decide.mpr
  constructor
  · rintro rfl
    exact construct_ok hbase
  · intro hname
    rw [PBaseNode.name, Prod.mk.injEq] at hname
    rw [Made, hname.1, hname.2, hbase] at hm
    exact (Except.ok.inj hm).symm

/-- The search stops at the first node of the name. -/
theorem search_ok {nodes : List (PersistentPtr F D)} {r : Option (PersistentPtr F D)}
    (hm : ∀ n ∈ nodes, Made fixed n.base) (h : fixed.search key value nodes = .ok r) :
    r = nodes.find? fun n => n.base.name fixed = (key, value) := by
  induction nodes with
  | nil => cases h; rfl
  | cons n nodes ih =>
    rw [NodeString.search, except_bind_ok] at h
    obtain ⟨found, hfound, h⟩ := h
    have hname := matchesBase_ok (hm n List.mem_cons_self) hfound
    cases found with
    | true =>
      cases h
      simp [of_decide_eq_true hname.symm]
    | false =>
      rw [List.find?_cons_of_neg (by simpa using hname.symm)]
      exact ih (fun m hmem => hm m (List.mem_cons_of_mem n hmem)) h

/-- The search does not fail for a key and a value that fit. -/
theorem search_returns (hfit : fixed.construct key value = .ok base) (nodes : List (PersistentPtr F D)) :
    ∃ r, fixed.search key value nodes = .ok r := by
  induction nodes with
  | nil => exact ⟨none, rfl⟩
  | cons n nodes ih =>
    have hmatches : fixed.matchesBase n.base key value = .ok (decide (n.base = base)) := by
      simp [NodeString.matchesBase, hfit]
    rw [NodeString.search, hmatches]
    cases decide (n.base = base) with
    | true => exact ⟨some n, rfl⟩
    | false => exact ih

end Names

section Planned

/-- A trie where every path is that of a key or can become one. -/
structure Planned (paths : List String → Prop) (h : Trie.Heap (String × String) D) : Prop where
  wf : Trie.WellFormed h
  branches : ∀ p b l c, Trie.walk h 0 p = some b → .branch l c ∈ Trie.entries h b →
    ∃ q, q ≠ [] ∧ paths ((p ++ [l]).map Prod.fst ++ q)
  leaves : ∀ p b l d, Trie.walk h 0 p = some b → .leaf l d ∈ Trie.entries h b → paths ((p ++ [l]).map Prod.fst)

variable {h : Trie.Heap (String × String) D} {l : String × String} {p : List (String × String)}

theorem Planned.put_leaf (hp : Planned paths h) (hw : Trie.walk h 0 p = some a) (hl : paths ((p ++ [l]).map Prod.fst)) :
    Planned paths (Trie.put h a (.leaf l d)) := by
  have ha := hp.wf.walk_lt hp.wf.root hw
  constructor
  · exact hp.wf.put_leaf
  · intro p' b l' c hw' hb
    rw [Trie.walk_put_leaf] at hw'
    by_cases hba : b = a
    · subst hba
      rw [Trie.entries_put_self ha] at hb
      exact hp.branches p' b l' c hw' (by simpa using hb)
    · rw [Trie.entries_put_ne hba] at hb
      exact hp.branches p' b l' c hw' hb
  · intro p' b l' d' hw' hb
    rw [Trie.walk_put_leaf] at hw'
    by_cases hba : b = a
    · subst hba
      rw [Trie.entries_put_self ha] at hb
      rcases List.mem_append.mp hb with hb | hb
      · exact hp.leaves p' b l' d' hw' hb
      · cases List.mem_singleton.mp hb
        rwa [hp.wf.apart p' p b hw' hw]
    · rw [Trie.entries_put_ne hba] at hb
      exact hp.leaves p' b l' d' hw' hb

theorem Planned.link {q : List String} (hp : Planned paths h) (hw : Trie.walk h 0 p = some a)
    (hnone : Trie.child? l (Trie.entries h a) = none) (hq : q ≠ []) (hl : paths ((p ++ [l]).map Prod.fst ++ q)) :
    Planned paths (Trie.link h a l) := by
  have ha := hp.wf.walk_lt hp.wf.root hw
  have hfresh : Trie.entries (Trie.link h a l) h.length = [] := by
    rw [Trie.entries_link_ne (Nat.ne_of_gt ha), Trie.entries_length]
  constructor
  · exact hp.wf.link ha hnone
  · intro p' b l' c hw' hb
    rcases (hp.wf.walk_link ha hnone hp.wf.root).mp hw' with hold | ⟨rfl, -⟩
    · by_cases hba : b = a
      · subst hba
        rw [Trie.entries_link_self ha] at hb
        rcases List.mem_append.mp hb with hb | hb
        · exact hp.branches p' b l' c hold hb
        · cases List.mem_singleton.mp hb
          rw [hp.wf.apart p' p b hold hw]
          exact ⟨q, hq, hl⟩
      · rw [Trie.entries_link_ne hba] at hb
        exact hp.branches p' b l' c hold hb
    · rw [hfresh] at hb
      cases hb
  · intro p' b l' d' hw' hb
    rcases (hp.wf.walk_link ha hnone hp.wf.root).mp hw' with hold | ⟨rfl, -⟩
    · by_cases hba : b = a
      · subst hba
        rw [Trie.entries_link_self ha] at hb
        exact hp.leaves p' b l' d' hold (by simpa using hb)
      · rw [Trie.entries_link_ne hba] at hb
        exact hp.leaves p' b l' d' hold hb
    · rw [hfresh] at hb
      cases hb

end Planned

section Sections

/-- What holds of the nodes between any two locks. -/
structure Sound (fixed : NodeString F) (paths : List String → Prop) (isIndex : Bool) (heap : PmemHeap F D) : Prop where
  planned : Planned paths (heap.shape fixed)
  made : ∀ node ∈ heap, ∀ n ∈ node.nodes, Made fixed n.base
  axes : ∃ n, heap.map PBranchingNode.isIndex = isIndex :: List.replicate n false

/-- What nodes that are created keep: the data of every path and the way to every node. -/
structure Kept (fixed : NodeString F) (paths : List String → Prop) (isIndex : Bool) (heap heap' : PmemHeap F D) : Prop where
  sound : Sound fixed paths isIndex heap'
  stored : ∀ ids, Trie.stored (heap'.shape fixed) 0 ids = Trie.stored (heap.shape fixed) 0 ids
  walk : ∀ p b, Trie.walk (heap.shape fixed) 0 p = some b → Trie.walk (heap'.shape fixed) 0 p = some b

theorem Kept.refl (h : Sound fixed paths isIndex heap) : Kept fixed paths isIndex heap heap :=
  ⟨h, fun _ => rfl, fun _ _ h => h⟩

theorem Kept.trans {heap'' : PmemHeap F D} (h : Kept fixed paths isIndex heap heap') (h' : Kept fixed paths isIndex heap' heap'') :
    Kept fixed paths isIndex heap heap'' :=
  ⟨h'.sound, fun ids => (h'.stored ids).trans (h.stored ids), fun p b hp => h'.walk p b (h.walk p b hp)⟩

theorem made_modify {n : PersistentPtr F D} (hm : ∀ node ∈ heap, ∀ n ∈ node.nodes, Made fixed n.base)
    (hn : Made fixed n.base) : ∀ node ∈ (heap.modify a fun b => { b with nodes := b.nodes ++ [n] } : PmemHeap F D),
      ∀ n ∈ node.nodes, Made fixed n.base := by
  intro node hnode m hmem
  obtain ⟨i, hi⟩ := List.mem_iff_getElem?.mp hnode
  rw [List.getElem?_modify] at hi
  obtain ⟨old, hold, rfl⟩ := Option.map_eq_some_iff.mp hi
  have hall := hm old (List.mem_iff_getElem?.mpr ⟨i, hold⟩)
  by_cases hai : a = i
  · simp only [hai, if_true] at hmem
    rcases List.mem_append.mp hmem with hmem | hmem
    · exact hall m hmem
    · rw [List.mem_singleton.mp hmem]
      exact hn
  · simp only [hai, if_false] at hmem
    exact hall m hmem

theorem isIndex_modify {n : PersistentPtr F D} :
    (heap.modify a fun b => { b with nodes := b.nodes ++ [n] }).map PBranchingNode.isIndex =
      heap.map PBranchingNode.isIndex := by
  apply List.ext_getElem?
  intro i
  rw [List.getElem?_map, List.getElem?_map, List.getElem?_modify]
  cases heap[i]? with
  | none => rfl
  | some node => by_cases hi : a = i <;> simp [hi]

theorem Sound.create {q : List String} (h : Sound fixed paths isIndex heap) (hm : Made fixed base)
    (hw : Trie.walk (heap.shape fixed) 0 done = some current)
    (hnone : Trie.child? (base.name fixed) (Trie.entries (heap.shape fixed) current) = none) (hq : q ≠ [])
    (hl : paths ((done ++ [base.name fixed]).map Prod.fst ++ q)) :
    Kept fixed paths isIndex heap (heap.create current base) := by
  have hlt := h.planned.wf.walk_lt h.planned.wf.root hw
  refine ⟨⟨?_, made_modify (fun node hnode => ?_) hm, ?_⟩, fun ids => ?_, fun p b hp => ?_⟩
  · rw [shape_create]
    exact h.planned.link hw hnone hq hl
  · rcases List.mem_append.mp hnode with hnode | hnode
    · exact h.made node hnode
    · rw [List.mem_singleton.mp hnode]
      simp
  · obtain ⟨n, hn⟩ := h.axes
    refine ⟨n + 1, ?_⟩
    rw [PmemHeap.create, isIndex_modify, List.map_append, hn, List.replicate_succ']
    rfl
  · rw [shape_create, Trie.stored_link h.planned.wf hlt hnone]
  · rw [shape_create]
    exact (h.planned.wf.walk_link hlt hnone h.planned.wf.root).mpr (.inl hp)

/-- The chain of new nodes is made of one path, and whatever stops it on the way nothing is lost. -/
theorem ends_createNodes {q : List String} (h : Sound fixed paths isIndex heap)
    (hw : Trie.walk (heap.shape fixed) 0 done = some current)
    (hnone : ∀ l ∈ ids.head?, Trie.child? l (Trie.entries (heap.shape fixed) current) = none) (hq : q ≠ [])
    (hl : paths ((done ++ ids).map Prod.fst ++ q)) :
    Ends (fixed.createNodes current ids) heap (fun a heap' => Kept fixed paths isIndex heap heap' ∧
      Trie.walk (heap'.shape fixed) 0 (done ++ ids) = some a) fun _ heap' => Kept fixed paths isIndex heap heap' := by
  induction ids generalizing done current heap with
  | nil => exact ⟨.refl h, by rwa [List.append_nil]⟩
  | cons kv ids ih =>
    obtain ⟨key, value⟩ := kv
    rw [NodeString.createNodes, ends_bind, ends_lift]
    refine ⟨fun base hbase => ?_, fun _ _ => .refl h⟩
    have hname := construct_ok hbase
    have hlt := h.planned.wf.walk_lt h.planned.wf.root hw
    have hfree : Trie.child? (base.name fixed) (Trie.entries (heap.shape fixed) current) = none :=
      hname ▸ hnone (key, value) rfl
    have hkept := h.create (q := ids.map Prod.fst ++ q) (made_construct hbase) hw hfree (by simp [hq])
      (by simpa [hname] using hl)
    have hnext : Trie.walk ((heap.create current base).shape fixed) 0 (done ++ [(key, value)]) = some heap.length := by
      rw [shape_create, h.planned.wf.walk_link hlt hfree h.planned.wf.root]
      exact .inr ⟨length_shape.symm, done, hw, by rw [hname]⟩
    have hempty : Trie.entries ((heap.create current base).shape fixed) heap.length = [] := by
      rw [length_shape] at hlt
      have hnew : Trie.entries (heap.shape fixed) heap.length = [] := by simp [Trie.entries]
      rw [shape_create, Trie.entries_link_ne (Nat.ne_of_gt hlt), hnew]
    have hrest := ih hkept.sound hnext (fun l _ => by rw [hempty]; rfl) (by simpa using hl)
    apply hrest.mono _ fun _ _ hk => hkept.trans hk
    rintro a heap' ⟨hk, ha⟩
    exact ⟨hkept.trans hk, by simpa using ha⟩

section Search

variable {node : PBranchingNode F D} {l : String × String} {n : PersistentPtr F D}

theorem made_node (h : Sound fixed paths isIndex heap) (hnode : heap.node a = .ok node) : ∀ n ∈ node.nodes, Made fixed n.base :=
  h.made node (List.mem_iff_getElem?.mpr ⟨a, PmemHeap.node_ok.mp hnode⟩)

theorem entry_of_find (hnode : heap.node a = .ok node)
    (hfind : (node.nodes.reverse.find? fun n => n.base.name fixed = l) = some n) :
    n.base.name fixed = l ∧ n.entry fixed ∈ Trie.entries (heap.shape fixed) a := by
  have hname := List.find?_some hfind
  have hmem := List.mem_of_find?_eq_some hfind
  rw [entries_shape hnode]
  exact ⟨by simpa using hname, List.mem_map_of_mem (List.mem_reverse.mp hmem)⟩

theorem child_of_find_none (hnode : heap.node a = .ok node)
    (hfind : (node.nodes.reverse.find? fun n => n.base.name fixed = l) = none) :
    Trie.child? l (Trie.entries (heap.shape fixed) a) = none := by
  apply Trie.child?_eq_none.mpr
  intro b hb
  rw [entries_shape hnode] at hb
  obtain ⟨n, hn, hentry⟩ := List.mem_map.mp hb
  have hno := List.find?_eq_none.mp hfind n (List.mem_reverse.mpr hn)
  cases n with
  | dataNode base d => cases hentry
  | branchingNode base c =>
    cases hentry
    simp [PersistentPtr.base] at hno

/-- Where no branch has the name, the search finds the newest datum of that name. -/
theorem find_data {nodes : List (PersistentPtr F D)}
    (hno : ∀ b, .branch l b ∉ nodes.map (PersistentPtr.entry fixed)) :
    (nodes.reverse.find? fun n => n.base.name fixed = l) = none ∧
        Trie.dataAt l (nodes.map (PersistentPtr.entry fixed)) = [] ∨
      ∃ base d, (nodes.reverse.find? fun n => n.base.name fixed = l) = some (.dataNode base d) ∧
        (Trie.dataAt l (nodes.map (PersistentPtr.entry fixed))).getLast? = some d := by
  induction nodes using List.reverseRecOn with
  | nil => exact .inl ⟨rfl, rfl⟩
  | append_singleton nodes n ih =>
    rw [List.map_append, List.map_singleton] at hno ⊢
    have hrest := ih fun b hb => hno b (List.mem_append_left _ hb)
    rw [List.reverse_append, List.reverse_singleton, List.singleton_append, List.find?_cons]
    cases n with
    | branchingNode base b =>
      have hne : ¬ base.name fixed = l := by
        rintro rfl
        exact hno b (by simp [PersistentPtr.entry])
      rw [PersistentPtr.entry, Trie.dataAt_put_branch]
      simpa [PersistentPtr.base, hne] using hrest
    | dataNode base d =>
      rw [PersistentPtr.entry, Trie.dataAt_put_leaf]
      by_cases hl : base.name fixed = l
      · exact .inr ⟨base, d, by simp [PersistentPtr.base, hl], by simp [hl]⟩
      · simpa [PersistentPtr.base, hl] using hrest

end Search

section Turns

variable [DecidableEq F]

/-- A turn goes to the node of one more pair, or makes the nodes of all that are left. -/
theorem ends_getCreateTurn {q : List String} (h : Sound fixed paths isIndex heap)
    (hw : Trie.walk (heap.shape fixed) 0 done = some current) (hq : q ≠ [])
    (hl : paths ((done ++ (key, value) :: rest).map Prod.fst ++ q)) :
    Ends (fixed.getCreateTurn current key value rest) heap (fun r heap' => Kept fixed paths isIndex heap heap' ∧
      ∃ done', done' ++ r.2 = done ++ (key, value) :: rest ∧ Trie.walk (heap'.shape fixed) 0 done' = some r.1)
      fun _ heap' => Kept fixed paths isIndex heap heap' := by
  rw [NodeString.getCreateTurn, ends_bind, ends_get, ends_bind, ends_lift]
  refine ⟨fun node hnode => ?_, fun _ _ => .refl h⟩
  rw [ends_bind, ends_lift]
  refine ⟨fun found hfound => ?_, fun _ _ => .refl h⟩
  have hfind := search_ok (fun n hn => made_node h hnode n (List.mem_reverse.mp hn)) hfound
  cases found with
  | none =>
    have hnone := child_of_find_none hnode hfind.symm
    rw [ends_bind]
    refine (ends_createNodes h hw (fun l hl => ?_) hq hl).mono (fun a heap' ⟨hk, ha⟩ => ?_) fun _ _ hk => hk
    · cases hl
      exact hnone
    · exact ⟨hk, _, List.append_nil _, ha⟩
  | some n =>
    obtain ⟨hname, hentry⟩ := entry_of_find hnode hfind.symm
    cases n with
    | dataNode base d => exact .refl h
    | branchingNode base b =>
      refine ⟨.refl h, done ++ [(key, value)], by simp, ?_⟩
      rw [Trie.walk_concat hw]
      exact h.planned.wf.child_of_mem (hname ▸ hentry)

/-- The last section of an insert puts the datum at the end of the key's path, or does nothing. -/
theorem ends_appendDataNode (h : Sound fixed paths isIndex heap) : Ends (fixed.appendDataNode current k base d) heap
    (fun _ heap' => ∃ key value, k.names.getLast? = some key ∧ k.value key = .ok value ∧
      heap'.shape fixed = Trie.put (heap.shape fixed) current (.leaf (key, value) d) ∧
      (∀ node ∈ heap', ∀ n ∈ node.nodes, Made fixed n.base) ∧
      heap'.map PBranchingNode.isIndex = heap.map PBranchingNode.isIndex) fun _ heap' => heap' = heap := by
  rw [NodeString.appendDataNode]
  cases hkey : k.names.getLast? with
  | none => exact rfl
  | some key =>
    rw [ends_bind, ends_lift]
    refine ⟨fun value hvalue => ?_, fun _ _ => rfl⟩
    rw [ends_bind, ends_lift]
    refine ⟨fun found hfound => ?_, fun _ _ => rfl⟩
    rw [ends_bind, ends_ensure]
    refine ⟨?_, fun _ => rfl⟩
    rintro rfl
    simp only [NodeString.matchesBase, except_bind_ok, except_pure_ok, decide_eq_true_eq] at hfound
    obtain ⟨base', hbase, rfl⟩ := hfound
    rw [ends_bind, ends_get, ends_bind, ends_lift]
    refine ⟨fun node hnode => ?_, fun _ _ => rfl⟩
    refine Ends.bind (P := fun _ heap' => heap' = heap) ?_ ?_
    · refine ends_forM (fun n hn s hs => ?_) heap rfl
      subst hs
      rw [ends_bind, ends_lift]
      refine ⟨fun same _ => ?_, fun _ _ => rfl⟩
      rw [ends_ite]
      exact ⟨fun _ => ends_ensure.mpr ⟨fun _ => rfl, fun _ => rfl⟩, fun _ => rfl⟩
    · rintro _ _ rfl
      rw [pushBackElem, ends_modify]
      refine ⟨key, value, rfl, hvalue, ?_, ?_, isIndex_modify⟩
      · rw [shape_modify, PersistentPtr.entry, construct_ok hbase]
      · exact made_modify h.made (made_construct hbase)

end Turns

end Sections

section Pairs

variable {names : List String} {key : String}

theorem pairs_names (h : k.pairs names = .ok ids) : ids.map Prod.fst = names := by
  induction names generalizing ids with
  | nil => cases h; rfl
  | cons name names ih =>
    simp only [Key.pairs, List.mapM_cons, except_bind_ok, except_pure_ok] at h
    obtain ⟨_, ⟨value, -, rfl⟩, rest, hrest, rfl⟩ := h
    rw [List.map_cons, ih hrest]

theorem pairs_concat (h : k.pairs names = .ok ids) (hv : k.value key = .ok value) :
    k.pairs (names ++ [key]) = .ok (ids ++ [(key, value)]) := by
  rw [Key.pairs, List.mapM_append, except_bind_ok]
  exact ⟨ids, h, by simp [hv]⟩

end Pairs

section Runs

/-- The data of the completed inserts of a key, the oldest first. -/
def insertsOf (completed : List (Key × D)) (ids : List (String × String)) : List D :=
  (completed.filter fun e => e.1.identifier = .ok ids).map Prod.snd

/-- Where a call is on the path of its key. -/
structure Underway (fixed : NodeString F) (paths : List String → Prop) (heap : PmemHeap F D) (c : InsertCall F D) :
    Prop where
  path : paths c.key.names
  nonempty : c.key.names ≠ []
  at_ : ∃ done, Trie.walk (heap.shape fixed) 0 done = some c.current ∧
    c.key.pairs c.key.names.dropLast = .ok (done ++ c.rest)

theorem Underway.mono (h : Underway fixed paths heap c)
    (hw : ∀ p b, Trie.walk (heap.shape fixed) 0 p = some b → Trie.walk (heap'.shape fixed) 0 p = some b) :
    Underway fixed paths heap' c := by
  obtain ⟨done, hdone, hpairs⟩ := h.at_
  exact ⟨h.path, h.nonempty, done, hw done _ hdone, hpairs⟩

/-- The tree holds the completed inserts, path by path and in their order. -/
structure PmemTree.Holds (fixed : NodeString F) (paths : List String → Prop) (isIndex : Bool) (t : PmemTree F D) : Prop where
  sound : Sound fixed paths isIndex t.heap
  stored : ∀ ids, Trie.stored (t.heap.shape fixed) 0 ids = insertsOf t.completed ids
  identified : ∀ e ∈ t.completed, paths e.1.names ∧ ∃ ids, e.1.identifier = .ok ids
  calls : ∀ q c, t.calls q = some c → Underway fixed paths t.heap c

variable {t : PmemTree F D} {process : Nat}

theorem holds_init : (PmemTree.init isIndex : PmemTree F D).Holds fixed paths isIndex := by
  have hshape : (PmemTree.init isIndex : PmemTree F D).heap.shape fixed = [[]] := rfl
  have hentries (a : Nat) : Trie.entries ([[]] : Trie.Heap (String × String) D) a = [] := by
    cases a <;> simp [Trie.entries]
  refine ⟨⟨⟨?_, ?_, ?_⟩, ?_, 0, rfl⟩, ?_, ?_, ?_⟩
  · exact hshape ▸ Trie.wellFormed_singleton
  · intro p b l c _ hb
    simp [hshape, hentries] at hb
  · intro p b l d _ hb
    simp [hshape, hentries] at hb
  · intro node hnode n hn
    obtain rfl := List.mem_singleton.mp hnode
    cases hn
  · intro ids
    rw [hshape]
    rcases List.eq_nil_or_concat ids with rfl | ⟨ids, l, rfl⟩
    · rfl
    · rw [List.concat_eq_append, Trie.stored_concat]
      cases Trie.walk ([[]] : Trie.Heap (String × String) D) 0 ids <;> simp [hentries, Trie.dataAt] <;> rfl
  · intro e he
    cases he
  · intro q c hc
    cases hc

theorem PmemTree.Holds.setCall (h : t.Holds fixed paths isIndex) {o : Option (InsertCall F D)}
    (ho : ∀ c ∈ o, Underway fixed paths t.heap c) : (t.setCall process o).Holds fixed paths isIndex := by
  refine ⟨h.sound, h.stored, h.identified, fun q c hc => ?_⟩
  simp only [PmemTree.setCall] at hc
  by_cases hq : q = process
  · rw [if_pos hq] at hc
    exact ho c hc
  · rw [if_neg hq] at hc
    exact h.calls q c hc

theorem PmemTree.Holds.kept (h : t.Holds fixed paths isIndex) (hk : Kept fixed paths isIndex t.heap heap') :
    ({ t with heap := heap' }).Holds fixed paths isIndex :=
  ⟨hk.sound, fun ids => (hk.stored ids).trans (h.stored ids), h.identified, fun q c hc => (h.calls q c hc).mono hk.walk⟩

variable [DecidableEq F]

/-- What the next lock of a call is taken for: nodes on the way to its parent, or the datum, at the end of the path. -/
theorem ends_nextNode (h : Sound fixed paths isIndex heap) (hc : Underway fixed paths heap c) :
    Ends (c.next fixed) heap (fun o heap' => match o with
      | some c' => Kept fixed paths isIndex heap heap' ∧ Underway fixed paths heap' c'
      | none => ∃ ids, c.key.identifier = .ok ids ∧ Sound fixed paths isIndex heap' ∧
        (∀ p, Trie.stored (heap'.shape fixed) 0 p =
          Trie.stored (heap.shape fixed) 0 p ++ if p = ids then [c.data] else []) ∧
        ∀ p b, Trie.walk (heap.shape fixed) 0 p = some b → Trie.walk (heap'.shape fixed) 0 p = some b)
      fun _ heap' => Kept fixed paths isIndex heap heap' := by
  obtain ⟨done, hdone, hpairs⟩ := hc.at_
  have hnames := pairs_names hpairs
  have hlast := List.dropLast_append_getLast hc.nonempty
  rw [InsertCall.next]
  cases hrest : c.rest with
  | cons kv rest =>
    obtain ⟨key, value⟩ := kv
    rw [hrest] at hpairs hnames
    have hpath : paths ((done ++ (key, value) :: rest).map Prod.fst ++ [c.key.names.getLast hc.nonempty]) := by
      rw [hnames, hlast]
      exact hc.path
    rw [ends_bind]
    refine (ends_getCreateTurn h hdone (by simp) hpath).mono (fun r heap' hr => ?_) fun _ _ hk => hk
    obtain ⟨hk, done', hsplit, hdone'⟩ := hr
    exact ⟨hk, hc.path, hc.nonempty, done', hdone', by rw [hpairs, hsplit]⟩
  | nil =>
    rw [hrest, List.append_nil] at hpairs hnames
    rw [ends_bind]
    refine (ends_appendDataNode h).mono (fun _ heap' hr => ?_) fun _ heap' hk => by
      rw [hk]
      exact .refl h
    obtain ⟨key, value, hkey, hvalue, hshape, hmade, haxes⟩ := hr
    have hkeys : c.key.names = c.key.names.dropLast ++ [key] := by
      rw [List.getLast?_eq_some_getLast hc.nonempty, Option.some.injEq] at hkey
      rw [← hkey, hlast]
    have hid : c.key.identifier = .ok (done ++ [(key, value)]) := by
      rw [Key.identifier, hkeys]
      exact pairs_concat hpairs hvalue
    have hpath : paths ((done ++ [(key, value)]).map Prod.fst) := by
      rw [pairs_names hid]
      exact hc.path
    refine ⟨_, hid, ⟨?_, hmade, haxes ▸ h.axes⟩, fun p => ?_, fun p b hp => ?_⟩
    · rw [hshape]
      exact h.planned.put_leaf hdone hpath
    · rw [hshape, Trie.stored_put_leaf h.planned.wf hdone]
    · rwa [hshape, Trie.walk_put_leaf]

theorem insertsOf_concat {completed : List (Key × D)} : insertsOf (completed ++ [(k, d)]) ids =
    insertsOf completed ids ++ if k.identifier = .ok ids then [d] else [] := by
  rw [insertsOf, List.filter_append, List.map_append]
  by_cases hk : k.identifier = .ok ids <;> simp [hk, insertsOf]

theorem holds_step {e : PmemEvent F D} (h : t.Holds fixed paths isIndex)
    (he : ∀ q key base d, e = .call q key base d → paths key.names) : (t.step fixed e).Holds fixed paths isIndex := by
  cases e with
  | call process key base d =>
    rw [PmemTree.step]
    split
    · next c hcalls hstart =>
      apply h.setCall
      intro c' hc
      cases hc
      rw [InsertCall.start] at hstart
      by_cases hne : key.names = []
      · simp [hne] at hstart
      · simp only [hne, if_false, except_bind_ok, except_pure_ok] at hstart
        obtain ⟨rest, hrest, rfl⟩ := hstart
        exact ⟨he process key base d rfl, hne, [], rfl, hrest⟩
    · exact h
  | turn process =>
    cases hcall : t.calls process with
    | none => simpa only [PmemTree.step, hcall] using h
    | some c =>
      have hnext := ends_nextNode h.sound (h.calls process c hcall)
      cases hrun : (c.next fixed).run t.heap with
      | error e heap' =>
        simp only [PmemTree.step, hcall, hrun]
        exact (h.kept (hnext.error hrun)).setCall (by simp)
      | ok o heap' =>
        have hok := hnext.ok hrun
        cases o with
        | some c' =>
          simp only [PmemTree.step, hcall, hrun]
          apply (h.kept hok.1).setCall
          intro c'' hc
          cases hc
          exact hok.2
        | none =>
          obtain ⟨ids, hid, hsound, hstored, hwalk⟩ := hok
          simp only [PmemTree.step, hcall, hrun]
          have hholds : ({ t with heap := heap', completed := t.completed ++ [(c.key, c.data)] } :
              PmemTree F D).Holds fixed paths isIndex := by
            refine ⟨hsound, fun p => ?_, fun e he => ?_, fun q c hc => (h.calls q c hc).mono hwalk⟩
            · rw [hstored, h.stored, insertsOf_concat, hid]
              simp [eq_comm]
            · rcases List.mem_append.mp he with he | he
              · exact h.identified e he
              · rw [List.mem_singleton.mp he]
                exact ⟨(h.calls process c hcall).path, ids, hid⟩
          exact hholds.setCall (by simp)

/-- Whatever the interleaving, the tree holds the completed inserts. -/
theorem holds_run {events : List (PmemEvent F D)}
    (he : ∀ q key base d, .call q key base d ∈ events → paths key.names) :
    (PmemTree.run fixed isIndex events).Holds fixed paths isIndex := by
  induction events using List.reverseRecOn with
  | nil => exact holds_init
  | append_singleton events e ih =>
    rw [PmemTree.run, List.foldl_concat]
    apply holds_step
    · exact ih fun q key base d hmem => he q key base d (List.mem_append_left _ hmem)
    · rintro q key base d rfl
      exact he q key base d (by simp)

end Runs

section Lookups

variable [DecidableEq F] {t : PmemTree F D}

/-- No path goes on where another one ends, as the rules of a schema have it. -/
def PrefixFree (paths : List String → Prop) : Prop := ∀ p q, q ≠ [] → paths p → ¬ paths (p ++ q)

omit [DecidableEq F] in
theorem mem_insertsOf {completed : List (Key × D)} : d ∈ insertsOf completed ids ↔
    ∃ key, (key, d) ∈ completed ∧ key.identifier = .ok ids := by
  simp [insertsOf]

theorem getDataLoop_stored (h : Sound fixed paths isIndex heap) (hpaths : PrefixFree paths)
    (hfit : ∀ kv ∈ rest, ∃ base, fixed.construct kv.1 kv.2 = .ok base) (hk : paths ((done ++ rest).map Prod.fst))
    (hw : Trie.walk (heap.shape fixed) 0 done = some current) (hne : rest ≠ []) :
    fixed.getDataLoop heap current rest = .ok (Trie.stored (heap.shape fixed) 0 (done ++ rest)).getLast? := by
  induction rest generalizing done current with
  | nil => exact absurd rfl hne
  | cons kv rest ih =>
    obtain ⟨key, value⟩ := kv
    have hlt : current < heap.length := by simpa using h.planned.wf.walk_lt h.planned.wf.root hw
    obtain ⟨node, hnode⟩ := PmemHeap.node_lt hlt
    obtain ⟨base, hbase⟩ := hfit (key, value) List.mem_cons_self
    obtain ⟨found, hfound⟩ := search_returns hbase node.nodes.reverse
    have hfind := search_ok (fun n hn => made_node h hnode n (List.mem_reverse.mp hn)) hfound
    have hentries : Trie.entries (heap.shape fixed) current = node.nodes.map (PersistentPtr.entry fixed) :=
      entries_shape hnode
    rw [NodeString.getDataLoop, hnode]
    change (fixed.search key value node.nodes.reverse >>= _) = _
    rw [hfound]
    cases rest with
    | nil =>
      have hno : ∀ b, .branch (key, value) b ∉ node.nodes.map (PersistentPtr.entry fixed) := by
        intro b hb
        obtain ⟨q, hq, hpath⟩ := h.planned.branches done current (key, value) b hw (hentries ▸ hb)
        exact hpaths _ q hq hk hpath
      rw [Trie.stored_concat, hw, Option.map_some, Option.getD_some, hentries]
      rcases find_data hno with ⟨hnone, hdata⟩ | ⟨base', d, hsome, hdata⟩
      · rw [hfind, hnone, hdata]
        rfl
      · rw [hfind, hsome, hdata]
        rfl
    | cons kv' rest =>
      cases found with
      | none =>
        have hnone := child_of_find_none hnode hfind.symm
        rw [Trie.stored_of_child_none hw hnone (List.cons_ne_nil kv' rest)]
        rfl
      | some n =>
        obtain ⟨hname, hentry⟩ := entry_of_find hnode hfind.symm
        cases n with
        | dataNode base' d =>
          have hshort := h.planned.leaves done current (key, value) d hw (hname ▸ hentry)
          refine absurd ?_ (hpaths _ ((kv' :: rest).map Prod.fst) (by simp) hshort)
          simpa using hk
        | branchingNode base' b =>
          have hchild : Trie.walk (heap.shape fixed) 0 (done ++ [(key, value)]) = some b := by
            rw [Trie.walk_concat hw]
            exact h.planned.wf.child_of_mem (hname ▸ hentry)
          have hrest := ih (fun l hl => hfit l (List.mem_cons_of_mem _ hl)) (by simpa using hk) hchild (by simp)
          rw [List.append_assoc, List.singleton_append] at hrest
          rw [← hrest]
          rfl

/-- A lookup gives the newest datum that was put there, or none. -/
theorem getDataNode_holds (h : t.Holds fixed paths isIndex) (hpaths : PrefixFree paths) (hk : paths k.names)
    (hid : k.identifier = .ok ids) (hfit : ∀ kv ∈ ids, ∃ base, fixed.construct kv.1 kv.2 = .ok base) :
    fixed.getDataNode t.heap 0 k = .ok (insertsOf t.completed ids).getLast? := by
  rw [NodeString.getDataNode, hid, ← h.stored]
  cases ids with
  | nil => rfl
  | cons kv ids =>
    have hpath : paths (([] ++ kv :: ids).map Prod.fst) := by
      rw [List.nil_append, pairs_names hid]
      exact hk
    exact getDataLoop_stored h.sound hpaths hfit hpath rfl (by simp)

end Lookups

end Fdb5
