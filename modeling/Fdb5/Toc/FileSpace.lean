import Fdb5.Toc.Catalogue
import Fdb5.Library.Follows

/-! `FileSpace`: the root that a database is found at, or is given. -/
namespace Fdb5

open Effect

deriving instance DecidableEq for ControlIdentifier

/-- `ControlIdentifiers`: what is disabled. -/
abbrev ControlIdentifiers := List ControlIdentifier

def ControlIdentifiers.enabled (identifiers : ControlIdentifiers) (i : ControlIdentifier) : Bool := i ∉ identifiers

/-- A root of a file space; `checked` is what `exists()` has found, once it has looked. -/
structure Root where
  path : String
  controlIdentifiers : ControlIdentifiers := []
  checked : Option Bool := none

structure FileSpace where
  re : Regex := fun _ => true
  handler : String
  roots : List Root

/-- The directories of roots that there are, the database directories that hold a toc, and those that hold
`duplicates.allow`, each under its root. -/
structure RootTree where
  dirs : String → Bool
  tocs : String → String → Bool := fun _ _ => false
  allows : String → String → Bool := fun _ _ => false

namespace Root

def exists_ (r : Root) (tree : RootTree) : Bool := r.checked.getD (tree.dirs r.path)

/-- The root after `exists()`. -/
def check (r : Root) (tree : RootTree) : Root := { r with checked := some (r.exists_ tree) }

/-- `enabled(identifier) && exists()`. -/
def usable (r : Root) (tree : RootTree) (i : ControlIdentifier) : Bool := r.controlIdentifiers.enabled i && r.exists_ tree

/-- The root after `enabled(identifier) && exists()`. -/
def used (r : Root) (tree : RootTree) (i : ControlIdentifier) : Root :=
  if r.controlIdentifiers.enabled i then r.check tree else r

/-- The database and its toc are there. -/
def holds (r : Root) (tree : RootTree) (db : String) : Bool := tree.dirs r.path && tree.tocs r.path db

/-- `existsDB` sees the database here. -/
def sees (tree : RootTree) (db : String) (r : Root) : Bool := r.usable tree .list && r.holds tree db

end Root

namespace FileSpace

abbrev Act := EStateM Failure FileSpace

/-- The loop of `existsDB`: its count, and the root it has found. -/
def findDB (tree : RootTree) (db : String) : List Root → Nat × Option TocPath → Nat × Option TocPath
  | [], found => found
  | r :: rest, (count, root) =>
    if r.sees tree db then
      let allowMultipleDbs := tree.allows r.path db
      let root := if count = 0 || allowMultipleDbs then some ⟨r.path, r.controlIdentifiers.enabled⟩ else root
      findDB tree db rest (if allowMultipleDbs then count else count + 1, root)
    else findDB tree db rest (count, root)

def existsDB (tree : RootTree) (db : String) : Act (Option TocPath) := do
  let (count, root) := findDB tree db (← get).roots (0, none)
  modify fun fs => { fs with roots := fs.roots.map fun r => r.used tree .list }
  if count ≤ 1 then return root
  throw (.userError "Found multiple FDB roots matching key")

/-- `enabled(controlIdentifier)`. -/
def enabled (tree : RootTree) (i : ControlIdentifier) : Act (List String) := do
  let roots := (← get).roots
  modify fun fs => { fs with roots := fs.roots.map fun r => r.used tree i }
  return (roots.filter fun r => r.usable tree i).map Root.path

end FileSpace

/-- `selectFileSystem` of a handler. -/
abbrev FileSpaceHandler := RootTree → Key → FileSpace.Act String

/-- `detail::First`. -/
def FileSpaceHandler.first : FileSpaceHandler := fun tree _ => do
  match ← FileSpace.enabled tree .archive with
  | [] => throw (.exception "No writable roots available")
  | root :: _ => return root

/-- What a lookup of handlers by name finds. -/
abbrev HandlerMap := String → Option FileSpaceHandler

namespace FileSpace

/-- `FileSpaceHandler::lookup(handler_).selectFileSystem(key, *this)`. -/
def select (handlers : HandlerMap) (tree : RootTree) (key : Key) : Act String := do
  match handlers (← get).handler with
  | some handler => handler tree key
  | none => throw (.seriousBug "No FileSpaceHandler called")

def filesystem (handlers : HandlerMap) (tree : RootTree) (key : Key) (db : String) : Act TocPath := do
  match ← existsDB tree db with
  | some root => return root
  | none => return ⟨← select handlers tree key, ControlIdentifiers.enabled []⟩

end FileSpace

/-- The roots on the disk, the file space in each process, the roots chosen for databases that are still to be made, by
process, and what calls have returned. -/
structure HomeSystem where
  tree : RootTree
  space : Nat → FileSpace
  chosen : List (Nat × String × String) := []
  returned : List (String × String) := []

/-- A call of `filesystem`, with what the handlers are to it; the making of a database at the root that a process was
given for it; the end of a process; and what others do to the roots and to `duplicates.allow`. -/
inductive HomeStep where
  | call (process : Nat) (key : Key) (db : String) (handlers : HandlerMap)
  | create (process : Nat) (db root : String)
  | exit (process : Nat)
  | mount (root : String) (there : Bool)
  | allow (root db : String) (there : Bool)

namespace HomeSystem

/-- How a call in this state ends. -/
def result (s : HomeSystem) (process : Nat) (key : Key) (db : String) (handlers : HandlerMap) :
    EStateM.Result Failure FileSpace TocPath :=
  (FileSpace.filesystem handlers s.tree key db).run (s.space process)

def step (s : HomeSystem) : HomeStep → HomeSystem
  | .call process key db handlers =>
    match s.result process key db handlers with
    | .ok root fs =>
      { s with space := Function.update s.space process fs, chosen := (process, db, root.directory) :: s.chosen,
               returned := (db, root.directory) :: s.returned }
    | .error _ fs => { s with space := Function.update s.space process fs }
  | .create process db root =>
    if (process, db, root) ∈ s.chosen then
      { s with tree := { s.tree with tocs := Function.update s.tree.tocs root (Function.update (s.tree.tocs root) db true) },
               chosen := s.chosen.erase (process, db, root) }
    else s
  | .exit process => { s with chosen := s.chosen.filter fun c => c.1 ≠ process }
  | .mount root there => { s with tree := { s.tree with dirs := Function.update s.tree.dirs root there } }
  | .allow root db there =>
    { s with tree := { s.tree with allows := Function.update s.tree.allows root (Function.update (s.tree.allows root) db there) } }

/-- At most one root holds the database, unless it has `duplicates.allow` there. -/
def Single (s : HomeSystem) : Prop :=
  ∀ db root root', s.tree.tocs root db = true → s.tree.tocs root' db = true → s.tree.allows root db = false →
    s.tree.allows root' db = false → root = root'

/-- The call returns the root that was returned before, where the database is there and its root exists. -/
def ReturnsHome (s : HomeSystem) : HomeStep → Prop
  | .call process key db handlers => ∀ root, (db, root) ∈ s.returned → s.tree.tocs root db = true → s.tree.dirs root = true →
    ∃ path fs, s.result process key db handlers = .ok path fs ∧ path.directory = root
  | _ => True

/-- The roots at which a process sees the database. -/
def seen (s : HomeSystem) (process : Nat) (db : String) : List Root :=
  (s.space process).roots.filter (Root.sees s.tree db)

/-- The file space after the loop of `existsDB`. -/
def looked (s : HomeSystem) (process : Nat) : FileSpace :=
  { s.space process with roots := (s.space process).roots.map fun r => r.used s.tree .list }

/-- What the handler gives a process that has seen no database. -/
def selected (s : HomeSystem) (process : Nat) (key : Key) (handlers : HandlerMap) : Except Failure String :=
  value ((FileSpace.select handlers s.tree key).run (s.looked process))

/-- Where a call does not see the database, the handler gives the root that holds it or that is chosen for it; where it
sees it, it sees it once. -/
def Safe (s : HomeSystem) : HomeStep → Prop
  | .call process key db handlers =>
    if s.seen process db = [] then
      (∀ root, s.tree.tocs root db = true → s.tree.dirs root = true → s.selected process key handlers = .ok root) ∧
      ∀ root, s.tree.tocs root db = true ∨ (∃ p, (p, db, root) ∈ s.chosen) →
        ∀ path, s.selected process key handlers = .ok path → path = root
    else ∀ r ∈ s.seen process db, s.tree.allows r.path db = true ∨ (s.seen process db).length = 1
  | _ => True

/-- A database is at no more than one root. -/
def Start (s : HomeSystem) : Prop :=
  s.chosen = [] ∧ s.returned = [] ∧ ∀ db root root', s.tree.tocs root db = true → s.tree.tocs root' db = true → root = root'

end HomeSystem

namespace FileSpace

variable {tree : RootTree} {db home : String} {roots : List Root} {found : Nat × Option TocPath} {count : Nat}
  {root : Option TocPath} {fs fs' : FileSpace} {handlers : HandlerMap} {key : Key} {path : TocPath}

/-- Only the roots where the database is seen count. -/
theorem findDB_filter :
    findDB tree db roots found = findDB tree db (roots.filter (Root.sees tree db)) found := by
  induction roots generalizing found with
  | nil => rfl
  | cons r rest ih =>
    obtain ⟨count, root⟩ := found
    by_cases h : r.sees tree db = true
    · rw [List.filter_cons_of_pos h, findDB, findDB, if_pos h, if_pos h]
      exact ih
    · rw [List.filter_cons_of_neg h, findDB, if_neg h]
      exact ih

/-- A database with `duplicates.allow` is found at the last root that holds it. -/
theorem findDB_allowed (hroots : ∀ r ∈ roots, r.path = home) (hseen : ∀ r ∈ roots, r.sees tree db = true)
    (hallow : tree.allows home db = true) (h : roots ≠ [] ∨ ∃ path, root = some path ∧ path.directory = home) :
    ∃ path, findDB tree db roots (count, root) = (count, some path) ∧ path.directory = home := by
  induction roots generalizing root with
  | nil =>
    obtain h | ⟨path, rfl, hpath⟩ := h
    · exact absurd rfl h
    · exact ⟨path, rfl, hpath⟩
  | cons r rest ih =>
    have hr : r.path = home := hroots r (.head _)
    rw [findDB, if_pos (hseen r (.head _)), hr]
    simp only [hallow, Bool.or_true, if_true]
    apply ih (fun r hr => hroots r (.tail _ hr)) (fun r hr => hseen r (.tail _ hr))
    exact .inr ⟨_, rfl, rfl⟩

end FileSpace

namespace HomeSystem

variable {s : HomeSystem} {a : HomeStep} {process : Nat} {key : Key} {db home : String} {handlers : HandlerMap} {calls : List HomeStep}

/-- Where a call sees the database, it returns the root. -/
theorem result_seen (hne : s.seen process db ≠ []) (hroots : ∀ r ∈ s.seen process db, r.path = home)
    (honce : ∀ r ∈ s.seen process db, s.tree.allows r.path db = true ∨ (s.seen process db).length = 1) :
    ∃ path fs, s.result process key db handlers = .ok path fs ∧ path.directory = home := by
  have hsees : ∀ r ∈ s.seen process db, r.sees s.tree db = true := fun r hr => (List.mem_filter.mp hr).2
  obtain ⟨count, path, hfind, hcount, hpath⟩ : ∃ count path,
      FileSpace.findDB s.tree db (s.space process).roots (0, none) = (count, some path) ∧ count ≤ 1 ∧ path.directory = home := by
    rw [FileSpace.findDB_filter]
    change ∃ count path, FileSpace.findDB s.tree db (s.seen process db) (0, none) = (count, some path) ∧ _
    obtain ⟨r, rest, hcons⟩ := List.exists_cons_of_ne_nil hne
    rcases honce r (by simp [hcons]) with hallow | hone
    · rw [hroots r (by simp [hcons])] at hallow
      have hfound : ∃ path, FileSpace.findDB s.tree db (s.seen process db) (0, none) = (0, some path) ∧ path.directory = home :=
        FileSpace.findDB_allowed hroots hsees hallow (.inl hne)
      obtain ⟨path, hfind, hpath⟩ := hfound
      exact ⟨0, path, hfind, by omega, hpath⟩
    · obtain rfl : rest = [] := by simpa [hcons] using hone
      have hr := hroots r (by simp [hcons])
      have hsee := hsees r (by simp [hcons])
      rw [hcons, FileSpace.findDB, if_pos hsee]
      refine ⟨_, ⟨r.path, r.controlIdentifiers.enabled⟩, rfl, ?_, hr⟩
      split <;> omega
  have hends : Ends (FileSpace.filesystem handlers s.tree key db) (s.space process)
      (fun p fs => p = path ∧ fs = s.looked process) fun _ _ => False := by
    simp [FileSpace.filesystem, FileSpace.existsDB, hfind, hcount, looked]
  obtain ⟨_, fs, hrun, rfl, -⟩ := hends.returns
  exact ⟨_, fs, hrun, hpath⟩

/-- Where it does not, the handler decides. -/
theorem result_unseen (h : s.seen process db = []) :
    value (s.result process key db handlers) = (s.selected process key handlers).map fun directory => ⟨directory, ControlIdentifiers.enabled []⟩ := by
  have hfind : FileSpace.findDB s.tree db (s.space process).roots (0, none) = (0, none) := by
    rw [FileSpace.findDB_filter]
    change FileSpace.findDB s.tree db (s.seen process db) (0, none) = _
    rw [h]
    rfl
  have hends : Ends (FileSpace.filesystem handlers s.tree key db) (s.space process)
      (fun p _ => .ok p = (s.selected process key handlers).map fun directory => ⟨directory, ControlIdentifiers.enabled []⟩)
      fun e _ => .error e = (s.selected process key handlers).map fun directory => (⟨directory, ControlIdentifiers.enabled []⟩ : TocPath) := by
    simp only [FileSpace.filesystem, FileSpace.existsDB, hfind, ends_bind, ends_get, ends_modify]
    change Ends (FileSpace.select handlers s.tree key >>= _) (s.looked process) _ _
    unfold selected
    rw [ends_bind]
    unfold Ends
    cases hrun : (FileSpace.select handlers s.tree key).run (s.looked process) <;> rfl
  exact hends.value

/-- The roots that hold a database or are chosen for it. -/
def Has (s : HomeSystem) (db root : String) : Prop := s.tree.tocs root db = true ∨ ∃ p, (p, db, root) ∈ s.chosen

/-- There is no more than one such root. -/
def One (s : HomeSystem) : Prop := ∀ db root root', s.Has db root → s.Has db root' → root = root'

/-- What a safe call returns is the one root. -/
theorem has_result (h : s.One) (hsafe : s.Safe (.call process key db handlers)) {path : TocPath} {fs : FileSpace}
    (hrun : s.result process key db handlers = .ok path fs) : ∀ root, s.Has db root → path.directory = root := by
  intro root hroot
  rw [Safe] at hsafe
  split at hsafe
  · rename_i hnil
    have hvalue : value (s.result process key db handlers) = _ := result_unseen hnil
    rw [hrun, value_ok] at hvalue
    cases hselected : s.selected process key handlers with
    | error e =>
      rw [hselected] at hvalue
      cases hvalue
    | ok directory =>
      rw [hselected] at hvalue
      obtain rfl : path = ⟨directory, ControlIdentifiers.enabled []⟩ := Except.ok.inj hvalue
      exact hsafe.2 root hroot directory hselected
  · rename_i hne
    have hroots : ∀ r ∈ s.seen process db, r.path = root := by
      intro r hr
      have hsees := (List.mem_filter.mp hr).2
      simp only [Root.sees, Root.holds, Bool.and_eq_true] at hsees
      exact h db r.path root (.inl hsees.2.2) hroot
    obtain ⟨p, fs', hrun', hp⟩ : ∃ p fs', s.result process key db handlers = .ok p fs' ∧ p.directory = root :=
      result_seen hne hroots hsafe
    rw [hrun] at hrun'
    obtain ⟨rfl, rfl⟩ := EStateM.Result.ok.inj hrun'
    exact hp

/-- A step chooses a root for a database at most in a call, which returns it. -/
theorem has_step {root : String} (hhas : (s.step a).Has db root) : s.Has db root ∨
    ∃ process key handlers path fs, a = .call process key db handlers ∧ s.result process key db handlers = .ok path fs ∧
      root = path.directory := by
  cases a with
  | call process key db' handlers =>
    rw [step] at hhas
    cases hrun : s.result process key db' handlers with
    | error e fs =>
      rw [hrun] at hhas
      exact .inl hhas
    | ok path fs =>
      rw [hrun] at hhas
      obtain htoc | ⟨p, hmem⟩ := hhas
      · exact .inl (.inl htoc)
      · rcases List.mem_cons.mp hmem with heq | hmem
        · simp only [Prod.mk.injEq] at heq
          obtain ⟨-, rfl, rfl⟩ := heq
          exact .inr ⟨process, key, handlers, path, fs, rfl, hrun, rfl⟩
        · exact .inl (.inr ⟨p, hmem⟩)
  | create process db' root' =>
    left
    rw [step] at hhas
    split at hhas
    · rename_i hchosen
      obtain htoc | ⟨p, hmem⟩ := hhas
      · by_cases heq : root = root' ∧ db = db'
        · obtain ⟨rfl, rfl⟩ := heq
          exact .inr ⟨process, hchosen⟩
        · left
          by_cases hroot : root = root'
          · subst hroot
            have hdb : db ≠ db' := fun hdb => heq ⟨rfl, hdb⟩
            simpa [Function.update_apply, hdb] using htoc
          · simpa [Function.update_apply, hroot] using htoc
      · exact .inr ⟨p, List.mem_of_mem_erase hmem⟩
    · exact hhas
  | exit process =>
    left
    obtain htoc | ⟨p, hmem⟩ := hhas
    · exact .inl htoc
    · exact .inr ⟨p, List.mem_of_mem_filter hmem⟩
  | mount root there => exact .inl hhas
  | allow root db there => exact .inl hhas

theorem one_step (h : s.One) (hsafe : s.Safe a) : (s.step a).One := by
  intro db root root' hroot hroot'
  rcases has_step hroot with hold | ⟨process, key, handlers, path, fs, rfl, hrun, rfl⟩
  · rcases has_step hroot' with hold' | ⟨process, key, handlers, path, fs, rfl, hrun, rfl⟩
    · exact h db root root' hold hold'
    · exact (has_result h hsafe hrun root hold).symm
  · rcases has_step hroot' with hold' | ⟨process', key', handlers', path', fs', ha, hrun', rfl⟩
    · exact has_result h hsafe hrun root' hold'
    · cases ha
      rw [hrun] at hrun'
      obtain ⟨rfl, rfl⟩ := EStateM.Result.ok.inj hrun'
      rfl

theorem single_of_one (h : s.One) : s.Single :=
  fun db root root' htoc htoc' _ _ => h db root root' (.inl htoc) (.inl htoc')

theorem returnsHome_of_one (h : s.One) (hsafe : s.Safe a) : s.ReturnsHome a := by
  cases a with
  | call process key db handlers =>
    intro root _ htoc hdir
    have hreturns : ∃ path fs, s.result process key db handlers = .ok path fs := by
      rw [Safe] at hsafe
      split at hsafe
      · rename_i hnil
        have hvalue : value (s.result process key db handlers) = _ := result_unseen hnil
        rw [hsafe.1 root htoc hdir] at hvalue
        cases hrun : s.result process key db handlers with
        | ok path fs => exact ⟨path, fs, rfl⟩
        | error e fs =>
          rw [hrun] at hvalue
          cases hvalue
      · rename_i hne
        have hroots : ∀ r ∈ s.seen process db, r.path = root := by
          intro r hr
          have hsees := (List.mem_filter.mp hr).2
          simp only [Root.sees, Root.holds, Bool.and_eq_true] at hsees
          exact h db r.path root (.inl hsees.2.2) (.inl htoc)
        obtain ⟨path, fs, hrun, -⟩ : ∃ path fs, s.result process key db handlers = .ok path fs ∧ path.directory = root :=
          result_seen hne hroots hsafe
        exact ⟨path, fs, hrun⟩
    obtain ⟨path, fs, hrun⟩ := hreturns
    exact ⟨path, fs, hrun, has_result h hsafe hrun root (.inl htoc)⟩
  | _ => trivial

/-- In a run of safe steps a database is at no second root, and every call returns the root that it is at. -/
theorem one_home (hstart : s.Start) (h : Follows.Each Safe step s calls) : ∀ pre post, calls = pre ++ post →
    (pre.foldl step s).Single ∧ ∀ a ∈ post.head?, (pre.foldl step s).ReturnsHome a := by
  intro pre post heq
  have hone : s.One := by
    obtain ⟨hchosen, -, htocs⟩ := hstart
    have htoc : ∀ db root, s.Has db root → s.tree.tocs root db = true := by
      rintro db root (htoc | ⟨p, hmem⟩)
      · exact htoc
      · simp [hchosen] at hmem
    exact fun db root root' hroot hroot' => htocs db root root' (htoc db root hroot) (htoc db root' hroot')
  have hpre : (pre.foldl step s).One := by
    have hfollow := Follows.follows (f := fun (_ : Unit) (_ : HomeStep) => ()) (R := fun _ _ s => s.One) (s := ())
      (fun _ _ _ _ _ hs hsafe => one_step hs hsafe) hone h
    exact hfollow pre post heq
  refine ⟨single_of_one hpre, fun a ha => ?_⟩
  cases post with
  | nil => cases ha
  | cons b post =>
    obtain rfl : b = a := by simpa using ha
    exact returnsHome_of_one hpre (h pre b post heq)

end HomeSystem

/-- Two roots, and handlers of which each call takes the one it is told to. -/
def twoRoots : HomeSystem where
  tree := { dirs := fun _ => true }
  space _ := { handler := "Random", roots := [{ path := "/data1" }, { path := "/data2" }] }

def HandlerMap.taking (root : String) : HandlerMap := fun name =>
  match name with
  | "Random" => some fun _ _ => pure root
  | _ => some .first

/-- Two processes are given the same root, and the second finds the database there. -/
def sameRoot : List HomeStep :=
  [.call 1 {} "od" (.taking "/data2"), .create 1 "od" "/data2", .call 2 {} "od" (.taking "/data1")]

theorem one_home_sameRoot : (sameRoot.foldl HomeSystem.step twoRoots).returned = [("od", "/data2"), ("od", "/data2")] ∧
    ∀ pre post, sameRoot = pre ++ post → (pre.foldl HomeSystem.step twoRoots).Single ∧
      ∀ a ∈ post.head?, (pre.foldl HomeSystem.step twoRoots).ReturnsHome a := by
  have hstart : twoRoots.Start := ⟨rfl, rfl, fun _ _ _ h => absurd h Bool.false_ne_true⟩
  have hnew : twoRoots.Safe (.call 1 {} "od" (.taking "/data2")) := by
    rw [HomeSystem.Safe, if_pos (by rfl)]
    constructor
    · intro root htoc
      exact absurd htoc Bool.false_ne_true
    · rintro root (htoc | ⟨p, hmem⟩)
      · exact absurd htoc Bool.false_ne_true
      · cases hmem
  have hthere : ((sameRoot.take 2).foldl HomeSystem.step twoRoots).Safe (.call 2 {} "od" (.taking "/data1")) := by
    rw [HomeSystem.Safe, if_neg (by rw [← List.length_eq_zero_iff]; decide +kernel)]
    exact fun _ _ => .inr (by decide +kernel)
  have hsafe : Follows.Each HomeSystem.Safe HomeSystem.step twoRoots sameRoot :=
    Follows.each_cons.mpr ⟨hnew, Follows.each_cons.mpr ⟨trivial, Follows.each_cons.mpr ⟨hthere, Follows.each_nil⟩⟩⟩
  exact ⟨by decide +kernel, HomeSystem.one_home hstart hsafe⟩

/-- Two processes look before either has made the database. -/
def bothLook : List HomeStep :=
  [.call 1 {} "od" (.taking "/data1"), .call 2 {} "od" (.taking "/data2"), .create 1 "od" "/data1", .create 2 "od" "/data2"]

/-- The database is made at two roots, and the next call throws. -/
theorem two_homes : ¬ (bothLook.foldl HomeSystem.step twoRoots).Single ∧
    ¬ (bothLook.foldl HomeSystem.step twoRoots).ReturnsHome (.call 1 {} "od" (.taking "/data1")) := by
  constructor
  · intro h
    have heq := h "od" "/data1" "/data2" (by decide +kernel) (by decide +kernel) (by decide +kernel) (by decide +kernel)
    revert heq
    decide +kernel
  · intro h
    obtain ⟨path, fs, hrun, -⟩ := h "/data1" (by decide +kernel) (by decide +kernel) (by decide +kernel)
    cases hrun

end Fdb5
