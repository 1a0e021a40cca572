import Mathlib.Data.List.Nodup
import Fdb5.Key
import Fdb5.Library.Follows

/-! `AvailablePortList`: the shared table from which the servers of a host take their data ports. -/
namespace Fdb5

open Effect

namespace AvailablePortList

structure Entry where
  port : Int := 0
  pid : Nat := 0
  deadTime : Nat := 0
deriving DecidableEq

/-- `shared_`, in the order of the entries. The memory is zero where nothing was written. -/
abbrev Table := List Entry

/-- The constructor: the array has at least `count` entries, and a list sees the first `count`. -/
def attach (count : Nat) (t : Table) : Table := t ++ List.replicate (count - t.length) ({} : Entry)

/-- The loop of `initialise`. Every turn finds a port or passes over one to skip, which `fuel` bounds. -/
def findPorts (portsToSkip : List Int) : Nat → Nat → Int → List Int
  | 0, _, _ => []
  | _ + 1, 0, _ => []
  | fuel + 1, count + 1, port =>
    if port ∈ portsToSkip then findPorts portsToSkip fuel (count + 1) (port + 1)
    else port :: findPorts portsToSkip fuel count (port + 1)

/-- The ports that `initialise` finds. -/
def newPorts (startPort : Int) (count : Nat) (portsToSkip : List Int) : List Int :=
  findPorts portsToSkip (count + portsToSkip.length) count startPort

def initialise (startPort : Int) (count : Nat) (portsToSkip : List Int) : EStateM Failure Table Unit := do
  modify (attach count)
  if ∃ e ∈ (← get).take count, e.port = 0 then
    modify fun t => (newPorts startPort count portsToSkip).map (fun port => { port }) ++ t.drop count

/-- The loop of `acquire`; `taken` is whether `getservbyport` knows the port. -/
def acquireLoop (pid : Nat) (taken : Int → Bool) : Table → Table × Option Int
  | [] => ([], none)
  | e :: rest =>
    if e.pid = 0 then
      if taken e.port then
        let (rest, port) := acquireLoop pid taken rest
        ({ e with pid, deadTime := 0 } :: rest, port)
      else ({ e with pid, deadTime := 0 } :: rest, some e.port)
    else
      let (rest, port) := acquireLoop pid taken rest
      (e :: rest, port)

/-- `shared_.begin()->port`. -/
def beginPort (t : Table) : EStateM Failure Table Int :=
  match t with
  | [] => throw (.undefinedBehaviour "shared_.begin()->port")
  | e :: _ => return e.port

def acquire (pid count : Nat) (taken : Int → Bool) : EStateM Failure Table Int := do
  modify (attach count)
  let port ← beginPort (← get)
  ensure (port ≠ 0) "shared_.begin()->port != 0"
  let t ← get
  let found := acquireLoop pid taken (t.take count)
  set (found.1 ++ t.drop count)
  match found.2 with
  | some port => return port
  | none => throw (.seriousBug "Data ports exhausted")

/-- A turn of `reap`; `running` is `ProcessControler::isRunning`. -/
def reapEntry (running : Nat → Bool) (now deadTime : Nat) (e : Entry) : Except Failure Entry := do
  if e.deadTime ≠ 0 then
    assert (e.pid ≠ 0) "it->pid != 0"
    assert (e.deadTime ≤ now) "it->deadTime <= now"
    assert (running e.pid = false) "!ProcessControler::isRunning(it->pid)"
    return if now - e.deadTime ≥ deadTime then { e with pid := 0, deadTime := 0 } else e
  else if e.pid ≠ 0 then
    assert (e.deadTime = 0) "it->deadTime == 0"
    return if running e.pid then e else { e with deadTime := now }
  else return e

/-- The loop of `reap`, which leaves what it has written where a turn fails. -/
def reapLoop (running : Nat → Bool) (now deadTime : Nat) : Table → Table × Except Failure Unit
  | [] => ([], .ok ())
  | e :: rest =>
    match reapEntry running now deadTime e with
    | .error failure => (e :: rest, .error failure)
    | .ok e =>
      let (rest, result) := reapLoop running now deadTime rest
      (e :: rest, result)

def reap (running : Nat → Bool) (count now deadTime : Nat) : EStateM Failure Table Unit := do
  modify (attach count)
  let port ← beginPort (← get)
  ensure (port ≠ 0) "shared_.begin()->port != 0"
  let t ← get
  let reaped := reapLoop running now deadTime (t.take count)
  set (reaped.1 ++ t.drop count)
  lift reaped.2

section Ports

variable {portsToSkip : List Int} {fuel count : Nat} {port : Int} {startPort : Int}

theorem length_filter_succ (l : List Int) (port : Int) :
    (l.filter fun p => port + 1 ≤ p).length + l.count port = (l.filter fun p => port ≤ p).length := by
  induction l with
  | nil => rfl
  | cons p l ih =>
    rw [List.filter_cons, List.filter_cons, List.count_cons]
    obtain h | rfl | h : p < port ∨ p = port ∨ port < p := by omega
    · have hsucc : decide (port + 1 ≤ p) = false := decide_eq_false (by omega)
      have hle : decide (port ≤ p) = false := decide_eq_false (by omega)
      have hne : (p == port) = false := beq_false_of_ne (by omega)
      simp only [hsucc, hle, hne, Bool.false_eq_true, if_false]
      omega
    · have hsucc : decide (p + 1 ≤ p) = false := decide_eq_false (by omega)
      have hle : decide (p ≤ p) = true := decide_eq_true (by omega)
      simp only [hsucc, hle, beq_self_eq_true, Bool.false_eq_true, if_false, if_true, List.length_cons]
      omega
    · have hsucc : decide (port + 1 ≤ p) = true := decide_eq_true (by omega)
      have hle : decide (port ≤ p) = true := decide_eq_true (by omega)
      have hne : (p == port) = false := beq_false_of_ne (by omega)
      simp only [hsucc, hle, hne, Bool.false_eq_true, if_false, if_true, List.length_cons]
      omega

theorem length_findPorts (h : count + (portsToSkip.filter fun p => port ≤ p).length ≤ fuel) :
    (findPorts portsToSkip fuel count port).length = count := by
  have hsucc := length_filter_succ portsToSkip port
  induction fuel generalizing count port with
  | zero =>
    obtain rfl : count = 0 := by omega
    rfl
  | succ fuel ih =>
    cases count with
    | zero => rfl
    | succ count =>
      rw [findPorts]
      split
      · rename_i hmem
        have hpos : 0 < portsToSkip.count port := List.count_pos_iff.mpr hmem
        exact ih (by omega) (length_filter_succ _ _)
      · rw [List.length_cons, ih (by omega) (length_filter_succ _ _)]

theorem le_findPorts {p : Int} (h : p ∈ findPorts portsToSkip fuel count port) : port ≤ p := by
  induction fuel generalizing count port with
  | zero => simp [findPorts] at h
  | succ fuel ih =>
    cases count with
    | zero => simp [findPorts] at h
    | succ count =>
      rw [findPorts] at h
      split at h
      · have hle := ih h
        omega
      · rcases List.mem_cons.mp h with rfl | h
        · exact Int.le_refl p
        · have hle := ih h
          omega

theorem nodup_findPorts : (findPorts portsToSkip fuel count port).Nodup := by
  induction fuel generalizing count port with
  | zero => exact .nil
  | succ fuel ih =>
    cases count with
    | zero => exact .nil
    | succ count =>
      rw [findPorts]
      split
      · exact ih
      · refine List.nodup_cons.mpr ⟨fun hmem => ?_, ih⟩
        have hle := le_findPorts hmem
        omega

/-- As many ports are found as were asked for. -/
theorem length_newPorts : (newPorts startPort count portsToSkip).length = count := by
  apply length_findPorts
  have hle := List.length_filter_le (fun p => decide (startPort ≤ p)) portsToSkip
  omega

end Ports

section Loops

variable {pid : Nat} {taken : Int → Bool} {t : Table} {e : Entry} {port : Int} {running : Nat → Bool} {now deadTime : Nat}

@[simp] theorem ports_acquireLoop : (acquireLoop pid taken t).1.map Entry.port = t.map Entry.port := by
  induction t with
  | nil => rfl
  | cons e t ih =>
    rw [acquireLoop]
    split
    · split <;> simp [ih]
    · simp [ih]

/-- Only entries that are free change, and they get the pid. -/
theorem mem_acquireLoop (h : e ∈ (acquireLoop pid taken t).1) :
    e ∈ t ∨ ∃ e₀ ∈ t, e₀.pid = 0 ∧ e = { e₀ with pid, deadTime := 0 } := by
  induction t with
  | nil => simp [acquireLoop] at h
  | cons e₀ t ih =>
    have hrest : e ∈ (acquireLoop pid taken t).1 →
        e ∈ e₀ :: t ∨ ∃ e₁ ∈ e₀ :: t, e₁.pid = 0 ∧ e = { e₁ with pid, deadTime := 0 } := by
      intro he
      obtain hmem | ⟨e₁, hmem, heq⟩ := ih he
      · exact .inl (.tail _ hmem)
      · exact .inr ⟨e₁, .tail _ hmem, heq⟩
    rw [acquireLoop] at h
    split at h
    · rename_i hfree
      split at h
      · rcases List.mem_cons.mp h with rfl | h
        · exact .inr ⟨e₀, .head _, hfree, rfl⟩
        · exact hrest h
      · rcases List.mem_cons.mp h with rfl | h
        · exact .inr ⟨e₀, .head _, hfree, rfl⟩
        · exact .inl (.tail _ h)
    · rcases List.mem_cons.mp h with rfl | h
      · exact .inl (.head _)
      · exact hrest h

/-- The port is the one of the first entry that is free and belongs to no service, which the pid now has. -/
theorem acquireLoop_some (h : (acquireLoop pid taken t).2 = some port) :
    ∃ e, t.find? (fun e => e.pid = 0 ∧ taken e.port = false) = some e ∧ e.port = port ∧
      { e with pid, deadTime := 0 } ∈ (acquireLoop pid taken t).1 := by
  induction t with
  | nil => simp [acquireLoop] at h
  | cons e₀ t ih =>
    rw [acquireLoop] at h ⊢
    split at h
    · rename_i hfree
      split at h
      · rename_i htaken
        obtain ⟨e, hfind, hport, hmem⟩ := ih h
        refine ⟨e, ?_, hport, ?_⟩
        · rw [List.find?_cons_of_neg (by simp [htaken]), hfind]
        · rw [if_pos hfree, if_pos htaken]
          exact .tail _ hmem
      · rename_i htaken
        refine ⟨e₀, ?_, by simpa using h, ?_⟩
        · rw [List.find?_cons_of_pos (by simp [hfree, htaken])]
        · rw [if_pos hfree, if_neg htaken]
          exact .head _
    · rename_i hfree
      obtain ⟨e, hfind, hport, hmem⟩ := ih h
      refine ⟨e, ?_, hport, ?_⟩
      · rw [List.find?_cons_of_neg (by simp [hfree]), hfind]
      · rw [if_neg hfree]
        exact .tail _ hmem

/-- What a turn of `reap` can do to an entry: nothing if its process runs. -/
theorem reapEntry_ok {e' : Entry} (h : reapEntry running now deadTime e = .ok e') : e'.port = e.port ∧
    (e' = e ∨ running e.pid = false ∧ e.pid ≠ 0 ∧ (e'.pid = 0 ∧ e'.deadTime = 0 ∨ e'.pid = e.pid)) := by
  rw [reapEntry] at h
  split at h
  · simp only [except_bind_ok, except_pure_ok] at h
    obtain ⟨_, hpid, _, -, _, hrunning, rfl⟩ := h
    rw [assert_ok] at hpid hrunning
    split
    · exact ⟨rfl, .inr ⟨hrunning, hpid, .inl ⟨rfl, rfl⟩⟩⟩
    · exact ⟨rfl, .inl rfl⟩
  split at h
  · rename_i hpid
    simp only [except_bind_ok, except_pure_ok] at h
    obtain ⟨_, -, rfl⟩ := h
    split
    · exact ⟨rfl, .inl rfl⟩
    · rename_i hrunning
      exact ⟨rfl, .inr ⟨by simpa using hrunning, hpid, .inr rfl⟩⟩
  · obtain rfl : e = e' := by simpa using h
    exact ⟨rfl, .inl rfl⟩

@[simp] theorem ports_reapLoop : (reapLoop running now deadTime t).1.map Entry.port = t.map Entry.port := by
  induction t with
  | nil => rfl
  | cons e t ih =>
    rw [reapLoop]
    cases he : reapEntry running now deadTime e with
    | error failure => rfl
    | ok e' => simp [ih, (reapEntry_ok he).1]

theorem mem_reapLoop {e' : Entry} (h : e' ∈ (reapLoop running now deadTime t).1) : ∃ e ∈ t, e'.port = e.port ∧
    (e' = e ∨ running e.pid = false ∧ e.pid ≠ 0 ∧ (e'.pid = 0 ∧ e'.deadTime = 0 ∨ e'.pid = e.pid)) := by
  induction t with
  | nil => simp [reapLoop] at h
  | cons e t ih =>
    rw [reapLoop] at h
    cases he : reapEntry running now deadTime e with
    | error failure =>
      rw [he] at h
      exact ⟨e', h, rfl, .inl rfl⟩
    | ok e₁ =>
      rw [he] at h
      rcases List.mem_cons.mp h with rfl | h
      · exact ⟨e, .head _, reapEntry_ok he⟩
      · obtain ⟨e, hmem, hentry⟩ := ih h
        exact ⟨e, .tail _ hmem, hentry⟩

theorem reapLoop_ok (h : ∀ e ∈ t, e.deadTime ≠ 0 → e.pid ≠ 0 ∧ e.deadTime ≤ now ∧ running e.pid = false) :
    (reapLoop running now deadTime t).2 = .ok () := by
  induction t with
  | nil => rfl
  | cons e t ih =>
    have hentry : ∃ e', reapEntry running now deadTime e = .ok e' := by
      rw [reapEntry]
      by_cases hmarked : e.deadTime = 0
      · by_cases hpid : e.pid = 0 <;> simp [hmarked, hpid, assert, bind, Except.bind, pure, Except.pure]
      · obtain ⟨hpid, hle, hrunning⟩ := h e (.head _) hmarked
        simp [hmarked, hpid, hle, hrunning, assert, bind, Except.bind, pure, Except.pure]
    obtain ⟨e', he⟩ := hentry
    rw [reapLoop, he]
    exact ih fun e hmem => h e (.tail _ hmem)

end Loops

end AvailablePortList

/-- What happens to the table: a call on a list of some process, with what the system tells it, and the processes that
start and die. -/
inductive PortStep where
  | initialise (startPort : Int) (count : Nat) (portsToSkip : List Int)
  | acquire (pid count : Nat) (taken : Int → Bool)
  | reap (count now deadTime : Nat)
  | start (pid : Nat)
  | death (pid : Nat)

/-- The table, the processes that run, and the ports that they have been given. -/
structure PortSystem where
  table : AvailablePortList.Table := []
  live : List Nat := []
  held : List (Nat × Int) := []

namespace PortSystem

open AvailablePortList

def running (s : PortSystem) (pid : Nat) : Bool := pid ∈ s.live

def step (s : PortSystem) : PortStep → PortSystem
  | .initialise startPort count portsToSkip =>
    { s with table := final ((initialise startPort count portsToSkip).run s.table) }
  | .acquire pid count taken =>
    if s.running pid then
      match (acquire pid count taken).run s.table with
      | .ok port table => { s with table, held := (pid, port) :: s.held }
      | .error _ table => { s with table }
    else s
  | .reap count now deadTime => { s with table := final ((reap s.running count now deadTime).run s.table) }
  | .start pid => if pid = 0 ∨ s.running pid then s else { s with live := pid :: s.live }
  | .death pid =>
    { s with live := s.live.filter fun p => p ≠ pid, held := s.held.filter fun h => h.1 ≠ pid }

/-- No assertion of the call fails. -/
def NoAssertion (s : PortSystem) : PortStep → Prop
  | .acquire pid count taken => s.running pid = true →
    Ends (acquire pid count taken) s.table (fun _ _ => True) fun e _ => e = .seriousBug "Data ports exhausted"
  | .reap count now deadTime => Ends (reap s.running count now deadTime) s.table (fun _ _ => True) fun _ _ => False
  | _ => True

/-- No port is held by two processes that run, and the ports of the table are different. -/
structure Exclusive (s : PortSystem) : Prop where
  one : ∀ p q port, (p, port) ∈ s.held → (q, port) ∈ s.held → p = q
  live : ∀ p port, (p, port) ∈ s.held → p ∈ s.live
  distinct : ((s.table.map Entry.port).filter (· ≠ 0)).Nodup

/-- The first entry has been initialised. -/
def Initialised (s : PortSystem) (count : Nat) : Prop := ∃ e rest, attach count s.table = e :: rest ∧ e.port ≠ 0

/-- The entry that an `acquire` comes to: the first that is free and belongs to no service. -/
def free (s : PortSystem) (count : Nat) (taken : Int → Bool) : Option Entry :=
  ((attach count s.table).take count).find? fun e => e.pid = 0 ∧ taken e.port = false

/-- A list is not made again while a process that runs holds one of its ports; lists are used once they are initialised,
by as many entries as that made; no process has the pid of a dead one whose entry is still marked, and the clock does not
go back behind a mark. -/
def Safe (s : PortSystem) : PortStep → Prop
  | .initialise startPort count portsToSkip => (∃ e ∈ (attach count s.table).take count, e.port = 0) →
    0 ∉ newPorts startPort count portsToSkip ∧ ∀ h ∈ s.held, h.2 ∉ newPorts startPort count portsToSkip
  | .acquire pid count taken => s.running pid = true → s.Initialised count ∧ ∀ e ∈ s.free count taken, e.port ≠ 0
  | .reap count now _ => s.Initialised count ∧
    ∀ e ∈ (attach count s.table).take count, e.deadTime ≠ 0 → e.deadTime ≤ now ∧ e.pid ∉ s.live
  | _ => True

instance {s : PortSystem} {count : Nat} : Decidable (s.Initialised count) :=
  match h : attach count s.table with
  | [] => .isFalse fun ⟨_, _, heq, _⟩ => by simp [h] at heq
  | e :: rest => decidable_of_iff (e.port ≠ 0)
    ⟨fun hne => ⟨e, rest, h, hne⟩, fun ⟨_, _, heq, hne⟩ => by
      obtain ⟨rfl, -⟩ := List.cons.inj (h.symm.trans heq)
      exact hne⟩

instance {s : PortSystem} : ∀ {a : PortStep}, Decidable (s.Safe a)
  | .initialise _ _ _ => inferInstanceAs (Decidable (_ → _ ∧ _))
  | .acquire _ _ _ => inferInstanceAs (Decidable (_ → _ ∧ _))
  | .reap _ _ _ => inferInstanceAs (Decidable (_ ∧ _))
  | .start _ => .isTrue trivial
  | .death _ => .isTrue trivial

/-- What holds in every state: the initialised ports come first and differ, and whoever holds a port runs and has its
entry. -/
structure Sound (s : PortSystem) : Prop where
  ports : ∃ made k, s.table.map Entry.port = made ++ List.replicate k 0 ∧ 0 ∉ made ∧ made.Nodup
  marked : ∀ e ∈ s.table, e.deadTime ≠ 0 → e.pid ≠ 0
  zero : 0 ∉ s.live
  live : ∀ h ∈ s.held, h.1 ∈ s.live
  real : ∀ h ∈ s.held, h.2 ≠ 0
  owned : ∀ h ∈ s.held, ∀ e ∈ s.table, e.port = h.2 → e.pid = h.1
  one : ∀ p q port, (p, port) ∈ s.held → (q, port) ∈ s.held → p = q

variable {s : PortSystem} {a : PortStep} {count : Nat} {t : Table} {e e' : Entry}

theorem mem_attach (h : e ∈ attach count t) : e ∈ t ∨ e = {} := by
  rcases List.mem_append.mp h with h | h
  · exact .inl h
  · exact .inr (List.eq_of_mem_replicate h)

theorem ports_attach : (attach count t).map Entry.port = t.map Entry.port ++ List.replicate (count - t.length) 0 := by
  simp [attach]

/-- A list that is used is as long as its server asks. -/
theorem sound_attach (h : s.Sound) (count : Nat) : ({ s with table := attach count s.table } : PortSystem).Sound where
  ports := by
    obtain ⟨made, k, hports, hzero, hnodup⟩ := h.ports
    exact ⟨made, k + (count - s.table.length), by rw [ports_attach, hports, List.append_assoc, List.replicate_append_replicate],
      hzero, hnodup⟩
  marked e he hmarked := by
    rcases mem_attach he with he | rfl
    · exact h.marked e he hmarked
    · exact absurd rfl hmarked
  zero := h.zero
  live := h.live
  real := h.real
  owned held hheld e he hport := by
    rcases mem_attach he with he | rfl
    · exact h.owned held hheld e he hport
    · exact absurd hport.symm (h.real held hheld)
  one := h.one

theorem exclusive_of_sound (h : s.Sound) : s.Exclusive where
  one := h.one
  live p port hheld := h.live (p, port) hheld
  distinct := by
    obtain ⟨made, k, hports, hzero, hnodup⟩ := h.ports
    rw [hports, List.filter_append]
    simpa using hnodup.sublist List.filter_sublist

/-- Two entries with one port are the same. -/
theorem entry_eq (h : s.Sound) (he : e ∈ s.table) (he' : e' ∈ s.table) (hport : e.port = e'.port) (hne : e.port ≠ 0) :
    e = e' := by
  have hnodup := (exclusive_of_sound h).distinct
  rw [List.filter_map] at hnodup
  exact List.inj_on_of_nodup_map hnodup (List.mem_filter.mpr ⟨he, by simpa using hne⟩)
    (List.mem_filter.mpr ⟨he', by simpa [← hport] using hne⟩) hport

section Steps

variable {startPort : Int} {portsToSkip : List Int} {pid now deadTime : Nat} {taken : Int → Bool} {port : Int}
  {running : Nat → Bool}

theorem final_initialise : final ((AvailablePortList.initialise startPort count portsToSkip).run t) =
    if ∃ e ∈ (attach count t).take count, e.port = 0 then
      (newPorts startPort count portsToSkip).map (fun port => ({ port } : Entry)) ++ (attach count t).drop count
    else attach count t := by
  change final ((if ∃ e ∈ (attach count t).take count, e.port = 0 then _ else _ : EStateM Failure Table Unit).run
    (attach count t)) = _
  split <;> rfl

theorem run_acquire (h : ∃ e rest, attach count t = e :: rest ∧ e.port ≠ 0) :
    (AvailablePortList.acquire pid count taken).run t =
      match (acquireLoop pid taken ((attach count t).take count)).2 with
      | some port => .ok port ((acquireLoop pid taken ((attach count t).take count)).1 ++ (attach count t).drop count)
      | none => .error (.seriousBug "Data ports exhausted")
        ((acquireLoop pid taken ((attach count t).take count)).1 ++ (attach count t).drop count) := by
  obtain ⟨e, rest, hattach, hport⟩ := h
  have hbegin : (beginPort (e :: rest) : EStateM Failure Table Int) = pure e.port := rfl
  simp only [AvailablePortList.acquire, EStateM.run_bind, EStateM.run_modify, EStateM.run_get, hattach, hbegin,
    EStateM.run_pure, ensure, assert, ne_eq, hport, not_false_eq_true, if_true, run_lift_ok, EStateM.run_set]
  cases (acquireLoop pid taken ((e :: rest).take count)).2 <;> rfl

theorem run_reap (h : ∃ e rest, attach count t = e :: rest ∧ e.port ≠ 0) :
    (AvailablePortList.reap running count now deadTime).run t =
      match (reapLoop running now deadTime ((attach count t).take count)).2 with
      | .ok _ => .ok () ((reapLoop running now deadTime ((attach count t).take count)).1 ++ (attach count t).drop count)
      | .error e => .error e
        ((reapLoop running now deadTime ((attach count t).take count)).1 ++ (attach count t).drop count) := by
  obtain ⟨e, rest, hattach, hport⟩ := h
  have hbegin : (beginPort (e :: rest) : EStateM Failure Table Int) = pure e.port := rfl
  simp only [AvailablePortList.reap, EStateM.run_bind, EStateM.run_modify, EStateM.run_get, hattach, hbegin,
    EStateM.run_pure, ensure, assert, ne_eq, hport, not_false_eq_true, if_true, run_lift_ok, EStateM.run_set]
  cases (reapLoop running now deadTime ((e :: rest).take count)).2 <;> rfl

theorem sound_initialise (h : s.Sound) (hsafe : s.Safe (.initialise startPort count portsToSkip)) :
    (s.step (.initialise startPort count portsToSkip)).Sound := by
  have hattach := sound_attach h count
  rw [step, final_initialise]
  split
  · rename_i hnew
    obtain ⟨hzero, hheld⟩ := hsafe hnew
    obtain ⟨made, k, hports, hmade, -⟩ := hattach.ports
    have hmem : ∀ e ∈ (newPorts startPort count portsToSkip).map (fun port => ({ port } : Entry)) ++
        (attach count s.table).drop count,
        (e.port ∈ newPorts startPort count portsToSkip ∧ e.deadTime = 0) ∨ e ∈ attach count s.table := by
      intro e he
      rcases List.mem_append.mp he with he | he
      · obtain ⟨port, hport, rfl⟩ := List.mem_map.mp he
        exact .inl ⟨hport, rfl⟩
      · exact .inr (List.mem_of_mem_drop he)
    have hlength : made.length ≤ count := by
      obtain ⟨e, he, hport⟩ := hnew
      by_contra hlt
      have htake : ((attach count s.table).map Entry.port).take count = made.take count := by
        rw [hports, List.take_append_of_le_length (by omega)]
      have hmem : e.port ∈ made.take count := by
        rw [← htake, ← List.map_take]
        exact List.mem_map_of_mem he
      exact hmade (hport ▸ List.mem_of_mem_take hmem)
    exact {
      ports := by
        refine ⟨newPorts startPort count portsToSkip, k - (count - made.length), ?_, hzero, nodup_findPorts⟩
        have hdrop : ((attach count s.table).map Entry.port).drop count = List.replicate (k - (count - made.length)) 0 := by
          rw [hports, List.drop_append, List.drop_eq_nil_of_le hlength, List.nil_append, List.drop_replicate]
        simp [List.map_append, ← hdrop, List.map_drop, Function.comp_def]
      marked := by
        intro e he hmarked
        rcases hmem e he with ⟨-, hclean⟩ | he
        · exact absurd hclean hmarked
        · exact hattach.marked e he hmarked
      zero := h.zero
      live := h.live
      real := h.real
      owned := by
        intro held hh e he hport
        rcases hmem e he with ⟨hnew, -⟩ | he
        · exact absurd (hport ▸ hnew) (hheld held hh)
        · exact hattach.owned held hh e he hport
      one := h.one }
  · exact hattach

theorem mem_acquired (h : e ∈ (acquireLoop pid taken ((attach count t).take count)).1 ++ (attach count t).drop count) :
    e ∈ attach count t ∨ ∃ e₀ ∈ attach count t, e₀.pid = 0 ∧ e = { e₀ with pid, deadTime := 0 } := by
  rcases List.mem_append.mp h with h | h
  · obtain h | ⟨e₀, h, hfree, heq⟩ := mem_acquireLoop h
    · exact .inl (List.mem_of_mem_take h)
    · exact .inr ⟨e₀, List.mem_of_mem_take h, hfree, heq⟩
  · exact .inl (List.mem_of_mem_drop h)

/-- The entries that an `acquire` marks for the pid were nobody's. -/
theorem sound_acquireLoop (h : s.Sound) (pid count : Nat) (taken : Int → Bool) : ({ s with table :=
    (acquireLoop pid taken ((attach count s.table).take count)).1 ++ (attach count s.table).drop count } : PortSystem).Sound := by
  have hattach := sound_attach h count
  exact {
    ports := by
      have hports := hattach.ports
      rw [← List.take_append_drop count (attach count s.table), List.map_append] at hports
      rwa [List.map_append, ports_acquireLoop]
    marked := by
      intro e he hmarked
      obtain he | ⟨e₀, -, -, rfl⟩ := mem_acquired he
      · exact hattach.marked e he hmarked
      · exact absurd rfl hmarked
    zero := h.zero
    live := h.live
    real := h.real
    owned := by
      intro held hh e he hport
      obtain hold | ⟨e₀, hold, hfree, rfl⟩ := mem_acquired he
      · exact hattach.owned held hh e hold hport
      · have hpid := hattach.owned held hh e₀ hold hport
        rw [hfree] at hpid
        exact absurd (hpid ▸ h.live held hh) h.zero
    one := h.one }

theorem sound_acquire (h : s.Sound) (hsafe : s.Safe (.acquire pid count taken)) : (s.step (.acquire pid count taken)).Sound := by
  rw [step]
  split
  · rename_i hrunning
    obtain ⟨hinit, hfree⟩ := hsafe hrunning
    have hloop := sound_acquireLoop h pid count taken
    rw [run_acquire hinit]
    cases hport : (acquireLoop pid taken ((attach count s.table).take count)).2 with
    | none => exact hloop
    | some port =>
      obtain ⟨e, hfind, rfl, hmem⟩ := acquireLoop_some hport
      have hne := hfree e hfind
      have he : e ∈ attach count s.table := List.mem_of_mem_take (List.mem_of_find?_eq_some hfind)
      have hpid : e.pid = 0 := by
        have hp := List.find?_some hfind
        simp at hp
        exact hp.1
      have hnobody : ∀ q, (q, e.port) ∉ s.held := by
        intro q hq
        have hq0 := (sound_attach h count).owned (q, e.port) hq e he rfl
        rw [hpid] at hq0
        exact h.zero (hq0 ▸ h.live (q, e.port) hq)
      exact {
        ports := hloop.ports
        marked := hloop.marked
        zero := h.zero
        live := by
          intro held hh
          rcases List.mem_cons.mp hh with rfl | hh
          · simpa [running] using hrunning
          · exact h.live held hh
        real := by
          intro held hh
          rcases List.mem_cons.mp hh with rfl | hh
          · exact hne
          · exact h.real held hh
        owned := by
          intro held hh e' he' hport'
          rcases List.mem_cons.mp hh with rfl | hh
          · have heq : e' = { e with pid, deadTime := 0 } :=
              entry_eq hloop he' (List.mem_append_left _ hmem) hport' (by rw [hport']; exact hne)
            rw [heq]
          · exact hloop.owned held hh e' he' hport'
        one := by
          intro p q port hp hq
          rcases List.mem_cons.mp hp with heq | hp
          · rcases List.mem_cons.mp hq with heq' | hq
            · rw [Prod.ext_iff] at heq heq'
              exact heq.1.trans heq'.1.symm
            · obtain ⟨-, rfl⟩ := Prod.ext_iff.mp heq
              exact absurd hq (hnobody q)
          · rcases List.mem_cons.mp hq with heq' | hq
            · obtain ⟨-, rfl⟩ := Prod.ext_iff.mp heq'
              exact absurd hp (hnobody p)
            · exact h.one p q port hp hq }
  · exact h

theorem sound_reap (h : s.Sound) (hsafe : s.Safe (.reap count now deadTime)) : (s.step (.reap count now deadTime)).Sound := by
  have hattach := sound_attach h count
  have hmem : ∀ e' ∈ (reapLoop s.running now deadTime ((attach count s.table).take count)).1 ++ (attach count s.table).drop count,
      ∃ e ∈ attach count s.table, e'.port = e.port ∧
        (e' = e ∨ s.running e.pid = false ∧ e.pid ≠ 0 ∧ (e'.pid = 0 ∧ e'.deadTime = 0 ∨ e'.pid = e.pid)) := by
    intro e' he'
    rcases List.mem_append.mp he' with he' | he'
    · obtain ⟨e, he, hentry⟩ := mem_reapLoop he'
      exact ⟨e, List.mem_of_mem_take he, hentry⟩
    · exact ⟨e', List.mem_of_mem_drop he', rfl, .inl rfl⟩
  have hfinal : final ((AvailablePortList.reap s.running count now deadTime).run s.table) =
      (reapLoop s.running now deadTime ((attach count s.table).take count)).1 ++ (attach count s.table).drop count := by
    rw [run_reap hsafe.1]
    split <;> rfl
  rw [step, hfinal]
  exact {
    ports := by
      have hports := hattach.ports
      rw [← List.take_append_drop count (attach count s.table), List.map_append] at hports
      rwa [List.map_append, ports_reapLoop]
    marked := by
      intro e' he' hmarked
      obtain ⟨e, he, -, rfl | ⟨-, hpid, ⟨-, hclean⟩ | hsame⟩⟩ := hmem e' he'
      · exact hattach.marked e' he hmarked
      · exact absurd hclean hmarked
      · rwa [hsame]
    zero := h.zero
    live := h.live
    real := h.real
    owned := by
      intro held hh e' he' hport
      obtain ⟨e, he, hsame, rfl | ⟨hdead, -, -⟩⟩ := hmem e' he'
      · exact hattach.owned held hh e' he hport
      · have hpid := hattach.owned held hh e he (hsame ▸ hport)
        have hlive := h.live held hh
        rw [← hpid] at hlive
        simp [running, hlive] at hdead
    one := h.one }

end Steps

theorem sound_step (h : s.Sound) (hsafe : s.Safe a) : (s.step a).Sound := by
  cases a with
  | initialise startPort count portsToSkip => exact sound_initialise h hsafe
  | acquire pid count taken => exact sound_acquire h hsafe
  | reap count now deadTime => exact sound_reap h hsafe
  | start pid =>
    rw [step]
    split
    · exact h
    · rename_i hpid
      have hzero : 0 ∉ pid :: s.live := by
        intro hmem
        rcases List.mem_cons.mp hmem with rfl | hmem
        · simp at hpid
        · exact h.zero hmem
      exact { h with zero := hzero, live := fun held hh => .tail _ (h.live held hh) }
  | death pid =>
    have hheld : ∀ held ∈ s.held.filter fun h => h.1 ≠ pid, held ∈ s.held ∧ held.1 ≠ pid := by simp
    exact {
      ports := h.ports
      marked := h.marked
      zero := fun hmem => h.zero (List.mem_of_mem_filter hmem)
      live := by
        intro held hh
        obtain ⟨hmem, hne⟩ := hheld held hh
        exact List.mem_filter.mpr ⟨h.live held hmem, by simpa using hne⟩
      real := fun held hh => h.real held (hheld held hh).1
      owned := fun held hh => h.owned held (hheld held hh).1
      one := fun p q port hp hq => h.one p q port (hheld _ hp).1 (hheld _ hq).1 }

theorem noAssertion_of_safe (h : s.Sound) (hsafe : s.Safe a) : s.NoAssertion a := by
  cases a with
  | acquire pid count taken =>
    intro hrunning
    unfold Ends
    rw [run_acquire (hsafe hrunning).1]
    cases (acquireLoop pid taken ((attach count s.table).take count)).2 <;> trivial
  | reap count now deadTime =>
    obtain ⟨hinit, hmarks⟩ := hsafe
    have hok : (reapLoop s.running now deadTime ((attach count s.table).take count)).2 = .ok () := by
      apply reapLoop_ok
      intro e he hmarked
      obtain ⟨hle, hdead⟩ := hmarks e he hmarked
      exact ⟨(sound_attach h count).marked e (List.mem_of_mem_take he) hmarked, hle, by simpa [running] using hdead⟩
    change Ends (AvailablePortList.reap s.running count now deadTime) s.table _ _
    unfold Ends
    rw [run_reap hinit, hok]
    trivial
  | _ => trivial

theorem sound_empty : ({} : PortSystem).Sound where
  ports := ⟨[], 0, rfl, by simp, .nil⟩
  marked := by simp
  zero := by simp
  live := by simp
  real := by simp
  owned := by simp
  one := by simp

/-- In a run of safe steps no port is held by two processes that run, the ports of the table differ, and no assertion
fails. -/
theorem ports_exclusive {calls : List PortStep} (h : Follows.Each Safe step ({} : PortSystem) calls) :
    ∀ pre post, calls = pre ++ post →
      (pre.foldl step ({} : PortSystem)).Exclusive ∧ ∀ a ∈ post.head?, (pre.foldl step ({} : PortSystem)).NoAssertion a := by
  intro pre post heq
  have hsound : (pre.foldl step ({} : PortSystem)).Sound := by
    have hfollow := Follows.follows (f := fun (_ : Unit) (_ : PortStep) => ()) (R := fun _ _ s => s.Sound) (s := ())
      (fun _ _ _ _ _ hs hsafe => sound_step hs hsafe) sound_empty h
    exact hfollow pre post heq
  refine ⟨exclusive_of_sound hsound, fun a ha => ?_⟩
  cases post with
  | nil => cases ha
  | cons b post =>
    obtain rfl : b = a := by simpa using ha
    exact noAssertion_of_safe hsound (h pre b post heq)

end PortSystem

/-- A process dies, is reaped, and the next one gets its port. -/
def reusedPort : List PortStep :=
  [.initialise 40000 1 [], .start 7, .acquire 7 1 fun _ => false, .death 7, .reap 1 200 60, .reap 1 300 60, .start 8,
    .acquire 8 1 fun _ => false]

theorem ports_exclusive_reusedPort : (8, 40000) ∈ (reusedPort.foldl PortSystem.step {}).held ∧
    ∀ pre post, reusedPort = pre ++ post →
      (pre.foldl PortSystem.step {}).Exclusive ∧ ∀ a ∈ post.head?, (pre.foldl PortSystem.step {}).NoAssertion a :=
  ⟨by decide +kernel, PortSystem.ports_exclusive (by decide +kernel)⟩

/-- A server of two ports makes the list again that a server of one port uses. -/
def sharedTable : List PortStep :=
  [.initialise 40000 1 [], .start 7, .acquire 7 1 fun _ => false, .initialise 40000 2 [], .start 8, .acquire 8 2 fun _ => false]

/-- A process gets the pid of a dead one that was marked. -/
def reusedPid : List PortStep :=
  [.initialise 40000 1 [], .start 7, .acquire 7 1 fun _ => false, .death 7, .reap 1 200 60, .start 7]

/-- Two processes hold one port, and an assertion of `reap` fails. -/
theorem port_shared :
    ¬ (sharedTable.foldl PortSystem.step {}).Exclusive ∧
    (AvailablePortList.reap (reusedPid.foldl PortSystem.step {}).running 1 210 60).run (reusedPid.foldl PortSystem.step {}).table =
      .error (.assertion "!ProcessControler::isRunning(it->pid)") [{ port := 40000, pid := 7, deadTime := 200 }] ∧
    ¬ (reusedPid.foldl PortSystem.step {}).NoAssertion (.reap 1 210 60) := by
  have hrun : (AvailablePortList.reap (reusedPid.foldl PortSystem.step {}).running 1 210 60).run
      (reusedPid.foldl PortSystem.step {}).table =
      .error (.assertion "!ProcessControler::isRunning(it->pid)") [{ port := 40000, pid := 7, deadTime := 200 }] := by
    rfl
  refine ⟨?_, hrun, ?_⟩
  · intro h
    have heq := h.one 7 8 40000 (by decide +kernel) (by decide +kernel)
    cases heq
  · intro h
    have hends : Ends (AvailablePortList.reap (reusedPid.foldl PortSystem.step {}).running 1 210 60)
      (reusedPid.foldl PortSystem.step {}).table (fun _ _ => True) fun _ _ => False := h
    exact hends.error hrun

end Fdb5
