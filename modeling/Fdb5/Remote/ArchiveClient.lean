import Fdb5.Library.Follows
import Fdb5.Remote.Listening

/-! `RemoteFDB::archive` and `flush`, with the threads that run beside them. -/
namespace Fdb5

/-- What the client writes on its control connection. -/
inductive ControlRequest where
  | archive (id : UInt32)
  | flush (id : UInt32) (numArchive : Nat)
deriving DecidableEq

/-- What the archive thread writes on the data connection. -/
inductive ArchiveMessage (α : Type) where
  | blob (id : UInt32) (field : α)
  | multiBlob (id : UInt32) (fields : List α)
  | flush (id : UInt32)

/-- `archiveThreadLoop`, with the fields that it has counted; `hung` is in a write that does not come back, as the
server reads no more. -/
inductive ArchiveThread (α : Type) where
  | start (id : UInt32)
  | popping (id : UInt32) (numArchive : Nat)
  | sending (id : UInt32) (numArchive : Nat) (elements : List α)
  | done (id : UInt32) (numArchive : Nat)
  | hung
  | returned (numArchive : Nat)
  | thrown (e : Failure)

/-- The call that the client's caller is in. -/
inductive Caller (α : Type) where
  | idle
  /-- `archive` waits for the answer to its request. -/
  | requesting (id : UInt32) (field : α)
  /-- `archive` is at `emplace`; `waiting` is that it waits there for room, with `archiveQueuePtrMutex_` held. -/
  | emplacing (field : α) (waiting : Bool)
  /-- `flush` waits for the archive thread, and then for the answer to its request. -/
  | getting
  | flushing

/-- How a call has ended: `asserted` is an assertion of `archive` or `flush`. -/
inductive Outcome where
  | returned
  | threw (e : Failure)
  | asserted (condition : String)
deriving DecidableEq

/-- The members of a `RemoteFDB` that archiving uses, and what it has written. -/
structure ArchiveClient (α : Type) where
  archiveFuture : Option (ArchiveThread α) := none
  archiveID : UInt32 := 0
  archiveQueue : Option (Queue α) := none
  lastID : UInt32 := 0
  caller : Caller α := .idle
  outcome : Option Outcome := none
  control : List ControlRequest := []
  data : List (ArchiveMessage α) := []

/-- How what the archive thread writes on the data connection ends, if it does. -/
inductive DataWrite where
  | written
  | failed (e : Failure)
  | hangs

/-- The steps of the threads. -/
inductive ArchiveStep (α : Type) where
  /-- Another call generates a request id. -/
  | generateRequestID
  /-- `archive` is called, and `connect` may throw. -/
  | archive (field : α) (connect : Option Failure)
  | flush
  /-- The answer to a request on the control connection: `Received`, or what the caller gets instead. -/
  | received
  | refused (e : Failure)
  | emplace
  | get
  /-- The archive thread goes on, and what it writes may fail. -/
  | thread (write : DataWrite)
  /-- The listening thread gets an Error for the archive, or ends. -/
  | interrupt (e : Failure)

namespace ArchiveClient

variable {α : Type} (maxArchiveQueueLength maxArchiveBatchSize : Nat) (c : ArchiveClient α)

def ends (outcome : Outcome) : ArchiveClient α := { c with caller := .idle, outcome := some outcome }

/-- The assertions before `emplace`. -/
def ready (field : α) : ArchiveClient α :=
  if c.archiveFuture.isNone then c.ends (.asserted "archiveFuture_.valid()")
  else if c.archiveID = 0 then c.ends (.asserted "archiveID_ != 0")
  else { c with caller := .emplacing field false }

/-- `archive` up to its request, where there is no archive thread. -/
def archive (field : α) : ArchiveClient α :=
  match c.archiveFuture with
  | some _ => c.ready field
  | none =>
    if c.archiveID = 0 then
      { c with
        lastID := c.lastID + 1
        caller := .requesting (c.lastID + 1) field
        control := c.control ++ [.archive (c.lastID + 1)] }
    else c.ends (.asserted "archiveID_ == 0")

/-- The archive thread is started. -/
def received (id : UInt32) (field : α) : ArchiveClient α :=
  match c.archiveQueue with
  | some _ => { c with archiveID := id }.ends (.asserted "!archiveQueue_")
  | none => { c with archiveID := id, archiveQueue := some {}, archiveFuture := some (.start id) }.ready field

def emplace (field : α) : ArchiveClient α :=
  match c.archiveQueue with
  | none => c.ends (.asserted "archiveQueue_")
  | some queue =>
    match queue.exception with
    | some e => c.ends (.threw e)
    | none =>
      if queue.items.length < maxArchiveQueueLength then
        { c with archiveQueue := some (queue.emplace field) }.ends .returned
      else { c with caller := .emplacing field true }

def flush : ArchiveClient α :=
  match c.archiveFuture with
  | none => c.ends .returned
  | some _ =>
    if c.archiveID = 0 then c.ends (.asserted "archiveID_ != 0")
    else
      match c.archiveQueue with
      | none => c.ends (.asserted "archiveQueue_")
      | some queue => { c with archiveQueue := some queue.close, caller := .getting }

/-- `archiveFuture_.get()` and what follows. -/
def get : ArchiveClient α :=
  match c.archiveFuture with
  | some (.returned numArchive) =>
    if c.archiveQueue.isSome then { c with archiveFuture := none }.ends (.asserted "!archiveQueue_")
    else
      { c with
        archiveFuture := none
        archiveID := 0
        lastID := c.lastID + 1
        caller := .flushing
        control := c.control ++ [.flush (c.lastID + 1) numArchive] }
  | some (.thrown e) => { c with archiveFuture := none }.ends (.threw e)
  | _ => c

/-- What catches the exceptions of the archive thread. -/
def throwing (e : Failure) : ArchiveClient α :=
  { c with archiveQueue := c.archiveQueue.map (·.interrupt e), archiveFuture := some (.thrown e) }

/-- `sendArchiveData`: one element is sent alone. -/
def message (id : UInt32) : List α → ArchiveMessage α
  | [field] => .blob id field
  | fields => .multiBlob id fields

def thread (write : DataWrite) : ArchiveClient α :=
  match c.archiveFuture with
  | some (.start id) =>
    if c.archiveQueue.isNone then c.throwing (.assertion "archiveQueue_")
    else if c.archiveID = 0 then c.throwing (.assertion "archiveID_ != 0")
    else { c with archiveFuture := some (.popping id 0) }
  | some (.popping id numArchive) =>
    match c.archiveQueue with
    | none => c
    | some queue =>
      match queue.exception with
      | some e => c.throwing e
      | none =>
        if queue.items.isEmpty then
          if queue.done then { c with archiveFuture := some (.done id numArchive) } else c
        else
          { c with
            archiveQueue := some { queue with items := queue.items.drop maxArchiveBatchSize }
            archiveFuture := some (.sending id numArchive (queue.items.take maxArchiveBatchSize)) }
  | some (.sending id numArchive elements) =>
    match write with
    | .failed e => c.throwing e
    | .hangs => { c with archiveFuture := some .hung }
    | .written =>
      { c with
        archiveFuture := some (.popping id (numArchive + elements.length))
        data := c.data ++ [message id elements] }
  | some (.done id numArchive) =>
    match write with
    | .failed e => c.throwing e
    | .hangs => { c with archiveFuture := some .hung }
    | .written =>
      { c with
        archiveFuture := some (.returned numArchive)
        archiveID := 0
        archiveQueue := none
        data := c.data ++ [.flush id] }
  | _ => c

/-- A step; where the thread that takes it has to wait, nothing happens. -/
def step : ArchiveStep α → ArchiveClient α
  | .generateRequestID => { c with lastID := c.lastID + 1 }
  | .archive field connect =>
    match c.caller, connect with
    | .idle, some e => c.ends (.threw e)
    | .idle, none => c.archive field
    | _, _ => c
  | .flush => match c.caller with | .idle => c.flush | _ => c
  | .received =>
    match c.caller with
    | .requesting id field => c.received id field
    | .flushing => c.ends .returned
    | _ => c
  | .refused e =>
    match c.caller with
    | .requesting _ _ | .flushing => c.ends (.threw e)
    | _ => c
  | .emplace =>
    match c.caller with
    | .emplacing field _ => c.emplace maxArchiveQueueLength field
    | _ => c
  | .get => match c.caller with | .getting => c.get | _ => c
  | .thread write => c.thread maxArchiveBatchSize write
  | .interrupt e =>
    match c.caller with
    | .emplacing _ true => c
    | _ => { c with archiveQueue := c.archiveQueue.map (·.interrupt e) }

/-- A live session is set up, or none is. -/
def Consistent : Prop :=
  (c.archiveFuture.isSome ∧ c.archiveID ≠ 0 ∧ c.archiveQueue.isSome) ∨
    (c.archiveFuture = none ∧ c.archiveID = 0 ∧ c.archiveQueue = none)

/-- The queue has no room, and has not been interrupted. -/
def Full : Prop :=
  ∃ queue, c.archiveQueue = some queue ∧ queue.exception = none ∧ maxArchiveQueueLength ≤ queue.items.length

/-- `archive` waits for room in its queue, and no thread will make any. -/
def Blocked : Prop :=
  (∃ field, c.caller = .emplacing field true) ∧ c.Full maxArchiveQueueLength ∧
    ∀ thread, c.archiveFuture = some thread →
      thread = .hung ∨ (∃ n, thread = .returned n) ∨ ∃ e, thread = .thrown e

/-- Between calls the session is all there or not at all; no call has failed an assertion of its own, or waits
for ever. -/
structure Good : Prop where
  consistent : c.caller = .idle → c.Consistent
  asserted : ∀ condition, c.outcome ≠ some (.asserted condition)
  blocked : ¬ c.Blocked maxArchiveQueueLength

/-- No request for an archive has the id 0, no `flush` gets an exception of the archive thread, and `archive` does not
wait for room while that thread hangs. -/
structure Recovers (a : ArchiveStep α) : Prop where
  requestID : a = .received → ∀ field, c.caller ≠ .requesting 0 field
  thrown : a = .get → c.caller = .getting → ∀ e, c.archiveFuture ≠ some (.thrown e)
  room : a = .emplace → (∃ field waiting, c.caller = .emplacing field waiting) → c.archiveFuture = some .hung →
    ¬ c.Full maxArchiveQueueLength
  hangs : a = .thread .hangs → (∃ field, c.caller = .emplacing field true) →
    ((∃ id n elements, c.archiveFuture = some (.sending id n elements)) ∨ ∃ id n, c.archiveFuture = some (.done id n)) →
    ¬ c.Full maxArchiveQueueLength

section Invariant

/-- An archive thread has its queue, which `flush` closes. -/
def Open : Prop :=
  ∃ thread queue, c.archiveFuture = some thread ∧ c.archiveID ≠ 0 ∧ c.archiveQueue = some queue ∧
    (∀ n, thread ≠ .returned n) ∧ (∀ e, thread = .thrown e → queue.exception ≠ none) ∧
    ((∃ id n, thread = .done id n) → queue.done) ∧ (queue.done → c.caller = .getting)

def Closed : Prop := c.archiveFuture = none ∧ c.archiveID = 0 ∧ c.archiveQueue = none

def Finished : Prop := (∃ n, c.archiveFuture = some (.returned n)) ∧ c.archiveID = 0 ∧ c.archiveQueue = none

/-- What there is of a session in each call. -/
def Stands : Prop :=
  match c.caller with
  | .idle => c.Open ∨ c.Closed
  | .requesting _ _ => c.Closed
  | .emplacing _ _ => c.Open
  | .getting => c.Open ∨ c.Finished
  | .flushing => c.Closed

structure Inv : Prop where
  asserted : ∀ condition, c.outcome ≠ some (.asserted condition)
  stands : c.Stands

variable {maxArchiveQueueLength maxArchiveBatchSize c} {a : ArchiveStep α}

theorem Open.consistent (h : c.Open) : c.Consistent := by
  obtain ⟨thread, queue, hfuture, hid, hqueue, -⟩ := h
  exact .inl ⟨by simp [hfuture], hid, by simp [hqueue]⟩

theorem Inv.good (h : c.Inv) (hblocked : ¬ c.Blocked maxArchiveQueueLength) : c.Good maxArchiveQueueLength := by
  obtain ⟨hasserted, hstands⟩ := h
  refine ⟨?_, hasserted, hblocked⟩
  intro hidle
  simp only [Stands, hidle] at hstands
  rcases hstands with hopen | hclosed
  · exact hopen.consistent
  · exact .inr hclosed

/-- Only a thread that hangs leaves `archive` waiting. -/
theorem Inv.blocked_iff (h : c.Inv) : c.Blocked maxArchiveQueueLength ↔
    (∃ field, c.caller = .emplacing field true) ∧ c.Full maxArchiveQueueLength ∧ c.archiveFuture = some .hung := by
  constructor
  · rintro ⟨⟨field, hcaller⟩, hfull, hthread⟩
    refine ⟨⟨field, hcaller⟩, hfull, ?_⟩
    have hstands := h.stands
    simp only [Stands, hcaller] at hstands
    obtain ⟨thread, queue, hfuture, -, hqueue, hreturned, hthrown, -⟩ := hstands
    obtain ⟨queue', hqueue', hexception, -⟩ := hfull
    obtain rfl := Option.some.inj (hqueue'.symm.trans hqueue)
    rcases hthread thread hfuture with rfl | ⟨n, rfl⟩ | ⟨e, rfl⟩
    · exact hfuture
    · exact absurd rfl (hreturned n)
    · exact absurd hexception (hthrown e rfl)
  · rintro ⟨hcaller, hfull, hfuture⟩
    refine ⟨hcaller, hfull, ?_⟩
    rintro thread hthread
    exact .inl (Option.some.inj (hthread.symm.trans hfuture))

/-- What the caller does outside `flush` leaves an open session open. -/
theorem Open.congr {d : ArchiveClient α} (h : c.Open) (hcaller : c.caller ≠ .getting)
    (hfuture : d.archiveFuture = c.archiveFuture) (hid : d.archiveID = c.archiveID)
    (hqueue : d.archiveQueue = c.archiveQueue) : d.Open := by
  obtain ⟨thread, queue, hf, hi, hq, hreturned, hthrown, hdone, hclosed⟩ := h
  refine ⟨thread, queue, hfuture.trans hf, hid ▸ hi, hqueue.trans hq, hreturned, hthrown, hdone, ?_⟩
  intro hc
  exact absurd (hclosed hc) hcaller

theorem inv_archive {field : α} (h : c.Inv) (hidle : c.caller = .idle) : (c.archive field).Inv := by
  obtain ⟨hasserted, hstands⟩ := h
  simp only [Stands, hidle] at hstands
  rcases hstands with hopen | hclosed
  · have hready := hopen
    obtain ⟨thread, queue, hfuture, hid, -⟩ := hready
    rw [archive, hfuture]
    simp only [ready, hfuture, Option.isNone_some, Bool.false_eq_true, if_false, if_neg hid]
    exact ⟨hasserted, hopen.congr (by simp [hidle]) hfuture.symm rfl rfl⟩
  · obtain ⟨hfuture, hid, hqueue⟩ := hclosed
    rw [archive, hfuture]
    simp only [if_pos hid]
    exact ⟨hasserted, rfl, hid, hqueue⟩

theorem inv_received {id : UInt32} {field : α} (h : c.Inv) (hcaller : c.caller = .requesting id field) (hid : id ≠ 0) :
    (c.received id field).Inv := by
  obtain ⟨hasserted, hstands⟩ := h
  simp only [Stands, hcaller] at hstands
  obtain ⟨hfuture, -, hqueue⟩ := hstands
  rw [received, hqueue]
  simp only [ready, Option.isNone_some, Bool.false_eq_true, if_false, if_neg hid]
  refine ⟨hasserted, .start id, {}, rfl, hid, rfl, ?_, ?_, ?_, ?_⟩ <;> simp

theorem inv_ends {outcome : Outcome} (houtcome : ∀ condition, outcome ≠ .asserted condition)
    (h : c.Open ∧ c.caller ≠ .getting ∨ c.Closed) : (c.ends outcome).Inv := by
  refine ⟨fun condition heq => houtcome condition (Option.some.inj heq), ?_⟩
  rcases h with ⟨hopen, hne⟩ | hclosed
  · exact .inl (hopen.congr hne rfl rfl rfl)
  · exact .inr hclosed

theorem inv_emplace {field : α} {waiting : Bool} (h : c.Inv) (hcaller : c.caller = .emplacing field waiting) :
    (c.emplace maxArchiveQueueLength field).Inv := by
  have hopen := h.stands
  simp only [Stands, hcaller] at hopen
  have hne : c.caller ≠ .getting := by simp [hcaller]
  have hends := hopen
  obtain ⟨thread, queue, hfuture, hid, hqueue, hreturned, hthrown, hdone, hclosed⟩ := hopen
  cases hexception : queue.exception with
  | some e =>
    simp only [emplace, hqueue, hexception]
    exact inv_ends (by simp) (.inl ⟨hends, hne⟩)
  | none =>
    by_cases hroom : queue.items.length < maxArchiveQueueLength
    · simp only [emplace, hqueue, hexception, if_pos hroom]
      apply inv_ends (by simp)
      exact .inl ⟨⟨thread, queue.emplace field, hfuture, hid, rfl, hreturned, hthrown, hdone, hclosed⟩, hne⟩
    · simp only [emplace, hqueue, hexception, if_neg hroom]
      exact ⟨h.asserted, hends.congr hne rfl rfl hqueue.symm⟩

theorem inv_flush (h : c.Inv) (hidle : c.caller = .idle) : c.flush.Inv := by
  obtain ⟨hasserted, hstands⟩ := h
  simp only [Stands, hidle] at hstands
  rcases hstands with ⟨thread, queue, hfuture, hid, hqueue, hreturned, hthrown, hdone, -⟩ | hclosed
  · rw [flush, hfuture]
    simp only [if_neg hid, hqueue]
    exact ⟨hasserted, .inl ⟨thread, queue.close, rfl, hid, rfl, hreturned, hthrown, fun _ => rfl, fun _ => rfl⟩⟩
  · rw [flush, hclosed.1]
    exact ⟨by simp [ends], .inr hclosed⟩

theorem inv_get (h : c.Inv) (hgetting : c.caller = .getting) (hthrown : ∀ e, c.archiveFuture ≠ some (.thrown e)) :
    c.get.Inv := by
  have hstands := h.stands
  simp only [Stands, hgetting] at hstands
  rcases hstands with ⟨thread, queue, hfuture, -, -, hreturned, -⟩ | ⟨⟨n, hfuture⟩, hid, hqueue⟩
  · rw [get, hfuture]
    cases thread with
    | returned n => exact absurd rfl (hreturned n)
    | thrown e => exact absurd hfuture (hthrown e)
    | start _ | popping _ _ | sending _ _ _ | done _ _ | hung => exact h
  · rw [get, hfuture]
    simp only [hqueue, Option.isSome_none, Bool.false_eq_true, if_false]
    exact ⟨h.asserted, rfl, rfl, rfl⟩

/-- What the other threads do keeps what there is of a session, or finishes it for `flush`. -/
theorem Inv.congr {d : ArchiveClient α} (h : c.Inv) (hcaller : d.caller = c.caller) (houtcome : d.outcome = c.outcome)
    (hopen : c.Open → d.Open ∨ c.caller = .getting ∧ d.Finished) (hclosed : c.Closed → d.Closed)
    (hfinished : c.Finished → d.Finished) : d.Inv := by
  refine ⟨houtcome ▸ h.asserted, ?_⟩
  have hstands := h.stands
  unfold Stands at hstands ⊢
  rw [hcaller]
  cases hc : c.caller with
  | idle =>
    simp only [hc] at hstands hopen
    rcases hstands with ho | hcl
    · exact .inl ((hopen ho).resolve_right (by simp))
    · exact .inr (hclosed hcl)
  | requesting id field =>
    simp only [hc] at hstands
    exact hclosed hstands
  | emplacing field waiting =>
    simp only [hc] at hstands hopen
    exact (hopen hstands).resolve_right (by simp)
  | getting =>
    simp only [hc] at hstands hopen
    rcases hstands with ho | hf
    · exact (hopen ho).imp_right And.right
    · exact .inr (hfinished hf)
  | flushing =>
    simp only [hc] at hstands
    exact hclosed hstands

theorem inv_interrupt {e : Failure} (h : c.Inv) :
    ({ c with archiveQueue := c.archiveQueue.map (·.interrupt e) } : ArchiveClient α).Inv := by
  apply Inv.congr (d := { c with archiveQueue := c.archiveQueue.map (·.interrupt e) }) h rfl rfl
  · rintro ⟨thread, queue, hfuture, hid, hqueue, hreturned, hthrown, hdone, hclosed⟩
    exact .inl ⟨thread, queue.interrupt e, hfuture, hid, by simp [hqueue], hreturned, fun _ _ => by simp [Queue.interrupt],
      hdone, hclosed⟩
  · rintro ⟨hfuture, hid, hqueue⟩
    exact ⟨hfuture, hid, by simp [hqueue]⟩
  · rintro ⟨hfuture, hid, hqueue⟩
    exact ⟨hfuture, hid, by simp [hqueue]⟩

theorem open_throwing {e : Failure} (h : c.Open) : (c.throwing e).Open := by
  obtain ⟨thread, queue, hfuture, hid, hqueue, hreturned, hthrown, hdone, hclosed⟩ := h
  exact ⟨.thrown e, queue.interrupt e, rfl, hid, by simp [throwing, hqueue], by simp, fun _ _ => by simp [Queue.interrupt],
    by simp, hclosed⟩

theorem open_thread {write : DataWrite} (h : c.Open) : (c.thread maxArchiveBatchSize write).Open ∨
    c.caller = .getting ∧ (c.thread maxArchiveBatchSize write).Finished := by
  have hopen := h
  obtain ⟨thread, queue, hfuture, hid, hqueue, hreturned, hthrown, hdone, hclosed⟩ := h
  cases thread with
  | start id =>
    simp only [ArchiveClient.thread, hfuture, hqueue, Option.isNone_some, Bool.false_eq_true, if_false, if_neg hid]
    exact .inl ⟨.popping id 0, queue, rfl, hid, rfl, by simp, by simp, by simp, hclosed⟩
  | popping id n =>
    cases hexception : queue.exception with
    | some e =>
      simp only [ArchiveClient.thread, hfuture, hqueue, hexception]
      exact .inl (open_throwing hopen)
    | none =>
      by_cases hempty : queue.items.isEmpty
      · by_cases hclose : queue.done
        · simp only [ArchiveClient.thread, hfuture, hqueue, hexception, if_pos hempty, if_pos hclose]
          exact .inl ⟨.done id n, queue, rfl, hid, rfl, by simp, by simp, fun _ => hclose, hclosed⟩
        · simp only [ArchiveClient.thread, hfuture, hqueue, hexception, if_pos hempty, if_neg hclose]
          exact .inl hopen
      · simp only [ArchiveClient.thread, hfuture, hqueue, hexception, if_neg hempty]
        exact .inl ⟨_, _, rfl, hid, rfl, by simp, by simp, by simp, hclosed⟩
  | sending id n elements =>
    cases write with
    | failed e =>
      simp only [ArchiveClient.thread, hfuture]
      exact .inl (open_throwing hopen)
    | hangs =>
      simp only [ArchiveClient.thread, hfuture]
      exact .inl ⟨.hung, queue, rfl, hid, hqueue, by simp, by simp, by simp, hclosed⟩
    | written =>
      simp only [ArchiveClient.thread, hfuture]
      exact .inl ⟨_, queue, rfl, hid, hqueue, by simp, by simp, by simp, hclosed⟩
  | done id n =>
    cases write with
    | failed e =>
      simp only [ArchiveClient.thread, hfuture]
      exact .inl (open_throwing hopen)
    | hangs =>
      simp only [ArchiveClient.thread, hfuture]
      exact .inl ⟨.hung, queue, rfl, hid, hqueue, by simp, by simp, by simp, hclosed⟩
    | written =>
      simp only [ArchiveClient.thread, hfuture]
      exact .inr ⟨hclosed (hdone ⟨id, n, rfl⟩), ⟨n, rfl⟩, rfl, rfl⟩
  | returned n => exact absurd rfl (hreturned n)
  | thrown _ | hung =>
    simp only [ArchiveClient.thread, hfuture]
    exact .inl hopen

theorem thread_caller {write : DataWrite} : (c.thread maxArchiveBatchSize write).caller = c.caller ∧
    (c.thread maxArchiveBatchSize write).outcome = c.outcome := by
  unfold ArchiveClient.thread
  split <;> (repeat' split) <;> exact ⟨rfl, rfl⟩

theorem inv_thread {write : DataWrite} (h : c.Inv) : (c.thread maxArchiveBatchSize write).Inv := by
  apply h.congr thread_caller.1 thread_caller.2 open_thread
  · rintro ⟨hfuture, hid, hqueue⟩
    rw [ArchiveClient.thread, hfuture]
    exact ⟨hfuture, hid, hqueue⟩
  · rintro ⟨⟨n, hfuture⟩, hid, hqueue⟩
    rw [ArchiveClient.thread, hfuture]
    exact ⟨⟨n, hfuture⟩, hid, hqueue⟩

theorem inv_step (h : c.Inv) (ha : c.Recovers maxArchiveQueueLength a) : (c.step maxArchiveQueueLength maxArchiveBatchSize a).Inv := by
  have hstands := h.stands
  cases a with
  | generateRequestID => exact ⟨h.asserted, hstands⟩
  | archive field connect =>
    cases hc : c.caller with
    | idle =>
      simp only [Stands, hc] at hstands
      cases connect with
      | none => simpa only [step, hc] using inv_archive h hc
      | some e =>
        simp only [step, hc]
        apply inv_ends (by simp)
        exact hstands.imp_left fun hopen => ⟨hopen, by simp [hc]⟩
    | requesting _ _ | emplacing _ _ | getting | flushing => simpa only [step, hc] using h
  | flush =>
    cases hc : c.caller with
    | idle => simpa only [step, hc] using inv_flush h hc
    | requesting _ _ | emplacing _ _ | getting | flushing => simpa only [step, hc] using h
  | received =>
    cases hc : c.caller with
    | requesting id field =>
      have hid : id ≠ 0 := by
        rintro rfl
        exact ha.requestID rfl field hc
      simpa only [step, hc] using inv_received h hc hid
    | flushing =>
      simp only [Stands, hc] at hstands
      simpa only [step, hc] using inv_ends (by simp) (.inr hstands)
    | idle | emplacing _ _ | getting => simpa only [step, hc] using h
  | refused e =>
    cases hc : c.caller with
    | requesting id field =>
      simp only [Stands, hc] at hstands
      simpa only [step, hc] using inv_ends (by simp) (.inr hstands)
    | flushing =>
      simp only [Stands, hc] at hstands
      simpa only [step, hc] using inv_ends (by simp) (.inr hstands)
    | idle | emplacing _ _ | getting => simpa only [step, hc] using h
  | emplace =>
    cases hc : c.caller with
    | emplacing field waiting => simpa only [step, hc] using inv_emplace h hc
    | idle | requesting _ _ | getting | flushing => simpa only [step, hc] using h
  | get =>
    cases hc : c.caller with
    | getting => simpa only [step, hc] using inv_get h hc (ha.thrown rfl hc)
    | idle | requesting _ _ | emplacing _ _ | flushing => simpa only [step, hc] using h
  | thread write => exact inv_thread h
  | interrupt e =>
    simp only [step]
    split
    · exact h
    · exact inv_interrupt h

/-- A queue that `archive` waits for has no room, and waiting changes nothing. -/
theorem waiting_emplace {field field' : α} (h : (c.emplace maxArchiveQueueLength field).caller = .emplacing field' true) :
    c.Full maxArchiveQueueLength ∧
      (c.emplace maxArchiveQueueLength field).archiveFuture = c.archiveFuture := by
  unfold emplace at h ⊢
  cases hqueue : c.archiveQueue with
  | none => simp [hqueue, ends] at h
  | some queue =>
    cases hexception : queue.exception with
    | some e => simp [hqueue, hexception, ends] at h
    | none =>
      by_cases hroom : queue.items.length < maxArchiveQueueLength
      · simp [hqueue, hexception, hroom, ends] at h
      · simp only [hexception, if_neg hroom, and_true]
        exact ⟨queue, hqueue, hexception, not_lt.mp hroom⟩

/-- An archive thread hangs in the write that it is at. -/
theorem hung_thread {write : DataWrite} (h : (c.thread maxArchiveBatchSize write).archiveFuture = some .hung) :
    (c.thread maxArchiveBatchSize write).archiveQueue = c.archiveQueue ∧ (c.archiveFuture = some .hung ∨ write = .hangs ∧
      ((∃ id n elements, c.archiveFuture = some (.sending id n elements)) ∨
        ∃ id n, c.archiveFuture = some (.done id n))) := by
  unfold ArchiveClient.thread at h ⊢
  cases hf : c.archiveFuture with
  | none => simp [hf] at h
  | some thread =>
    cases thread with
    | hung => simp
    | returned _ | thrown _ => simp [hf] at h
    | start id =>
      simp only [hf] at h
      (repeat' split at h) <;> simp [throwing] at h
    | popping id n =>
      simp only [hf] at h
      (repeat' split at h) <;> simp [throwing, hf] at h
    | sending id n elements =>
      cases write with
      | written => simp [hf] at h
      | failed e => simp [hf, throwing] at h
      | hangs => simp
    | done id n =>
      cases write with
      | written => simp [hf] at h
      | failed e => simp [hf, throwing] at h
      | hangs => simp

/-- But for `emplace` and the thread a step that ends with `archive` waiting for room leaves it waiting. -/
theorem waiting_step {field : α} (hcaller : (c.step maxArchiveQueueLength maxArchiveBatchSize a).caller = .emplacing field true)
    (hemplace : a ≠ .emplace) (hthread : ∀ write, a ≠ .thread write) : c.caller = .emplacing field true ∧
      (c.step maxArchiveQueueLength maxArchiveBatchSize a).archiveQueue = c.archiveQueue ∧
      (c.step maxArchiveQueueLength maxArchiveBatchSize a).archiveFuture = c.archiveFuture := by
  have hstay (hstep : c.step maxArchiveQueueLength maxArchiveBatchSize a = c) :
      c.caller = .emplacing field true ∧
        (c.step maxArchiveQueueLength maxArchiveBatchSize a).archiveQueue = c.archiveQueue ∧
        (c.step maxArchiveQueueLength maxArchiveBatchSize a).archiveFuture = c.archiveFuture := by
    rw [hstep] at hcaller ⊢
    exact ⟨hcaller, rfl, rfl⟩
  cases a with
  | generateRequestID => exact ⟨hcaller, rfl, rfl⟩
  | archive field' connect =>
    cases hc : c.caller with
    | idle =>
      cases connect with
      | some e => simp [step, hc, ends] at hcaller
      | none =>
        simp only [step, hc, archive, ready] at hcaller
        (repeat' split at hcaller) <;> simp [ends] at hcaller
    | requesting _ _ | emplacing _ _ | getting | flushing => exact hc ▸ hstay (by simp only [step, hc])
  | flush =>
    cases hc : c.caller with
    | idle =>
      simp only [step, hc, flush] at hcaller
      (repeat' split at hcaller) <;> simp [ends] at hcaller
    | requesting _ _ | emplacing _ _ | getting | flushing => exact hc ▸ hstay (by simp only [step, hc])
  | received =>
    cases hc : c.caller with
    | requesting id field' =>
      simp only [step, hc, received, ready] at hcaller
      (repeat' split at hcaller) <;> simp [ends] at hcaller
    | flushing => simp [step, hc, ends] at hcaller
    | idle | emplacing _ _ | getting => exact hc ▸ hstay (by simp only [step, hc])
  | refused e =>
    cases hc : c.caller with
    | requesting _ _ | flushing => simp [step, hc, ends] at hcaller
    | idle | emplacing _ _ | getting => exact hc ▸ hstay (by simp only [step, hc])
  | emplace => exact absurd rfl hemplace
  | get =>
    cases hc : c.caller with
    | getting =>
      simp only [step, hc, get] at hcaller
      (repeat' split at hcaller) <;> simp [ends, hc] at hcaller
    | idle | requesting _ _ | emplacing _ _ | flushing => exact hc ▸ hstay (by simp only [step, hc])
  | thread write => exact absurd rfl (hthread write)
  | interrupt e =>
    cases hc : c.caller with
    | emplacing field' waiting =>
      cases waiting with
      | true => exact hc ▸ hstay (by simp only [step, hc])
      | false => simp [step, hc] at hcaller
    | idle | requesting _ _ | getting | flushing => simp [step, hc] at hcaller

/-- `archive` comes to wait for ever where it waits for room while the thread hangs. -/
theorem not_blocked_step (h : c.Inv) (hblocked : ¬ c.Blocked maxArchiveQueueLength)
    (ha : c.Recovers maxArchiveQueueLength a) :
    ¬ (c.step maxArchiveQueueLength maxArchiveBatchSize a).Blocked maxArchiveQueueLength := by
  have hinv : (c.step maxArchiveQueueLength maxArchiveBatchSize a).Inv := inv_step h ha
  rw [h.blocked_iff] at hblocked
  rw [hinv.blocked_iff]
  rintro ⟨⟨field, hcaller⟩, hfull, hfuture⟩
  by_cases hemplace : a = .emplace
  · subst hemplace
    cases hc : c.caller with
    | emplacing field' waiting =>
      simp only [step, hc] at hcaller hfuture
      obtain ⟨hfull, hsame⟩ := waiting_emplace hcaller
      exact ha.room rfl ⟨field', waiting, hc⟩ (hsame.symm.trans hfuture) hfull
    | idle | requesting _ _ | getting | flushing => simp [step, hc] at hcaller
  by_cases hthread : ∃ write, a = .thread write
  · obtain ⟨write, rfl⟩ := hthread
    have hwaiting : c.caller = .emplacing field true := thread_caller.1.symm.trans hcaller
    obtain ⟨hqueue, hhung⟩ := hung_thread hfuture
    have hfull' : c.Full maxArchiveQueueLength := hfull.imp fun queue hq => ⟨hqueue.symm.trans hq.1, hq.2⟩
    rcases hhung with hhung | ⟨rfl, hwriting⟩
    · exact hblocked ⟨⟨field, hwaiting⟩, hfull', hhung⟩
    · exact ha.hangs rfl ⟨field, hwaiting⟩ hwriting hfull'
  obtain ⟨hwaiting, hqueue, hsame⟩ := waiting_step hcaller hemplace fun write h => hthread ⟨write, h⟩
  exact hblocked ⟨⟨field, hwaiting⟩, hfull.imp fun queue hq => ⟨hqueue.symm.trans hq.1, hq.2⟩, hsame.symm.trans hfuture⟩

/-- Without what the condition asks for a call ends with the session half there, or waits for ever. -/
theorem not_good_step (h : c.Inv) (ha : ¬ c.Recovers maxArchiveQueueLength a) :
    ¬ (c.step maxArchiveQueueLength maxArchiveBatchSize a).Good maxArchiveQueueLength := by
  intro hgood
  have hstands := h.stands
  apply ha
  refine ⟨?_, ?_, ?_, ?_⟩
  · rintro rfl field hc
    simp only [Stands, hc] at hstands
    have hasserted := hgood.asserted "archiveID_ != 0"
    apply hasserted
    simp [step, hc, received, hstands.2.2, ready, ends]
  · rintro rfl hc e hfuture
    simp only [Stands, hc] at hstands
    rcases hstands with ⟨thread, queue, -, hid, hqueue, -⟩ | ⟨⟨n, hn⟩, -⟩
    · have hconsistent := hgood.consistent (by simp [step, hc, get, hfuture, ends])
      simp [Consistent, step, hc, get, hfuture, ends, hid] at hconsistent
    · rw [hfuture] at hn
      cases hn
  · rintro rfl ⟨field, waiting, hc⟩ hfuture ⟨queue, hqueue, hexception, hroom⟩
    apply hgood.blocked
    simp only [step, hc, emplace, hqueue, hexception, if_neg (not_lt.mpr hroom)]
    refine ⟨⟨field, rfl⟩, ⟨queue, rfl, hexception, hroom⟩, ?_⟩
    intro thread hthread
    exact .inl (Option.some.inj (hthread.symm.trans hfuture))
  · rintro rfl ⟨field, hc⟩ hwrites ⟨queue, hqueue, hexception, hroom⟩
    apply hgood.blocked
    have hhung : c.thread maxArchiveBatchSize .hangs = { c with archiveFuture := some .hung } := by
      rcases hwrites with ⟨id, n, elements, hfuture⟩ | ⟨id, n, hfuture⟩ <;> simp only [ArchiveClient.thread, hfuture]
    rw [step, hhung]
    refine ⟨⟨field, hc⟩, ⟨queue, hqueue, hexception, hroom⟩, ?_⟩
    rintro thread ⟨⟩
    exact .inl rfl

/-- A call that waits for ever does. -/
theorem blocked_step (h : c.Blocked maxArchiveQueueLength) :
    (c.step maxArchiveQueueLength maxArchiveBatchSize a).Blocked maxArchiveQueueLength := by
  have hstay := h
  obtain ⟨⟨field, hc⟩, ⟨queue, hqueue, hexception, hroom⟩, hthread⟩ := h
  cases a with
  | generateRequestID => exact hstay
  | emplace =>
    simp only [step, hc, emplace, hqueue, hexception, if_neg (not_lt.mpr hroom)]
    exact ⟨⟨field, rfl⟩, ⟨queue, rfl, hexception, hroom⟩, hthread⟩
  | thread write =>
    have hidle : c.thread maxArchiveBatchSize write = c := by
      cases hfuture : c.archiveFuture with
      | none => simp only [ArchiveClient.thread, hfuture]
      | some thread => rcases hthread thread hfuture with rfl | ⟨n, rfl⟩ | ⟨e, rfl⟩ <;> simp only [ArchiveClient.thread, hfuture]
    rwa [step, hidle]
  | archive _ _ | flush | received | refused _ | get | interrupt _ => simpa only [step, hc] using hstay

/-- Over a whole run the client is good at every step exactly if it recovers at every step. -/
theorem recovers_iff {steps : List (ArchiveStep α)} :
    Follows.Each (fun c a => Good maxArchiveQueueLength (step maxArchiveQueueLength maxArchiveBatchSize c a))
        (step maxArchiveQueueLength maxArchiveBatchSize) {} steps ↔
      Follows.Each (Recovers maxArchiveQueueLength) (step maxArchiveQueueLength maxArchiveBatchSize) {} steps := by
  apply Follows.each_iff (I := fun c => Inv c ∧ ¬ Blocked maxArchiveQueueLength c)
  · intro c a h
    constructor
    · intro hgood
      by_contra ha
      exact not_good_step h.1 ha hgood
    · exact fun ha => (inv_step h.1 ha).good (not_blocked_step h.1 h.2 ha)
  · exact fun c a h ha => ⟨inv_step h.1 ha, not_blocked_step h.1 h.2 ha⟩
  · refine ⟨⟨by simp, .inr ⟨rfl, rfl, rfl⟩⟩, ?_⟩
    rintro ⟨⟨field, hcaller⟩, -⟩
    cases hcaller

/-- A call of `archive` whose thread fails while it sends; `flush` throws, and the next `archive` fails. -/
def failedSession : List (ArchiveStep (Key × List UInt8)) :=
  [.archive ({}, []) none, .received, .emplace, .thread .written, .thread .written,
    .thread (.failed (.assertion "length != 0")), .flush, .get, .archive ({}, [7]) none]

theorem failedSession_stuck :
    ¬ Follows.Each (fun c a => Good 200 (step 200 1 c a)) (step 200 1) {} failedSession := by
  intro h
  have hlast := h (failedSession.take 8) (.archive ({}, [7]) none) [] rfl
  exact hlast.asserted "archiveID_ == 0" rfl

end Invariant

end ArchiveClient

namespace RemoteFDB

open Effect Bytes

/-- What an iteration of the listening thread can do to an archive. -/
def Interrupts (r r' : Receivers) : Prop :=
  r'.archiveID = r.archiveID ∧
    (r'.archiveQueue = r.archiveQueue ∨ ∃ e, r'.archiveQueue = r.archiveQueue.map (·.interrupt e))

variable {α : Type} {r r' : Receivers} {s : List UInt8 × Receivers}

theorem Interrupts.refl : Interrupts r r := ⟨rfl, .inl rfl⟩

theorem Interrupts.interruptAll (e : Failure) (h : Interrupts r r') : Interrupts r (r'.interruptAll e) := by
  refine ⟨h.1, .inr ⟨e, ?_⟩⟩
  rcases h.2 with hq | ⟨e', hq⟩
  · rw [Receivers.interruptAll, hq]
  · rw [Receivers.interruptAll, hq, Option.map_map]
    rfl

theorem ends_onFst_snd {x : EStateM Failure (List UInt8) α} :
    Ends (onFst (τ := Receivers) x) s (fun _ t => t.2 = s.2) fun _ t => t.2 = s.2 := by
  rw [ends_focus, ends_iff]
  exact ⟨fun _ _ _ => rfl, fun _ _ _ => rfl⟩

/-- A delivery after the payload is read leaves the archive alone, or interrupts it. -/
theorem ends_delivered {x : EStateM Failure (List UInt8 × Receivers) (List UInt8)} {f : List UInt8 → Receivers → Receivers}
    (hx : Ends x s (fun _ t => t.2 = s.2) fun _ t => t.2 = s.2) (hf : ∀ payload, Interrupts s.2 (f payload s.2)) :
    Ends (x >>= fun payload => onSnd (modify (f payload))) s (fun _ t => Interrupts s.2 t.2)
      fun _ t => Interrupts s.2 t.2 := by
  rw [ends_bind]
  apply hx.mono
  · intro payload t ht
    rw [ends_focus, ends_modify]
    simpa only [ht] using hf payload
  · intro e t ht
    rw [ht]
    exact .refl

theorem ends_deliverError_interrupts {hdr : MessageHeader} : Ends (deliverError hdr) s (fun _ t => Interrupts s.2 t.2)
    fun _ t => Interrupts s.2 t.2 := by
  rw [deliverError, ends_bind, ends_get]
  by_cases hid : hdr.requestID ∈ s.2.messageQueues
  · rw [if_pos hid]
    exact ends_delivered ends_onFst_snd fun _ => ⟨rfl, .inl rfl⟩
  · rw [if_neg hid]
    by_cases ha : hdr.requestID = s.2.archiveID
    · rw [if_pos ha]
      cases hq : s.2.archiveQueue with
      | none => exact .refl
      | some queue => exact ends_delivered ends_onFst_snd fun msg => ⟨rfl, .inr ⟨remoteException msg, by simp [hq]⟩⟩
    · rw [if_neg ha]
      exact ends_delivered ends_onFst_snd fun _ => ⟨rfl, .inl rfl⟩

theorem ends_listen_interrupts : Ends listen s (fun _ t => Interrupts s.2 t.2) fun _ t => Interrupts s.2 t.2 := by
  rw [listen, ends_bind]
  apply ends_onFst_snd.mono ?_ fun _ _ h => h ▸ .refl
  intro hdr t ht
  simp only [ends_bind, ends_ensure]
  refine ⟨fun _ => ⟨fun _ => ?_, fun _ => ht ▸ .refl⟩, fun _ => ht ▸ .refl⟩
  rw [← ht]
  have htail : ∀ x : EStateM Failure (List UInt8 × Receivers) Unit,
      Ends x t (fun _ u => Interrupts t.2 u.2) (fun _ u => Interrupts t.2 u.2) →
        Ends (x >>= fun _ => onFst readTail >>= fun _ => pure true) t (fun _ u => Interrupts t.2 u.2)
          fun _ u => Interrupts t.2 u.2 := by
    intro x hx
    simp only [ends_bind, ends_pure]
    apply hx.mono ?_ fun _ _ h => h
    exact fun _ u hu => ends_onFst_snd.mono (fun _ _ h => h ▸ hu) fun _ _ h => h ▸ hu
  cases hm : Message.ofCode hdr.message with
  | none => exact .refl
  | some m =>
    cases m with
    | exit => exact .refl
    | blob =>
      apply htail
      apply ends_delivered ends_onFst_snd
      intro payload
      by_cases hid : hdr.requestID ∈ t.2.messageQueues
      · simp only [if_pos hid]
        exact ⟨rfl, .inl rfl⟩
      · simp only [if_neg hid]
        exact ⟨rfl, .inl rfl⟩
    | complete =>
      apply htail
      by_cases hid : hdr.requestID ∈ t.2.messageQueues
      · simp only [deliverComplete, ends_focus, ends_modify, if_pos hid]
        exact ⟨rfl, .inl rfl⟩
      · simp only [deliverComplete, ends_focus, ends_modify, if_neg hid]
        exact ⟨rfl, .inl rfl⟩
    | error =>
      apply htail
      exact ends_deliverError_interrupts
    | _ => exact .refl

/-- An iteration of the listening thread, which needs `archiveQueuePtrMutex_` for it, is no step of the archive, or the
step `interrupt`. -/
theorem ends_listeningThreadLoop_interrupts : Ends listeningThreadLoop s (fun _ t => Interrupts s.2 t.2)
    fun _ t => Interrupts s.2 t.2 := by
  have hlisten := ends_listen_interrupts (s := s)
  unfold Ends at hlisten ⊢
  rw [run_listeningThreadLoop]
  cases hrun : listen.run s with
  | ok b t => simpa only [hrun] using hlisten
  | error e t =>
    simp only [hrun] at hlisten ⊢
    exact hlisten.interruptAll e

end RemoteFDB

end Fdb5
