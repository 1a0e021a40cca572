import Fdb5.Remote.ArchiveSystem

/-! What a `flush` of a `RemoteFDB` that returns has done, in every interleaving with its server. -/
namespace Fdb5

namespace ArchiveSystem

variable {α : Type} (s : ArchiveSystem α)

/-- No session, or the request for one is on its way. -/
structure Quiet : Prop where
  client : s.client.Closed
  future : s.server.archiveFuture = none
  loop : s.server.loop = .reading
  data : s.client.data = []
  replies : s.replies = []
  enqueued : s.enqueued = []
  fdb : s.server.fdb = s.before
  caller : s.client.caller = .idle ∧ s.client.control = [] ∨
    ∃ id field, s.client.caller = .requesting id field ∧ s.client.control = [.archive id]

/-- Its control loop takes no part in a session that stands. -/
def Between : Prop := s.server.loop = .reading ∨ s.server.loop = .stopped

/-- The server has started its thread, and the answer is on its way. -/
structure Starting (t : ServerThread α) (id : UInt32) (field : α) : Prop where
  client : s.client.Closed
  caller : s.client.caller = .requesting id field
  future : s.server.archiveFuture = some t
  thread : t = { id } ∧ s.server.fdb = s.before ∨ t.Doomed
  loop : s.Between
  data : s.client.data = []
  control : s.client.control = []
  replies : s.replies = [none]
  enqueued : s.enqueued = []

structure Session (t : ServerThread α) (thread : ArchiveThread α) : Prop where
  client : s.client.Open ∨ s.client.Finished
  running : s.client.archiveFuture = some thread
  fails : ¬ thread.Fails
  future : s.server.archiveFuture = some t
  loop : s.Between
  control : s.client.control = []
  replies : s.replies = []
  caller : (s.client.caller = .idle ∨ ∃ field waiting, s.client.caller = .emplacing field waiting) ∧ s.client.Open ∨
    s.client.caller = .getting
  archives : s.Archives t thread (items s.client)

/-- The archive thread has returned to `flush`, which waits for the server's. -/
structure Flushing (t : ServerThread α) (id : UInt32) (n : Nat) : Prop where
  client : s.client.Closed
  caller : s.client.caller = .flushing
  future : s.server.archiveFuture = some t
  replies : s.replies = []
  request : s.client.control = [.flush id n] ∧ s.server.loop = .reading ∨ s.client.control = [] ∧ s.server.loop = .getting n
  archives : s.Archives t (.returned n) []

/-- The server has flushed, and so it answers, or an Error goes in the place of the answer. -/
structure Answered (reply : Option Failure) : Prop where
  client : s.client.Closed
  caller : s.client.caller = .flushing
  future : s.server.archiveFuture = none
  loop : s.Between
  data : s.client.data = []
  control : s.client.control = []
  replies : s.replies = [reply]
  flushed : s.Flushed

/-- The client does not know of the server's thread, and cannot get another one. -/
structure Orphaned : Prop where
  client : s.client.Closed
  future : s.server.archiveFuture.isSome
  loop : s.server.loop = .reading
  enqueued : s.enqueued = []
  caller : s.client.caller = .idle ∧ s.client.control = [] ∧ s.replies = [] ∨
    ∃ id field, s.client.caller = .requesting id field ∧
      (s.client.control = [.archive id] ∧ s.replies = [] ∨ s.client.control = [] ∧ ∃ e, s.replies = [some e])

/-- The server has failed, and answers no more. -/
structure Stopped : Prop where
  client : s.client.Closed
  caller : s.client.caller = .idle ∨ (∃ id field, s.client.caller = .requesting id field) ∨ s.client.caller = .flushing
  loop : s.server.loop = .stopped
  replies : none ∉ s.replies
  enqueued : s.client.caller ≠ .flushing → s.enqueued = []

/-- The phases of the system. -/
inductive Phase : Prop
  | quiet (h : s.Quiet)
  | starting (t : ServerThread α) (id : UInt32) (field : α) (h : s.Starting t id field)
  | session (t : ServerThread α) (thread : ArchiveThread α) (h : s.Session t thread)
  | flushing (t : ServerThread α) (id : UInt32) (n : Nat) (h : s.Flushing t id n)
  | answered (reply : Option Failure) (h : s.Answered reply)
  | orphaned (h : s.Orphaned)
  | stuck (client : Stuck s.client) (enqueued : s.client.archiveFuture = none → s.enqueued = [])
  | stopped (h : s.Stopped)

variable {s} {maxArchiveQueueLength maxArchiveBatchSize serverMaxQueueSize : Nat} {c : ArchiveClient α}
  {t : ServerThread α} {thread : ArchiveThread α} {a : ArchiveStep α} {b : SystemStep α} {id : UInt32} {n : Nat} {field : α}

theorem phase_empty : ({} : ArchiveSystem α).Phase :=
  .quiet ⟨⟨rfl, rfl, rfl⟩, rfl, rfl, rfl, rfl, rfl, rfl, .inl ⟨rfl, rfl⟩⟩

theorem settle_running {flush : Bool} (hc : c.caller ≠ .idle) : s.settle c flush = { s with client := c } := by
  unfold settle
  split <;> simp_all

theorem settle_requesting {flush : Bool} (hc : s.client.caller = .requesting id field) :
    s.settle c flush = { s with client := c } := by
  unfold settle
  split <;> simp_all

theorem settle_idle (hs : s.client.caller = .idle) : s.settle c false = { s with client := c } := by
  unfold settle
  split <;> simp_all

/-- Only a caller that waits for an answer can be refused one. -/
theorem refuse_same {e : Failure} (hc : s.client.caller = .idle ∨ (∃ field waiting, s.client.caller = .emplacing field waiting) ∨
    s.client.caller = .getting) : s.refuse maxArchiveQueueLength maxArchiveBatchSize e = s := by
  rcases hc with hc | ⟨field, waiting, hc⟩ | hc <;> simp only [refuse, onClient, ArchiveClient.step, hc]
  · exact settle_idle hc
  · exact settle_running (by simp [hc])
  · exact settle_running (by simp [hc])

theorem refuse_requesting {e : Failure} (hc : s.client.caller = .requesting id field) :
    s.refuse maxArchiveQueueLength maxArchiveBatchSize e = { s with client := s.client.ends (.threw e) } := by
  simp only [refuse, onClient, ArchiveClient.step, hc]
  exact settle_requesting hc

theorem refuse_flushing {e : Failure} (hc : s.client.caller = .flushing) :
    s.refuse maxArchiveQueueLength maxArchiveBatchSize e =
      { s with client := s.client.ends (.threw e), enqueued := [], before := s.server.fdb } := by
  simp only [refuse, onClient, ArchiveClient.step, hc, settle, ArchiveClient.ends]

theorem onThread_none {f : ServerThread α → ServerThread α} (h : s.server.archiveFuture = none) : s.onThread f = s := by
  simp only [onThread, h, Option.map_none]
  rw [← h]

theorem onThread_some {f : ServerThread α → ServerThread α} (h : s.server.archiveFuture = some t) :
    s.onThread f = { s with server := { s.server with archiveFuture := some (f t) } } := by
  simp only [onThread, h, Option.map_some]

theorem get_between {flush acknowledge : Option Failure} (h : s.Between) :
    s.step maxArchiveQueueLength maxArchiveBatchSize serverMaxQueueSize (.get flush acknowledge) = s := by
  have hget : s.server.get flush = (s.server, []) := by
    rcases h with h | h <;> simp only [ArchiveServer.get, h]
  simp only [step, onServer, hget, List.map_nil, List.append_nil]

theorem control_none {acknowledge : Option Failure} (h : s.client.control = []) :
    s.step maxArchiveQueueLength maxArchiveBatchSize serverMaxQueueSize (.control acknowledge) = s := by
  simp only [step]
  split
  next hcontrol =>
    rw [h] at hcontrol
    cases hcontrol
  next => rfl

theorem unsent_none {part : Bool} {e : Failure} (h : s.client.control = []) :
    s.step maxArchiveQueueLength maxArchiveBatchSize serverMaxQueueSize (.unsent part e) = s := by
  simp only [step]
  split
  next hcontrol =>
    rw [h] at hcontrol
    cases hcontrol
  next hcontrol =>
    rw [h] at hcontrol
    cases hcontrol
  next => rfl

theorem hangup_reading {e : Failure} (h : s.server.loop ≠ .stopped) :
    s.step maxArchiveQueueLength maxArchiveBatchSize serverMaxQueueSize (.hangup e) = s := by
  cases hloop : s.server.loop with
  | stopped => exact absurd hloop h
  | reading | getting _ => simp only [step, hloop]

/-- A caller that waits for an answer is left to wait. -/
theorem step_waiting (h : c.Closed) (hc : c.caller = .flushing ∨ ∃ id field, c.caller = .requesting id field)
    (hreceived : a ≠ .received) (hrefused : ∀ e, a ≠ .refused e) :
    ∃ lastID, c.step maxArchiveQueueLength maxArchiveBatchSize a = { c with lastID } := by
  obtain ⟨hfuture, -, hqueue⟩ := h
  have hkeep : c.step maxArchiveQueueLength maxArchiveBatchSize a = c →
      ∃ lastID, c.step maxArchiveQueueLength maxArchiveBatchSize a = { c with lastID } := fun h => ⟨c.lastID, h⟩
  cases a with
  | generateRequestID => exact ⟨_, rfl⟩
  | received => exact absurd rfl hreceived
  | refused e => exact absurd rfl (hrefused e)
  | thread write => exact hkeep (by simp only [ArchiveClient.step, ArchiveClient.thread, hfuture])
  | interrupt e =>
    apply hkeep
    simp only [ArchiveClient.step]
    split
    · rfl
    · simp only [hqueue, Option.map_none]
      rw [← hqueue]
  | archive _ _ | flush | emplace | get =>
    apply hkeep
    rcases hc with hc | ⟨id, field, hc⟩ <;> simp only [ArchiveClient.step, hc]

theorem settle_waiting {flush : Bool} {lastID : UInt32}
    (hc : s.client.caller = .flushing ∨ ∃ id field, s.client.caller = .requesting id field) :
    s.settle { s.client with lastID } flush = { s with client := { s.client with lastID } } := by
  rcases hc with hc | ⟨id, field, hc⟩
  · exact settle_running (by simp [hc])
  · exact settle_requesting hc

theorem client_waiting (h : s.client.Closed)
    (hc : s.client.caller = .flushing ∨ ∃ id field, s.client.caller = .requesting id field) : ∃ lastID,
      s.step maxArchiveQueueLength maxArchiveBatchSize serverMaxQueueSize (.client a) =
        { s with client := { s.client with lastID } } := by
  have hstep : a ≠ .received → (∀ e, a ≠ .refused e) → ∀ flush, ∃ lastID,
      s.onClient maxArchiveQueueLength maxArchiveBatchSize a flush = { s with client := { s.client with lastID } } := by
    intro hreceived hrefused flush
    obtain ⟨lastID, hlast⟩ : ∃ lastID, s.client.step maxArchiveQueueLength maxArchiveBatchSize a =
      { s.client with lastID } := step_waiting h hc hreceived hrefused
    exact ⟨lastID, by rw [onClient, hlast, settle_waiting hc]⟩
  cases a with
  | received | refused e => exact ⟨s.client.lastID, rfl⟩
  | _ => exact hstep (by simp) (by simp) _

/-- A client without a session makes a request for one at the most. -/
theorem client_idle (hclient : s.client.Closed) (hc : s.client.caller = .idle) : ∃ d : ArchiveClient α, d.Closed ∧
    d.data = s.client.data ∧
    (d.caller = .idle ∧ d.control = s.client.control ∨
      ∃ id field, d.caller = .requesting id field ∧ d.control = s.client.control ++ [.archive id]) ∧
    (s.step maxArchiveQueueLength maxArchiveBatchSize serverMaxQueueSize (.client a) = { s with client := d } ∨
      d.caller = .idle ∧ s.step maxArchiveQueueLength maxArchiveBatchSize serverMaxQueueSize (.client a) =
        { s with client := d, enqueued := [], before := s.server.fdb }) := by
  have hclosed := hclient
  obtain ⟨hthread, hid, hqueue⟩ := hclosed
  have hkeep : s.step maxArchiveQueueLength maxArchiveBatchSize serverMaxQueueSize (.client a) = s.settle s.client false →
      s.step maxArchiveQueueLength maxArchiveBatchSize serverMaxQueueSize (.client a) = { s with client := s.client } :=
    fun h => h.trans (settle_idle hc)
  cases a with
  | received | refused e => exact ⟨s.client, hclient, rfl, .inl ⟨hc, rfl⟩, .inl rfl⟩
  | generateRequestID =>
    exact ⟨{ s.client with lastID := s.client.lastID + 1 }, hclient, rfl, .inl ⟨hc, rfl⟩, .inl (settle_idle hc)⟩
  | archive field connect =>
    cases connect with
    | some e =>
      refine ⟨s.client.ends (.threw e), hclient, rfl, .inl ⟨rfl, rfl⟩, .inl ?_⟩
      simp only [step, onClient, ArchiveClient.step, hc]
      exact settle_idle hc
    | none =>
      refine ⟨s.client.archive field, ?_, ?_, .inr ⟨s.client.lastID + 1, field, ?_, ?_⟩, .inl ?_⟩
      · simp only [ArchiveClient.archive, hthread, if_pos hid]
        exact ⟨rfl, hid, hqueue⟩
      · simp only [ArchiveClient.archive, hthread, if_pos hid]
      · simp only [ArchiveClient.archive, hthread, if_pos hid]
      · simp only [ArchiveClient.archive, hthread, if_pos hid]
      · simp only [step, onClient, ArchiveClient.step, hc]
        exact settle_idle hc
  | flush =>
    refine ⟨s.client.ends .returned, hclient, rfl, .inl ⟨rfl, rfl⟩, .inr ⟨rfl, ?_⟩⟩
    simp only [step, onClient, ArchiveClient.step, hc, ArchiveClient.flush, hthread, settle, ArchiveClient.ends, if_true]
  | emplace | get =>
    exact ⟨s.client, hclient, rfl, .inl ⟨hc, rfl⟩, .inl (hkeep (by simp only [step, onClient, ArchiveClient.step, hc]))⟩
  | thread write =>
    refine ⟨s.client, hclient, rfl, .inl ⟨hc, rfl⟩, .inl (hkeep ?_)⟩
    simp only [step, onClient, ArchiveClient.step, ArchiveClient.thread, hthread]
  | interrupt e =>
    refine ⟨{ s.client with archiveQueue := s.client.archiveQueue.map (·.interrupt e) }, ⟨hthread, hid, by simp [hqueue]⟩,
      rfl, .inl ⟨hc, rfl⟩, .inl ?_⟩
    simp only [step, onClient, ArchiveClient.step, hc]
    exact settle_idle hc

theorem Quiet.client_step (h : s.Quiet) :
    (s.step maxArchiveQueueLength maxArchiveBatchSize serverMaxQueueSize (.client a)).Quiet := by
  obtain ⟨hclient, hfuture, hloop, hdata, hreplies, henqueued, hfdb, hcaller⟩ := h
  rcases hcaller with ⟨hc, hcontrol⟩ | ⟨id, field, hc, hcontrol⟩
  · obtain ⟨d, hd, hdd, hdc, hstep⟩ := client_idle (s := s) (a := a) hclient hc
    simp only [hcontrol, List.nil_append] at hdc
    rcases hstep with hstep | ⟨hidle, hstep⟩
    · rw [hstep]
      exact ⟨hd, hfuture, hloop, hdd.trans hdata, hreplies, henqueued, hfdb, hdc⟩
    · rw [hstep]
      exact ⟨hd, hfuture, hloop, hdd.trans hdata, hreplies, rfl, rfl, hdc⟩
  · obtain ⟨lastID, hlast⟩ := client_waiting (s := s) (a := a) hclient (.inr ⟨id, field, hc⟩)
    rw [hlast]
    exact ⟨hclient, hfuture, hloop, hdata, hreplies, henqueued, hfdb, .inr ⟨id, field, hc, hcontrol⟩⟩

/-- A server that stops answers no more. -/
theorem stopped_of (hclient : s.client.Closed)
    (hcaller : s.client.caller = .idle ∨ (∃ id field, s.client.caller = .requesting id field) ∨ s.client.caller = .flushing)
    (hreplies : none ∉ s.replies) (henqueued : s.client.caller ≠ .flushing → s.enqueued = []) :
    (s.step maxArchiveQueueLength maxArchiveBatchSize serverMaxQueueSize .stop).Phase :=
  .stopped ⟨hclient, hcaller, rfl, hreplies, henqueued⟩

theorem Quiet.step (h : s.Quiet) (hb : ∀ e, b ≠ .unread e) :
    (s.step maxArchiveQueueLength maxArchiveBatchSize serverMaxQueueSize b).Phase := by
  have hquiet := h
  obtain ⟨hclient, hfuture, hloop, hdata, hreplies, henqueued, hfdb, hcaller⟩ := h
  have hkeep := Phase.quiet hquiet
  cases b with
  | client a => exact .quiet hquiet.client_step
  | reply => simpa only [ArchiveSystem.step, hreplies] using hkeep
  | unsent part e =>
    rcases hcaller with ⟨-, hcontrol⟩ | ⟨id, field, hc, hcontrol⟩
    · rwa [unsent_none hcontrol]
    · simp only [ArchiveSystem.step, hc, hcontrol]
      rw [refuse_requesting (s := s.unsend part) hc]
      cases part with
      | true => exact .stopped ⟨hclient, .inl rfl, rfl, by simp [unsend, hreplies], fun _ => henqueued⟩
      | false => exact .quiet ⟨hclient, hfuture, hloop, hdata, hreplies, henqueued, hfdb, .inl ⟨rfl, rfl⟩⟩
  | hangup e => rwa [hangup_reading (by simp [hloop])]
  | unread e => exact absurd rfl (hb e)
  | control acknowledge =>
    rcases hcaller with ⟨hc, hcontrol⟩ | ⟨id, field, hc, hcontrol⟩
    · rwa [control_none hcontrol]
    · simp only [ArchiveSystem.step, hloop, hcontrol, ArchiveServer.control, hfuture, Option.isSome_none, Bool.false_eq_true,
        if_false, onServer, hreplies, List.nil_append]
      cases acknowledge with
      | none =>
        exact .starting { id } id field
          ⟨hclient, hc, rfl, .inl ⟨rfl, hfdb⟩, .inl rfl, hdata, rfl, rfl, henqueued⟩
      | some e => exact .orphaned ⟨hclient, rfl, rfl, henqueued, .inr ⟨id, field, hc, .inr ⟨rfl, e, rfl⟩⟩⟩
  | get flush acknowledge => rwa [get_between (.inl hloop)]
  | stop =>
    apply stopped_of hclient ?_ (by simp [hreplies]) fun _ => henqueued
    exact hcaller.imp And.left fun ⟨id, field, hc, _⟩ => .inl ⟨id, field, hc⟩
  | read => simpa only [ArchiveSystem.step, hfuture, onThread_none hfuture] using hkeep
  | broken e => simpa only [ArchiveSystem.step, onThread_none hfuture] using hkeep
  | work archive => simpa only [ArchiveSystem.step, hfuture] using hkeep

theorem loop_work {server : ArchiveServer α} {archive : Option (Bool × Failure)} :
    (server.work t archive).loop = server.loop := by
  unfold ArchiveServer.work
  (repeat' split) <;> rfl

theorem isSome_work {server : ArchiveServer α} {archive : Option (Bool × Failure)} (h : server.archiveFuture = some t) :
    (server.work t archive).archiveFuture.isSome := by
  unfold ArchiveServer.work
  (repeat' split) <;> simp [h]

theorem Starting.thread_step (h : s.Starting t id field) {server : ArchiveServer α} {t' : ServerThread α}
    (hfuture : server.archiveFuture = some t') (hloop : server.loop = s.server.loop)
    (ht : t' = t ∧ server.fdb = s.server.fdb ∨ t'.Doomed) : ({ s with server } : ArchiveSystem α).Phase := by
  refine .starting t' id field ⟨h.client, h.caller, hfuture, ?_, ?_, h.data, h.control, h.replies, h.enqueued⟩
  · rcases ht with ⟨rfl, hfdb⟩ | ht
    · exact h.thread.imp_left fun hthread => ⟨hthread.1, hfdb.trans hthread.2⟩
    · exact .inr ht
  · exact h.loop.imp hloop.trans hloop.trans

theorem Starting.step (h : s.Starting t id field) (hb : ∀ e, b ≠ .unread e) :
    (s.step maxArchiveQueueLength maxArchiveBatchSize serverMaxQueueSize b).Phase := by
  have hstarting := h
  obtain ⟨hclient, hc, hfuture, hthread, hloop, hdata, hcontrol, hreplies, henqueued⟩ := h
  have hkeep := Phase.starting t id field hstarting
  cases b with
  | client a =>
    obtain ⟨lastID, hlast⟩ := client_waiting (s := s) (a := a) hclient (.inr ⟨id, field, hc⟩)
    rw [hlast]
    exact .starting t id field ⟨hclient, hc, hfuture, hthread, hloop, hdata, hcontrol, hreplies, henqueued⟩
  | reply =>
    obtain ⟨hnone, hid, hqueue⟩ := hclient
    simp only [ArchiveSystem.step, hreplies, onClient, ArchiveClient.step, hc, ArchiveClient.received, hqueue,
      ArchiveClient.ready, Option.isNone_some, Bool.false_eq_true, if_false]
    by_cases hzero : id = 0
    · rw [if_pos hzero]
      refine .stuck (.inr (.inr ⟨.inl ⟨id, ?_⟩, ?_, ?_⟩)) ?_ <;> simp [ArchiveClient.ends, hzero]
    · rw [if_neg hzero, settle_running (by simp)]
      refine .session t (.start id) ⟨.inl ?_, rfl, by simp [ArchiveThread.Fails], hfuture, hloop, hcontrol, rfl,
        .inl ⟨.inr ⟨field, false, rfl⟩, ?_⟩, ?_⟩
      · exact ⟨_, {}, rfl, hzero, rfl, by simp, by simp, by simp, by simp⟩
      · exact ⟨_, {}, rfl, hzero, rfl, by simp, by simp, by simp, by simp⟩
      · rcases hthread with ⟨rfl, hfdb⟩ | hdoomed
        · refine .inr ⟨[], [], [], ?_, ⟨rfl, rfl⟩, ?_, ?_, ⟨rfl, rfl⟩, rfl, .inl ⟨rfl, rfl⟩, by simp, by simp, by simp⟩
          · simpa using hfdb
          · simp [hdata, ServerThread.marker]
          · simp [items, ArchiveThread.elements, henqueued]
        · exact .inl hdoomed
  | unsent part e => rwa [unsent_none hcontrol]
  | hangup e =>
    rcases hloop with hloop | hloop
    · rwa [hangup_reading (by simp [hloop])]
    · simp only [ArchiveSystem.step, hloop]
      rw [refuse_requesting (s := { s with replies := [] }) hc]
      exact .stopped ⟨hclient, .inl rfl, hloop, by simp, fun _ => henqueued⟩
  | unread e => exact absurd rfl (hb e)
  | control acknowledge => rwa [control_none hcontrol]
  | get flush acknowledge => rwa [get_between hloop]
  | stop =>
    exact .starting t id field ⟨hclient, hc, hfuture, hthread, .inr rfl, hdata, hcontrol, hreplies, henqueued⟩
  | read =>
    simp only [ArchiveSystem.step, hfuture, hdata]
    rw [onThread_some hfuture]
    refine hstarting.thread_step rfl rfl ?_
    rcases hthread with ⟨rfl, -⟩ | hdoomed
    · exact .inl ⟨rfl, rfl⟩
    · exact .inr (doomed_join hdoomed)
  | broken e =>
    simp only [ArchiveSystem.step]
    rw [onThread_some hfuture]
    exact hstarting.thread_step rfl rfl (broken_same_or_doomed.imp_left fun h => ⟨h, rfl⟩)
  | work archive =>
    simp only [ArchiveSystem.step, hfuture]
    rcases hthread with ⟨rfl, -⟩ | hdoomed
    · have hwork : s.server.work { id } archive = s.server := by simp [ArchiveServer.work]
      rwa [hwork]
    · obtain ⟨t', hfuture', hdoomed'⟩ : ∃ t', (s.server.work t archive).archiveFuture = some t' ∧ t'.Doomed :=
        doomed_work hfuture hdoomed
      exact hstarting.thread_step hfuture' loop_work (.inr hdoomed')

theorem Answered.step {reply : Option Failure} (h : s.Answered reply) (hb : ∀ e, b ≠ .unread e) :
    (s.step maxArchiveQueueLength maxArchiveBatchSize serverMaxQueueSize b).Phase := by
  have hanswered := h
  obtain ⟨hclient, hc, hfuture, hloop, hdata, hcontrol, hreplies, hflushed⟩ := h
  have hkeep := Phase.answered reply hanswered
  -- The call of `flush` ends.
  have hends (d : ArchiveClient α) (hd : d.Closed) (hidle : d.caller = .idle) (hdata : d.data = []) (hcontrol : d.control = []) :
      ({ s with client := d, replies := [], enqueued := [], before := s.server.fdb } : ArchiveSystem α).Phase := by
    rcases hloop with hloop | hloop
    · exact .quiet ⟨hd, hfuture, hloop, hdata, rfl, rfl, rfl, .inl ⟨hidle, hcontrol⟩⟩
    · exact .stopped ⟨hd, .inl hidle, hloop, by simp, fun _ => rfl⟩
  cases b with
  | client a =>
    obtain ⟨lastID, hlast⟩ := client_waiting (s := s) (a := a) hclient (.inl hc)
    rw [hlast]
    exact .answered reply ⟨hclient, hc, hfuture, hloop, hdata, hcontrol, hreplies, hflushed⟩
  | reply =>
    cases reply with
    | none =>
      simp only [ArchiveSystem.step, hreplies, onClient, ArchiveClient.step, hc, ArchiveClient.ends, settle]
      exact hends _ hclient rfl hdata hcontrol
    | some e =>
      simp only [ArchiveSystem.step, hreplies]
      rw [refuse_flushing (s := { s with replies := [] }) hc]
      exact hends _ hclient rfl hdata hcontrol
  | unsent part e => rwa [unsent_none hcontrol]
  | hangup e =>
    rcases hloop with hreading | hstopped
    · rwa [hangup_reading (by simp [hreading])]
    · simp only [ArchiveSystem.step, hstopped]
      rw [refuse_flushing (s := { s with replies := [] }) hc]
      exact hends _ hclient rfl hdata hcontrol
  | unread e => exact absurd rfl (hb e)
  | control acknowledge => rwa [control_none hcontrol]
  | get flush acknowledge => rwa [get_between hloop]
  | stop => exact .answered reply ⟨hclient, hc, hfuture, .inr rfl, hdata, hcontrol, hreplies, hflushed⟩
  | read => simpa only [ArchiveSystem.step, hfuture, onThread_none hfuture] using hkeep
  | broken e => simpa only [ArchiveSystem.step, onThread_none hfuture] using hkeep
  | work archive => simpa only [ArchiveSystem.step, hfuture] using hkeep

/-- A request that is refused leaves no session behind a server that has stopped. -/
theorem Stopped.refused {e : Failure} (h : s.Stopped) : (s.refuse maxArchiveQueueLength maxArchiveBatchSize e).Phase := by
  obtain ⟨hclient, hcaller, hloop, hreplies, henqueued⟩ := h
  rcases hcaller with hc | ⟨id, field, hc⟩ | hc
  · rw [refuse_same (.inl hc)]
    exact .stopped ⟨hclient, .inl hc, hloop, hreplies, henqueued⟩
  · rw [refuse_requesting hc]
    exact .stopped ⟨hclient, .inl rfl, hloop, hreplies, fun _ => henqueued (by simp [hc])⟩
  · rw [refuse_flushing hc]
    exact .stopped ⟨hclient, .inl rfl, hloop, hreplies, fun _ => rfl⟩

theorem stopped_client (h : s.Stopped) :
    (s.step maxArchiveQueueLength maxArchiveBatchSize serverMaxQueueSize (.client a)).Phase := by
  obtain ⟨hclient, hcaller, hloop, hreplies, henqueued⟩ := h
  have hhow := hcaller
  have hwaiting : (s.client.caller = .flushing ∨ ∃ id field, s.client.caller = .requesting id field) →
      (s.step maxArchiveQueueLength maxArchiveBatchSize serverMaxQueueSize (.client a)).Phase := by
    intro hc
    obtain ⟨lastID, hlast⟩ := client_waiting (s := s) (a := a) hclient hc
    rw [hlast]
    exact .stopped ⟨hclient, hcaller, hloop, hreplies, henqueued⟩
  rcases hhow with hc | hc | hc
  · obtain ⟨d, hd, -, hdc, hstep⟩ := client_idle (s := s) (a := a) hclient hc
    have hdcaller : d.caller = .idle ∨ (∃ id field, d.caller = .requesting id field) ∨ d.caller = .flushing := by
      rcases hdc with ⟨hd, -⟩ | ⟨id, field, hd, -⟩
      · exact .inl hd
      · exact .inr (.inl ⟨id, field, hd⟩)
    rcases hstep with hstep | ⟨-, hstep⟩
    · rw [hstep]
      exact .stopped ⟨hd, hdcaller, hloop, hreplies, fun _ => henqueued (by simp [hc])⟩
    · rw [hstep]
      exact .stopped ⟨hd, hdcaller, hloop, hreplies, fun _ => rfl⟩
  · exact hwaiting (.inr hc)
  · exact hwaiting (.inl hc)

theorem Stopped.step (h : s.Stopped) (hb : ∀ e, b ≠ .unread e) :
    (s.step maxArchiveQueueLength maxArchiveBatchSize serverMaxQueueSize b).Phase := by
  have hstopped := h
  obtain ⟨hclient, hcaller, hloop, hreplies, henqueued⟩ := h
  have hkeep := Phase.stopped hstopped
  have hrefused : ∀ (e : Failure) (replies : List (Option Failure)), none ∉ replies →
      (refuse maxArchiveQueueLength maxArchiveBatchSize { s with replies } e).Phase :=
    fun e replies hnone => Stopped.refused ⟨hclient, hcaller, hloop, hnone, henqueued⟩
  cases b with
  | client a => exact stopped_client hstopped
  | reply =>
    cases hr : s.replies with
    | nil => simpa only [ArchiveSystem.step, hr] using hkeep
    | cons r replies =>
      simp only [hr, List.mem_cons, not_or] at hreplies
      obtain ⟨e, rfl⟩ := Option.ne_none_iff_exists'.mp (Ne.symm hreplies.1)
      simp only [ArchiveSystem.step, hr]
      exact hrefused e replies hreplies.2
  | unsent part e =>
    have hstop : (s.unsend part).server.loop = .stopped := by simp [unsend, hloop]
    have hsent : ((s.unsend part).refuse maxArchiveQueueLength maxArchiveBatchSize e).Phase :=
      Stopped.refused ⟨hclient, hcaller, hstop, hreplies, henqueued⟩
    simp only [ArchiveSystem.step]
    split
    · exact hsent
    · exact hsent
    · exact hkeep
  | hangup e =>
    simp only [ArchiveSystem.step, hloop]
    exact hrefused e [] (by simp)
  | unread e => exact absurd rfl (hb e)
  | control acknowledge => simpa only [ArchiveSystem.step, hloop] using hkeep
  | get flush acknowledge => rwa [get_between (.inr hloop)]
  | stop => exact stopped_of hclient hcaller hreplies henqueued
  | read =>
    simp only [ArchiveSystem.step]
    (repeat' split) <;> exact .stopped ⟨hclient, hcaller, hloop, hreplies, henqueued⟩
  | broken e => exact .stopped ⟨hclient, hcaller, hloop, hreplies, henqueued⟩
  | work archive =>
    cases hfuture : s.server.archiveFuture with
    | none => simpa only [ArchiveSystem.step, hfuture] using hkeep
    | some t =>
      simp only [ArchiveSystem.step, hfuture]
      exact .stopped ⟨hclient, hcaller, loop_work.trans hloop, hreplies, henqueued⟩

theorem Orphaned.step (h : s.Orphaned) (hb : ∀ e, b ≠ .unread e) :
    (s.step maxArchiveQueueLength maxArchiveBatchSize serverMaxQueueSize b).Phase := by
  have horphaned := h
  obtain ⟨hclient, hfuture, hloop, henqueued, hcaller⟩ := h
  have hkeep := Phase.orphaned horphaned
  have hnone : none ∉ s.replies := by
    rcases hcaller with ⟨-, -, hreplies⟩ | ⟨id, field, -, ⟨-, hreplies⟩ | ⟨-, e, hreplies⟩⟩ <;> simp [hreplies]
  cases b with
  | client a =>
    rcases hcaller with ⟨hc, hcontrol, hreplies⟩ | ⟨id, field, hc, hanswer⟩
    · obtain ⟨d, hd, -, hdc, hstep⟩ := client_idle (s := s) (a := a) hclient hc
      have hdcaller : d.caller = .idle ∧ d.control = [] ∧ s.replies = [] ∨
          ∃ id field, d.caller = .requesting id field ∧
            (d.control = [.archive id] ∧ s.replies = [] ∨ d.control = [] ∧ ∃ e, s.replies = [some e]) := by
        rcases hdc with ⟨hidle, hdcontrol⟩ | ⟨id, field, hrequesting, hdcontrol⟩
        · exact .inl ⟨hidle, hdcontrol.trans hcontrol, hreplies⟩
        · rw [hcontrol, List.nil_append] at hdcontrol
          exact .inr ⟨id, field, hrequesting, .inl ⟨hdcontrol, hreplies⟩⟩
      rcases hstep with hstep | ⟨-, hstep⟩
      · rw [hstep]
        exact .orphaned ⟨hd, hfuture, hloop, henqueued, hdcaller⟩
      · rw [hstep]
        exact .orphaned ⟨hd, hfuture, hloop, rfl, hdcaller⟩
    · obtain ⟨lastID, hlast⟩ := client_waiting (s := s) (a := a) hclient (.inr ⟨id, field, hc⟩)
      rw [hlast]
      exact .orphaned ⟨hclient, hfuture, hloop, henqueued, .inr ⟨id, field, hc, hanswer⟩⟩
  | reply =>
    rcases hcaller with ⟨-, -, hreplies⟩ | ⟨id, field, hc, ⟨-, hreplies⟩ | ⟨hcontrol, e, hreplies⟩⟩
    · simpa only [ArchiveSystem.step, hreplies] using hkeep
    · simpa only [ArchiveSystem.step, hreplies] using hkeep
    · simp only [ArchiveSystem.step, hreplies]
      rw [refuse_requesting (s := { s with replies := [] }) hc]
      exact .orphaned ⟨hclient, hfuture, hloop, henqueued, .inl ⟨rfl, hcontrol, rfl⟩⟩
  | unsent part e =>
    rcases hcaller with ⟨-, hcontrol, -⟩ | ⟨id, field, hc, ⟨hcontrol, hreplies⟩ | ⟨hcontrol, -⟩⟩
    · rwa [unsent_none hcontrol]
    · simp only [ArchiveSystem.step, hc, hcontrol]
      rw [refuse_requesting (s := s.unsend part) hc]
      cases part with
      | true => exact .stopped ⟨hclient, .inl rfl, rfl, hnone, fun _ => henqueued⟩
      | false => exact .orphaned ⟨hclient, hfuture, hloop, henqueued, .inl ⟨rfl, rfl, hreplies⟩⟩
    · rwa [unsent_none hcontrol]
  | hangup e => rwa [hangup_reading (by simp [hloop])]
  | unread e => exact absurd rfl (hb e)
  | control acknowledge =>
    rcases hcaller with ⟨-, hcontrol, -⟩ | ⟨id, field, hc, ⟨hcontrol, hreplies⟩ | ⟨hcontrol, -⟩⟩
    · rwa [control_none hcontrol]
    · simp only [ArchiveSystem.step, hloop, hcontrol, ArchiveServer.control, if_pos hfuture, onServer, hreplies]
      exact .stopped ⟨hclient, .inr (.inl ⟨id, field, hc⟩), rfl, by simp, fun _ => henqueued⟩
    · rwa [control_none hcontrol]
  | get flush acknowledge => rwa [get_between (.inl hloop)]
  | stop =>
    apply stopped_of hclient ?_ hnone fun _ => henqueued
    exact hcaller.imp And.left fun ⟨id, field, hc, _⟩ => .inl ⟨id, field, hc⟩
  | read =>
    obtain ⟨t, hfuture⟩ := Option.isSome_iff_exists.mp hfuture
    simp only [ArchiveSystem.step, hfuture, onThread]
    (repeat' split) <;> exact .orphaned ⟨hclient, rfl, hloop, henqueued, hcaller⟩
  | broken e =>
    obtain ⟨t, hfuture⟩ := Option.isSome_iff_exists.mp hfuture
    simp only [ArchiveSystem.step, hfuture, onThread]
    exact .orphaned ⟨hclient, rfl, hloop, henqueued, hcaller⟩
  | work archive =>
    obtain ⟨t, hfuture⟩ := Option.isSome_iff_exists.mp hfuture
    simp only [ArchiveSystem.step, hfuture]
    exact .orphaned ⟨hclient, isSome_work hfuture, loop_work.trans hloop, henqueued, hcaller⟩

theorem Archives.congr {s' : ArchiveSystem α} {queued : List α} (h : s.Archives t thread queued)
    (hfdb : s'.server.fdb = s.server.fdb) (hbefore : s'.before = s.before) (henqueued : s'.enqueued = s.enqueued)
    (hdata : s'.client.data = s.client.data) : s'.Archives t thread queued := by
  rcases h with hdoomed | ⟨archived, rest, messages, h⟩
  · exact .inl hdoomed
  · exact .inr ⟨archived, rest, messages, by rw [hfdb, hbefore, h.fdb], h.worker, hdata.trans h.data, h.order.trans henqueued.symm,
      h.count, h.exception, h.closed, h.finished, h.joined, h.emptied⟩

/-- The reader of the server takes a message, waits, or waits for the worker. -/
theorem archives_read (maxArchiveQueueLength maxArchiveBatchSize serverMaxQueueSize : Nat) {queued : List α}
    (hfuture : s.server.archiveFuture = some t) (h : s.Archives t thread queued) :
    ∃ t' data, s.step maxArchiveQueueLength maxArchiveBatchSize serverMaxQueueSize .read =
        { s with server := { s.server with archiveFuture := some t' }, client := { s.client with data } } ∧
      (s.step maxArchiveQueueLength maxArchiveBatchSize serverMaxQueueSize .read).Archives t' thread queued := by
  have hjoin : ∀ data, data = s.client.data → Archives
      { s with server := { s.server with archiveFuture := some t.join }, client := { s.client with data } } t.join thread
      queued := by
    rintro data rfl
    rcases h with hdoomed | ⟨archived, rest, messages, h⟩
    · exact .inl (doomed_join hdoomed)
    · exact .inr ⟨archived, rest, messages, flows_join h _ rfl⟩
  cases hdata : s.client.data with
  | nil =>
    have hread : s.step maxArchiveQueueLength maxArchiveBatchSize serverMaxQueueSize .read =
        { s with server := { s.server with archiveFuture := some t.join }, client := { s.client with data := [] } } := by
      simp only [step, hfuture, hdata, onThread, Option.map_some]
      rw [← hdata]
    rw [hread]
    exact ⟨t.join, [], rfl, hjoin [] hdata.symm⟩
  | cons m data =>
    by_cases hreader : t.reader = .reading
    · have hread : s.step maxArchiveQueueLength maxArchiveBatchSize serverMaxQueueSize .read =
          { s with
            server := { s.server with archiveFuture := some (t.take serverMaxQueueSize m).1 },
            client := if (t.take serverMaxQueueSize m).2 then { s.client with data } else s.client } := by
        simp only [step, hfuture, hdata, hreader]
      have hclient : (if (t.take serverMaxQueueSize m).2 then { s.client with data } else s.client) =
          { s.client with data := if (t.take serverMaxQueueSize m).2 then data else m :: data } := by
        split
        · rfl
        · rw [← hdata]
      rw [hread, hclient]
      refine ⟨_, _, rfl, ?_⟩
      rcases h with hdoomed | ⟨archived, rest, messages, h⟩
      · exact .inl (doomed_take hdoomed hreader)
      · obtain ⟨messages', h'⟩ := flows_take h hreader hdata
          { s.client with data := if (t.take serverMaxQueueSize m).2 then data else m :: data } rfl
          { s.server with archiveFuture := some (t.take serverMaxQueueSize m).1 } rfl
        exact .inr ⟨archived, rest, messages', h'⟩
    · have hread : s.step maxArchiveQueueLength maxArchiveBatchSize serverMaxQueueSize .read =
          { s with server := { s.server with archiveFuture := some t.join }, client := { s.client with data := m :: data } } := by
        simp only [step, hfuture, hdata, onThread, Option.map_some]
        rw [← hdata]
      rw [hread]
      exact ⟨t.join, _, rfl, hjoin _ hdata.symm⟩

/-- The reader of the server fails, if it still reads. -/
theorem archives_broken {queued : List α} {e : Failure} (h : s.Archives t thread queued) :
    Archives { s with server := { s.server with archiveFuture := some (t.broken e) } } (t.broken e) thread queued := by
  rcases broken_same_or_doomed (t := t) with hsame | hdoomed
  · rw [hsame]
    exact h.congr rfl rfl rfl rfl
  · exact .inl hdoomed

/-- All that was enqueued is archived once the server's thread has returned, and as much was counted. -/
theorem Archives.returned {m : Nat} (h : s.Archives t (.returned n) []) (hreader : t.reader = .returned m) :
    s.server.fdb = s.before ++ s.enqueued.map .archived ∧ m = n ∧ s.client.data = [] := by
  rcases h with (⟨-, hjoined⟩ | ⟨e, hthrow⟩ | ⟨e, hthrow⟩) | ⟨archived, rest, messages, h⟩
  · exact absurd hreader (hjoined m)
  · rw [hreader] at hthrow
    cases hthrow
  · rw [hreader] at hthrow
    cases hthrow
  · have hworker := h.joined m hreader
    have hhas := h.worker
    simp only [hworker, ServerWorker.Has] at hhas
    obtain ⟨rfl, rfl⟩ := hhas
    have hitems := (h.finished _ hworker).1
    have hmessages : messages = [] := by
      rcases h.closed with ⟨hreading, -⟩ | ⟨-, -, hmessages, -⟩
      · rw [hreader] at hreading
        cases hreading
      · exact hmessages
    subst hmessages
    have horder := h.order
    have hcount := h.count
    have hdata := h.data
    simp only [hitems, List.flatten_nil, ArchiveThread.elements, List.append_nil] at horder
    simp only [hitems, List.flatten_nil, List.length_nil, Nat.add_zero, ArchiveThread.Counts] at hcount
    refine ⟨horder ▸ h.fdb, hcount, ?_⟩
    simpa [ServerThread.marker, hreader] using hdata

theorem Flushing.step (h : s.Flushing t id n) (hb : ∀ e, b ≠ .unread e) :
    (s.step maxArchiveQueueLength maxArchiveBatchSize serverMaxQueueSize b).Phase := by
  have hflushing := h
  obtain ⟨hclient, hc, hfuture, hreplies, hrequest, harchives⟩ := h
  have hkeep := Phase.flushing t id n hflushing
  have hflush : s.client.caller = .idle ∨ (∃ id field, s.client.caller = .requesting id field) ∨
      s.client.caller = .flushing := .inr (.inr hc)
  cases b with
  | client a =>
    obtain ⟨lastID, hlast⟩ := client_waiting (s := s) (a := a) hclient (.inl hc)
    rw [hlast]
    exact .flushing t id n ⟨hclient, hc, hfuture, hreplies, hrequest, harchives.congr rfl rfl rfl rfl⟩
  | reply => simpa only [ArchiveSystem.step, hreplies] using hkeep
  | unsent part e =>
    rcases hrequest with ⟨hcontrol, hloop⟩ | ⟨hcontrol, -⟩
    · simp only [ArchiveSystem.step, hc, hcontrol]
      rw [refuse_flushing (s := s.unsend part) hc]
      cases part with
      | true => exact .stopped ⟨hclient, .inl rfl, rfl, by simp [unsend, hreplies], fun _ => rfl⟩
      | false => exact .orphaned ⟨hclient, by simp [unsend, hfuture], hloop, rfl, .inl ⟨rfl, rfl, hreplies⟩⟩
    · rwa [unsent_none hcontrol]
  | hangup e =>
    rcases hrequest with ⟨-, hloop⟩ | ⟨-, hloop⟩ <;> rwa [hangup_reading (by simp [hloop])]
  | unread e => exact absurd rfl (hb e)
  | control acknowledge =>
    rcases hrequest with ⟨hcontrol, hloop⟩ | ⟨hcontrol, hloop⟩
    · simp only [ArchiveSystem.step, hloop, hcontrol, ArchiveServer.control, hfuture, Option.isSome_some, or_true, if_true,
        onServer, hreplies, List.map_nil, List.nil_append]
      exact .flushing t id n ⟨hclient, hc, rfl, rfl, .inr ⟨rfl, rfl⟩, harchives.congr rfl rfl rfl rfl⟩
    · rwa [control_none hcontrol]
  | get flush acknowledge =>
    rcases hrequest with ⟨hcontrol, hloop⟩ | ⟨hcontrol, hloop⟩
    · rwa [get_between (.inl hloop)]
    · simp only [ArchiveSystem.step, onServer, ArchiveServer.get, hloop, hfuture, hreplies, List.nil_append]
      cases hreader : t.reader with
      | returned m =>
        obtain ⟨hfdb, rfl, hdata⟩ := harchives.returned hreader
        cases flush with
        | none =>
          simp only [if_true]
          exact .answered acknowledge ⟨hclient, hc, rfl, .inl rfl, hdata, hcontrol, by simp, by simp [Flushed, hfdb]⟩
        | some e =>
          simp only [if_true]
          exact .stopped ⟨hclient, hflush, rfl, by simp, fun hne => absurd hc hne⟩
      | thrown e => exact .stopped ⟨hclient, hflush, rfl, by simp, fun hne => absurd hc hne⟩
      | reading | closing | throwing e =>
        exact .flushing t id n ⟨hclient, hc, hfuture, rfl, .inr ⟨hcontrol, hloop⟩, harchives.congr rfl rfl rfl rfl⟩
  | stop => exact stopped_of hclient hflush (by simp [hreplies]) fun hne => absurd hc hne
  | read =>
    obtain ⟨t', data, hread, harchives'⟩ := archives_read maxArchiveQueueLength maxArchiveBatchSize serverMaxQueueSize
      hfuture harchives
    rw [hread] at harchives' ⊢
    exact .flushing t' id n ⟨hclient, hc, rfl, hreplies, hrequest, harchives'⟩
  | broken e =>
    simp only [ArchiveSystem.step]
    rw [onThread_some hfuture]
    exact .flushing (t.broken e) id n ⟨hclient, hc, rfl, hreplies, hrequest, archives_broken harchives⟩
  | work archive =>
    obtain ⟨t', hfuture', harchives'⟩ : ∃ t', (s.server.work t archive).archiveFuture = some t' ∧ _ :=
      archives_work hfuture harchives
    simp only [ArchiveSystem.step, hfuture]
    refine .flushing t' id n ⟨hclient, hc, hfuture', hreplies, ?_, harchives'⟩
    simpa only [loop_work] using hrequest

theorem settle_same (hc : c.caller = s.client.caller) : s.settle c false = { s with client := c } := by
  cases hs : s.client.caller with
  | idle => exact settle_idle hs
  | requesting _ _ | emplacing _ _ | getting | flushing => exact settle_running (by simp [hc, hs])

theorem control_thread {write : DataWrite} : (c.thread maxArchiveBatchSize write).control = c.control := by
  unfold ArchiveClient.thread
  split <;> (repeat' split) <;> rfl

/-- An archive thread at work on a session that is open, or finished for `flush`. -/
theorem session_thread (h : s.Session t thread) {write : DataWrite} :
    (s.settle (s.client.thread maxArchiveBatchSize write) false).Phase := by
  obtain ⟨hclient, hrunning, hfails, hfuture, hloop, hcontrol, hreplies, hcaller, harchives⟩ := h
  have hsame : (s.client.thread maxArchiveBatchSize write).caller = s.client.caller ∧ _ := ArchiveClient.thread_caller
  rw [settle_same hsame.1]
  rcases hclient with hopen | hfinished
  · have hnext : (s.client.thread maxArchiveBatchSize write).Open ∨ _ := ArchiveClient.open_thread hopen
    obtain ⟨thread', hthread', hwork⟩ : ∃ thread', (s.client.thread maxArchiveBatchSize write).archiveFuture = some thread' ∧
        _ := archives_thread hopen hrunning hfails harchives
    rcases hwork with hfails' | ⟨hfails', harchives'⟩
    · have hopen' : (s.client.thread maxArchiveBatchSize write).Open := by
        rcases hnext with hopen' | ⟨-, ⟨n, hn⟩, -⟩
        · exact hopen'
        · rw [hthread'] at hn
          obtain rfl := Option.some.inj hn
          rcases hfails' with hhung | ⟨e, he⟩
          · cases hhung
          · cases he
      refine .stuck (.inl ⟨hopen', ⟨thread', hthread', hfails'⟩, ?_⟩) fun hnone => by simp [hthread'] at hnone
      rw [hsame.1]
      rcases hcaller with ⟨hidle | hemplacing, -⟩ | hgetting
      · exact .inl hidle
      · exact .inr (.inl hemplacing)
      · exact .inr (.inr hgetting)
    · refine .session t thread' ⟨hnext.imp_right And.right, hthread', hfails', hfuture, hloop, control_thread.trans hcontrol,
        hreplies, ?_, harchives'⟩
      rw [hsame.1]
      rcases hcaller with ⟨hidle, -⟩ | hgetting
      · rcases hnext with hopen' | ⟨hgetting, -⟩
        · exact .inl ⟨hidle, hopen'⟩
        · exact .inr hgetting
      · exact .inr hgetting
  · have hself : s.client.thread maxArchiveBatchSize write = s.client := by
      obtain ⟨⟨n, hn⟩, -⟩ := hfinished
      simp only [ArchiveClient.thread, hn]
    rw [hself]
    exact .session t thread ⟨.inr hfinished, hrunning, hfails, hfuture, hloop, hcontrol, hreplies, hcaller, harchives⟩

theorem Session.opened (h : s.Session t thread) (hne : s.client.caller ≠ .getting) : s.client.Open :=
  (h.caller.resolve_right hne).2

/-- `emplace` of an open session puts the field behind all others. -/
theorem session_emplace {waiting : Bool} (h : s.Session t thread) (hc : s.client.caller = .emplacing field waiting) :
    (s.settle (s.client.emplace maxArchiveQueueLength field) false).Phase := by
  have hsession := h
  have hne : s.client.caller ≠ .getting := by simp [hc]
  have hopen := h.opened hne
  obtain ⟨hclient, hrunning, hfails, hfuture, hloop, hcontrol, hreplies, hcaller, harchives⟩ := h
  have hends := hopen
  obtain ⟨thread', queue, hthread, hid, hqueue, hreturned, hexceptions, hdone, hclosed⟩ := hopen
  obtain rfl : thread = thread' := Option.some.inj (hrunning.symm.trans hthread)
  cases hexception : queue.exception with
  | some e =>
    have hidle : (s.client.ends (.threw e)).Open := hends.congr hne rfl rfl rfl
    simp only [ArchiveClient.emplace, hqueue, hexception, settle, hc]
    exact .session t thread ⟨.inl hidle, hrunning, hfails, hfuture, hloop, hcontrol, hreplies, .inl ⟨.inl rfl, hidle⟩,
      harchives.congr rfl rfl rfl rfl⟩
  | none =>
    by_cases hroom : queue.items.length < maxArchiveQueueLength
    · have hidle : ({ s.client with archiveQueue := some (queue.emplace field) }.ends .returned).Open :=
        ⟨thread, queue.emplace field, hrunning, hid, rfl, hreturned, hexceptions, hdone, fun h => absurd (hclosed h) hne⟩
      simp only [ArchiveClient.emplace, hqueue, hexception, if_pos hroom, settle, hc]
      refine .session t thread ⟨.inl hidle, hrunning, hfails, hfuture, hloop, hcontrol, hreplies, .inl ⟨.inl rfl, hidle⟩, ?_⟩
      rcases harchives with hdoomed | ⟨archived, rest, messages, h⟩
      · exact .inl hdoomed
      · refine .inr ⟨archived, rest, messages, h.fdb, h.worker, h.data, ?_, h.count, h.exception, h.closed, h.finished, h.joined,
          fun id n hthe => absurd (hclosed (hdone ⟨id, n, hthe⟩)) hne⟩
        have horder := h.order
        simp only [items, hqueue, Option.map_some, Option.getD_some] at horder
        simp [items, ArchiveClient.ends, Queue.emplace, ← horder]
    · have hwaits : ({ s.client with caller := .emplacing field true } : ArchiveClient α).Open :=
        hends.congr hne rfl rfl rfl
      simp only [ArchiveClient.emplace, hqueue, hexception, if_neg hroom]
      rw [settle_running (by simp)]
      rw [← hqueue]
      exact .session t thread ⟨.inl hwaits, hrunning, hfails, hfuture, hloop, hcontrol, hreplies,
        .inl ⟨.inr ⟨field, true, rfl⟩, hwaits⟩, harchives.congr rfl rfl rfl rfl⟩

theorem session_interrupt {e : Failure} (h : s.Session t thread) : Phase
    { s with client := { s.client with archiveQueue := s.client.archiveQueue.map (·.interrupt e) } } := by
  obtain ⟨hclient, hrunning, hfails, hfuture, hloop, hcontrol, hreplies, hcaller, harchives⟩ := h
  have hitems : items { s.client with archiveQueue := s.client.archiveQueue.map (·.interrupt e) } = items s.client := by
    unfold items
    cases s.client.archiveQueue <;> rfl
  have hopen : s.client.Open →
      ({ s.client with archiveQueue := s.client.archiveQueue.map (·.interrupt e) } : ArchiveClient α).Open := by
    rintro ⟨thread, queue, hthread, hid, hqueue, hreturned, hexceptions, hdone, hclosed⟩
    exact ⟨thread, queue.interrupt e, hthread, hid, by simp [hqueue], hreturned, fun _ _ => by simp [Queue.interrupt], hdone,
      hclosed⟩
  refine .session t thread ⟨hclient.imp hopen ?_, hrunning, hfails, hfuture, hloop, hcontrol, hreplies,
    hcaller.imp_left (And.imp_right hopen), ?_⟩
  · rintro ⟨hn, hid, hqueue⟩
    exact ⟨hn, hid, by simp [hqueue]⟩
  · have hsame : Archives { s with client := { s.client with archiveQueue := s.client.archiveQueue.map (·.interrupt e) } } t
        thread (items s.client) := harchives.congr rfl rfl rfl rfl
    rwa [← hitems] at hsame

theorem session_archive {field : α} {connect : Option Failure} (h : s.Session t thread) (hc : s.client.caller = .idle) :
    (s.step maxArchiveQueueLength maxArchiveBatchSize serverMaxQueueSize (.client (.archive field connect))).Phase := by
  have hne : s.client.caller ≠ .getting := by simp [hc]
  have hopen := h.opened hne
  obtain ⟨hclient, hrunning, hfails, hfuture, hloop, hcontrol, hreplies, hcaller, harchives⟩ := h
  cases connect with
  | some e =>
    have hends : (s.client.ends (.threw e)).Open := hopen.congr hne rfl rfl rfl
    simp only [step, onClient, ArchiveClient.step, hc]
    rw [settle_idle hc]
    exact .session t thread ⟨.inl hends, hrunning, hfails, hfuture, hloop, hcontrol, hreplies, .inl ⟨.inl rfl, hends⟩,
      harchives.congr rfl rfl rfl rfl⟩
  | none =>
    obtain ⟨-, queue, -, hid, hqueue, -⟩ := id hopen
    have hready : ({ s.client with archiveFuture := some thread, caller := .emplacing field false } : ArchiveClient α).Open :=
      hopen.congr hne hrunning.symm rfl rfl
    simp only [step, onClient, ArchiveClient.step, hc, ArchiveClient.archive, hrunning, ArchiveClient.ready,
      Option.isNone_some, Bool.false_eq_true, if_false, if_neg hid]
    rw [settle_idle hc]
    exact .session t thread ⟨.inl hready, rfl, hfails, hfuture, hloop, hcontrol, hreplies,
      .inl ⟨.inr ⟨field, false, rfl⟩, hready⟩, harchives.congr rfl rfl rfl rfl⟩

/-- `flush` closes the queue of the session. -/
theorem session_flush (h : s.Session t thread) (hc : s.client.caller = .idle) :
    (s.step maxArchiveQueueLength maxArchiveBatchSize serverMaxQueueSize (.client .flush)).Phase := by
  obtain ⟨thread', queue, hthread, hid, hqueue, hreturned, hexceptions, hdone, hclosed⟩ := h.opened (by simp [hc])
  obtain ⟨hclient, hrunning, hfails, hfuture, hloop, hcontrol, hreplies, hcaller, harchives⟩ := h
  obtain rfl : thread = thread' := Option.some.inj (hrunning.symm.trans hthread)
  simp only [step, onClient, ArchiveClient.step, hc, ArchiveClient.flush, hrunning, if_neg hid, hqueue]
  rw [settle_running (by simp)]
  refine .session t thread ⟨.inl ⟨thread, queue.close, rfl, hid, rfl, hreturned, hexceptions, fun _ => rfl, fun _ => rfl⟩,
    rfl, hfails, hfuture, hloop, hcontrol, hreplies, .inr rfl, ?_⟩
  have hitems : items s.client = queue.items := by simp [items, hqueue]
  rw [hitems] at harchives
  exact harchives.congr rfl rfl rfl rfl

/-- When the archive thread has returned, its request for a flush is sent. -/
theorem session_get (h : s.Session t thread) (hc : s.client.caller = .getting) :
    (s.step maxArchiveQueueLength maxArchiveBatchSize serverMaxQueueSize (.client .get)).Phase := by
  have hkeep : (s.settle s.client false).Phase := by
    rw [settle_same rfl]
    exact .session t thread h
  obtain ⟨hclient, hrunning, hfails, hfuture, hloop, hcontrol, hreplies, hcaller, harchives⟩ := h
  simp only [step, onClient, ArchiveClient.step, hc, ArchiveClient.get, hrunning]
  cases thread with
  | thrown e => exact absurd (.inr ⟨e, rfl⟩) hfails
  | start _ | popping _ _ | sending _ _ _ | done _ _ | hung => exact hkeep
  | returned n =>
    have hqueue : s.client.archiveQueue = none := by
      rcases hclient with ⟨thread, -, hthread, -, -, hreturned, -⟩ | ⟨-, -, hqueue⟩
      · exact absurd (Option.some.inj (hthread.symm.trans hrunning)) (hreturned n)
      · exact hqueue
    simp only [hqueue, Option.isSome_none, Bool.false_eq_true, if_false]
    rw [settle_running (by simp)]
    have hitems : items s.client = [] := by simp [items, hqueue]
    rw [hitems] at harchives
    rcases hloop with hloop | hloop
    · refine .flushing t (s.client.lastID + 1) n ⟨⟨rfl, rfl, rfl⟩, rfl, hfuture, hreplies, .inl ⟨?_, hloop⟩,
        harchives.congr rfl rfl rfl rfl⟩
      rw [hcontrol, List.nil_append]
    · exact .stopped ⟨⟨rfl, rfl, rfl⟩, .inr (.inr rfl), hloop, by simp [hreplies], fun hne => absurd rfl hne⟩

theorem session_client (h : s.Session t thread) :
    (s.step maxArchiveQueueLength maxArchiveBatchSize serverMaxQueueSize (.client a)).Phase := by
  have hself : (s.settle s.client false).Phase := by
    rw [settle_same rfl]
    exact .session t thread h
  cases a with
  | received | refused e => exact .session t thread h
  | thread write => exact session_thread h
  | emplace =>
    cases hc : s.client.caller with
    | emplacing field waiting => simpa only [step, onClient, ArchiveClient.step, hc] using session_emplace h hc
    | idle | requesting _ _ | getting | flushing => simpa only [step, onClient, ArchiveClient.step, hc] using hself
  | generateRequestID =>
    obtain ⟨hclient, hrunning, hfails, hfuture, hloop, hcontrol, hreplies, hcaller, harchives⟩ := h
    simp only [step, onClient, ArchiveClient.step]
    rw [settle_same (c := { s.client with lastID := s.client.lastID + 1 }) rfl]
    exact .session t thread ⟨hclient, hrunning, hfails, hfuture, hloop, hcontrol, hreplies, hcaller,
      harchives.congr rfl rfl rfl rfl⟩
  | interrupt e =>
    simp only [step, onClient, ArchiveClient.step]
    split
    · exact hself
    · rw [settle_same (c := { s.client with archiveQueue := s.client.archiveQueue.map (·.interrupt e) }) rfl]
      exact session_interrupt h
  | archive field connect =>
    cases hc : s.client.caller with
    | idle => exact session_archive h hc
    | requesting _ _ | emplacing _ _ | getting | flushing => simpa only [step, onClient, ArchiveClient.step, hc] using hself
  | flush =>
    cases hc : s.client.caller with
    | idle => exact session_flush h hc
    | requesting _ _ | emplacing _ _ | getting | flushing =>
      simp only [step, onClient, ArchiveClient.step, hc]
      rw [settle_running (by simp [hc])]
      exact .session t thread h
  | get =>
    cases hc : s.client.caller with
    | getting => exact session_get h hc
    | idle | requesting _ _ | emplacing _ _ | flushing => simpa only [step, onClient, ArchiveClient.step, hc] using hself

theorem Session.step (h : s.Session t thread) (hb : ∀ e, b ≠ .unread e) :
    (s.step maxArchiveQueueLength maxArchiveBatchSize serverMaxQueueSize b).Phase := by
  have hsession := h
  obtain ⟨hclient, hrunning, hfails, hfuture, hloop, hcontrol, hreplies, hcaller, harchives⟩ := h
  have hkeep := Phase.session t thread hsession
  cases b with
  | client a => exact session_client hsession
  | reply => simpa only [ArchiveSystem.step, hreplies] using hkeep
  | unsent part e => rwa [unsent_none hcontrol]
  | hangup e =>
    rcases hloop with hreading | hstopped
    · rwa [hangup_reading (by simp [hreading])]
    · simp only [ArchiveSystem.step, hstopped]
      rw [refuse_same (s := { s with replies := [] })]
      · exact .session t thread ⟨hclient, hrunning, hfails, hfuture, .inr hstopped, hcontrol, rfl, hcaller,
          harchives.congr rfl rfl rfl rfl⟩
      · rcases hcaller with ⟨hidle | hemplacing, -⟩ | hgetting
        · exact .inl hidle
        · exact .inr (.inl hemplacing)
        · exact .inr (.inr hgetting)
  | unread e => exact absurd rfl (hb e)
  | control acknowledge => rwa [control_none hcontrol]
  | get flush acknowledge => rwa [get_between hloop]
  | stop =>
    exact .session t thread ⟨hclient, hrunning, hfails, hfuture, .inr rfl, hcontrol, hreplies, hcaller,
      harchives.congr rfl rfl rfl rfl⟩
  | read =>
    obtain ⟨t', data, hread, harchives'⟩ := archives_read maxArchiveQueueLength maxArchiveBatchSize serverMaxQueueSize
      hfuture harchives
    rw [hread] at harchives' ⊢
    exact .session t' thread ⟨hclient, hrunning, hfails, rfl, hloop, hcontrol, hreplies, hcaller, harchives'⟩
  | broken e =>
    simp only [ArchiveSystem.step]
    rw [onThread_some hfuture]
    exact .session (t.broken e) thread ⟨hclient, hrunning, hfails, rfl, hloop, hcontrol, hreplies, hcaller,
      archives_broken harchives⟩
  | work archive =>
    obtain ⟨t', hfuture', harchives'⟩ : ∃ t', (s.server.work t archive).archiveFuture = some t' ∧ _ :=
      archives_work hfuture harchives
    simp only [ArchiveSystem.step, hfuture]
    exact .session t' thread ⟨hclient, hrunning, hfails, hfuture', hloop.imp loop_work.trans loop_work.trans, hcontrol,
      hreplies, hcaller, harchives'⟩

/-- A client that is stuck stays so, and what it had enqueued is given up with its session. -/
theorem stuck_client {flush : Bool} (h : Stuck s.client) (henqueued : s.client.archiveFuture = none → s.enqueued = []) :
    (s.onClient maxArchiveQueueLength maxArchiveBatchSize a flush).Phase := by
  obtain ⟨hstuck, hgiven⟩ : Stuck (s.client.step maxArchiveQueueLength maxArchiveBatchSize a) ∧ _ := stuck_step h
  refine .stuck (by rwa [onClient, settle_client]) fun hnone => ?_
  rw [onClient, settle_client] at hnone
  have hidle : (s.client.step maxArchiveQueueLength maxArchiveBatchSize a).caller = .idle := by
    rcases hstuck with ⟨-, ⟨thread, he, -⟩, -⟩ | ⟨-, -, hidle⟩ | ⟨hsome, -⟩
    · simp [hnone] at he
    · exact hidle
    · rcases hsome with ⟨id, he⟩ | ⟨e, he⟩ <;> simp [hnone] at he
  by_cases hc : s.client.caller = .getting
  · simp only [onClient, settle, hc, hidle]
  · have hfuture := (hgiven.resolve_left hc) hnone
    have hcaller : s.client.caller = .idle := by
      rcases h with ⟨-, ⟨thread, he, -⟩, -⟩ | ⟨-, -, hcaller⟩ | ⟨hsome, -⟩
      · simp [hfuture] at he
      · exact hcaller
      · rcases hsome with ⟨id, he⟩ | ⟨e, he⟩ <;> simp [hfuture] at he
    simp only [onClient, settle, hcaller, hidle]
    split
    · rfl
    · exact henqueued hfuture

theorem stuck_phase (h : Stuck s.client) (henqueued : s.client.archiveFuture = none → s.enqueued = [])
    (hb : ∀ e, b ≠ .unread e) : (s.step maxArchiveQueueLength maxArchiveBatchSize serverMaxQueueSize b).Phase := by
  have hkeep := Phase.stuck h henqueued
  cases b with
  | client a =>
    cases a with
    | received | refused e => exact hkeep
    | _ => exact stuck_client h henqueued
  | reply =>
    simp only [step, refuse]
    split
    · exact hkeep
    · exact stuck_client h henqueued
    · exact stuck_client h henqueued
  | unsent part e =>
    have hcaller : s.client.caller = .idle ∨ (∃ field waiting, s.client.caller = .emplacing field waiting) ∨
        s.client.caller = .getting := by
      rcases h with ⟨-, -, hcaller⟩ | ⟨-, -, hidle⟩ | ⟨-, -, hidle⟩
      · exact hcaller
      · exact .inl hidle
      · exact .inl hidle
    rcases hcaller with hc | ⟨field, waiting, hc⟩ | hc <;> simpa only [step, hc] using hkeep
  | hangup e =>
    simp only [step, refuse]
    split
    · exact stuck_client h henqueued
    · exact hkeep
  | unread e => exact absurd rfl (hb e)
  | control acknowledge =>
    simp only [step]
    split
    · exact .stuck h henqueued
    · exact hkeep
  | get _ _ | stop | broken _ => exact .stuck h henqueued
  | read =>
    simp only [step]
    (repeat' split) <;> exact .stuck h henqueued
  | work archive =>
    simp only [step]
    split <;> exact .stuck h henqueued

theorem phase_step (h : s.Phase) (hb : ∀ e, b ≠ .unread e) :
    (s.step maxArchiveQueueLength maxArchiveBatchSize serverMaxQueueSize b).Phase := by
  cases h with
  | quiet h => exact h.step hb
  | starting t id field h => exact h.step hb
  | session t thread h => exact h.step hb
  | flushing t id n h => exact h.step hb
  | answered reply h => exact h.step hb
  | orphaned h => exact h.step hb
  | stuck h henqueued => exact stuck_phase h henqueued hb
  | stopped h => exact h.step hb

/-- `archiveFuture_.get()` never ends a `flush` normally. -/
theorem getting_step (hc : c.caller = .getting) (hidle : (c.step maxArchiveQueueLength maxArchiveBatchSize a).caller = .idle) :
    (c.step maxArchiveQueueLength maxArchiveBatchSize a).outcome ≠ some .returned := by
  have hself : c.caller ≠ .idle := by simp [hc]
  cases a with
  | get =>
    simp only [ArchiveClient.step, hc, ArchiveClient.get] at hidle ⊢
    split at hidle
    next numArchive hfuture =>
      split at hidle
      next hqueue => simp [hqueue, ArchiveClient.ends]
      next => cases hidle
    next e hfuture => simp [ArchiveClient.ends]
    next => exact absurd hidle hself
  | thread write =>
    simp only [ArchiveClient.step] at hidle
    rw [ArchiveClient.thread_caller.1] at hidle
    exact absurd hidle hself
  | generateRequestID => exact absurd hidle hself
  | interrupt e =>
    simp only [ArchiveClient.step, hc] at hidle
    cases hidle
  | archive _ _ | flush | received | refused _ | emplace => simp [ArchiveClient.step, hc] at hidle

theorem getting_flush (hc : s.client.caller = .getting)
    (hidle : (s.step maxArchiveQueueLength maxArchiveBatchSize serverMaxQueueSize b).client.caller = .idle) :
    (s.step maxArchiveQueueLength maxArchiveBatchSize serverMaxQueueSize b).client.outcome ≠ some .returned := by
  have hself : s.client.caller ≠ .idle := by simp [hc]
  have honClient : ∀ (s' : ArchiveSystem α) a flush, s'.client = s.client →
      (s'.onClient maxArchiveQueueLength maxArchiveBatchSize a flush).client.caller = .idle →
        (s'.onClient maxArchiveQueueLength maxArchiveBatchSize a flush).client.outcome ≠ some .returned := by
    intro s' a flush hs
    simp only [onClient, settle_client, hs]
    exact getting_step hc
  cases b with
  | client a =>
    cases a with
    | received | refused e => exact absurd hidle hself
    | _ => exact honClient s _ _ rfl hidle
  | reply =>
    simp only [step] at hidle ⊢
    split at hidle
    next => exact absurd hidle hself
    next replies hr => exact honClient { s with replies } _ _ rfl hidle
    next e replies hr => exact honClient { s with replies } _ _ rfl hidle
  | unsent part e =>
    simp only [step, hc] at hidle
    cases hidle
  | hangup e =>
    simp only [step] at hidle ⊢
    split at hidle
    next hloop => exact honClient { s with replies := [] } _ _ rfl hidle
    next => exact absurd hidle hself
  | unread e => exact honClient s _ _ rfl hidle
  | control acknowledge =>
    simp only [step] at hidle
    split at hidle <;> exact absurd hidle hself
  | get _ _ | stop | broken _ => exact absurd hidle hself
  | read =>
    simp only [step] at hidle
    (repeat' split at hidle) <;> exact absurd hidle hself
  | work archive =>
    simp only [step] at hidle
    split at hidle <;> exact absurd hidle hself

/-- A `flush` at whose request the server has failed, or not answered yet, does not return. -/
theorem flushing_step (hclient : s.client.Closed) (hc : s.client.caller = .flushing) (hreplies : none ∉ s.replies)
    (hidle : (s.step maxArchiveQueueLength maxArchiveBatchSize serverMaxQueueSize b).client.caller = .idle) :
    (s.step maxArchiveQueueLength maxArchiveBatchSize serverMaxQueueSize b).client.outcome ≠ some .returned := by
  have hself : s.client.caller ≠ .idle := by simp [hc]
  have hrefused (s' : ArchiveSystem α) (e : Failure) (hc' : s'.client.caller = .flushing) :
      (s'.refuse maxArchiveQueueLength maxArchiveBatchSize e).client.outcome ≠ some .returned := by
    rw [refuse_flushing hc']
    simp [ArchiveClient.ends]
  cases b with
  | client a =>
    obtain ⟨lastID, hlast⟩ := client_waiting (s := s) (a := a) hclient (.inl hc)
    rw [hlast] at hidle
    exact absurd hidle hself
  | reply =>
    cases hr : s.replies with
    | nil =>
      simp only [step, hr] at hidle
      exact absurd hidle hself
    | cons r replies =>
      simp only [hr, List.mem_cons, not_or] at hreplies
      obtain ⟨e, rfl⟩ := Option.ne_none_iff_exists'.mp (Ne.symm hreplies.1)
      simp only [step, hr]
      exact hrefused { s with replies } e hc
  | unsent part e =>
    simp only [step] at hidle ⊢
    split at hidle
    next hrequesting _ => exact absurd (hc.symm.trans hrequesting) (by simp)
    next => exact hrefused (s.unsend part) e hc
    next => exact absurd hidle hself
  | hangup e =>
    simp only [step] at hidle ⊢
    split at hidle
    next hloop => exact hrefused { s with replies := [] } e hc
    next => exact absurd hidle hself
  | unread e => exact hrefused s e hc
  | control acknowledge =>
    simp only [step] at hidle
    split at hidle <;> exact absurd hidle hself
  | get _ _ | stop | broken _ => exact absurd hidle hself
  | read =>
    simp only [step] at hidle
    (repeat' split at hidle) <;> exact absurd hidle hself
  | work archive =>
    simp only [step] at hidle
    split at hidle <;> exact absurd hidle hself

/-- A `flush` that returns without a request has had no session to flush. -/
theorem idle_flush (hc : c.caller = .idle)
    (hreturned : (c.step maxArchiveQueueLength maxArchiveBatchSize .flush).outcome = some .returned)
    (hidle : (c.step maxArchiveQueueLength maxArchiveBatchSize .flush).caller = .idle) : c.archiveFuture = none := by
  simp only [ArchiveClient.step, hc, ArchiveClient.flush] at hreturned hidle
  split at hreturned
  next h => exact h
  next thread h =>
    split at hreturned
    · simp [ArchiveClient.ends] at hreturned
    next hid =>
      cases hqueue : c.archiveQueue with
      | none => simp [hqueue, ArchiveClient.ends] at hreturned
      | some queue => simp [h, hid, hqueue] at hidle

/-- In each phase a `flush` that returns is one for nothing, or leaves no field behind. -/
theorem Phase.returnsFlush (h : s.Phase) (hflush : s.ReturnsFlush maxArchiveQueueLength maxArchiveBatchSize serverMaxQueueSize b) :
    s.client.archiveFuture = none ∧ s.enqueued = [] ∨ s.client.caller = .flushing ∧ s.Flushed := by
  obtain ⟨hcaller, hidle, hreturned⟩ := hflush
  rcases hcaller with hc | hc | ⟨hc, rfl⟩
  · refine .inr ⟨hc, ?_⟩
    cases h with
    | answered reply h => exact h.flushed
    | flushing t id n h =>
      exact absurd hreturned (flushing_step h.client hc (by simp [h.replies]) hidle)
    | stopped h => exact absurd hreturned (flushing_step h.client hc h.replies hidle)
    | quiet h => rcases h.caller with ⟨hc', -⟩ | ⟨id, field, hc', -⟩ <;> simp [hc] at hc'
    | starting t id field h => exact absurd (hc.symm.trans h.caller) (by simp)
    | orphaned h => rcases h.caller with ⟨hc', -⟩ | ⟨id, field, hc', -⟩ <;> simp [hc] at hc'
    | session t thread h => rcases h.caller with ⟨hc' | ⟨field, waiting, hc'⟩, -⟩ | hc' <;> simp [hc] at hc'
    | stuck h =>
      rcases h with ⟨-, -, hc' | ⟨field, waiting, hc'⟩ | hc'⟩ | ⟨-, -, hc'⟩ | ⟨-, -, hc'⟩ <;> simp [hc] at hc'
  · exact absurd hreturned (getting_flush hc hidle)
  · have hnone : s.client.archiveFuture = none := by
      simp only [step, onClient, settle_client] at hreturned hidle
      exact idle_flush hc hreturned hidle
    refine .inl ⟨hnone, ?_⟩
    cases h with
    | quiet h => exact h.enqueued
    | session t thread h => exact absurd (hnone.symm.trans h.running) (by simp)
    | orphaned h => exact h.enqueued
    | stuck h henqueued => exact henqueued hnone
    | stopped h => exact h.enqueued (by simp [hc])
    | starting t id field h => exact absurd (hc.symm.trans h.caller) (by simp)
    | flushing t id n h => exact absurd (hc.symm.trans h.caller) (by simp)
    | answered reply h => exact absurd (hc.symm.trans h.caller) (by simp)

/-- As long as the client reads the replies that come, a `flush` that returns has had no session, as nothing was
enqueued since the one before, or each field enqueued since has been archived by the FDB of the server once, in order,
before it was flushed. -/
theorem flush_exactly_once {steps : List (SystemStep α)} (h : ∀ b ∈ steps, ∀ e, b ≠ .unread e) :
    Follows.Each (fun s b => s.ReturnsFlush maxArchiveQueueLength maxArchiveBatchSize serverMaxQueueSize b →
        s.client.archiveFuture = none ∧ s.enqueued = [] ∨ s.client.caller = .flushing ∧ s.Flushed)
      (step maxArchiveQueueLength maxArchiveBatchSize serverMaxQueueSize) {} steps := by
  intro pre b post heq hflush
  have hphase : (pre.foldl (step maxArchiveQueueLength maxArchiveBatchSize serverMaxQueueSize) {}).Phase := by
    refine List.foldlRecOn pre _ phase_empty fun s hs b hb => phase_step hs (h b ?_)
    rw [heq]
    exact List.mem_append_left _ hb
  exact hphase.returnsFlush hflush

/-- Two fields sent in one message and archived, up to the answer to `flush`. -/
def twoFields : List (SystemStep Nat) :=
  [.client (.archive 1 none), .control none, .reply, .client .emplace, .client (.archive 2 none), .client .emplace,
    .client (.thread .written), .client (.thread .written), .client (.thread .written), .client .flush,
    .client (.thread .written), .client (.thread .written), .client .get, .control none, .read, .work none, .work none,
    .work none, .work none, .read, .work none, .read, .get none none]

/-- Behind a first request that could not be sent they are flushed. -/
theorem twoFields_exactly_once : (twoFields.foldl (step 200 2 32) {}).ReturnsFlush 200 2 32 .reply ∧
    Follows.Each (fun s b => s.ReturnsFlush 200 2 32 b →
        s.client.archiveFuture = none ∧ s.enqueued = [] ∨ s.client.caller = .flushing ∧ s.Flushed)
      (step 200 2 32) {} ([.client (.archive 7 none), .unsent false (.exception "TCPException")] ++ twoFields ++ [.reply]) :=
  ⟨⟨.inl rfl, rfl, rfl⟩, flush_exactly_once (by simp [twoFields])⟩

/-- A reply that the client has failed to read is taken for that to its next request, and in the end that to `archive`
for that to `flush`. -/
def unreadReply : List (SystemStep Nat) :=
  twoFields ++ [.unread (.exception "TCPException"), .client (.archive 3 none), .reply, .client .emplace,
    .client (.thread .written), .client (.thread .written), .client (.thread .written), .client .flush,
    .client (.thread .written), .client (.thread .written), .client .get, .control none]

theorem unreadReply_unflushed : ¬ Follows.Each (fun s b => s.ReturnsFlush 200 2 32 b →
      s.client.archiveFuture = none ∧ s.enqueued = [] ∨ s.client.caller = .flushing ∧ s.Flushed)
    (step 200 2 32) {} (unreadReply ++ [.reply]) := by
  intro h
  rcases h unreadReply .reply [] rfl ⟨.inl rfl, rfl, rfl⟩ with ⟨-, henqueued⟩ | ⟨-, hflushed⟩
  · revert henqueued
    decide +kernel
  · unfold Flushed at hflushed
    revert hflushed
    decide +kernel

end ArchiveSystem

end Fdb5
