import Fdb5.Remote.DataHandle
import Fdb5.Remote.Demultiplex

/-! Handles that are read in the order of their requests follow the streams of the fields. -/
namespace Fdb5

open Effect

variable {requests : List (UInt32 × List (List UInt8))} {s : RemoteReads} {t : Streams} {call : Nat × Nat}
  {bytes : List UInt8} {i n : Nat}

/-- The messages of requests as the handles find them queued. -/
def queued (requests : List (UInt32 × List (List UInt8))) : List StoredMessage :=
  (RemoteHandler.readLocationThreadLoop requests).map WireMessage.stored

@[simp] theorem queued_nil : queued [] = [] := rfl

@[simp] theorem queued_complete {id : UInt32} {rest : List (UInt32 × List (List UInt8))} :
    queued ((id, []) :: rest) = WireMessage.stored ⟨.complete, id, []⟩ :: queued rest := rfl

@[simp] theorem queued_blob {id : UInt32} {chunk : List UInt8} {chunks : List (List UInt8)}
    {rest : List (UInt32 × List (List UInt8))} : queued ((id, chunk :: chunks) :: rest) =
      WireMessage.stored ⟨.blob, id, chunk⟩ :: queued ((id, chunks) :: rest) := rfl

section Delivered

variable {d : Delivery}

/-- The listening thread with messages of the connection one after the other. -/
def Delivery.all (d : Delivery) (messages : List WireMessage) : Delivery :=
  messages.foldl (fun d m => d.step (.message m)) d

theorem step_blob {id : UInt32} {data : List UInt8} (hid : id ∉ d.receivers.messageQueues) (hread : id ∈ d.reads) :
    d.step (.message ⟨.blob, id, data⟩) =
      ⟨d.receivers.retrieve (WireMessage.stored ⟨.blob, id, data⟩), d.reads⟩ := by
  simp [Delivery.step, Receivers.deliver, hid, hread]

theorem step_complete {id : UInt32} (hid : id ∉ d.receivers.messageQueues) (hread : id ∈ d.reads) :
    d.step (.message ⟨.complete, id, []⟩) =
      ⟨d.receivers.retrieve (WireMessage.stored ⟨.complete, id, []⟩), d.reads.filter fun i => i ≠ id⟩ := by
  simp [Delivery.step, Receivers.deliver, WireMessage.stored, hid, hread]

/-- A field's messages come into the queue, and with the last of them its request ends. -/
theorem delivered_field {id : UInt32} {chunks : List (List UInt8)} (hid : id ∉ d.receivers.messageQueues)
    (hread : id ∈ d.reads) : ∃ r, d.all (RemoteHandler.writeToParent id chunks) = ⟨r, d.reads.filter fun i => i ≠ id⟩ ∧
      r.messageQueues = d.receivers.messageQueues ∧ r.retrieveMessageQueue.items =
        d.receivers.retrieveMessageQueue.items ++ (RemoteHandler.writeToParent id chunks).map WireMessage.stored := by
  induction chunks generalizing d with
  | nil => exact ⟨_, step_complete hid hread, rfl, rfl⟩
  | cons chunk chunks ih =>
    have hstep : d.step (.message ⟨.blob, id, chunk⟩) = _ := step_blob hid hread
    obtain ⟨r, hall, hqueues, hitems⟩ :=
      ih (d := ⟨d.receivers.retrieve (WireMessage.stored ⟨.blob, id, chunk⟩), d.reads⟩) hid hread
    refine ⟨r, ?_, hqueues, ?_⟩
    · change (d.step (.message ⟨.blob, id, chunk⟩)).all (RemoteHandler.writeToParent id chunks) = _
      rw [hstep, hall]
    · rw [hitems]
      simp [Receivers.retrieve, Queue.emplace, RemoteHandler.writeToParent]

/-- The messages of the fields come into the queue of the handles as the server sends them. -/
theorem delivered_reads (hid : ∀ r ∈ requests, r.1 ∉ d.receivers.messageQueues ∧ r.1 ∈ d.reads)
    (hnodup : (requests.map Prod.fst).Nodup) :
    (d.all (RemoteHandler.readLocationThreadLoop requests)).receivers.retrieveMessageQueue.items =
      d.receivers.retrieveMessageQueue.items ++ queued requests := by
  induction requests generalizing d with
  | nil => simp [Delivery.all, RemoteHandler.readLocationThreadLoop]
  | cons r requests ih =>
    obtain ⟨id, chunks⟩ := r
    obtain ⟨hfst, hrest⟩ := List.nodup_cons.mp hnodup
    obtain ⟨hthis, hothers⟩ := List.forall_mem_cons.mp hid
    obtain ⟨r, hall, hqueues, hitems⟩ : ∃ r, d.all (RemoteHandler.writeToParent id chunks) = _ ∧ _ :=
      delivered_field hthis.1 hthis.2
    have hloop : RemoteHandler.readLocationThreadLoop ((id, chunks) :: requests) =
      RemoteHandler.writeToParent id chunks ++ RemoteHandler.readLocationThreadLoop requests := rfl
    have hnext : ∀ r' ∈ requests, r'.1 ∉ r.messageQueues ∧ r'.1 ∈ d.reads.filter fun i => i ≠ id := by
      intro r' hr'
      obtain ⟨hnot, hin⟩ := hothers r' hr'
      have hmem : r'.1 ∈ requests.map Prod.fst := List.mem_map_of_mem hr'
      have hne : r'.1 ≠ id := fun heq => hfst (heq ▸ hmem)
      exact ⟨hqueues ▸ hnot, by simp [hin, hne]⟩
    unfold queued Delivery.all
    rw [hloop, List.foldl_append, List.map_append]
    change ((d.all (RemoteHandler.writeToParent id chunks)).all _).receivers.retrieveMessageQueue.items = _
    rw [hall, ih (d := ⟨r, _⟩) hnext hrest, hitems, List.append_assoc]
    rfl

end Delivered

/-- The handle of the request whose turn it is has a part of its first chunk, or nothing. -/
inductive FDBRemoteDataHandle.Holds (queue : List StoredMessage) :
    FDBRemoteDataHandle → List (UInt32 × List (List UInt8)) → Prop where
  | empty {h : FDBRemoteDataHandle} {remaining : List (UInt32 × List (List UInt8))} (hc : h.complete = false)
    (hb : h.currentBuffer = []) (hpos : h.pos = 0) (hqueue : queue = queued remaining) : Holds queue h remaining
  | buffered {h : FDBRemoteDataHandle} {id : UInt32} {chunks : List (List UInt8)}
    {rest : List (UInt32 × List (List UInt8))} (hc : h.complete = false) (hpos : h.pos < h.currentBuffer.length)
    (hqueue : queue = queued ((id, chunks) :: rest)) : Holds queue h ((id, h.currentBuffer.drop h.pos :: chunks) :: rest)

namespace FDBRemoteDataHandle

variable {h : FDBRemoteDataHandle} {queue : List StoredMessage} {id : UInt32} {chunk : List UInt8}
  {chunks : List (List UInt8)} {rest remaining : List (UInt32 × List (List UInt8))}

theorem holds_after (hc : h.complete = false) (hpos : h.pos < h.currentBuffer.length)
    (hqueue : queue = queued ((id, chunks) :: rest)) (hchunk : h.currentBuffer.drop h.pos = chunk) :
    (h.after n).Holds queue ((id, if n < chunk.length then chunk.drop n :: chunks else chunks) :: rest) := by
  have hlen : chunk.length = h.currentBuffer.length - h.pos := by rw [← hchunk, List.length_drop]
  by_cases hn : n < h.currentBuffer.length - h.pos
  · rw [if_pos (hlen ▸ hn), ← hchunk, List.drop_drop, after, if_pos hn]
    exact .buffered hc (show h.pos + n < h.currentBuffer.length by omega) hqueue
  · rw [if_neg (hlen ▸ hn), after, if_neg hn]
    exact .empty hc rfl rfl hqueue

theorem ends_read_chunk (hh : h.Holds queue ((id, chunk :: chunks) :: rest)) (hne : chunk ≠ []) :
    Ends (read n) (queue, h) (fun bytes t => bytes = chunk.take n ∧
      t.2.Holds t.1 ((id, if n < chunk.length then chunk.drop n :: chunks else chunks) :: rest)) fun _ _ => False := by
  cases hh with
  | empty hc hb hpos hqueue =>
    rw [hqueue, queued_blob, ends_read_blob hc hb hpos hne]
    refine ⟨rfl, holds_after hc ?_ rfl ?_⟩
    · simpa [hpos] using List.length_pos_of_ne_nil hne
    · simp [hpos]
  | buffered hc hpos hqueue =>
    rw [ends_read_buffered hc hpos]
    exact ⟨rfl, holds_after hc hpos hqueue rfl⟩

theorem ends_read_end (hh : h.Holds queue ((id, []) :: rest)) :
    Ends (read n) (queue, h) (fun bytes t => bytes = [] ∧ t = (queued rest, h) ∧
      h.complete = false ∧ h.currentBuffer = [] ∧ h.pos = 0) fun _ _ => False := by
  cases hh with
  | empty hc hb hpos hqueue =>
    rw [hqueue, queued_complete, ends_read_complete hc hb]
    exact ⟨rfl, rfl, hc, hb, hpos⟩

theorem Holds.queued (hh : h.Holds queue remaining) (hne : ∀ r ∈ remaining, ∀ chunk ∈ r.2, chunk ≠ []) :
    ∃ remaining, queue = queued remaining ∧ ∀ r ∈ remaining, ∀ chunk ∈ r.2, chunk ≠ [] := by
  cases hh with
  | empty hc hb hpos hqueue => exact ⟨_, hqueue, hne⟩
  | buffered hc hpos hqueue =>
    refine ⟨_, hqueue, ?_⟩
    simp only [List.mem_cons, forall_eq_or_imp] at hne ⊢
    exact ⟨hne.1.2, hne.2⟩

/-- A handle whose stream has ended takes a message if it is read again, whosever it is. -/
theorem ends_read_again (hc : h.complete = false) (hb : h.currentBuffer = []) (hpos : h.pos = 0)
    (hne : ∀ r ∈ remaining, ∀ chunk ∈ r.2, chunk ≠ []) :
    Ends (read n) (queued remaining, h) (fun _ t => t.1 ≠ queued remaining) fun _ _ => True := by
  rcases remaining with _ | ⟨⟨id, _ | ⟨chunk, chunks⟩⟩, rest⟩
  · exact (ends_read_nothing hc hb).mpr trivial
  · rw [queued_complete, ends_read_complete hc hb]
    exact (List.cons_ne_self _ _).symm
  · rw [queued_blob, ends_read_blob hc hb hpos (by simp at hne; exact hne.1.1)]
    exact (List.cons_ne_self _ _).symm

end FDBRemoteDataHandle

/-- The client is where the streams are. -/
structure RemoteReads.Follows (requests : List (UInt32 × List (List UInt8))) (s : RemoteReads) (t : Streams) : Prop where
  returned : s.returned = t.returned
  current : (s.handles t.cur).Holds s.queue t.remaining
  others : ∀ i ≠ t.cur, (s.handles i).complete = false ∧ (s.handles i).currentBuffer = [] ∧ (s.handles i).pos = 0
  nonempty : ∀ r ∈ t.remaining, ∀ chunk ∈ r.2, chunk ≠ []
  ended : ∀ i, (i, []) ∈ t.returned ↔ i < t.cur
  bytes : ∀ i, bytesOf i t.returned ++ t.left i = (requests.getD i (0, [])).2.flatten

theorem bytesOf_append {j : Nat} {returned : List (Nat × List UInt8)} :
    bytesOf i (returned ++ [(j, bytes)]) = bytesOf i returned ++ if j = i then bytes else [] := by
  by_cases h : j = i <;> simp [bytesOf, h]

theorem RemoteReads.follows_start (h : ∀ r ∈ requests, ∀ chunk ∈ r.2, chunk ≠ []) :
    (RemoteReads.start requests).Follows requests { remaining := requests } where
  returned := rfl
  current := .empty rfl rfl rfl rfl
  others i hi := ⟨rfl, rfl, rfl⟩
  nonempty := h
  ended i := by simp
  bytes i := by simp [bytesOf, Streams.left]

theorem RemoteReads.step_eq {Q : List UInt8 → List StoredMessage × FDBRemoteDataHandle → Prop}
    (h : Ends (FDBRemoteDataHandle.read n) (s.queue, s.handles i) Q fun _ _ => False) :
    ∃ bytes queue handle, Q bytes (queue, handle) ∧
      s.step (i, n) = ⟨queue, Function.update s.handles i handle, s.returned ++ [(i, bytes)]⟩ := by
  obtain ⟨bytes, ⟨queue, handle⟩, hrun, hQ⟩ := h.returns
  exact ⟨bytes, queue, handle, hQ, by rw [step, hrun]⟩

namespace Streams

variable {id : UInt32} {chunk : List UInt8} {chunks : List (List UInt8)} {rest : List (UInt32 × List (List UInt8))}

theorem step_end (hrem : t.remaining = (id, []) :: rest) :
    t.step (t.cur, n) = ⟨t.cur + 1, rest, t.returned ++ [(t.cur, [])]⟩ := by
  simp [step, hrem]

theorem step_chunk (hrem : t.remaining = (id, chunk :: chunks) :: rest) : t.step (t.cur, n) =
    ⟨t.cur, (id, if n < chunk.length then chunk.drop n :: chunks else chunks) :: rest,
      t.returned ++ [(t.cur, chunk.take n)]⟩ := by
  simp [step, hrem]

theorem returned_step (t : Streams) (hrem : t.remaining ≠ []) :
    ∃ bytes, (t.step (t.cur, n)).returned = t.returned ++ [(t.cur, bytes)] := by
  match hremaining : t.remaining with
  | [] => exact absurd hremaining hrem
  | (id, []) :: rest => exact ⟨[], by rw [step_end hremaining]⟩
  | (id, chunk :: chunks) :: rest => exact ⟨chunk.take n, by rw [step_chunk hremaining]⟩

theorem left_step_end (hrem : t.remaining = (id, []) :: rest) :
    left ⟨t.cur + 1, rest, t.returned ++ [(t.cur, [])]⟩ i = t.left i := by
  unfold left
  rw [hrem]
  by_cases hlt : i < t.cur
  · rw [if_pos hlt, if_pos (Nat.lt_succ_of_lt hlt)]
  by_cases heq : i = t.cur
  · simp [heq]
  · have hsub : i - t.cur = i - (t.cur + 1) + 1 := by omega
    rw [if_neg hlt, if_neg (show ¬ i < t.cur + 1 by omega), hsub, List.getD_cons_succ]

theorem left_step_chunk (hrem : t.remaining = (id, chunk :: chunks) :: rest) :
    (if t.cur = i then chunk.take n else []) ++
      left ⟨t.cur, (id, if n < chunk.length then chunk.drop n :: chunks else chunks) :: rest,
        t.returned ++ [(t.cur, chunk.take n)]⟩ i = t.left i := by
  unfold left
  rw [hrem]
  by_cases heq : t.cur = i
  · subst heq
    by_cases hn : n < chunk.length
    · simp [hn, ← List.append_assoc]
    · simp [hn, List.take_of_length_le (Nat.le_of_not_lt hn)]
  · by_cases hlt : i < t.cur
    · simp [heq, hlt]
    · have hsub : i - t.cur = i - t.cur - 1 + 1 := by omega
      rw [if_neg heq, if_neg hlt, hsub, List.getD_cons_succ, List.getD_cons_succ, List.nil_append, if_neg hlt]

end Streams

namespace RemoteReads.Follows

section Current

variable {id : UInt32} {chunk : List UInt8} {chunks : List (List UInt8)} {rest : List (UInt32 × List (List UInt8))}

theorem step_end (h : s.Follows requests t) (hrem : t.remaining = (id, []) :: rest) :
    (s.step (t.cur, n)).Follows requests (t.step (t.cur, n)) := by
  have hholds := h.current
  rw [hrem] at hholds
  obtain ⟨bytes, queue, handle, ⟨rfl, heq, hhandle⟩, hstep⟩ := step_eq (FDBRemoteDataHandle.ends_read_end hholds)
  obtain ⟨rfl, rfl⟩ := Prod.mk.inj heq
  rw [hstep, Function.update_eq_self, Streams.step_end hrem]
  have hothers : ∀ i, (s.handles i).complete = false ∧ (s.handles i).currentBuffer = [] ∧ (s.handles i).pos = 0 := by
    intro i
    by_cases hi : i = t.cur
    · exact hi ▸ hhandle
    · exact h.others i hi
  obtain ⟨hc, hb, hpos⟩ := hothers (t.cur + 1)
  constructor
  case returned => rw [h.returned]
  case current => exact .empty hc hb hpos rfl
  case others => exact fun i _ => hothers i
  case nonempty => exact fun r hr => h.nonempty r (hrem ▸ List.mem_cons_of_mem _ hr)
  case ended =>
    intro i
    have hended := h.ended i
    simp only [List.mem_append, List.mem_singleton, Prod.mk.injEq, and_true, hended]
    omega
  case bytes =>
    intro i
    rw [bytesOf_append, Streams.left_step_end hrem]
    simpa using h.bytes i

theorem step_chunk (h : s.Follows requests t) (hn : 0 < n) (hrem : t.remaining = (id, chunk :: chunks) :: rest) :
    (s.step (t.cur, n)).Follows requests (t.step (t.cur, n)) := by
  have hholds := h.current
  have hnonempty := h.nonempty
  rw [hrem] at hholds hnonempty
  have hne : chunk ≠ [] := hnonempty _ (.head _) chunk (.head _)
  obtain ⟨bytes, queue, handle, ⟨rfl, hhandle⟩, hstep⟩ := step_eq (FDBRemoteDataHandle.ends_read_chunk hholds hne)
  rw [hstep, Streams.step_chunk hrem]
  constructor
  case returned => rw [h.returned]
  case current => simpa using hhandle
  case others =>
    intro i hi
    have hcur : i ≠ t.cur := hi
    simpa [Function.update_of_ne hcur] using h.others i hcur
  case nonempty =>
    simp only [List.mem_cons, forall_eq_or_imp] at hnonempty ⊢
    refine ⟨?_, hnonempty.2⟩
    by_cases hlt : n < chunk.length
    · simpa [hlt] using hnonempty.1.2
    · simpa [hlt] using hnonempty.1.2
  case ended =>
    intro i
    have htake : chunk.take n ≠ [] := by
      rw [ne_eq, List.take_eq_nil_iff, not_or]
      exact ⟨by omega, hne⟩
    rw [← h.ended i]
    simp [htake.symm]
  case bytes =>
    intro i
    rw [bytesOf_append, List.append_assoc, Streams.left_step_chunk hrem]
    exact h.bytes i

end Current

/-- A read of the handle whose turn it is follows the stream. -/
theorem step_current (h : s.Follows requests t) (hn : 0 < n) (hrem : t.remaining ≠ []) :
    (s.step (t.cur, n)).Follows requests (t.step (t.cur, n)) := by
  match hremaining : t.remaining with
  | [] => exact absurd hremaining hrem
  | (id, []) :: rest => exact h.step_end hremaining
  | (id, chunk :: chunks) :: rest => exact h.step_chunk hn hremaining

/-- The call is right exactly if its handle has not ended. -/
theorem returns_iff (h : s.Follows requests t) (hcall : t.InOrder call) : s.Returns call ↔ ¬ call.1 < t.cur := by
  obtain ⟨i, n⟩ := call
  obtain ⟨hn, hi⟩ := hcall
  constructor
  · rintro ⟨bytes, hreturned, hagain⟩ hlt
    have hended : (i, []) ∈ s.returned := h.returned ▸ (h.ended i).mpr hlt
    obtain ⟨hc, hb, hpos⟩ := h.others i (Nat.ne_of_lt hlt)
    obtain ⟨remaining, hqueue, hne⟩ := h.current.queued h.nonempty
    have hread : Ends (FDBRemoteDataHandle.read n) (s.queue, s.handles i) (fun _ t => t.1 ≠ s.queue) fun _ _ => True :=
      hqueue ▸ FDBRemoteDataHandle.ends_read_again hc hb hpos hne
    have hsame := (hagain hended).2
    cases hrun : (FDBRemoteDataHandle.read n).run (s.queue, s.handles i) with
    | ok bytes t =>
      apply hread.ok hrun
      simpa [step, hrun] using hsame
    | error e t =>
      have hlen := congrArg List.length hreturned
      simp [step, hrun] at hlen
  · intro hlt
    obtain ⟨rfl, hrem⟩ : i = t.cur ∧ t.remaining ≠ [] := hi.resolve_left hlt
    obtain ⟨bytes, hbytes⟩ := t.returned_step (n := n) hrem
    refine ⟨bytes, ?_, fun hended => ?_⟩
    · rw [(h.step_current hn hrem).returned, hbytes, h.returned]
    · exact absurd ((h.ended t.cur).mp (h.returned ▸ hended)) hlt

theorem sound (h : s.Follows requests t) :
    bytesOf i s.returned <+: (requests.getD i (0, [])).2.flatten ∧
      ((i, []) ∈ s.returned → bytesOf i s.returned = (requests.getD i (0, [])).2.flatten) := by
  have hbytes := h.bytes i
  rw [h.returned]
  refine ⟨⟨_, hbytes⟩, fun hended => ?_⟩
  have hleft : t.left i = [] := if_pos ((h.ended i).mp hended)
  rw [← hbytes, hleft, List.append_nil]

end RemoteReads.Follows

/-- Calls return the fields' bytes, each field's to its own handle, and 0 for ever after them. -/
def Exact (requests : List (UInt32 × List (List UInt8))) (calls : List (Nat × Nat)) : Prop :=
  Follows.Each RemoteReads.Returns RemoteReads.step (.start requests) calls ∧
    ∀ pre post, calls = pre ++ post → ∀ i,
      let returned := (pre.foldl RemoteReads.step (.start requests)).returned
      bytesOf i returned <+: (requests.getD i (0, [])).2.flatten ∧
        ((i, []) ∈ returned → bytesOf i returned = (requests.getD i (0, [])).2.flatten)

/-- Handles that are read one after the other are exact exactly if none is read again after its end. -/
theorem exact_iff_readOnce {calls : List (Nat × Nat)} (h : ∀ r ∈ requests, ∀ chunk ∈ r.2, chunk ≠ [])
    (hcalls : InOrder requests calls) : Exact requests calls ↔ ReadOnce requests calls := by
  let R (calls : List (Nat × Nat)) (s : RemoteReads) (t : Streams) : Prop :=
    s.Follows requests t ∧ Follows.Each Streams.InOrder Streams.step t calls
  have hgood : ∀ call ∈ calls, ∀ post s t, R (call :: post) s t → (s.Returns call ↔ ¬ call.1 < t.cur) :=
    fun call _ post s t hR => hR.1.returns_iff (Follows.each_cons.mp hR.2).1
  have hstep : ∀ call ∈ calls, ∀ post s t, R (call :: post) s t → ¬ call.1 < t.cur → R post (s.step call) (t.step call) := by
    rintro ⟨i, n⟩ - post s t ⟨hs, hin⟩ hcur
    obtain ⟨⟨hn, hi⟩, hpost⟩ := Follows.each_cons.mp hin
    obtain ⟨rfl, hrem⟩ : i = t.cur ∧ t.remaining ≠ [] := hi.resolve_left hcur
    exact ⟨hs.step_current hn hrem, hpost⟩
  have hstart : R calls (.start requests) { remaining := requests } := ⟨RemoteReads.follows_start h, hcalls⟩
  have hiff := Follows.good_iff (G := fun _ s _ call => s.Returns call) hgood hstep hstart
  constructor
  · intro hall
    exact hiff.mp hall.1
  · intro hcur
    refine ⟨hiff.mpr hcur, fun pre post heq i => ?_⟩
    exact (Follows.follows hstep hstart hcur pre post heq).1.sound

/-- Two fields of a byte each. -/
def twoFields : List (UInt32 × List (List UInt8)) := [(1, [[7]]), (2, [[8]])]

instance {t : Streams} {call : Nat × Nat} : Decidable (t.InOrder call) :=
  inferInstanceAs (Decidable (0 < call.2 ∧ (call.1 < t.cur ∨ call.1 = t.cur ∧ t.remaining ≠ [])))

instance {calls : List (Nat × Nat)} : Decidable (InOrder requests calls) := Follows.decidableEach _ _

instance {calls : List (Nat × Nat)} : Decidable (ReadOnce requests calls) := Follows.decidableEach _ _

theorem exact_twoFields : Exact twoFields [(0, 1), (0, 1), (1, 3), (1, 3)] :=
  (exact_iff_readOnce (by decide) (by decide)).mpr (by decide)

/-- The handle of the first field is read again after its end: it takes the byte of the second field. -/
theorem reread_steals : InOrder twoFields [(0, 1), (0, 1), (0, 1)] ∧ ¬ Exact twoFields [(0, 1), (0, 1), (0, 1)] := by
  constructor
  · decide
  · rintro ⟨hreturns, -⟩
    obtain ⟨bytes, hreturned, hagain⟩ := hreturns [(0, 1), (0, 1)] (0, 1) [] rfl
    have hempty := (hagain (by decide +kernel)).1
    subst hempty
    revert hreturned
    decide +kernel

end Fdb5
