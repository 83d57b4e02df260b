import SparkRdma.Completion.Notification
import SparkRdma.WorkQueue.Chunks

/-! # A transport and its threads

The parts of one `struct rdma_transport` together: the connection with `poll_thread`, the loop of
`handle_thread` over the entries of a batch, and the work queue that `handle_recv_event` fills.

* **`eventStep`** — the body of `handle_thread`'s loop over a batch.
* **`AboutToPush`** — its next section ends in `g_thread_pool_push`.
* **`pending`** — the received chunks on their way to `handle_recv_event`, oldest first.
* **`ArrivalInv`** — as long as no work item runs, what has arrived is what is stored in the work
  queue, what is in hand and what is pending, in this order; the head of the work queue has the
  frames of the message whose frame arrived first. -/

namespace SparkRdma

open Interleaving

/-- `work_thread_pool`. -/
inductive WorkThreadPool
  /-- Still NULL. -/
  | unset
  /-- Made by `g_thread_pool_new`. -/
  | running
  /-- `g_thread_pool_free` waits for the work items. -/
  | stopping
  /-- Freed. -/
  | freed
  deriving DecidableEq, Repr

/-- A transport of the server. -/
structure ServedTransport (χ : Type) where
  /-- The connection, with `poll_thread` and the queue of batches. -/
  link : LinkState χ
  /-- `i` in the loop of `handle_thread` over a batch. -/
  index : ℕ
  /-- The work queue, with the event under way and the work items. -/
  work : WorkState χ
  /-- `is_ready`. -/
  isReady : Bool
  /-- A signal is pending for `poll_thread`. -/
  pollSignal : Bool
  /-- `poll_thread` has left. -/
  pollEnded : Bool
  /-- A signal is pending for `handle_thread`. -/
  handleSignal : Bool
  /-- `handle_thread` has left. -/
  handleEnded : Bool

variable {χ : Type} {mem : χ → RdmaChunk}

/-- `poll_thread` was started. -/
def PollThreadPc.started : PollThreadPc χ → Bool
  | notStarted => false
  | _ => true

/-- `create_thread` was called for `handle_thread`. -/
def CreatePc.HandleTried : CreatePc → Prop
  | qp | modifyInit | recv _ | created => True
  | _ => False

instance (pc : CreatePc) : Decidable pc.HandleTried := by
  unfold CreatePc.HandleTried
  split <;> infer_instance

namespace ServedTransport

/-- `calloc(1, sizeof(struct rdma_transport))`. -/
def zeroed : ServedTransport χ := ⟨.start, 0, .start, false, false, false, false, false⟩

/-- The next section of `handle_thread` is the one that calls `g_thread_pool_push`. -/
def AboutToPush (t : ServedTransport χ) : Prop :=
  t.work.handler = .stored ∧ t.work.isWorkRunning = 0 ∧ t.work.HeadComplete

/-- A section of an event has left the work queue as `work`, and has called `g_thread_pool_push` if
there is one more work item. -/
def endSection (pool : WorkThreadPool) (t : ServedTransport χ) (work : WorkState χ) :
    Except CFault (ServedTransport χ) :=
  match pool with
  -- for a NULL pool, and one that stops, it complains and queues nothing
  | .unset | .stopping => .ok { t with work := { work with poolItems := t.work.poolItems } }
  | .running => .ok { t with work := work }
  | .freed => if work.poolItems = t.work.poolItems then .ok { t with work := work }
      else .error .useAfterFree

/-- `handle_thread` in its loop over the batch `head`. -/
def eventStep (mem : χ → RdmaChunk) (pool : WorkThreadPool) (t : ServedTransport χ)
    (head : WcArray χ) : Option (Except CFault (ServedTransport χ)) :=
  match t.work.handler with
  | .idle =>
      if t.index < head.len then
        match (head.data[t.index]?).join with
        -- a zero entry looks like a send without a work chunk
        | none => some (.error .nullDeref)
        | some wc =>
            if wc.success = false then some (.error .abort)
            else
              match wc.opcode with
              | .send => some (.ok { t with index := t.index + 1 })
              | .recv => some ((t.work.lookupSection mem wc.byteLen wc.chunk).map fun work =>
                  { t with work := work, index := t.index + 1 })
              | .other => some (.error .abort)
      else t.link.handover.handleStep.map (Except.map fun handover =>
        { t with link := { t.link with handover := handover }, index := 0 })
  | _ => (t.work.handlerStep mem).map fun result => result >>= t.endSection pool

/-- The next step of `handle_thread`. -/
def handleStep (mem : χ → RdmaChunk) (pool : WorkThreadPool) (t : ServedTransport χ) :
    Option (Except CFault (ServedTransport χ)) :=
  if t.link.handleStarted = true ∧ t.handleEnded = false then
    match t.link.handover.handle with
    | .events head => t.eventStep mem pool head
    | _ => t.link.handover.handleStep.map (Except.map fun handover =>
        { t with link := { t.link with handover := handover } })
  else none

/-- The next step of `poll_thread`. -/
def pollStep (mem : χ → RdmaChunk) (t : ServedTransport χ) (answer : Answer) :
    Option (Except CFault (ServedTransport χ)) :=
  if t.pollEnded = false then
    (t.link.pollStep mem answer).map (Except.map fun link => { t with link := link })
  else none

/-! ### What is on its way -/

/-- The entries of the batch in hand of `handle_thread` that it has not looked at. -/
def batchRest (t : ServedTransport χ) : List (Option (Wc χ)) :=
  match t.link.handover.handle with
  | .popped head => head.entries
  | .events head => head.entries.drop t.index
  | _ => []

end ServedTransport

/-- The completions on their way to `handle_thread`, oldest first. -/
def LinkState.stream (s : LinkState χ) : List (Option (Wc χ)) :=
  s.handover.handleQuque.flatMap WcArray.entries ++ s.poll.inHand ++ s.cq.items.map some

/-- The chunk of a receive. -/
def Wc.received (wc : Wc χ) : Option χ := if wc.opcode = .recv then some wc.chunk else none

/-- The chunks of the receives among some entries. -/
def receivedChunks (entries : List (Option (Wc χ))) : List χ :=
  entries.filterMap fun entry => entry.bind Wc.received

/-- The received chunks on their way to `handle_recv_event`, oldest first. -/
def ServedTransport.pending (t : ServedTransport χ) : List χ :=
  receivedChunks (t.batchRest ++ t.link.stream)

@[simp] theorem receivedChunks_append (l₁ l₂ : List (Option (Wc χ))) :
    receivedChunks (l₁ ++ l₂) = receivedChunks l₁ ++ receivedChunks l₂ := List.filterMap_append ..

/-- A step of `poll_thread` loses nothing on the way. -/
theorem PollEffect.stream_eq {s s' : LinkState χ} {answer : Answer} (h : PollEffect s s' answer) :
    s'.stream = s.stream := by
  cases h with
  | quiet hitems hhand hhandover hnote =>
    rw [LinkState.stream, hhandover, hhand, hitems, LinkState.stream]
  | polled polled hitems hbefore hhand hhandover hnote =>
    rw [LinkState.stream, hhandover, hhand, LinkState.stream, hbefore, hitems, List.append_nil,
      List.map_append, List.append_assoc]
  | pushed arr hitems hbefore hhand hhandover hnote =>
    rw [LinkState.stream, hhandover, hhand, hitems, LinkState.stream, hbefore,
      HandleState.pushBatch, List.flatMap_append, List.flatMap_singleton, List.append_nil]
  | signalled hitems hhand hhandover hnote =>
    have hqueue : s.handover.signalSection.handleQuque = s.handover.handleQuque := by
      unfold HandleState.signalSection HandleState.condSignal
      split
      · cases s.handover.handle <;> rfl
      · rfl
    rw [LinkState.stream, hhandover, hqueue, hhand, hitems, LinkState.stream]


/-! ### What is stored -/

/-- The frames of the message of `first`. -/
def ofMessage (mem : χ → RdmaChunk) (first : χ) (l : List χ) : List χ :=
  l.filter fun chunk => (mem chunk).header.dataId = (mem first).header.dataId

/-- Some frames, of which those of the message of the first one are all there. -/
def FirstComplete (mem : χ → RdmaChunk) : List χ → Prop
  | [] => False
  | first :: rest =>
      (mem first).header.chunkNum.toNat ≤ (ofMessage mem first (first :: rest)).length

/-- A complete first message stays complete when frames are added. -/
theorem FirstComplete.append {l : List χ} (h : FirstComplete mem l) (more : List χ) :
    FirstComplete mem (l ++ more) := by
  cases l with
  | nil => exact h.elim
  | cons first rest =>
    show _ ≤ (ofMessage mem first (first :: rest ++ more)).length
    rw [ofMessage, List.filter_append, List.length_append]
    exact Nat.le_add_right_of_le h

/-- The chunks `stored`, in this order, are in the work queue, and no work item has run: the head of
the queue has the frames of the first of them. -/
structure Stored (mem : χ → RdmaChunk) (w : WorkState χ) (stored : List χ) : Prop where
  /-- Nothing executes. -/
  workers : w.workers = []
  /-- Nothing is queued in the pool. -/
  items : w.poolItems = 0
  /-- The varrays were allocated. -/
  allocated : ∀ now ∈ w.workQueue, now < w.nextAddr
  /-- What was found is still what would be found. -/
  found : ∀ chunk now, w.handler = .found chunk now →
    now = w.findCustom (mem chunk).header.dataId
  /-- Without a varray nothing is stored. -/
  empty : w.workQueue = [] → stored = []
  /-- The head has the frames of the first chunk. -/
  head : ∀ head rest, w.workQueue = head :: rest → ∃ first tail, stored = first :: tail ∧
    w.heap head = some
      ⟨(mem first).header.dataId, (mem first).header.chunkNum, ofMessage mem first stored⟩

namespace Stored

variable {w w' : WorkState χ} {stored : List χ} {chunk : χ} {now : ℕ}

/-- The empty state. -/
theorem start : Stored mem (.start : WorkState χ) [] := by
  constructor <;> simp [WorkState.start]

/-- A complete head has all frames of the message whose frame came first. -/
theorem firstComplete (h : Stored mem w stored) (hcomplete : w.HeadComplete) :
    FirstComplete mem stored := by
  obtain ⟨head, rest, v, hqueue, hv, hfull⟩ := hcomplete
  obtain ⟨first, tail, rfl, hhead⟩ := h.head head rest hqueue
  obtain rfl := Option.some.inj (hhead.symm.trans hv)
  exact hfull.ge

/-- The lookup. -/
theorem lookup (h : Stored mem w stored) {byteLen : UInt32}
    (hstep : w.lookupSection mem byteLen chunk = .ok w') : Stored mem w' stored := by
  obtain ⟨-, rfl⟩ := WorkState.lookupSection_ok hstep
  refine ⟨h.workers, h.items, h.allocated, fun chunk' now hfound => ?_, h.empty, h.head⟩
  obtain ⟨rfl, rfl⟩ := HandlerPc.found.inj hfound
  rfl

/-- A new varray is pushed: it is the head, or another message is. -/
theorem pushNew (h : Stored mem w stored) (hfound : w.handler = .found chunk none)
    (hstep : w.pushNew mem chunk = .ok w') : Stored mem w' (stored ++ [chunk]) := by
  obtain ⟨-, rfl⟩ := WorkState.pushNew_ok hstep
  have hnone := (h.found chunk none hfound).symm
  refine ⟨h.workers, h.items, fun now hnow => ?_, nofun, fun hempty => by simp at hempty, ?_⟩
  · rcases List.mem_append.mp hnow with hnow | hnow
    · exact Nat.lt_succ_of_lt (h.allocated now hnow)
    · rw [List.mem_singleton.mp hnow]
      exact Nat.lt_succ_self _
  · intro head rest hqueue
    rcases hold : w.workQueue with _ | ⟨head', rest'⟩
    · -- it is the first one
      obtain rfl := h.empty hold
      rw [hold, List.nil_append, List.cons.injEq] at hqueue
      obtain ⟨rfl, -⟩ := hqueue
      refine ⟨chunk, [], rfl, ?_⟩
      show Function.update w.heap w.nextAddr _ w.nextAddr = _
      rw [Function.update_self]
      simp [ofMessage]
    · rw [hold, List.cons_append, List.cons.injEq] at hqueue
      obtain ⟨rfl, -⟩ := hqueue
      obtain ⟨first, tail, rfl, hhead⟩ := h.head head' rest' hold
      have hne : head' ≠ w.nextAddr := (h.allocated head' (by simp [hold])).ne
      -- the chunk is none of the head's, which the lookup would have found
      have hother : (mem chunk).header.dataId ≠ (mem first).header.dataId := by
        intro heq
        rw [WorkState.findCustom, hold, List.find?_cons] at hnone
        simp [WorkState.hasDataId, hhead, heq] at hnone
      refine ⟨first, tail ++ [chunk], rfl, ?_⟩
      show Function.update w.heap w.nextAddr _ head' = _
      rw [Function.update_of_ne hne, hhead, ofMessage, ofMessage, List.filter_append]
      simp [hother]

/-- A chunk is appended to the varray found: to the head if it is one of its message. -/
theorem appendFound (h : Stored mem w stored) (hfound : w.handler = .found chunk (some now))
    (hstep : w.appendFound mem chunk now = .ok w') : Stored mem w' (stored ++ [chunk]) := by
  obtain ⟨hmem, v, hv, -, hid, rfl⟩ := WorkState.appendFound_ok hstep
  have hsome := (h.found chunk (some now) hfound).symm
  refine ⟨h.workers, h.items, h.allocated, nofun, fun hempty => ?_, ?_⟩
  · rw [show w.workQueue = [] from hempty] at hmem
    cases hmem
  · intro head rest hqueue
    obtain ⟨first, tail, rfl, hhead⟩ := h.head head rest hqueue
    refine ⟨first, tail ++ [chunk], rfl, ?_⟩
    show Function.update w.heap now _ head = _
    by_cases heq : head = now
    · subst heq
      obtain rfl := Option.some.inj (hhead.symm.trans hv)
      rw [Function.update_self, ofMessage, ofMessage, List.filter_append]
      simp [← hid]
    · have hother : (mem chunk).header.dataId ≠ (mem first).header.dataId := by
        intro hsame
        rw [WorkState.findCustom, show w.workQueue = head :: rest from hqueue,
          List.find?_cons] at hsome
        simp only [WorkState.hasDataId, hhead, hsame, beq_self_eq_true, Option.some.injEq] at hsome
        exact heq hsome
      rw [Function.update_of_ne heq, hhead, ofMessage, ofMessage, List.filter_append]
      simp [hother]

/-- The last section of an event, when there is no pool. -/
theorem wakeSection (h : Stored mem w stored) (hstep : w.wakeSection = .ok w') :
    Stored mem { w' with poolItems := w.poolItems } stored := by
  obtain ⟨-, -, rfl⟩ | ⟨-, rfl⟩ := WorkState.wakeSection_ok hstep <;>
    exact ⟨h.workers, h.items, h.allocated, nofun, h.empty, h.head⟩

/-- A section of an event, when there is no pool: it stores the chunk in hand, if there is one. -/
theorem handlerStep (h : Stored mem w stored) (hstep : w.handlerStep mem = some (.ok w')) :
    w'.incoming = [] ∧ Stored mem { w' with poolItems := w.poolItems } (stored ++ w.incoming) := by
  unfold WorkState.handlerStep at hstep
  split at hstep
  · cases hstep
  · rename_i chunk hfound
    have hpush := Option.some.inj hstep
    rw [show w.incoming = [chunk] by rw [WorkState.incoming, hfound]; rfl]
    have hafter := h.pushNew hfound hpush
    obtain ⟨-, rfl⟩ := WorkState.pushNew_ok hpush
    exact ⟨rfl, hafter⟩
  · rename_i chunk now hfound
    have hpush := Option.some.inj hstep
    rw [show w.incoming = [chunk] by rw [WorkState.incoming, hfound]; rfl]
    have hafter := h.appendFound hfound hpush
    obtain ⟨-, v, -, -, -, rfl⟩ := WorkState.appendFound_ok hpush
    exact ⟨rfl, hafter⟩
  · rename_i hlast
    have hwake := Option.some.inj hstep
    rw [show w.incoming = [] by rw [WorkState.incoming, hlast]; rfl, List.append_nil]
    refine ⟨?_, h.wakeSection hwake⟩
    obtain ⟨-, -, rfl⟩ | ⟨-, rfl⟩ := WorkState.wakeSection_ok hwake <;> rfl

end Stored


/-! ### The steps of the threads -/

/-- One entry has the chunk of its receive, if it is one. -/
theorem receivedChunks_singleton (wc : Wc χ) :
    receivedChunks [some wc] = wc.received.toList := by
  cases h : wc.received <;> simp [receivedChunks, h]

namespace WcArray

/-- The entries from one that is there on. -/
theorem drop_entries {arr : WcArray χ} {i : ℕ} {wc : Wc χ} (hi : i < arr.len)
    (hentry : (arr.data[i]?).join = some wc) :
    arr.entries.drop i = some wc :: arr.entries.drop (i + 1) := by
  have hget : arr.entries[i]? = some (some wc) := by
    rw [entries, List.getElem?_take_of_lt hi]
    exact Option.join_eq_some_iff.mp hentry
  obtain ⟨hlt, heq⟩ := List.getElem?_eq_some_iff.mp hget
  rw [List.drop_eq_getElem_cons hlt, heq]

/-- An array has no entries from `len` on. -/
theorem drop_entries_of_le {arr : WcArray χ} {i : ℕ} (hi : arr.len ≤ i) :
    arr.entries.drop i = [] :=
  List.drop_eq_nil_of_le ((List.length_take_le ..).trans hi)

end WcArray

/-- What others than `handle_thread` do to the hand-over: batches are pushed, and `handle_thread`
returns from its wait. -/
def HandleState.Fed (h h' : HandleState (WcArray χ)) : Prop :=
  (∃ more, h'.handleQuque = h.handleQuque ++ more) ∧
    (h'.handle = h.handle ∨ h.handle = .blocked ∧ h'.handle = .woken)

/-- A handover that stays as it is was fed nothing. -/
theorem HandleState.Fed.refl (h : HandleState (WcArray χ)) : h.Fed h :=
  ⟨⟨[], (List.append_nil _).symm⟩, .inl rfl⟩

/-- The section that wakes `handle_thread`. -/
theorem HandleState.Fed.signalSection (h : HandleState (WcArray χ)) : h.Fed h.signalSection := by
  unfold HandleState.signalSection HandleState.condSignal
  split
  · cases hpc : h.handle with
    | blocked => exact ⟨⟨[], (List.append_nil _).symm⟩, .inr ⟨hpc, rfl⟩⟩
    | _ => exact ⟨⟨[], (List.append_nil _).symm⟩, .inl hpc.symm⟩
  · exact ⟨⟨[], (List.append_nil _).symm⟩, .inl rfl⟩

/-- A step of `poll_thread`. -/
theorem PollEffect.fed {s s' : LinkState χ} {answer : Answer} (h : PollEffect s s' answer) :
    s.handover.Fed s'.handover := by
  cases h with
  | quiet hitems hhand hhandover hnote => exact hhandover ▸ .refl _
  | polled polled hitems hbefore hhand hhandover hnote => exact hhandover ▸ .refl _
  | pushed arr hitems hbefore hhand hhandover hnote =>
    rw [hhandover]
    exact ⟨⟨[arr], rfl⟩, .inl rfl⟩
  | signalled hitems hhand hhandover hnote => exact hhandover ▸ .signalSection _

/-- **What a step of `rdma_create_connect` does** to what is on its way: nothing, as `poll_thread`
starts with nothing in hand. -/
theorem createStep_spec {s s' : LinkState χ} {answer : Answer}
    (hstep : s.createStep answer = some (.ok s')) :
    s'.handover = s.handover ∧ s'.cq.items = s.cq.items ∧
      (s'.poll = s.poll ∨ s.create = .pollThread ∧ s'.poll = .start) ∧
      (¬ s'.create.PollStarted → ¬ s.create.PollStarted ∧ s'.poll = s.poll) := by
  unfold LinkState.createStep at hstep
  split at hstep
  · rename_i hcreate
    cases hstep
    exact ⟨rfl, rfl, .inl rfl, fun _ => ⟨by rw [hcreate]; exact not_false, rfl⟩⟩
  · rename_i hcreate
    split at hstep <;> cases hstep
    exact ⟨rfl, rfl, .inl rfl, fun _ => ⟨by rw [hcreate]; exact not_false, rfl⟩⟩
  · rename_i hcreate
    split at hstep <;> cases hstep
    exact ⟨rfl, rfl, .inl rfl, fun _ => ⟨by rw [hcreate]; exact not_false, rfl⟩⟩
  · -- arming the queue takes nothing out of it
    rename_i r hcreate
    split at hstep <;> cases hstep
    refine ⟨rfl, ?_, .inl rfl, fun _ => ⟨by rw [hcreate]; exact not_false, rfl⟩⟩
    show (if r = 0 then s.cq.arm else s.cq).items = _
    split <;> rfl
  · rename_i r hcreate
    split at hstep <;> cases hstep
    refine ⟨rfl, rfl, ?_, fun hnot => (hnot trivial).elim⟩
    by_cases hr : r = 0
    · exact .inr ⟨hcreate, if_pos hr⟩
    · exact .inl (if_neg hr)
  · split at hstep <;> cases hstep
    exact ⟨rfl, rfl, .inl rfl, fun hnot => (hnot trivial).elim⟩
  · split at hstep <;> cases hstep
    exact ⟨rfl, rfl, .inl rfl, fun hnot => (hnot trivial).elim⟩
  · split at hstep <;> cases hstep
    exact ⟨rfl, rfl, .inl rfl, fun hnot => (hnot trivial).elim⟩
  · obtain ⟨next, -, rfl⟩ := map_map_eq_ok.mp hstep
    refine ⟨rfl, rfl, .inl rfl, fun hnot => (hnot ?_).elim⟩
    cases next <;> exact trivial
  · cases hstep

/-! ### What has arrived -/

/-- The chunks `arrived`, in this order, are stored, in hand or on their way, and no work item has
run. -/
structure ArrivalInv (mem : χ → RdmaChunk) (t : ServedTransport χ) (arrived : List χ) : Prop where
  /-- Nothing is lost on the way, and nothing overtakes. -/
  arrived : ∃ stored, arrived = stored ++ t.work.incoming ++ t.pending ∧ Stored mem t.work stored
  /-- The loop over a batch starts with the first entry. -/
  index : (∀ head, t.link.handover.handle ≠ .events head) → t.index = 0
  /-- The batch about to be popped is the oldest. -/
  seen : ∀ head, t.link.handover.handle = .pop head →
    ∃ rest, t.link.handover.handleQuque = head :: rest
  /-- Before `poll_thread` is started it does nothing. -/
  unstarted : ¬ t.link.create.PollStarted → t.link.poll = .notStarted

namespace ArrivalInv

variable {t t' : ServedTransport χ} {arrived : List χ} {answer : Answer}

/-- A zeroed transport. -/
theorem zeroed : ArrivalInv mem (.zeroed : ServedTransport χ) [] :=
  ⟨⟨[], rfl, .start⟩, fun _ => rfl, nofun, fun _ => rfl⟩

/-- A message is handed to the worker pool only when all its frames have arrived, if it is the
first. -/
theorem firstComplete (h : ArrivalInv mem t arrived) (hpush : t.AboutToPush) :
    FirstComplete mem arrived := by
  obtain ⟨stored, rfl, hstored⟩ := h.arrived
  rw [List.append_assoc]
  exact (hstored.firstComplete hpush.2.2).append _

/-- Steps of others than `handle_thread`. -/
theorem of_link (h : ArrivalInv mem t arrived) {link : LinkState χ} {more : List χ}
    (hfed : t.link.handover.Fed link.handover)
    (hstream : receivedChunks link.stream = receivedChunks t.link.stream ++ more)
    (hunstarted : ¬ link.create.PollStarted → link.poll = .notStarted) :
    ArrivalInv mem { t with link := link } (arrived ++ more) := by
  obtain ⟨⟨batches, hqueue⟩, hhandle⟩ := hfed
  have hrest : ({ t with link := link } : ServedTransport χ).batchRest = t.batchRest := by
    show (match link.handover.handle with
      | .popped head => head.entries
      | .events head => head.entries.drop t.index
      | _ => []) = _
    rw [ServedTransport.batchRest]
    obtain heq | ⟨hblocked, hwoken⟩ := hhandle
    · rw [heq]
    · rw [hblocked, hwoken]
  refine ⟨?_, fun hnot => ?_, fun head hpop => ?_, hunstarted⟩
  · obtain ⟨stored, rfl, hstored⟩ := h.arrived
    refine ⟨stored, ?_, hstored⟩
    show stored ++ t.work.incoming ++ t.pending ++ more
      = stored ++ t.work.incoming ++ receivedChunks (_ ++ link.stream)
    rw [hrest, receivedChunks_append, hstream, ServedTransport.pending, receivedChunks_append]
    simp only [List.append_assoc]
  · obtain heq | ⟨hblocked, -⟩ := hhandle
    · exact h.index fun head => heq ▸ hnot head
    · exact h.index (by simp [hblocked])
  · obtain heq | ⟨-, hwoken⟩ := hhandle
    · obtain ⟨rest, hrest⟩ := h.seen head (heq ▸ hpop)
      exact ⟨rest ++ batches, by rw [hqueue, hrest, List.cons_append]⟩
    · rw [show link.handover.handle = .woken from hwoken] at hpop
      cases hpop

/-- A completion is added. -/
theorem add (h : ArrivalInv mem t arrived) (wc : Wc χ) :
    ArrivalInv mem { t with link := { t.link with cq := t.link.cq.add wc } }
      (arrived ++ wc.received.toList) := by
  refine h.of_link (.refl _) ?_ h.unstarted
  rw [← receivedChunks_singleton, ← receivedChunks_append]
  congr 1
  show _ ++ _ ++ (t.link.cq.items ++ [wc]).map some = _
  rw [List.map_append, LinkState.stream, List.map_singleton, List.append_assoc _ _ [some wc]]

/-- `rdma_create_connect` takes a step. -/
theorem createStep (h : ArrivalInv mem t arrived) {link : LinkState χ}
    (hstep : t.link.createStep answer = some (.ok link)) :
    ArrivalInv mem { t with link := link } arrived := by
  obtain ⟨hhandover, hitems, hpoll, hunstarted⟩ := createStep_spec hstep
  have hhand : link.poll.inHand = t.link.poll.inHand := by
    obtain heq | ⟨hcreate, hstart⟩ := hpoll
    · rw [heq]
    · -- it is started with nothing in hand
      rw [hstart, h.unstarted (by rw [hcreate]; exact not_false)]
      rfl
  have hstream : link.stream = t.link.stream := by
    rw [LinkState.stream, hhandover, hhand, hitems, LinkState.stream]
  rw [← List.append_nil arrived]
  refine h.of_link (hhandover ▸ .refl _) (by rw [hstream, List.append_nil]) fun hnot => ?_
  obtain ⟨hold, heq⟩ := hunstarted hnot
  rw [heq, h.unstarted hold]

/-- `poll_thread` takes a step. -/
theorem pollStep (h : ArrivalInv mem t arrived) (hstep : t.pollStep mem answer = some (.ok t')) :
    ArrivalInv mem t' arrived := by
  unfold ServedTransport.pollStep at hstep
  split at hstep
  · obtain ⟨link, hlink, rfl⟩ := map_map_eq_ok.mp hstep
    obtain ⟨heffect, hrunning, hcreate, -⟩ := pollStep_spec hlink
    rw [← List.append_nil arrived]
    refine h.of_link heffect.fed (by rw [heffect.stream_eq, List.append_nil]) fun hnot => ?_
    exact (hrunning (h.unstarted (hcreate ▸ hnot))).elim
  · cases hstep

/-- `pthread_cond_wait` returns without a signal. -/
theorem spurious (h : ArrivalInv mem t arrived) {handover : HandleState (WcArray χ)}
    (hstep : handleQueueStep t.link.handover .spurious = some (.ok handover)) :
    ArrivalInv mem { t with link := { t.link with handover := handover } } arrived := by
  simp only [handleQueueStep] at hstep
  split at hstep <;> cases hstep
  rename_i hblocked
  rw [← List.append_nil arrived]
  exact h.of_link ⟨⟨[], (List.append_nil _).symm⟩, .inr ⟨hblocked, rfl⟩⟩ (List.append_nil _).symm
    h.unstarted

/-- `handle_thread` takes up the next entry. -/
theorem handleEntry (h : ArrivalInv mem t arrived) {head : WcArray χ} {wc : Wc χ}
    (hhandle : t.link.handover.handle = .events head) (hidle : t.work.handler = .idle)
    (hindex : t.index < head.len) (hentry : (head.data[t.index]?).join = some wc)
    {work : WorkState χ} (hincoming : work.incoming = wc.received.toList)
    (hstored : ∀ stored, Stored mem t.work stored → Stored mem work stored) :
    ArrivalInv mem { t with work := work, index := t.index + 1 } arrived := by
  refine ⟨?_, fun hnot => (hnot head hhandle).elim, h.seen, h.unstarted⟩
  obtain ⟨stored, rfl, hold⟩ := h.arrived
  refine ⟨stored, ?_, hstored stored hold⟩
  have hbefore : t.pending = wc.received.toList
      ++ receivedChunks (head.entries.drop (t.index + 1) ++ t.link.stream) := by
    rw [ServedTransport.pending, ServedTransport.batchRest, hhandle]
    show receivedChunks (head.entries.drop t.index ++ _) = _
    rw [WcArray.drop_entries hindex hentry, ← receivedChunks_singleton, ← receivedChunks_append]
    rfl
  have hafter : ({ t with work := work, index := t.index + 1 } : ServedTransport χ).pending
      = receivedChunks (head.entries.drop (t.index + 1) ++ t.link.stream) := by
    show receivedChunks ((match t.link.handover.handle with
      | .popped head => head.entries
      | .events head => head.entries.drop (t.index + 1)
      | _ => []) ++ t.link.stream) = _
    rw [hhandle]
  rw [hafter, hbefore, hincoming, show t.work.incoming = [] by rw [WorkState.incoming, hidle]; rfl,
    List.append_nil, List.append_assoc]

/-- `handle_thread` takes a step of its loop over a batch, while there is no pool. -/
theorem eventStep (h : ArrivalInv mem t arrived) {head : WcArray χ}
    (hhandle : t.link.handover.handle = .events head)
    (hstep : t.eventStep mem .unset head = some (.ok t')) : ArrivalInv mem t' arrived := by
  unfold ServedTransport.eventStep at hstep
  split at hstep
  · rename_i hidle
    split at hstep
    · rename_i hindex
      split at hstep
      · cases hstep
      · rename_i wc hentry
        split at hstep
        · cases hstep
        · split at hstep
          · -- a send is none of the chunks that arrive
            rename_i hopcode
            cases hstep
            refine h.handleEntry hhandle hidle hindex hentry ?_ fun _ => id
            rw [Wc.received, if_neg (by simp [hopcode]), WorkState.incoming, hidle]
            rfl
          · rename_i hopcode
            cases hlookup : t.work.lookupSection mem wc.byteLen wc.chunk with
            | error e =>
              rw [hlookup] at hstep
              cases hstep
            | ok work =>
              rw [hlookup] at hstep
              cases hstep
              refine h.handleEntry hhandle hidle hindex hentry ?_ fun stored hstored =>
                hstored.lookup hlookup
              obtain ⟨-, rfl⟩ := WorkState.lookupSection_ok hlookup
              rw [Wc.received, if_pos hopcode]
              rfl
          · cases hstep
    · -- the batch is through
      rename_i hindex
      rw [HandleState.handleStep, hhandle] at hstep
      cases hstep
      refine ⟨?_, fun _ => rfl, by simp, h.unstarted⟩
      obtain ⟨stored, rfl, hold⟩ := h.arrived
      refine ⟨stored, ?_, hold⟩
      rw [ServedTransport.pending, ServedTransport.batchRest, hhandle]
      show _ ++ receivedChunks (head.entries.drop t.index ++ _) = _
      rw [WcArray.drop_entries_of_le (not_lt.mp hindex)]
      rfl
  · obtain ⟨work, hwork, hend⟩ := map_bind_eq_ok.mp hstep
    cases hend
    refine ⟨?_, h.index, h.seen, h.unstarted⟩
    obtain ⟨stored, rfl, hold⟩ := h.arrived
    obtain ⟨hincoming, hstored⟩ := hold.handlerStep hwork
    refine ⟨_, ?_, hstored⟩
    show _ = stored ++ t.work.incoming ++ work.incoming ++ t.pending
    rw [hincoming, List.append_nil]

/-- `handle_thread` takes a step outside its loop over a batch, which takes nothing away. -/
theorem of_handover (h : ArrivalInv mem t arrived) {handover : HandleState (WcArray χ)}
    (hindex : t.index = 0) (hpending : ({ t with link := { t.link with
      handover := handover } } : ServedTransport χ).pending = t.pending)
    (hseen : ∀ head, handover.handle = .pop head →
      ∃ rest, handover.handleQuque = head :: rest) :
    ArrivalInv mem { t with link := { t.link with handover := handover } } arrived := by
  refine ⟨?_, fun _ => hindex, hseen, h.unstarted⟩
  obtain ⟨stored, rfl, hstored⟩ := h.arrived
  exact ⟨stored, by rw [hpending], hstored⟩

/-- `handle_thread` takes a step, while there is no pool. -/
theorem handleStep (h : ArrivalInv mem t arrived)
    (hstep : t.handleStep mem .unset = some (.ok t')) : ArrivalInv mem t' arrived := by
  unfold ServedTransport.handleStep at hstep
  split at hstep
  swap
  · cases hstep
  split at hstep
  · exact h.eventStep ‹_› hstep
  rename_i hnot
  have hindex := h.index fun head => hnot head
  obtain ⟨handover, hhandover, rfl⟩ := map_map_eq_ok.mp hstep
  unfold HandleState.handleStep at hhandover
  split at hhandover
  · rename_i hpeek
    split at hhandover
    · cases hhandover
      refine h.of_handover hindex ?_ (by simp)
      simp [ServedTransport.pending, ServedTransport.batchRest, LinkState.stream, hpeek]
    · -- the batch seen is the oldest
      rename_i head rest hqueue
      cases hhandover
      refine h.of_handover hindex ?_ ?_
      · simp [ServedTransport.pending, ServedTransport.batchRest, LinkState.stream, hpeek]
      · rintro _ ⟨⟩
        exact ⟨rest, hqueue⟩
  · rename_i hsleep
    cases hhandover
    refine h.of_handover hindex ?_ (by simp)
    simp [ServedTransport.pending, ServedTransport.batchRest, LinkState.stream, hsleep]
  · cases hhandover
  · rename_i hwoken
    cases hhandover
    refine h.of_handover hindex ?_ (by simp)
    simp [ServedTransport.pending, ServedTransport.batchRest, LinkState.stream, hwoken]
  · -- it comes from the queue into the hand
    rename_i head hpop
    cases hhandover
    obtain ⟨rest, hqueue⟩ := h.seen head hpop
    refine h.of_handover hindex ?_ (by simp)
    simp [ServedTransport.pending, ServedTransport.batchRest, LinkState.stream, hpop, hqueue]
  · rename_i head hpopped
    split at hhandover <;> cases hhandover
    refine h.of_handover hindex ?_ (by simp)
    simp [ServedTransport.pending, ServedTransport.batchRest, LinkState.stream, hpopped, hindex]
  · rename_i head hevents
    exact (hnot head hevents).elim

end ArrivalInv

end SparkRdma
