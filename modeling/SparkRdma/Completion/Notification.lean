import SparkRdma.Completion.HandleQueue
import SparkRdma.Foundations.NotifiedQueue
import SparkRdma.QueuePair.Credits

/-! # Polling on notification

`rdma_create_connect` makes a completion channel and a completion queue, arms the queue, starts
`poll_thread` and `handle_thread`, makes the queue pair and posts receives. `poll_thread` blocks for
an event, acknowledges it, arms the queue again and polls until it finds the queue empty, handing
each batch over to `handle_thread` in a `wc_array` of its own.

The machine `link` interleaves the two functions and `handle_thread`'s hand-over with completions
that land at any time once there is a queue pair. Calls of verbs and of the allocator answer as the
label says; an answer after which the code aborts, or follows a NULL pointer, is a fault.

* **`LinkInv`** — what holds of the queue at each program point of `poll_thread`.
* **`NothingMissed`** — `poll_thread` does not block in front of a completion; every completion
  added is polled or still queued, every one polled is pushed or in the array at hand, and every
  array pushed is popped or still on `handle_quque`, in order.
* **`poll_misses_nothing`** — both results, for every interleaving and every split into batches. -/

namespace SparkRdma

open Interleaving

/-! ### Work completions -/

/-- `enum ibv_wc_opcode`, as far as the code tells its members apart. -/
inductive WcOpcode
  /-- `IBV_WC_SEND`. -/
  | send
  /-- `IBV_WC_RECV`. -/
  | recv
  /-- Any other one. -/
  | other
  deriving DecidableEq, Repr

/-- `struct ibv_wc`. -/
structure Wc (χ : Type) where
  /-- The chunk of the `struct rdma_work_chunk` that `wr_id` points to. -/
  chunk : χ
  /-- Whether `status` is `IBV_WC_SUCCESS`. -/
  success : Bool
  /-- `opcode`. -/
  opcode : WcOpcode
  /-- `byte_len`. -/
  byteLen : UInt32
  deriving DecidableEq, Repr

/-- The array of completions in a `dynarray_t`. -/
structure WcArray (χ : Type) where
  /-- `len`. -/
  len : ℕ
  /-- `data`: the entries, `none` where they are still zero. -/
  data : List (Option (Wc χ))
  deriving DecidableEq, Repr

namespace WcArray

variable {χ : Type}

/-- `DYNARRY_MALLOC0(MAX_EVENT_PER_POLL * sizeof(struct ibv_wc))`. -/
def malloc0 (χ : Type) : WcArray χ := ⟨0, List.replicate maxEventPerPoll none⟩

/-- The array after `ibv_poll_cq` has written `polled` to its front and `len` is set. -/
def fill (arr : WcArray χ) (polled : List (Wc χ)) : WcArray χ where
  len := polled.length
  data := polled.map some ++ arr.data.drop polled.length

/-- The first `len` entries. -/
def entries (arr : WcArray χ) : List (Option (Wc χ)) := arr.data.take arr.len

/-- A filled array has the polled completions as its entries. -/
@[simp] theorem entries_fill (arr : WcArray χ) (polled : List (Wc χ)) :
    (arr.fill polled).entries = polled.map some := by
  rw [entries, fill]
  exact List.take_left' (List.length_map ..)

end WcArray

/-! ### Posting receives -/

/-- What a call answers. -/
inductive Answer
  /-- It runs a section of its own, and is not back yet. -/
  | pending
  /-- It returns an `int`. -/
  | ret (r : ℤ)
  /-- It returns a pointer. -/
  | pointer (notNull : Bool)
  deriving DecidableEq, Repr

/-- The program points of `rdma_transport_recv` and `rdma_transport_recv_with_num`. -/
inductive RecvPc
  /-- `rdma_transport_recv`, about to allocate the work chunk. -/
  | malloc
  /-- It is in `get_rdma_chunk_from_pool`. -/
  | getChunk
  /-- It is about to post the receive. -/
  | post
  /-- `rdma_transport_recv_with_num` is in `get_rdma_chunk_list_from_pool`. -/
  | getChunkList (num : UInt32)
  /-- It is about to allocate its two tables. -/
  | calloc (num : UInt32)
  /-- It is about to allocate the work chunks. -/
  | mallocs (num : UInt32)
  /-- It is in its loop of posts, with so many turns left. -/
  | posts (left : ℕ)
  deriving DecidableEq, Repr

namespace RecvPc

/-- Where a call starts; neither thread here makes a send. -/
def enter : PostCall → Option RecvPc
  | .recv => some .malloc
  | .recvWithNum num => some (.getChunkList num)
  | .send _ => none

/-- The next step of a call: where it is then, or `none` when it has returned. -/
def step : RecvPc → Answer → Option (Except CFault (Option RecvPc))
  | malloc, .pointer notNull =>
      some (if notNull then .ok (some getChunk) else .error .assertion)
  | getChunk, .pending => some (.ok (some getChunk))
  -- without a chunk it returns -1, which nobody looks at
  | getChunk, .pointer notNull => some (.ok (if notNull then some post else none))
  | post, .ret _ => some (.ok none)
  | getChunkList num, .pending => some (.ok (some (getChunkList num)))
  | getChunkList num, .pointer notNull =>
      -- the pool gives NULL when it is asked for nothing
      some (if notNull ∧ num ≠ 0 then .ok (some (calloc num)) else .error .assertion)
  | calloc num, .pointer notNull =>
      some (if notNull then .ok (some (mallocs num)) else .error .nullDeref)
  | mallocs num, .pointer notNull =>
      some (if notNull then .ok (some (posts num.toNat)) else .error .assertion)
  | posts 0, _ => some (.ok none)
  | posts (left + 1), .ret r => some (if r < 0 then .error .abort else .ok (some (posts left)))
  | _, _ => none

end RecvPc

/-! ### The threads of a connection -/

/-- The program points of `rdma_create_connect`. -/
inductive CreatePc
  /-- About to make the two queues with their locks. -/
  | queues
  /-- At `ibv_create_comp_channel`. -/
  | channel
  /-- At `ibv_create_cq`. -/
  | cq
  /-- At `ibv_req_notify_cq`. -/
  | reqNotify
  /-- About to start `poll_thread`. -/
  | pollThread
  /-- About to start `handle_thread`. -/
  | handleThread
  /-- At `ibv_create_qp`. -/
  | qp
  /-- At `modify_qp_to_init`. -/
  | modifyInit
  /-- In `rdma_transport_recv_with_num`. -/
  | recv (pc : RecvPc)
  /-- It has returned. -/
  | created
  deriving DecidableEq, Repr

/-- The program points of `poll_thread`. -/
inductive PollThreadPc (χ : Type)
  /-- Not started. -/
  | notStarted
  /-- Before the loop. -/
  | start
  /-- At `ibv_get_cq_event`. -/
  | getEvent
  /-- At `ibv_ack_cq_events`. -/
  | ack
  /-- At `ibv_req_notify_cq`. -/
  | reqNotify
  /-- About to allocate the next array. -/
  | alloc
  /-- At `ibv_poll_cq`. -/
  | pollCq
  /-- In the loop over the array, at the entry `i`. -/
  | turn (arr : WcArray χ) (i : ℕ)
  /-- There, posting receives. -/
  | recv (arr : WcArray χ) (i : ℕ) (pc : RecvPc)
  /-- About to push the array. -/
  | push (arr : WcArray χ)
  /-- About to enter the section that wakes `handle_thread`. -/
  | signal
  deriving DecidableEq, Repr

/-- The array `poll_thread` has filled and not yet pushed. -/
def PollThreadPc.inHand {χ : Type} : PollThreadPc χ → List (Option (Wc χ))
  | turn arr _ | recv arr _ _ | push arr => arr.entries
  | _ => []

/-- A connection between `rdma_create_connect` and its two threads. -/
structure LinkState (χ : Type) where
  /-- The completion queue and its channel. -/
  cq : NotifiedQueue (Wc χ)
  /-- The program point of `rdma_create_connect`. -/
  create : CreatePc
  /-- The program point of `poll_thread`. -/
  poll : PollThreadPc χ
  /-- Whether `handle_thread` was started. -/
  handleStarted : Bool
  /-- The queue of batches and `handle_thread`. -/
  handover : HandleState (WcArray χ)
  deriving DecidableEq

/-- The steps. -/
inductive LinkAct (χ : Type)
  /-- A completion is added. -/
  | add (wc : Wc χ)
  /-- `rdma_create_connect` takes its next step. -/
  | create (answer : Answer)
  /-- `poll_thread` takes its next step. -/
  | poll (answer : Answer)
  /-- `handle_thread` takes its next step. -/
  | handle
  /-- `pthread_cond_wait` returns without a signal. -/
  | spurious
  deriving DecidableEq

variable {χ : Type} {mem : χ → RdmaChunk}

/-- What `poll_thread` does about the receives for an entry of the array. A zero entry looks like a
send. -/
def replenish (mem : χ → RdmaChunk) : Option (Wc χ) → Option RecvPc
  | none => none
  | some wc =>
      if wc.opcode = .recv then (replenishFor (mem wc.chunk).header).bind RecvPc.enter else none

namespace LinkState

/-- A connection before `rdma_create_connect` is called. -/
def start : LinkState χ := ⟨.empty, .queues, .notStarted, false, .start (WcArray χ)⟩

/-- There is a queue pair, whose requests can complete. -/
def HasQp (s : LinkState χ) : Prop :=
  match s.create with
  | .modifyInit | .recv _ | .created => True
  | _ => False

instance (s : LinkState χ) : Decidable s.HasQp := by
  unfold HasQp
  split <;> infer_instance

/-- The next step of `rdma_create_connect`. -/
def createStep (s : LinkState χ) (answer : Answer) : Option (Except CFault (LinkState χ)) :=
  match s.create, answer with
  | .queues, .pending => some (.ok { s with create := .channel })
  | .channel, .pointer notNull =>
      some (if notNull then .ok { s with create := .cq } else .error .assertion)
  | .cq, .pointer notNull =>
      some (if notNull then .ok { s with create := .reqNotify } else .error .assertion)
  | .reqNotify, .ret r =>
      some (if r < 0 then .error .abort
        else .ok { s with cq := if r = 0 then s.cq.arm else s.cq, create := .pollThread })
  -- `create_thread` takes a positive error number for success
  | .pollThread, .ret r =>
      some (if r < 0 then .error .abort
        else .ok { s with poll := if r = 0 then .start else s.poll, create := .handleThread })
  | .handleThread, .ret r =>
      some (if r < 0 then .error .abort else .ok { s with handleStarted := r = 0, create := .qp })
  | .qp, .pointer notNull =>
      some (if notNull then .ok { s with create := .modifyInit } else .error .assertion)
  | .modifyInit, .ret r =>
      some (if r < 0 then .error .abort
        else .ok { s with create := .recv (.getChunkList maxPreRecvQp) })
  | .recv pc, answer => (pc.step answer).map (Except.map fun next =>
      { s with create := next.elim .created .recv })
  | _, _ => none

/-- The next step of `poll_thread`. -/
def pollStep (mem : χ → RdmaChunk) (s : LinkState χ) (answer : Answer) :
    Option (Except CFault (LinkState χ)) :=
  match s.poll, answer with
  | .start, .pending => some (.ok { s with poll := .getEvent })
  | .getEvent, .ret r =>
      if r < 0 then some (.error .abort)
      -- it blocks until there is an event
      else if 0 < s.cq.events then some (.ok { s with cq := s.cq.takeEvent, poll := .ack })
      else none
  | .ack, .pending => some (.ok { s with cq := s.cq.ack, poll := .reqNotify })
  | .reqNotify, .ret r =>
      some (if r < 0 then .error .abort
        else .ok { s with cq := if r = 0 then s.cq.arm else s.cq, poll := .alloc })
  | .alloc, .pointer notNull =>
      some (if notNull then .ok { s with poll := .pollCq } else .error .nullDeref)
  | .pollCq, .ret r =>
      if r < 0 then some (.error .abort)
      else if r = 0 then
        -- it finds nothing only if there is nothing
        if s.cq.items = [] then some (.ok { s with poll := .getEvent }) else none
      else if r.toNat ≤ maxEventPerPoll ∧ r.toNat ≤ s.cq.items.length then some (.ok { s with
        cq := s.cq.drain r.toNat
        poll := .turn ((WcArray.malloc0 χ).fill (s.cq.items.take r.toNat)) 0 })
      else none
  | .turn arr i, .pending =>
      if i < arr.len then some (.ok { s with
        poll :=
          match replenish mem (arr.data[i]?).join with
          | some pc => .recv arr i pc
          | none => .turn arr (i + 1) })
      else some (.ok { s with poll := .push arr })
  | .recv arr i pc, answer => (pc.step answer).map (Except.map fun next =>
      { s with poll := next.elim (.turn arr (i + 1)) (.recv arr i) })
  | .push arr, .pending => some (.ok { s with
      handover := s.handover.pushBatch arr
      poll := .signal })
  | .signal, .pending => some (.ok { s with
      handover := s.handover.signalSection
      -- the array was not empty, so the loop goes round
      poll := .alloc })
  | _, _ => none

end LinkState

/-- One step. -/
def linkStep (mem : χ → RdmaChunk) (s : LinkState χ) :
    LinkAct χ → Option (Except CFault (LinkState χ))
  | .add wc => if s.HasQp then some (.ok { s with cq := s.cq.add wc }) else none
  | .create answer => s.createStep answer
  | .poll answer => s.pollStep mem answer
  | .handle =>
      if s.handleStarted then
        s.handover.handleStep.map (Except.map fun handover => { s with handover := handover })
      else none
  | .spurious =>
      (handleQueueStep s.handover .spurious).map (Except.map fun handover =>
        { s with handover := handover })

/-- A connection from the call of `rdma_create_connect` on, with the chunks as in `mem`. -/
def link (mem : χ → RdmaChunk) : Machine (LinkState χ) CFault (LinkAct χ) where
  init := .start
  step := linkStep mem

/-! ### What is promised -/

/-- What was seen of a connection. -/
structure LinkHistory (χ : Type) where
  /-- The completions added to the queue. -/
  added : List (Wc χ)
  /-- The completions polled. -/
  polled : List (Wc χ)
  /-- The arrays pushed on `handle_quque`. -/
  pushed : List (WcArray χ)
  /-- The arrays popped from it. -/
  popped : List (WcArray χ)
  deriving DecidableEq

/-- What the next step of `handle_thread` pops. -/
def HandleState.popping {β : Type*} (s : HandleState β) : List β :=
  match s.handle with
  | .pop _ => s.handleQuque.take 1
  | _ => []

namespace LinkState

/-- The condition on a step that `ibv_req_notify_cq` arms the queue, or returns a negative value. -/
def Arms (s : LinkState χ) : LinkAct χ → Prop
  | .create (.ret r) => s.create = .reqNotify → r ≤ 0
  | .poll (.ret r) => s.poll = .reqNotify → r ≤ 0
  | _ => True

instance [DecidableEq χ] (s : LinkState χ) (a : LinkAct χ) : Decidable (s.Arms a) := by
  unfold Arms
  split <;> infer_instance

/-- What a step adds to the history. -/
def noteLink (s : LinkState χ) (a : LinkAct χ) (h : LinkHistory χ) : LinkHistory χ :=
  match a with
  | .add wc => { h with added := h.added ++ [wc] }
  | .poll answer =>
      match s.poll, answer with
      | .pollCq, .ret r => { h with polled := h.polled ++ s.cq.items.take r.toNat }
      | .push arr, _ => { h with pushed := h.pushed ++ [arr] }
      | _, _ => h
  | .handle => { h with popped := h.popped ++ s.handover.popping }
  | _ => h

end LinkState

/-- A connection with its history. -/
def observedLink (mem : χ → RdmaChunk) :
    Machine (LinkState χ × LinkHistory χ) CFault (LinkAct χ) :=
  (link mem).recording ⟨[], [], [], []⟩ LinkState.noteLink

/-- Nothing is missed: when `poll_thread` is at `ibv_get_cq_event`, the queue is empty or an event
is pending; and what was added was polled or is queued, what was polled is in the arrays pushed and
the one at hand, and what was pushed was popped or is on `handle_quque`, in order. -/
structure NothingMissed (s : LinkState χ) (h : LinkHistory χ) : Prop where
  /-- It does not block in front of a completion that no event announces. -/
  blocked : s.poll = .getEvent → s.cq.items = [] ∨ 0 < s.cq.events
  /-- No completion is lost or duplicated in the queue. -/
  added : h.added = h.polled ++ s.cq.items
  /-- No completion is lost or duplicated on the way to `handle_quque`. -/
  polled : h.polled.map some = h.pushed.flatMap WcArray.entries ++ s.poll.inHand
  /-- No array is lost or duplicated there. -/
  pushed : h.pushed = h.popped ++ s.handover.handleQuque

/-! ### The invariant -/

/-- `rdma_create_connect` has armed the queue. -/
def CreatePc.Armed : CreatePc → Prop
  | queues | channel | cq | reqNotify => False
  | _ => True

/-- `rdma_create_connect` is behind the start of `poll_thread`. -/
def CreatePc.PollStarted : CreatePc → Prop
  | pollThread => False
  | pc => pc.Armed

/-- What holds of the queue at the program points of `poll_thread`: it is settled where the thread
may block, and watched from the arming on, until the last look settles it. -/
def PollThreadPc.QueueInv (q : NotifiedQueue (Wc χ)) : PollThreadPc χ → Prop
  | notStarted | start | getEvent => q.Settled
  | ack | reqNotify => True
  | _ => q.Watched

/-- A completion that lands between any two steps does no harm. -/
theorem PollThreadPc.QueueInv.add {q : NotifiedQueue (Wc χ)} {pc : PollThreadPc χ}
    (h : pc.QueueInv q) (wc : Wc χ) : pc.QueueInv (q.add wc) := by
  cases pc with
  | notStarted | start | getEvent => exact NotifiedQueue.Settled.add h wc
  | ack | reqNotify => trivial
  | alloc | pollCq | turn arr i | recv arr i pc | push arr | signal =>
    exact .inr (NotifiedQueue.Watched.add h wc)

/-- What a step of `poll_thread` does to the completions on their way to `handle_thread`. -/
inductive PollEffect (s s' : LinkState χ) (answer : Answer) : Prop
  /-- Nothing. -/
  | quiet (hitems : s'.cq.items = s.cq.items) (hhand : s'.poll.inHand = s.poll.inHand)
      (hhandover : s'.handover = s.handover) (hnote : ∀ h, s.noteLink (.poll answer) h = h)
  /-- It takes some off the queue. -/
  | polled (polled : List (Wc χ)) (hitems : s.cq.items = polled ++ s'.cq.items)
      (hbefore : s.poll.inHand = []) (hhand : s'.poll.inHand = polled.map some)
      (hhandover : s'.handover = s.handover)
      (hnote : ∀ h, s.noteLink (.poll answer) h = { h with polled := h.polled ++ polled })
  /-- It pushes the array at hand. -/
  | pushed (arr : WcArray χ) (hitems : s'.cq.items = s.cq.items)
      (hbefore : s.poll.inHand = arr.entries) (hhand : s'.poll.inHand = [])
      (hhandover : s'.handover = s.handover.pushBatch arr)
      (hnote : ∀ h, s.noteLink (.poll answer) h = { h with pushed := h.pushed ++ [arr] })
  /-- It wakes `handle_thread`. -/
  | signalled (hitems : s'.cq.items = s.cq.items) (hhand : s'.poll.inHand = s.poll.inHand)
      (hhandover : s'.handover = s.handover.signalSection)
      (hnote : ∀ h, s.noteLink (.poll answer) h = h)

/-- A step of `poll_thread` that only moves it on, or touches the notifications. -/
theorem PollEffect.of_quiet {s : LinkState χ} {answer : Answer} {cq : NotifiedQueue (Wc χ)}
    {poll : PollThreadPc χ} (hitems : cq.items = s.cq.items) (hhand : poll.inHand = s.poll.inHand)
    (hpollCq : s.poll ≠ .pollCq) (hpush : ∀ arr, s.poll ≠ .push arr) :
    PollEffect s { s with cq := cq, poll := poll } answer := by
  refine .quiet hitems hhand rfl fun h => ?_
  unfold LinkState.noteLink
  cases hpoll : s.poll with
  | pollCq => exact (hpollCq hpoll).elim
  | push arr => exact (hpush arr hpoll).elim
  | _ => rfl

/-- **What a step of `poll_thread` does**, and that it leaves the queue as its next program point
requires. -/
theorem pollStep_spec {s s' : LinkState χ} {answer : Answer}
    (hstep : s.pollStep mem answer = some (.ok s')) :
    PollEffect s s' answer ∧ s.poll ≠ .notStarted ∧ s'.create = s.create ∧
      (s.Arms (.poll answer) → s.poll.QueueInv s.cq → s'.poll.QueueInv s'.cq) := by
  unfold LinkState.pollStep at hstep
  split at hstep
  · rename_i hpoll
    cases hstep
    rw [hpoll]
    exact ⟨.of_quiet rfl (by rw [hpoll]; rfl) (by simp [hpoll]) (by simp [hpoll]), nofun, rfl,
      fun _ => id⟩
  · rename_i r hpoll
    rw [hpoll]
    split at hstep
    · cases hstep
    · split at hstep <;> cases hstep
      exact ⟨.of_quiet rfl (by rw [hpoll]; rfl) (by simp [hpoll]) (by simp [hpoll]), nofun, rfl,
        fun _ _ => trivial⟩
  · rename_i hpoll
    cases hstep
    rw [hpoll]
    exact ⟨.of_quiet rfl (by rw [hpoll]; rfl) (by simp [hpoll]) (by simp [hpoll]), nofun, rfl,
      fun _ _ => trivial⟩
  · -- the queue is armed before the last look
    rename_i r hpoll
    rw [hpoll]
    split at hstep <;> cases hstep
    refine ⟨.of_quiet (by split <;> rfl) (by rw [hpoll]; rfl) (by simp [hpoll]) (by simp [hpoll]),
      nofun, rfl, fun harms _ => ?_⟩
    obtain rfl : r = 0 := le_antisymm (harms hpoll) (by omega)
    exact s.cq.watched_arm
  · rename_i notNull hpoll
    rw [hpoll]
    split at hstep <;> cases hstep
    exact ⟨.of_quiet rfl (by rw [hpoll]; rfl) (by simp [hpoll]) (by simp [hpoll]), nofun, rfl,
      fun _ => id⟩
  · rename_i r hpoll
    rw [hpoll]
    split at hstep
    · cases hstep
    · split at hstep
      · -- the last look finds nothing, so it may block
        rename_i hzero
        subst hzero
        split at hstep <;> cases hstep
        rename_i hempty
        refine ⟨.quiet rfl (by rw [hpoll]; rfl) rfl fun h => ?_, nofun, rfl, fun _ hqueue =>
          NotifiedQueue.Settled.of_watched hqueue hempty⟩
        simp [LinkState.noteLink, hpoll]
      · -- what it takes off the queue is what the array has
        split at hstep <;> cases hstep
        refine ⟨.polled (s.cq.items.take r.toNat) (List.take_append_drop ..).symm
          (by rw [hpoll]; rfl) (WcArray.entries_fill ..) rfl fun h => ?_, nofun, rfl, fun _ => id⟩
        simp [LinkState.noteLink, hpoll]
  · rename_i arr i hpoll
    rw [hpoll]
    split at hstep <;> cases hstep
    · refine ⟨.of_quiet rfl ?_ (by simp [hpoll]) (by simp [hpoll]), nofun, rfl, fun _ => ?_⟩
      · rw [hpoll]
        split <;> rfl
      · split <;> exact id
    · exact ⟨.of_quiet rfl (by rw [hpoll]; rfl) (by simp [hpoll]) (by simp [hpoll]), nofun, rfl,
        fun _ => id⟩
  · rename_i arr i pc hpoll
    obtain ⟨next, -, rfl⟩ := map_map_eq_ok.mp hstep
    rw [hpoll]
    refine ⟨.of_quiet rfl ?_ (by simp [hpoll]) (by simp [hpoll]), nofun, rfl, fun _ => ?_⟩
    · rw [hpoll]
      cases next <;> rfl
    · cases next <;> exact id
  · -- the array goes from the hand to the queue
    rename_i arr hpoll
    cases hstep
    rw [hpoll]
    refine ⟨.pushed arr rfl (by rw [hpoll]; rfl) rfl rfl fun h => ?_, nofun, rfl, fun _ => id⟩
    simp [LinkState.noteLink, hpoll]
  · rename_i hpoll
    cases hstep
    rw [hpoll]
    refine ⟨.signalled rfl (by rw [hpoll]; rfl) rfl fun h => ?_, nofun, rfl, fun _ => id⟩
    simp [LinkState.noteLink, hpoll]
  · cases hstep

/-- The section that wakes `handle_thread` leaves the queue alone. -/
@[simp] theorem HandleState.handleQuque_signalSection {β : Type*} (h : HandleState β) :
    h.signalSection.handleQuque = h.handleQuque := by
  unfold HandleState.signalSection HandleState.condSignal
  split
  · cases h.handle <;> rfl
  · rfl

/-- What a step of `handle_thread` pops is the head of the queue. -/
theorem HandleState.popping_append_handleQuque {β : Type*} {s s' : HandleState β}
    (hstep : s.handleStep = some (.ok s')) : s.popping ++ s'.handleQuque = s.handleQuque := by
  unfold HandleState.handleStep at hstep
  unfold HandleState.popping
  cases hpc : s.handle with
  | peek =>
    simp only [hpc] at hstep
    split at hstep <;> cases hstep <;> rfl
  | pop head =>
    simp only [hpc] at hstep
    cases hstep
    rw [← List.drop_one]
    exact List.take_append_drop 1 s.handleQuque
  | popped head =>
    simp only [hpc] at hstep
    split at hstep <;> cases hstep
    rfl
  | blocked =>
    simp only [hpc] at hstep
    cases hstep
  | sleep | woken | events head =>
    simp only [hpc] at hstep
    cases hstep
    rfl

/-- What every step preserves. -/
structure LinkInv (s : LinkState χ) (h : LinkHistory χ) : Prop where
  /-- Before the queue is armed there is nothing in it. -/
  unarmed : ¬ s.create.Armed → s.cq = .empty
  /-- Before `poll_thread` is started it does nothing. -/
  unstarted : ¬ s.create.PollStarted → s.poll = .notStarted
  /-- After that it is as the program point of `poll_thread` requires. -/
  queue : s.create.Armed → s.poll.QueueInv s.cq
  /-- No completion is lost or duplicated in the queue. -/
  added : h.added = h.polled ++ s.cq.items
  /-- No completion is lost or duplicated on the way to `handle_quque`. -/
  polled : h.polled.map some = h.pushed.flatMap WcArray.entries ++ s.poll.inHand
  /-- No array is lost or duplicated there. -/
  pushed : h.pushed = h.popped ++ s.handover.handleQuque

namespace LinkInv

variable {s s' : LinkState χ} {h : LinkHistory χ} {answer : Answer}

/-- A completion is added. -/
theorem add (hinv : LinkInv s h) (hqp : s.HasQp) (wc : Wc χ) :
    LinkInv { s with cq := s.cq.add wc } { h with added := h.added ++ [wc] } where
  unarmed := by
    intro harmed
    unfold LinkState.HasQp at hqp
    unfold CreatePc.Armed at harmed
    cases hcreate : s.create <;> simp_all
  unstarted := hinv.unstarted
  queue := fun harmed => (hinv.queue harmed).add wc
  added := by
    show h.added ++ [wc] = h.polled ++ (s.cq.items ++ [wc])
    rw [hinv.added, List.append_assoc]
  polled := hinv.polled
  pushed := hinv.pushed

/-- `rdma_create_connect` takes a step that leaves the queue and `poll_thread` alone. -/
theorem create_same (hinv : LinkInv s h) {create : CreatePc} {handleStarted : Bool}
    (harmed : create.Armed ↔ s.create.Armed)
    (hstarted : create.PollStarted ↔ s.create.PollStarted) :
    LinkInv { s with create := create, handleStarted := handleStarted } h where
  unarmed := fun hnot => hinv.unarmed (mt harmed.mpr hnot)
  unstarted := fun hnot => hinv.unstarted (mt hstarted.mpr hnot)
  queue := fun hyes => hinv.queue (harmed.mp hyes)
  added := hinv.added
  polled := hinv.polled
  pushed := hinv.pushed

/-- `rdma_create_connect` takes a step. -/
theorem createStep (hinv : LinkInv s h) (harms : s.Arms (.create answer))
    (hstep : s.createStep answer = some (.ok s')) : LinkInv s' h := by
  unfold LinkState.createStep at hstep
  split at hstep
  · rename_i hcreate
    cases hstep
    exact hinv.create_same (by rw [hcreate]; exact Iff.rfl) (by rw [hcreate]; exact Iff.rfl)
  · rename_i hcreate
    split at hstep <;> cases hstep
    exact hinv.create_same (by rw [hcreate]; exact Iff.rfl) (by rw [hcreate]; exact Iff.rfl)
  · rename_i hcreate
    split at hstep <;> cases hstep
    exact hinv.create_same (by rw [hcreate]; exact Iff.rfl) (by rw [hcreate]; exact Iff.rfl)
  · -- the queue is armed while it is empty, and nobody polls it yet
    rename_i r hcreate
    split at hstep <;> cases hstep
    have hcq := hinv.unarmed (by rw [hcreate]; exact not_false)
    have hpoll := hinv.unstarted (by rw [hcreate]; exact not_false)
    obtain rfl : r = 0 := le_antisymm (harms hcreate) (by omega)
    have hqueue : s.poll.QueueInv s.cq.arm := by
      rw [hcq, hpoll]
      exact NotifiedQueue.settled_arm_empty
    exact ⟨fun hnot => (hnot trivial).elim, fun _ => hpoll, fun _ => hqueue, hinv.added,
      hinv.polled, hinv.pushed⟩
  · -- `poll_thread` may start where it may block
    rename_i r hcreate
    split at hstep <;> cases hstep
    have hqueue := hinv.queue (by rw [hcreate]; trivial)
    have hpolled := hinv.polled
    rw [hinv.unstarted (by rw [hcreate]; exact not_false)] at hqueue hpolled ⊢
    refine ⟨fun hnot => (hnot trivial).elim, fun hnot => (hnot trivial).elim, fun _ => ?_,
      hinv.added, ?_, hinv.pushed⟩
    · show (if r = 0 then PollThreadPc.start else .notStarted).QueueInv s.cq
      split <;> exact hqueue
    · show _ = _ ++ (if r = 0 then PollThreadPc.start else .notStarted).inHand
      split <;> exact hpolled
  · rename_i hcreate
    split at hstep <;> cases hstep
    exact hinv.create_same (by rw [hcreate]; exact Iff.rfl) (by rw [hcreate]; exact Iff.rfl)
  · rename_i hcreate
    split at hstep <;> cases hstep
    exact hinv.create_same (by rw [hcreate]; exact Iff.rfl) (by rw [hcreate]; exact Iff.rfl)
  · rename_i hcreate
    split at hstep <;> cases hstep
    exact hinv.create_same (by rw [hcreate]; exact Iff.rfl) (by rw [hcreate]; exact Iff.rfl)
  · rename_i pc answer hcreate
    obtain ⟨next, -, rfl⟩ := map_map_eq_ok.mp hstep
    refine hinv.create_same ?_ ?_ <;> rw [hcreate] <;> cases next <;> exact Iff.rfl
  · cases hstep

/-- When `poll_thread` runs, `rdma_create_connect` has started it. -/
theorem started (hinv : LinkInv s h) (hstarted : s.poll ≠ .notStarted) :
    s.create.PollStarted ∧ s.create.Armed := by
  have hyes : s.create.PollStarted := by
    by_contra hnot
    exact hstarted (hinv.unstarted hnot)
  refine ⟨hyes, ?_⟩
  unfold CreatePc.PollStarted at hyes
  split at hyes
  · exact hyes.elim
  · exact hyes

/-- `poll_thread` takes a step. -/
theorem pollStep (hinv : LinkInv s h) (harms : s.Arms (.poll answer))
    (hstep : s.pollStep mem answer = some (.ok s')) :
    LinkInv s' (s.noteLink (.poll answer) h) := by
  obtain ⟨heffect, hrunning, hcreate, hqueue⟩ := pollStep_spec hstep
  obtain ⟨hstarted, harmed⟩ := hinv.started hrunning
  have hadded := hinv.added
  have hpolled := hinv.polled
  have hpushed := hinv.pushed
  refine ⟨fun hnot => (hnot (hcreate ▸ harmed)).elim, fun hnot => (hnot (hcreate ▸ hstarted)).elim,
    fun _ => hqueue harms (hinv.queue harmed), ?_, ?_, ?_⟩
  · cases heffect with
    | quiet hitems hhand hhandover hnote | signalled hitems hhand hhandover hnote =>
      rw [hnote, hitems, hadded]
    | polled polled hitems hbefore hhand hhandover hnote =>
      rw [hnote, hadded, hitems, List.append_assoc]
    | pushed arr hitems hbefore hhand hhandover hnote => rw [hnote, hitems, hadded]
  · cases heffect with
    | quiet hitems hhand hhandover hnote | signalled hitems hhand hhandover hnote =>
      rw [hnote, hhand, hpolled]
    | polled polled hitems hbefore hhand hhandover hnote =>
      rw [hnote, hhand, List.map_append, hpolled, hbefore, List.append_nil]
    | pushed arr hitems hbefore hhand hhandover hnote =>
      rw [hnote, hhand, hpolled, hbefore, List.append_nil, List.flatMap_append,
        List.flatMap_singleton]
  · cases heffect with
    | quiet hitems hhand hhandover hnote | polled polled hitems hbefore hhand hhandover hnote =>
      rw [hnote, hhandover, hpushed]
    | pushed arr hitems hbefore hhand hhandover hnote =>
      rw [hnote, hhandover, hpushed, HandleState.pushBatch, List.append_assoc]
    | signalled hitems hhand hhandover hnote =>
      rw [hnote, hhandover, HandleState.handleQuque_signalSection, hpushed]

/-- `handle_thread` takes a step. -/
theorem handleStep (hinv : LinkInv s h) {handover : HandleState (WcArray χ)}
    (hstep : s.handover.handleStep = some (.ok handover)) :
    LinkInv { s with handover := handover } (s.noteLink .handle h) where
  unarmed := hinv.unarmed
  unstarted := hinv.unstarted
  queue := hinv.queue
  added := hinv.added
  polled := hinv.polled
  pushed := by
    show h.pushed = (h.popped ++ s.handover.popping) ++ handover.handleQuque
    rw [hinv.pushed, List.append_assoc, HandleState.popping_append_handleQuque hstep]

/-- `handle_thread` returns from its wait. -/
theorem spurious (hinv : LinkInv s h) {handover : HandleState (WcArray χ)}
    (hstep : handleQueueStep s.handover .spurious = some (.ok handover)) :
    LinkInv { s with handover := handover } h := by
  simp only [handleQueueStep] at hstep
  split at hstep <;> cases hstep
  exact { hinv with }

/-- **One step keeps the invariant.** -/
theorem step (hinv : LinkInv s h) {a : LinkAct χ} {next : LinkState χ × LinkHistory χ}
    (harms : s.Arms a) (hstep : (observedLink mem).step (s, h) a = some (.ok next)) :
    LinkInv next.1 next.2 := by
  obtain ⟨s', hs', rfl⟩ := map_map_eq_ok.mp hstep
  show LinkInv s' (s.noteLink a h)
  simp only [link] at hs'
  cases a with
  | add wc =>
    simp only [linkStep] at hs'
    split at hs' <;> cases hs'
    exact hinv.add ‹_› wc
  | create answer => exact hinv.createStep harms hs'
  | poll answer => exact hinv.pollStep harms hs'
  | handle =>
    simp only [linkStep] at hs'
    split at hs'
    · obtain ⟨handover, hhandover, rfl⟩ := map_map_eq_ok.mp hs'
      exact hinv.handleStep hhandover
    · cases hs'
  | spurious =>
    obtain ⟨handover, hhandover, rfl⟩ := map_map_eq_ok.mp hs'
    exact hinv.spurious hhandover

/-- Before the first step. -/
theorem init (mem : χ → RdmaChunk) : LinkInv (link mem).init ⟨[], [], [], []⟩ :=
  ⟨fun _ => rfl, fun _ => rfl, fun harmed => harmed.elim, rfl, rfl, rfl⟩

/-- What the invariant says where it is asked for. -/
theorem nothingMissed (hinv : LinkInv s h) : NothingMissed s h where
  blocked := by
    intro hpoll
    have hstarted : s.poll ≠ .notStarted := by simp [hpoll]
    have hqueue := hinv.queue (hinv.started hstarted).2
    rw [hpoll] at hqueue
    exact NotifiedQueue.Settled.empty_or_event hqueue
  added := hinv.added
  polled := hinv.polled
  pushed := hinv.pushed

end LinkInv

/-- **No completion is missed, lost or duplicated.** For every interleaving of completions with the
steps of `rdma_create_connect`, `poll_thread` and `handle_thread`, and for every split of what is
queued into batches: `poll_thread` does not block in front of a completion that no event announces,
and the first `len` entries of the arrays it pushes on `handle_quque` are the completions it polled,
in order. -/
theorem poll_misses_nothing {s : LinkState χ} {h : LinkHistory χ}
    (hs : (observedLink mem).ReachableUnder (fun s a => s.1.Arms a) (s, h)) :
    NothingMissed s h := by
  have hinv : ∀ t : LinkState χ × LinkHistory χ,
      (observedLink mem).ReachableUnder (fun s a => s.1.Arms a) t → LinkInv t.1 t.2 := by
    intro t ht
    induction ht with
    | init => exact .init mem
    | next _ harms hstep ih => exact ih.step harms hstep
  exact (hinv _ hs).nothingMissed

/-- A send completes as soon as there is a queue pair: `poll_thread` pushes it, finds the queue
empty and blocks; `handle_thread` pops it. -/
theorem poll_misses_nothing_oneSend : ∃ (s : LinkState Unit) (h : LinkHistory Unit),
    s.poll = .getEvent ∧ h.popped.length = 1 ∧ NothingMissed s h := by
  let wc : Wc Unit := ⟨(), true, .send, 0⟩
  let arr : WcArray Unit := (WcArray.malloc0 Unit).fill [wc]
  have hs : (observedLink fun _ : Unit => RdmaChunk.blank).ReachableUnder (fun s a => s.1.Arms a)
      (⟨⟨[], true, 0, 0⟩, .modifyInit, .getEvent, true, ⟨[], 1, .polling, .popped arr⟩⟩,
        ⟨[wc], [wc], [arr], [arr]⟩) := by
    -- up to the queue pair, the completion, one round of `poll_thread`, and the pop
    refine Machine.reachableUnder_of_exec
      [.create .pending, .create (.pointer true), .create (.pointer true), .create (.ret 0),
        .create (.ret 0), .create (.ret 0), .create (.pointer true), .add wc, .poll .pending,
        .poll (.ret 0), .poll .pending, .poll (.ret 0), .poll (.pointer true), .poll (.ret 1),
        .poll .pending, .poll .pending, .poll .pending, .poll .pending, .poll (.pointer true),
        .poll (.ret 0), .handle, .handle] .init ?_
    rfl
  exact ⟨_, _, rfl, rfl, poll_misses_nothing hs⟩

end SparkRdma
