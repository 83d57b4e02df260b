import SparkRdma.Server.Transport

/-! # The server

`init_server` sets up the listening socket, starts `accept_thread` and then makes the pool of
worker threads. `accept_thread` makes the transports of the peers that connect, each with two
threads of its own. `destroy_server` frees the pool, shuts down every transport of the table, stops
`accept_thread`'s socket and destroys the context.

The machine `server` interleaves all of them. Peers that the table takes for one key are one peer
here. `pthread_kill` makes a signal pending, on which the thread may leave before any of its steps.

* **`serverStep`** — the machine.
* **`touched`** — the objects a step of `poll_thread`, `handle_thread` or `accept_thread` uses, of
  those that `destroy_server` frees.
* **`acceptStep_spec`**, **`destroyStep_spec`** — what a step of either can change.
* **`firstConnection_reachable`** — a server with one connection. -/

namespace SparkRdma

open Interleaving

/-- What `destroy_server` frees or destroys. -/
inductive ServerObject (P : Type)
  /-- The `struct rdma_transport` of a peer. -/
  | transport (p : P)
  /-- Its `work_queue`. -/
  | workQueue (p : P)
  /-- Its `cq`. -/
  | cq (p : P)
  /-- Its `rc_qp`. -/
  | qp (p : P)
  /-- `rbp`. -/
  | bufferPool
  /-- `hash_table`, with its entries. -/
  | hashTable
  deriving DecidableEq, Repr

/-- The objects used for a peer. -/
def ServerObject.UsedFor {P : Type} (p : P) : ServerObject P → Prop
  | transport q | workQueue q | cq q | qp q => q = p
  | bufferPool | hashTable => True

/-- The program points of `init_server`. -/
inductive InitPc
  /-- In `rdma_context_init`. -/
  | context
  /-- In `init_server_socket`, at `socket`. -/
  | socket
  /-- At `setsockopt`. -/
  | setsockopt
  /-- At `bind`. -/
  | bind
  /-- At `listen`. -/
  | listen
  /-- About to allocate the argument of `accept_thread`. -/
  | arg
  /-- About to start `accept_thread`. -/
  | acceptThread
  /-- At `g_thread_pool_new`. -/
  | threadPool
  /-- It has returned. -/
  | returned
  deriving DecidableEq, Repr

/-- The program points of `accept_thread`. -/
inductive AcceptPc (P : Type)
  /-- Not started. -/
  | notStarted
  /-- At `accept`. -/
  | accept
  /-- About to enter the section under `hash_lock`. -/
  | lookup (p : P)
  /-- About to lock `connect_lock` for the first time. -/
  | lockCreate (p : P)
  /-- In `rdma_create_connect`. -/
  | create (p : P)
  /-- In `exchange_info`. -/
  | exchange (p : P)
  /-- About to lock `connect_lock` for the second time. -/
  | complete (p : P)
  /-- It has left its loop. -/
  | ended
  deriving DecidableEq, Repr

/-- The peer whose connection `accept_thread` is setting up. -/
def AcceptPc.peer? {P : Type} : AcceptPc P → Option P
  | lookup p | lockCreate p | create p | exchange p | complete p => some p
  | notStarted | accept | ended => none

/-- The program points of `rdma_shutdown_connect`. -/
inductive ShutPc
  /-- About to signal `poll_thread`. -/
  | killPoll
  /-- At the test of `handle_pid`. -/
  | handlePid
  /-- At `g_queue_free`. -/
  | workQueue
  /-- About to destroy `work_queue_lock` and `handle_cv`. -/
  | locks
  /-- About to signal `handle_thread`. -/
  | killHandle
  /-- At `ibv_destroy_qp`. -/
  | qp
  /-- At `ibv_destroy_cq`. -/
  | cq
  /-- At `ibv_destroy_comp_channel`. -/
  | channel
  /-- At `free`. -/
  | transport
  deriving DecidableEq, Repr

/-- The program points of `destroy_server`. -/
inductive DestroyPc (P : Type)
  /-- Not called. -/
  | notCalled
  /-- In `g_thread_pool_free`. -/
  | threadPool
  /-- In `g_hash_table_foreach`, which began with these entries, between two of them. -/
  | foreach (entries : List P)
  /-- There, in `rdma_shutdown_connect` of one. -/
  | shut (entries : List P) (p : P) (pc : ShutPc)
  /-- At `shutdown`. -/
  | shutdownSocket
  /-- At `close`. -/
  | closeSocket
  /-- In `rdma_context_destroy`, at `destroy_rdma_buffer_pool`. -/
  | bufferPool
  /-- At `ibv_dealloc_pd`. -/
  | pd
  /-- At `ibv_close_device`. -/
  | device
  /-- At `g_hash_table_destroy` of `hash_table`. -/
  | hashTable
  /-- About to free the rest of the context. -/
  | context
  /-- It has returned. -/
  | destroyed
  deriving DecidableEq, Repr

/-- What the next step frees. -/
def DestroyPc.frees {P : Type} : DestroyPc P → Option (ServerObject P)
  | shut _ p .workQueue => some (.workQueue p)
  | shut _ p .qp => some (.qp p)
  | shut _ p .cq => some (.cq p)
  | shut _ p .transport => some (.transport p)
  | bufferPool => some .bufferPool
  | hashTable => some .hashTable
  | _ => none

/-- The server, with its threads and transports. -/
structure ServerState (P χ : Type) where
  /-- The program point of `init_server`. -/
  init : InitPc
  /-- `work_thread_pool`. -/
  threadPool : WorkThreadPool
  /-- Whether the socket listens. -/
  listening : Bool
  /-- The connections that wait to be accepted, oldest first. -/
  backlog : List P
  /-- The program point of `accept_thread`. -/
  accept : AcceptPc P
  /-- The keys of `hash_table`. -/
  table : List P
  /-- The transports; one that was not made yet is zeroed. -/
  transports : P → ServedTransport χ
  /-- The entries whose `connect_lock` is destroyed. -/
  shut : List P
  /-- The program point of `destroy_server`. -/
  destroy : DestroyPc P
  /-- What was freed. -/
  freed : List (ServerObject P)

/-- The steps. -/
inductive ServerAct (P χ : Type)
  /-- `init_server` takes its next step. -/
  | init (answer : Answer)
  /-- A peer connects. -/
  | connect (p : P)
  /-- `accept_thread` takes its next step. -/
  | accept (answer : Answer)
  /-- A completion is added to the queue of a peer's transport. -/
  | add (p : P) (wc : Wc χ)
  /-- `poll_thread` takes its next step. -/
  | poll (p : P) (answer : Answer)
  /-- `handle_thread` takes its next step. -/
  | handle (p : P)
  /-- Its `pthread_cond_wait` returns without a signal. -/
  | spurious (p : P)
  /-- The pool starts executing a work item. -/
  | startItem (p : P)
  /-- The execution of `work_thread` at index `i` takes its next step. -/
  | worker (p : P) (i : ℕ)
  /-- `poll_thread` acts on its signal. -/
  | quitPoll (p : P)
  /-- `handle_thread` acts on its signal. -/
  | quitHandle (p : P)
  /-- `destroy_server` is called. -/
  | destroyServer
  /-- It comes to an entry of the table. -/
  | visit (p : P)
  /-- It takes any other step. -/
  | destroy (answer : Answer)

/-- `handle_thread` is blocked in `pthread_cond_wait`. -/
def ServedTransport.handleBlocked {χ : Type} (t : ServedTransport χ) : Bool :=
  match t.link.handover.handle with
  | .blocked => t.link.handleStarted && !t.handleEnded
  | _ => false

namespace ServerState

variable {P χ : Type}

/-- Before `init_server`. -/
def start : ServerState P χ :=
  ⟨.context, .unset, false, [], .notStarted, [], fun _ => .zeroed, [], .notCalled, []⟩

/-- The next step of `init_server`. -/
def initStep (s : ServerState P χ) (answer : Answer) : Option (Except CFault (ServerState P χ)) :=
  match s.init, answer with
  | .context, .pointer notNull =>
      some (if notNull then .ok { s with init := .socket } else .error .assertion)
  | .socket, .ret r => some (if r < 0 then .error .abort else .ok { s with init := .setsockopt })
  | .setsockopt, .ret r => some (if r < 0 then .error .abort else .ok { s with init := .bind })
  | .bind, .ret r => some (if r < 0 then .error .abort else .ok { s with init := .listen })
  | .listen, .ret r =>
      some (if r < 0 then .error .abort else .ok { s with listening := true, init := .arg })
  | .arg, .pointer notNull =>
      some (if notNull then .ok { s with init := .acceptThread } else .error .nullDeref)
  | .acceptThread, .ret r =>
      some (if r < 0 then .error .abort
        else .ok { s with accept := if r = 0 then .accept else s.accept, init := .threadPool })
  | .threadPool, .pending => some (.ok { s with threadPool := .running, init := .returned })
  | _, _ => none

variable [DecidableEq P]

/-- Write a transport. -/
def setTransport (s : ServerState P χ) (p : P) (t : ServedTransport χ) : ServerState P χ :=
  { s with transports := Function.update s.transports p t }

/-- The next step of `accept_thread`. -/
def acceptStep (s : ServerState P χ) (answer : Answer) :
    Option (Except CFault (ServerState P χ)) :=
  match s.accept, answer with
  | .accept, .ret r =>
      if r < 0 ∨ s.listening = false then some (.ok { s with accept := .ended })
      else
        match s.backlog with
        -- it blocks
        | [] => none
        | p :: rest => some (.ok { s with backlog := rest, accept := .lookup p })
  | .lookup p, .pointer notNull =>
      some (if p ∈ s.table then .ok { s with accept := .lockCreate p }
        else if notNull then .ok { s with table := s.table ++ [p], accept := .lockCreate p }
        else .error .nullDeref)
  | .lockCreate p, .pending =>
      some (if p ∈ s.shut then .error .useAfterFree
        else .ok { s with
          accept := if (s.transports p).link.HasQp then .exchange p else .create p })
  | .create p, answer =>
      ((s.transports p).link.createStep answer).map (Except.map fun link =>
        { s.setTransport p { s.transports p with link := link } with
          accept := if link.create = .created then .exchange p else .create p })
  | .exchange p, .ret r =>
      some (if r < 0 then .error .abort else .ok { s with accept := .complete p })
  | .complete p, .ret r =>
      some (if p ∈ s.shut then .error .useAfterFree
        else if (s.transports p).isReady then .ok { s with accept := .accept }
        else if r ≠ 0 then .error .assertion
        else .ok { s.setTransport p { s.transports p with isReady := true } with
          accept := .accept })
  | _, _ => none

/-- The next step of `rdma_shutdown_connect` of the entry `p`. -/
def shutStep (s : ServerState P χ) (entries : List P) (p : P) (pc : ShutPc) (answer : Answer) :
    Option (Except CFault (ServerState P χ)) :=
  match pc, answer with
  | .killPoll, .pending => some (.ok { s.setTransport p { s.transports p with
        pollSignal := (s.transports p).link.poll.started } with
      destroy := .shut entries p .handlePid })
  | .handlePid, .ret r =>
      -- `create_thread` returns an uninitialised value if there is no thread
      some (.ok { s with destroy := .shut entries p <|
        if (s.transports p).link.handleStarted ∨ (s.transports p).link.create.HandleTried ∧ 0 < r
        then .workQueue else .qp })
  | .workQueue, .pending => some (.ok { s with
      freed := .workQueue p :: s.freed
      destroy := .shut entries p .locks })
  | .locks, .pending =>
      -- to destroy `handle_cv` under a thread that waits on it is undefined; glibc waits for the
      -- thread to leave, and it is signalled to only afterwards
      if (s.transports p).handleBlocked then none
      else some (.ok { s with destroy := .shut entries p .killHandle })
  | .killHandle, .pending => some (.ok { s.setTransport p { s.transports p with
        handleSignal := (s.transports p).link.handleStarted } with
      destroy := .shut entries p .qp })
  | .qp, .ret r =>
      some (if ¬ (s.transports p).link.HasQp then .error .assertion
        else if r < 0 then .error .abort
        -- a positive error number passes, too
        else .ok { s with
          freed := if r = 0 then .qp p :: s.freed else s.freed
          destroy := .shut entries p .cq })
  | .cq, .ret r =>
      if r ≠ 0 then some (.ok { s with destroy := .shut entries p .channel })
      -- it waits until the events are acknowledged
      else if (s.transports p).link.cq.unacked = 0 then some (.ok { s with
        freed := .cq p :: s.freed
        destroy := .shut entries p .channel })
      else none
  | .channel, .ret _ => some (.ok { s with destroy := .shut entries p .transport })
  | .transport, .pending => some (.ok { s with
      freed := .transport p :: s.freed
      destroy := .foreach entries })
  | _, _ => none

/-- The next step of `destroy_server`, other than coming to an entry. -/
def destroyStep (s : ServerState P χ) (answer : Answer) :
    Option (Except CFault (ServerState P χ)) :=
  match s.destroy, answer with
  | .threadPool, .pending =>
      if ∀ p ∈ s.table, (s.transports p).work.poolItems = 0 ∧ (s.transports p).work.workers = []
      then some (.ok { s with threadPool := .freed, destroy := .foreach s.table })
      else none
  | .foreach entries, .pending =>
      if ∀ p ∈ entries, p ∈ s.shut then some (.ok { s with destroy := .shutdownSocket }) else none
  | .shut entries p pc, answer => s.shutStep entries p pc answer
  | .shutdownSocket, .ret _ => some (.ok { s with listening := false, destroy := .closeSocket })
  | .closeSocket, .ret _ => some (.ok { s with destroy := .bufferPool })
  | .bufferPool, .pending =>
      some (.ok { s with freed := .bufferPool :: s.freed, destroy := .pd })
  | .pd, .ret _ => some (.ok { s with destroy := .device })
  | .device, .ret _ => some (.ok { s with destroy := .hashTable })
  | .hashTable, .pending =>
      some (.ok { s with freed := .hashTable :: s.freed, destroy := .context })
  | .context, .pending => some (.ok { s with destroy := .destroyed })
  | _, _ => none

/-- What a step does, as long as it uses nothing that was freed. -/
def act (mem : χ → RdmaChunk) (s : ServerState P χ) :
    ServerAct P χ → Option (Except CFault (ServerState P χ))
  | .init answer => s.initStep answer
  | .connect p => if s.listening then some (.ok { s with backlog := s.backlog ++ [p] }) else none
  | .accept answer => s.acceptStep answer
  | .add p wc =>
      if (s.transports p).link.HasQp ∧ .qp p ∉ s.freed ∧ .cq p ∉ s.freed then
        some (.ok (s.setTransport p { s.transports p with
          link := { (s.transports p).link with cq := (s.transports p).link.cq.add wc } }))
      else none
  | .poll p answer =>
      ((s.transports p).pollStep mem answer).map (Except.map (s.setTransport p))
  | .handle p =>
      ((s.transports p).handleStep mem s.threadPool).map (Except.map (s.setTransport p))
  | .spurious p =>
      if (s.transports p).link.handleStarted = true ∧ (s.transports p).handleEnded = false then
        (handleQueueStep (s.transports p).link.handover .spurious).map (Except.map fun handover =>
          s.setTransport p { s.transports p with
            link := { (s.transports p).link with handover := handover } })
      else none
  | .startItem p =>
      if 0 < (s.transports p).work.poolItems then
        some (.ok (s.setTransport p { s.transports p with
          work := (s.transports p).work.startItem }))
      else none
  | .worker p i =>
      ((s.transports p).work.workerStep mem i).map (Except.map fun work =>
        s.setTransport p { s.transports p with work := work })
  | .quitPoll p =>
      if (s.transports p).pollSignal = true ∧ (s.transports p).pollEnded = false then
        some (.ok (s.setTransport p { s.transports p with pollEnded := true }))
      else none
  | .quitHandle p =>
      if (s.transports p).handleSignal = true ∧ (s.transports p).handleEnded = false then
        some (.ok (s.setTransport p { s.transports p with handleEnded := true }))
      else none
  | .destroyServer =>
      if s.init = .returned ∧ s.destroy = .notCalled then
        some (.ok { s with threadPool := .stopping, destroy := .threadPool })
      else none
  | .visit p =>
      match s.destroy with
      | .foreach entries =>
          if p ∈ s.table ∧ p ∉ s.shut then
            some (.ok { s with shut := p :: s.shut, destroy := .shut entries p .killPoll })
          else none
      | _ => none
  | .destroy answer => s.destroyStep answer

end ServerState

/-! ### What the threads use -/

section Touched

variable {P χ : Type} {p : P}

/-- What `rdma_transport_recv` and `rdma_transport_recv_with_num` use. -/
def RecvPc.touched (p : P) : RecvPc → List (ServerObject P)
  | malloc | calloc _ => []
  -- the chunks, and their memory regions, are the pool's
  | getChunk | getChunkList _ | mallocs _ => [.bufferPool]
  | post | posts _ => [.transport p, .qp p, .bufferPool]

/-- What `rdma_create_connect` uses. -/
def CreatePc.touched (p : P) : CreatePc → List (ServerObject P)
  | queues | channel | cq | pollThread | handleThread => [.transport p]
  | reqNotify | qp => [.transport p, .cq p]
  | modifyInit => [.transport p, .qp p]
  | recv pc => pc.touched p
  | created => []

/-- A call has returned a negative number. -/
def Answer.Failed : Answer → Prop
  | ret r => r < 0
  | _ => False

instance (answer : Answer) : Decidable answer.Failed := by
  unfold Answer.Failed
  split <;> infer_instance

/-- What `poll_thread` uses. -/
def PollThreadPc.touched (p : P) (answer : Answer) : PollThreadPc χ → List (ServerObject P)
  | notStarted | alloc => []
  | start | push _ | signal => [.transport p]
  -- a call that fails gives no event, whose queue it would look at
  | getEvent => if answer.Failed then [] else [.cq p]
  | ack | reqNotify => [.cq p]
  | pollCq => [.transport p, .cq p]
  -- it reads the headers of what was received
  | turn arr i => if ((arr.data[i]?).join.bind Wc.received).isSome then [.bufferPool] else []
  | recv _ _ pc => pc.touched p

/-- What `handle_thread` uses for an entry of a batch. -/
def entryTouched (p : P) : Option (Wc χ) → List (ServerObject P)
  | none => []
  | some wc =>
      if wc.success = false then []
      else
        match wc.opcode with
        | .send => [.bufferPool]
        | .recv => [.transport p, .workQueue p, .bufferPool]
        | .other => []

/-- What `handle_thread` uses. -/
def ServedTransport.handleTouched (p : P) (t : ServedTransport χ) : List (ServerObject P) :=
  match t.link.handover.handle with
  | .blocked => []
  | .peek | .sleep | .woken | .pop _ | .popped _ => [.transport p]
  | .events head =>
      match t.work.handler with
      | .idle => if t.index < head.len then entryTouched p (head.data[t.index]?).join else []
      -- the link it has found belongs to the work queue; before it wakes the pool it reads a header
      | .found _ _ | .stored => [.transport p, .workQueue p, .bufferPool]

/-- What `handle_thread` uses when it leaves on its signal: `pthread_exit` out of
`pthread_cond_wait` goes to `handle_cv` and `handle_cv_lock` once more. -/
def ServedTransport.quitTouched (p : P) (t : ServedTransport χ) : List (ServerObject P) :=
  match t.link.handover.handle with
  | .blocked | .woken => if t.link.handleStarted then [.transport p] else []
  | _ => []

/-- What `accept_thread` uses. -/
def ServerState.acceptTouched (s : ServerState P χ) : List (ServerObject P) :=
  match s.accept with
  | .notStarted | .accept | .ended => []
  | .lookup _ => [.hashTable]
  | .lockCreate p => [.hashTable, .transport p]
  | .create p => (s.transports p).link.create.touched p
  | .exchange p => [.transport p, .qp p]
  | .complete p => [.hashTable, .transport p, .qp p]

/-- What a step of `poll_thread`, `handle_thread` or `accept_thread` uses. -/
def ServerState.touched (s : ServerState P χ) : ServerAct P χ → List (ServerObject P)
  | .accept _ => s.acceptTouched
  | .poll p answer => (s.transports p).link.poll.touched p answer
  | .handle p => (s.transports p).handleTouched p
  | .quitHandle p => (s.transports p).quitTouched p
  | _ => []

/-- Posting receives uses what is used for its peer. -/
theorem RecvPc.usedFor_of_touched (pc : RecvPc) : ∀ o ∈ pc.touched p, o.UsedFor p := by
  cases pc <;> simp [RecvPc.touched, ServerObject.UsedFor]

/-- `rdma_create_connect` uses only what is used for its peer. -/
theorem CreatePc.usedFor_of_touched (pc : CreatePc) : ∀ o ∈ pc.touched p, o.UsedFor p := by
  cases pc with
  | recv pc => exact pc.usedFor_of_touched
  | _ => simp [CreatePc.touched, ServerObject.UsedFor]

/-- `poll_thread` uses only what is used for its peer. -/
theorem PollThreadPc.usedFor_of_touched (pc : PollThreadPc χ) (answer : Answer) :
    ∀ o ∈ pc.touched p answer, o.UsedFor p := by
  cases pc with
  | recv arr i pc => exact pc.usedFor_of_touched
  | getEvent | turn arr i =>
    simp only [PollThreadPc.touched]
    split <;> simp [ServerObject.UsedFor]
  | _ => simp [PollThreadPc.touched, ServerObject.UsedFor]

/-- `handle_thread` uses only what is used for its peer. -/
theorem ServedTransport.usedFor_of_touched (t : ServedTransport χ) :
    ∀ o ∈ t.handleTouched p, o.UsedFor p := by
  have hentry : ∀ entry : Option (Wc χ), ∀ o ∈ entryTouched p entry, o.UsedFor p := by
    intro entry
    unfold entryTouched
    split
    · simp
    · split
      · simp
      · split <;> simp [ServerObject.UsedFor]
  cases hhandle : t.link.handover.handle with
  | events head =>
    cases hhandler : t.work.handler with
    | idle =>
      simp only [ServedTransport.handleTouched, hhandle, hhandler]
      split
      · exact hentry _
      · simp
    | _ => simp [ServedTransport.handleTouched, hhandle, hhandler, ServerObject.UsedFor]
  | _ => simp [ServedTransport.handleTouched, hhandle, ServerObject.UsedFor]

/-- `accept_thread` uses only what is used for the one peer it works for. -/
theorem ServerState.usedFor_of_acceptTouched (s : ServerState P χ) :
    ∀ o ∈ s.acceptTouched, ∃ p, s.accept.peer? = some p ∧ o.UsedFor p := by
  cases haccept : s.accept with
  | create p =>
    simp only [ServerState.acceptTouched, haccept]
    exact fun o ho => ⟨p, rfl, CreatePc.usedFor_of_touched _ o ho⟩
  | _ => simp [ServerState.acceptTouched, haccept, AcceptPc.peer?, ServerObject.UsedFor]

end Touched

variable {P χ : Type} [DecidableEq P] {mem : χ → RdmaChunk}

/-- One step: a fault if it uses what was freed. -/
def serverStep (mem : χ → RdmaChunk) (s : ServerState P χ) (a : ServerAct P χ) :
    Option (Except CFault (ServerState P χ)) :=
  if ∀ o ∈ s.touched a, o ∉ s.freed then s.act mem a
  else (s.act mem a).map fun _ => .error .useAfterFree

/-- The server, from the call of `init_server` on, with the chunks as in `mem`. -/
def server (P : Type) [DecidableEq P] (mem : χ → RdmaChunk) :
    Machine (ServerState P χ) CFault (ServerAct P χ) where
  init := .start
  step := serverStep mem

/-- A step that is no fault. -/
theorem serverStep_ok {s s' : ServerState P χ} {a : ServerAct P χ} :
    serverStep mem s a = some (.ok s') ↔
      (∀ o ∈ s.touched a, o ∉ s.freed) ∧ s.act mem a = some (.ok s') := by
  unfold serverStep
  split
  · simp_all
  · cases s.act mem a <;> simp_all

/-- A step is taken, whether it is a fault or not. -/
theorem serverStep_isSome {s : ServerState P χ} {a : ServerAct P χ} :
    (serverStep mem s a).isSome ↔ (s.act mem a).isSome := by
  unfold serverStep
  split <;> simp

/-! ### What each step does -/

namespace ServerState

variable {s s' : ServerState P χ} {answer : Answer}

@[simp] theorem setTransport_self (s : ServerState P χ) (p : P) (t : ServedTransport χ) :
    (s.setTransport p t).transports p = t := Function.update_self ..

theorem setTransport_of_ne (s : ServerState P χ) {p q : P} (t : ServedTransport χ) (hne : q ≠ p) :
    (s.setTransport p t).transports q = s.transports q := Function.update_of_ne hne ..

/-- What holds of every transport holds still when one was written of which it holds. -/
theorem forall_setTransport {Q : P → ServedTransport χ → Prop} (h : ∀ q, Q q (s.transports q))
    {p : P} {t : ServedTransport χ} (ht : Q p t) (q : P) :
    Q q ((s.setTransport p t).transports q) := by
  by_cases heq : q = p
  · subst heq
    rwa [setTransport_self]
  · rw [setTransport_of_ne s t heq]
    exact h q

omit [DecidableEq P] in
/-- `init_server` leaves the transports alone, frees nothing and is not called again; the last thing
it does is to make the pool. -/
theorem initStep_spec (hstep : s.initStep answer = some (.ok s')) :
    s'.transports = s.transports ∧ s'.freed = s.freed ∧ s'.destroy = s.destroy ∧
      (s'.accept = s.accept ∨ s'.accept = .accept) ∧
      (s'.threadPool = s.threadPool ∧ s'.init ≠ .returned ∨ s'.threadPool = .running) := by
  unfold initStep at hstep
  split at hstep
  case h_7 r hinit =>
    split at hstep <;> cases hstep
    refine ⟨rfl, rfl, rfl, ?_, .inl ⟨rfl, nofun⟩⟩
    show (if r = 0 then _ else _) = _ ∨ _
    split
    · exact .inr rfl
    · exact .inl rfl
  case h_8 =>
    cases hstep
    exact ⟨rfl, rfl, rfl, .inl rfl, .inr rfl⟩
  case h_9 => cases hstep
  all_goals
    split at hstep <;> cases hstep
    exact ⟨rfl, rfl, rfl, .inl rfl, .inl ⟨rfl, nofun⟩⟩

/-- What a step of `accept_thread` does. -/
structure AcceptEffect (s s' : ServerState P χ) : Prop where
  /-- It leaves the pool alone. -/
  threadPool : s'.threadPool = s.threadPool
  /-- It leaves `init_server` where it is. -/
  init : s'.init = s.init
  /-- It leaves `destroy_server` where it is. -/
  destroy : s'.destroy = s.destroy
  /-- It frees nothing. -/
  freed : s'.freed = s.freed
  /-- It only writes the transport of the peer it works for, in `rdma_create_connect`, or to set
  `is_ready`. -/
  transport : ∀ p, s'.transports p = s.transports p ∨ s.accept.peer? = some p ∧
    ((∃ answer link, (s.transports p).link.createStep answer = some (.ok link) ∧
      s'.transports p = { s.transports p with link := link }) ∨
      s'.transports p = { s.transports p with isReady := true })
  /-- It goes on with that peer, is done with it, or takes the next one. -/
  peer : s'.accept.peer? = s.accept.peer? ∨ s'.accept.peer? = none ∨
    s.accept = .accept ∧ s.listening = true ∧ s'.accept.peer? = s.backlog.head?

/-- **One step of `accept_thread`.** -/
theorem acceptStep_spec (hstep : s.acceptStep answer = some (.ok s')) : AcceptEffect s s' := by
  unfold acceptStep at hstep
  split at hstep
  · rename_i r haccept
    split at hstep
    · cases hstep
      exact ⟨rfl, rfl, rfl, rfl, fun _ => .inl rfl, .inr (.inl rfl)⟩
    · rename_i hopen
      split at hstep
      · cases hstep
      · rename_i p rest hbacklog
        cases hstep
        refine ⟨rfl, rfl, rfl, rfl, fun _ => .inl rfl, .inr (.inr ⟨haccept, ?_, ?_⟩)⟩
        · simpa using (not_or.mp hopen).2
        · rw [hbacklog]
          rfl
  · rename_i p notNull haccept
    have hpeer : s.accept.peer? = some p := by rw [haccept]; rfl
    split at hstep
    · cases hstep
      exact ⟨rfl, rfl, rfl, rfl, fun _ => .inl rfl, .inl hpeer.symm⟩
    · split at hstep <;> cases hstep
      exact ⟨rfl, rfl, rfl, rfl, fun _ => .inl rfl, .inl hpeer.symm⟩
  · rename_i p haccept
    split at hstep <;> cases hstep
    refine ⟨rfl, rfl, rfl, rfl, fun _ => .inl rfl, .inl ?_⟩
    rw [haccept]
    show (if (s.transports p).link.HasQp then AcceptPc.exchange p else .create p).peer? = _
    split <;> rfl
  · -- it writes the transport of the peer it works for
    rename_i _ p haccept
    obtain ⟨link, hlink, rfl⟩ := map_map_eq_ok.mp hstep
    refine ⟨rfl, rfl, rfl, rfl, fun q => ?_, .inl ?_⟩
    · by_cases heq : q = p
      · subst heq
        exact .inr ⟨by rw [haccept]; rfl, .inl ⟨_, link, hlink, setTransport_self ..⟩⟩
      · exact .inl (setTransport_of_ne s _ heq)
    · rw [haccept]
      show (if link.create = .created then AcceptPc.exchange p else .create p).peer? = _
      split <;> rfl
  · rename_i p r haccept
    have hpeer : s.accept.peer? = some p := by rw [haccept]; rfl
    split at hstep <;> cases hstep
    exact ⟨rfl, rfl, rfl, rfl, fun _ => .inl rfl, .inl hpeer.symm⟩
  · rename_i p r haccept
    split at hstep
    · cases hstep
    split at hstep
    · cases hstep
      exact ⟨rfl, rfl, rfl, rfl, fun _ => .inl rfl, .inr (.inl rfl)⟩
    · split at hstep <;> cases hstep
      refine ⟨rfl, rfl, rfl, rfl, fun q => ?_, .inr (.inl rfl)⟩
      by_cases heq : q = p
      · subst heq
        exact .inr ⟨by rw [haccept]; rfl, .inr (setTransport_self ..)⟩
      · exact .inl (setTransport_of_ne s _ heq)
  · cases hstep

/-- What a step of `destroy_server` does. -/
structure DestroyEffect (s s' : ServerState P χ) : Prop where
  /-- It can only free the pool. -/
  threadPool : s'.threadPool = s.threadPool ∨ s'.threadPool = .freed
  /-- It leaves `accept_thread` alone. -/
  accept : s'.accept = s.accept
  /-- It makes signals pending. -/
  transport : ∀ p, ∃ pollSignal handleSignal, s'.transports p =
    { s.transports p with pollSignal := pollSignal, handleSignal := handleSignal }
  /-- What it frees. -/
  freed : ∀ o ∈ s'.freed, o ∈ s.freed ∨ o ∈ s.destroy.frees

omit [DecidableEq P] in
/-- A step that writes no transport and frees nothing. -/
theorem DestroyEffect.of_quiet (hpool : s'.threadPool = s.threadPool)
    (haccept : s'.accept = s.accept) (htransports : s'.transports = s.transports)
    (hfreed : s'.freed = s.freed) : DestroyEffect s s' :=
  ⟨.inl hpool, haccept, fun p => ⟨_, _, congrFun htransports p⟩, fun _ ho => .inl (hfreed ▸ ho)⟩

omit [DecidableEq P] in
/-- A step that writes no transport and frees an object. -/
theorem DestroyEffect.of_freed {o : ServerObject P} (hpool : s'.threadPool = s.threadPool)
    (haccept : s'.accept = s.accept) (htransports : s'.transports = s.transports)
    (hfreed : s'.freed = o :: s.freed) (hfrees : s.destroy.frees = some o) :
    DestroyEffect s s' := by
  refine ⟨.inl hpool, haccept, fun p => ⟨_, _, congrFun htransports p⟩, fun o' ho' => ?_⟩
  rw [hfreed] at ho'
  obtain rfl | ho' := List.mem_cons.mp ho'
  · exact .inr hfrees
  · exact .inl ho'

/-- A step of `rdma_shutdown_connect`. -/
theorem shutStep_spec {entries : List P} {p : P} {pc : ShutPc}
    (hdestroy : s.destroy = .shut entries p pc)
    (hstep : s.shutStep entries p pc answer = some (.ok s')) : DestroyEffect s s' := by
  have hsignal : ∀ pollSignal handleSignal destroy, DestroyEffect s
      { s.setTransport p { s.transports p with
          pollSignal := pollSignal, handleSignal := handleSignal } with destroy := destroy } := by
    intro pollSignal handleSignal destroy
    refine ⟨.inl rfl, rfl, fun q => ?_, fun _ ho => .inl ho⟩
    by_cases heq : q = p
    · subst heq
      exact ⟨_, _, setTransport_self ..⟩
    · exact ⟨_, _, setTransport_of_ne s _ heq⟩
  unfold shutStep at hstep
  split at hstep
  · cases hstep
    exact hsignal ..
  · cases hstep
    exact .of_quiet rfl rfl rfl rfl
  · cases hstep
    exact .of_freed rfl rfl rfl rfl (by rw [hdestroy]; rfl)
  · split at hstep <;> cases hstep
    exact .of_quiet rfl rfl rfl rfl
  · cases hstep
    exact hsignal ..
  · rename_i r
    split at hstep
    · cases hstep
    split at hstep <;> cases hstep
    by_cases hr : r = 0
    · exact .of_freed rfl rfl rfl (if_pos hr) (by rw [hdestroy]; rfl)
    · exact .of_quiet rfl rfl rfl (if_neg hr)
  · split at hstep
    · cases hstep
      exact .of_quiet rfl rfl rfl rfl
    · split at hstep <;> cases hstep
      exact .of_freed rfl rfl rfl rfl (by rw [hdestroy]; rfl)
  · cases hstep
    exact .of_quiet rfl rfl rfl rfl
  · cases hstep
    exact .of_freed rfl rfl rfl rfl (by rw [hdestroy]; rfl)
  · cases hstep

/-- **One step of `destroy_server`.** -/
theorem destroyStep_spec (hstep : s.destroyStep answer = some (.ok s')) : DestroyEffect s s' := by
  unfold destroyStep at hstep
  split at hstep
  · split at hstep <;> cases hstep
    exact ⟨.inr rfl, rfl, fun _ => ⟨_, _, rfl⟩, fun _ ho => .inl ho⟩
  · split at hstep <;> cases hstep
    exact .of_quiet rfl rfl rfl rfl
  · exact shutStep_spec ‹_› hstep
  · cases hstep
    exact .of_quiet rfl rfl rfl rfl
  · cases hstep
    exact .of_quiet rfl rfl rfl rfl
  · rename_i hdestroy
    cases hstep
    exact .of_freed rfl rfl rfl rfl (by rw [hdestroy]; rfl)
  · cases hstep
    exact .of_quiet rfl rfl rfl rfl
  · cases hstep
    exact .of_quiet rfl rfl rfl rfl
  · rename_i hdestroy
    cases hstep
    exact .of_freed rfl rfl rfl rfl (by rw [hdestroy]; rfl)
  · cases hstep
    exact .of_quiet rfl rfl rfl rfl
  · cases hstep

end ServerState

/-! ### The first connection -/

/-- The step is one of setting up. -/
def ServerAct.SetsUp : ServerAct P χ → Bool
  | init _ | connect _ | accept _ => true
  | _ => false

/-- A server with one peer, whose threads are at their start, while `accept_thread` is at `pc` and
`rdma_create_connect` at `create`; `init_server` has returned, or is about to make the pool. -/
def firstConnection (χ : Type) (returned : Bool) (pc : AcceptPc Unit) (create : CreatePc) :
    ServerState Unit χ :=
  { (ServerState.start : ServerState Unit χ) with
    init := if returned then .returned else .threadPool
    threadPool := if returned then .running else .unset
    listening := true
    accept := pc
    table := [()]
    transports := fun _ =>
      { ServedTransport.zeroed with
        link := ⟨⟨[], true, 0, 0⟩, create, .start, true, .start (WcArray χ)⟩ } }

/-- `rdma_create_connect` posts its receives. -/
theorem posted_reachable {C : ServerState Unit χ → ServerAct Unit χ → Prop}
    (hC : ∀ create, C (firstConnection χ false (.create ()) create) (.accept (.ret 0)))
    (left : ℕ) (hs : (server Unit mem).ReachableUnder C
      (firstConnection χ false (.create ()) (.recv (.posts left)))) :
    (server Unit mem).ReachableUnder C (firstConnection χ false (.exchange ()) .created) := by
  induction left with
  | zero => exact hs.next (hC _) rfl
  | succ left ih => exact ih (hs.next (hC _) rfl)

/-- The first connection is reached by steps of setting up alone. -/
theorem firstConnection_reachable (mem : χ → RdmaChunk) (returned : Bool) :
    (server Unit mem).ReachableUnder (fun s a => s.freed = [] ∧ a.SetsUp = true)
      (firstConnection χ returned (.exchange ()) .created) := by
  have hposted : (server Unit mem).ReachableUnder (fun s a => s.freed = [] ∧ a.SetsUp = true)
      (firstConnection χ false (.exchange ()) .created) := by
    refine posted_reachable (fun _ => ⟨rfl, rfl⟩) maxPreRecvQp.toNat ?_
    refine Machine.reachableUnder_of_exec
      [.init (.pointer true), .init (.ret 0), .init (.ret 0), .init (.ret 0), .init (.ret 0),
        .init (.pointer true), .init (.ret 0), .connect (), .accept (.ret 0),
        .accept (.pointer true), .accept .pending, .accept .pending, .accept (.pointer true),
        .accept (.pointer true), .accept (.ret 0), .accept (.ret 0), .accept (.ret 0),
        .accept (.pointer true), .accept (.ret 0), .accept (.pointer true), .accept (.pointer true),
        .accept (.pointer true)] .init ?_
    rfl
  cases returned with
  | false => exact hposted
  | true => exact hposted.next (a := .init .pending) ⟨rfl, rfl⟩ rfl

end SparkRdma
