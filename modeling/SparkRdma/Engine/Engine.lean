import SparkRdma.QueuePair.Credits
import SparkRdma.WorkQueue.Handover

/-! # The engine of one host

The machine `engine` puts the parts of one host together: the pool, any number of transports and any
number of `send_msg` and `send_msg_with_header` calls on them. Of each transport it runs the
adapter, `poll_thread`, `handle_thread` and the executions of `work_thread`. Pool operations are
atomic, every post is accepted, and completions come in the order of the requests. What a frame
holds when it lands is left to the environment.

A pool operation that has to append is an `append` step followed by the operation itself.

* **`EngineState`**, **`engineStep`** — the machine. -/

namespace SparkRdma

open Interleaving

/-- A work completion: the chunk of its request and, for a receive, `byte_len`. -/
inductive WorkCompletion (χ : Type)
  /-- `IBV_WC_SEND`. -/
  | send (chunk : χ)
  /-- `IBV_WC_RECV`. -/
  | recv (chunk : χ) (byteLen : UInt32)
  deriving DecidableEq

namespace WorkCompletion

variable {χ : Type}

/-- The chunk of a send. -/
def sent? : WorkCompletion χ → Option χ
  | send chunk => some chunk
  | recv _ _ => none

/-- The chunk of a receive. -/
def received? : WorkCompletion χ → Option χ
  | send _ => none
  | recv chunk _ => some chunk

@[simp] theorem sent?_send (chunk : χ) : (send chunk).sent? = some chunk := rfl

@[simp] theorem sent?_recv (chunk : χ) (byteLen : UInt32) : (recv chunk byteLen).sent? = none := rfl

@[simp] theorem received?_send (chunk : χ) : (send chunk).received? = none := rfl

@[simp] theorem received?_recv (chunk : χ) (byteLen : UInt32) :
    (recv chunk byteLen).received? = some chunk := rfl

end WorkCompletion

/-- The program points of a send call. -/
inductive CallPc (χ : Type)
  /-- Before the section under `id_lock`. -/
  | idle
  /-- Has drawn its data id; the pool is ahead. -/
  | drawn (dataId : UInt32)
  /-- Has its chunk array; the copy loop is ahead. -/
  | taken (dataId : UInt32) (data : List χ)
  /-- In the loop of `rdma_send_msg`, with these requests to post, or through with it. -/
  | posting (rest : List (χ × UInt32))
  deriving DecidableEq

/-- The chunks a call has taken and not yet posted. -/
def CallPc.chunks {χ : Type} : CallPc χ → List χ
  | idle => []
  | drawn _ => []
  | taken _ data => data
  | posting rest => rest.map Prod.fst

/-- A transport, with its queue pair and its threads. -/
structure TransportState (χ : Type) where
  /-- `data_id`. -/
  dataId : UInt32
  /-- The posted sends that are not complete. -/
  sends : List (χ × UInt32)
  /-- The posted receives that are not complete. -/
  recvs : List (χ × UInt32)
  /-- The completion queue. -/
  cq : List (WorkCompletion χ)
  /-- The part of the polled batch that the loop of `poll_thread` has yet to go over. -/
  polled : List (WorkCompletion χ)
  /-- The part it has gone over. -/
  replenished : List (WorkCompletion χ)
  /-- `handle_quque`. -/
  handleQuque : List (List (WorkCompletion χ))
  /-- The rest of the batch `handle_thread` is going over. -/
  handling : List (WorkCompletion χ)
  /-- The receiving half. -/
  work : WorkState χ
  /-- The index of the release loop over a varray that was called back. -/
  released : ℕ → ℕ

/-- A zeroed transport. -/
def TransportState.blank {χ : Type} : TransportState χ :=
  ⟨0, [], [], [], [], [], [], [], .start, fun _ => 0⟩

/-- The engine of a host: `T` are its transports and `ι` the send calls. -/
structure EngineState (T ι χ : Type) where
  /-- The chunks of all buffers of the pool. -/
  chunks : List χ
  /-- The free list. -/
  free : List χ
  /-- The contents of the chunks. -/
  mem : χ → RdmaChunk
  /-- The program points of the calls. -/
  calls : ι → CallPc χ
  /-- The transports. -/
  transports : T → TransportState χ

/-- The calls: what is sent, and on which transport. -/
structure Workload (T ι : Type) where
  /-- The message. -/
  call : ι → SendCall
  /-- The transport. -/
  via : ι → T

/-- The steps of the engine. -/
inductive EngineAct (T ι χ : Type)
  /-- `append_rdma_buffer_pool` brings in a buffer of fresh chunks. -/
  | append (fresh : List χ)
  /-- `rdma_create_connect` posts its receives. -/
  | create (t : T)
  /-- Call `i` takes its next step. -/
  | call (i : ι)
  /-- The oldest posted send of a transport completes. -/
  | sent (t : T)
  /-- A frame lands in the oldest posted receive. -/
  | land (t : T) (frame : Frame)
  /-- `ibv_poll_cq` returns the `eventNum` oldest completions. -/
  | poll (t : T) (eventNum : ℕ)
  /-- The loop of `poll_thread` goes over the next completion. -/
  | process (t : T)
  /-- `poll_thread` pushes the batch. -/
  | pushBatch (t : T)
  /-- `handle_thread` pops a batch. -/
  | popBatch (t : T)
  /-- `handle_thread` takes up the next completion of its batch. -/
  | event (t : T)
  /-- `handle_thread` takes its next step inside a receive event. -/
  | handler (t : T)
  /-- The pool of worker threads starts a queued work item. -/
  | startItem (t : T)
  /-- The execution of `work_thread` at index `k` takes its next step. -/
  | worker (t : T) (k : ℕ)

variable {T ι χ : Type}

/-- Write the contents of chunks, one after the other. -/
def writeChunks [DecidableEq χ] (mem : χ → RdmaChunk) : List χ → List RdmaChunk → χ → RdmaChunk
  | chunk :: data, filled :: rest => writeChunks (Function.update mem chunk filled) data rest
  | _, _ => mem

namespace EngineState

/-- The pool and the queue pair of a transport, as the posting functions see them. -/
def endpoint (s : EngineState T ι χ) (t : T) : Endpoint χ :=
  ⟨s.free, (s.transports t).sends, (s.transports t).recvs⟩

variable [DecidableEq T]

/-- Write a transport. -/
def set (s : EngineState T ι χ) (t : T) (transport : TransportState χ) : EngineState T ι χ :=
  { s with transports := Function.update s.transports t transport }

/-- Write back what a posting function leaves. -/
def setEndpoint (s : EngineState T ι χ) (t : T) (endpoint : Endpoint χ) : EngineState T ι χ :=
  { s with free := endpoint.free }.set t
    { s.transports t with sends := endpoint.sends, recvs := endpoint.recvs }

/-- Write the receiving half of a transport. -/
def setWork (s : EngineState T ι χ) (t : T) (work : WorkState χ) : EngineState T ι χ :=
  s.set t { s.transports t with work := work }

/-- `release_rdma_chunk_to_pool`. -/
def release (s : EngineState T ι χ) (chunk : χ) : EngineState T ι χ :=
  { s with free := chunk :: s.free }

@[simp] theorem set_transports_self (s : EngineState T ι χ) (t : T) (transport : TransportState χ) :
    (s.set t transport).transports t = transport := Function.update_self ..

theorem set_transports_of_ne (s : EngineState T ι χ) {t t' : T} (transport : TransportState χ)
    (hne : t' ≠ t) : (s.set t transport).transports t' = s.transports t' :=
  Function.update_of_ne hne ..

@[simp] theorem set_set (s : EngineState T ι χ) (t : T) (transport transport' : TransportState χ) :
    (s.set t transport).set t transport' = s.set t transport' := by
  rw [set, set, set, Function.update_idem]

/-- A posting function that posts nothing leaves the transports alone. -/
theorem setEndpoint_of_requests (s : EngineState T ι χ) {t : T} {endpoint : Endpoint χ}
    (hsends : endpoint.sends = (s.transports t).sends)
    (hrecvs : endpoint.recvs = (s.transports t).recvs) :
    s.setEndpoint t endpoint = { s with free := endpoint.free } := by
  rw [setEndpoint, hsends, hrecvs, set, Function.update_eq_self]

variable [DecidableEq ι]

/-- Move a call. -/
def goto (s : EngineState T ι χ) (i : ι) (pc : CallPc χ) : EngineState T ι χ :=
  { s with calls := Function.update s.calls i pc }

omit [DecidableEq T] in
@[simp] theorem goto_calls_self (s : EngineState T ι χ) (i : ι) (pc : CallPc χ) :
    (s.goto i pc).calls i = pc := Function.update_self ..

omit [DecidableEq T] in
theorem goto_calls_of_ne (s : EngineState T ι χ) {i i' : ι} (pc : CallPc χ) (hne : i' ≠ i) :
    (s.goto i pc).calls i' = s.calls i' := Function.update_of_ne hne ..

/-- A step of a send call. -/
def callStep [DecidableEq χ] (w : Workload T ι) (s : EngineState T ι χ) (i : ι) :
    CallPc χ → Option (Except CFault (EngineState T ι χ))
  | .idle =>
      let transport := s.transports (w.via i)
      some (.ok ((s.set (w.via i) { transport with dataId := transport.dataId + 1 }).goto i
        (.drawn transport.dataId)))
  | .drawn dataId =>
      match (s.endpoint (w.via i)).getChunkList none (w.call i).chunkNum with
      | none => some (.error .abort)
      | some (chunkList, endpoint) =>
          some <| (chunkArray (w.call i).chunkNum.toNat chunkList).map fun data =>
            (s.setEndpoint (w.via i) endpoint).goto i (.taken dataId data)
  | .taken dataId data =>
      some <| ((w.call i).copyToRdma dataId (data.map s.mem)).map fun filled =>
        { s with mem := writeChunks s.mem data filled }.goto i
          (.posting (rdmaSendMsg data (w.call i).len))
  | .posting (wr :: rest) =>
      some <| ((s.endpoint (w.via i)).rdmaTransportSend 0 wr).map fun endpoint =>
        (s.setEndpoint (w.via i) endpoint).goto i (.posting rest)
  | .posting [] => none

/-- The loop of `poll_thread` goes over `wc`. -/
def pollStep (s : EngineState T ι χ) (t : T) : WorkCompletion χ → Except CFault (EngineState T ι χ)
  | .send _ => .ok s
  | .recv chunk _ =>
      match replenishFor (s.mem chunk).header with
      | none => .ok s
      | some call => (call.run (s.endpoint t) none fun _ => 0).map fun (_, _, endpoint) =>
          s.setEndpoint t endpoint

/-- `handle_thread` takes up `wc`: `handle_send_event`, or the first section of
`handle_recv_event`. -/
def eventStep (s : EngineState T ι χ) (t : T) :
    WorkCompletion χ → Option (Except CFault (EngineState T ι χ))
  | .send chunk => some (.ok (s.release chunk))
  | .recv chunk byteLen =>
      (workQueueStep s.mem (s.transports t).work (.recv byteLen chunk)).map <|
        Except.map (s.setWork t)

/-- The execution of `work_thread` at index `k` takes its next step. Behind the callback it releases
the chunks of the varray one by one, and frees it. -/
def workerStep (s : EngineState T ι χ) (t : T) (k : ℕ) :
    Option (Except CFault (EngineState T ι χ)) :=
  let transport := s.transports t
  match transport.work.workers[k]? with
  | some (.delivered head) =>
      some <| (transport.work.deref head).map fun v =>
        match v.data[transport.released head]? with
        | some chunk => (s.release chunk).set t { transport with
            released := Function.update transport.released head (transport.released head + 1) }
        | none => s.setWork t (transport.work.freeHead k head)
  | some (.popped head) =>
      -- The release loop starts at index 0.
      (transport.work.workerStep s.mem k).map <| Except.map fun work => s.set t { transport with
        work := work, released := Function.update transport.released head 0 }
  | _ => (transport.work.workerStep s.mem k).map <| Except.map (s.setWork t)

end EngineState

variable [DecidableEq T] [DecidableEq ι] [DecidableEq χ]

/-- One step of the engine. -/
def engineStep (w : Workload T ι) (s : EngineState T ι χ) :
    EngineAct T ι χ → Option (Except CFault (EngineState T ι χ))
  | .append fresh =>
      if fresh.Nodup ∧ ∀ chunk ∈ fresh, chunk ∉ s.chunks then
        some (.ok { s with chunks := fresh ++ s.chunks, free := fresh ++ s.free })
      else none
  | .create t =>
      some <| ((s.endpoint t).rdmaTransportRecvWithNum maxPreRecvQp none fun _ => 0).map
        fun (_, _, endpoint) => s.setEndpoint t endpoint
  | .call i => s.callStep w i (s.calls i)
  | .sent t =>
      let transport := s.transports t
      match transport.sends with
      | [] => none
      | wr :: sends => some (.ok (s.set t { transport with
          sends := sends, cq := transport.cq ++ [WorkCompletion.send wr.1] }))
  | .land t frame =>
      let transport := s.transports t
      match transport.recvs with
      | [] => none
      | wr :: recvs => some (.ok ({ s with
          mem := Function.update s.mem wr.1 ((s.mem wr.1).land frame) }.set t { transport with
            recvs := recvs, cq := transport.cq ++ [WorkCompletion.recv wr.1 frame.byteLen] }))
  | .poll t eventNum =>
      let transport := s.transports t
      if transport.polled = [] ∧ transport.replenished = [] ∧ eventNum ≤ maxEventPerPoll ∧
          eventNum ≤ transport.cq.length then
        some (.ok (s.set t { transport with
          cq := transport.cq.drop eventNum, polled := transport.cq.take eventNum }))
      else none
  | .process t =>
      match (s.transports t).polled with
      | [] => none
      | wc :: polled => some <| (s.pollStep t wc).map fun s => s.set t { s.transports t with
          polled := polled, replenished := (s.transports t).replenished ++ [wc] }
  | .pushBatch t =>
      let transport := s.transports t
      if transport.polled = [] ∧ transport.replenished ≠ [] then
        some (.ok (s.set t { transport with
          replenished := [], handleQuque := transport.handleQuque ++ [transport.replenished] }))
      else none
  | .popBatch t =>
      let transport := s.transports t
      match transport.handling, transport.work.handler, transport.handleQuque with
      | [], .idle, batch :: rest =>
          some (.ok (s.set t { transport with handling := batch, handleQuque := rest }))
      | _, _, _ => none
  | .event t =>
      match (s.transports t).handling, (s.transports t).work.handler with
      | wc :: handling, .idle =>
          (s.eventStep t wc).map <| Except.map fun s =>
            s.set t { s.transports t with handling := handling }
      | _, _ => none
  | .handler t =>
      (workQueueStep s.mem (s.transports t).work .handler).map <| Except.map (s.setWork t)
  | .startItem t =>
      (workQueueStep s.mem (s.transports t).work .startItem).map <| Except.map (s.setWork t)
  | .worker t k => s.workerStep t k

/-- The engine before anything is set up, the chunks holding `mem`. -/
def engine (w : Workload T ι) (mem : χ → RdmaChunk) :
    Machine (EngineState T ι χ) CFault (EngineAct T ι χ) where
  init := ⟨[], [], mem, fun _ => .idle, fun _ => .blank⟩
  step := engineStep w

end SparkRdma
