import SparkRdma.Engine.Owners
import SparkRdma.WorkQueue.Lossless
import SparkRdma.WorkQueue.Pointers

/-! # What lands is what is called back

The engine keeps pointers to chunks from the completion of a receive to the callback, and all that
time other threads write to other chunks of the same pool. The machine `inbox` is the receiving half
of a transport that is handed the contents of a chunk when its frame has landed. That the engine
does the same rests on every chunk having one owner.

* **`InboxState`**, **`inboxStep`** — the machine.
* **`Watched`** — the chunks of a transport that will still be read.
* **`Follows`** — the engine's transport holds what the inbox holds.
* **`called_back_as_landed`** — every run of the engine is one of the inbox, for every transport. -/

namespace SparkRdma

open Interleaving Ownership

/-! ### The receiving half by value -/

/-- The receiving half of a transport, with the chunks as they were when the frames had landed. -/
structure InboxState where
  /-- The chunks that `handle_thread` has not taken up, oldest first, each with `byte_len`. -/
  landed : List (RdmaChunk × UInt32)
  /-- The rest of the receiving half. -/
  work : WorkState RdmaChunk
  /-- All that has landed: history. -/
  received : List (RdmaChunk × UInt32)

/-- The steps. -/
inductive InboxAct
  /-- A frame lands and leaves this in its chunk. -/
  | land (chunk : RdmaChunk) (byteLen : UInt32)
  /-- `handle_thread` takes up the oldest chunk. -/
  | event
  /-- `handle_thread` takes its next step inside an event. -/
  | handler
  /-- The pool starts a queued work item. -/
  | startItem
  /-- The execution of `work_thread` at index `k` takes its next step. -/
  | worker (k : ℕ)

/-- One step. -/
def inboxStep (s : InboxState) : InboxAct → Option (Except CFault InboxState)
  | .land chunk byteLen => some (.ok { s with
      landed := s.landed ++ [(chunk, byteLen)], received := s.received ++ [(chunk, byteLen)] })
  | .event =>
      match s.landed with
      | [] => none
      | (chunk, byteLen) :: rest =>
          (workQueueStep id s.work (.recv byteLen chunk)).map <| Except.map fun work =>
            { s with landed := rest, work := work }
  | .handler => (workQueueStep id s.work .handler).map <| Except.map fun work =>
      { s with work := work }
  | .startItem => (workQueueStep id s.work .startItem).map <| Except.map fun work =>
      { s with work := work }
  | .worker k => (workQueueStep id s.work (.worker k)).map <| Except.map fun work =>
      { s with work := work }

/-- Before anything has landed. -/
def inbox : Machine InboxState CFault InboxAct where
  init := ⟨[], .start, []⟩
  step := inboxStep

variable {T ι χ : Type}

/-! ### What the engine watches -/

/-- The chunk of a receive, with `byte_len`. -/
def WorkCompletion.receipt? : WorkCompletion χ → Option (χ × UInt32)
  | send _ => none
  | recv chunk byteLen => some (chunk, byteLen)

@[simp] theorem WorkCompletion.receipt?_send (chunk : χ) : (send chunk).receipt? = none := rfl

@[simp] theorem WorkCompletion.receipt?_recv (chunk : χ) (byteLen : UInt32) :
    (recv chunk byteLen).receipt? = some (chunk, byteLen) := rfl

namespace TransportState

/-- The receives that `handle_thread` has not taken up, oldest first. -/
def receipts (s : TransportState χ) : List (χ × UInt32) :=
  s.completions.filterMap WorkCompletion.receipt?

/-- What will still be read of this chunk: a frame landed in it and was not yet called back. -/
inductive Watched (s : TransportState χ) (chunk : χ) : Prop
  /-- Its completion is on its way. -/
  | landed (h : chunk ∈ s.receipts.map Prod.fst)
  /-- `handle_thread` has it in hand. -/
  | incoming (h : chunk ∈ s.work.incoming)
  /-- It is in a varray on the queue, or in one popped and not called back. -/
  | stored {now : ℕ} (hnow : now ∈ s.work.inHand ++ s.work.workQueue)
      (h : chunk ∈ s.work.chunksAt now)

/-- The chunks of the receives are those of the receive completions. -/
theorem map_fst_receipts (s : TransportState χ) :
    s.receipts.map Prod.fst = s.completions.filterMap WorkCompletion.received? := by
  rw [receipts, List.map_filterMap]
  refine List.filterMap_congr fun wc _ => ?_
  cases wc <;> rfl

end TransportState

open TransportState

namespace EngineState

variable {s : EngineState T ι χ} {t : T} {chunk : χ}

/-- What is in a varray is with the queue or the workers. -/
theorem owned_of_stored {now : ℕ}
    (hnow : now ∈ (s.transports t).work.inHand ++ (s.transports t).work.workQueue)
    (h : chunk ∈ (s.transports t).work.chunksAt now) :
    chunk ∈ s.owned (.delivering t) ∨ chunk ∈ s.owned (.queued t) := by
  rcases List.mem_append.mp hnow with hnow | hnow
  · obtain ⟨pc, hpc, hpopped⟩ := List.mem_filterMap.mp hnow
    refine .inl (List.mem_flatMap.mpr ⟨pc, hpc, ?_⟩)
    cases pc with
    | popped head =>
      cases hpopped
      exact h
    | _ => cases hpopped
  · exact .inr (List.mem_flatMap.mpr ⟨_, hnow, h⟩)

/-- What has landed and is not stored yet is with the receives. -/
theorem owned_of_landed (h : chunk ∈ (s.transports t).receipts.map Prod.fst ∨
    chunk ∈ (s.transports t).work.incoming) : chunk ∈ s.owned (.receiving t) := by
  rcases h with h | h
  · rw [map_fst_receipts] at h
    exact List.mem_append_left _ (List.mem_append_right _ h)
  · exact List.mem_append_right _ h

/-- No send call has what is watched. -/
theorem not_mem_call_of_watched (hinv : OwnerInv s) (h : (s.transports t).Watched chunk) (i : ι) :
    chunk ∉ (s.calls i).chunks := by
  intro hmem
  have hsender : chunk ∈ s.owned (.sender i) := hmem
  cases h with
  | landed h => cases hinv.partition.unique hsender (owned_of_landed (.inl h))
  | incoming h => cases hinv.partition.unique hsender (owned_of_landed (.inr h))
  | stored hnow h =>
    rcases owned_of_stored hnow h with h | h
    · cases hinv.partition.unique hsender h
    · cases hinv.partition.unique hsender h

/-- No receive is posted with a watched chunk. -/
theorem ne_recv_of_watched (hinv : OwnerInv s) (h : (s.transports t).Watched chunk) {t' : T}
    {wr : χ × UInt32} {recvs : List (χ × UInt32)} (hrecvs : (s.transports t').recvs = wr :: recvs) :
    chunk ≠ wr.1 := by
  rintro rfl
  have hmem : wr.1 ∈ s.owned (.receiving t') := by
    refine List.mem_append_left _ (List.mem_append_left _ ?_)
    simp [hrecvs]
  -- a posted chunk is not at the same time with a completion or in hand
  have hnodup := hinv.partition.nodup (.receiving t')
  rw [owned, TransportState.receiving, hrecvs, List.map_cons, List.append_assoc, List.cons_append,
    List.nodup_cons] at hnodup
  cases h with
  | landed h =>
    cases hinv.partition.unique hmem (owned_of_landed (.inl h))
    rw [map_fst_receipts] at h
    exact hnodup.1 (by simp [h])
  | incoming h =>
    cases hinv.partition.unique hmem (owned_of_landed (.inr h))
    exact hnodup.1 (by simp [h])
  | stored hnow h =>
    rcases owned_of_stored hnow h with h | h
    · cases hinv.partition.unique hmem h
    · cases hinv.partition.unique hmem h

end EngineState

/-! ### The simulation -/

/-- The transport `t` of the engine holds what the inbox holds, and `received` is what has landed
there. -/
structure Follows (s : EngineState T ι χ) (t : T) (received : List (RdmaChunk × UInt32))
    (n : InboxState) : Prop where
  /-- The receives on their way to `handle_thread`. -/
  landed : n.landed = (s.transports t).receipts.map fun r => (s.mem r.1, r.2)
  /-- The rest. -/
  work : (s.transports t).work.Reads s.mem n.work
  /-- The history. -/
  received : n.received = received

namespace Follows

variable {s s' : EngineState T ι χ} {t : T} {received : List (RdmaChunk × UInt32)} {n : InboxState}

/-- A step that moves nothing on the transport, and writes to no chunk that is watched. -/
theorem keep (h : Follows s t received n) (hwork : (s'.transports t).work = (s.transports t).work)
    (hreceipts : (s'.transports t).receipts = (s.transports t).receipts)
    (hmem : ∀ chunk, (s.transports t).Watched chunk → s'.mem chunk = s.mem chunk) :
    Follows s' t received n where
  landed := by
    rw [h.landed, hreceipts]
    refine List.map_congr_left fun r hr => ?_
    rw [hmem r.1 (.landed (List.mem_map_of_mem hr))]
  work := by
    rw [hwork]
    exact h.work.congr_mem (fun chunk hchunk => hmem chunk (.incoming hchunk))
      fun now hnow chunk hchunk => hmem chunk (.stored hnow hchunk)
  received := h.received

/-- `handle_thread` takes up a receive. -/
theorem event (h : Follows s t received n) {chunk : χ} {byteLen : UInt32}
    (hreceipts : (s.transports t).receipts = (chunk, byteLen) :: (s'.transports t).receipts)
    (hstep : workQueueStep s.mem (s.transports t).work (.recv byteLen chunk)
      = some (.ok (s'.transports t).work)) (hmem : s'.mem = s.mem) :
    ∃ n', inbox.step n .event = some (.ok n') ∧ Follows s' t received n' := by
  obtain ⟨work, hwork, hreads⟩ := h.work.step hstep
  have hlanded := h.landed
  rw [hreceipts, List.map_cons] at hlanded
  refine ⟨⟨_, work, n.received⟩, ?_, ⟨rfl, hmem ▸ hreads, h.received⟩⟩
  simp only [inbox, inboxStep, hlanded, hmem]
  exact map_map_eq_ok.mpr ⟨work, hwork, rfl⟩

/-- A step on the receiving half other than a landing is the same step of the inbox. -/
theorem act (h : Follows s t received n) {a : WorkAct χ} {b : InboxAct}
    (hb : inboxStep n b = (workQueueStep id n.work (a.read s.mem)).map
      (Except.map fun work => { n with work := work }))
    (hstep : workQueueStep s.mem (s.transports t).work a = some (.ok (s'.transports t).work))
    (hreceipts : (s'.transports t).receipts = (s.transports t).receipts) (hmem : s'.mem = s.mem) :
    ∃ n', inbox.step n b = some (.ok n') ∧ Follows s' t received n' := by
  obtain ⟨work, hwork, hreads⟩ := h.work.step hstep
  refine ⟨{ n with work := work }, hb.trans (map_map_eq_ok.mpr ⟨work, hwork, rfl⟩),
    ⟨?_, hmem ▸ hreads, h.received⟩⟩
  rw [h.landed, hreceipts, hmem]

variable [DecidableEq χ]

/-- A frame lands. -/
theorem land (h : Follows s t received n) {chunk : χ} {landed : RdmaChunk} {byteLen : UInt32}
    (hwork : (s'.transports t).work = (s.transports t).work)
    (hreceipts : (s'.transports t).receipts = (s.transports t).receipts ++ [(chunk, byteLen)])
    (hmem : s'.mem = Function.update s.mem chunk landed)
    (hother : ∀ chunk', (s.transports t).Watched chunk' → chunk' ≠ chunk) :
    ∃ n', inbox.step n (.land landed byteLen) = some (.ok n') ∧
      Follows s' t (received ++ [(landed, byteLen)]) n' := by
  have hsame : ∀ chunk', (s.transports t).Watched chunk' → s'.mem chunk' = s.mem chunk' :=
    fun chunk' hchunk' => by rw [hmem, Function.update_of_ne (hother chunk' hchunk')]
  have hold : (s.transports t).receipts.map (fun r => (s'.mem r.1, r.2))
      = (s.transports t).receipts.map fun r => (s.mem r.1, r.2) :=
    List.map_congr_left fun r hr => by rw [hsame r.1 (.landed (List.mem_map_of_mem hr))]
  refine ⟨_, rfl, ⟨?_, ?_, by rw [h.received]⟩⟩
  · rw [hreceipts, List.map_append, hold, ← h.landed, List.map_singleton, hmem,
      Function.update_self]
  · rw [hwork]
    exact h.work.congr_mem (fun chunk' hchunk' => hsame chunk' (.incoming hchunk'))
      fun now hnow chunk' hchunk' => hsame chunk' (.stored hnow hchunk')

end Follows

/-! ### What a step of the engine is to one transport -/

variable [DecidableEq T] [DecidableEq ι] [DecidableEq χ]

/-- What has landed on each transport, after a step. -/
def noteLanded (s : EngineState T ι χ) (a : EngineAct T ι χ)
    (received : T → List (RdmaChunk × UInt32)) : T → List (RdmaChunk × UInt32) :=
  match a with
  | .land t frame =>
      match (s.transports t).recvs with
      | [] => received
      | wr :: _ => Function.update received t
          (received t ++ [((s.mem wr.1).land frame, frame.byteLen)])
  | _ => received

/-- The engine, with all that has landed. -/
def engineLanded (w : Workload T ι) (mem : χ → RdmaChunk) :
    Machine (EngineState T ι χ × (T → List (RdmaChunk × UInt32))) CFault (EngineAct T ι χ) :=
  (engine w mem).recording (fun _ => []) noteLanded

namespace EngineState

variable {s s' : EngineState T ι χ} {t : T}

/-- The receiving half of `t` and its receives are the same in both, and so is what is watched. -/
structure Leaves (s s' : EngineState T ι χ) (t : T) : Prop where
  /-- The receiving half. -/
  work : (s'.transports t).work = (s.transports t).work
  /-- The receives. -/
  receipts : (s'.transports t).receipts = (s.transports t).receipts
  /-- The memory. -/
  mem : ∀ chunk, (s.transports t).Watched chunk → s'.mem chunk = s.mem chunk

omit [DecidableEq ι] [DecidableEq χ] in
/-- Writing another transport. -/
theorem Leaves.of_ne {t' : T} {transport : TransportState χ} (hne : t ≠ t')
    (hmem : s'.mem = s.mem)
    (htransports : s'.transports = Function.update s.transports t' transport) : s.Leaves s' t := by
  have hsame : s'.transports t = s.transports t := by rw [htransports, Function.update_of_ne hne]
  exact ⟨by rw [hsame], by rw [hsame], fun chunk _ => by rw [hmem]⟩

omit [DecidableEq ι] [DecidableEq χ] in
/-- Writing a transport whose receiving half and receives stay as they are. -/
theorem Leaves.set {t' : T} {transport : TransportState χ} (hmem : s'.mem = s.mem)
    (htransports : s'.transports = Function.update s.transports t' transport)
    (hwork : transport.work = (s.transports t').work)
    (hreceipts : transport.receipts = (s.transports t').receipts) (t : T) : s.Leaves s' t := by
  by_cases heq : t = t'
  · subst heq
    have hself : s'.transports t = transport := by rw [htransports, Function.update_self]
    exact ⟨by rw [hself, hwork], by rw [hself, hreceipts], fun chunk _ => by rw [hmem]⟩
  · exact .of_ne heq hmem htransports

omit [DecidableEq T] [DecidableEq ι] [DecidableEq χ] in
/-- A step that leaves all transports alone, and what is watched of the memory. -/
theorem Leaves.of_transports (htransports : s'.transports = s.transports)
    (hmem : ∀ chunk, (s.transports t).Watched chunk → s'.mem chunk = s.mem chunk) :
    s.Leaves s' t :=
  ⟨by rw [htransports], by rw [htransports], hmem⟩

omit [DecidableEq T] [DecidableEq ι] in
/-- The copy loop writes to the chunks of the call only. -/
theorem writeChunks_of_not_mem {chunk : χ} (data : List χ) : ∀ (mem : χ → RdmaChunk) filled,
    chunk ∉ data → writeChunks mem data filled chunk = mem chunk := by
  induction data with
  | nil => exact fun _ _ _ => rfl
  | cons first data ih =>
    intro mem filled hchunk
    rw [List.mem_cons, not_or] at hchunk
    cases filled with
    | nil => rfl
    | cons body filled => rw [writeChunks, ih _ _ hchunk.2, Function.update_of_ne hchunk.1]

/-- A send call takes a step. -/
theorem leaves_callStep {w : Workload T ι} {i : ι} (hinv : OwnerInv s)
    (hstep : s.callStep w i (s.calls i) = some (.ok s')) (t : T) : s.Leaves s' t := by
  cases hpc : s.calls i with
  | idle =>
    rw [hpc, callStep] at hstep
    cases hstep
    apply Leaves.set
    exacts [rfl, rfl, rfl, rfl]
  | drawn dataId =>
    rw [hpc, callStep] at hstep
    cases htake : (s.endpoint (w.via i)).getChunkList none (w.call i).chunkNum with
    | none => simp [htake] at hstep
    | some result =>
      obtain ⟨chunkList, endpoint⟩ := result
      cases hdata : chunkArray (w.call i).chunkNum.toNat chunkList with
      | error e => simp [htake, hdata, Except.map] at hstep
      | ok data =>
        simp only [htake, hdata, Except.map] at hstep
        cases hstep
        apply Leaves.set
        exacts [rfl, rfl, rfl, rfl]
  | taken dataId data =>
    rw [hpc, callStep] at hstep
    cases hfilled : (w.call i).copyToRdma dataId (data.map s.mem) with
    | error e => simp [hfilled, Except.map] at hstep
    | ok filled =>
      simp only [hfilled, Except.map] at hstep
      cases hstep
      -- the chunks of the call are not among those watched
      refine .of_transports rfl fun chunk hchunk => writeChunks_of_not_mem data s.mem filled ?_
      have hnot := not_mem_call_of_watched hinv hchunk i
      rwa [hpc] at hnot
  | posting requests =>
    cases requests with
    | nil =>
      rw [hpc, callStep] at hstep
      cases hstep
    | cons wr rest =>
      rw [hpc, callStep, Endpoint.rdmaTransportSend_ok 0 _ wr (le_refl _)] at hstep
      cases hstep
      apply Leaves.set
      exacts [rfl, rfl, rfl, rfl]

omit [DecidableEq ι] [DecidableEq χ] in
/-- The loop of `poll_thread` goes over a completion. -/
theorem leaves_process {t' : T} {wc : WorkCompletion χ} {polled : List (WorkCompletion χ)}
    (hpolled : (s.transports t').polled = wc :: polled)
    (hstep : ((s.pollStep t' wc).map fun s => s.set t' { s.transports t' with
      polled := polled, replenished := (s.transports t').replenished ++ [wc] }) = .ok s') (t : T) :
    s.Leaves s' t := by
  have hreceipts : ∀ sends recvs, { s.transports t' with
      sends := sends, recvs := recvs, polled := polled,
      replenished := (s.transports t').replenished ++ [wc] }.receipts
        = (s.transports t').receipts := by
    intro sends recvs
    simp [receipts, completions, hpolled]
  cases wc with
  | send chunk =>
    cases hstep
    apply Leaves.set
    exacts [rfl, rfl, rfl, hreceipts _ _]
  | recv chunk byteLen =>
    cases hcall : replenishFor (s.mem chunk).header with
    | none =>
      simp only [pollStep, hcall] at hstep
      cases hstep
      apply Leaves.set
      exacts [rfl, rfl, rfl, hreceipts _ _]
    | some call =>
      cases hrun : call.run (s.endpoint t') none fun _ => 0 with
      | error e => simp [pollStep, hcall, hrun, Except.map] at hstep
      | ok result =>
        obtain ⟨code, taken, endpoint⟩ := result
        simp only [pollStep, hcall, hrun, Except.map, setEndpoint, set_transports_self,
          set_set] at hstep
        cases hstep
        apply Leaves.set
        exacts [rfl, rfl, rfl, hreceipts _ _]

end EngineState

namespace Follows

variable {s s' : EngineState T ι χ} {t : T} {received : T → List (RdmaChunk × UInt32)}
  {n : InboxState} {w : Workload T ι}

omit [DecidableEq T] [DecidableEq ι] [DecidableEq χ] in
/-- The inbox need not move. -/
theorem stay {received : List (RdmaChunk × UInt32)} (h : Follows s t received n)
    (hleaves : s.Leaves s' t) (hn : inbox.Reachable n) :
    ∃ n', inbox.Reachable n' ∧ Follows s' t received n' :=
  ⟨n, hn, h.keep hleaves.work hleaves.receipts hleaves.mem⟩

omit [DecidableEq ι] [DecidableEq χ] in
/-- `handle_thread` takes up a receive of one transport. -/
theorem event_on {received : List (RdmaChunk × UInt32)} (h : Follows s t received n)
    (hn : inbox.Reachable n) {chunk : χ} {byteLen : UInt32} {t' : T} {transport : TransportState χ}
    (hreceipts : (s.transports t').receipts = (chunk, byteLen) :: transport.receipts)
    (hstep : workQueueStep s.mem (s.transports t').work (.recv byteLen chunk)
      = some (.ok transport.work)) (hmem : s'.mem = s.mem)
    (htransports : s'.transports = Function.update s.transports t' transport) :
    ∃ n', inbox.Reachable n' ∧ Follows s' t received n' := by
  by_cases heq : t = t'
  · subst heq
    have hself : s'.transports t = transport := by rw [htransports, Function.update_self]
    obtain ⟨n', hn', hnext⟩ := h.event (hself ▸ hreceipts) (hself ▸ hstep) hmem
    exact ⟨n', hn.next trivial hn', hnext⟩
  · exact h.stay (.of_ne heq hmem htransports) hn

omit [DecidableEq ι] [DecidableEq χ] in
/-- A step on the receiving half of one transport. -/
theorem act_on {received : List (RdmaChunk × UInt32)} (h : Follows s t received n)
    (hn : inbox.Reachable n) {a : WorkAct χ} {b : InboxAct} {t' : T} {transport : TransportState χ}
    (hb : inboxStep n b = (workQueueStep id n.work (a.read s.mem)).map
      (Except.map fun work => { n with work := work }))
    (hstep : workQueueStep s.mem (s.transports t').work a = some (.ok transport.work))
    (hmem : s'.mem = s.mem)
    (htransports : s'.transports = Function.update s.transports t' transport)
    (hreceipts : transport.receipts = (s.transports t').receipts) :
    ∃ n', inbox.Reachable n' ∧ Follows s' t received n' := by
  by_cases heq : t = t'
  · subst heq
    have hself : s'.transports t = transport := by rw [htransports, Function.update_self]
    obtain ⟨n', hn', hnext⟩ := h.act hb (hself ▸ hstep) (hself ▸ hreceipts) hmem
    exact ⟨n', hn.next trivial hn', hnext⟩
  · exact h.stay (.of_ne heq hmem htransports) hn

/-- **Each step of the engine** is one of the inbox, or none. -/
theorem step (h : Follows s t (received t) n) (hn : inbox.Reachable n) (hinv : OwnerInv s)
    {a : EngineAct T ι χ} (hstep : engineStep w s a = some (.ok s')) :
    ∃ n', inbox.Reachable n' ∧ Follows s' t (noteLanded s a received t) n' := by
  cases a with
  | append fresh =>
    simp only [engineStep] at hstep
    split at hstep <;> cases hstep
    exact h.stay (.of_transports rfl fun _ _ => rfl) hn
  | create t' =>
    simp only [engineStep] at hstep
    cases hrun : (s.endpoint t').rdmaTransportRecvWithNum maxPreRecvQp none fun _ => 0 with
    | error e => simp [hrun, Except.map] at hstep
    | ok result =>
      obtain ⟨code, taken, endpoint⟩ := result
      simp only [hrun, Except.map] at hstep
      cases hstep
      refine h.stay ?_ hn
      apply EngineState.Leaves.set
      exacts [rfl, rfl, rfl, rfl]
  | call i => exact h.stay (EngineState.leaves_callStep hinv hstep t) hn
  | sent t' =>
    simp only [engineStep] at hstep
    split at hstep <;> cases hstep
    refine h.stay ?_ hn
    apply EngineState.Leaves.set
    · rfl
    · rfl
    · rfl
    · simp [receipts, completions]
  | land t' frame =>
    simp only [engineStep] at hstep
    split at hstep
    case h_1 => cases hstep
    rename_i wr recvs hrecvs
    have hs' := Except.ok.inj (Option.some.inj hstep)
    have hother : ∀ chunk, (s.transports t).Watched chunk → chunk ≠ wr.1 := fun chunk hchunk =>
      EngineState.ne_recv_of_watched hinv hchunk hrecvs
    have hmem : s'.mem = Function.update s.mem wr.1 ((s.mem wr.1).land frame) := by
      rw [← hs']
      rfl
    have htransports : s'.transports = Function.update s.transports t' { s.transports t' with
        recvs := recvs, cq := (s.transports t').cq ++ [.recv wr.1 frame.byteLen] } := by
      rw [← hs']
      rfl
    by_cases heq : t = t'
    · subst heq
      have hself := congrFun htransports t
      rw [Function.update_self] at hself
      have hreceipts : (s'.transports t).receipts
          = (s.transports t).receipts ++ [(wr.1, frame.byteLen)] := by
        simp [hself, receipts, completions]
      obtain ⟨n', hn', hnext⟩ := h.land (by rw [hself]) hreceipts hmem hother
      refine ⟨n', hn.next trivial hn', ?_⟩
      simpa only [noteLanded, hrecvs, Function.update_self] using hnext
    · have hnote : noteLanded s (.land t' frame) received t = received t := by
        simp only [noteLanded, hrecvs, Function.update_of_ne heq]
      have hsame := congrFun htransports t
      rw [Function.update_of_ne heq] at hsame
      rw [hnote]
      refine h.stay ⟨by rw [hsame], by rw [hsame], fun chunk hchunk => ?_⟩ hn
      rw [hmem, Function.update_of_ne (hother chunk hchunk)]
  | poll t' eventNum =>
    simp only [engineStep] at hstep
    split at hstep <;> cases hstep
    obtain ⟨hpolled, hreplenished, -, -⟩ := ‹_ ∧ _›
    refine h.stay ?_ hn
    apply EngineState.Leaves.set
    · rfl
    · rfl
    · rfl
    · simp [receipts, completions, hpolled, hreplenished]
  | process t' =>
    simp only [engineStep] at hstep
    split at hstep
    · cases hstep
    · exact h.stay (EngineState.leaves_process ‹_› (Option.some.inj hstep) t) hn
  | pushBatch t' =>
    simp only [engineStep] at hstep
    split at hstep <;> cases hstep
    refine h.stay ?_ hn
    apply EngineState.Leaves.set
    · rfl
    · rfl
    · rfl
    · simp [receipts, completions]
  | popBatch t' =>
    simp only [engineStep] at hstep
    split at hstep <;> cases hstep
    rename_i batch rest hhandling hidle hbatches
    refine h.stay ?_ hn
    apply EngineState.Leaves.set
    · rfl
    · rfl
    · rfl
    · simp [receipts, completions, hhandling, hbatches]
  | event t' =>
    simp only [engineStep] at hstep
    split at hstep
    case h_2 => cases hstep
    rename_i wc handling hhandling hidle
    cases wc with
    | send chunk =>
      cases hstep
      refine h.stay ?_ hn
      apply EngineState.Leaves.set
      · rfl
      · rfl
      · rfl
      · simp [receipts, completions, hhandling, EngineState.release, List.filterMap_cons]
    | recv chunk byteLen =>
      obtain ⟨s₁, hs₁, rfl⟩ := map_map_eq_ok.mp hstep
      obtain ⟨work, hwork, rfl⟩ := map_map_eq_ok.mp hs₁
      rw [EngineState.setWork, EngineState.set_transports_self, EngineState.set_set]
      refine h.event_on hn ?_ hwork rfl rfl
      simp [receipts, completions, hhandling]
  | handler t' =>
    obtain ⟨work, hwork, rfl⟩ := map_map_eq_ok.mp hstep
    have hact : workQueueStep s.mem (s.transports t').work .handler = some (.ok work) := hwork
    exact h.act_on (b := .handler) hn rfl hact rfl rfl rfl
  | startItem t' =>
    obtain ⟨work, hwork, rfl⟩ := map_map_eq_ok.mp hstep
    have hact : workQueueStep s.mem (s.transports t').work .startItem = some (.ok work) := hwork
    exact h.act_on (b := .startItem) hn rfl hact rfl rfl rfl
  | worker t' k =>
    have hstep : s.workerStep t' k = some (.ok s') := hstep
    cases hk : (s.transports t').work.workers[k]? with
    | none => simp [EngineState.workerStep, WorkState.workerStep, hk] at hstep
    | some pc =>
      cases pc with
      | top =>
        simp only [EngineState.workerStep, hk] at hstep
        obtain ⟨work, hwork, rfl⟩ := map_map_eq_ok.mp hstep
        have hact : workQueueStep s.mem (s.transports t').work (.worker k) = some (.ok work) :=
          hwork
        exact h.act_on (b := .worker k) hn rfl hact rfl rfl rfl
      | popped head =>
        simp only [EngineState.workerStep, hk] at hstep
        obtain ⟨work, hwork, rfl⟩ := map_map_eq_ok.mp hstep
        have hact : workQueueStep s.mem (s.transports t').work (.worker k) = some (.ok work) :=
          hwork
        exact h.act_on (b := .worker k) hn rfl hact rfl rfl rfl
      | delivered head =>
        simp only [EngineState.workerStep, hk] at hstep
        cases hv : (s.transports t').work.heap head with
        | none => simp [WorkState.deref, hv, Except.map] at hstep
        | some v =>
          simp only [WorkState.deref_ok.mpr hv, Except.map] at hstep
          -- the loop that releases the chunks is at its end, or has one more
          cases hchunk : v.data[(s.transports t').released head]? with
          | none =>
            simp only [hchunk] at hstep
            cases hstep
            refine h.act_on (a := .worker k) (b := .worker k) hn rfl ?_ rfl rfl rfl
            simp only [workQueueStep, WorkState.workerStep, hk]
          | some chunk =>
            simp only [hchunk] at hstep
            cases hstep
            refine h.stay ?_ hn
            apply EngineState.Leaves.set
            exacts [rfl, rfl, rfl, rfl]

end Follows

/-- **What is called back is what landed.** In every run of the engine, for any frames, any number
of transports and send calls and every interleaving, each transport is the receiving half that is
handed the contents of every chunk when its frame has landed: whatever is written meanwhile to the
chunks of the same pool, by the copy loops of the send calls and by frames that land, on this
transport and on others, no message called back shows any of it. -/
theorem called_back_as_landed (w : Workload T ι) (mem : χ → RdmaChunk) (t : T)
    (s : EngineState T ι χ) (received : T → List (RdmaChunk × UInt32))
    (hs : (engineLanded w mem).Reachable (s, received)) :
    ∃ n : InboxState, inbox.Reachable n ∧ n.received = received t ∧
      n.landed = ((s.transports t).receipts.map fun r => (s.mem r.1, r.2)) ∧
      n.work.callbacks = (s.transports t).work.callbacks := by
  have hfollows : ∀ {p : EngineState T ι χ × (T → List (RdmaChunk × UInt32))},
      (engineLanded w mem).Reachable p →
        OwnerInv p.1 ∧ ∃ n, inbox.Reachable n ∧ Follows p.1 t (p.2 t) n := by
    intro p hp
    induction hp with
    | init => exact ⟨.start (w := w), _, .init, ⟨rfl, .start, rfl⟩⟩
    | next _ _ hstep ih =>
      obtain ⟨hinv, n, hn, h⟩ := ih
      obtain ⟨s', hs', rfl⟩ := map_map_eq_ok.mp hstep
      exact ⟨hinv.step hs', h.step hn hinv hs'⟩
  obtain ⟨-, n, hn, h⟩ := hfollows hs
  exact ⟨n, hn, h.received, h.landed, h.work.callbacks⟩

/-- Two frames have landed while another message was sent, and the message is called back. -/
theorem called_back_as_landed_bothWays : ∃ (s : EngineState Unit Unit ℕ) (n : InboxState),
    (engine sendShort fun _ => .blank).Reachable s ∧ s.free = [1, 0, 1024] ∧ inbox.Reachable n ∧
      n.landed = ((s.transports ()).receipts.map fun r => (s.mem r.1, r.2)) ∧
      n.work.callbacks = [⟨some [4, 5], 2⟩] := by
  obtain ⟨s, hs, hfree, -, hcallbacks⟩ := bothWays_reachable
  obtain ⟨received, hreceived⟩ :=
    (Machine.reachable_iff_recording (fun _ => []) noteLanded).mp hs
  obtain ⟨n, hn, -, hlanded, hback⟩ :=
    called_back_as_landed sendShort (fun _ => .blank) () s received hreceived
  exact ⟨s, n, hs, hfree, hn, hlanded, hback.trans hcallbacks⟩

end SparkRdma
