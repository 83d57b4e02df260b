import SparkRdma.Engine.Engine
import SparkRdma.Foundations.Ownership
import SparkRdma.WorkQueue.Chunks

/-! # Who owns a chunk

Every chunk of the pool has one owner: the free list, a sender, the adapter, a completion, a varray.
Each step of the engine hands chunks from one owner to another, and none makes a copy of a pointer
that it keeps.

* **`EngineState.owned`** — the chunks of each owner.
* **`TransportState.Shifts`** — what a step on one transport does to the owners it knows.
* **`OwnerInv`** — the invariant: the owners partition the chunks of the pool, and the varrays of
  each transport are in order.
* **`oneOwner`** — every chunk has exactly one owner in every reachable state. -/

namespace SparkRdma

open Interleaving Ownership

variable {T ι χ : Type}

/-- The owners of chunks. -/
inductive Owner (T ι : Type)
  /-- The free list. -/
  | free
  /-- A send call that has not posted them yet. -/
  | sender (i : ι)
  /-- The posted sends of a transport, and its send completions not yet handled. -/
  | sending (t : T)
  /-- The posted receives of a transport, and its receive completions not yet handled. -/
  | receiving (t : T)
  /-- The varrays on the `work_queue` of a transport. -/
  | queued (t : T)
  /-- The varrays that workers have popped from it. -/
  | delivering (t : T)
  deriving DecidableEq, Repr

/-- The owners that one transport knows of. -/
inductive Spot
  /-- The free list. -/
  | free
  /-- Its posted sends and send completions. -/
  | sending
  /-- Its posted receives and receive completions. -/
  | receiving
  /-- Its queued varrays. -/
  | queued
  /-- Its popped varrays. -/
  | delivering
  deriving DecidableEq, Repr

/-- The owner that a transport knows under this name. -/
def Spot.owner (t : T) : Spot → Owner T ι
  | free => .free
  | sending => .sending t
  | receiving => .receiving t
  | queued => .queued t
  | delivering => .delivering t

/-- A transport tells its owners apart. -/
theorem Spot.owner_injective (t : T) : Function.Injective (Spot.owner (ι := ι) t) := by
  rintro (_ | _ | _ | _ | _) (_ | _ | _ | _ | _) h <;> first | rfl | cases h

namespace TransportState

/-- The completions not yet handled, from the batch `handle_thread` is going over back to the
completion queue. -/
def completions (s : TransportState χ) : List (WorkCompletion χ) :=
  s.handling ++ s.handleQuque.flatten ++ s.replenished ++ s.polled ++ s.cq

/-- The chunks of the posted sends and the send completions. -/
def sending (s : TransportState χ) : List χ :=
  s.sends.map Prod.fst ++ s.completions.filterMap WorkCompletion.sent?

/-- The chunks of the posted receives and the receive completions. The event under way is handled
when its chunk is stored. -/
def receiving (s : TransportState χ) : List χ :=
  s.recvs.map Prod.fst ++ s.completions.filterMap WorkCompletion.received? ++ s.work.incoming

/-- The chunks at each spot, with the pool's free list. -/
def spots (s : TransportState χ) (free : List χ) : Spot → List χ
  | .free => free
  | .sending => s.sending
  | .receiving => s.receiving
  | .queued => s.work.queued
  | .delivering => s.work.delivering s.released

end TransportState

/-- The chunks of each owner. -/
def EngineState.owned (s : EngineState T ι χ) : Owner T ι → List χ
  | .free => s.free
  | .sender i => (s.calls i).chunks
  | .sending t => (s.transports t).sending
  | .receiving t => (s.transports t).receiving
  | .queued t => (s.transports t).work.queued
  | .delivering t => (s.transports t).work.delivering (s.transports t).released

/-- An owner that a transport knows has the chunks at that spot. -/
theorem EngineState.owned_owner (s : EngineState T ι χ) (t : T) (spot : Spot) :
    s.owned (spot.owner t) = (s.transports t).spots s.free spot := by
  cases spot <;> rfl

/-! ### Steps on one transport -/

namespace TransportState

variable {s s' : TransportState χ} {free free' : List χ}

/-- From `s` with the free list `free` to `s'` with `free'`, chunks move from one spot to another,
or none do; and the varrays are in order behind. -/
structure Shifts (s : TransportState χ) (free : List χ) (s' : TransportState χ) (free' : List χ) :
    Prop where
  /-- The varrays are in order. -/
  queue : s'.work.QueueInv
  /-- The chunks move. -/
  moves : Moves (s.spots free) (s'.spots free')

namespace Shifts

/-- Nothing moves. -/
theorem stay (queue : s'.work.QueueInv) (hsending : s'.sending.Perm s.sending)
    (hreceiving : s'.receiving.Perm s.receiving) (hqueued : s'.work.queued.Perm s.work.queued)
    (hdelivering : (s'.work.delivering s'.released).Perm (s.work.delivering s.released)) :
    s.Shifts free s' free := by
  refine ⟨queue, .inl fun spot => ?_⟩
  cases spot with
  | free => exact .refl _
  | sending => exact hsending
  | receiving => exact hreceiving
  | queued => exact hqueued
  | delivering => exact hdelivering

/-- Completions are handed on from one list to the next. -/
theorem shuffle (queue : s.work.QueueInv) (hsends : s'.sends = s.sends)
    (hrecvs : s'.recvs = s.recvs)
    (hcompletions : s'.completions = s.completions) (hwork : s'.work = s.work)
    (hreleased : s'.released = s.released) : s.Shifts free s' free :=
  stay (hwork ▸ queue) (.of_eq (by rw [sending, sending, hsends, hcompletions]))
    (.of_eq (by rw [receiving, receiving, hrecvs, hcompletions, hwork])) (.of_eq (by rw [hwork]))
    (.of_eq (by rw [hwork, hreleased]))

/-- A posted send completes. -/
theorem sent (queue : s.work.QueueInv) {wr : χ × UInt32} {sends : List (χ × UInt32)}
    (hsends : s.sends = wr :: sends) :
    s.Shifts free { s with sends := sends, cq := s.cq ++ [WorkCompletion.send wr.1] } free := by
  refine stay queue ?_ (.of_eq ?_) (.refl _) (.refl _)
  · simp only [sending, completions, hsends, ← List.append_assoc, List.filterMap_append,
      List.map_cons, List.cons_append]
    exact List.perm_append_singleton wr.1 _
  · simp [receiving, completions]

/-- A frame lands in a posted receive. -/
theorem land (queue : s.work.QueueInv) {wr : χ × UInt32} {recvs : List (χ × UInt32)}
    {byteLen : UInt32} (hrecvs : s.recvs = wr :: recvs) :
    s.Shifts free { s with recvs := recvs, cq := s.cq ++ [WorkCompletion.recv wr.1 byteLen] }
      free := by
  refine stay queue (.of_eq ?_) ?_ (.refl _) (.refl _)
  · simp [sending, completions]
  · simp only [receiving, completions, hrecvs, ← List.append_assoc, List.filterMap_append,
      List.map_cons, List.cons_append]
    exact (List.perm_append_singleton wr.1 _).append_right _

/-- Receives are posted with chunks from the free list. -/
theorem post (queue : s.work.QueueInv) {moved : List χ} (hfree : free = moved ++ free')
    (hsends : s'.sends = s.sends) (hrecvs : s'.recvs.map Prod.fst = s.recvs.map Prod.fst ++ moved)
    (hcompletions : s'.completions = s.completions) (hwork : s'.work = s.work)
    (hreleased : s'.released = s.released) : s.Shifts free s' free' := by
  refine ⟨hwork ▸ queue, .inr ⟨moved, .free, .receiving, nofun, .of_eq hfree, ?_, ?_⟩⟩
  · rw [spots, spots, receiving, receiving, hrecvs, hcompletions, hwork]
    simp only [List.append_assoc]
    exact List.perm_append_comm_assoc ..
  · intro spot hfrom hto
    cases spot with
    | free => exact (hfrom rfl).elim
    | sending => exact .of_eq (by rw [spots, spots, sending, sending, hsends, hcompletions])
    | receiving => exact (hto rfl).elim
    | queued => exact .of_eq (by rw [spots, spots, hwork])
    | delivering => exact .of_eq (by rw [spots, spots, hwork, hreleased])

/-- `handle_send_event` releases the chunk of a send completion. -/
theorem sendEvent (queue : s.work.QueueInv) {chunk : χ} {handling : List (WorkCompletion χ)}
    (hhandling : s.handling = .send chunk :: handling) :
    s.Shifts free { s with handling := handling } (chunk :: free) := by
  refine ⟨queue, .inr ⟨[chunk], .sending, .free, nofun, ?_, .refl _, ?_⟩⟩
  · simp only [spots, sending, completions, hhandling, List.cons_append, List.filterMap_cons,
      WorkCompletion.sent?_send]
    exact List.perm_middle
  · intro spot hfrom hto
    cases spot with
    | free => exact (hto rfl).elim
    | sending => exact (hfrom rfl).elim
    | receiving =>
      refine .of_eq ?_
      simp [spots, receiving, completions, hhandling, List.filterMap_cons]
    | queued => exact .refl _
    | delivering => exact .refl _

/-- `handle_recv_event` takes up a receive completion. -/
theorem recvEvent {work : WorkState χ} {chunk : χ} {byteLen : UInt32}
    {handling : List (WorkCompletion χ)} (hhandling : s.handling = .recv chunk byteLen :: handling)
    (hidle : s.work.incoming = [])
    (hwork : work.Holds s.released [chunk] s.work.queued (s.work.delivering s.released)) :
    s.Shifts free { s with work := work, handling := handling } free := by
  refine stay hwork.inv (.of_eq ?_) ?_ hwork.queued hwork.delivering
  · simp [sending, completions, hhandling, List.filterMap_cons]
  · simp only [receiving, completions, hhandling, hidle, List.cons_append, List.filterMap_cons,
      WorkCompletion.received?_recv, List.append_nil]
    refine (hwork.incoming.append_left _).trans ?_
    exact (List.perm_append_singleton chunk _).trans List.perm_middle.symm

/-- A section of the receiving half that moves nothing. -/
theorem work {work : WorkState χ} {released : ℕ → ℕ} (hwork : work.Holds released s.work.incoming
      s.work.queued (s.work.delivering s.released)) :
    s.Shifts free { s with work := work, released := released } free :=
  stay hwork.inv (.refl _) (hwork.incoming.append_left _) hwork.queued hwork.delivering

/-- The chunk of the event under way goes to the queue. -/
theorem store {work : WorkState χ} {chunk : χ} (hincoming : s.work.incoming = [chunk])
    (hwork : work.Holds s.released [] (chunk :: s.work.queued) (s.work.delivering s.released)) :
    s.Shifts free { s with work := work } free := by
  refine ⟨hwork.inv, .inr ⟨[chunk], .receiving, .queued, nofun, ?_, hwork.queued, ?_⟩⟩
  · have hleft : work.incoming = [] := hwork.incoming.eq_nil
    simp only [spots, receiving, hincoming, hleft, List.append_nil]
    exact List.perm_append_singleton chunk _
  · intro spot hfrom hto
    cases spot with
    | free => exact .refl _
    | sending => exact .refl _
    | receiving => exact (hfrom rfl).elim
    | queued => exact (hto rfl).elim
    | delivering => exact hwork.delivering

/-- A worker pops a varray. -/
theorem pop {work : WorkState χ} {moved queued : List χ}
    (hqueued : s.work.queued.Perm (moved ++ queued))
    (hwork : work.Holds s.released s.work.incoming queued (moved ++ s.work.delivering s.released)) :
    s.Shifts free { s with work := work } free := by
  refine ⟨hwork.inv, .inr ⟨moved, .queued, .delivering, nofun, ?_, hwork.delivering, ?_⟩⟩
  · exact hqueued.trans (hwork.queued.symm.append_left _)
  · intro spot hfrom hto
    cases spot with
    | free => exact .refl _
    | sending => exact .refl _
    | receiving => exact hwork.incoming.append_left _
    | queued => exact (hfrom rfl).elim
    | delivering => exact (hto rfl).elim

/-- A worker releases a chunk. -/
theorem release (queue : s.work.QueueInv) {released : ℕ → ℕ} {chunk : χ}
    (hdelivering : (s.work.delivering s.released).Perm (chunk :: s.work.delivering released)) :
    s.Shifts free { s with released := released } (chunk :: free) := by
  refine ⟨queue, .inr ⟨[chunk], .delivering, .free, nofun, hdelivering, .refl _, ?_⟩⟩
  intro spot hfrom hto
  cases spot with
  | free => exact (hto rfl).elim
  | sending => exact .refl _
  | receiving => exact .refl _
  | queued => exact .refl _
  | delivering => exact (hfrom rfl).elim

end Shifts

end TransportState

/-! ### The invariant -/

/-- The invariant of the engine. -/
structure OwnerInv (s : EngineState T ι χ) : Prop where
  /-- The owners partition the chunks of the pool. -/
  partition : Partition {chunk | chunk ∈ s.chunks} s.owned
  /-- The varrays of each transport are in order. -/
  queue : ∀ t, (s.transports t).work.QueueInv

namespace OwnerInv

variable {w : Workload T ι} {mem : χ → RdmaChunk} {s s' : EngineState T ι χ} {t : T} {i : ι}

/-- A step that is one on a transport and the pool. -/
theorem shift [DecidableEq T] (h : OwnerInv s) {transport : TransportState χ}
    (hchunks : s'.chunks = s.chunks) (hcalls : s'.calls = s.calls)
    (htransports : s'.transports = Function.update s.transports t transport)
    (hshifts : (s.transports t).Shifts s.free transport s'.free) : OwnerInv s' := by
  have hself : s'.transports t = transport := by rw [htransports, Function.update_self]
  have hothers : ∀ t', t' ≠ t → s'.transports t' = s.transports t' := fun t' hne => by
    rw [htransports, Function.update_of_ne hne]
  refine ⟨hchunks ▸ h.partition.of_moves ?_, fun t' => ?_⟩
  · refine hshifts.moves.lift (Spot.owner_injective t) (s.owned_owner t) ?_ ?_
    · intro spot
      rw [s'.owned_owner, hself]
    · intro owner hnot
      -- An owner that the transport does not know: a call, or one of another transport.
      have hne : ∀ {t' : T} (spot : Spot), owner = spot.owner t' → t' ≠ t := by
        rintro t' spot rfl rfl
        exact hnot spot rfl
      cases owner with
      | free => exact (hnot .free rfl).elim
      | sender i => exact .of_eq (by rw [EngineState.owned, hcalls, EngineState.owned])
      | sending t' =>
        rw [EngineState.owned, hothers t' (hne .sending rfl), EngineState.owned]
      | receiving t' =>
        rw [EngineState.owned, hothers t' (hne .receiving rfl), EngineState.owned]
      | queued t' =>
        rw [EngineState.owned, hothers t' (hne .queued rfl), EngineState.owned]
      | delivering t' =>
        rw [EngineState.owned, hothers t' (hne .delivering rfl), EngineState.owned]
  · by_cases heq : t' = t
    · rw [heq, hself]
      exact hshifts.queue
    · rw [hothers t' heq]
      exact h.queue t'

/-! ### The send calls -/

section Calls

variable [DecidableEq ι]

/-- Moving a call changes what that call holds, and nothing else. -/
theorem owned_goto (s : EngineState T ι χ) (pc : CallPc χ) {owner : Owner T ι}
    (howner : owner ≠ .sender i) : (s.goto i pc).owned owner = s.owned owner := by
  cases owner with
  | sender i' =>
    have hne : i' ≠ i := fun heq => howner (heq ▸ rfl)
    rw [EngineState.owned, s.goto_calls_of_ne pc hne, EngineState.owned]
  | _ => rfl

/-- What the call holds then. -/
theorem owned_goto_self (s : EngineState T ι χ) (pc : CallPc χ) :
    (s.goto i pc).owned (.sender i) = pc.chunks := by
  rw [EngineState.owned, s.goto_calls_self]

/-- A call moves on and keeps what it holds. -/
theorem goto (h : OwnerInv s) {pc : CallPc χ} (hpc : pc.chunks = (s.calls i).chunks) :
    OwnerInv (s.goto i pc) := by
  refine ⟨h.partition.perm fun owner => .of_eq ?_, h.queue⟩
  by_cases howner : owner = .sender i
  · rw [howner, owned_goto_self, hpc, EngineState.owned]
  · exact owned_goto s pc howner

/-- A call takes its chunks off the free list. -/
theorem take (h : OwnerInv s) {pc : CallPc χ} {free : List χ} (hpc : (s.calls i).chunks = [])
    (hfree : s.free = pc.chunks ++ free) : OwnerInv ({ s with free := free }.goto i pc) := by
  refine ⟨h.partition.move pc.chunks (i := .free) (j := .sender i) nofun (.of_eq hfree) ?_ ?_,
    h.queue⟩
  · rw [owned_goto_self, EngineState.owned, hpc, List.append_nil]
  · intro owner hfrom hto
    rw [owned_goto _ _ hto]
    cases owner with
    | free => exact (hfrom rfl).elim
    | _ => exact .refl _

variable [DecidableEq T]

/-- A call hands a chunk over to the adapter. -/
theorem post (h : OwnerInv s) {pc : CallPc χ} {chunk : χ} {transport : TransportState χ}
    (hpc : (s.calls i).chunks = chunk :: pc.chunks)
    (hsending : transport.sending.Perm (chunk :: (s.transports t).sending))
    (hreceiving : transport.receiving = (s.transports t).receiving)
    (hwork : transport.work = (s.transports t).work)
    (hreleased : transport.released = (s.transports t).released) :
    OwnerInv ((s.set t transport).goto i pc) := by
  have hkeep : ∀ {β : Type} (f : TransportState χ → β) (t' : T), f transport = f (s.transports t) →
      f ((s.set t transport).transports t') = f (s.transports t') := by
    intro β f t' hf
    by_cases heq : t' = t
    · rw [heq, s.set_transports_self, hf]
    · rw [s.set_transports_of_ne transport heq]
  have hto : Owner.sending t ≠ Owner.sender i := nofun
  refine ⟨h.partition.move [chunk] hto.symm ?_ ?_ ?_, fun t' => ?_⟩
  · rw [owned_goto_self, EngineState.owned, hpc, List.singleton_append]
  · rw [owned_goto _ _ hto, EngineState.owned, s.set_transports_self]
    exact hsending
  · intro owner hfrom hto
    rw [owned_goto _ _ hfrom]
    cases owner with
    | free => exact .refl _
    | sender i' => exact .refl _
    | sending t' =>
      have hne : t' ≠ t := fun heq => hto (heq ▸ rfl)
      rw [EngineState.owned, s.set_transports_of_ne transport hne, EngineState.owned]
    | receiving t' => exact .of_eq (hkeep TransportState.receiving t' hreceiving)
    | queued t' => exact .of_eq (hkeep (fun s => s.work.queued) t' (by rw [hwork]))
    | delivering t' =>
      exact .of_eq (hkeep (fun s => s.work.delivering s.released) t' (by rw [hwork, hreleased]))
  · exact (hkeep TransportState.work t' hwork).symm ▸ h.queue t'

end Calls

/-! ### The steps -/

/-- `append_rdma_buffer_pool` brings in new chunks. -/
theorem append (h : OwnerInv s) {fresh : List χ} (hnodup : fresh.Nodup)
    (hfresh : ∀ chunk ∈ fresh, chunk ∉ s.chunks) :
    OwnerInv { s with chunks := fresh ++ s.chunks, free := fresh ++ s.free } := by
  refine ⟨h.partition.extend fresh (j := .free) hnodup hfresh (fun chunk => List.mem_append)
    (.refl _) fun owner howner => ?_, h.queue⟩
  cases owner with
  | free => exact (howner rfl).elim
  | _ => exact .refl _

section Threads

variable [DecidableEq T]

/-- A posting function that posts receives. -/
theorem recv (h : OwnerInv s) {call : PostCall} (hcall : ∀ c, call ≠ .send c) {code : ℤ}
    {taken : List χ} {endpoint : Endpoint χ} {transport : TransportState χ}
    (hrun : call.run (s.endpoint t) none (fun _ => 0) = .ok (code, taken, endpoint))
    (hsends : transport.sends = endpoint.sends) (hrecvs : transport.recvs = endpoint.recvs)
    (hcompletions : transport.completions = (s.transports t).completions)
    (hwork : transport.work = (s.transports t).work)
    (hreleased : transport.released = (s.transports t).released) :
    OwnerInv ({ s with free := endpoint.free }.set t transport) := by
  obtain ⟨hfree, hsends', hrecvs'⟩ := PostCall.run_recvs hcall hrun
  exact h.shift rfl rfl rfl (.post (h.queue t) hfree (hsends.trans hsends') (hrecvs ▸ hrecvs')
    hcompletions hwork hreleased)

/-- The loop of `poll_thread` goes over a completion. -/
theorem process (h : OwnerInv s) {wc : WorkCompletion χ} {polled : List (WorkCompletion χ)}
    (hpolled : (s.transports t).polled = wc :: polled)
    (hstep : ((s.pollStep t wc).map fun s => s.set t { s.transports t with
      polled := polled, replenished := (s.transports t).replenished ++ [wc] }) = .ok s') :
    OwnerInv s' := by
  have hcompletions : ∀ sends recvs, { s.transports t with
      sends := sends, recvs := recvs, polled := polled,
      replenished := (s.transports t).replenished ++ [wc] }.completions
        = (s.transports t).completions := by
    intro sends recvs
    simp [TransportState.completions, hpolled]
  -- Without a call to make, the completion is handed on.
  have hkeep : OwnerInv (s.set t { s.transports t with
      polled := polled, replenished := (s.transports t).replenished ++ [wc] }) :=
    h.shift rfl rfl rfl (.shuffle (h.queue t) rfl rfl (hcompletions _ _) rfl rfl)
  cases wc with
  | send chunk =>
    cases hstep
    exact hkeep
  | recv chunk byteLen =>
    cases hcall : replenishFor (s.mem chunk).header with
    | none =>
      simp only [EngineState.pollStep, hcall] at hstep
      cases hstep
      exact hkeep
    | some call =>
      cases hrun : call.run (s.endpoint t) none fun _ => 0 with
      | error e => simp [EngineState.pollStep, hcall, hrun, Except.map] at hstep
      | ok result =>
        obtain ⟨code, taken, endpoint⟩ := result
        simp only [EngineState.pollStep, hcall, hrun, Except.map, EngineState.setEndpoint,
          EngineState.set_transports_self, EngineState.set_set] at hstep
        cases hstep
        exact h.recv (replenishFor_ne_send hcall) hrun rfl rfl (hcompletions _ _) rfl rfl

/-- `handle_thread` takes up a completion. -/
theorem event (h : OwnerInv s) {wc : WorkCompletion χ} {handling : List (WorkCompletion χ)}
    (hhandling : (s.transports t).handling = wc :: handling)
    (hidle : (s.transports t).work.handler = .idle)
    (hstep : ((s.eventStep t wc).map <| Except.map fun s =>
      s.set t { s.transports t with handling := handling }) = some (.ok s')) : OwnerInv s' := by
  cases wc with
  | send chunk =>
    cases hstep
    exact h.shift rfl rfl rfl (.sendEvent (h.queue t) hhandling)
  | recv chunk byteLen =>
    rw [EngineState.eventStep, workQueueStep, hidle] at hstep
    cases hwork : (s.transports t).work.lookupSection s.mem byteLen chunk with
    | error e => simp [hwork, Except.map] at hstep
    | ok work =>
      simp only [hwork, Option.map_some, Except.map, EngineState.setWork,
        EngineState.set_transports_self, EngineState.set_set] at hstep
      cases hstep
      have hincoming : (s.transports t).work.incoming = [] := by
        rw [WorkState.incoming, hidle, HandlerPc.chunks]
      exact h.shift rfl rfl rfl (.recvEvent hhandling hincoming
        (WorkState.lookupSection_chunks (h.queue t) hwork))

/-- `handle_thread` takes a step inside a receive event. -/
theorem handler (h : OwnerInv s)
    (hstep : ((workQueueStep s.mem (s.transports t).work .handler).map <|
      Except.map (s.setWork t)) = some (.ok s')) : OwnerInv s' := by
  obtain ⟨work, hwork, rfl⟩ := map_map_eq_ok.mp hstep
  simp only [workQueueStep, WorkState.handlerStep] at hwork
  split at hwork
  · cases hwork
  · rename_i chunk hfound
    have hincoming : (s.transports t).work.incoming = [chunk] := by
      rw [WorkState.incoming, hfound, HandlerPc.chunks]
    exact h.shift rfl rfl rfl (.store hincoming
      (WorkState.pushNew_chunks (h.queue t) (by simpa using hwork)))
  · rename_i chunk now hfound
    have hincoming : (s.transports t).work.incoming = [chunk] := by
      rw [WorkState.incoming, hfound, HandlerPc.chunks]
    exact h.shift rfl rfl rfl (.store hincoming
      (WorkState.appendFound_chunks (h.queue t) (by simpa using hwork)))
  · exact h.shift rfl rfl rfl (.work
      (WorkState.wakeSection_chunks (h.queue t) ‹_› (by simpa using hwork)))

/-- An execution of `work_thread` takes a step. -/
theorem worker (h : OwnerInv s) {k : ℕ} (hstep : s.workerStep t k = some (.ok s')) :
    OwnerInv s' := by
  cases hk : (s.transports t).work.workers[k]? with
  | none => simp [EngineState.workerStep, WorkState.workerStep, hk] at hstep
  | some pc =>
    cases pc with
    | top =>
      simp only [EngineState.workerStep, WorkState.workerStep, hk] at hstep
      obtain ⟨work, hwork, rfl⟩ := map_map_eq_ok.mp hstep
      -- The head is popped, or the execution ends.
      obtain hstay | ⟨moved, queued, hqueued, hpop⟩ :=
        WorkState.headSection_chunks (s.transports t).released (h.queue t) hk (by simpa using hwork)
      · exact h.shift rfl rfl rfl (.work hstay)
      · exact h.shift rfl rfl rfl (.pop hqueued hpop)
    | popped head =>
      simp only [EngineState.workerStep, WorkState.workerStep, hk] at hstep
      obtain ⟨work, hwork, rfl⟩ := map_map_eq_ok.mp hstep
      exact h.shift rfl rfl rfl (.work
        (WorkState.deliverHead_chunks (h.queue t) hk (by simpa using hwork)))
    | delivered head =>
      simp only [EngineState.workerStep, hk] at hstep
      cases hv : (s.transports t).work.heap head with
      | none => simp [WorkState.deref, hv, Except.map] at hstep
      | some v =>
        simp only [WorkState.deref_ok.mpr hv, Except.map] at hstep
        -- The loop that releases the chunks is at its end, or has one more.
        cases hchunk : v.data[(s.transports t).released head]? with
        | none =>
          simp only [hchunk] at hstep
          cases hstep
          exact h.shift rfl rfl rfl (.work (WorkState.freeHead_chunks (h.queue t) hk hv hchunk))
        | some chunk =>
          simp only [hchunk] at hstep
          cases hstep
          exact h.shift rfl rfl rfl
            (.release (h.queue t) (WorkState.release_chunks (h.queue t) hk hv hchunk))

end Threads

section Steps

variable [DecidableEq T] [DecidableEq ι] [DecidableEq χ]

/-- The engine before anything is set up. -/
theorem start : OwnerInv (engine w mem).init := by
  have hempty : ∀ owner : Owner T ι, (engine w mem).init.owned owner = [] := by
    intro owner
    cases owner <;> rfl
  refine ⟨⟨fun owner => ?_, fun {owner _ chunk} hmem => ?_, fun chunk => ?_⟩, fun t => .start⟩
  · rw [hempty]
    exact List.nodup_nil
  · rw [hempty] at hmem
    cases hmem
  · simp only [hempty, List.not_mem_nil, exists_false, iff_false]
    exact List.not_mem_nil

/-- `rdma_create_connect` posts its receives. -/
theorem create (h : OwnerInv s)
    (hstep : (engine w mem).step s (.create t) = some (.ok s')) : OwnerInv s' := by
  simp only [engine, engineStep] at hstep
  cases hrun : (PostCall.recvWithNum maxPreRecvQp).run (s.endpoint t) none fun _ => 0 with
  | error e =>
    rw [PostCall.run] at hrun
    simp [hrun, Except.map] at hstep
  | ok result =>
    obtain ⟨code, taken, endpoint⟩ := result
    rw [PostCall.run] at hrun
    simp only [hrun, Except.map] at hstep
    cases hstep
    have hcall : ∀ c, PostCall.recvWithNum maxPreRecvQp ≠ .send c := by simp
    exact h.recv hcall hrun rfl rfl rfl rfl rfl

/-- A step of a send call. -/
theorem callStep (h : OwnerInv s)
    (hstep : s.callStep w i (s.calls i) = some (.ok s')) : OwnerInv s' := by
  cases hpc : s.calls i with
  | idle =>
    rw [hpc, EngineState.callStep] at hstep
    cases hstep
    -- Drawing a data id touches no chunk.
    have hdraw : OwnerInv (s.set (w.via i) { s.transports (w.via i) with
        dataId := (s.transports (w.via i)).dataId + 1 }) :=
      h.shift rfl rfl rfl (.shuffle (h.queue _) rfl rfl rfl rfl rfl)
    exact hdraw.goto (congrArg CallPc.chunks hpc).symm
  | drawn dataId =>
    rw [hpc, EngineState.callStep] at hstep
    cases htake : (s.endpoint (w.via i)).getChunkList none (w.call i).chunkNum with
    | none => simp [htake] at hstep
    | some result =>
      obtain ⟨chunkList, endpoint⟩ := result
      obtain ⟨hlength, hsends, hrecvs, -⟩ := Endpoint.getChunkList_some htake
      have hdata := hlength ▸ chunkArray_length chunkList
      simp only [htake, hdata, s.setEndpoint_of_requests hsends hrecvs] at hstep
      cases hstep
      exact h.take (by rw [hpc, CallPc.chunks]) (Endpoint.getChunkList_free htake)
  | taken dataId data =>
    rw [hpc, EngineState.callStep] at hstep
    cases hfilled : (w.call i).copyToRdma dataId (data.map s.mem) with
    | error e => simp [hfilled, Except.map] at hstep
    | ok filled =>
      simp only [hfilled, Except.map] at hstep
      cases hstep
      -- the copy loop writes to the chunks, and does not let go of them
      have hmem : OwnerInv { s with mem := writeChunks s.mem data filled } :=
        ⟨h.partition, h.queue⟩
      refine hmem.goto ?_
      rw [hpc, CallPc.chunks, CallPc.chunks, map_fst_rdmaSendMsg]
  | posting requests =>
    cases requests with
    | nil =>
      rw [hpc, EngineState.callStep] at hstep
      cases hstep
    | cons wr rest =>
      rw [hpc, EngineState.callStep, Endpoint.rdmaTransportSend_ok 0 _ wr (le_refl _)] at hstep
      cases hstep
      -- The chunk goes from the call to the requests posted, ahead of the completions.
      refine h.post (congrArg CallPc.chunks hpc) ?_ rfl rfl rfl
      simp only [TransportState.sending, TransportState.completions, EngineState.endpoint, if_true,
        List.map_append, List.map_cons, List.map_nil, List.append_assoc]
      exact List.perm_middle

/-- **One step preserves the invariant.** -/
theorem step (h : OwnerInv s) {a : EngineAct T ι χ}
    (hstep : (engine w mem).step s a = some (.ok s')) : OwnerInv s' := by
  cases a with
  | append fresh =>
    simp only [engine, engineStep] at hstep
    split at hstep <;> cases hstep
    exact h.append ‹_ ∧ _›.1 ‹_ ∧ _›.2
  | create t => exact h.create hstep
  | call i => exact h.callStep hstep
  | sent t =>
    simp only [engine, engineStep] at hstep
    split at hstep <;> cases hstep
    exact h.shift rfl rfl rfl (.sent (h.queue t) ‹_›)
  | land t frame =>
    simp only [engine, engineStep] at hstep
    split at hstep <;> cases hstep
    exact h.shift rfl rfl rfl (.land (h.queue t) ‹_›)
  | poll t eventNum =>
    simp only [engine, engineStep] at hstep
    split at hstep <;> cases hstep
    obtain ⟨hpolled, hreplenished, -, -⟩ := ‹_ ∧ _›
    refine h.shift rfl rfl rfl (.shuffle (h.queue t) rfl rfl ?_ rfl rfl)
    simp [TransportState.completions, hpolled, hreplenished]
  | process t =>
    simp only [engine, engineStep] at hstep
    split at hstep
    · cases hstep
    · exact h.process ‹_› (by simpa using hstep)
  | pushBatch t =>
    simp only [engine, engineStep] at hstep
    split at hstep <;> cases hstep
    refine h.shift rfl rfl rfl (.shuffle (h.queue t) rfl rfl ?_ rfl rfl)
    simp [TransportState.completions]
  | popBatch t =>
    simp only [engine, engineStep] at hstep
    split at hstep <;> cases hstep
    rename_i batch rest hhandling hidle hbatches
    refine h.shift rfl rfl rfl (.shuffle (h.queue t) rfl rfl ?_ rfl rfl)
    simp [TransportState.completions, hhandling, hbatches]
  | event t =>
    simp only [engine, engineStep] at hstep
    split at hstep
    · exact h.event ‹_› ‹_› hstep
    · cases hstep
  | handler t => exact h.handler hstep
  | startItem t =>
    obtain ⟨work, hwork, rfl⟩ := map_map_eq_ok.mp hstep
    simp only [workQueueStep] at hwork
    split at hwork <;> cases hwork
    exact h.shift rfl rfl rfl (.work (WorkState.startItem_chunks (h.queue t)))
  | worker t k => exact h.worker hstep

/-- The invariant of the owners holds in every reachable state. -/
theorem of_reachable (hs : (engine w mem).Reachable s) : OwnerInv s :=
  hs.invariant start fun _ _ _ _ h _ hstep => h.step hstep

end Steps

end OwnerInv

/-! ### One owner -/

/-- No message is in flight: every send call is ahead or has returned, and nothing is left to
complete, to handle or to call back. -/
structure EngineState.Quiet (s : EngineState T ι χ) : Prop where
  /-- No send call is under way. -/
  calls : ∀ i, s.calls i = .idle ∨ s.calls i = .posting []
  /-- No send is posted. -/
  sends : ∀ t, (s.transports t).sends = []
  /-- No completion is left to handle. -/
  completions : ∀ t, (s.transports t).completions = []
  /-- No event is under way. -/
  handler : ∀ t, (s.transports t).work.handler = .idle
  /-- No varray is queued. -/
  workQueue : ∀ t, (s.transports t).work.workQueue = []
  /-- No worker has a varray. -/
  held : ∀ t, (s.transports t).work.held = []

variable [DecidableEq T] [DecidableEq ι] [DecidableEq χ]

/-- Every chunk has one owner, with what follows from it. -/
structure OneOwner (w : Workload T ι) (s : EngineState T ι χ) : Prop where
  /-- Every chunk of the pool is with exactly one owner, exactly once. -/
  partition : Partition {chunk | chunk ∈ s.chunks} s.owned
  /-- No chunk is released twice: a step that puts one on the free list does not find it there. -/
  released_once : ∀ a s' chunk, engineStep w s a = some (.ok s') → s'.free = chunk :: s.free →
    chunk ∉ s.free
  /-- No chunk that the adapter may read or write is on the free list. -/
  adapter : ∀ t, ∀ wr ∈ (s.transports t).sends ++ (s.transports t).recvs, wr.1 ∉ s.free
  /-- With no message in flight, the chunks that are not free are the posted receives. -/
  quiet : s.Quiet → {chunk | chunk ∈ s.chunks ∧ chunk ∉ s.free}
    = {chunk | ∃ t, chunk ∈ (s.transports t).recvs.map Prod.fst}

omit [DecidableEq T] [DecidableEq ι] [DecidableEq χ] in
/-- With no message in flight, only the free list and the posted receives hold chunks. -/
theorem EngineState.Quiet.mem_owned {s : EngineState T ι χ} (h : s.Quiet) {owner : Owner T ι}
    {chunk : χ} (hchunk : chunk ∈ s.owned owner) :
    chunk ∈ s.free ∨ ∃ t, chunk ∈ (s.transports t).recvs.map Prod.fst := by
  cases owner with
  | free => exact .inl hchunk
  | sender i =>
    have hnone : (s.calls i).chunks = [] := by
      rcases h.calls i with hcall | hcall <;> rw [hcall] <;> rfl
    rw [owned, hnone] at hchunk
    cases hchunk
  | sending t =>
    rw [owned, TransportState.sending, h.sends, h.completions] at hchunk
    cases hchunk
  | receiving t =>
    rw [owned, TransportState.receiving, h.completions, WorkState.incoming, h.handler,
      HandlerPc.chunks, List.filterMap_nil, List.append_nil, List.append_nil] at hchunk
    exact .inr ⟨t, hchunk⟩
  | queued t =>
    rw [owned, WorkState.queued, h.workQueue] at hchunk
    cases hchunk
  | delivering t =>
    rw [owned, WorkState.delivering_of_held (h.held t)] at hchunk
    cases hchunk

/-- **Every chunk has exactly one owner.** For any number of transports and send calls and every
interleaving of the calls with the adapters, `poll_thread`, `handle_thread` and the workers: the
chunks of the pool are partitioned among the free list, the senders, the posted sends and their
completions, the posted receives and theirs, the varrays queued and the varrays being delivered. -/
theorem oneOwner (w : Workload T ι) (mem : χ → RdmaChunk) (s : EngineState T ι χ)
    (hs : (engine w mem).Reachable s) : OneOwner w s := by
  have hinv := OwnerInv.of_reachable hs
  have hpartition := hinv.partition
  have hrecvs : ∀ t chunk, chunk ∈ (s.transports t).recvs.map Prod.fst →
      chunk ∈ s.owned (.receiving t) := fun t chunk hchunk =>
    List.mem_append_left _ (List.mem_append_left _ hchunk)
  have hsends : ∀ t chunk, chunk ∈ (s.transports t).sends.map Prod.fst →
      chunk ∈ s.owned (.sending t) := fun t chunk hchunk => List.mem_append_left _ hchunk
  refine ⟨hpartition, fun a s' chunk hstep hfree => ?_, fun t wr hwr hfree => ?_, fun hquiet => ?_⟩
  · have hnext : (engine w mem).step s a = some (.ok s') := hstep
    have hnodup := (hinv.step hnext).partition.nodup .free
    rw [EngineState.owned, hfree] at hnodup
    exact (List.nodup_cons.mp hnodup).1
  · rcases List.mem_append.mp hwr with hwr | hwr
    · cases hpartition.unique (i := .free) hfree (hsends t _ (List.mem_map_of_mem hwr))
    · cases hpartition.unique (i := .free) hfree (hrecvs t _ (List.mem_map_of_mem hwr))
  · ext chunk
    constructor
    · rintro ⟨hchunk, hfree⟩
      obtain ⟨owner, howner⟩ := (hpartition.cover chunk).mp hchunk
      exact (hquiet.mem_owned howner).resolve_left hfree
    · rintro ⟨t, hchunk⟩
      refine ⟨(hpartition.cover chunk).mpr ⟨_, hrecvs t chunk hchunk⟩, fun hfree => ?_⟩
      cases hpartition.unique (i := .free) hfree (hrecvs t chunk hchunk)

/-! ### A message each way -/

/-- A host with one transport, whose receives are posted to the chunks `fresh`. -/
def createdHost (mem : ℕ → RdmaChunk) (fresh : List ℕ) : EngineState Unit Unit ℕ where
  chunks := fresh
  free := []
  mem := mem
  calls := fun _ => .idle
  transports := fun _ => { TransportState.blank with
    recvs := fresh.map fun chunk => (chunk, rdmaChunkSize) }

/-- `rdma_create_connect` leads to that host, when the pool has the chunks. -/
theorem createdHost_reachable (w : Workload Unit Unit) (mem : ℕ → RdmaChunk) {fresh : List ℕ}
    (hnodup : fresh.Nodup)
    (hpost : (⟨fresh, [], []⟩ : Endpoint ℕ).rdmaTransportRecvWithNum maxPreRecvQp none (fun _ => 0)
      = .ok (0, fresh, ⟨[], [], fresh.map fun chunk => (chunk, rdmaChunkSize)⟩)) :
    (engine w mem).Reachable (createdHost mem fresh) := by
  let appended : EngineState Unit Unit ℕ :=
    { (engine w mem).init with chunks := fresh, free := fresh }
  have happend : (engine w mem).step (engine w mem).init (.append fresh)
      = some (.ok appended) := by
    simp [engine, engineStep, hnodup, appended]
  refine (Machine.ReachableUnder.init.next trivial happend).next (a := .create ()) trivial ?_
  have hendpoint : appended.endpoint () = ⟨fresh, [], []⟩ := rfl
  have hset : ∀ t t' : TransportState ℕ,
      Function.update (fun _ : Unit => t) () t' = fun _ => t' := fun t t' => by
    funext u
    exact Function.update_self ..
  show some _ = _
  rw [hendpoint, hpost]
  simp only [Except.map, EngineState.setEndpoint, EngineState.set, engine, hset, createdHost,
    appended]
  rfl

/-- The frames of a message of two bytes, one in each. -/
def frameOfTwo (second : Bool) : Frame :=
  ⟨⟨0, if second then 1 else 0, 1, 2, 0, 2⟩, [if second then 5 else 4], by simp, 22⟩

/-- A send of two bytes. -/
def sendShort : Workload Unit Unit := ⟨fun _ => .sendMsg ⟨[8, 9], by decide⟩, fun _ => ()⟩

/-- Two frames of a message land while another message is sent; the pool grows for the send and the
new receives; the message is called back, and the chunks of both are released. -/
theorem bothWays_reachable : ∃ s : EngineState Unit Unit ℕ,
    (engine sendShort fun _ => .blank).Reachable s ∧ s.free = [1, 0, 1024] ∧ s.Quiet ∧
      (s.transports ()).work.callbacks = [⟨some [4, 5], 2⟩] := by
  have hcreated :=
    createdHost_reachable sendShort (fun _ => .blank) List.nodup_range' preReceive_range
  -- up to the pop of the varray with both frames
  obtain ⟨s, hs, hview⟩ := Machine.exists_of_exec
    [.land () (frameOfTwo false), .land () (frameOfTwo true), .append [1024, 1025, 1026],
      .call (), .call (), .call (), .call (), .sent (), .poll () 3, .process (), .process (),
      .process (), .pushBatch (), .popBatch (), .event (), .handler (), .handler (), .event (),
      .handler (), .handler (), .event (), .startItem (), .worker () 0] hcreated
    (p := fun s => decide (s.free = [1024] ∧ s.calls () = .posting [] ∧
      ((s.mem 0).header = (frameOfTwo false).header ∧ (s.mem 0).body.bytes.take 1 = [4]) ∧
      ((s.mem 1).header = (frameOfTwo true).header ∧ (s.mem 1).body.bytes.take 1 = [5]) ∧
      ((s.transports ()).sends = [] ∧ (s.transports ()).completions = []) ∧
      (s.transports ()).work.handler = .idle ∧ (s.transports ()).work.workQueue = [] ∧
      (s.transports ()).work.workers = [.popped 0] ∧ (s.transports ()).work.isWorkRunning = 1 ∧
      (s.transports ()).work.heap 0 = some ⟨0, 2, [0, 1]⟩ ∧
      (s.transports ()).work.callbacks = [])) (by decide +kernel)
  simp only [decide_eq_true_eq] at hview
  obtain ⟨hfree, hcall, ⟨hfirst, hfour⟩, ⟨hsecond, hfive⟩, ⟨hsends, hcompletions⟩, hidle, hqueue,
    hworkers, hup, hheap, hcallbacks⟩ := hview
  have hdeliver : deliver s.mem ⟨0, 2, [0, 1]⟩ = .ok ⟨some [4, 5], 2⟩ := by
    have hlen : ∀ c, (s.mem c).body.bytes.length = 65515 := fun c => (s.mem c).body.length_bytes
    simp [deliver, sumChunkLen, copyChunks, setByteArrayRegion, jniAllocByteArray, hlen, hfirst,
      hsecond, hfour, hfive, frameOfTwo]
  obtain ⟨work, hstep⟩ : ∃ work, (s.transports ()).work.deliverHead s.mem 0 0 = .ok work :=
    WorkState.deliverHead_of_complete 0 hup hheap rfl hdeliver
  obtain ⟨-, v, callback, hv, -, hcallback, rfl⟩ := WorkState.deliverHead_ok hstep
  obtain rfl := Option.some.inj (hheap.symm.trans hv)
  obtain rfl := Except.ok.inj (hdeliver.symm.trans hcallback)
  -- the callback, the release of each chunk, and `free`
  have h := hs.next (a := EngineAct.worker () 0) trivial (by
    simp only [engine, engineStep, EngineState.workerStep, hworkers, List.getElem?_cons_zero,
      WorkState.workerStep, hstep]
    rfl)
  have h := h.next (a := EngineAct.worker () 0) trivial (by
    simp [engine, engineStep, EngineState.workerStep, WorkState.deref, hheap]
    rfl)
  have h := h.next (a := EngineAct.worker () 0) trivial (by
    simp [engine, engineStep, EngineState.workerStep, WorkState.deref, hheap, EngineState.release]
    rfl)
  have h := h.next (a := EngineAct.worker () 0) trivial (by
    simp [engine, engineStep, EngineState.workerStep, WorkState.deref, hheap, EngineState.release]
    rfl)
  refine ⟨_, h, ?_, ?_, ?_⟩
  · simp [EngineState.setWork, EngineState.set, hfree]
  · constructor
    · exact fun _ => .inr hcall
    · exact fun _ => hsends
    · exact fun _ => hcompletions
    · exact fun _ => hidle
    · exact fun _ => hqueue
    · simp [EngineState.setWork, EngineState.set, WorkState.freeHead, WorkState.held,
        WorkerPc.held?]
  · simp [EngineState.setWork, EngineState.set, WorkState.freeHead, hcallbacks]

/-- Nothing is in flight any more behind the two messages, and every chunk has its owner. -/
theorem oneOwner_bothWays : ∃ s : EngineState Unit Unit ℕ,
    (engine sendShort fun _ => .blank).Reachable s ∧ s.free = [1, 0, 1024] ∧ s.Quiet ∧
      (s.transports ()).work.callbacks = [⟨some [4, 5], 2⟩] ∧ OneOwner sendShort s := by
  obtain ⟨s, hs, hfree, hquiet, hcallbacks⟩ := bothWays_reachable
  exact ⟨s, hs, hfree, hquiet, hcallbacks, oneOwner sendShort _ s hs⟩

end SparkRdma
