import Mathlib.Logic.Relation
import SparkRdma.Server.StartUp

/-! # A message that is too early

When the last frame of a first message arrives before `init_server` makes the pool, nothing holds
`handle_recv_event` up: `poll_thread` and `handle_thread` alone take it to the call of
`g_thread_pool_push`.

* **`Waiting`** — the two threads wait, the one for an event and the other for a batch.
* **`LinkState.round`** — `poll_thread` takes one completion through to `handle_quque`.
* **`Stored.stores`** — `handle_recv_event` puts the last frame of the first message into its
  varray.
* **`pushed_without_pool_of_late`** — an arrival that breaks the condition `InTime`, on a
  connection that waits for it, leads to the push without a pool. -/

namespace SparkRdma

open Interleaving Relation

variable {P χ : Type} {mem : χ → RdmaChunk}

/-! ### `poll_thread` -/

/-- `poll_thread` takes a step. -/
def LinkState.PollMoves (mem : χ → RdmaChunk) (l l' : LinkState χ) : Prop :=
  ∃ answer, l.pollStep mem answer = some (.ok l')

/-- A call of `poll_thread` gets through its posts of receives, if it asks the pool for any. -/
theorem RecvPc.returns {pc : RecvPc} (hpc : pc ≠ .getChunkList 0) (l : LinkState χ)
    (arr : WcArray χ) (i : ℕ) :
    ReflTransGen (LinkState.PollMoves mem) { l with poll := .recv arr i pc }
      { l with poll := .turn arr (i + 1) } := by
  have hposts : ∀ left, ReflTransGen (LinkState.PollMoves mem)
      { l with poll := .recv arr i (.posts left) } { l with poll := .turn arr (i + 1) } := by
    intro left
    induction left with
    | zero => exact .single ⟨.pending, rfl⟩
    | succ left ih => exact .head ⟨.ret 0, rfl⟩ ih
  have hmallocs : ∀ num, ReflTransGen (LinkState.PollMoves mem)
      { l with poll := .recv arr i (.mallocs num) } { l with poll := .turn arr (i + 1) } :=
    fun num => .head ⟨.pointer true, rfl⟩ (hposts num.toNat)
  have hcalloc : ∀ num, ReflTransGen (LinkState.PollMoves mem)
      { l with poll := .recv arr i (.calloc num) } { l with poll := .turn arr (i + 1) } :=
    fun num => .head ⟨.pointer true, rfl⟩ (hmallocs num)
  have hpost : ReflTransGen (LinkState.PollMoves mem)
      { l with poll := .recv arr i .post } { l with poll := .turn arr (i + 1) } :=
    .single ⟨.ret 0, rfl⟩
  have hgetChunk : ReflTransGen (LinkState.PollMoves mem)
      { l with poll := .recv arr i .getChunk } { l with poll := .turn arr (i + 1) } :=
    .head ⟨.pointer true, rfl⟩ hpost
  cases pc with
  | malloc => exact .head ⟨.pointer true, rfl⟩ hgetChunk
  | getChunk => exact hgetChunk
  | post => exact hpost
  | getChunkList num =>
    have hnum : num ≠ 0 := fun hzero => hpc (by rw [hzero])
    refine .head ⟨.pointer true, ?_⟩ (hcalloc num)
    simp [LinkState.pollStep, RecvPc.step, hnum, Except.map]
  | calloc num => exact hcalloc num
  | mallocs num => exact hmallocs num
  | posts left => exact hposts left

/-- For a frame of a message of some frames `poll_thread` never asks for a list of no chunks. -/
theorem replenish_ne_zero {wc : Wc χ} (hnum : (mem wc.chunk).header.chunkNum ≠ 0) {pc : RecvPc}
    (hpc : replenish mem (some wc) = some pc) : pc ≠ .getChunkList 0 := by
  rintro rfl
  simp only [replenish] at hpc
  split at hpc
  · unfold replenishFor at hpc
    split at hpc
    · split at hpc
      · cases hpc
      · exact hnum (by simpa [RecvPc.enter] using hpc)
    · cases hpc
  · cases hpc

/-- **One round of `poll_thread`**: it wakes up to the event of one completion, and goes up to the
section that wakes `handle_thread`. -/
theorem LinkState.round {l : LinkState χ} {wc : Wc χ} (hpoll : l.poll = .getEvent)
    (hitems : l.cq.items = [wc]) (hevents : 0 < l.cq.events)
    (hnum : (mem wc.chunk).header.chunkNum ≠ 0) :
    ∃ l', ReflTransGen (PollMoves mem) l l' ∧
      l'.handover = (l.handover.pushBatch ((WcArray.malloc0 χ).fill [wc])).signalSection ∧
      l'.handleStarted = l.handleStarted := by
  let arr : WcArray χ := (WcArray.malloc0 χ).fill [wc]
  let taken : LinkState χ := { l with cq := ((l.cq.takeEvent.ack).arm).drain 1 }
  have hwake : ReflTransGen (PollMoves mem) l { taken with poll := .turn arr 0 } := by
    refine .head (b := { l with cq := l.cq.takeEvent, poll := .ack }) ⟨.ret 0, ?_⟩ ?_
    · simp [pollStep, hpoll, hevents]
    refine .head ⟨.pending, rfl⟩ (.head ⟨.ret 0, rfl⟩ (.head ⟨.pointer true, rfl⟩
      (.single ⟨.ret 1, ?_⟩)))
    have hdrained : l.cq.takeEvent.ack.arm.items = [wc] := hitems
    simp [pollStep, hdrained, maxEventPerPoll, taken, arr]
  have hturn : ReflTransGen (PollMoves mem) { taken with poll := .turn arr 0 }
      { taken with poll := .turn arr 1 } := by
    have hentry : (arr.data[0]?).join = some wc := rfl
    have hlen : arr.len = 1 := rfl
    cases hreplenish : replenish mem (some wc) with
    | none =>
      refine .single ⟨.pending, ?_⟩
      simp [pollStep, hentry, hlen, hreplenish]
    | some pc =>
      refine .head (b := { taken with poll := .recv arr 0 pc }) ⟨.pending, ?_⟩
        (RecvPc.returns (replenish_ne_zero hnum hreplenish) taken arr 0)
      simp [pollStep, hentry, hlen, hreplenish]
  have hpush : ReflTransGen (PollMoves mem) { taken with poll := .turn arr 1 }
      { taken with
        handover := (taken.handover.pushBatch arr).signalSection
        poll := .alloc } := by
    refine .head (b := { taken with poll := .push arr }) ⟨.pending, rfl⟩ ?_
    exact .head ⟨.pending, rfl⟩ (.single ⟨.pending, rfl⟩)
  exact ⟨_, hwake.trans (hturn.trans hpush), rfl, rfl⟩

/-! ### `handle_recv_event` -/

/-- The last frame of the first message belongs to it. -/
theorem dataId_of_last {first chunk : χ} {tail : List χ}
    (hbefore : ¬ FirstComplete mem (first :: tail))
    (hlast : FirstComplete mem (first :: tail ++ [chunk])) :
    (mem chunk).header.dataId = (mem first).header.dataId := by
  by_contra hother
  refine hbefore ?_
  have hsame : ofMessage mem first (first :: tail ++ [chunk])
      = ofMessage mem first (first :: tail) := by
    rw [ofMessage, List.filter_append]
    simp [hother, ofMessage]
  show _ ≤ (ofMessage mem first (first :: tail)).length
  rw [← hsame]
  exact hlast

/-- **The last frame of the first message is stored**, and completes the head of the queue. -/
theorem Stored.stores {w : WorkState χ} {stored : List χ} (h : Stored mem w stored)
    {wc : Wc χ} (hbyteLen : wc.byteLen = (mem wc.chunk).header.chunkLen + rdmaHeaderSize)
    (hnum : (mem wc.chunk).header.chunkNum ≠ 0) (hbefore : ¬ FirstComplete mem stored)
    (hlast : FirstComplete mem (stored ++ [wc.chunk])) :
    ∃ w₁ w₂, w.lookupSection mem wc.byteLen wc.chunk = .ok w₁ ∧
      w₁.handlerStep mem = some (.ok w₂) ∧ w₂.handler = .stored ∧
      w₂.isWorkRunning = w.isWorkRunning ∧ w₂.HeadComplete := by
  obtain ⟨w₁, hlookup⟩ : ∃ w₁, w.lookupSection mem wc.byteLen wc.chunk = .ok w₁ :=
    w.lookupSection_of_byteLen hbyteLen
  obtain ⟨-, rfl⟩ := WorkState.lookupSection_ok hlookup
  suffices hstores : ∃ w₂,
      ({ w with handler := .found wc.chunk (w.findCustom (mem wc.chunk).header.dataId) } :
        WorkState χ).handlerStep mem = some (.ok w₂) ∧ w₂.handler = .stored ∧
        w₂.isWorkRunning = w.isWorkRunning ∧ w₂.HeadComplete by
    obtain ⟨w₂, hw₂⟩ := hstores
    exact ⟨_, w₂, hlookup, hw₂⟩
  clear hlookup
  cases stored with
  | nil =>
    -- it is the only frame of its message
    have hqueue : w.workQueue = [] := by
      cases hqueue : w.workQueue with
      | nil => rfl
      | cons head rest =>
        obtain ⟨first, tail, hfirst, -⟩ := h.head head rest hqueue
        cases hfirst
    have hnone : w.findCustom (mem wc.chunk).header.dataId = none := by
      rw [WorkState.findCustom, hqueue, List.find?_nil]
    rw [hnone]
    have hpos : 0 < (mem wc.chunk).header.chunkNum.toNat :=
      Nat.pos_of_ne_zero fun hzero => hnum (UInt32.toNat_inj.mp hzero)
    have hone : (mem wc.chunk).header.chunkNum.toNat ≤ 1 := by
      simpa [FirstComplete, ofMessage] using hlast
    obtain ⟨w₂, hpush⟩ : ∃ w₂, ({ w with handler := .found wc.chunk none } :
        WorkState χ).pushNew mem wc.chunk = .ok w₂ := WorkState.pushNew_of_pos _ hpos
    obtain ⟨-, rfl⟩ := WorkState.pushNew_ok hpush
    refine ⟨_, congrArg some hpush, rfl, rfl, w.nextAddr, [], _, ?_, Function.update_self .., ?_⟩
    · show w.workQueue ++ [w.nextAddr] = _
      rw [hqueue, List.nil_append]
    · exact (le_antisymm hone hpos).symm
  | cons first tail =>
    -- the varray of its message is the head of the queue
    have hid := dataId_of_last hbefore hlast
    have hroom : (ofMessage mem first (first :: tail)).length < (mem first).header.chunkNum.toNat :=
      not_le.mp hbefore
    obtain ⟨head, rest, hqueue⟩ : ∃ head rest, w.workQueue = head :: rest := by
      cases hqueue : w.workQueue with
      | nil => cases h.empty hqueue
      | cons head rest => exact ⟨head, rest, rfl⟩
    obtain ⟨first', tail', hfirst, hhead⟩ := h.head head rest hqueue
    obtain ⟨rfl, rfl⟩ := List.cons.inj hfirst
    have hsome : w.findCustom (mem wc.chunk).header.dataId = some head := by
      rw [WorkState.findCustom, hqueue, List.find?_cons]
      simp [WorkState.hasDataId, hhead, hid]
    rw [hsome]
    obtain ⟨w₂, happend⟩ : ∃ w₂, ({ w with handler := .found wc.chunk (some head) } :
        WorkState χ).appendFound mem wc.chunk head = .ok w₂ :=
      WorkState.appendFound_of_room (hqueue ▸ List.mem_cons_self) hhead hroom hid.symm
    obtain ⟨-, v, hv, -, -, rfl⟩ := WorkState.appendFound_ok happend
    obtain rfl := Option.some.inj (hhead.symm.trans hv)
    refine ⟨_, congrArg some happend, rfl, rfl, head, rest, _, hqueue, Function.update_self .., ?_⟩
    have hmore : ofMessage mem first (first :: tail ++ [wc.chunk])
        = ofMessage mem first (first :: tail) ++ [wc.chunk] := by
      rw [ofMessage, List.filter_append]
      simp [hid, ofMessage]
    have hfull : (mem first).header.chunkNum.toNat
        ≤ (ofMessage mem first (first :: tail ++ [wc.chunk])).length := hlast
    rw [hmore, List.length_append, List.length_singleton] at hfull
    show (ofMessage mem first (first :: tail) ++ [wc.chunk]).length = _
    rw [List.length_append, List.length_singleton]
    exact le_antisymm hroom hfull

/-! ### The two threads -/

namespace ServedTransport

/-- `poll_thread` or `handle_thread` takes a step, without a pool. -/
def Moves (mem : χ → RdmaChunk) (t t' : ServedTransport χ) : Prop :=
  (∃ answer, t.pollStep mem answer = some (.ok t')) ∨ t.handleStep mem .unset = some (.ok t')

/-- Both threads of a connection wait: `poll_thread` for the event of the next completion, and
`handle_thread` for the next batch. -/
structure Waiting (t : ServedTransport χ) : Prop where
  /-- There is a queue pair. -/
  hasQp : t.link.HasQp
  /-- `poll_thread` has not left. -/
  pollRuns : t.pollEnded = false
  /-- It is at `ibv_get_cq_event`. -/
  getEvent : t.link.poll = .getEvent
  /-- The queue is empty. -/
  empty : t.link.cq.items = []
  /-- The next completion will be announced, or some event is pending. -/
  watched : t.link.cq.Watched
  /-- `handle_thread` runs. -/
  handleRuns : t.link.handleStarted = true ∧ t.handleEnded = false
  /-- It is blocked, with the flag lowered and nothing queued. -/
  blocked : t.link.handover = ⟨[], 0, .polling, .blocked⟩
  /-- It is in no event. -/
  idle : t.work.handler = .idle
  /-- No work item was made. -/
  noWork : t.work.isWorkRunning = 0

variable {t : ServedTransport χ}

/-- The steps of `poll_thread`. -/
theorem moves_of_pollMoves (hruns : t.pollEnded = false) {link : LinkState χ}
    (h : ReflTransGen (LinkState.PollMoves mem) t.link link) :
    ReflTransGen (Moves mem) t { t with link := link } := by
  induction h with
  | refl => exact .refl
  | @tail link link' _ hstep ih =>
    obtain ⟨answer, hstep⟩ := hstep
    refine ih.tail (.inl ⟨answer, ?_⟩)
    simp [pollStep, hruns, hstep, Except.map]

/-- **From the arrival to the push**: the two threads of a connection that waits take the last frame
of the first message up to `g_thread_pool_push`. -/
theorem Waiting.pushes (h : t.Waiting) {arrived : List χ} (harrival : ArrivalInv mem t arrived)
    {wc : Wc χ} (hsuccess : wc.success = true) (hrecv : wc.opcode = .recv)
    (hbyteLen : wc.byteLen = (mem wc.chunk).header.chunkLen + rdmaHeaderSize)
    (hnum : (mem wc.chunk).header.chunkNum ≠ 0) (hbefore : ¬ FirstComplete mem arrived)
    (hlast : FirstComplete mem (arrived ++ [wc.chunk])) :
    ∃ t', ReflTransGen (Moves mem)
      { t with link := { t.link with cq := t.link.cq.add wc } } t' ∧ t'.AboutToPush := by
  -- everything that has arrived before is stored
  have hstored : Stored mem t.work arrived := by
    obtain ⟨stored, rfl, hstored⟩ := harrival.arrived
    have hincoming : t.work.incoming = [] := by
      rw [WorkState.incoming, h.idle]
      rfl
    have hpending : t.pending = [] := by
      simp [pending, batchRest, LinkState.stream, h.blocked, h.getEvent, h.empty,
        PollThreadPc.inHand, receivedChunks]
    rwa [hincoming, hpending, List.append_nil, List.append_nil]
  obtain ⟨w₁, w₂, hlookup, hhandler, hlastSection, hflag, hhead⟩ :=
    hstored.stores hbyteLen hnum hbefore hlast
  have hindex : t.index = 0 := harrival.index (by simp [h.blocked])
  -- `poll_thread` pushes the completion in an array of its own, and wakes `handle_thread`
  let arr : WcArray χ := (WcArray.malloc0 χ).fill [wc]
  obtain ⟨⟨cq, create, poll, started, handover⟩, hround, hhandover, hstarted⟩ :=
    LinkState.round (l := { t.link with cq := t.link.cq.add wc }) h.getEvent
      (by simp [NotifiedQueue.add, h.empty]) (h.watched.add wc) hnum
  obtain rfl : handover = ⟨[arr], 1, .polling, .woken⟩ := by
    rw [show handover = _ from hhandover, h.blocked]
    rfl
  obtain rfl : started = true := hstarted.trans h.handleRuns.1
  let woken : HandlePc (WcArray χ) → List (WcArray χ) → ServedTransport χ := fun pc queue =>
    { t with link := ⟨cq, create, poll, true, ⟨queue, 1, .polling, pc⟩⟩ }
  have hpoll : ReflTransGen (Moves mem) { t with link := { t.link with cq := t.link.cq.add wc } }
      (woken .woken [arr]) :=
    moves_of_pollMoves (t := { t with link := { t.link with cq := t.link.cq.add wc } })
      h.pollRuns hround
  -- which takes up the array
  have hhandle : ReflTransGen (Moves mem) (woken .woken [arr]) (woken (.events arr) []) := by
    have hruns := h.handleRuns.2
    refine .head (b := woken .peek [arr]) (.inr ?_) (.head (b := woken (.pop arr) [arr]) (.inr ?_)
      (.head (b := woken (.popped arr) []) (.inr ?_) (.single (.inr ?_)))) <;>
    simp [handleStep, woken, hruns, HandleState.handleStep, Except.map]
  -- and stores its frame
  have hlook : (woken (.events arr) []).handleStep mem .unset
      = some (.ok { woken (.events arr) [] with work := w₁, index := 1 }) := by
    simp [handleStep, woken, h.handleRuns.2, eventStep, h.idle, hindex, arr, WcArray.fill, hsuccess,
      hrecv, hlookup, Except.map]
  have hstore : ({ woken (.events arr) [] with work := w₁, index := 1 } :
      ServedTransport χ).handleStep mem .unset
      = some (.ok { woken (.events arr) [] with
          work := { w₂ with poolItems := w₁.poolItems }
          index := 1 }) := by
    obtain ⟨-, rfl⟩ := WorkState.lookupSection_ok hlookup
    simp [handleStep, woken, h.handleRuns.2, eventStep, hhandler, endSection]
  refine ⟨_, hpoll.trans (hhandle.trans (.head (.inr hlook) (.single (.inr hstore)))), ?_⟩
  exact ⟨hlastSection, hflag.trans h.noWork, hhead⟩

end ServedTransport

/-! ### The result -/

section Server

variable [DecidableEq P] {s : ServerState P χ} {p : P}

/-- As long as nothing was freed, the server takes the steps of a connection. -/
theorem reachable_of_moves (hs : (server P mem).Reachable s) (hfreed : s.freed = [])
    (hunset : s.threadPool = .unset) {t : ServedTransport χ}
    (h : ReflTransGen (ServedTransport.Moves mem) (s.transports p) t) :
    (server P mem).Reachable (s.setTransport p t) := by
  induction h with
  | refl =>
    have hself : s.setTransport p (s.transports p) = s := by
      simp [ServerState.setTransport]
    rwa [hself]
  | @tail t t' _ hstep ih =>
    have htwice : (s.setTransport p t).setTransport p t' = s.setTransport p t' := by
      simp [ServerState.setTransport]
    have hwhole : ∀ a, ∀ o ∈ (s.setTransport p t).touched a, o ∉ (s.setTransport p t).freed := by
      intro a o _ ho
      rw [show (s.setTransport p t).freed = s.freed from rfl, hfreed] at ho
      cases ho
    obtain ⟨answer, hstep⟩ | hstep := hstep
    · refine ih.next (a := .poll p answer) trivial (serverStep_ok.mpr ⟨hwhole _, ?_⟩)
      simp [ServerState.act, hstep, Except.map, htwice]
    · refine ih.next (a := .handle p) trivial (serverStep_ok.mpr ⟨hwhole _, ?_⟩)
      have hpool : (s.setTransport p t).threadPool = .unset := hunset
      simp [ServerState.act, hpool, hstep, Except.map, htwice]

/-- **A message that is too early is pushed without a pool.** In a run that was in time so far, on a
connection whose two threads wait, the arrival of a sound frame that breaks the condition leads to a
state in which `handle_recv_event` is about to call `g_thread_pool_push` with `work_thread_pool`
unset. -/
theorem pushed_without_pool_of_late {arrived : P → List χ}
    (hs : (observedServer P mem).ReachableUnder (fun s a => s.1.InTime mem s.2 a) (s, arrived))
    (hwaiting : (s.transports p).Waiting) {wc : Wc χ} (hsuccess : wc.success = true)
    (hrecv : wc.opcode = .recv)
    (hbyteLen : wc.byteLen = (mem wc.chunk).header.chunkLen + rdmaHeaderSize)
    (hnum : (mem wc.chunk).header.chunkNum ≠ 0) (hlate : ¬ s.InTime mem arrived (.add p wc)) :
    ∃ s', (server P mem).Reachable s' ∧ ¬ s'.PoolBeforePush := by
  obtain ⟨hunset, hlast⟩ : s.threadPool = .unset ∧
      FirstComplete mem (arrived p ++ wc.received.toList) := by
    simpa [ServerState.InTime] using hlate
  have hreceived : wc.received.toList = [wc.chunk] := by
    rw [Wc.received, if_pos hrecv]
    rfl
  rw [hreceived] at hlast
  have hstart := startInv_of_reachable hs hunset
  have hreachable : (server P mem).Reachable s :=
    (Machine.reachable_iff_recording _ _).mpr ⟨_, hs.mono fun _ _ _ => trivial⟩
  -- the completion is added, and the two threads take it to the push
  obtain ⟨t, hmoves, hpush⟩ := hwaiting.pushes (hstart.arrival p) hsuccess hrecv hbyteLen hnum
    (hstart.incomplete p) hlast
  let added : ServerState P χ := s.setTransport p { s.transports p with
    link := { (s.transports p).link with cq := (s.transports p).link.cq.add wc } }
  have hadded : (server P mem).Reachable added := by
    have hnothing : ∀ o ∈ s.touched (.add p wc), o ∉ s.freed := by
      intro o ho
      cases ho
    have hact : s.act mem (.add p wc) = some (.ok added) := by
      have hfreed : s.freed = [] := hstart.freed
      simp [ServerState.act, hwaiting.hasQp, hfreed, added]
    exact hreachable.next (a := .add p wc) trivial (serverStep_ok.mpr ⟨hnothing, hact⟩)
  have hself : added.transports p = { s.transports p with
      link := { (s.transports p).link with cq := (s.transports p).link.cq.add wc } } :=
    ServerState.setTransport_self ..
  refine ⟨added.setTransport p t, reachable_of_moves hadded hstart.freed hunset (hself ▸ hmoves),
    fun hpool => hpool p ?_ hunset⟩
  rwa [ServerState.setTransport_self]

end Server

/-- The threads of the first connection wait for its first message. -/
example : ∃ s : ServerState Unit Unit,
    (observedServer Unit shortMessage).ReachableUnder
      (fun s a => s.1.InTime shortMessage s.2 a) (s, fun _ => []) ∧
      s.threadPool = .unset ∧ (s.transports ()).Waiting := by
  have hstart : (observedServer Unit shortMessage).ReachableUnder
      (fun s a => s.1.InTime shortMessage s.2 a)
      (firstConnection Unit false (.exchange ()) .created, fun _ => []) := by
    refine (firstConnection_reachable shortMessage false).recording fun s a h => ?_
    cases a with
    | init | connect | accept => exact ⟨trivial, rfl⟩
    | _ => cases h.2
  have h := hstart.next (a := ServerAct.poll () .pending) trivial rfl
  have h := h.next (a := ServerAct.handle ()) trivial rfl
  have h := h.next (a := ServerAct.handle ()) trivial rfl
  exact ⟨_, h, rfl, trivial, rfl, rfl, rfl, .inl rfl, ⟨rfl, rfl⟩, rfl, rfl, rfl⟩

end SparkRdma
