import Mathlib.Data.Prod.Lex
import Mathlib.Order.WellFounded
import SparkRdma.Transport.Parts

/-! # The threads of a transport come to rest

Left to themselves, with no further completions and no spurious returns, the threads of a transport
can only finish what they began: `poll_thread` comes back to `ibv_get_cq_event`, `handle_thread` to
its wait, and the work items to their end. Each of their steps brings a measure down, in which what
`poll_thread` has left to do counts before what `handle_thread` has, and that before the work items,
because each of them makes work for the next.

* **`RecvPc.rank`**, **`PollThreadPc.rank`**, **`HandlePc.rank`** — the steps a thread has left
  before it polls, or looks at the queue, again.
* **`pollMeasure`**, **`handleMeasure`**, **`workMeasure`** — what each of the three has left.
* **`Answers`** — the calls `poll_thread` makes come back, and succeed.
* **`progress_lt`** — each step brings the measure down. -/

namespace SparkRdma

open Interleaving

variable {χ : Type} {mem : χ → RdmaChunk}

/-- A call fails: it returns a negative value, or NULL. -/
def Answer.Fails : Answer → Prop
  | pending => False
  | ret r => r < 0
  | pointer notNull => notNull = false

instance : ∀ answer : Answer, Decidable answer.Fails
  | .pending => .isFalse not_false
  | .ret r => Int.decLt r 0
  | .pointer notNull => instDecidableEqBool notNull false

/-! ### `poll_thread` -/

/-- The steps left of posting receives. -/
def RecvPc.rank : RecvPc → ℕ
  | malloc => 3
  | getChunk => 2
  | post => 1
  | getChunkList num => num.toNat + 4
  | calloc num => num.toNat + 3
  | mallocs num => num.toNat + 2
  | posts left => left + 1

/-- A call is inside the pool, for one chunk or for several. -/
def RecvPc.InPool : RecvPc → Prop
  | getChunk | getChunkList _ => True
  | _ => False

/-- Unless it waits for the pool, each step is one less. -/
theorem RecvPc.rank_lt {pc pc' : RecvPc} {answer : Answer}
    (hpending : pc.InPool → answer ≠ .pending) (h : pc.step answer = some (.ok (some pc'))) :
    pc'.rank < pc.rank := by
  unfold RecvPc.step at h
  split at h
  case h_2 | h_5 => exact (hpending trivial rfl).elim
  case h_1 | h_3 | h_6 | h_7 | h_8 | h_10 =>
    obtain h := Option.some.inj h
    split at h <;> cases h
    simp only [rank]
    omega
  all_goals cases h

/-- A call always has one step left at least. -/
theorem RecvPc.rank_pos (pc : RecvPc) : 0 < pc.rank := by
  cases pc <;> simp only [rank] <;> omega

/-- A call has fewer than `2^32 + 4` steps. -/
theorem RecvPc.rank_enter {call : PostCall} {pc : RecvPc} (h : enter call = some pc) :
    pc.rank < 2 ^ 32 + 4 := by
  cases call with
  | recv =>
    cases h
    decide
  | recvWithNum num =>
    cases h
    exact Nat.add_lt_add_right num.toNat_lt 4
  | send call => cases h

/-- The call for a completion at hand has fewer than `2^32 + 4` steps left. -/
theorem rank_replenish {entry : Option (Wc χ)} {pc : RecvPc} (h : replenish mem entry = some pc) :
    pc.rank < 2 ^ 32 + 4 := by
  unfold replenish at h
  split at h
  · cases h
  · split at h
    · obtain ⟨call, -, hcall⟩ := Option.bind_eq_some_iff.mp h
      exact RecvPc.rank_enter hcall
    · cases h

/-- The steps `poll_thread` has left before it polls again. -/
def PollThreadPc.rank : PollThreadPc χ → ℕ
  | notStarted | getEvent => 0
  | start | pollCq => 1
  | alloc => 2
  | signal | reqNotify => 3
  | ack | push _ => 4
  | turn arr i => 5 + (arr.len - i) * (2 ^ 32 + 4)
  | recv arr i pc => 5 + (arr.len - (i + 1)) * (2 ^ 32 + 4) + pc.rank

/-- What `poll_thread` has left: events, completions, steps. -/
def LinkState.pollMeasure (s : LinkState χ) : ℕ ×ₗ ℕ ×ₗ ℕ :=
  toLex (s.cq.events, toLex (s.cq.items.length, s.poll.rank))

/-- The calls `poll_thread` makes come back, and succeed. -/
structure LinkState.Answers (s : LinkState χ) (answer : Answer) : Prop where
  /-- None fails. -/
  succeeds : ¬ answer.Fails
  /-- `ibv_req_notify_cq` arms the queue. -/
  arms : s.Arms (.poll answer)
  /-- The pool comes back. -/
  returns : ∀ arr i pc, s.poll = .recv arr i pc → pc.InPool → answer ≠ .pending

/-- Between two polls what is left is told by the rank. -/
theorem LinkState.pollMeasure_lt_of_rank {s s' : LinkState χ}
    (hevents : s'.cq.events = s.cq.events) (hitems : s'.cq.items = s.cq.items)
    (hrank : s'.poll.rank < s.poll.rank) : s'.pollMeasure < s.pollMeasure := by
  rw [pollMeasure, pollMeasure, hevents, hitems]
  exact Prod.Lex.right _ (Prod.Lex.right _ hrank)

/-- **Each step of `poll_thread`** leaves less. -/
theorem LinkState.pollMeasure_lt {s s' : LinkState χ} {answer : Answer} (h : s.Answers answer)
    (hstep : s.pollStep mem answer = some (.ok s')) : s'.pollMeasure < s.pollMeasure := by
  have hreturns := h.returns
  unfold LinkState.pollStep at hstep
  split at hstep
  · rename_i hpoll
    cases hstep
    exact pollMeasure_lt_of_rank rfl rfl (by simp [hpoll, PollThreadPc.rank])
  · -- an event is taken
    split at hstep
    · cases hstep
    · split at hstep <;> cases hstep
      exact Prod.Lex.left _ _ (Nat.sub_lt ‹_› Nat.zero_lt_one)
  · rename_i hpoll
    cases hstep
    exact pollMeasure_lt_of_rank rfl rfl (by simp [hpoll, PollThreadPc.rank])
  · rename_i hpoll
    split at hstep <;> cases hstep
    refine pollMeasure_lt_of_rank ?_ ?_ (by simp [hpoll, PollThreadPc.rank])
    · dsimp only
      split <;> rfl
    · dsimp only
      split <;> rfl
  · rename_i hpoll
    split at hstep <;> cases hstep
    exact pollMeasure_lt_of_rank rfl rfl (by simp [hpoll, PollThreadPc.rank])
  · rename_i r hpoll
    split at hstep
    · cases hstep
    · split at hstep
      · split at hstep <;> cases hstep
        exact pollMeasure_lt_of_rank rfl rfl (by simp [hpoll, PollThreadPc.rank])
      · -- completions are taken
        split at hstep <;> cases hstep
        refine Prod.Lex.right _ (Prod.Lex.left _ _ ?_)
        show (s.cq.items.drop r.toNat).length < s.cq.items.length
        rw [List.length_drop]
        omega
  · rename_i arr i hpoll
    split at hstep <;> cases hstep
    · rename_i hi
      refine pollMeasure_lt_of_rank rfl rfl ?_
      have hturn : arr.len - i = arr.len - (i + 1) + 1 := by omega
      rw [hpoll, PollThreadPc.rank, hturn]
      dsimp only
      split
      · rename_i pc hreplenish
        have hrank := rank_replenish hreplenish
        simp only [PollThreadPc.rank]
        omega
      · simp only [PollThreadPc.rank]
        omega
    · refine pollMeasure_lt_of_rank rfl rfl ?_
      simp only [hpoll, PollThreadPc.rank]
      omega
  · rename_i arr i pc hpoll
    obtain ⟨next, hnext, rfl⟩ := map_map_eq_ok.mp hstep
    refine pollMeasure_lt_of_rank rfl rfl ?_
    rw [hpoll]
    cases next with
    | none =>
      have := pc.rank_pos
      simp only [Option.elim_none, PollThreadPc.rank]
      omega
    | some pc' =>
      have := RecvPc.rank_lt (hreturns arr i pc hpoll) hnext
      simp only [Option.elim_some, PollThreadPc.rank]
      omega
  · rename_i hpoll
    cases hstep
    exact pollMeasure_lt_of_rank rfl rfl (by simp [hpoll, PollThreadPc.rank])
  · rename_i hpoll
    cases hstep
    exact pollMeasure_lt_of_rank rfl rfl (by simp [hpoll, PollThreadPc.rank])
  · cases hstep

/-! ### `handle_thread` -/

/-- The sections left of an event. -/
def HandlerPc.rank : HandlerPc χ → ℕ
  | idle => 0
  | found _ _ => 2
  | stored => 1

/-- The steps `handle_thread` has left before it looks at the queue again; it stands at the entry
`index` of its batch. -/
def HandlePc.rank (index : ℕ) (handler : HandlerPc χ) : HandlePc (WcArray χ) → ℕ
  | blocked => 0
  | sleep | pop _ => 1
  | peek => 2
  | woken => 3
  | events head => 4 + 4 * (head.len - index) + handler.rank
  | popped head => 5 + 4 * head.len + handler.rank

/-- A section of an event is one less. -/
theorem WorkState.rank_handlerStep {w w' : WorkState χ}
    (hstep : w.handlerStep mem = some (.ok w')) : w'.handler.rank < w.handler.rank := by
  unfold WorkState.handlerStep at hstep
  split at hstep
  · cases hstep
  · rename_i hfound
    obtain ⟨-, rfl⟩ := WorkState.pushNew_ok (Option.some.inj hstep)
    rw [hfound]
    exact Nat.one_lt_two
  · rename_i hfound
    obtain ⟨-, v, -, -, -, rfl⟩ := WorkState.appendFound_ok (Option.some.inj hstep)
    rw [hfound]
    exact Nat.one_lt_two
  · rename_i hstored
    rw [hstored]
    obtain ⟨-, -, rfl⟩ | ⟨-, rfl⟩ := WorkState.wakeSection_ok (Option.some.inj hstep) <;>
      exact Nat.zero_lt_one

namespace ServedTransport

variable {t t' : ServedTransport χ} {pool : WorkThreadPool}

/-- What `handle_thread` has left: batches, steps. -/
def handleMeasure (t : ServedTransport χ) : ℕ ×ₗ ℕ :=
  toLex (t.link.handover.handleQuque.length, t.link.handover.handle.rank t.index t.work.handler)

/-- Between two batches what is left is told by the rank. -/
theorem handleMeasure_lt_of_rank
    (hqueue : t'.link.handover.handleQuque = t.link.handover.handleQuque)
    (hrank : t'.link.handover.handle.rank t'.index t'.work.handler
      < t.link.handover.handle.rank t.index t.work.handler) :
    t'.handleMeasure < t.handleMeasure := by
  rw [handleMeasure, handleMeasure, hqueue]
  exact Prod.Lex.right _ hrank

/-- In its loop over a batch. -/
theorem handleMeasure_eventStep {head : WcArray χ} (hhandle : t.link.handover.handle = .events head)
    (hstep : t.eventStep mem .running head = some (.ok t')) :
    t'.handleMeasure < t.handleMeasure := by
  obtain ⟨wc, work, hidle, hindex, -, -, hwork, rfl⟩ | ⟨hidle, -, rfl⟩ |
    ⟨work, -, hwork, hend⟩ := eventStep_cases hhandle hstep
  · refine handleMeasure_lt_of_rank rfl ?_
    have hrank : work.handler.rank ≤ 2 := by
      cases work.handler <;> simp [HandlerPc.rank]
    simp only [hhandle, HandlePc.rank]
    omega
  · refine handleMeasure_lt_of_rank rfl ?_
    simp only [hhandle, HandlePc.rank]
    omega
  · cases hend
    refine handleMeasure_lt_of_rank rfl ?_
    have hrank := WorkState.rank_handlerStep hwork
    simp only [hhandle, HandlePc.rank]
    omega

/-- **Each step of `handle_thread`** leaves less, and leaves the connection to `poll_thread`. -/
theorem handleMeasure_lt (h : Shape t) (hstep : t.handleStep mem .running = some (.ok t')) :
    t'.handleMeasure < t.handleMeasure ∧ t'.link.pollMeasure = t.link.pollMeasure := by
  have hmeasure : t'.link.poll = t.link.poll ∧ t'.link.cq = t.link.cq →
      t'.link.pollMeasure = t.link.pollMeasure := by
    rintro ⟨hpoll, hcq⟩
    rw [LinkState.pollMeasure, LinkState.pollMeasure, hpoll, hcq]
  unfold handleStep at hstep
  split at hstep
  swap
  · cases hstep
  split at hstep
  · rename_i head hhandle
    refine ⟨handleMeasure_eventStep hhandle hstep, hmeasure ?_⟩
    obtain ⟨wc, work, -, -, -, -, -, rfl⟩ | ⟨-, -, rfl⟩ | ⟨work, -, -, hend⟩ :=
      eventStep_cases hhandle hstep
    · exact ⟨rfl, rfl⟩
    · exact ⟨rfl, rfl⟩
    · cases hend
      exact ⟨rfl, rfl⟩
  · rename_i hnot
    obtain ⟨handover, hhandover, rfl⟩ := map_map_eq_ok.mp hstep
    refine ⟨?_, hmeasure ⟨rfl, rfl⟩⟩
    unfold HandleState.handleStep at hhandover
    split at hhandover
    · rename_i hpeek
      split at hhandover <;> cases hhandover <;>
        exact handleMeasure_lt_of_rank rfl (by simp [hpeek, HandlePc.rank])
    · rename_i hsleep
      cases hhandover
      exact handleMeasure_lt_of_rank rfl (by simp [hsleep, HandlePc.rank])
    · cases hhandover
    · rename_i hwoken
      cases hhandover
      exact handleMeasure_lt_of_rank rfl (by simp [hwoken, HandlePc.rank])
    · -- a batch leaves the queue
      rename_i head hpop
      cases hhandover
      obtain ⟨rest, hqueue⟩ := h.seen head hpop
      refine Prod.Lex.left _ _ ?_
      show t.link.handover.handleQuque.tail.length < t.link.handover.handleQuque.length
      rw [hqueue]
      exact Nat.lt_succ_self _
    · rename_i head hpopped
      split at hhandover <;> cases hhandover
      refine handleMeasure_lt_of_rank rfl ?_
      simp only [hpopped, HandlePc.rank]
      omega
    · rename_i head hevents
      exact (hnot head hevents).elim

end ServedTransport

/-! ### The work items -/

/-- The steps an execution of `work_thread` has left before it is at the top of its loop again, and
one. -/
def WorkerPc.rank : WorkerPc → ℕ
  | top => 1
  | popped _ => 3
  | delivered _ => 2

namespace WorkState

variable {w w' : WorkState χ}

/-- What the work items have left: messages, items, steps. -/
def workMeasure (w : WorkState χ) : ℕ :=
  4 * w.workQueue.length + 2 * w.poolItems + (w.workers.map WorkerPc.rank).sum

/-- A work item leaves `handle_thread` where it is. -/
theorem handler_workerStep {i : ℕ} (hstep : w.workerStep mem i = some (.ok w')) :
    w'.handler = w.handler := by
  unfold workerStep at hstep
  split at hstep
  · cases hstep
  · obtain ⟨head, rest, v, -, -, -, rfl⟩ | ⟨-, rfl⟩ := headSection_ok (Option.some.inj hstep)
    · rfl
    · rfl
  · obtain ⟨-, v, callback, -, -, -, rfl⟩ := deliverHead_ok (Option.some.inj hstep)
    rfl
  · cases hstep
    rfl

/-- The start of a work item. -/
theorem workMeasure_startItem (hitems : 0 < w.poolItems) :
    w.startItem.workMeasure < w.workMeasure := by
  simp only [workMeasure, startItem, List.map_append, List.sum_append, List.map_singleton,
    List.sum_singleton, WorkerPc.rank]
  omega

/-- **Each step of a work item** leaves less. -/
theorem workMeasure_lt (h : WorkInv mem w) {i : ℕ} (hstep : w.workerStep mem i = some (.ok w')) :
    w'.workMeasure < w.workMeasure := by
  unfold workerStep at hstep
  split at hstep
  · cases hstep
  · rename_i htop
    obtain ⟨rfl, hworkers, -, -⟩ := h.single htop
    obtain ⟨head, rest, v, hqueue, -, -, rfl⟩ | ⟨-, rfl⟩ :=
      headSection_ok (Option.some.inj hstep)
    · simp only [workMeasure, hqueue, hworkers, List.set_cons_zero, List.length_cons, List.map_cons,
        List.map_nil, List.sum_cons, List.sum_nil, WorkerPc.rank]
      omega
    · simp only [workMeasure, hworkers, List.eraseIdx_cons_zero, List.map_cons, List.map_nil,
        List.sum_cons, List.sum_nil, WorkerPc.rank]
      omega
  · rename_i head hpopped
    obtain ⟨rfl, hworkers, -, -⟩ := h.single hpopped
    obtain ⟨-, v, callback, -, -, -, rfl⟩ := deliverHead_ok (Option.some.inj hstep)
    simp only [workMeasure, hworkers, List.set_cons_zero, List.map_cons, List.map_nil,
      List.sum_cons, List.sum_nil, WorkerPc.rank]
    omega
  · rename_i head hdelivered
    obtain ⟨rfl, hworkers, -, -⟩ := h.single hdelivered
    cases hstep
    simp only [workMeasure, freeHead, hworkers, List.set_cons_zero, List.map_cons, List.map_nil,
      List.sum_cons, List.sum_nil, WorkerPc.rank]
    omega

end WorkState

/-! ### All together -/

namespace ServedTransport

variable {t t' : ServedTransport χ} {a : TransportAct χ}

/-- What all threads have left. -/
def progress (t : ServedTransport χ) : (ℕ ×ₗ ℕ ×ₗ ℕ) ×ₗ (ℕ ×ₗ ℕ) ×ₗ ℕ :=
  toLex (t.link.pollMeasure, toLex (t.handleMeasure, t.work.workMeasure))

/-- The steps the threads take when they are left to themselves. -/
def Proceeds (t : ServedTransport χ) : TransportAct χ → Prop
  | .poll answer => t.link.Answers answer
  | .handle pool => pool = .running
  | .startItem => True
  | .worker _ => True
  | _ => False

/-- **Each step brings the measure down.** -/
theorem progress_lt (h : Shape t) (hwork : WorkInv mem t.work) (ha : t.Proceeds a)
    (hstep : transportStep mem t a = some (.ok t')) : t'.progress < t.progress := by
  cases a with
  | poll answer =>
    simp only [transportStep, ServedTransport.pollStep] at hstep
    split at hstep
    · obtain ⟨link, hlink, rfl⟩ := map_map_eq_ok.mp hstep
      exact Prod.Lex.left _ _ (LinkState.pollMeasure_lt ha hlink)
    · cases hstep
  | handle pool =>
    obtain rfl : pool = .running := ha
    obtain ⟨hlt, heq⟩ := handleMeasure_lt h hstep
    rw [progress, progress, heq]
    exact Prod.Lex.right _ (Prod.Lex.left _ _ hlt)
  | startItem =>
    simp only [transportStep] at hstep
    split at hstep <;> cases hstep
    exact Prod.Lex.right _ (Prod.Lex.right _ (WorkState.workMeasure_startItem ‹_›))
  | worker i =>
    obtain ⟨work, hworker, rfl⟩ := map_map_eq_ok.mp hstep
    have hhandler : work.handler = t.work.handler := WorkState.handler_workerStep hworker
    have hmeasure : ({ t with work := work } : ServedTransport χ).handleMeasure
        = t.handleMeasure := by
      simp only [handleMeasure, hhandler]
    refine Prod.Lex.right _ ?_
    rw [hmeasure]
    exact Prod.Lex.right _ (WorkState.workMeasure_lt hwork hworker)
  | _ => exact ha.elim

end ServedTransport

end SparkRdma
