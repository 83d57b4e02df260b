import SparkRdma.Foundations.Machine

/-! # The hand-over from `poll_thread` to `handle_thread`

`poll_thread` pushes each polled batch on `handle_quque` under `handle_queue_lock`, and then, under
`handle_cv_lock`, raises `is_handle_running` and signals `handle_cv` if the flag was down.
`handle_thread` peeks at the queue under the first lock and goes to sleep under the second.
The machine `handleQueue` interleaves these sections, each of them one step; a batch is an
arbitrary value, because the hand-over never looks into it.

* **`Stalled`** — `handle_thread` is blocked and not signalled although a batch is queued and
  `poll_thread` is done with it: the batch waits for some later completion.
* **`stalled_reachable`** — such a state is reached: the emptiness test and the decision to sleep
  are made under different locks.
* **`not_stalled_of_heard`** — the only schedules that reach one run `poll_thread`'s signalling
  section inside the window between `handle_thread`'s empty peek and its wait. -/

namespace SparkRdma

open Interleaving

/-- Where `poll_thread` stands with respect to the batch it pushed last. -/
inductive PollPc
  /-- Not between the push of a batch and its signalling section. -/
  | polling
  /-- The batch is on `handle_quque`; the section under `handle_cv_lock` is still ahead. -/
  | pushed
  deriving DecidableEq, Repr

/-- The program points of `handle_thread`'s loop. -/
inductive HandlePc (β : Type*)
  /-- About to peek at the queue under `handle_queue_lock`. -/
  | peek
  /-- The peek returned NULL; about to enter the section under `handle_cv_lock`. -/
  | sleep
  /-- Inside `pthread_cond_wait`, not signalled. -/
  | blocked
  /-- `pthread_cond_wait` has returned. -/
  | woken
  /-- The peek returned `head`; about to pop under `handle_queue_lock`. -/
  | pop (head : β)
  /-- At `GPR_ASSERT(transport->is_handle_running == 1)`. -/
  | popped (head : β)
  /-- Running the events of `head`. -/
  | events (head : β)
  deriving DecidableEq, Repr

/-- The part of `struct rdma_transport` the two threads share, with their program points. -/
structure HandleState (β : Type*) where
  /-- The batches pushed and not yet popped, head first. -/
  handleQuque : List β
  /-- `is_handle_running`. -/
  isHandleRunning : ℕ
  /-- The program point of `poll_thread`. -/
  poll : PollPc
  /-- The program point of `handle_thread`. -/
  handle : HandlePc β
  deriving DecidableEq, Repr

/-- The steps of the two threads. -/
inductive HandleAct (β : Type*)
  /-- `poll_thread` pushes the batch `wcArray`. -/
  | push (wcArray : β)
  /-- `poll_thread` runs its section under `handle_cv_lock`. -/
  | signal
  /-- `handle_thread` takes its next step. -/
  | handle
  /-- `pthread_cond_wait` returns without a signal. -/
  | spurious
  deriving DecidableEq, Repr

variable {β : Type*}

namespace HandleState

/-- `g_queue_push_tail(server->handle_quque, wc_array)` under `handle_queue_lock`. -/
def pushBatch (s : HandleState β) (wcArray : β) : HandleState β :=
  { s with handleQuque := s.handleQuque ++ [wcArray], poll := .pushed }

/-- `pthread_cond_signal(&server->handle_cv)`: wakes `handle_thread` only if it is blocked. -/
def condSignal (s : HandleState β) : HandleState β :=
  match s.handle with
  | .blocked => { s with handle := .woken }
  | _ => s

/-- `poll_thread`'s section under `handle_cv_lock`. -/
def signalSection (s : HandleState β) : HandleState β :=
  if s.isHandleRunning = 0 then
    { ({ s with isHandleRunning := 1 } : HandleState β).condSignal with poll := .polling }
  else { s with poll := .polling }

/-- The next step of `handle_thread`; it has none while it is blocked. -/
def handleStep (s : HandleState β) : Option (Except CFault (HandleState β)) :=
  match s.handle with
  | .peek =>
      match s.handleQuque with
      | [] => some (.ok { s with handle := .sleep })
      | head :: _ => some (.ok { s with handle := .pop head })
  | .sleep => some (.ok { s with isHandleRunning := 0, handle := .blocked })
  | .blocked => none
  | .woken => some (.ok { s with handle := .peek })
  | .pop head => some (.ok { s with handleQuque := s.handleQuque.tail, handle := .popped head })
  | .popped head =>
      if s.isHandleRunning = 1 then some (.ok { s with handle := .events head })
      else some (.error .assertion)
  | .events _ => some (.ok { s with handle := .peek })

/-- The state `rdma_create_connect` sets up: an empty queue, the flag down, both threads started. -/
def start (β : Type*) : HandleState β :=
  { handleQuque := [], isHandleRunning := 0, poll := .polling, handle := .peek }

/-- A batch is queued, `handle_thread` is blocked and not signalled, and `poll_thread` has left the
push-and-signal sequence of the last batch: nothing but a later completion can wake it. -/
def Stalled (s : HandleState β) : Prop :=
  s.handle = .blocked ∧ s.handleQuque ≠ [] ∧ s.poll = .polling

/-- `handle_thread` stands between a peek that returned NULL and its wait, and a batch has been
pushed since. -/
def InWindow (s : HandleState β) : Prop :=
  s.handle = .sleep ∧ s.handleQuque ≠ []

/-- The condition on a step that no signal goes unheard: the signalling section does not run
inside `handle_thread`'s window. -/
def Heard (s : HandleState β) (a : HandleAct β) : Prop :=
  a = .signal → ¬ s.InWindow

/-- The condition on a step that `pthread_cond_wait` returns only when signalled. -/
def NoSpurious (_ : HandleState β) (a : HandleAct β) : Prop :=
  a ≠ .spurious

instance [DecidableEq β] (s : HandleState β) (a : HandleAct β) : Decidable (NoSpurious s a) :=
  inferInstanceAs (Decidable (a ≠ .spurious))

instance [DecidableEq β] (s : HandleState β) (a : HandleAct β) : Decidable (Heard s a) :=
  inferInstanceAs (Decidable (a = .signal → ¬ (s.handle = .sleep ∧ s.handleQuque ≠ [])))

end HandleState

open HandleState

/-- One step of `poll_thread` or `handle_thread`. -/
def handleQueueStep (s : HandleState β) : HandleAct β → Option (Except CFault (HandleState β))
  | .push wcArray => if s.poll = .polling then some (.ok (s.pushBatch wcArray)) else none
  | .signal => if s.poll = .pushed then some (.ok s.signalSection) else none
  | .handle => s.handleStep
  | .spurious =>
      match s.handle with
      | .blocked => some (.ok { s with handle := .woken })
      | _ => none

/-- `poll_thread` and `handle_thread` of one transport, section by section. -/
def handleQueue (β : Type*) : Machine (HandleState β) CFault (HandleAct β) where
  init := start β
  step := handleQueueStep

/-! ### The lost wake-up -/

/-- **A wake-up is lost.** Without any spurious return, `handle_thread` sees an empty queue,
`poll_thread` pushes a batch and signals a condition nobody waits on, and `handle_thread` lowers the
flag and blocks. -/
theorem stalled_reachable :
    ¬ ∀ s : HandleState ℕ, (handleQueue ℕ).ReachableUnder NoSpurious s → ¬ s.Stalled := by
  intro h
  refine h ⟨[7], 0, .polling, .blocked⟩ ?_ ⟨rfl, by decide, rfl⟩
  exact Machine.reachableUnder_of_exec [.handle, .push 7, .signal, .handle] .init (by decide)

/-- With `handle_thread` awake, the signalling section only raises the flag. -/
theorem signalSection_of_not_blocked {s : HandleState β} (h : s.handle ≠ .blocked) :
    s.signalSection = { s with
      isHandleRunning := if s.isHandleRunning = 0 then 1 else s.isHandleRunning
      poll := .polling } := by
  unfold signalSection condSignal
  split
  · cases hpc : s.handle with
    | blocked => exact absurd hpc h
    | _ => simp
  · rfl

/-- A signal inside the window is lost: `handle_thread`'s next step blocks it for good. -/
theorem stalled_of_unheard {s s' : HandleState β} (hw : s.InWindow)
    (hstep : (handleQueue β).step s .signal = some (.ok s')) :
    ∃ s'', (handleQueue β).step s' .handle = some (.ok s'') ∧ s''.Stalled := by
  obtain ⟨hsleep, hqueue⟩ := hw
  simp only [handleQueue, handleQueueStep] at hstep
  split at hstep <;> cases hstep
  rw [signalSection_of_not_blocked (by simp [hsleep])]
  refine ⟨{ s with isHandleRunning := 0, poll := .polling, handle := .blocked }, ?_,
    rfl, hqueue, rfl⟩
  simp [handleQueue, handleQueueStep, handleStep, hsleep]

/-! ### Schedules without the window -/

/-- What the schedules that keep signals out of the window preserve: a blocked `handle_thread` has
the flag down, and while it sleeps or is about to, a queued batch is one still to be signalled. -/
structure WakeInv (s : HandleState β) : Prop where
  /-- A blocked `handle_thread` has lowered the flag, so that the next signalling section wakes
  it. -/
  blocked_flag : s.handle = .blocked → s.isHandleRunning = 0
  /-- A batch queued behind `handle_thread`'s back is one `poll_thread` has not signalled yet. -/
  unsignalled : s.handle = .sleep ∨ s.handle = .blocked → s.handleQuque ≠ [] → s.poll = .pushed

/-- `poll_thread`'s push leaves its own signal ahead. -/
theorem WakeInv.pushBatch {s : HandleState β} (h : WakeInv s) (wcArray : β) :
    WakeInv (s.pushBatch wcArray) where
  blocked_flag := h.blocked_flag
  unsignalled := fun _ _ => rfl

/-- The signalling section outside the window: a blocked `handle_thread` has the flag down, so it is
woken; one about to sleep has nothing queued. -/
theorem WakeInv.signalSection {s : HandleState β} (h : WakeInv s) (hw : ¬ s.InWindow) :
    WakeInv s.signalSection := by
  unfold HandleState.signalSection condSignal
  split
  · rename_i hflag
    cases hpc : s.handle <;> constructor <;> simp_all [InWindow]
  · -- The flag is up, so nobody is blocked, and nothing is signalled.
    rename_i hflag
    have hne : s.handle ≠ .blocked := fun hb => hflag (h.blocked_flag hb)
    exact ⟨fun hb => absurd hb hne, fun hb hq => absurd ⟨hb.resolve_right hne, hq⟩ hw⟩

/-- `handle_thread`'s own steps: it decides to sleep on an empty queue, and lowers the flag as it
blocks. -/
theorem WakeInv.handleStep {s s' : HandleState β} (h : WakeInv s)
    (hstep : s.handleStep = some (.ok s')) : WakeInv s' := by
  unfold HandleState.handleStep at hstep
  cases hpc : s.handle with
  | peek =>
    cases hq : s.handleQuque with
    | nil =>
      -- it goes to sleep behind an empty queue, with nothing to be signalled
      simp only [hpc, hq, Option.some.injEq, Except.ok.injEq] at hstep
      subst hstep
      constructor <;> simp
    | cons head rest =>
      simp only [hpc, hq, Option.some.injEq, Except.ok.injEq] at hstep
      subst hstep
      constructor <;> simp
  | sleep =>
    -- the flag goes down in the section that blocks, and the queue is as it was before
    simp only [hpc, Option.some.injEq, Except.ok.injEq] at hstep
    subst hstep
    exact ⟨fun _ => rfl, fun _ hq => h.unsignalled (.inl hpc) hq⟩
  | blocked => simp [hpc] at hstep
  | popped head =>
    simp only [hpc] at hstep
    split at hstep <;> cases hstep
    constructor <;> simp
  | woken | pop head | events head =>
    simp only [hpc, Option.some.injEq, Except.ok.injEq] at hstep
    subst hstep
    constructor <;> simp

/-- **One step** with every signal heard preserves it. -/
theorem WakeInv.step {s s' : HandleState β} (h : WakeInv s) {a : HandleAct β} (hheard : s.Heard a)
    (hstep : handleQueueStep s a = some (.ok s')) : WakeInv s' := by
  cases a with
  | push wcArray =>
    simp only [handleQueueStep] at hstep
    split at hstep <;> cases hstep
    exact h.pushBatch wcArray
  | signal =>
    simp only [handleQueueStep] at hstep
    split at hstep <;> cases hstep
    exact h.signalSection (hheard rfl)
  | handle => exact h.handleStep hstep
  | spurious =>
    -- A spurious return only wakes `handle_thread`, which peeks again.
    simp only [handleQueueStep] at hstep
    split at hstep <;> cases hstep
    exact ⟨by simp, by simp⟩

/-- **No wake-up is lost outside the window.** In every run, spurious returns of
`pthread_cond_wait` included, in which the signalling section never runs inside the window, no
state reached is stalled. -/
theorem not_stalled_of_heard (s : HandleState β) (hs : (handleQueue β).ReachableUnder Heard s) :
    ¬ s.Stalled := by
  have hinit : WakeInv (handleQueue β).init :=
    ⟨by simp [handleQueue, start], by simp [handleQueue, start]⟩
  have hinv : WakeInv s :=
    hs.invariant hinit fun _ _ _ _ h hheard hstep => h.step hheard hstep
  rintro ⟨hblocked, hqueue, hpoll⟩
  -- a queued batch is one `poll_thread` has yet to signal, and it is polling again
  have := hinv.unsignalled (.inr hblocked) hqueue
  simp [hpoll] at this

/-- `handle_thread` blocks first and the batch's signal wakes it: every signal is heard. -/
theorem not_stalled_of_heard_woken :
    ¬ (⟨[7], 1, .polling, .woken⟩ : HandleState ℕ).Stalled :=
  not_stalled_of_heard _ <|
    Machine.reachableUnder_of_exec [.handle, .handle, .push 7, .signal] .init (by decide)

end SparkRdma
