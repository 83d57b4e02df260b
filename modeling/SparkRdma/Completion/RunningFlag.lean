import SparkRdma.Completion.HandleQueue

/-! # The assertion on `is_handle_running`

Behind its pop `handle_thread` asserts that `is_handle_running` is 1. The flag is raised by
`poll_thread`, in a section of its own behind the push, and lowered by `handle_thread` where it goes
to sleep; `pthread_cond_wait` may return without the flag having been raised, and the flag starts
lowered.

* **`HeadAnnounced`** — `poll_thread` is through with the batch at the head of the queue: its push
  and its section under `handle_cv_lock`.
* **`handleQueueAlone`** — `handleQueue` with a history variable: `handle_thread` is awake on its
  own, because it has just started or because its wait has returned without a signal.
* **`assertion_reached_early`** — `handle_thread` can get to a batch and to its assertion before
  `poll_thread` has raised the flag.
* **`assertion_never_fails`** — it does not when a thread awake on its own pops no batch between its
  push and its announcement, and does not wake beside one that was announced before it slept.
* **`assertion_fails_of_early`**, **`assertion_fails_of_late`** — either of the two leads to the
  failure. -/

namespace SparkRdma

open Interleaving HandleState

variable {β : Type*}

/-- The batch at the head of the queue is one that `poll_thread` has announced: it is not the one
whose section under `handle_cv_lock` is still ahead. -/
def HandleState.HeadAnnounced (s : HandleState β) : Prop :=
  (if s.poll = .pushed then 1 else 0) < s.handleQuque.length

instance (s : HandleState β) : Decidable s.HeadAnnounced := Nat.decLt ..

/-- Whether `handle_thread` is awake on its own after one more step: it has started, or its wait has
returned without a signal, and since then it has popped nothing, and `poll_thread` has announced
nothing that was popped before. -/
def noteAlone (s : HandleState β) (a : HandleAct β) (alone : Bool) : Bool :=
  match a, s.handle with
  | .spurious, _ => true
  | .handle, .pop _ => false
  | .signal, .blocked => false
  | .signal, _ => alone && !s.handleQuque.isEmpty
  | _, _ => alone

/-- The hand-over, recording whether `handle_thread` is awake on its own. -/
def handleQueueAlone (β : Type*) : Machine (HandleState β × Bool) CFault (HandleAct β) :=
  (handleQueue β).recording true noteAlone

/-- The condition on a step that `handle_thread`, awake on its own, does not pop a batch between its
push and its announcement, and that its wait does not return without a signal while a batch is
queued that was announced. -/
def PopsAnnounced (s : HandleState β × Bool) : HandleAct β → Prop
  | .handle => ∀ head, s.1.handle = .pop head → s.2 = true → s.1.HeadAnnounced
  | .spurious => ¬ s.1.HeadAnnounced
  | _ => True

instance (s : HandleState β × Bool) : ∀ a, Decidable (PopsAnnounced s a)
  | .handle =>
      match hpc : s.1.handle with
      | .pop head => decidable_of_iff (s.2 = true → s.1.HeadAnnounced)
          ⟨fun h _ _ => h, fun h => h head hpc⟩
      | .peek | .sleep | .blocked | .woken | .popped _ | .events _ =>
          .isTrue fun head hpop => by rw [hpc] at hpop; cases hpop
  | .spurious => inferInstanceAs (Decidable (¬ s.1.HeadAnnounced))
  | .push _ | .signal => .isTrue trivial

/-! ### The early assertion -/

/-- **The assertion fails.** `poll_thread` pushes a batch; `handle_thread`, which has just started,
peeks at it, pops it and comes to the assertion before `poll_thread` enters its next section. No
spurious return is needed. -/
theorem assertion_reached_early :
    ¬ ∀ s : HandleState ℕ, (handleQueue ℕ).ReachableUnder NoSpurious s →
      ∀ head, s.handle = .popped head → s.isHandleRunning = 1 := by
  intro h
  have hflag := h ⟨[], 0, .pushed, .popped 7⟩
    (Machine.reachableUnder_of_exec [.push 7, .handle, .handle] .init (by decide)) 7 rfl
  exact absurd hflag (by decide)

/-! ### What raises the flag -/

/-- What holds of the flag in the runs that meet the condition. -/
structure FlagInv (s : HandleState β × Bool) : Prop where
  /-- It is up or down. -/
  le_one : s.1.isHandleRunning ≤ 1
  /-- A blocked `handle_thread` has lowered it. -/
  blocked : s.1.handle = .blocked → s.1.isHandleRunning = 0
  /-- What `handle_thread` has peeked at is still queued. -/
  seen : ∀ head, s.1.handle = .pop head → s.1.handleQuque ≠ []
  /-- With `handle_thread` awake on its own, it tells whether the head was announced. -/
  alone : s.2 = true → s.1.handle ≠ .blocked → (s.1.isHandleRunning = 1 ↔ s.1.HeadAnnounced)
  /-- With `handle_thread` woken by a signal, it is up. -/
  signalled : s.2 = false → s.1.handle ≠ .blocked → s.1.isHandleRunning = 1
  /-- Behind a pop `handle_thread` is not awake on its own. -/
  popped : ∀ head, s.1.handle = .popped head → s.2 = false

namespace FlagInv

variable {s s' : HandleState β} {alone : Bool}

/-- Both threads have just started. -/
theorem start : FlagInv (handleQueueAlone β).init := by
  constructor <;> simp [handleQueueAlone, Machine.recording, handleQueue, HandleState.start,
    HeadAnnounced]

/-- A push changes neither the head nor what was announced of it. -/
theorem pushBatch (h : FlagInv (s, alone)) (hpoll : s.poll = .polling) (wcArray : β) :
    FlagInv (s.pushBatch wcArray, alone) where
  le_one := h.le_one
  blocked := h.blocked
  seen := fun _ _ => by simp [HandleState.pushBatch]
  alone := fun halone hawake => by
    have hflag := h.alone halone hawake
    simpa [HeadAnnounced, HandleState.pushBatch, hpoll] using hflag
  signalled := h.signalled
  popped := h.popped

/-- `poll_thread`'s section leaves the flag up, and everything queued announced. -/
theorem signalSection (h : FlagInv (s, alone)) :
    FlagInv (s.signalSection, noteAlone s .signal alone) := by
  by_cases hblocked : s.handle = .blocked
  · -- the flag is down, so the signal is sent, and wakes
    have hflag : s.isHandleRunning = 0 := h.blocked hblocked
    have hsection : s.signalSection = { s with
        isHandleRunning := 1, handle := .woken, poll := .polling } := by
      simp [HandleState.signalSection, condSignal, hflag, hblocked]
    rw [hsection]
    constructor <;> simp [noteAlone, hblocked]
  · have hflag : (if s.isHandleRunning = 0 then 1 else s.isHandleRunning) = 1 := by
      have hle := h.le_one
      simp only at hle
      split <;> omega
    have hnote : noteAlone s .signal alone = (alone && !s.handleQuque.isEmpty) := by
      unfold noteAlone
      cases hpc : s.handle with
      | blocked => exact absurd hpc hblocked
      | _ => rfl
    rw [signalSection_of_not_blocked hblocked, hflag, hnote]
    refine ⟨Nat.le_refl 1, fun hb => absurd hb hblocked, h.seen, fun halone _ => ?_,
      fun _ _ => rfl, ?_⟩
    · -- it stays awake on its own only beside a batch that is announced now
      have hqueue : s.handleQuque ≠ [] := by
        simp only [Bool.and_eq_true, Bool.not_eq_true', List.isEmpty_eq_false_iff] at halone
        exact halone.2
      simpa [HeadAnnounced] using List.length_pos_iff.mpr hqueue
    · intro head hpopped
      have halone : alone = false := h.popped head hpopped
      rw [halone, Bool.false_and]

/-- `handle_thread`'s own steps. It lowers the flag as it blocks; what it pops was announced, or it
was signalled. -/
theorem handleStep (h : FlagInv (s, alone)) (hannounced : PopsAnnounced (s, alone) .handle)
    (hstep : s.handleStep = some (.ok s')) : FlagInv (s', noteAlone s .handle alone) := by
  unfold HandleState.handleStep at hstep
  unfold noteAlone
  cases hpc : s.handle with
  | peek =>
    have hawake : s.handle ≠ .blocked := by simp [hpc]
    simp only [hpc] at hstep
    split at hstep <;> cases hstep
    · exact ⟨h.le_one, nofun, nofun, fun halone _ => h.alone halone hawake,
        fun hsignalled _ => h.signalled hsignalled hawake, nofun⟩
    · rename_i hqueue
      exact ⟨h.le_one, nofun, fun _ _ => by simp [hqueue], fun halone _ => h.alone halone hawake,
        fun hsignalled _ => h.signalled hsignalled hawake, nofun⟩
  | sleep =>
    simp only [hpc] at hstep
    cases hstep
    exact ⟨Nat.zero_le _, fun _ => rfl, nofun, fun _ hawake => absurd rfl hawake,
      fun _ hawake => absurd rfl hawake, nofun⟩
  | blocked => simp [hpc] at hstep
  | woken =>
    simp only [hpc] at hstep
    cases hstep
    have hawake : s.handle ≠ .blocked := by simp [hpc]
    exact ⟨h.le_one, nofun, nofun, fun halone _ => h.alone halone hawake,
      fun hsignalled _ => h.signalled hsignalled hawake, nofun⟩
  | pop head =>
    simp only [hpc] at hstep
    cases hstep
    have hawake : s.handle ≠ .blocked := by simp [hpc]
    have hflag : s.isHandleRunning = 1 := by
      cases alone with
      | true => exact (h.alone rfl hawake).mpr (hannounced head hpc rfl)
      | false => exact h.signalled rfl hawake
    exact ⟨h.le_one, nofun, nofun, nofun, fun _ _ => hflag, fun _ _ => rfl⟩
  | popped head =>
    simp only [hpc] at hstep
    split at hstep <;> cases hstep
    have halone : alone = false := h.popped head hpc
    subst halone
    exact ⟨h.le_one, nofun, nofun, nofun, fun _ _ => ‹_›, nofun⟩
  | events head =>
    simp only [hpc] at hstep
    cases hstep
    have hawake : s.handle ≠ .blocked := by simp [hpc]
    exact ⟨h.le_one, nofun, nofun, fun halone _ => h.alone halone hawake,
      fun hsignalled _ => h.signalled hsignalled hawake, nofun⟩

/-- A return without a signal leaves the flag down, beside a queue with nothing announced. -/
theorem spuriousReturn (h : FlagInv (s, alone)) (hblocked : s.handle = .blocked)
    (hannounced : ¬ s.HeadAnnounced) : FlagInv ({ s with handle := .woken }, true) where
  le_one := h.le_one
  blocked := by simp
  seen := by simp
  alone := fun _ _ => by
    have hflag : s.isHandleRunning = 0 := h.blocked hblocked
    exact iff_of_false (hflag.trans_ne Nat.zero_ne_one) hannounced
  signalled := by simp
  popped := by simp

/-- **One step** that meets the condition preserves it. -/
theorem step (h : FlagInv (s, alone)) {a : HandleAct β} (hannounced : PopsAnnounced (s, alone) a)
    (hstep : handleQueueStep s a = some (.ok s')) : FlagInv (s', noteAlone s a alone) := by
  cases a with
  | push wcArray =>
    simp only [handleQueueStep] at hstep
    split at hstep <;> cases hstep
    exact h.pushBatch ‹_› wcArray
  | signal =>
    simp only [handleQueueStep] at hstep
    split at hstep <;> cases hstep
    exact h.signalSection
  | handle => exact h.handleStep hannounced hstep
  | spurious =>
    simp only [handleQueueStep] at hstep
    split at hstep <;> cases hstep
    exact h.spuriousReturn ‹_› hannounced

end FlagInv

/-- The invariant of the flag holds in every run that meets the condition. -/
theorem flagInv_of_reachable {s : HandleState β × Bool}
    (hs : (handleQueueAlone β).ReachableUnder PopsAnnounced s) : FlagInv s := by
  refine hs.invariant .start ?_
  rintro ⟨s, alone⟩ a s' - h hannounced hrecorded
  obtain ⟨s', hstep, rfl⟩ := map_map_eq_ok.mp hrecorded
  exact h.step hannounced hstep

/-! ### When the assertion holds -/

/-- **The assertion never fails**, spurious returns included, in the runs in which `handle_thread`,
awake on its own, pops no batch that `poll_thread` has pushed and not yet announced, and does not
come out of its wait beside one that was announced before: the flag is up wherever it comes to the
assertion, and no step aborts. -/
theorem assertion_never_fails {s : HandleState β × Bool}
    (hs : (handleQueueAlone β).ReachableUnder PopsAnnounced s) :
    (∀ head, s.1.handle = .popped head → s.1.isHandleRunning = 1) ∧
      ∀ a e, (handleQueueAlone β).step s a ≠ some (.error e) := by
  have h := flagInv_of_reachable hs
  have hup : ∀ head, s.1.handle = .popped head → s.1.isHandleRunning = 1 := fun head hpc =>
    h.signalled (h.popped head hpc) (by simp [hpc])
  refine ⟨hup, fun a e hstep => ?_⟩
  replace hstep : handleQueueStep s.1 a = some (.error e) := map_map_eq_error.mp hstep
  cases a with
  | push wcArray | signal =>
    simp only [handleQueueStep] at hstep
    split at hstep <;> cases hstep
  | handle =>
    simp only [handleQueueStep, handleStep] at hstep
    cases hpc : s.1.handle with
    | popped head => simp [hpc, hup head hpc] at hstep
    | peek =>
      simp only [hpc] at hstep
      split at hstep <;> cases hstep
    | sleep | blocked | woken | pop head | events head => simp [hpc] at hstep
  | spurious =>
    simp only [handleQueueStep] at hstep
    split at hstep <;> cases hstep

/-- `handle_thread` blocks, wakes without a signal, and peeks when a batch is pushed and announced;
it is busy with that one when the next is pushed, and pops it before it is announced. -/
theorem assertion_never_fails_busy :
    (⟨[], 1, .pushed, .popped 8⟩ : HandleState ℕ).isHandleRunning = 1 :=
  (assertion_never_fails (s := (_, false)) <| Machine.reachableUnder_of_exec
    [.handle, .handle, .spurious, .handle, .push 7, .signal, .handle, .handle, .handle, .push 8,
      .handle, .handle, .handle] .init (by decide)).1 8 rfl

/-- **An early pop fails.** `handle_thread`, awake on its own, pops a batch between its push and its
announcement, and comes to the assertion with the flag down. -/
theorem assertion_fails_of_early {s : HandleState β} {head : β}
    (hs : (handleQueueAlone β).ReachableUnder PopsAnnounced (s, true)) (hpc : s.handle = .pop head)
    (hearly : ¬ s.HeadAnnounced) :
    ∃ s', (handleQueue β).step s .handle = some (.ok s') ∧
      (handleQueue β).step s' .handle = some (.error .assertion) := by
  have hflag : s.isHandleRunning ≠ 1 := fun hup =>
    hearly (((flagInv_of_reachable hs).alone rfl (by simp [hpc])).mp hup)
  refine ⟨{ s with handleQuque := s.handleQuque.tail, handle := .popped head }, ?_, ?_⟩
  · simp [handleQueue, handleQueueStep, HandleState.handleStep, hpc]
  · simp [handleQueue, handleQueueStep, HandleState.handleStep, hflag]

/-- **A late one fails too.** The wait returns without a signal beside a batch that was announced
before `handle_thread` slept; it goes on, and comes to the assertion with the flag down. -/
theorem assertion_fails_of_late {s : HandleState β} {alone : Bool}
    (hs : (handleQueueAlone β).ReachableUnder PopsAnnounced (s, alone)) (hpc : s.handle = .blocked)
    (hlate : s.HeadAnnounced) :
    ∃ s₁ s₂ s₃ s₄, (handleQueue β).step s .spurious = some (.ok s₁) ∧
      (handleQueue β).step s₁ .handle = some (.ok s₂) ∧
      (handleQueue β).step s₂ .handle = some (.ok s₃) ∧
      (handleQueue β).step s₃ .handle = some (.ok s₄) ∧
      (handleQueue β).step s₄ .handle = some (.error .assertion) := by
  have hflag : s.isHandleRunning = 0 := (flagInv_of_reachable hs).blocked hpc
  obtain ⟨head, rest, hqueue⟩ : ∃ head rest, s.handleQuque = head :: rest :=
    List.exists_cons_of_length_pos (Nat.zero_lt_of_lt hlate)
  refine ⟨{ s with handle := .woken }, { s with handle := .peek }, { s with handle := .pop head },
    { s with handleQuque := rest, handle := .popped head }, ?_, ?_, ?_, ?_, ?_⟩ <;>
  simp [handleQueue, handleQueueStep, HandleState.handleStep, hpc, hqueue, hflag]

end SparkRdma
