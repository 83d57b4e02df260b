import SparkRdma.WorkQueue.Handover

/-! # When an allocation fails

The steps of `workQueue` are given the memory they ask for: `calloc` for a new varray, and
`NewByteArray` for the copy. `workQueueAnswered` adds the answers of the two to the labels.

* **`Given`** — the condition on a step that it is given memory; under it the two machines take the
  same steps.
* **`ends_of_refused`** — a step that asks for memory and is refused ends in a fault: the assertion
  behind `calloc`, or the use of the NULL array.
* **`reachable_of_answered`** — no state is reached that `workQueue` does not reach, and what
  holds in every state of it holds here. -/

namespace SparkRdma

open Interleaving WorkState

variable {χ : Type} {mem : χ → RdmaChunk} {s s' : WorkState χ}

/-- One step, with the answer to the allocation in it, if there is one. -/
def workQueueAnsweredStep (mem : χ → RdmaChunk) (s : WorkState χ) :
    WorkAct χ × Bool → Option (Except CFault (WorkState χ))
  | (.handler, made) => s.handlerStep mem made
  | (.worker i, made) => s.workerStep mem i made
  | (a, _) => workQueueStep mem s a

/-- The work queue of a transport, when memory may run out. -/
def workQueueAnswered (mem : χ → RdmaChunk) :
    Machine (WorkState χ) CFault (WorkAct χ × Bool) where
  init := .start
  step := workQueueAnsweredStep mem

/-- The condition on a step that it is given the memory it asks for. -/
def Given (_ : WorkState χ) (a : WorkAct χ × Bool) : Prop := a.2 = true

/-- The step allocates: `handle_thread` has found no varray, or `work_thread` has popped one. -/
def WorkState.Allocates (s : WorkState χ) : WorkAct χ → Prop
  | .handler => ∃ chunk, s.handler = .found chunk none
  | .worker i => ∃ head, s.workers[i]? = some (.popped head)
  | _ => False

/-! ### What a refusal leads to -/

/-- Without memory for a varray the assertion fails. -/
theorem pushNew_refused (s : WorkState χ) (chunk : χ) :
    s.pushNew mem chunk false = .error .assertion := rfl

/-- Without an array no varray is called back. -/
theorem deliver_refused (head : Varray χ) (callback : Callback) :
    deliver mem head false ≠ .ok callback := by
  intro h
  unfold deliver at h
  cases hdata : head.data with
  | nil => simp [hdata] at h
  | cons first data =>
    rw [hdata] at h
    cases hsum : sumChunkLen mem head.dataId 0 (first :: data) with
    | error e => simp [hsum] at h
    | ok dataLen =>
      simp only [hsum, ok_bind] at h
      split at h
      · -- the first turn of the copy loop goes to NULL
        simp [jniAllocByteArray, copyChunks, setByteArrayRegion] at h
      · cases h

/-- A step that asks for memory and is refused ends in a fault. -/
theorem ends_of_refused {a : WorkAct χ} (ha : s.Allocates a)
    {result : Except CFault (WorkState χ)}
    (hstep : (workQueueAnswered mem).step s (a, false) = some result) :
    ∃ e, result = .error e := by
  cases a with
  | handler =>
    obtain ⟨chunk, hhandler⟩ := ha
    simp only [workQueueAnswered, workQueueAnsweredStep, handlerStep, hhandler, pushNew_refused,
      Option.some.injEq] at hstep
    exact ⟨.assertion, hstep.symm⟩
  | worker i =>
    obtain ⟨head, hworker⟩ := ha
    simp only [workQueueAnswered, workQueueAnsweredStep, workerStep, hworker,
      Option.some.injEq] at hstep
    cases result with
    | error e => exact ⟨e, rfl⟩
    | ok s' =>
      unfold WorkState.deliverHead at hstep
      split at hstep
      · cases hstep
      cases hv : s.heap head with
      | none => simp [deref, hv] at hstep
      | some v =>
        simp only [deref, hv, ok_bind] at hstep
        split at hstep
        · cases hstep
        cases hdeliver : deliver mem v false with
        | error e => simp [hdeliver] at hstep
        | ok callback => exact (deliver_refused v callback hdeliver).elim
  | recv byteLen chunk | startItem => exact ha.elim

/-- A step that is given memory, or asks for none, is the step of `workQueue`. -/
theorem answered_step_eq {a : WorkAct χ} {made : Bool} (h : made = true ∨ ¬ s.Allocates a) :
    (workQueueAnswered mem).step s (a, made) = (workQueue mem).step s a := by
  obtain rfl | hnot := h
  · cases a <;> rfl
  · cases a with
    | recv byteLen chunk | startItem => rfl
    | handler =>
      show s.handlerStep mem made = s.handlerStep mem
      unfold handlerStep
      cases hhandler : s.handler with
      | found chunk now =>
        cases now with
        | none => exact (hnot ⟨chunk, hhandler⟩).elim
        | some now => rfl
      | idle | stored => rfl
    | worker i =>
      show s.workerStep mem i made = s.workerStep mem i
      unfold workerStep
      cases hworker : s.workers[i]? with
      | none => rfl
      | some pc =>
        cases pc with
        | popped head => exact (hnot ⟨head, hworker⟩).elim
        | top | delivered head => rfl

/-! ### Runs -/

/-- **A step that goes on was given what it asked for**: it is a step of `workQueue`. -/
theorem answered_step_ok {a : WorkAct χ} {made : Bool}
    (hstep : (workQueueAnswered mem).step s (a, made) = some (.ok s')) :
    (workQueue mem).step s a = some (.ok s') := by
  cases made with
  | true => rwa [answered_step_eq (.inl rfl)] at hstep
  | false =>
    by_cases ha : s.Allocates a
    · obtain ⟨e, hfault⟩ := ends_of_refused ha hstep
      cases hfault
    · rwa [answered_step_eq (.inr ha)] at hstep

/-- **Memory that runs out reaches no new state**: the runs up to a fault are runs of `workQueue`,
under every condition on the steps. -/
theorem reachable_of_answered {P : WorkState χ → WorkAct χ → Prop}
    (hs : (workQueueAnswered mem).ReachableUnder (fun s a => P s a.1) s) :
    (workQueue mem).ReachableUnder P s := by
  induction hs with
  | init => exact .init
  | next _ hP hstep ih => exact ih.next hP (answered_step_ok hstep)

/-- As long as memory is given there are no other faults than those of `workQueue`. -/
theorem answered_fault_of_given {a : WorkAct χ × Bool} (hgiven : Given s a) {e : CFault} :
    (workQueueAnswered mem).step s a = some (.error e) ↔
      (workQueue mem).step s a.1 = some (.error e) := by
  rw [← answered_step_eq (.inl hgiven)]

/-- The hand-over keeps its promises when memory may run out. -/
theorem handOver_of_answered
    (hs : (workQueueAnswered mem).ReachableUnder (fun s a => WellFormed mem s a.1) s) :
    HandOver mem s :=
  handOver_of_wellFormed mem s (reachable_of_answered hs)

end SparkRdma
