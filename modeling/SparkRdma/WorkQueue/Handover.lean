import SparkRdma.WorkQueue.Reassembly
import Mathlib.Data.List.Nodup

/-! # The hand-over from `handle_thread` to the worker pool

The machine `workQueue` interleaves the sections of `handle_recv_event` on one transport with those
of every execution of `work_thread` the pool starts for it. Two flags race here: `is_work_running`,
set by one side and lowered by the other, and the completeness of the head, which one side brings
about without the lock.

* **`WellFormed`** — what is asked of the frames: each is one of its message's `chunk_num`, and a
  message in progress is not mixed up with a new one under the same data id.
* **`WorkInv`** — the invariant, relating the flag, the pending and running work items, the two
  program points and the fill level of every queued varray.
* **`handOver_of_wellFormed`** — what the two threads rely on holds in every reachable state. -/

namespace SparkRdma

open Interleaving

/-- The steps of the threads on one transport's work queue. -/
inductive WorkAct (χ : Type)
  /-- `handle_thread` enters `handle_recv_event` with a completion of `byteLen` bytes in `chunk`. -/
  | recv (byteLen : UInt32) (chunk : χ)
  /-- `handle_thread` takes its next step inside the event. -/
  | handler
  /-- The pool starts a queued work item. -/
  | startItem
  /-- The execution of `work_thread` at index `i` takes its next step. -/
  | worker (i : ℕ)

variable {χ : Type}

/-- One step on the work queue of a transport. -/
def workQueueStep (mem : χ → RdmaChunk) (s : WorkState χ) :
    WorkAct χ → Option (Except CFault (WorkState χ))
  | .recv byteLen chunk =>
      match s.handler with
      | .idle => some (s.lookupSection mem byteLen chunk)
      | _ => none
  | .handler => s.handlerStep mem
  | .startItem => if 0 < s.poolItems then some (.ok s.startItem) else none
  | .worker i => s.workerStep mem i

/-- `handle_thread` and the work items of one transport, section by section. -/
def workQueue (mem : χ → RdmaChunk) : Machine (WorkState χ) CFault (WorkAct χ) where
  init := .start
  step := workQueueStep mem

namespace WorkerPc

/-- The varray an execution holds between its pop and its `free`. -/
def held? : WorkerPc → Option ℕ
  | top => none
  | popped head => some head
  | delivered head => some head

/-- The varray an execution has popped and not yet called back. -/
def popped? : WorkerPc → Option ℕ
  | popped head => some head
  | _ => none

end WorkerPc

namespace WorkState

/-- The varrays popped and not yet freed. -/
def held (s : WorkState χ) : List ℕ := s.workers.filterMap WorkerPc.held?

/-- The varrays popped and not yet called back. -/
def inHand (s : WorkState χ) : List ℕ := s.workers.filterMap WorkerPc.popped?

/-- The number of frames received of the message in progress under a data id, that is of the one
whose varray is on the queue; `0` if there is none. -/
def received (s : WorkState χ) (dataId : UInt32) : ℕ :=
  match (s.findCustom dataId).bind s.heap with
  | some v => v.data.length
  | none => 0

/-- The frames are well formed: the posted length is that of the header and the chunk, a chunk is
one of its message's `chunk_num`, all chunks of a message agree on `chunk_num`, and no more than
`chunk_num` of them come. So a frame whose data id is that of a message in progress belongs to it,
and is not one of a new message of the same data id. -/
def WellFormed (mem : χ → RdmaChunk) (s : WorkState χ) : WorkAct χ → Prop
  | .recv byteLen chunk =>
      byteLen = (mem chunk).header.chunkLen + rdmaHeaderSize ∧
      (mem chunk).header.chunkId < (mem chunk).header.chunkNum ∧
      s.received (mem chunk).header.dataId < (mem chunk).header.chunkNum.toNat ∧
      ∀ v ∈ (s.findCustom (mem chunk).header.dataId).bind s.heap,
        v.size = (mem chunk).header.chunkNum
  | _ => True

/-- What is recorded as delivered was called back: one callback for each varray, the last one with
what `work_thread` makes of the varray it is about to free. -/
structure CalledBack (mem : χ → RdmaChunk) (s : WorkState χ) : Prop where
  /-- There are as many of one as of the other. -/
  length_eq : s.delivered.length = s.callbacks.length
  /-- Until the varray is freed the two can be compared. -/
  last : ∀ head, .delivered head ∈ s.workers → ∃ v callback, s.heap head = some v ∧
    deliver mem v = .ok callback ∧ s.delivered.getLast? = some head ∧
      s.callbacks.getLast? = some callback

/-- What the hand-over promises. -/
structure HandOver (mem : χ → RdmaChunk) (s : WorkState χ) : Prop where
  /-- The flag is up exactly while one work item is queued in the pool or executing. -/
  running_iff : s.isWorkRunning = 1 ↔ s.poolItems + s.workers.length = 1
  /-- There are never two. -/
  at_most_one : s.poolItems + s.workers.length ≤ 1
  /-- The assertion after a pop holds. -/
  popped_running : ∀ head, .popped head ∈ s.workers → s.isWorkRunning = 1
  /-- Varrays are called back one at a time, in queue order. -/
  in_order : s.pushed = s.delivered ++ s.inHand ++ s.workQueue ∧ s.inHand.length ≤ 1
  /-- What counts as delivered there is what was called back. -/
  called_back : s.CalledBack mem
  /-- Between two events, with the flag down, the queue is empty or its head incomplete. -/
  idle_head : s.handler = .idle → s.isWorkRunning = 0 → ¬ s.HeadComplete
  /-- The varray found under the lock is still queued, and live, when it is used without. -/
  found_live : ∀ chunk now, s.handler = .found chunk (some now) →
    now ∈ s.workQueue ∧ ∃ v, s.heap now = some v

end WorkState

open WorkState

/-- The invariant of the hand-over. -/
structure WorkInv (mem : χ → RdmaChunk) (s : WorkState χ) : Prop where
  /-- The flag counts the work items. -/
  flag : s.isWorkRunning = s.poolItems + s.workers.length
  /-- There is at most one. -/
  one : s.poolItems + s.workers.length ≤ 1
  /-- No varray is both queued and held, nor either twice. -/
  distinct : (s.held ++ s.workQueue).Nodup
  /-- The varrays queued and held were all allocated. -/
  allocated : ∀ now ∈ s.held ++ s.workQueue, now < s.nextAddr
  /-- The queued varrays are live. -/
  queued_live : ∀ now ∈ s.workQueue, ∃ v, s.heap now = some v
  /-- The held varrays are live and complete. -/
  held_live : ∀ now ∈ s.held, ∃ v, s.heap now = some v ∧ v.Complete
  /-- The queue hands on what it was given, in order. -/
  order : s.pushed = s.delivered ++ s.inHand ++ s.workQueue
  /-- A varray found is queued, has room, and is the one of the chunk's message. -/
  found : ∀ chunk now, s.handler = .found chunk (some now) → now ∈ s.workQueue ∧
    ∃ v, s.heap now = some v ∧ v.data.length < v.size.toNat ∧ v.dataId = (mem chunk).header.dataId
  /-- Until the chunk is stored, no head becomes complete with the flag down. -/
  head_incomplete : s.handler ≠ .stored → s.isWorkRunning = 0 → ¬ s.HeadComplete

namespace WorkInv

variable {mem : χ → RdmaChunk} {s s' : WorkState χ}

/-- An execution at some index is the only one, nothing is queued in the pool, and the flag is
up. -/
theorem single (h : WorkInv mem s) {i : ℕ} {pc : WorkerPc} (hi : s.workers[i]? = some pc) :
    i = 0 ∧ s.workers = [pc] ∧ s.poolItems = 0 ∧ s.isWorkRunning = 1 := by
  have hflag := h.flag
  have hone := h.one
  cases hw : s.workers with
  | nil => simp [hw] at hi
  | cons pc' rest =>
    rw [hw, List.length_cons] at hone hflag
    -- a second execution would be one item too many
    obtain rfl : rest = [] := List.eq_nil_of_length_eq_zero (by omega)
    rw [hw] at hi
    have hi0 : i = 0 := by
      have := (List.getElem?_eq_some_iff.mp hi).1
      simpa using this
    subst hi0
    simp only [List.getElem?_cons_zero, Option.some.injEq] at hi
    exact ⟨rfl, by rw [hi], by omega, by omega⟩

/-- The empty state. -/
theorem start : WorkInv mem (.start : WorkState χ) := by
  constructor <;> simp [WorkState.start, held, inHand, HeadComplete]

/-- The lookup of a well-formed frame finds a varray with room for it, if any. -/
theorem lookup (h : WorkInv mem s) {byteLen : UInt32} {chunk : χ} (hidle : s.handler = .idle)
    (hw : WellFormed mem s (.recv byteLen chunk))
    (hstep : s.lookupSection mem byteLen chunk = .ok s') : WorkInv mem s' := by
  obtain ⟨-, rfl⟩ := lookupSection_ok hstep
  obtain ⟨-, -, hroom, hsize⟩ := hw
  refine { h with found := ?_, head_incomplete := fun _ => h.head_incomplete (by simp [hidle]) }
  intro chunk' now hfound
  obtain ⟨rfl, hnow⟩ : chunk = chunk' ∧ s.findCustom (mem chunk).header.dataId = some now := by
    simpa using hfound
  have hmem := List.mem_of_find?_eq_some hnow
  obtain ⟨v, hv⟩ := h.queued_live now hmem
  have hsame := List.find?_some hnow
  simp only [received, hnow, Option.bind_some, hv] at hroom
  have hvsize := hsize v (by rw [hnow, Option.bind_some, hv]; rfl)
  simp only [hasDataId, hv, beq_iff_eq] at hsame
  -- the varray was made for the frame's `chunk_num`, so a frame still missing has an entry
  exact ⟨hmem, v, hv, hvsize ▸ hroom, hsame⟩

/-- Pushing a new varray. -/
theorem pushNew (h : WorkInv mem s) {chunk : χ} (hstep : s.pushNew mem chunk = .ok s') :
    WorkInv mem s' := by
  obtain ⟨-, rfl⟩ := pushNew_ok hstep
  -- the new varray overwrites none in use
  have hfresh : ∀ now ∈ s.held ++ s.workQueue, now ≠ s.nextAddr := fun now hnow =>
    (h.allocated now hnow).ne
  refine { flag := h.flag, one := h.one, distinct := ?_, allocated := ?_, queued_live := ?_,
           held_live := ?_, order := ?_, found := by simp, head_incomplete := by simp }
  · rw [← List.append_assoc]
    exact h.distinct.append (List.nodup_singleton _)
      (List.disjoint_singleton.mpr fun hmem => hfresh _ hmem rfl)
  · intro now hnow
    rw [← List.append_assoc, List.mem_append, List.mem_singleton] at hnow
    obtain hnow | rfl := hnow
    · exact Nat.lt_succ_of_lt (h.allocated now hnow)
    · exact Nat.lt_succ_self _
  · intro now hnow
    obtain hnow | hnow := List.mem_append.mp hnow
    · simpa [Function.update_of_ne (hfresh now (List.mem_append_right _ hnow))]
        using h.queued_live now hnow
    · obtain rfl := List.mem_singleton.mp hnow
      exact ⟨_, Function.update_self ..⟩
  · intro now hnow
    simpa [Function.update_of_ne (hfresh now (List.mem_append_left _ hnow))]
      using h.held_live now hnow
  · have := h.order
    simp_all [inHand]

/-- Appending to the varray found. -/
theorem appendFound (h : WorkInv mem s) {chunk : χ} {now : ℕ}
    (hstep : s.appendFound mem chunk now = .ok s') : WorkInv mem s' := by
  obtain ⟨hmem, v, hv, -, -, rfl⟩ := appendFound_ok hstep
  refine { h with queued_live := ?_, held_live := ?_, found := by simp, head_incomplete := by simp }
  · intro now' hnow'
    by_cases heq : now' = now
    · subst heq
      exact ⟨_, Function.update_self ..⟩
    · simpa [Function.update_of_ne heq] using h.queued_live now' hnow'
  · -- what was popped is no longer queued, so the store does not reach it
    intro now' hnow'
    have hne : now' ≠ now := fun heq => List.disjoint_of_nodup_append h.distinct hnow' (heq ▸ hmem)
    simpa [Function.update_of_ne hne] using h.held_live now' hnow'

/-- The last section of an event: whoever finds the flag down with a complete head raises it. -/
theorem wakeSection (h : WorkInv mem s) (hstep : s.wakeSection = .ok s') : WorkInv mem s' := by
  obtain ⟨hdown, -, rfl⟩ | ⟨hnot, rfl⟩ := wakeSection_ok hstep
  · have hflag := h.flag
    exact { h with flag := by simp only; omega, one := by simp only; omega, found := by simp,
                   head_incomplete := by simp }
  · -- the flag was up, or the head was seen incomplete under the same lock
    exact { h with found := by simp, head_incomplete := fun _ hdown hhead => hnot ⟨hdown, hhead⟩ }

/-- The pool turns a queued item into an execution. -/
theorem startItem (h : WorkInv mem s) (hpos : 0 < s.poolItems) : WorkInv mem s.startItem := by
  have hflag := h.flag
  have hone := h.one
  have hheld : s.startItem.held = s.held := by simp [held, WorkState.startItem, WorkerPc.held?]
  have hhand : s.startItem.inHand = s.inHand := by
    simp [inHand, WorkState.startItem, WorkerPc.popped?]
  refine { flag := ?_, one := ?_, distinct := hheld ▸ h.distinct, allocated := hheld ▸ h.allocated,
           queued_live := h.queued_live, held_live := hheld ▸ h.held_live,
           order := by rw [hhand]; exact h.order, found := h.found,
           head_incomplete := h.head_incomplete }
  · simp only [WorkState.startItem, List.length_append, List.length_singleton]
    omega
  · simp only [WorkState.startItem, List.length_append, List.length_singleton]
    omega

/-- The head section: it pops a complete head, which is not the varray `handle_thread` found, or it
leaves with the flag down and the head incomplete. -/
theorem headSection (h : WorkInv mem s) {i : ℕ} (hi : s.workers[i]? = some .top)
    (hstep : s.headSection i = .ok s') : WorkInv mem s' := by
  obtain ⟨rfl, hworkers, hpool, hup⟩ := h.single hi
  have hdistinct := h.distinct
  have horder := h.order
  obtain ⟨head, rest, v, hq, hv, hcomplete, rfl⟩ | ⟨hhead, rfl⟩ := headSection_ok hstep
  · have hlive := h.queued_live
    have hallocated := h.allocated
    simp only [hq, held, inHand, hworkers, List.filterMap_cons, WorkerPc.held?, WorkerPc.popped?,
      List.filterMap_nil, List.nil_append, List.append_nil] at hdistinct horder hlive hallocated
    refine { flag := ?_, one := ?_, distinct := ?_, allocated := ?_, queued_live := ?_,
             held_live := ?_, order := ?_, found := ?_, head_incomplete := by simp [hup] }
    · simpa [hworkers] using h.flag
    · simpa [hworkers] using h.one
    · simpa [held, hworkers, WorkerPc.held?] using hdistinct
    · simpa [held, hworkers, WorkerPc.held?] using hallocated
    · exact fun now hnow => hlive now (List.mem_cons_of_mem _ hnow)
    · simpa [held, hworkers, WorkerPc.held?] using ⟨v, hv, hcomplete⟩
    · simpa [inHand, hworkers, WorkerPc.popped?] using horder
    · -- a complete varray has no room, so the one popped is not the one found
      intro chunk now hfound
      obtain ⟨hmem, w, hw, hroom, hid⟩ := h.found chunk now hfound
      rw [hq, List.mem_cons] at hmem
      refine ⟨hmem.resolve_left ?_, w, hw, hroom, hid⟩
      rintro rfl
      obtain rfl : v = w := by simpa [hv] using hw
      exact hroom.ne hcomplete
  · -- the only item leaves: nothing is pending or held, and the flag is down
    refine { flag := ?_, one := ?_, distinct := ?_, allocated := ?_, queued_live := h.queued_live,
             held_live := ?_, order := ?_, found := h.found,
             head_incomplete := fun _ _ => hhead } <;>
      simp only [held, inHand, hworkers, hpool, List.eraseIdx_cons_zero, List.filterMap_nil,
        List.filterMap_cons, WorkerPc.held?, WorkerPc.popped?, List.nil_append,
        List.append_nil, List.length_nil] at hdistinct horder ⊢
    · omega
    · exact hdistinct
    · exact fun now hnow => h.allocated now (List.mem_append_right _ hnow)
    · simp
    · exact horder

/-- From the pop to the callback. -/
theorem deliverHead (h : WorkInv mem s) {i head : ℕ} (hi : s.workers[i]? = some (.popped head))
    (hstep : s.deliverHead mem i head = .ok s') : WorkInv mem s' := by
  obtain ⟨rfl, hworkers, hpool, hup⟩ := h.single hi
  obtain ⟨-, v, callback, -, -, -, rfl⟩ := deliverHead_ok hstep
  have hheld : s.held = [head] := by simp [held, hworkers, WorkerPc.held?]
  have horder := h.order
  simp only [inHand, hworkers, List.filterMap_cons, WorkerPc.popped?, List.filterMap_nil] at horder
  have hheld' : ({ s with
      callbacks := s.callbacks ++ [callback]
      delivered := s.delivered ++ [head]
      workers := s.workers.set 0 (.delivered head) } : WorkState χ).held = s.held := by
    simp [held, hworkers, WorkerPc.held?]
  refine { flag := ?_, one := ?_, distinct := hheld' ▸ h.distinct,
           allocated := hheld' ▸ h.allocated, queued_live := h.queued_live,
           held_live := hheld' ▸ h.held_live, order := ?_, found := h.found,
           head_incomplete := h.head_incomplete }
  · simpa [hworkers] using h.flag
  · simpa [hworkers] using h.one
  · simpa [inHand, hworkers, WorkerPc.popped?, List.filterMap_cons] using horder

/-- Freeing the varray called back. -/
theorem freeHead (h : WorkInv mem s) {i head : ℕ} (hi : s.workers[i]? = some (.delivered head)) :
    WorkInv mem (s.freeHead i head) := by
  obtain ⟨rfl, hworkers, hpool, hup⟩ := h.single hi
  have hdistinct := h.distinct
  have horder := h.order
  simp only [held, inHand, hworkers, List.filterMap_cons, WorkerPc.held?, WorkerPc.popped?,
    List.filterMap_nil, List.singleton_append, List.nodup_cons, List.append_nil] at hdistinct horder
  refine { flag := ?_, one := ?_, distinct := ?_, allocated := ?_, queued_live := ?_,
           held_live := ?_, order := ?_, found := ?_, head_incomplete := ?_ } <;>
    simp only [WorkState.freeHead, held, inHand, hworkers, List.set_cons_zero, List.filterMap_cons,
      WorkerPc.held?, WorkerPc.popped?, List.filterMap_nil, List.nil_append, List.append_nil]
  · simpa [hworkers] using h.flag
  · simpa [hworkers] using h.one
  · exact hdistinct.2
  · exact fun now hnow => h.allocated now (List.mem_append_right _ hnow)
  · intro now hnow
    have hne : now ≠ head := fun heq => hdistinct.1 (heq ▸ hnow)
    simpa [Function.update_of_ne hne] using h.queued_live now hnow
  · simp
  · exact horder
  · -- the varray found is on the queue, and the one freed is not
    intro chunk now hfound
    obtain ⟨hmem, v, hv, hrest⟩ := h.found chunk now hfound
    have hne : now ≠ head := fun heq => hdistinct.1 (heq ▸ hmem)
    exact ⟨hmem, v, by rwa [Function.update_of_ne hne], hrest⟩
  · simp [hup]

end WorkInv

/-- **One step preserves the invariant**, when the frame it takes in, if any, is well formed. -/
theorem workInv_step {mem : χ → RdmaChunk} {s s' : WorkState χ} {a : WorkAct χ}
    (h : WorkInv mem s) (hw : WellFormed mem s a)
    (hstep : (workQueue mem).step s a = some (.ok s')) : WorkInv mem s' := by
  cases a with
  | recv byteLen chunk =>
    simp only [workQueue, workQueueStep] at hstep
    split at hstep
    · exact h.lookup ‹_› hw (by simpa using hstep)
    · cases hstep
  | handler =>
    simp only [workQueue, workQueueStep, handlerStep] at hstep
    split at hstep
    · cases hstep
    · exact h.pushNew (by simpa using hstep)
    · exact h.appendFound (by simpa using hstep)
    · exact h.wakeSection (by simpa using hstep)
  | startItem =>
    simp only [workQueue, workQueueStep] at hstep
    split at hstep <;> cases hstep
    exact h.startItem ‹_›
  | worker i =>
    simp only [workQueue, workQueueStep, workerStep] at hstep
    split at hstep
    · cases hstep
    · exact h.headSection ‹_› (by simpa using hstep)
    · exact h.deliverHead ‹_› (by simpa using hstep)
    · cases hstep
      exact h.freeHead ‹_›

/-- Every state reached on well-formed frames satisfies the invariant. -/
theorem workInv_of_wellFormed {mem : χ → RdmaChunk} {s : WorkState χ}
    (hs : (workQueue mem).ReachableUnder (WellFormed mem) s) : WorkInv mem s :=
  hs.invariant .start fun _ _ _ _ h hw hstep => workInv_step h hw hstep

/-! ### The callbacks -/

namespace WorkState.CalledBack

variable {mem : χ → RdmaChunk} {s s' : WorkState χ}

/-- What is called back depends on the delivered varrays, the callbacks and what is about to be
freed. -/
theorem congr (h : s.CalledBack mem) (hdelivered : s'.delivered = s.delivered)
    (hcallbacks : s'.callbacks = s.callbacks)
    (hworkers : ∀ head, .delivered head ∈ s'.workers → .delivered head ∈ s.workers)
    (hheap : ∀ head, .delivered head ∈ s'.workers → s'.heap head = s.heap head) :
    s'.CalledBack mem := by
  refine ⟨by rw [hdelivered, hcallbacks, h.length_eq], fun head hhead => ?_⟩
  rw [hheap head hhead, hdelivered, hcallbacks]
  exact h.last head (hworkers head hhead)

/-- A varray about to be freed is held. -/
theorem mem_held {head : ℕ} (hhead : .delivered head ∈ s.workers) : head ∈ s.held :=
  List.mem_filterMap.mpr ⟨_, hhead, rfl⟩

/-- The steps of `handle_thread` do not reach a varray that was popped. -/
theorem handlerStep (h : s.CalledBack mem) (hwork : WorkInv mem s)
    (hstep : s.handlerStep mem = some (.ok s')) : s'.CalledBack mem := by
  unfold WorkState.handlerStep at hstep
  split at hstep
  · cases hstep
  · obtain ⟨-, rfl⟩ := pushNew_ok (Option.some.inj hstep)
    refine h.congr rfl rfl (fun _ hhead => hhead) fun head hhead => Function.update_of_ne ?_ _ _
    exact (hwork.allocated head (List.mem_append_left _ (mem_held hhead))).ne
  · obtain ⟨hmem, v, -, -, -, rfl⟩ := appendFound_ok (Option.some.inj hstep)
    refine h.congr rfl rfl (fun _ hhead => hhead) fun head hhead => Function.update_of_ne ?_ _ _
    rintro rfl
    exact List.disjoint_of_nodup_append hwork.distinct (mem_held hhead) hmem
  · obtain ⟨-, -, rfl⟩ | ⟨-, rfl⟩ := wakeSection_ok (Option.some.inj hstep) <;>
    exact h.congr rfl rfl (fun _ hhead => hhead) fun _ _ => rfl

/-- The callback is recorded with its varray, and the varray freed only behind it. -/
theorem workerStep (h : s.CalledBack mem) (hwork : WorkInv mem s) {i : ℕ}
    (hstep : s.workerStep mem i = some (.ok s')) : s'.CalledBack mem := by
  unfold WorkState.workerStep at hstep
  split at hstep
  · cases hstep
  all_goals obtain ⟨rfl, hworkers, -, -⟩ := hwork.single ‹_›
  · obtain ⟨head, rest, v, -, -, -, rfl⟩ | ⟨-, rfl⟩ := headSection_ok (Option.some.inj hstep) <;>
    exact h.congr rfl rfl (by simp [hworkers]) fun _ _ => rfl
  · obtain ⟨-, v, callback, hv, -, hdeliver, rfl⟩ := deliverHead_ok (Option.some.inj hstep)
    refine ⟨by simp [h.length_eq], fun head' hhead' => ?_⟩
    obtain rfl : head' = _ := by simpa [hworkers] using hhead'
    exact ⟨v, callback, hv, hdeliver, by simp, by simp⟩
  · cases hstep
    exact h.congr rfl rfl (by simp [WorkState.freeHead, hworkers])
      (by simp [WorkState.freeHead, hworkers])

/-- **One step** preserves it. -/
theorem step (h : s.CalledBack mem) (hwork : WorkInv mem s) {a : WorkAct χ}
    (hstep : (SparkRdma.workQueue mem).step s a = some (.ok s')) : s'.CalledBack mem := by
  cases a with
  | recv byteLen chunk =>
    simp only [SparkRdma.workQueue, workQueueStep] at hstep
    split at hstep
    · obtain ⟨-, rfl⟩ := lookupSection_ok (Option.some.inj hstep)
      exact h.congr rfl rfl (fun _ hhead => hhead) fun _ _ => rfl
    · cases hstep
  | handler => exact h.handlerStep hwork hstep
  | startItem =>
    simp only [SparkRdma.workQueue, workQueueStep] at hstep
    split at hstep <;> cases hstep
    exact h.congr rfl rfl (by simp [WorkState.startItem]) fun _ _ => rfl
  | worker i => exact h.workerStep hwork hstep

end WorkState.CalledBack

/-- In every state reached on well-formed frames, what is recorded as delivered was called back. -/
theorem calledBack_of_wellFormed {mem : χ → RdmaChunk} {s : WorkState χ}
    (hs : (workQueue mem).ReachableUnder (WellFormed mem) s) : s.CalledBack mem := by
  refine hs.invariant ⟨rfl, ?_⟩ fun _ _ _ hs h _ hstep => h.step (workInv_of_wellFormed hs) hstep
  intro head hhead
  cases hhead

/-- **The hand-over is correct.** For every interleaving of `handle_recv_event` on well-formed
frames with the work items of the transport: one item at most is pending or running, and the flag
says so; the varrays are called back in queue order, each once; no complete head is left behind with
the flag down; and the varray found under the lock survives until it is used. -/
theorem handOver_of_wellFormed (mem : χ → RdmaChunk) (s : WorkState χ)
    (hs : (workQueue mem).ReachableUnder (WellFormed mem) s) : HandOver mem s := by
  have h := workInv_of_wellFormed hs
  have hflag := h.flag
  have hone := h.one
  refine ⟨by omega, hone, ?_, ⟨h.order, ?_⟩, calledBack_of_wellFormed hs,
    fun hidle => h.head_incomplete (by simp [hidle]), ?_⟩
  · intro head hmem
    have := List.length_pos_of_mem hmem
    omega
  · exact (List.length_filterMap_le ..).trans (by omega)
  · intro chunk now hfound
    obtain ⟨hmem, v, hv, -⟩ := h.found chunk now hfound
    exact ⟨hmem, v, hv⟩

/-- A message of two chunks: the varray of the first is found for the second, and is then complete,
popped, called back and freed. -/
theorem handOver_of_wellFormed_twoChunks :
    let mem : Fin 2 → RdmaChunk := fun i =>
      { RdmaChunk.blank with header := ⟨0, .ofNat i, 1, 2, 7, 2⟩ }
    (∃ s, s.handler = .found 1 (some 0) ∧ HandOver mem s) ∧
      ∃ s : WorkState (Fin 2), s.delivered = [0] ∧ s.callbacks = [⟨some [0, 0], 2⟩] ∧
        s.heap 0 = none ∧ HandOver mem s := by
  intro mem
  obtain ⟨⟨s, hs, hfound⟩, t, ht, hup, hworkers, hheap, hdelivered, hcallbacks⟩ :
      (∃ s, (workQueue mem).ReachableUnder (WellFormed mem) s ∧
        s.handler = .found 1 (some 0)) ∧
      ∃ t, (workQueue mem).ReachableUnder (WellFormed mem) t ∧ t.isWorkRunning = 1 ∧
        t.workers = [.popped 0] ∧ t.heap 0 = some ⟨7, 2, [0, 1]⟩ ∧ t.delivered = [] ∧
        t.callbacks = [] := by
    have h := Machine.ReachableUnder.init (M := workQueue mem) (P := WellFormed mem)
    have h := h.next (a := WorkAct.recv 22 0) ⟨rfl, by decide, by decide, nofun⟩ rfl
    have h := h.next (a := WorkAct.handler) trivial rfl
    have h := h.next (a := WorkAct.handler) trivial rfl
    have h := h.next (a := WorkAct.recv 22 1) ⟨rfl, by decide, by decide, by
      rintro v ⟨⟩; rfl⟩ rfl
    refine ⟨⟨_, h, rfl⟩, ?_⟩
    have h := h.next (a := WorkAct.handler) trivial rfl
    have h := h.next (a := WorkAct.handler) trivial rfl
    have h := h.next (a := WorkAct.startItem) trivial rfl
    have h := h.next (a := WorkAct.worker 0) trivial rfl
    exact ⟨_, h, rfl, rfl, rfl, rfl, rfl⟩
  refine ⟨⟨s, hfound, handOver_of_wellFormed mem s hs⟩, ?_⟩
  have hdeliver : deliver mem ⟨7, 2, [0, 1]⟩ = .ok ⟨some [0, 0], 2⟩ := by
    have hlen : RdmaChunk.blank.body.bytes.length = 65515 := RdmaChunk.blank.body.length_bytes
    have hfirst : RdmaChunk.blank.body.bytes.take 1 = [0] := rfl
    simp [deliver, sumChunkLen, copyChunks, setByteArrayRegion, jniAllocByteArray, mem, hlen,
      hfirst]
  obtain ⟨t₁, hstep⟩ : ∃ t₁, t.deliverHead mem 0 0 = .ok t₁ :=
    deliverHead_of_complete 0 hup hheap rfl hdeliver
  obtain ⟨-, v, callback, hv, -, hcallback, rfl⟩ := deliverHead_ok hstep
  obtain rfl := Option.some.inj (hheap.symm.trans hv)
  obtain rfl := Except.ok.inj (hdeliver.symm.trans hcallback)
  have ht := ht.next (a := WorkAct.worker 0) trivial (by
    simp only [workQueue, workQueueStep, workerStep, hworkers, List.getElem?_cons_zero]
    exact congrArg some hstep)
  have ht := ht.next (a := WorkAct.worker 0) trivial (by
    simp only [workQueue, workQueueStep, workerStep, hworkers]
    rfl)
  exact ⟨_, by simp [freeHead, hdelivered], by simp [freeHead, hcallbacks], by simp [freeHead],
    handOver_of_wellFormed mem _ ht⟩

end SparkRdma
