import Mathlib.Data.List.Find
import SparkRdma.WorkQueue.Chunks

/-! # Reading the varrays through their pointers

A varray holds pointers, and what `handle_thread` and `work_thread` see of a frame is what its chunk
holds at that moment. The receiving half of a transport whose chunks lie in a memory is compared
here with one that holds the chunks themselves.

Of a varray that was called back the chunks are released one by one while it is still live, and may
hold anything; nothing reads them any more.

* **`Reads`** — what the one holds in memory is what the other holds.
* **`Reads.step`** — each step of the one is a step of the other.
* **`Reads.congr_mem`** — it rests on the chunks that `handle_thread` has in hand, those in queued
  varrays and those in varrays popped and not called back. -/

namespace SparkRdma

open Interleaving

variable {χ : Type}

/-- A program point of `handle_thread`, with the chunk instead of the pointer. -/
def HandlerPc.read (mem : χ → RdmaChunk) : HandlerPc χ → HandlerPc RdmaChunk
  | idle => .idle
  | found chunk now => .found (mem chunk) now
  | stored => .stored

/-- A varray of the chunks its pointers point at. -/
def Varray.read (mem : χ → RdmaChunk) (v : Varray χ) : Varray RdmaChunk :=
  ⟨v.dataId, v.size, v.data.map mem⟩

/-- A step on chunks instead of pointers. -/
def WorkAct.read (mem : χ → RdmaChunk) : WorkAct χ → WorkAct RdmaChunk
  | recv byteLen chunk => .recv byteLen (mem chunk)
  | handler => .handler
  | startItem => .startItem
  | worker i => .worker i

theorem Varray.complete_read {mem : χ → RdmaChunk} {v : Varray χ} :
    (v.read mem).Complete ↔ v.Complete := by
  rw [Varray.Complete, Varray.read, List.length_map, Varray.Complete]

/-! ### `work_thread` on a popped varray -/

section Deliver

variable (mem : χ → RdmaChunk)

/-- The first loop reads headers through the pointers. -/
theorem sumChunkLen_read (dataId : UInt32) (data : List χ) : ∀ dataLen,
    sumChunkLen id dataId dataLen (data.map mem) = sumChunkLen mem dataId dataLen data := by
  induction data with
  | nil => exact fun _ => rfl
  | cons chunk data ih =>
    intro dataLen
    simp only [List.map_cons, sumChunkLen, id_eq, ih]

/-- The second loop reads bodies through the pointers. -/
theorem copyChunks_read (data : List χ) : ∀ jba pos,
    copyChunks id jba pos (data.map mem) = copyChunks mem jba pos data := by
  induction data with
  | nil => exact fun _ _ => rfl
  | cons chunk data ih =>
    intro jba pos
    simp only [List.map_cons, copyChunks, id_eq, ih]

/-- The callback is made of what the pointers point at. -/
theorem deliver_read (v : Varray χ) : deliver id (v.read mem) = deliver mem v := by
  obtain ⟨dataId, size, data⟩ := v
  cases data with
  | nil => rfl
  | cons first data =>
    have hsum := sumChunkLen_read mem dataId (first :: data) 0
    have hcopy := copyChunks_read mem (first :: data)
    rw [List.map_cons] at hsum hcopy
    simp only [deliver, Varray.read, List.map_cons, hsum, hcopy, id_eq]

end Deliver

namespace WorkState

/-- The receiving half with pointers into `mem` holds what `n` holds. Of the varrays these are the
ones still to be read: those on the queue, and those popped and not yet called back. -/
structure Reads (mem : χ → RdmaChunk) (s : WorkState χ) (n : WorkState RdmaChunk) : Prop where
  /-- The queue. -/
  workQueue : n.workQueue = s.workQueue
  /-- The addresses in use. -/
  nextAddr : n.nextAddr = s.nextAddr
  /-- The flag. -/
  isWorkRunning : n.isWorkRunning = s.isWorkRunning
  /-- What `handle_thread` has in hand. -/
  handler : n.handler = s.handler.read mem
  /-- The work items. -/
  poolItems : n.poolItems = s.poolItems
  /-- The executions of `work_thread`. -/
  workers : n.workers = s.workers
  /-- The addresses pushed. -/
  pushed : n.pushed = s.pushed
  /-- The addresses called back. -/
  delivered : n.delivered = s.delivered
  /-- The callbacks. -/
  callbacks : n.callbacks = s.callbacks
  /-- The varrays. -/
  heap : ∀ now ∈ s.inHand ++ s.workQueue, n.heap now = (s.heap now).map (Varray.read mem)

namespace Reads

variable {mem mem' : χ → RdmaChunk} {s s' : WorkState χ} {n : WorkState RdmaChunk}

/-- Before anything is received. -/
theorem start : Reads mem (.start : WorkState χ) .start := by
  constructor <;> simp [WorkState.start, HandlerPc.read, inHand]

/-- A varray on the queue. -/
theorem heap_queued (h : Reads mem s n) {now : ℕ} (hnow : now ∈ s.workQueue) :
    n.heap now = (s.heap now).map (Varray.read mem) :=
  h.heap now (List.mem_append_right _ hnow)

/-- The lookup by data id finds the same varray. -/
theorem findCustom (h : Reads mem s n) (dataId : UInt32) :
    n.findCustom dataId = s.findCustom dataId := by
  rw [WorkState.findCustom, WorkState.findCustom, h.workQueue]
  refine List.find?_congr fun now hnow => ?_
  rw [hasDataId, hasDataId, h.heap_queued hnow]
  cases s.heap now <;> rfl

/-- The test of the head gives the same. -/
theorem headComplete_eq (h : Reads mem s n) : n.headComplete = s.headComplete := by
  rw [WorkState.headComplete, WorkState.headComplete, h.workQueue]
  cases hq : s.workQueue with
  | nil => rfl
  | cons head rest =>
    simp only [deref, h.heap_queued (show head ∈ s.workQueue by simp [hq])]
    cases s.heap head with
    | none => rfl
    | some v => simp [Varray.complete_read]

/-! ### The sections -/

/-- The lookup. -/
theorem lookupSection (h : Reads mem s n) {byteLen : UInt32} {chunk : χ}
    (hstep : s.lookupSection mem byteLen chunk = .ok s') :
    ∃ n', n.lookupSection id byteLen (mem chunk) = .ok n' ∧ Reads mem s' n' := by
  obtain ⟨hlen, rfl⟩ := lookupSection_ok hstep
  obtain ⟨n', hn'⟩ : ∃ n', n.lookupSection id byteLen (mem chunk) = .ok n' :=
    lookupSection_of_byteLen n hlen.symm
  obtain ⟨-, rfl⟩ := lookupSection_ok hn'
  refine ⟨_, hn', { h with handler := ?_ }⟩
  rw [h.findCustom]
  rfl

/-- A new varray is pushed. -/
theorem pushNew (h : Reads mem s n) {chunk : χ} (hstep : s.pushNew mem chunk = .ok s') :
    ∃ n', n.pushNew id (mem chunk) = .ok n' ∧ Reads mem s' n' := by
  obtain ⟨hpos, rfl⟩ := pushNew_ok hstep
  obtain ⟨n', hn'⟩ : ∃ n', n.pushNew id (mem chunk) = .ok n' := pushNew_of_pos n hpos
  obtain ⟨-, rfl⟩ := pushNew_ok hn'
  refine ⟨_, hn', { h with
    workQueue := by rw [h.workQueue, h.nextAddr]
    nextAddr := by rw [h.nextAddr]
    handler := rfl
    pushed := by rw [h.pushed, h.nextAddr]
    heap := fun now hnow => ?_ }⟩
  dsimp only
  rw [h.nextAddr]
  by_cases hnew : now = s.nextAddr
  · subst hnew
    rw [Function.update_self, Function.update_self]
    rfl
  · rw [Function.update_of_ne hnew, Function.update_of_ne hnew]
    apply h.heap
    have hnow : now ∈ s.inHand ++ (s.workQueue ++ [s.nextAddr]) := hnow
    simpa [hnew] using hnow

/-- A varray takes the chunk. -/
theorem appendFound (h : Reads mem s n) {chunk : χ} {now : ℕ}
    (hstep : s.appendFound mem chunk now = .ok s') :
    ∃ n', n.appendFound id (mem chunk) now = .ok n' ∧ Reads mem s' n' := by
  obtain ⟨hmem, v, hv, hroom, hid, rfl⟩ := appendFound_ok hstep
  have hread : n.heap now = some (v.read mem) := by
    rw [h.heap_queued hmem, hv]
    rfl
  have hroom' : (v.read mem).data.length < (v.read mem).size.toNat := by
    rwa [Varray.read, List.length_map]
  obtain ⟨n', hn'⟩ : ∃ n', n.appendFound id (mem chunk) now = .ok n' :=
    appendFound_of_room (h.workQueue ▸ hmem) hread hroom' hid
  obtain ⟨-, v', hv', -, -, rfl⟩ := appendFound_ok hn'
  obtain rfl : v.read mem = v' := Option.some.inj (hread.symm.trans hv')
  refine ⟨_, hn', { h with handler := rfl, heap := fun now' hnow' => ?_ }⟩
  by_cases heq : now' = now
  · subst heq
    simp [Varray.read]
  · simp only [Function.update_of_ne heq]
    exact h.heap now' hnow'

/-- The last section of an event. -/
theorem wakeSection (h : Reads mem s n) (hstep : s.wakeSection = .ok s') :
    ∃ n', n.wakeSection = .ok n' ∧ Reads mem s' n' := by
  rw [WorkState.wakeSection] at hstep
  rw [WorkState.wakeSection, h.headComplete_eq]
  cases hcomplete : s.headComplete with
  | error e => simp [hcomplete] at hstep
  | ok complete =>
    simp only [hcomplete, ok_bind, h.isWorkRunning] at hstep ⊢
    split at hstep <;> cases hstep
    · rw [if_pos ‹_›]
      exact ⟨_, rfl, { h with
        isWorkRunning := rfl, handler := rfl, poolItems := by rw [h.poolItems] }⟩
    · rw [if_neg ‹_›]
      exact ⟨_, rfl, { h with isWorkRunning := rfl, handler := rfl }⟩

/-- The head section. -/
theorem headSection (h : Reads mem s n) {i : ℕ} (hstep : s.headSection i = .ok s') :
    ∃ n', n.headSection i = .ok n' ∧ Reads mem s' n' := by
  rw [WorkState.headSection] at hstep
  rw [WorkState.headSection, h.headComplete_eq, h.workQueue, h.workers]
  cases hcomplete : s.headComplete with
  | error e => simp [hcomplete] at hstep
  | ok complete =>
    simp only [hcomplete, ok_bind] at hstep ⊢
    split at hstep
    · rename_i head rest hq
      cases hstep
      refine ⟨_, rfl, { h with workQueue := rfl, workers := rfl, heap := fun now hnow => ?_ }⟩
      -- the one popped was the head of the queue
      apply h.heap
      rcases List.mem_append.mp hnow with hnow | hnow
      · rcases mem_inHand_set hnow with hnow | hpopped
        · exact List.mem_append_left _ hnow
        · cases hpopped
          simp [hq]
      · rw [hq]
        exact List.mem_append_right _ (List.mem_cons_of_mem _ hnow)
    · cases hstep
      refine ⟨_, rfl, { h with
        workQueue := rfl, isWorkRunning := rfl, workers := rfl, heap := fun now hnow => ?_ }⟩
      apply h.heap
      rcases List.mem_append.mp hnow with hnow | hnow
      · obtain ⟨pc, hpc, hpopped⟩ := List.mem_filterMap.mp hnow
        exact List.mem_append_left _
          (List.mem_filterMap.mpr ⟨pc, List.mem_of_mem_eraseIdx hpc, hpopped⟩)
      · exact List.mem_append_right _ hnow

/-- From the pop to the callback. -/
theorem deliverHead (h : Reads mem s n) {i head : ℕ} (hi : s.workers[i]? = some (.popped head))
    (hstep : s.deliverHead mem i head = .ok s') :
    ∃ n', n.deliverHead id i head = .ok n' ∧ Reads mem s' n' := by
  obtain ⟨hup, v, callback, hv, hcomplete, hdeliver, rfl⟩ := deliverHead_ok hstep
  have hhead : head ∈ s.inHand := List.mem_filterMap.mpr ⟨_, List.mem_of_getElem? hi, rfl⟩
  have hread : n.heap head = some (v.read mem) := by
    rw [h.heap head (List.mem_append_left _ hhead), hv]
    rfl
  rw [← deliver_read] at hdeliver
  obtain ⟨n', hn'⟩ := deliverHead_of_complete i (h.isWorkRunning.trans hup) hread
    (Varray.complete_read.mpr hcomplete) hdeliver
  obtain ⟨-, v', callback', hv', -, hdeliver', rfl⟩ := deliverHead_ok hn'
  obtain rfl : v.read mem = v' := Option.some.inj (hread.symm.trans hv')
  obtain rfl : callback = callback' := Except.ok.inj (hdeliver.symm.trans hdeliver')
  refine ⟨_, hn', { h with
    workers := by rw [h.workers]
    delivered := by rw [h.delivered]
    callbacks := by rw [h.callbacks]
    heap := fun now hnow => ?_ }⟩
  apply h.heap
  rcases List.mem_append.mp hnow with hnow | hnow
  · rcases mem_inHand_set hnow with hnow | hpopped
    · exact List.mem_append_left _ hnow
    · cases hpopped
  · exact List.mem_append_right _ hnow

/-- A varray called back is freed. -/
theorem freeHead (h : Reads mem s n) (i head : ℕ) :
    Reads mem (s.freeHead i head) (n.freeHead i head) := by
  refine { h with
    workers := by rw [WorkState.freeHead, WorkState.freeHead, h.workers]
    heap := fun now hnow => ?_ }
  rw [WorkState.freeHead, WorkState.freeHead]
  by_cases heq : now = head
  · subst heq
    simp
  · simp only [Function.update_of_ne heq]
    apply h.heap
    rcases List.mem_append.mp hnow with hnow | hnow
    · rcases mem_inHand_set hnow with hnow | hpopped
      · exact List.mem_append_left _ hnow
      · cases hpopped
    · exact List.mem_append_right _ hnow

/-- A queued work item starts. -/
theorem startItem (h : Reads mem s n) : Reads mem s.startItem n.startItem := by
  refine { h with
    poolItems := by rw [WorkState.startItem, WorkState.startItem, h.poolItems]
    workers := by rw [WorkState.startItem, WorkState.startItem, h.workers]
    heap := fun now hnow => h.heap now ?_ }
  simpa [WorkState.startItem, inHand, WorkerPc.popped?] using hnow

/-- **Each step of the one is a step of the other.** -/
theorem step (h : Reads mem s n) {a : WorkAct χ} (hstep : workQueueStep mem s a = some (.ok s')) :
    ∃ n', workQueueStep id n (a.read mem) = some (.ok n') ∧ Reads mem s' n' := by
  cases a with
  | recv byteLen chunk =>
    simp only [workQueueStep] at hstep
    split at hstep
    · rename_i hidle
      obtain ⟨n', hn', hnext⟩ := h.lookupSection (Option.some.inj hstep)
      refine ⟨n', ?_, hnext⟩
      simp only [WorkAct.read, workQueueStep, h.handler, hidle, HandlerPc.read, hn']
    · cases hstep
  | handler =>
    simp only [workQueueStep, WorkState.handlerStep] at hstep
    simp only [WorkAct.read, workQueueStep, WorkState.handlerStep, h.handler]
    split at hstep
    case h_1 => cases hstep
    all_goals
      rename_i hpc
      simp only [hpc, HandlerPc.read, Option.some.injEq] at hstep ⊢
    · exact h.pushNew hstep
    · exact h.appendFound hstep
    · exact h.wakeSection hstep
  | startItem =>
    simp only [workQueueStep] at hstep
    split at hstep <;> cases hstep
    rename_i hpos
    exact ⟨_, if_pos (h.poolItems ▸ hpos), h.startItem⟩
  | worker i =>
    simp only [workQueueStep, WorkState.workerStep] at hstep
    simp only [WorkAct.read, workQueueStep, WorkState.workerStep, h.workers]
    split at hstep
    case h_1 => cases hstep
    all_goals simp only [Option.some.injEq] at hstep ⊢
    · exact h.headSection hstep
    · exact h.deliverHead ‹_› hstep
    · cases hstep
      exact ⟨_, rfl, h.freeHead i _⟩

/-! ### Memory that changes elsewhere -/

/-- **Reading through pointers rests on the chunks that will still be read**: the one in hand of
`handle_thread`, those in queued varrays, and those in varrays popped and not called back. -/
theorem congr_mem (h : Reads mem s n) (hincoming : ∀ chunk ∈ s.incoming, mem' chunk = mem chunk)
    (hheap : ∀ now ∈ s.inHand ++ s.workQueue, ∀ chunk ∈ s.chunksAt now, mem' chunk = mem chunk) :
    Reads mem' s n := by
  refine { h with handler := ?_, heap := fun now hnow => ?_ }
  · rw [h.handler]
    unfold incoming at hincoming
    cases hpc : s.handler with
    | found chunk now =>
      rw [hpc, HandlerPc.chunks] at hincoming
      rw [HandlerPc.read, HandlerPc.read, hincoming chunk (List.mem_singleton_self _)]
    | _ => rfl
  · rw [h.heap now hnow]
    cases hv : s.heap now with
    | none => rfl
    | some v =>
      have hsame : v.data.map mem = v.data.map mem' := List.map_congr_left fun chunk hchunk =>
        (hheap now hnow chunk (by rwa [chunksAt_of_live hv])).symm
      rw [Option.map_some, Option.map_some, Varray.read, Varray.read, hsame]

end Reads

end WorkState

end SparkRdma
