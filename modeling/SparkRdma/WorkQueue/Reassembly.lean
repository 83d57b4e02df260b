import SparkRdma.Wire.Layout
import Mathlib.Data.Finset.Defs
import Mathlib.Logic.Function.Basic

/-! # Putting messages back together

The receiving half of a transport. `handle_recv_event` finds the `varray_t` of a frame's message on
`work_queue` by data id, or pushes a new one, appends the chunk, and wakes the worker pool if the
head of the queue is complete. `work_thread` pops complete heads, copies them into a Java array,
calls back, and frees them.

Each section under `work_queue_lock`, and each stretch of unlocked code, is one function on
`WorkState`; they are generic in the chunk pointers, `mem` being what the pointers point at. Varrays
live at addresses of a heap, so that a pointer kept across an unlock may dangle. Where a stretch
allocates, `made` is whether it was given memory; where `made` is left out, it was. -/

namespace SparkRdma

open Interleaving

/-- `varray_t`: the first `len` entries of the array, which was allocated for `size` of them. -/
structure Varray (χ : Type) where
  /-- `data_id`. -/
  dataId : UInt32
  /-- `size`, the number of entries allocated. -/
  size : UInt32
  /-- `data[0], …, data[len - 1]`. -/
  data : List χ
  deriving DecidableEq, Repr

/-- A call of `jni_channel_callback`: the array, absent if it could not be made, and the length. -/
structure Callback where
  /-- The contents of the Java array. -/
  msg : Option (List UInt8)
  /-- The length argument. -/
  len : ℤ
  deriving DecidableEq, Repr

/-- The program points of `handle_thread` inside and between receive events. -/
inductive HandlerPc (χ : Type)
  /-- Between two events. -/
  | idle
  /-- In the event of `chunk`, after the lookup: the pointer to the varray found, if any. -/
  | found (chunk : χ) (now : Option ℕ)
  /-- The chunk is stored; about to enter the last section. -/
  | stored
  deriving DecidableEq, Repr

/-- The program points of one execution of `work_thread`. -/
inductive WorkerPc
  /-- At the top of the loop, about to lock. -/
  | top
  /-- Has popped `head`; the assertion, the copy and the callback are ahead. -/
  | popped (head : ℕ)
  /-- Has called back; about to release the chunks of `head` and free it. -/
  | delivered (head : ℕ)
  deriving DecidableEq, Repr

/-- The receiving half of `struct rdma_transport`, with the threads that work on it. -/
structure WorkState (χ : Type) where
  /-- The addresses on `work_queue`, head first. -/
  workQueue : List ℕ
  /-- The live varrays. -/
  heap : ℕ → Option (Varray χ)
  /-- No varray was allocated at this address or beyond. -/
  nextAddr : ℕ
  /-- `is_work_running`. -/
  isWorkRunning : ℕ
  /-- The program point of `handle_thread`. -/
  handler : HandlerPc χ
  /-- The number of work items of this transport queued in the pool. -/
  poolItems : ℕ
  /-- The executions of `work_thread` on this transport that have not taken their exit section. -/
  workers : List WorkerPc
  /-- Every address pushed on `work_queue` so far, oldest first. -/
  pushed : List ℕ
  /-- Every address called back so far, oldest first. -/
  delivered : List ℕ
  /-- The calls of `jni_channel_callback` so far, oldest first. -/
  callbacks : List Callback

/-! ### The Java side -/

/-- `jni_alloc_byte_array`: a new array of zeros, or NULL for a negative size, and when
`NewByteArray` is given no memory. -/
def jniAllocByteArray (bytes : ℤ) (made : Bool := true) : Option (List UInt8) :=
  if made then if 0 ≤ bytes then some (List.replicate bytes.toNat 0) else none
  else none

/-- `set_byte_array_region`: copies `len` bytes of `buf` to position `pos`. A region outside the
array leaves it as it is, with an exception pending. -/
def setByteArrayRegion (jba : Option (List UInt8)) (pos len : ℤ) (buf : List UInt8) :
    Except CFault (Option (List UInt8)) :=
  match jba with
  | none => .error .nullDeref
  | some a =>
      if 0 ≤ pos ∧ 0 ≤ len ∧ pos + len ≤ a.length then
        if len ≤ buf.length then
          .ok (some (a.take pos.toNat ++ buf.take len.toNat ++ a.drop (pos.toNat + len.toNat)))
        else .error .outOfBounds
      else .ok (some a)

/-! ### `work_thread` on a popped varray -/

section Deliver

variable {χ : Type} (mem : χ → RdmaChunk)

/-- The first loop over a popped varray: checks the data ids and adds up the lengths. -/
def sumChunkLen (dataId : UInt32) : UInt32 → List χ → Except CFault UInt32
  | dataLen, [] => .ok dataLen
  | dataLen, chunk :: data =>
      if dataId = (mem chunk).header.dataId then
        sumChunkLen dataId (dataLen + (mem chunk).header.chunkLen) data
      else .error .assertion

/-- The second loop: copies each body to its position. `pos` is an `int`, kept as its 32 bits. -/
def copyChunks : Option (List UInt8) → UInt32 → List χ → Except CFault (Option (List UInt8))
  | jba, _, [] => .ok jba
  | jba, pos, chunk :: data => do
      let jba ← setByteArrayRegion jba pos.toInt32.toInt (mem chunk).header.chunkLen.toInt32.toInt
        (mem chunk).body.bytes
      copyChunks jba (pos + (mem chunk).header.chunkLen) data

/-- What `work_thread` does with a popped varray up to and including the callback. -/
def deliver (head : Varray χ) (made : Bool := true) : Except CFault Callback :=
  match head.data with
  -- `head->data[0]` is read before the first loop, also when the varray has no entry
  | [] => .error .outOfBounds
  | first :: _ => do
      let dataLen ← sumChunkLen mem head.dataId 0 head.data
      if (mem first).header.dataLen = dataLen then
        let jba ← copyChunks mem (jniAllocByteArray dataLen.toInt32.toInt made) 0 head.data
        return ⟨jba, dataLen.toInt32.toInt⟩
      else .error .assertion

end Deliver

namespace Varray

variable {χ : Type}

/-- `head->len == head->size`. -/
def Complete (v : Varray χ) : Prop := v.data.length = v.size.toNat

instance (v : Varray χ) : Decidable v.Complete := inferInstanceAs (Decidable (_ = _))

/-- `VARRY_MALLOC0`, with the assertion behind it and the two fields that are filled in next. -/
def malloc0 (dataId chunkNum : UInt32) (made : Bool) : Except CFault (Varray χ) :=
  if made then .ok ⟨dataId, chunkNum, []⟩ else .error .assertion

/-- `now->data[now->len++] = chunk`: out of bounds when all allocated entries are taken. -/
def put (v : Varray χ) (chunk : χ) : Except CFault (Varray χ) :=
  if v.data.length < v.size.toNat then .ok { v with data := v.data ++ [chunk] }
  else .error .outOfBounds

end Varray

namespace WorkState

variable {χ : Type}

/-- The state `rdma_create_connect` sets up. -/
def start : WorkState χ where
  workQueue := []
  heap := fun _ => none
  nextAddr := 0
  isWorkRunning := 0
  handler := .idle
  poolItems := 0
  workers := []
  pushed := []
  delivered := []
  callbacks := []

/-- Read through a pointer to a varray. -/
def deref (s : WorkState χ) (now : ℕ) : Except CFault (Varray χ) :=
  match s.heap now with
  | some v => .ok v
  | none => .error .useAfterFree

/-- `compare_func`, on the addresses of the queue. -/
def hasDataId (s : WorkState χ) (dataId : UInt32) (now : ℕ) : Bool :=
  match s.heap now with
  | some v => v.dataId == dataId
  | none => false

/-- `g_queue_find_custom(server->work_queue, &data_id, compare_func)`. -/
def findCustom (s : WorkState χ) (dataId : UInt32) : Option ℕ :=
  s.workQueue.find? (s.hasDataId dataId)

/-- The start of `handle_recv_event`: the length check, and the lookup under the lock. -/
def lookupSection (mem : χ → RdmaChunk) (s : WorkState χ) (byteLen : UInt32) (chunk : χ) :
    Except CFault (WorkState χ) :=
  -- the sum is one of 32 bits, so a large `chunk_len` can pass
  if (mem chunk).header.chunkLen + rdmaHeaderSize ≠ byteLen then .error .abort
  else .ok { s with handler := .found chunk (s.findCustom (mem chunk).header.dataId) }

/-- The branch `found == NULL`: allocate and fill a new varray and push it under the lock. -/
def pushNew (mem : χ → RdmaChunk) (s : WorkState χ) (chunk : χ) (made : Bool := true) :
    Except CFault (WorkState χ) := do
  -- `VARRY_MALLOC0` allocates `chunk_num` entries; the first is written before the push
  let now ← Varray.malloc0 (mem chunk).header.dataId (mem chunk).header.chunkNum made
  let now ← now.put chunk
  return { s with
    heap := Function.update s.heap s.nextAddr (some now)
    nextAddr := s.nextAddr + 1
    workQueue := s.workQueue ++ [s.nextAddr]
    pushed := s.pushed ++ [s.nextAddr]
    handler := .stored }

/-- The other branch: append to the varray found, without the lock. The pointer is read from the
list link `found`, which `g_queue_pop_head` frees. The store of the entry and that of `len` are one
step here, although nothing keeps `work_thread` from looking at the varray between the two. -/
def appendFound (mem : χ → RdmaChunk) (s : WorkState χ) (chunk : χ) (now : ℕ) :
    Except CFault (WorkState χ) := do
  if now ∉ s.workQueue then .error .useAfterFree
  let v ← s.deref now
  if v.size.toNat ≤ v.data.length then .error .abort
  else if v.dataId ≠ (mem chunk).header.dataId then .error .abort
  else
    let v ← v.put chunk
    return { s with heap := Function.update s.heap now (some v), handler := .stored }

/-- Whether the head of the queue is there and complete; both threads test it under the lock. -/
def headComplete (s : WorkState χ) : Except CFault Bool :=
  match s.workQueue with
  | [] => .ok false
  | head :: _ => do
      let v ← s.deref head
      return decide v.Complete

/-- The last section of `handle_recv_event`: wake the pool if the head is complete. -/
def wakeSection (s : WorkState χ) : Except CFault (WorkState χ) := do
  let complete ← s.headComplete
  if s.isWorkRunning = 0 ∧ complete then
    return { s with isWorkRunning := 1, poolItems := s.poolItems + 1, handler := .idle }
  else return { s with handler := .idle }

/-- The pool starts executing a queued work item. -/
def startItem (s : WorkState χ) : WorkState χ :=
  { s with poolItems := s.poolItems - 1, workers := s.workers ++ [.top] }

/-- The locked section at the top of `work_thread`'s loop, for the execution at index `i`: pop a
complete head, or lower the flag and leave. -/
def headSection (s : WorkState χ) (i : ℕ) : Except CFault (WorkState χ) := do
  let complete ← s.headComplete
  match s.workQueue, complete with
  | head :: rest, true =>
      return { s with workQueue := rest, workers := s.workers.set i (.popped head) }
  -- no head, or an incomplete one
  | _, _ => return { s with isWorkRunning := 0, workers := s.workers.eraseIdx i }

/-- From the pop to the callback. -/
def deliverHead (mem : χ → RdmaChunk) (s : WorkState χ) (i head : ℕ) (made : Bool := true) :
    Except CFault (WorkState χ) :=
  if s.isWorkRunning ≠ 1 then .error .assertion
  else do
    let v ← s.deref head
    if ¬ v.Complete then .error .abort
    else
      let callback ← deliver mem v made
      return { s with
        callbacks := s.callbacks ++ [callback]
        delivered := s.delivered ++ [head]
        workers := s.workers.set i (.delivered head) }

/-- `free(head)`, once its chunks are released. -/
def freeHead (s : WorkState χ) (i head : ℕ) : WorkState χ :=
  { s with heap := Function.update s.heap head none, workers := s.workers.set i .top }

/-- The next step of the execution of `work_thread` at index `i`. -/
def workerStep (mem : χ → RdmaChunk) (s : WorkState χ) (i : ℕ) (made : Bool := true) :
    Option (Except CFault (WorkState χ)) :=
  match s.workers[i]? with
  | none => none
  | some .top => some (s.headSection i)
  | some (.popped head) => some (s.deliverHead mem i head made)
  | some (.delivered head) => some (.ok (s.freeHead i head))

/-- The next step of `handle_thread` inside an event. -/
def handlerStep (mem : χ → RdmaChunk) (s : WorkState χ) (made : Bool := true) :
    Option (Except CFault (WorkState χ)) :=
  match s.handler with
  | .idle => none
  | .found chunk none => some (s.pushNew mem chunk made)
  | .found chunk (some now) => some (s.appendFound mem chunk now)
  | .stored => some s.wakeSection

/-! ### What each section does -/

/-- The queue has a head and it is complete. -/
def HeadComplete (s : WorkState χ) : Prop :=
  ∃ head rest v, s.workQueue = head :: rest ∧ s.heap head = some v ∧ v.Complete

/-- A live varray is read. -/
theorem deref_ok {s : WorkState χ} {now : ℕ} {v : Varray χ} :
    s.deref now = .ok v ↔ s.heap now = some v := by
  unfold deref
  cases s.heap now <;> simp

/-- The head test, when it does not fault. -/
theorem headComplete_ok {s : WorkState χ} {complete : Bool} (h : s.headComplete = .ok complete) :
    complete = true ↔ s.HeadComplete := by
  unfold headComplete at h
  unfold HeadComplete
  cases hq : s.workQueue with
  | nil => simp_all
  | cons head rest =>
    rw [hq] at h
    cases hv : s.heap head with
    | none => simp [deref, hv] at h
    | some v =>
      simp only [deref, hv, ok_bind] at h
      cases h
      simp [hv]

/-- The head test does not fault on a queue of live varrays. -/
theorem headComplete_of_live {s : WorkState χ} (h : ∀ now ∈ s.workQueue, ∃ v, s.heap now = some v) :
    ∃ complete, s.headComplete = .ok complete := by
  unfold headComplete
  cases hq : s.workQueue with
  | nil => exact ⟨_, rfl⟩
  | cons head rest =>
    obtain ⟨v, hv⟩ := h head (by simp [hq])
    exact ⟨decide v.Complete, by simp only [deref, hv, ok_bind]; rfl⟩

/-- The lookup passes only a frame of the right length. -/
theorem lookupSection_ok {mem : χ → RdmaChunk} {s s' : WorkState χ} {byteLen : UInt32} {chunk : χ}
    (h : s.lookupSection mem byteLen chunk = .ok s') :
    (mem chunk).header.chunkLen + rdmaHeaderSize = byteLen ∧
      s' = { s with handler := .found chunk (s.findCustom (mem chunk).header.dataId) } := by
  unfold lookupSection at h
  split at h <;> cases h
  exact ⟨not_not.mp ‹_›, rfl⟩

/-- A new varray is pushed with its first chunk, if it has an entry for it. -/
theorem pushNew_ok {mem : χ → RdmaChunk} {s s' : WorkState χ} {chunk : χ}
    (h : s.pushNew mem chunk = .ok s') :
    0 < (mem chunk).header.chunkNum.toNat ∧
      s' = { s with
        heap := Function.update s.heap s.nextAddr
          (some ⟨(mem chunk).header.dataId, (mem chunk).header.chunkNum, [chunk]⟩)
        nextAddr := s.nextAddr + 1
        workQueue := s.workQueue ++ [s.nextAddr]
        pushed := s.pushed ++ [s.nextAddr]
        handler := .stored } := by
  simp only [pushNew, Varray.malloc0, if_true, ok_bind, Varray.put, List.length_nil,
    List.nil_append] at h
  split at h
  · cases h
    exact ⟨‹_›, rfl⟩
  · cases h

/-- A chunk is appended to a varray of its message that is still queued and has room. -/
theorem appendFound_ok {mem : χ → RdmaChunk} {s s' : WorkState χ} {chunk : χ} {now : ℕ}
    (h : s.appendFound mem chunk now = .ok s') :
    now ∈ s.workQueue ∧ ∃ v, s.heap now = some v ∧ v.data.length < v.size.toNat ∧
      v.dataId = (mem chunk).header.dataId ∧
      s' = { s with
        heap := Function.update s.heap now (some { v with data := v.data ++ [chunk] })
        handler := .stored } := by
  unfold appendFound at h
  split at h
  · cases h
  rename_i hmem
  cases hv : s.heap now with
  | none => simp [deref, hv] at h
  | some v =>
    simp only [deref, hv, ok_bind] at h
    -- the two checks of this branch, of `len` and of the data id
    split at h
    · cases h
    split at h
    · cases h
    -- behind the first there is an entry left, so the store does not fault
    simp only [Varray.put, if_pos (not_le.mp ‹_›), ok_bind] at h
    cases h
    exact ⟨not_not.mp hmem, v, rfl, not_le.mp ‹_›, not_not.mp ‹_›, rfl⟩

/-- The last section of an event wakes the pool exactly when the flag is down and the head
complete. -/
theorem wakeSection_ok {s s' : WorkState χ} (h : s.wakeSection = .ok s') :
    (s.isWorkRunning = 0 ∧ s.HeadComplete ∧
      s' = { s with isWorkRunning := 1, poolItems := s.poolItems + 1, handler := .idle }) ∨
    (¬ (s.isWorkRunning = 0 ∧ s.HeadComplete) ∧ s' = { s with handler := .idle }) := by
  unfold wakeSection at h
  cases hc : s.headComplete with
  | error e => simp [hc] at h
  | ok complete =>
    rw [← headComplete_ok hc]
    simp only [hc, ok_bind] at h
    split at h <;> cases h
    · exact .inl ⟨‹_ ∧ _›.1, ‹_ ∧ _›.2, rfl⟩
    · exact .inr ⟨‹_›, rfl⟩

/-- The head section pops a complete head, or lowers the flag and leaves. -/
theorem headSection_ok {s s' : WorkState χ} {i : ℕ} (h : s.headSection i = .ok s') :
    (∃ head rest v, s.workQueue = head :: rest ∧ s.heap head = some v ∧ v.Complete ∧
      s' = { s with workQueue := rest, workers := s.workers.set i (.popped head) }) ∨
    (¬ s.HeadComplete ∧
      s' = { s with isWorkRunning := 0, workers := s.workers.eraseIdx i }) := by
  unfold headSection at h
  cases hc : s.headComplete with
  | error e => simp [hc] at h
  | ok complete =>
    have hiff := headComplete_ok hc
    simp only [hc, ok_bind] at h
    cases complete with
    | true =>
      obtain ⟨head, rest, v, hq, hv, hcomplete⟩ := hiff.mp rfl
      simp only [hq] at h
      cases h
      exact .inl ⟨head, rest, v, hq, hv, hcomplete, rfl⟩
    | false =>
      refine .inr ⟨fun hhead => by simpa using hiff.mpr hhead, ?_⟩
      -- an empty queue and an incomplete head end the loop alike
      cases hq : s.workQueue <;> simp only [hq] at h <;> cases h <;> rfl

/-- From the pop to the callback: the flag is up, the varray live and complete, and the callback is
what `deliver` makes of it. -/
theorem deliverHead_ok {mem : χ → RdmaChunk} {s s' : WorkState χ} {i head : ℕ}
    (h : s.deliverHead mem i head = .ok s') :
    s.isWorkRunning = 1 ∧ ∃ v callback, s.heap head = some v ∧ v.Complete ∧
      deliver mem v = .ok callback ∧
      s' = { s with
        callbacks := s.callbacks ++ [callback]
        delivered := s.delivered ++ [head]
        workers := s.workers.set i (.delivered head) } := by
  unfold deliverHead at h
  split at h
  · cases h
  cases hv : s.heap head with
  | none => simp [deref, hv] at h
  | some v =>
    simp only [deref, hv, ok_bind] at h
    split at h
    · cases h
    cases hd : deliver mem v with
    | error e => simp [hd] at h
    | ok callback =>
      simp only [hd, ok_bind] at h
      cases h
      exact ⟨not_not.mp ‹_›, v, callback, rfl, not_not.mp ‹_›, hd, rfl⟩

/-! ### When a section does not fault -/

/-- A frame of the right length passes the lookup. -/
theorem lookupSection_of_byteLen {mem : χ → RdmaChunk} (s : WorkState χ) {byteLen : UInt32}
    {chunk : χ} (hlen : byteLen = (mem chunk).header.chunkLen + rdmaHeaderSize) :
    ∃ s', s.lookupSection mem byteLen chunk = .ok s' := by
  rw [lookupSection, if_neg (not_not.mpr hlen.symm)]
  exact ⟨_, rfl⟩

/-- A message of at least one chunk can be pushed. -/
theorem pushNew_of_pos {mem : χ → RdmaChunk} (s : WorkState χ) {chunk : χ}
    (hpos : 0 < (mem chunk).header.chunkNum.toNat) : ∃ s', s.pushNew mem chunk = .ok s' := by
  simp only [pushNew, Varray.malloc0, if_true, ok_bind, Varray.put, List.length_nil, if_pos hpos]
  exact ⟨_, rfl⟩

/-- A chunk can be appended to a queued varray of its message with room for it. -/
theorem appendFound_of_room {mem : χ → RdmaChunk} {s : WorkState χ} {chunk : χ} {now : ℕ}
    {v : Varray χ} (hmem : now ∈ s.workQueue) (hv : s.heap now = some v)
    (hroom : v.data.length < v.size.toNat) (hid : v.dataId = (mem chunk).header.dataId) :
    ∃ s', s.appendFound mem chunk now = .ok s' := by
  simp only [appendFound, if_neg (not_not.mpr hmem), deref, hv, ok_bind,
    if_neg (not_le.mpr hroom), if_neg (not_not.mpr hid), Varray.put, if_pos hroom]
  exact ⟨_, rfl⟩

/-- The last section of an event, on a queue of live varrays. -/
theorem wakeSection_of_live {s : WorkState χ} (h : ∀ now ∈ s.workQueue, ∃ v, s.heap now = some v) :
    ∃ s', s.wakeSection = .ok s' := by
  obtain ⟨complete, hc⟩ := headComplete_of_live h
  rw [wakeSection, hc, ok_bind]
  split <;> exact ⟨_, rfl⟩

/-- The head section, on a queue of live varrays. -/
theorem headSection_of_live {s : WorkState χ} (i : ℕ)
    (h : ∀ now ∈ s.workQueue, ∃ v, s.heap now = some v) : ∃ s', s.headSection i = .ok s' := by
  obtain ⟨complete, hc⟩ := headComplete_of_live h
  rw [headSection, hc, ok_bind]
  split <;> exact ⟨_, rfl⟩

/-- A live complete varray is called back, if `deliver` accepts its chunks. -/
theorem deliverHead_of_complete {mem : χ → RdmaChunk} {s : WorkState χ} (i : ℕ) {head : ℕ}
    {v : Varray χ} {callback : Callback} (hup : s.isWorkRunning = 1) (hv : s.heap head = some v)
    (hcomplete : v.Complete) (hdeliver : deliver mem v = .ok callback) :
    ∃ s', s.deliverHead mem i head = .ok s' := by
  simp only [deliverHead, hup, ne_eq, not_true_eq_false, if_false, deref, hv, ok_bind, hcomplete,
    hdeliver]
  exact ⟨_, rfl⟩

end WorkState

end SparkRdma
