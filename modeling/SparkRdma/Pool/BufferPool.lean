import Mathlib.Algebra.Ring.Nat
import SparkRdma.Foundations.LinkedList
import SparkRdma.Foundations.Machine

/-! # The buffer pool

`rdma_buffer_pool.c`: chunks are carved from registered buffers of `RDMA_BUFFER_SIZE` at a time and
kept on a free list, linked through the chunks themselves. Every operation locks the pool, but the
two get operations do so three times: they read `free_size`, append a buffer if it is too small, and
only then take their chunks.

The machine `bufferPool` runs any number of threads on one pool, each lock-protected section one
step. `malloc` and `ibv_reg_mr` answer as the label says. A thread releases only chunks it holds; it
may also pass one on to another thread, as senders do by posting it. -/

namespace SparkRdma

open Interleaving LinkedList

/-- `RDMA_BUFFER_SIZE`. -/
def rdmaBufferSize : UInt32 := 1024 * 4

/-- The address of a `struct rdma_chunk`: a buffer and an index into it. -/
structure ChunkPtr where
  /-- The buffer, by the number of its `malloc`. -/
  buffer : ℕ
  /-- The index in `node->buffer`. -/
  index : ℕ
  deriving DecidableEq, Repr

/-- `struct ibv_mr`: the memory it was registered for. -/
structure MemoryRegion where
  /-- The buffer. -/
  buffer : ℕ
  /-- The number of chunks in it. -/
  size : UInt32
  deriving DecidableEq, Repr

/-- `struct link_node`, without the link to the next one. -/
structure LinkNode where
  /-- `buffer`. -/
  buffer : ℕ
  /-- `mr`. -/
  mr : MemoryRegion
  deriving DecidableEq, Repr

/-- `struct rdma_buffer_pool`, with the memory its chunks live in. -/
structure BufferPool where
  /-- The nodes linked at `link_head`. -/
  linkHead : List LinkNode
  /-- `free_list`. -/
  freeList : Option ChunkPtr
  /-- `total_size`. -/
  totalSize : UInt32
  /-- `free_size`. -/
  freeSize : UInt32
  /-- The field `next` of every chunk. -/
  next : ChunkPtr → Option ChunkPtr
  /-- The field `mr` of every chunk. -/
  mr : ChunkPtr → Option MemoryRegion
  /-- The number of `malloc` calls for buffers so far. -/
  mallocs : ℕ

namespace BufferPool

/-- The pool after the `memset` of `init_rdma_buffer_pool`. -/
def zero : BufferPool where
  linkHead := []
  freeList := none
  totalSize := 0
  freeSize := 0
  next := fun _ => none
  mr := fun _ => none
  mallocs := 0

/-! ### `append_rdma_buffer_pool` -/

/-- The size `append_rdma_buffer_pool` rounds a request up to. -/
def appendSize (size : UInt32) : UInt32 :=
  (size / rdmaBufferSize + if size % rdmaBufferSize = 0 then 0 else 1) * rdmaBufferSize

/-- `node->buffer[i].mr = mr; node->buffer[i].next = &node->buffer[i+1];` -/
def linkChunk (buffer : ℕ) (mr : MemoryRegion) (rbp : BufferPool) (i : ℕ) : BufferPool :=
  { rbp with
    mr := Function.update rbp.mr ⟨buffer, i⟩ (some mr)
    next := Function.update rbp.next ⟨buffer, i⟩ (some ⟨buffer, i + 1⟩) }

/-- The loop of the function at the index `i`, with so many turns left. The index is an `int`; there
is no result when its increment overflows. -/
def linkLoop (buffer : ℕ) (mr : MemoryRegion) : ℕ → ℕ → BufferPool → Option BufferPool
  | 0, _, rbp => some rbp
  | left + 1, i, rbp =>
      if i + 1 < 2 ^ 31 then linkLoop buffer mr left (i + 1) (linkChunk buffer mr rbp i) else none

/-- The part of the function before the lock, after `malloc` and `ibv_reg_mr` succeeded. The loop is
`linkLoop` for buffers of at most `2 ^ 31` chunks, far beyond what an address space of 47 bits has
room for (`linkLoop_eq`). -/
def newBuffer (rbp : BufferPool) (size : UInt32) : BufferPool :=
  let buffer := rbp.mallocs
  let mr : MemoryRegion := ⟨buffer, size⟩
  let rbp := (List.range (size.toNat - 1)).foldl (linkChunk buffer mr) rbp
  -- the last chunk is linked under the lock only, to the free list of that moment
  { rbp with
    mr := Function.update rbp.mr ⟨buffer, size.toNat - 1⟩ (some mr)
    mallocs := rbp.mallocs + 1 }

/-- The section of the function under the lock. -/
def spliceSection (rbp : BufferPool) (buffer : ℕ) (size : UInt32) : BufferPool :=
  { rbp with
    next := Function.update rbp.next ⟨buffer, size.toNat - 1⟩ rbp.freeList
    freeList := some ⟨buffer, 0⟩
    linkHead := ⟨buffer, ⟨buffer, size⟩⟩ :: rbp.linkHead
    totalSize := rbp.totalSize + size
    freeSize := rbp.freeSize + size }

/-- The pool a successful `init_rdma_buffer_pool` leaves. -/
def init : BufferPool :=
  (zero.newBuffer (appendSize rdmaBufferSize)).spliceSection 0 (appendSize rdmaBufferSize)

/-! ### Taking and releasing -/

/-- The last section of `get_rdma_chunk_from_pool`. -/
def takeChunk (rbp : BufferPool) : Except CFault (Option ChunkPtr × BufferPool) :=
  match rbp.freeList with
  | none => .error .nullDeref
  | some chunk => .ok (some chunk, { rbp with
      freeList := rbp.next chunk
      next := Function.update rbp.next chunk none
      freeSize := rbp.freeSize - 1 })

/-- The last section of `get_rdma_chunk_list_from_pool`. The cursor loop returns NULL when it finds
NULL on its way; behind it the cursor is dereferenced. -/
def takeChunkList (rbp : BufferPool) (count : UInt32) :
    Except CFault (Option ChunkPtr × BufferPool) :=
  match walk rbp.next (count - 1).toNat rbp.freeList with
  | none => .ok (none, rbp)
  | some none => .error .nullDeref
  | some (some now) => .ok (rbp.freeList, { rbp with
      freeList := rbp.next now
      next := Function.update rbp.next now none
      freeSize := rbp.freeSize - count })

/-- The section of `release_rdma_chunk_to_pool`. -/
def releaseSection (rbp : BufferPool) (chunk : ChunkPtr) : BufferPool :=
  { rbp with
    next := Function.update rbp.next chunk rbp.freeList
    freeList := some chunk
    freeSize := rbp.freeSize + 1 }

end BufferPool

/-- A call of one of the pool's operations. -/
inductive PoolOp
  /-- `get_rdma_chunk_from_pool`. -/
  | getChunk
  /-- `get_rdma_chunk_list_from_pool`. -/
  | getChunkList (count : UInt32)
  /-- `release_rdma_chunk_to_pool`. -/
  | release (chunk : Option ChunkPtr)
  deriving DecidableEq, Repr

/-- The number of chunks a call takes. -/
def PoolOp.count : PoolOp → UInt32
  | getChunk => 1
  | getChunkList count => count
  | release _ => 0

/-- The program points of a thread. -/
inductive PoolPc
  /-- Not in a call. -/
  | idle
  /-- At the start of a call. -/
  | called (op : PoolOp)
  /-- In `append_rdma_buffer_pool`, about to allocate for `size` chunks. -/
  | append (op : PoolOp) (size : UInt32)
  /-- There, about to lock: the buffer is filled and registered. -/
  | splice (op : PoolOp) (buffer : ℕ) (size : UInt32)
  /-- About to enter the last section of a get operation. -/
  | take (op : PoolOp)
  /-- Back from the call, with what it returned and whether an append has failed in it. -/
  | done (op : PoolOp) (chunk : Option ChunkPtr) (appendFailed : Bool)
  deriving DecidableEq, Repr

/-- A pool and the threads that use it. -/
structure PoolState (T : Type) where
  /-- The pool. -/
  pool : BufferPool
  /-- The program points. -/
  pc : T → PoolPc
  /-- The chunks each thread holds. -/
  held : T → List ChunkPtr

/-- What `malloc` and `ibv_reg_mr` answer. -/
inductive AllocResult
  /-- Both succeed. -/
  | ok
  /-- `malloc` returns NULL. -/
  | mallocFails
  /-- `ibv_reg_mr` returns NULL. -/
  | regMrFails
  deriving DecidableEq, Repr

/-- The steps of the threads. -/
inductive PoolAct (T : Type)
  /-- Thread `t` calls `op`. -/
  | call (t : T) (op : PoolOp)
  /-- It runs the next lock-protected section of its call. -/
  | lockedSection (t : T)
  /-- It runs `append_rdma_buffer_pool` up to the lock. -/
  | alloc (t : T) (result : AllocResult)
  /-- It goes on with what the call returned. -/
  | resume (t : T)
  /-- It passes a chunk on to thread `u`. -/
  | pass (t u : T) (chunk : ChunkPtr)

namespace PoolState

variable {T : Type} [DecidableEq T]

/-- Thread `t` moves to `pc`. -/
def goto (s : PoolState T) (t : T) (pc : PoolPc) : PoolState T :=
  { s with pc := Function.update s.pc t pc }

@[simp] theorem goto_pc (s : PoolState T) (t : T) (pc : PoolPc) : (s.goto t pc).pc t = pc :=
  Function.update_self ..

/-- A thread releases only what it holds. -/
def MayCall (s : PoolState T) (t : T) : PoolOp → Prop
  | .release (some chunk) => chunk ∈ s.held t
  | _ => True

instance (s : PoolState T) (t : T) (op : PoolOp) : Decidable (s.MayCall t op) := by
  unfold MayCall
  split <;> infer_instance

/-- Thread `t` passes a chunk on to thread `u`. -/
def passChunk (s : PoolState T) (t u : T) (chunk : ChunkPtr) : PoolState T :=
  let held := Function.update s.held t ((s.held t).erase chunk)
  { s with held := Function.update held u (held u ++ [chunk]) }

/-- The first section of the call: a get operation reads `free_size`, and decides on it whether to
append; `release_rdma_chunk_to_pool` has no other. -/
def firstSection (s : PoolState T) (t : T) : PoolOp → PoolState T
  | .getChunk =>
      s.goto t (if s.pool.freeSize = 0 then .append .getChunk rdmaBufferSize else .take .getChunk)
  | .getChunkList count =>
      -- `free_size` may have changed by the time the shortage computed from it is appended
      s.goto t <|
        if count = 0 then .done (.getChunkList count) none false
        else if s.pool.freeSize < count then .append (.getChunkList count) (count - s.pool.freeSize)
        else .take (.getChunkList count)
  | .release none => s.goto t (.done (.release none) none false)
  | .release (some chunk) =>
      { s.goto t (.done (.release (some chunk)) none false) with
        pool := s.pool.releaseSection chunk
        held := Function.update s.held t ((s.held t).erase chunk) }

/-- `append_rdma_buffer_pool` up to the lock. -/
def allocSection (s : PoolState T) (t : T) (op : PoolOp) (size : UInt32) :
    AllocResult → PoolState T
  | .ok =>
      -- rounding up can wrap to 0, which the function reports as a failure
      if BufferPool.appendSize size = 0 then s.goto t (.done op none true)
      else { s.goto t (.splice op s.pool.mallocs (BufferPool.appendSize size)) with
        pool := s.pool.newBuffer (BufferPool.appendSize size) }
  | _ => s.goto t (.done op none true)

/-- The last section of a get operation. The chunks taken are the first of the free list. -/
def takeSection (s : PoolState T) (t : T) (op : PoolOp) : Except CFault (PoolState T) := do
  let (chunk, pool) ←
    match op with
    | .getChunk => s.pool.takeChunk
    | .getChunkList count => s.pool.takeChunkList count
    -- a release ends with its first section
    | .release _ => .ok (none, s.pool)
  let taken := if chunk.isSome then cells s.pool.next op.count.toNat s.pool.freeList else []
  return { s.goto t (.done op chunk false) with
    pool := pool
    held := Function.update s.held t (s.held t ++ taken) }

end PoolState

open PoolState

variable {T : Type} [DecidableEq T]

/-- One step of a thread. -/
def poolStep (s : PoolState T) : PoolAct T → Option (Except CFault (PoolState T))
  | .call t op =>
      match s.pc t with
      | .idle => if s.MayCall t op then some (.ok (s.goto t (.called op))) else none
      | _ => none
  | .lockedSection t =>
      match s.pc t with
      | .called op => some (.ok (s.firstSection t op))
      | .splice op buffer size => some (.ok
          { s.goto t (.take op) with pool := s.pool.spliceSection buffer size })
      | .take op => some (s.takeSection t op)
      | _ => none
  | .alloc t result =>
      match s.pc t with
      | .append op size => some (.ok (s.allocSection t op size result))
      | _ => none
  | .resume t =>
      match s.pc t with
      | .done _ _ _ => some (.ok (s.goto t .idle))
      | _ => none
  | .pass t u chunk =>
      match s.pc t with
      | .idle => if chunk ∈ s.held t then some (.ok (s.passChunk t u chunk)) else none
      | _ => none

/-- Any number of threads on one pool, from a successful `init_rdma_buffer_pool` on. -/
def bufferPool (T : Type) [DecidableEq T] : Machine (PoolState T) CFault (PoolAct T) where
  init := { pool := .init, pc := fun _ => .idle, held := fun _ => [] }
  step := poolStep

end SparkRdma
