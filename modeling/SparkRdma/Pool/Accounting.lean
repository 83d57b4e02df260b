import Mathlib.Data.List.Perm.Subperm
import SparkRdma.Pool.Representation

/-! # Every chunk is accounted for

What the representation invariant says about the chunks themselves, as long as fewer than `2^32` of
them were appended and the two counters have not wrapped.

* **`linkedChunks rbp`** — the chunks of the linked buffers, listed; `appendedSize` is their number.
* **`Accounted s free`** — the free list is a chain of `free_size` chunks without repetition,
  `total_size` counts the chunks of the linked buffers, and each of them is on the free list or with
  one thread, and knows its region.
* **`accounted_of_reachable`** — every reachable state is accounted for. -/

namespace SparkRdma

open Interleaving LinkedList

namespace BufferPool

variable {rbp : BufferPool} {free : List ChunkPtr}

/-- The number of chunks of the linked buffers. -/
def appendedSize (rbp : BufferPool) : ℕ := (rbp.linkHead.map (·.mr.size.toNat)).sum

/-- The chunks of the linked buffers, buffer by buffer. -/
def linkedChunks (rbp : BufferPool) : List ChunkPtr :=
  rbp.linkHead.flatMap fun node => bufferChunks node.buffer node.mr.size.toNat

/-- The linked chunks are the chunks the partition is about. -/
@[simp] theorem mem_linkedChunks {c : ChunkPtr} : c ∈ rbp.linkedChunks ↔ c ∈ rbp.appended := by
  simp [linkedChunks, appended]

@[simp] theorem length_linkedChunks : rbp.linkedChunks.length = rbp.appendedSize := by
  simp [linkedChunks, appendedSize, List.length_flatMap]

/-- The buffers are distinct, so no chunk is listed twice. -/
theorem Registered.nodup_linkedChunks (h : rbp.Registered) : rbp.linkedChunks.Nodup := by
  refine List.nodup_flatMap.mpr ⟨fun node _ => nodup_bufferChunks .., ?_⟩
  refine (List.pairwise_map.mp h.distinct).imp fun {node node'} hne c hc hc' => ?_
  exact hne ((mem_bufferChunks.mp hc).1.symm.trans (mem_bufferChunks.mp hc').1)

/-- `total_size`, while it has not wrapped. -/
theorem Registered.toNat_totalSize (h : rbp.Registered) (hlt : rbp.appendedSize < 2 ^ 32) :
    rbp.totalSize.toNat = rbp.appendedSize := by
  rw [h.total, UInt32.toNat_ofNat']
  exact Nat.mod_eq_of_lt hlt

/-- A successful `init_rdma_buffer_pool` has appended one buffer. -/
theorem appendedSize_init : init.appendedSize = 4096 := by
  rw [init, appendedSize, spliceSection, newBuffer_eq _ (by decide)]
  rfl

end BufferPool

namespace PoolInv

variable {T : Type} {s : PoolState T} {free : List ChunkPtr}

/-- No more chunks are free than were appended. -/
theorem length_free_le (h : PoolInv s free) : free.length ≤ s.pool.appendedSize := by
  rw [← BufferPool.length_linkedChunks]
  refine (List.subperm_of_subset (h.owned.nodup none) fun c hc => ?_).length_le
  exact BufferPool.mem_linkedChunks.mpr (h.appended_of_free hc)

/-- `free_size`, while `total_size` has not wrapped. -/
theorem toNat_freeSize (h : PoolInv s free) (hlt : s.pool.appendedSize < 2 ^ 32) :
    s.pool.freeSize.toNat = free.length := by
  rw [h.free_chain.size, UInt32.toNat_ofNat']
  exact Nat.mod_eq_of_lt (h.length_free_le.trans_lt hlt)

end PoolInv

/-- The pool, with the chunks `free` on its free list, and the threads account for every chunk. -/
structure Accounted {T : Type} (s : PoolState T) (free : List ChunkPtr) : Prop where
  /-- `free_list` is a NULL-terminated chain. -/
  chain : Chain s.pool.next s.pool.freeList free
  /-- The chain has no cycle and no repetition. -/
  nodup : free.Nodup
  /-- `free_size` is its length. -/
  free_size : s.pool.freeSize.toNat = free.length
  /-- `total_size` is the number of chunks of the buffers on `link_head`. -/
  total_size : s.pool.totalSize.toNat = s.pool.linkedChunks.length
  /-- No chunk is counted twice there. -/
  distinct : s.pool.linkedChunks.Nodup
  /-- Nothing but chunks of these buffers is on the free list or with a thread. -/
  pool_only : ∀ c, (c ∈ free ∨ ∃ t, c ∈ s.held t) → c ∈ s.pool.linkedChunks
  /-- Each is once on the free list, or once with exactly one thread. -/
  one_place : ∀ c ∈ s.pool.linkedChunks, (free.count c = 1 ∧ ∀ t, c ∉ s.held t) ∨
    (c ∉ free ∧ ∃ t, (s.held t).count c = 1 ∧ ∀ u, c ∈ s.held u → u = t)
  /-- Its `mr` is the region registered for its buffer. -/
  region : ∀ node ∈ s.pool.linkHead, ∀ c ∈ BufferPool.bufferChunks node.buffer node.mr.size.toNat,
    s.pool.mr c = some node.mr ∧ node.mr.buffer = node.buffer

/-- **Every chunk is accounted for in every reachable state**, for any number of threads and
whatever `malloc` and `ibv_reg_mr` answer, while fewer than `2^32` chunks were appended. -/
theorem accounted_of_reachable {T : Type} [DecidableEq T] {s : PoolState T}
    (hs : (bufferPool T).Reachable s) (hlt : s.pool.appendedSize < 2 ^ 32) :
    ∃ free, Accounted s free := by
  obtain ⟨free, h⟩ := poolInv_of_reachable hs
  refine ⟨free, h.free_chain.chain, h.owned.nodup none, h.toNat_freeSize hlt, ?_,
    h.registered.nodup_linkedChunks, fun c hc => ?_, fun c hc => ?_, fun node hnode c hc => ?_⟩
  · rw [h.registered.toNat_totalSize hlt, BufferPool.length_linkedChunks]
  · rw [BufferPool.mem_linkedChunks]
    rcases hc with hc | ⟨t, hc⟩
    · exact h.appended_of_free hc
    · exact h.appended_of_held hc
  · -- the partition puts the chunk in one place, which is the free list or a thread
    obtain ⟨place, hplace⟩ := (h.owned.cover c).mp (BufferPool.mem_linkedChunks.mp hc)
    have honce := List.count_eq_one_of_mem (h.owned.nodup place) hplace
    cases place with
    | none => exact .inl ⟨honce, fun t ht => h.not_free_of_held ht hplace⟩
    | some t =>
      refine .inr ⟨h.not_free_of_held hplace, t, honce, fun u hu => ?_⟩
      exact Option.some.inj (h.owned.unique (i := some u) (j := some t) hu hplace)
  · obtain ⟨hbuffer, hregion⟩ := h.registered.region node hnode
    obtain ⟨hc, hindex⟩ := BufferPool.mem_bufferChunks.mp hc
    obtain ⟨b, i⟩ := c
    obtain rfl : b = node.buffer := hc
    exact ⟨hregion i hindex, hbuffer⟩

/-- A thread has taken one chunk, and the other 4095 are free. -/
theorem accounted_of_reachable_oneTaken : ∃ s : PoolState Unit, s.held () = [⟨0, 0⟩] ∧
    ∃ free, Accounted s free := by
  have hs := Machine.ReachableUnder.init (M := bufferPool Unit) (P := fun _ _ => True)
  have hs := hs.next (a := PoolAct.call () .getChunk) trivial rfl
  have hs := hs.next (a := PoolAct.lockedSection ()) trivial rfl
  rw [PoolState.firstSection, if_neg (by
    simp only [PoolState.goto, bufferPool, BufferPool.freeSize_init]; decide)] at hs
  have hs := hs.next (a := PoolAct.lockedSection ()) trivial rfl
  refine ⟨_, ?_, accounted_of_reachable hs ?_⟩
  · change cells BufferPool.init.next 1 (some ⟨0, 0⟩) = [⟨0, 0⟩]
    rw [cells, cells]
  · have hsize := BufferPool.appendedSize_init
    simp only [BufferPool.appendedSize, PoolState.goto, bufferPool] at hsize ⊢
    omega

end SparkRdma
