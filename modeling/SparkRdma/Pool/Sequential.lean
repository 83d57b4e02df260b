import SparkRdma.Foundations.Blocks
import SparkRdma.Pool.Accounting

/-! # The pool's operations, one at a time

Without other threads in between, each operation of the pool is a function of the pool and of what
`malloc` and `ibv_reg_mr` answer. The machine `sequentialPool` runs any sequence of them.

* **`growth rbp count`** — the least multiple of `RDMA_BUFFER_SIZE` that covers what `count` chunks
  are more than are free.
* **`Got`** — a get operation has taken the first `count` chunks of the free list, extended by
  `growth` new ones if it was too short.
* **`sequential_simulated`** — a sequence of operations is a run of one thread of `bufferPool`.
* **`sequential_spec`** — after any sequence of operations each of them does what it should. -/

namespace SparkRdma

open Interleaving LinkedList Blocks PoolState

namespace BufferPool

/-! ### The operations -/

/-- `append_rdma_buffer_pool`: `none` for the return value -1. -/
def appendRdmaBufferPool (rbp : BufferPool) (size : UInt32) : AllocResult → Option BufferPool
  | .ok =>
      if appendSize size = 0 then none
      else some ((rbp.newBuffer (appendSize size)).spliceSection rbp.mallocs (appendSize size))
  | _ => none

/-- `get_rdma_chunk_from_pool`. -/
def getRdmaChunkFromPool (rbp : BufferPool) (result : AllocResult) :
    Except CFault (Option ChunkPtr × BufferPool) :=
  if rbp.freeSize = 0 then
    match rbp.appendRdmaBufferPool rdmaBufferSize result with
    | none => .ok (none, rbp)
    | some rbp => rbp.takeChunk
  else rbp.takeChunk

/-- `get_rdma_chunk_list_from_pool`. -/
def getRdmaChunkListFromPool (rbp : BufferPool) (count : UInt32) (result : AllocResult) :
    Except CFault (Option ChunkPtr × BufferPool) :=
  if count = 0 then .ok (none, rbp)
  else if rbp.freeSize < count then
    match rbp.appendRdmaBufferPool (count - rbp.freeSize) result with
    | none => .ok (none, rbp)
    | some rbp => rbp.takeChunkList count
  else rbp.takeChunkList count

/-- `release_rdma_chunk_to_pool`. -/
def releaseRdmaChunkToPool (rbp : BufferPool) : Option ChunkPtr → BufferPool
  | none => rbp
  | some chunk => rbp.releaseSection chunk

/-- The number of chunks a call for `count` of them has `malloc` make room for; no call of `malloc`
if it is 0. -/
def request (rbp : BufferPool) (count : UInt32) : UInt32 :=
  if rbp.freeSize < count then appendSize (count - rbp.freeSize) else 0

/-- The single operation grows the pool by a different test and a different size, to the same
effect. -/
theorem getRdmaChunkFromPool_eq (rbp : BufferPool) (result : AllocResult) :
    rbp.getRdmaChunkFromPool result = rbp.getRdmaChunkListFromPool 1 result := by
  have hlt : rbp.freeSize < 1 ↔ rbp.freeSize = 0 := by
    rw [UInt32.lt_iff_toNat_lt, ← UInt32.toNat_inj, UInt32.toNat_one, UInt32.toNat_zero]
    omega
  have happend : rbp.freeSize = 0 → rbp.appendRdmaBufferPool (1 - rbp.freeSize) result
      = rbp.appendRdmaBufferPool rdmaBufferSize result := by
    intro hzero
    have hsize : appendSize (1 - rbp.freeSize) = appendSize rdmaBufferSize := by
      rw [hzero]
      decide
    cases result with
    | ok => rw [appendRdmaBufferPool, appendRdmaBufferPool, hsize]
    | mallocFails | regMrFails => rfl
  have hone : (1 : UInt32) ≠ 0 := by decide
  unfold getRdmaChunkFromPool getRdmaChunkListFromPool
  rw [if_neg hone]
  by_cases hzero : rbp.freeSize = 0
  · rw [if_pos hzero, if_pos (hlt.mpr hzero), happend hzero]
    simp only [takeChunk_eq]
  · rw [if_neg hzero, if_neg (mt hlt.mp hzero), takeChunk_eq]

end BufferPool

/-- A pool with the chunks its callers have taken and not released. -/
structure SequentialState where
  /-- The pool. -/
  pool : BufferPool
  /-- The chunks taken. -/
  held : List ChunkPtr

/-- The operations. -/
inductive SequentialAct
  /-- `get_rdma_chunk_from_pool`. -/
  | getChunk (result : AllocResult)
  /-- `get_rdma_chunk_list_from_pool`. -/
  | getChunkList (count : UInt32) (result : AllocResult)
  /-- `release_rdma_chunk_to_pool`. -/
  | release (chunk : Option ChunkPtr)

namespace SequentialState

/-- The caller of a get operation follows the links from the chunk it got. -/
def got (s : SequentialState) (count : UInt32) (out : Option ChunkPtr × BufferPool) :
    SequentialState :=
  ⟨out.2, s.held ++ cells out.2.next count.toNat out.1⟩

/-- `malloc` fails for a request that would bring the total to `2^32` chunks. -/
def MallocBounded (s : SequentialState) : SequentialAct → Prop
  | .getChunk result =>
      result = .ok → s.pool.totalSize.toNat + (s.pool.request 1).toNat < 2 ^ 32
  | .getChunkList count result =>
      result = .ok → s.pool.totalSize.toNat + (s.pool.request count).toNat < 2 ^ 32
  | .release _ => True

end SequentialState

/-- One operation. Only a chunk that was taken is released. -/
def sequentialStep (s : SequentialState) :
    SequentialAct → Option (Except CFault SequentialState)
  | .getChunk result => some ((s.pool.getRdmaChunkFromPool result).map (s.got 1))
  | .getChunkList count result =>
      some ((s.pool.getRdmaChunkListFromPool count result).map (s.got count))
  | .release none => some (.ok s)
  | .release (some chunk) =>
      if chunk ∈ s.held then
        some (.ok ⟨s.pool.releaseRdmaChunkToPool (some chunk), s.held.erase chunk⟩)
      else none

/-- The pool's operations in sequence, after a successful `init_rdma_buffer_pool`. -/
def sequentialPool : Machine SequentialState CFault SequentialAct where
  init := ⟨.init, []⟩
  step := sequentialStep

/-! ### A sequence of operations is a run of one thread -/

section Simulation

variable {s : PoolState Unit} {op : PoolOp} {size : UInt32}

/-- A thread that is back from a call goes on. -/
theorem reachable_resume {chunk : Option ChunkPtr} {failed : Bool}
    (hs : (bufferPool Unit).Reachable s) (hpc : s.pc () = .done op chunk failed) :
    ∃ s', (bufferPool Unit).Reachable s' ∧ s'.pc () = .idle ∧ s'.pool = s.pool ∧
      s'.held () = s.held () := by
  refine ⟨s.goto () .idle, hs.next (a := PoolAct.resume ()) trivial ?_, goto_pc .., rfl, rfl⟩
  simp [bufferPool, poolStep, hpc]

/-- A thread with a registered buffer splices it in. -/
theorem reachable_splice {buffer : ℕ} (hs : (bufferPool Unit).Reachable s)
    (hpc : s.pc () = .splice op buffer size) :
    ∃ s', (bufferPool Unit).Reachable s' ∧ s'.pc () = .take op ∧
      s'.pool = s.pool.spliceSection buffer size ∧ s'.held () = s.held () := by
  refine ⟨{ s.goto () (.take op) with pool := s.pool.spliceSection buffer size },
    hs.next (a := PoolAct.lockedSection ()) trivial ?_, goto_pc s () (.take op), rfl, rfl⟩
  simp [bufferPool, poolStep, hpc]

/-- A thread runs `append_rdma_buffer_pool`, and comes to its taking section or returns NULL. -/
theorem reachable_append (hs : (bufferPool Unit).Reachable s) (hpc : s.pc () = .append op size)
    (result : AllocResult) :
    ∃ s', (bufferPool Unit).Reachable s' ∧ s'.held () = s.held () ∧
      ((s.pool.appendRdmaBufferPool size result = none ∧ s'.pc () = .idle ∧ s'.pool = s.pool) ∨
        (s.pool.appendRdmaBufferPool size result = some s'.pool ∧ s'.pc () = .take op)) := by
  have hstep : (bufferPool Unit).step s (.alloc () result)
      = some (.ok (s.allocSection () op size result)) := by
    simp [bufferPool, poolStep, hpc]
  have hs₁ := hs.next (a := PoolAct.alloc () result) trivial hstep
  by_cases hok : result = .ok ∧ BufferPool.appendSize size ≠ 0
  · -- The buffer is registered, and spliced in under the lock.
    obtain ⟨rfl, hsize⟩ := hok
    rw [PoolState.allocSection, if_neg hsize] at hs₁
    obtain ⟨s', hs', hpc', hpool, hheld⟩ := reachable_splice hs₁ (goto_pc s () (.splice op _ _))
    rw [BufferPool.appendRdmaBufferPool, if_neg hsize]
    exact ⟨s', hs', hheld, .inr ⟨congrArg some hpool.symm, hpc'⟩⟩
  · -- A size of 0 is one that has wrapped, and fails like a `malloc` that does.
    have hfail : s.allocSection () op size result = s.goto () (.done op none true) ∧
        s.pool.appendRdmaBufferPool size result = none := by
      cases result with
      | ok =>
        have hzero : BufferPool.appendSize size = 0 := by simpa using hok
        exact ⟨if_pos hzero, if_pos hzero⟩
      | mallocFails | regMrFails => exact ⟨rfl, rfl⟩
    rw [hfail.1] at hs₁
    obtain ⟨s', hs', hpc', hpool, hheld⟩ := reachable_resume hs₁ (goto_pc ..)
    exact ⟨s', hs', hheld, .inl ⟨hfail.2, hpc', hpool⟩⟩

/-- What a caller finds behind the chunk it got are the chunks that were taken. -/
theorem cells_takeChunkList {rbp : BufferPool} {free : List ChunkPtr} {count : UInt32}
    (h : rbp.FreeChain free) (hnodup : free.Nodup) (hcount : count ≠ 0)
    {out : Option ChunkPtr × BufferPool} (hout : rbp.takeChunkList count = .ok out) :
    cells out.2.next count.toNat out.1
      = if out.1.isSome then cells rbp.next count.toNat rbp.freeList else [] := by
  obtain hle | hshort := le_or_gt count.toNat free.length
  · obtain ⟨first, rbp', htake, hchain, -⟩ := BufferPool.takeChunkList_of_le h hnodup hcount hle
    obtain rfl := Except.ok.inj (hout.symm.trans htake)
    rw [hchain.cells, List.take_take, min_self, h.chain.cells]
    rfl
  · obtain ⟨now, hsplit, -⟩ | ⟨-, htake⟩ | ⟨-, htake⟩ := BufferPool.takeChunkList_cases h hcount
    · have hlength := congrArg List.length hsplit
      simp only [List.length_append, List.length_take, List.length_cons, List.length_drop]
        at hlength
      omega
    · obtain rfl := Except.ok.inj (hout.symm.trans htake)
      cases count.toNat <;> rfl
    · cases hout.symm.trans htake

/-- A thread in its taking section takes its chunks, or returns NULL, and goes on. -/
theorem reachable_take (hs : (bufferPool Unit).Reachable s) (hpc : s.pc () = .take op)
    {out : Option ChunkPtr × BufferPool} (hout : s.pool.takeChunkList op.count = .ok out) :
    ∃ s', (bufferPool Unit).Reachable s' ∧ s'.pc () = .idle ∧ s'.pool = out.2 ∧
      s'.held () = s.held () ++ cells out.2.next op.count.toNat out.1 := by
  obtain ⟨free, hinv⟩ := poolInv_of_reachable hs
  have hcount := hinv.count_ne_zero hpc
  have hstep : (bufferPool Unit).step s (.lockedSection ()) = some (s.takeSection () op) := by
    simp [bufferPool, poolStep, hpc]
  rw [PoolInv.takeSection_eq hcount, hout, Except.map] at hstep
  have hs₁ := hs.next (a := PoolAct.lockedSection ()) trivial hstep
  obtain ⟨s', hs', hpc', hpool, hheld⟩ := reachable_resume hs₁ (goto_pc s () (.done op _ false))
  refine ⟨s', hs', hpc', hpool, hheld.trans ?_⟩
  rw [cells_takeChunkList hinv.free_chain (hinv.owned.nodup none) hcount hout]
  exact Function.update_self () (s.held () ++ _) s.held

/-- `get_rdma_chunk_list_from_pool`, called by the thread. -/
theorem reachable_getChunkList (hs : (bufferPool Unit).Reachable s) (hpc : s.pc () = .idle)
    (count : UInt32) (result : AllocResult) {out : Option ChunkPtr × BufferPool}
    (hout : s.pool.getRdmaChunkListFromPool count result = .ok out) :
    ∃ s', (bufferPool Unit).Reachable s' ∧ s'.pc () = .idle ∧ s'.pool = out.2 ∧
      s'.held () = s.held () ++ cells out.2.next count.toNat out.1 := by
  have hs := hs.next (a := PoolAct.call () (.getChunkList count)) trivial (by
    simp only [bufferPool, poolStep, hpc]
    exact if_pos trivial)
  have hs := hs.next (a := PoolAct.lockedSection ()) trivial (by
    simp only [bufferPool, poolStep, goto_pc]
    rfl)
  rw [PoolState.firstSection] at hs
  unfold BufferPool.getRdmaChunkListFromPool at hout
  split at hout
  · rw [if_pos ‹_›] at hs
    obtain rfl := Except.ok.inj hout
    obtain ⟨s', hs', hpc', hpool, hheld⟩ := reachable_resume hs (goto_pc ..)
    refine ⟨s', hs', hpc', hpool, hheld.trans ?_⟩
    cases count.toNat <;> exact (List.append_nil _).symm
  · rename_i hcount
    rw [if_neg hcount] at hs
    split at hout
    · -- the pool is too small: append first
      rw [if_pos ‹_›] at hs
      obtain ⟨s', hs', hheld, ⟨happend, hpc', hpool⟩ | ⟨happend, hpc'⟩⟩ :=
        reachable_append hs (goto_pc ..) result
      · change s.pool.appendRdmaBufferPool (count - s.pool.freeSize) result = none at happend
        rw [happend] at hout
        obtain rfl := Except.ok.inj hout
        refine ⟨s', hs', hpc', hpool, hheld.trans ?_⟩
        cases count.toNat <;> exact (List.append_nil _).symm
      · change s.pool.appendRdmaBufferPool (count - s.pool.freeSize) result
          = some s'.pool at happend
        rw [happend] at hout
        obtain ⟨s'', hs'', hpc'', hpool', hheld'⟩ := reachable_take hs' hpc' hout
        exact ⟨s'', hs'', hpc'', hpool', hheld' ▸ hheld ▸ rfl⟩
    · rw [if_neg ‹_›] at hs
      exact reachable_take hs (goto_pc ..) hout

/-- `release_rdma_chunk_to_pool`, called by the thread on a chunk it holds. -/
theorem reachable_release (hs : (bufferPool Unit).Reachable s) (hpc : s.pc () = .idle)
    {chunk : ChunkPtr} (hchunk : chunk ∈ s.held ()) :
    ∃ s', (bufferPool Unit).Reachable s' ∧ s'.pc () = .idle ∧
      s'.pool = s.pool.releaseSection chunk ∧ s'.held () = (s.held ()).erase chunk := by
  have hs := hs.next (a := PoolAct.call () (.release (some chunk))) trivial (by
    simp only [bufferPool, poolStep, hpc]
    exact if_pos hchunk)
  have hs := hs.next (a := PoolAct.lockedSection ()) trivial (by
    simp only [bufferPool, poolStep, goto_pc]
    rfl)
  obtain ⟨s', hs', hpc', hpool, hheld⟩ :=
    reachable_resume hs (goto_pc (s.goto () (.called (.release (some chunk)))) ()
      (.done (.release (some chunk)) none false))
  refine ⟨s', hs', hpc', hpool, hheld.trans ?_⟩
  exact Function.update_self () ((s.held ()).erase chunk) s.held

end Simulation

/-- What an operation does: it is a list operation, it does nothing, or it releases a chunk. -/
theorem sequentialStep_cases {s s' : SequentialState} {a : SequentialAct}
    (hstep : sequentialStep s a = some (.ok s')) :
    (∃ count result out, s.pool.getRdmaChunkListFromPool count result = .ok out ∧
        s' = s.got count out ∧ (s.MallocBounded a → s.MallocBounded (.getChunkList count result))) ∨
      s' = s ∨ ∃ chunk ∈ s.held, s' = ⟨s.pool.releaseSection chunk, s.held.erase chunk⟩ := by
  have hget : ∀ count result, (s.pool.getRdmaChunkListFromPool count result).map (s.got count)
      = .ok s' → ∃ out, s.pool.getRdmaChunkListFromPool count result = .ok out ∧
        s' = s.got count out := by
    intro count result hmap
    cases hout : s.pool.getRdmaChunkListFromPool count result with
    | error e => simp [hout, Except.map] at hmap
    | ok out =>
      rw [hout] at hmap
      exact ⟨out, rfl, (Except.ok.inj hmap).symm⟩
  cases a with
  | getChunk result =>
    have hmap := Option.some.inj hstep
    rw [BufferPool.getRdmaChunkFromPool_eq] at hmap
    obtain ⟨out, hout, hs'⟩ := hget 1 result hmap
    exact .inl ⟨1, result, out, hout, hs', id⟩
  | getChunkList count result =>
    obtain ⟨out, hout, hs'⟩ := hget count result (Option.some.inj hstep)
    exact .inl ⟨count, result, out, hout, hs', id⟩
  | release chunk =>
    cases chunk with
    | none => exact .inr (.inl (Except.ok.inj (Option.some.inj hstep)).symm)
    | some chunk =>
      simp only [sequentialStep] at hstep
      split at hstep
      · rename_i hchunk
        exact .inr (.inr ⟨chunk, hchunk, (Except.ok.inj (Option.some.inj hstep)).symm⟩)
      · cases hstep

/-- **A sequence of operations is a run of one thread** of the interleaved machine. -/
theorem sequential_simulated {P : SequentialState → SequentialAct → Prop} {s : SequentialState}
    (hs : sequentialPool.ReachableUnder P s) :
    ∃ t : PoolState Unit, (bufferPool Unit).Reachable t ∧ t.pc () = .idle ∧ t.pool = s.pool ∧
      t.held () = s.held := by
  induction hs with
  | init => exact ⟨_, .init, rfl, rfl, rfl⟩
  | next _ _ hstep ih =>
    obtain ⟨t, ht, hpc, hpool, hheld⟩ := ih
    obtain ⟨count, result, out, hout, rfl, -⟩ | rfl | ⟨chunk, hchunk, rfl⟩ :=
      sequentialStep_cases hstep
    · obtain ⟨t', ht', hpc', hpool', hheld'⟩ :=
        reachable_getChunkList ht hpc count result (hpool ▸ hout)
      exact ⟨t', ht', hpc', hpool', hheld'.trans (congrArg (· ++ _) hheld)⟩
    · exact ⟨t, ht, hpc, hpool, hheld⟩
    · rw [← hheld] at hchunk
      obtain ⟨t', ht', hpc', hpool', hheld'⟩ := reachable_release ht hpc hchunk
      exact ⟨t', ht', hpc', hpool'.trans (congrArg (·.releaseSection chunk) hpool),
        hheld'.trans (congrArg (·.erase chunk) hheld)⟩

/-! ### Growing -/

namespace BufferPool

variable {rbp : BufferPool} {free : List ChunkPtr} {count : UInt32} {result : AllocResult}

/-- The number of chunks a get operation for `count` of them must add: the least multiple of
`RDMA_BUFFER_SIZE` that covers the shortage. -/
def growth (rbp : BufferPool) (count : UInt32) : ℕ :=
  blockCount rdmaBufferSize.toNat (count.toNat - rbp.freeSize.toNat) * rdmaBufferSize.toNat

/-- `growth` is the least multiple of `RDMA_BUFFER_SIZE` that covers the shortage. -/
theorem isLeast_growth (rbp : BufferPool) (count : UInt32) :
    IsLeast {m | rdmaBufferSize.toNat ∣ m ∧ count.toNat - rbp.freeSize.toNat ≤ m}
      (rbp.growth count) :=
  isLeast_blockCount_mul (by decide) _

/-- `growth` is at most `2^32`. -/
theorem growth_le : rbp.growth count ≤ 2 ^ 32 := by
  refine (isLeast_growth rbp count).2 ⟨⟨2 ^ 20, rfl⟩, ?_⟩
  have := count.toNat_lt
  omega

/-- Nothing is added where there is no shortage. -/
theorem growth_eq_zero (h : ¬ rbp.freeSize < count) : rbp.growth count = 0 := by
  rw [UInt32.lt_iff_toNat_lt] at h
  rw [growth, Nat.sub_eq_zero_of_le (by omega), blockCount_zero, Nat.zero_mul]

/-- The size `append_rdma_buffer_pool` rounds to, as a number: its product is taken modulo
`2^32`. -/
theorem toNat_appendSize (size : UInt32) : (appendSize size).toNat
    = blockCount rdmaBufferSize.toNat size.toNat * rdmaBufferSize.toNat % 2 ^ 32 := by
  have hlt := size.toNat_lt
  have hsize : rdmaBufferSize.toNat = 4096 := rfl
  have hmod : size % rdmaBufferSize = 0 ↔ size.toNat % 4096 = 0 := by
    rw [← UInt32.toNat_inj, UInt32.toNat_mod, hsize]
    rfl
  rw [appendSize, blockCount, UInt32.toNat_mul, UInt32.toNat_add, UInt32.toNat_div, hsize]
  by_cases h : size.toNat % 4096 = 0
  · rw [if_pos h, if_pos (hmod.mpr h), UInt32.toNat_zero]
    omega
  · rw [if_neg h, if_neg (mt hmod.mp h), UInt32.toNat_one]
    omega

/-- What `malloc` is asked for is `growth`, unless that is `2^32`: then it wraps to 0. -/
theorem toNat_request (rbp : BufferPool) (count : UInt32) :
    (rbp.request count).toNat = rbp.growth count % 2 ^ 32 := by
  rw [request]
  split
  · rename_i hlt
    have hle := UInt32.le_iff_toNat_le.mpr (UInt32.lt_iff_toNat_lt.mp hlt).le
    rw [toNat_appendSize, UInt32.toNat_sub_of_le _ _ hle, growth]
  · rename_i hlt
    rw [growth_eq_zero hlt]
    rfl

/-- The list operation returns NULL and does nothing: it is asked for nothing, or it must grow the
pool and cannot. -/
def Refused (rbp : BufferPool) (count : UInt32) (result : AllocResult) : Prop :=
  count = 0 ∨ rbp.freeSize < count ∧
    (result ≠ .ok ∨ 2 ^ 32 ≤ rbp.totalSize.toNat + rbp.growth count)

/-- The free list, extended by what must be added for `count` chunks. -/
def extended (rbp : BufferPool) (free : List ChunkPtr) (count : UInt32) : List ChunkPtr :=
  bufferChunks rbp.mallocs (rbp.growth count) ++ free

end BufferPool

/-- A get operation for `count` chunks has returned `first` and left `rbp'`, starting from `rbp`
with the chunks `free` on its free list. -/
structure Got (rbp : BufferPool) (free : List ChunkPtr) (count : UInt32) (first : ChunkPtr)
    (rbp' : BufferPool) : Prop where
  /-- A NULL-terminated chain of the first chunks of the extended free list is returned. -/
  taken : Chain rbp'.next (some first) ((rbp.extended free count).take count.toNat)
  /-- There are `count` of them. -/
  length : ((rbp.extended free count).take count.toNat).length = count.toNat
  /-- No chunk is twice on the extended free list. -/
  nodup : (rbp.extended free count).Nodup
  /-- The others are left as the free list. -/
  rest : Chain rbp'.next rbp'.freeList ((rbp.extended free count).drop count.toNat)
  /-- `free_size` is their number. -/
  free_size : rbp'.freeSize.toNat = ((rbp.extended free count).drop count.toNat).length
  /-- `total_size` has grown by what was added. -/
  total_size : rbp'.totalSize.toNat = rbp.totalSize.toNat + rbp.growth count
  /-- What was added is one new buffer, if anything. -/
  link_head : rbp'.linkHead = if rbp.growth count = 0 then rbp.linkHead
    else ⟨rbp.mallocs, ⟨rbp.mallocs, UInt32.ofNat (rbp.growth count)⟩⟩ :: rbp.linkHead

/-! ### What the operations do -/

namespace BufferPool

variable {rbp : BufferPool} {free : List ChunkPtr} {count : UInt32} {result : AllocResult}

/-- **A refused call does nothing.** -/
theorem getRdmaChunkListFromPool_of_refused (h : rbp.Refused count result)
    (hbound : result = .ok → rbp.totalSize.toNat + (rbp.request count).toNat < 2 ^ 32) :
    rbp.getRdmaChunkListFromPool count result = .ok (none, rbp) := by
  rcases h with rfl | ⟨hlt, hfail⟩
  · exact if_pos rfl
  · have hcount : count ≠ 0 := by
      rintro rfl
      simp [UInt32.lt_iff_toNat_lt] at hlt
    have happend : rbp.appendRdmaBufferPool (count - rbp.freeSize) result = none := by
      cases result with
      | ok =>
        -- the sum has reached `2^32` although the request kept below: the request has wrapped
        have hwrap := hbound rfl
        have hge := hfail.resolve_left (not_not.mpr rfl)
        have hle : rbp.growth count ≤ 2 ^ 32 := growth_le
        have hzero : rbp.request count = 0 := by
          rw [← UInt32.toNat_inj, UInt32.toNat_zero]
          rw [toNat_request] at hwrap ⊢
          omega
        rw [request, if_pos hlt] at hzero
        rw [appendRdmaBufferPool, if_pos hzero]
      | mallocFails | regMrFails => rfl
    rw [getRdmaChunkListFromPool, if_neg hcount, if_pos hlt, happend]

/-- A call that is not refused grows the pool, if it must, and comes to its taking section with
enough chunks. -/
theorem getRdmaChunkListFromPool_of_not_refused (hchain : rbp.FreeChain free)
    (hfree : ∀ c ∈ free, c.buffer ≠ rbp.mallocs) (hreg : rbp.Registered)
    (h : ¬ rbp.Refused count result) :
    ∃ grown : BufferPool, rbp.getRdmaChunkListFromPool count result = grown.takeChunkList count ∧
      grown.FreeChain (rbp.extended free count) ∧
      grown.totalSize.toNat = rbp.totalSize.toNat + rbp.growth count ∧
      grown.linkHead = if rbp.growth count = 0 then rbp.linkHead
        else ⟨rbp.mallocs, ⟨rbp.mallocs, UInt32.ofNat (rbp.growth count)⟩⟩ :: rbp.linkHead := by
  have hcount : count ≠ 0 := fun hzero => h (.inl hzero)
  rw [getRdmaChunkListFromPool, if_neg hcount, extended]
  by_cases hlt : rbp.freeSize < count
  · have hok : result = .ok ∧ rbp.totalSize.toNat + rbp.growth count < 2 ^ 32 := by
      have hgrow : ¬ (result ≠ .ok ∨ 2 ^ 32 ≤ rbp.totalSize.toNat + rbp.growth count) :=
        fun hfail => h (.inr ⟨hlt, hfail⟩)
      rwa [not_or, not_not, not_le] at hgrow
    obtain ⟨rfl, hsum⟩ := hok
    have hsize : (appendSize (count - rbp.freeSize)).toNat = rbp.growth count := by
      have hrequest := toNat_request rbp count
      rw [request, if_pos hlt, Nat.mod_eq_of_lt (by omega)] at hrequest
      exact hrequest
    have hpos : 0 < (appendSize (count - rbp.freeSize)).toNat := by
      have hcover := (isLeast_growth rbp count).1.2
      have := UInt32.lt_iff_toNat_lt.mp hlt
      omega
    have hne : appendSize (count - rbp.freeSize) ≠ 0 := by
      rintro hzero
      rw [hzero] at hpos
      exact absurd hpos (by decide)
    -- The new buffer comes to the front of the free list.
    have hspliced := (hchain.newBuffer hpos hfree).spliceSection (fresh_newBuffer hreg hpos) hfree
    rw [if_pos hlt, appendRdmaBufferPool, if_neg hne]
    refine ⟨_, rfl, hsize ▸ hspliced, ?_, ?_⟩
    · rw [newBuffer_eq _ hpos]
      change (rbp.totalSize + appendSize (count - rbp.freeSize)).toNat = _
      rw [UInt32.toNat_add, hsize, Nat.mod_eq_of_lt hsum]
    · rw [newBuffer_eq _ hpos, if_neg (by omega), ← hsize, UInt32.ofNat_toNat]
      rfl
  · rw [if_neg hlt, growth_eq_zero hlt]
    exact ⟨rbp, rfl, hchain, rfl, rfl⟩

/-- **A call that is not refused gets its chunks.** -/
theorem got_of_not_refused {T : Type} {s : PoolState T} (h : PoolInv s free)
    (hlt : s.pool.appendedSize < 2 ^ 32) (hok : ¬ s.pool.Refused count result) :
    ∃ first rbp', s.pool.getRdmaChunkListFromPool count result = .ok (some first, rbp') ∧
      Got s.pool free count first rbp' := by
  have hfree : ∀ c ∈ free, c.buffer ≠ s.pool.mallocs := fun c hc =>
    h.registered.buffer_ne (h.appended_of_free hc)
  have hcount : count ≠ 0 := fun hzero => hok (.inl hzero)
  have hnodup : (s.pool.extended free count).Nodup := by
    refine (nodup_bufferChunks ..).append (h.owned.nodup none) fun c hc hc' => ?_
    exact hfree c hc' (mem_bufferChunks.mp hc).1
  have hlength : (s.pool.extended free count).length = s.pool.growth count + free.length := by
    rw [extended, List.length_append, length_bufferChunks]
  have hle : count.toNat ≤ (s.pool.extended free count).length := by
    have hcover := (isLeast_growth s.pool count).1.2
    have hsize := h.toNat_freeSize hlt
    omega
  obtain ⟨grown, hget, hchain, htotal, hlink⟩ :=
    getRdmaChunkListFromPool_of_not_refused h.free_chain hfree h.registered hok
  obtain ⟨first, rbp', htake, htaken, hrest, hlink', htotal'⟩ :=
    takeChunkList_of_le hchain hnodup hcount hle
  refine ⟨first, rbp', hget.trans htake, htaken, ?_, hnodup, hrest.chain, ?_, ?_, ?_⟩
  · rw [List.length_take, min_eq_left hle]
  · -- `free_size` is at most `total_size`, which has not wrapped.
    have hbound := grown.totalSize.toNat_lt
    have hfree' := h.length_free_le
    have hsum := h.registered.toNat_totalSize hlt
    rw [hrest.size, UInt32.toNat_ofNat', Nat.mod_eq_of_lt]
    rw [List.length_drop]
    omega
  · rw [htotal', htotal]
  · rw [hlink', hlink]

end BufferPool

/-! ### Any sequence of operations -/

/-- The number of chunks after a call that got its chunks. -/
theorem Got.appendedSize {rbp rbp' : BufferPool} {free : List ChunkPtr} {count : UInt32}
    {first : ChunkPtr} (h : Got rbp free count first rbp') (hreg : rbp.Registered)
    (hlt : rbp.appendedSize < 2 ^ 32) : rbp'.appendedSize = rbp'.totalSize.toNat := by
  have hbound := rbp'.totalSize.toNat_lt
  have htotal := h.total_size
  rw [hreg.toNat_totalSize hlt] at htotal
  rw [htotal, BufferPool.appendedSize, h.link_head]
  split
  · rename_i hzero
    rw [hzero]
    rfl
  · rw [List.map_cons, List.sum_cons, UInt32.toNat_ofNat', Nat.mod_eq_of_lt (by omega), add_comm]
    rfl

/-- The caller finds `count` chunks behind the one it is given. -/
theorem Got.length_cells {rbp rbp' : BufferPool} {free : List ChunkPtr} {count : UInt32}
    {first : ChunkPtr} (h : Got rbp free count first rbp') :
    (cells rbp'.next count.toNat (some first)).length = count.toNat := by
  rw [h.taken.cells, List.take_take, min_self, h.length]

/-- The chunks appended stay countable: `malloc` has made room for all of them. -/
theorem appendedSize_lt {s : SequentialState}
    (hs : sequentialPool.ReachableUnder SequentialState.MallocBounded s) :
    s.pool.appendedSize < 2 ^ 32 := by
  induction hs with
  | init =>
    rw [sequentialPool, BufferPool.appendedSize_init]
    omega
  | @next s s' a hs hP hstep ih =>
    obtain ⟨t, ht, -, hpool, -⟩ := sequential_simulated hs
    obtain ⟨free, hinv⟩ := poolInv_of_reachable ht
    obtain ⟨count, result, out, hout, rfl, hbounded⟩ | rfl | ⟨chunk, -, rfl⟩ :=
      sequentialStep_cases hstep
    · rw [← hpool] at ih hout
      by_cases hrefused : t.pool.Refused count result
      · rw [BufferPool.getRdmaChunkListFromPool_of_refused hrefused (hpool ▸ hbounded hP)] at hout
        obtain rfl := Except.ok.inj hout
        exact ih
      · -- `total_size` has not wrapped, and counts the chunks.
        obtain ⟨first, rbp', hout', hgot⟩ := BufferPool.got_of_not_refused hinv ih hrefused
        obtain rfl := Except.ok.inj (hout.symm.trans hout')
        have hsize := hgot.appendedSize hinv.registered ih
        have hbound := rbp'.totalSize.toNat_lt
        change rbp'.appendedSize < 2 ^ 32
        omega
    · exact ih
    · exact ih

/-- What the operations do on a pool with the chunks `free` on its free list. -/
structure SequentialSpec (s : SequentialState) (free : List ChunkPtr) : Prop where
  /-- The free list. -/
  chain : Chain s.pool.next s.pool.freeList free
  /-- It has no repetition. -/
  nodup : free.Nodup
  /-- `free_size` is its length. -/
  free_size : s.pool.freeSize.toNat = free.length
  /-- A refused list operation returns NULL and leaves the pool as it is. -/
  refused : ∀ count result, s.MallocBounded (.getChunkList count result) →
    s.pool.Refused count result →
    s.pool.getRdmaChunkListFromPool count result = .ok (none, s.pool)
  /-- Any other gets its chunks. -/
  got : ∀ count result, ¬ s.pool.Refused count result →
    ∃ first rbp', s.pool.getRdmaChunkListFromPool count result = .ok (some first, rbp') ∧
      Got s.pool free count first rbp'
  /-- What the pool grows by is the least multiple of `RDMA_BUFFER_SIZE` that covers the
  shortage. -/
  growth : ∀ count : UInt32, IsLeast
    {m | rdmaBufferSize.toNat ∣ m ∧ count.toNat - free.length ≤ m} (s.pool.growth count)
  /-- The single operation is a list operation for one chunk. -/
  single : ∀ result,
    s.pool.getRdmaChunkFromPool result = s.pool.getRdmaChunkListFromPool 1 result
  /-- A chunk that is released comes to the front of the free list. -/
  released : ∀ chunk ∈ s.held,
    (s.pool.releaseRdmaChunkToPool (some chunk)).FreeChain (chunk :: free)
  /-- When every chunk taken has been released, all chunks are free. -/
  all_free : s.held = [] → s.pool.freeSize = s.pool.totalSize ∧ free.Perm s.pool.linkedChunks

/-- **The operations meet their specification** after any sequence of operations on a pool that
`init_rdma_buffer_pool` has set up, whatever `malloc` and `ibv_reg_mr` answer, if `malloc` fails for
the requests that would bring the total to `2^32` chunks. -/
theorem sequential_spec {s : SequentialState}
    (hs : sequentialPool.ReachableUnder SequentialState.MallocBounded s) :
    ∃ free, SequentialSpec s free := by
  obtain ⟨t, ht, -, hpool, hheld⟩ := sequential_simulated hs
  obtain ⟨free, h⟩ := poolInv_of_reachable ht
  have hlt := appendedSize_lt hs
  rw [← hpool] at hlt
  have hsize := h.toNat_freeSize hlt
  refine ⟨free, ?_⟩
  constructor
  · exact hpool ▸ h.free_chain.chain
  · exact h.owned.nodup none
  · exact hpool ▸ hsize
  · exact fun count result hbound hrefused =>
      BufferPool.getRdmaChunkListFromPool_of_refused hrefused hbound
  · exact fun count result hok => hpool ▸ BufferPool.got_of_not_refused h hlt (hpool ▸ hok)
  · intro count
    rw [← hsize, hpool]
    exact BufferPool.isLeast_growth s.pool count
  · exact BufferPool.getRdmaChunkFromPool_eq s.pool
  · intro chunk hchunk
    rw [← hheld] at hchunk
    exact hpool ▸ h.free_chain.releaseSection (h.not_free_of_held hchunk)
  · intro hempty
    -- the only place left for a chunk of the pool is the free list
    have hperm : free.Perm t.pool.linkedChunks := by
      refine (List.perm_ext_iff_of_nodup (h.owned.nodup none) h.registered.nodup_linkedChunks).mpr
        fun c => ⟨fun hc => ?_, fun hc => ?_⟩
      · exact BufferPool.mem_linkedChunks.mpr (h.appended_of_free hc)
      · obtain ⟨place, hplace⟩ := (h.owned.cover c).mp (BufferPool.mem_linkedChunks.mp hc)
        cases place with
        | none => exact hplace
        | some u =>
          rw [PoolState.place, hheld, hempty] at hplace
          exact (List.not_mem_nil hplace).elim
    rw [← hpool]
    refine ⟨UInt32.toNat_inj.mp ?_, hperm⟩
    rw [hsize, h.registered.toNat_totalSize hlt, hperm.length_eq, BufferPool.length_linkedChunks]

/-- A call for more chunks than a new pool has makes it grow, and the first of the chunks is
released. -/
theorem sequential_spec_grown : ∃ s : SequentialState,
    sequentialPool.ReachableUnder SequentialState.MallocBounded s ∧
      s.pool.totalSize.toNat = 8192 ∧ s.held.length = 4999 ∧ s.pool.freeSize = 3193 ∧
      ∃ free, SequentialSpec s free := by
  have hinit := Machine.ReachableUnder.init (M := sequentialPool)
    (P := SequentialState.MallocBounded)
  have hpool : sequentialPool.init.pool = BufferPool.init := rfl
  obtain ⟨free, h⟩ := sequential_spec hinit
  have hfree : free.length = 4096 := by
    rw [← h.free_size, hpool, BufferPool.freeSize_init]
    rfl
  have htotal : sequentialPool.init.pool.totalSize = 4096 := by
    rw [hpool, BufferPool.totalSize_init]
  have hgrowth : sequentialPool.init.pool.growth 5000 = 4096 := by
    rw [BufferPool.growth, h.free_size, hfree]
    decide
  have hrefused : ¬ sequentialPool.init.pool.Refused 5000 .ok := by
    rw [BufferPool.Refused, htotal, hgrowth]
    simp
  obtain ⟨first, rbp, hget, hgot⟩ := h.got 5000 .ok hrefused
  obtain ⟨s, hs, rfl, hheld⟩ : ∃ s, sequentialPool.ReachableUnder SequentialState.MallocBounded s ∧
      s.pool = rbp ∧ s.held = cells rbp.next (5000 : UInt32).toNat (some first) := by
    have hstep : sequentialPool.step sequentialPool.init (.getChunkList 5000 .ok)
        = some (.ok (sequentialPool.init.got 5000 (some first, rbp))) := by
      show some (Except.map _ _) = _
      rw [hget]
      rfl
    refine ⟨_, hinit.next (a := .getChunkList 5000 .ok) (fun _ => ?_) hstep, rfl,
      List.nil_append _⟩
    rw [BufferPool.toNat_request, htotal, hgrowth]
    decide
  have hlength : s.held.length = (5000 : UInt32).toNat := hheld ▸ hgot.length_cells
  have hmem : first ∈ s.held := by
    rw [hheld, show (5000 : UInt32).toNat = 4999 + 1 from rfl, cells]
    exact List.mem_cons_self
  have hs := hs.next (a := SequentialAct.release (some first)) trivial (if_pos hmem)
  refine ⟨_, hs, ?_, ?_, ?_, sequential_spec hs⟩
  · refine hgot.total_size.trans ?_
    rw [htotal, hgrowth]
    rfl
  · rw [List.length_erase_of_mem hmem, hlength]
    rfl
  · show s.pool.freeSize + 1 = 3193
    have hsize := hgot.free_size
    rw [BufferPool.extended, List.length_drop, List.length_append, BufferPool.length_bufferChunks,
      hgrowth, hfree] at hsize
    rw [show s.pool.freeSize = 3192 from UInt32.toNat_inj.mp hsize]
    rfl

end SparkRdma
