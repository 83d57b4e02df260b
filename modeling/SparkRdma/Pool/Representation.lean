import SparkRdma.Foundations.Ownership
import SparkRdma.Pool.BufferPool
import Mathlib.Algebra.BigOperators.Group.List.Basic
import Mathlib.Algebra.Ring.Nat

/-! # What the pool's fields represent

The representation invariant of the buffer pool, kept by every step of every thread: whatever the
interleaving, and whatever `malloc` and `ibv_reg_mr` answer.

* **`FreeChain rbp free`** — the free list is the chain of the chunks `free`, and `free_size` their
  number.
* **`Registered rbp`** — each buffer is linked once, and its chunks know its region.
* **`Fresh rbp buffer size`** — a buffer between its registration and its splice.
* **`PoolInv s free`** — all of it, and the chunks of the linked buffers are partitioned among the
  free list and the threads.
* **`poolInv_of_reachable`** — it holds in every reachable state. -/

namespace SparkRdma

open Interleaving LinkedList Ownership

namespace BufferPool

variable {rbp : BufferPool} {free : List ChunkPtr} {buffer : ℕ} {size count : UInt32}

/-- The chunks of the buffers linked at `link_head`. -/
def appended (rbp : BufferPool) : Set ChunkPtr :=
  {c | ∃ node ∈ rbp.linkHead, c.buffer = node.buffer ∧ c.index < node.mr.size.toNat}

/-- The free list consists of the chunks `free`, in order. -/
structure FreeChain (rbp : BufferPool) (free : List ChunkPtr) : Prop where
  /-- They hang off `free_list`. -/
  chain : Chain rbp.next rbp.freeList free
  /-- `free_size` is their number. -/
  size : rbp.freeSize = UInt32.ofNat free.length

/-- The buffers are accounted for. -/
structure Registered (rbp : BufferPool) : Prop where
  /-- `total_size` is the number of chunks of the linked buffers. -/
  total : rbp.totalSize = UInt32.ofNat (rbp.linkHead.map (·.mr.size.toNat)).sum
  /-- No buffer is linked twice. -/
  distinct : (rbp.linkHead.map LinkNode.buffer).Nodup
  /-- Linked buffers were allocated. -/
  allocated : ∀ node ∈ rbp.linkHead, node.buffer < rbp.mallocs
  /-- The chunks of a buffer carry the region registered for it. -/
  region : ∀ node ∈ rbp.linkHead, node.mr.buffer = node.buffer ∧
    ∀ i, i < node.mr.size.toNat → rbp.mr ⟨node.buffer, i⟩ = some node.mr

/-- A buffer of `size` chunks that is linked up inside and registered, but not yet spliced in. -/
structure Fresh (rbp : BufferPool) (buffer : ℕ) (size : UInt32) : Prop where
  /-- It was allocated. -/
  allocated : buffer < rbp.mallocs
  /-- It is not on `link_head`. -/
  unlinked : ∀ node ∈ rbp.linkHead, node.buffer ≠ buffer
  /-- It is not empty. -/
  pos : 0 < size.toNat
  /-- Each chunk points to the next one. -/
  link : ∀ i, i + 1 < size.toNat → rbp.next ⟨buffer, i⟩ = some ⟨buffer, i + 1⟩
  /-- Each chunk carries the buffer's region. -/
  region : ∀ i, i < size.toNat → rbp.mr ⟨buffer, i⟩ = some ⟨buffer, size⟩

/-! ### Appending a buffer -/

/-- From any index on, the loop takes the turns that are left, if the index stays an `int`. -/
theorem linkLoop_from {buffer : ℕ} {mr : MemoryRegion} (left : ℕ) :
    ∀ (i : ℕ) (rbp : BufferPool), i + left < 2 ^ 31 →
      linkLoop buffer mr left i rbp =
        some ((List.range' i left).foldl (linkChunk buffer mr) rbp) := by
  induction left with
  | zero =>
    intro i rbp _
    rw [linkLoop, List.range'_zero, List.foldl_nil]
  | succ left ih =>
    intro i rbp hint
    rw [linkLoop, if_pos (by omega), ih (i + 1) _ (by omega), List.range'_succ, List.foldl_cons]

/-- **The loop is the one of `newBuffer`** for buffers of at most `2 ^ 31` chunks. -/
theorem linkLoop_eq (rbp : BufferPool) {size : UInt32} (hsize : size.toNat ≤ 2 ^ 31) :
    linkLoop rbp.mallocs ⟨rbp.mallocs, size⟩ (size.toNat - 1) 0 rbp =
      some ((List.range (size.toNat - 1)).foldl (linkChunk rbp.mallocs ⟨rbp.mallocs, size⟩)
        rbp) := by
  rw [linkLoop_from _ 0 rbp (by omega), List.range_eq_range']

/-- On a buffer of more than `2 ^ 31` chunks the index of the loop overflows. -/
theorem linkLoop_overflows {buffer : ℕ} {mr : MemoryRegion} (left : ℕ) :
    ∀ (i : ℕ) (rbp : BufferPool), i < 2 ^ 31 → 2 ^ 31 ≤ i + left →
      linkLoop buffer mr left i rbp = none := by
  induction left with
  | zero =>
    intro i rbp hint hover
    omega
  | succ left ih =>
    intro i rbp hint hover
    rw [linkLoop]
    split
    · exact ih (i + 1) _ ‹_› (by omega)
    · rfl

/-- What the linking loop has written after `n` turns. -/
theorem foldl_linkChunk (buffer : ℕ) (mr : MemoryRegion) (rbp : BufferPool) (n : ℕ) :
    (List.range n).foldl (linkChunk buffer mr) rbp = { rbp with
      mr := fun c => if c.buffer = buffer ∧ c.index < n then some mr else rbp.mr c
      next := fun c =>
        if c.buffer = buffer ∧ c.index < n then some ⟨buffer, c.index + 1⟩ else rbp.next c } := by
  induction n with
  | zero => simp
  | succ n ih =>
    rw [List.range_succ, List.foldl_append, ih]
    simp only [List.foldl_cons, List.foldl_nil, linkChunk]
    congr 1 <;>
    · funext c
      obtain ⟨b, i⟩ := c
      by_cases hi : b = buffer ∧ i = n
      · obtain ⟨rfl, rfl⟩ := hi
        simp
      · have hne : (⟨b, i⟩ : ChunkPtr) ≠ ⟨buffer, n⟩ := by simpa using hi
        have hiff : (b = buffer ∧ i < n) ↔ (b = buffer ∧ i < n + 1) := by omega
        simp [Function.update_of_ne hne, hiff]

/-- The registered buffer: what `append_rdma_buffer_pool` has written before it locks. -/
theorem newBuffer_eq (rbp : BufferPool) (hpos : 0 < size.toNat) :
    rbp.newBuffer size = { rbp with
      mr := fun c => if c.buffer = rbp.mallocs ∧ c.index < size.toNat then
        some ⟨rbp.mallocs, size⟩ else rbp.mr c
      next := fun c => if c.buffer = rbp.mallocs ∧ c.index + 1 < size.toNat then
        some ⟨rbp.mallocs, c.index + 1⟩ else rbp.next c
      mallocs := rbp.mallocs + 1 } := by
  simp only [newBuffer, foldl_linkChunk]
  congr 1
  · funext c
    obtain ⟨b, i⟩ := c
    have hiff : (b = rbp.mallocs ∧ i < size.toNat - 1) ↔
        (b = rbp.mallocs ∧ i + 1 < size.toNat) := by
      omega
    simp only [hiff]
  · funext c
    obtain ⟨b, i⟩ := c
    by_cases hi : b = rbp.mallocs ∧ i = size.toNat - 1
    · obtain ⟨rfl, rfl⟩ := hi
      rw [Function.update_self, if_pos ⟨rfl, by simp only; omega⟩]
    · have hne : (⟨b, i⟩ : ChunkPtr) ≠ ⟨rbp.mallocs, size.toNat - 1⟩ := by simpa using hi
      have hiff : (b = rbp.mallocs ∧ i < size.toNat - 1) ↔ (b = rbp.mallocs ∧ i < size.toNat) := by
        omega
      simp [Function.update_of_ne hne, hiff]

/-- The chunks of a buffer, in order. -/
def bufferChunks (buffer : ℕ) (n : ℕ) : List ChunkPtr := (List.range' 0 n).map (ChunkPtr.mk buffer)

@[simp] theorem mem_bufferChunks {n : ℕ} {c : ChunkPtr} :
    c ∈ bufferChunks buffer n ↔ c.buffer = buffer ∧ c.index < n := by
  obtain ⟨b, i⟩ := c
  simp only [bufferChunks, ← List.range_eq_range', List.mem_map, List.mem_range, ChunkPtr.mk.injEq]
  constructor
  · rintro ⟨j, hj, rfl, rfl⟩
    exact ⟨rfl, hj⟩
  · rintro ⟨rfl, hi⟩
    exact ⟨i, hi, rfl, rfl⟩

@[simp] theorem length_bufferChunks (buffer n : ℕ) : (bufferChunks buffer n).length = n := by
  simp [bufferChunks]

theorem nodup_bufferChunks (buffer n : ℕ) : (bufferChunks buffer n).Nodup :=
  (List.nodup_range' ..).map fun _ _ h => (ChunkPtr.mk.inj h).2

/-- Consecutive chunks of a buffer, each pointing to the next one, are a segment. -/
theorem segment_bufferChunks {next : ChunkPtr → Option ChunkPtr} {q : Option ChunkPtr} {n : ℕ}
    (hpos : 0 < n) (hlink : ∀ i, i + 1 < n → next ⟨buffer, i⟩ = some ⟨buffer, i + 1⟩)
    (hlast : next ⟨buffer, n - 1⟩ = q) :
    Segment next (some ⟨buffer, 0⟩) (bufferChunks buffer n) q := by
  have hfrom : ∀ m i, i + m = n → 0 < m →
      Segment next (some ⟨buffer, i⟩) ((List.range' i m).map (ChunkPtr.mk buffer)) q := by
    intro m
    induction m with
    | zero => omega
    | succ m ih =>
      intro i hi _
      rw [List.range'_succ, List.map_cons]
      refine ⟨rfl, ?_⟩
      rcases Nat.eq_zero_or_pos m with rfl | hm
      · obtain rfl : i = n - 1 := by omega
        simpa using hlast
      · rw [hlink i (by omega)]
        exact ih (i + 1) (by omega) hm
  exact hfrom n 0 (by omega) hpos

/-- The chunks of the pool lie in buffers allocated before the next one. -/
theorem Registered.buffer_ne (h : rbp.Registered) {c : ChunkPtr} (hc : c ∈ rbp.appended) :
    c.buffer ≠ rbp.mallocs := by
  obtain ⟨node, hnode, hbuffer, -⟩ := hc
  exact hbuffer ▸ (h.allocated node hnode).ne

/-- The new buffer is fresh. -/
theorem fresh_newBuffer (h : rbp.Registered) (hpos : 0 < size.toNat) :
    (rbp.newBuffer size).Fresh rbp.mallocs size := by
  rw [newBuffer_eq rbp hpos]
  refine ⟨Nat.lt_succ_self _, fun node hnode => (h.allocated node hnode).ne, hpos, ?_, ?_⟩
  · intro i hi
    simp [hi]
  · intro i hi
    simp [hi]

/-- A registered pool stays so while a buffer is added that is not linked yet. -/
theorem Registered.newBuffer (h : rbp.Registered) (hpos : 0 < size.toNat) :
    (rbp.newBuffer size).Registered := by
  rw [newBuffer_eq rbp hpos]
  refine ⟨h.total, h.distinct, fun node hnode => Nat.lt_succ_of_lt (h.allocated node hnode), ?_⟩
  intro node hnode
  obtain ⟨hbuffer, hregion⟩ := h.region node hnode
  refine ⟨hbuffer, fun i hi => ?_⟩
  simp [(h.allocated node hnode).ne, hregion i hi]

/-- The free list does not lie in the new buffer. -/
theorem FreeChain.newBuffer (h : rbp.FreeChain free) (hpos : 0 < size.toNat)
    (hfree : ∀ c ∈ free, c.buffer ≠ rbp.mallocs) : (rbp.newBuffer size).FreeChain free := by
  rw [newBuffer_eq rbp hpos]
  exact ⟨h.chain.frame fun c hc => if_neg fun hin => hfree c hc hin.1, h.size⟩

/-- A fresh buffer is spliced in: it is linked, and its chunks are in front of the free list. -/
theorem Registered.spliceSection (h : rbp.Registered) (hfresh : rbp.Fresh buffer size) :
    (rbp.spliceSection buffer size).Registered := by
  refine ⟨?_, ?_, ?_, ?_⟩
  · simp [BufferPool.spliceSection, h.total, UInt32.ofNat_add, UInt32.add_comm]
  · simp only [BufferPool.spliceSection, List.map_cons, List.nodup_cons]
    refine ⟨fun hmem => ?_, h.distinct⟩
    obtain ⟨node, hnode, heq⟩ := List.mem_map.mp hmem
    exact hfresh.unlinked node hnode heq
  · intro node hnode
    rcases List.mem_cons.mp hnode with rfl | hnode
    · exact hfresh.allocated
    · exact h.allocated node hnode
  · intro node hnode
    rcases List.mem_cons.mp hnode with rfl | hnode
    · exact ⟨rfl, hfresh.region⟩
    · exact h.region node hnode

/-- The chunks of the linked buffers after a splice. -/
theorem mem_appended_spliceSection {c : ChunkPtr} :
    c ∈ (rbp.spliceSection buffer size).appended ↔
      c ∈ bufferChunks buffer size.toNat ∨ c ∈ rbp.appended := by
  simp [appended, BufferPool.spliceSection]

/-- The free list after a splice. -/
theorem FreeChain.spliceSection (h : rbp.FreeChain free) (hfresh : rbp.Fresh buffer size)
    (hfree : ∀ c ∈ free, c.buffer ≠ buffer) :
    (rbp.spliceSection buffer size).FreeChain (bufferChunks buffer size.toNat ++ free) := by
  refine ⟨Segment.append.mpr ⟨rbp.freeList, ?_, h.chain.update fun hmem => hfree _ hmem rfl⟩, ?_⟩
  · refine segment_bufferChunks hfresh.pos (fun i hi => ?_) (Function.update_self ..)
    have hne : (⟨buffer, i⟩ : ChunkPtr) ≠ ⟨buffer, size.toNat - 1⟩ := by
      simp only [ne_eq, ChunkPtr.mk.injEq, true_and]
      omega
    simp only [BufferPool.spliceSection, Function.update_of_ne hne]
    exact hfresh.link i hi
  · simp [BufferPool.spliceSection, h.size, UInt32.ofNat_add, UInt32.add_comm]

/-! ### Taking and releasing -/

/-- A free list that is not empty has a first chunk. -/
theorem FreeChain.exists_first (h : rbp.FreeChain free) (hne : free ≠ []) :
    ∃ first, rbp.freeList = some first := by
  cases free with
  | nil => exact (hne rfl).elim
  | cons first rest => exact ⟨first, h.chain.1⟩

/-- `get_rdma_chunk_from_pool` takes its chunk like a list of one. -/
theorem takeChunk_eq (rbp : BufferPool) : rbp.takeChunk = rbp.takeChunkList 1 := by
  unfold takeChunk takeChunkList
  cases rbp.freeList <;> rfl

/-- **What the last section of a get operation does** on a free list of the chunks `free`: it takes
the first `count` of them; or it finds NULL on its way, and returns NULL; or it finds NULL just
where it stops, and dereferences it. -/
theorem takeChunkList_cases (h : rbp.FreeChain free) (hcount : count ≠ 0) :
    (∃ now, free = free.take (count.toNat - 1) ++ now :: free.drop count.toNat ∧
      rbp.takeChunkList count = .ok (rbp.freeList, { rbp with
        freeList := rbp.next now
        next := Function.update rbp.next now none
        freeSize := rbp.freeSize - count })) ∨
    (free.length + 1 < count.toNat ∧ rbp.takeChunkList count = .ok (none, rbp)) ∨
    (free.length + 1 = count.toNat ∧ rbp.takeChunkList count = .error .nullDeref) := by
  have hpos : 0 < count.toNat := by
    rw [Nat.pos_iff_ne_zero]
    exact fun h0 => hcount (UInt32.toNat_inj.mp h0)
  have hsub : (count - 1).toNat = count.toNat - 1 :=
    UInt32.toNat_sub_of_le _ _ (UInt32.le_iff_toNat_le.mpr hpos)
  unfold takeChunkList
  rw [hsub, h.chain.walk]
  by_cases hle : count.toNat - 1 ≤ free.length
  · rw [if_pos hle]
    cases hnow : free[count.toNat - 1]? with
    | none =>
      have := List.getElem?_eq_none_iff.mp hnow
      exact .inr (.inr ⟨by omega, rfl⟩)
    | some now =>
      obtain ⟨hlt, rfl⟩ := List.getElem?_eq_some_iff.mp hnow
      refine .inl ⟨_, ?_, rfl⟩
      have hdrop : free.drop count.toNat = free.drop (count.toNat - 1 + 1) := by
        rw [Nat.sub_add_cancel hpos]
      rw [hdrop, List.getElem_cons_drop, List.take_append_drop]
  · rw [if_neg hle]
    exact .inr (.inl ⟨by omega, rfl⟩)

/-- The free list after a get operation has taken its chunks, and the list it returns. -/
theorem FreeChain.take {now : ChunkPtr} (h : rbp.FreeChain free) (hnodup : free.Nodup)
    (hcount : count ≠ 0)
    (hsplit : free = free.take (count.toNat - 1) ++ now :: free.drop count.toNat) :
    FreeChain { rbp with
        freeList := rbp.next now
        next := Function.update rbp.next now none
        freeSize := rbp.freeSize - count } (free.drop count.toNat) ∧
      Chain (Function.update rbp.next now none) rbp.freeList (free.take count.toNat) := by
  have hpos : 0 < count.toNat := by
    rw [Nat.pos_iff_ne_zero]
    exact fun h0 => hcount (UInt32.toNat_inj.mp h0)
  have hle : count.toNat ≤ free.length := by
    have hlength := congrArg List.length hsplit
    simp only [List.length_append, List.length_take, List.length_cons, List.length_drop] at hlength
    omega
  have htake : free.take count.toNat = free.take (count.toNat - 1) ++ [now] := by
    have hfront : (free.take (count.toNat - 1) ++ [now]).length = count.toNat := by
      rw [List.length_append, List.length_take, List.length_singleton]
      omega
    conv_lhs => rw [hsplit.trans (List.append_cons ..)]
    exact List.take_left' hfront
  have hchain := h.chain
  rw [hsplit] at hchain hnodup
  obtain ⟨htaken, hrest⟩ := Chain.cut hchain hnodup
  refine ⟨⟨hrest, ?_⟩, htake ▸ htaken⟩
  change rbp.freeSize - count = _
  rw [h.size, List.length_drop, UInt32.ofNat_sub hle, UInt32.ofNat_toNat]

/-- **A get operation that finds enough chunks** takes the first ones, and leaves the rest. -/
theorem takeChunkList_of_le (h : rbp.FreeChain free) (hnodup : free.Nodup) (hcount : count ≠ 0)
    (hle : count.toNat ≤ free.length) :
    ∃ first rbp', rbp.takeChunkList count = .ok (some first, rbp') ∧
      Chain rbp'.next (some first) (free.take count.toNat) ∧
      rbp'.FreeChain (free.drop count.toNat) ∧ rbp'.linkHead = rbp.linkHead ∧
      rbp'.totalSize = rbp.totalSize := by
  obtain ⟨now, hsplit, htake⟩ | ⟨hshort, -⟩ | ⟨hshort, -⟩ := takeChunkList_cases h hcount
  · obtain ⟨hrest, htaken⟩ := h.take hnodup hcount hsplit
    obtain ⟨first, hfirst⟩ := h.exists_first (hsplit ▸ by simp)
    rw [hfirst] at htake htaken
    exact ⟨first, _, htake, htaken, hrest, rfl, rfl⟩
  · omega
  · omega

/-- The free list after a release. -/
theorem FreeChain.releaseSection (h : rbp.FreeChain free) {chunk : ChunkPtr} (hnew : chunk ∉ free) :
    (rbp.releaseSection chunk).FreeChain (chunk :: free) := by
  refine ⟨h.chain.push hnew, ?_⟩
  simp [BufferPool.releaseSection, h.size, UInt32.ofNat_add]

/-- A fresh buffer is not touched by what happens to other buffers. -/
theorem Fresh.frame {rbp' : BufferPool} (h : rbp.Fresh buffer size)
    (hnext : ∀ i, rbp'.next ⟨buffer, i⟩ = rbp.next ⟨buffer, i⟩)
    (hmr : ∀ i, rbp'.mr ⟨buffer, i⟩ = rbp.mr ⟨buffer, i⟩)
    (hunlinked : ∀ node ∈ rbp'.linkHead, node.buffer ≠ buffer)
    (hmallocs : rbp.mallocs ≤ rbp'.mallocs) : rbp'.Fresh buffer size := by
  refine ⟨h.allocated.trans_le hmallocs, hunlinked, h.pos, ?_, ?_⟩
  · intro i hi
    rw [hnext, h.link i hi]
  · intro i hi
    rw [hmr, h.region i hi]

/-- The chunks of a fresh buffer are not in the pool yet. -/
theorem Fresh.buffer_ne (h : rbp.Fresh buffer size) {c : ChunkPtr} (hc : c ∈ rbp.appended) :
    c.buffer ≠ buffer := by
  obtain ⟨node, hnode, hbuffer, -⟩ := hc
  exact hbuffer ▸ h.unlinked node hnode

/-- Writing the link of a chunk of the pool leaves a fresh buffer alone. -/
theorem Fresh.write (h : rbp.Fresh buffer size) {c : ChunkPtr} (hc : c ∈ rbp.appended)
    (v freeList : Option ChunkPtr) (freeSize : UInt32) :
    Fresh { rbp with
      freeList := freeList
      next := Function.update rbp.next c v
      freeSize := freeSize } buffer size := by
  refine h.frame (fun i => ?_) (fun _ => rfl) h.unlinked le_rfl
  have hne : (⟨buffer, i⟩ : ChunkPtr) ≠ c := fun heq => h.buffer_ne hc (heq ▸ rfl)
  exact Function.update_of_ne hne ..

/-! ### The initial pool -/

/-- The pool after the `memset`. -/
theorem registered_zero : zero.Registered :=
  ⟨rfl, List.nodup_nil, fun _ hnode => (List.not_mem_nil hnode).elim,
    fun _ hnode => (List.not_mem_nil hnode).elim⟩

/-- A successful `init_rdma_buffer_pool` leaves a registered pool. -/
theorem registered_init : init.Registered :=
  (registered_zero.newBuffer (by decide)).spliceSection
    (fresh_newBuffer registered_zero (by decide))

/-- The free list of a new pool consists of the chunks of its one buffer. -/
theorem freeChain_init : init.FreeChain (bufferChunks 0 4096) := by
  have hpos : 0 < (appendSize rdmaBufferSize).toNat := by decide
  have hchain : (zero.newBuffer (appendSize rdmaBufferSize)).FreeChain [] := by
    rw [newBuffer_eq _ hpos]
    exact ⟨rfl, rfl⟩
  have hfree := hchain.spliceSection (fresh_newBuffer registered_zero hpos)
    fun _ hc => (List.not_mem_nil hc).elim
  rwa [List.append_nil] at hfree

/-- The `free_size` of a new pool is the size of its buffer. -/
theorem freeSize_init : init.freeSize = 4096 := by
  rw [freeChain_init.size, length_bufferChunks]
  rfl

/-- The `total_size` of a new pool is the size of its buffer. -/
theorem totalSize_init : init.totalSize = 4096 := by
  rw [init, spliceSection, newBuffer_eq _ (by decide)]
  rfl

end BufferPool

namespace PoolState

variable {T : Type}

/-- The places a chunk can be: the free list, or with a thread. -/
def place (s : PoolState T) (free : List ChunkPtr) : Option T → List ChunkPtr
  | none => free
  | some t => s.held t

/-- What holds at a program point of thread `t`. -/
def ThreadInv (s : PoolState T) (t : T) : PoolPc → Prop
  | .called (.release (some chunk)) => chunk ∈ s.held t
  | .append op _ => op.count ≠ 0
  | .splice op buffer size => op.count ≠ 0 ∧ s.pool.Fresh buffer size
  | .take op => op.count ≠ 0
  | .done op (some chunk) _ => ∃ l, Chain s.pool.next (some chunk) l ∧
      l.length = op.count.toNat ∧ ∀ c ∈ l, c ∈ s.held t
  | _ => True

/-- A thread does not notice what happens to chunks it does not hold. -/
theorem ThreadInv.frame {s s' : PoolState T} {t : T} {pc : PoolPc} (h : s.ThreadInv t pc)
    (hheld : ∀ c ∈ s.held t, c ∈ s'.held t)
    (hnext : ∀ c ∈ s.held t, s'.pool.next c = s.pool.next c)
    (hfresh : ∀ op buffer size, pc = .splice op buffer size → s.pool.Fresh buffer size →
      s'.pool.Fresh buffer size) : s'.ThreadInv t pc := by
  unfold ThreadInv at h ⊢
  split
  · exact hheld _ h
  · exact h
  · exact ⟨h.1, hfresh _ _ _ rfl h.2⟩
  · exact h
  · obtain ⟨l, hchain, hlength, hl⟩ := h
    exact ⟨l, hchain.frame fun c hc => hnext c (hl c hc), hlength, fun c hc => hheld c (hl c hc)⟩
  · trivial

end PoolState

open PoolState

/-- The representation invariant: `free` are the chunks of the free list. -/
structure PoolInv {T : Type} (s : PoolState T) (free : List ChunkPtr) : Prop where
  /-- They are what `free_list` and `free_size` say. -/
  free_chain : s.pool.FreeChain free
  /-- The buffers are accounted for. -/
  registered : s.pool.Registered
  /-- Every chunk of a linked buffer is once on the free list, or held by one thread. -/
  owned : Partition s.pool.appended (s.place free)
  /-- Each thread finds what its program point relies on. -/
  threads : ∀ t, s.ThreadInv t (s.pc t)
  /-- No two threads are about to splice the same buffer. -/
  splice_inj : ∀ t u op op' buffer size size', s.pc t = .splice op buffer size →
    s.pc u = .splice op' buffer size' → t = u

namespace PoolInv

variable {T : Type} {s s' : PoolState T} {free free' : List ChunkPtr} {t : T}

/-- Chunks on the free list belong to the pool. -/
theorem appended_of_free (h : PoolInv s free) {c : ChunkPtr} (hc : c ∈ free) :
    c ∈ s.pool.appended :=
  (h.owned.cover c).mpr ⟨none, hc⟩

/-- Chunks held by a thread were appended. -/
theorem appended_of_held (h : PoolInv s free) {c : ChunkPtr} (hc : c ∈ s.held t) :
    c ∈ s.pool.appended :=
  (h.owned.cover c).mpr ⟨some t, hc⟩

/-- A chunk held by a thread is not on the free list. -/
theorem not_free_of_held (h : PoolInv s free) {c : ChunkPtr} (hc : c ∈ s.held t) : c ∉ free :=
  fun hfree => by simpa using h.owned.unique (i := none) (j := some t) hfree hc

/-- A thread about to take chunks takes at least one. -/
theorem count_ne_zero (h : PoolInv s free) {op : PoolOp} (hpc : s.pc t = .take op) :
    op.count ≠ 0 := by
  have hthread := h.threads t
  rwa [hpc] at hthread

variable [DecidableEq T]

/-- A step of thread `t`: what remains to be shown is that the pool is as it should be, that the
thread finds what it relies on, and that no other thread notices. -/
theorem of_step (h : PoolInv s free) {pc : PoolPc} (hpc : s'.pc = Function.update s.pc t pc)
    (hchain : s'.pool.FreeChain free') (hregistered : s'.pool.Registered)
    (howned : Partition s'.pool.appended (s'.place free')) (hthread : s'.ThreadInv t pc)
    (hother : ∀ u, u ≠ t → s.ThreadInv u (s.pc u) → s'.ThreadInv u (s.pc u))
    (hsplice : ∀ op buffer size, pc = .splice op buffer size →
      ∀ u op' size', s.pc u ≠ .splice op' buffer size') : PoolInv s' free' := by
  refine ⟨hchain, hregistered, howned, fun u => ?_, ?_⟩
  · rw [hpc]
    by_cases hut : u = t
    · subst hut
      rwa [Function.update_self]
    · rw [Function.update_of_ne hut]
      exact hother u hut (h.threads u)
  · intro u v op op' buffer size size' hu hv
    rw [hpc] at hu hv
    by_cases hut : u = t
    · subst hut
      by_contra hvu
      rw [Function.update_self] at hu
      rw [Function.update_of_ne (Ne.symm hvu)] at hv
      exact hsplice _ _ _ hu _ _ _ hv
    · rw [Function.update_of_ne hut] at hu
      by_cases hvt : v = t
      · subst hvt
        rw [Function.update_self] at hv
        exact (hsplice _ _ _ hv _ _ _ hu).elim
      · rw [Function.update_of_ne hvt] at hv
        exact h.splice_inj u v op op' buffer size size' hu hv

/-- A step that only moves thread `t` on. -/
theorem goto (h : PoolInv s free) {pc : PoolPc} (hthread : s.ThreadInv t pc)
    (hsplice : ∀ op buffer size, pc ≠ .splice op buffer size) : PoolInv (s.goto t pc) free :=
  h.of_step rfl h.free_chain h.registered h.owned hthread (fun _ _ hu => hu)
    fun op buffer size hpc => (hsplice op buffer size hpc).elim

/-- The section of `release_rdma_chunk_to_pool`. -/
theorem release (h : PoolInv s free) {chunk : ChunkPtr} (hchunk : chunk ∈ s.held t) :
    PoolInv (s.firstSection t (.release (some chunk))) (chunk :: free) := by
  have happended := h.appended_of_held hchunk
  refine h.of_step rfl (h.free_chain.releaseSection (h.not_free_of_held hchunk))
    { h.registered with } ?_ trivial ?_ nofun
  · -- The chunk moves from the thread to the free list.
    refine h.owned.move [chunk] (show some t ≠ none by simp) ?_ (.refl _) ?_
    · simpa [place, firstSection] using List.perm_cons_erase hchunk
    · rintro (_ | u) hut hnone
      · exact (hnone rfl).elim
      · have hne : u ≠ t := fun heq => hut (heq ▸ rfl)
        simp [place, firstSection, Function.update_of_ne hne]
  · -- Its `next` is written, and no other thread holds it.
    intro u hut hu
    refine hu.frame ?_ ?_ fun op buffer size _ hfresh => hfresh.write happended _ _ _
    · intro c hc
      simpa [firstSection, Function.update_of_ne hut] using hc
    · intro c hc
      have hne : c ≠ chunk := by
        rintro rfl
        exact hut (Option.some.inj (h.owned.unique (i := some u) (j := some t) hc hchunk))
      exact Function.update_of_ne hne ..

/-- The last section of a get operation, when it takes its chunks. -/
theorem take (h : PoolInv s free) {op : PoolOp} {now : ChunkPtr} (hcount : op.count ≠ 0)
    (hsplit : free = free.take (op.count.toNat - 1) ++ now :: free.drop op.count.toNat) :
    PoolInv { s.goto t (.done op s.pool.freeList false) with
      pool := { s.pool with
        freeList := s.pool.next now
        next := Function.update s.pool.next now none
        freeSize := s.pool.freeSize - op.count }
      held := Function.update s.held t (s.held t ++ free.take op.count.toNat) }
      (free.drop op.count.toNat) := by
  obtain ⟨hchain, htaken⟩ := h.free_chain.take (h.owned.nodup none) hcount hsplit
  have hnow : now ∈ free := by
    rw [hsplit]
    simp
  have happended := h.appended_of_free hnow
  refine h.of_step rfl hchain { h.registered with } ?_ ?_ ?_ nofun
  · refine h.owned.move (free.take op.count.toNat) (show none ≠ some t by simp) ?_ ?_ ?_
    · simp [place]
    · simpa [place] using List.perm_append_comm
    · rintro (_ | u) hnone hut
      · exact (hnone rfl).elim
      · have hne : u ≠ t := fun heq => hut (heq ▸ rfl)
        simp [place, Function.update_of_ne hne]
  · -- The thread returns with the chain it has cut off.
    cases hlist : s.pool.freeList with
    | none => trivial
    | some first =>
      have hlength := congrArg List.length hsplit
      simp only [List.length_append, List.length_take, List.length_cons, List.length_drop]
        at hlength
      refine ⟨free.take op.count.toNat, hlist ▸ htaken, ?_, fun c hc => ?_⟩
      · rw [List.length_take]
        omega
      · simp [hc]
  · -- The `next` written is that of the last chunk taken, which was free.
    intro u hut hu
    refine hu.frame ?_ ?_ fun op buffer size _ hfresh => hfresh.write happended _ _ _
    · intro c hc
      simpa [Function.update_of_ne hut] using hc
    · intro c hc
      have hne : c ≠ now := by
        rintro rfl
        exact h.not_free_of_held hc hnow
      exact Function.update_of_ne hne ..

/-- A buffer is registered. -/
theorem alloc (h : PoolInv s free) {op : PoolOp} {size : UInt32} (hcount : op.count ≠ 0)
    (hsize : size ≠ 0) :
    PoolInv { s.goto t (.splice op s.pool.mallocs size) with pool := s.pool.newBuffer size }
      free := by
  have hpos : 0 < size.toNat := by
    rw [Nat.pos_iff_ne_zero]
    exact fun h0 => hsize (UInt32.toNat_inj.mp h0)
  have hnext := fun c => h.registered.buffer_ne (c := c)
  have hchain := h.free_chain.newBuffer hpos fun c hc => hnext c (h.appended_of_free hc)
  have hfresh := BufferPool.fresh_newBuffer h.registered hpos
  have hregistered := h.registered.newBuffer hpos
  rw [BufferPool.newBuffer_eq _ hpos] at hchain hfresh hregistered ⊢
  refine h.of_step rfl hchain hregistered h.owned ⟨hcount, hfresh⟩ ?_ ?_
  · -- The chunks of the new buffer are not those of anyone else, nor of another new buffer.
    intro u _ hu
    refine hu.frame (fun c hc => hc) (fun c hc => ?_) fun op' buffer size' _ hother => ?_
    · simp [hnext c (h.appended_of_held hc)]
    · have hne := hother.allocated.ne
      exact hother.frame (fun i => by simp [hne]) (fun i => by simp [hne]) hother.unlinked
        (Nat.le_succ _)
  · intro op' buffer size' hpc u op'' size'' hu
    obtain ⟨-, rfl, -⟩ := PoolPc.splice.inj hpc
    have hinv := h.threads u
    rw [hu] at hinv
    exact hinv.2.allocated.ne rfl

/-- The section of `append_rdma_buffer_pool`. -/
theorem splice (h : PoolInv s free) {op : PoolOp} {buffer : ℕ} {size : UInt32}
    (hpc : s.pc t = .splice op buffer size) :
    PoolInv { s.goto t (.take op) with pool := s.pool.spliceSection buffer size }
      (BufferPool.bufferChunks buffer size.toNat ++ free) := by
  have hinv := h.threads t
  rw [hpc] at hinv
  obtain ⟨hcount, hfresh⟩ := hinv
  have hother : ∀ c ∈ s.pool.appended, c.buffer ≠ buffer := fun c hc => hfresh.buffer_ne hc
  refine h.of_step rfl (h.free_chain.spliceSection hfresh fun c hc =>
    hother c (h.appended_of_free hc)) (h.registered.spliceSection hfresh) ?_ hcount ?_ nofun
  · -- The chunks of the buffer become part of the pool, all of them free.
    refine h.owned.extend (j := none) _ (BufferPool.nodup_bufferChunks buffer size.toNat)
      (fun c hc hmem => ?_) (fun c => BufferPool.mem_appended_spliceSection) (.refl _) ?_
    · exact hother c hmem (BufferPool.mem_bufferChunks.mp hc).1
    · rintro (_ | u) hnone
      · exact (hnone rfl).elim
      · exact .refl _
  · intro u hut hu
    refine hu.frame (fun c hc => hc) (fun c hc => ?_) fun op' buffer' size' hu' hfresh' => ?_
    · have hne : c ≠ ⟨buffer, size.toNat - 1⟩ := fun heq =>
        hother c (h.appended_of_held hc) (heq ▸ rfl)
      exact Function.update_of_ne hne ..
    · have hne : buffer' ≠ buffer := by
        rintro rfl
        exact hut (h.splice_inj u t _ _ _ _ _ hu' hpc)
      refine hfresh'.frame (fun i => ?_) (fun _ => rfl) ?_ le_rfl
      · exact Function.update_of_ne (by simp [hne]) ..
      · intro node hnode
        rcases List.mem_cons.mp hnode with rfl | hnode
        · exact Ne.symm hne
        · exact hfresh'.unlinked node hnode

/-- A thread passes a chunk on. -/
theorem passChunk (h : PoolInv s free) {u : T} {chunk : ChunkPtr} (hidle : s.pc t = .idle)
    (hchunk : chunk ∈ s.held t) : PoolInv (s.passChunk t u chunk) free := by
  refine ⟨h.free_chain, h.registered, ?_, fun v => ?_, h.splice_inj⟩
  · by_cases hut : u = t
    · -- To itself: only the order changes.
      subst hut
      refine h.owned.perm ?_
      rintro (_ | v)
      · exact .refl _
      · by_cases hv : v = u
        · subst hv
          simpa [place, PoolState.passChunk] using
            (List.perm_append_singleton _ _).trans (List.perm_cons_erase hchunk).symm
        · simp [place, PoolState.passChunk, Function.update_of_ne hv]
    · refine h.owned.move [chunk] (show some t ≠ some u by simpa using Ne.symm hut) ?_ ?_ ?_
      · simpa [place, PoolState.passChunk, Function.update_of_ne (Ne.symm hut)] using
          List.perm_cons_erase hchunk
      · simp [place, PoolState.passChunk, Function.update_of_ne hut]
      · rintro (_ | v) hvt hvu
        · exact .refl _
        · have hne : v ≠ t := fun heq => hvt (heq ▸ rfl)
          have hne' : v ≠ u := fun heq => hvu (heq ▸ rfl)
          simp [place, PoolState.passChunk, Function.update_of_ne hne, Function.update_of_ne hne']
  · by_cases hvt : v = t
    · subst hvt
      change ThreadInv _ v (s.pc v)
      rw [hidle]
      trivial
    · refine (h.threads v).frame (fun c hc => ?_) (fun _ _ => rfl) fun _ _ _ _ hfresh => hfresh
      by_cases hvu : v = u
      · subst hvu
        simp [PoolState.passChunk, Function.update_of_ne hvt, hc]
      · simpa [PoolState.passChunk, Function.update_of_ne hvt, Function.update_of_ne hvu] using hc

/-- The pool a successful `init_rdma_buffer_pool` leaves. -/
theorem init : PoolInv (bufferPool T).init (BufferPool.bufferChunks 0 4096) := by
  refine ⟨BufferPool.freeChain_init, BufferPool.registered_init, ?_, fun _ => trivial,
    fun _ _ _ _ _ _ _ hpc => nomatch hpc⟩
  have hempty : Partition (∅ : Set ChunkPtr) fun _ : Option T => [] :=
    ⟨fun _ => List.nodup_nil, fun hi => (List.not_mem_nil hi).elim, by simp⟩
  refine hempty.extend (j := none) _ (BufferPool.nodup_bufferChunks 0 4096) (fun _ _ => id) ?_ ?_ ?_
  · intro c
    refine BufferPool.mem_appended_spliceSection.trans ?_
    rw [BufferPool.newBuffer_eq _ (by decide)]
    exact or_congr_right (by simp [BufferPool.appended, BufferPool.zero])
  · rw [List.append_nil, place]
  · rintro (_ | t) hnone
    · exact (hnone rfl).elim
    · exact .refl _

/-- The first section of a call. -/
theorem firstSection (h : PoolInv s free) {op : PoolOp} (hpc : s.pc t = .called op) :
    ∃ free', PoolInv (s.firstSection t op) free' := by
  cases op with
  | getChunk =>
    refine ⟨free, ?_⟩
    rw [PoolState.firstSection]
    split
    · exact h.goto (by decide : PoolOp.getChunk.count ≠ 0) nofun
    · exact h.goto (by decide : PoolOp.getChunk.count ≠ 0) nofun
  | getChunkList count =>
    refine ⟨free, ?_⟩
    rw [PoolState.firstSection]
    split
    · exact h.goto trivial nofun
    · rename_i hcount
      split
      · exact h.goto hcount nofun
      · exact h.goto hcount nofun
  | release chunk =>
    cases chunk with
    | none => exact ⟨free, h.goto trivial nofun⟩
    | some chunk =>
      have hchunk := h.threads t
      rw [hpc] at hchunk
      exact ⟨_, h.release hchunk⟩

/-- `append_rdma_buffer_pool` up to the lock. -/
theorem allocSection (h : PoolInv s free) {op : PoolOp} {size : UInt32}
    (hpc : s.pc t = .append op size) (result : AllocResult) :
    PoolInv (s.allocSection t op size result) free := by
  have hcount := h.threads t
  rw [hpc] at hcount
  cases result with
  | ok =>
    rw [PoolState.allocSection]
    split
    · exact h.goto trivial nofun
    · exact h.alloc hcount ‹_›
  | mallocFails | regMrFails => exact h.goto trivial nofun

/-- Both get operations take their chunks like a list. -/
theorem takeSection_eq {op : PoolOp} (hcount : op.count ≠ 0) :
    s.takeSection t op = (s.pool.takeChunkList op.count).map fun taken =>
      { s.goto t (.done op taken.1 false) with
        pool := taken.2
        held := Function.update s.held t (s.held t ++ if taken.1.isSome then
          cells s.pool.next op.count.toNat s.pool.freeList else []) } := by
  cases op with
  | getChunk => rw [PoolState.takeSection, BufferPool.takeChunk_eq]; rfl
  | getChunkList count => rfl
  | release chunk => exact (hcount rfl).elim

/-- **The last section of a get operation**: it takes the first `count` chunks of the free list,
returns NULL, or dereferences NULL. -/
theorem takeSection_cases (h : PoolInv s free) {op : PoolOp} (hpc : s.pc t = .take op) :
    (op.count.toNat ≤ free.length ∧ ∃ s' chunk, s.takeSection t op = .ok s' ∧
      s'.pc = Function.update s.pc t (.done op (some chunk) false) ∧
      PoolInv s' (free.drop op.count.toNat)) ∨
    (free.length + 1 < op.count.toNat ∧ ∃ s', s.takeSection t op = .ok s' ∧
      s'.pc = Function.update s.pc t (.done op none false) ∧ PoolInv s' free) ∨
    (free.length + 1 = op.count.toNat ∧ s.takeSection t op = .error .nullDeref) := by
  have hcount := h.count_ne_zero hpc
  rw [takeSection_eq hcount]
  obtain ⟨now, hsplit, htake⟩ | ⟨hshort, htake⟩ | ⟨hshort, htake⟩ :=
    BufferPool.takeChunkList_cases h.free_chain hcount
  · obtain ⟨first, hfirst⟩ := h.free_chain.exists_first (hsplit ▸ by simp)
    have hlength := congrArg List.length hsplit
    simp only [List.length_append, List.length_take, List.length_cons, List.length_drop] at hlength
    have hnext := h.take (t := t) hcount hsplit
    rw [← h.free_chain.chain.cells] at hnext
    refine .inl ⟨by omega, _, first, by rw [htake]; rfl, ?_, ?_⟩
    · rw [hfirst]
      rfl
    · simpa [hfirst] using hnext
  · refine .inr (.inl ⟨hshort, _, by rw [htake]; rfl, rfl, ?_⟩)
    have hnext : PoolInv (s.goto t (.done op none false)) free := h.goto trivial nofun
    have hheld : Function.update s.held t (s.held t ++ []) = s.held := by simp
    exact (congrArg (fun held => PoolInv { s.goto t (.done op none false) with held := held } free)
      hheld).mpr hnext
  · exact .inr (.inr ⟨hshort, by rw [htake]; rfl⟩)

end PoolInv

variable {T : Type} [DecidableEq T]

/-- **One step keeps the representation invariant.** -/
theorem poolInv_step {s s' : PoolState T} {free : List ChunkPtr} {a : PoolAct T}
    (h : PoolInv s free) (hstep : (bufferPool T).step s a = some (.ok s')) :
    ∃ free', PoolInv s' free' := by
  cases a with
  | call t op =>
    simp only [bufferPool, poolStep] at hstep
    split at hstep
    · split at hstep <;> cases hstep
      refine ⟨free, h.goto ?_ nofun⟩
      rename_i hmay
      cases op with
      | getChunk | getChunkList count => trivial
      | release chunk =>
        cases chunk with
        | none => trivial
        | some chunk => exact hmay
    · cases hstep
  | lockedSection t =>
    simp only [bufferPool, poolStep] at hstep
    split at hstep
    · cases hstep
      exact h.firstSection ‹_›
    · cases hstep
      exact ⟨_, h.splice ‹_›⟩
    · rename_i op hpc
      have hsection := Option.some.inj hstep
      obtain ⟨-, s'', chunk, hok, -, hnext⟩ | ⟨-, s'', hok, -, hnext⟩ | ⟨-, herror⟩ :=
        h.takeSection_cases hpc
      · obtain rfl := Except.ok.inj (hsection.symm.trans hok)
        exact ⟨_, hnext⟩
      · obtain rfl := Except.ok.inj (hsection.symm.trans hok)
        exact ⟨_, hnext⟩
      · rw [herror] at hsection
        cases hsection
    · cases hstep
  | alloc t result =>
    simp only [bufferPool, poolStep] at hstep
    split at hstep <;> cases hstep
    exact ⟨free, h.allocSection ‹_› result⟩
  | resume t =>
    simp only [bufferPool, poolStep] at hstep
    split at hstep <;> cases hstep
    exact ⟨free, h.goto trivial nofun⟩
  | pass t u chunk =>
    simp only [bufferPool, poolStep] at hstep
    split at hstep
    · split at hstep <;> cases hstep
      exact ⟨free, h.passChunk ‹_› ‹_›⟩
    · cases hstep

/-- **The representation invariant holds in every reachable state**, whatever `malloc` and
`ibv_reg_mr` answer on the way. -/
theorem poolInv_of_reachable {P : PoolState T → PoolAct T → Prop} {s : PoolState T}
    (hs : (bufferPool T).ReachableUnder P s) : ∃ free, PoolInv s free := by
  induction hs with
  | init => exact ⟨_, .init⟩
  | next _ _ hstep ih =>
    obtain ⟨free, h⟩ := ih
    exact poolInv_step h hstep

end SparkRdma
