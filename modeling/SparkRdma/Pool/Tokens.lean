import SparkRdma.Foundations.Ledger
import SparkRdma.Pool.Representation

/-! # The tokens of the buffer pool

An append acquires a `link_node` from `calloc`, a chunk buffer from `malloc` and a memory region
from `ibv_reg_mr`. The machine `tokenPool` runs the pool from before `init_rdma_buffer_pool` on,
with what is acquired and not yet given back listed as tokens beside it.

* **`append`** — what one append acquires, and what a failed one gives back.
* **`destroyRdmaBufferPool`** — the loop of `destroy_rdma_buffer_pool`, which finds the region of a
  buffer through the buffer's first chunk.
* **`Owned s`** — each live token belongs to one linked node, and destroying the pool gives each of
  them back once and leaves none.
* **`owned_iff`** — the reachable states in which that is so: those before which no registration has
  failed, and in which no append is under way. -/

namespace SparkRdma

open Interleaving

/-- What an append acquires. -/
inductive TokenKind
  /-- `calloc(1, sizeof(struct link_node))`. -/
  | linkNode
  /-- `malloc(size * sizeof(struct rdma_chunk))`. -/
  | chunkBuffer
  /-- `ibv_reg_mr`. -/
  | region
  deriving DecidableEq, Repr

/-- A block or a region that was acquired, by the number its buffer has or would have had. -/
structure Token where
  /-- What it is. -/
  kind : TokenKind
  /-- The number. -/
  buffer : ℕ
  deriving DecidableEq, Repr

/-- What one append acquires, in the order `destroy_rdma_buffer_pool` gives it back. -/
def Token.ofBuffer (buffer : ℕ) : List Token :=
  [⟨.region, buffer⟩, ⟨.chunkBuffer, buffer⟩, ⟨.linkNode, buffer⟩]

@[simp] theorem Token.mem_ofBuffer {t : Token} {buffer : ℕ} :
    t ∈ Token.ofBuffer buffer ↔ t.buffer = buffer := by
  obtain ⟨kind, n⟩ := t
  cases kind <;> simp [ofBuffer]

/-- The tokens a node's fields point to, and its own. -/
def LinkNode.tokens (node : LinkNode) : List Token :=
  [⟨.region, node.mr.buffer⟩, ⟨.chunkBuffer, node.buffer⟩, ⟨.linkNode, node.buffer⟩]

/-- A node's tokens are those of one append if its region is that of its buffer. -/
theorem LinkNode.tokens_eq {node : LinkNode} (h : node.mr.buffer = node.buffer) :
    node.tokens = Token.ofBuffer node.buffer := by
  rw [tokens, h, Token.ofBuffer]

/-- What `append_rdma_buffer_pool` does to the live tokens when it is asked for `size` chunks. -/
def Token.append (live : List Token) (buffer : ℕ) (size : UInt32) (result : AllocResult) :
    List Token :=
  if BufferPool.appendSize size = 0 then live
  else
    let live := ⟨.linkNode, buffer⟩ :: live
    match result with
    | .mallocFails => live.erase ⟨.linkNode, buffer⟩
    -- this branch returns without freeing anything
    | .regMrFails => ⟨.chunkBuffer, buffer⟩ :: live
    | .ok => ⟨.region, buffer⟩ :: ⟨.chunkBuffer, buffer⟩ :: live

/-- An append for `size` chunks whose `malloc` succeeds and whose `ibv_reg_mr` fails. -/
def RegistrationFails (size : UInt32) (result : AllocResult) : Prop :=
  result = .regMrFails ∧ BufferPool.appendSize size ≠ 0
  deriving Decidable

/-! ### `destroy_rdma_buffer_pool` -/

namespace BufferPool

/-- One turn of the loop. -/
def destroyNode (rbp : BufferPool) (p : LinkNode) (ledger : Ledger Token) :
    Except CFault (Ledger Token) :=
  -- `p->buffer->mr` reads the node and the first chunk of its buffer
  if ⟨.linkNode, p.buffer⟩ ∈ ledger.live ∧ ⟨.chunkBuffer, p.buffer⟩ ∈ ledger.live then
    match rbp.mr ⟨p.buffer, 0⟩ with
    | none => .error .nullDeref
    | some mr => do
        let ledger ← ledger.giveBack ⟨.region, mr.buffer⟩
        let ledger ← ledger.giveBack ⟨.chunkBuffer, p.buffer⟩
        ledger.giveBack ⟨.linkNode, p.buffer⟩
  else .error .useAfterFree

/-- The loop over the nodes. -/
def destroyNodes (rbp : BufferPool) : List LinkNode → Ledger Token → Except CFault (Ledger Token)
  | [], ledger => .ok ledger
  | p :: rest, ledger => do
      let ledger ← rbp.destroyNode p ledger
      rbp.destroyNodes rest ledger

/-- `destroy_rdma_buffer_pool`. It leaves `link_head` as it was. -/
def destroyRdmaBufferPool (rbp : BufferPool) (live : List Token) :
    Except CFault (BufferPool × Ledger Token) := do
  let ledger ← rbp.destroyNodes rbp.linkHead ⟨live, []⟩
  return ({ rbp with freeList := none, freeSize := 0, totalSize := 0 }, ledger)

end BufferPool

/-! ### The machine -/

/-- How far `init_rdma_buffer_pool` is. -/
inductive InitPhase
  /-- The `memset` is done. -/
  | zeroed
  /-- It has returned 0, and the pool may be used. -/
  | ready
  /-- It has returned -1. -/
  | failed
  deriving DecidableEq, Repr

/-- A pool with its threads and the tokens. -/
structure TokenState (T : Type) where
  /-- The pool and the threads. -/
  threads : PoolState T
  /-- How far the initialisation is. -/
  phase : InitPhase
  /-- The live tokens. -/
  live : List Token

/-- The steps: the append of `init_rdma_buffer_pool`, and those of the threads. -/
inductive TokenAct (T : Type)
  /-- `init_rdma_buffer_pool` appends its buffer. -/
  | init (result : AllocResult)
  /-- A thread takes a step. -/
  | pool (a : PoolAct T)

namespace TokenState

variable {T : Type}

/-- The append a step makes: the size asked for, and what `malloc` and `ibv_reg_mr` answer. -/
def appending (s : TokenState T) : TokenAct T → Option (UInt32 × AllocResult)
  | .init result => some (rdmaBufferSize, result)
  | .pool (.alloc t result) =>
      match s.threads.pc t with
      | .append _ size => some (size, result)
      | _ => none
  | .pool _ => none

/-- The state a step leads to, when the pool and the threads are then `threads`. A buffer that was
allocated and could not be registered has used up its number. -/
def account (s : TokenState T) (a : TokenAct T) (threads : PoolState T) (phase : InitPhase) :
    TokenState T :=
  match s.appending a with
  | none => ⟨threads, phase, s.live⟩
  | some (size, result) =>
      { threads :=
          if RegistrationFails size result then
            { threads with pool := { threads.pool with mallocs := threads.pool.mallocs + 1 } }
          else threads
        phase := phase
        live := Token.append s.live s.threads.pool.mallocs size result }

/-- The buffers whose registration has failed, as each step adds to them. -/
def noteLeak (s : TokenState T) (a : TokenAct T) (leaked : List ℕ) : List ℕ :=
  match s.appending a with
  | none => leaked
  | some (size, result) =>
      if RegistrationFails size result then s.threads.pool.mallocs :: leaked else leaked

end TokenState

variable {T : Type} [DecidableEq T]

/-- One step. -/
def tokenStep (s : TokenState T) : TokenAct T → Option (Except CFault (TokenState T))
  | .init result =>
      match s.phase with
      | .zeroed => some (.ok (
          match result with
          | .ok => s.account (.init result) { s.threads with pool := .init } .ready
          | _ => s.account (.init result) s.threads .failed))
      | _ => none
  | .pool a =>
      match s.phase with
      | .ready => (poolStep s.threads a).map
          (Except.map fun threads => s.account (.pool a) threads .ready)
      | _ => none

/-- Any number of threads on one pool, from the `memset` of `init_rdma_buffer_pool` on. -/
def tokenPool (T : Type) [DecidableEq T] : Machine (TokenState T) CFault (TokenAct T) where
  init := ⟨{ pool := .zero, pc := fun _ => .idle, held := fun _ => [] }, .zeroed, []⟩
  step := tokenStep

/-- The machine `tokenPool`, with the numbers of the buffers whose registration has failed. -/
def leakyPool (T : Type) [DecidableEq T] : Machine (TokenState T × List ℕ) CFault (TokenAct T) :=
  (tokenPool T).recording [] TokenState.noteLeak

/-! ### What is promised -/

/-- The tokens are accounted for: each belongs to exactly one node reachable from `link_head`, and
`destroy_rdma_buffer_pool` gives each back exactly once and leaves none. -/
structure Owned {T : Type} (s : TokenState T) : Prop where
  /-- Each token belongs to one node. -/
  one_node : ∀ t ∈ s.live,
    s.threads.pool.linkHead.countP (fun node => t ∈ node.tokens) = 1
  /-- Destroying the pool gives each back, and leaves none. -/
  destroyed : ∃ rbp given, s.threads.pool.destroyRdmaBufferPool s.live = .ok (rbp, ⟨[], given⟩) ∧
    ∀ t ∈ s.live, given.count t = 1

/-! ### What a step does to the buffers -/

namespace PoolState

variable {T : Type} {s s' : PoolState T} {t : T} {n : ℕ}

/-- Buffer `n` is linked at `link_head`. -/
def Linked (s : PoolState T) (n : ℕ) : Prop := ∃ node ∈ s.pool.linkHead, node.buffer = n

/-- Thread `t` has registered buffer `n` and is about to link it. -/
def SplicedBy (s : PoolState T) (t : T) (n : ℕ) : Prop := ∃ op size, s.pc t = .splice op n size

/-- Some thread has registered buffer `n` and is about to link it. -/
def Splicing (s : PoolState T) (n : ℕ) : Prop := ∃ t, s.SplicedBy t n

/-- What a step does to the buffers: none of them is noticed, one is allocated and registered, or
one is linked. -/
inductive BufferStep (s s' : PoolState T) (a : PoolAct T) : Prop
  /-- Nothing happens to the buffers. -/
  | same (hlinked : s'.pool.linkHead = s.pool.linkHead)
      (hmallocs : s'.pool.mallocs = s.pool.mallocs)
      (hsplicing : ∀ n, s'.Splicing n ↔ s.Splicing n)
      (hact : ∀ t op size, a = .alloc t .ok → s.pc t = .append op size →
        BufferPool.appendSize size = 0)
  /-- A buffer is allocated and registered. -/
  | registered (t : T) (op : PoolOp) (size : UInt32) (hact : a = .alloc t .ok)
      (hpc : s.pc t = .append op size) (hsize : BufferPool.appendSize size ≠ 0)
      (hlinked : s'.pool.linkHead = s.pool.linkHead)
      (hmallocs : s'.pool.mallocs = s.pool.mallocs + 1)
      (hsplicing : ∀ n, s'.Splicing n ↔ n = s.pool.mallocs ∨ s.Splicing n)
  /-- A registered buffer is linked. -/
  | linked (t : T) (op : PoolOp) (buffer : ℕ) (size : UInt32) (hact : a = .lockedSection t)
      (hpc : s.pc t = .splice op buffer size)
      (hlinked : s'.pool.linkHead = ⟨buffer, ⟨buffer, size⟩⟩ :: s.pool.linkHead)
      (hmallocs : s'.pool.mallocs = s.pool.mallocs)
      (hsplicing : ∀ n, s'.Splicing n ↔ n ≠ buffer ∧ s.Splicing n)

variable [DecidableEq T] {pc : PoolPc}

/-- A thread that moves on is not noticed by the others. -/
theorem splicedBy_of_ne (hpc : s'.pc = Function.update s.pc t pc) {u : T} (hut : u ≠ t) :
    s'.SplicedBy u n ↔ s.SplicedBy u n := by
  unfold SplicedBy
  rw [hpc, Function.update_of_ne hut]

/-- A thread that moves on is about to link a buffer if it moves to that point. -/
theorem splicedBy_self (hpc : s'.pc = Function.update s.pc t pc) :
    s'.SplicedBy t n ↔ ∃ op size, pc = .splice op n size := by
  unfold SplicedBy
  rw [hpc, Function.update_self]

/-- A step of a thread that neither leaves nor enters the point where it splices. -/
theorem splicing_same (hpc : s'.pc = Function.update s.pc t pc)
    (hbefore : ∀ op buffer size, s.pc t ≠ .splice op buffer size)
    (hafter : ∀ op buffer size, pc ≠ .splice op buffer size) :
    s'.Splicing n ↔ s.Splicing n := by
  refine exists_congr fun u => ?_
  by_cases hut : u = t
  · subst hut
    rw [splicedBy_self hpc]
    exact ⟨fun ⟨op, size, h⟩ => (hafter _ _ _ h).elim, fun ⟨op, size, h⟩ => (hbefore _ _ _ h).elim⟩
  · exact splicedBy_of_ne hpc hut

/-- A step of a thread that comes to the point where it splices `buffer`. -/
theorem splicing_enter {op : PoolOp} {buffer : ℕ} {size : UInt32}
    (hpc : s'.pc = Function.update s.pc t (.splice op buffer size))
    (hbefore : ∀ op buffer size, s.pc t ≠ .splice op buffer size) :
    s'.Splicing n ↔ n = buffer ∨ s.Splicing n := by
  constructor
  · rintro ⟨u, hu⟩
    by_cases hut : u = t
    · subst hut
      obtain ⟨op', size', heq⟩ := (splicedBy_self hpc).mp hu
      exact .inl (PoolPc.splice.inj heq).2.1.symm
    · exact .inr ⟨u, (splicedBy_of_ne hpc hut).mp hu⟩
  · rintro (rfl | ⟨u, hu⟩)
    · exact ⟨t, (splicedBy_self hpc).mpr ⟨op, size, rfl⟩⟩
    · have hut : u ≠ t := by
        rintro rfl
        obtain ⟨op', size', heq⟩ := hu
        exact hbefore _ _ _ heq
      exact ⟨u, (splicedBy_of_ne hpc hut).mpr hu⟩

/-- A step of the thread that splices `buffer`. -/
theorem splicing_leave {op : PoolOp} {buffer : ℕ} {size : UInt32}
    (hpc : s'.pc = Function.update s.pc t pc) (hbefore : s.pc t = .splice op buffer size)
    (hafter : ∀ op buffer size, pc ≠ .splice op buffer size)
    (hinj : ∀ u, s.SplicedBy u buffer → u = t) :
    s'.Splicing n ↔ n ≠ buffer ∧ s.Splicing n := by
  constructor
  · rintro ⟨u, hu⟩
    have hut : u ≠ t := by
      rintro rfl
      obtain ⟨op', size', heq⟩ := (splicedBy_self hpc).mp hu
      exact hafter _ _ _ heq
    have hu := (splicedBy_of_ne hpc hut).mp hu
    refine ⟨?_, u, hu⟩
    rintro rfl
    exact hut (hinj u hu)
  · rintro ⟨hn, u, hu⟩
    have hut : u ≠ t := by
      rintro rfl
      obtain ⟨op', size', heq⟩ := hu
      exact hn (PoolPc.splice.inj (heq.symm.trans hbefore)).2.1
    exact ⟨u, (splicedBy_of_ne hpc hut).mpr hu⟩

/-- The first section of a call does nothing to the buffers. -/
theorem firstSection_spec (s : PoolState T) (t : T) (op : PoolOp) :
    (s.firstSection t op).pool.linkHead = s.pool.linkHead ∧
      (s.firstSection t op).pool.mallocs = s.pool.mallocs ∧
      ∃ pc, (s.firstSection t op).pc = Function.update s.pc t pc ∧
        ∀ op' buffer size, pc ≠ .splice op' buffer size := by
  cases op with
  | getChunk => exact ⟨rfl, rfl, _, rfl, by split <;> simp⟩
  | getChunkList count => exact ⟨rfl, rfl, _, rfl, by split <;> [skip; split] <;> simp⟩
  | release chunk => cases chunk <;> exact ⟨rfl, rfl, _, rfl, by simp⟩

/-- The last section of a get operation does nothing to the buffers. -/
theorem takeSection_spec {op : PoolOp} (h : s.takeSection t op = .ok s') :
    s'.pool.linkHead = s.pool.linkHead ∧ s'.pool.mallocs = s.pool.mallocs ∧
      ∃ chunk, s'.pc = Function.update s.pc t (.done op chunk false) := by
  have hlist : ∀ {count chunk rbp}, s.pool.takeChunkList count = .ok (chunk, rbp) →
      rbp.linkHead = s.pool.linkHead ∧ rbp.mallocs = s.pool.mallocs := by
    intro count chunk rbp hok
    unfold BufferPool.takeChunkList at hok
    split at hok <;> cases hok <;> exact ⟨rfl, rfl⟩
  cases op with
  | getChunk =>
    rw [PoolState.takeSection, BufferPool.takeChunk_eq] at h
    cases htake : s.pool.takeChunkList 1 with
    | error e => simp [htake] at h
    | ok taken =>
      rw [htake] at h
      obtain rfl := Except.ok.inj h
      exact ⟨(hlist htake).1, (hlist htake).2, _, rfl⟩
  | getChunkList count =>
    rw [PoolState.takeSection] at h
    cases htake : s.pool.takeChunkList count with
    | error e => simp [htake] at h
    | ok taken =>
      rw [htake] at h
      obtain rfl := Except.ok.inj h
      exact ⟨(hlist htake).1, (hlist htake).2, _, rfl⟩
  | release chunk =>
    obtain rfl := Except.ok.inj h
    exact ⟨rfl, rfl, _, rfl⟩

/-- **What a step does to the buffers.** -/
theorem bufferStep_of_step {free : List ChunkPtr} {a : PoolAct T} (hinv : PoolInv s free)
    (hstep : poolStep s a = some (.ok s')) : s.BufferStep s' a := by
  cases a with
  | call t op =>
    simp only [poolStep] at hstep
    split at hstep
    · rename_i hpc
      split at hstep <;> cases hstep
      exact .same rfl rfl (fun n => splicing_same rfl (by simp [hpc]) (by simp)) (by simp)
    · cases hstep
  | lockedSection t =>
    simp only [poolStep] at hstep
    split at hstep
    · rename_i op hpc
      cases hstep
      obtain ⟨hlinked, hmallocs, pc, hpc', hafter⟩ := s.firstSection_spec t op
      exact .same hlinked hmallocs (fun n => splicing_same hpc' (by simp [hpc]) hafter) (by simp)
    · rename_i op buffer size hpc
      cases hstep
      refine .linked t op buffer size rfl hpc rfl rfl fun n => splicing_leave rfl hpc (by simp) ?_
      rintro u ⟨op', size', hu⟩
      exact hinv.splice_inj u t _ _ _ _ _ hu hpc
    · rename_i op hpc
      obtain ⟨hlinked, hmallocs, chunk, hpc'⟩ := takeSection_spec (Option.some.inj hstep)
      exact .same hlinked hmallocs (fun n => splicing_same hpc' (by simp [hpc]) (by simp)) (by simp)
    · cases hstep
  | alloc t result =>
    simp only [poolStep] at hstep
    split at hstep <;> cases hstep
    rename_i op size hpc
    cases result with
    | ok =>
      simp only [allocSection]
      split
      · rename_i hsize
        refine .same rfl rfl (fun n => splicing_same rfl (by simp [hpc]) (by simp)) ?_
        rintro u op' size' hact hu
        cases hact
        obtain ⟨-, rfl⟩ := PoolPc.append.inj (hpc.symm.trans hu)
        exact hsize
      · rename_i hsize
        have hpos : 0 < (BufferPool.appendSize size).toNat := by
          rw [Nat.pos_iff_ne_zero]
          exact fun h0 => hsize (UInt32.toNat_inj.mp h0)
        rw [BufferPool.newBuffer_eq _ hpos]
        exact .registered t op size rfl hpc hsize rfl rfl fun n =>
          splicing_enter rfl (by simp [hpc])
    | mallocFails | regMrFails =>
      exact .same rfl rfl (fun n => splicing_same rfl (by simp [hpc]) (by simp)) (by simp)
  | resume t =>
    simp only [poolStep] at hstep
    split at hstep <;> cases hstep
    rename_i hpc
    exact .same rfl rfl (fun n => splicing_same rfl (by simp [hpc]) (by simp)) (by simp)
  | pass t u chunk =>
    simp only [poolStep] at hstep
    split at hstep
    · split at hstep <;> cases hstep
      exact .same rfl rfl (fun n => Iff.rfl) (by simp)
    · cases hstep

end PoolState

/-! ### The invariant -/

/-- An allocation that uses up a number and links nothing. -/
theorem PoolInv.skipMalloc {T : Type} {s : PoolState T} {free : List ChunkPtr}
    (h : PoolInv s free) :
    PoolInv { s with pool := { s.pool with mallocs := s.pool.mallocs + 1 } } free where
  free_chain := { h.free_chain with }
  registered := { h.registered with
    allocated := fun node hnode => Nat.lt_succ_of_lt (h.registered.allocated node hnode) }
  owned := h.owned
  threads := fun t => (h.threads t).frame (fun _ hc => hc) (fun _ _ => rfl)
    fun _ _ _ _ hfresh => hfresh.frame (fun _ => rfl) (fun _ => rfl) hfresh.unlinked (Nat.le_succ _)
  splice_inj := h.splice_inj

/-- The pool after the `memset`, before any thread uses it. -/
theorem PoolInv.zeroed (T : Type) [DecidableEq T] :
    PoolInv (tokenPool T).init.threads [] where
  free_chain := ⟨rfl, rfl⟩
  registered := BufferPool.registered_zero
  owned := ⟨fun i => by cases i <;> exact List.nodup_nil,
    fun {i _ _} hi => by cases i <;> exact (List.not_mem_nil hi).elim,
    fun c => ⟨fun ⟨node, hnode, _⟩ => (List.not_mem_nil hnode).elim, fun ⟨i, hi⟩ => by
      cases i <;> exact (List.not_mem_nil hi).elim⟩⟩
  threads := fun _ => trivial
  splice_inj := fun _ _ _ _ _ _ _ hpc => nomatch hpc

/-- The tokens are those of the linked buffers, of the buffers about to be linked, and, but for the
region, of the buffers whose registration has failed. -/
structure TokenInv {T : Type} (s : TokenState T) (leaked : List ℕ) : Prop where
  /-- The pool is what its fields say. -/
  pool : ∃ free, PoolInv s.threads free
  /-- No buffer is empty, so each has a first chunk. -/
  nonempty : ∀ node ∈ s.threads.pool.linkHead, 0 < node.mr.size.toNat
  /-- No token is listed twice. -/
  nodup : s.live.Nodup
  /-- Which tokens are live. -/
  live_iff : ∀ t, t ∈ s.live ↔ s.threads.Linked t.buffer ∨ s.threads.Splicing t.buffer ∨
    t.buffer ∈ leaked ∧ t.kind ≠ .region
  /-- A buffer whose registration has failed was allocated. -/
  leaked_lt : ∀ n ∈ leaked, n < s.threads.pool.mallocs
  /-- It is not linked. -/
  leaked_unlinked : ∀ n ∈ leaked, ¬ s.threads.Linked n
  /-- No thread is about to link it. -/
  leaked_unspliced : ∀ n ∈ leaked, ¬ s.threads.Splicing n
  /-- Before the initialisation nothing has happened. -/
  zeroed : s.phase = .zeroed →
    s.threads = { pool := .zero, pc := fun _ => .idle, held := fun _ => [] }

namespace TokenInv

variable {T : Type} {s : TokenState T} {leaked : List ℕ} {threads : PoolState T} {phase : InitPhase}

/-- Linked buffers, and buffers about to be linked, have been allocated. -/
theorem lt_mallocs (h : TokenInv s leaked) {n : ℕ}
    (hn : s.threads.Linked n ∨ s.threads.Splicing n) : n < s.threads.pool.mallocs := by
  obtain ⟨free, hinv⟩ := h.pool
  rcases hn with ⟨node, hnode, rfl⟩ | ⟨t, op, size, hpc⟩
  · exact hinv.registered.allocated node hnode
  · have hthread := hinv.threads t
    rw [hpc] at hthread
    exact hthread.2.allocated

/-- The next buffer has no token yet. -/
theorem not_mem_live (h : TokenInv s leaked) {t : Token} (ht : t.buffer = s.threads.pool.mallocs) :
    t ∉ s.live := by
  rw [h.live_iff, ht]
  rintro (hn | hn | ⟨hn, -⟩)
  · exact (h.lt_mallocs (.inl hn)).ne rfl
  · exact (h.lt_mallocs (.inr hn)).ne rfl
  · exact (h.leaked_lt _ hn).ne rfl

/-- A step that does nothing to the buffers, and acquires nothing. -/
theorem same (h : TokenInv s leaked) (hpool : ∃ free, PoolInv threads free)
    (hlinked : threads.pool.linkHead = s.threads.pool.linkHead)
    (hmallocs : threads.pool.mallocs = s.threads.pool.mallocs)
    (hsplicing : ∀ n, threads.Splicing n ↔ s.threads.Splicing n) (hphase : phase ≠ .zeroed) :
    TokenInv ⟨threads, phase, s.live⟩ leaked := by
  have hlinked' : ∀ n, threads.Linked n ↔ s.threads.Linked n := fun n => by
    unfold PoolState.Linked
    rw [hlinked]
  refine ⟨hpool, ?_, h.nodup, fun t => ?_, ?_, fun n hn => ?_, fun n hn => ?_,
    fun hzero => (hphase hzero).elim⟩
  · rw [hlinked]
    exact h.nonempty
  · rw [hlinked', hsplicing]
    exact h.live_iff t
  · rw [hmallocs]
    exact h.leaked_lt
  · rw [hlinked']
    exact h.leaked_unlinked n hn
  · rw [hsplicing]
    exact h.leaked_unspliced n hn

/-- A buffer is allocated and cannot be registered. -/
theorem leak (h : TokenInv s leaked) (hphase : phase ≠ .zeroed) :
    TokenInv
      { threads := { s.threads with
          pool := { s.threads.pool with mallocs := s.threads.pool.mallocs + 1 } }
        phase := phase
        live := ⟨.chunkBuffer, s.threads.pool.mallocs⟩ ::
          ⟨.linkNode, s.threads.pool.mallocs⟩ :: s.live }
      (s.threads.pool.mallocs :: leaked) := by
  obtain ⟨free, hinv⟩ := h.pool
  refine ⟨⟨free, hinv.skipMalloc⟩, h.nonempty, ?_, fun t => ?_, ?_, ?_, ?_,
    fun hzero => (hphase hzero).elim⟩
  · exact List.nodup_cons.mpr ⟨by simpa using h.not_mem_live rfl,
      List.nodup_cons.mpr ⟨h.not_mem_live rfl, h.nodup⟩⟩
  · obtain ⟨kind, n⟩ := t
    simp only [List.mem_cons, h.live_iff, Token.mk.injEq]
    show _ ↔ s.threads.Linked n ∨ s.threads.Splicing n ∨ _
    cases kind <;> simp
    all_goals tauto
  · intro n hn
    rcases List.mem_cons.mp hn with rfl | hn
    · exact Nat.lt_succ_self _
    · exact Nat.lt_succ_of_lt (h.leaked_lt n hn)
  · intro n hn
    rcases List.mem_cons.mp hn with rfl | hn
    · exact fun hlinked => (h.lt_mallocs (.inl hlinked)).ne rfl
    · exact h.leaked_unlinked n hn
  · intro n hn
    rcases List.mem_cons.mp hn with rfl | hn
    · exact fun hsplicing => (h.lt_mallocs (.inr hsplicing)).ne rfl
    · exact h.leaked_unspliced n hn

/-- A buffer is allocated and registered: its thread is about to link it. -/
theorem registered (h : TokenInv s leaked) (hpool : ∃ free, PoolInv threads free)
    (hlinked : threads.pool.linkHead = s.threads.pool.linkHead)
    (hmallocs : threads.pool.mallocs = s.threads.pool.mallocs + 1)
    (hsplicing : ∀ n, threads.Splicing n ↔ n = s.threads.pool.mallocs ∨ s.threads.Splicing n) :
    TokenInv
      { threads := threads
        phase := .ready
        live := ⟨.region, s.threads.pool.mallocs⟩ :: ⟨.chunkBuffer, s.threads.pool.mallocs⟩ ::
          ⟨.linkNode, s.threads.pool.mallocs⟩ :: s.live } leaked := by
  have hlinked' : ∀ n, threads.Linked n ↔ s.threads.Linked n := fun n => by
    unfold PoolState.Linked
    rw [hlinked]
  refine ⟨hpool, ?_, ?_, fun t => ?_, fun n hn => ?_, fun n hn => ?_, fun n hn => ?_, nofun⟩
  · rw [hlinked]
    exact h.nonempty
  · simp [h.not_mem_live, h.nodup]
  · obtain ⟨kind, n⟩ := t
    simp only [List.mem_cons, h.live_iff, Token.mk.injEq, hlinked', hsplicing]
    cases kind <;> simp
    all_goals tauto
  · rw [hmallocs]
    exact Nat.lt_succ_of_lt (h.leaked_lt n hn)
  · rw [hlinked']
    exact h.leaked_unlinked n hn
  · rw [hsplicing]
    rintro (rfl | hn')
    · exact (h.leaked_lt _ hn).ne rfl
    · exact h.leaked_unspliced n hn hn'

/-- A registered buffer is linked. -/
theorem linked (h : TokenInv s leaked) {buffer : ℕ} {size : UInt32}
    (hpool : ∃ free, PoolInv threads free) (hpos : 0 < size.toNat)
    (hbuffer : s.threads.Splicing buffer)
    (hlinked : threads.pool.linkHead = ⟨buffer, ⟨buffer, size⟩⟩ :: s.threads.pool.linkHead)
    (hmallocs : threads.pool.mallocs = s.threads.pool.mallocs)
    (hsplicing : ∀ n, threads.Splicing n ↔ n ≠ buffer ∧ s.threads.Splicing n) :
    TokenInv ⟨threads, .ready, s.live⟩ leaked := by
  have hlinked' : ∀ n, threads.Linked n ↔ n = buffer ∨ s.threads.Linked n := fun n => by
    unfold PoolState.Linked
    rw [hlinked]
    simp [eq_comm]
  refine ⟨hpool, ?_, h.nodup, fun t => ?_, ?_, fun n hn => ?_, fun n hn => ?_, nofun⟩
  · rw [hlinked]
    intro node hnode
    rcases List.mem_cons.mp hnode with rfl | hnode
    · exact hpos
    · exact h.nonempty node hnode
  · show t ∈ s.live ↔ _
    rw [h.live_iff, hlinked', hsplicing]
    by_cases ht : t.buffer = buffer
    · simp [ht, hbuffer]
    · simp [ht]
  · rw [hmallocs]
    exact h.leaked_lt
  · rw [hlinked']
    rintro (rfl | hn')
    · exact h.leaked_unspliced _ hn hbuffer
    · exact h.leaked_unlinked n hn hn'
  · rw [hsplicing]
    exact fun hn' => h.leaked_unspliced n hn hn'.2

/-- A failed append, or one that asks for nothing. -/
theorem account (h : TokenInv ⟨threads, phase, s.live⟩ leaked)
    (hmallocs : threads.pool.mallocs = s.threads.pool.mallocs) (hphase : phase ≠ .zeroed)
    {a : TokenAct T}
    (hok : ∀ size, s.appending a = some (size, .ok) → BufferPool.appendSize size = 0) :
    TokenInv (s.account a threads phase) (s.noteLeak a leaked) := by
  unfold TokenState.account TokenState.noteLeak
  rcases happend : s.appending a with _ | ⟨size, result⟩
  · exact h
  · by_cases hsize : BufferPool.appendSize size = 0
    · simpa [RegistrationFails, Token.append, hsize] using h
    · cases result with
      | ok => exact (hsize (hok size happend)).elim
      | mallocFails => simpa [RegistrationFails, Token.append, hsize] using h
      | regMrFails => simpa [RegistrationFails, Token.append, hsize, hmallocs] using h.leak hphase

variable [DecidableEq T]

/-- Before the initialisation. -/
theorem init : TokenInv (tokenPool T).init [] := by
  refine ⟨⟨[], .zeroed T⟩, ?_, List.nodup_nil, fun t => ?_, nofun, nofun, nofun, fun _ => rfl⟩
  · exact fun node hnode => (List.not_mem_nil hnode).elim
  · simp [tokenPool, PoolState.Linked, PoolState.Splicing, PoolState.SplicedBy, BufferPool.zero]

/-- `init_rdma_buffer_pool` succeeds. -/
theorem initialised (h : TokenInv s leaked) (hphase : s.phase = .zeroed) :
    TokenInv
      (s.account (.init .ok) { s.threads with pool := BufferPool.init } .ready) leaked := by
  have hthreads := h.zeroed hphase
  obtain rfl : leaked = [] := by
    refine List.eq_nil_iff_forall_not_mem.mpr fun n hn => ?_
    have hlt := h.leaked_lt n hn
    rw [hthreads] at hlt
    exact Nat.not_lt_zero n hlt
  have hlive : s.live = [] := by
    refine List.eq_nil_iff_forall_not_mem.mpr fun t ht => ?_
    rw [h.live_iff, hthreads] at ht
    simp [PoolState.Linked, PoolState.Splicing, PoolState.SplicedBy, BufferPool.zero] at ht
  have hhead : BufferPool.init.linkHead = [⟨0, ⟨0, 4096⟩⟩] := by
    rw [BufferPool.init, BufferPool.spliceSection, BufferPool.newBuffer_eq _ (by decide)]
    rfl
  have hsize : BufferPool.appendSize rdmaBufferSize ≠ 0 := by decide
  simp only [TokenState.account, TokenState.appending, RegistrationFails, Token.append, hsize,
    hthreads, hlive, reduceCtorEq, false_and, if_false]
  refine ⟨⟨_, PoolInv.init⟩, ?_, by simp, fun t => ?_, by simp, by simp, by simp, by simp⟩
  · rw [hhead]
    simp
  · obtain ⟨kind, n⟩ := t
    simp only [PoolState.Linked, PoolState.Splicing, PoolState.SplicedBy, hhead, BufferPool.zero]
    cases kind <;> simp [eq_comm]

/-- **One step keeps the accounts.** -/
theorem step (h : TokenInv s leaked) {a : TokenAct T} {next : TokenState T × List ℕ}
    (hstep : (leakyPool T).step (s, leaked) a = some (.ok next)) : TokenInv next.1 next.2 := by
  obtain ⟨s', hs', rfl⟩ := map_map_eq_ok.mp hstep
  show TokenInv s' (s.noteLeak a leaked)
  simp only [tokenPool] at hs'
  cases a with
  | init result =>
    simp only [tokenStep] at hs'
    split at hs'
    · rename_i hphase
      have hfailed : TokenInv ⟨s.threads, .failed, s.live⟩ leaked :=
        h.same h.pool rfl rfl (fun _ => Iff.rfl) nofun
      cases result with
      | ok =>
        cases hs'
        exact h.initialised hphase
      | mallocFails | regMrFails =>
        cases hs'
        exact hfailed.account rfl nofun nofun
    · cases hs'
  | pool a =>
    simp only [tokenStep] at hs'
    split at hs'
    · obtain ⟨threads, hthreads, rfl⟩ := map_map_eq_ok.mp hs'
      obtain ⟨free, hinv⟩ := h.pool
      have hpool := poolInv_step hinv hthreads
      cases PoolState.bufferStep_of_step hinv hthreads with
      | same hlinked hmallocs hsplicing hact =>
        have hsame : TokenInv ⟨threads, .ready, s.live⟩ leaked :=
          h.same hpool hlinked hmallocs hsplicing nofun
        refine hsame.account hmallocs nofun fun size happend => ?_
        cases a with
        | alloc t result =>
          simp only [TokenState.appending] at happend
          split at happend <;> cases happend
          exact hact t _ size rfl ‹_›
        | call t op | lockedSection t | resume t | pass t u chunk => cases happend
      | registered t op size hact hpc hsize hlinked hmallocs hsplicing =>
        subst hact
        have hnext := h.registered hpool hlinked hmallocs hsplicing
        simpa [TokenState.account, TokenState.noteLeak, TokenState.appending, hpc,
          RegistrationFails, Token.append, hsize] using hnext
      | linked t op buffer size hact hpc hlinked hmallocs hsplicing =>
        subst hact
        have hthread := hinv.threads t
        rw [hpc] at hthread
        exact h.linked hpool hthread.2.pos ⟨t, op, size, hpc⟩ hlinked hmallocs hsplicing
    · cases hs'

end TokenInv

/-! ### Destroying the pool -/

namespace BufferPool

variable {rbp : BufferPool} {ledger : Ledger Token} {rest : List Token}

/-- A turn of the loop gives the three tokens of its node back. -/
theorem destroyNode_eq {p : LinkNode} (hmr : rbp.mr ⟨p.buffer, 0⟩ = some p.mr)
    (hregion : p.mr.buffer = p.buffer) (hlive : ∀ t ∈ Token.ofBuffer p.buffer, t ∈ ledger.live) :
    rbp.destroyNode p ledger = ledger.giveBackAll (Token.ofBuffer p.buffer) := by
  have hread : ⟨.linkNode, p.buffer⟩ ∈ ledger.live ∧ ⟨.chunkBuffer, p.buffer⟩ ∈ ledger.live :=
    ⟨hlive _ (by simp), hlive _ (by simp)⟩
  rw [destroyNode, if_pos hread, hmr, Token.ofBuffer]
  simp only [hregion]
  rw [Ledger.giveBackAll]
  refine bind_congr fun ledger => ?_
  rw [Ledger.giveBackAll]
  exact bind_congr fun ledger => (ledger.giveBackAll_singleton _).symm

/-- The loop gives the tokens of all its nodes back. -/
theorem destroyNodes_of_perm {nodes : List LinkNode}
    (hregion : ∀ node ∈ nodes, rbp.mr ⟨node.buffer, 0⟩ = some node.mr ∧
      node.mr.buffer = node.buffer)
    (hlive : ledger.live.Perm (nodes.flatMap (fun node => Token.ofBuffer node.buffer) ++ rest)) :
    ∃ live, rbp.destroyNodes nodes ledger = .ok ⟨live, ledger.given ++
      nodes.flatMap fun node => Token.ofBuffer node.buffer⟩ ∧ live.Perm rest := by
  induction nodes generalizing ledger with
  | nil => exact ⟨ledger.live, by simp [destroyNodes], hlive⟩
  | cons p nodes ih =>
    rw [List.flatMap_cons, List.append_assoc] at hlive
    obtain ⟨hmr, hbuffer⟩ := hregion p List.mem_cons_self
    have hmem : ∀ t ∈ Token.ofBuffer p.buffer, t ∈ ledger.live := fun t ht =>
      hlive.mem_iff.mpr (List.mem_append_left _ ht)
    obtain ⟨live₁, hgive, hlive₁⟩ := Ledger.giveBackAll_of_perm hlive
    let ledger₁ : Ledger Token := ⟨live₁, ledger.given ++ Token.ofBuffer p.buffer⟩
    have hlive₁ : ledger₁.live.Perm _ := hlive₁
    obtain ⟨live, hloop, hrest⟩ :=
      ih (fun node hnode => hregion node (List.mem_cons_of_mem _ hnode)) hlive₁
    refine ⟨live, ?_, hrest⟩
    rw [destroyNodes, destroyNode_eq hmr hbuffer hmem, hgive, ok_bind, hloop, List.flatMap_cons,
      List.append_assoc]

end BufferPool

/-! ### Exactly when the tokens are owned -/

namespace TokenInv

variable {T : Type} {s : TokenState T} {leaked : List ℕ}

/-- A token has as many nodes as its buffer is linked: one or none. -/
theorem countP_eq_one (h : TokenInv s leaked) {t : Token} :
    s.threads.pool.linkHead.countP (fun node => t ∈ node.tokens) = 1 ↔
      s.threads.Linked t.buffer := by
  obtain ⟨free, hinv⟩ := h.pool
  have hcount : s.threads.pool.linkHead.countP (fun node => t ∈ node.tokens) =
      (s.threads.pool.linkHead.map LinkNode.buffer).count t.buffer := by
    rw [List.count, List.countP_map]
    refine List.countP_congr fun node hnode => ?_
    rw [LinkNode.tokens_eq (hinv.registered.region node hnode).1]
    simp only [Token.mem_ofBuffer, decide_eq_true_eq, Function.comp_apply, beq_iff_eq]
    exact eq_comm
  rw [hcount, hinv.registered.distinct.count]
  simp [PoolState.Linked]

/-- **What is live is what the nodes own**, if no registration has failed and no append is under
way. -/
theorem live_perm (h : TokenInv s []) (hsplicing : ∀ n, ¬ s.threads.Splicing n) :
    s.live.Perm (s.threads.pool.linkHead.flatMap fun node => Token.ofBuffer node.buffer) := by
  obtain ⟨free, hinv⟩ := h.pool
  have hnodup : (s.threads.pool.linkHead.flatMap fun node => Token.ofBuffer node.buffer).Nodup := by
    refine List.nodup_flatMap.mpr ⟨fun node _ => by simp [Token.ofBuffer], ?_⟩
    refine (List.pairwise_map.mp hinv.registered.distinct).imp fun {node node'} hne t ht ht' => ?_
    exact hne ((Token.mem_ofBuffer.mp ht).symm.trans (Token.mem_ofBuffer.mp ht'))
  refine (List.perm_ext_iff_of_nodup h.nodup hnodup).mpr fun t => ?_
  rw [h.live_iff]
  simp [hsplicing, PoolState.Linked, eq_comm]

/-- Destroying the pool then gives everything back. -/
theorem destroyed (h : TokenInv s []) (hsplicing : ∀ n, ¬ s.threads.Splicing n) :
    ∃ rbp given, s.threads.pool.destroyRdmaBufferPool s.live = .ok (rbp, ⟨[], given⟩) ∧
      ∀ t ∈ s.live, given.count t = 1 := by
  obtain ⟨free, hinv⟩ := h.pool
  have hperm := h.live_perm hsplicing
  -- the first chunk of a buffer knows the node's region
  have hregion : ∀ node ∈ s.threads.pool.linkHead,
      s.threads.pool.mr ⟨node.buffer, 0⟩ = some node.mr ∧ node.mr.buffer = node.buffer := by
    intro node hnode
    obtain ⟨hbuffer, hmr⟩ := hinv.registered.region node hnode
    exact ⟨hmr 0 (h.nonempty node hnode), hbuffer⟩
  have hlive : (⟨s.live, []⟩ : Ledger Token).live.Perm
      ((s.threads.pool.linkHead.flatMap fun node => Token.ofBuffer node.buffer) ++ []) := by
    rwa [List.append_nil]
  obtain ⟨live, hdestroy, hrest⟩ := BufferPool.destroyNodes_of_perm hregion hlive
  obtain rfl := hrest.eq_nil
  rw [List.nil_append] at hdestroy
  refine ⟨_, _, by rw [BufferPool.destroyRdmaBufferPool, hdestroy]; rfl, fun t ht => ?_⟩
  exact List.count_eq_one_of_mem (hperm.nodup_iff.mp h.nodup) (hperm.mem_iff.mp ht)

/-- **The tokens are owned** if and only if no registration has failed and no append is under
way. -/
theorem owned_iff (h : TokenInv s leaked) :
    Owned s ↔ leaked = [] ∧ ∀ t op buffer size, s.threads.pc t ≠ .splice op buffer size := by
  constructor
  · intro howned
    constructor
    · -- the node of a buffer that could not be registered is live, and nowhere linked
      refine List.eq_nil_iff_forall_not_mem.mpr fun n hn => h.leaked_unlinked n hn ?_
      have hlive : ⟨.linkNode, n⟩ ∈ s.live := (h.live_iff _).mpr (.inr (.inr ⟨hn, nofun⟩))
      exact h.countP_eq_one.mp (howned.one_node _ hlive)
    · -- so is that of a buffer about to be linked
      intro t op buffer size hpc
      have hsplicing : s.threads.Splicing buffer := ⟨t, op, size, hpc⟩
      have hlive : ⟨.linkNode, buffer⟩ ∈ s.live := (h.live_iff _).mpr (.inr (.inl hsplicing))
      obtain ⟨node, hnode, hbuffer⟩ := h.countP_eq_one.mp (howned.one_node _ hlive)
      obtain ⟨free, hinv⟩ := h.pool
      have hthread := hinv.threads t
      rw [hpc] at hthread
      exact hthread.2.unlinked node hnode hbuffer
  · rintro ⟨rfl, hpc⟩
    have hsplicing : ∀ n, ¬ s.threads.Splicing n := fun n ⟨t, op, size, ht⟩ => hpc t op n size ht
    refine ⟨fun t ht => h.countP_eq_one.mpr ?_, h.destroyed hsplicing⟩
    simpa [hsplicing] using (h.live_iff t).mp ht

end TokenInv

variable {T : Type} [DecidableEq T]

/-- The accounts hold in every reachable state. -/
theorem tokenInv_of_reachable {P : TokenState T × List ℕ → TokenAct T → Prop}
    {s : TokenState T × List ℕ} (hs : (leakyPool T).ReachableUnder P s) : TokenInv s.1 s.2 := by
  induction hs with
  | init => exact .init
  | next _ _ hstep ih => exact ih.step hstep

/-- **Exactly when every token is owned.** In every reachable state, for any number of threads and
whatever `malloc` and `ibv_reg_mr` answer: if and only if no `ibv_reg_mr` has failed behind a
successful `malloc`, and no thread has a buffer that it is still to link. -/
theorem owned_iff_of_reachable {s : TokenState T} {leaked : List ℕ}
    (hs : (leakyPool T).Reachable (s, leaked)) :
    Owned s ↔ leaked = [] ∧ ∀ t op buffer size, s.threads.pc t ≠ .splice op buffer size :=
  (tokenInv_of_reachable hs).owned_iff

/-- A thread asks a pool of 4096 chunks for 4097, and is about to append. -/
theorem appending_reachable : ∃ s : TokenState Unit, (leakyPool Unit).Reachable (s, []) ∧
    s.threads.pc () = .append (.getChunkList 4097) 1 ∧ s.phase = .ready ∧
    s.live.length = 3 := by
  have hs := Machine.ReachableUnder.init (M := leakyPool Unit) (P := fun _ _ => True)
  have hs := hs.next (a := TokenAct.init .ok) trivial rfl
  have hs := hs.next (a := TokenAct.pool (.call () (.getChunkList 4097))) trivial rfl
  have hs := hs.next (a := TokenAct.pool (.lockedSection ())) trivial rfl
  refine ⟨_, hs, ?_, rfl, rfl⟩
  have hok : ¬ RegistrationFails rdmaBufferSize .ok := by decide
  have hshort : (4096 : UInt32) < 4097 := by decide
  simp only [TokenState.account, TokenState.appending, PoolState.firstSection, PoolState.goto,
    Function.update_self, if_neg hok, BufferPool.freeSize_init]
  rw [if_neg (by decide), if_pos hshort]
  rfl

/-- A pool that has been set up and has grown owns the three tokens of each of its buffers. -/
theorem owned_iff_of_reachable_grown : ∃ s : TokenState Unit,
    (tokenPool Unit).Reachable s ∧ s.live.length = 6 ∧ Owned s := by
  obtain ⟨s, hs, hpc, hphase, hlive⟩ := appending_reachable
  have hok : ¬ RegistrationFails 1 .ok := by decide
  -- the buffer is allocated and registered
  obtain ⟨s₁, hs₁, hpc₁, hphase₁, hlive₁⟩ : ∃ s₁, (leakyPool Unit).Reachable (s₁, []) ∧
      s₁.threads.pc () = .splice (.getChunkList 4097) s.threads.pool.mallocs 4096 ∧
      s₁.phase = .ready ∧ s₁.live.length = 6 := by
    refine ⟨s.account (.pool (.alloc () .ok))
      (s.threads.allocSection () (.getChunkList 4097) 1 .ok) .ready,
      hs.next (a := TokenAct.pool (.alloc () .ok)) trivial ?_, ?_, ?_, ?_⟩
    · simp [leakyPool, Machine.recording, tokenPool, tokenStep, hphase, poolStep, hpc, Except.map,
        TokenState.noteLeak, TokenState.appending, hok]
    · have hsize : BufferPool.appendSize 1 = 4096 := by decide
      simp [TokenState.account, TokenState.appending, hpc, hok, PoolState.allocSection, hsize]
    · simp [TokenState.account, TokenState.appending, hpc]
    · have hsize : BufferPool.appendSize 1 ≠ 0 := by decide
      simp [TokenState.account, TokenState.appending, hpc, Token.append, hsize, hlive]
  -- and linked
  have hlink : (leakyPool Unit).step (s₁, []) (.pool (.lockedSection ())) =
      some (.ok (s₁.account (.pool (.lockedSection ()))
        { s₁.threads.goto () (.take (.getChunkList 4097)) with
          pool := s₁.threads.pool.spliceSection s.threads.pool.mallocs 4096 } .ready, [])) := by
    simp [leakyPool, Machine.recording, tokenPool, tokenStep, hphase₁, poolStep, hpc₁, Except.map,
      TokenState.noteLeak, TokenState.appending]
  have hs₂ := hs₁.next trivial hlink
  refine ⟨_, (Machine.reachable_iff_recording _ _).mpr ⟨_, hs₂⟩, hlive₁,
    (owned_iff_of_reachable hs₂).mpr ⟨rfl, fun _ _ _ _ => ?_⟩⟩
  simp [TokenState.account, TokenState.appending, PoolState.goto]

/-- **A failed registration leaks its buffer.** The pool has 4096 chunks, a thread asks for 4097,
`malloc` succeeds and `ibv_reg_mr` fails: when the thread is back from its call, the node and the
buffer are live and belong to no node of the pool. -/
theorem leaks_buffer : ¬ ∀ s : TokenState Unit,
    (tokenPool Unit).Reachable s → (∀ t, s.threads.pc t = .idle) → Owned s := by
  intro hall
  obtain ⟨s, hs, hpc, hphase, -⟩ := appending_reachable
  -- the registration fails, and the thread goes on with NULL
  have hfails : RegistrationFails 1 .regMrFails := by decide
  have hfail : (leakyPool Unit).step (s, []) (.pool (.alloc () .regMrFails)) =
      some (.ok (s.account (.pool (.alloc () .regMrFails))
        (s.threads.goto () (.done (.getChunkList 4097) none true)) .ready,
        [s.threads.pool.mallocs])) := by
    simp [leakyPool, Machine.recording, tokenPool, tokenStep, hphase, poolStep, hpc, Except.map,
      PoolState.allocSection, TokenState.noteLeak, TokenState.appending, hfails]
  have hs := hs.next trivial hfail
  have hresume : (leakyPool Unit).step (s.account (.pool (.alloc () .regMrFails))
        (s.threads.goto () (.done (.getChunkList 4097) none true)) .ready,
        [s.threads.pool.mallocs]) (.pool (.resume ())) =
      some (.ok ((s.account (.pool (.alloc () .regMrFails))
        (s.threads.goto () .idle) .ready), [s.threads.pool.mallocs])) := by
    simp [leakyPool, Machine.recording, tokenPool, tokenStep, poolStep, TokenState.account,
      TokenState.noteLeak, TokenState.appending, hpc, hfails, Except.map, PoolState.goto]
  have hs := hs.next trivial hresume
  have hreachable := (Machine.reachable_iff_recording _ _).mpr ⟨_, hs⟩
  have howned := hall _ hreachable fun t => by
    simp [TokenState.account, TokenState.appending, hpc, hfails]
  exact List.cons_ne_nil _ _ ((tokenInv_of_reachable hs).owned_iff.mp howned).1

end SparkRdma
