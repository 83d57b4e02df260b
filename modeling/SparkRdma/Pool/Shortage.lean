import SparkRdma.Pool.Sequential

/-! # When the pool runs dry

A get operation checks `free_size` in one section and takes its chunks in another, so the chunks it
counted on may be gone when it takes. What the check finds free and the append adds is at least what
the operation takes; the chunks over, its spare ones, are what other threads may take in between.

* **`NeverDry`** — a list operation that asked for chunks has got exactly as many, or a failed
  append.
* **`Window`** — for each thread, the spare chunks of its last check, and what the other threads
  have taken and given back since.
* **`runs_dry`** — a thread that found 4096 chunks free and wants one dereferences NULL after
  another thread has taken all of them.
* **`neverDry_of_spared`** — in the runs in which no thread takes more from another one's window
  than its spare chunks and what was given back, no step faults and every list is complete.
* **`dry_of_not_spared`** — where a thread takes more, the other one faults or comes back without
  its chunks. -/

namespace SparkRdma

open Interleaving LinkedList Blocks

/-- The chunks that a get operation for `count` chunks leaves over, of those that its check of
`free_size` finds and its append adds. -/
def BufferPool.spare (rbp : BufferPool) (count : UInt32) : ℕ :=
  rbp.freeSize.toNat + rbp.growth count - count.toNat

/-- The window of a get operation: what has happened since its check. -/
structure Window where
  /-- The chunks it counts on and does not take. -/
  spare : ℕ
  /-- The chunks other threads have taken. -/
  taken : ℕ
  /-- The chunks other threads have released or appended. -/
  given : ℕ

/-- The operation of a thread that stands between its check and its take, and how many chunks it has
still to append. -/
def PoolPc.window? : PoolPc → Option (PoolOp × ℕ)
  | append op size =>
      some (op, blockCount rdmaBufferSize.toNat size.toNat * rdmaBufferSize.toNat)
  | splice op _ size => some (op, size.toNat)
  | take op => some (op, 0)
  | _ => none

namespace PoolState

variable {T : Type}

/-- The condition on a step that `malloc` and `ibv_reg_mr` succeed. -/
def AllocSucceeds (_ : PoolState T) : PoolAct T → Prop
  | .alloc _ result => result = .ok
  | _ => True

/-- A call of `get_rdma_chunk_list_from_pool` for `count >= 1` chunks has returned a chain of
exactly `count` chunks, or an append has failed in it and it has returned NULL. -/
def NeverDry (s : PoolState T) : Prop :=
  ∀ t count chunk failed, s.pc t = .done (.getChunkList count) chunk failed → count ≠ 0 →
    (failed = true ∧ chunk = none) ∨
      ∃ first l, chunk = some first ∧ Chain s.pool.next (some first) l ∧ l.length = count.toNat

variable [DecidableEq T]

/-- In this state no call has come up short, and no step faults. -/
def Supplied (s : PoolState T) : Prop :=
  s.NeverDry ∧ ∀ a e, (bufferPool T).step s a ≠ some (.error e)

/-- What a step does to the windows: a check opens that of its thread; a section that takes chunks
takes them from those of the other threads, and one that releases or appends chunks gives them to
those. -/
def noteWindows (s : PoolState T) (a : PoolAct T) (w : T → Window) : T → Window :=
  match a with
  | .lockedSection t =>
      match s.pc t with
      | .called (.release none) => w
      | .called (.release (some _)) => fun u =>
          if u = t then w u else { w u with given := (w u).given + 1 }
      | .called op => Function.update w t ⟨s.pool.spare op.count, 0, 0⟩
      | .splice _ _ size => fun u =>
          if u = t then w u else { w u with given := (w u).given + size.toNat }
      | .take op => fun u =>
          if u = t then w u else { w u with taken := (w u).taken + op.count.toNat }
      | _ => w
  | _ => w

end PoolState

open PoolState

/-- The pool and its threads, recording the windows. -/
def bufferPoolWindows (T : Type) [DecidableEq T] :
    Machine (PoolState T × (T → Window)) CFault (PoolAct T) :=
  (bufferPool T).recording (fun _ => ⟨0, 0, 0⟩) noteWindows

/-- The condition on a step that a section which takes chunks does not take more from another
thread's window than its spare chunks and what was given back. -/
def Spared {T : Type} (s : PoolState T × (T → Window)) : PoolAct T → Prop
  | .lockedSection t => ∀ op, s.1.pc t = .take op → ∀ u, u ≠ t → ∀ o, (s.1.pc u).window? = some o →
      (s.2 u).taken + op.count.toNat ≤ (s.2 u).spare + (s.2 u).given
  | _ => True

/-! ### The race -/

/-- **The pool runs dry.** Thread `false` wants one chunk and finds 4096 free; thread `true` takes
all of them; thread `false` goes on to take the head of an empty list. -/
theorem runs_dry : ¬ ∀ s : PoolState Bool,
    (bufferPool Bool).ReachableUnder AllocSucceeds s → s.Supplied := by
  intro hall
  obtain ⟨s, hs, hpool, hfalse, htrue⟩ : ∃ s, (bufferPool Bool).ReachableUnder AllocSucceeds s ∧
      s.pool = BufferPool.init ∧ s.pc false = .take .getChunk ∧
      s.pc true = .take (.getChunkList 4096) := by
    have hs := Machine.ReachableUnder.init (M := bufferPool Bool) (P := AllocSucceeds)
    have hs := hs.next (a := PoolAct.call false .getChunk) trivial rfl
    have hs := hs.next (a := PoolAct.lockedSection false) trivial rfl
    rw [firstSection, if_neg (by rw [goto, bufferPool, BufferPool.freeSize_init]; decide)] at hs
    have hs := hs.next (a := PoolAct.call true (.getChunkList 4096)) trivial rfl
    have hs := hs.next (a := PoolAct.lockedSection true) trivial rfl
    rw [firstSection, if_neg (by decide),
      if_neg (by simp only [goto, bufferPool, BufferPool.freeSize_init]; decide)] at hs
    exact ⟨_, hs, by simp only [goto, bufferPool], by simp [goto], by simp [goto]⟩
  obtain ⟨free, hfree⟩ := poolInv_of_reachable hs
  have hlength : free.length = 4096 := by
    have hchain := hfree.free_chain.chain
    rw [hpool] at hchain
    rw [hchain.unique BufferPool.freeChain_init.chain, BufferPool.length_bufferChunks]
  have hcount : (4096 : UInt32).toNat = 4096 := rfl
  -- thread `true` empties the list
  obtain ⟨-, s', chunk, htake, hpc, hempty⟩ | ⟨hshort, -⟩ | ⟨hshort, -⟩ :=
    hfree.takeSection_cases htrue
  · have hs' : (bufferPool Bool).ReachableUnder AllocSucceeds s' :=
      hs.next (a := PoolAct.lockedSection true) trivial
        (by simp [bufferPool, poolStep, htrue, htake])
    have hfalse' : s'.pc false = .take .getChunk := by simp [hpc, hfalse]
    rw [List.drop_of_length_le (by simp only [PoolOp.count]; omega)] at hempty
    -- thread `false` takes from it
    obtain ⟨hle, -⟩ | ⟨hshort, -⟩ | ⟨-, hfault⟩ := hempty.takeSection_cases hfalse'
    · exact absurd hle (by decide)
    · exact absurd hshort (by decide)
    · exact (hall s' hs').2 (.lockedSection false) .nullDeref
        (by simp [bufferPool, poolStep, hfalse', hfault])
  · simp only [PoolOp.count] at hshort
    omega
  · simp only [PoolOp.count] at hshort
    omega

/-! ### What is left of a window -/

/-- What a get operation finds and adds is what it takes and what it spares: the check sees to
that. -/
theorem BufferPool.count_add_spare (rbp : BufferPool) (count : UInt32) :
    count.toNat + rbp.spare count = rbp.freeSize.toNat + rbp.growth count := by
  have hcover := (isLeast_growth rbp count).1.2
  simp only [spare]
  omega

/-- A window that began with a check: with `n` chunks free and `more` to be appended, the operation
finds what it takes and what is left of the spare chunks. The check sees `free_size`, so the numbers
agree up to a multiple of `2^32`. -/
structure Window.Holds (w : Window) (n : ℕ) (op : PoolOp) (more : ℕ) : Prop where
  /-- What is there, and what was taken away. -/
  balance : ∃ k, op.count.toNat + w.spare + w.given + 2 ^ 32 * k = n + w.taken + more
  /-- No more was taken than there was to spare. -/
  spared : w.taken ≤ w.spare + w.given

namespace Window.Holds

variable {w : Window} {n more : ℕ} {op : PoolOp}

/-- The operation finds what it takes. -/
theorem count_le (h : w.Holds n op 0) : op.count.toNat ≤ n := by
  obtain ⟨k, hk⟩ := h.balance
  have := h.spared
  omega

/-- Chunks are given back. -/
theorem give (h : w.Holds n op more) (k : ℕ) :
    ({ w with given := w.given + k } : Window).Holds (k + n) op more := by
  obtain ⟨j, hj⟩ := h.balance
  have hspared := h.spared
  exact ⟨⟨j, by simp only; omega⟩, by simp only; omega⟩

/-- Chunks are taken that can be spared. -/
theorem take (h : w.Holds n op more) {k : ℕ} (hk : k ≤ n)
    (hspared : w.taken + k ≤ w.spare + w.given) :
    ({ w with taken := w.taken + k } : Window).Holds (n - k) op more := by
  obtain ⟨j, hj⟩ := h.balance
  exact ⟨⟨j, by simp only; omega⟩, hspared⟩

/-- The append adds its chunks. -/
theorem append (h : w.Holds n op more) : w.Holds (more + n) op 0 := by
  obtain ⟨j, hj⟩ := h.balance
  exact ⟨⟨j, by omega⟩, h.spared⟩

end Window.Holds

/-- The pool has the chunks `free` on its free list, every window holds, and a list operation has
returned NULL only if it was asked for nothing or an append has failed. -/
structure WindowsInv {T : Type} (s : PoolState T) (w : T → Window) (free : List ChunkPtr) :
    Prop where
  /-- The pool. -/
  pool : PoolInv s free
  /-- The windows. -/
  windows : ∀ t op more, (s.pc t).window? = some (op, more) → (w t).Holds free.length op more
  /-- The returns. -/
  answered : ∀ t count, s.pc t = .done (.getChunkList count) none false → count = 0

namespace WindowsInv

variable {T : Type} [DecidableEq T] {s s' : PoolState T} {w w' : T → Window}
  {free free' : List ChunkPtr} {t : T}

/-- A step of thread `t`: what remains to be shown is what becomes of the windows. -/
theorem of_step (h : WindowsInv s w free) {pc : PoolPc} (hpc : s'.pc = Function.update s.pc t pc)
    (hpool : PoolInv s' free')
    (hown : ∀ op more, pc.window? = some (op, more) → (w' t).Holds free'.length op more)
    (hother : ∀ u, u ≠ t → ∀ op more, (s.pc u).window? = some (op, more) →
      (w u).Holds free.length op more → (w' u).Holds free'.length op more)
    (hdone : ∀ count, pc = .done (.getChunkList count) none false → count = 0) :
    WindowsInv s' w' free' := by
  refine ⟨hpool, fun u op more hu => ?_, fun u count hu => ?_⟩
  · rw [hpc] at hu
    by_cases hut : u = t
    · subst hut
      exact hown op more (by rwa [Function.update_self] at hu)
    · rw [Function.update_of_ne hut] at hu
      exact hother u hut op more hu (h.windows u op more hu)
  · rw [hpc] at hu
    by_cases hut : u = t
    · subst hut
      exact hdone count (by rwa [Function.update_self] at hu)
    · exact h.answered u count (by rwa [Function.update_of_ne hut] at hu)

/-- A step that only moves thread `t` on, out of a window or not into one. -/
theorem goto (h : WindowsInv s w free) {pc : PoolPc} (hpool : PoolInv (s.goto t pc) free)
    (hwindow : pc.window? = none)
    (hdone : ∀ count, pc ≠ .done (.getChunkList count) none false) :
    WindowsInv (s.goto t pc) w free := by
  refine h.of_step rfl hpool (fun op more hopen => ?_) (fun _ _ _ _ _ hw => hw)
    fun count hpc => absurd hpc (hdone count)
  rw [hwindow] at hopen
  cases hopen

omit [DecidableEq T] in
/-- **A check opens a window that holds.** -/
theorem holds_check (h : PoolInv s free) {op : PoolOp} {more : ℕ}
    (hmore : s.pool.growth op.count = more) :
    Window.Holds ⟨s.pool.spare op.count, 0, 0⟩ free.length op more := by
  have hsum := s.pool.count_add_spare op.count
  have hsize : s.pool.freeSize.toNat = free.length % 2 ^ 32 := by
    rw [h.free_chain.size, UInt32.toNat_ofNat']
  refine ⟨⟨free.length / 2 ^ 32, ?_⟩, Nat.zero_le _⟩
  have hdiv := Nat.div_add_mod free.length (2 ^ 32)
  simp only
  omega

/-- The check of a get operation, which goes on with `pc`. -/
theorem check (h : WindowsInv s w free) (op : PoolOp) {pc : PoolPc}
    (hpool : PoolInv (s.goto t pc) free)
    (hpc : ∀ op' more, pc.window? = some (op', more) →
      op' = op ∧ s.pool.growth op.count = more)
    (hdone : ∀ count, pc = .done (.getChunkList count) none false → count = 0) :
    WindowsInv (s.goto t pc) (Function.update w t ⟨s.pool.spare op.count, 0, 0⟩) free := by
  refine h.of_step rfl hpool (fun op' more hwindow => ?_) (fun u hut _ _ _ hw => ?_) hdone
  · obtain ⟨rfl, hmore⟩ := hpc op' more hwindow
    rw [Function.update_self]
    exact holds_check h.pool hmore
  · rwa [Function.update_of_ne hut]

/-- What the list operation appends when it finds too little is its growth. -/
theorem growth_of_lt {rbp : BufferPool} {count : UInt32} (hlt : rbp.freeSize < count) :
    rbp.growth count = blockCount rdmaBufferSize.toNat (count - rbp.freeSize).toNat *
      rdmaBufferSize.toNat := by
  have hle := UInt32.le_iff_toNat_le.mpr (UInt32.lt_iff_toNat_lt.mp hlt).le
  rw [BufferPool.growth, UInt32.toNat_sub_of_le _ _ hle]

/-- The first section of a call. -/
theorem firstSection (h : WindowsInv s w free) {op : PoolOp} (hpc : s.pc t = .called op)
    (hstep : (bufferPool T).step s (.lockedSection t) = some (.ok s')) :
    ∃ free', WindowsInv s' (noteWindows s (.lockedSection t) w) free' := by
  obtain ⟨free', hpool⟩ := h.pool.firstSection hpc
  simp only [bufferPool, poolStep, hpc, Option.some.injEq, Except.ok.injEq] at hstep
  subst hstep
  simp only [noteWindows, hpc]
  have hkeep : ∀ pc, PoolInv (s.goto t pc) free' → PoolInv (s.goto t pc) free := by
    intro pc hpool
    have hchain : Chain s.pool.next s.pool.freeList free' := hpool.free_chain.chain
    rwa [← hchain.unique h.pool.free_chain.chain]
  cases op with
  | getChunk =>
    refine ⟨free, h.check .getChunk (hkeep _ hpool) (fun op' more hwindow => ?_) ?_⟩
    · split at hwindow
      · rename_i hzero
        obtain ⟨rfl, rfl⟩ := Prod.mk.inj (Option.some.inj hwindow)
        refine ⟨rfl, ?_⟩
        simp only [BufferPool.growth, hzero, PoolOp.count]
        rfl
      · rename_i hne
        obtain ⟨rfl, rfl⟩ := Prod.mk.inj (Option.some.inj hwindow)
        refine ⟨rfl, BufferPool.growth_eq_zero fun hlt => hne ?_⟩
        have hlt := UInt32.lt_iff_toNat_lt.mp hlt
        simp only [PoolOp.count, UInt32.toNat_one] at hlt
        exact UInt32.toNat_inj.mp (by simpa using hlt)
    · intro _ hdone
      split at hdone <;> cases hdone
  | getChunkList count =>
    refine ⟨free, h.check (.getChunkList count) (hkeep _ hpool) (fun op' more hwindow => ?_)
      fun count' hdone => ?_⟩
    · split at hwindow
      · cases hwindow
      · split at hwindow
        · obtain ⟨rfl, rfl⟩ := Prod.mk.inj (Option.some.inj hwindow)
          exact ⟨rfl, growth_of_lt ‹_›⟩
        · obtain ⟨rfl, rfl⟩ := Prod.mk.inj (Option.some.inj hwindow)
          exact ⟨rfl, BufferPool.growth_eq_zero ‹_›⟩
    · split at hdone
      · simp only [PoolPc.done.injEq, PoolOp.getChunkList.injEq, and_true] at hdone
        exact hdone ▸ ‹count = 0›
      · split at hdone <;> cases hdone
  | release chunk =>
    cases chunk with
    | none => exact ⟨free, h.goto (hkeep _ hpool) rfl (by simp)⟩
    | some chunk =>
      have hchunk := h.pool.threads t
      rw [hpc] at hchunk
      refine ⟨chunk :: free, h.of_step rfl (h.pool.release hchunk)
        (fun _ _ hwindow => by cases hwindow) (fun u hut op more hwindow hw => ?_)
        fun _ hdone => by cases hdone⟩
      simp only [if_neg hut]
      rw [List.length_cons, Nat.add_comm free.length 1]
      exact hw.give 1

/-- `append_rdma_buffer_pool` up to the lock: rounding up has not wrapped when it goes on. -/
theorem allocSection (h : WindowsInv s w free) {op : PoolOp} {size : UInt32}
    (hpc : s.pc t = .append op size) (result : AllocResult) :
    WindowsInv (s.allocSection t op size result) w free := by
  have hpool := h.pool.allocSection hpc result
  cases result with
  | ok =>
    simp only [PoolState.allocSection] at hpool ⊢
    split at hpool
    · rw [if_pos ‹_›]
      exact h.goto hpool rfl (by simp)
    · rename_i hsize
      rw [if_neg hsize]
      refine h.of_step rfl hpool (fun op' more hwindow => ?_) (fun _ _ _ _ _ hw => hw)
        fun _ hdone => by cases hdone
      obtain ⟨rfl, rfl⟩ := Prod.mk.inj (Option.some.inj hwindow)
      have hw := h.windows t op _ (by rw [hpc]; rfl)
      have hle : blockCount rdmaBufferSize.toNat size.toNat * rdmaBufferSize.toNat ≤ 2 ^ 32 := by
        have hlt := size.toNat_lt
        refine (isLeast_blockCount_mul (by decide) _).2 ⟨⟨2 ^ 20, rfl⟩, hlt.le⟩
      have hne : (BufferPool.appendSize size).toNat ≠ 0 := fun h0 =>
        hsize (UInt32.toNat_inj.mp h0)
      rw [BufferPool.toNat_appendSize] at hne ⊢
      rwa [Nat.mod_eq_of_lt (by
        refine lt_of_le_of_ne hle fun heq => hne ?_
        rw [heq, Nat.mod_self])]
  -- A failed append makes the call return NULL, and says so.
  | mallocFails | regMrFails => exact h.goto hpool rfl (by simp)

/-- **A section that takes its chunks gets them**, because of what the others have left of its
window; and they keep theirs, because it has spared them. -/
theorem takeSection (h : WindowsInv s w free) {op : PoolOp} (hpc : s.pc t = .take op)
    (hspared : Spared (s, w) (.lockedSection t)) :
    ∃ s' free', s.takeSection t op = .ok s' ∧
      WindowsInv s' (noteWindows s (.lockedSection t) w) free' := by
  have hle := (h.windows t op 0 (by rw [hpc]; rfl)).count_le
  obtain ⟨-, s', chunk, hok, hpc', hpool⟩ | ⟨hshort, -⟩ | ⟨hshort, -⟩ :=
    h.pool.takeSection_cases hpc
  · refine ⟨s', _, hok, h.of_step hpc' hpool (fun _ _ hwindow => by cases hwindow)
      (fun u hut op' more hwindow hw => ?_) fun _ hdone => by cases hdone⟩
    simp only [noteWindows, hpc, if_neg hut, List.length_drop]
    exact hw.take hle (hspared op hpc u hut _ hwindow)
  · omega
  · omega

/-- **One step** that meets the condition preserves it. -/
theorem step (h : WindowsInv s w free) {a : PoolAct T} (hspared : Spared (s, w) a)
    (hstep : (bufferPool T).step s a = some (.ok s')) :
    ∃ free', WindowsInv s' (noteWindows s a w) free' := by
  obtain ⟨free₁, hpool⟩ := poolInv_step h.pool hstep
  have hkeep : s'.pool = s.pool → PoolInv s' free := fun hsame => by
    have hchain := hpool.free_chain.chain
    rw [hsame] at hchain
    rwa [← hchain.unique h.pool.free_chain.chain]
  cases a with
  | call t op =>
    simp only [bufferPool, poolStep] at hstep
    split at hstep
    · split at hstep <;> cases hstep
      exact ⟨free, h.goto (hkeep rfl) rfl (by simp)⟩
    · cases hstep
  | lockedSection t =>
    cases hpc : s.pc t with
    | called op => exact h.firstSection hpc hstep
    | splice op buffer size =>
      simp only [bufferPool, poolStep, hpc, Option.some.injEq, Except.ok.injEq] at hstep
      subst hstep
      refine ⟨_, h.of_step rfl (h.pool.splice hpc) (fun op' more hwindow => ?_)
        (fun u hut op' more hwindow hw => ?_) fun _ hdone => by cases hdone⟩
      · obtain ⟨rfl, rfl⟩ := Prod.mk.inj (Option.some.inj hwindow)
        have hw := h.windows t op size.toNat (by rw [hpc]; rfl)
        simpa [noteWindows, hpc] using hw.append
      · simpa [noteWindows, hpc, hut] using hw.give size.toNat
    | take op =>
      simp only [bufferPool, poolStep, hpc] at hstep
      obtain ⟨s'', free', hok, hnext⟩ := h.takeSection hpc hspared
      obtain rfl := Except.ok.inj ((Option.some.inj hstep).symm.trans hok)
      exact ⟨free', hnext⟩
    | idle | append op size | done op chunk failed => simp [bufferPool, poolStep, hpc] at hstep
  | alloc t result =>
    simp only [bufferPool, poolStep] at hstep
    split at hstep <;> cases hstep
    exact ⟨free, h.allocSection ‹_› result⟩
  | resume t =>
    simp only [bufferPool, poolStep] at hstep
    split at hstep <;> cases hstep
    exact ⟨free, h.goto (hkeep rfl) rfl (by simp)⟩
  | pass t u chunk =>
    simp only [bufferPool, poolStep] at hstep
    split at hstep
    · split at hstep <;> cases hstep
      exact ⟨free, hkeep rfl, h.windows, h.answered⟩
    · cases hstep

/-- No step of a thread that finds its window so faults. -/
theorem no_fault (h : WindowsInv s w free) {a : PoolAct T} {e : CFault} :
    (bufferPool T).step s a ≠ some (.error e) := by
  intro hstep
  cases a with
  | lockedSection t =>
    simp only [bufferPool, poolStep] at hstep
    split at hstep
    · cases hstep
    · cases hstep
    · rename_i op hpc
      have hle := (h.windows t op 0 (by rw [hpc]; rfl)).count_le
      obtain ⟨-, s'', chunk, hok, -⟩ | ⟨hshort, -⟩ | ⟨hshort, -⟩ := h.pool.takeSection_cases hpc
      · cases (Option.some.inj hstep).symm.trans hok
      · omega
      · omega
    · cases hstep
  | call t op | pass t u chunk =>
    simp only [bufferPool, poolStep] at hstep
    split at hstep
    · split at hstep <;> cases hstep
    · cases hstep
  | alloc t result | resume t =>
    simp only [bufferPool, poolStep] at hstep
    split at hstep <;> cases hstep

end WindowsInv

/-! ### Runs in which the windows are spared -/

variable {T : Type} [DecidableEq T]

/-- The windows hold in every state of such a run. -/
theorem windowsInv_of_reachable {s : PoolState T × (T → Window)}
    (hs : (bufferPoolWindows T).ReachableUnder Spared s) : ∃ free, WindowsInv s.1 s.2 free := by
  induction hs with
  | init => exact ⟨BufferPool.bufferChunks 0 4096, .init, fun _ _ _ hwindow => (by cases hwindow),
      fun _ _ hdone => by cases hdone⟩
  | next _ hspared hrecorded ih =>
    obtain ⟨free, h⟩ := ih
    obtain ⟨s', hstep, rfl⟩ := map_map_eq_ok.mp hrecorded
    exact h.step hspared hstep

/-- **The pool never runs dry** in the runs in which no thread takes more chunks between another
thread's check and its take than that one has to spare and was given back. However many threads use
the pool, and whatever `malloc` and `ibv_reg_mr` answer: no step faults, and every list operation
returns a chain of exactly the chunks asked for, or NULL after a failed append. -/
theorem neverDry_of_spared (s : PoolState T × (T → Window))
    (hs : (bufferPoolWindows T).ReachableUnder Spared s) : s.1.Supplied := by
  obtain ⟨free, h⟩ := windowsInv_of_reachable hs
  refine ⟨fun t count chunk failed hpc hcount => ?_, fun a e => h.no_fault⟩
  cases chunk with
  | none =>
    cases failed with
    | true => exact .inl ⟨rfl, rfl⟩
    | false => exact (hcount (h.answered t count hpc)).elim
  | some first =>
    have hthread := h.pool.threads t
    rw [hpc] at hthread
    obtain ⟨l, hchain, hlength, -⟩ := hthread
    exact .inr ⟨first, l, rfl, hchain, hlength⟩

/-- Thread `false` finds 4096 chunks free and wants one; thread `true` takes all it can spare. -/
theorem neverDry_of_spared_lastSpare : ∃ (s : PoolState Bool) (chunk : ChunkPtr),
    s.pc false = .take .getChunk ∧ s.pc true = .done (.getChunkList 4095) (some chunk) false ∧
      s.Supplied := by
  obtain ⟨s, w, hs, hfalse, htrue, hwindow⟩ : ∃ s w,
      (bufferPoolWindows Bool).ReachableUnder Spared (s, w) ∧ s.pc false = .take .getChunk ∧
      s.pc true = .take (.getChunkList 4095) ∧ w false = ⟨4095, 0, 0⟩ := by
    have hsize : BufferPool.init.freeSize = 4096 := BufferPool.freeSize_init
    have hs := Machine.ReachableUnder.init (M := bufferPoolWindows Bool) (P := Spared)
    have hs := hs.next (a := PoolAct.call false .getChunk) trivial rfl
    have hs := hs.next (a := PoolAct.lockedSection false) (fun op hop => by
      simp [bufferPoolWindows, Machine.recording, bufferPool, goto] at hop) rfl
    have hs := hs.next (a := PoolAct.call true (.getChunkList 4095)) trivial rfl
    have hs := hs.next (a := PoolAct.lockedSection true) (fun op hop => by
      simp [bufferPoolWindows, Machine.recording, bufferPool, goto, firstSection, hsize] at hop) rfl
    refine ⟨_, _, hs, ?_, ?_, ?_⟩
    · simp [bufferPoolWindows, Machine.recording, bufferPool, goto, firstSection, hsize]
    · simp [bufferPoolWindows, Machine.recording, bufferPool, goto, firstSection, hsize]
    · simp [bufferPoolWindows, Machine.recording, bufferPool, goto, firstSection, hsize,
        noteWindows, BufferPool.spare, BufferPool.growth, PoolOp.count]
  obtain ⟨free, h⟩ := windowsInv_of_reachable hs
  have hspared : Spared (s, w) (.lockedSection true) := by
    intro op hop u hu o ho
    obtain rfl : op = .getChunkList 4095 := by simpa [htrue, eq_comm] using hop
    obtain rfl : u = false := by simpa using hu
    change (w false).taken + 4095 ≤ (w false).spare + (w false).given
    rw [hwindow]
    exact Nat.le_refl 4095
  have hle := (h.windows true _ 0 (by rw [htrue]; rfl)).count_le
  obtain ⟨-, s', chunk, hok, hpc, -⟩ | ⟨hshort, -⟩ | ⟨hshort, -⟩ := h.pool.takeSection_cases htrue
  · refine ⟨s', chunk, by simp [hpc, hfalse], by simp [hpc], ?_⟩
    refine neverDry_of_spared (s', noteWindows s (.lockedSection true) w)
      (hs.next (a := PoolAct.lockedSection true) hspared (map_map_eq_ok.mpr ⟨s', ?_, rfl⟩))
    simp [bufferPool, poolStep, htrue, hok]
  · omega
  · omega

/-- **Where a thread takes more, the pool is dry.** Thread `u` takes more than thread `t`, which is
about to take its chunks, has to spare and was given back: then `t` dereferences NULL, or returns
NULL although no append has failed. -/
theorem dry_of_not_spared {s : PoolState T} {w : T → Window} {t u : T} {op op' : PoolOp}
    (hs : (bufferPoolWindows T).ReachableUnder Spared (s, w)) (htu : t ≠ u)
    (hu : s.pc u = .take op') (ht : s.pc t = .take op)
    (hover : (w t).spare + (w t).given < (w t).taken + op'.count.toNat)
    (hsmall : s.pool.appendedSize + (w t).taken < 2 ^ 32) :
    ∃ s', (bufferPool T).step s (.lockedSection u) = some (.ok s') ∧
      ((bufferPool T).step s' (.lockedSection t) = some (.error .nullDeref) ∨
        ∃ s'', (bufferPool T).step s' (.lockedSection t) = some (.ok s'') ∧
          s''.pc t = .done op none false) := by
  obtain ⟨free, h⟩ := windowsInv_of_reachable hs
  have hle := (h.windows u op' 0 (by rw [hu]; rfl)).count_le
  have hfree : free.length ≤ s.pool.appendedSize := h.pool.length_free_le
  -- what is left is less than `t` takes
  have hshort : (free.drop op'.count.toNat).length < op.count.toNat := by
    obtain ⟨k, hk⟩ := (h.windows t op 0 (by rw [ht]; rfl)).balance
    simp only at hk hover hsmall
    rw [List.length_drop]
    omega
  obtain ⟨-, s', chunk, hok, hpc, hpool⟩ | ⟨hlt, -⟩ | ⟨heq, -⟩ := h.pool.takeSection_cases hu
  · refine ⟨s', by simp [bufferPool, poolStep, hu, hok], ?_⟩
    have ht' : s'.pc t = .take op := by rw [hpc, Function.update_of_ne htu, ht]
    have hstep : (bufferPool T).step s' (.lockedSection t) = some (s'.takeSection t op) := by
      simp [bufferPool, poolStep, ht']
    rw [hstep]
    obtain ⟨hle', -⟩ | ⟨-, s'', hok', hpc', -⟩ | ⟨-, hfault⟩ := hpool.takeSection_cases ht'
    · omega
    · exact .inr ⟨s'', by rw [hok'], by simp [hpc']⟩
    · exact .inl (by rw [hfault])
  · omega
  · omega

end SparkRdma
