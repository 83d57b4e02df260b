import Mathlib.Data.List.Perm.Basic
import SparkRdma.WorkQueue.Handover

/-! # The chunks of the varrays

Which chunks the receiving half of a transport holds, and how each section moves them: a received
chunk goes from `handle_thread` into a varray on the queue, with the varray to a worker, and out
when the worker releases it. This needs nothing of the frames; it rests on queued and popped varrays
being live and distinct.

* **`incoming`**, **`queued`**, **`delivering`** — the chunks in hand of `handle_thread`, in varrays
  on the queue, and in varrays that a worker has popped.
* **`QueueInv`** — queued and popped varrays are live and distinct.
* **`pushNew_chunks`**, **`appendFound_chunks`**, **`headSection_chunks`**,
  **`deliverHead_chunks`**, **`freeHead_chunks`** — how each section moves the chunks. -/

namespace SparkRdma

open Interleaving

variable {χ : Type}

/-- The received chunk that `handle_thread` has not stored yet. -/
def HandlerPc.chunks : HandlerPc χ → List χ
  | idle => []
  | found chunk _ => [chunk]
  | stored => []

namespace WorkState

/-- The chunks of the varray at an address. -/
def chunksAt (s : WorkState χ) (now : ℕ) : List χ :=
  match s.heap now with
  | some v => v.data
  | none => []

/-- The chunk of the receive event under way, until it is stored. -/
def incoming (s : WorkState χ) : List χ := s.handler.chunks

/-- The chunks in varrays on the queue. -/
def queued (s : WorkState χ) : List χ := s.workQueue.flatMap s.chunksAt

/-- The chunks that an execution of `work_thread` holds: those of the varray it has popped, less
those it has released. -/
def chunksOf (s : WorkState χ) (released : ℕ → ℕ) : WorkerPc → List χ
  | .top => []
  | .popped head => s.chunksAt head
  | .delivered head => (s.chunksAt head).drop (released head)

/-- The chunks in varrays that workers have popped. -/
def delivering (s : WorkState χ) (released : ℕ → ℕ) : List χ :=
  s.workers.flatMap (s.chunksOf released)

/-- Queued and popped varrays are live and distinct. -/
structure QueueInv (s : WorkState χ) : Prop where
  /-- No varray is both queued and popped, nor either twice. -/
  distinct : (s.held ++ s.workQueue).Nodup
  /-- They were all allocated. -/
  allocated : ∀ now ∈ s.held ++ s.workQueue, now < s.nextAddr
  /-- They are live. -/
  live : ∀ now ∈ s.held ++ s.workQueue, ∃ v, s.heap now = some v

end WorkState

open WorkState

/-! ### Replacing one execution -/

section Workers

variable {α β : Type*} {l : List α} {k : ℕ} {a : α}

/-- A list is one of its entries and the others. -/
theorem perm_cons_eraseIdx (hk : l[k]? = some a) : l.Perm (a :: l.eraseIdx k) := by
  obtain ⟨hlt, rfl⟩ := List.getElem?_eq_some_iff.mp hk
  exact (List.getElem_cons_eraseIdx_perm hlt).symm

/-- Replacing the entry leaves the others. -/
theorem set_perm (hk : l[k]? = some a) (b : α) : (l.set k b).Perm (b :: l.eraseIdx k) :=
  List.set_perm_cons_eraseIdx (List.getElem?_eq_some_iff.mp hk).1 b

end Workers

namespace WorkState

variable {s s' : WorkState χ} {released : ℕ → ℕ} {k head : ℕ}

/-- The varrays popped are that of one execution, if it has one, and those of the others. -/
theorem held_perm {pc : WorkerPc} (hk : s.workers[k]? = some pc) :
    s.held.Perm (pc.held?.toList ++ (s.workers.eraseIdx k).filterMap WorkerPc.held?) := by
  have hperm := (perm_cons_eraseIdx hk).filterMap WorkerPc.held?
  rw [List.filterMap_cons] at hperm
  cases hheld : pc.held? with
  | none => simpa [held, hheld] using hperm
  | some head => simpa [held, hheld] using hperm

/-- An execution that moves holds its varray by its new program point, and the others hold theirs.
-/
theorem held_set_perm {pc : WorkerPc} (pc' : WorkerPc) (hk : s.workers[k]? = some pc) :
    ((s.workers.set k pc').filterMap WorkerPc.held?).Perm
      (pc'.held?.toList ++ (s.workers.eraseIdx k).filterMap WorkerPc.held?) := by
  have hperm := (set_perm hk pc').filterMap WorkerPc.held?
  rw [List.filterMap_cons] at hperm
  cases hheld : pc'.held? with
  | none => simpa [hheld] using hperm
  | some head => simpa [hheld] using hperm

/-- The varrays popped and not called back, after one execution has moved. -/
theorem mem_inHand_set {i now : ℕ} {pc : WorkerPc}
    (hnow : now ∈ (s.workers.set i pc).filterMap WorkerPc.popped?) :
    now ∈ s.inHand ∨ pc.popped? = some now := by
  obtain ⟨pc', hpc', hpopped⟩ := List.mem_filterMap.mp hnow
  rcases List.mem_or_eq_of_mem_set hpc' with hmem | rfl
  · exact .inl (List.mem_filterMap.mpr ⟨pc', hmem, hpopped⟩)
  · exact .inr hpopped

namespace QueueInv

/-- The empty state. -/
theorem start : QueueInv (.start : WorkState χ) := by
  constructor <;> simp [WorkState.start, held]

/-- Steps that change none of the varrays, but for the order of the popped ones. -/
theorem congr (h : QueueInv s) (hheld : s'.held.Perm s.held) (hqueue : s'.workQueue = s.workQueue)
    (hheap : s'.heap = s.heap) (hnext : s'.nextAddr = s.nextAddr) : QueueInv s' where
  distinct := by
    rw [hqueue]
    exact (hheld.append_right _).nodup_iff.mpr h.distinct
  allocated now hnow := by
    rw [hqueue, (hheld.append_right _).mem_iff] at hnow
    rw [hnext]
    exact h.allocated now hnow
  live now hnow := by
    rw [hqueue, (hheld.append_right _).mem_iff] at hnow
    rw [hheap]
    exact h.live now hnow

/-- The varray of an execution is neither queued nor that of another execution. -/
theorem head_ne (h : QueueInv s) {pc : WorkerPc} (hk : s.workers[k]? = some pc)
    (hpc : pc.held? = some head) :
    (∀ now ∈ s.workQueue, now ≠ head) ∧
      ∀ pc' ∈ s.workers.eraseIdx k, ∀ now, pc'.held? = some now → now ≠ head := by
  have hperm := held_perm hk
  rw [hpc, Option.toList_some, List.singleton_append] at hperm
  have hnodup := (hperm.append_right s.workQueue).nodup_iff.mp h.distinct
  rw [List.cons_append, List.nodup_cons, List.mem_append, not_or] at hnodup
  refine ⟨?_, ?_⟩
  · rintro now hnow rfl
    exact hnodup.1.2 hnow
  · rintro pc' hmem now hnow rfl
    exact hnodup.1.1 (List.mem_filterMap.mpr ⟨pc', hmem, hnow⟩)

end QueueInv

/-- The chunks at an address are those of the varray there. -/
theorem chunksAt_congr {now : ℕ} (h : s'.heap now = s.heap now) :
    s'.chunksAt now = s.chunksAt now := by
  rw [chunksAt, h, chunksAt]

/-- The chunks of a live varray. -/
theorem chunksAt_of_live {now : ℕ} {v : Varray χ} (hv : s.heap now = some v) :
    s.chunksAt now = v.data := by
  rw [chunksAt, hv]

/-- What an execution holds depends on its own varray only. -/
theorem chunksOf_congr {released' : ℕ → ℕ} {pc : WorkerPc}
    (h : ∀ now, pc.held? = some now → s'.chunksAt now = s.chunksAt now ∧
      released' now = released now) : s'.chunksOf released' pc = s.chunksOf released pc := by
  cases pc with
  | top => rfl
  | popped head => exact (h head rfl).1
  | delivered head => rw [chunksOf, chunksOf, (h head rfl).1, (h head rfl).2]

/-- Without a varray the workers hold nothing. -/
theorem delivering_of_held (hheld : s.held = []) : s.delivering released = [] := by
  refine List.flatMap_eq_nil_iff.mpr fun pc hpc => ?_
  have hnone := List.filterMap_eq_nil_iff.mp hheld pc hpc
  cases pc with
  | top => rfl
  | _ => cases hnone

/-- What the workers hold is what one of them holds, and the others. -/
theorem delivering_perm {pc : WorkerPc} (hk : s.workers[k]? = some pc) :
    (s.delivering released).Perm (s.chunksOf released pc
      ++ (s.workers.eraseIdx k).flatMap (s.chunksOf released)) := by
  have hperm := (perm_cons_eraseIdx hk).flatMap_right (s.chunksOf released)
  rwa [List.flatMap_cons] at hperm

/-- An execution that moves delivers by its new program point, and the others as before when nothing
has happened to their varrays. -/
theorem delivering_set_perm {released' : ℕ → ℕ} {pc pc' : WorkerPc} (hk : s.workers[k]? = some pc)
    (hworkers : s'.workers = s.workers.set k pc')
    (hothers : ∀ pc'' ∈ s.workers.eraseIdx k, ∀ now, pc''.held? = some now →
      s'.chunksAt now = s.chunksAt now ∧ released' now = released now) :
    (s'.delivering released').Perm (s'.chunksOf released' pc'
      ++ (s.workers.eraseIdx k).flatMap (s.chunksOf released)) := by
  have hperm := (set_perm hk pc').flatMap_right (s'.chunksOf released')
  rw [List.flatMap_cons] at hperm
  rw [delivering, hworkers]
  refine hperm.trans (List.Perm.append_left _ (.of_eq ?_))
  exact List.flatMap_congr fun pc'' hmem => chunksOf_congr (hothers pc'' hmem)

/-- Nothing has happened to the varrays of any execution. -/
theorem delivering_congr (hworkers : s'.workers = s.workers)
    (hheap : ∀ now ∈ s.held, s'.heap now = s.heap now) :
    s'.delivering released = s.delivering released := by
  rw [delivering, hworkers, delivering]
  exact List.flatMap_congr fun pc hmem => chunksOf_congr fun now hnow =>
    ⟨chunksAt_congr (hheap now (List.mem_filterMap.mpr ⟨pc, hmem, hnow⟩)), rfl⟩

/-- What the three hold, up to order, in a state whose queue is in order. -/
structure Holds (s : WorkState χ) (released : ℕ → ℕ) (incoming queued delivering : List χ) :
    Prop where
  /-- Queued and popped varrays are live and distinct. -/
  inv : QueueInv s
  /-- What `handle_thread` holds. -/
  incoming : s.incoming.Perm incoming
  /-- What the queue holds. -/
  queued : s.queued.Perm queued
  /-- What the workers hold. -/
  delivering : (s.delivering released).Perm delivering

/-! ### The sections of `handle_thread` -/

section Handler

variable {mem : χ → RdmaChunk} {chunk : χ} {now : ℕ}

/-- The lookup takes the chunk of the event in hand. -/
theorem lookupSection_chunks (h : QueueInv s) {byteLen : UInt32}
    (hstep : s.lookupSection mem byteLen chunk = .ok s') :
    s'.Holds released [chunk] s.queued (s.delivering released) := by
  obtain ⟨-, rfl⟩ := lookupSection_ok hstep
  exact ⟨h.congr (.refl _) rfl rfl rfl, .refl _, .refl _, .refl _⟩

/-- A new varray takes the chunk to the queue. -/
theorem pushNew_chunks (h : QueueInv s) (hstep : s.pushNew mem chunk = .ok s') :
    s'.Holds released [] (chunk :: s.queued) (s.delivering released) := by
  obtain ⟨-, hs'⟩ := pushNew_ok hstep
  have hworkers : s'.workers = s.workers := by rw [hs']
  have hqueue : s'.workQueue = s.workQueue ++ [s.nextAddr] := by rw [hs']
  have hnext : s'.nextAddr = s.nextAddr + 1 := by rw [hs']
  have hnew : ∃ v, s'.heap s.nextAddr = some v ∧ v.data = [chunk] := by
    rw [hs']
    exact ⟨_, Function.update_self .., rfl⟩
  have hold : ∀ now ∈ s.held ++ s.workQueue, s'.heap now = s.heap now := by
    intro now hnow
    rw [hs']
    exact Function.update_of_ne (h.allocated now hnow).ne ..
  have hmem : ∀ now, now ∈ s'.held ++ s'.workQueue ↔
      now ∈ s.held ++ s.workQueue ∨ now = s.nextAddr := by
    intro now
    rw [held, hworkers, hqueue, ← held, ← List.append_assoc, List.mem_append, List.mem_singleton]
  refine ⟨⟨?_, ?_, ?_⟩, ?_, ?_, ?_⟩
  · -- the new address is beyond all that are in use
    rw [held, hworkers, hqueue, ← held, ← List.append_assoc]
    exact h.distinct.append (List.nodup_singleton _)
      (List.disjoint_singleton.mpr fun hmem => (h.allocated _ hmem).ne rfl)
  · intro now hnow
    rw [hnext]
    obtain hnow | rfl := (hmem now).mp hnow
    · exact Nat.lt_succ_of_lt (h.allocated now hnow)
    · exact Nat.lt_succ_self _
  · intro now hnow
    obtain hnow | rfl := (hmem now).mp hnow
    · rw [hold now hnow]
      exact h.live now hnow
    · exact hnew.imp fun _ hv => hv.1
  · rw [incoming, hs']
    exact .refl _
  · -- the old varrays are as they were, and the new one holds the chunk
    obtain ⟨v, hv, hdata⟩ := hnew
    rw [queued, hqueue, List.flatMap_append, List.flatMap_singleton, List.flatMap_congr
      fun now hnow => chunksAt_congr (hold now (List.mem_append_right _ hnow))]
    rw [chunksAt_of_live hv, hdata]
    exact List.perm_append_singleton chunk s.queued
  · exact .of_eq (delivering_congr hworkers fun now hnow => hold now (List.mem_append_left _ hnow))

/-- A varray on the queue takes the chunk. -/
theorem appendFound_chunks (h : QueueInv s) (hstep : s.appendFound mem chunk now = .ok s') :
    s'.Holds released [] (chunk :: s.queued) (s.delivering released) := by
  obtain ⟨hmem, v, hv, -, -, hs'⟩ := appendFound_ok hstep
  have hworkers : s'.workers = s.workers := by rw [hs']
  have hqueue : s'.workQueue = s.workQueue := by rw [hs']
  have hheld : s'.held = s.held := by rw [held, hworkers, held]
  have hnow : s'.heap now = some { v with data := v.data ++ [chunk] } := by
    rw [hs']
    exact Function.update_self ..
  have hold : ∀ now', now' ≠ now → s'.heap now' = s.heap now' := by
    intro now' hne
    rw [hs']
    exact Function.update_of_ne hne ..
  refine ⟨⟨?_, ?_, ?_⟩, ?_, ?_, ?_⟩
  · rw [hheld, hqueue]
    exact h.distinct
  · rw [hheld, hqueue, show s'.nextAddr = s.nextAddr by rw [hs']]
    exact h.allocated
  · rw [hheld, hqueue]
    intro now' hnow'
    by_cases heq : now' = now
    · exact ⟨_, heq ▸ hnow⟩
    · rw [hold now' heq]
      exact h.live now' hnow'
  · rw [incoming, hs']
    exact .refl _
  · -- the varray found first, and then the others, which are as they were
    have hperm := List.perm_cons_erase hmem
    have hnodup := h.distinct.of_append_right
    have hbefore := hperm.flatMap_right s.chunksAt
    have hafter := hperm.flatMap_right s'.chunksAt
    rw [List.flatMap_cons, chunksAt_of_live hv] at hbefore
    rw [List.flatMap_cons, chunksAt_of_live hnow, List.flatMap_congr fun now' hnow' =>
      chunksAt_congr (hold now' (hnodup.mem_erase_iff.mp hnow').1)] at hafter
    rw [queued, hqueue]
    refine hafter.trans (.trans ?_ (hbefore.symm.cons chunk))
    rw [List.append_assoc, List.singleton_append]
    exact List.perm_middle
  · refine .of_eq (delivering_congr hworkers fun now' hnow' => hold now' ?_)
    rintro rfl
    exact List.disjoint_of_nodup_append h.distinct hnow' hmem

/-- The last section of an event moves nothing. -/
theorem wakeSection_chunks (h : QueueInv s) (hstored : s.handler = .stored)
    (hstep : s.wakeSection = .ok s') :
    s'.Holds released s.incoming s.queued (s.delivering released) := by
  have hincoming : s.incoming = [] := by rw [incoming, hstored, HandlerPc.chunks]
  rw [hincoming]
  obtain ⟨-, -, rfl⟩ | ⟨-, rfl⟩ := wakeSection_ok hstep
  · exact ⟨h.congr (.refl _) rfl rfl rfl, .refl _, .refl _, .refl _⟩
  · exact ⟨h.congr (.refl _) rfl rfl rfl, .refl _, .refl _, .refl _⟩

end Handler

/-! ### The sections of `work_thread` -/

section Worker

variable {mem : χ → RdmaChunk}

/-- A new execution holds nothing. -/
theorem startItem_chunks (h : QueueInv s) :
    s.startItem.Holds released s.incoming s.queued (s.delivering released) := by
  have hheld : s.startItem.held = s.held := by simp [held, startItem, WorkerPc.held?]
  -- an execution at the top of the loop adds no chunks to those of the others
  refine ⟨h.congr (.of_eq hheld) rfl rfl rfl, .refl _, .refl _, .of_eq ?_⟩
  rw [delivering, startItem, List.flatMap_append, List.flatMap_singleton, chunksOf,
    List.append_nil]
  exact List.flatMap_congr fun pc _ => chunksOf_congr fun _ _ => ⟨rfl, rfl⟩

/-- The head section: a pop takes the chunks of the head from the queue to the execution. -/
theorem headSection_chunks (released : ℕ → ℕ) (h : QueueInv s) (hk : s.workers[k]? = some .top)
    (hstep : s.headSection k = .ok s') :
    s'.Holds released s.incoming s.queued (s.delivering released) ∨
    ∃ moved queued, s.queued.Perm (moved ++ queued) ∧
      s'.Holds released s.incoming queued (moved ++ s.delivering released) := by
  have hbefore : (s.delivering released).Perm _ := delivering_perm hk
  obtain ⟨head, rest, v, hq, hv, -, hs'⟩ | ⟨-, rfl⟩ := headSection_ok hstep
  · have hworkers : s'.workers = s.workers.set k (.popped head) := by rw [hs']
    have hafter : (s'.delivering released).Perm _ :=
      delivering_set_perm hk hworkers fun _ _ now _ => ⟨chunksAt_congr (by rw [hs']), rfl⟩
    subst hs'
    -- the varray changes hands: it leaves the queue and is held by execution `k`
    have hperm : (s.held ++ s.workQueue).Perm
        ((s.workers.set k (.popped head)).filterMap WorkerPc.held? ++ rest) := by
      refine ((held_perm hk).append_right _).trans (.trans ?_
        ((held_set_perm (.popped head) hk).symm.append_right _))
      rw [hq]
      exact List.perm_middle
    refine .inr ⟨s.chunksAt head, rest.flatMap s.chunksAt, ?_, ⟨?_, ?_, ?_⟩, .refl _, .refl _, ?_⟩
    · rw [queued, hq, List.flatMap_cons]
    · exact hperm.nodup_iff.mp h.distinct
    · exact fun now hnow => h.allocated now (hperm.mem_iff.mpr hnow)
    · exact fun now hnow => h.live now (hperm.mem_iff.mpr hnow)
    · exact hafter.trans (hbefore.symm.append_left _)
  · refine .inl ⟨h.congr ?_ rfl rfl rfl, .refl _, .refl _, ?_⟩
    · exact (held_perm hk).symm
    · exact hbefore.symm

/-- The callback moves nothing: the release loop is at its start. -/
theorem deliverHead_chunks (h : QueueInv s) (hk : s.workers[k]? = some (.popped head))
    (hstep : s.deliverHead mem k head = .ok s') :
    s'.Holds (Function.update released head 0) s.incoming s.queued (s.delivering released) := by
  obtain ⟨-, v, callback, -, -, -, hs'⟩ := deliverHead_ok hstep
  have hworkers : s'.workers = s.workers.set k (.delivered head) := by rw [hs']
  have hheap : s'.heap = s.heap := by rw [hs']
  have hothers := (h.head_ne hk rfl).2
  refine ⟨h.congr ?_ (by rw [hs']) hheap (by rw [hs']), .of_eq (by rw [hs', incoming, incoming]),
    .of_eq (by rw [hs']; rfl), ?_⟩
  · rw [held, hworkers]
    exact (held_set_perm _ hk).trans (held_perm hk).symm
  · refine (delivering_set_perm hk hworkers fun pc hpc now hnow =>
      ⟨chunksAt_congr (by rw [hheap]), Function.update_of_ne (hothers pc hpc now hnow) ..⟩).trans ?_
    have hhead : s'.chunksAt head = s.chunksAt head := chunksAt_congr (by rw [hheap])
    rw [chunksOf, Function.update_self, List.drop_zero, hhead]
    exact (delivering_perm hk).symm

/-- The release loop lets go of one chunk after the other. -/
theorem release_chunks (h : QueueInv s) {v : Varray χ} {chunk : χ}
    (hk : s.workers[k]? = some (.delivered head)) (hv : s.heap head = some v)
    (hchunk : v.data[released head]? = some chunk) :
    (s.delivering released).Perm
      (chunk :: s.delivering (Function.update released head (released head + 1))) := by
  have hothers := (h.head_ne hk rfl).2
  -- only the index moves, so the executions are the ones after a step that changes nothing
  have hset : s.workers = s.workers.set k (.delivered head) := by
    obtain ⟨hlt, heq⟩ := List.getElem?_eq_some_iff.mp hk
    rw [← heq, List.set_getElem_self]
  have hafter : (s.delivering (Function.update released head (released head + 1))).Perm _ :=
    delivering_set_perm hk hset fun pc hpc now hnow =>
      ⟨rfl, Function.update_of_ne (hothers pc hpc now hnow) ..⟩
  obtain ⟨hlt, heq⟩ := List.getElem?_eq_some_iff.mp hchunk
  refine (delivering_perm hk).trans (.trans (.of_eq ?_) (hafter.symm.cons chunk))
  rw [chunksOf, chunksOf, Function.update_self, chunksAt_of_live hv, ← List.cons_append,
    List.drop_eq_getElem_cons hlt, heq]

/-- Once they are all released, freeing the varray moves nothing. -/
theorem freeHead_chunks (h : QueueInv s) {v : Varray χ}
    (hk : s.workers[k]? = some (.delivered head)) (hv : s.heap head = some v)
    (hend : v.data[released head]? = none) :
    (s.freeHead k head).Holds released s.incoming s.queued (s.delivering released) := by
  obtain ⟨hqueue, hothers⟩ := h.head_ne hk rfl
  have hperm := held_perm hk
  rw [WorkerPc.held?, Option.toList_some, List.singleton_append] at hperm
  have hheld : (s.freeHead k head).held.Perm ((s.workers.eraseIdx k).filterMap WorkerPc.held?) :=
    held_set_perm _ hk
  -- what is still in use was in use before, and is not the varray freed
  have hsub : ∀ now ∈ (s.freeHead k head).held ++ s.workQueue,
      now ∈ s.held ++ s.workQueue ∧ now ≠ head := by
    intro now hnow
    rcases List.mem_append.mp hnow with hnow | hnow
    · rw [hheld.mem_iff] at hnow
      refine ⟨List.mem_append_left _ (hperm.mem_iff.mpr (List.mem_cons_of_mem _ hnow)), ?_⟩
      obtain ⟨pc, hpc, hpcheld⟩ := List.mem_filterMap.mp hnow
      exact hothers pc hpc now hpcheld
    · exact ⟨List.mem_append_right _ hnow, hqueue now hnow⟩
  have hheap : ∀ now, now ≠ head → (s.freeHead k head).heap now = s.heap now := fun now hne =>
    Function.update_of_ne hne ..
  refine ⟨⟨?_, ?_, ?_⟩, .refl _, .of_eq ?_, ?_⟩
  · have hnodup := (hperm.append_right s.workQueue).nodup_iff.mp h.distinct
    exact (hheld.append_right s.workQueue).nodup_iff.mpr (List.nodup_cons.mp hnodup).2
  · exact fun now hnow => h.allocated now (hsub now hnow).1
  · intro now hnow
    obtain ⟨hmem, hne⟩ := hsub now hnow
    rw [hheap now hne]
    exact h.live now hmem
  · exact List.flatMap_congr fun now hnow =>
      chunksAt_congr (hheap now (hqueue now hnow))
  · -- the release loop is at its end, so execution `k` holds no chunk any more
    have hdone : s.chunksOf released (.delivered head) = [] := by
      rw [chunksOf, chunksAt_of_live hv]
      exact List.drop_eq_nil_of_le (List.getElem?_eq_none_iff.mp hend)
    have hbefore : (s.delivering released).Perm _ := delivering_perm hk
    have hafter : ((s.freeHead k head).delivering released).Perm _ :=
      delivering_set_perm hk rfl fun pc hpc now hnow =>
        ⟨chunksAt_congr (hheap now (hothers pc hpc now hnow)), rfl⟩
    rw [hdone] at hbefore
    exact hafter.trans hbefore.symm

end Worker

end WorkState

end SparkRdma
