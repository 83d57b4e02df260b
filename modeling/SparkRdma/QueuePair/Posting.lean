import Mathlib.Data.List.Nodup
import SparkRdma.Wire.Segmentation

/-! # Posting to the queue pair

The four functions that take chunks from the pool and post them: `send_msg` and
`send_msg_with_header`, through `rdma_send_msg` and `rdma_transport_send`,
`rdma_transport_recv_with_num` and `rdma_transport_recv`. `ibv_post_send` and `ibv_post_recv` return
0 when they queue the request and a positive error number when they do not; all four test the result
for a negative number. The copy loops touch neither the pool nor the queue pair, and are left out.

* **`LosesNothing`** — a successful return means that every chunk taken was queued, and a chunk
  taken but not queued is back in the pool.
* **`full_queue_loses`** — with the send queue full, a message is lost and `send_msg` returns 0.
* **`losesNothing_iff`** — the exact condition: the pool has no chunks for the call, or every post
  returns 0. -/

namespace SparkRdma

open Interleaving

/-- `MAX_CQE`, the `max_send_wr` and `max_recv_wr` of a queue pair. -/
def maxCqe : ℕ := 2048

/-- The free chunks of the pool, and the work requests of one queue pair. A request is the chunk and
the `len` of its `struct rdma_work_chunk`. -/
structure Endpoint (χ : Type) where
  /-- The chunks on the pool's free list. -/
  free : List χ
  /-- The send requests queued and not completed. -/
  sends : List (χ × UInt32)
  /-- The receive requests queued and not completed. -/
  recvs : List (χ × UInt32)
  deriving DecidableEq, Repr

namespace Endpoint

variable {χ : Type}

/-! ### The pool -/

/-- `get_rdma_chunk_list_from_pool`: `fresh` is what an append brings, if it succeeds; NULL is
`none`. -/
def getChunkList (s : Endpoint χ) (fresh : Option (List χ)) (count : UInt32) :
    Option (List χ × Endpoint χ) :=
  if count = 0 then none
  else
    let free? := if s.free.length < count.toNat then fresh.map (· ++ s.free) else some s.free
    match free? with
    | none => none
    | some free =>
        if count.toNat ≤ free.length then
          some (free.take count.toNat, { s with free := free.drop count.toNat })
        else none

/-- `get_rdma_chunk_from_pool`. -/
def getChunk (s : Endpoint χ) (fresh : Option (List χ)) : Option (χ × Endpoint χ) :=
  let free? := if s.free = [] then fresh else some s.free
  match free? with
  | some (chunk :: free) => some (chunk, { s with free := free })
  | _ => none

/-! ### Posting -/

/-- `ibv_post_send` or `ibv_post_recv` with the result `res`. -/
def ibvPost (res : ℤ) (queue : List (χ × UInt32)) (wr : χ × UInt32) : List (χ × UInt32) :=
  if res = 0 then queue ++ [wr] else queue

/-- `rdma_transport_send`, which returns 0 or aborts. -/
def rdmaTransportSend (res : ℤ) (s : Endpoint χ) (sendWc : χ × UInt32) :
    Except CFault (Endpoint χ) :=
  let s := { s with sends := ibvPost res s.sends sendWc }
  if res < 0 then .error .abort else .ok s

/-- The body of the posting loop of `rdma_transport_recv_with_num`. -/
def postRecv (res : ℤ) (s : Endpoint χ) (recvWc : χ × UInt32) : Except CFault (Endpoint χ) :=
  let s := { s with recvs := ibvPost res s.recvs recvWc }
  if res < 0 then .error .abort else .ok s

/-- A posting loop from turn `i` on; the post of turn `i` returns `res i`. -/
def postLoop (post : ℤ → Endpoint χ → χ × UInt32 → Except CFault (Endpoint χ)) (res : ℕ → ℤ) :
    ℕ → List (χ × UInt32) → Endpoint χ → Except CFault (Endpoint χ)
  | _, [], s => .ok s
  | i, wc :: wcs, s => do
      let s ← post (res i) s wc
      postLoop post res (i + 1) wcs s

/-- `send_msg` and `send_msg_with_header` on a ready transport. The result lists the chunks taken
from the pool behind the value returned. -/
def send (s : Endpoint χ) (call : SendCall) (fresh : Option (List χ)) (res : ℕ → ℤ) :
    Except CFault (ℤ × List χ × Endpoint χ) :=
  match s.getChunkList fresh call.chunkNum with
  | none => .error .abort
  | some (chunkList, s) => do
      let data ← chunkArray call.chunkNum.toNat chunkList
      let s ← postLoop rdmaTransportSend res 0 (rdmaSendMsg data call.len) s
      return (0, chunkList, s)

/-- `rdma_transport_recv_with_num`; its return counts as the value 0. -/
def rdmaTransportRecvWithNum (s : Endpoint χ) (num : UInt32) (fresh : Option (List χ))
    (res : ℕ → ℤ) : Except CFault (ℤ × List χ × Endpoint χ) :=
  match s.getChunkList fresh num with
  | none => .error .assertion
  | some (chunkList, s) => do
      let data ← chunkArray num.toNat chunkList
      let s ← postLoop postRecv res 0 (data.map fun chunk => (chunk, rdmaChunkSize)) s
      return (0, chunkList, s)

/-- `rdma_transport_recv`. Unlike the others it returns -1 after an error. -/
def rdmaTransportRecv (s : Endpoint χ) (fresh : Option (List χ)) (res : ℤ) :
    Except CFault (ℤ × List χ × Endpoint χ) :=
  match s.getChunk fresh with
  | none => .ok (-1, [], s)
  | some (chunk, s) =>
      let s := { s with recvs := ibvPost res s.recvs (chunk, rdmaChunkSize) }
      if res < 0 then .ok (-1, [chunk], s) else .ok (0, [chunk], s)

end Endpoint

open Endpoint

/-- A call of one of the four. -/
inductive PostCall
  /-- `send_msg` or `send_msg_with_header`. -/
  | send (call : SendCall)
  /-- `rdma_transport_recv_with_num`. -/
  | recvWithNum (num : UInt32)
  /-- `rdma_transport_recv`. -/
  | recv

namespace PostCall

variable {χ : Type}

/-- Run the call. -/
def run (call : PostCall) (s : Endpoint χ) (fresh : Option (List χ)) (res : ℕ → ℤ) :
    Except CFault (ℤ × List χ × Endpoint χ) :=
  match call with
  | send call => s.send call fresh res
  | recvWithNum num => s.rdmaTransportRecvWithNum num fresh res
  | recv => s.rdmaTransportRecv fresh (res 0)

/-- The number of chunks the call takes and posts. -/
def posts : PostCall → ℕ
  | send call => call.chunkNum.toNat
  | recvWithNum num => num.toNat
  | recv => 1

/-- What the call gets from the pool. -/
def take (call : PostCall) (s : Endpoint χ) (fresh : Option (List χ)) :
    Option (List χ × Endpoint χ) :=
  match call with
  | send call => s.getChunkList fresh call.chunkNum
  | recvWithNum num => s.getChunkList fresh num
  | recv => (s.getChunk fresh).map fun (chunk, s) => ([chunk], s)

/-- The requests in the queue the call posts to. -/
def queue : PostCall → Endpoint χ → List (χ × UInt32)
  | send _, s => s.sends
  | _, s => s.recvs

/-- **No chunk is lost.** A call that returns 0 has queued every chunk it took, and a call that
returns has put back every chunk it took and did not queue. -/
def LosesNothing (call : PostCall) (s : Endpoint χ) (fresh : Option (List χ)) (res : ℕ → ℤ) :
    Prop :=
  ∀ code taken s', call.run s fresh res = .ok (code, taken, s') →
    (code = 0 → ∀ chunk ∈ taken, chunk ∈ (call.queue s').map Prod.fst) ∧
      ∀ chunk ∈ taken, chunk ∉ (call.queue s').map Prod.fst → chunk ∈ s'.free

end PostCall

/-! ### Which requests are queued -/

variable {α χ : Type}

/-- The entries, from turn `i` on, whose post returns 0. -/
def accepted (res : ℕ → ℤ) : ℕ → List α → List α
  | _, [] => []
  | i, a :: l => if res i = 0 then a :: accepted res (i + 1) l else accepted res (i + 1) l

/-- What is queued of each entry's part is the part of what is queued. -/
theorem map_accepted {β : Type} (f : α → β) (res : ℕ → ℤ) (l : List α) :
    ∀ i, (accepted res i l).map f = accepted res i (l.map f) := by
  induction l with
  | nil => exact fun _ => rfl
  | cons a l ih =>
    intro i
    rw [accepted, List.map_cons, accepted, ← ih (i + 1)]
    split <;> simp

/-- Only entries are queued. -/
theorem mem_of_mem_accepted {res : ℕ → ℤ} {a : α} (l : List α) :
    ∀ i, a ∈ accepted res i l → a ∈ l := by
  induction l with
  | nil => exact fun _ ha => ha
  | cons b l ih =>
    intro i ha
    rw [accepted] at ha
    split at ha
    · rcases List.mem_cons.mp ha with rfl | ha
      · exact List.mem_cons_self
      · exact List.mem_cons_of_mem _ (ih _ ha)
    · exact List.mem_cons_of_mem _ (ih _ ha)

/-- Of distinct entries, those are queued whose own post returns 0. -/
theorem mem_accepted_iff {res : ℕ → ℤ} {a : α} (l : List α) (hnodup : l.Nodup) :
    ∀ i j, l[j]? = some a → (a ∈ accepted res i l ↔ res (i + j) = 0) := by
  induction l with
  | nil => simp
  | cons b l ih =>
    obtain ⟨hb, hnodup⟩ := List.nodup_cons.mp hnodup
    intro i j hj
    cases j with
    | zero =>
      obtain rfl : b = a := by simpa using hj
      have hnot : b ∉ accepted res (i + 1) l := fun hmem => hb (mem_of_mem_accepted l _ hmem)
      rw [accepted, add_zero]
      split <;> simp_all
    | succ j =>
      have hj : l[j]? = some a := by simpa using hj
      have hne : a ≠ b := by
        rintro rfl
        exact hb (List.mem_of_getElem? hj)
      rw [accepted, show i + (j + 1) = i + 1 + j by omega, ← ih hnodup (i + 1) j hj]
      split <;> simp [hne]

/-- When every post returns 0, everything is queued. -/
theorem accepted_of_forall {res : ℕ → ℤ} (hres : ∀ i, res i = 0) (l : List α) :
    ∀ i, accepted res i l = l := by
  induction l with
  | nil => exact fun _ => rfl
  | cons a l ih =>
    intro i
    rw [accepted, if_pos (hres i), ih]

/-- The loop of `rdma_send_msg` posts the chunks of its array. -/
theorem map_fst_rdmaSendMsg (data : List χ) :
    ∀ len, (rdmaSendMsg data len).map Prod.fst = data := by
  induction data with
  | nil => exact fun _ => rfl
  | cons chunk data ih => exact fun len => by rw [rdmaSendMsg, List.map_cons, ih]

namespace Endpoint

/-- A posting loop whose posts never return a negative number runs through, and queues what is
accepted. -/
theorem postLoop_ok {post : ℤ → Endpoint χ → χ × UInt32 → Except CFault (Endpoint χ)}
    {push : Endpoint χ → χ × UInt32 → Endpoint χ} {res : ℕ → ℤ} (hres : ∀ i, 0 ≤ res i)
    (hpost : ∀ r s wc, 0 ≤ r → post r s wc = .ok (if r = 0 then push s wc else s))
    (wcs : List (χ × UInt32)) : ∀ i s,
      postLoop post res i wcs s = .ok ((accepted res i wcs).foldl push s) := by
  induction wcs with
  | nil => exact fun _ _ => rfl
  | cons wc wcs ih =>
    intro i s
    rw [postLoop, hpost _ _ _ (hres i), ok_bind, ih, accepted]
    split <;> rfl

/-- `rdma_transport_send` on a result that is not negative. -/
theorem rdmaTransportSend_ok (r : ℤ) (s : Endpoint χ) (wc : χ × UInt32) (hr : 0 ≤ r) :
    rdmaTransportSend r s wc
      = .ok (if r = 0 then { s with sends := s.sends ++ [wc] } else s) := by
  simp only [rdmaTransportSend, ibvPost, if_neg (not_lt.mpr hr)]
  split <;> rfl

/-- The posting loop of `rdma_transport_recv_with_num` on a result that is not negative. -/
theorem postRecv_ok (r : ℤ) (s : Endpoint χ) (wc : χ × UInt32) (hr : 0 ≤ r) :
    postRecv r s wc = .ok (if r = 0 then { s with recvs := s.recvs ++ [wc] } else s) := by
  simp only [postRecv, ibvPost, if_neg (not_lt.mpr hr)]
  split <;> rfl

/-- A post queues at most one request. -/
theorem length_ibvPost_le (r : ℤ) (queue : List (χ × UInt32)) (wr : χ × UInt32) :
    (ibvPost r queue wr).length ≤ queue.length + 1 := by
  unfold ibvPost
  split <;> simp

/-- A posting loop over receives that runs through leaves the posted sends alone, and queues no more
than its requests. -/
theorem postLoop_postRecv {res : ℕ → ℤ} (wcs : List (χ × UInt32)) :
    ∀ i (s : Endpoint χ) {s'}, postLoop postRecv res i wcs s = .ok s' →
      s'.sends = s.sends ∧ s'.recvs.length ≤ s.recvs.length + wcs.length := by
  induction wcs with
  | nil =>
    rintro i s s' h
    cases h
    exact ⟨rfl, le_refl _⟩
  | cons wc wcs ih =>
    intro i s s' h
    rw [postLoop, postRecv] at h
    by_cases hneg : res i < 0
    · simp [hneg] at h
    · rw [if_neg hneg, ok_bind] at h
      obtain ⟨hsends, hrecvs⟩ := ih _ _ h
      have hpost := length_ibvPost_le (res i) s.recvs wc
      refine ⟨hsends, hrecvs.trans ?_⟩
      rw [List.length_cons]
      dsimp only
      omega

/-- What queueing one request after the other leaves. -/
theorem foldl_push_sends (wcs : List (χ × UInt32)) (s : Endpoint χ) :
    wcs.foldl (fun s wc => { s with sends := s.sends ++ [wc] }) s
      = { s with sends := s.sends ++ wcs } := by
  induction wcs generalizing s with
  | nil => simp
  | cons wc wcs ih => simp [ih]

/-- Posting receives one by one appends them all. -/
theorem foldl_push_recvs (wcs : List (χ × UInt32)) (s : Endpoint χ) :
    wcs.foldl (fun s wc => { s with recvs := s.recvs ++ [wc] }) s
      = { s with recvs := s.recvs ++ wcs } := by
  induction wcs generalizing s with
  | nil => simp
  | cons wc wcs ih => simp [ih]

/-- **What the pool hands out**: as many chunks as asked for, from the front of the free list or of
its extension. -/
theorem getChunkList_some {s s' : Endpoint χ} {fresh : Option (List χ)} {count : UInt32}
    {chunkList : List χ} (h : s.getChunkList fresh count = some (chunkList, s')) :
    chunkList.length = count.toNat ∧ s'.sends = s.sends ∧ s'.recvs = s.recvs ∧
      (chunkList ++ s'.free).Sublist (fresh.getD [] ++ s.free) := by
  unfold getChunkList at h
  split at h
  · cases h
  · simp only at h
    split at h
    · cases h
    · rename_i free hfree
      split at h
      · rename_i hle
        cases h
        refine ⟨by simp [hle], rfl, rfl, ?_⟩
        rw [List.take_append_drop]
        split at hfree
        · obtain ⟨new, rfl, rfl⟩ := Option.map_eq_some_iff.mp hfree
          exact .refl _
        · obtain rfl := Option.some.inj hfree
          exact List.sublist_append_right ..
      · cases h

/-- The pool has chunks when an append brings enough of them. -/
theorem exists_getChunkList (s : Endpoint χ) (new : List χ) {count : UInt32} (hcount : count ≠ 0)
    (hle : count.toNat ≤ new.length) : ∃ result, s.getChunkList (some new) count = some result := by
  unfold getChunkList
  rw [if_neg hcount]
  by_cases hshort : s.free.length < count.toNat
  · have hlong : count.toNat ≤ (new ++ s.free).length := by
      rw [List.length_append]
      omega
    simp only [if_pos hshort, Option.map_some, if_pos hlong]
    exact ⟨_, rfl⟩
  · simp only [if_neg hshort, if_pos (not_lt.mp hshort)]
    exact ⟨_, rfl⟩

/-- Taking a single chunk posts nothing, and takes it from the free list or from what was appended.
-/
theorem getChunk_some {s s' : Endpoint χ} {fresh : Option (List χ)} {chunk : χ}
    (h : s.getChunk fresh = some (chunk, s')) : s'.sends = s.sends ∧ s'.recvs = s.recvs ∧
      ([chunk] ++ s'.free).Sublist (fresh.getD [] ++ s.free) := by
  unfold getChunk at h
  simp only at h
  split at h
  · rename_i free hfree
    cases h
    refine ⟨rfl, rfl, ?_⟩
    split at hfree
    · subst hfree
      exact List.sublist_append_left ..
    · rw [List.singleton_append, ← Option.some.inj hfree]
      exact List.sublist_append_right ..
  · cases h

/-- Without an append, the chunks come off the free list. -/
theorem getChunkList_free {s s' : Endpoint χ} {count : UInt32} {chunkList : List χ}
    (h : s.getChunkList none count = some (chunkList, s')) : s.free = chunkList ++ s'.free := by
  unfold getChunkList at h
  split at h
  · cases h
  · simp only [Option.map_none] at h
    split at h
    · cases h
    · rename_i free hfree
      split at h
      · cases h
        split at hfree
        · cases hfree
        · rw [List.take_append_drop]
          exact Option.some.inj hfree
      · cases h

/-- A single chunk taken without an append is the first of the free list. -/
theorem getChunk_free {s s' : Endpoint χ} {chunk : χ} (h : s.getChunk none = some (chunk, s')) :
    s.free = chunk :: s'.free := by
  unfold getChunk at h
  simp only at h
  split at h
  · rename_i free hfree
    cases h
    split at hfree
    · cases hfree
    · exact Option.some.inj hfree
  · cases h

end Endpoint

namespace PostCall

/-- Each call takes as many chunks as it posts. -/
theorem take_some {call : PostCall} {s s' : Endpoint χ} {fresh : Option (List χ)} {taken : List χ}
    (h : call.take s fresh = some (taken, s')) :
    taken.length = call.posts ∧ s'.sends = s.sends ∧ s'.recvs = s.recvs ∧
      (taken ++ s'.free).Sublist (fresh.getD [] ++ s.free) := by
  cases call with
  | send call => exact getChunkList_some h
  | recvWithNum num => exact getChunkList_some h
  | recv =>
    obtain ⟨⟨chunk, s'⟩, hchunk, heq⟩ := Option.map_eq_some_iff.mp h
    cases heq
    exact ⟨rfl, getChunk_some hchunk⟩

/-- Without an append, each call takes its chunks off the free list. -/
theorem take_free {call : PostCall} {s s' : Endpoint χ} {taken : List χ}
    (h : call.take s none = some (taken, s')) : s.free = taken ++ s'.free := by
  cases call with
  | send call => exact getChunkList_free h
  | recvWithNum num => exact getChunkList_free h
  | recv =>
    obtain ⟨⟨chunk, s'⟩, hchunk, heq⟩ := Option.map_eq_some_iff.mp h
    cases heq
    exact getChunk_free hchunk

/-- Without chunks from the pool, the call aborts, or returns -1 having taken none. -/
theorem run_of_take_none {call : PostCall} {s : Endpoint χ} {fresh : Option (List χ)}
    (h : call.take s fresh = none) (res : ℕ → ℤ) :
    (∃ e, call.run s fresh res = .error e) ∨ call.run s fresh res = .ok (-1, [], s) := by
  cases call with
  | send call =>
    refine .inl ⟨.abort, ?_⟩
    simp only [take] at h
    simp only [run, Endpoint.send, h]
  | recvWithNum num =>
    refine .inl ⟨.assertion, ?_⟩
    simp only [take] at h
    simp only [run, rdmaTransportRecvWithNum, h]
  | recv =>
    refine .inr ?_
    simp only [take, Option.map_eq_none_iff] at h
    simp only [run, rdmaTransportRecv, h]

/-- **What a call does with its chunks** when no post returns a negative number: it returns 0, and
has queued those whose post returned 0. -/
theorem run_of_take_some {call : PostCall} {s s₁ : Endpoint χ} {fresh : Option (List χ)}
    {taken : List χ} {res : ℕ → ℤ} (hres : ∀ i, 0 ≤ res i)
    (h : call.take s fresh = some (taken, s₁)) :
    ∃ s', call.run s fresh res = .ok (0, taken, s') ∧ s'.free = s₁.free ∧
      (call.queue s').map Prod.fst = (call.queue s).map Prod.fst ++ accepted res 0 taken := by
  obtain ⟨hlength, hsends, hrecvs, -⟩ := take_some h
  cases call with
  | send call =>
    simp only [take] at h
    have hdata := hlength ▸ chunkArray_length taken
    simp only [posts] at hdata
    refine ⟨{ s₁ with sends := s₁.sends ++ accepted res 0 (rdmaSendMsg taken call.len) },
      ?_, rfl, ?_⟩
    · simp only [run, Endpoint.send, h, hdata, ok_bind, postLoop_ok hres rdmaTransportSend_ok,
        foldl_push_sends]
      rfl
    · simp [queue, hsends, map_accepted, map_fst_rdmaSendMsg]
  | recvWithNum num =>
    simp only [take] at h
    have hdata := hlength ▸ chunkArray_length taken
    simp only [posts] at hdata
    refine ⟨{ s₁ with
      recvs := s₁.recvs ++ accepted res 0 (taken.map fun chunk => (chunk, rdmaChunkSize)) },
      ?_, rfl, ?_⟩
    · simp only [run, rdmaTransportRecvWithNum, h, hdata, ok_bind, postLoop_ok hres postRecv_ok,
        foldl_push_recvs]
      rfl
    · simp [queue, hrecvs, map_accepted, Function.comp_def]
  | recv =>
    simp only [take] at h
    obtain ⟨⟨chunk, s₁⟩, hchunk, heq⟩ := Option.map_eq_some_iff.mp h
    cases heq
    refine ⟨{ s₁ with recvs := ibvPost (res 0) s₁.recvs (chunk, rdmaChunkSize) }, ?_, rfl, ?_⟩
    · simp only [run, rdmaTransportRecv, hchunk, if_neg (not_lt.mpr (hres 0))]
    · have hrecvs : s₁.recvs = s.recvs := hrecvs
      by_cases hzero : res 0 = 0
      · simp [queue, ibvPost, hrecvs, accepted, hzero]
      · simp [queue, ibvPost, hrecvs, accepted, hzero]

/-- A call that is not a send posts to the receive queue. -/
theorem queue_of_receives {call : PostCall} (hcall : ∀ c, call ≠ send c) (s : Endpoint χ) :
    call.queue s = s.recvs := by
  cases call with
  | send call => exact (hcall call rfl).elim
  | recvWithNum num => rfl
  | recv => rfl

/-- Posting receives leaves the posted sends alone, and queues no more than it posts. -/
theorem run_receives {call : PostCall} (hcall : ∀ c, call ≠ send c) {s s' : Endpoint χ}
    {fresh : Option (List χ)} {res : ℕ → ℤ} {code : ℤ} {taken : List χ}
    (h : call.run s fresh res = .ok (code, taken, s')) :
    s'.sends = s.sends ∧ s'.recvs.length ≤ s.recvs.length + call.posts := by
  cases call with
  | send call => exact (hcall call rfl).elim
  | recvWithNum num =>
    simp only [run, rdmaTransportRecvWithNum] at h
    split at h
    · cases h
    · rename_i chunkList s₁ htake
      obtain ⟨hlength, hsends, hrecvs, -⟩ := getChunkList_some htake
      rw [← hlength, chunkArray_length, ok_bind] at h
      cases hloop : postLoop postRecv res 0 (chunkList.map fun chunk => (chunk, rdmaChunkSize)) s₁
        with
      | error e => simp [hloop] at h
      | ok s₂ =>
        rw [hloop, ok_bind] at h
        cases h
        have hposted := postLoop_postRecv _ _ _ hloop
        rw [List.length_map, hlength, hsends, hrecvs] at hposted
        exact hposted
  | recv =>
    simp only [run, rdmaTransportRecv] at h
    split at h
    · cases h
      exact ⟨rfl, Nat.le_add_right _ _⟩
    · rename_i chunk s₁ htake
      obtain ⟨hsends, hrecvs, -⟩ := getChunk_some htake
      -- Whatever the post returns, there is one receive more at most.
      have hposted : (ibvPost (res 0) s₁.recvs (chunk, rdmaChunkSize)).length
          ≤ s.recvs.length + 1 := by
        rw [hrecvs]
        exact length_ibvPost_le ..
      split at h <;> cases h <;> exact ⟨hsends, hposted⟩

/-- Posted receives take their chunks off the free list, when every post is accepted. -/
theorem run_recvs {call : PostCall} (hcall : ∀ c, call ≠ send c) {s s' : Endpoint χ} {code : ℤ}
    {taken : List χ} (h : call.run s none (fun _ => 0) = .ok (code, taken, s')) :
    s.free = taken ++ s'.free ∧ s'.sends = s.sends ∧
      s'.recvs.map Prod.fst = s.recvs.map Prod.fst ++ taken := by
  have hsends := (run_receives hcall h).1
  cases htake : call.take s none with
  | none =>
    rcases run_of_take_none htake fun _ => 0 with ⟨e, herr⟩ | hok
    · rw [herr] at h
      cases h
    · rw [hok] at h
      cases h
      exact ⟨rfl, rfl, (List.append_nil _).symm⟩
  | some result =>
    obtain ⟨taken, s₁⟩ := result
    obtain ⟨s', hrun, hfree, hposted⟩ := run_of_take_some (fun _ => le_refl _) htake
    rw [hrun] at h
    cases h
    rw [queue_of_receives hcall, queue_of_receives hcall, accepted_of_forall (fun _ => rfl)]
      at hposted
    exact ⟨hfree ▸ take_free htake, hsends, hposted⟩

/-- **The exact condition.** For each of the four functions, whatever is free and queued, and
whatever the posts return as long as it is not negative: no chunk is lost if and only if the pool
has no chunks for the call, or every post returns 0. -/
theorem losesNothing_iff (call : PostCall) (s : Endpoint χ) (fresh : Option (List χ)) (res : ℕ → ℤ)
    (hres : ∀ i, 0 ≤ res i)
    (hnodup : (fresh.getD [] ++ s.free ++ (call.queue s).map Prod.fst).Nodup) :
    call.LosesNothing s fresh res ↔
      call.take s fresh = none ∨ ∀ i, i < call.posts → res i = 0 := by
  cases htake : call.take s fresh with
  | none =>
    refine iff_of_true ?_ (.inl rfl)
    intro code taken s' hrun
    rcases run_of_take_none htake res with ⟨e, herr⟩ | hok
    · rw [herr] at hrun
      cases hrun
    · rw [hok] at hrun
      cases hrun
      exact ⟨nofun, nofun⟩
  | some result =>
    obtain ⟨taken, s₁⟩ := result
    obtain ⟨s', hrun, hfree, hqueue⟩ := run_of_take_some hres htake
    obtain ⟨hlength, -, -, hsub⟩ := take_some htake
    -- A chunk of the call is neither free nor queued before, and it is taken once.
    have hdisjoint := (List.nodup_append.mp hnodup).2.2
    have htaken : taken.Nodup :=
      (((List.nodup_append.mp hnodup).1.sublist hsub).sublist (List.sublist_append_left ..))
    have hqueued : ∀ i chunk, taken[i]? = some chunk →
        (chunk ∈ (call.queue s').map Prod.fst ↔ res i = 0) := by
      intro i chunk hi
      have hmem := hsub.subset (List.mem_append_left _ (List.mem_of_getElem? hi))
      have hold : chunk ∉ (call.queue s).map Prod.fst := fun hold => hdisjoint _ hmem _ hold rfl
      rw [hqueue, List.mem_append, or_iff_right hold, mem_accepted_iff taken htaken 0 i hi,
        Nat.zero_add]
    refine ⟨fun hloses => .inr fun i hi => ?_, fun hposts => ?_⟩
    · -- A call that returns 0 without losing a chunk has queued them all.
      have hi : i < taken.length := hlength ▸ hi
      have hget := List.getElem?_eq_getElem hi
      exact (hqueued i _ hget).mp ((hloses _ _ _ hrun).1 rfl _ (List.mem_of_getElem? hget))
    · have hall : ∀ chunk ∈ taken, chunk ∈ (call.queue s').map Prod.fst := by
        intro chunk hchunk
        obtain ⟨i, hi⟩ := List.getElem?_of_mem hchunk
        have hlt := (List.getElem?_eq_some_iff.mp hi).1
        exact (hqueued i chunk hi).mpr (hposts.resolve_left nofun i (hlength ▸ hlt))
      intro code taken' s'' hrun'
      rw [hrun] at hrun'
      cases hrun'
      exact ⟨fun _ => hall, fun chunk hchunk hnot => absurd (hall chunk hchunk) hnot⟩

/-- The condition on an empty queue pair, with one post that is accepted. -/
theorem losesNothing_iff_accepted :
    (send (.sendMsg ⟨[7], by decide⟩)).LosesNothing (⟨[0], [], []⟩ : Endpoint ℕ) none fun _ => 0 :=
  (losesNothing_iff (send (.sendMsg ⟨[7], by decide⟩)) ⟨[0], [], []⟩ none (fun _ => 0)
    (fun _ => le_refl _) (by decide)).mpr (.inr fun _ _ => rfl)

/-- The state the failure needs: `MAX_CQE` one-byte messages are outstanding, chunk 0 is free. -/
def sendQueueFull : Endpoint ℕ := ⟨[0], (List.range' 1 maxCqe).map (·, 1), []⟩

/-- **A message is lost.** With `MAX_CQE` sends outstanding `ibv_post_send` returns `ENOMEM`, which
is 12; `send_msg` takes the free chunk for its one byte, does not queue it, does not release it,
and returns 0. -/
theorem full_queue_loses :
    ¬ (send (.sendMsg ⟨[7], by decide⟩)).LosesNothing sendQueueFull none fun _ => 12 := by
  intro hloses
  have htake : (send (.sendMsg ⟨[7], by decide⟩)).take sendQueueFull none
      = some ([0], { sendQueueFull with free := [] }) := rfl
  have hpositive : ∀ i : ℕ, 0 ≤ (fun _ => 12 : ℕ → ℤ) i := fun _ => Int.natCast_nonneg 12
  obtain ⟨s', hrun, -, hqueue⟩ := run_of_take_some hpositive htake
  have hmem := (hloses _ _ _ hrun).1 rfl 0 List.mem_cons_self
  rw [hqueue, List.mem_append] at hmem
  rcases hmem with hold | hnew
  · simp [PostCall.queue, sendQueueFull] at hold
  · simp [accepted] at hnew

end PostCall

end SparkRdma
