import SparkRdma.WorkQueue.ArraySize
import SparkRdma.WorkQueue.Chunks

/-! # The reassembler and its buffers

What `handle_recv_event` and `work_thread` write and copy when the frames are arbitrary: any
`byte_len` up to `RDMA_CHUNK_SIZE`, any header, and stale fields in a header that a short frame does
not cover. The checks are spread out: `chunk_len` against `byte_len`, with a sum that may wrap;
`len` against `size`, for a varray that was found; the data ids and the sum of the lengths, in the
worker.

* **`RegionCopy`**, **`regionCopies`** — the copies that `SetByteArrayRegion` is asked for.
* **`workQueueReceived`** — the machine `workQueue`, keeping the chunks received.
* **`StaysInside`**, **`Contained`** — what is asked of a step and of a state.
* **`writes_outside`** — a frame with a `chunk_num` of 0 is stored behind its varray.
* **`contained_of_guarded`** — the only ways out are that frame, a varray popped while
  `handle_thread` has found it, a frame shorter than its header, and a varray whose lengths add up
  to more than an `int`.
* **`BoundsInv.leaves_of_chunkNum`**, **`BoundsInv.leaves_of_popped`**, **`leaves_of_negative`** —
  each of them leads out. -/

namespace SparkRdma

open Interleaving WorkState

variable {χ : Type}

/-! ### The copies of a delivery -/

/-- A copy that `SetByteArrayRegion` is asked for: the first `len` bytes of the body of `chunk`, to
position `pos` of the array. -/
structure RegionCopy (χ : Type) where
  /-- The chunk. -/
  chunk : χ
  /-- The position in the array. -/
  pos : ℤ
  /-- The number of bytes. -/
  len : ℤ

section Copies

variable (mem : χ → RdmaChunk)

/-- The copies of the second loop of `work_thread`, from position `pos` on. -/
def regionCopies (pos : UInt32) (data : List χ) : List (RegionCopy χ) :=
  List.zipWith (fun chunk region => ⟨chunk, region.1, region.2⟩) data (regions mem pos data)

/-- What one copy makes of the array. -/
def RegionCopy.write (a : List UInt8) (copy : RegionCopy χ) : List UInt8 :=
  a.take copy.pos.toNat ++ (mem copy.chunk).body.bytes.take copy.len.toNat
    ++ a.drop (copy.pos.toNat + copy.len.toNat)

/-- `chunk_len` is that of a frame of at least `RDMA_HEADER_SIZE` and at most `RDMA_CHUNK_SIZE`
bytes. -/
def Fits (chunk : RdmaChunk) : Prop := chunk.header.chunkLen ≤ rdmaBodySize

/-- The lengths of the chunks, added up without a wrap. -/
def summedLen (data : List χ) : ℕ := (data.map fun chunk => (mem chunk).header.chunkLen.toNat).sum

/-- **The second loop of `work_thread` copies inside its buffers**: once the sum of the lengths is
there, so is an array of that size, and the loop makes of it what the copies make of it, each of
which reads the body of a chunk that was received and writes into the array. -/
def CopiesInside (received : List χ) (v : Varray χ) : Prop :=
  ∀ dataLen, sumChunkLen mem v.dataId 0 v.data = .ok dataLen →
    ∃ a, jniAllocByteArray dataLen.toInt32.toInt = some a ∧
      copyChunks mem (some a) 0 v.data
        = .ok (some ((regionCopies mem 0 v.data).foldl (RegionCopy.write mem) a)) ∧
      ∀ copy ∈ regionCopies mem 0 v.data, copy.chunk ∈ received ∧
        0 ≤ copy.len ∧ copy.len ≤ rdmaBodySize.toNat ∧
        0 ≤ copy.pos ∧ copy.pos + copy.len ≤ dataLen.toInt32.toInt

end Copies

/-! ### The code, and what is asked of it -/

/-- The chunks received, after one more step. -/
def noteReceived (_ : WorkState χ) (a : WorkAct χ) (received : List χ) : List χ :=
  match a with
  | .recv _ chunk => received ++ [chunk]
  | _ => received

/-- The work queue of a transport, keeping the chunks received so far. -/
def workQueueReceived (mem : χ → RdmaChunk) : Machine (WorkState χ × List χ) CFault (WorkAct χ) :=
  (workQueue mem).recording [] noteReceived

/-- A completion tells at most `RDMA_CHUNK_SIZE` bytes. -/
def ByteLenFits : WorkAct χ → Prop
  | .recv byteLen _ => byteLen ≤ rdmaChunkSize
  | _ => True

/-- A step does not leave the objects it works on. It may abort, after a check or at an
assertion. -/
def StaysInside (mem : χ → RdmaChunk) (s : WorkState χ) (a : WorkAct χ) : Prop :=
  ∀ e, workQueueStep mem s a = some (.error e) → e = .abort ∨ e = .assertion

/-- What is asked of a state. -/
structure Contained (mem : χ → RdmaChunk) (s : WorkState χ × List χ) : Prop where
  /-- No queued varray has more chunks than it was allocated for. -/
  len_le : ∀ now ∈ s.1.workQueue, ∃ v, s.1.heap now = some v ∧ v.data.length ≤ v.size.toNat
  /-- What is about to be copied from a popped varray is inside its buffers. -/
  copies : ∀ head ∈ s.1.inHand, ∃ v, s.1.heap head = some v ∧ CopiesInside mem s.2 v

/-- **A write outside.** A frame of the header alone, with a `chunk_num` of 0, starts a varray that
is allocated for no chunk; the chunk is stored at index 0 all the same. -/
theorem writes_outside :
    ¬ ∀ (mem : Unit → RdmaChunk) (s : WorkState Unit × List Unit),
      (workQueueReceived mem).ReachableUnder (fun _ a => ByteLenFits a) s →
        Contained mem s ∧ ∀ a, StaysInside mem s.1 a := by
  intro h
  have hs := Machine.ReachableUnder.init (M := workQueueReceived fun _ : Unit => RdmaChunk.blank)
    (P := fun _ a => ByteLenFits a)
  have hs := hs.next (a := WorkAct.recv 21 ()) (show (21 : UInt32) ≤ rdmaChunkSize by decide) rfl
  rcases (h _ _ hs).2 .handler .outOfBounds rfl with h | h <;> cases h

/-- The condition on a step: a frame is no shorter than its header, and does not have a `chunk_num`
of 0 where it starts a varray; and a varray that is popped is not the one that `handle_thread` has
found and not yet used, and its lengths add up to an `int`. -/
def Guarded (mem : χ → RdmaChunk) (s : WorkState χ) : WorkAct χ → Prop
  | .recv byteLen chunk => rdmaHeaderSize ≤ byteLen ∧
      (s.findCustom (mem chunk).header.dataId = none → (mem chunk).header.chunkNum ≠ 0)
  | .worker i => s.workers[i]? = some .top → ∀ head rest v, s.workQueue = head :: rest →
      s.heap head = some v → v.Complete →
      (∀ chunk, s.handler ≠ .found chunk (some head)) ∧ summedLen mem v.data < 2 ^ 31
  | _ => True

/-! ### Copying stays inside -/

/-- A `uint32_t` that is an `int` is the same number as one. -/
theorem toInt_toInt32 {n : UInt32} (h : n.toNat < 2 ^ 31) : n.toInt32.toInt = n.toNat := by
  have hint := toInt_toInt32_ofNat h
  rwa [UInt32.ofNat_toNat] at hint

section Copies

variable {mem : χ → RdmaChunk}

/-- The length of such a chunk is no more than its body. -/
theorem Fits.toNat_le {chunk : RdmaChunk} (h : Fits chunk) :
    chunk.header.chunkLen.toNat ≤ rdmaBodySize.toNat := UInt32.le_iff_toNat_le.mp h

/-- A frame that passes the check of its length is such, if it is no shorter than its header: the
sum has not wrapped. -/
theorem fits_of_byteLen {chunk : RdmaChunk} {byteLen : UInt32} (hheader : rdmaHeaderSize ≤ byteLen)
    (hle : byteLen ≤ rdmaChunkSize) (hcheck : chunk.header.chunkLen + rdmaHeaderSize = byteLen) :
    Fits chunk := by
  have hlt := chunk.header.chunkLen.toNat_lt
  have hsum := congrArg UInt32.toNat hcheck
  rw [UInt32.toNat_add] at hsum
  have hheader : 21 ≤ byteLen.toNat := UInt32.le_iff_toNat_le.mp hheader
  have hle : byteLen.toNat ≤ 65536 := UInt32.le_iff_toNat_le.mp hle
  have h21 : rdmaHeaderSize.toNat = 21 := rfl
  refine UInt32.le_iff_toNat_le.mpr ?_
  rw [toNat_rdmaBodySize]
  omega

/-- The sum of one chunk more. -/
@[simp] theorem summedLen_cons (chunk : χ) (data : List χ) : summedLen mem (chunk :: data)
    = (mem chunk).header.chunkLen.toNat + summedLen mem data := by
  rw [summedLen, List.map_cons, List.sum_cons, summedLen]

/-- What the first loop adds up, when it comes through. -/
theorem sumChunkLen_eq {dataId : UInt32} {data : List χ} : ∀ {start dataLen : UInt32},
    sumChunkLen mem dataId start data = .ok dataLen →
      dataLen = start + UInt32.ofNat (summedLen mem data) := by
  induction data with
  | nil =>
    intro start dataLen h
    cases h
    simp [summedLen]
  | cons chunk data ih =>
    intro start dataLen h
    rw [sumChunkLen] at h
    split at h
    · rw [ih h, summedLen_cons, UInt32.ofNat_add, UInt32.ofNat_toNat, UInt32.add_assoc]
    · cases h

/-- A sum that is an `int` is what the loop has added up. -/
theorem toInt_sumChunkLen {dataId dataLen : UInt32} {data : List χ}
    (hsummed : summedLen mem data < 2 ^ 31) (h : sumChunkLen mem dataId 0 data = .ok dataLen) :
    dataLen.toInt32.toInt = summedLen mem data := by
  rw [sumChunkLen_eq h, UInt32.zero_add, toInt_toInt32_ofNat hsummed]

/-- A copy into the array does not change its size. -/
theorem length_write (mem : χ → RdmaChunk) {a : List UInt8} (copy : RegionCopy χ)
    (hlen : copy.len ≤ rdmaBodySize.toNat)
    (hinside : 0 ≤ copy.pos ∧ 0 ≤ copy.len ∧ copy.pos + copy.len ≤ a.length) :
    (copy.write mem a).length = a.length := by
  have hbody := (mem copy.chunk).body.length_bytes
  simp only [RegionCopy.write, List.length_append, List.length_take, List.length_drop]
  omega

/-- A region inside the array is copied from the body. -/
theorem setByteArrayRegion_inside (mem : χ → RdmaChunk) {a : List UInt8} (copy : RegionCopy χ)
    (hlen : copy.len ≤ rdmaBodySize.toNat)
    (hinside : 0 ≤ copy.pos ∧ 0 ≤ copy.len ∧ copy.pos + copy.len ≤ a.length) :
    setByteArrayRegion (some a) copy.pos copy.len (mem copy.chunk).body.bytes
      = .ok (some (copy.write mem a)) := by
  rw [← (mem copy.chunk).body.length_bytes] at hlen
  rw [setByteArrayRegion, if_pos hinside, if_pos hlen]
  rfl

/-- The copies for one chunk and for those behind it. -/
theorem regionCopies_cons (pos : UInt32) (chunk : χ) (data : List χ) :
    regionCopies mem pos (chunk :: data) =
      ⟨chunk, pos.toInt32.toInt, (mem chunk).header.chunkLen.toInt32.toInt⟩
        :: regionCopies mem (pos + (mem chunk).header.chunkLen) data := rfl

/-- The next position, while there is room for the rest. -/
theorem toNat_pos_add {pos : UInt32} {chunk : χ} {data : List χ}
    (hroom : pos.toNat + summedLen mem (chunk :: data) < 2 ^ 31) :
    (pos + (mem chunk).header.chunkLen).toNat = pos.toNat + (mem chunk).header.chunkLen.toNat := by
  rw [summedLen_cons] at hroom
  rw [UInt32.toNat_add, Nat.mod_eq_of_lt (by omega)]

/-- **The copy loop** of `work_thread` makes its copies. -/
theorem copyChunks_eq {data : List χ} : ∀ (a : List UInt8) (pos : UInt32),
    (∀ chunk ∈ data, Fits (mem chunk)) → pos.toNat + summedLen mem data ≤ a.length →
      a.length < 2 ^ 31 → copyChunks mem (some a) pos data
        = .ok (some ((regionCopies mem pos data).foldl (RegionCopy.write mem) a)) := by
  induction data with
  | nil => exact fun _ _ _ _ _ => rfl
  | cons chunk data ih =>
    intro a pos hfits hroom hsize
    have hnext := toNat_pos_add (hroom.trans_lt hsize)
    rw [summedLen_cons] at hroom
    have hpos := toInt_toInt32 (n := pos) (by omega)
    have hlen := toInt_toInt32 (n := (mem chunk).header.chunkLen) (by omega)
    have hfit := (hfits chunk List.mem_cons_self).toNat_le
    let copy : RegionCopy χ :=
      ⟨chunk, pos.toInt32.toInt, (mem chunk).header.chunkLen.toInt32.toInt⟩
    have hfit' : copy.len ≤ rdmaBodySize.toNat := by
      simp only [copy]
      omega
    have hinside : 0 ≤ copy.pos ∧ 0 ≤ copy.len ∧ copy.pos + copy.len ≤ a.length := by
      simp only [copy]
      omega
    have hwritten := length_write mem copy hfit' hinside
    rw [copyChunks, regionCopies_cons, List.foldl_cons, setByteArrayRegion_inside mem copy hfit'
      hinside, ok_bind]
    refine ih _ _ (fun chunk hmem => hfits chunk (List.mem_cons_of_mem _ hmem)) ?_ ?_
    · rw [hwritten, hnext]
      omega
    · rwa [hwritten]

/-- A copy is one of a chunk of the varray, inside the array. -/
theorem of_mem_regionCopies {copy : RegionCopy χ} {data : List χ} : ∀ {pos : UInt32},
    pos.toNat + summedLen mem data < 2 ^ 31 → copy ∈ regionCopies mem pos data →
      copy.chunk ∈ data ∧ copy.len = (mem copy.chunk).header.chunkLen.toNat ∧
        0 ≤ copy.pos ∧ copy.pos + copy.len ≤ pos.toNat + summedLen mem data := by
  induction data with
  | nil => exact fun _ h => (List.not_mem_nil h).elim
  | cons chunk data ih =>
    intro pos hroom h
    have hnext := toNat_pos_add hroom
    rw [summedLen_cons] at hroom
    rw [regionCopies_cons] at h
    rcases List.mem_cons.mp h with rfl | h
    · have hpos := toInt_toInt32 (n := pos) (by omega)
      have hlen := toInt_toInt32 (n := (mem chunk).header.chunkLen) (by omega)
      refine ⟨List.mem_cons_self, hlen, ?_, ?_⟩
      · simp only [hpos]
        exact Int.natCast_nonneg _
      · simp only [hpos, hlen, summedLen_cons, Nat.cast_add]
        omega
    · obtain ⟨hmem, hlen, hpos, hinside⟩ := ih (by omega) h
      refine ⟨List.mem_cons_of_mem _ hmem, hlen, hpos, ?_⟩
      rw [hnext] at hinside
      rw [summedLen_cons]
      omega

/-- An array of a size that is not negative is made. -/
theorem jniAllocByteArray_natCast (n : ℕ) :
    jniAllocByteArray n = some (List.replicate n 0) := by
  rw [jniAllocByteArray, if_pos rfl, if_pos (Int.natCast_nonneg n), Int.toNat_natCast]

/-- The copies of a varray whose chunks were received, and whose lengths add up to an `int`. -/
theorem copiesInside_of_fits {received : List χ} {v : Varray χ}
    (hdata : ∀ chunk ∈ v.data, chunk ∈ received ∧ Fits (mem chunk))
    (hsummed : summedLen mem v.data < 2 ^ 31) : CopiesInside mem received v := by
  intro dataLen hsum
  rw [toInt_sumChunkLen hsummed hsum]
  have hzero : (0 : UInt32).toNat + summedLen mem v.data = summedLen mem v.data := Nat.zero_add _
  refine ⟨_, jniAllocByteArray_natCast _, ?_, fun copy hcopy => ?_⟩
  · refine copyChunks_eq _ 0 (fun chunk hmem => (hdata chunk hmem).2) ?_ ?_
    · rw [hzero, List.length_replicate]
    · rwa [List.length_replicate]
  · obtain ⟨hmem, hlen, hpos, hinside⟩ := of_mem_regionCopies (by rwa [hzero]) hcopy
    have hfit := (hdata _ hmem).2.toNat_le
    have hzero : (0 : UInt32).toNat = 0 := rfl
    exact ⟨(hdata _ hmem).1, by omega, by omega, hpos, by omega⟩

/-- The first loop only checks the data ids. -/
theorem sumChunkLen_error {dataId : UInt32} {data : List χ} {e : CFault} : ∀ {dataLen : UInt32},
    sumChunkLen mem dataId dataLen data = .error e → e = .assertion := by
  induction data with
  | nil => exact fun h => (by cases h)
  | cons chunk data ih =>
    intro dataLen h
    rw [sumChunkLen] at h
    split at h
    · exact ih h
    · cases h
      rfl

/-- What can go wrong from the pop to the callback: an assertion fails. -/
theorem deliver_error {received : List χ} {v : Varray χ} (hne : v.data ≠ [])
    (hcopies : CopiesInside mem received v) {e : CFault} (h : deliver mem v = .error e) :
    e = .assertion := by
  unfold deliver at h
  cases hdata : v.data with
  | nil => exact (hne hdata).elim
  | cons first data =>
    simp only [hdata] at h
    rw [← hdata] at h
    cases hsum : sumChunkLen mem v.dataId 0 v.data with
    | error e' =>
      rw [hsum, error_bind] at h
      cases h
      exact sumChunkLen_error hsum
    | ok dataLen =>
      rw [hsum, ok_bind] at h
      split at h
      · obtain ⟨a, halloc, hcopy, -⟩ := hcopies dataLen hsum
        rw [halloc, hcopy] at h
        cases h
      · cases h
        rfl

/-- A sum that is negative as an `int` makes no array, and the copy loop goes to NULL. -/
theorem deliver_of_negative {v : Varray χ} {first : χ} {data : List χ} {dataLen : UInt32}
    (hdata : v.data = first :: data) (hsum : sumChunkLen mem v.dataId 0 v.data = .ok dataLen)
    (hlen : (mem first).header.dataLen = dataLen) (hnegative : dataLen.toInt32.toInt < 0) :
    deliver mem v = .error .nullDeref := by
  rw [hdata] at hsum
  rw [deliver, hdata]
  simp only [hsum, ok_bind, if_pos hlen]
  rw [jniAllocByteArray, if_neg (not_le.mpr hnegative)]
  rfl

/-- The one frame of a message may be shorter than its header, if its stale `chunk_len` makes the
sum wrap: then that is negative as an `int`. -/
theorem negative_of_short {chunk : RdmaChunk} {byteLen : UInt32} (hshort : byteLen < rdmaHeaderSize)
    (hcheck : chunk.header.chunkLen + rdmaHeaderSize = byteLen) :
    chunk.header.chunkLen.toInt32.toInt < 0 := by
  have hlt := chunk.header.chunkLen.toNat_lt
  have hsum := congrArg UInt32.toNat hcheck
  rw [UInt32.toNat_add] at hsum
  have hshort : byteLen.toNat < 21 := UInt32.lt_iff_toNat_lt.mp hshort
  have h21 : rdmaHeaderSize.toNat = 21 := rfl
  change chunk.header.chunkLen.toBitVec.toInt < 0
  rw [BitVec.toInt_eq_toNat_cond, UInt32.toNat_toBitVec]
  split <;> omega

end Copies

/-! ### The invariant -/

/-- A live varray has a chunk, no more than it was allocated for, and only such as were received. -/
structure Filled (mem : χ → RdmaChunk) (received : List χ) (v : Varray χ) : Prop where
  /-- It has its first chunk. -/
  ne_nil : v.data ≠ []
  /-- It has room for those it has. -/
  len_le : v.data.length ≤ v.size.toNat
  /-- They were received, and passed the check of their length. -/
  chunks : ∀ chunk ∈ v.data, chunk ∈ received ∧ Fits (mem chunk)

/-- What every step preserves that is guarded. -/
structure BoundsInv (mem : χ → RdmaChunk) (s : WorkState χ × List χ) : Prop where
  /-- Queued and popped varrays are live and distinct. -/
  queue : QueueInv s.1
  /-- The live varrays. -/
  filled : ∀ now v, s.1.heap now = some v → Filled mem s.2 v
  /-- The chunk of the event under way was received, and passed the check of its length. -/
  incoming : ∀ chunk ∈ s.1.incoming, chunk ∈ s.2 ∧ Fits (mem chunk)
  /-- A frame that is to start a varray has entries for it. -/
  started : ∀ chunk, s.1.handler = .found chunk none → (mem chunk).header.chunkNum ≠ 0
  /-- A varray that was found is queued. -/
  found : ∀ chunk now, s.1.handler = .found chunk (some now) → now ∈ s.1.workQueue
  /-- The lengths of a varray that was popped add up to an `int`. -/
  summed : ∀ head ∈ s.1.inHand, ∀ v, s.1.heap head = some v → summedLen mem v.data < 2 ^ 31

/-- `VARRY_MALLOC0(0)` has no entry for the first chunk. -/
theorem pushNew_of_zero {mem : χ → RdmaChunk} (s : WorkState χ) {chunk : χ}
    (hzero : (mem chunk).header.chunkNum = 0) : s.pushNew mem chunk = .error .outOfBounds := by
  rw [pushNew, hzero]
  rfl

/-- Appending to a queued varray can only abort. -/
theorem appendFound_error {mem : χ → RdmaChunk} {s : WorkState χ} {chunk : χ} {now : ℕ}
    {v : Varray χ} {e : CFault} (hqueued : now ∈ s.workQueue) (hv : s.heap now = some v)
    (h : s.appendFound mem chunk now = .error e) : e = .abort := by
  simp only [appendFound, if_neg (not_not.mpr hqueued), deref, hv, ok_bind] at h
  split at h
  · cases h
    rfl
  split at h
  · cases h
    rfl
  · -- The check of `len` against `size` has left an entry.
    rw [Varray.put, if_pos (not_le.mp ‹_›)] at h
    cases h

/-- From the pop to the callback of a live varray. -/
theorem deliverHead_error {mem : χ → RdmaChunk} {received : List χ} {s : WorkState χ} {i head : ℕ}
    {v : Varray χ} {e : CFault} (hv : s.heap head = some v) (hne : v.data ≠ [])
    (hcopies : CopiesInside mem received v) (h : s.deliverHead mem i head = .error e) :
    e = .abort ∨ e = .assertion := by
  unfold deliverHead at h
  split at h
  · cases h
    exact .inr rfl
  simp only [deref, hv, ok_bind] at h
  split at h
  · cases h
    exact .inl rfl
  cases hdeliver : deliver mem v with
  | error e' =>
    rw [hdeliver, error_bind] at h
    cases h
    exact .inr (deliver_error hne hcopies hdeliver)
  | ok callback =>
    rw [hdeliver] at h
    cases h

/-- A varray popped and not called back is held. -/
theorem mem_held_of_inHand {s : WorkState χ} {head : ℕ} (h : head ∈ s.inHand) : head ∈ s.held := by
  obtain ⟨pc, hpc, hpopped⟩ := List.mem_filterMap.mp h
  refine List.mem_filterMap.mpr ⟨pc, hpc, ?_⟩
  cases pc with
  | popped head' => exact hpopped
  | top | delivered head' => cases hpopped

namespace BoundsInv

variable {mem : χ → RdmaChunk} {s : WorkState χ} {s' : WorkState χ} {received : List χ}

/-- The lookup. -/
theorem lookup (h : BoundsInv mem (s, received)) {byteLen : UInt32} {chunk : χ}
    (hfits : byteLen ≤ rdmaChunkSize) (hguarded : Guarded mem s (.recv byteLen chunk))
    (hstep : s.lookupSection mem byteLen chunk = .ok s') :
    BoundsInv mem (s', received ++ [chunk]) := by
  have hqueue : s'.Holds (fun _ => 0) _ _ _ := lookupSection_chunks h.queue hstep
  obtain ⟨hlength, rfl⟩ := lookupSection_ok hstep
  refine ⟨hqueue.inv, fun now v hv => ?_, ?_, ?_, ?_, h.summed⟩
  · -- the varrays are as they were; only more chunks were received
    obtain ⟨hne, hle, hchunks⟩ := h.filled now v hv
    exact ⟨hne, hle, fun chunk hmem =>
      (hchunks chunk hmem).imp_left (List.mem_append_left _)⟩
  · rintro chunk' hmem
    obtain rfl := List.mem_singleton.mp hmem
    exact ⟨List.mem_append_right _ (List.mem_singleton_self _),
      fits_of_byteLen hguarded.1 hfits hlength⟩
  · intro chunk' hfound
    obtain ⟨rfl, hnone⟩ : chunk = chunk' ∧ s.findCustom (mem chunk).header.dataId = none := by
      simpa using hfound
    exact hguarded.2 hnone
  · intro chunk' now hfound
    obtain ⟨rfl, hnow⟩ : chunk = chunk' ∧ s.findCustom (mem chunk).header.dataId = some now := by
      simpa using hfound
    exact List.mem_of_find?_eq_some hnow

/-- The chunk that `handle_thread` is about to store. -/
theorem chunk_of_found (h : BoundsInv mem (s, received)) {chunk : χ} {now : Option ℕ}
    (hhandler : s.handler = .found chunk now) : chunk ∈ received ∧ Fits (mem chunk) := by
  refine h.incoming chunk ?_
  rw [WorkState.incoming, hhandler]
  exact List.mem_singleton_self chunk

/-- A new varray has its first chunk. -/
theorem pushNew (h : BoundsInv mem (s, received)) {chunk : χ} {now : Option ℕ}
    (hhandler : s.handler = .found chunk now) (hstep : s.pushNew mem chunk = .ok s') :
    BoundsInv mem (s', received) := by
  have hqueue : s'.Holds (fun _ => 0) _ _ _ := pushNew_chunks h.queue hstep
  have hchunk := h.chunk_of_found hhandler
  obtain ⟨hpos, rfl⟩ := pushNew_ok hstep
  refine ⟨hqueue.inv, fun now v hv => ?_, ?_, by simp, by simp, fun head hhead v hv => ?_⟩
  · dsimp only at hv
    -- the guard on the lookup has left an entry for the first chunk
    by_cases hnow : now = s.nextAddr
    · subst hnow
      rw [Function.update_self] at hv
      cases hv
      refine ⟨by simp, Nat.succ_le_of_lt hpos, fun chunk' hmem => ?_⟩
      exact List.mem_singleton.mp hmem ▸ hchunk
    · rw [Function.update_of_ne hnow] at hv
      exact h.filled now v hv
  · exact fun _ hmem => (List.not_mem_nil hmem).elim
  · -- the varrays popped were allocated before
    have hlt := h.queue.allocated head (List.mem_append_left _ (mem_held_of_inHand hhead))
    dsimp only at hv hlt
    rw [Function.update_of_ne hlt.ne] at hv
    exact h.summed head hhead v hv

/-- The varray found had room for the chunk. -/
theorem appendFound (h : BoundsInv mem (s, received)) {chunk : χ} {found : Option ℕ} {now : ℕ}
    (hhandler : s.handler = .found chunk found) (hstep : s.appendFound mem chunk now = .ok s') :
    BoundsInv mem (s', received) := by
  have hqueue : s'.Holds (fun _ => 0) _ _ _ := appendFound_chunks h.queue hstep
  have hchunk := h.chunk_of_found hhandler
  obtain ⟨hqueued, v, hv, hroom, -, rfl⟩ := appendFound_ok hstep
  refine ⟨hqueue.inv, fun now' w hw => ?_, ?_, by simp, by simp, fun head hhead w hw => ?_⟩
  · dsimp only at hw
    by_cases hnow : now' = now
    · subst hnow
      rw [Function.update_self] at hw
      cases hw
      refine ⟨by simp, ?_, fun chunk' hmem => ?_⟩
      · rw [List.length_append, List.length_singleton]
        exact hroom
      · rcases List.mem_append.mp hmem with hmem | hmem
        · exact (h.filled now' v hv).chunks chunk' hmem
        · exact List.mem_singleton.mp hmem ▸ hchunk
    · rw [Function.update_of_ne hnow] at hw
      exact h.filled now' w hw
  · exact fun _ hmem => (List.not_mem_nil hmem).elim
  · -- the varray is queued, so it is none of those popped
    have hne : head ≠ now := by
      rintro rfl
      exact List.disjoint_of_nodup_append h.queue.distinct (mem_held_of_inHand hhead) hqueued
    dsimp only at hw
    rw [Function.update_of_ne hne] at hw
    exact h.summed head hhead w hw

/-- The last section of an event. -/
theorem wakeSection (h : BoundsInv mem (s, received)) (hstored : s.handler = .stored)
    (hstep : s.wakeSection = .ok s') : BoundsInv mem (s', received) := by
  have hqueue : s'.Holds (fun _ => 0) _ _ _ := wakeSection_chunks h.queue hstored hstep
  obtain ⟨-, -, rfl⟩ | ⟨-, rfl⟩ := wakeSection_ok hstep <;>
    exact ⟨hqueue.inv, h.filled, fun _ hmem => (List.not_mem_nil hmem).elim, by simp, by simp,
      h.summed⟩

/-- A pop that is guarded leaves the varray found on the queue. -/
theorem headSection (h : BoundsInv mem (s, received)) {i : ℕ} (hi : s.workers[i]? = some .top)
    (hguarded : Guarded mem s (.worker i)) (hstep : s.headSection i = .ok s') :
    BoundsInv mem (s', received) := by
  have hqueue : QueueInv s' := by
    rcases headSection_chunks (fun _ => 0) h.queue hi hstep with hholds | ⟨_, _, _, hholds⟩
    · exact hholds.inv
    · exact hholds.inv
  obtain ⟨head, rest, v, hq, hv, hcomplete, rfl⟩ | ⟨-, rfl⟩ := headSection_ok hstep
  · obtain ⟨hunused, hsummed⟩ := hguarded hi head rest v hq hv hcomplete
    refine ⟨hqueue, h.filled, h.incoming, h.started, fun chunk now hfound => ?_,
      fun head' hhead' w hw => ?_⟩
    · -- the varray found is not the head, so it is among the rest
      have hmem := h.found chunk now hfound
      dsimp only at hmem
      rw [hq] at hmem
      refine (List.mem_cons.mp hmem).resolve_left ?_
      rintro rfl
      exact hunused chunk hfound
    · rcases mem_inHand_set hhead' with hhead' | hpopped
      · exact h.summed head' hhead' w hw
      · cases hpopped
        obtain rfl : v = w := Option.some.inj (hv.symm.trans hw)
        exact hsummed
  · refine ⟨hqueue, h.filled, h.incoming, h.started, h.found, fun head hhead => ?_⟩
    obtain ⟨pc, hpc, hpopped⟩ := List.mem_filterMap.mp hhead
    exact h.summed head (List.mem_filterMap.mpr ⟨pc, List.mem_of_mem_eraseIdx hpc, hpopped⟩)

/-- The copy and the callback. -/
theorem deliverHead (h : BoundsInv mem (s, received)) {i head : ℕ}
    (hi : s.workers[i]? = some (.popped head)) (hstep : s.deliverHead mem i head = .ok s') :
    BoundsInv mem (s', received) := by
  have hqueue : s'.Holds (Function.update (fun _ => 0) head 0) _ _ _ :=
    deliverHead_chunks h.queue hi hstep
  obtain ⟨-, v, callback, -, -, -, rfl⟩ := deliverHead_ok hstep
  refine ⟨hqueue.inv, h.filled, h.incoming, h.started, h.found, fun head' hhead' => ?_⟩
  rcases mem_inHand_set hhead' with hhead' | hpopped
  · exact h.summed head' hhead'
  · cases hpopped

/-- The varray called back is freed. -/
theorem freeHead (h : BoundsInv mem (s, received)) {i head : ℕ}
    (hi : s.workers[i]? = some (.delivered head)) :
    BoundsInv mem (s.freeHead i head, received) := by
  have hheld : head ∈ s.held ++ s.workQueue :=
    List.mem_append_left _ (List.mem_filterMap.mpr ⟨_, List.mem_of_getElem? hi, rfl⟩)
  obtain ⟨v, hv⟩ := h.queue.live head hheld
  have hqueue : (s.freeHead i head).Holds (fun _ => v.data.length) _ _ _ :=
    freeHead_chunks h.queue hi hv (List.getElem?_eq_none (le_refl _))
  -- what is live after it was live before
  have hlive : ∀ now w, (s.freeHead i head).heap now = some w → s.heap now = some w := by
    intro now w hw
    simp only [WorkState.freeHead] at hw
    by_cases hnow : now = head
    · subst hnow
      rw [Function.update_self] at hw
      cases hw
    · rwa [Function.update_of_ne hnow] at hw
  refine ⟨hqueue.inv, fun now w hw => h.filled now w (hlive now w hw), h.incoming, h.started,
    h.found, fun head' hhead' w hw => ?_⟩
  rcases mem_inHand_set hhead' with hhead' | hpopped
  · exact h.summed head' hhead' w (hlive head' w hw)
  · cases hpopped

/-- **One step** that is guarded preserves the invariant. -/
theorem step (h : BoundsInv mem (s, received)) {a : WorkAct χ} (hfits : ByteLenFits a)
    (hguarded : Guarded mem s a) (hstep : workQueueStep mem s a = some (.ok s')) :
    BoundsInv mem (s', noteReceived s a received) := by
  cases a with
  | recv byteLen chunk =>
    simp only [workQueueStep] at hstep
    split at hstep
    · exact h.lookup hfits hguarded (Option.some.inj hstep)
    · cases hstep
  | handler =>
    simp only [workQueueStep, handlerStep] at hstep
    split at hstep
    · cases hstep
    · exact h.pushNew ‹_› (Option.some.inj hstep)
    · exact h.appendFound ‹_› (Option.some.inj hstep)
    · exact h.wakeSection ‹_› (Option.some.inj hstep)
  | startItem =>
    simp only [workQueueStep] at hstep
    split at hstep <;> cases hstep
    have hqueue : s.startItem.Holds (fun _ => 0) _ _ _ := startItem_chunks h.queue
    refine ⟨hqueue.inv, h.filled, h.incoming, h.started, h.found, fun head hhead => ?_⟩
    exact h.summed head (by simpa [WorkState.startItem, inHand, WorkerPc.popped?] using hhead)
  | worker i =>
    simp only [workQueueStep, workerStep] at hstep
    split at hstep
    · cases hstep
    · exact h.headSection ‹_› hguarded (Option.some.inj hstep)
    · exact h.deliverHead ‹_› (Option.some.inj hstep)
    · cases hstep
      exact h.freeHead ‹_›

/-! ### What the invariant gives -/

/-- The varrays on the queue are live. -/
theorem queued_live (h : BoundsInv mem (s, received)) :
    ∀ now ∈ s.workQueue, ∃ v, s.heap now = some v :=
  fun now hnow => h.queue.live now (List.mem_append_right _ hnow)

/-- A varray popped and not called back is live, and what is copied from it is inside. -/
theorem copies (h : BoundsInv mem (s, received)) {head : ℕ} (hhead : head ∈ s.inHand) :
    ∃ v, s.heap head = some v ∧ v.data ≠ [] ∧ CopiesInside mem received v := by
  obtain ⟨v, hv⟩ := h.queue.live head (List.mem_append_left _ (mem_held_of_inHand hhead))
  have hfilled := h.filled head v hv
  exact ⟨v, hv, hfilled.ne_nil, copiesInside_of_fits hfilled.chunks (h.summed head hhead v hv)⟩

/-- **No step goes outside**: where `handle_thread` stores a chunk there is an entry for it, the
varrays that the threads go to are live, and there is an array for what is copied. -/
theorem staysInside (h : BoundsInv mem (s, received)) (a : WorkAct χ) : StaysInside mem s a := by
  intro e herr
  cases a with
  | recv byteLen chunk =>
    simp only [workQueueStep, lookupSection] at herr
    split at herr
    · split at herr <;> cases herr
      exact .inl rfl
    · cases herr
  | handler =>
    simp only [workQueueStep, handlerStep] at herr
    split at herr
    · cases herr
    · rename_i chunk hhandler
      have hpos : 0 < (mem chunk).header.chunkNum.toNat :=
        Nat.pos_of_ne_zero fun hzero => h.started chunk hhandler (UInt32.toNat_inj.mp hzero)
      obtain ⟨s', hok⟩ := pushNew_of_pos s hpos
      simp [hok] at herr
    · rename_i chunk now hhandler
      have hqueued := h.found chunk now hhandler
      obtain ⟨v, hv⟩ := h.queued_live now hqueued
      exact .inl (appendFound_error hqueued hv (Option.some.inj herr))
    · obtain ⟨s', hok⟩ := wakeSection_of_live h.queued_live
      simp [hok] at herr
  | startItem =>
    simp only [workQueueStep] at herr
    split at herr <;> cases herr
  | worker i =>
    simp only [workQueueStep, workerStep] at herr
    split at herr
    · cases herr
    · obtain ⟨s', hok⟩ := headSection_of_live i h.queued_live
      simp [hok] at herr
    · rename_i head hi
      obtain ⟨v, hv, hne, hcopies⟩ :=
        h.copies (List.mem_filterMap.mpr ⟨_, List.mem_of_getElem? hi, rfl⟩)
      exact deliverHead_error hv hne hcopies (Option.some.inj herr)
    · cases herr

/-- The state is as asked. -/
theorem contained (h : BoundsInv mem (s, received)) : Contained mem (s, received) where
  len_le now hnow := by
    obtain ⟨v, hv⟩ := h.queued_live now hnow
    exact ⟨v, hv, (h.filled now v hv).len_le⟩
  copies head hhead := by
    obtain ⟨v, hv, -, hcopies⟩ := h.copies hhead
    exact ⟨v, hv, hcopies⟩

/-- **A varray needs an entry.** After a frame with a `chunk_num` of 0 that is to start a varray,
the next step of `handle_thread` writes outside. -/
theorem leaves_of_chunkNum {byteLen : UInt32} {chunk : χ}
    (hnone : s.findCustom (mem chunk).header.dataId = none)
    (hzero : (mem chunk).header.chunkNum = 0)
    (hstep : workQueueStep mem s (.recv byteLen chunk) = some (.ok s')) :
    ¬ StaysInside mem s' .handler := by
  intro hinside
  simp only [workQueueStep] at hstep
  split at hstep
  · obtain ⟨-, rfl⟩ := lookupSection_ok (Option.some.inj hstep)
    have hfault := hinside .outOfBounds (by
      simp only [workQueueStep, handlerStep, hnone]
      rw [pushNew_of_zero _ hzero])
    rcases hfault with h | h <;> cases h
  · cases hstep

/-- **A varray found is not to be popped.** After it was, the next step of `handle_thread` goes to
freed memory. -/
theorem leaves_of_popped (h : BoundsInv mem (s, received)) {i head : ℕ} {rest : List ℕ}
    {v : Varray χ} {chunk : χ} (hi : s.workers[i]? = some .top) (hq : s.workQueue = head :: rest)
    (hv : s.heap head = some v) (hcomplete : v.Complete)
    (hfound : s.handler = .found chunk (some head))
    (hstep : workQueueStep mem s (.worker i) = some (.ok s')) : ¬ StaysInside mem s' .handler := by
  intro hinside
  simp only [workQueueStep, workerStep, hi] at hstep
  obtain ⟨head', rest', v', hq', -, -, rfl⟩ | ⟨hincomplete, -⟩ :=
    headSection_ok (Option.some.inj hstep)
  · -- Queued varrays are distinct, so the one popped is not behind the head as well.
    have hdistinct : (head' :: rest').Nodup := hq' ▸ (List.nodup_append.mp h.queue.distinct).2.1
    obtain rfl : head' = head := (List.cons.inj (hq'.symm.trans hq)).1
    have hfault := hinside .useAfterFree (by
      simp only [workQueueStep, handlerStep, hfound]
      rw [WorkState.appendFound, if_pos (List.nodup_cons.mp hdistinct).1]
      rfl)
    rcases hfault with h | h <;> cases h
  · exact hincomplete ⟨head, rest, v, hq, hv, hcomplete⟩

/-- The empty state. -/
theorem start : BoundsInv mem ((.start : WorkState χ), []) := by
  refine ⟨.start, ?_, ?_, ?_, ?_, ?_⟩ <;>
    simp [WorkState.start, WorkState.incoming, HandlerPc.chunks, inHand]

end BoundsInv

/-- **The lengths are to add up to an `int`.** Where they add up to a negative one, and the
assertions pass, the worker that has popped the varray goes to NULL: there is no array. A message of
one frame that is shorter than its header is such a varray, by `negative_of_short`. -/
theorem leaves_of_negative {mem : χ → RdmaChunk} {s : WorkState χ} {i head : ℕ} {v : Varray χ}
    {first : χ} {data : List χ} {dataLen : UInt32} (hi : s.workers[i]? = some (.popped head))
    (hup : s.isWorkRunning = 1) (hv : s.heap head = some v) (hcomplete : v.Complete)
    (hdata : v.data = first :: data) (hsum : sumChunkLen mem v.dataId 0 v.data = .ok dataLen)
    (hlen : (mem first).header.dataLen = dataLen) (hnegative : dataLen.toInt32.toInt < 0) :
    ¬ StaysInside mem s (.worker i) := by
  intro hinside
  have hfault := hinside .nullDeref (by
    simp only [workQueueStep, workerStep, hi, deliverHead, hup, ne_eq, not_true_eq_false, if_false,
      deref, hv, ok_bind, hcomplete, deliver_of_negative hdata hsum hlen hnegative, error_bind])
  rcases hfault with h | h <;> cases h

/-- **The reassembler stays inside its buffers**, whatever frames arrive, in every run whose steps
are all guarded: every chunk is stored at an index its varray was allocated for, no queued varray
has more chunks than that, the copies of a delivery are inside the bodies of received chunks and
inside the array, which is there, and no step ends but in an abort or at an assertion. -/
theorem contained_of_guarded (mem : χ → RdmaChunk) {s : WorkState χ × List χ}
    (hs : (workQueueReceived mem).ReachableUnder
      (fun s a => ByteLenFits a ∧ Guarded mem s.1 a) s) :
    Contained mem s ∧ ∀ a, StaysInside mem s.1 a := by
  have hinv : BoundsInv mem s := by
    induction hs with
    | init => exact .start
    | next _ hP hrecorded ih =>
      obtain ⟨s', hstep, rfl⟩ := map_map_eq_ok.mp hrecorded
      exact ih.step hP.1 hP.2 hstep
  exact ⟨hinv.contained, hinv.staysInside⟩

/-- A frame of 31 bytes, whose varray is popped by a worker. -/
theorem contained_of_guarded_popped :
    let mem : Unit → RdmaChunk := fun _ =>
      { RdmaChunk.blank with header.chunkNum := 1, header.chunkLen := 10, header.dataLen := 10 }
    ∃ s : WorkState Unit × List Unit,
      s.1.inHand = [0] ∧ s.2 = [()] ∧ Contained mem s ∧ ∀ a, StaysInside mem s.1 a := by
  intro mem
  let P : WorkState Unit × List Unit → WorkAct Unit → Prop :=
    fun s a => ByteLenFits a ∧ Guarded mem s.1 a
  have hs := Machine.ReachableUnder.init (M := workQueueReceived mem) (P := P)
  have hlength : (mem ()).header.chunkLen + rdmaHeaderSize = 31 := by decide
  have hs := hs.next (a := WorkAct.recv 31 ())
    ⟨show (31 : UInt32) ≤ rdmaChunkSize by decide, show rdmaHeaderSize ≤ (31 : UInt32) by decide,
      fun _ => show (1 : UInt32) ≠ 0 by decide⟩
    (map_map_eq_ok.mpr ⟨_, congrArg some (if_neg (not_not.mpr hlength)), rfl⟩)
  have hs := hs.next (a := WorkAct.handler) ⟨trivial, trivial⟩ rfl
  have hs := hs.next (a := WorkAct.handler) ⟨trivial, trivial⟩ rfl
  have hs := hs.next (a := WorkAct.startItem) ⟨trivial, trivial⟩ rfl
  have hs := hs.next (a := WorkAct.worker 0) ⟨trivial, fun _ head rest v hq hv _ => by
    obtain ⟨rfl, rfl⟩ := List.cons.inj hq
    cases hv
    exact ⟨nofun, show 10 + 0 < 2 ^ 31 by decide⟩⟩ rfl
  exact ⟨_, rfl, rfl, contained_of_guarded mem hs⟩

end SparkRdma
