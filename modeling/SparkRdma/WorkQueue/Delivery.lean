import SparkRdma.Wire.Segmentation
import SparkRdma.WorkQueue.Reassembly

/-! # Delivering a reassembled message

What `work_thread` makes of a varray whose chunks carry all blocks of one message, in order: the
data ids agree, the chunk lengths add up to the message's length, and the Java array, filled piece
by piece, ends up as the message. A message of at most `2^31 - 1` bytes keeps every `int` of the way
non-negative. -/

namespace SparkRdma

open Interleaving Blocks

/-- A `uint32_t` below `2^31` is the same number as an `int`. -/
theorem toInt_toInt32_ofNat {n : ℕ} (h : n < 2 ^ 31) : (UInt32.ofNat n).toInt32.toInt = n := by
  have hn : (BitVec.ofNat 32 n).toNat = n := Nat.mod_eq_of_lt (by omega)
  change (BitVec.ofNat 32 n).toInt = n
  rw [BitVec.toInt_eq_toNat_of_lt (by omega), hn]

/-- The number of message bytes before block `i`. -/
def bytesBefore (msg : List UInt8) (i : ℕ) : ℕ := min (i * rdmaBodySize.toNat) msg.length

/-- One block further. -/
theorem bytesBefore_succ (msg : List UInt8) (i : ℕ) :
    bytesBefore msg (i + 1) = bytesBefore msg i + (block rdmaBodySize.toNat msg i).length := by
  simp only [bytesBefore, length_block, toNat_rdmaBodySize]
  omega

/-- The bytes before the next block are those before this one, and this one. -/
theorem take_bytesBefore_succ (msg : List UInt8) (i : ℕ) :
    msg.take (bytesBefore msg (i + 1))
      = msg.take (bytesBefore msg i) ++ block rdmaBodySize.toNat msg i := by
  have hdrop : msg.drop (bytesBefore msg i) = msg.drop (i * rdmaBodySize.toNat) := by
    by_cases h : i * rdmaBodySize.toNat ≤ msg.length
    · rw [show bytesBefore msg i = i * rdmaBodySize.toNat from min_eq_left h]
    · rw [show bytesBefore msg i = msg.length from min_eq_right (by omega), List.drop_length,
        List.drop_of_length_le (by omega)]
  rw [bytesBefore_succ, List.take_add, hdrop, take_length_block]

/-- Later blocks have no fewer bytes before them. -/
theorem bytesBefore_mono (msg : List UInt8) {i j : ℕ} (h : i ≤ j) :
    bytesBefore msg i ≤ bytesBefore msg j :=
  min_le_min_right _ (Nat.mul_le_mul_right _ h)

/-- All blocks together are the message. -/
theorem bytesBefore_blockCount (msg : List UInt8) :
    bytesBefore msg (blockCount rdmaBodySize.toNat msg.length) = msg.length := by
  have := le_blockCount_mul rdmaBodySize.toNat msg.length (by simp)
  simp only [bytesBefore]
  omega

/-- The first loop, from block `i` on, checks out and adds up the lengths of the blocks. -/
theorem sumChunkLen_ok {dataId : UInt32} {msg : List UInt8} (data : List RdmaChunk) :
    ∀ i, CarriesFrom dataId msg i data →
      sumChunkLen id dataId (UInt32.ofNat (bytesBefore msg i)) data
        = .ok (UInt32.ofNat (bytesBefore msg (i + data.length))) := by
  induction data with
  | nil => exact fun _ _ => rfl
  | cons chunk data ih =>
    rintro i ⟨⟨hheader, -⟩, hcarries⟩
    rw [sumChunkLen, id_eq, hheader, messageHeader, chunkHeader, if_pos rfl, ← UInt32.ofNat_add,
      ← bytesBefore_succ, ih (i + 1) hcarries, List.length_cons]
    congr 3
    omega

/-- A region that lies inside the array and inside the source. -/
theorem setByteArrayRegion_ok (a buf : List UInt8) {pos len : ℕ} (hpos : pos + len ≤ a.length)
    (hbuf : len ≤ buf.length) :
    setByteArrayRegion (some a) pos len buf
      = .ok (some (a.take pos ++ buf.take len ++ a.drop (pos + len))) := by
  rw [setByteArrayRegion, if_pos ⟨by omega, by omega, by omega⟩, if_pos (by omega)]
  rfl

/-- The second loop, from block `i` on, turns an array that starts with the first `i` blocks into
one that starts with all blocks the chunks carry. -/
theorem copyChunks_ok {dataId : UInt32} {msg : List UInt8} (hmsg : msg.length < 2 ^ 31)
    (data : List RdmaChunk) :
    ∀ i (rest : List UInt8), CarriesFrom dataId msg i data →
      bytesBefore msg i + rest.length = msg.length →
      copyChunks id (some (msg.take (bytesBefore msg i) ++ rest)) (UInt32.ofNat (bytesBefore msg i))
          data
        = .ok (some (msg.take (bytesBefore msg (i + data.length)) ++
            rest.drop (bytesBefore msg (i + data.length) - bytesBefore msg i))) := by
  induction data with
  | nil => exact fun _ _ _ _ => by simp [copyChunks]
  | cons chunk data ih =>
    rintro i rest ⟨⟨hheader, hbody⟩, hcarries⟩ hrest
    have hsucc := bytesBefore_succ msg i
    have hle : bytesBefore msg (i + 1) ≤ msg.length := min_le_right ..
    have hsmall := length_block_le rdmaBodySize.toNat msg i
    have hmono := bytesBefore_mono msg (Nat.le_add_right (i + 1) data.length)
    have hfront : (msg.take (bytesBefore msg i)).length = bytesBefore msg i := by
      rw [List.length_take]
      omega
    -- the region starts where the first `i` blocks end, and takes one block's worth of `rest`
    have hregion := setByteArrayRegion_ok (msg.take (bytesBefore msg i) ++ rest) chunk.body.bytes
      (show bytesBefore msg i + (block rdmaBodySize.toNat msg i).length ≤ _ by
        rw [List.length_append]; omega)
      (by rw [chunk.body.length_bytes]; omega)
    rw [List.take_left' hfront, hbody, ← take_bytesBefore_succ, ← List.drop_drop,
      List.drop_left' hfront] at hregion
    -- below `2^31` bytes neither conversion to `int` changes a number
    have hpos := toInt_toInt32_ofNat (n := bytesBefore msg i) (by omega)
    have hlen := toInt_toInt32_ofNat (n := (block rdmaBodySize.toNat msg i).length)
      (by rw [toNat_rdmaBodySize] at hsmall; omega)
    have hnext := ih (i + 1) (rest.drop (block rdmaBodySize.toNat msg i).length) hcarries
      (by rw [List.length_drop]; omega)
    rw [copyChunks, id_eq, hheader, messageHeader, chunkHeader, hpos, hlen, hregion, ok_bind,
      ← UInt32.ofNat_add, ← hsucc, hnext, List.drop_drop, List.length_cons,
      show i + (data.length + 1) = i + 1 + data.length by omega,
      show (block rdmaBodySize.toNat msg i).length + (bytesBefore msg (i + 1 + data.length) -
        bytesBefore msg (i + 1))
          = bytesBefore msg (i + 1 + data.length) - bytesBefore msg i by omega]

/-- **A complete varray is delivered as its message.** -/
theorem deliver_ok {dataId : UInt32} {msg : List UInt8} (hne : 0 < msg.length)
    (hmsg : msg.length < 2 ^ 31) {v : Varray RdmaChunk} (hcarries : CarriesFrom dataId msg 0 v.data)
    (hid : v.dataId = dataId)
    (hcomplete : v.data.length = blockCount rdmaBodySize.toNat msg.length) :
    deliver id v = .ok ⟨some msg, msg.length⟩ := by
  have hsum := sumChunkLen_ok v.data 0 hcarries
  have hcopy := copyChunks_ok hmsg v.data 0 (List.replicate msg.length 0) hcarries
    (by simp [bytesBefore])
  rw [zero_add, hcomplete, bytesBefore_blockCount] at hsum hcopy
  cases hdata : v.data with
  | nil =>
    -- a message that is not empty has a first chunk
    rw [hdata, List.length_nil] at hcomplete
    have := blockCount_pos (b := rdmaBodySize.toNat) (by simp) hne
    omega
  | cons first data =>
    rw [hdata] at hcarries hsum hcopy
    obtain ⟨⟨hheader, -⟩, -⟩ := hcarries
    have hlen := toInt_toInt32_ofNat hmsg
    have hzero : bytesBefore msg 0 = 0 := by simp [bytesBefore]
    have hfirst : (id first : RdmaChunk).header.dataLen = UInt32.ofNat msg.length := by
      rw [id_eq, hheader]
      rfl
    simp only [hzero, List.take_zero, List.nil_append, List.take_length, Nat.sub_zero,
      List.drop_replicate, Nat.sub_self, List.replicate_zero, List.append_nil,
      show UInt32.ofNat 0 = 0 from rfl] at hsum hcopy
    rw [deliver, hdata]
    simp only [hid, hsum, ok_bind, hfirst, hlen, jniAllocByteArray, if_true, Int.natCast_nonneg,
      Int.toNat_natCast, hcopy]
    rfl

end SparkRdma
