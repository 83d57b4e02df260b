import SparkRdma.WorkQueue.Delivery

/-! # The size of the Java array

A length is an `int` in Java, a `uint32_t` in the sender and on the wire, and an `int` again where
`work_thread` allocates the array and keeps its position in it. The sender takes a header and a body
whose lengths are non-negative `int`s each.

* **`SizeAgrees`** — what `work_thread` makes of the chunk lengths is the number of bytes sent, as
  an `int` too, and every region it copies lies in the array.
* **`size_wraps`** — a header of `2^31 - 1` bytes and a body of one are an array of negative size.
* **`sizeAgrees_iff`** — the exact condition is that the sum of the lengths is an `int`. -/

namespace SparkRdma

open Interleaving Blocks

section Regions

variable {χ : Type} (mem : χ → RdmaChunk)

/-- The `pos` and `len` of each call of `set_byte_array_region` in the second loop of `work_thread`,
from position `pos` on. -/
def regions : UInt32 → List χ → List (ℤ × ℤ)
  | _, [] => []
  | pos, chunk :: data =>
      (pos.toInt32.toInt, (mem chunk).header.chunkLen.toInt32.toInt)
        :: regions (pos + (mem chunk).header.chunkLen) data

/-- What `work_thread` computes of the chunks `data` of a message of `total` bytes: the sum of the
chunk lengths is `total`, also as the `int` that `jni_alloc_byte_array` gets, and each region lies
in an array of that size. -/
def SizeAgrees (total : ℕ) (dataId : UInt32) (data : List χ) : Prop :=
  ∃ dataLen, sumChunkLen mem dataId 0 data = .ok dataLen ∧ dataLen.toNat = total ∧
    dataLen.toInt32.toInt = total ∧
    ∀ region ∈ regions mem 0 data,
      0 ≤ region.1 ∧ region.1 + region.2 ≤ dataLen.toInt32.toInt

/-- An `int` is below `2^31`. -/
theorem SizeAgrees.lt {total : ℕ} {dataId : UInt32} {data : List χ}
    (h : SizeAgrees mem total dataId data) : total < 2 ^ 31 := by
  obtain ⟨dataLen, -, -, hint, -⟩ := h
  have := dataLen.toInt32.toInt_lt
  omega

end Regions

/-- The regions of the chunks of a message, from block `i` on, lie between the start and the end of
the message. -/
theorem regions_inside {dataId : UInt32} {msg : List UInt8} (hmsg : msg.length < 2 ^ 31)
    (data : List RdmaChunk) : ∀ i, CarriesFrom dataId msg i data →
      ∀ region ∈ regions id (UInt32.ofNat (bytesBefore msg i)) data,
        0 ≤ region.1 ∧ region.1 + region.2 ≤ msg.length := by
  induction data with
  | nil => exact fun _ _ region hregion => (List.not_mem_nil hregion).elim
  | cons chunk data ih =>
    rintro i ⟨⟨hheader, -⟩, hcarries⟩ region hregion
    have hsucc := bytesBefore_succ msg i
    have hle : bytesBefore msg (i + 1) ≤ msg.length := min_le_right ..
    rw [regions, id_eq, hheader, messageHeader, chunkHeader, ← UInt32.ofNat_add, ← hsucc] at hregion
    rcases List.mem_cons.mp hregion with rfl | hregion
    -- the first region ends where the bytes before the next block do
    · rw [toInt_toInt32_ofNat (by omega), toInt_toInt32_ofNat (by omega)]
      omega
    · exact ih (i + 1) hcarries region hregion

/-- What `work_thread` computes of the chunks of a message that is not too long. -/
theorem sizeAgrees_of_lt {dataId : UInt32} {msg : List UInt8} (hmsg : msg.length < 2 ^ 31)
    {data : List RdmaChunk} (hcarries : CarriesFrom dataId msg 0 data)
    (hcomplete : data.length = blockCount rdmaBodySize.toNat msg.length) :
    SizeAgrees id msg.length dataId data := by
  have hzero : bytesBefore msg 0 = 0 := by simp [bytesBefore]
  have hsum := sumChunkLen_ok data 0 hcarries
  have hinside := regions_inside hmsg data 0 hcarries
  rw [hzero] at hsum hinside
  rw [zero_add, hcomplete, bytesBefore_blockCount] at hsum
  have hint := toInt_toInt32_ofNat hmsg
  refine ⟨_, hsum, ?_, hint, ?_⟩
  · rw [UInt32.toNat_ofNat', Nat.mod_eq_of_lt (by omega)]
  · rw [hint]
    exact hinside

/-- **The size wraps.** A header of `2^31 - 1` bytes and a body of one are sent, whatever chunks
they pass through on either side; they make an array of size `-2^31`. -/
theorem size_wraps : ¬ ∀ (header body : CBuffer), header.bytes.length < 2 ^ 31 →
    body.bytes.length < 2 ^ 31 → 1 ≤ header.bytes.length + body.bytes.length →
    ∀ (dataId : UInt32) (chain old : List RdmaChunk) (frames : List Frame),
      chain.length = (SendCall.sendMsgWithHeader header body).chunkNum.toNat →
      (SendCall.sendMsgWithHeader header body).frames dataId chain = .ok frames →
      old.length = frames.length →
      SizeAgrees id (header.bytes.length + body.bytes.length) dataId
        (List.zipWith RdmaChunk.land old frames) := by
  intro h
  -- the buffers are given by their lengths alone, so that nothing of this size is evaluated
  obtain ⟨header, hheader⟩ : ∃ header : CBuffer, header.bytes.length = 2 ^ 31 - 1 :=
    ⟨⟨List.replicate (2 ^ 31 - 1) 0, by rw [List.length_replicate]; omega⟩, List.length_replicate⟩
  obtain ⟨body, hbody⟩ : ∃ body : CBuffer, body.bytes.length = 1 := ⟨⟨[0], by decide⟩, rfl⟩
  have hbytes : (SendCall.sendMsgWithHeader header body).bytes.length < 2 ^ 32 := by
    rw [SendCall.bytes, List.length_append, hheader, hbody]
    omega
  have hframes := SendCall.frames_eq hbytes 0 (List.length_replicate (a := RdmaChunk.blank))
  have hagree := h header body (by omega) (by omega) (by omega) 0 _ (List.replicate _ .blank) _
    List.length_replicate hframes List.length_replicate
  have hlt := hagree.lt
  omega

/-- **The exact condition.** For a header and a body whose lengths are non-negative `int`s, what
`work_thread` computes of the chunks their frames have landed in agrees with what was sent, if and
only if the lengths add up to at most `2^31 - 1`. -/
theorem sizeAgrees_iff (header body : CBuffer) (hheader : header.bytes.length < 2 ^ 31)
    (hbody : body.bytes.length < 2 ^ 31) (dataId : UInt32) {chain old : List RdmaChunk}
    {frames : List Frame}
    (hchain : chain.length = (SendCall.sendMsgWithHeader header body).chunkNum.toNat)
    (hframes : (SendCall.sendMsgWithHeader header body).frames dataId chain = .ok frames)
    (hold : old.length = frames.length) :
    SizeAgrees id (header.bytes.length + body.bytes.length) dataId
        (List.zipWith RdmaChunk.land old frames)
      ↔ header.bytes.length + body.bytes.length ≤ 2 ^ 31 - 1 := by
  have hlength : (header.bytes ++ body.bytes).length
      = header.bytes.length + body.bytes.length := List.length_append
  have hbytes : (SendCall.sendMsgWithHeader header body).bytes.length < 2 ^ 32 := by
    rw [SendCall.bytes, hlength]
    omega
  constructor
  · intro hagree
    have := hagree.lt
    omega
  · intro hle
    obtain rfl := Except.ok.inj (hframes.symm.trans (SendCall.frames_eq hbytes dataId hchain))
    have hcount : old.length
        = blockCount rdmaBodySize.toNat (header.bytes ++ body.bytes).length := by
      rw [hold, messageFrames, List.length_map, List.length_range]
      rfl
    have hcarries := carriesFrom_land dataId (header.bytes ++ body.bytes) old 0
    rw [hcount, ← List.range_eq_range'] at hcarries
    rw [← hlength]
    refine sizeAgrees_of_lt (by omega) hcarries ?_
    rw [List.length_zipWith, ← hold, min_self, hcount]

/-- A header and a body of one byte each. -/
theorem sizeAgrees_iff_twoBytes :
    SizeAgrees id 2 0 (List.zipWith RdmaChunk.land [.blank] (messageFrames 0 [1, 2])) := by
  have hone : [RdmaChunk.blank].length = (1 : UInt32).toNat := rfl
  have hchain := hone.trans (show (1 : UInt32).toNat
    = (SendCall.sendMsgWithHeader ⟨[1], by decide⟩ ⟨[2], by decide⟩).chunkNum.toNat by decide)
  exact (sizeAgrees_iff ⟨[1], by decide⟩ ⟨[2], by decide⟩ (by decide) (by decide) 0 hchain
    (SendCall.frames_eq (by decide) 0 hchain) rfl).mpr (by decide)

end SparkRdma
