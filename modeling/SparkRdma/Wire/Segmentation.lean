import SparkRdma.Foundations.Blocks
import SparkRdma.Wire.Layout

/-! # Cutting a message into frames

The sending half: `send_msg` and `send_msg_with_header` take as many chunks as the message needs,
fill them (`copy_msg_to_rdma`, `copy_header_and_body_to_rdma`) and post them one by one
(`rdma_send_msg`). Filling and posting recompute the chunk lengths in loops of their own.

* **`SendCall.frames`** — the frames one call posts, in posting order, from the code's loops.
* **`messageFrames`** — what they should be: the message in blocks of `RDMA_BODY_SIZE`, each under
  a header that says which block of how many it is.
* **`SendCall.frames_eq`** — for every call the 32-bit length does not wrap on, they are. -/

namespace SparkRdma

open Interleaving Blocks

/-! ### The code -/

/-- A buffer passed as a pointer and a `uint32_t` length. -/
structure CBuffer where
  /-- The bytes the pointer and the length delimit. -/
  bytes : List UInt8
  /-- The length fits its type. -/
  length_lt : bytes.length < 2 ^ 32

/-- The length argument that goes with the buffer. -/
def CBuffer.len (buf : CBuffer) : UInt32 := UInt32.ofNat buf.bytes.length

@[simp] theorem CBuffer.toNat_len (buf : CBuffer) : buf.len.toNat = buf.bytes.length := by
  simpa [CBuffer.len] using Nat.mod_eq_of_lt buf.length_lt

/-- `chunk_num` of a message of `len` bytes. -/
def chunkNumOf (len : UInt32) : UInt32 :=
  len / rdmaBodySize + (if len % rdmaBodySize = 0 then 0 else 1)

/-- `copy_len` when `nowLen` bytes are left. -/
def copyLenOf (nowLen : UInt32) : UInt32 :=
  if nowLen > rdmaBodySize then rdmaBodySize else nowLen

/-- The header the copy loops write into chunk `i`. -/
def chunkHeader (dataId chunkNum len i copyLen : UInt32) : ChunkHeader where
  flags := 0
  chunkId := i
  chunkLen := copyLen
  chunkNum := chunkNum
  dataId := dataId
  dataLen := len

/-- The loop that spreads the chain from the pool over `chunk_array->data`, with the
`GPR_ASSERT(chunk==NULL)` behind it. -/
def chunkArray {χ : Type*} : ℕ → List χ → Except CFault (List χ)
  | 0, [] => .ok []
  | 0, _ :: _ => .error .assertion
  | _ + 1, [] => .error .nullDeref
  | num + 1, chunk :: chain => do
      let data ← chunkArray num chain
      return chunk :: data

/-- The loop of `copy_msg_to_rdma` from turn `i` on: `now` lists the bytes from the pointer `now`
to the end of the message. -/
def copyMsgToRdma (dataId chunkNum len : UInt32) :
    UInt32 → List RdmaChunk → List UInt8 → UInt32 → Except CFault (List RdmaChunk)
  | _, [], _, _ => .ok []
  | i, chunk :: data, now, nowLen => do
      let copyLen := copyLenOf nowLen
      let body ← chunk.body.memcpy 0 now copyLen.toNat
      let filled ← copyMsgToRdma dataId chunkNum len (i + 1) data (now.drop copyLen.toNat)
        (nowLen - rdmaBodySize)
      return ⟨chunkHeader dataId chunkNum len i copyLen, body⟩ :: filled

/-- The loop of `copy_header_and_body_to_rdma` from turn `i` on: `now` lists the bytes from the
pointer `now` to the end of the object it points into, the header while `isHeader` is set. -/
def copyHeaderAndBodyToRdma (dataId chunkNum len : UInt32) (bodyBytes : List UInt8) :
    UInt32 → List RdmaChunk → Bool → UInt32 → List UInt8 → UInt32 →
      Except CFault (List RdmaChunk)
  | _, [], _, _, _, _ => .ok []
  | i, chunk :: data, isHeader, headLen, now, nowLen => do
      let copyLen := copyLenOf nowLen
      let header := chunkHeader dataId chunkNum len i copyLen
      if isHeader then
        if headLen < rdmaBodySize then
          let body ← chunk.body.memcpy 0 now headLen.toNat
          let body ← body.memcpy headLen.toNat bodyBytes (copyLen - headLen).toNat
          let filled ← copyHeaderAndBodyToRdma dataId chunkNum len bodyBytes (i + 1) data false
            headLen (bodyBytes.drop (copyLen - headLen).toNat) (nowLen - copyLen)
          return ⟨header, body⟩ :: filled
        else
          let body ← chunk.body.memcpy 0 now rdmaBodySize.toNat
          let filled ← copyHeaderAndBodyToRdma dataId chunkNum len bodyBytes (i + 1) data true
            (headLen - rdmaBodySize) (now.drop rdmaBodySize.toNat) (nowLen - copyLen)
          return ⟨header, body⟩ :: filled
      else
        let body ← chunk.body.memcpy 0 now copyLen.toNat
        let filled ← copyHeaderAndBodyToRdma dataId chunkNum len bodyBytes (i + 1) data false
          headLen (now.drop copyLen.toNat) (nowLen - copyLen)
        return ⟨header, body⟩ :: filled

/-- The loop of `rdma_send_msg`: the chunk and the `len` of each work request, in posting order. -/
def rdmaSendMsg {χ : Type*} : List χ → UInt32 → List (χ × UInt32)
  | [], _ => []
  | chunk :: data, len => (chunk, copyLenOf len) :: rdmaSendMsg data (len - rdmaBodySize)

/-- A call of one of the two send functions, with its buffers. -/
inductive SendCall
  /-- `send_msg`. -/
  | sendMsg (msg : CBuffer)
  /-- `send_msg_with_header`. -/
  | sendMsgWithHeader (header body : CBuffer)

namespace SendCall

/-- The bytes the caller hands over. -/
def bytes : SendCall → List UInt8
  | sendMsg msg => msg.bytes
  | sendMsgWithHeader header body => header.bytes ++ body.bytes

/-- `len`: the sum of the two lengths is taken modulo `2^32`. -/
def len : SendCall → UInt32
  | sendMsg msg => msg.len
  | sendMsgWithHeader header body => header.len + body.len

/-- `chunk_num`: the number of chunks the call asks the pool for. -/
def chunkNum (call : SendCall) : UInt32 := chunkNumOf call.len

/-- The copy loop of the call over its chunk array. -/
def copyToRdma (call : SendCall) (dataId : UInt32) (data : List RdmaChunk) :
    Except CFault (List RdmaChunk) :=
  match call with
  | sendMsg msg => copyMsgToRdma dataId call.chunkNum call.len 0 data msg.bytes call.len
  | sendMsgWithHeader header body =>
      copyHeaderAndBodyToRdma dataId call.chunkNum call.len body.bytes 0 data true header.len
        header.bytes call.len

/-- The frames a call posts, in order, under the data id it drew and over the chain of chunks it got
from the pool. -/
def frames (call : SendCall) (dataId : UInt32) (chain : List RdmaChunk) :
    Except CFault (List Frame) := do
  let data ← chunkArray call.chunkNum.toNat chain
  let filled ← call.copyToRdma dataId data
  return (rdmaSendMsg filled call.len).map fun wc => wc.1.post wc.2

end SendCall

/-! ### The specification -/

/-- The header of block `i` of a message. -/
def messageHeader (dataId : UInt32) (msg : List UInt8) (i : ℕ) : ChunkHeader :=
  chunkHeader dataId (UInt32.ofNat (blockCount rdmaBodySize.toNat msg.length))
    (UInt32.ofNat msg.length) (UInt32.ofNat i)
    (UInt32.ofNat (block rdmaBodySize.toNat msg i).length)

/-- The frame of block `i` of a message. -/
def messageFrame (dataId : UInt32) (msg : List UInt8) (i : ℕ) : Frame where
  header := messageHeader dataId msg i
  payload := block rdmaBodySize.toNat msg i
  length_payload := length_block_le ..
  byteLen := UInt32.ofNat (block rdmaBodySize.toNat msg i).length + rdmaHeaderSize

/-- The frames of a message: one for each block of `RDMA_BODY_SIZE` bytes. -/
def messageFrames (dataId : UInt32) (msg : List UInt8) : List Frame :=
  (List.range (blockCount rdmaBodySize.toNat msg.length)).map (messageFrame dataId msg)

/-- A chunk that holds block `i` of a message under its header. -/
def Carries (dataId : UInt32) (msg : List UInt8) (i : ℕ) (chunk : RdmaChunk) : Prop :=
  chunk.header = messageHeader dataId msg i ∧
    chunk.body.bytes.take (block rdmaBodySize.toNat msg i).length = block rdmaBodySize.toNat msg i

/-- Consecutive chunks that hold the blocks of a message from block `i` on. -/
def CarriesFrom (dataId : UInt32) (msg : List UInt8) : ℕ → List RdmaChunk → Prop
  | _, [] => True
  | i, chunk :: data => Carries dataId msg i chunk ∧ CarriesFrom dataId msg (i + 1) data

/-- The chunk a block's frame has landed in carries that block. -/
theorem carries_land (dataId : UInt32) (msg : List UInt8) (i : ℕ) (old : RdmaChunk) :
    Carries dataId msg i (old.land (messageFrame dataId msg i)) :=
  ⟨rfl, RdmaChunk.take_body_land old (messageFrame dataId msg i)⟩

/-- The chunks the frames of a message have landed in, from block `i` on, carry its blocks. -/
theorem carriesFrom_land (dataId : UInt32) (msg : List UInt8) (old : List RdmaChunk) :
    ∀ i, CarriesFrom dataId msg i (List.zipWith RdmaChunk.land old
      ((List.range' i old.length).map (messageFrame dataId msg))) := by
  induction old with
  | nil => exact fun _ => trivial
  | cons chunk old ih => exact fun i => ⟨carries_land dataId msg i chunk, ih (i + 1)⟩

/-! ### The arithmetic of the loops -/

/-- `copy_len` is the smaller of the body size and what is left. -/
theorem toNat_copyLenOf (nowLen : UInt32) :
    (copyLenOf nowLen).toNat = min rdmaBodySize.toNat nowLen.toNat := by
  unfold copyLenOf
  split
  · rename_i h
    have := UInt32.lt_iff_toNat_lt.mp h
    omega
  · rename_i h
    have := mt UInt32.lt_iff_toNat_lt.mpr h
    omega

/-- A chunk never has more than its body. -/
theorem copyLenOf_le (nowLen : UInt32) : (copyLenOf nowLen).toNat ≤ rdmaBodySize.toNat := by
  rw [toNat_copyLenOf]
  exact min_le_left _ _

/-- `chunk_num` counts the blocks of the message. -/
theorem toNat_chunkNumOf (len : UInt32) :
    (chunkNumOf len).toNat = blockCount rdmaBodySize.toNat len.toNat := by
  have hlt := len.toNat_lt
  have hmod : len % rdmaBodySize = 0 ↔ len.toNat % 65515 = 0 := by
    rw [← UInt32.toNat_inj, UInt32.toNat_mod, toNat_rdmaBodySize]
    rfl
  rw [chunkNumOf, blockCount, UInt32.toNat_add, UInt32.toNat_div, toNat_rdmaBodySize]
  by_cases h : len.toNat % 65515 = 0
  · rw [if_pos h, if_pos (hmod.mpr h), UInt32.toNat_zero]
    omega
  · rw [if_neg h, if_neg (mt hmod.mp h), UInt32.toNat_one]
    omega

/-- With `nowLen` bytes left from block `i` on, `copy_len` is the length of block `i`. -/
theorem toNat_copyLenOf_block {msg : List UInt8} {i : ℕ} {nowLen : UInt32}
    (hlen : nowLen.toNat = msg.length - i * rdmaBodySize.toNat) :
    (copyLenOf nowLen).toNat = (block rdmaBodySize.toNat msg i).length := by
  rw [toNat_copyLenOf, hlen, length_block]

/-- Subtracting a whole body leaves the length from the next block on, while there is one. -/
theorem toNat_sub_body {msg : List UInt8} {i : ℕ} {nowLen : UInt32}
    (hlen : nowLen.toNat = msg.length - i * rdmaBodySize.toNat)
    (hnext : (i + 1) * rdmaBodySize.toNat < msg.length) :
    (nowLen - rdmaBodySize).toNat = msg.length - (i + 1) * rdmaBodySize.toNat := by
  simp only [toNat_rdmaBodySize] at *
  have hle : rdmaBodySize ≤ nowLen := by
    rw [UInt32.le_iff_toNat_le, toNat_rdmaBodySize]
    omega
  rw [UInt32.toNat_sub_of_le _ _ hle, hlen, toNat_rdmaBodySize]
  omega

/-- The header the loops write over block `i` is the one of the specification. -/
theorem chunkHeader_eq {dataId nowLen : UInt32} {msg : List UInt8} {i : ℕ}
    (hlen : nowLen.toNat = msg.length - i * rdmaBodySize.toNat) :
    chunkHeader dataId (UInt32.ofNat (blockCount rdmaBodySize.toNat msg.length))
      (UInt32.ofNat msg.length) (UInt32.ofNat i) (copyLenOf nowLen)
      = messageHeader dataId msg i := by
  rw [messageHeader, ← toNat_copyLenOf_block hlen, UInt32.ofNat_toNat]

/-! ### The loops meet the specification -/

/-- A copy of `n` bytes to the front of a body. -/
theorem Body.memcpy_front (body : Body) (src : List UInt8) {n : ℕ} (hn : n ≤ rdmaBodySize.toNat)
    (hsrc : n ≤ src.length) :
    ∃ body', body.memcpy 0 src n = .ok body' ∧ body'.bytes.take n = src.take n := by
  obtain ⟨body', hok, hbytes⟩ := Body.memcpy_ok body 0 src n (by omega) hsrc
  refine ⟨body', hok, ?_⟩
  rw [hbytes, List.take_zero, List.nil_append]
  apply List.take_left'
  rw [List.length_take, min_eq_left hsrc]

/-- What is left of the message after a turn of a copy loop that is not its last. -/
theorem more_blocks {msg : List UInt8} {i : ℕ} {data : List RdmaChunk} (hdata : data ≠ [])
    (hcount : i + data.length = blockCount rdmaBodySize.toNat msg.length) :
    i * rdmaBodySize.toNat < msg.length := by
  have := List.length_pos_iff.mpr hdata
  exact mul_lt_of_lt_blockCount (by simp) (by omega)

/-- **`copy_msg_to_rdma` from block `i` on.** Every turn copies the next block under its header, and
no access leaves the message or the chunk. The length left need not be right once no chunk is. -/
theorem copyMsgToRdma_ok (dataId : UInt32) (msg : List UInt8) (data : List RdmaChunk) :
    ∀ (i : ℕ) (nowLen : UInt32), i + data.length = blockCount rdmaBodySize.toNat msg.length →
      (data ≠ [] → nowLen.toNat = msg.length - i * rdmaBodySize.toNat) →
      ∃ filled, copyMsgToRdma dataId (UInt32.ofNat (blockCount rdmaBodySize.toNat msg.length))
          (UInt32.ofNat msg.length) (UInt32.ofNat i) data (msg.drop (i * rdmaBodySize.toNat)) nowLen
            = .ok filled ∧
        filled.length = data.length ∧ CarriesFrom dataId msg i filled := by
  induction data with
  | nil => exact fun i nowLen _ _ => ⟨[], rfl, rfl, trivial⟩
  | cons chunk data ih =>
    intro i nowLen hcount hlen
    have hlen := hlen (List.cons_ne_nil _ _)
    have hcopy := toNat_copyLenOf_block hlen
    have hcount' : i + 1 + data.length = blockCount rdmaBodySize.toNat msg.length := by
      rw [← hcount, List.length_cons]
      omega
    have hsrc : (copyLenOf nowLen).toNat ≤ (msg.drop (i * rdmaBodySize.toNat)).length := by
      rw [toNat_copyLenOf, hlen, List.length_drop]
      exact min_le_right _ _
    -- This turn copies block `i`, the turns behind it the other ones.
    obtain ⟨body, hbody, htake⟩ := Body.memcpy_front chunk.body _ (copyLenOf_le nowLen) hsrc
    rw [hcopy, take_length_block] at htake
    obtain ⟨filled, hfilled, hlength, hcarries⟩ := ih (i + 1) (nowLen - rdmaBodySize) hcount'
      fun hdata => toNat_sub_body hlen (more_blocks hdata hcount')
    rw [← drop_length_block, ← hcopy, UInt32.ofNat_add] at hfilled
    refine ⟨⟨messageHeader dataId msg i, body⟩ :: filled, ?_, by simp [hlength], ⟨rfl, htake⟩,
      hcarries⟩
    rw [copyMsgToRdma]
    simp only [hbody, chunkHeader_eq hlen, ok_bind]
    rw [show UInt32.ofNat i + 1 = UInt32.ofNat i + UInt32.ofNat 1 from rfl, hfilled]
    rfl

/-- The bytes a header-and-body copy still has to place: the rest of the header and the whole body
while `isHeader` is set, the rest of the body afterwards. -/
def pendingBytes (bodyBytes : List UInt8) (isHeader : Bool) (now : List UInt8) : List UInt8 :=
  if isHeader then now ++ bodyBytes else now

/-- A block whose front is the rest of the header and whose back is the start of the body. -/
theorem Body.memcpy_split (body : Body) (now bodyBytes : List UInt8) (c : ℕ)
    (hnow : now.length ≤ c) (hc : c ≤ rdmaBodySize.toNat)
    (hsrc : c ≤ now.length + bodyBytes.length) :
    ∃ body₁ body₂, body.memcpy 0 now now.length = .ok body₁ ∧
      body₁.memcpy now.length bodyBytes (c - now.length) = .ok body₂ ∧
      body₂.bytes.take c = (now ++ bodyBytes).take c := by
  obtain ⟨body₁, hok₁, hbytes₁⟩ := Body.memcpy_ok body 0 now now.length (by omega) le_rfl
  obtain ⟨body₂, hok₂, hbytes₂⟩ := Body.memcpy_ok body₁ now.length bodyBytes (c - now.length)
    (by omega) (by omega)
  refine ⟨body₁, body₂, hok₁, hok₂, ?_⟩
  have hfront : body₁.bytes.take now.length = now := by
    rw [hbytes₁, List.take_zero, List.nil_append, List.take_length, List.take_left' rfl]
  have hwhole : (now ++ bodyBytes).take c = now ++ bodyBytes.take (c - now.length) := by
    rw [List.take_append, List.take_of_length_le hnow]
  rw [hbytes₂, hfront, hwhole]
  apply List.take_left'
  rw [List.length_append, List.length_take]
  omega

/-- Subtracting `copy_len` leaves the length from the next block on, whether there is one or not. -/
theorem toNat_sub_copyLenOf {msg : List UInt8} {i : ℕ} {nowLen : UInt32}
    (hlen : nowLen.toNat = msg.length - i * rdmaBodySize.toNat) :
    (nowLen - copyLenOf nowLen).toNat = msg.length - (i + 1) * rdmaBodySize.toNat := by
  have hcopy := toNat_copyLenOf nowLen
  have hle : copyLenOf nowLen ≤ nowLen := by
    rw [UInt32.le_iff_toNat_le]
    omega
  rw [UInt32.toNat_sub_of_le _ _ hle, hcopy, hlen, toNat_rdmaBodySize]
  omega

/-- **One turn** of the loop of `copy_header_and_body_to_rdma` fills its chunk with the front of the
bytes still to be placed, and goes on with the rest of them. -/
theorem copyHeaderAndBodyToRdma_cons (dataId chunkNum len : UInt32) (bodyBytes : List UInt8)
    (i : UInt32) (chunk : RdmaChunk) {isHeader : Bool} {headLen nowLen : UInt32} {now : List UInt8}
    (hhead : isHeader → headLen.toNat = now.length)
    (hleft : (pendingBytes bodyBytes isHeader now).length = nowLen.toNat) :
    ∃ (body : Body) (isHeader' : Bool) (headLen' : UInt32) (now' : List UInt8),
      body.bytes.take (copyLenOf nowLen).toNat
          = (pendingBytes bodyBytes isHeader now).take (copyLenOf nowLen).toNat ∧
        (isHeader' → headLen'.toNat = now'.length) ∧
        pendingBytes bodyBytes isHeader' now'
          = (pendingBytes bodyBytes isHeader now).drop (copyLenOf nowLen).toNat ∧
        ∀ data, copyHeaderAndBodyToRdma dataId chunkNum len bodyBytes i (chunk :: data) isHeader
            headLen now nowLen = do
          let filled ← copyHeaderAndBodyToRdma dataId chunkNum len bodyBytes (i + 1) data isHeader'
            headLen' now' (nowLen - copyLenOf nowLen)
          return ⟨chunkHeader dataId chunkNum len i (copyLenOf nowLen), body⟩ :: filled := by
  have hcopy := toNat_copyLenOf nowLen
  have hle := copyLenOf_le nowLen
  cases isHeader with
  | false =>
    simp only [pendingBytes, Bool.false_eq_true, if_false] at hleft ⊢
    obtain ⟨body, hbody, htake⟩ := Body.memcpy_front chunk.body now hle (by omega)
    refine ⟨body, false, headLen, now.drop (copyLenOf nowLen).toNat, htake, by simp, rfl,
      fun data => ?_⟩
    rw [copyHeaderAndBodyToRdma]
    simp only [Bool.false_eq_true, if_false, hbody, ok_bind]
  | true =>
    have hhead := hhead rfl
    simp only [pendingBytes, if_true] at hleft ⊢
    rw [List.length_append] at hleft
    by_cases hends : headLen < rdmaBodySize
    · -- The header ends in this chunk, and the rest of the chunk comes from the body.
      have hends' := UInt32.lt_iff_toNat_lt.mp hends
      have hle' : headLen ≤ copyLenOf nowLen := by
        rw [UInt32.le_iff_toNat_le]
        omega
      have hsub := UInt32.toNat_sub_of_le _ _ hle'
      obtain ⟨body₁, body₂, hbody₁, hbody₂, htake⟩ := Body.memcpy_split chunk.body now bodyBytes
        (copyLenOf nowLen).toNat (by omega) hle (by omega)
      rw [← hhead] at hbody₁ hbody₂
      rw [← hsub] at hbody₂
      refine ⟨body₂, false, headLen, bodyBytes.drop (copyLenOf nowLen - headLen).toNat, htake,
        by simp, ?_, fun data => ?_⟩
      · rw [if_neg Bool.false_ne_true, hsub, hhead, List.drop_append,
          List.drop_of_length_le (l := now) (by omega), List.nil_append]
      · rw [copyHeaderAndBodyToRdma]
        simp only [if_true, if_pos hends, hbody₁, hbody₂, ok_bind]
    · -- The whole chunk comes from the header.
      have hends' := mt UInt32.lt_iff_toNat_lt.mpr hends
      have hwhole : (copyLenOf nowLen).toNat = rdmaBodySize.toNat := by omega
      have hle' : rdmaBodySize ≤ headLen := by
        rw [UInt32.le_iff_toNat_le]
        omega
      have hsub := UInt32.toNat_sub_of_le _ _ hle'
      obtain ⟨body, hbody, htake⟩ := Body.memcpy_front chunk.body now le_rfl (by omega)
      refine ⟨body, true, headLen - rdmaBodySize, now.drop rdmaBodySize.toNat, ?_, fun _ => ?_, ?_,
        fun data => ?_⟩
      · rw [hwhole, htake, List.take_append_of_le_length (by omega)]
      · rw [hsub, hhead, List.length_drop]
      · rw [hwhole, List.drop_append_of_le_length (by omega)]
        rfl
      · rw [copyHeaderAndBodyToRdma]
        simp only [if_true, if_neg hends, hbody, ok_bind]

/-- **`copy_header_and_body_to_rdma` from block `i` on.** The bytes still to be placed are those of
the concatenated message from block `i` on, so every turn copies the next block of it. -/
theorem copyHeaderAndBodyToRdma_ok (dataId : UInt32) (msg bodyBytes : List UInt8)
    (data : List RdmaChunk) :
    ∀ (i : ℕ) (isHeader : Bool) (headLen : UInt32) (now : List UInt8) (nowLen : UInt32),
      i + data.length = blockCount rdmaBodySize.toNat msg.length →
      (isHeader → headLen.toNat = now.length) →
      pendingBytes bodyBytes isHeader now = msg.drop (i * rdmaBodySize.toNat) →
      (data ≠ [] → nowLen.toNat = msg.length - i * rdmaBodySize.toNat) →
      ∃ filled, copyHeaderAndBodyToRdma dataId
          (UInt32.ofNat (blockCount rdmaBodySize.toNat msg.length)) (UInt32.ofNat msg.length)
          bodyBytes (UInt32.ofNat i) data isHeader headLen now nowLen = .ok filled ∧
        filled.length = data.length ∧ CarriesFrom dataId msg i filled := by
  induction data with
  | nil => exact fun i _ _ _ _ _ _ _ _ => ⟨[], rfl, rfl, trivial⟩
  | cons chunk data ih =>
    intro i isHeader headLen now nowLen hcount hhead hpending hlen
    have hlen := hlen (List.cons_ne_nil _ _)
    have hcopy := toNat_copyLenOf_block hlen
    have hcount' : i + 1 + data.length = blockCount rdmaBodySize.toNat msg.length := by
      rw [← hcount, List.length_cons]
      omega
    obtain ⟨body, isHeader', headLen', now', htake, hhead', hpending', hturn⟩ :=
      copyHeaderAndBodyToRdma_cons dataId (UInt32.ofNat (blockCount rdmaBodySize.toNat msg.length))
        (UInt32.ofNat msg.length) bodyBytes (UInt32.ofNat i) chunk hhead
        (by rw [hpending, List.length_drop, hlen])
    rw [hpending, hcopy] at htake hpending'
    rw [take_length_block] at htake
    rw [drop_length_block] at hpending'
    obtain ⟨filled, hfilled, hlength, hcarries⟩ := ih (i + 1) isHeader' headLen' now'
      (nowLen - copyLenOf nowLen) hcount' hhead' hpending' fun _ => toNat_sub_copyLenOf hlen
    rw [UInt32.ofNat_add] at hfilled
    refine ⟨⟨messageHeader dataId msg i, body⟩ :: filled, ?_, by simp [hlength], ⟨rfl, htake⟩,
      hcarries⟩
    rw [hturn, show UInt32.ofNat i + 1 = UInt32.ofNat i + UInt32.ofNat 1 from rfl, hfilled, ok_bind,
      chunkHeader_eq hlen]
    rfl

/-- **`rdma_send_msg` from block `i` on.** Its own chunk lengths are those of the blocks, so the
frames it posts for chunks that carry the blocks are those of the message. -/
theorem rdmaSendMsg_post {dataId : UInt32} {msg : List UInt8} (filled : List RdmaChunk) :
    ∀ (i : ℕ) (len : UInt32), i + filled.length = blockCount rdmaBodySize.toNat msg.length →
      (filled ≠ [] → len.toNat = msg.length - i * rdmaBodySize.toNat) →
      CarriesFrom dataId msg i filled →
      (rdmaSendMsg filled len).map (fun wc => wc.1.post wc.2)
        = (List.range' i filled.length).map (messageFrame dataId msg) := by
  induction filled with
  | nil => exact fun _ _ _ _ _ => rfl
  | cons chunk filled ih =>
    rintro i len hcount hlen ⟨⟨hheader, hbody⟩, hcarries⟩
    have hlen := hlen (List.cons_ne_nil _ _)
    have hcopy := toNat_copyLenOf_block hlen
    have hcount' : i + 1 + filled.length = blockCount rdmaBodySize.toNat msg.length := by
      rw [← hcount, List.length_cons]
      omega
    rw [List.length_cons, List.range'_succ, List.map_cons, ← ih (i + 1) (len - rdmaBodySize) hcount'
      (fun hfilled => toNat_sub_body hlen (more_blocks hfilled hcount')) hcarries, rdmaSendMsg,
      List.map_cons]
    congr 1
    apply Frame.ext
    · exact hheader
    · exact (hcopy ▸ hbody : chunk.body.bytes.take (copyLenOf len).toNat = _)
    · exact congrArg (· + rdmaHeaderSize) (by rw [← hcopy, UInt32.ofNat_toNat])

/-- A chain of exactly as many chunks as the array needs fills it. -/
theorem chunkArray_length {χ : Type*} (chain : List χ) :
    chunkArray chain.length chain = .ok chain := by
  induction chain with
  | nil => rfl
  | cons chunk chain ih =>
    rw [List.length_cons, chunkArray, ih]
    rfl

namespace SendCall

/-- While the 32-bit sum of the lengths does not wrap, `len` is the length of the message. -/
theorem toNat_len {call : SendCall} (h : call.bytes.length < 2 ^ 32) :
    call.len.toNat = call.bytes.length := by
  cases call with
  | sendMsg msg => exact msg.toNat_len
  | sendMsgWithHeader header body =>
    rw [bytes, List.length_append] at h ⊢
    rw [len, UInt32.toNat_add, header.toNat_len, body.toNat_len, Nat.mod_eq_of_lt h]

/-- The copy loop of either call lays out the blocks of the message. -/
theorem copyToRdma_ok {call : SendCall} (h : call.bytes.length < 2 ^ 32) (dataId : UInt32)
    {data : List RdmaChunk} (hdata : data.length = call.chunkNum.toNat) :
    ∃ filled, call.copyToRdma dataId data = .ok filled ∧ filled.length = data.length ∧
      CarriesFrom dataId call.bytes 0 filled := by
  have hlen := toNat_len h
  have hnum : call.chunkNum.toNat = blockCount rdmaBodySize.toNat call.bytes.length := by
    rw [chunkNum, toNat_chunkNumOf, hlen]
  have hnum' : call.chunkNum = UInt32.ofNat (blockCount rdmaBodySize.toNat call.bytes.length) := by
    rw [← hnum, UInt32.ofNat_toNat]
  have hlen' : call.len = UInt32.ofNat call.bytes.length := by
    rw [← hlen, UInt32.ofNat_toNat]
  have hcount : 0 + data.length = blockCount rdmaBodySize.toNat call.bytes.length := by
    rw [zero_add, hdata, hnum]
  cases call with
  | sendMsg msg =>
    rw [copyToRdma.eq_def, hnum', hlen']
    refine copyMsgToRdma_ok dataId msg.bytes data 0 _ hcount fun _ => ?_
    rw [← hlen', hlen, zero_mul]
    rfl
  | sendMsgWithHeader header body =>
    rw [copyToRdma.eq_def, hnum', hlen']
    exact copyHeaderAndBodyToRdma_ok dataId (header.bytes ++ body.bytes) body.bytes data 0 true
      _ _ _ hcount (fun _ => header.toNat_len) (by simp [pendingBytes])
      fun _ => by rw [← hlen', hlen, zero_mul]; rfl

/-- **The frames of a call.** Over a chain of exactly `chunk_num` chunks, whatever they held
before, `send_msg` and `send_msg_with_header` post the frames of the message they were given. -/
theorem frames_eq {call : SendCall} (h : call.bytes.length < 2 ^ 32) (dataId : UInt32)
    {chain : List RdmaChunk} (hchain : chain.length = call.chunkNum.toNat) :
    call.frames dataId chain = .ok (messageFrames dataId call.bytes) := by
  obtain ⟨filled, hfilled, hlength, hcarries⟩ := copyToRdma_ok h dataId hchain
  have hlen := toNat_len h
  have hcount : filled.length = blockCount rdmaBodySize.toNat call.bytes.length := by
    rw [hlength, hchain, chunkNum, toNat_chunkNumOf, hlen]
  rw [frames, ← hchain, chunkArray_length, ok_bind, hfilled, ok_bind,
    rdmaSendMsg_post filled 0 call.len (by rw [zero_add, hcount]) (fun _ => by simp [hlen])
      hcarries,
    hcount, ← List.range_eq_range', messageFrames]
  rfl

end SendCall

end SparkRdma
