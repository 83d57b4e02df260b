import Mathlib.Data.List.Perm.Subperm
import SparkRdma.Wire.Segmentation

/-! # A header and a body

`send_msg_with_header` copies from two buffers into one sequence of chunks, under a length that is
the 32-bit sum of theirs.

* **`LengthsAgree`** — the posted lengths, the chunk lengths and the data length of a message's
  frames fit together.
* **`sendMsgWithHeader_concatenates`** — while the sum does not wrap, the frames are those of
  `send_msg` on the concatenation.
* **`PlacesAll`** — no copy leaves its objects, and what is sent holds every byte.
* **`copy_overruns`** — a header of two bytes and a body of `2^32 - 1` are copied out of bounds.
* **`placesAll_iff`** — the exact condition is that the lengths add up to at most `2^32`. -/

namespace SparkRdma

open Interleaving Blocks

/-! ### The frames of the concatenation -/

/-- The header and the body in one buffer. -/
def CBuffer.append (header body : CBuffer)
    (h : header.bytes.length + body.bytes.length < 2 ^ 32) : CBuffer :=
  ⟨header.bytes ++ body.bytes, by rwa [List.length_append]⟩

/-- The lengths in the frames of one message fit together. -/
structure LengthsAgree (frames : List Frame) : Prop where
  /-- A posted length is that of the message bytes and the header. -/
  posted : ∀ frame ∈ frames,
    frame.byteLen.toNat = frame.header.chunkLen.toNat + rdmaHeaderSize.toNat
  /-- It fits a chunk. -/
  fits : ∀ frame ∈ frames, frame.byteLen ≤ rdmaChunkSize
  /-- A frame carries as many message bytes as its header says. -/
  payload : ∀ frame ∈ frames, frame.payload.length = frame.header.chunkLen.toNat
  /-- The chunk lengths add up to the length of the message, which every header tells. -/
  total : ∀ frame ∈ frames,
    (frames.map fun frame => frame.header.chunkLen.toNat).sum = frame.header.dataLen.toNat

/-- The chunk length in the header of block `i`. -/
theorem toNat_chunkLen (dataId : UInt32) (msg : List UInt8) (i : ℕ) :
    (messageFrame dataId msg i).header.chunkLen.toNat
      = (block rdmaBodySize.toNat msg i).length := by
  have hle : (block rdmaBodySize.toNat msg i).length ≤ 65515 := length_block_le ..
  change (UInt32.ofNat _).toNat = _
  rw [UInt32.toNat_ofNat', Nat.mod_eq_of_lt (by omega)]

/-- **The lengths in the frames of a message agree.** -/
theorem lengthsAgree_messageFrames (dataId : UInt32) {msg : List UInt8}
    (hmsg : msg.length < 2 ^ 32) : LengthsAgree (messageFrames dataId msg) := by
  have hheader : rdmaHeaderSize.toNat = 21 := rfl
  have hposted : ∀ i, (messageFrame dataId msg i).byteLen.toNat
      = (block rdmaBodySize.toNat msg i).length + rdmaHeaderSize.toNat := by
    intro i
    have hle : (block rdmaBodySize.toNat msg i).length ≤ 65515 := length_block_le ..
    change (UInt32.ofNat _ + rdmaHeaderSize).toNat = _
    rw [UInt32.toNat_add, UInt32.toNat_ofNat', Nat.mod_eq_of_lt (a := List.length _) (by omega),
      Nat.mod_eq_of_lt (by omega)]
  have hframe : ∀ frame ∈ messageFrames dataId msg, ∃ i, messageFrame dataId msg i = frame := by
    intro frame hmem
    obtain ⟨i, -, hi⟩ := List.mem_map.mp hmem
    exact ⟨i, hi⟩
  refine ⟨fun frame hmem => ?_, fun frame hmem => ?_, fun frame hmem => ?_, fun frame hmem => ?_⟩
  · obtain ⟨i, rfl⟩ := hframe frame hmem
    rw [hposted, toNat_chunkLen]
  · obtain ⟨i, rfl⟩ := hframe frame hmem
    have hle : (block rdmaBodySize.toNat msg i).length ≤ 65515 := length_block_le ..
    rw [UInt32.le_iff_toNat_le, hposted, hheader]
    change _ ≤ 65536
    omega
  · obtain ⟨i, rfl⟩ := hframe frame hmem
    exact (toNat_chunkLen dataId msg i).symm
  · obtain ⟨i, rfl⟩ := hframe frame hmem
    -- The blocks cover the message, and there is nothing of it twice.
    have hcover := le_blockCount_mul rdmaBodySize.toNat msg.length (by simp)
    rw [messageFrames, List.map_map]
    calc ((List.range _).map _).sum
        = ((List.range (blockCount rdmaBodySize.toNat msg.length)).map fun i =>
            (block rdmaBodySize.toNat msg i).length).sum :=
          congrArg List.sum (List.map_congr_left fun i _ => toNat_chunkLen dataId msg i)
      _ = msg.length := by rw [sum_length_block, min_eq_right hcover]
      _ = _ := by
          change _ = (UInt32.ofNat msg.length).toNat
          rw [UInt32.toNat_ofNat', Nat.mod_eq_of_lt hmsg]

/-- A message has as many frames as it has blocks. -/
theorem length_messageFrames (dataId : UInt32) (msg : List UInt8) :
    (messageFrames dataId msg).length = blockCount rdmaBodySize.toNat msg.length := by
  rw [messageFrames, List.length_map, List.length_range]

/-- Every header tells the number of frames and the length of the message. -/
theorem header_messageFrames (dataId : UInt32) {msg : List UInt8} (hmsg : msg.length < 2 ^ 32) :
    ∀ frame ∈ messageFrames dataId msg,
      frame.header.chunkNum.toNat = (messageFrames dataId msg).length ∧
        frame.header.dataLen.toNat = msg.length := by
  intro frame hmem
  obtain ⟨i, -, rfl⟩ := List.mem_map.mp hmem
  have hcount : blockCount rdmaBodySize.toNat msg.length < 2 ^ 32 :=
    (blockCount_le (by simp) _).trans_lt hmsg
  rw [length_messageFrames]
  constructor
  · change (UInt32.ofNat _).toNat = _
    rw [UInt32.toNat_ofNat', Nat.mod_eq_of_lt hcount]
  · change (UInt32.ofNat _).toNat = _
    rw [UInt32.toNat_ofNat', Nat.mod_eq_of_lt hmsg]

/-- **`send_msg_with_header` sends what `send_msg` sends for the concatenation**, and in both the
lengths agree, for every header and body whose lengths add up to less than `2^32`, and whatever the
chunks held before: one frame for each block of the sum, each of which tells their number and the
sum. -/
theorem sendMsgWithHeader_concatenates (header body : CBuffer)
    (h : header.bytes.length + body.bytes.length < 2 ^ 32) (dataId : UInt32)
    {chain chain' : List RdmaChunk}
    (hchain : chain.length = (SendCall.sendMsgWithHeader header body).chunkNum.toNat)
    (hchain' : chain'.length = (SendCall.sendMsg (header.append body h)).chunkNum.toNat) :
    ∃ frames, (SendCall.sendMsgWithHeader header body).frames dataId chain = .ok frames ∧
      (SendCall.sendMsg (header.append body h)).frames dataId chain' = .ok frames ∧
      LengthsAgree frames ∧
      frames.length = blockCount rdmaBodySize.toNat (header.bytes.length + body.bytes.length) ∧
      ∀ frame ∈ frames, frame.header.chunkNum.toNat = frames.length ∧
        frame.header.dataLen.toNat = header.bytes.length + body.bytes.length := by
  have hbytes : (header.bytes ++ body.bytes).length < 2 ^ 32 := by rwa [List.length_append]
  have hheader : (SendCall.sendMsgWithHeader header body).bytes.length < 2 ^ 32 := hbytes
  have hmsg : (SendCall.sendMsg (header.append body h)).bytes.length < 2 ^ 32 := hbytes
  refine ⟨_, SendCall.frames_eq hheader dataId hchain, SendCall.frames_eq hmsg dataId hchain',
    lengthsAgree_messageFrames dataId hbytes, ?_, ?_⟩
  · rw [length_messageFrames]
    exact congrArg _ List.length_append
  · rw [← List.length_append]
    exact header_messageFrames dataId hbytes

/-- A header and a body of one byte each. -/
theorem sendMsgWithHeader_concatenates_twoBytes :
    ∃ frames, (SendCall.sendMsgWithHeader ⟨[1], by decide⟩ ⟨[2], by decide⟩).frames 0 [.blank]
        = .ok frames ∧ frames.length = 1 ∧ LengthsAgree frames := by
  have hone : [RdmaChunk.blank].length = (1 : UInt32).toNat := rfl
  obtain ⟨frames, hframes, -, hagree, hcount, -⟩ := sendMsgWithHeader_concatenates
    ⟨[1], by decide⟩ ⟨[2], by decide⟩ (by decide) 0 (hone.trans (by decide))
    (hone.trans (by decide))
  exact ⟨frames, hframes, hcount.trans (by decide), hagree⟩

/-! ### Where the sum wraps -/

/-- What `get_rdma_chunk_list_from_pool` can return for `count`: NULL, which it always does for 0,
or exactly `count` chunks. -/
def PoolReturns (count : UInt32) : Option (List RdmaChunk) → Prop
  | none => True
  | some chain => count ≠ 0 ∧ chain.length = count.toNat

namespace SendCall

/-- A send call from the answer of the pool on: NULL makes it abort. -/
def sendOver (call : SendCall) (dataId : UInt32) :
    Option (List RdmaChunk) → Except CFault (List Frame)
  | none => .error .abort
  | some chain => call.frames dataId chain

/-- Whatever the pool returns, no `memcpy` of the call leaves the caller's buffers or a chunk's
body, and if the call returns, every byte of the buffers has been placed in some frame. -/
def PlacesAll (call : SendCall) : Prop :=
  ∀ dataId chunkList, PoolReturns call.chunkNum chunkList →
    call.sendOver dataId chunkList ≠ .error .outOfBounds ∧
      ∀ frames, call.sendOver dataId chunkList = .ok frames →
        call.bytes.Subperm (frames.flatMap Frame.payload)

end SendCall

/-- A copy either succeeds or is out of bounds. -/
theorem Body.memcpy_error {body : Body} {off n : ℕ} {src : List UInt8} {e : CFault}
    (h : body.memcpy off src n = .error e) : e = .outOfBounds := by
  unfold Body.memcpy at h
  split at h <;> cases h
  rfl

/-- Where the header ends in a chunk that takes fewer bytes than are left of it, the length of the
copy behind it is below zero, and so beyond every chunk. -/
theorem copyHeaderAndBodyToRdma_overruns (dataId chunkNum len : UInt32)
    (bodyBytes now : List UInt8) (i : UInt32) (chunk : RdmaChunk) (data : List RdmaChunk)
    {headLen nowLen : UInt32} (hends : headLen < rdmaBodySize)
    (hshort : copyLenOf nowLen < headLen) :
    copyHeaderAndBodyToRdma dataId chunkNum len bodyBytes i (chunk :: data) true headLen now nowLen
      = .error .outOfBounds := by
  have hends' := UInt32.lt_iff_toNat_lt.mp hends
  have hshort' := UInt32.lt_iff_toNat_lt.mp hshort
  rw [toNat_rdmaBodySize] at hends'
  have hsub : (copyLenOf nowLen - headLen).toNat
      = 2 ^ 32 - headLen.toNat + (copyLenOf nowLen).toNat := by
    rw [UInt32.toNat_sub]
    omega
  have hback : ∀ body : Body, body.memcpy headLen.toNat bodyBytes (copyLenOf nowLen - headLen).toNat
      = .error .outOfBounds := by
    intro body
    unfold Body.memcpy
    refine dif_neg fun hin => ?_
    rw [toNat_rdmaBodySize] at hin
    omega
  rw [copyHeaderAndBodyToRdma]
  simp only [if_true, if_pos hends]
  -- The copy of the header fails, or the one behind it does.
  cases hfront : chunk.body.memcpy 0 now headLen.toNat with
  | error e =>
    rw [Body.memcpy_error hfront]
    rfl
  | ok body =>
    rw [ok_bind, hback]
    rfl

/-- **Two bytes are enough.** `send_msg_with_header` of a header of two bytes and a body of
`2^32 - 1`, a length the entry from Java can hand over, computes a length of one byte and takes one
chunk; it puts the header there, and copies `1 - 2` bytes of the body behind it. -/
theorem copy_overruns :
    ¬ ∀ header body : CBuffer, (SendCall.sendMsgWithHeader header body).PlacesAll := by
  intro h
  have hlength : (List.replicate (2 ^ 32 - 1) (0 : UInt8)).length < 2 ^ 32 := by
    rw [List.length_replicate]
    omega
  have hlen : (SendCall.sendMsgWithHeader ⟨[1, 2], by decide⟩
      ⟨List.replicate (2 ^ 32 - 1) 0, hlength⟩).len = 1 := by
    rw [SendCall.len, CBuffer.len, CBuffer.len, List.length_replicate]
    decide
  have hnum : (SendCall.sendMsgWithHeader ⟨[1, 2], by decide⟩
      ⟨List.replicate (2 ^ 32 - 1) 0, hlength⟩).chunkNum = 1 := by
    rw [SendCall.chunkNum, hlen]
    decide
  have hplaces := (h ⟨[1, 2], by decide⟩ ⟨List.replicate (2 ^ 32 - 1) 0, hlength⟩ 0 (some [.blank])
    (by rw [hnum]; exact ⟨by decide, rfl⟩)).1
  refine hplaces ?_
  have hchain : (1 : UInt32).toNat = [RdmaChunk.blank].length := rfl
  rw [SendCall.sendOver, SendCall.frames, hnum, hchain, chunkArray_length, ok_bind,
    SendCall.copyToRdma, hlen,
    copyHeaderAndBodyToRdma_overruns _ _ _ _ _ _ _ _ (by decide) (by decide)]
  rfl

/-! ### The exact condition -/

/-- A turn of the copy loop: out of bounds, or one more chunk is filled. -/
theorem copyTurn_cases {copy : Except CFault Body} {rest : Except CFault (List RdmaChunk)} {n : ℕ}
    (header : ChunkHeader) (hcopy : ∀ e, copy = .error e → e = .outOfBounds)
    (hrest : rest = .error .outOfBounds ∨ ∃ filled, rest = .ok filled ∧ filled.length = n) :
    (do let body ← copy; let filled ← rest; return (⟨header, body⟩ : RdmaChunk) :: filled)
        = Except.error CFault.outOfBounds ∨
      ∃ filled, (do
          let body ← copy
          let filled ← rest
          return (⟨header, body⟩ : RdmaChunk) :: filled)
        = Except.ok filled ∧ filled.length = n + 1 := by
  cases copy with
  | error e =>
    rw [hcopy e rfl]
    exact .inl rfl
  | ok body =>
    rcases hrest with rfl | ⟨filled, rfl, hlength⟩
    · exact .inl rfl
    · exact .inr ⟨⟨header, body⟩ :: filled, rfl, congrArg (· + 1) hlength⟩

/-- **The copy loop goes out of bounds, or fills every chunk.** -/
theorem copyHeaderAndBodyToRdma_cases (dataId chunkNum len : UInt32) (bodyBytes : List UInt8)
    (data : List RdmaChunk) : ∀ i isHeader headLen now nowLen,
      copyHeaderAndBodyToRdma dataId chunkNum len bodyBytes i data isHeader headLen now nowLen
          = .error .outOfBounds ∨
        ∃ filled, copyHeaderAndBodyToRdma dataId chunkNum len bodyBytes i data isHeader headLen now
          nowLen = .ok filled ∧ filled.length = data.length := by
  induction data with
  | nil => exact fun _ _ _ _ _ => .inr ⟨[], rfl, rfl⟩
  | cons chunk data ih =>
    intro i isHeader headLen now nowLen
    rw [copyHeaderAndBodyToRdma]
    cases isHeader with
    | false => exact copyTurn_cases _ (fun _ => Body.memcpy_error) (ih ..)
    | true =>
      by_cases hends : headLen < rdmaBodySize
      · simp only [if_true, if_pos hends]
        -- the two copies of this turn, taken together
        have hboth : ∀ e, (chunk.body.memcpy 0 now headLen.toNat >>= fun body =>
            body.memcpy headLen.toNat bodyBytes (copyLenOf nowLen - headLen).toNat) = .error e →
            e = .outOfBounds := by
          intro e he
          cases hfront : chunk.body.memcpy 0 now headLen.toNat with
          | error e' =>
            rw [hfront, error_bind] at he
            exact Except.error.inj he ▸ Body.memcpy_error hfront
          | ok body =>
            rw [hfront, ok_bind] at he
            exact Body.memcpy_error he
        have hturn := copyTurn_cases (chunkHeader dataId chunkNum len i (copyLenOf nowLen)) hboth
          (ih (i + 1) false headLen (bodyBytes.drop (copyLenOf nowLen - headLen).toNat)
            (nowLen - copyLenOf nowLen))
        rw [bind_assoc] at hturn
        exact hturn
      · simp only [if_true, if_neg hends]
        exact copyTurn_cases _ (fun _ => Body.memcpy_error) (ih ..)

/-- **The posting loop posts `len` bytes**, whatever the chunks hold. -/
theorem sum_length_rdmaSendMsg (filled : List RdmaChunk) :
    ∀ len : UInt32, filled.length = blockCount rdmaBodySize.toNat len.toNat →
      (((rdmaSendMsg filled len).map fun wc => wc.1.post wc.2).map
        fun frame => frame.payload.length).sum = len.toNat := by
  induction filled with
  | nil =>
    intro len hcount
    rcases Nat.eq_zero_or_pos len.toNat with hzero | hpos
    · simp [rdmaSendMsg, hzero]
    · have := blockCount_pos (b := rdmaBodySize.toNat) (by simp) hpos
      rw [List.length_nil] at hcount
      omega
  | cons chunk filled ih =>
    intro len hcount
    have hcopy := toNat_copyLenOf len
    have hfirst : (chunk.post (copyLenOf len)).payload.length = (copyLenOf len).toNat := by
      change (chunk.body.bytes.take _).length = _
      rw [List.length_take, chunk.body.length_bytes]
      omega
    have hpos : 0 < len.toNat := by
      rw [Nat.pos_iff_ne_zero]
      intro hzero
      rw [hzero, blockCount_zero] at hcount
      cases hcount
    rw [blockCount_sub (by simp) hpos, List.length_cons, Nat.add_right_cancel_iff] at hcount
    rw [rdmaSendMsg, List.map_cons, List.map_cons, List.sum_cons, hfirst]
    by_cases hle : rdmaBodySize ≤ len
    · have hsub := UInt32.toNat_sub_of_le _ _ hle
      have hle' := UInt32.le_iff_toNat_le.mp hle
      rw [ih (len - rdmaBodySize) (by rw [hsub, hcount]), hsub]
      omega
    · -- the last chunk: the length left wraps, but no chunk is left to see it
      have hlt := mt UInt32.le_iff_toNat_le.mpr hle
      rw [Nat.sub_eq_zero_of_le (by omega), blockCount_zero] at hcount
      obtain rfl := List.length_eq_zero_iff.mp hcount
      simp only [rdmaSendMsg, List.map_nil, List.sum_nil]
      omega

namespace SendCall

/-- A call that is given its chunks goes out of bounds, or sends `len` bytes. -/
theorem frames_cases {header body : CBuffer} {chain : List RdmaChunk} (dataId : UInt32)
    (hchain : chain.length = (sendMsgWithHeader header body).chunkNum.toNat) :
    (sendMsgWithHeader header body).frames dataId chain = .error .outOfBounds ∨
      ∃ frames, (sendMsgWithHeader header body).frames dataId chain = .ok frames ∧
        (frames.flatMap Frame.payload).length = (sendMsgWithHeader header body).len.toNat := by
  rw [SendCall.frames, ← hchain, chunkArray_length, ok_bind, copyToRdma]
  obtain hbounds | ⟨filled, hfilled, hlength⟩ := copyHeaderAndBodyToRdma_cases dataId
    (sendMsgWithHeader header body).chunkNum (sendMsgWithHeader header body).len body.bytes chain 0
    true header.len header.bytes (sendMsgWithHeader header body).len
  · rw [hbounds]
    exact .inl rfl
  · rw [hfilled]
    refine .inr ⟨_, rfl, ?_⟩
    rw [List.length_flatMap]
    exact sum_length_rdmaSendMsg filled _ (by rw [hlength, hchain, chunkNum, toNat_chunkNumOf])

/-- The frames of a message carry its bytes. -/
theorem flatMap_messageFrames (dataId : UInt32) (msg : List UInt8) :
    (messageFrames dataId msg).flatMap Frame.payload = msg := by
  have hpayload : (messageFrames dataId msg).flatMap Frame.payload
      = (List.range (blockCount rdmaBodySize.toNat msg.length)).flatMap
          (block rdmaBodySize.toNat msg) := by
    rw [messageFrames, List.flatMap_map]
    rfl
  rw [hpayload, flatMap_block, List.take_of_length_le (le_blockCount_mul _ _ (by simp))]

/-- **The exact condition.** The copies of `send_msg_with_header` stay in bounds, and what it sends
holds every byte, if and only if the lengths of the header and the body add up to at most `2^32`. -/
theorem placesAll_iff (header body : CBuffer) :
    (sendMsgWithHeader header body).PlacesAll
      ↔ header.bytes.length + body.bytes.length ≤ 2 ^ 32 := by
  have hbytes : (sendMsgWithHeader header body).bytes.length
      = header.bytes.length + body.bytes.length := List.length_append
  have hlen : (sendMsgWithHeader header body).len.toNat
      = (header.bytes.length + body.bytes.length) % 2 ^ 32 := by
    rw [len, UInt32.toNat_add, header.toNat_len, body.toNat_len]
  have hnum : (sendMsgWithHeader header body).chunkNum.toNat
      = blockCount rdmaBodySize.toNat (sendMsgWithHeader header body).len.toNat :=
    toNat_chunkNumOf _
  constructor
  · intro hplaces
    by_contra hwrap
    -- `len` is then not 0, and less than what there is to send
    have hheader := header.length_lt
    have hbody := body.length_lt
    have hlt : 0 < (sendMsgWithHeader header body).len.toNat := by omega
    have hpos := blockCount_pos (b := rdmaBodySize.toNat) (by simp) hlt
    have hne : (sendMsgWithHeader header body).chunkNum ≠ 0 := by
      intro hzero
      rw [hzero, UInt32.toNat_zero] at hnum
      omega
    obtain ⟨hbounds, hall⟩ := hplaces 0
      (some (List.replicate (sendMsgWithHeader header body).chunkNum.toNat .blank))
      ⟨hne, List.length_replicate⟩
    obtain hout | ⟨frames, hframes, hlength⟩ := frames_cases 0 List.length_replicate
    · exact hbounds hout
    · have := (hall frames hframes).length_le
      omega
  · intro hle dataId chunkList hreturns
    cases chunkList with
    | none => exact ⟨fun h => (by cases h), fun frames h => (by cases h)⟩
    | some chain =>
      obtain ⟨hne, hchain⟩ := hreturns
      have hlt : (sendMsgWithHeader header body).bytes.length < 2 ^ 32 := by
        rw [hbytes]
        by_contra hwhole
        -- a sum of exactly `2^32` asks the pool for no chunk
        have hzero : (sendMsgWithHeader header body).len.toNat = 0 := by omega
        rw [hzero, blockCount_zero] at hnum
        exact hne (UInt32.toNat_inj.mp hnum)
      have hframes := frames_eq hlt dataId hchain
      rw [sendOver, hframes]
      refine ⟨fun h => (by cases h), fun frames h => ?_⟩
      obtain rfl := Except.ok.inj h
      rw [flatMap_messageFrames]

end SendCall

end SparkRdma
