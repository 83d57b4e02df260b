import SparkRdma.Connection.Exchange
import SparkRdma.WorkQueue.Reassembly

/-! # Chunks in memory

The adapter knows nothing of headers and bodies: it copies the first bytes of the sender's chunk
over those of the receiver's. The header is packed in front of the body, its words in the byte order
of the host, which `exchange_info` turns into network order for its record and `send_msg` does not
for its frames.

* **`RdmaChunk.store`**, **`ChunkMemory.load`** — a chunk as it lies in memory, and as it is read
  there.
* **`ChunkMemory.receive`** — what the adapter does.
* **`load_receive`** — between hosts of one byte order this is what landing a frame is.
* **`loadWord_storeWord_ne`** — between hosts of different ones no `chunk_len` is read as it was
  written.
* **`frame_through_memory`** — so a frame arrives as it was sent, or is refused. -/

namespace SparkRdma

open Interleaving

/-! ### Words -/

/-- The order in which a host stores the bytes of a word. -/
inductive ByteOrder
  /-- The least significant byte first. -/
  | little
  /-- The most significant byte first. -/
  | big
  deriving DecidableEq, Repr

/-- The bytes of a word in memory. -/
def storeWord : ByteOrder → UInt32 → List UInt8
  | .little, w => (networkOrder 4 w.toNat).reverse
  | .big, w => networkOrder 4 w.toNat

/-- The word that bytes in memory are read as. -/
def loadWord : ByteOrder → List UInt8 → UInt32
  | .little, bytes => .ofNat (hostOrder bytes.reverse)
  | .big, bytes => .ofNat (hostOrder bytes)

@[simp] theorem length_storeWord (order : ByteOrder) (w : UInt32) :
    (storeWord order w).length = 4 := by
  cases order <;> simp [storeWord]

/-- A word is read as it was written. -/
@[simp] theorem loadWord_storeWord (order : ByteOrder) (w : UInt32) :
    loadWord order (storeWord order w) = w := by
  have hhost := hostOrder_networkOrder 4 w.toNat w.toNat_lt
  cases order <;> simp [loadWord, storeWord, hhost]

/-- Four bytes are written as they were read. -/
theorem storeWord_loadWord (order : ByteOrder) {bytes : List UInt8} (h : bytes.length = 4) :
    storeWord order (loadWord order bytes) = bytes := by
  have hback : ∀ bytes : List UInt8, bytes.length = 4 →
      networkOrder 4 (UInt32.ofNat (hostOrder bytes)).toNat = bytes := by
    intro bytes h
    obtain ⟨hlt, heq⟩ := networkOrder_hostOrder bytes
    rw [h] at hlt heq
    rw [UInt32.toNat_ofNat', Nat.mod_eq_of_lt (show _ < 2 ^ 32 from hlt), heq]
  cases order with
  | little => rw [loadWord, storeWord, hback _ (by rwa [List.length_reverse]), List.reverse_reverse]
  | big => rw [loadWord, storeWord, hback _ h]

/-- A number below `2 ^ 16` has its bytes in one half of the word. -/
theorem networkOrder_of_lt {n : ℕ} (h : n < 2 ^ 16) :
    networkOrder 4 n = [0, 0, .ofNat (n / 256), .ofNat n] := by
  have hhigh : n / 256 / 256 = 0 := by omega
  simp [networkOrder, hhigh]

/-- **No `chunk_len` of a frame is read as it was written** in the other byte order. -/
theorem loadWord_storeWord_ne {order order' : ByteOrder} (horder : order' ≠ order) {w : UInt32}
    (hpos : w ≠ 0) (hlt : w.toNat < 2 ^ 16) : loadWord order' (storeWord order w) ≠ w := by
  -- the two bytes that are not zero come to the other end
  have hswap : loadWord order' (storeWord order w)
      = .ofNat (hostOrder [.ofNat w.toNat, .ofNat (w.toNat / 256), 0, 0]) := by
    cases order <;> cases order' <;>
      first | exact absurd rfl horder | simp [loadWord, storeWord, networkOrder_of_lt hlt]
  rw [hswap]
  intro heq
  have hnat := congrArg UInt32.toNat heq
  have hzero : w.toNat ≠ 0 := fun h => hpos (UInt32.toNat_inj.mp h)
  simp only [hostOrder, List.foldl_cons, List.foldl_nil, UInt32.toNat_ofNat', UInt8.toNat_ofNat',
    UInt8.toNat_zero] at hnat
  omega

/-! ### Headers -/

namespace ChunkHeader

/-- The packed header in memory. -/
def store (order : ByteOrder) (h : ChunkHeader) : List UInt8 :=
  h.flags :: (storeWord order h.chunkId ++ (storeWord order h.chunkLen ++
    (storeWord order h.chunkNum ++ (storeWord order h.dataId ++ storeWord order h.dataLen))))

/-- The fields of the packed header at the start of some bytes, at their offsets. -/
def load (order : ByteOrder) (bytes : List UInt8) : ChunkHeader where
  flags := bytes.headD 0
  chunkId := loadWord order ((bytes.drop 1).take 4)
  chunkLen := loadWord order ((bytes.drop 5).take 4)
  chunkNum := loadWord order ((bytes.drop 9).take 4)
  dataId := loadWord order ((bytes.drop 13).take 4)
  dataLen := loadWord order ((bytes.drop 17).take 4)

@[simp] theorem length_store (order : ByteOrder) (h : ChunkHeader) :
    (h.store order).length = rdmaHeaderSize.toNat := by
  simp [store]
  rfl

/-- Where the words of a packed header lie. -/
theorem drop_store (order : ByteOrder) (h : ChunkHeader) (rest : List UInt8) :
    ((h.store order ++ rest).drop 1).take 4 = storeWord order h.chunkId ∧
      ((h.store order ++ rest).drop 5).take 4 = storeWord order h.chunkLen ∧
      ((h.store order ++ rest).drop 9).take 4 = storeWord order h.chunkNum ∧
      ((h.store order ++ rest).drop 13).take 4 = storeWord order h.dataId ∧
      ((h.store order ++ rest).drop 17).take 4 = storeWord order h.dataLen := by
  refine ⟨?_, ?_, ?_, ?_, ?_⟩ <;>
    simp [store, List.drop_append, List.drop_of_length_le]

/-- **A packed header is read as it was written.** -/
theorem load_store (order : ByteOrder) (h : ChunkHeader) (rest : List UInt8) :
    load order (h.store order ++ rest) = h := by
  obtain ⟨hid, hlen, hnum, hdata, hdataLen⟩ := drop_store order h rest
  rw [load, hid, hlen, hnum, hdata, hdataLen]
  simp only [loadWord_storeWord]
  rfl

/-- The bytes of a header are written as they were read. -/
theorem store_load (order : ByteOrder) {bytes : List UInt8}
    (h : rdmaHeaderSize.toNat ≤ bytes.length) :
    (load order bytes).store order = bytes.take rdmaHeaderSize.toNat := by
  have hsize : rdmaHeaderSize.toNat = 1 + (4 + (4 + (4 + (4 + 4)))) := rfl
  have hword : ∀ i, i + 4 ≤ rdmaHeaderSize.toNat →
      storeWord order (loadWord order ((bytes.drop i).take 4)) = (bytes.drop i).take 4 := by
    intro i hi
    refine storeWord_loadWord order ?_
    rw [List.length_take, List.length_drop]
    omega
  cases bytes with
  | nil => exact absurd h (by decide)
  | cons b rest =>
    rw [store, load, hword 1 (by decide), hword 5 (by decide), hword 9 (by decide),
      hword 13 (by decide), hword 17 (by decide), hsize]
    simp only [List.headD_cons, List.take_add, List.drop_drop, List.drop_succ_cons, List.drop_zero]
    rfl

end ChunkHeader

/-! ### Chunks -/

/-- The first `RDMA_CHUNK_SIZE` bytes of a `struct rdma_chunk`: the array of the union. -/
structure ChunkMemory where
  /-- The bytes. -/
  bytes : List UInt8
  /-- There are `RDMA_CHUNK_SIZE` of them. -/
  length_bytes : bytes.length = rdmaChunkSize.toNat

/-- A chunk is its header and the bytes of its body. -/
theorem RdmaChunk.eq_of_bytes {chunk chunk' : RdmaChunk} (hheader : chunk.header = chunk'.header)
    (hbytes : chunk.body.bytes = chunk'.body.bytes) : chunk = chunk' := by
  obtain ⟨header, bytes, hlength⟩ := chunk
  obtain ⟨header', bytes', hlength'⟩ := chunk'
  obtain rfl : header = header' := hheader
  obtain rfl : bytes = bytes' := hbytes
  rfl

/-- A chunk as it lies in memory: the body behind the packed header. -/
def RdmaChunk.store (order : ByteOrder) (chunk : RdmaChunk) : ChunkMemory where
  bytes := chunk.header.store order ++ chunk.body.bytes
  length_bytes := by
    rw [List.length_append, ChunkHeader.length_store, chunk.body.length_bytes]
    rfl

namespace ChunkMemory

/-- A chunk as it is read in memory. -/
def load (order : ByteOrder) (m : ChunkMemory) : RdmaChunk where
  header := .load order m.bytes
  body := ⟨m.bytes.drop rdmaHeaderSize.toNat, by
    rw [List.length_drop, m.length_bytes]
    rfl⟩

/-- The adapter writes the first `n` bytes of the sender's chunk into the receiver's. -/
def receive (dst src : ChunkMemory) (n : ℕ) : ChunkMemory where
  bytes := src.bytes.take n ++ dst.bytes.drop n
  length_bytes := by
    have hdst := dst.length_bytes
    have hsrc := src.length_bytes
    rw [List.length_append, List.length_take, List.length_drop]
    omega

/-- A chunk is read as it was written. -/
@[simp] theorem load_store (order : ByteOrder) (chunk : RdmaChunk) :
    load order (chunk.store order) = chunk :=
  RdmaChunk.eq_of_bytes (ChunkHeader.load_store order chunk.header chunk.body.bytes)
    (List.drop_left' (ChunkHeader.length_store order chunk.header))

/-- A chunk's memory is written as it was read. -/
@[simp] theorem store_load (order : ByteOrder) (m : ChunkMemory) :
    (load order m).store order = m := by
  have hle : rdmaHeaderSize.toNat ≤ m.bytes.length := by
    rw [m.length_bytes]
    decide
  have hbytes : ((load order m).store order).bytes = m.bytes := by
    show (ChunkHeader.load order m.bytes).store order ++ m.bytes.drop rdmaHeaderSize.toNat = _
    rw [ChunkHeader.store_load order hle, List.take_append_drop]
  cases m
  simpa [RdmaChunk.store] using hbytes

/-- What lies in the receiver's chunk behind a posted send: the header, and the bytes of the body
that the posted length covers. -/
theorem bytes_receive (order : ByteOrder) (old : ChunkMemory) (chunk : RdmaChunk) {len : UInt32}
    (hlen : len ≤ rdmaBodySize) :
    (old.receive (chunk.store order) (chunk.post len).byteLen.toNat).bytes
      = chunk.header.store order ++ (chunk.body.bytes.take len.toNat
        ++ old.bytes.drop (rdmaHeaderSize.toNat + len.toNat)) := by
  have hle : len.toNat ≤ rdmaBodySize.toNat := UInt32.le_iff_toNat_le.mp hlen
  have hbyteLen : (chunk.post len).byteLen.toNat = rdmaHeaderSize.toNat + len.toNat := by
    rw [toNat_rdmaBodySize] at hle
    show (len + rdmaHeaderSize).toNat = _
    have hsize : rdmaHeaderSize.toNat = 21 := rfl
    rw [UInt32.toNat_add, Nat.mod_eq_of_lt (by omega), Nat.add_comm]
  show (chunk.header.store order ++ chunk.body.bytes).take _ ++ old.bytes.drop _ = _
  rw [hbyteLen, ← ChunkHeader.length_store order chunk.header, List.take_length_add_append,
    List.append_assoc]

/-- **What the adapter does is what landing a frame is**, between hosts of one byte order. -/
theorem load_receive (order : ByteOrder) (old : ChunkMemory) (chunk : RdmaChunk) {len : UInt32}
    (hlen : len ≤ rdmaBodySize) :
    load order (old.receive (chunk.store order) (chunk.post len).byteLen.toNat)
      = (load order old).land (chunk.post len) := by
  have hle : len.toNat ≤ rdmaBodySize.toNat := UInt32.le_iff_toNat_le.mp hlen
  have hbytes := bytes_receive order old chunk hlen
  refine RdmaChunk.eq_of_bytes ?_ ?_
  · show ChunkHeader.load order (old.receive _ _).bytes = chunk.header
    rw [hbytes, ChunkHeader.load_store]
  · have hpayload : (chunk.body.bytes.take len.toNat).length = len.toNat := by
      rw [List.length_take, chunk.body.length_bytes, Nat.min_eq_left hle]
    show (old.receive _ _).bytes.drop rdmaHeaderSize.toNat
      = chunk.body.bytes.take len.toNat ++ (old.bytes.drop rdmaHeaderSize.toNat).drop
        (chunk.body.bytes.take len.toNat).length
    rw [hbytes, List.drop_left' (ChunkHeader.length_store order chunk.header), List.drop_drop,
      hpayload]

/-- The `chunk_len` of a received frame, in the receiver's byte order. -/
theorem chunkLen_load_receive (order order' : ByteOrder) (old : ChunkMemory) (chunk : RdmaChunk)
    {len : UInt32} (hlen : len ≤ rdmaBodySize) :
    (load order' (old.receive (chunk.store order) (chunk.post len).byteLen.toNat)).header.chunkLen
      = loadWord order' (storeWord order chunk.header.chunkLen) := by
  show loadWord order' (((old.receive _ _).bytes.drop 5).take 4) = _
  rw [bytes_receive order old chunk hlen, (ChunkHeader.drop_store order chunk.header _).2.1]

/-- The reading of chunks in memory, which loses nothing. -/
def equivChunk (order : ByteOrder) : ChunkMemory ≃ RdmaChunk where
  toFun := load order
  invFun := RdmaChunk.store order
  left_inv := store_load order
  right_inv := load_store order

end ChunkMemory

/-! ### Frames -/

/-- **A frame arrives as it was sent, or is refused.** Chunks in memory are read one to one. When a
sender posts a chunk with its `chunk_len`, as `rdma_send_msg` does, then the receiver reads what the
sender wrote, over what its own chunk held, if both hosts store words alike; and if they do not,
`handle_recv_event` aborts on the frame, whatever it is and whatever the receiver's chunk held. -/
theorem frame_through_memory (sender receiver : ByteOrder) (chunk : RdmaChunk) (old : ChunkMemory)
    (s : WorkState ChunkMemory) (hpos : chunk.header.chunkLen ≠ 0)
    (hlen : chunk.header.chunkLen ≤ rdmaBodySize) :
    Function.Bijective (ChunkMemory.load receiver) ∧
      let frame := chunk.post chunk.header.chunkLen
      let landed := old.receive (chunk.store sender) frame.byteLen.toNat
      (receiver = sender → landed.load receiver = (old.load receiver).land frame) ∧
        (receiver ≠ sender →
          s.lookupSection (ChunkMemory.load receiver) frame.byteLen landed = .error .abort) := by
  refine ⟨(ChunkMemory.equivChunk receiver).bijective, ?_, fun horder => ?_⟩
  · rintro rfl
    exact ChunkMemory.load_receive receiver old chunk hlen
  · have hlt : chunk.header.chunkLen.toNat < 2 ^ 16 := by
      have hle := UInt32.le_iff_toNat_le.mp hlen
      rw [toNat_rdmaBodySize] at hle
      omega
    have hne := loadWord_storeWord_ne horder hpos hlt
    unfold WorkState.lookupSection
    rw [if_pos]
    rw [ChunkMemory.chunkLen_load_receive sender receiver old chunk hlen]
    exact fun heq => hne ((UInt32.add_left_inj _).mp heq)

/-- A frame of one byte between hosts of different byte orders. -/
theorem frame_through_memory_oneByte :
    (WorkState.start (χ := ChunkMemory)).lookupSection (ChunkMemory.load .big)
      ((RdmaChunk.mk ⟨0, 0, 1, 1, 0, 1⟩ RdmaChunk.blank.body).post 1).byteLen
      ((RdmaChunk.blank.store .big).receive
        ((RdmaChunk.mk ⟨0, 0, 1, 1, 0, 1⟩ RdmaChunk.blank.body).store .little)
        ((RdmaChunk.mk ⟨0, 0, 1, 1, 0, 1⟩ RdmaChunk.blank.body).post 1).byteLen.toNat)
      = .error .abort :=
  (frame_through_memory .little .big _ (RdmaChunk.blank.store .big) .start (by decide)
    (by decide)).2.2 (by decide)

end SparkRdma
