import SparkRdma.Foundations.Machine

/-! # Chunks and frames

The fixed layout of a chunk of registered memory: a packed header of six fields followed by a body,
together `RDMA_CHUNK_SIZE` bytes. A *frame* is what one posted send puts on the wire: the header and
the first bytes of the body. Landing a frame in a receiver's chunk overwrites its header and the
first bytes of its body, and leaves the stale bytes behind them. -/

namespace SparkRdma

open Interleaving

/-- `RDMA_CHUNK_SIZE`. -/
def rdmaChunkSize : UInt32 := 64 * 1024

/-- `RDMA_HEADER_SIZE`: the size of the packed `struct rdma_chunk_header`, one byte and five
words. -/
def rdmaHeaderSize : UInt32 := 1 + 5 * 4

/-- `RDMA_BODY_SIZE`. -/
def rdmaBodySize : UInt32 := rdmaChunkSize - rdmaHeaderSize

@[simp] theorem toNat_rdmaBodySize : rdmaBodySize.toNat = 65515 := rfl

/-- `struct rdma_chunk_header`. -/
structure ChunkHeader where
  /-- Always zero in this version. -/
  flags : UInt8
  /-- The position of the chunk in its message. -/
  chunkId : UInt32
  /-- The number of message bytes in the chunk's body. -/
  chunkLen : UInt32
  /-- The number of chunks of the message. -/
  chunkNum : UInt32
  /-- The number of the message on its transport. -/
  dataId : UInt32
  /-- The length of the message. -/
  dataLen : UInt32
  deriving DecidableEq, Repr

/-- The `body` array of a chunk: exactly `RDMA_BODY_SIZE` bytes. -/
structure Body where
  /-- The bytes, in order. -/
  bytes : List UInt8
  /-- There are `RDMA_BODY_SIZE` of them. -/
  length_bytes : bytes.length = rdmaBodySize.toNat

/-- The first `RDMA_CHUNK_SIZE` bytes of `struct rdma_chunk`, which are what the adapter reads and
writes. -/
structure RdmaChunk where
  /-- The packed header. -/
  header : ChunkHeader
  /-- The body behind it. -/
  body : Body

/-- A chunk of zeros. -/
def RdmaChunk.blank : RdmaChunk :=
  ⟨⟨0, 0, 0, 0, 0, 0⟩, ⟨List.replicate rdmaBodySize.toNat 0, List.length_replicate⟩⟩

/-- What one posted send puts on the wire. -/
@[ext] structure Frame where
  /-- The header of the posted chunk. -/
  header : ChunkHeader
  /-- The bytes of its body that the posted length covers. -/
  payload : List UInt8
  /-- The adapter reads no further than the body. -/
  length_payload : payload.length ≤ rdmaBodySize.toNat
  /-- The length of the posted scatter entry, and so the receiver's `byte_len`. -/
  byteLen : UInt32

/-- `memcpy(body + off, src, n)`, where `src` lists the bytes from the source pointer to the end of
its object: out of bounds when either object is left. -/
def Body.memcpy (body : Body) (off : ℕ) (src : List UInt8) (n : ℕ) : Except CFault Body :=
  if h : off + n ≤ rdmaBodySize.toNat ∧ n ≤ src.length then
    .ok ⟨body.bytes.take off ++ src.take n ++ body.bytes.drop (off + n), by
      have := body.length_bytes
      simp only [List.length_append, List.length_take, List.length_drop]
      omega⟩
  else .error .outOfBounds

/-- The frame `rdma_transport_send` posts for a chunk and `send_wc->len`. -/
def RdmaChunk.post (chunk : RdmaChunk) (len : UInt32) : Frame where
  header := chunk.header
  payload := chunk.body.bytes.take len.toNat
  length_payload := by
    rw [← chunk.body.length_bytes]
    exact List.length_take_le' ..
  byteLen := len + rdmaHeaderSize

/-- The receiver's chunk after the adapter has written a frame into it. -/
def RdmaChunk.land (chunk : RdmaChunk) (frame : Frame) : RdmaChunk where
  header := frame.header
  body := ⟨frame.payload ++ chunk.body.bytes.drop frame.payload.length, by
    have h₁ := chunk.body.length_bytes
    have h₂ := frame.length_payload
    simp only [List.length_append, List.length_drop]
    omega⟩

@[simp] theorem RdmaChunk.header_land (chunk : RdmaChunk) (frame : Frame) :
    (chunk.land frame).header = frame.header := rfl

/-- The bytes of a landed frame are the first ones of the chunk's body. -/
@[simp] theorem RdmaChunk.take_body_land (chunk : RdmaChunk) (frame : Frame) :
    (chunk.land frame).body.bytes.take frame.payload.length = frame.payload := by
  simp [RdmaChunk.land]

/-- A copy that stays inside both objects. -/
theorem Body.memcpy_ok (body : Body) (off : ℕ) (src : List UInt8) (n : ℕ)
    (hdst : off + n ≤ rdmaBodySize.toNat) (hsrc : n ≤ src.length) :
    ∃ body', body.memcpy off src n = .ok body' ∧
      body'.bytes = body.bytes.take off ++ src.take n ++ body.bytes.drop (off + n) := by
  unfold Body.memcpy
  rw [dif_pos ⟨hdst, hsrc⟩]
  exact ⟨_, rfl, rfl⟩

end SparkRdma
