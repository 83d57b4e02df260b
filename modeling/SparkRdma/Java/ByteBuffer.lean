import SparkRdma.Wire.Segmentation

/-! # The JNI entry points

`io_rdma_RdmaChannel.c`: the two native methods fetch the bytes of a `ByteBuffer` and hand them to
`send_msg` or `send_msg_with_header`. A direct buffer is read through the address
`GetDirectBufferAddress` gives, any other one is copied out of `array()`.

* **`sendHeader`**, **`sendHeaderWithBody`** — what each of them passes on, if it gets that far.
* **`JniCall.meant`** — what it should: the readable bytes of its buffers.
* **`JniCall.run_eq_iff`** — exactly when the two agree. The direct path starts at index 0 whatever
  the position, the other one leaves `arrayOffset()` out, and `sendHeader` sets its `len` on the
  second path only. -/

namespace SparkRdma

open Interleaving

/-! ### Buffers -/

/-- The two kinds of `ByteBuffer`. -/
inductive BufferKind
  /-- Memory outside the heap of the JVM. -/
  | direct
  /-- A range of an array, which starts at `arrayOffset()`. -/
  | heap (arrayOffset : ℕ)
  deriving DecidableEq, Repr

/-- Where index 0 of the buffer is in its memory. -/
def BufferKind.base : BufferKind → ℕ
  | direct => 0
  | heap arrayOffset => arrayOffset

/-- A `java.nio.ByteBuffer`. -/
structure ByteBuffer where
  /-- Its kind. -/
  kind : BufferKind
  /-- The bytes from index 0 of a direct buffer on, or `array()`. -/
  memory : List UInt8
  /-- `position()`. -/
  position : ℕ
  /-- `limit()`. -/
  limit : ℕ
  /-- The position is at most the limit. -/
  position_le : position ≤ limit
  /-- What is below the limit is in the memory. -/
  limit_le : kind.base + limit ≤ memory.length
  /-- Sizes are of type `int`. -/
  length_lt : memory.length < 2 ^ 31

/-- `remaining()`. -/
def ByteBuffer.remaining (buf : ByteBuffer) : ℕ := buf.limit - buf.position

/-- An argument of the native methods: a buffer, with the number of its bytes to send. -/
structure JavaBuffer where
  /-- The buffer. -/
  buf : ByteBuffer
  /-- The number of bytes. -/
  length : ℕ
  /-- There are so many. -/
  length_le : length ≤ buf.remaining

namespace JavaBuffer

/-- The remaining bytes of a buffer end within its memory. -/
theorem bound (b : JavaBuffer) :
    b.buf.kind.base + b.buf.position + b.length ≤ b.buf.memory.length := by
  have h₁ := b.length_le
  have h₂ := b.buf.position_le
  have h₃ := b.buf.limit_le
  unfold ByteBuffer.remaining at h₁
  omega

/-- The number fits an `int`. -/
theorem length_lt (b : JavaBuffer) : b.length < 2 ^ 31 := by
  have h₁ := b.bound
  have h₂ := b.buf.length_lt
  omega

/-- The readable bytes: `length` of them, from the position on. -/
def readable (b : JavaBuffer) : CBuffer where
  bytes := (b.buf.memory.drop (b.buf.kind.base + b.buf.position)).take b.length
  length_lt := by
    have h := b.length_lt
    rw [List.length_take]
    omega

end JavaBuffer

/-! ### The code -/

/-- What the lookups of the class and of its two methods answer: whether they are not NULL. -/
structure Lookups where
  /-- `FindClass(env, "java/nio/ByteBuffer")`. -/
  findClass : Bool
  /-- `GetMethodID` for `array`. -/
  array : Bool
  /-- `GetMethodID` for `position`. -/
  position : Bool

/-- The three of them, each behind a check that returns. -/
def Lookups.found (l : Lookups) : Bool := l.findClass && l.array && l.position

/-- What happens when a buffer is copied out of its array. -/
structure CopyAnswers where
  /-- Whether the call of `array()` gives an array. -/
  array : Bool
  /-- What `malloc` returns: a block of that size with whatever is in it, or NULL. -/
  malloc : (size : ℕ) → Option { block : List UInt8 // block.length = size }

/-- The block `malloc(size)` returns. -/
def CopyAnswers.block (answers : CopyAnswers) (size : ℕ) : Option (List UInt8) :=
  (answers.malloc size).map Subtype.val

/-- `GetDirectBufferAddress`: the bytes from the address on, or NULL. -/
def getDirectBufferAddress (buf : ByteBuffer) : Option (List UInt8) :=
  match buf.kind with
  | .direct => some buf.memory
  | .heap _ => none

/-- `GetByteArrayRegion`. Out of range it throws and leaves the block as it was. A NULL pointer has
no bytes behind it. -/
def getByteArrayRegion (array : List UInt8) (start len : Int32) (block : Option (List UInt8)) :
    Except CFault (List UInt8) :=
  if start.toInt < 0 ∨ len.toInt < 0 ∨ (array.length : ℤ) < start.toInt + len.toInt then
    .ok (block.getD [])
  else
    let region := (array.drop start.toInt.toNat).take len.toInt.toNat
    match block with
    | none => if region = [] then .ok [] else .error .nullDeref
    | some block =>
        if region.length ≤ block.length then .ok (region ++ block.drop region.length)
        else .error .outOfBounds

/-- The second path to the bytes: `array()`, `position()`, `malloc(len)` and `GetByteArrayRegion`.
It is `none` when `array()` gives NULL and the method returns. -/
def copyArray (buf : ByteBuffer) (len : Int32) (answers : CopyAnswers) :
    Except CFault (Option (List UInt8)) :=
  if answers.array then do
    let pos := Int32.ofNat buf.position
    let msg ← getByteArrayRegion buf.memory pos len (answers.block len.toInt64.toUInt64.toNat)
    return some msg
  else return none

/-- A pointer and a length are passed as an argument. The callee reads as many bytes. -/
def passBuffer (bytes : List UInt8) (len : UInt32) : Except CFault CBuffer :=
  if h : len.toNat ≤ bytes.length then
    .ok ⟨bytes.take len.toNat, by rw [List.length_take, min_eq_left h]; exact len.toNat_lt⟩
  else .error .outOfBounds

/-- `Java_io_rdma_RdmaChannel_sendHeader`: what it passes to `send_msg`, or `none` when it returns
before. `stack` is what the variable `len` holds at the start. -/
def sendHeader (lookups : Lookups) (jmsg : JavaBuffer) (answers : CopyAnswers) (stack : Int32) :
    Except CFault (Option SendCall) :=
  let jlen := Int32.ofNat jmsg.length
  match getDirectBufferAddress jmsg.buf with
  | some msg => do
      -- `len` is only assigned on the other path
      let msg ← passBuffer msg stack.toUInt32
      return some (.sendMsg msg)
  | none =>
      if lookups.found then do
        let len := jlen
        match ← copyArray jmsg.buf len answers with
        | none => return none
        | some msg =>
            let msg ← passBuffer msg len.toUInt32
            return some (.sendMsg msg)
      else return none

/-- The bytes of one argument of `sendHeaderWithBody`, by either path. -/
def bufferBytes (buf : ByteBuffer) (len : Int32) (answers : CopyAnswers) :
    Except CFault (Option (List UInt8)) :=
  match getDirectBufferAddress buf with
  | some address => .ok (some address)
  | none => copyArray buf len answers

/-- `Java_io_rdma_RdmaChannel_sendHeaderWithBody`: what it passes to `send_msg_with_header`. -/
def sendHeaderWithBody (lookups : Lookups) (jheader jbody : JavaBuffer)
    (headerAnswers bodyAnswers : CopyAnswers) : Except CFault (Option SendCall) :=
  let hlen := Int32.ofNat jheader.length
  -- `jblen` is a `jlong`, `blen` an `int`
  let blen := (Int64.ofNat jbody.length).toInt32
  if lookups.found then do
    match ← bufferBytes jheader.buf hlen headerAnswers with
    | none => return none
    | some header =>
        match ← bufferBytes jbody.buf blen bodyAnswers with
        | none => return none
        | some body =>
            let header ← passBuffer header hlen.toUInt32
            let body ← passBuffer body blen.toUInt32
            return some (.sendMsgWithHeader header body)
  else return none

/-- A call of one of the two methods. -/
inductive JniCall
  /-- `sendHeader`. -/
  | sendHeader (msg : JavaBuffer) (answers : CopyAnswers) (stack : Int32)
  /-- `sendHeaderWithBody`. -/
  | sendHeaderWithBody (header body : JavaBuffer) (headerAnswers bodyAnswers : CopyAnswers)

namespace JniCall

/-- What the call passes on. -/
def run (lookups : Lookups) : JniCall → Except CFault (Option SendCall)
  | sendHeader msg answers stack => SparkRdma.sendHeader lookups msg answers stack
  | sendHeaderWithBody header body headerAnswers bodyAnswers =>
      SparkRdma.sendHeaderWithBody lookups header body headerAnswers bodyAnswers

/-- What it should pass on. -/
def meant : JniCall → SendCall
  | sendHeader msg _ _ => .sendMsg msg.readable
  | sendHeaderWithBody header body _ _ => .sendMsgWithHeader header.readable body.readable

end JniCall

/-! ### What each path reads -/

namespace JavaBuffer

variable {b : JavaBuffer} {answers : CopyAnswers}

/-- Where the code starts reading: at index 0 of a direct buffer, at `position()` of an array. -/
def start (b : JavaBuffer) : ℕ :=
  match b.buf.kind with
  | .direct => 0
  | .heap _ => b.buf.position

/-- How far that is before the first readable byte. -/
def skipped (b : JavaBuffer) : ℕ :=
  match b.buf.kind with
  | .direct => b.buf.position
  | .heap arrayOffset => arrayOffset

/-- The two together are where the readable bytes start. -/
theorem start_add_skipped (b : JavaBuffer) :
    b.start + b.skipped = b.buf.kind.base + b.buf.position := by
  unfold start skipped BufferKind.base
  cases b.buf.kind with
  | direct => rfl
  | heap arrayOffset => exact Nat.add_comm ..

/-- The bytes read. -/
def copied (b : JavaBuffer) : List UInt8 := (b.buf.memory.drop b.start).take b.length

/-- The memory holds the same bytes in both places. -/
def Unshifted (b : JavaBuffer) : Prop :=
  ∀ i < b.length, b.buf.memory[b.start + i]? = b.buf.memory[b.start + b.skipped + i]?

/-- What the copy of a buffer on the heap needs: an array, and a block unless it is empty. -/
def Fetched (b : JavaBuffer) (answers : CopyAnswers) : Prop :=
  match b.buf.kind with
  | .direct => True
  | .heap _ => answers.array = true ∧ (b.length = 0 ∨ (answers.malloc b.length).isSome)

/-- Behind the start there are as many bytes as the code reads. -/
theorem length_le_drop (b : JavaBuffer) : b.length ≤ (b.buf.memory.drop b.start).length := by
  have h₁ := b.bound
  have h₂ := b.start_add_skipped
  rw [List.length_drop]
  omega

@[simp] theorem length_copied (b : JavaBuffer) : b.copied.length = b.length := by
  rw [copied, List.length_take, min_eq_left b.length_le_drop]

@[simp] theorem length_readable (b : JavaBuffer) : b.readable.bytes.length = b.length := by
  have h := b.bound
  rw [readable, List.length_take, List.length_drop]
  omega

/-- **What is read is what should be** if and only if the memory holds the same bytes there. -/
theorem copied_eq_iff : b.copied = b.readable.bytes ↔ b.Unshifted := by
  show (b.buf.memory.drop b.start).take b.length =
    (b.buf.memory.drop (b.buf.kind.base + b.buf.position)).take b.length ↔ _
  rw [← b.start_add_skipped, List.ext_getElem?_iff]
  refine forall_congr' fun i => ?_
  rw [List.getElem?_take, List.getElem?_take, List.getElem?_drop, List.getElem?_drop]
  by_cases hi : i < b.length
  · rw [if_pos hi, if_pos hi]
    exact (imp_iff_right hi).symm
  · simp [hi]

/-- A path that skips nothing reads what it should. -/
theorem unshifted_of_skipped_eq_zero (h : b.skipped = 0) : b.Unshifted := by
  intro i _
  rw [h, Nat.add_zero]

/-- In a memory without repetition there is no other way, but to send nothing. -/
theorem unshifted_iff_of_nodup (hnodup : b.buf.memory.Nodup) :
    b.Unshifted ↔ b.length = 0 ∨ b.skipped = 0 := by
  constructor
  · intro h
    refine or_iff_not_imp_left.mpr fun hpos => ?_
    have hbound := b.bound
    have hstart := b.start_add_skipped
    have hlt : b.start < b.buf.memory.length := by omega
    have heq := (List.getElem?_inj hlt hnodup).mp (h 0 (by omega))
    omega
  · rintro (h | h)
    · intro i hi
      omega
    · exact unshifted_of_skipped_eq_zero h

end JavaBuffer

/-- The code has a block unless `malloc` returns NULL. -/
theorem CopyAnswers.isSome_block (answers : CopyAnswers) (size : ℕ) :
    (answers.block size).isSome = (answers.malloc size).isSome := Option.isSome_map

/-- A block is as long as it was asked to be. -/
theorem CopyAnswers.length_of_block {answers : CopyAnswers} {size : ℕ} {block : List UInt8}
    (h : answers.block size = some block) : block.length = size := by
  obtain ⟨b, -, rfl⟩ := Option.map_eq_some_iff.mp h
  exact b.property

/-- **`GetByteArrayRegion` for a range of the array**: it fills a block of that length, and fails
only if there is none. -/
theorem getByteArrayRegion_eq_ok {array msg : List UInt8} {start len : ℕ}
    {block : Option (List UInt8)} (hrange : start + len ≤ array.length)
    (hlt : array.length < 2 ^ 31) (hblock : ∀ {l}, block = some l → l.length = len) :
    getByteArrayRegion array (Int32.ofNat start) (Int32.ofNat len) block = .ok msg ↔
      (len = 0 ∨ block.isSome) ∧ msg = (array.drop start).take len := by
  have hstart : (Int32.ofNat start).toInt = start := Int32.toInt_ofNat_of_lt (by omega)
  have hlen : (Int32.ofNat len).toInt = len := Int32.toInt_ofNat_of_lt (by omega)
  have hinside : ¬ ((start : ℤ) < 0 ∨ (len : ℤ) < 0 ∨ (array.length : ℤ) < start + len) := by
    omega
  have hregion : ((array.drop start).take len).length = len := by
    rw [List.length_take, List.length_drop]
    omega
  rw [getByteArrayRegion, hstart, hlen, if_neg hinside]
  simp only [Int.toNat_natCast]
  rcases block with _ | block
  · have hempty : (array.drop start).take len = [] ↔ len = 0 := by
      rw [← List.length_eq_zero_iff, hregion]
    by_cases h0 : len = 0
    · simp [h0, eq_comm]
    · simp [mt hempty.mp h0, h0]
  · have hlength := hblock rfl
    have hrest : block.drop len = [] := List.drop_of_length_le hlength.le
    simp only [hregion, hlength, le_refl, if_true, hrest, List.append_nil]
    simp [eq_comm]

/-- Passing on a pointer and a length. -/
theorem passBuffer_eq_ok {bytes : List UInt8} {len : UInt32} {buf : CBuffer} :
    passBuffer bytes len = .ok buf ↔
      len.toNat ≤ bytes.length ∧ bytes.take len.toNat = buf.bytes := by
  unfold passBuffer
  obtain ⟨bytes', hlt⟩ := buf
  split <;> simp [*]

/-- A computation that ends well, step by step. -/
theorem bind_eq_ok {ε : Type*} {α β : Type} {x : Except ε α} {f : α → Except ε β} {b : β} :
    (x >>= f) = .ok b ↔ ∃ a, x = .ok a ∧ f a = .ok b := by
  cases x <;> simp

namespace JavaBuffer

variable {b : JavaBuffer} {answers : CopyAnswers} {msg : List UInt8} {buf : CBuffer}

/-- `(size_t) len`. -/
theorem toNat_size (b : JavaBuffer) :
    (Int32.ofNat b.length).toInt64.toUInt64.toNat = b.length := by
  have h := b.length_lt
  have hmax : (b.length : ℤ) ≤ Int32.maxValue.toInt := by
    rw [Int32.toInt_maxValue]
    omega
  rw [Int32.toInt64_ofNat' hmax, Int64.toUInt64_ofNat', UInt64.toNat_ofNat']
  omega

/-- `(uint32_t) len`. -/
theorem toNat_len (b : JavaBuffer) : (Int32.ofNat b.length).toUInt32.toNat = b.length := by
  have h := b.length_lt
  rw [Int32.toUInt32_ofNat', UInt32.toNat_ofNat']
  omega

/-- The copy out of an array, which always contains the range: it fetches the bytes, if there is
somewhere to put them. -/
theorem copyArray_eq_ok {arrayOffset : ℕ} (hkind : b.buf.kind = .heap arrayOffset) :
    copyArray b.buf (Int32.ofNat b.length) answers = .ok (some msg) ↔
      b.Fetched answers ∧ msg = b.copied := by
  have hbound : b.buf.position + b.length ≤ b.buf.memory.length := by
    have := b.bound
    omega
  have hregion : getByteArrayRegion b.buf.memory (Int32.ofNat b.buf.position)
      (Int32.ofNat b.length) (answers.block b.length) = .ok msg ↔
        (b.length = 0 ∨ (answers.block b.length).isSome) ∧
          msg = (b.buf.memory.drop b.buf.position).take b.length :=
    getByteArrayRegion_eq_ok hbound b.buf.length_lt CopyAnswers.length_of_block
  rw [answers.isSome_block] at hregion
  rw [copyArray, Fetched, hkind, toNat_size, copied, start, hkind]
  rcases answers.array with _ | _
  · simp [pure, Except.pure]
  · simp only [if_true, bind_eq_ok]
    simp [pure, Except.pure, hregion]

/-- **Both paths**: the bytes are fetched and passed on. -/
theorem bufferBytes_eq_ok :
    (∃ bytes, bufferBytes b.buf (Int32.ofNat b.length) answers = .ok (some bytes) ∧
      passBuffer bytes (Int32.ofNat b.length).toUInt32 = .ok buf) ↔
      b.Fetched answers ∧ b.copied = buf.bytes := by
  simp only [passBuffer_eq_ok, toNat_len, bufferBytes, getDirectBufferAddress]
  rcases hkind : b.buf.kind with _ | arrayOffset
  · have hle := b.length_le_drop
    simp only [start, hkind, List.drop_zero] at hle
    simp [Fetched, copied, start, hkind, hle]
  · simp only [copyArray_eq_ok hkind]
    constructor
    · rintro ⟨bytes, ⟨hfetched, rfl⟩, -, htake⟩
      exact ⟨hfetched, by rwa [List.take_of_length_le b.length_copied.le] at htake⟩
    · rintro ⟨hfetched, hcopied⟩
      refine ⟨b.copied, ⟨hfetched, rfl⟩, b.length_copied.ge, ?_⟩
      rwa [List.take_of_length_le b.length_copied.le]

end JavaBuffer

/-! ### Exactly when the readable bytes are sent -/

/-- The condition: the lookups and the copies of buffers on the heap succeed, the place where the
code starts reading shows the bytes it should read, and `sendHeader` finds the length of a direct
buffer in a variable it never sets. -/
def JniCall.SendsReadable (lookups : Lookups) : JniCall → Prop
  | sendHeader msg answers stack =>
      match msg.buf.kind with
      | .direct => stack.toUInt32.toNat = msg.length ∧ msg.Unshifted
      | .heap _ => lookups.found = true ∧ msg.Fetched answers ∧ msg.Unshifted
  | sendHeaderWithBody header body headerAnswers bodyAnswers =>
      lookups.found = true ∧ (header.Fetched headerAnswers ∧ header.Unshifted) ∧
        body.Fetched bodyAnswers ∧ body.Unshifted

variable {lookups : Lookups}

/-- `sendHeader` with a direct buffer. -/
theorem sendHeader_direct_iff {msg : JavaBuffer} {answers : CopyAnswers} {stack : Int32}
    (hkind : msg.buf.kind = .direct) :
    sendHeader lookups msg answers stack = .ok (some (.sendMsg msg.readable)) ↔
      stack.toUInt32.toNat = msg.length ∧ msg.Unshifted := by
  have hcopied : msg.copied = msg.buf.memory.take msg.length := by
    rw [JavaBuffer.copied, JavaBuffer.start, hkind, List.drop_zero]
  rw [sendHeader, getDirectBufferAddress, hkind, ← JavaBuffer.copied_eq_iff, hcopied]
  simp only [bind_eq_ok, passBuffer_eq_ok]
  constructor
  · rintro ⟨buf, ⟨hle, htake⟩, heq⟩
    obtain rfl := SendCall.sendMsg.inj (Option.some.inj (Except.ok.inj heq))
    have hlength := congrArg List.length htake
    rw [List.length_take, min_eq_left hle, JavaBuffer.length_readable] at hlength
    exact ⟨hlength, hlength ▸ htake⟩
  · rintro ⟨hlength, htake⟩
    have hbound := msg.bound
    exact ⟨msg.readable, ⟨by omega, hlength ▸ htake⟩, rfl⟩

/-- `sendHeader` with a buffer on the heap. -/
theorem sendHeader_heap_iff {msg : JavaBuffer} {answers : CopyAnswers} {stack : Int32}
    {arrayOffset : ℕ} (hkind : msg.buf.kind = .heap arrayOffset) :
    sendHeader lookups msg answers stack = .ok (some (.sendMsg msg.readable)) ↔
      lookups.found = true ∧ msg.Fetched answers ∧ msg.Unshifted := by
  have hpath : (∃ bytes, bufferBytes msg.buf (Int32.ofNat msg.length) answers = .ok (some bytes) ∧
      passBuffer bytes (Int32.ofNat msg.length).toUInt32 = .ok msg.readable) ↔
      msg.Fetched answers ∧ msg.copied = msg.readable.bytes := JavaBuffer.bufferBytes_eq_ok
  rw [bufferBytes, getDirectBufferAddress, hkind, JavaBuffer.copied_eq_iff] at hpath
  rw [sendHeader, getDirectBufferAddress, hkind, ← hpath]
  rcases lookups.found with _ | _
  · simp [pure, Except.pure]
  · simp only [if_true, true_and, bind_eq_ok]
    constructor
    · rintro ⟨bytes, hbytes, hsend⟩
      rcases bytes with _ | bytes
      · cases hsend
      · obtain ⟨buf, hpass, heq⟩ := bind_eq_ok.mp hsend
        obtain rfl := SendCall.sendMsg.inj (Option.some.inj (Except.ok.inj heq))
        exact ⟨bytes, hbytes, hpass⟩
    · rintro ⟨bytes, hbytes, hpass⟩
      exact ⟨some bytes, hbytes, bind_eq_ok.mpr ⟨msg.readable, hpass, rfl⟩⟩

/-- `sendHeaderWithBody`. -/
theorem sendHeaderWithBody_iff {header body : JavaBuffer}
    {headerAnswers bodyAnswers : CopyAnswers} :
    sendHeaderWithBody lookups header body headerAnswers bodyAnswers =
        .ok (some (.sendMsgWithHeader header.readable body.readable)) ↔
      lookups.found = true ∧ (header.Fetched headerAnswers ∧ header.Unshifted) ∧
        body.Fetched bodyAnswers ∧ body.Unshifted := by
  rw [← JavaBuffer.copied_eq_iff, ← JavaBuffer.copied_eq_iff, ← JavaBuffer.bufferBytes_eq_ok,
    ← JavaBuffer.bufferBytes_eq_ok, sendHeaderWithBody, Int64.toInt32_ofNat']
  rcases lookups.found with _ | _
  · simp [pure, Except.pure]
  · simp only [if_true, true_and, bind_eq_ok]
    constructor
    · rintro ⟨hbytes, hheader, hsend⟩
      rcases hbytes with _ | hbytes
      · cases hsend
      · obtain ⟨bbytes, hbody, hsend⟩ := bind_eq_ok.mp hsend
        rcases bbytes with _ | bbytes
        · cases hsend
        · obtain ⟨hbuf, hpass, hsend⟩ := bind_eq_ok.mp hsend
          obtain ⟨bbuf, hpass', heq⟩ := bind_eq_ok.mp hsend
          obtain ⟨rfl, rfl⟩ :=
            SendCall.sendMsgWithHeader.inj (Option.some.inj (Except.ok.inj heq))
          exact ⟨⟨hbytes, hheader, hpass⟩, bbytes, hbody, hpass'⟩
    · rintro ⟨⟨hbytes, hheader, hpass⟩, bbytes, hbody, hpass'⟩
      refine ⟨some hbytes, hheader, bind_eq_ok.mpr ⟨some bbytes, hbody, ?_⟩⟩
      exact bind_eq_ok.mpr ⟨_, hpass, bind_eq_ok.mpr ⟨_, hpass', rfl⟩⟩

/-- **Exactly when the readable bytes are sent.** For every call of the two methods, with buffers of
either kind, any position and array offset and any length that is readable, whatever the lookups,
`array()` and `malloc` answer. -/
theorem JniCall.run_eq_iff (lookups : Lookups) (call : JniCall) :
    call.run lookups = .ok (some call.meant) ↔ call.SendsReadable lookups := by
  cases call with
  | sendHeader msg answers stack =>
    rcases hkind : msg.buf.kind with _ | arrayOffset
    · simpa [run, meant, SendsReadable, hkind] using sendHeader_direct_iff hkind
    · simpa [run, meant, SendsReadable, hkind] using sendHeader_heap_iff hkind
  | sendHeaderWithBody header body headerAnswers bodyAnswers => exact sendHeaderWithBody_iff

/-- A slice of an array: one byte, at array offset 1. -/
def slicedBuffer : JavaBuffer where
  buf :=
    { kind := .heap 1
      memory := [7, 8]
      position := 0
      limit := 1
      position_le := by decide
      limit_le := by decide
      length_lt := by decide }
  length := 1
  length_le := by decide

/-- **A slice is sent from the wrong place.** All lookups succeed and `malloc` gives a block: of the
array 7, 8 the buffer's one byte is the 8, and `sendHeader` sends the 7. -/
theorem slice_sent_from_start : ¬ ∀ (lookups : Lookups) (call : JniCall),
    lookups.found = true → (∃ sent, call.run lookups = .ok (some sent)) →
      call.run lookups = .ok (some call.meant) := by
  intro hall
  let answers : CopyAnswers := ⟨true, fun size => some ⟨List.replicate size 0, by simp⟩⟩
  have hrun : (JniCall.sendHeader slicedBuffer answers 0).run ⟨true, true, true⟩ =
      .ok (some (.sendMsg ⟨[7], by decide⟩)) := rfl
  have hmeant := hall ⟨true, true, true⟩ (.sendHeader slicedBuffer answers 0) rfl ⟨_, hrun⟩
  rw [hrun] at hmeant
  have hbytes := congrArg CBuffer.bytes
    (SendCall.sendMsg.inj (Option.some.inj (Except.ok.inj hmeant)))
  exact absurd hbytes (by decide)

end SparkRdma
