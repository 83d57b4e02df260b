import SparkRdma.Connection.Handshake

/-! # The attributes in `exchange_info`

`exchange_info` writes a `struct qp_attr` to a stream socket and reads one, the client first writing
and the server first reading, both through one buffer `tmp`. It tests the results of `read` and
`write` for a negative number only, while both may transfer fewer bytes than they are asked for.

* **`QpRecord.store`**, **`QpRecord.load`** — the assignments to and from the fields of `tmp`.
* **`exchangeInfo`** — the function, on what the two calls return.
* **`remote_not_peers`** — at the end of the stream it succeeds with attributes that are not the
  peer's.
* **`remoteIsPeers_iff`** — the exact condition: a call fails, or what `read` leaves of the fields
  of `tmp` has been there before. -/

namespace SparkRdma

/-! ### The buffer -/

/-- `sizeof(struct qp_attr)`. -/
def sizeofQpAttr : ℕ := 12

/-- The memory of a `struct qp_attr`: `lid` at offset 0, two bytes of padding, `qpn` at offset 4 and
`psn` at offset 8. -/
structure QpRecord where
  /-- The bytes. -/
  bytes : List UInt8
  /-- There are `sizeof(struct qp_attr)` of them. -/
  length_bytes : bytes.length = sizeofQpAttr
  deriving DecidableEq, Repr

/-- A number has as many bytes in network order as are asked for. -/
@[simp] theorem length_networkOrder (k : ℕ) : ∀ n, (networkOrder k n).length = k := by
  induction k with
  | zero => exact fun _ => rfl
  | succ k ih => exact fun n => by rw [networkOrder, List.length_append, ih]; rfl

namespace QpRecord

/-- The assignments of `htons(lid)`, `htonl(qpn)` and `htonl(psn)` to the fields of the buffer. -/
def store (tmp : QpRecord) (attr : QpAttr) : QpRecord where
  bytes := attr.toWire.lid ++ (tmp.bytes.drop 2).take 2 ++ attr.toWire.qpn ++ attr.toWire.psn
  length_bytes := by
    have := tmp.length_bytes
    simp [QpAttr.toWire, sizeofQpAttr] at *
    omega

/-- The fields of the buffer. -/
def wire (tmp : QpRecord) : WireAttr :=
  ⟨tmp.bytes.take 2, (tmp.bytes.drop 4).take 4, (tmp.bytes.drop 8).take 4⟩

/-- The three values the fields of the buffer stand for. -/
def load (tmp : QpRecord) : QpAttr := .ofWire tmp.wire

/-- `read` into the buffer of the first `n` bytes of the record the peer wrote. -/
def fill (tmp peer : QpRecord) (n : ℕ) : QpRecord where
  bytes := peer.bytes.take n ++ tmp.bytes.drop n
  length_bytes := by
    have := tmp.length_bytes
    have := peer.length_bytes
    simp
    omega

end QpRecord

/-! ### The code -/

/-- What `read` or `write` returns for a record: -1, or the number of bytes transferred, which is
anything from 0 to all. -/
abbrev Transfer := Option (Fin (sizeofQpAttr + 1))

/-- The value returned. -/
def Transfer.ret : Transfer → ℤ
  | none => -1
  | some n => n

/-- The number of bytes transferred. -/
def Transfer.count : Transfer → ℕ
  | none => 0
  | some n => n

/-- What `exchange_info` leaves behind. -/
structure ExchangeResult where
  /-- The value returned. -/
  ret : ℤ
  /-- `*local_qp_attr`. -/
  localAttr : QpAttr
  /-- `*remote_qp_attr`. -/
  remoteAttr : QpAttr
  deriving DecidableEq, Repr

/-- `local_qp_attr` as `exchange_info` fills it in. -/
def localQpAttr (lid : UInt16) (qpNum : UInt32) : QpAttr := ⟨lid, qpNum, 0⟩

/-- `exchange_info` on a socket over which the peer sends `peer`, with the uninitialized buffer
`tmp` and the old contents `remote` of `*remote_qp_attr`. -/
def exchangeInfo (isClient : Bool) (lid : UInt16) (qpNum : UInt32) (tmp peer : QpRecord)
    (read write : Transfer) (remote : QpAttr) : ExchangeResult :=
  let localAttr := localQpAttr lid qpNum
  if isClient then
    let tmp := tmp.store localAttr
    if write.ret < 0 then ⟨-1, localAttr, remote⟩
    else
      let tmp := tmp.fill peer read.count
      if read.ret < 0 then ⟨-1, localAttr, remote⟩ else ⟨0, localAttr, tmp.load⟩
  else
    let tmp := tmp.fill peer read.count
    if read.ret < 0 then ⟨-1, localAttr, remote⟩
    else
      let remote := tmp.load
      -- The record of the own attributes, which is written from the same buffer.
      if write.ret < 0 then ⟨-1, localAttr, remote⟩ else ⟨0, localAttr, remote⟩

/-- **Success means the peer's attributes.** `exchange_info` returns 0 only with `remote_qp_attr` as
the peer had it in its own `local_qp_attr`, from which it stored the record it sends in
`peerTmp`. -/
def RemoteIsPeers (isClient : Bool) (lid : UInt16) (qpNum : UInt32) (tmp peerTmp : QpRecord)
    (peerAttr : QpAttr) (read write : Transfer) (remote : QpAttr) : Prop :=
  let result := exchangeInfo isClient lid qpNum tmp (peerTmp.store peerAttr) read write remote
  result.ret = 0 → result.remoteAttr = peerAttr

/-- A buffer of zeros. -/
def QpRecord.zero : QpRecord := ⟨List.replicate 12 0, rfl⟩

/-- **The peer closes the connection** before it has written: `read` returns 0, and a client takes
its own attributes for the peer's. -/
theorem remote_not_peers :
    ¬ ∀ isClient lid qpNum tmp peerTmp peerAttr read write remote,
      RemoteIsPeers isClient lid qpNum tmp peerTmp peerAttr read write remote := by
  intro h
  have hremote := h true 1 17 .zero .zero ⟨2, 18, 0⟩ (some 0) (some 12) ⟨0, 0, 0⟩ (by decide)
  exact absurd hremote (by decide)

/-! ### The fields of the buffer -/

/-- The byte at this offset belongs to a field. -/
def InField (i : ℕ) : Prop := i < 2 ∨ 4 ≤ i ∧ i < 12

/-- Two slices agree when the bytes in their range do. -/
theorem take_drop_eq_iff {α : Type*} (l l' : List α) (a n : ℕ) :
    (l.drop a).take n = (l'.drop a).take n ↔ ∀ i, a ≤ i → i < a + n → l[i]? = l'[i]? := by
  constructor
  · intro h i hle hlt
    have hget := congrArg (·[i - a]?) h
    simpa [List.getElem?_take, List.getElem?_drop, show i - a < n by omega,
      show a + (i - a) = i by omega] using hget
  · intro h
    apply List.ext_getElem?
    intro i
    rw [List.getElem?_take, List.getElem?_take]
    split
    · rw [List.getElem?_drop, List.getElem?_drop]
      exact h _ (by omega) (by omega)
    · rfl

/-- The number that bytes in network order stand for, one more byte at the end. -/
theorem hostOrder_append (bytes : List UInt8) (b : UInt8) :
    hostOrder (bytes ++ [b]) = 256 * hostOrder bytes + b.toNat := by
  rw [hostOrder, List.foldl_append]
  rfl

/-- Bytes in network order are determined by the number they stand for, which has no more of
them. -/
theorem networkOrder_hostOrder (bytes : List UInt8) :
    hostOrder bytes < 256 ^ bytes.length ∧ networkOrder bytes.length (hostOrder bytes) = bytes := by
  induction bytes using List.reverseRecOn with
  | nil => exact ⟨Nat.one_pos, rfl⟩
  | append_singleton bytes b ih =>
    have hb := b.toNat_lt
    -- The last byte is the number modulo 256.
    have hlast : UInt8.ofNat (256 * hostOrder bytes + b.toNat) = b := by
      apply UInt8.toNat_inj.mp
      rw [UInt8.toNat_ofNat']
      omega
    rw [List.length_append, List.length_singleton, hostOrder_append]
    refine ⟨by rw [Nat.pow_succ]; omega, ?_⟩
    rw [networkOrder, show (256 * hostOrder bytes + b.toNat) / 256 = hostOrder bytes by omega, ih.2,
      hlast]

/-- A record on the wire is determined by the attributes it stands for. -/
theorem QpAttr.toWire_ofWire {wire : WireAttr} (hlid : wire.lid.length = 2)
    (hqpn : wire.qpn.length = 4) (hpsn : wire.psn.length = 4) : (ofWire wire).toWire = wire := by
  have hfield : ∀ {bytes : List UInt8} {k : ℕ}, bytes.length = k →
      networkOrder k (hostOrder bytes % 256 ^ k) = bytes := by
    rintro bytes k rfl
    rw [Nat.mod_eq_of_lt (networkOrder_hostOrder bytes).1, (networkOrder_hostOrder bytes).2]
  have hlid := hfield hlid
  have hqpn := hfield hqpn
  have hpsn := hfield hpsn
  rw [toWire, ofWire, UInt16.toNat_ofNat', UInt32.toNat_ofNat', UInt32.toNat_ofNat']
  exact congr (congrArg₂ WireAttr.mk hlid hqpn) hpsn

namespace QpRecord

/-- The fields hold the attributes that were stored. -/
theorem wire_store (tmp : QpRecord) (attr : QpAttr) : (tmp.store attr).wire = attr.toWire := by
  have hlid : attr.toWire.lid.length = 2 := length_networkOrder 2 _
  have hqpn : attr.toWire.qpn.length = 4 := length_networkOrder 4 _
  have hpsn : attr.toWire.psn.length = 4 := length_networkOrder 4 _
  have hpad : ((tmp.bytes.drop 2).take 2).length = 2 := by
    rw [List.length_take, List.length_drop, tmp.length_bytes]
    rfl
  have hbytes : (tmp.store attr).bytes = attr.toWire.lid ++ (tmp.bytes.drop 2).take 2
      ++ attr.toWire.qpn ++ attr.toWire.psn := rfl
  have htake : (tmp.store attr).bytes.take 2 = attr.toWire.lid := by
    rw [hbytes, List.append_assoc, List.append_assoc]
    exact List.take_left' hlid
  have hdrop : (tmp.store attr).bytes.drop 4 = attr.toWire.qpn ++ attr.toWire.psn := by
    rw [hbytes, List.append_assoc _ attr.toWire.qpn]
    exact List.drop_left' (by rw [List.length_append, hlid, hpad])
  have hlast : (tmp.store attr).bytes.drop 8 = attr.toWire.psn := by
    rw [hbytes]
    exact List.drop_left' (by simp only [List.length_append, hlid, hpad, hqpn])
  rw [wire, htake, hdrop, hlast, List.take_left' hqpn, List.take_of_length_le hpsn.le]

/-- The fields agree when their bytes do. -/
theorem wire_eq_iff {tmp peer : QpRecord} :
    tmp.wire = peer.wire ↔ ∀ i, InField i → tmp.bytes[i]? = peer.bytes[i]? := by
  have hlid := take_drop_eq_iff tmp.bytes peer.bytes 0 2
  have hqpn := take_drop_eq_iff tmp.bytes peer.bytes 4 4
  have hpsn := take_drop_eq_iff tmp.bytes peer.bytes 8 4
  rw [List.drop_zero, List.drop_zero] at hlid
  rw [wire, wire, WireAttr.mk.injEq, hlid, hqpn, hpsn]
  constructor
  · -- `InField` is `lid`, or `qpn` and `psn`, which follow each other.
    rintro ⟨hlid, hqpn, hpsn⟩ i hi
    rcases hi with hi | ⟨hle, hlt⟩
    · exact hlid i (Nat.zero_le i) (by omega)
    · by_cases h : i < 8
      · exact hqpn i hle (by omega)
      · exact hpsn i (by omega) (by omega)
  · intro h
    refine ⟨fun i _ hlt => h i (.inl (by omega)), fun i hle hlt => h i (.inr ⟨hle, by omega⟩),
      fun i hle hlt => h i (.inr ⟨by omega, by omega⟩)⟩

/-- What stands in the buffer after a `read`. -/
theorem getElem?_fill (tmp peer : QpRecord) (n i : ℕ) (hn : n ≤ sizeofQpAttr) :
    (tmp.fill peer n).bytes[i]? = if i < n then peer.bytes[i]? else tmp.bytes[i]? := by
  have hlength : (peer.bytes.take n).length = n := by
    rw [List.length_take, peer.length_bytes, Nat.min_eq_left hn]
  rw [fill]
  by_cases hi : i < n
  · rw [if_pos hi, List.getElem?_append_left (hlength.symm ▸ hi), List.getElem?_take_of_lt hi]
  · rw [if_neg hi, List.getElem?_append_right (by omega), hlength, List.getElem?_drop,
      show n + (i - n) = i by omega]

/-- The values of the fields are those of the attributes exactly when their bytes are. -/
theorem load_eq_iff {tmp : QpRecord} {attr : QpAttr} :
    tmp.load = attr ↔ tmp.wire = attr.toWire := by
  constructor
  · rintro rfl
    have hlength := tmp.length_bytes
    rw [sizeofQpAttr] at hlength
    refine (QpAttr.toWire_ofWire ?_ ?_ ?_).symm
    all_goals simp [wire, hlength]
  · intro h
    rw [load, h, QpAttr.ofWire_toWire]

/-- After a `read` the fields hold the peer's attributes if and only if they held the peer's bytes
already where the `read` put none. -/
theorem load_fill_eq_iff (tmp peerTmp : QpRecord) (attr : QpAttr) (n : Fin (sizeofQpAttr + 1)) :
    (tmp.fill (peerTmp.store attr) n).load = attr ↔ ∀ i, InField i → n ≤ i →
      tmp.bytes[i]? = (peerTmp.store attr).bytes[i]? := by
  rw [load_eq_iff, ← wire_store peerTmp attr, wire_eq_iff]
  refine forall₂_congr fun i _ => ?_
  rw [getElem?_fill _ _ _ _ (Nat.le_of_lt_succ n.isLt)]
  by_cases hi : i < n
  · simp [hi]
  · simp [hi, not_lt.mp hi]

end QpRecord

/-! ### When success means the peer's attributes -/

/-- The buffer that `read` is called with: with the own attributes on a client, uninitialized on a
server. -/
def bufferBeforeRead (isClient : Bool) (lid : UInt16) (qpNum : UInt32) (tmp : QpRecord) :
    QpRecord :=
  if isClient then tmp.store (localQpAttr lid qpNum) else tmp

/-- The function fails when one of its calls does. -/
theorem exchangeInfo_ret_of_fails {isClient : Bool} {lid : UInt16} {qpNum : UInt32}
    {tmp peer : QpRecord} {read write : Transfer} {remote : QpAttr}
    (h : read = none ∨ write = none) :
    (exchangeInfo isClient lid qpNum tmp peer read write remote).ret = -1 := by
  have hfails : Transfer.ret none < 0 := by decide
  unfold exchangeInfo
  rcases h with rfl | rfl
  · cases isClient
    · simp [hfails]
    · simp only [if_true, if_pos hfails]
      split <;> rfl
  · cases isClient
    · simp only [Bool.false_eq_true, if_false, if_pos hfails]
      split <;> rfl
    · simp [hfails]

/-- A call that can write and read succeeds, whatever number of bytes the two transfer. -/
theorem exchangeInfo_some (isClient : Bool) (lid : UInt16) (qpNum : UInt32) (tmp peer : QpRecord)
    (n m : Fin (sizeofQpAttr + 1)) (remote : QpAttr) :
    exchangeInfo isClient lid qpNum tmp peer (some n) (some m) remote
      = ⟨0, localQpAttr lid qpNum,
          ((bufferBeforeRead isClient lid qpNum tmp).fill peer n).load⟩ := by
  have hreturns : ∀ k : Fin (sizeofQpAttr + 1), ¬ Transfer.ret (some k) < 0 :=
    fun k => not_lt.mpr (Int.natCast_nonneg k)
  cases isClient <;> simp [exchangeInfo, hreturns, bufferBeforeRead, Transfer.count]

/-- When the record comes whole, `remote_qp_attr` is what the machine of the set-up takes it to
be. -/
theorem exchangeInfo_whole (isClient : Bool) (lid : UInt16) (qpNum : UInt32)
    (tmp peerTmp : QpRecord) (peerAttr : QpAttr) (m : Fin (sizeofQpAttr + 1)) (remote : QpAttr) :
    exchangeInfo isClient lid qpNum tmp (peerTmp.store peerAttr) (some (Fin.last _)) (some m) remote
      = ⟨0, localQpAttr lid qpNum, .ofWire peerAttr.toWire⟩ := by
  have hload : ((bufferBeforeRead isClient lid qpNum tmp).fill (peerTmp.store peerAttr)
      (Fin.last sizeofQpAttr)).load = peerAttr := by
    refine (QpRecord.load_fill_eq_iff _ _ _ _).mpr fun i hi hle => ?_
    rw [Fin.val_last, sizeofQpAttr] at hle
    rcases hi with hi | hi <;> omega
  rw [exchangeInfo_some, hload, QpAttr.ofWire_toWire]

/-- **The exact condition.** On a client and on a server, whatever `read` and `write` return,
success means the peer's attributes if and only if one of the two calls fails, or the fields of the
buffer held the peer's bytes already where `read` put none. A complete `read` leaves no such
place. -/
theorem remoteIsPeers_iff (isClient : Bool) (lid : UInt16) (qpNum : UInt32)
    (tmp peerTmp : QpRecord) (peerAttr : QpAttr) (read write : Transfer) (remote : QpAttr) :
    RemoteIsPeers isClient lid qpNum tmp peerTmp peerAttr read write remote ↔
      read = none ∨ write = none ∨ ∀ i, InField i → read.count ≤ i →
        (bufferBeforeRead isClient lid qpNum tmp).bytes[i]?
          = (peerTmp.store peerAttr).bytes[i]? := by
  have hfails : read = none ∨ write = none →
      RemoteIsPeers isClient lid qpNum tmp peerTmp peerAttr read write remote := by
    intro h hret
    rw [exchangeInfo_ret_of_fails h] at hret
    cases hret
  cases read with
  | none => exact iff_of_true (hfails (.inl rfl)) (.inl rfl)
  | some n =>
    cases write with
    | none => exact iff_of_true (hfails (.inr rfl)) (.inr (.inl rfl))
    | some m =>
      -- Both calls count as successful, so the buffer is loaded as `read` has left it.
      rw [RemoteIsPeers, exchangeInfo_some]
      simp only [forall_const, reduceCtorEq, false_or]
      exact QpRecord.load_fill_eq_iff _ _ _ n

end SparkRdma
