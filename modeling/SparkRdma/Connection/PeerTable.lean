import SparkRdma.Foundations.KeyedTable
import SparkRdma.Foundations.Machine

/-! # The table of transports

`g_rdma_context->hash_table` maps the dotted-quad address of a peer to its transport. It hashes the
whole string with `g_str_hash` and compares keys with `g_int64_equal`, which reads eight bytes. The
sibling table `host2ipstr` compares with `g_str_equal`.

* **`run`** — a sequence of the table operations of `get_transport_from_ip`, `connect_server` and
  `accept_thread`.
* **`Faithful`** — every address finds the transport created for it, and only that one.
* **`peers_confused`** — two addresses that find one transport.
* **`faithful_iff`** — the exact condition: no two addresses of the sequence clash. -/

namespace SparkRdma

open Interleaving KeyedTable

/-! ### Addresses -/

/-- An IPv4 address. -/
structure Ipv4 where
  /-- The first octet. -/
  a : UInt8
  /-- The second octet. -/
  b : UInt8
  /-- The third octet. -/
  c : UInt8
  /-- The fourth octet. -/
  d : UInt8
  deriving DecidableEq, Repr

/-- An octet in decimal, in ASCII. -/
def decimal (n : UInt8) : List UInt8 :=
  if n < 10 then [48 + n]
  else if n < 100 then [48 + n / 10, 48 + n % 10]
  else [48 + n / 100, 48 + n / 10 % 10, 48 + n % 10]

/-- The number ASCII digits stand for. -/
def ofDecimal (digits : List UInt8) : UInt8 := digits.foldl (fun n c => 10 * n + (c - 48)) 0

/-- The dotted-quad string of an address. -/
def Ipv4.dotted (ip : Ipv4) : List UInt8 :=
  decimal ip.a ++ 46 :: (decimal ip.b ++ 46 :: (decimal ip.c ++ 46 :: decimal ip.d))

/-- `IP_CHAR_SIZE`. -/
def ipCharSize : ℕ := 20

/-- The zeroed buffer of `IP_CHAR_SIZE` bytes into which the string is copied. -/
def Ipv4.buffer (ip : Ipv4) : List UInt8 :=
  ip.dotted ++ List.replicate (ipCharSize - ip.dotted.length) 0

/-! ### The hash table -/

/-- The string a pointer to a buffer stands for. -/
def cString (buf : List UInt8) : List UInt8 := buf.takeWhile (· ≠ 0)

/-- `g_str_hash`. -/
def gStrHash (buf : List UInt8) : UInt32 :=
  (cString buf).foldl (fun h c => (h <<< 5) + h + c.toUInt32) 5381

/-- `g_int64_equal`: the first eight bytes. -/
def gInt64Equal (v₁ v₂ : List UInt8) : Bool := v₁.take 8 = v₂.take 8

/-- How `hash_table` identifies keys. -/
def sameKey (k₁ k₂ : List UInt8) : Bool := gStrHash k₁ = gStrHash k₂ ∧ gInt64Equal k₁ k₂

/-- `struct rdma_transport`, as the table sees it. -/
structure Transport where
  /-- Which `calloc` of a transport it is. -/
  serial : ℕ
  /-- `remote_ip`. -/
  remoteIp : List UInt8
  deriving DecidableEq, Repr

/-- `hash_table` and the number of transports made so far. -/
structure PeerTable where
  /-- The entries. -/
  entries : List (List UInt8 × Transport)
  /-- The number of transports made. -/
  created : ℕ
  deriving DecidableEq, Repr

namespace PeerTable

/-- The table `rdma_context_init` makes. -/
def new : PeerTable := ⟨[], 0⟩

/-- `g_hash_table_lookup`. -/
def lookup (s : PeerTable) (key : List UInt8) : Option Transport :=
  KeyedTable.lookup sameKey s.entries key

/-- The section under `hash_lock`: look the key up, and if there is no transport make one, with a
copy of the key as its `remote_ip`, and insert it. -/
def lookupOrCreate (s : PeerTable) (key : List UInt8) : Transport × PeerTable :=
  match s.lookup key with
  | some transport => (transport, s)
  | none =>
      let transport := ⟨s.created, key⟩
      (transport, ⟨KeyedTable.insert sameKey s.entries key transport, s.created + 1⟩)

/-- The section of `get_transport_from_ip`. -/
def getTransportFromIp (s : PeerTable) (remoteIpStr : List UInt8) : Transport × PeerTable :=
  s.lookupOrCreate remoteIpStr

/-- The section of `accept_thread`. -/
def acceptThread (s : PeerTable) (remoteIp : List UInt8) : Transport × PeerTable :=
  s.lookupOrCreate remoteIp

/-- The lookup of `connect_server`. -/
def connectServer (s : PeerTable) (ipStr : List UInt8) : Except CFault Transport :=
  match s.lookup ipStr with
  | none => .error .assertion
  | some client => .ok client

end PeerTable

/-- An operation on the table. -/
inductive TableOp
  /-- `get_transport_from_ip`. -/
  | getTransportFromIp (ip : Ipv4)
  /-- `connect_server`. -/
  | connectServer (ip : Ipv4)
  /-- `accept_thread`. -/
  | acceptThread (ip : Ipv4)
  deriving DecidableEq

namespace TableOp

/-- The address the operation is for. -/
def ip : TableOp → Ipv4
  | getTransportFromIp ip => ip
  | connectServer ip => ip
  | acceptThread ip => ip

/-- The transport the operation goes on with, and the table it leaves. -/
def run (s : PeerTable) : TableOp → Except CFault (Transport × PeerTable)
  | getTransportFromIp ip => .ok (s.getTransportFromIp ip.buffer)
  | connectServer ip => (s.connectServer ip.buffer).map fun client => (client, s)
  | acceptThread ip => .ok (s.acceptThread ip.buffer)

/-- A sequence of operations. The result lists each address with the transport that was used. -/
def runAll : PeerTable → List TableOp → Except CFault (List (Ipv4 × Transport) × PeerTable)
  | s, [] => .ok ([], s)
  | s, op :: ops => do
      let (transport, s) ← op.run s
      let (used, s) ← runAll s ops
      return ((op.ip, transport) :: used, s)

end TableOp

/-- **No two peers share a transport.** -/
structure Faithful (used : List (Ipv4 × Transport)) : Prop where
  /-- The transport used for an address is the one made for it. -/
  remoteIp_eq : ∀ ip t, (ip, t) ∈ used → t.remoteIp = ip.buffer
  /-- An address always finds the same transport. -/
  same : ∀ ip t u, (ip, t) ∈ used → (ip, u) ∈ used → t = u
  /-- Different addresses find different transports. -/
  distinct : ∀ ip ip' t, (ip, t) ∈ used → (ip', t) ∈ used → ip = ip'

/-- Two addresses clash: `hash_table` takes one for the other. -/
def Clash (ip ip' : Ipv4) : Prop := ip ≠ ip' ∧ sameKey ip.buffer ip'.buffer

/-- `connect_server` is called by `get_transport_from_ip` only, after its own section. -/
def CalledAfterGet (ops : List TableOp) : Prop :=
  ∀ before ip after, ops = before ++ .connectServer ip :: after →
    .getTransportFromIp ip ∈ before

/-! ### Strings tell addresses apart -/

/-- The digits of an octet can be read back. -/
theorem ofDecimal_decimal (n : UInt8) : ofDecimal (decimal n) = n := by
  have hall : ∀ k < 256, ofDecimal (decimal (UInt8.ofNat k)) = UInt8.ofNat k := by
    decide +kernel
  have h := hall n.toNat n.toNat_lt
  rwa [UInt8.ofNat_toNat] at h

/-- Different octets have different digits. -/
theorem decimal_injective : Function.Injective decimal :=
  Function.LeftInverse.injective ofDecimal_decimal

/-- Digits are neither dots nor the end of a string. -/
theorem mem_decimal {n c : UInt8} (hc : c ∈ decimal n) : c ≠ 46 ∧ c ≠ 0 := by
  have hall : ∀ k < 256, (decimal (UInt8.ofNat k)).all (fun c => c != 46 && c != 0) = true := by
    decide +kernel
  have h := hall n.toNat n.toNat_lt
  rw [UInt8.ofNat_toNat] at h
  simpa using List.all_eq_true.mp h c hc

/-- An octet and what follows it can be told apart at the dot. -/
theorem decimal_append_dot_inj {n n' : UInt8} {rest rest' : List UInt8}
    (h : decimal n ++ 46 :: rest = decimal n' ++ 46 :: rest') : n = n' ∧ rest = rest' := by
  have hdigits : ∀ n : UInt8, ∀ c ∈ decimal n, (c != 46) = true := by
    intro n c hc
    simpa using (mem_decimal hc).1
  have htake : ∀ (n : UInt8) rest, (decimal n ++ 46 :: rest).takeWhile (· != 46) = decimal n := by
    intro n rest
    rw [List.takeWhile_append_of_pos (hdigits n)]
    simp
  have hn : decimal n = decimal n' := by rw [← htake n rest, h, htake]
  rw [hn] at h
  exact ⟨decimal_injective hn, by simpa using h⟩

/-- Different addresses have different strings. -/
theorem Ipv4.dotted_injective : Function.Injective Ipv4.dotted := by
  rintro ⟨a, b, c, d⟩ ⟨a', b', c', d'⟩ h
  simp only [Ipv4.dotted] at h
  obtain ⟨ha, h⟩ := decimal_append_dot_inj h
  obtain ⟨hb, h⟩ := decimal_append_dot_inj h
  obtain ⟨hc, hd⟩ := decimal_append_dot_inj h
  rw [ha, hb, hc, decimal_injective hd]

/-- The string ends where the padding begins. -/
theorem cString_buffer (ip : Ipv4) : cString ip.buffer = ip.dotted := by
  have hdotted : ∀ c ∈ ip.dotted, c ≠ 0 := by
    intro c hc
    simp only [Ipv4.dotted, List.mem_append, List.mem_cons] at hc
    rcases hc with h | rfl | h | rfl | h | rfl | h
    · exact (mem_decimal h).2
    · decide
    · exact (mem_decimal h).2
    · decide
    · exact (mem_decimal h).2
    · decide
    · exact (mem_decimal h).2
  rw [cString, Ipv4.buffer, List.takeWhile_append_of_pos (by simpa using hdotted)]
  simp

/-- Different addresses have different keys. -/
theorem Ipv4.buffer_injective : Function.Injective Ipv4.buffer := by
  intro ip ip' h
  apply Ipv4.dotted_injective
  rw [← cString_buffer, h, cString_buffer]

/-! ### Looking up and creating -/

/-- `hash_table` identifies keys by an equivalence. -/
theorem sameKey_equivalence : Equivalence fun k₁ k₂ => sameKey k₁ k₂ = true where
  refl k := by simp [sameKey, gInt64Equal]
  symm h := by
    simp only [sameKey, gInt64Equal, decide_eq_true_eq] at h ⊢
    exact ⟨h.1.symm, h.2.symm⟩
  trans h₁ h₂ := by
    simp only [sameKey, gInt64Equal, decide_eq_true_eq] at h₁ h₂ ⊢
    exact ⟨h₁.1.trans h₂.1, h₁.2.trans h₂.2⟩

/-- Every entry was made for the address it stands under, one of `ips`. -/
def PeerTable.MadeFor (s : PeerTable) (ips : List Ipv4) : Prop :=
  ∀ key t, (key, t) ∈ s.entries → ∃ ip ∈ ips, key = ip.buffer ∧ t.remoteIp = ip.buffer

/-- **What the section under `hash_lock` does**: the address finds the transport returned from then
on, and no address loses its transport. -/
theorem PeerTable.lookupOrCreate_ok {s s' : PeerTable} {ip : Ipv4} {t : Transport}
    (h : s.lookupOrCreate ip.buffer = (t, s')) {ips : List Ipv4} (hmade : s.MadeFor ips)
    (hip : ip ∈ ips) :
    s'.lookup ip.buffer = some t ∧ s'.MadeFor ips ∧
      ∀ key u, s.lookup key = some u → s'.lookup key = some u := by
  rw [PeerTable.lookupOrCreate] at h
  cases hfound : s.lookup ip.buffer with
  | some found =>
    simp only [hfound] at h
    cases h
    exact ⟨hfound, hmade, fun _ _ h => h⟩
  | none =>
    simp only [hfound] at h
    cases h
    -- The new entry is behind the others, so the keys that were found still find theirs.
    obtain ⟨hself, hothers⟩ := lookup_insert_new sameKey_equivalence hfound
      (⟨s.created, ip.buffer⟩ : Transport)
    refine ⟨hself, ?_, fun _ _ => hothers⟩
    intro key u hmem
    rw [insert_of_lookup_none hfound, List.mem_append, List.mem_singleton] at hmem
    rcases hmem with hmem | heq
    · exact hmade key u hmem
    · cases heq
      exact ⟨ip, hip, rfl, rfl⟩

/-- **What an operation does**: the same, for the transport that the operation used. -/
theorem TableOp.run_ok {s s' : PeerTable} {op : TableOp} {t : Transport}
    (h : op.run s = .ok (t, s')) {ips : List Ipv4} (hmade : s.MadeFor ips) (hip : op.ip ∈ ips) :
    s'.lookup op.ip.buffer = some t ∧ s'.MadeFor ips ∧
      ∀ key u, s.lookup key = some u → s'.lookup key = some u := by
  cases op with
  | getTransportFromIp ip => exact PeerTable.lookupOrCreate_ok (Except.ok.inj h) hmade hip
  | acceptThread ip => exact PeerTable.lookupOrCreate_ok (Except.ok.inj h) hmade hip
  | connectServer ip =>
    simp only [TableOp.run, PeerTable.connectServer] at h
    cases hfound : s.lookup ip.buffer with
    | none =>
      simp only [hfound] at h
      cases h
    | some client =>
      simp only [hfound] at h
      cases h
      exact ⟨hfound, hmade, fun _ _ h => h⟩

/-- **What a sequence does**: the last table still holds the transport every operation used. -/
theorem TableOp.runAll_ok {ops : List TableOp} {ips : List Ipv4} :
    ∀ {s s' : PeerTable} {used : List (Ipv4 × Transport)}, runAll s ops = .ok (used, s') →
      s.MadeFor ips → (∀ op ∈ ops, op.ip ∈ ips) →
      used.map Prod.fst = ops.map TableOp.ip ∧ s'.MadeFor ips ∧
        (∀ key t, s.lookup key = some t → s'.lookup key = some t) ∧
        ∀ ip t, (ip, t) ∈ used → s'.lookup ip.buffer = some t := by
  induction ops with
  | nil =>
    intro s s' used h hmade _
    cases h
    exact ⟨rfl, hmade, fun _ _ h => h, nofun⟩
  | cons op ops ih =>
    intro s s' used h hmade hips
    rw [runAll] at h
    cases hop : op.run s with
    | error e =>
      rw [hop] at h
      cases h
    | ok result =>
      obtain ⟨t, s₁⟩ := result
      rw [hop, ok_bind] at h
      cases hrest : runAll s₁ ops with
      | error e =>
        simp only [hrest] at h
        cases h
      | ok result =>
        obtain ⟨used₁, s₂⟩ := result
        simp only [hrest] at h
        cases h
        -- What the first operation used is kept by the rest of the sequence.
        obtain ⟨hself, hmade, hkeep⟩ := op.run_ok hop hmade (hips op List.mem_cons_self)
        obtain ⟨hfst, hmade, hkeep', hused⟩ :=
          ih hrest hmade fun op' hop' => hips op' (List.mem_cons_of_mem _ hop')
        refine ⟨by rw [List.map_cons, List.map_cons, hfst], hmade,
          fun key u h => hkeep' key u (hkeep key u h), fun ip u hmem => ?_⟩
        rcases List.mem_cons.mp hmem with heq | hmem
        · cases heq
          exact hkeep' _ _ hself
        · exact hused ip u hmem

/-- A sequence runs through when every `connect_server` comes after its `get_transport_from_ip`,
which may be one of those `earlier`. -/
theorem TableOp.exists_runAll {ops : List TableOp} {ips : List Ipv4} :
    ∀ (s : PeerTable) (earlier : List TableOp), s.MadeFor ips → (∀ op ∈ ops, op.ip ∈ ips) →
      (∀ ip, .getTransportFromIp ip ∈ earlier → ∃ t, s.lookup ip.buffer = some t) →
      (∀ before ip after, ops = before ++ .connectServer ip :: after →
        .getTransportFromIp ip ∈ earlier ++ before) →
      ∃ used s', runAll s ops = .ok (used, s') := by
  induction ops with
  | nil => exact fun _ _ _ _ _ _ => ⟨[], _, rfl⟩
  | cons op ops ih =>
    intro s earlier hmade hips hearlier hcalled
    -- The lookup of a `connect_server` finds the transport of the call before it.
    have hrun : ∃ t s₁, op.run s = .ok (t, s₁) := by
      cases op with
      | getTransportFromIp ip => exact ⟨_, _, rfl⟩
      | acceptThread ip => exact ⟨_, _, rfl⟩
      | connectServer ip =>
        obtain ⟨t, ht⟩ := hearlier ip (by simpa using hcalled [] ip ops rfl)
        exact ⟨t, s, by simp only [TableOp.run, PeerTable.connectServer, ht, Except.map]⟩
    obtain ⟨t, s₁, hrun⟩ := hrun
    obtain ⟨hself, hmade, hkeep⟩ := op.run_ok hrun hmade (hips op List.mem_cons_self)
    have hnext : ∃ used s', runAll s₁ ops = .ok (used, s') := by
      refine ih s₁ (earlier ++ [op]) hmade
        (fun op' hop' => hips op' (List.mem_cons_of_mem _ hop')) (fun ip hmem => ?_) ?_
      · rcases List.mem_append.mp hmem with hmem | hmem
        · obtain ⟨u, hu⟩ := hearlier ip hmem
          exact ⟨u, hkeep _ _ hu⟩
        · obtain rfl : .getTransportFromIp ip = op := List.mem_singleton.mp hmem
          exact ⟨t, hself⟩
      · rintro before ip after rfl
        simpa using hcalled (op :: before) ip after rfl
    obtain ⟨used, s', hrest⟩ := hnext
    exact ⟨(op.ip, t) :: used, s', by rw [runAll, hrun, ok_bind]; simp only [hrest]; rfl⟩

/-- **The exact condition.** For every sequence of operations on the table `rdma_context_init`
makes, each `connect_server` after its `get_transport_from_ip`: no operation aborts, and no two
peers share a transport if and only if no two of the addresses clash. -/
theorem faithful_iff (ops : List TableOp) (hcalled : CalledAfterGet ops) :
    ∃ used s, TableOp.runAll .new ops = .ok (used, s) ∧ used.map Prod.fst = ops.map TableOp.ip ∧
      (Faithful used ↔ ∀ op ∈ ops, ∀ op' ∈ ops, ¬ Clash op.ip op'.ip) := by
  have hempty : PeerTable.new.MadeFor (ops.map TableOp.ip) := nofun
  have hips : ∀ op ∈ ops, op.ip ∈ ops.map TableOp.ip := fun op hop => List.mem_map_of_mem hop
  obtain ⟨used, s, hrun⟩ :=
    TableOp.exists_runAll .new [] hempty hips nofun hcalled
  obtain ⟨hfst, hmade, -, hused⟩ := TableOp.runAll_ok hrun hempty hips
  refine ⟨used, s, hrun, hfst, fun hfaithful op hop op' hop' hclash => ?_, fun hnone => ?_⟩
  · -- Both addresses were looked up, so they found one transport.
    have hfind : ∀ op ∈ ops, ∃ t, (op.ip, t) ∈ used := by
      intro op hop
      have hmem : op.ip ∈ used.map Prod.fst := hfst ▸ hips op hop
      obtain ⟨⟨ip, t⟩, hmem, rfl⟩ := List.mem_map.mp hmem
      exact ⟨t, hmem⟩
    obtain ⟨t, ht⟩ := hfind op hop
    obtain ⟨u, hu⟩ := hfind op' hop'
    have hsome := hused _ _ hu
    rw [PeerTable.lookup, ← lookup_congr sameKey_equivalence s.entries hclash.2, ← PeerTable.lookup,
      hused _ _ ht] at hsome
    obtain rfl := Option.some.inj hsome
    exact hclash.1 (hfaithful.distinct _ _ _ ht hu)
  · -- A transport found was made for an address of the same key, which without a clash is the same.
    have hremote : ∀ ip t, (ip, t) ∈ used → t.remoteIp = ip.buffer := by
      intro ip t hmem
      obtain ⟨key, hentry, hsame⟩ := exists_of_lookup (hused ip t hmem)
      obtain ⟨ip', hip', rfl, hremote⟩ := hmade key t hentry
      obtain ⟨op', hop', rfl⟩ := List.mem_map.mp hip'
      have hip : ip ∈ ops.map TableOp.ip := hfst ▸ List.mem_map_of_mem hmem
      obtain ⟨op, hop, rfl⟩ := List.mem_map.mp hip
      by_cases heq : op'.ip = op.ip
      · rw [hremote, heq]
      · exact absurd ⟨heq, hsame⟩ (hnone op' hop' op hop)
    refine ⟨hremote, fun ip t u ht hu => ?_, fun ip ip' t ht ht' => ?_⟩
    · have h := hused ip t ht
      rw [hused ip u hu] at h
      exact (Option.some.inj h).symm
    · apply Ipv4.buffer_injective
      rw [← hremote _ _ ht, hremote _ _ ht']

/-- The condition on two addresses, looked up by all three functions. -/
theorem faithful_iff_twoPeers :
    ∃ used s, TableOp.runAll .new [.getTransportFromIp ⟨10, 0, 0, 1⟩, .connectServer ⟨10, 0, 0, 1⟩,
      .acceptThread ⟨10, 0, 0, 2⟩] = .ok (used, s) ∧ Faithful used := by
  obtain ⟨used, s, hrun, -, hiff⟩ := faithful_iff
    [.getTransportFromIp ⟨10, 0, 0, 1⟩, .connectServer ⟨10, 0, 0, 1⟩,
      .acceptThread ⟨10, 0, 0, 2⟩] <|
      by
        intro before ip after h
        match before with
        | [] => cases h
        | [op] => cases h; decide
        | [_, _] => cases h
        | _ :: _ :: _ :: _ => simp at h
  exact ⟨used, s, hrun, hiff.mpr (by unfold Clash; decide +kernel)⟩

/-- **Two peers share a transport.** The transport made for 11.45.24.1 is found again for
11.45.245.219: the strings begin with the same eight characters and have the same hash. -/
theorem peers_confused :
    ¬ ∀ used s, TableOp.runAll .new [.getTransportFromIp ⟨11, 45, 24, 1⟩,
      .acceptThread ⟨11, 45, 245, 219⟩] = .ok (used, s) → Faithful used := by
  intro hall
  have hrun : ∃ t s, TableOp.runAll .new [.getTransportFromIp ⟨11, 45, 24, 1⟩,
      .acceptThread ⟨11, 45, 245, 219⟩]
        = .ok ([(⟨11, 45, 24, 1⟩, t), (⟨11, 45, 245, 219⟩, t)], s) :=
    ⟨⟨0, (⟨11, 45, 24, 1⟩ : Ipv4).buffer⟩,
      ⟨[((⟨11, 45, 24, 1⟩ : Ipv4).buffer, ⟨0, (⟨11, 45, 24, 1⟩ : Ipv4).buffer⟩)], 1⟩,
      by decide +kernel⟩
  obtain ⟨t, s, hrun⟩ := hrun
  have heq := (hall _ _ hrun).distinct _ _ t List.mem_cons_self
    (List.mem_cons_of_mem _ List.mem_cons_self)
  exact absurd heq (by decide)

end SparkRdma
