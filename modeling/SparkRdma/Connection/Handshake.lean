import Mathlib.Logic.Function.Basic
import SparkRdma.QueuePair.Credits

/-! # Setting up connections

The machine `setUp` runs any number of `get_transport_from_ip` calls on any number of hosts, each
naming another host or its own, together with the accept thread of every host. Critical sections
under `connect_lock` are not atomic here: the lock is a field of the transport, and the steps inside
a section interleave with the unlocked steps of `connect_server` and `exchange_info`. The addresses
of hosts are distinguished by the table, sockets deliver the record whole, and the verbs calls other
than `ibv_modify_qp` succeed.

* **`QpAttr.toWire`**, **`QpAttr.ofWire`** — the record of `exchange_info` in network byte order.
* **`Qp.modify`** — `ibv_modify_qp` with a result that the environment chooses.
* **`setUpStep`** — one step of one thread. -/

namespace SparkRdma

open Interleaving

/-! ### The record on the wire -/

/-- `struct qp_attr`. -/
structure QpAttr where
  /-- The local id of the port. -/
  lid : UInt16
  /-- The number of the queue pair. -/
  qpn : UInt32
  /-- The first packet sequence number. -/
  psn : UInt32
  deriving DecidableEq, Repr

/-- The `k` low bytes of a number, most significant first: what `htons` and `htonl` leave in
memory. -/
def networkOrder : ℕ → ℕ → List UInt8
  | 0, _ => []
  | k + 1, n => networkOrder k (n / 256) ++ [UInt8.ofNat n]

/-- The number bytes in network order stand for: what `ntohs` and `ntohl` return. -/
def hostOrder (bytes : List UInt8) : ℕ := bytes.foldl (fun n b => 256 * n + b.toNat) 0

/-- The three fields of the record as they are sent. The two bytes of padding are not read. -/
structure WireAttr where
  /-- `htons(lid)`. -/
  lid : List UInt8
  /-- `htonl(qpn)`. -/
  qpn : List UInt8
  /-- `htonl(psn)`. -/
  psn : List UInt8
  deriving DecidableEq, Repr

/-- What `exchange_info` writes. -/
def QpAttr.toWire (attr : QpAttr) : WireAttr :=
  ⟨networkOrder 2 attr.lid.toNat, networkOrder 4 attr.qpn.toNat, networkOrder 4 attr.psn.toNat⟩

/-- What `exchange_info` makes of the record it reads. -/
def QpAttr.ofWire (wire : WireAttr) : QpAttr :=
  ⟨.ofNat (hostOrder wire.lid), .ofNat (hostOrder wire.qpn), .ofNat (hostOrder wire.psn)⟩

/-- Bytes in network order give the number back. -/
theorem hostOrder_networkOrder (k : ℕ) : ∀ n, n < 256 ^ k → hostOrder (networkOrder k n) = n := by
  induction k with
  | zero =>
    intro n hn
    rw [Nat.pow_zero, Nat.lt_one_iff] at hn
    subst hn
    rfl
  | succ k ih =>
    intro n hn
    have hdiv : n / 256 < 256 ^ k :=
      Nat.div_lt_of_lt_mul (by rwa [Nat.pow_succ, Nat.mul_comm] at hn)
    have hinit := ih (n / 256) hdiv
    rw [hostOrder] at hinit
    rw [networkOrder, hostOrder, List.foldl_append, hinit, List.foldl_cons, List.foldl_nil,
      UInt8.toNat_ofNat']
    omega

/-- **The record survives the wire.** -/
@[simp] theorem QpAttr.ofWire_toWire (attr : QpAttr) : QpAttr.ofWire attr.toWire = attr := by
  have hlid := hostOrder_networkOrder 2 attr.lid.toNat attr.lid.toNat_lt
  have hqpn := hostOrder_networkOrder 4 attr.qpn.toNat attr.qpn.toNat_lt
  have hpsn := hostOrder_networkOrder 4 attr.psn.toNat attr.psn.toNat_lt
  simp only [QpAttr.ofWire, QpAttr.toWire, hlid, hqpn, hpsn, UInt16.ofNat_toNat, UInt32.ofNat_toNat]

/-! ### Queue pairs -/

/-- A change of state that a queue pair went through. -/
inductive QpChange
  /-- To `IBV_QPS_INIT`. -/
  | init
  /-- To `IBV_QPS_RTR`, towards `dest`. -/
  | rtr (dest : QpAttr)
  /-- To `IBV_QPS_RTS`, with `sq_psn`. -/
  | rts (sqPsn : UInt32)
  deriving DecidableEq, Repr

/-- A queue pair: its number and the changes it went through since it was created. -/
structure Qp where
  /-- `qp_num`. -/
  num : UInt32
  /-- The changes, oldest first. -/
  log : List QpChange
  deriving DecidableEq, Repr

namespace Qp

/-- The adapter makes the changes in this order only. -/
def allows : List QpChange → QpChange → Bool
  | [], .init => true
  | [.init], .rtr _ => true
  | [.init, .rtr _], .rts _ => true
  | _, _ => false

/-- `ibv_modify_qp` returning `res`: 0 when it makes the change, which it can only where the change
is allowed, and otherwise a number that leaves the queue pair as it is. -/
def modify (qp : Qp) (change : QpChange) (res : ℤ) : Option Qp :=
  if res = 0 then
    if allows qp.log change then some { qp with log := qp.log ++ [change] } else none
  else some qp

/-- The three `modify_qp_to` functions: the value returned, and the queue pair. -/
def modifyTo (change : QpChange) (qp : Qp) (res : ℤ) : Option (ℤ × Qp) :=
  (qp.modify change res).map fun qp => (if res < 0 then -1 else 0, qp)

/-- Without a positive error number, the functions report success only where the change is made. -/
theorem modifyTo_of_ret {change : QpChange} {qp qp' : Qp} {res ret : ℤ} (hres : res ≤ 0)
    (h : qp.modifyTo change res = some (ret, qp')) (hret : ¬ ret < 0) :
    qp' = { qp with log := qp.log ++ [change] } := by
  obtain ⟨qp₁, hmodify, heq⟩ := Option.map_eq_some_iff.mp h
  cases heq
  have hzero : res = 0 := by
    by_contra hne
    exact hret (by rw [if_pos (lt_of_le_of_ne hres hne)]; decide)
  simp only [modify, if_pos hzero] at hmodify
  split at hmodify
  · cases hmodify
    rfl
  · cases hmodify

/-- `modify_qp_to_init`. -/
def modifyToInit : Qp → ℤ → Option (ℤ × Qp) := modifyTo .init

/-- `modify_qp_to_rtr`. -/
def modifyToRtr (qp : Qp) (remoteAttr : QpAttr) : ℤ → Option (ℤ × Qp) :=
  modifyTo (.rtr remoteAttr) qp

/-- `modify_qp_to_rts`. -/
def modifyToRts (qp : Qp) (localAttr : QpAttr) : ℤ → Option (ℤ × Qp) :=
  modifyTo (.rts localAttr.psn) qp

end Qp

/-! ### Hosts, threads and program points -/

/-- Who calls whom, and the local id of every host's port. -/
structure Peers (H C : Type) where
  /-- The host on which a `get_transport_from_ip` call is made. -/
  caller : C → H
  /-- The host the call names. -/
  callee : C → H
  /-- `get_local_lid`. -/
  lid : H → UInt16

/-- A thread. -/
inductive Tid (H C : Type)
  /-- The thread of a `get_transport_from_ip` call. -/
  | call (c : C)
  /-- The accept thread of a host. -/
  | accept (h : H)
  deriving DecidableEq

/-- The points at which a thread that works on a transport can stand, each named by what the thread
is about to do. -/
inductive Point
  /-- Take `connect_lock` for the section around `rdma_create_connect`. -/
  | lockCreate
  /-- `ibv_create_qp`. -/
  | createQp
  /-- `modify_qp_to_init`. -/
  | modifyInit
  /-- Post `MAX_PRE_RECV_QP` receives. -/
  | postRecv
  /-- Release the lock. -/
  | unlockCreate
  /-- The lookup of `connect_server`, and its `connect`. -/
  | connect
  /-- Fill in `local_qp_attr`, at the head of `exchange_info`. -/
  | fillLocal
  /-- `write` the record, as a client. -/
  | clientWrite
  /-- `read` the server's record. -/
  | clientRead
  /-- `read` the record of a client, as a server. -/
  | serverRead
  /-- `write` the server's record. -/
  | serverWrite
  /-- Take the lock for the section around `rdma_complete_connect`. -/
  | lockComplete
  /-- `modify_qp_to_rtr`. -/
  | rtr
  /-- `modify_qp_to_rts`. -/
  | rts
  /-- Set `is_ready`. -/
  | setReady
  /-- Release the lock. -/
  | unlockComplete
  /-- Look at `is_ready` under the lock, in the waiting loop. -/
  | waiting
  /-- The last assertion of `get_transport_from_ip`. -/
  | finish
  deriving DecidableEq, Repr

/-- Where a thread stands. -/
inductive Pc (C : Type)
  /-- A call that has not started, or an accept thread in `accept`. -/
  | idle
  /-- An accept thread that has accepted the connection of call `sock`. -/
  | accepted (sock : C)
  /-- At a point. `sock` is the connection, `value` the transport of the table entry the thread has
  found or made, `client` the one its `exchange_info` works on. -/
  | at (point : Point) (sock : C) (value client : ℕ)
  /-- A call that has returned a transport. -/
  | returned (value : ℕ)
  deriving DecidableEq

/-- `struct rdma_transport` and the `connect_lock` of its table entry. -/
structure Connection (H C : Type) where
  /-- The host it belongs to. -/
  owner : H
  /-- `remote_ip`. -/
  peer : H
  /-- `rc_qp`. -/
  rcQp : Option Qp
  /-- The receives posted while it was created. -/
  posted : ℕ
  /-- `local_qp_attr`. -/
  localAttr : QpAttr
  /-- `remote_qp_attr`. -/
  remoteAttr : QpAttr
  /-- `is_ready`. -/
  isReady : Bool
  /-- The holder of `connect_lock`. -/
  lock : Option (Tid H C)
  /-- History: the queue pairs created for it. -/
  created : ℕ
  /-- History: the runs of `rdma_complete_connect` on it. -/
  completed : ℕ

/-- All hosts and the sockets between them. -/
structure SetUpState (H C : Type) where
  /-- The transports allocated so far are those below this number. -/
  count : ℕ
  /-- The transports. -/
  conns : ℕ → Connection H C
  /-- The hash table of each host, by the peer's address. -/
  table : H → H → Option ℕ
  /-- Where the threads stand. -/
  pc : Tid H C → Pc C
  /-- The connections of each host's listening socket that wait to be accepted. -/
  backlog : H → List C
  /-- What the client has written to a socket and the server has not read. -/
  request : C → Option WireAttr
  /-- What the server has written to a socket and the client has not read. -/
  reply : C → Option WireAttr

/-- The steps. -/
inductive SetUpAct (H C : Type)
  /-- The thread takes its next step, where the environment has no choice. -/
  | run (t : Tid H C)
  /-- `ibv_create_qp` returns a queue pair with this number. -/
  | createQp (t : Tid H C) (num : UInt32)
  /-- `ibv_modify_qp` returns `res`. -/
  | modifyQp (t : Tid H C) (res : ℤ)

variable {H C : Type}

/-- A zeroed transport. -/
def Connection.blank (owner peer : H) : Connection H C :=
  ⟨owner, peer, none, 0, ⟨0, 0, 0⟩, ⟨0, 0, 0⟩, false, none, 0, 0⟩

/-- The record of a transport's queue pair, once it has one. -/
def Connection.attr? (peers : Peers H C) (conn : Connection H C) : Option QpAttr :=
  conn.rcQp.map fun qp => ⟨peers.lid conn.owner, qp.num, 0⟩

namespace Tid

/-- The host on whose side of the connection the thread works. -/
def self (peers : Peers H C) : Tid H C → C → H
  | call _, sock => peers.caller sock
  | accept _, sock => peers.callee sock

/-- The host at the other end of the connection. -/
def other (peers : Peers H C) : Tid H C → C → H
  | call _, sock => peers.callee sock
  | accept _, sock => peers.caller sock

end Tid

namespace SetUpState

variable [DecidableEq H] [DecidableEq C]

/-- Move a thread. -/
def goto (s : SetUpState H C) (t : Tid H C) (pc : Pc C) : SetUpState H C :=
  { s with pc := Function.update s.pc t pc }

/-- Write a transport. -/
def set (s : SetUpState H C) (id : ℕ) (conn : Connection H C) : SetUpState H C :=
  { s with conns := Function.update s.conns id conn }

/-- The lookup under `hash_lock` of host `h`, which inserts a new transport when it finds none. -/
def lookupOrCreate (s : SetUpState H C) (h p : H) : ℕ × SetUpState H C :=
  match s.table h p with
  | some id => (id, s)
  | none => (s.count, { s.set s.count (.blank h p) with
      count := s.count + 1
      table := Function.update s.table h (Function.update (s.table h) p (some s.count)) })

/-- A thread at a point takes a step in which the environment has no choice. -/
def pointStep (peers : Peers H C) (s : SetUpState H C) (t : Tid H C) (sock : C)
    (value client : ℕ) (point : Point) : Option (Except CFault (SetUpState H C)) :=
  let conn := s.conns value
  let next := fun (s : SetUpState H C) point => some (.ok (s.goto t (.at point sock value client)))
  match point with
  | .lockCreate =>
      if conn.lock = none then
        next (s.set value { conn with lock := some t })
          (if conn.rcQp = none then .createQp else .unlockCreate)
      else none
  | .postRecv =>
      next (s.set value { conn with posted := conn.posted + maxPreRecvQp.toNat }) .unlockCreate
  | .unlockCreate =>
      next (s.set value { conn with lock := none }) <|
        match t with
        | .call _ => .connect
        | .accept _ => .fillLocal
  | .connect =>
      match s.table (t.self peers sock) (t.other peers sock) with
      | none => some (.error .assertion)
      | some client =>
          -- `connect_server` returns -1 here, which its caller answers with `abort`
          if (s.conns client).rcQp = none then some (.error .abort)
          else
            let backlog := Function.update s.backlog (t.other peers sock)
              (s.backlog (t.other peers sock) ++ [sock])
            some (.ok ({ s with backlog := backlog }.goto t (.at .fillLocal sock value client)))
  | .fillLocal =>
      match (s.conns client).attr? peers with
      | none => some (.error .nullDeref)
      | some attr =>
          next (s.set client { s.conns client with localAttr := attr }) <|
            match t with
            | .call _ => .clientWrite
            | .accept _ => .serverRead
  | .clientWrite =>
      let wire := (s.conns client).localAttr.toWire
      next { s with request := Function.update s.request sock (some wire) } .clientRead
  | .clientRead =>
      match s.reply sock with
      | none => none
      | some wire =>
          let s := { s with reply := Function.update s.reply sock none }
          next (s.set client { s.conns client with remoteAttr := .ofWire wire }) .lockComplete
  | .serverRead =>
      match s.request sock with
      | none => none
      | some wire =>
          let s := { s with request := Function.update s.request sock none }
          next (s.set client { s.conns client with remoteAttr := .ofWire wire }) .serverWrite
  | .serverWrite =>
      let wire := (s.conns client).localAttr.toWire
      next { s with reply := Function.update s.reply sock (some wire) } .lockComplete
  | .lockComplete =>
      if conn.lock = none then
        -- the other thread of this host may have completed the connection
        if conn.isReady then next (s.set value { conn with lock := some t }) .unlockComplete
        else next (s.set value { conn with lock := some t, completed := conn.completed + 1 }) .rtr
      else none
  | .setReady => next (s.set value { conn with isReady := true }) .unlockComplete
  | .unlockComplete =>
      let s := s.set value { conn with lock := none }
      match t with
      | .call _ => next s .finish
      | .accept _ => some (.ok (s.goto t .idle))
  | .waiting =>
      if conn.lock = none then next s (if conn.isReady then .finish else .waiting) else none
  | .finish =>
      if conn.isReady then some (.ok (s.goto t (.returned value))) else some (.error .assertion)
  | .createQp | .modifyInit | .rtr | .rts => none

/-- A thread whose `ibv_modify_qp` returns `res`. -/
def modifyStep (s : SetUpState H C) (t : Tid H C) (res : ℤ) (sock : C) (value client : ℕ)
    (point : Point) : Option (Except CFault (SetUpState H C)) :=
  let conn := s.conns value
  let next := fun qp point =>
    (s.set value { conn with rcQp := some qp }).goto t (.at point sock value client)
  match conn.rcQp with
  | none => none
  | some qp =>
      match point with
      | .modifyInit => (qp.modifyToInit res).map fun (ret, qp) =>
          if ret < 0 then .error .abort else .ok (next qp .postRecv)
      | .rtr => (qp.modifyToRtr conn.remoteAttr res).map fun (ret, qp) =>
          if ret = 0 then .ok (next qp .rts) else .error .assertion
      | .rts => (qp.modifyToRts conn.localAttr res).map fun (ret, qp) =>
          if ret = 0 then .ok (next qp .setReady) else .error .assertion
      | _ => none

/-- A step of a thread, in which the environment has no choice. -/
def runStep (peers : Peers H C) (s : SetUpState H C) (t : Tid H C) :
    Option (Except CFault (SetUpState H C)) :=
  match s.pc t, t with
  | .idle, .call c =>
      match s.table (peers.caller c) (peers.callee c) with
      | none =>
          let (value, s) := s.lookupOrCreate (peers.caller c) (peers.callee c)
          some (.ok (s.goto t (.at .lockCreate c value value)))
      | some value =>
          some (.ok (s.goto t (.at
            (if (s.conns value).isReady then .finish else .waiting) c value value)))
  | .idle, .accept h =>
      match s.backlog h with
      | [] => none
      | sock :: backlog => some (.ok
          ({ s with backlog := Function.update s.backlog h backlog }.goto t (.accepted sock)))
  | .accepted sock, .accept h =>
      let (value, s) := s.lookupOrCreate h (peers.caller sock)
      some (.ok (s.goto t (.at .lockCreate sock value value)))
  | .at point sock value client, t => s.pointStep peers t sock value client point
  | _, _ => none

end SetUpState

variable [DecidableEq H] [DecidableEq C]

/-- One step. -/
def setUpStep (peers : Peers H C) (s : SetUpState H C) :
    SetUpAct H C → Option (Except CFault (SetUpState H C))
  | .run t => s.runStep peers t
  | .createQp t num =>
      match s.pc t with
      | .at .createQp sock value client =>
          let conn := s.conns value
          some (.ok ((s.set value { conn with
            rcQp := some ⟨num, []⟩, created := conn.created + 1 }).goto t
              (.at .modifyInit sock value client)))
      | _ => none
  | .modifyQp t res =>
      match s.pc t with
      | .at point sock value client => s.modifyStep t res sock value client point
      | _ => none

/-- The hosts before any of the calls, their accept threads waiting. -/
def setUp [Inhabited H] (peers : Peers H C) :
    Machine (SetUpState H C) CFault (SetUpAct H C) where
  init :=
    { count := 0, conns := fun _ => .blank default default, table := fun _ _ => none
      pc := fun _ => .idle, backlog := fun _ => [], request := fun _ => none
      reply := fun _ => none }
  step := setUpStep peers

end SparkRdma
