import SparkRdma.Connection.Handshake

/-! # The life of a transport

A transport goes through a fixed sequence of stages, from the zeroed structure to a ready one, and
each section under `connect_lock` takes it some way along. The invariant of `setUp` ties the stage
to the point at which the holder of the lock stands, and what a thread knows to its own point.

* **`Stage`**, **`AtStage`** — the stages, and what the fields hold at each.
* **`SetUpInv`** — the invariant.
* **`SetUpInv.of_step`** — what a step of one thread has to establish to preserve it. -/

namespace SparkRdma

open Interleaving

/-! ### Stages -/

/-- How far a transport is set up. -/
inductive Stage
  /-- Zeroed. -/
  | empty
  /-- It has a queue pair. -/
  | bare
  /-- The queue pair is in `INIT`. -/
  | initial
  /-- The receives are posted: `rdma_create_connect` is through. -/
  | posted
  /-- `rdma_complete_connect` has begun. -/
  | completing
  /-- The queue pair is in `RTR`. -/
  | rtr
  /-- The queue pair is in `RTS`. -/
  | rts
  /-- `is_ready` is set. -/
  | ready
  deriving DecidableEq, Repr

namespace Stage

/-- The changes the queue pair went through, towards `dest`. -/
def log : Stage → QpAttr → Option (List QpChange)
  | empty, _ => none
  | bare, _ => some []
  | initial, _ => some [.init]
  | posted, _ => some [.init]
  | completing, _ => some [.init]
  | rtr, dest => some [.init, .rtr dest]
  | rts, dest => some [.init, .rtr dest, .rts 0]
  | ready, dest => some [.init, .rtr dest, .rts 0]

/-- The receives posted. -/
def credits : Stage → ℕ
  | empty | bare | initial => 0
  | posted | completing | rtr | rts | ready => maxPreRecvQp.toNat

/-- The queue pairs created. -/
def created : Stage → ℕ
  | empty => 0
  | bare | initial | posted | completing | rtr | rts | ready => 1

/-- The runs of `rdma_complete_connect`. -/
def completed : Stage → ℕ
  | empty | bare | initial | posted => 0
  | completing | rtr | rts | ready => 1

/-- `is_ready`. -/
def isReady : Stage → Bool
  | ready => true
  | _ => false

/-- The stages at which nobody need hold the lock. -/
def Rest : Stage → Prop
  | empty | posted | ready => True
  | _ => False

end Stage

namespace Point

/-- The stage at which the holder of the lock stands at the point. -/
def HoldsAt : Point → Stage → Prop
  | createQp, st => st = .empty
  | modifyInit, st => st = .bare
  | postRecv, st => st = .initial
  | unlockCreate, st => st = .posted ∨ st = .ready
  | rtr, st => st = .completing
  | rts, st => st = .rtr
  | setReady, st => st = .rts
  | unlockComplete, st => st = .ready
  | _, _ => False

/-- The points inside a section under `connect_lock`. -/
def Critical : Point → Prop
  | createQp | modifyInit | postRecv | unlockCreate | rtr | rts | setReady | unlockComplete => True
  | _ => False

/-- The points behind the first section: the queue pair is there, with its receives. -/
def Created : Point → Prop
  | lockCreate | createQp | modifyInit | postRecv | waiting => False
  | _ => True

/-- The points at which `local_qp_attr` has been filled in for the record. -/
def Filled : Point → Prop
  | clientWrite | clientRead | serverRead | serverWrite => True
  | _ => False

/-- The points behind the reading of the other host's record. -/
def Learned : Point → Prop
  | serverWrite | lockComplete | rtr | rts | setReady | unlockComplete | finish => True
  | _ => False

/-- The points behind the second section, or at its end. -/
def Ready : Point → Prop
  | unlockComplete | finish => True
  | _ => False

/-- The points of `get_transport_from_ip` and of the client in `exchange_info`. -/
def Client : Point → Prop
  | connect | clientWrite | clientRead | waiting | finish => True
  | _ => False

/-- The points of the server in `exchange_info`. -/
def Server : Point → Prop
  | serverRead | serverWrite => True
  | _ => False

/-- Only a thread inside a section holds the lock. -/
theorem HoldsAt.critical {point : Point} {st : Stage} (h : point.HoldsAt st) : point.Critical := by
  cases point <;> first | exact trivial | exact h.elim

end Point

variable {H C : Type}

/-- What the fields of a transport hold at a stage. -/
structure AtStage (conn : Connection H C) (st : Stage) : Prop where
  /-- The queue pair. -/
  log : conn.rcQp.map Qp.log = st.log conn.remoteAttr
  /-- The receives. -/
  posted : conn.posted = st.credits
  /-- One queue pair. -/
  created : conn.created = st.created
  /-- One run of `rdma_complete_connect`. -/
  completed : conn.completed = st.completed
  /-- `is_ready`. -/
  isReady : conn.isReady = st.isReady
  /-- `local_qp_attr.psn`, whether filled in or not. -/
  psn : conn.localAttr.psn = 0

/-- The queue pair is there, under the record `attr`, with its receives posted. -/
structure Connection.HasAttr (peers : Peers H C) (conn : Connection H C) (attr : QpAttr) :
    Prop where
  /-- The record. -/
  attr : conn.attr? peers = some attr
  /-- The receives. -/
  posted : conn.posted = maxPreRecvQp.toNat

/-- Host `h` has a queue pair for `p` with the record `attr`, and its receives are posted. -/
def Announced (peers : Peers H C) (s : SetUpState H C) (h p : H) (attr : QpAttr) : Prop :=
  ∃ id, id < s.count ∧ (s.conns id).owner = h ∧ (s.conns id).peer = p ∧
    (s.conns id).HasAttr peers attr

/-- `remote_qp_attr` of a transport is the record of the other host's queue pair for this host. -/
def Learned (peers : Peers H C) (s : SetUpState H C) (id : ℕ) : Prop :=
  Announced peers s (s.conns id).peer (s.conns id).owner (s.conns id).remoteAttr

/-- The stage of a transport fits the lock: it is at rest, or where the holder stands. -/
def Held (s : SetUpState H C) (id : ℕ) (st : Stage) : Prop :=
  match (s.conns id).lock with
  | none => st.Rest
  | some t => ∃ point sock client, s.pc t = .at point sock id client ∧ point.HoldsAt st

/-- A thread may work on a socket: a call on its own, an accept thread on those made to its host. -/
def Tid.Uses (peers : Peers H C) : Tid H C → C → Prop
  | call c, sock => sock = c
  | accept h, sock => peers.callee sock = h

/-- What a thread at a point can rely on. -/
structure AtPoint (peers : Peers H C) (s : SetUpState H C) (t : Tid H C) (point : Point)
    (sock : C) (value client : ℕ) : Prop where
  /-- It works on an allocated transport. -/
  value_lt : value < s.count
  /-- The transport belongs to this side of the connection. -/
  owner : (s.conns value).owner = t.self peers sock
  /-- It is for the other side. -/
  peer : (s.conns value).peer = t.other peers sock
  /-- `connect_server` has found the same transport. -/
  client_eq : client = value
  /-- It uses a socket of its own. -/
  sock : t.Uses peers sock
  /-- Calls are clients. -/
  client : point.Client → ∃ c, t = .call c
  /-- Accept threads are servers. -/
  server : point.Server → ∃ h, t = .accept h
  /-- It holds the lock in a critical section. -/
  lock : point.Critical → (s.conns value).lock = some t
  /-- The queue pair and its receives are there. -/
  created : point.Created → ∃ attr, (s.conns value).HasAttr peers attr
  /-- `local_qp_attr` is the record of the queue pair. -/
  filled : point.Filled → (s.conns value).attr? peers = some (s.conns value).localAttr
  /-- `remote_qp_attr` is the record of the other side. -/
  learned : point.Learned → Learned peers s value
  /-- `is_ready` is set. -/
  ready : point.Ready → (s.conns value).isReady = true

/-- What a thread can rely on. -/
def ThreadOk (peers : Peers H C) (s : SetUpState H C) (t : Tid H C) : Pc C → Prop
  | .idle => True
  | .accepted sock => t = .accept (peers.callee sock)
  | .at point sock value client => AtPoint peers s t point sock value client
  | .returned value => ∃ c, t = .call c ∧ AtPoint peers s t .finish c value value

/-- The invariant. -/
structure SetUpInv (peers : Peers H C) (s : SetUpState H C) : Prop where
  /-- The tables hold exactly the allocated transports. -/
  entry : ∀ h p id, s.table h p = some id ↔
    id < s.count ∧ (s.conns id).owner = h ∧ (s.conns id).peer = p
  /-- Each is at a stage that fits its lock, and knows the other side once it is being completed. -/
  stage : ∀ id, id < s.count → ∃ st, Held s id st ∧ AtStage (s.conns id) st ∧
    (st.completed = 1 → Learned peers s id)
  /-- What the threads rely on. -/
  thread : ∀ t, ThreadOk peers s t (s.pc t)
  /-- A client's record on the wire. -/
  request : ∀ c wire, s.request c = some wire →
    Announced peers s (peers.caller c) (peers.callee c) (.ofWire wire)
  /-- A server's record on the wire. -/
  reply : ∀ c wire, s.reply c = some wire →
    Announced peers s (peers.callee c) (peers.caller c) (.ofWire wire)
  /-- A connection waits at the host it was made to. -/
  backlog : ∀ h c, c ∈ s.backlog h → peers.callee c = h

/-! ### What every step preserves -/

/-- Nothing that a thread relies on is taken back. -/
structure Extends (peers : Peers H C) (s s' : SetUpState H C) : Prop where
  /-- No transport is lost. -/
  count : s.count ≤ s'.count
  /-- Its owner stays. -/
  owner : ∀ id, id < s.count → (s'.conns id).owner = (s.conns id).owner
  /-- Its peer stays. -/
  peer : ∀ id, id < s.count → (s'.conns id).peer = (s.conns id).peer
  /-- A queue pair with its receives stays. -/
  hasAttr : ∀ id, id < s.count → ∀ attr, (s.conns id).HasAttr peers attr →
    (s'.conns id).HasAttr peers attr
  /-- What was learned of the other side stays. -/
  remoteAttr : ∀ id, id < s.count → Learned peers s id →
    (s'.conns id).remoteAttr = (s.conns id).remoteAttr
  /-- A record that was filled in stays. -/
  filled : ∀ id, id < s.count → (s.conns id).attr? peers = some (s.conns id).localAttr →
    (s'.conns id).attr? peers = some (s'.conns id).localAttr
  /-- `is_ready` stays. -/
  ready : ∀ id, id < s.count → (s.conns id).isReady = true → (s'.conns id).isReady = true

variable {peers : Peers H C} {s s' : SetUpState H C}

/-- What was announced stays announced. -/
theorem Announced.extends {h p : H} {attr : QpAttr} (hann : Announced peers s h p attr)
    (hext : Extends peers s s') : Announced peers s' h p attr := by
  obtain ⟨id, hid, rfl, rfl, hattr⟩ := hann
  exact ⟨id, hid.trans_le hext.count, hext.owner id hid, hext.peer id hid,
    hext.hasAttr id hid attr hattr⟩

/-- What was learned stays learned. -/
theorem Learned.extends {id : ℕ} (hlearned : Learned peers s id) (hid : id < s.count)
    (hext : Extends peers s s') : Learned peers s' id := by
  rw [Learned, hext.owner id hid, hext.peer id hid, hext.remoteAttr id hid hlearned]
  exact Announced.extends hlearned hext

/-- A thread that does not move can go on relying on what it relied on. -/
theorem AtPoint.extends {t : Tid H C} {point : Point} {sock : C} {value client : ℕ}
    (h : AtPoint peers s t point sock value client) (hext : Extends peers s s')
    (hlock : (s.conns value).lock = some t → (s'.conns value).lock = some t) :
    AtPoint peers s' t point sock value client where
  value_lt := h.value_lt.trans_le hext.count
  owner := (hext.owner value h.value_lt).trans h.owner
  peer := (hext.peer value h.value_lt).trans h.peer
  client_eq := h.client_eq
  sock := h.sock
  client := h.client
  server := h.server
  lock hpoint := hlock (h.lock hpoint)
  created hpoint := (h.created hpoint).imp fun attr => hext.hasAttr value h.value_lt attr
  filled hpoint := hext.filled value h.value_lt (h.filled hpoint)
  learned hpoint := (h.learned hpoint).extends h.value_lt hext
  ready hpoint := hext.ready value h.value_lt (h.ready hpoint)

/-- What holds of a thread at its program point stays when the state extends and the thread keeps
its locks. -/
theorem ThreadOk.extends {t : Tid H C} {pc : Pc C} (h : ThreadOk peers s t pc)
    (hext : Extends peers s s')
    (hlock : ∀ id, id < s.count → (s.conns id).lock = some t → (s'.conns id).lock = some t) :
    ThreadOk peers s' t pc := by
  cases pc with
  | idle => exact trivial
  | accepted sock => exact h
  | «at» point sock value client => exact AtPoint.extends h hext (hlock value (AtPoint.value_lt h))
  | returned value =>
    obtain ⟨c, rfl, hc⟩ := h
    exact ⟨c, rfl, hc.extends hext (hlock value hc.value_lt)⟩

/-- Two transports of one host for one peer are the same. -/
theorem SetUpInv.unique (h : SetUpInv peers s) {id id' : ℕ} (hid : id < s.count)
    (hid' : id' < s.count) (howner : (s.conns id).owner = (s.conns id').owner)
    (hpeer : (s.conns id).peer = (s.conns id').peer) : id = id' := by
  have h₁ := (h.entry _ _ id).mpr ⟨hid, howner, hpeer⟩
  have h₂ := (h.entry _ _ id').mpr ⟨hid', rfl, rfl⟩
  exact Option.some.inj (h₁.symm.trans h₂)

/-- A host announces one record to a peer. -/
theorem SetUpInv.announced_unique (h : SetUpInv peers s) {a b : H} {attr attr' : QpAttr}
    (hann : Announced peers s a b attr) (hann' : Announced peers s a b attr') : attr = attr' := by
  obtain ⟨id, hid, howner, hpeer, hattr⟩ := hann
  obtain ⟨id', hid', howner', hpeer', hattr'⟩ := hann'
  obtain rfl := h.unique hid hid' (howner.trans howner'.symm) (hpeer.trans hpeer'.symm)
  exact Option.some.inj (hattr.attr.symm.trans hattr'.attr)

/-- The thread that holds the lock of a transport works on it, inside a section. -/
theorem SetUpInv.holder (h : SetUpInv peers s) {id : ℕ} (hid : id < s.count) {t : Tid H C}
    (hlock : (s.conns id).lock = some t) :
    ∃ point sock client, s.pc t = .at point sock id client ∧ point.Critical := by
  obtain ⟨st, hheld, -, -⟩ := h.stage id hid
  rw [Held, hlock] at hheld
  obtain ⟨point, sock, client, hpc, hholds⟩ := hheld
  exact ⟨point, sock, client, hpc, hholds.critical⟩

/-- How a transport may change while others rely on it. -/
structure Connection.Extends (peers : Peers H C) (conn conn' : Connection H C) : Prop where
  /-- The owner stays. -/
  owner : conn'.owner = conn.owner
  /-- The peer stays. -/
  peer : conn'.peer = conn.peer
  /-- A queue pair with its receives stays. -/
  hasAttr : ∀ attr, conn.HasAttr peers attr → conn'.HasAttr peers attr
  /-- A record that was filled in stays. -/
  filled : conn.attr? peers = some conn.localAttr → conn'.attr? peers = some conn'.localAttr
  /-- `is_ready` stays. -/
  ready : conn.isReady = true → conn'.isReady = true

/-- A state in which one transport has changed. -/
structure Writes (s s' : SetUpState H C) (value : ℕ) (conn' : Connection H C) : Prop where
  /-- No transport is allocated. -/
  count : s'.count = s.count
  /-- The tables stay. -/
  table : s'.table = s.table
  /-- The transport is written. -/
  conns : s'.conns = Function.update s.conns value conn'

namespace Writes

variable {value : ℕ} {conn' : Connection H C}

/-- The transport that was written. -/
theorem self (h : Writes s s' value conn') : s'.conns value = conn' := by
  rw [h.conns, Function.update_self]

/-- The others. -/
theorem of_ne (h : Writes s s' value conn') {id : ℕ} (hid : id ≠ value) :
    s'.conns id = s.conns id := by
  rw [h.conns, Function.update_of_ne hid]

/-- Nothing is taken back when the transport only extends, and keeps what it learned. -/
theorem «extends» (h : Writes s s' value conn') (hconn : (s.conns value).Extends peers conn')
    (hremote : Learned peers s value → conn'.remoteAttr = (s.conns value).remoteAttr) :
    Extends peers s s' := by
  have heach : ∀ id, (s.conns id).Extends peers (s'.conns id) ∧
      (Learned peers s id → (s'.conns id).remoteAttr = (s.conns id).remoteAttr) := by
    intro id
    by_cases hid : id = value
    · subst hid
      rw [h.self]
      exact ⟨hconn, hremote⟩
    · rw [h.of_ne hid]
      exact ⟨⟨rfl, rfl, fun _ h => h, fun h => h, fun h => h⟩, fun _ => rfl⟩
  exact ⟨h.count.ge, fun id _ => (heach id).1.owner, fun id _ => (heach id).1.peer,
    fun id _ => (heach id).1.hasAttr, fun id _ => (heach id).2, fun id _ => (heach id).1.filled,
    fun id _ => (heach id).1.ready⟩

end Writes

/-- A thread moves from one point to another, and relies on what it did and what the step brings. -/
theorem AtPoint.move {t : Tid H C} {point point' : Point} {sock : C} {value client client' : ℕ}
    (h : AtPoint peers s t point sock value client) (hext : Extends peers s s')
    (hclient : client' = value) (hcall : point'.Client → ∃ c, t = .call c)
    (haccept : point'.Server → ∃ h, t = .accept h)
    (hlock : point'.Critical → (s'.conns value).lock = some t)
    (hcreated : point'.Created → point.Created ∨ ∃ attr, (s'.conns value).HasAttr peers attr)
    (hfilled : point'.Filled → point.Filled ∨
      (s'.conns value).attr? peers = some (s'.conns value).localAttr)
    (hlearned : point'.Learned → point.Learned ∨ Learned peers s' value)
    (hready : point'.Ready → (s'.conns value).isReady = true) :
    AtPoint peers s' t point' sock value client' where
  value_lt := h.value_lt.trans_le hext.count
  owner := (hext.owner value h.value_lt).trans h.owner
  peer := (hext.peer value h.value_lt).trans h.peer
  client_eq := hclient
  sock := h.sock
  client := hcall
  server := haccept
  lock := hlock
  created hpoint := (hcreated hpoint).elim
    (fun hold => (h.created hold).imp fun attr => hext.hasAttr value h.value_lt attr) id
  filled hpoint := (hfilled hpoint).elim
    (fun hold => hext.filled value h.value_lt (h.filled hold)) id
  learned hpoint := (hlearned hpoint).elim
    (fun hold => (h.learned hold).extends h.value_lt hext) id
  ready := hready

variable [DecidableEq H] [DecidableEq C]

/-- **What a step has to establish.** Thread `t` moves to `pc`. Nothing relied on is taken back, and
every transport is at a stage that fits its lock. -/
theorem SetUpInv.of_step (h : SetUpInv peers s) {t : Tid H C} {pc : Pc C}
    (hext : Extends peers s s') (hpc : s'.pc = Function.update s.pc t pc)
    (hentry : ∀ h p id, s'.table h p = some id ↔
      id < s'.count ∧ (s'.conns id).owner = h ∧ (s'.conns id).peer = p)
    (hlock : ∀ u, u ≠ t → ∀ id, id < s.count → (s.conns id).lock = some u →
      (s'.conns id).lock = some u)
    (hstage : ∀ id, id < s'.count → ∃ st, Held s' id st ∧ AtStage (s'.conns id) st ∧
      (st.completed = 1 → Learned peers s' id))
    (hthread : ThreadOk peers s' t pc)
    (hrequest : ∀ c wire, s'.request c = some wire → s.request c = some wire ∨
      Announced peers s' (peers.caller c) (peers.callee c) (.ofWire wire))
    (hreply : ∀ c wire, s'.reply c = some wire → s.reply c = some wire ∨
      Announced peers s' (peers.callee c) (peers.caller c) (.ofWire wire))
    (hbacklog : ∀ h c, c ∈ s'.backlog h → c ∈ s.backlog h ∨ peers.callee c = h) :
    SetUpInv peers s' where
  entry := hentry
  stage := hstage
  thread u := by
    rw [hpc]
    by_cases hu : u = t
    · subst hu
      rwa [Function.update_self]
    · rw [Function.update_of_ne hu]
      exact (h.thread u).extends hext (hlock u hu)
  request c wire hwire :=
    (hrequest c wire hwire).elim (fun hold => (h.request c wire hold).extends hext) id
  reply c wire hwire :=
    (hreply c wire hwire).elim (fun hold => (h.reply c wire hold).extends hext) id
  backlog a c hc := (hbacklog a c hc).elim (h.backlog a c) id

/-- The lock of a transport that the moving thread does not work on stays where it was. -/
theorem Held.of_ne {id : ℕ} {st : Stage} {t : Tid H C} {pc : Pc C} (hheld : Held s id st)
    (hpc : s'.pc = Function.update s.pc t pc) (hlock : (s'.conns id).lock = (s.conns id).lock)
    (hne : (s.conns id).lock ≠ some t) : Held s' id st := by
  rw [Held, hlock, hpc]
  rw [Held] at hheld
  split
  · rename_i hnone
    rwa [hnone] at hheld
  · rename_i u hu
    have hut : u ≠ t := fun hut => hne (by rw [hu, hut])
    rw [hu] at hheld
    rwa [Function.update_of_ne hut]

/-- **What a step at a point has to establish**: the thread changes the transport it works on, and
the sockets. -/
theorem SetUpInv.of_write (h : SetUpInv peers s) {t : Tid H C} {point : Point} {sock : C}
    {value client : ℕ} {conn' : Connection H C} {pc : Pc C}
    (hat : s.pc t = .at point sock value client) (hwrites : Writes s s' value conn')
    (hpc : s'.pc = Function.update s.pc t pc) (hconn : (s.conns value).Extends peers conn')
    (hremote : Learned peers s value → conn'.remoteAttr = (s.conns value).remoteAttr)
    (hlock : ∀ u, u ≠ t → (s.conns value).lock = some u → conn'.lock = some u)
    (hstage : Extends peers s s' → ∃ st, Held s' value st ∧ AtStage conn' st ∧
      (st.completed = 1 → Learned peers s' value))
    (hthread : Extends peers s s' → ThreadOk peers s' t pc)
    (hrequest : ∀ c wire, s'.request c = some wire → s.request c = some wire ∨
      Announced peers s' (peers.caller c) (peers.callee c) (.ofWire wire))
    (hreply : ∀ c wire, s'.reply c = some wire → s.reply c = some wire ∨
      Announced peers s' (peers.callee c) (peers.caller c) (.ofWire wire))
    (hbacklog : ∀ h c, c ∈ s'.backlog h → c ∈ s.backlog h ∨ peers.callee c = h) :
    SetUpInv peers s' := by
  have hext := hwrites.extends hconn hremote
  refine h.of_step hext hpc ?_ ?_ ?_ (hthread hext) hrequest hreply hbacklog
  · -- No transport changes hands, so the table is right as it is.
    intro a b id
    rw [hwrites.table, h.entry, hwrites.count]
    refine and_congr_right fun hid => ?_
    rw [hext.owner id hid, hext.peer id hid]
  · intro u hu id hid hheld
    by_cases hvalue : id = value
    · subst hvalue
      rw [hwrites.self]
      exact hlock u hu hheld
    · rwa [hwrites.of_ne hvalue]
  · intro id hid
    rw [hwrites.count] at hid
    by_cases hvalue : id = value
    · subst hvalue
      rw [hwrites.self]
      exact hstage hext
    · -- The thread holds no lock but that of the transport it works on.
      have hne : (s.conns id).lock ≠ some t := by
        intro hheld
        obtain ⟨point', sock', client', hat', -⟩ := h.holder hid hheld
        rw [hat] at hat'
        cases hat'
        exact hvalue rfl
      obtain ⟨st, hheld, hfields, hlearned⟩ := h.stage id hid
      rw [hwrites.of_ne hvalue]
      exact ⟨st, hheld.of_ne hpc (by rw [hwrites.of_ne hvalue]) hne, hfields,
        fun hst => (hlearned hst).extends hid hext⟩

end SparkRdma
