import Mathlib.Data.List.Count
import SparkRdma.Connection.Agreement
import SparkRdma.Foundations.Projection

/-! # The exchange on one socket

A call that finds no entry in the table connects to the other host once, writes its record and reads
the other's; the accept thread there takes the connection from its queue, reads and answers. What
the two ends of one socket do can be looked at alone: the machine `socket` is the exchange as such,
with neither locks nor queue pairs, and every connection of `setUp` runs as it does. It passes
through eight states only, in which whoever waits for a record waits for one that comes.

* **`ThreadMoves`** — what a step of a thread does to its program point and to the sockets.
* **`moves_of_step`** — every step of `setUp` is such a move.
* **`socket`** — the exchange, and `socket_reaches`, the states it passes through.
* **`setUp_projects_socket`** — every connection runs as the exchange does. -/

namespace SparkRdma

open Interleaving SetUpState

variable {H C : Type}

/-! ### What a step moves -/

/-- The ways from one point to the next on which the sockets are not used. -/
inductive Flow : Tid H C → Point → Point → Prop
  | create {t} : Flow t .lockCreate .createQp
  | skipCreate {t} : Flow t .lockCreate .unlockCreate
  | createQp {t} : Flow t .createQp .modifyInit
  | modifyInit {t} : Flow t .modifyInit .postRecv
  | postRecv {t} : Flow t .postRecv .unlockCreate
  | callCreated {c} : Flow (.call c) .unlockCreate .connect
  | acceptCreated {h} : Flow (.accept h) .unlockCreate .fillLocal
  | callFilled {c} : Flow (.call c) .fillLocal .clientWrite
  | acceptFilled {h} : Flow (.accept h) .fillLocal .serverRead
  | complete {t} : Flow t .lockComplete .rtr
  | skipComplete {t} : Flow t .lockComplete .unlockComplete
  | rtr {t} : Flow t .rtr .rts
  | rts {t} : Flow t .rts .setReady
  | setReady {t} : Flow t .setReady .unlockComplete
  | callCompleted {c} : Flow (.call c) .unlockComplete .finish
  | look {t} : Flow t .waiting .waiting
  | seen {t} : Flow t .waiting .finish

/-- Both states have the same on the sockets. -/
structure SameSockets (s s' : SetUpState H C) : Prop where
  /-- In the queues of the listening sockets. -/
  backlog : s'.backlog = s.backlog
  /-- From the clients. -/
  request : s'.request = s.request
  /-- From the servers. -/
  reply : s'.reply = s.reply

section Moves

variable [DecidableEq H] [DecidableEq C]

/-- What a step of thread `t` does to its program point and to the sockets. -/
inductive ThreadMoves (peers : Peers H C) (s s' : SetUpState H C) : Tid H C → Prop
  /-- A call starts, and finds an entry in the table or makes one. -/
  | start {c point value} (hat : s.pc (.call c) = .idle)
      (hpoint : point = .lockCreate ∨ point = .finish ∨ point = .waiting)
      (hpc : s'.pc = Function.update s.pc (.call c) (.at point c value value))
      (hsame : SameSockets s s') : ThreadMoves peers s s' (.call c)
  /-- A thread goes from one point to the next. -/
  | flow {t point point' sock value client} (hat : s.pc t = .at point sock value client)
      (hflow : Flow t point point')
      (hpc : s'.pc = Function.update s.pc t (.at point' sock value client))
      (hsame : SameSockets s s') : ThreadMoves peers s s' t
  /-- A call connects. -/
  | connect {t sock value client client'} (hat : s.pc t = .at .connect sock value client)
      (hpc : s'.pc = Function.update s.pc t (.at .fillLocal sock value client'))
      (hbacklog : s'.backlog = Function.update s.backlog (t.other peers sock)
        (s.backlog (t.other peers sock) ++ [sock]))
      (hrequest : s'.request = s.request) (hreply : s'.reply = s.reply) : ThreadMoves peers s s' t
  /-- It writes its record. -/
  | clientWrite {t sock value client} (wire : WireAttr)
      (hat : s.pc t = .at .clientWrite sock value client)
      (hpc : s'.pc = Function.update s.pc t (.at .clientRead sock value client))
      (hbacklog : s'.backlog = s.backlog)
      (hrequest : s'.request = Function.update s.request sock (some wire))
      (hreply : s'.reply = s.reply) : ThreadMoves peers s s' t
  /-- It reads the other's. -/
  | clientRead {t sock value client} (wire : WireAttr)
      (hat : s.pc t = .at .clientRead sock value client) (hwire : s.reply sock = some wire)
      (hpc : s'.pc = Function.update s.pc t (.at .lockComplete sock value client))
      (hbacklog : s'.backlog = s.backlog) (hrequest : s'.request = s.request)
      (hreply : s'.reply = Function.update s.reply sock none) : ThreadMoves peers s s' t
  /-- It returns. -/
  | finish {t sock value client} (hat : s.pc t = .at .finish sock value client)
      (hpc : s'.pc = Function.update s.pc t (.returned value)) (hsame : SameSockets s s') :
      ThreadMoves peers s s' t
  /-- An accept thread accepts a connection. -/
  | accept {h sock rest} (hat : s.pc (.accept h) = .idle) (hqueue : s.backlog h = sock :: rest)
      (hpc : s'.pc = Function.update s.pc (.accept h) (.accepted sock))
      (hbacklog : s'.backlog = Function.update s.backlog h rest) (hrequest : s'.request = s.request)
      (hreply : s'.reply = s.reply) : ThreadMoves peers s s' (.accept h)
  /-- It finds the entry of the client in the table, or makes one. -/
  | lookup {h sock value} (hat : s.pc (.accept h) = .accepted sock)
      (hpc : s'.pc = Function.update s.pc (.accept h) (.at .lockCreate sock value value))
      (hsame : SameSockets s s') : ThreadMoves peers s s' (.accept h)
  /-- It reads the record of the client. -/
  | serverRead {t sock value client} (wire : WireAttr)
      (hat : s.pc t = .at .serverRead sock value client) (hwire : s.request sock = some wire)
      (hpc : s'.pc = Function.update s.pc t (.at .serverWrite sock value client))
      (hbacklog : s'.backlog = s.backlog)
      (hrequest : s'.request = Function.update s.request sock none)
      (hreply : s'.reply = s.reply) : ThreadMoves peers s s' t
  /-- It answers. -/
  | serverWrite {t sock value client} (wire : WireAttr)
      (hat : s.pc t = .at .serverWrite sock value client)
      (hpc : s'.pc = Function.update s.pc t (.at .lockComplete sock value client))
      (hbacklog : s'.backlog = s.backlog) (hrequest : s'.request = s.request)
      (hreply : s'.reply = Function.update s.reply sock (some wire)) : ThreadMoves peers s s' t
  /-- It goes back to `accept`. -/
  | leave {h sock value client} (hat : s.pc (.accept h) = .at .unlockComplete sock value client)
      (hpc : s'.pc = Function.update s.pc (.accept h) .idle) (hsame : SameSockets s s') :
      ThreadMoves peers s s' (.accept h)

variable {peers : Peers H C} {s s' : SetUpState H C}

omit [DecidableEq C] in
/-- A lookup leaves the threads and the sockets alone. -/
theorem lookupOrCreate_sockets (s : SetUpState H C) (h p : H) :
    (s.lookupOrCreate h p).2.pc = s.pc ∧ SameSockets s (s.lookupOrCreate h p).2 := by
  unfold SetUpState.lookupOrCreate
  split <;> exact ⟨rfl, rfl, rfl, rfl⟩

/-- A thread at a point moves. -/
theorem moves_of_pointStep {t : Tid H C} {point : Point} {sock : C} {value client : ℕ}
    (hat : s.pc t = .at point sock value client)
    (hstep : s.pointStep peers t sock value client point = some (.ok s')) :
    ThreadMoves peers s s' t := by
  cases point with
  | lockCreate =>
    simp only [pointStep] at hstep
    split at hstep
    · cases hstep
      split
      · exact .flow hat .create rfl ⟨rfl, rfl, rfl⟩
      · exact .flow hat .skipCreate rfl ⟨rfl, rfl, rfl⟩
    · cases hstep
  | postRecv =>
    cases hstep
    exact .flow hat .postRecv rfl ⟨rfl, rfl, rfl⟩
  | unlockCreate =>
    cases t with
    | call c =>
      cases hstep
      exact .flow hat .callCreated rfl ⟨rfl, rfl, rfl⟩
    | accept h =>
      cases hstep
      exact .flow hat .acceptCreated rfl ⟨rfl, rfl, rfl⟩
  | connect =>
    simp only [pointStep] at hstep
    split at hstep
    · cases hstep
    · split at hstep <;> cases hstep
      exact .connect hat rfl rfl rfl rfl
  | fillLocal =>
    simp only [pointStep] at hstep
    split at hstep
    · cases hstep
    · cases t with
      | call c =>
        cases hstep
        exact .flow hat .callFilled rfl ⟨rfl, rfl, rfl⟩
      | accept h =>
        cases hstep
        exact .flow hat .acceptFilled rfl ⟨rfl, rfl, rfl⟩
  | clientWrite =>
    cases hstep
    exact .clientWrite _ hat rfl rfl rfl rfl
  | clientRead =>
    simp only [pointStep] at hstep
    split at hstep <;> cases hstep
    exact .clientRead _ hat ‹_› rfl rfl rfl rfl
  | serverRead =>
    simp only [pointStep] at hstep
    split at hstep <;> cases hstep
    exact .serverRead _ hat ‹_› rfl rfl rfl rfl
  | serverWrite =>
    cases hstep
    exact .serverWrite _ hat rfl rfl rfl rfl
  | lockComplete =>
    simp only [pointStep] at hstep
    split at hstep
    · split at hstep <;> cases hstep
      · exact .flow hat .skipComplete rfl ⟨rfl, rfl, rfl⟩
      · exact .flow hat .complete rfl ⟨rfl, rfl, rfl⟩
    · cases hstep
  | setReady =>
    cases hstep
    exact .flow hat .setReady rfl ⟨rfl, rfl, rfl⟩
  | unlockComplete =>
    cases t with
    | call c =>
      cases hstep
      exact .flow hat .callCompleted rfl ⟨rfl, rfl, rfl⟩
    | accept h =>
      cases hstep
      exact .leave hat rfl ⟨rfl, rfl, rfl⟩
  | waiting =>
    simp only [pointStep] at hstep
    split at hstep
    · cases hstep
      split
      · exact .flow hat .seen rfl ⟨rfl, rfl, rfl⟩
      · exact .flow hat .look rfl ⟨rfl, rfl, rfl⟩
    · cases hstep
  | finish =>
    simp only [pointStep] at hstep
    split at hstep <;> cases hstep
    exact .finish hat rfl ⟨rfl, rfl, rfl⟩
  | createQp | modifyInit | rtr | rts => cases hstep

/-- A thread whose `ibv_modify_qp` returns moves. -/
theorem moves_of_modifyStep {t : Tid H C} {point : Point} {sock : C} {value client : ℕ} {res : ℤ}
    (hat : s.pc t = .at point sock value client)
    (hstep : s.modifyStep t res sock value client point = some (.ok s')) :
    ThreadMoves peers s s' t := by
  simp only [modifyStep] at hstep
  split at hstep
  · cases hstep
  · split at hstep
    · obtain ⟨⟨ret, qp'⟩, -, heq⟩ := Option.map_eq_some_iff.mp hstep
      split at heq <;> cases heq
      exact .flow hat .modifyInit rfl ⟨rfl, rfl, rfl⟩
    · obtain ⟨⟨ret, qp'⟩, -, heq⟩ := Option.map_eq_some_iff.mp hstep
      split at heq <;> cases heq
      exact .flow hat .rtr rfl ⟨rfl, rfl, rfl⟩
    · obtain ⟨⟨ret, qp'⟩, -, heq⟩ := Option.map_eq_some_iff.mp hstep
      split at heq <;> cases heq
      exact .flow hat .rts rfl ⟨rfl, rfl, rfl⟩
    · cases hstep

/-- The thread that takes the step. -/
def SetUpAct.thread : SetUpAct H C → Tid H C
  | run t => t
  | createQp t _ => t
  | modifyQp t _ => t

/-- **Every step moves its thread.** -/
theorem moves_of_step {act : SetUpAct H C} (hstep : setUpStep peers s act = some (.ok s')) :
    ThreadMoves peers s s' act.thread := by
  cases act with
  | createQp t num =>
    simp only [setUpStep] at hstep
    split at hstep <;> cases hstep
    exact .flow ‹_› .createQp rfl ⟨rfl, rfl, rfl⟩
  | modifyQp t res =>
    simp only [setUpStep] at hstep
    split at hstep
    · exact moves_of_modifyStep ‹_› hstep
    · cases hstep
  | run t =>
    simp only [setUpStep, runStep] at hstep
    split at hstep
    · rename_i c hat
      split at hstep <;> cases hstep
      · obtain ⟨hpc, hsame⟩ := lookupOrCreate_sockets s (peers.caller c) (peers.callee c)
        exact .start hat (.inl rfl) (by simp only [goto, hpc]; rfl)
          ⟨hsame.backlog, hsame.request, hsame.reply⟩
      · refine .start hat ?_ rfl ⟨rfl, rfl, rfl⟩
        split
        · exact .inr (.inl rfl)
        · exact .inr (.inr rfl)
    · split at hstep <;> cases hstep
      exact .accept ‹_› ‹_› rfl rfl rfl rfl
    · rename_i sock h hat
      cases hstep
      obtain ⟨hpc, hsame⟩ := lookupOrCreate_sockets s h (peers.caller sock)
      exact .lookup hat (by simp only [goto, hpc]; rfl) ⟨hsame.backlog, hsame.request, hsame.reply⟩
    · exact moves_of_pointStep ‹_› hstep
    · cases hstep

end Moves

/-! ### The exchange -/

/-- Where the client of a socket stands. -/
inductive ClientPhase
  /-- It has not connected. -/
  | before
  /-- It has, and not written its record. -/
  | connected
  /-- It has, and waits for the other's. -/
  | reading
  /-- It has read it, or has no use for the socket. -/
  | after
  deriving DecidableEq, Repr

/-- What the accept thread the socket is connected to is doing with it. -/
inductive ServerPhase
  /-- Nothing, or nothing any more. -/
  | away
  /-- It has accepted it, and not read the client's record. -/
  | unread
  /-- It has read it, and not answered. -/
  | unanswered
  deriving DecidableEq, Repr

/-- The exchange on one socket. -/
structure SocketState where
  /-- The client. -/
  client : ClientPhase
  /-- The server. -/
  server : ServerPhase
  /-- How often the socket waits to be accepted. -/
  queued : ℕ
  /-- Whether there is a record of the client to be read. -/
  request : Bool
  /-- Whether there is one of the server. -/
  reply : Bool
  deriving DecidableEq, Repr

/-- The steps of the exchange. -/
inductive SocketAct
  /-- The client finds an entry in its table, and will not connect. -/
  | skip
  /-- It connects. -/
  | connect
  /-- It writes. -/
  | clientWrite
  /-- It reads. -/
  | clientRead
  /-- The server accepts the socket. -/
  | accept
  /-- It reads. -/
  | serverRead
  /-- It writes. -/
  | serverWrite
  deriving DecidableEq, Repr

/-- One step. -/
def socketStep (v : SocketState) : SocketAct → Option (Except Empty SocketState)
  | .skip => if v.client = .before then some (.ok { v with client := .after }) else none
  | .connect =>
      if v.client = .before then
        some (.ok { v with client := .connected, queued := v.queued + 1 })
      else none
  | .clientWrite =>
      if v.client = .connected then some (.ok { v with client := .reading, request := true })
      else none
  | .clientRead =>
      if v.client = .reading ∧ v.reply then
        some (.ok { v with client := .after, reply := false })
      else none
  | .accept =>
      if v.server = .away ∧ 0 < v.queued then
        some (.ok { v with server := .unread, queued := v.queued - 1 })
      else none
  | .serverRead =>
      if v.server = .unread ∧ v.request then
        some (.ok { v with server := .unanswered, request := false })
      else none
  | .serverWrite =>
      if v.server = .unanswered then some (.ok { v with server := .away, reply := true })
      else none

/-- The exchange, from before the call. -/
def socket : Machine SocketState Empty SocketAct where
  init := ⟨.before, .away, 0, false, false⟩
  step := socketStep

/-- The states it passes through. -/
def socketStates : List SocketState :=
  [⟨.before, .away, 0, false, false⟩,
    ⟨.connected, .away, 1, false, false⟩, ⟨.connected, .unread, 0, false, false⟩,
    -- the client has written
    ⟨.reading, .away, 1, true, false⟩, ⟨.reading, .unread, 0, true, false⟩,
    ⟨.reading, .unanswered, 0, false, false⟩, ⟨.reading, .away, 0, false, true⟩,
    ⟨.after, .away, 0, false, false⟩]

/-- A step leads from one of them to another. -/
theorem mem_socketStates_step {v v' : SocketState} (hv : v ∈ socketStates) {a : SocketAct}
    (hstep : socketStep v a = some (.ok v')) : v' ∈ socketStates := by
  have hall : ∀ v ∈ socketStates, ∀ v' ∈ (socketStep v a).bind Except.toOption,
      v' ∈ socketStates := by
    cases a <;> decide
  refine hall v hv v' ?_
  rw [hstep]
  rfl

/-- **The exchange passes through these states only.** -/
theorem socket_reaches {P : SocketState → SocketAct → Prop} {v : SocketState}
    (hv : socket.ReachableUnder P v) : v ∈ socketStates := by
  have hinit : socket.init ∈ socketStates := List.mem_cons_self
  exact hv.invariant hinit fun _ _ _ _ h _ hstep => mem_socketStates_step h hstep

/-- A server waits for a record that the client has yet to write. -/
theorem client_of_unread : ∀ v ∈ socketStates, v.server = .unread → v.request = false →
    v.client = .connected := by
  decide

/-- A client waits for a record that the server has yet to write, or for the server to accept. -/
theorem server_of_reading : ∀ v ∈ socketStates, v.client = .reading → v.reply = false →
    v.server = .unread ∨ v.server = .unanswered ∨ v.queued = 1 := by
  decide

/-! ### Every connection runs as the exchange does -/

/-- Where a call at the point stands with its socket. -/
def Point.clientPhase : Point → ClientPhase
  | lockCreate | createQp | modifyInit | postRecv | unlockCreate | connect => .before
  | fillLocal | clientWrite => .connected
  | clientRead => .reading
  | serverRead | serverWrite | lockComplete | rtr | rts | setReady | unlockComplete | waiting
  | finish => .after

/-- What an accept thread at the point is doing with its socket. -/
def Point.serverPhase : Point → ServerPhase
  | lockCreate | createQp | modifyInit | postRecv | unlockCreate | fillLocal | serverRead => .unread
  | serverWrite => .unanswered
  | connect | clientWrite | clientRead | lockComplete | rtr | rts | setReady | unlockComplete
  | waiting | finish => .away

/-- Where a call stands with its socket. -/
def Pc.clientPhase : Pc C → ClientPhase
  | idle => .before
  | .at point _ _ _ => point.clientPhase
  | accepted _ | returned _ => .after

/-- On the way of a call between two uses of its socket its phase stays. -/
theorem Flow.clientPhase {c : C} {point point' : Point}
    (h : Flow (.call c : Tid H C) point point') : point'.clientPhase = point.clientPhase := by
  cases h <;> rfl

/-- On the way of an accept thread between two uses of its socket its phase stays. -/
theorem Flow.serverPhase {a : H} {point point' : Point}
    (h : Flow (.accept a : Tid H C) point point') : point'.serverPhase = point.serverPhase := by
  cases h <;> rfl

section View

variable [DecidableEq C]

/-- What an accept thread is doing with the socket of `c`. -/
def Pc.serverPhase (c : C) : Pc C → ServerPhase
  | accepted sock => if sock = c then .unread else .away
  | .at point sock _ _ => if sock = c then point.serverPhase else .away
  | idle | returned _ => .away

/-- The exchange on the socket of `c`. -/
def SetUpState.socketState (peers : Peers H C) (c : C) (s : SetUpState H C) : SocketState :=
  ⟨(s.pc (.call c)).clientPhase, (s.pc (.accept (peers.callee c))).serverPhase c,
    (s.backlog (peers.callee c)).count c, (s.request c).isSome, (s.reply c).isSome⟩

variable [DecidableEq H] {peers : Peers H C} {s s' : SetUpState H C} {c₀ : C} {a : H} {pc : Pc C}

/-- A call moves. -/
theorem socketState_of_call (hpc : s'.pc = Function.update s.pc (.call c₀) pc) (c : C) :
    s'.socketState peers c = { s.socketState peers c with
      client := if c = c₀ then pc.clientPhase else (s.pc (.call c)).clientPhase
      queued := (s'.backlog (peers.callee c)).count c
      request := (s'.request c).isSome
      reply := (s'.reply c).isSome } := by
  have hclient : (s'.pc (.call c)).clientPhase
      = if c = c₀ then pc.clientPhase else (s.pc (.call c)).clientPhase := by
    rw [hpc]
    split
    · subst c
      rw [Function.update_self]
    · rw [Function.update_of_ne (by simpa)]
  have hserver : s'.pc (.accept (peers.callee c)) = s.pc (.accept (peers.callee c)) := by
    rw [hpc, Function.update_of_ne (by simp)]
  simp only [socketState, hclient, hserver]

/-- An accept thread moves. -/
theorem socketState_of_accept (hpc : s'.pc = Function.update s.pc (.accept a) pc) (c : C) :
    s'.socketState peers c = { s.socketState peers c with
      server := if peers.callee c = a then pc.serverPhase c
        else (s.pc (.accept (peers.callee c))).serverPhase c
      queued := (s'.backlog (peers.callee c)).count c
      request := (s'.request c).isSome
      reply := (s'.reply c).isSome } := by
  have hserver : (s'.pc (.accept (peers.callee c))).serverPhase c
      = if peers.callee c = a then pc.serverPhase c
        else (s.pc (.accept (peers.callee c))).serverPhase c := by
    rw [hpc]
    split
    · subst a
      rw [Function.update_self]
    · rw [Function.update_of_ne (by simpa)]
  have hclient : s'.pc (.call c) = s.pc (.call c) := by
    rw [hpc, Function.update_of_ne (by simp)]
  simp only [socketState, hclient, hserver]

/-- A call that does not use its socket. -/
theorem socketState_of_call_same (hpc : s'.pc = Function.update s.pc (.call c₀) pc)
    (hsame : SameSockets s s') (hphase : pc.clientPhase = (s.pc (.call c₀)).clientPhase) (c : C) :
    s'.socketState peers c = s.socketState peers c := by
  rw [socketState_of_call hpc, hsame.backlog, hsame.request, hsame.reply, hphase]
  split
  · subst c
    rfl
  · rfl

/-- An accept thread that does not use its socket. -/
theorem socketState_of_accept_same (hpc : s'.pc = Function.update s.pc (.accept a) pc)
    (hsame : SameSockets s s') (hphase : ∀ c, pc.serverPhase c = (s.pc (.accept a)).serverPhase c)
    (c : C) : s'.socketState peers c = s.socketState peers c := by
  rw [socketState_of_accept hpc, hsame.backlog, hsame.request, hsame.reply, hphase]
  split
  · subst a
    rfl
  · rfl

omit [DecidableEq C] [DecidableEq H] in
/-- A thread at a client's point is the call whose socket it uses. -/
theorem SetUpInv.eq_call (h : SetUpInv peers s) {t : Tid H C} {point : Point} {sock : C}
    {value client : ℕ} (hat : s.pc t = .at point sock value client) (hpoint : point.Client) :
    t = .call sock := by
  have hthread := h.thread t
  rw [hat] at hthread
  obtain ⟨c, rfl⟩ := AtPoint.client hthread hpoint
  rw [show sock = c from AtPoint.sock hthread]

omit [DecidableEq C] [DecidableEq H] in
/-- A thread at a server's point is the accept thread the socket is connected to. -/
theorem SetUpInv.eq_accept (h : SetUpInv peers s) {t : Tid H C} {point : Point} {sock : C}
    {value client : ℕ} (hat : s.pc t = .at point sock value client) (hpoint : point.Server) :
    t = .accept (peers.callee sock) := by
  have hthread := h.thread t
  rw [hat] at hthread
  obtain ⟨a, rfl⟩ := AtPoint.server hthread hpoint
  rw [show peers.callee sock = a from AtPoint.sock hthread]

/-- **What a step is to the exchange on a socket**: nothing, or a step of it. -/
theorem ThreadMoves.socketState {t : Tid H C} (hmoves : ThreadMoves peers s s' t)
    (h : SetUpInv peers s) (c : C) : s'.socketState peers c = s.socketState peers c ∨
      ∃ b, socketStep (s.socketState peers c) b = some (.ok (s'.socketState peers c)) := by
  cases hmoves with
  | @start c₀ point value hat hpoint hpc hsame =>
    obtain rfl | hskip := hpoint
    · exact .inl (socketState_of_call_same hpc hsame (by rw [hat]; rfl) c)
    · by_cases hc : c = c₀
      · subst hc
        refine .inr ⟨.skip, ?_⟩
        have hafter : point.clientPhase = .after := by
          obtain rfl | rfl := hskip <;> rfl
        rw [socketState_of_call hpc, hsame.backlog, hsame.request, hsame.reply]
        simp [socketStep, SetUpState.socketState, hat, Pc.clientPhase, hafter]
      · refine .inl ?_
        rw [socketState_of_call hpc, hsame.backlog, hsame.request, hsame.reply, if_neg hc]
        rfl
  | @flow _ point point' sock value client hat hflow hpc hsame =>
    cases t with
    | call c₀ =>
      refine .inl (socketState_of_call_same hpc hsame ?_ c)
      rw [hat]
      exact hflow.clientPhase
    | accept a =>
      refine .inl (socketState_of_accept_same hpc hsame (fun c => ?_) c)
      rw [hat, Pc.serverPhase, Pc.serverPhase, hflow.serverPhase]
  | @connect _ sock value client client' hat hpc hbacklog hrequest hreply =>
    obtain rfl := h.eq_call hat trivial
    rw [socketState_of_call hpc, hbacklog, hrequest, hreply]
    by_cases hc : c = sock
    · subst hc
      refine .inr ⟨.connect, ?_⟩
      simp [socketStep, SetUpState.socketState, hat, Pc.clientPhase, Point.clientPhase, Tid.other]
    · refine .inl ?_
      have hcount : (Function.update s.backlog (peers.callee sock)
          (s.backlog (peers.callee sock) ++ [sock]) (peers.callee c)).count c
            = (s.backlog (peers.callee c)).count c := by
        by_cases hcallee : peers.callee c = peers.callee sock
        · have hone : [sock].count c = 0 := List.count_eq_zero_of_not_mem (by simpa using hc)
          rw [hcallee, Function.update_self, List.count_append, hone, Nat.add_zero]
        · rw [Function.update_of_ne hcallee]
      rw [if_neg hc, Tid.other, hcount]
      rfl
  | @clientWrite _ sock value client wire hat hpc hbacklog hrequest hreply =>
    obtain rfl := h.eq_call hat trivial
    rw [socketState_of_call hpc, hbacklog, hrequest, hreply]
    by_cases hc : c = sock
    · subst hc
      refine .inr ⟨.clientWrite, ?_⟩
      simp [socketStep, SetUpState.socketState, hat, Pc.clientPhase, Point.clientPhase]
    · rw [if_neg hc, Function.update_of_ne hc]
      exact .inl rfl
  | @clientRead _ sock value client wire hat hwire hpc hbacklog hrequest hreply =>
    obtain rfl := h.eq_call hat trivial
    rw [socketState_of_call hpc, hbacklog, hrequest, hreply]
    by_cases hc : c = sock
    · subst hc
      refine .inr ⟨.clientRead, ?_⟩
      simp [socketStep, SetUpState.socketState, hat, hwire, Pc.clientPhase, Point.clientPhase]
    · rw [if_neg hc, Function.update_of_ne hc]
      exact .inl rfl
  | @finish _ sock value client hat hpc hsame =>
    obtain rfl := h.eq_call hat trivial
    exact .inl (socketState_of_call_same hpc hsame (by rw [hat]; rfl) c)
  | @accept a sock rest hat hqueue hpc hbacklog hrequest hreply =>
    have hcallee := h.backlog a sock (by simp [hqueue])
    rw [socketState_of_accept hpc, hbacklog, hrequest, hreply]
    by_cases hc : c = sock
    · subst hc
      refine .inr ⟨.accept, ?_⟩
      simp [socketStep, SetUpState.socketState, hcallee, hat, hqueue, Pc.serverPhase]
    · refine .inl ?_
      have hne : sock ≠ c := fun heq => hc heq.symm
      by_cases ha : peers.callee c = a
      · simp [SetUpState.socketState, ha, hat, hqueue, Pc.serverPhase, hne]
      · rw [if_neg ha, Function.update_of_ne ha]
        rfl
  | @lookup a sock value hat hpc hsame =>
    exact .inl (socketState_of_accept_same hpc hsame (fun _ => by rw [hat]; rfl) c)
  | @serverRead _ sock value client wire hat hwire hpc hbacklog hrequest hreply =>
    obtain rfl := h.eq_accept hat trivial
    rw [socketState_of_accept hpc, hbacklog, hrequest, hreply]
    by_cases hc : c = sock
    · subst hc
      refine .inr ⟨.serverRead, ?_⟩
      simp [socketStep, SetUpState.socketState, hat, hwire, Pc.serverPhase, Point.serverPhase]
    · refine .inl ?_
      have hne : sock ≠ c := fun heq => hc heq.symm
      rw [Function.update_of_ne hc]
      split
      · rename_i hcallee
        simp [SetUpState.socketState, hcallee, hat, Pc.serverPhase, hne]
      · rfl
  | @serverWrite _ sock value client wire hat hpc hbacklog hrequest hreply =>
    obtain rfl := h.eq_accept hat trivial
    rw [socketState_of_accept hpc, hbacklog, hrequest, hreply]
    by_cases hc : c = sock
    · subst hc
      refine .inr ⟨.serverWrite, ?_⟩
      simp [socketStep, SetUpState.socketState, hat, Pc.serverPhase, Point.serverPhase]
    · refine .inl ?_
      have hne : sock ≠ c := fun heq => hc heq.symm
      rw [Function.update_of_ne hc]
      split
      · rename_i hcallee
        simp [SetUpState.socketState, hcallee, hat, Pc.serverPhase, hne]
      · rfl
  | @leave a sock value client hat hpc hsame =>
    refine .inl (socketState_of_accept_same hpc hsame (fun c => ?_) c)
    rw [hat, Pc.serverPhase, Pc.serverPhase]
    split <;> rfl

/-- **Every connection runs as the exchange does.** -/
theorem setUp_projects_socket [Inhabited H] (peers : Peers H C) (c : C) :
    (setUp peers).Projects SetUpAct.NoErrno socket (fun _ _ => True)
      (SetUpState.socketState peers c) where
  init := rfl
  step hs _ hstep := by
    obtain heq | ⟨b, hb⟩ := (moves_of_step hstep).socketState (setUpInv_of_reachable hs) c
    · exact .inl heq
    · exact .inr ⟨b, trivial, hb⟩

end View

end SparkRdma
