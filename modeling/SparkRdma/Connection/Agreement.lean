import SparkRdma.Connection.Steps

/-! # Both sides agree

What follows of every reachable state of `setUp`: a pair of hosts sets up one queue pair on each
side, each towards the other, and a transport is ready only behind a connected queue pair. The
second holds as long as no `ibv_modify_qp` returns a positive error number, which the functions
around it take for success.

* **`setUp_agrees`** — set-up agrees on both sides when every `ibv_modify_qp` succeeds.
* **`ready_connected`** — a ready transport has a connected queue pair when none returns a positive
  error number.
* **`ready_unconnected`** — a run in which one does, and a transport is ready all the same. -/

namespace SparkRdma

open Interleaving SetUpState

variable {H C : Type} [DecidableEq H] [DecidableEq C] {peers : Peers H C} {s : SetUpState H C}

/-- Every `ibv_modify_qp` succeeds. -/
def SetUpAct.Succeeds (_ : SetUpState H C) : SetUpAct H C → Prop
  | modifyQp _ res => res = 0
  | _ => True

/-- No `ibv_modify_qp` returns a positive error number. -/
def SetUpAct.NoErrno (_ : SetUpState H C) : SetUpAct H C → Prop
  | modifyQp _ res => res ≤ 0
  | _ => True

/-- What `ibv_modify_qp` may return: 0 or a positive error number. -/
def SetUpAct.Documented (_ : SetUpState H C) : SetUpAct H C → Prop
  | modifyQp _ res => 0 ≤ res
  | _ => True

instance (s : SetUpState H C) : ∀ act, Decidable (SetUpAct.Succeeds s act)
  | .modifyQp _ res => inferInstanceAs (Decidable (res = 0))
  | .run _ => .isTrue trivial
  | .createQp _ _ => .isTrue trivial

instance (s : SetUpState H C) : ∀ act, Decidable (SetUpAct.Documented s act)
  | .modifyQp _ res => inferInstanceAs (Decidable (0 ≤ res))
  | .run _ => .isTrue trivial
  | .createQp _ _ => .isTrue trivial

/-- The queue pair of host `h` for `p` is there, its receives are posted, and `attr` names it. -/
def Names (peers : Peers H C) (s : SetUpState H C) (h p : H) (attr : QpAttr) : Prop :=
  ∃ id qp, s.table h p = some id ∧ (s.conns id).rcQp = some qp ∧
    attr = ⟨peers.lid h, qp.num, 0⟩ ∧ (s.conns id).posted = maxPreRecvQp.toNat

/-- **Set-up agrees on both sides.** -/
structure Agreement (peers : Peers H C) (s : SetUpState H C) : Prop where
  /-- A host makes one transport for a peer: the one in its table. -/
  one_transport : ∀ id, id < s.count →
    s.table (s.conns id).owner (s.conns id).peer = some id
  /-- It creates one queue pair for it. -/
  one_qp : ∀ id, id < s.count →
    (s.conns id).created = if (s.conns id).rcQp = none then 0 else 1
  /-- It runs `rdma_complete_connect` on it at most once. -/
  completed_le_one : ∀ id, id < s.count → (s.conns id).completed ≤ 1
  /-- When `rdma_complete_connect` runs, and ever after, `remote_qp_attr` names the queue pair of
  the other host for this one, and its receives are posted. -/
  agree : ∀ id, id < s.count → (s.conns id).completed = 1 →
    Names peers s (s.conns id).peer (s.conns id).owner (s.conns id).remoteAttr
  /-- The record a client has sent names its queue pair, whose receives are posted. -/
  request : ∀ c wire, s.request c = some wire →
    Names peers s (peers.caller c) (peers.callee c) (.ofWire wire)
  /-- The record a server has sent names its queue pair, whose receives are posted. -/
  reply : ∀ c wire, s.reply c = some wire →
    Names peers s (peers.callee c) (peers.caller c) (.ofWire wire)
  /-- A call that returns yields the one transport for its peer, and it is ready. -/
  returned : ∀ c id, s.pc (.call c) = .returned id →
    s.table (peers.caller c) (peers.callee c) = some id ∧ (s.conns id).isReady = true ∧
      (s.conns id).created = 1 ∧ (s.conns id).completed = 1

/-- A ready transport has a queue pair that went to `INIT`, to `RTR` towards `remote_qp_attr`, and
to `RTS`. -/
def ReadyConnected (s : SetUpState H C) : Prop :=
  ∀ id, id < s.count → (s.conns id).isReady = true →
    ∃ qp, (s.conns id).rcQp = some qp ∧
      qp.log = [.init, .rtr (s.conns id).remoteAttr, .rts (s.conns id).localAttr.psn]

omit [DecidableEq H] [DecidableEq C] in
/-- What is announced is named by the record. -/
theorem SetUpInv.names (h : SetUpInv peers s) {a p : H} {attr : QpAttr}
    (hann : Announced peers s a p attr) : Names peers s a p attr := by
  obtain ⟨id, hid, rfl, rfl, hattr⟩ := hann
  obtain ⟨qp, hqp, rfl⟩ := Option.map_eq_some_iff.mp hattr.attr
  exact ⟨id, qp, (h.entry _ _ id).mpr ⟨hid, rfl, rfl⟩, hqp, rfl, hattr.posted⟩

omit [DecidableEq H] [DecidableEq C] in
/-- The invariant says that both sides agree. -/
theorem SetUpInv.agreement (h : SetUpInv peers s) : Agreement peers s where
  one_transport id hid := (h.entry _ _ id).mpr ⟨hid, rfl, rfl⟩
  one_qp id hid := by
    obtain ⟨st, -, hfields, -⟩ := h.stage id hid
    have hlog := hfields.log
    rw [hfields.created]
    split
    · rename_i hnone
      rw [hnone] at hlog
      cases st <;> first | rfl | cases hlog
    · rename_i hsome
      cases st <;> first | rfl | exact absurd (Option.map_eq_none_iff.mp hlog) hsome
  completed_le_one id hid := by
    obtain ⟨st, -, hfields, -⟩ := h.stage id hid
    rw [hfields.completed]
    cases st <;> decide
  agree id hid hcompleted := by
    obtain ⟨st, -, hfields, hlearned⟩ := h.stage id hid
    exact h.names (hlearned (hfields.completed ▸ hcompleted))
  request c wire hwire := h.names (h.request c wire hwire)
  reply c wire hwire := h.names (h.reply c wire hwire)
  returned c id hpc := by
    have hthread := h.thread (.call c)
    rw [hpc] at hthread
    obtain ⟨c', hc', hat⟩ := hthread
    cases hc'
    have hready := hat.ready trivial
    have hfields := (h.of_isReady hat.value_lt hready).1
    exact ⟨(h.entry _ _ id).mpr ⟨hat.value_lt, hat.owner, hat.peer⟩, hready, hfields.created,
      hfields.completed⟩

omit [DecidableEq H] [DecidableEq C] in
/-- The invariant says that ready transports are connected. -/
theorem SetUpInv.readyConnected (h : SetUpInv peers s) : ReadyConnected s := by
  intro id hid hready
  have hfields := (h.of_isReady hid hready).1
  obtain ⟨qp, hqp, hlog⟩ := Option.map_eq_some_iff.mp hfields.log
  exact ⟨qp, hqp, by rw [hlog, hfields.psn]⟩

/-- The invariant holds before any call. -/
theorem SetUpInv.init [Inhabited H] : SetUpInv peers (setUp peers).init where
  entry := fun _ _ _ => iff_of_false nofun fun hid => absurd hid.1 (Nat.not_lt_zero _)
  stage := fun _ hid => absurd hid (Nat.not_lt_zero _)
  thread := fun _ => trivial
  request := nofun
  reply := nofun
  backlog := nofun

/-- **The invariant holds in every reachable state**, as long as no `ibv_modify_qp` returns a
positive error number. -/
theorem setUpInv_of_reachable [Inhabited H]
    (hs : (setUp peers).ReachableUnder SetUpAct.NoErrno s) : SetUpInv peers s := by
  refine hs.invariant .init fun s act s' _ h hact hstep => h.step ?_ hstep
  rintro t res rfl
  exact hact

/-- With the result 0 the functions around `ibv_modify_qp` return 0. -/
theorem modifyStep_zero {t : Tid H C} {point : Point} {sock : C} {value client : ℕ} (e : CFault) :
    s.modifyStep t 0 sock value client point ≠ some (.error e) := by
  intro herr
  simp only [modifyStep] at herr
  split at herr
  · cases herr
  · split at herr
    all_goals try cases herr
    all_goals
      obtain ⟨⟨ret, qp'⟩, hmodify, hret⟩ := Option.map_eq_some_iff.mp herr
      obtain ⟨qp₁, -, heq⟩ := Option.map_eq_some_iff.mp hmodify
      cases heq
      cases hret

/-- What a thread asks for at its point is there. -/
theorem SetUpInv.pointStep_no_fault (h : SetUpInv peers s) {t : Tid H C} {point : Point} {sock : C}
    {value client : ℕ} (hat : s.pc t = .at point sock value client) (e : CFault) :
    s.pointStep peers t sock value client point ≠ some (.error e) := by
  intro herr
  have hthread := h.thread t
  rw [hat] at hthread
  cases point with
  | connect =>
    -- The table still holds the transport, and its queue pair is there.
    have hfound := (h.entry _ _ value).mpr
      ⟨AtPoint.value_lt hthread, AtPoint.owner hthread, AtPoint.peer hthread⟩
    obtain ⟨attr, hattr⟩ := AtPoint.created hthread trivial
    simp only [pointStep, hfound] at herr
    split at herr
    · rename_i hnone
      have hsome := hattr.attr
      rw [Connection.attr?, hnone] at hsome
      cases hsome
    · cases herr
  | fillLocal =>
    -- `rc_qp` is read.
    obtain ⟨attr, hattr⟩ := AtPoint.created hthread trivial
    obtain rfl := AtPoint.client_eq hthread
    simp only [pointStep, hattr.attr] at herr
    cases herr
  | finish =>
    -- The assertion of `get_transport_from_ip` is on `is_ready`.
    simp only [pointStep, AtPoint.ready hthread trivial, if_true] at herr
    cases herr
  | unlockComplete =>
    simp only [pointStep] at herr
    split at herr <;> cases herr
  | _ =>
    simp only [pointStep] at herr
    repeat' split at herr
    all_goals cases herr

/-- When `ibv_modify_qp` succeeds no thread aborts or fails an assertion. -/
theorem SetUpInv.no_fault (h : SetUpInv peers s) {act : SetUpAct H C}
    (hact : SetUpAct.Succeeds s act) (e : CFault) : setUpStep peers s act ≠ some (.error e) := by
  intro herr
  cases act with
  | createQp t num =>
    simp only [setUpStep] at herr
    split at herr <;> cases herr
  | modifyQp t res =>
    obtain rfl : res = 0 := hact
    simp only [setUpStep] at herr
    split at herr
    · exact modifyStep_zero e herr
    · cases herr
  | run t =>
    simp only [setUpStep, runStep] at herr
    split at herr
    · split at herr <;> cases herr
    · split at herr <;> cases herr
    · cases herr
    · exact h.pointStep_no_fault ‹_› e herr
    · cases herr

/-- A run in which every `ibv_modify_qp` succeeds is one in which none returns an error number. -/
theorem reachable_noErrno [Inhabited H]
    (hs : (setUp peers).ReachableUnder SetUpAct.Succeeds s) :
    (setUp peers).ReachableUnder SetUpAct.NoErrno s := by
  refine hs.mono fun s act hact => ?_
  cases act with
  | modifyQp t res => exact (show res = 0 from hact).le
  | _ => exact trivial

/-! ### A run -/

/-- Two hosts, `false` and `true`, and one call, from the first to the second. -/
def oneCall : Peers Bool Unit := ⟨fun _ => false, fun _ => true, fun h => if h then 8 else 7⟩

/-- A schedule of `oneCall` up to the return of the call, where `ibv_modify_qp`
returns `rtrRes` and `rtsRes` to the caller as it completes the connection. -/
def oneCallSchedule (rtrRes rtsRes : ℤ) : List (SetUpAct Bool Unit) :=
  let call := Tid.call ()
  let accept := Tid.accept true
  [.run call, .run call, .createQp call 1, .modifyQp call 0, .run call, .run call, .run call,
    .run call, .run call, .run accept, .run accept, .run accept, .createQp accept 2,
    .modifyQp accept 0, .run accept, .run accept, .run accept, .run accept, .run accept, .run call,
    .run call, .modifyQp call rtrRes, .modifyQp call rtsRes, .run call, .run call, .run call]

/-- What a run shows of the call and its transport. -/
def callerView (s : SetUpState Bool Unit) : ℕ × Bool × Option Qp × QpAttr × Pc Unit :=
  (s.count, (s.conns 0).isReady, (s.conns 0).rcQp, (s.conns 0).remoteAttr, s.pc (.call ()))

/-- When every `ibv_modify_qp` succeeds, the call returns a transport whose queue pair 1 is
connected to the queue pair 2 of the other host. -/
theorem oneCall_connects : ∃ s, (setUp oneCall).ReachableUnder SetUpAct.Succeeds s ∧
    callerView s = (2, true, some ⟨1, [.init, .rtr ⟨8, 2, 0⟩, .rts 0]⟩, ⟨8, 2, 0⟩,
      .returned 0) := by
  have hrun : ((setUp oneCall).exec SetUpAct.Succeeds (setUp oneCall).init
      (oneCallSchedule 0 0)).map callerView
        = some (2, true, some ⟨1, [.init, .rtr ⟨8, 2, 0⟩, .rts 0]⟩, ⟨8, 2, 0⟩,
          .returned 0) := by decide +kernel
  obtain ⟨s, hexec, hview⟩ := Option.map_eq_some_iff.mp hrun
  exact ⟨s, Machine.reachableUnder_of_exec _ .init hexec, hview⟩

/-! ### The results -/

/-- **Connection set-up agrees on both sides**, simultaneous connects included: for any number of
hosts and calls and every interleaving, when every `ibv_modify_qp` succeeds. No thread aborts or
fails an assertion. -/
theorem setUp_agrees [Inhabited H] (hs : (setUp peers).ReachableUnder SetUpAct.Succeeds s) :
    Agreement peers s ∧
      ∀ act e, SetUpAct.Succeeds s act → setUpStep peers s act ≠ some (.error e) := by
  have hinv := setUpInv_of_reachable (reachable_noErrno hs)
  exact ⟨hinv.agreement, fun act e hact => hinv.no_fault hact e⟩

/-- The agreement on the run: the call has returned, and knows the queue pair 2 of host `true`. -/
theorem setUp_agrees_oneCall : ∃ s, (setUp oneCall).ReachableUnder SetUpAct.Succeeds s ∧
    s.pc (.call ()) = .returned 0 ∧ (s.conns 0).remoteAttr = ⟨8, 2, 0⟩ ∧ Agreement oneCall s := by
  obtain ⟨s, hs, hview⟩ := oneCall_connects
  simp only [callerView, Prod.mk.injEq] at hview
  obtain ⟨-, -, -, hattr, hreturned⟩ := hview
  exact ⟨s, hs, hreturned, hattr, (setUp_agrees hs).1⟩

/-- **A transport is ready only behind a connected queue pair**, in every run of any number of
`get_transport_from_ip` calls and accept threads in which no `ibv_modify_qp` returns a positive
error number. -/
theorem ready_connected [Inhabited H] (hs : (setUp peers).ReachableUnder SetUpAct.NoErrno s) :
    ReadyConnected s := (setUpInv_of_reachable hs).readyConnected

/-- The connection of the run that succeeds. -/
theorem ready_connected_oneCall :
    ∃ s : SetUpState Bool Unit, (s.conns 0).isReady = true ∧ ReadyConnected s := by
  obtain ⟨s, hs, hview⟩ := oneCall_connects
  simp only [callerView, Prod.mk.injEq] at hview
  exact ⟨s, hview.2.1, ready_connected (reachable_noErrno hs)⟩

/-- **A dead queue pair is taken for a connected one.** `ibv_modify_qp` returns `ENOMEM`, which is
12, where the caller completes the connection, and then `EINVAL`, which is 22, as the queue pair is
still in `INIT`. The functions around it test for a negative number, so nothing aborts and the
transport is ready. -/
theorem ready_unconnected :
    ¬ ∀ s, (setUp oneCall).ReachableUnder SetUpAct.Documented s → ReadyConnected s := by
  have hrun : ((setUp oneCall).exec SetUpAct.Documented (setUp oneCall).init
      (oneCallSchedule 12 22)).map callerView
        = some (2, true, some ⟨1, [.init]⟩, ⟨8, 2, 0⟩, .returned 0) := by decide +kernel
  intro hall
  obtain ⟨s, hexec, hview⟩ := Option.map_eq_some_iff.mp hrun
  simp only [callerView, Prod.mk.injEq] at hview
  obtain ⟨hcount, hready, hqp, -⟩ := hview
  obtain ⟨qp, hqp', hlog⟩ :=
    hall s (Machine.reachableUnder_of_exec _ .init hexec) 0 (by omega) hready
  rw [hqp] at hqp'
  cases hqp'
  cases hlog

end SparkRdma
