import Mathlib.Data.Fintype.Sum
import SparkRdma.Connection.Sockets

/-! # No call waits for ever

A call waits for a lock, for the record of the other host, or for `is_ready` to be set by whoever is
setting up the connection; an accept thread, which serves one connection at a time, for a lock, for
the record of a client, or for a connection. None of these can wait in a circle: the holder of a
lock never waits, what a reader waits for is on its way, and a transport that is not ready has a
thread working on it. And none can go on for ever but by looking at `is_ready` in vain, which
changes nothing.

* **`SetUpAct.Proceeds`** — the steps of hosts that are left to themselves.
* **`Attended`** — a transport that is not ready has a thread working on it.
* **`setUpMeasure`** — what every such step brings down.
* **`SetUpInv.at_rest`** — where no such step is left, nobody waits.
* **`setUp_completes`** — the result. -/

namespace SparkRdma

open Interleaving SetUpState Relation

variable {H C : Type}

/-! ### Attended transports -/

/-- A transport that is not ready has a thread working on it, other than those that only wait. -/
def Attended (s : SetUpState H C) : Prop :=
  ∀ id, id < s.count → (s.conns id).isReady = false →
    ∃ t point sock client, s.pc t = .at point sock id client ∧ point ≠ .waiting

/-- A thread that works on a transport does not come to wait for it. -/
theorem Flow.ne_waiting {t : Tid H C} {point point' : Point} (h : Flow t point point')
    (hne : point ≠ .waiting) : point' ≠ .waiting := by
  cases h with
  | look => exact absurd rfl hne
  | _ => simp

variable {peers : Peers H C} {s s' : SetUpState H C}

/-- What a step does to the transports: it writes one, whose `is_ready` is not taken back, and may
allocate one, for the thread that takes the step. -/
structure Keeps (s s' : SetUpState H C) (t : Tid H C) : Prop where
  /-- A transport that was ready is. -/
  ready : ∀ id, id < s.count → (s.conns id).isReady = true → (s'.conns id).isReady = true
  /-- A new one is worked on. -/
  count : ∀ id, id < s'.count →
    id < s.count ∨ ∃ sock, s'.pc t = .at .lockCreate sock id id

/-- A step that allocates no transport, and writes one. -/
theorem Keeps.of_write {t : Tid H C} {value : ℕ} {conn' : Connection H C}
    (hcount : s'.count = s.count) (hconns : s'.conns = Function.update s.conns value conn')
    (hready : (s.conns value).isReady = true → conn'.isReady = true) : Keeps s s' t where
  ready id hid h := by
    rw [hconns]
    by_cases hvalue : id = value
    · subst hvalue
      rw [Function.update_self]
      exact hready h
    · rwa [Function.update_of_ne hvalue]
  count id hid := .inl (hcount ▸ hid)

/-- A step that writes none. -/
theorem Keeps.of_eq {t : Tid H C} (hcount : s'.count = s.count) (hconns : s'.conns = s.conns) :
    Keeps s s' t where
  ready id _ h := by rwa [hconns]
  count id hid := .inl (hcount ▸ hid)

section Steps

variable [DecidableEq H] [DecidableEq C]

/-- A thread finds the entry of a transport, or makes one. -/
theorem Keeps.of_lookup {t : Tid H C} (h p : H) (sock : C) :
    Keeps s ((s.lookupOrCreate h p).2.goto t
      (.at .lockCreate sock (s.lookupOrCreate h p).1 (s.lookupOrCreate h p).1)) t := by
  unfold SetUpState.lookupOrCreate
  split
  · exact .of_eq rfl rfl
  · refine ⟨fun id hid hready => ?_, fun id hid => ?_⟩
    · show (Function.update s.conns s.count _ id).isReady = true
      rwa [Function.update_of_ne hid.ne]
    · obtain hlt | rfl := Nat.lt_succ_iff_lt_or_eq.mp (show id < s.count + 1 from hid)
      · exact .inl hlt
      · exact .inr ⟨sock, Function.update_self ..⟩

/-- A thread at a point takes a step. -/
theorem keeps_of_pointStep {t : Tid H C} {point : Point} {sock : C} {value client : ℕ}
    (hstep : s.pointStep peers t sock value client point = some (.ok s')) : Keeps s s' t := by
  cases point with
  | lockCreate =>
    simp only [pointStep] at hstep
    split at hstep <;> cases hstep
    exact .of_write rfl rfl id
  | postRecv | unlockCreate =>
    cases hstep
    exact .of_write rfl rfl id
  | connect =>
    simp only [pointStep] at hstep
    split at hstep
    · cases hstep
    · split at hstep <;> cases hstep
      exact .of_eq rfl rfl
  | fillLocal | clientRead | serverRead =>
    simp only [pointStep] at hstep
    split at hstep <;> cases hstep
    exact .of_write rfl rfl id
  | clientWrite | serverWrite =>
    cases hstep
    exact .of_eq rfl rfl
  | lockComplete =>
    simp only [pointStep] at hstep
    split at hstep
    · split at hstep <;> cases hstep <;> exact .of_write rfl rfl id
    · cases hstep
  | setReady =>
    cases hstep
    exact .of_write rfl rfl fun _ => rfl
  | unlockComplete =>
    cases t <;> cases hstep <;> exact .of_write rfl rfl id
  | waiting | finish =>
    simp only [pointStep] at hstep
    split at hstep <;> cases hstep
    exact .of_eq rfl rfl
  | createQp | modifyInit | rtr | rts => cases hstep

/-- **Every step keeps what is ready**, and works on what it allocates. -/
theorem keeps_of_step {act : SetUpAct H C} (hstep : setUpStep peers s act = some (.ok s')) :
    Keeps s s' act.thread := by
  cases act with
  | createQp t num =>
    simp only [setUpStep] at hstep
    split at hstep <;> cases hstep
    exact .of_write rfl rfl id
  | modifyQp t res =>
    simp only [setUpStep, modifyStep] at hstep
    split at hstep
    · split at hstep
      · cases hstep
      · split at hstep
        case h_4 => cases hstep
        all_goals
          obtain ⟨⟨ret, qp'⟩, -, heq⟩ := Option.map_eq_some_iff.mp hstep
          split at heq <;> cases heq
          exact .of_write rfl rfl id
    · cases hstep
  | run t =>
    simp only [setUpStep, runStep] at hstep
    split at hstep
    · split at hstep <;> cases hstep
      · exact .of_lookup ..
      · exact .of_eq rfl rfl
    · split at hstep <;> cases hstep
      exact .of_eq rfl rfl
    · cases hstep
      exact .of_lookup ..
    · exact keeps_of_pointStep hstep
    · cases hstep

/-- The threads that do not take the step stay where they are. -/
theorem ThreadMoves.pc_of_ne {t u : Tid H C} (h : ThreadMoves peers s s' t) (hne : u ≠ t) :
    s'.pc u = s.pc u := by
  cases h <;> simp only [*, ne_eq, not_false_eq_true, Function.update_of_ne]

/-- A thread that works on a transport goes on working on it, until it is ready. -/
theorem ThreadMoves.attends {t : Tid H C} (h : ThreadMoves peers s s' t) {point : Point} {sock : C}
    {id client : ℕ} (hat : s.pc t = .at point sock id client) (hne : point ≠ .waiting) :
    point.Ready ∨
      ∃ point' sock' client', s'.pc t = .at point' sock' id client' ∧ point' ≠ .waiting := by
  cases h with
  | start hidle | accept hidle | lookup hidle =>
    rw [hat] at hidle
    cases hidle
  | flow hat' hflow hpc =>
    rw [hat] at hat'
    cases hat'
    exact .inr ⟨_, _, _, by rw [hpc, Function.update_self], hflow.ne_waiting hne⟩
  | finish hat' | leave hat' =>
    rw [hat] at hat'
    cases hat'
    exact .inl trivial
  | connect hat' hpc | clientWrite _ hat' hpc | serverWrite _ hat' hpc | clientRead _ hat' _ hpc
  | serverRead _ hat' _ hpc =>
    rw [hat] at hat'
    cases hat'
    exact .inr ⟨_, _, _, by rw [hpc, Function.update_self], by simp⟩

/-- **One step keeps the transports attended.** -/
theorem Attended.step (h : Attended s) (hinv : SetUpInv peers s) {act : SetUpAct H C}
    (hstep : setUpStep peers s act = some (.ok s')) : Attended s' := by
  have hmoves := moves_of_step hstep
  have hkeeps := keeps_of_step hstep
  intro id hid hready
  obtain hold | ⟨sock, hpc⟩ := hkeeps.count id hid
  · have hunready : (s.conns id).isReady = false := by
      rw [← Bool.not_eq_true]
      intro hset
      rw [hkeeps.ready id hold hset] at hready
      cases hready
    obtain ⟨t, point, sock, client, hat, hne⟩ := h id hold hunready
    by_cases ht : t = act.thread
    · subst ht
      obtain hdone | ⟨point', sock', client', hat', hne'⟩ := hmoves.attends hat hne
      · -- it has set `is_ready`
        have hthread := hinv.thread act.thread
        rw [hat] at hthread
        rw [AtPoint.ready hthread hdone] at hunready
        cases hunready
      · exact ⟨_, point', sock', client', hat', hne'⟩
    · exact ⟨t, point, sock, client, by rw [hmoves.pc_of_ne ht, hat], hne⟩
  · exact ⟨_, .lockCreate, sock, id, hpc, by simp⟩

/-! ### The measure -/

/-- The most steps a thread at the point has left in its call, or for its connection. -/
def Point.rank : Point → ℕ
  | lockCreate => 17
  | createQp => 16
  | modifyInit => 15
  | postRecv => 14
  | unlockCreate => 13
  | connect => 12
  | fillLocal => 11
  | clientWrite | serverRead => 10
  | clientRead | serverWrite => 9
  | lockComplete => 8
  | rtr => 7
  | rts => 6
  | setReady => 5
  | unlockComplete => 4
  | waiting => 2
  | finish => 1

omit [DecidableEq H] [DecidableEq C] in
/-- The most steps a thread has left, and those of the accept thread on a connection that a call has
not made yet. -/
def Tid.rank : Tid H C → Pc C → ℕ
  | _, .idle | _, .returned _ => 0
  | _, .accepted _ => 18
  | .call _, .at point _ _ _ => point.rank + if point.clientPhase = .before then 20 else 0
  | .accept _, .at point _ _ _ => point.rank

omit [DecidableEq H] [DecidableEq C] in
/-- On the way from one point to the next there is a step less to go. -/
theorem Flow.rank_lt {t : Tid H C} {point point' : Point} (h : Flow t point point')
    (hlook : point ≠ .waiting ∨ point' ≠ .waiting) {sock : C} {value client client' : ℕ} :
    t.rank (.at point' sock value client') < t.rank (.at point sock value client) := by
  cases t with
  | call c => cases h <;> simp [Tid.rank, Point.rank, Point.clientPhase] at hlook ⊢
  | accept a => cases h <;> simp [Tid.rank, Point.rank] at hlook ⊢

/-- The threads. -/
def Tid.equiv (H C : Type) : C ⊕ H ≃ Tid H C where
  toFun := Sum.elim .call .accept
  invFun
    | .call c => .inl c
    | .accept h => .inr h
  left_inv := by rintro (c | h) <;> rfl
  right_inv := by rintro (c | h) <;> rfl

instance [Fintype H] [Fintype C] : Fintype (Tid H C) := .ofEquiv _ (Tid.equiv H C)

/-- What is left to be done before every call begun has returned. -/
def setUpMeasure [Fintype H] [Fintype C] (s : SetUpState H C) : ℕ :=
  ∑ t : Tid H C, t.rank (s.pc t) + 19 * ∑ h, (s.backlog h).length

section Measure

variable [Fintype H] [Fintype C]

/-- A thread moves, and uses no queue of a listening socket. -/
theorem setUpMeasure_lt_of_rank {t : Tid H C} {pc : Pc C}
    (hpc : s'.pc = Function.update s.pc t pc) (hbacklog : s'.backlog = s.backlog)
    (hrank : t.rank pc < t.rank (s.pc t)) : setUpMeasure s' < setUpMeasure s := by
  have hsum := Machine.sum_update_add Tid.rank s.pc t pc
  rw [setUpMeasure, hpc, hbacklog, setUpMeasure]
  omega

/-- **Every move but those of a starting call and of a look in vain brings the measure down.** -/
theorem ThreadMoves.measure_lt {t : Tid H C} (h : ThreadMoves peers s s' t)
    (hinv : SetUpInv peers s) (hstart : ∀ c, t = .call c → s.pc t ≠ .idle)
    (hlook : ∀ sock value client, s.pc t = .at .waiting sock value client → s'.pc t ≠ s.pc t) :
    setUpMeasure s' < setUpMeasure s := by
  cases h with
  | start hat => exact absurd hat (hstart _ rfl)
  | @flow _ point point' sock value client hat hflow hpc hsame =>
    refine setUpMeasure_lt_of_rank hpc hsame.backlog ?_
    rw [hat]
    refine hflow.rank_lt ?_
    by_contra hboth
    obtain ⟨rfl, rfl⟩ := not_or.mp hboth |>.imp not_not.mp not_not.mp
    exact hlook _ _ _ hat (by rw [hpc, Function.update_self, hat])
  | @connect _ sock value client client' hat hpc hbacklog =>
    obtain rfl := hinv.eq_call hat trivial
    have hsum := Machine.sum_update_add Tid.rank s.pc (.call sock)
      (.at .fillLocal sock value client')
    have hlength := Machine.sum_update_add (fun _ => List.length) s.backlog (peers.callee sock)
      (s.backlog (peers.callee sock) ++ [sock])
    have hold : (Tid.call sock : Tid H C).rank (.at .connect sock value client) = 32 := rfl
    have hnew : (Tid.call sock : Tid H C).rank (.at .fillLocal sock value client') = 11 := rfl
    rw [hat, hold, hnew] at hsum
    rw [List.length_append, List.length_singleton] at hlength
    rw [setUpMeasure, hpc, hbacklog, setUpMeasure, Tid.other]
    omega
  | @accept a sock rest hat hqueue hpc hbacklog =>
    have hsum := Machine.sum_update_add Tid.rank s.pc (.accept a) (.accepted sock)
    have hlength := Machine.sum_update_add (fun _ => List.length) s.backlog a rest
    have hold : (Tid.accept a : Tid H C).rank .idle = 0 := rfl
    have hnew : (Tid.accept a : Tid H C).rank (.accepted sock) = 18 := rfl
    rw [hat, hold, hnew] at hsum
    rw [hqueue, List.length_cons] at hlength
    rw [setUpMeasure, hpc, hbacklog, setUpMeasure]
    omega
  | @lookup a sock value hat hpc hsame =>
    refine setUpMeasure_lt_of_rank hpc hsame.backlog ?_
    rw [hat]
    simp [Tid.rank, Point.rank]
  | @finish t sock value client hat hpc hsame =>
    refine setUpMeasure_lt_of_rank hpc hsame.backlog ?_
    rw [hat]
    cases t <;> simp [Tid.rank, Point.rank]
  | leave hat hpc hsame =>
    refine setUpMeasure_lt_of_rank hpc hsame.backlog ?_
    rw [hat]
    simp [Tid.rank, Point.rank]
  | clientWrite _ hat hpc hbacklog =>
    obtain rfl := hinv.eq_call hat trivial
    refine setUpMeasure_lt_of_rank hpc hbacklog ?_
    rw [hat]
    simp [Tid.rank, Point.rank, Point.clientPhase]
  | clientRead _ hat _ hpc hbacklog =>
    obtain rfl := hinv.eq_call hat trivial
    refine setUpMeasure_lt_of_rank hpc hbacklog ?_
    rw [hat]
    simp [Tid.rank, Point.rank, Point.clientPhase]
  | serverRead _ hat _ hpc hbacklog =>
    obtain rfl := hinv.eq_accept hat trivial
    refine setUpMeasure_lt_of_rank hpc hbacklog ?_
    rw [hat]
    simp [Tid.rank, Point.rank]
  | serverWrite _ hat hpc hbacklog =>
    obtain rfl := hinv.eq_accept hat trivial
    refine setUpMeasure_lt_of_rank hpc hbacklog ?_
    rw [hat]
    simp [Tid.rank, Point.rank]

end Measure

/-! ### Where nothing is left to be done -/

/-- The steps of hosts that are left to themselves: no call starts, no look at `is_ready` is in
vain, and `ibv_modify_qp` succeeds. -/
def SetUpAct.Proceeds (s : SetUpState H C) : SetUpAct H C → Prop
  | run t => (∀ c, t = .call c → s.pc t ≠ .idle) ∧
      ∀ sock value client, s.pc t = .at .waiting sock value client →
        (s.conns value).isReady = true
  | createQp _ _ => True
  | modifyQp _ res => res = 0

omit [DecidableEq H] [DecidableEq C] in
/-- In such steps `ibv_modify_qp` succeeds. -/
theorem SetUpAct.Proceeds.succeeds {act : SetUpAct H C} (h : act.Proceeds s) :
    act.Succeeds s := by
  cases act with
  | modifyQp t res => exact h
  | _ => trivial

/-- A thread at a point other than `waiting` proceeds with its next step. -/
theorem not_stuck_of_run [Inhabited H] {t : Tid H C} {point : Point} {sock : C}
    {value client : ℕ} (hat : s.pc t = .at point sock value client) (hne : point ≠ .waiting)
    (hstep : s.pointStep peers t sock value client point ≠ none) :
    ¬ (setUp peers).Stuck SetUpAct.Proceeds s := by
  intro hstuck
  have hproceeds : SetUpAct.Proceeds s (.run t) := by
    refine ⟨fun c _ hidle => ?_, fun sock value client hwaiting => ?_⟩
    · rw [hat] at hidle
      cases hidle
    · rw [hat] at hwaiting
      cases hwaiting
      exact absurd rfl hne
  have hnone : s.runStep peers t = none := hstuck _ hproceeds
  simp only [runStep, hat] at hnone
  exact hstep hnone

/-- Inside a section under `connect_lock` nobody waits. -/
theorem SetUpInv.not_stuck_of_critical [Inhabited H] (h : SetUpInv peers s) {t : Tid H C}
    {point : Point} {sock : C} {value client : ℕ} (hat : s.pc t = .at point sock value client)
    (hcritical : point.Critical) : ¬ (setUp peers).Stuck SetUpAct.Proceeds s := by
  obtain ⟨st, hholds, hfields, -⟩ := h.stage_at hat hcritical
  -- the queue pair admits the change
  have hmodify : s.modifyStep t 0 sock value client point ≠ none →
      ¬ (setUp peers).Stuck SetUpAct.Proceeds s := by
    intro hsome hstuck
    have hnone : setUpStep peers s (.modifyQp t 0) = none := hstuck (.modifyQp t 0) rfl
    simp only [setUpStep, hat] at hnone
    exact hsome hnone
  have hqp : ∀ {log}, st.log (s.conns value).remoteAttr = some log →
      ∃ qp, (s.conns value).rcQp = some qp ∧ qp.log = log := by
    intro log hlog
    exact Option.map_eq_some_iff.mp (hfields.log.trans hlog)
  cases point with
  | createQp =>
    intro hstuck
    have hnone : setUpStep peers s (.createQp t 0) = none := hstuck (.createQp t 0) trivial
    simp only [setUpStep, hat] at hnone
    cases hnone
  | modifyInit =>
    obtain rfl : st = .bare := hholds
    obtain ⟨qp, hqp, hlog⟩ := hqp rfl
    refine hmodify ?_
    simp [modifyStep, hqp, Qp.modifyToInit, Qp.modifyTo, Qp.modify, hlog, Qp.allows]
  | rtr =>
    obtain rfl : st = .completing := hholds
    obtain ⟨qp, hqp, hlog⟩ := hqp rfl
    refine hmodify ?_
    simp [modifyStep, hqp, Qp.modifyToRtr, Qp.modifyTo, Qp.modify, hlog, Qp.allows]
  | rts =>
    obtain rfl : st = .rtr := hholds
    obtain ⟨qp, hqp, hlog⟩ := hqp rfl
    refine hmodify ?_
    simp [modifyStep, hqp, Qp.modifyToRts, Qp.modifyTo, Qp.modify, hlog, Qp.allows]
  | postRecv | unlockCreate | setReady => exact not_stuck_of_run hat (by simp) (by simp [pointStep])
  | unlockComplete =>
    refine not_stuck_of_run hat (by simp) ?_
    cases t <;> simp [pointStep]
  | lockCreate | connect | fillLocal | clientWrite | clientRead | serverRead | serverWrite
  | lockComplete | waiting | finish => exact hcritical.elim

/-- A thread that does not proceed waits for a record, or for `is_ready`. -/
theorem SetUpInv.waits [Inhabited H] (h : SetUpInv peers s)
    (hstuck : (setUp peers).Stuck SetUpAct.Proceeds s) {t : Tid H C} {point : Point} {sock : C}
    {value client : ℕ} (hat : s.pc t = .at point sock value client) :
    point = .clientRead ∧ s.reply sock = none ∨ point = .serverRead ∧ s.request sock = none ∨
      point = .waiting ∧ (s.conns value).isReady = false := by
  have hthread := h.thread t
  rw [hat] at hthread
  -- nobody holds a lock
  have hfree : (s.conns value).lock = none := by
    cases hlock : (s.conns value).lock with
    | none => rfl
    | some u =>
      obtain ⟨point', sock', client', hat', hcritical⟩ :=
        h.holder (AtPoint.value_lt hthread) hlock
      exact absurd hstuck (h.not_stuck_of_critical hat' hcritical)
  have hrun : s.pointStep peers t sock value client point ≠ none → point = .waiting := by
    intro hstep
    by_contra hne
    exact not_stuck_of_run hat hne hstep hstuck
  cases point with
  | createQp | modifyInit | postRecv | unlockCreate | rtr | rts | setReady | unlockComplete =>
    exact absurd hstuck (h.not_stuck_of_critical hat trivial)
  | clientRead =>
    cases hreply : s.reply sock with
    | none => exact .inl ⟨rfl, rfl⟩
    | some wire =>
      have := hrun (by simp [pointStep, hreply])
      cases this
  | serverRead =>
    cases hrequest : s.request sock with
    | none => exact .inr (.inl ⟨rfl, rfl⟩)
    | some wire =>
      have := hrun (by simp [pointStep, hrequest])
      cases this
  | waiting =>
    refine .inr (.inr ⟨rfl, ?_⟩)
    by_contra hready
    have hproceeds : SetUpAct.Proceeds s (.run t) := by
      refine ⟨fun c _ hidle => ?_, fun sock' value' client' hwaiting => ?_⟩
      · rw [hat] at hidle
        cases hidle
      · rw [hat] at hwaiting
        cases hwaiting
        simpa using hready
    have hnone : s.runStep peers t = none := hstuck _ hproceeds
    simp [runStep, hat, pointStep, hfree] at hnone
  | lockCreate | lockComplete =>
    have := hrun (by simp only [pointStep, if_pos hfree]; split <;> simp)
    cases this
  | connect =>
    have := hrun (by simp only [pointStep]; split <;> [simp; (split <;> simp)])
    cases this
  | fillLocal =>
    have := hrun (by simp only [pointStep]; split <;> simp)
    cases this
  | clientWrite | serverWrite =>
    have := hrun (by simp [pointStep])
    cases this
  | finish =>
    have := hrun (by simp only [pointStep]; split <;> simp)
    cases this

/-- Where nobody proceeds no accept thread waits for a record: the client has yet to write it. -/
theorem SetUpInv.not_at_serverRead [Inhabited H] (h : SetUpInv peers s)
    (hstuck : (setUp peers).Stuck SetUpAct.Proceeds s)
    (hsockets : ∀ c, s.socketState peers c ∈ socketStates) {t : Tid H C} {sock : C}
    {value client : ℕ} : s.pc t ≠ .at .serverRead sock value client := by
  intro hat
  have hrequest : s.request sock = none := by
    obtain ⟨heq, -⟩ | ⟨-, hnone⟩ | ⟨heq, -⟩ := h.waits hstuck hat
    · cases heq
    · exact hnone
    · cases heq
  obtain rfl := h.eq_accept hat trivial
  have hclient : (s.pc (.call sock)).clientPhase = .connected := by
    refine client_of_unread _ (hsockets sock) ?_ ?_
    · simp [SetUpState.socketState, hat, Pc.serverPhase, Point.serverPhase]
    · simp [SetUpState.socketState, hrequest]
  cases hpc : s.pc (.call sock) with
  | idle | accepted sock | returned value =>
    rw [hpc] at hclient
    cases hclient
  | «at» point sock' value' client' =>
    rw [hpc] at hclient
    obtain ⟨rfl, -⟩ | ⟨rfl, -⟩ | ⟨rfl, -⟩ := h.waits hstuck hpc <;> cases hclient

/-- Where nobody proceeds no call waits for a record: its connection is accepted, and answered. -/
theorem SetUpInv.not_at_clientRead [Inhabited H] (h : SetUpInv peers s)
    (hstuck : (setUp peers).Stuck SetUpAct.Proceeds s)
    (hsockets : ∀ c, s.socketState peers c ∈ socketStates) {t : Tid H C} {sock : C}
    {value client : ℕ} : s.pc t ≠ .at .clientRead sock value client := by
  intro hat
  have hreply : s.reply sock = none := by
    obtain ⟨-, hnone⟩ | ⟨heq, -⟩ | ⟨heq, -⟩ := h.waits hstuck hat
    · exact hnone
    · cases heq
    · cases heq
  obtain rfl := h.eq_call hat trivial
  have hserver := server_of_reading _ (hsockets sock)
    (by simp [SetUpState.socketState, hat, Pc.clientPhase, Point.clientPhase])
    (by simp [SetUpState.socketState, hreply])
  simp only [SetUpState.socketState] at hserver
  have hproceeds : ∀ {pc : Pc C}, s.pc (.accept (peers.callee sock)) = pc →
      (∀ point sock value client, pc ≠ .at point sock value client) →
      s.runStep peers (.accept (peers.callee sock)) = none := by
    intro pc hpc hnot
    refine hstuck (.run _) ⟨by simp, fun sock' value' client' hwaiting => ?_⟩
    exact absurd (hpc ▸ hwaiting) (hnot _ _ _ _)
  cases hpc : s.pc (.accept (peers.callee sock)) with
  | idle =>
    -- the connection is in the queue
    have hnone := hproceeds hpc (by simp)
    have hbacklog : s.backlog (peers.callee sock) = [] := by
      cases hqueue : s.backlog (peers.callee sock) with
      | nil => rfl
      | cons sock' rest => simp [runStep, hpc, hqueue] at hnone
    simp [hpc, Pc.serverPhase, hbacklog] at hserver
  | accepted sock' =>
    have hnone := hproceeds hpc (by simp)
    simp [runStep, hpc] at hnone
  | returned value' =>
    have hthread := h.thread (.accept (peers.callee sock))
    rw [hpc] at hthread
    obtain ⟨c, heq, -⟩ := hthread
    cases heq
  | «at» point sock' value' client' =>
    obtain ⟨rfl, -⟩ | ⟨rfl, -⟩ | ⟨rfl, -⟩ := h.waits hstuck hpc
    · cases h.eq_call hpc trivial
    · exact h.not_at_serverRead hstuck hsockets hpc
    · cases h.eq_call hpc trivial

/-- Every call begun has returned, and every accept thread waits for a connection. -/
structure SetUpState.AtRest (s : SetUpState H C) : Prop where
  /-- The calls. -/
  call : ∀ c, s.pc (.call c) = .idle ∨ ∃ id, s.pc (.call c) = .returned id
  /-- The accept threads. -/
  accept : ∀ h, s.pc (.accept h) = .idle ∧ s.backlog h = []

/-- **Where nobody proceeds, nobody waits.** -/
theorem SetUpInv.at_rest [Inhabited H] (h : SetUpInv peers s) (hattended : Attended s)
    (hsockets : ∀ c, s.socketState peers c ∈ socketStates)
    (hstuck : (setUp peers).Stuck SetUpAct.Proceeds s) :
    s.AtRest ∧ ∀ id, id < s.count → (s.conns id).isReady = true := by
  -- a thread at a point could only wait for `is_ready`
  have honly : ∀ {t : Tid H C} {point : Point} {sock : C} {value client : ℕ},
      s.pc t = .at point sock value client →
        point = .waiting ∧ (s.conns value).isReady = false ∧ value < s.count := by
    intro t point sock value client hat
    have hthread := h.thread t
    rw [hat] at hthread
    obtain ⟨rfl, -⟩ | ⟨rfl, -⟩ | ⟨rfl, hready⟩ := h.waits hstuck hat
    · exact (h.not_at_clientRead hstuck hsockets hat).elim
    · exact (h.not_at_serverRead hstuck hsockets hat).elim
    · exact ⟨rfl, hready, AtPoint.value_lt hthread⟩
  have hready : ∀ id, id < s.count → (s.conns id).isReady = true := by
    intro id hid
    by_contra hnot
    obtain ⟨t, point, sock, client, hat, hne⟩ := hattended id hid (by simpa using hnot)
    exact hne (honly hat).1
  have hnowhere : ∀ {t : Tid H C} {point : Point} {sock : C} {value client : ℕ},
      s.pc t ≠ .at point sock value client := by
    intro t point sock value client hat
    obtain ⟨-, hunready, hid⟩ := honly hat
    rw [hready value hid] at hunready
    cases hunready
  refine ⟨⟨fun c => ?_, fun a => ?_⟩, hready⟩
  · have hthread := h.thread (.call c)
    cases hpc : s.pc (.call c) with
    | idle => exact .inl rfl
    | returned id => exact .inr ⟨id, rfl⟩
    | accepted sock =>
      rw [hpc] at hthread
      cases hthread
    | «at» => exact (hnowhere hpc).elim
  · have hthread := h.thread (.accept a)
    have hnone : s.runStep peers (.accept a) = none :=
      hstuck (.run _) ⟨by simp, fun _ _ _ hat => (hnowhere hat).elim⟩
    cases hpc : s.pc (.accept a) with
    | idle =>
      refine ⟨rfl, ?_⟩
      cases hqueue : s.backlog a with
      | nil => rfl
      | cons sock rest => simp [runStep, hpc, hqueue] at hnone
    | accepted sock => simp [runStep, hpc] at hnone
    | returned id =>
      rw [hpc] at hthread
      obtain ⟨c, heq, -⟩ := hthread
      cases heq
    | «at» => exact (hnowhere hpc).elim

/-! ### The result -/

/-- Each transport is ready and connected to the other host's for this one, which is ready, too. -/
def AllConnected (peers : Peers H C) (s : SetUpState H C) : Prop :=
  ∀ id, id < s.count → (s.conns id).isReady = true ∧ ∃ id' qp qp',
    s.table (s.conns id).peer (s.conns id).owner = some id' ∧ (s.conns id').isReady = true ∧
      (s.conns id).rcQp = some qp ∧ (s.conns id').rcQp = some qp' ∧
      qp.log = [.init, .rtr ⟨peers.lid (s.conns id).peer, qp'.num, 0⟩, .rts 0]

omit [DecidableEq H] [DecidableEq C] in
/-- When all transports are ready, they are connected in pairs. -/
theorem SetUpInv.allConnected (h : SetUpInv peers s)
    (hready : ∀ id, id < s.count → (s.conns id).isReady = true) : AllConnected peers s := by
  intro id hid
  have hfields := (h.of_isReady hid (hready id hid)).1
  obtain ⟨id', qp', htable, hqp', hattr, -⟩ := h.agreement.agree id hid hfields.completed
  obtain ⟨qp, hqp, hlog⟩ := Option.map_eq_some_iff.mp hfields.log
  refine ⟨hready id hid, id', qp, qp', htable, hready id' ((h.entry _ _ _).mp htable).1, hqp, hqp',
    ?_⟩
  rw [hlog, hattr]

/-- Every other step starts a call, or changes nothing. -/
theorem eq_of_not_proceeds {act : SetUpAct H C} (hact : act.Succeeds s) (hnot : ¬ act.Proceeds s)
    (hstep : setUpStep peers s act = some (.ok s')) :
    s' = s ∨ ∃ c, act = .run (.call c) ∧ s.pc (.call c) = .idle := by
  cases act with
  | createQp t num => exact (hnot trivial).elim
  | modifyQp t res => exact (hnot hact).elim
  | run t =>
    obtain hstart | hlook := not_and_or.mp hnot
    · push Not at hstart
      obtain ⟨c, rfl, hidle⟩ := hstart
      exact .inr ⟨c, rfl, hidle⟩
    · push Not at hlook
      obtain ⟨sock, value, client, hat, hready⟩ := hlook
      refine .inl ?_
      simp only [setUpStep, runStep, hat, pointStep, if_neg hready] at hstep
      split at hstep <;> cases hstep
      rw [goto, ← hat, Function.update_eq_self]

/-- A thread that proceeds has begun its call, and does not stay at `waiting`. -/
theorem SetUpAct.Proceeds.moves {act : SetUpAct H C} (hact : act.Proceeds s)
    (hstep : setUpStep peers s act = some (.ok s')) :
    (∀ c, act.thread = .call c → s.pc act.thread ≠ .idle) ∧
      ∀ sock value client, s.pc act.thread = .at .waiting sock value client →
        s'.pc act.thread ≠ s.pc act.thread := by
  cases act with
  | run t =>
    refine ⟨hact.1, fun sock value client hat => ?_⟩
    have hready := hact.2 sock value client hat
    simp only [thread] at hat ⊢
    simp only [setUpStep, runStep, hat, pointStep, if_pos hready] at hstep
    split at hstep <;> cases hstep
    simp only [goto, Function.update_self, hat]
    simp
  | createQp t num =>
    simp only [setUpStep] at hstep
    split at hstep
    · rename_i hat
      refine ⟨fun c _ hidle => ?_, fun sock value client hwaiting => ?_⟩
      · cases hat.symm.trans hidle
      · cases hat.symm.trans hwaiting
    · cases hstep
  | modifyQp t res =>
    simp only [setUpStep] at hstep
    split at hstep
    · rename_i hat
      refine ⟨fun c _ hidle => ?_, fun sock value client hwaiting => ?_⟩
      · cases hat.symm.trans hidle
      · cases hat.symm.trans hwaiting
        simp only [modifyStep] at hstep
        split at hstep <;> cases hstep
    · cases hstep

/-- A transport without `is_ready` is attended in every state reached. -/
theorem attended_of_reachable [Inhabited H]
    (hs : (setUp peers).ReachableUnder SetUpAct.NoErrno s) : Attended s := by
  induction hs with
  | init => exact fun id hid => absurd hid (Nat.not_lt_zero id)
  | next hs _ hstep ih => exact ih.step (setUpInv_of_reachable hs) hstep

/-- **Set-up completes.** However many calls have begun, on however many hosts and in whatever state
they are: left to themselves, the hosts come to rest after finitely many steps, none of which ends
in a fault; and where they have come to rest, every call begun has returned, every accept thread
waits for the next connection, and all transports are ready and connected in pairs. The only other
steps are those that start a call, and the looks at `is_ready` in vain, which change nothing. -/
theorem setUp_completes [Inhabited H] [Fintype H] [Fintype C]
    (hs : (setUp peers).ReachableUnder SetUpAct.Succeeds s) :
    (setUp peers).Ends SetUpAct.Proceeds s ∧
      (∀ s', ReflTransGen ((setUp peers).StepUnder SetUpAct.Proceeds) s s' →
        ∀ act e, act.Proceeds s' → setUpStep peers s' act ≠ some (.error e)) ∧
      (∀ s', ReflTransGen ((setUp peers).StepUnder SetUpAct.Proceeds) s s' →
        (setUp peers).Stuck SetUpAct.Proceeds s' → s'.AtRest ∧ AllConnected peers s') ∧
      ∀ act s', act.Succeeds s → ¬ act.Proceeds s → setUpStep peers s act = some (.ok s') →
        s' = s ∨ ∃ c, act = .run (.call c) ∧ s.pc (.call c) = .idle := by
  have hreached : ∀ s', ReflTransGen ((setUp peers).StepUnder SetUpAct.Proceeds) s s' →
      (setUp peers).ReachableUnder SetUpAct.NoErrno s' := fun s' hsteps =>
    reachable_noErrno (hs.steps (fun _ _ => SetUpAct.Proceeds.succeeds) hsteps)
  refine ⟨?_, fun s' hsteps act e hact => ?_, fun s' hsteps hstuck => ?_,
    fun act s' => eq_of_not_proceeds⟩
  · refine Machine.ends_of_measure wellFounded_lt setUpMeasure (SetUpInv peers) ?_
      (setUpInv_of_reachable (reachable_noErrno hs))
    rintro s s' hinv ⟨act, hact, hstep⟩
    refine ⟨hinv.step ?_ hstep, ?_⟩
    · rintro t res rfl
      exact le_of_eq hact
    · obtain ⟨hstart, hlook⟩ := hact.moves hstep
      exact (moves_of_step hstep).measure_lt hinv hstart hlook
  · exact (setUpInv_of_reachable (hreached s' hsteps)).no_fault hact.succeeds e
  · have hreachable := hreached s' hsteps
    have hinv := setUpInv_of_reachable hreachable
    obtain ⟨hrest, hready⟩ := hinv.at_rest (attended_of_reachable hreachable)
      (fun c => socket_reaches ((setUp_projects_socket peers c).reachable hreachable)) hstuck
    exact ⟨hrest, hinv.allConnected hready⟩

/-- The call of `oneCall`, from its lookup to the end. -/
theorem setUp_completes_oneCall : ∃ s s' : SetUpState Bool Unit, s.pc (.call ()) ≠ .idle ∧
    ReflTransGen ((setUp oneCall).StepUnder SetUpAct.Proceeds) s s' ∧ s'.AtRest ∧
      AllConnected oneCall s' := by
  let act : SetUpAct Bool Unit := .run (.call ())
  obtain ⟨s, hs, hpc⟩ : ∃ s, setUpStep oneCall (setUp oneCall).init act = some (.ok s) ∧
      s.pc (.call ()) ≠ .idle := ⟨_, rfl, by decide⟩
  have hreachable : (setUp oneCall).ReachableUnder SetUpAct.Succeeds s :=
    .next .init (show act.Succeeds _ from trivial) hs
  obtain ⟨hends, hfault, hrest, -⟩ := setUp_completes hreachable
  obtain ⟨s', hsteps, hlast⟩ := hends.exists_last
  -- no step is left, as none ends in a fault
  have hstuck : (setUp oneCall).Stuck SetUpAct.Proceeds s' := by
    intro act hact
    cases hstep : (setUp oneCall).step s' act with
    | none => rfl
    | some result =>
      cases result with
      | ok s'' => exact (hlast s'' ⟨act, hact, hstep⟩).elim
      | error e => exact (hfault s' hsteps act e hact hstep).elim
  obtain ⟨hrest, hconnected⟩ := hrest s' hsteps hstuck
  exact ⟨s, s', hpc, hsteps, hrest, hconnected⟩

end Steps

end SparkRdma
