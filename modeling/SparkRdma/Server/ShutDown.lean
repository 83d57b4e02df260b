import Mathlib.Data.Fintype.Basic
import SparkRdma.Server.Server

/-! # Shutting down under the threads

`destroy_server` frees the transports, their queues and the context while the threads that use them
may be anywhere in their loops; the signals it sends are only pending when it goes on.

* **`ShutsDownSafely`** — no step that can be taken uses what was freed.
* **`Orderly`** — an object is freed only while the threads that use it have nothing left to do with
  it, and nothing rouses them afterwards.
* **`shutsDownSafely_of_orderly`** — then no step uses what was freed.
* **`freed_under_handle_thread`** — otherwise one does.
* **`waits_for_blocked`** — a `handle_thread` that is blocked holds `destroy_server` up. -/

namespace SparkRdma

open Interleaving

variable {P χ : Type} {mem : χ → RdmaChunk}

/-! ### Threads with nothing to do -/

/-- `handle_thread` is not in a batch. -/
def HandlePc.Waits {β : Type*} : HandlePc β → Prop
  | peek | sleep | blocked | woken => True
  | _ => False

namespace ServedTransport

/-- `poll_thread` was not started, has left, or waits for an event that is not there. -/
def PollIdle (t : ServedTransport χ) : Prop :=
  t.pollEnded = true ∨ t.link.poll = .notStarted ∨ t.link.poll = .getEvent ∧ t.link.cq.events = 0

/-- `handle_thread` was not started, or has left. -/
def HandleGone (t : ServedTransport χ) : Prop :=
  t.handleEnded = true ∨ t.link.handleStarted = false

/-- `handle_thread` has left, or is in no batch and none is queued. -/
def HandleIdle (t : ServedTransport χ) : Prop :=
  t.HandleGone ∨ t.link.handover.handle.Waits ∧ t.link.handover.handleQuque = []

/-- The threads of the transport of `p` have nothing left to do with `o`: between two batches
`handle_thread` uses the transport alone. -/
def Idle (t : ServedTransport χ) (o : ServerObject P) (p : P) : Prop :=
  t.PollIdle ∧ t.HandleIdle ∧ (o = .transport p → t.HandleGone)

variable {t t' : ServedTransport χ}

/-- An idle `poll_thread` takes no step but the one in which `ibv_get_cq_event` fails. -/
theorem PollIdle.pollStep (h : t.PollIdle) {answer : Answer}
    {result : Except CFault (ServedTransport χ)} (hstep : t.pollStep mem answer = some result) :
    result = .error .abort ∧ t.link.poll = .getEvent ∧ answer.Failed := by
  unfold ServedTransport.pollStep at hstep
  split at hstep
  swap
  · cases hstep
  rename_i hrunning
  obtain ⟨link, hlink, rfl⟩ := Option.map_eq_some_iff.mp hstep
  obtain hended | hpoll | ⟨hpoll, hevents⟩ := h
  · rw [hended] at hrunning
    cases hrunning
  · simp [LinkState.pollStep, hpoll] at hlink
  · unfold LinkState.pollStep at hlink
    rw [hpoll] at hlink
    cases answer with
    | ret r =>
      simp only [hevents, Nat.lt_irrefl, if_false] at hlink
      split at hlink <;> cases hlink
      exact ⟨rfl, hpoll, ‹_›⟩
    | _ => cases hlink

/-- A `handle_thread` that is gone takes no step. -/
theorem HandleGone.handleStep (h : t.HandleGone) (pool : WorkThreadPool) :
    t.handleStep mem pool = none := by
  refine if_neg fun hrunning => ?_
  obtain hended | hstarted := h
  · rw [hended] at hrunning
    cases hrunning.2
  · rw [hstarted] at hrunning
    cases hrunning.1

/-- One without a batch uses the transport alone, and goes round. -/
theorem HandleIdle.handleStep (h : t.HandleIdle) {pool : WorkThreadPool}
    {result : Except CFault (ServedTransport χ)} (hstep : t.handleStep mem pool = some result) :
    (∃ handover, result = .ok { t with link := { t.link with handover := handover } } ∧
      handover.handle.Waits ∧ handover.handleQuque = []) ∧
      ∀ p : P, ∀ o ∈ t.handleTouched p, o = .transport p := by
  obtain hgone | ⟨hwaits, hqueue⟩ := h
  · rw [hgone.handleStep] at hstep
    cases hstep
  unfold ServedTransport.handleStep at hstep
  split at hstep
  swap
  · cases hstep
  unfold handleTouched
  cases hpc : t.link.handover.handle with
  | peek | sleep | woken =>
    simp only [hpc, HandleState.handleStep, hqueue] at hstep
    cases hstep
    exact ⟨⟨_, rfl, trivial, rfl⟩, by simp⟩
  | blocked => simp [hpc, HandleState.handleStep] at hstep
  | pop head | popped head | events head =>
    rw [hpc] at hwaits
    exact hwaits.elim

/-- An idle `handle_thread` stays idle when its wait returns without a signal. -/
theorem HandleIdle.spurious (h : t.HandleIdle) {handover : HandleState (WcArray χ)}
    (hstep : handleQueueStep t.link.handover .spurious = some (.ok handover)) :
    HandleIdle { t with link := { t.link with handover := handover } } := by
  simp only [handleQueueStep] at hstep
  split at hstep <;> cases hstep
  exact h.imp_right fun hwaits => ⟨trivial, hwaits.2⟩

/-- A `handle_thread` that is gone does not act on a signal any more, or uses nothing there. -/
theorem HandleGone.quitTouched (h : t.HandleGone) (hended : t.handleEnded = false) (p : P) :
    t.quitTouched p = [] := by
  have hstarted : t.link.handleStarted = false := h.resolve_left (by simp [hended])
  unfold ServedTransport.quitTouched
  split
  · simp [hstarted]
  · simp [hstarted]
  · rfl

/-- Leaving on a signal uses the transport at most. -/
theorem eq_transport_of_quitTouched {p : P} (t : ServedTransport χ) :
    ∀ o ∈ t.quitTouched p, o = .transport p := by
  intro o ho
  unfold ServedTransport.quitTouched at ho
  split at ho
  · split at ho <;> simp_all
  · split at ho <;> simp_all
  · cases ho

end ServedTransport

namespace ServerState

variable {s s' : ServerState P χ} {p q : P} {o : ServerObject P} {a : ServerAct P χ}

/-- No thread that works for `p` has anything left to do with `o`. -/
def Idle (s : ServerState P χ) (o : ServerObject P) (p : P) : Prop :=
  (s.transports p).Idle o p ∧ s.accept.peer? ≠ some p

/-- Nothing was freed that is used for `p`. -/
def Whole (s : ServerState P χ) (p : P) : Prop := ∀ o ∈ s.freed, ¬ o.UsedFor p

/-- What was freed is of no use any more to the threads. -/
def FreedIdle (s : ServerState P χ) : Prop := ∀ o ∈ s.freed, ∀ p, o.UsedFor p → s.Idle o p

variable [DecidableEq P]

/-- No step that can be taken uses what was freed. -/
def ShutsDownSafely (mem : χ → RdmaChunk) (s : ServerState P χ) : Prop :=
  ∀ a, ((server P mem).step s a).isSome → ∀ o ∈ s.touched a, o ∉ s.freed

/-- The condition on a step: what it frees is of no use any more to any thread, and it rouses no
thread of a peer for which something was freed. -/
def Orderly (s : ServerState P χ) : ServerAct P χ → Prop
  | .destroy _ => ∀ o ∈ s.destroy.frees, ∀ p, o.UsedFor p → s.Idle o p
  | .add p _ => s.Whole p
  | .accept _ => s.accept = .accept → s.listening = true → ∀ p ∈ s.backlog.head?, s.Whole p
  | _ => True

/-! ### What every orderly step preserves -/

/-- `destroy_server` alone frees something. -/
theorem freed_of_act (hstep : s.act mem a = some (.ok s')) {o : ServerObject P}
    (ho : o ∈ s'.freed) : o ∈ s.freed ∨ (∃ answer, a = .destroy answer) ∧ o ∈ s.destroy.frees := by
  cases a with
  | init answer => exact .inl ((initStep_spec hstep).2.1 ▸ ho)
  | accept answer => exact .inl ((acceptStep_spec hstep).freed ▸ ho)
  | destroy answer => exact ((destroyStep_spec hstep).freed o ho).imp_right fun h => ⟨⟨_, rfl⟩, h⟩
  | poll p answer | handle p | worker p i =>
    obtain ⟨t, -, rfl⟩ := map_map_eq_ok.mp hstep
    exact .inl ho
  | spurious p =>
    simp only [act] at hstep
    split at hstep
    · obtain ⟨handover, -, rfl⟩ := map_map_eq_ok.mp hstep
      exact .inl ho
    · cases hstep
  | visit p =>
    simp only [act] at hstep
    split at hstep
    · split at hstep <;> cases hstep
      exact .inl ho
    · cases hstep
  | connect p | add p wc | startItem p | quitPoll p | quitHandle p | destroyServer =>
    simp only [act] at hstep
    split at hstep <;> cases hstep
    exact .inl ho

/-- Threads that have nothing left to do stay so in an orderly step, once something they use was
freed. -/
theorem Idle.act (h : s.Idle o p) (horderly : s.Orderly a) (hfreed : ¬ s.Whole p)
    (hstep : s.act mem a = some (.ok s')) : s'.Idle o p := by
  obtain ⟨hpoll, hhandle, hgone⟩ := h.1
  have hset : ∀ (q : P) (t : ServedTransport χ), (q = p → t.Idle o p) →
      (s.setTransport q t).Idle o p := by
    intro q t ht
    refine ⟨?_, h.2⟩
    by_cases heq : p = q
    · subst heq
      rw [setTransport_self]
      exact ht rfl
    · rw [setTransport_of_ne s t heq]
      exact h.1
  cases a with
  | init answer =>
    obtain ⟨htransports, -, -, haccept, -⟩ := initStep_spec hstep
    refine ⟨htransports ▸ h.1, ?_⟩
    obtain heq | heq := haccept
    · exact heq ▸ h.2
    · rw [heq]
      nofun
  | connect p =>
    simp only [ServerState.act] at hstep
    split at hstep <;> cases hstep
    exact h
  | accept answer =>
    obtain ⟨-, -, -, -, htransport, hpeer⟩ := acceptStep_spec hstep
    refine ⟨?_, ?_⟩
    · rw [(htransport p).resolve_right fun hwrites => h.2 hwrites.1]
      exact h.1
    · obtain heq | heq | ⟨haccept, hopen, heq⟩ := hpeer
      · exact heq ▸ h.2
      · rw [heq]
        nofun
      · -- it takes the next connection of a peer for which nothing was freed
        rw [heq]
        intro hhead
        exact hfreed (horderly haccept hopen p hhead)
  | add q wc =>
    simp only [ServerState.act] at hstep
    split at hstep <;> cases hstep
    exact hset q _ fun heq => (hfreed (heq ▸ horderly)).elim
  | poll q answer =>
    obtain ⟨t, ht, rfl⟩ := map_map_eq_ok.mp hstep
    refine hset q t fun heq => ?_
    subst heq
    cases (hpoll.pollStep ht).1
  | handle q =>
    obtain ⟨t, ht, rfl⟩ := map_map_eq_ok.mp hstep
    refine hset q t fun heq => ?_
    subst heq
    obtain ⟨⟨handover, hok, hwaits⟩, -⟩ := hhandle.handleStep (P := P) ht
    cases hok
    refine ⟨hpoll, .inr hwaits, fun hobject => ?_⟩
    rw [(hgone hobject).handleStep] at ht
    cases ht
  | spurious q =>
    simp only [ServerState.act] at hstep
    split at hstep
    · obtain ⟨handover, hhandover, rfl⟩ := map_map_eq_ok.mp hstep
      refine hset q _ fun heq => ?_
      subst heq
      exact ⟨hpoll, hhandle.spurious hhandover, hgone⟩
    · cases hstep
  | startItem q =>
    simp only [ServerState.act] at hstep
    split at hstep <;> cases hstep
    exact hset q _ fun heq => heq ▸ h.1
  | worker q i =>
    obtain ⟨work, -, rfl⟩ := map_map_eq_ok.mp hstep
    exact hset q _ fun heq => heq ▸ h.1
  | quitPoll q =>
    simp only [ServerState.act] at hstep
    split at hstep <;> cases hstep
    exact hset q _ fun heq => ⟨.inl rfl, heq ▸ h.1.2⟩
  | quitHandle q =>
    simp only [ServerState.act] at hstep
    split at hstep <;> cases hstep
    exact hset q _ fun heq => ⟨heq ▸ hpoll, .inl (.inl rfl), fun _ => .inl rfl⟩
  | destroyServer =>
    simp only [ServerState.act] at hstep
    split at hstep <;> cases hstep
    exact h
  | visit q =>
    simp only [ServerState.act] at hstep
    split at hstep
    · split at hstep <;> cases hstep
      exact h
    · cases hstep
  | destroy answer =>
    obtain ⟨-, haccept, htransport, -⟩ := destroyStep_spec hstep
    obtain ⟨pollSignal, handleSignal, heq⟩ := htransport p
    exact ⟨heq ▸ h.1, haccept ▸ h.2⟩

/-- **One orderly step.** -/
theorem FreedIdle.act (h : s.FreedIdle) (horderly : s.Orderly a)
    (hstep : s.act mem a = some (.ok s')) : s'.FreedIdle := by
  intro o ho p hp
  obtain hold | ⟨⟨answer, rfl⟩, hfrees⟩ := freed_of_act hstep ho
  · exact (h o hold p hp).act horderly (fun hwhole => hwhole o hold hp) hstep
  · -- it is freed in this step, which writes no more than signals
    obtain ⟨-, haccept, htransport, -⟩ := destroyStep_spec hstep
    obtain ⟨pollSignal, handleSignal, heq⟩ := htransport p
    have hidle := horderly o hfrees p hp
    exact ⟨heq ▸ hidle.1, haccept ▸ hidle.2⟩

/-- A thread that has nothing left to do with an object does not use it. -/
theorem FreedIdle.safe (h : s.FreedIdle) : s.ShutsDownSafely mem := by
  intro a hsome o ho hfreed
  obtain ⟨result, hstep⟩ := Option.isSome_iff_exists.mp (serverStep_isSome.mp hsome)
  cases a with
  | accept answer =>
    obtain ⟨p, hpeer, hp⟩ := s.usedFor_of_acceptTouched o ho
    exact (h o hfreed p hp).2 hpeer
  | poll p answer =>
    obtain ⟨t, ht, -⟩ := Option.map_eq_some_iff.mp hstep
    have hidle := h o hfreed p (PollThreadPc.usedFor_of_touched _ _ o ho)
    obtain ⟨-, hpoll, hfailed⟩ := hidle.1.1.pollStep ht
    simp [touched, hpoll, PollThreadPc.touched, hfailed] at ho
  | handle p =>
    obtain ⟨t, ht, -⟩ := Option.map_eq_some_iff.mp hstep
    obtain ⟨-, hhandle, hgone⟩ :=
      (h o hfreed p (ServedTransport.usedFor_of_touched _ o ho)).1
    rw [(hgone ((hhandle.handleStep ht).2 p o ho)).handleStep] at ht
    cases ht
  | quitHandle p =>
    simp only [ServerState.act] at hstep
    split at hstep
    · obtain rfl := ServedTransport.eq_transport_of_quitTouched _ o ho
      have hgone := (h _ hfreed p rfl).1.2.2 rfl
      rw [touched, hgone.quitTouched ‹_ ∧ _›.2] at ho
      cases ho
    · cases hstep
  | _ => cases ho

end ServerState

/-! ### Deciding the condition -/

section Decide

variable [DecidableEq P] [DecidableEq χ]

instance (p : P) (o : ServerObject P) : Decidable (o.UsedFor p) := by
  unfold ServerObject.UsedFor
  split <;> infer_instance

instance {β : Type*} : ∀ pc : HandlePc β, Decidable pc.Waits
  | .peek | .sleep | .blocked | .woken => .isTrue trivial
  | .pop _ | .popped _ | .events _ => .isFalse not_false

instance (t : ServedTransport χ) (o : ServerObject P) (p : P) : Decidable (t.Idle o p) := by
  unfold ServedTransport.Idle ServedTransport.PollIdle ServedTransport.HandleIdle
    ServedTransport.HandleGone
  infer_instance

instance (s : ServerState P χ) (o : ServerObject P) (p : P) : Decidable (s.Idle o p) := by
  unfold ServerState.Idle
  infer_instance

instance (s : ServerState P χ) (p : P) : Decidable (s.Whole p) := by
  unfold ServerState.Whole
  infer_instance

instance [Fintype P] (s : ServerState P χ) (a : ServerAct P χ) : Decidable (s.Orderly a) := by
  unfold ServerState.Orderly
  split <;> infer_instance

end Decide

/-! ### The results -/

/-- **Shutting down is safe when it is orderly.** In every run in which `destroy_server` frees an
object only while the threads that use it have nothing left to do with it, and nothing rouses these
threads afterwards, no step of `poll_thread`, `handle_thread` or `accept_thread` uses what was
freed. -/
theorem shutsDownSafely_of_orderly [DecidableEq P] {s : ServerState P χ}
    (hs : (server P mem).ReachableUnder ServerState.Orderly s) : s.ShutsDownSafely mem := by
  have hinv : s.FreedIdle := hs.invariant (by intro o ho; cases ho)
    fun _ _ _ _ h horderly hstep => h.act horderly (serverStep_ok.mp hstep).2
  exact hinv.safe

/-- A connection is shut down between two batches, with both its threads awake; they leave on their
signals before the queue pair is destroyed, and the server goes on to its end. -/
theorem shutsDownSafely_of_orderly_quit : ∃ s : ServerState Unit Unit,
    s.destroy = .destroyed ∧ .transport () ∈ s.freed ∧
      (s.transports ()).link.handleStarted = true ∧
      s.ShutsDownSafely fun _ => RdmaChunk.blank := by
  let s : ServerState Unit Unit :=
    { firstConnection Unit true .accept .created with
      threadPool := .freed
      listening := false
      transports := fun _ =>
        { ServedTransport.zeroed with
          link := ⟨⟨[], true, 0, 0⟩, .created, .getEvent, true, ⟨[], 0, .polling, .peek⟩⟩
          isReady := true
          pollSignal := true
          pollEnded := true
          handleSignal := true
          handleEnded := true }
      shut := [()]
      destroy := .destroyed
      freed := [.hashTable, .bufferPool, .transport (), .cq (), .qp (), .workQueue ()] }
  have hstart : (server Unit fun _ : Unit => RdmaChunk.blank).ReachableUnder ServerState.Orderly
      (firstConnection Unit true (.exchange ()) .created) := by
    refine (firstConnection_reachable _ true).mono fun s a h => ?_
    cases a with
    | accept answer =>
      intro _ _ p _ o ho
      rw [h.1] at ho
      cases ho
    | init | connect => trivial
    | _ => cases h.2
  have hs : (server Unit fun _ : Unit => RdmaChunk.blank).ReachableUnder ServerState.Orderly s := by
    refine Machine.reachableUnder_of_exec
      [.accept (.ret 0), .accept (.ret 0), .poll () .pending, .destroyServer, .destroy .pending,
        .visit (), .destroy .pending, .quitPoll (), .destroy (.ret 0), .destroy .pending,
        .destroy .pending, .destroy .pending, .quitHandle (), .destroy (.ret 0),
        .destroy (.ret 0), .destroy (.ret 0), .destroy .pending, .destroy .pending,
        .destroy (.ret 0), .destroy (.ret 0), .destroy .pending, .destroy (.ret 0),
        .destroy (.ret 0), .destroy .pending, .destroy .pending] hstart ?_
    rfl
  exact ⟨s, rfl, by decide, rfl, shutsDownSafely_of_orderly hs⟩

/-- **A blocked `handle_thread` holds `destroy_server` up**: as long as it waits, the step that
destroys `handle_cv` is not taken, and the signal it could leave on is sent only behind it. -/
theorem waits_for_blocked [DecidableEq P] {s : ServerState P χ} {entries : List P} {p : P}
    (hdestroy : s.destroy = .shut entries p .locks) (hblocked : (s.transports p).handleBlocked)
    (answer : Answer) : (server P mem).step s (.destroy answer) = none := by
  have hstep : s.destroyStep answer = none := by
    simp only [ServerState.destroyStep, hdestroy]
    cases answer <;> simp [ServerState.shutStep, hblocked]
  show serverStep mem s (.destroy answer) = none
  unfold serverStep
  split
  · exact hstep
  · rename_i huses
    exact (huses fun o ho => by cases ho).elim

/-- **A transport is freed under its `handle_thread`.** It has just seen an empty queue and is about
to lock `handle_cv_lock` when `destroy_server` frees the transport; the signal is still pending. -/
theorem freed_under_handle_thread : ¬ ∀ s : ServerState Unit Unit,
    (server Unit fun _ : Unit => RdmaChunk.blank).Reachable s →
      s.ShutsDownSafely fun _ => RdmaChunk.blank := by
  intro hall
  let s : ServerState Unit Unit :=
    { firstConnection Unit true .accept .created with
      threadPool := .freed
      transports := fun _ =>
        { ServedTransport.zeroed with
          link := ⟨⟨[], true, 0, 0⟩, .created, .start, true, ⟨[], 0, .polling, .sleep⟩⟩
          isReady := true
          pollSignal := true
          handleSignal := true }
      shut := [()]
      destroy := .foreach [()]
      freed := [.transport (), .cq (), .qp (), .workQueue ()] }
  have hs : (server Unit fun _ : Unit => RdmaChunk.blank).Reachable s := by
    refine Machine.reachableUnder_of_exec
      [.accept (.ret 0), .accept (.ret 0), .handle (), .destroyServer, .destroy .pending,
        .visit (), .destroy .pending, .destroy (.ret 0), .destroy .pending, .destroy .pending,
        .destroy .pending, .destroy (.ret 0), .destroy (.ret 0), .destroy (.ret 0),
        .destroy .pending] ((firstConnection_reachable _ true).mono fun _ _ _ => trivial) ?_
    rfl
  exact hall s hs (.handle ()) rfl (.transport ()) (by decide) (by decide)

end SparkRdma
