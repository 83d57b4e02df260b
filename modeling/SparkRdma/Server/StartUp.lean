import SparkRdma.Server.Server

/-! # Starting up

`init_server` has the socket listen and `accept_thread` run before it makes the pool of worker
threads, so a peer that is fast enough gets a message to `handle_recv_event` while there is none.

* **`PoolBeforePush`** — `handle_recv_event` is about to call `g_thread_pool_push` only when the
  pool was made.
* **`InTime`** — the condition that no message that comes first on its connection is complete before
  that.
* **`poolBeforePush_of_inTime`** — then it is so in every state reached.
* **`pushed_without_pool`** — otherwise it is not. -/

namespace SparkRdma

open Interleaving

variable {P χ : Type} {mem : χ → RdmaChunk}

namespace ServerState

/-- Wherever `handle_recv_event` is about to call `g_thread_pool_push`, `work_thread_pool` is
set. -/
def PoolBeforePush (s : ServerState P χ) : Prop :=
  ∀ p, (s.transports p).AboutToPush → s.threadPool ≠ .unset

variable [DecidableEq P]

/-- The history of arrivals: the chunks received from each peer, oldest first. -/
def noteArrival (_ : ServerState P χ) (a : ServerAct P χ) (arrived : P → List χ) : P → List χ :=
  match a with
  | .add p wc => Function.update arrived p (arrived p ++ wc.received.toList)
  | _ => arrived

/-- The condition on a step: as long as the pool is not made, no receive completes the message whose
frame came first from its peer. -/
def InTime (mem : χ → RdmaChunk) (s : ServerState P χ) (arrived : P → List χ) :
    ServerAct P χ → Prop
  | .add p wc => s.threadPool = .unset → ¬ FirstComplete mem (arrived p ++ wc.received.toList)
  | _ => True

/-- What holds as long as the pool is not made. -/
structure StartInv (mem : χ → RdmaChunk) (s : ServerState P χ) (arrived : P → List χ) : Prop where
  /-- `init_server` is not through. -/
  init : s.init ≠ .returned
  /-- Nobody destroys the server. -/
  destroy : s.destroy = .notCalled
  /-- Nothing was freed. -/
  freed : s.freed = []
  /-- No chunk is lost on the way to a work queue. -/
  arrival : ∀ p, ArrivalInv mem (s.transports p) (arrived p)
  /-- No message that came first is complete. -/
  incomplete : ∀ p, ¬ FirstComplete mem (arrived p)

/-! ### What every step preserves -/

namespace StartInv

variable {s s' : ServerState P χ} {arrived : P → List χ} {p : P} {t : ServedTransport χ}

/-- A step that writes a transport. -/
theorem setTransport (h : StartInv mem s arrived) (ht : ArrivalInv mem t (arrived p)) :
    StartInv mem (s.setTransport p t) arrived where
  init := h.init
  destroy := h.destroy
  freed := h.freed
  arrival := forall_setTransport (Q := fun q t => ArrivalInv mem t (arrived q)) h.arrival ht
  incomplete := h.incomplete

/-- A completion is added. -/
theorem add (h : StartInv mem s arrived) {wc : Wc χ}
    (hincomplete : ¬ FirstComplete mem (arrived p ++ wc.received.toList)) :
    StartInv mem (s.setTransport p { s.transports p with
      link := { (s.transports p).link with cq := (s.transports p).link.cq.add wc } })
      (Function.update arrived p (arrived p ++ wc.received.toList)) where
  init := h.init
  destroy := h.destroy
  freed := h.freed
  arrival q := by
    by_cases heq : q = p
    · subst heq
      rw [setTransport_self, Function.update_self]
      exact (h.arrival q).add wc
    · rw [setTransport_of_ne s _ heq, Function.update_of_ne heq]
      exact h.arrival q
  incomplete q := by
    by_cases heq : q = p
    · subst heq
      rwa [Function.update_self]
    · rw [Function.update_of_ne heq]
      exact h.incomplete q

omit [DecidableEq P] in
/-- `accept_thread` takes a step. -/
theorem accept (h : StartInv mem s arrived) (heffect : AcceptEffect s s') :
    StartInv mem s' arrived where
  init := heffect.init ▸ h.init
  destroy := heffect.destroy.trans h.destroy
  freed := heffect.freed.trans h.freed
  arrival p := by
    obtain heq | ⟨-, ⟨answer, link, hlink, heq⟩ | heq⟩ := heffect.transport p
    · exact heq ▸ h.arrival p
    · rw [heq]
      exact (h.arrival p).createStep hlink
    · rw [heq]
      obtain ⟨harrived, hindex, hseen, hunstarted⟩ := h.arrival p
      exact ⟨harrived, hindex, hseen, hunstarted⟩
  incomplete := h.incomplete

end StartInv

/-- **One step**, as long as it does not make the pool. -/
theorem startInv_act {s s' : ServerState P χ} {a : ServerAct P χ} {arrived : P → List χ}
    (h : s.threadPool = .unset → StartInv mem s arrived) (hintime : s.InTime mem arrived a)
    (hstep : s.act mem a = some (.ok s')) (hunset : s'.threadPool = .unset) :
    StartInv mem s' (s.noteArrival a arrived) := by
  cases a with
  | init answer =>
    obtain ⟨htransports, hfreed, hdestroy, -, ⟨hpool, hinit⟩ | hpool⟩ := initStep_spec hstep
    · have hinv := h (hpool ▸ hunset)
      exact ⟨hinit, hdestroy.trans hinv.destroy, hfreed.trans hinv.freed,
        htransports ▸ hinv.arrival, hinv.incomplete⟩
    · rw [hpool] at hunset
      cases hunset
  | connect p =>
    simp only [act] at hstep
    split at hstep <;> cases hstep
    obtain ⟨hinit, hdestroy, hfreed, harrival, hincomplete⟩ := h hunset
    exact ⟨hinit, hdestroy, hfreed, harrival, hincomplete⟩
  | accept answer =>
    have heffect := acceptStep_spec hstep
    exact (h (heffect.threadPool ▸ hunset)).accept heffect
  | add p wc =>
    simp only [act] at hstep
    split at hstep <;> cases hstep
    exact (h hunset).add (hintime hunset)
  | poll p answer =>
    obtain ⟨t, ht, rfl⟩ := map_map_eq_ok.mp hstep
    exact (h hunset).setTransport (((h hunset).arrival p).pollStep ht)
  | handle p =>
    obtain ⟨t, ht, rfl⟩ := map_map_eq_ok.mp hstep
    rw [show s.threadPool = .unset from hunset] at ht
    exact (h hunset).setTransport (((h hunset).arrival p).handleStep ht)
  | spurious p =>
    simp only [act] at hstep
    split at hstep
    · obtain ⟨handover, hhandover, rfl⟩ := map_map_eq_ok.mp hstep
      exact (h hunset).setTransport (((h hunset).arrival p).spurious hhandover)
    · cases hstep
  | startItem p =>
    -- without a pool no work item is queued
    simp only [act] at hstep
    split at hstep <;> cases hstep
    obtain ⟨stored, -, hstored⟩ := ((h hunset).arrival p).arrived
    have hitems := hstored.items
    omega
  | worker p i =>
    -- nor does one run
    obtain ⟨work, hwork, rfl⟩ := map_map_eq_ok.mp hstep
    obtain ⟨stored, -, hstored⟩ := ((h hunset).arrival p).arrived
    simp [WorkState.workerStep, hstored.workers] at hwork
  | quitPoll p | quitHandle p =>
    simp only [act] at hstep
    split at hstep <;> cases hstep
    obtain ⟨harrived, hindex, hseen, hunstarted⟩ := (h hunset).arrival p
    exact (h hunset).setTransport ⟨harrived, hindex, hseen, hunstarted⟩
  | destroyServer =>
    simp only [act] at hstep
    split at hstep <;> cases hstep
    cases hunset
  | visit p =>
    simp only [act] at hstep
    split at hstep
    · rename_i entries hdestroy
      split at hstep <;> cases hstep
      have hnot := (h hunset).destroy
      rw [hdestroy] at hnot
      cases hnot
    · cases hstep
  | destroy answer =>
    have hold : s.threadPool = .unset := by
      obtain heq | heq := (destroyStep_spec hstep).threadPool
      · exact heq ▸ hunset
      · rw [heq] at hunset
        cases hunset
    simp [act, destroyStep, (h hold).destroy] at hstep

end ServerState

/-- The server with the history of arrivals. -/
def observedServer (P : Type) [DecidableEq P] (mem : χ → RdmaChunk) :
    Machine (ServerState P χ × (P → List χ)) CFault (ServerAct P χ) :=
  (server P mem).recording (fun _ => []) ServerState.noteArrival

/-- The invariant of the start holds in every run that meets the condition, as long as the pool is
not made. -/
theorem startInv_of_reachable [DecidableEq P] {t : ServerState P χ × (P → List χ)}
    (ht : (observedServer P mem).ReachableUnder (fun s a => s.1.InTime mem s.2 a) t) :
    t.1.threadPool = .unset → t.1.StartInv mem t.2 := by
  induction ht with
  | init => exact fun _ => ⟨nofun, rfl, rfl, fun _ => .zeroed, fun _ => not_false⟩
  | next _ hintime hstep ih =>
    obtain ⟨s', hs', rfl⟩ := map_map_eq_ok.mp hstep
    exact ServerState.startInv_act ih hintime (serverStep_ok.mp hs').2

/-! ### The first message -/

/-- The completions come when `init_server` has returned, or before it makes the pool. -/
def AddsWhen (returned : Bool) (s : ServerState Unit χ) : ServerAct Unit χ → Prop
  | .add _ _ => s.threadPool = if returned then .running else .unset
  | _ => True

instance (returned : Bool) (s : ServerState Unit χ) (a : ServerAct Unit χ) :
    Decidable (AddsWhen returned s a) := by
  unfold AddsWhen
  split <;> infer_instance

/-- A message of one byte, in one frame. -/
def shortMessage (_ : Unit) : RdmaChunk :=
  { RdmaChunk.blank with header := ⟨0, 0, 1, 1, 0, 1⟩ }

/-- A server whose first connection has just received it, before `handle_thread` calls
`g_thread_pool_push`. -/
def firstMessage (returned : Bool) : ServerState Unit Unit :=
  { firstConnection Unit returned .accept .created with
    transports := fun _ =>
      { link := ⟨⟨[], true, 0, 0⟩, .created, .alloc, true,
          ⟨[], 1, .polling, .events ((WcArray.malloc0 Unit).fill [⟨(), true, .recv, 22⟩])⟩⟩
        index := 1
        work := { (WorkState.start : WorkState Unit) with
          workQueue := [0]
          heap := Function.update (fun _ => none) 0 (some ⟨0, 1, [()]⟩)
          nextAddr := 1
          handler := .stored
          pushed := [0] }
        isReady := true
        pollSignal := false
        pollEnded := false
        handleSignal := false
        handleEnded := false } }

/-- The state of the first message is reached by steps that add completions when they may. -/
theorem firstMessage_reachable (returned : Bool) :
    (observedServer Unit shortMessage).ReachableUnder (fun s a => AddsWhen returned s.1 a)
      (firstMessage returned, fun _ => [()]) := by
  have hstart : (observedServer Unit shortMessage).ReachableUnder
      (fun s a => AddsWhen returned s.1 a)
      (firstConnection Unit returned (.exchange ()) .created, fun _ => []) := by
    refine (firstConnection_reachable shortMessage returned).recording fun s a h => ?_
    cases a with
    | init | connect | accept => exact ⟨trivial, rfl⟩
    | _ => cases h.2
  refine Machine.reachableUnder_of_exec
    [.accept (.ret 0), .accept (.ret 0), .add () ⟨(), true, .recv, 22⟩, .poll () .pending,
      .poll () (.ret 0), .poll () .pending, .poll () (.ret 0), .poll () (.pointer true),
      .poll () (.ret 1), .poll () .pending, .poll () (.pointer true), .poll () (.pointer true),
      .poll () (.ret 0), .poll () .pending, .poll () .pending, .poll () .pending, .handle (),
      .handle (), .handle (), .handle (), .handle ()] hstart ?_
  cases returned <;> rfl

/-- In the state of the first message `g_thread_pool_push` comes next. -/
theorem firstMessage_aboutToPush (returned : Bool) :
    ((firstMessage returned).transports ()).AboutToPush :=
  ⟨rfl, rfl, 0, [], ⟨0, 1, [()]⟩, rfl, rfl, rfl⟩

/-! ### The results -/

/-- **The pool is there in time, if the messages are not too early.** In every run in which no
message that comes first on its connection is complete before `work_thread_pool` is set,
`handle_recv_event` is about to call `g_thread_pool_push` only when it is set. -/
theorem poolBeforePush_of_inTime [DecidableEq P] {s : ServerState P χ} {arrived : P → List χ}
    (hs : (observedServer P mem).ReachableUnder (fun s a => s.1.InTime mem s.2 a) (s, arrived)) :
    s.PoolBeforePush := by
  intro p hpush hunset
  have hstart := startInv_of_reachable hs hunset
  exact hstart.incomplete p ((hstart.arrival p).firstComplete hpush)

/-- The message comes after `init_server` has returned: the pool is there when it is pushed. -/
theorem poolBeforePush_of_inTime_returned :
    ((firstMessage true).transports ()).AboutToPush ∧ (firstMessage true).threadPool ≠ .unset := by
  have hs : (observedServer Unit shortMessage).ReachableUnder
      (fun s a => s.1.InTime shortMessage s.2 a) (firstMessage true, fun _ => [()]) := by
    refine (firstMessage_reachable true).mono fun s a h => ?_
    cases a with
    | add p wc =>
      intro hunset
      rw [show s.1.threadPool = .running from h] at hunset
      cases hunset
    | _ => trivial
  have hpush := firstMessage_aboutToPush true
  exact ⟨hpush, poolBeforePush_of_inTime hs () hpush⟩

/-- **A message is pushed before there is a pool.** A peer connects as soon as the socket listens,
and sends one byte; `init_server` comes to `g_thread_pool_new` only afterwards. -/
theorem pushed_without_pool : ¬ ∀ s : ServerState Unit Unit,
    (server Unit shortMessage).Reachable s → s.PoolBeforePush := by
  intro hall
  have hs : (server Unit shortMessage).Reachable (firstMessage false) :=
    (Machine.reachable_iff_recording _ _).mpr
      ⟨_, (firstMessage_reachable false).mono fun _ _ _ => trivial⟩
  exact hall _ hs () (firstMessage_aboutToPush false) rfl

end SparkRdma
