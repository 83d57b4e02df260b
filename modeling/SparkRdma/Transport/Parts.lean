import SparkRdma.Foundations.Projection
import SparkRdma.Server.Server
import SparkRdma.Transport.Alone

/-! # What a server is made of

The connections of a server share the accept thread, the worker pool and the thread that shuts the
server down, but none of these can do to a transport what the machine `transport` could not do to it
alone; and the parts of a transport, in their turn, run as the machines that describe them alone.
So what was shown of a part holds of it in every run of the server.

* **`ServerAct.At`** — the step of one peer's transport that a step of the server is.
* **`server_projects`** — the runs of the server show runs of every transport.
* **`transport_projects_link`**, **`link_projects_handleQueue`**,
  **`transport_projects_workQueue`** — the parts of a transport.
* **`server_parts`** — what follows for every connection of a server. -/

namespace SparkRdma

open Interleaving

variable {P χ : Type} {mem : χ → RdmaChunk}

/-! ### From the server to its transports -/

/-- The step of the transport of `p` that a step of the server may be. -/
def ServerAct.At (s : ServerState P χ) (p : P) : ServerAct P χ → TransportAct χ → Prop
  | .accept answer, .create answer' => s.accept = .create p ∧ answer' = answer
  | .accept _, .ready => s.accept = .complete p
  | .add q wc, .add wc' => q = p ∧ wc' = wc
  | .poll q answer, .poll answer' => q = p ∧ answer' = answer
  | .handle q, .handle pool => q = p ∧ pool = s.threadPool
  | .spurious q, .spurious => q = p
  | .startItem q, .startItem => q = p
  | .worker q i, .worker i' => q = p ∧ i' = i
  | .destroy _, .killPoll => ∃ entries, s.destroy = .shut entries p .killPoll
  | .destroy _, .killHandle => ∃ entries, s.destroy = .shut entries p .killHandle
  | .quitPoll q, .quitPoll => q = p
  | .quitHandle q, .quitHandle => q = p
  | _, _ => False

section Server

variable [DecidableEq P] {s s' : ServerState P χ} {p : P}

/-- A step of the server leaves the transport of `p` alone, or is a step of it. -/
def ServerState.StepsAt (mem : χ → RdmaChunk) (s s' : ServerState P χ) (p : P)
    (a : ServerAct P χ) : Prop :=
  s'.transports p = s.transports p ∨
    ∃ b, a.At s p b ∧ transportStep mem (s.transports p) b = some (.ok (s'.transports p))

/-- A step that writes one transport. -/
theorem ServerState.stepsAt_setTransport {q : P} {t : ServedTransport χ} {a : ServerAct P χ}
    {b : TransportAct χ} (hat : a.At s q b)
    (hstep : transportStep mem (s.transports q) b = some (.ok t))
    (hother : ∀ p, s'.transports p = (s.setTransport q t).transports p) :
    s.StepsAt mem s' p a := by
  by_cases heq : p = q
  · subst heq
    refine .inr ⟨b, hat, ?_⟩
    rw [hother, ServerState.setTransport_self, hstep]
  · exact .inl (by rw [hother, ServerState.setTransport_of_ne s t heq])

/-- `accept_thread` takes a step. -/
theorem ServerState.stepsAt_accept {answer : Answer}
    (hstep : s.acceptStep answer = some (.ok s')) : s.StepsAt mem s' p (.accept answer) := by
  unfold acceptStep at hstep
  split at hstep
  · split at hstep
    · cases hstep
      exact .inl rfl
    · split at hstep <;> cases hstep
      exact .inl rfl
  · split at hstep
    · cases hstep
      exact .inl rfl
    · split at hstep <;> cases hstep
      exact .inl rfl
  · split at hstep <;> cases hstep
    exact .inl rfl
  · rename_i _ q haccept
    obtain ⟨link, hlink, rfl⟩ := map_map_eq_ok.mp hstep
    refine stepsAt_setTransport (b := .create _) ⟨haccept, rfl⟩ ?_ fun _ => rfl
    simp only [transportStep, hlink]
    rfl
  · split at hstep <;> cases hstep
    exact .inl rfl
  · rename_i q r haccept
    split at hstep
    · cases hstep
    split at hstep
    · cases hstep
      exact .inl rfl
    · split at hstep <;> cases hstep
      exact stepsAt_setTransport (b := .ready) haccept rfl fun _ => rfl
  · cases hstep

/-- `destroy_server` takes a step. -/
theorem ServerState.stepsAt_destroy {answer : Answer}
    (hstep : s.destroyStep answer = some (.ok s')) : s.StepsAt mem s' p (.destroy answer) := by
  unfold destroyStep at hstep
  split at hstep
  case h_3 _ entries q pc hdestroy =>
    unfold shutStep at hstep
    split at hstep
    · cases hstep
      exact stepsAt_setTransport (b := .killPoll) ⟨entries, hdestroy⟩ rfl fun _ => rfl
    · cases hstep
      exact .inl rfl
    · cases hstep
      exact .inl rfl
    · split at hstep <;> cases hstep
      exact .inl rfl
    · cases hstep
      exact stepsAt_setTransport (b := .killHandle) ⟨entries, hdestroy⟩ rfl fun _ => rfl
    · split at hstep
      · cases hstep
      split at hstep <;> cases hstep
      exact .inl rfl
    · split at hstep
      · cases hstep
        exact .inl rfl
      · split at hstep <;> cases hstep
        exact .inl rfl
    · cases hstep
      exact .inl rfl
    · cases hstep
      exact .inl rfl
    · cases hstep
  case h_1 | h_2 =>
    split at hstep <;> cases hstep
    exact .inl rfl
  case h_11 => cases hstep
  all_goals
    cases hstep
    exact .inl rfl

/-- **A step of the server** leaves a transport alone, or is a step of it. -/
theorem ServerState.stepsAt_act {a : ServerAct P χ} (hstep : s.act mem a = some (.ok s')) :
    s.StepsAt mem s' p a := by
  cases a with
  | init answer => exact .inl (congrFun (initStep_spec hstep).1 p)
  | connect q =>
    simp only [act] at hstep
    split at hstep <;> cases hstep
    exact .inl rfl
  | accept answer => exact stepsAt_accept hstep
  | add q wc =>
    simp only [act] at hstep
    split at hstep <;> cases hstep
    rename_i hqp
    exact stepsAt_setTransport (b := .add wc) ⟨rfl, rfl⟩ (if_pos hqp.1) fun _ => rfl
  | poll q answer =>
    obtain ⟨t, ht, rfl⟩ := map_map_eq_ok.mp hstep
    exact stepsAt_setTransport (b := .poll answer) ⟨rfl, rfl⟩ ht fun _ => rfl
  | handle q =>
    obtain ⟨t, ht, rfl⟩ := map_map_eq_ok.mp hstep
    exact stepsAt_setTransport (b := .handle s.threadPool) ⟨rfl, rfl⟩ ht fun _ => rfl
  | spurious q =>
    simp only [act] at hstep
    split at hstep
    · rename_i hrunning
      obtain ⟨handover, hhandover, rfl⟩ := map_map_eq_ok.mp hstep
      refine stepsAt_setTransport (b := .spurious) rfl ?_ fun _ => rfl
      simp only [transportStep, if_pos hrunning, hhandover]
      rfl
    · cases hstep
  | startItem q =>
    simp only [act] at hstep
    split at hstep <;> cases hstep
    exact stepsAt_setTransport (b := .startItem) rfl (if_pos ‹_›) fun _ => rfl
  | worker q i =>
    obtain ⟨work, hwork, rfl⟩ := map_map_eq_ok.mp hstep
    refine stepsAt_setTransport (b := .worker i) ⟨rfl, rfl⟩ ?_ fun _ => rfl
    simp only [transportStep, hwork]
    rfl
  | quitPoll q =>
    simp only [act] at hstep
    split at hstep <;> cases hstep
    exact stepsAt_setTransport (b := .quitPoll) rfl (if_pos ‹_›) fun _ => rfl
  | quitHandle q =>
    simp only [act] at hstep
    split at hstep <;> cases hstep
    exact stepsAt_setTransport (b := .quitHandle) rfl (if_pos ‹_›) fun _ => rfl
  | destroyServer =>
    simp only [act] at hstep
    split at hstep <;> cases hstep
    exact .inl rfl
  | visit q =>
    simp only [act] at hstep
    split at hstep
    · split at hstep <;> cases hstep
      exact .inl rfl
    · cases hstep
  | destroy answer => exact stepsAt_destroy hstep

/-- **The transports of a server run on their own.** -/
theorem server_projects (mem : χ → RdmaChunk) {C : ServerState P χ → ServerAct P χ → Prop}
    {D : ServedTransport χ → TransportAct χ → Prop} (p : P)
    (hCD : ∀ s a b, C s a → a.At s p b → D (s.transports p) b) :
    (server P mem).Projects C (transport mem) D fun s => s.transports p where
  init := rfl
  step {s a s'} _ hC hstep := by
    rcases ServerState.stepsAt_act (p := p) (serverStep_ok.mp hstep).2 with heq | ⟨b, hat, hnext⟩
    · exact .inl heq
    · exact .inr ⟨b, hCD s a b hC hat, hnext⟩

end Server

/-! ### From a transport to its parts -/

/-- The step of the connection that a step of a transport may be. -/
def TransportAct.linkAct? : TransportAct χ → Option (LinkAct χ)
  | add wc => some (.add wc)
  | create answer => some (.create answer)
  | poll answer => some (.poll answer)
  | handle _ => some .handle
  | spurious => some .spurious
  | _ => none

/-- **The connection of a transport runs on its own**: in the loop over a batch only the end is a
step of it. -/
theorem transport_projects_link (mem : χ → RdmaChunk)
    {C : ServedTransport χ → TransportAct χ → Prop}
    {D : LinkState χ → LinkAct χ → Prop}
    (hCD : ∀ t a b, C t a → b ∈ a.linkAct? → D t.link b) :
    (transport mem).Projects C (link mem) D ServedTransport.link where
  init := rfl
  step {t a t'} _ hC hstep := by
    have hstep : transportStep mem t a = some (.ok t') := hstep
    -- the step of the connection is the one the label names
    have hof : ∀ {b}, b ∈ a.linkAct? → linkStep mem t.link b = some (.ok t'.link) →
        t'.link = t.link ∨ ∃ b, D t.link b ∧ (link mem).step t.link b = some (.ok t'.link) :=
      fun hb hnext => .inr ⟨_, hCD t a _ hC hb, hnext⟩
    cases a with
    | add wc =>
      simp only [transportStep] at hstep
      split at hstep <;> cases hstep
      exact hof rfl (if_pos ‹_›)
    | create answer =>
      obtain ⟨link, hlink, rfl⟩ := map_map_eq_ok.mp hstep
      exact hof rfl hlink
    | poll answer =>
      simp only [transportStep, ServedTransport.pollStep] at hstep
      split at hstep
      · obtain ⟨link, hlink, rfl⟩ := map_map_eq_ok.mp hstep
        exact hof rfl hlink
      · cases hstep
    | handle pool =>
      simp only [transportStep, ServedTransport.handleStep] at hstep
      split at hstep
      · rename_i hrunning
        have hlast : ∀ handover : HandleState (WcArray χ),
            t.link.handover.handleStep = some (.ok handover) →
            linkStep mem t.link .handle = some (.ok { t.link with handover := handover }) := by
          intro handover hhandover
          simp only [linkStep, if_pos hrunning.1, hhandover]
          rfl
        split at hstep
        · rename_i head hhandle
          obtain ⟨wc, work, -, -, -, -, -, rfl⟩ | ⟨-, -, rfl⟩ | ⟨work, -, -, hend⟩ :=
            ServedTransport.eventStep_cases hhandle hstep
          · exact .inl rfl
          · refine hof rfl (hlast _ ?_)
            rw [HandleState.handleStep, hhandle]
          · obtain ⟨work', rfl⟩ := ServedTransport.endSection_ok hend
            exact .inl rfl
        · obtain ⟨handover, hhandover, rfl⟩ := map_map_eq_ok.mp hstep
          exact hof rfl (hlast _ hhandover)
      · cases hstep
    | spurious =>
      simp only [transportStep] at hstep
      split at hstep
      · obtain ⟨handover, hhandover, rfl⟩ := map_map_eq_ok.mp hstep
        refine hof rfl ?_
        simp only [linkStep, hhandover]
        rfl
      · cases hstep
    | worker i =>
      obtain ⟨work, -, rfl⟩ := map_map_eq_ok.mp hstep
      exact .inl rfl
    | ready | killPoll | killHandle =>
      cases hstep
      exact .inl rfl
    | startItem | quitPoll | quitHandle =>
      simp only [transportStep] at hstep
      split at hstep <;> cases hstep
      exact .inl rfl

/-- The step of the hand-over that a step of the connection may be. -/
def LinkAct.HandedOver (s : LinkState χ) : LinkAct χ → HandleAct (WcArray χ) → Prop
  | .poll _, .push arr => s.poll = .push arr
  | .poll _, .signal => s.poll = .signal
  | .handle, .handle => True
  | .spurious, .spurious => True
  | _, _ => False

/-- `poll_thread` has pushed a batch and not woken `handle_thread` yet where the hand-over says so;
before it is started it does nothing. -/
structure SignalInv (s : LinkState χ) : Prop where
  /-- The two program points agree. -/
  pushed : s.handover.poll = .pushed ↔ s.poll = .signal
  /-- Before `poll_thread` is started it does nothing. -/
  unstarted : ¬ s.create.PollStarted → s.poll = .notStarted

/-- A step of `handle_thread` does not move `poll_thread`. -/
theorem HandleState.poll_of_handleStep {β : Type*} {h h' : HandleState β}
    (hstep : h.handleStep = some (.ok h')) : h'.poll = h.poll := by
  unfold HandleState.handleStep at hstep
  split at hstep
  case h_1 => split at hstep <;> cases hstep <;> rfl
  case h_6 =>
    split at hstep <;> cases hstep
    rfl
  case h_3 => cases hstep
  all_goals
    cases hstep
    rfl

/-- The signalling section ends the push-and-signal sequence. -/
@[simp] theorem HandleState.poll_signalSection {β : Type*} (h : HandleState β) :
    h.signalSection.poll = .polling := by
  unfold HandleState.signalSection
  split <;> rfl

/-- What a step of `poll_thread` does to the hand-over, by its program point. -/
theorem pollStep_handover {s s' : LinkState χ} {answer : Answer}
    (hstep : s.pollStep mem answer = some (.ok s')) :
    (∃ arr, s.poll = .push arr ∧ s'.handover = s.handover.pushBatch arr ∧ s'.poll = .signal) ∨
      (s.poll = .signal ∧ s'.handover = s.handover.signalSection ∧ s'.poll = .alloc) ∨
      (s.poll ≠ .signal ∧ s'.handover = s.handover ∧ s'.poll ≠ .signal) := by
  unfold LinkState.pollStep at hstep
  split at hstep
  · rename_i hpoll
    cases hstep
    exact .inr (.inr ⟨by simp [hpoll], rfl, by simp⟩)
  · rename_i hpoll
    split at hstep
    · cases hstep
    · split at hstep <;> cases hstep
      exact .inr (.inr ⟨by simp [hpoll], rfl, by simp⟩)
  · rename_i hpoll
    cases hstep
    exact .inr (.inr ⟨by simp [hpoll], rfl, by simp⟩)
  · rename_i hpoll
    split at hstep <;> cases hstep
    exact .inr (.inr ⟨by simp [hpoll], rfl, by simp⟩)
  · rename_i hpoll
    split at hstep <;> cases hstep
    exact .inr (.inr ⟨by simp [hpoll], rfl, by simp⟩)
  · rename_i hpoll
    split at hstep
    · cases hstep
    · split at hstep <;> split at hstep <;> cases hstep <;>
        exact .inr (.inr ⟨by simp [hpoll], rfl, by simp⟩)
  · rename_i arr i hpoll
    split at hstep <;> cases hstep
    · refine .inr (.inr ⟨by simp [hpoll], rfl, ?_⟩)
      dsimp only
      split <;> simp
    · exact .inr (.inr ⟨by simp [hpoll], rfl, by simp⟩)
  · rename_i hpoll
    obtain ⟨next, -, rfl⟩ := map_map_eq_ok.mp hstep
    exact .inr (.inr ⟨by simp [hpoll], rfl, by cases next <;> simp⟩)
  · rename_i arr hpoll
    cases hstep
    exact .inl ⟨arr, hpoll, rfl, rfl⟩
  · rename_i hpoll
    cases hstep
    exact .inr (.inl ⟨hpoll, rfl, rfl⟩)
  · cases hstep

/-- **One step keeps it.** -/
theorem SignalInv.step {s s' : LinkState χ} (h : SignalInv s) {a : LinkAct χ}
    (hstep : linkStep mem s a = some (.ok s')) : SignalInv s' := by
  -- a step of `handle_thread` leaves `poll_thread` where it is
  have hsame : ∀ {handover : HandleState (WcArray χ)}, handover.poll = s.handover.poll →
      SignalInv { s with handover := handover } := fun heq =>
    ⟨(show _ = _ ↔ _ from heq ▸ h.pushed), h.unstarted⟩
  cases a with
  | add wc =>
    simp only [linkStep] at hstep
    split at hstep <;> cases hstep
    exact ⟨h.pushed, h.unstarted⟩
  | create answer =>
    obtain ⟨hhandover, -, hpoll, hunstarted⟩ := createStep_spec hstep
    constructor
    · rw [hhandover, h.pushed]
      obtain heq | ⟨hcreate, hstart⟩ := hpoll
      · rw [heq]
      · rw [hstart, h.unstarted (by rw [hcreate]; exact not_false)]
        simp
    · intro hnot
      obtain ⟨hold, heq⟩ := hunstarted hnot
      rw [heq, h.unstarted hold]
  | poll answer =>
    obtain ⟨-, hrunning, hcreate, -⟩ := pollStep_spec hstep
    refine ⟨?_, fun hnot => (hrunning (h.unstarted (hcreate ▸ hnot))).elim⟩
    obtain ⟨arr, -, hhandover, hpoll⟩ | ⟨-, hhandover, hpoll⟩ | ⟨hbefore, hhandover, hpoll⟩ :=
      pollStep_handover hstep
    · simp [hhandover, hpoll, HandleState.pushBatch]
    · simp [hhandover, hpoll]
    · rw [hhandover, h.pushed]
      exact iff_of_false hbefore hpoll
  | handle =>
    simp only [linkStep] at hstep
    split at hstep
    · obtain ⟨handover, hhandover, rfl⟩ := map_map_eq_ok.mp hstep
      exact hsame (HandleState.poll_of_handleStep hhandover)
    · cases hstep
  | spurious =>
    obtain ⟨handover, hhandover, rfl⟩ := map_map_eq_ok.mp hstep
    simp only [handleQueueStep] at hhandover
    split at hhandover <;> cases hhandover
    exact hsame rfl

/-- The signals' invariant holds of every connection reached. -/
theorem signalInv_of_reachable {C : LinkState χ → LinkAct χ → Prop} {s : LinkState χ}
    (hs : (link mem).ReachableUnder C s) : SignalInv s := by
  have hinit : SignalInv (link mem).init :=
    ⟨by simp [link, LinkState.start, HandleState.start], fun _ => rfl⟩
  exact hs.invariant hinit fun _ _ _ _ h _ hstep => h.step hstep

/-- **The hand-over of a connection runs on its own.** -/
theorem link_projects_handleQueue (mem : χ → RdmaChunk)
    {C : LinkState χ → LinkAct χ → Prop}
    {D : HandleState (WcArray χ) → HandleAct (WcArray χ) → Prop}
    (hCD : ∀ s a b, C s a → a.HandedOver s b → D s.handover b) :
    (link mem).Projects C (handleQueue (WcArray χ)) D LinkState.handover where
  init := rfl
  step {s a s'} hs hC hstep := by
    have hinv := signalInv_of_reachable hs
    have hstep : linkStep mem s a = some (.ok s') := hstep
    cases a with
    | add wc =>
      simp only [linkStep] at hstep
      split at hstep <;> cases hstep
      exact .inl rfl
    | create answer => exact .inl (createStep_spec hstep).1
    | poll answer =>
      obtain ⟨arr, hpoll, hhandover, -⟩ | ⟨hpoll, hhandover, -⟩ | ⟨-, hhandover, -⟩ :=
        pollStep_handover hstep
      · refine .inr ⟨.push arr, hCD s _ _ hC hpoll, ?_⟩
        have hpolling : s.handover.poll = .polling := by
          cases hpc : s.handover.poll with
          | polling => rfl
          | pushed =>
            rw [hinv.pushed.mp hpc] at hpoll
            cases hpoll
        rw [hhandover]
        exact if_pos hpolling
      · refine .inr ⟨.signal, hCD s _ _ hC hpoll, ?_⟩
        rw [hhandover]
        exact if_pos (hinv.pushed.mpr hpoll)
      · exact .inl hhandover
    | handle =>
      simp only [linkStep] at hstep
      split at hstep
      · obtain ⟨handover, hhandover, rfl⟩ := map_map_eq_ok.mp hstep
        exact .inr ⟨.handle, hCD s _ _ hC trivial, hhandover⟩
      · cases hstep
    | spurious =>
      obtain ⟨handover, hhandover, rfl⟩ := map_map_eq_ok.mp hstep
      exact .inr ⟨.spurious, hCD s _ _ hC trivial, hhandover⟩

/-- The step of the work queue that a step of a transport may be. -/
def TransportAct.Works : TransportAct χ → WorkAct χ → Prop
  | handle _, .recv _ _ => True
  | handle _, .handler => True
  | startItem, .startItem => True
  | worker i, .worker i' => i' = i
  | _, _ => False

/-- The condition on a step of a transport that `handle_thread` has a running pool to push to. -/
def PoolRuns (_ : ServedTransport χ) : TransportAct χ → Prop
  | .handle pool => pool = .running
  | _ => True

/-- **The work queue of a transport runs on its own**, while there is a pool. -/
theorem transport_projects_workQueue (mem : χ → RdmaChunk)
    {C : ServedTransport χ → TransportAct χ → Prop}
    {D : WorkState χ → WorkAct χ → Prop} (hpool : ∀ t a, C t a → PoolRuns t a)
    (hCD : ∀ t a b, C t a → a.Works b → D t.work b) :
    (transport mem).Projects C (workQueue mem) D ServedTransport.work where
  init := rfl
  step {t a t'} _ hC hstep := by
    have hstep : transportStep mem t a = some (.ok t') := hstep
    cases a with
    | create answer =>
      obtain ⟨link, -, rfl⟩ := map_map_eq_ok.mp hstep
      exact .inl rfl
    | poll answer =>
      simp only [transportStep, ServedTransport.pollStep] at hstep
      split at hstep
      · obtain ⟨link, -, rfl⟩ := map_map_eq_ok.mp hstep
        exact .inl rfl
      · cases hstep
    | handle pool =>
      obtain rfl : pool = .running := hpool t _ hC
      simp only [transportStep, ServedTransport.handleStep] at hstep
      split at hstep
      · split at hstep
        · rename_i head hhandle
          obtain ⟨wc, work, hidle, -, -, -, ⟨-, rfl⟩ | ⟨-, hlookup⟩, rfl⟩ | ⟨-, -, rfl⟩ |
            ⟨work, -, hwork, hend⟩ := ServedTransport.eventStep_cases hhandle hstep
          · exact .inl rfl
          · refine .inr ⟨.recv wc.byteLen wc.chunk, hCD t _ _ hC trivial, ?_⟩
            simp only [workQueue, workQueueStep, hidle, hlookup]
          · exact .inl rfl
          · cases hend
            exact .inr ⟨.handler, hCD t _ _ hC trivial, hwork⟩
        · obtain ⟨handover, -, rfl⟩ := map_map_eq_ok.mp hstep
          exact .inl rfl
      · cases hstep
    | spurious =>
      simp only [transportStep] at hstep
      split at hstep
      · obtain ⟨handover, -, rfl⟩ := map_map_eq_ok.mp hstep
        exact .inl rfl
      · cases hstep
    | startItem =>
      simp only [transportStep] at hstep
      split at hstep <;> cases hstep
      exact .inr ⟨.startItem, hCD t _ _ hC trivial, if_pos ‹_›⟩
    | worker i =>
      obtain ⟨work, hwork, rfl⟩ := map_map_eq_ok.mp hstep
      exact .inr ⟨.worker i, hCD t _ _ hC rfl, hwork⟩
    | ready | killPoll | killHandle =>
      cases hstep
      exact .inl rfl
    | add wc | quitPoll | quitHandle =>
      simp only [transportStep] at hstep
      split at hstep <;> cases hstep
      exact .inl rfl

/-- The condition on a step of the server that no `handle_thread` runs but while there is a pool. -/
def ServerState.PoolUp (s : ServerState P χ) : ServerAct P χ → Prop
  | .handle _ => s.threadPool = .running
  | _ => True

/-- **The connections of a server do not interfere.** In every run of a server, start-up and
shut-down included, with any number of peers: each transport is where it could be alone, and so are
its connection and its hand-over between the two threads; and, in a run in which no `handle_thread`
runs but while there is a pool, so is its work queue. -/
theorem server_parts [DecidableEq P] {s : ServerState P χ}
    (hs : (server P mem).Reachable s) (p : P) :
    (transport mem).Reachable (s.transports p) ∧
      (link mem).Reachable (s.transports p).link ∧
      (handleQueue (WcArray χ)).Reachable (s.transports p).link.handover ∧
      ((server P mem).ReachableUnder ServerState.PoolUp s →
        (workQueue mem).Reachable (s.transports p).work) := by
  have htransport := server_projects mem (C := fun _ _ => True) (D := fun _ _ => True) p
    fun _ _ _ _ _ => trivial
  have hlink := transport_projects_link mem (C := fun _ _ => True) (D := fun _ _ => True)
    fun _ _ _ _ _ => trivial
  have hhandover := link_projects_handleQueue mem (C := fun _ _ => True)
    (D := fun _ _ => True) fun _ _ _ _ _ => trivial
  refine ⟨htransport.reachable hs, (hlink.comp htransport).reachable hs,
    ((hhandover.comp hlink).comp htransport).reachable hs, fun hup => ?_⟩
  -- the pool a step of `handle_thread` finds is the server's
  have hpool : ∀ (s : ServerState P χ) a b, s.PoolUp a → a.At s p b →
      PoolRuns (s.transports p) b := by
    intro s a b hup hat
    cases b with
    | handle pool =>
      cases a with
      | handle q => exact hat.2.trans hup
      | _ => cases hat
    | _ => trivial
  have hworks := transport_projects_workQueue mem (C := PoolRuns) (D := fun _ _ => True)
    (fun _ _ => id) fun _ _ _ _ _ => trivial
  exact (hworks.comp (server_projects mem p hpool)).reachable hup

/-- A server with one connection. -/
theorem server_parts_firstConnection : (transport fun _ : Unit => RdmaChunk.blank).Reachable
    ((firstConnection Unit true (.exchange ()) .created).transports ()) :=
  (server_parts ((firstConnection_reachable _ true).mono fun _ _ _ => trivial) ()).1

end SparkRdma
