import SparkRdma.Transport.Quiescence

/-! # A lost wake-up is made up for

A batch that waits for a wake-up that was lost waits for a later completion. `handle_thread` has
lowered the flag when it blocked, so the signal for the next batch is not lost: it wakes the thread,
which looks at the queue again and finds all batches in it.

* **`Rousing`** — how far a completion has come that finds all threads at rest.
* **`Rousing.step`** — what the threads left to themselves preserve.
* **`called_back_after_wake`** — once they are at rest again nothing is left in flight. -/

namespace SparkRdma

open Interleaving

variable {χ : Type} {mem : χ → RdmaChunk}

/-! ### The flag -/

/-- `handle_thread` lowers the flag when it blocks, and whoever raises it wakes the thread. -/
theorem HandleState.flag_of_blocked {β : Type*} {h : HandleState β}
    (hs : (handleQueue β).Reachable h) : h.handle = .blocked → h.isHandleRunning = 0 := by
  induction hs with
  | init => rintro ⟨⟩
  | @next h h' a _ _ hstep ih =>
    have hstep : handleQueueStep h a = some (.ok h') := hstep
    intro hblocked
    cases a with
    | push wcArray =>
      simp only [handleQueueStep] at hstep
      split at hstep <;> cases hstep
      exact ih hblocked
    | signal =>
      simp only [handleQueueStep] at hstep
      split at hstep <;> cases hstep
      by_cases hold : h.handle = .blocked
      · simp [HandleState.signalSection, HandleState.condSignal, ih hold, hold] at hblocked
      · rw [signalSection_of_not_blocked hold] at hblocked
        exact (hold hblocked).elim
    | handle =>
      simp only [handleQueueStep, HandleState.handleStep] at hstep
      split at hstep
      case h_1 => split at hstep <;> cases hstep <;> cases hblocked
      case h_2 =>
        cases hstep
        rfl
      case h_3 => cases hstep
      case h_6 =>
        split at hstep <;> cases hstep
        cases hblocked
      all_goals
        cases hstep
        cases hblocked
    | spurious =>
      simp only [handleQueueStep] at hstep
      split at hstep <;> cases hstep
      cases hblocked

/-! ### `poll_thread` with one completion -/

/-- `poll_thread` has nothing at hand, and nothing to signal. -/
def PollThreadPc.Looks : PollThreadPc χ → Prop
  | getEvent | ack | reqNotify | alloc | pollCq => True
  | _ => False

/-- `poll_thread` has a batch at hand, or has pushed one it has not signalled. -/
def PollThreadPc.Carries : PollThreadPc χ → Prop
  | turn _ _ | recv _ _ _ | push _ | signal => True
  | _ => False

/-- While it looks, it takes up what is there once it polls. -/
theorem pollStep_looks {s s' : LinkState χ} {answer : Answer} (hlooks : s.poll.Looks)
    (hstep : s.pollStep mem answer = some (.ok s')) :
    s'.handover = s.handover ∧
      (s'.poll.Looks ∧ s'.cq.items = s.cq.items ∨
        s'.poll.Carries ∧ s'.cq.items.length < s.cq.items.length) := by
  unfold LinkState.pollStep at hstep
  split at hstep
  case h_2 =>
    split at hstep
    · cases hstep
    · split at hstep <;> cases hstep
      exact ⟨rfl, .inl ⟨trivial, rfl⟩⟩
  case h_3 =>
    cases hstep
    exact ⟨rfl, .inl ⟨trivial, rfl⟩⟩
  case h_4 r _ =>
    split at hstep <;> cases hstep
    refine ⟨rfl, .inl ⟨trivial, ?_⟩⟩
    show (if r = 0 then s.cq.arm else s.cq).items = _
    split <;> rfl
  case h_5 =>
    split at hstep <;> cases hstep
    exact ⟨rfl, .inl ⟨trivial, rfl⟩⟩
  case h_6 r _ =>
    split at hstep
    · cases hstep
    · split at hstep
      · split at hstep <;> cases hstep
        exact ⟨rfl, .inl ⟨trivial, rfl⟩⟩
      · split at hstep <;> cases hstep
        refine ⟨rfl, .inr ⟨trivial, ?_⟩⟩
        show (s.cq.items.drop r.toNat).length < _
        rw [List.length_drop]
        omega
  case h_11 => cases hstep
  all_goals
    rename_i hpoll
    rw [hpoll] at hlooks
    exact hlooks.elim

/-- What it carries it pushes and signals. -/
theorem pollStep_carries {s s' : LinkState χ} {answer : Answer} (hcarries : s.poll.Carries)
    (hstep : s.pollStep mem answer = some (.ok s')) : s'.cq.items = s.cq.items ∧
      (s'.poll.Carries ∧ s'.handover.handle = s.handover.handle ∧
          s'.handover.isHandleRunning = s.handover.isHandleRunning ∨
        s'.poll.Looks ∧ s'.handover = s.handover.signalSection) := by
  unfold LinkState.pollStep at hstep
  split at hstep
  case h_7 =>
    split at hstep <;> cases hstep
    · refine ⟨rfl, .inl ⟨?_, rfl, rfl⟩⟩
      dsimp only
      split <;> trivial
    · exact ⟨rfl, .inl ⟨trivial, rfl, rfl⟩⟩
  case h_8 =>
    obtain ⟨next, -, rfl⟩ := map_map_eq_ok.mp hstep
    cases next <;> exact ⟨rfl, .inl ⟨trivial, rfl, rfl⟩⟩
  case h_9 =>
    cases hstep
    exact ⟨rfl, .inl ⟨trivial, rfl, rfl⟩⟩
  case h_10 =>
    cases hstep
    exact ⟨rfl, .inr ⟨trivial, rfl⟩⟩
  case h_11 => cases hstep
  all_goals
    rename_i hpoll
    rw [hpoll] at hcarries
    exact hcarries.elim

/-! ### The way of one completion -/

/-- One completion was added where all threads were at rest: how far it has come. -/
inductive Rousing (s : LinkState χ) : Prop
  /-- It is in the completion queue. -/
  | queued (hlooks : s.poll.Looks) (hone : s.cq.items.length = 1)
      (hblocked : s.handover.handle = .blocked) (hflag : s.handover.isHandleRunning = 0)
  /-- `poll_thread` has it. -/
  | carried (hcarries : s.poll.Carries) (hnone : s.cq.items = [])
      (hblocked : s.handover.handle = .blocked) (hflag : s.handover.isHandleRunning = 0)
  /-- `handle_thread` was woken, and keeps the flag up. -/
  | roused (hlooks : s.poll.Looks) (hnone : s.cq.items = [])
      (hawake : s.handover.handle ≠ .sleep ∧ s.handover.handle ≠ .blocked)
      (hflag : s.handover.isHandleRunning = 1)
  /-- It has found the queue empty. -/
  | asleep (hlooks : s.poll.Looks) (hnone : s.cq.items = [])
      (hsleeps : s.handover.handle = .sleep ∨ s.handover.handle = .blocked)
      (hempty : s.handover.handleQuque = [])

namespace Rousing

variable {s s' : LinkState χ}

/-- `poll_thread` takes a step. -/
theorem pollStep (h : Rousing s) {answer : Answer}
    (hstep : s.pollStep mem answer = some (.ok s')) : Rousing s' := by
  rcases h with ⟨hlooks, hone, hblocked, hflag⟩ | ⟨hcarries, hnone, hblocked, hflag⟩ |
    ⟨hlooks, hnone, hawake, hflag⟩ | ⟨hlooks, hnone, hsleeps, hempty⟩
  · obtain ⟨hhandover, ⟨hlooks', hitems⟩ | ⟨hcarries, hlt⟩⟩ := pollStep_looks hlooks hstep
    · exact .queued hlooks' (hitems ▸ hone) (hhandover ▸ hblocked) (hhandover ▸ hflag)
    · have hnone : s'.cq.items = [] := List.length_eq_zero_iff.mp (by omega)
      exact .carried hcarries hnone (hhandover ▸ hblocked) (hhandover ▸ hflag)
  · obtain ⟨hitems, ⟨hcarries', hhandle, hrunning⟩ | ⟨hlooks, hhandover⟩⟩ :=
      pollStep_carries hcarries hstep
    · exact .carried hcarries' (hitems.trans hnone) (hhandle.trans hblocked)
        (hrunning.trans hflag)
    · -- the flag is down and the thread blocked, so the signal wakes it
      have hwoken : s.handover.signalSection
          = { s.handover with isHandleRunning := 1, handle := .woken, poll := .polling } := by
        simp [HandleState.signalSection, HandleState.condSignal, hflag, hblocked]
      rw [hwoken] at hhandover
      refine .roused hlooks (hitems.trans hnone) ?_ ?_
      · simp [hhandover]
      · rw [hhandover]
  · obtain ⟨hhandover, ⟨hlooks', hitems⟩ | ⟨-, hlt⟩⟩ := pollStep_looks hlooks hstep
    · exact .roused hlooks' (hitems.trans hnone) (hhandover ▸ hawake) (hhandover ▸ hflag)
    · simp [hnone] at hlt
  · obtain ⟨hhandover, ⟨hlooks', hitems⟩ | ⟨-, hlt⟩⟩ := pollStep_looks hlooks hstep
    · exact .asleep hlooks' (hitems.trans hnone) (hhandover ▸ hsleeps) (hhandover ▸ hempty)
    · simp [hnone] at hlt

/-- `handle_thread` takes a step: it goes to sleep only behind an empty queue. -/
theorem handleStep (h : Rousing s) {handover : HandleState (WcArray χ)}
    (hstep : s.handover.handleStep = some (.ok handover)) :
    Rousing { s with handover := handover } := by
  have hblocked : s.handover.handle ≠ .blocked := by
    intro hblocked
    rw [HandleState.handleStep, hblocked] at hstep
    cases hstep
  rcases h with ⟨-, -, hold, -⟩ | ⟨-, -, hold, -⟩ | ⟨hlooks, hnone, hawake, hflag⟩ |
    ⟨hlooks, hnone, hsleeps, hempty⟩
  · exact (hblocked hold).elim
  · exact (hblocked hold).elim
  · unfold HandleState.handleStep at hstep
    split at hstep
    case h_1 =>
      split at hstep <;> cases hstep
      · exact .asleep hlooks hnone (.inl rfl) ‹_›
      · exact .roused hlooks hnone (by simp) hflag
    case h_2 hsleep => exact (hawake.1 hsleep).elim
    case h_3 => cases hstep
    case h_6 =>
      rw [if_pos hflag] at hstep
      cases hstep
      exact .roused hlooks hnone (by simp) hflag
    all_goals
      cases hstep
      exact .roused hlooks hnone (by simp) hflag
  · have hsleep := hsleeps.resolve_right hblocked
    rw [HandleState.handleStep, hsleep] at hstep
    cases hstep
    exact .asleep hlooks hnone (.inr rfl) hempty

/-- **The threads left to themselves** carry the completion on. -/
theorem step {t t' : ServedTransport χ} (h : Rousing t.link) {a : TransportAct χ}
    (ha : t.Proceeds a) (hstep : transportStep mem t a = some (.ok t')) : Rousing t'.link := by
  cases a with
  | poll answer =>
    simp only [transportStep, ServedTransport.pollStep] at hstep
    split at hstep
    · obtain ⟨link, hlink, rfl⟩ := map_map_eq_ok.mp hstep
      exact h.pollStep hlink
    · cases hstep
  | handle pool =>
    simp only [transportStep, ServedTransport.handleStep] at hstep
    split at hstep
    · split at hstep
      · rename_i head hhandle
        obtain ⟨wc, work, -, -, -, -, -, rfl⟩ | ⟨-, -, rfl⟩ | ⟨work, -, -, hend⟩ :=
          ServedTransport.eventStep_cases hhandle hstep
        · exact h
        · apply h.handleStep
          rw [HandleState.handleStep, hhandle]
        · obtain ⟨work', rfl⟩ := ServedTransport.endSection_ok hend
          exact h
      · obtain ⟨handover, hhandover, rfl⟩ := map_map_eq_ok.mp hstep
        exact h.handleStep hhandover
    · cases hstep
  | startItem =>
    simp only [transportStep] at hstep
    split at hstep <;> cases hstep
    exact h
  | worker i =>
    obtain ⟨work, -, rfl⟩ := map_map_eq_ok.mp hstep
    exact h
  | _ => exact ha.elim

/-- `handle_thread` does not come to its assertion with the flag down. -/
theorem not_atAssertion (h : Rousing s) : ¬ s.handover.AtAssertion := by
  rintro ⟨head, hpopped, hflag⟩
  rcases h with ⟨-, -, hblocked, -⟩ | ⟨-, -, hblocked, -⟩ | ⟨-, -, -, hup⟩ | ⟨-, -, hsleeps, -⟩
  · rw [hpopped] at hblocked
    cases hblocked
  · rw [hpopped] at hblocked
    cases hblocked
  · exact hflag hup
  · rw [hpopped] at hsleeps
    rcases hsleeps with ⟨⟨⟩⟩ | ⟨⟨⟩⟩

end Rousing

/-! ### Both ends -/

variable {ι : Type} [DecidableEq ι] {calls : ι → SendCall} {first : UInt32}

open EndToEndState

namespace EndToEndState

/-- A completion is added to the queue of the receiving transport. -/
def Completes : EndToEndAct ι → Prop
  | .land _ => True
  | .sent _ _ => True
  | _ => False

omit [DecidableEq ι] in
/-- Frames that have landed stay landed. -/
theorem AllLanded.note {s s' : EndToEndState ι} (h : s.AllLanded) {a : TransportAct RdmaChunk}
    (hsending : s'.sending = s.sending.note s.receiving a) : s'.AllLanded := by
  obtain ⟨hposted, hlanded⟩ := h
  have htail : s.sending.landed - 1 = s.sending.wire.tail.length := by
    rw [List.length_tail, hlanded]
  suffices h : AllLanded ⟨s.sending.note s.receiving a, s'.receiving⟩ by
    rwa [← hsending] at h
  unfold SendingEnd.note
  split
  · split
    · split
      · split
        · exact ⟨hposted, htail⟩
        · exact ⟨hposted, hlanded⟩
      · exact ⟨hposted, hlanded⟩
    · exact ⟨hposted, hlanded⟩
    · exact ⟨hposted, hlanded⟩
  · exact ⟨hposted, hlanded⟩

end EndToEndState

/-- The hand-over of the receiving transport is one that can be reached. -/
theorem handover_reachable {s : EndToEndState ι} (hs : (endToEnd calls first).Reachable s) :
    (handleQueue (WcArray RdmaChunk)).Reachable s.receiving.link.handover := by
  have htransport := endToEnd_projects_transport (C := fun _ _ => True) (D := fun _ _ => True)
    calls first fun _ _ _ _ _ => trivial
  have hlink := transport_projects_link id (C := fun _ _ => True) (D := fun _ _ => True)
    fun _ _ _ _ _ => trivial
  have hhandover := link_projects_handleQueue id (C := fun _ _ => True)
    (D := fun _ _ => True) fun _ _ _ _ _ => trivial
  exact ((hhandover.comp hlink).comp htransport).reachable hs

/-- A completion is added where all threads are at rest. -/
theorem rousing_of_completes [Fintype ι] {s s' : EndToEndState ι} (hcard : Fintype.card ι < 2 ^ 32)
    (hmsg : ∀ i, 0 < (calls i).bytes.length ∧ (calls i).bytes.length < 2 ^ 31)
    (hs : (endToEnd calls first).ReachableUnder Steady s) (hup : s.receiving.Up)
    (hrest : ∀ s'', ¬ (endToEnd calls first).StepUnder Proceeds s s'')
    (hassertion : ¬ s.receiving.link.handover.AtAssertion) {a : EndToEndAct ι} (ha : Completes a)
    (hstep : endToEndStep calls s a = some (.ok s')) :
    Rousing s'.receiving.link ∧ s'.receiving.Up := by
  have h := runInv_of_reachable hcard hmsg hs
  obtain ⟨⟨hpoll, hevents⟩, hblocked, -⟩ := h.at_rest hcard hmsg hup hrest hassertion
  obtain ⟨history, hinv⟩ := h.queue
  -- the queue is empty where `poll_thread` blocks without an event
  have hitems : s.receiving.link.cq.items = [] := by
    apply (hinv.nothingMissed.blocked hpoll).resolve_right
    omega
  have hflag := HandleState.flag_of_blocked
    (handover_reachable (hs.mono fun _ _ _ => trivial)) hblocked
  have hadd : ∀ {t} (wc : Wc RdmaChunk), transportStep id s.receiving (.add wc) = some (.ok t) →
      Rousing t.link ∧ t.Up := by
    intro t wc ht
    simp only [transportStep] at ht
    split at ht <;> cases ht
    refine ⟨.queued ?_ ?_ hblocked hflag, hup.pollStarted, hup.pollRuns, hup.handleStarted,
      hup.handleRuns⟩
    · rw [hpoll]
      trivial
    · simp [NotifiedQueue.add, hitems]
  cases a with
  | land old =>
    simp only [endToEndStep] at hstep
    split at hstep
    · obtain ⟨t, ht, rfl⟩ := map_map_eq_ok.mp hstep
      exact hadd _ ht
    · cases hstep
  | sent chunk byteLen =>
    obtain ⟨t, ht, rfl⟩ := map_map_eq_ok.mp hstep
    exact hadd _ ht
  | send a => exact ha.elim
  | receive a => exact ha.elim

/-- **A lost wake-up is made up for by the next completion.** Wherever the threads of the receiving
transport have come to rest, whether a batch waits for a wake-up that was lost or not, and one more
completion is added: left to themselves they come to rest again, in every way of taking turns, with
nothing left in flight; and if every frame has landed by then, every message was called back, once
and whole, in the order of the first frames. -/
theorem called_back_after_wake [Fintype ι] (calls : ι → SendCall) (first : UInt32)
    (s s₁ : EndToEndState ι) (a : EndToEndAct ι) (hcard : Fintype.card ι < 2 ^ 32)
    (hmsg : ∀ i, 0 < (calls i).bytes.length ∧ (calls i).bytes.length < 2 ^ 31)
    (hs : (endToEnd calls first).ReachableUnder Steady s) (hup : s.receiving.Up)
    (hrest : ∀ s', ¬ (endToEnd calls first).StepUnder Proceeds s s')
    (hassertion : ¬ s.receiving.link.handover.AtAssertion) (ha : Completes a)
    (hstep : (endToEnd calls first).step s a = some (.ok s₁)) :
    (endToEnd calls first).Ends Proceeds s₁ ∧
    ∀ s', Relation.ReflTransGen ((endToEnd calls first).StepUnder Proceeds) s₁ s' →
      (∀ s'', ¬ (endToEnd calls first).StepUnder Proceeds s' s'') →
      s'.receiving.inFlight = [] ∧ (s₁.AllLanded → s'.AllCalledBack calls) := by
  have hs₁ : (endToEnd calls first).ReachableUnder Steady s₁ := by
    refine hs.next (?_ : s.Steady a) hstep
    cases a with
    | land old | sent chunk byteLen => trivial
    | _ => exact ha.elim
  refine ⟨ends_of_reachable hcard hmsg hs₁, fun s' hsteps hlast => ?_⟩
  have hrousing := rousing_of_completes hcard hmsg hs hup hrest hassertion ha hstep
  obtain ⟨hrousing, hup, hlanded⟩ : Rousing s'.receiving.link ∧ s'.receiving.Up ∧
      (s₁.AllLanded → s'.AllLanded) := by
    clear hlast
    induction hsteps with
    | refl => exact ⟨hrousing.1, hrousing.2, fun h => h⟩
    | tail _ hnext ih =>
      obtain ⟨hrousing, hup, hlanded⟩ := ih
      obtain ⟨b, hb, hstep⟩ := hnext
      obtain ⟨c, hc, ht, hsending⟩ := receive_of_proceeds hb hstep
      exact ⟨hrousing.step hc ht, hup.step hc ht, fun h => (hlanded h).note hsending⟩
  have h := runInv_of_reachable hcard hmsg (hs₁.steps (fun _ _ => .of_proceeds) hsteps)
  obtain ⟨⟨hpoll, hevents⟩, hblocked, -⟩ :=
    h.at_rest hcard hmsg hup hlast hrousing.not_atAssertion
  -- what was added is on its way nowhere any more
  have hstalled : ¬ s'.receiving.link.handover.Stalled := by
    rintro ⟨-, hqueue, -⟩
    rcases hrousing with ⟨-, hone, -, -⟩ | ⟨hcarries, -, -, -⟩ | ⟨-, -, hawake, -⟩ |
      ⟨-, -, -, hempty⟩
    · obtain ⟨history, hinv⟩ := h.queue
      rcases hinv.nothingMissed.blocked hpoll with hitems | hpos
      · simp [hitems] at hone
      · omega
    · rw [hpoll] at hcarries
      exact hcarries
    · exact hawake.2 hblocked
    · exact hqueue hempty
  refine ⟨h.inFlight_of_rest hpoll hevents hblocked hstalled, fun hall => ?_⟩
  rcases h.allCalledBack_of_rest hcard hmsg hlast hup (hlanded hall) with hat | hat | hback
  · exact (hrousing.not_atAssertion hat).elim
  · exact (hstalled hat).elim
  · exact hback

/-- A message of one byte whose wake-up is lost, and a send that completes later. -/
theorem called_back_after_wake_stalled : ∃ s s' : EndToEndState Unit,
    s.receiving.link.handover.Stalled ∧ s.callbacks = [] ∧ s'.AllCalledBack fun _ => oneByte := by
  obtain ⟨s, hexec, hsender, hlanded, ⟨hpoll, hevents, hblocked, hqueue, hstarted⟩,
      ⟨hpollEnded, hhandleEnded⟩, hpolling, hitems, hworkers, hcallbacks, hqp⟩ : ∃ s,
      (endToEnd (fun _ : Unit => oneByte) 0).exec Steady
      (endToEnd (fun _ : Unit => oneByte) 0).init
      [.receive (.create .pending), .receive (.create (.pointer true)),
        .receive (.create (.pointer true)), .receive (.create (.ret 0)),
        .receive (.create (.ret 0)), .receive (.create (.ret 0)),
        .receive (.create (.pointer true)),
        .send (.draw ()), .send (.fill () [.blank]), .send (.post ()),
        -- `handle_thread` finds the queue empty, and does not sleep yet
        .receive (.handle .running), .land .blank,
        .receive (.poll .pending), .receive (.poll (.ret 0)), .receive (.poll .pending),
        .receive (.poll (.ret 0)), .receive (.poll (.pointer true)), .receive (.poll (.ret 1)),
        .receive (.poll .pending), .receive (.poll (.pointer true)),
        .receive (.poll (.pointer true)), .receive (.poll (.ret 0)), .receive (.poll .pending),
        -- it pushes the batch and signals, and blocks
        .receive (.poll .pending), .receive (.poll .pending), .receive (.poll (.pointer true)),
        .receive (.poll (.ret 0)),
        -- `handle_thread` lowers the flag and blocks
        .receive (.handle .running)] = some s ∧
      s.sending.senders () = .posting 0 [messageFrame 0 [7] 0] 1 ∧
      s.sending.landed = s.sending.wire.length ∧
      (s.receiving.link.poll = .getEvent ∧ s.receiving.link.cq.events = 0 ∧
        s.receiving.link.handover.handle = .blocked ∧
        s.receiving.link.handover.handleQuque.length = 1 ∧
        s.receiving.link.handleStarted = true) ∧
      (s.receiving.pollEnded = false ∧ s.receiving.handleEnded = false) ∧
      s.receiving.link.handover.poll = .polling ∧
      s.receiving.work.poolItems = 0 ∧ s.receiving.work.workers = [] ∧ s.callbacks = [] ∧
      s.receiving.link.HasQp :=
    ⟨_, rfl, rfl, rfl, ⟨rfl, rfl, rfl, rfl, rfl⟩, ⟨rfl, rfl⟩, rfl, rfl, rfl, rfl, trivial⟩
  have hs := Machine.reachableUnder_of_exec _ .init hexec
  have hrest : ∀ s', ¬ (endToEnd (fun _ : Unit => oneByte) 0).StepUnder Proceeds s s' :=
    not_stepUnder_of_rest hpoll hevents hblocked hitems hworkers
  have hassertion : ¬ s.receiving.link.handover.AtAssertion := by
    rintro ⟨head, hpopped, -⟩
    rw [hblocked] at hpopped
    cases hpopped
  have hup : s.receiving.Up := ⟨by simp [hpoll], hpollEnded, hstarted, hhandleEnded⟩
  obtain ⟨s₁, hstep, hsending⟩ : ∃ s₁, (endToEnd (fun _ : Unit => oneByte) 0).step s
      (.sent .blank 22) = some (.ok s₁) ∧ s₁.sending = s.sending :=
    ⟨_, map_map_eq_ok.mpr ⟨_, if_pos hqp, rfl⟩, rfl⟩
  have ha : Completes (.sent .blank 22 : EndToEndAct Unit) := trivial
  have hall : s₁.AllLanded :=
    ⟨fun _ => ⟨_, _, hsending ▸ hsender⟩, hsending ▸ hlanded⟩
  obtain ⟨hends, hback⟩ := called_back_after_wake (fun _ => oneByte) 0 s s₁ (.sent .blank 22)
    (by decide) (fun _ => by decide) hs hup hrest hassertion ha hstep
  obtain ⟨s', hsteps, hlast⟩ := hends.exists_last
  refine ⟨s, s', ⟨hblocked, fun hempty => ?_, hpolling⟩, hcallbacks,
    (hback s' hsteps hlast).2 hall⟩
  simp [hempty] at hqueue

end SparkRdma
