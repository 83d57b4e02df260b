import SparkRdma.Transport.Faultless

/-! # Both ends at rest

When the threads of the receiving transport have come to rest, what has landed was called back,
unless `handle_thread` has come to its assertion too early, or a wake-up was lost. These are the
only two ways in which a message that was sent is not called back in the end.

* **`Up`** — the threads were started, and none has been told to leave.
* **`pollStep_enabled`**, **`handleStep_enabled`** — where each thread stands when it cannot
  move.
* **`BusyInv`** — `handle_thread` is inside an event only in its loop over a batch.
* **`all_called_back`** — the result. -/

namespace SparkRdma

open Interleaving Blocks

variable {χ : Type} {mem : χ → RdmaChunk}

/-- The threads were started, and none has left. -/
structure ServedTransport.Up (t : ServedTransport χ) : Prop where
  /-- `poll_thread` was started. -/
  pollStarted : t.link.poll ≠ .notStarted
  /-- It has not left. -/
  pollRuns : t.pollEnded = false
  /-- `handle_thread` was started. -/
  handleStarted : t.link.handleStarted = true
  /-- It has not left. -/
  handleRuns : t.handleEnded = false

/-- What `poll_thread` leaves alone; once started it stays so. -/
theorem pollStep_frame {s s' : LinkState χ} {answer : Answer}
    (hstep : s.pollStep mem answer = some (.ok s')) :
    s'.create = s.create ∧ s'.handleStarted = s.handleStarted ∧ s'.poll ≠ .notStarted := by
  unfold LinkState.pollStep at hstep
  split at hstep
  case h_8 =>
    obtain ⟨next, -, rfl⟩ := map_map_eq_ok.mp hstep
    cases next <;> exact ⟨rfl, rfl, by simp⟩
  case h_7 =>
    split at hstep <;> cases hstep
    · refine ⟨rfl, rfl, ?_⟩
      dsimp only
      split <;> simp
    · exact ⟨rfl, rfl, by simp⟩
  case h_6 =>
    split at hstep
    · cases hstep
    · split at hstep <;> split at hstep <;> cases hstep <;> exact ⟨rfl, rfl, by simp⟩
  case h_2 =>
    split at hstep
    · cases hstep
    · split at hstep <;> cases hstep
      exact ⟨rfl, rfl, by simp⟩
  case h_4 | h_5 =>
    split at hstep <;> cases hstep
    exact ⟨rfl, rfl, by simp⟩
  case h_11 => cases hstep
  all_goals
    cases hstep
    exact ⟨rfl, rfl, by simp⟩

/-- The threads left to themselves stay up. -/
theorem ServedTransport.Up.step {t t' : ServedTransport χ} (h : t.Up) {a : TransportAct χ}
    (ha : t.Proceeds a) (hstep : transportStep mem t a = some (.ok t')) : t'.Up := by
  cases a with
  | poll answer =>
    simp only [transportStep, ServedTransport.pollStep] at hstep
    split at hstep
    · obtain ⟨link, hlink, rfl⟩ := map_map_eq_ok.mp hstep
      obtain ⟨-, hhandle, hpoll⟩ := pollStep_frame hlink
      exact ⟨hpoll, h.pollRuns, hhandle.trans h.handleStarted, h.handleRuns⟩
    · cases hstep
  | handle pool =>
    simp only [transportStep, ServedTransport.handleStep] at hstep
    split at hstep
    · split at hstep
      · obtain ⟨wc, work, -, -, -, -, -, rfl⟩ | ⟨-, -, rfl⟩ | ⟨work, -, -, hend⟩ :=
          ServedTransport.eventStep_cases ‹_› hstep
        · exact ⟨h.pollStarted, h.pollRuns, h.handleStarted, h.handleRuns⟩
        · exact ⟨h.pollStarted, h.pollRuns, h.handleStarted, h.handleRuns⟩
        · obtain ⟨work', rfl⟩ := ServedTransport.endSection_ok hend
          exact ⟨h.pollStarted, h.pollRuns, h.handleStarted, h.handleRuns⟩
      · obtain ⟨handover, -, rfl⟩ := map_map_eq_ok.mp hstep
        exact ⟨h.pollStarted, h.pollRuns, h.handleStarted, h.handleRuns⟩
    · cases hstep
  | startItem =>
    simp only [transportStep] at hstep
    split at hstep <;> cases hstep
    exact ⟨h.pollStarted, h.pollRuns, h.handleStarted, h.handleRuns⟩
  | worker i =>
    obtain ⟨work, -, rfl⟩ := map_map_eq_ok.mp hstep
    exact ⟨h.pollStarted, h.pollRuns, h.handleStarted, h.handleRuns⟩
  | _ => exact ha.elim

/-- `handle_thread` is at its assertion, with the flag down. -/
def HandleState.AtAssertion {β : Type*} (h : HandleState β) : Prop :=
  ∃ head, h.handle = .popped head ∧ h.isHandleRunning ≠ 1

/-! ### Where the threads stop -/

/-- A call comes back and succeeds: it returns 0, or a pointer. -/
def Answer.Succeeds : Answer → Prop
  | pending => False
  | ret r => r = 0
  | pointer notNull => notNull = true

/-- An answer that succeeds does not fail, and is not pending. -/
theorem Answer.Succeeds.not_fails {answer : Answer} (h : answer.Succeeds) :
    ¬ answer.Fails ∧ answer ≠ .pending := by
  cases answer with
  | pending => exact h.elim
  | ret r =>
    obtain rfl : r = 0 := h
    exact ⟨lt_irrefl 0, by simp⟩
  | pointer notNull =>
    obtain rfl : notNull = true := h
    exact ⟨by simp [Fails], by simp⟩

/-- Posting receives goes on when the calls it makes succeed. -/
theorem RecvPc.step_enabled {pc : RecvPc} (hpc : pc ≠ .getChunkList 0) :
    ∃ answer next, answer.Succeeds ∧ pc.step answer = some (.ok next) := by
  cases pc with
  | malloc | getChunk | calloc num | mallocs num => exact ⟨.pointer true, _, rfl, rfl⟩
  | post => exact ⟨.ret 0, _, rfl, rfl⟩
  | getChunkList num =>
    have hnum : num ≠ 0 := by
      rintro rfl
      exact hpc rfl
    refine ⟨.pointer true, some (.calloc num), rfl, ?_⟩
    simp [RecvPc.step, hnum]
  | posts left => cases left <;> exact ⟨.ret 0, _, rfl, rfl⟩

/-- `poll_thread` stops only where it blocks for an event. -/
theorem pollStep_enabled (mem : χ → RdmaChunk) {s : LinkState χ} (h : s.Asks)
    (hstarted : s.poll ≠ .notStarted) (hblocked : ¬ (s.poll = .getEvent ∧ s.cq.events = 0)) :
    ∃ answer s', s.Answers answer ∧ s.pollStep mem answer = some (.ok s') := by
  have hnext : ∀ answer {s'}, ¬ answer.Fails →
      (∀ r, s.poll = .reqNotify → answer = .ret r → r ≤ 0) →
      (∀ arr i pc, s.poll = .recv arr i pc → answer ≠ .pending) →
      s.pollStep mem answer = some (.ok s') →
      ∃ answer s', s.Answers answer ∧ s.pollStep mem answer = some (.ok s') := by
    intro answer s' hfails harms hpending hstep
    refine ⟨answer, s', ⟨hfails, ?_, fun arr i pc hrecv _ => hpending arr i pc hrecv⟩, hstep⟩
    cases answer with
    | ret r => exact fun hreq => harms r hreq rfl
    | _ => trivial
  cases hpoll : s.poll with
  | notStarted => exact (hstarted hpoll).elim
  | start | ack | push arr | signal =>
    apply hnext .pending (by simp [Answer.Fails]) (by simp [hpoll]) (by simp [hpoll])
    simp only [LinkState.pollStep, hpoll]
    rfl
  | getEvent =>
    have hevents : 0 < s.cq.events := Nat.pos_of_ne_zero fun hzero => hblocked ⟨hpoll, hzero⟩
    apply hnext (.ret 0) (by simp [Answer.Fails]) (by simp [hpoll]) (by simp [hpoll])
    simp only [LinkState.pollStep, hpoll, lt_self_iff_false, if_false, hevents, if_true]
    rfl
  | reqNotify =>
    apply hnext (.ret 0) (by simp [Answer.Fails]) (by simp) (by simp [hpoll])
    simp only [LinkState.pollStep, hpoll, lt_self_iff_false, if_false]
    rfl
  | alloc =>
    apply hnext (.pointer true) (by simp [Answer.Fails]) (by simp) (by simp [hpoll])
    simp only [LinkState.pollStep, hpoll, if_true]
    rfl
  | pollCq =>
    cases hitems : s.cq.items with
    | nil =>
      apply hnext (.ret 0) (by simp [Answer.Fails]) (by simp [hpoll]) (by simp [hpoll])
      simp only [LinkState.pollStep, hpoll, lt_self_iff_false, if_false, if_true, hitems]
      rfl
    | cons wc rest =>
      -- it may take one at a time
      apply hnext (.ret 1) (by simp [Answer.Fails]) (by simp [hpoll]) (by simp [hpoll])
      have hlength : (1 : ℤ).toNat ≤ maxEventPerPoll ∧ (1 : ℤ).toNat ≤ s.cq.items.length := by
        rw [hitems]
        exact ⟨by decide, by simp⟩
      simp only [LinkState.pollStep, hpoll, if_pos hlength]
      rfl
  | turn arr i =>
    by_cases hi : i < arr.len <;>
      apply hnext .pending (by simp [Answer.Fails]) (by simp [hpoll]) (by simp [hpoll])
    · simp only [LinkState.pollStep, hpoll, if_pos hi]
      rfl
    · simp only [LinkState.pollStep, hpoll, if_neg hi]
      rfl
  | recv arr i pc =>
    have hpc : pc ≠ .getChunkList 0 := by
      rintro rfl
      exact h.poll arr i 0 hpoll rfl
    obtain ⟨answer, next, hsucceeds, hstep⟩ := RecvPc.step_enabled hpc
    obtain ⟨hfails, hpending⟩ := hsucceeds.not_fails
    apply hnext answer hfails (by simp [hpoll]) fun _ _ _ _ => hpending
    simp only [LinkState.pollStep, hpoll, hstep]
    rfl

/-- In its loop over a batch `handle_thread` has a next step. -/
theorem eventStep_enabled {t : ServedTransport χ} {head : WcArray χ} {pool : WorkThreadPool}
    (hhandle : t.link.handover.handle = .events head) : t.eventStep mem pool head ≠ none := by
  unfold ServedTransport.eventStep
  split
  · split
    · split
      · simp
      · split
        · simp
        · split <;> simp
    · rw [HandleState.handleStep, hhandle]
      simp
  · rename_i hbusy
    unfold WorkState.handlerStep
    split
    · exact (hbusy ‹_›).elim
    · simp
    · simp
    · simp

/-- `handle_thread` stops only where it blocks, and at its assertion. -/
theorem handleStep_enabled (mem : χ → RdmaChunk) {t : ServedTransport χ} (hup : t.Up)
    (hevents : ∀ head e, t.link.handover.handle = .events head →
      t.eventStep mem .running head ≠ some (.error e))
    (hblocked : t.link.handover.handle ≠ .blocked) (hassertion : ¬ t.link.handover.AtAssertion) :
    ∃ t', t.handleStep mem .running = some (.ok t') := by
  unfold ServedTransport.handleStep
  rw [if_pos ⟨hup.handleStarted, hup.handleRuns⟩]
  cases hhandle : t.link.handover.handle with
  | blocked => exact (hblocked hhandle).elim
  | events head =>
    show ∃ t', t.eventStep mem .running head = some (.ok t')
    rcases hnext : t.eventStep mem .running head with _ | e | t'
    · exact (eventStep_enabled hhandle hnext).elim
    · exact (hevents head e hhandle hnext).elim
    · exact ⟨t', rfl⟩
  | peek =>
    cases hqueue : t.link.handover.handleQuque <;>
      simp only [HandleState.handleStep, hhandle, hqueue] <;> exact ⟨_, rfl⟩
  | popped head =>
    have hflag : t.link.handover.isHandleRunning = 1 := by
      by_contra hflag
      exact hassertion ⟨head, hhandle, hflag⟩
    simp only [HandleState.handleStep, hhandle, hflag, if_true]
    exact ⟨_, rfl⟩
  | sleep | woken | pop head =>
    simp only [HandleState.handleStep, hhandle]
    exact ⟨_, rfl⟩

/-! ### `handle_thread` inside an event -/

/-- `handle_thread` is inside an event only in its loop over a batch. -/
def BusyInv (t : ServedTransport χ) : Prop :=
  (∀ head, t.link.handover.handle ≠ .events head) → t.work.handler = .idle

/-- Steps of others than `handle_thread` keep it. -/
theorem BusyInv.of_fed {t : ServedTransport χ} (h : BusyInv t) {link : LinkState χ}
    (hfed : t.link.handover.Fed link.handover) : BusyInv { t with link := link } := by
  intro hnot
  obtain heq | ⟨hblocked, -⟩ := hfed.2
  · exact h fun head => heq ▸ hnot head
  · exact h (by simp [hblocked])

/-- **One step keeps it.** -/
theorem BusyInv.step {t t' : ServedTransport χ} (h : BusyInv t) {a : TransportAct χ}
    (hstep : transportStep mem t a = some (.ok t')) : BusyInv t' := by
  cases a with
  | add wc =>
    simp only [transportStep] at hstep
    split at hstep <;> cases hstep
    exact h.of_fed (.refl _)
  | create answer =>
    obtain ⟨link, hlink, rfl⟩ := map_map_eq_ok.mp hstep
    exact h.of_fed ((createStep_spec hlink).1 ▸ .refl _)
  | poll answer =>
    simp only [transportStep, ServedTransport.pollStep] at hstep
    split at hstep
    · obtain ⟨link, hlink, rfl⟩ := map_map_eq_ok.mp hstep
      exact h.of_fed (pollStep_spec hlink).1.fed
    · cases hstep
  | handle pool =>
    simp only [transportStep, ServedTransport.handleStep] at hstep
    split at hstep
    · split at hstep
      · rename_i head hhandle
        obtain ⟨wc, work, -, -, -, -, -, rfl⟩ | ⟨hidle, -, rfl⟩ | ⟨work, -, -, hend⟩ :=
          ServedTransport.eventStep_cases hhandle hstep
        · exact fun hnot => (hnot head hhandle).elim
        · exact fun _ => hidle
        · obtain ⟨work', rfl⟩ := ServedTransport.endSection_ok hend
          exact fun hnot => (hnot head hhandle).elim
      · rename_i hnot
        obtain ⟨handover, -, rfl⟩ := map_map_eq_ok.mp hstep
        exact fun _ => h fun head => hnot head
    · cases hstep
  | spurious =>
    simp only [transportStep] at hstep
    split at hstep
    · obtain ⟨handover, hhandover, rfl⟩ := map_map_eq_ok.mp hstep
      simp only [handleQueueStep] at hhandover
      split at hhandover <;> cases hhandover
      exact fun _ => h (by simp [*])
    · cases hstep
  | worker i =>
    obtain ⟨work, hwork, rfl⟩ := map_map_eq_ok.mp hstep
    exact fun hnot => (WorkState.handler_workerStep hwork).trans (h hnot)
  | ready | killPoll | killHandle =>
    cases hstep
    exact h
  | startItem | quitPoll | quitHandle =>
    simp only [transportStep] at hstep
    split at hstep <;> cases hstep
    exact h

/-- The invariant of the busy threads holds of every transport reached. -/
theorem busyInv_of_reachable {C : ServedTransport χ → TransportAct χ → Prop}
    {t : ServedTransport χ} (ht : (transport mem).ReachableUnder C t) : BusyInv t := by
  have hinit : BusyInv (transport mem).init := fun _ => rfl
  exact ht.invariant hinit fun _ _ _ _ h _ hstep => h.step hstep

/-- The invariant of the completion queue, with some history. -/
theorem exists_linkInv {s : LinkState χ} (hs : (link mem).ReachableUnder LinkState.Arms s) :
    ∃ h, LinkInv s h := by
  induction hs with
  | init => exact ⟨_, .init mem⟩
  | @next s s' a _ harms hstep ih =>
    obtain ⟨h, hinv⟩ := ih
    have hobserved : (observedLink mem).step (s, h) a = some (.ok (s', s.noteLink a h)) :=
      map_map_eq_ok.mpr ⟨s', hstep, rfl⟩
    exact ⟨_, hinv.step harms hobserved⟩

/-! ### The two ends -/

variable {ι : Type} [DecidableEq ι]

/-- With all frames handled and no work item left, every message was called back. -/
theorem NetInv.callbacks_of_handled {calls : ι → SendCall} {first : UInt32} {s : NetState ι}
    (hmsg : ∀ i, 0 < (calls i).bytes.length) (h : NetInv calls first s) (hall : s.AllHandled)
    (hitems : s.work.poolItems = 0) (hworkers : s.work.workers = []) :
    (∀ i, i ∈ s.order) ∧ s.order = (s.sent.filter (·.index = 0)).map Posted.call ∧
      s.work.callbacks = s.order.map (callbackOf calls) := by
  obtain ⟨hsenders, hwire, hidle⟩ := hall
  have hcurrent := h.recv.no_current (by simp [hidle])
  have hdown : s.work.isWorkRunning = 0 := by simp [h.work.flag, hitems, hworkers]
  have hwhole := fun i => (h.storedOf_of_allHandled ⟨hsenders, hwire, hidle⟩ i).2
  -- a message still queued would be complete, and the flag up
  have hqueue : s.work.workQueue = [] := by
    cases hq : s.work.workQueue with
    | nil => rfl
    | cons head rest =>
      obtain ⟨v, hv⟩ := h.work.queued_live head (by simp [hq])
      obtain ⟨i, -, -, hsize, -, hlength⟩ := h.recv.varrays head v hv
      have hcomplete : v.Complete := hlength.trans ((hwhole i).trans hsize.symm)
      exact (h.work.head_incomplete (by simp [hidle]) hdown ⟨head, rest, v, hq, hv, hcomplete⟩).elim
  refine ⟨fun i => h.recv.started i ?_, ?_, ?_⟩
  · rw [hwhole i]
    exact blockCount_pos (by simp) (hmsg i)
  · simp [NetState.sent, NetState.order, hcurrent, hwire]
  · have hpushed := congrArg List.length h.work.order
    simp only [hqueue, WorkState.inHand, hworkers, List.filterMap_nil, List.append_nil] at hpushed
    rw [h.recv.pushed_range, List.length_range, ← h.recv.order_length] at hpushed
    rw [h.recv.callbacks, ← hpushed, List.take_length]

namespace EndToEndState

/-- `poll_thread` is at `ibv_req_notify_cq`, or not. -/
instance (pc : PollThreadPc RdmaChunk) : Decidable (pc = .reqNotify) := by
  cases pc <;> first | exact .isTrue rfl | exact .isFalse (by simp)

/-- The condition on a step that there is a running pool, and that `ibv_req_notify_cq` arms the
queue, or returns a negative value. -/
def Steady (s : EndToEndState ι) : EndToEndAct ι → Prop
  | .receive (.create (.ret r)) => s.receiving.link.create = .reqNotify → r ≤ 0
  | .receive (.poll (.ret r)) => s.receiving.link.poll = .reqNotify → r ≤ 0
  | .receive (.handle pool) => pool = .running
  | _ => True

instance (s : EndToEndState ι) : ∀ a : EndToEndAct ι, Decidable (s.Steady a)
  | .receive (.create (.ret r)) | .receive (.poll (.ret r)) =>
      inferInstanceAs (Decidable (_ = _ → r ≤ 0))
  | .receive (.handle pool) => inferInstanceAs (Decidable (pool = .running))
  | .send _ | .land _ | .sent _ _ | .receive (.add _) | .receive (.create .pending)
  | .receive (.create (.pointer _)) | .receive (.poll .pending) | .receive (.poll (.pointer _))
  | .receive .spurious | .receive .startItem | .receive (.worker _) | .receive .ready
  | .receive .killPoll | .receive .killHandle | .receive .quitPoll | .receive .quitHandle =>
      .isTrue trivial

/-- The steps the receiving threads take when they are left to themselves. -/
def Proceeds (s : EndToEndState ι) : EndToEndAct ι → Prop
  | .receive a => s.receiving.Proceeds a
  | _ => False

/-- Every call has posted all its frames, and all of them have landed. -/
structure AllLanded (s : EndToEndState ι) : Prop where
  /-- All are posted. -/
  posted : ∀ i, ∃ dataId frames, s.sending.senders i = .posting dataId frames frames.length
  /-- All have landed. -/
  landed : s.sending.landed = s.sending.wire.length

/-- Every message was called back, once and whole, in the order in which the first frames were
posted. -/
def AllCalledBack (calls : ι → SendCall) (s : EndToEndState ι) : Prop :=
  ∃ order : List ι, order.Nodup ∧ (∀ i, i ∈ order) ∧ order = s.begun ∧
    s.callbacks = order.map (callbackOf calls)

namespace Steady

variable {s : EndToEndState ι} {a : EndToEndAct ι}

omit [DecidableEq ι]

/-- In a steady step there is a running pool. -/
theorem pool (h : s.Steady a) : s.PoolRuns a := by
  cases a with
  | receive a =>
    cases a with
    | handle pool => exact h
    | _ => trivial
  | _ => trivial

/-- The queue is armed. -/
theorem arms (h : s.Steady a) {b : TransportAct RdmaChunk} (hb : a.Receives b) :
    ∀ c ∈ b.linkAct?, s.receiving.link.Arms c := by
  intro c hc
  cases a with
  | receive a =>
    obtain rfl := hb
    cases b with
    | create answer | poll answer =>
      cases hc
      cases answer with
      | ret r => exact h
      | _ => trivial
    | add wc | handle pool | spurious =>
      cases hc
      trivial
    | _ => cases hc
  | land old | sent chunk byteLen =>
    cases b with
    | add wc =>
      cases hc
      trivial
    | _ => cases hb
  | send a => cases hb

/-- The threads left to themselves meet the condition. -/
theorem of_proceeds (h : s.Proceeds a) : s.Steady a := by
  cases a with
  | receive a =>
    cases a with
    | poll answer =>
      cases answer with
      | ret r => exact LinkState.Answers.arms h
      | _ => trivial
    | handle pool => exact h
    | startItem | worker i => trivial
    | _ => exact h.elim
  | _ => exact h.elim

end Steady

end EndToEndState

open EndToEndState

/-- What is known of the state at a point of a run. -/
structure RunInv (calls : ι → SendCall) (first : UInt32) (s : EndToEndState ι) : Prop where
  /-- The network. -/
  net : NetInv calls first s.toNet
  /-- The frames in transit. -/
  ends : EndToEndInv s
  /-- The receives asked for. -/
  asks : s.receiving.link.Asks
  /-- The events. -/
  busy : BusyInv s.receiving
  /-- The hand-over. -/
  signal : SignalInv s.receiving.link
  /-- The completion queue. -/
  queue : ∃ h, LinkInv s.receiving.link h

/-- The invariant of the runs holds of every state reached by steady steps. -/
theorem runInv_of_reachable [Fintype ι] {calls : ι → SendCall} {first : UInt32}
    {s : EndToEndState ι} (hcard : Fintype.card ι < 2 ^ 32)
    (hmsg : ∀ i, 0 < (calls i).bytes.length ∧ (calls i).bytes.length < 2 ^ 31)
    (hs : (endToEnd calls first).ReachableUnder Steady s) : RunInv calls first s := by
  have hpool := hs.mono fun _ _ h => h.pool
  have htransport := endToEnd_projects_transport (C := Steady)
    (D := fun t a => ∀ b ∈ a.linkAct?, t.link.Arms b) calls first fun s a b h hb => h.arms hb
  have hlink := (transport_projects_link id
    (C := fun t a => ∀ b ∈ a.linkAct?, t.link.Arms b) (D := LinkState.Arms)
    fun t a b h hb => h b hb).reachable (htransport.reachable hs)
  exact ⟨netInv_of_endToEnd hcard hmsg hpool, endToEndInv_of_reachable hpool,
    asks_of_reachable hcard hmsg hpool, busyInv_of_reachable (htransport.reachable hs),
    signalInv_of_reachable hlink, exists_linkInv hlink⟩

/-- A step the threads take by themselves is one of the receiving transport. -/
theorem receive_of_proceeds {calls : ι → SendCall} {s s' : EndToEndState ι} {a : EndToEndAct ι}
    (ha : s.Proceeds a) (hstep : endToEndStep calls s a = some (.ok s')) :
    ∃ b, s.receiving.Proceeds b ∧ transportStep id s.receiving b = some (.ok s'.receiving) ∧
      s'.sending = s.sending.note s.receiving b := by
  cases a with
  | receive b =>
    have hadd : ∀ wc, b ≠ .add wc := by
      rintro wc rfl
      exact ha.elim
    rw [endToEndStep_receive calls s hadd] at hstep
    obtain ⟨t, ht, rfl⟩ := map_map_eq_ok.mp hstep
    exact ⟨b, ha, ht, rfl⟩
  | _ => exact ha.elim

/-- A step of the receiving transport that its threads can take is one both ends can. -/
theorem stepUnder_of_receive (calls : ι → SendCall) (first : UInt32) {s : EndToEndState ι}
    {a : TransportAct RdmaChunk} {t : ServedTransport RdmaChunk} (ha : s.receiving.Proceeds a)
    (hstep : transportStep id s.receiving a = some (.ok t)) :
    ∃ s', (endToEnd calls first).StepUnder Proceeds s s' := by
  have hadd : ∀ wc, a ≠ .add wc := by
    rintro wc rfl
    exact ha.elim
  refine ⟨⟨s.sending.note s.receiving a, t⟩, .receive a, ha, ?_⟩
  show endToEndStep calls s (.receive a) = _
  rw [endToEndStep_receive calls s hadd, hstep]
  rfl

/-- **Where the threads stop.** No step is left only when each thread is at rest. -/
theorem RunInv.at_rest [Fintype ι] {calls : ι → SendCall} {first : UInt32} {s : EndToEndState ι}
    (hcard : Fintype.card ι < 2 ^ 32)
    (hmsg : ∀ i, 0 < (calls i).bytes.length ∧ (calls i).bytes.length < 2 ^ 31)
    (h : RunInv calls first s) (hup : s.receiving.Up)
    (hlast : ∀ s', ¬ (endToEnd calls first).StepUnder Proceeds s s')
    (hassertion : ¬ s.receiving.link.handover.AtAssertion) :
    (s.receiving.link.poll = .getEvent ∧ s.receiving.link.cq.events = 0) ∧
      s.receiving.link.handover.handle = .blocked ∧
      s.receiving.work.poolItems = 0 ∧ s.receiving.work.workers = [] := by
  have hstop : ∀ {a t}, s.receiving.Proceeds a →
      transportStep id s.receiving a ≠ some (.ok t) := by
    intro a t ha hstep
    obtain ⟨s', hs'⟩ := stepUnder_of_receive calls first ha hstep
    exact hlast s' hs'
  refine ⟨?_, ?_, ?_, ?_⟩
  · by_contra hblocked
    obtain ⟨answer, link, hanswers, hlink⟩ :=
      pollStep_enabled id h.asks hup.pollStarted hblocked
    refine hstop (a := .poll answer) hanswers (t := { s.receiving with link := link }) ?_
    simp only [transportStep, ServedTransport.pollStep, hup.pollRuns, if_true, hlink]
    rfl
  · by_contra hblocked
    obtain ⟨t, ht⟩ := handleStep_enabled id hup (fun head e hhandle =>
      h.ends.transit.eventStep_ne_error hcard (fun i => (hmsg i).2) h.ends.shape h.net hhandle)
      hblocked hassertion
    exact hstop (a := .handle .running) rfl ht
  · by_contra hitems
    have hpos := Nat.pos_of_ne_zero hitems
    refine hstop (a := .startItem) trivial
      (t := { s.receiving with work := s.receiving.work.startItem }) ?_
    simp only [transportStep, if_pos hpos]
  · by_contra hworkers
    obtain ⟨pc, rest, hpc⟩ := List.exists_cons_of_ne_nil hworkers
    have hsome : ∃ r, s.receiving.work.workerStep id 0 = some r := by
      rw [WorkState.workerStep, hpc]
      cases pc <;> exact ⟨_, rfl⟩
    obtain ⟨r, hr⟩ := hsome
    obtain ⟨work, rfl, -⟩ := h.net.worker hmsg hr
    refine hstop (a := .worker 0) trivial (t := { s.receiving with work := work }) ?_
    simp only [transportStep, hr]
    rfl

omit [DecidableEq ι] in
/-- With nothing in flight and every frame landed, no frame is on the wire. -/
theorem InTransit.wire_of_empty {w : SendingEnd ι} (h : InTransit w [])
    (hlanded : w.landed = w.wire.length) : w.wire = [] := by
  obtain ⟨wcs, heq, -, htransit⟩ := h.flight
  obtain rfl := List.map_eq_nil_iff.mp heq.symm
  rw [hlanded, List.take_length] at htransit
  exact List.forall₂_nil_left_iff.mp htransit

/-- At rest nothing is in flight, unless a wake-up was lost. -/
theorem RunInv.inFlight_of_rest {calls : ι → SendCall} {first : UInt32} {s : EndToEndState ι}
    (h : RunInv calls first s) (hpoll : s.receiving.link.poll = .getEvent)
    (hevents : s.receiving.link.cq.events = 0)
    (hblocked : s.receiving.link.handover.handle = .blocked)
    (hstalled : ¬ s.receiving.link.handover.Stalled) : s.receiving.inFlight = [] := by
  obtain ⟨history, hinv⟩ := h.queue
  -- the queue is empty where `poll_thread` blocks without an event
  have hitems : s.receiving.link.cq.items = [] := by
    obtain hempty | hpos := hinv.nothingMissed.blocked hpoll
    · exact hempty
    · omega
  -- `poll_thread` is behind its signal, so no batch is queued
  have hqueue : s.receiving.link.handover.handleQuque = [] := by
    by_contra hne
    refine hstalled ⟨hblocked, hne, ?_⟩
    cases hpc : s.receiving.link.handover.poll with
    | polling => rfl
    | pushed =>
      rw [h.signal.pushed.mp hpc] at hpoll
      cases hpoll
  simp [ServedTransport.inFlight, ServedTransport.batchRest, LinkState.stream, hblocked, hqueue,
    hpoll, hitems, PollThreadPc.inHand]

/-- Where the threads have come to rest with every frame landed, every message was called back. -/
theorem RunInv.allCalledBack_of_rest [Fintype ι] {calls : ι → SendCall} {first : UInt32}
    {s : EndToEndState ι} (h : RunInv calls first s) (hcard : Fintype.card ι < 2 ^ 32)
    (hmsg : ∀ i, 0 < (calls i).bytes.length ∧ (calls i).bytes.length < 2 ^ 31)
    (hlast : ∀ s', ¬ (endToEnd calls first).StepUnder Proceeds s s') (hup : s.receiving.Up)
    (hlanded : s.AllLanded) : s.receiving.link.handover.AtAssertion ∨
      s.receiving.link.handover.Stalled ∨ s.AllCalledBack calls := by
  by_cases hassertion : s.receiving.link.handover.AtAssertion
  · exact .inl hassertion
  by_cases hstalled : s.receiving.link.handover.Stalled
  · exact .inr (.inl hstalled)
  obtain ⟨⟨hpoll, hevents⟩, hblocked, hitems, hworkers⟩ :=
    h.at_rest hcard hmsg hup hlast hassertion
  refine .inr (.inr ?_)
  have hflight := h.inFlight_of_rest hpoll hevents hblocked hstalled
  have hwire : s.sending.wire = [] := by
    have htransit := h.ends.transit
    rw [hflight] at htransit
    exact htransit.wire_of_empty hlanded.landed
  have hall : s.toNet.AllHandled :=
    ⟨hlanded.posted, hwire, h.busy (by simp [hblocked])⟩
  obtain ⟨hmem, horder, hcallbacks⟩ :=
    h.net.callbacks_of_handled (fun i => (hmsg i).1) hall hitems hworkers
  exact ⟨s.toNet.order, h.net.recv.order_nodup, hmem, horder, hcallbacks⟩

/-- Every run of the threads left to themselves comes to an end. -/
theorem ends_of_reachable [Fintype ι] {calls : ι → SendCall} {first : UInt32}
    {s : EndToEndState ι} (hcard : Fintype.card ι < 2 ^ 32)
    (hmsg : ∀ i, 0 < (calls i).bytes.length ∧ (calls i).bytes.length < 2 ^ 31)
    (hs : (endToEnd calls first).ReachableUnder Steady s) :
    (endToEnd calls first).Ends Proceeds s := by
  refine Machine.ends_of_measure wellFounded_lt (fun s => s.receiving.progress)
    ((endToEnd calls first).ReachableUnder Steady) ?_ hs
  rintro s s' hs ⟨a, ha, hstep⟩
  have h := runInv_of_reachable hcard hmsg hs
  obtain ⟨b, hb, ht, -⟩ := receive_of_proceeds ha hstep
  exact ⟨hs.next (.of_proceeds ha) hstep, ServedTransport.progress_lt h.ends.shape h.net.work hb ht⟩

/-- **Everything sent is called back in the end.** Left to themselves, the threads of the receiving
transport come to rest, in every way of taking turns; and where they have come to rest with every
frame posted and landed, every message was called back, once and whole, in the order of the first
frames: unless `handle_thread` has come to its assertion with the flag down, or a batch waits for a
wake-up that was lost. -/
theorem all_called_back [Fintype ι] (calls : ι → SendCall) (first : UInt32)
    (s : EndToEndState ι) (hcard : Fintype.card ι < 2 ^ 32)
    (hmsg : ∀ i, 0 < (calls i).bytes.length ∧ (calls i).bytes.length < 2 ^ 31)
    (hs : (endToEnd calls first).ReachableUnder Steady s) :
    (endToEnd calls first).Ends Proceeds s ∧
    ((∀ s', ¬ (endToEnd calls first).StepUnder Proceeds s s') → s.receiving.Up → s.AllLanded →
      s.receiving.link.handover.AtAssertion ∨ s.receiving.link.handover.Stalled ∨
        s.AllCalledBack calls) :=
  ⟨ends_of_reachable hcard hmsg hs,
    (runInv_of_reachable hcard hmsg hs).allCalledBack_of_rest hcard hmsg⟩

/-- Where each thread is at rest no step is left. -/
theorem not_stepUnder_of_rest {calls : ι → SendCall} {first : UInt32} {s : EndToEndState ι}
    (hpoll : s.receiving.link.poll = .getEvent) (hevents : s.receiving.link.cq.events = 0)
    (hblocked : s.receiving.link.handover.handle = .blocked)
    (hitems : s.receiving.work.poolItems = 0) (hworkers : s.receiving.work.workers = [])
    (s' : EndToEndState ι) : ¬ (endToEnd calls first).StepUnder Proceeds s s' := by
  rintro ⟨a, ha, hstep⟩
  cases a with
  | receive a =>
    have hadd : ∀ wc, a ≠ .add wc := by
      rintro wc rfl
      exact ha.elim
    obtain ⟨t, ht, -⟩ := map_map_eq_ok.mp ((endToEndStep_receive calls s hadd).symm.trans hstep)
    cases a with
    | poll answer =>
      simp only [transportStep, ServedTransport.pollStep] at ht
      split at ht
      · obtain ⟨link, hlink, -⟩ := map_map_eq_ok.mp ht
        cases answer with
        | ret r =>
          simp only [LinkState.pollStep, hpoll, hevents, lt_self_iff_false, if_false] at hlink
          split at hlink <;> cases hlink
        | _ =>
          simp only [LinkState.pollStep, hpoll] at hlink
          cases hlink
      · cases ht
    | handle pool =>
      simp only [transportStep, ServedTransport.handleStep, HandleState.handleStep,
        hblocked] at ht
      split at ht <;> cases ht
    | startItem =>
      simp only [transportStep, hitems, lt_self_iff_false, if_false] at ht
      cases ht
    | worker k =>
      simp only [transportStep, WorkState.workerStep, hworkers, List.getElem?_nil] at ht
      cases ht
    | _ => exact ha.elim
  | _ => exact ha.elim

/-- A run goes on with a step of a work item. -/
theorem reachable_of_worker {calls : ι → SendCall} {first : UInt32} {s : EndToEndState ι} {k : ℕ}
    {work : WorkState RdmaChunk} (hs : (endToEnd calls first).ReachableUnder Steady s)
    (hwork : s.receiving.work.workerStep id k = some (.ok work)) :
    (endToEnd calls first).ReachableUnder Steady
      { s with receiving := { s.receiving with work := work } } := by
  have hsteady : s.Steady (.receive (.worker k)) := trivial
  refine hs.next hsteady ?_
  show endToEndStep calls s (.receive (.worker k)) = _
  simp only [endToEndStep, transportStep, hwork]
  rfl

/-- A message of one byte, from its call until everything is at rest. -/
theorem all_called_back_oneByte : ∃ s : EndToEndState Unit,
    (∀ s', ¬ (endToEnd (fun _ => oneByte) 0).StepUnder Proceeds s s') ∧ s.receiving.Up ∧
      s.AllLanded ∧ s.AllCalledBack fun _ => oneByte := by
  -- up to the pop, with the two threads of the transport at rest already
  obtain ⟨s, hexec, hposted, hlanded, hv, ⟨hpoll, hevents, hblocked, hqueue, hstarted⟩,
      ⟨hpollRuns, hhandleRuns⟩, hup, hworkers, hmessages, hitems⟩ : ∃ s,
      (endToEnd (fun _ : Unit => oneByte) 0).exec Steady
      (endToEnd (fun _ : Unit => oneByte) 0).init
      [.receive (.create .pending), .receive (.create (.pointer true)),
        .receive (.create (.pointer true)), .receive (.create (.ret 0)),
        .receive (.create (.ret 0)), .receive (.create (.ret 0)),
        .receive (.create (.pointer true)),
        .send (.draw ()), .send (.fill () [.blank]), .send (.post ()),
        .receive (.handle .running), .receive (.handle .running), .land .blank,
        -- `poll_thread`, up to where it blocks
        .receive (.poll .pending), .receive (.poll (.ret 0)), .receive (.poll .pending),
        .receive (.poll (.ret 0)), .receive (.poll (.pointer true)), .receive (.poll (.ret 1)),
        .receive (.poll .pending), .receive (.poll (.pointer true)),
        .receive (.poll (.pointer true)), .receive (.poll (.ret 0)), .receive (.poll .pending),
        .receive (.poll .pending), .receive (.poll .pending), .receive (.poll (.pointer true)),
        .receive (.poll (.ret 0)),
        -- `handle_thread`, up to its wait
        .receive (.handle .running), .receive (.handle .running), .receive (.handle .running),
        .receive (.handle .running), .receive (.handle .running), .receive (.handle .running),
        .receive (.handle .running), .receive (.handle .running), .receive (.handle .running),
        .receive (.handle .running), .receive .startItem, .receive (.worker 0)] = some s ∧
      s.sending.senders () = .posting 0 [messageFrame 0 [7] 0] 1 ∧
      s.sending.landed = s.sending.wire.length ∧
      s.receiving.work.heap 0 = some ⟨0, 1, [RdmaChunk.blank.land (messageFrame 0 [7] 0)]⟩ ∧
      (s.receiving.link.poll = .getEvent ∧ s.receiving.link.cq.events = 0 ∧
        s.receiving.link.handover.handle = .blocked ∧
        s.receiving.link.handover.handleQuque = [] ∧ s.receiving.link.handleStarted = true) ∧
      (s.receiving.pollEnded = false ∧ s.receiving.handleEnded = false) ∧
      s.receiving.work.isWorkRunning = 1 ∧ s.receiving.work.workers = [.popped 0] ∧
      s.receiving.work.workQueue = [] ∧ s.receiving.work.poolItems = 0 :=
    ⟨_, rfl, rfl, rfl, rfl, ⟨rfl, rfl, rfl, rfl, rfl⟩, ⟨rfl, rfl⟩, rfl, rfl, rfl, rfl⟩
  have hs := Machine.reachableUnder_of_exec _ .init hexec
  have hcarries : CarriesFrom 0 [7] 0 [RdmaChunk.blank.land (messageFrame 0 [7] 0)] :=
    ⟨carries_land 0 [7] 0 .blank, trivial⟩
  have hdeliver := deliver_ok (v := ⟨0, 1, _⟩) (by decide) (by decide) hcarries rfl rfl
  obtain ⟨work, hwork⟩ := WorkState.deliverHead_of_complete 0 hup hv rfl hdeliver
  obtain ⟨-, v, callback, -, -, -, rfl⟩ := WorkState.deliverHead_ok hwork
  -- the callback, the `free`, and the end of the work item
  have hs := reachable_of_worker (k := 0) hs (by
    rw [WorkState.workerStep, hworkers]
    exact congrArg some hwork)
  have hs := reachable_of_worker (k := 0) hs (by
    simp only [WorkState.workerStep, hworkers, List.set_cons_zero, List.getElem?_cons_zero]
    rfl)
  have hs := reachable_of_worker (k := 0) hs (by
    simp only [WorkState.workerStep, WorkState.freeHead, List.set_cons_zero,
      List.getElem?_cons_zero, WorkState.headSection, WorkState.headComplete, hmessages]
    rfl)
  obtain ⟨s, hs, hrest, hstalled, hup, hlanded⟩ : ∃ s : EndToEndState Unit,
      (endToEnd (fun _ => oneByte) 0).ReachableUnder Steady s ∧
      (∀ s', ¬ (endToEnd (fun _ => oneByte) 0).StepUnder Proceeds s s') ∧
      (¬ s.receiving.link.handover.AtAssertion ∧ ¬ s.receiving.link.handover.Stalled) ∧
      s.receiving.Up ∧ s.AllLanded := by
    refine ⟨_, hs, not_stepUnder_of_rest hpoll hevents hblocked hitems rfl, ⟨?_, ?_⟩,
      ⟨by simp [hpoll], hpollRuns, hstarted, hhandleRuns⟩, ⟨fun _ => ⟨_, _, hposted⟩, hlanded⟩⟩
    · rintro ⟨head, hpopped, -⟩
      rw [hblocked] at hpopped
      cases hpopped
    · exact fun h => h.2.1 hqueue
  obtain h | h | h := (all_called_back (fun _ => oneByte) 0 s (by decide) (fun _ => by decide)
    hs).2 hrest hup hlanded
  · exact (hstalled.1 h).elim
  · exact (hstalled.2 h).elim
  · exact ⟨s, hrest, hup, hlanded, h⟩

end SparkRdma
