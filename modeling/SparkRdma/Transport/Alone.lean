import SparkRdma.Server.Transport

/-! # One transport alone

The machine `transport` is one `struct rdma_transport` with everything that ever works on it:
`rdma_create_connect`, `poll_thread`, `handle_thread`, the work items of the pool, the completions
that arrive, and the signals of a shut-down. Others it only knows by what they do to it: `is_ready`
is set, the pool is there or not, a signal is made pending.

* **`inFlight`** — the completions on their way from the queue to an event, oldest first.
* **`Shape`** — what the two threads rely on about the batch in hand and the arrays on their way.
* **`transportStep_spec`** — a step adds to what is in flight, takes up the oldest, or does
  neither.
* **`passed_on_in_order`** — so every completion is taken up once, and in order. -/

namespace SparkRdma

open Interleaving

/-- The steps of one transport. -/
inductive TransportAct (χ : Type)
  /-- A completion is added to its queue. -/
  | add (wc : Wc χ)
  /-- `rdma_create_connect` takes its next step. -/
  | create (answer : Answer)
  /-- `is_ready` is set. -/
  | ready
  /-- `poll_thread` takes its next step. -/
  | poll (answer : Answer)
  /-- `handle_thread` takes its next step, with the worker pool as it is then. -/
  | handle (pool : WorkThreadPool)
  /-- Its `pthread_cond_wait` returns without a signal. -/
  | spurious
  /-- The pool starts executing a work item. -/
  | startItem
  /-- The execution of `work_thread` at index `i` takes its next step. -/
  | worker (i : ℕ)
  /-- `poll_thread` is sent its signal. -/
  | killPoll
  /-- `handle_thread` is sent its signal. -/
  | killHandle
  /-- `poll_thread` acts on its signal. -/
  | quitPoll
  /-- `handle_thread` acts on its signal. -/
  | quitHandle
  deriving DecidableEq

variable {χ : Type} {mem : χ → RdmaChunk}

/-- One step of a transport. -/
def transportStep (mem : χ → RdmaChunk) (t : ServedTransport χ) :
    TransportAct χ → Option (Except CFault (ServedTransport χ))
  | .add wc =>
      if t.link.HasQp then some (.ok { t with link := { t.link with cq := t.link.cq.add wc } })
      else none
  | .create answer =>
      (t.link.createStep answer).map (Except.map fun link => { t with link := link })
  | .ready => some (.ok { t with isReady := true })
  | .poll answer => t.pollStep mem answer
  | .handle pool => t.handleStep mem pool
  | .spurious =>
      if t.link.handleStarted = true ∧ t.handleEnded = false then
        (handleQueueStep t.link.handover .spurious).map (Except.map fun handover =>
          { t with link := { t.link with handover := handover } })
      else none
  | .startItem =>
      if 0 < t.work.poolItems then some (.ok { t with work := t.work.startItem }) else none
  | .worker i => (t.work.workerStep mem i).map (Except.map fun work => { t with work := work })
  | .killPoll => some (.ok { t with pollSignal := t.link.poll.started })
  | .killHandle => some (.ok { t with handleSignal := t.link.handleStarted })
  | .quitPoll =>
      if t.pollSignal = true ∧ t.pollEnded = false then some (.ok { t with pollEnded := true })
      else none
  | .quitHandle =>
      if t.handleSignal = true ∧ t.handleEnded = false then
        some (.ok { t with handleEnded := true })
      else none

/-- A transport from its `calloc` on, with the chunks as in `mem`. -/
def transport (mem : χ → RdmaChunk) : Machine (ServedTransport χ) CFault (TransportAct χ) where
  init := .zeroed
  step := transportStep mem

/-! ### What is in flight -/

namespace ServedTransport

/-- The completions on their way to `handle_thread`'s events, oldest first. -/
def inFlight (t : ServedTransport χ) : List (Option (Wc χ)) := t.batchRest ++ t.link.stream

/-- The entry `handle_thread` takes up in its next step, if it takes one up. -/
def nextUp? (t : ServedTransport χ) : Option (Option (Wc χ)) :=
  match t.link.handover.handle, t.work.handler with
  | .events head, .idle => if t.index < head.len then some (head.data[t.index]?).join else none
  | _, _ => none

end ServedTransport

/-- The array in the hands of `handle_thread`. -/
def HandlePc.array? : HandlePc (WcArray χ) → Option (WcArray χ)
  | .pop head | .popped head | .events head => some head
  | _ => none

/-- The array in the hands of `poll_thread`. -/
def PollThreadPc.array? : PollThreadPc χ → Option (WcArray χ)
  | turn arr _ | recv arr _ _ | push arr => some arr
  | _ => none

/-- What the threads rely on about each other. -/
structure Shape (t : ServedTransport χ) : Prop where
  /-- The loop over a batch starts with the first entry. -/
  index : (∀ head, t.link.handover.handle ≠ .events head) → t.index = 0
  /-- The batch about to be popped is the oldest. -/
  seen : ∀ head, t.link.handover.handle = .pop head →
    ∃ rest, t.link.handover.handleQuque = head :: rest
  /-- Before `poll_thread` is started it does nothing. -/
  unstarted : ¬ t.link.create.PollStarted → t.link.poll = .notStarted
  /-- The array `handle_thread` works on has `len` entries. -/
  handled : ∀ arr ∈ t.link.handover.handle.array?, arr.entries.length = arr.len
  /-- Those queued have `len` entries. -/
  queued : ∀ arr ∈ t.link.handover.handleQuque, arr.entries.length = arr.len
  /-- The array `poll_thread` is working on has `len` entries. -/
  polled : ∀ arr ∈ t.link.poll.array?, arr.entries.length = arr.len

/-- What a step does to what is in flight. -/
inductive FlightEffect (t t' : ServedTransport χ) : TransportAct χ → Prop
  /-- A completion is added. -/
  | added (wc : Wc χ) (hflight : t'.inFlight = t.inFlight ++ [some wc]) :
      FlightEffect t t' (.add wc)
  /-- `handle_thread` takes up the oldest. -/
  | taken {pool : WorkThreadPool} (entry : Option (Wc χ)) (hentry : t.nextUp? = some entry)
      (hflight : t.inFlight = entry :: t'.inFlight) : FlightEffect t t' (.handle pool)
  /-- Nothing is added or taken up. -/
  | quiet {a : TransportAct χ} (hadd : ∀ wc, a ≠ .add wc)
      (hentry : ∀ pool, a = .handle pool → t.nextUp? = none)
      (hflight : t'.inFlight = t.inFlight) : FlightEffect t t' a

/-! ### The steps of the threads -/

/-- An array that `ibv_poll_cq` has filled has `len` entries. -/
theorem WcArray.length_entries_fill (arr : WcArray χ) (polled : List (Wc χ)) :
    (arr.fill polled).entries.length = (arr.fill polled).len := by
  rw [WcArray.entries_fill, List.length_map]
  rfl

/-- A step of `poll_thread` pushes the array it has, and has no other than the one it had and one it
has just filled. -/
theorem pollStep_arrays {s s' : LinkState χ} {answer : Answer}
    (hstep : s.pollStep mem answer = some (.ok s')) :
    (∀ arr ∈ s'.poll.array?, arr ∈ s.poll.array? ∨ arr.entries.length = arr.len) ∧
      ∀ arr ∈ s'.handover.handleQuque, arr ∈ s.handover.handleQuque ∨ arr ∈ s.poll.array? := by
  have hnone : ∀ {poll : PollThreadPc χ}, poll.array? = none →
      ∀ arr ∈ poll.array?, arr ∈ s.poll.array? ∨ arr.entries.length = arr.len := by
    intro poll hpoll arr harr
    rw [hpoll] at harr
    cases harr
  unfold LinkState.pollStep at hstep
  split at hstep
  · cases hstep
    exact ⟨hnone rfl, fun _ => .inl⟩
  · split at hstep
    · cases hstep
    · split at hstep <;> cases hstep
      exact ⟨hnone rfl, fun _ => .inl⟩
  · cases hstep
    exact ⟨hnone rfl, fun _ => .inl⟩
  · split at hstep <;> cases hstep
    exact ⟨hnone rfl, fun _ => .inl⟩
  · split at hstep <;> cases hstep
    exact ⟨hnone rfl, fun _ => .inl⟩
  · split at hstep
    · cases hstep
    · split at hstep
      · split at hstep <;> cases hstep
        exact ⟨hnone rfl, fun _ => .inl⟩
      · -- a new array, filled
        split at hstep <;> cases hstep
        refine ⟨fun arr harr => .inr ?_, fun _ => .inl⟩
        obtain rfl := Option.some.inj harr
        exact WcArray.length_entries_fill ..
  · rename_i arr i hpoll
    rw [hpoll]
    split at hstep <;> cases hstep
    · refine ⟨fun arr' harr => .inl ?_, fun _ => .inl⟩
      revert harr
      split <;> exact id
    · exact ⟨fun _ => .inl, fun _ => .inl⟩
  · rename_i arr i pc answer hpoll
    rw [hpoll]
    obtain ⟨next, -, rfl⟩ := map_map_eq_ok.mp hstep
    refine ⟨fun arr' harr => .inl ?_, fun _ => .inl⟩
    cases next <;> exact harr
  · -- the array goes from the hand to the queue
    rename_i arr hpoll
    cases hstep
    refine ⟨hnone rfl, fun arr' harr => ?_⟩
    rw [hpoll]
    obtain harr | harr := List.mem_append.mp harr
    · exact .inl harr
    · exact .inr (List.mem_singleton.mp harr ▸ rfl)
  · cases hstep
    refine ⟨hnone rfl, fun arr' harr => .inl ?_⟩
    rwa [HandleState.handleQuque_signalSection] at harr
  · cases hstep

namespace ServedTransport

variable {t t' : ServedTransport χ}

/-- What the hand-over has been fed since leaves the batch in hand as it is. -/
theorem batchRest_of_fed {link : LinkState χ} (hfed : t.link.handover.Fed link.handover) :
    ({ t with link := link } : ServedTransport χ).batchRest = t.batchRest := by
  simp only [batchRest]
  obtain heq | ⟨hblocked, hwoken⟩ := hfed.2
  · rw [heq]
  · rw [hblocked, hwoken]

/-- Outside its loop over a batch `handle_thread` takes up nothing. -/
theorem nextUp?_of_not_events (hnot : ∀ head, t.link.handover.handle ≠ .events head) :
    t.nextUp? = none := by
  unfold nextUp?
  split
  · exact (hnot _ ‹_›).elim
  · rfl

end ServedTransport

namespace Shape

variable {t t' : ServedTransport χ} {answer : Answer}

/-- A zeroed transport. -/
theorem zeroed : Shape (.zeroed : ServedTransport χ) where
  index _ := rfl
  seen := by rintro _ ⟨⟩
  unstarted _ := rfl
  handled := by rintro _ ⟨⟩
  queued := by rintro _ ⟨⟩
  polled := by rintro _ ⟨⟩

/-- What neither the link nor `index` tells does not matter. -/
theorem congr (h : Shape t) (hlink : t'.link = t.link) (hindex : t'.index = t.index) :
    Shape t' where
  index := by rw [hlink, hindex]; exact h.index
  seen := by rw [hlink]; exact h.seen
  unstarted := by rw [hlink]; exact h.unstarted
  handled := by rw [hlink]; exact h.handled
  queued := by rw [hlink]; exact h.queued
  polled := by rw [hlink]; exact h.polled

/-- Steps of others than `handle_thread`. -/
theorem of_link (h : Shape t) {link : LinkState χ} (hfed : t.link.handover.Fed link.handover)
    (hunstarted : ¬ link.create.PollStarted → link.poll = .notStarted)
    (hpolled : ∀ arr ∈ link.poll.array?, arr ∈ t.link.poll.array? ∨ arr.entries.length = arr.len)
    (hqueued : ∀ arr ∈ link.handover.handleQuque,
      arr ∈ t.link.handover.handleQuque ∨ arr ∈ t.link.poll.array?) :
    Shape { t with link := link } where
  index hnot := by
    obtain heq | ⟨hblocked, -⟩ := hfed.2
    · exact h.index fun head => heq ▸ hnot head
    · exact h.index (by simp [hblocked])
  seen head hpop := by
    obtain ⟨more, hqueue⟩ := hfed.1
    obtain heq | ⟨-, hwoken⟩ := hfed.2
    · obtain ⟨rest, hrest⟩ := h.seen head (heq ▸ hpop)
      exact ⟨rest ++ more, by rw [hqueue, hrest, List.cons_append]⟩
    · rw [show link.handover.handle = .woken from hwoken] at hpop
      cases hpop
  unstarted := hunstarted
  handled := by
    obtain heq | ⟨-, hwoken⟩ := hfed.2
    · exact fun arr harr => h.handled arr (heq ▸ harr)
    · rintro arr harr
      rw [show link.handover.handle = .woken from hwoken] at harr
      cases harr
  queued arr harr := (hqueued arr harr).elim (h.queued arr) (h.polled arr)
  polled arr harr := (hpolled arr harr).elim (h.polled arr) id

/-- A step of `handle_thread` outside its loop over a batch, or at the end of it. -/
theorem of_handover (h : Shape t) {handover : HandleState (WcArray χ)}
    (hseen : ∀ head, handover.handle = .pop head → ∃ rest, handover.handleQuque = head :: rest)
    (hhandled : ∀ arr ∈ handover.handle.array?,
      arr ∈ t.link.handover.handle.array? ∨ arr ∈ t.link.handover.handleQuque)
    (hqueued : ∀ arr ∈ handover.handleQuque, arr ∈ t.link.handover.handleQuque) :
    Shape { t with link := { t.link with handover := handover }, index := 0 } where
  index _ := rfl
  seen := hseen
  unstarted := h.unstarted
  handled arr harr := (hhandled arr harr).elim (h.handled arr) (h.queued arr)
  queued arr harr := h.queued arr (hqueued arr harr)
  polled := h.polled

end Shape

/-- A step of others than `handle_thread` that only adds to what is in flight. -/
theorem ServedTransport.inFlight_of_link (t : ServedTransport χ) (link : LinkState χ)
    (hfed : t.link.handover.Fed link.handover) {more : List (Option (Wc χ))}
    (hstream : link.stream = t.link.stream ++ more) :
    ({ t with link := link } : ServedTransport χ).inFlight = t.inFlight ++ more := by
  rw [inFlight, batchRest_of_fed hfed, inFlight, List.append_assoc, ← hstream]

/-- What a step does to what is in flight, and that the transport keeps its shape. -/
def Passes (t t' : ServedTransport χ) (a : TransportAct χ) : Prop :=
  FlightEffect t t' a ∧ Shape t'

namespace Shape

variable {t t' : ServedTransport χ} {answer : Answer}

/-- A completion is added. -/
theorem add (h : Shape t) (wc : Wc χ) :
    Passes t { t with link := { t.link with cq := t.link.cq.add wc } } (.add wc) := by
  refine ⟨.added wc (t.inFlight_of_link { t.link with cq := t.link.cq.add wc } (.refl _) ?_),
    h.of_link (.refl _) h.unstarted (fun _ => .inl) fun _ => .inl⟩
  show _ ++ _ ++ (t.link.cq.items ++ [wc]).map some = _
  rw [List.map_append, LinkState.stream, List.map_singleton, List.append_assoc _ _ [some wc]]

/-- `rdma_create_connect` takes a step. -/
theorem createStep (h : Shape t) {link : LinkState χ}
    (hstep : t.link.createStep answer = some (.ok link)) :
    Passes t { t with link := link } (.create answer) := by
  obtain ⟨hhandover, hitems, hpoll, hunstarted⟩ := createStep_spec hstep
  have harray : link.poll.inHand = t.link.poll.inHand ∧
      ∀ arr ∈ link.poll.array?, arr ∈ t.link.poll.array? := by
    obtain heq | ⟨hcreate, hstart⟩ := hpoll
    · rw [heq]
      exact ⟨rfl, fun _ => id⟩
    · -- `poll_thread` is started with nothing in hand
      rw [hstart, h.unstarted (by rw [hcreate]; exact not_false)]
      exact ⟨rfl, fun _ => id⟩
  have hstream : link.stream = t.link.stream ++ [] := by
    rw [LinkState.stream, hhandover, harray.1, hitems, List.append_nil, LinkState.stream]
  have hflight := t.inFlight_of_link link (hhandover ▸ .refl _) hstream
  refine ⟨.quiet (by simp) (by simp) (hflight.trans (List.append_nil _)),
    h.of_link (hhandover ▸ .refl _) (fun hnot => ?_) (fun arr harr => .inl (harray.2 arr harr))
      fun arr harr => .inl (hhandover ▸ harr)⟩
  obtain ⟨hold, heq⟩ := hunstarted hnot
  rw [heq, h.unstarted hold]

/-- `poll_thread` takes a step. -/
theorem pollStep (h : Shape t) (hstep : t.pollStep mem answer = some (.ok t')) :
    Passes t t' (.poll answer) := by
  unfold ServedTransport.pollStep at hstep
  split at hstep
  · obtain ⟨link, hlink, rfl⟩ := map_map_eq_ok.mp hstep
    obtain ⟨heffect, hrunning, hcreate, -⟩ := pollStep_spec hlink
    obtain ⟨hpolled, hqueued⟩ := pollStep_arrays hlink
    have hstream : link.stream = t.link.stream ++ [] := by rw [heffect.stream_eq, List.append_nil]
    have hflight := t.inFlight_of_link link heffect.fed hstream
    exact ⟨.quiet (by simp) (by simp) (hflight.trans (List.append_nil _)),
      h.of_link heffect.fed (fun hnot => (hrunning (h.unstarted (hcreate ▸ hnot))).elim) hpolled
        hqueued⟩
  · cases hstep

/-- `pthread_cond_wait` returns without a signal. -/
theorem spurious (h : Shape t) {handover : HandleState (WcArray χ)}
    (hstep : handleQueueStep t.link.handover .spurious = some (.ok handover)) :
    Passes t { t with link := { t.link with handover := handover } } .spurious := by
  simp only [handleQueueStep] at hstep
  split at hstep <;> cases hstep
  rename_i hblocked
  have hfed : t.link.handover.Fed { t.link.handover with handle := .woken } :=
    ⟨⟨[], (List.append_nil _).symm⟩, .inr ⟨hblocked, rfl⟩⟩
  have hflight := t.inFlight_of_link
    { t.link with handover := { t.link.handover with handle := .woken } } hfed
    (List.append_nil _).symm
  exact ⟨.quiet (by simp) (by simp) (hflight.trans (List.append_nil _)),
    h.of_link hfed h.unstarted (fun _ => .inl) fun _ => .inl⟩

end Shape

/-! ### The steps of `handle_thread` -/

namespace ServedTransport

variable {t t' : ServedTransport χ} {pool : WorkThreadPool}

/-- The end of a section of an event only writes the work queue. -/
theorem endSection_ok {work : WorkState χ} (h : t.endSection pool work = .ok t') :
    ∃ work', t' = { t with work := work' } := by
  unfold endSection at h
  split at h
  · cases h
    exact ⟨_, rfl⟩
  · cases h
    exact ⟨_, rfl⟩
  · cases h
    exact ⟨_, rfl⟩
  · split at h <;> cases h
    exact ⟨_, rfl⟩

/-- Inside its loop over a batch `handle_thread` takes up the next entry, which is the completion of
a send or a receive that has succeeded; goes on with the event it is in; or is through. -/
theorem eventStep_cases {head : WcArray χ} (hhandle : t.link.handover.handle = .events head)
    (hstep : t.eventStep mem pool head = some (.ok t')) :
    (∃ wc work, t.work.handler = .idle ∧ t.index < head.len ∧
        (head.data[t.index]?).join = some wc ∧ wc.success = true ∧
        (wc.opcode = .send ∧ work = t.work ∨
          wc.opcode = .recv ∧ t.work.lookupSection mem wc.byteLen wc.chunk = .ok work) ∧
        t' = { t with work := work, index := t.index + 1 }) ∨
      (t.work.handler = .idle ∧ head.len ≤ t.index ∧ t' = { t with
        link := { t.link with handover := { t.link.handover with handle := .peek } }
        index := 0 }) ∨
      ∃ work, t.work.handler ≠ .idle ∧ t.work.handlerStep mem = some (.ok work) ∧
        t.endSection pool work = .ok t' := by
  unfold eventStep at hstep
  split at hstep
  · rename_i hidle
    split at hstep
    · rename_i hindex
      split at hstep
      · cases hstep
      · rename_i wc hentry
        split at hstep
        · cases hstep
        · rename_i hsuccess
          split at hstep
          · rename_i hopcode
            cases hstep
            exact .inl ⟨wc, t.work, hidle, hindex, hentry, by simpa using hsuccess,
              .inl ⟨hopcode, rfl⟩, rfl⟩
          · rename_i hopcode
            cases hlookup : t.work.lookupSection mem wc.byteLen wc.chunk with
            | error e =>
              rw [hlookup] at hstep
              cases hstep
            | ok work =>
              rw [hlookup] at hstep
              cases hstep
              exact .inl ⟨wc, work, hidle, hindex, hentry, by simpa using hsuccess,
                .inr ⟨hopcode, hlookup⟩, rfl⟩
          · cases hstep
    · rename_i hindex
      rw [HandleState.handleStep, hhandle] at hstep
      cases hstep
      exact .inr (.inl ⟨hidle, not_lt.mp hindex, rfl⟩)
  · rename_i hbusy
    obtain ⟨work, hwork, hend⟩ := map_bind_eq_ok.mp hstep
    exact .inr (.inr ⟨work, hbusy, hwork, hend⟩)

end ServedTransport

namespace Shape

variable {t t' : ServedTransport χ} {pool : WorkThreadPool}

/-- `handle_thread` takes a step of its loop over a batch. -/
theorem eventStep (h : Shape t) {head : WcArray χ} (hhandle : t.link.handover.handle = .events head)
    (hstep : t.eventStep mem pool head = some (.ok t')) : Passes t t' (.handle pool) := by
  have hrest : ∀ (work : WorkState χ) i, ({ t with work := work, index := i } :
      ServedTransport χ).inFlight = head.entries.drop i ++ t.link.stream := by
    intro work i
    simp only [ServedTransport.inFlight, ServedTransport.batchRest, hhandle]
  have hshape : ∀ (work : WorkState χ) i, Shape { t with work := work, index := i } := by
    exact fun work i => { h with index := fun hnot => (hnot head hhandle).elim }
  obtain ⟨wc, work, hidle, hindex, hentry, -, -, rfl⟩ | ⟨hidle, hindex, rfl⟩ |
    ⟨work, hbusy, hwork, hend⟩ := ServedTransport.eventStep_cases hhandle hstep
  · refine ⟨.taken (some wc) ?_ ?_, hshape work _⟩
    · simp only [ServedTransport.nextUp?, hhandle, hidle, if_pos hindex, hentry]
    · rw [hrest work, ← List.cons_append, ← WcArray.drop_entries hindex hentry]
      exact hrest t.work t.index
  · -- the batch is through
    refine ⟨.quiet (by simp) (fun _ _ => ?_) ?_,
      h.of_handover (by simp) (by simp [HandlePc.array?]) fun _ => id⟩
    · simp only [ServedTransport.nextUp?, hhandle, hidle, if_neg (not_lt.mpr hindex)]
    · rw [show t.inFlight = head.entries.drop t.index ++ t.link.stream from hrest t.work t.index,
        WcArray.drop_entries_of_le hindex]
      rfl
  · obtain ⟨work', rfl⟩ := ServedTransport.endSection_ok hend
    have hflight := (hrest work' t.index).trans (hrest t.work t.index).symm
    refine ⟨.quiet (by simp) (fun _ _ => ?_) hflight, hshape work' t.index⟩
    unfold ServedTransport.nextUp?
    split
    · exact (hbusy ‹_›).elim
    · rfl

/-- `handle_thread` takes a step. -/
theorem handleStep (h : Shape t) (hstep : t.handleStep mem pool = some (.ok t')) :
    Passes t t' (.handle pool) := by
  unfold ServedTransport.handleStep at hstep
  split at hstep
  swap
  · cases hstep
  split at hstep
  · exact h.eventStep ‹_› hstep
  rename_i hnot
  have hindex := h.index fun head => hnot head
  have hentry := ServedTransport.nextUp?_of_not_events fun head => hnot head
  -- a step that takes nothing away
  have hquiet : ∀ handover : HandleState (WcArray χ),
      ({ t with link := { t.link with handover := handover } } : ServedTransport χ).inFlight
        = t.inFlight →
      (∀ head, handover.handle = .pop head → ∃ rest, handover.handleQuque = head :: rest) →
      (∀ arr ∈ handover.handle.array?,
        arr ∈ t.link.handover.handle.array? ∨ arr ∈ t.link.handover.handleQuque) →
      (∀ arr ∈ handover.handleQuque, arr ∈ t.link.handover.handleQuque) →
      Passes t { t with link := { t.link with handover := handover } } (.handle pool) := by
    intro handover hflight hseen hhandled hqueued
    exact ⟨.quiet (by simp) (fun _ _ => hentry) hflight,
      (h.of_handover hseen hhandled hqueued).congr rfl hindex⟩
  obtain ⟨handover, hhandover, rfl⟩ := map_map_eq_ok.mp hstep
  unfold HandleState.handleStep at hhandover
  split at hhandover
  · rename_i hpeek
    split at hhandover
    · cases hhandover
      refine hquiet _ ?_ (by simp) (by simp [HandlePc.array?]) fun _ => id
      simp [ServedTransport.inFlight, ServedTransport.batchRest, LinkState.stream, hpeek]
    · -- the batch seen is the oldest
      rename_i head rest hqueue
      cases hhandover
      refine hquiet _ ?_ ?_ ?_ fun _ => id
      · simp [ServedTransport.inFlight, ServedTransport.batchRest, LinkState.stream, hpeek]
      · rintro _ ⟨⟩
        exact ⟨rest, hqueue⟩
      · rintro arr ⟨⟩
        exact .inr (by simp [hqueue])
  · rename_i hsleep
    cases hhandover
    refine hquiet _ ?_ (by simp) (by simp [HandlePc.array?]) fun _ => id
    simp [ServedTransport.inFlight, ServedTransport.batchRest, LinkState.stream, hsleep]
  · cases hhandover
  · rename_i hwoken
    cases hhandover
    refine hquiet _ ?_ (by simp) (by simp [HandlePc.array?]) fun _ => id
    simp [ServedTransport.inFlight, ServedTransport.batchRest, LinkState.stream, hwoken]
  · -- it comes from the queue into the hand
    rename_i head hpop
    cases hhandover
    obtain ⟨rest, hqueue⟩ := h.seen head hpop
    refine hquiet _ ?_ (by simp) ?_ fun arr harr => List.mem_of_mem_tail harr
    · simp [ServedTransport.inFlight, ServedTransport.batchRest, LinkState.stream, hpop, hqueue]
    · exact fun arr harr => .inl (by rw [hpop]; exact harr)
  · rename_i head hpopped
    split at hhandover <;> cases hhandover
    refine hquiet _ ?_ (by simp) ?_ fun _ => id
    · simp [ServedTransport.inFlight, ServedTransport.batchRest, LinkState.stream, hpopped, hindex]
    · exact fun arr harr => .inl (by rw [hpopped]; exact harr)
  · rename_i head hevents
    exact (hnot head hevents).elim

end Shape

/-- **What a step of a transport does** to what is in flight, and that it keeps the shape. -/
theorem transportStep_spec {t t' : ServedTransport χ} {a : TransportAct χ} (h : Shape t)
    (hstep : transportStep mem t a = some (.ok t')) : Passes t t' a := by
  cases a with
  | add wc =>
    simp only [transportStep] at hstep
    split at hstep <;> cases hstep
    exact h.add wc
  | create answer =>
    obtain ⟨link, hlink, rfl⟩ := map_map_eq_ok.mp hstep
    exact h.createStep hlink
  | poll answer => exact h.pollStep hstep
  | handle pool => exact h.handleStep hstep
  | spurious =>
    simp only [transportStep] at hstep
    split at hstep
    · obtain ⟨handover, hhandover, rfl⟩ := map_map_eq_ok.mp hstep
      exact h.spurious hhandover
    · cases hstep
  | worker i =>
    obtain ⟨work, -, rfl⟩ := map_map_eq_ok.mp hstep
    exact ⟨.quiet (by simp) (by simp) rfl, h.congr rfl rfl⟩
  | ready | killPoll | killHandle =>
    cases hstep
    exact ⟨.quiet (by simp) (by simp) rfl, h.congr rfl rfl⟩
  | startItem | quitPoll | quitHandle =>
    simp only [transportStep] at hstep
    split at hstep <;> cases hstep
    exact ⟨.quiet (by simp) (by simp) rfl, h.congr rfl rfl⟩

/-! ### Exactly once, in order -/

/-- What was seen of a transport. -/
structure FlightHistory (χ : Type) where
  /-- The completions added to its queue. -/
  added : List (Wc χ)
  /-- The entries `handle_thread` has taken up. -/
  taken : List (Option (Wc χ))
  deriving DecidableEq

/-- What a step adds to the history. -/
def noteFlight (t : ServedTransport χ) (a : TransportAct χ) (h : FlightHistory χ) :
    FlightHistory χ :=
  match a with
  | .add wc => { h with added := h.added ++ [wc] }
  | .handle _ => { h with taken := h.taken ++ t.nextUp?.toList }
  | _ => h

/-- A transport with its history. -/
def observedTransport (mem : χ → RdmaChunk) :
    Machine (ServedTransport χ × FlightHistory χ) CFault (TransportAct χ) :=
  (transport mem).recording ⟨[], []⟩ noteFlight

/-- Every completion added is taken up once, in order, or still in flight; what is taken up next is
one of them. -/
structure PassedOn (t : ServedTransport χ) (h : FlightHistory χ) : Prop where
  /-- Nothing is lost, duplicated or overtaken. -/
  inOrder : h.added.map some = h.taken ++ t.inFlight
  /-- `handle_thread` reads no entry of an array behind those that were polled. -/
  polled : ∀ entry ∈ t.nextUp?, ∃ wc ∈ h.added, entry = some wc

/-- What is taken up next is the oldest in flight. -/
theorem Shape.inFlight_of_nextUp? {t : ServedTransport χ} (h : Shape t)
    {entry : Option (Wc χ)} (hentry : t.nextUp? = some entry) :
    ∃ rest, t.inFlight = entry :: rest := by
  unfold ServedTransport.nextUp? at hentry
  split at hentry
  · rename_i head hhandle hidle
    split at hentry <;> cases hentry
    rename_i hindex
    have hlength := h.handled head (by rw [hhandle]; rfl)
    obtain ⟨hlt, hget⟩ : ∃ hlt : t.index < head.entries.length,
        (head.data[t.index]?).join = head.entries[t.index] := by
      refine ⟨hlength.symm ▸ hindex, ?_⟩
      have hentries : head.data[t.index]? = head.entries[t.index]? := by
        rw [WcArray.entries, List.getElem?_take_of_lt hindex]
      rw [hentries, List.getElem?_eq_getElem (hlength.symm ▸ hindex)]
      rfl
    refine ⟨head.entries.drop (t.index + 1) ++ t.link.stream, ?_⟩
    simp only [ServedTransport.inFlight, ServedTransport.batchRest, hhandle]
    rw [List.drop_eq_getElem_cons hlt, ← hget, List.cons_append]
  · cases hentry

/-- **Every completion is passed on exactly once, in order.** Whatever the pool, the signals of a
shut-down and the spurious returns of `pthread_cond_wait`: what was added to the completion queue is
what `handle_thread` has taken up, followed by what is in the batch it works on, in the batches
queued, in the array of `poll_thread` and in the queue, and no array is read behind the entries that
were polled. -/
theorem passed_on_in_order {t : ServedTransport χ} {h : FlightHistory χ}
    (ht : (observedTransport mem).Reachable (t, h)) : PassedOn t h := by
  have hinv : ∀ s : ServedTransport χ × FlightHistory χ, (observedTransport mem).Reachable s →
      Shape s.1 ∧ s.2.added.map some = s.2.taken ++ s.1.inFlight := by
    intro s hs
    induction hs with
    | init => exact ⟨.zeroed, rfl⟩
    | @next s s' a _ _ hstep ih =>
      obtain ⟨hshape, horder⟩ := ih
      obtain ⟨t', ht', rfl⟩ := map_map_eq_ok.mp hstep
      obtain ⟨heffect, hshape'⟩ := transportStep_spec hshape ht'
      refine ⟨hshape', ?_⟩
      cases heffect with
      | added wc hflight =>
        show (s.2.added ++ [wc]).map some = s.2.taken ++ t'.inFlight
        rw [hflight, List.map_append, horder, List.append_assoc]
        rfl
      | taken entry hentry hflight =>
        show s.2.added.map some = s.2.taken ++ s.1.nextUp?.toList ++ t'.inFlight
        rw [horder, hflight, hentry, List.append_assoc]
        rfl
      | quiet hadd hentry hflight =>
        cases a with
        | add wc => exact (hadd wc rfl).elim
        | handle pool =>
          show s.2.added.map some = s.2.taken ++ s.1.nextUp?.toList ++ t'.inFlight
          rw [hentry pool rfl, hflight, horder]
          simp
        | _ => exact horder.trans (by rw [hflight]; rfl)
  obtain ⟨hshape, horder⟩ := hinv _ ht
  refine ⟨horder, fun entry hentry => ?_⟩
  obtain ⟨rest, hflight⟩ := hshape.inFlight_of_nextUp? hentry
  rw [hflight] at horder
  have hmem : entry ∈ h.added.map some := by rw [horder]; simp
  obtain ⟨wc, hwc, rfl⟩ := List.mem_map.mp hmem
  exact ⟨wc, hwc, rfl⟩

/-- A send completes, `poll_thread` wakes `handle_thread`, which takes the completion up. -/
theorem passed_on_in_order_oneSend :
    ∃ (t : ServedTransport Unit) (h : FlightHistory Unit), h.taken.length = 1 ∧ PassedOn t h := by
  let wc : Wc Unit := ⟨(), true, .send, 0⟩
  let arr : WcArray Unit := (WcArray.malloc0 Unit).fill [wc]
  have hs : (observedTransport fun _ : Unit => RdmaChunk.blank).Reachable
      ({ (.zeroed : ServedTransport Unit) with
          link := ⟨⟨[], true, 0, 0⟩, .modifyInit, .alloc, true, ⟨[], 1, .polling, .events arr⟩⟩
          index := 1 }, ⟨[wc], [some wc]⟩) := by
    -- up to the queue pair; `handle_thread` blocks; one round of `poll_thread`; the batch
    refine Machine.reachableUnder_of_exec
      [.create .pending, .create (.pointer true), .create (.pointer true), .create (.ret 0),
        .create (.ret 0), .create (.ret 0), .create (.pointer true), .add wc, .handle .running,
        .handle .running, .poll .pending, .poll (.ret 0), .poll .pending, .poll (.ret 0),
        .poll (.pointer true), .poll (.ret 1), .poll .pending, .poll .pending, .poll .pending,
        .poll .pending, .handle .running, .handle .running, .handle .running, .handle .running,
        .handle .running] .init ?_
    rfl
  exact ⟨_, _, rfl, passed_on_in_order hs⟩

end SparkRdma
