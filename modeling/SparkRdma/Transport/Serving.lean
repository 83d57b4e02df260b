import Mathlib.Data.DFinsupp.WellFounded
import SparkRdma.Transport.Cluster

/-! # The whole server comes to rest

`all_called_back` is about the threads of one transport that is up. Here the whole server is left to
itself, from any moment of its life before it is destroyed: `init_server`, `accept_thread` with the
connections that wait, and the threads of all connections take their steps, in every order.

* **`ServingInv`** — what holds of a server that goes on.
* **`serving`** — what it has left to do, which each of its steps brings down.
* **`server_at_rest`** — so it comes to rest, where it listens, has connected every host that asked
  for it, and has called back all that has landed. -/

namespace SparkRdma

open Interleaving

variable {P χ : Type} {mem : χ → RdmaChunk}

/-! ### A transport of a server that goes on -/

/-- No thread of the transport was told to leave, and those that `rdma_create_connect` should have
started run. -/
structure ServedTransport.Serves (t : ServedTransport χ) : Prop where
  /-- No signal is pending for `poll_thread`. -/
  pollSignal : t.pollSignal = false
  /-- It has not left. -/
  pollRuns : t.pollEnded = false
  /-- No signal is pending for `handle_thread`. -/
  handleSignal : t.handleSignal = false
  /-- It has not left. -/
  handleRuns : t.handleEnded = false
  /-- `poll_thread` was started. -/
  pollStarted : t.link.create.PollStarted → t.link.poll ≠ .notStarted
  /-- `handle_thread` was started. -/
  handleStarted : t.link.create.HandleTried → t.link.handleStarted = true

/-- A call of `accept_thread` comes back as it should, if it does. -/
def Answer.Serves (answer : Answer) : Prop := answer = .pending ∨ answer.Succeeds

instance : ∀ answer : Answer, Decidable answer.Serves
  | .pending => .isTrue (.inl rfl)
  | .ret r => decidable_of_iff (r = 0) ⟨.inr, fun h => h.resolve_left (by simp)⟩
  | .pointer notNull => decidable_of_iff (notNull = true)
      ⟨.inr, fun h => h.resolve_left (by simp)⟩

namespace ServedTransport.Serves

variable {t t' : ServedTransport χ}

/-- `rdma_create_connect` takes a step. -/
theorem createStep {answer : Answer} {link : LinkState χ} (h : t.Serves) (hserves : answer.Serves)
    (hstep : t.link.createStep answer = some (.ok link)) : { t with link := link }.Serves := by
  have hret : ∀ r, answer = .ret r → r = 0 := by
    rintro r rfl
    exact hserves.resolve_left (by simp)
  -- the two threads are started
  have hthreads : (link.create.PollStarted → link.poll ≠ .notStarted) ∧
      (link.create.HandleTried → link.handleStarted = true) := by
    unfold LinkState.createStep at hstep
    split at hstep
    case h_5 r _ =>
      split at hstep <;> cases hstep
      rw [if_pos (hret r rfl)]
      exact ⟨fun _ => by simp, False.elim⟩
    case h_6 r hcreate =>
      split at hstep <;> cases hstep
      exact ⟨fun _ => h.pollStarted (by rw [hcreate]; trivial),
        fun _ => decide_eq_true (hret r rfl)⟩
    case h_7 hcreate | h_8 hcreate =>
      split at hstep <;> cases hstep
      exact ⟨fun _ => h.pollStarted (by rw [hcreate]; trivial),
        fun _ => h.handleStarted (by rw [hcreate]; trivial)⟩
    case h_9 hcreate =>
      obtain ⟨next, -, rfl⟩ := map_map_eq_ok.mp hstep
      exact ⟨fun _ => h.pollStarted (by rw [hcreate]; trivial),
        fun _ => h.handleStarted (by rw [hcreate]; trivial)⟩
    case h_10 => cases hstep
    case h_1 =>
      cases hstep
      exact ⟨False.elim, False.elim⟩
    all_goals
      split at hstep <;> cases hstep
      exact ⟨False.elim, False.elim⟩
  exact ⟨h.pollSignal, h.pollRuns, h.handleSignal, h.handleRuns, hthreads.1, hthreads.2⟩

/-- A step that moves neither `rdma_create_connect` nor the signals. -/
theorem of_link (h : t.Serves) (hcreate : t'.link.create = t.link.create)
    (hpoll : t'.link.poll = t.link.poll ∨ t'.link.poll ≠ .notStarted)
    (hhandle : t'.link.handleStarted = t.link.handleStarted)
    (hsignals : t'.pollSignal = t.pollSignal ∧ t'.pollEnded = t.pollEnded ∧
      t'.handleSignal = t.handleSignal ∧ t'.handleEnded = t.handleEnded) : t'.Serves where
  pollSignal := hsignals.1.trans h.pollSignal
  pollRuns := hsignals.2.1.trans h.pollRuns
  handleSignal := hsignals.2.2.1.trans h.handleSignal
  handleRuns := hsignals.2.2.2.trans h.handleRuns
  pollStarted hstarted := by
    obtain heq | hne := hpoll
    · exact heq ▸ h.pollStarted (hcreate ▸ hstarted)
    · exact hne
  handleStarted htried := hhandle.trans (h.handleStarted (hcreate ▸ htried))

end ServedTransport.Serves

namespace ServedTransport.Serves

variable {t t' : ServedTransport χ} {a : TransportAct χ}

/-- **A step of a transport** keeps it, unless the step is one of shutting it down; only
`rdma_create_connect` moves on itself, and only `accept_thread` sets `is_ready`. -/
theorem step (h : t.Serves) (hkill : a ≠ .killPoll ∧ a ≠ .killHandle)
    (hserves : ∀ answer, a = .create answer → answer.Serves)
    (hstep : transportStep mem t a = some (.ok t')) :
    t'.Serves ∧ (t'.link.create = t.link.create ∨ ∃ answer, a = .create answer) ∧
      (t'.isReady = t.isReady ∨ a = .ready) := by
  cases a with
  | add wc =>
    simp only [transportStep] at hstep
    split at hstep <;> cases hstep
    exact ⟨h.of_link rfl (.inl rfl) rfl ⟨rfl, rfl, rfl, rfl⟩, .inl rfl, .inl rfl⟩
  | create answer =>
    obtain ⟨link, hlink, rfl⟩ := map_map_eq_ok.mp hstep
    exact ⟨h.createStep (hserves answer rfl) hlink, .inr ⟨answer, rfl⟩, .inl rfl⟩
  | poll answer =>
    simp only [transportStep, ServedTransport.pollStep] at hstep
    split at hstep
    · obtain ⟨link, hlink, rfl⟩ := map_map_eq_ok.mp hstep
      obtain ⟨hcreate, hhandle, hpoll⟩ := pollStep_frame hlink
      exact ⟨h.of_link hcreate (.inr hpoll) hhandle ⟨rfl, rfl, rfl, rfl⟩, .inl hcreate, .inl rfl⟩
    · cases hstep
  | handle pool =>
    simp only [transportStep, ServedTransport.handleStep] at hstep
    split at hstep
    · split at hstep
      · obtain ⟨wc, work, -, -, -, -, -, rfl⟩ | ⟨-, -, rfl⟩ | ⟨work, -, -, hend⟩ :=
          ServedTransport.eventStep_cases ‹_› hstep
        · exact ⟨h.of_link rfl (.inl rfl) rfl ⟨rfl, rfl, rfl, rfl⟩, .inl rfl, .inl rfl⟩
        · exact ⟨h.of_link rfl (.inl rfl) rfl ⟨rfl, rfl, rfl, rfl⟩, .inl rfl, .inl rfl⟩
        · obtain ⟨work', rfl⟩ := ServedTransport.endSection_ok hend
          exact ⟨h.of_link rfl (.inl rfl) rfl ⟨rfl, rfl, rfl, rfl⟩, .inl rfl, .inl rfl⟩
      · obtain ⟨handover, -, rfl⟩ := map_map_eq_ok.mp hstep
        exact ⟨h.of_link rfl (.inl rfl) rfl ⟨rfl, rfl, rfl, rfl⟩, .inl rfl, .inl rfl⟩
    · cases hstep
  | spurious =>
    simp only [transportStep] at hstep
    split at hstep
    · obtain ⟨handover, -, rfl⟩ := map_map_eq_ok.mp hstep
      exact ⟨h.of_link rfl (.inl rfl) rfl ⟨rfl, rfl, rfl, rfl⟩, .inl rfl, .inl rfl⟩
    · cases hstep
  | startItem =>
    simp only [transportStep] at hstep
    split at hstep <;> cases hstep
    exact ⟨h.of_link rfl (.inl rfl) rfl ⟨rfl, rfl, rfl, rfl⟩, .inl rfl, .inl rfl⟩
  | worker i =>
    obtain ⟨work, -, rfl⟩ := map_map_eq_ok.mp hstep
    exact ⟨h.of_link rfl (.inl rfl) rfl ⟨rfl, rfl, rfl, rfl⟩, .inl rfl, .inl rfl⟩
  | ready =>
    cases hstep
    exact ⟨h.of_link rfl (.inl rfl) rfl ⟨rfl, rfl, rfl, rfl⟩, .inl rfl, .inr rfl⟩
  | killPoll => exact (hkill.1 rfl).elim
  | killHandle => exact (hkill.2 rfl).elim
  | quitPoll =>
    -- there is no signal to leave on
    simp only [transportStep, h.pollSignal] at hstep
    split at hstep
    · exact absurd (‹_ ∧ _›).1 (by simp)
    · cases hstep
  | quitHandle =>
    simp only [transportStep, h.handleSignal] at hstep
    split at hstep
    · exact absurd (‹_ ∧ _›).1 (by simp)
    · cases hstep

end ServedTransport.Serves

/-- The steps `rdma_create_connect` has left. -/
def CreatePc.rank : CreatePc → ℕ
  | queues => 2 ^ 32 + 11
  | channel => 2 ^ 32 + 10
  | cq => 2 ^ 32 + 9
  | reqNotify => 2 ^ 32 + 8
  | pollThread => 2 ^ 32 + 7
  | handleThread => 2 ^ 32 + 6
  | qp => 2 ^ 32 + 5
  | modifyInit => 2 ^ 32 + 4
  | recv pc => pc.rank
  | created => 0

/-- Unless it waits for the pool, each step is one less. -/
theorem rank_createStep {s s' : LinkState χ} {answer : Answer}
    (hpending : ∀ pc, s.create = .recv pc → pc.InPool → answer ≠ .pending)
    (hstep : s.createStep answer = some (.ok s')) : s'.create.rank < s.create.rank := by
  unfold LinkState.createStep at hstep
  split at hstep
  case h_1 hcreate =>
    cases hstep
    simp [CreatePc.rank, hcreate]
  case h_8 hcreate =>
    split at hstep <;> cases hstep
    rw [hcreate]
    show CreatePc.rank (.recv (.getChunkList maxPreRecvQp)) < _
    decide
  case h_9 _ pc hrecv =>
    obtain ⟨next, hnext, rfl⟩ := map_map_eq_ok.mp hstep
    rw [hrecv]
    cases next with
    | none => exact pc.rank_pos
    | some pc' => exact RecvPc.rank_lt (hpending pc hrecv) hnext
  case h_10 => cases hstep
  all_goals
    split at hstep <;> cases hstep
    simp [CreatePc.rank, *]

/-- `rdma_create_connect` goes on until it returns, when the calls it makes succeed. -/
theorem createStep_enabled {s : LinkState χ} (h : s.Asks) (hcreate : s.create ≠ .created) :
    ∃ answer : Answer, answer.Serves ∧ (∀ pc, s.create = .recv pc → answer ≠ .pending) ∧
      ∃ s', s.createStep answer = some (.ok s') := by
  cases hpc : s.create with
  | created => exact (hcreate hpc).elim
  | recv pc =>
    have hasks : pc ≠ .getChunkList 0 := by
      rintro rfl
      exact h.create 0 hpc rfl
    obtain ⟨answer, next, hsucceeds, hstep⟩ := RecvPc.step_enabled hasks
    refine ⟨answer, .inr hsucceeds, fun _ _ => hsucceeds.not_fails.2, ?_⟩
    simp only [LinkState.createStep, hpc, hstep]
    exact ⟨_, rfl⟩
  | queues =>
    refine ⟨.pending, .inl rfl, by simp, ?_⟩
    simp only [LinkState.createStep, hpc]
    exact ⟨_, rfl⟩
  | channel | cq | qp =>
    refine ⟨.pointer true, .inr rfl, by simp, ?_⟩
    simp only [LinkState.createStep, hpc, if_true]
    exact ⟨_, rfl⟩
  | reqNotify | pollThread | handleThread | modifyInit =>
    refine ⟨.ret 0, .inr rfl, by simp, ?_⟩
    simp only [LinkState.createStep, hpc, lt_self_iff_false, if_false]
    exact ⟨_, rfl⟩

/-! ### A server that goes on -/

/-- The steps `init_server` has left. -/
def InitPc.rank : InitPc → ℕ
  | context => 8
  | socket => 7
  | setsockopt => 6
  | bind => 5
  | listen => 4
  | arg => 3
  | acceptThread => 2
  | threadPool => 1
  | returned => 0

namespace ServerState

/-- The condition on a step that nobody destroys the server, that the calls of `init_server` and
`accept_thread` succeed, that `ibv_req_notify_cq` arms the queue, or returns a negative value, and
that no `handle_thread` runs but while there is a pool. -/
def Steady (s : ServerState P χ) : ServerAct P χ → Prop
  | .init answer => ¬ answer.Fails ∧ (s.init = .acceptThread → answer.Succeeds)
  | .accept answer => ¬ answer.Fails ∧ (s.accept ≠ .accept → answer.Serves)
  | .poll p answer => (s.transports p).link.Arms (.poll answer)
  | .handle _ => s.threadPool = .running
  | .destroyServer => False
  | _ => True

instance : ∀ answer : Answer, Decidable answer.Succeeds
  | .pending => .isFalse not_false
  | .ret r => Int.instDecidableEq r 0
  | .pointer notNull => instDecidableEqBool notNull true

instance [DecidableEq P] (s : ServerState P RdmaChunk) : ∀ a, Decidable (s.Steady a)
  | .init answer => inferInstanceAs (Decidable (¬ answer.Fails ∧ (_ → answer.Succeeds)))
  | .accept answer => inferInstanceAs (Decidable (¬ answer.Fails ∧ (¬ _ → answer.Serves)))
  | .poll p (.ret r) =>
      inferInstanceAs (Decidable ((s.transports p).link.poll = .reqNotify → r ≤ 0))
  | .poll _ .pending | .poll _ (.pointer _) => .isTrue trivial
  | .handle _ => inferInstanceAs (Decidable (_ = _))
  | .destroyServer => .isFalse not_false
  | .connect _ | .add _ _ | .spurious _ | .startItem _ | .worker _ _ | .quitPoll _
  | .quitHandle _ | .visit _ | .destroy _ => .isTrue trivial

/-- What `accept_thread` has done, and what it is about to do. -/
structure AcceptInv (s : ServerState P χ) : Prop where
  /-- It does not leave its loop. -/
  goesOn : s.accept ≠ .ended
  /-- The host it works for is in the table, once it was looked up. -/
  looked : ∀ p, s.accept.peer? = some p → s.accept = .lookup p ∨ p ∈ s.table
  /-- `rdma_create_connect` runs for nobody else. -/
  created : ∀ p, (s.transports p).link.create = .queues ∨
    (s.transports p).link.create = .created ∨ s.accept = .create p
  /-- While it runs it has not returned. -/
  creating : ∀ p, s.accept = .create p → (s.transports p).link.create ≠ .created
  /-- It has run for every entry of the table, or is about to. -/
  made : ∀ p ∈ s.table, (s.transports p).link.create = .created ∨ s.accept = .lockCreate p ∨
    s.accept = .create p
  /-- Every connection is ready that is not being set up. -/
  ready : ∀ p ∈ s.table, (s.transports p).isReady = true ∨ s.accept.peer? = some p

/-- What else `accept_thread` leaves alone; once started it stays so. -/
theorem acceptStep_frame [DecidableEq P] {s s' : ServerState P χ} {answer : Answer}
    (hstep : s.acceptStep answer = some (.ok s')) :
    s'.shut = s.shut ∧ s'.listening = s.listening ∧ s'.accept ≠ .notStarted := by
  unfold acceptStep at hstep
  split at hstep
  · split at hstep
    · cases hstep
      exact ⟨rfl, rfl, by simp⟩
    · split at hstep <;> cases hstep
      exact ⟨rfl, rfl, by simp⟩
  · split at hstep
    · cases hstep
      exact ⟨rfl, rfl, by simp⟩
    · split at hstep <;> cases hstep
      exact ⟨rfl, rfl, by simp⟩
  · split at hstep <;> cases hstep
    refine ⟨rfl, rfl, ?_⟩
    dsimp only
    split <;> simp
  · obtain ⟨link, -, rfl⟩ := map_map_eq_ok.mp hstep
    refine ⟨rfl, rfl, ?_⟩
    dsimp only
    split <;> simp
  · split at hstep <;> cases hstep
    exact ⟨rfl, rfl, by simp⟩
  · split at hstep
    · cases hstep
    split at hstep
    · cases hstep
      exact ⟨rfl, rfl, by simp⟩
    · split at hstep <;> cases hstep
      exact ⟨rfl, rfl, by simp⟩
  · cases hstep

/-- What holds of a server that goes on. -/
structure ServingInv (s : ServerState P χ) : Prop where
  /-- Nobody destroys it. -/
  destroy : s.destroy = .notCalled
  /-- Nothing was freed. -/
  freed : s.freed = []
  /-- No connection was shut down. -/
  shut : s.shut = []
  /-- There is a pool once `init_server` has returned. -/
  pool : s.init = .returned → s.threadPool = .running
  /-- The socket listens from `listen` on. -/
  listening : s.init.rank ≤ 3 → s.listening = true
  /-- `accept_thread` runs from where it is started on. -/
  accepting : s.init.rank ≤ 1 ↔ s.accept ≠ .notStarted
  /-- The threads of the connections. -/
  threads : ∀ p, (s.transports p).Serves
  /-- The connections. -/
  accepts : AcceptInv s

/-- A step that is not one of `accept_thread` leaves what it works on as it is. -/
structure AcceptFrame (s s' : ServerState P χ) : Prop where
  /-- Its program point. -/
  accept : s'.accept = s.accept
  /-- The connections that wait. -/
  backlog : s.backlog <+: s'.backlog
  /-- The table. -/
  table : s'.table = s.table
  /-- The calls of `rdma_create_connect`. -/
  create : ∀ p, (s'.transports p).link.create = (s.transports p).link.create
  /-- Which connections are ready. -/
  isReady : ∀ p, (s'.transports p).isReady = (s.transports p).isReady

namespace AcceptInv

variable {s s' : ServerState P χ}

/-- A step of another thread. -/
theorem of_frame (h : AcceptInv s) (hframe : AcceptFrame s s') : AcceptInv s' := by
  obtain ⟨haccept, -, htable, hcreate, hready⟩ := hframe
  constructor
  · rw [haccept]
    exact h.goesOn
  · rw [haccept, htable]
    exact h.looked
  · intro p
    rw [haccept, hcreate]
    exact h.created p
  · intro p
    rw [haccept, hcreate]
    exact h.creating p
  · intro p
    rw [haccept, hcreate, htable]
    exact h.made p
  · intro p
    rw [haccept, hready, htable]
    exact h.ready p

/-- `accept_thread` goes on to a place where it calls nothing of a connection. -/
theorem move (h : AcceptInv s) (hnot : ∀ p, s.accept ≠ .lockCreate p ∧ s.accept ≠ .create p)
    (haccept : s'.accept.peer? = s.accept.peer?) (hmoved : ∀ p, s'.accept ≠ .lookup p ∧
      s'.accept ≠ .create p) (hends : s'.accept ≠ .ended) (htable : s'.table = s.table)
    (htransports : s'.transports = s.transports)
    (hlooked : ∀ p, s.accept.peer? = some p → p ∈ s.table) : AcceptInv s' := by
  constructor
  · exact hends
  · rw [haccept, htable]
    exact fun p hp => .inr (hlooked p hp)
  · intro p
    rw [htransports]
    exact (h.created p).imp_right fun h => h.imp_right fun heq => ((hnot p).2 heq).elim
  · exact fun p heq => ((hmoved p).2 heq).elim
  · intro p hp
    rw [htransports]
    rw [htable] at hp
    exact (h.made p hp).imp_right fun h => h.elim (fun heq => ((hnot p).1 heq).elim)
      fun heq => ((hnot p).2 heq).elim
  · intro p hp
    rw [haccept, htransports]
    rw [htable] at hp
    exact h.ready p hp

/-- `accept_thread` takes a connection that waits. -/
theorem take (h : AcceptInv s) {p : P} {rest : List P} (haccept : s.accept = .accept) :
    AcceptInv { s with backlog := rest, accept := .lookup p } := by
  refine ⟨by simp, fun q hq => .inl (by cases hq; rfl), fun q => ?_, by rintro q ⟨⟩,
    fun q hq => ?_, fun q hq => ?_⟩
  · exact (h.created q).imp_right fun h => h.imp_right (by simp [haccept])
  · exact (h.made q hq).imp_right (by simp [haccept])
  · exact (h.ready q hq).imp_right (by rw [haccept]; rintro ⟨⟩)

/-- `accept_thread` adds an entry. -/
theorem insert (h : AcceptInv s) {p : P} (haccept : s.accept = .lookup p) :
    AcceptInv { s with table := s.table ++ [p], accept := .lockCreate p } := by
  refine ⟨by simp, fun q hq => .inr ?_, fun q => ?_, by rintro q ⟨⟩, fun q hq => ?_,
    fun q hq => ?_⟩
  · cases hq
    exact List.mem_append_right _ List.mem_cons_self
  · exact (h.created q).imp_right fun h => h.imp_right (by simp [haccept])
  · obtain hq | hq := List.mem_append.mp hq
    · exact (h.made q hq).imp_right (by simp [haccept])
    · rw [List.mem_singleton.mp hq]
      exact .inr (.inl rfl)
  · obtain hq | hq := List.mem_append.mp hq
    · have hready := h.ready q hq
      rwa [haccept] at hready
    · rw [List.mem_singleton.mp hq]
      exact .inr rfl

/-- `accept_thread` looks whether the transport has a queue pair. -/
theorem look (h : AcceptInv s) {p : P} (haccept : s.accept = .lockCreate p) :
    AcceptInv { s with
      accept := if (s.transports p).link.HasQp then .exchange p else .create p } := by
  have hlooked : p ∈ s.table := (h.looked p (by rw [haccept]; rfl)).resolve_left (by simp [haccept])
  have hcreated := h.created
  have hmade := h.made
  have hready := h.ready
  rw [haccept] at hcreated hmade hready
  split
  · -- no call of `rdma_create_connect` is under way
    rename_i hqp
    have hp : (s.transports p).link.create = .created := by
      obtain hqueues | hdone | ⟨⟨⟩⟩ := hcreated p
      · simp [LinkState.HasQp, hqueues] at hqp
      · exact hdone
    refine ⟨by simp, fun q hq => .inr (by cases hq; exact hlooked), fun q => ?_, by rintro q ⟨⟩,
      fun q hq => ?_, hready⟩
    · exact (hcreated q).imp_right fun h => h.imp_right (by rintro ⟨⟩)
    · obtain hdone | ⟨⟨⟩⟩ | ⟨⟨⟩⟩ := hmade q hq
      · exact .inl hdone
      · exact .inl hp
  · rename_i hqp
    refine ⟨by simp, fun q hq => .inr (by cases hq; exact hlooked), fun q => ?_, fun q hq => ?_,
      fun q hq => ?_, hready⟩
    · exact (hcreated q).imp_right fun h => h.imp_right (by rintro ⟨⟩)
    · cases hq
      intro (hdone : (s.transports p).link.create = .created)
      simp [LinkState.HasQp, hdone] at hqp
    · obtain hdone | ⟨⟨⟩⟩ | ⟨⟨⟩⟩ := hmade q hq
      · exact .inl hdone
      · exact .inr (.inr rfl)

variable [DecidableEq P]

/-- `accept_thread` takes a step of `rdma_create_connect`. -/
theorem create (h : AcceptInv s) {p : P} {link : LinkState χ} (haccept : s.accept = .create p) :
    AcceptInv { s.setTransport p { s.transports p with link := link } with
      accept := if link.create = .created then .exchange p else .create p } := by
  have hlooked : p ∈ s.table := (h.looked p (by rw [haccept]; rfl)).resolve_left (by simp [haccept])
  have hpeer : (if link.create = .created then AcceptPc.exchange p else .create p).peer?
      = some p := by
    split <;> rfl
  have hcreated := h.created
  have hmade := h.made
  have hready := h.ready
  rw [haccept] at hcreated hmade hready
  refine ⟨by dsimp only; split <;> simp, fun q hq => .inr ?_, fun q => ?_, fun q hq => ?_,
    fun q hq => ?_, fun q hq => ?_⟩
  · obtain rfl := Option.some.inj (hpeer.symm.trans hq)
    exact hlooked
  · by_cases heq : q = p
    · subst heq
      rw [setTransport_self]
      by_cases hdone : link.create = .created
      · exact .inr (.inl hdone)
      · exact .inr (.inr (if_neg hdone))
    · dsimp only
      rw [setTransport_of_ne s _ heq]
      refine (hcreated q).imp_right fun h => h.imp_right ?_
      rintro ⟨⟩
      exact (heq rfl).elim
  · dsimp only at hq
    split at hq
    · cases hq
    · cases hq
      rwa [setTransport_self]
  · by_cases heq : q = p
    · subst heq
      rw [setTransport_self]
      by_cases hdone : link.create = .created
      · exact .inl hdone
      · exact .inr (.inr (if_neg hdone))
    · dsimp only
      rw [setTransport_of_ne s _ heq]
      obtain hdone | ⟨⟨⟩⟩ | ⟨⟨⟩⟩ := hmade q hq
      · exact .inl hdone
      · exact (heq rfl).elim
  · dsimp only
    rw [hpeer]
    by_cases heq : q = p
    · subst heq
      exact .inr rfl
    · rw [setTransport_of_ne s _ heq]
      exact hready q hq

/-- `accept_thread` is done with the connection, which is ready. -/
theorem done (h : AcceptInv s) {p : P} (haccept : s.accept = .complete p)
    {t : ServedTransport χ} (hready : t.isReady = true)
    (hlink : t.link.create = (s.transports p).link.create) :
    AcceptInv { s.setTransport p t with accept := .accept } := by
  have hcreate : ∀ q, ((s.setTransport p t).transports q).link.create
      = (s.transports q).link.create := by
    intro q
    by_cases heq : q = p
    · subst heq
      rw [setTransport_self, hlink]
    · rw [setTransport_of_ne s _ heq]
  refine ⟨by simp, by rintro q ⟨⟩, fun q => ?_, by rintro q ⟨⟩, fun q hq => ?_, fun q hq => .inl ?_⟩
  · dsimp only
    rw [hcreate]
    exact (h.created q).imp_right fun h => h.imp_right (by simp [haccept])
  · dsimp only
    rw [hcreate]
    exact (h.made q hq).imp_right (by simp [haccept])
  · by_cases heq : q = p
    · subst heq
      rwa [setTransport_self]
    · dsimp only
      rw [setTransport_of_ne s _ heq]
      refine (h.ready q hq).resolve_right fun hpeer => heq ?_
      rw [haccept] at hpeer
      exact (Option.some.inj hpeer).symm

/-- `accept_thread` takes a step. -/
theorem acceptStep (h : AcceptInv s) {answer : Answer} (hfails : ¬ answer.Fails)
    (hlistening : s.accept ≠ .notStarted → s.listening = true) (hshut : s.shut = [])
    (hstep : s.acceptStep answer = some (.ok s')) : AcceptInv s' := by
  unfold ServerState.acceptStep at hstep
  split at hstep
  · rename_i r haccept
    rw [if_neg] at hstep
    · split at hstep <;> cases hstep
      exact h.take haccept
    · rintro (hr | hclosed)
      · exact hfails hr
      · rw [hlistening (by simp [haccept])] at hclosed
        cases hclosed
  · rename_i p notNull haccept
    have hpeer : s.accept.peer? = some p := by rw [haccept]; rfl
    split at hstep
    · rename_i hmem
      cases hstep
      refine h.move (by simp [haccept]) hpeer.symm (by simp) (by simp) rfl rfl fun q hq => ?_
      rwa [← Option.some.inj (hpeer.symm.trans hq)]
    · split at hstep <;> cases hstep
      exact h.insert haccept
  · rename_i p haccept
    split at hstep <;> cases hstep
    exact h.look haccept
  · rename_i p haccept
    obtain ⟨link, -, rfl⟩ := map_map_eq_ok.mp hstep
    exact h.create haccept
  · rename_i p r haccept
    have hpeer : s.accept.peer? = some p := by rw [haccept]; rfl
    split at hstep <;> cases hstep
    refine h.move (by simp [haccept]) hpeer.symm (by simp) (by simp) rfl rfl fun q hq => ?_
    exact (h.looked q hq).resolve_left (by simp [haccept])
  · rename_i p r haccept
    have hnot : p ∉ s.shut := by simp [hshut]
    rw [if_neg hnot] at hstep
    split at hstep
    · rename_i hready
      cases hstep
      have hsame := h.done haccept hready rfl
      rwa [setTransport, Function.update_eq_self] at hsame
    · split at hstep <;> cases hstep
      exact h.done haccept rfl rfl
  · cases hstep

end AcceptInv

namespace ServingInv

variable {s s' : ServerState P χ}

/-- Before `init_server`. -/
theorem start : ServingInv (.start : ServerState P χ) where
  destroy := rfl
  freed := rfl
  shut := rfl
  pool := by rintro ⟨⟩
  listening h := absurd h (by simp [ServerState.start, InitPc.rank])
  accepting := by simp [ServerState.start, InitPc.rank]
  threads p := ⟨rfl, rfl, rfl, rfl, False.elim, False.elim⟩
  accepts := ⟨by simp [ServerState.start], by rintro p ⟨⟩, fun p => .inl rfl, by rintro p ⟨⟩,
    by simp [ServerState.start], by simp [ServerState.start]⟩

/-- A step that is neither one of `init_server` nor of `accept_thread`. -/
theorem of_frame (h : ServingInv s) (hframe : AcceptFrame s s')
    (hthreads : ∀ p, (s'.transports p).Serves)
    (hrest : s'.destroy = s.destroy ∧ s'.freed = s.freed ∧ s'.shut = s.shut ∧
      s'.init = s.init ∧ s'.threadPool = s.threadPool ∧ s'.listening = s.listening) :
    ServingInv s' := by
  obtain ⟨hdestroy, hfreed, hshut, hinit, hpool, hlistening⟩ := hrest
  constructor
  · exact hdestroy.trans h.destroy
  · exact hfreed.trans h.freed
  · exact hshut.trans h.shut
  · rw [hinit, hpool]
    exact h.pool
  · rw [hinit, hlistening]
    exact h.listening
  · rw [hinit, hframe.accept]
    exact h.accepting
  · exact hthreads
  · exact h.accepts.of_frame hframe

/-- Where `accept_thread` is started it was not started before. -/
theorem notStarted (h : ServingInv s) (hinit : s.init = .acceptThread) :
    s.accept = .notStarted := by
  by_contra hne
  have hrank := h.accepting.mpr hne
  rw [hinit] at hrank
  exact absurd hrank (by decide)

/-- `init_server` takes a step. -/
theorem initStep (h : ServingInv s) {answer : Answer}
    (hsteady : ¬ answer.Fails ∧ (s.init = .acceptThread → answer.Succeeds))
    (hstep : s.initStep answer = some (.ok s')) : ServingInv s' := by
  have hnot := h.notStarted
  obtain ⟨hdestroy, hfreed, hshut, hpool, hlistening, haccepting, hthreads, haccepts⟩ := h
  -- it moves nothing that `accept_thread` works on
  have hkept : ∀ {s'' : ServerState P χ}, s''.accept = s.accept → s''.table = s.table →
      s''.transports = s.transports → s''.backlog = s.backlog → AcceptInv s'' :=
    fun haccept htable htransports hbacklog => haccepts.of_frame
      ⟨haccept, hbacklog ▸ List.prefix_refl _, htable, fun p => by rw [htransports],
        fun p => by rw [htransports]⟩
  unfold ServerState.initStep at hstep
  split at hstep
  case h_7 r hinit =>
    obtain rfl : r = 0 := hsteady.2 hinit
    cases hstep
    rw [hinit] at hlistening
    have hnot := hnot hinit
    refine ⟨hdestroy, hfreed, hshut, by simp, fun _ => hlistening (by decide),
      by simp [InitPc.rank], hthreads, haccepts.move (by simp [hnot]) (by rw [hnot]; rfl)
        (by simp) (by simp) rfl rfl (by rw [hnot]; rintro p ⟨⟩)⟩
  case h_8 hinit =>
    cases hstep
    rw [hinit] at hlistening haccepting
    exact ⟨hdestroy, hfreed, hshut, fun _ => rfl, fun _ => hlistening (by decide),
      by simpa [InitPc.rank] using haccepting, hthreads, hkept rfl rfl rfl rfl⟩
  case h_5 hinit =>
    split at hstep <;> cases hstep
    rw [hinit] at haccepting
    exact ⟨hdestroy, hfreed, hshut, by simp, fun _ => rfl,
      by simpa [InitPc.rank] using haccepting, hthreads, hkept rfl rfl rfl rfl⟩
  case h_6 hinit =>
    split at hstep <;> cases hstep
    rw [hinit] at haccepting hlistening
    exact ⟨hdestroy, hfreed, hshut, by simp, fun _ => hlistening (by decide),
      by simpa [InitPc.rank] using haccepting, hthreads, hkept rfl rfl rfl rfl⟩
  case h_9 => cases hstep
  all_goals
    rename_i hinit
    split at hstep <;> cases hstep
    rw [hinit] at haccepting
    exact ⟨hdestroy, hfreed, hshut, by simp, by simp [InitPc.rank],
      by simpa [InitPc.rank] using haccepting, hthreads, hkept rfl rfl rfl rfl⟩

variable [DecidableEq P] {a : ServerAct P χ}

/-- `accept_thread` takes a step. -/
theorem acceptStep (h : ServingInv s) {answer : Answer} (hsteady : s.Steady (.accept answer))
    (hstep : s.acceptStep answer = some (.ok s')) : ServingInv s' := by
  obtain ⟨hfails, hserves⟩ := hsteady
  have hlistening : s.accept ≠ .notStarted → s.listening = true := fun hne =>
    h.listening ((h.accepting.mpr hne).trans (by decide))
  have haccepts := h.accepts.acceptStep hfails hlistening h.shut hstep
  obtain ⟨hpool, hinit, hdestroy, hfreed, htransports, -⟩ := acceptStep_spec hstep
  -- it was started
  have hstarted : s.accept ≠ .notStarted := by
    intro heq
    unfold ServerState.acceptStep at hstep
    rw [heq] at hstep
    cases hstep
  obtain ⟨hshut, hlisten, hgoes⟩ : s'.shut = s.shut ∧ s'.listening = s.listening ∧
      s'.accept ≠ .notStarted := acceptStep_frame hstep
  refine ⟨hdestroy.trans h.destroy, hfreed.trans h.freed, hshut.trans h.shut, ?_, ?_, ?_,
    fun p => ?_, haccepts⟩
  · rw [hinit, hpool]
    exact h.pool
  · rw [hinit, hlisten]
    exact h.listening
  · rw [hinit]
    exact ⟨fun _ => hgoes, fun _ => h.accepting.mpr hstarted⟩
  · -- it writes a transport in `rdma_create_connect`, or sets `is_ready`
    have hat : s.StepsAt (fun _ => .blank) s' p (.accept answer) := stepsAt_accept hstep
    obtain heq | ⟨b, hat, hb⟩ := hat
    · exact heq ▸ h.threads p
    · refine ((h.threads p).step ⟨?_, ?_⟩ ?_ hb).1
      · rintro rfl
        exact hat.elim
      · rintro rfl
        exact hat.elim
      · rintro answer' rfl
        obtain ⟨haccept, rfl⟩ := hat
        exact hserves (by simp [haccept])

/-- What the other steps leave alone. -/
theorem frame_act (h : ServingInv s) (hinit : ∀ answer, a ≠ .init answer)
    (haccept : ∀ answer, a ≠ .accept answer) (hsteady : s.Steady a)
    (hstep : s.act mem a = some (.ok s')) :
    AcceptFrame s s' ∧ (∀ p, (s'.transports p).Serves) ∧
      s'.destroy = s.destroy ∧ s'.freed = s.freed ∧ s'.shut = s.shut ∧
      s'.init = s.init ∧ s'.threadPool = s.threadPool ∧ s'.listening = s.listening := by
  have hthreads : ∀ p, (s'.transports p).Serves ∧
      (s'.transports p).link.create = (s.transports p).link.create ∧
      (s'.transports p).isReady = (s.transports p).isReady := by
    intro p
    obtain heq | ⟨b, hat, hb⟩ := stepsAt_act (p := p) hstep
    · rw [heq]
      exact ⟨h.threads p, rfl, rfl⟩
    · obtain ⟨hkill, hcreate, hready⟩ : (b ≠ .killPoll ∧ b ≠ .killHandle) ∧
          (∀ answer, b ≠ .create answer) ∧ b ≠ .ready := by
        cases b with
        | killPoll | killHandle =>
          cases a with
          | destroy answer =>
            obtain ⟨entries, hdestroy⟩ := hat
            rw [h.destroy] at hdestroy
            cases hdestroy
          | _ => exact hat.elim
        | create answer | ready =>
          cases a with
          | accept answer => exact (haccept answer rfl).elim
          | _ => exact hat.elim
        | _ => simp
      obtain ⟨hserves, hcreated, hisReady⟩ := (h.threads p).step hkill
        (fun answer heq => (hcreate answer heq).elim) hb
      exact ⟨hserves, hcreated.resolve_right fun ⟨answer, heq⟩ => hcreate answer heq,
        hisReady.resolve_right hready⟩
  have hrest : (s'.accept = s.accept ∧ s.backlog <+: s'.backlog ∧ s'.table = s.table) ∧
      s'.destroy = s.destroy ∧ s'.freed = s.freed ∧ s'.shut = s.shut ∧
      s'.init = s.init ∧ s'.threadPool = s.threadPool ∧ s'.listening = s.listening := by
    cases a with
    | init answer => exact (hinit answer rfl).elim
    | accept answer => exact (haccept answer rfl).elim
    | destroyServer => exact hsteady.elim
    | visit p =>
      simp only [act, h.destroy] at hstep
      cases hstep
    | destroy answer =>
      simp only [act, destroyStep, h.destroy] at hstep
      cases hstep
    | connect p =>
      simp only [act] at hstep
      split at hstep <;> cases hstep
      exact ⟨⟨rfl, List.prefix_append .., rfl⟩, rfl, rfl, rfl, rfl, rfl, rfl⟩
    | poll p answer | handle p | worker p i =>
      obtain ⟨t, -, rfl⟩ := map_map_eq_ok.mp hstep
      exact ⟨⟨rfl, List.prefix_refl _, rfl⟩, rfl, rfl, rfl, rfl, rfl, rfl⟩
    | spurious p =>
      simp only [act] at hstep
      split at hstep
      · obtain ⟨t, -, rfl⟩ := map_map_eq_ok.mp hstep
        exact ⟨⟨rfl, List.prefix_refl _, rfl⟩, rfl, rfl, rfl, rfl, rfl, rfl⟩
      · cases hstep
    | add p wc | startItem p | quitPoll p | quitHandle p =>
      simp only [act] at hstep
      split at hstep <;> cases hstep
      exact ⟨⟨rfl, List.prefix_refl _, rfl⟩, rfl, rfl, rfl, rfl, rfl, rfl⟩
  obtain ⟨⟨hsame, hbacklog, htable⟩, hrest⟩ := hrest
  exact ⟨⟨hsame, hbacklog, htable, fun p => (hthreads p).2.1, fun p => (hthreads p).2.2⟩,
    fun p => (hthreads p).1, hrest⟩

/-- **One step keeps it.** -/
theorem act (h : ServingInv s) (hsteady : s.Steady a) (hstep : s.act mem a = some (.ok s')) :
    ServingInv s' := by
  by_cases hinit : ∃ answer, a = .init answer
  · obtain ⟨answer, rfl⟩ := hinit
    exact h.initStep hsteady hstep
  by_cases haccept : ∃ answer, a = .accept answer
  · obtain ⟨answer, rfl⟩ := haccept
    exact h.acceptStep hsteady hstep
  obtain ⟨hframe, hthreads, hrest⟩ := h.frame_act (fun answer heq => hinit ⟨answer, heq⟩)
    (fun answer heq => haccept ⟨answer, heq⟩) hsteady hstep
  exact h.of_frame hframe hthreads hrest

end ServingInv

/-! ### What the server has left to do -/

/-- The server has a connection of `p`, or is about to make it. -/
def Knows (s : ServerState P χ) (p : P) : Prop :=
  p ∈ s.backlog ∨ s.accept.peer? = some p ∨ p ∈ s.table

/-- The steps `accept_thread` has left with the connection it is setting up. -/
def acceptRank (s : ServerState P χ) : ℕ :=
  match s.accept with
  | .notStarted | .accept | .ended => 0
  | .complete _ => 1
  | .exchange _ => 2
  | .create p => 3 + (s.transports p).link.create.rank
  | .lockCreate p => 4 + (s.transports p).link.create.rank
  | .lookup p => 5 + (s.transports p).link.create.rank

/-- What the server has left: the steps of `init_server`, the connections to be set up, and what the
threads of each connection have left. -/
def serving (s : ServerState P χ) :
    ℕ ×ₗ (ℕ ×ₗ ℕ) ×ₗ (P → (ℕ ×ₗ ℕ ×ₗ ℕ) ×ₗ (ℕ ×ₗ ℕ) ×ₗ ℕ) :=
  toLex (s.init.rank, toLex (toLex (s.backlog.length, s.acceptRank),
    fun p => (s.transports p).progress))

/-- The steps the server takes when it is left to itself. -/
def Proceeds (s : ServerState P χ) : ServerAct P χ → Prop
  | .init answer => s.Steady (.init answer)
  | .accept answer => s.Steady (.accept answer) ∧ ∀ p pc, s.accept = .create p →
      (s.transports p).link.create = .recv pc → pc.InPool → answer ≠ .pending
  | .poll p answer => (s.transports p).link.Answers answer
  | .handle _ => s.threadPool = .running
  | .startItem _ => True
  | .worker _ _ => True
  | _ => False

/-- The steps that proceed are such that the server goes on. -/
theorem Proceeds.steady {s : ServerState P χ} {a : ServerAct P χ} (h : s.Proceeds a) :
    s.Steady a := by
  cases a with
  | init answer => exact h
  | accept answer => exact h.1
  | poll p answer => exact h.arms
  | handle p => exact h
  | startItem p | worker p i => trivial
  | _ => exact h.elim

/-- Each step of `init_server` is one less. -/
theorem rank_initStep {s s' : ServerState P χ} {answer : Answer}
    (hstep : s.initStep answer = some (.ok s')) : s'.init.rank < s.init.rank := by
  unfold ServerState.initStep at hstep
  split at hstep
  case h_8 hinit =>
    cases hstep
    simp [InitPc.rank, hinit]
  case h_9 => cases hstep
  all_goals
    split at hstep <;> cases hstep
    simp [InitPc.rank, *]

variable [DecidableEq P] {s s' : ServerState P χ} {a : ServerAct P χ} {p : P}

/-- Each step of `accept_thread` lowers its rank, unless it takes a connection that waits. -/
theorem acceptRank_acceptStep {answer : Answer} (ha : s.Proceeds (.accept answer))
    (hstep : s.acceptStep answer = some (.ok s')) :
    (s'.accept = .ended ∨ s'.backlog.length < s.backlog.length) ∨
      s'.backlog = s.backlog ∧ s'.acceptRank < s.acceptRank := by
  unfold acceptStep at hstep
  split at hstep
  · split at hstep
    · cases hstep
      exact .inl (.inl rfl)
    · split at hstep <;> cases hstep
      rename_i hbacklog
      exact .inl (.inr (by simp [hbacklog]))
  · rename_i p notNull haccept
    split at hstep
    · cases hstep
      exact .inr ⟨rfl, by simp [acceptRank, haccept]⟩
    · split at hstep <;> cases hstep
      exact .inr ⟨rfl, by simp [acceptRank, haccept]⟩
  · rename_i p haccept
    split at hstep <;> cases hstep
    refine .inr ⟨rfl, ?_⟩
    by_cases hqp : (s.transports p).link.HasQp
    · simp only [acceptRank, haccept, if_pos hqp]
      omega
    · simp only [acceptRank, haccept, if_neg hqp]
      omega
  · rename_i p haccept
    obtain ⟨link, hlink, rfl⟩ := map_map_eq_ok.mp hstep
    have hlt := rank_createStep (fun pc hrecv => ha.2 p pc haccept hrecv) hlink
    refine .inr ⟨rfl, ?_⟩
    by_cases hdone : link.create = .created
    · simp only [acceptRank, haccept, if_pos hdone]
      omega
    · simp only [acceptRank, haccept, if_neg hdone, setTransport_self]
      omega
  · rename_i p r haccept
    split at hstep <;> cases hstep
    exact .inr ⟨rfl, by simp [acceptRank, haccept]⟩
  · rename_i p r haccept
    split at hstep
    · cases hstep
    split at hstep
    · cases hstep
      exact .inr ⟨rfl, by simp [acceptRank, haccept]⟩
    · split at hstep <;> cases hstep
      exact .inr ⟨rfl, by simp [acceptRank, haccept]⟩
  · cases hstep

/-- A thread of a connection takes a step. -/
theorem ServingInv.serving_lt_of_thread (h : ServingInv s) {b : TransportAct χ} (p : P)
    (hshape : ∀ p, Shape (s.transports p)) (hwork : ∀ p, WorkInv mem (s.transports p).work)
    (hinit : ∀ answer, a ≠ .init answer) (haccept : ∀ answer, a ≠ .accept answer)
    (ha : s.Proceeds a) (hbacklog : s'.backlog = s.backlog)
    (hother : ∀ q, q ≠ p → s'.transports q = s.transports q)
    (hb : (s.transports p).Proceeds b)
    (hnext : transportStep mem (s.transports p) b = some (.ok (s'.transports p)))
    (hstep : s.act mem a = some (.ok s')) : s'.serving < s.serving := by
  obtain ⟨hframe, -, -, -, -, hsame, -⟩ := h.frame_act hinit haccept ha.steady hstep
  have hrank : s'.acceptRank = s.acceptRank := by
    unfold acceptRank
    rw [hframe.accept]
    split <;> simp only [hframe.create]
  have hlt : (fun q => (s'.transports q).progress) < fun q => (s.transports q).progress := by
    refine Pi.lt_def.mpr ⟨fun q => ?_, p, ServedTransport.progress_lt (hshape p) (hwork p) hb hnext⟩
    by_cases heq : q = p
    · subst heq
      exact (ServedTransport.progress_lt (hshape q) (hwork q) hb hnext).le
    · exact (congrArg ServedTransport.progress (hother q heq)).le
  rw [serving, serving, hsame, hbacklog, hrank]
  exact Prod.Lex.right _ (Prod.Lex.right _ hlt)

/-- **Each step of the server brings down what it has left.** -/
theorem ServingInv.serving_lt (h : ServingInv s) (hshape : ∀ p, Shape (s.transports p))
    (hwork : ∀ p, WorkInv mem (s.transports p).work) (ha : s.Proceeds a)
    (hstep : s.act mem a = some (.ok s')) : s'.serving < s.serving := by
  cases a with
  | init answer => exact Prod.Lex.left _ _ (rank_initStep hstep)
  | accept answer =>
    have hgoesOn := (h.acceptStep ha.steady hstep).accepts.goesOn
    rw [serving, serving, (acceptStep_spec hstep).init]
    refine Prod.Lex.right _ (Prod.Lex.left _ _ ?_)
    obtain (hended | hlt) | ⟨heq, hlt⟩ := acceptRank_acceptStep ha hstep
    · exact (hgoesOn hended).elim
    · exact Prod.Lex.left _ _ hlt
    · rw [heq]
      exact Prod.Lex.right _ hlt
  | poll p answer =>
    obtain ⟨t, ht, rfl⟩ := map_map_eq_ok.mp hstep
    refine h.serving_lt_of_thread (b := .poll answer) p hshape hwork (by simp) (by simp) ha rfl
      (fun q hq => setTransport_of_ne s t hq) ha ?_ hstep
    rw [setTransport_self]
    exact ht
  | handle p =>
    obtain ⟨t, ht, rfl⟩ := map_map_eq_ok.mp hstep
    refine h.serving_lt_of_thread (b := .handle s.threadPool) p hshape hwork (by simp) (by simp) ha
      rfl (fun q hq => setTransport_of_ne s t hq) ha ?_ hstep
    rw [setTransport_self]
    exact ht
  | startItem p =>
    have hact := hstep
    simp only [ServerState.act] at hstep
    split at hstep <;> cases hstep
    refine h.serving_lt_of_thread (b := .startItem) p hshape hwork (by simp) (by simp) ha rfl
      (fun q hq => setTransport_of_ne s _ hq) trivial ?_ hact
    rw [setTransport_self]
    exact if_pos ‹_›
  | worker p i =>
    obtain ⟨work, ht, rfl⟩ := map_map_eq_ok.mp hstep
    refine h.serving_lt_of_thread (b := .worker i) p hshape hwork (by simp) (by simp) ha rfl
      (fun q hq => setTransport_of_ne s _ hq) trivial ?_ hstep
    rw [setTransport_self]
    exact map_map_eq_ok.mpr ⟨work, ht, rfl⟩
  | _ => exact ha.elim

/-! ### Where the server stops -/

omit [DecidableEq P] in
/-- `init_server` goes on until it returns, when its calls succeed. -/
theorem initStep_enabled (hinit : s.init ≠ .returned) :
    ∃ answer, s.Proceeds (.init answer) ∧ ∃ s', s.initStep answer = some (.ok s') := by
  cases hpc : s.init with
  | returned => exact (hinit hpc).elim
  | context | arg =>
    refine ⟨.pointer true, ⟨by simp [Answer.Fails], fun _ => rfl⟩, ?_⟩
    simp only [initStep, hpc, if_true]
    exact ⟨_, rfl⟩
  | socket | setsockopt | bind | listen | acceptThread =>
    refine ⟨.ret 0, ⟨by simp [Answer.Fails], fun _ => rfl⟩, ?_⟩
    simp only [initStep, hpc, lt_self_iff_false, if_false]
    exact ⟨_, rfl⟩
  | threadPool =>
    refine ⟨.pending, ⟨by simp [Answer.Fails], by simp [hpc]⟩, ?_⟩
    simp only [initStep, hpc]
    exact ⟨_, rfl⟩

/-- `accept_thread` stops only where no connection waits. -/
theorem ServingInv.acceptStep_enabled (h : ServingInv s) (hinit : s.init = .returned)
    (hasks : ∀ p, (s.transports p).link.Asks) (hwaits : ¬ (s.accept = .accept ∧ s.backlog = [])) :
    ∃ answer, s.Proceeds (.accept answer) ∧ ∃ s', s.acceptStep answer = some (.ok s') := by
  have hstarted := h.accepting.mp (by simp [hinit, InitPc.rank])
  -- away from `rdma_create_connect` an answer that is no failure will do
  have hnext : ∀ answer : Answer, answer.Serves → ¬ answer.Fails →
      (∀ p, s.accept ≠ .create p) → (∃ s', s.acceptStep answer = some (.ok s')) →
      ∃ answer, s.Proceeds (.accept answer) ∧ ∃ s', s.acceptStep answer = some (.ok s') :=
    fun answer hserves hfails hnot hstep => ⟨answer,
      ⟨⟨hfails, fun _ => hserves⟩, fun p _ haccept => (hnot p haccept).elim⟩, hstep⟩
  cases haccept : s.accept with
  | notStarted => exact (hstarted haccept).elim
  | ended => exact (h.accepts.goesOn haccept).elim
  | accept =>
    have hlistening := h.listening (by simp [hinit, InitPc.rank])
    refine hnext (.ret 0) (.inr rfl) (by simp [Answer.Fails]) (by simp [haccept]) ?_
    cases hbacklog : s.backlog with
    | nil => exact (hwaits ⟨haccept, hbacklog⟩).elim
    | cons p rest =>
      simp only [ServerState.acceptStep, haccept, hbacklog, hlistening]
      exact ⟨_, rfl⟩
  | lookup p =>
    refine hnext (.pointer true) (.inr rfl) (by simp [Answer.Fails]) (by simp [haccept]) ?_
    simp only [ServerState.acceptStep, haccept, if_true]
    split <;> exact ⟨_, rfl⟩
  | lockCreate p =>
    refine hnext .pending (.inl rfl) (by simp [Answer.Fails]) (by simp [haccept]) ?_
    have hshut : p ∉ s.shut := by simp [h.shut]
    simp only [ServerState.acceptStep, haccept, if_neg hshut]
    exact ⟨_, rfl⟩
  | create p =>
    obtain ⟨answer, hserves, hpending, link, hlink⟩ :=
      createStep_enabled (hasks p) (h.accepts.creating p haccept)
    have hfails : ¬ answer.Fails := by
      obtain rfl | hsucceeds := hserves
      · exact not_false
      · exact hsucceeds.not_fails.1
    refine ⟨answer, ⟨⟨hfails, fun _ => hserves⟩, fun q pc hq hrecv _ => ?_⟩, ?_⟩
    · rw [haccept] at hq
      cases hq
      exact hpending pc hrecv
    · simp only [ServerState.acceptStep, haccept, hlink]
      exact ⟨_, rfl⟩
  | exchange p =>
    refine hnext (.ret 0) (.inr rfl) (by simp [Answer.Fails]) (by simp [haccept]) ?_
    simp only [ServerState.acceptStep, haccept, lt_self_iff_false, if_false]
    exact ⟨_, rfl⟩
  | complete p =>
    refine hnext (.ret 0) (.inr rfl) (by simp [Answer.Fails]) (by simp [haccept]) ?_
    have hshut : p ∉ s.shut := by simp [h.shut]
    simp only [ServerState.acceptStep, haccept, if_neg hshut]
    split <;> exact ⟨_, rfl⟩

omit [DecidableEq P] in
/-- `init_server` forgets no host. -/
theorem ServingInv.knows_initStep (h : ServingInv s) {answer : Answer}
    (hstep : s.initStep answer = some (.ok s')) (hp : s.Knows p) : s'.Knows p := by
  unfold ServerState.initStep at hstep
  split at hstep
  case h_7 hinit =>
    split at hstep <;> cases hstep
    -- `accept_thread` is not setting up anything yet
    rw [Knows, h.notStarted hinit] at hp
    exact hp.imp_right fun hp => .inr (hp.resolve_left (by rintro ⟨⟩))
  case h_8 =>
    cases hstep
    exact hp
  case h_9 => cases hstep
  all_goals
    split at hstep <;> cases hstep
    exact hp

/-- `accept_thread` forgets no peer: those whose connections it sets up are in the table. -/
theorem ServingInv.knows_acceptStep (h : ServingInv s) {answer : Answer}
    (hsteady : s.Steady (.accept answer)) (hstep : s.acceptStep answer = some (.ok s'))
    (hp : s.Knows p) : s'.Knows p := by
  have hgoesOn := (h.acceptStep hsteady hstep).accepts.goesOn
  have hlooked := h.accepts.looked p
  -- the host it works for, behind the lookup
  have htable : (∀ q, s.accept ≠ .lookup q) → s'.backlog = s.backlog → s'.table = s.table →
      s'.Knows p := by
    intro hnot hbacklog htable
    rw [Knows, hbacklog, htable]
    obtain hp | hp | hp := hp
    · exact .inl hp
    · exact .inr (.inr ((hlooked hp).resolve_left (hnot p)))
    · exact .inr (.inr hp)
  unfold ServerState.acceptStep at hstep
  split at hstep
  · rename_i haccept
    split at hstep
    · cases hstep
      exact (hgoesOn rfl).elim
    · split at hstep <;> cases hstep
      rename_i q rest hbacklog
      rw [Knows, haccept, hbacklog, List.mem_cons] at hp
      obtain (rfl | hp) | ⟨⟨⟩⟩ | hp := hp
      · exact .inr (.inl rfl)
      · exact .inl hp
      · exact .inr (.inr hp)
  · rename_i q notNull haccept
    rw [Knows, haccept] at hp
    split at hstep
    · cases hstep
      exact hp
    · split at hstep <;> cases hstep
      exact hp.imp_right fun hp => hp.imp_right (List.mem_append_left _)
  · rename_i q haccept
    split at hstep <;> cases hstep
    exact htable (by simp [haccept]) rfl rfl
  · rename_i q haccept
    obtain ⟨link, -, rfl⟩ := map_map_eq_ok.mp hstep
    exact htable (by simp [haccept]) rfl rfl
  · rename_i q r haccept
    split at hstep <;> cases hstep
    exact htable (by simp [haccept]) rfl rfl
  · rename_i q r haccept
    split at hstep
    · cases hstep
    split at hstep
    · cases hstep
      exact htable (by simp [haccept]) rfl rfl
    · split at hstep <;> cases hstep
      exact htable (by simp [haccept]) rfl rfl
  · cases hstep

/-- **The server forgets no host.** -/
theorem ServingInv.knows_act (h : ServingInv s) (hsteady : s.Steady a)
    (hstep : s.act mem a = some (.ok s')) (hp : s.Knows p) : s'.Knows p := by
  by_cases hinit : ∃ answer, a = .init answer
  · obtain ⟨answer, rfl⟩ := hinit
    exact h.knows_initStep hstep hp
  by_cases haccept : ∃ answer, a = .accept answer
  · obtain ⟨answer, rfl⟩ := haccept
    exact h.knows_acceptStep hsteady hstep hp
  obtain ⟨hframe, -⟩ := h.frame_act (fun answer heq => hinit ⟨answer, heq⟩)
    (fun answer heq => haccept ⟨answer, heq⟩) hsteady hstep
  rw [Knows, hframe.accept, hframe.table]
  exact hp.imp_left fun hp => hframe.backlog.subset hp

end ServerState

/-! ### The cluster -/

variable {ι : Type} [DecidableEq P] [DecidableEq ι]

namespace ClusterState

/-- The condition on a step that the server goes on. -/
def Steady (s : ClusterState P ι) : ClusterAct P ι → Prop
  | .serve a => s.server.Steady a
  | _ => True

omit [DecidableEq P] [DecidableEq ι] in
instance (s : ClusterState P ι) : ∀ a : ClusterAct P ι, Decidable (s.Steady a)
  | .serve a => inferInstanceAs (Decidable (s.server.Steady a))
  | .send _ _ | .land _ _ | .sent _ _ _ => .isTrue trivial

/-- The steps the server takes when it is left to itself. -/
def Proceeds (s : ClusterState P ι) : ClusterAct P ι → Prop
  | .serve a => s.server.Proceeds a
  | _ => False

omit [DecidableEq P] [DecidableEq ι] in
/-- In a steady step of the cluster the step of each connection is steady. -/
theorem steady_of_at {s : ClusterState P ι} {p : P} {a : ClusterAct P ι} {b : EndToEndAct ι}
    (ha : s.Steady a) (hat : a.At s p b) : (s.endsAt p).Steady b := by
  cases b with
  | receive b =>
    cases a with
    | serve a =>
      cases b with
      | create answer =>
        cases a with
        | accept answer' =>
          obtain ⟨haccept, rfl⟩ := hat
          have hserves := ha.2 (by simp [haccept])
          cases answer with
          | ret r =>
            obtain rfl : r = 0 := hserves.resolve_left (by simp)
            exact fun _ => le_rfl
          | _ => trivial
        | _ => exact hat.elim
      | poll answer =>
        cases a with
        | poll q answer' =>
          obtain ⟨rfl, rfl⟩ := hat
          cases answer with
          | ret r => exact ha
          | _ => trivial
        | _ => exact hat.elim
      | handle pool =>
        cases a with
        | handle q => exact hat.2.trans ha
        | _ => exact hat.elim
      | _ => trivial
    | _ => exact hat.elim
  | _ => trivial

variable {calls : P → ι → SendCall} {first : P → UInt32} {s s' : ClusterState P ι}

/-- What a step of the cluster is to the server. -/
theorem act_of_step {a : ClusterAct P ι} (ha : s.Steady a)
    (hstep : clusterStep calls s a = some (.ok s')) :
    s'.server = s.server ∨ ∃ b, s.server.Steady b ∧ s.server.act id b = some (.ok s'.server) := by
  cases a with
  | send p a =>
    obtain ⟨w, -, rfl⟩ := map_map_eq_ok.mp hstep
    exact .inl rfl
  | land p old =>
    simp only [clusterStep] at hstep
    split at hstep
    · obtain ⟨server', hserver, rfl⟩ := map_map_eq_ok.mp hstep
      exact .inr ⟨.add p _, trivial, (serverStep_ok.mp hserver).2⟩
    · cases hstep
  | sent p chunk byteLen =>
    obtain ⟨server', hserver, rfl⟩ := map_map_eq_ok.mp hstep
    exact .inr ⟨.add p _, trivial, (serverStep_ok.mp hserver).2⟩
  | serve a =>
    have hadd : ∀ p wc, a ≠ .add p wc := by
      rintro p wc rfl
      cases hstep
    rw [clusterStep_serve calls s hadd] at hstep
    obtain ⟨server', hserver, rfl⟩ := map_map_eq_ok.mp hstep
    exact .inr ⟨a, ha, (serverStep_ok.mp hserver).2⟩

/-- What a step the server takes by itself is to the server. -/
theorem act_of_proceeds {a : ClusterAct P ι} (ha : s.Proceeds a)
    (hstep : clusterStep calls s a = some (.ok s')) :
    ∃ b, s.server.Proceeds b ∧ s.server.act id b = some (.ok s'.server) := by
  cases a with
  | serve a =>
    have hadd : ∀ p wc, a ≠ .add p wc := by
      rintro p wc rfl
      exact ha.elim
    rw [clusterStep_serve calls s hadd] at hstep
    obtain ⟨server', hserver, rfl⟩ := map_map_eq_ok.mp hstep
    exact ⟨a, ha, (serverStep_ok.mp hserver).2⟩
  | _ => exact ha.elim

omit [DecidableEq P] [DecidableEq ι] in
/-- A step of the cluster that proceeds is steady. -/
theorem Steady.of_proceeds {a : ClusterAct P ι} (ha : s.Proceeds a) : s.Steady a := by
  cases a with
  | serve a => exact ServerState.Proceeds.steady ha
  | _ => trivial

/-- The server goes on in every such run. -/
theorem servingInv_of_reachable (hs : (cluster calls first).ReachableUnder Steady s) :
    s.server.ServingInv := by
  have hinit : (cluster calls first).init.server.ServingInv := .start
  refine hs.invariant hinit fun s a s' _ (h : s.server.ServingInv) ha hstep => ?_
  show s'.server.ServingInv
  obtain heq | ⟨b, hb, hact⟩ := act_of_step ha hstep
  · exact heq ▸ h
  · exact h.act hb hact

/-- What is known of each connection. -/
theorem runInv_endsAt [Fintype ι] (hcard : Fintype.card ι < 2 ^ 32)
    (hmsg : ∀ p i, 0 < (calls p i).bytes.length ∧ (calls p i).bytes.length < 2 ^ 31)
    (hs : (cluster calls first).ReachableUnder Steady s) (p : P) :
    RunInv (calls p) (first p) (s.endsAt p) :=
  runInv_of_reachable hcard (hmsg p)
    ((cluster_projects calls first p fun _ _ _ => steady_of_at).reachable hs)

/-- A step the server can take is one of the cluster. -/
theorem stepUnder_of_act (first : P → UInt32) (h : s.server.ServingInv)
    {a : ServerAct P RdmaChunk} {server' : ServerState P RdmaChunk} (ha : s.server.Proceeds a)
    (hact : s.server.act id a = some (.ok server')) :
    ∃ s', (cluster calls first).StepUnder Proceeds s s' := by
  have hadd : ∀ p wc, a ≠ .add p wc := by
    rintro p wc rfl
    exact ha.elim
  refine ⟨⟨server', s.note a⟩, .serve a, ha, ?_⟩
  show clusterStep calls s (.serve a) = _
  rw [clusterStep_serve calls s hadd]
  exact map_map_eq_ok.mpr ⟨server', serverStep_ok.mpr ⟨by simp [h.freed], hact⟩, rfl⟩

/-- Where the server stops, each connection does. -/
theorem endsAt_stops (first : P → UInt32) (h : s.server.ServingInv)
    (hpool : s.server.threadPool = .running)
    (hlast : ∀ s', ¬ (cluster calls first).StepUnder Proceeds s s') (p : P)
    (e : EndToEndState ι) :
    ¬ (endToEnd (calls p) (first p)).StepUnder EndToEndState.Proceeds (s.endsAt p) e := by
  have hstop : ∀ {a server'}, s.server.Proceeds a → s.server.act id a ≠ some (.ok server') := by
    intro a server' ha hact
    obtain ⟨s', hs'⟩ := stepUnder_of_act first h ha hact
    exact hlast s' hs'
  rintro ⟨a, ha, hstep⟩
  cases a with
  | receive b =>
    have hadd : ∀ wc, b ≠ .add wc := by
      rintro wc rfl
      exact ha.elim
    obtain ⟨t, ht, -⟩ :=
      map_map_eq_ok.mp ((endToEndStep_receive (calls p) (s.endsAt p) hadd).symm.trans hstep)
    cases b with
    | poll answer => exact hstop (a := .poll p answer) ha (map_map_eq_ok.mpr ⟨t, ht, rfl⟩)
    | handle pool =>
      obtain rfl : pool = .running := ha
      refine hstop (a := .handle p) hpool (map_map_eq_ok.mpr ⟨t, ?_, rfl⟩)
      rw [hpool]
      exact ht
    | startItem =>
      simp only [transportStep] at ht
      split at ht <;> cases ht
      exact hstop (a := .startItem p) trivial (if_pos ‹_›)
    | worker i =>
      obtain ⟨work, hwork, -⟩ := map_map_eq_ok.mp ht
      exact hstop (a := .worker p i) trivial (map_map_eq_ok.mpr ⟨work, hwork, rfl⟩)
    | _ => exact ha.elim
  | _ => exact ha.elim

/-- The server listens, has set up the connections of all hosts that it knew of before, and has
called back what has landed. -/
structure Drained (calls : P → ι → SendCall) (s s' : ClusterState P ι) : Prop where
  /-- `init_server` has returned. -/
  returned : s'.server.init = .returned
  /-- `accept_thread` waits for the next connection. -/
  accept : s'.server.accept = .accept
  /-- No connection waits. -/
  backlog : s'.server.backlog = []
  /-- Every host that has asked for a connection is in the table. -/
  known : ∀ p, s.server.Knows p → p ∈ s'.server.table
  /-- Every connection is ready, and its threads run. -/
  ready : ∀ p ∈ s'.server.table,
    (s'.server.transports p).isReady = true ∧ (s'.server.transports p).Up
  /-- If all frames of a host have landed, all its messages were called back, unless
  `handle_thread` is at its assertion, or a wake-up was lost. -/
  calledBack : ∀ p ∈ s'.server.table, (s'.endsAt p).AllLanded →
    (s'.server.transports p).link.handover.AtAssertion ∨
      (s'.server.transports p).link.handover.Stalled ∨ (s'.endsAt p).AllCalledBack (calls p)

/-- Where the server stops, the cluster is drained. -/
theorem drained_of_stop [Fintype ι] (hcard : Fintype.card ι < 2 ^ 32)
    (hmsg : ∀ p i, 0 < (calls p i).bytes.length ∧ (calls p i).bytes.length < 2 ^ 31)
    (hs : (cluster calls first).ReachableUnder Steady s')
    (hlast : ∀ s'', ¬ (cluster calls first).StepUnder Proceeds s' s'')
    (hknows : ∀ p, s.server.Knows p → s'.server.Knows p) : Drained calls s s' := by
  have h := servingInv_of_reachable hs
  have hrun := runInv_endsAt hcard hmsg hs
  have hstop : ∀ {a server'}, s'.server.Proceeds a → s'.server.act id a ≠ some (.ok server') := by
    intro a server' ha hact
    obtain ⟨s'', hs''⟩ := stepUnder_of_act first h ha hact
    exact hlast s'' hs''
  have hinit : s'.server.init = .returned := by
    by_contra hinit
    obtain ⟨answer, ha, server', hstep⟩ := ServerState.initStep_enabled hinit
    exact hstop ha hstep
  obtain ⟨haccept, hbacklog⟩ : s'.server.accept = .accept ∧ s'.server.backlog = [] := by
    by_contra hwaits
    obtain ⟨answer, ha, server', hstep⟩ :=
      h.acceptStep_enabled hinit (fun p => (hrun p).asks) hwaits
    exact hstop ha hstep
  have hready : ∀ p ∈ s'.server.table,
      (s'.server.transports p).isReady = true ∧ (s'.server.transports p).Up := by
    intro p hp
    -- `rdma_create_connect` has returned, so it has started both threads
    have hcreated := (h.accepts.made p hp).resolve_right (by simp [haccept])
    have hthreads := h.threads p
    refine ⟨(h.accepts.ready p hp).resolve_right (by rw [haccept]; rintro ⟨⟩),
      ?_, hthreads.pollRuns, ?_, hthreads.handleRuns⟩
    · exact hthreads.pollStarted (by rw [hcreated]; trivial)
    · exact hthreads.handleStarted (by rw [hcreated]; trivial)
  refine ⟨hinit, haccept, hbacklog, fun p hp => ?_, hready, fun p hp hlanded => ?_⟩
  · obtain hp | hp | hp := hknows p hp
    · rw [hbacklog] at hp
      cases hp
    · rw [haccept] at hp
      cases hp
    · exact hp
  · exact (hrun p).allCalledBack_of_rest hcard (hmsg p)
      (endsAt_stops first h (h.pool hinit) hlast p) (hready p hp).2 hlanded

end ClusterState

open ClusterState

/-- **The whole server comes to rest, and has done its work then.** From any moment of its life
before it is destroyed, with any number of hosts that connect and send to it, a server that is left
to itself comes to rest, in every order of the steps of its threads; and wherever it comes to rest,
it listens, the connection of every host that had asked for one is up, and of every host whose
frames have all landed every message was called back, once and whole, in the order of the first
frames: unless the `handle_thread` of that host is at its assertion with the flag down, or a batch
of it waits for a wake-up that was lost. -/
theorem server_at_rest [Finite P] [Fintype ι] (calls : P → ι → SendCall) (first : P → UInt32)
    (s : ClusterState P ι) (hcard : Fintype.card ι < 2 ^ 32)
    (hmsg : ∀ p i, 0 < (calls p i).bytes.length ∧ (calls p i).bytes.length < 2 ^ 31)
    (hs : (cluster calls first).ReachableUnder Steady s) :
    (cluster calls first).Ends Proceeds s ∧
    ∀ s', Relation.ReflTransGen ((cluster calls first).StepUnder Proceeds) s s' →
      (∀ s'', ¬ (cluster calls first).StepUnder Proceeds s' s'') → Drained calls s s' := by
  refine ⟨?_, fun s' hsteps hlast => ?_⟩
  · refine Machine.ends_of_measure wellFounded_lt (fun s => s.server.serving)
      ((cluster calls first).ReachableUnder Steady) ?_ hs
    rintro s s' hs ⟨a, ha, hstep⟩
    have hrun := runInv_endsAt hcard hmsg hs
    obtain ⟨b, hb, hserver⟩ := act_of_proceeds ha hstep
    exact ⟨hs.next (.of_proceeds ha) hstep, (servingInv_of_reachable hs).serving_lt
      (fun p => (hrun p).ends.shape) (fun p => (hrun p).net.work) hb hserver⟩
  · refine drained_of_stop hcard hmsg (hs.steps (fun _ _ => Steady.of_proceeds) hsteps) hlast
      fun p hp => ?_
    -- no step forgets a host
    clear hlast
    induction hsteps with
    | refl => exact hp
    | tail hsteps hstep ih =>
      obtain ⟨a, ha, hnext⟩ := hstep
      obtain ⟨b, hb, hserver⟩ := act_of_proceeds ha hnext
      have hs' := hs.steps (fun _ _ => Steady.of_proceeds) hsteps
      exact (servingInv_of_reachable hs').knows_act hb.steady hserver ih

/-- A host connects to a server that has just started. -/
theorem server_at_rest_firstHost : ∃ s : ClusterState Unit Unit,
    s.server.accept = .accept ∧ (s.server.transports ()).isReady = true := by
  obtain ⟨s, hexec, hbacklog⟩ : ∃ s, (cluster (fun _ _ : Unit => oneByte) fun _ => 0).exec Steady
      (cluster (fun _ _ : Unit => oneByte) fun _ => 0).init
      [.serve (.init (.pointer true)), .serve (.init (.ret 3)), .serve (.init (.ret 0)),
        .serve (.init (.ret 0)), .serve (.init (.ret 0)), .serve (.connect ())] = some s ∧
      s.server.backlog = [()] := ⟨_, rfl, rfl⟩
  have hs := Machine.reachableUnder_of_exec _ .init hexec
  obtain ⟨hends, hdrained⟩ := server_at_rest (fun _ _ => oneByte) (fun _ => 0) s (by decide)
    (fun _ _ => by decide) hs
  obtain ⟨s', hsteps, hlast⟩ := hends.exists_last
  have h := hdrained s' hsteps hlast
  have hknown := h.known () (.inl (by simp [hbacklog]))
  exact ⟨s', h.accept, (h.ready () hknown).1⟩

end SparkRdma
