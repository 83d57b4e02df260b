import SparkRdma.Transport.Quiescence

/-! # A server and the hosts that send to it

In the machine `cluster` any number of hosts send to one server, each by any number of calls, while
the server starts up, accepts their connections one after the other, receives from all of them with
its one pool of worker threads, and is destroyed. Nothing of it disturbs a connection: what happens
to it is what could happen were it alone.

* **`cluster`** — the machine.
* **`cluster_projects`** — the runs of the cluster show, for each host, runs of `endToEnd`.
* **`faultsAt_act`** — a fault in the server is a fault in a connection, or one of its own.
* **`called_back_for_every_host`** — so every host's messages are called back whole and in order. -/

namespace SparkRdma

open Interleaving

/-! ### The machine -/

/-- A server, and the sending ends of its connections. -/
structure ClusterState (P ι : Type) where
  /-- The server. -/
  server : ServerState P RdmaChunk
  /-- The sending ends. -/
  sending : P → SendingEnd ι

/-- The steps. -/
inductive ClusterAct (P ι : Type)
  /-- A send call of host `p` takes its next step. -/
  | send (p : P) (a : SendAct ι)
  /-- The next frame of host `p` lands in a receive, whose chunk was `old`. -/
  | land (p : P) (old : RdmaChunk)
  /-- A send of the server to host `p` completes. -/
  | sent (p : P) (chunk : RdmaChunk) (byteLen : UInt32)
  /-- The server takes any other step. -/
  | serve (a : ServerAct P RdmaChunk)

namespace ClusterState

variable {P ι : Type}

/-- The connection of host `p`. -/
def endsAt (s : ClusterState P ι) (p : P) : EndToEndState ι :=
  ⟨s.sending p, s.server.transports p⟩

variable [DecidableEq P]

/-- What becomes of the frames in a step of the server. -/
def note (s : ClusterState P ι) : ServerAct P RdmaChunk → P → SendingEnd ι
  | .handle p => Function.update s.sending p
      ((s.sending p).note (s.server.transports p) (.handle s.server.threadPool))
  | _ => s.sending

/-- The condition on a step that no `handle_thread` runs but while there is a pool. -/
def PoolUp (s : ClusterState P ι) : ClusterAct P ι → Prop
  | .serve a => s.server.PoolUp a
  | _ => True

end ClusterState

variable {P ι : Type} [DecidableEq P] [DecidableEq ι]

/-- One step. -/
def clusterStep (calls : P → ι → SendCall) (s : ClusterState P ι) :
    ClusterAct P ι → Option (Except CFault (ClusterState P ι))
  | .send p a => ((s.sending p).step (calls p) a).map <| Except.map fun w =>
      { s with sending := Function.update s.sending p w }
  | .land p old =>
      match (s.sending p).wire[(s.sending p).landed]? with
      | some frame => (serverStep id s.server (.add p (frame.completion old))).map <|
          Except.map fun server => ⟨server, Function.update s.sending p
            { s.sending p with landed := (s.sending p).landed + 1 }⟩
      | none => none
  | .sent p chunk byteLen =>
      (serverStep id s.server (.add p ⟨chunk, true, .send, byteLen⟩)).map <|
        Except.map fun server => { s with server := server }
  | .serve (.add _ _) => none
  | .serve a => (serverStep id s.server a).map <| Except.map fun server => ⟨server, s.note a⟩

/-- The server before `init_server`, and the hosts before their calls, the counter of host `p`
standing at `first p`. -/
def cluster (calls : P → ι → SendCall) (first : P → UInt32) :
    Machine (ClusterState P ι) CFault (ClusterAct P ι) where
  init := ⟨.start, fun p => .start ι (first p)⟩
  step := clusterStep calls

/-- A step other than a completion that is added is the server's. -/
theorem clusterStep_serve (calls : P → ι → SendCall) (s : ClusterState P ι)
    {a : ServerAct P RdmaChunk} (hadd : ∀ p wc, a ≠ .add p wc) :
    clusterStep calls s (.serve a) = (serverStep id s.server a).map
      (Except.map fun server => ⟨server, s.note a⟩) := by
  cases a with
  | add p wc => exact (hadd p wc rfl).elim
  | _ => rfl

/-! ### One connection -/

/-- The step of the connection of `p` that a step of the cluster may be. -/
def ClusterAct.At (s : ClusterState P ι) (p : P) : ClusterAct P ι → EndToEndAct ι → Prop
  | .send q a, .send a' => q = p ∧ a' = a
  | .land q old, .land old' => q = p ∧ old' = old
  | .sent q chunk byteLen, .sent chunk' byteLen' => q = p ∧ chunk' = chunk ∧ byteLen' = byteLen
  | .serve a, .receive b => a.At s.server p b
  | _, _ => False

namespace ClusterState

variable {calls : P → ι → SendCall} {s s' : ClusterState P ι} {p : P}

/-- A step of the cluster leaves the connection of `p` alone, or is a step of it. -/
def StepsAt (calls : P → ι → SendCall) (s s' : ClusterState P ι) (p : P)
    (a : ClusterAct P ι) : Prop :=
  s'.endsAt p = s.endsAt p ∨
    ∃ b, a.At s p b ∧ endToEndStep (calls p) (s.endsAt p) b = some (.ok (s'.endsAt p))

omit [DecidableEq ι] in
/-- A connection of which both ends were written, or another one. -/
theorem endsAt_update (server : ServerState P RdmaChunk) (sending : P → SendingEnd ι) (q p : P)
    (t : ServedTransport RdmaChunk) (w : SendingEnd ι) :
    (ClusterState.mk (server.setTransport q t) (Function.update sending q w)).endsAt p
      = if p = q then ⟨w, t⟩ else ⟨sending p, server.transports p⟩ := by
  by_cases heq : p = q
  · subst heq
    simp [endsAt]
  · simp [endsAt, ServerState.setTransport_of_ne server t heq, heq]

/-- A step that writes both ends of the connection of `q`. -/
theorem stepsAt_update {q : P} {t : ServedTransport RdmaChunk} {w : SendingEnd ι}
    {a : ClusterAct P ι} {b : EndToEndAct ι} (hat : a.At s q b)
    (hstep : endToEndStep (calls q) (s.endsAt q) b = some (.ok ⟨w, t⟩)) :
    s.StepsAt calls ⟨s.server.setTransport q t, Function.update s.sending q w⟩ p a := by
  rw [StepsAt, endsAt_update]
  by_cases heq : p = q
  · subst heq
    exact .inr ⟨b, hat, by rw [if_pos rfl, hstep]⟩
  · exact .inl (by rw [if_neg heq, endsAt])

omit [DecidableEq ι] in
/-- A completion is added to the queue of `q`. -/
theorem addStep_ok {server' : ServerState P RdmaChunk} {q : P} {wc : Wc RdmaChunk}
    (hstep : serverStep id s.server (.add q wc) = some (.ok server')) :
    ∃ t, transportStep id (s.server.transports q) (.add wc) = some (.ok t) ∧
      server' = s.server.setTransport q t := by
  have hact := (serverStep_ok.mp hstep).2
  simp only [ServerState.act] at hact
  split at hact <;> cases hact
  rename_i hqp
  exact ⟨_, if_pos hqp.1, rfl⟩

omit [DecidableEq P] [DecidableEq ι] in
/-- In a step that is not `handle_thread`'s the frames stay where they are. -/
theorem note_of_at {a : ServerAct P RdmaChunk} {b : TransportAct RdmaChunk}
    (hhandle : ∀ q, a ≠ .handle q) (hat : a.At s.server p b) (w : SendingEnd ι)
    (t : ServedTransport RdmaChunk) : w.note t b = w := by
  cases b with
  | handle pool =>
    cases a with
    | handle q => exact (hhandle q rfl).elim
    | _ => cases hat
  | _ => rfl

/-- **A step of the cluster** leaves a connection alone, or is a step of it. -/
theorem stepsAt_step {a : ClusterAct P ι} (hstep : clusterStep calls s a = some (.ok s')) :
    s.StepsAt calls s' p a := by
  cases a with
  | send q a =>
    obtain ⟨w, hw, rfl⟩ := map_map_eq_ok.mp hstep
    have hsame : s.server = s.server.setTransport q (s.server.transports q) := by
      simp [ServerState.setTransport]
    rw [hsame]
    refine stepsAt_update (b := .send a) ⟨rfl, rfl⟩ ?_
    simp only [endToEndStep, endsAt, hw]
    rfl
  | land q old =>
    simp only [clusterStep] at hstep
    split at hstep
    · rename_i frame hframe
      obtain ⟨server', hserver, rfl⟩ := map_map_eq_ok.mp hstep
      obtain ⟨t, ht, rfl⟩ := addStep_ok hserver
      refine stepsAt_update (b := .land old) ⟨rfl, rfl⟩ ?_
      simp only [endToEndStep, endsAt, hframe, ht]
      rfl
    · cases hstep
  | sent q chunk byteLen =>
    obtain ⟨server', hserver, rfl⟩ := map_map_eq_ok.mp hstep
    obtain ⟨t, ht, rfl⟩ := addStep_ok hserver
    have hsame : s.sending = Function.update s.sending q (s.sending q) := by simp
    rw [hsame]
    refine stepsAt_update (b := .sent chunk byteLen) ⟨rfl, rfl, rfl⟩ ?_
    simp only [endToEndStep, endsAt, ht]
    rfl
  | serve a =>
    have hadd : ∀ p wc, a ≠ .add p wc := by
      rintro p wc rfl
      cases hstep
    rw [clusterStep_serve calls s hadd] at hstep
    obtain ⟨server', hserver, rfl⟩ := map_map_eq_ok.mp hstep
    have hact := (serverStep_ok.mp hserver).2
    by_cases hhandle : ∃ q, a = .handle q
    · obtain ⟨q, rfl⟩ := hhandle
      obtain ⟨t, ht, rfl⟩ := map_map_eq_ok.mp hact
      refine stepsAt_update (b := .receive (.handle s.server.threadPool)) ⟨rfl, rfl⟩ ?_
      rw [endToEndStep_receive _ _ (by simp)]
      exact map_map_eq_ok.mpr ⟨t, ht, rfl⟩
    · have hhandle : ∀ q, a ≠ .handle q := fun q heq => hhandle ⟨q, heq⟩
      have hnote : s.note a = s.sending := by
        cases a with
        | handle q => exact (hhandle q rfl).elim
        | _ => rfl
      obtain heq | ⟨b, hat, hb⟩ := ServerState.stepsAt_act (p := p) hact
      · exact .inl (by rw [endsAt, hnote, heq, endsAt])
      · have hnot : ∀ wc, b ≠ .add wc := by
          rintro wc rfl
          cases a with
          | add q wc' => exact hadd q wc' rfl
          | _ => cases hat
        refine .inr ⟨.receive b, hat, ?_⟩
        rw [endToEndStep_receive _ _ hnot]
        refine map_map_eq_ok.mpr ⟨_, hb, ?_⟩
        rw [endsAt, hnote]
        exact congrArg (EndToEndState.mk · _) (note_of_at hhandle hat ..).symm

end ClusterState

/-- **Every connection of the cluster runs on its own.** -/
theorem cluster_projects (calls : P → ι → SendCall) (first : P → UInt32) (p : P)
    {C : ClusterState P ι → ClusterAct P ι → Prop}
    {D : EndToEndState ι → EndToEndAct ι → Prop}
    (hCD : ∀ s a b, C s a → a.At s p b → D (s.endsAt p) b) :
    (cluster calls first).Projects C (endToEnd (calls p) (first p)) D fun s => s.endsAt p where
  init := rfl
  step {s a s'} _ hC hstep := by
    rcases ClusterState.stepsAt_step (p := p) hstep with heq | ⟨b, hat, hnext⟩
    · exact .inl heq
    · exact .inr ⟨b, hCD s a b hC hat, hnext⟩

/-! ### Faults -/

namespace ServerState

variable {χ : Type} {mem : χ → RdmaChunk} {s : ServerState P χ} {answer : Answer} {e : CFault}

/-- How a step of the server can end in a fault that is in none of its connections: a call fails,
`rdma_complete_connect` does not return 0, `accept_thread` locks what `destroy_server` has
destroyed, or `destroy_server` destroys a queue pair that was not created. -/
def OwnFault (s : ServerState P χ) : ServerAct P χ → Prop
  | .init answer => answer.Fails
  | .accept answer => answer.Fails ∨ (∃ p, s.accept = .complete p ∧ answer ≠ .ret 0) ∨
      ∃ p ∈ s.shut, s.accept = .lockCreate p ∨ s.accept = .complete p
  | .destroy answer => answer.Fails ∨
      ∃ entries p, s.destroy = .shut entries p .qp ∧ ¬ (s.transports p).link.HasQp
  | _ => False

omit [DecidableEq P] in
/-- A step of `init_server` that ends in a fault. -/
theorem initStep_error (hstep : s.initStep answer = some (.error e)) : answer.Fails := by
  unfold initStep at hstep
  split at hstep
  case h_8 | h_9 => cases hstep
  case h_1 | h_6 =>
    split at hstep <;> cases hstep
    exact Bool.eq_false_iff.mpr ‹_›
  all_goals
    split at hstep <;> cases hstep
    exact ‹_ < _›

/-- A step of `accept_thread` that ends in a fault. -/
theorem acceptStep_error (hstep : s.acceptStep answer = some (.error e)) :
    s.OwnFault (.accept answer) ∨ ∃ p b, ServerAct.At s p (.accept answer) b ∧
      transportStep mem (s.transports p) b = some (.error e) := by
  unfold acceptStep at hstep
  split at hstep
  · split at hstep
    · cases hstep
    · split at hstep <;> cases hstep
  · split at hstep
    · cases hstep
    · split at hstep <;> cases hstep
      exact .inl (.inl (Bool.eq_false_iff.mpr ‹_›))
  · rename_i p haccept
    split at hstep <;> cases hstep
    exact .inl (.inr (.inr ⟨p, ‹_›, .inl haccept⟩))
  · rename_i p haccept
    refine .inr ⟨p, .create _, ⟨haccept, rfl⟩, ?_⟩
    exact map_map_eq_error.mpr (map_map_eq_error.mp hstep)
  · split at hstep <;> cases hstep
    exact .inl (.inl ‹_ < _›)
  · rename_i p r haccept
    split at hstep
    · exact .inl (.inr (.inr ⟨p, ‹_›, .inr haccept⟩))
    split at hstep
    · cases hstep
    · split at hstep <;> cases hstep
      rename_i hr
      refine .inl (.inr (.inl ⟨p, haccept, ?_⟩))
      rintro ⟨⟩
      exact hr rfl
  · cases hstep

omit [DecidableEq P] in
/-- A step of `destroy_server` that ends in a fault. -/
theorem destroyStep_error [DecidableEq P] (hstep : s.destroyStep answer = some (.error e)) :
    s.OwnFault (.destroy answer) := by
  unfold destroyStep at hstep
  split at hstep
  case h_3 _ entries p pc hdestroy =>
    unfold shutStep at hstep
    split at hstep
    case h_6 =>
      split at hstep
      · exact .inr ⟨entries, p, hdestroy, ‹_›⟩
      · split at hstep <;> cases hstep
        exact .inl ‹_ < _›
    case h_7 =>
      split at hstep
      · cases hstep
      · split at hstep <;> cases hstep
    case h_4 => split at hstep <;> cases hstep
    all_goals cases hstep
  case h_1 | h_2 => split at hstep <;> cases hstep
  all_goals cases hstep

/-- **A fault in the server** is one in a connection, or one of its own. -/
theorem faultsAt_act {a : ServerAct P χ} (hstep : s.act mem a = some (.error e)) :
    s.OwnFault a ∨ ∃ p b, a.At s p b ∧ transportStep mem (s.transports p) b = some (.error e) := by
  cases a with
  | init answer => exact .inl (initStep_error hstep)
  | accept answer => exact acceptStep_error hstep
  | destroy answer => exact .inl (destroyStep_error hstep)
  | poll p answer => exact .inr ⟨p, .poll answer, ⟨rfl, rfl⟩, map_map_eq_error.mp hstep⟩
  | handle p => exact .inr ⟨p, .handle s.threadPool, ⟨rfl, rfl⟩, map_map_eq_error.mp hstep⟩
  | worker p i =>
    exact .inr ⟨p, .worker i, ⟨rfl, rfl⟩, map_map_eq_error.mpr (map_map_eq_error.mp hstep)⟩
  | spurious p =>
    simp only [act] at hstep
    split at hstep
    · refine .inr ⟨p, .spurious, rfl, ?_⟩
      rw [transportStep, if_pos ‹_›]
      exact map_map_eq_error.mpr (map_map_eq_error.mp hstep)
    · cases hstep
  | visit p =>
    simp only [act] at hstep
    split at hstep
    · split at hstep <;> cases hstep
    · cases hstep
  | _ =>
    simp only [act] at hstep
    split at hstep <;> cases hstep

end ServerState

namespace ClusterState

/-- How a step of the cluster can end in a fault: it uses what was freed, the fault is the server's
own, a call of `poll_thread` fails, or `handle_thread` is at its assertion with the flag down. -/
def MayFault (s : ClusterState P ι) : ClusterAct P ι → Prop
  | .serve a => (∃ o ∈ s.server.touched a, o ∈ s.server.freed) ∨ s.server.OwnFault a ∨
      match a with
      | .poll _ answer => answer.Fails
      | .handle p => (s.server.transports p).link.handover.AtAssertion
      | _ => False
  | _ => False

omit [DecidableEq P] [DecidableEq ι] in
/-- The pool a step of a connection finds is the server's. -/
theorem poolRuns_of_at {s : ClusterState P ι} {p : P} {a : ClusterAct P ι} {b : EndToEndAct ι}
    (hup : s.PoolUp a) (hat : a.At s p b) : (s.endsAt p).PoolRuns b := by
  cases b with
  | receive b =>
    cases b with
    | handle pool =>
      cases a with
      | serve a =>
        cases a with
        | handle q => exact hat.2.trans hup
        | _ => cases hat
      | _ => cases hat
    | _ => trivial
  | _ => trivial

variable [Fintype ι] {calls : P → ι → SendCall} {first : P → UInt32} {s : ClusterState P ι}

omit [Fintype ι] in
/-- Each connection is where it could be alone. -/
theorem endsAt_reachable (hs : (cluster calls first).ReachableUnder PoolUp s) (p : P) :
    (endToEnd (calls p) (first p)).ReachableUnder EndToEndState.PoolRuns (s.endsAt p) :=
  (cluster_projects calls first p fun _ _ _ => poolRuns_of_at).reachable hs

/-- A step ends in a fault only as `MayFault` says. -/
theorem mayFault_of_clusterStep (hcard : Fintype.card ι < 2 ^ 32)
    (hmsg : ∀ p i, 0 < (calls p i).bytes.length ∧ (calls p i).bytes.length < 2 ^ 31)
    (hs : (cluster calls first).ReachableUnder PoolUp s) {a : ClusterAct P ι} {e : CFault}
    (hup : s.PoolUp a) (hstep : clusterStep calls s a = some (.error e)) : s.MayFault a := by
  -- the step of a connection in which the fault is
  have hends : ∀ p b, a.At s p b →
      endToEndStep (calls p) (s.endsAt p) b = some (.error e) → (s.endsAt p).MayFault b :=
    fun p b hat hb => mayFault_of_error hcard (hmsg p) (endsAt_reachable hs p)
      (poolRuns_of_at hup hat) hb
  -- adding a completion is none
  have hadd : ∀ p wc, serverStep id s.server (.add p wc) ≠ some (.error e) := by
    intro p wc hserver
    simp only [serverStep, ServerState.touched, ServerState.act] at hserver
    split at hserver
    · split at hserver <;> cases hserver
    · rename_i hfreed
      exact hfreed (by simp)
  cases a with
  | send p a =>
    refine (hends p (.send a) ⟨rfl, rfl⟩ ?_).elim
    exact map_map_eq_error.mpr (map_map_eq_error.mp hstep)
  | land p old =>
    simp only [clusterStep] at hstep
    split at hstep
    · exact (hadd _ _ (map_map_eq_error.mp hstep)).elim
    · cases hstep
  | sent p chunk byteLen => exact (hadd _ _ (map_map_eq_error.mp hstep)).elim
  | serve a =>
    have hnot : ∀ p wc, a ≠ .add p wc := by
      rintro p wc rfl
      cases hstep
    rw [clusterStep_serve calls s hnot] at hstep
    have hserver := map_map_eq_error.mp hstep
    unfold serverStep at hserver
    split at hserver
    · obtain hown | ⟨p, b, hat, hb⟩ := ServerState.faultsAt_act hserver
      · exact .inr (.inl hown)
      · have hb' : ∀ wc, b ≠ .add wc := by
          rintro wc rfl
          cases a with
          | add q wc' => exact hnot q wc' rfl
          | _ => cases hat
        have hfault := hends p (.receive b) hat (by
          rw [endToEndStep_receive _ _ hb']
          exact map_map_eq_error.mpr hb)
        cases b with
        | create answer =>
          cases a with
          | accept answer' =>
            obtain ⟨-, rfl⟩ := hat
            exact .inr (.inl (.inl hfault))
          | _ => cases hat
        | poll answer =>
          cases a with
          | poll q answer' =>
            obtain ⟨-, rfl⟩ := hat
            exact .inr (.inr hfault)
          | _ => cases hat
        | handle pool =>
          cases a with
          | handle q =>
            obtain ⟨rfl, -⟩ := hat
            exact .inr (.inr hfault)
          | _ => cases hat
        | _ => exact hfault.elim
    · rename_i hfreed
      simp only [not_forall, not_not] at hfreed
      obtain ⟨o, ho, hfreed⟩ := hfreed
      exact .inl ⟨o, ho, hfreed⟩

instance (s : ClusterState P ι) : ∀ a : ClusterAct P ι, Decidable (s.PoolUp a)
  | .serve (.handle _) => decEq s.server.threadPool .running
  | .serve (.init _) | .serve (.connect _) | .serve (.accept _) | .serve (.add _ _)
  | .serve (.poll _ _) | .serve (.spurious _) | .serve (.startItem _) | .serve (.worker _ _)
  | .serve (.quitPoll _) | .serve (.quitHandle _) | .serve .destroyServer | .serve (.visit _)
  | .serve (.destroy _) | .send _ _ | .land _ _ | .sent _ _ _ => .isTrue trivial

omit [Fintype ι] in
/-- What the server does to set itself and its connections up, it does while the hosts wait. -/
theorem reachable_of_setsUp {C : ServerState P RdmaChunk → ServerAct P RdmaChunk → Prop}
    {D : ClusterState P ι → ClusterAct P ι → Prop}
    (hCD : ∀ s a, C s.server a → D s (.serve a)) (hsetsUp : ∀ s a, C s a → a.SetsUp = true)
    {server : ServerState P RdmaChunk} (hs : (SparkRdma.server P id).ReachableUnder C server) :
    (cluster calls first).ReachableUnder D ⟨server, fun p => .start ι (first p)⟩ := by
  induction hs with
  | init => exact .init
  | @next server server' a _ hC hstep ih =>
    refine ih.next (hCD _ a hC) (?_ : clusterStep calls _ (.serve a) = _)
    have hup := hsetsUp server a hC
    cases a with
    | init answer | connect p | accept answer => exact map_map_eq_ok.mpr ⟨server', hstep, rfl⟩
    | _ => cases hup

end ClusterState

/-! ### The results -/

/-- **The hosts do not disturb one another.** In every run of a server with any number of hosts that
send to it, start-up, accepting and shut-down included, in which no `handle_thread` runs but while
there is a pool: for every host, the callbacks made for its messages are those of distinct messages
of its own, whole, in the order in which it posted their first frames; and a step ends in a fault
only as `MayFault` says, whatever the frames are and however they mix. -/
theorem called_back_for_every_host [Fintype ι] (calls : P → ι → SendCall) (first : P → UInt32)
    (s : ClusterState P ι) (hcard : Fintype.card ι < 2 ^ 32)
    (hmsg : ∀ p i, 0 < (calls p i).bytes.length ∧ (calls p i).bytes.length < 2 ^ 31)
    (hs : (cluster calls first).ReachableUnder ClusterState.PoolUp s) :
    (∀ p, ∃ order : List ι, order.Nodup ∧ order <+: (s.endsAt p).begun ∧
      (s.endsAt p).callbacks = order.map (callbackOf (calls p))) ∧
    ∀ a e, s.PoolUp a → (cluster calls first).step s a = some (.error e) → s.MayFault a :=
  ⟨fun p => callbacks_of_endToEnd hcard (hmsg p) (ClusterState.endsAt_reachable hs p),
    fun _ _ => ClusterState.mayFault_of_clusterStep hcard hmsg hs⟩

/-- A server with one host, from its start to the callback of a message of one byte. -/
theorem called_back_for_every_host_oneByte : ∃ s : ClusterState Unit Unit,
    (s.endsAt ()).callbacks = [⟨some [7], 1⟩] ∧ ∃ order : List Unit, order.Nodup ∧
      order <+: (s.endsAt ()).begun ∧
      (s.endsAt ()).callbacks = order.map (callbackOf fun _ => oneByte) := by
  have hsetUp : (cluster (fun _ _ : Unit => oneByte) fun _ => 0).ReachableUnder
      ClusterState.PoolUp
      ⟨firstConnection RdmaChunk true (.exchange ()) .created, fun _ => .start Unit 0⟩ := by
    refine ClusterState.reachable_of_setsUp (C := fun s a => s.freed = [] ∧ a.SetsUp = true)
      (fun s a hC => ?_) (fun s a hC => hC.2) (firstConnection_reachable id true)
    cases a with
    | handle p => cases hC.2
    | _ => trivial
  obtain ⟨s, hexec, hfreed, hv, hup, hworkers, hcallbacks⟩ : ∃ s,
      (cluster (fun _ _ : Unit => oneByte) fun _ => 0).exec ClusterState.PoolUp
      ⟨firstConnection RdmaChunk true (.exchange ()) .created, fun _ => .start Unit 0⟩
      [.serve (.accept (.ret 0)), .serve (.accept (.ret 0)),
        -- the message is sent while `handle_thread` goes to sleep
        .send () (.draw ()), .send () (.fill () [.blank]), .send () (.post ()),
        .serve (.handle ()), .serve (.handle ()), .land () .blank,
        -- one round of `poll_thread`, which posts another receive
        .serve (.poll () .pending), .serve (.poll () (.ret 0)), .serve (.poll () .pending),
        .serve (.poll () (.ret 0)), .serve (.poll () (.pointer true)),
        .serve (.poll () (.ret 1)), .serve (.poll () .pending),
        .serve (.poll () (.pointer true)), .serve (.poll () (.pointer true)),
        .serve (.poll () (.ret 0)), .serve (.poll () .pending), .serve (.poll () .pending),
        .serve (.poll () .pending),
        -- `handle_thread` wakes, and takes up the batch
        .serve (.handle ()), .serve (.handle ()), .serve (.handle ()), .serve (.handle ()),
        .serve (.handle ()), .serve (.handle ()), .serve (.handle ()),
        -- the work item
        .serve (.startItem ()), .serve (.worker () 0)] = some s ∧
      s.server.freed = [] ∧
      (s.server.transports ()).work.heap 0
        = some ⟨0, 1, [RdmaChunk.blank.land (messageFrame 0 [7] 0)]⟩ ∧
      (s.server.transports ()).work.isWorkRunning = 1 ∧
      (s.server.transports ()).work.workers = [.popped 0] ∧
      (s.server.transports ()).work.callbacks = [] := ⟨_, rfl, rfl, rfl, rfl, rfl, rfl⟩
  have hs := Machine.reachableUnder_of_exec _ hsetUp hexec
  have hcarries : CarriesFrom 0 [7] 0 [RdmaChunk.blank.land (messageFrame 0 [7] 0)] :=
    ⟨carries_land 0 [7] 0 .blank, trivial⟩
  have hdeliver := deliver_ok (v := ⟨0, 1, _⟩) (by decide) (by decide) hcarries rfl rfl
  obtain ⟨work, hwork⟩ := WorkState.deliverHead_of_complete 0 hup hv rfl hdeliver
  obtain ⟨-, v, callback, hv', -, hdeliver', hwork'⟩ := WorkState.deliverHead_ok hwork
  obtain rfl := Option.some.inj (hv.symm.trans hv')
  obtain rfl := Except.ok.inj (hdeliver.symm.trans hdeliver')
  have hact : s.server.act id (.worker () 0) = some (.ok (s.server.setTransport ()
      { s.server.transports () with work := work })) := by
    simp only [ServerState.act, WorkState.workerStep, hworkers, List.getElem?_cons_zero, hwork]
    rfl
  have hpool : s.PoolUp (.serve (.worker () 0)) := trivial
  have hs := hs.next hpool (map_map_eq_ok.mpr ⟨_, serverStep_ok.mpr ⟨by simp [hfreed], hact⟩, rfl⟩)
  refine ⟨_, ?_, (called_back_for_every_host (fun _ _ => oneByte) (fun _ => 0) _ (by decide)
    (fun _ _ => by decide) hs).1 ()⟩
  show work.callbacks = _
  rw [hwork', hcallbacks]
  rfl

end SparkRdma
