import SparkRdma.Transport.EndToEnd
import SparkRdma.Transport.Progress

/-! # What is called back, and what can fail

With the refinement of `network` at hand, what holds there is read off for both ends together: as
far as messages were called back, they are the messages of the calls, each once, in the order in
which their first frames were posted; and the receiving end ends in a fault only where a call of
verbs, of the allocator or of the pool fails it, or where `handle_thread` comes to its assertion
before `poll_thread` has raised the flag.

* **`Answer.Fails`** — the calls after which the code aborts, or follows a NULL pointer.
* **`Asks`** — no receive asks the pool for a list of no chunks, which would be such a call.
* **`MayFault`** — the faults that are left.
* **`called_back_in_order`** — the result. -/

namespace SparkRdma

open Interleaving Blocks

/-! ### Lists of no chunks -/

section Link

variable {χ : Type} {mem : χ → RdmaChunk} {s s' : LinkState χ} {answer : Answer}

/-- Posting receives fails where a call it makes does, or where it has asked for a list of no
chunks. -/
theorem RecvPc.step_error {pc : RecvPc} {e : CFault} (h : pc.step answer = some (.error e)) :
    answer.Fails ∨ pc = .getChunkList 0 := by
  unfold RecvPc.step at h
  split at h
  case h_6 num notNull =>
    split at h <;> cases h
    rename_i hnot
    by_cases hnum : num = 0
    · exact .inr (by rw [hnum])
    · exact .inl (by simpa [Answer.Fails, hnum] using hnot)
  case h_10 =>
    split at h <;> cases h
    exact .inl ‹_›
  case h_1 | h_7 | h_8 =>
    split at h <;> cases h
    exact .inl (Bool.eq_false_iff.mpr ‹_›)
  all_goals cases h

/-- The list it asks for is the one it was called for. -/
theorem RecvPc.step_getChunkList {pc : RecvPc} {num : UInt32}
    (h : pc.step answer = some (.ok (some (.getChunkList num)))) : pc = .getChunkList num := by
  unfold RecvPc.step at h
  split at h
  case h_5 =>
    cases h
    rfl
  case h_3 =>
    obtain h := Except.ok.inj (Option.some.inj h)
    split at h <;> cases h
  case h_1 | h_6 | h_7 | h_8 | h_10 => split at h <;> cases h
  all_goals cases h

/-- No call asks the pool for a list of no chunks. -/
structure LinkState.Asks (s : LinkState χ) : Prop where
  /-- `rdma_create_connect` does not. -/
  create : ∀ num, s.create = .recv (.getChunkList num) → num ≠ 0
  /-- `poll_thread` does not. -/
  poll : ∀ arr i num, s.poll = .recv arr i (.getChunkList num) → num ≠ 0

/-- What `poll_thread` asks for is what the completion at hand tells it to. -/
theorem pollStep_asks (hstep : s.pollStep mem answer = some (.ok s')) {arr : WcArray χ} {i : ℕ}
    {num : UInt32} (hpoll : s'.poll = .recv arr i (.getChunkList num)) :
    s.poll = .recv arr i (.getChunkList num) ∨ ∃ wc, some wc ∈ s.poll.inHand ∧
      wc.opcode = .recv ∧ (mem wc.chunk).header.chunkNum = num := by
  unfold LinkState.pollStep at hstep
  split at hstep
  case h_7 arr' j hturn =>
    split at hstep <;> cases hstep
    · rename_i hj
      simp only at hpoll
      split at hpoll
      · rename_i pc hreplenish
        cases hpoll
        -- a completion of a receive whose frame is the first of several
        cases hentry : (arr.data[i]?).join with
        | none =>
          rw [hentry] at hreplenish
          cases hreplenish
        | some wc =>
          rw [hentry, replenish] at hreplenish
          split at hreplenish
          · rename_i hrecv
            refine .inr ⟨wc, ?_, hrecv, ?_⟩
            · rw [hturn]
              refine List.mem_of_mem_drop (i := i) ?_
              show some wc ∈ arr.entries.drop i
              rw [WcArray.drop_entries hj hentry]
              exact List.mem_cons_self
            · unfold replenishFor at hreplenish
              split at hreplenish
              · split at hreplenish <;> cases hreplenish
                rfl
              · cases hreplenish
          · cases hreplenish
      · cases hpoll
    · cases hpoll
  case h_8 _ _ arr' j pc hrecv =>
    obtain ⟨next, hnext, rfl⟩ := map_map_eq_ok.mp hstep
    cases next with
    | none => cases hpoll
    | some pc' =>
      cases hpoll
      exact .inl (by rw [hrecv, RecvPc.step_getChunkList hnext])
  case h_6 =>
    split at hstep
    · cases hstep
    · split at hstep <;> split at hstep <;> cases hstep <;> cases hpoll
  case h_2 =>
    split at hstep
    · cases hstep
    · split at hstep <;> cases hstep
      cases hpoll
  case h_4 | h_5 =>
    split at hstep <;> cases hstep
    cases hpoll
  case h_11 => cases hstep
  all_goals
    cases hstep
    cases hpoll

namespace LinkState.Asks

/-- A step of `rdma_create_connect`, which asks for `MAX_PRE_RECV_QP` chunks. -/
theorem createStep (h : s.Asks) (hstep : s.createStep answer = some (.ok s')) : s'.Asks := by
  have hpoll : ∀ arr i num, s'.poll = .recv arr i (.getChunkList num) → num ≠ 0 := by
    intro arr i num hrecv
    obtain heq | ⟨-, hstart⟩ := (createStep_spec hstep).2.2.1
    · exact h.poll arr i num (heq ▸ hrecv)
    · rw [hstart] at hrecv
      cases hrecv
  refine ⟨fun num hcreate => ?_, hpoll⟩
  unfold LinkState.createStep at hstep
  split at hstep
  case h_8 =>
    split at hstep <;> cases hstep
    cases hcreate
    decide
  case h_9 pc _ hrecv =>
    obtain ⟨next, hnext, rfl⟩ := map_map_eq_ok.mp hstep
    cases next with
    | none => cases hcreate
    | some pc' =>
      cases hcreate
      exact h.create num (by rw [hrecv, RecvPc.step_getChunkList hnext])
  case h_1 =>
    cases hstep
    cases hcreate
  case h_10 => cases hstep
  all_goals
    split at hstep <;> cases hstep
    cases hcreate

/-- A step of `poll_thread`, if every receive it has polled is of a frame with a `chunk_num`. -/
theorem pollStep (h : s.Asks) (hcounted : ∀ wc, some wc ∈ s.poll.inHand → wc.opcode = .recv →
      (mem wc.chunk).header.chunkNum ≠ 0)
    (hstep : s.pollStep mem answer = some (.ok s')) : s'.Asks := by
  obtain ⟨-, -, hcreate, -⟩ := pollStep_spec hstep
  refine ⟨hcreate ▸ h.create, fun arr i num hpoll => ?_⟩
  obtain hold | ⟨wc, hwc, hrecv, rfl⟩ := pollStep_asks hstep hpoll
  · exact h.poll arr i num hold
  · exact hcounted wc hwc hrecv

/-- A step of a connection. -/
theorem step (h : s.Asks) (hcounted : ∀ wc, some wc ∈ s.poll.inHand → wc.opcode = .recv →
      (mem wc.chunk).header.chunkNum ≠ 0)
    {a : LinkAct χ} (hstep : linkStep mem s a = some (.ok s')) : s'.Asks := by
  cases a with
  | create answer => exact h.createStep hstep
  | poll answer => exact h.pollStep hcounted hstep
  | add wc =>
    simp only [linkStep] at hstep
    split at hstep <;> cases hstep
    exact ⟨h.create, h.poll⟩
  | handle =>
    simp only [linkStep] at hstep
    split at hstep
    · obtain ⟨handover, -, rfl⟩ := map_map_eq_ok.mp hstep
      exact ⟨h.create, h.poll⟩
    · cases hstep
  | spurious =>
    obtain ⟨handover, -, rfl⟩ := map_map_eq_ok.mp hstep
    exact ⟨h.create, h.poll⟩

/-- `rdma_create_connect` ends in a fault only where a call fails. -/
theorem createStep_error (h : s.Asks) {e : CFault}
    (hstep : s.createStep answer = some (.error e)) : answer.Fails := by
  unfold LinkState.createStep at hstep
  split at hstep
  case h_9 pc _ hrecv =>
    obtain hfails | rfl := RecvPc.step_error (map_map_eq_error.mp hstep)
    · exact hfails
    · exact (h.create 0 hrecv rfl).elim
  case h_1 | h_10 => cases hstep
  case h_2 | h_3 | h_7 =>
    split at hstep <;> cases hstep
    exact Bool.eq_false_iff.mpr ‹_›
  all_goals
    split at hstep <;> cases hstep
    exact ‹_ < _›

/-- `poll_thread` ends in a fault only where a call fails. -/
theorem pollStep_error (h : s.Asks) {e : CFault}
    (hstep : s.pollStep mem answer = some (.error e)) : answer.Fails := by
  unfold LinkState.pollStep at hstep
  split at hstep
  case h_8 _ _ arr i pc hrecv =>
    obtain hfails | rfl := RecvPc.step_error (map_map_eq_error.mp hstep)
    · exact hfails
    · exact (h.poll arr i 0 hrecv rfl).elim
  case h_2 =>
    split at hstep
    · exact ‹_ < _›
    · split at hstep <;> cases hstep
  case h_4 =>
    split at hstep <;> cases hstep
    exact ‹_ < _›
  case h_5 =>
    split at hstep <;> cases hstep
    exact Bool.eq_false_iff.mpr ‹_›
  case h_6 =>
    split at hstep
    · exact ‹_ < _›
    · split at hstep <;> split at hstep <;> cases hstep
  case h_7 => split at hstep <;> cases hstep
  all_goals cases hstep

end LinkState.Asks

end Link

/-! ### The two ends -/

variable {ι : Type} [DecidableEq ι]

namespace InTransit

variable {calls : ι → SendCall} {first : UInt32} {w : SendingEnd ι}
  {flight : List (Option (Wc RdmaChunk))} {t : ServedTransport RdmaChunk} {e : CFault}

omit [DecidableEq ι] in
/-- A frame has landed in every receive in flight. -/
theorem landed_of_mem (h : InTransit w flight) {wc : Wc RdmaChunk} (hwc : some wc ∈ flight)
    (hrecv : wc.opcode = .recv) : ∃ p ∈ w.wire, Landed wc p := by
  obtain ⟨wcs, rfl, -, hlanded⟩ := h.flight
  have hmem : wc ∈ receives wcs := by
    refine List.mem_filter.mpr ⟨?_, by simp [hrecv]⟩
    simpa using hwc
  obtain ⟨i, hi, rfl⟩ := List.mem_iff_getElem.mp hmem
  have hi' : i < (w.wire.take w.landed).length := hlanded.length_eq ▸ hi
  exact ⟨_, List.mem_of_mem_take (List.getElem_mem hi'), hlanded.get hi hi'⟩

/-- A received frame in transit is one of a message of some frames. -/
theorem counted (hmsg : ∀ i, (calls i).bytes.length < 2 ^ 31) (h : InTransit w flight)
    {work : WorkState RdmaChunk} (hnet : NetInv calls first (w.toNet work)) {wc : Wc RdmaChunk}
    (hwc : some wc ∈ flight) (hrecv : wc.opcode = .recv) : wc.chunk.header.chunkNum ≠ 0 := by
  obtain ⟨p, hp, old, rfl⟩ := h.landed_of_mem hwc hrecv
  obtain ⟨dataId, -, hframe, hlt⟩ := hnet.send.sent_frame p (List.mem_append_right _ hp)
  have hcount : framesOf calls p.call < 2 ^ 31 :=
    (blockCount_le (b := rdmaBodySize.toNat) (by simp) _).trans_lt (hmsg p.call)
  have hcarries := carries_land dataId (calls p.call).bytes p.index old
  rw [← hframe] at hcarries
  show (old.land p.frame).header.chunkNum ≠ 0
  rw [hcarries.1]
  intro hzero
  -- there are fewer frames than bytes, so the number does not wrap
  have hzero : framesOf calls p.call % 2 ^ 32 = 0 := congrArg UInt32.toNat hzero
  rw [Nat.mod_eq_of_lt (hcount.trans (by decide))] at hzero
  omega

variable [Fintype ι]

/-- In its loop over a batch `handle_thread` never ends in a fault. -/
theorem eventStep_ne_error (hcard : Fintype.card ι < 2 ^ 32)
    (hmsg : ∀ i, (calls i).bytes.length < 2 ^ 31) (h : InTransit w t.inFlight) (hshape : Shape t)
    (hnet : NetInv calls first (w.toNet t.work)) {head : WcArray RdmaChunk}
    (hhandle : t.link.handover.handle = .events head) :
    t.eventStep id .running head ≠ some (.error e) := by
  intro hstep
  unfold ServedTransport.eventStep at hstep
  split at hstep
  · rename_i hidle
    split at hstep
    · rename_i hindex
      have hnext : t.nextUp? = some (head.data[t.index]?).join := by
        simp only [ServedTransport.nextUp?, hhandle, hidle, if_pos hindex]
      obtain ⟨rest, hflight⟩ := hshape.inFlight_of_nextUp? hnext
      split at hstep
      · -- what was polled are no zero entries
        rename_i hentry
        obtain ⟨wcs, hwcs, -⟩ := h.flight
        rw [hflight, hentry] at hwcs
        cases wcs <;> cases hwcs
      · rename_i wc hentry
        rw [hflight, hentry] at h
        obtain ⟨hsuccess, hopcode⟩ := h.oldest
        rw [if_neg (by simp [hsuccess])] at hstep
        obtain ⟨hsend, -⟩ | ⟨hrecv, p, wire, old, hwire, rfl, -⟩ := hopcode
        · rw [hsend] at hstep
          cases hstep
        · -- the length is that of the frame
          rw [hrecv] at hstep
          have hsent : (w.toNet t.work).sent = (w.toNet t.work).stored ++ p :: wire := by
            have hcurrent : w.current = none :=
              hnet.recv.no_current (by simp [SendingEnd.toNet, hidle])
            simp [NetState.sent, SendingEnd.toNet, hcurrent, hwire]
          obtain ⟨⟨hlen, -⟩, -⟩ := hnet.wellFormed hcard hmsg hsent old
          obtain ⟨work, hwork⟩ := WorkState.lookupSection_of_byteLen t.work hlen
          have hlookup : t.work.lookupSection id (p.completion old).byteLen (p.completion old).chunk
              = .ok work := hwork
          rw [hlookup] at hstep
          cases hstep
    · rw [HandleState.handleStep, hhandle] at hstep
      cases hstep
  · -- the sections of an event
    obtain ⟨r, hr, herror⟩ := Option.map_eq_some_iff.mp hstep
    obtain ⟨work, rfl, -⟩ := hnet.handler hcard hmsg hr
    cases herror

/-- `handle_thread` ends in a fault nowhere but at its assertion. -/
theorem handleStep_error (hcard : Fintype.card ι < 2 ^ 32)
    (hmsg : ∀ i, (calls i).bytes.length < 2 ^ 31) (h : InTransit w t.inFlight) (hshape : Shape t)
    (hnet : NetInv calls first (w.toNet t.work))
    (hstep : t.handleStep id .running = some (.error e)) :
    ∃ head, t.link.handover.handle = .popped head ∧ t.link.handover.isHandleRunning ≠ 1 := by
  unfold ServedTransport.handleStep at hstep
  split at hstep
  · split at hstep
    · exact (h.eventStep_ne_error hcard hmsg hshape hnet ‹_› hstep).elim
    · have hhandover := map_map_eq_error.mp hstep
      unfold HandleState.handleStep at hhandover
      split at hhandover
      case h_1 => split at hhandover <;> cases hhandover
      case h_6 head hpopped =>
        split at hhandover <;> cases hhandover
        exact ⟨head, hpopped, ‹_›⟩
      all_goals cases hhandover
  · cases hstep

end InTransit

namespace EndToEndState

/-- How a step can end in a fault: a call it makes fails, or `handle_thread` is at its assertion and
the flag is down. -/
def MayFault (s : EndToEndState ι) : EndToEndAct ι → Prop
  | .receive (.create answer) | .receive (.poll answer) => answer.Fails
  | .receive (.handle _) => ∃ head, s.receiving.link.handover.handle = .popped head ∧
      s.receiving.link.handover.isHandleRunning ≠ 1
  | _ => False

/-- The calls in the order in which their first frames were posted. -/
def begun (s : EndToEndState ι) : List ι :=
  (s.toNet.sent.filter (·.index = 0)).map Posted.call

/-- The callbacks made. -/
def callbacks (s : EndToEndState ι) : List Callback := s.receiving.work.callbacks

end EndToEndState

/-- The invariant of the network holds of both ends. -/
theorem netInv_of_endToEnd [Fintype ι] {calls : ι → SendCall} {first : UInt32}
    {s : EndToEndState ι} (hcard : Fintype.card ι < 2 ^ 32)
    (hmsg : ∀ i, 0 < (calls i).bytes.length ∧ (calls i).bytes.length < 2 ^ 31)
    (hs : (endToEnd calls first).ReachableUnder EndToEndState.PoolRuns s) :
    NetInv calls first s.toNet :=
  netInv_of_reachable hcard hmsg ((endToEnd_projects calls first).reachable hs)

/-- No list of no chunks is asked for. -/
theorem asks_of_reachable [Fintype ι] {calls : ι → SendCall} {first : UInt32}
    {s : EndToEndState ι} (hcard : Fintype.card ι < 2 ^ 32)
    (hmsg : ∀ i, 0 < (calls i).bytes.length ∧ (calls i).bytes.length < 2 ^ 31)
    (hs : (endToEnd calls first).ReachableUnder EndToEndState.PoolRuns s) :
    s.receiving.link.Asks := by
  have hlink := (transport_projects_link id (C := fun _ _ => True)
    (D := fun _ _ => True) fun _ _ _ _ _ => trivial).comp
      (endToEnd_projects_transport (C := EndToEndState.PoolRuns) calls first
        fun _ _ _ _ _ => trivial)
  induction hs with
  | init => exact ⟨by rintro _ ⟨⟩, by rintro _ _ _ ⟨⟩⟩
  | @next s s' a hs hpool hstep ih =>
    rcases hlink.step hs hpool hstep with heq | ⟨b, -, hnext⟩
    · exact (show s'.receiving.link = s.receiving.link from heq) ▸ ih
    · -- what was polled is in flight
      refine ih.step (fun wc hwc hrecv => ?_) hnext
      refine (endToEndInv_of_reachable hs).transit.counted (fun i => (hmsg i).2)
        (netInv_of_endToEnd hcard hmsg hs) (List.mem_append_right _ ?_) hrecv
      exact List.mem_append_left _ (List.mem_append_right _ hwc)

/-- A step ends in a fault only as `MayFault` says. -/
theorem mayFault_of_error [Fintype ι] {calls : ι → SendCall} {first : UInt32} {s : EndToEndState ι}
    (hcard : Fintype.card ι < 2 ^ 32)
    (hmsg : ∀ i, 0 < (calls i).bytes.length ∧ (calls i).bytes.length < 2 ^ 31)
    (hs : (endToEnd calls first).ReachableUnder EndToEndState.PoolRuns s) {a : EndToEndAct ι}
    {e : CFault} (hpool : s.PoolRuns a) (hstep : endToEndStep calls s a = some (.error e)) :
    s.MayFault a := by
  have hnet := netInv_of_endToEnd hcard hmsg hs
  cases a with
  | send a =>
    have hfault := s.sending.netStep_toNet calls a s.receiving.work
    rw [map_map_eq_error.mp hstep] at hfault
    obtain ⟨s', hs', -⟩ := netInv_step hcard hmsg hnet hfault
    cases hs'
  | land old =>
    simp only [endToEndStep] at hstep
    split at hstep
    · have hadd := map_map_eq_error.mp hstep
      simp only [transportStep] at hadd
      split at hadd <;> cases hadd
    · cases hstep
  | sent chunk byteLen =>
    have hadd := map_map_eq_error.mp hstep
    simp only [transportStep] at hadd
    split at hadd <;> cases hadd
  | receive a =>
    have hadd : ∀ wc, a ≠ .add wc := by
      rintro wc rfl
      cases hstep
    rw [endToEndStep_receive calls s hadd] at hstep
    have hstep := map_map_eq_error.mp hstep
    have hasks := asks_of_reachable hcard hmsg hs
    cases a with
    | add wc => exact (hadd wc rfl).elim
    | create answer => exact hasks.createStep_error (map_map_eq_error.mp hstep)
    | poll answer =>
      simp only [transportStep, ServedTransport.pollStep] at hstep
      split at hstep
      · exact hasks.pollStep_error (map_map_eq_error.mp hstep)
      · cases hstep
    | handle pool =>
      obtain rfl : pool = .running := hpool
      obtain ⟨hshape, htransit⟩ := endToEndInv_of_reachable hs
      exact htransit.handleStep_error hcard (fun i => (hmsg i).2) hshape hnet hstep
    | spurious =>
      simp only [transportStep] at hstep
      split at hstep
      · have hspurious := map_map_eq_error.mp hstep
        simp only [handleQueueStep] at hspurious
        split at hspurious <;> cases hspurious
      · cases hstep
    | worker k =>
      obtain ⟨work, hwork, -⟩ := hnet.worker hmsg (map_map_eq_error.mp hstep)
      cases hwork
    | ready | killPoll | killHandle => cases hstep
    | startItem | quitPoll | quitHandle =>
      simp only [transportStep] at hstep
      split at hstep <;> cases hstep

/-- The callbacks made are those of distinct messages, whole, in the order of the first frames. -/
theorem callbacks_of_endToEnd [Fintype ι] {calls : ι → SendCall} {first : UInt32}
    {s : EndToEndState ι} (hcard : Fintype.card ι < 2 ^ 32)
    (hmsg : ∀ i, 0 < (calls i).bytes.length ∧ (calls i).bytes.length < 2 ^ 31)
    (hs : (endToEnd calls first).ReachableUnder EndToEndState.PoolRuns s) :
    ∃ order : List ι, order.Nodup ∧ order <+: s.begun ∧
      s.callbacks = order.map (callbackOf calls) := by
  have hnet := netInv_of_endToEnd hcard hmsg hs
  refine ⟨s.toNet.order.take s.toNet.work.delivered.length, ?_, ?_, hnet.recv.callbacks⟩
  · exact hnet.recv.order_nodup.sublist (List.take_sublist ..)
  · -- the frames stored are the oldest of those posted
    have hstored : s.toNet.stored <+: s.toNet.sent := by
      rw [NetState.sent, List.append_assoc]
      exact List.prefix_append ..
    exact (List.take_prefix ..).trans ((hstored.filter _).map _)

/-- **What is called back.** Over the whole way from the calls to the callbacks, for every
interleaving of the calls and of the threads of the receiving transport, every split of completions
into batches and any sends of the receiving host in between: the callbacks made are those of
distinct messages, whole, in the order in which their first frames were posted; and a step ends in a
fault only where a call it makes fails, or at the assertion of `handle_thread` with the flag
down. -/
theorem called_back_in_order [Fintype ι] (calls : ι → SendCall) (first : UInt32)
    (s : EndToEndState ι) (hcard : Fintype.card ι < 2 ^ 32)
    (hmsg : ∀ i, 0 < (calls i).bytes.length ∧ (calls i).bytes.length < 2 ^ 31)
    (hs : (endToEnd calls first).ReachableUnder EndToEndState.PoolRuns s) :
    (∃ order : List ι, order.Nodup ∧ order <+: s.begun ∧
      s.callbacks = order.map (callbackOf calls)) ∧
    ∀ a e, s.PoolRuns a → (endToEnd calls first).step s a = some (.error e) → s.MayFault a :=
  ⟨callbacks_of_endToEnd hcard hmsg hs, fun _ _ => mayFault_of_error hcard hmsg hs⟩

/-- One message of one byte, from its call through the threads of the receiving transport to its
callback. -/
theorem called_back_in_order_oneByte : ∃ s : EndToEndState Unit,
    s.callbacks = [⟨some [7], 1⟩] ∧ ∃ order : List Unit, order.Nodup ∧ order <+: s.begun ∧
      s.callbacks = order.map (callbackOf fun _ => oneByte) := by
  obtain ⟨s, hexec, hv, hup, hworkers, hcallbacks⟩ : ∃ s,
      (endToEnd (fun _ : Unit => oneByte) 0).exec EndToEndState.PoolRuns
      (endToEnd (fun _ : Unit => oneByte) 0).init
      [.receive (.create .pending), .receive (.create (.pointer true)),
        .receive (.create (.pointer true)), .receive (.create (.ret 0)),
        .receive (.create (.ret 0)), .receive (.create (.ret 0)),
        .receive (.create (.pointer true)),
        -- the message is sent while `handle_thread` goes to sleep
        .send (.draw ()), .send (.fill () [.blank]), .send (.post ()),
        .receive (.handle .running), .receive (.handle .running), .land .blank,
        -- one round of `poll_thread`, which posts another receive
        .receive (.poll .pending), .receive (.poll (.ret 0)), .receive (.poll .pending),
        .receive (.poll (.ret 0)), .receive (.poll (.pointer true)), .receive (.poll (.ret 1)),
        .receive (.poll .pending), .receive (.poll (.pointer true)),
        .receive (.poll (.pointer true)), .receive (.poll (.ret 0)), .receive (.poll .pending),
        .receive (.poll .pending), .receive (.poll .pending),
        -- `handle_thread` wakes, and takes up the batch
        .receive (.handle .running), .receive (.handle .running), .receive (.handle .running),
        .receive (.handle .running), .receive (.handle .running), .receive (.handle .running),
        .receive (.handle .running),
        -- the work item
        .receive .startItem, .receive (.worker 0)] = some s ∧
      s.receiving.work.heap 0 = some ⟨0, 1, [RdmaChunk.blank.land (messageFrame 0 [7] 0)]⟩ ∧
      s.receiving.work.isWorkRunning = 1 ∧ s.receiving.work.workers = [.popped 0] ∧
      s.receiving.work.callbacks = [] := ⟨_, rfl, rfl, rfl, rfl, rfl⟩
  have hs := Machine.reachableUnder_of_exec _ .init hexec
  have hcarries : CarriesFrom 0 [7] 0 [RdmaChunk.blank.land (messageFrame 0 [7] 0)] :=
    ⟨carries_land 0 [7] 0 .blank, trivial⟩
  have hdeliver := deliver_ok (v := ⟨0, 1, _⟩) (by decide) (by decide) hcarries rfl rfl
  obtain ⟨work, hwork⟩ := WorkState.deliverHead_of_complete 0 hup hv rfl hdeliver
  obtain ⟨-, v, callback, hv', -, hdeliver', hwork'⟩ := WorkState.deliverHead_ok hwork
  obtain rfl := Option.some.inj (hv.symm.trans hv')
  obtain rfl := Except.ok.inj (hdeliver.symm.trans hdeliver')
  have hstep : (endToEnd (fun _ => oneByte) 0).step s (.receive (.worker 0)) = some (.ok
      { s with receiving := { s.receiving with work := work } }) := by
    simp only [endToEnd, endToEndStep, transportStep, WorkState.workerStep, hworkers,
      List.getElem?_cons_zero, hwork]
    rfl
  have hpool : s.PoolRuns (.receive (.worker 0)) := trivial
  have hs := hs.next hpool hstep
  refine ⟨_, ?_, (called_back_in_order (fun _ => oneByte) 0 _ (by decide) (fun _ => by decide)
    hs).1⟩
  show work.callbacks = _
  rw [hwork', hcallbacks]
  rfl

end SparkRdma
