import SparkRdma.Transport.Parts
import SparkRdma.WorkQueue.Lossless

/-! # From `send_msg` to the callback

The machine `endToEnd` has the whole way of a message in it. At the one end any number of `send_msg`
and `send_msg_with_header` calls post their frames; at the other a transport with all its threads:
`rdma_create_connect` makes its queues, every frame lands in a posted receive and completes,
`poll_thread` collects completions in batches, `handle_thread` takes them up, and the work items of
the pool call back. Sends of the receiving host complete in the same queue. As in `network`, memory
is given and the unlocked append to a varray is one step.

* **`endToEnd`** — the machine.
* **`InTransit`** — the completions in flight are those of the first frames on the wire, in order.
* **`endToEnd_projects`** — what happens between landing and taking up cannot be told from the wire:
  the machine refines `network`, in which frames are handed to `handle_recv_event` directly.
* **`endToEnd_projects_transport`** — the receiving transport runs as it does alone. -/

namespace SparkRdma

open Interleaving Blocks

/-- The sending end of a connection, and the frames it has posted. -/
structure SendingEnd (ι : Type) where
  /-- `client->data_id`. -/
  dataId : UInt32
  /-- The program points of the calls. -/
  senders : ι → SenderPc
  /-- The calls in the order in which they drew their data ids. -/
  drawn : List ι
  /-- The frames posted and not yet handed to `handle_recv_event`. -/
  wire : List (Posted ι)
  /-- How many of them, the oldest ones, have landed. -/
  landed : ℕ
  /-- The frame of the current receive event, until it is stored. -/
  current : Option (Posted ι)
  /-- The frames stored in their varrays, oldest first. -/
  stored : List (Posted ι)

/-- The steps of the send calls. -/
inductive SendAct (ι : Type)
  /-- Call `i` draws its data id. -/
  | draw (i : ι)
  /-- Call `i` gets `chain` from the pool and fills it. -/
  | fill (i : ι) (chain : List RdmaChunk)
  /-- Call `i` posts its next frame. -/
  | post (i : ι)

/-- The step of the network it is. -/
def SendAct.toNet {ι : Type} : SendAct ι → NetAct ι
  | draw i => .draw i
  | fill i chain => .fill i chain
  | post i => .post i

/-- The completion of the receive in which a frame has landed; the chunk was `old`. -/
def Posted.completion {ι : Type} (p : Posted ι) (old : RdmaChunk) : Wc RdmaChunk :=
  ⟨old.land p.frame, true, .recv, p.frame.byteLen⟩

namespace SendingEnd

variable {ι : Type}

/-- Before any call, the transport's counter standing at `first`. -/
def start (ι : Type) (first : UInt32) : SendingEnd ι :=
  ⟨first, fun _ => .idle, [], [], 0, none, []⟩

/-- The network, when frames are on the wire until they are handed to `handle_recv_event`. -/
def toNet (w : SendingEnd ι) (work : WorkState RdmaChunk) : NetState ι :=
  ⟨w.dataId, w.senders, w.drawn, w.wire, work, w.current, w.stored⟩

/-- A send call takes its next step. -/
def step [DecidableEq ι] (calls : ι → SendCall) (w : SendingEnd ι) (a : SendAct ι) :
    Option (Except CFault (SendingEnd ι)) :=
  (netStep calls (w.toNet .start) a.toNet).map <| Except.map fun n =>
    { w with dataId := n.dataId, senders := n.senders, drawn := n.drawn, wire := n.wire }

/-- What becomes of the frames in a step of the receiving transport. -/
def note (w : SendingEnd ι) (t : ServedTransport RdmaChunk) :
    TransportAct RdmaChunk → SendingEnd ι
  | .handle _ =>
      match t.link.handover.handle, t.work.handler with
      | .events _, .idle =>
          match t.nextUp? with
          | some (some wc) =>
              if wc.opcode = .recv then
                { w with wire := w.wire.tail, landed := w.landed - 1, current := w.wire.head? }
              else w
          | _ => w
      | .events _, _ => { w with stored := w.stored ++ w.current.toList, current := none }
      | _, _ => w
  | _ => w

end SendingEnd

/-- Both ends of a connection. -/
structure EndToEndState (ι : Type) where
  /-- The sending end. -/
  sending : SendingEnd ι
  /-- The receiving transport. -/
  receiving : ServedTransport RdmaChunk

/-- The steps. -/
inductive EndToEndAct (ι : Type)
  /-- A send call takes its next step. -/
  | send (a : SendAct ι)
  /-- The next frame lands in a receive, whose chunk was `old`, and the receive completes. -/
  | land (old : RdmaChunk)
  /-- A send of the receiving host completes. -/
  | sent (chunk : RdmaChunk) (byteLen : UInt32)
  /-- The receiving transport takes any other step. -/
  | receive (a : TransportAct RdmaChunk)

variable {ι : Type}

section Machine

variable [DecidableEq ι]

/-- One step. -/
def endToEndStep (calls : ι → SendCall) (s : EndToEndState ι) :
    EndToEndAct ι → Option (Except CFault (EndToEndState ι))
  | .send a => (s.sending.step calls a).map <| Except.map fun w => { s with sending := w }
  | .land old =>
      match s.sending.wire[s.sending.landed]? with
      | some p => (transportStep id s.receiving (.add (p.completion old))).map <|
          Except.map fun t => ⟨{ s.sending with landed := s.sending.landed + 1 }, t⟩
      | none => none
  | .sent chunk byteLen =>
      (transportStep id s.receiving (.add ⟨chunk, true, .send, byteLen⟩)).map <|
        Except.map fun t => { s with receiving := t }
  | .receive (.add _) => none
  | .receive a => (transportStep id s.receiving a).map <| Except.map fun t =>
      ⟨s.sending.note s.receiving a, t⟩

/-- Both ends before any call, the receiving transport before `rdma_create_connect`. -/
def endToEnd (calls : ι → SendCall) (first : UInt32) :
    Machine (EndToEndState ι) CFault (EndToEndAct ι) where
  init := ⟨.start ι first, .zeroed⟩
  step := endToEndStep calls

end Machine

namespace EndToEndState

/-- The network both ends make up, when what is between landing and taking up is not told from the
wire. -/
def toNet (s : EndToEndState ι) : NetState ι := s.sending.toNet s.receiving.work

/-- The condition on a step that `handle_thread` has a running pool to push to. -/
def PoolRuns (_ : EndToEndState ι) : EndToEndAct ι → Prop
  | .receive (.handle pool) => pool = .running
  | _ => True

instance (s : EndToEndState ι) (a : EndToEndAct ι) : Decidable (s.PoolRuns a) := by
  cases a with
  | receive a =>
    cases a with
    | handle pool => exact inferInstanceAs (Decidable (pool = .running))
    | _ => exact .isTrue trivial
  | _ => exact .isTrue trivial

end EndToEndState

/-! ### What is in transit -/

/-- The completion is that of the receive in which the frame has landed. -/
def Landed (wc : Wc RdmaChunk) (p : Posted ι) : Prop := ∃ old, wc = p.completion old

/-- The completions of receives among some. -/
def receives {χ : Type} (wcs : List (Wc χ)) : List (Wc χ) := wcs.filter (·.opcode = .recv)

/-- The completions in flight are of the oldest frames on the wire and of sends, and all are of
successes. -/
structure InTransit (w : SendingEnd ι) (flight : List (Option (Wc RdmaChunk))) : Prop where
  /-- No more have landed than were posted. -/
  landed_le : w.landed ≤ w.wire.length
  /-- What is in flight. -/
  flight : ∃ wcs : List (Wc RdmaChunk), flight = wcs.map some ∧
    (∀ wc ∈ wcs, wc.success = true ∧ (wc.opcode = .send ∨ wc.opcode = .recv)) ∧
    List.Forall₂ Landed (receives wcs) (w.wire.take w.landed)

namespace SendingEnd

variable [DecidableEq ι] {calls : ι → SendCall} {w w' : SendingEnd ι} {a : SendAct ι}

/-- A send call takes its step whatever the receiving end does. -/
theorem netStep_toNet (calls : ι → SendCall) (w : SendingEnd ι) (a : SendAct ι)
    (work : WorkState RdmaChunk) : netStep calls (w.toNet work) a.toNet
      = (w.step calls a).map (Except.map fun w' => w'.toNet work) := by
  cases a with
  | draw i =>
    simp only [step, SendAct.toNet, netStep, toNet]
    cases w.senders i <;> rfl
  | fill i chain =>
    simp only [step, SendAct.toNet, netStep, toNet]
    cases w.senders i with
    | drawn dataId =>
      by_cases hlength : chain.length = (calls i).chunkNum.toNat
      · simp only [if_pos hlength]
        cases (calls i).frames dataId chain <;> rfl
      · simp only [if_neg hlength]
        rfl
    | _ => rfl
  | post i =>
    simp only [step, SendAct.toNet, netStep, toNet]
    cases w.senders i with
    | posting dataId frames next =>
      simp only
      cases frames[next]? <;> rfl
    | _ => rfl

/-- A step of the senders can only add to the wire. -/
theorem wire_of_step (hstep : w.step calls a = some (.ok w')) :
    ∃ posted, w'.wire = w.wire ++ posted ∧ w'.landed = w.landed := by
  obtain ⟨n, hn, rfl⟩ := map_map_eq_ok.mp hstep
  cases a with
  | draw i =>
    simp only [SendAct.toNet, netStep, toNet] at hn
    split at hn <;> cases hn
    exact ⟨[], (List.append_nil _).symm, rfl⟩
  | fill i chain =>
    simp only [SendAct.toNet, netStep, toNet] at hn
    split at hn
    · split at hn
      · obtain ⟨frames, -, rfl⟩ := map_map_eq_ok.mp hn
        exact ⟨[], (List.append_nil _).symm, rfl⟩
      · cases hn
    · cases hn
  | post i =>
    simp only [SendAct.toNet, netStep, toNet] at hn
    split at hn
    · split at hn <;> cases hn
      exact ⟨_, rfl, rfl⟩
    · cases hn

end SendingEnd

namespace InTransit

variable {w w' : SendingEnd ι} {flight flight' : List (Option (Wc RdmaChunk))}

/-- Before any call. -/
theorem start (first : UInt32) : InTransit (.start ι first) [] where
  landed_le := le_rfl
  flight := ⟨[], rfl, by simp, .nil⟩

/-- Frames are posted. -/
theorem post (h : InTransit w flight) {posted : List (Posted ι)}
    (hwire : w'.wire = w.wire ++ posted) (hlanded : w'.landed = w.landed) :
    InTransit w' flight where
  landed_le := by
    rw [hwire, hlanded, List.length_append]
    exact h.landed_le.trans (Nat.le_add_right ..)
  flight := by
    rw [hwire, hlanded, List.take_append_of_le_length h.landed_le]
    exact h.flight

/-- A frame lands. -/
theorem land (h : InTransit w flight) {p : Posted ι} (old : RdmaChunk)
    (hp : w.wire[w.landed]? = some p) :
    InTransit { w with landed := w.landed + 1 } (flight ++ [some (p.completion old)]) where
  landed_le := (List.getElem?_eq_some_iff.mp hp).1
  flight := by
    obtain ⟨wcs, rfl, hwcs, hlanded⟩ := h.flight
    refine ⟨wcs ++ [p.completion old], by simp, fun wc hwc => ?_, ?_⟩
    · obtain hwc | hwc := List.mem_append.mp hwc
      · exact hwcs wc hwc
      · rw [List.mem_singleton.mp hwc]
        exact ⟨rfl, .inr rfl⟩
    · rw [receives, List.filter_append, List.take_add_one, hp]
      exact List.rel_append hlanded (.cons ⟨old, rfl⟩ .nil)

/-- A send of the receiving host completes. -/
theorem sent (h : InTransit w flight) (chunk : RdmaChunk) (byteLen : UInt32) :
    InTransit w (flight ++ [some ⟨chunk, true, .send, byteLen⟩]) where
  landed_le := h.landed_le
  flight := by
    obtain ⟨wcs, rfl, hwcs, hlanded⟩ := h.flight
    refine ⟨wcs ++ [⟨chunk, true, .send, byteLen⟩], by simp, fun wc hwc => ?_, ?_⟩
    · obtain hwc | hwc := List.mem_append.mp hwc
      · exact hwcs wc hwc
      · rw [List.mem_singleton.mp hwc]
        exact ⟨rfl, .inl rfl⟩
    · rw [receives, List.filter_append, List.filter_cons_of_neg (by simp), List.filter_nil,
        List.append_nil]
      exact hlanded

/-- The oldest completion in flight is that of a success, and if it is a receive, the oldest frame
on the wire has landed in it. -/
theorem oldest (h : InTransit w (some wc :: flight)) :
    wc.success = true ∧ (wc.opcode = .send ∧ InTransit w flight ∨
      wc.opcode = .recv ∧ ∃ p rest old, w.wire = p :: rest ∧ wc = p.completion old ∧
        InTransit { w with wire := rest, landed := w.landed - 1, current := some p } flight) := by
  obtain ⟨wcs, heq, hwcs, hlanded⟩ := h.flight
  obtain _ | ⟨wc', wcs⟩ := wcs
  · cases heq
  obtain ⟨hwc, rfl⟩ := List.cons.inj heq
  obtain rfl := Option.some.inj hwc
  obtain ⟨⟨hsuccess, hopcode⟩, hrest⟩ := List.forall_mem_cons.mp hwcs
  refine ⟨hsuccess, hopcode.imp (fun hsend => ⟨hsend, h.landed_le, wcs, rfl, hrest, ?_⟩)
    fun hrecv => ⟨hrecv, ?_⟩⟩
  · rwa [receives, List.filter_cons_of_neg (by simp [hsend])] at hlanded
  · rw [receives, List.filter_cons_of_pos (by simp [hrecv])] at hlanded
    have hle := h.landed_le
    -- so at least one has landed
    cases hwire : w.wire with
    | nil =>
      rw [hwire, List.take_nil] at hlanded
      cases hlanded
    | cons p rest =>
      cases hn : w.landed with
      | zero =>
        rw [hn, List.take_zero] at hlanded
        cases hlanded
      | succ n =>
        rw [hwire, hn, List.take_succ_cons] at hlanded
        obtain ⟨⟨old, hold⟩, hlanded⟩ := List.forall₂_cons.mp hlanded
        rw [hwire, hn, List.length_cons] at hle
        exact ⟨p, rest, old, rfl, hold, Nat.le_of_succ_le_succ hle, wcs, rfl, hrest, hlanded⟩

end InTransit

/-! ### The steps of the receiving end -/

namespace FlightEffect

variable {χ : Type} {t t' : ServedTransport χ} {a : TransportAct χ}

/-- An entry that is taken up is the oldest in flight. -/
theorem flight_of_entry {pool : WorkThreadPool} (h : FlightEffect t t' (.handle pool))
    {entry : Option (Wc χ)} (hentry : t.nextUp? = some entry) :
    t.inFlight = entry :: t'.inFlight := by
  cases h with
  | taken entry' hentry' hflight =>
    obtain rfl := Option.some.inj (hentry.symm.trans hentry')
    exact hflight
  | quiet hadd hnone hflight =>
    rw [hnone pool rfl] at hentry
    cases hentry

/-- A step that adds no completion and takes none up leaves the flight as it was. -/
theorem flight_of_none (h : FlightEffect t t' a) (hadd : ∀ wc, a ≠ .add wc)
    (hnone : ∀ pool, a = .handle pool → t.nextUp? = none) : t'.inFlight = t.inFlight := by
  cases h with
  | added wc hflight => exact (hadd wc rfl).elim
  | @taken pool entry hentry hflight =>
    rw [hnone pool rfl] at hentry
    cases hentry
  | quiet hadd hnone hflight => exact hflight

end FlightEffect

variable [DecidableEq ι]

/-- What the network sees of a step of the receiving transport: nothing, or a step of its own. -/
def SendingEnd.Shows (calls : ι → SendCall) (w w' : SendingEnd ι)
    (t t' : ServedTransport RdmaChunk) : Prop :=
  w'.toNet t'.work = w.toNet t.work ∨
    ∃ b, netStep calls (w.toNet t.work) b = some (.ok (w'.toNet t'.work))

namespace InTransit

variable {calls : ι → SendCall} {w : SendingEnd ι} {t t' : ServedTransport RdmaChunk}

/-- `handle_thread` takes a step of its loop over a batch. -/
theorem eventStep (h : InTransit w t.inFlight) (hshape : Shape t) {head : WcArray RdmaChunk}
    (hhandle : t.link.handover.handle = .events head)
    (hstep : t.eventStep id .running head = some (.ok t')) :
    InTransit (w.note t (.handle .running)) t'.inFlight ∧
      w.Shows calls (w.note t (.handle .running)) t t' := by
  obtain ⟨heffect, -⟩ := hshape.eventStep hhandle hstep
  obtain ⟨wc, work, hidle, hindex, hentry, -, hwork, rfl⟩ | ⟨hidle, hindex, rfl⟩ |
    ⟨work, hbusy, hwork, hend⟩ := ServedTransport.eventStep_cases hhandle hstep
  · have hnext : t.nextUp? = some (some wc) := by
      simp only [ServedTransport.nextUp?, hhandle, hidle, if_pos hindex, hentry]
    rw [heffect.flight_of_entry hnext] at h
    simp only [SendingEnd.note, hhandle, hidle, hnext]
    obtain ⟨-, ⟨hsend, hflight⟩ | ⟨hrecv, p, rest, old, hwire, hwc, hflight⟩⟩ := h.oldest
    · rw [if_neg (by simp [hsend])]
      obtain ⟨-, rfl⟩ | ⟨hrecv, -⟩ := hwork
      · exact ⟨hflight, .inl rfl⟩
      · rw [hsend] at hrecv
        cases hrecv
    · rw [if_pos hrecv]
      obtain ⟨hsend, -⟩ | ⟨-, hlookup⟩ := hwork
      · rw [hrecv] at hsend
        cases hsend
      · -- it is handed to `handle_recv_event`
        refine ⟨by rwa [hwire], .inr ⟨.arrive old, ?_⟩⟩
        rw [hwc] at hlookup
        have hlookup : t.work.lookupSection id p.frame.byteLen (old.land p.frame) = .ok work :=
          hlookup
        simp only [netStep, SendingEnd.toNet, hwire, workQueueStep, hidle, hlookup]
        rfl
  · -- the batch is through
    have hnext : t.nextUp? = none := by
      simp only [ServedTransport.nextUp?, hhandle, hidle, if_neg (not_lt.mpr hindex)]
    rw [← heffect.flight_of_none (by simp) fun _ _ => hnext] at h
    simp only [SendingEnd.note, hhandle, hidle, hnext]
    exact ⟨h, .inl rfl⟩
  · -- a section of the event
    have hnext : t.nextUp? = none := by
      unfold ServedTransport.nextUp?
      split
      · exact (hbusy ‹_›).elim
      · rfl
    rw [← heffect.flight_of_none (by simp) fun _ _ => hnext] at h
    have hnote : w.note t (.handle .running)
        = { w with stored := w.stored ++ w.current.toList, current := none } := by
      simp only [SendingEnd.note, hhandle]
    rw [hnote]
    cases hend
    refine ⟨h.post (List.append_nil _).symm rfl, .inr ⟨.handler, ?_⟩⟩
    simp only [netStep, SendingEnd.toNet, workQueueStep, hwork]
    rfl

/-- `handle_thread` takes a step. -/
theorem handleStep (h : InTransit w t.inFlight) (hshape : Shape t)
    (hstep : t.handleStep id .running = some (.ok t')) :
    InTransit (w.note t (.handle .running)) t'.inFlight ∧
      w.Shows calls (w.note t (.handle .running)) t t' := by
  obtain ⟨heffect, -⟩ := hshape.handleStep hstep
  unfold ServedTransport.handleStep at hstep
  split at hstep
  · split at hstep
    · exact h.eventStep hshape ‹_› hstep
    · rename_i hnot
      have hnext := ServedTransport.nextUp?_of_not_events fun head => hnot head
      rw [← heffect.flight_of_none (by simp) fun _ _ => hnext] at h
      obtain ⟨handover, -, rfl⟩ := map_map_eq_ok.mp hstep
      have hnote : w.note t (.handle .running) = w := by
        simp only [SendingEnd.note]
        split
        · exact (hnot _ ‹_›).elim
        · exact (hnot _ ‹_›).elim
        · rfl
      rw [hnote]
      exact ⟨h, .inl rfl⟩
  · cases hstep

/-- **A step of the receiving transport** moves the frames in transit along, and the network sees it
as a step of its own or not at all. -/
theorem receive (h : InTransit w t.inFlight) (hshape : Shape t) {a : TransportAct RdmaChunk}
    (hadd : ∀ wc, a ≠ .add wc) (hpool : PoolRuns t a)
    (hstep : transportStep id t a = some (.ok t')) :
    InTransit (w.note t a) t'.inFlight ∧ w.Shows calls (w.note t a) t t' := by
  obtain ⟨heffect, -⟩ := transportStep_spec hshape hstep
  have hquiet : (∀ pool, a ≠ .handle pool) → t'.inFlight = t.inFlight := fun hnot =>
    heffect.flight_of_none hadd fun pool heq => (hnot pool heq).elim
  cases a with
  | add wc => exact (hadd wc rfl).elim
  | handle pool =>
    obtain rfl : pool = .running := hpool
    exact h.handleStep hshape hstep
  | create answer =>
    rw [← hquiet (by simp)] at h
    obtain ⟨link, -, rfl⟩ := map_map_eq_ok.mp hstep
    exact ⟨h, .inl rfl⟩
  | poll answer =>
    rw [← hquiet (by simp)] at h
    simp only [transportStep, ServedTransport.pollStep] at hstep
    split at hstep
    · obtain ⟨link, -, rfl⟩ := map_map_eq_ok.mp hstep
      exact ⟨h, .inl rfl⟩
    · cases hstep
  | spurious =>
    rw [← hquiet (by simp)] at h
    simp only [transportStep] at hstep
    split at hstep
    · obtain ⟨handover, -, rfl⟩ := map_map_eq_ok.mp hstep
      exact ⟨h, .inl rfl⟩
    · cases hstep
  | startItem =>
    rw [← hquiet (by simp)] at h
    simp only [transportStep] at hstep
    split at hstep <;> cases hstep
    rename_i hitems
    refine ⟨h, .inr ⟨.startItem, ?_⟩⟩
    simp only [netStep, SendingEnd.toNet, workQueueStep, hitems, if_true]
    rfl
  | worker i =>
    rw [← hquiet (by simp)] at h
    obtain ⟨work, hwork, rfl⟩ := map_map_eq_ok.mp hstep
    refine ⟨h, .inr ⟨.worker i, ?_⟩⟩
    simp only [netStep, SendingEnd.toNet, workQueueStep, hwork]
    rfl
  | ready | killPoll | killHandle =>
    rw [← hquiet (by simp)] at h
    cases hstep
    exact ⟨h, .inl rfl⟩
  | quitPoll | quitHandle =>
    rw [← hquiet (by simp)] at h
    simp only [transportStep] at hstep
    split at hstep <;> cases hstep
    exact ⟨h, .inl rfl⟩

end InTransit

/-! ### The refinement -/

/-- A step other than a completion that is added is the receiving transport's. -/
theorem endToEndStep_receive (calls : ι → SendCall) (s : EndToEndState ι)
    {a : TransportAct RdmaChunk} (hadd : ∀ wc, a ≠ .add wc) :
    endToEndStep calls s (.receive a) = (transportStep id s.receiving a).map
      (Except.map fun t => ⟨s.sending.note s.receiving a, t⟩) := by
  cases a with
  | add wc => exact (hadd wc rfl).elim
  | _ => rfl

/-- What both ends rely on. -/
structure EndToEndInv (s : EndToEndState ι) : Prop where
  /-- The threads of the receiving transport. -/
  shape : Shape s.receiving
  /-- The frames in transit. -/
  transit : InTransit s.sending s.receiving.inFlight

/-- **One step** keeps it, and is one of the network, or none. -/
theorem EndToEndInv.step {calls : ι → SendCall} {s s' : EndToEndState ι} (h : EndToEndInv s)
    {a : EndToEndAct ι} (hpool : s.PoolRuns a) (hstep : endToEndStep calls s a = some (.ok s')) :
    EndToEndInv s' ∧
      (s'.toNet = s.toNet ∨ ∃ b, netStep calls s.toNet b = some (.ok s'.toNet)) := by
  cases a with
  | send a =>
    obtain ⟨w, hw, rfl⟩ := map_map_eq_ok.mp hstep
    obtain ⟨posted, hwire, hlanded⟩ := SendingEnd.wire_of_step hw
    refine ⟨⟨h.shape, h.transit.post hwire hlanded⟩, .inr ⟨a.toNet, ?_⟩⟩
    rw [EndToEndState.toNet, SendingEnd.netStep_toNet, hw]
    rfl
  | land old =>
    simp only [endToEndStep] at hstep
    split at hstep
    · rename_i p hp
      obtain ⟨t, ht, rfl⟩ := map_map_eq_ok.mp hstep
      obtain ⟨heffect, hshape⟩ := transportStep_spec h.shape ht
      simp only [transportStep] at ht
      split at ht <;> cases ht
      cases heffect with
      | added wc hflight =>
        refine ⟨⟨hshape, ?_⟩, .inl rfl⟩
        rw [hflight]
        exact h.transit.land old hp
      | quiet hadd => exact (hadd _ rfl).elim
    · cases hstep
  | sent chunk byteLen =>
    obtain ⟨t, ht, rfl⟩ := map_map_eq_ok.mp hstep
    obtain ⟨heffect, hshape⟩ := transportStep_spec h.shape ht
    simp only [transportStep] at ht
    split at ht <;> cases ht
    cases heffect with
    | added wc hflight =>
      refine ⟨⟨hshape, ?_⟩, .inl rfl⟩
      rw [hflight]
      exact h.transit.sent chunk byteLen
    | quiet hadd => exact (hadd _ rfl).elim
  | receive a =>
    have hadd : ∀ wc, a ≠ .add wc := by
      rintro wc rfl
      cases hstep
    rw [endToEndStep_receive calls s hadd] at hstep
    obtain ⟨t, ht, rfl⟩ := map_map_eq_ok.mp hstep
    have hruns : PoolRuns s.receiving a := by
      cases a with
      | handle pool => exact hpool
      | _ => trivial
    obtain ⟨htransit, hshows⟩ := h.transit.receive h.shape hadd hruns ht
    exact ⟨⟨(transportStep_spec h.shape ht).2, htransit⟩, hshows⟩

/-- The invariant of both ends holds in every state reached while there is a pool. -/
theorem endToEndInv_of_reachable {calls : ι → SendCall} {first : UInt32} {s : EndToEndState ι}
    (hs : (endToEnd calls first).ReachableUnder EndToEndState.PoolRuns s) : EndToEndInv s := by
  have hinit : EndToEndInv (endToEnd calls first).init := ⟨.zeroed, .start first⟩
  exact hs.invariant hinit fun _ _ _ _ h hpool hstep => (h.step hpool hstep).1

/-- **The refinement.** Both ends together run as `network` does, in which a frame is on the wire
until it is handed to `handle_recv_event`. -/
theorem endToEnd_projects (calls : ι → SendCall) (first : UInt32) :
    (endToEnd calls first).Projects EndToEndState.PoolRuns (network calls first) (fun _ _ => True)
      EndToEndState.toNet where
  init := rfl
  step hs hpool hstep := by
    obtain heq | ⟨b, hb⟩ := ((endToEndInv_of_reachable hs).step hpool hstep).2
    · exact .inl heq
    · exact .inr ⟨b, trivial, hb⟩

/-- The step of the receiving transport that a step may be. -/
def EndToEndAct.Receives : EndToEndAct ι → TransportAct RdmaChunk → Prop
  | .land _, .add _ => True
  | .sent _ _, .add _ => True
  | .receive a, b => b = a
  | _, _ => False

/-- **The receiving transport runs on its own.** -/
theorem endToEnd_projects_transport (calls : ι → SendCall) (first : UInt32)
    {C : EndToEndState ι → EndToEndAct ι → Prop}
    {D : ServedTransport RdmaChunk → TransportAct RdmaChunk → Prop}
    (hCD : ∀ s a b, C s a → a.Receives b → D s.receiving b) :
    (endToEnd calls first).Projects C (transport id) D EndToEndState.receiving where
  init := rfl
  step {s a s'} _ hC hstep := by
    have hstep : endToEndStep calls s a = some (.ok s') := hstep
    cases a with
    | send a =>
      obtain ⟨w, -, rfl⟩ := map_map_eq_ok.mp hstep
      exact .inl rfl
    | land old =>
      simp only [endToEndStep] at hstep
      split at hstep
      · obtain ⟨t, ht, rfl⟩ := map_map_eq_ok.mp hstep
        exact .inr ⟨_, hCD s _ (.add _) hC trivial, ht⟩
      · cases hstep
    | sent chunk byteLen =>
      obtain ⟨t, ht, rfl⟩ := map_map_eq_ok.mp hstep
      exact .inr ⟨_, hCD s _ (.add _) hC trivial, ht⟩
    | receive a =>
      have hadd : ∀ wc, a ≠ .add wc := by
        rintro wc rfl
        cases hstep
      rw [endToEndStep_receive calls s hadd] at hstep
      obtain ⟨t, ht, rfl⟩ := map_map_eq_ok.mp hstep
      exact .inr ⟨a, hCD s _ a hC rfl, ht⟩

end SparkRdma
