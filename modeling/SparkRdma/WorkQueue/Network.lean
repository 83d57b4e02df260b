import Mathlib.Data.Fintype.Card
import SparkRdma.WorkQueue.Delivery
import SparkRdma.WorkQueue.Handover

/-! # Senders, wire and receiver

The machine `network` joins the two ends of a connection: any number of `send_msg` and
`send_msg_with_header` calls on one transport, each of which draws its data id under `id_lock`,
fills its chunks and posts them in loop order; the reliable connection, which delivers every posted
frame once and in posting order; and the receiving transport's work queue, whose threads move on
their own.

The receiver is given the memory it asks for (`workQueueAnswered` leaves that open), and it appends
a frame to its varray in one step, although the stores of the entry and of `len` are two and hold no
lock.

A posted frame is recorded together with its call and its index in the call. Neither is on the wire:
they and the lists `drawn`, `current` and `stored` are history, read by statements only. -/

namespace SparkRdma

open Interleaving Blocks

/-- A frame, the call that posted it, and its index in the call. -/
structure Posted (ι : Type) where
  /-- The call. -/
  call : ι
  /-- The loop index of the post. -/
  index : ℕ
  /-- What is on the wire. -/
  frame : Frame

/-- The program points of a send call. -/
inductive SenderPc
  /-- Before the section under `id_lock`. -/
  | idle
  /-- Has drawn its data id; the pool and the copy loop are ahead. -/
  | drawn (dataId : UInt32)
  /-- In the loop of `rdma_send_msg`, about to post frame `next`. -/
  | posting (dataId : UInt32) (frames : List Frame) (next : ℕ)

namespace SenderPc

/-- The data id the call has drawn. -/
def dataId? : SenderPc → Option UInt32
  | idle => none
  | drawn dataId => some dataId
  | posting dataId _ _ => some dataId

/-- The number of frames the call has posted. -/
def posts : SenderPc → ℕ
  | posting _ _ next => next
  | _ => 0

end SenderPc

/-- Both ends of a connection and the wire between them. -/
structure NetState (ι : Type) where
  /-- `client->data_id`. -/
  dataId : UInt32
  /-- The program points of the calls. -/
  senders : ι → SenderPc
  /-- The calls in the order in which they drew their data ids. -/
  drawn : List ι
  /-- The frames posted and not yet handed to `handle_recv_event`. -/
  wire : List (Posted ι)
  /-- The receiving transport. -/
  work : WorkState RdmaChunk
  /-- The frame of the current receive event, until it is stored. -/
  current : Option (Posted ι)
  /-- The frames stored in their varrays, oldest first. -/
  stored : List (Posted ι)

/-- The steps of the senders, the adapter and the receiver's threads. -/
inductive NetAct (ι : Type)
  /-- Call `i` draws its data id. -/
  | draw (i : ι)
  /-- Call `i` gets `chain` from the pool and fills it. -/
  | fill (i : ι) (chain : List RdmaChunk)
  /-- Call `i` posts its next frame. -/
  | post (i : ι)
  /-- The next frame lands in the chunk `old`, and `handle_thread` takes up its completion. -/
  | arrive (old : RdmaChunk)
  /-- `handle_thread` takes its next step inside the event. -/
  | handler
  /-- The pool starts a queued work item. -/
  | startItem
  /-- The execution of `work_thread` at index `k` takes its next step. -/
  | worker (k : ℕ)

variable {ι : Type} [DecidableEq ι]

/-- One step of the network. The pool hands out chains of the length asked for. -/
def netStep (calls : ι → SendCall) (s : NetState ι) :
    NetAct ι → Option (Except CFault (NetState ι))
  | .draw i =>
      match s.senders i with
      | .idle => some (.ok { s with
          dataId := s.dataId + 1
          senders := Function.update s.senders i (.drawn s.dataId)
          drawn := s.drawn ++ [i] })
      | _ => none
  | .fill i chain =>
      match s.senders i with
      | .drawn dataId =>
          if chain.length = (calls i).chunkNum.toNat then
            (some ((calls i).frames dataId chain)).map <| Except.map fun frames =>
              { s with senders := Function.update s.senders i (.posting dataId frames 0) }
          else none
      | _ => none
  | .post i =>
      match s.senders i with
      | .posting dataId frames next =>
          match frames[next]? with
          | some frame => some (.ok { s with
              senders := Function.update s.senders i (.posting dataId frames (next + 1))
              wire := s.wire ++ [⟨i, next, frame⟩] })
          | none => none
      | _ => none
  | .arrive old =>
      match s.wire with
      | [] => none
      | p :: rest =>
          (workQueueStep id s.work (.recv p.frame.byteLen (old.land p.frame))).map <|
            Except.map fun work => { s with wire := rest, current := some p, work := work }
  | .handler =>
      (workQueueStep id s.work .handler).map <| Except.map fun work =>
        { s with work := work, stored := s.stored ++ s.current.toList, current := none }
  | .startItem =>
      (workQueueStep id s.work .startItem).map <| Except.map fun work => { s with work := work }
  | .worker k =>
      (workQueueStep id s.work (.worker k)).map <| Except.map fun work => { s with work := work }

/-- The network before any call, the transport's counter standing at `dataId`. -/
def network (calls : ι → SendCall) (dataId : UInt32) : Machine (NetState ι) CFault (NetAct ι) where
  init :=
    { dataId := dataId, senders := fun _ => .idle, drawn := [], wire := [], work := .start,
      current := none, stored := [] }
  step := netStep calls

namespace NetState

/-- Every frame posted so far, in posting order. -/
def sent (s : NetState ι) : List (Posted ι) := s.stored ++ s.current.toList ++ s.wire

/-- The calls in the order in which their first frames were stored. -/
def order (s : NetState ι) : List ι := (s.stored.filter (·.index = 0)).map Posted.call

/-- The number of frames of a call that are stored. -/
def storedOf (s : NetState ι) (i : ι) : ℕ := (s.stored.filter (·.call = i)).length

end NetState

/-- The number of frames of a call's message. -/
def framesOf (calls : ι → SendCall) (i : ι) : ℕ :=
  blockCount rdmaBodySize.toNat (calls i).bytes.length

/-- The callback a call's message is owed. -/
def callbackOf (calls : ι → SendCall) (i : ι) : Callback :=
  ⟨some (calls i).bytes, (calls i).bytes.length⟩

/-- What the senders and the wire preserve. -/
structure SendInv (calls : ι → SendCall) (first : UInt32) (s : NetState ι) : Prop where
  /-- No call draws twice. -/
  drawn_nodup : s.drawn.Nodup
  /-- The counter has moved once per draw. -/
  counter : s.dataId = first + UInt32.ofNat s.drawn.length
  /-- A call's data id is the counter at its draw. -/
  ids : ∀ i dataId, (s.senders i).dataId? = some dataId →
    ∃ t, s.drawn[t]? = some i ∧ dataId = first + UInt32.ofNat t
  /-- A call that has not drawn is not in the list of draws. -/
  undrawn : ∀ i, (s.senders i).dataId? = none → i ∉ s.drawn
  /-- A call posts the frames of its message. -/
  frames : ∀ i dataId frames next, s.senders i = .posting dataId frames next →
    frames = messageFrames dataId (calls i).bytes
  /-- A call's frames were posted in order, without gaps. -/
  posts : ∀ i, (s.sent.filter (·.call = i)).map Posted.index = List.range (s.senders i).posts
  /-- A posted frame is the one of its call and index. -/
  sent_frame : ∀ p ∈ s.sent, ∃ dataId, (s.senders p.call).dataId? = some dataId ∧
    p.frame = messageFrame dataId (calls p.call).bytes p.index ∧ p.index < framesOf calls p.call

namespace SendInv

variable {calls : ι → SendCall} {first : UInt32} {s s' : NetState ι}

/-- **Data ids are distinct**, as long as fewer than `2^32` calls share the counter. -/
theorem dataId_inj [Fintype ι] (hcard : Fintype.card ι < 2 ^ 32) (h : SendInv calls first s)
    {i j : ι} {dataId : UInt32} (hi : (s.senders i).dataId? = some dataId)
    (hj : (s.senders j).dataId? = some dataId) : i = j := by
  obtain ⟨t, ht, rfl⟩ := h.ids i _ hi
  obtain ⟨u, hu, heq⟩ := h.ids j _ hj
  have hlen := h.drawn_nodup.length_le_card
  have ht' := (List.getElem?_eq_some_iff.mp ht).1
  have hu' := (List.getElem?_eq_some_iff.mp hu).1
  have htu : t = u := by
    have := congrArg UInt32.toNat ((UInt32.add_right_inj _).mp heq)
    simp only [UInt32.toNat_ofNat'] at this
    omega
  subst htu
  simpa [ht] using hu

/-- Steps that leave the senders alone and only move frames along preserve the invariant. -/
theorem congr (h : SendInv calls first s) (hdataId : s'.dataId = s.dataId)
    (hsenders : s'.senders = s.senders) (hdrawn : s'.drawn = s.drawn) (hsent : s'.sent = s.sent) :
    SendInv calls first s' := by
  obtain ⟨h₁, h₂, h₃, h₄, h₅, h₆, h₇⟩ := h
  constructor <;> simp only [hdataId, hsenders, hdrawn, hsent] <;> assumption

/-- The network before any call. -/
theorem start : SendInv calls first (network calls first).init := by
  constructor <;> simp [network, NetState.sent, SenderPc.dataId?, SenderPc.posts]

/-- The call of a posted frame is not one that has yet to draw. -/
theorem call_ne (h : SendInv calls first s) {i : ι} (hi : (s.senders i).dataId? = none)
    {p : Posted ι} (hp : p ∈ s.sent) : p.call ≠ i := by
  obtain ⟨dataId, hid, -⟩ := h.sent_frame p hp
  rintro rfl
  simp [hi] at hid

/-- A call draws its data id. -/
theorem draw (h : SendInv calls first s) {i : ι} (hi : s.senders i = .idle)
    (hdataId : s'.dataId = s.dataId + 1)
    (hsenders : s'.senders = Function.update s.senders i (.drawn s.dataId))
    (hdrawn : s'.drawn = s.drawn ++ [i]) (hsent : s'.sent = s.sent) :
    SendInv calls first s' := by
  have hnone : (s.senders i).dataId? = none := by rw [hi]; rfl
  have hnot := h.undrawn i hnone
  have hother : ∀ j, j ≠ i → s'.senders j = s.senders j := fun j hji => by
    rw [hsenders, Function.update_of_ne hji]
  have hself : s'.senders i = .drawn s.dataId := by rw [hsenders, Function.update_self]
  refine { drawn_nodup := ?_, counter := ?_, ids := ?_, undrawn := ?_, frames := ?_, posts := ?_,
           sent_frame := ?_ }
  · rw [hdrawn]
    exact h.drawn_nodup.append (List.nodup_singleton i) (by simpa using hnot)
  · -- The counter and the list of draws grow together.
    rw [hdataId, hdrawn, h.counter, List.length_append, List.length_singleton, UInt32.ofNat_add,
      UInt32.add_assoc]
    rfl
  · intro j dataId hj
    rw [hdrawn]
    by_cases hji : j = i
    · -- The call that draws has the counter as it was, and is the last in the list of draws.
      subst hji
      obtain rfl : s.dataId = dataId := by simpa [hself, SenderPc.dataId?] using hj
      exact ⟨s.drawn.length, by simp, h.counter⟩
    · rw [hother j hji] at hj
      obtain ⟨t, ht, hid⟩ := h.ids j dataId hj
      exact ⟨t, by rw [List.getElem?_append_left (List.getElem?_eq_some_iff.mp ht).1, ht], hid⟩
  · intro j hj
    rw [hdrawn]
    by_cases hji : j = i
    · subst hji
      simp [hself, SenderPc.dataId?] at hj
    · rw [hother j hji] at hj
      simpa [hji] using h.undrawn j hj
  · intro j dataId frames next hj
    by_cases hji : j = i
    · subst hji
      simp [hself] at hj
    · rw [hother j hji] at hj
      exact h.frames j dataId frames next hj
  · intro j
    rw [hsent, h.posts]
    by_cases hji : j = i
    · -- It has posted nothing, before or after.
      subst hji
      rw [hself, hi]
      rfl
    · rw [hother j hji]
  · intro p hp
    rw [hsent] at hp
    obtain ⟨dataId, hid, hrest⟩ := h.sent_frame p hp
    exact ⟨dataId, by rwa [hother _ (h.call_ne hnone hp)], hrest⟩

/-- A call that has drawn moves on under its data id, into its loop or by one post, with nothing
else changed but the frames it posts. -/
theorem advance (h : SendInv calls first s) {i : ι} {dataId : UInt32} {posted : List (Posted ι)}
    (hid : (s.senders i).dataId? = some dataId) (hdataId : s'.dataId = s.dataId)
    (hdrawn : s'.drawn = s.drawn) (hsent : s'.sent = s.sent ++ posted)
    (hsenders : s'.senders = Function.update s.senders i (.posting dataId
      (messageFrames dataId (calls i).bytes) ((s.senders i).posts + posted.length)))
    (hindex : posted.map Posted.index = List.range' (s.senders i).posts posted.length)
    (hposted : ∀ p ∈ posted, p.call = i ∧
      p.frame = messageFrame dataId (calls i).bytes p.index ∧ p.index < framesOf calls i) :
    SendInv calls first s' := by
  have hother : ∀ j, j ≠ i → s'.senders j = s.senders j := fun j hji => by
    rw [hsenders, Function.update_of_ne hji]
  have hself : s'.senders i = .posting dataId (messageFrames dataId (calls i).bytes)
      ((s.senders i).posts + posted.length) := by rw [hsenders, Function.update_self]
  -- No data id changes, so what is said of data ids carries over.
  have hids : ∀ j, (s'.senders j).dataId? = (s.senders j).dataId? := by
    intro j
    by_cases hji : j = i
    · subst hji
      rw [hself, hid]
      rfl
    · rw [hother j hji]
  refine { drawn_nodup := ?_, counter := ?_, ids := ?_, undrawn := ?_, frames := ?_, posts := ?_,
           sent_frame := ?_ }
  · rw [hdrawn]
    exact h.drawn_nodup
  · rw [hdataId, hdrawn]
    exact h.counter
  · intro j d hj
    rw [hdrawn]
    exact h.ids j d (hids j ▸ hj)
  · intro j hj
    rw [hdrawn]
    exact h.undrawn j (hids j ▸ hj)
  · intro j d frames n hj
    by_cases hji : j = i
    · subst hji
      simp only [hself, SenderPc.posting.injEq] at hj
      obtain ⟨rfl, rfl, -⟩ := hj
      rfl
    · rw [hother j hji] at hj
      exact h.frames j d frames n hj
  · intro j
    rw [hsent, List.filter_append, List.map_append, h.posts]
    by_cases hji : j = i
    · -- The frames posted are the call's own, and follow those before them.
      subst hji
      have hall : posted.filter (·.call = j) = posted :=
        List.filter_eq_self.mpr fun p hp => by simp [(hposted p hp).1]
      rw [hall, hindex, hself]
      simp only [SenderPc.posts, List.range_eq_range']
      rw [← List.range'_append_1, zero_add]
    · -- None of them is another call's.
      have hnone : posted.filter (·.call = j) = [] :=
        List.filter_eq_nil_iff.mpr fun p hp => by simp [(hposted p hp).1, Ne.symm hji]
      rw [hnone, List.map_nil, List.append_nil, hother j hji]
  · intro p hp
    rw [hsent, List.mem_append] at hp
    simp only [hids]
    obtain hp | hp := hp
    · exact h.sent_frame p hp
    · obtain ⟨rfl, hframe, hlt⟩ := hposted p hp
      exact ⟨dataId, hid, hframe, hlt⟩

end SendInv

end SparkRdma
