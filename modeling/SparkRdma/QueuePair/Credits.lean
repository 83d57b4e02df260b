import Mathlib.Algebra.BigOperators.Group.Finset.Piecewise
import SparkRdma.QueuePair.Posting

/-! # Receive credits

`poll_thread` replenishes the receives of a transport: when it meets the first frame of a message in
a polled batch it posts as many receives as the message has frames, and for the later frames none.
The machine `pollThread` runs its loop against the adapter, which lands the frames of any number of
messages in the posted receives, and against the other threads, which take chunks from the pool,
release them and post sends.

* **`pollBody`** — the body of the loop over a batch, for one completion.
* **`owed`** — the frames still to come of the messages that have begun.
* **`credits_conserved`** — the receives posted and not yet processed are `MAX_PRE_RECV_QP` and what
  is owed, in every state reached. -/

namespace SparkRdma

open Interleaving Finset

/-- `MAX_PRE_RECV_QP`. -/
def maxPreRecvQp : UInt32 := 1024

/-- `MAX_EVENT_PER_POLL`. -/
def maxEventPerPoll : ℕ := 128

/-- A work completion. The message of a received frame is history: nothing reads it but
statements. -/
inductive Completion (χ μ : Type)
  /-- `IBV_WC_SEND`, with the request that is complete. -/
  | send (wr : χ × UInt32)
  /-- `IBV_WC_RECV`, with the request and the frame that landed in its chunk. -/
  | recv (wr : χ × UInt32) (msg : μ) (frame : Frame)

variable {χ μ : Type}

namespace Completion

/-- The message of a received frame. -/
def msg? : Completion χ μ → Option μ
  | send _ => none
  | recv _ msg _ => some msg

@[simp] theorem msg?_send (wr : χ × UInt32) : (send wr : Completion χ μ).msg? = none := rfl

@[simp] theorem msg?_recv (wr : χ × UInt32) (msg : μ) (frame : Frame) :
    (recv wr msg frame).msg? = some msg := rfl

end Completion

/-- How `poll_thread` replenishes the receives after a chunk with this header has arrived. -/
def replenishFor (header : ChunkHeader) : Option PostCall :=
  if header.chunkId = 0 then
    if header.chunkNum = 1 then some .recv else some (.recvWithNum header.chunkNum)
  else none

/-- What `poll_thread` does for a frame posts receives, never a send. -/
theorem replenishFor_ne_send {header : ChunkHeader} {call : PostCall}
    (h : replenishFor header = some call) : ∀ c, call ≠ .send c := by
  rintro c rfl
  unfold replenishFor at h
  split at h
  · split at h <;> cases h
  · cases h

/-- How `poll_thread` replenishes the receives after this completion. -/
def Completion.replenish : Completion χ μ → Option PostCall
  | send _ => none
  | recv _ _ frame => replenishFor frame.header

/-- The body of the loop of `poll_thread` over a batch. What `rdma_transport_recv` returns is not
looked at. -/
def pollBody (s : Endpoint χ) (wc : Completion χ μ) (fresh : Option (List χ)) (res : ℕ → ℤ) :
    Except CFault (Endpoint χ) :=
  match wc.replenish with
  | none => .ok s
  | some call => (call.run s fresh res).map fun (_, _, s) => s

/-- A transport as `poll_thread` sees it. -/
structure PollState (χ μ : Type) where
  /-- The pool and the requests the adapter has not completed. -/
  endpoint : Endpoint χ
  /-- The completion queue. -/
  cq : List (Completion χ μ)
  /-- The rest of the batch the loop is going over. -/
  batch : List (Completion χ μ)
  /-- The messages of the receive completions the loop has processed, in order: history. -/
  processed : List μ

/-- The steps of `poll_thread` and of everything around it. -/
inductive PollAct (χ μ : Type)
  /-- A frame of `msg` lands in the oldest posted receive. -/
  | arrive (msg : μ) (frame : Frame)
  /-- The oldest posted send completes. -/
  | sent
  /-- `ibv_poll_cq` returns the `eventNum` oldest completions. -/
  | poll (eventNum : ℕ)
  /-- The loop processes the next completion of the batch; an append to the pool would bring
  `fresh`, and post `i` of the call returns `res i`. -/
  | process (fresh : Option (List χ)) (res : ℕ → ℤ)
  /-- Other threads change the free list and the posted sends. -/
  | others (free : List χ) (sends : List (χ × UInt32))

/-- One step. -/
def pollStep (s : PollState χ μ) : PollAct χ μ → Option (Except CFault (PollState χ μ))
  | .arrive msg frame =>
      match s.endpoint.recvs with
      | [] => none
      | wr :: recvs => some (.ok { s with
          endpoint := { s.endpoint with recvs := recvs }
          cq := s.cq ++ [.recv wr msg frame] })
  | .sent =>
      match s.endpoint.sends with
      | [] => none
      | wr :: sends => some (.ok { s with
          endpoint := { s.endpoint with sends := sends }
          cq := s.cq ++ [.send wr] })
  | .poll eventNum =>
      -- The loop polls again once it is through with the last batch.
      if s.batch = [] ∧ eventNum ≤ maxEventPerPoll ∧ eventNum ≤ s.cq.length then
        some (.ok { s with cq := s.cq.drop eventNum, batch := s.cq.take eventNum })
      else none
  | .process fresh res =>
      match s.batch with
      | [] => none
      | wc :: batch => some <| (pollBody s.endpoint wc fresh res).map fun endpoint => { s with
          endpoint := endpoint
          batch := batch
          processed := s.processed ++ wc.msg?.toList }
  | .others free sends =>
      some (.ok { s with endpoint := { s.endpoint with free := free, sends := sends } })

/-- `poll_thread` on a transport on which `rdma_create_connect` has left `start`. -/
def pollThread (start : Endpoint χ) : Machine (PollState χ μ) CFault (PollAct χ μ) where
  init := ⟨start, [], [], []⟩
  step := pollStep

namespace PollState

/-- The completions the loop has yet to process, oldest first. -/
def pending (s : PollState χ μ) : List (Completion χ μ) := s.batch ++ s.cq

/-- The messages of the frames that have landed, in order. -/
def arrived (s : PollState χ μ) : List μ := s.processed ++ s.pending.filterMap Completion.msg?

/-- The number of receives posted and not yet processed. -/
def outstanding (s : PollState χ μ) : ℕ :=
  s.endpoint.recvs.length + (s.pending.filterMap Completion.msg?).length

end PollState

variable [DecidableEq μ]

/-- A frame is the next one of its message: it has the index `seen` tells, and the message has more
frames than were seen. -/
structure NextFrame (num : μ → ℕ) (seen : List μ) (msg : μ) (frame : Frame) : Prop where
  /-- The header tells the number of frames of the message. -/
  chunkNum : frame.header.chunkNum.toNat = num msg
  /-- The header tells how many frames of the message came before. -/
  chunkId : frame.header.chunkId.toNat = seen.count msg
  /-- The message is not over. -/
  count_lt : seen.count msg < num msg

/-- The frames of each message arrive in order, and every call that `poll_thread` makes gets its
chunks from the pool and posts them. -/
def Orderly (num : μ → ℕ) (s : PollState χ μ) : PollAct χ μ → Prop
  | .arrive msg frame => NextFrame num s.arrived msg frame
  | .process fresh res => (∀ i, res i = 0) ∧ ∀ wc call, s.batch.head? = some wc →
      wc.replenish = some call → (call.take s.endpoint fresh).isSome
  | _ => True

/-- The frames still to come of the messages in `seen`. -/
def owed (num : μ → ℕ) (seen : List μ) : ℕ := ∑ msg ∈ seen.toFinset, (num msg - seen.count msg)

/-! ### What is owed -/

/-- Nothing is owed when no message has begun. -/
@[simp] theorem owed_nil (num : μ → ℕ) : owed num [] = 0 := rfl

/-- The first frame of a message brings in the others. -/
theorem owed_append_first {num : μ → ℕ} {seen : List μ} {msg : μ} (hmsg : msg ∉ seen)
    (hnum : 0 < num msg) : owed num (seen ++ [msg]) + 1 = owed num seen + num msg := by
  have hold : ∀ m ∈ seen.toFinset,
      num m - (seen ++ [msg]).count m = num m - seen.count m := by
    intro m hm
    have hne : msg ≠ m := fun h => hmsg (h ▸ List.mem_toFinset.mp hm)
    simp [List.count_append, hne]
  have hset : (seen ++ [msg]).toFinset = insert msg seen.toFinset := by
    ext m
    simp
  have hzero : (seen ++ [msg]).count msg = 1 := by
    simp [List.count_append, List.count_eq_zero_of_not_mem hmsg]
  rw [owed, hset, sum_insert (by simpa using hmsg), sum_congr rfl hold, hzero, owed]
  omega

/-- A later frame of a message is one less to come. -/
theorem owed_append_later {num : μ → ℕ} {seen : List μ} {msg : μ} (hmsg : msg ∈ seen)
    (hcount : seen.count msg < num msg) : owed num (seen ++ [msg]) + 1 = owed num seen := by
  have hmem : msg ∈ seen.toFinset := List.mem_toFinset.mpr hmsg
  have hset : (seen ++ [msg]).toFinset = seen.toFinset := by
    ext m
    simp only [List.toFinset_append, mem_union, List.mem_toFinset, List.mem_singleton]
    exact or_iff_left_of_imp fun h => h ▸ hmsg
  have hother : ∀ m ∈ seen.toFinset.erase msg,
      num m - (seen ++ [msg]).count m = num m - seen.count m := by
    intro m hm
    simp [List.count_append, (ne_of_mem_erase hm).symm]
  have hself : (seen ++ [msg]).count msg = seen.count msg + 1 := by
    simp [List.count_append]
  rw [owed, hset, ← add_sum_erase _ _ hmem, sum_congr rfl hother, hself, owed,
    ← add_sum_erase _ (fun m => num m - seen.count m) hmem]
  omega

/-! ### The frames are processed in turn -/

/-- The frames of a list of completions come in turn, after the frames of `seen`. -/
def InTurn (num : μ → ℕ) : List μ → List (Completion χ μ) → Prop
  | _, [] => True
  | seen, .send _ :: wcs => InTurn num seen wcs
  | seen, .recv _ msg frame :: wcs =>
      NextFrame num seen msg frame ∧ InTurn num (seen ++ [msg]) wcs

/-- A send that completes changes no turn. -/
theorem InTurn.append_send {num : μ → ℕ} {wcs : List (Completion χ μ)} (wr : χ × UInt32) :
    ∀ {seen}, InTurn num seen wcs → InTurn num seen (wcs ++ [.send wr]) := by
  induction wcs with
  | nil => exact fun h => h
  | cons wc wcs ih =>
    intro seen h
    cases wc with
    | send wr' => exact ih h
    | recv wr' msg frame => exact ⟨h.1, ih h.2⟩

/-- The frame that lands next is in turn behind those that have landed. -/
theorem InTurn.append_recv {num : μ → ℕ} {wcs : List (Completion χ μ)} {msg : μ} {frame : Frame}
    (wr : χ × UInt32) : ∀ {seen}, InTurn num seen wcs →
      NextFrame num (seen ++ wcs.filterMap Completion.msg?) msg frame →
      InTurn num seen (wcs ++ [.recv wr msg frame]) := by
  induction wcs with
  | nil =>
    intro seen _ hnext
    rw [List.filterMap_nil, List.append_nil] at hnext
    exact ⟨hnext, trivial⟩
  | cons wc wcs ih =>
    intro seen h hnext
    cases wc with
    | send wr' => exact ih h hnext
    | recv wr' m f =>
      refine ⟨h.1, ih h.2 ?_⟩
      rwa [List.append_assoc]

/-! ### Replenishing -/

omit [DecidableEq μ] in
/-- The loop only ever posts receives. -/
theorem Completion.replenish_ne_send {wc : Completion χ μ} {call : PostCall}
    (hcall : wc.replenish = some call) (c : SendCall) : call ≠ .send c := by
  cases wc with
  | send wr => cases hcall
  | recv wr msg frame => exact replenishFor_ne_send hcall c

omit [DecidableEq μ] in
/-- **What the loop does for a completion** whose call succeeds: it posts the receives the call is
for, and nothing else. -/
theorem pollBody_ok (s : Endpoint χ) (wc : Completion χ μ) (fresh : Option (List χ)) {res : ℕ → ℤ}
    (hres : ∀ i, res i = 0)
    (htake : ∀ call, wc.replenish = some call → (call.take s fresh).isSome) :
    ∃ s', pollBody s wc fresh res = .ok s' ∧
      s'.recvs.length = s.recvs.length + (wc.replenish.map PostCall.posts).getD 0 := by
  unfold pollBody
  cases hcall : wc.replenish with
  | none => exact ⟨s, rfl, rfl⟩
  | some call =>
    obtain ⟨⟨taken, s₁⟩, hsome⟩ := Option.isSome_iff_exists.mp (htake call hcall)
    obtain ⟨s', hrun, -, hqueue⟩ :=
      PostCall.run_of_take_some (fun i => (hres i).ge) hsome
    have hlength := (PostCall.take_some hsome).1
    refine ⟨s', by simp only [hrun, Except.map], ?_⟩
    have hreceives := Completion.replenish_ne_send hcall
    rw [accepted_of_forall hres, PostCall.queue_of_receives hreceives,
      PostCall.queue_of_receives hreceives] at hqueue
    have hcount := congrArg List.length hqueue
    simpa [hlength] using hcount

/-- The first frame of a message is answered with a receive for every frame of the message, the
later frames with none. -/
theorem replenish_of_nextFrame {num : μ → ℕ} {seen : List μ} {msg : μ} {frame : Frame}
    (h : NextFrame num seen msg frame) (wr : χ × UInt32) :
    ((Completion.recv wr msg frame).replenish.map PostCall.posts).getD 0
      = if msg ∈ seen then 0 else num msg := by
  have hid : frame.header.chunkId = 0 ↔ msg ∉ seen := by
    rw [← List.count_eq_zero, ← h.chunkId]
    exact ⟨fun h => by rw [h]; rfl, fun h => UInt32.toNat_inj.mp h⟩
  by_cases hmem : msg ∈ seen
  · -- A later frame has a `chunk_id` other than 0, which asks for nothing.
    have hne : frame.header.chunkId ≠ 0 := fun h => hid.mp h hmem
    simp [Completion.replenish, replenishFor, hne, hmem]
  · rw [if_neg hmem, ← h.chunkNum]
    simp only [Completion.replenish, replenishFor, if_pos (hid.mpr hmem)]
    split
    · rename_i hone
      simp [PostCall.posts, hone]
    · rfl

/-! ### The frames alone -/

/-- The frames of each message arrive in order. -/
def InOrder (num : μ → ℕ) (s : PollState χ μ) : PollAct χ μ → Prop
  | .arrive msg frame => NextFrame num s.arrived msg frame
  | _ => True

/-- In particular when the calls of `poll_thread` succeed. -/
theorem Orderly.inOrder {num : μ → ℕ} {s : PollState χ μ} {a : PollAct χ μ} (h : Orderly num s a) :
    InOrder num s a := by
  cases a with
  | arrive msg frame => exact h
  | _ => trivial

/-- What holds of the frames, whatever becomes of the calls of `poll_thread`. -/
structure TurnInv (num : μ → ℕ) (s : PollState χ μ) : Prop where
  /-- The completions to come are in turn. -/
  inTurn : InTurn num s.processed s.pending
  /-- No message has had more frames than it has. -/
  count_le : ∀ msg, s.processed.count msg ≤ num msg

namespace TurnInv

variable {num : μ → ℕ} {s s' : PollState χ μ}

/-- A step that changes neither the completions to come nor what was processed. -/
theorem congr (h : TurnInv num s) (hpending : s'.pending = s.pending)
    (hprocessed : s'.processed = s.processed) : TurnInv num s' where
  inTurn := by rw [hpending, hprocessed]; exact h.inTurn
  count_le := hprocessed ▸ h.count_le

/-- The completion the loop comes to is the next frame of its message. -/
theorem nextFrame (h : TurnInv num s) {wr : χ × UInt32} {msg : μ} {frame : Frame}
    {batch : List (Completion χ μ)} (hbatch : s.batch = .recv wr msg frame :: batch) :
    NextFrame num s.processed msg frame := by
  have hturn := h.inTurn
  rw [PollState.pending, hbatch] at hturn
  exact hturn.1

/-- The receives the loop posts for the frame it comes to make up for what is owed afterwards. -/
theorem owed_processed (h : TurnInv num s) {wc : Completion χ μ} {batch : List (Completion χ μ)}
    (hbatch : s.batch = wc :: batch) :
    owed num (s.processed ++ wc.msg?.toList) + wc.msg?.toList.length
      = owed num s.processed + (wc.replenish.map PostCall.posts).getD 0 := by
  cases wc with
  | send wr => simp [Completion.replenish]
  | recv wr msg frame =>
    have hnext := h.nextFrame hbatch
    rw [replenish_of_nextFrame hnext]
    -- A first frame makes its message owed; a later one settles itself.
    by_cases hmem : msg ∈ s.processed
    · simpa [hmem] using owed_append_later hmem hnext.count_lt
    · simpa [hmem] using owed_append_first hmem (Nat.zero_lt_of_lt hnext.count_lt)

/-- The loop processes the completion `wc`. -/
theorem process (h : TurnInv num s) {wc : Completion χ μ} {batch : List (Completion χ μ)}
    (endpoint : Endpoint χ) (hbatch : s.batch = wc :: batch) :
    TurnInv num { s with
      endpoint := endpoint, batch := batch, processed := s.processed ++ wc.msg?.toList } := by
  have hturn := h.inTurn
  rw [PollState.pending, hbatch, List.cons_append] at hturn
  cases wc with
  | send wr =>
    refine ⟨?_, ?_⟩
    · simpa [PollState.pending, InTurn] using hturn
    · simpa using h.count_le
  | recv wr msg frame =>
    refine ⟨hturn.2, fun m => ?_⟩
    have hle := h.count_le m
    have hlt := (h.nextFrame hbatch).count_lt
    by_cases hm : msg = m
    · subst hm
      simpa [List.count_append] using Nat.succ_le_of_lt hlt
    · simpa [List.count_append, hm] using hle

/-- **One step** preserves the order, as long as frames arrive in order. -/
theorem step (h : TurnInv num s) {a : PollAct χ μ} (horder : InOrder num s a)
    (hstep : pollStep s a = some (.ok s')) : TurnInv num s' := by
  cases a with
  | arrive msg frame =>
    simp only [pollStep] at hstep
    split at hstep <;> cases hstep
    refine ⟨?_, h.count_le⟩
    simpa [PollState.pending] using h.inTurn.append_recv _ horder
  | sent =>
    simp only [pollStep] at hstep
    split at hstep <;> cases hstep
    refine ⟨?_, h.count_le⟩
    simpa [PollState.pending] using h.inTurn.append_send _
  | poll eventNum =>
    simp only [pollStep] at hstep
    split at hstep
    · rename_i hguard
      cases hstep
      exact h.congr (by simp [PollState.pending, hguard.1]) rfl
    · cases hstep
  | process fresh res =>
    simp only [pollStep] at hstep
    split at hstep
    · cases hstep
    · rename_i wc batch hbatch
      cases hbody : pollBody s.endpoint wc fresh res with
      | error e => simp [hbody, Except.map] at hstep
      | ok endpoint =>
        rw [hbody] at hstep
        cases hstep
        exact h.process endpoint hbatch
  | others free sends =>
    cases hstep
    exact h.congr rfl rfl

end TurnInv

/-! ### The invariant -/

/-- What every step preserves. -/
structure CreditInv (num : μ → ℕ) (s : PollState χ μ) : Prop where
  /-- The completions to come are in turn. -/
  inTurn : InTurn num s.processed s.pending
  /-- No message has had more frames than it has. -/
  count_le : ∀ msg, s.processed.count msg ≤ num msg
  /-- The credits. -/
  credits : s.outstanding = maxPreRecvQp.toNat + owed num s.processed

namespace CreditInv

variable {num : μ → ℕ} {s s' : PollState χ μ}

/-- The part about the frames alone. -/
theorem turn (h : CreditInv num s) : TurnInv num s := ⟨h.inTurn, h.count_le⟩

/-- The credits after the loop has processed the completion `wc`. -/
theorem process (h : CreditInv num s) {wc : Completion χ μ} {batch : List (Completion χ μ)}
    {endpoint : Endpoint χ} (hbatch : s.batch = wc :: batch)
    (hrecvs : endpoint.recvs.length
      = s.endpoint.recvs.length + (wc.replenish.map PostCall.posts).getD 0) :
    endpoint.recvs.length + ((batch ++ s.cq).filterMap Completion.msg?).length
      = maxPreRecvQp.toNat + owed num (s.processed ++ wc.msg?.toList) := by
  have hcredits := h.credits
  have howed := h.turn.owed_processed hbatch
  simp only [PollState.outstanding, PollState.pending, hbatch, List.cons_append] at hcredits
  cases wc with
  | send wr =>
    rw [List.filterMap_cons_none (Completion.msg?_send wr)] at hcredits
    simp only [Completion.msg?_send, Option.toList_none, List.length_nil] at howed ⊢
    omega
  | recv wr msg frame =>
    rw [List.filterMap_cons_some (Completion.msg?_recv wr msg frame), List.length_cons] at hcredits
    simp only [Completion.msg?_recv, Option.toList_some, List.length_singleton] at howed ⊢
    omega

/-- **One step** that meets the condition preserves the invariant. -/
theorem step (h : CreditInv num s) {a : PollAct χ μ} (horderly : Orderly num s a)
    (hstep : pollStep s a = some (.ok s')) : CreditInv num s' := by
  obtain ⟨hturn, hcount⟩ := h.turn.step horderly.inOrder hstep
  refine ⟨hturn, hcount, ?_⟩
  have hcredits := h.credits
  cases a with
  | arrive msg frame =>
    simp only [pollStep] at hstep
    split at hstep
    · cases hstep
    · rename_i wr recvs hrecvs
      cases hstep
      -- The receive that is filled counts among the completions from here on.
      rw [PollState.outstanding, hrecvs] at hcredits
      simp only [PollState.outstanding, PollState.pending, ← hcredits]
      simp
      omega
  | sent =>
    simp only [pollStep] at hstep
    split at hstep <;> cases hstep
    simpa [PollState.outstanding, PollState.pending, List.filterMap_cons] using hcredits
  | poll eventNum =>
    simp only [pollStep] at hstep
    split at hstep
    · rename_i hguard
      cases hstep
      simpa [PollState.outstanding, PollState.pending, hguard.1] using hcredits
    · cases hstep
  | process fresh res =>
    simp only [pollStep] at hstep
    split at hstep
    · cases hstep
    · rename_i wc batch hbatch
      obtain ⟨endpoint, hbody, hrecvs⟩ := pollBody_ok s.endpoint wc fresh
        horderly.1 fun call => horderly.2 wc call (by rw [hbatch]; rfl)
      rw [hbody] at hstep
      cases hstep
      exact h.process hbatch hrecvs
  | others free sends =>
    cases hstep
    exact hcredits

end CreditInv

/-- `rdma_create_connect` on a fresh queue pair leaves `MAX_PRE_RECV_QP` posted receives. -/
theorem length_recvs_created {created start : Endpoint χ} {fresh : Option (List χ)} {res : ℕ → ℤ}
    {taken : List χ} (hnew : created.recvs = []) (hres : ∀ i, res i = 0)
    (hstart : created.rdmaTransportRecvWithNum maxPreRecvQp fresh res = .ok (0, taken, start)) :
    start.recvs.length = maxPreRecvQp.toNat := by
  have hrun : (PostCall.recvWithNum maxPreRecvQp).run created fresh res = .ok (0, taken, start) :=
    hstart
  cases htake : (PostCall.recvWithNum maxPreRecvQp).take created fresh with
  | none =>
    rcases PostCall.run_of_take_none htake res with ⟨e, herr⟩ | hok
    · rw [herr] at hrun
      cases hrun
    · rw [hok] at hrun
      cases hrun
  | some result =>
    obtain ⟨s', hrun', -, hqueue⟩ :=
      PostCall.run_of_take_some (fun i => (hres i).ge) htake
    obtain rfl : start = s' := by
      rw [hrun] at hrun'
      cases hrun'
      rfl
    rw [accepted_of_forall hres] at hqueue
    have hlength := congrArg List.length hqueue
    simpa [PostCall.queue, hnew, (PostCall.take_some htake).1, PostCall.posts] using hlength

/-- **Receive credits are conserved.** After `rdma_create_connect`, and as long as the frames of
each message arrive in order and the calls of `poll_thread` succeed, in every state reached: the
receives posted and not yet processed are `MAX_PRE_RECV_QP` and, over the messages whose first frame
was processed, the frames not yet processed. So they are never fewer than `MAX_PRE_RECV_QP`, they
are exactly so many when no message is partly received, and no step aborts. -/
theorem credits_conserved (num : μ → ℕ) {created start : Endpoint χ} {fresh : Option (List χ)}
    {res : ℕ → ℤ} {taken : List χ} (hnew : created.recvs = []) (hres : ∀ i, res i = 0)
    (hstart : created.rdmaTransportRecvWithNum maxPreRecvQp fresh res = .ok (0, taken, start))
    {s : PollState χ μ} (hs : (pollThread start).ReachableUnder (Orderly num) s) :
    s.outstanding = maxPreRecvQp.toNat
        + ∑ msg ∈ s.processed.toFinset, (num msg - s.processed.count msg) ∧
      (∀ msg, s.processed.count msg ≤ num msg) ∧
      maxPreRecvQp.toNat ≤ s.outstanding ∧
      ((∀ msg ∈ s.processed, s.processed.count msg = num msg) →
        s.outstanding = maxPreRecvQp.toNat) ∧
      ∀ a e, Orderly num s a → pollStep s a ≠ some (.error e) := by
  have hinv : CreditInv num s := by
    refine hs.invariant ?_ fun _ _ _ _ h horderly hstep => h.step horderly hstep
    refine ⟨trivial, fun _ => Nat.zero_le _, ?_⟩
    have hlength := length_recvs_created hnew hres hstart
    simpa [PollState.outstanding, PollState.pending, pollThread] using hlength
  refine ⟨hinv.credits, hinv.count_le, hinv.credits ▸ Nat.le_add_right _ _, fun hall => ?_, ?_⟩
  · rw [hinv.credits, owed, sum_eq_zero, Nat.add_zero]
    intro msg hmsg
    rw [hall msg (List.mem_toFinset.mp hmsg), Nat.sub_self]
  · intro a e horderly herr
    cases a with
    | process fresh res =>
      simp only [pollStep] at herr
      split at herr
      · cases herr
      · rename_i wc batch hbatch
        obtain ⟨endpoint, hbody, -⟩ := pollBody_ok s.endpoint wc fresh
          horderly.1 fun call => horderly.2 wc call (by rw [hbatch]; rfl)
        rw [hbody] at herr
        cases herr
    | _ =>
      simp only [pollStep] at herr
      try split at herr
      all_goals cases herr

/-- The first of two frames. -/
def firstOfTwo : Frame := ⟨⟨0, 0, 1, 2, 0, 2⟩, [7], by decide, 22⟩

/-- `rdma_create_connect` posts the receives of a pool that has `MAX_PRE_RECV_QP` chunks. -/
theorem preReceive_range :
    (⟨List.range' 0 1024, [], []⟩ : Endpoint ℕ).rdmaTransportRecvWithNum maxPreRecvQp none
      (fun _ => 0) = .ok (0, List.range' 0 1024,
        ⟨[], [], (List.range' 0 1024).map fun chunk => (chunk, rdmaChunkSize)⟩) := by
  have htake : (⟨List.range' 0 1024, [], []⟩ : Endpoint ℕ).getChunkList none maxPreRecvQp
      = some (List.range' 0 1024, ⟨[], [], []⟩) := by
    simp [Endpoint.getChunkList, maxPreRecvQp]
  have hdata : chunkArray 1024 (List.range' 0 1024) = .ok (List.range' 0 1024) := by
    simpa using chunkArray_length (List.range' 0 1024)
  simp only [Endpoint.rdmaTransportRecvWithNum, htake]
  rw [show maxPreRecvQp.toNat = 1024 from rfl, hdata, ok_bind,
    Endpoint.postLoop_ok (fun _ => le_refl 0) Endpoint.postRecv_ok,
    accepted_of_forall (fun _ => rfl), Endpoint.foldl_push_recvs]
  rfl

/-- The conservation on a run: a message of two frames begins, and 1025 receives are outstanding. -/
theorem credits_conserved_firstOfTwo :
    ∃ s : PollState ℕ ℕ, s.processed = [0] ∧ s.outstanding = 1025 := by
  have h : (pollThread ⟨[], [], (List.range' 0 1024).map fun chunk => (chunk, rdmaChunkSize)⟩ :
      Machine (PollState ℕ ℕ) CFault (PollAct ℕ ℕ)).ReachableUnder (Orderly fun _ => 2) _ := .init
  have h := h.next (a := PollAct.arrive 0 firstOfTwo) ⟨rfl, rfl, by decide⟩ rfl
  have h := h.next (a := PollAct.poll 1) trivial rfl
  have h := h.next (a := PollAct.process (some [5000, 5001]) fun _ => 0)
    ⟨fun _ => rfl, fun wc call hwc hcall => by cases hwc; cases hcall; rfl⟩ rfl
  exact ⟨_, rfl, (credits_conserved (fun _ => 2) rfl (fun _ => rfl) preReceive_range h).1⟩

end SparkRdma
