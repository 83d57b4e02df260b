import Mathlib.Data.Fintype.EquivFin
import SparkRdma.QueuePair.Credits

/-! # Queue capacities

`rdma_create_connect` asks for `MAX_CQE` entries in the send queue and in the receive queue, and for
`MAX_CQE + 1` in the completion queue that the two share. An entry of the send or the receive queue
is in use from the post until the completion has been polled. Nothing in `poll_thread` or in the
send functions looks at how full a queue is.

* **`pollThreadIssued`** — `poll_thread`, counting the calls of `ibv_post_recv`.
* **`receive_queue_overfilled`**, **`completion_queue_overruns`** — neither of the two is big
  enough.
* **`receives_fit`** — the receive queue is while no more than `MAX_CQE - MAX_PRE_RECV_QP` frames
  are owed beyond what was polled.
* **`completions_fit`** — the completion queue is while no more than `MAX_CQE + 1` requests are
  posted and not yet polled. -/

namespace SparkRdma

open Interleaving Blocks

variable {χ μ : Type}

/-! ### How full the queues are -/

namespace PollState

/-- The number of receive completions polled. -/
def polled (s : PollState χ μ) : ℕ :=
  s.processed.length + (s.batch.filterMap Completion.msg?).length

/-- The entries of the receive queue in use. -/
def recvDepth (s : PollState χ μ) : ℕ :=
  s.endpoint.recvs.length + (s.cq.filterMap Completion.msg?).length

/-- The entries of the send queue in use. -/
def sendDepth (s : PollState χ μ) : ℕ :=
  s.endpoint.sends.length + s.cq.countP fun wc => wc.msg?.isNone

/-- The requests of both queues that are posted and not yet polled. -/
def posted (s : PollState χ μ) : ℕ :=
  s.endpoint.sends.length + s.endpoint.recvs.length + s.cq.length

/-- Both queues are within what `rdma_create_connect` asked for. -/
def WithinQueues (s : PollState χ μ) : Prop := s.sendDepth ≤ maxCqe ∧ s.recvDepth ≤ maxCqe

end PollState

/-- The calls of `ibv_post_recv` that the loop makes for a completion: none when the pool fails. -/
def Completion.recvPosts (wc : Completion χ μ) (s : Endpoint χ) (fresh : Option (List χ)) : ℕ :=
  match wc.replenish with
  | none => 0
  | some call => if (call.take s fresh).isSome then call.posts else 0

/-- The calls of `ibv_post_recv` in one step. -/
def recvPosts (s : PollState χ μ) : PollAct χ μ → ℕ
  | .process fresh _ =>
      match s.batch with
      | [] => 0
      | wc :: _ => wc.recvPosts s.endpoint fresh
  | _ => 0

/-- `poll_thread`, with the number of `ibv_post_recv` calls issued so far: those of
`rdma_create_connect` to begin with. -/
def pollThreadIssued (start : Endpoint χ) : Machine (PollState χ μ × ℕ) CFault (PollAct χ μ) :=
  (pollThread start).recording maxPreRecvQp.toNat fun s a issued => issued + recvPosts s a

/-! ### What surrounds the transport -/

/-- The number of frames of a message. -/
def frameCount (msg : List UInt8) : ℕ := blockCount rdmaBodySize.toNat msg.length

variable [DecidableEq μ]

/-- The peer's traffic is the frames of the messages `bytes`, those of each message in order. -/
def Arrives (dataId : μ → UInt32) (bytes : μ → List UInt8) (s : PollState χ μ) :
    PollAct χ μ → Prop
  | .arrive msg frame =>
      (messageFrames (dataId msg) (bytes msg))[s.arrived.count msg]? = some frame
  | _ => True

/-- `ibv_post_recv` accepts a request exactly while the receive queue has an unused entry, and
otherwise returns a positive error number. -/
def ToCapacity (s : PollState χ μ) : PollAct χ μ → Prop
  | .process _ res => ∀ i, 0 ≤ res i ∧ (res i = 0 ↔ s.recvDepth + i < maxCqe)
  | _ => True

/-- What the other threads do to the transport is to call `send_msg` or `send_msg_with_header`. -/
def LocalSends (s : PollState χ μ) : PollAct χ μ → Prop
  | .others free sends => ∃ call fresh res taken s',
      s.endpoint.send call fresh res = .ok (0, taken, s') ∧ free = s'.free ∧ sends = s'.sends
  | _ => True

omit [DecidableEq μ] in
/-- The messages have fewer than `2^32` frames. -/
theorem frameCount_lt {msg : List UInt8} (hmsg : msg.length < 2 ^ 31) :
    frameCount msg < 2 ^ 32 := by
  have hle : frameCount msg ≤ msg.length := blockCount_le (by simp) _
  omega

/-- Frame `i` of a message. -/
theorem getElem?_messageFrames {dataId : UInt32} {msg : List UInt8} {i : ℕ}
    (hi : i < frameCount msg) :
    (messageFrames dataId msg)[i]? = some (messageFrame dataId msg i) := by
  have hget : (List.range (blockCount rdmaBodySize.toNat msg.length))[i]? = some i :=
    List.getElem?_range hi
  rw [messageFrames, List.getElem?_map, hget, Option.map_some]

/-- Traffic that arrives as the messages' frames is in order. -/
theorem Arrives.inOrder {dataId : μ → UInt32} {bytes : μ → List UInt8}
    (hbytes : ∀ msg, (bytes msg).length < 2 ^ 31) {s : PollState χ μ} {a : PollAct χ μ}
    (h : Arrives dataId bytes s a) : InOrder (fun msg => frameCount (bytes msg)) s a := by
  cases a with
  | arrive msg frame =>
    obtain ⟨hlt, hframe⟩ := List.getElem?_eq_some_iff.mp h
    rw [messageFrames, List.length_map, List.length_range] at hlt
    have hcount := frameCount_lt (hbytes msg)
    have hlt : s.arrived.count msg < frameCount (bytes msg) := hlt
    obtain rfl : messageFrame (dataId msg) (bytes msg) (s.arrived.count msg) = frame := by
      simpa [messageFrames] using hframe
    refine ⟨?_, ?_, hlt⟩
    · exact UInt32.toNat_ofNat_of_lt hcount
    · exact UInt32.toNat_ofNat_of_lt (hlt.trans hcount)
  | _ => trivial

/-- When the loop comes to the first frame of a message, the frames owed from there on are no more
than the receive queue has entries beyond `MAX_PRE_RECV_QP` and the batch has receives left. -/
def RoomFor (num : μ → ℕ) (s : PollState χ μ) : PollAct χ μ → Prop
  | .process _ _ => ∀ wr msg frame batch, s.batch = .recv wr msg frame :: batch →
      msg ∉ s.processed → owed num (s.processed ++ [msg])
        ≤ maxCqe - maxPreRecvQp.toNat + (batch.filterMap Completion.msg?).length
  | _ => True

/-! ### What a step issues -/

omit [DecidableEq μ] in
/-- The calls are for no more receives than the completion asks for. -/
theorem Completion.recvPosts_le (wc : Completion χ μ) (s : Endpoint χ) (fresh : Option (List χ)) :
    wc.recvPosts s fresh ≤ (wc.replenish.map PostCall.posts).getD 0 := by
  unfold Completion.recvPosts
  cases wc.replenish with
  | none => exact le_refl _
  | some call =>
    dsimp only
    split
    · exact le_refl _
    · exact Nat.zero_le _

omit [DecidableEq μ] in
/-- **What the loop queues for a completion**, whatever the pool and the posts return: no send, and
no more receives than it issues. -/
theorem pollBody_recvs_le {s s' : Endpoint χ} {wc : Completion χ μ} {fresh : Option (List χ)}
    {res : ℕ → ℤ} (h : pollBody s wc fresh res = .ok s') :
    s'.sends = s.sends ∧ s'.recvs.length ≤ s.recvs.length + wc.recvPosts s fresh := by
  unfold pollBody at h
  unfold Completion.recvPosts
  cases hcall : wc.replenish with
  | none =>
    rw [hcall] at h
    cases h
    exact ⟨rfl, le_refl _⟩
  | some call =>
    simp only [hcall] at h ⊢
    cases hrun : call.run s fresh res with
    | error e => simp [hrun, Except.map] at h
    | ok result =>
      obtain ⟨code, taken, s₁⟩ := result
      rw [hrun] at h
      cases h
      cases htake : call.take s fresh with
      | some _ => exact PostCall.run_receives (Completion.replenish_ne_send hcall) hrun
      | none =>
        -- The pool fails the call: it has ended in a fault, or changed nothing.
        rcases PostCall.run_of_take_none htake res with ⟨e, herr⟩ | hok
        · rw [hrun] at herr
          cases herr
        · rw [hrun] at hok
          cases hok
          exact ⟨rfl, le_refl _⟩

omit [DecidableEq μ] in
/-- The receives of a batch are that of its first completion, if it is one, and those behind it. -/
theorem length_msgs_cons (wc : Completion χ μ) (batch : List (Completion χ μ)) :
    ((wc :: batch).filterMap Completion.msg?).length
      = wc.msg?.toList.length + (batch.filterMap Completion.msg?).length := by
  cases wc with
  | send wr => simp [List.filterMap_cons]
  | recv wr msg frame =>
    rw [List.filterMap_cons_some (Completion.msg?_recv wr msg frame), Completion.msg?_recv]
    exact Nat.add_comm _ _

omit [DecidableEq μ] in
/-- The receives in use and those polled grow by no more than is issued. -/
theorem recvDepth_step {s s' : PollState χ μ} {a : PollAct χ μ}
    (hstep : pollStep s a = some (.ok s')) :
    s'.recvDepth + s'.polled ≤ s.recvDepth + s.polled + recvPosts s a := by
  cases a with
  | arrive msg frame =>
    simp only [pollStep] at hstep
    split at hstep
    · cases hstep
    · rename_i wr recvs hrecvs
      cases hstep
      simp [PollState.recvDepth, PollState.polled, hrecvs]
      omega
  | sent =>
    simp only [pollStep] at hstep
    split at hstep <;> cases hstep
    simp [PollState.recvDepth, PollState.polled, List.filterMap_cons]
  | poll eventNum =>
    simp only [pollStep] at hstep
    split at hstep
    · rename_i hguard
      cases hstep
      have hsplit := congrArg (fun cq => (cq.filterMap Completion.msg?).length)
        (List.take_append_drop eventNum s.cq)
      simp only [List.filterMap_append, List.length_append] at hsplit
      simp only [PollState.recvDepth, PollState.polled, hguard.1, List.filterMap_nil,
        List.length_nil]
      omega
    · cases hstep
  | process fresh res =>
    simp only [pollStep] at hstep
    split at hstep
    · cases hstep
    · rename_i wc batch hbatch
      cases hbody : pollBody s.endpoint wc fresh res with
      | error e => simp [hbody, Except.map] at hstep
      | ok endpoint =>
        rw [hbody] at hstep
        cases hstep
        have hrecvs := (pollBody_recvs_le hbody).2
        -- A processed receive has moved from the batch to the history.
        have hmoved : (s.processed ++ wc.msg?.toList).length
            + (batch.filterMap Completion.msg?).length = s.polled := by
          rw [PollState.polled, hbatch, length_msgs_cons, List.length_append, Nat.add_assoc]
        simp only [PollState.recvDepth, recvPosts, hbatch]
        simp only [PollState.polled] at hmoved ⊢
        omega
  | others free sends =>
    cases hstep
    exact Nat.le_add_right _ _

omit [DecidableEq μ] in
/-- The loop processes the next completion of its batch, or the step issues no receive and the
processed frames and those of the batch stay. -/
theorem pollStep_processed {s s' : PollState χ μ} {a : PollAct χ μ}
    (hstep : pollStep s a = some (.ok s')) :
    (∃ fresh res wc batch, a = .process fresh res ∧ s.batch = wc :: batch ∧ s'.batch = batch ∧
        s'.processed = s.processed ++ wc.msg?.toList) ∨
      recvPosts s a = 0 ∧ s'.processed = s.processed ∧
        (s.batch.filterMap Completion.msg?).length
          ≤ (s'.batch.filterMap Completion.msg?).length := by
  cases a with
  | arrive msg frame | sent =>
    simp only [pollStep] at hstep
    split at hstep <;> cases hstep
    exact .inr ⟨rfl, rfl, le_refl _⟩
  | poll eventNum =>
    simp only [pollStep] at hstep
    split at hstep
    · rename_i hguard
      cases hstep
      refine .inr ⟨rfl, rfl, ?_⟩
      rw [hguard.1]
      exact Nat.zero_le _
    · cases hstep
  | process fresh res =>
    simp only [pollStep] at hstep
    split at hstep
    · cases hstep
    · rename_i wc batch hbatch
      cases hbody : pollBody s.endpoint wc fresh res with
      | error e => simp [hbody, Except.map] at hstep
      | ok endpoint =>
        rw [hbody] at hstep
        cases hstep
        exact .inl ⟨fresh, res, wc, batch, rfl, hbatch, rfl, rfl⟩
  | others free sends =>
    cases hstep
    exact .inr ⟨rfl, rfl, le_refl _⟩

omit [DecidableEq μ] in
/-- The loop processes a completion. -/
theorem pollStep_process {s : PollState χ μ} {wc : Completion χ μ} {batch : List (Completion χ μ)}
    {fresh : Option (List χ)} {res : ℕ → ℤ} {endpoint : Endpoint χ} (hbatch : s.batch = wc :: batch)
    (hbody : pollBody s.endpoint wc fresh res = .ok endpoint) :
    pollStep s (.process fresh res) = some (.ok { s with
      endpoint := endpoint, batch := batch, processed := s.processed ++ wc.msg?.toList }) := by
  simp only [pollStep, hbatch, hbody]
  rfl

omit [DecidableEq μ] in
/-- The loop goes through with a message of `num` frames when an append brings enough chunks. -/
theorem pollBody_recvWithNum (s : Endpoint χ) (wc : Completion χ μ) {num : UInt32} {new : List χ}
    {res : ℕ → ℤ} (hcall : wc.replenish = some (.recvWithNum num)) (hnum : num ≠ 0)
    (hle : num.toNat ≤ new.length) (hres : ∀ i, 0 ≤ res i) :
    ∃ s', pollBody s wc (some new) res = .ok s' ∧ wc.recvPosts s (some new) = num.toNat := by
  obtain ⟨⟨taken, s₁⟩, hget⟩ := s.exists_getChunkList new hnum hle
  have htake : (PostCall.recvWithNum num).take s (some new) = some (taken, s₁) := hget
  obtain ⟨s', hrun, -, -⟩ := PostCall.run_of_take_some hres htake
  refine ⟨s', ?_, ?_⟩
  · rw [pollBody, hcall]
    simp only [hrun, Except.map]
  · rw [Completion.recvPosts, hcall]
    simp only [htake]
    rfl

/-! ### The receive queue -/

/-- A message of 1026 frames. -/
theorem exists_frameCount : ∃ msg : List UInt8, msg.length < 2 ^ 31 ∧ frameCount msg = 1026 := by
  obtain ⟨msg, hmsg⟩ : ∃ msg : List UInt8, msg.length = 67152876 :=
    ⟨List.replicate 67152876 0, List.length_replicate⟩
  refine ⟨msg, by omega, ?_⟩
  rw [frameCount, hmsg]
  decide

/-- **A message of 1026 frames overfills the receive queue.** Its first frame lands in one of the
`MAX_PRE_RECV_QP` receives; once it is polled, 1023 entries are in use, and `poll_thread` posts 1026
more receives, of which the last finds the queue full. -/
theorem receive_queue_overfilled :
    ¬ ∀ (dataId : ℕ → UInt32) (bytes : ℕ → List UInt8), (∀ msg, (bytes msg).length < 2 ^ 31) →
      ∀ (created start : Endpoint ℕ) (fresh : Option (List ℕ)) (res : ℕ → ℤ) (code : ℤ)
        (taken : List ℕ), created.recvs = [] →
        created.rdmaTransportRecvWithNum maxPreRecvQp fresh res = .ok (code, taken, start) →
        ∀ s : PollState ℕ ℕ × ℕ, (pollThreadIssued start).ReachableUnder
            (fun s a => Arrives dataId bytes s.1 a ∧ ToCapacity s.1 a) s →
          s.2 ≤ s.1.polled + maxCqe := by
  intro h
  obtain ⟨msg, hmsg, hcount⟩ := exists_frameCount
  have hfits := h (fun _ => 0) (fun _ => msg) (fun _ => hmsg) _ _ _ _ _ _ rfl preReceive_range
  have harrives : (messageFrames 0 msg)[0]? = some (messageFrame 0 msg 0) :=
    getElem?_messageFrames (by omega)
  -- The first frame asks for as many receives as the message has frames.
  have hcall : replenishFor (messageFrame 0 msg 0).header = some (.recvWithNum 1026) := by
    have hnum : (messageFrame 0 msg 0).header.chunkNum = 1026 := by
      change UInt32.ofNat (frameCount msg) = 1026
      rw [hcount]
      rfl
    rw [replenishFor, hnum]
    rfl
  have hs : (pollThreadIssued
      ⟨[], [], (List.range' 0 1024).map fun chunk => (chunk, rdmaChunkSize)⟩).ReachableUnder
        (fun (s : PollState ℕ ℕ × ℕ) a =>
          Arrives (fun _ => 0) (fun _ => msg) s.1 a ∧ ToCapacity s.1 a) _ := .init
  have hs := hs.next (a := PollAct.arrive 0 (messageFrame 0 msg 0)) ⟨harrives, trivial⟩ rfl
  have hs : (pollThreadIssued _).ReachableUnder _
      (⟨⟨[], [], (List.range' 1 1023).map fun chunk => (chunk, rdmaChunkSize)⟩, [],
        [.recv (0, rdmaChunkSize) 0 (messageFrame 0 msg 0)], []⟩, 1024) :=
    hs.next (a := PollAct.poll 1) ⟨trivial, trivial⟩ rfl
  -- The list of the posted receives is not to be evaluated.
  generalize hrecvs : (List.range' 1 1023).map (fun chunk => (chunk, rdmaChunkSize)) = recvs at hs
  have hdepth : recvs.length = 1023 := by simp [← hrecvs]
  obtain ⟨new, hnew⟩ : ∃ new : List ℕ, new.length = 1026 :=
    ⟨List.range' 5000 1026, List.length_range'⟩
  have hres : ∀ i, (0 : ℤ) ≤ if 1023 + i < maxCqe then 0 else 12 := by
    intro i
    split <;> decide
  obtain ⟨s', hbody, hposts⟩ := pollBody_recvWithNum ⟨[], [], recvs⟩
    (.recv (0, rdmaChunkSize) 0 (messageFrame 0 msg 0)) hcall (by decide) hnew.ge hres
  have hprovider : ToCapacity (⟨⟨[], [], recvs⟩, [],
      [.recv (0, rdmaChunkSize) 0 (messageFrame 0 msg 0)], []⟩ : PollState ℕ ℕ)
      (.process (some new) fun i => if 1023 + i < maxCqe then 0 else 12) := by
    refine fun i => ⟨hres i, ?_⟩
    simp only [PollState.recvDepth, hdepth, List.filterMap_nil, List.length_nil, add_zero]
    split <;> simp_all
  have hstep := pollStep_process (s := ⟨⟨[], [], recvs⟩, [],
    [.recv (0, rdmaChunkSize) 0 (messageFrame 0 msg 0)], []⟩) rfl hbody
  have hfull := hfits _ (hs.next (a := PollAct.process (some new) _) ⟨trivial, hprovider⟩
    (map_map_eq_ok.mpr ⟨_, hstep, rfl⟩))
  -- 2050 receives are issued and one is polled.
  simp only [recvPosts, hposts, PollState.polled] at hfull
  exact absurd hfull (show ¬ 1024 + 1026 ≤ 1 + 0 + 2048 by decide)

/-- What every step preserves that finds the room. -/
structure IssueInv (num : μ → ℕ) (s : PollState χ μ × ℕ) : Prop where
  /-- The frames are in turn. -/
  turn : TurnInv num s.1
  /-- Of what was issued, beyond the receives of the start, the processed frames and those owed. -/
  issued_le : s.2 ≤ maxPreRecvQp.toNat + owed num s.1.processed + s.1.processed.length
  /-- An entry in use, or polled, was issued. -/
  depth_le : s.1.recvDepth + s.1.polled ≤ s.2
  /-- What is owed has room. -/
  room : owed num s.1.processed
    ≤ maxCqe - maxPreRecvQp.toNat + (s.1.batch.filterMap Completion.msg?).length

namespace IssueInv

variable {num : μ → ℕ} {s : PollState χ μ × ℕ}

/-- What is owed still has room when the loop has processed the completion `wc`. -/
theorem room_process (h : IssueInv num s) {fresh : Option (List χ)} {res : ℕ → ℤ}
    (hroom : RoomFor num s.1 (.process fresh res)) {wc : Completion χ μ}
    {batch : List (Completion χ μ)} (hbatch : s.1.batch = wc :: batch) :
    owed num (s.1.processed ++ wc.msg?.toList)
      ≤ maxCqe - maxPreRecvQp.toNat + (batch.filterMap Completion.msg?).length := by
  have hold := h.room
  rw [hbatch] at hold
  cases wc with
  | send wr => simpa [List.filterMap_cons] using hold
  | recv wr msg frame =>
    by_cases hmem : msg ∈ s.1.processed
    · -- A later frame: one frame less is owed, and the batch has one receive less.
      have howed := owed_append_later hmem (h.turn.nextFrame hbatch).count_lt
      simp only [List.filterMap_cons_some (Completion.msg?_recv wr msg frame),
        List.length_cons] at hold
      rw [Completion.msg?_recv, Option.toList_some]
      omega
    · exact hroom wr msg frame batch hbatch hmem

/-- **Through every step that finds the room** the requests issued stay within the queue, also when
the step ends in an abort. -/
theorem issued_add_le (h : IssueInv num s) {a : PollAct χ μ} (hroom : RoomFor num s.1 a) :
    s.2 + recvPosts s.1 a ≤ s.1.polled + maxCqe := by
  have hsize : maxPreRecvQp.toNat ≤ maxCqe := by decide
  have hissued := h.issued_le
  have hnone : s.2 ≤ s.1.polled + maxCqe := by
    have hfits := h.room
    rw [PollState.polled]
    omega
  cases a with
  | process fresh res =>
    cases hbatch : s.1.batch with
    | nil => simpa [recvPosts, hbatch] using hnone
    | cons wc batch =>
      have hposts := wc.recvPosts_le s.1.endpoint fresh
      have howed := h.turn.owed_processed hbatch
      have hfits := h.room_process hroom hbatch
      have hpolled := length_msgs_cons wc batch
      simp only [recvPosts, hbatch, PollState.polled]
      omega
  | _ => exact hnone

/-- **One step** that finds the room preserves the invariant. -/
theorem step (h : IssueInv num s) {a : PollAct χ μ} {s' : PollState χ μ}
    (horder : InOrder num s.1 a) (hroom : RoomFor num s.1 a)
    (hstep : pollStep s.1 a = some (.ok s')) : IssueInv num (s', s.2 + recvPosts s.1 a) := by
  have hissued := h.issued_le
  have hdepth := h.depth_le
  have hdepth' := recvDepth_step hstep
  refine ⟨h.turn.step horder hstep, ?_, ?_, ?_⟩
  · -- A first frame issues the receives of its message, and they are owed from then on.
    rcases pollStep_processed hstep with
      ⟨fresh, res, wc, batch, rfl, hbatch, -, hprocessed⟩ | hother
    · have howed := h.turn.owed_processed hbatch
      have hposts := wc.recvPosts_le s.1.endpoint fresh
      simp only [hprocessed, recvPosts, hbatch, List.length_append]
      omega
    · simpa only [hother.1, hother.2.1, add_zero] using hissued
  · dsimp only
    omega
  · rcases pollStep_processed hstep with
      ⟨fresh, res, wc, batch, rfl, hbatch, hrest, hprocessed⟩ | hother
    · simpa only [hrest, hprocessed] using h.room_process hroom hbatch
    · have hfits := h.room
      simp only [hother.2.1]
      omega

end IssueInv

omit [DecidableEq μ] in
/-- What `rdma_create_connect` queues. -/
theorem start_le {created start : Endpoint χ} {fresh : Option (List χ)} {res : ℕ → ℤ} {code : ℤ}
    {taken : List χ}
    (hstart : created.rdmaTransportRecvWithNum maxPreRecvQp fresh res = .ok (code, taken, start)) :
    start.sends = created.sends
      ∧ start.recvs.length ≤ created.recvs.length + maxPreRecvQp.toNat := by
  have hrun : (PostCall.recvWithNum maxPreRecvQp).run created fresh res
      = .ok (code, taken, start) := hstart
  exact PostCall.run_receives (fun _ h => by cases h) hrun

/-- **The receive queue is never overfilled** in a run that finds the room: with the receives that
are polled the queue holds all that were issued, also those of a step that ends in an abort, and no
receive is posted while all `MAX_CQE` entries are in use. -/
theorem receives_fit {dataId : μ → UInt32} {bytes : μ → List UInt8}
    (hbytes : ∀ msg, (bytes msg).length < 2 ^ 31) {created start : Endpoint χ}
    {fresh : Option (List χ)} {res : ℕ → ℤ} {code : ℤ} {taken : List χ} (hnew : created.recvs = [])
    (hstart : created.rdmaTransportRecvWithNum maxPreRecvQp fresh res = .ok (code, taken, start))
    {s : PollState χ μ × ℕ} (hs : (pollThreadIssued start).ReachableUnder (fun s a =>
      Arrives dataId bytes s.1 a ∧ RoomFor (fun msg => frameCount (bytes msg)) s.1 a) s) :
    s.2 ≤ s.1.polled + maxCqe ∧
      ∀ a, RoomFor (fun msg => frameCount (bytes msg)) s.1 a →
        s.2 + recvPosts s.1 a ≤ s.1.polled + maxCqe ∧
          s.1.recvDepth + recvPosts s.1 a ≤ maxCqe := by
  have hinit : IssueInv (fun msg => frameCount (bytes msg)) (⟨start, [], [], []⟩, 1024) := by
    refine ⟨⟨trivial, fun _ => Nat.zero_le _⟩, le_refl _, ?_, Nat.zero_le _⟩
    have hle := (start_le hstart).2
    rwa [hnew, List.length_nil, Nat.zero_add] at hle
  have hinv : IssueInv (fun msg => frameCount (bytes msg)) s := by
    refine hs.invariant hinit ?_
    rintro ⟨s, issued⟩ a s' - hinv ⟨harrives, hroom⟩ hrecorded
    obtain ⟨s', hstep, rfl⟩ := map_map_eq_ok.mp hrecorded
    exact hinv.step (harrives.inOrder hbytes) hroom hstep
  refine ⟨hinv.issued_add_le (a := .sent) trivial, fun a hroom => ?_⟩
  have hissued := hinv.issued_add_le hroom
  have hdepth := hinv.depth_le
  exact ⟨hissued, by omega⟩

/-- A message of one frame is received. -/
theorem receives_fit_oneFrame :
    ∃ s : PollState ℕ ℕ × ℕ, s.2 = 1025 ∧ s.1.polled = 1 ∧ s.2 ≤ s.1.polled + maxCqe := by
  have harrives : (messageFrames 0 [7])[0]? = some (messageFrame 0 [7] 0) := rfl
  have h : (pollThreadIssued
      ⟨[], [], (List.range' 0 1024).map fun chunk => (chunk, rdmaChunkSize)⟩).ReachableUnder
        (fun (s : PollState ℕ ℕ × ℕ) a => Arrives (fun _ => 0) (fun _ => [7]) s.1 a ∧
          RoomFor (fun _ => frameCount [7]) s.1 a) _ := .init
  have h := h.next (a := PollAct.arrive 0 (messageFrame 0 [7] 0)) ⟨harrives, trivial⟩ rfl
  have h := h.next (a := PollAct.poll 1) ⟨trivial, trivial⟩ rfl
  have h := h.next (a := PollAct.process (some [5000]) fun _ => 0) ⟨trivial, by
    intro wr msg frame batch hbatch _
    cases hbatch
    decide⟩ rfl
  exact ⟨_, rfl, rfl, (receives_fit (fun _ => by decide) rfl preReceive_range h).1⟩

/-- **The exact condition** on a state, when every call gets its chunks and posts them: the receives
issued and not polled fit the queue if and only if what is owed does. -/
theorem issued_le_iff {num : μ → ℕ} {start : Endpoint χ} {s : PollState χ μ × ℕ}
    (hs : (pollThreadIssued start).ReachableUnder (fun s a => Orderly num s.1 a) s) :
    s.2 ≤ s.1.polled + maxCqe ↔ owed num s.1.processed
      ≤ maxCqe - maxPreRecvQp.toNat + (s.1.batch.filterMap Completion.msg?).length := by
  have hinv : TurnInv num s.1 ∧
      s.2 = maxPreRecvQp.toNat + owed num s.1.processed + s.1.processed.length := by
    induction hs with
    | init => exact ⟨⟨trivial, fun _ => Nat.zero_le _⟩, rfl⟩
    | @next s s' a _ horderly hrecorded ih =>
      obtain ⟨s', hstep, rfl⟩ := map_map_eq_ok.mp hrecorded
      obtain ⟨hturn, hissued⟩ := ih
      refine ⟨hturn.step horderly.inOrder hstep, ?_⟩
      dsimp only
      rcases pollStep_processed hstep with
        ⟨fresh, res, wc, batch, rfl, hbatch, -, hprocessed⟩ | hother
      · have howed := hturn.owed_processed hbatch
        have hposts : wc.recvPosts s.1.endpoint fresh
            = (wc.replenish.map PostCall.posts).getD 0 := by
          unfold Completion.recvPosts
          cases hcall : wc.replenish with
          | none => rfl
          | some call => exact if_pos (horderly.2 wc call (by rw [hbatch]; rfl) hcall)
        simp only [hprocessed, recvPosts, hbatch, List.length_append, hposts]
        omega
      · simpa only [hother.1, hother.2.1, add_zero] using hissued
  have hsize : maxPreRecvQp.toNat ≤ maxCqe := by decide
  rw [hinv.2, PollState.polled]
  omega

/-! ### The completion queue -/

/-- A completion that is generated stays in the completion queue and keeps its entry in use. -/
structure Completed (s s' : PollState χ μ) : Prop where
  /-- The entries of the send queue in use. -/
  sendDepth : s'.sendDepth = s.sendDepth
  /-- The entries of the receive queue in use. -/
  recvDepth : s'.recvDepth = s.recvDepth
  /-- The requests posted and not yet polled. -/
  posted : s'.posted = s.posted
  /-- The completion queue has one more. -/
  length_cq : s'.cq.length = s.cq.length + 1

omit [DecidableEq μ] in
/-- A send completes. -/
theorem exists_completed_sent {s : PollState χ μ} (hsends : s.endpoint.sends ≠ []) :
    ∃ s', pollStep s .sent = some (.ok s') ∧ Completed s s' := by
  obtain ⟨wr, sends, hsends⟩ := List.exists_cons_of_ne_nil hsends
  refine ⟨_, by simp only [pollStep, hsends]; rfl, ?_, ?_, ?_, ?_⟩
  · simp [PollState.sendDepth, hsends, List.countP_append]
    omega
  · simp [PollState.recvDepth, List.filterMap_cons]
  · simp [PollState.posted, hsends]
    omega
  · simp

omit [DecidableEq μ] in
/-- A receive completes. -/
theorem exists_completed_arrive {s : PollState χ μ} (hrecvs : s.endpoint.recvs ≠ []) (msg : μ)
    (frame : Frame) : ∃ s', pollStep s (.arrive msg frame) = some (.ok s') ∧ Completed s s' := by
  obtain ⟨wr, recvs, hrecvs⟩ := List.exists_cons_of_ne_nil hrecvs
  refine ⟨_, by simp only [pollStep, hrecvs]; rfl, ?_, ?_, ?_, ?_⟩
  · simp [PollState.sendDepth]
  · simp [PollState.recvDepth, hrecvs]
    omega
  · simp [PollState.posted, hrecvs]
    omega
  · simp

omit [DecidableEq μ] in
/-- **A delayed `poll_thread`.** From every state reached, when the posted requests complete one
after the other and nothing is polled, the completion queue comes to hold every request that is
posted and not yet polled; the send and the receive queue stay as full as they are. -/
theorem exists_all_completed {start : Endpoint χ} {P : PollState χ μ → PollAct χ μ → Prop}
    {s : PollState χ μ} (hs : (pollThread start).ReachableUnder P s)
    (hP : ∀ t, t.sendDepth = s.sendDepth → t.recvDepth = s.recvDepth →
      P t .sent ∧ ∃ msg frame, P t (.arrive msg frame)) :
    ∃ t, (pollThread start).ReachableUnder P t ∧ t.sendDepth = s.sendDepth ∧
      t.recvDepth = s.recvDepth ∧ t.cq.length = s.posted := by
  -- By induction on the number of requests that are not complete.
  induction hn : s.endpoint.sends.length + s.endpoint.recvs.length generalizing s with
  | zero => exact ⟨s, hs, rfl, rfl, by rw [PollState.posted]; omega⟩
  | succ n ih =>
    obtain ⟨s', hs', hcompleted⟩ :
        ∃ s', (pollThread start).ReachableUnder P s' ∧ Completed s s' := by
      obtain ⟨hsent, msg, frame, harrive⟩ := hP s rfl rfl
      by_cases hsends : s.endpoint.sends = []
      · have hrecvs : s.endpoint.recvs ≠ [] := by
          intro hrecvs
          simp [hsends, hrecvs] at hn
        obtain ⟨s', hstep, hcompleted⟩ := exists_completed_arrive hrecvs msg frame
        exact ⟨s', hs.next harrive hstep, hcompleted⟩
      · obtain ⟨s', hstep, hcompleted⟩ := exists_completed_sent hsends
        exact ⟨s', hs.next hsent hstep, hcompleted⟩
    obtain ⟨hsend, hrecv, hposted, hcq⟩ := hcompleted
    have hleft : s'.endpoint.sends.length + s'.endpoint.recvs.length = n := by
      simp only [PollState.posted] at hposted
      omega
    obtain ⟨t, ht, htsend, htrecv, htcq⟩ := ih hs'
      (fun t hsend' hrecv' => hP t (hsend'.trans hsend) (hrecv'.trans hrecv)) hleft
    exact ⟨t, ht, htsend.trans hsend, htrecv.trans hrecv, htcq.trans hposted⟩

omit [DecidableEq μ] in
/-- `send_msg` posts a message of 1026 frames when an append brings the chunks. -/
theorem exists_localSend (s : Endpoint χ) (new : List χ) (hnew : new.length = 1026) :
    ∃ s', (∃ call res taken, s.send call (some new) res = .ok (0, taken, s')) ∧
      s'.sends.length = s.sends.length + 1026 := by
  obtain ⟨msg, hmsg, hcount⟩ := exists_frameCount
  obtain ⟨buf, hbuf⟩ : ∃ buf : CBuffer, buf.bytes = msg := ⟨⟨msg, by omega⟩, rfl⟩
  have hnum : (SendCall.sendMsg buf).chunkNum.toNat = 1026 := by
    rw [SendCall.chunkNum, toNat_chunkNumOf, SendCall.len, buf.toNat_len, hbuf]
    exact hcount
  have hne : (SendCall.sendMsg buf).chunkNum ≠ 0 := by
    intro hzero
    rw [hzero] at hnum
    exact absurd hnum (by decide)
  obtain ⟨⟨taken, s₁⟩, hget⟩ := s.exists_getChunkList new hne (by omega)
  have htake : (PostCall.send (.sendMsg buf)).take s (some new) = some (taken, s₁) := hget
  have hposts : ∀ i, 0 ≤ (fun _ => 0 : ℕ → ℤ) i := fun _ => le_refl _
  obtain ⟨s', hrun, -, hqueue⟩ := PostCall.run_of_take_some hposts htake
  refine ⟨s', ⟨.sendMsg buf, fun _ => 0, taken, hrun⟩, ?_⟩
  rw [accepted_of_forall fun _ => rfl] at hqueue
  have hlength := congrArg List.length hqueue
  have htaken : taken.length = 1026 := (PostCall.take_some htake).1.trans hnum
  simpa [PostCall.queue, htaken] using hlength

/-- **The completion queue overruns.** The peer sends 1024 messages of one byte, `send_msg` is
called for a message of 1026 frames, and the completions of all of them are generated before
`poll_thread` polls: they are 2050, though neither of the two other queues is full. -/
theorem completion_queue_overruns :
    ¬ ∀ (dataId : ℕ → UInt32) (bytes : ℕ → List UInt8), (∀ msg, (bytes msg).length < 2 ^ 31) →
      ∀ (created start : Endpoint ℕ) (fresh : Option (List ℕ)) (res : ℕ → ℤ) (code : ℤ)
        (taken : List ℕ), created.recvs = [] → created.sends = [] →
        created.rdmaTransportRecvWithNum maxPreRecvQp fresh res = .ok (code, taken, start) →
        ∀ s : PollState ℕ ℕ, (pollThread start).ReachableUnder
            (fun s a => s.WithinQueues ∧ Arrives dataId bytes s a ∧ LocalSends s a) s →
          s.WithinQueues → s.cq.length ≤ maxCqe + 1 := by
  intro h
  have hfits := h (fun _ => 0) (fun _ => [7]) (fun _ => by decide) _ _ _ _ _ _ rfl rfl
    preReceive_range
  have hs := Machine.ReachableUnder.init (M := pollThread
      ⟨[], [], (List.range' 0 1024).map fun chunk => (chunk, rdmaChunkSize)⟩)
    (P := fun (s : PollState ℕ ℕ) a =>
      s.WithinQueues ∧ Arrives (fun _ => 0) (fun _ => [7]) s a ∧ LocalSends s a)
  -- The list of the posted receives is not to be evaluated.
  generalize hlist : (List.range' 0 1024).map (fun chunk => (chunk, rdmaChunkSize)) = recvs
    at hfits hs
  have hlength : recvs.length = 1024 := by simp [← hlist]
  obtain ⟨s', ⟨call, posts, taken, hsend⟩, hsends⟩ :=
    exists_localSend (⟨[], [], recvs⟩ : Endpoint ℕ) (List.range' 5000 1026) List.length_range'
  have hwithin : (⟨⟨[], [], recvs⟩, [], [], []⟩ : PollState ℕ ℕ).WithinQueues := by
    simp [PollState.WithinQueues, PollState.sendDepth, PollState.recvDepth, hlength, maxCqe]
  have hs : (pollThread _).ReachableUnder _ (⟨⟨s'.free, s'.sends, recvs⟩, [], [], []⟩) :=
    hs.next (a := PollAct.others s'.free s'.sends) ⟨hwithin, trivial,
      call, some (List.range' 5000 1026), posts, taken, s', hsend, rfl, rfl⟩ rfl
  have hdepth : (⟨⟨s'.free, s'.sends, recvs⟩, [], [], []⟩ : PollState ℕ ℕ).WithinQueues := by
    simp [PollState.WithinQueues, PollState.sendDepth, PollState.recvDepth, hlength, hsends, maxCqe]
  -- Nothing is polled from here on, and every request completes.
  obtain ⟨t, ht, htsend, htrecv, htcq⟩ := exists_all_completed hs (by
    intro t hsend hrecv
    have hin : t.WithinQueues := by
      rw [PollState.WithinQueues, hsend, hrecv]
      exact hdepth
    -- There is always one more message of one byte.
    obtain ⟨msg, hmsg⟩ := Infinite.exists_notMem_finset t.arrived.toFinset
    have hfirst : (messageFrames 0 [7])[t.arrived.count msg]? = some (messageFrame 0 [7] 0) := by
      rw [List.count_eq_zero_of_not_mem (mt List.mem_toFinset.mpr hmsg)]
      rfl
    exact ⟨⟨hin, trivial, trivial⟩, msg, messageFrame 0 [7] 0, hin, hfirst, trivial⟩)
  have hfull := hfits t ht (by rw [PollState.WithinQueues, htsend, htrecv]; exact hdepth)
  rw [htcq] at hfull
  simp [PollState.posted, hlength, hsends, maxCqe] at hfull

/-- A step that posts requests leaves no more than `MAX_CQE + 1` of them posted and not yet polled,
those of both directions together. -/
def CqRoom (s : PollState χ μ) : PollAct χ μ → Prop
  | .process fresh res => s.posted + recvPosts s (.process fresh res) ≤ maxCqe + 1
  | .others _ sends => sends.length + s.endpoint.recvs.length + s.cq.length ≤ maxCqe + 1
  | _ => True

omit [DecidableEq μ] in
/-- **One step** that posts only where there is room leaves no more requests posted. -/
theorem posted_le_step {s s' : PollState χ μ} {a : PollAct χ μ} (hroom : CqRoom s a)
    (hposted : s.posted ≤ maxCqe + 1) (hstep : pollStep s a = some (.ok s')) :
    s'.posted ≤ maxCqe + 1 := by
  cases a with
  | arrive msg frame =>
    have hrecvs : s.endpoint.recvs ≠ [] := by
      intro hnil
      simp [pollStep, hnil] at hstep
    obtain ⟨t, ht, hcompleted⟩ := exists_completed_arrive hrecvs msg frame
    cases ht.symm.trans hstep
    exact hcompleted.posted ▸ hposted
  | sent =>
    have hsends : s.endpoint.sends ≠ [] := by
      intro hnil
      simp [pollStep, hnil] at hstep
    obtain ⟨t, ht, hcompleted⟩ := exists_completed_sent hsends
    cases ht.symm.trans hstep
    exact hcompleted.posted ▸ hposted
  | poll eventNum =>
    simp only [pollStep] at hstep
    split at hstep <;> cases hstep
    refine le_trans ?_ hposted
    simp [PollState.posted]
  | process fresh res =>
    simp only [pollStep] at hstep
    split at hstep
    · cases hstep
    · rename_i wc batch hbatch
      cases hbody : pollBody s.endpoint wc fresh res with
      | error e => simp [hbody, Except.map] at hstep
      | ok endpoint =>
        rw [hbody] at hstep
        cases hstep
        -- The loop posts no send, and as many receives as the condition counts.
        obtain ⟨hsends', hrecvs'⟩ := pollBody_recvs_le hbody
        simp only [CqRoom, PollState.posted, recvPosts, hbatch] at hroom ⊢
        rw [hsends']
        omega
  | others free sends =>
    cases hstep
    exact hroom

omit [DecidableEq μ] in
/-- **The completion queue never overruns** in a run that posts only where it has room: it holds all
requests that are posted and not yet polled. -/
theorem completions_fit {created start : Endpoint χ} {fresh : Option (List χ)} {res : ℕ → ℤ}
    {code : ℤ} {taken : List χ} (hrecvs : created.recvs = []) (hsends : created.sends = [])
    (hstart : created.rdmaTransportRecvWithNum maxPreRecvQp fresh res = .ok (code, taken, start))
    {s : PollState χ μ} (hs : (pollThread start).ReachableUnder CqRoom s) :
    s.posted ≤ maxCqe + 1 ∧ s.cq.length ≤ maxCqe + 1 := by
  have hposted : s.posted ≤ maxCqe + 1 := by
    induction hs with
    | init =>
      obtain ⟨hsends', hrecvs'⟩ := start_le hstart
      have hsize : maxPreRecvQp.toNat ≤ maxCqe := by decide
      simp only [PollState.posted, pollThread, hsends', hsends, hrecvs, List.length_nil]
        at hrecvs' ⊢
      omega
    | next _ hroom hstep ih => exact posted_le_step hroom ih hstep
  -- Every completion in the queue is one of a request that is posted and not yet polled.
  exact ⟨hposted, (Nat.le_add_left _ _).trans hposted⟩

/-- A frame lands and a send is posted and completes. -/
theorem completions_fit_twoCompletions :
    ∃ s : PollState ℕ ℕ, s.cq.length = 2 ∧ s.cq.length ≤ maxCqe + 1 := by
  have h : (pollThread
      ⟨[], [], (List.range' 0 1024).map fun chunk => (chunk, rdmaChunkSize)⟩).ReachableUnder
        (CqRoom (χ := ℕ) (μ := ℕ)) _ := .init
  have h := h.next (a := PollAct.arrive 0 (messageFrame 0 [7] 0)) trivial rfl
  have hroom : 1 + ((List.range' 1 1023).map fun chunk => (chunk, rdmaChunkSize)).length + 1
      ≤ maxCqe + 1 := by simp [maxCqe]
  have h := h.next (a := PollAct.others [] [(5000, 22)]) hroom rfl
  have h := h.next (a := PollAct.sent) trivial rfl
  exact ⟨_, rfl, (completions_fit rfl rfl preReceive_range h).2⟩

end SparkRdma
