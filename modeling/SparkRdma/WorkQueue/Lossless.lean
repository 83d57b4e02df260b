import SparkRdma.WorkQueue.Network

/-! # Nothing is lost between `send_msg` and the callback

The invariant of the machine `network` that spans its two ends. The receiver never looks at
`chunk_id`: it finds a message by its data id and appends what arrives. That this puts every message
back together rests on two facts about the frames not yet stored: the next one of a call is the one
whose index is the number of its frames stored, and two calls never share a data id. The append of
`handle_recv_event`, two stores without the lock, is one step of the machine, so nothing is said
here of a `work_thread` that looks at the varray between the two.

* **`RecvInv`** — the varray at address `a` is that of the `a`-th message begun, and carries the
  blocks of it that are stored.
* **`netInv_step`** — no step of the network faults, and each preserves the invariant.
* **`network_lossless`** — when all frames are handled and the worker is done, the callbacks are the
  messages, one each, in the order in which their first frames arrived. -/

namespace SparkRdma

open Interleaving Blocks

variable {ι : Type}

/-- An entry of an initial segment of the naturals is the number of entries before it. -/
theorem eq_length_of_append_cons_eq_range {l₁ l₂ : List ℕ} {x n : ℕ}
    (h : l₁ ++ x :: l₂ = List.range n) : x = l₁.length := by
  have hx : (l₁ ++ x :: l₂)[l₁.length]? = some x := by simp
  rw [h] at hx
  have hlt := (List.getElem?_eq_some_iff.mp hx).1
  rw [List.length_range] at hlt
  simpa [List.getElem?_range hlt, eq_comm] using hx

/-- Chunks that carry the first blocks of a message, and one that carries the next. -/
theorem CarriesFrom.append {dataId : UInt32} {msg : List UInt8} {chunk : RdmaChunk}
    (data : List RdmaChunk) : ∀ i, CarriesFrom dataId msg i data →
      Carries dataId msg (i + data.length) chunk → CarriesFrom dataId msg i (data ++ [chunk]) := by
  induction data with
  | nil => exact fun _ _ hchunk => ⟨hchunk, trivial⟩
  | cons first data ih =>
    rintro i ⟨hfirst, hdata⟩ hchunk
    refine ⟨hfirst, ih (i + 1) hdata ?_⟩
    rwa [List.length_cons, show i + (data.length + 1) = i + 1 + data.length by omega] at hchunk

namespace NetState

variable {s s' : NetState ι} {p : Posted ι}

/-- Storing a first frame begins a message. -/
theorem order_of_stored (h : s'.stored = s.stored ++ [p]) :
    s'.order = s.order ++ if p.index = 0 then [p.call] else [] := by
  unfold order
  rw [h, List.filter_append, List.map_append]
  by_cases hp : p.index = 0 <;> simp [hp]

variable [DecidableEq ι]

/-- Storing a frame counts for its call. -/
theorem storedOf_of_stored (h : s'.stored = s.stored ++ [p]) (i : ι) :
    s'.storedOf i = s.storedOf i + if p.call = i then 1 else 0 := by
  unfold storedOf
  rw [h, List.filter_append, List.length_append]
  by_cases hp : p.call = i <;> simp [hp]

/-- A message begun has a frame stored. -/
theorem storedOf_pos_of_mem_order {i : ι} (h : i ∈ s.order) : 0 < s.storedOf i := by
  obtain ⟨p, hp, rfl⟩ := List.mem_map.mp h
  exact List.length_pos_of_mem (List.mem_filter.mpr ⟨(List.mem_filter.mp hp).1, by simp⟩)

end NetState

variable [DecidableEq ι]

/-- **The next frame to be stored.** The frame behind those stored has the number of its call's
frames stored as its index. -/
theorem SendInv.index_eq_storedOf {calls : ι → SendCall} {first : UInt32} {s : NetState ι}
    (h : SendInv calls first s) {p : Posted ι} {rest : List (Posted ι)}
    (hsent : s.sent = s.stored ++ p :: rest) : p.index = s.storedOf p.call := by
  have hposts := h.posts p.call
  rw [hsent, List.filter_append, List.filter_cons_of_pos (by simp), List.map_append,
    List.map_cons] at hposts
  rw [eq_length_of_append_cons_eq_range hposts, List.length_map]
  rfl

/-- What the receiving end preserves. -/
structure RecvInv (calls : ι → SendCall) (s : NetState ι) : Prop where
  /-- After the lookup, the current frame is in the chunk, and it is the first of its message
  exactly when no varray was found. -/
  found : ∀ chunk now, s.work.handler = .found chunk now → ∃ (p : Posted ι) (old : RdmaChunk),
    s.current = some p ∧ chunk = old.land p.frame ∧ (now = none ↔ p.index = 0)
  /-- Outside that point no frame is current. -/
  no_current : (∀ chunk now, s.work.handler ≠ .found chunk now) → s.current = none
  /-- Varrays are allocated in the order of their addresses. -/
  pushed_range : s.work.pushed = List.range s.work.nextAddr
  /-- One for each message begun. -/
  order_length : s.order.length = s.work.nextAddr
  /-- No message is begun twice. -/
  order_nodup : s.order.Nodup
  /-- A message with a frame stored is begun. -/
  started : ∀ i, 0 < s.storedOf i → i ∈ s.order
  /-- A live varray holds the frames stored of its message. -/
  varrays : ∀ a v, s.work.heap a = some v → ∃ i, s.order[a]? = some i ∧
    (s.senders i).dataId? = some v.dataId ∧ v.size.toNat = framesOf calls i ∧
    CarriesFrom v.dataId (calls i).bytes 0 v.data ∧ v.data.length = s.storedOf i
  /-- A message begun and no longer queued is complete. -/
  gone : ∀ a i, s.order[a]? = some i → a ∉ s.work.workQueue → s.storedOf i = framesOf calls i
  /-- The callbacks so far are owed to the messages begun, in order. -/
  callbacks : s.work.callbacks = (s.order.take s.work.delivered.length).map (callbackOf calls)

namespace RecvInv

variable {calls : ι → SendCall} {first : UInt32} {s s' : NetState ι}

/-- The network before any call. -/
theorem start : RecvInv calls (network calls first).init := by
  constructor <;>
    simp [network, WorkState.start, NetState.order, NetState.storedOf, framesOf]

/-- The steps of the senders leave the receiving end alone; data ids, once drawn, stay. -/
theorem congr (h : RecvInv calls s) (hwork : s'.work = s.work) (hcurrent : s'.current = s.current)
    (hstored : s'.stored = s.stored)
    (hids : ∀ i dataId, (s.senders i).dataId? = some dataId →
      (s'.senders i).dataId? = some dataId) : RecvInv calls s' := by
  have horder : s'.order = s.order := by rw [NetState.order, hstored]; rfl
  have hcount : s'.storedOf = s.storedOf := by
    funext i
    rw [NetState.storedOf, hstored]
    rfl
  obtain ⟨h₁, h₂, h₃, h₄, h₅, h₆, h₇, h₈, h₉⟩ := h
  constructor <;> simp only [hwork, hcurrent, horder, hcount] <;> try assumption
  intro a v hv
  obtain ⟨i, hi, hid, hrest⟩ := h₇ a v hv
  exact ⟨i, hi, hids i _ hid, hrest⟩

/-- A queued varray whose data id is that of a call is the varray of that call. -/
theorem varray_of_call [Fintype ι] (hcard : Fintype.card ι < 2 ^ 32) (h : RecvInv calls s)
    (hsend : SendInv calls first s) {now : ℕ} {v : Varray RdmaChunk} {i : ι} {dataId : UInt32}
    (hv : s.work.heap now = some v) (hid : v.dataId = dataId)
    (hi : (s.senders i).dataId? = some dataId) : s.order[now]? = some i ∧
      v.size.toNat = framesOf calls i ∧ CarriesFrom dataId (calls i).bytes 0 v.data ∧
      v.data.length = s.storedOf i := by
  subst hid
  obtain ⟨j, hj, hdata, hrest⟩ := h.varrays now v hv
  obtain rfl := hsend.dataId_inj hcard hdata hi
  exact ⟨hj, hrest⟩

/-- The first frame of a message is stored in a new varray. -/
theorem pushNew (h : RecvInv calls s) {p : Posted ι} {v : Varray RdmaChunk} (hp : p.index = 0)
    (hnew : s.storedOf p.call = 0) (hdelivered : s.work.delivered.length ≤ s.work.nextAddr)
    (hid : (s.senders p.call).dataId? = some v.dataId)
    (hsize : v.size.toNat = framesOf calls p.call)
    (hcarries : CarriesFrom v.dataId (calls p.call).bytes 0 v.data) (hlength : v.data.length = 1)
    (hsenders : s'.senders = s.senders) (hcurrent : s'.current = none)
    (hstored : s'.stored = s.stored ++ [p])
    (hwork : s'.work = { s.work with
      heap := Function.update s.work.heap s.work.nextAddr (some v)
      nextAddr := s.work.nextAddr + 1
      workQueue := s.work.workQueue ++ [s.work.nextAddr]
      pushed := s.work.pushed ++ [s.work.nextAddr]
      handler := .stored }) : RecvInv calls s' := by
  have horder := NetState.order_of_stored hstored
  rw [if_pos hp] at horder
  have hcount := NetState.storedOf_of_stored hstored
  have hnot : p.call ∉ s.order := fun hmem => by
    have := NetState.storedOf_pos_of_mem_order hmem
    omega
  have hsame : ∀ i ∈ s.order, s'.storedOf i = s.storedOf i := fun i hi => by
    have hne : p.call ≠ i := fun heq => hnot (heq ▸ hi)
    rw [hcount, if_neg hne, add_zero]
  have hold : ∀ a, a < s.work.nextAddr → s'.order[a]? = s.order[a]? := fun a ha => by
    rw [horder, List.getElem?_append_left (by rwa [h.order_length])]
  refine { found := by simp [hwork], no_current := fun _ => hcurrent, pushed_range := ?_,
           order_length := ?_, order_nodup := ?_, started := ?_, varrays := ?_, gone := ?_,
           callbacks := ?_ }
  · -- The message begun and the address allocated are the next ones, both.
    rw [hwork, List.range_succ, ← h.pushed_range]
  · rw [hwork, horder, List.length_append, h.order_length]
    rfl
  · rw [horder]
    exact h.order_nodup.append (List.nodup_singleton _) (by simpa using hnot)
  · intro i hi
    rw [horder, List.mem_append, List.mem_singleton]
    by_cases heq : p.call = i
    · exact .inr heq.symm
    · exact .inl (h.started i (by rwa [hcount, if_neg heq, add_zero] at hi))
  · intro a w hw
    simp only [hwork] at hw
    by_cases ha : a = s.work.nextAddr
    · -- the new varray
      subst ha
      obtain rfl : v = w := by simpa using hw
      refine ⟨p.call, ?_, hsenders ▸ hid, hsize, hcarries, ?_⟩
      · rw [horder, ← h.order_length, List.getElem?_concat_length]
      · rw [hcount, if_pos rfl, hnew, hlength]
    · -- The others are of other messages, which have as many frames as before.
      rw [Function.update_of_ne ha] at hw
      obtain ⟨i, hi, hid', hsize', hcarries', hlength'⟩ := h.varrays a w hw
      have hlt := (List.getElem?_eq_some_iff.mp hi).1
      rw [h.order_length] at hlt
      exact ⟨i, by rw [hold a hlt, hi], hsenders ▸ hid', hsize', hcarries',
        by rw [hsame i (List.mem_of_getElem? hi), hlength']⟩
  · -- The new message is queued, so those gone are the same.
    intro a i hi ha
    rw [hwork] at ha
    simp only [List.mem_append, List.mem_singleton, not_or] at ha
    have hlt := (List.getElem?_eq_some_iff.mp hi).1
    rw [horder, List.length_append, h.order_length, List.length_singleton] at hlt
    rw [hold a (by omega)] at hi
    rw [hsame i (List.mem_of_getElem? hi), h.gone a i hi ha.1]
  · rw [hwork, horder, List.take_append_of_le_length (by rwa [h.order_length])]
    exact h.callbacks

/-- A further frame of a message is stored in the varray of the message. -/
theorem appendFound (h : RecvInv calls s) {p : Posted ι} {now : ℕ} {v : Varray RdmaChunk}
    {chunk : RdmaChunk} (hp : p.index ≠ 0) (hmem : now ∈ s.work.workQueue)
    (hnow : s.order[now]? = some p.call) (hid : (s.senders p.call).dataId? = some v.dataId)
    (hsize : v.size.toNat = framesOf calls p.call)
    (hcarries : CarriesFrom v.dataId (calls p.call).bytes 0 (v.data ++ [chunk]))
    (hlength : v.data.length = s.storedOf p.call)
    (hsenders : s'.senders = s.senders) (hcurrent : s'.current = none)
    (hstored : s'.stored = s.stored ++ [p])
    (hwork : s'.work = { s.work with
      heap := Function.update s.work.heap now (some { v with data := v.data ++ [chunk] })
      handler := .stored }) : RecvInv calls s' := by
  have horder := NetState.order_of_stored hstored
  rw [if_neg hp, List.append_nil] at horder
  have hcount := NetState.storedOf_of_stored hstored
  -- No message is begun twice, so a message at another address is another one.
  have hother : ∀ a i, s.order[a]? = some i → a ≠ now → s'.storedOf i = s.storedOf i := by
    intro a i hi ha
    have hne : p.call ≠ i := by
      rintro rfl
      exact ha ((List.getElem?_inj (List.getElem?_eq_some_iff.mp hi).1 h.order_nodup).mp
        (hi.trans hnow.symm))
    rw [hcount, if_neg hne, add_zero]
  refine { found := by simp [hwork], no_current := fun _ => hcurrent, pushed_range := ?_,
           order_length := ?_, order_nodup := ?_, started := ?_, varrays := ?_, gone := ?_,
           callbacks := ?_ }
  · rw [hwork]
    exact h.pushed_range
  · rw [hwork, horder]
    exact h.order_length
  · rw [horder]
    exact h.order_nodup
  · intro i hi
    rw [horder]
    by_cases heq : p.call = i
    · exact heq ▸ List.mem_of_getElem? hnow
    · exact h.started i (by rwa [hcount, if_neg heq, add_zero] at hi)
  · intro a w hw
    rw [hwork] at hw
    rw [horder, hsenders]
    by_cases ha : a = now
    · -- the varray of the message, one frame longer
      subst ha
      obtain rfl : _ = w := by simpa using hw
      exact ⟨p.call, hnow, hid, hsize, hcarries, by simp [hcount, hlength]⟩
    · simp only [Function.update_of_ne ha] at hw
      obtain ⟨i, hi, hid', hsize', hcarries', hlength'⟩ := h.varrays a w hw
      exact ⟨i, hi, hid', hsize', hcarries', by rw [hother a i hi ha, hlength']⟩
  · intro a i hi ha
    rw [hwork] at ha
    rw [horder] at hi
    rw [hother a i hi (by rintro rfl; exact ha hmem), h.gone a i hi ha]
  · rw [hwork, horder]
    exact h.callbacks

/-- A complete head is popped, or the flag lowered: the messages that leave the queue are
complete. -/
theorem headSection (h : RecvInv calls s) {work : WorkState RdmaChunk} {k : ℕ}
    (hstep : s.work.headSection k = .ok work) : RecvInv calls { s with work := work } := by
  obtain ⟨head, rest, v, hq, hv, hcomplete, rfl⟩ | ⟨-, rfl⟩ := WorkState.headSection_ok hstep
  · refine { h with gone := fun a i hi ha => ?_ }
    by_cases heq : a = head
    · -- The head is complete, and holds all that is stored of its message.
      subst heq
      obtain ⟨j, hj, -, hsize, -, hlength⟩ := h.varrays a v hv
      obtain rfl : j = i := Option.some.inj (hj.symm.trans hi)
      exact hlength.symm.trans (hcomplete.trans hsize)
    · exact h.gone a i hi (by rw [hq]; exact List.not_mem_cons_of_ne_of_not_mem heq ha)
  · exact { h with }

/-- The varray popped is the next of those begun, and its callback the next one owed. -/
theorem deliverHead (hmsg : ∀ i, 0 < (calls i).bytes.length ∧ (calls i).bytes.length < 2 ^ 31)
    (h : RecvInv calls s) {k head : ℕ} {v : Varray RdmaChunk}
    (hnext : s.work.pushed[s.work.delivered.length]? = some head)
    (hv : s.work.heap head = some v) (hcomplete : v.Complete) :
    ∃ callback, deliver id v = .ok callback ∧ RecvInv calls { s with work := { s.work with
      callbacks := s.work.callbacks ++ [callback]
      delivered := s.work.delivered ++ [head]
      workers := s.work.workers.set k (.delivered head) } } := by
  obtain ⟨i, hi, -, hsize, hcarries, -⟩ := h.varrays head v hv
  have hdeliver := deliver_ok (hmsg i).1 (hmsg i).2 hcarries rfl (hcomplete.trans hsize)
  refine ⟨_, hdeliver, { h with callbacks := ?_ }⟩
  -- Addresses go up in the order of the messages, so the head is the next message to call back.
  rw [h.pushed_range] at hnext
  have hlt := (List.getElem?_eq_some_iff.mp hnext).1
  rw [List.length_range] at hlt
  obtain rfl : s.work.delivered.length = head := by simpa [List.getElem?_range hlt] using hnext
  change s.work.callbacks ++ [callbackOf calls i] = _
  rw [h.callbacks, List.length_append, List.length_singleton, List.take_add_one, List.map_append]
  congr 1
  exact (congrArg (fun o => o.toList.map (callbackOf calls)) hi).symm

/-- The varray called back is freed. -/
theorem freeHead (h : RecvInv calls s) (k head : ℕ) :
    RecvInv calls { s with work := s.work.freeHead k head } := by
  refine { h with varrays := fun a v hv => ?_ }
  simp only [WorkState.freeHead] at hv
  by_cases ha : a = head
  · simp [ha] at hv
  · exact h.varrays a v (by rwa [Function.update_of_ne ha] at hv)

/-- The last section of an event. -/
theorem wakeSection (h : RecvInv calls s) {work : WorkState RdmaChunk}
    (hstored : s.work.handler = .stored) (hstep : s.work.wakeSection = .ok work) :
    RecvInv calls
      { s with work := work, stored := s.stored ++ s.current.toList, current := none } := by
  have hcurrent := h.no_current (by simp [hstored])
  rw [hcurrent, Option.toList_none, List.append_nil]
  obtain ⟨-, -, rfl⟩ | ⟨-, rfl⟩ := WorkState.wakeSection_ok hstep <;>
    exact { h with found := by simp, no_current := fun _ => rfl }

end RecvInv

/-- The invariant of the network. -/
structure NetInv (calls : ι → SendCall) (first : UInt32) (s : NetState ι) : Prop where
  /-- The senders and the wire. -/
  send : SendInv calls first s
  /-- The hand-over at the receiver. -/
  work : WorkInv id s.work
  /-- The varrays of the receiver. -/
  recv : RecvInv calls s

namespace NetInv

variable {calls : ι → SendCall} {first : UInt32} {s : NetState ι}

/-- An execution of `work_thread` moves on. -/
theorem worker (hmsg : ∀ i, 0 < (calls i).bytes.length ∧ (calls i).bytes.length < 2 ^ 31)
    (h : NetInv calls first s) {k : ℕ} {r : Except CFault (WorkState RdmaChunk)}
    (hstep : s.work.workerStep id k = some r) :
    ∃ work, r = .ok work ∧ NetInv calls first { s with work := work } := by
  have hsend : ∀ work, SendInv calls first { s with work := work } :=
    fun work => h.send.congr rfl rfl rfl rfl
  unfold WorkState.workerStep at hstep
  split at hstep
  · cases hstep
  · rename_i htop
    obtain ⟨work, hwork⟩ := WorkState.headSection_of_live k h.work.queued_live
    exact ⟨work, by rw [← Option.some.inj hstep, hwork], hsend work, h.work.headSection htop hwork,
      h.recv.headSection hwork⟩
  · rename_i head hpopped
    obtain ⟨rfl, hworkers, -, hup⟩ := h.work.single hpopped
    obtain ⟨v, hv, hcomplete⟩ := h.work.held_live head (by
      simp [WorkState.held, hworkers, WorkerPc.held?])
    have hnext : s.work.pushed[s.work.delivered.length]? = some head := by
      rw [h.work.order]
      simp [WorkState.inHand, hworkers, WorkerPc.popped?]
    -- The head was complete when it was popped, so its bytes are the whole message.
    obtain ⟨callback, hdeliver, hrecv⟩ := h.recv.deliverHead hmsg (k := 0) hnext hv hcomplete
    obtain ⟨work, hwork⟩ := WorkState.deliverHead_of_complete 0 hup hv hcomplete hdeliver
    obtain ⟨-, w, callback', hw, -, hdeliver', hwork'⟩ := WorkState.deliverHead_ok hwork
    obtain rfl : v = w := Option.some.inj (hv.symm.trans hw)
    obtain rfl : callback = callback' := Except.ok.inj (hdeliver.symm.trans hdeliver')
    exact ⟨work, by rw [← Option.some.inj hstep, hwork], hsend work,
      h.work.deliverHead hpopped hwork, hwork' ▸ hrecv⟩
  · rename_i head hdelivered
    exact ⟨_, (Option.some.inj hstep).symm, hsend _, h.work.freeHead hdelivered,
      h.recv.freeHead k head⟩

/-- The first frame of a message is stored. -/
theorem pushNew (hmsg : ∀ i, (calls i).bytes.length < 2 ^ 31) (h : NetInv calls first s)
    {chunk : RdmaChunk} (hfound : s.work.handler = .found chunk none) :
    ∃ work, s.work.pushNew id chunk = .ok work ∧ NetInv calls first
      { s with work := work, stored := s.stored ++ s.current.toList, current := none } := by
  obtain ⟨p, old, hcurrent, rfl, hzero⟩ := h.recv.found _ _ hfound
  have hzero := hzero.mp rfl
  have hsent : s.sent = s.stored ++ p :: s.wire := by simp [NetState.sent, hcurrent]
  have hindex := h.send.index_eq_storedOf hsent
  obtain ⟨dataId, hid, hframe, hlt⟩ := h.send.sent_frame p (by simp [hsent])
  have hcount := (blockCount_le (b := rdmaBodySize.toNat) (by simp) _).trans_lt (hmsg p.call)
  -- There are fewer frames than bytes, so `chunk_num` does not wrap.
  have hnum : (UInt32.ofNat (framesOf calls p.call)).toNat = framesOf calls p.call :=
    Nat.mod_eq_of_lt (by unfold framesOf; omega)
  have hcarries := carries_land dataId (calls p.call).bytes p.index old
  rw [← hframe] at hcarries
  have hheader := hcarries.1
  have hpos : 0 < (id (old.land p.frame)).header.chunkNum.toNat := by
    rw [id_eq, hheader]
    exact (Nat.zero_le _).trans_lt (hlt.trans_eq hnum.symm)
  obtain ⟨work, hwork⟩ := WorkState.pushNew_of_pos s.work hpos
  have hdelivered := congrArg List.length h.work.order
  rw [h.recv.pushed_range, List.length_append, List.length_append, List.length_range] at hdelivered
  refine ⟨work, hwork, h.send.congr rfl rfl rfl (by simp [NetState.sent]), h.work.pushNew hwork,
    h.recv.pushNew (p := p) hzero (by omega) (by omega) ?_ ?_ ?_ rfl rfl rfl (by simp [hcurrent])
      (WorkState.pushNew_ok hwork).2⟩
  · rw [id_eq, hheader]
    exact hid
  · rw [id_eq, hheader]
    exact hnum
  · rw [hzero] at hcarries
    rw [id_eq, hheader]
    exact ⟨hcarries, trivial⟩

/-- A call draws its data id. -/
theorem draw (h : NetInv calls first s) {i : ι} (hi : s.senders i = .idle) :
    NetInv calls first { s with
      dataId := s.dataId + 1
      senders := Function.update s.senders i (.drawn s.dataId)
      drawn := s.drawn ++ [i] } := by
  refine ⟨h.send.draw hi rfl rfl rfl rfl, h.work, h.recv.congr rfl rfl rfl fun j dataId hj => ?_⟩
  have hji : j ≠ i := by
    rintro rfl
    simp [hi, SenderPc.dataId?] at hj
  simpa only [Function.update_of_ne hji] using hj

/-- A call enters its loop with the frames of its message, or posts the next of them. -/
theorem advance (h : NetInv calls first s) (posted : List (Posted ι)) {i : ι} {dataId : UInt32}
    (hid : (s.senders i).dataId? = some dataId)
    (hindex : posted.map Posted.index = List.range' (s.senders i).posts posted.length)
    (hposted : ∀ p ∈ posted, p.call = i ∧
      p.frame = messageFrame dataId (calls i).bytes p.index ∧ p.index < framesOf calls i) :
    NetInv calls first { s with
      senders := Function.update s.senders i (.posting dataId
        (messageFrames dataId (calls i).bytes) ((s.senders i).posts + posted.length))
      wire := s.wire ++ posted } := by
  refine ⟨h.send.advance hid rfl rfl (by simp [NetState.sent]) rfl hindex hposted, h.work,
    h.recv.congr rfl rfl rfl fun j dataId' hj => ?_⟩
  by_cases hji : j = i
  · subst hji
    obtain rfl : dataId = dataId' := Option.some.inj (hid.symm.trans hj)
    simp [SenderPc.dataId?]
  · simpa only [Function.update_of_ne hji] using hj

/-- A call fills its chunks. -/
theorem fill (hmsg : ∀ i, (calls i).bytes.length < 2 ^ 31) (h : NetInv calls first s) {i : ι}
    {dataId : UInt32} {chain : List RdmaChunk} (hi : s.senders i = .drawn dataId)
    (hchain : chain.length = (calls i).chunkNum.toNat) :
    ∃ frames, (calls i).frames dataId chain = .ok frames ∧ NetInv calls first
      { s with senders := Function.update s.senders i (.posting dataId frames 0) } := by
  have hid : (s.senders i).dataId? = some dataId := by rw [hi]; rfl
  have hnext := h.advance [] hid (by simp) (by simp)
  rw [List.append_nil, hi] at hnext
  exact ⟨_, SendCall.frames_eq ((hmsg i).trans (by decide)) dataId hchain, hnext⟩

/-- A call posts its next frame. -/
theorem post (h : NetInv calls first s) {i : ι} {dataId : UInt32} {frames : List Frame} {next : ℕ}
    {frame : Frame} (hi : s.senders i = .posting dataId frames next)
    (hframe : frames[next]? = some frame) :
    NetInv calls first { s with
      senders := Function.update s.senders i (.posting dataId frames (next + 1))
      wire := s.wire ++ [⟨i, next, frame⟩] } := by
  obtain rfl := h.send.frames i dataId frames next hi
  have hlt := (List.getElem?_eq_some_iff.mp hframe).1
  rw [messageFrames, List.length_map, List.length_range] at hlt
  rw [messageFrames, List.getElem?_map, List.getElem?_range hlt] at hframe
  have hid : (s.senders i).dataId? = some dataId := by rw [hi]; rfl
  have hnext := h.advance [⟨i, next, frame⟩] hid (by simp [hi, SenderPc.posts]) (by
    simpa only [List.mem_singleton, forall_eq, true_and] using ⟨(Option.some.inj hframe).symm, hlt⟩)
  rwa [hi] at hnext

variable [Fintype ι]

/-- **The lookup finds the message.** While a call has frames to come, the lookup of its data id
finds nothing before the first is stored, and from then on the call's varray. -/
theorem findCustom (hcard : Fintype.card ι < 2 ^ 32) (h : NetInv calls first s) {i : ι}
    {dataId : UInt32} (hid : (s.senders i).dataId? = some dataId)
    (hlt : s.storedOf i < framesOf calls i) :
    (s.storedOf i = 0 ∧ s.work.findCustom dataId = none) ∨
    (0 < s.storedOf i ∧ ∃ now v, s.work.findCustom dataId = some now ∧ s.work.heap now = some v ∧
      v.size.toNat = framesOf calls i ∧ v.data.length = s.storedOf i) := by
  cases hfind : s.work.findCustom dataId with
  | some now =>
    obtain ⟨v, hv⟩ := h.work.queued_live now (List.mem_of_find?_eq_some hfind)
    have hsame := List.find?_some hfind
    simp only [WorkState.hasDataId, hv, beq_iff_eq] at hsame
    -- Data ids are distinct, so the varray found is the call's own.
    obtain ⟨hnow, hsize, -, hlength⟩ := h.recv.varray_of_call hcard h.send hv hsame hid
    exact .inr ⟨NetState.storedOf_pos_of_mem_order (List.mem_of_getElem? hnow),
      now, v, rfl, hv, hsize, hlength⟩
  | none =>
    refine .inl ⟨?_, rfl⟩
    by_contra hne
    obtain ⟨a, ha⟩ := List.mem_iff_getElem?.mp (h.recv.started i (Nat.pos_of_ne_zero hne))
    -- A message begun has its varray on the queue until it is complete, and this one is not.
    have hqueued : a ∈ s.work.workQueue := by
      by_contra hnot
      exact hlt.ne (h.recv.gone a i ha hnot)
    obtain ⟨v, hv⟩ := h.work.queued_live a hqueued
    obtain ⟨j, hj, hdata, -⟩ := h.recv.varrays a v hv
    obtain rfl : j = i := by simpa [hj] using ha
    have hsame := List.find?_eq_none.mp hfind a hqueued
    simp only [WorkState.hasDataId, hv, beq_iff_eq] at hsame
    exact hsame (by simpa [hdata] using hid)

/-- **The frames are well formed.** The frame at the front of the wire is the next of its message,
whatever chunk it lands in, and it is the first exactly when the lookup finds nothing. -/
theorem wellFormed (hcard : Fintype.card ι < 2 ^ 32) (hmsg : ∀ i, (calls i).bytes.length < 2 ^ 31)
    (h : NetInv calls first s) {p : Posted ι} {rest : List (Posted ι)}
    (hsent : s.sent = s.stored ++ p :: rest) (old : RdmaChunk) :
    WorkState.WellFormed id s.work (.recv p.frame.byteLen (old.land p.frame)) ∧
      (s.work.findCustom (old.land p.frame).header.dataId = none ↔ p.index = 0) := by
  have hindex := h.send.index_eq_storedOf hsent
  obtain ⟨dataId, hid, hframe, hlt⟩ := h.send.sent_frame p (by simp [hsent])
  have hcount := (blockCount_le (b := rdmaBodySize.toNat) (by simp) _).trans_lt (hmsg p.call)
  have hnum : (UInt32.ofNat (framesOf calls p.call)).toNat = framesOf calls p.call :=
    Nat.mod_eq_of_lt (by unfold framesOf; omega)
  have hchunkId : (UInt32.ofNat p.index).toNat = p.index :=
    Nat.mod_eq_of_lt (by unfold framesOf at hlt; omega)
  have hheader : (old.land p.frame).header = messageHeader dataId (calls p.call).bytes p.index := by
    rw [RdmaChunk.header_land, hframe]
    rfl
  simp only [WorkState.WellFormed, WorkState.received, id_eq, hheader, messageHeader, chunkHeader,
    UInt32.lt_iff_toNat_lt]
  obtain ⟨hzero, hfind⟩ | ⟨hpos, now, v, hfind, hv, hsize, hlength⟩ :=
    h.findCustom hcard hid (by omega)
  · -- no varray yet: the frame is the first
    simp only [hfind, Option.bind_none, hchunkId]
    refine ⟨⟨by rw [hframe]; rfl, ?_, ?_, by simp⟩, by simp; omega⟩
    · exact hlt.trans_eq hnum.symm
    · exact (Nat.zero_le _).trans_lt (hlt.trans_eq hnum.symm)
  · -- The varray holds the frames before this one, so it has room and the same `chunk_num`.
    simp only [hfind, Option.bind_some, hv, hchunkId]
    have hroom : v.data.length < framesOf calls p.call := by omega
    refine ⟨⟨by rw [hframe]; rfl, hlt.trans_eq hnum.symm, hroom.trans_eq hnum.symm, ?_⟩,
      by simp; omega⟩
    rintro w hw
    obtain rfl : v = w := by simpa using hw
    rw [← UInt32.ofNat_toNat (x := v.size), hsize]
    rfl

/-- A frame arrives. -/
theorem arrive (hcard : Fintype.card ι < 2 ^ 32) (hmsg : ∀ i, (calls i).bytes.length < 2 ^ 31)
    (h : NetInv calls first s) {p : Posted ι} {rest : List (Posted ι)} {old : RdmaChunk}
    {work : WorkState RdmaChunk} (hidle : s.work.handler = .idle) (hwire : s.wire = p :: rest)
    (hstep : s.work.lookupSection id p.frame.byteLen (old.land p.frame) = .ok work) :
    NetInv calls first { s with wire := rest, current := some p, work := work } := by
  have hcurrent : s.current = none := h.recv.no_current (by simp [hidle])
  have hsent : s.sent = s.stored ++ p :: rest := by simp [NetState.sent, hcurrent, hwire]
  obtain ⟨hwell, hfind⟩ := h.wellFormed hcard hmsg hsent old
  have hwork := h.work.lookup hidle hwell hstep
  obtain ⟨-, rfl⟩ := WorkState.lookupSection_ok hstep
  refine ⟨h.send.congr rfl rfl rfl ?_, hwork, { h.recv with found := ?_, no_current := ?_ }⟩
  · rw [hsent]
    simp [NetState.sent]
  · intro chunk now hfound
    simp only [HandlerPc.found.injEq] at hfound
    obtain ⟨rfl, rfl⟩ := hfound
    exact ⟨p, old, rfl, rfl, hfind⟩
  · exact fun hnot => (hnot _ _ rfl).elim

/-- A further frame of a message is stored. -/
theorem appendFound (hcard : Fintype.card ι < 2 ^ 32) (h : NetInv calls first s)
    {chunk : RdmaChunk} {now : ℕ} (hfound : s.work.handler = .found chunk (some now)) :
    ∃ work, s.work.appendFound id chunk now = .ok work ∧ NetInv calls first
      { s with work := work, stored := s.stored ++ s.current.toList, current := none } := by
  obtain ⟨p, old, hcurrent, rfl, hzero⟩ := h.recv.found _ _ hfound
  have hsent : s.sent = s.stored ++ p :: s.wire := by simp [NetState.sent, hcurrent]
  have hindex := h.send.index_eq_storedOf hsent
  obtain ⟨dataId, hid, hframe, -⟩ := h.send.sent_frame p (by simp [hsent])
  have hcarries := carries_land dataId (calls p.call).bytes p.index old
  rw [← hframe] at hcarries
  -- The varray found is still queued, although the lock was released in between.
  obtain ⟨hmem, v, hv, hroom, hvid⟩ := h.work.found _ _ hfound
  rw [id_eq, hcarries.1] at hvid
  obtain rfl : v.dataId = dataId := hvid
  obtain ⟨hnow, hsize, hdata, hlength⟩ := h.recv.varray_of_call hcard h.send hv rfl hid
  have hsame : v.dataId = (id (old.land p.frame)).header.dataId := by
    rw [id_eq, hcarries.1]
    rfl
  obtain ⟨work, hwork⟩ := WorkState.appendFound_of_room hmem hv hroom hsame
  obtain ⟨-, w, hw, -, -, hwork'⟩ := WorkState.appendFound_ok hwork
  obtain rfl : v = w := Option.some.inj (hv.symm.trans hw)
  refine ⟨work, hwork, h.send.congr rfl rfl rfl (by simp [NetState.sent]), h.work.appendFound hwork,
    h.recv.appendFound (p := p) (by simpa using hzero) hmem hnow hid hsize ?_ hlength rfl rfl
      (by simp [hcurrent]) hwork'⟩
  refine hdata.append _ _ ?_
  rwa [zero_add, hlength, ← hindex]

/-- The frame of the current event, once looked up, is stored under its message, and the pool woken
if the head is complete. -/
theorem handler (hcard : Fintype.card ι < 2 ^ 32) (hmsg : ∀ i, (calls i).bytes.length < 2 ^ 31)
    (h : NetInv calls first s) {r : Except CFault (WorkState RdmaChunk)}
    (hstep : s.work.handlerStep id = some r) :
    ∃ work, r = .ok work ∧ NetInv calls first
      { s with work := work, stored := s.stored ++ s.current.toList, current := none } := by
  unfold WorkState.handlerStep at hstep
  split at hstep
  · cases hstep
  · obtain ⟨work, hwork, hnext⟩ := h.pushNew hmsg ‹_›
    exact ⟨work, by rw [← Option.some.inj hstep, hwork], hnext⟩
  · obtain ⟨work, hwork, hnext⟩ := h.appendFound hcard ‹_›
    exact ⟨work, by rw [← Option.some.inj hstep, hwork], hnext⟩
  · obtain ⟨work, hwork⟩ := WorkState.wakeSection_of_live h.work.queued_live
    exact ⟨work, by rw [← Option.some.inj hstep, hwork],
      h.send.congr rfl rfl rfl (by simp [NetState.sent]), h.work.wakeSection hwork,
      h.recv.wakeSection ‹_› hwork⟩

end NetInv

/-- **One step of the network** never ends in a fault, and preserves the invariant. -/
theorem netInv_step [Fintype ι] {calls : ι → SendCall} {first : UInt32} {s : NetState ι}
    (hcard : Fintype.card ι < 2 ^ 32)
    (hmsg : ∀ i, 0 < (calls i).bytes.length ∧ (calls i).bytes.length < 2 ^ 31)
    (h : NetInv calls first s) {a : NetAct ι} {r : Except CFault (NetState ι)}
    (hstep : netStep calls s a = some r) : ∃ s', r = .ok s' ∧ NetInv calls first s' := by
  cases a with
  | draw i =>
    simp only [netStep] at hstep
    split at hstep <;> cases hstep
    exact ⟨_, rfl, h.draw ‹_›⟩
  | fill i chain =>
    simp only [netStep] at hstep
    split at hstep
    · split at hstep
      · obtain ⟨frames, hframes, hnext⟩ := h.fill (fun i => (hmsg i).2) ‹_› ‹_›
        rw [hframes] at hstep
        exact ⟨_, (Option.some.inj hstep).symm, hnext⟩
      · cases hstep
    · cases hstep
  | post i =>
    simp only [netStep] at hstep
    split at hstep
    · split at hstep <;> cases hstep
      exact ⟨_, rfl, h.post ‹_› ‹_›⟩
    · cases hstep
  | arrive old =>
    simp only [netStep] at hstep
    split at hstep
    · cases hstep
    · rename_i p rest hwire
      obtain ⟨q, hq, rfl⟩ := Option.map_eq_some_iff.mp hstep
      simp only [workQueueStep] at hq
      split at hq
      · rename_i hidle
        have hsent : s.sent = s.stored ++ p :: rest := by
          simp [NetState.sent, h.recv.no_current (by simp [hidle]), hwire]
        obtain ⟨⟨hlen, -⟩, -⟩ := h.wellFormed hcard (fun i => (hmsg i).2) hsent old
        obtain ⟨work, hwork⟩ := WorkState.lookupSection_of_byteLen s.work hlen
        rw [← Option.some.inj hq, hwork]
        exact ⟨_, rfl, h.arrive hcard (fun i => (hmsg i).2) hidle hwire hwork⟩
      · cases hq
  | handler =>
    obtain ⟨q, hq, rfl⟩ := Option.map_eq_some_iff.mp hstep
    obtain ⟨work, rfl, hnext⟩ := h.handler hcard (fun i => (hmsg i).2) hq
    exact ⟨_, rfl, hnext⟩
  | startItem =>
    obtain ⟨q, hq, rfl⟩ := Option.map_eq_some_iff.mp hstep
    simp only [workQueueStep] at hq
    split at hq <;> cases hq
    exact ⟨_, rfl, h.send.congr rfl rfl rfl rfl, h.work.startItem ‹_›, { h.recv with }⟩
  | worker k =>
    obtain ⟨q, hq, rfl⟩ := Option.map_eq_some_iff.mp hstep
    obtain ⟨work, rfl, hnext⟩ := h.worker hmsg hq
    exact ⟨_, rfl, hnext⟩

/-- Every reachable state of the network satisfies the invariant. -/
theorem netInv_of_reachable [Fintype ι] {calls : ι → SendCall} {first : UInt32} {s : NetState ι}
    (hcard : Fintype.card ι < 2 ^ 32)
    (hmsg : ∀ i, 0 < (calls i).bytes.length ∧ (calls i).bytes.length < 2 ^ 31)
    (hs : (network calls first).Reachable s) : NetInv calls first s := by
  refine hs.invariant ⟨.start, .start, .start⟩ fun s a s' _ h _ hstep => ?_
  obtain ⟨s'', hs'', hnext⟩ := netInv_step hcard hmsg h hstep
  exact Except.ok.inj hs'' ▸ hnext

namespace NetState

/-- All frames are handled: every call has posted all its frames, and the receiver has stored
them. -/
def AllHandled (s : NetState ι) : Prop :=
  (∀ i, ∃ dataId frames, s.senders i = .posting dataId frames frames.length) ∧
    s.wire = [] ∧ s.work.handler = .idle

/-- The worker has drained the queue: nothing is queued, and nothing popped still waits for its
callback. -/
def Drained (s : NetState ι) : Prop := s.work.workQueue = [] ∧ s.work.inHand = []

end NetState

/-- Once all frames are handled, every message is stored whole. -/
theorem NetInv.storedOf_of_allHandled {calls : ι → SendCall} {first : UInt32} {s : NetState ι}
    (h : NetInv calls first s) (hall : s.AllHandled) (i : ι) :
    s.stored = s.sent ∧ s.storedOf i = framesOf calls i := by
  obtain ⟨hsenders, hwire, hidle⟩ := hall
  have hsent : s.stored = s.sent := by
    simp [NetState.sent, h.recv.no_current (by simp [hidle]), hwire]
  obtain ⟨dataId, frames, hi⟩ := hsenders i
  have hposts := congrArg List.length (h.send.posts i)
  obtain rfl := h.send.frames i dataId frames _ hi
  rw [← hsent, List.length_map, hi, List.length_range, SenderPc.posts, messageFrames,
    List.length_map, List.length_range] at hposts
  exact ⟨hsent, hposts⟩

/-- **Nothing is lost.** However the calls interleave their draws and posts, and the receiver its
threads: no step faults; and when all frames are handled, then once no work item is pending or
executing the queue is drained, and once it is drained there was one callback for each call, with
exactly its bytes, in the order in which the calls' first frames were posted. -/
theorem network_lossless [Fintype ι] (calls : ι → SendCall) (first : UInt32) (s : NetState ι)
    (hcard : Fintype.card ι < 2 ^ 32)
    (hmsg : ∀ i, 0 < (calls i).bytes.length ∧ (calls i).bytes.length < 2 ^ 31)
    (hs : (network calls first).Reachable s) :
    (∀ a e, (network calls first).step s a ≠ some (.error e)) ∧
    (s.AllHandled →
      (s.work.poolItems = 0 → s.work.workers = [] → s.Drained) ∧
      (s.Drained → ∃ order : List ι, order.Nodup ∧ (∀ i, i ∈ order) ∧
        order = (s.sent.filter (·.index = 0)).map Posted.call ∧
        s.work.callbacks = order.map (callbackOf calls))) := by
  have h := netInv_of_reachable hcard hmsg hs
  refine ⟨fun a e hfault => ?_, fun hall => ⟨fun hpool hworkers => ?_, fun hdrained => ?_⟩⟩
  · obtain ⟨s', hs', -⟩ := netInv_step hcard hmsg h hfault
    cases hs'
  · have hdown : s.work.isWorkRunning = 0 := by simp [h.work.flag, hpool, hworkers]
    refine ⟨?_, by simp [WorkState.inHand, hworkers]⟩
    cases hq : s.work.workQueue with
    | nil => rfl
    | cons head rest =>
      -- a queued varray would be complete, and the flag up
      obtain ⟨v, hv⟩ := h.work.queued_live head (by simp [hq])
      obtain ⟨i, -, -, hsize, -, hlength⟩ := h.recv.varrays head v hv
      have hcomplete : v.Complete :=
        hlength.trans ((h.storedOf_of_allHandled hall i).2.trans hsize.symm)
      exact (h.work.head_incomplete (by simp [hall.2.2]) hdown
        ⟨head, rest, v, hq, hv, hcomplete⟩).elim
  · refine ⟨s.order, h.recv.order_nodup, fun i => h.recv.started i ?_, ?_, ?_⟩
    · rw [(h.storedOf_of_allHandled hall i).2]
      exact blockCount_pos (by simp) (hmsg i).1
    · obtain ⟨hsenders, hwire, hidle⟩ := hall
      simp [NetState.sent, NetState.order, h.recv.no_current (by simp [hidle]), hwire]
    · have hpushed := congrArg List.length h.work.order
      rw [hdrained.1, hdrained.2, List.append_nil, List.append_nil, h.recv.pushed_range,
        List.length_range, ← h.recv.order_length] at hpushed
      rw [h.recv.callbacks, ← hpushed, List.take_length]

/-! ### A run of two calls -/

/-- A call fills a chain of the length it asks the pool for. -/
theorem network_fill {calls : ι → SendCall} {first : UInt32} {s : NetState ι} {i : ι}
    {dataId : UInt32} (chain : List RdmaChunk) (hi : s.senders i = .drawn dataId)
    (hlen : (calls i).bytes.length < 2 ^ 32)
    (hchain : chain.length = blockCount rdmaBodySize.toNat (calls i).bytes.length) :
    (network calls first).step s (.fill i chain) = some (.ok { s with
      senders := Function.update s.senders i
        (.posting dataId (messageFrames dataId (calls i).bytes) 0) }) := by
  have hchain : chain.length = (calls i).chunkNum.toNat := by
    rw [hchain, SendCall.chunkNum, toNat_chunkNumOf, SendCall.toNat_len hlen]
  simp only [network, netStep, hi, if_pos hchain, SendCall.frames_eq hlen dataId hchain]
  rfl

/-- A worker calls back the varray it has popped, and frees it. -/
theorem network_deliver {calls : ι → SendCall} {first : UInt32} {s : NetState ι}
    (hs : (network calls first).Reachable s) {head : ℕ} {v : Varray RdmaChunk}
    {callback : Callback} (hup : s.work.isWorkRunning = 1)
    (hworkers : s.work.workers = [.popped head]) (hv : s.work.heap head = some v)
    (hcomplete : v.Complete) (hdeliver : deliver id v = .ok callback) :
    (network calls first).Reachable { s with work := { s.work with
      heap := Function.update s.work.heap head none, workers := [.top],
      delivered := s.work.delivered ++ [head], callbacks := s.work.callbacks ++ [callback] } } := by
  obtain ⟨work, hwork⟩ := WorkState.deliverHead_of_complete 0 hup hv hcomplete hdeliver
  have hstep : (network calls first).step s (.worker 0) = some (.ok { s with work := work }) := by
    simp only [network, netStep, workQueueStep, WorkState.workerStep, hworkers,
      List.getElem?_cons_zero, hwork]
    rfl
  have hs := hs.next trivial hstep
  obtain ⟨-, v', callback', hv', -, hdeliver', rfl⟩ := WorkState.deliverHead_ok hwork
  obtain rfl := Option.some.inj (hv.symm.trans hv')
  obtain rfl := Except.ok.inj (hdeliver.symm.trans hdeliver')
  refine hs.next (a := .worker 0) trivial ?_
  simp only [network, netStep, workQueueStep, WorkState.workerStep, hworkers]
  rfl

/-- A worker pops a complete head. -/
theorem network_pop {calls : ι → SendCall} {first : UInt32} {s : NetState ι}
    (hs : (network calls first).Reachable s) {head : ℕ} {rest : List ℕ} {v : Varray RdmaChunk}
    (hworkers : s.work.workers = [.top]) (hqueue : s.work.workQueue = head :: rest)
    (hv : s.work.heap head = some v) (hcomplete : v.Complete) :
    (network calls first).Reachable { s with work := { s.work with
      workQueue := rest, workers := [.popped head] } } := by
  refine hs.next (a := .worker 0) trivial ?_
  simp only [network, netStep, workQueueStep, WorkState.workerStep, hworkers,
    List.getElem?_cons_zero, WorkState.headSection, WorkState.headComplete, hqueue,
    WorkState.deref_ok.mpr hv, ok_bind, decide_eq_true hcomplete]
  rfl

/-- A worker leaves when nothing is queued. -/
theorem network_leave {calls : ι → SendCall} {first : UInt32} {s : NetState ι}
    (hs : (network calls first).Reachable s) (hworkers : s.work.workers = [.top])
    (hqueue : s.work.workQueue = []) :
    (network calls first).Reachable { s with work := { s.work with
      isWorkRunning := 0, workers := [] } } := by
  refine hs.next (a := .worker 0) trivial ?_
  simp only [network, netStep, workQueueStep, WorkState.workerStep, hworkers,
    List.getElem?_cons_zero, WorkState.headSection, WorkState.headComplete, hqueue]
  rfl

/-- A call of `send_msg` with a message of one byte. -/
def oneByte : SendCall := .sendMsg ⟨[7], by decide⟩

/-- A call that sends `msg`, and a call of one byte. -/
def twoCalls (msg : CBuffer) : Bool → SendCall
  | false => .sendMsg msg
  | true => oneByte

/-- Both calls have drawn, and are at these program points. -/
def bothAt (longer other : SenderPc) : NetState Bool where
  dataId := 2
  senders := fun b => bif b then other else longer
  drawn := [false, true]
  wire := []
  work := .start
  current := none
  stored := []

/-- Both calls draw their data ids and fill their chunks. -/
theorem bothAt_reachable {msg : CBuffer} (hmsg : msg.bytes.length = 65516) :
    (network (twoCalls msg) 0).Reachable
      (bothAt (.posting 0 (messageFrames 0 msg.bytes) 0) (.posting 1 (messageFrames 1 [7]) 0)) := by
  have hdrawn : (network (twoCalls msg) 0).Reachable (bothAt (.drawn 0) (.drawn 1)) := by
    have h := Machine.ReachableUnder.init (M := network (twoCalls msg) 0) (P := fun _ _ => True)
    have h := h.next (a := .draw false) trivial rfl
    have h := h.next (a := .draw true) trivial rfl
    convert h using 1
    rw [bothAt, NetState.mk.injEq]
    refine ⟨rfl, ?_, rfl, rfl, rfl, rfl, rfl⟩
    funext b
    cases b <;> rfl
  have hlen : (twoCalls msg false).bytes.length = 65516 := hmsg
  have hone : (twoCalls msg true).bytes.length = 1 := rfl
  have h := hdrawn.next trivial (network_fill (i := false) [.blank, .blank] rfl
    (hlen.trans_lt (by decide)) (by rw [hlen]; decide))
  have h := h.next trivial (network_fill (i := true) [.blank] rfl
    (hone.trans_lt (by decide)) (by rw [hone]; decide))
  convert h using 1
  rw [bothAt, NetState.mk.injEq]
  refine ⟨rfl, ?_, rfl, rfl, rfl, rfl, rfl⟩
  funext b
  cases b with
  | false => rfl
  | true => rfl

/-- The bytes of a frame's body. -/
abbrev Payload := {payload : List UInt8 // payload.length ≤ rdmaBodySize.toNat}

/-- The first frame of a message one byte longer than a body. -/
def firstOfLonger (payload : Payload) : Frame :=
  ⟨chunkHeader 0 2 65516 0 65515, payload.1, payload.2, 65536⟩

/-- The second frame of a message one byte longer than a body. -/
def lastOfLonger (payload : Payload) : Frame :=
  ⟨chunkHeader 0 2 65516 1 1, payload.1, payload.2, 22⟩

/-- A message one byte longer than a body has these frames. -/
theorem messageFrames_longer {msg : List UInt8} (hmsg : msg.length = 65516) :
    ∃ p q, messageFrame 0 msg 0 = firstOfLonger p ∧ messageFrame 0 msg 1 = lastOfLonger q ∧
      messageFrames 0 msg = [messageFrame 0 msg 0, messageFrame 0 msg 1] := by
  refine ⟨⟨_, (messageFrame 0 msg 0).length_payload⟩, ⟨_, (messageFrame 0 msg 1).length_payload⟩,
    ?_, ?_, ?_⟩
  · simp [firstOfLonger, messageFrame, messageHeader, block, blockCount, rdmaHeaderSize, hmsg]
  · simp [lastOfLonger, messageFrame, messageHeader, block, blockCount, rdmaHeaderSize, hmsg]
  · rw [messageFrames, hmsg]
    rfl

/-- All frames are handled, and a worker has popped the longer message, behind which the other is
queued. -/
theorem twoCalls_popped {msg : CBuffer} (hmsg : msg.bytes.length = 65516) :
    ∃ s : NetState Bool, (network (twoCalls msg) 0).Reachable s ∧ s.AllHandled ∧
      (s.sent.filter (·.index = 0)).map Posted.call = [false, true] ∧
      s.work.heap 0 = some ⟨0, 2, [RdmaChunk.blank.land (messageFrame 0 msg.bytes 0),
        RdmaChunk.blank.land (messageFrame 0 msg.bytes 1)]⟩ ∧
      s.work.heap 1 = some ⟨1, 1, [RdmaChunk.blank.land (messageFrame 1 [7] 0)]⟩ ∧
      s.work.isWorkRunning = 1 ∧ s.work.workQueue = [1] ∧ s.work.workers = [.popped 0] := by
  have h := bothAt_reachable hmsg
  obtain ⟨p, q, hp, hq, hframes⟩ := messageFrames_longer hmsg
  rw [hframes, hp, hq] at h
  rw [hp, hq]
  obtain ⟨s, hexec, hsenders, hwire, hidle, hs⟩ : ∃ s,
      (network (twoCalls msg) 0).exec (fun _ _ => True)
      (bothAt (.posting 0 [firstOfLonger p, lastOfLonger q] 0) (.posting 1 (messageFrames 1 [7]) 0))
      [.post false, .post true, .post false, .arrive .blank, .handler, .handler, .arrive .blank,
        .handler, .handler, .arrive .blank, .handler, .handler, .startItem, .worker 0] = some s ∧
      (∀ b, ∃ dataId frames, s.senders b = .posting dataId frames frames.length) ∧
      s.wire = [] ∧ s.work.handler = .idle ∧
      (s.sent.filter (·.index = 0)).map Posted.call = [false, true] ∧
      s.work.heap 0 = some ⟨0, 2,
        [RdmaChunk.blank.land (firstOfLonger p), RdmaChunk.blank.land (lastOfLonger q)]⟩ ∧
      s.work.heap 1 = some ⟨1, 1, [RdmaChunk.blank.land (messageFrame 1 [7] 0)]⟩ ∧
      s.work.isWorkRunning = 1 ∧ s.work.workQueue = [1] ∧ s.work.workers = [.popped 0] := by
    refine ⟨_, rfl, fun b => ?_, rfl, rfl, rfl, rfl, rfl, rfl, rfl, rfl⟩
    cases b <;> exact ⟨_, _, rfl⟩
  exact ⟨s, Machine.reachableUnder_of_exec _ h hexec, ⟨hsenders, hwire, hidle⟩, hs⟩

/-- A message of two frames and one of one frame, with their draws before either's posts and their
posts interleaved. One execution of `work_thread` calls both back, and leaves. -/
theorem network_lossless_twoCalls : ∃ (calls : Bool → SendCall) (s : NetState Bool),
    (network calls 0).Reachable s ∧ (calls false).bytes.length = 65516 ∧
      (calls true).bytes = [7] ∧ s.AllHandled ∧ s.Drained ∧ s.work.workers = [] ∧
      s.work.callbacks = [callbackOf calls false, callbackOf calls true] := by
  obtain ⟨msg, hmsg⟩ : ∃ msg : CBuffer, msg.bytes.length = 65516 :=
    ⟨⟨List.replicate 65516 7, List.length_replicate.trans_lt (by decide)⟩, List.length_replicate⟩
  obtain ⟨s, hs, hall, hsent, hlonger, hother, hup, hqueue, hworkers⟩ := twoCalls_popped hmsg
  -- the longer message
  have hcarries : CarriesFrom 0 msg.bytes 0 [RdmaChunk.blank.land (messageFrame 0 msg.bytes 0),
      RdmaChunk.blank.land (messageFrame 0 msg.bytes 1)] :=
    ⟨carries_land 0 _ 0 .blank, carries_land 0 _ 1 .blank, trivial⟩
  have hdeliver := deliver_ok (v := ⟨0, 2, _⟩) (by omega) (by omega) hcarries rfl
    (by rw [hmsg]; rfl)
  have hs := network_deliver hs hup hworkers hlonger rfl hdeliver
  have hs := network_pop hs rfl hqueue hother rfl
  -- the other
  have hcarries : CarriesFrom 1 [7] 0 [RdmaChunk.blank.land (messageFrame 1 [7] 0)] :=
    ⟨carries_land 1 [7] 0 .blank, trivial⟩
  have hdeliver := deliver_ok (v := ⟨1, 1, _⟩) (by decide) (by decide) hcarries rfl rfl
  have hs := network_deliver hs hup rfl hother rfl hdeliver
  have hs := network_leave hs rfl rfl
  obtain ⟨-, hlossless⟩ := network_lossless (twoCalls msg) 0 _ (by decide) (fun b => by
    cases b with
    | false => exact ⟨hmsg ▸ (by decide), hmsg.trans_lt (by decide)⟩
    | true => exact ⟨(by decide : 0 < [(7 : UInt8)].length),
        (by decide : [(7 : UInt8)].length < 2 ^ 31)⟩) hs
  obtain ⟨-, hlossless⟩ := hlossless hall
  obtain ⟨order, -, -, rfl, hcallbacks⟩ := hlossless ⟨rfl, rfl⟩
  refine ⟨twoCalls msg, _, hs, hmsg, rfl, hall, ⟨rfl, rfl⟩, rfl, hcallbacks.trans ?_⟩
  exact congrArg (List.map (callbackOf (twoCalls msg))) hsent

end SparkRdma
