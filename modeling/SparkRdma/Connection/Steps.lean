import SparkRdma.Connection.Lifecycle

/-! # The steps of setting up

The steps of `setUp` one by one. When no `ibv_modify_qp` returns a positive error number, each keeps
the invariant of the life of a transport. The steps are of three kinds, with one lemma each: those
inside a section under `connect_lock`, those that leave one, and those outside.

* **`SetUpInv.of_section`**, **`SetUpInv.of_release`**, **`SetUpInv.of_outside`** — the three kinds.
* **`SetUpInv.read`** — the second thread to read the record of the other side reads what is known.
* **`SetUpInv.lookupOrCreate`** — the section under `hash_lock`.
* **`SetUpInv.step`** — one step of any thread. -/

namespace SparkRdma

open Interleaving SetUpState

variable {H C : Type} {peers : Peers H C} {s s' : SetUpState H C}

/-! ### Stages -/

/-- Behind `rdma_create_connect` the queue pair is there with its receives. -/
theorem AtStage.hasAttr {conn : Connection H C} {st : Stage} (h : AtStage conn st)
    (hst : st.credits = maxPreRecvQp.toNat) : ∃ attr, conn.HasAttr peers attr := by
  have hlog := h.log
  cases hqp : conn.rcQp with
  | none =>
    rw [hqp] at hlog
    cases st <;> first | exact absurd hst (by decide) | cases hlog
  | some qp => exact ⟨_, by rw [Connection.attr?, hqp]; rfl, h.posted.trans hst⟩

/-- Without the receives no record is announced. -/
theorem AtStage.not_hasAttr {conn : Connection H C} {st : Stage} (h : AtStage conn st)
    (hst : st.credits = 0) (attr : QpAttr) : ¬ conn.HasAttr peers attr := by
  intro hattr
  have hzero := h.posted.trans hst
  rw [hattr.posted] at hzero
  cases hzero

/-- A thread in a section stands where the stage of its transport says. -/
theorem SetUpInv.stage_at (h : SetUpInv peers s) {t : Tid H C} {point : Point} {sock : C}
    {value client : ℕ} (hat : s.pc t = .at point sock value client) (hcritical : point.Critical) :
    ∃ st, point.HoldsAt st ∧ AtStage (s.conns value) st ∧
      (st.completed = 1 → Learned peers s value) := by
  have hthread := h.thread t
  rw [hat] at hthread
  obtain ⟨st, hheld, hfields, hlearned⟩ := h.stage value (AtPoint.value_lt hthread)
  rw [Held, AtPoint.lock hthread hcritical] at hheld
  obtain ⟨point', sock', client', hat', hholds⟩ := hheld
  rw [hat] at hat'
  cases hat'
  exact ⟨st, hholds, hfields, hlearned⟩

/-- While the lock is free the transport is at rest. -/
theorem SetUpInv.rest_of_free (h : SetUpInv peers s) {id : ℕ} (hid : id < s.count)
    (hfree : (s.conns id).lock = none) :
    ∃ st : Stage, st.Rest ∧ AtStage (s.conns id) st ∧ (st.completed = 1 → Learned peers s id) := by
  obtain ⟨st, hheld, hfields, hlearned⟩ := h.stage id hid
  rw [Held, hfree] at hheld
  exact ⟨st, hheld, hfields, hlearned⟩

variable [DecidableEq H] [DecidableEq C]

/-! ### The kinds of steps -/

/-- A step inside a section, or the one that enters it: the thread holds the lock behind it, and the
transport is at the stage of the new point. -/
theorem SetUpInv.of_section (h : SetUpInv peers s) {t : Tid H C} {point point' : Point} {sock : C}
    {value client : ℕ} {conn' : Connection H C} {st : Stage}
    (hat : s.pc t = .at point sock value client)
    (hs' : s' = (s.set value conn').goto t (.at point' sock value client))
    (hconn : (s.conns value).Extends peers conn')
    (hremote : conn'.remoteAttr = (s.conns value).remoteAttr)
    (hlock : (s.conns value).lock = none ∨ (s.conns value).lock = some t)
    (hlock' : conn'.lock = some t) (hholds : point'.HoldsAt st) (hfields : AtStage conn' st)
    (hlearned : st.completed = 1 → Learned peers s value)
    (hcreated : point'.Created → ∃ attr, conn'.HasAttr peers attr)
    (hlearned' : point'.Learned → Learned peers s value)
    (hready : point'.Ready → conn'.isReady = true) : SetUpInv peers s' := by
  have hthread := h.thread t
  rw [hat] at hthread
  have hat' := hthread
  subst hs'
  have hself : ((s.set value conn').goto t (.at point' sock value client)).conns value = conn' :=
    Function.update_self ..
  -- A point inside a section is none of those of the exchange.
  have hnot : ¬ point'.Filled ∧ ¬ point'.Client ∧ ¬ point'.Server := by
    have hcritical := hholds.critical
    cases point' <;> first | exact ⟨id, id, id⟩ | exact hcritical.elim
  refine h.of_write hat ⟨rfl, rfl, rfl⟩ rfl hconn (fun _ => hremote) ?_ (fun hext => ?_)
    (fun hext => ?_) (fun _ _ => .inl) (fun _ _ => .inl) (fun _ _ => .inl)
  · intro u hu hheld
    rcases hlock with hnone | hsome
    · rw [hnone] at hheld
      cases hheld
    · rw [hsome] at hheld
      exact absurd (Option.some.inj hheld).symm hu
  · refine ⟨st, ?_, hfields, fun hst => (hlearned hst).extends (AtPoint.value_lt hat') hext⟩
    rw [Held, hself, hlock']
    exact ⟨point', sock, client, Function.update_self .., hholds⟩
  · refine AtPoint.move hat' hext (AtPoint.client_eq hat') (fun hpoint => absurd hpoint hnot.2.1)
      (fun hpoint => absurd hpoint hnot.2.2) (fun _ => ?_) (fun hpoint => .inr ?_)
      (fun hpoint => absurd hpoint hnot.1)
      (fun hpoint => .inr ((hlearned' hpoint).extends (AtPoint.value_lt hat') hext))
      (fun hpoint => ?_)
    · rw [hself, hlock']
    · rw [hself]
      exact hcreated hpoint
    · rw [hself]
      exact hready hpoint

/-- The step that leaves a section: the lock is released, and the transport is at rest. -/
theorem SetUpInv.of_release (h : SetUpInv peers s) {t : Tid H C} {point : Point} {sock : C}
    {value client : ℕ} {pc : Pc C} {st : Stage} (hat : s.pc t = .at point sock value client)
    (hcritical : point.Critical) (hfields : AtStage (s.conns value) st) (hrest : st.Rest)
    (hlearned : st.completed = 1 → Learned peers s value)
    (hs' : s' = (s.set value { s.conns value with lock := none }).goto t pc)
    (hthread : Extends peers s s' → ThreadOk peers s' t pc) : SetUpInv peers s' := by
  have hat' := h.thread t
  rw [hat] at hat'
  have hlock := AtPoint.lock hat' hcritical
  have hwrites : Writes s s' value { s.conns value with lock := none } := by
    subst hs'
    exact ⟨rfl, rfl, rfl⟩
  refine h.of_write hat hwrites (by subst hs'; rfl)
    ⟨rfl, rfl, fun _ ha => ⟨ha.attr, ha.posted⟩, fun ha => ha, fun ha => ha⟩ (fun _ => rfl) ?_
    (fun hext => ?_) hthread (by subst hs'; exact fun _ _ => .inl)
    (by subst hs'; exact fun _ _ => .inl) (by subst hs'; exact fun _ _ => .inl)
  · intro u hu hheld
    rw [hlock] at hheld
    exact absurd (Option.some.inj hheld).symm hu
  · refine ⟨st, ?_, ⟨hfields.log, hfields.posted, hfields.created, hfields.completed,
      hfields.isReady, hfields.psn⟩, fun hst => (hlearned hst).extends (AtPoint.value_lt hat') hext⟩
    rw [Held, hwrites.self]
    exact hrest

/-- A step outside the sections: the lock stays, and so does the stage of the transport. -/
theorem SetUpInv.of_outside (h : SetUpInv peers s) {t : Tid H C} {point : Point} {sock : C}
    {value client : ℕ} {conn' : Connection H C} {pc : Pc C}
    (hat : s.pc t = .at point sock value client) (hnot : ¬ point.Critical)
    (hwrites : Writes s s' value conn') (hpc : s'.pc = Function.update s.pc t pc)
    (hlock : conn'.lock = (s.conns value).lock)
    (hconn : (s.conns value).Extends peers conn')
    (hremote : Learned peers s value → conn'.remoteAttr = (s.conns value).remoteAttr)
    (hfields : ∀ st, AtStage (s.conns value) st → (st.completed = 1 → Learned peers s value) →
      AtStage conn' st)
    (hthread : Extends peers s s' → ThreadOk peers s' t pc)
    (hrequest : ∀ c wire, s'.request c = some wire → s.request c = some wire ∨
      Announced peers s' (peers.caller c) (peers.callee c) (.ofWire wire))
    (hreply : ∀ c wire, s'.reply c = some wire → s.reply c = some wire ∨
      Announced peers s' (peers.callee c) (peers.caller c) (.ofWire wire))
    (hbacklog : ∀ h c, c ∈ s'.backlog h → c ∈ s.backlog h ∨ peers.callee c = h) :
    SetUpInv peers s' := by
  have hat' := h.thread t
  rw [hat] at hat'
  have hvalue := AtPoint.value_lt hat'
  refine h.of_write hat hwrites hpc hconn hremote (fun u _ hheld => by rwa [hlock])
    (fun hext => ?_) hthread hrequest hreply hbacklog
  obtain ⟨st, hheld, hstage, hlearned⟩ := h.stage value hvalue
  refine ⟨st, hheld.of_ne hpc (by rw [hwrites.self, hlock]) ?_, hfields st hstage hlearned,
    fun hst => (hlearned hst).extends hvalue hext⟩
  intro hself
  obtain ⟨point', sock', client', hat'', hcritical⟩ := h.holder hvalue hself
  rw [hat] at hat''
  cases hat''
  exact hnot hcritical

/-! ### The first section -/

/-- A thread takes the lock to create the connection. -/
theorem SetUpInv.lockCreate (h : SetUpInv peers s) {t : Tid H C} {sock : C} {value client : ℕ}
    (hat : s.pc t = .at .lockCreate sock value client)
    (hstep : s.pointStep peers t sock value client .lockCreate = some (.ok s')) :
    SetUpInv peers s' := by
  have hat' := h.thread t
  rw [hat] at hat'
  simp only [pointStep] at hstep
  split at hstep
  · rename_i hfree
    obtain ⟨st, hrest, hfields, hlearned⟩ := h.rest_of_free (AtPoint.value_lt hat') hfree
    have hlog := hfields.log
    have hfields' : AtStage { s.conns value with lock := some t } st :=
      ⟨hfields.log, hfields.posted, hfields.created, hfields.completed, hfields.isReady,
        hfields.psn⟩
    have hconn : (s.conns value).Extends peers { s.conns value with lock := some t } :=
      ⟨rfl, rfl, fun _ ha => ⟨ha.attr, ha.posted⟩, fun ha => ha, fun ha => ha⟩
    split at hstep
    · -- no queue pair yet: this thread makes it
      rename_i hnone
      cases hstep
      obtain rfl : st = .empty := by
        rw [hnone] at hlog
        cases st <;> first | rfl | cases hlog
      exact h.of_section hat rfl hconn rfl (.inl hfree) rfl rfl hfields' nofun nofun nofun nofun
    · -- At rest with a queue pair, the receives are posted: `rdma_create_connect` is skipped.
      rename_i hsome
      cases hstep
      have hst : st = .posted ∨ st = .ready := by
        cases st with
        | empty => exact absurd (Option.map_eq_none_iff.mp hlog) hsome
        | posted => exact .inl rfl
        | ready => exact .inr rfl
        | _ => exact hrest.elim
      have hcredits : st.credits = maxPreRecvQp.toNat := by
        rcases hst with rfl | rfl <;> rfl
      exact h.of_section hat rfl hconn rfl (.inl hfree) rfl hst hfields' hlearned
        (fun _ => hfields'.hasAttr hcredits) nofun nofun
  · cases hstep

/-- The queue pair is created. -/
theorem SetUpInv.createQp (h : SetUpInv peers s) {t : Tid H C} {sock : C} {value client : ℕ}
    (hat : s.pc t = .at .createQp sock value client) (num : UInt32) :
    SetUpInv peers ((s.set value { s.conns value with
      rcQp := some ⟨num, []⟩, created := (s.conns value).created + 1 }).goto t
        (.at .modifyInit sock value client)) := by
  have hat' := h.thread t
  rw [hat] at hat'
  obtain ⟨st, rfl, hfields, -⟩ := h.stage_at hat trivial
  have hnone : (s.conns value).rcQp = none := Option.map_eq_none_iff.mp hfields.log
  -- Nothing has been announced that the new number could contradict.
  refine h.of_section hat rfl
    ⟨rfl, rfl, fun attr ha => absurd ha (hfields.not_hasAttr rfl attr), fun ha => ?_, fun ha => ha⟩
    rfl (.inr (AtPoint.lock hat' trivial)) (AtPoint.lock hat' trivial) rfl
    ⟨rfl, hfields.posted, congrArg (· + 1) hfields.created, hfields.completed, hfields.isReady,
      hfields.psn⟩ nofun nofun nofun nofun
  rw [Connection.attr?, hnone] at ha
  cases ha

/-- The receives are posted. -/
theorem SetUpInv.postRecv (h : SetUpInv peers s) {t : Tid H C} {sock : C} {value client : ℕ}
    (hat : s.pc t = .at .postRecv sock value client)
    (hstep : s.pointStep peers t sock value client .postRecv = some (.ok s')) :
    SetUpInv peers s' := by
  have hat' := h.thread t
  rw [hat] at hat'
  obtain ⟨st, rfl, hfields, -⟩ := h.stage_at hat trivial
  cases hstep
  have hfields' : AtStage { s.conns value with
      posted := (s.conns value).posted + maxPreRecvQp.toNat } .posted :=
    ⟨hfields.log, by rw [hfields.posted]; exact Nat.zero_add _, hfields.created, hfields.completed,
      hfields.isReady, hfields.psn⟩
  exact h.of_section hat rfl
    ⟨rfl, rfl, fun attr ha => absurd ha (hfields.not_hasAttr rfl attr), fun ha => ha, fun ha => ha⟩
    rfl (.inr (AtPoint.lock hat' trivial)) (AtPoint.lock hat' trivial) (.inl rfl) hfields' nofun
    (fun _ => hfields'.hasAttr rfl) nofun nofun

/-- The lock is released behind `rdma_create_connect`. -/
theorem SetUpInv.unlockCreate (h : SetUpInv peers s) {t : Tid H C} {sock : C} {value client : ℕ}
    (hat : s.pc t = .at .unlockCreate sock value client)
    (hstep : s.pointStep peers t sock value client .unlockCreate = some (.ok s')) :
    SetUpInv peers s' := by
  have hat' := h.thread t
  rw [hat] at hat'
  obtain ⟨st, hst, hfields, hlearned⟩ := h.stage_at hat trivial
  have hrest : st.Rest := by rcases hst with rfl | rfl <;> trivial
  cases t with
  | call c =>
    cases hstep
    exact h.of_release hat trivial hfields hrest hlearned rfl fun hext =>
      AtPoint.move hat' hext (AtPoint.client_eq hat') (fun _ => ⟨c, rfl⟩) nofun nofun
        (fun _ => .inl trivial) nofun nofun nofun
  | accept a =>
    cases hstep
    exact h.of_release hat trivial hfields hrest hlearned rfl fun hext =>
      AtPoint.move hat' hext (AtPoint.client_eq hat') nofun nofun nofun
        (fun _ => .inl trivial) nofun nofun nofun

/-! ### The exchange -/

/-- `connect_server` finds the transport, and its connection waits to be accepted. -/
theorem SetUpInv.connect (h : SetUpInv peers s) {t : Tid H C} {sock : C} {value client : ℕ}
    (hat : s.pc t = .at .connect sock value client)
    (hstep : s.pointStep peers t sock value client .connect = some (.ok s')) :
    SetUpInv peers s' := by
  have hat' := h.thread t
  rw [hat] at hat'
  obtain ⟨c, rfl⟩ := AtPoint.client hat' trivial
  simp only [pointStep] at hstep
  split at hstep
  · cases hstep
  · rename_i found hfound
    obtain ⟨hfound, howner, hpeer⟩ := (h.entry _ _ found).mp hfound
    -- `connect_server` looks its transport up again, and it is the same one.
    obtain rfl : found = value := h.unique hfound (AtPoint.value_lt hat')
      (howner.trans (AtPoint.owner hat').symm) (hpeer.trans (AtPoint.peer hat').symm)
    split at hstep
    · cases hstep
    · cases hstep
      refine h.of_outside hat id ⟨rfl, rfl, (Function.update_eq_self ..).symm⟩ rfl rfl
        ⟨rfl, rfl, fun _ ha => ha, fun ha => ha, fun ha => ha⟩ (fun _ => rfl) (fun _ hst _ => hst)
        (fun hext => AtPoint.move hat' hext rfl nofun nofun nofun (fun _ => .inl trivial) nofun
          nofun nofun)
        (fun _ _ => .inl) (fun _ _ => .inl) ?_
      intro a c' hc'
      simp only [goto, Function.update_apply] at hc'
      split at hc'
      · rename_i ha
        rcases List.mem_append.mp hc' with hold | hnew
        · exact .inl (ha ▸ hold)
        · rw [List.mem_singleton.mp hnew]
          exact .inr ha.symm
      · exact .inl hc'

/-- The own record is filled in. -/
theorem SetUpInv.fillLocal (h : SetUpInv peers s) {t : Tid H C} {sock : C} {value client : ℕ}
    (hat : s.pc t = .at .fillLocal sock value client)
    (hstep : s.pointStep peers t sock value client .fillLocal = some (.ok s')) :
    SetUpInv peers s' := by
  have hat' := h.thread t
  rw [hat] at hat'
  obtain rfl := AtPoint.client_eq hat'
  simp only [pointStep] at hstep
  split at hstep
  · cases hstep
  · rename_i attr hattr
    have hpsn : attr.psn = 0 := by
      obtain ⟨qp, -, rfl⟩ := Option.map_eq_some_iff.mp hattr
      rfl
    -- Whoever filled the record in before has filled in the same.
    have hmove : ∀ point', (point'.Client → ∃ c, t = .call c) →
        (point'.Server → ∃ a, t = .accept a) → ¬ point'.Critical → ¬ point'.Learned →
        ¬ point'.Ready → s' = (s.set client { s.conns client with localAttr := attr }).goto t
          (.at point' sock client client) → SetUpInv peers s' := by
      intro point' hclient hserver hnot hlearned hready hs'
      subst hs'
      have hself : ((s.set client { s.conns client with localAttr := attr }).goto t
          (.at point' sock client client)).conns client
            = { s.conns client with localAttr := attr } := Function.update_self ..
      refine h.of_outside hat id
        ⟨rfl, rfl, rfl⟩ rfl rfl
        ⟨rfl, rfl, fun _ ha => ⟨ha.attr, ha.posted⟩, fun _ => hattr, fun ha => ha⟩ (fun _ => rfl)
        (fun st hst _ => ⟨hst.log, hst.posted, hst.created, hst.completed, hst.isReady, hpsn⟩)
        (fun hext => ?_) (fun _ _ => .inl) (fun _ _ => .inl) (fun _ _ => .inl)
      exact AtPoint.move hat' hext rfl hclient hserver (fun hpoint => absurd hpoint hnot)
        (fun _ => .inl trivial) (fun _ => .inr (by rw [hself]; exact hattr))
        (fun hpoint => absurd hpoint hlearned) (fun hpoint => absurd hpoint hready)
    cases t with
    | call c =>
      cases hstep
      exact hmove .clientWrite (fun _ => ⟨c, rfl⟩) nofun id id id rfl
    | accept a =>
      cases hstep
      exact hmove .serverRead nofun (fun _ => ⟨a, rfl⟩) id id id rfl

omit [DecidableEq H] [DecidableEq C] in
/-- The record that a thread writes is announced to the other side. -/
theorem SetUpInv.announced_toWire (h : SetUpInv peers s) {t : Tid H C} {point : Point} {sock : C}
    {value client : ℕ} (hat : s.pc t = .at point sock value client) (hfilled : point.Filled) :
    Announced peers s (t.self peers sock) (t.other peers sock)
      (.ofWire (s.conns client).localAttr.toWire) := by
  have hat' := h.thread t
  rw [hat] at hat'
  obtain rfl := AtPoint.client_eq hat'
  have hcreated : point.Created := by cases point <;> first | exact trivial | exact hfilled.elim
  obtain ⟨attr, hattr⟩ := AtPoint.created hat' hcreated
  have heq := hattr.attr.symm.trans (AtPoint.filled hat' hfilled)
  rw [QpAttr.ofWire_toWire, ← Option.some.inj heq]
  exact ⟨client, AtPoint.value_lt hat', AtPoint.owner hat', AtPoint.peer hat', hattr⟩

/-- A client writes its record. -/
theorem SetUpInv.clientWrite (h : SetUpInv peers s) {t : Tid H C} {sock : C} {value client : ℕ}
    (hat : s.pc t = .at .clientWrite sock value client)
    (hstep : s.pointStep peers t sock value client .clientWrite = some (.ok s')) :
    SetUpInv peers s' := by
  have hat' := h.thread t
  rw [hat] at hat'
  obtain ⟨c, rfl⟩ := AtPoint.client hat' trivial
  have hann := h.announced_toWire hat trivial
  cases hstep
  have hwrites : Writes s ({ s with
      request := Function.update s.request sock (some (s.conns client).localAttr.toWire) }.goto
        (.call c) (.at .clientRead sock value client)) value (s.conns value) :=
    ⟨rfl, rfl, (Function.update_eq_self ..).symm⟩
  have hconn : (s.conns value).Extends peers (s.conns value) :=
    ⟨rfl, rfl, fun _ ha => ha, fun ha => ha, fun ha => ha⟩
  refine h.of_outside hat id hwrites rfl rfl hconn (fun _ => rfl) (fun _ hst _ => hst)
    (fun hext => AtPoint.move hat' hext (AtPoint.client_eq hat') (fun _ => ⟨c, rfl⟩) nofun nofun
      (fun _ => .inl trivial) (fun _ => .inl trivial) nofun nofun) ?_ (fun _ _ => .inl)
    (fun _ _ => .inl)
  intro c' wire hwire
  simp only [goto, Function.update_apply] at hwire
  split at hwire
  · rename_i hc'
    subst hc'
    cases hwire
    exact .inr (hann.extends (hwrites.extends hconn fun _ => rfl))
  · exact .inl hwire

/-- A server writes its record. -/
theorem SetUpInv.serverWrite (h : SetUpInv peers s) {t : Tid H C} {sock : C} {value client : ℕ}
    (hat : s.pc t = .at .serverWrite sock value client)
    (hstep : s.pointStep peers t sock value client .serverWrite = some (.ok s')) :
    SetUpInv peers s' := by
  have hat' := h.thread t
  rw [hat] at hat'
  obtain ⟨a, rfl⟩ := AtPoint.server hat' trivial
  have hann := h.announced_toWire hat trivial
  cases hstep
  have hwrites : Writes s ({ s with
      reply := Function.update s.reply sock (some (s.conns client).localAttr.toWire) }.goto
        (.accept a) (.at .lockComplete sock value client)) value (s.conns value) :=
    ⟨rfl, rfl, (Function.update_eq_self ..).symm⟩
  have hconn : (s.conns value).Extends peers (s.conns value) :=
    ⟨rfl, rfl, fun _ ha => ha, fun ha => ha, fun ha => ha⟩
  refine h.of_outside hat id hwrites rfl rfl hconn (fun _ => rfl) (fun _ hst _ => hst)
    (fun hext => AtPoint.move hat' hext (AtPoint.client_eq hat') nofun nofun nofun
      (fun _ => .inl trivial) nofun (fun _ => .inl trivial) nofun) (fun _ _ => .inl) ?_
    (fun _ _ => .inl)
  intro c' wire hwire
  simp only [goto, Function.update_apply] at hwire
  split at hwire
  · rename_i hc'
    subst hc'
    cases hwire
    exact .inr (hann.extends (hwrites.extends hconn fun _ => rfl))
  · exact .inl hwire

/-- **A thread reads the other side's record.** If `remote_qp_attr` has been filled in before, then
with the same record. -/
theorem SetUpInv.read (h : SetUpInv peers s) {t : Tid H C} {point : Point} (point' : Point)
    (s₁ : SetUpState H C) {sock : C} {value client : ℕ} {wire : WireAttr}
    (hat : s.pc t = .at point sock value client) (hnot : ¬ point.Critical)
    (hann : Announced peers s (t.other peers sock) (t.self peers sock) (.ofWire wire))
    (hs₁ : s₁.count = s.count ∧ s₁.table = s.table ∧ s₁.conns = s.conns ∧ s₁.pc = s.pc)
    (hs' : s' = (s₁.set client { s.conns client with remoteAttr := .ofWire wire }).goto t
      (.at point' sock value client))
    (hcreated : point.Created) (hclient : ¬ point'.Client)
    (hserver : point'.Server → ∃ a, t = .accept a) (hcritical : ¬ point'.Critical)
    (hfilled : point'.Filled → point.Filled) (hready : ¬ point'.Ready)
    (hrequest : ∀ c wire, s₁.request c = some wire → s.request c = some wire)
    (hreply : ∀ c wire, s₁.reply c = some wire → s.reply c = some wire)
    (hbacklog : s₁.backlog = s.backlog) : SetUpInv peers s' := by
  have hat' := h.thread t
  rw [hat] at hat'
  obtain rfl := AtPoint.client_eq hat'
  obtain ⟨hcount, htable, hconns, hpc⟩ := hs₁
  subst hs'
  -- What is announced for a pair of hosts never changes, so the second reader reads the same.
  have hsame : Learned peers s client → QpAttr.ofWire wire = (s.conns client).remoteAttr := by
    intro hlearned
    rw [Learned, AtPoint.owner hat', AtPoint.peer hat'] at hlearned
    exact h.announced_unique hann hlearned
  have hwrites : Writes s ((s₁.set client { s.conns client with remoteAttr := .ofWire wire }).goto t
      (.at point' sock client client)) client { s.conns client with remoteAttr := .ofWire wire } :=
    ⟨hcount, htable, by simp only [goto, SetUpState.set, hconns]⟩
  have hpc' : ((s₁.set client { s.conns client with remoteAttr := .ofWire wire }).goto t
      (.at point' sock client client)).pc
        = Function.update s.pc t (.at point' sock client client) := by
    simp only [goto, SetUpState.set, hpc]
  refine h.of_outside hat hnot hwrites hpc' rfl
    ⟨rfl, rfl, fun _ ha => ⟨ha.attr, ha.posted⟩, fun ha => ha, fun ha => ha⟩ hsame ?_
    (fun hext => ?_) (fun c w hw => .inl (hrequest c w hw)) (fun c w hw => .inl (hreply c w hw))
    (fun a c hc => .inl (by simpa only [goto, SetUpState.set, hbacklog] using hc))
  · intro st hst hlearned
    refine ⟨?_, hst.posted, hst.created, hst.completed, hst.isReady, hst.psn⟩
    -- The stages before `rdma_complete_connect` do not look at the record.
    cases st with
    | empty => exact hst.log
    | bare => exact hst.log
    | initial => exact hst.log
    | posted => exact hst.log
    | _ =>
      have hremote := hsame (hlearned rfl)
      have hlog := hst.log
      rw [← hremote] at hlog
      exact hlog
  · refine AtPoint.move hat' hext rfl (fun hpoint => absurd hpoint hclient) hserver
      (fun hpoint => absurd hpoint hcritical) (fun _ => .inl hcreated)
      (fun hpoint => .inl (hfilled hpoint)) (fun _ => .inr ?_) (fun hpoint => absurd hpoint hready)
    rw [Learned, hwrites.self]
    have hann' := hann.extends hext
    rwa [← AtPoint.owner hat', ← AtPoint.peer hat'] at hann'

/-- A client reads the server's record. -/
theorem SetUpInv.clientRead (h : SetUpInv peers s) {t : Tid H C} {sock : C} {value client : ℕ}
    (hat : s.pc t = .at .clientRead sock value client)
    (hstep : s.pointStep peers t sock value client .clientRead = some (.ok s')) :
    SetUpInv peers s' := by
  have hat' := h.thread t
  rw [hat] at hat'
  obtain ⟨c, rfl⟩ := AtPoint.client hat' trivial
  simp only [pointStep] at hstep
  split at hstep
  · cases hstep
  · rename_i wire hwire
    cases hstep
    refine h.read .lockComplete { s with reply := Function.update s.reply sock none } hat id
      (h.reply sock wire hwire) ⟨rfl, rfl, rfl, rfl⟩ rfl trivial id nofun id nofun id
      (fun _ _ hw => hw) (fun c' w hw => ?_) rfl
    -- What was read is gone; the other sockets hold what they held.
    simp only [Function.update_apply] at hw
    split at hw
    · cases hw
    · exact hw

/-- A server reads the client's record. -/
theorem SetUpInv.serverRead (h : SetUpInv peers s) {t : Tid H C} {sock : C} {value client : ℕ}
    (hat : s.pc t = .at .serverRead sock value client)
    (hstep : s.pointStep peers t sock value client .serverRead = some (.ok s')) :
    SetUpInv peers s' := by
  have hat' := h.thread t
  rw [hat] at hat'
  obtain ⟨a, rfl⟩ := AtPoint.server hat' trivial
  simp only [pointStep] at hstep
  split at hstep
  · cases hstep
  · rename_i wire hwire
    cases hstep
    refine h.read .serverWrite { s with request := Function.update s.request sock none } hat id
      (h.request sock wire hwire) ⟨rfl, rfl, rfl, rfl⟩ rfl trivial id (fun _ => ⟨a, rfl⟩) id
      (fun _ => trivial) id (fun c' w hw => ?_) (fun _ _ hw => hw) rfl
    simp only [Function.update_apply] at hw
    split at hw
    · cases hw
    · exact hw

/-! ### The second section -/

/-- A thread takes the lock to complete the connection. -/
theorem SetUpInv.lockComplete (h : SetUpInv peers s) {t : Tid H C} {sock : C} {value client : ℕ}
    (hat : s.pc t = .at .lockComplete sock value client)
    (hstep : s.pointStep peers t sock value client .lockComplete = some (.ok s')) :
    SetUpInv peers s' := by
  have hat' := h.thread t
  rw [hat] at hat'
  have hlearned := AtPoint.learned hat' trivial
  obtain ⟨attr, hattr⟩ := AtPoint.created hat' trivial
  simp only [pointStep] at hstep
  split at hstep
  · rename_i hfree
    obtain ⟨st, hrest, hfields, -⟩ := h.rest_of_free (AtPoint.value_lt hat') hfree
    have hisReady := hfields.isReady
    split at hstep
    · -- `is_ready`: the other thread has completed the connection
      rename_i hready
      cases hstep
      obtain rfl : st = .ready := by
        rw [hready] at hisReady
        cases st <;> first | rfl | cases hisReady
      exact h.of_section hat rfl
        ⟨rfl, rfl, fun _ ha => ⟨ha.attr, ha.posted⟩, fun ha => ha, fun ha => ha⟩ rfl (.inl hfree)
        rfl rfl ⟨hfields.log, hfields.posted, hfields.created, hfields.completed, hfields.isReady,
          hfields.psn⟩ (fun _ => hlearned) (fun _ => ⟨attr, hattr.attr, hattr.posted⟩)
        (fun _ => hlearned) (fun _ => hready)
    · rename_i hnot
      cases hstep
      -- The queue pair is there and `is_ready` is not set, so nobody has begun to complete it.
      obtain rfl : st = .posted := by
        cases st with
        | empty => exact absurd hattr (hfields.not_hasAttr rfl attr)
        | posted => rfl
        | ready => exact absurd hisReady hnot
        | _ => exact hrest.elim
      exact h.of_section hat rfl
        ⟨rfl, rfl, fun _ ha => ⟨ha.attr, ha.posted⟩, fun ha => ha, fun ha => ha⟩ rfl (.inl hfree)
        rfl rfl ⟨hfields.log, hfields.posted, hfields.created,
          congrArg (· + 1) hfields.completed, hfields.isReady, hfields.psn⟩ (fun _ => hlearned)
        (fun _ => ⟨attr, hattr.attr, hattr.posted⟩) (fun _ => hlearned) nofun
  · cases hstep

/-- `is_ready` is set. -/
theorem SetUpInv.setReady (h : SetUpInv peers s) {t : Tid H C} {sock : C} {value client : ℕ}
    (hat : s.pc t = .at .setReady sock value client)
    (hstep : s.pointStep peers t sock value client .setReady = some (.ok s')) :
    SetUpInv peers s' := by
  have hat' := h.thread t
  rw [hat] at hat'
  obtain ⟨attr, hattr⟩ := AtPoint.created hat' trivial
  obtain ⟨st, rfl, hfields, hlearned⟩ := h.stage_at hat trivial
  cases hstep
  exact h.of_section hat rfl
    ⟨rfl, rfl, fun _ ha => ⟨ha.attr, ha.posted⟩, fun ha => ha, fun _ => rfl⟩ rfl
    (.inr (AtPoint.lock hat' trivial)) (AtPoint.lock hat' trivial) rfl
    ⟨hfields.log, hfields.posted, hfields.created, hfields.completed, rfl, hfields.psn⟩ hlearned
    (fun _ => ⟨attr, hattr.attr, hattr.posted⟩) (fun _ => hlearned rfl) (fun _ => rfl)

/-- The lock is released behind `rdma_complete_connect`. -/
theorem SetUpInv.unlockComplete (h : SetUpInv peers s) {t : Tid H C} {sock : C}
    {value client : ℕ} (hat : s.pc t = .at .unlockComplete sock value client)
    (hstep : s.pointStep peers t sock value client .unlockComplete = some (.ok s')) :
    SetUpInv peers s' := by
  have hat' := h.thread t
  rw [hat] at hat'
  obtain ⟨st, rfl, hfields, hlearned⟩ := h.stage_at hat trivial
  cases t with
  | call c =>
    cases hstep
    refine h.of_release hat trivial hfields trivial hlearned rfl fun hext => ?_
    exact AtPoint.move hat' hext (AtPoint.client_eq hat') (fun _ => ⟨c, rfl⟩) nofun nofun
      (fun _ => .inl trivial) nofun (fun _ => .inl trivial)
      fun _ => hext.ready _ (AtPoint.value_lt hat') (AtPoint.ready hat' trivial)
  | accept a =>
    cases hstep
    exact h.of_release hat trivial hfields trivial hlearned rfl fun _ => trivial

/-- A section that sets the log of the queue pair and goes on: from stage `st` to stage `st'`, which
differs from it in the log only. -/
theorem SetUpInv.of_setLog (h : SetUpInv peers s) {t : Tid H C} {point : Point} {sock : C}
    {value client : ℕ} {qp : Qp} {st : Stage} (point' : Point) (st' : Stage) (log : List QpChange)
    (hat : s.pc t = .at point sock value client) (hqp : (s.conns value).rcQp = some qp)
    (hfields : AtStage (s.conns value) st)
    (hlearned : st.completed = 1 → Learned peers s value)
    (hlog : some log = st'.log (s.conns value).remoteAttr)
    (hother : st'.credits = st.credits ∧ st'.created = st.created ∧ st'.completed = st.completed ∧
      st'.isReady = st.isReady)
    (hholds' : point'.HoldsAt st') (hcritical : point.Critical) (hready : ¬ point'.Ready)
    (hlearned' : point'.Learned → point.Learned) (hcreated' : point'.Created → point.Created)
    (hs' : s' = (s.set value { s.conns value with rcQp := some { qp with log := log } }).goto t
      (.at point' sock value client)) : SetUpInv peers s' := by
  have hat' := h.thread t
  rw [hat] at hat'
  obtain ⟨hcredits, hcreated, hcompleted, hisReady⟩ := hother
  -- The number of the queue pair, which is what the other side has learned, is not touched.
  have hattr? : ({ s.conns value with rcQp := some { qp with log := log } } :
      Connection H C).attr? peers = (s.conns value).attr? peers := by
    simp only [Connection.attr?, hqp, Option.map_some]
  refine h.of_section hat hs' ?_ rfl (.inr (AtPoint.lock hat' hcritical))
    (AtPoint.lock hat' hcritical) hholds' ?_ ?_ ?_ ?_ ?_
  · exact ⟨rfl, rfl, fun _ ha => ⟨hattr?.trans ha.attr, ha.posted⟩, fun ha => hattr?.trans ha,
      fun ha => ha⟩
  · exact ⟨hlog, hfields.posted.trans hcredits.symm, hfields.created.trans hcreated.symm,
      hfields.completed.trans hcompleted.symm, hfields.isReady.trans hisReady.symm, hfields.psn⟩
  · exact fun hst => hlearned (hcompleted ▸ hst)
  · exact fun hpoint => (AtPoint.created hat' (hcreated' hpoint)).imp fun _ ha =>
      ⟨hattr?.trans ha.attr, ha.posted⟩
  · exact fun hpoint => AtPoint.learned hat' (hlearned' hpoint)
  · exact fun hpoint => absurd hpoint hready

omit [DecidableEq H] [DecidableEq C] in
/-- The log of a queue pair at a stage. -/
theorem AtStage.qp_log {conn : Connection H C} {qp : Qp} {st : Stage} {log : List QpChange}
    (hfields : AtStage conn st) (hqp : conn.rcQp = some qp)
    (hlog : st.log conn.remoteAttr = some log) : qp.log = log := by
  have hlog' := hfields.log
  rw [hqp, hlog] at hlog'
  exact Option.some.inj hlog'

/-- **`ibv_modify_qp` succeeds** at one of its three points. -/
theorem SetUpInv.modifyQp (h : SetUpInv peers s) {t : Tid H C} {point : Point} {sock : C}
    {value client : ℕ} {res : ℤ} (hres : res ≤ 0) (hat : s.pc t = .at point sock value client)
    (hstep : s.modifyStep t res sock value client point = some (.ok s')) : SetUpInv peers s' := by
  simp only [modifyStep] at hstep
  split at hstep
  · cases hstep
  · rename_i qp hqp
    split at hstep
    · -- `modify_qp_to_init`, which takes a positive result for success
      obtain ⟨st, rfl, hfields, hlearned⟩ := h.stage_at hat trivial
      obtain ⟨⟨ret, qp'⟩, hmodify, hret⟩ := Option.map_eq_some_iff.mp hstep
      split at hret
      · cases hret
      · rename_i hnonneg
        cases hret
        obtain rfl := Qp.modifyTo_of_ret hres hmodify hnonneg
        refine h.of_setLog .postRecv .initial (qp.log ++ [.init]) hat hqp hfields hlearned ?_
          ⟨rfl, rfl, rfl, rfl⟩ rfl trivial id id id rfl
        rw [hfields.qp_log hqp rfl]
        rfl
    · -- `modify_qp_to_rtr`
      obtain ⟨st, rfl, hfields, hlearned⟩ := h.stage_at hat trivial
      obtain ⟨⟨ret, qp'⟩, hmodify, hret⟩ := Option.map_eq_some_iff.mp hstep
      split at hret
      · rename_i hzero
        cases hret
        obtain rfl := Qp.modifyTo_of_ret hres hmodify (by omega)
        refine h.of_setLog .rts .rtr (qp.log ++ [.rtr (s.conns value).remoteAttr]) hat hqp hfields
          hlearned ?_ ⟨rfl, rfl, rfl, rfl⟩ rfl trivial id (fun _ => trivial) (fun _ => trivial) rfl
        rw [hfields.qp_log hqp rfl]
        rfl
      · cases hret
    · -- `modify_qp_to_rts`, with the packet sequence number of the local attributes
      obtain ⟨st, rfl, hfields, hlearned⟩ := h.stage_at hat trivial
      obtain ⟨⟨ret, qp'⟩, hmodify, hret⟩ := Option.map_eq_some_iff.mp hstep
      split at hret
      · rename_i hzero
        cases hret
        obtain rfl := Qp.modifyTo_of_ret hres hmodify (by omega)
        refine h.of_setLog .setReady .rts (qp.log ++ [.rts (s.conns value).localAttr.psn]) hat hqp
          hfields hlearned ?_ ⟨rfl, rfl, rfl, rfl⟩ rfl trivial id (fun _ => trivial)
          (fun _ => trivial) rfl
        rw [hfields.qp_log hqp rfl, hfields.psn]
        rfl
      · cases hret
    · cases hstep

/-! ### Outside the transports -/

omit [DecidableEq H] [DecidableEq C] in
/-- Behind `is_ready` the queue pair is there, and knows the other side. -/
theorem SetUpInv.of_isReady (h : SetUpInv peers s) {id : ℕ} (hid : id < s.count)
    (hready : (s.conns id).isReady = true) :
    AtStage (s.conns id) .ready ∧ Learned peers s id := by
  obtain ⟨st, -, hfields, hlearned⟩ := h.stage id hid
  have hisReady := hfields.isReady
  rw [hready] at hisReady
  obtain rfl : st = .ready := by cases st <;> first | rfl | cases hisReady
  exact ⟨hfields, hlearned rfl⟩

/-- A thread that holds no lock moves, and no transport changes. -/
theorem SetUpInv.of_goto (h : SetUpInv peers s) {t : Tid H C} {pc : Pc C}
    (hfree : ∀ id, id < s.count → (s.conns id).lock ≠ some t)
    (hsame : s'.count = s.count ∧ s'.table = s.table ∧ s'.conns = s.conns)
    (hpc : s'.pc = Function.update s.pc t pc) (hthread : ThreadOk peers s t pc)
    (hsockets : s'.request = s.request ∧ s'.reply = s.reply)
    (hbacklog : ∀ a c, c ∈ s'.backlog a → c ∈ s.backlog a) : SetUpInv peers s' := by
  obtain ⟨hcount, htable, hconns⟩ := hsame
  have hext : Extends peers s s' := by
    refine ⟨hcount.ge, ?_, ?_, ?_, ?_, ?_, ?_⟩ <;> rw [hconns]
    · exact fun _ _ => rfl
    · exact fun _ _ => rfl
    · exact fun _ _ _ ha => ha
    · exact fun _ _ _ => rfl
    · exact fun _ _ ha => ha
    · exact fun _ _ ha => ha
  refine h.of_step hext hpc ?_ ?_ ?_ (hthread.extends hext ?_) ?_ ?_
    fun a c hc => .inl (hbacklog a c hc)
  · rw [hcount, htable, hconns]
    exact h.entry
  · rw [hconns]
    exact fun _ _ _ _ hu => hu
  · intro id hid
    rw [hcount] at hid
    obtain ⟨st, hheld, hfields, hlearned⟩ := h.stage id hid
    refine ⟨st, hheld.of_ne hpc (by rw [hconns]) (hfree id hid), by rwa [hconns],
      fun hst => (hlearned hst).extends hid hext⟩
  · rw [hconns]
    exact fun _ _ hu => hu
  · rw [hsockets.1]
    exact fun _ _ => .inl
  · rw [hsockets.2]
    exact fun _ _ => .inl

omit [DecidableEq H] [DecidableEq C] in
/-- A thread outside the sections holds no lock. -/
theorem SetUpInv.lock_ne (h : SetUpInv peers s) {t : Tid H C}
    (hpc : ∀ point sock value client, s.pc t = .at point sock value client → ¬ point.Critical) :
    ∀ id, id < s.count → (s.conns id).lock ≠ some t := by
  intro id hid hlock
  obtain ⟨point, sock, client, hat, hcritical⟩ := h.holder hid hlock
  exact hpc _ _ _ _ hat hcritical

/-- A waiting thread looks at `is_ready`. -/
theorem SetUpInv.waiting (h : SetUpInv peers s) {t : Tid H C} {sock : C} {value client : ℕ}
    (hat : s.pc t = .at .waiting sock value client)
    (hstep : s.pointStep peers t sock value client .waiting = some (.ok s')) :
    SetUpInv peers s' := by
  have hat' := h.thread t
  rw [hat] at hat'
  have hfree := h.lock_ne (t := t) fun point sock value client heq => by
    rw [hat] at heq
    cases heq
    exact id
  have hrefl : Extends peers s s := ⟨le_rfl, fun _ _ => rfl, fun _ _ => rfl, fun _ _ _ ha => ha,
    fun _ _ _ => rfl, fun _ _ ha => ha, fun _ _ ha => ha⟩
  simp only [pointStep] at hstep
  split at hstep
  · split at hstep
    · rename_i hready
      cases hstep
      obtain ⟨hfields, hlearned⟩ := h.of_isReady (AtPoint.value_lt hat') hready
      exact h.of_goto hfree ⟨rfl, rfl, rfl⟩ rfl
        (AtPoint.move hat' hrefl (AtPoint.client_eq hat') (fun _ => AtPoint.client hat' trivial)
          nofun nofun (fun _ => .inr (hfields.hasAttr rfl)) nofun (fun _ => .inr hlearned)
          fun _ => hready) ⟨rfl, rfl⟩ fun _ _ hc => hc
    · cases hstep
      exact h.of_goto hfree ⟨rfl, rfl, rfl⟩ rfl hat' ⟨rfl, rfl⟩ fun _ _ hc => hc
  · cases hstep

/-- A call returns its transport. -/
theorem SetUpInv.finish (h : SetUpInv peers s) {t : Tid H C} {sock : C} {value client : ℕ}
    (hat : s.pc t = .at .finish sock value client)
    (hstep : s.pointStep peers t sock value client .finish = some (.ok s')) :
    SetUpInv peers s' := by
  have hat' := h.thread t
  rw [hat] at hat'
  obtain ⟨c, rfl⟩ := AtPoint.client hat' trivial
  obtain rfl : sock = c := AtPoint.sock hat'
  obtain rfl := AtPoint.client_eq hat'
  have hfree := h.lock_ne (t := .call sock) fun point sock value client heq => by
    rw [hat] at heq
    cases heq
    exact id
  simp only [pointStep] at hstep
  split at hstep
  · cases hstep
    exact h.of_goto hfree ⟨rfl, rfl, rfl⟩ rfl ⟨sock, rfl, hat'⟩ ⟨rfl, rfl⟩ fun _ _ hc => hc
  · cases hstep

omit [DecidableEq C] in
/-- **The table with a new entry**: it still points to the transport of each pair of hosts that has
one. -/
theorem SetUpInv.entry_allocate (h : SetUpInv peers s) {a p : H} (hnone : s.table a p = none)
    (hcount : s'.count = s.count + 1)
    (hconns : s'.conns = Function.update s.conns s.count (.blank a p))
    (htable : s'.table = Function.update s.table a (Function.update (s.table a) p (some s.count)))
    (b q : H) (id : ℕ) : s'.table b q = some id ↔
      id < s'.count ∧ (s'.conns id).owner = b ∧ (s'.conns id).peer = q := by
  have hlookup : s'.table b q = if b = a ∧ q = p then some s.count else s.table b q := by
    rw [htable]
    by_cases hb : b = a
    · subst hb
      by_cases hq : q = p
      · subst hq
        simp
      · simp [hq]
    · simp [hb]
  rw [hlookup, hconns, hcount]
  rcases Nat.lt_trichotomy id s.count with hid | rfl | hid
  · -- an old transport: the old table had no entry for the new pair
    rw [Function.update_of_ne hid.ne]
    split
    · rename_i hbq
      obtain ⟨rfl, rfl⟩ := hbq
      have hne : ¬ (s.table b q = some id) := by simp [hnone]
      rw [h.entry] at hne
      constructor
      · intro heq
        cases heq
        exact absurd hid (Nat.lt_irrefl _)
      · exact fun hid' => absurd ⟨hid, hid'.2⟩ hne
    · rw [h.entry]
      exact and_congr_left fun _ => ⟨fun _ => by omega, fun _ => hid⟩
  · -- the new transport
    rw [Function.update_self]
    split
    · rename_i hbq
      obtain ⟨rfl, rfl⟩ := hbq
      exact iff_of_true rfl ⟨Nat.lt_succ_self _, rfl, rfl⟩
    · rename_i hbq
      refine iff_of_false (fun hsome => ?_) fun hid => hbq ⟨hid.2.1.symm, hid.2.2.symm⟩
      exact absurd ((h.entry b q _).mp hsome).1 (Nat.lt_irrefl _)
  · -- no transport yet
    refine iff_of_false (fun hsome => ?_) fun hid' => by omega
    split at hsome
    · cases hsome
      exact absurd hid (Nat.lt_irrefl _)
    · exact absurd ((h.entry b q id).mp hsome).1 (by omega)

/-- A transport is allocated and inserted. -/
theorem SetUpInv.allocate (h : SetUpInv peers s) {a p : H} (hnone : s.table a p = none)
    (hcount : s'.count = s.count + 1)
    (hconns : s'.conns = Function.update s.conns s.count (.blank a p))
    (htable : s'.table = Function.update s.table a (Function.update (s.table a) p (some s.count)))
    (hsame : s'.pc = s.pc ∧ s'.request = s.request ∧ s'.reply = s.reply ∧ s'.backlog = s.backlog) :
    SetUpInv peers s' := by
  obtain ⟨hpc, hrequest, hreply, hbacklog⟩ := hsame
  have hold : ∀ id, id < s.count → s'.conns id = s.conns id := fun id hid => by
    rw [hconns, Function.update_of_ne hid.ne]
  have hnew : s'.conns s.count = .blank a p := by rw [hconns, Function.update_self]
  have hext : Extends peers s s' := by
    refine ⟨by omega, ?_, ?_, ?_, ?_, ?_, ?_⟩ <;> intro id hid <;> rw [hold id hid]
    · exact fun _ ha => ha
    · exact fun _ => rfl
    · exact fun ha => ha
    · exact fun ha => ha
  -- No thread moves: it is the step of any of them that stays where it is.
  have hpc' : s'.pc = Function.update s.pc (.accept a) (s.pc (.accept a)) := by
    rw [hpc, Function.update_eq_self]
  refine h.of_step hext hpc' (h.entry_allocate hnone hcount hconns htable)
    (fun u _ id hid hu => by rwa [hold id hid]) (fun id hid => ?_)
    ((h.thread _).extends hext fun id hid hu => by rwa [hold id hid])
    (by rw [hrequest]; exact fun _ _ => .inl) (by rw [hreply]; exact fun _ _ => .inl)
    (by rw [hbacklog]; exact fun _ _ => .inl)
  rcases Nat.lt_succ_iff_lt_or_eq.mp (hcount ▸ hid) with hid | rfl
  · obtain ⟨st, hheld, hfields, hlearned⟩ := h.stage id hid
    refine ⟨st, ?_, by rwa [hold id hid], fun hst => (hlearned hst).extends hid hext⟩
    rw [Held] at hheld ⊢
    rwa [hold id hid, hpc]
  · refine ⟨.empty, ?_, ?_, fun hst => by cases hst⟩
    · rw [Held, hnew]
      exact trivial
    · rw [hnew]
      exact ⟨rfl, rfl, rfl, rfl, rfl, rfl⟩

/-- **The section under `hash_lock`** finds or makes the transport of the host for the peer. -/
theorem SetUpInv.lookupOrCreate (h : SetUpInv peers s) (a p : H) {id : ℕ}
    (hlookup : s.lookupOrCreate a p = (id, s')) :
    SetUpInv peers s' ∧ id < s'.count ∧ (s'.conns id).owner = a ∧ (s'.conns id).peer = p ∧
      s'.pc = s.pc := by
  rw [SetUpState.lookupOrCreate] at hlookup
  split at hlookup
  · rename_i found hfound
    cases hlookup
    obtain ⟨hid, howner, hpeer⟩ := (h.entry a p id).mp hfound
    exact ⟨h, hid, howner, hpeer, rfl⟩
  · rename_i hnone
    cases hlookup
    refine ⟨h.allocate hnone rfl rfl rfl ⟨rfl, rfl, rfl, rfl⟩, Nat.lt_succ_self _, ?_, ?_, rfl⟩
    · show (Function.update s.conns s.count (Connection.blank a p) s.count).owner = a
      rw [Function.update_self]
      rfl
    · show (Function.update s.conns s.count (Connection.blank a p) s.count).peer = p
      rw [Function.update_self]
      rfl

/-- A thread goes from the table to the first section. -/
theorem SetUpInv.enter (h : SetUpInv peers s) {t : Tid H C} {sock : C} {id : ℕ}
    {s₁ : SetUpState H C}
    (hpc : ∀ point sock value client, s.pc t ≠ .at point sock value client)
    (hlookup : s.lookupOrCreate (t.self peers sock) (t.other peers sock) = (id, s₁))
    (hsock : t.Uses peers sock) : SetUpInv peers (s₁.goto t (.at .lockCreate sock id id)) := by
  obtain ⟨h₁, hid, howner, hpeer, hsame⟩ := h.lookupOrCreate _ _ hlookup
  refine h₁.of_goto (h₁.lock_ne fun point sock value client heq => ?_) ⟨rfl, rfl, rfl⟩ rfl
    ?_ ⟨rfl, rfl⟩ fun _ _ hc => hc
  · rw [hsame] at heq
    exact absurd heq (hpc _ _ _ _)
  · exact ⟨hid, howner, hpeer, rfl, hsock, nofun, nofun, nofun, nofun, nofun, nofun, nofun⟩

/-- A call of `get_transport_from_ip` finds the transport of the peer, or goes to make it. -/
theorem SetUpInv.call (h : SetUpInv peers s) {c : C} (hpc : s.pc (.call c) = .idle)
    (hstep : s.runStep peers (.call c) = some (.ok s')) : SetUpInv peers s' := by
  have hnot : ∀ point sock value client, s.pc (.call c) ≠ .at point sock value client := by
    intro point sock value client heq
    rw [hpc] at heq
    cases heq
  simp only [runStep, hpc] at hstep
  split at hstep
  · cases hlookup : s.lookupOrCreate (peers.caller c) (peers.callee c) with
    | mk id s₁ =>
      simp only [hlookup] at hstep
      cases hstep
      exact h.enter hnot hlookup rfl
  · rename_i value hfound
    cases hstep
    obtain ⟨hid, howner, hpeer⟩ := (h.entry _ _ value).mp hfound
    have hfree := h.lock_ne fun point sock value client heq => absurd heq (hnot _ _ _ _)
    refine h.of_goto hfree ⟨rfl, rfl, rfl⟩ rfl ?_ ⟨rfl, rfl⟩ fun _ _ hc => hc
    -- The fast path returns a transport that is ready; the other one waits for it.
    split
    · rename_i hready
      obtain ⟨hfields, hlearned⟩ := h.of_isReady hid hready
      exact ⟨hid, howner, hpeer, rfl, rfl, fun _ => ⟨c, rfl⟩, nofun, nofun,
        fun _ => hfields.hasAttr rfl, nofun, fun _ => hlearned, fun _ => hready⟩
    · exact ⟨hid, howner, hpeer, rfl, rfl, fun _ => ⟨c, rfl⟩, nofun, nofun, nofun, nofun, nofun,
        nofun⟩

/-- `accept` takes the first connection of its backlog. -/
theorem SetUpInv.accept (h : SetUpInv peers s) {a : H} (hpc : s.pc (.accept a) = .idle)
    (hstep : s.runStep peers (.accept a) = some (.ok s')) : SetUpInv peers s' := by
  simp only [runStep, hpc] at hstep
  split at hstep
  · cases hstep
  · rename_i sock rest hbacklog
    cases hstep
    have hfree := h.lock_ne (t := .accept a) fun point sock value client heq => by
      rw [hpc] at heq
      cases heq
    have hsock := h.backlog a sock (hbacklog ▸ List.mem_cons_self)
    refine h.of_goto hfree ⟨rfl, rfl, rfl⟩ rfl (by rw [ThreadOk, hsock]) ⟨rfl, rfl⟩ ?_
    intro b c hc
    simp only [goto, Function.update_apply] at hc
    split at hc
    · rename_i hb
      rw [hb, hbacklog]
      exact List.mem_cons_of_mem _ hc
    · exact hc

/-- `accept_thread` goes to the table with the connection it has accepted. -/
theorem SetUpInv.accepted (h : SetUpInv peers s) {a : H} {sock : C}
    (hpc : s.pc (.accept a) = .accepted sock)
    (hstep : s.runStep peers (.accept a) = some (.ok s')) : SetUpInv peers s' := by
  have hsock := h.thread (.accept a)
  rw [hpc] at hsock
  obtain rfl : a = peers.callee sock := Tid.accept.inj hsock
  simp only [runStep, hpc] at hstep
  cases hlookup : s.lookupOrCreate (peers.callee sock) (peers.caller sock) with
  | mk id s₁ =>
    simp only [hlookup] at hstep
    cases hstep
    refine h.enter (fun point sock value client heq => ?_) hlookup rfl
    rw [hpc] at heq
    cases heq

/-- **A step of a thread** that asks nothing of the adapter. -/
theorem SetUpInv.run (h : SetUpInv peers s) {t : Tid H C}
    (hstep : s.runStep peers t = some (.ok s')) : SetUpInv peers s' := by
  have hrun := hstep
  simp only [runStep] at hstep
  split at hstep
  · exact h.call ‹_› hrun
  · exact h.accept ‹_› hrun
  · exact h.accepted ‹_› hrun
  · rename_i point sock value client hat
    cases point with
    | lockCreate => exact h.lockCreate hat hstep
    | postRecv => exact h.postRecv hat hstep
    | unlockCreate => exact h.unlockCreate hat hstep
    | connect => exact h.connect hat hstep
    | fillLocal => exact h.fillLocal hat hstep
    | clientWrite => exact h.clientWrite hat hstep
    | clientRead => exact h.clientRead hat hstep
    | serverRead => exact h.serverRead hat hstep
    | serverWrite => exact h.serverWrite hat hstep
    | lockComplete => exact h.lockComplete hat hstep
    | setReady => exact h.setReady hat hstep
    | unlockComplete => exact h.unlockComplete hat hstep
    | waiting => exact h.waiting hat hstep
    | finish => exact h.finish hat hstep
    | _ => cases hstep
  · cases hstep

/-- **One step**, when `ibv_modify_qp` does not return a positive error number, preserves the
invariant. -/
theorem SetUpInv.step (h : SetUpInv peers s) {act : SetUpAct H C}
    (hact : ∀ t res, act = .modifyQp t res → res ≤ 0)
    (hstep : setUpStep peers s act = some (.ok s')) : SetUpInv peers s' := by
  cases act with
  | createQp t num =>
    simp only [setUpStep] at hstep
    split at hstep
    · rename_i sock value client hat
      cases hstep
      exact h.createQp hat num
    · cases hstep
  | modifyQp t res =>
    simp only [setUpStep] at hstep
    split at hstep
    · rename_i point sock value client hat
      exact h.modifyQp (hact t res rfl) hat hstep
    · cases hstep
  | run t => exact h.run hstep

end SparkRdma
