import Mathlib.Logic.Basic
import Mathlib.Order.Basic

/-! # Interleaving machines

A system of threads is a partial step function on a shared state: a label says which thread moves
and what its environment answers, and the step is `none` when that thread cannot take it. A step
that is taken ends in a successor state or in a fault (an abort, a failed assertion, an invalid
memory access), after which nothing runs.

* **`ReachableUnder M P s`** — some run of `M` whose steps all meet the condition `P` ends in `s`;
  `Reachable` is the unconditional case.
* **`ReachableUnder.invariant`** — the induction rule: what holds initially and is preserved by
  every step that meets `P` holds of every state reached under `P`.
* **`exec`** — runs a list of labels, so that a concrete schedule can be evaluated.
* **`recording`** — the machine with a history variable, and that it reaches the same states. -/

namespace Interleaving

universe u v

/-- The ways a C thread can end a run other than by returning. -/
inductive CFault
  /-- `abort()` after an error was detected. -/
  | abort
  /-- A `GPR_ASSERT` whose condition is false. -/
  | assertion
  /-- A NULL pointer is dereferenced. -/
  | nullDeref
  /-- An object is used after it was freed, or was never allocated. -/
  | useAfterFree
  /-- An access outside the object it goes to. -/
  | outOfBounds
  deriving DecidableEq, Repr

/-- A computation that has already produced a value goes on with it. -/
@[simp] theorem ok_bind {ε : Type u} {α β : Type v} (a : α) (f : α → Except ε β) :
    (Except.ok a >>= f) = f a := rfl

/-- A computation that has already met a fault goes no further. -/
@[simp] theorem error_bind {ε : Type u} {α β : Type v} (e : ε) (f : α → Except ε β) :
    (Except.error e >>= f) = Except.error e := rfl

/-- A step taken inside a larger state succeeds when the inner step does. -/
theorem map_map_eq_ok {ε α β : Type*} {step : Option (Except ε α)} {f : α → β} {b : β} :
    step.map (Except.map f) = some (.ok b) ↔ ∃ a, step = some (.ok a) ∧ b = f a := by
  rcases step with _ | _ | a <;> simp [Except.map, eq_comm]

/-- A mapped step ends in a fault exactly when the inner step does. -/
theorem map_map_eq_error {ε α β : Type*} {step : Option (Except ε α)} {f : α → β} {e : ε} :
    step.map (Except.map f) = some (.error e) ↔ step = some (.error e) := by
  rcases step with _ | _ | a <;> simp [Except.map]

/-- A step whose result is taken further succeeds when both parts do. -/
theorem map_bind_eq_ok {ε : Type*} {α β : Type v} {step : Option (Except ε α)} {f : α → Except ε β}
    {b : β} : (step.map fun result => result >>= f) = some (.ok b) ↔
      ∃ a, step = some (.ok a) ∧ f a = .ok b := by
  rcases step with _ | _ | a <;> simp

/-- A machine: its initial state and its partial step, which ends in a state or in a fault. -/
structure Machine (σ ε α : Type*) where
  /-- The state before any thread has moved. -/
  init : σ
  /-- The step a label names: `none` when it is not enabled. -/
  step : σ → α → Option (Except ε σ)

namespace Machine

variable {σ ε α : Type*}

/-- The states reached by runs of `M` in which every step meets the condition `P`. -/
inductive ReachableUnder (M : Machine σ ε α) (P : σ → α → Prop) : σ → Prop
  /-- The initial state is reached by the empty run. -/
  | init : ReachableUnder M P M.init
  /-- A run is extended by an enabled step that meets the condition. -/
  | next {s s' : σ} {a : α} (hs : ReachableUnder M P s) (hP : P s a)
      (hstep : M.step s a = some (.ok s')) : ReachableUnder M P s'

/-- The states reached by any run. -/
abbrev Reachable (M : Machine σ ε α) : σ → Prop := M.ReachableUnder fun _ _ => True

/-- **The invariant rule.** What holds initially and is preserved by every step meeting `P` holds
of every state reached under `P`. The step case may use that its start is itself reached. -/
theorem ReachableUnder.invariant {M : Machine σ ε α} {P : σ → α → Prop} {Inv : σ → Prop}
    (hinit : Inv M.init)
    (hstep : ∀ s a s', M.ReachableUnder P s → Inv s → P s a → M.step s a = some (.ok s') → Inv s')
    {s : σ} (hs : M.ReachableUnder P s) : Inv s := by
  induction hs with
  | init => exact hinit
  | next hs hP hnext ih => exact hstep _ _ _ hs ih hP hnext

/-- A weaker condition on the steps reaches at least as much. -/
theorem ReachableUnder.mono {M : Machine σ ε α} {P Q : σ → α → Prop} (h : ∀ s a, P s a → Q s a)
    {s : σ} (hs : M.ReachableUnder P s) : M.ReachableUnder Q s := by
  induction hs with
  | init => exact .init
  | next _ hP hnext ih => exact .next ih (h _ _ hP) hnext

/-! ### Running a schedule -/

/-- Run a list of labels from `s`, checking the condition `P` before each step; `none` when a step
is not enabled, ends in a fault or fails the condition. -/
def exec (M : Machine σ ε α) (P : σ → α → Prop) [∀ s a, Decidable (P s a)] :
    σ → List α → Option σ
  | s, [] => some s
  | s, a :: as =>
      if P s a then
        match M.step s a with
        | some (.ok s') => exec M P s' as
        | _ => none
      else none

/-- A schedule that runs through from a reached state ends in a reached state. -/
theorem reachableUnder_of_exec {M : Machine σ ε α} {P : σ → α → Prop} [∀ s a, Decidable (P s a)]
    {s s' : σ} (as : List α) (hs : M.ReachableUnder P s) (h : M.exec P s as = some s') :
    M.ReachableUnder P s' := by
  induction as generalizing s with
  | nil =>
    simp only [exec, Option.some.injEq] at h
    exact h ▸ hs
  | cons a as ih =>
    rw [exec] at h
    split at h
    · rename_i hP
      split at h
      · rename_i s₁ hstep
        exact ih (.next hs hP hstep) h
      · cases h
    · cases h

/-- A schedule that runs through to a state with a property leads to a reached state with it. -/
theorem exists_of_exec {M : Machine σ ε α} {P : σ → α → Prop} [∀ s a, Decidable (P s a)] {s : σ}
    (as : List α) (hs : M.ReachableUnder P s) {p : σ → Bool}
    (h : (M.exec P s as).any p = true) : ∃ s', M.ReachableUnder P s' ∧ p s' = true := by
  obtain ⟨s', hexec, hp⟩ := (Option.any_eq_true p _).mp h
  exact ⟨s', reachableUnder_of_exec as hs hexec, hp⟩

/-! ### History variables -/

variable {η : Type*}

/-- The machine with a history variable beside its state, which starts as `before` and which `note`
updates in every step. -/
def recording (M : Machine σ ε α) (before : η) (note : σ → α → η → η) :
    Machine (σ × η) ε α where
  init := (M.init, before)
  step s a := (M.step s.1 a).map (Except.map fun s' => (s', note s.1 a s.2))

/-- **A history variable changes nothing** about the states that are reached. -/
theorem reachable_iff_recording {M : Machine σ ε α} (before : η) (note : σ → α → η → η) {s : σ} :
    M.Reachable s ↔ ∃ h, (M.recording before note).Reachable (s, h) := by
  constructor
  · intro hs
    induction hs with
    | init => exact ⟨before, .init⟩
    | @next s s' a _ _ hstep ih =>
      obtain ⟨h, hh⟩ := ih
      refine ⟨note s a h, hh.next (a := a) trivial ?_⟩
      exact map_map_eq_ok.mpr ⟨s', hstep, rfl⟩
  · rintro ⟨h, hs⟩
    have hfst : ∀ t : σ × η, (M.recording before note).Reachable t → M.Reachable t.1 := by
      intro t ht
      induction ht with
      | init => exact .init
      | next _ _ hstep ih =>
        obtain ⟨s', hs', rfl⟩ := map_map_eq_ok.mp hstep
        exact ih.next trivial hs'
    exact hfst _ hs

/-- A run that leaves the history as it began is one of the machine with the history. -/
theorem ReachableUnder.recording {M : Machine σ ε α} {P : σ → α → Prop} {Q : σ × η → α → Prop}
    {before : η} {note : σ → α → η → η}
    (hquiet : ∀ s a, P s a → Q (s, before) a ∧ note s a before = before) {s : σ}
    (hs : M.ReachableUnder P s) : (M.recording before note).ReachableUnder Q (s, before) := by
  induction hs with
  | init => exact .init
  | @next s s' a _ hP hstep ih =>
    obtain ⟨hQ, hnote⟩ := hquiet s a hP
    refine ih.next hQ (map_map_eq_ok.mpr ⟨s', hstep, ?_⟩)
    rw [hnote]

end Machine

end Interleaving
