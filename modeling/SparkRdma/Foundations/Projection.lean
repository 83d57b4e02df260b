import Mathlib.Data.Fintype.BigOperators
import Mathlib.Logic.Relation
import Mathlib.Order.WellFounded
import SparkRdma.Foundations.Machine

/-! # Parts of a machine, and runs that end

A part of a system can be looked at alone: each state of the whole has a state of the part, and each
step of the whole is one step of the part, or none. What holds of the part in all its runs then
holds of it inside every whole.

Nor can a system be kept waiting for ever by threads that only finish what they began: if each of
their steps brings a well-founded measure down, they come to a state in which none of them moves.

* **`Projects M P N Q f`** — the runs of `M` under `P` show, by `f`, runs of `N` under `Q`.
* **`Projects.reachable`**, **`Projects.comp`** — how projections are used and composed.
* **`Ends M P s`** — every run of `M` under `P` from `s` comes to an end.
* **`ends_of_measure`** — the rule that shows it.
* **`sum_update_add`** — for measures that add up what many threads have left to do. -/

namespace Interleaving

namespace Machine

variable {σ τ υ ε δ ζ α β γ : Type*}

/-! ### Projections -/

/-- What the runs of `M` under `P` show of a part, by `f`, is a run of `N` under `Q`: a step of the
whole leaves the part alone, or is a step of the part. -/
structure Projects (M : Machine σ ε α) (P : σ → α → Prop) (N : Machine τ δ β) (Q : τ → β → Prop)
    (f : σ → τ) : Prop where
  /-- The part starts at its start. -/
  init : f M.init = N.init
  /-- What a step of the whole is to the part. -/
  step : ∀ {s a s'}, M.ReachableUnder P s → P s a → M.step s a = some (.ok s') →
    f s' = f s ∨ ∃ b, Q (f s) b ∧ N.step (f s) b = some (.ok (f s'))

variable {M : Machine σ ε α} {P : σ → α → Prop} {N : Machine τ δ β} {Q : τ → β → Prop}
  {O : Machine υ ζ γ} {R : υ → γ → Prop} {f : σ → τ} {g : τ → υ}

namespace Projects

/-- **The runs of the whole are runs of the part.** -/
theorem reachable (hf : M.Projects P N Q f) {s : σ} (hs : M.ReachableUnder P s) :
    N.ReachableUnder Q (f s) := by
  induction hs with
  | init => exact hf.init ▸ .init
  | next hs hP hstep ih =>
    rcases hf.step hs hP hstep with heq | ⟨b, hQ, hnext⟩
    · exact heq ▸ ih
    · exact ih.next hQ hnext

/-- A part of a part is a part. -/
theorem comp (hg : N.Projects Q O R g) (hf : M.Projects P N Q f) : M.Projects P O R (g ∘ f) where
  init := (congrArg g hf.init).trans hg.init
  step hs hP hstep := by
    rcases hf.step hs hP hstep with heq | ⟨b, hQ, hnext⟩
    · exact .inl (congrArg g heq)
    · exact hg.step (hf.reachable hs) hQ hnext

end Projects

/-! ### Runs that end -/

/-- One step of `M` that meets `P`. -/
def StepUnder (M : Machine σ ε α) (P : σ → α → Prop) (s s' : σ) : Prop :=
  ∃ a, P s a ∧ M.step s a = some (.ok s')

/-- No step that meets `P` can be taken, not even one that ends in a fault. -/
def Stuck (M : Machine σ ε α) (P : σ → α → Prop) (s : σ) : Prop :=
  ∀ a, P s a → M.step s a = none

/-- Every run of `M` under `P` from `s` comes to an end. -/
def Ends (M : Machine σ ε α) (P : σ → α → Prop) (s : σ) : Prop :=
  Acc (fun s' s => M.StepUnder P s s') s

/-- Steps that meet the condition of a run extend it. -/
theorem ReachableUnder.steps {P' : σ → α → Prop} (hPP' : ∀ s a, P' s a → P s a) {s s' : σ}
    (hs : M.ReachableUnder P s) (h : Relation.ReflTransGen (M.StepUnder P') s s') :
    M.ReachableUnder P s' := by
  induction h with
  | refl => exact hs
  | tail _ hstep ih =>
    obtain ⟨a, hP, hnext⟩ := hstep
    exact ih.next (hPP' _ _ hP) hnext

/-- **The rule of the measure.** Runs end if each of their steps keeps an invariant and brings a
well-founded measure down. -/
theorem ends_of_measure {W : Type*} {r : W → W → Prop} (hr : WellFounded r) (μ : σ → W)
    (Inv : σ → Prop) (hstep : ∀ s s', Inv s → M.StepUnder P s s' → Inv s' ∧ r (μ s') (μ s))
    {s : σ} (hs : Inv s) : M.Ends P s := by
  induction hw : μ s using hr.induction generalizing s with
  | h w ih =>
    subst hw
    refine Acc.intro s fun s' hnext => ?_
    obtain ⟨hs', hlt⟩ := hstep s s' hs hnext
    exact ih (μ s') hlt hs' rfl

/-- Runs that end have an end: a state from which no further step is one without a fault. -/
theorem Ends.exists_last {s : σ} (h : M.Ends P s) :
    ∃ s', Relation.ReflTransGen (M.StepUnder P) s s' ∧ ∀ s'', ¬ M.StepUnder P s' s'' := by
  induction h with
  | intro s _ ih =>
    by_cases hlast : ∃ s'', M.StepUnder P s s''
    · obtain ⟨s₁, hstep⟩ := hlast
      obtain ⟨s', hsteps, hend⟩ := ih s₁ hstep
      exact ⟨s', hsteps.head hstep, hend⟩
    · exact ⟨s, .refl, fun s'' hstep => hlast ⟨s'', hstep⟩⟩

/-- A sum over a family of which one member is replaced. -/
theorem sum_update_add {T W : Type*} [Fintype T] [DecidableEq T] (f : T → W → ℕ) (g : T → W)
    (t : T) (w : W) : ∑ u, f u (Function.update g t w u) + f t (g t) = ∑ u, f u (g u) + f t w := by
  rw [Fintype.sum_eq_add_sum_compl t, Fintype.sum_eq_add_sum_compl t (fun u => f u (g u)),
    Function.update_self]
  have hrest : ∑ u ∈ {t}ᶜ, f u (Function.update g t w u) = ∑ u ∈ {t}ᶜ, f u (g u) := by
    refine Finset.sum_congr rfl fun u hu => ?_
    rw [Function.update_of_ne (by simpa using hu)]
  rw [hrest]
  omega

end Machine

end Interleaving
