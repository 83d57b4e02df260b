import Mathlib.Data.List.Perm.Basic
import SparkRdma.Foundations.Machine

/-! # A ledger of acquired resources

The resources a program has acquired and not yet given back are listed as live. Giving back one that
is not live, for the second time or without having acquired it, is a fault, so a run of `giveBack`s
that ends without one has given back each resource once.

* **`Ledger`** — what is live, and what was given back, in order.
* **`giveBackAll_of_perm`** — what is live can be given back in any order, and the rest stays. -/

namespace Interleaving

variable {α : Type*} [DecidableEq α]

/-- What a program has acquired. -/
structure Ledger (α : Type*) where
  /-- The resources that are live. -/
  live : List α
  /-- Those given back, the last one at the end. -/
  given : List α
  deriving DecidableEq

namespace Ledger

/-- Give a resource back. -/
def giveBack (l : Ledger α) (a : α) : Except CFault (Ledger α) :=
  if a ∈ l.live then .ok ⟨l.live.erase a, l.given ++ [a]⟩ else .error .useAfterFree

/-- Give some resources back, one after the other. -/
def giveBackAll (l : Ledger α) : List α → Except CFault (Ledger α)
  | [] => .ok l
  | a :: as => do
      let l ← l.giveBack a
      l.giveBackAll as

/-- Giving back a list of one resource is giving back that resource. -/
theorem giveBackAll_singleton (l : Ledger α) (a : α) : l.giveBackAll [a] = l.giveBack a := by
  rw [giveBackAll]
  cases l.giveBack a <;> rfl

/-- A live resource is given back. -/
theorem giveBack_of_mem {l : Ledger α} {a : α} (h : a ∈ l.live) :
    l.giveBack a = .ok ⟨l.live.erase a, l.given ++ [a]⟩ := if_pos h

/-- **What is live can be given back**, in whatever order, and what else is live stays so. -/
theorem giveBackAll_of_perm {l : Ledger α} {as rest : List α} (h : l.live.Perm (as ++ rest)) :
    ∃ live, l.giveBackAll as = .ok ⟨live, l.given ++ as⟩ ∧ live.Perm rest := by
  induction as generalizing l with
  | nil => exact ⟨l.live, by rw [giveBackAll, List.append_nil], h⟩
  | cons a as ih =>
    have hmem : a ∈ l.live := h.mem_iff.mpr List.mem_cons_self
    have herase : (l.live.erase a).Perm (as ++ rest) :=
      ((List.perm_cons_erase hmem).symm.trans h).cons_inv
    obtain ⟨live, hgive, hrest⟩ := ih (l := ⟨l.live.erase a, l.given ++ [a]⟩) herase
    refine ⟨live, ?_, hrest⟩
    rw [giveBackAll, giveBack_of_mem hmem, ok_bind, hgive, List.append_assoc, List.singleton_append]

end Ledger

end Interleaving
