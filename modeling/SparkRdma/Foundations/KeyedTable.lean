import Mathlib.Order.Defs.Unbundled
import Mathlib.Data.List.Basic

/-! # Tables with a caller's notion of equal keys

A table of entries whose keys are compared by a function the caller supplies. When that function is
an equivalence, a lookup depends on the class of its key only, so keys of one class share an entry
whether or not they are equal.

* **`lookup`**, **`insert`** — the operations.
* **`lookup_congr`** — keys of one class find the same value.
* **`lookup_insert_new`** — what an insertion after a failed lookup changes. -/

namespace KeyedTable

variable {κ ν : Type*} {same : κ → κ → Bool}

/-- The value stored under a key of the class of `k`. -/
def lookup (same : κ → κ → Bool) (table : List (κ × ν)) (k : κ) : Option ν :=
  (table.find? fun entry => same entry.1 k).map Prod.snd

/-- Store `v` under `k`: in the entry of its class, or in a new one. -/
def insert (same : κ → κ → Bool) (table : List (κ × ν)) (k : κ) (v : ν) : List (κ × ν) :=
  if table.any fun entry => same entry.1 k then
    table.map fun entry => if same entry.1 k then (entry.1, v) else entry
  else table ++ [(k, v)]

/-- What is found stands in the table, under a key of the class. -/
theorem exists_of_lookup {table : List (κ × ν)} {k : κ} {v : ν}
    (h : lookup same table k = some v) : ∃ k', (k', v) ∈ table ∧ same k' k := by
  obtain ⟨⟨k', v'⟩, hfind, rfl⟩ := Option.map_eq_some_iff.mp h
  have hpred := List.find?_some (p := fun entry : κ × ν => same entry.1 k) hfind
  exact ⟨k', List.mem_of_find?_eq_some hfind, hpred⟩

/-- **Keys of one class find the same value.** -/
theorem lookup_congr (hsame : Equivalence fun a b => same a b = true) (table : List (κ × ν))
    {a b : κ} (hab : same a b) : lookup same table a = lookup same table b := by
  have hpred : (fun entry : κ × ν => same entry.1 a) = fun entry => same entry.1 b := by
    funext entry
    exact Bool.eq_iff_iff.mpr
      ⟨fun h => hsame.trans h hab, fun h => hsame.trans h (hsame.symm hab)⟩
  rw [lookup, hpred, lookup]

/-- After a failed lookup, an insertion adds an entry. -/
theorem insert_of_lookup_none {table : List (κ × ν)} {k : κ} (h : lookup same table k = none)
    (v : ν) : insert same table k v = table ++ [(k, v)] := by
  have hnone := List.find?_eq_none.mp (Option.map_eq_none_iff.mp h)
  rw [insert, if_neg]
  simpa using hnone

/-- **An insertion after a failed lookup** sets the class of its key and leaves the others. -/
theorem lookup_insert_new (hsame : Equivalence fun a b => same a b = true) {table : List (κ × ν)}
    {k : κ} (h : lookup same table k = none) (v : ν) :
    lookup same (insert same table k v) k = some v ∧
      ∀ {k' v'}, lookup same table k' = some v' →
        lookup same (insert same table k v) k' = some v' := by
  rw [insert_of_lookup_none h]
  constructor
  · have hnone := Option.map_eq_none_iff.mp h
    simp [lookup, List.find?_append, hnone, hsame.refl k]
  · intro k' v' hfound
    obtain ⟨entry, hfind, rfl⟩ := Option.map_eq_some_iff.mp hfound
    simp [lookup, List.find?_append, hfind]

end KeyedTable
