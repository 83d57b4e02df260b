import Mathlib.Data.List.Nodup
import Mathlib.Data.Set.Basic

/-! # Resources and the places that own them

A fixed set of resources, spread over places that hold them in lists: `Partition S place` says that
each resource of `S` is in exactly one place, exactly once, and that nothing else is in any place.
Steps of a system move resources between places, or bring new ones in.

* **`Partition.move`** — moving some resources from one place to another keeps the partition.
* **`Partition.extend`** — so does adding fresh resources to a place.
* **`Partition.perm`** — the order inside a place does not matter.
* **`Moves`** — the two of them as a relation on places; it lifts from some of the places to all. -/

namespace Ownership

variable {α ι : Type*}

/-- Every resource of `S`, and no other, is in exactly one place, exactly once. -/
structure Partition (S : Set α) (place : ι → List α) : Prop where
  /-- No place holds a resource twice. -/
  nodup : ∀ i, (place i).Nodup
  /-- No two places hold the same resource. -/
  unique : ∀ {i j a}, a ∈ place i → a ∈ place j → i = j
  /-- The resources held are those of `S`. -/
  cover : ∀ a, a ∈ S ↔ ∃ i, a ∈ place i

namespace Partition

variable {S S' : Set α} {place place' : ι → List α} {i j : ι}

/-- The order inside the places does not matter. -/
theorem perm (h : Partition S place) (hperm : ∀ i, (place' i).Perm (place i)) :
    Partition S place' where
  nodup := fun i => (hperm i).nodup_iff.mpr (h.nodup i)
  unique := fun hi hj => h.unique ((hperm _).mem_iff.mp hi) ((hperm _).mem_iff.mp hj)
  cover := fun a => (h.cover a).trans (exists_congr fun i => (hperm i).mem_iff.symm)

/-- **Moving resources** from place `i` to place `j`. -/
theorem move (h : Partition S place) (moved : List α) (hij : i ≠ j)
    (hfrom : (place i).Perm (moved ++ place' i)) (hto : (place' j).Perm (moved ++ place j))
    (hother : ∀ k, k ≠ i → k ≠ j → (place' k).Perm (place k)) : Partition S place' := by
  have hnodup := hfrom.nodup_iff.mp (h.nodup i)
  have hmoved : ∀ a ∈ moved, a ∈ place i := fun a ha =>
    hfrom.mem_iff.mpr (List.mem_append_left _ ha)
  -- where a resource was before the move
  have hback : ∀ k a, a ∈ place' k → a ∈ place k ∨ k = j ∧ a ∈ moved := by
    intro k a ha
    by_cases hkj : k = j
    · subst hkj
      exact (List.mem_append.mp (hto.mem_iff.mp ha)).symm.imp_right fun ha => ⟨rfl, ha⟩
    · by_cases hki : k = i
      · subst hki
        exact .inl (hfrom.mem_iff.mpr (List.mem_append_right _ ha))
      · exact .inl ((hother k hki hkj).mem_iff.mp ha)
  have hleft : ∀ a ∈ moved, a ∉ place' i := fun a ha ha' =>
    List.disjoint_of_nodup_append hnodup ha ha'
  refine ⟨fun k => ?_, fun {k l a} hk hl => ?_, fun a => ?_⟩
  · by_cases hkj : k = j
    · subst hkj
      refine hto.nodup_iff.mpr (hnodup.of_append_left.append (h.nodup k) fun a ha ha' => ?_)
      exact hij (h.unique (hmoved a ha) ha')
    · by_cases hki : k = i
      · subst hki
        exact hnodup.of_append_right
      · exact (hother k hki hkj).nodup_iff.mpr (h.nodup k)
  · obtain hk' | ⟨rfl, hk'⟩ := hback k a hk
    · obtain hl' | ⟨rfl, hl'⟩ := hback l a hl
      · exact h.unique hk' hl'
      · obtain rfl := h.unique hk' (hmoved a hl')
        exact (hleft a hl' hk).elim
    · obtain hl' | ⟨rfl, hl'⟩ := hback l a hl
      · obtain rfl := h.unique hl' (hmoved a hk')
        exact (hleft a hk' hl).elim
      · rfl
  · rw [h.cover]
    constructor
    · rintro ⟨k, hk⟩
      by_cases hkj : k = j
      · subst hkj
        exact ⟨k, hto.mem_iff.mpr (List.mem_append_right _ hk)⟩
      · by_cases hki : k = i
        · subst hki
          obtain ha | ha := List.mem_append.mp (hfrom.mem_iff.mp hk)
          · exact ⟨j, hto.mem_iff.mpr (List.mem_append_left _ ha)⟩
          · exact ⟨k, ha⟩
        · exact ⟨k, (hother k hki hkj).mem_iff.mpr hk⟩
    · rintro ⟨k, hk⟩
      obtain hk | ⟨rfl, hk⟩ := hback k a hk
      · exact ⟨k, hk⟩
      · exact ⟨i, hmoved a hk⟩

/-- **New resources** are added to place `j`. -/
theorem extend (h : Partition S place) (new : List α) (hnodup : new.Nodup)
    (hnew : ∀ a ∈ new, a ∉ S) (hS' : ∀ a, a ∈ S' ↔ a ∈ new ∨ a ∈ S)
    (hto : (place' j).Perm (new ++ place j)) (hother : ∀ k, k ≠ j → (place' k).Perm (place k)) :
    Partition S' place' := by
  have hold : ∀ k a, a ∈ place k → a ∈ S := fun k a ha => (h.cover a).mpr ⟨k, ha⟩
  have hmem : ∀ k a, a ∈ place' k ↔ a ∈ place k ∨ k = j ∧ a ∈ new := by
    intro k a
    by_cases hkj : k = j
    · subst hkj
      rw [hto.mem_iff, List.mem_append]
      tauto
    · rw [(hother k hkj).mem_iff]
      simp [hkj]
  refine ⟨fun k => ?_, fun {k l a} hk hl => ?_, fun a => ?_⟩
  · by_cases hkj : k = j
    · subst hkj
      exact hto.nodup_iff.mpr
        (hnodup.append (h.nodup k) fun a ha ha' => hnew a ha (hold k a ha'))
    · exact (hother k hkj).nodup_iff.mpr (h.nodup k)
  · obtain hk | ⟨rfl, hk⟩ := (hmem k a).mp hk
    · obtain hl | ⟨rfl, hl⟩ := (hmem l a).mp hl
      · exact h.unique hk hl
      · exact (hnew a hl (hold k a hk)).elim
    · obtain hl | ⟨rfl, hl⟩ := (hmem l a).mp hl
      · exact (hnew a hk (hold l a hl)).elim
      · rfl
  · rw [hS', h.cover]
    constructor
    · rintro (ha | ⟨k, hk⟩)
      · exact ⟨j, (hmem j a).mpr (.inr ⟨rfl, ha⟩)⟩
      · exact ⟨k, (hmem k a).mpr (.inl hk)⟩
    · rintro ⟨k, hk⟩
      obtain hk | ⟨-, hk⟩ := (hmem k a).mp hk
      · exact .inr ⟨k, hk⟩
      · exact .inl hk

end Partition

/-! ### Moves -/

/-- Some resources move from one place to another, or none do. -/
def Moves (place place' : ι → List α) : Prop :=
  (∀ k, (place' k).Perm (place k)) ∨ ∃ moved i j, i ≠ j ∧ (place i).Perm (moved ++ place' i) ∧
    (place' j).Perm (moved ++ place j) ∧ ∀ k, k ≠ i → k ≠ j → (place' k).Perm (place k)

/-- A move keeps the partition. -/
theorem Partition.of_moves {S : Set α} {place place' : ι → List α} (h : Partition S place)
    (hmoves : Moves place place') : Partition S place' := by
  rcases hmoves with hperm | ⟨moved, i, j, hij, hfrom, hto, hother⟩
  · exact h.perm hperm
  · exact h.move moved hij hfrom hto hother

/-- **A move among some of the places**, given by `e`, is a move among all of them if nothing
happens at the others. -/
theorem Moves.lift {κ : Type*} {e : κ → ι} {place place' : ι → List α} {local' local'' : κ → List α}
    (h : Moves local' local'') (he : Function.Injective e) (hplace : ∀ k, place (e k) = local' k)
    (hplace' : ∀ k, place' (e k) = local'' k)
    (hother : ∀ i, (∀ k, e k ≠ i) → (place' i).Perm (place i)) : Moves place place' := by
  have hall : ∀ {p : κ → Prop} i, (∀ k, p k → (local'' k).Perm (local' k)) →
      (∀ k, e k = i → p k) → (place' i).Perm (place i) := by
    intro p i hlocal hp
    by_cases hi : ∃ k, e k = i
    · obtain ⟨k, rfl⟩ := hi
      rw [hplace, hplace']
      exact hlocal k (hp k rfl)
    · exact hother i fun k hk => hi ⟨k, hk⟩
  rcases h with hperm | ⟨moved, i, j, hij, hfrom, hto, hrest⟩
  · exact .inl fun i => hall (p := fun _ => True) i (fun k _ => hperm k) fun _ _ => trivial
  · refine .inr ⟨moved, e i, e j, he.ne hij, ?_, ?_, fun k hki hkj => ?_⟩
    · rw [hplace, hplace']
      exact hfrom
    · rw [hplace, hplace']
      exact hto
    · refine hall (p := fun l => l ≠ i ∧ l ≠ j) k (fun l hl => hrest l hl.1 hl.2) fun l hl => ?_
      subst hl
      exact ⟨fun h => hki (h ▸ rfl), fun h => hkj (h ▸ rfl)⟩

end Ownership
