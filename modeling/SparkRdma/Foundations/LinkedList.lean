import Mathlib.Data.List.Nodup
import Mathlib.Logic.Function.Basic

/-! # Singly linked lists in memory

Cells of a type `α` carry a pointer to the next cell; the memory is the function `next`, and a
pointer is an `Option α`, with `none` for NULL.

* **`Segment next p l q`** — the cells `l` hang off the pointer `p` in this order, and the last of
  them points to `q`; `Chain` is the NULL-terminated case.
* **`Segment.append`** — segments are glued and split where one ends and the other begins.
* **`Segment.frame`** — writing to cells outside a segment leaves it alone.
* **`Chain.cut`** — writing NULL to a cell of a chain cuts it in two behind that cell.
* **`walk`** — the cursor loop with a NULL guard, and where it ends on a chain. -/

namespace LinkedList

variable {α : Type*} {next next' : α → Option α} {p q r : Option α} {a : α} {l l₁ l₂ : List α}

/-- The cells `l` hang off `p`, in order, and the last of them points to `q`. -/
def Segment (next : α → Option α) : Option α → List α → Option α → Prop
  | p, [], q => p = q
  | p, a :: l, q => p = some a ∧ Segment next (next a) l q

/-- The cells `l` hang off `p`, in order, and end in NULL. -/
abbrev Chain (next : α → Option α) (p : Option α) (l : List α) : Prop := Segment next p l none

@[simp] theorem segment_nil : Segment next p [] q ↔ p = q := Iff.rfl

@[simp] theorem segment_cons : Segment next p (a :: l) q ↔ p = some a ∧ Segment next (next a) l q :=
  Iff.rfl

/-- **Gluing and splitting.** A segment of two parts is a segment of each. -/
theorem Segment.append :
    Segment next p (l₁ ++ l₂) q ↔ ∃ r, Segment next p l₁ r ∧ Segment next r l₂ q := by
  induction l₁ generalizing p with
  | nil => simp
  | cons a l₁ ih => simp [ih, and_assoc]

/-- **The frame rule.** A segment depends on its own cells only. -/
theorem Segment.frame (h : Segment next p l q) (hsame : ∀ a ∈ l, next' a = next a) :
    Segment next' p l q := by
  induction l generalizing p with
  | nil => exact h
  | cons a l ih =>
    obtain ⟨hp, hl⟩ := h
    refine ⟨hp, ?_⟩
    rw [hsame a List.mem_cons_self]
    exact ih hl fun b hb => hsame b (List.mem_cons_of_mem _ hb)

/-- The memory and the pointer determine a chain. -/
theorem Chain.unique (h₁ : Chain next p l₁) (h₂ : Chain next p l₂) : l₁ = l₂ := by
  induction l₁ generalizing p l₂ with
  | nil =>
    obtain rfl : p = none := h₁
    cases l₂ with
    | nil => rfl
    | cons a l₂ => simp at h₂
  | cons a l₁ ih =>
    obtain ⟨rfl, h₁⟩ := h₁
    cases l₂ with
    | nil => simp at h₂
    | cons b l₂ =>
      obtain ⟨hab, h₂⟩ := h₂
      obtain rfl := Option.some.inj hab
      rw [ih h₁ h₂]

section Update

variable [DecidableEq α]

/-- Writing to a cell outside a segment. -/
theorem Segment.update (h : Segment next p l q) (ha : a ∉ l) :
    Segment (Function.update next a r) p l q := by
  refine h.frame fun b hb => Function.update_of_ne ?_ ..
  rintro rfl
  exact ha hb

/-- Pushing a cell in front of a segment. -/
theorem Segment.push (h : Segment next p l q) (ha : a ∉ l) :
    Segment (Function.update next a p) (some a) (a :: l) q :=
  ⟨rfl, by rw [Function.update_self]; exact h.update ha⟩

/-- **Cutting a chain** behind one of its cells: what is before ends there, and what is behind hangs
off the pointer the cell held. -/
theorem Chain.cut (h : Chain next p (l₁ ++ a :: l₂)) (hnodup : (l₁ ++ a :: l₂).Nodup) :
    Chain (Function.update next a none) p (l₁ ++ [a]) ∧
      Chain (Function.update next a none) (next a) l₂ := by
  obtain ⟨s, hl₁, rfl, hl₂⟩ := Segment.append.mp h
  have hdisjoint := List.disjoint_of_nodup_append hnodup
  have ha₂ : a ∉ l₂ := (List.nodup_cons.mp (List.Nodup.of_append_right hnodup)).1
  have ha₁ : a ∉ l₁ := fun ha => hdisjoint ha List.mem_cons_self
  refine ⟨?_, hl₂.update ha₂⟩
  exact Segment.append.mpr ⟨some a, hl₁.update ha₁, rfl, Function.update_self ..⟩

end Update

/-! ### Cursors -/

/-- The first `n` cells hanging off a pointer, or all of them if there are fewer. -/
def cells (next : α → Option α) : ℕ → Option α → List α
  | 0, _ => []
  | _ + 1, none => []
  | n + 1, some a => a :: cells next n (next a)

/-- Moves a cursor `n` cells on: `none` if it finds NULL before it has moved that far. -/
def walk (next : α → Option α) : ℕ → Option α → Option (Option α)
  | 0, now => some now
  | _ + 1, none => none
  | n + 1, some a => walk next n (next a)

/-- The first cells of a chain. -/
theorem Chain.cells (h : Chain next p l) (n : ℕ) : cells next n p = l.take n := by
  induction n generalizing p l with
  | zero => simp [LinkedList.cells]
  | succ n ih =>
    cases l with
    | nil =>
      obtain rfl : p = none := h
      rfl
    | cons a l =>
      obtain ⟨rfl, hl⟩ := h
      rw [LinkedList.cells, ih hl, List.take_succ_cons]

/-- **The cursor on a chain**: it ends on the cell it was sent to, on NULL just behind the last one,
and otherwise finds NULL on its way. -/
theorem Chain.walk (h : Chain next p l) (n : ℕ) :
    walk next n p = if n ≤ l.length then some l[n]? else none := by
  induction n generalizing p l with
  | zero =>
    cases l with
    | nil => simpa [LinkedList.walk] using h
    | cons a l => simpa [LinkedList.walk] using h.1
  | succ n ih =>
    cases l with
    | nil =>
      obtain rfl : p = none := h
      rfl
    | cons a l =>
      obtain ⟨rfl, hl⟩ := h
      rw [LinkedList.walk, ih hl]
      simp

end LinkedList
