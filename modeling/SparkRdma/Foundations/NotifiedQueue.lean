import Mathlib.Data.List.Basic

/-! # A queue with one-shot notifications

A queue that tells its consumer about new items through events on a channel, one event for each time
it is armed: the first item added to an armed queue puts an event on the channel and disarms the
queue. A consumer that blocks for an event must not leave items behind that no event will announce.

* **`Watched q`** — the next item will be announced, or an event is pending already.
* **`Settled q`** — without a pending event the queue is armed and empty, so a consumer may block.
* **`Settled.of_watched`** — arming before the last look is what makes it safe: a watched queue that
  is found empty is settled. -/

namespace Interleaving

variable {α : Type*}

/-- The queue and its channel. -/
structure NotifiedQueue (α : Type*) where
  /-- The items added and not yet taken, oldest first. -/
  items : List α
  /-- Whether the next item added puts an event on the channel. -/
  armed : Bool
  /-- The events on the channel. -/
  events : ℕ
  /-- The events taken off the channel and not yet acknowledged. -/
  unacked : ℕ
  deriving DecidableEq, Repr

namespace NotifiedQueue

variable {q : NotifiedQueue α}

/-- A new queue. -/
def empty : NotifiedQueue α := ⟨[], false, 0, 0⟩

/-- An item is added. -/
def add (q : NotifiedQueue α) (a : α) : NotifiedQueue α :=
  { q with
    items := q.items ++ [a]
    armed := false
    events := if q.armed then q.events + 1 else q.events }

/-- The queue is armed for the next item. -/
def arm (q : NotifiedQueue α) : NotifiedQueue α := { q with armed := true }

/-- An event is taken off the channel. -/
def takeEvent (q : NotifiedQueue α) : NotifiedQueue α :=
  { q with events := q.events - 1, unacked := q.unacked + 1 }

/-- An event is acknowledged. -/
def ack (q : NotifiedQueue α) : NotifiedQueue α := { q with unacked := q.unacked - 1 }

/-- The oldest `n` items are taken. -/
def drain (q : NotifiedQueue α) (n : ℕ) : NotifiedQueue α := { q with items := q.items.drop n }

/-- The next item will be announced, or an event is pending. -/
def Watched (q : NotifiedQueue α) : Prop := q.armed = true ∨ 0 < q.events

/-- Without a pending event the queue is armed and empty. -/
def Settled (q : NotifiedQueue α) : Prop := 0 < q.events ∨ q.armed = true ∧ q.items = []

/-- An armed queue is watched. -/
theorem watched_arm (q : NotifiedQueue α) : q.arm.Watched := .inl rfl

/-- A new queue is settled once it is armed. -/
theorem settled_arm_empty : (empty : NotifiedQueue α).arm.Settled := .inr ⟨rfl, rfl⟩

/-- An item added to a watched queue is announced, or an event was pending before. -/
theorem Watched.add (h : q.Watched) (a : α) : 0 < (q.add a).events := by
  unfold NotifiedQueue.add
  rcases h with harmed | hevents
  · simp [harmed]
  · show 0 < if q.armed then q.events + 1 else q.events
    split <;> omega

/-- A settled queue is watched. -/
theorem Settled.watched (h : q.Settled) : q.Watched := h.symm.imp_left And.left

/-- **The last look.** A watched queue that is found empty is settled. -/
theorem Settled.of_watched (h : q.Watched) (hempty : q.items = []) : q.Settled :=
  h.symm.imp_right fun harmed => ⟨harmed, hempty⟩

/-- An item added to a settled queue leaves it settled, with an event pending. -/
theorem Settled.add (h : q.Settled) (a : α) : (q.add a).Settled := .inl (h.watched.add a)

/-- **Blocking is safe** on a settled queue: it is empty or an event is pending. -/
theorem Settled.empty_or_event (h : q.Settled) : q.items = [] ∨ 0 < q.events :=
  h.symm.imp_left And.right

end NotifiedQueue

end Interleaving
