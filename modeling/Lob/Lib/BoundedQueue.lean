/-
# Lob.Lib.BoundedQueue — a FIFO queue of bounded length that counts what it turns away.

A push into a full queue is turned away and counted, never blocked and never made at the expense of an
older element.  So a burst enters up to the room there is, and what a burst does depends on nothing but
the queue before it.
-/
import Mathlib.Data.List.Basic

namespace Lob.Lib

/-- What the queue holds, oldest first, and how many it has turned away. -/
@[ext]
structure BoundedQueue (α : Type*) (capacity : Nat) where
  held : List α
  fits : held.length ≤ capacity
  lost : Nat

namespace BoundedQueue

variable {α : Type*} {capacity : Nat}

def empty (α : Type*) (capacity : Nat) : BoundedQueue α capacity := ⟨[], Nat.zero_le _, 0⟩

def push (q : BoundedQueue α capacity) (x : α) : BoundedQueue α capacity :=
  if h : q.held.length < capacity then ⟨q.held ++ [x], by rw [List.length_append]; exact h, q.lost⟩
  else { q with lost := q.lost + 1 }

def pop (q : BoundedQueue α capacity) : Option α × BoundedQueue α capacity :=
  (q.held.head?, { q with
    held := q.held.tail
    fits := by
      have := q.fits
      rw [List.length_tail]
      omega })

/-- Several pushes in a row. -/
def burst (q : BoundedQueue α capacity) (xs : List α) : BoundedQueue α capacity := xs.foldl push q

/-- What is left when all that is held has been popped. -/
def drained (q : BoundedQueue α capacity) : BoundedQueue α capacity := ⟨[], Nat.zero_le _, q.lost⟩

variable {q : BoundedQueue α capacity} {x : α}

/-- A pop of nothing leaves nothing behind. -/
theorem pop_of_held_nil (h : q.held = []) : q.pop.2 = q.drained :=
  BoundedQueue.ext (show q.held.tail = [] by rw [h]; rfl) rfl

theorem push_of_room (h : q.held.length < capacity) :
    (q.push x).held = q.held ++ [x] ∧ (q.push x).lost = q.lost := by
  rw [push, dif_pos h]
  exact ⟨rfl, rfl⟩

theorem push_of_full (h : q.held.length = capacity) :
    (q.push x).held = q.held ∧ (q.push x).lost = q.lost + 1 := by
  rw [push, dif_neg (by omega)]
  exact ⟨rfl, rfl⟩

@[simp] theorem burst_nil (q : BoundedQueue α capacity) : q.burst [] = q := rfl

theorem burst_concat (q : BoundedQueue α capacity) (xs : List α) (x : α) :
    q.burst (xs ++ [x]) = (q.burst xs).push x := List.foldl_append

/-- **A burst enters up to the room there is**, and the rest of it is counted. -/
theorem burst_eq (q : BoundedQueue α capacity) (xs : List α) :
    (q.burst xs).held = (q.held ++ xs).take capacity
      ∧ (q.burst xs).lost = q.lost + (q.held.length + xs.length - capacity) := by
  induction xs generalizing q with
  | nil =>
    rw [burst_nil, List.append_nil, List.take_of_length_le q.fits, List.length_nil, Nat.add_zero,
      Nat.sub_eq_zero_of_le q.fits, Nat.add_zero]
    exact ⟨rfl, rfl⟩
  | cons x xs ih =>
    obtain ⟨hheld, hlost⟩ := ih (q.push x)
    show ((q.push x).burst xs).held = _ ∧ ((q.push x).burst xs).lost = _
    rw [hheld, hlost, List.length_cons]
    by_cases hroom : q.held.length < capacity
    · obtain ⟨hpush, hsame⟩ := push_of_room (x := x) hroom
      rw [hpush, hsame, List.append_assoc, List.singleton_append, List.length_append,
        List.length_singleton]
      exact ⟨rfl, by omega⟩
    · -- a full queue takes none of it
      have hfull : q.held.length = capacity := Nat.le_antisymm q.fits (Nat.not_lt.mp hroom)
      obtain ⟨hpush, hmore⟩ := push_of_full (x := x) hfull
      rw [hpush, hmore, List.take_append, List.take_append, hfull, Nat.sub_self, List.take_zero]
      exact ⟨rfl, by omega⟩

/-- A burst that fits is held whole. -/
theorem burst_of_fits {xs : List α} (h : q.held.length + xs.length ≤ capacity) :
    (q.burst xs).held = q.held ++ xs ∧ (q.burst xs).lost = q.lost := by
  obtain ⟨hheld, hlost⟩ := q.burst_eq xs
  rw [hheld, hlost, List.take_of_length_le (by rw [List.length_append]; exact h),
    Nat.sub_eq_zero_of_le h]
  exact ⟨rfl, rfl⟩

end BoundedQueue

end Lob.Lib
