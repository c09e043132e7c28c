/-
# Lob.Lib.Doubling — a store that doubles when it is full.

A store that doubles its capacity each time it is asked for one more than it holds has doubled exactly
as often as the greatest number it was ever asked for requires.  What was handed back in the meantime
does not matter.
-/
import Mathlib.Algebra.Ring.Nat
import Mathlib.Order.Bounds.Basic

namespace Lob.Lib.Doubling

/-- A store that started with room for `start` has met every demand up to `peak`: its capacity, and
how often it doubled, which is no more often than it had to. -/
structure Doubled (start capacity peak doublings : Nat) : Prop where
  capacity_eq : capacity = start * 2 ^ doublings
  least : IsLeast {k | peak ≤ start * 2 ^ k} doublings

variable {start capacity peak doublings n : Nat}

theorem doubled_start (start : Nat) : Doubled start start 0 0 where
  capacity_eq := by simp
  least := ⟨Nat.zero_le _, fun _ _ => Nat.zero_le _⟩

theorem Doubled.peak_le (h : Doubled start capacity peak doublings) : peak ≤ capacity := by
  rw [h.capacity_eq]
  exact h.least.1

/-- **A demand for one more than `n`**, when the peak has passed `n` already. -/
theorem Doubled.demand (h : Doubled start capacity peak doublings) (hpos : 0 < start)
    (hn : n ≤ peak) :
    Doubled start (if capacity < n + 1 then capacity * 2 else capacity) (max peak (n + 1))
      (if capacity < n + 1 then doublings + 1 else doublings) := by
  have hpeak := h.peak_le
  have hcap := h.capacity_eq
  have hgrown : start * 2 ^ (doublings + 1) = capacity * 2 := by
    rw [Nat.pow_succ, ← Nat.mul_assoc, hcap]
  by_cases hfull : capacity < n + 1
  · have hroom : 0 < capacity := by
      rw [hcap]
      exact Nat.mul_pos hpos (Nat.two_pow_pos _)
    rw [if_pos hfull, if_pos hfull]
    refine ⟨hgrown.symm, ?_, fun k hk => ?_⟩
    · show max peak (n + 1) ≤ start * 2 ^ (doublings + 1)
      rw [hgrown]
      omega
    · -- fewer doublings leave no more than the capacity before this one
      have hk : max peak (n + 1) ≤ start * 2 ^ k := hk
      by_contra hlt
      have hle : start * 2 ^ k ≤ start * 2 ^ doublings :=
        Nat.mul_le_mul_left _ (Nat.pow_le_pow_right (by omega) (by omega))
      omega
  · rw [if_neg hfull, if_neg hfull]
    refine ⟨hcap, ?_, fun k hk => h.least.2 ?_⟩
    · show max peak (n + 1) ≤ start * 2 ^ doublings
      rw [← hcap]
      omega
    · exact (Nat.le_max_left _ _).trans hk

/-- **Within its start a store never doubles.** -/
theorem Doubled.none_within (h : Doubled start capacity peak doublings) (hle : peak ≤ start) :
    doublings = 0 := by
  apply Nat.le_zero.mp
  apply h.least.2
  simpa using hle

/-- The peak decides how often the store doubled. -/
theorem Doubled.unique {capacity' doublings' : Nat} (h : Doubled start capacity peak doublings)
    (h' : Doubled start capacity' peak doublings') : doublings = doublings' :=
  h.least.unique h'.least

end Lob.Lib.Doubling
