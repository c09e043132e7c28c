/-
# Lob.Lib.Paged — an address space that is mapped and unmapped in whole pages.

Lengths are rounded up to whole pages, and an unmapping at an address inside a page is refused.  So what
a length says is exactly what happens only when it is a whole number of pages.
-/
import Mathlib.Algebra.Ring.Nat
import Mathlib.Data.Nat.Basic

namespace Lob.Lib.Paged

/-- Which addresses are mapped. -/
@[ext]
structure Space where
  mapped : Nat → Bool

section Pages

variable (page : Nat)

def whole (len : Nat) : Nat := (len + page - 1) / page * page

/-- Whether an address lies in the pages of a range. -/
def within (start len a : Nat) : Bool := decide (start ≤ a) && decide (a < start + whole page len)

def Space.map (s : Space) (start len : Nat) : Space where
  mapped a := s.mapped a || within page start len a

def Space.unmap (s : Space) (start len : Nat) : Space where
  mapped a := if page ∣ start then s.mapped a && !within page start len a else s.mapped a

/-- Where a new mapping may be placed: at a page, where nothing is mapped, short of the top. -/
structure Space.Grants (s : Space) (start len : Nat) : Prop where
  aligned : page ∣ start
  top : start + whole page len < 2 ^ 64
  free : ∀ a, within page start len a = true → s.mapped a = false

end Pages

section Facts

variable {page start len a : Nat} {s : Space}

/-- A whole number of pages is not rounded. -/
theorem whole_of_dvd (hpage : 0 < page) (h : page ∣ len) : whole page len = len := by
  obtain ⟨k, rfl⟩ := h
  have hlt : page * k + page - 1 = page - 1 + page * k := by omega
  rw [whole, hlt, Nat.add_mul_div_left _ _ hpage, Nat.div_eq_of_lt (Nat.sub_lt hpage Nat.one_pos),
    Nat.zero_add, Nat.mul_comm]

theorem within_iff (hpage : 0 < page) (h : page ∣ len) :
    within page start len a = true ↔ start ≤ a ∧ a < start + len := by
  rw [within, whole_of_dvd hpage h, Bool.and_eq_true, decide_eq_true_eq, decide_eq_true_eq]

theorem mapped_map (hpage : 0 < page) (h : page ∣ len) :
    (s.map page start len).mapped a = true ↔ s.mapped a = true ∨ (start ≤ a ∧ a < start + len) := by
  rw [← within_iff hpage h, ← Bool.or_eq_true]
  rfl

theorem mapped_unmap (hpage : 0 < page) (hstart : page ∣ start) (h : page ∣ len) :
    (s.unmap page start len).mapped a = true
      ↔ s.mapped a = true ∧ ¬ (start ≤ a ∧ a < start + len) := by
  have hmapped : (s.unmap page start len).mapped a = (s.mapped a && !within page start len a) :=
    if_pos hstart
  rw [hmapped, Bool.and_eq_true, Bool.not_eq_true', ← within_iff hpage h, Bool.not_eq_true]

end Facts

end Lob.Lib.Paged
