/-
# Lob.SizingLoops — the two loops that round a size up to a power of two.

The trade ring and the id index size their storage by doubling a 64-bit counter until a test fails.
Neither loop looks at the counter's overflow, so both end exactly where a power of two of 64 bits
answers the request; past that the counter wraps to 0 and the test never fails again.  One test
compares the counter and the other half of it, which puts the two ends a factor of two apart.

`powersFrom` is what a request asks for, and `RoundsUp` says that a construction delivered the least of
it, or threw where there is none.
-/
import Mathlib.Order.Bounds.Basic
import Lob.IdIndexRefine
import Lob.RunRefine

namespace Lob

/-! ## The least power of two -/

/-- The powers of two of 64 bits that are at least `wanted`. -/
def powersFrom (wanted : Nat) : Set Nat := {p | ∃ k ≤ 63, p = 2 ^ k ∧ wanted ≤ p}

theorem powersFrom_eq_empty {wanted : Nat} : powersFrom wanted = ∅ ↔ 2 ^ 63 < wanted := by
  rw [Set.eq_empty_iff_forall_notMem]
  constructor
  · intro hnone
    by_contra hle
    exact hnone (2 ^ 63) ⟨63, Nat.le_refl _, rfl, Nat.not_lt.mp hle⟩
  · rintro hbig p ⟨k, hk, rfl, hle⟩
    have : 2 ^ k ≤ 2 ^ 63 := Nat.pow_le_pow_right (by omega) hk
    omega

section Loop

variable {more : Nat → Bool} {wanted j fuel : Nat}

/-- **A doubling loop that asks for `wanted` ends at the least power of two that answers**, counted
from where it started. -/
theorem doubleWhile_least (hmore : ∀ k, j ≤ k → k ≤ 63 → more (2 ^ k) = decide (2 ^ k < wanted))
    (hj : j ≤ 63) (hwanted : wanted ≤ 2 ^ 63) (hfuel : 63 < j + fuel) :
    ∃ cap, doubleWhile more fuel (2 ^ j) = some cap ∧ IsLeast (powersFrom (max (2 ^ j) wanted)) cap := by
  have hex : ∃ k, j ≤ k ∧ wanted ≤ 2 ^ k := ⟨63, hj, hwanted⟩
  obtain ⟨hfrom, hcap⟩ := Nat.find_spec hex
  have h63 : Nat.find hex ≤ 63 := Nat.find_min' hex ⟨hj, hwanted⟩
  refine ⟨2 ^ Nat.find hex, ?_, ⟨Nat.find hex, h63, rfl, ?_⟩, ?_⟩
  · apply doubleWhile_stops fuel j hfrom h63
    · intro i hi hlt
      have hbelow : ¬ (j ≤ i ∧ wanted ≤ 2 ^ i) := Nat.find_min hex hlt
      rw [hmore i hi (by omega)]
      exact decide_eq_true (by omega)
    · rw [hmore _ hfrom h63]
      exact decide_eq_false (by omega)
    · omega
  · exact Nat.max_le.mpr ⟨Nat.pow_le_pow_right (by omega) hfrom, hcap⟩
  · rintro p ⟨k, hk, rfl, hle⟩
    obtain ⟨hstart, hreach⟩ := Nat.max_le.mp hle
    have hjk : j ≤ k := (Nat.pow_le_pow_iff_right (by omega)).mp hstart
    exact Nat.pow_le_pow_right (by omega) (Nat.find_min' hex ⟨hjk, hreach⟩)

end Loop

/-! ## Constructions -/

section Construct

variable {α : Type}

/-- A constructor whose loop ends with the storage to ask for; `refuse` says which sizes the
allocation throws on. -/
def construct (sizeOf : α → Nat) (refuse : Nat → Option Throw) : Option α → Result Unit α
  | none => .undefined
  | some a =>
    match refuse (sizeOf a) with
    | none => .ok a ()
    | some e => .throws e ()

/-- What a construction owes a request: storage of the least power of two that answers it, unless the
allocation throws, and an exception where no power of two answers. -/
structure RoundsUp (sizeOf : α → Nat) (refuse : Nat → Option Throw) (wanted : Nat) (r : Result Unit α) :
    Prop where
  granted : ∀ cap, IsLeast (powersFrom wanted) cap → refuse cap = none →
    ∃ a, r = .ok a () ∧ sizeOf a = cap
  refused : ∀ cap, IsLeast (powersFrom wanted) cap → ∀ e, refuse cap = some e → r = .throws e ()
  tooLarge : powersFrom wanted = ∅ → ∃ e, r = .throws e ()

/-- **A construction meets its request exactly when some power of two does**, if its loop ends then
at the least one and does not end otherwise. -/
theorem roundsUp_iff {sizeOf : α → Nat} (refuse : Nat → Option Throw) {wanted : Nat} {loop : Option α}
    (hends : wanted ≤ 2 ^ 63 → ∃ a, loop = some a ∧ IsLeast (powersFrom wanted) (sizeOf a))
    (hstuck : 2 ^ 63 < wanted → loop = none) :
    RoundsUp sizeOf refuse wanted (construct sizeOf refuse loop) ↔ wanted ≤ 2 ^ 63 := by
  constructor
  · intro h
    by_contra hbig
    have hbig' : 2 ^ 63 < wanted := Nat.not_le.mp hbig
    obtain ⟨e, he⟩ := h.tooLarge (powersFrom_eq_empty.mpr hbig')
    rw [hstuck hbig'] at he
    simp [construct] at he
  · intro hle
    obtain ⟨a, rfl, hleast⟩ := hends hle
    refine ⟨fun cap hcap hgo => ?_, fun cap hcap e hno => ?_, fun hnone => ?_⟩
    · obtain rfl := hleast.unique hcap
      exact ⟨a, by simp only [construct, hgo], rfl⟩
    · obtain rfl := hleast.unique hcap
      simp only [construct, hno]
    · exact absurd (powersFrom_eq_empty.mp hnone) (Nat.not_lt.mpr hle)

end Construct

/-! ## The ring and the index -/

namespace TradeRing

/-- The constructor, with the allocation of its buffer. -/
def construct (refuse : Nat → Option Throw) (capacity : Nat) : Result Unit TradeRing :=
  Lob.construct bufferSize refuse (new capacity)

theorem new_least {capacity : Nat} (h : max 1 capacity ≤ 2 ^ 63) :
    ∃ r, new capacity = some r ∧ IsLeast (powersFrom (max 1 capacity)) r.bufferSize := by
  have hwanted : (if capacity = 0 then 1 else capacity) = max 1 capacity := by split <;> omega
  obtain ⟨cap, hloop, hleast⟩ := @doubleWhile_least (fun p => decide (p < max 1 capacity))
    (max 1 capacity) 0 65 (fun _ _ _ => rfl) (by omega) h (by omega)
  rw [Nat.pow_zero] at hloop hleast
  refine ⟨_, by rw [new, roundUpPow2, hwanted, hloop]; rfl, ?_⟩
  rwa [Nat.max_eq_right (Nat.le_max_left 1 capacity)] at hleast

theorem new_eq_none {capacity : Nat} : new capacity = none ↔ 2 ^ 63 < capacity := by
  constructor
  · intro hnone
    by_contra hle
    obtain ⟨r, hr, -⟩ := new_spec (Nat.not_lt.mp hle)
    rw [hnone] at hr
    simp at hr
  · intro hbig
    cases hr : new capacity with
    | none => rfl
    | some r => exact absurd (capacity_le_of_new hr) (Nat.not_le.mpr hbig)

theorem roundsUp_construct_iff (refuse : Nat → Option Throw) (capacity : Nat) :
    RoundsUp bufferSize refuse (max 1 capacity) (construct refuse capacity) ↔ capacity ≤ 2 ^ 63 := by
  rw [construct, roundsUp_iff refuse new_least fun hbig => new_eq_none.mpr (by omega)]
  omega

end TradeRing

namespace IdIndex

variable {υ : Type} [Inhabited υ]

/-- The constructor, with the allocation of its table. -/
def construct (refuse : Nat → Option Throw) (expected : Nat) : Result Unit (IdIndex υ) :=
  Lob.construct tableSize refuse (new expected)

theorem new_least {expected : Nat} (h : max 16 (2 * expected) ≤ 2 ^ 63) :
    ∃ t : IdIndex υ, new expected = some t
      ∧ IsLeast (powersFrom (max 16 (2 * expected))) t.tableSize := by
  -- half an even counter is below `expected` exactly when the counter is below twice that
  have hmore : ∀ k, 4 ≤ k → k ≤ 63 →
      decide (2 ^ k / 2 < expected) = decide (2 ^ k < 2 * expected) := by
    intro k hk _
    have hpow : 2 ^ k = 2 * 2 ^ (k - 1) := by
      rw [← Nat.pow_succ']
      congr 1
      omega
    rw [hpow, decide_eq_decide]
    omega
  obtain ⟨cap, hloop, hleast⟩ := @doubleWhile_least (fun cap => decide (cap / 2 < expected))
    (2 * expected) 4 65 hmore (by omega) (by omega) (by omega)
  exact ⟨_, by rw [new, show 16 = 2 ^ 4 from rfl, hloop]; rfl, hleast⟩

theorem new_eq_none {expected : Nat} : (new expected : Option (IdIndex υ)) = none ↔ 2 ^ 62 < expected := by
  constructor
  · intro hnone
    by_contra hle
    obtain ⟨t, ht, -⟩ := @new_spec υ _ _ (Nat.not_lt.mp hle)
    rw [hnone] at ht
    simp at ht
  · intro hbig
    cases ht : (new expected : Option (IdIndex υ)) with
    | none => rfl
    | some t => exact absurd (expected_le_of_new ht) (Nat.not_le.mpr hbig)

theorem roundsUp_construct_iff (refuse : Nat → Option Throw) (expected : Nat) :
    RoundsUp (@tableSize υ) refuse (max 16 (2 * expected)) (construct refuse expected)
      ↔ expected ≤ 2 ^ 62 := by
  rw [construct, roundsUp_iff refuse new_least fun hbig => new_eq_none.mpr (by omega)]
  omega

end IdIndex

/-- **Both loops finish and size their storage exactly as far as 64 bits go**: up to `2^63` trades for
the ring and up to `2^62` ids for the index.  Past that the constructors hang where they should throw. -/
theorem sizing_loops_finish_iff {υ : Type} [Inhabited υ] (refuse : Nat → Option Throw)
    (requested expected : UInt64) :
    (RoundsUp TradeRing.bufferSize refuse (max 1 requested.toNat)
        (TradeRing.construct refuse requested.toNat) ↔ requested.toNat ≤ 2 ^ 63)
      ∧ (RoundsUp (@IdIndex.tableSize υ) refuse (max 16 (2 * expected.toNat))
          (IdIndex.construct refuse expected.toNat) ↔ expected.toNat ≤ 2 ^ 62) :=
  ⟨TradeRing.roundsUp_construct_iff refuse _, IdIndex.roundsUp_construct_iff refuse _⟩

/-- One past either bound the constructor neither returns nor throws. -/
theorem sizing_loops_hang :
    (TradeRing.construct (fun _ => none) (2 ^ 63 + 1) = .undefined
        ∧ ¬ RoundsUp TradeRing.bufferSize (fun _ => none) (max 1 (2 ^ 63 + 1))
          (TradeRing.construct (fun _ => none) (2 ^ 63 + 1)))
      ∧ (IdIndex.construct (fun _ => none) (2 ^ 62 + 1) : Result Unit (IdIndex UInt32)) = .undefined
        ∧ ¬ RoundsUp (@IdIndex.tableSize UInt32) (fun _ => none) (max 16 (2 * (2 ^ 62 + 1)))
          (IdIndex.construct (fun _ => none) (2 ^ 62 + 1)) := by
  refine ⟨⟨?_, ?_⟩, ?_, ?_⟩
  · rw [TradeRing.construct, TradeRing.new_eq_none.mpr (by omega), construct]
  · rw [TradeRing.roundsUp_construct_iff]
    omega
  · rw [IdIndex.construct, IdIndex.new_eq_none.mpr (by omega), construct]
  · rw [IdIndex.roundsUp_construct_iff]
    omega

/-! ## The book -/

/-- **The book can be constructed exactly when both loops end.** -/
theorem OrderBook.new_eq_none {scrub : RestingOrder → RestingOrder} {cfg : Config} :
    OrderBook.new scrub cfg = none
      ↔ 2 ^ 63 < cfg.tradeCapacity.toNat ∨ 2 ^ 62 < cfg.expectedOrders.toNat := by
  have horders : ∀ n : Nat, 2 ^ 62 < (if 0 < n then n else kDefaultPoolSlots) ↔ 2 ^ 62 < n := by
    intro n
    have hk : kDefaultPoolSlots = 1024 := rfl
    split <;> omega
  rw [← TradeRing.new_eq_none, ← horders, ← @IdIndex.new_eq_none UInt32]
  unfold OrderBook.new
  simp only
  split
  · rename_i index ring hindex hring
    rw [hindex, hring]
    simp
  · rename_i hnot
    cases hring : TradeRing.new cfg.tradeCapacity.toNat with
    | none => simp
    | some ring =>
      cases hindex : (IdIndex.new (if 0 < cfg.expectedOrders.toNat then cfg.expectedOrders.toNat
          else kDefaultPoolSlots) : Option (IdIndex UInt32)) with
      | none => simp
      | some index => exact absurd hring (hnot index ring hindex)

end Lob
