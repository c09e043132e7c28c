/-
# Lob.Lib.ProbeFlow — linear probing forgets the order of insertion.

Send every entry of a table from its home forward to its cell.  `crossing m` counts the entries that
go on past cell `m`; the cell after `m` is used exactly when some entry arrives there, and one of those
that arrive stays (`crossing_next`).  So the crossings of a probed table solve a recursion whose only
data are the homes, and a table with an unused cell has only one solution.  Hence the used cells and
the total distance between homes and cells depend on the keys alone.
-/
import Mathlib.Algebra.BigOperators.Group.Finset.Basic
import Mathlib.Algebra.Order.BigOperators.Group.Finset
import Lob.Lib.Probing

namespace Lob.Lib.Probing

open Finset

variable {κ υ ω : Type*} {cap : Nat} {home : κ → Nat} {c : Nat → Option (κ × υ)}
  {c' : Nat → Option (κ × ω)}

/-! ## Sums over a table -/

/-- The sum of `f` over the used cells. -/
def tableSum (cap : Nat) (c : Nat → Option (κ × υ)) (f : Nat → κ → Nat) : Nat :=
  ∑ j ∈ range cap, (c j).elim 0 fun e => f j e.1

/-- The entries that go on past cell `m` on the way from their homes. -/
def crossing (cap : Nat) (home : κ → Nat) (c : Nat → Option (κ × υ)) (m : Nat) : Nat :=
  tableSum cap c fun j k => if dist cap (home k) m < dist cap (home k) j then 1 else 0

/-- The entries that have their home at `m`. -/
def homesAt (cap : Nat) (home : κ → Nat) (c : Nat → Option (κ × υ)) (m : Nat) : Nat :=
  tableSum cap c fun _ k => if home k = m then 1 else 0

/-- The distances of all entries from their homes. -/
def displacement (cap : Nat) (home : κ → Nat) (c : Nat → Option (κ × υ)) : Nat :=
  tableSum cap c fun j k => dist cap (home k) j

/-- A sum that does not look at the cells is a sum over the keys. -/
theorem tableSum_keys (c : Nat → Option (κ × υ)) (f : κ → Nat) :
    tableSum cap c (fun _ k => f k) = (((content cap c).map Prod.fst).map f).sum := by
  unfold tableSum content
  induction cap with
  | zero => rfl
  | succ n ih =>
    rw [sum_range_succ, ih, List.range_succ, List.filterMap_append, List.map_append,
      List.map_append, List.sum_append]
    cases hc : c n <;> simp [hc]

theorem homesAt_congr (h : ((content cap c).map Prod.fst).Perm ((content cap c').map Prod.fst))
    (m : Nat) : homesAt cap home c m = homesAt cap home c' m := by
  unfold homesAt
  rw [tableSum_keys c, tableSum_keys c']
  exact (h.map _).sum_nat

/-- Two sums over a table agree when they agree at every used cell. -/
theorem tableSum_congr {f g : Nat → κ → Nat}
    (h : ∀ j < cap, ∀ k v, c j = some (k, v) → f j k = g j k) : tableSum cap c f = tableSum cap c g := by
  refine sum_congr rfl fun j hj => ?_
  rw [mem_range] at hj
  cases hc : c j with
  | none => rfl
  | some e => exact h j hj e.1 e.2 hc

theorem tableSum_add (f g : Nat → κ → Nat) :
    tableSum cap c (fun j k => f j k + g j k) = tableSum cap c f + tableSum cap c g := by
  unfold tableSum
  rw [← sum_add_distrib]
  refine sum_congr rfl fun j _ => ?_
  cases c j <;> rfl

theorem tableSum_eq_zero {f : Nat → κ → Nat} (h : ∀ j < cap, ∀ k v, c j = some (k, v) → f j k = 0) :
    tableSum cap c f = 0 := by
  refine sum_eq_zero fun j hj => ?_
  rw [mem_range] at hj
  cases hc : c j with
  | none => rfl
  | some e => exact h j hj e.1 e.2 hc

/-- One used cell counts once. -/
theorem tableSum_at {m : Nat} (hm : m < cap) :
    tableSum cap c (fun j _ => if j = m then 1 else 0) = if c m = none then 0 else 1 := by
  unfold tableSum
  rw [sum_eq_single m]
  · cases c m <;> simp
  · intro j _ hj
    cases c j <;> simp [hj]
  · intro hno
    exact absurd (mem_range.mpr hm) hno

/-! ## The recursion -/

/-- **What arrives behind a cell**: the entries that went on past it, and those at home there; one
stays if the cell is used. -/
theorem crossing_next (hhome : ∀ k, home k < cap) {m : Nat} (hm : m < cap) :
    crossing cap home c (next cap m) + (if c (next cap m) = none then 0 else 1)
      = crossing cap home c m + homesAt cap home c (next cap m) := by
  rw [← tableSum_at (c := c) (next_lt hm)]
  unfold crossing homesAt
  rw [← tableSum_add, ← tableSum_add]
  refine tableSum_congr fun j hj k v _ => ?_
  have hk := hhome k
  have h1 := dist_cases cap (home k) m
  have h2 := dist_cases cap (home k) (next cap m)
  have h3 := dist_cases cap (home k) j
  have h4 := next_cases cap m
  -- an entry at home behind `m` has come all the way round when it is past `m`
  split_ifs <;> omega

/-- Nothing goes on past an unused cell. -/
theorem Probed.crossing_unused (h : Probed cap home c) {m : Nat} (hm : m < cap) (hc : c m = none) :
    crossing cap home c m = 0 := by
  refine tableSum_eq_zero fun j hj k v hcj => if_neg fun hlt => ?_
  exact h.reach j hj k v hcj m hm hlt hc

/-- **The recursion of the crossings**, and which cells are used. -/
theorem Probed.crossing_eq (h : Probed cap home c) {m : Nat} (hm : m < cap) :
    crossing cap home c (next cap m)
        = crossing cap home c m + homesAt cap home c (next cap m) - 1
      ∧ (c (next cap m) = none
        ↔ crossing cap home c m + homesAt cap home c (next cap m) = 0) := by
  have hstep := crossing_next (c := c) h.home_lt hm
  by_cases hc : c (next cap m) = none
  · have hzero := h.crossing_unused (next_lt hm) hc
    rw [if_pos hc] at hstep
    refine ⟨by omega, fun _ => by omega, fun _ => hc⟩
  · rw [if_neg hc] at hstep
    refine ⟨by omega, fun hno => absurd hno hc, fun hno => by omega⟩

theorem exists_before {m : Nat} (hm : m < cap) : ∃ p < cap, next cap p = m := by
  by_cases h0 : m = 0
  · have h1 := next_cases cap (cap - 1)
    exact ⟨cap - 1, by omega, by omega⟩
  · have h1 := next_cases cap (m - 1)
    exact ⟨m - 1, by omega, by omega⟩

/-- Two probed tables with one set of homes: the crossings of the one with an unused cell are below
the other's. -/
theorem Probed.crossing_le (h : Probed cap home c) (h' : Probed cap home c')
    (hhomes : ∀ m, homesAt cap home c m = homesAt cap home c' m) {e : Nat} (he : e < cap)
    (hunused : c e = none) :
    ∀ m < cap, crossing cap home c m ≤ crossing cap home c' m := by
  -- induction on the way from the unused cell
  have hall : ∀ d, ∀ m < cap, dist cap e m = d → crossing cap home c m ≤ crossing cap home c' m := by
    intro d
    induction d with
    | zero =>
      intro m hm hd
      have h1 := dist_cases cap e m
      obtain rfl : m = e := by omega
      rw [h.crossing_unused hm hunused]
      exact Nat.zero_le _
    | succ d ih =>
      intro m hm hd
      obtain ⟨p, hp, rfl⟩ := exists_before hm
      have h1 := dist_cases cap e p
      have h2 := dist_cases cap e (next cap p)
      have h3 := next_cases cap p
      have hle := ih p hp (by omega)
      rw [(h.crossing_eq hp).1, (h'.crossing_eq hp).1, hhomes]
      omega
  exact fun m hm => hall _ m hm rfl

section Unique

variable (h : Probed cap home c) (h' : Probed cap home c')
  (hkeys : ((content cap c).map Prod.fst).Perm ((content cap c').map Prod.fst))
  (hroom : ∃ i < cap, c i = none) (hroom' : ∃ i < cap, c' i = none)

include h h' hkeys hroom hroom'

theorem crossing_unique : ∀ m < cap, crossing cap home c m = crossing cap home c' m := by
  obtain ⟨e, he, hunused⟩ := hroom
  obtain ⟨e', he', hunused'⟩ := hroom'
  intro m hm
  exact Nat.le_antisymm (h.crossing_le h' (homesAt_congr hkeys) he hunused m hm)
    (h'.crossing_le h (homesAt_congr hkeys.symm) he' hunused' m hm)

/-- **The used cells depend on the keys alone.** -/
theorem used_unique : ∀ m < cap, (c m = none ↔ c' m = none) := by
  intro m hm
  obtain ⟨p, hp, rfl⟩ := exists_before hm
  rw [(h.crossing_eq hp).2, (h'.crossing_eq hp).2,
    crossing_unique h h' hkeys hroom hroom' p hp, homesAt_congr hkeys]

end Unique

/-! ## The total distance -/

/-- As many cells lie closer than `d` as there are distances below `d`. -/
theorem sum_closer {a d : Nat} (ha : a < cap) (hd : d ≤ cap) :
    ∑ m ∈ range cap, (if dist cap a m < d then 1 else 0) = d := by
  induction d with
  | zero => simp
  | succ d ih =>
    have hsplit : ∀ m, (if dist cap a m < d + 1 then 1 else 0)
        = (if dist cap a m < d then 1 else 0) + if dist cap a m = d then 1 else 0 := by
      intro m
      split_ifs <;> omega
    -- exactly one cell lies at distance `d`
    have hone : ∑ m ∈ range cap, (if dist cap a m = d then 1 else 0) = 1 := by
      obtain ⟨b, hb⟩ : ∃ b, b < cap ∧ dist cap a b = d := by
        by_cases hlt : a + d < cap
        · have h1 := dist_cases cap a (a + d)
          exact ⟨a + d, hlt, by omega⟩
        · have h1 := dist_cases cap a (a + d - cap)
          exact ⟨a + d - cap, by omega, by omega⟩
      rw [sum_eq_single b, if_pos hb.2]
      · intro m hm hne
        rw [mem_range] at hm
        refine if_neg fun heq => hne (dist_inj ha hm hb.1 (heq.trans hb.2.symm))
      · intro hno
        exact absurd (mem_range.mpr hb.1) hno
    rw [sum_congr rfl fun m _ => hsplit m, sum_add_distrib, ih (by omega), hone]

/-- **The total distance is the sum of the crossings.** -/
theorem displacement_eq (hhome : ∀ k, home k < cap) :
    displacement cap home c = ∑ m ∈ range cap, crossing cap home c m := by
  unfold crossing tableSum
  rw [sum_comm]
  unfold displacement tableSum
  refine sum_congr rfl fun j hj => ?_
  rw [mem_range] at hj
  cases hc : c j with
  | none => simp
  | some e => exact (sum_closer (hhome e.1) (dist_lt (hhome e.1) hj).le).symm

/-- **The total distance depends on the keys alone.** -/
theorem displacement_unique (h : Probed cap home c) (h' : Probed cap home c')
    (hkeys : ((content cap c).map Prod.fst).Perm ((content cap c').map Prod.fst))
    (hroom : ∃ i < cap, c i = none) (hroom' : ∃ i < cap, c' i = none) :
    displacement cap home c = displacement cap home c' := by
  rw [displacement_eq h.home_lt, displacement_eq h'.home_lt]
  refine sum_congr rfl fun m hm => ?_
  rw [mem_range] at hm
  exact crossing_unique h h' hkeys hroom hroom' m hm

end Lob.Lib.Probing
