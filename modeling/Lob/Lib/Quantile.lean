/-
# Lob.Lib.Quantile — nearest-rank points of a sample.

The point of a share is the least value with at least that share of the sample at or below it.  Said by
counting, it does not depend on how it is found: by index in a sorted list, or by adding up a histogram
until the rank is reached.  Counts add up over the parts of a sample, so the point of the whole lies
between the points of its parts.
-/
import Mathlib.Data.List.Count
import Mathlib.Order.Defs.LinearOrder
import Mathlib.Algebra.Order.Ring.Nat
import Mathlib.Algebra.BigOperators.Group.List.Basic

namespace Lob.Lib.Quantile

/-- The rank of a share, `part` in `whole`, of `n` values: the least number of values that is as much. -/
def rank (part whole n : Nat) : Nat := (n * part + (whole - 1)) / whole

/-! ## Counts over the parts of a sample -/

section Parts

variable {α : Type} {part whole : Nat}

theorem count_flatten_lt {xss : List (List α)} {p : α → Bool} (hne : xss.flatten ≠ [])
    (h : ∀ xs ∈ xss, xs ≠ [] → whole * xs.countP p < part * xs.length) :
    whole * xss.flatten.countP p < part * xss.flatten.length := by
  induction xss with
  | nil => exact absurd rfl hne
  | cons xs xss ih =>
    rw [List.flatten_cons, List.countP_append, List.length_append, Nat.mul_add, Nat.mul_add]
    have htail : xss.flatten ≠ [] → whole * xss.flatten.countP p < part * xss.flatten.length :=
      fun hne => ih hne fun ys hys => h ys (List.mem_cons_of_mem _ hys)
    by_cases hxs : xs = []
    · subst hxs
      rw [List.flatten_cons, List.nil_append] at hne
      have := htail hne
      simpa using this
    · have hhead := h xs List.mem_cons_self hxs
      by_cases hrest : xss.flatten = []
      · rw [hrest]
        simpa using hhead
      · have := htail hrest
        omega

theorem le_count_flatten {xss : List (List α)} {p : α → Bool}
    (h : ∀ xs ∈ xss, xs ≠ [] → part * xs.length ≤ whole * xs.countP p) :
    part * xss.flatten.length ≤ whole * xss.flatten.countP p := by
  induction xss with
  | nil => simp
  | cons xs xss ih =>
    rw [List.flatten_cons, List.countP_append, List.length_append, Nat.mul_add, Nat.mul_add]
    have htail := ih fun ys hys => h ys (List.mem_cons_of_mem _ hys)
    by_cases hxs : xs = []
    · subst hxs
      simpa using htail
    · have hhead := h xs List.mem_cons_self hxs
      omega

end Parts

/-! ## Points -/

section Points

variable {α : Type} [LinearOrder α] {part part' whole : Nat} {xs ys : List α} {v w : α}

/-- Less than the share lies below the value, and at least the share at or below it. -/
structure IsPoint (part whole : Nat) (xs : List α) (v : α) : Prop where
  mem : v ∈ xs
  below : whole * xs.countP (fun x => decide (x < v)) < part * xs.length
  upto : part * xs.length ≤ whole * xs.countP fun x => decide (x ≤ v)

/-- A value that some sample lies at but not below. -/
theorem mem_of_count_lt
    (h : xs.countP (fun x => decide (x < v)) < xs.countP fun x => decide (x ≤ v)) : v ∈ xs := by
  by_contra hv
  refine absurd (List.countP_mono_left fun x hx hle => ?_) (Nat.not_le.mpr h)
  have hne : x ≠ v := fun heq => hv (heq ▸ hx)
  exact decide_eq_true (lt_of_le_of_ne (of_decide_eq_true hle) hne)

theorem count_le_of_lt (xs : List α) (h : v < w) :
    (xs.countP fun x => decide (x ≤ v)) ≤ xs.countP fun x => decide (x < w) :=
  List.countP_mono_left fun _ _ hle => decide_eq_true (lt_of_le_of_lt (of_decide_eq_true hle) h)

/-- **Ranks are points**: what fewer values than the rank lie below, and as many at or below. -/
theorem isPoint_of_rank (hwhole : 0 < whole)
    (hbelow : xs.countP (fun x => decide (x < v)) < rank part whole xs.length)
    (hupto : rank part whole xs.length ≤ xs.countP fun x => decide (x ≤ v)) :
    IsPoint part whole xs v := by
  have hdiv := Nat.div_add_mod (xs.length * part + (whole - 1)) whole
  have hmod := Nat.mod_lt (xs.length * part + (whole - 1)) hwhole
  rw [← rank] at hdiv
  have hcomm := Nat.mul_comm part xs.length
  refine ⟨mem_of_count_lt (Nat.lt_of_lt_of_le hbelow hupto), ?_, ?_⟩
  · -- one rank less is less than the share
    have hstep : whole * xs.countP (fun x => decide (x < v)) + whole
        ≤ whole * rank part whole xs.length := by
      rw [← Nat.mul_succ]
      exact Nat.mul_le_mul_left whole hbelow
    omega
  · have hle := Nat.mul_le_mul_left whole hupto
    omega

/-- **A larger share has no lesser point.** -/
theorem IsPoint.le_of_le (h : IsPoint part whole xs v) (h' : IsPoint part' whole xs w)
    (hle : part ≤ part') : v ≤ w := by
  by_contra hlt
  have hcount := Nat.mul_le_mul_left whole (count_le_of_lt xs (not_le.mp hlt))
  have hshare := Nat.mul_le_mul_right xs.length hle
  have := h.below
  have := h'.upto
  omega

/-- A sample has one point of a share, however it is found. -/
theorem IsPoint.unique (h : IsPoint part whole xs v) (h' : IsPoint part whole xs w) : v = w :=
  le_antisymm (h.le_of_le h' (Nat.le_refl part)) (h'.le_of_le h (Nat.le_refl part))

theorem IsPoint.perm (h : IsPoint part whole xs v) (hperm : xs.Perm ys) : IsPoint part whole ys v := by
  refine ⟨hperm.mem_iff.mp h.mem, ?_, ?_⟩
  · rw [← hperm.countP_eq, ← hperm.length_eq]
    exact h.below
  · rw [← hperm.countP_eq, ← hperm.length_eq]
    exact h.upto

/-- The whole share ends at the greatest value. -/
theorem IsPoint.greatest (h : IsPoint whole whole xs v) (hwhole : 0 < whole) : ∀ x ∈ xs, x ≤ v := by
  have hall : xs.countP (fun x => decide (x ≤ v)) = xs.length :=
    Nat.le_antisymm List.countP_le_length (Nat.le_of_mul_le_mul_left h.upto hwhole)
  exact fun x hx => of_decide_eq_true (List.countP_eq_length.mp hall x hx)

/-! ## By index -/

/-- The rank of a positive share of some values is the index of one of them, counted from one. -/
theorem rank_bounds {n : Nat} (hpart : 0 < part) (hle : part ≤ whole) (hn : 0 < n) :
    0 < rank part whole n ∧ rank part whole n ≤ n := by
  have hwhole : 0 < whole := Nat.lt_of_lt_of_le hpart hle
  have hpos : 1 ≤ n * part := Nat.mul_pos hn hpart
  constructor
  · exact Nat.div_pos (by omega) hwhole
  · refine Nat.le_of_lt_succ (Nat.div_lt_of_lt_mul ?_)
    have hmul : n * part ≤ whole * n := by
      rw [Nat.mul_comm whole]
      exact Nat.mul_le_mul_left n hle
    rw [Nat.mul_succ]
    omega

/-- **In a sorted list the point stands at its rank.** -/
theorem isPoint_of_sorted (hsorted : xs.Pairwise (· ≤ ·)) (hwhole : 0 < whole)
    (hpos : 0 < rank part whole xs.length) (hv : xs[rank part whole xs.length - 1]? = some v) :
    IsPoint part whole xs v := by
  generalize hr : rank part whole xs.length = r at hpos hv
  obtain ⟨hi, hget⟩ := List.getElem?_eq_some_iff.mp hv
  have hsplit : xs.take (r - 1) ++ v :: xs.drop r = xs := by
    have hdrop := List.drop_eq_getElem_cons hi
    rw [hget, Nat.sub_add_cancel hpos] at hdrop
    rw [← hdrop]
    exact List.take_append_drop _ _
  have hlen : (xs.take (r - 1)).length = r - 1 := by
    rw [List.length_take]
    omega
  rw [← hsplit, List.pairwise_append, List.pairwise_cons] at hsorted
  obtain ⟨-, ⟨hbehind, -⟩, hbefore⟩ := hsorted
  refine isPoint_of_rank hwhole ?_ ?_
  · -- nothing from the rank on lies below
    rw [hr, ← hsplit, List.countP_append, List.countP_cons_of_neg (by simp)]
    have hnone : (xs.drop r).countP (fun x => decide (x < v)) = 0 :=
      List.countP_eq_zero.mpr fun x hx hlt => not_lt.mpr (hbehind x hx) (of_decide_eq_true hlt)
    have hle : (xs.take (r - 1)).countP (fun x => decide (x < v)) ≤ (xs.take (r - 1)).length :=
      List.countP_le_length
    omega
  · rw [hr, ← hsplit, List.countP_append, List.countP_cons_of_pos (by simp)]
    have hall : (xs.take (r - 1)).countP (fun x => decide (x ≤ v)) = (xs.take (r - 1)).length :=
      List.countP_eq_length.mpr fun x hx => decide_eq_true (hbefore x hx v List.mem_cons_self)
    omega

/-! ## Parts of a sample -/

/-- **The point of a whole lies between the points of its parts.** -/
theorem IsPoint.between {xss : List (List α)} {f : List α → α}
    (h : IsPoint part whole xss.flatten v)
    (hparts : ∀ xs ∈ xss, xs ≠ [] → IsPoint part whole xs (f xs)) :
    (∃ xs ∈ xss, xs ≠ [] ∧ f xs ≤ v) ∧ ∃ xs ∈ xss, xs ≠ [] ∧ v ≤ f xs := by
  constructor
  · by_contra hnone
    have habove : ∀ xs ∈ xss, xs ≠ [] → v < f xs := fun xs hxs hne =>
      not_le.mp fun hle => hnone ⟨xs, hxs, hne, hle⟩
    refine absurd h.upto (Nat.not_le.mpr (count_flatten_lt (List.ne_nil_of_mem h.mem) ?_))
    intro xs hxs hne
    have hcount := Nat.mul_le_mul_left whole (count_le_of_lt xs (habove xs hxs hne))
    exact Nat.lt_of_le_of_lt hcount (hparts xs hxs hne).below
  · by_contra hnone
    have hunder : ∀ xs ∈ xss, xs ≠ [] → f xs < v := fun xs hxs hne =>
      not_le.mp fun hle => hnone ⟨xs, hxs, hne, hle⟩
    refine absurd h.below (Nat.not_lt.mpr (le_count_flatten ?_))
    intro xs hxs hne
    have hcount := Nat.mul_le_mul_left whole (count_le_of_lt xs (hunder xs hxs hne))
    exact (hparts xs hxs hne).upto.trans hcount

end Points

/-! ## By histogram -/

/-- How often each value below `m` occurs. -/
def histogram (m : Nat) (xs : List Nat) : List Nat := (List.range m).map fun v => xs.count v

/-- Add up the counts from `s` on, to `seen` before, until `rank` is reached; the last one otherwise. -/
def scan (rank : Nat) : Nat → Nat → List Nat → Nat
  | s, _, [] => s - 1
  | s, seen, n :: ns => if rank ≤ seen + n then s else scan rank (s + 1) (seen + n) ns

section Histogram

variable {part whole m x : Nat} {xs : List Nat}

@[simp] theorem length_histogram (m : Nat) (xs : List Nat) : (histogram m xs).length = m := by
  simp [histogram]

/-- **One more sample, one more count.** -/
theorem histogram_concat (xs : List Nat) (x : Nat) :
    histogram m (xs ++ [x]) = (histogram m xs).modify x (· + 1) := by
  refine List.ext_getElem (by simp) fun i hi hi' => ?_
  rw [List.getElem_modify]
  by_cases hx : x = i
  · subst hx
    simp [histogram, List.count_append]
  · simp [histogram, List.count_append, hx]

end Histogram

end Lob.Lib.Quantile
