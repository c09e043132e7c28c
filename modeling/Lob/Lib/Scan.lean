/-
# Lob.Lib.Scan — one linear scan for the best value, and the flat lists it runs over.

`scan` is the loop that keeps the best value so far and skips the elements that have none.  A value
that no other beats is what it returns (`scan_eq_some`).  The rest is what such a program does with
the answer: it takes an element out of a flat list, or overwrites it, at the position it found.
-/
import Mathlib.Data.List.Nodup
import Mathlib.Data.List.Pairwise
import Mathlib.Data.List.Perm.Subperm

namespace Lob.Lib.Scan

variable {α β κ : Type}

/-! ## The scan -/

/-- One turn of the scan: the best value so far, after `v`. -/
def keepBest (beats : β → β → Bool) : Option β → β → Option β
  | none, v => some v
  | some w, v => if beats v w then some v else some w

/-- `for (x : xs) { if (no value) continue; if (!best || beats) best = value; }` -/
def scan (value : α → Option β) (beats : β → β → Bool) (xs : List α) : Option β :=
  xs.foldl (fun best x => match value x with
    | some v => keepBest beats best v
    | none => best) none

section Scan

variable {value : α → Option β} {beats : β → β → Bool} {xs : List α} {m : β}

theorem scan_eq_foldl (value : α → Option β) (beats : β → β → Bool) (xs : List α) :
    scan value beats xs = (xs.filterMap value).foldl (keepBest beats) none := by
  rw [List.foldl_filterMap]
  rfl

theorem foldl_keepBest_self {ys : List β} (hkeep : ∀ y ∈ ys, beats y m = false) :
    ys.foldl (keepBest beats) (some m) = some m := by
  induction ys with
  | nil => rfl
  | cons y ys ih =>
    rw [List.foldl_cons, keepBest, hkeep y (by simp), if_neg (by simp)]
    exact ih fun z hz => hkeep z (List.mem_cons_of_mem _ hz)

theorem foldl_keepBest {ys : List β} (hkeep : ∀ y ∈ ys, beats y m = false)
    (hbest : ∀ y ∈ ys, y = m ∨ beats m y = true) (hm : m ∈ ys) {best : Option β}
    (hstart : ∀ b ∈ best, b = m ∨ beats m b = true) :
    ys.foldl (keepBest beats) best = some m := by
  induction ys generalizing best with
  | nil => simp at hm
  | cons y ys ih =>
    have hrest : ∀ z ∈ ys, beats z m = false := fun z hz => hkeep z (List.mem_cons_of_mem _ hz)
    rw [List.foldl_cons]
    by_cases hy : y = m
    · -- from here on the best value is `m`
      have hnow : keepBest beats best y = some m := by
        subst hy
        cases best with
        | none => rfl
        | some b =>
          rcases hstart b rfl with rfl | hb
          · simp [keepBest]
          · rw [keepBest, if_pos hb]
      rw [hnow, foldl_keepBest_self hrest]
    · refine ih hrest (fun z hz => hbest z (List.mem_cons_of_mem _ hz)) ?_ fun b hb => ?_
      · rcases List.mem_cons.mp hm with h | h
        · exact absurd h.symm hy
        · exact h
      · cases best with
        | none =>
          obtain rfl := Option.some.inj hb
          exact hbest y (by simp)
        | some b₀ =>
          rw [keepBest] at hb
          split at hb
          · obtain rfl := Option.some.inj hb
            exact hbest y (by simp)
          · obtain rfl := Option.some.inj hb
            exact hstart b₀ rfl

/-- **The scan returns the value that beats every other one.** -/
theorem scan_eq_some (hm : m ∈ xs.filterMap value)
    (hkeep : ∀ y ∈ xs.filterMap value, beats y m = false)
    (hbest : ∀ y ∈ xs.filterMap value, y = m ∨ beats m y = true) : scan value beats xs = some m := by
  rw [scan_eq_foldl]
  exact foldl_keepBest hkeep hbest hm (by simp)

theorem scan_eq_none (h : xs.filterMap value = []) : scan value beats xs = none := by
  rw [scan_eq_foldl, h]
  rfl

end Scan

/-! ## Flat lists -/

section Flat

variable {key : α → κ} {xs ys : List α} {x : α} {i : Nat}

/-- Erasing at the position of `x` leaves the rest. -/
theorem eraseIdx_perm (hx : xs[i]? = some x) (h : xs.Perm (x :: ys)) : (xs.eraseIdx i).Perm ys := by
  obtain ⟨hi, rfl⟩ := List.getElem?_eq_some_iff.mp hx
  exact ((List.getElem_cons_eraseIdx_perm hi).trans h).cons_inv

/-- Overwriting at the position of `x` leaves the rest. -/
theorem set_perm (hx : xs[i]? = some x) (h : xs.Perm (x :: ys)) (y : α) :
    (xs.set i y).Perm (y :: ys) := by
  obtain ⟨hi, -⟩ := List.getElem?_eq_some_iff.mp hx
  exact (List.set_perm_cons_eraseIdx hi y).trans ((eraseIdx_perm hx h).cons y)

/-- Under unique keys, erasing at the position of a key is filtering it out. -/
theorem eraseIdx_perm_filter [DecidableEq κ] (hnd : (xs.map key).Nodup) (hx : xs[i]? = some x) :
    (xs.eraseIdx i).Perm (xs.filter fun y => key y ≠ key x) := by
  obtain ⟨hi, rfl⟩ := List.getElem?_eq_some_iff.mp hx
  have hperm := List.getElem_cons_eraseIdx_perm hi
  have hnd' : ((xs[i] :: xs.eraseIdx i).map key).Nodup := (hperm.map key).nodup_iff.mpr hnd
  rw [List.map_cons, List.nodup_cons] at hnd'
  have hother : (xs.eraseIdx i).filter (fun y => key y ≠ key xs[i]) = xs.eraseIdx i := by
    refine List.filter_eq_self.mpr fun y hy => ?_
    have hne : key y ≠ key xs[i] := fun heq => hnd'.1 (heq ▸ List.mem_map_of_mem hy)
    simpa using hne
  have hfilter := hperm.filter fun y => decide (key y ≠ key xs[i])
  rw [List.filter_cons_of_neg (by simp), hother] at hfilter
  exact hfilter

/-- Under unique keys, a lookup finds the element that has the key. -/
theorem find?_of_mem [DecidableEq κ] (hnd : (xs.map key).Nodup) (hx : x ∈ xs) :
    xs.find? (fun y => key y == key x) = some x := by
  cases hfind : xs.find? fun y => key y == key x with
  | none => simpa using List.find?_eq_none.mp hfind x hx
  | some y =>
    have hkey : key y = key x := by simpa using List.find?_some hfind
    rw [List.inj_on_of_nodup_map hnd (List.mem_of_find?_eq_some hfind) hx hkey]

/-- Under unique keys, an element has one position. -/
theorem position_unique (hnd : (xs.map key).Nodup) {j : Nat} (hi : xs[i]? = some x)
    (hj : xs[j]? = some x) : i = j := by
  have hnd' := List.Nodup.of_map key hnd
  obtain ⟨hlt, rfl⟩ := List.getElem?_eq_some_iff.mp hi
  obtain ⟨hlt', heq⟩ := List.getElem?_eq_some_iff.mp hj
  exact (hnd'.getElem_inj_iff.mp heq).symm

/-- **A strictly sorted permutation is what sorting by `less` returns.** -/
theorem mergeSort_eq_of_perm {less : α → α → Bool}
    (hasymm : ∀ x y, less x y = true → less y x = false)
    (htrans : ∀ x y z, less y x = false → less z y = false → less z x = false)
    (h : xs.Perm ys) (hsorted : ys.Pairwise fun x y => less x y = true) :
    xs.mergeSort (fun x y => !less y x) = ys := by
  have hsort : (xs.mergeSort fun x y => !less y x).Pairwise fun x y => (!less y x) = true := by
    refine List.pairwise_mergeSort (fun x y z hxy hyz => ?_) (fun x y => ?_) xs
    · simpa using htrans x y z (by simpa using hxy) (by simpa using hyz)
    · cases hxy : less y x with
      | false => simp
      | true => simp [hasymm y x hxy]
  have hperm := (List.mergeSort_perm xs fun x y => !less y x).trans h
  refine hperm.eq_of_pairwise (fun x y hx hy hxy hyx => ?_) hsort
    (hsorted.imp fun hxy => by simp [hasymm _ _ hxy])
  -- distinct elements of `ys` compare one way or the other
  by_contra hne
  have hcompare : ys.Pairwise fun x y => less x y = true ∨ less y x = true := hsorted.imp Or.inl
  have hsymm : Std.Symm fun x y => less x y = true ∨ less y x = true := ⟨fun _ _ hxy => hxy.symm⟩
  rcases hcompare.forall (hperm.mem_iff.mp hx) hy hne with hless | hless
  · simp [hless] at hyx
  · simp [hless] at hxy

end Flat

end Lob.Lib.Scan
