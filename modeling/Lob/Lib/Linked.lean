/-
# Lob.Lib.Linked — lists threaded through an index memory.

An intrusive list keeps its links in the cells it links: `next i` names the cell after `i`, `prev i`
the cell before, and a reserved index ends the chain.  `Forward next n xs` says that following
`next` visits the cells `xs` in order and leaves to `n`; `Backward prev p xs` is the mirror image,
entered from `p`.  Splitting the two directions lets a singly linked free list and a doubly linked
queue share every lemma.

Each operation on the memory is met by two kinds of lemma: a frame lemma (links that agree on the
cells of a list keep it) and a surgery lemma (appending at the tail, cutting one cell out).
-/
import Mathlib.Data.List.Nodup

namespace Lob.Lib.Linked

variable {ι : Type*}

/-- Following `next` visits `xs` in order and leaves to `n`. -/
def Forward (next : ι → ι) (n : ι) : List ι → Prop
  | [] => True
  | x :: xs => next x = xs.headD n ∧ Forward next n xs

/-- Each cell of `xs` points back at the one before it, the first at `p`. -/
def Backward (prev : ι → ι) : ι → List ι → Prop
  | _, [] => True
  | p, x :: xs => prev x = p ∧ Backward prev x xs

section

variable {next next' prev prev' : ι → ι} {n p : ι} {xs ys : List ι}

/-! ## Frames -/

/-- A forward chain only reads the links of its own cells. -/
theorem Forward.congr (h : Forward next n xs) (heq : ∀ x ∈ xs, next' x = next x) :
    Forward next' n xs := by
  induction xs with
  | nil => trivial
  | cons x xs ih =>
    exact ⟨(heq x (by simp)).trans h.1, ih h.2 fun y hy => heq y (List.mem_cons_of_mem _ hy)⟩

/-- A backward chain only reads the links of its own cells. -/
theorem Backward.congr (h : Backward prev p xs) (heq : ∀ x ∈ xs, prev' x = prev x) :
    Backward prev' p xs := by
  induction xs generalizing p with
  | nil => trivial
  | cons x xs ih =>
    exact ⟨(heq x (by simp)).trans h.1, ih h.2 fun y hy => heq y (List.mem_cons_of_mem _ hy)⟩

/-! ## Concatenation -/

theorem forward_append :
    Forward next n (xs ++ ys) ↔ Forward next (ys.headD n) xs ∧ Forward next n ys := by
  induction xs with
  | nil => simp [Forward]
  | cons x xs ih =>
    simp only [List.cons_append, Forward, ih, and_assoc]
    cases xs <;> simp

theorem backward_append :
    Backward prev p (xs ++ ys) ↔ Backward prev p xs ∧ Backward prev (xs.getLastD p) ys := by
  induction xs generalizing p with
  | nil => simp [Backward]
  | cons x xs ih =>
    simp only [List.cons_append, Backward, ih, and_assoc]
    cases xs <;> simp [List.getLastD]

/-- In the middle of a chain both neighbours are named. -/
theorem Forward.next_mid {x : ι} (h : Forward next n (xs ++ x :: ys)) : next x = ys.headD n :=
  (forward_append.mp h).2.1

theorem Backward.prev_mid {x : ι} (h : Backward prev p (xs ++ x :: ys)) :
    prev x = xs.getLastD p :=
  (backward_append.mp h).2.1

/-- A link of a chain stays in it or leaves at its end. -/
theorem Forward.next_mem {x : ι} (h : Forward next n xs) (hx : x ∈ xs) :
    next x = n ∨ next x ∈ xs := by
  obtain ⟨front, back, rfl⟩ := List.append_of_mem hx
  rw [h.next_mid]
  cases back with
  | nil => exact Or.inl rfl
  | cons y back => exact Or.inr (by simp)

theorem Backward.prev_mem {x : ι} (h : Backward prev p xs) (hx : x ∈ xs) :
    prev x = p ∨ prev x ∈ xs := by
  obtain ⟨front, back, rfl⟩ := List.append_of_mem hx
  rw [h.prev_mid]
  rcases List.eq_nil_or_concat front with rfl | ⟨zs, z, rfl⟩
  · exact Or.inl rfl
  · exact Or.inr (by simp)

/-- Two chains from one head to one end are the same chain. -/
theorem Forward.unique (hx : Forward next n xs) (hy : Forward next n ys) (hhead : xs.headD n = ys.headD n)
    (hxn : ∀ x ∈ xs, x ≠ n) (hyn : ∀ y ∈ ys, y ≠ n) : xs = ys := by
  induction xs generalizing ys with
  | nil =>
    cases ys with
    | nil => rfl
    | cons y ys => exact absurd hhead.symm (hyn y List.mem_cons_self)
  | cons x xs ih =>
    cases ys with
    | nil => exact absurd hhead (hxn x List.mem_cons_self)
    | cons y ys =>
      obtain rfl : x = y := hhead
      rw [ih hx.2 hy.2 (hx.1.symm.trans hy.1) (fun z hz => hxn z (List.mem_cons_of_mem _ hz))
        fun z hz => hyn z (List.mem_cons_of_mem _ hz)]

/-- Retargeting the last link retargets the whole chain. -/
theorem Forward.retarget {n' : ι} {x : ι} (h : Forward next n (xs ++ [x]))
    (heq : ∀ y ∈ xs, next' y = next y) (hx : next' x = n') : Forward next' n' (xs ++ [x]) := by
  obtain ⟨hxs, -⟩ := forward_append.mp h
  exact forward_append.mpr ⟨hxs.congr heq, hx, trivial⟩

/-! ## Surgery -/

/-- Hang a cell `s` after the last one: the old last link and the links of `s` change. -/
theorem Forward.append_last {s : ι} (h : Forward next n xs) (hnd : (xs ++ [s]).Nodup)
    (hlast : ∀ l ∈ xs.getLast?, next' l = s) (hs : next' s = n)
    (heq : ∀ y ∈ xs, y ∉ xs.getLast? → next' y = next y) : Forward next' n (xs ++ [s]) := by
  rcases List.eq_nil_or_concat xs with rfl | ⟨zs, l, rfl⟩
  · exact ⟨hs, trivial⟩
  · have hl : next' l = s := hlast l (by simp)
    have hzs : ∀ y ∈ zs, next' y = next y := by
      intro y hy
      refine heq y (by simp [hy]) ?_
      simp only [List.concat_eq_append, List.getLast?_append, List.getLast?_singleton,
        Option.some_or, Option.mem_some_iff]
      rintro rfl
      simp only [List.concat_eq_append, List.append_assoc] at hnd
      exact (List.disjoint_of_nodup_append hnd) hy (by simp)
    simp only [List.concat_eq_append] at h ⊢
    exact forward_append.mpr ⟨h.retarget hzs hl, hs, trivial⟩

theorem Backward.append_last {s : ι} (h : Backward prev p xs)
    (hs : prev' s = xs.getLastD p) (heq : ∀ y ∈ xs, prev' y = prev y) :
    Backward prev' p (xs ++ [s]) :=
  backward_append.mpr ⟨h.congr heq, hs, trivial⟩

/-- Cut `s` out: the link of the cell before it skips to the cell after it. -/
theorem Forward.unlink {s : ι} (h : Forward next n (xs ++ s :: ys)) (hnd : (xs ++ s :: ys).Nodup)
    (hlast : ∀ l ∈ xs.getLast?, next' l = ys.headD n)
    (heq : ∀ y ∈ xs ++ ys, y ∉ xs.getLast? → next' y = next y) : Forward next' n (xs ++ ys) := by
  obtain ⟨hxs, hsys⟩ := forward_append.mp h
  have hdis : ∀ y ∈ ys, y ∉ xs := fun y hy hyx =>
    (List.disjoint_of_nodup_append hnd) hyx (by simp [hy])
  have hys : Forward next' n ys := by
    refine hsys.2.congr fun y hy => heq y (by simp [hy]) fun hlast => ?_
    exact hdis y hy (List.mem_of_getLast? hlast)
  rcases List.eq_nil_or_concat xs with rfl | ⟨zs, l, rfl⟩
  · exact hys
  · simp only [List.concat_eq_append] at hnd hxs hlast heq ⊢
    refine forward_append.mpr ⟨hxs.retarget ?_ (hlast l (by simp)), hys⟩
    intro y hy
    refine heq y (by simp [hy]) ?_
    simp only [List.getLast?_append, List.getLast?_singleton, Option.some_or, Option.mem_some_iff]
    rintro rfl
    rw [List.append_assoc] at hnd
    exact (List.disjoint_of_nodup_append hnd) hy (by simp)

theorem Backward.unlink {s : ι} (h : Backward prev p (xs ++ s :: ys))
    (hnd : (xs ++ s :: ys).Nodup)
    (hhead : ∀ l ∈ ys.head?, prev' l = xs.getLastD p)
    (heq : ∀ y ∈ xs ++ ys, y ∉ ys.head? → prev' y = prev y) : Backward prev' p (xs ++ ys) := by
  obtain ⟨hxs, hsys⟩ := backward_append.mp h
  have hdis : ∀ y ∈ xs, y ∉ ys := fun y hy hys =>
    (List.disjoint_of_nodup_append hnd) hy (by simp [hys])
  refine backward_append.mpr ⟨hxs.congr fun y hy => heq y (by simp [hy]) fun hhd => ?_, ?_⟩
  · exact hdis y hy (List.mem_of_mem_head? hhd)
  · cases ys with
    | nil => trivial
    | cons y ys =>
      refine ⟨hhead y (by simp), hsys.2.2.congr fun z hz => heq z (by simp [hz]) ?_⟩
      simp only [List.head?_cons, Option.mem_some_iff]
      rintro rfl
      have := (List.nodup_append.mp hnd).2.1
      simp only [List.nodup_cons] at this
      exact this.2.1 hz

end

end Lob.Lib.Linked
