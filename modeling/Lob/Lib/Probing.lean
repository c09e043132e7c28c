/-
# Lob.Lib.Probing — open addressing with linear probing and backward-shift deletion.

A table of `cap` cells holds key-value pairs; each key has a home cell, and a key is looked for by
walking forward from its home, around the end of the table, until it or an unused cell is met.  The
invariant is `Probed`: every cell between a key's home and its own cell is used.

Walking is measured by the cyclic distance `dist cap a b`, and every fact about order along the cycle
is a fact about distances, which `omega` settles once the two cases of `dist_cases` are given.

Deletion empties a cell and pulls later entries back into the hole.  `Gap` is its loop invariant: the
hole may be crossed only by entries the scan has not reached yet.
-/
import Mathlib.Algebra.Ring.Nat
import Mathlib.Data.List.Nodup
import Mathlib.Data.Nat.Find
import Mathlib.Logic.Function.Basic

namespace Lob.Lib.Probing

/-! ## The cycle of cells -/

/-- Steps forward from `a` to `b`. -/
def dist (cap a b : Nat) : Nat := if a ≤ b then b - a else b + cap - a

/-- The cell after `i`. -/
def next (cap i : Nat) : Nat := if i + 1 = cap then 0 else i + 1

theorem dist_cases (cap a b : Nat) :
    (a ≤ b ∧ dist cap a b = b - a) ∨ (b < a ∧ dist cap a b = b + cap - a) := by
  unfold dist
  split <;> omega

theorem next_cases (cap i : Nat) :
    (i + 1 = cap ∧ next cap i = 0) ∨ (i + 1 ≠ cap ∧ next cap i = i + 1) := by
  unfold next
  split <;> omega

variable {cap : Nat}

theorem dist_lt {a b : Nat} (ha : a < cap) (hb : b < cap) : dist cap a b < cap := by
  have := dist_cases cap a b
  omega

@[simp] theorem dist_self (cap a : Nat) : dist cap a a = 0 := by simp [dist]

theorem dist_inj {a b c : Nat} (ha : a < cap) (hb : b < cap) (hc : c < cap)
    (h : dist cap a b = dist cap a c) : b = c := by
  have h1 := dist_cases cap a b
  have h2 := dist_cases cap a c
  omega

theorem next_lt {i : Nat} (hi : i < cap) : next cap i < cap := by
  have := next_cases cap i
  omega

/-- A path that passes `j`, inside the run from `start` to `last`, and does not end in what follows `j` in
the run, passes `last`. -/
theorem dist_last_lt {start last h i j : Nat} (hs : start < cap) (hl : last < cap) (hh : h < cap)
    (hi : i < cap) (hpass : dist cap h j < dist cap h i)
    (hrun : dist cap start j < dist cap start last) (hne : i ≠ last)
    (hout : ¬ (dist cap start j < dist cap start i ∧ dist cap start i < dist cap start last)) :
    dist cap h last < dist cap h i := by
  have h1 := dist_cases cap start i
  have h2 := dist_cases cap start j
  have h3 := dist_cases cap start last
  have h4 := dist_cases cap h j
  have h5 := dist_cases cap h i
  have h6 := dist_cases cap h last
  omega

/-! ## Walking to a stop -/

/-- Walk forward from `i` until `stop`, at most `fuel` cells; `none` when the walk goes on. -/
def walkUntil (stop : Nat → Bool) (step : Nat → Nat) : Nat → Nat → Option Nat
  | 0, _ => none
  | fuel + 1, i => if stop i then some i else walkUntil stop step fuel (step i)

/-- The walk ends at the first stop. -/
theorem walkUntil_eq {stop : Nat → Bool} {step : Nat → Nat} {a b fuel : Nat}
    (hstep : ∀ i < cap, step i = next cap i) (ha : a < cap) (hb : b < cap)
    (hfuel : dist cap a b < fuel) (hstop : stop b = true)
    (hbefore : ∀ m < cap, dist cap a m < dist cap a b → stop m = false) :
    walkUntil stop step fuel a = some b := by
  induction fuel generalizing a with
  | zero => omega
  | succ fuel ih =>
    unfold walkUntil
    by_cases hab : a = b
    · rw [← hab] at hstop ⊢
      rw [if_pos hstop]
    · have hd := dist_cases cap a b
      have hn := next_cases cap a
      have hnd := dist_cases cap (next cap a) b
      rw [if_neg (by rw [hbefore a ha (by simp; omega)]; simp), hstep a ha]
      refine ih (next_lt ha) (by omega) fun m hm hlt => hbefore m hm ?_
      have h1 := dist_cases cap (next cap a) m
      have h2 := dist_cases cap a m
      omega

/-- From any cell, the nearest cell with a property that some cell has. -/
theorem exists_nearest {q : Nat → Prop} {a : Nat} (h : ∃ b < cap, q b) :
    ∃ b < cap, q b ∧ ∀ m < cap, dist cap a m < dist cap a b → ¬ q m := by
  classical
  have hex : ∃ d, ∃ b < cap, q b ∧ dist cap a b = d := by
    obtain ⟨b, hb, hq⟩ := h
    exact ⟨_, b, hb, hq, rfl⟩
  obtain ⟨b, hb, hq, hd⟩ := Nat.find_spec hex
  refine ⟨b, hb, hq, fun m hm hlt hqm => ?_⟩
  rw [hd] at hlt
  exact Nat.find_min hex hlt ⟨m, hm, hqm, rfl⟩

/-! ## Tables -/

variable {κ υ : Type*} {home : κ → Nat} {c : Nat → Option (κ × υ)}

/-- The entries of the first `cap` cells. -/
def content (cap : Nat) (c : Nat → Option (κ × υ)) : List (κ × υ) := (List.range cap).filterMap c

theorem mem_content {e : κ × υ} : e ∈ content cap c ↔ ∃ i < cap, c i = some e := by
  simp [content]

/-- A key sits in one cell, and every cell from its home up to that one is used. -/
structure Probed (cap : Nat) (home : κ → Nat) (c : Nat → Option (κ × υ)) : Prop where
  home_lt : ∀ k, home k < cap
  inj : ∀ i < cap, ∀ j < cap, ∀ k v w, c i = some (k, v) → c j = some (k, w) → i = j
  reach : ∀ i < cap, ∀ k v, c i = some (k, v) →
    ∀ m < cap, dist cap (home k) m < dist cap (home k) i → c m ≠ none

theorem Probed.nodup_keys (h : Probed cap home c) : ((content cap c).map Prod.fst).Nodup := by
  unfold content List.Nodup
  rw [List.pairwise_map, List.pairwise_filterMap]
  refine List.Pairwise.imp_of_mem ?_ List.nodup_range
  rintro i j hi hj hij ⟨k, v⟩ hv ⟨k', w⟩ hw rfl
  rw [List.mem_range] at hi hj
  exact hij (h.inj i hi j hj k v w hv hw)

/-- Writing an entry into an empty cell adds it to the content. -/
theorem content_update_some {i : Nat} (hi : i < cap) (hc : c i = none) (e : κ × υ) :
    (content cap (Function.update c i (some e))).Perm (e :: content cap c) := by
  unfold content
  induction cap with
  | zero => omega
  | succ n ih =>
    rw [List.range_succ, List.filterMap_append, List.filterMap_append]
    by_cases hin : i = n
    · subst hin
      have hcongr : (List.range i).filterMap (Function.update c i (some e))
          = (List.range i).filterMap c := by
        refine List.filterMap_congr fun m hm => Function.update_of_ne ?_ _ _
        rw [List.mem_range] at hm
        omega
      rw [hcongr]
      simp only [List.filterMap_cons, Function.update_self, List.filterMap_nil, hc,
        List.append_nil]
      exact List.perm_append_singleton _ _
    · have hlast : [n].filterMap (Function.update c i (some e)) = [n].filterMap c := by
        rw [List.filterMap_cons, List.filterMap_cons, Function.update_of_ne (Ne.symm hin)]
        cases c n <;> rfl
      rw [hlast, ← List.cons_append]
      exact (ih (by omega)).append_right _

/-- Emptying a cell takes its entry out of the content. -/
theorem content_update_none {i : Nat} (hi : i < cap) {e : κ × υ} (hc : c i = some e) :
    (content cap c).Perm (e :: content cap (Function.update c i none)) := by
  have hempty : Function.update c i none i = none := Function.update_self ..
  have := content_update_some hi hempty e
  rwa [Function.update_idem, ← hc, Function.update_eq_self] at this

/-- A table with fewer entries than cells has an unused cell. -/
theorem exists_unused (h : (content cap c).length < cap) : ∃ i < cap, c i = none := by
  by_contra hall
  push Not at hall
  have hlen : (content cap c).length = (List.range cap).length := by
    unfold content
    have : ∀ xs : List Nat, (∀ i ∈ xs, c i ≠ none) → (xs.filterMap c).length = xs.length := by
      intro xs
      induction xs with
      | nil => intro _; rfl
      | cons x xs ih =>
        intro hx
        obtain ⟨e, he⟩ := Option.ne_none_iff_exists'.mp (hx x (by simp))
        rw [List.filterMap_cons, he]
        simp [ih fun i hi => hx i (by simp [hi])]
    exact this _ fun i hi => hall i (List.mem_range.mp hi)
  rw [List.length_range] at hlen
  omega

/-! ## Search and insertion -/

/-- Walking from the home of a present key stops at its cell first. -/
theorem Probed.before_found (h : Probed cap home c) {i : Nat} (hi : i < cap) {k : κ} {v : υ}
    (hc : c i = some (k, v)) {m : Nat} (hm : m < cap)
    (hlt : dist cap (home k) m < dist cap (home k) i) : ∃ k' w, c m = some (k', w) ∧ k' ≠ k := by
  obtain ⟨⟨k', w⟩, hw⟩ := Option.ne_none_iff_exists'.mp (h.reach i hi k v hc m hm hlt)
  refine ⟨k', w, hw, ?_⟩
  rintro rfl
  rw [h.inj m hm i hi k' w v hw hc] at hlt
  omega

/-- **Insertion.** A new key goes into the first unused cell from its home. -/
theorem Probed.insert (h : Probed cap home c) {k : κ} {v : υ} {i : Nat}
    (habs : ∀ w, (k, w) ∉ content cap c)
    (hbefore : ∀ m < cap, dist cap (home k) m < dist cap (home k) i → c m ≠ none) :
    Probed cap home (Function.update c i (some (k, v))) := by
  have habs' : ∀ j < cap, ∀ w, c j ≠ some (k, w) := fun j hj w hw =>
    habs w (mem_content.mpr ⟨j, hj, hw⟩)
  have hgrow : ∀ m, c m ≠ none → Function.update c i (some (k, v)) m ≠ none := by
    intro m hm
    by_cases hmi : m = i
    · rw [hmi, Function.update_self]; simp
    · rwa [Function.update_of_ne hmi]
  refine ⟨h.home_lt, ?_, ?_⟩
  · intro a ha b hb k' x y hx hy
    by_cases hai : a = i <;> by_cases hbi : b = i
    · rw [hai, hbi]
    · rw [hai, Function.update_self] at hx
      rw [Function.update_of_ne hbi] at hy
      simp only [Option.some.injEq, Prod.mk.injEq] at hx
      exact absurd (hx.1 ▸ hy) (habs' b hb y)
    · rw [Function.update_of_ne hai] at hx
      rw [hbi, Function.update_self] at hy
      simp only [Option.some.injEq, Prod.mk.injEq] at hy
      exact absurd (hy.1 ▸ hx) (habs' a ha x)
    · rw [Function.update_of_ne hai] at hx
      rw [Function.update_of_ne hbi] at hy
      exact h.inj a ha b hb k' x y hx hy
  · intro a ha k' x hx m hm hlt
    by_cases hai : a = i
    · rw [hai, Function.update_self] at hx
      simp only [Option.some.injEq, Prod.mk.injEq] at hx
      rw [hai, ← hx.1] at hlt
      exact hgrow m (hbefore m hm hlt)
    · rw [Function.update_of_ne hai] at hx
      exact hgrow m (h.reach a ha k' x hx m hm hlt)

/-! ## Backward-shift deletion -/

/-- The source's test that an entry with home `h` at cell `j` may stay behind a hole: its home lies
cyclically in `(hole, j]`. -/
def stays (hole h j : Nat) : Bool :=
  if hole ≤ j then decide (hole < h) && decide (h ≤ j) else decide (hole < h) || decide (h ≤ j)

theorem stays_iff {hole h j : Nat} (hh : h < cap) (hhole : hole < cap) :
    stays hole h j ↔ dist cap h j < dist cap hole j := by
  have h1 := dist_cases cap h j
  have h2 := dist_cases cap hole j
  unfold stays
  split <;> simp only [Bool.and_eq_true, Bool.or_eq_true, decide_eq_true_eq] <;> omega

/-- The loop invariant of a deletion that started by emptying cell `start`: the scan stands at `j`,
`last` is the unused cell that ends the run, and only entries the scan has yet to reach may be cut
off from their homes, and then by the hole alone. -/
structure Gap (cap : Nat) (home : κ → Nat) (c : Nat → Option (κ × υ))
    (start last hole j : Nat) : Prop where
  home_lt : ∀ k, home k < cap
  start_lt : start < cap
  last_lt : last < cap
  hole_lt : hole < cap
  j_lt : j < cap
  hole_before : dist cap start hole < dist cap start j
  j_le : dist cap start j ≤ dist cap start last
  hole_empty : c hole = none
  last_empty : c last = none
  filled : ∀ m < cap, dist cap start m < dist cap start last → m ≠ hole → c m ≠ none
  inj : ∀ i < cap, ∀ j < cap, ∀ k v w, c i = some (k, v) → c j = some (k, w) → i = j
  reach : ∀ i < cap, ∀ k v, c i = some (k, v) → ∀ m < cap,
    dist cap (home k) m < dist cap (home k) i → c m ≠ none ∨
      (m = hole ∧ dist cap start j ≤ dist cap start i ∧ dist cap start i < dist cap start last)

variable {start last hole j : Nat}

/-- Emptying a cell of a probed table opens the gap. -/
theorem Probed.openGap (h : Probed cap home c) (hs : start < cap) (hc : c start ≠ none)
    (hl : last < cap) (hlast : c last = none)
    (hrun : ∀ m < cap, dist cap start m < dist cap start last → c m ≠ none) :
    Gap cap home (Function.update c start none) start last start (next cap start) := by
  have hne : last ≠ start := by rintro rfl; exact hc hlast
  have hdist : dist cap start (next cap start) = 1 := by
    have h1 := dist_cases cap start (next cap start)
    have h2 := next_cases cap start
    have h3 := dist_cases cap start last
    omega
  have hupd : ∀ i k v, Function.update c start none i = some (k, v) →
      i ≠ start ∧ c i = some (k, v) := by
    intro i k v hi
    by_cases his : i = start
    · rw [his, Function.update_self] at hi
      simp at hi
    · rw [Function.update_of_ne his] at hi
      exact ⟨his, hi⟩
  refine ⟨h.home_lt, hs, hl, hs, next_lt hs, by simp [hdist], ?_, by simp, ?_, ?_, ?_, ?_⟩
  · have := dist_cases cap start last
    omega
  · rwa [Function.update_of_ne hne]
  · intro m hm hlt hms
    rw [Function.update_of_ne hms]
    exact hrun m hm hlt
  · intro a ha b hb k v w hv hw
    exact h.inj a ha b hb k v w (hupd _ _ _ hv).2 (hupd _ _ _ hw).2
  · intro i hi k v hv m hm hlt
    obtain ⟨his, hci⟩ := hupd _ _ _ hv
    by_cases hms : m = start
    · right
      refine ⟨hms, ?_, ?_⟩
      · have h1 := dist_cases cap start i
        omega
      · -- the run from `start` to `i` is used, so the unused `last` lies beyond it
        by_contra hge
        have hil : i ≠ last := by rintro rfl; rw [hlast] at hci; simp at hci
        have hd := h.home_lt k
        have h1 := dist_cases cap start i
        have h2 := dist_cases cap start last
        have h3 := dist_cases cap (home k) start
        have h4 := dist_cases cap (home k) i
        have h5 := dist_cases cap (home k) last
        refine h.reach i hi k v hci last hl ?_ hlast
        rw [hms] at hlt
        omega
    · left
      rw [Function.update_of_ne hms]
      exact h.reach i hi k v hci m hm hlt

/-- The scan stands beside the hole, never on it. -/
theorem Gap.hole_ne (h : Gap cap home c start last hole j) : hole ≠ j := by
  rintro rfl
  exact absurd h.hole_before (Nat.lt_irrefl _)

/-- While the scan finds a used cell it has not reached the end of the run. -/
theorem Gap.j_lt_last (h : Gap cap home c start last hole j) (hj : c j ≠ none) :
    dist cap start j < dist cap start last := by
  refine Nat.lt_of_le_of_ne h.j_le fun heq => hj ?_
  rw [dist_inj h.start_lt h.j_lt h.last_lt heq]
  exact h.last_empty

theorem Gap.dist_next (h : Gap cap home c start last hole j) (hj : c j ≠ none) :
    dist cap start (next cap j) = dist cap start j + 1 := by
  have h0 := h.start_lt
  have h1 := h.last_lt
  have h2 := h.j_lt
  have h3 := h.j_lt_last hj
  have h4 := dist_cases cap start j
  have h5 := next_cases cap j
  have h6 := dist_cases cap start (next cap j)
  have h7 := dist_cases cap start last
  omega

/-- **An entry that may stay is passed over.** -/
theorem Gap.stay (h : Gap cap home c start last hole j) {k : κ} {v : υ} (hj : c j = some (k, v))
    (hstay : stays hole (home k) j) : Gap cap home c start last hole (next cap j) := by
  have hjn : c j ≠ none := by rw [hj]; simp
  have hd := h.dist_next hjn
  have hlt := h.j_lt_last hjn
  have hbefore := h.hole_before
  rw [stays_iff (h.home_lt k) h.hole_lt] at hstay
  refine ⟨h.home_lt, h.start_lt, h.last_lt, h.hole_lt, next_lt h.j_lt, by omega, by omega,
    h.hole_empty, h.last_empty, h.filled, h.inj, ?_⟩
  intro i hi k' w hw m hm hmlt
  rcases h.reach i hi k' w hw m hm hmlt with hne | ⟨rfl, hle, hil⟩
  · exact Or.inl hne
  · right
    refine ⟨rfl, ?_, hil⟩
    by_cases hij : i = j
    · -- the entry at `j` has its home past the hole
      exfalso
      rw [hij, hj] at hw
      simp only [Option.some.injEq, Prod.mk.injEq] at hw
      rw [hij, ← hw.1] at hmlt
      have := h.home_lt k
      have := h.j_lt
      have h1 := dist_cases cap (home k) m
      have h2 := dist_cases cap (home k) j
      have h3 := dist_cases cap m j
      omega
    · have hne : dist cap start j ≠ dist cap start i := fun heq =>
        hij (dist_inj h.start_lt h.j_lt hi heq).symm
      omega

/-- **An entry cut off from its home moves into the hole**, and leaves the hole behind it. -/
theorem Gap.move (h : Gap cap home c start last hole j) {k : κ} {v : υ} (hj : c j = some (k, v))
    (hstay : ¬ stays hole (home k) j) :
    Gap cap home (Function.update (Function.update c hole (some (k, v))) j none)
      start last j (next cap j) := by
  have hjn : c j ≠ none := by rw [hj]; simp
  have hd := h.dist_next hjn
  have hlt := h.j_lt_last hjn
  have hbefore := h.hole_before
  have hne := h.hole_ne
  have hhome := h.home_lt k
  have hs := h.start_lt
  have hl := h.last_lt
  have hh := h.hole_lt
  have hjc := h.j_lt
  rw [stays_iff hhome hh] at hstay
  have hlast_ne : last ≠ hole ∧ last ≠ j := by
    constructor <;> rintro rfl <;> omega
  -- what the two writes leave at each cell
  have hat_hole : Function.update (Function.update c hole (some (k, v))) j none hole
      = some (k, v) := by rw [Function.update_of_ne hne, Function.update_self]
  have hat : ∀ i, i ≠ hole → i ≠ j →
      Function.update (Function.update c hole (some (k, v))) j none i = c i := by
    intro i hi1 hi2
    rw [Function.update_of_ne hi2, Function.update_of_ne hi1]
  have hinv : ∀ i k' w,
      Function.update (Function.update c hole (some (k, v))) j none i = some (k', w) →
      (i = hole ∧ k' = k) ∨ (i ≠ hole ∧ i ≠ j ∧ c i = some (k', w)) := by
    intro i k' w hi
    by_cases hij : i = j
    · rw [hij, Function.update_self] at hi
      simp at hi
    · by_cases hih : i = hole
      · rw [hih, hat_hole] at hi
        simp only [Option.some.injEq, Prod.mk.injEq] at hi
        exact Or.inl ⟨hih, hi.1.symm⟩
      · rw [hat i hih hij] at hi
        exact Or.inr ⟨hih, hij, hi⟩
  refine ⟨h.home_lt, hs, hl, hjc, next_lt hjc, by omega, by omega, by simp, ?_, ?_, ?_, ?_⟩
  · rw [hat last hlast_ne.1 hlast_ne.2]
    exact h.last_empty
  · intro m hm hmlt hmj
    by_cases hmh : m = hole
    · rw [hmh, hat_hole]; simp
    · rw [hat m hmh hmj]
      exact h.filled m hm hmlt hmh
  · intro a ha b hb k' x y hx hy
    rcases hinv a k' x hx with ⟨rfl, rfl⟩ | ⟨ha1, ha2, hxa⟩ <;>
      rcases hinv b k' y hy with ⟨rfl, hkb⟩ | ⟨hb1, hb2, hyb⟩
    · rfl
    · exact absurd (h.inj b hb j hjc k' y v hyb hj) hb2
    · rw [hkb] at hxa
      exact absurd (h.inj a ha j hjc k x v hxa hj) ha2
    · exact h.inj a ha b hb k' x y hxa hyb
  · intro i hi k' w hw m hm hmlt
    rcases hinv i k' w hw with ⟨rfl, rfl⟩ | ⟨hih, hij, hci⟩
    · -- the moved entry: its path to the hole is the start of its path to `j`
      left
      have h1 := dist_cases cap (home k') i
      have h2 := dist_cases cap (home k') j
      have h3 := dist_cases cap i j
      have h4 := dist_cases cap (home k') m
      have hmj : m ≠ j := by rintro rfl; omega
      have hmi : m ≠ i := by rintro rfl; omega
      rw [hat m hmi hmj]
      rcases h.reach j hjc k' v hj m hm (by omega) with hcm | ⟨hmi', -⟩
      · exact hcm
      · exact absurd hmi' hmi
    · by_cases hmj : m = j
      · -- a path across `j` that does not end inside the run would cross `last`
        right
        rw [hmj] at hmlt
        have hil : i ≠ last := by
          rintro rfl
          rw [h.last_empty] at hci
          simp at hci
        by_cases hin : dist cap start j < dist cap start i ∧ dist cap start i < dist cap start last
        · exact ⟨hmj, by omega, hin.2⟩
        · exfalso
          have hpass := dist_last_lt hs hl (h.home_lt k') hi hmlt hlt hil hin
          rcases h.reach i hi k' w hci last hl hpass with hcl | ⟨hcl, -⟩
          · exact hcl h.last_empty
          · exact hlast_ne.1 hcl
      · left
        by_cases hmh : m = hole
        · rw [hmh, hat_hole]; simp
        · rw [hat m hmh hmj]
          rcases h.reach i hi k' w hci m hm hmlt with hcm | ⟨hcm, -⟩
          · exact hcm
          · exact absurd hcm hmh

/-- **At the end of the run nothing is cut off.** -/
theorem Gap.finish (h : Gap cap home c start last hole j) (hj : c j = none) :
    Probed cap home c := by
  have hend : j = last := by
    refine dist_inj h.start_lt h.j_lt h.last_lt (Nat.le_antisymm h.j_le ?_)
    by_contra hlt
    exact h.filled j h.j_lt (by omega) (Ne.symm h.hole_ne) hj
  refine ⟨h.home_lt, h.inj, fun i hi k v hv m hm hmlt => ?_⟩
  rcases h.reach i hi k v hv m hm hmlt with hne | ⟨-, hle, hlt⟩
  · exact hne
  · rw [hend] at hle
    omega

/-- Moving an entry into the hole keeps the content. -/
theorem Gap.content_move (h : Gap cap home c start last hole j) {k : κ} {v : υ}
    (hj : c j = some (k, v)) :
    (content cap (Function.update (Function.update c hole (some (k, v))) j none)).Perm
      (content cap c) := by
  have hadd := content_update_some h.hole_lt h.hole_empty (k, v)
  have hdrop : (content cap (Function.update c hole (some (k, v)))).Perm
      ((k, v) :: content cap (Function.update (Function.update c hole (some (k, v))) j none)) :=
    content_update_none h.j_lt (by rw [Function.update_of_ne (Ne.symm h.hole_ne), hj])
  exact (hdrop.symm.trans hadd).cons_inv

end Lob.Lib.Probing
