/-
# Lob.PriceLadderRefine — a ladder is an ordered map of levels, operation by operation.

`Represents l m` ties a ladder to the ranked list `m` of its levels.  An empty level may be listed in
`m`: `openLevel` lists a level before its first order arrives, and a sweep empties a level before
`closed` is called.  Between calls every listed level holds orders (`AllOccupied`), and then `m` is
exactly what `forEachLevel` visits.
-/
import Lob.PriceLadder
import Mathlib.Data.List.TakeWhile
import Mathlib.Data.List.Perm.Subperm

namespace Lob

open Lib.Ranked

namespace PriceLadder

variable {isBid : Bool} {l l' : PriceLadder isBid} {m : List (Price × PriceLevel)}

/-- The part of `m` inside the window. -/
def inside (l : PriceLadder isBid) (m : List (Price × PriceLevel)) : List (Price × PriceLevel) :=
  m.filter fun e => l.inWindow e.1

/-- The part of `m` outside the window. -/
def outside (l : PriceLadder isBid) (m : List (Price × PriceLevel)) : List (Price × PriceLevel) :=
  m.filter fun e => !l.inWindow e.1

/-- Where the level at `p` is stored. -/
def refOf (l : PriceLadder isBid) (p : Price) : LevelRef :=
  if l.inWindow p then .window (l.index p) else .overflow p

/-- The ladder holds exactly the levels `m`. -/
structure Represents (l : PriceLadder isBid) (m : List (Price × PriceLevel)) : Prop where
  sorted : Sorted (better isBid) m
  fits : l.Fits
  limit_le : l.limit ≤ l.windowSize
  window : ∀ i < l.limit, l.window i = (m.lookup (l.priceAt i)).getD {}
  beyond : ∀ i, l.limit ≤ i → l.window i = {}
  overflow : l.overflow.entries = l.outside m
  occupied : l.occupied = (l.inside m).length
  best : ∀ e ∈ (l.inside m).head?, l.bestIdx = l.index e.1

/-- Every listed level has an order in its queue. -/
def AllOccupied (m : List (Price × PriceLevel)) : Prop := ∀ e ∈ m, e.2.empty = false

/-- The window has not moved. -/
structure SameWindow (l l' : PriceLadder isBid) : Prop where
  lo : l'.lo = l.lo
  limit : l'.limit = l.limit
  size : l'.windowSize = l.windowSize
  placed : l'.isPlaced = l.isPlaced

theorem SameWindow.refl (l : PriceLadder isBid) : SameWindow l l := ⟨rfl, rfl, rfl, rfl⟩

theorem SameWindow.trans {l'' : PriceLadder isBid} (h : SameWindow l l') (h' : SameWindow l' l'') :
    SameWindow l l'' :=
  ⟨h'.lo.trans h.lo, h'.limit.trans h.limit, h'.size.trans h.size, h'.placed.trans h.placed⟩

theorem SameWindow.inWindow (h : SameWindow l l') (p : Price) :
    l'.inWindow p = l.inWindow p := by
  unfold PriceLadder.inWindow
  rw [h.lo, h.limit]

theorem SameWindow.refOf (h : SameWindow l l') (p : Price) : l'.refOf p = l.refOf p := by
  unfold PriceLadder.refOf index
  rw [h.inWindow, h.lo]

/-! ## Reading -/

theorem Represents.inside_sorted (h : l.Represents m) : Sorted (better isBid) (l.inside m) :=
  h.sorted.filter _

theorem Represents.lookup_window (h : l.Represents m) {p : Price} (hp : l.inWindow p) :
    l.window (l.index p) = (m.lookup p).getD {} := by
  rw [h.window _ (index_lt hp), priceAt_index h.fits hp]

theorem Represents.lookup_overflow (h : l.Represents m) {p : Price} (hp : ¬ l.inWindow p) :
    l.overflow.find p = m.lookup p := by
  rw [RankedMap.find, h.overflow, outside, h.sorted.lookup_filter (fun q => !l.inWindow q)]
  simp [hp]

/-- Reading a listed level through its reference. -/
theorem Represents.deref (h : l.Represents m) {p : Price} {level : PriceLevel}
    (hm : (p, level) ∈ m) : l.deref (l.refOf p) = level := by
  have hl : m.lookup p = some level := h.sorted.lookup_eq_some.mpr hm
  by_cases hp : l.inWindow p
  · simp only [refOf, hp, if_true, PriceLadder.deref, h.lookup_window hp, hl, Option.getD_some]
  · simp only [refOf, hp, if_false, PriceLadder.deref, h.lookup_overflow hp, hl, Option.getD_some,
      Bool.false_eq_true]

/-- What any reference reads is a listed level or an absent one. -/
theorem Represents.deref_cases (h : l.Represents m) (ref : LevelRef) :
    l.deref ref = {} ∨ ∃ e ∈ m, l.deref ref = e.2 := by
  have hlookup : ∀ (es : List (Price × PriceLevel)) (p : Price), (∀ e ∈ es, e ∈ m) →
      (es.lookup p).getD {} = {} ∨ ∃ e ∈ m, (es.lookup p).getD {} = e.2 := by
    intro es p hes
    cases hl : es.lookup p with
    | none => exact Or.inl rfl
    | some level =>
      obtain ⟨front, back, hsplit, -⟩ := List.lookup_eq_some_iff.mp hl
      exact Or.inr ⟨(p, level), hes _ (by rw [hsplit]; simp), rfl⟩
  cases ref with
  | window i =>
    by_cases hi : i < l.limit
    · show l.window i = {} ∨ ∃ e ∈ m, l.window i = e.2
      rw [h.window i hi]
      exact hlookup m _ fun _ he => he
    · exact Or.inl (h.beyond i (Nat.le_of_not_lt hi))
  | overflow p =>
    show (l.overflow.entries.lookup p).getD {} = {} ∨ ∃ e ∈ m, (l.overflow.entries.lookup p).getD {} = e.2
    rw [h.overflow]
    exact hlookup _ p fun _ he => (List.mem_filter.mp he).1

/-- **`find` is lookup.** -/
theorem Represents.find (h : l.Represents m) (hne : AllOccupied m) (p : Price) :
    l.find p = if (m.lookup p).isSome then some (l.refOf p) else none := by
  unfold PriceLadder.find
  by_cases hp : l.inWindow p
  · rw [if_pos hp, h.lookup_window hp]
    cases hl : m.lookup p with
    | none => rfl
    | some level =>
      have hocc := hne _ (h.sorted.lookup_eq_some.mp hl)
      simp only [Option.getD_some, Option.isSome_some, refOf, hp, if_true]
      rw [if_neg (by simp [hocc])]
  · rw [if_neg hp, h.lookup_overflow hp]
    cases hl : m.lookup p with
    | none => rfl
    | some level => simp [refOf, hp]

/-- The head of the window part, read through the stored index. -/
theorem Represents.best_inside (h : l.Represents m) :
    (if 0 < l.occupied then some (l.priceAt l.bestIdx, LevelRef.window l.bestIdx) else none)
      = (l.inside m).head?.map fun e => (e.1, l.refOf e.1) := by
  rw [h.occupied]
  cases hw : l.inside m with
  | nil => simp
  | cons e w =>
    have hin : l.inWindow e.1 := by
      have he : e ∈ l.inside m := by rw [hw]; simp
      exact (List.mem_filter.mp he).2
    have hb : l.bestIdx = l.index e.1 := h.best e (by rw [hw]; simp)
    simp only [List.length_cons, Nat.zero_lt_succ, if_true, List.head?_cons, Option.map_some, hb,
      priceAt_index h.fits hin, refOf, hin]

/-- **`best` is the head.** -/
theorem Represents.best_eq (h : l.Represents m) :
    l.best = m.head?.map fun e => (e.1, l.refOf e.1) := by
  unfold PriceLadder.best
  rw [h.best_inside]
  simp only [RankedMap.begin, h.overflow]
  cases m with
  | nil => rfl
  | cons e m =>
    have hbest : ∀ e' ∈ m, better isBid e.1 e'.1 := (sorted_cons.mp h.sorted).1
    by_cases hin : l.inWindow e.1
    · -- the best level is in the window: no outside level beats it
      simp only [inside, outside, List.filter_cons, hin, if_true, Bool.not_true,
        Bool.false_eq_true, if_false, List.head?_cons, Option.map_some]
      cases hout : (m.filter fun e => !l.inWindow e.1).head? with
      | none => rfl
      | some o =>
        have ho : o ∈ m := (List.mem_filter.mp (List.mem_of_mem_head? hout)).1
        simp only [if_neg (asymm_of (better isBid) (hbest o ho))]
    · -- the best level is in the map: it beats whatever the window holds
      simp only [inside, outside, List.filter_cons, hin, if_true, Bool.not_false,
        Bool.false_eq_true, if_false, List.head?_cons, Option.map_some]
      cases hwin : (m.filter fun e => l.inWindow e.1).head? with
      | none => simp [refOf, hin]
      | some o =>
        have ho : o ∈ m := (List.mem_filter.mp (List.mem_of_mem_head? hwin)).1
        simp [refOf, hin, hbest o ho]

theorem Represents.bestPrice (h : l.Represents m) : l.bestPrice = m.head?.map Prod.fst := by
  rw [PriceLadder.bestPrice, h.best_eq, Option.map_map]
  rfl

/-! ## Construction and placement -/

theorem represents_new (n : Nat) : (new isBid n).Represents [] where
  sorted := sorted_nil
  fits := by simp [Fits, new]
  limit_le := Nat.zero_le _
  window i hi := absurd hi (Nat.not_lt_zero i)
  beyond _ _ := rfl
  overflow := rfl
  occupied := rfl
  best := by simp [inside]

theorem place_limit_le (l : PriceLadder isBid) (base : Price) :
    (l.place base).limit ≤ l.windowSize := by
  simp only [place]
  split <;> omega

theorem place_fits (l : PriceLadder isBid) (base : Price) : (l.place base).Fits := by
  have hroom : (maxPrice - base).toNat = 2 ^ 64 - 1 - base.toNat := by
    have hle : base ≤ maxPrice := by
      rw [UInt64.le_iff_toNat_le]
      have := base.toNat_lt
      simp only [maxPrice, UInt64.reduceToNat]
      omega
    rw [UInt64.toNat_sub_of_le _ _ hle]
    rfl
  have hbase := base.toNat_lt
  simp only [Fits, place, hroom]
  split <;> omega

/-- Placing the window of an empty ladder. -/
theorem Represents.place (h : l.Represents []) (base : Price) : (l.place base).Represents [] where
  sorted := sorted_nil
  fits := place_fits l base
  limit_le := place_limit_le l base
  window i _ := by
    by_cases hi : i < l.limit
    · exact h.window i hi
    · exact h.beyond i (Nat.le_of_not_lt hi)
  beyond i _ := by
    by_cases hi : i < l.limit
    · exact h.window i hi
    · exact h.beyond i (Nat.le_of_not_lt hi)
  overflow := h.overflow
  occupied := h.occupied
  best := by simp [inside]

/-! ## Writing a level -/

/-- **`store` rewrites one level.** -/
theorem Represents.store (h : l.Represents m) {p : Price} {level : PriceLevel}
    (hm : (p, level) ∈ m) (level' : PriceLevel) :
    (l.store (l.refOf p) level').Represents (adjust p (fun _ => level') m) := by
  have hlook := h.sorted.lookup_adjust p (fun _ => level')
  have hl : m.lookup p = some level := h.sorted.lookup_eq_some.mpr hm
  have hhead : ∀ w : List (Price × PriceLevel), ∀ e ∈ (adjust p (fun _ => level') w).head?,
      ∃ e' ∈ w.head?, e.1 = e'.1 := by
    intro w e he
    cases w with
    | nil => simp [adjust] at he
    | cons a w =>
      simp only [adjust, List.map_cons, List.head?_cons, Option.mem_some_iff] at he
      exact ⟨a, by simp, by rw [← he]; split <;> rfl⟩
  have hcount : ∀ w : List (Price × PriceLevel),
      (adjust p (fun _ => level') w).length = w.length := fun w => List.length_map _
  by_cases hp : l.inWindow p
  · -- the level is in the array, and the fallback map is as it was
    simp only [refOf, hp, if_true, PriceLadder.store]
    refine ⟨h.sorted.adjust p _, h.fits, h.limit_le, ?_, ?_, ?_, ?_, ?_⟩
    · intro i hi
      simp only [Function.update_apply]
      show _ = ((adjust p (fun _ => level') m).lookup (l.priceAt i)).getD {}
      rw [hlook]
      by_cases hip : i = l.index p
      · rw [if_pos hip, if_pos (by rw [hip, priceAt_index h.fits hp]), hl]
        rfl
      · rw [if_neg hip, if_neg, h.window i hi]
        intro hpi
        exact hip (by rw [← hpi, index_priceAt h.fits hi])
    · intro i hi
      have hne : i ≠ l.index p := by
        have := index_lt hp
        rintro rfl
        exact absurd this (Nat.not_lt.mpr hi)
      simp only [Function.update_apply, if_neg hne]
      exact h.beyond i hi
    · show l.overflow.entries = l.outside _
      rw [h.overflow, outside, outside, filter_adjust p _ (fun q => !l.inWindow q)]
      refine (h.sorted.filter _).ext ((h.sorted.filter _).adjust p _) fun e => ?_
      rw [mem_adjust]
      constructor
      · intro he
        refine Or.inl ⟨he, ?_⟩
        rintro rfl
        have := (List.mem_filter.mp he).2
        simp [hp] at this
      · rintro (⟨he, -⟩ | ⟨v, hv, -⟩)
        · exact he
        · have := (List.mem_filter.mp hv).2
          simp [hp] at this
    · show l.occupied = (l.inside _).length
      rw [h.occupied, inside, inside, filter_adjust p _ l.inWindow, hcount]
    · intro e he
      change e ∈ (l.inside _).head? at he
      rw [inside, filter_adjust p _ l.inWindow] at he
      obtain ⟨e', he', heq⟩ := hhead _ e he
      show l.bestIdx = l.index e.1
      rw [heq]
      exact h.best e' he'
  · -- the level is in the fallback map, and the array is as it was
    simp only [refOf, hp, if_false, PriceLadder.store, Bool.false_eq_true]
    refine ⟨h.sorted.adjust p _, h.fits, h.limit_le, ?_, h.beyond, ?_, ?_, ?_⟩
    · intro i hi
      show l.window i = ((adjust p (fun _ => level') m).lookup (l.priceAt i)).getD {}
      rw [hlook, if_neg, h.window i hi]
      rintro rfl
      exact hp (inWindow_priceAt h.fits hi)
    · show adjust p (fun _ => level') l.overflow.entries = l.outside (adjust p (fun _ => level') m)
      rw [h.overflow, outside, outside, filter_adjust p _ (fun q => !l.inWindow q)]
    · show l.occupied = (l.inside _).length
      rw [h.occupied, inside, inside, filter_adjust p _ l.inWindow, hcount]
    · intro e he
      change e ∈ (l.inside _).head? at he
      rw [inside, filter_adjust p _ l.inWindow] at he
      obtain ⟨e', he', heq⟩ := hhead _ e he
      show l.bestIdx = l.index e.1
      rw [heq]
      exact h.best e' he'

theorem sameWindow_store (l : PriceLadder isBid) (ref : LevelRef) (level : PriceLevel) :
    SameWindow l (l.store ref level) := by
  cases ref <;> exact ⟨rfl, rfl, rfl, rfl⟩

/-! ## Opening a level -/

/-- What opening `p` leaves behind: the level is listed, empty if it was absent. -/
theorem Represents.noteOpened (h : l.Represents m) {p : Price} (hp : l.inWindow p)
    (habs : ∀ v, (p, v) ∉ m) :
    (l.noteOpened (l.index p)).Represents (tryEmplace (better isBid) p {} m) := by
  have habs' : ∀ v, (p, v) ∉ l.inside m := fun v hv => habs v (List.mem_filter.mp hv).1
  have hinside : (l.noteOpened (l.index p)).inside (tryEmplace (better isBid) p {} m)
      = tryEmplace (better isBid) p {} (l.inside m) := by
    have := h.sorted.filter_tryEmplace p ({} : PriceLevel) l.inWindow
    rw [if_pos hp] at this
    exact this
  refine ⟨h.sorted.tryEmplace, h.fits, h.limit_le, ?_, h.beyond, ?_, ?_, ?_⟩
  · intro i hi
    show l.window i = ((tryEmplace (better isBid) p {} m).lookup (l.priceAt i)).getD {}
    rw [h.window i hi, h.sorted.lookup_tryEmplace]
    split
    · rename_i hip
      rw [hip, lookup_eq_none.mpr habs]
      rfl
    · rfl
  · show l.overflow.entries = l.outside (tryEmplace (better isBid) p {} m)
    rw [h.overflow, outside, outside, h.sorted.filter_tryEmplace p {} (fun q => !l.inWindow q)]
    simp [hp]
  · rw [hinside, length_tryEmplace_of_not_mem habs']
    show l.occupied + 1 = _
    rw [h.occupied]
  · intro e he
    rw [hinside] at he
    show (if l.occupied = 0 || indexBetter isBid (l.index p) l.bestIdx then l.index p
      else l.bestIdx) = l.index e.1
    have hin : ∀ a ∈ l.inside m, l.inWindow a.1 := fun a ha => (List.mem_filter.mp ha).2
    have hbest := h.best
    rw [h.occupied]
    cases hw : l.inside m with
    | nil =>
      rw [hw] at he
      simp only [tryEmplace, List.head?_cons, Option.mem_some_iff] at he
      simp [← he]
    | cons a w =>
      have ha : l.inWindow a.1 := hin a (by rw [hw]; simp)
      have hap : a.1 ≠ p := fun heq => habs' a.2 (by rw [hw, ← heq]; simp)
      rw [hbest a (by rw [hw]; simp)]
      rw [hw] at he
      have hiff := better_iff_index hp ha
      simp only [tryEmplace, if_neg hap] at he
      -- `bestIdx` moves exactly when the new price is better than the best
      by_cases hlt : better isBid p a.1
      · simp only [if_pos hlt, List.head?_cons, Option.mem_some_iff] at he
        simp [hiff.mp hlt, ← he]
      · simp only [if_neg hlt, List.head?_cons, Option.mem_some_iff] at he
        rw [hiff] at hlt
        simp [hlt, ← he]

/-- A ladder that differs only in the counter of outside opens represents the same levels. -/
theorem Represents.setOutsideOpens (h : l.Represents m) (n : UInt64) :
    ({ l with outsideOpens := n } : PriceLadder isBid).Represents m :=
  ⟨h.sorted, h.fits, h.limit_le, h.window, h.beyond, h.overflow, h.occupied, h.best⟩

theorem Represents.emplaceOutside (h : l.Represents m) {p : Price} (hp : ¬ l.inWindow p) :
    ({ l with overflow := l.overflow.tryEmplace p {} } : PriceLadder isBid).Represents
      (tryEmplace (better isBid) p {} m) := by
  have hinside : l.inside (tryEmplace (better isBid) p {} m) = l.inside m := by
    have := h.sorted.filter_tryEmplace p ({} : PriceLevel) l.inWindow
    rw [if_neg hp] at this
    exact this
  refine ⟨h.sorted.tryEmplace, h.fits, h.limit_le, ?_, h.beyond, ?_, ?_, ?_⟩
  · intro i hi
    show l.window i = ((tryEmplace (better isBid) p {} m).lookup (l.priceAt i)).getD {}
    rw [h.window i hi, h.sorted.lookup_tryEmplace, if_neg]
    rintro rfl
    exact hp (inWindow_priceAt h.fits hi)
  · show tryEmplace (better isBid) p {} l.overflow.entries = l.outside _
    rw [h.overflow, outside, outside, h.sorted.filter_tryEmplace p {} (fun q => !l.inWindow q),
      if_pos (by simp [hp])]
  · show l.occupied = (l.inside _).length
    rw [hinside, h.occupied]
  · intro e he
    change e ∈ (l.inside _).head? at he
    rw [hinside] at he
    exact h.best e he

/-- The ways `openLevel` can end, and what each leaves behind. -/
inductive Opened (mem : Bool) (l : PriceLadder isBid) (m : List (Price × PriceLevel)) (p : Price) :
    Result (PriceLadder isBid) LevelRef → Prop
  | ok (l' : PriceLadder isBid) (hw : SameWindow l l')
      (hcount : l'.outsideOpens = if l.inWindow p then l.outsideOpens else l.outsideOpens + 1)
      (hmem : l.inWindow p ∨ (m.lookup p).isSome ∨ mem = true)
      (hr : l'.Represents (tryEmplace (better isBid) p {} m)) :
      Opened mem l m p (.ok (l.refOf p) l')
  | noNode (hmem : mem = false) (hout : ¬ l.inWindow p) (habs : m.lookup p = none) :
      Opened mem l m p (.throws .badAlloc { l with outsideOpens := l.outsideOpens + 1 })

/-- **`openLevel` is `try_emplace`** on the levels, wherever the window lies. -/
theorem Represents.openLevel (h : l.Represents m) (mem : Bool) {p : Price}
    (hocc : ∀ v, (p, v) ∈ m → v.empty = false) : Opened mem l m p (l.openLevel mem p) := by
  unfold PriceLadder.openLevel
  by_cases hp : l.inWindow p
  · have href : l.refOf p = .window (l.index p) := by simp [refOf, hp]
    rw [if_pos hp]
    show Opened mem l m p (.ok (.window (l.index p))
      (if (l.window (l.index p)).empty then l.noteOpened (l.index p) else l))
    rw [h.lookup_window hp, ← href]
    cases hl : m.lookup p with
    | some v =>
      have hm := h.sorted.lookup_eq_some.mp hl
      simp only [Option.getD_some, hocc v hm, Bool.false_eq_true, if_false]
      refine .ok l (.refl l) (by simp [hp]) (Or.inl hp) ?_
      rw [tryEmplace_of_mem h.sorted hm]
      exact h
    | none =>
      refine .ok (l.noteOpened (l.index p)) ⟨rfl, rfl, rfl, rfl⟩ ?_ (Or.inl hp)
        (h.noteOpened hp (lookup_eq_none.mp hl))
      rw [if_pos hp]
      rfl
  · have href : l.refOf p = .overflow p := by simp [refOf, hp]
    have h' := h.setOutsideOpens (l.outsideOpens + 1)
    simp only [if_neg hp, h.lookup_overflow hp, ← href]
    cases hl : m.lookup p with
    | some v =>
      refine .ok _ ⟨rfl, rfl, rfl, rfl⟩ (by simp [hp]) (Or.inr (Or.inl (by simp [hl]))) ?_
      rw [tryEmplace_of_mem h.sorted (h.sorted.lookup_eq_some.mp hl)]
      exact h'
    | none =>
      cases mem with
      | false => exact .noNode rfl hp hl
      | true =>
        exact .ok _ ⟨rfl, rfl, rfl, rfl⟩ (by simp [hp]) (Or.inr (Or.inr rfl))
          (h'.emplaceOutside hp)

/-! ## The scan for the next best level -/

theorem scanDown_eq {window : Nat → PriceLevel} {i j : Nat} (hj : j < i)
    (hocc : (window j).empty = false) (hgap : ∀ k, j < k → k < i → (window k).empty = true) :
    scanDown window i = some j := by
  induction i with
  | zero => omega
  | succ i ih =>
    unfold scanDown
    by_cases hji : j = i
    · subst hji
      simp [hocc]
    · rw [if_pos (hgap i (by omega) (by omega))]
      exact ih (by omega) fun k h1 h2 => hgap k h1 (by omega)

theorem scanUp_eq {window : Nat → PriceLevel} {fuel i j : Nat} (hj : i < j) (hfuel : j ≤ i + fuel)
    (hocc : (window j).empty = false) (hgap : ∀ k, i < k → k < j → (window k).empty = true) :
    scanUp window fuel i = some j := by
  induction fuel generalizing i with
  | zero => omega
  | succ fuel ih =>
    unfold scanUp
    by_cases hji : j = i + 1
    · subst hji
      simp [hocc]
    · rw [if_pos (hgap (i + 1) (by omega) (by omega))]
      exact ih (by omega) (by omega) fun k h1 h2 => hgap k (by omega) h2

/-- The scan stops at the first occupied index it meets. -/
theorem nextOccupied_eq {i j : Nat} (hi : i < l.windowSize) (hj : j < l.windowSize)
    (hij : indexBetter isBid i j) (hocc : (l.window j).empty = false)
    (hgap : ∀ k, indexBetter isBid i k → indexBetter isBid k j → (l.window k).empty = true) :
    l.nextOccupied i = some j := by
  unfold nextOccupied
  cases isBid with
  | true =>
    simp only [indexBetter, if_true, decide_eq_true_eq] at hij hgap ⊢
    exact scanDown_eq hij hocc fun k h1 h2 => hgap k h2 h1
  | false =>
    simp only [indexBetter, Bool.false_eq_true, if_false, decide_eq_true_eq] at hij hgap ⊢
    exact scanUp_eq hij (by omega) hocc hgap

/-- **The scan finds the next worse level**: from the index of a window price `p`, the level `b` that
no window level worse than `p` beats. -/
theorem Represents.nextOccupied (h : l.Represents m) {p : Price} (hp : l.inWindow p)
    {b : Price × PriceLevel} (hb : b ∈ l.inside m) (hocc : b.2.empty = false)
    (hpb : better isBid p b.1)
    (hnext : ∀ e ∈ l.inside m, better isBid p e.1 → e.1 = b.1 ∨ better isBid b.1 e.1) :
    l.nextOccupied (l.index p) = some (l.index b.1) := by
  obtain ⟨hbm, hbin⟩ := List.mem_filter.mp hb
  have hlt : ∀ a, l.inWindow a → l.index a < l.windowSize := fun a ha =>
    Nat.lt_of_lt_of_le (index_lt ha) h.limit_le
  refine nextOccupied_eq (hlt p hp) (hlt b.1 hbin) ((better_iff_index hp hbin).mp hpb) ?_ ?_
  · rw [h.lookup_window hbin, h.sorted.lookup_eq_some.mpr hbm]
    exact hocc
  · intro k hpk hkb
    have hk : k < l.limit := by
      have h1 := index_lt hp
      have h2 := index_lt hbin
      cases isBid <;> simp [indexBetter] at hpk hkb <;> omega
    rw [h.window k hk]
    cases hl : m.lookup (l.priceAt k) with
    | none => rfl
    | some level =>
      -- an occupied index strictly between the two would be a better choice than `b`
      exfalso
      have hkin : l.inWindow (l.priceAt k) := inWindow_priceAt h.fits hk
      rw [← index_priceAt h.fits hk, ← better_iff_index hp hkin] at hpk
      rw [← index_priceAt h.fits hk, ← better_iff_index hkin hbin] at hkb
      rcases hnext (l.priceAt k, level)
        (List.mem_filter.mpr ⟨h.sorted.lookup_eq_some.mp hl, hkin⟩) hpk with heq | hlt'
      · rw [← heq] at hkb
        exact irrefl_of (better isBid) _ hkb
      · exact asymm_of (better isBid) hkb hlt'

/-! ## Closing a level -/

theorem Represents.eraseInside (h : l.Represents m) {p : Price} (hp : l.inWindow p)
    (hm : (p, {}) ∈ m) {j : Nat}
    (hj : ∀ e ∈ (erase p (l.inside m)).head?, j = l.index e.1) :
    ({ l with occupied := l.occupied - 1, bestIdx := j } : PriceLadder isBid).Represents
      (erase p m) := by
  have hinside : l.inside (erase p m) = erase p (l.inside m) := filter_erase p l.inWindow m
  have hpin : (p, ({} : PriceLevel)) ∈ l.inside m := List.mem_filter.mpr ⟨hm, hp⟩
  refine ⟨h.sorted.erase p, h.fits, h.limit_le, ?_, h.beyond, ?_, ?_, ?_⟩
  · intro i hi
    show l.window i = ((erase p m).lookup (l.priceAt i)).getD {}
    rw [h.window i hi, h.sorted.lookup_erase]
    split
    · rename_i hip
      rw [hip, h.sorted.lookup_eq_some.mpr hm]
      rfl
    · rfl
  · show l.overflow.entries = l.outside (erase p m)
    rw [h.overflow, outside, outside, filter_erase p (fun q => !l.inWindow q)]
    refine (h.sorted.filter _).ext ((h.sorted.filter _).erase p) fun e => ?_
    rw [mem_erase]
    refine ⟨fun he => ⟨he, ?_⟩, And.left⟩
    rintro rfl
    have := (List.mem_filter.mp he).2
    simp [hp] at this
  · show l.occupied - 1 = (l.inside (erase p m)).length
    obtain ⟨w₁, w₂, hw⟩ := List.append_of_mem hpin
    rw [h.occupied, hinside, hw, erase_split (hw ▸ h.inside_sorted)]
    simp only [List.length_append, List.length_cons]
    omega
  · intro e he
    change e ∈ (l.inside (erase p m)).head? at he
    rw [hinside] at he
    exact hj e he

theorem Represents.eraseOutside (h : l.Represents m) {p : Price} (hp : ¬ l.inWindow p) :
    ({ l with overflow := l.overflow.erase p } : PriceLadder isBid).Represents (erase p m) := by
  have hinside : l.inside (erase p m) = l.inside m := by
    refine (h.sorted.erase p |>.filter _).ext h.inside_sorted fun e => ?_
    simp only [inside, List.mem_filter, mem_erase]
    refine ⟨fun he => ⟨he.1.1, he.2⟩, fun he => ⟨⟨he.1, ?_⟩, he.2⟩⟩
    rintro rfl
    exact hp he.2
  refine ⟨h.sorted.erase p, h.fits, h.limit_le, ?_, h.beyond, ?_, ?_, ?_⟩
  · intro i hi
    show l.window i = ((erase p m).lookup (l.priceAt i)).getD {}
    rw [h.window i hi, h.sorted.lookup_erase, if_neg]
    rintro rfl
    exact hp (inWindow_priceAt h.fits hi)
  · show erase p l.overflow.entries = l.outside (erase p m)
    rw [h.overflow, outside, outside, filter_erase p (fun q => !l.inWindow q)]
  · show l.occupied = (l.inside (erase p m)).length
    rw [hinside, h.occupied]
  · intro e he
    change e ∈ (l.inside (erase p m)).head? at he
    rw [hinside] at he
    exact h.best e he

/-- **`closed` drops the emptied level.** Its scan, if it runs at all, stays inside the window. -/
theorem Represents.closed (h : l.Represents m) {p : Price} (hm : (p, {}) ∈ m)
    (hocc : ∀ e ∈ m, e.1 ≠ p → e.2.empty = false) :
    ∃ l', l.closed p = some l' ∧ SameWindow l l' ∧ l'.outsideOpens = l.outsideOpens
      ∧ l'.Represents (erase p m) := by
  unfold PriceLadder.closed
  by_cases hp : l.inWindow p
  · have hpin : (p, ({} : PriceLevel)) ∈ l.inside m := List.mem_filter.mpr ⟨hm, hp⟩
    obtain ⟨w₁, w₂, hw⟩ := List.append_of_mem hpin
    have hsorted := h.inside_sorted
    have hsplit := erase_split (hw ▸ hsorted)
    have hlen : l.occupied = w₁.length + (w₂.length + 1) := by rw [h.occupied, hw]; simp
    simp only [hp, Bool.not_true, Bool.false_eq_true, if_false]
    by_cases hbest : 0 < l.occupied - 1 ∧ l.index p = l.bestIdx
    · -- the best level closed and others remain: `p` heads the window part
      have hw₁ : w₁ = [] := by
        cases w₁ with
        | nil => rfl
        | cons a w₁ =>
          exfalso
          have ha : l.inWindow a.1 := by
            have : a ∈ l.inside m := by rw [hw]; simp
            exact (List.mem_filter.mp this).2
          have hidx : l.index p = l.index a.1 := by
            rw [hbest.2]
            exact h.best a (by rw [hw]; simp)
          have hpa : p = a.1 := by rw [← priceAt_index h.fits hp, hidx, priceAt_index h.fits ha]
          rw [hw] at hsorted
          have hlt := (sorted_cons.mp hsorted).1 (p, {}) (by simp)
          exact irrefl_of (better isBid) p (by rw [← hpa] at hlt; exact hlt)
      subst hw₁
      cases w₂ with
      | nil => simp [hlen] at hbest
      | cons b w₂ =>
        have hb : b ∈ l.inside m := by rw [hw]; simp
        have hbp : b.1 ≠ p := by
          rw [hw] at hsorted
          have hlt := (sorted_cons.mp hsorted).1 b (by simp)
          intro heq
          exact irrefl_of (better isBid) p (by rw [heq] at hlt; exact hlt)
        rw [hw] at hsorted
        have hnext := h.nextOccupied hp hb (hocc b (List.mem_filter.mp hb).1 hbp)
          ((sorted_cons.mp hsorted).1 b (by simp)) (by
            rw [hw]
            intro e he hlt
            rcases List.mem_cons.mp he with rfl | he
            · exact absurd hlt (irrefl_of (better isBid) p)
            · exact ((sorted_cons.mp hsorted).2.head_best he).imp (congrArg Prod.fst) id)
        have hnext' : PriceLadder.nextOccupied
            ({ l with occupied := l.occupied - 1 } : PriceLadder isBid) (l.index p)
              = some (l.index b.1) := hnext
        rw [if_pos hbest]
        simp only [hnext']
        refine ⟨_, rfl, ⟨rfl, rfl, rfl, rfl⟩, rfl, h.eraseInside hp hm ?_⟩
        intro e he
        rw [hw, hsplit] at he
        simp only [List.nil_append, List.head?_cons, Option.mem_some_iff] at he
        rw [he]
    · rw [if_neg hbest]
      refine ⟨_, rfl, ⟨rfl, rfl, rfl, rfl⟩, rfl, h.eraseInside hp hm ?_⟩
      intro e he
      rw [hw, hsplit] at he
      cases w₁ with
      | nil =>
        -- `p` was the only window level: nothing is left to be best
        exfalso
        have hidx : l.bestIdx = l.index p := h.best (p, {}) (by rw [hw]; simp)
        have : 0 < l.occupied - 1 := by
          cases w₂ with
          | nil => simp at he
          | cons => simp [hlen]
        exact hbest ⟨this, hidx.symm⟩
      | cons a w₁ =>
        simp only [List.cons_append, List.head?_cons, Option.mem_some_iff] at he
        rw [← he]
        exact h.best a (by rw [hw]; simp)
  · simp only [hp, Bool.not_false, if_true]
    exact ⟨_, rfl, ⟨rfl, rfl, rfl, rfl⟩, rfl, h.eraseOutside hp⟩

/-! ## The visit of every level -/

/-- The array indices the visit walks, best first. -/
def visited (l : PriceLadder isBid) : List Nat :=
  if isBid then (List.range (l.bestIdx + 1)).reverse
  else List.range' l.bestIdx (l.limit - l.bestIdx)

theorem mem_visited {i : Nat} :
    i ∈ l.visited ↔ if isBid then i ≤ l.bestIdx else l.bestIdx ≤ i ∧ i < l.limit := by
  unfold visited
  cases isBid with
  | true =>
    simp only [if_true, List.mem_reverse, List.mem_range]
    omega
  | false =>
    simp only [Bool.false_eq_true, if_false, List.mem_range'_1]
    omega

theorem visited_pairwise (l : PriceLadder isBid) :
    l.visited.Pairwise fun i j => indexBetter isBid i j = true := by
  unfold visited
  cases isBid with
  | true =>
    simp only [if_true, indexBetter, decide_eq_true_eq, List.pairwise_reverse]
    exact List.pairwise_lt_range
  | false =>
    simp only [Bool.false_eq_true, if_false, indexBetter, decide_eq_true_eq]
    exact List.pairwise_lt_range'

/-- The array part of the visit is the window part of the levels. -/
theorem Represents.windowLevels (h : l.Represents m) (hocc : AllOccupied m)
    (hpos : 0 < l.occupied) : l.windowLevels = l.inside m := by
  have hsorted := h.inside_sorted
  obtain ⟨e, w, hw⟩ : ∃ e w, l.inside m = e :: w := by
    rw [h.occupied] at hpos
    exact List.exists_cons_of_length_pos hpos
  have hin : ∀ a ∈ l.inside m, a ∈ m ∧ l.inWindow a.1 := fun a ha => List.mem_filter.mp ha
  have he := hin e (by rw [hw]; simp)
  have hbest : l.bestIdx = l.index e.1 := h.best e (by rw [hw]; simp)
  have hbound : ∀ i ∈ l.visited, i < l.limit := by
    intro i hi
    have := index_lt he.2
    rw [mem_visited] at hi
    cases isBid <;> simp at hi <;> omega
  -- two sorted lists with the same members are one list
  refine Sorted.ext ?_ hsorted ?_
  · show ((l.visited.filter fun i => !(l.window i).empty).map fun i =>
      (l.priceAt i, l.window i)).Pairwise _
    rw [List.pairwise_map]
    refine (l.visited_pairwise.filter _).imp_of_mem fun {i j} hi hj hij => ?_
    have hi' := hbound i (List.mem_filter.mp hi).1
    have hj' := hbound j (List.mem_filter.mp hj).1
    rw [better_iff_index (inWindow_priceAt h.fits hi') (inWindow_priceAt h.fits hj'),
      index_priceAt h.fits hi', index_priceAt h.fits hj']
    exact hij
  · rintro ⟨q, level⟩
    show (q, level) ∈ (l.visited.filter fun i => !(l.window i).empty).map _ ↔ _
    simp only [List.mem_map, List.mem_filter, Prod.mk.injEq]
    constructor
    · rintro ⟨i, ⟨hi, hne⟩, rfl, rfl⟩
      have hi' := hbound i hi
      refine List.mem_filter.mpr ⟨?_, inWindow_priceAt h.fits hi'⟩
      rw [h.window i hi'] at hne ⊢
      cases hl : m.lookup (l.priceAt i) with
      | none => simp [hl, PriceLevel.empty] at hne
      | some v => exact h.sorted.lookup_eq_some.mp hl
    · intro hmem
      obtain ⟨hm, hq⟩ := hin _ hmem
      have hlook := h.lookup_window hq
      rw [h.sorted.lookup_eq_some.mpr hm, Option.getD_some] at hlook
      refine ⟨l.index q, ⟨?_, ?_⟩, priceAt_index h.fits hq, hlook⟩
      · -- no window level beats the stored index
        have hlt := index_lt hq
        rw [mem_visited, hbest]
        rw [hw] at hmem hsorted
        rcases hsorted.head_best hmem with heq | hb
        · rw [← heq]
          cases isBid <;> simp [hlt]
        · rw [better_iff_index he.2 hq] at hb
          cases isBid <;> simp_all [indexBetter] <;> omega
      · rw [hlook, hocc _ hm]
        rfl

/-- Past the first map entry that is not beyond the best edge, none is. -/
theorem not_beyond_of_mem_dropWhile {es : List (Price × PriceLevel)}
    (hs : Sorted (better isBid) es) {e : Price × PriceLevel}
    (he : e ∈ es.dropWhile fun e => l.beyondBestEdge e.1) : ¬ l.beyondBestEdge e.1 := by
  induction es with
  | nil => simp at he
  | cons a es ih =>
    obtain ⟨ha, hes⟩ := sorted_cons.mp hs
    rw [List.dropWhile_cons] at he
    split at he
    · exact ih hes he
    · rename_i hna
      rcases List.mem_cons.mp he with rfl | he
      · exact hna
      · exact fun hb => hna (beyond_of_better hb (ha e he))

/-- **`for_each_level` visits every level once, best first.** -/
theorem Represents.forEachLevel (h : l.Represents m) (hocc : AllOccupied m) :
    l.forEachLevel = m := by
  have hwin : (if 0 < l.occupied then l.windowLevels else []) = l.inside m := by
    split
    · rename_i hpos
      exact h.windowLevels hocc hpos
    · rename_i hpos
      rw [h.occupied] at hpos
      exact (List.eq_nil_of_length_eq_zero (by omega)).symm
  have hout : Sorted (better isBid) (l.outside m) := h.sorted.filter _
  unfold PriceLadder.forEachLevel
  simp only [hwin, h.overflow]
  have hmemOut : ∀ e ∈ l.outside m, ¬ l.inWindow e.1 := fun e he => by
    have := (List.mem_filter.mp he).2
    simpa using this
  have hmemIn : ∀ e ∈ l.inside m, l.inWindow e.1 := fun e he => (List.mem_filter.mp he).2
  refine Sorted.ext ?_ h.sorted ?_
  · -- beyond the best edge, then the window, then the rest: each part beats the next
    have hparts := List.takeWhile_append_dropWhile (p := fun e : Price × PriceLevel =>
      l.beyondBestEdge e.1) (l := l.outside m)
    rw [Sorted, ← hparts, List.pairwise_append] at hout
    obtain ⟨htake, hdrop, hcross⟩ := hout
    have hdropOut : ∀ e ∈ (l.outside m).dropWhile (fun e => l.beyondBestEdge e.1),
        e ∈ l.outside m := fun e he => (List.dropWhile_sublist _).mem he
    refine List.pairwise_append.mpr ⟨List.pairwise_append.mpr ⟨htake, h.inside_sorted, ?_⟩,
      hdrop, ?_⟩
    · intro a ha b hb
      have hbeyond := List.mem_takeWhile_imp ha
      exact better_of_beyond hbeyond (hmemIn b hb)
    · intro a ha b hb
      rcases List.mem_append.mp ha with ha | ha
      · exact hcross a ha b hb
      · refine better_of_not_beyond ?_ (hmemOut b (hdropOut b hb)) (hmemIn a ha)
        exact not_beyond_of_mem_dropWhile (h.sorted.filter _) hb
  · intro e
    have hsplit : e ∈ l.outside m ↔
        e ∈ (l.outside m).takeWhile (fun e => l.beyondBestEdge e.1)
          ∨ e ∈ (l.outside m).dropWhile (fun e => l.beyondBestEdge e.1) := by
      rw [← List.mem_append, List.takeWhile_append_dropWhile]
    have hall : e ∈ m ↔ e ∈ l.inside m ∨ e ∈ l.outside m := by
      simp only [inside, outside, List.mem_filter]
      cases l.inWindow e.1 <;> simp
    rw [hall, hsplit, List.mem_append, List.mem_append]
    tauto

/-! ## The ladder's own check -/

/-- An occupied place of the window is a level inside it. -/
theorem Represents.mem_inside (h : l.Represents m) {i : Nat} (hi : (l.window i).empty = false) :
    i < l.limit ∧ (l.priceAt i, l.window i) ∈ l.inside m := by
  by_cases hlt : i < l.limit
  · refine ⟨hlt, List.mem_filter.mpr ⟨?_, inWindow_priceAt h.fits hlt⟩⟩
    rw [h.window i hlt] at hi ⊢
    cases hl : m.lookup (l.priceAt i) with
    | none => simp [hl, PriceLevel.empty] at hi
    | some v => exact h.sorted.lookup_eq_some.mp hl
  · rw [h.beyond i (Nat.le_of_not_lt hlt)] at hi
    exact absurd hi (by decide)

theorem Represents.nodup_indices (h : l.Represents m) :
    ((l.inside m).map fun e => l.index e.1).Nodup := by
  rw [List.Nodup, List.pairwise_map]
  refine List.Pairwise.imp_of_mem ?_ h.inside_sorted
  intro a b ha hb hab heq
  have ha' := (List.mem_filter.mp ha).2
  have hb' := (List.mem_filter.mp hb).2
  rw [better_iff_index ha' hb', heq] at hab
  cases isBid <;> simp [indexBetter] at hab

/-- **A level without orders is caught**: outside the window where it stands, inside it by the count
of occupied levels. -/
theorem Represents.check_ghost (h : l.Represents m) {e : Price × PriceLevel} (he : e ∈ m)
    (hempty : e.2.empty = true) : l.check = false := by
  by_contra hcheck
  have hcheck' : l.check = true := Bool.of_not_eq_false hcheck
  unfold PriceLadder.check at hcheck'
  simp only [Bool.and_eq_true, List.all_eq_true, beq_iff_eq] at hcheck'
  obtain ⟨⟨⟨-, hcount⟩, -⟩, hoverflow⟩ := hcheck'
  by_cases hin : l.inWindow e.1 = true
  · have hinside : e ∈ l.inside m := List.mem_filter.mpr ⟨he, hin⟩
    obtain ⟨w₁, w₂, hw⟩ := List.append_of_mem hinside
    -- every occupied place is the place of a level other than `e`
    have hsub : ((List.range l.windowSize).filter fun i => !(l.window i).empty)
        ⊆ (w₁ ++ w₂).map fun e => l.index e.1 := by
      intro i hi
      have hne : (l.window i).empty = false := by simpa using (List.mem_filter.mp hi).2
      obtain ⟨hlt, hmem⟩ := h.mem_inside hne
      have hmem' : (l.priceAt i, l.window i) ∈ w₁ ++ w₂ := by
        rw [hw] at hmem
        rcases List.mem_append.mp hmem with hmem | hmem
        · exact List.mem_append_left _ hmem
        · rcases List.mem_cons.mp hmem with heq | hmem
          · rw [← heq, hne] at hempty
            simp at hempty
          · exact List.mem_append_right _ hmem
      have himage := List.mem_map_of_mem (f := fun e : Price × PriceLevel => l.index e.1) hmem'
      rwa [index_priceAt h.fits hlt] at himage
    have hle := (List.subperm_of_subset (List.nodup_range.filter _) hsub).length_le
    have hlen := h.occupied
    rw [hw] at hlen
    simp only [List.length_map, List.length_append, List.length_cons] at hle hlen
    omega
  · have hout : e ∈ l.overflow.entries := by
      rw [h.overflow]
      exact List.mem_filter.mpr ⟨he, by simpa using hin⟩
    have hne := (hoverflow e hout).2
    rw [hempty] at hne
    simp at hne

/-- **No assertion of `PriceLadder::check` can fire.** -/
theorem Represents.check (h : l.Represents m) (hocc : AllOccupied m) : l.check = true := by
  have hnone : ∀ i, (l.window i).empty = true → l.window i = {} := by
    intro i hi
    by_cases hlt : i < l.limit
    · rw [h.window i hlt] at hi ⊢
      cases hl : m.lookup (l.priceAt i) with
      | none => rfl
      | some v =>
        rw [hl, Option.getD_some, hocc _ (h.sorted.lookup_eq_some.mp hl)] at hi
        exact absurd hi (by decide)
    · exact h.beyond i (Nat.le_of_not_lt hlt)
  have hhead : ∀ e ∈ l.inside m, l.index e.1 = l.bestIdx ∨
      indexBetter isBid l.bestIdx (l.index e.1) = true := by
    intro e he
    have hsorted := h.inside_sorted
    have hbest := h.best
    have hin : ∀ a ∈ l.inside m, l.inWindow a.1 := fun a ha => (List.mem_filter.mp ha).2
    cases hw : l.inside m with
    | nil => rw [hw] at he; simp at he
    | cons a w =>
      have ha := hin a (by rw [hw]; simp)
      rw [hbest a (by rw [hw]; simp), ← better_iff_index ha (hin e he)]
      rw [hw] at he hsorted
      rcases hsorted.head_best he with rfl | hb
      · exact Or.inl rfl
      · exact Or.inr hb
  unfold PriceLadder.check
  simp only [Bool.and_eq_true, List.all_eq_true, List.mem_range, beq_iff_eq, Bool.or_eq_true,
    Bool.not_eq_true']
  refine ⟨⟨⟨?_, ?_⟩, ?_⟩, ?_⟩
  · intro i _
    cases he : (l.window i).empty with
    | true =>
      rw [hnone i he]
      rfl
    | false =>
      obtain ⟨hlt, hmem⟩ := h.mem_inside he
      have := hhead _ hmem
      rw [index_priceAt h.fits hlt] at this
      rcases this with hb | hb
      · rw [← hb]
        simp [hlt, indexBetter]
      · cases isBid <;> simp_all [indexBetter] <;> omega
  · -- window prices and occupied indices are in bijection
    rw [h.occupied]
    have hmap : ((l.inside m).map fun e => l.index e.1).Perm
        ((List.range l.windowSize).filter fun i => !(l.window i).empty) := by
      refine (List.perm_ext_iff_of_nodup h.nodup_indices (List.nodup_range.filter _)).mpr fun i => ?_
      simp only [List.mem_map, List.mem_filter, List.mem_range, Bool.not_eq_true']
      constructor
      · rintro ⟨e, he, rfl⟩
        have he' := List.mem_filter.mp he
        refine ⟨Nat.lt_of_lt_of_le (index_lt he'.2) h.limit_le, ?_⟩
        rw [h.lookup_window he'.2, h.sorted.lookup_eq_some.mpr he'.1]
        exact hocc e he'.1
      · rintro ⟨-, hne⟩
        obtain ⟨hlt, hmem⟩ := h.mem_inside hne
        exact ⟨_, hmem, index_priceAt h.fits hlt⟩
    rw [← hmap.length_eq, List.length_map]
  · rw [h.occupied]
    cases hw : l.inside m with
    | nil => exact Or.inl rfl
    | cons a w =>
      right
      have ha : a ∈ l.inside m := by rw [hw]; simp
      have ha' := List.mem_filter.mp ha
      rw [h.best a (by rw [hw]; simp), h.lookup_window ha'.2, h.sorted.lookup_eq_some.mpr ha'.1]
      exact hocc a ha'.1
  · intro e he
    rw [h.overflow] at he
    obtain ⟨hm, hout⟩ := List.mem_filter.mp he
    exact ⟨by simpa using hout, hocc e hm⟩

end PriceLadder

end Lob
