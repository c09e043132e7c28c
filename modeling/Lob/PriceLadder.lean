/-
# Lob.PriceLadder — one side of the book, as the source keeps it.

Levels inside a window of consecutive prices live in a flat array indexed by `price - lo`; every
other level is filed in an ordered map.  The best window level is a stored index, kept right by
`noteOpened` and by the scan of `closed`.

The refinement of this module is `Represents`: a ladder represents a ranked list of levels `m` when
the array holds exactly the part of `m` inside the window, the map exactly the part outside, and the
counters say what they are named for.  Each operation of the ladder is one operation of `m`, so a
ladder is an ordered map from prices to levels wherever its window lies.
-/
import Lob.Lib.Ranked
import Lob.Types

namespace Lob

open Lib.Ranked

/-! ## The source's data and operations -/

structure PriceLadder (isBid : Bool) where
  /-- The array; slots without a queue are absent levels. -/
  window : Nat → PriceLevel
  windowSize : Nat
  /-- Levels outside the window, best first. -/
  overflow : RankedMap (better isBid) PriceLevel
  /-- Window base. -/
  lo : Price := 0
  /-- Levels in use; 0 until placed. -/
  limit : Nat := 0
  /-- Non-empty levels in the window. -/
  occupied : Nat := 0
  /-- Valid while `occupied > 0`. -/
  bestIdx : Nat := 0
  outsideOpens : UInt64 := 0
  isPlaced : Bool := false

/-- A `PriceLevel&`: the array slot or the map node it refers to. -/
inductive LevelRef
  | window (i : Nat)
  | overflow (price : Price)
  deriving DecidableEq, Repr

namespace PriceLadder

variable {isBid : Bool}

def new (isBid : Bool) (windowLevels : Nat) : PriceLadder isBid where
  window := fun _ => {}
  windowSize := windowLevels
  overflow := .empty _ _

/-- Fix the window at `base`, clipped at the top of the price range. -/
def place (l : PriceLadder isBid) (base : Price) : PriceLadder isBid :=
  let room := maxPrice - base
  { l with
    lo := base
    limit := if l.windowSize = 0 ∨ l.windowSize - 1 ≤ room.toNat then l.windowSize
             else room.toNat + 1
    isPlaced := true }

def inWindow (l : PriceLadder isBid) (price : Price) : Bool :=
  decide (l.lo ≤ price) && decide ((price - l.lo).toNat < l.limit)

/-- Outside the window on the side that beats every price inside it. -/
def beyondBestEdge (l : PriceLadder isBid) (price : Price) : Bool :=
  if isBid then decide (l.lo ≤ price) && decide (l.limit ≤ (price - l.lo).toNat)
  else decide (price < l.lo)

/-- The array index of a window price. -/
def index (l : PriceLadder isBid) (price : Price) : Nat := (price - l.lo).toNat

/-- The price of an array index. -/
def priceAt (l : PriceLadder isBid) (i : Nat) : Price := l.lo + UInt64.ofNat i

/-- `IsBid ? i > j : i < j` on array indices. -/
def indexBetter (isBid : Bool) (i j : Nat) : Bool :=
  if isBid then decide (j < i) else decide (i < j)

def noteOpened (l : PriceLadder isBid) (i : Nat) : PriceLadder isBid :=
  { l with
    occupied := l.occupied + 1
    bestIdx := if l.occupied = 0 || indexBetter isBid i l.bestIdx then i else l.bestIdx }

/-- Read a level through a reference. -/
def deref (l : PriceLadder isBid) : LevelRef → PriceLevel
  | .window i => l.window i
  | .overflow p => (l.overflow.find p).getD {}

/-- Write a level through a reference. -/
def store (l : PriceLadder isBid) : LevelRef → PriceLevel → PriceLadder isBid
  | .window i, level => { l with window := Function.update l.window i level }
  | .overflow p, level => { l with overflow := l.overflow.set p level }

/-- `open`: the level at `price`, opened if nothing rests there yet.  `mem` says whether a map node
can be allocated. -/
def openLevel (mem : Bool) (l : PriceLadder isBid) (price : Price) :
    Result (PriceLadder isBid) LevelRef :=
  if l.inWindow price then
    let i := l.index price
    .ok (.window i) (if (l.window i).empty then l.noteOpened i else l)
  else
    let l := { l with outsideOpens := l.outsideOpens + 1 }
    match l.overflow.find price with
    | some _ => .ok (.overflow price) l
    | none =>
      if mem then .ok (.overflow price) { l with overflow := l.overflow.tryEmplace price {} }
      else .throws .badAlloc l

/-- The level at `price`, or nothing when nothing rests there. -/
def find (l : PriceLadder isBid) (price : Price) : Option LevelRef :=
  if l.inWindow price then
    if (l.window (l.index price)).empty then none else some (.window (l.index price))
  else
    match l.overflow.find price with
    | none => none
    | some _ => some (.overflow price)

/-- The best occupied level and its price. -/
def best (l : PriceLadder isBid) : Option (Price × LevelRef) :=
  let level := if 0 < l.occupied then some (l.priceAt l.bestIdx, LevelRef.window l.bestIdx) else none
  -- outside levels can beat the window
  match l.overflow.begin with
  | none => level
  | some (p, _) =>
    match level with
    | none => some (p, .overflow p)
    | some (q, ref) => if better isBid p q then some (p, .overflow p) else some (q, ref)

def bestPrice (l : PriceLadder isBid) : Option Price := l.best.map Prod.fst

/-- `do --i; while (window[i].empty())`; stepping below 0 leaves the array. -/
def scanDown (window : Nat → PriceLevel) : Nat → Option Nat
  | 0 => none
  | i + 1 => if (window i).empty then scanDown window i else some i

/-- `do ++i; while (window[i].empty())`, with `fuel` slots left before the end of the array. -/
def scanUp (window : Nat → PriceLevel) : Nat → Nat → Option Nat
  | 0, _ => none
  | fuel + 1, i => if (window (i + 1)).empty then scanUp window fuel (i + 1) else some (i + 1)

/-- The next occupied index worse than `i`; nothing when the unguarded scan leaves the array. -/
def nextOccupied (l : PriceLadder isBid) (i : Nat) : Option Nat :=
  if isBid then scanDown l.window i else scanUp l.window (l.windowSize - 1 - i) i

/-- Called once the level at `price` has become empty. -/
def closed (l : PriceLadder isBid) (price : Price) : Option (PriceLadder isBid) :=
  if !l.inWindow price then some { l with overflow := l.overflow.erase price }
  else
    let i := l.index price
    let l := { l with occupied := l.occupied - 1 }
    if 0 < l.occupied ∧ i = l.bestIdx then
      match l.nextOccupied i with
      | none => none
      | some j => some { l with bestIdx := j }
    else some l

/-- The occupied array levels from the best index outwards. -/
def windowLevels (l : PriceLadder isBid) : List (Price × PriceLevel) :=
  let indices := if isBid then (List.range (l.bestIdx + 1)).reverse
                 else List.range' l.bestIdx (l.limit - l.bestIdx)
  (indices.filter fun i => !(l.window i).empty).map fun i => (l.priceAt i, l.window i)

/-- `for_each_level`: every occupied level, in the order of the visit. -/
def forEachLevel (l : PriceLadder isBid) : List (Price × PriceLevel) :=
  let outside := l.overflow.entries
  outside.takeWhile (fun e => l.beyondBestEdge e.1)
    ++ (if 0 < l.occupied then l.windowLevels else [])
    ++ outside.dropWhile (fun e => l.beyondBestEdge e.1)

/-- The assertions of `PriceLadder::check`. -/
def check (l : PriceLadder isBid) : Bool :=
  ((List.range l.windowSize).all fun i =>
    if (l.window i).empty then (l.window i).totalQty == 0 && (l.window i).tail == kNoSlot
    else decide (i < l.limit) && !indexBetter isBid i l.bestIdx)
  && ((List.range l.windowSize).filter fun i => !(l.window i).empty).length == l.occupied
  && (l.occupied == 0 || !(l.window l.bestIdx).empty)
  && l.overflow.entries.all fun e => !l.inWindow e.1 && !e.2.empty

/-! ## Window arithmetic -/

section Arithmetic

variable {l : PriceLadder isBid}

/-- The span stays below `2^64`, so `lo + i` never wraps for an index in use. -/
def Fits (l : PriceLadder isBid) : Prop := l.lo.toNat + l.limit ≤ 2 ^ 64

theorem inWindow_iff {p : Price} :
    l.inWindow p ↔ l.lo.toNat ≤ p.toNat ∧ p.toNat < l.lo.toNat + l.limit := by
  simp only [inWindow, Bool.and_eq_true, decide_eq_true_eq, UInt64.le_iff_toNat_le]
  refine and_congr_right fun hle => ?_
  rw [UInt64.toNat_sub_of_le _ _ (UInt64.le_iff_toNat_le.mpr hle)]
  omega

theorem beyondBestEdge_iff {p : Price} :
    l.beyondBestEdge p ↔
      if isBid then l.lo.toNat + l.limit ≤ p.toNat else p.toNat < l.lo.toNat := by
  cases isBid with
  | false => simp [beyondBestEdge, UInt64.lt_iff_toNat_lt]
  | true =>
    simp only [beyondBestEdge, if_true, Bool.and_eq_true, decide_eq_true_eq,
      UInt64.le_iff_toNat_le]
    constructor
    · rintro ⟨hle, hlim⟩
      rw [UInt64.toNat_sub_of_le _ _ (UInt64.le_iff_toNat_le.mpr hle)] at hlim
      omega
    · intro h
      have hle : l.lo.toNat ≤ p.toNat := by omega
      rw [UInt64.toNat_sub_of_le _ _ (UInt64.le_iff_toNat_le.mpr hle)]
      omega

theorem index_eq {p : Price} (h : l.inWindow p) : l.index p = p.toNat - l.lo.toNat :=
  UInt64.toNat_sub_of_le _ _ (UInt64.le_iff_toNat_le.mpr (inWindow_iff.mp h).1)

theorem index_lt {p : Price} (h : l.inWindow p) : l.index p < l.limit := by
  have := inWindow_iff.mp h
  rw [index_eq h]
  omega

theorem priceAt_toNat (hf : l.Fits) {i : Nat} (hi : i < l.limit) :
    (l.priceAt i).toNat = l.lo.toNat + i := by
  have hf' : l.lo.toNat + l.limit ≤ 2 ^ 64 := hf
  rw [priceAt, UInt64.toNat_add, UInt64.toNat_ofNat', Nat.mod_eq_of_lt (a := i) (by omega),
    Nat.mod_eq_of_lt (by omega)]

theorem inWindow_priceAt (hf : l.Fits) {i : Nat} (hi : i < l.limit) :
    l.inWindow (l.priceAt i) := by
  rw [inWindow_iff, priceAt_toNat hf hi]
  omega

theorem index_priceAt (hf : l.Fits) {i : Nat} (hi : i < l.limit) : l.index (l.priceAt i) = i := by
  rw [index_eq (inWindow_priceAt hf hi), priceAt_toNat hf hi]
  omega

theorem priceAt_index (hf : l.Fits) {p : Price} (h : l.inWindow p) :
    l.priceAt (l.index p) = p := by
  apply UInt64.toNat_inj.mp
  have := inWindow_iff.mp h
  rw [priceAt_toNat hf (index_lt h), index_eq h]
  omega

/-- Inside the window the ranking of prices is the ranking of indices. -/
theorem better_iff_index {p q : Price} (hp : l.inWindow p) (hq : l.inWindow q) :
    better isBid p q ↔ indexBetter isBid (l.index p) (l.index q) := by
  have hp' := inWindow_iff.mp hp
  have hq' := inWindow_iff.mp hq
  rw [better_iff, index_eq hp, index_eq hq]
  cases isBid <;> simp [indexBetter] <;> omega

/-- A price beyond the best edge beats every window price. -/
theorem better_of_beyond {p q : Price} (hp : l.beyondBestEdge p) (hq : l.inWindow q) :
    better isBid p q := by
  have hq' := inWindow_iff.mp hq
  rw [beyondBestEdge_iff] at hp
  rw [better_iff]
  cases isBid <;> simp_all <;> omega

/-- A price outside the window, but not beyond its best edge, is beaten by every window price. -/
theorem better_of_not_beyond {p q : Price} (hp : ¬ l.beyondBestEdge p) (hp' : ¬ l.inWindow p)
    (hq : l.inWindow q) : better isBid q p := by
  have hq' := inWindow_iff.mp hq
  rw [beyondBestEdge_iff] at hp
  rw [inWindow_iff] at hp'
  rw [better_iff]
  cases isBid <;> simp_all <;> omega

/-- What beats a price beyond the best edge is beyond it too. -/
theorem beyond_of_better {p q : Price} (hq : l.beyondBestEdge q) (hpq : better isBid p q) :
    l.beyondBestEdge p := by
  rw [beyondBestEdge_iff] at hq ⊢
  rw [better_iff] at hpq
  cases isBid <;> simp_all <;> omega

end Arithmetic

end PriceLadder

end Lob
