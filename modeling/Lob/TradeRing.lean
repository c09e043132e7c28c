/-
# Lob.TradeRing — the fixed-capacity ring through which trades leave the book.

The two cursors are 64-bit counters that never reset; the buffer size is a power of two, so masking a
cursor is reducing it modulo the size, and the wrap of a cursor at `2^64` is invisible.  `contents`
is the ring as a list, oldest trade first: a push appends to it, a pop takes its head.

`Accounts` ties the ring to what happened around it: the trades popped so far followed by the
contents are the emitted trades without those that met a full ring, and the drop counter counts
those.
-/
import Mathlib.Data.Nat.ModEq
import Mathlib.Data.List.Range
import Lob.Types

namespace Lob

instance : Inhabited Trade := ⟨⟨0, 0, 0, 0, 0, .buy⟩⟩

/-! ## The source's data and operations -/

structure TradeRing where
  buffer : Nat → Trade
  /-- `buffer.size()`, a power of two. -/
  bufferSize : Nat
  mask : UInt64
  /-- Write cursor. -/
  head : UInt64
  /-- Read cursor. -/
  tail : UInt64
  dropCount : UInt64 := 0

namespace TradeRing

/-- `none` when the loop does not stop. -/
def roundUpPow2 (n : Nat) : Option Nat := doubleWhile (fun p => decide (p < n)) 65 1

def new (capacity : Nat) : Option TradeRing :=
  (roundUpPow2 (if capacity = 0 then 1 else capacity)).map fun size =>
    { buffer := fun _ => default
      bufferSize := size
      mask := UInt64.ofNat (size - 1)
      head := 0
      tail := 0 }

/-- The buffer index of a cursor. -/
def slot (r : TradeRing) (cursor : UInt64) : Nat := (cursor &&& r.mask).toNat

def size (r : TradeRing) : Nat := (r.head - r.tail).toNat

def empty (r : TradeRing) : Bool := r.head == r.tail

def full (r : TradeRing) : Bool := r.size == r.bufferSize

/-- False when full: the trade is dropped and counted. -/
def push (r : TradeRing) (t : Trade) : Bool × TradeRing :=
  if r.full then (false, { r with dropCount := r.dropCount + 1 })
  else (true, { r with
    buffer := Function.update r.buffer (r.slot r.head) t
    head := r.head + 1 })

def pop (r : TradeRing) : Option Trade × TradeRing :=
  if r.empty then (none, r)
  else (some (r.buffer (r.slot r.tail)), { r with tail := r.tail + 1 })

/-! ## The ring as a list -/

/-- The unread trades, oldest first. -/
def contents (r : TradeRing) : List Trade :=
  (List.range r.size).map fun i => r.buffer (r.slot (r.tail + UInt64.ofNat i))

structure Wf (r : TradeRing) : Prop where
  pow : ∃ k ≤ 63, r.bufferSize = 2 ^ k
  mask : r.mask.toNat + 1 = r.bufferSize
  size_le : r.size ≤ r.bufferSize

section Facts

variable {r : TradeRing} {t : Trade}

@[simp] theorem length_contents (r : TradeRing) : r.contents.length = r.size := by
  simp [contents]

theorem Wf.bufferSize_dvd (h : r.Wf) : r.bufferSize ∣ 2 ^ 64 := by
  obtain ⟨k, hk, hs⟩ := h.pow
  rw [hs]
  exact Nat.pow_dvd_pow 2 (by omega)

theorem Wf.bufferSize_le (h : r.Wf) : r.bufferSize ≤ 2 ^ 63 := by
  obtain ⟨k, hk, hs⟩ := h.pow
  rw [hs]
  exact Nat.pow_le_pow_right (by omega) hk

/-- Masking is reduction modulo the buffer size, also past the wrap of the cursor. -/
theorem Wf.slot_add (h : r.Wf) (c : UInt64) (i : Nat) :
    r.slot (c + UInt64.ofNat i) = (c.toNat + i) % r.bufferSize := by
  obtain ⟨k, hk, hs⟩ := h.pow
  have hm : r.mask.toNat = 2 ^ k - 1 := by
    have := h.mask
    omega
  rw [slot, UInt64.toNat_and, hm, Nat.and_two_pow_sub_one_eq_mod, ← hs, UInt64.toNat_add,
    UInt64.toNat_ofNat', Nat.add_mod_mod, Nat.mod_mod_of_dvd _ h.bufferSize_dvd]

/-- Two cursors less than a buffer apart have different slots. -/
theorem Wf.slot_ne (h : r.Wf) (c : UInt64) {i n : Nat} (hi : i < n) (hn : n < r.bufferSize) :
    r.slot (c + UInt64.ofNat i) ≠ r.slot (c + UInt64.ofNat n) := by
  rw [h.slot_add, h.slot_add]
  intro heq
  have hdvd : (c.toNat + n - (c.toNat + i)) % r.bufferSize = 0 :=
    Nat.sub_mod_eq_zero_of_mod_eq heq.symm
  rw [Nat.mod_eq_of_lt (by omega)] at hdvd
  omega

theorem head_eq (r : TradeRing) : r.head = r.tail + UInt64.ofNat r.size := by
  rw [size, UInt64.ofNat_toNat, UInt64.add_comm, UInt64.sub_add_cancel]

theorem size_eq_zero : r.size = 0 ↔ r.empty = true := by
  rw [size, empty, beq_iff_eq, ← UInt64.toNat_zero, UInt64.toNat_inj]
  constructor
  · intro h
    rw [← UInt64.sub_add_cancel r.head r.tail, h, UInt64.zero_add]
  · intro h
    rw [h, UInt64.sub_self]

/-! ## push and pop -/

theorem push_of_full (h : r.full = true) :
    r.push t = (false, { r with dropCount := r.dropCount + 1 }) := if_pos h

theorem Wf.size_push (h : r.Wf) (hfull : r.full = false) : (r.push t).2.size = r.size + 1 := by
  have hle := h.bufferSize_le
  have hsize := h.size_le
  have hne : r.size ≠ r.bufferSize := by simpa [full] using hfull
  have hadd : r.head + 1 - r.tail = (r.head - r.tail) + 1 := by
    simp only [UInt64.sub_eq_add_neg]
    ac_rfl
  rw [push, if_neg (by simp [hfull])]
  show (r.head + 1 - r.tail).toNat = _
  rw [hadd, UInt64.toNat_add]
  exact Nat.mod_eq_of_lt (by
    show r.size + 1 < 2 ^ 64
    omega)

/-- **A push into a ring with room appends.** -/
theorem Wf.push_contents (h : r.Wf) (hfull : r.full = false) :
    (r.push t).2.contents = r.contents ++ [t] := by
  have hsize := h.size_push (t := t) hfull
  have hne : r.size ≠ r.bufferSize := by simpa [full] using hfull
  have hle := h.size_le
  unfold contents
  rw [hsize, List.range_succ, List.map_append, List.map_singleton]
  have hpush : r.push t = (true, { r with
      buffer := Function.update r.buffer (r.slot r.head) t, head := r.head + 1 }) :=
    if_neg (by simp [hfull])
  rw [hpush]
  congr 1
  · -- the slots before the new one are read as before
    refine List.map_congr_left fun i hi => ?_
    rw [List.mem_range] at hi
    show Function.update r.buffer (r.slot r.head) t (r.slot (r.tail + UInt64.ofNat i)) = _
    rw [head_eq r, Function.update_of_ne (h.slot_ne _ hi (by omega))]
  · show [Function.update r.buffer (r.slot r.head) t (r.slot (r.tail + UInt64.ofNat r.size))] = _
    rw [← head_eq r, Function.update_self]

theorem Wf.push (h : r.Wf) (t : Trade) : (r.push t).2.Wf := by
  by_cases hfull : r.full = true
  · rw [push_of_full hfull]
    exact ⟨h.pow, h.mask, h.size_le⟩
  · have hfull' : r.full = false := by simpa using hfull
    have hbuf : (r.push t).2.bufferSize = r.bufferSize := by
      rw [TradeRing.push, if_neg hfull]
    have hmask : (r.push t).2.mask = r.mask := by
      rw [TradeRing.push, if_neg hfull]
    have hle := h.size_le
    have hne : r.size ≠ r.bufferSize := by simpa [full] using hfull
    refine ⟨hbuf ▸ h.pow, by rw [hbuf, hmask]; exact h.mask, ?_⟩
    rw [h.size_push hfull', hbuf]
    omega

theorem pop_of_empty (h : r.empty = true) : r.pop = (none, r) := if_pos h

/-- **A pop from a ring with a trade takes the oldest.** -/
theorem pop_spec (hne : r.empty = false) :
    ∃ t r', r.pop = (some t, r') ∧ r.contents = t :: r'.contents ∧ r.size = r'.size + 1
      ∧ r'.bufferSize = r.bufferSize ∧ r'.mask = r.mask ∧ r'.dropCount = r.dropCount := by
  have hpos : 0 < r.size := by
    rw [Nat.pos_iff_ne_zero, Ne, size_eq_zero]
    simp [hne]
  have hsub : r.head - (r.tail + 1) = (r.head - r.tail) - 1 := by
    simp only [UInt64.sub_eq_add_neg, UInt64.neg_add]
    ac_rfl
  have hsize : ({ r with tail := r.tail + 1 } : TradeRing).size + 1 = r.size := by
    show (r.head - (r.tail + 1)).toNat + 1 = (r.head - r.tail).toNat
    have hle : (1 : UInt64) ≤ r.head - r.tail := by
      rw [UInt64.le_iff_toNat_le]
      exact hpos
    rw [hsub, UInt64.toNat_sub_of_le _ _ hle]
    exact Nat.sub_add_cancel hpos
  refine ⟨_, _, if_neg (by simp [hne]), ?_, hsize.symm, rfl, rfl, rfl⟩
  unfold contents
  rw [← hsize, List.range_succ_eq_map, List.map_cons, List.map_map]
  congr 1
  · show r.buffer (r.slot (r.tail + 0)) = _
    rw [UInt64.add_zero]
  · refine List.map_congr_left fun i _ => ?_
    show r.buffer (r.slot (r.tail + UInt64.ofNat (i + 1))) = r.buffer (r.slot (r.tail + 1 + _))
    rw [UInt64.ofNat_add, UInt64.add_comm (UInt64.ofNat i), ← UInt64.add_assoc]
    rfl

theorem Wf.pop (h : r.Wf) : r.pop.2.Wf := by
  by_cases he : r.empty = true
  · rw [pop_of_empty he]
    exact h
  · obtain ⟨t, r', hpop, -, hsize, hbuf, hmask, -⟩ := pop_spec (by simpa using he)
    have := h.size_le
    rw [hpop]
    exact ⟨hbuf ▸ h.pow, by rw [hbuf, hmask]; exact h.mask, by
      show r'.size ≤ r'.bufferSize
      omega⟩

end Facts

/-- A ring that was never written, with both cursors at `cursor`. -/
def startAt (r : TradeRing) (cursor : UInt64) : TradeRing := { r with head := cursor, tail := cursor }

/-- **The constructor ends with an empty ring for every capacity up to `2^63`**, and the ring may
start from any common value of its cursors. -/
theorem new_spec {capacity : Nat} (hc : capacity ≤ 2 ^ 63) :
    ∃ r, new capacity = some r ∧ r.dropCount = 0 ∧ r.startAt 0 = r
      ∧ ∀ cursor, (r.startAt cursor).Wf ∧ (r.startAt cursor).size = 0 := by
  have hstop : decide (2 ^ 63 < if capacity = 0 then 1 else capacity) = false := by
    rw [decide_eq_false_iff_not]
    split <;> omega
  obtain ⟨k, -, h63, hsize⟩ := doubleWhile_spec
    (fun p => decide (p < if capacity = 0 then 1 else capacity)) hstop 65 0 (by omega) (by omega)
  rw [Nat.pow_zero] at hsize
  refine ⟨_, by rw [new, roundUpPow2, hsize]; rfl, rfl, rfl, fun cursor => ?_⟩
  have hempty : (cursor - cursor).toNat = 0 := by rw [UInt64.sub_self]; rfl
  have hpos := Nat.two_pow_pos k
  have hlt : 2 ^ k < 2 ^ 64 := Nat.pow_lt_pow_right (by omega) (by omega)
  refine ⟨⟨⟨k, h63, rfl⟩, ?_, ?_⟩, hempty⟩
  · show (UInt64.ofNat (2 ^ k - 1)).toNat + 1 = 2 ^ k
    rw [UInt64.toNat_ofNat', Nat.mod_eq_of_lt (by omega)]
    omega
  · show (cursor - cursor).toNat ≤ _
    rw [hempty]
    exact Nat.zero_le _

theorem empty_of_new {capacity : Nat} {r : TradeRing} (h : new capacity = some r) : r.empty = true := by
  obtain ⟨size, -, rfl⟩ := Option.map_eq_some_iff.mp h
  rfl

/-- A constructor that ends was asked for at most `2^63` trades. -/
theorem capacity_le_of_new {capacity : Nat} {r : TradeRing} (h : new capacity = some r) :
    capacity ≤ 2 ^ 63 := by
  by_contra hbig
  have hpow : ∀ k ≤ 63, decide (2 ^ k < if capacity = 0 then 1 else capacity) = true := fun k hk => by
    have : 2 ^ k ≤ 2 ^ 63 := Nat.pow_le_pow_right (by omega) hk
    refine decide_eq_true ?_
    split <;> omega
  have hstuck := (@doubleWhile_stuck
    (fun p => decide (p < if capacity = 0 then 1 else capacity)) hpow
    (decide_eq_true (by split <;> omega)) 65 0 (by omega)).1
  rw [Nat.pow_zero] at hstuck
  rw [new, roundUpPow2, hstuck] at h
  simp at h

/-! ## The ring accounts for every trade -/

/-- What the ring's surroundings have seen: the trades popped, and the trades emitted, each with the
number of trades the ring held at that moment. -/
structure Accounts (r : TradeRing) (capacity : Nat) (popped : List Trade)
    (emitted : List (Trade × Nat)) : Prop where
  wf : r.Wf
  size : r.bufferSize = capacity
  kept : popped ++ r.contents = (emitted.filter fun e => e.2 ≠ capacity).map Prod.fst
  dropped : r.dropCount = UInt64.ofNat (emitted.filter fun e => e.2 = capacity).length

section Accounting

variable {r : TradeRing} {capacity : Nat} {popped : List Trade} {emitted : List (Trade × Nat)}

theorem accounts_new (h : r.Wf) (hsize : r.size = 0) (hdrop : r.dropCount = 0) :
    r.Accounts r.bufferSize [] [] :=
  ⟨h, rfl, by simp [contents, hsize], by simp [hdrop]⟩

theorem push_bufferSize (r : TradeRing) (t : Trade) : (r.push t).2.bufferSize = r.bufferSize := by
  unfold TradeRing.push
  split <;> rfl

/-- **A push is accounted for**: appended when there is room, counted when there is none. -/
theorem Accounts.push (h : r.Accounts capacity popped emitted) (t : Trade) :
    (r.push t).2.Accounts capacity popped (emitted ++ [(t, r.size)]) := by
  have hcap := h.size
  by_cases hfull : r.full = true
  · have hsize : r.size = capacity := by
      rw [← hcap]
      simpa [full] using hfull
    refine ⟨h.wf.push t, (push_bufferSize r t).trans hcap, ?_, ?_⟩
    · rw [push_of_full hfull]
      show popped ++ r.contents = _
      simp [h.kept, hsize]
    · rw [push_of_full hfull]
      show r.dropCount + 1 = _
      simp [h.dropped, hsize, UInt64.ofNat_add]
  · have hfull' : r.full = false := by simpa using hfull
    have hsize : r.size ≠ capacity := by
      rw [← hcap]
      simpa [full] using hfull
    have hdrop : (r.push t).2.dropCount = r.dropCount := by
      rw [TradeRing.push, if_neg hfull]
    refine ⟨h.wf.push t, (push_bufferSize r t).trans hcap, ?_, ?_⟩
    · rw [h.wf.push_contents hfull', ← List.append_assoc, h.kept]
      simp [hsize]
    · rw [hdrop, h.dropped]
      simp [hsize]

/-- **A pop is accounted for.** -/
theorem Accounts.pop (h : r.Accounts capacity popped emitted) :
    r.pop.2.Accounts capacity (popped ++ r.pop.1.toList) emitted := by
  by_cases he : r.empty = true
  · rw [pop_of_empty he]
    simpa using h
  · obtain ⟨t, r', hpop, hcont, -, hbuf, -, hdrop⟩ := pop_spec (by simpa using he)
    have hwf := h.wf.pop
    rw [hpop] at hwf ⊢
    refine ⟨hwf, hbuf.trans h.size, ?_, hdrop.trans h.dropped⟩
    show popped ++ [t] ++ r'.contents = _
    rw [← h.kept, hcont]
    simp

/-- Emitted = popped + still in the ring + dropped. -/
theorem Accounts.total (h : r.Accounts capacity popped emitted) :
    emitted.length = popped.length + r.size + (emitted.filter fun e => e.2 = capacity).length := by
  have hkept := congrArg List.length h.kept
  have hsplit := List.length_eq_length_filter_add
    (l := emitted) (fun e => decide (e.2 = capacity))
  rw [List.length_append, length_contents, List.length_map] at hkept
  rw [hsplit, hkept]
  simp [Nat.add_comm]

end Accounting

end TradeRing

end Lob
