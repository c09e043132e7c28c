/-
# Lob.Types — the vocabulary of the order book.

Ids, prices, quantities and slot indices have the source's own widths.  Two types are not in the
source: `Throw` names the exceptions a call may raise, and `Result` says how a call ends, with the
state it leaves behind in the first two cases, since an exception does not roll anything back.
-/
import Mathlib.Algebra.Ring.Nat
import Mathlib.Logic.Function.Basic
import Mathlib.Order.Defs.Unbundled

namespace Lob

abbrev OrderId := UInt64
/-- Ticks. -/
abbrev Price := UInt64
abbrev Quantity := UInt32
/-- Level totals and resting volume. -/
abbrev Volume := UInt64
abbrev ParticipantId := UInt32
abbrev Sequence := UInt64
abbrev SlotIndex := UInt32

/-- Orders owned by `kAnonymous` never trigger self-trade prevention. -/
def kAnonymous : ParticipantId := 0

/-- The reserved slot index that ends every chain. -/
def kNoSlot : SlotIndex := 0xFFFFFFFF

/-- The greatest 64-bit price. -/
def maxPrice : Price := 0xFFFFFFFFFFFFFFFF

inductive Side
  | buy
  | sell
  deriving DecidableEq, Repr

namespace Side

/-- The side a taker matches against. -/
def opposite : Side → Side
  | buy => sell
  | sell => buy

/-- The template argument of the side's ladder. -/
def isBid : Side → Bool
  | buy => true
  | sell => false

@[simp] theorem opposite_opposite (s : Side) : s.opposite.opposite = s := by cases s <;> rfl

theorem opposite_ne (s : Side) : s.opposite ≠ s := by cases s <;> decide

theorem eq_or_eq_opposite (s t : Side) : t = s ∨ t = s.opposite := by
  cases s <;> cases t <;> simp [opposite]

end Side

/-- What happens when an order would match another order with the same owner. -/
inductive SelfTradePolicy
  | allow
  | cancelResting
  | cancelIncoming
  deriving DecidableEq, Repr

/-- An order as the API reports it. -/
structure Order where
  id : OrderId
  owner : ParticipantId
  price : Price
  qty : Quantity
  side : Side
  deriving DecidableEq, Repr

/-- What the book keeps per resting order. -/
structure RestingOrder where
  id : OrderId
  price : Price
  qty : Quantity
  owner : ParticipantId
  deriving DecidableEq, Repr

/-- A resting order together with the side its ladder stands for. -/
def RestingOrder.toOrder (s : Side) (r : RestingOrder) : Order :=
  ⟨r.id, r.owner, r.price, r.qty, s⟩

/-- The resting orders at one price: a FIFO queue threaded through the order pool. -/
structure PriceLevel where
  totalQty : Volume := 0
  /-- Oldest. -/
  head : SlotIndex := kNoSlot
  /-- Newest. -/
  tail : SlotIndex := kNoSlot
  deriving DecidableEq, Repr

/-- A level with no order in its queue. -/
def PriceLevel.empty (l : PriceLevel) : Bool := l.head == kNoSlot

/-- One fill, always printed at the resting order's price. -/
structure Trade where
  seq : Sequence
  makerId : OrderId
  takerId : OrderId
  price : Price
  qty : Quantity
  takerSide : Side
  deriving DecidableEq, Repr

/-- What one turn of a matching loop does to the far side: a fill, or the removal of a resting order
by self-trade prevention. -/
inductive Act
  | fill (t : Trade)
  | stpCancel (o : RestingOrder)
  deriving DecidableEq, Repr

/-- What happened to an incoming order. -/
structure ExecReport where
  firstSeq : Sequence := 0
  tradeCount : UInt32 := 0
  filled : Quantity := 0
  remaining : Quantity := 0
  stpCancelled : Volume := 0
  rested : Bool := false
  accepted : Bool := true
  stpHalted : Bool := false
  deriving DecidableEq, Repr

/-- What a client may do: a book call, or a pop of the trade ring. -/
inductive Call
  | addLimit (id : OrderId) (owner : ParticipantId) (side : Side) (price : Price) (qty : Quantity)
  | addMarket (id : OrderId) (owner : ParticipantId) (side : Side) (qty : Quantity)
  | cancel (id : OrderId)
  | modify (id : OrderId) (newPrice : Price) (newQty : Quantity)
  | pop
  deriving DecidableEq, Repr

/-- The id a call may put on the book. -/
def Call.limitId : Call → Option OrderId
  | addLimit id _ _ _ _ => some id
  | modify id _ _ => some id
  | _ => none

inductive Reply
  | report (r : ExecReport)
  | cancelled (b : Bool)
  | popped (t : Option Trade)
  deriving DecidableEq, Repr

/-- The trades a reply hands to the client. -/
def Reply.handed : Reply → List Trade
  | popped t => t.toList
  | _ => []

/-- The report a reply carries. -/
def Reply.reported : Reply → Option ExecReport
  | report rep => some rep
  | _ => none

theorem Reply.reported_eq_some {reply : Reply} {rep : ExecReport} :
    reply.reported = some rep ↔ reply = .report rep := by
  cases reply <;> simp [reported]

/-- The exceptions of the source. -/
inductive Throw
  | badAlloc
  | lengthError
  deriving DecidableEq, Repr

/-- How a call ends: with a value, with an exception, or not at all.  `undefined` stands for a loop
that never leaves and for a subscript out of range. -/
inductive Result (σ : Type) (α : Type)
  | ok (a : α) (s : σ)
  | throws (e : Throw) (s : σ)
  | undefined

/-- The exception a call ended with, and what it left behind. -/
def Result.thrown {σ α : Type} : Result σ α → Option (Throw × σ)
  | throws e s => some (e, s)
  | _ => none

theorem Result.thrown_eq_some {σ α : Type} {r : Result σ α} {e : Throw} {s : σ} :
    r.thrown = some (e, s) ↔ r = .throws e s := by
  cases r <;> simp [thrown]

/-- Which of the allocations a call may ask for would succeed: a fallback-map node, a larger slot
block, a larger id table. -/
structure Memory where
  node : Bool := true
  slots : Bool := true
  table : Bool := true
  deriving DecidableEq, Repr

/-- Whether a level satisfies the taker's limit; a market order takes any price. -/
def crosses (side : Side) (limit : Option Price) (levelPrice : Price) : Bool :=
  match limit with
  | none => true
  | some limit => if side = .buy then decide (levelPrice ≤ limit) else decide (limit ≤ levelPrice)

/-! ## Totals -/

/-- The total quantity of some orders. -/
def volume (os : List RestingOrder) : Nat := (os.map fun o => o.qty.toNat).sum

@[simp] theorem volume_nil : volume [] = 0 := rfl

@[simp] theorem volume_cons (o : RestingOrder) (os : List RestingOrder) :
    volume (o :: os) = o.qty.toNat + volume os := rfl

@[simp] theorem volume_append (os os' : List RestingOrder) :
    volume (os ++ os') = volume os + volume os' := by
  simp [volume]

theorem volume_perm {os os' : List RestingOrder} (h : os.Perm os') : volume os = volume os' :=
  (h.map _).sum_nat

theorem volume_filter_le (f : RestingOrder → Bool) (os : List RestingOrder) :
    volume (os.filter f) ≤ volume os := by
  induction os with
  | nil => exact Nat.le_refl 0
  | cons o os ih =>
    rw [List.filter_cons, volume_cons]
    split
    · exact Nat.add_le_add_left ih _
    · exact Nat.le_trans ih (Nat.le_add_left _ _)

/-! ## Doubling loops -/

/-- `while (more(p)) p *= 2`, in 64 bits.  Past 64 doublings `p` is 0 and stays 0, so a loop that has
not stopped within 65 rounds never does. -/
def doubleWhile (more : Nat → Bool) : Nat → Nat → Option Nat
  | 0, _ => none
  | fuel + 1, p => if more p then doubleWhile more fuel (p * 2 % 2 ^ 64) else some p

/-- A doubling loop ends where its test fails. -/
theorem doubleWhile_done {more : Nat → Bool} {cap : Nat} {fuel p : Nat}
    (h : doubleWhile more fuel p = some cap) : more cap = false := by
  induction fuel generalizing p with
  | zero => simp [doubleWhile] at h
  | succ fuel ih =>
    unfold doubleWhile at h
    split at h
    · exact ih h
    · rename_i hstop
      obtain rfl := Option.some.inj h
      simpa using hstop

/-- A doubling loop that started at a power of two and stops by `2^63` ends at a power of two. -/
theorem doubleWhile_spec (more : Nat → Bool) (hstop : more (2 ^ 63) = false) :
    ∀ fuel k, k ≤ 63 → 63 < k + fuel →
      ∃ k', k ≤ k' ∧ k' ≤ 63 ∧ doubleWhile more fuel (2 ^ k) = some (2 ^ k') := by
  intro fuel
  induction fuel with
  | zero => intro k h63 hf; omega
  | succ fuel ih =>
    intro k h63 hf
    unfold doubleWhile
    by_cases hmore : more (2 ^ k)
    · have hk : k < 63 := by
        refine Nat.lt_of_le_of_ne h63 fun heq => ?_
        rw [heq, hstop] at hmore
        simp at hmore
      have hpow : 2 ^ k * 2 % 2 ^ 64 = 2 ^ (k + 1) := by
        rw [← Nat.pow_succ]
        exact Nat.mod_eq_of_lt (Nat.pow_lt_pow_right (by omega) (by omega))
      obtain ⟨k', hle, hle', hrun⟩ := ih (k + 1) (by omega) (by omega)
      rw [if_pos hmore, hpow]
      exact ⟨k', by omega, hle', hrun⟩
    · exact ⟨k, Nat.le_refl k, h63, by rw [if_neg hmore]⟩

/-- A doubling loop that ends does so at the first power of two that fails its test. -/
theorem doubleWhile_stops {more : Nat → Bool} {k' : Nat} :
    ∀ fuel k, k ≤ k' → k' ≤ 63 → (∀ j, k ≤ j → j < k' → more (2 ^ j) = true) →
      more (2 ^ k') = false → k' < k + fuel → doubleWhile more fuel (2 ^ k) = some (2 ^ k') := by
  intro fuel
  induction fuel with
  | zero => intro k hle _ _ _ hf; omega
  | succ fuel ih =>
    intro k hle h63 hgo hstop hf
    unfold doubleWhile
    by_cases heq : k = k'
    · rw [heq, hstop, if_neg (by simp)]
    · have hpow : 2 ^ k * 2 % 2 ^ 64 = 2 ^ (k + 1) := by
        rw [← Nat.pow_succ]
        exact Nat.mod_eq_of_lt (Nat.pow_lt_pow_right (by omega) (by omega))
      rw [if_pos (hgo k (Nat.le_refl k) (by omega)), hpow]
      exact ih (k + 1) (by omega) h63 (fun j hj => hgo j (by omega)) hstop (by omega)

/-- A doubling loop whose test never fails does not end. -/
theorem doubleWhile_stuck {more : Nat → Bool} (hpow : ∀ k ≤ 63, more (2 ^ k) = true)
    (hzero : more 0 = true) :
    ∀ fuel k, k ≤ 63 → doubleWhile more fuel (2 ^ k) = none ∧ doubleWhile more fuel 0 = none := by
  intro fuel
  induction fuel with
  | zero => intro k _; exact ⟨rfl, rfl⟩
  | succ fuel ih =>
    intro k hk
    have hz : doubleWhile more (fuel + 1) 0 = none := by
      rw [doubleWhile, if_pos hzero]
      exact (ih k hk).2
    refine ⟨?_, hz⟩
    rw [doubleWhile, if_pos (hpow k hk)]
    by_cases hlast : k = 63
    · subst hlast
      exact (ih 0 (by omega)).2
    · have hpow' : 2 ^ k * 2 % 2 ^ 64 = 2 ^ (k + 1) := by
        rw [← Nat.pow_succ]
        exact Nat.mod_eq_of_lt (Nat.pow_lt_pow_right (by omega) (by omega))
      rw [hpow']
      exact (ih (k + 1) (by omega)).1

/-! ## The two price rankings -/

/-- Whether price `a` ranks strictly before price `b`: higher for bids, lower for asks. -/
def better : Bool → Price → Price → Prop
  | true, a, b => b < a
  | false, a, b => a < b

instance better.decidable (isBid : Bool) : DecidableRel (better isBid) := fun a b =>
  match isBid with
  | true => inferInstanceAs (Decidable (b < a))
  | false => inferInstanceAs (Decidable (a < b))

theorem better_iff {isBid : Bool} {a b : Price} :
    better isBid a b ↔ if isBid then b.toNat < a.toNat else a.toNat < b.toNat := by
  cases isBid <;> simp [better, UInt64.lt_iff_toNat_lt]

instance better.strictTotal (isBid : Bool) : IsStrictTotalOrder Price (better isBid) where
  trichotomous a b h h' := by
    rw [better_iff] at h h'
    apply UInt64.toNat_inj.mp
    split at h <;> simp_all <;> omega
  irrefl a h := by
    rw [better_iff] at h
    split at h <;> omega
  trans a b c h h' := by
    rw [better_iff] at h h' ⊢
    split at h <;> simp_all <;> omega

end Lob
