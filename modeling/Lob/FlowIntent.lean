/-
# Lob.FlowIntent — what the generator means each operation to do.

`Meant a e` is the generator's intent, said of the priority book that has seen the flow so far: an add
takes a fresh id, a whole number of lots and a price off the far touch; a cancel and a modify name a
live order; a marketable limit is priced 0 to 2 ticks past the touch.  Nothing is said about wrapping:
`touch - 1` and `touch - through` are the machine's.

The generator's book is itself a replay of the flow, drained between operations, so what holds of
every drained replay holds of it.  `Upheld` is the invariant of the generator's members.
-/
import Lob.Flow
import Lob.TradeStream
import Lob.Untouched

namespace Lob.Flow

open Lib.Draws OrderBook

/-! ## Replays of a flow -/

/-- The priority book after the ops of a flow, newest first. -/
def bookOf (policy : SelfTradePolicy) (es : List Emission) : PriorityBook :=
  PriorityBook.replay policy (es.map fun e => e.op.call)

/-- A history whose calls are the ops of a flow, with pops of the ring among them. -/
inductive Replays : List Emission → List Record → Prop
  | start : Replays [] []
  | pop {es : List Emission} {past : List Record} {r : Record} (h : Replays es past)
      (hcall : r.call = .pop) : Replays es (r :: past)
  | op {es : List Emission} {past : List Record} {e : Emission} {r : Record} (h : Replays es past)
      (hcall : r.call = e.op.call) : Replays (e :: es) (r :: past)

/-- Every op found the ring empty. -/
def Drained (past : List Record) : Prop := ∀ r ∈ past, r.call ≠ .pop → r.before.tradeOut.empty = true

theorem Op.call_ne_pop (op : Op) : op.call ≠ .pop := by
  unfold Op.call
  split
  · simp
  · simp
  · simp
  · cases op.market <;> simp

/-- **A replay brings the priority book where the flow does**: pops are nothing to it. -/
theorem Replays.replay {es : List Emission} {past : List Record} (h : Replays es past)
    (policy : SelfTradePolicy) :
    PriorityBook.replay policy (past.map Record.call) = bookOf policy es := by
  induction h with
  | start => rfl
  | pop _ hcall ih =>
    rw [List.map_cons, hcall]
    exact ih
  | op _ hcall ih =>
    rw [List.map_cons, hcall, bookOf, List.map_cons, PriorityBook.replay, PriorityBook.replay, ih]
    rfl

theorem Drained.cons {r : Record} {past : List Record} (h : Drained past)
    (hr : r.call ≠ .pop → r.before.tradeOut.empty = true) : Drained (r :: past) := by
  intro r' hr'
  rcases List.mem_cons.mp hr' with rfl | hmem
  · exact hr
  · exact h r' hmem

/-- The book of a replay follows the flow's priority book. -/
theorem Replays.follows {b₀ b : OrderBook} {es : List Emission} {past : List Record} {Q₀ : Layout}
    {free₀ : List SlotIndex} (h : Replays es past) (h₀ : b₀.Follows {} Q₀ free₀) (hrun : Run b₀ past b) :
    ∃ Q free, b.Follows (bookOf b₀.policy es) Q free := by
  rw [← h.replay]
  exact (hrun.follows h₀).1

/-- The price a side trades at is the best of the priority book's other side. -/
theorem Follows.farTouch {b : OrderBook} {a : PriorityBook} {Q : Layout} {free : List SlotIndex}
    (h : b.Follows a Q free) (side : Side) : Flow.farTouch b side = a.best side.opposite := by
  cases side with
  | buy => exact h.bestAsk
  | sell => exact h.bestBid

/-! ## Intent -/

/-- A whole number of lots, at least one and at most `n`. -/
def Lots (lot : Quantity) (n : Nat) (qty : Quantity) : Prop :=
  ∃ k, 0 < k ∧ k ≤ n ∧ qty.toNat = lot.toNat * k

/-- A price short of the far touch, or the touch moved back by a tick. -/
def OffTouch (touch : Option Price) (side : Side) (price : Price) : Prop :=
  ∀ t, touch = some t →
    match side with
    | .buy => price < t ∨ price = t - 1
    | .sell => t < price ∨ price = t + 1

/-- The price of a marketable limit. -/
def pastTouch (side : Side) (touch through : Price) : Price :=
  if side = .buy then touch + through else touch - through

/-- What the generator means with an operation, on the book that has seen the flow before it. -/
inductive Meant (lot : Quantity) (a : PriorityBook) : Emission → Prop
  | add {id : OrderId} {price : Price} {qty : Quantity} {owner : ParticipantId} {side : Side}
      (hid : a.live id = false) (hprice : OffTouch (a.best side.opposite) side price)
      (hqty : Lots lot 20 qty) : Meant lot a ⟨⟨id, price, qty, owner, .add, side, false⟩, 0⟩
  | cancel {id : OrderId} (hid : a.live id = true) :
      Meant lot a ⟨⟨id, 0, 0, 0, .cancel, .buy, false⟩, 0⟩
  | modify {id : OrderId} {price : Price} {qty : Quantity} {o : Order} (hfind : a.find id = some o)
      (hprice : OffTouch (a.best o.side.opposite) o.side price) (hqty : Lots lot 20 qty) :
      Meant lot a ⟨⟨id, price, qty, 0, .modify, o.side, false⟩, 0⟩
  | market {id : OrderId} {price : Price} {qty : Quantity} {owner : ParticipantId} {side : Side}
      (hid : a.live id = false) (hqty : Lots lot 1280 qty) :
      Meant lot a ⟨⟨id, price, qty, owner, .marketable, side, true⟩, 0⟩
  | limit {id : OrderId} {qty : Quantity} {owner : ParticipantId} {side : Side} {touch through : Price}
      (hid : a.live id = false) (hqty : Lots lot 1280 qty)
      (htouch : a.best side.opposite = some touch) (hthrough : through.toNat ≤ 2) :
      Meant lot a
        ⟨⟨id, pastTouch side touch through, qty, owner, .marketable, side, false⟩, through⟩

/-- A flow, newest op first, every op of which was meant on the book it found. -/
inductive Intended (lot : Quantity) (policy : SelfTradePolicy) : List Emission → Prop
  | start : Intended lot policy []
  | op {es : List Emission} {e : Emission} (h : Intended lot policy es)
      (hop : Meant lot (bookOf policy es) e) : Intended lot policy (e :: es)

theorem Intended.earlier {lot : Quantity} {policy : SelfTradePolicy} {later es : List Emission}
    (h : Intended lot policy (later ++ es)) : Intended lot policy es := by
  induction later with
  | nil => exact h
  | cons e later ih =>
    cases h with
    | op h _ => exact ih h

/-- Every op of an intended flow was meant on the book before it. -/
theorem Intended.meant {lot : Quantity} {policy : SelfTradePolicy} {later es : List Emission}
    {e : Emission} (h : Intended lot policy (later ++ e :: es)) : Meant lot (bookOf policy es) e := by
  cases h.earlier with
  | op _ hop => exact hop

/-! ## What the draws yield -/

section Draws

variable {cfg : Config}

theorem yields_below {n : UInt64} (hn : 0 < n.toNat) : Yields (below n) fun v => v.toNat < n.toNat := by
  have hne : n ≠ 0 := by
    rintro rfl
    simp at hn
  rw [below, if_neg hne]
  apply Yields.bind (yields_any next)
  intro v _
  apply Yields.pure
  rw [UInt64.toNat_mod]
  exact Nat.mod_lt _ hn

theorem yields_geometric (percent cap : UInt32) :
    Yields (geometric percent cap) fun n => n.toNat ≤ cap.toNat := by
  apply Yields.bind (yields_countWhile (chance percent) cap.toNat)
  intro n hn
  apply Yields.pure
  have hcap := cap.toNat_lt
  rw [UInt32.toNat_ofNat', Nat.mod_eq_of_lt (by omega)]
  exact hn

/-- A drawn size is 1 to 20 lots, as long as those fit. -/
theorem yields_randomQty (hfits : 1280 * cfg.lot.toNat < 2 ^ 32) :
    Yields (randomQty cfg) (Lots cfg.lot 20) := by
  apply Yields.bind (yields_geometric cfg.sizeDecayPercent 19)
  intro n hn
  apply Yields.pure
  have hn' : n.toNat ≤ 19 := hn
  have hone : (1 + n).toNat = 1 + n.toNat := by
    rw [UInt32.toNat_add]
    exact Nat.mod_eq_of_lt (by simp only [UInt32.toNat_one]; omega)
  refine ⟨1 + n.toNat, by omega, by omega, ?_⟩
  rw [UInt32.toNat_mul, hone, Nat.mod_eq_of_lt]
  calc cfg.lot.toNat * (1 + n.toNat) ≤ cfg.lot.toNat * 20 := Nat.mul_le_mul_left _ (by omega)
    _ < 2 ^ 32 := by omega

theorem yields_takes (depth : Nat) : Yields (takes cfg depth) fun n => 0 < n ∧ n ≤ 64 := by
  rw [takes]
  apply Yields.bind (yields_countWhile _ 63)
  intro n hn
  apply Yields.pure
  omega

/-- The sizes of up to 64 takes add up without wrapping. -/
theorem yields_takesQty (hfits : 1280 * cfg.lot.toNat < 2 ^ 32) {n : Nat} (hpos : 0 < n) (hn : n ≤ 64) :
    Yields (takesQty cfg n) (Lots cfg.lot 1280) := by
  have hsum := yields_foldDraws 64 (f := fun a b : Quantity => a + b)
    (I := fun k q => ∃ j, k ≤ j ∧ j ≤ 20 * k ∧ q.toNat = cfg.lot.toNat * j) (yields_randomQty hfits)
    ?_ n 0 0 ⟨0, by omega, by omega, by simp⟩ (by omega)
  · apply hsum.mono
    rintro q ⟨j, hj, hj', hq⟩
    exact ⟨j, by omega, by omega, hq⟩
  · rintro k q v hk ⟨j, hj, hj', hq⟩ ⟨i, hi, hi', hv⟩
    refine ⟨j + i, by omega, by omega, ?_⟩
    rw [UInt32.toNat_add, hq, hv, ← Nat.mul_add, Nat.mod_eq_of_lt]
    calc cfg.lot.toNat * (j + i) ≤ cfg.lot.toNat * 1280 := Nat.mul_le_mul_left _ (by omega)
      _ < 2 ^ 32 := by omega

/-- **A passive price stands off the far touch**, wherever the mid and the offset have gone. -/
theorem offTouch_off (mid : Price) (side : Side) (touch : Option Price) (off : Price) :
    OffTouch touch side (offTouch mid side touch off) := by
  rintro t rfl
  cases side with
  | buy =>
    simp only [offTouch]
    split
    · exact Or.inr rfl
    · rename_i hno
      exact Or.inl (UInt64.not_le.mp hno)
  | sell =>
    simp only [offTouch]
    split
    · exact Or.inr rfl
    · rename_i hno
      exact Or.inl (UInt64.not_le.mp hno)

theorem yields_passivePrice (mid : Price) (book : OrderBook) (side : Side) :
    Yields (passivePrice cfg mid book side) (OffTouch (farTouch book side) side) := by
  apply Yields.bind (yields_any (randomOffset cfg))
  intro off _
  exact .pure (offTouch_off mid side _ off)

/-- What `aim` decides: a market order, or a limit up to 2 ticks past the touch. -/
inductive Aimed (side : Side) : Option Price → Bool × Price × Price → Prop
  | market {touch : Option Price} : Aimed side touch (true, 0, 0)
  | limit {touch through : Price} (hthrough : through.toNat ≤ 2) :
      Aimed side (some touch) (false, pastTouch side touch through, through)

theorem yields_aim (side : Side) (touch : Option Price) : Yields (aim side touch) (Aimed side touch) := by
  cases touch with
  | none => exact .pure .market
  | some touch =>
    apply Yields.bind (yields_any (chance 50))
    intro market _
    apply Yields.ite
    · intro _
      exact .pure .market
    · intro _
      apply Yields.bind (yields_below (n := 3) (by decide))
      intro through hthrough
      exact .pure (.limit (Nat.le_of_lt_succ hthrough))

end Draws

end Lob.Flow
