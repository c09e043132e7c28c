/-
# Lob.OutsideOpens — what `levels_opened_outside_window` counts.

`PriceLadder::open` runs for every order that rests, and bumps the counter whenever the price is
outside the window, whether or not the level there was open.  So the counter is the number of orders
rested outside the window (`outsideOpens_eq`), and equals the number of levels opened there exactly in
the runs where no order joins an occupied one.
-/
import Lob.RunRefine

namespace Lob.OrderBook

/-! ## What a call does outside the window -/

/-- The call rests an order at a price outside the window. -/
def Record.restsOutside (r : Record) : Bool :=
  match r.before.insertPoint r.call with
  | none => false
  | some (pre, order) =>
    !((pre.placeFirst order.side order.price).ladder order.side).inWindow order.price

/-- The call opens a level outside the window: no order rested at the price until then. -/
def Record.opensOutside (r : Record) : Bool :=
  match r.before.insertPoint r.call with
  | none => false
  | some (pre, order) => r.restsOutside && pre.orderCountAt order.side order.price == some 0

section Counting

variable {b₀ b : OrderBook} {past : List Record} {r : Record}

theorem restsOutside_of_opensOutside (h : r.opensOutside = true) : r.restsOutside = true := by
  unfold Record.opensOutside at h
  split at h
  · simp at h
  · exact (Bool.and_eq_true_iff.mp h).1

/-- **A call moves the counter by the order it rests outside the window.** -/
theorem Recorded.levels {policy : SelfTradePolicy} {a : PriorityBook} (h : Recorded policy a r) :
    r.after.levelsOpenedOutsideWindow
      = r.before.levelsOpenedOutsideWindow + if r.restsOutside then 1 else 0 := by
  have hopens := h.opens
  unfold Record.restsOutside
  cases hpoint : r.before.insertPoint r.call with
  | none =>
    rw [hpoint] at hopens
    have hbids : r.after.bids.outsideOpens = r.before.bids.outsideOpens := hopens .buy
    have hasks : r.after.asks.outsideOpens = r.before.asks.outsideOpens := hopens .sell
    simp [levelsOpenedOutsideWindow, hbids, hasks]
  | some point =>
    obtain ⟨pre, order⟩ := point
    rw [hpoint] at hopens
    obtain ⟨hside, hopp⟩ := hopens
    simp only
    by_cases hin : ((pre.placeFirst order.side order.price).ladder order.side).inWindow order.price
        = true
    · rw [if_pos hin] at hside
      have hall : ∀ s, (r.after.ladder s).outsideOpens = (r.before.ladder s).outsideOpens := by
        intro s
        rcases Side.eq_or_eq_opposite order.side s with rfl | rfl
        · exact hside
        · exact hopp
      have hbids : r.after.bids.outsideOpens = r.before.bids.outsideOpens := hall .buy
      have hasks : r.after.asks.outsideOpens = r.before.asks.outsideOpens := hall .sell
      simp [levelsOpenedOutsideWindow, hbids, hasks, hin]
    · rw [if_neg hin] at hside
      rw [if_pos (by simpa using hin)]
      unfold levelsOpenedOutsideWindow
      cases hs : order.side with
      | buy =>
        rw [hs] at hside hopp
        have hbids : r.after.bids.outsideOpens = r.before.bids.outsideOpens + 1 := hside
        have hasks : r.after.asks.outsideOpens = r.before.asks.outsideOpens := hopp
        rw [hbids, hasks]
        ac_rfl
      | sell =>
        rw [hs] at hside hopp
        have hasks : r.after.asks.outsideOpens = r.before.asks.outsideOpens + 1 := hside
        have hbids : r.after.bids.outsideOpens = r.before.bids.outsideOpens := hopp
        rw [hbids, hasks]
        ac_rfl

/-- **The counter is the number of orders rested outside the window.** -/
theorem Run.outsideOpens_eq {Q₀ : Layout} {free₀ : List SlotIndex} (h₀ : b₀.Follows {} Q₀ free₀)
    (hzero : ∀ s, (b₀.ladder s).outsideOpens = 0) (hrun : Run b₀ past b) :
    b.levelsOpenedOutsideWindow = UInt64.ofNat (past.countP Record.restsOutside) := by
  induction hrun with
  | start =>
    have hbids : b₀.bids.outsideOpens = 0 := hzero .buy
    have hasks : b₀.asks.outsideOpens = 0 := hzero .sell
    simp [levelsOpenedOutsideWindow, hbids, hasks]
  | @call past b b' mem c reply events hrun hcall ih =>
    have hrec : Recorded b₀.policy (replayOf b₀ past) ⟨b, c, reply, events, b'⟩ :=
      (Run.call mem c reply events hrun hcall).recorded_head h₀
    have hlevels := hrec.levels
    rw [ih] at hlevels
    rw [List.countP_cons, UInt64.ofNat_add]
    refine hlevels.trans ?_
    split <;> rfl

/-- The orders rested outside the window are the levels opened there and the orders that joined one. -/
theorem countP_restsOutside (past : List Record) :
    past.countP Record.restsOutside = past.countP Record.opensOutside
      + past.countP fun r => r.restsOutside && !r.opensOutside := by
  induction past with
  | nil => rfl
  | cons r past ih =>
    rw [List.countP_cons, List.countP_cons, List.countP_cons, ih]
    have hopens := restsOutside_of_opensOutside (r := r)
    cases hr : r.restsOutside <;> cases ho : r.opensOutside <;> simp_all <;> omega

variable {scrub : RestingOrder → RestingOrder} {cfg : Config}

/-- **The counter counts levels in every run where no order joins an occupied level outside the
window**, and, while it cannot have wrapped, in no other. -/
theorem levels_opened_outside_window_iff (hnew : OrderBook.new scrub cfg = some b₀)
    (hrun : Run b₀ past b) :
    ((∀ r ∈ past, r.restsOutside = true → r.opensOutside = true) →
      b.levelsOpenedOutsideWindow = UInt64.ofNat (past.countP Record.opensOutside)) ∧
    (past.length < 2 ^ 64 →
      b.levelsOpenedOutsideWindow = UInt64.ofNat (past.countP Record.opensOutside) →
      ∀ r ∈ past, r.restsOutside = true → r.opensOutside = true) := by
  obtain ⟨h₀, -, -, hzero⟩ := new_follows hnew
  have hlevels := hrun.outsideOpens_eq h₀ hzero
  have hsplit := countP_restsOutside past
  constructor
  · intro hjoin
    have hnone : (past.countP fun r => r.restsOutside && !r.opensOutside) = 0 := by
      refine List.countP_eq_zero.mpr fun r hr hbad => ?_
      simp only [Bool.and_eq_true, Bool.not_eq_true'] at hbad
      rw [hjoin r hr hbad.1] at hbad
      simp at hbad
    rw [hlevels, hsplit, hnone, Nat.add_zero]
  · intro hlen heq r hr hout
    have hle : past.countP Record.restsOutside ≤ past.length := List.countP_le_length
    rw [hlevels, ← UInt64.toNat_inj, UInt64.toNat_ofNat', UInt64.toNat_ofNat',
      Nat.mod_eq_of_lt (by omega), Nat.mod_eq_of_lt (by omega)] at heq
    have hnone : (past.countP fun r => r.restsOutside && !r.opensOutside) = 0 := by omega
    have hgood := List.countP_eq_zero.mp hnone r hr
    simpa [hout] using hgood

/-- A window of four ticks at 0: two bids at 100 open one level and are counted twice. -/
theorem outside_level_counted_twice : ∃ b₀ past b,
    OrderBook.new id { priceLevels := 4, priceBase := some 0 } = some b₀ ∧ Run b₀ past b
    ∧ past.map Record.call = [.addLimit 2 8 .buy 100 5, .addLimit 1 7 .buy 100 5]
    ∧ past.countP Record.opensOutside = 1 ∧ b.levelsOpenedOutsideWindow = 2
    ∧ b.levelsOpenedOutsideWindow ≠ UInt64.ofNat (past.countP Record.opensOutside) := by
  obtain ⟨b₀, past, b, ⟨⟩, hnew, hrun, hcalls, hf⟩ :=
    exists_run id { priceLevels := 4, priceBase := some 0 } {}
      [.addLimit 2 8 .buy 100 5, .addLimit 1 7 .buy 100 5]
      (fun past b => if past.countP Record.opensOutside = 1 ∧ b.levelsOpenedOutsideWindow = 2 then
        some () else none) (by decide +kernel)
  split at hf
  · rename_i hfacts
    obtain ⟨hcount, hlevels⟩ := hfacts
    exact ⟨b₀, past, b, hnew, hrun, hcalls, hcount, hlevels, by rw [hcount, hlevels]; decide⟩
  · simp at hf

/-- Two bids outside a window of four ticks, at two prices. -/
theorem levels_opened_outside_window_iff_apart : ∃ b₀ past b,
    OrderBook.new id { priceLevels := 4, priceBase := some 0 } = some b₀ ∧ Run b₀ past b
    ∧ past.map Record.call = [.addLimit 2 8 .buy 101 5, .addLimit 1 7 .buy 100 5]
    ∧ b.levelsOpenedOutsideWindow = UInt64.ofNat (past.countP Record.opensOutside) := by
  obtain ⟨b₀, past, b, ⟨⟩, hnew, hrun, hcalls, hf⟩ :=
    exists_run id { priceLevels := 4, priceBase := some 0 } {}
      [.addLimit 2 8 .buy 101 5, .addLimit 1 7 .buy 100 5]
      (fun past _ => if past.all Record.opensOutside = true then some () else none)
      (by decide +kernel)
  split at hf
  · rename_i hall
    refine ⟨b₀, past, b, hnew, hrun, hcalls,
      (levels_opened_outside_window_iff hnew hrun).1 fun r hr _ => ?_⟩
    exact List.all_eq_true.mp hall r hr
  · simp at hf

end Counting

end Lob.OrderBook
