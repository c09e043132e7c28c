/-
# Lob.Gauges — what is read off a book from outside.

Six accessors tell whoever runs a book where its window lies, how many orders rested outside it and how
far its stores have grown.  They read the ladders, the pool and the index, yet say nothing but what follows
from the configuration and the calls: what fresh slots held, and when trades were popped, does not show.
-/
import Lob.OutsideOpens
import Lob.PriceWindow
import Lob.Provision

namespace Lob

open Lib.Doubling

def Window.holds (w : Window) (price : Price) : Bool :=
  decide (w.lo ≤ price) && decide ((price - w.lo).toNat < w.limit)

/-! ## The history of a priority book -/

namespace PriorityBook

/-- The price at which a call rests an order, if it does. -/
def restPrice (policy : SelfTradePolicy) (a : PriorityBook) (c : Call) : Option Price :=
  (a.submission policy c).bind fun x => if x.rests then some x.leftover.price else none

/-- The same of the calls of a history, newest first. -/
def restPrices (policy : SelfTradePolicy) : List Call → List (Option Price)
  | [] => []
  | c :: cs => (replay policy cs).restPrice policy c :: restPrices policy cs

/-- The most orders a call of the history leaves. -/
def deepest (policy : SelfTradePolicy) : List Call → Nat
  | [] => 0
  | c :: cs => max (deepest policy cs) (replay policy (c :: cs)).orders.length

end PriorityBook

/-- The calls that are made of the book, and not of its ring. -/
def bookCalls (cs : List Call) : List Call := cs.filter fun c => decide (c ≠ .pop)

namespace OrderBook

/-! ## The accessors -/

def priceWindowBase (b : OrderBook) : Option Price := if b.bids.isPlaced then some b.bids.lo else none

def priceWindowLevels (b : OrderBook) : Nat := b.bids.limit

def orderPoolCapacity (b : OrderBook) : Nat := b.pool.capacity

structure Gauges where
  priceWindowBase : Option Price
  priceWindowLevels : Nat
  levelsOpenedOutsideWindow : UInt64
  orderPoolCapacity : Nat
  orderPoolGrowths : Nat
  idIndexGrowths : Nat
  deriving DecidableEq, Repr

def gauges (b : OrderBook) : Gauges where
  priceWindowBase := b.priceWindowBase
  priceWindowLevels := b.priceWindowLevels
  levelsOpenedOutsideWindow := b.levelsOpenedOutsideWindow
  orderPoolCapacity := b.orderPoolCapacity
  orderPoolGrowths := b.orderPoolGrowths
  idIndexGrowths := b.idIndexGrowths

/-! ## What they say -/

/-- The window after some calls. -/
def windowAfter (cfg : Config) (cs : List Call) : Window :=
  (windowOf cfg).after (firstPrice (PriorityBook.restPrices cfg.selfTrade cs))

/-- The ids that the first table of a book takes before it grows. -/
def indexRoom (cfg : Config) : Nat :=
  ((IdIndex.new (provisionOf cfg) : Option (IdIndex UInt32)).map fun t => t.tableSize / 2).getD 0

/-- An order rested at a price outside the window. -/
def outside (w : Window) (point : Option Price) : Bool := point.any fun price => !w.holds price

/-- The gauges of a book of `cfg` after some calls. -/
structure Gauges.After (g : Gauges) (cfg : Config) (cs : List Call) : Prop where
  base : g.priceWindowBase = if (windowAfter cfg cs).placed then some (windowAfter cfg cs).lo else none
  levels : g.priceWindowLevels = (windowAfter cfg cs).limit
  outside : g.levelsOpenedOutsideWindow
    = UInt64.ofNat ((PriorityBook.restPrices cfg.selfTrade cs).countP (outside (windowAfter cfg cs)))
  capacity : g.orderPoolCapacity = provisionOf cfg * 2 ^ g.orderPoolGrowths
  pool : IsLeast {k | PriorityBook.deepest cfg.selfTrade cs ≤ provisionOf cfg * 2 ^ k} g.orderPoolGrowths
  index : IsLeast {k | PriorityBook.deepest cfg.selfTrade cs ≤ indexRoom cfg * 2 ^ k} g.idIndexGrowths

section Readings

variable {cfg : Config} {cs : List Call} {g g' : Gauges}

/-- The calls settle every gauge. -/
theorem Gauges.After.unique (h : g.After cfg cs) (h' : g'.After cfg cs) : g = g' := by
  have hpool := h.pool.unique h'.pool
  have hindex := h.index.unique h'.index
  have hcapacity : g.orderPoolCapacity = g'.orderPoolCapacity := by rw [h.capacity, h'.capacity, hpool]
  have hbase := h.base.trans h'.base.symm
  have hlevels := h.levels.trans h'.levels.symm
  have houtside := h.outside.trans h'.outside.symm
  cases g
  cases g'
  congr

/-- **Neither store has grown** exactly when no more orders rested at once than the book was made for. -/
theorem Gauges.After.grown_iff (h : g.After cfg cs) (hroom : provisionOf cfg ≤ indexRoom cfg) :
    g.orderPoolGrowths + g.idIndexGrowths = 0
      ↔ PriorityBook.deepest cfg.selfTrade cs ≤ provisionOf cfg := by
  constructor
  · intro hzero
    have hdepth : PriorityBook.deepest cfg.selfTrade cs ≤ provisionOf cfg * 2 ^ g.orderPoolGrowths :=
      h.pool.1
    rwa [Nat.eq_zero_of_add_eq_zero_right hzero, Nat.pow_zero, Nat.mul_one] at hdepth
  · intro hdepth
    have hpool : g.orderPoolGrowths ≤ 0 := h.pool.2 (by simpa using hdepth)
    have hindex : g.idIndexGrowths ≤ 0 := h.index.2 (by simpa using hdepth.trans hroom)
    omega

end Readings

/-! ## Where a call rests its order -/

section Calls

variable {b : OrderBook} {a : PriorityBook} {Q : Layout} {free : List SlotIndex} {w : Window} {r : Record}
  {c : Call} {pre : OrderBook} {order : Order}

/-- **A call enters `insert`** where the priority book rests an order, at its price. -/
theorem Follows.insertPrice_eq (h : b.Follows a Q free) (c : Call) :
    b.insertPrice c = a.restPrice b.policy c := by
  rw [insertPrice, OrderBook.insertPoint, PriorityBook.restPrice]
  rcases h.attemptOf c with ⟨hnone, hsub⟩ | ⟨x, y, Q', free', hx, hy, hfollows, -⟩
  · rw [hnone, hsub]
    rfl
  · rw [hx, hy, Option.bind_some, Option.bind_some]
    rcases hfollows.insertPoint with ⟨hrests, hnone⟩ | ⟨hrests, pre, order, Q'', free'', hpoint, hleft⟩
    · rw [hnone, hrests]
      rfl
    · rw [hpoint, if_pos hrests, ← hleft.leftover]
      rfl

/-- The windows where a call enters `insert`. -/
theorem windowed_insertPoint (h : b.Windowed w) (hpoint : b.insertPoint c = some (pre, order)) :
    (pre.placeFirst order.side order.price).Windowed (w.placeFirst order.price) := by
  obtain ⟨x, hx, hat⟩ := Option.bind_eq_some_iff.mp hpoint
  obtain ⟨m, hm, hpair⟩ := Option.bind_eq_some_iff.mp hat
  obtain ⟨-, hpair⟩ := Option.ite_none_right_eq_some.mp hpair
  obtain ⟨rfl, rfl⟩ := Prod.mk.inj (Option.some.inj hpair)
  exact windowed_placeFirst ((still_rule.matchOpposite hm).windowed (windowed_attemptOf h hx)) _ _

/-- **Outside the window** is said of the window that the call leaves. -/
theorem restsOutside_eq (h : r.before.Windowed w) :
    r.restsOutside = outside (w.after (r.before.insertPrice r.call)) (r.before.insertPrice r.call) := by
  rw [Record.restsOutside, insertPrice]
  cases hpoint : r.before.insertPoint r.call with
  | none => rfl
  | some point =>
    obtain ⟨pre, order⟩ := point
    have hw := windowed_insertPoint h hpoint order.side
    show (!((pre.placeFirst order.side order.price).ladder order.side).inWindow order.price)
      = !(w.placeFirst order.price).holds order.price
    rw [← hw]
    rfl

end Calls

/-! ## Histories -/

section Histories

variable {policy : SelfTradePolicy} {c : Call} {cs : List Call} {w : Window} {points : List (Option Price)}

theorem bookCalls_pop (cs : List Call) : bookCalls (.pop :: cs) = bookCalls cs := rfl

theorem bookCalls_cons (hc : c ≠ .pop) (cs : List Call) : bookCalls (c :: cs) = c :: bookCalls cs :=
  List.filter_cons_of_pos (decide_eq_true hc)

/-- A pop is not a call of the book. -/
theorem replay_bookCalls (policy : SelfTradePolicy) (cs : List Call) :
    PriorityBook.replay policy (bookCalls cs) = PriorityBook.replay policy cs := by
  induction cs with
  | nil => rfl
  | cons c cs ih =>
    by_cases hc : c = .pop
    · subst hc
      exact ih
    · rw [bookCalls_cons hc, PriorityBook.replay, ih]
      rfl

theorem firstPrice_bookCalls (policy : SelfTradePolicy) (cs : List Call) :
    firstPrice (PriorityBook.restPrices policy (bookCalls cs))
      = firstPrice (PriorityBook.restPrices policy cs) := by
  induction cs with
  | nil => rfl
  | cons c cs ih =>
    by_cases hc : c = .pop
    · subst hc
      rw [bookCalls_pop, ih]
      exact (Option.or_none).symm
    · rw [bookCalls_cons hc, PriorityBook.restPrices, PriorityBook.restPrices, firstPrice, firstPrice, ih,
        replay_bookCalls]

theorem countP_bookCalls (policy : SelfTradePolicy) (w : Window) (cs : List Call) :
    (PriorityBook.restPrices policy (bookCalls cs)).countP (outside w)
      = (PriorityBook.restPrices policy cs).countP (outside w) := by
  induction cs with
  | nil => rfl
  | cons c cs ih =>
    by_cases hc : c = .pop
    · subst hc
      exact ih
    · rw [bookCalls_cons hc, PriorityBook.restPrices, PriorityBook.restPrices, List.countP_cons,
        List.countP_cons, ih, replay_bookCalls]

theorem length_le_deepest (policy : SelfTradePolicy) (cs : List Call) :
    (PriorityBook.replay policy cs).orders.length ≤ PriorityBook.deepest policy cs := by
  cases cs with
  | nil => exact Nat.le_refl 0
  | cons c cs => exact Nat.le_max_right _ _

theorem deepest_bookCalls (policy : SelfTradePolicy) (cs : List Call) :
    PriorityBook.deepest policy (bookCalls cs) = PriorityBook.deepest policy cs := by
  induction cs with
  | nil => rfl
  | cons c cs ih =>
    by_cases hc : c = .pop
    · subst hc
      rw [bookCalls_pop, ih]
      exact (Nat.max_eq_left (length_le_deepest policy cs)).symm
    · rw [bookCalls_cons hc, PriorityBook.deepest, PriorityBook.deepest, ih, ← bookCalls_cons hc,
        replay_bookCalls]

/-- **Pops do not show** on the gauges. -/
theorem Gauges.After.bookCalls {cfg : Config} {g : Gauges} (h : g.After cfg cs) :
    g.After cfg (bookCalls cs) := by
  have hw : windowAfter cfg (Lob.bookCalls cs) = windowAfter cfg cs := by
    rw [windowAfter, windowAfter, firstPrice_bookCalls]
  constructor
  · rw [hw]
    exact h.base
  · rw [hw]
    exact h.levels
  · rw [hw, countP_bookCalls]
    exact h.outside
  · exact h.capacity
  · rw [deepest_bookCalls]
    exact h.pool
  · rw [deepest_bookCalls]
    exact h.index

/-- No order has rested before the first price. -/
theorem countP_outside_none (w : Window) (h : firstPrice points = none) :
    points.countP (outside w) = 0 := by
  induction points with
  | nil => rfl
  | cons p points ih =>
    obtain ⟨hrest, rfl⟩ := Option.or_eq_none_iff.mp h
    exact ih hrest

/-- **A window that holds orders stays**, so what was counted once is not counted otherwise. -/
theorem countP_settled (w : Window) (p : Option Price) (points : List (Option Price)) :
    points.countP (outside (w.after (firstPrice (p :: points))))
      = points.countP (outside (w.after (firstPrice points))) := by
  cases hfirst : firstPrice points with
  | none => rw [countP_outside_none _ hfirst, countP_outside_none _ hfirst]
  | some q =>
    rw [firstPrice, hfirst]
    rfl

end Histories

/-! ## Runs -/

section Runs

variable {scrub scrub' : RestingOrder → RestingOrder} {cfg : Config} {b₀ b₀' b b' : OrderBook}
  {past past' : List Record}

theorem Run.restPrices_eq (hnew : OrderBook.new scrub cfg = some b₀) (hrun : Run b₀ past b) :
    past.map (fun r => r.before.insertPrice r.call)
      = PriorityBook.restPrices cfg.selfTrade (past.map Record.call) := by
  obtain ⟨h₀, hpolicy, -⟩ := new_follows hnew
  induction hrun with
  | start => rfl
  | @call past b b' mem c reply events hrun hcall ih =>
    obtain ⟨⟨Q, free, hf⟩, hsame⟩ := hrun.follows h₀
    rw [List.map_cons, List.map_cons, PriorityBook.restPrices, ih]
    show b.insertPrice c :: _ = _
    rw [hf.insertPrice_eq, hsame, replayOf, hpolicy]

/-- **Both sides have the window that the calls say.** -/
theorem Run.windowed_after (hnew : OrderBook.new scrub cfg = some b₀) (hrun : Run b₀ past b) :
    b.Windowed (windowAfter cfg (past.map Record.call)) := by
  rw [windowAfter, ← hrun.restPrices_eq hnew]
  exact hrun.anyRun.windowed (windowed_new hnew)

/-- **The run lemma of the counter**: every order rested outside the window it finds rested outside the
window there is now. -/
theorem Run.countP_outside (hnew : OrderBook.new scrub cfg = some b₀) (hrun : Run b₀ past b) :
    past.countP Record.restsOutside
      = (PriorityBook.restPrices cfg.selfTrade (past.map Record.call)).countP
          (outside (windowAfter cfg (past.map Record.call))) := by
  rw [windowAfter, ← hrun.restPrices_eq hnew]
  induction hrun with
  | start => rfl
  | @call past b b' mem c reply events hrun hcall ih =>
    have hw : b.Windowed ((windowOf cfg).after (firstPrice (past.map fun r => r.before.insertPrice r.call))) :=
      hrun.anyRun.windowed (windowed_new hnew)
    rw [List.countP_cons, restsOutside_eq hw, after_after, List.map_cons, List.countP_cons,
      countP_settled, ih]
    rfl

theorem Run.peak_eq (hnew : OrderBook.new scrub cfg = some b₀) (hrun : Run b₀ past b) :
    peak past = PriorityBook.deepest cfg.selfTrade (past.map Record.call) := by
  obtain ⟨h₀, hpolicy, -⟩ := new_follows hnew
  induction hrun with
  | start => rfl
  | @call past b b' mem c reply events hrun hcall ih =>
    obtain ⟨⟨Q, free, hf⟩, -⟩ := (Run.call mem c reply events hrun hcall).follows h₀
    rw [peak_cons, ih, List.map_cons, PriorityBook.deepest]
    show max _ b'.size = _
    rw [hf.size, replayOf, hpolicy]
    rfl

/-- A new index has room for the provision, and has not grown. -/
theorem new_room (hnew : OrderBook.new scrub cfg = some b₀) :
    b₀.orderIndex.tableSize / 2 = indexRoom cfg ∧ b₀.idIndexGrowths = 0 := by
  unfold OrderBook.new at hnew
  simp only at hnew
  split at hnew
  · rename_i index ring hindex hring
    obtain rfl := Option.some.inj hnew
    have hindex : (IdIndex.new (provisionOf cfg) : Option (IdIndex UInt32)) = some index := hindex
    rw [indexRoom, hindex]
    obtain ⟨cap, -, rfl⟩ := Option.map_eq_some_iff.mp hindex
    exact ⟨rfl, rfl⟩
  · simp at hnew

theorem new_provisioned_room (hnew : OrderBook.new scrub cfg = some b₀) :
    provisionOf cfg ≤ indexRoom cfg ∧ 0 < indexRoom cfg ∧ Provisioned cfg (indexRoom cfg) b₀ [] := by
  obtain ⟨room, hle, hpos, hstart⟩ := new_provisioned hnew
  obtain ⟨hroom, hgrowths⟩ := new_room hnew
  -- the first table has not doubled
  have hcapacity := hstart.index.capacity_eq
  rw [hgrowths, hroom, Nat.pow_zero, Nat.mul_one] at hcapacity
  rw [hcapacity]
  exact ⟨hle, hpos, hstart⟩

/-- **What a run leaves on the gauges** is what its calls say. -/
theorem Run.gauges_after (hnew : OrderBook.new scrub cfg = some b₀) (hrun : Run b₀ past b) :
    b.gauges.After cfg (past.map Record.call) := by
  obtain ⟨h₀, -, -, hzero⟩ := new_follows hnew
  obtain ⟨-, hpos, hstart⟩ := new_provisioned_room hnew
  have hw := hrun.windowed_after hnew .buy
  have hlo : b.bids.lo = (windowAfter cfg (past.map Record.call)).lo := congrArg Window.lo hw
  have hlimit : b.bids.limit = (windowAfter cfg (past.map Record.call)).limit := congrArg Window.limit hw
  have hplaced : b.bids.isPlaced = (windowAfter cfg (past.map Record.call)).placed :=
    congrArg Window.placed hw
  have hprovisioned := hstart.run hpos hnew hrun
  have hpool := hprovisioned.pool
  have hindex := hprovisioned.index
  rw [hrun.peak_eq hnew] at hpool hindex
  refine ⟨?_, hlimit, ?_, hpool.capacity_eq, hpool.least, hindex.least⟩
  · show b.priceWindowBase = _
    rw [priceWindowBase, hplaced, hlo]
  · show b.levelsOpenedOutsideWindow = _
    rw [hrun.outsideOpens_eq h₀ hzero, hrun.countP_outside hnew]

end Runs

end OrderBook

end Lob
