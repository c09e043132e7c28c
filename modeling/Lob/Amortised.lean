/-
# Lob.Amortised — what a whole run may cost.

A submission takes orders off the far side and may put one on its own.  Every act of its walk but the
last takes an order off the book, and a last act that leaves its maker standing has used the taker up,
so nothing of the taker rests.  Hence acts, withdrawals and resting orders together never outnumber the
submissions, over any run.  The turns of the matching loop and the room of the trade ring follow.
-/
import Lob.Exchange
import Lob.Ledger

namespace Lob

open Lib.Machine

/-! ## One walk -/

section Walk

variable {k : Taker} {far far' : List RestingOrder} {p p' : Progress}

/-- The acts made, the orders left, and one more while the taker still wants something. -/
def outlay (far : List RestingOrder) (p : Progress) : Nat :=
  p.acts.length + far.length + if p.left = 0 then 0 else 1

/-- **A turn pays for its act**: with an order, or with the end of the taker. -/
theorem turn_outlay (h : k.turn far p = some (far', p')) : outlay far' p' ≤ outlay far p := by
  obtain ⟨o, rest, rfl, hleft, -, -, ht⟩ := turn_cases h
  have hone : ∀ q : Quantity, (if q = 0 then 0 else 1) ≤ 1 := fun q => by split <;> omega
  have hacts : (k.filled o p).acts.length = p.acts.length + 1 := by simp [Taker.filled]
  unfold outlay
  rw [if_neg hleft, List.length_cons]
  cases ht with
  | halt _ _ =>
    show p.acts.length + _ + (if p.left = 0 then 0 else 1) ≤ _
    rw [if_neg hleft, List.length_cons]
  | cancel _ _ =>
    have hcancelled : (Taker.cancelled o p).acts.length = p.acts.length + 1 := by
      simp [Taker.cancelled]
    have := hone (Taker.cancelled o p).left
    omega
  | fill _ _ =>
    have := hone (k.filled o p).left
    omega
  | partFill _ hlt =>
    have hdone : (k.filled o p).left = 0 := by
      rw [← UInt32.toNat_inj, k.filled_left, UInt32.toNat_zero]
      rw [UInt32.lt_iff_toNat_lt] at hlt
      omega
    rw [if_pos hdone, List.length_cons]
    omega

/-- **A walk costs one more than it takes off the far side**, and that only if it ends the taker. -/
theorem sweep_outlay (k : Taker) (far : List RestingOrder) (p : Progress) :
    outlay (k.sweep far p).1 (k.sweep far p).2 ≤ outlay far p :=
  (sweep_induction (P := fun far' p' => outlay far' p' ≤ outlay far p) (Nat.le_refl _)
    fun _ _ _ _ hP hturn => (turn_outlay hturn).trans hP).1

end Walk

/-! ## One call -/

namespace PriorityBook

variable {policy : SelfTradePolicy} {a : PriorityBook} {id : OrderId}

theorem orders_remove (a : PriorityBook) (id : OrderId) :
    (a.remove id).orders = a.orders.filter fun o => o.id ≠ id :=
  (List.filter_append ..).symm

theorem length_remove_le (a : PriorityBook) (id : OrderId) :
    (a.remove id).orders.length ≤ a.orders.length := by
  rw [orders_remove]
  exact List.length_filter_le ..

/-- A removal of a live id takes off one order. -/
theorem Sound.length_remove (h : a.Sound) (hlive : a.live id = true) :
    (a.remove id).orders.length + 1 = a.orders.length := by
  obtain ⟨s, o, ho, rfl⟩ := live_iff.mp hlive
  obtain ⟨front, back, hsplit⟩ := List.append_of_mem (mem_orders.mpr ⟨s, ho⟩)
  have hnd := h.nodup
  rw [hsplit] at hnd
  rw [orders_remove, hsplit, filter_split hnd]
  simp only [List.length_append, List.length_cons]
  omega

/-- **What a submission does to the number of orders.** -/
theorem Submission.length_le (x : Submission) :
    x.walk.2.acts.length + x.execute.2.2.orders.length ≤ x.book.orders.length + 1 := by
  have hstart : outlay (x.book.queue x.taker.side.opposite)
      { left := x.qty, nextSeq := x.book.nextSeq }
      ≤ (x.book.queue x.taker.side.opposite).length + 1 := by
    unfold outlay
    simp only [List.length_nil]
    split <;> omega
  have hout : outlay x.walk.1 x.walk.2 ≤ (x.book.queue x.taker.side.opposite).length + 1 :=
    (sweep_outlay x.taker _ _).trans hstart
  have hbook := (x.book.orders_perm x.taker.side).length_eq
  have hafter := (x.after.orders_perm x.taker.side).length_eq
  rw [List.length_append] at hbook hafter
  rw [x.after_queue_near, x.after_queue_far] at hafter
  unfold outlay at hout
  rw [x.execute_eq]
  show x.walk.2.acts.length
    + (if x.rests = true then x.after.rest x.taker.side x.leftover else x.after).orders.length ≤ _
  by_cases hrests : x.rests = true
  · -- what rests was still wanted
    have hpos : x.walk.2.left ≠ 0 := by
      intro hzero
      simp [Submission.rests, hzero] at hrests
    rw [if_neg hpos] at hout
    rw [if_pos hrests, (orders_rest_perm ..).length_eq, List.length_cons]
    omega
  · rw [if_neg hrests]
    omega

end PriorityBook

/-- The quantity a call asks for. -/
def Call.wanted : Call → Quantity
  | addLimit _ _ _ _ qty => qty
  | addMarket _ _ _ qty => qty
  | modify _ _ newQty => newQty
  | _ => 0

namespace OrderBook

/-- Whether a call was accepted as an order that wants something. -/
def Record.offered (r : Record) : Bool :=
  match r.reply with
  | .report rep => rep.accepted && decide (r.call.wanted ≠ 0)
  | _ => false

/-- Whether a call took an order off the book at its client's wish; a modify that is accepted replaces
the order or empties it. -/
def Record.withdrew (r : Record) : Bool :=
  match r.call, r.reply with
  | .cancel _, .cancelled found => found
  | .modify _ _ _, .report rep => rep.accepted
  | _, _ => false

/-- How many submissions a history accepted. -/
def offers (past : List Record) : Nat := past.countP Record.offered

/-- How many orders a history withdrew. -/
def withdrawals (past : List Record) : Nat := past.countP Record.withdrew

/-- The orders that self-trade prevention removed in a history. -/
def prevented : List Record → List RestingOrder
  | [] => []
  | r :: past => prevented past ++ removalsOf r.acts

section Calls

variable {policy : SelfTradePolicy} {a : PriorityBook} {r : Record}

/-- A call is offered exactly when it submits. -/
theorem Recorded.offered_iff (h : Recorded policy a r) :
    r.offered = true ↔ (a.submission policy r.call).isSome = true := by
  unfold Record.offered
  cases h.told with
  | submitted x hx hreply hacts hafter =>
    have hwanted : r.call.wanted ≠ 0 := by
      have hsub := PriorityBook.submits hx
      generalize r.call = c at hsub
      cases hsub with
      | addLimit hqty _ => exact hqty
      | addMarket hqty _ => exact hqty
      | modify hqty _ => exact hqty
    rw [hreply, hx]
    simp [execute_accepted, hwanted]
  | rejected qty hx hreply hacts hafter =>
    rw [hreply, hx]
    simp
  | cancelled id hx hcall hreply hacts hafter =>
    rw [hreply, hx]
    simp
  | emptied id p hx hcall hlive hreply hacts hafter =>
    rw [hreply, hx, hcall]
    simp [Call.wanted]
  | popped t hx hcall hreply hacts hafter =>
    rw [hreply, hx]
    simp

/-- **What a call does to the number of orders.** -/
theorem Recorded.length_le (h : Recorded policy a r) (hsound : a.Sound) :
    r.acts.length + r.withdrew.toNat + (a.perform policy r.call).2.2.orders.length
      ≤ a.orders.length + r.offered.toNat := by
  have hoffered := h.offered_iff
  cases h.told with
  | submitted x hx hreply hacts hafter =>
    have hlen := x.length_le
    have hoff : r.offered = true := hoffered.mpr (by rw [hx]; rfl)
    rw [hacts, hafter, hoff, Bool.toNat_true]
    -- a modify withdraws its order first
    have hbook : x.book.orders.length + r.withdrew.toNat = a.orders.length := by
      have hsub := PriorityBook.submits hx
      have haccepted := execute_accepted x
      unfold Record.withdrew
      rw [hreply]
      generalize r.call = c at hsub
      cases hsub with
      | addLimit _ _ => rfl
      | addMarket _ _ => rfl
      | @modify id _ _ o _ hfind =>
        simp only [haccepted, Bool.toNat_true]
        apply hsound.length_remove
        by_contra hdead
        rw [Bool.not_eq_true, ← PriorityBook.find_eq_none, hfind] at hdead
        simp at hdead
    omega
  | rejected qty hx hreply hacts hafter =>
    have hnone : r.withdrew = false := by
      unfold Record.withdrew
      rw [hreply]
      cases r.call <;> rfl
    rw [hacts, hafter, hnone]
    simp
  | cancelled id hx hcall hreply hacts hafter =>
    have hwithdrew : r.withdrew = a.live id := by
      unfold Record.withdrew
      rw [hcall, hreply]
    rw [hacts, hafter, hwithdrew]
    cases hlive : a.live id with
    | true =>
      have := hsound.length_remove hlive
      simp only [List.length_nil, Bool.toNat_true]
      omega
    | false =>
      have := a.length_remove_le id
      simp only [List.length_nil, Bool.toNat_false]
      omega
  | emptied id p hx hcall hlive hreply hacts hafter =>
    have hwithdrew : r.withdrew = true := by
      unfold Record.withdrew
      rw [hcall, hreply]
    have := hsound.length_remove hlive
    rw [hacts, hafter, hwithdrew]
    simp only [List.length_nil, Bool.toNat_true]
    omega
  | popped t hx hcall hreply hacts hafter =>
    have hnone : r.withdrew = false := by
      unfold Record.withdrew
      rw [hcall]
    rw [hacts, hafter, hnone]
    simp

end Calls

/-! ## Whole runs -/

section Runs

variable {b₀ b b' : OrderBook} {past mid older : List Record} {r : Record} {Q₀ : Layout}
  {free₀ : List SlotIndex}

theorem length_acts (acts : List Act) :
    acts.length = (fillsOf acts).length + (removalsOf acts).length := by
  induction acts with
  | nil => rfl
  | cons act acts ih =>
    have hfills : fillsOf (act :: acts) = fillsOf [act] ++ fillsOf acts := fillsOf_append [act] acts
    have hremovals : removalsOf (act :: acts) = removalsOf [act] ++ removalsOf acts :=
      removalsOf_append [act] acts
    rw [hfills, hremovals, List.length_cons, List.length_append, List.length_append, ih]
    cases act with
    | fill t =>
      rw [fillsOf_fill, removalsOf_fill, List.length_singleton, List.length_nil]
      omega
    | stpCancel o =>
      rw [fillsOf_stpCancel, removalsOf_stpCancel, List.length_singleton, List.length_nil]
      omega

theorem countP_cons_toNat {α : Type} (f : α → Bool) (x : α) (xs : List α) :
    (x :: xs).countP f = xs.countP f + (f x).toNat := by
  rw [List.countP_cons]
  cases f x <;> rfl

/-- **The run lemma**: what a stretch of a run consumed was there or was offered. -/
theorem Run.length_le (h₀ : b₀.Follows {} Q₀ free₀) (hrun : Run b₀ (mid ++ older) b) :
    (emitted mid).length + (prevented mid).length + withdrawals mid
        + (replayOf b₀ (mid ++ older)).orders.length
      ≤ (replayOf b₀ older).orders.length + offers mid := by
  induction mid generalizing b with
  | nil => simp [emitted, prevented, withdrawals, offers]
  | cons r mid ih =>
    have hrun' := hrun.cons_inv.2.1
    have hrec : Recorded b₀.policy (replayOf b₀ (mid ++ older)) r := hrun.recorded_head h₀
    have hstep := hrec.length_le (hrun'.inOrder h₀).2
    have hbefore := ih hrun'
    have hoffers : offers (r :: mid) = offers mid + r.offered.toNat := countP_cons_toNat ..
    have hwithdrawals : withdrawals (r :: mid) = withdrawals mid + r.withdrew.toNat :=
      countP_cons_toNat ..
    have hreplay : replayOf b₀ (r :: mid ++ older)
        = ((replayOf b₀ (mid ++ older)).perform b₀.policy r.call).2.2 := rfl
    rw [length_acts] at hstep
    rw [hoffers, hwithdrawals, hreplay, emitted, prevented, List.length_append, List.length_append,
      Record.trades]
    omega

/-- The same, by the sizes of the two books. -/
theorem Run.paid_for (h₀ : b₀.Follows {} Q₀ free₀) (hfirst : Run b₀ older b')
    (hrun : Run b₀ (mid ++ older) b) :
    (emitted mid).length + (prevented mid).length + withdrawals mid + b.size
      ≤ b'.size + offers mid := by
  obtain ⟨⟨Q, free, hf⟩, -⟩ := hrun.follows h₀
  obtain ⟨⟨Q', free', hf'⟩, -⟩ := hfirst.follows h₀
  rw [hf.size, hf'.size]
  exact hrun.length_le h₀

/-- **Every trade is paid for**: over any stretch of any run, the trades, the orders that prevention
removed, the orders withdrawn and the orders resting at its end are no more than the orders resting at its
start and the submissions accepted in it. -/
theorem trades_paid_for {scrub : RestingOrder → RestingOrder} {cfg : Config}
    (hnew : OrderBook.new scrub cfg = some b₀) (hfirst : Run b₀ older b')
    (hrun : Run b₀ (mid ++ older) b) :
    (emitted mid).length + (prevented mid).length + withdrawals mid + b.size
      ≤ b'.size + offers mid :=
  Run.paid_for (new_follows hnew).1 hfirst hrun

/-- Two bids are taken by one market order; the third submission is repriced. -/
theorem trades_paid_for_sweep : ∃ b₀ past b, OrderBook.new id {} = some b₀ ∧ Run b₀ past b
    ∧ past.map Record.call = [.modify 4 99 2, .addLimit 4 6 .buy 98 2, .addMarket 3 9 .sell 12,
      .addLimit 2 8 .buy 101 5, .addLimit 1 7 .buy 100 5]
    ∧ (emitted past).length + (prevented past).length + withdrawals past + b.size
      ≤ b₀.size + offers past := by
  obtain ⟨b₀, past, b, -, hnew, hrun, hcalls, -⟩ := exists_run id {} {} [.modify 4 99 2,
    .addLimit 4 6 .buy 98 2, .addMarket 3 9 .sell 12, .addLimit 2 8 .buy 101 5,
    .addLimit 1 7 .buy 100 5] (fun _ => some) (by decide +kernel)
  have hall : Run b₀ (past ++ []) b := by rwa [List.append_nil]
  exact ⟨b₀, past, b, hnew, hrun, hcalls, trades_paid_for hnew .start hall⟩

/-! ## The room of the ring -/

/-- A history ends in one book. -/
theorem Run.unique (h : Run b₀ past b) (h' : Run b₀ past b') : b = b' := by
  cases past with
  | nil =>
    cases h
    cases h'
    rfl
  | cons r past => rw [← h.cons_inv.1, ← h'.cons_inv.1]

theorem offers_le_cons (r : Record) (mid : List Record) : offers mid ≤ offers (r :: mid) :=
  (List.sublist_cons_self r mid).countP_le ..

/-- A call of a stretch whose trades find room keeps the ring's trades together. -/
theorem Realizes.kept {capacity : Nat} {e : Exchange capacity} (h : r.before.Realizes e)
    {mem : Memory} (hcall : r.before.perform mem r.call = .ok (r.reply, r.events) r.after)
    (hroom : r.before.tradeOut.size + r.trades.length ≤ capacity) :
    r.after.tradeOut.dropCount = r.before.tradeOut.dropCount
      ∧ r.reply.handed ++ r.after.tradeOut.contents = r.before.tradeOut.contents ++ r.trades := by
  obtain ⟨Q, free, hf⟩ := h.book
  have hrec := (recorded_of_perform hf hcall).1
  by_cases hpop : r.call = .pop
  · rw [hrec.trades_of_pop hpop, List.append_nil]
    rw [hpop] at hcall
    obtain ⟨hanswer, hafter⟩ := Result.ok.inj hcall
    rw [← (Prod.mk.inj hanswer).1, ← hafter]
    show (r.before.tradeOut.pop.2).dropCount = _
      ∧ r.before.tradeOut.pop.1.toList ++ (r.before.tradeOut.pop.2).contents = _
    by_cases he : r.before.tradeOut.empty = true
    · rw [TradeRing.pop_of_empty he]
      exact ⟨rfl, rfl⟩
    · obtain ⟨t, ring, hring, hcont, -, -, -, hdrop⟩ := TradeRing.pop_spec (by simpa using he)
      rw [hring, hcont, hdrop]
      exact ⟨rfl, rfl⟩
  · have hring := hf.shows hcall hpop h.ring
    rw [← h.ring.length] at hroom
    obtain ⟨hheld, hlost⟩ := Lib.BoundedQueue.burst_of_fits hroom
    rw [hrec.handed hpop, List.nil_append, hring.held, hring.lost, hheld, hlost, h.ring.held, h.ring.lost]
    exact ⟨rfl, rfl⟩

/-- **A ring with room for what it holds, for one trade per resting order and for one per submission to
come** loses nothing over a stretch of a run, however it is drained. -/
theorem ring_keeps_every_trade {scrub : RestingOrder → RestingOrder} {cfg : Config}
    (hnew : OrderBook.new scrub cfg = some b₀) (hfirst : Run b₀ older b')
    (hrun : Run b₀ (mid ++ older) b)
    (hroom : b'.tradeOut.size + b'.size + offers mid ≤ b₀.tradeOut.bufferSize) :
    b.tradeOut.dropCount = b'.tradeOut.dropCount
      ∧ popped mid ++ b.tradeOut.contents = b'.tradeOut.contents ++ emitted mid := by
  obtain ⟨h₀, -⟩ := new_follows hnew
  induction mid generalizing b with
  | nil =>
    obtain rfl := Run.unique hrun hfirst
    exact ⟨rfl, (List.append_nil _).symm⟩
  | cons r mid ih =>
    obtain ⟨rfl, hrun', mem, hcall⟩ := hrun.cons_inv
    have hle := offers_le_cons r mid
    obtain ⟨hdrop, hkept⟩ := ih hrun' (by omega)
    -- what the ring holds now was held or printed since, and the next trades are paid for too
    have hpaid := Run.paid_for h₀ hfirst hrun
    have hlen := congrArg List.length hkept
    rw [emitted, List.length_append] at hpaid
    rw [List.length_append, List.length_append, TradeRing.length_contents,
      TradeRing.length_contents] at hlen
    have hreal := (hrun'.realizes (realizes_new hnew)).2
    obtain ⟨hdrop', hkept'⟩ := hreal.kept hcall (by omega)
    refine ⟨hdrop'.trans hdrop, ?_⟩
    rw [popped, emitted, List.append_assoc, hkept', ← List.append_assoc, hkept, List.append_assoc]

/-- Room for four trades is room for three submissions, of which one meets two makers. -/
theorem ring_keeps_every_trade_of_three : ∃ b₀ past b, OrderBook.new id { tradeCapacity := 4 } = some b₀
    ∧ Run b₀ past b ∧ past.map Record.call = [.pop, .addMarket 3 9 .sell 7,
      .addLimit 2 8 .buy 100 5, .addLimit 1 7 .buy 100 5]
    ∧ b.tradeOut.dropCount = 0 ∧ popped past ++ b.tradeOut.contents = emitted past := by
  obtain ⟨b₀, past, b, x, hnew, hrun, hcalls, hf⟩ := exists_run id { tradeCapacity := 4 } {} [.pop,
    .addMarket 3 9 .sell 7, .addLimit 2 8 .buy 100 5, .addLimit 1 7 .buy 100 5]
    (fun past _ => if offers past ≤ 3 then some 0 else none) (by decide +kernel)
  obtain ⟨h₀, -, hring, -⟩ := new_follows hnew
  have hoffers : offers past ≤ 3 := by
    by_contra hmany
    rw [if_neg hmany] at hf
    simp at hf
  have hcap : 4 ≤ b₀.tradeOut.bufferSize := (TradeRing.accounts_of_new hring).2
  have hempty : b₀.tradeOut.contents = [] := by
    rw [← List.length_eq_zero_iff, TradeRing.length_contents]
    exact TradeRing.size_eq_zero.mpr (TradeRing.empty_of_new hring)
  have hdrop : b₀.tradeOut.dropCount = 0 := (TradeRing.accounts_of_new hring).1.dropped
  have hroom : b₀.tradeOut.size + b₀.size + offers past ≤ b₀.tradeOut.bufferSize := by
    rw [h₀.size, ← TradeRing.length_contents, hempty]
    exact (Nat.zero_add _).trans_le (hoffers.trans (by omega))
  have hall : Run b₀ (past ++ []) b := by rwa [List.append_nil]
  obtain ⟨hsame, hkept⟩ := ring_keeps_every_trade hnew .start hall hroom
  rw [hdrop] at hsame
  rw [hempty, List.nil_append] at hkept
  exact ⟨b₀, past, b, hnew, hrun, hcalls, hsame, hkept⟩

end Runs

end OrderBook

/-! ## The turns of the matching loop -/

namespace Matching

variable {limit : Option Price} {m m₀ m' : Matching} {Q₀ : Layout} {p : Price} {level : LevelRef}
  {slot : SlotIndex} {n : Nat}

/-- Whether the inner loop goes on. -/
def goesOn (m : Matching) (level : LevelRef) : Bool :=
  decide (0 < m.incoming.qty) && !((m.book.ladder m.far).deref level).empty

/-- After `n` turns: four for each act, and at most three more at the end.  A level that is entered is
served, so its act pays for entering and for leaving it. -/
def Paid (m : Matching) (n : Nat) : Prop :=
  match m.ctl with
  | .outer => n ≤ 4 * m.events.length
  | .inner _ level =>
    (n ≤ 4 * m.events.length + 1 ∧ m.goesOn level = true) ∨ n + 2 ≤ 4 * m.events.length
  | .leave _ _ =>
    n + 1 ≤ 4 * m.events.length ∨ (m.rep.stpHalted = true ∧ n ≤ 4 * m.events.length + 2)
  | .done => n ≤ 4 * m.events.length + 3

/-- A visit is one act, or the halt of the taker. -/
theorem visit_turn (h : m.visit p level slot = some m') :
    (m'.ctl = m.ctl ∧ m'.events.length = m.events.length + 1)
      ∨ (m'.ctl = .leave p level ∧ m'.events = m.events ∧ m'.rep.stpHalted = true) := by
  have hrecord : ∀ act, (m.record act).length = m.events.length + 1 := fun act => by
    rw [record, List.length_append, List.length_singleton]
  unfold visit at h
  simp only at h
  split at h
  · split at h
    · obtain rfl := Option.some.inj h
      exact Or.inr ⟨rfl, rfl, rfl⟩
    · obtain ⟨b, -, rfl⟩ := Option.map_eq_some_iff.mp h
      exact Or.inl ⟨rfl, hrecord _⟩
  · split at h
    · obtain ⟨b, -, rfl⟩ := Option.map_eq_some_iff.mp h
      exact Or.inl ⟨rfl, hrecord _⟩
    · obtain rfl := Option.some.inj h
      exact Or.inl ⟨rfl, hrecord _⟩

/-- The best level is never empty. -/
theorem Walked.best_occupied (h : Walked limit m₀ Q₀ m) (hctl : m.ctl = .outer)
    (hbest : (m.book.ladder m.far).best = some (p, level)) :
    ((m.book.ladder m.far).deref level).empty = false := by
  obtain ⟨Q, free, hw, -⟩ := h
  have hst := hw.standing
  rw [hctl] at hst
  rw [hw.best] at hbest
  obtain ⟨e, he, heq⟩ := Option.map_eq_some_iff.mp hbest
  obtain ⟨rfl, rfl⟩ := Prod.mk.inj heq
  obtain ⟨L, hL⟩ : ∃ L, Q m.far = (e.1, e.2) :: L := List.head?_eq_some_iff.mp he
  rw [hw.far_empty hL]
  rw [hL] at hst
  cases hst with
  | outer _ hset _ => simpa using hset e List.mem_cons_self

/-- **The step lemma**: every turn is paid for. -/
theorem Paid.step (h : Paid m n) (hw : Walked limit m₀ Q₀ m) (hctl : m.ctl ≠ .done)
    (hstep : m.step limit = some m') : Paid m' (n + 1) := by
  unfold Matching.step at hstep
  unfold Paid at h
  split at hstep
  · rename_i hdone
    exact absurd hdone hctl
  · rename_i houter
    rw [houter] at h
    simp only at h
    have hdone : some { m with ctl := .done } = some m' → Paid m' (n + 1) := by
      intro heq
      obtain rfl := Option.some.inj heq
      exact Nat.add_le_add h (by omega)
    split at hstep
    · rename_i hqty
      split at hstep
      · exact hdone hstep
      · rename_i p level hbest
        split at hstep
        · obtain rfl := Option.some.inj hstep
          refine Or.inl ⟨Nat.add_le_add_right h 1, ?_⟩
          show (decide (0 < m.incoming.qty) && !((m.book.ladder m.far).deref level).empty) = true
          rw [hw.best_occupied houter hbest, decide_eq_true hqty]
          rfl
        · exact hdone hstep
    · exact hdone hstep
  · -- an inner turn acts, halts, or leaves the level
    rename_i p level hinner
    rw [hinner] at h
    simp only at h hstep
    split at hstep
    · -- an act, or the halt
      rcases visit_turn hstep with ⟨hsame, hlen⟩ | ⟨hleave, hsame, hhalt⟩
      · unfold Paid
        rw [hsame, hinner]
        simp only
        rw [hlen]
        rcases h with ⟨hle, -⟩ | hle
        · exact Or.inr (by omega)
        · exact Or.inr (by omega)
      · unfold Paid
        rw [hleave]
        simp only
        rw [hsame]
        rcases h with ⟨hle, -⟩ | hle
        · exact Or.inr ⟨hhalt, by omega⟩
        · exact Or.inl (by omega)
    · rename_i hstop
      obtain rfl := Option.some.inj hstep
      rcases h with ⟨-, hgo⟩ | hle
      · exact absurd hgo hstop
      · refine Or.inl ?_
        show n + 1 + 1 ≤ 4 * m.events.length
        omega
  · -- a level is left after an act on it, or by the halt that ends the loop
    rename_i p level hleave
    rw [hleave] at h
    simp only at h hstep
    have hnext : ∀ b : OrderBook, Paid { m with
        book := b, ctl := if m.rep.stpHalted then .done else .outer } (n + 1) := by
      intro b
      unfold Paid
      by_cases hhalt : m.rep.stpHalted = true
      · simp only [hhalt, if_true]
        rcases h with hle | ⟨-, hle⟩
        · omega
        · omega
      · simp only [hhalt]
        rcases h with hle | ⟨hhalt', -⟩
        · exact hle
        · exact absurd hhalt' hhalt
    split at hstep
    · obtain ⟨b, -, rfl⟩ := Option.map_eq_some_iff.mp hstep
      exact hnext b
    · obtain rfl := Option.some.inj hstep
      exact hnext m.book

end Matching

namespace OrderBook

open Matching

variable {b₀ b b' : OrderBook} {mid older : List Record} {r : Record} {a : PriorityBook}
  {Q Q₀ : Layout} {free free₀ : List SlotIndex}

/-- How many turns the loop of an attempt takes. -/
def Attempt.turns (x : Attempt) : Nat :=
  (outputs (fun m : Matching => m.ctl == .done) (Matching.step x.limit) (fun m => [m.ctl])
    (5 * x.book.pool.live + 2) x.start).length

/-- How many turns of the loop a call took. -/
def Record.turns (r : Record) : Nat :=
  match r.before.attemptOf r.call with
  | none => 0
  | some x => x.turns

/-- How many turns of the loop a history took. -/
def turns (past : List Record) : Nat := (past.map Record.turns).sum

/-- **The loop of an attempt** takes four turns for each of its acts and three more. -/
theorem Attempt.Follows.turns_le {x : Attempt} {y : PriorityBook.Submission} {m : Matching}
    (h : x.Follows y Q free) (hm : x.book.matchOpposite x.incoming x.limit = some m) :
    x.turns ≤ 4 * m.events.length + 3 := by
  have hwalked := h.book.linked.walked h.book.settled h.book.live x.incoming x.limit
  have hstart : Paid x.start ([] : List Ctl).length := Nat.zero_le _
  obtain ⟨-, hpaid⟩ := @runUntil_outputs _ _ _ _ (fun m : Matching => [m.ctl])
    (fun m past => Walked x.limit x.start Q m ∧ Paid m past.length)
    (fun m m' past hJ hdone hstep => by
      obtain ⟨hw, hpaid⟩ := hJ
      exact ⟨hw.reaches (.single hstep), hpaid.step hw (by simpa using hdone) hstep⟩)
    _ _ _ _ hm ⟨hwalked, hstart⟩
  have hctl : m.ctl = .done := by simpa using (reaches_of_runUntil hm).2
  rw [List.append_nil, List.length_reverse, Paid, hctl] at hpaid
  exact hpaid

theorem Follows.turns_le (h : r.before.Follows a Q free) {mem : Memory}
    (hcall : r.before.perform mem r.call = .ok (r.reply, r.events) r.after) :
    r.turns ≤ 4 * r.acts.length + 3 * r.offered.toNat := by
  have hoffered := (recorded_of_perform h hcall).1.offered_iff
  unfold Record.turns
  rcases h.attemptOf r.call with ⟨hnone, -⟩ | ⟨x, y, Q', free', hx, hy, hfollows, -⟩
  · rw [hnone]
    exact Nat.zero_le _
  · obtain ⟨m, Q'', free'', hm⟩ := hfollows.matched
    have hturns := hfollows.turns_le hm.run
    rw [hoffered.mpr (by rw [hy]; rfl), hx, Record.acts, List.length_map,
      events_of_attempt hx hm.run hcall]
    exact hturns

theorem Run.turns_le (h₀ : b₀.Follows {} Q₀ free₀) (hrun : Run b₀ (mid ++ older) b) :
    turns mid ≤ 4 * ((emitted mid).length + (prevented mid).length) + 3 * offers mid := by
  induction mid generalizing b with
  | nil => exact Nat.zero_le _
  | cons r mid ih =>
    obtain ⟨rfl, hrun', mem, hcall⟩ := hrun.cons_inv
    have hbefore := ih hrun'
    obtain ⟨⟨Q, free, hf⟩, -⟩ := hrun'.follows h₀
    have hcost := hf.turns_le hcall
    have hoffers : offers (r :: mid) = offers mid + r.offered.toNat := countP_cons_toNat ..
    have hturns : turns (r :: mid) = r.turns + turns mid := rfl
    rw [length_acts] at hcost
    rw [hturns, hoffers, emitted, prevented, List.length_append, List.length_append, Record.trades]
    omega

/-- **The matching loop is amortised**: over any stretch of any run its turns are at most four for each
order resting at the start and seven for each submission accepted. -/
theorem loop_amortised {scrub : RestingOrder → RestingOrder} {cfg : Config}
    (hnew : OrderBook.new scrub cfg = some b₀) (hfirst : Run b₀ older b')
    (hrun : Run b₀ (mid ++ older) b) : turns mid ≤ 4 * b'.size + 7 * offers mid := by
  have hpaid := Run.paid_for (new_follows hnew).1 hfirst hrun
  have hturns := hrun.turns_le (new_follows hnew).1
  omega

/-- A market order sweeps two levels. -/
theorem loop_amortised_sweep : ∃ b₀ past b, OrderBook.new id {} = some b₀ ∧ Run b₀ past b
    ∧ past.map Record.call = [.addMarket 3 9 .sell 12, .addLimit 2 8 .buy 101 5,
      .addLimit 1 7 .buy 100 5] ∧ turns past ≤ 4 * b₀.size + 7 * offers past := by
  obtain ⟨b₀, past, b, -, hnew, hrun, hcalls, -⟩ := exists_run id {} {} [.addMarket 3 9 .sell 12,
    .addLimit 2 8 .buy 101 5, .addLimit 1 7 .buy 100 5] (fun _ => some) (by decide +kernel)
  have hall : Run b₀ (past ++ []) b := by rwa [List.append_nil]
  exact ⟨b₀, past, b, hnew, hrun, hcalls, loop_amortised hnew .start hall⟩

end OrderBook

end Lob
