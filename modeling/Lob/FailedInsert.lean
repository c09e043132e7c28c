/-
# Lob.FailedInsert — what a call that throws leaves behind.

A call can only throw inside `insert`, which rolls nothing back.  `Unharmed` is what an exception
should leave: a book that checks, and shows what it showed at the end of matching.  That is so exactly
when the map node could not be had, or the pool could not grow under a level that was occupied already
(`failed_insert_unharmed_iff`).  Otherwise the open level stays without orders, or the slot stays
taken.
-/
import Lob.RunRefine

namespace Lob

open Lib.Ranked

namespace OrderBook

/-- The book checks, and shows what `pre` showed. -/
structure Unharmed (pre b' : OrderBook) : Prop where
  checked : b'.checkInvariants = true
  resting : b'.forEachResting = pre.forEachResting
  bestBid : b'.bestBid = pre.bestBid
  bestAsk : b'.bestAsk = pre.bestAsk
  qtyAt : ∀ s p, b'.qtyAt s p = pre.qtyAt s p
  size : b'.size = pre.size
  live : b'.pool.live = pre.pool.live

/-- The failures that leave no trace: the first allocation, before anything is opened, or the second
under a level that was open already. -/
def FailsCleanly (mem : Memory) (pre : OrderBook) (order : Order) : Prop :=
  NodeFails mem (pre.placeFirst order.side order.price) order.side order.price
    ∨ (PoolFails mem pre ∧ (pre.ladder order.side).find order.price ≠ none)

section Failed

variable {b b' pre : OrderBook} {a a' : PriorityBook} {Q Q' : Layout} {free free' : List SlotIndex}
  {order : Order} {mem : Memory} {e : Throw} {s : Side} {price : Price}

/-- Two books laid out for the same orders show the same. -/
theorem Follows.unharmed (h : pre.Follows a Q free) (hsound : a.Sound) (h' : b'.Linked Q free') :
    Unharmed pre b' := by
  have hf : b'.Follows { a with nextSeq := b'.nextSeq } Q free' :=
    ⟨h', h.settled, h.live, h.queue, rfl⟩
  have hsound' : ({ a with nextSeq := b'.nextSeq } : PriorityBook).Sound :=
    ⟨hsound.nodup, hsound.positive, hsound.uncrossed⟩
  exact ⟨hf.checkInvariants hsound', by rw [hf.forEachResting, h.forEachResting]; rfl,
    by rw [hf.bestBid, h.bestBid]; rfl, by rw [hf.bestAsk, h.bestAsk]; rfl,
    fun s p => by rw [hf.qtyAt, h.qtyAt]; rfl, by rw [hf.size, h.size]; rfl,
    by rw [hf.live_slots, h.live_slots]; rfl⟩

/-- Opening a level that is open changes no layout. -/
theorem openIn_of_find (h : pre.Linked Q free) (hset : Settled Q)
    (hfind : (pre.ladder s).find price ≠ none) : openIn Q s price = Q := by
  rw [Ne, h.find_eq_none (hset s)] at hfind
  obtain ⟨v, hv⟩ := Option.ne_none_iff_exists'.mp hfind
  obtain ⟨e, he, heq⟩ := List.mem_map.mp ((h.sorted s).lookup_eq_some.mp hv)
  obtain ⟨hprice, -⟩ := Prod.mk.inj heq
  have hmem : (price, e.2) ∈ Q s := by
    rw [← hprice]
    exact he
  rw [openIn, tryEmplace_of_mem (sorted_levelsOf.mp (h.sorted s)) hmem]
  exact Function.update_eq_self s Q

/-- **A level opened for nothing is caught by the checks.** -/
theorem Linked.ghost (h : pre.Linked Q free) (hset : Settled Q)
    (hfind : (pre.ladder s).find price = none) (h' : b'.Linked (openIn Q s price) free') :
    b'.checkInvariants = false := by
  rw [h.find_eq_none (hset s), lookup_levelsOf, Option.map_eq_none_iff] at hfind
  have hmem : (price, ([] : List Cell)) ∈ openIn Q s price s := by
    rw [openIn, setQueue_self]
    exact (mem_tryEmplace_of_not_mem (lookup_eq_none.mp hfind)).mpr (Or.inl rfl)
  have hlevel : (price, levelOf []) ∈ levelsOf (openIn Q s price s) := List.mem_map_of_mem hmem
  have hcheck : b'.checkSide s = false := by
    rw [checkSide, (h'.ladder s).check_ghost hlevel rfl, Bool.false_and]
  unfold checkInvariants
  cases s with
  | buy => rw [hcheck, Bool.false_and, Bool.false_and]
  | sell => rw [hcheck, Bool.and_false, Bool.false_and]

/-- **What a throwing `insert` leaves.** -/
theorem Follows.insert_unharmed_iff (h : pre.Follows a Q free) (hsound : a.Sound)
    (hdead : a.live order.id = false) (hthrow : pre.insert mem order.side order = .throws e b') :
    Unharmed pre b' ↔ FailsCleanly mem pre order := by
  have hid : order.id ∉ (entries Q).map Prod.fst := by
    rw [h.mem_ids, hdead]
    simp
  have hins := h.linked.insert h.settled rfl hid mem
  rw [hthrow] at hins
  cases hins with
  | noNode b' free' hl hfails => exact ⟨fun _ => Or.inl hfails, fun _ => h.unharmed hsound hl⟩
  | noSlot e b' free' hl hopen hfails =>
    constructor
    · intro hun
      refine Or.inr ⟨hfails, fun hfind => ?_⟩
      have hcheck := hun.checked
      rw [h.linked.ghost h.settled hfind hl] at hcheck
      simp at hcheck
    · rintro (hnode | ⟨-, hfind⟩)
      · exact absurd hnode hopen
      · rw [openIn_of_find h.linked h.settled hfind] at hl
        exact h.unharmed hsound hl
  | leaked e b' hlive hopen hroom =>
    constructor
    · intro hun
      have hsame := hun.live
      rw [hlive] at hsame
      omega
    · rintro (hnode | ⟨hpool, -⟩)
      · exact absurd hnode hopen
      · exact absurd hpool hroom

end Failed

section Run

variable {b₀ b b' pre : OrderBook} {past : List Record} {c : Call} {order : Order} {mem : Memory}
  {e : Throw} {scrub : RestingOrder → RestingOrder} {cfg : Config}

/-- **A call that throws leaves the book as it was at the end of matching exactly when its `insert`
fails cleanly**: without a map node, or without a slot under an occupied level. -/
theorem failed_insert_unharmed_iff (hnew : OrderBook.new scrub cfg = some b₀) (hrun : Run b₀ past b)
    (hthrow : b.perform mem c = .throws e b') :
    ∃ pre order, b.insertPoint c = some (pre, order)
      ∧ (Unharmed pre b' ↔ FailsCleanly mem pre order) := by
  have h₀ := (new_follows hnew).1
  obtain ⟨⟨Q, free, hf⟩, hpolicy⟩ := hrun.follows h₀
  obtain ⟨hord, hsound⟩ := hrun.inOrder h₀
  have hperf := hf.perform mem c
  rw [hthrow] at hperf
  cases hperf with
  | throws e b' pre order y Q' free' hy hpoint hpre hins =>
    have hbook : y.book.Sound := by
      rcases (PriorityBook.submission_fresh hy).book with hb | hb
      · exact hb ▸ hsound
      · exact hb ▸ hsound.remove _
    exact ⟨pre, order, hpoint,
      hpre.follows.insert_unharmed_iff hbook.after hpre.fresh hins⟩

/-- A pool of one slot that cannot grow: a bid that would join the first one throws. -/
theorem failed_insert_unharmed_iff_joining : ∃ b₀ past b b' e,
    OrderBook.new id { expectedOrders := 1, priceLevels := 4 } = some b₀ ∧ Run b₀ past b
    ∧ past.map Record.call = [.addLimit 1 7 .buy 100 5]
    ∧ b.perform { slots := false } (.addLimit 2 8 .buy 100 5) = .throws e b'
    ∧ ∃ pre order, b.insertPoint (.addLimit 2 8 .buy 100 5) = some (pre, order)
      ∧ (Unharmed pre b' ↔ FailsCleanly { slots := false } pre order) := by
  obtain ⟨b₀, past, b, ⟨e, b'⟩, hnew, hrun, hcalls, hf⟩ :=
    exists_run id { expectedOrders := 1, priceLevels := 4 } {} [.addLimit 1 7 .buy 100 5]
      (fun _ b => (b.perform { slots := false } (.addLimit 2 8 .buy 100 5)).thrown)
      (by decide +kernel)
  have hthrow := Result.thrown_eq_some.mp hf
  exact ⟨b₀, past, b, b', e, hnew, hrun, hcalls, hthrow,
    failed_insert_unharmed_iff hnew hrun hthrow⟩

/-- A pool of one slot that cannot grow: the second bid throws, and its price is the best bid. -/
theorem failed_insert_leaves_ghost : ∃ b₀ past b b' e pre order,
    OrderBook.new id { expectedOrders := 1, priceLevels := 4 } = some b₀ ∧ Run b₀ past b
    ∧ past.map Record.call = [.addLimit 1 7 .buy 100 5]
    ∧ b.perform { slots := false } (.addLimit 2 8 .buy 101 5) = .throws e b'
    ∧ b.insertPoint (.addLimit 2 8 .buy 101 5) = some (pre, order)
    ∧ pre.bestBid = some 100 ∧ b'.bestBid = some 101 ∧ b'.find 2 = some none
    ∧ ¬ Unharmed pre b' := by
  obtain ⟨b₀, past, b, x, hnew, hrun, hcalls, hf⟩ :=
    exists_run id { expectedOrders := 1, priceLevels := 4 } {} [.addLimit 1 7 .buy 100 5]
      (fun _ b => (b.perform { slots := false } (.addLimit 2 8 .buy 101 5)).thrown.bind fun t =>
        (b.insertPoint (.addLimit 2 8 .buy 101 5)).bind fun p =>
          if p.1.bestBid = some 100 ∧ t.2.bestBid = some 101 ∧ t.2.find 2 = some none then
            some (t, p)
          else none) (by decide +kernel)
  obtain ⟨⟨e, b'⟩, hthrow, hf⟩ := Option.bind_eq_some_iff.mp hf
  obtain ⟨⟨pre, order⟩, hpoint, hf⟩ := Option.bind_eq_some_iff.mp hf
  obtain ⟨⟨hpre, hghost, hgone⟩, -⟩ := Option.ite_none_right_eq_some.mp hf
  refine ⟨b₀, past, b, b', e, pre, order, hnew, hrun, hcalls, Result.thrown_eq_some.mp hthrow,
    hpoint, hpre, hghost, hgone, fun hun => ?_⟩
  have hbid := hun.bestBid
  rw [hpre, hghost] at hbid
  exact absurd hbid (by decide)

end Run

end OrderBook

end Lob
