/-
# Lob.ReferenceRun — the engine refines the naive reference book over whole runs.

Both books follow the priority book, so on the same calls they give the same answers, print the same
trades and show the same orders, prices, totals and size.  The reference numbers arrivals in 64 bits:
the agreement lasts while fewer than `2^64` orders have come to rest.
-/
import Lob.ReferenceRefine
import Lob.WithinProvision

namespace Lob

open Lib.Scan PriorityBook

/-! ## The comparator of the snapshot -/

namespace Resting

/-- The place of a record in book order: side, then price, then arrival. -/
def rank (x : Resting) : Nat :=
  match x.side with
  | .buy => (2 ^ 64 - 1 - x.price.toNat) * 2 ^ 64 + x.arrival.toNat
  | .sell => 2 ^ 128 + x.price.toNat * 2 ^ 64 + x.arrival.toNat

theorem less_iff {x y : Resting} : x.less y = true ↔ x.rank < y.rank := by
  obtain ⟨id, owner, price, qty, side, arrival⟩ := x
  obtain ⟨id', owner', price', qty', side', arrival'⟩ := y
  have hp := price.toNat_lt
  have hp' := price'.toNat_lt
  have ha := arrival.toNat_lt
  have ha' := arrival'.toNat_lt
  unfold less rank
  by_cases hprice : price = price'
  · subst hprice
    cases side <;> cases side' <;> simp [UInt64.lt_iff_toNat_lt] <;> omega
  · have hne : price.toNat ≠ price'.toNat := fun h => hprice (UInt64.toNat_inj.mp h)
    cases side <;> cases side' <;> simp [hprice, UInt64.lt_iff_toNat_lt] <;> omega

theorem less_asymm (x y : Resting) (h : x.less y = true) : y.less x = false := by
  rw [Bool.eq_false_iff, Ne, less_iff]
  rw [less_iff] at h
  omega

theorem not_less_trans (x y z : Resting) (hxy : y.less x = false) (hyz : z.less y = false) :
    z.less x = false := by
  rw [Bool.eq_false_iff, Ne, less_iff] at hxy hyz ⊢
  omega

end Resting

/-! ## The queries -/

namespace ReferenceBook

section Queries

variable {b : ReferenceBook} {a : PriorityBook} {stamp : OrderId → Nat} {n : Nat}

/-- **The snapshot is the book order.** -/
theorem Mirrors.queueSnapshot (h : Mirrors b a stamp n) :
    b.queueSnapshot.map Resting.toOrder = a.snapshot := by
  have hside : ∀ s, (recordsOf stamp a s).Pairwise fun x y => x.less y = true := by
    intro s
    refine List.pairwise_map.mpr ((h.inOrder s).imp_of_mem fun hx hy hxy => ?_)
    exact (less_recordOf (h.stamp_lt hx) (h.stamp_lt hy)).mpr hxy
  have hsorted : (recordsOf stamp a .buy ++ recordsOf stamp a .sell).Pairwise
      fun x y => x.less y = true := by
    refine List.pairwise_append.mpr ⟨hside .buy, hside .sell, fun x hx y hy => ?_⟩
    obtain ⟨o, -, rfl⟩ := List.mem_map.mp hx
    obtain ⟨o', -, rfl⟩ := List.mem_map.mp hy
    simp [Resting.less, recordOf]
  rw [ReferenceBook.queueSnapshot,
    mergeSort_eq_of_perm Resting.less_asymm Resting.not_less_trans h.resting hsorted,
    List.map_append, recordsOf, recordsOf, toOrder_recordOf, toOrder_recordOf]
  rfl

/-- The prices of a side, as the scan meets them. -/
theorem Mirrors.mem_prices (h : Mirrors b a stamp n) {s : Side} {p : Price} :
    p ∈ b.resting.filterMap (fun r : Resting => if r.side = s then some r.price else none)
      ↔ ∃ o ∈ a.queue s, o.price = p := by
  rw [List.mem_filterMap]
  constructor
  · rintro ⟨r, hr, heq⟩
    obtain ⟨hside, hprice⟩ := Option.ite_none_right_eq_some.mp heq
    obtain ⟨t, o, ho, rfl⟩ := h.mem_iff.mp hr
    obtain rfl : t = s := hside
    exact ⟨o, ho, Option.some.inj hprice⟩
  · rintro ⟨o, ho, rfl⟩
    exact ⟨recordOf stamp s o, h.mem_iff.mpr ⟨s, o, ho, rfl⟩, if_pos rfl⟩

/-- **The best price of a side.** -/
theorem Mirrors.bestPrice (h : Mirrors b a stamp n) (s : Side) : b.bestPrice s = a.best s := by
  have hbeats : ∀ p q : Price,
      (if s = .buy then decide (q < p) else decide (p < q)) = true ↔ better s.isBid p q := by
    intro p q
    cases s <;> simp [better, Side.isBid]
  rw [ReferenceBook.bestPrice, PriorityBook.best]
  cases hq : a.queue s with
  | nil =>
    rw [scan_eq_none]
    · rfl
    · refine List.eq_nil_iff_forall_not_mem.mpr fun p hp => ?_
      obtain ⟨o, ho, -⟩ := h.mem_prices.mp hp
      rw [hq] at ho
      simp at ho
  | cons o rest =>
    have hserved := h.inOrder s
    rw [hq] at hserved
    have hmem : ∀ x ∈ a.queue s, x = o ∨ Before stamp s.isBid o x := by
      intro x hx
      rw [hq] at hx
      rcases List.mem_cons.mp hx with rfl | hx
      · exact Or.inl rfl
      · exact Or.inr (hserved.head x hx)
    refine scan_eq_some (h.mem_prices.mpr ⟨o, by rw [hq]; simp, rfl⟩) (fun p hp => ?_)
      fun p hp => ?_
    · obtain ⟨x, hx, rfl⟩ := h.mem_prices.mp hp
      rw [Bool.eq_false_iff, Ne, hbeats]
      rcases hmem x hx with rfl | hx
      · exact irrefl_of (better s.isBid) _
      · exact hx.not_better
    · obtain ⟨x, hx, rfl⟩ := h.mem_prices.mp hp
      rw [hbeats]
      rcases hmem x hx with rfl | hx | ⟨hx, -⟩
      · exact Or.inl rfl
      · exact Or.inr hx
      · exact Or.inl hx.symm

/-- The running total of `qty_at`. -/
theorem foldl_qtyAt (s : Side) (p : Price) (rs : List Resting) (k : Nat) :
    rs.foldl (fun total r => if r.side = s ∧ r.price = p then total + r.qty.toUInt64 else total)
        (UInt64.ofNat k)
      = UInt64.ofNat (k + ((rs.filter fun r => r.side = s ∧ r.price = p).map
          fun r => r.qty.toNat).sum) := by
  induction rs generalizing k with
  | nil => rfl
  | cons r rs ih =>
    rw [List.foldl_cons]
    by_cases hr : r.side = s ∧ r.price = p
    · rw [if_pos hr, toUInt64_eq_ofNat, ← UInt64.ofNat_add, ih,
        List.filter_cons_of_pos (by simpa using hr), List.map_cons, List.sum_cons, Nat.add_assoc]
    · rw [if_neg hr, ih, List.filter_cons_of_neg (by simpa using hr)]

/-- **The quantity at a price.** -/
theorem Mirrors.qtyAt (h : Mirrors b a stamp n) (s : Side) (p : Price) :
    b.qtyAt s p = UInt64.ofNat (a.volumeAt s p) := by
  have hfold := foldl_qtyAt s p b.resting 0
  have hself : (recordsOf stamp a s).filter (fun r => r.side = s ∧ r.price = p)
      = ((a.queue s).filter fun o => o.price = p).map (recordOf stamp s) := by
    rw [recordsOf, List.filter_map]
    exact congrArg _ (List.filter_congr fun o _ => decide_eq_decide.mpr (and_iff_right rfl))
  have hopp : (recordsOf stamp a s.opposite).filter (fun r => r.side = s ∧ r.price = p) = [] := by
    refine List.filter_eq_nil_iff.mpr fun r hr => ?_
    obtain ⟨o, -, rfl⟩ := List.mem_map.mp hr
    simp [recordOf, s.opposite_ne]
  have hperm := (h.perm s).filter fun r => decide (r.side = s ∧ r.price = p)
  rw [List.filter_append, hself, hopp, List.append_nil] at hperm
  rw [(hperm.map _).sum_nat, List.map_map, Nat.zero_add] at hfold
  exact hfold

/-- **The number of resting orders.** -/
theorem Mirrors.size (h : Mirrors b a stamp n) : b.size = a.orders.length := by
  have hlen := h.ids.length_eq
  rwa [List.length_map, List.length_map] at hlen

end Queries

theorem mirrors_new (policy : SelfTradePolicy) :
    Mirrors { policy := policy } {} (fun _ => 0) 0 :=
  ⟨List.Perm.refl _, inOrder_empty _, by simp, by decide, rfl, rfl⟩

end ReferenceBook

/-! ## Runs -/

namespace OrderBook

/-- How many orders came to rest in a history. -/
def rested (past : List Record) : Nat := past.countP fun r => r.restedId.isSome

/-- Everything a client can ask of the two books has the same answer. -/
structure Agrees (b : OrderBook) (ref : ReferenceBook) : Prop where
  /-- Side, price, id, owner and quantity of every resting order, in book order. -/
  queue : b.forEachResting = some (ref.queueSnapshot.map Resting.toOrder)
  bestBid : b.bestBid = ref.bestBid
  bestAsk : b.bestAsk = ref.bestAsk
  qtyAt : ∀ s p, b.qtyAt s p = ref.qtyAt s p
  size : b.size = ref.size

section Runs

variable {scrub : RestingOrder → RestingOrder} {cfg : Config} {b₀ b : OrderBook}
  {past newer older : List Record} {r : Record} {Q₀ Q : Layout} {free₀ free : List SlotIndex}

theorem Follows.agrees {a : PriorityBook} {ref : ReferenceBook} {stamp : OrderId → Nat} {n : Nat}
    (h : b.Follows a Q free) (href : ref.Mirrors a stamp n) : b.Agrees ref where
  queue := by rw [h.forEachResting, href.queueSnapshot]
  bestBid := by rw [h.bestBid, ReferenceBook.bestBid, href.bestPrice]
  bestAsk := by rw [h.bestAsk, ReferenceBook.bestAsk, href.bestPrice]
  qtyAt s p := by rw [h.qtyAt, href.qtyAt]
  size := by rw [h.size, href.size]

theorem rested_cons (r : Record) (past : List Record) :
    rested (r :: past) = if r.restedId.isSome then rested past + 1 else rested past := by
  rw [rested, List.countP_cons]
  by_cases hr : r.restedId.isSome = true
  · rw [if_pos hr, if_pos hr]
    rfl
  · rw [if_neg hr, if_neg hr]
    rfl

theorem rested_le_cons (r : Record) (past : List Record) : rested past ≤ rested (r :: past) := by
  rw [rested_cons]
  split
  · exact Nat.le_succ _
  · exact Nat.le_refl _

/-- **The step**: the reference book answers the next call of a history as the engine did. -/
theorem Recorded.answered {ref : ReferenceBook} {a : PriorityBook} {stamp : OrderId → Nat}
    (hrec : Recorded ref.policy a r) (hsound : a.Sound) (href : ref.Mirrors a stamp (rested past))
    (hroom : rested (r :: past) < 2 ^ 64) :
    ∃ reply ref' stamp', ref.perform r.call = some (reply, ref') ∧ (r.call ≠ .pop → r.reply = reply)
      ∧ ref'.Mirrors (a.perform ref.policy r.call).2.2 stamp' (rested (r :: past))
      ∧ ref'.tradeLog = ref.tradeLog ++ r.trades ∧ ref'.policy = ref.policy := by
  have harrivals : ReferenceBook.arrivalsAfter ref.policy a r.call (rested past)
      = rested (r :: past) := by
    rw [rested_cons, hrec.restedId]
    rfl
  have hans := href.answers hsound r.call (by rwa [harrivals])
  generalize ref.perform r.call = answer at hans
  cases hans with
  | returned ref' stamp' hmirrors hlog hpolicy =>
    rw [harrivals] at hmirrors
    refine ⟨_, ref', stamp', rfl, hrec.reply, hmirrors, ?_, hpolicy⟩
    rw [hlog, Record.trades, ← hrec.acts]
    rfl

/-- **The run lemma**: on the calls of a history, the reference book mirrors the replay. -/
theorem Run.mirrored (h₀ : b₀.Follows {} Q₀ free₀) (hrun : Run b₀ past b)
    (hroom : rested past < 2 ^ 64) :
    ∃ ref stamp, ReferenceBook.replay b₀.policy (past.map Record.call) = some ref
      ∧ ref.Mirrors (replayOf b₀ past) stamp (rested past) ∧ ref.tradeLog = emitted past
      ∧ ref.policy = b₀.policy := by
  induction past generalizing b with
  | nil => exact ⟨_, _, rfl, ReferenceBook.mirrors_new b₀.policy, rfl, rfl⟩
  | cons r past ih =>
    have hrun' := hrun.cons_inv.2.1
    obtain ⟨ref, stamp, hreplay, href, hlog, hpolicy⟩ :=
      ih hrun' (Nat.lt_of_le_of_lt (rested_le_cons r past) hroom)
    have hrec := hrun.recorded_head h₀
    rw [← hpolicy] at hrec
    obtain ⟨reply, ref', stamp', hperf, -, hmirrors, hlog', hpolicy'⟩ :=
      hrec.answered (hrun'.inOrder h₀).2 href hroom
    refine ⟨ref', stamp', ?_, ?_, ?_, hpolicy'.trans hpolicy⟩
    · rw [List.map_cons, ReferenceBook.replay, hreplay, Option.bind_some, hperf]
      rfl
    · rw [hpolicy] at hmirrors
      exact hmirrors
    · rw [hlog', hlog]
      rfl

/-- **The engine refines the naive reference book**: after every call of every run in which fewer than
`2^64` orders have come to rest, the reference book has given the same answer, its log holds the trades
the engine emitted, and the two show the same book. -/
theorem engine_refines_reference (hnew : OrderBook.new scrub cfg = some b₀)
    (hrun : Run b₀ (newer ++ r :: older) b) (hrested : rested (r :: older) < 2 ^ 64) :
    ∃ ref reply ref', ReferenceBook.replay cfg.selfTrade (older.map Record.call) = some ref
      ∧ ref.perform r.call = some (reply, ref') ∧ (r.call ≠ .pop → r.reply = reply)
      ∧ ref'.tradeLog = emitted (r :: older) ∧ r.after.Agrees ref' := by
  obtain ⟨h₀, hpolicy₀, -⟩ := new_follows hnew
  obtain ⟨b', hrun'⟩ := hrun.earlier
  have hrunOlder := hrun'.cons_inv.2.1
  obtain ⟨ref, stamp, hreplay, href, hlog, hpolicy⟩ :=
    hrunOlder.mirrored h₀ (Nat.lt_of_le_of_lt (rested_le_cons r older) hrested)
  have hrec := hrun'.recorded_head h₀
  rw [← hpolicy] at hrec
  obtain ⟨reply, ref', stamp', hperf, hreply, hmirrors, hlog', -⟩ :=
    hrec.answered (hrunOlder.inOrder h₀).2 href hrested
  obtain ⟨Q, free, hafter⟩ := hrec.after
  rw [hpolicy₀] at hreplay
  refine ⟨ref, reply, ref', hreplay, hperf, hreply, ?_, hafter.agrees hmirrors⟩
  rw [hlog', hlog]
  rfl

theorem rested_le_length (past : List Record) : rested past ≤ past.length := List.countP_le_length

/-- A bid is filled in part by a market order, repriced, and hit again. -/
theorem engine_refines_reference_repriced : ∃ b₀ r older b ref reply ref',
    OrderBook.new id {} = some b₀ ∧ Run b₀ (r :: older) b
    ∧ (r :: older).map Record.call = [.addLimit 4 9 .sell 101 2, .modify 1 101 4,
      .addMarket 3 9 .sell 2, .addLimit 2 8 .buy 100 5, .addLimit 1 7 .buy 100 5]
    ∧ ReferenceBook.replay .cancelResting (older.map Record.call) = some ref
    ∧ ref.perform r.call = some (reply, ref') ∧ (r.call ≠ .pop → r.reply = reply)
    ∧ ref'.tradeLog = emitted (r :: older) ∧ r.after.Agrees ref' := by
  obtain ⟨b₀, past, b, -, hnew, hrun, hcalls, -⟩ := exists_run id {} {} [.addLimit 4 9 .sell 101 2,
    .modify 1 101 4, .addMarket 3 9 .sell 2, .addLimit 2 8 .buy 100 5, .addLimit 1 7 .buy 100 5]
    (fun _ => some) (by decide +kernel)
  obtain ⟨r, older, rfl, hr, holder⟩ := List.map_eq_cons_iff.mp hcalls
  have hlen : (r :: older).length = 5 := by
    have hlen := congrArg List.length hcalls
    rwa [List.length_map] at hlen
  have hrested := rested_le_length (r :: older)
  have hall : Run b₀ ([] ++ r :: older) b := hrun
  obtain ⟨ref, reply, ref', h⟩ := engine_refines_reference hnew hall (by omega)
  exact ⟨b₀, r, older, b, ref, reply, ref', hnew, hrun, hcalls, h⟩

end Runs

/-! ## The arrival counter of the reference wraps -/

/-- A bid, and then `n` times a second bid at its price and the cancel of that one, newest first. -/
def churn : Nat → List Call
  | 0 => [.addLimit 1 0 .buy 100 5]
  | n + 1 => .cancel 2 :: .addLimit 2 0 .buy 100 5 :: churn n

/-- The second bid leaves no trace in the priority book. -/
theorem replay_churn (n : Nat) : PriorityBook.replay .cancelResting (churn n)
    = { queue := fun s => if s = .buy then [⟨1, 100, 5, 0⟩] else [] } := by
  induction n with
  | zero =>
    refine PriorityBook.mk.injEq .. |>.mpr ⟨?_, rfl⟩
    funext s
    cases s <;> rfl
  | succ n ih =>
    rw [churn, PriorityBook.replay, PriorityBook.replay, ih]
    refine PriorityBook.mk.injEq .. |>.mpr ⟨?_, rfl⟩
    funext s
    cases s <;> rfl

/-- The reference book numbers one more arrival for each second bid. -/
theorem reference_churn (n : Nat) : ReferenceBook.replay .cancelResting (churn n)
    = some { resting := [⟨1, 0, 100, 5, .buy, 1⟩], policy := .cancelResting,
             nextArrival := UInt64.ofNat (n + 2) } := by
  induction n with
  | zero => rfl
  | succ n ih =>
    have hnext : UInt64.ofNat (n + 1 + 2) = UInt64.ofNat (n + 2) + 1 := by
      rw [show n + 1 + 2 = n + 2 + 1 by omega, UInt64.ofNat_add]
      rfl
    rw [churn, ReferenceBook.replay, ReferenceBook.replay, ih, hnext]
    rfl

/-- One order beside the first is within the default provision. -/
theorem within_churn (n : Nat) : Within {} (.addLimit 3 0 .buy 100 5 :: churn n) := by
  have hone : ∀ n, ∀ cs', cs' <:+ churn n →
      (PriorityBook.replay .cancelResting cs').orders.length ≤ 1024 := by
    intro n
    induction n with
    | zero =>
      intro cs' hcs'
      rcases List.suffix_cons_iff.mp hcs' with rfl | hcs'
      · decide
      · obtain rfl := List.suffix_nil.mp hcs'
        decide
    | succ n ih =>
      intro cs' hcs'
      rcases List.suffix_cons_iff.mp hcs' with rfl | hcs'
      · rw [PriorityBook.replay, PriorityBook.replay, replay_churn]
        decide
      · rcases List.suffix_cons_iff.mp hcs' with rfl | hcs'
        · rw [PriorityBook.replay, replay_churn]
          decide
        · exact ih cs' hcs'
  intro cs' hcs'
  rcases List.suffix_cons_iff.mp hcs' with rfl | hcs'
  · show (PriorityBook.replay .cancelResting _).orders.length ≤ 1024
    rw [PriorityBook.replay, replay_churn]
    decide
  · exact hone n cs' hcs'

theorem churned_apart {n : Nat} (hn : UInt64.ofNat (n + 2) = 0) : ∃ b₀ past b ref,
    OrderBook.new id {} = some b₀ ∧ Run b₀ past b
    ∧ past.map Record.call = .addLimit 3 0 .buy 100 5 :: churn n
    ∧ ReferenceBook.replay .cancelResting (past.map Record.call) = some ref
    ∧ b.forEachResting = some [⟨1, 0, 100, 5, .buy⟩, ⟨3, 0, 100, 5, .buy⟩]
    ∧ ref.queueSnapshot.map Resting.toOrder = [⟨3, 0, 100, 5, .buy⟩, ⟨1, 0, 100, 5, .buy⟩] := by
  obtain ⟨b₀, hnew⟩ : ∃ b₀, OrderBook.new id {} = some b₀ :=
    Option.isSome_iff_exists.mp (by decide +kernel)
  obtain ⟨past, b, hrun, hcalls⟩ := exists_run_within hnew (by decide) (within_churn n)
  obtain ⟨h₀, hpolicy₀, -⟩ := new_follows hnew
  obtain ⟨⟨Q, free, hf⟩, -⟩ := hrun.follows h₀
  let ref : ReferenceBook := {
    resting := [⟨1, 0, 100, 5, .buy, 1⟩, ⟨3, 0, 100, 5, .buy, 0⟩]
    policy := .cancelResting
    nextArrival := 1 }
  refine ⟨b₀, past, b, ref, hnew, hrun, hcalls, ?_, ?_, ?_⟩
  · rw [hcalls, ReferenceBook.replay, reference_churn, hn]
    rfl
  · rw [hf.forEachResting, replayOf, hcalls, hpolicy₀, PriorityBook.replay, replay_churn]
    rfl
  · rw [ReferenceBook.queueSnapshot, mergeSort_eq_of_perm Resting.less_asymm Resting.not_less_trans
      (List.Perm.swap ..) (by decide)]
    rfl

/-- **After `2^64` arrivals the reference has lost its order**: the engine serves the first bid before
the last one, the reference book the last one before the first. -/
theorem reference_arrival_wraps : ∃ b₀ past b ref,
    OrderBook.new id {} = some b₀ ∧ Run b₀ past b
    ∧ past.map Record.call = .addLimit 3 0 .buy 100 5 :: churn (2 ^ 64 - 2)
    ∧ ReferenceBook.replay .cancelResting (past.map Record.call) = some ref
    ∧ b.forEachResting = some [⟨1, 0, 100, 5, .buy⟩, ⟨3, 0, 100, 5, .buy⟩]
    ∧ ref.queueSnapshot.map Resting.toOrder = [⟨3, 0, 100, 5, .buy⟩, ⟨1, 0, 100, 5, .buy⟩]
    ∧ ¬ b.Agrees ref := by
  obtain ⟨b₀, past, b, ref, hnew, hrun, hcalls, hreplay, hengine, href⟩ :=
    churned_apart (n := 2 ^ 64 - 2) (by decide)
  refine ⟨b₀, past, b, ref, hnew, hrun, hcalls, hreplay, hengine, href, fun hagrees => ?_⟩
  have hqueue := hagrees.queue
  rw [hengine, href] at hqueue
  simp at hqueue

end OrderBook

end Lob
