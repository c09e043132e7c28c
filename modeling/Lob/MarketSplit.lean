/-
# Lob.MarketSplit — a market order may be split.

What a walk does to the far side depends on the quantity it starts with and on nothing else that two
takers of one side, owner and policy do not share.  `Taker.drain` is that part of a walk, on unbounded
quantities, and it can be resumed anywhere: draining `m + n` is draining `m`, then `n` from what is
left (`drain_add`).  The reports and the trades of the walks follow by conservation.
-/
import Lob.WalkTally
import Lob.RunRefine

namespace Lob

/-! ## Draining a far side -/

/-- What a walk for `n` leaves of the far side, and the orders that prevention removes. -/
def Taker.drain (k : Taker) : List RestingOrder → Nat → List RestingOrder × List RestingOrder
  | [], _ => ([], [])
  | o :: far, n =>
    if n = 0 ∨ k.crosses o = false then (o :: far, [])
    else if k.selfTrade o then
      if k.policy = .cancelIncoming then (o :: far, [])
      else ((k.drain far n).1, o :: (k.drain far n).2)
    else if o.qty.toNat ≤ n then k.drain far (n - o.qty.toNat)
    else ({ o with qty := o.qty - UInt32.ofNat n } :: far, [])

section Drain

variable {k : Taker} {o : RestingOrder} {far : List RestingOrder} {p : Progress} {m n : Nat}

theorem drain_zero (k : Taker) (far : List RestingOrder) : k.drain far 0 = (far, []) := by
  cases far with
  | nil => rfl
  | cons o far => rw [Taker.drain, if_pos (Or.inl rfl)]

/-- An order that stops one walk at its front stops the next. -/
theorem drain_of_not_crosses (h : k.crosses o = false) (n : Nat) :
    k.drain (o :: far) n = (o :: far, []) := by
  rw [Taker.drain, if_pos (Or.inr h)]

theorem drain_of_halt (hself : k.selfTrade o = true) (hpolicy : k.policy = .cancelIncoming) (n : Nat) :
    k.drain (o :: far) n = (o :: far, []) := by
  rw [Taker.drain, if_pos hself, if_pos hpolicy, ite_self]

/-- **A drain can be resumed where it ran dry.** -/
theorem drain_add (k : Taker) (far : List RestingOrder) (m n : Nat) :
    k.drain far (m + n) = ((k.drain (k.drain far m).1 n).1,
      (k.drain far m).2 ++ (k.drain (k.drain far m).1 n).2) := by
  induction far generalizing m with
  | nil => rfl
  | cons o far ih =>
    by_cases hzero : m = 0
    · subst hzero
      simp only [drain_zero, Nat.zero_add, List.nil_append]
    · cases hcross : k.crosses o with
      | false => simp only [drain_of_not_crosses hcross, List.append_nil]
      | true =>
        have hgo : ∀ j, m ≤ j → ¬ (j = 0 ∨ k.crosses o = false) := by
          rintro j hj (hj0 | hno)
          · omega
          · simp [hcross] at hno
        cases hself : k.selfTrade o with
        | true =>
          by_cases hpolicy : k.policy = .cancelIncoming
          · -- a halted walk stays where it is, however much is left
            simp only [drain_of_halt hself hpolicy, List.append_nil]
          · rw [Taker.drain, if_neg (hgo _ (Nat.le_add_right m n)), if_pos hself, if_neg hpolicy,
              Taker.drain, if_neg (hgo m (Nat.le_refl m)), if_pos hself, if_neg hpolicy, ih m]
            rfl
        | false =>
          have hno : ¬ k.selfTrade o = true := by simp [hself]
          by_cases hfirst : o.qty.toNat ≤ m
          · -- the first taker consumes the order, and both walks go on behind it
            have hsum : m + n - o.qty.toNat = (m - o.qty.toNat) + n := by omega
            rw [Taker.drain, if_neg (hgo _ (Nat.le_add_right m n)), if_neg hno,
              if_pos (by omega), hsum, ih]
            have hdrain : k.drain (o :: far) m = k.drain far (m - o.qty.toNat) := by
              rw [Taker.drain, if_neg (hgo m (Nat.le_refl m)), if_neg hno, if_pos hfirst]
            rw [hdrain]
          · -- the first taker runs dry inside the order, and the second finds the rest of it
            have hlt := o.qty.toNat_lt
            have hm : (UInt32.ofNat m).toNat = m := by
              rw [UInt32.toNat_ofNat', Nat.mod_eq_of_lt (by omega)]
            have hdrain : k.drain (o :: far) m
                = ({ o with qty := o.qty - UInt32.ofNat m } :: far, []) := by
              rw [Taker.drain, if_neg (hgo m (Nat.le_refl m)), if_neg hno, if_neg hfirst]
            have hleft : (o.qty - UInt32.ofNat m).toNat = o.qty.toNat - m := by
              rw [UInt32.toNat_sub_of_le _ _ (by rw [UInt32.le_iff_toNat_le, hm]; omega), hm]
            rw [hdrain, List.nil_append, Taker.drain, if_neg (hgo _ (Nat.le_add_right m n)), if_neg hno]
            by_cases hn : n = 0
            · subst hn
              rw [drain_zero, if_neg (by omega)]
              rfl
            · have hrest : k.drain ({ o with qty := o.qty - UInt32.ofNat m } :: far) n
                  = if o.qty.toNat - m ≤ n then k.drain far (n - (o.qty.toNat - m))
                    else ({ o with qty := o.qty - UInt32.ofNat m - UInt32.ofNat n } :: far, []) := by
                have hgo' : ¬ (n = 0 ∨ k.crosses { o with qty := o.qty - UInt32.ofNat m } = false) :=
                  fun h => h.elim hn fun hc => Bool.noConfusion (hcross.symm.trans hc)
                have hself' : ¬ k.selfTrade { o with qty := o.qty - UInt32.ofNat m } = true := hno
                rw [Taker.drain, if_neg hgo', if_neg hself', hleft]
              rw [hrest]
              by_cases hsecond : o.qty.toNat ≤ m + n
              · rw [if_pos hsecond, if_pos (by omega)]
                show _ = k.drain far (n - (o.qty.toNat - m))
                congr 1
                omega
              · have hsub : o.qty - UInt32.ofNat (m + n)
                    = o.qty - UInt32.ofNat m - UInt32.ofNat n := by
                  rw [UInt32.ofNat_add]
                  grind
                rw [if_neg hsecond, if_neg (by omega), hsub]

/-- **What a walk does to the far side** is a drain of the quantity it starts with. -/
theorem sweep_drain (k : Taker) (far : List RestingOrder) (p : Progress)
    (hhalt : p.rep.stpHalted = false) :
    (k.sweep far p).1 = (k.drain far p.left.toNat).1
      ∧ removalsOf (k.sweep far p).2.acts = removalsOf p.acts ++ (k.drain far p.left.toNat).2 := by
  induction far generalizing p with
  | nil => simp [Taker.sweep, Taker.drain]
  | cons o far ih =>
    have hzero : p.left = 0 ↔ p.left.toNat = 0 := by
      rw [← UInt32.toNat_inj, UInt32.toNat_zero]
    rw [Taker.sweep, Taker.drain]
    by_cases hstop : k.stops o p = true
    · have hdry : p.left.toNat = 0 ∨ k.crosses o = false := by
        simpa [Taker.stops, hhalt, hzero] using hstop
      rw [if_pos hstop, if_pos hdry]
      simp
    · have hgo : ¬ (p.left.toNat = 0 ∨ k.crosses o = false) := by
        simpa [Taker.stops, hhalt, hzero] using hstop
      rw [if_neg hstop, if_neg hgo]
      by_cases hself : k.selfTrade o = true
      · rw [if_pos hself, if_pos hself]
        by_cases hpolicy : k.policy = .cancelIncoming
        · rw [if_pos hpolicy, if_pos hpolicy]
          simp [Taker.halted]
        · rw [if_neg hpolicy, if_neg hpolicy]
          obtain ⟨hfar, hrem⟩ := ih (Taker.cancelled o p) hhalt
          exact ⟨hfar, by rw [hrem]; simp [Taker.cancelled]⟩
      · rw [if_neg hself, if_neg hself]
        have hrem : removalsOf (k.filled o p).acts = removalsOf p.acts := by simp [Taker.filled]
        by_cases hle : o.qty.toNat ≤ p.left.toNat
        · have hz : (Taker.rest o p).qty = 0 :=
            Taker.rest_qty_eq_zero.mpr (UInt32.le_iff_toNat_le.mpr hle)
          rw [if_pos hz, if_pos hle, ← k.filled_left o p, ← hrem]
          exact ih (k.filled o p) hhalt
        · have hz : ¬ (Taker.rest o p).qty = 0 := by
            rw [Taker.rest_qty_eq_zero, UInt32.le_iff_toNat_le]
            exact hle
          have hmin : min p.left o.qty = p.left := by
            apply UInt32.toNat_inj.mp
            rw [min_toNat]
            omega
          rw [if_neg hz, if_neg hle]
          refine ⟨?_, by rw [hrem, List.append_nil]⟩
          simp only [Taker.rest, hmin, UInt32.ofNat_toNat]

/-- A drain does not look at the taker's id. -/
theorem drain_id (k : Taker) (id : OrderId) (far : List RestingOrder) (n : Nat) :
    ({ k with id := id } : Taker).drain far n = k.drain far n := by
  induction far generalizing n with
  | nil => rfl
  | cons o far ih =>
    rw [Taker.drain, Taker.drain, ih, ih]
    rfl

/-! ## What a walk takes, in terms of the drain -/

/-- The outcome of a walk that is not about the taker's id or the trades' numbers. -/
structure Drained (k : Taker) (far : List RestingOrder) (n : Nat) (far' : List RestingOrder)
    (p : Progress) : Prop where
  queue : far' = (k.drain far n).1
  removed : removalsOf p.acts = (k.drain far n).2
  made : ∀ maker, queuedBy maker far' + madeBy maker p.acts + queuedBy maker (k.drain far n).2
    = queuedBy maker far
  filled : volume far' + p.rep.filled.toNat + volume (k.drain far n).2 = volume far
  stpCancelled : volume far < 2 ^ 64 → p.rep.stpCancelled.toNat = volume (k.drain far n).2
  unfilled : p.left.toNat + p.rep.filled.toNat = n

theorem sweep_drained (k : Taker) (qty : Quantity) (seq : Sequence) (hpos : ∀ o ∈ far, 0 < o.qty) :
    Drained k far qty.toNat (k.sweep far { left := qty, nextSeq := seq }).1
      (k.sweep far { left := qty, nextSeq := seq }).2 := by
  have htally := sweep_tally hpos k qty seq
  obtain ⟨hfar, hrem⟩ := sweep_drain k far { left := qty, nextSeq := seq } rfl
  have hmade := sweep_conserved k far { left := qty, nextSeq := seq } rfl
  have hvolume := sweep_volume k far { left := qty, nextSeq := seq } rfl
  rw [removalsOf_nil, List.nil_append] at hrem
  refine ⟨hfar, hrem, fun maker => hrem ▸ hmade maker, ?_, fun hlt => ?_, ?_⟩
  · rw [htally.filled, ← hrem]
    exact hvolume
  · rw [htally.removed, ← hrem, UInt64.toNat_ofNat', Nat.mod_eq_of_lt (by omega)]
  · rw [htally.filled]
    exact htally.left

theorem Drained.id {far' : List RestingOrder} (h : Drained k far n far' p) (id : OrderId) :
    Drained { k with id := id } far n far' p := by
  obtain ⟨hqueue, hremoved, hmade, hfilled, hstp, hleft⟩ := h
  rw [← drain_id k id] at hqueue hremoved hfilled hstp
  refine ⟨hqueue, hremoved, fun maker => ?_, hfilled, hstp, hleft⟩
  rw [drain_id]
  exact hmade maker

/-- **Two drains in a row are one drain of the sum.** -/
theorem Drained.split {far₁ far₂ far' : List RestingOrder} {p₁ p₂ : Progress}
    (h₁ : Drained k far m far₁ p₁) (h₂ : Drained k far₁ n far₂ p₂) (h : Drained k far (m + n) far' p)
    (hlt : volume far < 2 ^ 64) :
    far₂ = far' ∧ (∀ maker, madeBy maker p₁.acts + madeBy maker p₂.acts = madeBy maker p.acts)
      ∧ p₁.rep.filled.toNat + p₂.rep.filled.toNat = p.rep.filled.toNat
      ∧ p₁.rep.stpCancelled.toNat + p₂.rep.stpCancelled.toNat = p.rep.stpCancelled.toNat := by
  have hadd := drain_add k far m n
  rw [← h₁.queue] at hadd
  have hqueue : far₂ = far' := by rw [h₂.queue, h.queue, hadd]
  have hremoved : (k.drain far (m + n)).2 = (k.drain far m).2 ++ (k.drain far₁ n).2 := by rw [hadd]
  have hvolume := congrArg volume hremoved
  rw [volume_append] at hvolume
  have hfilled₁ := h₁.filled
  have hfilled₂ := h₂.filled
  have hfilled := h.filled
  subst hqueue
  refine ⟨rfl, fun maker => ?_, by omega, ?_⟩
  · have hmade₁ := h₁.made maker
    have hmade₂ := h₂.made maker
    have hmade := h.made maker
    rw [hremoved, queuedBy_append] at hmade
    omega
  · rw [h₁.stpCancelled hlt, h₂.stpCancelled (by omega), h.stpCancelled hlt]
    exact hvolume.symm

end Drain

/-! ## Market orders -/

namespace OrderBook

/-- What a maker gave to the trades of a call. -/
def taken (maker : OrderId) (events : List Event) : Nat := madeBy maker (events.map Event.act)

section Market

variable {b : OrderBook} {a : PriorityBook} {Q : Layout} {free : List SlotIndex} {id : OrderId}
  {owner : ParticipantId} {side : Side} {qty : Quantity}

/-- The leftover of a market order never comes to `insert`. -/
theorem insertPoint_market : b.insertPoint (.addMarket id owner side qty) = none := by
  unfold insertPoint attemptOf attempt
  simp only
  split
  · rfl
  · simp [Attempt.insertPoint]

/-- A market order on a dead id, in the priority book. -/
theorem perform_market (policy : SelfTradePolicy) (hdead : a.live id = false) (hzero : qty ≠ 0) :
    a.perform policy (.addMarket id owner side qty)
      = (.report { (a.walk ⟨policy, id, owner, side, none⟩ qty).2.rep with
            remaining := (a.walk ⟨policy, id, owner, side, none⟩ qty).2.left },
          (a.walk ⟨policy, id, owner, side, none⟩ qty).2.acts,
          a.afterWalk ⟨policy, id, owner, side, none⟩ qty) := by
  have hgo : ¬ (decide (qty = 0) || a.live id) = true := by simp [hzero, hdead]
  unfold PriorityBook.perform PriorityBook.submit PriorityBook.execute
  simp only [if_neg hgo, Bool.false_and, if_neg Bool.false_ne_true]

/-- What `addMarket` on a dead id does: it cannot throw, and nothing rests. -/
structure Marketed (a : PriorityBook) (k : Taker) (qty : Quantity) (rep : ExecReport)
    (events : List Event) (b' : OrderBook) : Prop where
  follows : ∃ Q' free', b'.Follows (a.afterWalk k qty) Q' free'
  report : rep = { (a.walk k qty).2.rep with remaining := (a.walk k qty).2.left }
  acts : events.map Event.act = (a.walk k qty).2.acts
  policy : b'.policy = k.policy

theorem Follows.market (h : b.Follows a Q free) (owner : ParticipantId) (side : Side)
    (hdead : a.live id = false) (hqty : 0 < qty) (mem : Memory) :
    ∃ rep events b', b.perform mem (.addMarket id owner side qty) = .ok (.report rep, events) b'
      ∧ Marketed a ⟨b.policy, id, owner, side, none⟩ qty rep events b' := by
  have hzero : qty ≠ 0 := by
    rintro rfl
    simp at hqty
  have hperform := @perform_market a id owner side qty b.policy hdead hzero
  have hperf := h.perform mem (.addMarket id owner side qty)
  generalize b.perform mem (.addMarket id owner side qty) = r at hperf ⊢
  cases hperf with
  | ok r events b' Q' free' hf hreply hacts hpolicy hopens hring =>
    rw [hperform] at hf hreply hacts
    exact ⟨_, events, b', by rw [hreply (by simp)], ⟨Q', free', hf⟩, rfl, hacts, hpolicy⟩
  | throws e b' pre order y Q' free' hy hpoint hpre hthrow =>
    rw [insertPoint_market] at hpoint
    simp at hpoint

theorem Marketed.drained {k : Taker} {rep : ExecReport} {events : List Event} {b' : OrderBook}
    (h : Marketed a k qty rep events b') (hsound : a.Sound) :
    Drained k (a.queue k.side.opposite) qty.toNat (a.walk k qty).1
      { (a.walk k qty).2 with rep := rep, acts := events.map Event.act } := by
  have hwalk := sweep_drained k qty a.nextSeq (hsound.positive k.side.opposite)
  refine ⟨hwalk.queue, ?_, ?_, ?_, ?_, ?_⟩
  · rw [h.acts]
    exact hwalk.removed
  · rw [h.acts]
    exact hwalk.made
  · rw [h.report]
    exact hwalk.filled
  · rw [h.report]
    exact hwalk.stpCancelled
  · rw [h.report]
    exact hwalk.unfilled

end Market

section Run

variable {b₀ b : OrderBook} {past : List Record} {scrub : RestingOrder → RestingOrder} {cfg : Config}
  {id id₁ id₂ : OrderId} {q q' : Quantity}

/-- **Splitting a market order does not change its effect**, in any book reached by calls that did not
throw: one order for `q + q'`, and one for `q` followed by one for `q'`, leave the same resting orders,
take as much from every maker, and agree on what was filled, cancelled and left unfilled. -/
theorem market_split (hnew : OrderBook.new scrub cfg = some b₀) (hrun : Run b₀ past b) (side : Side)
    (owner : ParticipantId) (hq : 0 < q) (hq' : 0 < q') (hsum : q.toNat + q'.toNat < 2 ^ 32)
    (hid : b.find id = some none) (hid₁ : b.find id₁ = some none) (hid₂ : b.find id₂ = some none)
    (mem mem₁ mem₂ : Memory) :
    ∃ rep events b' rep₁ events₁ b₁ rep₂ events₂ b₂ resting,
      b.perform mem (.addMarket id owner side (q + q')) = .ok (.report rep, events) b'
      ∧ b.perform mem₁ (.addMarket id₁ owner side q) = .ok (.report rep₁, events₁) b₁
      ∧ b₁.perform mem₂ (.addMarket id₂ owner side q') = .ok (.report rep₂, events₂) b₂
      ∧ b'.forEachResting = some resting ∧ b₂.forEachResting = some resting
      ∧ (∀ maker, taken maker events₁ + taken maker events₂ = taken maker events)
      ∧ rep₁.filled.toNat + rep₂.filled.toNat = rep.filled.toNat
      ∧ rep₁.stpCancelled.toNat + rep₂.stpCancelled.toNat = rep.stpCancelled.toNat
      ∧ (q.toNat - rep₁.filled.toNat) + (q'.toNat - rep₂.filled.toNat)
        = (q + q').toNat - rep.filled.toNat := by
  have h₀ := (new_follows hnew).1
  obtain ⟨⟨Q, free, hf⟩, -⟩ := hrun.follows h₀
  have hsound := (hrun.inOrder h₀).2
  generalize replayOf b₀ past = a at hf hsound
  have hdead : ∀ {i}, b.find i = some none → a.live i = false := by
    intro i hi
    rw [hf.find, Option.some_inj] at hi
    exact PriorityBook.find_eq_none.mp hi
  have hadd : (q + q').toNat = q.toNat + q'.toNat := by
    rw [UInt32.toNat_add, Nat.mod_eq_of_lt hsum]
  have hboth : 0 < q + q' := by
    rw [UInt32.lt_iff_toNat_lt] at hq ⊢
    omega
  -- the whole order, and the first part of it
  obtain ⟨rep, events, b', hcall, hwhole⟩ := hf.market owner side (hdead hid) hboth mem
  obtain ⟨rep₁, events₁, b₁, hcall₁, hfirst⟩ :=
    hf.market owner side (hdead hid₁) hq mem₁
  obtain ⟨Q₁, free₁, hf₁⟩ := hfirst.follows
  -- the second part finds the book the first one left
  let x : PriorityBook.Submission := ⟨a, ⟨b.policy, id₁, owner, side, none⟩, q, false⟩
  have hsound₁ : (a.afterWalk x.taker q).Sound := PriorityBook.Sound.after (x := x) hsound
  have hdead₁ : (a.afterWalk x.taker q).live id₂ = false := by
    rw [PriorityBook.not_live_iff]
    intro s o ho
    obtain ⟨o', ho', htag⟩ := PriorityBook.Submission.mem_after (x := x) ho
    rw [← (Prod.mk.inj htag).1]
    exact PriorityBook.not_live_iff.mp (hdead hid₂) s o' ho'
  obtain ⟨rep₂, events₂, b₂, hcall₂, hsecond⟩ :=
    hf₁.market owner side hdead₁ hq' mem₂
  obtain ⟨Q', free', hf'⟩ := hwhole.follows
  obtain ⟨Q₂, free₂, hf₂⟩ := hsecond.follows
  -- the three walks, as drains by one taker
  have hd := hwhole.drained hsound
  have hd₁ := (hfirst.drained hsound).id id
  have hd₂ := (hsecond.drained hsound₁).id id
  rw [hadd] at hd
  have hpolicy : b₁.policy = b.policy := hfirst.policy
  rw [hpolicy] at hd₂ hf₂
  have hfar : (a.afterWalk x.taker q).queue side.opposite = (a.walk x.taker q).1 := x.after_queue_far
  have hunfilled := hd.unfilled
  have hunfilled₁ := hd₁.unfilled
  have hunfilled₂ := hd₂.unfilled
  obtain ⟨hqueue, hmade, hfilled, hstp⟩ := hd₁.split (hfar ▸ hd₂) hd (hf.volume_lt _)
  have hsnapshot : ((a.afterWalk x.taker q).afterWalk ⟨b.policy, id₂, owner, side, none⟩ q').snapshot
      = (a.afterWalk ⟨b.policy, id, owner, side, none⟩ (q + q')).snapshot := by
    refine congrArg (fun queue => PriorityBook.snapshot ⟨queue, 0⟩) ?_
    show Function.update (Function.update a.queue side.opposite _) side.opposite _ = _
    rw [Function.update_idem]
    exact congrArg (Function.update a.queue side.opposite) hqueue
  refine ⟨rep, events, b', rep₁, events₁, b₁, rep₂, events₂, b₂, _, hcall, hcall₁, hcall₂,
    hf'.forEachResting, hsnapshot ▸ hf₂.forEachResting, hmade, hfilled, hstp, ?_⟩
  have hwanted : rep₁.filled.toNat ≤ q.toNat ∧ rep₂.filled.toNat ≤ q'.toNat :=
    ⟨Nat.le.intro ((Nat.add_comm _ _).trans hunfilled₁),
      Nat.le.intro ((Nat.add_comm _ _).trans hunfilled₂)⟩
  have hsame : rep₁.filled.toNat + rep₂.filled.toNat = rep.filled.toNat := hfilled
  rw [hadd]
  omega

end Run

/-- The first part runs dry inside a bid; behind that bid the second part meets one of its owner. -/
theorem market_split_before_own_bid : ∃ b₀ past b rep₁ events₁ b₁ rep₂ events₂ b₂ resting,
    OrderBook.new id {} = some b₀ ∧ Run b₀ past b
    ∧ past.map Record.call = [.addLimit 3 8 .buy 99 5, .addLimit 2 9 .buy 100 5,
      .addLimit 1 7 .buy 100 3]
    ∧ b.perform {} (.addMarket 11 9 .sell 2) = .ok (.report rep₁, events₁) b₁
    ∧ b₁.perform {} (.addMarket 12 9 .sell 4) = .ok (.report rep₂, events₂) b₂
    ∧ b₂.forEachResting = some resting := by
  obtain ⟨b₀, past, b, x, hnew, hrun, hcalls, hfind⟩ := exists_run id {} {}
    [.addLimit 3 8 .buy 99 5, .addLimit 2 9 .buy 100 5, .addLimit 1 7 .buy 100 3]
    (fun _ b => if b.find 10 = some none ∧ b.find 11 = some none ∧ b.find 12 = some none then some ()
      else none) (by decide +kernel)
  have hdead : b.find 10 = some none ∧ b.find 11 = some none ∧ b.find 12 = some none := by
    by_contra hno
    rw [if_neg hno] at hfind
    simp at hfind
  obtain ⟨rep, events, b', rep₁, events₁, b₁, rep₂, events₂, b₂, resting, -, hcall₁, hcall₂, -, hrest, -⟩ :=
    market_split hnew hrun .sell 9 (by decide : (0 : Quantity) < 2) (by decide : (0 : Quantity) < 4)
      (by decide) hdead.1 hdead.2.1 hdead.2.2 {} {} {}
  exact ⟨b₀, past, b, rep₁, events₁, b₁, rep₂, events₂, b₂, resting, hnew, hrun, hcalls, hcall₁, hcall₂,
    hrest⟩

end OrderBook

end Lob
