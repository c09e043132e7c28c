/-
# Lob.ReferenceRefine — the naive reference book follows the priority book.

A flat vector mirrors a priority book when it holds the same orders, in any order, each with the
arrival number its id is stamped with, and each side of the priority book is served in the order of
those stamps.  The reference's scan for the next maker then finds the head of the far side, one pass of
its loop is one turn of the taker's walk, and every call keeps the mirror with the same reply and the
same trades, as long as the arrival counter has not wrapped.
-/
import Lob.PrioritySound
import Lob.QueryRefine
import Lob.ReferenceBook
import Lob.TradeStream

namespace Lob

open Lib.Scan PriorityBook

namespace ReferenceBook

/-- The record of an order resting on a side, when ids are stamped with arrival numbers. -/
def recordOf (stamp : OrderId → Nat) (s : Side) (o : RestingOrder) : Resting :=
  ⟨o.id, o.owner, o.price, o.qty, s, UInt64.ofNat (stamp o.id)⟩

/-- The records of a side. -/
def recordsOf (stamp : OrderId → Nat) (a : PriorityBook) (s : Side) : List Resting :=
  (a.queue s).map (recordOf stamp s)

/-! ## Records and their order -/

section Records

variable {stamp stamp' : OrderId → Nat} {s : Side} {x y o : RestingOrder} {a : PriorityBook}
  {os : List RestingOrder} {r : Resting}

theorem ids_recordOf (stamp : OrderId → Nat) (s : Side) (os : List RestingOrder) :
    (os.map (recordOf stamp s)).map Resting.id = os.map RestingOrder.id := by
  rw [List.map_map]
  rfl

theorem toOrder_recordOf (stamp : OrderId → Nat) (s : Side) (os : List RestingOrder) :
    (os.map (recordOf stamp s)).map Resting.toOrder = os.map (RestingOrder.toOrder s) := by
  rw [List.map_map]
  rfl

theorem recordOf_congr (h : ∀ o ∈ os, stamp' o.id = stamp o.id) :
    os.map (recordOf stamp' s) = os.map (recordOf stamp s) := by
  refine List.map_congr_left fun o ho => ?_
  rw [recordOf, recordOf, h o ho]

theorem ofNat_lt {m n : Nat} (hm : m < 2 ^ 64) (hn : n < 2 ^ 64) :
    UInt64.ofNat m < UInt64.ofNat n ↔ m < n := by
  rw [UInt64.lt_iff_toNat_lt, UInt64.toNat_ofNat', UInt64.toNat_ofNat', Nat.mod_eq_of_lt hm,
    Nat.mod_eq_of_lt hn]

/-- **The reference's priority is the priority of the queues**, while the stamps fit. -/
theorem precedes_recordOf (hx : stamp x.id < 2 ^ 64) (hy : stamp y.id < 2 ^ 64) :
    (recordOf stamp s x).precedes s (recordOf stamp s y) = true ↔ Before stamp s.isBid x y := by
  rw [Before, ← ofNat_lt hx hy]
  unfold Resting.precedes recordOf
  cases s <;> simp [better, Side.isBid]

/-- The comparator of the snapshot, within one side. -/
theorem less_recordOf (hx : stamp x.id < 2 ^ 64) (hy : stamp y.id < 2 ^ 64) :
    (recordOf stamp s x).less (recordOf stamp s y) = true ↔ Before stamp s.isBid x y := by
  rw [Before, ← ofNat_lt hx hy]
  unfold Resting.less recordOf
  by_cases hp : x.price = y.price
  · cases s <;> simp [better, Side.isBid, hp]
  · cases s <;> simp [better, Side.isBid, hp]

end Records

/-! ## The mirror -/

/-- The reference book `b` holds the orders of `a`, each stamped with its arrival number, after
`arrivals` orders came to rest. -/
structure Mirrors (b : ReferenceBook) (a : PriorityBook) (stamp : OrderId → Nat) (arrivals : Nat) :
    Prop where
  resting : b.resting.Perm (recordsOf stamp a .buy ++ recordsOf stamp a .sell)
  inOrder : a.InOrder stamp
  arrived : ∀ s, ∀ o ∈ a.queue s, stamp o.id ≤ arrivals
  room : arrivals < 2 ^ 64
  nextArrival : b.nextArrival = UInt64.ofNat (arrivals + 1)
  nextSeq : b.nextSeq = a.nextSeq

section Mirrors

variable {b : ReferenceBook} {a : PriorityBook} {stamp : OrderId → Nat} {n : Nat} {s : Side}
  {o : RestingOrder} {id : OrderId} {r : Resting}

theorem Mirrors.perm (h : Mirrors b a stamp n) (s : Side) :
    b.resting.Perm (recordsOf stamp a s ++ recordsOf stamp a s.opposite) := by
  cases s with
  | buy => exact h.resting
  | sell => exact h.resting.trans List.perm_append_comm

theorem Mirrors.ids (h : Mirrors b a stamp n) :
    (b.resting.map Resting.id).Perm (a.orders.map RestingOrder.id) := by
  refine (h.resting.map Resting.id).trans ?_
  rw [List.map_append, recordsOf, recordsOf, ids_recordOf, ids_recordOf, orders, List.map_append]

theorem Mirrors.nodup (h : Mirrors b a stamp n) (hsound : a.Sound) :
    (b.resting.map Resting.id).Nodup := h.ids.nodup_iff.mpr hsound.nodup

theorem Mirrors.mem_iff (h : Mirrors b a stamp n) :
    r ∈ b.resting ↔ ∃ s, ∃ o ∈ a.queue s, recordOf stamp s o = r := by
  rw [h.resting.mem_iff, List.mem_append]
  constructor
  · rintro (hr | hr)
    · exact ⟨_, List.mem_map.mp hr⟩
    · exact ⟨_, List.mem_map.mp hr⟩
  · rintro ⟨s, hr⟩
    cases s with
    | buy => exact Or.inl (List.mem_map.mpr hr)
    | sell => exact Or.inr (List.mem_map.mpr hr)

/-- **A lookup by id.** -/
theorem Mirrors.find (h : Mirrors b a stamp n) (hsound : a.Sound) (id : OrderId) :
    (b.find id).map Resting.toOrder = a.find id := by
  cases hlive : a.live id with
  | false =>
    have hnone : b.find id = none := by
      rw [ReferenceBook.find, List.find?_eq_none]
      intro r hr heq
      obtain ⟨s, o, ho, rfl⟩ := h.mem_iff.mp hr
      have hid : (recordOf stamp s o).id = id := by simpa using heq
      exact not_live_iff.mp hlive s o ho hid
    rw [hnone, find_eq_none.mpr hlive]
    rfl
  | true =>
    obtain ⟨s, o, ho, rfl⟩ := live_iff.mp hlive
    have hfind : b.find (recordOf stamp s o).id = some (recordOf stamp s o) :=
      find?_of_mem (h.nodup hsound) (h.mem_iff.mpr ⟨s, o, ho, rfl⟩)
    rw [find_of_mem hsound.nodup ho, show b.find o.id = _ from hfind]
    rfl

theorem Mirrors.find_isSome (h : Mirrors b a stamp n) (hsound : a.Sound) (id : OrderId) :
    (b.find id).isSome = a.live id := by
  have hfind := h.find hsound id
  cases hlive : a.live id with
  | false =>
    rw [find_eq_none.mpr hlive, Option.map_eq_none_iff] at hfind
    rw [hfind]
    rfl
  | true =>
    cases hb : b.find id with
    | some r => rfl
    | none =>
      rw [hb, Option.map_none] at hfind
      rw [find_eq_none.mp hfind.symm] at hlive
      simp at hlive

end Mirrors

/-! ## The next maker -/

/-- What a taker of the other side sees: the records of the far side `s`, in priority order, among the
rest of the vector. -/
structure Facing (resting : List Resting) (stamp : OrderId → Nat) (s : Side) (near : List Resting)
    (far : List RestingOrder) : Prop where
  perm : resting.Perm (near ++ far.map (recordOf stamp s))
  apart : ∀ r ∈ near, r.side ≠ s
  served : Served stamp s.isBid far
  nodup : (resting.map Resting.id).Nodup
  bound : ∀ o ∈ far, stamp o.id < 2 ^ 64

section Facing

variable {b : ReferenceBook} {resting near : List Resting} {stamp : OrderId → Nat} {s : Side}
  {far : List RestingOrder} {o : RestingOrder} {i : Nat}

/-- A record of side `s` belongs to the far side. -/
theorem Facing.far_of_side (h : Facing resting stamp s near far) {r : Resting} (hr : r ∈ resting)
    (hside : r.side = s) : ∃ x ∈ far, recordOf stamp s x = r := by
  rcases List.mem_append.mp (h.perm.mem_iff.mp hr) with hr | hr
  · exact absurd hside (h.apart r hr)
  · exact List.mem_map.mp hr

theorem nextMaker_of_nil (h : Facing b.resting stamp s.opposite near []) : b.nextMaker s = none := by
  rw [nextMaker, scan_eq_none, Option.map_none]
  rw [List.filterMap_eq_nil_iff]
  rintro ⟨r, j⟩ hr
  have hmem : r ∈ b.resting := List.mem_of_getElem? (List.mem_zipIdx_iff_getElem?.mp hr)
  refine if_neg fun hside => ?_
  obtain ⟨x, hx, -⟩ := h.far_of_side hmem hside
  simp at hx

/-- **The scan finds the head of the far side.** -/
theorem nextMaker_of_cons (h : Facing b.resting stamp s.opposite near (o :: far)) :
    ∃ i, b.nextMaker s = some i ∧ b.resting[i]? = some (recordOf stamp s.opposite o) := by
  have hmem : recordOf stamp s.opposite o ∈ b.resting := h.perm.mem_iff.mpr (by simp)
  obtain ⟨i, hi⟩ := List.mem_iff_getElem?.mp hmem
  -- what the scan runs over: the records of the far side, with their positions
  have hvalues : ∀ p ∈ b.resting.zipIdx.filterMap
      (fun p : Resting × Nat => if p.1.side = s.opposite then some p else none),
      p = (recordOf stamp s.opposite o, i)
        ∨ ∃ x ∈ far, p.1 = recordOf stamp s.opposite x := by
    intro p hp
    obtain ⟨⟨r, j⟩, hq, heq⟩ := List.mem_filterMap.mp hp
    obtain ⟨hside, hpair⟩ := Option.ite_none_right_eq_some.mp heq
    obtain rfl := Option.some.inj hpair
    have hj := List.mem_zipIdx_iff_getElem?.mp hq
    obtain ⟨x, hx, rfl⟩ := h.far_of_side (List.mem_of_getElem? hj) hside
    rcases List.mem_cons.mp hx with rfl | hx
    · exact Or.inl (by rw [position_unique h.nodup hi hj])
    · exact Or.inr ⟨x, hx, rfl⟩
  have hbefore : ∀ x ∈ far, Before stamp s.opposite.isBid o x := h.served.head
  have hbound : ∀ x ∈ o :: far, stamp x.id < 2 ^ 64 := h.bound
  refine ⟨i, ?_, hi⟩
  rw [nextMaker, scan_eq_some (m := (recordOf stamp s.opposite o, i)) ?_ ?_ ?_, Option.map_some]
  · exact List.mem_filterMap.mpr
      ⟨(recordOf stamp s.opposite o, i), List.mem_zipIdx_iff_getElem?.mpr hi, if_pos rfl⟩
  · intro p hp
    rw [Bool.eq_false_iff, Ne]
    intro hless
    rcases hvalues p hp with rfl | ⟨x, hx, heq⟩
    · exact before_irrefl o ((precedes_recordOf (hbound o (by simp)) (hbound o (by simp))).mp hless)
    · rw [heq, precedes_recordOf (hbound x (by simp [hx])) (hbound o (by simp))] at hless
      exact Before.asymm (hbefore x hx) hless
  · intro p hp
    rcases hvalues p hp with rfl | ⟨x, hx, heq⟩
    · exact Or.inl rfl
    · refine Or.inr ?_
      rw [heq, precedes_recordOf (hbound o (by simp)) (hbound x (by simp [hx]))]
      exact hbefore x hx

/-- Taking the head off the far side. -/
theorem Facing.erase (h : Facing resting stamp s near (o :: far))
    (hi : resting[i]? = some (recordOf stamp s o)) :
    Facing (resting.eraseIdx i) stamp s near far where
  perm := eraseIdx_perm hi (h.perm.trans List.perm_middle)
  apart := h.apart
  served := (List.pairwise_cons.mp h.served).2
  nodup := h.nodup.sublist ((List.eraseIdx_sublist ..).map _)
  bound x hx := h.bound x (List.mem_cons_of_mem _ hx)

/-- Shrinking the head of the far side. -/
theorem Facing.shrink (h : Facing resting stamp s near (o :: far))
    (hi : resting[i]? = some (recordOf stamp s o)) (q : Quantity) :
    Facing (resting.set i { recordOf stamp s o with qty := q }) stamp s near
      ({ o with qty := q } :: far) where
  perm := (set_perm hi (h.perm.trans List.perm_middle) _).trans List.perm_middle.symm
  apart := h.apart
  served := h.served.of_suffix (List.suffix_refl _)
  nodup := by
    have hids := (set_perm hi (h.perm.trans List.perm_middle)
      { recordOf stamp s o with qty := q }).map Resting.id
    refine hids.nodup_iff.mpr ?_
    exact ((h.perm.trans List.perm_middle).map Resting.id).nodup_iff.mp h.nodup
  bound x hx := by
    rcases List.mem_cons.mp hx with rfl | hx
    · exact h.bound o (by simp)
    · exact h.bound x (by simp [hx])

end Facing

/-! ## The matching loop -/

/-- The taker an incoming order is. -/
def Incoming.taker (policy : SelfTradePolicy) (o : Incoming) : Taker :=
  ⟨policy, o.id, o.owner, o.side, if o.isMarket then none else some o.price⟩

/-- The loop stands where the walk of `k` does: the same far side, the same progress, and the log of
the trades so far. -/
structure InStep (k : Taker) (stamp : OrderId → Nat) (near : List Resting) (log : List Trade)
    (nextArrival : UInt64) (f : Filling) (far : List RestingOrder) (p : Progress) : Prop where
  facing : Facing f.book.resting stamp k.side.opposite near far
  left : f.left = p.left
  rep : f.rep = p.rep
  nextSeq : f.book.nextSeq = p.nextSeq
  log : f.book.tradeLog = log ++ fillsOf p.acts
  policy : f.book.policy = k.policy
  nextArrival : f.book.nextArrival = nextArrival

section Loop

variable {policy : SelfTradePolicy} {o : Incoming} {stamp : OrderId → Nat} {near : List Resting}
  {log : List Trade} {nextArrival : UInt64} {f : Filling} {m : RestingOrder}
  {far : List RestingOrder} {p : Progress} {i fuel : Nat}

/-- **One pass of the loop**, at the maker it found. -/
theorem loop_of_maker (hleft : f.left ≠ 0) (hpolicy : f.book.policy = policy)
    (hnext : f.book.nextMaker o.side = some i)
    (hi : f.book.resting[i]? = some (recordOf stamp o.side.opposite m)) :
    Filling.loop o (fuel + 1) f =
      if !(o.taker policy).crosses m then some f
      else if (o.taker policy).selfTrade m then
        if policy = .cancelIncoming then some { f with rep := { f.rep with stpHalted := true } }
        else Filling.loop o fuel (f.cancelResting i (recordOf stamp o.side.opposite m))
      else Filling.loop o fuel (f.trade o i (recordOf stamp o.side.opposite m)) := by
  have hgate : (!o.isMarket && !(if o.side = .buy then decide (m.price ≤ o.price)
      else decide (m.price ≥ o.price))) = !(o.taker policy).crosses m := by
    unfold Taker.crosses crosses Incoming.taker
    cases o.isMarket <;> rfl
  rw [Filling.loop, if_neg hleft, hnext]
  simp only [hi, hpolicy]
  rw [show (recordOf stamp o.side.opposite m).price = m.price from rfl, hgate]
  rfl

theorem InStep.halt (h : InStep (o.taker policy) stamp near log nextArrival f far p) :
    InStep (o.taker policy) stamp near log nextArrival
      { f with rep := { f.rep with stpHalted := true } } far (Taker.halted p) :=
  ⟨h.facing, h.left, by rw [h.rep]; rfl, h.nextSeq, h.log, h.policy, h.nextArrival⟩

theorem InStep.cancelResting (h : InStep (o.taker policy) stamp near log nextArrival f (m :: far) p)
    (hi : f.book.resting[i]? = some (recordOf stamp o.side.opposite m)) :
    InStep (o.taker policy) stamp near log nextArrival
      (f.cancelResting i (recordOf stamp o.side.opposite m)) far (Taker.cancelled m p) where
  facing := h.facing.erase hi
  left := h.left
  rep := by
    rw [Filling.cancelResting, h.rep]
    rfl
  nextSeq := h.nextSeq
  log := by
    show f.book.tradeLog = log ++ fillsOf (p.acts ++ [.stpCancel m])
    rw [h.log, fillsOf_append, fillsOf_stpCancel, List.append_nil]
  policy := h.policy
  nextArrival := h.nextArrival

theorem InStep.trade (h : InStep (o.taker policy) stamp near log nextArrival f (m :: far) p)
    (hi : f.book.resting[i]? = some (recordOf stamp o.side.opposite m)) :
    InStep (o.taker policy) stamp near log nextArrival
      (f.trade o i (recordOf stamp o.side.opposite m))
      (if (Taker.rest m p).qty = 0 then far else Taker.rest m p :: far)
      ((o.taker policy).filled m p) where
  facing := by
    show Facing (if m.qty - min f.left m.qty = 0 then _ else _) _ _ _ _
    rw [h.left]
    show Facing (if (Taker.rest m p).qty = 0 then _ else _) _ _ _ _
    split
    · rw [List.eraseIdx_set_eq]
      exact h.facing.erase hi
    · exact h.facing.shrink hi _
  left := by
    show f.left - min f.left m.qty = _
    rw [h.left]
    rfl
  rep := by
    rw [Filling.trade, h.rep, h.left, h.nextSeq]
    rfl
  nextSeq := by
    show f.book.nextSeq + 1 = _
    rw [h.nextSeq]
    rfl
  log := by
    have htrade : (⟨f.book.nextSeq, m.id, o.id, m.price, min f.left m.qty, o.side⟩ : Trade)
        = (o.taker policy).trade m p := by rw [h.nextSeq, h.left]; rfl
    show f.book.tradeLog ++ [(⟨f.book.nextSeq, m.id, o.id, m.price, min f.left m.qty, o.side⟩ : Trade)]
      = log ++ fillsOf (p.acts ++ [.fill ((o.taker policy).trade m p)])
    rw [htrade, h.log, fillsOf_append, fillsOf_fill, List.append_assoc]
  policy := h.policy
  nextArrival := h.nextArrival

/-- **A pass of the loop is a turn of the walk**; the pass that finds no turn, or that halts the taker,
is the last one. -/
theorem loop_turn (h : InStep (o.taker policy) stamp near log nextArrival f far p)
    (hgoes : p.rep.stpHalted = false) (fuel : Nat) :
    ((o.taker policy).turn far p = none ∧ Filling.loop o (fuel + 1) f = some f) ∨
    ∃ far' p' f', (o.taker policy).turn far p = some (far', p')
      ∧ InStep (o.taker policy) stamp near log nextArrival f' far' p'
      ∧ Filling.loop o (fuel + 1) f
        = if p'.rep.stpHalted then some f' else Filling.loop o fuel f' := by
  by_cases hleft : p.left = 0
  · exact Or.inl ⟨turn_eq_none.mpr (Or.inl hleft),
      by rw [Filling.loop, if_pos (h.left.trans hleft)]⟩
  have hleft' : f.left ≠ 0 := fun h0 => hleft (h.left.symm.trans h0)
  cases far with
  | nil =>
    have hnext : f.book.nextMaker o.side = none := nextMaker_of_nil h.facing
    exact Or.inl ⟨rfl, by rw [Filling.loop, if_neg hleft', hnext]⟩
  | cons m far =>
    obtain ⟨i, hnext, hi⟩ := nextMaker_of_cons h.facing
    have hpass := @loop_of_maker policy o stamp f m i fuel hleft' h.policy hnext hi
    by_cases hcross : (o.taker policy).crosses m = true
    · have hstop : ¬ (o.taker policy).stops m p = true := by
        simp [Taker.stops, hleft, hgoes, hcross]
      rw [hcross, if_neg (by simp)] at hpass
      refine Or.inr ?_
      rw [Taker.turn, if_neg hstop, hpass]
      by_cases hself : (o.taker policy).selfTrade m = true
      · rw [if_pos hself, if_pos hself]
        by_cases hpolicy : policy = .cancelIncoming
        · rw [if_pos hpolicy, if_pos (show (o.taker policy).policy = _ from hpolicy)]
          exact ⟨_, _, _, rfl, h.halt, (if_pos rfl).symm⟩
        · rw [if_neg hpolicy, if_neg (show (o.taker policy).policy ≠ _ from hpolicy)]
          exact ⟨_, _, _, rfl, h.cancelResting hi, (if_neg (by simp [Taker.cancelled, hgoes])).symm⟩
      · have hgoes' : ¬ ((o.taker policy).filled m p).rep.stpHalted = true := by
          simp [Taker.filled, hgoes]
        rw [if_neg hself, if_neg hself]
        refine ⟨_, _, _, ?_, h.trade hi, (if_neg hgoes').symm⟩
        split <;> rfl
    · have hcross' : (o.taker policy).crosses m = false := by simpa using hcross
      rw [hcross', if_pos (by simp)] at hpass
      exact Or.inl ⟨turn_eq_none.mpr (Or.inr (Or.inr (by simpa using hcross'))), hpass⟩

/-- **The loop is the walk**, and ends. -/
theorem loop_sweep (h : InStep (o.taker policy) stamp near log nextArrival f far p)
    (hgoes : p.rep.stpHalted = false) (hfuel : (if p.left = 0 then 0 else far.length) < fuel) :
    ∃ f', Filling.loop o fuel f = some f' ∧ InStep (o.taker policy) stamp near log nextArrival f'
      ((o.taker policy).sweep far p).1 ((o.taker policy).sweep far p).2 := by
  induction fuel generalizing f far p with
  | zero => omega
  | succ fuel ih =>
    rcases loop_turn h hgoes fuel with ⟨hnone, hloop⟩ | ⟨far', p', f', hturn, h', hloop⟩
    · exact ⟨f, hloop, by rw [sweep_of_none hnone]; exact h⟩
    · rw [sweep_turn hturn, hloop]
      by_cases hhalt : p'.rep.stpHalted = true
      · rw [if_pos hhalt, sweep_of_halted hhalt]
        exact ⟨f', rfl, h'⟩
      · rw [if_neg hhalt]
        refine ih h' (by simpa using hhalt) ?_
        -- a turn takes an order off the far side, or ends the taker
        obtain ⟨m, rest, rfl, hleft, -, -, ht⟩ := turn_cases hturn
        rw [if_neg hleft, List.length_cons] at hfuel
        cases ht with
        | halt _ _ => simp [Taker.halted] at hhalt
        | cancel _ _ =>
          split
          · omega
          · omega
        | fill _ _ =>
          split
          · omega
          · omega
        | partFill _ hlt =>
          have hdone : ((o.taker policy).filled m p).left = 0 := by
            rw [← UInt32.toNat_inj, Taker.filled_left, UInt32.toNat_zero]
            rw [UInt32.lt_iff_toNat_lt] at hlt
            omega
          rw [if_pos hdone]
          omega

end Loop

/-! ## Submissions -/

section Submissions

variable {b : ReferenceBook} {a : PriorityBook} {stamp : OrderId → Nat} {n : Nat} {s : Side}
  {o : RestingOrder} {x : Submission} {inc : Incoming} {policy : SelfTradePolicy}

/-- Either side may come first. -/
theorem recordsOf_perm (stamp : OrderId → Nat) (a : PriorityBook) (s : Side) :
    (recordsOf stamp a s ++ recordsOf stamp a s.opposite).Perm
      (recordsOf stamp a .buy ++ recordsOf stamp a .sell) := by
  cases s with
  | buy => exact List.Perm.refl _
  | sell => exact List.perm_append_comm

theorem Mirrors.stamp_lt (h : Mirrors b a stamp n) (ho : o ∈ a.queue s) : stamp o.id < 2 ^ 64 :=
  Nat.lt_of_le_of_lt (h.arrived s o ho) h.room

theorem Mirrors.facing (h : Mirrors b a stamp n) (hsound : a.Sound) (s : Side) :
    Facing b.resting stamp s.opposite (recordsOf stamp a s) (a.queue s.opposite) where
  perm := h.perm s
  apart r hr := by
    obtain ⟨x, -, rfl⟩ := List.mem_map.mp hr
    exact s.opposite_ne.symm
  served := h.inOrder s.opposite
  nodup := h.nodup hsound
  bound _ ho := h.stamp_lt ho

/-- **The end of matching** mirrors the end of the walk. -/
theorem Mirrors.matched (h : Mirrors b x.book stamp n) (hsound : x.book.Sound)
    (htaker : x.taker = inc.taker b.policy) :
    ∃ f, Filling.loop inc (b.resting.length + 1) { book := b, left := x.qty } = some f
      ∧ Mirrors f.book x.after stamp n ∧ f.left = x.walk.2.left ∧ f.rep = x.walk.2.rep
      ∧ f.book.tradeLog = b.tradeLog ++ fillsOf x.walk.2.acts ∧ f.book.policy = b.policy := by
  have hside : x.taker.side = inc.side := by rw [htaker]; rfl
  have hstart : InStep (inc.taker b.policy) stamp (recordsOf stamp x.book inc.side) b.tradeLog
      b.nextArrival { book := b, left := x.qty } (x.book.queue inc.side.opposite)
      { left := x.qty, nextSeq := x.book.nextSeq } :=
    ⟨h.facing hsound inc.side, rfl, rfl, h.nextSeq, (List.append_nil _).symm, rfl, rfl⟩
  have hfuel : (if x.qty = 0 then 0 else (x.book.queue inc.side.opposite).length)
      < b.resting.length + 1 := by
    have hlen := (h.perm inc.side).length_eq
    rw [List.length_append, recordsOf, recordsOf, List.length_map, List.length_map] at hlen
    split
    · omega
    · omega
  obtain ⟨f, hloop, hf⟩ := loop_sweep hstart rfl hfuel
  have hwalk : (inc.taker b.policy).sweep (x.book.queue inc.side.opposite)
      { left := x.qty, nextSeq := x.book.nextSeq } = x.walk := by
    rw [Submission.walk, PriorityBook.walk, htaker]
    rfl
  rw [hwalk] at hf
  refine ⟨f, hloop, ?_, hf.left, hf.rep, hf.log, hf.policy⟩
  refine ⟨?_, h.inOrder.after, fun s o ho => ?_, h.room, hf.nextArrival.trans h.nextArrival,
    hf.nextSeq⟩
  · have hnear : recordsOf stamp x.after inc.side = recordsOf stamp x.book inc.side := by
      rw [recordsOf, ← hside, x.after_queue_near]
      rfl
    have hfar : recordsOf stamp x.after inc.side.opposite
        = x.walk.1.map (recordOf stamp inc.side.opposite) := by
      rw [recordsOf, ← hside, x.after_queue_far]
    refine List.Perm.trans ?_ (recordsOf_perm stamp x.after inc.side)
    rw [hnear, hfar]
    exact hf.facing.perm
  · obtain ⟨o', ho', htag⟩ := Submission.mem_after ho
    rw [← (Prod.mk.inj htag).1]
    exact h.arrived s o' ho'

/-- **An order pushed on the vector rests on the book**, under the next arrival number. -/
theorem Mirrors.push (h : Mirrors b a stamp n) (hdead : a.live o.id = false)
    (hroom : n + 1 < 2 ^ 64) :
    Mirrors { b with
        resting := b.resting ++ [⟨o.id, o.owner, o.price, o.qty, s, b.nextArrival⟩]
        nextArrival := b.nextArrival + 1 }
      (a.rest s o) (Function.update stamp o.id (n + 1)) (n + 1) := by
  have hkept : ∀ t, ∀ u ∈ a.queue t, Function.update stamp o.id (n + 1) u.id = stamp u.id :=
    fun t u hu => Function.update_of_ne (not_live_iff.mp hdead t u hu) _ _
  have hnew : Function.update stamp o.id (n + 1) o.id = n + 1 := Function.update_self ..
  have hrecords : ∀ t, recordsOf (Function.update stamp o.id (n + 1)) a t = recordsOf stamp a t :=
    fun t => recordOf_congr (hkept t)
  refine ⟨?_, ?_, fun t u hu => ?_, hroom, ?_, h.nextSeq⟩
  · refine List.Perm.trans ?_ (recordsOf_perm _ (a.rest s o) s)
    have hopp : recordsOf (Function.update stamp o.id (n + 1)) (a.rest s o) s.opposite
        = recordsOf stamp a s.opposite := by
      rw [← hrecords, recordsOf, queue_rest_opposite]
      rfl
    have hself : (recordsOf (Function.update stamp o.id (n + 1)) (a.rest s o) s).Perm
        (recordOf (Function.update stamp o.id (n + 1)) s o :: recordsOf stamp a s) := by
      rw [← hrecords, recordsOf, queue_rest_self]
      exact enqueue_perm.map _
    have hrecord : recordOf (Function.update stamp o.id (n + 1)) s o
        = ⟨o.id, o.owner, o.price, o.qty, s, b.nextArrival⟩ := by
      rw [recordOf, hnew, h.nextArrival]
    rw [hopp]
    refine List.Perm.trans ?_ (hself.append_right _).symm
    rw [hrecord]
    exact ((List.perm_append_singleton _ _).trans ((h.perm s).cons _))
  · refine InOrder.rest (fun t => (h.inOrder t).congr (hkept t)) fun u hu => ?_
    rw [hkept s u hu, hnew]
    exact Nat.lt_succ_of_le (h.arrived s u hu)
  · rcases mem_rest hu with hu | ⟨rfl, -⟩
    · rw [hkept t u hu]
      exact Nat.le_succ_of_le (h.arrived t u hu)
    · rw [hnew]
  · show b.nextArrival + 1 = _
    rw [h.nextArrival, UInt64.ofNat_add (n + 1) 1]
    rfl

/-- **A submission**: the same report, the same trades, and the mirror kept. -/
theorem Mirrors.submit (h : Mirrors b x.book stamp n) (hsound : x.book.Sound)
    (hdead : x.book.live x.taker.id = false) (hqty : x.qty ≠ 0)
    (htaker : x.taker = inc.taker b.policy) (hmay : x.restLeftover = !inc.isMarket)
    (hroom : x.rests = true → n + 1 < 2 ^ 64) :
    ∃ b' stamp', b.submit inc x.qty = some (x.execute.1, b')
      ∧ Mirrors b' x.execute.2.2 stamp' (if x.rests then n + 1 else n)
      ∧ b'.tradeLog = b.tradeLog ++ fillsOf x.walk.2.acts ∧ b'.policy = b.policy := by
  have hfresh : ¬ (x.qty = 0 || (b.find inc.id).isSome) = true := by
    have hid : inc.id = x.taker.id := by rw [htaker]; rfl
    rw [h.find_isSome hsound, hid, hdead]
    simp [hqty]
  obtain ⟨f, hloop, hf, hleft, hrep, hlog, hpolicy⟩ := h.matched hsound htaker
  have hcond : (!inc.isMarket && decide (0 < f.left) && !f.rep.stpHalted) = x.rests := by
    rw [hleft, hrep, ← hmay]
    rfl
  have hwalk : x.walk.2.rep.rested = false := OrderBook.sweep_rested rfl
  have hsubmit : b.submit inc x.qty = some (if x.rests then
      ({ f.rep with remaining := f.left, rested := true }, { f.book with
        resting := f.book.resting ++ [⟨inc.id, inc.owner, inc.price, f.left, inc.side,
          f.book.nextArrival⟩]
        nextArrival := f.book.nextArrival + 1 })
      else ({ f.rep with remaining := f.left }, f.book)) := by
    rw [ReferenceBook.submit, if_neg hfresh, hloop, Option.map_some, ← hcond]
  rw [hsubmit, x.execute_eq]
  by_cases hrests : x.rests = true
  · have hlive := x.after_not_live hdead
    have hmarket : inc.isMarket = false := by
      rw [(x.rests_iff.mp hrests).1] at hmay
      simpa using hmay.symm
    have hleftover : x.leftover = ⟨inc.id, inc.price, f.left, inc.owner⟩ := by
      rw [Submission.leftover, htaker, hleft]
      simp [Incoming.taker, hmarket]
    have hside : x.taker.side = inc.side := by rw [htaker]; rfl
    have hpush := hf.push (o := x.leftover) (s := x.taker.side) hlive (hroom hrests)
    rw [hleftover, hside] at hpush
    simp only [hrests, if_true, Bool.true_or, hleftover, hside]
    refine ⟨_, _, ?_, hpush, hlog, hpolicy⟩
    rw [hrep, hleft]
  · have hno : x.rests = false := by simpa using hrests
    simp only [hno, Bool.false_eq_true, if_false, Bool.false_or, hwalk]
    refine ⟨_, _, ?_, hf, hlog, hpolicy⟩
    rw [hrep, hleft, ← hwalk]

end Submissions

/-! ## Calls -/

section Calls

variable {b : ReferenceBook} {a : PriorityBook} {stamp : OrderId → Nat} {n : Nat} {x : Submission}
  {inc : Incoming}

theorem recordsOf_remove (stamp : OrderId → Nat) (a : PriorityBook) (id : OrderId) (s : Side) :
    recordsOf stamp (a.remove id) s = (recordsOf stamp a s).filter fun r => r.id ≠ id := by
  rw [recordsOf, recordsOf, List.filter_map]
  rfl

/-- **A cancel** takes the order out of the vector. -/
theorem Mirrors.cancel (h : Mirrors b a stamp n) (hsound : a.Sound) (id : OrderId) :
    (b.cancel id).1 = a.live id ∧ Mirrors (b.cancel id).2 (a.remove id) stamp n
      ∧ (b.cancel id).2.tradeLog = b.tradeLog ∧ (b.cancel id).2.policy = b.policy := by
  unfold ReferenceBook.cancel
  cases hfind : b.resting.findIdx? fun r => r.id == id with
  | none =>
    have hdead : a.live id = false := by
      refine not_live_iff.mpr fun s o ho heq => ?_
      have hno := List.findIdx?_eq_none_iff.mp hfind _ (h.mem_iff.mpr ⟨s, o, ho, rfl⟩)
      simp [recordOf, heq] at hno
    simp only [hdead, remove_of_not_live hdead]
    exact ⟨trivial, h, trivial, trivial⟩
  | some i =>
    obtain ⟨hi, hid, -⟩ := List.findIdx?_eq_some_iff_getElem.mp hfind
    have hid' : b.resting[i].id = id := by simpa using hid
    have hlive : a.live id = true := by
      obtain ⟨s, o, ho, heq⟩ := h.mem_iff.mp (List.getElem_mem hi)
      refine live_iff.mpr ⟨s, o, ho, ?_⟩
      rw [← hid', ← heq]
      rfl
    have hperm := eraseIdx_perm_filter (h.nodup hsound) (List.getElem?_eq_getElem hi)
    rw [hid'] at hperm
    simp only [hlive]
    refine ⟨trivial, ⟨?_, h.inOrder.remove id, fun s o ho => ?_, h.room, h.nextArrival, h.nextSeq⟩,
      trivial, trivial⟩
    · rw [recordsOf_remove, recordsOf_remove, ← List.filter_append]
      exact hperm.trans (h.resting.filter _)
    · exact h.arrived s o (mem_remove.mp ho).1

/-- A submission the book rejects. -/
theorem Mirrors.submit_rejected (h : Mirrors b a stamp n) (hsound : a.Sound) {qty : Quantity}
    (hrej : (qty = 0 || a.live inc.id) = true) :
    b.submit inc qty = some ({ accepted := false, remaining := qty }, b) := by
  rw [← h.find_isSome hsound] at hrej
  exact if_pos hrej

/-- The arrivals after a call. -/
def arrivalsAfter (policy : SelfTradePolicy) (a : PriorityBook) (c : Call) (n : Nat) : Nat :=
  if (a.restedId policy c).isSome then n + 1 else n

theorem arrivalsAfter_of_submission {policy : SelfTradePolicy} {c : Call}
    (hx : a.submission policy c = some x) (n : Nat) :
    arrivalsAfter policy a c n = if x.rests then n + 1 else n := by
  rw [arrivalsAfter, restedId, hx, Option.bind_some]
  by_cases hrests : x.rests = true
  · simp [hrests]
  · simp [hrests]

theorem arrivalsAfter_of_none {policy : SelfTradePolicy} {c : Call}
    (hx : a.submission policy c = none) (n : Nat) : arrivalsAfter policy a c n = n := by
  rw [arrivalsAfter, restedId, hx]
  rfl

/-- What a call of the reference book comes to, on a book that mirrors `a`. -/
inductive Answers (b : ReferenceBook) (a : PriorityBook) (n : Nat) (c : Call) :
    Option (Reply × ReferenceBook) → Prop
  | returned (b' : ReferenceBook) (stamp' : OrderId → Nat)
      (hmirrors : Mirrors b' (a.perform b.policy c).2.2 stamp' (arrivalsAfter b.policy a c n))
      (hlog : b'.tradeLog = b.tradeLog ++ fillsOf (a.perform b.policy c).2.1)
      (hpolicy : b'.policy = b.policy) : Answers b a n c (some ((a.perform b.policy c).1, b'))

/-- A call that submits. -/
theorem Mirrors.answers_submission {b₁ : ReferenceBook} {c : Call} (x : Submission) (inc : Incoming)
    (h : Mirrors b₁ x.book stamp n) (hsound : x.book.Sound) (hx : a.submission b.policy c = some x)
    (hlog : b₁.tradeLog = b.tradeLog) (hpolicy : b₁.policy = b.policy)
    (htaker : x.taker = inc.taker b.policy) (hmay : x.restLeftover = !inc.isMarket)
    (hroom : arrivalsAfter b.policy a c n < 2 ^ 64) :
    Answers b a n c ((b₁.submit inc x.qty).map fun r => (.report r.1, r.2)) := by
  have hfresh := submission_fresh hx
  rw [arrivalsAfter_of_submission hx] at hroom
  obtain ⟨b', stamp', hsubmit, hmirrors, hlog', hpolicy'⟩ := h.submit hsound hfresh.live hfresh.qty
    (hpolicy ▸ htaker) hmay fun hrests => by rwa [if_pos hrests] at hroom
  have hacts : x.execute.2.1 = x.walk.2.acts := by rw [x.execute_eq]
  have hperf := perform_of_submission hx
  have hreply : (a.perform b.policy c).1 = .report x.execute.1 := by rw [hperf]
  rw [hsubmit, Option.map_some, ← hreply]
  refine .returned b' stamp' ?_ ?_ (hpolicy'.trans hpolicy)
  · rw [arrivalsAfter_of_submission hx, hperf]
    exact hmirrors
  · rw [hlog', hlog, hperf, ← hacts]

/-- A call that submits nothing. -/
theorem Mirrors.answers_quiet {b' : ReferenceBook} {a' : PriorityBook} {c : Call} {reply : Reply}
    (h : Mirrors b' a' stamp n) (hx : a.submission b.policy c = none)
    (hperf : a.perform b.policy c = (reply, [], a')) (hlog : b'.tradeLog = b.tradeLog)
    (hpolicy : b'.policy = b.policy) : Answers b a n c (some (reply, b')) := by
  have hreply : (a.perform b.policy c).1 = reply := by rw [hperf]
  rw [← hreply]
  refine .returned b' stamp ?_ ?_ hpolicy
  · rw [arrivalsAfter_of_none hx, hperf]
    exact h
  · rw [hperf, hlog, fillsOf_nil, List.append_nil]

/-- **Every call of the reference book is the call of the priority book.** -/
theorem Mirrors.answers (h : Mirrors b a stamp n) (hsound : a.Sound) (c : Call)
    (hroom : arrivalsAfter b.policy a c n < 2 ^ 64) : Answers b a n c (b.perform c) := by
  cases c with
  | addLimit id owner side price qty =>
    by_cases hrej : (qty = 0 || a.live id) = true
    · have hsub : b.addLimit id owner side price qty = _ := h.submit_rejected hsound hrej
      rw [perform, hsub]
      exact h.answers_quiet (if_pos hrej) (by simp only [PriorityBook.perform, PriorityBook.submit,
        hrej, if_true]) rfl rfl
    · exact Mirrors.answers_submission ⟨a, ⟨b.policy, id, owner, side, some price⟩, qty, true⟩
        ⟨id, owner, side, price, false⟩ h hsound (if_neg hrej) rfl rfl rfl rfl hroom
  | addMarket id owner side qty =>
    by_cases hrej : (qty = 0 || a.live id) = true
    · have hsub : b.addMarket id owner side qty = _ := h.submit_rejected hsound hrej
      rw [perform, hsub]
      exact h.answers_quiet (if_pos hrej) (by simp only [PriorityBook.perform, PriorityBook.submit,
        hrej, if_true]) rfl rfl
    · exact Mirrors.answers_submission ⟨a, ⟨b.policy, id, owner, side, none⟩, qty, false⟩
        ⟨id, owner, side, 0, true⟩ h hsound (if_neg hrej) rfl rfl rfl rfl hroom
  | cancel id =>
    obtain ⟨hreply, hmirrors, hlog, hpolicy⟩ := h.cancel hsound id
    rw [perform, hreply]
    exact hmirrors.answers_quiet rfl rfl hlog hpolicy
  | modify id newPrice newQty =>
    have hfind := h.find hsound id
    rw [perform, modify]
    cases hlive : b.find id with
    | none =>
      rw [hlive] at hfind
      exact h.answers_quiet (by simp [submission, ← hfind]) (by simp [PriorityBook.perform, ← hfind])
        rfl rfl
    | some live =>
      rw [hlive] at hfind
      obtain ⟨-, hmirrors, hlog, hpolicy⟩ := h.cancel hsound id
      by_cases hzero : newQty = 0
      · simp only [if_pos hzero]
        exact hmirrors.answers_quiet (by simp [submission, ← hfind, hzero])
          (by simp [PriorityBook.perform, ← hfind, hzero]) hlog hpolicy
      · simp only [if_neg hzero]
        exact Mirrors.answers_submission
          ⟨a.remove id, ⟨b.policy, id, live.owner, live.side, some newPrice⟩, newQty, true⟩
          ⟨id, live.owner, live.side, newPrice, false⟩ hmirrors (hsound.remove id)
          (by simp [submission, ← hfind, hzero, Resting.toOrder]) hlog hpolicy rfl rfl hroom
  | pop => exact h.answers_quiet rfl rfl rfl rfl

end Calls

end ReferenceBook

end Lob
