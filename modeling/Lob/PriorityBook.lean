/-
# Lob.PriorityBook — what the book is for, with no data structure.

Each side is a list of resting orders in priority order.  A taker walks the far list from its head:
`turn` is one turn of that walk and `sweep` the whole of it, by recursion on the list.  Nothing here
is translated from the engine; the engine and the naive reference book are both proved to follow it.

The sweep is used through two facts: a turn does not change what the sweep will be (`sweep_turn`),
and what every turn preserves holds at the end of it (`sweep_induction`).
-/
import Mathlib.Data.List.Basic
import Mathlib.Data.List.Nodup
import Lob.Types

namespace Lob

/-! ## The walk of a taker -/

/-- What a taker is, apart from how much it still wants. -/
structure Taker where
  policy : SelfTradePolicy
  id : OrderId
  owner : ParticipantId
  side : Side
  limit : Option Price

/-- What a walk accumulates. -/
structure Progress where
  left : Quantity
  rep : ExecReport := {}
  nextSeq : Sequence
  acts : List Act := []

namespace Taker

variable (k : Taker)

def crosses (o : RestingOrder) : Bool := Lob.crosses k.side k.limit o.price

/-- Whether prevention applies between the taker and a resting order. -/
def selfTrade (o : RestingOrder) : Bool :=
  decide (k.policy ≠ .allow) && decide (k.owner ≠ kAnonymous) && k.owner == o.owner

/-- The trade of a turn. -/
def trade (o : RestingOrder) (s : Progress) : Trade :=
  ⟨s.nextSeq, o.id, k.id, o.price, min s.left o.qty, k.side⟩

/-- The progress after a trade. -/
def filled (o : RestingOrder) (s : Progress) : Progress where
  left := s.left - min s.left o.qty
  rep := { s.rep with
    firstSeq := if s.rep.tradeCount = 0 then s.nextSeq else s.rep.firstSeq
    tradeCount := s.rep.tradeCount + 1
    filled := s.rep.filled + min s.left o.qty }
  nextSeq := s.nextSeq + 1
  acts := s.acts ++ [.fill (k.trade o s)]

/-- The progress after a resting order is cancelled. -/
def cancelled (o : RestingOrder) (s : Progress) : Progress :=
  { s with
    rep := { s.rep with stpCancelled := s.rep.stpCancelled + o.qty.toUInt64 }
    acts := s.acts ++ [.stpCancel o] }

/-- The progress of a taker stopped dead. -/
def halted (s : Progress) : Progress := { s with rep := { s.rep with stpHalted := true } }

/-- What a trade leaves of a resting order. -/
def rest (o : RestingOrder) (s : Progress) : RestingOrder := { o with qty := o.qty - min s.left o.qty }

/-- The walk is over: the taker is exhausted or halted, or the order does not satisfy its limit. -/
def stops (o : RestingOrder) (s : Progress) : Bool :=
  decide (s.left = 0) || s.rep.stpHalted || !k.crosses o

/-- One turn of the walk; nothing when the walk is over. -/
def turn : List RestingOrder → Progress → Option (List RestingOrder × Progress)
  | [], _ => none
  | o :: far, s =>
    if k.stops o s then none
    else if k.selfTrade o then
      if k.policy = .cancelIncoming then some (o :: far, halted s) else some (far, cancelled o s)
    else if (rest o s).qty = 0 then some (far, k.filled o s)
    else some (rest o s :: far, k.filled o s)

/-- The whole walk. -/
def sweep : List RestingOrder → Progress → List RestingOrder × Progress
  | [], s => ([], s)
  | o :: far, s =>
    if k.stops o s then (o :: far, s)
    else if k.selfTrade o then
      if k.policy = .cancelIncoming then (o :: far, halted s) else sweep far (cancelled o s)
    else if (rest o s).qty = 0 then sweep far (k.filled o s)
    else (rest o s :: far, k.filled o s)

/-- What a turn can do: everything it needs and everything it changes. -/
inductive Turned (o : RestingOrder) (far : List RestingOrder) (s : Progress) :
    List RestingOrder → Progress → Prop
  | halt (hpolicy : k.policy = .cancelIncoming) (hself : k.selfTrade o = true) :
      Turned o far s (o :: far) (halted s)
  | cancel (hpolicy : k.policy = .cancelResting) (hself : k.selfTrade o = true) :
      Turned o far s far (cancelled o s)
  | fill (hself : k.selfTrade o = false) (hle : o.qty ≤ s.left) :
      Turned o far s far (k.filled o s)
  | partFill (hself : k.selfTrade o = false) (hlt : s.left < o.qty) :
      Turned o far s (rest o s :: far) (k.filled o s)

end Taker

section Sweep

variable {k : Taker} {o : RestingOrder} {far far' : List RestingOrder} {s s' : Progress}

theorem min_toNat (a b : UInt32) : (min a b).toNat = min a.toNat b.toNat := by
  have hmin : min a b = if a ≤ b then a else b := rfl
  by_cases h : a ≤ b
  · rw [hmin, if_pos h, Nat.min_eq_left (UInt32.le_iff_toNat_le.mp h)]
  · rw [hmin, if_neg h, Nat.min_eq_right]
    rw [UInt32.le_iff_toNat_le] at h
    omega

theorem toNat_sub_min (a b : UInt32) : (a - min b a).toNat = a.toNat - b.toNat := by
  have hle : min b a ≤ a := by
    rw [UInt32.le_iff_toNat_le, min_toNat]
    exact Nat.min_le_right _ _
  rw [UInt32.toNat_sub_of_le _ _ hle, min_toNat]
  omega

/-- The taker's remainder after a trade. -/
theorem Taker.filled_left (k : Taker) (o : RestingOrder) (s : Progress) :
    (k.filled o s).left.toNat = s.left.toNat - o.qty.toNat := by
  have hle : min s.left o.qty ≤ s.left := by
    rw [UInt32.le_iff_toNat_le, min_toNat]
    exact Nat.min_le_left _ _
  rw [Taker.filled, UInt32.toNat_sub_of_le _ _ hle, min_toNat]
  omega

theorem Taker.rest_qty (o : RestingOrder) (s : Progress) :
    (rest o s).qty.toNat = o.qty.toNat - s.left.toNat := toNat_sub_min _ _

theorem Taker.rest_qty_eq_zero : (Taker.rest o s).qty = 0 ↔ o.qty ≤ s.left := by
  rw [← UInt32.toNat_inj, Taker.rest_qty, UInt32.le_iff_toNat_le, UInt32.toNat_zero]
  omega

/-- **The inversion of a turn.** -/
theorem turn_cases (h : k.turn far s = some (far', s')) :
    ∃ o rest, far = o :: rest ∧ s.left ≠ 0 ∧ s.rep.stpHalted = false ∧ k.crosses o = true
      ∧ k.Turned o rest s far' s' := by
  cases far with
  | nil => simp [Taker.turn] at h
  | cons o rest =>
    rw [Taker.turn] at h
    by_cases hstop : k.stops o s
    · rw [if_pos hstop] at h
      simp at h
    · rw [if_neg hstop] at h
      have hgo : s.left ≠ 0 ∧ s.rep.stpHalted = false ∧ k.crosses o = true := by
        simpa [Taker.stops, and_assoc] using hstop
      refine ⟨o, rest, rfl, hgo.1, hgo.2.1, hgo.2.2, ?_⟩
      by_cases hself : k.selfTrade o
      · rw [if_pos hself] at h
        by_cases hpolicy : k.policy = .cancelIncoming
        · rw [if_pos hpolicy] at h
          obtain ⟨rfl, rfl⟩ := Prod.mk.inj (Option.some.inj h)
          exact .halt hpolicy hself
        · rw [if_neg hpolicy] at h
          obtain ⟨rfl, rfl⟩ := Prod.mk.inj (Option.some.inj h)
          refine .cancel ?_ hself
          cases hp : k.policy <;> simp_all [Taker.selfTrade]
      · rw [if_neg hself] at h
        have hself' : k.selfTrade o = false := by simpa using hself
        by_cases hz : (Taker.rest o s).qty = 0
        · rw [if_pos hz] at h
          obtain ⟨rfl, rfl⟩ := Prod.mk.inj (Option.some.inj h)
          exact .fill hself' (Taker.rest_qty_eq_zero.mp hz)
        · rw [if_neg hz] at h
          obtain ⟨rfl, rfl⟩ := Prod.mk.inj (Option.some.inj h)
          refine .partFill hself' ?_
          rw [Taker.rest_qty_eq_zero, UInt32.le_iff_toNat_le] at hz
          rw [UInt32.lt_iff_toNat_lt]
          omega

/-- The walk is over exactly when the far side is empty or its head stops the taker. -/
theorem turn_eq_none :
    k.turn far s = none ↔
      s.left = 0 ∨ s.rep.stpHalted = true ∨ ∀ o ∈ far.head?, k.crosses o = false := by
  cases far with
  | nil => simp [Taker.turn]
  | cons o far =>
    rw [Taker.turn]
    by_cases hstop : k.stops o s
    · rw [if_pos hstop]
      simpa [Taker.stops, or_assoc] using hstop
    · rw [if_neg hstop]
      have hgo : s.left ≠ 0 ∧ s.rep.stpHalted = false ∧ k.crosses o = true := by
        simpa [Taker.stops, and_assoc] using hstop
      simp only [hgo.1, hgo.2.1, List.head?_cons, Option.mem_some_iff, forall_eq', hgo.2.2]
      split <;> split <;> simp

theorem sweep_of_left (hleft : s.left = 0) : k.sweep far s = (far, s) := by
  cases far with
  | nil => rfl
  | cons o far => rw [Taker.sweep, if_pos (by simp [Taker.stops, hleft])]

theorem sweep_of_halted (hhalt : s.rep.stpHalted = true) : k.sweep far s = (far, s) := by
  cases far with
  | nil => rfl
  | cons o far => rw [Taker.sweep, if_pos (by simp [Taker.stops, hhalt])]

/-- **A turn does not change the outcome of the walk.** -/
theorem sweep_turn (h : k.turn far s = some (far', s')) : k.sweep far s = k.sweep far' s' := by
  obtain ⟨o, rest, rfl, hleft, hhalt, hcross, ht⟩ := turn_cases h
  have hstop : ¬ k.stops o s = true := by simp [Taker.stops, hleft, hhalt, hcross]
  rw [Taker.sweep, if_neg hstop]
  cases ht with
  | halt hpolicy hself =>
    rw [if_pos hself, if_pos hpolicy, sweep_of_halted rfl]
  | cancel hpolicy hself => rw [if_pos hself, if_neg (by simp [hpolicy])]
  | fill hself hle => rw [if_neg (by simp [hself]), if_pos (Taker.rest_qty_eq_zero.mpr hle)]
  | partFill hself hlt =>
    have hz : ¬ (Taker.rest o s).qty = 0 := by
      rw [Taker.rest_qty_eq_zero, UInt32.le_iff_toNat_le]
      rw [UInt32.lt_iff_toNat_lt] at hlt
      omega
    have hdone : (k.filled o s).left = 0 := by
      rw [← UInt32.toNat_inj, k.filled_left]
      rw [UInt32.lt_iff_toNat_lt] at hlt
      simp only [UInt32.toNat_zero]
      omega
    rw [if_neg (by simp [hself]), if_neg hz, sweep_of_left hdone]

theorem sweep_of_none (h : k.turn far s = none) : k.sweep far s = (far, s) := by
  rcases turn_eq_none.mp h with hleft | hhalt | hcross
  · exact sweep_of_left hleft
  · exact sweep_of_halted hhalt
  · cases far with
    | nil => rfl
    | cons o far =>
      rw [Taker.sweep, if_pos (by simp [Taker.stops, hcross o (by simp)])]

/-- **What every turn preserves holds at the end of the walk**, where no turn is left. -/
theorem sweep_induction {P : List RestingOrder → Progress → Prop} (hstart : P far s)
    (hturn : ∀ far s far' s', P far s → k.turn far s = some (far', s') → P far' s') :
    P (k.sweep far s).1 (k.sweep far s).2 ∧ k.turn (k.sweep far s).1 (k.sweep far s).2 = none := by
  induction far generalizing s with
  | nil => exact ⟨hstart, rfl⟩
  | cons o rest ih =>
    cases hnext : k.turn (o :: rest) s with
    | none =>
      rw [sweep_of_none hnext]
      exact ⟨hstart, hnext⟩
    | some next =>
      obtain ⟨far', s'⟩ := next
      have hP := hturn _ _ _ _ hstart hnext
      rw [sweep_turn hnext]
      obtain ⟨o', rest', heq, hleft, hhalt, -, ht⟩ := turn_cases hnext
      obtain ⟨rfl, rfl⟩ := List.cons.inj heq
      cases ht with
      | halt hpolicy hself =>
        rw [sweep_of_halted rfl]
        exact ⟨hP, turn_eq_none.mpr (Or.inr (Or.inl rfl))⟩
      | cancel hpolicy hself => exact ih hP
      | fill hself hle => exact ih hP
      | partFill hself hlt =>
        have hdone : (k.filled o s).left = 0 := by
          rw [← UInt32.toNat_inj, k.filled_left]
          rw [UInt32.lt_iff_toNat_lt] at hlt
          simp only [UInt32.toNat_zero]
          omega
        rw [sweep_of_left hdone]
        exact ⟨hP, turn_eq_none.mpr (Or.inl hdone)⟩

/-- What a walk never changes about a resting order. -/
def tag (o : RestingOrder) : OrderId × Price × ParticipantId := (o.id, o.price, o.owner)

theorem turn_tags (h : k.turn far s = some (far', s')) : far'.map tag <:+ far.map tag := by
  obtain ⟨o, rest, rfl, -, -, -, ht⟩ := turn_cases h
  cases ht with
  | halt _ _ => exact List.suffix_refl _
  | cancel _ _ => exact List.suffix_cons _ _
  | fill _ _ => exact List.suffix_cons _ _
  | partFill _ _ => exact List.suffix_refl _

/-- **A walk takes orders off the front of the far side only**, and leaves the rest their identity. -/
theorem sweep_tags : (k.sweep far s).1.map tag <:+ far.map tag :=
  (sweep_induction (P := fun far' _ => far'.map tag <:+ far.map tag) (List.suffix_refl _)
    fun _ _ _ _ hP hturn => (turn_tags hturn).trans hP).1

/-- An order a walk leaves was on the far side before. -/
theorem sweep_mem (ho : o ∈ (k.sweep far s).1) : ∃ o' ∈ far, tag o' = tag o :=
  List.mem_map.mp (sweep_tags.subset (List.mem_map_of_mem ho))

end Sweep

/-! ## The book and its calls -/

/-- Both sides in priority order, and the next trade's number. -/
structure PriorityBook where
  queue : Side → List RestingOrder := fun _ => []
  nextSeq : Sequence := 1

namespace PriorityBook

/-- Put an order behind every order it does not beat. -/
def enqueue (isBid : Bool) (o : RestingOrder) : List RestingOrder → List RestingOrder
  | [] => [o]
  | x :: xs => if better isBid o.price x.price then o :: x :: xs else x :: enqueue isBid o xs

/-- The place an order is enqueued at: behind everything it does not beat. -/
theorem enqueue_split {isBid : Bool} {o : RestingOrder} {front back : List RestingOrder}
    (hfront : ∀ x ∈ front, ¬ better isBid o.price x.price)
    (hback : ∀ x ∈ back, better isBid o.price x.price) :
    enqueue isBid o (front ++ back) = front ++ o :: back := by
  induction front with
  | nil =>
    cases back with
    | nil => rfl
    | cons x xs => rw [List.nil_append, enqueue, if_pos (hback x (by simp))]; rfl
  | cons x xs ih =>
    rw [List.cons_append, enqueue, if_neg (hfront x (by simp)),
      ih fun y hy => hfront y (List.mem_cons_of_mem _ hy)]
    rfl

/-- All resting orders. -/
def orders (b : PriorityBook) : List RestingOrder := b.queue .buy ++ b.queue .sell

def live (b : PriorityBook) (id : OrderId) : Bool := b.orders.any fun o => o.id == id

/-- The order under an id, with its side. -/
def find (b : PriorityBook) (id : OrderId) : Option Order :=
  match (b.queue .buy).find? fun o => o.id == id with
  | some o => some (o.toOrder .buy)
  | none => ((b.queue .sell).find? fun o => o.id == id).map (RestingOrder.toOrder .sell)

/-- Take the order under an id off the book. -/
def remove (b : PriorityBook) (id : OrderId) : PriorityBook :=
  { b with queue := fun s => (b.queue s).filter fun o => o.id ≠ id }

/-- The outcome of a taker's walk over the far side. -/
def walk (b : PriorityBook) (k : Taker) (qty : Quantity) : List RestingOrder × Progress :=
  k.sweep (b.queue k.side.opposite) { left := qty, nextSeq := b.nextSeq }

/-- The book after a walk. -/
def afterWalk (b : PriorityBook) (k : Taker) (qty : Quantity) : PriorityBook where
  queue := Function.update b.queue k.side.opposite (b.walk k qty).1
  nextSeq := (b.walk k qty).2.nextSeq

/-- Rest an order on a side. -/
def rest (b : PriorityBook) (s : Side) (o : RestingOrder) : PriorityBook :=
  { b with queue := Function.update b.queue s (enqueue s.isBid o (b.queue s)) }

/-- Walk the far side, and rest the remainder if it may rest and was not halted. -/
def execute (b : PriorityBook) (k : Taker) (qty : Quantity) (restLeftover : Bool) :
    ExecReport × List Act × PriorityBook :=
  let p := (b.walk k qty).2
  let rep := { p.rep with remaining := p.left }
  if restLeftover && decide (0 < p.left) && !p.rep.stpHalted then
    ({ rep with rested := true }, p.acts,
      (b.afterWalk k qty).rest k.side ⟨k.id, k.limit.getD 0, p.left, k.owner⟩)
  else (rep, p.acts, b.afterWalk k qty)

def submit (b : PriorityBook) (k : Taker) (qty : Quantity) (restLeftover : Bool) :
    ExecReport × List Act × PriorityBook :=
  if qty = 0 || b.live k.id then ({ accepted := false, remaining := qty }, [], b)
  else b.execute k qty restLeftover

/-- Make one call; a pop of the trade ring is nothing to the book. -/
def perform (policy : SelfTradePolicy) (b : PriorityBook) : Call → Reply × List Act × PriorityBook
  | .addLimit id owner side price qty =>
    let r := b.submit ⟨policy, id, owner, side, some price⟩ qty true
    (.report r.1, r.2)
  | .addMarket id owner side qty =>
    let r := b.submit ⟨policy, id, owner, side, none⟩ qty false
    (.report r.1, r.2)
  | .cancel id => (.cancelled (b.live id), [], b.remove id)
  | .modify id newPrice newQty =>
    match b.find id with
    | none => (.report { accepted := false, remaining := newQty }, [], b)
    | some o =>
      if newQty = 0 then (.report {}, [], b.remove id)
      else
        let r := (b.remove id).submit ⟨policy, id, o.owner, o.side, some newPrice⟩ newQty true
        (.report r.1, r.2)
  | .pop => (.popped none, [], b)

/-! ## Submissions -/

/-- An accepted order about to walk the far side of a book. -/
structure Submission where
  book : PriorityBook
  taker : Taker
  qty : Quantity
  restLeftover : Bool

/-- What a call submits; a modify does so after its cancel. -/
def submission (policy : SelfTradePolicy) (b : PriorityBook) : Call → Option Submission
  | .addLimit id owner side price qty =>
    if qty = 0 || b.live id then none
    else some ⟨b, ⟨policy, id, owner, side, some price⟩, qty, true⟩
  | .addMarket id owner side qty =>
    if qty = 0 || b.live id then none else some ⟨b, ⟨policy, id, owner, side, none⟩, qty, false⟩
  | .modify id newPrice newQty =>
    match b.find id with
    | none => none
    | some o =>
      if newQty = 0 then none
      else some ⟨b.remove id, ⟨policy, id, o.owner, o.side, some newPrice⟩, newQty, true⟩
  | .cancel _ => none
  | .pop => none

namespace Submission

def execute (x : Submission) : ExecReport × List Act × PriorityBook :=
  x.book.execute x.taker x.qty x.restLeftover

/-- The walk of a submission. -/
def walk (x : Submission) : List RestingOrder × Progress := x.book.walk x.taker x.qty

/-- Whether what the walk leaves is to rest. -/
def rests (x : Submission) : Bool :=
  x.restLeftover && decide (0 < x.walk.2.left) && !x.walk.2.rep.stpHalted

/-- The order that rests. -/
def leftover (x : Submission) : RestingOrder :=
  ⟨x.taker.id, x.taker.limit.getD 0, x.walk.2.left, x.taker.owner⟩

/-- The book at the end of matching. -/
def after (x : Submission) : PriorityBook := x.book.afterWalk x.taker x.qty

theorem execute_eq (x : Submission) : x.execute =
    ({ x.walk.2.rep with remaining := x.walk.2.left, rested := x.rests || x.walk.2.rep.rested },
      x.walk.2.acts, if x.rests then x.after.rest x.taker.side x.leftover else x.after) := by
  unfold execute PriorityBook.execute
  show (if x.rests = true then _ else _) = _
  by_cases h : x.rests = true
  · rw [if_pos h, h, if_pos rfl]
    rfl
  · rw [if_neg h, if_neg h, Bool.eq_false_iff.mpr h]
    rfl

end Submission

/-! ## What each operation does to the queues -/

section Queues

variable {policy : SelfTradePolicy} {b : PriorityBook} {c : Call} {id : OrderId} {s : Side}
  {o : RestingOrder} {x : Submission}

theorem mem_orders : o ∈ b.orders ↔ ∃ s, o ∈ b.queue s := by
  constructor
  · intro h
    rcases List.mem_append.mp h with h | h
    · exact ⟨_, h⟩
    · exact ⟨_, h⟩
  · rintro ⟨s, h⟩
    cases s with
    | buy => exact List.mem_append_left _ h
    | sell => exact List.mem_append_right _ h

theorem live_iff : b.live id = true ↔ ∃ s, ∃ o ∈ b.queue s, o.id = id := by
  simp only [live, List.any_eq_true, beq_iff_eq, mem_orders]
  constructor
  · rintro ⟨o, ⟨s, ho⟩, hid⟩
    exact ⟨s, o, ho, hid⟩
  · rintro ⟨s, o, ho, hid⟩
    exact ⟨o, ⟨s, ho⟩, hid⟩

theorem not_live_iff : b.live id = false ↔ ∀ s, ∀ o ∈ b.queue s, o.id ≠ id := by
  rw [Bool.eq_false_iff, Ne, live_iff]
  push Not
  exact Iff.rfl

theorem mem_remove : o ∈ (b.remove id).queue s ↔ o ∈ b.queue s ∧ o.id ≠ id := by
  simp [remove]

theorem live_remove_self (b : PriorityBook) (id : OrderId) : (b.remove id).live id = false :=
  not_live_iff.mpr fun _ _ ho => (mem_remove.mp ho).2

theorem remove_of_not_live (h : b.live id = false) : b.remove id = b := by
  have hqueue : (b.remove id).queue = b.queue := by
    funext s
    exact List.filter_eq_self.mpr fun o ho => by simpa using not_live_iff.mp h s o ho
  show ({ b with queue := (b.remove id).queue } : PriorityBook) = b
  rw [hqueue]

/-- Taking a queued order out by its id. -/
theorem filter_split {front back : List RestingOrder}
    (hnd : ((front ++ o :: back).map RestingOrder.id).Nodup) :
    (front ++ o :: back).filter (fun x => x.id ≠ o.id) = front ++ back := by
  rw [List.map_append, List.map_cons, List.nodup_middle] at hnd
  have hmem := (List.nodup_cons.mp hnd).1
  have hne : ∀ x ∈ front ++ back, decide (x.id ≠ o.id) = true := by
    intro x hx
    refine decide_eq_true fun heq => hmem ?_
    rw [← List.map_append, ← heq]
    exact List.mem_map_of_mem hx
  rw [List.filter_append, List.filter_cons_of_neg (by simp), ← List.filter_append]
  exact List.filter_eq_self.mpr hne

theorem find_eq_none : b.find id = none ↔ b.live id = false := by
  rw [not_live_iff, find]
  cases hbuy : (b.queue .buy).find? (fun o => o.id == id) with
  | some o =>
    have hmem := List.mem_of_find?_eq_some hbuy
    have hid : o.id = id := by simpa using List.find?_some hbuy
    exact ⟨fun h => by simp at h, fun h => absurd hid (h .buy o hmem)⟩
  | none =>
    have hno : ∀ o ∈ b.queue .buy, o.id ≠ id := by simpa using hbuy
    simp only [Option.map_eq_none_iff, List.find?_eq_none, beq_iff_eq]
    constructor
    · intro hsell s
      cases s with
      | buy => exact hno
      | sell => exact hsell
    · exact fun h => h .sell

/-- The order under an id is the queued one. -/
theorem find_of_mem (hnd : (b.orders.map RestingOrder.id).Nodup) (ho : o ∈ b.queue s) :
    b.find o.id = some (o.toOrder s) := by
  have huniq : ∀ x ∈ b.orders, x.id = o.id → x = o := fun x hx heq =>
    List.inj_on_of_nodup_map hnd hx (mem_orders.mpr ⟨s, ho⟩) heq
  rw [orders, List.map_append] at hnd
  have hself : ∀ t, o ∈ b.queue t → (b.queue t).find? (fun x => x.id == o.id) = some o := by
    intro t ht
    cases hf : (b.queue t).find? fun x => x.id == o.id with
    | none =>
      have := List.find?_eq_none.mp hf o ht
      simp at this
    | some x =>
      have hid : x.id = o.id := by simpa using List.find?_some hf
      rw [huniq x (mem_orders.mpr ⟨t, List.mem_of_find?_eq_some hf⟩) hid]
  rw [find]
  cases s with
  | buy => rw [hself .buy ho]
  | sell =>
    have hno : (b.queue .buy).find? (fun x => x.id == o.id) = none := by
      rw [List.find?_eq_none]
      intro x hx heq
      have hid : x.id = o.id := by simpa using heq
      exact List.disjoint_of_nodup_append hnd (List.mem_map_of_mem hx)
        (hid ▸ List.mem_map_of_mem ho)
    rw [hno, hself .sell ho]
    rfl

/-- **The inversion of a call**: a submission, a rejection, a removal or a pop. -/
inductive Answered (policy : SelfTradePolicy) (b : PriorityBook) :
    Call → Reply × List Act × PriorityBook → Prop
  | submitted (c : Call) (x : Submission) (hx : b.submission policy c = some x) :
      Answered policy b c (.report x.execute.1, x.execute.2)
  | rejected (c : Call) (qty : Quantity) (hx : b.submission policy c = none) (hpop : c ≠ .pop)
      (hc : ∀ id, c ≠ .cancel id) (hlive : ∀ id p q, c = .modify id p q → b.live id = false) :
      Answered policy b c (.report { accepted := false, remaining := qty }, [], b)
  | cancelled (id : OrderId) :
      Answered policy b (.cancel id) (.cancelled (b.live id), [], b.remove id)
  | emptied (id : OrderId) (p : Price) (hlive : b.live id = true) :
      Answered policy b (.modify id p 0) (.report {}, [], b.remove id)
  | popped : Answered policy b .pop (.popped none, [], b)

theorem answered (policy : SelfTradePolicy) (b : PriorityBook) (c : Call) :
    Answered policy b c (b.perform policy c) := by
  cases c with
  | addLimit id owner side price qty =>
    unfold perform submit
    by_cases hrej : (qty = 0 || b.live id) = true
    · simp only [hrej, if_true]
      exact .rejected _ _ (by simp only [submission, hrej, if_true]) (by simp) (by simp)
        (by simp)
    · simp only [hrej]
      exact .submitted _ ⟨b, _, qty, true⟩ (by simp only [submission, hrej]; rfl)
  | addMarket id owner side qty =>
    unfold perform submit
    by_cases hrej : (qty = 0 || b.live id) = true
    · simp only [hrej, if_true]
      exact .rejected _ _ (by simp only [submission, hrej, if_true]) (by simp) (by simp)
        (by simp)
    · simp only [hrej]
      exact .submitted _ ⟨b, _, qty, false⟩ (by simp only [submission, hrej]; rfl)
  | cancel id => exact .cancelled id
  | modify id newPrice newQty =>
    cases hfind : b.find id with
    | none =>
      simp only [perform, hfind]
      refine .rejected _ _ (by simp only [submission, hfind]) (by simp) (by simp) fun id' p q heq => ?_
      obtain rfl : id = id' := (Call.modify.inj heq).1
      exact find_eq_none.mp hfind
    | some o =>
      simp only [perform, hfind]
      by_cases hzero : newQty = 0
      · subst hzero
        rw [if_pos rfl]
        refine .emptied id newPrice (Bool.of_not_eq_false fun hdead => ?_)
        rw [find_eq_none.mpr hdead] at hfind
        simp at hfind
      · have hgo : ¬ (newQty = 0 || (b.remove id).live id) = true := by
          simp [hzero, live_remove_self]
        rw [if_neg hzero, submit, if_neg hgo]
        refine .submitted _ ⟨b.remove id, ⟨policy, id, o.owner, o.side, some newPrice⟩, newQty, true⟩ ?_
        simp only [submission, hfind, if_neg hzero]
  | pop => exact .popped

/-- **A call with a submission behind it** is that submission. -/
theorem perform_of_submission (h : b.submission policy c = some x) :
    b.perform policy c = (.report x.execute.1, x.execute.2) := by
  have hans := answered policy b c
  generalize b.perform policy c = r at hans ⊢
  cases hans with
  | submitted c x' hx =>
    rw [h] at hx
    obtain rfl := Option.some.inj hx
    rfl
  | rejected c qty hx hpop hc hlive =>
    rw [h] at hx
    simp at hx
  | cancelled id => simp [submission] at h
  | emptied id p hlive =>
    unfold submission at h
    simp only [if_true] at h
    split at h <;> simp at h
  | popped => simp [submission] at h

/-- What a submission finds: a wanted quantity, and a book its id is not in. -/
structure Submission.Fresh (policy : SelfTradePolicy) (b : PriorityBook) (c : Call)
    (x : Submission) : Prop where
  limitId : c.limitId = if x.restLeftover then some x.taker.id else none
  qty : x.qty ≠ 0
  live : x.book.live x.taker.id = false
  policy : x.taker.policy = policy
  book : x.book = b ∨ x.book = b.remove x.taker.id
  rests : x.restLeftover = x.taker.limit.isSome

theorem submission_fresh (h : b.submission policy c = some x) :
    x.Fresh policy b c := by
  unfold submission at h
  split at h
  · split at h
    · simp at h
    · rename_i hgo
      obtain rfl := Option.some.inj h
      have hgo' := by simpa using hgo
      exact ⟨rfl, hgo'.1, hgo'.2, rfl, Or.inl rfl, rfl⟩
  · split at h
    · simp at h
    · rename_i hgo
      obtain rfl := Option.some.inj h
      have hgo' := by simpa using hgo
      exact ⟨rfl, hgo'.1, hgo'.2, rfl, Or.inl rfl, rfl⟩
  · split at h
    · simp at h
    · split at h
      · simp at h
      · rename_i hzero
        obtain rfl := Option.some.inj h
        exact ⟨rfl, hzero, live_remove_self b _, rfl, Or.inr rfl, rfl⟩
  · simp at h
  · simp at h

/-- The calls behind a submission. -/
inductive Submits (policy : SelfTradePolicy) (b : PriorityBook) : Call → Submission → Prop
  | addLimit {id : OrderId} {owner : ParticipantId} {side : Side} {price : Price} {qty : Quantity}
      (hqty : qty ≠ 0) (hdead : b.live id = false) :
      Submits policy b (.addLimit id owner side price qty)
        ⟨b, ⟨policy, id, owner, side, some price⟩, qty, true⟩
  | addMarket {id : OrderId} {owner : ParticipantId} {side : Side} {qty : Quantity}
      (hqty : qty ≠ 0) (hdead : b.live id = false) :
      Submits policy b (.addMarket id owner side qty) ⟨b, ⟨policy, id, owner, side, none⟩, qty, false⟩
  | modify {id : OrderId} {newPrice : Price} {newQty : Quantity} {o : Order}
      (hqty : newQty ≠ 0) (hfind : b.find id = some o) :
      Submits policy b (.modify id newPrice newQty)
        ⟨b.remove id, ⟨policy, id, o.owner, o.side, some newPrice⟩, newQty, true⟩

/-- **The inversion of a submission.** -/
theorem submits (h : b.submission policy c = some x) : Submits policy b c x := by
  cases c with
  | addLimit id owner side price qty =>
    rw [submission] at h
    split at h
    · simp at h
    · rename_i hgo
      have hgo' : qty ≠ 0 ∧ b.live id = false := by simpa using hgo
      obtain rfl := Option.some.inj h
      exact .addLimit hgo'.1 hgo'.2
  | addMarket id owner side qty =>
    rw [submission] at h
    split at h
    · simp at h
    · rename_i hgo
      have hgo' : qty ≠ 0 ∧ b.live id = false := by simpa using hgo
      obtain rfl := Option.some.inj h
      exact .addMarket hgo'.1 hgo'.2
  | cancel id => simp [submission] at h
  | modify id newPrice newQty =>
    cases hfind : b.find id with
    | none => simp [submission, hfind] at h
    | some o =>
      simp only [submission, hfind] at h
      split at h
      · simp at h
      · rename_i hqty
        obtain rfl := Option.some.inj h
        exact .modify hqty hfind
  | pop => simp [submission] at h

theorem Submission.after_queue_near (x : Submission) :
    x.after.queue x.taker.side = x.book.queue x.taker.side :=
  Function.update_of_ne x.taker.side.opposite_ne.symm _ _

theorem Submission.after_queue_far (x : Submission) :
    x.after.queue x.taker.side.opposite = x.walk.1 := Function.update_self ..

/-- A walk brings no id to life. -/
theorem Submission.after_not_live (x : Submission) (h : x.book.live id = false) :
    x.after.live id = false := by
  rw [not_live_iff] at h ⊢
  intro s o ho
  rcases Side.eq_or_eq_opposite x.taker.side s with rfl | rfl
  · rw [x.after_queue_near] at ho
    exact h _ o ho
  · rw [x.after_queue_far] at ho
    obtain ⟨o', ho', htag⟩ := sweep_mem ho
    rw [← (Prod.mk.inj htag).1]
    exact h _ o' ho'

end Queues

end PriorityBook

end Lob
