/-
# Lob.ReferenceBook — the deliberately naive book of the differential tests.

Every resting order lives in one flat vector and every operation is a linear scan: no price map, no
queue per level, no id index.  Arrival order is a counter in each record.  It shares no data structure
with the engine.
-/
import Lob.Lib.Scan
import Lob.Types

namespace Lob

open Lib.Scan

/-- `ref::ReferenceBook::Resting`. -/
structure Resting where
  id : OrderId
  owner : ParticipantId
  price : Price
  qty : Quantity
  side : Side
  /-- Lower arrives earlier. -/
  arrival : UInt64
  deriving DecidableEq, Repr

namespace Resting

/-- What the engine reports of a resting order. -/
def toOrder (r : Resting) : Order := ⟨r.id, r.owner, r.price, r.qty, r.side⟩

/-- `better_price || (same_price && r.arrival < b.arrival)`, among the orders of `makerSide`. -/
def precedes (makerSide : Side) (r b : Resting) : Bool :=
  (if makerSide = .sell then decide (r.price < b.price) else decide (b.price < r.price))
    || (r.price == b.price && decide (r.arrival < b.arrival))

/-- The comparator of `queue_snapshot`. -/
def less (a b : Resting) : Bool :=
  if a.side ≠ b.side then decide (a.side = .buy)
  else if a.price ≠ b.price then
    if a.side = .buy then decide (b.price < a.price) else decide (a.price < b.price)
  else decide (a.arrival < b.arrival)

end Resting

structure ReferenceBook where
  resting : List Resting := []
  tradeLog : List Trade := []
  policy : SelfTradePolicy
  nextArrival : UInt64 := 1
  nextSeq : Sequence := 1

namespace ReferenceBook

/-! ## Queries, all linear -/

def find (b : ReferenceBook) (id : OrderId) : Option Resting := b.resting.find? fun r => r.id == id

def bestPrice (b : ReferenceBook) (side : Side) : Option Price :=
  scan (fun r : Resting => if r.side = side then some r.price else none)
    (fun p best => if side = .buy then decide (best < p) else decide (p < best)) b.resting

def bestBid (b : ReferenceBook) : Option Price := b.bestPrice .buy

def bestAsk (b : ReferenceBook) : Option Price := b.bestPrice .sell

def qtyAt (b : ReferenceBook) (side : Side) (price : Price) : Volume :=
  b.resting.foldl (fun total r =>
    if r.side = side ∧ r.price = price then total + r.qty.toUInt64 else total) 0

def size (b : ReferenceBook) : Nat := b.resting.length

/-- Resting orders in queue order per side: price priority, then arrival. -/
def queueSnapshot (b : ReferenceBook) : List Resting := b.resting.mergeSort fun x y => !y.less x

/-- The position of the order a taker on `takerSide` should hit next, ignoring price limits. -/
def nextMaker (b : ReferenceBook) (takerSide : Side) : Option Nat :=
  (scan (fun p : Resting × Nat => if p.1.side = takerSide.opposite then some p else none)
    (fun p best => p.1.precedes takerSide.opposite best.1) b.resting.zipIdx).map Prod.snd

/-! ## Submissions -/

/-- The arguments of `submit`, but for the quantity. -/
structure Incoming where
  id : OrderId
  owner : ParticipantId
  side : Side
  price : Price
  isMarket : Bool

/-- The book and the locals of `submit` inside its loop. -/
structure Filling where
  book : ReferenceBook
  left : Quantity
  rep : ExecReport := {}

namespace Filling

/-- The maker's removal under `CancelResting`. -/
def cancelResting (i : Nat) (maker : Resting) (f : Filling) : Filling :=
  { f with
    rep := { f.rep with stpCancelled := f.rep.stpCancelled + maker.qty.toUInt64 }
    book := { f.book with resting := f.book.resting.eraseIdx i } }

/-- The trade, and the maker's removal when nothing of it is left. -/
def trade (o : Incoming) (i : Nat) (maker : Resting) (f : Filling) : Filling :=
  let traded := min f.left maker.qty
  let resting := f.book.resting.set i { maker with qty := maker.qty - traded }
  { left := f.left - traded
    rep := { f.rep with
      firstSeq := if f.rep.tradeCount = 0 then f.book.nextSeq else f.rep.firstSeq
      tradeCount := f.rep.tradeCount + 1
      filled := f.rep.filled + traded }
    book := { f.book with
      resting := if maker.qty - traded = 0 then resting.eraseIdx i else resting
      tradeLog := f.book.tradeLog ++ [⟨f.book.nextSeq, maker.id, o.id, maker.price, traded, o.side⟩]
      nextSeq := f.book.nextSeq + 1 } }

/-- The matching loop; `none` when the fuel runs out. -/
def loop (o : Incoming) : Nat → Filling → Option Filling
  | 0, _ => none
  | fuel + 1, f =>
    if f.left = 0 then some f
    else
      match f.book.nextMaker o.side with
      | none => some f
      | some i =>
        match f.book.resting[i]? with
        | none => none
        | some maker =>
          -- the limit price gate
          if !o.isMarket && !(if o.side = .buy then decide (maker.price ≤ o.price)
              else decide (maker.price ≥ o.price)) then some f
          else if decide (f.book.policy ≠ .allow) && decide (o.owner ≠ kAnonymous)
              && o.owner == maker.owner then
            if f.book.policy = .cancelIncoming then
              some { f with rep := { f.rep with stpHalted := true } }
            else loop o fuel (f.cancelResting i maker)
          else loop o fuel (f.trade o i maker)

end Filling

/-- Every pass of the loop but the last removes an order or ends the taker, which bounds the passes. -/
def submit (b : ReferenceBook) (o : Incoming) (qty : Quantity) :
    Option (ExecReport × ReferenceBook) :=
  if qty = 0 || (b.find o.id).isSome then some ({ accepted := false, remaining := qty }, b)
  else
    (Filling.loop o (b.resting.length + 1) { book := b, left := qty }).map fun f =>
      let rep := { f.rep with remaining := f.left }
      if !o.isMarket && decide (0 < f.left) && !rep.stpHalted then
        ({ rep with rested := true }, { f.book with
          resting := f.book.resting ++ [⟨o.id, o.owner, o.price, f.left, o.side, f.book.nextArrival⟩]
          nextArrival := f.book.nextArrival + 1 })
      else (rep, f.book)

/-! ## Calls -/

def addLimit (b : ReferenceBook) (id : OrderId) (owner : ParticipantId) (side : Side) (price : Price)
    (qty : Quantity) : Option (ExecReport × ReferenceBook) :=
  b.submit ⟨id, owner, side, price, false⟩ qty

def addMarket (b : ReferenceBook) (id : OrderId) (owner : ParticipantId) (side : Side)
    (qty : Quantity) : Option (ExecReport × ReferenceBook) :=
  b.submit ⟨id, owner, side, 0, true⟩ qty

def cancel (b : ReferenceBook) (id : OrderId) : Bool × ReferenceBook :=
  match b.resting.findIdx? fun r => r.id == id with
  | some i => (true, { b with resting := b.resting.eraseIdx i })
  | none => (false, b)

def modify (b : ReferenceBook) (id : OrderId) (newPrice : Price) (newQty : Quantity) :
    Option (ExecReport × ReferenceBook) :=
  match b.find id with
  | none => some ({ accepted := false, remaining := newQty }, b)
  | some live =>
    let b := (b.cancel id).2
    -- a modify to zero is a cancel
    if newQty = 0 then some ({}, b) else b.addLimit id live.owner live.side newPrice newQty

/-- Make one call; there is no trade ring to pop. -/
def perform (b : ReferenceBook) : Call → Option (Reply × ReferenceBook)
  | .addLimit id owner side price qty =>
    (b.addLimit id owner side price qty).map fun r => (.report r.1, r.2)
  | .addMarket id owner side qty => (b.addMarket id owner side qty).map fun r => (.report r.1, r.2)
  | .cancel id => some (.cancelled (b.cancel id).1, (b.cancel id).2)
  | .modify id newPrice newQty => (b.modify id newPrice newQty).map fun r => (.report r.1, r.2)
  | .pop => some (.popped none, b)

/-- The book after some calls, newest first. -/
def replay (policy : SelfTradePolicy) : List Call → Option ReferenceBook
  | [] => some { policy := policy }
  | c :: cs => (replay policy cs).bind fun b => (b.perform c).map Prod.snd

end ReferenceBook

end Lob
