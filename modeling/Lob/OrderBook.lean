/-
# Lob.OrderBook — the book as the source keeps it, and its calls.

One order is spread over a pool slot, a price level of one of two ladders, and an entry of the id
index.  The matching loop is a small machine: `Ctl` is the place it stands at and `Matching.step`
the work up to the next place, so that a statement about every turn of the loop is a statement about
every state of the machine.  A call ends `undefined` where the source would loop for ever or read
through a null level; no call on a reachable book does.

`Event` is the one thing here that the source does not have: a record of each turn of the loop, with
the number of trades the ring held at that moment.
-/
import Lob.Lib.Machine
import Lob.LevelQueue
import Lob.PriceLadder
import Lob.IdIndex
import Lob.TradeRing

namespace Lob

open Lib.Machine

/-! ## Configuration and state -/

structure Config where
  selfTrade : SelfTradePolicy := .cancelResting
  tradeCapacity : UInt64 := 4096
  /-- Which allocator map nodes come from; here it only stands behind `Memory.node`. -/
  poolNodes : Bool := true
  expectedOrders : UInt64 := 0
  priceLevels : UInt64 := 1024
  priceBase : Option Price := none

structure OrderBook where
  /-- Every resting order, and its queue links. -/
  pool : OrderSlots
  bids : PriceLadder true
  asks : PriceLadder false
  /-- `OrderId` to slot and side. -/
  orderIndex : IdIndex UInt32
  tradeOut : TradeRing
  policy : SelfTradePolicy
  nextSeq : Sequence := 1

/-- A turn of the matching loop, with `trades().size()` when it was taken. -/
structure Event where
  act : Act
  held : Nat
  deriving DecidableEq, Repr

/-- An index entry's value: the order's slot, shifted up one bit, with the side in bit 0. -/
def indexValue (slot : SlotIndex) (side : Side) : UInt32 :=
  slot <<< 1 ||| (if side = .sell then 1 else 0)

def slotOf (value : UInt32) : SlotIndex := value >>> 1

def sideOf (value : UInt32) : Side := if value &&& 1 ≠ 0 then .sell else .buy

def kDefaultPoolSlots : Nat := 1024

/-- A window of `levels` prices centred on `price`, shifted to stay inside the price range. -/
def centredBase (price : Price) (levels : Nat) : Price :=
  if levels = 0 then price
  else
    let half := UInt64.ofNat (levels / 2)
    let highest := maxPrice - (UInt64.ofNat levels - 1)
    min (if half ≤ price then price - half else 0) highest

namespace OrderBook

/-- The ladder of a side. -/
def ladder (b : OrderBook) : (s : Side) → PriceLadder s.isBid
  | .buy => b.bids
  | .sell => b.asks

def setLadder (b : OrderBook) : (s : Side) → PriceLadder s.isBid → OrderBook
  | .buy, l => { b with bids := l }
  | .sell, l => { b with asks := l }

/-- The constructor; `scrub` is what releasing a slot leaves of its order.  `none` when a loop of a
container's constructor does not stop. -/
def new (scrub : RestingOrder → RestingOrder) (cfg : Config) : Option OrderBook :=
  let orders := if 0 < cfg.expectedOrders.toNat then cfg.expectedOrders.toNat else kDefaultPoolSlots
  match IdIndex.new orders, TradeRing.new cfg.tradeCapacity.toNat with
  | some index, some ring =>
    let bids := PriceLadder.new true cfg.priceLevels.toNat
    let asks := PriceLadder.new false cfg.priceLevels.toNat
    some {
      pool := SlotPool.new orders scrub
      bids := match cfg.priceBase with
        | some base => bids.place base
        | none => bids
      asks := match cfg.priceBase with
        | some base => asks.place base
        | none => asks
      orderIndex := index
      tradeOut := ring
      policy := cfg.selfTrade }
  | _, _ => none

/-! ## Queue maintenance -/

/-- `append` on a level of a side. -/
def appendAt (b : OrderBook) (s : Side) (level : LevelRef) (slot : SlotIndex) : OrderBook :=
  let r := append b.pool ((b.ladder s).deref level) slot
  { b with pool := r.1 }.setLadder s ((b.ladder s).store level r.2)

/-- `detach` on a level of a side. -/
def detachAt (b : OrderBook) (s : Side) (level : LevelRef) (slot : SlotIndex) : OrderBook :=
  let r := detach b.pool ((b.ladder s).deref level) slot
  { b with pool := r.1 }.setLadder s ((b.ladder s).store level r.2)

/-- `order_index.erase(id); detach(level, slot);` -/
def drop (b : OrderBook) (s : Side) (level : LevelRef) (slot : SlotIndex) : Option OrderBook :=
  match b.orderIndex.erase (b.pool.slots slot).value.id with
  | none => none
  | some (_, index) => some ({ b with orderIndex := index }.detachAt s level slot)

/-- `closed` on a side. -/
def closeAt (b : OrderBook) (s : Side) (price : Price) : Option OrderBook :=
  ((b.ladder s).closed price).map (b.setLadder s)

/-- Places both sides' windows around `price`. -/
def placeWindows (b : OrderBook) (price : Price) : OrderBook :=
  let base := centredBase price b.bids.windowSize
  { b with bids := b.bids.place base, asks := b.asks.place base }

/-- `if (!book.placed()) place_windows(price);` -/
def placeFirst (b : OrderBook) (s : Side) (price : Price) : OrderBook :=
  if (b.ladder s).isPlaced then b else b.placeWindows price

end OrderBook

/-! ## The matching loop -/

/-- Where the matching loop stands. -/
inductive Ctl
  /-- At the test of the outer loop. -/
  | outer
  /-- At the test of the inner loop, on the level at `price`. -/
  | inner (price : Price) (level : LevelRef)
  /-- Past the inner loop. -/
  | leave (price : Price) (level : LevelRef)
  | done
  deriving DecidableEq, Repr

structure Matching where
  book : OrderBook
  incoming : Order
  rep : ExecReport := {}
  ctl : Ctl := .outer
  events : List Event := []

namespace Matching

/-- The side the taker walks. -/
def far (m : Matching) : Side := m.incoming.side.opposite

def record (m : Matching) (act : Act) : List Event := m.events ++ [⟨act, m.book.tradeOut.size⟩]

/-- Only an owned taker under a preventing policy ever compares owners. -/
def stpPossible (m : Matching) : Bool :=
  decide (m.book.policy ≠ .allow) && decide (m.incoming.owner ≠ kAnonymous)

/-- The trade: both quantities fall, the level's total with them, and the trade is printed. -/
def fill (m : Matching) (levelPrice : Price) (level : LevelRef) (slot : SlotIndex) : Matching :=
  let resting := (m.book.pool.slots slot).value
  let traded := min m.incoming.qty resting.qty
  let l := (m.book.ladder m.far).deref level
  let t : Trade := ⟨m.book.nextSeq, resting.id, m.incoming.id, levelPrice, traded, m.incoming.side⟩
  { m with
    incoming := { m.incoming with qty := m.incoming.qty - traded }
    rep := { m.rep with
      firstSeq := if m.rep.tradeCount = 0 then m.book.nextSeq else m.rep.firstSeq
      tradeCount := m.rep.tradeCount + 1
      filled := m.rep.filled + traded }
    events := m.record (.fill t)
    book := ({ m.book with
        pool := m.book.pool.write slot fun s =>
          { s with value := { s.value with qty := s.value.qty - traded } }
        nextSeq := m.book.nextSeq + 1
        tradeOut := (m.book.tradeOut.push t).2 }).setLadder m.far
      ((m.book.ladder m.far).store level { l with totalQty := l.totalQty - traded.toUInt64 }) }

/-- The body of the inner loop, on the oldest order of the level. -/
def visit (m : Matching) (levelPrice : Price) (level : LevelRef) (slot : SlotIndex) :
    Option Matching :=
  let resting := (m.book.pool.slots slot).value
  if m.stpPossible && m.incoming.owner == resting.owner then
    if m.book.policy = .cancelIncoming then
      -- the taker stops dead, its unfilled quantity intact
      some { m with rep := { m.rep with stpHalted := true }, ctl := .leave levelPrice level }
    else
      (m.book.drop m.far level slot).map fun b =>
        { m with
          book := b
          rep := { m.rep with stpCancelled := m.rep.stpCancelled + resting.qty.toUInt64 }
          events := m.record (.stpCancel resting) }
  else
    let m := m.fill levelPrice level slot
    -- a resting order with nothing left goes, and its level stays until the walk leaves it
    if (m.book.pool.slots slot).value.qty = 0 then
      (m.book.drop m.far level slot).map fun b => { m with book := b }
    else some m

/-- The loop from one place to the next; `none` where the source leaves its data structures. -/
def step (limit : Option Price) (m : Matching) : Option Matching :=
  match m.ctl with
  | .done => some m
  | .outer =>
    if 0 < m.incoming.qty then
      match (m.book.ladder m.far).best with
      | none => some { m with ctl := .done }
      | some (levelPrice, level) =>
        if crosses m.incoming.side limit levelPrice then
          some { m with ctl := .inner levelPrice level }
        else some { m with ctl := .done }
    else some { m with ctl := .done }
  | .inner levelPrice level =>
    let l := (m.book.ladder m.far).deref level
    if decide (0 < m.incoming.qty) && !l.empty then m.visit levelPrice level l.head
    else some { m with ctl := .leave levelPrice level }
  | .leave levelPrice level =>
    let next : Ctl := if m.rep.stpHalted then .done else .outer
    if ((m.book.ladder m.far).deref level).empty then
      (m.book.closeAt m.far levelPrice).map fun b => { m with book := b, ctl := next }
    else some { m with ctl := next }

end Matching

namespace OrderBook

/-- `match`: walk the opposite book best-price-first.  Every level is entered and left once and every
resting order consumed once, which bounds the steps. -/
def matchOpposite (b : OrderBook) (incoming : Order) (limit : Option Price) : Option Matching :=
  runUntil (fun m => m.ctl == .done) (Matching.step limit) (5 * b.pool.live + 2)
    { book := b, incoming := incoming }

/-! ## Calls -/

/-- Rest an order: each of the three allocations may throw, and nothing is rolled back. -/
def insert (mem : Memory) (b : OrderBook) (s : Side) (order : Order) : Result OrderBook Unit :=
  let b := b.placeFirst s order.price
  match (b.ladder s).openLevel mem.node order.price with
  | .undefined => .undefined
  | .throws e l => .throws e (b.setLadder s l)
  | .ok level l =>
    let b := b.setLadder s l
    match b.pool.acquire mem.slots with
    | .undefined => .undefined
    | .throws e pool => .throws e { b with pool := pool }
    | .ok slot pool =>
      let b := { b with pool := pool }
      -- the top bit of an index value is the side
      if 2 ^ 31 ≤ slot.toNat then .throws .lengthError b
      else
        let b := { b with pool := b.pool.write slot fun x =>
          { x with value := ⟨order.id, order.price, order.qty, order.owner⟩ } }
        let b := b.appendAt s level slot
        match b.orderIndex.insert mem.table order.id (indexValue slot order.side) with
        | .undefined => .undefined
        | .throws e index => .throws e { b with orderIndex := index }
        | .ok _ index => .ok () { b with orderIndex := index }

/-- Take a resting order off its level. -/
def remove (b : OrderBook) (s : Side) (slot : SlotIndex) : Option OrderBook :=
  let price := (b.pool.slots slot).value.price
  match (b.ladder s).find price with
  | none => none
  | some level =>
    let b := b.detachAt s level slot
    if ((b.ladder s).deref level).empty then b.closeAt s price else some b

/-- A report, with the turns of the matching loop behind it. -/
structure Executed where
  report : ExecReport
  events : List Event := []

def submit (mem : Memory) (b : OrderBook) (id : OrderId) (owner : ParticipantId) (side : Side)
    (limit : Option Price) (qty : Quantity) (restLeftover : Bool) : Result OrderBook Executed :=
  -- ids must be unique while live
  match if qty = 0 then some true else b.orderIndex.contains id with
  | none => .undefined
  | some true => .ok { report := { accepted := false, remaining := qty } } b
  | some false =>
    match b.matchOpposite ⟨id, owner, limit.getD 0, qty, side⟩ limit with
    | none => .undefined
    | some m =>
      let rep := { m.rep with remaining := m.incoming.qty }
      -- a taker halted by self-trade prevention drops its remainder
      if restLeftover && decide (0 < m.incoming.qty) && !m.rep.stpHalted then
        match m.book.insert mem side m.incoming with
        | .undefined => .undefined
        | .throws e b => .throws e b
        | .ok _ b => .ok { report := { rep with rested := true }, events := m.events } b
      else .ok { report := rep, events := m.events } m.book

def addLimit (mem : Memory) (b : OrderBook) (id : OrderId) (owner : ParticipantId) (side : Side)
    (price : Price) (qty : Quantity) : Result OrderBook Executed :=
  b.submit mem id owner side (some price) qty true

/-- No limit, and nothing rests. -/
def addMarket (mem : Memory) (b : OrderBook) (id : OrderId) (owner : ParticipantId) (side : Side)
    (qty : Quantity) : Result OrderBook Executed :=
  b.submit mem id owner side none qty false

/-- Remove a resting order. False if the id is not live. -/
def cancel (b : OrderBook) (id : OrderId) : Option (Bool × OrderBook) :=
  match b.orderIndex.take id with
  | none => none
  | some (none, _) => some (false, b)
  | some (some entry, index) =>
    (({ b with orderIndex := index } : OrderBook).remove (sideOf entry) (slotOf entry)).map
      fun b => (true, b)

/-- Cancel plus add: the order keeps its id and owner but loses time priority. -/
def modify (mem : Memory) (b : OrderBook) (id : OrderId) (newPrice : Price) (newQty : Quantity) :
    Result OrderBook Executed :=
  match b.orderIndex.find id with
  | none => .undefined
  | some none => .ok { report := { accepted := false, remaining := newQty } } b
  | some (some entry) =>
    -- the owner is read before the cancel recycles the slot
    let owner := (b.pool.slots (slotOf entry)).value.owner
    match b.cancel id with
    | none => .undefined
    | some (_, b) =>
      if newQty = 0 then .ok { report := {} } b
      else b.addLimit mem id owner (sideOf entry) newPrice newQty

/-! ## Queries -/

def bestBid (b : OrderBook) : Option Price := b.bids.bestPrice

def bestAsk (b : OrderBook) : Option Price := b.asks.bestPrice

def qtyAt (b : OrderBook) (side : Side) (price : Price) : Volume :=
  match (b.ladder side).find price with
  | none => 0
  | some level => ((b.ladder side).deref level).totalQty

def size (b : OrderBook) : Nat := b.orderIndex.count

/-- `for (i = head; i != kNoSlot; i = pool[i].next)`: the slots of the walk. -/
def walk (pool : OrderSlots) : Nat → SlotIndex → Option (List SlotIndex)
  | fuel, i =>
    if i = kNoSlot then some []
    else
      match fuel with
      | 0 => none
      | fuel + 1 => (walk pool fuel (pool.slots i).next).map (i :: ·)

/-- The slots of a level, oldest first. -/
def slotsAt (b : OrderBook) (level : PriceLevel) : Option (List SlotIndex) :=
  walk b.pool b.pool.used level.head

def orderCountAt (b : OrderBook) (side : Side) (price : Price) : Option Nat :=
  match (b.ladder side).find price with
  | none => some 0
  | some level => (b.slotsAt ((b.ladder side).deref level)).map List.length

/-- A copy of the resting order, or nothing. -/
def find (b : OrderBook) (id : OrderId) : Option (Option Order) :=
  (b.orderIndex.find id).map fun entry => entry.map fun e =>
    (b.pool.slots (slotOf e)).value.toOrder (sideOf e)

/-- The orders of some levels, level by level. -/
def ordersIn (b : OrderBook) : List (Price × PriceLevel) → Option (List RestingOrder)
  | [] => some []
  | e :: es =>
    match b.slotsAt e.2, b.ordersIn es with
    | some slots, some os => some (slots.map (fun i => (b.pool.slots i).value) ++ os)
    | _, _ => none

/-- One side of `for_each_resting`. -/
def restingOn (b : OrderBook) (s : Side) : Option (List RestingOrder) :=
  b.ordersIn (b.ladder s).forEachLevel

/-- Every resting order in book order. -/
def forEachResting (b : OrderBook) : Option (List Order) :=
  match b.restingOn .buy, b.restingOn .sell with
  | some bids, some asks =>
    some (bids.map (RestingOrder.toOrder .buy) ++ asks.map (RestingOrder.toOrder .sell))
  | _, _ => none

/-- Levels opened in the fallback map rather than the array, ever. -/
def levelsOpenedOutsideWindow (b : OrderBook) : UInt64 := b.bids.outsideOpens + b.asks.outsideOpens

/-! ## The assertions of `check_invariants` -/

/-- The back links of a walk agree with its forward links. -/
def linksBack (pool : OrderSlots) : SlotIndex → List SlotIndex → Bool
  | _, [] => true
  | prev, i :: is => (pool.slots i).prev == prev && linksBack pool i is

/-- The index points at this exact slot. -/
def indexed (b : OrderBook) (side : Side) (i : SlotIndex) : Bool :=
  match b.orderIndex.find (b.pool.slots i).value.id with
  | some (some e) => slotOf e == i && sideOf e == side
  | _ => false

def checkLevel (b : OrderBook) (side : Side) (price : Price) (level : PriceLevel) : Bool :=
  match b.slotsAt level with
  | none => false
  | some slots =>
    !level.empty && linksBack b.pool kNoSlot slots
      && (slots.all fun i => (b.pool.slots i).value.price == price
            && decide (0 < (b.pool.slots i).value.qty) && b.indexed side i)
      && slots.getLastD kNoSlot == level.tail
      && slots.foldl (fun sum i => sum + (b.pool.slots i).value.qty.toUInt64) 0 == level.totalQty
      && decide (0 < level.totalQty)

def checkSide (b : OrderBook) (side : Side) : Bool :=
  (b.ladder side).check && (b.ladder side).forEachLevel.all fun e => b.checkLevel side e.1 e.2

def checkInvariants (b : OrderBook) : Bool :=
  b.checkSide .buy && b.checkSide .sell &&
    match b.forEachResting with
    | none => false
    | some os =>
      os.length == b.orderIndex.count && b.pool.live == os.length && b.pool.consistent
        && b.orderIndex.consistent
        && match b.bestBid, b.bestAsk with
          | some bid, some ask => decide (bid < ask)
          | _, _ => true

/-! ## Where a call enters the matching loop, and `insert`

No function of the source: these name the places inside a call that statements refer to. -/

/-- An accepted order on its way into the matching loop, and the book it finds there. -/
structure Attempt where
  book : OrderBook
  incoming : Order
  limit : Option Price
  restLeftover : Bool

/-- The state the loop starts in. -/
def Attempt.start (x : Attempt) : Matching := { book := x.book, incoming := x.incoming }

/-- The book at the end of matching and the leftover, when the leftover is to rest. -/
def Attempt.insertPoint (x : Attempt) : Option (OrderBook × Order) :=
  (x.book.matchOpposite x.incoming x.limit).bind fun m =>
    if x.restLeftover && decide (0 < m.incoming.qty) && !m.rep.stpHalted then
      some (m.book, m.incoming)
    else none

/-- What `submit` sends into the loop; nothing when it rejects the order. -/
def attempt (b : OrderBook) (incoming : Order) (limit : Option Price) (restLeftover : Bool) :
    Option Attempt :=
  if incoming.qty = 0 ∨ b.orderIndex.contains incoming.id ≠ some false then none
  else some ⟨b, incoming, limit, restLeftover⟩

/-- What a call sends into the loop; a modify does so after its cancel. -/
def attemptOf (b : OrderBook) : Call → Option Attempt
  | .addLimit id owner side price qty => b.attempt ⟨id, owner, price, qty, side⟩ (some price) true
  | .addMarket id owner side qty => b.attempt ⟨id, owner, 0, qty, side⟩ none false
  | .modify id newPrice newQty =>
    match b.orderIndex.find id, b.cancel id with
    | some (some entry), some (_, b') =>
      b'.attempt ⟨id, (b.pool.slots (slotOf entry)).value.owner, newPrice, newQty, sideOf entry⟩
        (some newPrice) true
    | _, _ => none
  | .cancel _ => none
  | .pop => none

/-- Where a call enters `insert`. -/
def insertPoint (b : OrderBook) (c : Call) : Option (OrderBook × Order) :=
  (b.attemptOf c).bind Attempt.insertPoint

/-! ## Runs -/

/-- Make one call. -/
def perform (mem : Memory) (b : OrderBook) : Call → Result OrderBook (Reply × List Event)
  | .addLimit id owner side price qty =>
    match b.addLimit mem id owner side price qty with
    | .ok r b => .ok (.report r.report, r.events) b
    | .throws e b => .throws e b
    | .undefined => .undefined
  | .addMarket id owner side qty =>
    match b.addMarket mem id owner side qty with
    | .ok r b => .ok (.report r.report, r.events) b
    | .throws e b => .throws e b
    | .undefined => .undefined
  | .cancel id =>
    match b.cancel id with
    | some (r, b) => .ok (.cancelled r, []) b
    | none => .undefined
  | .modify id newPrice newQty =>
    match b.modify mem id newPrice newQty with
    | .ok r b => .ok (.report r.report, r.events) b
    | .throws e b => .throws e b
    | .undefined => .undefined
  | .pop => .ok (.popped b.tradeOut.pop.1, []) { b with tradeOut := b.tradeOut.pop.2 }

/-- One call of a run: the book before it, what was asked and answered, and the book after it. -/
structure Record where
  before : OrderBook
  call : Call
  reply : Reply
  events : List Event
  after : OrderBook

/-- The books reached from `b₀` by calls none of which threw, with their histories, newest first. -/
inductive Run (b₀ : OrderBook) : List Record → OrderBook → Prop
  | start : Run b₀ [] b₀
  | call {past : List Record} {b b' : OrderBook} (mem : Memory) (c : Call) (r : Reply)
      (events : List Event) (hrun : Run b₀ past b) (hcall : b.perform mem c = .ok (r, events) b') :
      Run b₀ (⟨b, c, r, events, b'⟩ :: past) b'

end OrderBook

end Lob
