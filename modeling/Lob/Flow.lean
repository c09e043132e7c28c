/-
# Lob.Flow — the benchmark's flow generator as the source keeps it.

The generator drives its own copy of the book.  It draws each operation from a seeded stream of
words, looks at the book for what is live and where the touches stand, appends the operation to the
flow and applies it.  Draws only read and advance the stream, so they are programs of their own
(`Roll`); the members that change the generator are `Gen`, and fail where an exception leaves the
source.  An allocation that fails ends the generation, so the generator's book is given every one it
asks for: only a flow whose generator got them all is there to be replayed.

What the generator observes for its report, the hashes and the spread histogram, decides nothing of the
flow and is left out.  `Emission.through` is the one thing here that the source does not keep.
-/
import Lob.Lib.Draws
import Lob.OrderBook

namespace Lob.Flow

open Lib.Draws

/-! ## Operations -/

inductive Kind
  | add
  | cancel
  | modify
  | marketable
  deriving DecidableEq, Repr

structure Op where
  id : OrderId
  /-- Unused by cancels and market orders. -/
  price : Price
  qty : Quantity
  owner : ParticipantId
  kind : Kind
  side : Side
  /-- Marketable only: `add_market` rather than a crossing limit. -/
  market : Bool
  deriving DecidableEq, Repr

/-- `apply`: the single engine call an op maps to. -/
def Op.call (op : Op) : Call :=
  match op.kind with
  | .add => .addLimit op.id op.owner op.side op.price op.qty
  | .cancel => .cancel op.id
  | .modify => .modify op.id op.price op.qty
  | .marketable =>
    if op.market then .addMarket op.id op.owner op.side op.qty
    else .addLimit op.id op.owner op.side op.price op.qty

/-- What `apply` returns; cancels report through `accepted`. -/
def reportOf : Reply → ExecReport
  | .report rep => rep
  | .cancelled accepted => { accepted := accepted }
  | .popped _ => {}

structure Config where
  seed : UInt64 := 1
  /-- Timed operations, after the warm-up. -/
  ops : UInt64 := 2000000
  warmupOps : UInt64 := 300000
  addPercent : UInt32 := 50
  cancelPercent : UInt32 := 40
  modifyPercent : UInt32 := 5
  marketablePercent : UInt32 := 5
  /-- Resting orders built up before the warm-up, and that marketable sizing steers toward. -/
  targetDepth : UInt64 := 5000
  startMid : Price := 100000
  midStepPerMille : UInt32 := 10
  nearTouchPercent : UInt32 := 80
  nearDecayPercent : UInt32 := 50
  tailTicks : Price := 100
  recentPercent : UInt32 := 80
  recentDecayPercent : UInt32 := 90
  lot : Quantity := 100
  sizeDecayPercent : UInt32 := 50
  owners : ParticipantId := 50
  selfTrade : SelfTradePolicy := .cancelResting

def kTradeCapacity : UInt64 := 4096

/-- `std::vector<Op>::max_size()`: a push to a longer vector throws. -/
def maxOps : Nat := (2 ^ 63 - 1) / 32

/-! ## The stream of words -/

/-- The state of xorshift64*. -/
abbrev Rng := UInt64

abbrev Roll (α : Type) := Draw Rng α

def Rng.new (seed : UInt64) : Rng := if seed = 0 then 0x9E3779B97F4A7C15 else seed

def next : Roll UInt64 := do
  let state ← get
  let state := state ^^^ (state >>> 12)
  let state := state ^^^ (state <<< 25)
  let state := state ^^^ (state >>> 27)
  set state
  return state * 0x2545F4914F6CDD1D

/-- Uniform in `[0, n)`. -/
def below (n : UInt64) : Roll UInt64 :=
  if n = 0 then return 0 else return (← next) % n

def chance (percent : UInt32) : Roll Bool := return decide ((← below 100) < percent.toUInt64)

def chancePerMille (perMille : UInt32) : Roll Bool :=
  return decide ((← below 1000) < perMille.toUInt64)

/-- Consecutive successes, capped. -/
def geometric (percent cap : UInt32) : Roll UInt32 :=
  return UInt32.ofNat (← countWhile (chance percent) cap.toNat)

/-! ## Drawing an operation's fields -/

section Fields

variable (cfg : Config)

def randomSide : Roll Side := return if ← chance 50 then .buy else .sell

def randomOwner : Roll ParticipantId := return (1 + (← below cfg.owners.toUInt64)).toUInt32

def randomQty : Roll Quantity := return cfg.lot * (1 + (← geometric cfg.sizeDecayPercent 19))

/-- Ticks back from the touch. -/
def randomOffset : Roll Price := do
  if ← chance cfg.nearTouchPercent then
    return (← geometric cfg.nearDecayPercent cfg.tailTicks.toUInt32).toUInt64
  else below (cfg.tailTicks + 1)

/-- `passive_price`, past the draw of the offset: a price near the mid, pulled back from the far touch
where it would cross it. -/
def offTouch (mid : Price) (side : Side) (touch : Option Price) (off : Price) : Price :=
  match side, touch with
  | .buy, none => mid - off
  | .buy, some ask => if ask ≤ mid - off then ask - 1 else mid - off
  | .sell, none => mid + 1 + off
  | .sell, some bid => if mid + 1 + off ≤ bid then bid + 1 else mid + 1 + off

/-- The best price an order of a side could trade at. -/
def farTouch (book : OrderBook) : Side → Option Price
  | .buy => book.bestAsk
  | .sell => book.bestBid

def passivePrice (mid : Price) (book : OrderBook) (side : Side) : Roll Price :=
  return offTouch mid side (farTouch book side) (← randomOffset cfg)

/-- The resting orders a marketable op is sized to consume. -/
def takes (depth : Nat) : Roll Nat := do
  let pull : UInt32 :=
    if depth = 0 then 0
    else (1000 - min 1000 (500 * cfg.targetDepth / UInt64.ofNat depth)).toUInt32
  return 1 + (← countWhile (chancePerMille (min pull 950)) 63)

def takesQty (n : Nat) : Roll Quantity := foldDraws (randomQty cfg) (· + ·) n 0

/-- Whether a marketable op is a market order, and otherwise its price and how far past the touch it
is: 0 to 2 ticks. -/
def aim (side : Side) : Option Price → Roll (Bool × Price × Price)
  | none => return (true, 0, 0)
  | some touch => do
    if ← chance 50 then return (true, 0, 0)
    else
      let through ← below 3
      return (false, if side = .buy then touch + through else touch - through, through)

/-- The position of a live id to take: usually one of the newest. -/
def liveIndex (size : Nat) : Roll Nat := do
  if ← chance cfg.recentPercent then
    let cap := UInt32.ofNat (min (size - 1) 0xFFFFFFFF)
    return size - 1 - (← geometric cfg.recentDecayPercent cap).toNat
  else return (← below (UInt64.ofNat size)).toNat

end Fields

/-! ## The generator -/

/-- An op of the flow, with the ticks past the touch that were drawn for its price. -/
structure Emission where
  op : Op
  through : Price := 0
  deriving DecidableEq, Repr

structure Generator where
  /-- Shadow of the book the benchmark will time. -/
  book : OrderBook
  /-- Live order ids, oldest first, with stale ones among them. -/
  live : List OrderId := []
  mid : Price
  nextId : OrderId := 1
  /-- Mixed operations so far, for periodic sweeps. -/
  steps : UInt64 := 0
  /-- The flow so far, newest first. -/
  out : List Emission := []

abbrev Gen (α : Type) := Prog Rng Generator α

open Prog

/-- `while (book.trades().pop(t))`, with a bound on the pops. -/
def drain : Nat → TradeRing → Option TradeRing
  | 0, r => if r.pop.1.isSome then none else some r.pop.2
  | fuel + 1, r => if r.pop.1.isSome then drain fuel r.pop.2 else some r.pop.2

/-- Append an op to the flow, apply it and drain its trades. -/
def emit (e : Emission) : Gen Unit := do
  let g ← get
  if maxOps ≤ g.out.length then fail
  else
    match g.book.perform {} e.op.call with
    | .ok _ book =>
      match drain book.tradeOut.size book.tradeOut with
      | none => fail
      | some ring => set { g with out := e :: g.out, book := { book with tradeOut := ring } }
    | .throws _ _ => fail
    | .undefined => fail

/-- `next_id++`. -/
def issueId : Gen OrderId := do
  let g ← get
  set { g with nextId := g.nextId + 1 }
  return g.nextId

def push (id : OrderId) : Gen Unit := update fun g => { g with live := g.live ++ [id] }

/-- `book.find(id)`. -/
def findLive (id : OrderId) : Gen (Option Order) := do
  match (← get).book.find id with
  | none => fail
  | some found => return found

section Steps

variable (cfg : Config)

/-- `LivePool::take`, with a bound on the ids left to draw. -/
def takeFrom : Nat → Gen (Option OrderId)
  | 0 => return none
  | left + 1 => do
    let g ← get
    let idx ← draw (liveIndex cfg g.live.length)
    match g.live[idx]? with
    | none => fail
    | some id =>
      set { g with live := g.live.eraseIdx idx }
      -- an id that traded away is dropped, and another one is drawn
      if (← findLive id).isSome then return some id
      else takeFrom left

/-- Remove and return a live id. -/
def take : Gen (Option OrderId) := do takeFrom cfg (← get).live.length

/-- `LivePool::sweep`. -/
def sweep : Gen Unit := do
  let g ← get
  match g.live.filterM fun id => (g.book.find id).map Option.isSome with
  | none => fail
  | some live => set { g with live := live }

def walkMid : Gen Unit := do
  if ← draw (chance 50) then update fun g => { g with mid := g.mid + 1 }
  else update fun g => if cfg.tailTicks + 1 < g.mid then { g with mid := g.mid - 1 } else g

def add (side : Side) : Gen Unit := do
  let id ← issueId
  let g ← get
  let price ← draw (passivePrice cfg g.mid g.book side)
  let qty ← draw (randomQty cfg)
  let owner ← draw (randomOwner cfg)
  emit ⟨⟨id, price, qty, owner, .add, side, false⟩, 0⟩
  push id

/-- `add(random_side())`. -/
def addRandom : Gen Unit := do add cfg (← draw randomSide)

def cancel : Gen Unit := do
  match ← take cfg with
  -- nothing is live
  | none => addRandom cfg
  | some id => emit ⟨⟨id, 0, 0, 0, .cancel, .buy, false⟩, 0⟩

def modify : Gen Unit := do
  match ← take cfg with
  | none => addRandom cfg
  | some id =>
    match ← findLive id with
    | none => fail
    | some order =>
      let g ← get
      let price ← draw (passivePrice cfg g.mid g.book order.side)
      let qty ← draw (randomQty cfg)
      emit ⟨⟨id, price, qty, 0, .modify, order.side, false⟩, 0⟩
      push id

def marketable : Gen Unit := do
  let side ← draw randomSide
  let g ← get
  let n ← draw (takes cfg g.book.size)
  let qty ← draw (takesQty cfg n)
  let aimed ← draw (aim side (farTouch g.book side))
  let id ← issueId
  let owner ← draw (randomOwner cfg)
  emit ⟨⟨id, aimed.2.1, qty, owner, .marketable, side, aimed.1⟩, aimed.2.2⟩
  -- a market order leaves nothing to push
  if aimed.1 then return ()
  else if (← findLive id).isSome then push id
  else return ()

/-- One operation of the mixed flow. -/
def mixed : Gen Unit := do
  let roll ← draw (below 100)
  if decide (roll < cfg.addPercent.toUInt64) then addRandom cfg
  else if decide (roll < (cfg.addPercent + cfg.cancelPercent).toUInt64) then cancel cfg
  else if decide (roll < (cfg.addPercent + cfg.cancelPercent + cfg.modifyPercent).toUInt64) then
    modify cfg
  else marketable cfg

/-- `step`: a tick of the mid, an operation, and now and then a sweep of the live ids. -/
def step : Gen Unit := do
  if ← draw (chancePerMille cfg.midStepPerMille) then walkMid cfg
  mixed cfg
  update fun g => { g with steps := g.steps + 1 }
  if (← get).steps &&& 0xFFFF == 0 then sweep

def run : Gen Unit := do
  -- `reserve` throws on more than a vector can hold
  if decide (maxOps < (cfg.targetDepth + cfg.warmupOps + cfg.ops).toNat) then fail
  else
    times (addRandom cfg) cfg.targetDepth.toNat
    times (step cfg) cfg.warmupOps.toNat
    times (step cfg) cfg.ops.toNat

/-- The generator's own book. -/
def shadow (scrub : RestingOrder → RestingOrder) : Option OrderBook :=
  OrderBook.new scrub { selfTrade := cfg.selfTrade, tradeCapacity := kTradeCapacity }

/-- What the constructor accepts. -/
def accepts : Bool :=
  cfg.addPercent + cfg.cancelPercent + cfg.modifyPercent + cfg.marketablePercent == 100
    && decide (cfg.tailTicks + 1 < cfg.startMid)

/-- The constructor; nothing where it throws. -/
def Generator.new (scrub : RestingOrder → RestingOrder) : Option Generator :=
  if accepts cfg then (shadow cfg scrub).map fun book => { book := book, mid := cfg.startMid } else none

/-- `generate`: the generator at the end of its run; nothing where an exception leaves it. -/
def generate (scrub : RestingOrder → RestingOrder) : Option Generator :=
  (Generator.new cfg scrub).bind fun g => ((run cfg).exec g (Rng.new cfg.seed)).map fun r => r.1.2

end Steps

end Lob.Flow
