/-
# Lob.Uses — what a call does to the components of the book, use by use.

The components check little and trust their caller.  `OrderBook.uses` lists, in the order of the
source, every use a call makes of a component whose contract the caller must keep, and every sum on a
quantity or a count, each with what it was given at that moment.  The uses read the states that the
operations of `Lob.OrderBook` pass through, so they say nothing of their own about where a call goes.

A history of uses is kept newest first, as a history of calls is.  `Use.InContract` says when a use is
allowed after a history, `Use.Exact` when a sum is the one over the integers.
-/
import Lob.PriceLadderRefine
import Lob.OrderBook

namespace Lob

open Lib.Machine

/-! ## Uses -/

/-- A sum on a quantity or a count, at its width; `inc` and `dec` are those of a `size_t`. -/
inductive Arith
  | add32 (x y : UInt32)
  | sub32 (x y : UInt32)
  | add64 (x y : UInt64)
  | sub64 (x y : UInt64)
  | inc (n : Nat)
  | dec (n : Nat)
  /-- `index_value(slot, side)`. -/
  | pack (slot : SlotIndex) (side : Side)

/-- The sum is the one over unbounded integers. -/
def Arith.Exact : Arith → Prop
  | add32 x y => ((x + y).toNat : Int) = x.toNat + y.toNat
  | sub32 x y => ((x - y).toNat : Int) = x.toNat - y.toNat
  | add64 x y => ((x + y).toNat : Int) = x.toNat + y.toNat
  | sub64 x y => ((x - y).toNat : Int) = x.toNat - y.toNat
  | inc n => n + 1 < 2 ^ 64
  | dec n => ((n - 1 : Nat) : Int) = n - 1
  | pack slot side => slotOf (indexValue slot side) = slot ∧ sideOf (indexValue slot side) = side

/-- A use of a component, with what it was given. -/
inductive Use
  /-- `pool.acquire()` handed out the slot. -/
  | acquire (slot : SlotIndex)
  /-- `pool[slot]`. -/
  | subscript (slot : SlotIndex)
  | release (b : OrderBook) (slot : SlotIndex)
  | detach (b : OrderBook) (s : Side) (price : Price) (level : LevelRef) (slot : SlotIndex)
  | indexInsert (index : IdIndex UInt32) (id : OrderId)
  | indexErase (index : IdIndex UInt32) (id : OrderId)
  /-- `window[i]`, of an array of that many levels. -/
  | window (size i : Nat)
  | nextOccupied (b : OrderBook) (s : Side) (i : Nat)
  | closed (b : OrderBook) (s : Side) (price : Price)
  /-- The assertion of `remove`. -/
  | levelFound (level : Option LevelRef)
  /-- The fallback map allocates a node, for a key it does not hold. -/
  | nodeNew (s : Side) (price : Price)
  /-- The fallback map frees the node of a key. -/
  | nodeFree (s : Side) (price : Price)
  | sum (x : Arith)

/-! ## Reading a history of uses -/

/-- The slot was handed out and has not been released since. -/
def handedOut (slot : SlotIndex) : List Use → Bool
  | [] => false
  | .acquire i :: past => i == slot || handedOut slot past
  | .release _ i :: past => i != slot && handedOut slot past
  | _ :: past => handedOut slot past

/-- The slot that was unlinked and is to be released. -/
def unlinked : List Use → Option SlotIndex
  | .detach _ _ _ _ slot :: _ => some slot
  | .release _ _ :: _ => none
  | _ :: past => unlinked past
  | [] => none

/-- The level that was emptied and is to be closed. -/
def emptied : List Use → Option (Side × Price)
  | .detach b s price level slot :: _ =>
    if (((b.detachAt s level slot).ladder s).deref level).empty then some (s, price) else none
  | .closed _ _ _ :: _ => none
  | _ :: past => emptied past
  | [] => none

/-- No level's ends and no link of another slot in use names the slot. -/
def Unnamed (b : OrderBook) (slot : SlotIndex) (past : List Use) : Prop :=
  (∀ s ref, ((b.ladder s).deref ref).head ≠ slot ∧ ((b.ladder s).deref ref).tail ≠ slot)
    ∧ ∀ i, handedOut i past = true → i ≠ slot →
        (b.pool.slots i).next ≠ slot ∧ (b.pool.slots i).prev ≠ slot

/-- What the component asks of its caller. -/
def Use.InContract (past : List Use) : Use → Prop
  | acquire slot => handedOut slot past = false
  | subscript slot => handedOut slot past = true
  | release b slot => handedOut slot past = true ∧ unlinked past = some slot ∧ Unnamed b slot past
  | detach b s price level slot =>
    -- the level is the one at the price, and a walk of its queue meets the slot
    unlinked past = none ∧ emptied past = none ∧ (b.ladder s).find price = some level
      ∧ ∃ slots, b.slotsAt ((b.ladder s).deref level) = some slots ∧ slot ∈ slots
  | indexInsert index id => index.find id = some none
  | indexErase index id => ∃ value, index.find id = some (some value)
  | window size i => i < size
  | nextOccupied b s i =>
    ∃ j < (b.ladder s).windowSize, PriceLadder.indexBetter s.isBid i j
      ∧ ((b.ladder s).window j).empty = false
  | closed b s price =>
    emptied past = some (s, price) ∧ ((b.ladder s).deref ((b.ladder s).refOf price)).empty = true
  | levelFound level => level.isSome
  | nodeNew _ _ | nodeFree _ _ | sum _ => True

/-- A sum is exact. -/
def Use.Exact : Use → Prop
  | sum x => x.Exact
  | _ => True

/-- Every use of a history satisfies `P`, given the uses before it. -/
def Throughout (P : List Use → Use → Prop) : List Use → Prop
  | [] => True
  | u :: past => P past u ∧ Throughout P past

/-! ## The uses of each operation -/

namespace PriceLadder

variable {isBid : Bool}

/-- The subscripts of `do --i; while (window[i].empty())`; below 0 the index wraps. -/
def scannedDown (window : Nat → PriceLevel) : Nat → List Nat
  | 0 => [2 ^ 64 - 1]
  | i + 1 => i :: if (window i).empty then scannedDown window i else []

/-- The subscripts of `do ++i; while (window[i].empty())`. -/
def scannedUp (window : Nat → PriceLevel) : Nat → Nat → List Nat
  | 0, i => [i + 1]
  | fuel + 1, i => (i + 1) :: if (window (i + 1)).empty then scannedUp window fuel (i + 1) else []

/-- The subscripts of `next_occupied(i)`. -/
def scanned (l : PriceLadder isBid) (i : Nat) : List Nat :=
  if isBid then scannedDown l.window i else scannedUp l.window (l.windowSize - 1 - i) i

/-- `find(price)`. -/
def findUses (l : PriceLadder isBid) (price : Price) : List Use :=
  if l.inWindow price then [.window l.windowSize (l.index price)] else []

/-- `best(price)`. -/
def bestUses (l : PriceLadder isBid) : List Use :=
  if 0 < l.occupied then [.window l.windowSize l.bestIdx] else []

end PriceLadder

/-- `detach` up to its `release`. -/
def unlink (pool : OrderSlots) (level : PriceLevel) (slot : SlotIndex) : OrderSlots × PriceLevel :=
  let s := pool.slots slot
  let pool₁ := if s.prev ≠ kNoSlot then pool.write s.prev fun x => { x with next := s.next }
               else pool
  let head := if s.prev ≠ kNoSlot then level.head else s.next
  let s := pool₁.slots slot
  let pool₂ := if s.next ≠ kNoSlot then pool₁.write s.next fun x => { x with prev := s.prev }
               else pool₁
  let tail := if s.next ≠ kNoSlot then level.tail else s.prev
  let s := pool₂.slots slot
  (pool₂, { totalQty := level.totalQty - s.value.qty.toUInt64, head := head, tail := tail })

theorem detach_eq_unlink (pool : OrderSlots) (level : PriceLevel) (slot : SlotIndex) :
    detach pool level slot
      = ((unlink pool level slot).1.release slot, (unlink pool level slot).2) := rfl

namespace OrderBook

/-- The book when `detach` calls `release`. -/
def unlinkAt (b : OrderBook) (s : Side) (level : LevelRef) (slot : SlotIndex) : OrderBook :=
  let r := unlink b.pool ((b.ladder s).deref level) slot
  { b with pool := r.1 }.setLadder s ((b.ladder s).store level r.2)

/-- `open(price)`. -/
def openUses (b : OrderBook) (s : Side) (price : Price) : List Use :=
  let l := b.ladder s
  if l.inWindow price then
    .window l.windowSize (l.index price)
      :: if (l.window (l.index price)).empty then [.sum (.inc l.occupied)] else []
  else if (l.overflow.find price).isNone then [.nodeNew s price] else []

/-- `closed(price)`. -/
def closeUses (b : OrderBook) (s : Side) (price : Price) : List Use :=
  let l := b.ladder s
  .closed b s price ::
    if l.inWindow price then
      .sum (.dec l.occupied) ::
        if 0 < l.occupied - 1 ∧ l.index price = l.bestIdx then
          .nextOccupied b s l.bestIdx :: (l.scanned l.bestIdx).map (.window l.windowSize)
        else []
    else if (l.overflow.find price).isSome then [.nodeFree s price] else []

/-- `append(level, slot)`. -/
def appendUses (b : OrderBook) (s : Side) (level : LevelRef) (slot : SlotIndex) : List Use :=
  let l := (b.ladder s).deref level
  .subscript slot :: (if l.tail ≠ kNoSlot then [.subscript l.tail] else [])
    ++ [.sum (.add64 l.totalQty (b.pool.slots slot).value.qty.toUInt64)]

/-- `detach(level, slot)` up to its `release`. -/
def unlinkUses (b : OrderBook) (s : Side) (level : LevelRef) (slot : SlotIndex) : List Use :=
  let x := b.pool.slots slot
  .subscript slot :: (if x.prev ≠ kNoSlot then [.subscript x.prev] else [])
    ++ (if x.next ≠ kNoSlot then [.subscript x.next] else [])
    ++ [.sum (.sub64 ((b.ladder s).deref level).totalQty x.value.qty.toUInt64)]

/-- `detach(level, slot)`, on the level at `price`. -/
def detachUses (b : OrderBook) (s : Side) (price : Price) (level : LevelRef) (slot : SlotIndex) :
    List Use :=
  .detach b s price level slot :: b.unlinkUses s level slot
    ++ [.release (b.unlinkAt s level slot) slot, .sum (.dec b.pool.live)]

/-- `order_index.erase(id); detach(level, slot);` -/
def dropUses (b : OrderBook) (s : Side) (price : Price) (level : LevelRef) (slot : SlotIndex) :
    List Use :=
  let id := (b.pool.slots slot).value.id
  [.indexErase b.orderIndex id, .sum (.dec b.orderIndex.count)] ++
    match b.orderIndex.erase id with
    | none => []
    | some (_, index) => { b with orderIndex := index }.detachUses s price level slot

end OrderBook

namespace Matching

/-- The sums of a trade. -/
def fillUses (m : Matching) (level : LevelRef) (slot : SlotIndex) : List Use :=
  let resting := (m.book.pool.slots slot).value
  let traded := min m.incoming.qty resting.qty
  [.sum (.sub32 m.incoming.qty traded), .sum (.sub32 resting.qty traded),
    .sum (.sub64 ((m.book.ladder m.far).deref level).totalQty traded.toUInt64),
    .sum (.add32 m.rep.tradeCount 1), .sum (.add32 m.rep.filled traded)]

/-- The body of the inner loop. -/
def visitUses (m : Matching) (levelPrice : Price) (level : LevelRef) (slot : SlotIndex) : List Use :=
  let resting := (m.book.pool.slots slot).value
  .subscript slot ::
    if m.stpPossible && m.incoming.owner == resting.owner then
      if m.book.policy = .cancelIncoming then []
      else .sum (.add64 m.rep.stpCancelled resting.qty.toUInt64)
        :: m.book.dropUses m.far levelPrice level slot
    else
      let m₁ := m.fill levelPrice level slot
      m.fillUses level slot
        ++ if (m₁.book.pool.slots slot).value.qty = 0 then
            m₁.book.dropUses m.far levelPrice level slot
          else []

/-- The loop from one place to the next. -/
def stepUses (m : Matching) : List Use :=
  match m.ctl with
  | .done => []
  | .outer => if 0 < m.incoming.qty then (m.book.ladder m.far).bestUses else []
  | .inner levelPrice level =>
    let l := (m.book.ladder m.far).deref level
    if decide (0 < m.incoming.qty) && !l.empty then m.visitUses levelPrice level l.head else []
  | .leave levelPrice level =>
    if ((m.book.ladder m.far).deref level).empty then m.book.closeUses m.far levelPrice else []

end Matching

namespace OrderBook

/-- `match`. -/
def matchUses (b : OrderBook) (incoming : Order) (limit : Option Price) : List Use :=
  outputs (fun m => m.ctl == .done) (Matching.step limit) Matching.stepUses (5 * b.pool.live + 2)
    { book := b, incoming := incoming }

/-- `insert`, up to where it throws. -/
def insertUses (mem : Memory) (b : OrderBook) (s : Side) (order : Order) : List Use :=
  let b := b.placeFirst s order.price
  b.openUses s order.price ++
    match (b.ladder s).openLevel mem.node order.price with
    | .ok level l =>
      let b := b.setLadder s l
      match b.pool.acquire mem.slots with
      | .ok slot pool =>
        [.acquire slot, .sum (.inc b.pool.live)] ++
          if 2 ^ 31 ≤ slot.toNat then []
          else
            let b := { b with pool := pool.write slot fun x =>
              { x with value := ⟨order.id, order.price, order.qty, order.owner⟩ } }
            .subscript slot :: b.appendUses s level slot
              ++ [.sum (.pack slot order.side), .indexInsert b.orderIndex order.id,
                .sum (.inc b.orderIndex.count)]
      | _ => []
    | _ => []

/-- `remove`. -/
def removeUses (b : OrderBook) (s : Side) (slot : SlotIndex) : List Use :=
  let price := (b.pool.slots slot).value.price
  .subscript slot :: (b.ladder s).findUses price ++ .levelFound ((b.ladder s).find price) ::
    match (b.ladder s).find price with
    | none => []
    | some level =>
      b.detachUses s price level slot ++
        let b := b.detachAt s level slot
        if ((b.ladder s).deref level).empty then b.closeUses s price else []

/-- `for (i = head; i != kNoSlot; i = pool[i].next)`. -/
def walkUses (pool : OrderSlots) : Nat → SlotIndex → List Use
  | 0, i => if i = kNoSlot then [] else [.subscript i]
  | fuel + 1, i =>
    if i = kNoSlot then [] else .subscript i :: walkUses pool fuel (pool.slots i).next

/-- `check_side` of a build with assertions: the array, the best level, and every level's queue. -/
def checkSideUses (b : OrderBook) (s : Side) : List Use :=
  let l := b.ladder s
  (List.range l.windowSize).map (.window l.windowSize) ++ l.bestUses
    ++ (if 0 < l.occupied then l.visited.map (.window l.windowSize) else [])
    ++ l.forEachLevel.flatMap fun e => walkUses b.pool b.pool.used e.2.head

/-- `check_invariants` of a build with assertions. -/
def checkUses (b : OrderBook) : List Use :=
  b.checkSideUses .buy ++ b.checkSideUses .sell ++ b.bids.bestUses ++ b.asks.bestUses

/-- `submit` past its check. -/
def Attempt.uses (mem : Memory) (x : Attempt) : List Use :=
  x.book.matchUses x.incoming x.limit ++
    match x.insertPoint with
    | none =>
      match x.book.matchOpposite x.incoming x.limit with
      | none => []
      | some m => m.book.checkUses
    | some (b, order) =>
      b.insertUses mem x.incoming.side order ++
        match b.insert mem x.incoming.side order with
        | .ok _ b' => b'.checkUses
        | _ => []

def submitUses (mem : Memory) (b : OrderBook) (incoming : Order) (limit : Option Price)
    (restLeftover : Bool) : List Use :=
  match b.attempt incoming limit restLeftover with
  | none => []
  | some x => x.uses mem

def cancelUses (b : OrderBook) (id : OrderId) : List Use :=
  match b.orderIndex.take id with
  | some (some entry, index) =>
    let b₁ := { b with orderIndex := index }
    .sum (.dec b.orderIndex.count) :: b₁.removeUses (sideOf entry) (slotOf entry) ++
      match b₁.remove (sideOf entry) (slotOf entry) with
      | none => []
      | some b' => b'.checkUses
  | _ => []

def modifyUses (mem : Memory) (b : OrderBook) (id : OrderId) (newPrice : Price) (newQty : Quantity) :
    List Use :=
  match b.orderIndex.find id with
  | some (some entry) =>
    .subscript (slotOf entry) :: b.cancelUses id ++
      match b.cancel id with
      | none => []
      | some (_, b') =>
        if newQty = 0 then []
        else b'.submitUses mem ⟨id, (b.pool.slots (slotOf entry)).value.owner, newPrice, newQty,
          sideOf entry⟩ (some newPrice) true
  | _ => []

/-- The uses of a call. -/
def uses (mem : Memory) (b : OrderBook) : Call → List Use
  | .addLimit id owner side price qty =>
    b.submitUses mem ⟨id, owner, price, qty, side⟩ (some price) true
  | .addMarket id owner side qty => b.submitUses mem ⟨id, owner, 0, qty, side⟩ none false
  | .cancel id => b.cancelUses id
  | .modify id newPrice newQty => b.modifyUses mem id newPrice newQty
  | .pop => []

/-- The uses of all the calls of a history, newest first. -/
inductive Traced : List Record → List Use → Prop
  | start : Traced [] []
  | call {past : List Record} {trace : List Use} (mem : Memory) (r : Record)
      (hcall : r.before.perform mem r.call = .ok (r.reply, r.events) r.after)
      (htrace : Traced past trace) :
      Traced (r :: past) ((r.before.uses mem r.call).reverse ++ trace)

/-- Every run has its uses. -/
theorem Run.traced {b₀ b : OrderBook} {past : List Record} (h : Run b₀ past b) :
    ∃ trace, Traced past trace := by
  induction h with
  | start => exact ⟨[], .start⟩
  | call mem c r events hrun hcall ih =>
    obtain ⟨trace, htrace⟩ := ih
    exact ⟨_, .call mem _ hcall htrace⟩

end OrderBook

/-! ## Facts on histories of uses -/

section Histories

variable {P P' : List Use → Use → Prop} {past past' us : List Use} {u v : Use}

theorem Throughout.mono (hP : ∀ past u, P past u → P' past u) (h : Throughout P past) :
    Throughout P' past := by
  induction past with
  | nil => trivial
  | cons u past ih => exact ⟨hP past u h.1, ih h.2⟩

/-- Each use of a history comes after the uses behind it. -/
theorem Throughout.split {newer older : List Use} (h : Throughout P (newer ++ u :: older)) :
    P older u := by
  induction newer with
  | nil => exact h.1
  | cons v newer ih => exact ih h.2

/-- A use that hands out no slot, takes none back, and neither empties a level nor closes one. -/
def Use.silent : Use → Bool
  | acquire _ | release _ _ | detach _ _ _ _ _ | closed _ _ _ => false
  | _ => true

/-- Two histories after which the same uses are allowed. -/
structure SameReading (past past' : List Use) : Prop where
  handedOut : ∀ i, handedOut i past' = handedOut i past
  unlinked : unlinked past' = unlinked past
  emptied : emptied past' = emptied past

theorem SameReading.inContract (h : SameReading past past') :
    v.InContract past' ↔ v.InContract past := by
  cases v <;> simp only [Use.InContract, Unnamed, h.handedOut, h.unlinked, h.emptied]

theorem sameReading_cons (hu : u.silent = true) : SameReading past (u :: past) := by
  cases u <;> first | exact ⟨fun _ => rfl, rfl, rfl⟩ | simp [Use.silent] at hu

/-- Silent uses leave what is allowed. -/
theorem sameReading_silent (hus : ∀ u ∈ us, u.silent = true) :
    SameReading past (us.reverse ++ past) := by
  induction us generalizing past with
  | nil => exact ⟨fun _ => rfl, rfl, rfl⟩
  | cons u us ih =>
    have hu : SameReading past (u :: past) := sameReading_cons (hus u List.mem_cons_self)
    have hrest : SameReading (u :: past) (us.reverse ++ u :: past) :=
      ih fun v hv => hus v (List.mem_cons_of_mem _ hv)
    rw [List.reverse_cons, List.append_assoc]
    exact ⟨fun i => (hrest.handedOut i).trans (hu.handedOut i), hrest.unlinked.trans hu.unlinked,
      hrest.emptied.trans hu.emptied⟩

end Histories

end Lob
