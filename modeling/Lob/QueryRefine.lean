/-
# Lob.QueryRefine — what a book that follows the priority book shows.

The queries walk the queues the layout describes, so each answers from the priority book: the resting
orders, the best prices, the quantity at a price, the number of orders.  `check_invariants` walks the
same queues, and on a sound book none of its assertions can fire.
-/
import Lob.CallRefine
import Lob.PrioritySound

namespace Lob

open Lib.Ranked Lib.Linked

/-! ## The abstract answers -/

namespace PriorityBook

/-- The best price of a side. -/
def best (b : PriorityBook) (s : Side) : Option Price := (b.queue s).head?.map RestingOrder.price

/-- The quantity resting at a price. -/
def volumeAt (b : PriorityBook) (s : Side) (p : Price) : Nat :=
  volume ((b.queue s).filter fun o => o.price = p)

/-- All resting orders, bids first. -/
def snapshot (b : PriorityBook) : List Order :=
  (b.queue .buy).map (RestingOrder.toOrder .buy) ++ (b.queue .sell).map (RestingOrder.toOrder .sell)

end PriorityBook

namespace OrderBook

section Queries

variable {b : OrderBook} {a : PriorityBook} {Q : Layout} {free : List SlotIndex} {s : Side}
  {e : Price × List Cell}

/-! ## Walking the queues -/

theorem ordersOf_cons (e : Price × List Cell) (m : List (Price × List Cell)) :
    ordersOf (e :: m) = e.2.map Prod.snd ++ ordersOf m := by
  rw [ordersOf, cellsIn_cons, List.map_append]
  rfl

theorem lookup_levelsOf (p : Price) (m : List (Price × List Cell)) :
    (levelsOf m).lookup p = (m.lookup p).map levelOf := by
  induction m with
  | nil => rfl
  | cons e m ih =>
    show List.lookup p ((e.1, levelOf e.2) :: levelsOf m) = _
    rw [List.lookup_cons, List.lookup_cons, ih]
    cases p == e.1 <;> rfl

/-- **The walk of a chain** visits it whole. -/
theorem walk_eq (pool : OrderSlots) :
    ∀ (xs : List SlotIndex) (fuel : Nat), Forward (fun i => (pool.slots i).next) kNoSlot xs →
      (∀ i ∈ xs, i ≠ kNoSlot) → xs.length ≤ fuel → walk pool fuel (xs.headD kNoSlot) = some xs := by
  intro xs
  induction xs with
  | nil =>
    intro fuel _ _ _
    unfold walk
    exact if_pos rfl
  | cons i xs ih =>
    intro fuel hf hne hfuel
    rw [List.length_cons] at hfuel
    obtain ⟨fuel, rfl⟩ := Nat.exists_eq_succ_of_ne_zero (n := fuel) (by omega)
    obtain ⟨hnext, hrest⟩ := hf
    have hi : i ≠ kNoSlot := hne i (by simp)
    have hnext' : (pool.slots i).next = xs.headD kNoSlot := hnext
    unfold walk
    rw [List.headD_cons, if_neg hi]
    simp only [hnext', ih fuel hrest (fun j hj => hne j (by simp [hj])) (by omega), Option.map_some]

theorem length_le_used (h : b.Linked Q free) (he : e ∈ Q s) : e.2.length ≤ b.pool.used := by
  have hadd := h.pool.length_add
  obtain ⟨m₁, m₂, hm⟩ := List.append_of_mem he
  have hsplit : Q s = m₁ ++ (e.1, e.2) :: m₂ := hm
  have hlen := (allCells_split hsplit).length_eq
  rw [List.length_map] at hadd
  rw [List.length_append] at hlen
  omega

theorem Linked.slotsAt (h : b.Linked Q free) (he : e ∈ Q s) :
    b.slotsAt (levelOf e.2) = some (e.2.map Prod.fst) := by
  refine walk_eq b.pool _ _ (h.queue s e he).forward (h.ne_kNoSlot he) ?_
  rw [List.length_map]
  exact length_le_used h he

theorem Linked.forEachLevel (h : b.Linked Q free) (hset : ∀ e ∈ Q s, e.2 ≠ []) :
    (b.ladder s).forEachLevel = levelsOf (Q s) :=
  (h.ladder s).forEachLevel (h.allOccupied hset)

theorem Linked.slot_values (h : b.Linked Q free) (he : e ∈ Q s) :
    (e.2.map Prod.fst).map (fun i => (b.pool.slots i).value) = e.2.map Prod.snd := by
  rw [List.map_map]
  exact List.map_congr_left fun c hc => (h.queue s e he).value c hc

theorem Linked.ordersIn (h : b.Linked Q free) {m : List (Price × List Cell)}
    (hm : ∀ e ∈ m, e ∈ Q s) : b.ordersIn (levelsOf m) = some (ordersOf m) := by
  induction m with
  | nil => rfl
  | cons e m ih =>
    have he := hm e (by simp)
    show b.ordersIn ((e.1, levelOf e.2) :: levelsOf m) = _
    rw [OrderBook.ordersIn, h.slotsAt he, ih fun e' he' => hm e' (by simp [he'])]
    simp only [h.slot_values he, ordersOf_cons]

/-- **The resting orders of a side**, when none of its levels is empty. -/
theorem Linked.restingOn (h : b.Linked Q free) (hset : ∀ e ∈ Q s, e.2 ≠ []) :
    b.restingOn s = some (ordersOf (Q s)) := by
  rw [OrderBook.restingOn, h.forEachLevel hset]
  exact h.ordersIn fun _ he => he

theorem Follows.restingOn (h : b.Follows a Q free) (s : Side) : b.restingOn s = some (a.queue s) := by
  rw [h.linked.restingOn (h.settled s), h.queue]

/-- **The book order of all resting orders.** -/
theorem Follows.forEachResting (h : b.Follows a Q free) : b.forEachResting = some a.snapshot := by
  rw [OrderBook.forEachResting, h.restingOn, h.restingOn]
  rfl

/-! ## Best prices and level totals -/

/-- The first order of settled levels rests at the first level's price. -/
theorem Linked.head_price (h : b.Linked Q free) (hset : ∀ e ∈ Q s, e.2 ≠ []) :
    (ordersOf (Q s)).head?.map RestingOrder.price = (Q s).head?.map Prod.fst := by
  cases hQ : Q s with
  | nil => rfl
  | cons e m =>
    obtain ⟨c, cs, hcs⟩ := List.exists_cons_of_ne_nil (hset e (by rw [hQ]; simp))
    have hprice := (h.queue s e (by rw [hQ]; simp)).price c (by rw [hcs]; simp)
    simp [ordersOf, hcs, hprice]

theorem Follows.bestPrice (h : b.Follows a Q free) (s : Side) :
    (b.ladder s).bestPrice = a.best s := by
  rw [PriorityBook.best, h.queue, h.linked.head_price (h.settled s), (h.linked.ladder s).bestPrice,
    levelsOf, List.head?_map, Option.map_map]
  rfl

theorem Follows.bestBid (h : b.Follows a Q free) : b.bestBid = a.best .buy := h.bestPrice .buy

theorem Follows.bestAsk (h : b.Follows a Q free) : b.bestAsk = a.best .sell := h.bestPrice .sell

/-- The orders at a price are the queue of its level. -/
theorem Linked.filter_price (h : b.Linked Q free) (p : Price) {m : List (Price × List Cell)}
    (hm : m.Sublist (Q s)) : volume ((ordersOf m).filter fun o => o.price = p)
      = ((m.lookup p).map fun qs => volume (qs.map Prod.snd)).getD 0 := by
  induction m with
  | nil => rfl
  | cons e m ih =>
    have hmem : ∀ e' ∈ e :: m, e' ∈ Q s := fun e' he' => hm.subset he'
    have hprice : ∀ o ∈ e.2.map Prod.snd, o.price = e.1 := by
      intro o ho
      obtain ⟨c, hc, rfl⟩ := List.mem_map.mp ho
      exact (h.queue s e (hmem e (by simp))).price c hc
    have hsorted := (sorted_levelsOf.mp (h.sorted s)).sublist hm
    rw [ordersOf_cons, List.filter_append, volume_append, ih ((List.sublist_cons_self e m).trans hm),
      List.lookup_cons]
    by_cases heq : e.1 = p
    · have hall : (e.2.map Prod.snd).filter (fun o => o.price = p) = e.2.map Prod.snd :=
        List.filter_eq_self.mpr fun o ho => by simp [hprice o ho, heq]
      have hnone : m.lookup p = none := by
        refine lookup_eq_none.mpr fun qs hqs => ?_
        have hb := (sorted_cons.mp hsorted).1 (p, qs) hqs
        rw [heq] at hb
        exact irrefl_of (better s.isBid) _ hb
      rw [hall, hnone, ← heq]
      simp
    · have hnil : (e.2.map Prod.snd).filter (fun o => o.price = p) = [] :=
        List.filter_eq_nil_iff.mpr fun o ho => by simp [hprice o ho, heq]
      have hne : (p == e.1) = false := by simpa using Ne.symm heq
      rw [hnil, hne]
      simp

/-- **The quantity at a price.** -/
theorem Follows.qtyAt (h : b.Follows a Q free) (s : Side) (p : Price) :
    b.qtyAt s p = UInt64.ofNat (a.volumeAt s p) := by
  rw [PriorityBook.volumeAt, h.queue, h.linked.filter_price p (List.Sublist.refl _), OrderBook.qtyAt,
    (h.linked.ladder s).find (h.linked.allOccupied (h.settled s)), lookup_levelsOf]
  cases hlook : (Q s).lookup p with
  | none => rfl
  | some qs =>
    have hmem : (p, levelOf qs) ∈ levelsOf (Q s) :=
      (h.linked.sorted s).lookup_eq_some.mp (by rw [lookup_levelsOf, hlook]; rfl)
    have hderef := (h.linked.ladder s).deref hmem
    simp only [Option.map_some, Option.isSome_some, if_true, hderef, Option.getD_some]
    rfl

theorem Follows.length_orders (h : b.Follows a Q free) : a.orders.length = (allCells Q).length := by
  have hids := congrArg List.length h.ids
  rw [List.length_map, List.length_map, length_entries] at hids
  exact hids.symm

/-- **The number of resting orders**, as the index counts them. -/
theorem Follows.size (h : b.Follows a Q free) : b.size = a.orders.length := by
  rw [OrderBook.size, h.linked.index.count, length_entries, h.length_orders]

/-- **The number of resting orders**, as the pool counts them. -/
theorem Follows.live_slots (h : b.Follows a Q free) : b.pool.live = a.orders.length := by
  rw [h.linked.pool.count, List.length_map, h.length_orders]

/-! ## check_invariants -/

/-- The slots of a side in book order. -/
def slotsOn (b : OrderBook) (s : Side) : Option (List SlotIndex) :=
  ((b.ladder s).forEachLevel.mapM fun e => b.slotsAt e.2).map List.flatten

/-- The index entry a resting order calls for: its slot, and its side. -/
def entryAt (b : OrderBook) (s : Side) (i : SlotIndex) : OrderId × UInt32 :=
  ((b.pool.slots i).value.id, indexValue i s)

/-- A queue never holds more than 64 bits can total. -/
theorem volume_lt {os : List RestingOrder} (hlen : os.length ≤ 2 ^ 31) : volume os < 2 ^ 64 := by
  have hbound : volume os ≤ os.length * 2 ^ 32 := by
    clear hlen
    induction os with
    | nil => simp
    | cons o os ih =>
      have := o.qty.toNat_lt
      rw [volume_cons, List.length_cons, Nat.add_mul]
      omega
  omega

/-- A side never holds more either. -/
theorem Follows.volume_lt (h : b.Follows a Q free) (s : Side) : volume (a.queue s) < 2 ^ 64 := by
  refine OrderBook.volume_lt (Nat.le_trans ?_ h.linked.used)
  have hlen := h.linked.pool.length_add
  have hside : (a.queue s).length ≤ a.orders.length := by
    cases s <;> simp [PriorityBook.orders]
  rw [List.length_map, ← h.length_orders] at hlen
  omega

theorem Linked.level_volume_lt (h : b.Linked Q free) (he : e ∈ Q s) :
    volume (e.2.map Prod.snd) < 2 ^ 64 := by
  refine volume_lt ?_
  rw [List.length_map]
  exact (length_le_used h he).trans h.used

/-- **A level's total is the sum of its orders**, exactly. -/
theorem Linked.level_total (h : b.Linked Q free) (he : e ∈ Q s) :
    (levelOf e.2).totalQty.toNat = volume (e.2.map Prod.snd) := by
  show (UInt64.ofNat (volume (e.2.map Prod.snd))).toNat = _
  rw [UInt64.toNat_ofNat', Nat.mod_eq_of_lt (h.level_volume_lt he)]

theorem linksBack_of_backward (pool : OrderSlots) :
    ∀ (xs : List SlotIndex) (prev : SlotIndex),
      Backward (fun i => (pool.slots i).prev) prev xs → linksBack pool prev xs = true := by
  intro xs
  induction xs with
  | nil => intro prev _; rfl
  | cons i xs ih =>
    intro prev hb
    obtain ⟨hprev, hrest⟩ := hb
    have hprev' : (pool.slots i).prev = prev := hprev
    simp only [linksBack, hprev', beq_self_eq_true, Bool.true_and]
    exact ih i hrest

theorem Linked.indexed (h : b.Linked Q free) {c : Cell} (hc : c ∈ cellsIn (Q s)) :
    b.indexed s c.1 = true := by
  obtain ⟨hfind, hvalue, hslot, hside⟩ := h.filed hc
  simp only [OrderBook.indexed, hvalue, hfind, hslot, hside, beq_self_eq_true, Bool.and_self]

/-- The running total of a walk. -/
theorem foldl_total (pool : OrderSlots) (xs : List SlotIndex) (n : Nat) :
    xs.foldl (fun sum i => sum + (pool.slots i).value.qty.toUInt64) (UInt64.ofNat n)
      = UInt64.ofNat (n + volume (xs.map fun i => (pool.slots i).value)) := by
  induction xs generalizing n with
  | nil => rfl
  | cons i xs ih =>
    rw [List.foldl_cons, toUInt64_eq_ofNat, ← UInt64.ofNat_add, ih, List.map_cons, volume_cons,
      Nat.add_assoc]

/-- **No assertion about a level can fire.** -/
theorem Linked.checkLevel (h : b.Linked Q free) (hlive : Live Q) (he : e ∈ Q s) (hne : e.2 ≠ []) :
    b.checkLevel s e.1 (levelOf e.2) = true := by
  have hq := h.queue s e he
  have hempty : (levelOf e.2).empty = false := by
    rw [h.level_empty he]
    simpa using hne
  have htotal := h.level_total he
  have hpos : 0 < (levelOf e.2).totalQty := by
    rw [UInt64.lt_iff_toNat_lt, htotal]
    obtain ⟨c, cs, hcs⟩ := List.exists_cons_of_ne_nil hne
    have hc := hlive s c (mem_cellsIn.mpr ⟨e, he, by rw [hcs]; simp⟩)
    rw [hcs, List.map_cons, volume_cons, UInt64.toNat_zero]
    rw [UInt32.lt_iff_toNat_lt, UInt32.toNat_zero] at hc
    omega
  have hsum : (e.2.map Prod.fst).foldl (fun sum i => sum + (b.pool.slots i).value.qty.toUInt64) 0
      = (levelOf e.2).totalQty := by
    have hfold := foldl_total b.pool (e.2.map Prod.fst) 0
    rw [h.slot_values he, Nat.zero_add] at hfold
    exact hfold
  have hcells : ((e.2.map Prod.fst).all fun i => (b.pool.slots i).value.price == e.1
      && decide (0 < (b.pool.slots i).value.qty) && b.indexed s i) = true := by
    rw [List.all_eq_true]
    intro i hi
    obtain ⟨c, hc, rfl⟩ := List.mem_map.mp hi
    have hcell : c ∈ cellsIn (Q s) := mem_cellsIn.mpr ⟨e, he, hc⟩
    rw [hq.value c hc, hq.price c hc, h.indexed hcell]
    simpa using hlive s c hcell
  have htail : (e.2.map Prod.fst).getLastD kNoSlot = (levelOf e.2).tail := rfl
  unfold OrderBook.checkLevel
  rw [h.slotsAt he]
  simp only [hempty, linksBack_of_backward b.pool _ _ hq.backward, hcells, htail, hsum, hpos,
    beq_self_eq_true, decide_true, Bool.not_false, Bool.and_self]

theorem Follows.checkSide (h : b.Follows a Q free) (s : Side) : b.checkSide s = true := by
  have hlevels := h.linked.forEachLevel (h.settled s)
  rw [OrderBook.checkSide, hlevels,
    (h.linked.ladder s).check (h.linked.allOccupied (h.settled s)), Bool.true_and,
    List.all_eq_true]
  intro e he
  obtain ⟨e', he', rfl⟩ := List.mem_map.mp he
  exact h.linked.checkLevel h.live he' (h.settled s e' he')

/-- **No assertion of `check_invariants` can fire** on a book that follows a sound one. -/
theorem Follows.checkInvariants (h : b.Follows a Q free) (hsound : a.Sound) :
    b.checkInvariants = true := by
  have hlen : a.snapshot.length = a.orders.length := by
    simp [PriorityBook.snapshot, PriorityBook.orders]
  have hcount : b.orderIndex.count = a.orders.length := h.size
  unfold OrderBook.checkInvariants
  rw [h.checkSide, h.checkSide, h.forEachResting]
  simp only [hlen, hcount, h.live_slots, h.linked.pool.consistent, h.linked.index.consistent,
    beq_self_eq_true, Bool.and_self, Bool.true_and]
  rw [h.bestBid, h.bestAsk, PriorityBook.best, PriorityBook.best]
  cases hbuy : a.queue .buy with
  | nil => rfl
  | cons x xs =>
    cases hsell : a.queue .sell with
    | nil => rfl
    | cons y ys =>
      exact decide_eq_true (hsound.uncrossed x (by rw [hbuy]; simp) y (by rw [hsell]; simp))

theorem Follows.slotsOn (h : b.Follows a Q free) (s : Side) :
    b.slotsOn s = some ((cellsIn (Q s)).map Prod.fst) := by
  have hmap : ∀ m : List (Price × List Cell), (∀ e ∈ m, e ∈ Q s) →
      (levelsOf m).mapM (fun e => b.slotsAt e.2) = some (m.map fun e => e.2.map Prod.fst) := by
    intro m
    induction m with
    | nil => intro _; rfl
    | cons e m ih =>
      intro hm
      show List.mapM _ ((e.1, levelOf e.2) :: levelsOf m) = _
      rw [List.mapM_cons, h.linked.slotsAt (hm e (by simp)), ih fun e' he' => hm e' (by simp [he'])]
      rfl
  rw [OrderBook.slotsOn, h.linked.forEachLevel (h.settled s), hmap _ fun _ he => he, Option.map_some,
    cellsIn, List.map_flatMap]
  rfl

/-- **The id index holds one entry per resting order**, its slot and side, and nothing else. -/
theorem Follows.index_entries (h : b.Follows a Q free) :
    ∃ bids asks, b.slotsOn .buy = some bids ∧ b.slotsOn .sell = some asks
      ∧ (Lib.Probing.content b.orderIndex.tableSize b.orderIndex.cells).Perm
        (bids.map (b.entryAt .buy) ++ asks.map (b.entryAt .sell)) := by
  have hside : ∀ s, ((cellsIn (Q s)).map Prod.fst).map (b.entryAt s)
      = (cellsIn (Q s)).map (entryOf s) := by
    intro s
    rw [List.map_map]
    refine List.map_congr_left fun c hc => ?_
    obtain ⟨e, he, hce⟩ := mem_cellsIn.mp hc
    show ((b.pool.slots c.1).value.id, _) = _
    rw [(h.linked.queue s e he).value c hce]
    rfl
  refine ⟨_, _, h.slotsOn .buy, h.slotsOn .sell, ?_⟩
  rw [hside, hside]
  exact h.linked.index.perm

end Queries

end OrderBook

end Lob
