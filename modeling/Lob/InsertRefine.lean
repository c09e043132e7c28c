/-
# Lob.InsertRefine — resting an order, and every way it can fail.

`insert` places the windows if need be, opens a level, takes a slot, fills it, appends it to the
level and files it in the index.  `Inserted` lists how that can end: the whole of it done, which
enqueues the order in the layout, or an exception at one of four points with what the earlier steps
have already changed.
-/
import Lob.OrderBookRefine
import Lob.PriorityBook

namespace Lob

open Lib.Ranked PriorityBook

/-! ## Opening a level of a layout -/

section Open

variable {isBid : Bool} {p : Price} {m m₁ m₂ : List (Price × List Cell)} {qs : List Cell}

theorem sorted_levelsOf : Sorted (better isBid) (levelsOf m) ↔ Sorted (better isBid) m := by
  simp only [Sorted, levelsOf, List.pairwise_map]

theorem levelsOf_tryEmplace :
    levelsOf (tryEmplace (better isBid) p [] m) = tryEmplace (better isBid) p {} (levelsOf m) :=
  map_tryEmplace (fun e => (e.1, levelOf e.2)) fun _ => rfl

@[simp] theorem cellsIn_tryEmplace (isBid : Bool) (p : Price) (m : List (Price × List Cell)) :
    cellsIn (tryEmplace (better isBid) p [] m) = cellsIn m := by
  induction m with
  | nil => rfl
  | cons e m ih =>
    unfold tryEmplace
    split
    · rfl
    · split
      · rfl
      · rw [cellsIn_cons, ih, cellsIn_cons]

/-- An opened level stands between the better and the worse ones, and is new only if its price was
absent. -/
theorem tryEmplace_split (hs : Sorted (better isBid) m) :
    ∃ m₁ qs m₂, tryEmplace (better isBid) p [] m = m₁ ++ (p, qs) :: m₂
      ∧ (∀ e ∈ m₁, better isBid e.1 p) ∧ (∀ e ∈ m₂, better isBid p e.1)
      ∧ ((p, qs) ∈ m ∨ (qs = [] ∧ m = m₁ ++ m₂ ∧ ∀ w, (p, w) ∉ m)) := by
  induction m with
  | nil => exact ⟨[], [], [], rfl, by simp, by simp, Or.inr ⟨rfl, rfl, by simp⟩⟩
  | cons e m ih =>
    obtain ⟨hhead, htail⟩ := sorted_cons.mp hs
    unfold tryEmplace
    by_cases heq : e.1 = p
    · rw [if_pos heq]
      refine ⟨[], e.2, m, by rw [← heq]; rfl, by simp, fun e' he' => heq ▸ hhead e' he', Or.inl ?_⟩
      rw [← heq]
      exact List.mem_cons_self
    · rw [if_neg heq]
      by_cases hb : better isBid p e.1
      · rw [if_pos hb]
        have hall : ∀ e' ∈ e :: m, better isBid p e'.1 := by
          intro e' he'
          rcases List.mem_cons.mp he' with rfl | he'
          · exact hb
          · exact trans_of (better isBid) hb (hhead e' he')
        refine ⟨[], [], e :: m, rfl, by simp, hall, Or.inr ⟨rfl, rfl, fun w hw => ?_⟩⟩
        exact irrefl_of (better isBid) p (hall _ hw)
      · rw [if_neg hb]
        obtain ⟨m₁, qs, m₂, hsplit, hbefore, hafter, hnew⟩ := ih htail
        have hep : better isBid e.1 p := by
          rcases trichotomous_of (better isBid) e.1 p with h | h | h
          · exact h
          · exact absurd h heq
          · exact absurd h hb
        refine ⟨e :: m₁, qs, m₂, by rw [hsplit]; rfl, ?_, hafter, ?_⟩
        · intro e' he'
          rcases List.mem_cons.mp he' with rfl | he'
          · exact hep
          · exact hbefore e' he'
        · rcases hnew with hmem | ⟨hqs, hm, habs⟩
          · exact Or.inl (List.mem_cons_of_mem _ hmem)
          · refine Or.inr ⟨hqs, by rw [hm]; rfl, fun w hw => ?_⟩
            rcases List.mem_cons.mp hw with heq' | hw
            · exact heq (congrArg Prod.fst heq').symm
            · exact habs w hw

end Open

namespace OrderBook

/-- What resting an order leaves alone. -/
structure SameRecords (b b' : OrderBook) : Prop where
  nextSeq : b'.nextSeq = b.nextSeq
  tradeOut : b'.tradeOut = b.tradeOut
  policy : b'.policy = b.policy

/-- The order as the book keeps it. -/
def restingOf (order : Order) : RestingOrder := ⟨order.id, order.price, order.qty, order.owner⟩

section Insert

variable {b b' : OrderBook} {Q : Layout} {free : List SlotIndex} {s : Side} {price : Price}

/-! ## Placing the windows -/

theorem placeFirst_ladder (b : OrderBook) (s : Side) (price : Price) (t : Side) :
    (b.placeFirst s price).ladder t = b.ladder t ∨ ((b.ladder s).isPlaced = false ∧
      ∃ base, (b.placeFirst s price).ladder t = (b.ladder t).place base) := by
  unfold placeFirst
  split
  · exact Or.inl rfl
  · rename_i hp
    exact Or.inr ⟨by simpa using hp, centredBase price b.bids.windowSize, by cases t <;> rfl⟩

theorem placeFirst_sameRecords (b : OrderBook) (s : Side) (price : Price) :
    SameRecords b (b.placeFirst s price) := by
  unfold placeFirst
  split <;> exact ⟨rfl, rfl, rfl⟩

theorem placeFirst_pool (b : OrderBook) (s : Side) (price : Price) :
    (b.placeFirst s price).pool = b.pool := by
  unfold placeFirst
  split <;> rfl

theorem placeFirst_orderIndex (b : OrderBook) (s : Side) (price : Price) :
    (b.placeFirst s price).orderIndex = b.orderIndex := by
  unfold placeFirst
  split <;> rfl

theorem placeFirst_opens (b : OrderBook) (s : Side) (price : Price) (t : Side) :
    ((b.placeFirst s price).ladder t).outsideOpens = (b.ladder t).outsideOpens := by
  rcases placeFirst_ladder b s price t with h | ⟨-, base, h⟩ <;> rw [h]
  rfl

theorem placeFirst_isPlaced (h : b.Linked Q free) (s : Side) (price : Price) (t : Side) :
    ((b.placeFirst s price).ladder t).isPlaced = true := by
  unfold placeFirst
  split
  · rename_i hp
    rw [h.placed t s]
    exact hp
  · cases t <;> rfl

/-- Placing the windows of an empty book keeps the coupling. -/
theorem Linked.placeFirst (h : b.Linked Q free) (s : Side) (price : Price) :
    (b.placeFirst s price).Linked Q free where
  ladder t := by
    rcases placeFirst_ladder b s price t with heq | ⟨hp, base, heq⟩
    · rw [heq]
      exact h.ladder t
    · have hQ := h.unplaced t (by rw [h.placed t s]; exact hp)
      have hrep := h.ladder t
      rw [hQ] at hrep ⊢
      rw [heq]
      exact PriceLadder.Represents.place hrep base
  queue := by rw [placeFirst_pool]; exact h.queue
  pool := by rw [placeFirst_pool]; exact h.pool
  index := by rw [placeFirst_orderIndex]; exact h.index
  used := by rw [placeFirst_pool]; exact h.used
  placed t u := by rw [placeFirst_isPlaced h, placeFirst_isPlaced h]
  unplaced t ht := by
    rw [placeFirst_isPlaced h] at ht
    simp at ht

/-! ## Taking a slot, filling it and appending it -/

theorem appendAt_orderIndex (b : OrderBook) (s : Side) (level : LevelRef) (slot : SlotIndex) :
    (b.appendAt s level slot).orderIndex = b.orderIndex := by
  rw [OrderBook.appendAt, setLadder_orderIndex]

theorem appendAt_live (b : OrderBook) (s : Side) (level : LevelRef) (slot : SlotIndex) :
    (b.appendAt s level slot).pool.live = b.pool.live := by
  rw [OrderBook.appendAt, setLadder_pool]
  show (append _ _ _).1.live = _
  unfold append
  simp only
  split <;> rfl

/-- **A new cell at the end of an open level.** -/
theorem Linked.appendAt (h : b.Linked Q free) {m₁ m₂ : List (Price × List Cell)}
    {qs : List Cell} (hQ : Q s = m₁ ++ (price, qs) :: m₂) {order : Order}
    (hprice : order.price = price) {slot : SlotIndex} {pool : OrderSlots}
    (hw : pool.Wf (slot :: (allCells Q).map Prod.fst) free.tail)
    (hframe : ∀ j ∈ (allCells Q).map Prod.fst, pool.slots j = b.pool.slots j)
    (hused : pool.used ≤ 2 ^ 31) {index : IdIndex UInt32}
    (hindex : index.Represents ((order.id, indexValue slot s) :: entries Q)) :
    let b₁ := (OrderBook.mk (pool.write slot fun x => { x with value := restingOf order })
      b.bids b.asks b.orderIndex b.tradeOut b.policy b.nextSeq).appendAt s
        ((b.ladder s).refOf price) slot
    OrderBook.Linked { b₁ with orderIndex := index }
        (setQueue Q s (m₁ ++ (price, qs ++ [(slot, restingOf order)]) :: m₂)) free.tail
      ∧ Kept b { b₁ with orderIndex := index } := by
  intro b₁
  have hmem : (price, qs) ∈ Q s := by rw [hQ]; simp
  have hsplit := (allCells_split hQ).map Prod.fst
  have hsplit' := (allCells_split (setQueue_self Q s
    (m₁ ++ (price, qs ++ [(slot, restingOf order)]) :: m₂))).map Prod.fst
  rw [setQueue_opposite] at hsplit'
  have hnd := (List.nodup_append.mp hw.nodup).1
  have hslot : slot ∉ (allCells Q).map Prod.fst := (List.nodup_cons.mp hnd).1
  have hlive : ∀ i ∈ qs.map Prod.fst, i ∈ (allCells Q).map Prod.fst := fun i hi =>
    hsplit.mem_iff.mpr (by rw [List.map_append]; exact List.mem_append_left _ hi)
  have hndq : (qs.map Prod.fst ++ [slot]).Nodup := by
    have hq := hsplit.nodup_iff.mp (List.nodup_cons.mp hnd).2
    rw [List.map_append] at hq
    rw [← List.concat_eq_append, List.nodup_concat]
    exact ⟨fun hmem => hslot (hlive slot hmem), (List.nodup_append.mp hq).1⟩
  have hne : ∀ i ∈ (allCells Q).map Prod.fst, i ≠ slot := by
    rintro i hi rfl
    exact hslot hi
  have hwrite : ∀ j, j ≠ slot →
      (pool.write slot fun x => { x with value := restingOf order }).slots j = pool.slots j :=
    fun j hj => Function.update_of_ne hj _ _
  have hqueue : Queued (pool.write slot fun x => { x with value := restingOf order }) price qs :=
    (h.queue s _ hmem).congr fun i hi => by
      rw [hwrite i (hne i (hlive i hi)), hframe i (hlive i hi)]
  obtain ⟨pool', happend, hqueue', hw', hused', hframe'⟩ := hqueue.append
    (hw.write List.mem_cons_self _) (fun i hi => List.mem_cons_of_mem _ (hlive i hi))
    List.mem_cons_self hndq (o := restingOf order) (by simp [SlotPool.write]) hprice
  have hb₁ : b₁ = ({ b with pool := pool' } : OrderBook).setLadder s
      ((b.ladder s).store ((b.ladder s).refOf price)
        (levelOf (qs ++ [(slot, restingOf order)]))) := by
    have hl : (OrderBook.mk (pool.write slot fun x => { x with value := restingOf order })
      b.bids b.asks b.orderIndex b.tradeOut b.policy b.nextSeq).ladder s = b.ladder s := by
      cases s <;> rfl
    show OrderBook.appendAt _ s _ slot = _
    rw [OrderBook.appendAt, hl, h.deref hQ, happend]
  have hladders : ∀ t, OrderBook.ladder { b with orderIndex := index, pool := pool' } t
      = b.ladder t := by
    intro t
    cases t <;> rfl
  have hb₂ : ({ b₁ with orderIndex := index } : OrderBook)
      = ({ b with orderIndex := index, pool := pool' } : OrderBook).setLadder s
          ((b.ladder s).store ((b.ladder s).refOf price)
            (levelOf (qs ++ [(slot, restingOf order)]))) := by
    rw [hb₁]
    cases s <;> rfl
  refine ⟨?_, by rw [hb₂]; exact kept_store hladders rfl rfl rfl _ _⟩
  · rw [hb₂]
    refine h.edit hQ (setQueue_self ..) (setQueue_opposite ..) (ladder_setLadder ..)
      ((ladder_setLadder_opposite ..).trans (hladders _)) ?_ ?_ ?_ ?_ ?_
    · rw [setLadder_pool]
      exact hqueue'
    · intro j hj hq _
      rw [setLadder_pool]
      show pool'.slots j = _
      rw [hframe' j hq (hne j hj), hwrite j (hne j hj), hframe j hj]
    · rw [setLadder_pool]
      refine hw'.perm (List.Perm.trans ?_ hsplit'.symm)
      refine (hsplit.cons slot).trans ?_
      simp only [List.map_append, List.append_assoc, List.map_cons, List.map_nil]
      exact List.perm_middle.symm
    · rw [setLadder_pool]
      show pool'.used ≤ _
      rw [hused']
      exact hused
    · rw [setLadder_orderIndex]
      have hent := entries_split (setQueue_self Q s
        (m₁ ++ (price, qs ++ [(slot, restingOf order)]) :: m₂))
      rw [setQueue_opposite] at hent
      refine hindex.of_perm (List.Perm.trans ?_ hent.symm)
      refine ((entries_split hQ).cons _).trans ?_
      simp only [List.map_append, List.append_assoc, List.map_cons, List.map_nil]
      exact List.perm_middle.symm

/-! ## The whole of `insert` -/

/-- The level of a new order is absent and outside the window, and no map node can be had. -/
def NodeFails (mem : Memory) (b : OrderBook) (s : Side) (price : Price) : Prop :=
  mem.node = false ∧ (b.ladder s).inWindow price = false ∧ (b.ladder s).find price = none

/-- No slot is free and the pool cannot grow. -/
def PoolFails (mem : Memory) (b : OrderBook) : Prop :=
  b.pool.freeHead = kNoSlot ∧ b.pool.used = b.pool.capacity
    ∧ (SlotPool.kMax ≤ b.pool.capacity ∨ mem.slots = false)

/-- The layout in which the level at `price` is open. -/
def openIn (Q : Layout) (s : Side) (price : Price) : Layout :=
  setQueue Q s (tryEmplace (better s.isBid) price [] (Q s))

/-- The ways `insert` can end, and what each leaves behind. -/
inductive Inserted (mem : Memory) (b : OrderBook) (Q : Layout) (s : Side) (order : Order) :
    Result OrderBook Unit → Prop
  | ok (b' : OrderBook) (Q' : Layout) (free' : List SlotIndex) (hl : b'.Linked Q' free')
      (hset : Settled Q') (hlive : Live Q → 0 < order.qty → Live Q')
      (horders : ordersOf (Q' s) = enqueue s.isBid (restingOf order) (ordersOf (Q s)))
      (hopp : Q' s.opposite = Q s.opposite) (hsame : SameRecords b b')
      (hwindow : ∀ t, PriceLadder.SameWindow ((b.placeFirst s order.price).ladder t) (b'.ladder t))
      (hopens : (b'.ladder s).outsideOpens
        = if ((b.placeFirst s order.price).ladder s).inWindow order.price
          then (b.ladder s).outsideOpens else (b.ladder s).outsideOpens + 1)
      (hopens' : (b'.ladder s.opposite).outsideOpens = (b.ladder s.opposite).outsideOpens) :
      Inserted mem b Q s order (.ok () b')
  | noNode (b' : OrderBook) (free' : List SlotIndex) (hl : b'.Linked Q free')
      (hfails : NodeFails mem (b.placeFirst s order.price) s order.price) :
      Inserted mem b Q s order (.throws .badAlloc b')
  | noSlot (e : Throw) (b' : OrderBook) (free' : List SlotIndex)
      (hl : b'.Linked (openIn Q s order.price) free')
      (hopen : ¬ NodeFails mem (b.placeFirst s order.price) s order.price)
      (hfails : PoolFails mem b) :
      Inserted mem b Q s order (.throws e b')
  | leaked (e : Throw) (b' : OrderBook) (hlive : b'.pool.live = b.pool.live + 1)
      (hopen : ¬ NodeFails mem (b.placeFirst s order.price) s order.price)
      (hroom : ¬ PoolFails mem b) :
      Inserted mem b Q s order (.throws e b')

theorem Linked.find_eq_none (h : b.Linked Q free) (hset : ∀ e ∈ Q s, e.2 ≠ []) :
    (b.ladder s).find price = none ↔ (levelsOf (Q s)).lookup price = none := by
  rw [(h.ladder s).find (h.allOccupied hset)]
  cases (levelsOf (Q s)).lookup price <;> simp

/-- Opening the level of an order, when it can be opened. -/
theorem Linked.openLevel (h : b.Linked Q free) (hset : Settled Q)
    (hplaced : ∀ t, (b.ladder t).isPlaced = true) (s : Side) (price : Price) (mem : Bool) :
    (∃ l, (b.ladder s).openLevel mem price = .throws .badAlloc l
      ∧ (b.setLadder s l).Linked Q free ∧ mem = false ∧ (b.ladder s).inWindow price = false
      ∧ (b.ladder s).find price = none) ∨
    (∃ l, (b.ladder s).openLevel mem price = .ok ((b.ladder s).refOf price) l
      ∧ (b.setLadder s l).Linked (openIn Q s price) free
      ∧ PriceLadder.SameWindow (b.ladder s) l
      ∧ l.outsideOpens = (if (b.ladder s).inWindow price then (b.ladder s).outsideOpens
          else (b.ladder s).outsideOpens + 1)
      ∧ ¬ (mem = false ∧ (b.ladder s).inWindow price = false ∧ (b.ladder s).find price = none)) := by
  have hopened := (h.ladder s).openLevel mem (p := price) fun v hv =>
    h.allOccupied (hset s) _ hv
  generalize (b.ladder s).openLevel mem price = r at hopened ⊢
  cases hopened with
  | ok l' hw hcount hmem hr =>
    right
    rw [← levelsOf_tryEmplace] at hr
    refine ⟨l', rfl, h.relayout (cellsIn_tryEmplace ..) hr ?_ (hplaced s)
      (hw.placed.trans (hplaced s)), hw, hcount, ?_⟩
    · intro e he
      rcases fst_mem_tryEmplace he with he | rfl
      · exact h.queue s e he
      · exact queued_nil _ _
    · rintro ⟨h1, h2, h3⟩
      rw [h.find_eq_none (hset s)] at h3
      rcases hmem with hin | hlook | hm
      · rw [h2] at hin
        simp at hin
      · rw [h3] at hlook
        simp at hlook
      · rw [h1] at hm
        simp at hm
  | noNode hmem hout habs =>
    left
    refine ⟨_, rfl, ?_, hmem, by simpa using hout, (h.find_eq_none (hset s)).mpr habs⟩
    have hlinked := h.relayout (s := s) rfl
      ((h.ladder s).setOutsideOpens ((b.ladder s).outsideOpens + 1)) (h.queue s) (hplaced s)
      (hplaced s)
    have hsame : setQueue Q s (Q s) = Q := Function.update_eq_self s Q
    rw [hsame] at hlinked
    exact hlinked

section Append

variable {m₁ m₂ : List (Price × List Cell)} {qs : List Cell} {c : Cell}

/-- The levels around an opened one are old. -/
theorem mem_of_mem_around
    (hsplit : tryEmplace (better s.isBid) price [] (Q s) = m₁ ++ (price, qs) :: m₂)
    (hbefore : ∀ e ∈ m₁, better s.isBid e.1 price) (hafter : ∀ e ∈ m₂, better s.isBid price e.1)
    {e : Price × List Cell} (he : e ∈ m₁ ++ m₂) : e ∈ Q s := by
  have hmem : e ∈ tryEmplace (better s.isBid) price [] (Q s) := by
    rw [hsplit]
    rcases List.mem_append.mp he with he | he <;> simp [he]
  rcases fst_mem_tryEmplace hmem with hQ | rfl
  · exact hQ
  · exfalso
    rcases List.mem_append.mp he with he | he
    · exact irrefl_of (better s.isBid) _ (hbefore _ he)
    · exact irrefl_of (better s.isBid) _ (hafter _ he)

theorem settled_append (hset : Settled Q)
    (hsplit : tryEmplace (better s.isBid) price [] (Q s) = m₁ ++ (price, qs) :: m₂)
    (hbefore : ∀ e ∈ m₁, better s.isBid e.1 price) (hafter : ∀ e ∈ m₂, better s.isBid price e.1) :
    Settled (setQueue (openIn Q s price) s (m₁ ++ (price, qs ++ [c]) :: m₂)) := by
  intro t e he
  rcases Side.eq_or_eq_opposite s t with rfl | rfl
  · rw [setQueue_self] at he
    rcases List.mem_append.mp he with hm | hm
    · exact hset t e (mem_of_mem_around hsplit hbefore hafter (by simp [hm]))
    · rcases List.mem_cons.mp hm with rfl | hm
      · simp
      · exact hset t e (mem_of_mem_around hsplit hbefore hafter (by simp [hm]))
  · rw [setQueue_opposite, openIn, setQueue_opposite] at he
    exact hset _ e he

/-- **A cell appended to its level is an order enqueued on its side.** -/
theorem ordersOf_append (hqueue : ∀ e ∈ Q s, ∀ c ∈ e.2, c.2.price = e.1)
    (hprice : c.2.price = price)
    (hsplit : tryEmplace (better s.isBid) price [] (Q s) = m₁ ++ (price, qs) :: m₂)
    (hbefore : ∀ e ∈ m₁, better s.isBid e.1 price) (hafter : ∀ e ∈ m₂, better s.isBid price e.1) :
    ordersOf (m₁ ++ (price, qs ++ [c]) :: m₂) = enqueue s.isBid c.2 (ordersOf (Q s)) := by
  have hcells : cellsIn (Q s) = (cellsIn m₁ ++ qs) ++ cellsIn m₂ := by
    rw [← cellsIn_tryEmplace s.isBid price, hsplit]
    simp
  have hqs : ∀ c ∈ qs, c.2.price = price := by
    have hmem : (price, qs) ∈ tryEmplace (better s.isBid) price [] (Q s) := by
      rw [hsplit]
      simp
    rcases fst_mem_tryEmplace hmem with hQ | heq
    · exact hqueue _ hQ
    · rw [(Prod.mk.inj heq).2]
      simp
  rw [ordersOf, ordersOf, hcells, List.map_append, enqueue_split]
  · simp
  · intro x hx
    obtain ⟨c', hc', rfl⟩ := List.mem_map.mp hx
    rw [hprice]
    rcases List.mem_append.mp hc' with hc' | hc'
    · obtain ⟨e, he, hce⟩ := mem_cellsIn.mp hc'
      rw [hqueue e (mem_of_mem_around hsplit hbefore hafter (by simp [he])) c' hce]
      exact fun hb => irrefl_of (better s.isBid) _ (trans_of (better s.isBid) hb (hbefore e he))
    · rw [hqs c' hc']
      exact irrefl_of (better s.isBid) _
  · intro x hx
    obtain ⟨c', hc', rfl⟩ := List.mem_map.mp hx
    obtain ⟨e, he, hce⟩ := mem_cellsIn.mp hc'
    rw [hprice, hqueue e (mem_of_mem_around hsplit hbefore hafter (by simp [he])) c' hce]
    exact hafter e he

theorem live_append (hlive : Live Q) (hqty : 0 < c.2.qty)
    (hsplit : tryEmplace (better s.isBid) price [] (Q s) = m₁ ++ (price, qs) :: m₂) :
    Live (setQueue (openIn Q s price) s (m₁ ++ (price, qs ++ [c]) :: m₂)) := by
  have hcells : cellsIn (m₁ ++ (price, qs) :: m₂) = cellsIn (Q s) := by
    rw [← hsplit, cellsIn_tryEmplace]
  intro t c' hc'
  rcases Side.eq_or_eq_opposite s t with rfl | rfl
  · rw [setQueue_self] at hc'
    have hmem : c' ∈ cellsIn (m₁ ++ (price, qs) :: m₂) ∨ c' = c := by
      simp only [cellsIn_append, cellsIn_cons, List.mem_append, List.mem_singleton] at hc' ⊢
      tauto
    rcases hmem with hmem | rfl
    · rw [hcells] at hmem
      exact hlive _ c' hmem
    · exact hqty
  · rw [setQueue_opposite, openIn, setQueue_opposite] at hc'
    exact hlive _ c' hc'

end Append

/-- The book with the windows placed and the level of a new order open. -/
structure Opened (b b₁ : OrderBook) (Q : Layout) (free : List SlotIndex) (s : Side) (price : Price) :
    Prop where
  linked : b₁.Linked (openIn Q s price) free
  pool : b₁.pool = b.pool
  same : SameRecords b b₁
  ref : (b₁.ladder s).refOf price = ((b.placeFirst s price).ladder s).refOf price
  window : ∀ t, PriceLadder.SameWindow ((b.placeFirst s price).ladder t) (b₁.ladder t)
  opens : (b₁.ladder s).outsideOpens = if ((b.placeFirst s price).ladder s).inWindow price
    then (b.ladder s).outsideOpens else (b.ladder s).outsideOpens + 1
  opens' : (b₁.ladder s.opposite).outsideOpens = (b.ladder s.opposite).outsideOpens

theorem opened_setLadder {l : PriceLadder s.isBid}
    (hlinked : ((b.placeFirst s price).setLadder s l).Linked (openIn Q s price) free)
    (hwin : PriceLadder.SameWindow ((b.placeFirst s price).ladder s) l)
    (hcount : l.outsideOpens = if ((b.placeFirst s price).ladder s).inWindow price
      then ((b.placeFirst s price).ladder s).outsideOpens
      else ((b.placeFirst s price).ladder s).outsideOpens + 1) :
    Opened b ((b.placeFirst s price).setLadder s l) Q free s price := by
  have hsame := placeFirst_sameRecords b s price
  refine ⟨hlinked, ?_, ⟨?_, ?_, ?_⟩, ?_, fun t => ?_, ?_, ?_⟩
  · rw [setLadder_pool, placeFirst_pool]
  · simpa using hsame.nextSeq
  · simpa using hsame.tradeOut
  · simpa using hsame.policy
  · rw [ladder_setLadder, hwin.refOf]
  · rcases Side.eq_or_eq_opposite s t with rfl | rfl
    · rw [ladder_setLadder]
      exact hwin
    · rw [ladder_setLadder_opposite]
      exact PriceLadder.SameWindow.refl _
  · rw [ladder_setLadder, hcount, placeFirst_opens]
  · rw [ladder_setLadder_opposite, placeFirst_opens]

/-- Opening a level moves no order. -/
theorem entries_openIn (Q : Layout) (s : Side) (price : Price) :
    entries (openIn Q s price) = entries Q := by
  have hcells := cellsIn_tryEmplace s.isBid price (Q s)
  cases s <;> simp_all [entries, openIn, setQueue, Side.isBid]

theorem allCells_openIn (Q : Layout) (s : Side) (price : Price) :
    allCells (openIn Q s price) = allCells Q := by
  cases s <;> simp [allCells, openIn, setQueue]

/-- A pool that gave a slot had one, or room to grow. -/
theorem Linked.not_poolFails (h : b.Linked Q free) {mem : Memory}
    (hroom : free = [] → b.pool.used = b.pool.capacity →
      b.pool.capacity < SlotPool.kMax ∧ mem.slots = true) : ¬ PoolFails mem b := by
  rintro ⟨hhead, hfull, hwhy⟩
  have hfree : free = [] := by
    cases free with
    | nil => rfl
    | cons i is =>
      have hi : i ≠ kNoSlot := h.pool.ne_kNoSlot (by simp)
      rw [h.pool.head] at hhead
      exact absurd hhead hi
  obtain ⟨hcap, hmem⟩ := hroom hfree hfull
  rcases hwhy with hbig | hfail
  · omega
  · rw [hmem] at hfail
    simp at hfail

theorem Linked.live_acquired (h : b.Linked Q free) {pool : OrderSlots} {slot : SlotIndex}
    {free' : List SlotIndex}
    (hw : pool.Wf (slot :: (allCells (openIn Q s price)).map Prod.fst) free') :
    pool.live = b.pool.live + 1 := by
  rw [hw.count, h.pool.count, List.length_cons, List.length_map, List.length_map, allCells_openIn]

/-- A slot that 31 bits can name leaves the mark within them. -/
theorem Linked.used_acquired (h : b.Linked Q free) {pool : OrderSlots} {slot : SlotIndex}
    (hsmall : ¬ 2 ^ 31 ≤ slot.toNat)
    (hused : pool.used = if free = [] then b.pool.used + 1 else b.pool.used)
    (hindex : free = [] → slot.toNat = b.pool.used) : pool.used ≤ 2 ^ 31 := by
  rw [hused]
  split
  · rename_i hfree
    have hslot := hindex hfree
    omega
  · exact h.used

/-- **The end of `insert`**: the slot filled, appended to the open level and filed in the index. -/
theorem Opened.filed {b₁ : OrderBook} {order : Order} (ho : Opened b b₁ Q free s order.price)
    (h : b.Linked Q free) (hset : Settled Q) {mem : Memory} {slot : SlotIndex} {pool : OrderSlots}
    (hw : pool.Wf (slot :: (allCells (openIn Q s order.price)).map Prod.fst) free.tail)
    (hframe : ∀ j ∈ (allCells (openIn Q s order.price)).map Prod.fst, pool.slots j = b.pool.slots j)
    (hused : pool.used ≤ 2 ^ 31) {index : IdIndex UInt32}
    (hindex : index.Represents ((order.id, indexValue slot s) :: entries (openIn Q s order.price))) :
    Inserted mem b Q s order (.ok () { (OrderBook.mk
      (pool.write slot fun x => { x with value := restingOf order }) b₁.bids b₁.asks b₁.orderIndex
      b₁.tradeOut b₁.policy b₁.nextSeq).appendAt s
        (((b.placeFirst s order.price).ladder s).refOf order.price) slot with orderIndex := index }) := by
  obtain ⟨m₁, qs, m₂, hsplit, hbefore, hafter, -⟩ :=
    tryEmplace_split (p := order.price) (sorted_levelsOf.mp (h.sorted s))
  have hQ₁ : openIn Q s order.price s = m₁ ++ (order.price, qs) :: m₂ := by
    rw [openIn, setQueue_self, hsplit]
  obtain ⟨hlinked, hkept⟩ := ho.linked.appendAt hQ₁ rfl hw
    (fun j hj => by rw [ho.pool]; exact hframe j hj) hused hindex
  rw [ho.ref] at hlinked hkept
  refine .ok _ _ _ hlinked (settled_append hset hsplit hbefore hafter)
    (fun hlive hqty => live_append hlive hqty hsplit) ?_ ?_ ?_
    (fun t => (ho.window t).trans (hkept.window t)) ((hkept.opens s).trans ho.opens)
    ((hkept.opens s.opposite).trans ho.opens')
  · rw [setQueue_self]
    exact ordersOf_append (fun e he => (h.queue s e he).price) rfl hsplit hbefore hafter
  · rw [setQueue_opposite, openIn, setQueue_opposite]
  · exact ⟨hkept.nextSeq.trans ho.same.nextSeq, hkept.tradeOut.trans ho.same.tradeOut,
      hkept.policy.trans ho.same.policy⟩

/-- **What `insert` does**, on a settled book that does not hold the order's id. -/
theorem Linked.insert (h : b.Linked Q free) (hset : Settled Q) {order : Order}
    (hside : order.side = s) (habs : order.id ∉ (entries Q).map Prod.fst) (mem : Memory) :
    Inserted mem b Q s order (b.insert mem s order) := by
  have h₀ := h.placeFirst s order.price
  have hplaced := placeFirst_isPlaced h s order.price
  unfold OrderBook.insert
  simp only
  rcases h₀.openLevel hset hplaced s order.price mem.node with
    ⟨l, hopen, hlinked, hfail⟩ | ⟨l, hopen, hlinked, hwin, hcount, hnode⟩
  · rw [hopen]
    exact .noNode _ free hlinked hfail
  have ho := opened_setLadder hlinked hwin hcount
  rw [hopen]
  simp only
  generalize (b.placeFirst s order.price).setLadder s l = b₁ at ho ⊢
  have hused := h.used
  have hk : SlotPool.kMax = 4294967295 := rfl
  have hacq := ho.linked.pool.acquire mem.slots (Or.inr (by rw [ho.pool]; omega))
  rw [ho.pool] at hacq ⊢
  generalize b.pool.acquire mem.slots = r at hacq ⊢
  cases hacq with
  | full e hfree hfull hwhy =>
    have hsame : ({ b₁ with pool := b.pool } : OrderBook) = b₁ := by rw [← ho.pool]
    show Inserted mem b Q s order (.throws e { b₁ with pool := b.pool })
    rw [hsame]
    refine .noSlot e _ free ho.linked hnode ⟨?_, hfull, hwhy⟩
    rw [h.pool.head, hfree]
    rfl
  | ok slot pool hw _ _ hframe _ hused' hindex hroom =>
    have hlive := h.live_acquired hw
    have hnotfull := h.not_poolFails hroom
    by_cases hbig : 2 ^ 31 ≤ slot.toNat
    · simp only [hbig, if_true]
      exact .leaked _ _ hlive hnode hnotfull
    · simp only [hbig, if_false]
      have habs' : order.id ∉ (entries (openIn Q s order.price)).map Prod.fst := by
        rwa [entries_openIn]
      have hins := ho.linked.index.insert (v := indexValue slot s) mem.table habs'
      rw [appendAt_orderIndex, hside]
      dsimp only
      generalize b₁.orderIndex.insert mem.table order.id (indexValue slot s) = r at hins ⊢
      cases hins with
      | failed e index hcount hfull hwhy =>
        refine .leaked e _ ?_ hnode hnotfull
        rw [← hlive]
        exact appendAt_live _ _ _ _
      | ok index hindex' _ _ =>
        exact ho.filed h hset hw hframe (h.used_acquired hbig hused' hindex) hindex'

/-- What a successful `insert` went through. -/
theorem insert_inv (h : b.insert mem s order = .ok () b') :
    ∃ level l slot pool index filled,
      ((b.placeFirst s order.price).ladder s).openLevel mem.node order.price = .ok level l
      ∧ b.pool.acquire mem.slots = .ok slot pool ∧ slot.toNat < 2 ^ 31
      ∧ b.orderIndex.insert mem.table order.id (indexValue slot order.side) = .ok () index
      ∧ (∀ t, OrderBook.ladder filled t = ((b.placeFirst s order.price).setLadder s l).ladder t)
      ∧ filled.pool = (pool.write slot fun x => { x with value := restingOf order })
      ∧ b' = { filled.appendAt s level slot with orderIndex := index } := by
  have hpool := placeFirst_pool b s order.price
  have hindex := placeFirst_orderIndex b s order.price
  unfold OrderBook.insert at h
  simp only at h
  generalize hopen : ((b.placeFirst s order.price).ladder s).openLevel mem.node order.price = r₁ at h
  cases r₁ with
  | ok level l =>
    simp only [setLadder_pool, hpool] at h
    generalize hacquire : b.pool.acquire mem.slots = r₂ at h
    cases r₂ with
    | ok slot pool =>
      simp only at h
      split at h
      · simp at h
      · rename_i hslot
        simp only [appendAt_orderIndex, setLadder_orderIndex, hindex] at h
        generalize hins : b.orderIndex.insert mem.table order.id (indexValue slot order.side) = r₃
          at h
        cases r₃ with
        | ok _ index =>
          obtain ⟨-, rfl⟩ := Result.ok.inj h
          exact ⟨level, l, slot, pool, index, _, rfl, rfl, Nat.not_le.mp hslot, hins,
            fun t => by cases t <;> rfl, rfl, rfl⟩
        | throws e index => simp at h
        | undefined => simp at h
    | throws e pool => simp at h
    | undefined => simp at h
  | throws e l => simp at h
  | undefined => simp at h

end Insert

end OrderBook

end Lob
