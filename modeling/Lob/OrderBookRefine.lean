/-
# Lob.OrderBookRefine — one order in five places, read as one list of cells.

A `Layout` lists, for each side, the levels best-first and in each level the cells of its queue.
`Linked b Q free` says that the ladders, the queues, the pool and the id index of `b` are those the
layout calls for.  It is weak enough to hold in the middle of the matching loop, where the best level
may be empty and not yet closed; `Settled` and `Live` are what a book between calls adds.

Every change to the book is an edit of one level's queue (`Linked.edit`) or the opening or closing of
a level, and each leaves the rest of the layout alone because no slot is in two queues.
-/
import Lob.OrderBook
import Lob.PriceLadderRefine
import Lob.IdIndexRefine

namespace Lob

open Lib.Ranked

/-! ## Layouts -/

/-- Each side's levels, best first, with the cells of their queues. -/
abbrev Layout := Side → List (Price × List Cell)

/-- The cells of some levels, in priority order. -/
def cellsIn (m : List (Price × List Cell)) : List Cell := m.flatMap Prod.snd

/-- The orders of some levels, in priority order. -/
def ordersOf (m : List (Price × List Cell)) : List RestingOrder := (cellsIn m).map Prod.snd

/-- The level records of some levels. -/
def levelsOf (m : List (Price × List Cell)) : List (Price × PriceLevel) :=
  m.map fun e => (e.1, levelOf e.2)

def allCells (Q : Layout) : List Cell := cellsIn (Q .buy) ++ cellsIn (Q .sell)

/-- The index entry of a queued cell. -/
def entryOf (s : Side) (c : Cell) : OrderId × UInt32 := (c.2.id, indexValue c.1 s)

def entries (Q : Layout) : List (OrderId × UInt32) :=
  (cellsIn (Q .buy)).map (entryOf .buy) ++ (cellsIn (Q .sell)).map (entryOf .sell)

section Layouts

variable {Q : Layout} {s : Side} {m₁ m₂ : List (Price × List Cell)} {p : Price} {qs : List Cell}

@[simp] theorem cellsIn_nil : cellsIn [] = [] := rfl

@[simp] theorem cellsIn_cons (e : Price × List Cell) (m : List (Price × List Cell)) :
    cellsIn (e :: m) = e.2 ++ cellsIn m := rfl

@[simp] theorem cellsIn_append (m m' : List (Price × List Cell)) :
    cellsIn (m ++ m') = cellsIn m ++ cellsIn m' := by
  simp [cellsIn]

theorem mem_cellsIn {c : Cell} {m : List (Price × List Cell)} :
    c ∈ cellsIn m ↔ ∃ e ∈ m, c ∈ e.2 := by
  simp [cellsIn]

theorem levelsOf_append (m m' : List (Price × List Cell)) :
    levelsOf (m ++ m') = levelsOf m ++ levelsOf m' := by
  simp [levelsOf]

theorem allCells_perm (Q : Layout) (s : Side) :
    (allCells Q).Perm (cellsIn (Q s) ++ cellsIn (Q s.opposite)) := by
  cases s with
  | buy => exact List.Perm.refl _
  | sell => exact List.perm_append_comm

theorem entries_perm (Q : Layout) (s : Side) :
    (entries Q).Perm ((cellsIn (Q s)).map (entryOf s)
      ++ (cellsIn (Q s.opposite)).map (entryOf s.opposite)) := by
  cases s with
  | buy => exact List.Perm.refl _
  | sell => exact List.perm_append_comm

/-- The queue of one level, and the cells of all the others. -/
theorem allCells_split (hQ : Q s = m₁ ++ (p, qs) :: m₂) :
    (allCells Q).Perm (qs ++ (cellsIn m₁ ++ cellsIn m₂ ++ cellsIn (Q s.opposite))) := by
  refine (allCells_perm Q s).trans ?_
  rw [hQ, cellsIn_append, cellsIn_cons]
  simp only [List.append_assoc]
  exact List.perm_append_comm_assoc _ _ _

theorem entries_split (hQ : Q s = m₁ ++ (p, qs) :: m₂) :
    (entries Q).Perm (qs.map (entryOf s) ++ ((cellsIn m₁ ++ cellsIn m₂).map (entryOf s)
      ++ (cellsIn (Q s.opposite)).map (entryOf s.opposite))) := by
  refine (entries_perm Q s).trans ?_
  rw [hQ, cellsIn_append, cellsIn_cons]
  simp only [List.map_append, List.append_assoc]
  exact List.perm_append_comm_assoc _ _ _

theorem length_entries (Q : Layout) : (entries Q).length = (allCells Q).length := by
  simp [entries, allCells]

end Layouts

/-! ## The value of an index entry -/

section IndexValue

variable {slot : SlotIndex}

theorem indexValue_toNat (hslot : slot.toNat < 2 ^ 31) (s : Side) :
    (indexValue slot s).toNat = 2 * slot.toNat + if s = .sell then 1 else 0 := by
  have hshift : (slot <<< 1).toNat = 2 * slot.toNat := by
    rw [UInt32.toNat_shiftLeft]
    show slot.toNat <<< 1 % 2 ^ 32 = _
    rw [Nat.shiftLeft_eq, Nat.mod_eq_of_lt (by omega)]
    omega
  cases s with
  | buy => simp [indexValue, hshift]
  | sell =>
    simp only [indexValue, if_true, UInt32.toNat_or, hshift]
    show 2 * slot.toNat ||| 1 = _
    rw [← Nat.two_pow_add_eq_or_of_lt (i := 1) (by omega)]

theorem slotOf_indexValue (hslot : slot.toNat < 2 ^ 31) (s : Side) :
    slotOf (indexValue slot s) = slot := by
  apply UInt32.toNat_inj.mp
  rw [slotOf, UInt32.toNat_shiftRight, indexValue_toNat hslot]
  show (2 * slot.toNat + _) >>> 1 = _
  rw [Nat.shiftRight_eq_div_pow]
  split <;> omega

theorem sideOf_indexValue (hslot : slot.toNat < 2 ^ 31) (s : Side) :
    sideOf (indexValue slot s) = s := by
  have hbit : (indexValue slot s &&& 1).toNat = if s = .sell then 1 else 0 := by
    rw [UInt32.toNat_and, indexValue_toNat hslot]
    show _ &&& 1 = _
    rw [Nat.and_one_is_mod]
    split <;> omega
  unfold sideOf
  cases s with
  | buy =>
    have : indexValue slot .buy &&& 1 = 0 := UInt32.toNat_inj.mp hbit
    simp [this]
  | sell =>
    have : indexValue slot .sell &&& 1 ≠ 0 := by
      intro h0
      rw [h0] at hbit
      simp at hbit
    simp [this]

end IndexValue

namespace OrderBook

/-! ## Projections of an edited side -/

section Projections

variable (b : OrderBook) (s : Side) (l : PriceLadder s.isBid)

@[simp] theorem setLadder_pool : (b.setLadder s l).pool = b.pool := by cases s <;> rfl

@[simp] theorem setLadder_orderIndex : (b.setLadder s l).orderIndex = b.orderIndex := by
  cases s <;> rfl

@[simp] theorem setLadder_tradeOut : (b.setLadder s l).tradeOut = b.tradeOut := by cases s <;> rfl

@[simp] theorem setLadder_policy : (b.setLadder s l).policy = b.policy := by cases s <;> rfl

@[simp] theorem setLadder_nextSeq : (b.setLadder s l).nextSeq = b.nextSeq := by cases s <;> rfl

@[simp] theorem ladder_setLadder : (b.setLadder s l).ladder s = l := by cases s <;> rfl

@[simp] theorem ladder_setLadder_opposite :
    (b.setLadder s l).ladder s.opposite = b.ladder s.opposite := by cases s <;> rfl

end Projections

/-! ## The coupling -/

/-- The book `b` is laid out as `Q`, with the free slots `free`. -/
structure Linked (b : OrderBook) (Q : Layout) (free : List SlotIndex) : Prop where
  ladder : ∀ s, (b.ladder s).Represents (levelsOf (Q s))
  queue : ∀ s, ∀ e ∈ Q s, Queued b.pool e.1 e.2
  pool : b.pool.Wf ((allCells Q).map Prod.fst) free
  index : b.orderIndex.Represents (entries Q)
  used : b.pool.used ≤ 2 ^ 31
  placed : ∀ s t, (b.ladder s).isPlaced = (b.ladder t).isPlaced
  unplaced : ∀ s, (b.ladder s).isPlaced = false → Q s = []

/-- No level is left without orders. -/
def Settled (Q : Layout) : Prop := ∀ s, ∀ e ∈ Q s, e.2 ≠ []

/-- Every queued order still wants something. -/
def Live (Q : Layout) : Prop := ∀ s, ∀ c ∈ cellsIn (Q s), 0 < c.2.qty

/-- What no edit of the queues changes. -/
structure Kept (b b' : OrderBook) : Prop where
  nextSeq : b'.nextSeq = b.nextSeq
  tradeOut : b'.tradeOut = b.tradeOut
  policy : b'.policy = b.policy
  window : ∀ s, PriceLadder.SameWindow (b.ladder s) (b'.ladder s)
  opens : ∀ s, (b'.ladder s).outsideOpens = (b.ladder s).outsideOpens

theorem Kept.trans {b b' b'' : OrderBook} (h : Kept b b') (h' : Kept b' b'') : Kept b b'' :=
  ⟨h'.nextSeq.trans h.nextSeq, h'.tradeOut.trans h.tradeOut, h'.policy.trans h.policy,
    fun s => (h.window s).trans (h'.window s), fun s => (h'.opens s).trans (h.opens s)⟩

/-- Writing a level record changes no window and no counter. -/
theorem kept_store {b b₁ : OrderBook} (hladders : ∀ t, b₁.ladder t = b.ladder t)
    (hseq : b₁.nextSeq = b.nextSeq) (hring : b₁.tradeOut = b.tradeOut)
    (hpolicy : b₁.policy = b.policy) {s : Side} (ref : LevelRef) (level : PriceLevel) :
    Kept b (b₁.setLadder s ((b.ladder s).store ref level)) := by
  refine ⟨by simpa using hseq, by simpa using hring, by simpa using hpolicy, ?_, ?_⟩
  · intro t
    rcases Side.eq_or_eq_opposite s t with rfl | rfl
    · rw [ladder_setLadder]
      exact PriceLadder.sameWindow_store _ _ _
    · rw [ladder_setLadder_opposite, hladders]
      exact PriceLadder.SameWindow.refl _
  · intro t
    rcases Side.eq_or_eq_opposite s t with rfl | rfl
    · rw [ladder_setLadder]
      cases ref <;> rfl
    · rw [ladder_setLadder_opposite, hladders]

section Linked

variable {b b' : OrderBook} {Q Q' : Layout} {free free' : List SlotIndex} {s : Side}
  {m₁ m₂ : List (Price × List Cell)} {p : Price} {qs qs' as bs : List Cell} {slot : SlotIndex}
  {o o' : RestingOrder}

theorem Linked.sorted (h : b.Linked Q free) (s : Side) : Sorted (better s.isBid) (levelsOf (Q s)) :=
  (h.ladder s).sorted

/-- The coupling does not read the ring, the policy or the trade counter. -/
theorem Linked.congr (h : b.Linked Q free) (hpool : b'.pool = b.pool)
    (hindex : b'.orderIndex = b.orderIndex) (hladder : ∀ s, b'.ladder s = b.ladder s) :
    b'.Linked Q free where
  ladder s := by rw [hladder]; exact h.ladder s
  queue := by rw [hpool]; exact h.queue
  pool := by rw [hpool]; exact h.pool
  index := by rw [hindex]; exact h.index
  used := by rw [hpool]; exact h.used
  placed s t := by rw [hladder, hladder]; exact h.placed s t
  unplaced s := by rw [hladder]; exact h.unplaced s

theorem Linked.slots_nodup (h : b.Linked Q free) : ((allCells Q).map Prod.fst).Nodup :=
  (List.nodup_append.mp h.pool.nodup).1

/-- A queued slot is below the mark, so its index entry keeps all of it. -/
theorem Linked.slot_lt (h : b.Linked Q free) {c : Cell} (hc : c ∈ allCells Q) :
    c.1.toNat < 2 ^ 31 := by
  have := h.pool.lt_used (List.mem_append_left _ (List.mem_map_of_mem hc))
  have := h.used
  omega

theorem mem_allCells {c : Cell} : c ∈ allCells Q ↔ ∃ s, c ∈ cellsIn (Q s) := by
  constructor
  · intro hc
    rcases List.mem_append.mp hc with hc | hc
    · exact ⟨_, hc⟩
    · exact ⟨_, hc⟩
  · rintro ⟨s, hc⟩
    exact (allCells_perm Q s).mem_iff.mpr (List.mem_append_left _ hc)

theorem mem_allCells_of_mem {e : Price × List Cell} (he : e ∈ Q s) {c : Cell} (hc : c ∈ e.2) :
    c ∈ allCells Q :=
  mem_allCells.mpr ⟨s, mem_cellsIn.mpr ⟨e, he, hc⟩⟩

theorem Linked.ne_kNoSlot (h : b.Linked Q free) {e : Price × List Cell} (he : e ∈ Q s) :
    ∀ i ∈ e.2.map Prod.fst, i ≠ kNoSlot := by
  intro i hi
  obtain ⟨c, hc, rfl⟩ := List.mem_map.mp hi
  exact h.pool.ne_kNoSlot
    (List.mem_append_left _ (List.mem_map_of_mem (mem_allCells_of_mem he hc)))

theorem Linked.level_empty (h : b.Linked Q free) {e : Price × List Cell} (he : e ∈ Q s) :
    (levelOf e.2).empty = e.2.isEmpty :=
  levelOf_empty (h.ne_kNoSlot he)

theorem Linked.allOccupied (h : b.Linked Q free) (hset : ∀ e ∈ Q s, e.2 ≠ []) :
    PriceLadder.AllOccupied (levelsOf (Q s)) := by
  intro e he
  obtain ⟨e', he', rfl⟩ := List.mem_map.mp he
  show (levelOf e'.2).empty = false
  rw [h.level_empty he']
  simpa using hset e' he'

/-- A side with a level has its window placed, and so has the other. -/
theorem Linked.isPlaced (h : b.Linked Q free) (hQ : Q s ≠ []) (t : Side) :
    (b.ladder t).isPlaced = true := by
  rw [h.placed t s]
  by_contra hne
  exact hQ (h.unplaced s (by simpa using hne))

theorem Linked.deref (h : b.Linked Q free) (hQ : Q s = m₁ ++ (p, qs) :: m₂) :
    (b.ladder s).deref ((b.ladder s).refOf p) = levelOf qs :=
  (h.ladder s).deref (by rw [hQ, levelsOf_append]; simp [levelsOf])

theorem levelsOf_adjust {r : Price → Price → Prop} [IsStrictTotalOrder Price r]
    (hs : Sorted r (levelsOf (m₁ ++ (p, qs) :: m₂))) :
    adjust p (fun _ => levelOf qs') (levelsOf (m₁ ++ (p, qs) :: m₂))
      = levelsOf (m₁ ++ (p, qs') :: m₂) := by
  have hsplit : ∀ q : List Cell, levelsOf (m₁ ++ (p, q) :: m₂)
      = levelsOf m₁ ++ (p, levelOf q) :: levelsOf m₂ := fun q => by
    rw [levelsOf_append]
    rfl
  rw [hsplit] at hs ⊢
  rw [hsplit, adjust_split hs]

/-- **The edit lemma.** Rewriting one level's queue, with everything else of the layout as it was,
keeps the coupling. -/
theorem Linked.edit (h : b.Linked Q free) (hQ : Q s = m₁ ++ (p, qs) :: m₂)
    (hQ' : Q' s = m₁ ++ (p, qs') :: m₂) (hopp : Q' s.opposite = Q s.opposite)
    (hladder : b'.ladder s = (b.ladder s).store ((b.ladder s).refOf p) (levelOf qs'))
    (hother : b'.ladder s.opposite = b.ladder s.opposite)
    (hqueue : Queued b'.pool p qs')
    (hframe : ∀ j ∈ (allCells Q).map Prod.fst, j ∉ qs.map Prod.fst → j ∉ qs'.map Prod.fst →
      b'.pool.slots j = b.pool.slots j)
    (hpool : b'.pool.Wf ((allCells Q').map Prod.fst) free') (hused : b'.pool.used ≤ 2 ^ 31)
    (hindex : b'.orderIndex.Represents (entries Q')) : b'.Linked Q' free' := by
  have hnd := ((allCells_split hQ).map Prod.fst).nodup_iff.mp h.slots_nodup
  have hnd' := ((allCells_split hQ').map Prod.fst).nodup_iff.mp (List.nodup_append.mp hpool.nodup).1
  rw [List.map_append] at hnd hnd'
  rw [hopp] at hnd'
  -- the cells of every other level lie outside both versions of the edited queue
  have hkeep : ∀ e : Price × List Cell, Queued b.pool e.1 e.2 →
      (∀ c ∈ e.2, c ∈ cellsIn m₁ ++ cellsIn m₂ ++ cellsIn (Q s.opposite)) →
      Queued b'.pool e.1 e.2 := by
    intro e he hsub
    refine he.congr fun i hi => ?_
    obtain ⟨c, hc, rfl⟩ := List.mem_map.mp hi
    refine hframe c.1 ?_ (fun hmem => ?_) (fun hmem => ?_)
    · exact List.mem_map_of_mem ((allCells_split hQ).mem_iff.mpr
        (List.mem_append_right _ (hsub c hc)))
    · exact List.disjoint_of_nodup_append hnd hmem (List.mem_map_of_mem (hsub c hc))
    · exact List.disjoint_of_nodup_append hnd' hmem (List.mem_map_of_mem (hsub c hc))
  have hplaced : ∀ t, (b'.ladder t).isPlaced = true := by
    intro t
    have hold := h.isPlaced (s := s) (by rw [hQ]; simp)
    rcases Side.eq_or_eq_opposite s t with rfl | rfl
    · rw [hladder, (PriceLadder.sameWindow_store _ _ _).placed]
      exact hold t
    · rw [hother]
      exact hold _
  refine ⟨fun t => ?_, fun t e he => ?_, hpool, hindex, hused, fun t u => by rw [hplaced, hplaced],
    fun t ht => ?_⟩
  · rcases Side.eq_or_eq_opposite s t with rfl | rfl
    · have hsorted := h.sorted t
      rw [hQ] at hsorted
      rw [hladder, hQ', ← levelsOf_adjust hsorted, ← hQ]
      have hmem : (p, levelOf qs) ∈ levelsOf (Q t) := by
        rw [hQ, levelsOf_append]
        simp [levelsOf]
      exact (h.ladder t).store hmem _
    · rw [hother, hopp]
      exact h.ladder _
  · rcases Side.eq_or_eq_opposite s t with rfl | rfl
    · rw [hQ'] at he
      rcases List.mem_append.mp he with he | he
      · refine hkeep e (h.queue t e (by rw [hQ]; simp [he])) fun c hc => ?_
        simp [mem_cellsIn.mpr ⟨e, he, hc⟩]
      · rcases List.mem_cons.mp he with rfl | he
        · exact hqueue
        · refine hkeep e (h.queue t e (by rw [hQ]; simp [he])) fun c hc => ?_
          simp [mem_cellsIn.mpr ⟨e, he, hc⟩]
    · rw [hopp] at he
      refine hkeep e (h.queue _ e he) fun c hc => ?_
      simp [mem_cellsIn.mpr ⟨e, he, hc⟩]
  · rw [hplaced t] at ht
    simp at ht

/-- The layout with one level's queue rewritten. -/
def setQueue (Q : Layout) (s : Side) (m : List (Price × List Cell)) : Layout :=
  Function.update Q s m

@[simp] theorem setQueue_self (Q : Layout) (s : Side) (m : List (Price × List Cell)) :
    setQueue Q s m s = m := Function.update_self ..

@[simp] theorem setQueue_opposite (Q : Layout) (s : Side) (m : List (Price × List Cell)) :
    setQueue Q s m s.opposite = Q s.opposite := Function.update_of_ne s.opposite_ne _ _

/-- The slots in use around a detached cell. -/
theorem slots_detach (hQ : Q s = m₁ ++ (p, as ++ (slot, o) :: bs) :: m₂) :
    ((allCells Q).map Prod.fst).Perm
      (slot :: (allCells (setQueue Q s (m₁ ++ (p, as ++ bs) :: m₂))).map Prod.fst) := by
  have hsplit := (allCells_split hQ).map Prod.fst
  have hsplit' := (allCells_split (setQueue_self Q s (m₁ ++ (p, as ++ bs) :: m₂))).map Prod.fst
  rw [setQueue_opposite] at hsplit'
  refine hsplit.trans (List.Perm.trans ?_ (hsplit'.symm.cons slot))
  simp only [List.map_append, List.map_cons, List.append_assoc, List.cons_append]
  exact List.perm_middle

/-- **Detaching a queued cell** whose index entry is already gone. -/
theorem Linked.detachAt (h : b.Linked Q free)
    (hQ : Q s = m₁ ++ (p, as ++ (slot, o) :: bs) :: m₂) {index : IdIndex UInt32}
    (hindex : index.Represents (entries (setQueue Q s (m₁ ++ (p, as ++ bs) :: m₂)))) :
    (OrderBook.detachAt { b with orderIndex := index } s ((b.ladder s).refOf p) slot).Linked
        (setQueue Q s (m₁ ++ (p, as ++ bs) :: m₂)) (slot :: free)
      ∧ Kept b (OrderBook.detachAt { b with orderIndex := index } s ((b.ladder s).refOf p) slot) := by
  have hmem : (p, as ++ (slot, o) :: bs) ∈ Q s := by rw [hQ]; simp
  have hsplit := (allCells_split hQ).map Prod.fst
  have hsplit' := (allCells_split (setQueue_self Q s (m₁ ++ (p, as ++ bs) :: m₂))).map Prod.fst
  rw [setQueue_opposite] at hsplit'
  have hnd := hsplit.nodup_iff.mp h.slots_nodup
  rw [List.map_append] at hnd
  obtain ⟨pool', hdetach, hqueue, hwf, hused, hframe⟩ := (h.queue s _ hmem).detach
    (h.pool.perm (slots_detach hQ)) fun i hi => hsplit'.mem_iff.mpr (by
      rw [List.map_append]
      exact List.mem_append_left _ hi)
  have hnew : OrderBook.detachAt { b with orderIndex := index } s ((b.ladder s).refOf p) slot
      = ({ b with orderIndex := index, pool := pool' } : OrderBook).setLadder s
          ((b.ladder s).store ((b.ladder s).refOf p) (levelOf (as ++ bs))) := by
    have hl : (OrderBook.ladder { b with orderIndex := index } s) = b.ladder s := by cases s <;> rfl
    rw [OrderBook.detachAt, hl, h.deref hQ, hdetach]
  rw [hnew]
  have hl : ∀ t, OrderBook.ladder { b with orderIndex := index, pool := pool' } t = b.ladder t := by
    intro t
    cases t <;> rfl
  refine ⟨h.edit hQ (setQueue_self ..) (setQueue_opposite ..) (ladder_setLadder ..)
    ((ladder_setLadder_opposite ..).trans (hl _)) ?_ ?_ ?_ ?_ ?_,
    kept_store hl rfl rfl rfl _ _⟩
  · rw [setLadder_pool]
    exact hqueue (List.nodup_append.mp hnd).1
  · intro j _ hj _
    rw [setLadder_pool]
    exact hframe j hj
  · rw [setLadder_pool]
    exact hwf
  · rw [setLadder_pool, hused]
    exact h.used
  · rw [setLadder_orderIndex]
    exact hindex
/-- The index entries around a detached cell. -/
theorem entries_detach (hQ : Q s = m₁ ++ (p, as ++ (slot, o) :: bs) :: m₂) :
    (entries Q).Perm
      ((o.id, indexValue slot s) :: entries (setQueue Q s (m₁ ++ (p, as ++ bs) :: m₂))) := by
  have hsplit' := entries_split (setQueue_self Q s (m₁ ++ (p, as ++ bs) :: m₂))
  rw [setQueue_opposite] at hsplit'
  refine (entries_split hQ).trans (List.Perm.trans ?_ (hsplit'.symm.cons _))
  simp only [List.map_append, List.map_cons, List.append_assoc, List.cons_append]
  exact List.perm_middle

/-- **Dropping a queued order** takes it out of its queue, the pool and the index. -/
theorem Linked.drop (h : b.Linked Q free) (hQ : Q s = m₁ ++ (p, as ++ (slot, o) :: bs) :: m₂) :
    ∃ b', b.drop s ((b.ladder s).refOf p) slot = some b'
      ∧ b'.Linked (setQueue Q s (m₁ ++ (p, as ++ bs) :: m₂)) (slot :: free) ∧ Kept b b' := by
  have hmem : (p, as ++ (slot, o) :: bs) ∈ Q s := by rw [hQ]; simp
  have hval : (b.pool.slots slot).value = o := (h.queue s _ hmem).value (slot, o) (by simp)
  obtain ⟨index, herase, hindex⟩ := h.index.erase_present (entries_detach hQ)
  obtain ⟨hlinked, hkept⟩ := h.detachAt hQ hindex
  exact ⟨_, by rw [OrderBook.drop, hval, herase], hlinked, hkept⟩

/-- **Reducing a queued order in place**: its slot, its level's total, and nothing else. -/
theorem Linked.reduce (h : b.Linked Q free) (hQ : Q s = m₁ ++ (p, as ++ (slot, o) :: bs) :: m₂)
    {n : Quantity} (hn : n ≤ o.qty) {b₁ : OrderBook} (hladders : ∀ t, b₁.ladder t = b.ladder t)
    (hindex : b₁.orderIndex = b.orderIndex)
    (hpool : b₁.pool = b.pool.write slot fun x => { x with value := { x.value with
      qty := x.value.qty - n } }) :
    (b₁.setLadder s ((b.ladder s).store ((b.ladder s).refOf p)
      { levelOf (as ++ (slot, o) :: bs) with
        totalQty := (levelOf (as ++ (slot, o) :: bs)).totalQty - n.toUInt64 })).Linked
      (setQueue Q s (m₁ ++ (p, as ++ (slot, { o with qty := o.qty - n }) :: bs) :: m₂)) free := by
  have hmem : (p, as ++ (slot, o) :: bs) ∈ Q s := by rw [hQ]; simp
  have hq := h.queue s _ hmem
  have hval : (b.pool.slots slot).value = o := hq.value (slot, o) (by simp)
  have hsplit := (allCells_split hQ).map Prod.fst
  have hsplit' := (allCells_split (setQueue_self Q s
    (m₁ ++ (p, as ++ (slot, { o with qty := o.qty - n }) :: bs) :: m₂))).map Prod.fst
  rw [setQueue_opposite] at hsplit'
  have hnd := hsplit.nodup_iff.mp h.slots_nodup
  rw [List.map_append] at hnd
  have hslots : (as ++ (slot, { o with qty := o.qty - n }) :: bs).map Prod.fst
      = (as ++ (slot, o) :: bs).map Prod.fst := by simp
  have hwrite : b₁.pool = b.pool.write slot fun x => { x with value := { o with qty := o.qty - n } } := by
    rw [hpool, SlotPool.write, SlotPool.write, hval]
  -- the running total of the level is still the volume of its orders
  have hlevel : { levelOf (as ++ (slot, o) :: bs) with
        totalQty := (levelOf (as ++ (slot, o) :: bs)).totalQty - n.toUInt64 }
      = levelOf (as ++ (slot, { o with qty := o.qty - n }) :: bs) := by
    have hle := UInt32.le_iff_toNat_le.mp hn
    have hvol : volume ((as ++ (slot, o) :: bs).map Prod.snd)
        = volume ((as ++ (slot, { o with qty := o.qty - n }) :: bs).map Prod.snd) + n.toNat := by
      simp only [List.map_append, List.map_cons, volume_append, volume_cons,
        UInt32.toNat_sub_of_le _ _ hn]
      omega
    simp only [levelOf, hslots, PriceLevel.mk.injEq, and_true]
    rw [hvol, UInt64.ofNat_add, toUInt64_eq_ofNat, UInt64.add_sub_cancel]
  rw [hlevel]
  refine h.edit hQ (setQueue_self ..) (setQueue_opposite ..) (ladder_setLadder ..)
    ((ladder_setLadder_opposite ..).trans (hladders _)) ?_ ?_ ?_ ?_ ?_
  · rw [setLadder_pool, hwrite]
    exact hq.rewrite (List.nodup_append.mp hnd).1 (hq.price (slot, o) (by simp))
  · intro j _ hj _
    have hne : j ≠ slot := by
      rintro rfl
      exact hj (by simp)
    rw [setLadder_pool, hwrite]
    exact Function.update_of_ne hne _ _
  · rw [setLadder_pool, hwrite]
    refine (h.pool.perm ?_).write ?_ _
    · refine hsplit.trans (List.Perm.trans ?_ hsplit'.symm)
      simp only [List.map_append, List.map_cons]
      exact List.Perm.refl _
    · exact hsplit'.mem_iff.mpr (by simp)
  · rw [setLadder_pool, hwrite]
    exact h.used
  · rw [setLadder_orderIndex, hindex]
    have hent := entries_split (setQueue_self Q s
      (m₁ ++ (p, as ++ (slot, { o with qty := o.qty - n }) :: bs) :: m₂))
    rw [setQueue_opposite] at hent
    refine h.index.of_perm ((entries_split hQ).trans (List.Perm.trans ?_ hent.symm))
    simp [entryOf]

/-- Rearranging the levels of one side without touching a queue. -/
theorem Linked.relayout (h : b.Linked Q free) {l : PriceLadder s.isBid}
    {m : List (Price × List Cell)} (hcells : cellsIn m = cellsIn (Q s))
    (hrep : l.Represents (levelsOf m)) (hqueue : ∀ e ∈ m, Queued b.pool e.1 e.2)
    (hold : (b.ladder s).isPlaced = true) (hnew : l.isPlaced = true) :
    (b.setLadder s l).Linked (setQueue Q s m) free := by
  have hall : allCells (setQueue Q s m) = allCells Q := by
    cases s <;> simp [allCells, setQueue, hcells]
  have hent : entries (setQueue Q s m) = entries Q := by
    cases s <;> simp [entries, setQueue, hcells]
  have hplaced : ∀ t, ((b.setLadder s l).ladder t).isPlaced = true := by
    intro t
    rcases Side.eq_or_eq_opposite s t with rfl | rfl
    · rw [ladder_setLadder]
      exact hnew
    · rw [ladder_setLadder_opposite, h.placed _ s]
      exact hold
  refine ⟨fun t => ?_, fun t e he => ?_, ?_, ?_, ?_, fun t u => by rw [hplaced, hplaced],
    fun t ht => ?_⟩
  · rcases Side.eq_or_eq_opposite s t with rfl | rfl
    · rw [ladder_setLadder, setQueue_self]
      exact hrep
    · rw [ladder_setLadder_opposite, setQueue_opposite]
      exact h.ladder _
  · rw [setLadder_pool]
    rcases Side.eq_or_eq_opposite s t with rfl | rfl
    · rw [setQueue_self] at he
      exact hqueue e he
    · rw [setQueue_opposite] at he
      exact h.queue _ e he
  · rw [setLadder_pool, hall]
    exact h.pool
  · rw [setLadder_orderIndex, hent]
    exact h.index
  · rw [setLadder_pool]
    exact h.used
  · rw [hplaced t] at ht
    simp at ht

/-- **Closing an emptied level** takes it out of the layout. -/
theorem Linked.closeAt (h : b.Linked Q free) (hQ : Q s = m₁ ++ (p, []) :: m₂)
    (hset : ∀ e ∈ m₁ ++ m₂, e.2 ≠ []) :
    ∃ b', b.closeAt s p = some b' ∧ b'.Linked (setQueue Q s (m₁ ++ m₂)) free ∧ Kept b b' := by
  have hsorted := h.sorted s
  have hlevels : levelsOf (m₁ ++ (p, []) :: m₂) = levelsOf m₁ ++ (p, {}) :: levelsOf m₂ := by
    rw [levelsOf_append]
    rfl
  have hocc : ∀ e ∈ levelsOf (Q s), e.1 ≠ p → e.2.empty = false := by
    intro e he hne
    obtain ⟨e', he', rfl⟩ := List.mem_map.mp he
    show (levelOf e'.2).empty = false
    rw [h.level_empty he']
    rw [hQ] at he'
    have hmem : e' ∈ m₁ ++ m₂ := by
      rcases List.mem_append.mp he' with hm | hm
      · simp [hm]
      · rcases List.mem_cons.mp hm with rfl | hm
        · exact absurd rfl hne
        · simp [hm]
    simpa using hset e' hmem
  obtain ⟨l', hclosed, hwin, hopens, hrep⟩ :=
    (h.ladder s).closed (p := p) (by rw [hQ, hlevels]; simp) hocc
  rw [hQ, hlevels] at hsorted
  rw [hQ, hlevels, erase_split hsorted, ← levelsOf_append] at hrep
  have hplaced := h.isPlaced (s := s) (by rw [hQ]; simp) s
  refine ⟨b.setLadder s l', by rw [OrderBook.closeAt, hclosed]; rfl,
    h.relayout (by rw [hQ]; simp) hrep (fun e he => h.queue s e ?_) hplaced
      (hwin.placed.trans hplaced), by simp, by simp, by simp, fun t => ?_, fun t => ?_⟩
  · rw [hQ]
    rcases List.mem_append.mp he with hm | hm <;> simp [hm]
  · rcases Side.eq_or_eq_opposite s t with rfl | rfl
    · rw [ladder_setLadder]
      exact hwin
    · rw [ladder_setLadder_opposite]
      exact PriceLadder.SameWindow.refl _
  · rcases Side.eq_or_eq_opposite s t with rfl | rfl
    · rw [ladder_setLadder]
      exact hopens
    · rw [ladder_setLadder_opposite]

end Linked

end OrderBook

end Lob
