/-
# Lob.Contracts — the book always uses its components within their contracts.

Each call adds its uses to the history, and every one of them is in contract: the id index is asked to
insert what it lacks and to erase what it holds, a slot is released once for each time it was handed
out and only after everything that named it was unlinked, a level is closed when and only when it was
just emptied, and no subscript leaves its array.  That holds between any two uses, so also in the
middle of the matching loop.
-/
import Lob.CallRule
import Lob.LoopUses

namespace Lob

open Lib.Ranked Lib.Machine OrderBook

namespace OrderBook

section Calls

variable {b b' : OrderBook} {a : PriorityBook} {Q Q' : Layout} {free free' : List SlotIndex}
  {past : List Use} {s : Side} {mem : Memory} {order : Order} {slot : SlotIndex} {o : RestingOrder}

/-- Two layouts of one book use the same slots. -/
theorem Linked.slots_unique (h : b.Linked Q free) (h' : b.Linked Q' free') (i : SlotIndex) :
    i ∈ (allCells Q).map Prod.fst ↔ i ∈ (allCells Q').map Prod.fst :=
  h.pool.mem_live h'.pool

/-- A book holds at most `2^31` orders, so none of its counts comes near `2^64`. -/
theorem Linked.length_le (h : b.Linked Q free) : (allCells Q).length ≤ 2 ^ 31 := by
  have hlen := h.pool.length_add
  have hused := h.used
  rw [List.length_map] at hlen
  omega

theorem Linked.occupied_le (h : b.Linked Q free) (hset : Settled Q) (s : Side) :
    (b.ladder s).occupied ≤ 2 ^ 31 := by
  have hlevels := length_le_cells (hset s)
  have hcells := (allCells_perm Q s).length_eq
  have hall := h.length_le
  have hin : ((b.ladder s).inside (levelsOf (Q s))).length ≤ (levelsOf (Q s)).length :=
    List.length_filter_le _ _
  have hlen : (levelsOf (Q s)).length = (Q s).length := List.length_map _
  rw [List.length_append] at hcells
  rw [(h.ladder s).occupied]
  omega

/-! ## check_invariants -/

theorem visited_lt {isBid : Bool} {l : PriceLadder isBid} {m : List (Price × PriceLevel)}
    (h : l.Represents m) (hocc : 0 < l.occupied) {i : Nat} (hi : i ∈ l.visited) : i < l.windowSize := by
  have hbest := h.bestIdx_lt hocc
  have hlimit := h.limit_le
  rw [PriceLadder.mem_visited] at hi
  split at hi <;> omega

theorem mem_walkUses (pool : OrderSlots) {u : Use} :
    ∀ (xs : List SlotIndex) (fuel : Nat),
      Lib.Linked.Forward (fun i => (pool.slots i).next) kNoSlot xs →
      u ∈ walkUses pool fuel (xs.headD kNoSlot) → ∃ i ∈ xs, u = .subscript i := by
  intro xs
  induction xs with
  | nil =>
    intro fuel _ hu
    cases fuel <;> simp [walkUses] at hu
  | cons i xs ih =>
    intro fuel hf hu
    cases fuel with
    | zero =>
      unfold walkUses at hu
      split at hu
      · simp at hu
      · exact ⟨i, List.mem_cons_self, List.mem_singleton.mp hu⟩
    | succ fuel =>
      unfold walkUses at hu
      split at hu
      · simp at hu
      · rcases List.mem_cons.mp hu with rfl | hu
        · exact ⟨i, List.mem_cons_self, rfl⟩
        · obtain ⟨j, hj, rfl⟩ := ih fuel hf.2 (hf.1 ▸ hu)
          exact ⟨j, List.mem_cons_of_mem _ hj, rfl⟩

theorem Linked.bestUses (h : b.Linked Q free) (s : Side) :
    ∀ u ∈ (b.ladder s).bestUses, u.silent = true ∧ u.Allowed past := by
  intro u hu
  unfold PriceLadder.bestUses at hu
  split at hu
  · rename_i hocc
    rw [List.mem_singleton.mp hu]
    exact ⟨rfl, (h.ladder s).bestIdx_lt hocc, trivial⟩
  · simp at hu

theorem Linked.checkSideUses (h : b.Linked Q free) (hset : Settled Q) (ht : Tracks past Q) (s : Side) :
    ∀ u ∈ b.checkSideUses s, u.silent = true ∧ u.Allowed past := by
  intro u hu
  unfold OrderBook.checkSideUses at hu
  simp only [List.mem_append] at hu
  rcases hu with ((hu | hu) | hu) | hu
  · obtain ⟨i, hi, rfl⟩ := List.mem_map.mp hu
    exact ⟨rfl, List.mem_range.mp hi, trivial⟩
  · exact h.bestUses s u hu
  · split at hu
    · rename_i hocc
      obtain ⟨i, hi, rfl⟩ := List.mem_map.mp hu
      exact ⟨rfl, visited_lt (h.ladder s) hocc hi, trivial⟩
    · simp at hu
  · obtain ⟨e, he, hu⟩ := List.mem_flatMap.mp hu
    rw [h.forEachLevel (hset s)] at he
    obtain ⟨e', he', rfl⟩ := List.mem_map.mp he
    obtain ⟨i, hi, rfl⟩ := mem_walkUses b.pool _ _ (h.queue s e' he').forward hu
    obtain ⟨c, hc, rfl⟩ := List.mem_map.mp hi
    exact ⟨rfl, (ht.slots _).mpr (List.mem_map_of_mem (mem_allCells_of_mem he' hc)), trivial⟩

/-- **The checks of a build with assertions** are in contract. -/
theorem Linked.checkUses (h : b.Linked Q free) (hset : Settled Q) (ht : Tracks past Q) :
    Tracks (b.checkUses.reverse ++ past) Q := by
  refine ht.silent fun u hu => ?_
  unfold OrderBook.checkUses at hu
  simp only [List.mem_append] at hu
  rcases hu with ((hu | hu) | hu) | hu
  · exact h.checkSideUses hset ht .buy u hu
  · exact h.checkSideUses hset ht .sell u hu
  · exact h.bestUses .buy u hu
  · exact h.bestUses .sell u hu

/-! ## insert -/

/-- Opening a level reads it, and may take a map node. -/
theorem Linked.openUses (h : b.Linked Q free) (hset : Settled Q) (s : Side) (price : Price) :
    ∀ u ∈ b.openUses s price, u.silent = true ∧ u.Allowed past := by
  intro u hu
  unfold OrderBook.openUses at hu
  simp only at hu
  split at hu
  · rename_i hin
    rcases List.mem_cons.mp hu with rfl | hu
    · exact ⟨rfl, Nat.lt_of_lt_of_le (PriceLadder.index_lt hin) (h.ladder s).limit_le, trivial⟩
    · split at hu
      · rw [List.mem_singleton.mp hu]
        have hocc := h.occupied_le hset s
        refine ⟨rfl, trivial, ?_⟩
        show (b.ladder s).occupied + 1 < 2 ^ 64
        omega
      · simp at hu
  · split at hu
    · rw [List.mem_singleton.mp hu]
      exact ⟨rfl, trivial, trivial⟩
    · simp at hu

/-- The uses that fill the slot of a resting order, append it to its level and file it. -/
theorem Linked.fillUses (h : b.Linked Q free) {m₁ m₂ : List (Price × List Cell)} {qs : List Cell}
    (hQ : Q s = m₁ ++ (order.price, qs) :: m₂) (hside : order.side = s)
    (habs : order.id ∉ (entries Q).map Prod.fst) (hslot : slot.toNat < 2 ^ 31)
    {pool : OrderSlots} (hvalue : (pool.slots slot).value = restingOf order)
    (hroom : volume ((qs ++ [(slot, restingOf order)]).map Prod.snd) < 2 ^ 64)
    (hin : ∀ i, handedOut i past = true ↔ i = slot ∨ i ∈ (allCells Q).map Prod.fst) :
    ∀ u ∈ Use.subscript slot
        :: OrderBook.appendUses { b with pool := pool } s ((b.ladder s).refOf order.price) slot
        ++ [.sum (.pack slot order.side), .indexInsert b.orderIndex order.id,
          .sum (.inc b.orderIndex.count)],
      u.silent = true ∧ u.Allowed past := by
  have hladder : OrderBook.ladder { b with pool := pool } s = b.ladder s := by cases s <;> rfl
  have hown : handedOut slot past = true := (hin slot).mpr (Or.inl rfl)
  have hmem : (order.price, qs) ∈ Q s := by rw [hQ]; simp
  intro u hu
  unfold OrderBook.appendUses at hu
  rw [hladder] at hu
  simp only [List.mem_append, List.mem_cons, List.not_mem_nil, or_false] at hu
  rcases hu with (rfl | (rfl | hu) | rfl) | rfl | rfl | rfl
  · exact ⟨rfl, hown, trivial⟩
  · exact ⟨rfl, hown, trivial⟩
  · split at hu
    · rename_i hne
      rw [List.mem_singleton.mp hu]
      exact ⟨rfl, (hin _).mpr (Or.inr ((h.ends s _).2.resolve_left hne)), trivial⟩
    · simp at hu
  · refine ⟨rfl, trivial, exact_add64 ?_⟩
    have htotal : (levelOf qs).totalQty.toNat = volume (qs.map Prod.snd) := h.level_total hmem
    rw [h.deref hQ, htotal, hvalue, UInt32.toNat_toUInt64]
    rw [List.map_append, volume_append] at hroom
    have hlast : volume ([(slot, restingOf order)].map Prod.snd) = (restingOf order).qty.toNat := rfl
    omega
  · exact ⟨rfl, trivial, slotOf_indexValue hslot _, sideOf_indexValue hslot _⟩
  · exact ⟨rfl, h.index.find_absent habs, trivial⟩
  · refine ⟨rfl, trivial, ?_⟩
    have hcount := h.index.count
    have hlen := h.length_le
    rw [length_entries] at hcount
    show b.orderIndex.count + 1 < 2 ^ 64
    omega

/-- The slots in use once a new order is queued. -/
theorem slots_append {m₁ m₂ : List (Price × List Cell)} {p : Price} {qs : List Cell} {c : Cell}
    (hQ : Q s = m₁ ++ (p, qs) :: m₂) (i : SlotIndex) :
    i ∈ (allCells (setQueue Q s (m₁ ++ (p, qs ++ [c]) :: m₂))).map Prod.fst
      ↔ i = c.1 ∨ i ∈ (allCells Q).map Prod.fst := by
  have hsplit' : setQueue Q s (m₁ ++ (p, qs ++ c :: []) :: m₂) s = m₁ ++ (p, qs ++ c :: []) :: m₂ :=
    setQueue_self ..
  have hback : setQueue (setQueue Q s (m₁ ++ (p, qs ++ c :: []) :: m₂)) s (m₁ ++ (p, qs ++ []) :: m₂)
      = Q := by
    have hidem : setQueue (setQueue Q s (m₁ ++ (p, qs ++ c :: []) :: m₂)) s (m₁ ++ (p, qs ++ []) :: m₂)
        = setQueue Q s (m₁ ++ (p, qs ++ []) :: m₂) := Function.update_idem ..
    rw [hidem, List.append_nil, ← hQ]
    exact Function.update_eq_self s Q
  have hperm := slots_detach hsplit'
  rw [hback] at hperm
  rw [hperm.mem_iff, List.mem_cons]

/-- **Resting an order** is in contract. -/
theorem Linked.insertUses (h : b.Linked Q free) (hset : Settled Q) (hside : order.side = s)
    (habs : order.id ∉ (entries Q).map Prod.fst) (ht : Tracks past Q)
    (hins : b.insert mem s order = .ok () b') :
    ∃ Q' free', b'.Linked Q' free' ∧ Settled Q'
      ∧ Tracks ((b.insertUses mem s order).reverse ++ past) Q' := by
  have h₀ := h.placeFirst s order.price
  have hplaced := placeFirst_isPlaced h s order.price
  unfold OrderBook.insert at hins
  unfold OrderBook.insertUses
  simp only at hins ⊢
  generalize b.placeFirst s order.price = b₀ at h₀ hplaced hins ⊢
  -- the call returned, so no step of it threw
  rcases h₀.openLevel hset hplaced s order.price mem.node with
    ⟨l, hopen, -⟩ | ⟨l, hopen, hlinked, hwin, -⟩
  · rw [hopen] at hins
    simp at hins
  rw [hopen] at hins ⊢
  simp only at hins ⊢
  have href : ((b₀.setLadder s l).ladder s).refOf order.price = (b₀.ladder s).refOf order.price := by
    rw [ladder_setLadder, hwin.refOf]
  -- the uses of opening the level come first, then the slot, then the writes to it
  have hfirst : Tracks ((b₀.openUses s order.price).reverse ++ past) Q :=
    ht.silent (h₀.openUses hset s order.price)
  generalize b₀.openUses s order.price = us₀ at hfirst ⊢
  generalize b₀.setLadder s l = b₁ at hlinked href hins ⊢
  have hused := hlinked.used
  have hk : SlotPool.kMax = 4294967295 := rfl
  have hacq := hlinked.pool.acquire mem.slots (Or.inr (by omega))
  generalize b₁.pool.acquire mem.slots = r at hacq hins ⊢
  cases hacq with
  | full e hfree hfull hwhy => simp at hins
  | ok slot pool' hw hprev hnext hframe hlifo hused' hindex hroom =>
  simp only at hins ⊢
  by_cases hbig : 2 ^ 31 ≤ slot.toNat
  · rw [if_pos hbig] at hins
    simp at hins
  rw [if_neg hbig] at hins ⊢
  obtain ⟨m₁, qs, m₂, hsplit, hbefore, hafter, -⟩ :=
    tryEmplace_split (p := order.price) (sorted_levelsOf.mp (h.sorted s))
  have hQ₁ : openIn Q s order.price s = m₁ ++ (order.price, qs) :: m₂ := by
    rw [openIn, setQueue_self, hsplit]
  have hidx := hlinked.index.insert (v := indexValue slot s) mem.table (by rwa [entries_openIn])
  rw [appendAt_orderIndex, hside] at hins
  simp only at hins
  generalize b₁.orderIndex.insert mem.table order.id (indexValue slot s) = r at hidx hins
  cases hidx with
  | failed e index hcount hfull hwhy => simp at hins
  | ok index hindex' hsize hgrowths =>
  obtain ⟨hl₂, -⟩ := hlinked.appendAt hQ₁ rfl hw (fun j hj => hframe j hj)
    (hlinked.used_acquired hbig hused' hindex) hindex'
  rw [href] at hl₂
  simp only [Result.ok.injEq, true_and] at hins
  subst hins
  have hset₂ := settled_append (c := (slot, restingOf order)) hset hsplit hbefore hafter
  refine ⟨_, _, hl₂, hset₂, ?_⟩
  have hnew : slot ∉ (allCells Q).map Prod.fst := by
    rw [← allCells_openIn Q s order.price]
    exact (List.nodup_cons.mp (List.nodup_append.mp hw.nodup).1).1
  have hlive : (Arith.inc b₁.pool.live).Exact := by
    have hcount := hlinked.pool.count
    have hlen := hlinked.length_le
    rw [List.length_map] at hcount
    show b₁.pool.live + 1 < 2 ^ 64
    omega
  have hvalue : ((pool'.write slot fun x => { x with value := restingOf order }).slots slot).value
      = restingOf order := by simp [SlotPool.write]
  have hlast : (order.price, qs ++ [(slot, restingOf order)])
      ∈ setQueue (openIn Q s order.price) s
        (m₁ ++ (order.price, qs ++ [(slot, restingOf order)]) :: m₂) s := by
    rw [setQueue_self]
    simp
  have hroom := hl₂.level_volume_lt hlast
  have hin : ∀ i, handedOut i (.acquire slot :: (us₀.reverse ++ past)) = true
      ↔ i = slot ∨ i ∈ (allCells (openIn Q s order.price)).map Prod.fst := by
    rw [allCells_openIn]
    exact hfirst.handedOut_acquire slot
  have hfill := hlinked.fillUses hQ₁ hside (by rwa [entries_openIn]) (by omega) hvalue hroom hin
  rw [href] at hfill
  have hinc : (Use.sum (.inc b₁.pool.live)).silent = true
      ∧ (Use.sum (.inc b₁.pool.live)).Allowed (.acquire slot :: (us₀.reverse ++ past)) :=
    ⟨rfl, trivial, hlive⟩
  have hacquire := hfirst.acquire hset hset₂ hnew (fun i => by rw [slots_append hQ₁, allCells_openIn])
    (List.forall_mem_cons.mpr ⟨hinc, hfill⟩)
  rw [List.reverse_append, List.append_assoc]
  exact hacquire

/-! ## cancel -/

/-- The lookup of a resting order's level. -/
theorem Linked.lookupUses (h : b.Linked Q free) {p : Price} (hown : handedOut slot past = true)
    (hfind : (b.ladder s).find p = some ((b.ladder s).refOf p)) :
    ∀ u ∈ Use.subscript slot :: (b.ladder s).findUses p ++ [Use.levelFound ((b.ladder s).find p)],
      u.silent = true ∧ u.Allowed past := by
  intro u hu
  unfold PriceLadder.findUses at hu
  simp only [List.mem_append, List.mem_cons, List.not_mem_nil, or_false] at hu
  rcases hu with (rfl | hu) | rfl
  · exact ⟨rfl, hown, trivial⟩
  · split at hu
    · rename_i hin
      rw [List.mem_singleton.mp hu]
      exact ⟨rfl, Nat.lt_of_lt_of_le (PriceLadder.index_lt hin) (h.ladder s).limit_le, trivial⟩
    · simp at hu
  · exact ⟨rfl, by rw [hfind]; rfl, trivial⟩

/-- **Taking a queued order off its level** is in contract: its level is found, and closed when it
was the last order there. -/
theorem Linked.removeUses (h : b.Linked Q free) (hset : Settled Q) {m₁ m₂ : List (Price × List Cell)}
    {p : Price} {as bs : List Cell} (hQ : Q s = m₁ ++ (p, as ++ (slot, o) :: bs) :: m₂)
    {index : IdIndex UInt32}
    (hindex : index.Represents (entries (setQueue Q s (m₁ ++ (p, as ++ bs) :: m₂))))
    (ht : Tracks past Q)
    (hrem : ({ b with orderIndex := index } : OrderBook).remove s slot = some b') :
    ∃ Q' free', b'.Linked Q' free' ∧ Settled Q'
      ∧ Tracks ((({ b with orderIndex := index } : OrderBook).removeUses s slot).reverse ++ past) Q' := by
  have hmem : (p, as ++ (slot, o) :: bs) ∈ Q s := by rw [hQ]; simp
  have hqueue := h.queue s _ hmem
  have hvalue : (b.pool.slots slot).value = o := hqueue.value (slot, o) (by simp)
  have hprice : o.price = p := hqueue.price (slot, o) (by simp)
  have hladder : OrderBook.ladder { b with orderIndex := index } s = b.ladder s := by cases s <;> rfl
  have hfind := h.find_level (hset s) hmem
  have hown : handedOut slot past = true := by
    rw [ht.slots, (slots_detach hQ).mem_iff]
    exact List.mem_cons_self
  have hrest : ∀ e ∈ m₁ ++ m₂, e.2 ≠ [] := by
    intro e he
    refine hset s e ?_
    rw [hQ]
    rcases List.mem_append.mp he with he | he <;> simp [he]
  have hlookup := ht.silent (h.lookupUses hown hfind)
  obtain ⟨hlinked, hkept⟩ := h.detachAt hQ hindex
  have hpool : OrderBook.pool { b with orderIndex := index } = b.pool := rfl
  have hdetach := hlookup.detach h hset hQ hpool hladder hlinked
  obtain ⟨b₂, m, hrem₂, hlinked₂, hcells, hset₂, -⟩ := h.remove hset hQ hindex
  obtain rfl : b₂ = b' := Option.some.inj (hrem₂.symm.trans hrem)
  refine ⟨_, _, hlinked₂, settled_setQueue hset hset₂, ?_⟩
  unfold OrderBook.removeUses
  simp only [hvalue, hprice, hladder, hfind]
  generalize hb₁ : ({ b with orderIndex := index } : OrderBook).detachAt s ((b.ladder s).refOf p) slot = b₁
    at hlinked hkept ⊢
  have hsplit : setQueue Q s (m₁ ++ (p, as ++ bs) :: m₂) s = m₁ ++ (p, as ++ bs) :: m₂ :=
    setQueue_self ..
  have href : (b₁.ladder s).refOf p = (b.ladder s).refOf p := (hkept.window s).refOf p
  have hempty := hlinked.level_empty (s := s) (e := (p, as ++ bs)) (by rw [hsplit]; simp)
  rw [← hlinked.deref hsplit, href] at hempty
  have hshape : ∀ us ws : List Use, (Use.subscript slot :: (b.ladder s).findUses p
      ++ Use.levelFound (some ((b.ladder s).refOf p)) :: (us ++ ws)).reverse ++ past
        = ws.reverse ++ (us.reverse ++ ((Use.subscript slot :: (b.ladder s).findUses p
          ++ [Use.levelFound ((b.ladder s).find p)]).reverse ++ past)) := fun us ws => by
    simp [hfind]
  rw [hshape, hempty]
  have hallcells : ∀ m' : List (Price × List Cell), cellsIn m' = cellsIn m →
      allCells (setQueue Q s m') = allCells (setQueue Q s m) := fun m' hm' => by
    cases s <;> simp [allCells, setQueue, hm']
  -- an emptied level is closed after the detach
  by_cases hnil : as ++ bs = []
  · rw [hnil] at hlinked hsplit hdetach
    have hclose := hdetach.close hlinked hsplit hrest
      (by rw [setQueue_opposite]; exact hset s.opposite)
    have hidem : setQueue (setQueue Q s (m₁ ++ (p, []) :: m₂)) s (m₁ ++ m₂)
        = setQueue Q s (m₁ ++ m₂) := Function.update_idem ..
    rw [hidem] at hclose
    rw [if_pos (by simpa using hnil)]
    refine hclose.relabel (settled_setQueue hset hrest) (settled_setQueue hset hset₂) fun i => ?_
    rw [hallcells (m₁ ++ m₂) (by rw [hcells, hnil, cellsIn_append, List.append_nil])]
  · have hfull : ∀ e ∈ m₁ ++ (p, as ++ bs) :: m₂, e.2 ≠ [] := by
      intro e he
      rcases List.mem_append.mp he with he | he
      · exact hrest e (by simp [he])
      · rcases List.mem_cons.mp he with rfl | he
        · exact hnil
        · exact hrest e (by simp [he])
    rw [if_neg (by simpa using hnil)]
    refine hdetach.relabel (settled_setQueue hset hfull) (settled_setQueue hset hset₂) fun i => ?_
    rw [hallcells (m₁ ++ (p, as ++ bs) :: m₂) (by
      rw [hcells, cellsIn_append, cellsIn_cons]
      simp only [List.append_assoc])]

/-- **A cancel** is in contract. -/
theorem Follows.cancelUses (h : b.Follows a Q free) (ht : Tracks past Q) {id : OrderId} {found : Bool}
    (hcancel : b.cancel id = some (found, b')) :
    ∃ Q' free', b'.Linked Q' free' ∧ Settled Q' ∧ Tracks ((b.cancelUses id).reverse ++ past) Q' := by
  rcases h.located id with ⟨hdead, -⟩ | ⟨s, o, -, ho, rfl, -⟩
  · have habs : id ∉ (entries Q).map Prod.fst := by
      rw [h.mem_ids, hdead]
      simp
    rw [OrderBook.cancel, h.linked.index.take_absent habs] at hcancel
    obtain ⟨rfl, rfl⟩ := Prod.mk.inj (Option.some.inj hcancel)
    refine ⟨Q, free, h.linked, h.settled, ?_⟩
    rw [OrderBook.cancelUses, h.linked.index.take_absent habs]
    exact ht
  · obtain ⟨slot, m₁, p, as, bs, m₂, hQ⟩ := h.locate ho
    have hcell : (slot, o) ∈ cellsIn (Q s) := by rw [hQ]; simp
    obtain ⟨-, -, hslot, hside⟩ := h.linked.filed hcell
    obtain ⟨index, htake, hindex⟩ := h.linked.index.take_present (entries_detach hQ)
    have hcount : 0 < b.orderIndex.count := by
      rw [h.linked.index.count]
      exact List.length_pos_of_mem ((entries_detach hQ).mem_iff.mpr List.mem_cons_self)
    have hfirst : Tracks (([.sum (.dec b.orderIndex.count)] : List Use).reverse ++ past) Q := by
      refine ht.silent fun u hu => ?_
      rw [List.mem_singleton.mp hu]
      exact ⟨rfl, trivial, exact_dec hcount⟩
    rw [OrderBook.cancel, htake] at hcancel
    simp only [hslot, hside] at hcancel
    obtain ⟨b₁, hrem, heq⟩ := Option.map_eq_some_iff.mp hcancel
    obtain ⟨rfl, rfl⟩ := Prod.mk.inj heq
    obtain ⟨Q', free', hlinked, hset, hremove⟩ := h.linked.removeUses h.settled hQ hindex hfirst hrem
    refine ⟨Q', free', hlinked, hset, ?_⟩
    rw [OrderBook.cancelUses, htake]
    simp only [hslot, hside, hrem]
    have hcheck := hlinked.checkUses hset hremove
    simpa using hcheck

/-! ## Whole calls -/

theorem Tracks.transport (ht : Tracks past Q) (h : b.Linked Q free) (hset : Settled Q)
    (h' : b.Linked Q' free') (hset' : Settled Q') : Tracks past Q' :=
  ht.relabel hset hset' (h.slots_unique h')

/-- **An attempt** is in contract. -/
theorem Attempt.Follows.uses {x : Attempt} {y : PriorityBook.Submission} (h : x.Follows y Q free)
    (ht : Tracks past Q) {e : Executed} (hexec : x.execute mem = .ok e b') :
    ∃ Q' free', b'.Linked Q' free' ∧ Settled Q' ∧ Tracks ((x.uses mem).reverse ++ past) Q' := by
  obtain ⟨m, Q₁, free₁, hm⟩ := h.matched
  obtain ⟨Q₂, free₂, hl₂, hset₂, -, ht₂⟩ :=
    h.book.linked.matchUses h.book.settled h.book.live ht hm.run
  have ht₁ := Tracks.transport ht₂ hl₂ hset₂ hm.follows.linked hm.follows.settled
  have hside : m.incoming.side = x.incoming.side := (congrArg Order.side hm.order :)
  have hpoint : x.insertPoint
      = if x.restLeftover && decide (0 < m.incoming.qty) && !m.rep.stpHalted then
          some (m.book, m.incoming) else none := by
    rw [Attempt.insertPoint, hm.run]
    rfl
  unfold Attempt.execute at hexec
  rw [hm.run] at hexec
  unfold Attempt.uses
  rw [hpoint, List.reverse_append, List.append_assoc]
  simp only at hexec
  split at hexec
  · rename_i hrests
    have hqty : 0 < m.incoming.qty := by
      simp only [Bool.and_eq_true, decide_eq_true_eq] at hrests
      exact hrests.1.2
    have hl := hm.leftover h hqty
    rw [if_pos hrests]
    generalize hins : m.book.insert mem x.incoming.side m.incoming = r at hexec
    cases r with
    | ok _ b₁ =>
      obtain ⟨-, rfl⟩ := Result.ok.inj hexec
      obtain ⟨Q', free', hl', hset', ht'⟩ := hl.follows.linked.insertUses hl.follows.settled hside
        (by rw [hl.follows.mem_ids, hl.fresh]; simp) ht₁ hins
      refine ⟨Q', free', hl', hset', ?_⟩
      have hcheck := hl'.checkUses hset' ht'
      simpa [hins] using hcheck
    | throws e b₁ => simp at hexec
    | undefined => simp at hexec
  · rename_i hrests
    rw [if_neg hrests]
    obtain ⟨-, rfl⟩ := Result.ok.inj hexec
    refine ⟨Q₁, free₁, hm.follows.linked, hm.follows.settled, ?_⟩
    simp only [hm.run]
    exact hm.follows.linked.checkUses hm.follows.settled ht₁

/-- The book has some layout that the uses behind it track. -/
def Tracked (b : OrderBook) (past : List Use) : Prop :=
  ∃ Q free, b.Linked Q free ∧ Settled Q ∧ Tracks past Q

theorem Tracked.at (ht : b.Tracked past) (h : b.Linked Q free) (hset : Settled Q) : Tracks past Q := by
  obtain ⟨Q', free', h', hset', ht'⟩ := ht
  exact Tracks.transport ht' h' hset' h hset

/-- **Every part of a call** is in contract. -/
theorem tracked_rule (mem : Memory) : CallRule mem Tracked Tracked where
  attempt hx ht hexec := hx.uses (ht.at hx.book.linked hx.book.settled) hexec
  cancel h ht hcancel := h.cancelUses (ht.at h.linked h.settled) hcancel
  read h ht hc := by
    have ht := ht.at h.linked h.settled
    refine ⟨_, _, h.linked, h.settled, ?_⟩
    rw [← List.singleton_append, ← List.reverse_singleton]
    refine ht.silent fun u hu => ?_
    rw [List.mem_singleton.mp hu]
    refine ⟨rfl, ?_, trivial⟩
    show handedOut _ _ = true
    rw [ht.slots]
    exact List.mem_map_of_mem (f := Prod.fst) hc
  pop ht := by
    obtain ⟨Q, free, h, hset, ht⟩ := ht
    exact ⟨Q, free, h.congr rfl rfl fun s => by cases s <;> rfl, hset, ht⟩
  done ht := ht

end Calls

/-! ## Runs -/

section Runs

variable {scrub : RestingOrder → RestingOrder} {cfg : Config} {b₀ b : OrderBook} {past : List Record}
  {trace : List Use}

/-- **The run lemma of the uses.** -/
theorem Run.tracks (h₀ : b₀.Follows {} (fun _ => []) []) (hrun : Run b₀ past b)
    (htrace : Traced past trace) : ∃ Q free, b.Follows (replayOf b₀ past) Q free ∧ Tracks trace Q := by
  have hstart : b₀.Tracked [] := by
    refine ⟨_, _, h₀.linked, h₀.settled, trivial, fun i => ?_, rfl, fun s p => ?_⟩
    · simp [handedOut, allCells]
    · simp [emptied]
  have ht : b.Tracked trace := CallRule.run tracked_rule h₀ hstart (fun _ _ _ ht => ht) hrun htrace
  obtain ⟨⟨Q, free, hf⟩, -⟩ := hrun.follows h₀
  exact ⟨Q, free, hf, ht.at hf.linked hf.settled⟩

/-- A slot holds a resting order: it is in the queue of a level of the book. -/
def Holds (b : OrderBook) (slot : SlotIndex) : Prop :=
  ∃ s, ∃ e ∈ (b.ladder s).forEachLevel, ∃ slots, b.slotsAt e.2 = some slots ∧ slot ∈ slots

theorem Follows.holds {a : PriorityBook} {Q : Layout} {free : List SlotIndex} (h : b.Follows a Q free)
    (slot : SlotIndex) : b.Holds slot ↔ slot ∈ (allCells Q).map Prod.fst := by
  constructor
  · rintro ⟨s, e, he, slots, hslots, hslot⟩
    rw [h.linked.forEachLevel (h.settled s)] at he
    obtain ⟨e', he', rfl⟩ := List.mem_map.mp he
    obtain rfl := Option.some.inj (hslots.symm.trans (h.linked.slotsAt he'))
    obtain ⟨c, hc, rfl⟩ := List.mem_map.mp hslot
    exact List.mem_map_of_mem (mem_allCells_of_mem he' hc)
  · intro hslot
    obtain ⟨c, hc, rfl⟩ := List.mem_map.mp hslot
    obtain ⟨s, hc⟩ := mem_allCells.mp hc
    obtain ⟨e, he, hce⟩ := mem_cellsIn.mp hc
    refine ⟨s, (e.1, levelOf e.2), ?_, _, h.linked.slotsAt he, List.mem_map_of_mem hce⟩
    rw [h.linked.forEachLevel (h.settled s)]
    exact List.mem_map_of_mem (f := fun e => (e.1, levelOf e.2)) he

/-- **The book always uses its components within their contracts**: every use of every call is allowed
after the uses before it; between calls no level waits to be closed and no unlinked slot to be
released, and the slots handed out and not released are those that hold a resting order. -/
theorem within_contracts (hnew : OrderBook.new scrub cfg = some b₀) (hrun : Run b₀ past b)
    (htrace : Traced past trace) :
    Throughout Use.InContract trace ∧ emptied trace = none ∧ unlinked trace = none
      ∧ ∀ slot, handedOut slot trace = true ↔ b.Holds slot := by
  obtain ⟨h₀, -⟩ := new_follows hnew
  obtain ⟨Q, free, hf, ht⟩ := hrun.tracks h₀ htrace
  refine ⟨ht.allowed.mono fun _ _ h => h.1, ht.emptied_none hf.settled, ht.unlinked, fun slot => ?_⟩
  rw [ht.slots, hf.holds]

/-- **No quantity and no count wraps**: every sum of every call is the one over unbounded integers,
and an index value always decodes to its slot and side. -/
theorem no_sum_wraps (hnew : OrderBook.new scrub cfg = some b₀) (hrun : Run b₀ past b)
    (htrace : Traced past trace) : ∀ x, Use.sum x ∈ trace → x.Exact := by
  intro x hx
  obtain ⟨h₀, -⟩ := new_follows hnew
  obtain ⟨Q, free, -, ht⟩ := hrun.tracks h₀ htrace
  obtain ⟨newer, older, rfl⟩ := List.append_of_mem hx
  exact ht.allowed.split.2

end Runs

/-- A sweep consumes one order of a level, removes another of the taker's own, and rests. -/
theorem within_contracts_swept_level :
    ∃ b₀ past b trace, OrderBook.new id {} = some b₀ ∧ Run b₀ past b ∧ Traced past trace
      ∧ past.map Record.call = [.modify 3 90 2, .addLimit 3 7 .buy 101 9, .addLimit 2 7 .sell 101 4,
          .addLimit 1 5 .sell 100 3]
      ∧ Throughout Use.InContract trace ∧ ∀ slot, handedOut slot trace = true ↔ b.Holds slot := by
  obtain ⟨b₀, past, b, -, hnew, hrun, hcalls, -⟩ := exists_run id {} {}
    [.modify 3 90 2, .addLimit 3 7 .buy 101 9, .addLimit 2 7 .sell 101 4, .addLimit 1 5 .sell 100 3]
    (fun _ _ => some ()) (by decide +kernel)
  obtain ⟨trace, htrace⟩ := hrun.traced
  obtain ⟨hcontract, -, -, hslots⟩ := within_contracts hnew hrun htrace
  exact ⟨b₀, past, b, trace, hnew, hrun, htrace, hcalls, hcontract, hslots⟩

/-- A level holds more than a 32-bit quantity can express. -/
theorem no_sum_wraps_past_32_bits :
    ∃ b₀ past b trace, OrderBook.new id {} = some b₀ ∧ Run b₀ past b ∧ Traced past trace
      ∧ past.map Record.call = [.addLimit 2 0 .buy 100 4294967295, .addLimit 1 0 .buy 100 4294967295]
      ∧ b.qtyAt .buy 100 = 8589934590 ∧ ∀ x, Use.sum x ∈ trace → x.Exact := by
  obtain ⟨b₀, past, b, x, hnew, hrun, hcalls, hqty⟩ := exists_run id {} {}
    [.addLimit 2 0 .buy 100 4294967295, .addLimit 1 0 .buy 100 4294967295]
    (fun _ b => if b.qtyAt .buy 100 = 8589934590 then some () else none) (by decide +kernel)
  obtain ⟨trace, htrace⟩ := hrun.traced
  obtain ⟨hqty, -⟩ := Option.ite_none_right_eq_some.mp hqty
  exact ⟨b₀, past, b, trace, hnew, hrun, htrace, hcalls, hqty, no_sum_wraps hnew hrun htrace⟩

end OrderBook

end Lob
