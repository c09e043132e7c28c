/-
# Lob.LevelQueue — the FIFO queue of a price level, threaded through the order pool.

`append` and `detach` edit a level and the links of a few pool slots at once.  A queue is read as a
list of cells, each a slot with the order it holds; `levelOf` is the level record such a list calls
for, and `Queued` says that the pool's links and values are those of the list.  Both operations are
then operations on lists, and touch no slot outside their own queue.
-/
import Lob.SlotPool

namespace Lob

open Lib.Linked

instance : Inhabited RestingOrder := ⟨⟨0, 0, 0, 0⟩⟩

/-- Every resting order, and its queue links. -/
abbrev OrderSlots := SlotPool RestingOrder

/-! ## The source's operations -/

/-- Hang a filled-in slot after the newest order of the level. -/
def append (pool : OrderSlots) (level : PriceLevel) (slot : SlotIndex) : OrderSlots × PriceLevel :=
  let pool := pool.write slot fun s => { s with prev := level.tail, next := kNoSlot }
  let pool := if level.tail ≠ kNoSlot then pool.write level.tail fun s => { s with next := slot }
              else pool
  (pool,
    { totalQty := level.totalQty + (pool.slots slot).value.qty.toUInt64
      head := if level.tail ≠ kNoSlot then level.head else slot
      tail := slot })

/-- Unlink a slot, subtract its remaining quantity from the level, and free it. -/
def detach (pool : OrderSlots) (level : PriceLevel) (slot : SlotIndex) : OrderSlots × PriceLevel :=
  let s := pool.slots slot
  let pool₁ := if s.prev ≠ kNoSlot then pool.write s.prev fun x => { x with next := s.next }
               else pool
  let head := if s.prev ≠ kNoSlot then level.head else s.next
  -- `s` is a reference into the block, so it is read again after each write
  let s := pool₁.slots slot
  let pool₂ := if s.next ≠ kNoSlot then pool₁.write s.next fun x => { x with prev := s.prev }
               else pool₁
  let tail := if s.next ≠ kNoSlot then level.tail else s.prev
  let s := pool₂.slots slot
  (pool₂.release slot,
    { totalQty := level.totalQty - s.value.qty.toUInt64
      head := head
      tail := tail })

/-! ## Queues as lists of cells -/

/-- A queued order and the slot that holds it. -/
abbrev Cell := SlotIndex × RestingOrder

/-- The level record of a queue. -/
def levelOf (qs : List Cell) : PriceLevel where
  totalQty := UInt64.ofNat (volume (qs.map Prod.snd))
  head := (qs.map Prod.fst).headD kNoSlot
  tail := (qs.map Prod.fst).getLastD kNoSlot

@[simp] theorem levelOf_nil : levelOf [] = {} := rfl

/-- The pool's links and values at the slots of `qs` are those of a queue at `price`. -/
structure Queued (pool : OrderSlots) (price : Price) (qs : List Cell) : Prop where
  forward : Forward (fun i => (pool.slots i).next) kNoSlot (qs.map Prod.fst)
  backward : Backward (fun i => (pool.slots i).prev) kNoSlot (qs.map Prod.fst)
  value : ∀ c ∈ qs, (pool.slots c.1).value = c.2
  price : ∀ c ∈ qs, c.2.price = price

section Facts

variable {pool pool' : OrderSlots} {price : Price} {qs qs₁ qs₂ : List Cell} {slot : SlotIndex}
  {o : RestingOrder} {live free : List SlotIndex}

theorem queued_nil (pool : OrderSlots) (price : Price) : Queued pool price [] :=
  ⟨trivial, trivial, by simp, by simp⟩

/-- A queue only depends on its own slots. -/
theorem Queued.congr (h : Queued pool price qs)
    (heq : ∀ i ∈ qs.map Prod.fst, pool'.slots i = pool.slots i) : Queued pool' price qs where
  forward := h.forward.congr fun i hi => by rw [heq i hi]
  backward := h.backward.congr fun i hi => by rw [heq i hi]
  value c hc := by rw [heq c.1 (List.mem_map_of_mem hc), h.value c hc]
  price := h.price

/-- A level is empty exactly when its queue is. -/
theorem levelOf_empty (hne : ∀ i ∈ qs.map Prod.fst, i ≠ kNoSlot) :
    (levelOf qs).empty = qs.isEmpty := by
  cases qs with
  | nil => rfl
  | cons c qs =>
    have : c.1 ≠ kNoSlot := hne c.1 (by simp)
    simp [levelOf, PriceLevel.empty, this]

theorem toUInt64_eq_ofNat (n : UInt32) : n.toUInt64 = UInt64.ofNat n.toNat := by
  apply UInt64.toNat_inj.mp
  have := n.toNat_lt
  rw [UInt32.toNat_toUInt64, UInt64.toNat_ofNat', Nat.mod_eq_of_lt (by omega)]

/-- The last cell of a chain is where its tail points, when it points anywhere. -/
theorem eq_getLastD_iff {is : List SlotIndex} (hne : ∀ i ∈ is, i ≠ kNoSlot) (j : SlotIndex) :
    j = is.getLastD kNoSlot ∧ is.getLastD kNoSlot ≠ kNoSlot ↔ j ∈ is.getLast? := by
  rcases List.eq_nil_or_concat is with rfl | ⟨zs, z, rfl⟩
  · simp
  · have hz : z ≠ kNoSlot := hne z (by simp)
    simp [hz, eq_comm]

theorem eq_headD_iff {is : List SlotIndex} (hne : ∀ i ∈ is, i ≠ kNoSlot) (j : SlotIndex) :
    j = is.headD kNoSlot ∧ is.headD kNoSlot ≠ kNoSlot ↔ j ∈ is.head? := by
  cases is with
  | nil => simp
  | cons i is =>
    have hi : i ≠ kNoSlot := hne i (by simp)
    simp [hi, eq_comm]

/-! ## One link at a time -/

/-- Point a slot's `next` at another, if there is a slot to point from. -/
def linkNext (pool : OrderSlots) (i next : SlotIndex) : OrderSlots :=
  if i ≠ kNoSlot then pool.write i fun x => { x with next := next } else pool

/-- Point a slot's `prev` at another. -/
def linkPrev (pool : OrderSlots) (i prev : SlotIndex) : OrderSlots :=
  if i ≠ kNoSlot then pool.write i fun x => { x with prev := prev } else pool

theorem SlotPool.Wf.linkNext {i : SlotIndex} (h : pool.Wf live free) (hi : i ≠ kNoSlot → i ∈ live)
    (next : SlotIndex) : (linkNext pool i next).Wf live free ∧ (linkNext pool i next).used = pool.used := by
  unfold Lob.linkNext
  split
  · rename_i hsome
    exact ⟨h.write (hi hsome) _, rfl⟩
  · exact ⟨h, rfl⟩

theorem SlotPool.Wf.linkPrev {i : SlotIndex} (h : pool.Wf live free) (hi : i ≠ kNoSlot → i ∈ live)
    (prev : SlotIndex) : (linkPrev pool i prev).Wf live free ∧ (linkPrev pool i prev).used = pool.used := by
  unfold Lob.linkPrev
  split
  · rename_i hsome
    exact ⟨h.write (hi hsome) _, rfl⟩
  · exact ⟨h, rfl⟩

theorem linkNext_slots (pool : OrderSlots) (i next j : SlotIndex) : (linkNext pool i next).slots j
    = if j = i ∧ i ≠ kNoSlot then { pool.slots j with next := next } else pool.slots j := by
  unfold linkNext
  by_cases hi : i = kNoSlot
  · simp [hi]
  · by_cases hj : j = i
    · subst hj
      simp [hi, SlotPool.write]
    · simp [hi, hj, SlotPool.write]

theorem linkPrev_slots (pool : OrderSlots) (i prev j : SlotIndex) : (linkPrev pool i prev).slots j
    = if j = i ∧ i ≠ kNoSlot then { pool.slots j with prev := prev } else pool.slots j := by
  unfold linkPrev
  by_cases hi : i = kNoSlot
  · simp [hi]
  · by_cases hj : j = i
    · subst hj
      simp [hi, SlotPool.write]
    · simp [hi, hj, SlotPool.write]

/-! ## Appending -/

/-- The level record with one order more. -/
theorem levelOf_snoc (hne : ∀ i ∈ qs.map Prod.fst, i ≠ kNoSlot) (slot : SlotIndex) (o : RestingOrder) :
    { totalQty := (levelOf qs).totalQty + o.qty.toUInt64
      head := if (levelOf qs).tail ≠ kNoSlot then (levelOf qs).head else slot
      tail := slot } = levelOf (qs ++ [(slot, o)]) := by
  have htotal : (levelOf qs).totalQty + o.qty.toUInt64 = (levelOf (qs ++ [(slot, o)])).totalQty := by
    rw [toUInt64_eq_ofNat]
    simp [levelOf, UInt64.ofNat_add]
  have hhead : (if (levelOf qs).tail ≠ kNoSlot then (levelOf qs).head else slot)
      = (levelOf (qs ++ [(slot, o)])).head := by
    cases qs with
    | nil => rfl
    | cons c qs =>
      have hmem : (qs.map Prod.fst).getLastD c.1 ∈ (c :: qs).map Prod.fst := List.getLastD_mem_cons
      have htail : (levelOf (c :: qs)).tail ≠ kNoSlot := by
        show ((c :: qs).map Prod.fst).getLastD kNoSlot ≠ kNoSlot
        rw [List.map_cons, List.getLastD_cons]
        exact hne _ hmem
      rw [if_pos htail]
      rfl
  rw [htotal, hhead]
  simp [levelOf]

/-- A pool that `append` has linked holds the longer queue. -/
theorem Queued.snoc (h : Queued pool price qs) (hnd : (qs.map Prod.fst ++ [slot]).Nodup)
    (hprice : o.price = price)
    (hslot : pool'.slots slot = ⟨o, (qs.map Prod.fst).getLastD kNoSlot, kNoSlot⟩)
    (hother : ∀ j, j ≠ slot → pool'.slots j = if j ∈ (qs.map Prod.fst).getLast?
      then { pool.slots j with next := slot } else pool.slots j) :
    Queued pool' price (qs ++ [(slot, o)]) := by
  have hmem : ∀ i ∈ qs.map Prod.fst, i ≠ slot := by
    rintro i hi rfl
    exact List.disjoint_of_nodup_append hnd hi (by simp)
  refine ⟨?_, ?_, ?_, ?_⟩
  · rw [List.map_append]
    refine h.forward.append_last hnd ?_ ?_ ?_
    · intro l hl
      rw [hother l (hmem l (List.mem_of_getLast? hl)), if_pos hl]
    · rw [hslot]
    · intro y hy hlast
      rw [hother y (hmem y hy), if_neg hlast]
  · rw [List.map_append]
    refine h.backward.append_last ?_ ?_
    · show (pool'.slots slot).prev = _
      rw [hslot]
    · intro y hy
      show (pool'.slots y).prev = (pool.slots y).prev
      rw [hother y (hmem y hy)]
      split <;> rfl
  · intro c hc
    rcases List.mem_append.mp hc with hc | hc
    · rw [hother c.1 (hmem c.1 (List.mem_map_of_mem hc)), ← h.value c hc]
      split <;> rfl
    · rw [List.mem_singleton.mp hc, hslot]
  · intro c hc
    rcases List.mem_append.mp hc with hc | hc
    · exact h.price c hc
    · rw [List.mem_singleton.mp hc]
      exact hprice

/-- **Appending adds a cell at the end of the queue.** -/
theorem Queued.append (h : Queued pool price qs) (hw : pool.Wf live free)
    (hlive : ∀ i ∈ qs.map Prod.fst, i ∈ live) (hslot : slot ∈ live)
    (hnd : (qs.map Prod.fst ++ [slot]).Nodup) (hval : (pool.slots slot).value = o)
    (hprice : o.price = price) :
    ∃ pool', Lob.append pool (levelOf qs) slot = (pool', levelOf (qs ++ [(slot, o)]))
      ∧ Queued pool' price (qs ++ [(slot, o)]) ∧ pool'.Wf live free ∧ pool'.used = pool.used
      ∧ ∀ j, j ∉ qs.map Prod.fst → j ≠ slot → pool'.slots j = pool.slots j := by
  have hne : ∀ i ∈ qs.map Prod.fst, i ≠ kNoSlot := fun i hi =>
    hw.ne_kNoSlot (by simp [hlive i hi])
  have hlast : ∀ j, j = (levelOf qs).tail ∧ (levelOf qs).tail ≠ kNoSlot
      ↔ j ∈ (qs.map Prod.fst).getLast? := eq_getLastD_iff hne
  let p₁ := pool.write slot fun s => { s with prev := (levelOf qs).tail, next := kNoSlot }
  have hslots : ∀ j, (linkNext p₁ (levelOf qs).tail slot).slots j
      = if j ∈ (qs.map Prod.fst).getLast? then { p₁.slots j with next := slot } else p₁.slots j := by
    intro j
    rw [linkNext_slots, if_congr (hlast j) rfl rfl]
  have hnew : slot ∉ (qs.map Prod.fst).getLast? := fun hmem =>
    List.disjoint_of_nodup_append hnd (List.mem_of_getLast? hmem) (by simp)
  have hmine : (linkNext p₁ (levelOf qs).tail slot).slots slot
      = ⟨o, (qs.map Prod.fst).getLastD kNoSlot, kNoSlot⟩ := by
    rw [hslots, if_neg hnew, ← hval]
    exact Function.update_self ..
  have hother : ∀ j, j ≠ slot → p₁.slots j = pool.slots j := fun j hj => Function.update_of_ne hj _ _
  obtain ⟨hw', hused⟩ := (hw.write hslot fun s => { s with prev := (levelOf qs).tail, next := kNoSlot })
    |>.linkNext (fun htail => hlive _ (List.mem_of_getLast? ((hlast _).mp ⟨rfl, htail⟩))) slot
  refine ⟨linkNext p₁ (levelOf qs).tail slot, ?_, ?_, hw', hused, fun j hj hjs => ?_⟩
  · rw [← levelOf_snoc hne slot o]
    show (_, PriceLevel.mk (_ + ((linkNext p₁ (levelOf qs).tail slot).slots slot).value.qty.toUInt64)
      _ _) = _
    rw [hmine]
    rfl
  · refine h.snoc hnd hprice hmine fun j hj => ?_
    rw [hslots, hother j hj]
  · have hout : j ∉ (qs.map Prod.fst).getLast? := fun hmem => hj (List.mem_of_getLast? hmem)
    rw [hslots, if_neg hout, hother j hjs]

/-! ## Detaching -/

/-- `detach`, link by link: neither write reaches the slot itself. -/
theorem detach_eq (level : PriceLevel) (hprev : (pool.slots slot).prev ≠ slot)
    (hnext : (pool.slots slot).next ≠ slot) : Lob.detach pool level slot
      = ((linkPrev (linkNext pool (pool.slots slot).prev (pool.slots slot).next)
          (pool.slots slot).next (pool.slots slot).prev).release slot,
        { totalQty := level.totalQty - (pool.slots slot).value.qty.toUInt64
          head := if (pool.slots slot).prev ≠ kNoSlot then level.head else (pool.slots slot).next
          tail := if (pool.slots slot).next ≠ kNoSlot then level.tail else (pool.slots slot).prev }) := by
  have hfirst : (linkNext pool (pool.slots slot).prev (pool.slots slot).next).slots slot
      = pool.slots slot := by
    rw [linkNext_slots, if_neg fun h => hprev h.1.symm]
  have hsecond : (linkPrev (linkNext pool (pool.slots slot).prev (pool.slots slot).next)
      (pool.slots slot).next (pool.slots slot).prev).slots slot = pool.slots slot := by
    rw [linkPrev_slots, if_neg fun h => hnext h.1.symm, hfirst]
  unfold linkPrev at hsecond ⊢
  unfold linkNext at hfirst hsecond ⊢
  rw [Lob.detach]
  simp only [hfirst, hsecond]

/-- The slots once the cells on both sides of a gap point at each other. -/
theorem bridged_slots (pool : OrderSlots) {is js : List SlotIndex} (his : ∀ i ∈ is, i ≠ kNoSlot)
    (hjs : ∀ i ∈ js, i ≠ kNoSlot) (j : SlotIndex) :
    (linkPrev (linkNext pool (is.getLastD kNoSlot) (js.headD kNoSlot)) (js.headD kNoSlot)
        (is.getLastD kNoSlot)).slots j
      = ⟨(pool.slots j).value,
        if j ∈ js.head? then is.getLastD kNoSlot else (pool.slots j).prev,
        if j ∈ is.getLast? then js.headD kNoSlot else (pool.slots j).next⟩ := by
  rw [linkPrev_slots, linkNext_slots, if_congr (eq_getLastD_iff his j) rfl rfl,
    if_congr (eq_headD_iff hjs j) rfl rfl]
  split <;> split <;> rfl

/-- The level record without the order. -/
theorem levelOf_cut {as bs : List Cell} (hne : ∀ i ∈ (as ++ bs).map Prod.fst, i ≠ kNoSlot)
    (slot : SlotIndex) (o : RestingOrder) :
    { totalQty := (levelOf (as ++ (slot, o) :: bs)).totalQty - o.qty.toUInt64
      head := if (as.map Prod.fst).getLastD kNoSlot ≠ kNoSlot then (levelOf (as ++ (slot, o) :: bs)).head
        else (bs.map Prod.fst).headD kNoSlot
      tail := if (bs.map Prod.fst).headD kNoSlot ≠ kNoSlot then (levelOf (as ++ (slot, o) :: bs)).tail
        else (as.map Prod.fst).getLastD kNoSlot } = levelOf (as ++ bs) := by
  have htotal : (levelOf (as ++ (slot, o) :: bs)).totalQty - o.qty.toUInt64
      = (levelOf (as ++ bs)).totalQty := by
    rw [toUInt64_eq_ofNat]
    simp only [levelOf, List.map_append, List.map_cons, volume_append, volume_cons]
    rw [Nat.add_left_comm, UInt64.ofNat_add o.qty.toNat, UInt64.add_comm (UInt64.ofNat o.qty.toNat),
      UInt64.add_sub_cancel]
  rw [htotal]
  simp only [levelOf, PriceLevel.mk.injEq, true_and]
  refine ⟨?_, ?_⟩
  · cases as with
    | nil => simp
    | cons a as =>
      have hmem : (as.map Prod.fst).getLastD a.1 ∈ (a :: as).map Prod.fst := List.getLastD_mem_cons
      have hin : (as.map Prod.fst).getLastD a.1 ∈ (a :: as ++ bs).map Prod.fst := by
        rw [List.map_append]
        exact List.mem_append_left _ hmem
      rw [List.map_cons, List.getLastD_cons, if_pos (hne _ hin)]
      simp
  · cases bs with
    | nil => simp
    | cons b bs =>
      have hb : b.1 ≠ kNoSlot := hne b.1 (by simp)
      rcases List.eq_nil_or_concat bs with rfl | ⟨zs, z, rfl⟩ <;> simp [hb]

/-- A pool that `detach` has linked holds the shorter queue. -/
theorem Queued.cut {as bs : List Cell} (h : Queued pool price (as ++ (slot, o) :: bs))
    (hnd : ((as ++ (slot, o) :: bs).map Prod.fst).Nodup)
    (hnext : ∀ j ∈ (as ++ bs).map Prod.fst, (pool'.slots j).next = if j ∈ (as.map Prod.fst).getLast?
      then (bs.map Prod.fst).headD kNoSlot else (pool.slots j).next)
    (hprev : ∀ j ∈ (as ++ bs).map Prod.fst, (pool'.slots j).prev = if j ∈ (bs.map Prod.fst).head?
      then (as.map Prod.fst).getLastD kNoSlot else (pool.slots j).prev)
    (hvalue : ∀ j ∈ (as ++ bs).map Prod.fst, (pool'.slots j).value = (pool.slots j).value) :
    Queued pool' price (as ++ bs) := by
  have hfwd := h.forward
  have hbwd := h.backward
  have hsub : ∀ c ∈ as ++ bs, c ∈ as ++ (slot, o) :: bs := by
    intro c hc
    simp only [List.mem_append, List.mem_cons] at hc ⊢
    tauto
  rw [List.map_append, List.map_cons] at hfwd hbwd hnd
  rw [List.map_append] at hnext hprev
  refine ⟨?_, ?_, fun c hc => ?_, fun c hc => h.price c (hsub c hc)⟩
  · rw [List.map_append]
    refine hfwd.unlink hnd (fun l hl => ?_) fun y hy hlast => ?_
    · exact (hnext l (List.mem_append_left _ (List.mem_of_getLast? hl))).trans (if_pos hl)
    · exact (hnext y hy).trans (if_neg hlast)
  · rw [List.map_append]
    refine hbwd.unlink hnd (fun l hl => ?_) fun y hy hhead => ?_
    · exact (hprev l (List.mem_append_right _ (List.mem_of_mem_head? hl))).trans (if_pos hl)
    · exact (hprev y hy).trans (if_neg hhead)
  · rw [hvalue c.1 (List.mem_map_of_mem hc)]
    exact h.value c (hsub c hc)

/-- **Detaching cuts a cell out of the queue and frees its slot.** -/
theorem Queued.detach {as bs : List Cell} (h : Queued pool price (as ++ (slot, o) :: bs))
    (hw : pool.Wf (slot :: live) free) (hlive : ∀ i ∈ (as ++ bs).map Prod.fst, i ∈ live) :
    ∃ pool', Lob.detach pool (levelOf (as ++ (slot, o) :: bs)) slot = (pool', levelOf (as ++ bs))
      ∧ (((as ++ (slot, o) :: bs).map Prod.fst).Nodup → Queued pool' price (as ++ bs))
      ∧ pool'.Wf live (slot :: free) ∧ pool'.used = pool.used
      ∧ ∀ j, j ∉ (as ++ (slot, o) :: bs).map Prod.fst → pool'.slots j = pool.slots j := by
  have hslot : slot ∉ live := by
    have hnd := hw.nodup
    rw [List.cons_append, List.nodup_cons] at hnd
    exact fun hmem => hnd.1 (by simp [hmem])
  have hsome : slot ≠ kNoSlot := hw.ne_kNoSlot (by simp)
  have hne : ∀ i ∈ (as ++ bs).map Prod.fst, i ≠ kNoSlot := fun i hi =>
    hw.ne_kNoSlot (by simp [hlive i hi])
  have hapart : ∀ i ∈ (as ++ bs).map Prod.fst, i ≠ slot := fun i hi heq => hslot (heq ▸ hlive i hi)
  have hfront : ∀ i ∈ (as.map Prod.fst).getLast?, i ∈ (as ++ bs).map Prod.fst := fun i hi => by
    rw [List.map_append]
    exact List.mem_append_left _ (List.mem_of_getLast? hi)
  have hback : ∀ i ∈ (bs.map Prod.fst).head?, i ∈ (as ++ bs).map Prod.fst := fun i hi => by
    rw [List.map_append]
    exact List.mem_append_right _ (List.mem_of_mem_head? hi)
  have has : ∀ i ∈ as.map Prod.fst, i ≠ kNoSlot := fun i hi =>
    hne i (by rw [List.map_append]; exact List.mem_append_left _ hi)
  have hbs : ∀ i ∈ bs.map Prod.fst, i ≠ kNoSlot := fun i hi =>
    hne i (by rw [List.map_append]; exact List.mem_append_right _ hi)
  have hlast := eq_getLastD_iff has
  have hhead := eq_headD_iff hbs
  have hfwd := h.forward
  have hbwd := h.backward
  rw [List.map_append, List.map_cons] at hfwd hbwd
  have hprev : (pool.slots slot).prev = (as.map Prod.fst).getLastD kNoSlot := hbwd.prev_mid
  have hnext : (pool.slots slot).next = (bs.map Prod.fst).headD kNoSlot := hfwd.next_mid
  have hvalue : (pool.slots slot).value = o := h.value (slot, o) (by simp)
  -- the neighbours are other slots, or none, so neither write reaches `slot` itself
  have hprev' : (pool.slots slot).prev ≠ slot := fun heq => by
    rw [hprev] at heq
    exact hapart slot (hfront slot ((hlast slot).mp ⟨heq.symm, heq ▸ hsome⟩)) rfl
  have hnext' : (pool.slots slot).next ≠ slot := fun heq => by
    rw [hnext] at heq
    exact hapart slot (hback slot ((hhead slot).mp ⟨heq.symm, heq ▸ hsome⟩)) rfl
  have hdetach := detach_eq (levelOf (as ++ (slot, o) :: bs)) hprev' hnext'
  rw [hvalue, hprev, hnext, levelOf_cut hne] at hdetach
  obtain ⟨hw₁, hused₁⟩ := hw.linkNext (fun hne => List.mem_cons_of_mem _
    (hlive _ (hfront _ ((hlast _).mp ⟨rfl, hne⟩)))) ((bs.map Prod.fst).headD kNoSlot)
  obtain ⟨hw₂, hused₂⟩ := hw₁.linkPrev (fun hne => List.mem_cons_of_mem _
    (hlive _ (hback _ ((hhead _).mp ⟨rfl, hne⟩)))) ((as.map Prod.fst).getLastD kNoSlot)
  have hslots := fun (j : SlotIndex) (hj : j ≠ slot) =>
    (SlotPool.release_slots_of_ne hj).trans (bridged_slots pool has hbs j)
  refine ⟨_, hdetach, fun hnd => ?_, hw₂.release, hused₂.trans hused₁, fun j hj => ?_⟩
  · refine h.cut hnd (fun j hj => ?_) (fun j hj => ?_) fun j hj => ?_
    all_goals rw [hslots j (hapart j hj)]
  · simp only [List.map_append, List.map_cons, List.mem_append, List.mem_cons, not_or] at hj
    have hfirst : j ∉ (bs.map Prod.fst).head? := fun hmem => hj.2.2 (List.mem_of_mem_head? hmem)
    have hend : j ∉ (as.map Prod.fst).getLast? := fun hmem => hj.1 (List.mem_of_getLast? hmem)
    rw [hslots j hj.2.1, if_neg hfirst, if_neg hend]

/-- Rewriting the order of one cell in place. -/
theorem Queued.rewrite {as bs : List Cell} {o' : RestingOrder}
    (h : Queued pool price (as ++ (slot, o) :: bs))
    (hnd : ((as ++ (slot, o) :: bs).map Prod.fst).Nodup) (hprice : o'.price = price) :
    Queued (pool.write slot fun s => { s with value := o' }) price (as ++ (slot, o') :: bs) := by
  have hlinks : ∀ j, ((pool.write slot fun s => { s with value := o' }).slots j).next
        = (pool.slots j).next
      ∧ ((pool.write slot fun s => { s with value := o' }).slots j).prev
        = (pool.slots j).prev := by
    intro j
    by_cases hj : j = slot
    · subst hj
      simp [SlotPool.write]
    · simp [SlotPool.write, Function.update_of_ne hj]
  have hslots : (as ++ (slot, o') :: bs).map Prod.fst = (as ++ (slot, o) :: bs).map Prod.fst := by
    simp
  rw [List.map_append, List.map_cons, List.nodup_middle, List.nodup_cons, ← List.map_append] at hnd
  have hother : ∀ c ∈ as ++ bs, c.1 ≠ slot := by
    rintro c hc rfl
    have hin : c.1 ∈ (as ++ bs).map Prod.fst := List.mem_map_of_mem hc
    exact hnd.1 hin
  refine ⟨?_, ?_, ?_, ?_⟩
  · rw [hslots]
    exact h.forward.congr fun j _ => (hlinks j).1
  · rw [hslots]
    exact h.backward.congr fun j _ => (hlinks j).2
  · intro c hc
    rcases List.mem_append.mp hc with hc | hc
    · simp only [SlotPool.write, Function.update_of_ne (hother c (by simp [hc]))]
      exact h.value c (by simp [hc])
    · rcases List.mem_cons.mp hc with rfl | hc
      · simp [SlotPool.write]
      · simp only [SlotPool.write, Function.update_of_ne (hother c (by simp [hc]))]
        exact h.value c (by simp [hc])
  · intro c hc
    rcases List.mem_append.mp hc with hc | hc
    · exact h.price c (by simp [hc])
    · rcases List.mem_cons.mp hc with rfl | hc
      · exact hprice
      · exact h.price c (by simp [hc])

end Facts

end Lob
