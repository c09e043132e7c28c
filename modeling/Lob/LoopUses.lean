/-
# Lob.LoopUses — the matching loop keeps every contract, and none of its sums wraps.

`Tracks` couples a history of uses to a layout: the slots handed out are those of the queues, and the
one level that waits to be closed is the one whose queue is empty.  Taking an order off its level and
closing a level are the two uses that change what is allowed next (`Tracks.detach`, `Tracks.close`);
a step of the loop is made of these, and `Within` bounds its sums.
-/
import Lob.QueryRefine
import Lob.Uses

namespace Lob

open Lib.Ranked Lib.Machine Lib.Linked OrderBook

/-! ## Exact sums -/

section Exact

variable {x y : UInt64} {u v : UInt32} {n : Nat}

theorem exact_sub64 (h : y.toNat ≤ x.toNat) : (Arith.sub64 x y).Exact := by
  show ((x - y).toNat : Int) = _
  rw [UInt64.toNat_sub_of_le _ _ (UInt64.le_iff_toNat_le.mpr h)]
  omega

theorem exact_add64 (h : x.toNat + y.toNat < 2 ^ 64) : (Arith.add64 x y).Exact := by
  show ((x + y).toNat : Int) = _
  rw [UInt64.toNat_add, Nat.mod_eq_of_lt h]
  omega

theorem exact_sub32 (h : v.toNat ≤ u.toNat) : (Arith.sub32 u v).Exact := by
  show ((u - v).toNat : Int) = _
  rw [UInt32.toNat_sub_of_le _ _ (UInt32.le_iff_toNat_le.mpr h)]
  omega

theorem exact_add32 (h : u.toNat + v.toNat < 2 ^ 32) : (Arith.add32 u v).Exact := by
  show ((u + v).toNat : Int) = _
  rw [UInt32.toNat_add, Nat.mod_eq_of_lt h]
  omega

theorem exact_dec (h : 0 < n) : (Arith.dec n).Exact := by
  show ((n - 1 : Nat) : Int) = _
  omega

end Exact

/-! ## The scan for the next best level -/

namespace PriceLadder

section Scan

variable {isBid : Bool} {l l' : PriceLadder isBid} {m : List (Price × PriceLevel)} {p : Price}
  {window : Nat → PriceLevel} {fuel i j k : Nat}

/-- A scan that stops has stopped at an occupied level, and read nothing beyond it. -/
theorem scanDown_spec (h : scanDown window i = some j) :
    j < i ∧ (window j).empty = false ∧ ∀ k ∈ scannedDown window i, k < i := by
  induction i with
  | zero => simp [scanDown] at h
  | succ i ih =>
    unfold scanDown at h
    unfold scannedDown
    split at h
    · rename_i he
      obtain ⟨hlt, hocc, hread⟩ := ih h
      refine ⟨by omega, hocc, fun k hk => ?_⟩
      rw [if_pos he] at hk
      rcases List.mem_cons.mp hk with rfl | hk
      · omega
      · exact Nat.lt_succ_of_lt (hread k hk)
    · rename_i he
      obtain rfl := Option.some.inj h
      refine ⟨by omega, by simpa using he, fun k hk => ?_⟩
      rw [if_neg he] at hk
      rw [List.mem_singleton.mp hk]
      omega

theorem scanUp_spec (h : scanUp window fuel i = some j) :
    i < j ∧ j ≤ i + fuel ∧ (window j).empty = false ∧ ∀ k ∈ scannedUp window fuel i, k ≤ i + fuel := by
  induction fuel generalizing i with
  | zero => simp [scanUp] at h
  | succ fuel ih =>
    unfold scanUp at h
    unfold scannedUp
    split at h
    · rename_i he
      obtain ⟨hlt, hle, hocc, hread⟩ := ih h
      refine ⟨by omega, by omega, hocc, fun k hk => ?_⟩
      rw [if_pos he] at hk
      rcases List.mem_cons.mp hk with rfl | hk
      · omega
      · have := hread k hk
        omega
    · rename_i he
      obtain rfl := Option.some.inj h
      refine ⟨by omega, by omega, by simpa using he, fun k hk => ?_⟩
      rw [if_neg he] at hk
      rw [List.mem_singleton.mp hk]
      omega

/-- **A scan that stops** met an occupied level in its direction, inside the array. -/
theorem nextOccupied_spec (hi : i < l.windowSize) (h : l.nextOccupied i = some j) :
    (j < l.windowSize ∧ indexBetter isBid i j ∧ (l.window j).empty = false)
      ∧ ∀ k ∈ l.scanned i, k < l.windowSize := by
  unfold nextOccupied at h
  unfold scanned
  cases isBid with
  | true =>
    obtain ⟨hlt, hocc, hread⟩ := scanDown_spec h
    exact ⟨⟨by omega, decide_eq_true hlt, hocc⟩, fun k hk => (hread k hk).trans hi⟩
  | false =>
    obtain ⟨hlt, hle, hocc, hread⟩ := scanUp_spec h
    refine ⟨⟨by omega, decide_eq_true hlt, hocc⟩, fun k hk => ?_⟩
    have := hread k hk
    omega

/-- Closing a window level takes it off the count, and scans only when another one is left. -/
theorem Represents.closed_scan (h : l.Represents m) (hm : (p, {}) ∈ m) (hp : l.inWindow p)
    (hclosed : l.closed p = some l') :
    0 < l.occupied ∧ (0 < l.occupied - 1 ∧ l.index p = l.bestIdx →
      (∃ j < l.windowSize, indexBetter isBid l.bestIdx j ∧ (l.window j).empty = false)
        ∧ ∀ k ∈ l.scanned l.bestIdx, k < l.windowSize) := by
  refine ⟨?_, fun hbest => ?_⟩
  · rw [h.occupied]
    exact List.length_pos_of_mem (List.mem_filter.mpr ⟨hm, hp⟩)
  · unfold PriceLadder.closed at hclosed
    simp only [hp, Bool.not_true, Bool.false_eq_true, if_false] at hclosed
    rw [if_pos hbest] at hclosed
    have hi : l.bestIdx < l.windowSize := hbest.2 ▸ Nat.lt_of_lt_of_le (index_lt hp) h.limit_le
    rw [hbest.2] at hclosed
    split at hclosed
    · simp at hclosed
    · rename_i j hj
      obtain ⟨⟨hlt, hdir, hocc⟩, hread⟩ := nextOccupied_spec (l := l) hi hj
      exact ⟨⟨j, hlt, hdir, hocc⟩, hread⟩

/-- The best index is one of the array, while it is valid. -/
theorem Represents.bestIdx_lt (h : l.Represents m) (hocc : 0 < l.occupied) :
    l.bestIdx < l.windowSize := by
  rw [h.occupied] at hocc
  have hbest := h.best
  cases hi : l.inside m with
  | nil => simp [hi] at hocc
  | cons e es =>
    have hin : l.inWindow e.1 := (List.mem_filter.mp (show e ∈ l.inside m by simp [hi])).2
    rw [hbest e (by simp [hi])]
    exact Nat.lt_of_lt_of_le (index_lt hin) h.limit_le

end Scan

end PriceLadder

/-! ## Histories coupled to a layout -/

/-- A use is in contract and exact. -/
def Use.Allowed (past : List Use) (u : Use) : Prop := u.InContract past ∧ u.Exact

/-- The history of uses behind a layout. -/
structure Tracks (past : List Use) (Q : Layout) : Prop where
  allowed : Throughout Use.Allowed past
  slots : ∀ i, handedOut i past = true ↔ i ∈ (allCells Q).map Prod.fst
  unlinked : unlinked past = none
  emptied : ∀ s p, emptied past = some (s, p) ↔ (p, []) ∈ Q s

section Tracks

variable {past us : List Use} {u : Use} {b b' : OrderBook} {Q Q' : Layout}
  {free free' : List SlotIndex} {s : Side} {p : Price} {m₁ m₂ : List (Price × List Cell)}
  {as bs : List Cell} {slot : SlotIndex} {o : RestingOrder}

/-- Silent uses that are allowed at their start. -/
theorem throughout_silent (h : Throughout Use.Allowed past)
    (hus : ∀ u ∈ us, u.silent = true ∧ u.Allowed past) :
    Throughout Use.Allowed (us.reverse ++ past) := by
  induction us generalizing past with
  | nil => exact h
  | cons u us ih =>
    obtain ⟨hsilent, hallowed⟩ := hus u List.mem_cons_self
    rw [List.reverse_cons, List.append_assoc]
    have hfirst : Throughout Use.Allowed (u :: past) := ⟨hallowed, h⟩
    refine ih hfirst fun v hv => ?_
    obtain ⟨hv, hcontract, hexact⟩ := hus v (List.mem_cons_of_mem _ hv)
    exact ⟨hv, (sameReading_cons hsilent).inContract.mpr hcontract, hexact⟩

theorem Tracks.silent (h : Tracks past Q) (hus : ∀ u ∈ us, u.silent = true ∧ u.Allowed past) :
    Tracks (us.reverse ++ past) Q := by
  have hread : SameReading past (us.reverse ++ past) := sameReading_silent fun u hu => (hus u hu).1
  exact ⟨throughout_silent h.allowed hus, fun i => by rw [hread.handedOut]; exact h.slots i,
    hread.unlinked.trans h.unlinked, fun s p => by rw [hread.emptied]; exact h.emptied s p⟩

/-- While no level is empty, none waits to be closed. -/
theorem Tracks.emptied_none (h : Tracks past Q) (hset : Settled Q) : Lob.emptied past = none := by
  cases he : Lob.emptied past with
  | none => rfl
  | some sp =>
    obtain ⟨s, p⟩ := sp
    exact absurd rfl (hset s _ ((h.emptied s p).mp he))

/-- Between settled layouts only the slots in use matter. -/
theorem Tracks.relabel (h : Tracks past Q) (hset : Settled Q) (hset' : Settled Q')
    (hslots : ∀ i, i ∈ (allCells Q).map Prod.fst ↔ i ∈ (allCells Q').map Prod.fst) :
    Tracks past Q' where
  allowed := h.allowed
  slots i := (h.slots i).trans (hslots i)
  unlinked := h.unlinked
  emptied s p := by
    rw [h.emptied_none hset]
    constructor
    · simp
    · exact fun hmem => absurd rfl (hset' s _ hmem)

/-! ## Handing out a slot -/

theorem Tracks.handedOut_acquire (h : Tracks past Q) (slot i : SlotIndex) :
    handedOut i (.acquire slot :: past) = true ↔ i = slot ∨ i ∈ (allCells Q).map Prod.fst := by
  show (slot == i || handedOut i past) = true ↔ _
  rw [Bool.or_eq_true, beq_iff_eq, h.slots, eq_comm]

/-- **A slot that is in no queue is handed out**, and from then on is one of those in use. -/
theorem Tracks.acquire (h : Tracks past Q) (hset : Settled Q) (hset' : Settled Q')
    (hnew : slot ∉ (allCells Q).map Prod.fst)
    (hslots : ∀ i, i ∈ (allCells Q').map Prod.fst ↔ i = slot ∨ i ∈ (allCells Q).map Prod.fst)
    (hus : ∀ u ∈ us, u.silent = true ∧ u.Allowed (.acquire slot :: past)) :
    Tracks ((.acquire slot :: us).reverse ++ past) Q' := by
  let c : Use := .acquire slot
  have hc : c.Allowed past :=
    ⟨Bool.eq_false_iff.mpr fun hout => hnew ((h.slots slot).mp hout), trivial⟩
  have hread : SameReading (c :: past) (us.reverse ++ c :: past) :=
    sameReading_silent fun u hu => (hus u hu).1
  rw [List.reverse_cons, List.append_assoc]
  refine ⟨throughout_silent ⟨hc, h.allowed⟩ hus, fun i => ?_, hread.unlinked.trans h.unlinked,
    fun t q => ?_⟩
  · rw [hslots, ← h.handedOut_acquire slot i]
    exact Bool.eq_iff_iff.mp (hread.handedOut i)
  · have hnone : Lob.emptied (us.reverse ++ c :: past) = none :=
      hread.emptied.trans (h.emptied_none hset)
    constructor
    · intro he
      have : (none : Option (Side × Price)) = some (t, q) := hnone.symm.trans he
      simp at this
    · exact fun hmem => absurd rfl (hset' t _ hmem)

/-! ## Taking an order off its level -/

/-- The ends of any level are slots in use. -/
theorem OrderBook.Linked.ends (h : b.Linked Q free) (s : Side) (ref : LevelRef) :
    (((b.ladder s).deref ref).head = kNoSlot ∨ ((b.ladder s).deref ref).head ∈ (allCells Q).map Prod.fst)
      ∧ (((b.ladder s).deref ref).tail = kNoSlot
        ∨ ((b.ladder s).deref ref).tail ∈ (allCells Q).map Prod.fst) := by
  rcases (h.ladder s).deref_cases ref with hnone | ⟨e, he, hderef⟩
  · rw [hnone]
    exact ⟨Or.inl rfl, Or.inl rfl⟩
  · obtain ⟨e', he', rfl⟩ := List.mem_map.mp he
    rw [hderef]
    have hmem : ∀ i ∈ e'.2.map Prod.fst, i ∈ (allCells Q).map Prod.fst := fun i hi => by
      obtain ⟨c, hc, rfl⟩ := List.mem_map.mp hi
      exact List.mem_map_of_mem (mem_allCells_of_mem he' hc)
    show ((e'.2.map Prod.fst).headD kNoSlot = kNoSlot ∨ (e'.2.map Prod.fst).headD kNoSlot ∈ _)
      ∧ ((e'.2.map Prod.fst).getLastD kNoSlot = kNoSlot ∨ (e'.2.map Prod.fst).getLastD kNoSlot ∈ _)
    generalize e'.2.map Prod.fst = is at hmem
    constructor
    · cases is with
      | nil => exact Or.inl rfl
      | cons i is => exact Or.inr (hmem i List.mem_cons_self)
    · rcases List.eq_nil_or_concat is with rfl | ⟨is, i, rfl⟩
      · exact Or.inl rfl
      · refine Or.inr (hmem _ ?_)
        simp

/-- The links of a slot in use name slots in use. -/
theorem OrderBook.Linked.links (h : b.Linked Q free) {i : SlotIndex}
    (hi : i ∈ (allCells Q).map Prod.fst) :
    ((b.pool.slots i).next = kNoSlot ∨ (b.pool.slots i).next ∈ (allCells Q).map Prod.fst)
      ∧ ((b.pool.slots i).prev = kNoSlot ∨ (b.pool.slots i).prev ∈ (allCells Q).map Prod.fst) := by
  obtain ⟨c, hc, rfl⟩ := List.mem_map.mp hi
  obtain ⟨s, hc⟩ := mem_allCells.mp hc
  obtain ⟨e, he, hce⟩ := mem_cellsIn.mp hc
  have hq := h.queue s e he
  have hmem : ∀ i ∈ e.2.map Prod.fst, i ∈ (allCells Q).map Prod.fst := fun i hi => by
    obtain ⟨c, hc, rfl⟩ := List.mem_map.mp hi
    exact List.mem_map_of_mem (mem_allCells_of_mem he hc)
  have hce' : c.1 ∈ e.2.map Prod.fst := List.mem_map_of_mem hce
  exact ⟨(hq.forward.next_mem hce').imp_right (hmem _), (hq.backward.prev_mem hce').imp_right (hmem _)⟩

/-- **A slot that left its queue is named by nothing.** -/
theorem unnamed_of_linked (h : (b.detachAt s ref slot).Linked Q' (slot :: free))
    (hold : ∀ i, handedOut i past = true → i = slot ∨ i ∈ (allCells Q').map Prod.fst) :
    Unnamed (b.unlinkAt s ref slot) slot past := by
  have hgone : slot ∉ (allCells Q').map Prod.fst := fun hmem =>
    List.disjoint_of_nodup_append h.pool.nodup hmem List.mem_cons_self
  have hslot : slot ≠ kNoSlot := h.pool.ne_kNoSlot (by simp)
  have hapart : ∀ i, i = kNoSlot ∨ i ∈ (allCells Q').map Prod.fst → i ≠ slot := by
    rintro i (rfl | hi) heq
    · exact hslot heq.symm
    · exact hgone (heq ▸ hi)
  have hladder : ∀ t, (b.unlinkAt s ref slot).ladder t = (b.detachAt s ref slot).ladder t := by
    intro t
    cases s <;> cases t <;> rfl
  have hpool : (b.detachAt s ref slot).pool = (b.unlinkAt s ref slot).pool.release slot := by
    rw [OrderBook.detachAt, OrderBook.unlinkAt, setLadder_pool, setLadder_pool]
    rfl
  refine ⟨fun t r => ?_, fun i hi hne => ?_⟩
  · rw [hladder]
    exact ⟨hapart _ (h.ends t r).1, hapart _ (h.ends t r).2⟩
  · obtain ⟨hnext, hprev⟩ := h.links ((hold i hi).resolve_left hne)
    rw [hpool, SlotPool.release_slots_of_ne hne] at hnext hprev
    exact ⟨hapart _ hnext, hapart _ hprev⟩

theorem forall_setQueue {m : List (Price × List Cell)} {P : Side → Price × List Cell → Prop} :
    (∀ t, ∀ e ∈ setQueue Q s m t, P t e) ↔ (∀ e ∈ m, P s e) ∧ ∀ e ∈ Q s.opposite, P s.opposite e := by
  constructor
  · intro h
    refine ⟨fun e he => h s e (by rwa [setQueue_self]), fun e he => h _ e ?_⟩
    rwa [setQueue_opposite]
  · rintro ⟨hself, hopp⟩ t e he
    rcases Side.eq_or_eq_opposite s t with rfl | rfl
    · exact hself e (by rwa [setQueue_self] at he)
    · exact hopp e (by rwa [setQueue_opposite] at he)

/-- The one level a detach can empty. -/
theorem mem_empty_detach (hset : Settled Q) (hQ : Q s = m₁ ++ (p, as ++ (slot, o) :: bs) :: m₂)
    {t : Side} {q : Price} :
    (q, []) ∈ setQueue Q s (m₁ ++ (p, as ++ bs) :: m₂) t ↔ t = s ∧ q = p ∧ as ++ bs = [] := by
  constructor
  · intro hmem
    rcases Side.eq_or_eq_opposite s t with rfl | rfl
    · rw [setQueue_self] at hmem
      have hold : ∀ e ∈ m₁ ++ m₂, e.2 ≠ [] := fun e he => hset t e (by
        rw [hQ]
        rcases List.mem_append.mp he with he | he <;> simp [he])
      rcases List.mem_append.mp hmem with he | he
      · exact absurd rfl (hold _ (List.mem_append_left _ he))
      · rcases List.mem_cons.mp he with heq | he
        · obtain ⟨rfl, hnil⟩ := Prod.mk.inj heq
          exact ⟨rfl, rfl, hnil.symm⟩
        · exact absurd rfl (hold _ (List.mem_append_right _ he))
    · rw [setQueue_opposite] at hmem
      exact absurd rfl (hset _ _ hmem)
  · rintro ⟨rfl, rfl, hnil⟩
    rw [setQueue_self, hnil]
    simp

theorem OrderBook.Linked.find_level (h : b.Linked Q free) (hset : ∀ e ∈ Q s, e.2 ≠ [])
    {qs : List Cell} (hmem : (p, qs) ∈ Q s) :
    (b.ladder s).find p = some ((b.ladder s).refOf p) := by
  have hlevel : (p, levelOf qs) ∈ levelsOf (Q s) := List.mem_map_of_mem (f := fun e => (e.1, levelOf e.2)) hmem
  rw [(h.ladder s).find (h.allOccupied hset), (h.sorted s).lookup_eq_some.mpr hlevel]
  rfl

theorem Tracks.unlink (h : Tracks past Q) (hl : b.Linked Q free)
    (hQ : Q s = m₁ ++ (p, as ++ (slot, o) :: bs) :: m₂) (hpool : b'.pool = b.pool)
    (hladder : b'.ladder s = b.ladder s) :
    ∀ u ∈ b'.unlinkUses s ((b.ladder s).refOf p) slot, u.silent = true ∧ u.Allowed past := by
  have hmem : (p, as ++ (slot, o) :: bs) ∈ Q s := by rw [hQ]; simp
  have hslot : slot ∈ (allCells Q).map Prod.fst := (slots_detach hQ).mem_iff.mpr List.mem_cons_self
  obtain ⟨hnext, hprev⟩ := hl.links hslot
  have hvalue : (b.pool.slots slot).value = o := (hl.queue s _ hmem).value (slot, o) (by simp)
  intro u hu
  rw [OrderBook.unlinkUses, hpool, hladder] at hu
  simp only [List.mem_append, List.mem_cons, List.not_mem_nil, or_false] at hu
  rcases hu with ((rfl | hu) | hu) | rfl
  · exact ⟨rfl, (h.slots slot).mpr hslot, trivial⟩
  · split at hu
    · rename_i hne
      rw [List.mem_singleton.mp hu]
      exact ⟨rfl, (h.slots _).mpr (hprev.resolve_left hne), trivial⟩
    · simp at hu
  · split at hu
    · rename_i hne
      rw [List.mem_singleton.mp hu]
      exact ⟨rfl, (h.slots _).mpr (hnext.resolve_left hne), trivial⟩
    · simp at hu
  · refine ⟨rfl, trivial, exact_sub64 ?_⟩
    rw [hl.deref hQ, hl.level_total hmem, hvalue, UInt32.toNat_toUInt64]
    simp only [List.map_append, List.map_cons, volume_append, volume_cons]
    omega

/-- **Detaching a queued order** is in contract, and empties its level or not. -/
theorem Tracks.detach (h : Tracks past Q) (hl : b.Linked Q free) (hset : Settled Q)
    (hQ : Q s = m₁ ++ (p, as ++ (slot, o) :: bs) :: m₂) (hpool : b'.pool = b.pool)
    (hladder : b'.ladder s = b.ladder s)
    (hl' : (b'.detachAt s ((b.ladder s).refOf p) slot).Linked
      (setQueue Q s (m₁ ++ (p, as ++ bs) :: m₂)) (slot :: free)) :
    Tracks ((b'.detachUses s p ((b.ladder s).refOf p) slot).reverse ++ past)
      (setQueue Q s (m₁ ++ (p, as ++ bs) :: m₂)) := by
  have hmem : (p, as ++ (slot, o) :: bs) ∈ Q s := by rw [hQ]; simp
  have hin : ∀ i, handedOut i past = true ↔ i = slot
      ∨ i ∈ (allCells (setQueue Q s (m₁ ++ (p, as ++ bs) :: m₂))).map Prod.fst := fun i => by
    rw [h.slots, (slots_detach hQ).mem_iff, List.mem_cons]
  have hslot : handedOut slot past = true := (hin slot).mpr (Or.inl rfl)
  have hgone : slot ∉ (allCells (setQueue Q s (m₁ ++ (p, as ++ bs) :: m₂))).map Prod.fst := fun hmem =>
    List.disjoint_of_nodup_append hl'.pool.nodup hmem List.mem_cons_self
  -- the detach itself, and the reads and writes before the release
  let d : Use := .detach b' s p ((b.ladder s).refOf p) slot
  have hd : d.Allowed past := by
    refine ⟨⟨h.unlinked, h.emptied_none hset, ?_, ?_⟩, trivial⟩
    · rw [hladder]
      exact hl.find_level (hset s) hmem
    · refine ⟨(as ++ (slot, o) :: bs).map Prod.fst, ?_, by simp⟩
      rw [hladder, hl.deref hQ]
      show walk b'.pool b'.pool.used _ = _
      rw [hpool]
      exact hl.slotsAt hmem
  have hunlink : ∀ u ∈ b'.unlinkUses s ((b.ladder s).refOf p) slot,
      u.silent = true ∧ u.Allowed (d :: past) := fun u hu => by
    obtain ⟨hsilent, hcontract, hexact⟩ := h.unlink hl hQ hpool hladder u hu
    refine ⟨hsilent, ?_, hexact⟩
    cases u with
    | subscript i => exact hcontract
    | sum x => trivial
    | _ => simp [OrderBook.unlinkUses] at hu
  generalize hus : b'.unlinkUses s ((b.ladder s).refOf p) slot = us at hunlink
  have hread : SameReading (d :: past) (us.reverse ++ d :: past) :=
    sameReading_silent fun u hu => (hunlink u hu).1
  have hthrough : Throughout Use.Allowed (us.reverse ++ d :: past) :=
    throughout_silent ⟨hd, h.allowed⟩ hunlink
  -- the release
  let r : Use := .release (b'.unlinkAt s ((b.ladder s).refOf p) slot) slot
  have hr : r.Allowed (us.reverse ++ d :: past) := by
    refine ⟨⟨?_, ?_, ?_⟩, trivial⟩
    · rw [hread.handedOut]
      exact hslot
    · rw [hread.unlinked]
      rfl
    · refine unnamed_of_linked hl' fun i hi => (hin i).mp ?_
      rw [hread.handedOut] at hi
      exact hi
  have hlive : 0 < b'.pool.live := by
    rw [hpool, hl.pool.count]
    exact List.length_pos_of_mem ((slots_detach hQ).mem_iff.mpr List.mem_cons_self)
  have hshape : (b'.detachUses s p ((b.ladder s).refOf p) slot).reverse ++ past
      = .sum (.dec b'.pool.live) :: r :: (us.reverse ++ d :: past) := by
    simp [OrderBook.detachUses, hus, r, d]
  rw [hshape]
  refine ⟨⟨⟨trivial, exact_dec hlive⟩, hr, hthrough⟩, fun i => ?_, rfl, fun t q => ?_⟩
  · show (slot != i && handedOut i (us.reverse ++ d :: past)) = true ↔ _
    rw [hread.handedOut, Bool.and_eq_true, bne_iff_ne]
    show slot ≠ i ∧ handedOut i past = true ↔ _
    rw [hin]
    constructor
    · rintro ⟨hne, heq | hi⟩
      · exact absurd heq.symm hne
      · exact hi
    · intro hi
      exact ⟨fun heq => hgone (heq ▸ hi), Or.inr hi⟩
  · have hlevel : ((b'.detachAt s ((b.ladder s).refOf p) slot).ladder s).deref ((b.ladder s).refOf p)
        = levelOf (as ++ bs) := by
      rw [← hl'.deref (setQueue_self ..), OrderBook.detachAt, ladder_setLadder,
        (PriceLadder.sameWindow_store _ _ _).refOf, hladder]
    have hempty : (levelOf (as ++ bs)).empty = (as ++ bs).isEmpty :=
      hl'.level_empty (s := s) (e := (p, as ++ bs)) (by rw [setQueue_self]; simp)
    show Lob.emptied (us.reverse ++ d :: past) = _ ↔ _
    rw [hread.emptied, mem_empty_detach hset hQ]
    show (if _ then _ else _) = _ ↔ _
    rw [hlevel, hempty]
    split
    · rename_i hnil
      rw [Option.some.injEq, Prod.mk.injEq, List.isEmpty_iff.mp hnil]
      exact ⟨fun h => ⟨h.1.symm, h.2.symm, rfl⟩, fun h => ⟨h.1.symm, h.2.1.symm⟩⟩
    · rename_i hnil
      constructor
      · simp
      · exact fun h => absurd (List.isEmpty_iff.mpr h.2.2) hnil

/-- **Dropping a queued order** is in contract. -/
theorem Tracks.drop (h : Tracks past Q) (hl : b.Linked Q free) (hset : Settled Q)
    (hQ : Q s = m₁ ++ (p, as ++ (slot, o) :: bs) :: m₂) :
    Tracks ((b.dropUses s p ((b.ladder s).refOf p) slot).reverse ++ past)
      (setQueue Q s (m₁ ++ (p, as ++ bs) :: m₂)) := by
  have hmem : (p, as ++ (slot, o) :: bs) ∈ Q s := by rw [hQ]; simp
  have hval : (b.pool.slots slot).value = o := (hl.queue s _ hmem).value (slot, o) (by simp)
  have hentry : (o.id, indexValue slot s) ∈ entries Q :=
    (entries_detach hQ).mem_iff.mpr List.mem_cons_self
  obtain ⟨index, herase, hindex⟩ := hl.index.erase_present (entries_detach hQ)
  have hcount : 0 < b.orderIndex.count := by
    rw [hl.index.count]
    exact List.length_pos_of_mem hentry
  have hfirst : Tracks (([.indexErase b.orderIndex o.id, .sum (.dec b.orderIndex.count)] :
      List Use).reverse ++ past) Q := by
    refine h.silent fun u hu => ?_
    rcases List.mem_cons.mp hu with rfl | hu
    · exact ⟨rfl, ⟨_, hl.index.find_present hentry⟩, trivial⟩
    · rw [List.mem_singleton.mp hu]
      exact ⟨rfl, trivial, exact_dec hcount⟩
  obtain ⟨hl', -⟩ := hl.detachAt hQ hindex
  have hladder : OrderBook.ladder { b with orderIndex := index } s = b.ladder s := by
    cases s <;> rfl
  have hpool : OrderBook.pool { b with orderIndex := index } = b.pool := rfl
  have hdetach := hfirst.detach hl hset hQ hpool hladder hl'
  rw [OrderBook.dropUses, hval, herase, List.reverse_append, List.append_assoc]
  exact hdetach

/-! ## Closing a level -/

/-- **Closing the emptied level** is in contract, and none waits after it. -/
theorem Tracks.close (h : Tracks past Q) (hl : b.Linked Q free) (hQ : Q s = m₁ ++ (p, []) :: m₂)
    (hset : ∀ e ∈ m₁ ++ m₂, e.2 ≠ []) (hopp : ∀ e ∈ Q s.opposite, e.2 ≠ []) :
    Tracks ((b.closeUses s p).reverse ++ past) (setQueue Q s (m₁ ++ m₂)) := by
  have hmem : (p, []) ∈ Q s := by rw [hQ]; simp
  have hlevel : (p, {}) ∈ levelsOf (Q s) := List.mem_map_of_mem (f := fun e => (e.1, levelOf e.2)) hmem
  obtain ⟨b', hclose, -⟩ := hl.closeAt hQ hset
  obtain ⟨l', hclosed, -⟩ := Option.map_eq_some_iff.mp hclose
  let c : Use := .closed b s p
  have hc : c.Allowed past := by
    refine ⟨⟨(h.emptied s p).mpr hmem, ?_⟩, trivial⟩
    rw [hl.deref hQ]
    rfl
  -- the rest reads the window, or frees the node
  have hrest : ∃ us, b.closeUses s p = c :: us
      ∧ ∀ u ∈ us, u.silent = true ∧ u.Allowed (c :: past) := by
    unfold OrderBook.closeUses
    refine ⟨_, rfl, fun u hu => ?_⟩
    split at hu
    · rename_i hin
      obtain ⟨hocc, hscan⟩ := (hl.ladder s).closed_scan hlevel hin hclosed
      rcases List.mem_cons.mp hu with rfl | hu
      · exact ⟨rfl, trivial, exact_dec hocc⟩
      · split at hu
        · rename_i hbest
          obtain ⟨hnext, hread⟩ := hscan hbest
          rcases List.mem_cons.mp hu with rfl | hu
          · exact ⟨rfl, hnext, trivial⟩
          · obtain ⟨k, hk, rfl⟩ := List.mem_map.mp hu
            exact ⟨rfl, hread k hk, trivial⟩
        · simp at hu
    · split at hu
      · rw [List.mem_singleton.mp hu]
        exact ⟨rfl, trivial, trivial⟩
      · simp at hu
  obtain ⟨us, hus, hsilent⟩ := hrest
  have hread : SameReading (c :: past) (us.reverse ++ c :: past) :=
    sameReading_silent fun u hu => (hsilent u hu).1
  have hcells : allCells (setQueue Q s (m₁ ++ m₂)) = allCells Q := by
    cases s <;> simp [allCells, setQueue, hQ]
  rw [hus, List.reverse_cons, List.append_assoc]
  refine ⟨throughout_silent ⟨hc, h.allowed⟩ hsilent, fun i => ?_, ?_, fun t q => ?_⟩
  · rw [hcells, ← h.slots i]
    exact Bool.eq_iff_iff.mp (hread.handedOut i)
  · exact hread.unlinked.trans h.unlinked
  · constructor
    · intro he
      have : (none : Option (Side × Price)) = some (t, q) := hread.emptied.symm.trans he
      simp at this
    · intro he
      rcases Side.eq_or_eq_opposite s t with rfl | rfl
      · rw [setQueue_self] at he
        exact absurd rfl (hset _ he)
      · rw [setQueue_opposite] at he
        exact absurd rfl (hopp _ he)

end Tracks

/-! ## The loop -/

namespace Matching

/-- The report's totals have room for what the rest of the walk can add. -/
structure Within (m : Matching) (Q : Layout) : Prop where
  filled : m.rep.filled.toNat + m.incoming.qty.toNat < 2 ^ 32
  count : m.rep.tradeCount.toNat ≤ m.rep.filled.toNat
  removed : m.rep.stpCancelled.toNat + volume (ordersOf (Q m.far)) < 2 ^ 64

section Loop

variable {limit : Option Price} {m : Matching} {Q : Layout} {free : List SlotIndex} {past : List Use}
  {p : Price} {ref : LevelRef} {slot : SlotIndex} {o : RestingOrder} {cs : List Cell}
  {L : List (Price × List Cell)}

/-- The loop's state, with the uses that led to it. -/
structure Used (limit : Option Price) (m : Matching) (Q : Layout) (free : List SlotIndex)
    (past : List Use) : Prop where
  walking : Walking limit m Q free
  within : Within m Q
  tracks : Tracks past Q

/-- At the head of the far queue no level is empty. -/
theorem AtHead.settledAll (ha : AtHead limit m Q p slot o cs L) (h : Walking limit m Q free) :
    Settled Q := by
  intro t e he
  rcases Side.eq_or_eq_opposite m.far t with rfl | rfl
  · exact ha.settled e he
  · have hopp : m.far.opposite = m.incoming.side := Side.opposite_opposite _
    rw [hopp] at he
    exact h.near e he

/-- A step that leaves the report and the taker has as much room. -/
theorem Within.congr {m' : Matching} {Q' : Layout} (h : Within m Q) (hrep : m'.rep = m.rep)
    (hincoming : m'.incoming = m.incoming) (horders : ordersOf (Q' m.far) = ordersOf (Q m.far)) :
    Within m' Q' where
  filled := by rw [hrep, hincoming]; exact h.filled
  count := by rw [hrep]; exact h.count
  removed := by rw [hrep, far, hincoming, ← far, horders]; exact h.removed

/-- The outer loop's test reads the best window level. -/
theorem Used.step_outer (h : Used limit m Q free past) (hctl : m.ctl = .outer) :
    ∃ m', m.step limit = some m' ∧ Used limit m' Q free (m.stepUses.reverse ++ past) := by
  obtain ⟨m', hstep, hw, -⟩ := h.walking.step_outer hctl
  have hsame : m'.rep = m.rep ∧ m'.incoming = m.incoming := by
    unfold Matching.step at hstep
    rw [hctl] at hstep
    simp only at hstep
    split at hstep
    · split at hstep
      · obtain rfl := Option.some.inj hstep
        exact ⟨rfl, rfl⟩
      · split at hstep
        all_goals
          obtain rfl := Option.some.inj hstep
          exact ⟨rfl, rfl⟩
    · obtain rfl := Option.some.inj hstep
      exact ⟨rfl, rfl⟩
  refine ⟨m', hstep, hw, h.within.congr hsame.1 hsame.2 rfl, h.tracks.silent fun u hu => ?_⟩
  unfold Matching.stepUses PriceLadder.bestUses at hu
  rw [hctl] at hu
  simp only at hu
  split at hu
  · split at hu
    · rename_i hocc
      rw [List.mem_singleton.mp hu]
      exact ⟨rfl, (h.walking.linked.ladder m.far).bestIdx_lt hocc, trivial⟩
    · simp at hu
  · simp at hu

/-- **Past the inner loop** an emptied level is closed. -/
theorem Used.step_leave (h : Used limit m Q free past) (hctl : m.ctl = .leave p ref) :
    ∃ m' Q', m.step limit = some m' ∧ Used limit m' Q' free (m.stepUses.reverse ++ past) := by
  obtain ⟨qs, L, hL, rfl, hset, hstop⟩ := h.walking.leaving hctl
  have hempty := h.walking.far_empty hL
  by_cases hqs : qs = []
  · subst hqs
    obtain ⟨b', -, hstep, hw, -⟩ := h.walking.leave_empty hctl hL hset
    have hopp : m.far.opposite = m.incoming.side := Side.opposite_opposite _
    have hclose := h.tracks.close h.walking.linked (show Q m.far = [] ++ (p, []) :: L from hL) hset
      (by rw [hopp]; exact h.walking.near)
    have huses : m.stepUses = m.book.closeUses m.far p := by
      unfold Matching.stepUses
      rw [hctl]
      exact if_pos hempty
    refine ⟨_, _, hstep, hw, h.within.congr rfl rfl ?_, huses ▸ hclose⟩
    rw [setQueue_self, hL]
    rfl
  · obtain ⟨hstep, hw, -⟩ := h.walking.leave_full hctl hL hset hqs (hstop.resolve_left hqs)
    have huses : m.stepUses = [] := by
      unfold Matching.stepUses
      rw [hctl]
      refine if_neg ?_
      rw [hempty]
      simpa using hqs
    exact ⟨_, Q, hstep, hw, h.within.congr rfl rfl rfl, huses ▸ h.tracks⟩

/-- **A cancelling turn** drops the head and counts its quantity. -/
theorem Used.cancel_turn (h : Used limit m Q free past) (ha : AtHead limit m Q p slot o cs L)
    (hself : (m.taker limit).selfTrade o = true) (hpolicy : m.book.policy ≠ .cancelIncoming) :
    ∃ b', m.book.drop m.far ((m.book.ladder m.far).refOf p) slot = some b' ∧
      let m' := { m with
        book := b'
        rep := { m.rep with stpCancelled := m.rep.stpCancelled + o.qty.toUInt64 }
        events := m.record (.stpCancel o) }
      Used limit m' (setQueue Q m.far ((p, cs) :: L)) (slot :: free)
        ((.subscript slot :: .sum (.add64 m.rep.stpCancelled o.qty.toUInt64)
          :: m.book.dropUses m.far p ((m.book.ladder m.far).refOf p) slot).reverse ++ past) := by
  obtain ⟨b', hdrop, hw, -⟩ := ha.cancel_turn h.walking hself hpolicy
  have hremoved := h.within.removed
  rw [ha.orders, volume_cons] at hremoved
  have hadd : m.rep.stpCancelled.toNat + o.qty.toUInt64.toNat < 2 ^ 64 := by
    rw [UInt32.toNat_toUInt64]
    omega
  have hslot : handedOut slot past = true := by
    rw [h.tracks.slots, (slots_detach ha.split).mem_iff]
    exact List.mem_cons_self
  have hfirst : Tracks (([.subscript slot, .sum (.add64 m.rep.stpCancelled o.qty.toUInt64)] :
      List Use).reverse ++ past) Q := by
    refine h.tracks.silent fun u hu => ?_
    rcases List.mem_cons.mp hu with rfl | hu
    · exact ⟨rfl, hslot, trivial⟩
    · rw [List.mem_singleton.mp hu]
      exact ⟨rfl, trivial, exact_add64 hadd⟩
  refine ⟨b', hdrop, hw, ⟨h.within.filled, h.within.count, ?_⟩, ?_⟩
  · show (m.rep.stpCancelled + o.qty.toUInt64).toNat
      + volume (ordersOf (setQueue Q m.far ((p, cs) :: L) m.far)) < 2 ^ 64
    rw [setQueue_self, UInt64.toNat_add, Nat.mod_eq_of_lt hadd, UInt32.toNat_toUInt64]
    omega
  · have hdrop := hfirst.drop h.walking.linked (ha.settledAll h.walking) ha.split
    rw [List.reverse_cons, List.reverse_cons]
    simpa using hdrop

/-- What a trade takes is positive, and no more than either side wants. -/
theorem AtHead.traded (ha : AtHead limit m Q p slot o cs L) (h : Walking limit m Q free) :
    (min m.incoming.qty o.qty).toNat = min m.incoming.qty.toNat o.qty.toNat
      ∧ 0 < m.incoming.qty.toNat ∧ 0 < o.qty.toNat := by
  refine ⟨min_toNat _ _, Nat.pos_of_ne_zero fun h0 => ha.left (UInt32.toNat_inj.mp h0), ?_⟩
  have hpos := h.live m.far (slot, o) (by rw [ha.far]; simp)
  rw [UInt32.lt_iff_toNat_lt] at hpos
  exact hpos

/-- The sums of a trade are exact. -/
theorem Used.fill (h : Used limit m Q free past) (ha : AtHead limit m Q p slot o cs L) :
    ∀ u ∈ Use.subscript slot :: m.fillUses ((m.book.ladder m.far).refOf p) slot,
      u.silent = true ∧ u.Allowed past := by
  obtain ⟨hmin, hleft, hpos⟩ := ha.traded h.walking
  obtain ⟨hfilled, hcount, -⟩ := h.within
  have hslot : handedOut slot past = true := by
    rw [h.tracks.slots, (slots_detach ha.split).mem_iff]
    exact List.mem_cons_self
  have hmem : (p, (slot, o) :: cs) ∈ Q m.far := by rw [ha.far]; simp
  have htotal := h.walking.linked.level_total hmem
  have hderef := h.walking.linked.deref ha.split
  intro u hu
  unfold Matching.fillUses at hu
  rw [ha.value, hderef] at hu
  simp only [List.mem_cons, List.not_mem_nil, or_false] at hu
  rcases hu with rfl | rfl | rfl | rfl | rfl | rfl
  · exact ⟨rfl, hslot, trivial⟩
  · exact ⟨rfl, trivial, exact_sub32 (by omega)⟩
  · exact ⟨rfl, trivial, exact_sub32 (by omega)⟩
  · refine ⟨rfl, trivial, exact_sub64 ?_⟩
    show _ ≤ (levelOf ((slot, o) :: cs)).totalQty.toNat
    have hsum : volume (((slot, o) :: cs).map Prod.snd) = o.qty.toNat + volume (cs.map Prod.snd) := rfl
    rw [htotal, hsum, UInt32.toNat_toUInt64]
    omega
  · refine ⟨rfl, trivial, exact_add32 ?_⟩
    show m.rep.tradeCount.toNat + 1 < 2 ^ 32
    omega
  · exact ⟨rfl, trivial, exact_add32 (by omega)⟩

/-- The queue behind a trade holds no more than before it. -/
theorem volume_tradedCells (slot : SlotIndex) (o : RestingOrder) (cs : List Cell) (s : Progress) :
    volume ((tradedCells slot o cs s).map Prod.snd) ≤ o.qty.toNat + volume (cs.map Prod.snd) := by
  unfold tradedCells
  split
  · omega
  · have hrest := Taker.rest_qty o s
    show (Taker.rest o s).qty.toNat + volume (cs.map Prod.snd) ≤ _
    omega

/-- A trade keeps the room of the report's totals. -/
theorem Within.fill {m' : Matching} (h : Within m Q) (ha : AtHead limit m Q p slot o cs L)
    (hw : Walking limit m Q free)
    (hrep : m'.rep = (m.fill p ref slot).rep) (hincoming : m'.incoming = (m.fill p ref slot).incoming) :
    Within m' (setQueue Q m.far ((p, tradedCells slot o cs m.progress) :: L)) := by
  obtain ⟨hmin, hleft, hpos⟩ := ha.traded hw
  obtain ⟨hfilled, hcount, hremoved⟩ := h
  have hrep' : m'.rep.filled = m.rep.filled + min m.incoming.qty o.qty
      ∧ m'.rep.tradeCount = m.rep.tradeCount + 1 ∧ m'.rep.stpCancelled = m.rep.stpCancelled := by
    rw [hrep, Matching.fill, ha.value]
    exact ⟨rfl, rfl, rfl⟩
  have hqty : m'.incoming.qty = m.incoming.qty - min m.incoming.qty o.qty := by
    rw [hincoming, Matching.fill, ha.value]
  have hfar : m'.far = m.far := by
    rw [far, hincoming]
    rfl
  have hfill : m'.rep.filled.toNat = m.rep.filled.toNat + (min m.incoming.qty o.qty).toNat := by
    rw [hrep'.1, UInt32.toNat_add, Nat.mod_eq_of_lt (by omega)]
  have hinc : m'.rep.tradeCount.toNat = m.rep.tradeCount.toNat + 1 := by
    rw [hrep'.2.1, UInt32.toNat_add]
    show (m.rep.tradeCount.toNat + 1) % 2 ^ 32 = _
    rw [Nat.mod_eq_of_lt (by omega)]
  have hsub : m'.incoming.qty.toNat = m.incoming.qty.toNat - (min m.incoming.qty o.qty).toNat := by
    rw [hqty, UInt32.toNat_sub_of_le _ _ (UInt32.le_iff_toNat_le.mpr (by omega))]
  refine ⟨by omega, by omega, ?_⟩
  rw [ha.orders, volume_cons, ordersOf_cons, volume_append] at hremoved
  rw [hrep'.2.2, hfar, setQueue_self, ordersOf_cons, volume_append]
  have hvol := volume_tradedCells slot o cs m.progress
  change m.rep.stpCancelled.toNat + (o.qty.toNat + (volume (cs.map Prod.snd) + _)) < 2 ^ 64 at hremoved
  show m.rep.stpCancelled.toNat + (volume ((tradedCells slot o cs m.progress).map Prod.snd) + _) < 2 ^ 64
  omega

/-- **A trading turn** reduces the head, and drops it once nothing is left. -/
theorem Used.trade_turn (h : Used limit m Q free past) (ha : AtHead limit m Q p slot o cs L)
    (hself : (m.taker limit).selfTrade o = false) :
    let ref := (m.book.ladder m.far).refOf p
    let m₁ := m.fill p ref slot
    ∃ m' Q' free', (if (m₁.book.pool.slots slot).value.qty = 0 then
        (m₁.book.drop m₁.far ref slot).map fun b => { m₁ with book := b }
      else some m₁) = some m' ∧ Used limit m' Q' free'
        ((.subscript slot :: (m.fillUses ref slot ++
          if (m₁.book.pool.slots slot).value.qty = 0 then m₁.book.dropUses m.far p ref slot
          else [])).reverse ++ past) := by
  intro ref m₁
  obtain ⟨m', free', hstep, hw, -⟩ := ha.trade_turn h.walking hself
  obtain ⟨hlinked, -, hwindow, -, -, -, hvalue⟩ := ha.fill_spec h.walking
  have hset := ha.settledAll h.walking
  refine ⟨m', _, free', hstep, hw, ?_, ?_⟩
  · have hsame : m'.rep = m₁.rep ∧ m'.incoming = m₁.incoming := by
      split at hstep
      · obtain ⟨b', -, rfl⟩ := Option.map_eq_some_iff.mp hstep
        exact ⟨rfl, rfl⟩
      · obtain rfl := Option.some.inj hstep
        exact ⟨rfl, rfl⟩
    exact h.within.fill ha h.walking hsame.1 hsame.2
  · -- after the trade the queue holds the reduced order, in the same slot
    let Q₁ := setQueue Q m.far ((p, (slot, Taker.rest o m.progress) :: cs) :: L)
    have hQ₁ : Q₁ m.far = [] ++ (p, [] ++ (slot, Taker.rest o m.progress) :: cs) :: L :=
      setQueue_self ..
    have hset₁ : Settled Q₁ := by
      refine forall_setQueue.mpr ⟨fun e he => ?_, hset _⟩
      rcases List.mem_cons.mp he with rfl | he
      · simp
      · exact ha.set e he
    have hafter : setQueue Q₁ m.far ([] ++ (p, [] ++ cs) :: L) = setQueue Q m.far ((p, cs) :: L) :=
      Function.update_idem ..
    have hslots : ∀ i, i ∈ (allCells Q).map Prod.fst ↔ i ∈ (allCells Q₁).map Prod.fst := fun i => by
      rw [(slots_detach ha.split).mem_iff, (slots_detach hQ₁).mem_iff, hafter]
      rfl
    have hfill : Tracks ((.subscript slot :: m.fillUses ref slot).reverse ++ past) Q₁ :=
      (h.tracks.silent (h.fill ha)).relabel hset hset₁ hslots
    have href : ref = (m₁.book.ladder m.far).refOf p := ((hwindow m.far).refOf p).symm
    by_cases hzero : (Taker.rest o m.progress).qty = 0
    · have hdrop := hfill.drop hlinked hset₁ hQ₁
      change Tracks ((m₁.book.dropUses m.far p ((m₁.book.ladder m.far).refOf p) slot).reverse ++ _) _
        at hdrop
      rw [hafter, ← href] at hdrop
      rw [if_pos (hvalue ▸ hzero), tradedCells, if_pos hzero, ← List.cons_append, List.reverse_append,
        List.append_assoc]
      exact hdrop
    · rw [if_neg (hvalue ▸ hzero), tradedCells, if_neg hzero, List.append_nil]
      exact hfill

/-- **The inner loop's test and body.** -/
theorem Used.step_inner (h : Used limit m Q free past) (hctl : m.ctl = .inner p ref) :
    ∃ m' Q' free', m.step limit = some m' ∧ Used limit m' Q' free' (m.stepUses.reverse ++ past) := by
  by_cases hgo : (decide (0 < m.incoming.qty) && !((m.book.ladder m.far).deref ref).empty) = true
  · obtain ⟨slot, o, cs, L, ha, rfl, hhead⟩ := h.walking.atHead hctl hgo
    have hself : (m.stpPossible && m.incoming.owner == o.owner) = (m.taker limit).selfTrade o := rfl
    have hslot : handedOut slot past = true := by
      rw [h.tracks.slots, (slots_detach ha.split).mem_iff]
      exact List.mem_cons_self
    unfold Matching.step Matching.stepUses
    rw [hctl]
    simp only
    rw [if_pos hgo, if_pos hgo, hhead, Matching.visit, Matching.visitUses, ha.value, hself]
    by_cases hs : (m.taker limit).selfTrade o = true
    · rw [if_pos hs, if_pos hs]
      by_cases hpolicy : m.book.policy = .cancelIncoming
      · rw [if_pos hpolicy, if_pos hpolicy]
        obtain ⟨hw, -⟩ := ha.halt_turn h.walking hs hpolicy
        refine ⟨_, _, _, rfl, hw, ⟨h.within.filled, h.within.count, h.within.removed⟩,
          h.tracks.silent fun u hu => ?_⟩
        rw [List.mem_singleton.mp hu]
        exact ⟨rfl, hslot, trivial⟩
      · rw [if_neg hpolicy, if_neg hpolicy]
        obtain ⟨b', hdrop, hused⟩ := h.cancel_turn ha hs hpolicy
        rw [hdrop]
        exact ⟨_, _, _, rfl, hused⟩
    · rw [if_neg hs, if_neg hs]
      exact h.trade_turn ha (by simpa using hs)
  · obtain ⟨hstep, hw, -⟩ := h.walking.inner_stop hctl hgo
    refine ⟨_, Q, free, hstep, hw, h.within.congr rfl rfl rfl, ?_⟩
    unfold Matching.stepUses
    rw [hctl]
    simp only
    rw [if_neg hgo]
    exact h.tracks

/-- **The step lemma of the loop's uses.** -/
theorem Used.step (h : Used limit m Q free past) (hctl : m.ctl ≠ .done) :
    ∃ m' Q' free', m.step limit = some m' ∧ Used limit m' Q' free' (m.stepUses.reverse ++ past) := by
  cases hc : m.ctl with
  | outer =>
    obtain ⟨m', hstep, hused⟩ := h.step_outer hc
    exact ⟨m', Q, free, hstep, hused⟩
  | inner p ref => exact h.step_inner hc
  | leave p ref =>
    obtain ⟨m', Q', hstep, hused⟩ := h.step_leave hc
    exact ⟨m', Q', free, hstep, hused⟩
  | done => exact absurd hc hctl

end Loop

end Matching

namespace OrderBook

open Matching

variable {b : OrderBook} {Q : Layout} {free : List SlotIndex} {past : List Use}

/-- **The matching loop keeps every contract**, and leaves no level waiting to be closed. -/
theorem Linked.matchUses (h : b.Linked Q free) (hset : Settled Q) (hlive : Live Q)
    (ht : Tracks past Q) {incoming : Order} {limit : Option Price} {m : Matching}
    (hm : b.matchOpposite incoming limit = some m) :
    ∃ Q' free', m.book.Linked Q' free' ∧ Settled Q' ∧ Live Q'
      ∧ Tracks ((b.matchUses incoming limit).reverse ++ past) Q' := by
  have hvolume : volume (ordersOf (Q incoming.side.opposite)) < 2 ^ 64 := by
    refine volume_lt ?_
    have hlen := h.pool.length_add
    have hused := h.used
    rw [List.length_map, (allCells_perm Q incoming.side.opposite).length_eq, List.length_append] at hlen
    rw [ordersOf, List.length_map]
    omega
  have hstart : Used limit (start b incoming) Q free past := by
    refine ⟨h.walking hset hlive incoming limit, ⟨?_, Nat.le_refl 0, ?_⟩, ht⟩
    · show 0 + incoming.qty.toNat < 2 ^ 32
      have := incoming.qty.toNat_lt
      omega
    · show 0 + volume (ordersOf (Q incoming.side.opposite)) < 2 ^ 64
      omega
  obtain ⟨Q', free', hused⟩ := runUntil_outputs
    (J := fun m past => ∃ Q free, Used limit m Q free past)
    (fun m m' past hex hdone hstep => by
      obtain ⟨Q₁, free₁, hu⟩ := hex
      obtain ⟨m₁, Q', free', hstep₁, hu'⟩ := hu.step (by simpa using hdone)
      rw [hstep₁] at hstep
      obtain rfl := Option.some.inj hstep
      exact ⟨Q', free', hu'⟩) hm ⟨Q, free, hstart⟩
  obtain ⟨-, hdone⟩ := reaches_of_runUntil hm
  have hctl : m.ctl = .done := by simpa using hdone
  have hst := hused.walking.standing
  rw [hctl] at hst
  generalize hL : Q' m.far = L at hst
  cases hst with
  | done _ hsetL hstop =>
  refine ⟨Q', free', hused.walking.linked, fun s e he => ?_, hused.walking.live, hused.tracks⟩
  rcases Side.eq_or_eq_opposite m.far s with rfl | rfl
  · exact hsetL e (hL ▸ he)
  · rw [far, Side.opposite_opposite] at he
    exact hused.walking.near e he

end OrderBook

end Lob
