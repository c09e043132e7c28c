/-
# Lob.Provision — how far the order pool and the id index grow.

Matching and cancelling only hand slots and ids back, so a call can grow either store in one place
only: where its leftover comes to rest, and then the book ends up holding one order more than it held
there.  So both stores double as often as the largest number of orders resting after any call requires
(`Lib.Doubling`), whatever happened inside the calls.
-/
import Lob.Lib.Doubling
import Lob.CallRule
import Lob.EditRule
import Lob.IdIndexChurn

namespace Lob

open Lib.Doubling Lib.Machine

/-! ## Removing an id -/

namespace IdIndex

variable {υ : Type} {t t' : IdIndex υ} {id : OrderId}

theorem closeGap_growths {fuel hole j : Nat} (h : closeGap fuel t hole j = some t') :
    t'.growCount = t.growCount ∧ t'.count = t.count := by
  induction fuel generalizing t hole j with
  | zero => simp [closeGap] at h
  | succ fuel ih =>
    unfold closeGap at h
    split at h
    · split at h
      · exact ih h
      · obtain ⟨hgrowths, hcount⟩ := ih h
        exact ⟨hgrowths, hcount⟩
    · obtain rfl := Option.some.inj h
      exact ⟨rfl, rfl⟩

/-- `take` changes neither the size of the table nor the count of its growths. -/
theorem take_growths {r : Option υ} (h : t.take id = some (r, t')) :
    t'.growCount = t.growCount ∧ t'.count = t.count - if r.isSome then 1 else 0 := by
  unfold take at h
  split at h
  · simp at h
  · split at h
    · obtain ⟨q, hq, hpair⟩ := Option.map_eq_some_iff.mp h
      obtain ⟨rfl, rfl⟩ := Prod.mk.inj hpair
      obtain ⟨hgrowths, hcount⟩ := closeGap_growths hq
      exact ⟨hgrowths, congrArg (· - 1) hcount⟩
    · obtain ⟨rfl, rfl⟩ := Prod.mk.inj (Option.some.inj h)
      exact ⟨rfl, rfl⟩

end IdIndex

namespace OrderBook

/-! ## Calls up to `insert` -/

def orderPoolGrowths (b : OrderBook) : Nat := b.pool.growCount

def idIndexGrowths (b : OrderBook) : Nat := b.orderIndex.growCount

/-- Neither store has grown, and no id was added. -/
structure NoGrowth (b b' : OrderBook) : Prop where
  slots : b'.pool.capacity = b.pool.capacity
  poolGrowths : b'.orderPoolGrowths = b.orderPoolGrowths
  table : b'.orderIndex.tableSize = b.orderIndex.tableSize
  indexGrowths : b'.idIndexGrowths = b.idIndexGrowths
  size : b'.size ≤ b.size

section Frames

variable {b b' b'' : OrderBook} {m : Matching} {s : Side} {level : LevelRef} {slot : SlotIndex}
  {price : Price} {id : OrderId} {index : IdIndex UInt32}

theorem NoGrowth.refl (b : OrderBook) : NoGrowth b b := ⟨rfl, rfl, rfl, rfl, Nat.le_refl _⟩

theorem NoGrowth.trans (h : NoGrowth b b') (h' : NoGrowth b' b'') : NoGrowth b b'' :=
  ⟨h'.slots.trans h.slots, h'.poolGrowths.trans h.poolGrowths, h'.table.trans h.table,
    h'.indexGrowths.trans h.indexGrowths, h'.size.trans h.size⟩

/-- Only the pool and the index matter. -/
theorem noGrowth_of_eq (hslots : b'.pool.capacity = b.pool.capacity)
    (hgrowths : b'.pool.growCount = b.pool.growCount) (hindex : b'.orderIndex = b.orderIndex) :
    NoGrowth b b' :=
  ⟨hslots, hgrowths, by rw [hindex], by rw [idIndexGrowths, idIndexGrowths, hindex],
    Nat.le_of_eq (by rw [size, size, hindex])⟩

theorem append_capacity (pool : OrderSlots) (level : PriceLevel) (slot : SlotIndex) :
    (append pool level slot).1.capacity = pool.capacity
      ∧ (append pool level slot).1.growCount = pool.growCount := by
  unfold append
  by_cases htail : level.tail = kNoSlot <;> simp [htail, SlotPool.write]

theorem detach_capacity (pool : OrderSlots) (level : PriceLevel) (slot : SlotIndex) :
    (detach pool level slot).1.capacity = pool.capacity
      ∧ (detach pool level slot).1.growCount = pool.growCount := by
  unfold detach
  simp only [SlotPool.release]
  split <;> split <;> exact ⟨rfl, rfl⟩

theorem noGrowth_detachAt (b : OrderBook) (s : Side) (level : LevelRef) (slot : SlotIndex) :
    NoGrowth b (b.detachAt s level slot) := by
  obtain ⟨hslots, hgrowths⟩ := detach_capacity b.pool ((b.ladder s).deref level) slot
  apply noGrowth_of_eq
  · rw [detachAt, setLadder_pool]
    exact hslots
  · rw [detachAt, setLadder_pool]
    exact hgrowths
  · rw [detachAt, setLadder_orderIndex]

theorem noGrowth_closeAt (h : b.closeAt s price = some b') : NoGrowth b b' := by
  obtain ⟨l, -, rfl⟩ := Option.map_eq_some_iff.mp h
  apply noGrowth_of_eq
  · rw [setLadder_pool]
  · rw [setLadder_pool]
  · rw [setLadder_orderIndex]

theorem noGrowth_take {r : Option UInt32} (h : b.orderIndex.take id = some (r, index)) :
    NoGrowth b { b with orderIndex := index } := by
  obtain ⟨hgrowths, hcount⟩ := IdIndex.take_growths h
  refine ⟨rfl, rfl, (IdIndex.take_shape h).size, hgrowths, ?_⟩
  show index.count ≤ b.orderIndex.count
  omega

theorem noGrowth_fill (m : Matching) (price : Price) (level : LevelRef) (slot : SlotIndex) :
    NoGrowth m.book (m.fill price level slot).book := by
  apply noGrowth_of_eq
  · rw [Matching.fill, setLadder_pool]
    rfl
  · rw [Matching.fill, setLadder_pool]
    rfl
  · rw [Matching.fill, setLadder_orderIndex]

/-- **No turn of the matching loop and no cancel grows a store.** -/
theorem noGrowth_rule : WalkRule NoGrowth where
  refl := .refl
  trans := .trans
  take := noGrowth_take
  detachAt := noGrowth_detachAt
  fill := noGrowth_fill
  closeAt := noGrowth_closeAt

/-- The id of a live order is gone after its cancel. -/
theorem size_cancel (h : b.cancel id = some (true, b')) : b'.size ≤ b.size - 1 := by
  unfold OrderBook.cancel at h
  split at h
  · simp at h
  · simp at h
  · rename_i htake
    obtain ⟨b₁, hremove, hpair⟩ := Option.map_eq_some_iff.mp h
    obtain ⟨-, rfl⟩ := Prod.mk.inj hpair
    have hremoved := noGrowth_rule.remove hremove
    exact hremoved.size.trans (Nat.le_of_eq (IdIndex.take_growths htake).2)

end Frames

end OrderBook

/-! ## What resting an order asks of the stores -/

/-- **A slot for one order more**: the block doubles exactly when it holds no more orders than live
ones, as long as the slot's index fits 31 bits. -/
theorem SlotPool.Wf.acquire_demand {α : Type} [Inhabited α] {p p' : SlotPool α}
    {live free : List SlotIndex} {mem : Bool} {i : SlotIndex} (h : p.Wf live free)
    (hacquire : p.acquire mem = .ok i p') (hi : i.toNat < 2 ^ 31) :
    p'.capacity = (if p.capacity < p.live + 1 then p.capacity * 2 else p.capacity)
      ∧ p'.growCount = if p.capacity < p.live + 1 then p.growCount + 1 else p.growCount := by
  have hk : kMax = 4294967295 := rfl
  have hlen := h.length_add
  have hlive := h.count
  have hused := h.used_le
  rcases acquire_capacity hacquire with ⟨hcap, hgrowths, hroom⟩ | ⟨hhead, hfull, hlt, hcap, hgrowths⟩
  · have hfits : ¬ p.capacity < p.live + 1 := by
      rcases hroom with hhead | hne
      · have hpos : 0 < free.length := by
          apply List.length_pos_of_ne_nil
          rintro rfl
          exact hhead h.head
        omega
      · omega
    rw [if_neg hfits, if_neg hfits]
    exact ⟨hcap, hgrowths⟩
  · have hfree : free = [] := by
      cases free with
      | nil => rfl
      | cons j js =>
        have hj : j ≠ kNoSlot := h.ne_kNoSlot (by simp)
        rw [h.head] at hhead
        exact absurd hhead hj
    have hindex : i.toNat = p.used := by
      have hspec := h.acquire mem (Or.inl hlt.le)
      rw [hacquire] at hspec
      cases hspec with
      | ok i p' hw hprev hnext hframe hlifo hmark hindex hgrow => exact hindex hfree
    rw [hfree, List.length_nil] at hlen
    have hwant : p.capacity < p.live + 1 := by omega
    rw [if_pos hwant, if_pos hwant, hcap, if_neg (by omega)]
    exact ⟨rfl, hgrowths⟩

namespace OrderBook

section Inserting

variable {b b' : OrderBook} {Q : Layout} {free : List SlotIndex} {s : Side} {order : Order}
  {mem : Memory}

/-- The stores have met the demand of one order more than the book held. -/
structure Demanded (b b' : OrderBook) : Prop where
  size : b'.size = b.size + 1
  slots : b'.pool.capacity
    = if b.pool.capacity < b.size + 1 then b.pool.capacity * 2 else b.pool.capacity
  poolGrowths : b'.orderPoolGrowths
    = if b.pool.capacity < b.size + 1 then b.orderPoolGrowths + 1 else b.orderPoolGrowths
  /-- The index counts in ids: it is kept half empty. -/
  table : b'.orderIndex.tableSize / 2
    = if b.orderIndex.tableSize / 2 < b.size + 1 then b.orderIndex.tableSize / 2 * 2
      else b.orderIndex.tableSize / 2
  indexGrowths : b'.idIndexGrowths
    = if b.orderIndex.tableSize / 2 < b.size + 1 then b.idIndexGrowths + 1 else b.idIndexGrowths

/-- **Resting an order** asks both stores for one more than the book held. -/
theorem Linked.insert_demanded (h : b.Linked Q free) (habs : order.id ∉ (entries Q).map Prod.fst)
    (hins : b.insert mem s order = .ok () b') : Demanded b b' := by
  obtain ⟨level, l, slot, pool, index, filled, -, hacquire, hslot, hinsert, -, hpool, rfl⟩ :=
    insert_inv hins
  have hlive : b.pool.live = b.size := by
    rw [h.pool.count, List.length_map]
    show _ = b.orderIndex.count
    rw [h.index.count, length_entries]
  obtain ⟨hcap, hgrowths⟩ := h.pool.acquire_demand hacquire hslot
  rw [hlive] at hcap hgrowths
  -- the end of `insert` only writes slots
  obtain ⟨hcap', hgrowths'⟩ := append_capacity filled.pool ((filled.ladder s).deref level) slot
  rw [hpool] at hcap' hgrowths'
  have hspec := h.index.insert (v := indexValue slot order.side) mem.table habs
  rw [hinsert] at hspec
  obtain ⟨k, hk, -, htable⟩ := h.index.pow
  have heven : b.orderIndex.tableSize = b.orderIndex.tableSize / 2 * 2 := by
    obtain ⟨j, rfl⟩ : ∃ j, k = j + 1 := ⟨k - 1, by omega⟩
    rw [htable, Nat.pow_succ, Nat.mul_div_cancel _ (by omega)]
  have hfull : b.orderIndex.tableSize < (b.orderIndex.count + 1) * 2
      ↔ b.orderIndex.tableSize / 2 < b.size + 1 := by
    show _ ↔ _ < b.orderIndex.count + 1
    omega
  cases hspec with
  | ok index hr hsize hindex =>
    simp only [hfull] at hsize hindex
    refine ⟨?_, ?_, ?_, ?_, hindex⟩
    · show index.count = b.orderIndex.count + 1
      rw [hr.count, h.index.count, List.length_cons]
    · refine Eq.trans ?_ hcap
      rw [OrderBook.appendAt, setLadder_pool, hpool]
      exact hcap'
    · refine Eq.trans ?_ hgrowths
      rw [orderPoolGrowths, OrderBook.appendAt, setLadder_pool, hpool]
      exact hgrowths'
    · show index.tableSize / 2 = _
      rw [hsize]
      split <;> omega

end Inserting

/-! ## Calls -/

/-- The calls' one way to grow a store. -/
inductive Grows (b b' : OrderBook) : Prop
  | quiet (hkept : NoGrowth b b')
  | rests (pre : OrderBook) (hkept : NoGrowth b pre) (hdemand : Demanded pre b')

section Calls

variable {b b₀ b' : OrderBook} {a : PriorityBook} {Q : Layout} {free : List SlotIndex} {mem : Memory}

/-- **Every part of a call** leaves the stores alone, but for the end of an attempt. -/
theorem grows_rule (b₀ : OrderBook) (mem : Memory) :
    CallRule mem (fun b _ => NoGrowth b₀ b) (fun b _ => Grows b₀ b) where
  attempt {x y Q free past e b'} hx hkept hexec := by
    obtain ⟨m, Q', free', hm⟩ := hx.matched
    have hmatched := hkept.trans (noGrowth_rule.matchOpposite hm.run)
    unfold Attempt.execute at hexec
    simp only [hm.run] at hexec
    split at hexec
    · rename_i hrests
      have hqty : 0 < m.incoming.qty := by
        simp only [Bool.and_eq_true, decide_eq_true_eq] at hrests
        exact hrests.1.2
      have hl := hm.leftover hx hqty
      have habs : m.incoming.id ∉ (entries Q').map Prod.fst := by
        rw [hl.follows.mem_ids, hl.fresh]
        simp
      generalize hins : m.book.insert mem x.incoming.side m.incoming = r at hexec
      cases r with
      | ok _ b₁ =>
        obtain ⟨-, rfl⟩ := Result.ok.inj hexec
        exact .rests m.book hmatched (hl.follows.linked.insert_demanded habs hins)
      | throws e b₁ => simp at hexec
      | undefined => simp at hexec
    · obtain ⟨-, rfl⟩ := Result.ok.inj hexec
      exact .quiet hmatched
  cancel _ hkept hcancel := hkept.trans (noGrowth_rule.cancel hcancel)
  read _ hkept _ := hkept
  pop hkept := hkept.trans (noGrowth_of_eq rfl rfl rfl)
  done hkept := .quiet hkept

theorem Follows.submit_grows (h : b.Follows a Q free) {id : OrderId} {owner : ParticipantId}
    {side : Side} {limit : Option Price} {qty : Quantity} {restLeftover : Bool} {e : Executed}
    (hsub : b.submit mem id owner side limit qty restLeftover = .ok e b') : Grows b b' :=
  @CallRule.submit _ _ mem b b' a Q free [] (grows_rule b mem) h (.refl b) _ _ _ _ _ _ _ hsub

/-- **A call grows a store only where its leftover comes to rest.** -/
theorem Follows.grows (h : b.Follows a Q free) {c : Call} {r : Reply} {events : List Event}
    (hcall : b.perform mem c = .ok (r, events) b') : Grows b b' :=
  @CallRule.perform _ _ mem b b' a Q free [] (grows_rule b mem) h (.refl b) _ _ _ hcall

/-- **A modify ends with no more orders than it found.** -/
theorem Follows.modify_size (h : b.Follows a Q free) {id : OrderId} {newPrice : Price}
    {newQty : Quantity} {r : Reply} {events : List Event}
    (hcall : b.perform mem (.modify id newPrice newQty) = .ok (r, events) b') : b'.size ≤ b.size := by
  rcases h.located id with ⟨-, hfind⟩ | ⟨s, o, slot, ho, rfl, hc⟩
  · simp only [OrderBook.perform, modify, hfind] at hcall
    obtain ⟨-, rfl⟩ := Result.ok.inj hcall
    exact Nat.le_refl _
  · obtain ⟨hfind, -, -, -⟩ := h.linked.filed hc
    obtain ⟨b₁, Q₁, free₁, hcancel, hf₁, -⟩ := h.cancel o.id
    have hlive : a.live o.id = true := PriorityBook.live_iff.mpr ⟨s, o, ho, rfl⟩
    have hone : 0 < b.size := by
      rw [h.size]
      exact List.length_pos_of_mem (PriorityBook.mem_orders.mpr ⟨s, ho⟩)
    rw [hlive] at hcancel
    have hgone := size_cancel hcancel
    simp only [OrderBook.perform, modify, hfind, hcancel] at hcall
    by_cases hzero : newQty = 0
    · rw [if_pos hzero] at hcall
      obtain ⟨-, rfl⟩ := Result.ok.inj hcall
      omega
    · rw [if_neg hzero, addLimit] at hcall
      generalize hsub : b₁.submit mem o.id _ _ (some newPrice) newQty true = res at hcall
      cases res with
      | ok e b₂ =>
        obtain ⟨-, rfl⟩ := Result.ok.inj hcall
        -- what the cancel took out is all that the resubmission can bring back
        cases hf₁.submit_grows hsub with
        | quiet hkept =>
          have := hkept.size
          omega
        | rests pre hkept hdemand =>
          have := hkept.size
          have := hdemand.size
          omega
      | throws e b₂ => simp at hcall
      | undefined => simp at hcall

end Calls

/-! ## Runs -/

/-- The largest number of orders resting after any call. -/
def peak (past : List Record) : Nat := (past.map fun r => r.after.size).foldr max 0

/-- Room for `expected_orders`, or for the default number. -/
def provisionOf (cfg : Config) : Nat :=
  if 0 < cfg.expectedOrders.toNat then cfg.expectedOrders.toNat else kDefaultPoolSlots

/-- Both stores have doubled as often as the peak requires: the pool from its provision on, the index
from half of its first table on. -/
structure Provisioned (cfg : Config) (room : Nat) (b : OrderBook) (past : List Record) : Prop where
  size : b.size ≤ peak past
  pool : Doubled (provisionOf cfg) b.pool.capacity (peak past) b.orderPoolGrowths
  index : Doubled room (b.orderIndex.tableSize / 2) (peak past) b.idIndexGrowths

section Runs

variable {scrub : RestingOrder → RestingOrder} {cfg : Config} {b₀ b b' : OrderBook}
  {past : List Record} {r : Record} {room : Nat}

theorem peak_cons (r : Record) (past : List Record) : peak (r :: past) = max (peak past) r.after.size :=
  Nat.max_comm _ _

theorem peak_le {n : Nat} (h : ∀ r ∈ past, r.after.size ≤ n) : peak past ≤ n := by
  induction past with
  | nil => exact Nat.zero_le n
  | cons r past ih =>
    rw [peak_cons]
    exact Nat.max_le.mpr ⟨ih fun r hr => h r (List.mem_cons_of_mem _ hr), h r List.mem_cons_self⟩

/-- **A call keeps the stores as large as the peak requires.** -/
theorem Provisioned.step (h : Provisioned cfg room b past) (hroom : 0 < room) (hgrows : Grows b b')
    (hr : r.after = b') : Provisioned cfg room b' (r :: past) := by
  have hprovision : 0 < provisionOf cfg := by
    unfold provisionOf
    split
    · assumption
    · decide
  cases hgrows with
  | quiet hkept =>
    have hpeak : peak (r :: past) = peak past := by
      rw [peak_cons, hr]
      exact Nat.max_eq_left (hkept.size.trans h.size)
    refine ⟨?_, ?_, ?_⟩
    · rw [hpeak]
      exact hkept.size.trans h.size
    · rw [hpeak, hkept.slots, hkept.poolGrowths]
      exact h.pool
    · rw [hpeak, hkept.table, hkept.indexGrowths]
      exact h.index
  | rests pre hkept hdemand =>
    have hn : pre.size ≤ peak past := hkept.size.trans h.size
    have hpeak : peak (r :: past) = max (peak past) (pre.size + 1) := by
      rw [peak_cons, hr, hdemand.size]
    refine ⟨?_, ?_, ?_⟩
    · rw [hpeak, hdemand.size]
      exact Nat.le_max_right _ _
    · rw [hpeak, hdemand.slots, hdemand.poolGrowths, hkept.slots, hkept.poolGrowths]
      exact h.pool.demand hprovision hn
    · rw [hpeak, hdemand.table, hdemand.indexGrowths, hkept.table, hkept.indexGrowths]
      exact h.index.demand hroom hn

/-- A new index has room for the provision in half of its table. -/
theorem new_provisioned (h : OrderBook.new scrub cfg = some b₀) :
    ∃ room, provisionOf cfg ≤ room ∧ 0 < room ∧ Provisioned cfg room b₀ [] := by
  unfold OrderBook.new at h
  simp only at h
  split at h
  · rename_i index ring hindex hring
    obtain rfl := Option.some.inj h
    have hprovision : 0 < provisionOf cfg := by
      unfold provisionOf
      split
      · assumption
      · decide
    have hpool : (SlotPool.new (provisionOf cfg) scrub : OrderSlots).capacity = provisionOf cfg :=
      if_neg (Nat.pos_iff_ne_zero.mp hprovision)
    obtain ⟨cap, hstop, rfl⟩ := Option.map_eq_some_iff.mp hindex
    have hhalf := doubleWhile_done hstop
    have hroom : provisionOf cfg ≤ cap / 2 := Nat.not_lt.mp (of_decide_eq_false hhalf)
    refine ⟨cap / 2, hroom, by omega, Nat.zero_le _, ?_, doubled_start _⟩
    show Doubled _ (SlotPool.new (provisionOf cfg) scrub : OrderSlots).capacity 0 0
    rw [hpool]
    exact doubled_start _
  · simp at h

/-- **The run lemma of the provision.** -/
theorem Provisioned.run (hstart : Provisioned cfg room b₀ []) (hroom : 0 < room)
    (hnew : OrderBook.new scrub cfg = some b₀) (hrun : Run b₀ past b) :
    Provisioned cfg room b past := by
  obtain ⟨h₀, -⟩ := new_follows hnew
  induction hrun with
  | start => exact hstart
  | @call past b b' mem c reply events hrun hcall ih =>
    obtain ⟨⟨Q, free, hf⟩, -⟩ := hrun.follows h₀
    exact ih.step hroom (hf.grows hcall) rfl

/-- **The order pool doubles as often as the peak requires.** -/
theorem Run.pool_growths (hnew : OrderBook.new scrub cfg = some b₀) (hrun : Run b₀ past b) :
    IsLeast {k | peak past ≤ provisionOf cfg * 2 ^ k} b.orderPoolGrowths := by
  obtain ⟨room, -, hroom, hstart⟩ := new_provisioned hnew
  exact (hstart.run hroom hnew hrun).pool.least

/-- **Within its provision neither store grows.** -/
theorem Run.never_grows (hnew : OrderBook.new scrub cfg = some b₀) (hrun : Run b₀ past b)
    (hwithin : ∀ r ∈ past, r.after.size ≤ provisionOf cfg) :
    b.orderPoolGrowths = 0 ∧ b.idIndexGrowths = 0 := by
  obtain ⟨room, hle, hroom, hstart⟩ := new_provisioned hnew
  have h := hstart.run hroom hnew hrun
  have hpeak := peak_le hwithin
  exact ⟨h.pool.none_within hpeak, h.index.none_within (hpeak.trans hle)⟩

/-- **A modify never grows a store**: the peak was reached before it. -/
theorem Run.modify_never_grows (hnew : OrderBook.new scrub cfg = some b₀)
    (hrun : Run b₀ (r :: past) b) {id : OrderId} {newPrice : Price} {newQty : Quantity}
    (hmodify : r.call = .modify id newPrice newQty) :
    r.after.orderPoolGrowths = r.before.orderPoolGrowths
      ∧ r.after.idIndexGrowths = r.before.idIndexGrowths := by
  obtain ⟨room, -, hroom, hstart⟩ := new_provisioned hnew
  obtain ⟨hafter, hbefore, mem, hcall⟩ := hrun.cons_inv
  obtain ⟨h₀, -⟩ := new_follows hnew
  obtain ⟨⟨Q, free, hf⟩, -⟩ := hbefore.follows h₀
  have h := hstart.run hroom hnew hbefore
  have h' := hstart.run hroom hnew hrun
  rw [← hafter] at h'
  rw [hmodify] at hcall
  have hpeak : peak (r :: past) = peak past := by
    rw [peak_cons]
    exact Nat.max_eq_left ((hf.modify_size hcall).trans h.size)
  have hpool := h'.pool
  have hindex := h'.index
  rw [hpeak] at hpool hindex
  exact ⟨hpool.unique h.pool, hindex.unique h.index⟩

end Runs

end OrderBook

end Lob
