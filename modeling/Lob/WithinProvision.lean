/-
# Lob.WithinProvision — within the provision no call throws.

A book that never has more orders resting than it was provisioned for finds its slots and its table
room in place, so the one allocation left is the node of the fallback map.  Where that succeeds, every
call of every run returns, and any sequence of calls that stays within the provision has a run.
-/
import Lob.Provision

namespace Lob.OrderBook

open Lib.Ranked

/-! ## One insert -/

section Inserting

variable {b : OrderBook} {Q : Layout} {free : List SlotIndex} {s : Side} {order : Order}
  {mem : Memory}

/-- **An insert with room in both stores** returns, when a map node can be had. -/
theorem Linked.insert_returns (h : b.Linked Q free) (hset : Settled Q)
    (habs : order.id ∉ (entries Q).map Prod.fst) (hnode : mem.node = true)
    (hslots : b.size < b.pool.capacity) (hcap : b.pool.capacity ≤ 2 ^ 31)
    (htable : (b.size + 1) * 2 ≤ b.orderIndex.tableSize) :
    ∃ b', b.insert mem s order = .ok () b' := by
  have h₀ := h.placeFirst s order.price
  have hplaced := placeFirst_isPlaced h s order.price
  have hpool₀ := placeFirst_pool b s order.price
  have hindex₀ := placeFirst_orderIndex b s order.price
  unfold OrderBook.insert
  simp only
  generalize b.placeFirst s order.price = b₀ at h₀ hplaced hpool₀ hindex₀ ⊢
  rcases h₀.openLevel hset hplaced s order.price mem.node with
    ⟨l, -, -, hfail, -, -⟩ | ⟨l, hopen, hlinked, -, -, -⟩
  · rw [hnode] at hfail
    simp at hfail
  have hlen := h.pool.length_add
  have hsize : (allCells Q).length = b.size := by
    rw [OrderBook.size, h.index.count, length_entries]
  rw [List.length_map, hsize] at hlen
  rw [hopen]
  simp only [setLadder_pool, hpool₀]
  have hused := h.used
  have hk : SlotPool.kMax = 4294967295 := rfl
  have hacq := h.pool.acquire mem.slots (Or.inr (by omega))
  generalize b.pool.acquire mem.slots = r at hacq ⊢
  cases hacq with
  | full e hfree hfull hwhy =>
    rw [hfree, List.length_nil] at hlen
    omega
  | ok slot pool' hw hprev hnext hframe hlifo hused' hindex hroom =>
    -- a slot below the mark, and the mark below the capacity
    have hslot : ¬ 2 ^ 31 ≤ slot.toNat := by
      have hlt : slot.toNat < pool'.used := hw.lt_used (by simp)
      rw [hused'] at hlt
      split at hlt
      · rename_i hfree
        rw [hfree, List.length_nil] at hlen
        omega
      · omega
    simp only [hslot, if_false]
    have hins := h.index.insert (v := indexValue slot order.side) mem.table habs
    simp only [appendAt_orderIndex, setLadder_orderIndex, hindex₀]
    generalize b.orderIndex.insert mem.table order.id (indexValue slot order.side) = r at hins ⊢
    cases hins with
    | failed e index hcount hfull hwhy =>
      have : b.orderIndex.count = b.size := rfl
      omega
    | ok index hindex' hsize hgrowths => exact ⟨_, rfl⟩

end Inserting

/-! ## One call -/

section Calls

variable {b b' pre : OrderBook} {a : PriorityBook} {Q : Layout} {free : List SlotIndex} {c : Call}
  {order : Order} {mem : Memory}

theorem noGrowth_attemptOf {x : Attempt} (h : b.attemptOf c = some x) : NoGrowth b x.book := by
  have hattempt : ∀ {b₁ : OrderBook} {incoming : Order} {limit : Option Price} {restLeftover : Bool},
      b₁.attempt incoming limit restLeftover = some x → x.book = b₁ := by
    intro b₁ incoming limit restLeftover hx
    unfold attempt at hx
    split at hx
    · simp at hx
    · obtain rfl := Option.some.inj hx
      rfl
  cases c with
  | addLimit id owner side price qty =>
    rw [hattempt h]
    exact .refl b
  | addMarket id owner side qty =>
    rw [hattempt h]
    exact .refl b
  | modify id newPrice newQty =>
    rw [attemptOf] at h
    split at h
    · rename_i entry r b₁ hfind hcancel
      rw [hattempt h]
      exact noGrowth_rule.cancel hcancel
    · simp at h
  | cancel id => simp [attemptOf] at h
  | pop => simp [attemptOf] at h

/-- Neither store has grown when a call enters `insert`. -/
theorem noGrowth_insertPoint (h : b.insertPoint c = some (pre, order)) : NoGrowth b pre := by
  obtain ⟨x, hx, hpoint⟩ := Option.bind_eq_some_iff.mp h
  obtain ⟨m, hm, hpair⟩ := Option.bind_eq_some_iff.mp hpoint
  obtain ⟨-, hpair⟩ := Option.ite_none_right_eq_some.mp hpair
  obtain ⟨rfl, -⟩ := Prod.mk.inj (Option.some.inj hpair)
  exact (noGrowth_attemptOf hx).trans (noGrowth_rule.matchOpposite hm)

theorem Follows.rests_of_insertPoint (h : b.Follows a Q free) {y : PriorityBook.Submission}
    (hy : a.submission b.policy c = some y) (hpoint : b.insertPoint c = some (pre, order)) :
    y.rests = true := by
  rcases h.attemptOf c with ⟨hnone, -⟩ | ⟨x, y', Q₁, free₁, hx, hy', hfollows, -⟩
  · rw [OrderBook.insertPoint, hnone] at hpoint
    simp at hpoint
  · rw [hy] at hy'
    obtain rfl := Option.some.inj hy'
    rw [OrderBook.insertPoint, hx, Option.bind_some] at hpoint
    rcases hfollows.insertPoint with ⟨-, hnone⟩ | ⟨hrests, -⟩
    · rw [hnone] at hpoint
      simp at hpoint
    · exact hrests

/-- **A call that leaves no more orders than both stores have room for** returns, when a map node can be
had. -/
theorem Follows.perform_returns (h : b.Follows a Q free) (hnode : mem.node = true)
    (hcap : b.pool.capacity ≤ 2 ^ 31)
    (hslots : (a.perform b.policy c).2.2.orders.length ≤ b.pool.capacity)
    (htable : (a.perform b.policy c).2.2.orders.length * 2 ≤ b.orderIndex.tableSize) :
    ∃ reply events b', b.perform mem c = .ok (reply, events) b' := by
  have hperf := h.perform mem c
  generalize b.perform mem c = r at hperf
  cases hperf with
  | ok reply events b' Q' free' hf hreply hacts hpolicy hopens hring => exact ⟨_, _, _, rfl⟩
  | throws e b' pre order y Q' free' hy hpoint hpre hthrow =>
    exfalso
    have hkept := noGrowth_insertPoint hpoint
    have habs : order.id ∉ (entries Q').map Prod.fst := by
      rw [hpre.follows.mem_ids, hpre.fresh]
      simp
    -- the order that was to rest is the one order more
    have hsize : (a.perform b.policy c).2.2.orders.length = pre.size + 1 := by
      rw [PriorityBook.perform_of_submission hy, y.execute_eq, if_pos (h.rests_of_insertPoint hy hpoint),
        (PriorityBook.orders_rest_perm ..).length_eq, List.length_cons, hpre.follows.size]
    rw [hsize] at hslots htable
    rw [← hkept.slots] at hcap hslots
    rw [← hkept.table] at htable
    obtain ⟨b₁, hok⟩ := hpre.follows.linked.insert_returns hpre.follows.settled habs hnode
      (Nat.lt_of_succ_le hslots) hcap htable
    rw [hok] at hthrow
    simp at hthrow

end Calls

/-! ## Runs -/

section Runs

variable {scrub : RestingOrder → RestingOrder} {cfg : Config} {b₀ b : OrderBook}
  {past : List Record} {mem : Memory}

/-- The calls, newest first, never leave more orders resting than provisioned for. -/
def Within (cfg : Config) (cs : List Call) : Prop :=
  ∀ cs', cs' <:+ cs →
    (PriorityBook.replay cfg.selfTrade cs').orders.length ≤ provisionOf cfg

/-- **Within the provision every call of a run returns**, when a map node can be had. -/
theorem Run.returns (hnew : OrderBook.new scrub cfg = some b₀) (hrun : Run b₀ past b) {c : Call}
    (hprovision : provisionOf cfg ≤ 2 ^ 31) (hnode : mem.node = true)
    (hwithin : Within cfg (c :: past.map Record.call)) :
    ∃ reply events b', b.perform mem c = .ok (reply, events) b' := by
  obtain ⟨h₀, hpolicy₀, -⟩ := new_follows hnew
  obtain ⟨⟨Q, free, hf⟩, hpolicy⟩ := hrun.follows h₀
  have hsizes : ∀ r ∈ past, r.after.size ≤ provisionOf cfg := by
    intro r hr
    obtain ⟨newer, older, rfl⟩ := List.append_of_mem hr
    obtain ⟨Q', free', hafter⟩ := (hrun.recorded h₀).after
    rw [hafter.size]
    have hsuffix : (r :: older).map Record.call <:+ c :: (newer ++ r :: older).map Record.call := by
      rw [List.map_append]
      exact (List.suffix_append _ _).trans (List.suffix_cons _ _)
    have hle := hwithin _ hsuffix
    rw [← hpolicy₀] at hle
    exact hle
  obtain ⟨room, hroom, hpos, hstart⟩ := new_provisioned hnew
  have hprov := hstart.run hpos hnew hrun
  have hpeak := peak_le hsizes
  have hcap : b.pool.capacity = provisionOf cfg := by
    rw [hprov.pool.capacity_eq, hprov.pool.none_within hpeak, Nat.pow_zero, Nat.mul_one]
  have htable : b.orderIndex.tableSize / 2 = room := by
    rw [hprov.index.capacity_eq, hprov.index.none_within (hpeak.trans hroom), Nat.pow_zero,
      Nat.mul_one]
  have hnow := hwithin _ (List.suffix_refl _)
  rw [← hpolicy₀] at hnow
  refine hf.perform_returns hnode (by omega) ?_ ?_
  · rw [hpolicy, hcap]
    exact hnow
  · rw [hpolicy]
    refine (Nat.mul_le_mul_right 2 (hnow.trans hroom)).trans ?_
    rw [← htable]
    exact Nat.div_mul_le_self _ _

/-- **Any calls within the provision have a run.** -/
theorem exists_run_within (hnew : OrderBook.new scrub cfg = some b₀)
    (hprovision : provisionOf cfg ≤ 2 ^ 31) {cs : List Call} (hwithin : Within cfg cs) :
    ∃ past b, Run b₀ past b ∧ past.map Record.call = cs := by
  induction cs with
  | nil => exact ⟨[], b₀, .start, rfl⟩
  | cons c cs ih =>
    obtain ⟨past, b, hrun, hcalls⟩ :=
      ih fun cs' hcs' => hwithin cs' (hcs'.trans (List.suffix_cons c cs))
    rw [← hcalls] at hwithin
    have hnode : ({} : Memory).node = true := rfl
    obtain ⟨reply, events, b', hcall⟩ := Run.returns hnew hrun hprovision hnode hwithin
    exact ⟨_, b', .call {} c reply events hrun hcall, by rw [List.map_cons, hcalls]⟩

end Runs

end Lob.OrderBook
