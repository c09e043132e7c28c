/-
# Lob.Returns — given memory, a call fails for one reason only.

A call allocates only where its leftover comes to rest: a map node, a slot, room in the id table.  When
all three are granted, the one thing left to fail is the 31-bit slot index, and it fails exactly when
`2^31` orders are resting already.  So any calls that never leave more orders resting than that have a
run, whatever the configuration.
-/
import Lob.Amortised
import Lob.Contracts
import Lob.WithinProvision

namespace Lob

/-! ## As many orders as calls -/

namespace PriorityBook

variable {policy : SelfTradePolicy} {a : PriorityBook}

/-- A call leaves at most one order more. -/
theorem length_perform_le (policy : SelfTradePolicy) (a : PriorityBook) (c : Call) :
    (a.perform policy c).2.2.orders.length ≤ a.orders.length + 1 := by
  have hans := answered policy a c
  generalize a.perform policy c = r at hans
  cases hans with
  | submitted c x hx =>
    have hlen := x.length_le
    have hbook : x.book.orders.length ≤ a.orders.length := by
      rcases (submission_fresh hx).book with hbook | hbook
      · rw [hbook]
      · rw [hbook]
        exact a.length_remove_le _
    show x.execute.2.2.orders.length ≤ _
    omega
  | rejected c qty hx hpop hcancel hlive => exact Nat.le_succ _
  | cancelled id => exact (a.length_remove_le id).trans (Nat.le_succ _)
  | emptied id p hlive => exact (a.length_remove_le id).trans (Nat.le_succ _)
  | popped => exact Nat.le_succ _

theorem length_replay_le (policy : SelfTradePolicy) (cs : List Call) :
    (replay policy cs).orders.length ≤ cs.length := by
  induction cs with
  | nil => exact Nat.le_refl 0
  | cons c cs ih => exact (length_perform_le policy _ c).trans (Nat.succ_le_succ ih)

end PriorityBook

namespace OrderBook

/-! ## One insert -/

section Inserting

variable {b : OrderBook} {Q : Layout} {free : List SlotIndex} {s : Side} {order : Order}

/-- **An insert that is granted its memory** returns while there is an index left, and throws for want of
one when there is none. -/
theorem Linked.insert_granted (h : b.Linked Q free) (hset : Settled Q)
    (habs : order.id ∉ (entries Q).map Prod.fst) :
    (b.size < 2 ^ 31 ∧ ∃ b', b.insert {} s order = .ok () b')
      ∨ (b.size = 2 ^ 31 ∧ ∃ b', b.insert {} s order = .throws .lengthError b') := by
  have h₀ := h.placeFirst s order.price
  have hplaced := placeFirst_isPlaced h s order.price
  have hpool₀ := placeFirst_pool b s order.price
  have hindex₀ := placeFirst_orderIndex b s order.price
  unfold OrderBook.insert
  simp only
  generalize b.placeFirst s order.price = b₀ at h₀ hplaced hpool₀ hindex₀ ⊢
  -- with every allocation granted, only the slot index can be the reason to throw
  rcases h₀.openLevel hset hplaced s order.price true with
    ⟨l, -, -, hfail, -, -⟩ | ⟨l, hopen, hlinked, -, -, -⟩
  · simp at hfail
  have hlen := h.pool.length_add
  have hsize : (allCells Q).length = b.size := by
    rw [OrderBook.size, h.index.count, length_entries]
  rw [List.length_map, hsize] at hlen
  have hused := h.used
  rw [hopen]
  simp only [setLadder_pool, hpool₀]
  have hk : SlotPool.kMax = 4294967295 := rfl
  have hacq := h.pool.acquire true (Or.inr (by omega))
  generalize b.pool.acquire true = r at hacq ⊢
  cases hacq with
  | full e hfree hfull hwhy =>
    rcases hwhy with hbig | hno
    · omega
    · simp at hno
  | ok slot pool' hw hprev hnext hframe hlifo hused' hindex hroom =>
    by_cases hfull : b.size < 2 ^ 31
    · -- a freed slot lies below the mark, a fresh one at it
      have hslot : ¬ 2 ^ 31 ≤ slot.toNat := by
        by_cases hfree : free = []
        · rw [hfree, List.length_nil] at hlen
          have hat := hindex hfree
          omega
        · have hlt : slot.toNat < pool'.used := hw.lt_used (by simp)
          rw [hused', if_neg hfree] at hlt
          omega
      simp only [hslot, if_false]
      have hins := h.index.insert (v := indexValue slot order.side) true habs
      simp only [appendAt_orderIndex, setLadder_orderIndex, hindex₀]
      generalize b.orderIndex.insert true order.id (indexValue slot order.side) = r at hins ⊢
      cases hins with
      | failed e index hcount hwant hwhy =>
        have hcount : b.orderIndex.count = b.size := rfl
        rcases hwhy with hbig | hno
        · omega
        · simp at hno
      | ok index hindex' hsize hgrowths => exact Or.inl ⟨hfull, _, rfl⟩
    · -- every index up to the last one is in use
      have hfree : free = [] := List.length_eq_zero_iff.mp (by omega)
      have hat := hindex hfree
      rw [hfree, List.length_nil] at hlen
      have hslot : 2 ^ 31 ≤ slot.toNat := by omega
      simp only [hslot, if_true]
      exact Or.inr ⟨by omega, _, rfl⟩

end Inserting

/-! ## One call -/

section Calls

variable {b : OrderBook} {a : PriorityBook} {Q : Layout} {free : List SlotIndex} {c : Call}

/-- **A call that is granted its memory** returns exactly when it leaves at most `2^31` orders resting,
and throws a length error otherwise. -/
theorem Follows.perform_granted (h : b.Follows a Q free) :
    ((a.perform b.policy c).2.2.orders.length ≤ 2 ^ 31
        ∧ ∃ reply events b', b.perform {} c = .ok (reply, events) b')
      ∨ (2 ^ 31 < (a.perform b.policy c).2.2.orders.length
        ∧ ∃ b', b.perform {} c = .throws .lengthError b') := by
  have hperf := h.perform {} c
  generalize b.perform {} c = r at hperf
  cases hperf with
  | ok reply events b' Q' free' hf hreply hacts hpolicy hopens hring =>
    refine Or.inl ⟨?_, _, _, _, rfl⟩
    rw [hf.length_orders]
    exact hf.linked.length_le
  | throws e b' pre order y Q' free' hy hpoint hpre hthrow =>
    have habs : order.id ∉ (entries Q').map Prod.fst := by
      rw [hpre.follows.mem_ids, hpre.fresh]
      simp
    have hsize : (a.perform b.policy c).2.2.orders.length = pre.size + 1 := by
      rw [PriorityBook.perform_of_submission hy, y.execute_eq, if_pos (h.rests_of_insertPoint hy hpoint),
        (PriorityBook.orders_rest_perm ..).length_eq, List.length_cons, hpre.follows.size]
    rcases hpre.follows.linked.insert_granted hpre.follows.settled habs with
      ⟨-, b₁, hok⟩ | ⟨hfull, b₁, hthrown⟩
    · rw [hok] at hthrow
      simp at hthrow
    · rw [hthrown] at hthrow
      obtain ⟨rfl, -⟩ := Result.throws.inj hthrow
      exact Or.inr ⟨by omega, _, rfl⟩

end Calls

/-! ## Runs -/

section Runs

variable {scrub : RestingOrder → RestingOrder} {cfg : Config} {b₀ b : OrderBook}
  {past : List Record} {c : Call}

/-- **Given memory, a call of any run** returns exactly when it leaves at most `2^31` orders resting, and
throws a length error otherwise. -/
theorem granted_call_returns_iff (hnew : OrderBook.new scrub cfg = some b₀) (hrun : Run b₀ past b) :
    ((∃ reply events b', b.perform {} c = .ok (reply, events) b')
        ↔ (PriorityBook.replay cfg.selfTrade (c :: past.map Record.call)).orders.length ≤ 2 ^ 31)
      ∧ ((∃ b', b.perform {} c = .throws .lengthError b')
        ↔ 2 ^ 31 < (PriorityBook.replay cfg.selfTrade (c :: past.map Record.call)).orders.length) := by
  obtain ⟨h₀, hpolicy₀, -⟩ := new_follows hnew
  obtain ⟨⟨Q, free, hf⟩, hpolicy⟩ := hrun.follows h₀
  have hgranted := hf.perform_granted (c := c)
  rw [hpolicy] at hgranted
  have hreplay : PriorityBook.replay cfg.selfTrade (c :: past.map Record.call)
      = ((replayOf b₀ past).perform b₀.policy c).2.2 := by
    rw [replayOf, hpolicy₀]
    rfl
  rw [hreplay]
  rcases hgranted with ⟨hle, reply, events, b', hok⟩ | ⟨hlt, b', hthrown⟩
  · refine ⟨⟨fun _ => hle, fun _ => ⟨reply, events, b', hok⟩⟩, ⟨?_, fun hlt => ?_⟩⟩
    · rintro ⟨b₁, hthrown⟩
      rw [hok] at hthrown
      simp at hthrown
    · exact absurd hle (Nat.not_le.mpr hlt)
  · refine ⟨⟨?_, fun hle => ?_⟩, ⟨fun _ => hlt, fun _ => ⟨b', hthrown⟩⟩⟩
    · rintro ⟨reply, events, b₁, hok⟩
      rw [hthrown] at hok
      simp at hok
    · exact absurd hle (Nat.not_le.mpr hlt)

/-- A bid is taken by a larger ask, which comes to rest. -/
theorem granted_call_returns_iff_resting : ∃ b₀ past b, OrderBook.new id {} = some b₀ ∧ Run b₀ past b
    ∧ past.map Record.call = [.addLimit 1 7 .buy 100 5]
    ∧ ((∃ reply events b', b.perform {} (.addLimit 2 8 .sell 100 9) = .ok (reply, events) b')
      ↔ (PriorityBook.replay .cancelResting (.addLimit 2 8 .sell 100 9 :: past.map Record.call)).orders.length
        ≤ 2 ^ 31) := by
  obtain ⟨b₀, past, b, -, hnew, hrun, hcalls, -⟩ := exists_run id {} {} [.addLimit 1 7 .buy 100 5]
    (fun _ => some) (by decide +kernel)
  exact ⟨b₀, past, b, hnew, hrun, hcalls, (granted_call_returns_iff hnew hrun).1⟩

/-- **The next call of a short run** that is granted its memory returns. -/
theorem Run.perform_granted {Q₀ : Layout} {free₀ : List SlotIndex} (h₀ : b₀.Follows {} Q₀ free₀)
    (hrun : Run b₀ past b) (hroom : past.length < 2 ^ 31) (c : Call) :
    ∃ reply events b', b.perform {} c = .ok (reply, events) b' := by
  obtain ⟨⟨Q, free, hf⟩, -⟩ := hrun.follows h₀
  have hlen : (replayOf b₀ past).orders.length ≤ past.length := by
    rw [← List.length_map (f := Record.call)]
    exact PriorityBook.length_replay_le _ _
  have hone := PriorityBook.length_perform_le b.policy (replayOf b₀ past) c
  rcases hf.perform_granted (c := c) with ⟨-, hok⟩ | ⟨hmany, -⟩
  · exact hok
  · omega

/-- **Calls that never leave more than `2^31` orders resting** run through on every book. -/
theorem exec_granted (hnew : OrderBook.new scrub cfg = some b₀) {cs : List Call}
    (hwithin : ∀ cs', cs' <:+ cs → (PriorityBook.replay cfg.selfTrade cs').orders.length ≤ 2 ^ 31) :
    ∃ past b, exec {} b₀ cs = some (past, b) ∧ Run b₀ past b ∧ past.map Record.call = cs := by
  obtain ⟨h₀, hpolicy₀, -⟩ := new_follows hnew
  induction cs with
  | nil => exact ⟨[], b₀, rfl, .start, rfl⟩
  | cons c cs ih =>
    obtain ⟨past, b, hexec, hrun, hcalls⟩ := ih fun cs' hcs' => hwithin cs' (hcs'.trans (List.suffix_cons c cs))
    obtain ⟨⟨Q, free, hf⟩, hpolicy⟩ := hrun.follows h₀
    have hnow := hwithin _ (List.suffix_refl _)
    have hreplay : PriorityBook.replay cfg.selfTrade (c :: cs)
        = ((replayOf b₀ past).perform b.policy c).2.2 := by
      rw [replayOf, hpolicy, hpolicy₀, hcalls]
      rfl
    rw [hreplay] at hnow
    rcases hf.perform_granted (c := c) with ⟨-, reply, events, b', hok⟩ | ⟨hlt, -⟩
    · refine ⟨⟨b, c, reply, events, b'⟩ :: past, b', ?_, .call {} c reply events hrun hok, ?_⟩
      · rw [exec, hexec]
        simp only [hok]
      · rw [List.map_cons, hcalls]
    · omega

end Runs

end OrderBook

end Lob
