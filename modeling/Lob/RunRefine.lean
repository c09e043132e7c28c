/-
# Lob.RunRefine — runs of the book are runs of the priority book.

`replay` makes the calls of a history on an empty priority book.  A book reached by a run follows the
replay of its history, and each call of the history was answered as the replay answers it
(`Run.recorded`).  The position of the call that last rested an order stamps the replay, so it is in
order and sound, and with it no assertion of `check_invariants` can fire after any call.
-/
import Lob.QueryRefine

namespace Lob

open Lib.Ranked

/-! ## Replaying a history -/

namespace PriorityBook

/-- The book after some calls, newest first. -/
def replay (policy : SelfTradePolicy) : List Call → PriorityBook
  | [] => {}
  | c :: cs => ((replay policy cs).perform policy c).2.2

end PriorityBook

namespace OrderBook

/-- The id a call put on the book, read off the call and its answer. -/
def Record.restedId (r : Record) : Option OrderId :=
  match r.reply with
  | .report rep => if rep.rested then r.call.limitId else none
  | _ => none

/-- The position in the history of the call that last put an order on the book. -/
def restTime : List Record → OrderId → Nat
  | [], _ => 0
  | r :: past, id => if r.restedId = some id then past.length + 1 else restTime past id

theorem restTime_le (past : List Record) (id : OrderId) : restTime past id ≤ past.length := by
  induction past with
  | nil => exact Nat.le_refl 0
  | cons r past ih =>
    unfold restTime
    split
    · exact Nat.le_refl _
    · exact Nat.le_succ_of_le ih

section New

variable {scrub : RestingOrder → RestingOrder} {cfg : Config} {b₀ : OrderBook}

/-- **A book that was constructed** is empty, whatever its configuration. -/
theorem new_follows (h : OrderBook.new scrub cfg = some b₀) :
    b₀.Follows {} (fun _ => []) [] ∧ b₀.policy = cfg.selfTrade
      ∧ TradeRing.new cfg.tradeCapacity.toNat = some b₀.tradeOut
      ∧ ∀ s, (b₀.ladder s).outsideOpens = 0 := by
  unfold OrderBook.new at h
  simp only at h
  split at h
  · rename_i index ring hindex hring
    obtain rfl := Option.some.inj h
    refine ⟨⟨⟨fun s => ?_, by simp, SlotPool.wf_new _ _, IdIndex.represents_of_new hindex,
      Nat.zero_le _, fun s t => ?_, fun _ _ => rfl⟩, by simp [Settled], by simp [Live], ?_, rfl⟩, rfl,
      hring, fun s => ?_⟩
    · cases s <;> simp only [OrderBook.ladder] <;> cases cfg.priceBase with
      | none => exact PriceLadder.represents_new _
      | some base => exact (PriceLadder.represents_new _).place base
    · cases s <;> cases t <;> simp only [OrderBook.ladder] <;> cases cfg.priceBase <;> rfl
    · intro s
      cases s <;> rfl
    · cases s <;> simp only [OrderBook.ladder] <;> cases cfg.priceBase <;> rfl
  · simp at h

/-- **A book can be constructed** where its id index and its ring have a power of two to grow to. -/
theorem new_returns (scrub : RestingOrder → RestingOrder) (horders : cfg.expectedOrders.toNat ≤ 2 ^ 62)
    (htrades : cfg.tradeCapacity.toNat ≤ 2 ^ 63) : ∃ b₀, OrderBook.new scrub cfg = some b₀ := by
  have hslots : (if 0 < cfg.expectedOrders.toNat then cfg.expectedOrders.toNat else kDefaultPoolSlots)
      ≤ 2 ^ 62 := by
    split
    · exact horders
    · decide
  obtain ⟨index, hindex, -⟩ := IdIndex.new_spec (υ := SlotIndex) hslots
  obtain ⟨ring, hring, -⟩ := TradeRing.new_spec htrades
  unfold OrderBook.new
  simp only [hindex, hring]
  exact ⟨_, rfl⟩

end New

/-! ## Histories -/

section Runs

variable {b₀ b : OrderBook} {past newer older : List Record} {r : Record}

theorem Run.cons_inv (h : Run b₀ (r :: past) b) :
    r.after = b ∧ Run b₀ past r.before
      ∧ ∃ mem, r.before.perform mem r.call = .ok (r.reply, r.events) r.after := by
  cases h with
  | call mem c reply events hrun hcall => exact ⟨rfl, hrun, mem, hcall⟩

/-- The older part of a history is the history of an earlier book. -/
theorem Run.earlier (h : Run b₀ (newer ++ older) b) : ∃ b', Run b₀ older b' := by
  induction newer generalizing b with
  | nil => exact ⟨b, h⟩
  | cons r newer ih => exact ih h.cons_inv.2.1

/-- What a call of a history did, on a book that followed `a`. -/
structure Recorded (policy : SelfTradePolicy) (a : PriorityBook) (r : Record) : Prop where
  before : ∃ Q free, r.before.Follows a Q free
  samePolicy : r.before.policy = policy
  after : ∃ Q free, r.after.Follows (a.perform policy r.call).2.2 Q free
  reply : r.call ≠ .pop → r.reply = (a.perform policy r.call).1
  popped : r.call = .pop → ∃ t, r.reply = .popped t
  acts : r.events.map Event.act = (a.perform policy r.call).2.1
  opens : Opens r.before r.after (r.before.insertPoint r.call)
  ring : ∀ capacity popped emitted, r.before.tradeOut.Accounts capacity popped emitted →
    r.after.tradeOut.Accounts capacity (popped ++ r.reply.handed) (emitted ++ Matching.emissions r.events)

/-- The replay of a history. -/
abbrev replayOf (b₀ : OrderBook) (past : List Record) : PriorityBook :=
  PriorityBook.replay b₀.policy (past.map Record.call)

variable {Q₀ : Layout} {free₀ : List SlotIndex}

/-- **The step lemma of a run**: a call of a book that follows `a`. -/
theorem recorded_of_perform {a : PriorityBook} {Q : Layout} {free : List SlotIndex}
    (h : r.before.Follows a Q free) {mem : Memory}
    (hcall : r.before.perform mem r.call = .ok (r.reply, r.events) r.after) :
    Recorded r.before.policy a r ∧ r.after.policy = r.before.policy := by
  have hperf := h.perform mem r.call
  have hpopped : r.call = .pop → ∃ t, r.reply = .popped t := by
    intro hpop
    rw [hpop] at hcall
    exact ⟨_, (Prod.mk.inj (Result.ok.inj hcall).1).1.symm⟩
  rw [hcall] at hperf
  cases hperf with
  | ok _ _ _ Q' free' hf hreply hacts hpolicy hopens hring =>
    exact ⟨⟨⟨Q, free, h⟩, rfl, ⟨Q', free', hf⟩, hreply, hpopped, hacts, hopens, hring⟩, hpolicy⟩

/-- **The run lemma**: a book reached by a run follows the replay of its history. -/
theorem Run.follows (h₀ : b₀.Follows {} Q₀ free₀) (h : Run b₀ past b) :
    (∃ Q free, b.Follows (replayOf b₀ past) Q free) ∧ b.policy = b₀.policy := by
  induction h with
  | start => exact ⟨⟨Q₀, free₀, h₀⟩, rfl⟩
  | call mem c reply events hrun hcall ih =>
    obtain ⟨⟨Q, free, hf⟩, hpolicy⟩ := ih
    obtain ⟨hrec, hpolicy'⟩ := recorded_of_perform
      (r := ⟨_, c, reply, events, _⟩) hf hcall
    refine ⟨?_, hpolicy'.trans hpolicy⟩
    have hafter := hrec.after
    rw [hpolicy] at hafter
    exact hafter

/-- **Every call of a history** was answered as the replay answers it. -/
theorem Run.recorded (h₀ : b₀.Follows {} Q₀ free₀) (h : Run b₀ (newer ++ r :: older) b) :
    Recorded b₀.policy (replayOf b₀ older) r := by
  obtain ⟨b', hrun⟩ := h.earlier
  obtain ⟨-, hrun', mem, hcall⟩ := hrun.cons_inv
  obtain ⟨⟨Q, free, hf⟩, hpolicy⟩ := hrun'.follows h₀
  have hrec := (recorded_of_perform hf hcall).1
  rwa [hpolicy] at hrec

/-- The newest call of a history. -/
theorem Run.recorded_head (h₀ : b₀.Follows {} Q₀ free₀) (h : Run b₀ (r :: past) b) :
    Recorded b₀.policy (replayOf b₀ past) r := by
  have hsplit : Run b₀ ([] ++ r :: past) b := h
  exact hsplit.recorded h₀

/-! ## What a call told its client -/

/-- What the matching loop of a call did. -/
def Record.acts (r : Record) : List Act := r.events.map Event.act

/-- **The inversion of a record**: the report and the acts of a submission, or an answer that came
with no act. -/
inductive Told (policy : SelfTradePolicy) (a : PriorityBook) (r : Record) : Prop
  | submitted (x : PriorityBook.Submission) (hx : a.submission policy r.call = some x)
      (hreply : r.reply = .report x.execute.1) (hacts : r.acts = x.walk.2.acts)
      (hafter : (a.perform policy r.call).2.2 = x.execute.2.2)
  | rejected (qty : Quantity) (hx : a.submission policy r.call = none)
      (hreply : r.reply = .report { accepted := false, remaining := qty }) (hacts : r.acts = [])
      (hafter : (a.perform policy r.call).2.2 = a)
  | cancelled (id : OrderId) (hx : a.submission policy r.call = none) (hcall : r.call = .cancel id)
      (hreply : r.reply = .cancelled (a.live id)) (hacts : r.acts = [])
      (hafter : (a.perform policy r.call).2.2 = a.remove id)
  | emptied (id : OrderId) (p : Price) (hx : a.submission policy r.call = none)
      (hcall : r.call = .modify id p 0) (hlive : a.live id = true) (hreply : r.reply = .report {})
      (hacts : r.acts = []) (hafter : (a.perform policy r.call).2.2 = a.remove id)
  | popped (t : Option Trade) (hx : a.submission policy r.call = none) (hcall : r.call = .pop)
      (hreply : r.reply = .popped t) (hacts : r.acts = [])
      (hafter : (a.perform policy r.call).2.2 = a)

theorem Recorded.told {policy : SelfTradePolicy} {a : PriorityBook} (h : Recorded policy a r) :
    Told policy a r := by
  have hreply := h.reply
  have hacts : r.acts = (a.perform policy r.call).2.1 := h.acts
  have hans := PriorityBook.answered policy a r.call
  generalize hp : a.perform policy r.call = p at hreply hacts hans
  generalize hc : r.call = c at hreply hans
  cases hans with
  | submitted c x hx =>
    have hne : c ≠ .pop := by
      rintro rfl
      simp [PriorityBook.submission] at hx
    refine .submitted x (hc ▸ hx) (hreply hne) ?_ (by rw [hp])
    rw [hacts, x.execute_eq]
  | rejected c qty hx hpop hcancel hlive =>
    exact .rejected qty (hc ▸ hx) (hreply hpop) hacts (by rw [hp])
  | cancelled id => exact .cancelled id (by rw [hc]; rfl) hc (hreply (by simp)) hacts (by rw [hp])
  | emptied id p hlive =>
    have hnone : a.submission policy (.modify id p 0) = none := by
      unfold PriorityBook.submission
      simp only [if_true]
      split <;> rfl
    exact .emptied id p (hc ▸ hnone) hc hlive (hreply (by simp)) hacts (by rw [hp])
  | popped =>
    obtain ⟨t, ht⟩ := h.popped hc
    exact .popped t (by rw [hc]; rfl) hc ht hacts (by rw [hp])

/-- A call that submits nothing does nothing in the loop. -/
theorem Recorded.acts_of_none {policy : SelfTradePolicy} {a : PriorityBook} (h : Recorded policy a r)
    (hx : a.submission policy r.call = none) : r.acts = [] := by
  cases h.told with
  | submitted y hy _ _ _ =>
    rw [hx] at hy
    simp at hy
  | rejected _ _ _ hacts _ => exact hacts
  | cancelled _ _ _ _ hacts _ => exact hacts
  | emptied _ _ _ _ _ _ hacts _ => exact hacts
  | popped _ _ _ _ hacts _ => exact hacts

/-- The loop of a call is the walk of its submission. -/
theorem Recorded.acts_of_some {policy : SelfTradePolicy} {a : PriorityBook} {x : PriorityBook.Submission}
    (h : Recorded policy a r) (hx : a.submission policy r.call = some x) : r.acts = x.walk.2.acts := by
  have hacts := h.acts
  rw [PriorityBook.perform_of_submission hx, x.execute_eq] at hacts
  exact hacts

/-! ## The order of a history -/

/-- A rejected or bare report never says `rested`. -/
theorem sweep_rested {k : Taker} {far : List RestingOrder} {p : Progress} (h : p.rep.rested = false) :
    (k.sweep far p).2.rep.rested = false := by
  refine (sweep_induction (P := fun _ p => p.rep.rested = false) h
    fun far₁ s₁ far₂ s₂ hP hturn => ?_).1
  obtain ⟨o, rest, rfl, -, -, -, ht⟩ := turn_cases hturn
  cases ht with
  | halt _ _ => exact hP
  | cancel _ _ => exact hP
  | fill _ _ => exact hP
  | partFill _ _ => exact hP

/-- The report of a submission says `rested` exactly when its leftover rests. -/
theorem execute_rested (x : PriorityBook.Submission) : x.execute.1.rested = x.rests := by
  have hwalk : x.walk.2.rep.rested = false := sweep_rested rfl
  rw [x.execute_eq]
  show (x.rests || x.walk.2.rep.rested) = x.rests
  rw [hwalk, Bool.or_false]

/-- **The id a record shows as rested** is the one the replay rests. -/
theorem Recorded.restedId {policy : SelfTradePolicy} {a : PriorityBook} (h : Recorded policy a r) :
    r.restedId = a.restedId policy r.call := by
  unfold Record.restedId PriorityBook.restedId
  cases h.told with
  | submitted x hx hreply hacts hafter =>
    rw [hreply, hx, Option.bind_some]
    simp only [execute_rested, (PriorityBook.submission_fresh hx).limitId]
    by_cases hrests : x.rests = true
    · rw [if_pos hrests, if_pos hrests, if_pos (x.rests_iff.mp hrests).1]
    · rw [if_neg hrests, if_neg hrests]
  | rejected qty hx hreply hacts hafter =>
    rw [hreply, hx]
    rfl
  | cancelled id hx hcall hreply hacts hafter =>
    rw [hreply, hx]
    rfl
  | emptied id p hx hcall hlive hreply hacts hafter =>
    rw [hreply, hx]
    rfl
  | popped t hx hcall hreply hacts hafter =>
    rw [hreply, hx]
    rfl

/-- **A history is in order of its rest times**, and sound. -/
theorem Run.inOrder (h₀ : b₀.Follows {} Q₀ free₀) (h : Run b₀ past b) :
    (replayOf b₀ past).InOrder (restTime past) ∧ (replayOf b₀ past).Sound := by
  induction h with
  | start => exact ⟨PriorityBook.inOrder_empty _, PriorityBook.sound_empty⟩
  | @call past b b' mem c reply events hrun hcall ih =>
    have hrec : Recorded b₀.policy (replayOf b₀ past) ⟨b, c, reply, events, b'⟩ :=
      (Run.call mem c reply events hrun hcall).recorded_head h₀
    have hid : Record.restedId ⟨b, c, reply, events, b'⟩
        = (replayOf b₀ past).restedId b₀.policy c := hrec.restedId
    refine ⟨ih.1.perform b₀.policy c ?_ ?_, ih.2.perform ih.1 b₀.policy c⟩
    · intro s o _ hne
      rw [restTime, hid, if_neg hne]
    · intro s o _ id hsome hne
      rw [restTime, hid, if_pos hsome]
      exact Nat.lt_succ_of_le (restTime_le past o.id)

/-! ## Coherence -/

/-- Everything `check_invariants` asserts; beyond it, that the index, the queues and the free list
partition exactly, and that no level's total has wrapped. -/
structure Coherent (b : OrderBook) : Prop where
  checked : b.checkInvariants = true
  partition : ∃ bids asks free, b.slotsOn .buy = some bids ∧ b.slotsOn .sell = some asks
    ∧ walk b.pool b.pool.used b.pool.freeHead = some free
    ∧ (Lib.Probing.content b.orderIndex.tableSize b.orderIndex.cells).Perm
      (bids.map (b.entryAt .buy) ++ asks.map (b.entryAt .sell))
    ∧ (bids ++ asks ++ free).Perm ((List.range b.pool.used).map UInt32.ofNat)
  totals : ∀ s, ∀ e ∈ (b.ladder s).forEachLevel, ∃ slots, b.slotsAt e.2 = some slots
    ∧ e.2.totalQty.toNat = (slots.map fun i => (b.pool.slots i).value.qty.toNat).sum

/-- **A book that follows a sound one is coherent.** -/
theorem Follows.coherent {a : PriorityBook} {Q : Layout} {free : List SlotIndex}
    (h : b.Follows a Q free) (hsound : a.Sound) : b.Coherent where
  checked := h.checkInvariants hsound
  partition := by
    have hwf := h.linked.pool
    have hfree : walk b.pool b.pool.used b.pool.freeHead = some free := by
      rw [hwf.head]
      refine walk_eq b.pool free _ hwf.chain
        (fun i hi => hwf.ne_kNoSlot (List.mem_append_right _ hi)) ?_
      have := hwf.length_add
      omega
    obtain ⟨bids, asks, hbids, hasks, hindex⟩ := h.index_entries
    refine ⟨bids, asks, free, hbids, hasks, hfree, hindex, ?_⟩
    have hpart := hwf.part
    rw [h.slotsOn] at hbids hasks
    obtain rfl := Option.some.inj hbids
    obtain rfl := Option.some.inj hasks
    rwa [allCells, List.map_append] at hpart
  totals s e he := by
    rw [h.linked.forEachLevel (h.settled s)] at he
    obtain ⟨e', he', rfl⟩ := List.mem_map.mp he
    refine ⟨_, h.linked.slotsAt he', ?_⟩
    have hvalues := congrArg (List.map fun o : RestingOrder => o.qty.toNat)
      (h.linked.slot_values he')
    rw [List.map_map] at hvalues
    rw [h.linked.level_total he', volume, ← hvalues]
    rfl

/-- **No assertion of `check_invariants` can fire after any call of any run.** -/
theorem run_coherent {scrub : RestingOrder → RestingOrder} {cfg : Config}
    (hnew : OrderBook.new scrub cfg = some b₀) (hrun : Run b₀ past b) : b.Coherent := by
  have h₀ := (new_follows hnew).1
  obtain ⟨⟨Q, free, hf⟩, -⟩ := hrun.follows h₀
  exact hf.coherent (hrun.inOrder h₀).2

end Runs

/-! ## Runs on given calls -/

/-- Make some calls, newest first; nothing when one of them does not return. -/
def exec (mem : Memory) (b₀ : OrderBook) : List Call → Option (List Record × OrderBook)
  | [] => some ([], b₀)
  | c :: cs =>
    match exec mem b₀ cs with
    | none => none
    | some (past, b) =>
      match b.perform mem c with
      | .ok (r, events) b' => some (⟨b, c, r, events, b'⟩ :: past, b')
      | _ => none

theorem exec_run {mem : Memory} {b₀ b : OrderBook} {cs : List Call} {past : List Record}
    (h : exec mem b₀ cs = some (past, b)) : Run b₀ past b ∧ past.map Record.call = cs := by
  induction cs generalizing past b with
  | nil =>
    obtain ⟨rfl, rfl⟩ := Prod.mk.inj (Option.some.inj h)
    exact ⟨.start, rfl⟩
  | cons c cs ih =>
    unfold exec at h
    split at h
    · simp at h
    · rename_i past₁ b₁ hexec
      split at h
      · rename_i r events b₂ hcall
        obtain ⟨rfl, rfl⟩ := Prod.mk.inj (Option.some.inj h)
        obtain ⟨hrun, hcalls⟩ := ih hexec
        exact ⟨.call mem c r events hrun hcall, by rw [List.map_cons, hcalls]⟩
      · simp at h

/-- The run of some calls on a new book, when all of them return and `f` has an answer about it. -/
theorem exists_run {α : Type} (scrub : RestingOrder → RestingOrder) (cfg : Config) (mem : Memory)
    (cs : List Call) (f : List Record → OrderBook → Option α)
    (h : (((OrderBook.new scrub cfg).bind fun b₀ => exec mem b₀ cs).bind fun p => f p.1 p.2).isSome
      = true) :
    ∃ b₀ past b x, OrderBook.new scrub cfg = some b₀ ∧ Run b₀ past b ∧ past.map Record.call = cs
      ∧ f past b = some x := by
  obtain ⟨x, hx⟩ := Option.isSome_iff_exists.mp h
  obtain ⟨⟨past, b⟩, hpast, hfx⟩ := Option.bind_eq_some_iff.mp hx
  obtain ⟨b₀, hnew, hexec⟩ := Option.bind_eq_some_iff.mp hpast
  obtain ⟨hrun, hcalls⟩ := exec_run hexec
  exact ⟨b₀, past, b, x, hnew, hrun, hcalls, hfx⟩

/-- A bid is joined, partly filled and cancelled. -/
theorem run_coherent_after_trade : ∃ b₀ past b, OrderBook.new id {} = some b₀ ∧ Run b₀ past b
    ∧ past.map Record.call = [.cancel 1, .addMarket 3 9 .sell 4, .addLimit 2 8 .buy 100 5,
      .addLimit 1 7 .buy 100 5] ∧ b.Coherent := by
  obtain ⟨b₀, past, b, -, hnew, hrun, hcalls, -⟩ := exists_run id {} {} [.cancel 1,
    .addMarket 3 9 .sell 4, .addLimit 2 8 .buy 100 5, .addLimit 1 7 .buy 100 5]
    (fun _ => some) (by decide +kernel)
  exact ⟨b₀, past, b, hnew, hrun, hcalls, run_coherent hnew hrun⟩

end OrderBook

end Lob
