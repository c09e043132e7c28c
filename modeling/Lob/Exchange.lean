/-
# Lob.Exchange — the whole engine as one abstract machine.

A priority book and a bounded queue of trades, with no data structure, no configuration and no memory:
a call walks the book and prints what it traded into the queue, a pop takes the oldest trade.  The engine
realizes this machine, pops and drop counter included.  So everything a client can see is a function of
the policy, the ring's size and the calls alone.
-/
import Lob.Lib.BoundedQueue
import Lob.RingRoom

namespace Lob

open Lib Lib.Machine

/-! ## The ring is a bounded queue -/

namespace TradeRing

variable {r : TradeRing} {capacity : Nat} {q : BoundedQueue Trade capacity}

/-- A ring that holds what a bounded queue holds; its counter of lost trades has 64 bits. -/
structure Shows (r : TradeRing) (q : BoundedQueue Trade capacity) : Prop where
  wf : r.Wf
  size : r.bufferSize = capacity
  held : r.contents = q.held
  lost : r.dropCount = UInt64.ofNat q.lost

theorem Shows.length (h : r.Shows q) : q.held.length = r.size := by
  rw [← h.held, length_contents]

theorem Shows.push (h : r.Shows q) (t : Trade) : (r.push t).2.Shows (q.push t) := by
  have hbuffer := (push_bufferSize r t).trans h.size
  by_cases hfull : r.full = true
  · have hlen : q.held.length = capacity := by
      rw [h.length, ← h.size]
      simpa [full] using hfull
    obtain ⟨hheld, hlost⟩ := BoundedQueue.push_of_full (x := t) hlen
    refine ⟨h.wf.push t, hbuffer, ?_, ?_⟩
    · rw [hheld, push_of_full hfull]
      exact h.held
    · rw [hlost, push_of_full hfull, UInt64.ofNat_add, ← h.lost]
      rfl
  · have hfull' : r.full = false := by simpa using hfull
    have hlen : q.held.length < capacity := by
      have hle := h.wf.size_le
      have hne : r.size ≠ r.bufferSize := by simpa [full] using hfull
      rw [h.length, ← h.size]
      omega
    obtain ⟨hheld, hlost⟩ := BoundedQueue.push_of_room (x := t) hlen
    refine ⟨h.wf.push t, hbuffer, ?_, ?_⟩
    · rw [hheld, h.wf.push_contents hfull', h.held]
    · rw [hlost, TradeRing.push, if_neg hfull]
      exact h.lost

theorem Shows.pop (h : r.Shows q) : r.pop.1 = q.pop.1 ∧ r.pop.2.Shows q.pop.2 := by
  have hwf := h.wf.pop
  by_cases he : r.empty = true
  · have hnil : q.held = [] := by
      rw [← List.length_eq_zero_iff, h.length]
      exact size_eq_zero.mpr he
    rw [pop_of_empty he] at hwf ⊢
    refine ⟨?_, hwf, h.size, ?_, h.lost⟩
    · show none = q.held.head?
      rw [hnil]
      rfl
    · show r.contents = q.held.tail
      rw [h.held, hnil]
      rfl
  · obtain ⟨t, r', hpop, hcont, -, hbuf, -, hdrop⟩ := pop_spec (by simpa using he)
    rw [hpop] at hwf ⊢
    rw [h.held] at hcont
    refine ⟨?_, hwf, hbuf.trans h.size, ?_, hdrop.trans h.lost⟩
    · show some t = q.held.head?
      rw [hcont]
      rfl
    · show r'.contents = q.held.tail
      rw [hcont]
      rfl

/-- Every ring has some account of itself. -/
theorem Wf.accounts (h : r.Wf) : ∃ emitted, r.Accounts r.bufferSize [] emitted := by
  refine ⟨List.replicate r.dropCount.toNat (default, r.bufferSize)
    ++ r.contents.map fun t => (t, r.bufferSize + 1), h, rfl, ?_, ?_⟩
  · simp [List.filter_map, Function.comp_def]
  · simp [List.filter_map, Function.comp_def]

/-- Rings with one account hold the same. -/
theorem Shows.of_accounts {r' : TradeRing} {emitted : List (Trade × Nat)} (h : r.Shows q)
    (hacc : r.Accounts r.bufferSize [] emitted) (hacc' : r'.Accounts r.bufferSize [] emitted) :
    r'.Shows q := by
  refine ⟨hacc'.wf, hacc'.size.trans h.size, ?_, ?_⟩
  · have hkept := hacc'.kept.trans hacc.kept.symm
    rw [List.nil_append, List.nil_append] at hkept
    rw [hkept, h.held]
  · rw [hacc'.dropped, ← hacc.dropped, h.lost]

theorem shows_new {wanted : Nat} (h : new wanted = some r) :
    r.Shows (BoundedQueue.empty Trade r.bufferSize) := by
  obtain ⟨hacc, -⟩ := accounts_of_new h
  have hempty : r.contents = [] := by
    rw [← List.length_eq_zero_iff, length_contents]
    exact size_eq_zero.mpr (empty_of_new h)
  exact ⟨hacc.wf, rfl, hempty, hacc.dropped⟩

end TradeRing

/-! ## What the loop prints -/

namespace Matching

variable {limit : Option Price} {m m' : Matching}

/-- The trades printed so far. -/
def printed (m : Matching) : List Trade := fillsOf (m.events.map Event.act)

theorem printed_record (m : Matching) (act : Act) :
    fillsOf ((m.record act).map Event.act) = m.printed ++ fillsOf [act] := by
  rw [record, List.map_append, fillsOf_append]
  rfl

theorem drop_tradeOut {b b' : OrderBook} {s : Side} {level : LevelRef} {slot : SlotIndex}
    (h : b.drop s level slot = some b') : b'.tradeOut = b.tradeOut := by
  unfold OrderBook.drop at h
  split at h
  · simp at h
  · obtain rfl := Option.some.inj h
    exact OrderBook.setLadder_tradeOut ..

theorem fill_tradeOut (m : Matching) (p : Price) (level : LevelRef) (slot : SlotIndex) :
    ∃ t, (m.fill p level slot).events = m.record (.fill t)
      ∧ (m.fill p level slot).book.tradeOut = (m.book.tradeOut.push t).2 := by
  refine ⟨_, rfl, ?_⟩
  rw [fill, OrderBook.setLadder_tradeOut]

/-- What one step does to the ring and to the record of it. -/
inductive Prints (m m' : Matching) : Prop
  | nothing (hprinted : m'.printed = m.printed) (hring : m'.book.tradeOut = m.book.tradeOut)
  | one (t : Trade) (hprinted : m'.printed = m.printed ++ [t])
      (hring : m'.book.tradeOut = (m.book.tradeOut.push t).2)

theorem visit_prints {p : Price} {level : LevelRef} {slot : SlotIndex}
    (h : m.visit p level slot = some m') : Prints m m' := by
  obtain ⟨t, hevents, hring⟩ := m.fill_tradeOut p level slot
  have hprinted : (m.fill p level slot).printed = m.printed ++ [t] := by
    rw [printed, hevents, printed_record]
    rfl
  unfold visit at h
  simp only at h
  split at h
  · split at h
    · obtain rfl := Option.some.inj h
      exact .nothing rfl rfl
    · obtain ⟨b, hdrop, rfl⟩ := Option.map_eq_some_iff.mp h
      refine .nothing ?_ (drop_tradeOut hdrop)
      show fillsOf ((m.record _).map Event.act) = _
      rw [printed_record, fillsOf_stpCancel, List.append_nil]
  · split at h
    · obtain ⟨b, hdrop, rfl⟩ := Option.map_eq_some_iff.mp h
      exact .one t hprinted ((drop_tradeOut hdrop).trans hring)
    · obtain rfl := Option.some.inj h
      exact .one t hprinted hring

/-- **A step prints at most one trade**, and pushes what it prints. -/
theorem step_prints (h : m.step limit = some m') : Prints m m' := by
  have quiet : ∀ ctl, some { m with ctl := ctl } = some m' → Prints m m' := by
    intro ctl heq
    obtain rfl := Option.some.inj heq
    exact .nothing rfl rfl
  unfold Matching.step at h
  split at h
  · exact quiet m.ctl h
  · split at h
    · split at h
      · exact quiet _ h
      · split at h <;> exact quiet _ h
    · exact quiet _ h
  · simp only at h
    split at h
    · exact visit_prints h
    · exact quiet _ h
  · simp only at h
    split at h
    · obtain ⟨b, hclose, rfl⟩ := Option.map_eq_some_iff.mp h
      obtain ⟨l, -, rfl⟩ := Option.map_eq_some_iff.mp hclose
      exact .nothing rfl (OrderBook.setLadder_tradeOut ..)
    · exact quiet _ h

/-- **The ring at any place of the loop** holds a burst of what was printed. -/
theorem shows_of_reaches {capacity : Nat} {q : BoundedQueue Trade capacity} (m₀ : Matching)
    (hevents : m₀.events = []) (hshows : m₀.book.tradeOut.Shows q)
    (h : Reaches (Matching.step limit) m₀ m) : m.book.tradeOut.Shows (q.burst m.printed) := by
  have hnil : m₀.printed = [] := by rw [printed, hevents]; rfl
  have hstart : m₀.book.tradeOut.Shows (q.burst m₀.printed) := by
    rw [hnil]
    exact hshows
  refine h.invariant (J := fun m => m.book.tradeOut.Shows (q.burst m.printed)) hstart
    fun m m' hm hstep => ?_
  cases step_prints hstep with
  | nothing hprinted hring =>
    rw [hprinted, hring]
    exact hm
  | one t hprinted hring =>
    rw [hprinted, hring, BoundedQueue.burst_concat]
    exact hm.push t

end Matching

/-! ## The machine -/

/-- A priority book, and the trades printed and not popped. -/
structure Exchange (capacity : Nat) where
  book : PriorityBook := {}
  ring : BoundedQueue Trade capacity := .empty Trade capacity

namespace Exchange

variable {capacity : Nat}

def perform (policy : SelfTradePolicy) (e : Exchange capacity) (c : Call) :
    Reply × Exchange capacity :=
  if c = .pop then (.popped e.ring.pop.1, { e with ring := e.ring.pop.2 })
  else
    let r := e.book.perform policy c
    (r.1, { book := r.2.2, ring := e.ring.burst (fillsOf r.2.1) })

/-- The machine after some calls, newest first. -/
def replay (capacity : Nat) (policy : SelfTradePolicy) : List Call → Exchange capacity
  | [] => {}
  | c :: cs => ((replay capacity policy cs).perform policy c).2

/-- What the machine answers to some calls, newest first. -/
def answers (capacity : Nat) (policy : SelfTradePolicy) : List Call → List Reply
  | [] => []
  | c :: cs => ((replay capacity policy cs).perform policy c).1 :: answers capacity policy cs

end Exchange

namespace OrderBook

open Matching

variable {b₀ b b' : OrderBook} {past : List Record} {r : Record} {a : PriorityBook} {Q Q₀ : Layout}
  {free free₀ : List SlotIndex} {capacity : Nat}

theorem insert_tradeOut {mem : Memory} {s : Side} {order : Order}
    (h : b.insert mem s order = .ok () b') : b'.tradeOut = b.tradeOut := by
  have hplace := (placeFirst_sameRecords b s order.price).tradeOut
  unfold OrderBook.insert at h
  simp only at h
  split at h
  · simp at h
  · simp at h
  · split at h
    · simp at h
    · simp at h
    · split at h
      · simp at h
      · split at h
        · simp at h
        · simp at h
        · obtain ⟨-, rfl⟩ := Result.ok.inj h
          show (OrderBook.appendAt _ s _ _).tradeOut = _
          rw [appendAt, setLadder_tradeOut]
          show (OrderBook.setLadder _ _ _).tradeOut = _
          rw [setLadder_tradeOut, hplace]

/-- The ring after a call is the ring at the end of its loop. -/
theorem tradeOut_of_attempt {x : Attempt} {m : Matching} {mem : Memory} {c : Call} {reply : Reply}
    {events : List Event} (hx : b.attemptOf c = some x)
    (hm : x.book.matchOpposite x.incoming x.limit = some m)
    (hcall : b.perform mem c = .ok (reply, events) b') : b'.tradeOut = m.book.tradeOut := by
  rw [perform_of_attempt mem hx, Attempt.execute, hm] at hcall
  simp only at hcall
  split at hcall
  · rename_i e b₁ hexec
    obtain ⟨-, rfl⟩ := Result.ok.inj hcall
    split at hexec
    · split at hexec
      · simp at hexec
      · simp at hexec
      · rename_i b₂ hins
        obtain ⟨-, rfl⟩ := Result.ok.inj hexec
        exact insert_tradeOut hins
    · obtain ⟨-, rfl⟩ := Result.ok.inj hexec
      rfl
  · simp at hcall
  · simp at hcall

/-- The book and its ring are those of the abstract machine. -/
structure Realizes (b : OrderBook) (e : Exchange capacity) : Prop where
  book : ∃ Q free, b.Follows e.book Q free
  ring : b.tradeOut.Shows e.ring

variable {e : Exchange capacity}

/-- Only a pop hands trades out. -/
theorem Recorded.handed {policy : SelfTradePolicy} (h : Recorded policy a r) (hpop : r.call ≠ .pop) :
    r.reply.handed = [] := by
  cases h.told with
  | submitted _ _ hreply _ _ => rw [hreply]; rfl
  | rejected _ _ hreply _ _ => rw [hreply]; rfl
  | cancelled _ _ _ hreply _ _ => rw [hreply]; rfl
  | emptied _ _ _ _ _ hreply _ _ => rw [hreply]; rfl
  | popped _ _ hcall _ _ _ => exact absurd hcall hpop

/-- A book call leaves a burst of its trades in the ring. -/
theorem Follows.shows {q : BoundedQueue Trade capacity} (h : r.before.Follows a Q free) {mem : Memory}
    (hcall : r.before.perform mem r.call = .ok (r.reply, r.events) r.after) (hpop : r.call ≠ .pop)
    (hshows : r.before.tradeOut.Shows q) : r.after.tradeOut.Shows (q.burst r.trades) := by
  have hrec := (recorded_of_perform h hcall).1
  rcases h.attemptOf r.call with ⟨-, hnone⟩ | ⟨x, y, Q', free', hx, -, hfollows, hkept⟩
  · -- what emits nothing keeps every account of the ring
    have hquiet : r.events = [] := List.map_eq_nil_iff.mp (hrec.acts_of_none hnone)
    obtain ⟨emitted, hacc⟩ := hshows.wf.accounts
    have hafter := hrec.ring _ _ _ hacc
    rw [hrec.handed hpop, hquiet] at hafter
    have hemitted : emitted ++ emissions [] = emitted := List.append_nil _
    rw [List.append_nil, hemitted] at hafter
    rw [Record.trades, hrec.acts_of_none hnone, fillsOf_nil, BoundedQueue.burst_nil]
    exact hshows.of_accounts hacc hafter
  · obtain ⟨m, Q'', free'', hm⟩ := hfollows.matched
    have hevents := events_of_attempt hx hm.run hcall
    rw [tradeOut_of_attempt hx hm.run hcall, Record.trades, Record.acts, hevents]
    have hstart : x.book.tradeOut.Shows q := by
      rw [hkept.tradeOut]
      exact hshows
    exact shows_of_reaches x.start rfl hstart (reaches_of_runUntil hm.run).1

/-- **The step lemma**: a call of a book that realizes the machine is a call of the machine. -/
theorem Realizes.perform (h : r.before.Realizes e) {mem : Memory}
    (hcall : r.before.perform mem r.call = .ok (r.reply, r.events) r.after) :
    r.reply = (e.perform r.before.policy r.call).1
      ∧ r.after.Realizes (e.perform r.before.policy r.call).2 := by
  obtain ⟨Q, free, hf⟩ := h.book
  have hrec := (recorded_of_perform hf hcall).1
  by_cases hpop : r.call = .pop
  · obtain ⟨hreply, hring⟩ := h.ring.pop
    rw [Exchange.perform, if_pos hpop]
    rw [hpop] at hcall
    obtain ⟨hanswer, hafter⟩ := Result.ok.inj hcall
    have hbook := hrec.after
    rw [hpop] at hbook
    refine ⟨?_, hbook, ?_⟩
    · rw [← (Prod.mk.inj hanswer).1, hreply]
    · rw [← hafter]
      exact hring
  · have hring := hf.shows hcall hpop h.ring
    rw [Record.trades, Record.acts, hrec.acts] at hring
    rw [Exchange.perform, if_neg hpop]
    exact ⟨hrec.reply hpop, hrec.after, hring⟩

/-- **The run lemma**: a run of the engine is a run of the machine. -/
theorem Run.realizes (h₀ : b₀.Realizes ({} : Exchange capacity)) (hrun : Run b₀ past b) :
    past.map Record.reply = Exchange.answers capacity b₀.policy (past.map Record.call)
      ∧ b.Realizes (Exchange.replay capacity b₀.policy (past.map Record.call)) := by
  induction hrun with
  | start => exact ⟨rfl, h₀⟩
  | @call past b b' mem c reply events hrun hcall ih =>
    obtain ⟨hreplies, hb⟩ := ih
    obtain ⟨Q, free, hf⟩ := h₀.book
    have hpolicy := (hrun.follows hf).2
    obtain ⟨hreply, hb'⟩ := hb.perform (r := ⟨b, c, reply, events, b'⟩) hcall
    rw [hpolicy] at hreply hb'
    exact ⟨congr (congrArg List.cons hreply) hreplies, hb'⟩

/-! ## What a client sees -/

section Queries

variable {s : Side} {p : Price} {m m₁ m₂ : List (Price × List Cell)} {qs : List Cell}
  {o : RestingOrder}

/-- An order of some levels rests at the price of one of them. -/
theorem Linked.mem_price (h : b.Linked Q free) (hm : ∀ e ∈ m, e ∈ Q s) (ho : o ∈ ordersOf m) :
    ∃ e ∈ m, e.1 = o.price := by
  obtain ⟨c, hc, rfl⟩ := List.mem_map.mp ho
  obtain ⟨e, he, hce⟩ := mem_cellsIn.mp hc
  exact ⟨e, he, ((h.queue s e (hm e he)).price c hce).symm⟩

/-- The orders at a price are those of its level. -/
theorem Linked.orders_at (h : b.Linked Q free) (hQ : Q s = m₁ ++ (p, qs) :: m₂) :
    (ordersOf (Q s)).filter (fun o => o.price = p) = qs.map Prod.snd := by
  have hkeys := sorted_levelsOf.mp (h.sorted s)
  have hmem : ∀ e ∈ m₁ ++ (p, qs) :: m₂, e ∈ Q s := fun e he => hQ ▸ he
  rw [hQ, Lib.Ranked.Sorted, List.pairwise_append, List.pairwise_cons] at hkeys
  obtain ⟨-, ⟨hback, -⟩, hfront⟩ := hkeys
  have hirr : ¬ better s.isBid p p := irrefl_of (better s.isBid) p
  have hother : ∀ n, (∀ e ∈ n, e ∈ Q s ∧ e.1 ≠ p) → (ordersOf n).filter (fun o => o.price = p) = [] := by
    intro n hn
    refine List.filter_eq_nil_iff.mpr fun o ho => ?_
    obtain ⟨e, he, hprice⟩ := h.mem_price (fun e he => (hn e he).1) ho
    rw [← hprice, decide_eq_true_eq]
    exact (hn e he).2
  have hsplit : ordersOf (m₁ ++ (p, qs) :: m₂) = ordersOf m₁ ++ (qs.map Prod.snd ++ ordersOf m₂) := by
    simp [ordersOf]
  have hall : (qs.map Prod.snd).filter (fun o => o.price = p) = qs.map Prod.snd := by
    refine List.filter_eq_self.mpr fun o ho => ?_
    obtain ⟨c, hc, rfl⟩ := List.mem_map.mp ho
    rw [decide_eq_true_eq]
    exact (h.queue s (p, qs) (hmem _ (by simp))).price c hc
  rw [hQ, hsplit, List.filter_append, List.filter_append, hall, hother m₁, hother m₂, List.nil_append,
    List.append_nil]
  · intro e he
    refine ⟨hmem e (by simp [he]), fun heq => hirr ?_⟩
    have hlt := hback e he
    rwa [heq] at hlt
  · intro e he
    refine ⟨hmem e (by simp [he]), fun heq => hirr ?_⟩
    have hlt := hfront e he (p, qs) (by simp)
    rwa [heq] at hlt

/-- **The number of orders at a price**, as the walk of its queue counts them. -/
theorem Follows.orderCountAt (h : b.Follows a Q free) (s : Side) (p : Price) :
    b.orderCountAt s p = some ((a.queue s).filter fun o => o.price = p).length := by
  rw [h.queue, OrderBook.orderCountAt, (h.linked.ladder s).find (h.linked.allOccupied (h.settled s)),
    lookup_levelsOf]
  cases hlook : (Q s).lookup p with
  | none =>
    have hnil : (ordersOf (Q s)).filter (fun o => o.price = p) = [] := by
      refine List.filter_eq_nil_iff.mpr fun o ho => ?_
      obtain ⟨e, he, hprice⟩ := h.linked.mem_price (fun e he => he) ho
      rw [← hprice, decide_eq_true_eq]
      rintro rfl
      exact Lib.Ranked.lookup_eq_none.mp hlook e.2 he
    rw [hnil]
    rfl
  | some qs =>
    have hmem : (p, qs) ∈ Q s := (sorted_levelsOf.mp (h.linked.sorted s)).lookup_eq_some.mp hlook
    obtain ⟨m₁, m₂, hQ⟩ := List.append_of_mem hmem
    have hderef := (h.linked.ladder s).deref (p := p) (List.mem_map_of_mem hmem)
    simp only [Option.map_some, Option.isSome_some, if_true, hderef, h.linked.slotsAt hmem,
      h.linked.orders_at hQ, List.length_map]

end Queries

/-- Two books of which every query has the same answer, and which hold and lost the same trades. -/
structure Alike (b b' : OrderBook) : Prop where
  queue : b'.forEachResting = b.forEachResting
  bestBid : b'.bestBid = b.bestBid
  bestAsk : b'.bestAsk = b.bestAsk
  qtyAt : ∀ s p, b'.qtyAt s p = b.qtyAt s p
  orderCountAt : ∀ s p, b'.orderCountAt s p = b.orderCountAt s p
  find : ∀ id, b'.find id = b.find id
  size : b'.size = b.size
  held : b'.tradeOut.contents = b.tradeOut.contents
  dropped : b'.tradeOut.dropCount = b.tradeOut.dropCount

/-- **What a client sees is the machine's.** -/
theorem Realizes.alike (h : b.Realizes e) (h' : b'.Realizes e) : b.Alike b' := by
  obtain ⟨Q, free, hf⟩ := h.book
  obtain ⟨Q', free', hf'⟩ := h'.book
  refine ⟨?_, ?_, ?_, fun s p => ?_, fun s p => ?_, fun id => ?_, ?_, ?_, ?_⟩
  · rw [hf.forEachResting, hf'.forEachResting]
  · rw [hf.bestBid, hf'.bestBid]
  · rw [hf.bestAsk, hf'.bestAsk]
  · rw [hf.qtyAt, hf'.qtyAt]
  · rw [hf.orderCountAt, hf'.orderCountAt]
  · rw [hf.find, hf'.find]
  · rw [hf.size, hf'.size]
  · rw [h.ring.held, h'.ring.held]
  · rw [h.ring.lost, h'.ring.lost]

/-! ## Whole runs -/

theorem realizes_new {scrub : RestingOrder → RestingOrder} {cfg : Config}
    (hnew : OrderBook.new scrub cfg = some b₀) :
    b₀.Realizes ({} : Exchange b₀.tradeOut.bufferSize) := by
  obtain ⟨h₀, -, hring, -⟩ := new_follows hnew
  exact ⟨⟨_, _, h₀⟩, TradeRing.shows_new hring⟩

end OrderBook

end Lob
