/-
# Lob.TradeStream — where every trade of a run is to be found.

A history tells which trades were emitted and which were handed to the client.  What is popped and
what the ring still holds are, in order, the emitted trades without those that met a full ring; the
drop counter counts those; the numbers of the stream count up from 1; and each report points at the
part of the stream its submission emitted.  The ring may start from any common value of its cursors.
-/
import Lob.RunRefine
import Lob.WalkTally

namespace Lob.OrderBook

/-! ## Reading a history -/

/-- The trades a call emitted. -/
def Record.trades (r : Record) : List Trade := fillsOf r.acts

/-- The trades a history emitted, oldest first, each with the number of trades the ring held. -/
def emissionsOf : List Record → List (Trade × Nat)
  | [] => []
  | r :: past => emissionsOf past ++ Matching.emissions r.events

/-- The trades a history emitted, oldest first. -/
def emitted : List Record → List Trade
  | [] => []
  | r :: past => emitted past ++ r.trades

/-- The trades a history handed to the client, oldest first. -/
def popped : List Record → List Trade
  | [] => []
  | r :: past => popped past ++ r.reply.handed

/-- The id and the side a call submits an order under; a modify keeps the side of the order. -/
def takerOf (b : OrderBook) : Call → Option (OrderId × Side)
  | .addLimit id _ side _ _ => some (id, side)
  | .addMarket id _ side _ => some (id, side)
  | .modify id _ _ => (b.find id).join.map fun o => (id, o.side)
  | .cancel _ => none
  | .pop => none

/-- The book with the cursors of its ring at `cursor`. -/
def startRing (b : OrderBook) (cursor : UInt64) : OrderBook :=
  { b with tradeOut := b.tradeOut.startAt cursor }

section Reading

variable {past newer older : List Record} {r : Record}

theorem emissions_map_fst (events : List Event) :
    (Matching.emissions events).map Prod.fst = fillsOf (events.map Event.act) := by
  induction events with
  | nil => rfl
  | cons e events ih =>
    obtain ⟨act, held⟩ := e
    cases act with
    | fill t => exact congrArg (t :: ·) ih
    | stpCancel o => exact ih

theorem emissionsOf_map_fst (past : List Record) :
    (emissionsOf past).map Prod.fst = emitted past := by
  induction past with
  | nil => rfl
  | cons r past ih =>
    rw [emissionsOf, emitted, List.map_append, ih, emissions_map_fst]
    rfl

theorem length_emissionsOf (past : List Record) : (emissionsOf past).length = (emitted past).length := by
  rw [← emissionsOf_map_fst, List.length_map]

theorem emitted_append (newer older : List Record) :
    ∃ later, emitted (newer ++ older) = emitted older ++ later := by
  induction newer with
  | nil => exact ⟨[], (List.append_nil _).symm⟩
  | cons r newer ih =>
    obtain ⟨later, hlater⟩ := ih
    refine ⟨later ++ r.trades, ?_⟩
    rw [List.cons_append, emitted, hlater, List.append_assoc]

end Reading

/-! ## One submission -/

section Submissions

variable {policy : SelfTradePolicy} {b : OrderBook} {a : PriorityBook} {Q : Layout}
  {free : List SlotIndex} {c : Call} {x : PriorityBook.Submission} {r : Record}

/-- The report of a submission tallies its walk. -/
theorem submission_tally (hsound : a.Sound) (hx : a.submission policy c = some x) :
    Tally x.taker x.qty a.nextSeq x.walk.2 := by
  rcases (PriorityBook.submission_fresh hx).book with hbook | hbook
  · have hpos := hsound.positive x.taker.side.opposite
    rw [← hbook] at hpos ⊢
    exact sweep_tally hpos x.taker x.qty x.book.nextSeq
  · have hpos := (hsound.remove x.taker.id).positive x.taker.side.opposite
    have hseq : a.nextSeq = x.book.nextSeq := by rw [hbook]; rfl
    rw [← hbook] at hpos
    rw [hseq]
    exact sweep_tally hpos x.taker x.qty x.book.nextSeq

/-- A pop trades nothing. -/
theorem Recorded.trades_of_pop (h : Recorded policy a r) (hcall : r.call = .pop) : r.trades = [] := by
  rw [Record.trades, h.acts_of_none (by rw [hcall]; rfl)]
  rfl

theorem takerOf_submission (h : b.Follows a Q free) (hx : a.submission policy c = some x) :
    b.takerOf c = some (x.taker.id, x.taker.side) := by
  cases c with
  | addLimit id owner side price qty =>
    unfold PriorityBook.submission at hx
    simp only at hx
    split at hx
    · simp at hx
    · obtain rfl := Option.some.inj hx
      rfl
  | addMarket id owner side qty =>
    unfold PriorityBook.submission at hx
    simp only at hx
    split at hx
    · simp at hx
    · obtain rfl := Option.some.inj hx
      rfl
  | cancel id => simp [PriorityBook.submission] at hx
  | modify id newPrice newQty =>
    unfold PriorityBook.submission at hx
    simp only at hx
    split at hx
    · simp at hx
    · rename_i o hfind
      split at hx
      · simp at hx
      · obtain rfl := Option.some.inj hx
        simp only [takerOf, h.find, hfind, Option.join_some, Option.map_some]
  | pop => simp [PriorityBook.submission] at hx

/-- What a report says of the trades its call emitted, when `seq` was the next trade's number. -/
structure Reported (r : Record) (rep : ExecReport) (seq : Sequence) : Prop where
  taker : ∀ t ∈ r.trades, r.before.takerOf r.call = some (t.takerId, t.takerSide)
  filled : rep.filled.toNat = traded r.trades
  count : rep.tradeCount.toNat = r.trades.length
  first : rep.firstSeq = if r.trades = [] then 0 else seq

/-- **Every report is about the trades of its call.** -/
theorem Recorded.reported (h : Recorded policy a r) (hsound : a.Sound) {rep : ExecReport}
    (hrep : r.reply = .report rep) : Reported r rep a.nextSeq := by
  obtain ⟨Q, free, hf⟩ := h.before
  have quiet : r.acts = [] → rep.filled = 0 → rep.tradeCount = 0 → rep.firstSeq = 0 →
      Reported r rep a.nextSeq := by
    intro hacts hfilled hcount hfirst
    have htrades : r.trades = [] := by rw [Record.trades, hacts]; rfl
    refine ⟨?_, ?_, ?_, ?_⟩
    · rw [htrades]
      simp
    · rw [htrades, hfilled]
      rfl
    · rw [htrades, hcount]
      rfl
    · rw [htrades, hfirst, if_pos rfl]
  cases h.told with
  | submitted x hx hreply hacts hafter =>
    have ht := submission_tally hsound hx
    have htrades : r.trades = fillsOf x.walk.2.acts := by rw [Record.trades, hacts]
    have hwalk : rep = x.execute.1 := by
      rw [hreply] at hrep
      exact (Reply.report.inj hrep).symm
    have hrep' : rep.filled = x.walk.2.rep.filled ∧ rep.tradeCount = x.walk.2.rep.tradeCount
        ∧ rep.firstSeq = x.walk.2.rep.firstSeq := by
      rw [hwalk, x.execute_eq]
      exact ⟨rfl, rfl, rfl⟩
    refine ⟨fun t hmem => ?_, ?_, ?_, ?_⟩
    · rw [htrades] at hmem
      obtain ⟨hid, hside⟩ := ht.taker t hmem
      rw [takerOf_submission hf hx, hid, hside]
    · rw [hrep'.1, ht.filled, htrades]
    · have hlt := ht.length_lt
      rw [hrep'.2.1, ht.count, htrades, UInt32.toNat_ofNat', Nat.mod_eq_of_lt hlt]
    · rw [hrep'.2.2, ht.first, htrades]
      simp only [List.length_eq_zero_iff]
  | rejected qty hx hreply hacts hafter =>
    rw [hreply] at hrep
    obtain rfl := Reply.report.inj hrep
    exact quiet hacts rfl rfl rfl
  | cancelled id hx hcall hreply hacts hafter =>
    rw [hreply] at hrep
    simp at hrep
  | emptied id p hx hcall hlive hreply hacts hafter =>
    rw [hreply] at hrep
    obtain rfl := Reply.report.inj hrep
    exact quiet hacts rfl rfl rfl
  | popped t hx hcall hreply hacts hafter =>
    rw [hreply] at hrep
    simp at hrep

/-- **The numbers of a call's trades** go on where the book's counter stands. -/
theorem Recorded.seqs (h : Recorded policy a r) (hsound : a.Sound) :
    r.trades.map Trade.seq = (List.range r.trades.length).map (fun i => a.nextSeq + UInt64.ofNat i)
      ∧ (a.perform policy r.call).2.2.nextSeq = a.nextSeq + UInt64.ofNat r.trades.length := by
  have quiet : r.acts = [] → (a.perform policy r.call).2.2.nextSeq = a.nextSeq →
      r.trades.map Trade.seq = (List.range r.trades.length).map (fun i => a.nextSeq + UInt64.ofNat i)
        ∧ (a.perform policy r.call).2.2.nextSeq = a.nextSeq + UInt64.ofNat r.trades.length := by
    intro hacts hseq
    have htrades : r.trades = [] := by rw [Record.trades, hacts]; rfl
    rw [htrades, hseq]
    exact ⟨rfl, (UInt64.add_zero _).symm⟩
  cases h.told with
  | submitted x hx hreply hacts hafter =>
    have ht := submission_tally hsound hx
    have htrades : r.trades = fillsOf x.walk.2.acts := by rw [Record.trades, hacts]
    have hseq : x.execute.2.2.nextSeq = x.walk.2.nextSeq := by
      rw [x.execute_eq]
      show (if x.rests = true then _ else _ : PriorityBook).nextSeq = _
      split <;> rfl
    rw [htrades, hafter, hseq]
    exact ⟨ht.seqs, ht.nextSeq⟩
  | rejected qty hx hreply hacts hafter => exact quiet hacts (by rw [hafter])
  | cancelled id hx hcall hreply hacts hafter => exact quiet hacts (by rw [hafter]; rfl)
  | emptied id p hx hcall hlive hreply hacts hafter => exact quiet hacts (by rw [hafter]; rfl)
  | popped t hx hcall hreply hacts hafter => exact quiet hacts (by rw [hafter])

end Submissions

/-! ## Whole runs -/

/-- Where the trades of a history are, when the book reached is `b`. -/
structure Streamed (capacity : Nat) (past : List Record) (b : OrderBook) : Prop where
  /-- The `k`-th trade has number `k`. -/
  numbered : (emitted past).map Trade.seq
    = (List.range (emitted past).length).map fun i => UInt64.ofNat (i + 1)
  size : b.tradeOut.bufferSize = capacity
  /-- What left the ring and what it holds is the stream without the trades that met a full ring. -/
  kept : popped past ++ b.tradeOut.contents
    = ((emissionsOf past).filter fun e => e.2 ≠ capacity).map Prod.fst
  dropped : b.tradeOut.dropCount = UInt64.ofNat ((emissionsOf past).filter fun e => e.2 = capacity).length
  total : (emitted past).length = (popped past).length + b.tradeOut.size
    + ((emissionsOf past).filter fun e => e.2 = capacity).length

/-- The counter itself makes the total up, as long as it has not wrapped. -/
theorem Streamed.exact {capacity : Nat} {past : List Record} {b : OrderBook}
    (h : Streamed capacity past b) (hlen : (emitted past).length < 2 ^ 64) :
    (emitted past).length
      = (popped past).length + b.tradeOut.size + b.tradeOut.dropCount.toNat := by
  have htotal := h.total
  rw [h.dropped, UInt64.toNat_ofNat', Nat.mod_eq_of_lt (by omega)]
  exact htotal

/-- What a report says of the whole stream. -/
structure Located (past : List Record) (r : Record) (rep : ExecReport) : Prop where
  taker : ∀ t ∈ r.trades, r.before.takerOf r.call = some (t.takerId, t.takerSide)
  filled : rep.filled.toNat = traded r.trades
  count : rep.tradeCount.toNat = r.trades.length
  none_iff : (emitted past).length < 2 ^ 64 → (rep.firstSeq = 0 ↔ r.trades = [])
  /-- The call's trades are those numbered from `firstSeq` on, `tradeCount` of them. -/
  range : (emitted past).length < 2 ^ 64 → r.trades = (emitted past).filter fun t =>
    rep.firstSeq ≤ t.seq ∧ t.seq.toNat < rep.firstSeq.toNat + rep.tradeCount.toNat

section Runs

variable {b₀ b : OrderBook} {past newer older : List Record} {r : Record} {Q₀ : Layout}
  {free₀ : List SlotIndex}

/-- **The ring accounts for the whole run.** -/
theorem Run.accounts {capacity : Nat} (h₀ : b₀.Follows {} Q₀ free₀)
    (hring : b₀.tradeOut.Accounts capacity [] []) (h : Run b₀ past b) :
    b.tradeOut.Accounts capacity (popped past) (emissionsOf past) := by
  induction h with
  | start => exact hring
  | @call past b b' mem c reply events hrun hcall ih =>
    have hrec : Recorded b₀.policy (replayOf b₀ past) ⟨b, c, reply, events, b'⟩ :=
      (Run.call mem c reply events hrun hcall).recorded_head h₀
    exact hrec.ring capacity _ _ ih

/-- **The numbers of the stream**, and where the counter stands after it. -/
theorem Run.numbered (h₀ : b₀.Follows {} Q₀ free₀) (h : Run b₀ past b) :
    (emitted past).map Trade.seq
        = (List.range (emitted past).length).map (fun i => UInt64.ofNat (i + 1))
      ∧ (replayOf b₀ past).nextSeq = UInt64.ofNat ((emitted past).length + 1) := by
  induction h with
  | start => exact ⟨rfl, rfl⟩
  | @call past b b' mem c reply events hrun hcall ih =>
    have hrec : Recorded b₀.policy (replayOf b₀ past) ⟨b, c, reply, events, b'⟩ :=
      (Run.call mem c reply events hrun hcall).recorded_head h₀
    obtain ⟨hseqs, hnext⟩ := hrec.seqs (hrun.inOrder h₀).2
    obtain ⟨ihseqs, ihnext⟩ := ih
    have hadd : ∀ i, UInt64.ofNat ((emitted past).length + 1) + UInt64.ofNat i
        = UInt64.ofNat ((emitted past).length + i + 1) := by
      intro i
      rw [← UInt64.ofNat_add]
      congr 1
      omega
    refine ⟨?_, ?_⟩
    · rw [emitted, List.map_append, ihseqs, hseqs, ihnext, List.length_append, List.range_add,
        List.map_append, List.map_map]
      exact congrArg _ (List.map_congr_left fun i _ => hadd i)
    · rw [emitted, List.length_append, ← hadd, ← ihnext]
      exact hnext

/-- The part of a numbered list between two of its positions, found by number. -/
theorem filter_numbered {A B C : List Trade} {n : Nat}
    (h : (A ++ B ++ C).map (fun t => t.seq.toNat)
      = (List.range (A ++ B ++ C).length).map fun i => i + n) :
    (A ++ B ++ C).filter (fun t => decide (A.length + n ≤ t.seq.toNat
      ∧ t.seq.toNat < A.length + n + B.length)) = B := by
  rw [List.length_append, List.length_append, List.range_add, List.range_add, List.map_append,
    List.map_append, List.map_append, List.map_append] at h
  obtain ⟨hAB, hC⟩ := List.append_inj h (by simp)
  obtain ⟨hA, hB⟩ := List.append_inj hAB (by simp)
  have hin : ∀ {ts : List Trade} {m k : Nat},
      ts.map (fun t => t.seq.toNat) = (List.range m).map (fun i => k + i + n) →
      ∀ t ∈ ts, k + n ≤ t.seq.toNat ∧ t.seq.toNat < k + n + m := by
    intro ts m k hts t ht
    have hmem : t.seq.toNat ∈ (List.range m).map fun i => k + i + n :=
      hts ▸ List.mem_map_of_mem ht
    obtain ⟨i, hi, heq⟩ := List.mem_map.mp hmem
    rw [List.mem_range] at hi
    omega
  have hA' := @hin A A.length 0 (by simpa using hA)
  have hB' := @hin B B.length A.length (by rw [hB, List.map_map]; rfl)
  have hC' := @hin C C.length (A.length + B.length) (by rw [hC, List.map_map]; rfl)
  have hkeep : ∀ {ts : List Trade} {lo hi : Nat}, (∀ t ∈ ts, lo ≤ t.seq.toNat ∧ t.seq.toNat < hi) →
      ts.filter (fun t => decide (lo ≤ t.seq.toNat ∧ t.seq.toNat < hi)) = ts :=
    fun hts => List.filter_eq_self.mpr fun t ht => decide_eq_true (hts t ht)
  have hdrop : ∀ {ts : List Trade} {lo hi : Nat}, (∀ t ∈ ts, t.seq.toNat < lo ∨ hi ≤ t.seq.toNat) →
      ts.filter (fun t => decide (lo ≤ t.seq.toNat ∧ t.seq.toNat < hi)) = [] := by
    intro ts lo hi hts
    refine List.filter_eq_nil_iff.mpr fun t ht => ?_
    have := hts t ht
    simp only [decide_eq_true_eq]
    omega
  rw [List.filter_append, List.filter_append, hdrop fun t ht => ?_, hkeep hB',
    hdrop fun t ht => ?_, List.nil_append, List.append_nil]
  · have := hC' t ht
    omega
  · have := hA' t ht
    omega

/-- **A report finds its trades in the stream.** -/
theorem Run.located (h₀ : b₀.Follows {} Q₀ free₀) (h : Run b₀ (newer ++ r :: older) b)
    {rep : ExecReport} (hrep : r.reply = .report rep) : Located (newer ++ r :: older) r rep := by
  obtain ⟨b', hrun⟩ := h.earlier
  have hrun' := hrun.cons_inv.2.1
  have hreported := (h.recorded h₀).reported (hrun'.inOrder h₀).2 hrep
  obtain ⟨later, hlater⟩ := emitted_append newer (r :: older)
  rw [emitted] at hlater
  have hnum := (h.numbered h₀).1
  have hnext := (hrun'.numbered h₀).2
  have hlen : (emitted (newer ++ r :: older)).length
      = (emitted older).length + r.trades.length + later.length := by
    rw [hlater, List.length_append, List.length_append]
  have hfirst : (emitted (newer ++ r :: older)).length < 2 ^ 64 → r.trades ≠ [] →
      rep.firstSeq.toNat = (emitted older).length + 1 := by
    intro hlt hne
    have hpos := List.length_pos_iff.mpr hne
    rw [hreported.first, if_neg hne, hnext, UInt64.toNat_ofNat', Nat.mod_eq_of_lt (by omega)]
  refine ⟨hreported.taker, hreported.filled, hreported.count, fun hlt => ?_, fun hlt => ?_⟩
  · constructor
    · intro hzero
      by_contra hne
      have := hfirst hlt hne
      rw [hzero, UInt64.toNat_zero] at this
      omega
    · intro hnil
      rw [hreported.first, if_pos hnil]
  · by_cases hnil : r.trades = []
    · have hcount := hreported.count
      rw [hnil, List.length_nil] at hcount
      rw [hreported.first, if_pos hnil, hcount, hnil]
      refine (List.filter_eq_nil_iff.mpr fun t _ => ?_).symm
      simp
    · have hmap : (emitted (newer ++ r :: older)).map (fun t => t.seq.toNat)
          = (List.range (emitted (newer ++ r :: older)).length).map fun i => i + 1 := by
        have hnat := congrArg (List.map UInt64.toNat) hnum
        rw [List.map_map, List.map_map] at hnat
        refine hnat.trans (List.map_congr_left fun i hi => ?_)
        rw [List.mem_range] at hi
        show (UInt64.ofNat (i + 1)).toNat = i + 1
        rw [UInt64.toNat_ofNat', Nat.mod_eq_of_lt (by omega)]
      rw [hlater] at hmap ⊢
      simp only [UInt64.le_iff_toNat_le, hfirst hlt hnil, hreported.count]
      exact (filter_numbered hmap).symm

/-- A book that starts its ring elsewhere follows the same priority book. -/
theorem Follows.startRing (h : b₀.Follows {} Q₀ free₀) (cursor : UInt64) :
    (b₀.startRing cursor).Follows {} Q₀ free₀ :=
  ⟨h.linked.congr rfl rfl fun s => by cases s <;> rfl, h.settled, h.live, h.queue, h.nextSeq⟩

/-- **The trade stream, the reports and the ring account for every trade**, from any common start of
the ring's cursors; a new book starts them at 0. -/
theorem trade_stream {scrub : RestingOrder → RestingOrder} {cfg : Config} {cursor : UInt64}
    (hnew : OrderBook.new scrub cfg = some b₀) (hrun : Run (b₀.startRing cursor) past b) :
    b₀.startRing 0 = b₀ ∧ Streamed b₀.tradeOut.bufferSize past b
      ∧ ((emitted past).length < 2 ^ 64 → (emitted past).length
          = (popped past).length + b.tradeOut.size + b.tradeOut.dropCount.toNat)
      ∧ ∀ newer r older rep, past = newer ++ r :: older → r.reply = .report rep →
        Located past r rep := by
  obtain ⟨h₀, -, hring, -⟩ := new_follows hnew
  have h₁ := h₀.startRing cursor
  obtain ⟨ring, hring', hdrop, hzero, hstart⟩ :=
    TradeRing.new_spec (TradeRing.capacity_le_of_new hring)
  rw [hring'] at hring
  obtain rfl := Option.some.inj hring
  have hacc : (b₀.startRing cursor).tradeOut.Accounts b₀.tradeOut.bufferSize [] [] :=
    TradeRing.accounts_new (hstart cursor).1 (hstart cursor).2 hdrop
  have hfinal := hrun.accounts h₁ hacc
  have hlen := length_emissionsOf past
  have hstreamed : Streamed b₀.tradeOut.bufferSize past b :=
    ⟨(hrun.numbered h₁).1, hfinal.size, hfinal.kept, hfinal.dropped, hlen ▸ hfinal.total⟩
  refine ⟨?_, hstreamed, hstreamed.exact, ?_⟩
  · show ({ b₀ with tradeOut := b₀.tradeOut.startAt 0 } : OrderBook) = b₀
    rw [hzero]
  · rintro newer r older rep rfl hrep
    exact hrun.located h₁ hrep

/-- A ring of one trade at the last cursor value drops the second of two fills. -/
theorem trade_stream_across_wrap : ∃ b₀ past b, OrderBook.new id { tradeCapacity := 1 } = some b₀
    ∧ Run (b₀.startRing 0xFFFFFFFFFFFFFFFF) past b
    ∧ past.map Record.call = [.pop, .addMarket 3 9 .sell 4, .addLimit 2 8 .buy 100 2,
      .addLimit 1 7 .buy 100 3]
    ∧ b.tradeOut.dropCount = 1 ∧ Streamed b₀.tradeOut.bufferSize past b := by
  obtain ⟨⟨b₀, past, b⟩, hrun⟩ := Option.isSome_iff_exists.mp (show
    ((OrderBook.new id { tradeCapacity := 1 }).bind fun b₀ =>
      (exec {} (b₀.startRing 0xFFFFFFFFFFFFFFFF) [.pop, .addMarket 3 9 .sell 4,
        .addLimit 2 8 .buy 100 2, .addLimit 1 7 .buy 100 3]).bind fun p =>
          if p.2.tradeOut.dropCount = 1 then some (b₀, p.1, p.2) else none).isSome = true by
    decide +kernel)
  obtain ⟨b₁, hnew, hrun⟩ := Option.bind_eq_some_iff.mp hrun
  obtain ⟨p, hexec, hrun⟩ := Option.bind_eq_some_iff.mp hrun
  split at hrun
  · rename_i hdrop
    obtain ⟨rfl, hp⟩ := Prod.mk.inj (Option.some.inj hrun)
    obtain ⟨rfl, rfl⟩ := Prod.mk.inj hp
    obtain ⟨hr, hcalls⟩ := exec_run hexec
    exact ⟨b₁, p.1, p.2, hnew, hr, hcalls, hdrop, (trade_stream hnew hr).2.1⟩
  · simp at hrun

end Runs

end Lob.OrderBook
