/-
# Lob.FlowStats — what the generator observes as it goes.

The generator hashes every op and every trade, counts the timed ops and samples the depth and the spread
of its book after each of them.  It reads none of this back, so it is told here as a fold over the ops of
the flow, through a book that is given what `emit` gives the generator's.  That the fold returns, and ends
at the generator's own book, is a theorem (`generate_traced`), as is that every step emits one op.
-/
import Lob.FlowTrace
import Lob.Lib.Quantile

namespace Lob.Flow

open Lib Lib.Draws Lib.Quantile OrderBook

/-! ## Hashes -/

def kHashSeed : UInt64 := 0xcbf29ce484222325

/-- FNV-1a over the eight bytes of a word. -/
def fold (h v : UInt64) : UInt64 :=
  (List.range 8).foldl (fun h i => (h ^^^ ((v >>> UInt64.ofNat (8 * i)) &&& 0xFF)) * 0x100000001b3) h

def Kind.code : Kind → UInt64
  | add => 0
  | cancel => 1
  | modify => 2
  | marketable => 3

def sideCode (side : Side) : UInt64 := if side = .buy then 0 else 1

def hashOp (h : UInt64) (op : Op) : UInt64 :=
  [op.id, op.price, op.qty.toUInt64, op.owner.toUInt64, op.kind.code, sideCode op.side,
    if op.market then 1 else 0].foldl fold h

def hashTrade (h : UInt64) (t : Trade) : UInt64 :=
  [t.seq, t.makerId, t.takerId, t.price, t.qty.toUInt64, sideCode t.takerSide].foldl fold h

/-! ## Statistics -/

/-- What the generator observed while running the flow through its own book. -/
structure Stats where
  /-- Timed ops of each kind. -/
  count : Kind → Nat := fun _ => 0
  marketOrders : Nat := 0
  /-- Over the timed ops. -/
  trades : Nat := 0
  depthMin : Nat := 0
  depthMax : Nat := 0
  /-- Ticks, sampled after every timed op. -/
  spreadP50 : Nat := 0
  spreadP99 : Nat := 0
  flowHash : UInt64 := 0
  /-- Every trade in the flow; a replay must match it. -/
  tradeHash : UInt64 := 0

/-- The generator's book and its observations so far. -/
structure Watch where
  book : OrderBook
  timing : Bool := false
  tradeHash : UInt64 := kHashSeed
  spreadHist : List Nat := List.replicate 65 0
  stats : Stats := {}

/-- The counters of a timed op. -/
def Stats.emitted (st : Stats) (op : Op) (fills : Nat) : Stats :=
  { st with
    count := Function.update st.count op.kind (st.count op.kind + 1)
    trades := st.trades + fills
    marketOrders :=
      if op.kind = .marketable then st.marketOrders + (if op.market then 1 else 0) else st.marketOrders }

/-- `emit`, past the push of the op. -/
def Watch.emit (w : Watch) (op : Op) : Option Watch :=
  match w.book.perform {} op.call with
  | .ok _ book =>
    (drainInto (fun p t => (hashTrade p.1 t, p.2 + 1)) book.tradeOut.size book.tradeOut
      (w.tradeHash, 0)).map fun r =>
        { w with
          book := { book with tradeOut := r.2 }
          tradeHash := r.1.1
          stats := if w.timing then w.stats.emitted op r.1.2 else w.stats }
  | .throws _ _ => none
  | .undefined => none

def Watch.sampleSpread (w : Watch) : Watch :=
  match w.book.bestBid, w.book.bestAsk with
  | some bid, some ask =>
    { w with spreadHist := w.spreadHist.modify (min (ask - bid).toNat 64) (· + 1) }
  | _, _ => w

def Watch.sampleDepth (w : Watch) : Watch :=
  { w with
    stats :=
      { w.stats with
        depthMin := min w.stats.depthMin w.book.size
        depthMax := max w.stats.depthMax w.book.size } }

/-- A timed op and the samples after it. -/
def Watch.timed (w : Watch) (op : Op) : Option Watch :=
  (w.emit op).map fun w => w.sampleDepth.sampleSpread

/-- The nearest rank, in the machine's words. -/
def spreadPercentile (hist : List Nat) (percent : Nat) : Nat :=
  if hist.sum = 0 then 0 else scan ((hist.sum * percent + 99) % 2 ^ 64 / 100) 0 0 hist

/-- The ops that bring the book to its target depth, and those run but not recorded. -/
def untimed (cfg : Config) : Nat := cfg.targetDepth.toNat + cfg.warmupOps.toNat

/-- The end of the warm-up. -/
def Watch.startTiming (w : Watch) : Watch :=
  { w with
    timing := true
    stats := { w.stats with depthMin := w.book.size } }

/-- The end of the run. -/
def Watch.report (w : Watch) (flowHash : UInt64) : Stats :=
  { w.stats with
    spreadP50 := spreadPercentile w.spreadHist 50
    spreadP99 := spreadPercentile w.spreadHist 99
    flowHash := flowHash
    tradeHash := w.tradeHash }

/-- `run`, as far as it observes: the statistics, and the book the flow leaves. -/
def observe (cfg : Config) (b₀ : OrderBook) (ops : List Op) : Option (Stats × OrderBook) :=
  ((ops.take (untimed cfg)).foldlM Watch.emit { book := b₀ }).bind fun w =>
    ((ops.drop (untimed cfg)).foldlM Watch.timed w.startTiming).map fun w =>
      (w.report (ops.foldl hashOp kHashSeed), w.book)

/-! ## What there is to observe -/

/-- A book in order of bounded stamps, and sound. -/
def WellKept (a : PriorityBook) : Prop :=
  ∃ stamp top, a.InOrder stamp ∧ (∀ id, stamp id ≤ top) ∧ a.Sound

/-- The ticks between the touches, as far as the histogram tells them apart. -/
def spreadOf (a : PriorityBook) : Option Nat :=
  match a.best .buy, a.best .sell with
  | some bid, some ask => some (min (ask - bid).toNat 64)
  | _, _ => none

/-- What each op hands out, of a ring of `kTradeCapacity`, and the book it leaves. -/
def visits (policy : SelfTradePolicy) : PriorityBook → List Op → List (List Trade × PriorityBook)
  | _, [] => []
  | a, op :: ops =>
    let r := a.perform policy op.call
    ((fillsOf r.2.1).take 4096, r.2.2) :: visits policy r.2.2 ops

/-- The book that some ops leave. -/
def bookThrough (policy : SelfTradePolicy) (a : PriorityBook) (ops : List Op) : PriorityBook :=
  ops.foldl (fun a op => (a.perform policy op.call).2.2) a

section Visits

variable {policy : SelfTradePolicy} {a : PriorityBook} {op : Op} {ops : List Op}

theorem WellKept.perform (h : WellKept a) (policy : SelfTradePolicy) (c : Call) :
    WellKept (a.perform policy c).2.2 := by
  obtain ⟨stamp, top, hord, hle, hsound⟩ := h
  refine ⟨fun id => if a.restedId policy c = some id then top + 1 else stamp id, top + 1,
    hord.perform policy c ?_ ?_, fun id => ?_, hsound.perform hord policy c⟩
  · intro s o _ hne
    exact if_neg hne
  · intro s o _ id hsome _
    simp only [hsome, if_true]
    exact Nat.lt_succ_of_le (hle o.id)
  · show (if a.restedId policy c = some id then top + 1 else stamp id) ≤ top + 1
    split
    · exact Nat.le_refl _
    · exact Nat.le_succ_of_le (hle id)

end Visits

/-! ## One op -/

section Steps

variable {e : Exchange 4096} {b b' : OrderBook} {op : Op} {ops : List Op} {w w' : Watch}

/-- The machine's op on a ring with nothing in it. -/
theorem emits_of_drained (policy : SelfTradePolicy) (he : e.ring.held = []) (op : Op) :
    (emits policy e op).1 = (fillsOf (e.book.perform policy op.call).2.1).take 4096
      ∧ (emits policy e op).2.book = (e.book.perform policy op.call).2.2
      ∧ (emits policy e op).2.ring.held = [] := by
  rw [emits, Exchange.perform, if_neg op.call_ne_pop]
  refine ⟨?_, rfl, rfl⟩
  show (e.ring.burst _).held = _
  rw [(BoundedQueue.burst_eq _ _).1, he, List.nil_append]

/-- What the watch sees of an op. -/
theorem Watch.emit_of_applied {capacity : Nat} {e : Exchange capacity} (h : w.book.Realizes e)
    (happly : applyDrained w.book op = some b') :
    w.emit op = some
      { w with
        book := b'
        tradeHash := (emits w.book.policy e op).1.foldl hashTrade w.tradeHash
        stats :=
          if w.timing then w.stats.emitted op (emits w.book.policy e op).1.length else w.stats } := by
  obtain ⟨-, -, reply, book, ring, hcall, rfl, hdrain⟩ := Realizes.applied h happly
  have hfold : ∀ (ts : List Trade) (hash : UInt64) (n : Nat),
      ts.foldl (fun (p : UInt64 × Nat) t => (hashTrade p.1 t, p.2 + 1)) (hash, n)
        = (ts.foldl hashTrade hash, n + ts.length) := by
    intro ts
    induction ts with
    | nil => exact fun _ _ => rfl
    | cons t ts ih =>
      intro hash n
      rw [List.foldl_cons, ih, List.length_cons, Nat.add_assoc, Nat.add_comm 1]
      rfl
  rw [Watch.emit, hcall]
  simp only [hdrain, hfold, Option.map_some, Nat.zero_add]

theorem Watch.sampleSpread_eq (h : w.book.Realizes e) : w.sampleSpread = { w with
    spreadHist :=
      (spreadOf e.book).elim w.spreadHist fun n => w.spreadHist.modify n (· + 1) } := by
  obtain ⟨Q, free, hf⟩ := h.book
  rw [Watch.sampleSpread, spreadOf, hf.bestBid, hf.bestAsk]
  cases e.book.best .buy <;> cases e.book.best .sell <;> rfl

/-- **The untimed ops** are hashed, and nothing else is told of them. -/
theorem foldlM_emit (h : w.book.Realizes e) (he : e.ring.held = []) (hoff : w.timing = false)
    (happly : ops.foldlM applyDrained w.book = some b') :
    ∃ e' : Exchange 4096, ops.foldlM Watch.emit w = some
        { w with
          book := b'
          tradeHash :=
            ((visits w.book.policy e.book ops).flatMap Prod.fst).foldl hashTrade w.tradeHash }
      ∧ b'.Realizes e' ∧ e'.ring.held = [] ∧ e'.book = bookThrough w.book.policy e.book ops
      ∧ b'.policy = w.book.policy := by
  induction ops generalizing w e with
  | nil =>
    obtain rfl := Option.some.inj happly
    exact ⟨e, rfl, h, he, rfl, rfl⟩
  | cons op ops ih =>
    rw [List.foldlM_cons] at happly
    obtain ⟨b₁, hop, hrest⟩ := Option.bind_eq_some_iff.mp happly
    obtain ⟨hb₁, hpolicy, -⟩ := Realizes.applied h hop
    obtain ⟨htrades, hbook, hheld⟩ := emits_of_drained w.book.policy he op
    have hemit := Watch.emit_of_applied h hop
    rw [if_neg (Bool.eq_false_iff.mp hoff)] at hemit
    let w₁ : Watch :=
      { w with
        book := b₁
        tradeHash := (emits w.book.policy e op).1.foldl hashTrade w.tradeHash }
    obtain ⟨e', hfold, hb', hheld', hbook', hpolicy'⟩ := ih (w := w₁) hb₁ hheld hoff hrest
    have hpolicy₁ : w₁.book.policy = w.book.policy := hpolicy
    rw [hpolicy₁, hbook] at hfold hbook'
    refine ⟨e', ?_, hb', hheld', hbook', hpolicy'.trans hpolicy⟩
    rw [List.foldlM_cons, hemit]
    show ops.foldlM Watch.emit w₁ = _
    rw [hfold, visits, List.flatMap_cons, List.foldl_append, ← htrades]

/-- What some timed ops, and the visits of the book they make, have added to the observations. -/
structure Tallied (w w' : Watch) (ops : List Op) (seen : List (List Trade × PriorityBook)) : Prop where
  hash : w'.tradeHash = (seen.flatMap Prod.fst).foldl hashTrade w.tradeHash
  count : ∀ k, w'.stats.count k = w.stats.count k + ops.countP fun op => decide (op.kind = k)
  marketOrders : w'.stats.marketOrders = w.stats.marketOrders
    + ops.countP fun op => decide (op.kind = .marketable) && op.market
  trades : w'.stats.trades = w.stats.trades + (seen.flatMap Prod.fst).length
  depthMin : w'.stats.depthMin = (seen.map fun v => v.2.orders.length).foldl min w.stats.depthMin
  depthMax : w'.stats.depthMax = (seen.map fun v => v.2.orders.length).foldl max w.stats.depthMax
  spreads : ∀ ns, w.spreadHist = histogram 65 ns →
    w'.spreadHist = histogram 65 (ns ++ seen.filterMap fun v => spreadOf v.2)

theorem Tallied.refl (w : Watch) : Tallied w w [] [] :=
  ⟨rfl, fun _ => rfl, rfl, rfl, rfl, rfl, fun _ h => by rw [h]; simp⟩

theorem Tallied.trans {w₁ w₂ w₃ : Watch} {ops ops' : List Op} {seen seen' : List (List Trade × PriorityBook)}
    (h : Tallied w₁ w₂ ops seen) (h' : Tallied w₂ w₃ ops' seen') :
    Tallied w₁ w₃ (ops ++ ops') (seen ++ seen') := by
  refine ⟨?_, fun k => ?_, ?_, ?_, ?_, ?_, fun ns hns => ?_⟩
  · rw [h'.hash, h.hash, List.flatMap_append, List.foldl_append]
  · rw [h'.count, h.count, List.countP_append, Nat.add_assoc]
  · rw [h'.marketOrders, h.marketOrders, List.countP_append, Nat.add_assoc]
  · rw [h'.trades, h.trades, List.flatMap_append, List.length_append, Nat.add_assoc]
  · rw [h'.depthMin, h.depthMin, List.map_append, List.foldl_append]
  · rw [h'.depthMax, h.depthMax, List.map_append, List.foldl_append]
  · rw [h'.spreads _ (h.spreads ns hns), List.filterMap_append, List.append_assoc]

/-- **The step lemma**: a timed op is counted, hashed and sampled. -/
theorem timed_of_applied (h : w.book.Realizes e) (he : e.ring.held = []) (hon : w.timing = true)
    (happly : applyDrained w.book op = some b') :
    ∃ w', w.timed op = some w' ∧ w'.book = b' ∧ w'.timing = true
      ∧ Tallied w w' [op] (visits w.book.policy e.book [op]) := by
  obtain ⟨hb', hpolicy, -⟩ := Realizes.applied h happly
  obtain ⟨htrades, hbook, hheld⟩ := emits_of_drained w.book.policy he op
  have hemit := Watch.emit_of_applied h happly
  rw [if_pos hon] at hemit
  have hsize : b'.size = (e.book.perform w.book.policy op.call).2.2.orders.length := by
    obtain ⟨Q, free, hf⟩ := hb'.book
    rw [hf.size, hbook]
  let w₁ : Watch :=
    { w with
      book := b'
      tradeHash := (emits w.book.policy e op).1.foldl hashTrade w.tradeHash
      stats := w.stats.emitted op (emits w.book.policy e op).1.length }
  -- the depth and the spread are sampled on the book after the op
  have hsample := Watch.sampleSpread_eq (w := w₁.sampleDepth) hb'
  have htimed : w.timed op = some w₁.sampleDepth.sampleSpread := by
    rw [Watch.timed, hemit]
    rfl
  have hvisits : visits w.book.policy e.book [op]
      = [((emits w.book.policy e op).1, (e.book.perform w.book.policy op.call).2.2)] := by
    rw [htrades]
    rfl
  refine ⟨_, htimed, by rw [hsample]; rfl, by rw [hsample]; exact hon, ?_⟩
  rw [hvisits, hsample]
  refine ⟨by simp [w₁, Watch.sampleDepth], fun k => ?_, ?_, ?_, ?_, ?_, fun ns hns => ?_⟩
  · show Function.update w.stats.count op.kind (w.stats.count op.kind + 1) k = _
    by_cases hk : op.kind = k
    · subst hk
      simp
    · rw [Function.update_of_ne (Ne.symm hk)]
      simp [hk]
  · show (if op.kind = .marketable then _ else _) = _
    by_cases hk : op.kind = .marketable
    · rw [if_pos hk]
      cases hmarket : op.market <;> simp [hk, hmarket]
    · rw [if_neg hk]
      simp [hk]
  · simp [w₁, Watch.sampleDepth, Stats.emitted]
  · show min w.stats.depthMin b'.size = _
    rw [hsize]
    rfl
  · show max w.stats.depthMax b'.size = _
    rw [hsize]
    rfl
  · show (spreadOf (emits w.book.policy e op).2.book).elim w.spreadHist
      (fun n => w.spreadHist.modify n (· + 1)) = _
    rw [hbook, hns]
    cases hspread : spreadOf (e.book.perform w.book.policy op.call).2.2 with
    | none => simp [hspread]
    | some n =>
      simp only [Option.elim_some, List.filterMap_cons, hspread, List.filterMap_nil]
      exact (histogram_concat ns n).symm

/-- **The run lemma**: the timed ops are counted, hashed and sampled one after the other. -/
theorem foldlM_timed (h : w.book.Realizes e) (he : e.ring.held = []) (hon : w.timing = true)
    (happly : ops.foldlM applyDrained w.book = some b') :
    ∃ w', ops.foldlM Watch.timed w = some w' ∧ w'.book = b'
      ∧ Tallied w w' ops (visits w.book.policy e.book ops) := by
  induction ops generalizing w e with
  | nil => exact ⟨w, rfl, Option.some.inj happly, .refl w⟩
  | cons op ops ih =>
    rw [List.foldlM_cons] at happly
    obtain ⟨b₁, hop, hrest⟩ := Option.bind_eq_some_iff.mp happly
    obtain ⟨hb₁, hpolicy, -⟩ := Realizes.applied h hop
    obtain ⟨-, hbook, hheld⟩ := emits_of_drained w.book.policy he op
    obtain ⟨w₁, htimed, rfl, hon₁, htally⟩ := timed_of_applied h he hon hop
    obtain ⟨w', hfold, hb', htally'⟩ := ih hb₁ hheld hon₁ hrest
    refine ⟨w', ?_, hb', ?_⟩
    · rw [List.foldlM_cons, htimed]
      exact hfold
    · rw [hpolicy, hbook] at htally'
      exact htally.trans htally'

end Steps

/-! ## The report -/

theorem visits_append (policy : SelfTradePolicy) (a : PriorityBook) (ops ops' : List Op) :
    visits policy a (ops ++ ops')
      = visits policy a ops ++ visits policy (bookThrough policy a ops) ops' := by
  induction ops generalizing a with
  | nil => rfl
  | cons op ops ih =>
    rw [List.cons_append, visits, ih, visits, List.cons_append]
    rfl

/-- What the timed ops hand out and leave, after those that were not timed. -/
def timedVisits (policy : SelfTradePolicy) (before timed : List Op) : List (List Trade × PriorityBook) :=
  visits policy (bookThrough policy {} before) timed

section Report

variable {cfg : Config} {scrub : RestingOrder → RestingOrder} {g : Generator} {b₀ b : OrderBook}
  {policy : SelfTradePolicy} {ops before timed : List Op} {w w' : Watch}

/-- **Observing** ops that a book can be given returns, with what they tally from the start of the
timing. -/
theorem observe_tallies (cfg : Config) (h : b₀.Realizes ({} : Exchange 4096))
    (happly : ops.foldlM applyDrained b₀ = some b) :
    ∃ w w' : Watch, observe cfg b₀ ops = some (w'.report (ops.foldl hashOp kHashSeed), b)
      ∧ Tallied w w' (ops.drop (untimed cfg))
        (timedVisits b₀.policy (ops.take (untimed cfg)) (ops.drop (untimed cfg)))
      ∧ w.stats = { depthMin := (bookThrough b₀.policy {} (ops.take (untimed cfg))).orders.length }
      ∧ w.tradeHash
        = ((visits b₀.policy {} (ops.take (untimed cfg))).flatMap Prod.fst).foldl hashTrade kHashSeed
      ∧ w.spreadHist = List.replicate 65 0 := by
  obtain ⟨b₁, hbefore, htimed⟩ : ∃ b₁, (ops.take (untimed cfg)).foldlM applyDrained b₀ = some b₁
      ∧ (ops.drop (untimed cfg)).foldlM applyDrained b₁ = some b := by
    rw [← List.take_append_drop (untimed cfg) ops, List.foldlM_append] at happly
    exact Option.bind_eq_some_iff.mp happly
  obtain ⟨e₁, hfold, hb₁, hheld, hbook, hpolicy⟩ :=
    foldlM_emit (w := { book := b₀ }) h rfl rfl hbefore
  rw [observe, hfold, Option.bind_some]
  generalize ops.foldl hashOp kHashSeed = flowHash
  generalize ops.drop (untimed cfg) = timed at htimed ⊢
  generalize ops.take (untimed cfg) = before at hbook ⊢
  let w : Watch :=
    { book := b₁
      tradeHash := ((visits b₀.policy {} before).flatMap Prod.fst).foldl hashTrade kHashSeed }
  obtain ⟨w', hfold', rfl, htally⟩ := foldlM_timed (w := w.startTiming) hb₁ hheld rfl htimed
  have hseen : visits b₁.policy e₁.book timed = timedVisits b₀.policy before timed := by
    rw [hbook, hpolicy]
    rfl
  have hsize : b₁.size = (bookThrough b₀.policy {} before).orders.length := by
    obtain ⟨Q, free, hf⟩ := hb₁.book
    rw [hf.size, hbook]
  refine ⟨w.startTiming, w', ?_, hseen ▸ htally, ?_, rfl, rfl⟩
  · show (timed.foldlM Watch.timed w.startTiming).map _ = _
    rw [hfold']
    rfl
  · show ({ depthMin := b₁.size } : Stats) = _
    rw [hsize]

end Report

end Lob.Flow
