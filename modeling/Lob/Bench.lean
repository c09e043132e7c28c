/-
# Lob.Bench — the benchmark's replays of a generated flow.

Each run replays the whole flow on a fresh book, one timed call at a time, and drains the ring after each.
The samples of the timed ops are reported as nearest-rank percentiles, over all of them and for each kind,
provided the trade stream is the one the generator saw: otherwise the numbers are discarded.  What the
clock says is the machine's affair, and enters as a list of arbitrary readings.
-/
import Lob.FlowRing
import Lob.FlowStats
import Lob.Gauges
import Lob.Returns

namespace Lob.Bench

open Lib Lib.Quantile Lob.Flow OrderBook

/-! ## The source's data and operations -/

def kPointPpm : List Nat := [500000, 990000, 999000, 999900, 1000000]

/-- Ticks at p50 to the maximum. -/
abbrev Points := List Nat

/-- Rows of the report: every op, each kind, then the noise floor. -/
inductive Row
  | all
  | kind (k : Flow.Kind)
  | spin
  deriving DecidableEq, Repr

/-- The point of a sorted sample at its nearest rank; nothing where that lies past its end. -/
def pointAt (v : List Nat) (ppm : Nat) : Option Nat :=
  let rank := (v.length * ppm + 999999) % 2 ^ 64 / 1000000
  v[if rank = 0 then 0 else rank - 1]?

/-- Nearest-rank percentiles of a sample, which this sorts. -/
def percentiles (v : List Nat) : Option Points :=
  if v.isEmpty then some (List.replicate 5 0) else kPointPpm.mapM (pointAt v.mergeSort)

/-- The sample in the middle, in order; nothing where there is no sample. -/
def median (v : List Nat) : Option Nat := v.mergeSort[v.length / 2]?

structure RunResult where
  rows : Row → Points
  tradeHash : UInt64
  dropped : UInt64
  /-- Where the flat price array landed. -/
  windowBase : Option Price
  /-- Levels that fell back to the map. -/
  openedOutside : UInt64
  /-- Times the order pool or the id index grew. -/
  growths : Nat

/-- The flow as the benchmark reads it. -/
structure Replayed where
  ops : List Op
  build : Nat
  warmup : Nat

def Replayed.timedBegin (f : Replayed) : Nat := f.build + f.warmup

def Replayed.timedCount (f : Replayed) : Nat := f.ops.length - f.timedBegin

/-- What a run finds on its machine: what fresh slots hold, and the readings of the clock. -/
structure Machine where
  scrub : RestingOrder → RestingOrder
  /-- The ticks between the two readings around an op. -/
  ticks : Nat → Nat
  /-- The ticks of each busy wait, of the ticks it waits for. -/
  spun : Nat → Nat → Nat

/-- The book and the hash of a run, and the buffer its samples go to. -/
structure Pass where
  book : OrderBook
  tradeHash : UInt64 := kHashSeed
  samples : List Nat

/-- A bracket without the cost of an empty one. -/
def net (overhead dt : Nat) : Nat := if dt > overhead then dt - overhead else 0

section Runs

variable (f : Replayed) (overhead : Nat) (m : Machine)

/-- Op `i`, timed into `samples[i - begin]`; nothing where an exception leaves it, or an index is out of
range. -/
def timeOp (start : Nat) (p : Pass) (i : Nat) : Option Pass :=
  match f.ops[i]? with
  | none => none
  | some op =>
    match p.book.perform {} op.call with
    | .ok _ book =>
      if i - start < p.samples.length then
        (drainInto hashTrade book.tradeOut.size book.tradeOut p.tradeHash).map fun r =>
          { book := { book with tradeOut := r.2 }
            tradeHash := r.1
            samples := p.samples.set (i - start) (net overhead (m.ticks i)) }
      else none
    | .throws _ _ => none
    | .undefined => none

/-- `time_ops`: the ops from `start` up to `stop`. -/
def timeOps (start stop : Nat) (p : Pass) : Option Pass :=
  (List.range' start (stop - start)).foldlM (timeOp f overhead m start) p

/-- The samples of a kind, of those at the front of the buffer. -/
def byKind (samples : List Nat) (k : Flow.Kind) : List Nat :=
  (((f.ops.drop f.timedBegin).zip samples).filter fun s => decide (s.1.kind = k)).map Prod.snd

/-- One complete pass on a fresh book: build depth, warm up, time.  The buffer is the benchmark's. -/
def run (cfg : Lob.Config) (samples : List Nat) : Option (RunResult × List Nat) := do
  let book ← OrderBook.new m.scrub cfg
  let p ← timeOps f overhead m 0 f.build { book := book, samples := samples }
  -- recorded, then overwritten
  let p ← timeOps f overhead m f.build f.timedBegin p
  let p ← timeOps f overhead m f.timedBegin f.ops.length p
  let timed := p.samples.take f.timedCount
  -- the noise floor: as many waits, each for what an op takes
  let window ← median timed
  let all ← percentiles timed
  let add ← percentiles (byKind f timed .add)
  let cancel ← percentiles (byKind f timed .cancel)
  let modify ← percentiles (byKind f timed .modify)
  let marketable ← percentiles (byKind f timed .marketable)
  let spin ← percentiles ((List.range f.timedCount).map fun i => net overhead (m.spun window i))
  return (
    { rows := fun
        | .all => all
        | .kind .add => add
        | .kind .cancel => cancel
        | .kind .modify => modify
        | .kind .marketable => marketable
        | .spin => spin
      tradeHash := p.tradeHash
      dropped := p.book.tradeOut.dropCount
      windowBase := p.book.priceWindowBase
      openedOutside := p.book.levelsOpenedOutsideWindow
      growths := p.book.orderPoolGrowths + p.book.idIndexGrowths }, p.samples)

end Runs

/-- How the benchmark ends, when nothing else stops it. -/
inductive Outcome
  /-- The trade stream of a run does not match the generator's: numbers discarded. -/
  | discarded (run : Nat)
  | reported (results : List RunResult)

/-- The runs that are left, on the machines they find. -/
def runs (f : Replayed) (st : Stats) (overhead : Nat) (cfg : Lob.Config) :
    List Machine → List Nat → List RunResult → Option Outcome
  | [], _, results => some (.reported results)
  | m :: machines, samples, results =>
    match run f overhead m cfg samples with
    | none => none
    | some (res, samples) =>
      if res.tradeHash ≠ st.tradeHash ∨ res.dropped ≠ 0 then some (.discarded (results.length + 1))
      else runs f st overhead cfg machines samples (results ++ [res])

/-- The book every run is given: provisioned for twice the target depth. -/
def bookConfig (cfg : Flow.Config) (systemAlloc : Bool) (priceLevels : UInt64) : Lob.Config where
  selfTrade := cfg.selfTrade
  tradeCapacity := kTradeCapacity
  poolNodes := !systemAlloc
  expectedOrders := 2 * cfg.targetDepth
  priceLevels := priceLevels

/-- The buffer of samples, as the benchmark makes it. -/
def Replayed.samples (f : Replayed) : List Nat :=
  List.replicate (max f.build (max f.warmup f.timedCount)) 0

/-- A generated flow, as the benchmark reads it. -/
def replayed (cfg : Flow.Config) (g : Generator) : Replayed where
  ops := g.ops
  build := cfg.targetDepth.toNat
  warmup := cfg.warmupOps.toNat

/-- `main`, from the generated flow to its exit. -/
def bench (cfg : Flow.Config) (g : Generator) (st : Stats) (systemAlloc : Bool) (priceLevels : UInt64)
    (overhead : Nat) (machines : List Machine) : Option Outcome :=
  runs (replayed cfg g) st overhead (bookConfig cfg systemAlloc priceLevels) machines
    (replayed cfg g).samples []

/-- What `main` says of all runs together: where the flat array of the first landed, and the most levels
that one opened outside it and the most times that one grew. -/
def gaugeLines (results : List RunResult) : Option Price × UInt64 × Nat :=
  (results.head?.bind RunResult.windowBase,
    results.foldl (fun outside r => max outside r.openedOutside) 0,
    results.foldl (fun growths r => max growths r.growths) 0)

/-! ## Percentiles -/

section Percentiles

variable {v : List Nat} {ps : Points} {ppm : Nat}

/-- The points of a sample, each at its share of a million. -/
structure Reads (ps : Points) (v : List Nat) : Prop where
  length : ps.length = 5
  point : ∀ (j ppm x : Nat), kPointPpm[j]? = some ppm → ps[j]? = some x → IsPoint ppm 1000000 v x

theorem ppm_bounds : ∀ ppm ∈ kPointPpm, 0 < ppm ∧ ppm ≤ 1000000 := by decide

theorem sorted_mergeSort (v : List Nat) : v.mergeSort.Pairwise (· ≤ ·) := by
  have hsorted := @List.pairwise_mergeSort Nat (fun a b => decide (a ≤ b))
    (fun a b c hab hbc => decide_eq_true ((of_decide_eq_true hab).trans (of_decide_eq_true hbc)))
    (fun a b => by simpa using Nat.le_total a b) v
  exact hsorted.imp of_decide_eq_true

theorem mergeSort_ne_nil (hne : v ≠ []) : v.mergeSort ≠ [] := by
  intro hnil
  have hlen : v.mergeSort.length = v.length := List.length_mergeSort v
  rw [hnil] at hlen
  exact hne (List.length_eq_zero_iff.mp hlen.symm)

/-- What a map of a partial function yields, where that is defined throughout. -/
theorem mapM_returns {f : Nat → Option Nat} {xs : List Nat} (h : ∀ x ∈ xs, ∃ y, f x = some y) :
    ∃ ys, xs.mapM f = some ys ∧ ys.length = xs.length
      ∧ ∀ (j x y : Nat), xs[j]? = some x → ys[j]? = some y → f x = some y := by
  induction xs with
  | nil => exact ⟨[], rfl, rfl, by simp⟩
  | cons x xs ih =>
    obtain ⟨y, hy⟩ := h x List.mem_cons_self
    obtain ⟨ys, hmap, hlen, hall⟩ := ih fun x hx => h x (List.mem_cons_of_mem _ hx)
    refine ⟨y :: ys, ?_, by rw [List.length_cons, List.length_cons, hlen], fun j => ?_⟩
    · rw [List.mapM_cons, hy, hmap]
      rfl
    · cases j with
      | zero =>
        intro x' y' hx' hy'
        rw [← Option.some.inj hx', ← Option.some.inj hy', hy]
      | succ j => exact hall j

/-- **No percentile lies past the end**, even of a sample so large that its rank wraps. -/
theorem pointAt_returns (hv : v ≠ []) (hle : ppm ≤ 1000000) : ∃ x, pointAt v ppm = some x := by
  have hpos : 0 < v.length := List.length_pos_iff.mpr hv
  have hmul := Nat.mul_le_mul_left v.length hle
  refine ⟨_, List.getElem?_eq_getElem ?_⟩
  split <;> omega

theorem percentiles_returns (v : List Nat) : ∃ ps, percentiles v = some ps := by
  unfold percentiles
  by_cases hv : v.isEmpty = true
  · rw [if_pos hv]
    exact ⟨_, rfl⟩
  · rw [if_neg hv]
    have hne : v ≠ [] := fun hnil => hv (List.isEmpty_iff.mpr hnil)
    obtain ⟨ps, hps, -⟩ := mapM_returns fun ppm hppm =>
      pointAt_returns (mergeSort_ne_nil hne) (ppm_bounds ppm hppm).2
    exact ⟨ps, hps⟩

/-- **Percentiles are nearest-rank points** of the sample as it was given. -/
theorem percentiles_reads (hne : v ≠ []) (hfits : v.length * 1000000 + 999999 < 2 ^ 64)
    (h : percentiles v = some ps) : Reads ps v := by
  have hempty : ¬ v.isEmpty = true := fun he => hne (List.isEmpty_iff.mp he)
  have hsorted := mergeSort_ne_nil hne
  rw [percentiles, if_neg hempty] at h
  obtain ⟨ps', hps', hlen, hpoints⟩ :=
    mapM_returns fun ppm hppm => pointAt_returns hsorted (ppm_bounds ppm hppm).2
  obtain rfl : ps' = ps := Option.some.inj (hps'.symm.trans h)
  refine ⟨hlen, fun j ppm x hppm hx => ?_⟩
  obtain ⟨hpos, hle⟩ := ppm_bounds ppm (List.mem_of_getElem? hppm)
  have hlength : v.mergeSort.length = v.length := List.length_mergeSort v
  have hmul := Nat.mul_le_mul_left v.length hle
  have hrank : (v.mergeSort.length * ppm + 999999) % 2 ^ 64 / 1000000
      = rank ppm 1000000 v.mergeSort.length := by
    rw [hlength, Nat.mod_eq_of_lt (by omega)]
    rfl
  have hpositive := (rank_bounds hpos hle (List.length_pos_iff.mpr hsorted)).1
  have hpoint := hpoints j ppm x hppm hx
  rw [pointAt, hrank] at hpoint
  simp only [Nat.ne_of_gt hpositive, if_false] at hpoint
  exact (isPoint_of_sorted (sorted_mergeSort v) (by omega) hpositive hpoint).perm (List.mergeSort_perm v _)

/-- The points of a sample do not fall, and the last is its maximum. -/
theorem Reads.ordered (h : Reads ps v) : ps.Pairwise (· ≤ ·) ∧ ∀ x, ps[4]? = some x → ∀ n ∈ v, n ≤ x := by
  have hkinds : kPointPpm.Pairwise (· ≤ ·) := by decide
  have hlen : kPointPpm.length = ps.length := h.length.symm
  constructor
  · rw [List.pairwise_iff_getElem] at hkinds ⊢
    intro i j hi hj hij
    have hi' : i < kPointPpm.length := hlen ▸ hi
    have hj' : j < kPointPpm.length := hlen ▸ hj
    exact (h.point i _ _ (List.getElem?_eq_getElem hi') (List.getElem?_eq_getElem hi)).le_of_le
      (h.point j _ _ (List.getElem?_eq_getElem hj') (List.getElem?_eq_getElem hj)) (hkinds i j hi' hj' hij)
  · intro x hx
    exact (h.point 4 1000000 x rfl hx).greatest (by omega)

end Percentiles

/-! ## One run -/

section Passes

variable {f : Replayed} {overhead start n i : Nat} {m : Machine} {p : Pass} {e : Exchange 4096}
  {b' : OrderBook} {op : Op}

/-- **A timed op** is applied and drained like an emitted one, and writes one sample. -/
theorem timeOp_of_applied (overhead : Nat) (m : Machine) (h : p.book.Realizes e) (hop : f.ops[i]? = some op)
    (happly : applyDrained p.book op = some b') (hroom : i - start < p.samples.length) :
    timeOp f overhead m start p i = some
      { book := b'
        tradeHash := (emits p.book.policy e op).1.foldl hashTrade p.tradeHash
        samples := p.samples.set (i - start) (net overhead (m.ticks i)) } := by
  obtain ⟨-, -, reply, book, ring, hcall, rfl, hdrain⟩ := Realizes.applied h happly
  rw [timeOp, hop]
  simp only [hcall, if_pos hroom, hdrain, Option.map_some]

/-- The samples of `n` ops from `start` on. -/
def sampled (overhead : Nat) (m : Machine) (start n : Nat) : List Nat :=
  (List.range' start n).map fun i => net overhead (m.ticks i)

@[simp] theorem length_sampled (overhead : Nat) (m : Machine) (start n : Nat) :
    (sampled overhead m start n).length = n := by
  simp [sampled]

/-- The next sample takes the next place of the buffer. -/
theorem sampled_set {samples : List Nat} (hroom : n < samples.length) :
    (sampled overhead m start n ++ samples.drop n).set n (net overhead (m.ticks (start + n)))
      = sampled overhead m start (n + 1) ++ samples.drop (n + 1) := by
  have hnext : sampled overhead m start (n + 1)
      = sampled overhead m start n ++ [net overhead (m.ticks (start + n))] := by
    rw [sampled, List.range'_1_concat, List.map_append]
    rfl
  rw [hnext, List.drop_eq_getElem_cons hroom, List.set_append_right _ _ (by simp), length_sampled,
    Nat.sub_self, List.append_assoc]
  rfl

/-- What a stretch of `n` timed ops makes of a pass, and of the machine its book realizes. -/
structure Stretch (overhead : Nat) (m : Machine) (start : Nat) (ops : List Op) (p p' : Pass)
    (e e' : Exchange 4096) : Prop where
  tradeHash : p'.tradeHash
    = ((visits p.book.policy e.book ops).flatMap Prod.fst).foldl hashTrade p.tradeHash
  samples : p'.samples = sampled overhead m start ops.length ++ p.samples.drop ops.length
  realizes : p'.book.Realizes e'
  held : e'.ring.held = []
  through : e'.book = bookThrough p.book.policy e.book ops
  policy : p'.book.policy = p.book.policy

/-- The next op of a stretch. -/
theorem Stretch.step {ops : List Op} {p' : Pass} {e' : Exchange 4096}
    (h : Stretch overhead m start ops p p' e e') (hop : f.ops[start + ops.length]? = some op)
    (hroom : ops.length < p.samples.length) (happly : applyDrained p'.book op = some b') :
    ∃ p'' e'', timeOp f overhead m start p' (start + ops.length) = some p'' ∧ p''.book = b'
      ∧ Stretch overhead m start (ops ++ [op]) p p'' e e'' := by
  obtain ⟨hb', hkept, -⟩ := Realizes.applied h.realizes happly
  obtain ⟨htrades, hnext, hheld⟩ := emits_of_drained p'.book.policy h.held op
  have hplace : start + ops.length - start < p'.samples.length := by
    rw [h.samples, List.length_append, length_sampled, List.length_drop]
    omega
  have htime := timeOp_of_applied overhead m h.realizes hop happly hplace
  refine ⟨_, _, htime, rfl, ?_, ?_, hb', hheld, ?_, hkept.trans h.policy⟩
  · show (emits p'.book.policy e' op).1.foldl hashTrade p'.tradeHash = _
    rw [h.tradeHash, htrades, h.policy, h.through, visits_append, List.flatMap_append, List.foldl_append,
      visits, visits, List.flatMap_singleton]
  · show p'.samples.set _ _ = _
    rw [h.samples, Nat.add_sub_cancel_left, sampled_set hroom, List.length_append, List.length_singleton]
  · rw [hnext, h.policy, h.through, bookThrough, bookThrough, List.foldl_append]
    rfl

/-- **The run lemma**: a stretch of timed ops hashes what the machine hands out, and overwrites the front
of the buffer. -/
theorem timeOps_of_applied (overhead : Nat) (m : Machine) (h : p.book.Realizes e) (he : e.ring.held = [])
    (hlen : start + n ≤ f.ops.length) (hroom : n ≤ p.samples.length)
    (happly : ((f.ops.drop start).take n).foldlM applyDrained p.book = some b') :
    ∃ p' e', timeOps f overhead m start (start + n) p = some p' ∧ p'.book = b'
      ∧ Stretch overhead m start ((f.ops.drop start).take n) p p' e e' := by
  rw [timeOps, Nat.add_sub_cancel_left]
  induction n generalizing b' with
  | zero => exact ⟨p, e, rfl, Option.some.inj happly, rfl, rfl, h, he, rfl, rfl⟩
  | succ n ih =>
    have hget : f.ops[start + n]? = some f.ops[start + n] := List.getElem?_eq_getElem (by omega)
    have hlast : (f.ops.drop start).take (n + 1) = (f.ops.drop start).take n ++ [f.ops[start + n]] := by
      rw [List.take_add_one, List.getElem?_drop, hget]
      rfl
    have hsize : ((f.ops.drop start).take n).length = n := by
      rw [List.length_take, List.length_drop]
      omega
    rw [hlast, List.foldlM_append] at happly
    obtain ⟨b₁, hfirst, hop⟩ := Option.bind_eq_some_iff.mp happly
    obtain ⟨p₁, e₁, hfold, rfl, hstretch⟩ := ih (by omega) (by omega) hfirst
    have hop' : applyDrained p₁.book f.ops[start + n] = some b' := by
      rw [List.foldlM_cons] at hop
      obtain ⟨b₂, hb₂, hrest⟩ := Option.bind_eq_some_iff.mp hop
      rw [hb₂, Option.some.inj hrest]
    obtain ⟨p₂, e₂, htime, hbook, hstretch'⟩ := hstretch.step (f := f) (by rw [hsize]; exact hget)
      (by rw [hsize]; exact hroom) hop'
    rw [hsize] at htime
    refine ⟨p₂, e₂, ?_, hbook, hlast ▸ hstretch'⟩
    rw [List.range'_1_concat, List.foldlM_append, hfold]
    show ([start + n].foldlM (timeOp f overhead m start) p₁) = _
    rw [List.foldlM_cons, htime]
    rfl

/-- The readings of the ops that are timed, and of the waits for `window` ticks each. -/
def timed (f : Replayed) (overhead : Nat) (m : Machine) : List Nat :=
  sampled overhead m f.timedBegin f.timedCount

def spun (f : Replayed) (overhead : Nat) (m : Machine) (window : Nat) : List Nat :=
  (List.range f.timedCount).map fun i => net overhead (m.spun window i)

theorem median_returns {v : List Nat} (hpos : 0 < v.length) : ∃ window, median v = some window := by
  refine ⟨_, List.getElem?_eq_getElem ?_⟩
  rw [List.length_mergeSort]
  omega

/-- The gauges that a run reports. -/
def RunResult.shows (res : RunResult) (g : Gauges) : Prop :=
  res.windowBase = g.priceWindowBase ∧ res.openedOutside = g.levelsOpenedOutsideWindow
    ∧ res.growths = g.orderPoolGrowths + g.idIndexGrowths

/-- Draining a ring is popping from it, which is no call of the book. -/
theorem run_drained {b₀ b : OrderBook} {past : List Record} {fuel : Nat} {ring : TradeRing}
    (hdrain : drain fuel b.tradeOut = some ring) (hrun : Run b₀ past b) :
    ∃ past', Run b₀ past' { b with tradeOut := ring }
      ∧ bookCalls (past'.map Record.call) = bookCalls (past.map Record.call) := by
  induction fuel generalizing b past with
  | zero =>
    rw [drain] at hdrain
    split at hdrain
    · simp at hdrain
    · obtain rfl := Option.some.inj hdrain
      exact ⟨_, .call {} .pop _ _ hrun rfl, rfl⟩
  | succ fuel ih =>
    rw [drain] at hdrain
    split at hdrain
    · obtain ⟨past', hrun', hcalls⟩ := ih (b := { b with tradeOut := b.tradeOut.pop.2 }) hdrain
        (.call {} .pop _ _ hrun rfl)
      exact ⟨past', hrun', hcalls⟩
    · obtain rfl := Option.some.inj hdrain
      exact ⟨_, .call {} .pop _ _ hrun rfl, rfl⟩

/-- **Ops applied one after the other** are a run of their calls, and of pops. -/
theorem run_applied {b₀ b : OrderBook} {past : List Record} {ops : List Op} (hrun : Run b₀ past b)
    (happly : ops.foldlM applyDrained b = some b') :
    ∃ past', Run b₀ past' b'
      ∧ bookCalls (past'.map Record.call) = (ops.map Op.call).reverse ++ bookCalls (past.map Record.call) := by
  induction ops generalizing b past with
  | nil => exact ⟨past, Option.some.inj happly ▸ hrun, rfl⟩
  | cons op ops ih =>
    rw [List.foldlM_cons] at happly
    obtain ⟨b₁, hop, hrest⟩ := Option.bind_eq_some_iff.mp happly
    unfold applyDrained at hop
    split at hop
    · rename_i reply book hcall
      obtain ⟨ring, hdrain, rfl⟩ := Option.map_eq_some_iff.mp hop
      obtain ⟨past₁, hrun₁, hcalls₁⟩ := run_drained hdrain (.call {} op.call reply.1 reply.2 hrun hcall)
      obtain ⟨past', hrun', hcalls'⟩ := ih hrun₁ hrest
      refine ⟨past', hrun', ?_⟩
      rw [hcalls', hcalls₁, List.map_cons, bookCalls_cons op.call_ne_pop, List.map_cons,
        List.reverse_cons, List.append_assoc]
      rfl
    · simp at hop
    · simp at hop

/-- **The gauges after a flow**, wherever its trades were popped. -/
theorem gauges_applied {cfg : Lob.Config} {scrub : RestingOrder → RestingOrder} {b₀ : OrderBook}
    {ops : List Op} (hnew : OrderBook.new scrub cfg = some b₀)
    (happly : ops.foldlM applyDrained b₀ = some b') : b'.gauges.After cfg (ops.map Op.call).reverse := by
  obtain ⟨past, hrun, hcalls⟩ := run_applied .start happly
  have hafter := (hrun.gauges_after hnew).bookCalls
  rw [hcalls] at hafter
  rwa [show bookCalls (([] : List Record).map Record.call) = [] from rfl, List.append_nil] at hafter

/-- What a run reports, of the trades of the flow and the readings of its machine. -/
structure Replays (f : Replayed) (overhead : Nat) (m : Machine) (cfg : Lob.Config) (res : RunResult) :
    Prop where
  tradeHash : res.tradeHash = ((visits cfg.selfTrade {} f.ops).flatMap Prod.fst).foldl hashTrade kHashSeed
  all : percentiles (timed f overhead m) = some (res.rows .all)
  kind : ∀ k, percentiles (byKind f (timed f overhead m) k) = some (res.rows (.kind k))
  spin : ∃ window, median (timed f overhead m) = some window
    ∧ percentiles (spun f overhead m window) = some (res.rows .spin)
  gauges : ∃ g : Gauges, g.After cfg (f.ops.map Op.call).reverse ∧ res.shows g

/-- A flow in its three stretches. -/
theorem Replayed.ops_eq (f : Replayed) :
    f.ops = (f.ops.drop 0).take f.build ++ ((f.ops.drop f.build).take f.warmup
      ++ (f.ops.drop f.timedBegin).take f.timedCount) := by
  have hall : (f.ops.drop f.timedBegin).take f.timedCount = f.ops.drop f.timedBegin :=
    List.take_of_length_le (by rw [List.length_drop]; exact Nat.le_refl _)
  rw [hall, ← List.append_assoc, List.drop_zero, ← List.take_add]
  exact (List.take_append_drop f.timedBegin f.ops).symm

theorem stretches {b₀ : OrderBook} (happly : f.ops.foldlM applyDrained b₀ = some b') :
    ∃ b₁ b₂, ((f.ops.drop 0).take f.build).foldlM applyDrained b₀ = some b₁
      ∧ ((f.ops.drop f.build).take f.warmup).foldlM applyDrained b₁ = some b₂
      ∧ ((f.ops.drop f.timedBegin).take f.timedCount).foldlM applyDrained b₂ = some b' := by
  rw [f.ops_eq, List.foldlM_append] at happly
  obtain ⟨b₁, hbuild, hrest⟩ := Option.bind_eq_some_iff.mp happly
  rw [List.foldlM_append] at hrest
  obtain ⟨b₂, hwarm, htimed⟩ := Option.bind_eq_some_iff.mp hrest
  exact ⟨b₁, b₂, hbuild, hwarm, htimed⟩

/-- **A run returns**: it hashes every trade of the flow, and whatever the buffer held before, it reports
the readings of the timed ops alone. -/
theorem run_returns (overhead : Nat) {cfg : Lob.Config} {b₀ : OrderBook} {samples : List Nat}
    (hnew : OrderBook.new m.scrub cfg = some b₀) (hcapacity : cfg.tradeCapacity = kTradeCapacity)
    (happly : f.ops.foldlM applyDrained b₀ = some b') (hlen : f.timedBegin ≤ f.ops.length)
    (hpos : 0 < f.timedCount) (hroom : samples.length = f.samples.length) :
    ∃ res rest, run f overhead m cfg samples = some (res, rest) ∧ rest.length = f.samples.length
      ∧ res.dropped = b'.tradeOut.dropCount ∧ Replays f overhead m cfg res := by
  have hpolicy : b₀.policy = cfg.selfTrade := (new_follows hnew).2.1
  have hbegin : f.timedBegin = f.build + f.warmup := rfl
  have hcount : f.timedBegin + f.timedCount = f.ops.length := by
    rw [Replayed.timedCount]
    omega
  have hsize : samples.length = max f.build (max f.warmup f.timedCount) := by
    rw [hroom, Replayed.samples, List.length_replicate]
  have htake : ∀ start n, start + n ≤ f.ops.length → ((f.ops.drop start).take n).length = n := by
    intro start n hle
    rw [List.length_take, List.length_drop]
    omega
  obtain ⟨b₁, b₂, hbuild, hwarm, htimed⟩ := stretches happly
  obtain ⟨p₁, e₁, hrun₁, rfl, hs₁⟩ := timeOps_of_applied overhead m
    (p := { book := b₀, samples := samples }) (realizes_fresh hnew hcapacity) rfl (by omega)
    (show f.build ≤ samples.length by omega) hbuild
  have hlen₁ : p₁.samples.length = samples.length := by
    rw [hs₁.samples, List.length_append, length_sampled, List.length_drop, htake _ _ (by omega)]
    exact Nat.add_sub_cancel' (show f.build ≤ samples.length by omega)
  obtain ⟨p₂, e₂, hrun₂, rfl, hs₂⟩ := timeOps_of_applied overhead m
    hs₁.realizes hs₁.held (by omega) (show f.warmup ≤ p₁.samples.length by omega) hwarm
  have hlen₂ : p₂.samples.length = samples.length := by
    rw [hs₂.samples, List.length_append, length_sampled, List.length_drop, htake _ _ (by omega)]
    omega
  obtain ⟨p₃, e₃, hrun₃, rfl, hs₃⟩ := timeOps_of_applied overhead m
    hs₂.realizes hs₂.held (by omega) (show f.timedCount ≤ p₂.samples.length by omega) htimed
  have hsamples : p₃.samples.take f.timedCount = timed f overhead m := by
    rw [hs₃.samples, htake _ _ (by omega), List.take_append_of_le_length (by simp),
      List.take_of_length_le (by simp)]
    rfl
  obtain ⟨window, hwindow⟩ := median_returns (v := timed f overhead m) (by rwa [timed, length_sampled])
  obtain ⟨all, hall⟩ := percentiles_returns (timed f overhead m)
  obtain ⟨add, hadd⟩ := percentiles_returns (byKind f (timed f overhead m) .add)
  obtain ⟨cancel, hcancel⟩ := percentiles_returns (byKind f (timed f overhead m) .cancel)
  obtain ⟨modify, hmodify⟩ := percentiles_returns (byKind f (timed f overhead m) .modify)
  obtain ⟨marketable, hmarketable⟩ := percentiles_returns (byKind f (timed f overhead m) .marketable)
  obtain ⟨spin, hspin⟩ := percentiles_returns (spun f overhead m window)
  rw [Nat.zero_add] at hrun₁
  rw [hcount] at hrun₃
  have hrun : ∃ res, run f overhead m cfg samples = some (res, p₃.samples)
      ∧ res.tradeHash = p₃.tradeHash ∧ res.dropped = p₃.book.tradeOut.dropCount ∧ res.rows .all = all
      ∧ res.rows (.kind .add) = add ∧ res.rows (.kind .cancel) = cancel
      ∧ res.rows (.kind .modify) = modify ∧ res.rows (.kind .marketable) = marketable
      ∧ res.rows .spin = spin ∧ res.shows p₃.book.gauges := by
    rw [spun] at hspin
    rw [run, hnew]
    simp only [Option.bind_eq_bind, Option.bind_some, hrun₁]
    rw [hbegin, hrun₂, Option.bind_some, ← hbegin, hrun₃]
    simp only [Option.bind_some, hsamples, hwindow, hall, hadd, hcancel, hmodify, hmarketable, hspin]
    exact ⟨_, rfl, rfl, rfl, rfl, rfl, rfl, rfl, rfl, rfl, rfl, rfl, rfl⟩
  obtain ⟨res, hres, hhash, hdropped, rfl, rfl, rfl, rfl, rfl, rfl, hshows⟩ := hrun
  refine ⟨res, p₃.samples, hres, ?_, hdropped, ?_, hall, fun k => ?_, ⟨window, hwindow, hspin⟩, _,
    gauges_applied hnew happly, hshows⟩
  · rw [hs₃.samples, List.length_append, length_sampled, List.length_drop, htake _ _ (by omega), ← hroom]
    omega
  · rw [hhash, hs₃.tradeHash, hs₂.tradeHash, hs₁.tradeHash, hs₂.policy, hs₁.policy, hs₂.through,
      hs₁.through, hs₁.policy, hpolicy]
    conv_rhs =>
      rw [f.ops_eq, visits_append, visits_append, List.flatMap_append, List.flatMap_append,
        List.foldl_append, List.foldl_append]
  · cases k with
    | add => exact hadd
    | cancel => exact hcancel
    | modify => exact hmodify
    | marketable => exact hmarketable

end Passes

/-! ## The report of a run -/

section Report

variable {f : Replayed} {overhead : Nat} {m : Machine} {cfg : Lob.Config} {res : RunResult}
  {samples : List Nat} {k : Flow.Kind}

/-- The samples of all kinds, kind by kind. -/
def kindSamples (f : Replayed) (samples : List Nat) : List (List Nat) :=
  [.add, .cancel, .modify, .marketable].map (byKind f samples)

theorem mem_kindSamples (f : Replayed) (samples : List Nat) {v : List Nat} (hv : v ∈ kindSamples f samples) :
    ∃ k, byKind f samples k = v := by
  obtain ⟨k, -, rfl⟩ := List.mem_map.mp hv
  exact ⟨k, rfl⟩

/-- **Every sample has one kind.** -/
theorem kindSamples_perm (hlen : samples.length = f.timedCount) :
    (kindSamples f samples).flatten.Perm samples := by
  have hzip : ((f.ops.drop f.timedBegin).zip samples).map Prod.snd = samples :=
    List.map_snd_zip (by rw [List.length_drop, hlen]; exact Nat.le_refl _)
  have hcount : ∀ zs : List (Op × Nat), (([.add, .cancel, .modify, .marketable] : List Flow.Kind).map
      fun k => (zs.filter fun s => decide (s.1.kind = k)).map Prod.snd).flatten.Perm (zs.map Prod.snd) := by
    intro zs
    rw [List.perm_iff_count]
    intro n
    induction zs with
    | nil => rfl
    | cons z zs ih =>
      simp only [List.map_cons, List.map_nil, List.flatten_cons, List.flatten_nil, List.append_nil,
        List.count_append, List.filter_cons, List.count_cons] at ih ⊢
      cases hkind : z.1.kind <;> simp [List.count_cons] <;> omega
  have hall := hcount ((f.ops.drop f.timedBegin).zip samples)
  rwa [hzip] at hall

theorem length_byKind_le (f : Replayed) (samples : List Nat) (k : Flow.Kind) :
    (byKind f samples k).length ≤ samples.length := by
  rw [byKind, List.length_map]
  refine (List.length_filter_le _ _).trans ?_
  rw [List.length_zip]
  exact Nat.min_le_right _ _

/-- What the rows of a report say of the readings of its run. -/
structure RowsRead (f : Replayed) (overhead : Nat) (m : Machine) (res : RunResult) : Prop where
  all : Reads (res.rows .all) (timed f overhead m)
  kind : ∀ k, byKind f (timed f overhead m) k ≠ [] →
    Reads (res.rows (.kind k)) (byKind f (timed f overhead m) k)
  spin : ∃ window, median (timed f overhead m) = some window
    ∧ Reads (res.rows .spin) (spun f overhead m window)
  /-- No point of the row of all ops lies outside those of the kinds that occur. -/
  between : ∀ (j x : Nat), (res.rows .all)[j]? = some x →
    (∃ k y, byKind f (timed f overhead m) k ≠ [] ∧ (res.rows (.kind k))[j]? = some y ∧ y ≤ x)
      ∧ ∃ k y, byKind f (timed f overhead m) k ≠ [] ∧ (res.rows (.kind k))[j]? = some y ∧ x ≤ y

/-- **The rows of a report** are nearest-rank points of what was timed. -/
theorem Replays.rows (h : Replays f overhead m cfg res) (hpos : 0 < f.timedCount)
    (hfits : f.timedCount * 1000000 + 999999 < 2 ^ 64) : RowsRead f overhead m res := by
  have hlen : (timed f overhead m).length = f.timedCount := length_sampled ..
  obtain ⟨window, hwindow, hspin⟩ := h.spin
  have hspun : (spun f overhead m window).length = f.timedCount := by
    rw [spun, List.length_map, List.length_range]
  have hne : ∀ v : List Nat, v.length = f.timedCount → v ≠ [] := by
    rintro v hv rfl
    exact absurd hv (Nat.ne_of_lt hpos)
  have hall := percentiles_reads (hne _ hlen) (by rw [hlen]; exact hfits) h.all
  have hspin := percentiles_reads (hne _ hspun) (by rw [hspun]; exact hfits) hspin
  have hkind : ∀ k, byKind f (timed f overhead m) k ≠ [] →
      Reads (res.rows (.kind k)) (byKind f (timed f overhead m) k) := by
    intro k hk
    have hle := length_byKind_le f (timed f overhead m) k
    have hmul := Nat.mul_le_mul_right 1000000 (hlen ▸ hle)
    exact percentiles_reads hk (Nat.lt_of_le_of_lt (Nat.add_le_add_right hmul _) hfits) (h.kind k)
  refine ⟨hall, hkind, ⟨window, hwindow, hspin⟩, fun j x hx => ?_⟩
  have hj : j < 5 := by
    obtain ⟨hj, -⟩ := List.getElem?_eq_some_iff.mp hx
    exact hall.length ▸ hj
  have hppm : kPointPpm[j]? = some kPointPpm[j] := List.getElem?_eq_getElem hj
  have hwhole := (hall.point j _ x hppm hx).perm (kindSamples_perm hlen).symm
  -- the row of a kind is told from its samples
  have hread : ∀ k, byKind f (timed f overhead m) k ≠ [] →
      ∃ y, (res.rows (.kind k))[j]? = some y
        ∧ (((percentiles (byKind f (timed f overhead m) k)).bind (·[j]?)).getD 0) = y := by
    intro k hk
    have hj' : j < (res.rows (.kind k)).length := by
      rw [(hkind k hk).length]
      exact hj
    refine ⟨_, List.getElem?_eq_getElem hj', ?_⟩
    rw [h.kind k, Option.bind_some, List.getElem?_eq_getElem hj', Option.getD_some]
  have hparts : ∀ v ∈ kindSamples f (timed f overhead m), v ≠ [] →
      IsPoint kPointPpm[j] 1000000 v (((percentiles v).bind (·[j]?)).getD 0) := by
    intro v hv hne
    obtain ⟨k, rfl⟩ := mem_kindSamples f _ hv
    obtain ⟨y, hy, hval⟩ := hread k hne
    rw [hval]
    exact (hkind k hne).point j _ y hppm hy
  obtain ⟨⟨v, hv, hne, hle⟩, u, hu, hne', hge⟩ := hwhole.between hparts
  obtain ⟨k, rfl⟩ := mem_kindSamples f _ hv
  obtain ⟨k', rfl⟩ := mem_kindSamples f _ hu
  obtain ⟨y, hy, hval⟩ := hread k hne
  obtain ⟨y', hy', hval'⟩ := hread k' hne'
  exact ⟨⟨k, y, hne, hy, hval ▸ hle⟩, k', y', hne', hy', hval' ▸ hge⟩

end Report

/-! ## All the runs -/

section Benches

variable {cfg : Flow.Config} {scrub : RestingOrder → RestingOrder} {g : Generator} {b b₀ b₀' : OrderBook}
  {st : Stats} {book : Lob.Config} {overhead : Nat} {f : Replayed} {machines : List Machine}
  {systemAlloc : Bool} {priceLevels : UInt64} {results : List RunResult} {samples : List Nat}

/-- A book that the flow can be given leaves the book of a run with the trades it lost. -/
theorem replayed_book (hnew : OrderBook.new scrub book = some b₀') (hpolicy : book.selfTrade = b₀.policy)
    (hcapacity : book.tradeCapacity = kTradeCapacity) (h : b₀.Realizes ({} : Exchange 4096))
    (happly : f.ops.foldlM applyDrained b₀ = some b) :
    ∃ b', f.ops.foldlM applyDrained b₀' = some b' ∧ b'.tradeOut.dropCount = b.tradeOut.dropCount := by
  have hsame : b₀'.policy = b₀.policy := (new_follows hnew).2.1.trans hpolicy
  obtain ⟨b', e, hfold, hb, hb'⟩ := foldlM_applied_too h (realizes_fresh hnew hcapacity) hsame happly
  exact ⟨b', hfold, (hb.alike hb').dropped⟩

/-- What the generator's book lost, every run loses. -/
theorem runs_end (overhead : Nat) (st : Stats) (results : List RunResult)
    (hmade : ∀ m ∈ machines, ∃ b₀', OrderBook.new m.scrub book = some b₀')
    (hpolicy : book.selfTrade = b₀.policy) (hcapacity : book.tradeCapacity = kTradeCapacity)
    (h : b₀.Realizes ({} : Exchange 4096)) (happly : f.ops.foldlM applyDrained b₀ = some b)
    (hlen : f.timedBegin ≤ f.ops.length) (hpos : 0 < f.timedCount)
    (hroom : samples.length = f.samples.length)
    (hhash : st.tradeHash
      = ((visits b₀.policy {} f.ops).flatMap Prod.fst).foldl hashTrade kHashSeed) :
    (b.tradeOut.dropCount = 0 →
      ∃ rest, runs f st overhead book machines samples results = some (.reported (results ++ rest))
        ∧ List.Forall₂ (fun m res => Replays f overhead m book res) machines rest)
    ∧ (b.tradeOut.dropCount ≠ 0 → machines ≠ [] →
      runs f st overhead book machines samples results = some (.discarded (results.length + 1))) := by
  induction machines generalizing samples results with
  | nil => exact ⟨fun _ => ⟨[], by rw [runs, List.append_nil], .nil⟩, fun _ hne => absurd rfl hne⟩
  | cons m machines ih =>
    obtain ⟨b₀', hnew⟩ := hmade m List.mem_cons_self
    obtain ⟨b', hfold, hdropped⟩ := replayed_book hnew hpolicy hcapacity h happly
    obtain ⟨res, samples', hrun, hlen', hlost, hreplays⟩ :=
      run_returns overhead hnew hcapacity hfold hlen hpos hroom
    have hmatch : res.tradeHash = st.tradeHash := by rw [hreplays.tradeHash, hhash, hpolicy]
    rw [runs, hrun]
    simp only [hmatch, ne_eq, not_true_eq_false, false_or, hlost, hdropped]
    constructor
    · intro hzero
      rw [if_neg (not_not.mpr hzero)]
      obtain ⟨rest, hruns, hall⟩ := (ih _ (fun m hm => hmade m (List.mem_cons_of_mem _ hm)) hlen').1 hzero
      exact ⟨res :: rest, by rw [hruns, List.append_assoc]; rfl, .cons hreplays hall⟩
    · intro hne _
      rw [if_pos hne]

/-- The ends of a benchmark, by what the generator's own ring lost. -/
structure Ends (cfg : Flow.Config) (g : Generator) (st : Stats) (book : Lob.Config) (overhead : Nat)
    (machines : List Machine) (outcome : Option Outcome) : Prop where
  tradeHash : st.tradeHash
    = ((visits cfg.selfTrade {} g.ops).flatMap Prod.fst).foldl hashTrade kHashSeed
  reported : g.book.tradeOut.dropCount = 0 → ∃ results, outcome = some (.reported results)
    ∧ List.Forall₂ (fun m res => Replays (replayed cfg g) overhead m book res) machines results
  discarded : g.book.tradeOut.dropCount ≠ 0 → machines ≠ [] → outcome = some (.discarded 1)

/-- The flow fits a vector, so the book for it can be constructed. -/
theorem new_bookConfig (hgen : generate cfg scrub = some g) (m : Machine) :
    ∃ b₀, OrderBook.new m.scrub (bookConfig cfg systemAlloc priceLevels) = some b₀ := by
  obtain ⟨b₀, -, htraced⟩ := generate_traced hgen
  have hdepth : cfg.targetDepth.toNat ≤ maxOps := by
    have hlen := htraced.length
    have hroom := htraced.room
    omega
  apply new_returns m.scrub
  · show (2 * cfg.targetDepth).toNat ≤ 2 ^ 62
    have htwo : (2 : UInt64).toNat = 2 := rfl
    rw [UInt64.toNat_mul, htwo]
    unfold maxOps at hdepth
    omega
  · exact (by decide : 4096 ≤ 2 ^ 63)

theorem bench_ends (systemAlloc : Bool) (priceLevels : UInt64) (overhead : Nat) (machines : List Machine)
    (hops : 0 < cfg.ops) (hgen : generate cfg scrub = some g) :
    ∃ b₀ st, shadow cfg scrub = some b₀ ∧ observe cfg b₀ g.ops = some (st, g.book)
      ∧ (replayed cfg g).timedCount = cfg.ops.toNat
      ∧ Ends cfg g st (bookConfig cfg systemAlloc priceLevels) overhead machines
        (bench cfg g st systemAlloc priceLevels overhead machines) := by
  obtain ⟨b₀, hshadow, htraced⟩ := generate_traced hgen
  have hpolicy : b₀.policy = cfg.selfTrade := (new_follows hshadow).2.1
  have hfresh := realizes_fresh hshadow rfl
  obtain ⟨w, w', hobserve, htally, -, hhash, -⟩ := observe_tallies cfg hfresh htraced.book
  have hst : w'.tradeHash
      = ((visits b₀.policy {} g.ops).flatMap Prod.fst).foldl hashTrade kHashSeed := by
    rw [htally.hash, hhash]
    conv_rhs => rw [← List.take_append_drop (untimed cfg) g.ops, visits_append, List.flatMap_append,
      List.foldl_append]
    rfl
  have hbegin : (replayed cfg g).timedBegin ≤ (replayed cfg g).ops.length := by
    show cfg.targetDepth.toNat + cfg.warmupOps.toNat ≤ g.ops.length
    rw [htraced.length]
    exact Nat.le_add_right _ _
  have hcount : (replayed cfg g).timedCount = cfg.ops.toNat := by
    show g.ops.length - untimed cfg = cfg.ops.toNat
    rw [htraced.length]
    exact Nat.add_sub_cancel_left ..
  have hmade : ∀ m ∈ machines,
      ∃ b₁, OrderBook.new m.scrub (bookConfig cfg systemAlloc priceLevels) = some b₁ :=
    fun m _ => new_bookConfig hgen m
  have hend := runs_end (f := replayed cfg g) overhead (w'.report (g.ops.foldl hashOp kHashSeed)) []
    hmade hpolicy.symm rfl hfresh htraced.book hbegin (hcount ▸ hops) rfl hst
  exact ⟨b₀, _, hshadow, hobserve, hcount, hpolicy ▸ hst, hend.1, hend.2⟩

/-- A machine whose clock moves a tick an op, and 30 past each wait. -/
def steady : Machine where
  scrub := id
  ticks i := 40 + i
  spun window _ := window + 30

theorem brief_generates : ∃ g, generate brief id = some g ∧ g.book.tradeOut.dropCount = 0 := by
  have hlost : (generate brief id).map (fun g => g.book.tradeOut.dropCount) = some 0 := by decide +kernel
  exact Option.map_eq_some_iff.mp hlost

/-- **What the benchmark prints is so**: the rows of every reported run are nearest-rank points of the
readings its own machine gave of the timed ops, of all and of each kind, whatever was recorded before
them; the points of a row do not fall, the last is the maximum, and no point of the row of all ops lies
outside those of the kinds. -/
theorem reported_rows (systemAlloc : Bool) (priceLevels : UInt64) (overhead : Nat)
    (machines : List Machine) (hops : 0 < cfg.ops) (hgen : generate cfg scrub = some g)
    (hfits : cfg.ops.toNat * 1000000 + 999999 < 2 ^ 64) :
    ∃ b₀ st, shadow cfg scrub = some b₀ ∧ observe cfg b₀ g.ops = some (st, g.book)
      ∧ ∀ results, bench cfg g st systemAlloc priceLevels overhead machines = some (.reported results) →
        List.Forall₂ (fun m res => RowsRead (replayed cfg g) overhead m res
          ∧ (res.rows .all).Pairwise (· ≤ ·)
          ∧ ∀ x, (res.rows .all)[4]? = some x → ∀ n ∈ timed (replayed cfg g) overhead m, n ≤ x)
          machines results := by
  obtain ⟨b₀, st, hshadow, hobserve, hcount, hend⟩ :=
    bench_ends systemAlloc priceLevels overhead machines hops hgen
  refine ⟨b₀, st, hshadow, hobserve, fun results hreported => ?_⟩
  by_cases hzero : g.book.tradeOut.dropCount = 0
  · obtain ⟨results', hreported', hall⟩ := hend.reported hzero
    rw [hreported'] at hreported
    obtain rfl := Outcome.reported.inj (Option.some.inj hreported)
    refine hall.imp fun m res h => ?_
    have hrows := h.rows (hcount ▸ hops) (by rw [hcount]; exact hfits)
    exact ⟨hrows, hrows.all.ordered⟩
  · by_cases hnil : machines = []
    · subst hnil
      obtain rfl := Outcome.reported.inj (Option.some.inj hreported)
      exact .nil
    · rw [hend.discarded hzero hnil] at hreported
      simp at hreported

/-- The rows of the run above. -/
theorem reported_rows_brief : ∃ g b₀ st res, generate brief id = some g
    ∧ observe brief b₀ g.ops = some (st, g.book)
    ∧ bench brief g st false 16 20 [steady] = some (.reported [res])
    ∧ RowsRead (replayed brief g) 20 steady res := by
  obtain ⟨g, hgen, hnone⟩ := brief_generates
  obtain ⟨b₀, st, hshadow, hobserve, hrows⟩ := reported_rows false 16 20 [steady] (by decide) hgen (by decide)
  obtain ⟨b₀', st', hshadow', hobserve', -, hend⟩ := bench_ends false 16 20 [steady] (by decide) hgen
  obtain rfl : b₀ = b₀' := Option.some.inj (hshadow.symm.trans hshadow')
  obtain ⟨rfl, -⟩ : st = st' ∧ _ := Prod.mk.inj (Option.some.inj (hobserve.symm.trans hobserve'))
  obtain ⟨results, hreported, -⟩ := hend.reported hnone
  obtain ⟨res, rest, hres, hrest, rfl⟩ := List.forall₂_cons_left_iff.mp (hrows results hreported)
  obtain rfl := List.forall₂_nil_left_iff.mp hrest
  exact ⟨g, b₀, st, res, hgen, hobserve, hreported, hres.1⟩

/-- The maximum of readings that are all the same. -/
theorem foldl_max {α : Type} [Max α] (read : RunResult → α) {zero x : α} (hzero : max zero x = x)
    (hself : max x x = x) (hsame : ∀ res ∈ results, read res = x) (hne : results ≠ []) :
    results.foldl (fun most res => max most (read res)) zero = x := by
  have hrest : ∀ rest : List RunResult, (∀ res ∈ rest, read res = x) →
      rest.foldl (fun most res => max most (read res)) x = x := by
    intro rest hrest
    induction rest with
    | nil => rfl
    | cons res rest ih =>
      rw [List.foldl_cons, hrest res List.mem_cons_self, hself]
      exact ih fun res hres => hrest res (List.mem_cons_of_mem _ hres)
  cases results with
  | nil => exact absurd rfl hne
  | cons res rest =>
    rw [List.foldl_cons, hsame res List.mem_cons_self, hzero]
    exact hrest rest fun res hres => hsame res (List.mem_cons_of_mem _ hres)

/-- Every run shows the gauges that the flow's calls settle. -/
theorem shows_alike {gs : Gauges} (hgs : gs.After book (f.ops.map Op.call).reverse)
    (hall : List.Forall₂ (fun m res => Replays f overhead m book res) machines results) :
    ∀ res ∈ results, res.shows gs := by
  induction hall with
  | nil => simp
  | cons h _ ih =>
    intro res hres
    rcases List.mem_cons.mp hres with rfl | hres
    · obtain ⟨gs', hgs', hshows⟩ := h.gauges
      exact hgs'.unique hgs ▸ hshows
    · exact ih res hres

theorem gaugeLines_eq {gs : Gauges} (hne : results ≠ []) (hshows : ∀ res ∈ results, res.shows gs) :
    gaugeLines results = (gs.priceWindowBase, gs.levelsOpenedOutsideWindow,
      gs.orderPoolGrowths + gs.idIndexGrowths) := by
  have hmax : ∀ x y : UInt64, x ≤ y → max x y = y := fun x y hle => if_pos hle
  have houtside := foldl_max RunResult.openedOutside (hmax 0 _ UInt64.zero_le)
    (hmax _ _ (UInt64.le_refl _)) (fun res hres => (hshows res hres).2.1) hne
  have hgrowths := foldl_max RunResult.growths (Nat.zero_max _) (Nat.max_self _)
    (fun res hres => (hshows res hres).2.2) hne
  cases results with
  | nil => exact absurd rfl hne
  | cons res rest =>
    rw [gaugeLines, houtside, hgrowths]
    exact congrArg (·, _) (hshows res List.mem_cons_self).1

/-- **One run speaks for all**: every reported run shows the gauges that the flow's calls settle, whatever
its machine brought, so what is printed of the first run or of the most of them is so of each; and no
growth is warned of exactly when the flow at no time left more orders resting than the book was made for. -/
theorem one_run_speaks_for_all (systemAlloc : Bool) (priceLevels : UInt64) (overhead : Nat)
    (machines : List Machine) (hops : 0 < cfg.ops) (hruns : machines ≠ [])
    (hgen : generate cfg scrub = some g) :
    ∃ b₀ st, shadow cfg scrub = some b₀ ∧ observe cfg b₀ g.ops = some (st, g.book)
      ∧ ∀ results, bench cfg g st systemAlloc priceLevels overhead machines = some (.reported results) →
        ∃ gs : Gauges, gs.After (bookConfig cfg systemAlloc priceLevels) (g.ops.map Op.call).reverse
          ∧ (∀ res ∈ results, res.shows gs)
          ∧ gaugeLines results = (gs.priceWindowBase, gs.levelsOpenedOutsideWindow,
            gs.orderPoolGrowths + gs.idIndexGrowths)
          ∧ ((gaugeLines results).2.2 = 0 ↔
            PriorityBook.deepest cfg.selfTrade (g.ops.map Op.call).reverse
              ≤ provisionOf (bookConfig cfg systemAlloc priceLevels)) := by
  obtain ⟨b₀, st, hshadow, hobserve, -, hend⟩ :=
    bench_ends systemAlloc priceLevels overhead machines hops hgen
  refine ⟨b₀, st, hshadow, hobserve, fun results hreported => ?_⟩
  by_cases hzero : g.book.tradeOut.dropCount = 0
  · obtain ⟨results', hreported', hall⟩ := hend.reported hzero
    rw [hreported'] at hreported
    obtain rfl := Outcome.reported.inj (Option.some.inj hreported)
    obtain ⟨m, machines, rfl⟩ := List.exists_cons_of_ne_nil hruns
    obtain ⟨res, rest, hres, -, hcons⟩ := List.forall₂_cons_left_iff.mp hall
    obtain ⟨gs, hgs, -⟩ := hres.gauges
    have hshows := shows_alike hgs hall
    have hlines := gaugeLines_eq (hcons ▸ List.cons_ne_nil res rest) hshows
    obtain ⟨b₁, hnew⟩ := new_bookConfig hgen m
    refine ⟨gs, hgs, hshows, hlines, ?_⟩
    rw [hlines]
    exact hgs.grown_iff (new_provisioned_room hnew).1
  · rw [hend.discarded hzero hruns] at hreported
    simp at hreported

/-- Two runs of the flow above, on machines apart. -/
theorem one_run_speaks_for_all_brief : ∃ g b₀ st results gs, generate brief id = some g
    ∧ observe brief b₀ g.ops = some (st, g.book)
    ∧ bench brief g st false 16 20 [steady, { steady with scrub := fun _ => ⟨9, 9, 9, 9⟩ }]
      = some (.reported results)
    ∧ results.length = 2 ∧ ∀ res ∈ results, res.shows gs := by
  obtain ⟨g, hgen, hnone⟩ := brief_generates
  obtain ⟨b₀, st, hshadow, hobserve, hlines⟩ :=
    one_run_speaks_for_all false 16 20 _ (by decide) (List.cons_ne_nil _ _) hgen
  obtain ⟨b₀', st', hshadow', hobserve', -, hend⟩ := bench_ends false 16 20 _ (by decide) hgen
  obtain rfl : b₀ = b₀' := Option.some.inj (hshadow.symm.trans hshadow')
  obtain ⟨rfl, -⟩ : st = st' ∧ _ := Prod.mk.inj (Option.some.inj (hobserve.symm.trans hobserve'))
  obtain ⟨results, hreported, hall⟩ := hend.reported hnone
  obtain ⟨gs, -, hshows, -⟩ := hlines results hreported
  exact ⟨g, b₀, st, results, gs, hgen, hobserve, hreported, hall.length_eq.symm, hshows⟩

end Benches

end Lob.Bench
