/-
# Lob.DiffHarness — the differential tests of the engine against the naive book.

The same operations are run on a fresh engine and on a fresh reference book, and everything either shows
is compared: the trades, the report of each operation, the resting orders.  The engine hands its trades
out through a ring, the reference keeps all of them.  That is the only difference the harness can find,
so a divergence it shrinks is a list of operations that overflows the ring.

An exception or a failed assertion leaves the harness, which then has no answer; it is given every
allocation it asks for.
-/
import Lob.Lib.Shrink
import Lob.Flow
import Lob.ReferenceRun
import Lob.Returns

namespace Lob.Difftest

open OrderBook Lib

/-! ## The source's data and operations -/

inductive Kind
  | addLimit
  | addMarket
  | cancel
  | modify
  deriving DecidableEq, Repr

structure Op where
  kind : Kind
  id : OrderId
  owner : ParticipantId
  side : Side
  price : Price
  qty : Quantity
  deriving DecidableEq, Repr

/-- The call an operation makes of either book. -/
def Op.call (op : Op) : Call :=
  match op.kind with
  | .addLimit => .addLimit op.id op.owner op.side op.price op.qty
  | .addMarket => .addMarket op.id op.owner op.side op.qty
  | .cancel => .cancel op.id
  | .modify => .modify op.id op.price op.qty

structure Row where
  side : UInt64
  price : UInt64
  id : UInt64
  qty : UInt64
  deriving DecidableEq, Repr

/-- The owner of a resting order is not compared. -/
def row (side : Side) (price : Price) (id : OrderId) (qty : Quantity) : Row :=
  ⟨if side = .buy then 0 else 1, price, id, qty.toUInt64⟩

/-- Everything observable about a run. -/
structure Observed where
  trades : List Trade
  reports : List ExecReport
  /-- In queue order. -/
  queue : List Row
  deriving DecidableEq, Repr

/-- The operations on the engine, whose assertions are checked after each. -/
def driveEngine : List Op → OrderBook → List ExecReport → Option (List ExecReport × OrderBook)
  | [], b, reports => some (reports, b)
  | op :: ops, b, reports =>
    match b.perform {} op.call with
    | .ok (reply, _) b =>
      if b.checkInvariants then driveEngine ops b (reports ++ [Flow.reportOf reply]) else none
    | .throws _ _ => none
    | .undefined => none

/-- `while (book.trades().pop(t))`, with a bound on the passes. -/
def drain : Nat → TradeRing → Option (List Trade × TradeRing)
  | 0, _ => none
  | fuel + 1, ring =>
    match ring.pop with
    | (none, ring) => some ([], ring)
    | (some t, ring) => (drain fuel ring).map fun p => (t :: p.1, p.2)

def runEngine (scrub : RestingOrder → RestingOrder) (ops : List Op) (cfg : Config) :
    Option Observed :=
  match OrderBook.new scrub cfg with
  | none => none
  | some b =>
    match driveEngine ops b [] with
    | none => none
    | some (reports, b) =>
      match drain (b.tradeOut.size + 1) b.tradeOut with
      | none => none
      | some (trades, ring) =>
        OrderBook.forEachResting { b with tradeOut := ring } |>.map fun resting =>
          ⟨trades, reports, resting.map fun o => row o.side o.price o.id o.qty⟩

/-- The operations on the reference book. -/
def driveReference : List Op → ReferenceBook → List ExecReport →
    Option (List ExecReport × ReferenceBook)
  | [], b, reports => some (reports, b)
  | op :: ops, b, reports =>
    match b.perform op.call with
    | some (reply, b) => driveReference ops b (reports ++ [Flow.reportOf reply])
    | none => none

def runReference (ops : List Op) (policy : SelfTradePolicy) : Option Observed :=
  (driveReference ops { policy := policy } []).map fun p =>
    ⟨p.2.tradeLog, p.1, p.2.queueSnapshot.map fun r => row r.side r.price r.id r.qty⟩

/-- True when the two implementations disagree. -/
def diverges (scrub : RestingOrder → RestingOrder) (ops : List Op) (cfg : Config) : Option Bool :=
  match runEngine scrub ops cfg, runReference ops cfg.selfTrade with
  | some engine, some reference => some !(engine == reference)
  | _, _ => none

/-- Greedy delta debugging: drop operations while the divergence survives. -/
def shrink (scrub : RestingOrder → RestingOrder) (failing : List Op) (cfg : Config) :
    Option (List Op) :=
  Shrink.shrink (fun ops => diverges scrub ops cfg) failing

/-! ## Two books abreast -/

section Driving

variable {scrub : RestingOrder → RestingOrder} {cfg : Config} {b₀ b : OrderBook} {past : List Record}
  {ref : ReferenceBook} {Q₀ : Layout} {free₀ : List SlotIndex} {ops : List Op}

theorem Op.call_ne_pop (op : Op) : op.call ≠ .pop := by
  unfold Op.call
  cases op.kind <;> simp

/-- The engine and the reference after the same calls. -/
structure Abreast (b₀ : OrderBook) (past : List Record) (b : OrderBook) (ref : ReferenceBook) :
    Prop where
  run : Run b₀ past b
  mirrors : ∃ stamp, ref.Mirrors (replayOf b₀ past) stamp (rested past)
  log : ref.tradeLog = emitted past
  policy : ref.policy = b₀.policy

/-- **The step lemma**: both books answer the next operation, alike, and the engine passes its check. -/
theorem Abreast.step (h₀ : b₀.Follows {} Q₀ free₀) (h : Abreast b₀ past b ref)
    (hroom : past.length < 2 ^ 31) (op : Op) :
    ∃ r ref', b.perform {} op.call = .ok (r.reply, r.events) r.after
      ∧ r.after.checkInvariants = true ∧ ref.perform op.call = some (r.reply, ref')
      ∧ r.call = op.call ∧ Abreast b₀ (r :: past) r.after ref' := by
  obtain ⟨reply, events, b', hok⟩ := h.run.perform_granted h₀ hroom op.call
  let r : Record := ⟨b, op.call, reply, events, b'⟩
  have hrun : Run b₀ (r :: past) b' := .call {} op.call reply events h.run hok
  have hrec : Recorded ref.policy (replayOf b₀ past) r := by
    rw [h.policy]
    exact hrun.recorded_head h₀
  -- so few calls cannot use up the arrival numbers of the reference
  have hrested : rested (r :: past) < 2 ^ 64 := by
    have hle := rested_le_length (r :: past)
    rw [List.length_cons] at hle
    omega
  obtain ⟨stamp, hmirrors⟩ := h.mirrors
  obtain ⟨answer, ref', stamp', hperf, hsame, hmirrors', hlog, hkept⟩ :=
    hrec.answered (h.run.inOrder h₀).2 hmirrors hrested
  obtain rfl : reply = answer := hsame op.call_ne_pop
  obtain ⟨⟨Q, free, hf⟩, -⟩ := hrun.follows h₀
  refine ⟨r, ref', hok, hf.checkInvariants (hrun.inOrder h₀).2, hperf, rfl, hrun, ⟨stamp', ?_⟩, ?_,
    hkept.trans h.policy⟩
  · rw [h.policy] at hmirrors'
    exact hmirrors'
  · rw [hlog, h.log]
    rfl

/-- **The run lemma**: the two loops return, with the same reports. -/
theorem Abreast.drive (h₀ : b₀.Follows {} Q₀ free₀) (h : Abreast b₀ past b ref) (ops : List Op)
    (hroom : past.length + ops.length ≤ 2 ^ 31) (reports : List ExecReport) :
    ∃ reports' newer b' ref', driveEngine ops b reports = some (reports', b')
      ∧ driveReference ops ref reports = some (reports', ref') ∧ newer.length = ops.length
      ∧ (∀ r ∈ newer, r.call ≠ .pop) ∧ Abreast b₀ (newer ++ past) b' ref' := by
  induction ops generalizing past b ref reports with
  | nil => exact ⟨reports, [], b, ref, rfl, rfl, rfl, by simp, h⟩
  | cons op ops ih =>
    rw [List.length_cons] at hroom
    obtain ⟨r, ref₁, hok, hchecked, hperf, hcall, hnext⟩ := h.step h₀ (by omega) op
    obtain ⟨reports', newer, b', ref', hengine, hreference, hlen, hpops, hend⟩ :=
      ih hnext (by rw [List.length_cons]; omega) (reports ++ [Flow.reportOf r.reply])
    refine ⟨reports', newer ++ [r], b', ref', ?_, ?_, ?_, ?_, ?_⟩
    · rw [driveEngine, hok]
      simp only [hchecked, if_true]
      exact hengine
    · rw [driveReference, hperf]
      exact hreference
    · rw [List.length_append, List.length_singleton, hlen, List.length_cons]
    · intro r' hr'
      rcases List.mem_append.mp hr' with hr' | hr'
      · exact hpops r' hr'
      · rw [List.mem_singleton.mp hr', hcall]
        exact op.call_ne_pop
    · rw [List.append_assoc]
      exact hend

/-! ## The ring of a run without pops -/

/-- A ring that nobody pops holds the oldest trades. -/
theorem shows_emitted {capacity : Nat} {q : BoundedQueue Trade capacity}
    (h₀ : b₀.Follows {} Q₀ free₀) (hshows : b₀.tradeOut.Shows q) (hrun : Run b₀ past b)
    (hpops : ∀ r ∈ past, r.call ≠ .pop) : b.tradeOut.Shows (q.burst (emitted past)) := by
  induction past generalizing b with
  | nil =>
    obtain rfl := Run.unique hrun .start
    exact hshows
  | cons r past ih =>
    obtain ⟨rfl, hrun', mem, hcall⟩ := hrun.cons_inv
    obtain ⟨⟨Q, free, hf⟩, -⟩ := hrun'.follows h₀
    have hbefore := ih hrun' fun r' hr' => hpops r' (List.mem_cons_of_mem r hr')
    have hafter := hf.shows hcall (hpops r List.mem_cons_self) hbefore
    rw [BoundedQueue.burst, BoundedQueue.burst, ← List.foldl_append] at hafter
    exact hafter

/-- Draining a ring yields what it holds. -/
theorem drain_eq : ∀ (fuel : Nat) (ring : TradeRing), ring.size < fuel →
    ∃ ring', drain fuel ring = some (ring.contents, ring') := by
  intro fuel
  induction fuel with
  | zero =>
    intro ring hfuel
    omega
  | succ fuel ih =>
    intro ring hfuel
    unfold drain
    by_cases hempty : ring.empty = true
    · have hnil : ring.contents = [] := by
        rw [← List.length_eq_zero_iff, TradeRing.length_contents]
        exact TradeRing.size_eq_zero.mpr hempty
      rw [TradeRing.pop_of_empty hempty, hnil]
      exact ⟨ring, rfl⟩
    · obtain ⟨t, ring₁, hpop, hcontents, -⟩ := TradeRing.pop_spec (by simpa using hempty)
      have hlen := congrArg List.length hcontents
      rw [List.length_cons, TradeRing.length_contents, TradeRing.length_contents] at hlen
      obtain ⟨ring', hdrain⟩ := ih ring₁ (by omega)
      rw [hpop, hcontents]
      simp only [hdrain]
      exact ⟨ring', rfl⟩

/-! ## What the harness compares -/

/-- The rows of the two books are the same. -/
theorem row_toOrder (resting : List Resting) :
    (resting.map Resting.toOrder).map (fun o => row o.side o.price o.id o.qty)
      = resting.map fun r => row r.side r.price r.id r.qty := by
  rw [List.map_map]
  rfl

/-- **Both runs end**, and the engine shows what the reference shows, but for the trades that found no
room in the ring. -/
theorem runs_abreast (ops : List Op) (hnew : OrderBook.new scrub cfg = some b₀)
    (hlen : ops.length ≤ 2 ^ 31) :
    ∃ obs, runReference ops cfg.selfTrade = some obs
      ∧ runEngine scrub ops cfg = some { obs with trades := obs.trades.take b₀.tradeOut.bufferSize }
      ∧ obs.trades.length ≤ ops.length := by
  obtain ⟨h₀, hpolicy, hring, -⟩ := new_follows hnew
  have hstart : Abreast b₀ [] b₀ { policy := cfg.selfTrade } := by
    refine ⟨.start, ⟨fun _ => 0, ?_⟩, rfl, hpolicy.symm⟩
    exact ReferenceBook.mirrors_new cfg.selfTrade
  obtain ⟨reports, past, b, ref, hengine, hreference, hcount, hpops, hend⟩ :=
    hstart.drive h₀ ops (by rw [List.length_nil]; omega) []
  rw [List.append_nil] at hend
  obtain ⟨⟨Q, free, hf⟩, -⟩ := hend.run.follows h₀
  obtain ⟨stamp, hmirrors⟩ := hend.mirrors
  have hqueue := (hf.agrees hmirrors).queue
  have hshows := shows_emitted h₀ (TradeRing.shows_new hring) hend.run hpops
  have hheld : b.tradeOut.contents = ref.tradeLog.take b₀.tradeOut.bufferSize := by
    rw [hshows.held, (BoundedQueue.burst_eq _ _).1, hend.log]
    rfl
  obtain ⟨ring, hdrain⟩ := drain_eq (b.tradeOut.size + 1) b.tradeOut (Nat.lt_succ_self _)
  refine ⟨⟨ref.tradeLog, reports, ref.queueSnapshot.map fun r => row r.side r.price r.id r.qty⟩,
    ?_, ?_, ?_⟩
  · rw [runReference, hreference]
    rfl
  · -- the queues do not read the ring
    have hdrained : OrderBook.Follows { b with tradeOut := ring } (replayOf b₀ past) Q free :=
      ⟨hf.linked.congr rfl rfl fun s => by cases s <;> rfl, hf.settled, hf.live, hf.queue, hf.nextSeq⟩
    have hsame := hdrained.forEachResting.trans hf.forEachResting.symm
    rw [runEngine, hnew]
    simp only [hengine, hdrain, hsame, hqueue, Option.map_some, row_toOrder, hheld]
  · have hall : Run b₀ (past ++ []) b := by
      rw [List.append_nil]
      exact hend.run
    have hpaid := Run.paid_for h₀ .start hall
    have hempty : b₀.size = 0 := h₀.size
    have hoffers : offers past ≤ past.length := List.countP_le_length
    show ref.tradeLog.length ≤ ops.length
    rw [hend.log]
    omega

/-- **The comparison** fails exactly on a ring that overflows. -/
theorem diverges_eq {obs : Observed}
    (hreference : runReference ops cfg.selfTrade = some obs)
    (hengine : runEngine scrub ops cfg
      = some { obs with trades := obs.trades.take b₀.tradeOut.bufferSize }) :
    diverges scrub ops cfg = some (decide (b₀.tradeOut.bufferSize < obs.trades.length)) := by
  rw [diverges, hengine, hreference]
  simp only [Option.some.injEq]
  by_cases hfull : b₀.tradeOut.bufferSize < obs.trades.length
  · have hne : ({ obs with trades := obs.trades.take b₀.tradeOut.bufferSize } : Observed) ≠ obs := by
      intro heq
      have hlen := congrArg (fun o : Observed => o.trades.length) heq
      simp only [List.length_take] at hlen
      omega
    rw [decide_eq_true hfull, beq_eq_false_iff_ne.mpr hne]
    rfl
  · rw [decide_eq_false hfull, List.take_of_length_le (Nat.not_lt.mp hfull)]
    simp

/-- **The only divergence there is**: for every configuration a book can be made with and every list of
operations, both runs end without an exception or a failed assertion, and they differ exactly when the
reference printed more trades than the engine's ring holds; never when there are no more operations
than that. -/
theorem diverges_iff_ring_overflows (ops : List Op) (hnew : OrderBook.new scrub cfg = some b₀)
    (hlen : ops.length ≤ 2 ^ 31) :
    ∃ obs, runReference ops cfg.selfTrade = some obs
      ∧ runEngine scrub ops cfg = some { obs with trades := obs.trades.take b₀.tradeOut.bufferSize }
      ∧ diverges scrub ops cfg = some (decide (b₀.tradeOut.bufferSize < obs.trades.length))
      ∧ (ops.length ≤ b₀.tradeOut.bufferSize → diverges scrub ops cfg = some false) := by
  obtain ⟨obs, hreference, hengine, htrades⟩ := runs_abreast ops hnew hlen
  have heq := diverges_eq hreference hengine
  refine ⟨obs, hreference, hengine, heq, fun hfits => ?_⟩
  rw [heq, decide_eq_false (by omega)]

/-- Two bids are swept through a ring of one. -/
def overflow : List Op :=
  [⟨.addLimit, 1, 7, .buy, 100, 5⟩, ⟨.addLimit, 2, 8, .buy, 99, 5⟩, ⟨.cancel, 9, 0, .buy, 0, 1⟩,
    ⟨.addMarket, 3, 9, .sell, 0, 7⟩]

theorem diverges_iff_ring_overflows_one : ∃ b₀ obs, OrderBook.new id { tradeCapacity := 1 } = some b₀
    ∧ runReference overflow .cancelResting = some obs
    ∧ diverges id overflow { tradeCapacity := 1 }
      = some (decide (b₀.tradeOut.bufferSize < obs.trades.length)) := by
  obtain ⟨b₀, hnew⟩ : ∃ b₀, OrderBook.new id { tradeCapacity := 1 } = some b₀ :=
    Option.isSome_iff_exists.mp (by decide +kernel)
  obtain ⟨obs, hreference, -, heq, -⟩ := diverges_iff_ring_overflows overflow hnew (by decide)
  exact ⟨b₀, obs, hnew, hreference, heq⟩

end Driving

/-! ## What a shrunk divergence is -/

section Shrinking

variable {scrub : RestingOrder → RestingOrder} {cfg : Config} {b₀ : OrderBook} {failing : List Op}

/-- The verdict the shrinking asks for. -/
theorem answers_of_new (hnew : OrderBook.new scrub cfg = some b₀) (hlen : failing.length ≤ 2 ^ 31) :
    Shrink.Answers (fun ops => diverges scrub ops cfg) failing := by
  intro ops hsub _
  obtain ⟨obs, hreference, hengine, -⟩ := runs_abreast ops hnew (hsub.length_le.trans hlen)
  exact ⟨_, diverges_eq hreference hengine⟩

theorem length_gt_of_diverges (hnew : OrderBook.new scrub cfg = some b₀)
    (hlen : failing.length ≤ 2 ^ 31) (hfails : diverges scrub failing cfg = some true) :
    b₀.tradeOut.bufferSize < failing.length := by
  obtain ⟨obs, hreference, hengine, htrades⟩ := runs_abreast failing hnew hlen
  rw [diverges_eq hreference hengine, Option.some.injEq, decide_eq_true_eq] at hfails
  omega

/-- **The shrinking ends**, with operations that diverge and that no cut of its last pass keeps so. -/
theorem shrink_of_diverges (hnew : OrderBook.new scrub cfg = some b₀) (hlen : failing.length ≤ 2 ^ 31)
    (hfails : diverges scrub failing cfg = some true) :
    ∃ left, shrink scrub failing cfg = some left ∧ left.Sublist failing
      ∧ diverges scrub left cfg = some true ∧ b₀.tradeOut.bufferSize < left.length
      ∧ (1 < left.length → ∀ c ∈ Shrink.halvings (left.length / 2), ∀ i, i + c ≤ left.length →
          Shrink.without left i c ≠ [] → diverges scrub (Shrink.without left i c) cfg = some false) := by
  have hne : failing ≠ [] := by
    rintro rfl
    exact Nat.not_lt_zero _ (length_gt_of_diverges hnew hlen hfails)
  obtain ⟨left, hrun, hsub, hleft, -, hminimal⟩ :=
    Shrink.shrink_minimal (answers_of_new hnew hlen) hfails hne
  exact ⟨left, hrun, hsub, hleft,
    length_gt_of_diverges hnew (hsub.length_le.trans hlen) hleft, hminimal⟩

/-- **A shrunk divergence** is a part of the failing operations, in their order, that still diverges; it
has more operations than the ring holds trades, and stops diverging when any one of them is dropped. -/
theorem shrink_minimal_divergence (failing : List Op) (hnew : OrderBook.new scrub cfg = some b₀)
    (hlen : failing.length ≤ 2 ^ 31) (hfails : diverges scrub failing cfg = some true) :
    ∃ left, shrink scrub failing cfg = some left ∧ left.Sublist failing
      ∧ diverges scrub left cfg = some true ∧ b₀.tradeOut.bufferSize < left.length
      ∧ ∀ i < left.length, diverges scrub (left.eraseIdx i) cfg = some false := by
  obtain ⟨left, hrun, hsub, hleft, hmany, hminimal⟩ := shrink_of_diverges hnew hlen hfails
  have hring : 1 ≤ b₀.tradeOut.bufferSize := by
    obtain ⟨k, -, hk⟩ := (TradeRing.shows_new (new_follows hnew).2.2.1).wf.pow
    rw [hk]
    exact Nat.one_le_two_pow
  refine ⟨left, hrun, hsub, hleft, hmany, fun i hi => ?_⟩
  have hsize : 1 ∈ Shrink.halvings (left.length / 2) := Shrink.one_mem_halvings (by omega)
  have hrest : Shrink.without left i 1 ≠ [] := by
    intro hnil
    have hone := Shrink.length_without (show i + 1 ≤ left.length from hi)
    rw [hnil, List.length_nil] at hone
    omega
  have hcut := hminimal (by omega) 1 hsize i hi hrest
  rwa [Shrink.without, ← List.eraseIdx_eq_take_drop_succ] at hcut

theorem shrink_minimal_divergence_one : ∃ left, shrink id overflow { tradeCapacity := 1 } = some left
    ∧ left.Sublist overflow ∧ ∀ i < left.length,
      diverges id (left.eraseIdx i) { tradeCapacity := 1 } = some false := by
  obtain ⟨b₀, hnew⟩ : ∃ b₀, OrderBook.new id { tradeCapacity := 1 } = some b₀ :=
    Option.isSome_iff_exists.mp (by decide +kernel)
  obtain ⟨left, hrun, hsub, -, -, hminimal⟩ := shrink_minimal_divergence overflow hnew (by decide)
    (by decide +kernel)
  exact ⟨left, hrun, hsub, hminimal⟩

end Shrinking

end Lob.Difftest
