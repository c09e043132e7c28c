/-
# Lob.FlowTrace — the generator's book, op by op.

Whatever the generator draws and looks up, it touches its book in `emit` alone, where the op is applied and
its trades are drained.  So its book is a fold of `applyDrained` over the ops of the flow, and every step
of the generator adds one op to them.  On the abstract machine an op hands out a burst of trades, and a
fold over what is drained is a fold over that burst.
-/
import Lob.FlowGenerator
import Lob.Returns

namespace Lob.Flow

open Lib Lib.Draws OrderBook

/-! ## Draining -/

/-- `while (book.trades().pop(t))`, folding what is popped, with a bound on the pops. -/
def drainInto {β : Type} (f : β → Trade → β) : Nat → TradeRing → β → Option (β × TradeRing)
  | 0, r, acc => if r.pop.1.isSome then none else some (acc, r.pop.2)
  | fuel + 1, r, acc =>
    match r.pop.1 with
    | some t => drainInto f fuel r.pop.2 (f acc t)
    | none => some (acc, r.pop.2)

section Draining

variable {β : Type} {f : β → Trade → β} {fuel capacity : Nat} {r ring : TradeRing}
  {q : BoundedQueue Trade capacity}

theorem contents_of_empty (h : r.empty = true) : r.contents = [] := by
  rw [← List.length_eq_zero_iff, TradeRing.length_contents]
  exact TradeRing.size_eq_zero.mpr h

/-- **Draining folds what the ring holds**, and leaves it as a plain drain does. -/
theorem drainInto_of_drain (h : drain fuel r = some ring) (acc : β) :
    drainInto f fuel r acc = some (r.contents.foldl f acc, ring) := by
  induction fuel generalizing r acc with
  | zero =>
    rw [drain] at h
    rw [drainInto]
    by_cases hempty : r.empty = true
    · rw [TradeRing.pop_of_empty hempty] at h ⊢
      rw [contents_of_empty hempty, ← Option.some.inj h]
      rfl
    · obtain ⟨t, r', hpop, -⟩ := TradeRing.pop_spec (Bool.eq_false_iff.mpr hempty)
      rw [hpop] at h
      simp at h
  | succ fuel ih =>
    rw [drain] at h
    rw [drainInto]
    by_cases hempty : r.empty = true
    · rw [TradeRing.pop_of_empty hempty] at h ⊢
      rw [contents_of_empty hempty, ← Option.some.inj h]
      rfl
    · obtain ⟨t, r', hpop, hcontents, -⟩ := TradeRing.pop_spec (Bool.eq_false_iff.mpr hempty)
      rw [hpop] at h ⊢
      rw [hcontents]
      exact ih h (f acc t)

/-- A pop that finds nothing leaves nothing. -/
theorem shows_stopped (hshows : r.Shows q) (hstop : ¬ r.pop.1.isSome = true) :
    r.pop.2.Shows q.drained := by
  obtain ⟨hhead, hrest⟩ := hshows.pop
  rw [← q.pop_of_held_nil]
  · exact hrest
  · rw [hhead] at hstop
    exact List.head?_eq_none_iff.mp (Option.not_isSome_iff_eq_none.mp hstop)

/-- What a drain leaves is empty, with the losses it had. -/
theorem shows_drain (hshows : r.Shows q) (h : drain fuel r = some ring) : ring.Shows q.drained := by
  induction fuel generalizing r q with
  | zero =>
    rw [drain] at h
    split at h
    · simp at h
    · rename_i hstop
      exact Option.some.inj h ▸ shows_stopped hshows hstop
  | succ fuel ih =>
    rw [drain] at h
    split at h
    · exact ih (q := q.pop.2) hshows.pop.2 h
    · rename_i hstop
      exact Option.some.inj h ▸ shows_stopped hshows hstop

end Draining

/-! ## One op after another -/

/-- What `emit` does to the book. -/
def applyDrained (b : OrderBook) (op : Op) : Option OrderBook :=
  match b.perform {} op.call with
  | .ok _ book =>
    (drain book.tradeOut.size book.tradeOut).map fun ring => { book with tradeOut := ring }
  | .throws _ _ => none
  | .undefined => none

/-- The abstract machine's op: the trades handed out, and the machine with nothing left to hand out. -/
def emits {capacity : Nat} (policy : SelfTradePolicy) (e : Exchange capacity) (op : Op) :
    List Trade × Exchange capacity :=
  let e := (e.perform policy op.call).2
  (e.ring.held, { e with ring := e.ring.drained })

section Steps

variable {capacity : Nat} {e : Exchange capacity} {b b' : OrderBook} {op : Op}

/-- **The step lemma**: a drained op of the book is an op of the machine, and any fold over what it drains
is a fold over what the machine hands out. -/
theorem Realizes.applied (h : b.Realizes e) (happly : applyDrained b op = some b') :
    b'.Realizes (emits b.policy e op).2 ∧ b'.policy = b.policy
      ∧ ∃ reply book ring, b.perform {} op.call = .ok reply book ∧ b' = { book with tradeOut := ring }
        ∧ ∀ {β : Type} (f : β → Trade → β) (acc : β),
          drainInto f book.tradeOut.size book.tradeOut acc
            = some ((emits b.policy e op).1.foldl f acc, ring) := by
  unfold applyDrained at happly
  split at happly
  · rename_i reply book hcall
    obtain ⟨ring, hdrain, rfl⟩ := Option.map_eq_some_iff.mp happly
    let r : Record := ⟨b, op.call, reply.1, reply.2, book⟩
    obtain ⟨-, hafter⟩ := Realizes.perform (r := r) h hcall
    obtain ⟨Q, free, hf⟩ := h.book
    have hpolicy : book.policy = b.policy := (recorded_of_perform (r := r) hf hcall).2
    obtain ⟨Q', free', hf'⟩ := hafter.book
    refine ⟨⟨⟨Q', free', ?_⟩, shows_drain hafter.ring hdrain⟩, hpolicy, reply, book, ring, hcall, rfl, ?_⟩
    · -- the queues do not read the ring
      exact ⟨hf'.linked.congr rfl rfl fun s => by cases s <;> rfl, hf'.settled, hf'.live, hf'.queue,
        hf'.nextSeq⟩
    · intro β f acc
      have hheld : book.tradeOut.contents = (emits b.policy e op).1 := hafter.ring.held
      rw [drainInto_of_drain hdrain, hheld]
  · simp at happly
  · simp at happly

end Steps

/-! ## The generator -/

/-- The ops of a flow, oldest first. -/
def Generator.ops (g : Generator) : List Op := (g.out.map Emission.op).reverse

/-- A flow of `n` ops, which applied one after the other make the generator's book. -/
structure Traced (b₀ : OrderBook) (n : Nat) (g : Generator) : Prop where
  length : g.ops.length = n
  book : g.ops.foldlM applyDrained b₀ = some g.book
  /-- A vector holds them. -/
  room : g.ops.length ≤ maxOps

section Members

variable {cfg : Config} {scrub : RestingOrder → RestingOrder} {b₀ : OrderBook} {n : Nat} {g g' : Generator}
  {id : OrderId} {side : Side} {e : Emission}

theorem Traced.congr (h : Traced b₀ n g) (hbook : g'.book = g.book) (hout : g'.out = g.out) :
    Traced b₀ n g' := by
  have hops : g'.ops = g.ops := by rw [Generator.ops, Generator.ops, hout]
  refine ⟨hops ▸ h.length, ?_, hops ▸ h.room⟩
  rw [hops, hbook]
  exact h.book

/-- **Emitting** adds one op, and applies it. -/
theorem traced_emit : Triple (Traced b₀ n) (emit e) fun _ => Traced b₀ (n + 1) := by
  apply Triple.get
  intro g h
  split
  · exact triple_fail
  · rename_i hroom
    split
    · rename_i reply book hcall
      split
      · exact triple_fail
      · rename_i ring hdrain
        apply triple_set
        rintro s rfl
        have hops : ({ s with out := e :: s.out, book := { book with tradeOut := ring } } : Generator).ops
            = s.ops ++ [e.op] := by
          rw [Generator.ops, List.map_cons, List.reverse_cons]
          rfl
        have happly : applyDrained s.book e.op = some { book with tradeOut := ring } := by
          rw [applyDrained, hcall]
          simp only [hdrain, Option.map_some]
        have hout : s.ops.length = s.out.length := by
          rw [Generator.ops, List.length_reverse, List.length_map]
        refine ⟨?_, ?_, ?_⟩
        · rw [hops, List.length_append, h.length, List.length_singleton]
        · rw [hops, List.foldlM_append, h.book]
          show ([e.op].foldlM applyDrained s.book) = _
          rw [List.foldlM_cons, happly]
          rfl
        · rw [hops, List.length_append, List.length_singleton]
          omega
    · exact triple_fail
    · exact triple_fail

theorem traced_issueId : Triple (Traced b₀ n) issueId fun _ => Traced b₀ n := by
  apply Triple.get
  intro g h
  apply Triple.bind (Q := fun _ => Traced b₀ n)
  · apply triple_set
    exact fun _ _ => h.congr rfl rfl
  · exact fun _ => .pure fun _ h => h

theorem traced_push : Triple (Traced b₀ n) (push id) fun _ => Traced b₀ n := by
  apply triple_update
  exact fun g h => h.congr rfl rfl

theorem traced_findLive : Triple (Traced b₀ n) (findLive id) fun _ => Traced b₀ n := by
  apply Triple.get
  intro g h
  split
  · exact triple_fail
  · apply Triple.pure
    rintro s rfl
    exact h

theorem traced_takeFrom (left : Nat) : Triple (Traced b₀ n) (takeFrom cfg left) fun _ => Traced b₀ n := by
  induction left with
  | zero => exact .pure fun _ h => h
  | succ left ih =>
    rw [takeFrom]
    apply Triple.get
    intro g h
    apply Triple.draw (yields_any _)
    intro idx _
    split
    · exact triple_fail
    · apply Triple.bind (Q := fun _ => Traced b₀ n)
      · apply triple_set
        exact fun _ _ => h.congr rfl rfl
      · intro _
        apply traced_findLive.bind
        intro found
        apply Triple.ite
        · exact fun _ => .pure fun _ h => h
        · exact fun _ => ih

theorem traced_take : Triple (Traced b₀ n) (take cfg) fun _ => Traced b₀ n := by
  apply Triple.get
  intro g h
  apply (traced_takeFrom _).pre
  rintro s rfl
  exact h

theorem traced_sweep : Triple (Traced b₀ n) sweep fun _ => Traced b₀ n := by
  apply Triple.get
  intro g h
  split
  · exact triple_fail
  · apply triple_set
    exact fun _ _ => h.congr rfl rfl

theorem traced_walkMid : Triple (Traced b₀ n) (walkMid cfg) fun _ => Traced b₀ n := by
  apply Triple.draw (yields_any _)
  intro up _
  apply Triple.ite
  · intro _
    apply triple_update
    exact fun g h => h.congr rfl rfl
  · intro _
    apply triple_update
    intro g h
    split
    · exact h.congr rfl rfl
    · exact h

theorem traced_add (side : Side) : Triple (Traced b₀ n) (add cfg side) fun _ => Traced b₀ (n + 1) := by
  apply traced_issueId.bind
  intro id
  apply Triple.get
  intro g h
  apply Triple.draw (yields_any _)
  intro price _
  apply Triple.draw (yields_any _)
  intro qty _
  apply Triple.draw (yields_any _)
  intro owner _
  apply Triple.bind (Q := fun _ => Traced b₀ (n + 1))
  · apply traced_emit.pre
    rintro s rfl
    exact h
  · exact fun _ => traced_push

theorem traced_addRandom : Triple (Traced b₀ n) (addRandom cfg) fun _ => Traced b₀ (n + 1) := by
  apply Triple.draw (yields_any randomSide)
  exact fun side _ => traced_add side

/-- A cancel of nothing is an add, so it emits one op all the same. -/
theorem traced_cancel : Triple (Traced b₀ n) (cancel cfg) fun _ => Traced b₀ (n + 1) := by
  apply traced_take.bind
  intro taken
  cases taken with
  | none => exact traced_addRandom
  | some id => exact traced_emit

theorem traced_modify : Triple (Traced b₀ n) (modify cfg) fun _ => Traced b₀ (n + 1) := by
  apply traced_take.bind
  intro taken
  cases taken with
  | none => exact traced_addRandom
  | some id =>
    apply traced_findLive.bind
    intro found
    cases found with
    | none => exact triple_fail
    | some order =>
      apply Triple.get
      intro g h
      apply Triple.draw (yields_any _)
      intro price _
      apply Triple.draw (yields_any _)
      intro qty _
      apply Triple.bind (Q := fun _ => Traced b₀ (n + 1))
      · apply traced_emit.pre
        rintro s rfl
        exact h
      · exact fun _ => traced_push

theorem traced_marketable : Triple (Traced b₀ n) (marketable cfg) fun _ => Traced b₀ (n + 1) := by
  apply Triple.draw (yields_any randomSide)
  intro side _
  apply Triple.get
  intro g h
  apply Triple.draw (yields_any _)
  intro takes _
  apply Triple.draw (yields_any _)
  intro qty _
  apply Triple.draw (yields_any _)
  intro aimed _
  apply Triple.bind (Q := fun _ => Traced b₀ n)
  · apply traced_issueId.pre
    rintro s rfl
    exact h
  · intro id
    apply Triple.draw (yields_any _)
    intro owner _
    apply traced_emit.bind
    intro _
    apply Triple.ite
    · exact fun _ => .pure fun _ h => h
    · intro _
      apply traced_findLive.bind
      intro found
      apply Triple.ite
      · exact fun _ => traced_push
      · exact fun _ => .pure fun _ h => h

theorem traced_mixed : Triple (Traced b₀ n) (mixed cfg) fun _ => Traced b₀ (n + 1) := by
  apply Triple.draw (yields_any _)
  intro roll _
  apply Triple.ite
  · exact fun _ => traced_addRandom
  · intro _
    apply Triple.ite
    · exact fun _ => traced_cancel
    · intro _
      apply Triple.ite
      · exact fun _ => traced_modify
      · exact fun _ => traced_marketable

/-- **A step** emits one op, whatever else it does. -/
theorem traced_step : Triple (Traced b₀ n) (step cfg) fun _ => Traced b₀ (n + 1) := by
  have hrest : Triple (Traced b₀ n) (do
      mixed cfg
      Prog.update fun g => { g with steps := g.steps + 1 }
      if (← get).steps &&& 0xFFFF == 0 then sweep) fun _ => Traced b₀ (n + 1) := by
    apply traced_mixed.bind
    intro _
    apply Triple.bind (Q := fun _ => Traced b₀ (n + 1))
    · apply triple_update
      exact fun g h => h.congr rfl rfl
    · intro _
      apply Triple.get
      intro g h
      apply Triple.ite
      · intro _
        apply traced_sweep.pre
        rintro s rfl
        exact h
      · intro _
        apply Triple.pure
        rintro s rfl
        exact h
  apply Triple.draw (yields_any _)
  intro ticks _
  apply Triple.ite
  · intro _
    exact traced_walkMid.bind fun _ => hrest
  · exact fun _ => hrest

/-- **The whole run**: as many ops as were asked for. -/
theorem traced_run : Triple (Traced b₀ 0) (run cfg) fun _ =>
    Traced b₀ (cfg.targetDepth.toNat + cfg.warmupOps.toNat + cfg.ops.toNat) := by
  apply Triple.ite
  · exact fun _ => triple_fail
  · intro _
    have hbuild := Triple.times_count (m := addRandom cfg) (I := Traced b₀) (fun _ => traced_addRandom)
      cfg.targetDepth.toNat 0
    have hstep := Triple.times_count (m := step cfg) (I := Traced b₀) fun _ => traced_step
    rw [Nat.zero_add] at hbuild
    apply hbuild.bind
    intro _
    apply (hstep cfg.warmupOps.toNat _).bind
    exact fun _ => hstep cfg.ops.toNat _

/-- **What `generate` returns**: the ops asked for, and the book they make. -/
theorem generate_traced (hgen : generate cfg scrub = some g) : ∃ b₀, shadow cfg scrub = some b₀
    ∧ Traced b₀ (cfg.targetDepth.toNat + cfg.warmupOps.toNat + cfg.ops.toNat) g := by
  obtain ⟨g₀, hnew, hrun⟩ := Option.bind_eq_some_iff.mp hgen
  obtain ⟨r, hexec, rfl⟩ := Option.map_eq_some_iff.mp hrun
  rw [Generator.new] at hnew
  split at hnew
  · obtain ⟨b₀, hb₀, rfl⟩ := Option.map_eq_some_iff.mp hnew
    exact ⟨b₀, hb₀, traced_run.ends _ _ r.1.1 r.1.2 r.2 ⟨rfl, rfl, Nat.zero_le _⟩ hexec⟩
  · simp at hnew

end Members

/-! ## Other books -/

section Others

variable {capacity : Nat} {e : Exchange capacity} {b b' b₁ : OrderBook} {op : Op} {ops : List Op}

/-- **What one book can be given, so can another** that realizes the same machine. -/
theorem applied_too (h : b.Realizes e) (h' : b'.Realizes e) (hpolicy : b'.policy = b.policy)
    (happly : applyDrained b op = some b₁) : ∃ b₁', applyDrained b' op = some b₁' := by
  obtain ⟨Q, free, hf⟩ := h.book
  obtain ⟨Q', free', hf'⟩ := h'.book
  obtain ⟨-, -, reply, book, ring, hcall, -⟩ := Realizes.applied h happly
  have hroom : (e.book.perform b.policy op.call).2.2.orders.length ≤ 2 ^ 31 := by
    rcases hf.perform_granted (c := op.call) with ⟨hle, -⟩ | ⟨-, b₂, hthrows⟩
    · exact hle
    · rw [hthrows] at hcall
      simp at hcall
  rw [← hpolicy] at hroom
  rcases hf'.perform_granted (c := op.call) with ⟨-, reply', events', b₂, hok⟩ | ⟨hmany, -⟩
  · obtain ⟨ring', hdrain⟩ := drain_returns _ b₂.tradeOut rfl
    exact ⟨{ b₂ with tradeOut := ring' }, by rw [applyDrained, hok]; simp only [hdrain, Option.map_some]⟩
  · omega

/-- The same for some ops, which leave both realizing one machine again. -/
theorem foldlM_applied_too (h : b.Realizes e) (h' : b'.Realizes e) (hpolicy : b'.policy = b.policy)
    (happly : ops.foldlM applyDrained b = some b₁) :
    ∃ (b₁' : OrderBook) (e₁ : Exchange capacity), ops.foldlM applyDrained b' = some b₁'
      ∧ b₁.Realizes e₁ ∧ b₁'.Realizes e₁ := by
  induction ops generalizing b b' e with
  | nil =>
    obtain rfl := Option.some.inj happly
    exact ⟨b', e, rfl, h, h'⟩
  | cons op ops ih =>
    rw [List.foldlM_cons] at happly
    obtain ⟨b₂, hop, hrest⟩ := Option.bind_eq_some_iff.mp happly
    obtain ⟨b₂', hop'⟩ := applied_too h h' hpolicy hop
    obtain ⟨hb₂, hkept, -⟩ := Realizes.applied h hop
    obtain ⟨hb₂', hkept', -⟩ := Realizes.applied h' hop'
    rw [hpolicy] at hb₂' hkept'
    obtain ⟨b₁', e₁, hfold, hb₁, hb₁'⟩ := ih hb₂ hb₂' (hkept'.trans hkept.symm) hrest
    refine ⟨b₁', e₁, ?_, hb₁, hb₁'⟩
    rw [List.foldlM_cons, hop']
    exact hfold

end Others

/-! ## Fresh books -/

section Fresh

variable {scrub : RestingOrder → RestingOrder} {book : Lob.Config} {b₀ : OrderBook}

theorem bufferSize_of_new {r : TradeRing} (h : TradeRing.new kTradeCapacity.toNat = some r) :
    r.bufferSize = 4096 := by
  have hsize : (TradeRing.new kTradeCapacity.toNat).map TradeRing.bufferSize = some 4096 := by decide
  rw [h] at hsize
  exact Option.some.inj hsize

/-- A fresh book with a ring of `kTradeCapacity` is a fresh machine. -/
theorem realizes_fresh (hnew : OrderBook.new scrub book = some b₀)
    (hcapacity : book.tradeCapacity = kTradeCapacity) : b₀.Realizes ({} : Exchange 4096) := by
  have hrealizes := realizes_new hnew
  have hring := (new_follows hnew).2.2.1
  rw [hcapacity] at hring
  rwa [bufferSize_of_new hring] at hrealizes

end Fresh

end Lob.Flow
