/-
# Lob.FlowGenerator — every member of the generator keeps its invariant.

`Upheld` says of a generator between two members that its book is a drained replay of the flow so far,
that every op of the flow was meant, and that every id on the book was issued.  The ids never wrap,
since the flow is a vector and a vector of ops cannot be that long.  One triple for each member, and
the run is their composition (`generate_upheld`).
-/
import Lob.FlowIntent

namespace Lob.Flow

open Lib.Draws OrderBook

/-- What holds of a generator, while at most `issued` ids are issued and not in the flow yet. -/
structure Upheld (cfg : Config) (b₀ : OrderBook) (issued : Nat) (g : Generator) : Prop where
  replay : ∃ past, Run b₀ past g.book ∧ Replays g.out past ∧ Drained past
  drained : g.book.tradeOut.empty = true
  intended : Intended cfg.lot cfg.selfTrade g.out
  below : ∀ o ∈ (bookOf cfg.selfTrade g.out).orders, o.id.toNat < g.nextId.toNat
  count : g.nextId.toNat ≤ g.out.length + 1 + issued
  room : g.out.length ≤ maxOps

/-! ## Draining the ring -/

section Drain

variable {b₀ b : OrderBook} {es : List Emission} {past : List Record} {ring : TradeRing}

theorem pop_drained {r : TradeRing} (h : ¬ r.pop.1.isSome = true) : r.pop.2.empty = true := by
  unfold TradeRing.pop at h ⊢
  split
  · assumption
  · rename_i hne
    rw [if_neg hne] at h
    simp at h

/-- The bound on the pops is never reached. -/
theorem drain_returns : ∀ (n : Nat) (r : TradeRing), r.size = n → ∃ ring, drain n r = some ring := by
  intro n
  induction n with
  | zero =>
    intro r hsize
    have hempty := TradeRing.size_eq_zero.mp hsize
    exact ⟨_, by rw [drain, TradeRing.pop_of_empty hempty]; rfl⟩
  | succ n ih =>
    intro r hsize
    have hne : r.empty = false := by
      rw [Bool.eq_false_iff, Ne, ← TradeRing.size_eq_zero]
      omega
    obtain ⟨t, r', hpop, -, hlt, -⟩ := TradeRing.pop_spec hne
    obtain ⟨ring, hring⟩ := ih r' (by omega)
    exact ⟨ring, by rw [drain, hpop]; exact hring⟩

/-- **A drain is a series of pops** that leaves the ring empty. -/
theorem drain_replays {fuel : Nat} (hdrain : drain fuel b.tradeOut = some ring) (hrun : Run b₀ past b)
    (hreplay : Replays es past) (hdrained : Drained past) :
    ∃ past', Run b₀ past' { b with tradeOut := ring } ∧ Replays es past' ∧ Drained past'
      ∧ ring.empty = true := by
  have pop : ∀ {b : OrderBook} {past : List Record}, Run b₀ past b → Replays es past → Drained past →
      ∃ past', Run b₀ past' { b with tradeOut := b.tradeOut.pop.2 } ∧ Replays es past' ∧ Drained past' :=
    fun hrun hreplay hdrained =>
      ⟨_, .call {} .pop _ _ hrun rfl, .pop hreplay rfl, hdrained.cons fun hne => absurd rfl hne⟩
  induction fuel generalizing b past with
  | zero =>
    rw [drain] at hdrain
    split at hdrain
    · simp at hdrain
    · rename_i hstop
      obtain rfl := Option.some.inj hdrain
      obtain ⟨past', hrun', hreplay', hdrained'⟩ := pop hrun hreplay hdrained
      exact ⟨past', hrun', hreplay', hdrained', pop_drained hstop⟩
  | succ fuel ih =>
    rw [drain] at hdrain
    obtain ⟨past', hrun', hreplay', hdrained'⟩ := pop hrun hreplay hdrained
    split at hdrain
    · exact ih (b := { b with tradeOut := b.tradeOut.pop.2 }) hdrain hrun' hreplay' hdrained'
    · rename_i hstop
      obtain rfl := Option.some.inj hdrain
      exact ⟨past', hrun', hreplay', hdrained', pop_drained hstop⟩

end Drain

/-! ## The members -/

theorem Op.call_named (op : Op) : op.call.named = some op.id := by
  unfold Op.call
  split
  · rfl
  · rfl
  · rfl
  · cases op.market <;> rfl

theorem maxOps_lt : maxOps + 2 < 2 ^ 64 := by decide

section Members

variable {cfg : Config} {scrub : RestingOrder → RestingOrder} {b₀ : OrderBook} {n : Nat} {g g' : Generator}
  {id : OrderId} {side : Side} {e : Emission}

theorem Upheld.congr (h : Upheld cfg b₀ n g) (hbook : g'.book = g.book) (hout : g'.out = g.out)
    (hnext : g'.nextId = g.nextId) : Upheld cfg b₀ n g' := by
  obtain ⟨past, hrun, hreplay, hdrained⟩ := h.replay
  constructor
  · exact ⟨past, hbook ▸ hrun, hout ▸ hreplay, hdrained⟩
  · exact hbook ▸ h.drained
  · exact hout ▸ h.intended
  · rw [hout, hnext]
    exact h.below
  · rw [hout, hnext]
    exact h.count
  · exact hout ▸ h.room

theorem Upheld.mono (h : Upheld cfg b₀ 0 g) : Upheld cfg b₀ 1 g :=
  ⟨h.replay, h.drained, h.intended, h.below, Nat.le_succ_of_le h.count, h.room⟩

/-- The generator's book follows the priority book of its flow. -/
theorem Upheld.follows (h : Upheld cfg b₀ n g) (hnew : shadow cfg scrub = some b₀) :
    ∃ Q free, g.book.Follows (bookOf cfg.selfTrade g.out) Q free := by
  obtain ⟨h₀, hpolicy, -⟩ := new_follows hnew
  obtain ⟨past, hrun, hreplay, -⟩ := h.replay
  have hfollows := hreplay.follows h₀ hrun
  rw [hpolicy] at hfollows
  exact hfollows

theorem Upheld.farTouch (h : Upheld cfg b₀ n g) (hnew : shadow cfg scrub = some b₀) (side : Side) :
    farTouch g.book side = (bookOf cfg.selfTrade g.out).best side.opposite := by
  obtain ⟨Q, free, hf⟩ := h.follows hnew
  exact Follows.farTouch hf side

theorem Upheld.find (h : Upheld cfg b₀ n g) (hnew : shadow cfg scrub = some b₀) {found : Option Order}
    (hfind : g.book.find id = some found) : (bookOf cfg.selfTrade g.out).find id = found := by
  obtain ⟨Q, free, hf⟩ := h.follows hnew
  rw [hf.find] at hfind
  exact Option.some.inj hfind

/-- An id on the book was issued. -/
theorem Upheld.live_lt (h : Upheld cfg b₀ n g) (hlive : (bookOf cfg.selfTrade g.out).live id = true) :
    id.toNat < g.nextId.toNat := by
  obtain ⟨s, o, ho, rfl⟩ := PriorityBook.live_iff.mp hlive
  exact h.below o (PriorityBook.mem_orders.mpr ⟨s, ho⟩)

/-- **Emitting a meant op** keeps the invariant, and takes an issued id into the flow. -/
theorem triple_emit : Triple (fun g => Upheld cfg b₀ 1 g ∧ Meant cfg.lot (bookOf cfg.selfTrade g.out) e
    ∧ e.op.id.toNat < g.nextId.toNat) (emit e) fun _ => Upheld cfg b₀ 0 := by
  apply Triple.get
  rintro g ⟨h, hmeant, hid⟩
  split
  · exact triple_fail
  · rename_i hroom
    split
    · rename_i reply book hcall
      split
      · exact triple_fail
      · rename_i ring hdrain
        apply triple_set
        rintro s rfl
        -- the call and the pops that drain it, after the run so far
        obtain ⟨past, hrun, hreplay, hdrained⟩ := h.replay
        have hrun' : Run b₀ (⟨s.book, e.op.call, reply.1, reply.2, book⟩ :: past) book :=
          .call {} e.op.call reply.1 reply.2 hrun hcall
        obtain ⟨past', hrun'', hreplay', hdrained', hempty⟩ := drain_replays hdrain hrun'
          (.op hreplay rfl) (hdrained.cons fun _ => h.drained)
        refine ⟨⟨past', hrun'', hreplay', hdrained'⟩, hempty, h.intended.op hmeant, ?_, ?_, ?_⟩
        · intro o ho
          obtain ⟨t, ht⟩ := PriorityBook.mem_orders.mp ho
          -- an order on the book is the op's own, or rested before it
          by_cases heq : o.id = e.op.id
          · rw [heq]
            exact hid
          · have hnamed : e.op.call.named ≠ some o.id := by
              rw [Op.call_named]
              exact fun hsome => heq (Option.some.inj hsome).symm
            obtain ⟨o', ho', htag⟩ := PriorityBook.mem_perform ht hnamed
            rw [← (Prod.mk.inj htag).1]
            exact h.below o' (PriorityBook.mem_orders.mpr ⟨t, ho'⟩)
        · show s.nextId.toNat ≤ s.out.length + 1 + 1 + 0
          have := h.count
          omega
        · show s.out.length + 1 ≤ maxOps
          omega
    · exact triple_fail
    · exact triple_fail

/-- **An issued id is fresh**: every id on the book was issued before it.  What is known of the flow
stays true. -/
theorem triple_issueId (R : List Emission → Prop) :
    Triple (fun g => R g.out ∧ Upheld cfg b₀ 0 g) issueId fun id g => R g.out ∧ Upheld cfg b₀ 1 g
      ∧ (bookOf cfg.selfTrade g.out).live id = false ∧ id.toNat < g.nextId.toNat := by
  apply Triple.get
  rintro g ⟨hout, h⟩
  apply Triple.bind (Q := fun _ s => s = { g with nextId := g.nextId + 1 })
  · apply triple_set
    exact fun _ _ => rfl
  · intro _
    apply Triple.pure
    rintro s rfl
    -- the counter cannot wrap: the flow holds at most `maxOps` ops
    have hcount := h.count
    have hroom := h.room
    have hmax := maxOps_lt
    have hnext : (g.nextId + 1).toNat = g.nextId.toNat + 1 := by
      rw [UInt64.toNat_add]
      exact Nat.mod_eq_of_lt (by simp only [UInt64.toNat_one]; omega)
    refine ⟨hout, ⟨h.replay, h.drained, h.intended, ?_, ?_, h.room⟩, ?_, ?_⟩
    · intro o ho
      show o.id.toNat < (g.nextId + 1).toNat
      have := h.below o ho
      omega
    · show (g.nextId + 1).toNat ≤ g.out.length + 1 + 1
      omega
    · rw [PriorityBook.not_live_iff]
      intro s o ho heq
      have := h.below o (PriorityBook.mem_orders.mpr ⟨s, ho⟩)
      rw [heq] at this
      omega
    · show g.nextId.toNat < (g.nextId + 1).toNat
      omega

theorem triple_push : Triple (Upheld cfg b₀ n) (push id) fun _ => Upheld cfg b₀ n := by
  apply triple_update
  intro g h
  exact h.congr rfl rfl rfl

theorem triple_findLive {P : Generator → Prop} :
    Triple P (findLive id) fun found g => P g ∧ g.book.find id = some found := by
  apply Triple.get
  intro g h
  split
  · exact triple_fail
  · rename_i found hfind
    apply Triple.pure
    rintro s rfl
    exact ⟨h, hfind⟩

/-- **An id taken from the pool is live**, whatever stale ids the pool holds. -/
theorem triple_takeFrom (hnew : shadow cfg scrub = some b₀) (left : Nat) :
    Triple (Upheld cfg b₀ 0) (takeFrom cfg left) fun taken g => Upheld cfg b₀ 0 g
      ∧ ∀ id, taken = some id → (bookOf cfg.selfTrade g.out).live id = true := by
  induction left with
  | zero =>
    apply Triple.pure
    exact fun g h => ⟨h, by simp⟩
  | succ left ih =>
    rw [takeFrom]
    apply Triple.get
    intro g h
    apply Triple.draw (yields_any _)
    intro idx _
    split
    · exact triple_fail
    · rename_i id _
      apply Triple.bind (Q := fun _ => Upheld cfg b₀ 0)
      · apply triple_set
        exact fun _ _ => h.congr rfl rfl rfl
      · intro _
        apply triple_findLive.bind
        intro found
        apply Triple.ite
        · intro hsome
          apply Triple.pure
          rintro s ⟨hs, hfind⟩
          refine ⟨hs, fun id' heq => ?_⟩
          obtain rfl := Option.some.inj heq
          rw [← hs.find hnew hfind] at hsome
          by_contra hdead
          rw [PriorityBook.find_eq_none.mpr (Bool.not_eq_true _ ▸ hdead)] at hsome
          simp at hsome
        · intro _
          exact ih.pre fun _ h => h.1

theorem triple_take (hnew : shadow cfg scrub = some b₀) :
    Triple (Upheld cfg b₀ 0) (take cfg) fun taken g => Upheld cfg b₀ 0 g
      ∧ ∀ id, taken = some id → (bookOf cfg.selfTrade g.out).live id = true := by
  apply Triple.get
  intro g h
  apply (triple_takeFrom hnew _).pre
  rintro s rfl
  exact h

theorem triple_sweep : Triple (Upheld cfg b₀ 0) sweep fun _ => Upheld cfg b₀ 0 := by
  apply Triple.get
  intro g h
  split
  · exact triple_fail
  · apply triple_set
    exact fun _ _ => h.congr rfl rfl rfl

theorem triple_walkMid : Triple (Upheld cfg b₀ 0) (walkMid cfg) fun _ => Upheld cfg b₀ 0 := by
  apply Triple.draw (yields_any _)
  intro up _
  apply Triple.ite
  · intro _
    apply triple_update
    exact fun g h => h.congr rfl rfl rfl
  · intro _
    apply triple_update
    intro g h
    split
    · exact h.congr rfl rfl rfl
    · exact h

section Ops

variable (hnew : shadow cfg scrub = some b₀) (hfits : 1280 * cfg.lot.toNat < 2 ^ 32)

include hnew hfits

theorem triple_add (side : Side) : Triple (Upheld cfg b₀ 0) (add cfg side) fun _ => Upheld cfg b₀ 0 := by
  apply ((triple_issueId fun _ => True).pre fun _ h => ⟨trivial, h⟩).bind
  intro id
  apply Triple.get
  rintro g ⟨-, h, hid, hlt⟩
  apply Triple.draw (yields_passivePrice g.mid g.book side)
  intro price hprice
  apply Triple.draw (yields_randomQty hfits)
  intro qty hqty
  apply Triple.draw (yields_any (randomOwner cfg))
  intro owner _
  rw [h.farTouch hnew] at hprice
  apply Triple.bind (Q := fun _ => Upheld cfg b₀ 0)
  · apply triple_emit.pre
    rintro s rfl
    exact ⟨h, .add hid hprice hqty, hlt⟩
  · exact fun _ => triple_push

theorem triple_addRandom : Triple (Upheld cfg b₀ 0) (addRandom cfg) fun _ => Upheld cfg b₀ 0 := by
  apply Triple.draw (yields_any randomSide)
  exact fun side _ => triple_add hnew hfits side

theorem triple_cancel : Triple (Upheld cfg b₀ 0) (cancel cfg) fun _ => Upheld cfg b₀ 0 := by
  apply (triple_take hnew).bind
  intro taken
  cases taken with
  | none => exact (triple_addRandom hnew hfits).pre fun _ h => h.1
  | some id =>
    apply triple_emit.pre
    rintro g ⟨h, hlive⟩
    exact ⟨h.mono, .cancel (hlive id rfl), h.live_lt (hlive id rfl)⟩

theorem triple_modify : Triple (Upheld cfg b₀ 0) (modify cfg) fun _ => Upheld cfg b₀ 0 := by
  apply (triple_take hnew).bind
  intro taken
  cases taken with
  | none => exact (triple_addRandom hnew hfits).pre fun _ h => h.1
  | some id =>
    apply triple_findLive.bind
    intro found
    cases found with
    | none => exact triple_fail
    | some order =>
      apply Triple.get
      rintro g ⟨⟨h, hlive⟩, hfind⟩
      apply Triple.draw (yields_passivePrice g.mid g.book order.side)
      intro price hprice
      apply Triple.draw (yields_randomQty hfits)
      intro qty hqty
      rw [h.farTouch hnew] at hprice
      apply Triple.bind (Q := fun _ => Upheld cfg b₀ 0)
      · apply triple_emit.pre
        rintro s rfl
        exact ⟨h.mono, .modify (h.find hnew hfind) hprice hqty, h.live_lt (hlive id rfl)⟩
      · exact fun _ => triple_push

theorem triple_marketable : Triple (Upheld cfg b₀ 0) (marketable cfg) fun _ => Upheld cfg b₀ 0 := by
  apply Triple.draw (yields_any randomSide)
  intro side _
  apply Triple.get
  intro g h
  apply Triple.draw (yields_takes g.book.size)
  rintro n ⟨hpos, hn⟩
  apply Triple.draw (yields_takesQty hfits hpos hn)
  intro qty hqty
  apply Triple.draw (yields_aim side (farTouch g.book side))
  intro aimed haimed
  rw [h.farTouch hnew] at haimed
  apply Triple.bind (Q := fun id s => s.out = g.out ∧ Upheld cfg b₀ 1 s
    ∧ (bookOf cfg.selfTrade s.out).live id = false ∧ id.toNat < s.nextId.toNat)
  · apply (triple_issueId (· = g.out)).pre
    rintro s rfl
    exact ⟨rfl, h⟩
  · intro id
    apply Triple.draw (yields_any (randomOwner cfg))
    intro owner _
    apply Triple.bind (Q := fun _ => Upheld cfg b₀ 0)
    · apply triple_emit.pre
      rintro s ⟨hout, hs, hid, hlt⟩
      rw [← hout] at haimed
      refine ⟨hs, ?_, hlt⟩
      generalize htouch : (bookOf cfg.selfTrade s.out).best side.opposite = touch at haimed
      cases haimed with
      | market => exact .market hid hqty
      | limit hthrough => exact .limit hid hqty htouch hthrough
    · intro _
      apply Triple.ite
      · intro _
        exact .pure fun _ h => h
      · intro _
        apply triple_findLive.bind
        intro found
        apply Triple.ite
        · intro _
          exact triple_push.pre fun _ h => h.1
        · intro _
          exact .pure fun _ h => h.1

theorem triple_mixed : Triple (Upheld cfg b₀ 0) (mixed cfg) fun _ => Upheld cfg b₀ 0 := by
  apply Triple.draw (yields_any _)
  intro roll _
  apply Triple.ite
  · exact fun _ => triple_addRandom hnew hfits
  · intro _
    apply Triple.ite
    · exact fun _ => triple_cancel hnew hfits
    · intro _
      apply Triple.ite
      · exact fun _ => triple_modify hnew hfits
      · exact fun _ => triple_marketable hnew hfits

theorem triple_step : Triple (Upheld cfg b₀ 0) (step cfg) fun _ => Upheld cfg b₀ 0 := by
  have hrest : Triple (Upheld cfg b₀ 0) (do
      mixed cfg
      Prog.update fun g => { g with steps := g.steps + 1 }
      if (← get).steps &&& 0xFFFF == 0 then sweep) fun _ => Upheld cfg b₀ 0 := by
    apply (triple_mixed hnew hfits).bind
    intro _
    apply Triple.bind (Q := fun _ => Upheld cfg b₀ 0)
    · apply triple_update
      exact fun g h => h.congr rfl rfl rfl
    · intro _
      apply Triple.get
      intro g h
      apply Triple.ite
      · intro _
        apply triple_sweep.pre
        rintro s rfl
        exact h
      · intro _
        apply Triple.pure
        rintro s rfl
        exact h
  apply Triple.draw (yields_any _)
  intro ticks _
  apply Triple.ite
  · intro _
    exact triple_walkMid.bind fun _ => hrest
  · exact fun _ => hrest

/-- **The whole run** keeps the invariant. -/
theorem triple_run : Triple (Upheld cfg b₀ 0) (run cfg) fun _ => Upheld cfg b₀ 0 := by
  apply Triple.ite
  · exact fun _ => triple_fail
  · intro _
    apply ((triple_addRandom hnew hfits).times _).bind
    intro _
    apply ((triple_step hnew hfits).times _).bind
    intro _
    exact (triple_step hnew hfits).times _

end Ops

/-- The generator a constructor returns. -/
theorem upheld_new (hnew : Generator.new cfg scrub = some g) :
    ∃ b₀, shadow cfg scrub = some b₀ ∧ Upheld cfg b₀ 0 g := by
  rw [Generator.new] at hnew
  split at hnew
  · obtain ⟨b₀, hb₀, rfl⟩ := Option.map_eq_some_iff.mp hnew
    obtain ⟨-, -, hring, -⟩ := new_follows hb₀
    refine ⟨b₀, hb₀, ⟨[], .start, .start, by simp [Drained]⟩, TradeRing.empty_of_new hring, .start, ?_, ?_, ?_⟩
    · simp [bookOf, PriorityBook.replay, PriorityBook.orders]
    · exact Nat.le_refl _
    · exact Nat.zero_le _
  · simp at hnew

/-- **What `generate` returns is upheld**: its book is a drained replay of its flow, and every op of the
flow was meant. -/
theorem generate_upheld (hfits : 1280 * cfg.lot.toNat < 2 ^ 32) (hgen : generate cfg scrub = some g) :
    ∃ b₀, shadow cfg scrub = some b₀ ∧ Upheld cfg b₀ 0 g := by
  obtain ⟨g₀, hnew, hrun⟩ := Option.bind_eq_some_iff.mp hgen
  obtain ⟨b₀, hb₀, h₀⟩ := upheld_new hnew
  obtain ⟨r, hexec, rfl⟩ := Option.map_eq_some_iff.mp hrun
  exact ⟨b₀, hb₀, (triple_run hb₀ hfits).ends g₀ _ r.1.1 r.1.2 r.2 h₀ hexec⟩

end Members

/-- One passive and one marketable op, far from the ends of the line. -/
def brief : Config :=
  { seed := 34, ops := 2, warmupOps := 0, targetDepth := 0, cancelPercent := 0, modifyPercent := 0,
    marketablePercent := 50 }

end Lob.Flow
