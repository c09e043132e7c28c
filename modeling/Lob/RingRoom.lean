/-
# Lob.RingRoom — a ring with room for every call's trades drops none.

The ring's accounts say what it dropped by what it held at each emission.  A step of the loop emits at
most one trade, so as long as nothing was dropped the ring holds what was emitted and not popped, and a
call that fits in what is free finds the ring short of full at each of its emissions.
-/
import Lob.PriceTime
import Lob.SizingLoops
import Lob.TradeStream

namespace Lob

open Lib.Machine

/-! ## The ring between drops -/

namespace TradeRing

variable {r : TradeRing} {capacity : Nat} {popped : List Trade} {emitted : List (Trade × Nat)}

/-- None of these emissions met a full ring. -/
def Entered (capacity : Nat) (emitted : List (Trade × Nat)) : Prop := ∀ e ∈ emitted, e.2 ≠ capacity

theorem Entered.filter (h : Entered capacity emitted) : emitted.filter (fun e => e.2 = capacity) = [] := by
  apply List.filter_eq_nil_iff.mpr
  intro e he
  rw [decide_eq_true_eq]
  exact h e he

theorem Entered.append {more : List (Trade × Nat)} (h : Entered capacity emitted)
    (hmore : Entered capacity more) : Entered capacity (emitted ++ more) := by
  intro e he
  rcases List.mem_append.mp he with he | he
  · exact h e he
  · exact hmore e he

/-- Emitted = popped + still in the ring, while nothing was dropped. -/
theorem Accounts.length_eq (h : r.Accounts capacity popped emitted) (hin : Entered capacity emitted) :
    emitted.length = popped.length + r.size := by
  have htotal := h.total
  rw [hin.filter] at htotal
  exact htotal

theorem Accounts.dropCount_eq (h : r.Accounts capacity popped emitted) (hin : Entered capacity emitted) :
    r.dropCount = 0 := by
  rw [h.dropped, hin.filter]
  rfl

/-- A new ring has seen nothing, and holds at least what was asked for. -/
theorem accounts_of_new (h : new capacity = some r) :
    r.Accounts r.bufferSize [] [] ∧ capacity ≤ r.bufferSize := by
  have hle := capacity_le_of_new h
  obtain ⟨r₁, h₁, hdrop, hzero, hstart⟩ := new_spec hle
  obtain ⟨r₂, h₂, hleast⟩ := new_least (Nat.max_le.mpr ⟨Nat.one_le_two_pow, hle⟩)
  rw [h] at h₁ h₂
  obtain rfl := Option.some.inj h₁
  obtain rfl := Option.some.inj h₂
  obtain ⟨-, -, -, hwanted⟩ := hleast.1
  refine ⟨accounts_new (hzero ▸ (hstart 0).1) (hzero ▸ (hstart 0).2) hdrop, ?_⟩
  exact (Nat.le_max_right 1 capacity).trans hwanted

end TradeRing

/-! ## One call -/

namespace Matching

variable {limit : Option Price} {m m₀ m' : Matching} {Q₀ : Layout}

/-- A visit halts the taker or records one act. -/
theorem visit_events {p : Price} {level : LevelRef} {slot : SlotIndex}
    (h : m.visit p level slot = some m') : m'.events = m.events ∨ ∃ act, m'.events = m.record act := by
  unfold visit at h
  simp only at h
  split at h
  · split at h
    · obtain rfl := Option.some.inj h
      exact Or.inl rfl
    · obtain ⟨b, -, rfl⟩ := Option.map_eq_some_iff.mp h
      exact Or.inr ⟨_, rfl⟩
  · split at h
    · obtain ⟨b, -, rfl⟩ := Option.map_eq_some_iff.mp h
      exact Or.inr ⟨_, rfl⟩
    · obtain rfl := Option.some.inj h
      exact Or.inr ⟨_, rfl⟩

/-- **A step of the loop records at most one act**, with the trades the ring holds at that moment. -/
theorem step_events (h : m.step limit = some m') :
    m'.events = m.events ∨ ∃ act, m'.events = m.record act := by
  have quiet : ∀ ctl, some { m with ctl := ctl } = some m' → m'.events = m.events := by
    intro ctl heq
    obtain rfl := Option.some.inj heq
    rfl
  unfold Matching.step at h
  split at h
  · exact Or.inl (quiet m.ctl h)
  · split at h
    · split at h
      · exact Or.inl (quiet _ h)
      · split at h <;> exact Or.inl (quiet _ h)
    · exact Or.inl (quiet _ h)
  · simp only at h
    split at h
    · exact visit_events h
    · exact Or.inl (quiet _ h)
  · simp only at h
    split at h
    · obtain ⟨b, -, rfl⟩ := Option.map_eq_some_iff.mp h
      exact Or.inl rfl
    · exact Or.inl (quiet _ h)

theorem emissions_append (events : List Event) (e : Event) :
    emissions (events ++ [e]) = emissions events ++ emissions [e] := List.filterMap_append

/-- What enters the ring while the loop runs. -/
structure Entering (capacity : Nat) (popped : List Trade) (emitted : List (Trade × Nat))
    (limit : Option Price) (m₀ : Matching) (Q₀ : Layout) (m : Matching) : Prop where
  walked : Walked limit m₀ Q₀ m
  entered : emitted.length + (emissions m.events).length ≤ popped.length + capacity →
    TradeRing.Entered capacity (emissions m.events)

variable {capacity : Nat} {popped : List Trade} {emitted : List (Trade × Nat)}

/-- **The step lemma**: an emission that fits meets a ring short of full. -/
theorem Entering.step (h : Entering capacity popped emitted limit m₀ Q₀ m)
    (hacc : m₀.book.tradeOut.Accounts capacity popped (emitted ++ emissions m₀.events))
    (hin : TradeRing.Entered capacity emitted) (hstep : m.step limit = some m') :
    Entering capacity popped emitted limit m₀ Q₀ m' := by
  refine ⟨h.walked.reaches (.single hstep), fun hroom => ?_⟩
  rcases step_events hstep with heq | ⟨act, heq⟩
  · rw [heq] at hroom ⊢
    exact h.entered hroom
  · rw [heq, record, emissions_append] at hroom ⊢
    rw [List.length_append] at hroom
    have hbefore := h.entered (by omega)
    obtain ⟨Q, free, -, hsince⟩ := h.walked
    have hlen := (hsince.ring capacity popped emitted hacc).length_eq (hin.append hbefore)
    rw [List.length_append] at hlen
    apply hbefore.append
    cases act with
    | fill t =>
      intro e he
      obtain rfl := List.mem_singleton.mp he
      have hone : (emissions [⟨.fill t, m.book.tradeOut.size⟩]).length = 1 := rfl
      show m.book.tradeOut.size ≠ capacity
      omega
    | stpCancel o => exact fun e he => absurd he List.not_mem_nil

end Matching

namespace OrderBook

open Matching

variable {b₀ b : OrderBook} {past : List Record} {r : Record} {a : PriorityBook} {Q Q₀ : Layout}
  {free free₀ : List SlotIndex} {capacity : Nat} {popped : List Trade} {emitted : List (Trade × Nat)}

/-- The emissions of a call are as many as its trades. -/
theorem Record.length_emissions (r : Record) : (emissions r.events).length = r.trades.length := by
  rw [Record.trades, Record.acts, ← emissions_map_fst, List.length_map]

/-- **A call whose trades fit in the ring drops none of them.** -/
theorem Follows.entered (h : r.before.Follows a Q free)
    (hacc : r.before.tradeOut.Accounts capacity popped emitted)
    (hin : TradeRing.Entered capacity emitted) {mem : Memory}
    (hcall : r.before.perform mem r.call = .ok (r.reply, r.events) r.after)
    (hroom : r.before.tradeOut.size + r.trades.length ≤ capacity) :
    TradeRing.Entered capacity (emissions r.events) := by
  have hlen := hacc.length_eq hin
  rcases h.attemptOf r.call with ⟨-, hnone⟩ | ⟨x, y, Q', free', hx, -, hfollows, hkept⟩
  · have hquiet : r.events.map Event.act = [] := (recorded_of_perform h hcall).1.acts_of_none hnone
    rw [List.map_eq_nil_iff.mp hquiet]
    exact fun e he => absurd he List.not_mem_nil
  · obtain ⟨m, Q'', free'', hm⟩ := hfollows.matched
    have hevents := events_of_attempt hx hm.run hcall
    have hwalked := hfollows.book.linked.walked hfollows.book.settled hfollows.book.live x.incoming x.limit
    have hacc' : x.start.book.tradeOut.Accounts capacity popped (emitted ++ []) := by
      rw [List.append_nil]
      exact hkept.tradeOut ▸ hacc
    have hstart : Entering capacity popped emitted x.limit x.start Q' x.start :=
      ⟨hwalked, fun _ e he => absurd he List.not_mem_nil⟩
    have hend := (reaches_of_runUntil hm.run).1.invariant hstart fun m m' hm hstep =>
      hm.step hacc' hin hstep
    rw [hevents]
    apply hend.entered
    rw [← hevents, r.length_emissions]
    omega

/-- **What no call overfills never drops.** -/
theorem Run.entered (h₀ : b₀.Follows {} Q₀ free₀) (hring : b₀.tradeOut.Accounts capacity [] [])
    (hrun : Run b₀ past b)
    (hroom : ∀ r ∈ past, r.before.tradeOut.size + r.trades.length ≤ capacity) :
    TradeRing.Entered capacity (emissionsOf past) := by
  induction hrun with
  | start => exact fun e he => absurd he List.not_mem_nil
  | @call past b b' mem c reply events hrun hcall ih =>
    have hbefore := ih fun r hr => hroom r (List.mem_cons_of_mem _ hr)
    obtain ⟨⟨Q, free, hf⟩, -⟩ := hrun.follows h₀
    exact hbefore.append (Follows.entered (r := ⟨b, c, reply, events, b'⟩) hf (hrun.accounts h₀ hring)
      hbefore hcall (hroom _ List.mem_cons_self))

end OrderBook

end Lob
