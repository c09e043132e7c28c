/-
# Lob.PriceLadderMap — a ladder under any history of opens and closes is an ordered map.

The ladder's clients open a level and put an order in it, open a level that already has one, or empty
a level and report it closed.  `contents` is what such a history should leave: a partial map from
prices to levels, with no window, no index and no counter.  `IsOrderedMap` says that a ladder answers
every query as that map does, and the run lemma carries it over every history from every placement.
-/
import Lob.PriceLadderRefine

namespace Lob

open Lib.Ranked

namespace PriceLadder

variable {isBid : Bool} {l : PriceLadder isBid} {m : List (Price × PriceLevel)}

/-- What a client of the ladder does. -/
inductive LadderOp
  /-- `open(price)`, then a non-empty level written through the reference. -/
  | fill (price : Price) (level : PriceLevel)
  /-- `open(price)` at a price that already holds orders. -/
  | reopen (price : Price)
  /-- The last order leaves the level at `price`, and `closed(price)` is called. -/
  | drain (price : Price)
  deriving DecidableEq, Repr

/-- Run one client operation on the ladder. -/
def LadderOp.apply (l : PriceLadder isBid) : LadderOp → Option (PriceLadder isBid)
  | .fill price level =>
    match l.openLevel true price with
    | .ok ref l' => some (l'.store ref level)
    | _ => none
  | .reopen price =>
    match l.openLevel true price with
    | .ok _ l' => some l'
    | _ => none
  | .drain price =>
    match l.find price with
    | some ref => (l.store ref {}).closed price
    | none => none

/-- Run a history of client operations. -/
def runOps (l : PriceLadder isBid) : List LadderOp → Option (PriceLadder isBid)
  | [] => some l
  | op :: ops => (op.apply l).bind fun l' => l'.runOps ops

/-- The abstract map of occupied levels. -/
abbrev Contents := Price → Option PriceLevel

/-- What an operation does to the abstract map. -/
def LadderOp.update (c : Contents) : LadderOp → Contents
  | .fill price level => Function.update c price (some level)
  | .reopen _ => c
  | .drain price => Function.update c price none

/-- What the clients promise: a filled level is non-empty, a reopened or drained one occupied. -/
def LadderOp.Legal (c : Contents) : LadderOp → Prop
  | .fill _ level => level.empty = false
  | .reopen price => (c price).isSome
  | .drain price => (c price).isSome

instance LadderOp.Legal.decidable (c : Contents) : (op : LadderOp) → Decidable (op.Legal c)
  | .fill _ level => inferInstanceAs (Decidable (level.empty = false))
  | .reopen price => inferInstanceAs (Decidable ((c price).isSome = true))
  | .drain price => inferInstanceAs (Decidable ((c price).isSome = true))

/-- Every operation of a history is legal when its turn comes. -/
def LegalOps : Contents → List LadderOp → Prop
  | _, [] => True
  | c, op :: ops => op.Legal c ∧ LegalOps (op.update c) ops

/-- The abstract map a history leaves. -/
def contents (ops : List LadderOp) : Contents :=
  ops.foldl LadderOp.update fun _ => none

/-- The ladder answers every query as the map `c` ordered best-first. -/
structure IsOrderedMap (l : PriceLadder isBid) (c : Contents) : Prop where
  find : ∀ p, (l.find p).map l.deref = c p
  best_none : l.best = none → ∀ p, c p = none
  best_some : ∀ p ref, l.best = some (p, ref) →
    c p = some (l.deref ref) ∧ ∀ q, (c q).isSome → q = p ∨ better isBid p q
  visit_sorted : l.forEachLevel.Pairwise fun a b => better isBid a.1 b.1
  visit_mem : ∀ p level, (p, level) ∈ l.forEachLevel ↔ c p = some level
  /-- From the index of any window price with a worse occupied one, the unguarded scan stops inside
  the window, at the next worse occupied index. -/
  scan : ∀ p q, l.inWindow p → l.inWindow q → (c q).isSome → better isBid p q →
    ∃ j < l.limit, l.nextOccupied (l.index p) = some j ∧ (c (l.priceAt j)).isSome
      ∧ better isBid p (l.priceAt j)
      ∧ ∀ r, l.inWindow r → (c r).isSome → better isBid p r →
          r = l.priceAt j ∨ better isBid (l.priceAt j) r

theorem Represents.isOrderedMap {c : Contents} (h : l.Represents m) (hocc : AllOccupied m)
    (hc : ∀ p, c p = m.lookup p) : l.IsOrderedMap c where
  find p := by
    rw [h.find hocc, hc]
    cases hl : m.lookup p with
    | none => rfl
    | some level =>
      simp only [Option.isSome_some, if_true, Option.map_some]
      rw [h.deref (h.sorted.lookup_eq_some.mp hl)]
  best_none hnone p := by
    rw [h.best_eq, Option.map_eq_none_iff, List.head?_eq_none_iff] at hnone
    rw [hc, hnone]
    rfl
  best_some p ref hbest := by
    rw [h.best_eq] at hbest
    cases m with
    | nil => simp at hbest
    | cons e m =>
      simp only [List.head?_cons, Option.map_some, Option.some.injEq, Prod.mk.injEq] at hbest
      obtain ⟨rfl, rfl⟩ := hbest
      have hmem : (e.1, e.2) ∈ e :: m := by simp
      refine ⟨by rw [hc, h.deref hmem, h.sorted.lookup_eq_some.mpr hmem], fun q hq => ?_⟩
      rw [hc, lookup_isSome] at hq
      obtain ⟨v, hv⟩ := hq
      rcases h.sorted.head_best hv with heq | hb
      · exact Or.inl (congrArg Prod.fst heq)
      · exact Or.inr hb
  visit_sorted := by
    rw [h.forEachLevel hocc]
    exact h.sorted
  visit_mem p level := by
    rw [h.forEachLevel hocc, hc, h.sorted.lookup_eq_some]
  scan p q hp hq hsome hpq := by
    have hmemIn : ∀ r v, (r, v) ∈ m → l.inWindow r → better isBid p r →
        (r, v) ∈ (l.inside m).filter fun e => decide (better isBid p e.1) := fun r v hv hr hlt =>
      List.mem_filter.mpr ⟨List.mem_filter.mpr ⟨hv, hr⟩, by simpa using hlt⟩
    have hworse : ∀ r, l.inWindow r → (c r).isSome → better isBid p r →
        ∃ v, (r, v) ∈ (l.inside m).filter fun e => decide (better isBid p e.1) := by
      intro r hr hcr hlt
      rw [hc, lookup_isSome] at hcr
      obtain ⟨v, hv⟩ := hcr
      exact ⟨v, hmemIn r v hv hr hlt⟩
    have hsorted := h.inside_sorted.filter fun e => decide (better isBid p e.1)
    -- the first window level worse than `p` is the one the scan meets first
    obtain ⟨b, w, hw⟩ : ∃ b w, (l.inside m).filter (fun e => decide (better isBid p e.1)) = b :: w := by
      obtain ⟨v, hv⟩ := hworse q hq hsome hpq
      exact List.exists_cons_of_ne_nil (List.ne_nil_of_mem hv)
    obtain ⟨hb, hpb⟩ := List.mem_filter.mp (show b ∈ _ by rw [hw]; simp)
    obtain ⟨hbm, hbin⟩ := List.mem_filter.mp hb
    have hpb' : better isBid p b.1 := by simpa using hpb
    rw [hw] at hsorted hworse hmemIn
    refine ⟨l.index b.1, index_lt hbin, ?_, ?_, ?_, ?_⟩
    · refine h.nextOccupied hp hb (hocc b hbm) hpb' fun e he hlt => ?_
      obtain ⟨hem, hein⟩ := List.mem_filter.mp he
      exact (hsorted.head_best (hmemIn e.1 e.2 hem hein hlt)).imp (congrArg Prod.fst) id
    · rw [priceAt_index h.fits hbin, hc]
      exact lookup_isSome.mpr ⟨b.2, hbm⟩
    · rw [priceAt_index h.fits hbin]
      exact hpb'
    · rw [priceAt_index h.fits hbin]
      intro r hr hcr hlt
      obtain ⟨v, hv⟩ := hworse r hr hcr hlt
      exact (hsorted.head_best hv).imp (congrArg Prod.fst) id

/-! ## One operation -/

/-- **One client operation is one update of the map**, and the ladder never runs off its array. -/
theorem Represents.apply {c : Contents} (h : l.Represents m) (hocc : AllOccupied m)
    (hc : ∀ p, c p = m.lookup p) {op : LadderOp} (hop : op.Legal c) :
    ∃ l' m', op.apply l = some l' ∧ l'.Represents m' ∧ AllOccupied m'
      ∧ ∀ p, op.update c p = m'.lookup p := by
  cases op with
  | fill price level =>
    have hopen := h.openLevel true (p := price) fun v hv => hocc _ hv
    simp only [LadderOp.apply]
    generalize l.openLevel true price = res at hopen
    cases hopen with
    | ok l' hw _ _ hr =>
      -- the level is opened, found again and written
      have hentry : ∃ v, (price, v) ∈ tryEmplace (better isBid) price {} m := by
        rw [← lookup_isSome, h.sorted.lookup_tryEmplace, if_pos rfl]
        rfl
      obtain ⟨v, hv⟩ := hentry
      have hstore := hr.store hv level
      rw [hw.refOf] at hstore
      refine ⟨_, _, rfl, hstore, ?_, fun p => ?_⟩
      · intro e he
        rcases mem_adjust.mp he with ⟨he, hne⟩ | ⟨-, -, rfl⟩
        · rcases fst_mem_tryEmplace he with he | rfl
          · exact hocc e he
          · exact absurd rfl hne
        · exact hop
      · rw [hr.sorted.lookup_adjust, h.sorted.lookup_tryEmplace, h.sorted.lookup_tryEmplace,
          if_pos rfl, LadderOp.update, Function.update_apply, hc]
        split <;> rfl
    | noNode hmem => exact absurd hmem (by simp)
  | reopen price =>
    have hopen := h.openLevel true (p := price) fun v hv => hocc _ hv
    simp only [LadderOp.apply]
    generalize l.openLevel true price = res at hopen
    cases hopen with
    | ok l' _ _ _ hr =>
      have hsome : (c price).isSome := hop
      rw [hc, lookup_isSome] at hsome
      obtain ⟨v, hv⟩ := hsome
      rw [tryEmplace_of_mem h.sorted hv] at hr
      exact ⟨l', m, rfl, hr, hocc, hc⟩
    | noNode hmem => exact absurd hmem (by simp)
  | drain price =>
    have hsome : (c price).isSome := hop
    rw [hc] at hsome
    obtain ⟨v, hv⟩ := lookup_isSome.mp hsome
    have hfind := h.find hocc price
    rw [if_pos hsome] at hfind
    have hstore := h.store hv {}
    obtain ⟨l', hclosed, -, -, hr⟩ := hstore.closed (p := price)
      (mem_adjust.mpr (Or.inr ⟨v, hv, rfl⟩)) (by
        intro e he hne
        rcases mem_adjust.mp he with ⟨he, -⟩ | ⟨-, -, rfl⟩
        · exact hocc e he
        · exact absurd rfl hne)
    refine ⟨l', _, by rw [LadderOp.apply, hfind]; exact hclosed, hr, ?_, fun p => ?_⟩
    · intro e he
      obtain ⟨he, hne⟩ := mem_erase.mp he
      rcases mem_adjust.mp he with ⟨he, -⟩ | ⟨-, -, rfl⟩
      · exact hocc e he
      · exact absurd rfl hne
    · rw [hstore.sorted.lookup_erase, h.sorted.lookup_adjust, LadderOp.update,
        Function.update_apply, hc]
      split <;> rfl

/-- The run lemma: the map is followed through any legal history. -/
theorem Represents.runOps {c : Contents} (h : l.Represents m) (hocc : AllOccupied m)
    (hc : ∀ p, c p = m.lookup p) {ops : List LadderOp} (hops : LegalOps c ops) :
    ∃ l' m', l.runOps ops = some l' ∧ l'.Represents m' ∧ AllOccupied m'
      ∧ ∀ p, ops.foldl LadderOp.update c p = m'.lookup p := by
  induction ops generalizing l m c with
  | nil => exact ⟨l, m, rfl, h, hocc, hc⟩
  | cons op ops ih =>
    obtain ⟨l₁, m₁, hop, h₁, hocc₁, hc₁⟩ := h.apply hocc hc hops.1
    obtain ⟨l₂, m₂, hrun, h₂⟩ := ih h₁ hocc₁ hc₁ hops.2
    exact ⟨l₂, m₂, by rw [PriceLadder.runOps, hop]; exact hrun, h₂⟩

/-- Where a window may lie before the first open: nowhere, or at a base. -/
def placedAt (l : PriceLadder isBid) : Option Price → PriceLadder isBid
  | none => l
  | some base => l.place base

/-- **A price ladder is an ordered map.** For either side, every window size, every placement before
the first open, and every history its clients may produce: the ladder runs the history without a
subscript out of range, and then answers every query as the map the history describes. -/
theorem ladder_is_ordered_map (isBid : Bool) (windowLevels : Nat) (base : Option Price)
    (ops : List LadderOp) (hops : LegalOps (fun _ => none) ops) :
    ∃ l, ((new isBid windowLevels).placedAt base).runOps ops = some l
      ∧ l.IsOrderedMap (contents ops) := by
  have hstart : ((new isBid windowLevels).placedAt base).Represents [] := by
    cases base with
    | none => exact represents_new windowLevels
    | some base => exact (represents_new windowLevels).place base
  obtain ⟨l, m, hrun, h, hocc, hc⟩ :=
    hstart.runOps (c := fun _ => none) (fun e he => absurd he (by simp)) (fun _ => rfl) hops
  exact ⟨l, hrun, h.isOrderedMap hocc hc⟩

/-- A two-level window with a level on either side of it, emptied at the best price. -/
theorem ladder_is_ordered_map_across_window :
    ∃ l, ((new true 2).placedAt (some 10)).runOps
        [.fill 10 ⟨5, 0, 0⟩, .fill 11 ⟨7, 1, 1⟩, .fill 40 ⟨3, 2, 2⟩, .reopen 11, .drain 11]
          = some l
      ∧ l.IsOrderedMap (contents
        [.fill 10 ⟨5, 0, 0⟩, .fill 11 ⟨7, 1, 1⟩, .fill 40 ⟨3, 2, 2⟩, .reopen 11, .drain 11]) :=
  ladder_is_ordered_map true 2 (some 10) _
    ⟨by decide, by decide, by decide, by decide, by decide, trivial⟩

end PriceLadder

end Lob
