/-
# Lob.FailedGrowth — what an id index is left with when it cannot grow.

`grow` refuses a table past `2^62` cells before it touches anything, but swaps the table out before it
asks for the doubled one.  `Lossless` is what a failed growth should leave: an index that answers,
now and after any later calls, as the one before it.  Only the refusal does
(`failed_growth_lossless_iff`); after a failed allocation every id is gone and a lookup probes an
empty array.
-/
import Lob.IdIndexMap

namespace Lob.IdIndex

variable {υ : Type} [Inhabited υ] {t t' t₀ : IdIndex υ} {past : List (Call υ)} {id : OrderId} {v : υ}
  {mem : Bool} {e : Throw}

/-- What a client sees of a call. -/
inductive Outcome (υ : Type)
  | returned (r : Reply υ)
  | threw (e : Throw)
  | undefined

/-- What a client sees of some calls, each with the outcome its allocation would have; nothing after a
call that is undefined. -/
def outcomes : List (Bool × Call υ) → IdIndex υ → List (Outcome υ)
  | [], _ => []
  | (mem, c) :: cs, t =>
    match t.perform mem c with
    | .ok r t => .returned r :: outcomes cs t
    | .throws e t => .threw e :: outcomes cs t
    | .undefined => [.undefined]

/-- Nothing about `t` is lost in `t'`. -/
structure Lossless (t t' : IdIndex υ) : Prop where
  find : ∀ id, t'.find id = t.find id
  size : t'.count = t.count
  growths : t'.growCount = t.growCount
  later : ∀ cs, outcomes cs t' = outcomes cs t

theorem Lossless.refl (t : IdIndex υ) : Lossless t t :=
  ⟨fun _ => rfl, rfl, rfl, fun _ => rfl⟩

omit [Inhabited υ] in
/-- A lookup in an array of no cells is out of range. -/
theorem find_of_empty (h : t.tableSize = 0) (id : OrderId) : t.find id = none := by
  unfold find probe
  rw [h]
  rfl

/-- **The two ways growth fails**: refused before anything is touched, or with the table gone. -/
theorem insert_throws (h : t.insert mem id v = .throws e t') :
    (2 ^ 62 < t.tableSize ∧ t' = t) ∨ (¬ 2 ^ 62 < t.tableSize ∧ t'.tableSize = 0) := by
  unfold insert at h
  by_cases hfull : t.tableSize < (t.count + 1) * 2
  · rw [if_pos hfull] at h
    unfold grow at h
    by_cases hbig : 2 ^ 62 < t.tableSize
    · rw [if_pos hbig] at h
      exact Or.inl ⟨hbig, (Result.throws.inj h).2.symm⟩
    · rw [if_neg hbig] at h
      cases mem with
      | false => exact Or.inr ⟨hbig, by rw [← (Result.throws.inj h).2]⟩
      | true =>
        -- with memory the growth returns or loops, and the end of `insert` cannot throw
        simp only [if_true] at h
        cases hre : rehash t.table (List.range t.tableSize)
            (resizeTable { t with table := fun _ => ⟨0, default, false⟩, tableSize := 0 }
              (t.tableSize * 2)) with
        | none =>
          rw [hre] at h
          simp at h
        | some q =>
          rw [hre] at h
          simp only at h
          split at h <;> simp at h
  · rw [if_neg hfull] at h
    simp only at h
    split at h <;> simp at h

/-- **A failed growth loses nothing exactly when it is refused outright**, whatever calls led to it. -/
theorem failed_growth_lossless_iff {expected : Nat} (hnew : new expected = some t₀)
    (hrun : Run t₀ past t) (habs : lastValue id past = none)
    (hthrow : t.insert mem id v = .throws e t') : Lossless t t' ↔ 2 ^ 62 < t.tableSize := by
  rcases insert_throws hthrow with ⟨hbig, rfl⟩ | ⟨hsmall, hgone⟩
  · exact ⟨fun _ => hbig, fun _ => Lossless.refl _⟩
  · refine ⟨fun h => ?_, fun h => absurd h hsmall⟩
    obtain ⟨es, hr, ha⟩ := hrun.represents (represents_of_new hnew)
    have hno : id ∉ es.map Prod.fst := fun hmem => by
      have hsome := ha.mem_keys.mp hmem
      rw [habs] at hsome
      simp at hsome
    -- the new id itself was a lookup that ended before the call
    have hfind := h.find id
    rw [find_of_empty hgone, hr.find_absent hno] at hfind
    simp at hfind

/-! ## A table of 16 that cannot double -/

/-- The ids 8 to 1, which fill the smallest table to its half. -/
def eightIds : List (OrderId × UInt32) := [(8, 8), (7, 7), (6, 6), (5, 5), (4, 4), (3, 3), (2, 2), (1, 1)]

theorem eightIds_growth_fails : ∃ t₀ t t' : IdIndex UInt32, new 8 = some t₀
    ∧ Run t₀ (eightIds.map fun e => .insert e.1 e.2) t
    ∧ lastValue 9 (eightIds.map fun e => Call.insert e.1 e.2) = none
    ∧ t.insert false 9 9 = .throws .badAlloc t' ∧ t.tableSize = 16
    ∧ t.find 1 = some (some 1) ∧ t'.find 1 = none := by
  obtain ⟨x, h⟩ := Option.isSome_iff_exists.mp (show
    ((new 8).bind fun t₀ : IdIndex UInt32 => (insertAll t₀ eightIds).bind fun t =>
      (t.insert false 9 9).thrown.bind fun r =>
        if r.1 = .badAlloc ∧ t.tableSize = 16 ∧ t.find 1 = some (some 1) ∧ r.2.find 1 = none then
          some r
        else none).isSome = true by decide +kernel)
  obtain ⟨t₀, hnew, h⟩ := Option.bind_eq_some_iff.mp h
  obtain ⟨t, hall, h⟩ := Option.bind_eq_some_iff.mp h
  obtain ⟨⟨e, t'⟩, hthrown, h⟩ := Option.bind_eq_some_iff.mp h
  obtain ⟨⟨rfl, hshow⟩, -⟩ := Option.ite_none_right_eq_some.mp h
  obtain ⟨hrun, habs⟩ := insertAll_run (by decide) hall
  exact ⟨t₀, t, t', hnew, hrun, habs 9 (by decide), Result.thrown_eq_some.mp hthrown, hshow⟩

/-- When the doubled table cannot be had, the index loses every id. -/
theorem failed_growth_loses_ids : ∃ t₀ t t' : IdIndex UInt32, new 8 = some t₀
    ∧ Run t₀ (eightIds.map fun e => .insert e.1 e.2) t
    ∧ lastValue 9 (eightIds.map fun e => Call.insert e.1 e.2) = none
    ∧ t.insert false 9 9 = .throws .badAlloc t'
    ∧ t.find 1 = some (some 1) ∧ t'.find 1 = none ∧ ¬ Lossless t t' := by
  obtain ⟨t₀, t, t', hnew, hrun, habs, hins, -, hfind, hfind'⟩ := eightIds_growth_fails
  refine ⟨t₀, t, t', hnew, hrun, habs, hins, hfind, hfind', fun h => ?_⟩
  have hlost := h.find 1
  rw [hfind, hfind'] at hlost
  simp at hlost

theorem failed_growth_lossless_iff_full : ∃ t₀ t t' : IdIndex UInt32, new 8 = some t₀
    ∧ Run t₀ (eightIds.map fun e => .insert e.1 e.2) t
    ∧ t.insert false 9 9 = .throws .badAlloc t' ∧ (Lossless t t' ↔ 2 ^ 62 < t.tableSize) := by
  obtain ⟨t₀, t, t', hnew, hrun, habs, hins, -⟩ := eightIds_growth_fails
  exact ⟨t₀, t, t', hnew, hrun, hins, failed_growth_lossless_iff hnew hrun habs hins⟩

end Lob.IdIndex
