/-
# Lob.Lib.Machine — deterministic machines run with a bound.

A loop is a machine: a partial step and a test for its end.  `runUntil` takes a number of steps after
which it gives up; a machine whose steps lower a rank reaches its end within that rank, and keeps on
the way whatever each step keeps.  The rank is an argument of the invariant, so it may speak of data
that the state only determines up to proof.
-/
import Mathlib.Logic.Relation

namespace Lob.Lib.Machine

variable {σ : Type*}

/-- Step until `done`, at most `fuel` times; `none` when the machine is stuck or still running. -/
def runUntil (done : σ → Bool) (step : σ → Option σ) : Nat → σ → Option σ
  | 0, s => if done s then some s else none
  | fuel + 1, s => if done s then some s else (step s).bind (runUntil done step fuel)

/-- The states a machine passes through. -/
def Reaches (step : σ → Option σ) : σ → σ → Prop :=
  Relation.ReflTransGen fun s s' => step s = some s'

section

variable {done : σ → Bool} {step : σ → Option σ}

/-- **A ranked invariant brings the machine to its end.** -/
theorem runUntil_of_rank (done : σ → Bool) (step : σ → Option σ) (I : Nat → σ → Prop)
    (hstep : ∀ n s, I n s → done s = false → ∃ s', step s = some s' ∧ ∃ n' < n, I n' s') :
    ∀ (fuel n : Nat) (s : σ), I n s → n ≤ fuel →
      ∃ s', runUntil done step fuel s = some s' ∧ done s' = true ∧ ∃ n', I n' s' := by
  intro fuel
  induction fuel with
  | zero =>
    intro n s hI hn
    cases hd : done s with
    | true => exact ⟨s, by rw [runUntil, if_pos hd], hd, n, hI⟩
    | false =>
      obtain ⟨-, -, n', hlt, -⟩ := hstep n s hI hd
      omega
  | succ fuel ih =>
    intro n s hI hn
    cases hd : done s with
    | true => exact ⟨s, by rw [runUntil, if_pos hd], hd, n, hI⟩
    | false =>
      obtain ⟨s', hs', n', hlt, hI'⟩ := hstep n s hI hd
      obtain ⟨s'', hrun, hdone, hlast⟩ := ih n' s' hI' (by omega)
      exact ⟨s'', by rw [runUntil, if_neg (by simp [hd]), hs']; exact hrun, hdone, hlast⟩

/-- What a run ends with, the machine passes through. -/
theorem reaches_of_runUntil {fuel : Nat} {s s' : σ} (h : runUntil done step fuel s = some s') :
    Reaches step s s' ∧ done s' = true := by
  induction fuel generalizing s with
  | zero =>
    unfold runUntil at h
    split at h
    · rename_i hd
      obtain rfl := Option.some.inj h
      exact ⟨Relation.ReflTransGen.refl, hd⟩
    · simp at h
  | succ fuel ih =>
    unfold runUntil at h
    split at h
    · rename_i hd
      obtain rfl := Option.some.inj h
      exact ⟨Relation.ReflTransGen.refl, hd⟩
    · obtain ⟨s₁, hs₁, hrun⟩ := Option.bind_eq_some_iff.mp h
      obtain ⟨hreach, hdone⟩ := ih hrun
      exact ⟨Relation.ReflTransGen.head hs₁ hreach, hdone⟩

/-- **An invariant of the step holds in every state the machine passes through.** -/
theorem Reaches.invariant {J : σ → Prop} {s s' : σ} (h : Reaches step s s') (hJ : J s)
    (hstep : ∀ s s', J s → step s = some s' → J s') : J s' := by
  induction h with
  | refl => exact hJ
  | tail _ hlast ih => exact hstep _ _ ih hlast

/-- What a run puts out, step by step, in the order of the steps. -/
def outputs {ω : Type*} (done : σ → Bool) (step : σ → Option σ) (out : σ → List ω) :
    Nat → σ → List ω
  | 0, _ => []
  | fuel + 1, s =>
    if done s then []
    else out s ++
      match step s with
      | none => []
      | some s' => outputs done step out fuel s'

/-- **What each step keeps of the state and of everything put out so far**, newest first, the whole
run keeps. -/
theorem runUntil_outputs {ω : Type*} {out : σ → List ω} {J : σ → List ω → Prop}
    (hstep : ∀ s s' past, J s past → done s = false → step s = some s' →
      J s' ((out s).reverse ++ past))
    {fuel : Nat} {s s' : σ} {past : List ω} (h : runUntil done step fuel s = some s') (hJ : J s past) :
    J s' ((outputs done step out fuel s).reverse ++ past) := by
  induction fuel generalizing s past with
  | zero =>
    unfold runUntil at h
    split at h
    · obtain rfl := Option.some.inj h
      exact hJ
    · simp at h
  | succ fuel ih =>
    unfold runUntil at h
    unfold outputs
    split at h
    · rename_i hd
      obtain rfl := Option.some.inj h
      rw [if_pos hd]
      exact hJ
    · rename_i hd
      obtain ⟨s₁, hs₁, hrun⟩ := Option.bind_eq_some_iff.mp h
      have hnext := ih hrun (hstep s s₁ past hJ (by simpa using hd) hs₁)
      rw [if_neg hd, hs₁, List.reverse_append, List.append_assoc]
      exact hnext

end

end Lob.Lib.Machine
