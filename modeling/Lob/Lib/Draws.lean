/-
# Lob.Lib.Draws — programs that draw from a source of random words.

A draw reads its source and yields a value; `Yields d P` says that `P` holds of the value from every
state of the source, so nothing said this way depends on how good the source is.  A program owns a
state besides, and may fail.  `Triple P m Q` is partial correctness over that state, again from every
state of the source: draws leave the state alone, which is why the rule for them has no frame.
-/
import Mathlib.Algebra.Ring.Nat

namespace Lob.Lib.Draws

variable {τ σ α β : Type}

/-! ## Draws -/

abbrev Draw (τ α : Type) := StateM τ α

/-- `P` holds of whatever the draw yields. -/
structure Yields (d : Draw τ α) (P : α → Prop) : Prop where
  value : ∀ t, P (d.run t).1

section Yields

variable {d : Draw τ α} {f : α → Draw τ β} {P P' : α → Prop} {Q : β → Prop} {a : α}

theorem Yields.pure (h : P a) : Yields (Pure.pure a : Draw τ α) P := ⟨fun _ => h⟩

theorem Yields.bind (hd : Yields d P) (hf : ∀ a, P a → Yields (f a) Q) : Yields (d >>= f) Q :=
  ⟨fun t => (hf _ (hd.value t)).value _⟩

theorem Yields.mono (hd : Yields d P) (h : ∀ a, P a → P' a) : Yields d P' :=
  ⟨fun t => h _ (hd.value t)⟩

theorem yields_any (d : Draw τ α) : Yields d fun _ => True := ⟨fun _ => trivial⟩

theorem Yields.ite {c : Bool} {e : Draw τ α} (hd : c = true → Yields d P) (he : c = false → Yields e P) :
    Yields (if c then d else e) P := by
  cases c with
  | true => exact hd rfl
  | false => exact he rfl

end Yields

/-- How often `d` says yes before it says no, counted up to a cap. -/
def countWhile (d : Draw τ Bool) : Nat → Draw τ Nat
  | 0 => pure 0
  | cap + 1 => do
    if ← d then return (← countWhile d cap) + 1
    else return 0

theorem yields_countWhile (d : Draw τ Bool) (cap : Nat) : Yields (countWhile d cap) (· ≤ cap) := by
  induction cap with
  | zero => exact .pure (Nat.le_refl 0)
  | succ cap ih =>
    rw [countWhile]
    apply Yields.bind (yields_any d)
    intro yes _
    apply Yields.ite
    · intro _
      apply Yields.bind ih
      intro n hn
      exact .pure (Nat.succ_le_succ hn)
    · intro _
      exact .pure (Nat.zero_le _)

/-- Fold `n` draws into a value. -/
def foldDraws (d : Draw τ α) (f : β → α → β) : Nat → β → Draw τ β
  | 0, b => pure b
  | n + 1, b => do
    let a ← d
    foldDraws d f n (f b a)

/-- **What one draw extends, `n` draws extend `n` times.** -/
theorem yields_foldDraws {d : Draw τ α} {f : β → α → β} {P : α → Prop} {I : Nat → β → Prop}
    (bound : Nat) (hd : Yields d P) (hf : ∀ k b a, k < bound → I k b → P a → I (k + 1) (f b a)) :
    ∀ n k b, I k b → k + n ≤ bound → Yields (foldDraws d f n b) (I (k + n)) := by
  intro n
  induction n with
  | zero => exact fun k b hI _ => .pure hI
  | succ n ih =>
    intro k b hI hn
    rw [foldDraws]
    apply Yields.bind hd
    intro a ha
    rw [show k + (n + 1) = k + 1 + n by omega]
    exact ih (k + 1) (f b a) (hf k b a (by omega) hI ha) (by omega)

/-! ## Programs -/

/-- A program over a state `σ`, with a source `τ` to draw from, that may fail. -/
abbrev Prog (τ σ α : Type) := StateT σ (StateT τ Option) α

namespace Prog

/-- Run the program from a state and a source. -/
def exec (m : Prog τ σ α) (s : σ) (t : τ) : Option ((α × σ) × τ) := (m.run s).run t

def draw (d : Draw τ α) : Prog τ σ α := fun s t => some (((d.run t).1, s), (d.run t).2)

def fail : Prog τ σ α := fun _ _ => none

def update (f : σ → σ) : Prog τ σ Unit := fun s t => some (((), f s), t)

/-- Do `m` a number of times. -/
def times (m : Prog τ σ Unit) : Nat → Prog τ σ Unit
  | 0 => pure ()
  | n + 1 => do
    m
    times m n

end Prog

open Prog

/-- Started where `P` holds, whatever the source, a run that does not fail ends where `Q` does. -/
structure Triple (P : σ → Prop) (m : Prog τ σ α) (Q : α → σ → Prop) : Prop where
  ends : ∀ s t a s' t', P s → m.exec s t = some ((a, s'), t') → Q a s'

section Rules

variable {P P' : σ → Prop} {m : Prog τ σ α} {f : α → Prog τ σ β} {Q : α → σ → Prop}
  {R : β → σ → Prop} {I : σ → Prop}

theorem Triple.pure {a : α} (h : ∀ s, P s → Q a s) : Triple P (Pure.pure a : Prog τ σ α) Q := by
  constructor
  intro s t a' s' t' hP hrun
  obtain ⟨hr, -⟩ := Prod.mk.inj (Option.some.inj hrun)
  obtain ⟨rfl, rfl⟩ := Prod.mk.inj hr
  exact h s hP

theorem Triple.bind (hm : Triple P m Q) (hf : ∀ a, Triple (Q a) (f a) R) : Triple P (m >>= f) R := by
  constructor
  intro s t b s' t' hP hrun
  obtain ⟨r, hfirst, hrest⟩ := Option.bind_eq_some_iff.mp hrun
  exact (hf r.1.1).ends r.1.2 r.2 b s' t' (hm.ends s t r.1.1 r.1.2 r.2 hP hfirst) hrest

/-- A triple holds from wherever its precondition does. -/
theorem Triple.pre (hm : Triple P m Q) (hpre : ∀ s, P' s → P s) : Triple P' m Q :=
  ⟨fun s t a s' t' hP hrun => hm.ends s t a s' t' (hpre s hP) hrun⟩

/-- A look at the state: from there on the state is known. -/
theorem Triple.get {f : σ → Prog τ σ β} (h : ∀ s, P s → Triple (· = s) (f s) R) :
    Triple P (MonadState.get >>= f) R := by
  constructor
  intro s t b s' t' hP hrun
  exact (h s hP).ends s t b s' t' rfl hrun

theorem triple_set {s₁ : σ} {Q : PUnit → σ → Prop} (h : ∀ s, P s → Q ⟨⟩ s₁) :
    Triple P (set s₁ : Prog τ σ PUnit) Q := by
  constructor
  intro s t a s' t' hP hrun
  obtain ⟨hr, -⟩ := Prod.mk.inj (Option.some.inj hrun)
  obtain ⟨-, rfl⟩ := Prod.mk.inj hr
  exact h s hP

theorem triple_update {g : σ → σ} {Q : Unit → σ → Prop} (h : ∀ s, P s → Q () (g s)) :
    Triple P (update g : Prog τ σ Unit) Q := by
  constructor
  intro s t a s' t' hP hrun
  obtain ⟨hr, -⟩ := Prod.mk.inj (Option.some.inj hrun)
  obtain ⟨-, rfl⟩ := Prod.mk.inj hr
  exact h s hP

/-- A draw leaves the state alone, and what it yields is known from there on. -/
theorem Triple.draw {d : Draw τ α} {D : α → Prop} (hd : Yields d D)
    (h : ∀ a, D a → Triple P (f a) R) : Triple P (Prog.draw d >>= f) R := by
  constructor
  intro s t b s' t' hP hrun
  exact (h _ (hd.value t)).ends s (d.run t).2 b s' t' hP hrun

theorem triple_fail : Triple P (fail : Prog τ σ α) Q := by
  constructor
  intro s t a s' t' _ hrun
  simp [Prog.exec, fail, StateT.run] at hrun

theorem Triple.ite {c : Bool} {n : Prog τ σ α} (hm : c = true → Triple P m Q)
    (hn : c = false → Triple P n Q) : Triple P (if c then m else n) Q := by
  cases c with
  | true => exact hm rfl
  | false => exact hn rfl

/-- **What each round counts, the rounds count up to.** -/
theorem Triple.times_count {m : Prog τ σ Unit} {I : Nat → σ → Prop}
    (hm : ∀ k, Triple (I k) m fun _ => I (k + 1)) (n k : Nat) :
    Triple (I k) (Prog.times m n) fun _ => I (k + n) := by
  induction n generalizing k with
  | zero => exact .pure fun _ h => h
  | succ n ih =>
    apply (hm k).bind
    intro _
    rw [Nat.add_comm n 1, ← Nat.add_assoc]
    exact ih (k + 1)

/-- **What one round keeps, any number of rounds keeps.** -/
theorem Triple.times {m : Prog τ σ Unit} (hm : Triple I m fun _ => I) (n : Nat) :
    Triple I (times m n) fun _ => I := by
  induction n with
  | zero => exact .pure fun _ h => h
  | succ n ih => exact hm.bind fun _ => ih

end Rules

/-! ## Programs that do not fail -/

/-- Started where `P` holds, whatever the source, a run does not fail, and it ends where `Q` holds. -/
structure Total (P : σ → Prop) (m : Prog τ σ α) (Q : α → σ → Prop) : Prop where
  ends : ∀ s t, P s → ∃ a s' t', m.exec s t = some ((a, s'), t') ∧ Q a s'

/-- Do `m` a number of times and keep what it yields. -/
def Prog.collect (m : Prog τ σ α) : Nat → Prog τ σ (List α)
  | 0 => pure []
  | n + 1 => do
    let a ← m
    return a :: (← collect m n)

section TotalRules

variable {P P' : σ → Prop} {m : Prog τ σ α} {f : α → Prog τ σ β} {Q : α → σ → Prop}
  {R : β → σ → Prop}

theorem Total.pure {a : α} (h : ∀ s, P s → Q a s) : Total P (Pure.pure a : Prog τ σ α) Q :=
  ⟨fun s t hP => ⟨a, s, t, rfl, h s hP⟩⟩

theorem Total.bind (hm : Total P m Q) (hf : ∀ a, Total (Q a) (f a) R) : Total P (m >>= f) R := by
  constructor
  intro s t hP
  obtain ⟨a, s₁, t₁, hfirst, hQ⟩ := hm.ends s t hP
  obtain ⟨b, s', t', hrest, hR⟩ := (hf a).ends s₁ t₁ hQ
  exact ⟨b, s', t', Option.bind_eq_some_iff.mpr ⟨_, hfirst, hrest⟩, hR⟩

/-- It is so from wherever the precondition holds. -/
theorem Total.pre (hm : Total P m Q) (hpre : ∀ s, P' s → P s) : Total P' m Q :=
  ⟨fun s t hP => hm.ends s t (hpre s hP)⟩

theorem Total.get {f : σ → Prog τ σ β} (h : ∀ s, P s → Total (· = s) (f s) R) :
    Total P (MonadState.get >>= f) R :=
  ⟨fun s t hP => (h s hP).ends s t rfl⟩

theorem total_set {s₁ : σ} {Q : PUnit → σ → Prop} (h : ∀ s, P s → Q ⟨⟩ s₁) :
    Total P (set s₁ : Prog τ σ PUnit) Q :=
  ⟨fun s t hP => ⟨⟨⟩, s₁, t, rfl, h s hP⟩⟩

theorem Total.draw {d : Draw τ α} {D : α → Prop} (hd : Yields d D)
    (h : ∀ a, D a → Total P (f a) R) : Total P (Prog.draw d >>= f) R :=
  ⟨fun s t hP => (h _ (hd.value t)).ends s (d.run t).2 hP⟩

theorem Total.ite {c : Bool} {n : Prog τ σ α} (hm : c = true → Total P m Q)
    (hn : c = false → Total P n Q) : Total P (if c then m else n) Q := by
  cases c with
  | true => exact hm rfl
  | false => exact hn rfl

/-- **What each round adds to those before it, the rounds add up to**: each yields what is good after what
came before it. -/
theorem Total.collect {J : List α → σ → Prop} {G : List α → α → Prop} (bound : Nat)
    (hm : ∀ past, past.length < bound → Total (J past) m fun a s => J (past ++ [a]) s ∧ G past a) :
    ∀ n past, past.length + n ≤ bound → Total (J past) (Prog.collect m n) fun as s =>
      J (past ++ as) s ∧ as.length = n ∧ ∀ i a, as[i]? = some a → G (past ++ as.take i) a := by
  intro n
  induction n with
  | zero => exact fun past _ => .pure fun s hJ => ⟨by rwa [List.append_nil], rfl, by simp⟩
  | succ n ih =>
    intro past hpast
    rw [Prog.collect]
    apply Total.bind (hm past (by omega))
    intro a
    have hlonger : (past ++ [a]).length + n ≤ bound := by
      rw [List.length_append, List.length_singleton]
      omega
    apply Total.bind (Q := fun as s => G past a ∧ J (past ++ [a] ++ as) s ∧ as.length = n
      ∧ ∀ i a', as[i]? = some a' → G (past ++ [a] ++ as.take i) a')
    · constructor
      intro s t hs
      obtain ⟨as, s', t', hrun, hrest⟩ := (ih (past ++ [a]) hlonger).ends s t hs.1
      exact ⟨as, s', t', hrun, hs.2, hrest⟩
    · intro as
      apply Total.pure
      rintro s ⟨hgood, hJ, hlen, hall⟩
      have hshift : ∀ rest : List α, past ++ [a] ++ rest = past ++ a :: rest :=
        fun rest => List.append_cons past a rest ▸ rfl
      rw [hshift] at hJ
      refine ⟨hJ, by rw [List.length_cons, hlen], ?_⟩
      intro i a' hi
      cases i with
      | zero =>
        rw [List.getElem?_cons_zero, Option.some.injEq] at hi
        rw [List.take_zero, List.append_nil]
        exact hi ▸ hgood
      | succ i =>
        rw [List.getElem?_cons_succ] at hi
        have hrest := hall i a' hi
        rwa [hshift, ← List.take_succ_cons] at hrest

/-- Fewer rounds yield the first ones. -/
theorem Prog.collect_take {n : Nat} : ∀ {i : Nat} {s s' : σ} {t t' : τ} {as : List α}, i ≤ n →
    (Prog.collect m n).exec s t = some ((as, s'), t') →
      ∃ s₁ t₁, (Prog.collect m i).exec s t = some ((as.take i, s₁), t₁) := by
  induction n with
  | zero =>
    intro i s s' t t' as hi hrun
    obtain rfl := Nat.le_zero.mp hi
    exact ⟨s, t, rfl⟩
  | succ n ih =>
    intro i s s' t t' as hi hrun
    cases i with
    | zero => exact ⟨s, t, rfl⟩
    | succ i =>
      obtain ⟨r, hfirst, hrest⟩ := Option.bind_eq_some_iff.mp hrun
      obtain ⟨q, hcollect, hcons⟩ := Option.bind_eq_some_iff.mp hrest
      obtain ⟨s₁, t₁, hfew⟩ := ih (Nat.le_of_succ_le_succ hi) hcollect
      obtain ⟨hq, -⟩ := Prod.mk.inj (Option.some.inj hcons)
      obtain ⟨rfl, -⟩ := Prod.mk.inj hq
      refine ⟨s₁, t₁, Option.bind_eq_some_iff.mpr ⟨r, hfirst, ?_⟩⟩
      exact Option.bind_eq_some_iff.mpr ⟨_, hfew, rfl⟩

end TotalRules

end Lob.Lib.Draws
