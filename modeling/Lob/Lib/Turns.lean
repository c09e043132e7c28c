/-
# Lob.Lib.Turns — threads that take turns on shared data, under one lock and one condition.

Item `k` of the work is for thread `k` modulo the number of threads.  A thread locks, waits until it is
its turn or nothing is left, does its item, passes the turn on, wakes everybody and unlocks.  A thread
that waits is blocked until someone wakes it, or until it wakes for no reason; then it has to lock and
look again.

Every interleaving does the items in order, once each.  Nobody is ever left asleep: where no thread can
move, all are done.  And nobody works forever: the moves are bounded, but for four more that each waking
for no reason may cost.
-/
import Mathlib.Algebra.BigOperators.Fin
import Mathlib.Algebra.Order.BigOperators.Group.Finset

namespace Lob.Lib.Turns

/-- Where a thread stands; from `check` to `notify` it holds the lock. -/
inductive Pc
  | lock
  /-- About to look whether it may go on. -/
  | check
  /-- Waiting for the condition, the lock released. -/
  | blocked
  | work
  /-- Its item is done, the turn not yet passed on. -/
  | pass
  /-- The turn is passed on, the others not yet woken. -/
  | notify
  | done
  deriving DecidableEq, Repr

structure State (n : Nat) (β : Type*) where
  shared : β
  next : Nat := 0
  pc : Fin n → Pc := fun _ => .lock
  holder : Option (Fin n) := none

section Moves

variable {n : Nat} {β : Type*}

/-- Everybody who waits is woken, and has to lock again. -/
def woken (pc : Fin n → Pc) (t : Fin n) : Pc := if pc t = .blocked then .lock else pc t

variable (work : Nat → β → Option β) (size : Nat)

/-- The next move of a thread, if it can make one. -/
def move (t : Fin n) (s : State n β) : Option (State n β) :=
  match s.pc t with
  | .lock =>
    if s.holder = none then
      some { s with pc := Function.update s.pc t .check, holder := some t }
    else none
  | .check =>
    if size ≤ s.next then
      some { s with pc := Function.update s.pc t .done, holder := none }
    else if s.next % n = t.val then some { s with pc := Function.update s.pc t .work }
    else some { s with pc := Function.update s.pc t .blocked, holder := none }
  | .blocked => none
  | .work =>
    (work s.next s.shared).map fun b =>
      { s with shared := b, pc := Function.update s.pc t .pass }
  | .pass => some { s with next := s.next + 1, pc := Function.update s.pc t .notify }
  | .notify => some { s with pc := Function.update (woken s.pc) t .lock, holder := none }
  | .done => none

/-- A waiting thread wakes for no reason. -/
def wake (t : Fin n) (s : State n β) : Option (State n β) :=
  if s.pc t = .blocked then some { s with pc := Function.update s.pc t .lock } else none

/-- The states any interleaving reaches from new threads. -/
inductive Reachable (b₀ : β) : State n β → Prop
  | start : Reachable b₀ { shared := b₀ }
  | move {s s' : State n β} (t : Fin n) (h : Reachable b₀ s) (hmove : move work size t s = some s') :
      Reachable b₀ s'
  | wake {s s' : State n β} (t : Fin n) (h : Reachable b₀ s) (hwake : wake t s = some s') :
      Reachable b₀ s'

/-- A number of moves and a number of wakings for no reason, in any order and whichever threads make them. -/
inductive Moves : Nat → Nat → State n β → State n β → Prop
  | none (s : State n β) : Moves 0 0 s s
  | one {k w : Nat} {s s' s'' : State n β} (t : Fin n) (hmove : move work size t s = some s')
      (h : Moves k w s' s'') : Moves (k + 1) w s s''
  | wake {k w : Nat} {s s' s'' : State n β} (t : Fin n) (hwake : wake t s = some s')
      (h : Moves k w s' s'') : Moves k (w + 1) s s''

/-- The first `k` items, done by one thread. -/
def solo (b₀ : β) : Nat → Option β
  | 0 => some b₀
  | k + 1 => (solo b₀ k).bind (work k)

end Moves

/-! ## What holds in every interleaving -/

/-- Between `check` and `notify`. -/
def Pc.holds : Pc → Bool
  | .check => true
  | .work => true
  | .pass => true
  | .notify => true
  | _ => false

section Safety

variable {n : Nat} {β : Type*} {work : Nat → β → Option β} {size : Nat} {b₀ : β} {s s' : State n β}
  {t : Fin n}

/-- How many items were done: one more than the turn says, while the turn is not yet passed on. -/
def State.worked (s : State n β) : Nat :=
  match s.holder with
  | none => s.next
  | some t => if s.pc t = .pass then s.next + 1 else s.next

/-- **The invariant**: one thread at most is inside; the items before the turn were done, in order; whoever
sleeps has nothing to do, unless the turn was just passed on and everybody is about to be woken. -/
structure Inv (work : Nat → β → Option β) (size : Nat) (b₀ : β) (s : State n β) : Prop where
  holder : ∀ t, (s.pc t).holds = true ↔ s.holder = some t
  shared : solo work b₀ s.worked = some s.shared
  next_le : s.next ≤ size
  inTurn : ∀ t, s.pc t = .work ∨ s.pc t = .pass → s.next < size
  asleep : ∀ t, s.pc t = .blocked →
    (∃ u, s.pc u = .notify) ∨ (s.next < size ∧ s.next % n ≠ t.val)
  finished : ∀ t, s.pc t = .done → size ≤ s.next

/-- No two threads are inside. -/
theorem Inv.alone (h : Inv work size b₀ s) {u : Fin n} (ht : (s.pc t).holds = true)
    (hu : (s.pc u).holds = true) : t = u :=
  Option.some.inj (((h.holder t).mp ht).symm.trans ((h.holder u).mp hu))

theorem inv_start (work : Nat → β → Option β) (size : Nat) (b₀ : β) :
    Inv work size b₀ ({ shared := b₀ } : State n β) := by
  refine ⟨fun t => by simp [Pc.holds], rfl, Nat.zero_le _, fun t ht => ?_, fun t ht => ?_, fun t ht => ?_⟩
  · simp at ht
  · simp at ht
  · simp at ht

/-- What a move of a thread can be. -/
inductive Moved (work : Nat → β → Option β) (size : Nat) (t : Fin n) (s : State n β) :
    State n β → Prop
  | enter (hpc : s.pc t = .lock) (hfree : s.holder = none) :
      Moved work size t s { s with pc := Function.update s.pc t .check, holder := some t }
  | leave (hpc : s.pc t = .check) (hover : size ≤ s.next) :
      Moved work size t s { s with pc := Function.update s.pc t .done, holder := none }
  | goOn (hpc : s.pc t = .check) (hnext : s.next < size) (hturn : s.next % n = t.val) :
      Moved work size t s { s with pc := Function.update s.pc t .work }
  | sleep (hpc : s.pc t = .check) (hnext : s.next < size) (hturn : s.next % n ≠ t.val) :
      Moved work size t s { s with pc := Function.update s.pc t .blocked, holder := none }
  | work (b : β) (hpc : s.pc t = .work) (hwork : work s.next s.shared = some b) :
      Moved work size t s { s with shared := b, pc := Function.update s.pc t .pass }
  | pass (hpc : s.pc t = .pass) :
      Moved work size t s { s with next := s.next + 1, pc := Function.update s.pc t .notify }
  | notify (hpc : s.pc t = .notify) :
      Moved work size t s { s with pc := Function.update (woken s.pc) t .lock, holder := none }

theorem moved (h : move work size t s = some s') : Moved work size t s s' := by
  unfold move at h
  split at h
  · rename_i hpc
    split at h
    · rename_i hfree
      obtain rfl := Option.some.inj h
      exact .enter hpc hfree
    · simp at h
  · rename_i hpc
    split at h
    · rename_i hover
      obtain rfl := Option.some.inj h
      exact .leave hpc hover
    · rename_i hnext
      split at h
      · rename_i hturn
        obtain rfl := Option.some.inj h
        exact .goOn hpc (Nat.not_le.mp hnext) hturn
      · rename_i hturn
        obtain rfl := Option.some.inj h
        exact .sleep hpc (Nat.not_le.mp hnext) hturn
  · simp at h
  · rename_i hpc
    obtain ⟨b, hwork, rfl⟩ := Option.map_eq_some_iff.mp h
    exact .work b hpc hwork
  · rename_i hpc
    obtain rfl := Option.some.inj h
    exact .pass hpc
  · rename_i hpc
    obtain rfl := Option.some.inj h
    exact .notify hpc
  · simp at h

/-- No second thread gets inside. -/
theorem Inv.holder_of_move (h : Inv work size b₀ s) (hmove : Moved work size t s s') (u : Fin n) :
    (s'.pc u).holds = true ↔ s'.holder = some u := by
  have hu := h.holder u
  have ht := h.holder t
  cases hmove <;> simp only [Function.update_apply, woken] <;> grind [Pc.holds]

/-- The shared data is what one thread alone would have made of it. -/
theorem Inv.shared_of_move (h : Inv work size b₀ s) (hmove : Moved work size t s s') :
    solo work b₀ s'.worked = some s'.shared := by
  have hshared := h.shared
  have ht := h.holder t
  cases hmove <;> simp only [State.worked, Function.update_apply] at * <;> grind [Pc.holds, solo]

/-- Whoever sleeps has nothing to do, or will be woken. -/
theorem Inv.asleep_of_move (h : Inv work size b₀ s) (hmove : Moved work size t s s') (u : Fin n)
    (hu : s'.pc u = .blocked) : (∃ v, s'.pc v = .notify) ∨ (s'.next < size ∧ s'.next % n ≠ u.val) := by
  have hasleep := h.asleep u
  have hinside := h.holder
  cases hmove <;> simp only [Function.update_apply, woken] at * <;> grind [Pc.holds]

/-- **A move keeps the invariant.** -/
theorem Inv.move (h : Inv work size b₀ s) (hmove : Turns.move work size t s = some s') :
    Inv work size b₀ s' := by
  have hmoved := moved hmove
  refine ⟨h.holder_of_move hmoved, h.shared_of_move hmoved, ?_, fun u hu => ?_, h.asleep_of_move hmoved,
    fun u hu => ?_⟩
  · have hle := h.next_le
    have hturn := h.inTurn t
    cases hmoved <;> grind
  · have hturn := h.inTurn u
    have halone := h.holder
    cases hmoved <;> simp only [Function.update_apply, woken] at * <;> grind [Pc.holds]
  · have hfinished := h.finished u
    cases hmoved <;> simp only [Function.update_apply, woken] at * <;> grind

/-- No more was done than there is to do. -/
theorem Inv.worked_le (h : Inv work size b₀ s) : s.worked ≤ size := by
  have hle := h.next_le
  unfold State.worked
  split
  · exact hle
  · rename_i t hheld
    split
    · rename_i hpass
      exact h.inTurn t (Or.inr hpass)
    · exact hle

/-- So does a waking for no reason. -/
theorem Inv.wake (h : Inv work size b₀ s) (hwake : Turns.wake t s = some s') :
    Inv work size b₀ s' := by
  unfold Turns.wake at hwake
  split at hwake
  · rename_i hpc
    obtain rfl := Option.some.inj hwake
    have hholder := h.holder
    have hshared := h.shared
    refine ⟨fun u => ?_, ?_, h.next_le, fun u hu => h.inTurn u ?_, fun u hu => ?_, fun u hu => h.finished u ?_⟩
    · have hu := h.holder u
      simp only [Function.update_apply]
      grind [Pc.holds]
    · simp only [State.worked, Function.update_apply] at *
      grind [Pc.holds]
    · simp only [Function.update_apply] at hu
      grind
    · have hasleep := h.asleep u
      simp only [Function.update_apply] at hu ⊢
      grind
    · simp only [Function.update_apply] at hu
      grind
  · simp at hwake

/-- **The run lemma.** -/
theorem Reachable.inv (h : Reachable work size b₀ s) : Inv work size b₀ s := by
  induction h with
  | start => exact inv_start work size b₀
  | move t _ hmove ih => exact ih.move hmove
  | wake t _ hwake ih => exact ih.wake hwake

end Safety

/-! ## Nobody is left asleep -/

section Progress

variable {n : Nat} {β : Type*} {work : Nat → β → Option β} {size : Nat} {b₀ : β} {s s' : State n β}
  {t : Fin n}

/-- The items can all be done, one after the other. -/
def Feasible (work : Nat → β → Option β) (size : Nat) (b₀ : β) : Prop :=
  ∃ b, solo work b₀ size = some b

theorem Feasible.earlier (h : Feasible work size b₀) {k : Nat} (hk : k ≤ size) :
    ∃ b, solo work b₀ k = some b := by
  induction size with
  | zero =>
    obtain rfl := Nat.le_zero.mp hk
    exact h
  | succ size ih =>
    rcases Nat.lt_or_eq_of_le hk with hlt | rfl
    · obtain ⟨b, hb⟩ := h
      obtain ⟨b', hb', -⟩ := Option.bind_eq_some_iff.mp hb
      exact ih ⟨b', hb'⟩ (Nat.le_of_lt_succ hlt)
    · exact h

/-- Whoever is inside can move. -/
theorem Inv.move_of_inside (h : Inv work size b₀ s) (hfeasible : Feasible work size b₀)
    (ht : (s.pc t).holds = true) : ∃ s', Turns.move work size t s = some s' := by
  unfold Turns.move
  cases hpc : s.pc t with
  | check =>
    by_cases hover : size ≤ s.next
    · exact ⟨_, if_pos hover⟩
    · by_cases hturn : s.next % n = t.val
      · exact ⟨_, by rw [if_neg hover, if_pos hturn]⟩
      · exact ⟨_, by rw [if_neg hover, if_neg hturn]⟩
  | work =>
    -- the next item can be done, for the shared data is that of one thread alone
    have hlt := h.inTurn t (Or.inl hpc)
    have hworked : s.worked = s.next := by
      rw [State.worked, (h.holder t).mp ht]
      simp [hpc]
    have hshared := h.shared
    rw [hworked] at hshared
    obtain ⟨b, hb⟩ := hfeasible.earlier (Nat.succ_le_of_lt hlt)
    have hwork : (solo work b₀ s.next).bind (work s.next) = some b := hb
    rw [hshared, Option.bind_some] at hwork
    exact ⟨_, by simp only [hwork, Option.map_some]; rfl⟩
  | pass => exact ⟨_, rfl⟩
  | notify => exact ⟨_, rfl⟩
  | lock =>
    rw [hpc] at ht
    simp [Pc.holds] at ht
  | blocked =>
    rw [hpc] at ht
    simp [Pc.holds] at ht
  | done =>
    rw [hpc] at ht
    simp [Pc.holds] at ht

/-- **No deadlock**: as long as a thread is not done, some thread can move. -/
theorem Inv.progress (h : Inv work size b₀ s) (hfeasible : Feasible work size b₀)
    (ht : s.pc t ≠ .done) : ∃ u s', Turns.move work size u s = some s' := by
  by_contra hstuck
  have hnone : ∀ u, ∀ s', Turns.move work size u s ≠ some s' :=
    fun u s' hmove => hstuck ⟨u, s', hmove⟩
  have houtside : ∀ u, (s.pc u).holds ≠ true := by
    intro u hu
    obtain ⟨s', hmove⟩ := h.move_of_inside hfeasible hu
    exact hnone u s' hmove
  have hfree : s.holder = none := by
    by_contra hheld
    obtain ⟨u, hu⟩ := Option.ne_none_iff_exists'.mp hheld
    exact houtside u ((h.holder u).mpr hu)
  have hlock : ∀ u, s.pc u ≠ .lock := by
    intro u hu
    refine hnone u { s with pc := Function.update s.pc u .check, holder := some u } ?_
    unfold Turns.move
    rw [hu]
    exact if_pos hfree
  have hawake : ∀ u, s.pc u = .blocked → s.next < size ∧ s.next % n ≠ u.val := by
    intro u hu
    refine (h.asleep u hu).resolve_left ?_
    rintro ⟨v, hv⟩
    exact houtside v (by rw [hv]; rfl)
  have hrest : ∀ u, s.pc u = .blocked ∨ s.pc u = .done := by
    intro u
    have hout := houtside u
    have hlock := hlock u
    cases hpc : s.pc u <;> simp_all [Pc.holds]
  -- the thread whose turn it is neither sleeps nor is done
  obtain ⟨hnext, -⟩ := hawake t ((hrest t).resolve_right ht)
  have hn : 0 < n := Nat.lt_of_le_of_lt (Nat.zero_le t.val) t.isLt
  rcases hrest ⟨s.next % n, Nat.mod_lt _ hn⟩ with hasleep | hdone
  · exact (hawake _ hasleep).2 rfl
  · exact absurd (h.finished _ hdone) (Nat.not_le.mpr hnext)

/-- **When all are done, all is done**, as one thread alone would have done it. -/
theorem Inv.complete (h : Inv work size b₀ s) (hn : 0 < n) (hdone : ∀ t, s.pc t = .done) :
    solo work b₀ size = some s.shared := by
  have hnext : s.next = size := Nat.le_antisymm h.next_le (h.finished ⟨0, hn⟩ (hdone _))
  have hfree : s.holder = none := by
    by_contra hheld
    obtain ⟨u, hu⟩ := Option.ne_none_iff_exists'.mp hheld
    have hinside := (h.holder u).mpr hu
    rw [hdone u] at hinside
    simp [Pc.holds] at hinside
  have hshared := h.shared
  rwa [State.worked, hfree, hnext] at hshared

end Progress

/-! ## Nobody works forever -/

section Bound

variable {n : Nat} {β : Type*} {work : Nat → β → Option β} {size : Nat} {b₀ : β} {s s' : State n β}
  {t : Fin n} {k w : Nat}

/-- What a thread may still do before the turn is passed on again; a notifying thread pays for everybody
it wakes. -/
def Pc.weight (n : Nat) : Pc → Nat
  | .lock => 5
  | .check => 4
  | .blocked => 1
  | .work => 3
  | .pass => 2
  | .notify => 4 * n + 6
  | .done => 0

/-- The moves that are left, at most. -/
def State.budget (size : Nat) (s : State n β) : Nat :=
  (size - s.next) * (4 * n + 6) + ∑ t, (s.pc t).weight n

theorem sum_update (pc : Fin n → Pc) (t : Fin n) (p : Pc) :
    ∑ u, (Function.update pc t p u).weight n + (pc t).weight n = ∑ u, (pc u).weight n + p.weight n := by
  rw [← Finset.add_sum_erase _ _ (Finset.mem_univ t), ← Finset.add_sum_erase _ (fun u => (pc u).weight n)
    (Finset.mem_univ t), Function.update_self]
  have hrest : ∑ u ∈ Finset.univ.erase t, (Function.update pc t p u).weight n
      = ∑ u ∈ Finset.univ.erase t, (pc u).weight n :=
    Finset.sum_congr rfl fun u hu => by rw [Function.update_of_ne (Finset.ne_of_mem_erase hu)]
  rw [hrest]
  omega

/-- Waking everybody costs at most four moves each. -/
theorem sum_woken (pc : Fin n → Pc) :
    ∑ u, (woken pc u).weight n ≤ ∑ u, (pc u).weight n + 4 * n := by
  have hone : ∀ u, (woken pc u).weight n ≤ (pc u).weight n + 4 := by
    intro u
    unfold woken
    split
    · rename_i hpc
      rw [hpc]
      exact Nat.le_refl 5
    · exact Nat.le_add_right _ 4
  have hsum := Finset.sum_le_sum fun u (_ : u ∈ Finset.univ) => hone u
  rw [Finset.sum_add_distrib] at hsum
  simpa [Nat.mul_comm] using hsum

/-- **Every move is paid for.** -/
theorem Inv.budget_of_move (h : Inv work size b₀ s) (hmove : Turns.move work size t s = some s') :
    s'.budget size < s.budget size := by
  have hturn := h.inTurn t
  cases moved hmove with
  | enter hpc hfree =>
    have hsum := sum_update s.pc t .check
    rw [hpc] at hsum
    simp only [State.budget, Pc.weight] at hsum ⊢
    omega
  | leave hpc hover =>
    have hsum := sum_update s.pc t .done
    rw [hpc] at hsum
    simp only [State.budget, Pc.weight] at hsum ⊢
    omega
  | goOn hpc hnext hmine =>
    have hsum := sum_update s.pc t .work
    rw [hpc] at hsum
    simp only [State.budget, Pc.weight] at hsum ⊢
    omega
  | sleep hpc hnext hmine =>
    have hsum := sum_update s.pc t .blocked
    rw [hpc] at hsum
    simp only [State.budget, Pc.weight] at hsum ⊢
    omega
  | work b hpc hwork =>
    have hsum := sum_update s.pc t .pass
    rw [hpc] at hsum
    simp only [State.budget, Pc.weight] at hsum ⊢
    omega
  | pass hpc =>
    -- one item less is left, which pays for the notification
    have hsum := sum_update s.pc t .notify
    have hlt := hturn (Or.inr hpc)
    have hleft : size - s.next = size - (s.next + 1) + 1 := by omega
    rw [hpc] at hsum
    simp only [State.budget, hleft, Nat.add_mul, Nat.one_mul, Pc.weight] at hsum ⊢
    omega
  | notify hpc =>
    have hsum := sum_update (woken s.pc) t .lock
    have hall := sum_woken s.pc
    have hsame : woken s.pc t = .notify := by simp [woken, hpc]
    have hself : Pc.weight n .notify = 4 * n + 6 := rfl
    have hlock : Pc.weight n .lock = 5 := rfl
    rw [hsame] at hsum
    simp only [State.budget]
    omega

/-- A waking for no reason adds four to what is left: the thread has to lock and look again. -/
theorem budget_of_wake (size : Nat) (hwake : Turns.wake t s = some s') : s'.budget size = s.budget size + 4 := by
  unfold Turns.wake at hwake
  split at hwake
  · rename_i hpc
    obtain rfl := Option.some.inj hwake
    have hsum := sum_update s.pc t .lock
    rw [hpc] at hsum
    simp only [State.budget, Pc.weight] at hsum ⊢
    omega
  · simp at hwake

theorem Inv.moves (h : Inv work size b₀ s) (hmoves : Moves work size k w s s') :
    Inv work size b₀ s' := by
  induction hmoves with
  | none s => exact h
  | one t hmove _ ih => exact ih (h.move hmove)
  | wake t hwake _ ih => exact ih (h.wake hwake)

/-- **The bound**: as many moves as the budget says and the wakings for no reason cost, and no more. -/
theorem Inv.budget_of_moves (h : Inv work size b₀ s) (hmoves : Moves work size k w s s') :
    k + s'.budget size ≤ s.budget size + 4 * w := by
  induction hmoves with
  | none s => omega
  | one t hmove _ ih =>
    have hfirst := h.budget_of_move hmove
    have hrest := ih (h.move hmove)
    omega
  | wake t hwake _ ih =>
    have hfirst := budget_of_wake size hwake
    have hrest := ih (h.wake hwake)
    omega

end Bound

end Lob.Lib.Turns
