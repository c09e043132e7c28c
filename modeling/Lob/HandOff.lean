/-
# Lob.HandOff — one book handed between threads under a lock.

The book promises nothing to two threads at once; it may change hands under a lock.  The threads of the
contract test take their turns in a fixed order, so the operations reach the book as one thread would
have made them, whatever the interleaving.  An exception would leave the thread, so the book is given
every allocation it asks for.
-/
import Lob.Lib.Turns
import Lob.DiffHarness

namespace Lob.Difftest

open OrderBook Lib

/-! ## The source's operations -/

def kThreads : Nat := 4

/-- `apply`: the call of an operation, its report ignored. -/
def apply (b : OrderBook) (op : Op) : Option OrderBook :=
  match b.perform {} op.call with
  | .ok _ b => some b
  | .throws _ _ => none
  | .undefined => none

/-- `for (const Op& op : ops) apply(solo, op)`. -/
def applyAll : List Op → OrderBook → Option OrderBook
  | [], b => some b
  | op :: ops, b => (apply b op).bind (applyAll ops)

/-- `apply(shared, ops[next])`. -/
def applyNext (ops : List Op) (next : Nat) (b : OrderBook) : Option OrderBook :=
  ops[next]?.bind (apply b)

/-- What the threads of the test can do to the book, in any order. -/
abbrev Handed (ops : List Op) (n : Nat) (b₀ : OrderBook) : Turns.State n OrderBook → Prop :=
  Turns.Reachable (applyNext ops) ops.length b₀

/-! ## One thread alone -/

section Solo

variable {b₀ b : OrderBook} {ops : List Op} {Q₀ : Layout} {free₀ : List SlotIndex}

/-- The operations one by one are the operations of the loop. -/
theorem solo_eq_applyAll (ops : List Op) (b₀ : OrderBook) {k : Nat} (hk : k ≤ ops.length) :
    Turns.solo (applyNext ops) b₀ k = applyAll (ops.take k) b₀ := by
  have hconcat : ∀ (ops : List Op) (op : Op) (b : OrderBook),
      applyAll (ops ++ [op]) b = (applyAll ops b).bind fun b => apply b op := by
    intro ops op
    induction ops with
    | nil =>
      intro b
      show (apply b op).bind some = apply b op
      exact Option.bind_fun_some _
    | cons op' ops ih =>
      intro b
      rw [List.cons_append, applyAll, applyAll, Option.bind_assoc]
      exact congrArg _ (funext ih)
  induction k with
  | zero => rfl
  | succ k ih =>
    rw [Turns.solo, ih (Nat.le_of_succ_le hk), List.take_succ_eq_append_getElem hk, hconcat]
    refine congrArg _ (funext fun b => ?_)
    rw [applyNext, List.getElem?_eq_getElem hk, Option.bind_some]

/-- **Alone, every operation returns**, and the book has seen them in order. -/
theorem run_of_solo (h₀ : b₀.Follows {} Q₀ free₀) (hlen : ops.length ≤ 2 ^ 31) {k : Nat}
    (hk : k ≤ ops.length) : ∃ past b, Turns.solo (applyNext ops) b₀ k = some b ∧ Run b₀ past b
      ∧ past.map Record.call = ((ops.take k).map Op.call).reverse := by
  induction k with
  | zero => exact ⟨[], b₀, rfl, .start, rfl⟩
  | succ k ih =>
    obtain ⟨past, b, hsolo, hrun, hcalls⟩ := ih (Nat.le_of_succ_le hk)
    have hcount : past.length = k := by
      have hlen := congrArg List.length hcalls
      rw [List.length_map, List.length_reverse, List.length_map, List.length_take] at hlen
      omega
    obtain ⟨reply, events, b', hok⟩ := hrun.perform_granted h₀ (by omega) (ops[k].call)
    refine ⟨⟨b, ops[k].call, reply, events, b'⟩ :: past, b', ?_, .call {} _ reply events hrun hok, ?_⟩
    · rw [Turns.solo, hsolo, Option.bind_some, applyNext, List.getElem?_eq_getElem hk, Option.bind_some,
        apply, hok]
    · rw [List.map_cons, hcalls, List.take_succ_eq_append_getElem hk, List.map_append,
        List.reverse_append]
      rfl

end Solo

/-! ## Any number of threads -/

section Threads

variable {scrub : RestingOrder → RestingOrder} {cfg : Config} {b₀ : OrderBook} {ops : List Op} {n k : Nat}
  {s s' : Turns.State n OrderBook}

/-- **Handing the book around changes nothing**, for any number of threads and every interleaving of
theirs: one thread at most is at the book; the book has seen the first operations, in order and once each;
only so many moves are left, whoever makes them, and four more for each time a thread wakes for no reason;
and where no thread can move, all are done and the book is the one a single thread makes of all
operations. -/
theorem handed_book_is_solo (ops : List Op) (hnew : OrderBook.new scrub cfg = some b₀)
    (hlen : ops.length ≤ 2 ^ 31) (hn : 0 < n) (hs : Handed ops n b₀ s) :
    (∀ t u, (s.pc t).holds = true → (s.pc u).holds = true → t = u)
      ∧ (∃ past, Run b₀ past s.shared
        ∧ past.map Record.call = ((ops.take s.worked).map Op.call).reverse)
      ∧ ∀ k w s', Turns.Moves (applyNext ops) ops.length k w s s' → k ≤ s.budget ops.length + 4 * w
        ∧ ((∀ t, Turns.move (applyNext ops) ops.length t s' = none) →
          (∀ t, s'.pc t = .done) ∧ applyAll ops b₀ = some s'.shared) := by
  obtain ⟨h₀, -⟩ := new_follows hnew
  have hinv := hs.inv
  have hfeasible : Turns.Feasible (applyNext ops) ops.length b₀ := by
    obtain ⟨past, b, hsolo, -⟩ := run_of_solo h₀ hlen (Nat.le_refl ops.length)
    exact ⟨b, hsolo⟩
  refine ⟨fun t u => hinv.alone, ?_, fun k w s' hmoves => ?_⟩
  · obtain ⟨past, b, hsolo, hrun, hcalls⟩ := run_of_solo h₀ hlen hinv.worked_le
    rw [hinv.shared] at hsolo
    obtain rfl := Option.some.inj hsolo
    exact ⟨past, hrun, hcalls⟩
  · have hpaid := hinv.budget_of_moves hmoves
    have hinv' := hinv.moves hmoves
    refine ⟨by omega, fun hstuck => ?_⟩
    -- a thread that is not done leaves some thread a move
    have hdone : ∀ t, s'.pc t = .done := by
      intro t
      by_contra hbusy
      obtain ⟨u, s'', hmove⟩ := hinv'.progress hfeasible hbusy
      rw [hstuck u] at hmove
      simp at hmove
    have hall := hinv'.complete hn hdone
    rw [solo_eq_applyAll ops b₀ (Nat.le_refl _), List.take_length] at hall
    exact ⟨hdone, hall⟩

/-- Four threads about to begin. -/
theorem handed_book_is_solo_four : ∃ b₀, OrderBook.new id {} = some b₀
    ∧ ∀ k w s', Turns.Moves (applyNext overflow) overflow.length k w
        ({ shared := b₀ } : Turns.State kThreads OrderBook) s' →
      (∀ t, Turns.move (applyNext overflow) overflow.length t s' = none) →
        applyAll overflow b₀ = some s'.shared := by
  obtain ⟨b₀, hnew⟩ : ∃ b₀, OrderBook.new id {} = some b₀ :=
    Option.isSome_iff_exists.mp (by decide +kernel)
  obtain ⟨-, -, hend⟩ := handed_book_is_solo overflow hnew (by decide) (by decide)
    (.start : Handed overflow kThreads b₀ { shared := b₀ })
  exact ⟨b₀, hnew, fun k w s' hmoves hstuck => ((hend k w s' hmoves).2 hstuck).2⟩

end Threads

end Lob.Difftest
