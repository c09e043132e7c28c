/-
# Lob.Lib.Shrink — greedy delta debugging of a failing list.

Chunks are cut out of the list as long as what is left still fails, in passes over chunk sizes that
halve from half the list down to one element; the passes repeat until one cuts nothing.  A pass that cuts
nothing has tried every chunk of every one of its sizes, which is what the result is minimal against.
The verdict may itself have no answer, and then neither has the shrinking.
-/
import Mathlib.Algebra.Ring.Nat
import Mathlib.Data.List.Basic

namespace Lob.Lib.Shrink

variable {α : Type*}

/-- The list without the `chunk` elements from position `i` on. -/
def without (xs : List α) (i chunk : Nat) : List α := xs.take i ++ xs.drop (i + chunk)

/-- The sizes of a pass: `chunk`, its half and so on, while there is anything left to halve. -/
def halvings (chunk : Nat) : Set Nat := { c | 1 ≤ c ∧ ∃ k, c = chunk / 2 ^ k }

/-- What is left of the list, and whether anything was cut since the pass began. -/
structure State (α : Type*) where
  failing : List α
  progress : Bool

section Loops

variable (fails : List α → Option Bool)

/-- Whether a candidate is worth keeping: an empty one never is. -/
def keeps (candidate : List α) : Option Bool :=
  if candidate.isEmpty then some false else fails candidate

/-- Cut chunks of one size, from position `i` on; a cut leaves the position where it is. -/
def sweep (chunk : Nat) : Nat → Nat → State α → Option (State α)
  | 0, _, _ => none
  | fuel + 1, i, s =>
    if i + chunk ≤ s.failing.length then
      match keeps fails (without s.failing i chunk) with
      | none => none
      | some true => sweep chunk fuel i ⟨without s.failing i chunk, true⟩
      | some false => sweep chunk fuel (i + 1) s
    else some s

/-- Sweep with chunks of size `chunk`, of half of it, and so on down to one. -/
def pass : Nat → Nat → State α → Option (State α)
  | 0, _, _ => none
  | fuel + 1, chunk, s =>
    if 1 ≤ chunk then
      match sweep fails chunk (s.failing.length + 1) 0 s with
      | none => none
      | some s => if chunk = 1 then some s else pass fuel (chunk / 2) s
    else some s

/-- Passes, as long as they make progress and there is more than one element left. -/
def passes : Nat → State α → Option (List α)
  | 0, _ => none
  | fuel + 1, s =>
    if s.progress && decide (1 < s.failing.length) then
      match pass fails (s.failing.length + 1) (s.failing.length / 2) ⟨s.failing, false⟩ with
      | none => none
      | some s => passes fuel s
    else some s.failing

def shrink (failing : List α) : Option (List α) := passes fails (failing.length + 1) ⟨failing, true⟩

end Loops

/-! ## Cutting -/

section Facts

variable {fails : List α → Option Bool} {xs ys : List α} {i chunk : Nat}

theorem without_sublist (xs : List α) (i chunk : Nat) : (without xs i chunk).Sublist xs := by
  have hsplit : (xs.take i ++ (xs.drop i).drop chunk).Sublist (xs.take i ++ xs.drop i) :=
    (List.Sublist.refl _).append (List.drop_sublist _ _)
  rw [List.take_append_drop, List.drop_drop] at hsplit
  exact hsplit

theorem length_without (h : i + chunk ≤ xs.length) :
    (without xs i chunk).length = xs.length - chunk := by
  rw [without, List.length_append, List.length_take, List.length_drop]
  omega

/-- The halvings of a chunk end at one element. -/
theorem one_mem_halvings (h : 1 ≤ chunk) : 1 ∈ halvings chunk := by
  refine ⟨Nat.le_refl 1, chunk.log2, ?_⟩
  have hne : chunk ≠ 0 := by omega
  have hlow := Nat.log2_self_le hne
  have hhigh := Nat.lt_log2_self (n := chunk)
  rw [Nat.pow_succ] at hhigh
  exact ((Nat.div_eq_iff (Nat.two_pow_pos _)).mpr (by omega)).symm

/-- The verdict answers on everything that may be left of the list. -/
def Answers (fails : List α → Option Bool) (xs : List α) : Prop :=
  ∀ ys, ys.Sublist xs → ys ≠ [] → ∃ verdict, fails ys = some verdict

theorem Answers.sublist (h : Answers fails xs) (hys : ys.Sublist xs) : Answers fails ys :=
  fun zs hzs hne => h zs (hzs.trans hys) hne

theorem Answers.keeps (h : Answers fails xs) (hys : ys.Sublist xs) :
    ∃ verdict, keeps fails ys = some verdict
      ∧ (verdict = true → fails ys = some true ∧ ys ≠ [])
      ∧ (verdict = false → ys ≠ [] → fails ys = some false) := by
  unfold Shrink.keeps
  by_cases hnil : ys = []
  · exact ⟨false, by rw [hnil]; rfl, by simp, fun _ hne => absurd hnil hne⟩
  · obtain ⟨verdict, hverdict⟩ := h ys hys hnil
    rw [if_neg (by simpa using hnil)]
    exact ⟨verdict, hverdict, fun heq => ⟨heq ▸ hverdict, hnil⟩, fun heq _ => heq ▸ hverdict⟩

/-- Nothing that leaves something can be cut in one piece of size `chunk` from position `i` on. -/
def Tried (fails : List α → Option Bool) (xs : List α) (chunk i : Nat) : Prop :=
  ∀ j, i ≤ j → j + chunk ≤ xs.length → without xs j chunk ≠ [] →
    fails (without xs j chunk) = some false

/-- **What the loops do to the state**: the list only loses elements and goes on failing; and where it has
lost nothing, `T` has been tried in vain. -/
structure Cut (fails : List α → Option Bool) (s s' : State α) (T : Prop) : Prop where
  sublist : s'.failing.Sublist s.failing
  still : fails s.failing = some true ∧ s.failing ≠ [] → fails s'.failing = some true ∧ s'.failing ≠ []
  cut : (s' = s ∧ T) ∨ (s'.progress = true ∧ s'.failing.length < s.failing.length)

theorem Cut.trans {s s' s'' : State α} {T T' : Prop} (h : Cut fails s s' T)
    (h' : Cut fails s' s'' T') : Cut fails s s'' (T ∧ s' = s ∧ T') := by
  refine ⟨h'.sublist.trans h.sublist, fun hs => h'.still (h.still hs), ?_⟩
  rcases h.cut with ⟨rfl, hT⟩ | ⟨hprogress, hlt⟩
  · rcases h'.cut with ⟨rfl, hT'⟩ | hcut
    · exact Or.inl ⟨rfl, hT, rfl, hT'⟩
    · exact Or.inr hcut
  · refine Or.inr ?_
    rcases h'.cut with ⟨rfl, -⟩ | ⟨hprogress', hlt'⟩
    · exact ⟨hprogress, hlt⟩
    · exact ⟨hprogress', Nat.lt_trans hlt' hlt⟩

theorem Cut.mono {s s' : State α} {T T' : Prop} (h : Cut fails s s' T) (hT : s' = s → T → T') :
    Cut fails s s' T' := by
  refine ⟨h.sublist, h.still, ?_⟩
  rcases h.cut with ⟨hs, ht⟩ | hcut
  · exact Or.inl ⟨hs, hT hs ht⟩
  · exact Or.inr hcut

/-! ## The three loops -/

/-- **One chunk size.**  The induction is on what lies between the position and the end of the list. -/
theorem sweep_cuts (hchunk : 1 ≤ chunk) :
    ∀ (fuel i : Nat) (s : State α), Answers fails s.failing → s.failing.length - i < fuel →
      ∃ s', sweep fails chunk fuel i s = some s' ∧ Cut fails s s' (Tried fails s.failing chunk i) := by
  intro fuel
  induction fuel with
  | zero =>
    intro i s _ hfuel
    omega
  | succ fuel ih =>
    intro i s hans hfuel
    unfold sweep
    by_cases hroom : i + chunk ≤ s.failing.length
    · have hsub := without_sublist s.failing i chunk
      have hlen := length_without hroom
      obtain ⟨verdict, hkeeps, hyes, hno⟩ := hans.keeps hsub
      rw [if_pos hroom, hkeeps]
      cases verdict with
      | true =>
        obtain ⟨s', hrun, hcut⟩ := ih i ⟨without s.failing i chunk, true⟩ (hans.sublist hsub) (by
          show (without s.failing i chunk).length - i < fuel
          omega)
        refine ⟨s', hrun, hcut.sublist.trans hsub, fun _ => hcut.still (hyes rfl), Or.inr ?_⟩
        rcases hcut.cut with ⟨rfl, -⟩ | ⟨hprogress, hlt⟩
        · refine ⟨rfl, ?_⟩
          show (without s.failing i chunk).length < _
          omega
        · refine ⟨hprogress, ?_⟩
          have hlt' : s'.failing.length < (without s.failing i chunk).length := hlt
          omega
      | false =>
        obtain ⟨s', hrun, hcut⟩ := ih (i + 1) s hans (by omega)
        refine ⟨s', hrun, hcut.mono fun _ htried j hj hfits hne => ?_⟩
        rcases Nat.eq_or_lt_of_le hj with rfl | hlt
        · exact hno rfl hne
        · exact htried j hlt hfits hne
    · rw [if_neg hroom]
      refine ⟨s, rfl, List.Sublist.refl _, id, Or.inl ⟨rfl, fun j hj hfits _ => ?_⟩⟩
      omega

/-- **One pass**, over a chunk size and its halvings. -/
theorem pass_cuts :
    ∀ (fuel chunk : Nat) (s : State α), Answers fails s.failing → chunk < fuel →
      ∃ s', pass fails fuel chunk s = some s'
        ∧ Cut fails s s' (∀ c ∈ halvings chunk, Tried fails s.failing c 0) := by
  intro fuel
  induction fuel with
  | zero =>
    intro chunk s _ hfuel
    omega
  | succ fuel ih =>
    intro chunk s hans hfuel
    unfold pass
    by_cases hchunk : 1 ≤ chunk
    · obtain ⟨s₁, hrun₁, hcut₁⟩ := sweep_cuts hchunk (s.failing.length + 1) 0 s hans (by omega)
      rw [if_pos hchunk, hrun₁]
      by_cases hone : chunk = 1
      · rw [hone] at hcut₁ ⊢
        refine ⟨s₁, rfl, hcut₁.mono fun _ htried c hc => ?_⟩
        obtain ⟨hpos, k, rfl⟩ := hc
        have hle : 1 / 2 ^ k ≤ 1 := Nat.div_le_self 1 _
        rw [Nat.le_antisymm hle hpos]
        exact htried
      · obtain ⟨s₂, hrun₂, hcut₂⟩ := ih (chunk / 2) s₁ (hans.sublist hcut₁.sublist) (by omega)
        simp only [if_neg hone]
        refine ⟨s₂, hrun₂, (hcut₁.trans hcut₂).mono fun hs htried c hc => ?_⟩
        obtain ⟨hpos, k, rfl⟩ := hc
        cases k with
        | zero =>
          rw [Nat.pow_zero, Nat.div_one]
          exact htried.1
        | succ k =>
          -- the sizes after the first are the halvings of its half
          have hhalf : chunk / 2 ^ (k + 1) = chunk / 2 / 2 ^ k := by
            rw [Nat.div_div_eq_div_mul, ← Nat.pow_succ']
          rw [hhalf] at hpos ⊢
          obtain ⟨-, hsame, hrest⟩ := htried
          rw [← hsame]
          exact hrest _ ⟨hpos, k, rfl⟩
    · rw [if_neg hchunk]
      refine ⟨s, rfl, List.Sublist.refl _, id, Or.inl ⟨rfl, fun c hc => ?_⟩⟩
      obtain ⟨hpos, k, rfl⟩ := hc
      have hle : chunk / 2 ^ k ≤ chunk := Nat.div_le_self _ _
      omega

/-- **All passes.**  Every pass but the last one makes the list shorter, so one more pass than there are
elements is enough. -/
theorem passes_cut :
    ∀ (fuel : Nat) (s : State α), Answers fails s.failing → s.failing.length < fuel →
      s.progress = true → fails s.failing = some true → s.failing ≠ [] →
      ∃ left, passes fails fuel s = some left ∧ left.Sublist s.failing
        ∧ fails left = some true ∧ left ≠ []
        ∧ (1 < left.length → ∀ c ∈ halvings (left.length / 2), Tried fails left c 0) := by
  intro fuel
  induction fuel with
  | zero =>
    intro s _ hfuel
    omega
  | succ fuel ih =>
    intro s hans hfuel hprogress hfails hne
    unfold passes
    by_cases hmore : 1 < s.failing.length
    · obtain ⟨s', hrun, hcut⟩ := pass_cuts (s.failing.length + 1) (s.failing.length / 2)
        ⟨s.failing, false⟩ hans (by omega)
      obtain ⟨hfails', hne'⟩ := hcut.still ⟨hfails, hne⟩
      rw [hprogress, decide_eq_true hmore, Bool.and_self, if_pos rfl, hrun]
      rcases hcut.cut with ⟨rfl, htried⟩ | ⟨hprogress', hlt⟩
      · -- nothing was cut: the loop ends with the next look at the flag
        refine ⟨s.failing, ?_, List.Sublist.refl _, hfails, hne, fun _ => htried⟩
        cases fuel with
        | zero => omega
        | succ fuel => rfl
      · have hlt' : s'.failing.length < s.failing.length := hlt
        obtain ⟨left, hpasses, hsub, hrest⟩ := ih s' (hans.sublist hcut.sublist) (by omega)
          hprogress' hfails' hne'
        exact ⟨left, hpasses, hsub.trans hcut.sublist, hrest⟩
    · rw [decide_eq_false hmore, Bool.and_false, if_neg Bool.false_ne_true]
      exact ⟨s.failing, rfl, List.Sublist.refl _, hfails, hne, fun h => absurd h hmore⟩

/-- **Shrinking ends with a list that still fails and that no single cut of its last pass would keep
failing.** -/
theorem shrink_minimal (hans : Answers fails xs) (hfails : fails xs = some true) (hne : xs ≠ []) :
    ∃ left, shrink fails xs = some left ∧ left.Sublist xs ∧ fails left = some true ∧ left ≠ []
      ∧ (1 < left.length → ∀ c ∈ halvings (left.length / 2), ∀ i, i + c ≤ left.length →
          without left i c ≠ [] → fails (without left i c) = some false) := by
  obtain ⟨left, hrun, hsub, hleft, hleftNe, htried⟩ := passes_cut (xs.length + 1) ⟨xs, true⟩ hans
    (Nat.lt_succ_self _) rfl hfails hne
  exact ⟨left, hrun, hsub, hleft, hleftNe,
    fun hlen c hc i hfits hrest => htried hlen c hc i (Nat.zero_le i) hfits hrest⟩

end Facts

end Lob.Lib.Shrink
