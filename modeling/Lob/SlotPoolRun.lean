/-
# Lob.SlotPoolRun — a slot pool under any history of calls.

A history says by itself which slots are live and in what order the freed ones lie.  The run lemma is
that the pool's partition is the one the history tells; every promise about the next call is read off
that partition.

The last section is about initial blocks that do not fit the index space.  The mark is a 64-bit
counter, the index handed out is its low half, and nothing compares the two while the block has room.
-/
import Lob.SlotPool

namespace Lob.SlotPool

variable {α : Type} [Inhabited α]

/-! ## Histories -/

/-- A call that returned. -/
inductive Event
  | acquired (i : SlotIndex)
  | released (i : SlotIndex)
  | written (i : SlotIndex)

/-- The slots handed out and not released since, newest first. -/
def liveOf : List Event → List SlotIndex
  | [] => []
  | .acquired i :: past => i :: liveOf past
  | .released i :: past => (liveOf past).erase i
  | .written _ :: past => liveOf past

/-- The slots released and not handed out since, last released first. -/
def freedOf : List Event → List SlotIndex
  | [] => []
  | .acquired _ :: past => (freedOf past).tail
  | .released i :: past => i :: freedOf past
  | .written _ :: past => freedOf past

/-- The pools reached from `p₀` by calls that returned, where only live slots are released and
written; a write may change the value and the links. -/
inductive Run (p₀ : SlotPool α) : List Event → SlotPool α → Prop
  | start : Run p₀ [] p₀
  | acquire {past : List Event} {p p' : SlotPool α} (mem : Bool) (i : SlotIndex)
      (hrun : Run p₀ past p) (hcall : p.acquire mem = .ok i p') : Run p₀ (.acquired i :: past) p'
  | release {past : List Event} {p : SlotPool α} (i : SlotIndex) (hrun : Run p₀ past p)
      (hlive : i ∈ liveOf past) : Run p₀ (.released i :: past) (p.release i)
  | write {past : List Event} {p : SlotPool α} (i : SlotIndex) (f : Slot α → Slot α)
      (hrun : Run p₀ past p) (hlive : i ∈ liveOf past) : Run p₀ (.written i :: past) (p.write i f)

section Runs

variable {p p' p₀ : SlotPool α} {past : List Event} {i : SlotIndex} {live free : List SlotIndex}
  {mem : Bool}

/-- What an `acquire` that returned did. -/
structure Handed (p : SlotPool α) (live free : List SlotIndex) (i : SlotIndex) (p' : SlotPool α) :
    Prop where
  below : i.toNat < kMax
  fresh : i ∉ live
  links : (p'.slots i).prev = kNoSlot ∧ (p'.slots i).next = kNoSlot
  frame : ∀ j ∈ live, p'.slots j = p.slots j
  /-- The last freed slot first; with none, the first slot never handed out. -/
  order : if free = [] then i.toNat = p.used else i ∈ free.head?
  capacity : p.capacity ≤ p'.capacity
  wf : p'.Wf (i :: live) free.tail
  small : p'.capacity ≤ kMax

theorem Wf.handed (h : p.Wf live free) (hcap : p.capacity ≤ kMax) (hcall : p.acquire mem = .ok i p') :
    Handed p live free i p' := by
  have hacq := h.acquire mem (Or.inl hcap)
  have hsize := acquire_capacity hcall
  rw [hcall] at hacq
  have hgrown : p.capacity ≤ p'.capacity ∧ p'.capacity ≤ kMax := by
    rcases hsize with ⟨hsame, -, -⟩ | ⟨-, -, hlt, hbig, -⟩
    · rw [hsame]
      exact ⟨Nat.le_refl _, hcap⟩
    · rw [hbig]
      split <;> omega
  cases hacq with
  | ok _ _ hw hprev hnext hframe hlifo hused hindex hroom =>
    have hnd := hw.nodup
    rw [List.cons_append, List.nodup_cons] at hnd
    have hmax := hw.used_max
    have hlt := hw.lt_used (List.mem_append_left _ List.mem_cons_self)
    refine ⟨by omega, fun hmem => hnd.1 (List.mem_append_left _ hmem), ⟨hprev, hnext⟩, hframe, ?_,
      hgrown.1, hw, hgrown.2⟩
    split
    · exact hindex ‹_›
    · rename_i hne
      obtain ⟨j, js, rfl⟩ := List.exists_cons_of_ne_nil hne
      exact congrArg some (hlifo j rfl).symm

omit [Inhabited α] in
/-- A released slot comes off the live part. -/
theorem Wf.released (h : p.Wf live free) (hi : i ∈ live) : (p.release i).Wf (live.erase i) (i :: free) :=
  (h.perm (List.perm_cons_erase hi)).release

/-- **The run lemma**: the pool's partition is the one its history tells. -/
theorem Run.wf {capacity : Nat} {scrub : α → α} (hcap : capacity ≤ kMax)
    (h : Run (new capacity scrub) past p) :
    p.Wf (liveOf past) (freedOf past) ∧ p.capacity ≤ kMax := by
  induction h with
  | start =>
    refine ⟨wf_new capacity scrub, ?_⟩
    simp only [new]
    split
    · exact Nat.le_of_ble_eq_true rfl
    · exact hcap
  | acquire mem i hrun hcall ih =>
    have hh := ih.1.handed ih.2 hcall
    exact ⟨hh.wf, hh.small⟩
  | release i hrun hlive ih => exact ⟨ih.1.released hlive, ih.2⟩
  | write i f hrun hlive ih => exact ⟨ih.1.write hlive f, ih.2⟩

/-- **The pool never hands out a live slot and never disturbs one**, for every initial capacity below
`2^32` and every history: the partition is exact, every call that returns keeps the live slots as they
are, and `acquire` with memory fails only when all `2^32 - 1` slots are live. -/
theorem slotPool_never_disturbs {capacity : Nat} {scrub : α → α} (hcap : capacity < 2 ^ 32)
    (hrun : Run (new capacity scrub) past p) :
    p.consistent = true ∧ p.live = (liveOf past).length ∧ (liveOf past ++ freedOf past).Nodup
      ∧ (∀ mem i p', p.acquire mem = .ok i p' →
        i.toNat < 2 ^ 32 - 1 ∧ i ∉ liveOf past
          ∧ (p'.slots i).prev = kNoSlot ∧ (p'.slots i).next = kNoSlot
          ∧ (∀ j ∈ liveOf past, p'.slots j = p.slots j)
          ∧ (if freedOf past = [] then i.toNat = p.used else i ∈ (freedOf past).head?)
          ∧ p.capacity ≤ p'.capacity)
      ∧ (∀ i ∈ liveOf past, (∀ j ∈ liveOf past, j ≠ i → (p.release i).slots j = p.slots j)
          ∧ (p.release i).capacity = p.capacity)
      ∧ ((∃ i p', p.acquire true = .ok i p') ∨ (liveOf past).length = 2 ^ 32 - 1) := by
  have hk : kMax = 2 ^ 32 - 1 := rfl
  obtain ⟨hw, hsmall⟩ := hrun.wf (by omega)
  refine ⟨hw.consistent, hw.count, hw.nodup, fun mem i p' hcall => ?_, fun i _ => ?_, ?_⟩
  · have hh := hw.handed hsmall hcall
    exact ⟨hk ▸ hh.below, hh.fresh, hh.links.1, hh.links.2, hh.frame, hh.order, hh.capacity⟩
  · exact ⟨fun j _ hne => release_slots_of_ne hne, rfl⟩
  · have hacq := hw.acquire true (Or.inl hsmall)
    generalize p.acquire true = r at hacq
    cases hacq with
    | ok i p' _ _ _ _ _ _ _ _ => exact Or.inl ⟨i, p', rfl⟩
    | full e hfree hfull hwhy =>
      right
      have hlen := hw.length_add
      have hle := hw.used_le
      rcases hwhy with hbig | hno
      · rw [hfree, List.length_nil] at hlen
        omega
      · simp at hno

/-- One slot is handed out, freed and handed out again before the fresh one after it. -/
theorem slotPool_never_disturbs_reuse :
    ∃ p : SlotPool Nat, Run (new 0 id) [.acquired 0, .released 0, .acquired 1, .acquired 0] p
      ∧ p.consistent = true ∧ p.live = 2 ∧ p.capacity = 2 := by
  have h₀ : Run (new 0 id : SlotPool Nat) [] _ := .start
  have h₁ := Run.acquire true 0 h₀ rfl
  have h₂ := Run.acquire true 1 h₁ rfl
  have h₃ := Run.release 0 h₂ (by simp [liveOf])
  have hrun := Run.acquire true 0 h₃ rfl
  obtain ⟨hconsistent, hlive, -⟩ := slotPool_never_disturbs (by decide) hrun
  exact ⟨_, hrun, hconsistent, hlive, rfl⟩

/-! ## The end of the index space -/

/-- What the next `acquire` must respect after a history: no reserved and no live index comes back, and
with every index below `kNoSlot` live it throws and changes nothing. -/
structure Guarded (p : SlotPool α) (past : List Event) : Prop where
  handed : ∀ mem i p', p.acquire mem = .ok i p' → i ≠ kNoSlot ∧ i ∉ liveOf past
  exhausted : (liveOf past).length = 2 ^ 32 - 1 → ∀ mem, p.acquire mem = .throws .lengthError p

/-- A pool that holds as many live slots as there are indices refuses the next one, whatever memory
there is. -/
theorem Wf.exhausted (h : p.Wf live free) (hcap : p.capacity ≤ kMax) (hall : live.length = kMax)
    (mem : Bool) : p.acquire mem = .throws .lengthError p := by
  have hlen := h.length_add
  have hmax := h.used_max
  have hle := h.used_le
  have hfree : free = [] := List.eq_nil_of_length_eq_zero (by omega)
  have hhead : p.freeHead = kNoSlot := by
    rw [h.head, hfree]
    rfl
  have hfull : p.used = p.capacity := by omega
  have hbig : kMax ≤ p.capacity := by omega
  rw [SlotPool.acquire, if_neg (not_not.mpr hhead), if_pos hfull, SlotPool.grow, if_pos hbig]

theorem Run.guarded {capacity : Nat} {scrub : α → α} (hcap : capacity ≤ kMax)
    (hrun : Run (new capacity scrub) past p) : Guarded p past := by
  obtain ⟨hw, hsmall⟩ := hrun.wf hcap
  constructor
  · intro mem i p' hcall
    have hh := hw.handed hsmall hcall
    refine ⟨?_, hh.fresh⟩
    rintro rfl
    exact Nat.lt_irrefl _ hh.below
  · exact fun hall mem => hw.exhausted hsmall hall mem

/-- An `acquire` with nothing freed and room in the block hands out the mark, cut to 32 bits. -/
theorem acquire_fresh (hhead : p.freeHead = kNoSlot) (hroom : p.used ≠ p.capacity) (mem : Bool) :
    p.acquire mem = .ok (UInt32.ofNat p.used)
      ({ p with used := p.used + 1 }.handOut (UInt32.ofNat p.used)) := by
  rw [SlotPool.acquire, if_neg (not_not.mpr hhead), if_neg hroom]

/-- The pool after `n` calls of `acquire` that were all served from the initial block. -/
theorem exists_fresh_run (capacity : Nat) (scrub : α → α) (hcap : 0 < capacity) :
    ∀ n, n ≤ capacity → ∃ past p, Run (new capacity scrub) past p ∧ p.used = n
      ∧ p.freeHead = kNoSlot ∧ p.capacity = capacity := by
  intro n
  induction n with
  | zero =>
    intro _
    exact ⟨[], _, .start, rfl, rfl, if_neg (by omega)⟩
  | succ n ih =>
    intro hn
    obtain ⟨past, p, hrun, hused, hhead, hsize⟩ := ih (by omega)
    have hcall := acquire_fresh hhead (by omega) true
    refine ⟨_, _, hrun.acquire true _ hcall, ?_, hhead, hsize⟩
    show p.used + 1 = n + 1
    rw [hused]

/-- An initial block past the index space hands out the reserved index. -/
theorem exists_kNoSlot_handed (capacity : Nat) (scrub : α → α) (hcap : kMax < capacity) :
    ∃ past p p', Run (new capacity scrub) past p ∧ p.acquire true = .ok kNoSlot p' := by
  obtain ⟨past, p, hrun, hused, hhead, hsize⟩ :=
    exists_fresh_run capacity scrub (by omega) kMax (Nat.le_of_lt hcap)
  have hcall := acquire_fresh hhead (by omega) true
  have hindex : UInt32.ofNat p.used = kNoSlot := by
    rw [hused]
    rfl
  rw [hindex] at hcall
  exact ⟨past, p, _, hrun, hcall⟩

/-- **The index space is guarded exactly when the initial block lies inside it.**  The only check
stands in `grow`, which a block of `2^32` slots or more never calls before the cast to 32 bits has
reached `kNoSlot`. -/
theorem index_space_guarded_iff (capacity : UInt64) (scrub : α → α) :
    (∀ past p, Run (new capacity.toNat scrub) past p → Guarded p past)
      ↔ capacity.toNat ≤ 2 ^ 32 - 1 := by
  have hk : kMax = 2 ^ 32 - 1 := rfl
  constructor
  · intro hall
    by_contra hbig
    obtain ⟨past, p, p', hrun, hcall⟩ := exists_kNoSlot_handed capacity.toNat scrub (by omega)
    exact ((hall past p hrun).handed true _ _ hcall).1 rfl
  · intro hcap past p hrun
    exact hrun.guarded (by omega)

/-- A pool built for `2^32` slots hands out `kNoSlot`. -/
theorem index_space_unguarded :
    ¬ ∀ past p, Run (new 4294967296 id : SlotPool Nat) past p → Guarded p past := by
  intro hall
  obtain ⟨past, p, p', hrun, hcall⟩ := exists_kNoSlot_handed 4294967296 (@id Nat) (by decide)
  exact ((hall past p hrun).handed true _ _ hcall).1 rfl

end Runs

end Lob.SlotPool
