/-
# Lob.SlotPool — fixed-size slots in one block, addressed by 32-bit index.

The pool hands out slots below a high-water mark `used` and keeps the freed ones on a list threaded
through their own `next` links.  `Wf live free` is the invariant: the handed-out slots and the free
chain together are exactly the slots below the mark.  It is stated as a permutation, so it says at
once that the two parts are disjoint, that neither repeats a slot, and that none is lost.
-/
import Lob.Lib.Linked
import Lob.Types

namespace Lob

open Lib.Linked

/-! ## The source's data and operations -/

structure Slot (α : Type) where
  value : α
  /-- Queue links while in use; `next` is the free-list link while free. -/
  prev : SlotIndex := kNoSlot
  next : SlotIndex := kNoSlot

structure SlotPool (α : Type) where
  slots : SlotIndex → Slot α
  /-- `slots.size()`. -/
  capacity : Nat
  /-- High-water mark: slots `[0, used)` were handed out at least once. -/
  used : Nat := 0
  live : Nat := 0
  freeHead : SlotIndex := kNoSlot
  growCount : Nat := 0
  /-- What `release` leaves of a value: itself under NDEBUG, bytes of `0xDD` in a debug build. -/
  scrub : α → α := id

namespace SlotPool

variable {α : Type} [Inhabited α]

/-- `kNoSlot` is reserved, so the largest usable index is one below it. -/
def kMax : Nat := kNoSlot.toNat

/-- Allocates `capacity` slots up front, at least one. -/
def new (capacity : Nat) (scrub : α → α) : SlotPool α where
  slots := fun _ => { value := default }
  capacity := if capacity = 0 then 1 else capacity
  scrub := scrub

/-- Doubles the block; the slots it adds are value-initialised. -/
def grow (mem : Bool) (p : SlotPool α) : Result (SlotPool α) Unit :=
  if kMax ≤ p.capacity then .throws .lengthError p
  else
    let bigger := if kMax / 2 < p.capacity then kMax else p.capacity * 2
    if mem then
      .ok () { p with
        slots := fun i => if i.toNat < p.capacity then p.slots i else { value := default }
        capacity := bigger
        growCount := p.growCount + 1 }
    else .throws .badAlloc p

/-- The end of `acquire`: reset the links of `i` and count it live. -/
def handOut (p : SlotPool α) (i : SlotIndex) : SlotPool α :=
  { p with
    slots := Function.update p.slots i { p.slots i with prev := kNoSlot, next := kNoSlot }
    live := p.live + 1 }

/-- A slot for a new value: the newest freed one, else the next fresh one. -/
def acquire (mem : Bool) (p : SlotPool α) : Result (SlotPool α) SlotIndex :=
  if p.freeHead ≠ kNoSlot then
    let i := p.freeHead
    .ok i ({ p with freeHead := (p.slots i).next }.handOut i)
  else
    match if p.used = p.capacity then p.grow mem else .ok () p with
    | .ok _ p =>
      -- the cast to 32 bits truncates
      let i := UInt32.ofNat p.used
      .ok i ({ p with used := p.used + 1 }.handOut i)
    | .throws e p => .throws e p
    | .undefined => .undefined

def release (p : SlotPool α) (i : SlotIndex) : SlotPool α :=
  { p with
    slots := Function.update p.slots i
      { value := p.scrub (p.slots i).value, prev := kNoSlot, next := p.freeHead }
    freeHead := i
    live := p.live - 1 }

/-- Write a field of a slot. -/
def write (p : SlotPool α) (i : SlotIndex) (f : Slot α → Slot α) : SlotPool α :=
  { p with slots := Function.update p.slots i (f (p.slots i)) }

/-- The walk of `consistent` from `i`, with `freeCount` entries behind it and `budget` more allowed
before `++free_count > used`. -/
def consistentFrom (p : SlotPool α) : Nat → Nat → SlotIndex → Bool
  | budget, freeCount, i =>
    if i = kNoSlot then freeCount + p.live == p.used
    else if p.used ≤ i.toNat then false
    else
      match budget with
      | 0 => false
      | budget + 1 => p.consistentFrom budget (freeCount + 1) (p.slots i).next

/-- Every free-list entry was handed out once, the list has no cycle, and the free list plus the live
slots account for every slot ever used. -/
def consistent (p : SlotPool α) : Bool := p.consistentFrom p.used 0 p.freeHead

/-! ## The partition invariant -/

/-- `live` and `free` are the two parts of the slots below the high-water mark. -/
structure Wf (p : SlotPool α) (live free : List SlotIndex) : Prop where
  chain : Forward (fun i => (p.slots i).next) kNoSlot free
  head : p.freeHead = free.headD kNoSlot
  part : (live ++ free).Perm ((List.range p.used).map UInt32.ofNat)
  count : p.live = live.length
  used_le : p.used ≤ p.capacity
  used_max : p.used ≤ kMax
  capacity_pos : 0 < p.capacity

variable {p : SlotPool α} {live free : List SlotIndex} {i : SlotIndex}

omit [Inhabited α] in
theorem Wf.nodup (h : p.Wf live free) : (live ++ free).Nodup := by
  rw [h.part.nodup_iff]
  refine List.nodup_range.map_on fun a ha b hb hab => ?_
  have hmax := h.used_max
  have hk : kMax = 4294967295 := rfl
  rw [List.mem_range] at ha hb
  have := congrArg UInt32.toNat hab
  rw [UInt32.toNat_ofNat', UInt32.toNat_ofNat', Nat.mod_eq_of_lt (by omega),
    Nat.mod_eq_of_lt (by omega)] at this
  exact this

omit [Inhabited α] in
/-- A slot of either part lies below the mark, so its index is not `kNoSlot`. -/
theorem Wf.lt_used (h : p.Wf live free) (hi : i ∈ live ++ free) : i.toNat < p.used := by
  rw [h.part.mem_iff, List.mem_map] at hi
  obtain ⟨n, hn, rfl⟩ := hi
  have hmax := h.used_max
  have hk : kMax = 4294967295 := rfl
  rw [List.mem_range] at hn
  rw [UInt32.toNat_ofNat', Nat.mod_eq_of_lt (by omega)]
  exact hn

omit [Inhabited α] in
theorem Wf.ne_kNoSlot (h : p.Wf live free) (hi : i ∈ live ++ free) : i ≠ kNoSlot := by
  rintro rfl
  have hlt := h.lt_used hi
  have hmax := h.used_max
  unfold kMax at hmax
  omega

omit [Inhabited α] in
/-- Live and free slots together are as many as the mark says. -/
theorem Wf.length_add (h : p.Wf live free) : live.length + free.length = p.used := by
  have := h.part.length_eq
  simpa using this

omit [Inhabited α] in
/-- The free list decides which slots are live. -/
theorem Wf.mem_live {live' free' : List SlotIndex} (h : p.Wf live free) (h' : p.Wf live' free') :
    i ∈ live ↔ i ∈ live' := by
  have hne : ∀ {ls fs : List SlotIndex}, p.Wf ls fs → ∀ j ∈ fs, j ≠ kNoSlot := fun hw j hj =>
    hw.ne_kNoSlot (List.mem_append_right _ hj)
  obtain rfl : free = free' :=
    h.chain.unique h'.chain (h.head.symm.trans h'.head) (hne h) (hne h')
  exact ((List.perm_append_right_iff free).mp (h.part.trans h'.part.symm)).mem_iff

omit [Inhabited α] in
theorem Wf.perm {live' : List SlotIndex} (h : p.Wf live free) (hp : live.Perm live') :
    p.Wf live' free :=
  ⟨h.chain, h.head, (hp.symm.append_right free).trans h.part, h.count.trans hp.length_eq,
    h.used_le, h.used_max, h.capacity_pos⟩

omit [Inhabited α] in
/-- Only the links of free slots matter to the pool: a live slot may be written at will. -/
theorem Wf.write (h : p.Wf live free) (hi : i ∈ live) (f : Slot α → Slot α) :
    (p.write i f).Wf live free := by
  refine ⟨h.chain.congr fun j hj => ?_, h.head, h.part, h.count, h.used_le, h.used_max,
    h.capacity_pos⟩
  have hne : j ≠ i := by
    rintro rfl
    exact List.disjoint_of_nodup_append h.nodup hi hj
  simp only [SlotPool.write, Function.update_of_ne hne]

theorem wf_new (capacity : Nat) (scrub : α → α) : (new capacity scrub).Wf [] [] where
  chain := trivial
  head := rfl
  part := List.Perm.refl _
  count := rfl
  used_le := Nat.zero_le _
  used_max := Nat.zero_le _
  capacity_pos := by simp only [new]; split <;> omega

/-! ## acquire and release -/

/-- The ways `acquire` can end, and what each leaves behind. -/
inductive Acquired (mem : Bool) (p : SlotPool α) (live free : List SlotIndex) :
    Result (SlotPool α) SlotIndex → Prop
  | ok (i : SlotIndex) (p' : SlotPool α) (hw : p'.Wf (i :: live) free.tail)
      (hprev : (p'.slots i).prev = kNoSlot) (hnext : (p'.slots i).next = kNoSlot)
      (hframe : ∀ j ∈ live, p'.slots j = p.slots j)
      (hlifo : ∀ j ∈ free.head?, i = j)
      (hused : p'.used = if free = [] then p.used + 1 else p.used)
      (hindex : free = [] → i.toNat = p.used)
      (hroom : free = [] → p.used = p.capacity → p.capacity < kMax ∧ mem = true) :
      Acquired mem p live free (.ok i p')
  | full (e : Throw) (hfree : free = []) (hfull : p.used = p.capacity)
      (hwhy : kMax ≤ p.capacity ∨ mem = false) :
      Acquired mem p live free (.throws e p)

/-- **`acquire` moves one slot from the free part, or from above the mark, to the live part.** -/
theorem Wf.acquire (h : p.Wf live free) (mem : Bool)
    (hroom : p.capacity ≤ kMax ∨ p.used < kMax) : Acquired mem p live free (p.acquire mem) := by
  have hk : kMax = 4294967295 := rfl
  unfold SlotPool.acquire
  cases free with
  | cons i free =>
    have hhead : p.freeHead = i := h.head
    have hne : i ≠ kNoSlot := h.ne_kNoSlot (by simp)
    have hnd := h.nodup
    have hi : i ∉ live ++ free := (List.nodup_middle.mp hnd).notMem
    rw [if_pos (by rw [hhead]; exact hne)]
    simp only [hhead]
    refine .ok i _ ?_ ?_ ?_ ?_ (by simp) (by simp [handOut]) (by simp) (by simp)
    · refine ⟨h.chain.2.congr fun j hj => ?_, ?_, ?_, ?_, h.used_le, h.used_max, h.capacity_pos⟩
      · have : j ≠ i := by rintro rfl; exact hi (by simp [hj])
        simp only [handOut, Function.update_of_ne this]
      · exact h.chain.1
      · exact List.perm_middle.symm.trans h.part
      · simp [handOut, h.count]
    · simp [handOut]
    · simp [handOut]
    · intro j hj
      have : j ≠ i := by rintro rfl; exact hi (by simp [hj])
      simp only [handOut, Function.update_of_ne this]
  | nil =>
    have hhead : p.freeHead = kNoSlot := h.head
    rw [if_neg (by rw [hhead]; simp)]
    -- a fresh slot, possibly after growth: `q` is the pool it is carved from
    have fresh : ∀ q : SlotPool α, q.used = p.used → q.live = p.live → q.freeHead = p.freeHead →
        (∀ j : SlotIndex, j.toNat < p.used → q.slots j = p.slots j) → p.used < q.capacity →
        p.used < kMax → (p.used = p.capacity → p.capacity < kMax ∧ mem = true) →
        Acquired mem p live []
          (.ok (UInt32.ofNat q.used) ({ q with used := q.used + 1 }.handOut (UInt32.ofNat q.used))) := by
      intro q hu hl hf hslots hcap hmax hwhy
      have hidx : (UInt32.ofNat q.used).toNat = p.used := by
        rw [UInt32.toNat_ofNat', hu, Nat.mod_eq_of_lt (by omega)]
      have hne : ∀ j ∈ live, j ≠ UInt32.ofNat q.used := by
        intro j hj heq
        have hlt := h.lt_used (i := j) (by simp [hj])
        rw [heq, hidx] at hlt
        omega
      refine .ok _ _ ?_ ?_ ?_ ?_ (by simp) (by simp [handOut, hu]) (fun _ => hidx)
        (fun _ => hwhy)
      · refine ⟨trivial, ?_, ?_, ?_, ?_, ?_, ?_⟩
        · simp only [handOut, hf, hhead]
          rfl
        · simp only [handOut, List.tail_nil, List.append_nil]
          have hpart := h.part
          rw [List.append_nil] at hpart
          rw [List.range_succ, List.map_append, List.map_singleton, hu]
          exact (hpart.cons _).trans (List.perm_append_singleton _ _).symm
        · simp [handOut, hl, h.count]
        · simp only [handOut, hu]; omega
        · simp only [handOut, hu]; omega
        · simp only [handOut]; omega
      · simp [handOut]
      · simp [handOut]
      · intro j hj
        simp only [handOut, Function.update_of_ne (hne j hj)]
        exact hslots j (h.lt_used (by simp [hj]))
    by_cases hfull : p.used = p.capacity
    · rw [if_pos hfull]
      unfold SlotPool.grow
      by_cases hbig : kMax ≤ p.capacity
      · rw [if_pos hbig]
        exact .full _ rfl hfull (Or.inl hbig)
      · rw [if_neg hbig]
        cases mem with
        | false => exact .full _ rfl hfull (Or.inr rfl)
        | true =>
          have hpos := h.capacity_pos
          refine fresh _ rfl rfl rfl (fun j hj => if_pos (by omega)) ?_ (by omega)
            fun _ => ⟨by omega, rfl⟩
          show p.used < if kMax / 2 < p.capacity then kMax else p.capacity * 2
          split <;> omega
    · rw [if_neg hfull]
      have := h.used_le
      exact fresh p rfl rfl rfl (fun _ _ => rfl) (by omega) (by omega) fun h => absurd h hfull

/-- **What an `acquire` does to the block**: nothing, or with no free slot and none unused below the
limit it grows it. -/
theorem acquire_capacity {mem : Bool} {p' : SlotPool α} (h : p.acquire mem = .ok i p') :
    (p'.capacity = p.capacity ∧ p'.growCount = p.growCount
        ∧ (p.freeHead ≠ kNoSlot ∨ p.used ≠ p.capacity))
      ∨ (p.freeHead = kNoSlot ∧ p.used = p.capacity ∧ p.capacity < kMax
        ∧ p'.capacity = (if kMax / 2 < p.capacity then kMax else p.capacity * 2)
        ∧ p'.growCount = p.growCount + 1) := by
  unfold SlotPool.acquire at h
  by_cases hhead : p.freeHead = kNoSlot
  · rw [if_neg (not_not.mpr hhead)] at h
    by_cases hfull : p.used = p.capacity
    · rw [if_pos hfull] at h
      unfold SlotPool.grow at h
      by_cases hbig : kMax ≤ p.capacity
      · rw [if_pos hbig] at h
        simp at h
      · rw [if_neg hbig] at h
        cases mem with
        | false => simp at h
        | true =>
          rw [← (Result.ok.inj h).2]
          exact Or.inr ⟨hhead, hfull, Nat.not_le.mp hbig, rfl, rfl⟩
    · rw [if_neg hfull] at h
      rw [← (Result.ok.inj h).2]
      exact Or.inl ⟨rfl, rfl, Or.inr hfull⟩
  · rw [if_pos hhead] at h
    rw [← (Result.ok.inj h).2]
    exact Or.inl ⟨rfl, rfl, Or.inl hhead⟩

omit [Inhabited α] in
/-- **`release` moves one slot from the live part to the front of the free part.** -/
theorem Wf.release (h : p.Wf (i :: live) free) : (p.release i).Wf live (i :: free) := by
  have hnd := h.nodup
  rw [List.cons_append, List.nodup_cons] at hnd
  refine ⟨⟨?_, ?_⟩, rfl, ?_, ?_, h.used_le, h.used_max, h.capacity_pos⟩
  · simp only [SlotPool.release, Function.update_self]
    exact h.head
  · refine h.chain.congr fun j hj => ?_
    have hne : j ≠ i := by
      rintro rfl
      exact hnd.1 (by simp [hj])
    simp only [SlotPool.release, Function.update_of_ne hne]
  · exact List.perm_middle.trans h.part
  · simp [SlotPool.release, h.count]

omit [Inhabited α] in
theorem release_slots_of_ne {j : SlotIndex} (hne : j ≠ i) :
    (p.release i).slots j = p.slots j := by
  simp only [SlotPool.release, Function.update_of_ne hne]

omit [Inhabited α] in
/-- **`consistent` holds under the invariant.** -/
theorem Wf.consistent (h : p.Wf live free) : p.consistent = true := by
  have walk : ∀ (fs : List SlotIndex) (budget c : Nat), fs.length ≤ budget →
      Forward (fun i => (p.slots i).next) kNoSlot fs → (∀ j ∈ fs, j ∈ free) →
      c + fs.length + p.live = p.used → p.consistentFrom budget c (fs.headD kNoSlot) = true := by
    intro fs
    induction fs with
    | nil =>
      intro budget c _ _ _ hcount
      unfold consistentFrom
      simpa using hcount
    | cons j fs ih =>
      intro budget c hb hchain hmem hcount
      have hj : j ∈ live ++ free := by simp [hmem j (by simp)]
      unfold consistentFrom
      rw [List.headD_cons, if_neg (h.ne_kNoSlot hj), if_neg (Nat.not_le.mpr (h.lt_used hj))]
      cases budget with
      | zero => simp at hb
      | succ budget =>
        simp only [List.length_cons] at hb hcount
        rw [show (p.slots j).next = fs.headD kNoSlot from hchain.1]
        exact ih budget (c + 1) (by omega) hchain.2 (fun k hk => hmem k (by simp [hk])) (by omega)
  have hlen := h.length_add
  unfold SlotPool.consistent
  rw [h.head]
  refine walk free p.used 0 (by omega) h.chain (fun _ hj => hj) ?_
  rw [h.count]
  omega

end SlotPool

end Lob
