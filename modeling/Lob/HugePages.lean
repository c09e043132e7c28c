/-
# Lob.HugePages — the allocator behind the order pool and the id index.

A block of at least 2 MiB is mapped for itself: over-mapped by one huge page, then trimmed on both sides
to a 2 MiB boundary.  Where the kernel places the mapping is its own choice; whether the trimming takes
away exactly the slack is not.  Smaller blocks come from the heap, which the address space does not show.
-/
import Lob.Lib.Paged
import Lob.Types

namespace Lob.HugePages

open Lib.Paged

/-! ## The source's operations -/

def kHugePage : UInt64 := (2 : UInt64) <<< 20

def roundUp (bytes : UInt64) : UInt64 := (bytes + kHugePage - 1) / kHugePage * kHugePage

section Operations

variable (page : Nat)

/-- `mmap`: what it answers, and what it maps. -/
def mmap (raw : Option UInt64) (size : UInt64) (s : Space) : Option (UInt64 × Space) :=
  raw.map fun base => (base, s.map page base.toNat size.toNat)

def munmap (start size : UInt64) (s : Space) : Space := s.unmap page start.toNat size.toNat

/-- Over-map by one huge page, then unmap the slack on either side; nothing when `bad_alloc` is thrown. -/
def mapHuge (raw : Option UInt64) (size : UInt64) (s : Space) : Option (UInt64 × Space) :=
  match mmap page raw (size + kHugePage) s with
  | none => none
  | some (base, s) =>
    let start := (base + kHugePage - 1) / kHugePage * kHugePage
    let s := if start > base then munmap page base (start - base) s else s
    let stop := base + size + kHugePage
    let s := if stop > start + size then munmap page (start + size) (stop - (start + size)) s else s
    some (start, s)

/-- `allocate(n)` for elements of `elem` bytes; `raw` is what `mmap` or the heap answers. -/
def allocate (raw : Option UInt64) (elem n : UInt64) (s : Space) : Option (UInt64 × Space) :=
  let bytes := n * elem
  if bytes ≥ kHugePage then mapHuge page raw (roundUp bytes) s
  else raw.map fun p => (p, s)

def deallocate (p elem n : UInt64) (s : Space) : Space :=
  let bytes := n * elem
  if bytes ≥ kHugePage then munmap page p (roundUp bytes) s else s

end Operations

/-! ## One mapping -/

section Mapping

variable {page : Nat} {base size : UInt64} {s : Space}

theorem kHugePage_toNat : kHugePage.toNat = 2097152 := by decide

theorem toNat_roundUp (bytes : UInt64) (h : bytes.toNat < 2 ^ 63) :
    (roundUp bytes).toNat = (bytes.toNat + 2097151) / 2097152 * 2097152 := by
  have hone : (1 : UInt64).toNat = 1 := rfl
  rw [roundUp, UInt64.toNat_mul, UInt64.toNat_div, UInt64.toNat_sub, UInt64.toNat_add, kHugePage_toNat,
    hone]
  omega

/-- A slack is unmapped, if there is any. -/
theorem mapped_trim {low high : UInt64} (hpage : 0 < page) (hlow : page ∣ low.toNat)
    (hhigh : page ∣ high.toNat) (a : Nat) :
    (if high > low then munmap page low (high - low) s else s).mapped a = true
      ↔ s.mapped a = true ∧ ¬ (low.toNat ≤ a ∧ a < high.toNat) := by
  by_cases hlt : high > low
  · have hle : low ≤ high := UInt64.le_of_lt hlt
    have hle' : low.toNat ≤ high.toNat := UInt64.le_iff_toNat_le.mp hle
    have hlen : (high - low).toNat = high.toNat - low.toNat := UInt64.toNat_sub_of_le _ _ hle
    have hdvd : page ∣ (high - low).toNat := by
      rw [hlen]
      exact Nat.dvd_sub hhigh hlow
    rw [if_pos hlt, munmap, mapped_unmap hpage hlow hdvd, hlen, Nat.add_sub_cancel' hle']
  · rw [if_neg hlt]
    have hle' : high.toNat ≤ low.toNat := UInt64.le_iff_toNat_le.mp (UInt64.not_lt.mp hlt)
    exact ⟨fun hmapped => ⟨hmapped, by omega⟩, And.left⟩

/-- **The mapping that is left** starts at a 2 MiB boundary, where nothing was mapped, and is all that the
call has mapped. -/
theorem mapHuge_spec (hpage : 0 < page) (hdvd : page ∣ 2097152) (hsize : 2097152 ∣ size.toNat)
    (hroom : size.toNat + 2097152 < 2 ^ 64) (hbase : s.Grants page base.toNat (size + kHugePage).toNat) :
    ∃ start s', mapHuge page (some base) size s = some (start, s') ∧ 2097152 ∣ start.toNat
      ∧ start.toNat + size.toNat < 2 ^ 64
      ∧ (∀ a, start.toNat ≤ a → a < start.toNat + size.toNat → s.mapped a = false)
      ∧ ∀ a, s'.mapped a = true
        ↔ s.mapped a = true ∨ (start.toNat ≤ a ∧ a < start.toNat + size.toNat) := by
  obtain ⟨haligned, htop, hfree⟩ := hbase
  have hover : (size + kHugePage).toNat = size.toNat + 2097152 := by
    rw [UInt64.toNat_add, kHugePage_toNat]
    omega
  have hdvdOver : page ∣ (size + kHugePage).toNat := by
    rw [hover]
    exact Nat.dvd_add (Nat.dvd_trans hdvd hsize) hdvd
  rw [whole_of_dvd hpage hdvdOver, hover] at htop
  -- the boundary lies within the first huge page of the mapping
  have hone : (1 : UInt64).toNat = 1 := rfl
  have hstart : ((base + kHugePage - 1) / kHugePage * kHugePage).toNat
      = (base.toNat + 2097151) / 2097152 * 2097152 := by
    rw [UInt64.toNat_mul, UInt64.toNat_div, UInt64.toNat_sub, UInt64.toNat_add, kHugePage_toNat, hone]
    omega
  generalize hstart' : (base + kHugePage - 1) / kHugePage * kHugePage = start at hstart
  have hlow : base.toNat ≤ start.toNat := by omega
  have hhigh : start.toNat < base.toNat + 2097152 := by omega
  have hboundary : 2097152 ∣ start.toNat := by
    rw [hstart]
    exact Nat.dvd_mul_left _ _
  have hend : (start + size).toNat = start.toNat + size.toNat := by
    rw [UInt64.toNat_add]
    omega
  have hstop : (base + size + kHugePage).toNat = base.toNat + size.toNat + 2097152 := by
    rw [UInt64.toNat_add, UInt64.toNat_add, kHugePage_toNat]
    omega
  have hdvdEnd : page ∣ (start + size).toNat := by
    rw [hend]
    exact Nat.dvd_add (Nat.dvd_trans hdvd hboundary) (Nat.dvd_trans hdvd hsize)
  have hdvdStop : page ∣ (base + size + kHugePage).toNat := by
    rw [hstop]
    exact Nat.dvd_add (Nat.dvd_add haligned (Nat.dvd_trans hdvd hsize)) hdvd
  have hover' : ∀ a, (s.map page base.toNat (size + kHugePage).toNat).mapped a = true
      ↔ s.mapped a = true ∨ (base.toNat ≤ a ∧ a < base.toNat + (size + kHugePage).toNat) :=
    fun _ => mapped_map hpage hdvdOver
  have hfirst := mapped_trim (s := s.map page base.toNat (size + kHugePage).toNat) hpage haligned
    (Nat.dvd_trans hdvd hboundary)
  generalize hmap : s.map page base.toNat (size + kHugePage).toNat = wide at hover' hfirst
  generalize hif : (if start > base then munmap page base (start - base) wide else wide) = first
    at hfirst
  have hboth := mapped_trim (s := first) hpage hdvdEnd hdvdStop
  generalize hif' : (if base + size + kHugePage > start + size then
    munmap page (start + size) (base + size + kHugePage - (start + size)) first else first) = both
    at hboth
  have hrun : mapHuge page (some base) size s = some (start, both) := by
    simp only [mapHuge, mmap, Option.map_some, hstart', hmap, hif, hif']
  refine ⟨start, both, hrun, hboundary, by omega, fun a hfrom hto => ?_, fun a => ?_⟩
  · refine hfree a ((within_iff hpage hdvdOver).mpr ?_)
    rw [hover]
    omega
  · rw [hboth, hfirst, hover', hover, hend, hstop]
    have hout : s.mapped a = true → ¬ (base.toNat ≤ a ∧ a < base.toNat + (size.toNat + 2097152)) := by
      intro hmapped hin
      have hunmapped := hfree a ((within_iff hpage hdvdOver).mpr (by rw [hover]; exact hin))
      rw [hmapped] at hunmapped
      simp at hunmapped
    constructor
    · rintro ⟨⟨hmapped | hin, hfirst⟩, hsecond⟩
      · exact Or.inl hmapped
      · exact Or.inr (by omega)
    · rintro (hmapped | hin)
      · have := hout hmapped
        exact ⟨⟨Or.inl hmapped, by omega⟩, by omega⟩
      · exact ⟨⟨Or.inr (by omega), by omega⟩, by omega⟩

end Mapping

/-! ## The ledger of live blocks -/

/-- What a client was handed, and has to hand back as it got it. -/
structure Block where
  start : UInt64
  elem : UInt64
  n : UInt64

namespace Block

def huge (b : Block) : Prop := b.n * b.elem ≥ kHugePage

/-- The bytes mapped for the block, when it is huge. -/
def size (b : Block) : UInt64 := roundUp (b.n * b.elem)

def covers (b : Block) (a : Nat) : Prop :=
  b.huge ∧ b.start.toNat ≤ a ∧ a < b.start.toNat + b.size.toNat

end Block

section Ledger

variable {page : Nat} {s₀ s s' : Space} {blocks : List Block} {b c : Block}

/-- **The ledger**: what is mapped is what was mapped before and the live huge blocks, which lie apart from
it and from each other; each starts at a 2 MiB boundary and has room for its elements. -/
structure Ledger (s₀ : Space) (blocks : List Block) (s : Space) : Prop where
  mapped : ∀ a, s.mapped a = true ↔ s₀.mapped a = true ∨ ∃ b ∈ blocks, b.covers a
  apart : blocks.Pairwise fun b c => ∀ a, b.covers a → ¬ c.covers a
  outside : ∀ b ∈ blocks, ∀ a, b.covers a → s₀.mapped a = false
  aligned : ∀ b ∈ blocks, b.huge → 2097152 ∣ b.start.toNat ∧ 2097152 ∣ b.size.toNat
  room : ∀ b ∈ blocks, b.huge →
    b.n.toNat * b.elem.toNat ≤ b.size.toNat ∧ b.start.toNat + b.size.toNat < 2 ^ 64

/-- A block that is not huge covers nothing. -/
theorem Ledger.small (h : Ledger s₀ blocks s) (hsmall : ¬ b.huge) : Ledger s₀ (b :: blocks) s := by
  have hnone : ∀ a, ¬ b.covers a := fun a hcovers => hsmall hcovers.1
  refine ⟨fun a => ?_, List.pairwise_cons.mpr ⟨fun c _ a hb => absurd hb (hnone a), h.apart⟩, ?_, ?_, ?_⟩
  · rw [h.mapped]
    simp [hnone]
  · simpa [hnone] using h.outside
  · simpa [hsmall] using h.aligned
  · simpa [hsmall] using h.room

theorem Ledger.allocate (h : Ledger s₀ blocks s) (hpage : 0 < page) (hdvd : page ∣ 2097152)
    {raw : Option UInt64} {elem n p : UInt64} (hfits : n.toNat * elem.toNat < 2 ^ 63)
    (hraw : n * elem ≥ kHugePage → ∀ base, raw = some base →
      s.Grants page base.toNat (roundUp (n * elem) + kHugePage).toNat)
    (halloc : HugePages.allocate page raw elem n s = some (p, s')) :
    Ledger s₀ (⟨p, elem, n⟩ :: blocks) s' := by
  have hbytes : (n * elem).toNat = n.toNat * elem.toNat := by
    rw [UInt64.toNat_mul]
    exact Nat.mod_eq_of_lt (by omega)
  have hround := toNat_roundUp (n * elem) (by omega)
  unfold HugePages.allocate at halloc
  simp only at halloc
  split at halloc
  · rename_i hhuge
    cases raw with
    | none => simp [mapHuge, mmap] at halloc
    | some base =>
      have hsize : 2097152 ∣ (roundUp (n * elem)).toNat := by
        rw [hround]
        exact Nat.dvd_mul_left _ _
      obtain ⟨start, s₁, hrun, haligned, htop, hfree, hmapped⟩ :=
        mapHuge_spec hpage hdvd hsize (by omega) (hraw hhuge base rfl)
      rw [hrun] at halloc
      obtain ⟨rfl, rfl⟩ := Prod.mk.inj (Option.some.inj halloc)
      let b : Block := ⟨start, elem, n⟩
      have hcovers : ∀ a, b.covers a
          ↔ start.toNat ≤ a ∧ a < start.toNat + (roundUp (n * elem)).toNat :=
        fun a => and_iff_right hhuge
      have hnew : ∀ a, b.covers a → s.mapped a = false := fun a hb =>
        hfree a ((hcovers a).mp hb).1 ((hcovers a).mp hb).2
      have hunused : ∀ a, b.covers a → ¬ (s₀.mapped a = true ∨ ∃ c ∈ blocks, c.covers a) := by
        intro a hb
        rw [← h.mapped, hnew a hb]
        simp
      refine ⟨fun a => ?_, List.pairwise_cons.mpr ⟨fun c hc a hb hcov => ?_, h.apart⟩, ?_, ?_, ?_⟩
      · rw [hmapped, h.mapped, ← hcovers]
        simp only [List.mem_cons, exists_eq_or_imp]
        rw [or_assoc, or_comm (a := ∃ c ∈ blocks, c.covers a)]
      · exact hunused a hb (Or.inr ⟨c, hc, hcov⟩)
      · refine List.forall_mem_cons.mpr ⟨fun a hb => ?_, h.outside⟩
        exact Bool.eq_false_iff.mpr fun hold => hunused a hb (Or.inl hold)
      · exact List.forall_mem_cons.mpr ⟨fun _ => ⟨haligned, hsize⟩, h.aligned⟩
      · refine List.forall_mem_cons.mpr ⟨fun _ => ⟨?_, htop⟩, h.room⟩
        show n.toNat * elem.toNat ≤ (roundUp (n * elem)).toNat
        omega
  · rename_i hsmall
    obtain ⟨q, -, hq⟩ := Option.map_eq_some_iff.mp halloc
    obtain ⟨rfl, rfl⟩ := Prod.mk.inj hq
    exact h.small hsmall

theorem Ledger.deallocate (hpage : 0 < page) (hdvd : page ∣ 2097152) {front back : List Block}
    (h : Ledger s₀ (front ++ b :: back) s) :
    Ledger s₀ (front ++ back) (HugePages.deallocate page b.start b.elem b.n s) := by
  have hsub : (front ++ back).Sublist (front ++ b :: back) :=
    (List.Sublist.refl front).append (List.sublist_cons_self b back)
  have hb : b ∈ front ++ b :: back := by simp
  -- the block lies apart from those before it and those behind it
  have hothers : ∀ c ∈ front ++ back, ∀ a, b.covers a → ¬ c.covers a := by
    intro c hc a hba hca
    obtain ⟨-, hback, hcross⟩ := List.pairwise_append.mp h.apart
    rcases List.mem_append.mp hc with hc | hc
    · exact hcross c hc b List.mem_cons_self a hca hba
    · exact (List.pairwise_cons.mp hback).1 c hc a hba hca
  have hmem : ∀ a, (∃ c ∈ front ++ b :: back, c.covers a)
      ↔ b.covers a ∨ ∃ c ∈ front ++ back, c.covers a := by
    intro a
    simp only [List.mem_append, List.mem_cons, or_and_right, exists_or, exists_eq_left]
    rw [← or_assoc, or_comm (a := ∃ c, c ∈ front ∧ c.covers a), or_assoc]
  refine ⟨fun a => ?_, h.apart.sublist hsub, fun c hc => h.outside c (hsub.subset hc),
    fun c hc => h.aligned c (hsub.subset hc), fun c hc => h.room c (hsub.subset hc)⟩
  unfold HugePages.deallocate
  simp only
  split
  · rename_i hhuge
    obtain ⟨hstart, hsize⟩ := h.aligned b hb hhuge
    have hcovers : b.covers a ↔ b.start.toNat ≤ a ∧ a < b.start.toNat + b.size.toNat :=
      and_iff_right hhuge
    have hunmap := mapped_unmap (s := s) (a := a) hpage (Nat.dvd_trans hdvd hstart)
      (Nat.dvd_trans hdvd hsize)
    rw [← hcovers, h.mapped, hmem] at hunmap
    refine hunmap.trans ⟨?_, ?_⟩
    · rintro ⟨hold | hb' | hother, hnot⟩
      · exact Or.inl hold
      · exact absurd hb' hnot
      · exact Or.inr hother
    · rintro (hold | ⟨c, hc, hca⟩)
      · refine ⟨Or.inl hold, fun hba => ?_⟩
        have hout := h.outside b hb a hba
        rw [hold] at hout
        simp at hout
      · exact ⟨Or.inr (Or.inr ⟨c, hc, hca⟩), fun hba => hothers c hc a hba hca⟩
  · rename_i hsmall
    rw [h.mapped, hmem]
    have hnone : ¬ b.covers a := fun hba => hsmall hba.1
    simp [hnone]

end Ledger

end Lob.HugePages
