/-
# Lob.Lib.Carving — blocks of an address space, carved from slabs by a cursor.

A block is a half-open range of addresses.  A carver cuts pieces off the front of the newest slab,
behind a header of one granule, and abandons what is left of it when a piece does not fit.  `Carved`
is what such a carver keeps: the pieces lie in the slabs, pairwise apart and apart from the tail that
is still uncut, and together they cover every slab up to its tail.  The pieces are a list up to
permutation, so a client may sort them into live and free ones as it likes.
-/
import Mathlib.Algebra.Order.Ring.Nat
import Mathlib.Algebra.BigOperators.Group.List.Basic
import Mathlib.Data.List.Nodup
import Mathlib.Order.Interval.Finset.Nat

namespace Lob.Lib.Carving

/-! ## Blocks -/

/-- The addresses from `start` up to `start + size`. -/
structure Block where
  start : Nat
  size : Nat
  deriving DecidableEq, Repr

namespace Block

/-- One past the last address. -/
def fin (b : Block) : Nat := b.start + b.size

/-- The address lies in the block. -/
def Has (b : Block) (a : Nat) : Prop := b.start ≤ a ∧ a < b.fin

/-- No address lies in both. -/
def Apart (b c : Block) : Prop := b.fin ≤ c.start ∨ c.fin ≤ b.start

instance (b c : Block) : Decidable (b.Apart c) := inferInstanceAs (Decidable (_ ∨ _))

variable {b b' c : Block} {a : Nat}

theorem Apart.symm (h : b.Apart c) : c.Apart b := Or.symm h

instance : Std.Symm Apart := ⟨fun _ _ h => h.symm⟩

/-- A part of a block is apart from whatever the block is apart from. -/
theorem Apart.part (h : b.Apart c) (hlo : b.start ≤ b'.start) (hhi : b'.fin ≤ b.fin) :
    b'.Apart c := by
  rcases h with h | h
  · exact Or.inl (hhi.trans h)
  · exact Or.inr (h.trans hlo)

theorem Apart.not_has (h : b.Apart c) (hb : b.Has a) : ¬ c.Has a := by
  intro hc
  obtain ⟨hb₁, hb₂⟩ := hb
  obtain ⟨hc₁, hc₂⟩ := hc
  rcases h with h | h <;> omega

/-- Blocks that are not empty and apart are different. -/
theorem Apart.ne (h : b.Apart c) (hpos : 0 < b.size) : b ≠ c := by
  rintro rfl
  simp only [Apart, fin, or_self] at h
  omega

end Block

open Block

variable {blocks blocks' : List Block} {b c : Block}

theorem apart_of_mem (h : blocks.Pairwise Apart) (hb : b ∈ blocks) (hc : c ∈ blocks) (hne : b ≠ c) :
    b.Apart c :=
  h.forall hb hc hne

theorem apart_perm (h : blocks.Pairwise Apart) (hperm : blocks.Perm blocks') :
    blocks'.Pairwise Apart :=
  (hperm.pairwise_iff fun hab => Apart.symm hab).mp h

/-- Blocks that are pairwise apart and lie below `n` have at most `n` bytes between them. -/
theorem sum_size_le {n : Nat} (h : blocks.Pairwise Apart) (hle : ∀ b ∈ blocks, b.fin ≤ n) :
    (blocks.map size).sum ≤ n := by
  -- the addresses of the blocks, as a set of that many numbers below `n`
  suffices hset : ∃ s : Finset Nat, s.card = (blocks.map size).sum
      ∧ ∀ a ∈ s, ∃ b ∈ blocks, b.Has a by
    obtain ⟨s, hcard, hs⟩ := hset
    have hsub : s ⊆ Finset.range n := by
      intro a ha
      obtain ⟨b, hb, -, hlt⟩ := hs a ha
      exact Finset.mem_range.mpr (hlt.trans_le (hle b hb))
    have hcount := Finset.card_le_card hsub
    rwa [hcard, Finset.card_range] at hcount
  clear hle
  induction blocks with
  | nil => exact ⟨∅, by simp⟩
  | cons b rest ih =>
    obtain ⟨hb, hrest⟩ := List.pairwise_cons.mp h
    obtain ⟨s, hcard, hs⟩ := ih hrest
    have hdis : Disjoint (Finset.Ico b.start b.fin) s := by
      refine Finset.disjoint_left.mpr fun a ha has => ?_
      obtain ⟨c, hc, hin⟩ := hs a has
      exact (hb c hc).not_has (Finset.mem_Ico.mp ha) hin
    refine ⟨Finset.Ico b.start b.fin ∪ s, ?_, fun a ha => ?_⟩
    · rw [Finset.card_union_of_disjoint hdis, hcard, Nat.card_Ico]
      simp [fin]
    · rcases Finset.mem_union.mp ha with ha | ha
      · exact ⟨b, List.mem_cons_self, Finset.mem_Ico.mp ha⟩
      · obtain ⟨c, hc, hin⟩ := hs a ha
        exact ⟨c, List.mem_cons_of_mem _ hc, hin⟩

/-! ## Slabs and the pieces cut from them -/

/-- Every address from `lo` up to `hi` lies in a piece. -/
def Covers (pieces : List Block) (lo hi : Nat) : Prop :=
  ∀ a, lo ≤ a → a < hi → ∃ x ∈ pieces, x.Has a

/-- What a carver keeps: `g` is the granule, every slab starts with a header of one granule, and a
slab is left behind with at most `tail` bytes uncut.  The newest slab comes first. -/
structure Carved (g tail : Nat) (slabs pieces : List Block) (cursor limit : Nat) : Prop where
  slabsApart : slabs.Pairwise Apart
  aligned : ∀ x ∈ pieces, g ∣ x.start
  inside : ∀ x ∈ pieces, ∃ s ∈ slabs, s.start + g ≤ x.start ∧ x.fin ≤ s.fin
  apart : pieces.Pairwise Apart
  uncut : ∀ x ∈ pieces, x.fin ≤ cursor ∨ limit ≤ x.start
  cursorAligned : g ∣ cursor
  none : slabs = [] → cursor = 0 ∧ limit = 0
  newest : ∀ s ∈ slabs.head?, s.start + g ≤ cursor ∧ cursor ≤ limit ∧ limit = s.fin
    ∧ Covers pieces (s.start + g) cursor
  spent : ∀ s ∈ slabs.tail, ∃ top, s.fin ≤ top + tail ∧ Covers pieces (s.start + g) top

section

variable {g tail cursor limit n : Nat} {slabs pieces pieces' : List Block} {s x y : Block}

theorem Covers.mono {lo hi : Nat} (h : Covers pieces lo hi) (hsub : ∀ x ∈ pieces, x ∈ pieces') :
    Covers pieces' lo hi := by
  intro a hlo hhi
  obtain ⟨x, hx, hin⟩ := h a hlo hhi
  exact ⟨x, hsub x hx, hin⟩

/-- Nothing is cut before the first slab. -/
theorem carved_nil : Carved g tail [] [] 0 0 where
  slabsApart := .nil
  aligned := by simp
  inside := by simp
  apart := .nil
  uncut := by simp
  cursorAligned := Nat.dvd_zero g
  none := fun _ => ⟨rfl, rfl⟩
  newest := by simp
  spent := by simp

theorem Carved.cursor_le (h : Carved g tail slabs pieces cursor limit) : cursor ≤ limit := by
  cases slabs with
  | nil =>
    obtain ⟨hc, hl⟩ := h.none rfl
    omega
  | cons s older => exact (h.newest s rfl).2.1

/-- The pieces may be listed in any order. -/
theorem Carved.perm (h : Carved g tail slabs pieces cursor limit) (hperm : pieces.Perm pieces') :
    Carved g tail slabs pieces' cursor limit where
  slabsApart := h.slabsApart
  aligned x hx := h.aligned x (hperm.mem_iff.mpr hx)
  inside x hx := h.inside x (hperm.mem_iff.mpr hx)
  apart := apart_perm h.apart hperm
  uncut x hx := h.uncut x (hperm.mem_iff.mpr hx)
  cursorAligned := h.cursorAligned
  none := h.none
  newest s hs := by
    obtain ⟨hlo, hle, heq, hcov⟩ := h.newest s hs
    exact ⟨hlo, hle, heq, hcov.mono fun x hx => hperm.mem_iff.mp hx⟩
  spent s hs := by
    obtain ⟨top, hle, hcov⟩ := h.spent s hs
    exact ⟨top, hle, hcov.mono fun x hx => hperm.mem_iff.mp hx⟩

/-- Cut a piece that fits off the newest slab. -/
theorem Carved.carve (h : Carved g tail slabs pieces cursor limit) (hne : slabs ≠ [])
    (hn : g ∣ n) (hfits : cursor + n ≤ limit) :
    Carved g tail slabs (⟨cursor, n⟩ :: pieces) (cursor + n) limit := by
  obtain ⟨s, older, rfl⟩ := List.exists_cons_of_ne_nil hne
  obtain ⟨hlo, hle, heq, hcov⟩ := h.newest s rfl
  refine ⟨h.slabsApart, ?_, ?_, ?_, ?_, Nat.dvd_add h.cursorAligned hn, nofun, ?_, ?_⟩
  · rintro x hx
    rcases List.mem_cons.mp hx with rfl | hx
    · exact h.cursorAligned
    · exact h.aligned x hx
  · rintro x hx
    rcases List.mem_cons.mp hx with rfl | hx
    · exact ⟨s, List.mem_cons_self, hlo, heq ▸ hfits⟩
    · exact h.inside x hx
  · refine List.pairwise_cons.mpr ⟨fun x hx => ?_, h.apart⟩
    rcases h.uncut x hx with hx | hx
    · exact Or.inr hx
    · exact Or.inl (hfits.trans hx)
  · rintro x hx
    rcases List.mem_cons.mp hx with rfl | hx
    · exact Or.inl (Nat.le_refl _)
    · exact (h.uncut x hx).imp_left fun hfin => by omega
  · rintro t ht
    obtain rfl : s = t := by simpa using ht
    refine ⟨by omega, hfits, heq, fun a ha hlt => ?_⟩
    -- below the old cursor the old pieces cover it, from there on the new one does
    by_cases hold : a < cursor
    · obtain ⟨x, hx, hin⟩ := hcov a ha hold
      exact ⟨x, List.mem_cons_of_mem _ hx, hin⟩
    · exact ⟨⟨cursor, n⟩, List.mem_cons_self, by simpa [Has, fin] using ⟨Nat.le_of_not_lt hold, hlt⟩⟩
  · intro t ht
    obtain ⟨top, htop, hcov'⟩ := h.spent t ht
    exact ⟨top, htop, hcov'.mono fun x hx => List.mem_cons_of_mem _ hx⟩

/-- Leave a slab with at most `tail` bytes uncut for a new one. -/
theorem Carved.leave (h : Carved g tail slabs pieces cursor limit) (htail : limit ≤ cursor + tail)
    (hs : ∀ t ∈ slabs, s.Apart t) (hg : g ∣ s.start) (hsize : g ≤ s.size) :
    Carved g tail (s :: slabs) pieces (s.start + g) s.fin := by
  refine ⟨List.pairwise_cons.mpr ⟨hs, h.slabsApart⟩, h.aligned, ?_, h.apart, ?_,
    Nat.dvd_add hg (Nat.dvd_refl g), nofun, ?_, ?_⟩
  · intro x hx
    obtain ⟨t, ht, hin⟩ := h.inside x hx
    exact ⟨t, List.mem_cons_of_mem _ ht, hin⟩
  · intro x hx
    obtain ⟨t, ht, hlo, hhi⟩ := h.inside x hx
    rcases hs t ht with hst | hst
    · exact Or.inr (by omega)
    · exact Or.inl (by omega)
  · rintro t ht
    obtain rfl : s = t := by simpa using ht
    refine ⟨Nat.le_refl _, by simp only [fin]; omega, rfl, fun a hlo hhi => ?_⟩
    omega
  · intro t ht
    rw [List.tail_cons] at ht
    cases slabs with
    | nil => simp at ht
    | cons u older =>
      rcases List.mem_cons.mp ht with rfl | ht
      · obtain ⟨-, -, heq, hcov⟩ := h.newest t rfl
        exact ⟨cursor, by omega, hcov⟩
      · exact h.spent t ht

/-- A piece is apart from the header of every slab. -/
theorem Carved.apart_header (h : Carved g tail slabs pieces cursor limit) (hx : x ∈ pieces)
    (hs : s ∈ slabs) (hsize : g ≤ s.size) : x.Apart ⟨s.start, g⟩ := by
  obtain ⟨t, ht, hlo, hhi⟩ := h.inside x hx
  by_cases hst : s = t
  · subst hst
    exact Or.inr hlo
  · have hap : t.Apart s := apart_of_mem h.slabsApart ht hs fun he => hst he.symm
    have hheader : (⟨s.start, g⟩ : Block).fin ≤ s.fin := Nat.add_le_add_left hsize s.start
    have hpart : x.Apart s := hap.part (by omega) hhi
    have hback : (⟨s.start, g⟩ : Block).Apart x := hpart.symm.part (Nat.le_refl _) hheader
    exact hback.symm

end

end Lob.Lib.Carving
