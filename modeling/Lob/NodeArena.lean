/-
# Lob.NodeArena — the book's node arena.

Pointers are addresses and `0` is the null pointer.  The memory is a map from addresses to the
eight-byte words stored there, so a free block's link is the word at its address, and a slab header is
the word at the slab (the slab before it) and the one eight bytes on (the slab's size).  What the
system's `operator new` returns is not the arena's to say: a call takes the answers as a parameter
`place`, and the heap keeps the blocks handed out and not returned.
-/
import Lob.Lib.Carving
import Lob.Lib.Linked
import Lob.Types

namespace Lob

open Lib Lib.Carving Lib.Linked

/-! ## The system's heap -/

/-- The words in memory, and the blocks `operator new` has handed out. -/
structure SystemHeap where
  words : Nat → Nat
  held : List Block

namespace SystemHeap

/-- `::operator new`: `place` says where the block lies, or that the system has none. -/
def operatorNew (h : SystemHeap) (place : Nat → Option Nat) (bytes : Nat) :
    Option (Nat × SystemHeap) :=
  (place bytes).map fun p => (p, { h with held := ⟨p, bytes⟩ :: h.held })

/-- `::operator delete`. -/
def operatorDelete (h : SystemHeap) (p bytes : Nat) : SystemHeap :=
  { h with held := h.held.erase ⟨p, bytes⟩ }

/-- Store one word. -/
def store (h : SystemHeap) (p word : Nat) : SystemHeap :=
  { h with words := Function.update h.words p word }

/-- `std::memset` of whole words. -/
def fill (h : SystemHeap) (p bytes word : Nat) : SystemHeap :=
  { h with words := fun a => if p ≤ a ∧ a < p + bytes then word else h.words a }

/-- Store a zero byte every `kTouchStride` bytes of a new slab; the byte is the low one of its word. -/
def touch (h : SystemHeap) (slab bytes : Nat) : SystemHeap :=
  { h with words := fun a =>
      if slab ≤ a ∧ a < slab + bytes ∧ (a - slab) % 4096 = 0 then h.words a / 256 * 256
      else h.words a }

/-- What `operator new` may return: an aligned block in the address space, apart from all others. -/
structure Fresh (held : List Block) (b : Block) : Prop where
  aligned : 16 ∣ b.start
  pos : 0 < b.start
  lt : b.fin < 2 ^ 64
  apart : ∀ c ∈ held, b.Apart c

end SystemHeap

/-! ## The arena -/

/-- The arena: one chain of free blocks per size class, and the newest slab's unused tail. -/
structure NodeArena where
  freeList : Nat → Nat := fun _ => 0
  cursor : Nat := 0
  limit : Nat := 0
  newest : Nat := 0
  slabTotal : Nat := 0

namespace NodeArena

def kGranule : Nat := 16
def kMaxBlock : Nat := 256
def kSlabBytes : Nat := 64 * 1024

def slabBytes (m : NodeArena) : Nat := m.slabTotal

def sizeClass (bytes : Nat) : Nat :=
  if bytes = 0 then 1 else (bytes + kGranule - 1) / kGranule

def addSlab (place : Nat → Option Nat) (h : SystemHeap) (m : NodeArena) (bytes : Nat) :
    Option (SystemHeap × NodeArena) :=
  (h.operatorNew place bytes).map fun (slab, h) =>
    -- the header: the slab before this one, and the size
    (((h.touch slab bytes).store slab m.newest).store (slab + 8) bytes,
      { m with
        newest := slab
        slabTotal := (m.slabTotal + bytes) % 2 ^ 64
        cursor := slab + kGranule
        limit := slab + bytes })

/-- A new arena, in whatever memory there is. -/
def new (place : Nat → Option Nat) (h : SystemHeap) (reserveBytes : Nat) :
    Option (SystemHeap × NodeArena) :=
  if reserveBytes > 0 then addSlab place h {} (max ((reserveBytes + kGranule) % 2 ^ 64) kSlabBytes)
  else some (h, {})

/-- The bytes left in the newest slab: a pointer difference, read as unsigned. -/
def room (m : NodeArena) : Nat := (m.limit + 2 ^ 64 - m.cursor) % 2 ^ 64

def carve (place : Nat → Option Nat) (h : SystemHeap) (m : NodeArena) (c : Nat) :
    Option (Nat × SystemHeap × NodeArena) :=
  let bytes := c * kGranule
  -- what the old slab had left is lost
  (if m.room < bytes then addSlab place h m kSlabBytes else some (h, m)).map fun (h, m) =>
    (m.cursor, h, { m with cursor := m.cursor + bytes })

def allocate (place : Nat → Option Nat) (h : SystemHeap) (m : NodeArena) (bytes : Nat) :
    Option (Nat × SystemHeap × NodeArena) :=
  if bytes > kMaxBlock then (h.operatorNew place bytes).map fun (p, h) => (p, h, m)
  else
    let c := sizeClass bytes
    let b := m.freeList c
    if b ≠ 0 then some (b, h, { m with freeList := Function.update m.freeList c (h.words b) })
    else carve place h m c

/-- `scrub` is on unless the build defines `NDEBUG`. -/
def deallocate (scrub : Bool) (h : SystemHeap) (m : NodeArena) (p bytes : Nat) :
    SystemHeap × NodeArena :=
  if bytes > kMaxBlock then (h.operatorDelete p bytes, m)
  else
    let c := sizeClass bytes
    -- the pattern is written first, so the link survives it
    let h := if scrub then h.fill p (c * kGranule) 0xDDDDDDDDDDDDDDDD else h
    (h.store p (m.freeList c), { m with freeList := Function.update m.freeList c p })

/-- The destructor's loop over the slab headers, at most `fuel` of them. -/
def destroy : Nat → SystemHeap → Nat → SystemHeap
  | 0, h, _ => h
  | fuel + 1, h, newest =>
    if newest = 0 then h
    else destroy fuel (h.operatorDelete newest (h.words (newest + 8))) (h.words newest)

/-! ## Size classes -/

/-- A class holds the bytes asked for, and is not empty. -/
theorem le_sizeClass (bytes : Nat) : max bytes 1 ≤ 16 * sizeClass bytes := by
  unfold sizeClass kGranule
  split <;> omega

/-- The classes index the array of free lists, and none is class `0`. -/
theorem sizeClass_bounds {bytes : Nat} (h : bytes ≤ kMaxBlock) :
    0 < sizeClass bytes ∧ 16 * sizeClass bytes ≤ kMaxBlock := by
  unfold sizeClass kGranule kMaxBlock at *
  split <;> omega

/-! ## Histories -/

/-- A call that returned, or a client writing to its blocks. -/
inductive Event
  | allocated (p bytes : Nat)
  | freed (p bytes : Nat)
  | written

/-- The blocks allocated and not freed since, newest first, with the sizes asked for. -/
def liveOf : List Event → List Block
  | [] => []
  | .allocated p bytes :: past => ⟨p, bytes⟩ :: liveOf past
  | .freed p bytes :: past => (liveOf past).erase ⟨p, bytes⟩
  | .written :: past => liveOf past

/-- The blocks freed and not allocated again since, last freed first, with their size classes; those
above `kMaxBlock` went back to the system. -/
def freedOf : List Event → List (Nat × Nat)
  | [] => []
  | .allocated p bytes :: past =>
    if bytes > kMaxBlock then freedOf past else (freedOf past).erase (p, sizeClass bytes)
  | .freed p bytes :: past =>
    if bytes > kMaxBlock then freedOf past else (p, sizeClass bytes) :: freedOf past
  | .written :: past => freedOf past

/-- The addresses of the freed blocks of one class, in order. -/
def chain (c : Nat) (freed : List (Nat × Nat)) : List Nat :=
  (freed.filter (·.2 = c)).map Prod.fst

/-- The live blocks that were too large for the arena. -/
def largeOf (live : List Block) : List Block := live.filter (kMaxBlock < ·.size)

/-- The arena's own blocks, whole size classes: live ones and freed ones. -/
def pieces (live : List Block) (freed : List (Nat × Nat)) : List Block :=
  (live.filter (·.size ≤ kMaxBlock)).map (fun b => ⟨b.start, 16 * sizeClass b.size⟩)
    ++ freed.map fun f => ⟨f.1, 16 * f.2⟩

/-- What `operator new` may answer during one call. -/
def Honest (place : Nat → Option Nat) (h : SystemHeap) : Prop :=
  ∀ bytes p, place bytes = some p → SystemHeap.Fresh h.held ⟨p, bytes⟩

/-- The arenas reached from a new one by calls that returned.  A live block is freed with the size it
was allocated with; of the blocks the system has handed out, clients write only to live ones. -/
inductive Run (reserveBytes : Nat) : List Event → SystemHeap → NodeArena → Prop
  | new {place : Nat → Option Nat} {words : Nat → Nat} {h : SystemHeap} {m : NodeArena}
      (hplace : Honest place ⟨words, []⟩)
      (hcall : new place ⟨words, []⟩ reserveBytes = some (h, m)) : Run reserveBytes [] h m
  | allocate {past : List Event} {h h' : SystemHeap} {m m' : NodeArena} {place : Nat → Option Nat}
      {p : Nat} (bytes : Nat) (hrun : Run reserveBytes past h m) (hplace : Honest place h)
      (hcall : m.allocate place h bytes = some (p, h', m')) :
      Run reserveBytes (.allocated p bytes :: past) h' m'
  | deallocate {past : List Event} {h : SystemHeap} {m : NodeArena} (scrub : Bool) {p bytes : Nat}
      (hrun : Run reserveBytes past h m) (hlive : ⟨p, bytes⟩ ∈ liveOf past) :
      Run reserveBytes (.freed p bytes :: past) (m.deallocate scrub h p bytes).1
        (m.deallocate scrub h p bytes).2
  | write {past : List Event} {h : SystemHeap} {m : NodeArena} (words : Nat → Nat)
      (hrun : Run reserveBytes past h m)
      (hkeeps : ∀ a, (∃ b ∈ h.held, b.Has a) → (∀ b ∈ liveOf past, ¬ b.Has a) →
        words a = h.words a) :
      Run reserveBytes (.written :: past) { h with words := words } m

/-! ## The invariant -/

/-- The words the arena must find unchanged: slab headers, and the links of freed blocks. -/
def Owned (slabs : List Block) (freed : List (Nat × Nat)) (a : Nat) : Prop :=
  (∃ s ∈ slabs, s.start ≤ a ∧ a < s.start + 16) ∨ ∃ f ∈ freed, a = f.1

/-- The chains in memory: the slabs, newest first, and one free list per size class. -/
structure Links (words : Nat → Nat) (m : NodeArena) (slabs : List Block) (freed : List (Nat × Nat)) :
    Prop where
  newest : m.newest = (slabs.map Block.start).headD 0
  back : Forward words 0 (slabs.map Block.start)
  sizes : ∀ s ∈ slabs, words (s.start + 8) = s.size
  heads : ∀ c, m.freeList c = (chain c freed).headD 0
  free : ∀ c, Forward words 0 (chain c freed)

/-- The invariant of an arena, with its slabs, newest first. -/
structure Wf (past : List Event) (h : SystemHeap) (m : NodeArena) (slabs : List Block) : Prop where
  carved : Carved 16 256 slabs (pieces (liveOf past) (freedOf past)) m.cursor m.limit
  links : Links h.words m slabs (freedOf past)
  held : h.held.Perm (slabs ++ largeOf (liveOf past))
  heldApart : h.held.Pairwise Block.Apart
  bounds : ∀ b ∈ h.held, 16 ∣ b.start ∧ 0 < b.start ∧ b.fin < 2 ^ 64
  sized : ∀ s ∈ slabs, 16 ≤ s.size
  total : m.slabTotal = (slabs.map Block.size).sum
  classes : ∀ f ∈ freedOf past, 0 < f.2

section

variable {place : Nat → Option Nat} {words' : Nat → Nat} {past : List Event} {h h' : SystemHeap}
  {m m' : NodeArena} {slabs live : List Block} {freed : List (Nat × Nat)} {s b : Block}
  {f : Nat × Nat} {p a c n bytes reserveBytes : Nat} {scrub : Bool}

theorem mem_chain : p ∈ chain c freed ↔ (p, c) ∈ freed := by
  simp [chain]

theorem mem_pieces_live (freed : List (Nat × Nat)) (hb : b ∈ live) (hsize : b.size ≤ kMaxBlock) :
    ⟨b.start, 16 * sizeClass b.size⟩ ∈ pieces live freed :=
  List.mem_append_left _ (List.mem_map.mpr ⟨b, List.mem_filter.mpr ⟨hb, by simpa using hsize⟩, rfl⟩)

theorem mem_pieces_freed (hf : f ∈ freed) : ⟨f.1, 16 * f.2⟩ ∈ pieces live freed :=
  List.mem_append_right _ (List.mem_map.mpr ⟨f, hf, rfl⟩)

/-- The chains only read the words the arena owns. -/
theorem Links.congr (hl : Links h.words m slabs freed)
    (heq : ∀ a, Owned slabs freed a → words' a = h.words a) : Links words' m slabs freed where
  newest := hl.newest
  back := by
    refine hl.back.congr fun p hp => heq p ?_
    obtain ⟨s, hs, rfl⟩ := List.mem_map.mp hp
    exact Or.inl ⟨s, hs, by omega⟩
  sizes s hs := (heq _ (Or.inl ⟨s, hs, by omega⟩)).trans (hl.sizes s hs)
  heads := hl.heads
  free c := (hl.free c).congr fun p hp => heq p (Or.inr ⟨(p, c), mem_chain.mp hp, rfl⟩)

/-- Handing out the first block of a class takes it off that chain and leaves the others. -/
theorem chain_erase {rest : List Nat} (h : chain c freed = p :: rest) (d : Nat) :
    chain d (freed.erase (p, c)) = if d = c then rest else chain d freed := by
  unfold chain at h ⊢
  rw [← List.erase_filter]
  split
  · rename_i hdc
    subst hdc
    generalize hfs : freed.filter (·.2 = d) = fs at h
    cases fs with
    | nil => simp at h
    | cons f fs =>
      have hf : f ∈ freed.filter (·.2 = d) := hfs ▸ List.mem_cons_self
      have hd : f.2 = d := by simpa using (List.mem_filter.mp hf).2
      rw [List.map_cons, List.cons.injEq] at h
      obtain rfl : f = (p, d) := Prod.ext h.1 hd
      rw [List.erase_cons_head]
      exact h.2
  · rename_i hdc
    rw [List.erase_of_not_mem]
    simpa using fun _ => Ne.symm hdc

theorem chain_cons (d : Nat) :
    chain d ((p, c) :: freed) = if c = d then p :: chain d freed else chain d freed := by
  unfold chain
  by_cases hdc : c = d <;> simp [hdc]

/-! ## The invariant gives the geometry -/

/-- Every slab is a block the system handed out. -/
theorem Wf.slab_held (hw : Wf past h m slabs) (hs : s ∈ slabs) : s ∈ h.held :=
  hw.held.mem_iff.mpr (List.mem_append_left _ hs)

/-- Slabs and large live blocks are different blocks of the system. -/
theorem Wf.apart_large (hw : Wf past h m slabs) (hs : s ∈ slabs) (hb : b ∈ largeOf (liveOf past)) :
    s.Apart b :=
  (List.pairwise_append.mp (apart_perm hw.heldApart hw.held)).2.2 s hs b hb

/-- A live block's own bytes lie in its piece. -/
theorem live_part (b : Block) :
    (⟨b.start, max b.size 1⟩ : Block).fin ≤ (⟨b.start, 16 * sizeClass b.size⟩ : Block).fin :=
  Nat.add_le_add_left (le_sizeClass b.size) b.start

/-- Words the arena owns lie in blocks the system handed out. -/
theorem Wf.owned_held (hw : Wf past h m slabs) (ha : Owned slabs (freedOf past) a) :
    ∃ s ∈ slabs, s.Has a := by
  rcases ha with ⟨s, hs, hlo, hhi⟩ | ⟨f, hf, rfl⟩
  · have := hw.sized s hs
    exact ⟨s, hs, hlo, by simp only [Block.fin]; omega⟩
  · obtain ⟨s, hs, hlo, hhi⟩ := hw.carved.inside _ (mem_pieces_freed hf)
    have hpos := hw.classes f hf
    simp only [Block.fin] at hlo hhi
    exact ⟨s, hs, by omega, by simp only [Block.fin]; omega⟩

/-- The piece of a live block has no word the arena owns. -/
theorem Wf.owned_not_piece (hw : Wf past h m slabs) (ha : Owned slabs (freedOf past) a)
    (hb : b ∈ liveOf past) (hsize : b.size ≤ kMaxBlock) :
    ¬ (⟨b.start, 16 * sizeClass b.size⟩ : Block).Has a := by
  intro hin
  rcases ha with ⟨s, hs, hlo, hhi⟩ | ⟨f, hf, rfl⟩
  · have hpiece := mem_pieces_live (freedOf past) hb hsize
    exact (hw.carved.apart_header hpiece hs (hw.sized s hs)).not_has hin ⟨hlo, hhi⟩
  · have hcross := (List.pairwise_append.mp hw.carved.apart).2.2 _
      (List.mem_map.mpr ⟨b, List.mem_filter.mpr ⟨hb, by simpa using hsize⟩, rfl⟩) _
      (List.mem_map.mpr ⟨f, hf, rfl⟩)
    have hpos := hw.classes f hf
    exact hcross.not_has hin ⟨Nat.le_refl _, by simp only [Block.fin]; omega⟩

/-- No live block has a word the arena owns. -/
theorem Wf.owned_not_live (hw : Wf past h m slabs) (ha : Owned slabs (freedOf past) a)
    (hb : b ∈ liveOf past) : ¬ b.Has a := by
  intro hin
  by_cases hsize : b.size ≤ kMaxBlock
  · have hfin : b.fin ≤ (⟨b.start, max b.size 1⟩ : Block).fin :=
      Nat.add_le_add_left (Nat.le_max_left _ _) b.start
    exact hw.owned_not_piece ha hb hsize ⟨hin.1, hin.2.trans_le (hfin.trans (live_part b))⟩
  · have hlarge : b ∈ largeOf (liveOf past) :=
      List.mem_filter.mpr ⟨hb, by simpa using Nat.lt_of_not_le hsize⟩
    -- an owned word lies in a slab, so not in a block the system handed out beside it
    obtain ⟨s, hs, hhas⟩ := hw.owned_held ha
    exact (hw.apart_large hs hlarge).not_has hhas hin

theorem Wf.limit_lt (hw : Wf past h m slabs) : m.cursor ≤ m.limit ∧ m.limit < 2 ^ 64 := by
  refine ⟨hw.carved.cursor_le, ?_⟩
  cases slabs with
  | nil => simp [hw.carved.none rfl]
  | cons s older =>
    obtain ⟨-, -, heq, -⟩ := hw.carved.newest s rfl
    have hb := hw.bounds s (hw.slab_held List.mem_cons_self)
    omega

/-- With the cursor in its slab, the pointer difference is the difference. -/
theorem Wf.room_eq (hw : Wf past h m slabs) : m.room = m.limit - m.cursor := by
  obtain ⟨hle, hlt⟩ := hw.limit_lt
  unfold room
  omega

/-! ## A new slab -/

/-- What `addSlab` does to the invariant. -/
theorem Wf.addSlab (hw : Wf past h m slabs) (hplace : Honest place h) (htail : m.limit ≤ m.cursor + 256)
    (hbytes : 16 ≤ bytes) (hcall : addSlab place h m bytes = some (h', m')) :
    ∃ slab, Wf past h' m' (slab :: slabs) ∧ slab.size = bytes ∧ m'.cursor = slab.start + 16
      ∧ m'.limit = slab.fin ∧ m'.freeList = m.freeList := by
  simp only [NodeArena.addSlab, SystemHeap.operatorNew, Option.map_map, Option.map_eq_some_iff,
    Function.comp_apply, Prod.mk.injEq] at hcall
  obtain ⟨slab, hslab, rfl, rfl⟩ := hcall
  obtain ⟨haligned, hpos, hlt, hfresh⟩ := hplace bytes slab hslab
  have hapart : ∀ t ∈ slabs, (⟨slab, bytes⟩ : Block).Apart t := fun t ht =>
    hfresh t (hw.slab_held ht)
  -- the new words all lie in the new slab
  have hkeep : ∀ a, Owned slabs (freedOf past) a →
      ((((h.touch slab bytes).store slab m.newest).store (slab + 8) bytes).words a) = h.words a := by
    intro a ha
    obtain ⟨t, ht, hin⟩ := hw.owned_held ha
    have hnot : ¬ (⟨slab, bytes⟩ : Block).Has a := (hapart t ht).symm.not_has hin
    simp only [Block.Has, Block.fin] at hnot
    have hne₈ : a ≠ slab + 8 := by omega
    have hne : a ≠ slab := by omega
    have hout : ¬ (slab ≤ a ∧ a < slab + bytes ∧ (a - slab) % 4096 = 0) := by omega
    simp only [SystemHeap.store, SystemHeap.touch, Function.update_of_ne hne₈,
      Function.update_of_ne hne, if_neg hout]
  have hl := hw.links.congr hkeep
  refine ⟨⟨slab, bytes⟩, ⟨hw.carved.leave htail hapart haligned hbytes, ⟨rfl, ?_, ?_, hl.heads, hl.free⟩,
    hw.held.cons _, List.pairwise_cons.mpr ⟨hfresh, hw.heldApart⟩, ?_, ?_, ?_, hw.classes⟩,
    rfl, rfl, rfl, rfl⟩
  · refine ⟨?_, hl.back⟩
    rw [← hw.links.newest]
    simp [SystemHeap.store]
  · rintro t ht
    rcases List.mem_cons.mp ht with rfl | ht
    · simp [SystemHeap.store]
    · exact hl.sizes t ht
  · rintro t ht
    rcases List.mem_cons.mp ht with rfl | ht
    · exact ⟨haligned, hpos, hlt⟩
    · exact hw.bounds t ht
  · rintro t ht
    rcases List.mem_cons.mp ht with rfl | ht
    · exact hbytes
    · exact hw.sized t ht
  · -- slabs that are apart fit the address space, so their sizes do not wrap
    have hsum : ((⟨slab, bytes⟩ :: slabs).map Block.size).sum ≤ 2 ^ 64 - 1 := by
      refine sum_size_le (List.pairwise_cons.mpr ⟨hapart, hw.carved.slabsApart⟩) fun t ht => ?_
      rcases List.mem_cons.mp ht with rfl | ht
      · exact Nat.le_pred_of_lt hlt
      · exact Nat.le_pred_of_lt (hw.bounds t (hw.slab_held ht)).2.2
    simp only [List.map_cons, List.sum_cons] at hsum ⊢
    rw [hw.total]
    omega

theorem wf_empty (words : Nat → Nat) : Wf [] ⟨words, []⟩ {} [] where
  carved := carved_nil
  links := ⟨rfl, trivial, by simp, fun _ => rfl, fun _ => trivial⟩
  held := .nil
  heldApart := .nil
  bounds := by simp
  sized := by simp
  total := rfl
  classes := by simp [freedOf]

theorem wf_new {words : Nat → Nat} (hplace : Honest place ⟨words, []⟩)
    (hcall : new place ⟨words, []⟩ reserveBytes = some (h, m)) : ∃ slabs, Wf [] h m slabs := by
  unfold new at hcall
  split at hcall
  · have hbytes : 16 ≤ max ((reserveBytes + kGranule) % 2 ^ 64) kSlabBytes :=
      (by decide : 16 ≤ kSlabBytes).trans (Nat.le_max_right _ _)
    obtain ⟨slab, hw, -⟩ := (wf_empty words).addSlab hplace (Nat.zero_le _) hbytes hcall
    exact ⟨_, hw⟩
  · obtain ⟨rfl, rfl⟩ : _ = h ∧ _ = m := by simpa using hcall
    exact ⟨_, wf_empty words⟩

/-! ## Allocating -/

/-- What `allocate` does for a request the arena serves: the first freed block of the class, or else a
piece that was never handed out. -/
structure Served (past : List Event) (p bytes : Nat) : Prop where
  reused : ∀ q ∈ (chain (sizeClass bytes) (freedOf past)).head?, p = q
  fresh : chain (sizeClass bytes) (freedOf past) = [] →
    ∀ f ∈ freedOf past, (⟨p, 16 * sizeClass bytes⟩ : Block).Apart ⟨f.1, 16 * f.2⟩

/-- Handing out a freed block moves its piece from one list to the other. -/
theorem pieces_reuse (hf : (p, sizeClass bytes) ∈ freed) (hsize : bytes ≤ kMaxBlock) :
    (pieces live freed).Perm
      (pieces (⟨p, bytes⟩ :: live) (freed.erase (p, sizeClass bytes))) := by
  have hfree := (List.perm_cons_erase hf).map fun f => (⟨f.1, 16 * f.2⟩ : Block)
  simp only [pieces, List.filter_cons, hsize, decide_true, if_true, List.map_cons, List.cons_append]
  exact (List.Perm.append_left _ hfree).trans List.perm_middle

theorem Wf.reuse {rest : List Nat} (hw : Wf past h m slabs) (hsize : bytes ≤ kMaxBlock)
    (hchain : chain (sizeClass bytes) (freedOf past) = p :: rest) :
    Wf (.allocated p bytes :: past) h
      { m with freeList := Function.update m.freeList (sizeClass bytes) (h.words p) } slabs := by
  have hf : (p, sizeClass bytes) ∈ freedOf past := mem_chain.mp (hchain ▸ List.mem_cons_self)
  have hfree := hw.links.free (sizeClass bytes)
  rw [hchain] at hfree
  have hbig : ¬ bytes > kMaxBlock := Nat.not_lt.mpr hsize
  have hlarge : largeOf (liveOf (.allocated p bytes :: past)) = largeOf (liveOf past) := by
    simp [largeOf, liveOf, hsize]
  refine ⟨?_, ⟨hw.links.newest, hw.links.back, hw.links.sizes, fun d => ?_, fun d => ?_⟩,
    hlarge ▸ hw.held, hw.heldApart, hw.bounds, hw.sized, hw.total, fun f hfmem => ?_⟩
  · simp only [freedOf, if_neg hbig, liveOf]
    exact hw.carved.perm (pieces_reuse hf hsize)
  · simp only [freedOf, if_neg hbig, chain_erase hchain, Function.update_apply]
    split
    · exact hfree.1
    · exact hw.links.heads d
  · simp only [freedOf, if_neg hbig, chain_erase hchain]
    split
    · exact hfree.2
    · exact hw.links.free d
  · simp only [freedOf, if_neg hbig] at hfmem
    exact hw.classes f (List.mem_of_mem_erase hfmem)

/-- A piece cut where the cursor stands, behind every piece there is. -/
theorem Wf.cut (hw : Wf past h m slabs) (hne : slabs ≠ []) (hsize : bytes ≤ kMaxBlock)
    (hchain : chain (sizeClass bytes) (freedOf past) = [])
    (hfits : m.cursor + 16 * sizeClass bytes ≤ m.limit) :
    Wf (.allocated m.cursor bytes :: past) h
        { m with cursor := m.cursor + 16 * sizeClass bytes } slabs
      ∧ Served past m.cursor bytes := by
  have hpos := (sizeClass_bounds hsize).1
  have hbig : ¬ bytes > kMaxBlock := Nat.not_lt.mpr hsize
  have hnew : (m.cursor, sizeClass bytes) ∉ freedOf past := by
    intro hmem
    have hin := mem_chain.mpr hmem
    simp [hchain] at hin
  have hlarge : largeOf (liveOf (.allocated m.cursor bytes :: past)) = largeOf (liveOf past) := by
    simp [largeOf, liveOf, hsize]
  have hfreed : freedOf (.allocated m.cursor bytes :: past) = freedOf past := by
    simp only [freedOf, if_neg hbig, List.erase_of_not_mem hnew]
  have hpieces : pieces (liveOf (.allocated m.cursor bytes :: past)) (freedOf past)
      = ⟨m.cursor, 16 * sizeClass bytes⟩ :: pieces (liveOf past) (freedOf past) := by
    simp [pieces, liveOf, hsize]
  refine ⟨⟨?_, ?_, hlarge ▸ hw.held, hw.heldApart, hw.bounds, hw.sized, hw.total, ?_⟩, ?_, fun _ f hf => ?_⟩
  · rw [hfreed, hpieces]
    exact hw.carved.carve hne (Nat.dvd_mul_right 16 _) hfits
  · rw [hfreed]
    exact ⟨hw.links.newest, hw.links.back, hw.links.sizes, hw.links.heads, hw.links.free⟩
  · rw [hfreed]
    exact hw.classes
  · simp [hchain]
  · rcases hw.carved.uncut _ (mem_pieces_freed hf) with hle | hle
    · exact Or.inr hle
    · exact Or.inl (hfits.trans hle)

/-- `carve` cuts from the newest slab, or from a new one when the piece does not fit. -/
theorem Wf.carve (hw : Wf past h m slabs) (hplace : Honest place h) (hsize : bytes ≤ kMaxBlock)
    (hchain : chain (sizeClass bytes) (freedOf past) = [])
    (hcall : carve place h m (sizeClass bytes) = some (p, h', m')) :
    (∃ slabs', Wf (.allocated p bytes :: past) h' m' slabs') ∧ Served past p bytes := by
  obtain ⟨hpos, hmax⟩ := sizeClass_bounds hsize
  have hk : kMaxBlock = 256 := rfl
  obtain ⟨hle, hlt⟩ := hw.limit_lt
  simp only [NodeArena.carve, Option.map_eq_some_iff, hw.room_eq, Prod.exists, Prod.mk.injEq,
    show sizeClass bytes * kGranule = 16 * sizeClass bytes from Nat.mul_comm _ _] at hcall
  obtain ⟨h₁, m₁, hslab, rfl, rfl, rfl⟩ := hcall
  split at hslab
  · -- the old tail is shorter than the piece, and a whole slab is not
    obtain ⟨slab, hw₁, hbytes, hcur, hlim, -⟩ :=
      hw.addSlab hplace (by omega) (by decide) hslab
    have hslabSize : kSlabBytes = 65536 := rfl
    obtain ⟨hcut, hserved⟩ := hw₁.cut (List.cons_ne_nil _ _) hsize hchain
      (by simp only [Block.fin] at hlim; omega)
    exact ⟨⟨_, hcut⟩, hserved⟩
  · rename_i hroom
    obtain ⟨rfl, rfl⟩ : h = h₁ ∧ m = m₁ := by simpa using hslab
    have hne : slabs ≠ [] := by
      intro he
      obtain ⟨hc, hl⟩ := hw.carved.none he
      omega
    obtain ⟨hcut, hserved⟩ := hw.cut hne hsize hchain (by omega)
    exact ⟨⟨_, hcut⟩, hserved⟩

/-- A request above `kMaxBlock` is the system's. -/
theorem Wf.allocate_large (hw : Wf past h m slabs) (hplace : Honest place h) (hbig : bytes > kMaxBlock)
    (hp : place bytes = some p) :
    Wf (.allocated p bytes :: past) { h with held := ⟨p, bytes⟩ :: h.held } m slabs := by
  obtain ⟨haligned, hpos, hlt, hfresh⟩ := hplace bytes p hp
  have hpieces : pieces (liveOf (.allocated p bytes :: past)) (freedOf past)
      = pieces (liveOf past) (freedOf past) := by
    simp [pieces, liveOf, hbig]
  have hlarge : largeOf (liveOf (.allocated p bytes :: past)) = ⟨p, bytes⟩ :: largeOf (liveOf past) := by
    simp [largeOf, liveOf, hbig]
  have hfreed : freedOf (.allocated p bytes :: past) = freedOf past := by
    simp [freedOf, hbig]
  refine ⟨?_, hfreed ▸ hw.links, ?_, List.pairwise_cons.mpr ⟨hfresh, hw.heldApart⟩, ?_, hw.sized,
    hw.total, hfreed ▸ hw.classes⟩
  · rw [hfreed, hpieces]
    exact hw.carved
  · rw [hlarge]
    exact (hw.held.cons _).trans List.perm_middle.symm
  · rintro t ht
    rcases List.mem_cons.mp ht with rfl | ht
    · exact ⟨haligned, hpos, hlt⟩
    · exact hw.bounds t ht

/-- **`allocate` keeps the invariant**, and serves a small request as it should. -/
theorem Wf.allocate (hw : Wf past h m slabs) (hplace : Honest place h)
    (hcall : m.allocate place h bytes = some (p, h', m')) :
    (∃ slabs', Wf (.allocated p bytes :: past) h' m' slabs')
      ∧ (bytes ≤ kMaxBlock → Served past p bytes) := by
  unfold NodeArena.allocate at hcall
  split at hcall
  · rename_i hbig
    simp only [SystemHeap.operatorNew, Option.map_map, Option.map_eq_some_iff, Function.comp_apply,
      Prod.mk.injEq] at hcall
    obtain ⟨q, hq, rfl, rfl, rfl⟩ := hcall
    exact ⟨⟨_, hw.allocate_large hplace hbig hq⟩, fun hle => absurd hle (Nat.not_le.mpr hbig)⟩
  · rename_i hsize
    have hsize : bytes ≤ kMaxBlock := Nat.not_lt.mp hsize
    have hhead := hw.links.heads (sizeClass bytes)
    simp only at hcall
    split at hcall
    · rename_i hne
      obtain ⟨rfl, rfl, rfl⟩ : _ = p ∧ _ = h' ∧ _ = m' := by simpa using hcall
      cases hchain : chain (sizeClass bytes) (freedOf past) with
      | nil => simp [hchain] at hhead; exact absurd hhead hne
      | cons q rest =>
        rw [hchain, List.headD_cons] at hhead
        rw [hhead]
        refine ⟨⟨_, hw.reuse hsize hchain⟩, fun _ => ⟨?_, ?_⟩⟩
        · simp [hchain]
        · simp [hchain]
    · rename_i hnull
      cases hchain : chain (sizeClass bytes) (freedOf past) with
      | nil =>
        obtain ⟨hkept, hserved⟩ := hw.carve hplace hsize hchain hcall
        exact ⟨hkept, fun _ => hserved⟩
      | cons q rest =>
        -- a freed block is never at the null address
        have hq : (q, sizeClass bytes) ∈ freedOf past := mem_chain.mp (hchain ▸ List.mem_cons_self)
        obtain ⟨t, ht, hlo, -⟩ := hw.carved.inside _ (mem_pieces_freed hq)
        simp only at hlo
        rw [hchain, List.headD_cons] at hhead
        omega

/-! ## Freeing, and what clients write -/

/-- Freeing a small block moves its piece from one list to the other. -/
theorem pieces_freed (freed : List (Nat × Nat)) (hb : ⟨p, bytes⟩ ∈ live) (hsize : bytes ≤ kMaxBlock) :
    (pieces live freed).Perm
      (pieces (live.erase ⟨p, bytes⟩) ((p, sizeClass bytes) :: freed)) := by
  have hlive := ((List.perm_cons_erase hb).filter (·.size ≤ kMaxBlock)).map
    fun b => (⟨b.start, 16 * sizeClass b.size⟩ : Block)
  simp only [List.filter_cons, hsize, decide_true, if_true, List.map_cons] at hlive
  exact (List.Perm.append_right _ hlive).trans List.perm_middle.symm

/-- The bytes `deallocate` writes, the scrubbing and the link, belong to the freed block. -/
theorem deallocate_words (hsize : bytes ≤ kMaxBlock)
    (ha : ¬ (⟨p, 16 * sizeClass bytes⟩ : Block).Has a) :
    (m.deallocate scrub h p bytes).1.words a = h.words a := by
  have hpos := (sizeClass_bounds hsize).1
  simp only [Block.Has, Block.fin] at ha
  have hne : a ≠ p := by omega
  have hout : ¬ (p ≤ a ∧ a < p + sizeClass bytes * kGranule) := by
    simp only [kGranule]
    omega
  simp only [deallocate, if_neg (Nat.not_lt.mpr hsize), SystemHeap.store, Function.update_of_ne hne]
  split
  · simp only [SystemHeap.fill, if_neg hout]
  · rfl

theorem deallocate_held (hsize : bytes ≤ kMaxBlock) :
    (m.deallocate scrub h p bytes).1.held = h.held := by
  simp only [deallocate, if_neg (Nat.not_lt.mpr hsize), SystemHeap.store]
  split <;> rfl

theorem Wf.deallocate_small (hw : Wf past h m slabs) (hlive : ⟨p, bytes⟩ ∈ liveOf past)
    (hsize : bytes ≤ kMaxBlock) :
    Wf (.freed p bytes :: past) (m.deallocate scrub h p bytes).1 (m.deallocate scrub h p bytes).2
      slabs := by
  have hbig : ¬ bytes > kMaxBlock := Nat.not_lt.mpr hsize
  have hpos := (sizeClass_bounds hsize).1
  have hcarved := hw.carved.perm (pieces_freed (freedOf past) hlive hsize)
  have hfreed : freedOf (.freed p bytes :: past) = (p, sizeClass bytes) :: freedOf past := by
    simp only [freedOf, if_neg hbig]
  have hlarge : largeOf (liveOf (.freed p bytes :: past)) = largeOf (liveOf past) := by
    simp only [largeOf, liveOf, ← List.erase_filter]
    exact List.erase_of_not_mem (by simp [hsize])
  -- the words of the freed block are its own: no header and no other link is among them
  have hkeep : ∀ a, Owned slabs (freedOf past) a →
      (m.deallocate scrub h p bytes).1.words a = h.words a := by
    intro a ha
    exact deallocate_words hsize (hw.owned_not_piece ha hlive hsize)
  have hl := hw.links.congr hkeep
  have hlink : (m.deallocate scrub h p bytes).1.words p = m.freeList (sizeClass bytes) := by
    simp [deallocate, if_neg hbig, SystemHeap.store]
  have hmeta : (m.deallocate scrub h p bytes).2
      = { m with freeList := Function.update m.freeList (sizeClass bytes) p } := by
    simp only [deallocate, if_neg hbig]
  rw [hmeta]
  refine ⟨hfreed ▸ hcarved, ⟨hl.newest, hl.back, hl.sizes, fun d => ?_, fun d => ?_⟩, ?_, ?_, ?_,
    hw.sized, hw.total, fun f hf => ?_⟩
  · simp only [hfreed, chain_cons, Function.update_apply, eq_comm (a := d)]
    split
    · rfl
    · exact hl.heads d
  · rw [hfreed, chain_cons]
    split
    · rename_i hd
      subst hd
      exact ⟨hlink.trans (hw.links.heads _), hl.free _⟩
    · exact hl.free d
  · rw [deallocate_held hsize, hlarge]
    exact hw.held
  · rw [deallocate_held hsize]
    exact hw.heldApart
  · rw [deallocate_held hsize]
    exact hw.bounds
  · rw [hfreed] at hf
    rcases List.mem_cons.mp hf with rfl | hf
    · exact hpos
    · exact hw.classes f hf

theorem Wf.deallocate_large (hw : Wf past h m slabs) (hlive : ⟨p, bytes⟩ ∈ liveOf past)
    (hbig : bytes > kMaxBlock) :
    Wf (.freed p bytes :: past) (h.operatorDelete p bytes) m slabs := by
  have hfreed : freedOf (.freed p bytes :: past) = freedOf past := by
    simp only [freedOf, if_pos hbig]
  have hlarge : (⟨p, bytes⟩ : Block) ∈ largeOf (liveOf past) :=
    List.mem_filter.mpr ⟨hlive, by simpa using hbig⟩
  have hpieces : pieces (liveOf (.freed p bytes :: past)) (freedOf past)
      = pieces (liveOf past) (freedOf past) := by
    simp only [pieces, liveOf, ← List.erase_filter]
    rw [List.erase_of_not_mem (by simp [hbig])]
  have hslab : (⟨p, bytes⟩ : Block) ∉ slabs := by
    intro hs
    have hpos : 0 < (⟨p, bytes⟩ : Block).size := Nat.lt_of_le_of_lt (Nat.zero_le _) hbig
    exact (hw.apart_large hs hlarge).ne hpos rfl
  have hheld : (h.operatorDelete p bytes).held.Perm
      (slabs ++ largeOf (liveOf (.freed p bytes :: past))) := by
    have herase := hw.held.erase ⟨p, bytes⟩
    rw [List.erase_append_right _ hslab] at herase
    simpa only [largeOf, liveOf, SystemHeap.operatorDelete, List.erase_filter] using herase
  refine ⟨?_, hfreed ▸ hw.links, hheld, hw.heldApart.sublist List.erase_sublist, fun b hb => ?_,
    hw.sized, hw.total, hfreed ▸ hw.classes⟩
  · rw [hfreed, hpieces]
    exact hw.carved
  · exact hw.bounds b (List.mem_of_mem_erase hb)

/-- **`deallocate` keeps the invariant.** -/
theorem Wf.deallocate (hw : Wf past h m slabs) (scrub : Bool) (hlive : ⟨p, bytes⟩ ∈ liveOf past) :
    Wf (.freed p bytes :: past) (m.deallocate scrub h p bytes).1 (m.deallocate scrub h p bytes).2
      slabs := by
  by_cases hbig : bytes > kMaxBlock
  · simp only [NodeArena.deallocate, if_pos hbig]
    exact hw.deallocate_large hlive hbig
  · exact hw.deallocate_small hlive (Nat.not_lt.mp hbig)

/-- Clients that keep to their live blocks keep the invariant. -/
theorem Wf.write (hw : Wf past h m slabs)
    (hkeeps : ∀ a, (∃ b ∈ h.held, b.Has a) → (∀ b ∈ liveOf past, ¬ b.Has a) →
      words' a = h.words a) :
    Wf (.written :: past) { h with words := words' } m slabs := by
  refine ⟨hw.carved, hw.links.congr fun a ha => hkeeps a ?_ fun b hb => hw.owned_not_live ha hb,
    hw.held, hw.heldApart, hw.bounds, hw.sized, hw.total, hw.classes⟩
  obtain ⟨s, hs, hin⟩ := hw.owned_held ha
  exact ⟨s, hw.slab_held hs, hin⟩

/-- **The run lemma**: the invariant holds in every arena reached. -/
theorem Run.wf (hrun : Run reserveBytes past h m) : ∃ slabs, Wf past h m slabs := by
  induction hrun with
  | new hplace hcall => exact wf_new hplace hcall
  | allocate bytes hrun hplace hcall ih =>
    obtain ⟨slabs, hw⟩ := ih
    exact (hw.allocate hplace hcall).1
  | deallocate scrub hrun hlive ih =>
    obtain ⟨slabs, hw⟩ := ih
    exact ⟨slabs, hw.deallocate scrub hlive⟩
  | write words hrun hkeeps ih =>
    obtain ⟨slabs, hw⟩ := ih
    exact ⟨slabs, hw.write hkeeps⟩

/-! ## What the arena promises -/

/-- The bytes a block of that size is good for: one at least. -/
def padded (b : Block) : Block := ⟨b.start, max b.size 1⟩

/-- The arena's promises at one moment, with the slabs it has allocated, newest first. -/
structure Sound (past : List Event) (h : SystemHeap) (m : NodeArena) (slabs : List Block) : Prop where
  /-- Following `newest` and the headers visits the slabs, with their sizes. -/
  reached : m.newest = (slabs.map Block.start).headD 0 ∧ Forward h.words 0 (slabs.map Block.start)
    ∧ ∀ s ∈ slabs, h.words (s.start + 8) = s.size
  /-- Beside the large live blocks, the slabs are all that `operator new` has handed out. -/
  allocated : h.held.Perm (slabs ++ (liveOf past).filter (kMaxBlock < ·.size))
  total : m.slabBytes = (slabs.map Block.size).sum
  inside : ∀ b ∈ liveOf past, b.size ≤ kMaxBlock →
    kGranule ∣ b.start ∧ ∃ s ∈ slabs, s.start + kGranule ≤ b.start ∧ (padded b).fin ≤ s.fin
  apart : (liveOf past).Pairwise fun b c => (padded b).Apart (padded c)
  headers : ∀ b ∈ liveOf past, ∀ s ∈ slabs, (padded b).Apart ⟨s.start, kGranule⟩
  /-- All but a short tail of each older slab has been handed out. -/
  tails : ∀ s ∈ slabs.tail, ∃ top, s.fin ≤ top + kMaxBlock
    ∧ Covers (pieces (liveOf past) (freedOf past)) (s.start + kGranule) top

theorem padded_large (hb : b ∈ largeOf live) : padded b = b := by
  have hbig : kMaxBlock < b.size := by simpa using (List.mem_filter.mp hb).2
  have hpos : 1 ≤ b.size := Nat.lt_of_le_of_lt (Nat.zero_le _) hbig
  simp [padded, Nat.max_eq_left hpos]

theorem Wf.inside_slab (hw : Wf past h m slabs) (hb : b ∈ liveOf past) (hsize : b.size ≤ kMaxBlock) :
    ∃ s ∈ slabs, s.start + 16 ≤ b.start ∧ (padded b).fin ≤ s.fin := by
  obtain ⟨s, hs, hlo, hhi⟩ := hw.carved.inside _ (mem_pieces_live (freedOf past) hb hsize)
  exact ⟨s, hs, hlo, (live_part b).trans hhi⟩

theorem Wf.apart_live (hw : Wf past h m slabs) :
    (liveOf past).Pairwise fun b c => (padded b).Apart (padded c) := by
  -- sort the live blocks into small and large ones
  have hperm := List.filter_append_perm (fun b : Block => b.size ≤ kMaxBlock) (liveOf past)
  refine (hperm.pairwise_iff fun hbc => hbc.symm).mp (List.pairwise_append.mpr ⟨?_, ?_, ?_⟩)
  · have hpieces := (List.pairwise_append.mp hw.carved.apart).1
    refine (List.pairwise_map.mp hpieces).imp fun {b c} hbc => ?_
    have hleft : (padded b).Apart ⟨c.start, 16 * sizeClass c.size⟩ :=
      hbc.part (Nat.le_refl _) (live_part b)
    have hright : (padded c).Apart (padded b) := hleft.symm.part (Nat.le_refl _) (live_part c)
    exact hright.symm
  · have hlarge : (largeOf (liveOf past)).Pairwise Block.Apart :=
      (List.pairwise_append.mp (apart_perm hw.heldApart hw.held)).2.1
    have hfilter : (liveOf past).filter (fun b => !decide (b.size ≤ kMaxBlock))
        = largeOf (liveOf past) :=
      List.filter_congr fun b _ => by rw [← decide_not]; simp
    rw [hfilter]
    refine hlarge.imp_of_mem fun {b c} hb hc hbc => ?_
    rwa [padded_large hb, padded_large hc]
  · intro b hb c hc
    rw [List.mem_filter] at hb hc
    have hlarge : c ∈ largeOf (liveOf past) :=
      List.mem_filter.mpr ⟨hc.1, by simpa using hc.2⟩
    obtain ⟨s, hs, hlo, hhi⟩ := hw.inside_slab hb.1 (by simpa using hb.2)
    rw [padded_large hlarge]
    exact (hw.apart_large hs hlarge).part (by simp only [padded]; omega) hhi

theorem Wf.sound (hw : Wf past h m slabs) : Sound past h m slabs where
  reached := ⟨hw.links.newest, hw.links.back, hw.links.sizes⟩
  allocated := hw.held
  total := hw.total
  inside b hb hsize := by
    have hpiece := mem_pieces_live (freedOf past) hb hsize
    have haligned := hw.carved.aligned _ hpiece
    exact ⟨haligned, hw.inside_slab hb hsize⟩
  apart := hw.apart_live
  headers b hb s hs := by
    by_cases hsize : b.size ≤ kMaxBlock
    · have hpiece := mem_pieces_live (freedOf past) hb hsize
      exact (hw.carved.apart_header hpiece hs (hw.sized s hs)).part (Nat.le_refl _) (live_part b)
    · have hlarge : b ∈ largeOf (liveOf past) :=
        List.mem_filter.mpr ⟨hb, by simpa using Nat.lt_of_not_le hsize⟩
      have hheader : (⟨s.start, kGranule⟩ : Block).fin ≤ s.fin :=
        Nat.add_le_add_left (hw.sized s hs) s.start
      have hpart : (⟨s.start, kGranule⟩ : Block).Apart b :=
        (hw.apart_large hs hlarge).part (Nat.le_refl _) hheader
      rw [padded_large hlarge]
      exact hpart.symm
  tails := hw.carved.spent

/-- **Live blocks never overlap**, for every reserve and every history of calls: each small block lies
in one slab behind its header, aligned, apart from every other live block and every header; a freed
block is handed out again only to a request of its class, newest first; older slabs leave a short tail;
and the slabs reached from `newest` are those allocated, with the sizes `slabBytes` adds up. -/
theorem live_blocks_never_overlap (hrun : Run reserveBytes past h m) :
    ∃ slabs, Sound past h m slabs
      ∧ ∀ place bytes p h' m', Honest place h → bytes ≤ kMaxBlock →
        m.allocate place h bytes = some (p, h', m') → Served past p bytes := by
  obtain ⟨slabs, hw⟩ := hrun.wf
  exact ⟨slabs, hw.sound, fun _ _ _ _ _ hplace hsize hcall => (hw.allocate hplace hcall).2 hsize⟩

/-- Of two live blocks the first, of 48 bytes, is freed and handed out again for 40, the same class. -/
theorem live_blocks_never_overlap_reuse :
    ∃ h m slabs, Run 0 [.allocated 4112 40, .freed 4112 48, .allocated 4160 100, .allocated 4112 48] h m
      ∧ Sound [.allocated 4112 40, .freed 4112 48, .allocated 4160 100, .allocated 4112 48] h m slabs := by
  have hslab : Honest (fun bytes => if bytes = kSlabBytes then some 4096 else none)
      ⟨fun _ => 0, []⟩ := by
    intro bytes p hp
    obtain ⟨rfl, rfl⟩ : bytes = kSlabBytes ∧ 4096 = p := by simpa using hp
    exact ⟨by decide, by decide, by decide, nofun⟩
  have h₀ : Run 0 [] ⟨fun _ => 0, []⟩ {} := .new (nofun : Honest (fun _ => none) _) rfl
  have h₁ := Run.allocate 48 h₀ hslab rfl
  -- the second block and the reuse of the first need no new slab
  have h₂ : Run 0 [.allocated 4160 100, .allocated 4112 48] _ _ :=
    .allocate 100 h₁ (nofun : Honest (fun _ => none) _) rfl
  have h₃ := Run.deallocate true h₂ (List.mem_cons_of_mem _ List.mem_cons_self)
  have hrun := Run.allocate 40 h₃ (nofun : Honest (fun _ => none) _) rfl
  obtain ⟨slabs, hsound, -⟩ := live_blocks_never_overlap hrun
  exact ⟨_, _, slabs, hrun, hsound⟩

/-! ## The destructor -/

/-- Returning the slabs of a chain leaves only the other blocks with their holders. -/
theorem destroy_held {others : List Block} {newest : Nat} (k : Nat)
    (hnewest : newest = (slabs.map Block.start).headD 0)
    (hback : Forward h.words 0 (slabs.map Block.start))
    (hsizes : ∀ s ∈ slabs, h.words (s.start + 8) = s.size) (hpos : ∀ s ∈ slabs, 0 < s.start)
    (hheld : h.held.Perm (slabs ++ others)) :
    (destroy (slabs.length + k) h newest).held.Perm others := by
  induction slabs generalizing h newest with
  | nil =>
    obtain rfl : newest = 0 := hnewest
    cases k with
    | zero => exact hheld
    | succ k => exact hheld
  | cons s older ih =>
    obtain ⟨hnext, hrest⟩ := hback
    obtain rfl : newest = s.start := hnewest
    have hnz : s.start ≠ 0 := (hpos s List.mem_cons_self).ne'
    simp only [List.length_cons, Nat.succ_add, destroy, if_neg hnz]
    refine ih hnext hrest (fun t ht => hsizes t (List.mem_cons_of_mem _ ht))
      (fun t ht => hpos t (List.mem_cons_of_mem _ ht)) ?_
    have herase := hheld.erase s
    rw [List.cons_append, List.erase_cons_head] at herase
    rw [hsizes s List.mem_cons_self]
    exact herase

/-- **The destructor returns every slab**, and nothing that a client still holds. -/
theorem Run.destroyed (hrun : Run reserveBytes past h m) :
    ∃ n, ∀ k, (destroy (n + k) h m.newest).held.Perm
      ((liveOf past).filter (kMaxBlock < ·.size)) := by
  obtain ⟨slabs, hw⟩ := hrun.wf
  have hpos : ∀ s ∈ slabs, 0 < s.start := fun s hs => (hw.bounds s (hw.slab_held hs)).2.1
  exact ⟨slabs.length, fun k =>
    destroy_held k hw.links.newest hw.links.back hw.links.sizes hpos hw.held⟩

end

end NodeArena

end Lob
