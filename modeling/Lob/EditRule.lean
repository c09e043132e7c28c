/-
# Lob.EditRule — what every edit of a book keeps, the walks over it keep.

Between two calls of `insert` the engine changes a book in few ways: it takes an id out of the index,
detaches a slot, fills an order and closes a level.  A relation between books that none of these breaks
holds across a turn of the matching loop, across the whole loop and across a cancel, whatever they do
besides.  So a frame on the window, on the stores or on the keys of the maps is proved edit by edit, and
the walks are gone through once, here.
-/
import Lob.OrderBook

namespace Lob.OrderBook

open Lib.Machine

/-- No edit within a level breaks `R`. -/
structure EditRule (R : OrderBook → OrderBook → Prop) : Prop where
  refl : ∀ b, R b b
  trans : ∀ {b b' b'' : OrderBook}, R b b' → R b' b'' → R b b''
  take : ∀ {b : OrderBook} {id : OrderId} {r : Option UInt32} {index : IdIndex UInt32},
    b.orderIndex.take id = some (r, index) → R b { b with orderIndex := index }
  detachAt : ∀ b s level slot, R b (b.detachAt s level slot)
  fill : ∀ (m : Matching) price level slot, R m.book (m.fill price level slot).book

/-- Nor does closing a level. -/
structure WalkRule (R : OrderBook → OrderBook → Prop) : Prop extends EditRule R where
  closeAt : ∀ {b b' : OrderBook} {s : Side} {price : Price}, b.closeAt s price = some b' → R b b'

section Walks

variable {R : OrderBook → OrderBook → Prop} {b b' : OrderBook} {m m' : Matching} {s : Side}
  {level : LevelRef} {slot : SlotIndex} {price : Price} {limit : Option Price} {incoming : Order}
  {id : OrderId}

theorem EditRule.drop (h : EditRule R) (hdrop : b.drop s level slot = some b') : R b b' := by
  unfold OrderBook.drop IdIndex.erase at hdrop
  cases htake : b.orderIndex.take (b.pool.slots slot).value.id with
  | none => simp [htake] at hdrop
  | some r =>
    obtain ⟨r, index⟩ := r
    simp only [htake, Option.map_some, Option.some.injEq] at hdrop
    subst hdrop
    exact h.trans (h.take htake) (h.detachAt _ _ _ _)

/-- **A visit of the oldest order** drops it or fills it, or both. -/
theorem EditRule.visit (h : EditRule R) (hvisit : m.visit price level slot = some m') :
    R m.book m'.book := by
  unfold Matching.visit at hvisit
  simp only at hvisit
  split at hvisit
  · split at hvisit
    · obtain rfl := Option.some.inj hvisit
      exact h.refl _
    · obtain ⟨b', hdrop, rfl⟩ := Option.map_eq_some_iff.mp hvisit
      exact h.drop hdrop
  · split at hvisit
    · obtain ⟨b', hdrop, rfl⟩ := Option.map_eq_some_iff.mp hvisit
      exact h.trans (h.fill m price level slot) (h.drop hdrop)
    · obtain rfl := Option.some.inj hvisit
      exact h.fill m price level slot

/-- **The step lemma**: a turn of the matching loop visits an order or closes a level. -/
theorem WalkRule.step (h : WalkRule R) (hstep : m.step limit = some m') : R m.book m'.book := by
  unfold Matching.step at hstep
  cases hctl : m.ctl with
  | done =>
    simp only [hctl, Option.some.injEq] at hstep
    subst hstep
    exact h.refl _
  | outer =>
    simp only [hctl] at hstep
    split at hstep
    · split at hstep
      · obtain rfl := Option.some.inj hstep
        exact h.refl _
      · split at hstep
        all_goals
          obtain rfl := Option.some.inj hstep
          exact h.refl _
    · obtain rfl := Option.some.inj hstep
      exact h.refl _
  | inner levelPrice level =>
    simp only [hctl] at hstep
    split at hstep
    · exact h.visit hstep
    · obtain rfl := Option.some.inj hstep
      exact h.refl _
  | leave levelPrice level =>
    simp only [hctl] at hstep
    split at hstep
    · obtain ⟨b', hclose, rfl⟩ := Option.map_eq_some_iff.mp hstep
      exact h.closeAt hclose
    · obtain rfl := Option.some.inj hstep
      exact h.refl _

/-- **The run lemma**: so does the whole loop. -/
theorem WalkRule.matchOpposite (h : WalkRule R) (hmatch : b.matchOpposite incoming limit = some m) :
    R b m.book := by
  obtain ⟨hreach, -⟩ := reaches_of_runUntil hmatch
  exact hreach.invariant (J := fun m => R b m.book) (h.refl b) fun _ _ hkept hstep =>
    h.trans hkept (h.step hstep)

theorem WalkRule.remove (h : WalkRule R) (hremove : b.remove s slot = some b') : R b b' := by
  unfold OrderBook.remove at hremove
  simp only at hremove
  split at hremove
  · simp at hremove
  · split at hremove
    · exact h.trans (h.detachAt b s _ slot) (h.closeAt hremove)
    · obtain rfl := Option.some.inj hremove
      exact h.detachAt b s _ slot

/-- **A cancel** of a live order takes its id and removes it, any other does nothing. -/
theorem WalkRule.cancel (h : WalkRule R) {r : Bool} (hcancel : b.cancel id = some (r, b')) : R b b' := by
  unfold OrderBook.cancel at hcancel
  split at hcancel
  · simp at hcancel
  · obtain ⟨-, rfl⟩ := Prod.mk.inj (Option.some.inj hcancel)
    exact h.refl b
  · rename_i htake
    obtain ⟨b₁, hremove, hpair⟩ := Option.map_eq_some_iff.mp hcancel
    obtain ⟨-, rfl⟩ := Prod.mk.inj hpair
    exact h.trans (h.take htake) (h.remove hremove)

end Walks

end Lob.OrderBook
