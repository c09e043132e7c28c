/-
# Lob.PrioritySound — what every call keeps of a priority book.

`Sound` is the part of the invariant that needs no history: ids are unique, quantities positive, the
sides do not cross.  `InOrder stamp` is the part that does: each side is sorted by price and, at one
price, by a stamp on ids.  The stamp is a parameter, since a run has several: the position of the call
that last rested the order, or the arrival number a reference book gave it.
-/
import Mathlib.Order.Basic
import Lob.PriorityBook

namespace Lob.PriorityBook

/-! ## Stamped order -/

/-- `x` is served before `y`: at a better price, or at the same price with an earlier stamp. -/
def Before (stamp : OrderId → Nat) (isBid : Bool) (x y : RestingOrder) : Prop :=
  better isBid x.price y.price ∨ (x.price = y.price ∧ stamp x.id < stamp y.id)

/-- A queue in the order it is served in. -/
def Served (stamp : OrderId → Nat) (isBid : Bool) (os : List RestingOrder) : Prop :=
  os.Pairwise (Before stamp isBid)

/-- Both sides are in price order, and at one price in the order of their stamps. -/
def InOrder (stamp : OrderId → Nat) (b : PriorityBook) : Prop :=
  ∀ s : Side, Served stamp s.isBid (b.queue s)

section Served

variable {stamp stamp' : OrderId → Nat} {isBid : Bool} {os os' : List RestingOrder}
  {o x y : RestingOrder}

theorem before_irrefl (x : RestingOrder) : ¬ Before stamp isBid x x := by
  rintro (h | ⟨-, h⟩)
  · exact irrefl_of (better isBid) _ h
  · exact Nat.lt_irrefl _ h

/-- What is served first is never at a worse price. -/
theorem Before.not_better (h : Before stamp isBid x y) : ¬ better isBid y.price x.price := by
  rcases h with h | ⟨h, -⟩
  · exact fun h' => irrefl_of (better isBid) _ (trans_of (better isBid) h h')
  · rw [h]
    exact irrefl_of (better isBid) _

theorem Before.asymm (h : Before stamp isBid x y) : ¬ Before stamp isBid y x := by
  rintro (h' | ⟨hp, hs'⟩)
  · exact h.not_better h'
  · rcases h with h | ⟨-, hs⟩
    · rw [hp] at h
      exact irrefl_of (better isBid) _ h
    · omega

theorem Served.of_suffix (h : Served stamp isBid os) (htags : os'.map tag <:+ os.map tag) :
    Served stamp isBid os' := by
  -- read on identities alone, the order of a queue passes to a suffix
  let R : OrderId × Price × ParticipantId → OrderId × Price × ParticipantId → Prop := fun u v =>
    better isBid u.2.1 v.2.1 ∨ (u.2.1 = v.2.1 ∧ stamp u.1 < stamp v.1)
  have hR : (os.map tag).Pairwise R := List.pairwise_map.mpr h
  have hR' : (os'.map tag).Pairwise R := hR.sublist htags.sublist
  exact (List.pairwise_map.mp hR' :)

/-- A queue only depends on the stamps of its own orders. -/
theorem Served.congr (h : Served stamp isBid os) (heq : ∀ o ∈ os, stamp' o.id = stamp o.id) :
    Served stamp' isBid os := by
  refine h.imp_of_mem fun hx hy hxy => ?_
  rw [Before, heq _ hx, heq _ hy]
  exact hxy

theorem mem_enqueue : x ∈ enqueue isBid o os ↔ x = o ∨ x ∈ os := by
  induction os with
  | nil => simp [enqueue]
  | cons y ys ih =>
    unfold enqueue
    split
    · simp
    · simp only [List.mem_cons, ih]
      tauto

theorem enqueue_perm : (enqueue isBid o os).Perm (o :: os) := by
  induction os with
  | nil => exact List.Perm.refl _
  | cons y ys ih =>
    unfold enqueue
    split
    · exact List.Perm.refl _
    · exact (ih.cons y).trans (List.Perm.swap o y ys)

/-- **An order stamped after all others is enqueued in its place.** -/
theorem Served.enqueue (h : Served stamp isBid os) (hlast : ∀ x ∈ os, stamp x.id < stamp o.id) :
    Served stamp isBid (enqueue isBid o os) := by
  induction os with
  | nil => exact List.pairwise_singleton _ _
  | cons y ys ih =>
    obtain ⟨hy, hys⟩ := List.pairwise_cons.mp h
    unfold PriorityBook.enqueue
    split
    · rename_i hb
      refine List.pairwise_cons.mpr ⟨fun x hx => ?_, h⟩
      -- what `o` beats, and everything behind it
      rcases List.mem_cons.mp hx with rfl | hx
      · exact Or.inl hb
      · rcases hy x hx with hyx | ⟨hyx, -⟩
        · exact Or.inl (trans_of (better isBid) hb hyx)
        · exact Or.inl (hyx ▸ hb)
    · rename_i hb
      refine List.pairwise_cons.mpr ⟨fun x hx => ?_,
        ih hys fun x hx => hlast x (List.mem_cons_of_mem _ hx)⟩
      rcases mem_enqueue.mp hx with rfl | hx
      · rcases trichotomous_of (better isBid) y.price x.price with hp | hp | hp
        · exact Or.inl hp
        · exact Or.inr ⟨hp, hlast y List.mem_cons_self⟩
        · exact absurd hp hb
      · exact hy x hx

/-- The head of a queue in order is its best price. -/
theorem Served.head (h : Served stamp isBid (o :: os)) :
    ∀ x ∈ os, Before stamp isBid o x := (List.pairwise_cons.mp h).1

end Served

/-! ## Soundness -/

/-- Unique ids, positive quantities, and sides that do not cross. -/
structure Sound (b : PriorityBook) : Prop where
  nodup : (b.orders.map RestingOrder.id).Nodup
  positive : ∀ s, ∀ o ∈ b.queue s, 0 < o.qty
  uncrossed : ∀ x ∈ b.queue .buy, ∀ y ∈ b.queue .sell, x.price < y.price

section Calls

variable {policy : SelfTradePolicy} {b : PriorityBook} {c : Call} {id : OrderId} {s : Side}
  {o : RestingOrder} {x : Submission} {stamp stamp' : OrderId → Nat}

theorem orders_perm (b : PriorityBook) (s : Side) :
    b.orders.Perm (b.queue s ++ b.queue s.opposite) := by
  cases s with
  | buy => exact List.Perm.refl _
  | sell => exact List.perm_append_comm

theorem sound_empty : Sound {} := ⟨by simp [orders], by simp, by simp⟩

theorem inOrder_empty (stamp : OrderId → Nat) : InOrder stamp {} := fun _ => List.Pairwise.nil

/-! ### Removal -/

theorem Sound.remove (h : b.Sound) (id : OrderId) : (b.remove id).Sound where
  nodup := by
    have hsub : (b.remove id).orders.Sublist b.orders :=
      List.filter_sublist.append List.filter_sublist
    exact h.nodup.sublist (hsub.map _)
  positive s o ho := h.positive s o (mem_remove.mp ho).1
  uncrossed x hx y hy := h.uncrossed x (mem_remove.mp hx).1 y (mem_remove.mp hy).1

theorem InOrder.remove (h : b.InOrder stamp) (id : OrderId) : (b.remove id).InOrder stamp :=
  fun s => (h s).sublist List.filter_sublist

/-! ### The walk of a submission -/

/-- **A walk leaves positive quantities**, and no order larger than it was. -/
theorem sweep_qty {k : Taker} {far : List RestingOrder} {p : Progress}
    (hpos : ∀ o ∈ far, 0 < o.qty) : ∀ o ∈ (k.sweep far p).1, 0 < o.qty := by
  refine (sweep_induction (P := fun far _ => ∀ o ∈ far, 0 < o.qty) hpos
    fun far₁ s₁ far₂ s₂ hP hturn => ?_).1
  obtain ⟨o, rest, rfl, -, -, -, ht⟩ := turn_cases hturn
  have htail : ∀ x ∈ rest, 0 < x.qty := fun x hx => hP x (List.mem_cons_of_mem _ hx)
  cases ht with
  | halt _ _ => exact hP
  | cancel _ _ => exact htail
  | fill _ _ => exact htail
  | partFill _ hlt =>
    intro x hx
    rcases List.mem_cons.mp hx with rfl | hx
    · rw [UInt32.lt_iff_toNat_lt] at hlt ⊢
      rw [Taker.rest_qty, UInt32.toNat_zero]
      omega
    · exact htail x hx

theorem Submission.after_tags (x : Submission) (s : Side) :
    (x.after.queue s).map tag <:+ (x.book.queue s).map tag := by
  rcases Side.eq_or_eq_opposite x.taker.side s with rfl | rfl
  · simp only [x.after_queue_near, List.suffix_refl]
  · rw [x.after_queue_far]
    exact sweep_tags

theorem Submission.mem_after (ho : o ∈ x.after.queue s) : ∃ o' ∈ x.book.queue s, tag o' = tag o :=
  List.mem_map.mp ((x.after_tags s).subset (List.mem_map_of_mem ho))

theorem Sound.after (h : x.book.Sound) : x.after.Sound where
  nodup := by
    have hids : ∀ s, ((x.after.queue s).map RestingOrder.id).Sublist
        ((x.book.queue s).map RestingOrder.id) := by
      intro s
      have hsub := (x.after_tags s).sublist.map Prod.fst
      rwa [List.map_map, List.map_map] at hsub
    have hnd := h.nodup
    rw [orders, List.map_append] at hnd ⊢
    exact hnd.sublist ((hids .buy).append (hids .sell))
  positive s := by
    rcases Side.eq_or_eq_opposite x.taker.side s with rfl | rfl
    · rw [x.after_queue_near]
      exact h.positive _
    · rw [x.after_queue_far]
      exact sweep_qty (h.positive _)
  uncrossed u hu v hv := by
    obtain ⟨u', hu', htu⟩ := Submission.mem_after hu
    obtain ⟨v', hv', htv⟩ := Submission.mem_after hv
    simp only [tag, Prod.mk.injEq] at htu htv
    rw [← htu.2.1, ← htv.2.1]
    exact h.uncrossed u' hu' v' hv'

theorem InOrder.after (h : x.book.InOrder stamp) : x.after.InOrder stamp :=
  fun s => (h s).of_suffix (x.after_tags s)

/-- **A halted taker** stands in front of an order of its own owner. -/
theorem Submission.halted (x : Submission) (h : x.walk.2.rep.stpHalted = true) :
    x.taker.policy = .cancelIncoming
      ∧ ∃ o ∈ (x.after.queue x.taker.side.opposite).head?, x.taker.selfTrade o = true := by
  rw [x.after_queue_far]
  have hrun := @sweep_induction x.taker (x.book.queue x.taker.side.opposite)
    { left := x.qty, nextSeq := x.book.nextSeq }
    (fun far p => p.rep.stpHalted = true →
      x.taker.policy = .cancelIncoming ∧ ∃ o ∈ far.head?, x.taker.selfTrade o = true)
    (fun hfalse => by simp at hfalse) fun far₁ s₁ far₂ s₂ _ hturn => by
      obtain ⟨o, rest, rfl, -, hgoes, -, ht⟩ := turn_cases hturn
      -- only the halting turn sets the flag
      have hkeep : ∀ {P : Prop}, s₁.rep.stpHalted = true → P := fun htrue => by
        rw [hgoes] at htrue
        simp at htrue
      cases ht with
      | halt hp hself => exact fun _ => ⟨hp, o, by simp, hself⟩
      | cancel _ _ => exact hkeep
      | fill _ _ => exact hkeep
      | partFill _ _ => exact hkeep
  exact hrun.1 h

/-- An order at no better price than one that fails a limit fails it too. -/
theorem not_crosses_of_not_better {k : Taker} {z : RestingOrder} (hz : k.crosses z = false)
    (hnb : ¬ better k.side.opposite.isBid o.price z.price) : k.crosses o = false := by
  rw [better_iff] at hnb
  unfold Taker.crosses Lob.crosses at hz ⊢
  cases hlim : k.limit with
  | none => simp [hlim] at hz
  | some limit =>
    cases hs : k.side with
    | buy =>
      simp only [hlim, hs, Side.opposite, Side.isBid, if_true, decide_eq_false_iff_not,
        UInt64.le_iff_toNat_le, Bool.false_eq_true, if_false] at hz hnb ⊢
      omega
    | sell =>
      simp only [hlim, hs, Side.opposite, Side.isBid, if_true, decide_eq_false_iff_not,
        UInt64.le_iff_toNat_le, reduceCtorEq, if_false] at hz hnb ⊢
      omega

/-- **Where the walk stopped**: nothing wanted, halted, or every far order fails the limit. -/
theorem Submission.stopped (x : Submission) (h : x.book.InOrder stamp) :
    x.walk.2.left = 0 ∨ x.walk.2.rep.stpHalted = true
      ∨ ∀ o ∈ x.after.queue x.taker.side.opposite, x.taker.crosses o = false := by
  have hstop : x.taker.turn x.walk.1 x.walk.2 = none :=
    (sweep_induction (P := fun _ _ => True) trivial fun _ _ _ _ _ _ => trivial).2
  rcases turn_eq_none.mp hstop with h0 | h0 | h0
  · exact Or.inl h0
  · exact Or.inr (Or.inl h0)
  · refine Or.inr (Or.inr fun o ho => ?_)
    have hserved := h.after x.taker.side.opposite
    rw [x.after_queue_far] at ho hserved
    cases hfar : x.walk.1 with
    | nil => rw [hfar] at ho; simp at ho
    | cons z zs =>
      rw [hfar] at ho hserved h0
      have hz : x.taker.crosses z = false := h0 z (by simp)
      rcases List.mem_cons.mp ho with rfl | ho
      · exact hz
      · -- an order behind one that fails the limit fails it too
        exact not_crosses_of_not_better hz (hserved.head o ho).not_better

/-! ### Resting the leftover -/

theorem queue_rest_self (b : PriorityBook) (s : Side) (o : RestingOrder) :
    (b.rest s o).queue s = enqueue s.isBid o (b.queue s) := Function.update_self ..

theorem queue_rest_opposite (b : PriorityBook) (s : Side) (o : RestingOrder) :
    (b.rest s o).queue s.opposite = b.queue s.opposite :=
  Function.update_of_ne s.opposite_ne _ _

theorem mem_rest {u : RestingOrder} {t : Side} (h : u ∈ (b.rest s o).queue t) :
    u ∈ b.queue t ∨ (u = o ∧ t = s) := by
  rcases Side.eq_or_eq_opposite s t with rfl | rfl
  · rw [queue_rest_self] at h
    rcases mem_enqueue.mp h with rfl | h
    · exact Or.inr ⟨rfl, rfl⟩
    · exact Or.inl h
  · rw [queue_rest_opposite] at h
    exact Or.inl h

theorem orders_rest_perm (b : PriorityBook) (s : Side) (o : RestingOrder) :
    (b.rest s o).orders.Perm (o :: b.orders) := by
  refine ((b.rest s o).orders_perm s).trans ?_
  rw [queue_rest_self, queue_rest_opposite]
  exact (enqueue_perm.append_right _).trans ((b.orders_perm s).symm.cons o)

/-- **Resting an order that does not cross** keeps a book sound. -/
theorem Sound.rest (h : b.Sound) (hdead : b.live o.id = false) (hqty : 0 < o.qty)
    (hcross : ∀ y ∈ b.queue s.opposite, Lob.crosses s (some o.price) y.price = false) :
    (b.rest s o).Sound where
  nodup := by
    rw [((b.orders_rest_perm s o).map _).nodup_iff, List.map_cons, List.nodup_cons]
    refine ⟨fun hmem => ?_, h.nodup⟩
    obtain ⟨u, hu, hid⟩ := List.mem_map.mp hmem
    obtain ⟨t, hu⟩ := mem_orders.mp hu
    exact not_live_iff.mp hdead t u hu hid
  positive t u hu := by
    rcases mem_rest hu with hu | ⟨rfl, -⟩
    · exact h.positive t u hu
    · exact hqty
  uncrossed u hu v hv := by
    rcases mem_rest hu with hu | ⟨rfl, rfl⟩ <;> rcases mem_rest hv with hv | ⟨rfl, hs⟩
    · exact h.uncrossed u hu v hv
    · subst hs
      have hno := hcross u hu
      simp only [Lob.crosses, reduceCtorEq, if_false, decide_eq_false_iff_not,
        UInt64.le_iff_toNat_le] at hno
      rw [UInt64.lt_iff_toNat_lt]
      omega
    · have hno := hcross v hv
      simp only [Lob.crosses, if_true, decide_eq_false_iff_not, UInt64.le_iff_toNat_le] at hno
      rw [UInt64.lt_iff_toNat_lt]
      omega
    · simp at hs

theorem InOrder.rest (h : b.InOrder stamp) (hlast : ∀ u ∈ b.queue s, stamp u.id < stamp o.id) :
    (b.rest s o).InOrder stamp := by
  intro t
  rcases Side.eq_or_eq_opposite s t with rfl | rfl
  · rw [queue_rest_self]
    exact (h t).enqueue hlast
  · rw [queue_rest_opposite]
    exact h _

/-! ### Whole calls -/

/-- What a submission that rests has left behind it. -/
theorem Submission.rests_iff (x : Submission) :
    x.rests = true ↔ x.restLeftover = true ∧ 0 < x.walk.2.left ∧ x.walk.2.rep.stpHalted = false := by
  simp [Submission.rests, and_assoc]

theorem Sound.execute (h : x.book.Sound) (hord : x.book.InOrder stamp) (hfresh : x.Fresh policy b c) :
    x.execute.2.2.Sound := by
  rw [x.execute_eq]
  show (if x.rests = true then _ else _ : PriorityBook).Sound
  by_cases hrests : x.rests = true
  · rw [if_pos hrests]
    obtain ⟨hmay, hleft, hhalt⟩ := x.rests_iff.mp hrests
    refine h.after.rest (x.after_not_live hfresh.live) hleft fun y hy => ?_
    obtain ⟨limit, hlimit⟩ := Option.isSome_iff_exists.mp (hfresh.rests ▸ hmay)
    rcases x.stopped hord with h0 | h0 | h0
    · rw [h0] at hleft
      exact absurd hleft (by decide)
    · rw [h0] at hhalt
      simp at hhalt
    · have hno := h0 y hy
      rw [Taker.crosses, hlimit] at hno
      show Lob.crosses x.taker.side (some (x.taker.limit.getD 0)) y.price = false
      rw [hlimit]
      exact hno
  · rw [if_neg hrests]
    exact h.after

/-- **A call keeps a book sound.** -/
theorem Sound.perform (h : b.Sound) (hord : b.InOrder stamp) (policy : SelfTradePolicy) (c : Call) :
    (b.perform policy c).2.2.Sound := by
  have hans := answered policy b c
  generalize b.perform policy c = r at hans ⊢
  cases hans with
  | submitted c x hx =>
    have hfresh := submission_fresh hx
    rcases hfresh.book with hbook | hbook
    · exact Sound.execute (hbook ▸ h) (hbook ▸ hord) hfresh
    · exact Sound.execute (hbook ▸ h.remove _) (hbook ▸ hord.remove _) hfresh
  | rejected c qty hx hpop hc hlive => exact h
  | cancelled id => exact h.remove id
  | emptied id p hlive => exact h.remove id
  | popped => exact h

/-- The id a call puts on the book, if it does. -/
def restedId (policy : SelfTradePolicy) (b : PriorityBook) (c : Call) : Option OrderId :=
  (b.submission policy c).bind fun x => if x.rests then some x.taker.id else none

/-- **A call keeps a book in order**, when what it rests is stamped after everything else. -/
theorem InOrder.perform (h : b.InOrder stamp) (policy : SelfTradePolicy) (c : Call)
    (hkeep : ∀ s, ∀ o ∈ b.queue s, b.restedId policy c ≠ some o.id → stamp' o.id = stamp o.id)
    (hlast : ∀ s, ∀ o ∈ b.queue s, ∀ id, b.restedId policy c = some id → id ≠ o.id →
      stamp o.id < stamp' id) :
    (b.perform policy c).2.2.InOrder stamp' := by
  have hans := answered policy b c
  -- the orders that stay keep their stamps
  have hcongr : ∀ b' : PriorityBook, b'.InOrder stamp →
      (∀ s, ∀ o ∈ b'.queue s, ∃ o' ∈ b.queue s, o'.id = o.id) →
      (∀ s, ∀ o ∈ b'.queue s, b.restedId policy c ≠ some o.id) → b'.InOrder stamp' := by
    intro b' hb' hold hne s
    refine (hb' s).congr fun o ho => ?_
    obtain ⟨o', ho', hid⟩ := hold s o ho
    rw [← hid]
    exact hkeep s o' ho' (hid ▸ hne s o ho)
  generalize b.perform policy c = r at hans ⊢
  cases hans with
  | submitted c x hx =>
    have hfresh := submission_fresh hx
    have hsub : ∀ s, ∀ o ∈ x.book.queue s, o ∈ b.queue s := by
      intro s o ho
      rcases hfresh.book with hbook | hbook
      · exact hbook ▸ ho
      · rw [hbook] at ho
        exact (mem_remove.mp ho).1
    have hbook : x.book.InOrder stamp := by
      rcases hfresh.book with hb | hb
      · exact hb ▸ h
      · exact hb ▸ h.remove _
    have hold : ∀ s, ∀ o ∈ x.after.queue s, ∃ o' ∈ b.queue s, o'.id = o.id := by
      intro s o ho
      obtain ⟨o', ho', htag⟩ := Submission.mem_after ho
      exact ⟨o', hsub s o' ho', (Prod.mk.inj htag).1⟩
    have hrested : b.restedId policy c = if x.rests then some x.taker.id else none := by
      rw [restedId, hx]
      rfl
    have hdead := x.after_not_live hfresh.live
    have hafter : x.after.InOrder stamp' := by
      refine hcongr _ hbook.after hold fun s o ho => ?_
      rw [hrested]
      split
      · exact fun heq => not_live_iff.mp hdead s o ho (Option.some.inj heq).symm
      · simp
    rw [x.execute_eq]
    show (if x.rests = true then _ else _ : PriorityBook).InOrder stamp'
    by_cases hr : x.rests = true
    · rw [if_pos hr]
      rw [hr, if_pos rfl] at hrested
      refine hafter.rest fun u hu => ?_
      have hne : x.taker.id ≠ u.id := fun heq => not_live_iff.mp hdead _ u hu heq.symm
      obtain ⟨u', hu', hid⟩ := hold _ u hu
      have hkept : stamp' u.id = stamp u.id := by
        rw [← hid]
        exact hkeep _ u' hu' (by rw [hrested, hid]; exact fun heq => hne (Option.some.inj heq))
      rw [hkept, ← hid]
      exact hlast _ u' hu' x.taker.id hrested (hid ▸ hne)
    · rw [if_neg hr]
      exact hafter
  | rejected c qty hx hpop hc hlive =>
    refine hcongr _ h (fun s o ho => ⟨o, ho, rfl⟩) fun s o ho => ?_
    rw [restedId, hx]
    simp
  | cancelled id =>
    refine hcongr _ (h.remove id) (fun s o ho => ⟨o, (mem_remove.mp ho).1, rfl⟩) fun s o ho => ?_
    simp [restedId, submission]
  | emptied id p hlive =>
    refine hcongr _ (h.remove id) (fun s o ho => ⟨o, (mem_remove.mp ho).1, rfl⟩) fun s o ho => ?_
    have hnone : b.submission policy (.modify id p 0) = none := by
      unfold submission
      simp only [if_true]
      split <;> rfl
    rw [restedId, hnone]
    simp
  | popped =>
    refine hcongr _ h (fun s o ho => ⟨o, ho, rfl⟩) fun s o ho => ?_
    simp [restedId, submission]

end Calls

end Lob.PriorityBook
