/-
# Lob.Untouched — an order cancelled untouched leaves no trace.

In the priority book the run without the order is the run with it, the order taken out: while a call
leaves the order as it is, making the call and taking the order out commute (`perform_remove`).  That
is a fact about queues in price order, since a walk that stops at the order would stop behind it.  The
two runs of the engine follow the two runs of the priority book, so their answers agree, whatever
slots, tables and windows the order had moved.
-/
import Lob.SelfTrade

namespace Lob

/-- The id a call names. -/
def Call.named : Call → Option OrderId
  | addLimit id _ _ _ _ => some id
  | addMarket id _ _ _ => some id
  | cancel id => some id
  | modify id _ _ => some id
  | pop => none

namespace PriorityBook

/-! ## Walks and queues without one order -/

section Without

variable {isBid : Bool} {k : Taker} {o u : RestingOrder} {os far : List RestingOrder} {p : Progress}
  {f : RestingOrder → Bool}

/-- In price order, enqueuing commutes with taking others out. -/
theorem enqueue_filter (hsorted : os.Pairwise fun x y => ¬ better isBid y.price x.price)
    (hf : f o = true) : enqueue isBid o (os.filter f) = (enqueue isBid o os).filter f := by
  induction os with
  | nil => simp [enqueue, hf]
  | cons x xs ih =>
    obtain ⟨hx, hxs⟩ := List.pairwise_cons.mp hsorted
    rw [enqueue]
    by_cases hb : better isBid o.price x.price
    · rw [if_pos hb, List.filter_cons_of_pos hf]
      cases hfx : f x with
      | true => rw [List.filter_cons_of_pos hfx, enqueue, if_pos hb]
      | false =>
        -- what `o` beats it also beats behind it
        rw [List.filter_cons_of_neg (by simp [hfx])]
        show enqueue isBid o ([] ++ xs.filter f) = [] ++ o :: xs.filter f
        refine enqueue_split (by simp) fun y hy => ?_
        have hnb := hx y (List.mem_filter.mp hy).1
        rcases trichotomous_of (better isBid) x.price y.price with h | h | h
        · exact trans_of (better isBid) hb h
        · exact h ▸ hb
        · exact absurd h hnb
    · rw [if_neg hb]
      cases hfx : f x with
      | true =>
        rw [List.filter_cons_of_pos hfx, List.filter_cons_of_pos hfx, enqueue, if_neg hb, ih hxs]
      | false =>
        rw [List.filter_cons_of_neg (by simp [hfx]), List.filter_cons_of_neg (by simp [hfx]), ih hxs]

/-- Taking out what was just enqueued. -/
theorem filter_enqueue_self (ho : f o = false) (hos : ∀ x ∈ os, f x = true) :
    (enqueue isBid o os).filter f = os := by
  induction os with
  | nil => simp [enqueue, ho]
  | cons x xs ih =>
    have hxs := ih fun y hy => hos y (List.mem_cons_of_mem _ hy)
    have hx := hos x List.mem_cons_self
    rw [enqueue]
    split
    · rw [List.filter_cons_of_neg (by simp [ho])]
      exact List.filter_eq_self.mpr hos
    · rw [List.filter_cons_of_pos hx, hxs]

/-- A walk over orders none of which satisfies the limit. -/
theorem sweep_of_not_crosses (h : ∀ o ∈ far, k.crosses o = false) : k.sweep far p = (far, p) :=
  sweep_of_none (turn_eq_none.mpr (Or.inr (Or.inr fun o ho => h o (List.mem_of_mem_head? ho))))

/-- **A walk that leaves an order as it was** does the same without it. -/
theorem sweep_without (hsorted : far.Pairwise fun x y => ¬ better k.side.opposite.isBid y.price x.price)
    (hnd : (far.map RestingOrder.id).Nodup) (hu : u ∈ far) (hleft : u ∈ (k.sweep far p).1)
    (hno : ¬ (k.policy = .cancelIncoming ∧ k.selfTrade u = true)) :
    k.sweep (far.filter fun x => x.id ≠ u.id) p
      = ((k.sweep far p).1.filter fun x => x.id ≠ u.id, (k.sweep far p).2) := by
  induction far generalizing p with
  | nil => simp at hu
  | cons o rest ih =>
    obtain ⟨hfirst, hrest⟩ := List.pairwise_cons.mp hsorted
    rw [List.map_cons, List.nodup_cons] at hnd
    by_cases hid : o.id = u.id
    · -- the walk is at the order itself, so it is over
      have hbehind : ∀ x ∈ rest, x.id ≠ u.id := fun x hx heq =>
        hnd.1 (hid.trans heq.symm ▸ List.mem_map_of_mem hx)
      have hou : u = o := by
        rcases List.mem_cons.mp hu with rfl | hu
        · rfl
        · exact absurd rfl (hbehind u hu)
      subst hou
      have hgone : ∀ p', u ∉ (k.sweep rest p').1 := fun p' hmem => by
        obtain ⟨u', hu', htag⟩ := sweep_mem hmem
        exact hbehind u' hu' (Prod.mk.inj htag).1
      have hfilter : (u :: rest).filter (fun x => x.id ≠ u.id) = rest := by
        rw [List.filter_cons_of_neg (by simp)]
        exact List.filter_eq_self.mpr fun x hx => decide_eq_true (hbehind x hx)
      cases hnext : k.turn (u :: rest) p with
      | none =>
        rw [sweep_of_none hnext, hfilter]
        rcases turn_eq_none.mp hnext with h0 | h0 | h0
        · exact sweep_of_left h0
        · exact sweep_of_halted h0
        · exact sweep_of_not_crosses fun x hx =>
            not_crosses_of_not_better (h0 u (by simp)) (hfirst x hx)
      | some next =>
        -- a turn would have taken some of it
        exfalso
        obtain ⟨far', p'⟩ := next
        rw [sweep_turn hnext] at hleft
        obtain ⟨o', rest', heq, hwant, -, -, ht⟩ := turn_cases hnext
        obtain ⟨rfl, rfl⟩ := List.cons.inj heq
        cases ht with
        | halt hpolicy hself => exact hno ⟨hpolicy, hself⟩
        | cancel _ _ => exact hgone _ hleft
        | fill _ _ => exact hgone _ hleft
        | partFill _ hlt =>
          rw [UInt32.lt_iff_toNat_lt] at hlt
          have hpos : 0 < p.left.toNat := Nat.pos_of_ne_zero fun h0 => hwant (UInt32.toNat_inj.mp h0)
          have hdone : (k.filled u p).left = 0 := by
            rw [← UInt32.toNat_inj, k.filled_left, UInt32.toNat_zero]
            omega
          rw [sweep_of_left hdone] at hleft
          rcases List.mem_cons.mp hleft with heq | hmem
          · have hqty := congrArg (fun x : RestingOrder => x.qty.toNat) heq
            simp only [Taker.rest_qty] at hqty
            omega
          · exact hbehind u hmem rfl
    · -- an order before it: both walks take one turn, and the rest is by induction
      have hu' : u ∈ rest := (List.mem_cons.mp hu).resolve_left fun heq => hid (heq ▸ rfl)
      have hpos : ∀ (x : RestingOrder) (xs : List RestingOrder), x.id = o.id →
          (x :: xs).filter (fun x => x.id ≠ u.id) = x :: xs.filter (fun x => x.id ≠ u.id) :=
        fun x xs hx => List.filter_cons_of_pos (by simpa [hx] using hid)
      rw [hpos o rest rfl, Taker.sweep, Taker.sweep]
      rw [Taker.sweep] at hleft
      split
      · rw [hpos o rest rfl]
      · rename_i hgo
        rw [if_neg hgo] at hleft
        split
        · rename_i hself
          rw [if_pos hself] at hleft
          split
          · rw [hpos o rest rfl]
          · rename_i hpolicy
            rw [if_neg hpolicy] at hleft
            exact ih hrest hnd.2 hu' hleft
        · rename_i hself
          rw [if_neg hself] at hleft
          split
          · rename_i hz
            rw [if_pos hz] at hleft
            exact ih hrest hnd.2 hu' hleft
          · rw [hpos (Taker.rest o p) rest rfl]

end Without

/-! ## Calls without one order -/

section Calls

variable {a : PriorityBook} {policy : SelfTradePolicy} {c : Call} {s : Side} {u : RestingOrder}
  {id id' : OrderId} {x : Submission} {stamp : OrderId → Nat}

theorem live_remove_of_ne (hne : id' ≠ id) : (a.remove id).live id' = a.live id' := by
  rw [Bool.eq_iff_iff, live_iff, live_iff]
  constructor
  · rintro ⟨s, o, ho, rfl⟩
    exact ⟨s, o, (mem_remove.mp ho).1, rfl⟩
  · rintro ⟨s, o, ho, rfl⟩
    exact ⟨s, o, mem_remove.mpr ⟨ho, hne⟩, rfl⟩

theorem remove_comm (a : PriorityBook) (id id' : OrderId) :
    (a.remove id).remove id' = (a.remove id').remove id := by
  have hqueue : ((a.remove id).remove id').queue = ((a.remove id').remove id).queue := by
    funext s
    simp only [remove, List.filter_filter]
    exact List.filter_congr fun o _ => Bool.and_comm _ _
  show ({ a with queue := ((a.remove id).remove id').queue } : PriorityBook) = _
  rw [hqueue]
  rfl

theorem find_remove_of_ne (hne : id' ≠ id) : (a.remove id).find id' = a.find id' := by
  have hside : ∀ s, ((a.remove id).queue s).find? (fun o => o.id == id')
      = (a.queue s).find? fun o => o.id == id' := by
    intro s
    simp only [remove, List.find?_filter]
    congr 1
    funext o
    by_cases heq : o.id = id'
    · simp [heq, hne]
    · simp [heq]
  simp only [find, hside]

/-- The queues a walk reads are in price order. -/
theorem InOrder.sorted (h : a.InOrder stamp) (s : Side) :
    (a.queue s).Pairwise fun x y => ¬ better s.isBid y.price x.price :=
  (h s).imp fun hxy => hxy.not_better

theorem Sound.nodup_queue (h : a.Sound) (s : Side) : ((a.queue s).map RestingOrder.id).Nodup := by
  have hnd := ((orders_perm a s).map RestingOrder.id).nodup_iff.mp h.nodup
  rw [List.map_append] at hnd
  exact (List.nodup_append.mp hnd).1

/-- Resting an order commutes with taking another one out. -/
theorem rest_remove {o : RestingOrder} (hord : a.InOrder stamp) (hne : o.id ≠ id) :
    (a.rest s o).remove id = (a.remove id).rest s o := by
  have hqueue : ((a.rest s o).remove id).queue = ((a.remove id).rest s o).queue := by
    funext t
    rcases Side.eq_or_eq_opposite s t with rfl | rfl
    · rw [queue_rest_self]
      show ((a.rest t o).queue t).filter _ = enqueue _ _ ((a.queue t).filter _)
      rw [queue_rest_self]
      exact (enqueue_filter (hord.sorted t) (decide_eq_true hne)).symm
    · rw [queue_rest_opposite]
      show ((a.rest s o).queue s.opposite).filter _ = (a.queue s.opposite).filter _
      rw [queue_rest_opposite]
  show ({ a with queue := ((a.rest s o).remove id).queue } : PriorityBook) = _
  rw [hqueue]
  rfl

/-- **A submission that leaves an order as it was** does the same without it. -/
theorem Submission.without (hsound : x.book.Sound) (hord : x.book.InOrder stamp)
    (hu : u ∈ x.book.queue s) (hleft : u ∈ x.execute.2.2.queue s) (hne : x.taker.id ≠ u.id)
    (hno : ¬ (x.taker.policy = .cancelIncoming ∧ x.taker.selfTrade u = true)) :
    ({ x with book := x.book.remove u.id } : Submission).execute
      = (x.execute.1, x.execute.2.1, x.execute.2.2.remove u.id) := by
  let y : Submission := { x with book := x.book.remove u.id }
  have hqueue : x.execute.2.2.queue x.taker.side.opposite = x.walk.1 := by
    rw [x.execute_eq]
    show (if x.rests = true then _ else _ : PriorityBook).queue _ = _
    split
    · rw [queue_rest_opposite, x.after_queue_far]
    · exact x.after_queue_far
  have hwalk : y.walk = (x.walk.1.filter fun o => o.id ≠ u.id, x.walk.2) := by
    rcases Side.eq_or_eq_opposite x.taker.side s with rfl | rfl
    · -- the order is on the near side, and the far side is the same without it
      have hfar : ∀ o ∈ x.book.queue x.taker.side.opposite, o.id ≠ u.id := fun o ho =>
        OrderBook.ids_apart hsound hu ho
      have hwalked : ∀ o ∈ x.walk.1, decide (o.id ≠ u.id) = true := by
        intro o ho
        obtain ⟨o', ho', htag⟩ := sweep_mem ho
        rw [← (Prod.mk.inj htag).1]
        exact decide_eq_true (hfar o' ho')
      have hsame : (x.book.remove u.id).queue x.taker.side.opposite
          = x.book.queue x.taker.side.opposite :=
        List.filter_eq_self.mpr fun o ho => decide_eq_true (hfar o ho)
      rw [List.filter_eq_self.mpr hwalked]
      show x.taker.sweep ((x.book.remove u.id).queue x.taker.side.opposite) _ = _
      rw [hsame]
      rfl
    · -- the order is in the queue that is walked
      rw [hqueue] at hleft
      exact sweep_without (hord.sorted _) (hsound.nodup_queue _) hu hleft hno
  have hafter : y.after = x.after.remove u.id := by
    have hq : y.after.queue = (x.after.remove u.id).queue := by
      funext t
      rcases Side.eq_or_eq_opposite x.taker.side t with rfl | rfl
      · show y.after.queue y.taker.side = (x.after.queue x.taker.side).filter _
        rw [y.after_queue_near, x.after_queue_near]
        rfl
      · show y.after.queue y.taker.side.opposite = (x.after.queue x.taker.side.opposite).filter _
        rw [y.after_queue_far, x.after_queue_far, hwalk]
    have hseq : y.after.nextSeq = x.after.nextSeq := by
      show y.walk.2.nextSeq = x.walk.2.nextSeq
      rw [hwalk]
    show (⟨y.after.queue, y.after.nextSeq⟩ : PriorityBook) = ⟨_, _⟩
    rw [hq, hseq]
    rfl
  have hrests : y.rests = x.rests := by
    unfold Submission.rests
    rw [hwalk]
  have hleftover : y.leftover = x.leftover := by
    unfold Submission.leftover
    rw [hwalk]
  show y.execute = _
  rw [y.execute_eq, x.execute_eq, hrests, hleftover, hwalk, hafter]
  split
  · rw [rest_remove hord.after (show x.leftover.id ≠ u.id from hne)]
  · rfl

/-- **A call that does not name an order and leaves it as it was** does the same without it. -/
theorem perform_remove (hsound : a.Sound) (hord : a.InOrder stamp) (hu : u ∈ a.queue s)
    (hleft : u ∈ (a.perform policy c).2.2.queue s) (hnamed : c.named ≠ some u.id)
    (hno : policy ≠ .cancelIncoming ∨ u.owner = kAnonymous) :
    (a.remove u.id).perform policy c
      = ((a.perform policy c).1, (a.perform policy c).2.1, (a.perform policy c).2.2.remove u.id) := by
  have halts : ∀ k : Taker, k.policy = policy →
      ¬ (k.policy = .cancelIncoming ∧ k.selfTrade u = true) := by
    rintro k rfl ⟨hpolicy, hself⟩
    obtain ⟨-, hanon, heq⟩ := OrderBook.prevents_iff.mp hself
    exact hno.elim (fun h => h hpolicy) fun h => hanon (heq ▸ h)
  -- adds and modifies are submissions, and a modify submits to the book without its own order
  have submit : ∀ (a : PriorityBook) (k : Taker) (qty : Quantity) (restLeftover : Bool), a.Sound →
      a.InOrder stamp → u ∈ a.queue s → k.id ≠ u.id → k.policy = policy →
      u ∈ (a.submit k qty restLeftover).2.2.queue s →
      (a.remove u.id).submit k qty restLeftover = ((a.submit k qty restLeftover).1,
        (a.submit k qty restLeftover).2.1, (a.submit k qty restLeftover).2.2.remove u.id) := by
    intro a k qty restLeftover hsound hord hu hne hpolicy hleft
    unfold PriorityBook.submit at hleft ⊢
    rw [live_remove_of_ne hne]
    split
    · rfl
    · rename_i hgo
      rw [if_neg hgo] at hleft
      exact Submission.without (x := ⟨a, k, qty, restLeftover⟩) hsound hord hu hleft hne
        (halts k hpolicy)
  cases c with
  | addLimit id owner side price qty =>
    have hne : id ≠ u.id := fun heq => hnamed (congrArg some heq)
    have h := submit a ⟨policy, id, owner, side, some price⟩ qty true hsound hord hu hne rfl hleft
    simp only [perform, h]
  | addMarket id owner side qty =>
    have hne : id ≠ u.id := fun heq => hnamed (congrArg some heq)
    have h := submit a ⟨policy, id, owner, side, none⟩ qty false hsound hord hu hne rfl hleft
    simp only [perform, h]
  | cancel id =>
    have hne : id ≠ u.id := fun heq => hnamed (congrArg some heq)
    simp only [perform, live_remove_of_ne hne, remove_comm a u.id id]
  | modify id newPrice newQty =>
    have hne : id ≠ u.id := fun heq => hnamed (congrArg some heq)
    unfold perform at hleft ⊢
    simp only [find_remove_of_ne hne] at hleft ⊢
    cases hfind : a.find id with
    | none => rfl
    | some o =>
      simp only [hfind] at hleft ⊢
      by_cases hzero : newQty = 0
      · simp only [if_pos hzero, remove_comm a u.id id]
      · simp only [if_neg hzero] at hleft ⊢
        have hu' : u ∈ (a.remove id).queue s := mem_remove.mpr ⟨hu, Ne.symm hne⟩
        have h := submit (a.remove id) ⟨policy, id, o.owner, o.side, some newPrice⟩ newQty true
          (hsound.remove id) (hord.remove id) hu' hne rfl hleft
        simp only [remove_comm a u.id id, h]
  | pop => rfl

/-- A call that does not name an id adds nothing under it. -/
theorem queuedBy_perform_le (hnamed : c.named ≠ some id) :
    queuedBy id (a.perform policy c).2.2.orders ≤ queuedBy id a.orders := by
  have hremove : ∀ id', queuedBy id (a.remove id').orders ≤ queuedBy id a.orders := by
    intro id'
    rw [queuedBy_remove]
    split
    · exact Nat.zero_le _
    · exact Nat.le_refl _
  have hans := answered policy a c
  generalize a.perform policy c = r at hans
  cases hans with
  | submitted c x hx =>
    have hne : x.taker.id ≠ id := by
      rintro rfl
      cases submits hx <;> exact hnamed rfl
    have hflow := Submission.flow hne
    have hbook : queuedBy id x.book.orders ≤ queuedBy id a.orders := by
      rcases (submission_fresh hx).book with hbook | hbook
      · rw [hbook]
      · rw [hbook]
        exact hremove _
    show queuedBy id x.execute.2.2.orders ≤ _
    omega
  | rejected c qty hx hpop hc hlive => exact Nat.le_refl _
  | cancelled id' => exact hremove id'
  | emptied id' p hlive => exact hremove id'
  | popped => exact Nat.le_refl _

/-- What rests after a call under an id it does not name rested before. -/
theorem mem_perform {o : RestingOrder} (ho : o ∈ (a.perform policy c).2.2.queue s)
    (hnamed : c.named ≠ some o.id) : ∃ o' ∈ a.queue s, tag o' = tag o := by
  have hans := answered policy a c
  generalize a.perform policy c = r at hans ho
  cases hans with
  | submitted c x hx =>
    have hne : x.taker.id ≠ o.id := by
      intro heq
      cases submits hx <;> exact hnamed (congrArg some heq)
    have hafter : o ∈ x.after.queue s := by
      rw [x.execute_eq] at ho
      change o ∈ (if x.rests = true then _ else _ : PriorityBook).queue s at ho
      split at ho
      · exact (mem_rest ho).resolve_right fun h => hne (h.1 ▸ rfl)
      · exact ho
    obtain ⟨o', ho', htag⟩ := Submission.mem_after hafter
    refine ⟨o', ?_, htag⟩
    rcases (submission_fresh hx).book with hbook | hbook
    · exact hbook ▸ ho'
    · exact (mem_remove.mp (hbook ▸ ho')).1
  | rejected c qty hx hpop hc hlive => exact ⟨o, ho, rfl⟩
  | cancelled id' => exact ⟨o, (mem_remove.mp ho).1, rfl⟩
  | emptied id' p hlive => exact ⟨o, (mem_remove.mp ho).1, rfl⟩
  | popped => exact ⟨o, ho, rfl⟩

/-- An order a call does not name, and leaves its quantity, stays where it is. -/
theorem mem_perform_of_whole (hsound : a.Sound) (hsound' : (a.perform policy c).2.2.Sound)
    (hu : u ∈ a.queue s) (hnamed : c.named ≠ some u.id)
    (hwhole : u.qty.toNat ≤ queuedBy u.id (a.perform policy c).2.2.orders) :
    u ∈ (a.perform policy c).2.2.queue s := by
  have hqty := queuedBy_of_mem hsound.nodup (mem_orders.mpr ⟨s, hu⟩)
  have hle : queuedBy u.id (a.perform policy c).2.2.orders ≤ queuedBy u.id a.orders :=
    queuedBy_perform_le hnamed
  have hpos := UInt32.lt_iff_toNat_lt.mp (hsound.positive s u hu)
  rw [UInt32.toNat_zero] at hpos
  obtain ⟨v, hv, hid⟩ : ∃ v ∈ (a.perform policy c).2.2.orders, v.id = u.id := by
    by_contra hno
    push Not at hno
    rw [queuedBy_eq_zero hno] at hwhole
    omega
  have hvqty := queuedBy_of_mem hsound'.nodup hv
  obtain ⟨t, hv⟩ := mem_orders.mp hv
  obtain ⟨o, ho, htag⟩ := mem_perform hv (hid ▸ hnamed)
  simp only [tag, Prod.mk.injEq] at htag
  have hou : o = u := List.inj_on_of_nodup_map hsound.nodup (mem_orders.mpr ⟨t, ho⟩)
    (mem_orders.mpr ⟨s, hu⟩) (htag.1.trans hid)
  subst hou
  rw [hid] at hvqty
  have hq : v.qty = o.qty := UInt32.toNat_inj.mp (by omega)
  have hvu : v = o := by
    cases v
    cases o
    simp_all
  have hts : t = s := by
    rcases Side.eq_or_eq_opposite s t with rfl | rfl
    · rfl
    · exact absurd rfl (OrderBook.ids_apart hsound hu ho)
  rw [← hts, ← hvu]
  exact hv

/-- A walk without an act leaves the far side as it was. -/
theorem sweep_idle {k : Taker} {far : List RestingOrder} {p : Progress}
    (h : (k.sweep far p).2.acts = []) : (k.sweep far p).1 = far := by
  refine (sweep_induction (P := fun far' p' => p'.acts = [] → far' = far) (fun _ => rfl)
    fun far₁ p₁ far₂ p₂ hP hturn => ?_).1 h
  obtain ⟨o, rest, rfl, -, -, -, ht⟩ := turn_cases hturn
  cases ht with
  | halt _ _ => exact hP
  | cancel _ _ => simp [Taker.cancelled]
  | fill _ _ => simp [Taker.filled]
  | partFill _ _ => simp [Taker.filled]

theorem acts_eq_nil {acts : List Act} (hfills : fillsOf acts = []) (hremovals : removalsOf acts = []) :
    acts = [] := by
  cases acts with
  | nil => rfl
  | cons act acts =>
    cases act with
    | fill t =>
      have ht : t ∈ fillsOf (.fill t :: acts) := mem_fillsOf.mpr List.mem_cons_self
      simp [hfills] at ht
    | stpCancel o =>
      have ho : o ∈ removalsOf (.stpCancel o :: acts) := mem_removalsOf.mpr List.mem_cons_self
      simp [hremovals] at ho

/-- **An order that came to rest whole**, without a trade or a removal, is all that its call added. -/
theorem Submission.whole (hsound : x.book.Sound) (hlt : volume (x.book.queue x.taker.side.opposite) < 2 ^ 64)
    (hdead : x.book.live x.taker.id = false) (hrested : x.execute.1.rested = true)
    (hcount : x.execute.1.tradeCount = 0) (hstp : x.execute.1.stpCancelled = 0) :
    x.execute.2.2
        = x.book.rest x.taker.side ⟨x.taker.id, x.taker.limit.getD 0, x.qty, x.taker.owner⟩
      ∧ x.execute.2.2.remove x.taker.id = x.book := by
  have hpos := hsound.positive x.taker.side.opposite
  have htally : Tally x.taker x.qty x.book.nextSeq x.walk.2 :=
    sweep_tally hpos x.taker x.qty x.book.nextSeq
  have hvolume : volume x.walk.1 + traded (fillsOf x.walk.2.acts)
      + volume (removalsOf x.walk.2.acts) = volume (x.book.queue x.taker.side.opposite) :=
    sweep_volume x.taker _ { left := x.qty, nextSeq := x.book.nextSeq } rfl
  rw [OrderBook.execute_rested] at hrested
  rw [x.execute_eq] at hcount hstp
  change x.walk.2.rep.tradeCount = 0 at hcount
  change x.walk.2.rep.stpCancelled = 0 at hstp
  have hfills : fillsOf x.walk.2.acts = [] := by
    have hlen := congrArg UInt32.toNat (htally.count.symm.trans hcount)
    rw [UInt32.toNat_ofNat', Nat.mod_eq_of_lt htally.length_lt] at hlen
    exact List.length_eq_zero_iff.mp hlen
  have hremovals : removalsOf x.walk.2.acts = [] := by
    have hzero := congrArg UInt64.toNat (htally.removed.symm.trans hstp)
    rw [UInt64.toNat_ofNat', Nat.mod_eq_of_lt (by omega), UInt64.toNat_zero] at hzero
    by_contra hne
    obtain ⟨o, ho⟩ := List.exists_mem_of_ne_nil _ hne
    obtain ⟨front, back, hsplit⟩ := List.append_of_mem ho
    have hfar := ((sweep_met x.taker _ { left := x.qty, nextSeq := x.book.nextSeq } rfl).1.removals o ho).1
    have hqty := UInt32.lt_iff_toNat_lt.mp (hpos o hfar)
    rw [hsplit, volume_append, volume_cons] at hzero
    rw [UInt32.toNat_zero] at hqty
    omega
  have hacts := acts_eq_nil hfills hremovals
  have hfar : x.walk.1 = x.book.queue x.taker.side.opposite := sweep_idle hacts
  have hleft : x.walk.2.left = x.qty := by
    have hsum := htally.left
    rw [hfills, traded_nil] at hsum
    exact UInt32.toNat_inj.mp hsum
  have hafter : x.after = x.book := by
    have hseq : x.after.nextSeq = x.book.nextSeq := by
      have hnext := htally.nextSeq
      rw [hfills] at hnext
      exact hnext.trans (UInt64.add_zero _)
    have hqueue : x.after.queue = x.book.queue := by
      show Function.update x.book.queue x.taker.side.opposite x.walk.1 = _
      rw [hfar, Function.update_eq_self]
    show (⟨x.after.queue, x.after.nextSeq⟩ : PriorityBook) = _
    rw [hseq, hqueue]
  have hbook : x.execute.2.2
      = x.book.rest x.taker.side ⟨x.taker.id, x.taker.limit.getD 0, x.qty, x.taker.owner⟩ := by
    rw [x.execute_eq, hrested, if_pos rfl, hafter, Submission.leftover, hleft]
  refine ⟨hbook, ?_⟩
  have hdead' := not_live_iff.mp hdead
  have hqueue : (x.execute.2.2.remove x.taker.id).queue = x.book.queue := by
    funext t
    rw [hbook]
    rcases Side.eq_or_eq_opposite x.taker.side t with rfl | rfl
    · show ((x.book.rest _ _).queue _).filter _ = _
      rw [queue_rest_self]
      exact filter_enqueue_self (by simp) fun o ho => decide_eq_true (hdead' _ o ho)
    · show ((x.book.rest _ _).queue _).filter _ = _
      rw [queue_rest_opposite]
      exact List.filter_eq_self.mpr fun o ho => decide_eq_true (hdead' _ o ho)
  show (⟨(x.execute.2.2.remove x.taker.id).queue, x.execute.2.2.nextSeq⟩ : PriorityBook) = _
  rw [hqueue, hbook]
  rfl

end Calls

end PriorityBook

namespace OrderBook

/-! ## Two runs -/

/-- Two calls of two runs that a client cannot tell apart; what a pop of the trade ring hands out is
said by the trades pushed. -/
structure Same (r r' : Record) : Prop where
  call : r.call = r'.call
  reply : r.call ≠ .pop → r.reply = r'.reply
  trades : r.trades = r'.trades

section Runs

variable {b₀ b b' : OrderBook} {older older' mid mid' newer newer' : List Record} {r r' : Record}
  {Q₀ : Layout} {free₀ : List SlotIndex} {u : RestingOrder} {s : Side} {rx rc : Record} {id : OrderId}
  {owner : ParticipantId} {side : Side} {price : Price} {qty : Quantity}

/-- Calls that the priority book answers alike are the same. -/
theorem Recorded.same {policy : SelfTradePolicy} {a a' : PriorityBook} (h : Recorded policy a r)
    (h' : Recorded policy a' r') (hcall : r.call = r'.call)
    (hreply : (a.perform policy r.call).1 = (a'.perform policy r.call).1)
    (hacts : (a.perform policy r.call).2.1 = (a'.perform policy r.call).2.1) : Same r r' where
  call := hcall
  reply hpop := by rw [h.reply hpop, h'.reply (hcall ▸ hpop), ← hcall, hreply]
  trades := by
    have heq : r.acts = r'.acts := h.acts.trans (hacts.trans (hcall ▸ h'.acts.symm))
    rw [Record.trades, Record.trades, heq]

theorem replay_append (b₀ : OrderBook) (r : Record) (past : List Record) :
    replayOf b₀ (r :: past) = ((replayOf b₀ past).perform b₀.policy r.call).2.2 := rfl

/-- The same calls from equal books are the same. -/
theorem Run.same (h₀ : b₀.Follows {} Q₀ free₀) (h : Run b₀ (mid ++ older) b)
    (h' : Run b₀ (mid' ++ older') b') (hcalls : mid.map Record.call = mid'.map Record.call)
    (hbase : replayOf b₀ older = replayOf b₀ older') :
    List.Forall₂ Same mid mid' ∧ replayOf b₀ (mid ++ older) = replayOf b₀ (mid' ++ older') := by
  induction mid generalizing mid' b b' with
  | nil =>
    obtain rfl : mid' = [] := by simpa using hcalls.symm
    exact ⟨.nil, hbase⟩
  | cons r mid ih =>
    cases mid' with
    | nil => simp at hcalls
    | cons r' mid' =>
      obtain ⟨hcall, hrest⟩ := List.cons.inj hcalls
      obtain ⟨hsame, hreplay⟩ := ih h.cons_inv.2.1 h'.cons_inv.2.1 hrest
      have hrec := Run.recorded_head h₀ h
      have hrec' := Run.recorded_head h₀ h'
      refine ⟨.cons (hrec.same hrec' hcall ?_ ?_) hsame, ?_⟩
      · show _ = ((replayOf b₀ (mid' ++ older')).perform _ _).1
        rw [← hreplay]
        rfl
      · show _ = ((replayOf b₀ (mid' ++ older')).perform _ _).2.1
        rw [← hreplay]
        rfl
      · show ((replayOf b₀ (mid ++ older)).perform _ r.call).2.2
          = ((replayOf b₀ (mid' ++ older')).perform _ r'.call).2.2
        rw [hreplay, show r.call = r'.call from hcall]

/-- **The same calls without an order** that they neither name nor touch are the same. -/
theorem Run.without (h₀ : b₀.Follows {} Q₀ free₀) (h : Run b₀ (mid ++ older) b)
    (h' : Run b₀ (mid' ++ older') b') (hcalls : mid.map Record.call = mid'.map Record.call)
    (hbase : replayOf b₀ older' = (replayOf b₀ older).remove u.id)
    (hu : u ∈ (replayOf b₀ older).queue s) (hnamed : ∀ r ∈ mid, r.call.named ≠ some u.id)
    (hwhole : u.qty.toNat ≤ queuedBy u.id (replayOf b₀ (mid ++ older)).orders)
    (hno : b₀.policy ≠ .cancelIncoming ∨ u.owner = kAnonymous) :
    List.Forall₂ Same mid mid'
      ∧ replayOf b₀ (mid' ++ older') = (replayOf b₀ (mid ++ older)).remove u.id
      ∧ u ∈ (replayOf b₀ (mid ++ older)).queue s := by
  induction mid generalizing mid' b b' with
  | nil =>
    obtain rfl : mid' = [] := by simpa using hcalls.symm
    exact ⟨.nil, hbase, hu⟩
  | cons r mid ih =>
    cases mid' with
    | nil => simp at hcalls
    | cons r' mid' =>
      obtain ⟨hcall, hrest⟩ := List.cons.inj hcalls
      have hr : r.call.named ≠ some u.id := hnamed r List.mem_cons_self
      have hbefore : u.qty.toNat ≤ queuedBy u.id (replayOf b₀ (mid ++ older)).orders :=
        hwhole.trans (PriorityBook.queuedBy_perform_le hr)
      have hrun : Run b₀ (mid ++ older) r.before := h.cons_inv.2.1
      obtain ⟨hsame, hreplay, hmem⟩ := ih hrun h'.cons_inv.2.1 hrest
        (fun r hr => hnamed r (List.mem_cons_of_mem _ hr)) hbefore
      obtain ⟨hord, hsound⟩ := hrun.inOrder h₀
      have hafter := PriorityBook.mem_perform_of_whole hsound (h.inOrder h₀).2 hmem hr hwhole
      have hperform := PriorityBook.perform_remove hsound hord hmem hafter hr hno
      rw [← hreplay] at hperform
      refine ⟨.cons ((Run.recorded_head h₀ h).same (Run.recorded_head h₀ h') hcall ?_ ?_) hsame, ?_,
        hafter⟩
      · exact (congrArg Prod.fst hperform).symm
      · exact (congrArg (fun t => t.2.1) hperform).symm
      · show ((replayOf b₀ (mid' ++ older')).perform _ r'.call).2.2 = _
        rw [← show r.call = r'.call from hcall, hperform]
        rfl

/-- The order `id` came to rest whole in `rx`, was neither named nor touched by the calls `mid`, and
was cancelled by `rc`; self-trade prevention could not halt a taker at it. -/
structure Untouched (policy : SelfTradePolicy) (rx : Record) (mid : List Record) (rc : Record)
    (id : OrderId) (owner : ParticipantId) (side : Side) (price : Price) (qty : Quantity) : Prop where
  unhalting : policy ≠ .cancelIncoming ∨ owner = kAnonymous
  added : rx.call = .addLimit id owner side price qty
  report : ∃ rep, rx.reply = .report rep ∧ rep.accepted = true ∧ rep.rested = true
    ∧ rep.tradeCount = 0 ∧ rep.stpCancelled = 0
  unnamed : ∀ r ∈ mid, r.call.named ≠ some id
  whole : rc.before.restingQty id = some qty.toNat
  cancel : rc.call = .cancel id
  cancelled : rc.reply = .cancelled true

/-- What `rx` put on the book, and that taking it out undoes the call. -/
theorem Untouched.rested (h₀ : b₀.Follows {} Q₀ free₀) (h : Run b₀ (rx :: older) b)
    (hx : Untouched b₀.policy rx mid rc id owner side price qty) :
    ⟨id, price, qty, owner⟩ ∈ (replayOf b₀ (rx :: older)).queue side
      ∧ (replayOf b₀ (rx :: older)).remove id = replayOf b₀ older := by
  have hrec := Run.recorded_head h₀ h
  obtain ⟨Q, free, hbefore⟩ := hrec.before
  obtain ⟨rep, hrep, haccepted, hrested, hcount, hstp⟩ := hx.report
  obtain ⟨x, hsub, hid, hqty, hreply, -, hafter⟩ : ∃ x, (replayOf b₀ older).submission b₀.policy rx.call
      = some x ∧ x.taker.id = id ∧ x.qty = qty ∧ rx.reply = .report x.execute.1
      ∧ rx.acts = x.walk.2.acts
      ∧ ((replayOf b₀ older).perform b₀.policy rx.call).2.2 = x.execute.2.2 := by
    apply hrec.opened
    simp [Record.opened, hrep, hx.added, haccepted]
  rw [hrep] at hreply
  obtain rfl := Reply.report.inj hreply
  have hreplay : replayOf b₀ (rx :: older) = x.execute.2.2 := hafter
  have hsubmits := PriorityBook.submits hsub
  rw [hx.added] at hsubmits
  rw [hreplay]
  cases hsubmits with
  | addLimit hne hdead =>
    obtain ⟨hbook, hremove⟩ := PriorityBook.Submission.whole
      (x := ⟨replayOf b₀ older, ⟨b₀.policy, id, owner, side, some price⟩, qty, true⟩)
      (h.cons_inv.2.1.inOrder h₀).2 (hbefore.volume_lt _) hdead hrested hcount hstp
    refine ⟨?_, hremove⟩
    rw [hbook, PriorityBook.queue_rest_self]
    exact PriorityBook.mem_enqueue.mpr (Or.inl rfl)

/-- **An order cancelled untouched leaves no trace**: the run without it makes the same calls with the
same answers and the same trades, and ends with the same resting orders. -/
theorem untouched_leaves_no_trace {scrub : RestingOrder → RestingOrder} {cfg : Config}
    (hnew : OrderBook.new scrub cfg = some b₀)
    (hrun : Run b₀ (newer ++ rc :: (mid ++ rx :: older)) b)
    (hrun' : Run b₀ (newer' ++ (mid' ++ older')) b')
    (holder : older.map Record.call = older'.map Record.call)
    (hmid : mid.map Record.call = mid'.map Record.call)
    (hnewer : newer.map Record.call = newer'.map Record.call)
    (hx : Untouched cfg.selfTrade rx mid rc id owner side price qty) :
    List.Forall₂ Same older older' ∧ List.Forall₂ Same mid mid' ∧ List.Forall₂ Same newer newer'
      ∧ ∃ resting, b.forEachResting = some resting ∧ b'.forEachResting = some resting := by
  obtain ⟨h₀, hpolicy, -⟩ := new_follows hnew
  rw [← hpolicy] at hx
  obtain ⟨bc, hrunc⟩ := hrun.earlier
  have hrunm : Run b₀ (mid ++ rx :: older) rc.before := hrunc.cons_inv.2.1
  obtain ⟨bx, hrunx⟩ := hrunm.earlier
  have hruno : Run b₀ (older ++ []) rx.before := by
    rw [List.append_nil]
    exact hrunx.cons_inv.2.1
  obtain ⟨bm', hrunm'⟩ := hrun'.earlier
  obtain ⟨bo', hruno'⟩ := hrunm'.earlier
  rw [← List.append_nil older'] at hruno'
  -- before the order came, the runs are the same
  obtain ⟨hsameo, hreplayo⟩ := Run.same h₀ hruno hruno' holder rfl
  rw [List.append_nil, List.append_nil] at hreplayo
  -- while it rested untouched, the second run is the first without it
  obtain ⟨hmem, hundo⟩ := hx.rested h₀ hrunx
  obtain ⟨Q, free, hbefore⟩ := (Run.recorded_head h₀ hrunc).before
  have hwhole : qty.toNat ≤ queuedBy id (replayOf b₀ (mid ++ rx :: older)).orders := by
    have hrest := hx.whole
    rw [hbefore.restingQty (hrunm.inOrder h₀).2] at hrest
    split at hrest
    · simp at hrest
    · exact Nat.le_of_eq (Option.some.inj hrest).symm
  obtain ⟨hsamem, hreplaym, -⟩ := Run.without h₀ hrunm hrunm' hmid (hreplayo.symm.trans hundo.symm)
    hmem hx.unnamed hwhole hx.unhalting
  -- the cancel takes it out, and from there the runs are the same again
  have hreplayc : replayOf b₀ (rc :: (mid ++ rx :: older)) = replayOf b₀ (mid' ++ older') := by
    rw [hreplaym, replay_append, hx.cancel]
    rfl
  obtain ⟨hsamen, hreplayn⟩ := Run.same h₀ hrun hrun' hnewer hreplayc
  obtain ⟨⟨Qe, freee, hend⟩, -⟩ := hrun.follows h₀
  obtain ⟨⟨Qe', freee', hend'⟩, -⟩ := hrun'.follows h₀
  rw [← hreplayn] at hend'
  exact ⟨hsameo, hsamem, hsamen, _, hend.forEachResting, hend'.forEachResting⟩

end Runs

/-- A bid rests untouched while a better one trades past it. -/
theorem untouched_leaves_no_trace_behind_bid :
    ∃ b₀ n rc m rx o b n' m' o' b', OrderBook.new id {} = some b₀
      ∧ Run b₀ ([n] ++ rc :: ([m] ++ rx :: [o])) b ∧ Run b₀ ([n'] ++ ([m'] ++ [o'])) b'
      ∧ rx.call = .addLimit 1 7 .buy 100 5 ∧ rc.call = .cancel 1
      ∧ List.Forall₂ Same [n] [n'] ∧ ∃ resting, b.forEachResting = some resting
        ∧ b'.forEachResting = some resting := by
  obtain ⟨b₀, past, b, rep, hnew, hrun, hcalls, hpast⟩ := exists_run id {} {}
    [.addLimit 3 5 .sell 101 1, .cancel 1, .addLimit 2 8 .buy 101 4, .addLimit 1 7 .buy 100 5,
      .addLimit 9 1 .sell 101 3]
    (fun past _ => past[1]?.bind fun rc => past[3]?.bind fun rx => rx.reply.reported.bind fun rep =>
      if (rep.accepted = true ∧ rep.rested = true ∧ rep.tradeCount = 0 ∧ rep.stpCancelled = 0)
          ∧ rc.before.restingQty 1 = some 5 ∧ rc.reply = .cancelled true then
        some rep
      else none)
    (by decide +kernel)
  obtain ⟨b₁, past', b', -, hnew', hrun', hcalls', -⟩ := exists_run id {} {}
    [.addLimit 3 5 .sell 101 1, .addLimit 2 8 .buy 101 4, .addLimit 9 1 .sell 101 3]
    (fun _ _ => some ()) (by decide +kernel)
  obtain rfl : b₀ = b₁ := Option.some.inj (hnew.symm.trans hnew')
  obtain ⟨n, past, rfl, hn, hcalls⟩ := List.map_eq_cons_iff.mp hcalls
  obtain ⟨rc, past, rfl, hrc, hcalls⟩ := List.map_eq_cons_iff.mp hcalls
  obtain ⟨m, past, rfl, hm, hcalls⟩ := List.map_eq_cons_iff.mp hcalls
  obtain ⟨rx, past, rfl, hrx, hcalls⟩ := List.map_eq_cons_iff.mp hcalls
  obtain ⟨o, past, rfl, ho, hcalls⟩ := List.map_eq_cons_iff.mp hcalls
  obtain rfl := List.map_eq_nil_iff.mp hcalls
  obtain ⟨n', past', rfl, hn', hcalls'⟩ := List.map_eq_cons_iff.mp hcalls'
  obtain ⟨m', past', rfl, hm', hcalls'⟩ := List.map_eq_cons_iff.mp hcalls'
  obtain ⟨o', past', rfl, ho', hcalls'⟩ := List.map_eq_cons_iff.mp hcalls'
  obtain rfl := List.map_eq_nil_iff.mp hcalls'
  obtain ⟨rep', hreported, hpast⟩ : ∃ rep', rx.reply.reported = some rep' ∧ _ :=
    Option.bind_eq_some_iff.mp hpast
  obtain ⟨⟨hreport, hwhole, hcancelled⟩, -⟩ := Option.ite_none_right_eq_some.mp hpast
  have hx : Untouched SelfTradePolicy.cancelResting rx [m] rc 1 7 .buy 100 5 :=
    { unhalting := Or.inl (by decide)
      added := hrx
      report := ⟨_, Reply.reported_eq_some.mp hreported, hreport⟩
      unnamed := by simp [hm, Call.named]
      whole := hwhole
      cancel := hrc
      cancelled := hcancelled }
  have hall : Run b₀ ([n] ++ rc :: ([m] ++ rx :: [o])) b := hrun
  have hall' : Run b₀ ([n'] ++ ([m'] ++ [o'])) b' := hrun'
  obtain ⟨-, -, hsame, hrest⟩ := untouched_leaves_no_trace hnew hall hall' (by simp [ho, ho'])
    (by simp [hm, hm']) (by simp [hn, hn']) hx
  exact ⟨b₀, n, rc, m, rx, o, b, n', m', o', b', hnew, hrun, hrun', hrx, hrc, hsame, hrest⟩

end OrderBook

end Lob
