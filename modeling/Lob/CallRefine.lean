/-
# Lob.CallRefine — every call of the book is the call of the priority book.

`Follows b a Q free` couples the book to a priority book through a layout.  The coupling survives every
call that does not throw, with equal replies and the same turns of the matching loop
(`Follows.perform`).  A call that throws does so inside `insert`, entered with a book that follows the
priority book at the end of matching; no call is undefined.
-/
import Lob.InsertRefine
import Lob.MatchRefine

namespace Lob

open Lib.Ranked Lib.Machine

namespace OrderBook

/-- The book `b`, laid out as `Q`, follows the priority book `a`. -/
structure Follows (b : OrderBook) (a : PriorityBook) (Q : Layout) (free : List SlotIndex) : Prop where
  linked : b.Linked Q free
  settled : Settled Q
  live : Live Q
  queue : ∀ s, a.queue s = ordersOf (Q s)
  nextSeq : a.nextSeq = b.nextSeq

section Follows

variable {b b' : OrderBook} {a : PriorityBook} {Q Q' : Layout} {free free' : List SlotIndex}
  {id : OrderId} {s : Side} {o : RestingOrder} {slot : SlotIndex}

/-! ## The id index -/

section Index

variable (hlinked : b.Linked Q free) (hqueue : ∀ s, a.queue s = ordersOf (Q s))

include hqueue in
theorem ids_of_queue : (entries Q).map Prod.fst = a.orders.map RestingOrder.id := by
  have hside : ∀ s, ((cellsIn (Q s)).map (entryOf s)).map Prod.fst
      = (a.queue s).map RestingOrder.id := by
    intro s
    rw [hqueue, ordersOf, List.map_map, List.map_map]
    rfl
  rw [entries, List.map_append, hside, hside, PriorityBook.orders, List.map_append]

include hlinked hqueue

theorem Linked.nodup_ids : (a.orders.map RestingOrder.id).Nodup :=
  ids_of_queue hqueue ▸ hlinked.index.nodup

omit hqueue in
/-- What the index and the pool say about a queued order. -/
theorem Linked.filed (hmem : (slot, o) ∈ cellsIn (Q s)) :
    b.orderIndex.find o.id = some (some (indexValue slot s))
      ∧ (b.pool.slots slot).value = o ∧ slotOf (indexValue slot s) = slot
      ∧ sideOf (indexValue slot s) = s := by
  obtain ⟨e, he, hc⟩ := mem_cellsIn.mp hmem
  have hlt := hlinked.slot_lt (mem_allCells.mpr ⟨s, hmem⟩)
  have hentry : (o.id, indexValue slot s) ∈ entries Q :=
    (entries_perm Q s).mem_iff.mpr (List.mem_append_left _ (List.mem_map_of_mem hmem))
  exact ⟨hlinked.index.find_present hentry, (hlinked.queue s e he).value (slot, o) hc,
    slotOf_indexValue hlt s, sideOf_indexValue hlt s⟩

/-- A dead id is in no queue and not in the index; a live one is filed where it is queued. -/
theorem Linked.located (id : OrderId) :
    (a.live id = false ∧ b.orderIndex.find id = some none) ∨
    ∃ s o slot, o ∈ a.queue s ∧ o.id = id ∧ (slot, o) ∈ cellsIn (Q s) := by
  cases hlive : a.live id with
  | false =>
    left
    refine ⟨rfl, hlinked.index.find_absent fun hmem => ?_⟩
    rw [ids_of_queue hqueue] at hmem
    obtain ⟨o, ho, hid⟩ := List.mem_map.mp hmem
    obtain ⟨s, ho⟩ := PriorityBook.mem_orders.mp ho
    exact PriorityBook.not_live_iff.mp hlive s o ho hid
  | true =>
    right
    obtain ⟨s, o, ho, hid⟩ := PriorityBook.live_iff.mp hlive
    have hcell := ho
    rw [hqueue, ordersOf] at hcell
    obtain ⟨⟨slot, o'⟩, hc, rfl⟩ := List.mem_map.mp hcell
    exact ⟨s, _, slot, ho, hid, hc⟩

/-- **A lookup by id**, also between two turns of the matching loop. -/
theorem Linked.find (id : OrderId) : b.find id = some (a.find id) := by
  rw [OrderBook.find]
  rcases hlinked.located hqueue id with ⟨hdead, hfind⟩ | ⟨s, o, slot, ho, rfl, hc⟩
  · rw [hfind, PriorityBook.find_eq_none.mpr hdead]
    rfl
  · obtain ⟨hfind, hvalue, hslot, hside⟩ := hlinked.filed hc
    rw [hfind, PriorityBook.find_of_mem (hlinked.nodup_ids hqueue) ho]
    simp only [Option.map_some, hslot, hside, hvalue]

end Index

theorem Follows.ids (h : b.Follows a Q free) :
    (entries Q).map Prod.fst = a.orders.map RestingOrder.id := ids_of_queue h.queue

theorem Follows.nodup (h : b.Follows a Q free) : (a.orders.map RestingOrder.id).Nodup :=
  h.linked.nodup_ids h.queue

theorem Follows.located (h : b.Follows a Q free) (id : OrderId) :
    (a.live id = false ∧ b.orderIndex.find id = some none) ∨
    ∃ s o slot, o ∈ a.queue s ∧ o.id = id ∧ (slot, o) ∈ cellsIn (Q s) :=
  h.linked.located h.queue id

theorem Follows.find (h : b.Follows a Q free) (id : OrderId) : b.find id = some (a.find id) :=
  h.linked.find h.queue id

theorem Follows.mem_ids (h : b.Follows a Q free) :
    id ∈ (entries Q).map Prod.fst ↔ a.live id = true := by
  rw [h.ids, PriorityBook.live, List.any_eq_true, List.mem_map]
  simp only [beq_iff_eq]

theorem Follows.contains (h : b.Follows a Q free) : b.orderIndex.contains id = some (a.live id) := by
  rw [h.linked.index.contains, Option.some_inj, Bool.eq_iff_iff, decide_eq_true_iff, h.mem_ids]

/-- The queue position of a resting order. -/
theorem Follows.locate (h : b.Follows a Q free) (ho : o ∈ a.queue s) :
    ∃ slot m₁ p as bs m₂, Q s = m₁ ++ (p, as ++ (slot, o) :: bs) :: m₂ := by
  rw [h.queue, ordersOf] at ho
  obtain ⟨⟨slot, o'⟩, hc, rfl⟩ := List.mem_map.mp ho
  obtain ⟨⟨p, qs⟩, he, hc⟩ := mem_cellsIn.mp hc
  obtain ⟨m₁, m₂, hm⟩ := List.append_of_mem he
  obtain ⟨as, bs, hqs⟩ := List.append_of_mem hc
  have hqs' : qs = as ++ (slot, o') :: bs := hqs
  exact ⟨slot, m₁, p, as, bs, m₂, by rw [hm, hqs']⟩

/-! ## cancel -/

/-- Dropping levels and emptying queues keeps the rest settled and live. -/
theorem settled_setQueue {m : List (Price × List Cell)} (h : Settled Q) (hm : ∀ e ∈ m, e.2 ≠ []) :
    Settled (setQueue Q s m) := by
  intro t e he
  rcases Side.eq_or_eq_opposite s t with rfl | rfl
  · rw [setQueue_self] at he
    exact hm e he
  · rw [setQueue_opposite] at he
    exact h _ e he

theorem live_setQueue {m : List (Price × List Cell)} (h : Live Q)
    (hm : ∀ c ∈ cellsIn m, c ∈ cellsIn (Q s)) : Live (setQueue Q s m) := by
  intro t c hc
  rcases Side.eq_or_eq_opposite s t with rfl | rfl
  · rw [setQueue_self] at hc
    exact h t c (hm c hc)
  · rw [setQueue_opposite] at hc
    exact h _ c hc

/-- **Taking a queued order off its level**, its index entry already gone. -/
theorem Linked.remove (h : b.Linked Q free) (hset : Settled Q) {m₁ m₂ : List (Price × List Cell)}
    {p : Price} {as bs : List Cell} (hQ : Q s = m₁ ++ (p, as ++ (slot, o) :: bs) :: m₂)
    {index : IdIndex UInt32}
    (hindex : index.Represents (entries (setQueue Q s (m₁ ++ (p, as ++ bs) :: m₂)))) :
    ∃ b' m, ({ b with orderIndex := index } : OrderBook).remove s slot = some b'
      ∧ b'.Linked (setQueue Q s m) (slot :: free) ∧ cellsIn m = cellsIn m₁ ++ (as ++ bs) ++ cellsIn m₂
      ∧ (∀ e ∈ m, e.2 ≠ []) ∧ Kept b b' := by
  have hmem : (p, as ++ (slot, o) :: bs) ∈ Q s := by rw [hQ]; simp
  have hqueue := h.queue s _ hmem
  have hvalue : (b.pool.slots slot).value = o := hqueue.value (slot, o) (by simp)
  have hprice : o.price = p := hqueue.price (slot, o) (by simp)
  have hrest : ∀ e ∈ m₁ ++ m₂, e.2 ≠ [] := by
    intro e he
    refine hset s e ?_
    rw [hQ]
    rcases List.mem_append.mp he with he | he <;> simp [he]
  have hladder : OrderBook.ladder { b with orderIndex := index } s = b.ladder s := by cases s <;> rfl
  have hfind : (b.ladder s).find p = some ((b.ladder s).refOf p) := by
    have hlook : (levelsOf (Q s)).lookup p = some (levelOf (as ++ (slot, o) :: bs)) :=
      (h.sorted s).lookup_eq_some.mpr (List.mem_map.mpr ⟨_, hmem, rfl⟩)
    rw [(h.ladder s).find (h.allOccupied (hset s)), hlook]
    rfl
  obtain ⟨hlinked, hkept⟩ := h.detachAt hQ hindex
  have hunfold : ({ b with orderIndex := index } : OrderBook).remove s slot
      = if (((({ b with orderIndex := index } : OrderBook).detachAt s ((b.ladder s).refOf p)
            slot).ladder s).deref ((b.ladder s).refOf p)).empty then
          (({ b with orderIndex := index } : OrderBook).detachAt s ((b.ladder s).refOf p) slot).closeAt
            s p
        else some (({ b with orderIndex := index } : OrderBook).detachAt s
          ((b.ladder s).refOf p) slot) := by
    unfold OrderBook.remove
    simp only [hvalue, hprice, hladder, hfind]
  -- from here on only the detached book matters, and the level the order left
  rw [hunfold]
  generalize ({ b with orderIndex := index } : OrderBook).detachAt s ((b.ladder s).refOf p) slot = b₁
    at hlinked hkept ⊢
  have hsplit : setQueue Q s (m₁ ++ (p, as ++ bs) :: m₂) s = m₁ ++ (p, as ++ bs) :: m₂ :=
    setQueue_self ..
  have href : (b₁.ladder s).refOf p = (b.ladder s).refOf p := (hkept.window s).refOf p
  have hempty := hlinked.level_empty (s := s) (e := (p, as ++ bs)) (by rw [hsplit]; simp)
  rw [← href, hlinked.deref hsplit, hempty]
  -- the level is closed when this was its last order
  by_cases hnil : as ++ bs = []
  · rw [hnil] at hlinked hsplit ⊢
    obtain ⟨b₂, hclose, hlinked₂, hkept₂⟩ := hlinked.closeAt hsplit hrest
    have hidem : setQueue (setQueue Q s (m₁ ++ (p, []) :: m₂)) s (m₁ ++ m₂)
        = setQueue Q s (m₁ ++ m₂) := Function.update_idem ..
    rw [hidem] at hlinked₂
    refine ⟨b₂, m₁ ++ m₂, by rw [List.isEmpty_nil, if_pos rfl, hclose], hlinked₂, ?_, hrest,
      hkept.trans hkept₂⟩
    rw [cellsIn_append, List.append_nil]
  · have hfalse : (as ++ bs).isEmpty = false := by simpa using hnil
    refine ⟨b₁, m₁ ++ (p, as ++ bs) :: m₂, by rw [hfalse, if_neg (by simp)], hlinked, ?_, ?_, hkept⟩
    · rw [cellsIn_append, cellsIn_cons]
      simp only [List.append_assoc]
    · intro e he
      rcases List.mem_append.mp he with he | he
      · exact hrest e (by simp [he])
      · rcases List.mem_cons.mp he with rfl | he
        · exact hnil
        · exact hrest e (by simp [he])

/-- **A cancel** answers whether the id was live and takes its order out. -/
theorem Follows.cancel (h : b.Follows a Q free) (id : OrderId) :
    ∃ b' Q' free', b.cancel id = some (a.live id, b') ∧ b'.Follows (a.remove id) Q' free'
      ∧ Kept b b' := by
  rcases h.located id with ⟨hdead, -⟩ | ⟨s, o, -, ho, rfl, -⟩
  · have habs : id ∉ (entries Q).map Prod.fst := by
      rw [h.mem_ids, hdead]
      simp
    refine ⟨b, Q, free, ?_, ?_, rfl, rfl, rfl, fun _ => PriceLadder.SameWindow.refl _, fun _ => rfl⟩
    · rw [OrderBook.cancel, h.linked.index.take_absent habs, hdead]
    · rw [PriorityBook.remove_of_not_live hdead]
      exact h
  · obtain ⟨slot, m₁, p, as, bs, m₂, hQ⟩ := h.locate ho
    have hcell : (slot, o) ∈ cellsIn (Q s) := by rw [hQ]; simp
    obtain ⟨-, -, hslot, hside⟩ := h.linked.filed hcell
    obtain ⟨index, htake, hindex⟩ := h.linked.index.take_present (entries_detach hQ)
    obtain ⟨b', m, hremove, hlinked, hcells, hset, hkept⟩ := h.linked.remove h.settled hQ hindex
    have hlive : a.live o.id = true := PriorityBook.live_iff.mpr ⟨s, o, ho, rfl⟩
    refine ⟨b', setQueue Q s m, slot :: free, ?_, ⟨hlinked, settled_setQueue h.settled hset,
      live_setQueue h.live ?_, fun t => ?_, ?_⟩, hkept⟩
    · rw [OrderBook.cancel, htake]
      simp only [hslot, hside, hremove, Option.map_some, hlive]
    · intro c hc
      rw [hQ, cellsIn_append, cellsIn_cons]
      rw [hcells] at hc
      simp only [List.mem_append, List.mem_cons] at hc ⊢
      tauto
    · show (a.queue t).filter (fun x => x.id ≠ o.id) = _
      have hnd := h.nodup
      rcases Side.eq_or_eq_opposite s t with rfl | rfl
      · have hsplit : a.queue t = (ordersOf m₁ ++ as.map Prod.snd)
            ++ o :: (bs.map Prod.snd ++ ordersOf m₂) := by
          rw [h.queue, hQ, ordersOf, cellsIn_append, cellsIn_cons]
          simp [ordersOf]
        have hndt : ((a.queue t).map RestingOrder.id).Nodup := by
          rw [PriorityBook.orders, List.map_append] at hnd
          cases t with
          | buy => exact (List.nodup_append.mp hnd).1
          | sell => exact (List.nodup_append.mp hnd).2.1
        rw [hsplit] at hndt ⊢
        rw [PriorityBook.filter_split hndt, setQueue_self]
        simp [ordersOf, hcells]
      · rw [setQueue_opposite, ← h.queue]
        refine List.filter_eq_self.mpr fun x hx => decide_eq_true fun heq => ?_
        have hxo : x = o := List.inj_on_of_nodup_map hnd
          (PriorityBook.mem_orders.mpr ⟨_, hx⟩) (PriorityBook.mem_orders.mpr ⟨s, ho⟩) heq
        subst hxo
        rw [PriorityBook.orders, List.map_append] at hnd
        have hdis := List.disjoint_of_nodup_append hnd
        cases s with
        | buy => exact hdis (List.mem_map_of_mem ho) (List.mem_map_of_mem hx)
        | sell => exact hdis (List.mem_map_of_mem hx) (List.mem_map_of_mem ho)
    · exact h.nextSeq.trans hkept.nextSeq.symm

/-! ## Submissions -/

/-- An attempt follows a submission of the priority book. -/
structure Attempt.Follows (x : Attempt) (y : PriorityBook.Submission) (Q : Layout)
    (free : List SlotIndex) : Prop where
  book : x.book.Follows y.book Q free
  taker : y.taker = x.start.taker x.limit
  qty : y.qty = x.incoming.qty
  price : x.incoming.price = x.limit.getD 0
  rests : y.restLeftover = x.restLeftover
  fresh : y.book.live x.incoming.id = false

theorem Follows.attempt (h : b.Follows a Q free) (incoming : Order) (limit : Option Price)
    (restLeftover : Bool) :
    b.attempt incoming limit restLeftover
      = if (incoming.qty = 0 || a.live incoming.id) = true then none
        else some ⟨b, incoming, limit, restLeftover⟩ := by
  unfold OrderBook.attempt
  rw [h.contains]
  by_cases hzero : incoming.qty = 0
  · simp [hzero]
  · cases hlive : a.live incoming.id <;> simp [hzero]

/-- **What a call sends into the loop** is what the priority book submits. -/
theorem Follows.attemptOf (h : b.Follows a Q free) (c : Call) :
    (b.attemptOf c = none ∧ a.submission b.policy c = none) ∨
    ∃ x y Q' free', b.attemptOf c = some x ∧ a.submission b.policy c = some y
      ∧ x.Follows y Q' free' ∧ Kept b x.book := by
  have hself : Kept b b :=
    ⟨rfl, rfl, rfl, fun _ => PriceLadder.SameWindow.refl _, fun _ => rfl⟩
  cases c with
  | addLimit id owner side price qty =>
    simp only [OrderBook.attemptOf, h.attempt, PriorityBook.submission]
    by_cases hrej : (qty = 0 || a.live id) = true
    · simp only [hrej, if_true]
      exact Or.inl ⟨trivial, trivial⟩
    · simp only [hrej]
      have hdead : a.live id = false := by simp_all
      exact Or.inr ⟨_, _, Q, free, rfl, rfl, ⟨h, rfl, rfl, rfl, rfl, hdead⟩, hself⟩
  | addMarket id owner side qty =>
    simp only [OrderBook.attemptOf, h.attempt, PriorityBook.submission]
    by_cases hrej : (qty = 0 || a.live id) = true
    · simp only [hrej, if_true]
      exact Or.inl ⟨trivial, trivial⟩
    · simp only [hrej]
      have hdead : a.live id = false := by simp_all
      exact Or.inr ⟨_, _, Q, free, rfl, rfl, ⟨h, rfl, rfl, rfl, rfl, hdead⟩, hself⟩
  | cancel id => exact Or.inl ⟨rfl, rfl⟩
  | modify id newPrice newQty =>
    obtain ⟨b', Q', free', hcancel, hfollows, hkept⟩ := h.cancel id
    rcases h.located id with ⟨hdead, hfind⟩ | ⟨s, o, slot, ho, rfl, hc⟩
    · refine Or.inl ⟨?_, ?_⟩
      · simp only [OrderBook.attemptOf, hfind]
      · simp only [PriorityBook.submission, PriorityBook.find_eq_none.mpr hdead]
    · obtain ⟨hfind, hvalue, hslot, hside⟩ := h.linked.filed hc
      have hgone := PriorityBook.live_remove_self a o.id
      simp only [OrderBook.attemptOf, hfind, hcancel, hfollows.attempt, PriorityBook.submission,
        PriorityBook.find_of_mem h.nodup ho, hslot, hside, hvalue, hgone, Bool.or_false,
        decide_eq_true_eq]
      by_cases hzero : newQty = 0
      · rw [if_pos hzero, if_pos hzero]
        exact Or.inl ⟨rfl, rfl⟩
      · rw [if_neg hzero, if_neg hzero]
        refine Or.inr ⟨_, _, Q', free', rfl, rfl, ⟨hfollows, ?_, rfl, rfl, rfl, hgone⟩, hkept⟩
        show _ = Taker.mk b'.policy _ _ _ _
        rw [hkept.policy]
        rfl
  | pop => exact Or.inl ⟨rfl, rfl⟩

/-- The end of the matching loop of an attempt. -/
structure Attempt.Matched (x : Attempt) (y : PriorityBook.Submission) (m : Matching) (Q : Layout)
    (free : List SlotIndex) : Prop where
  run : x.book.matchOpposite x.incoming x.limit = some m
  follows : m.book.Follows y.after Q free
  progress : m.progress = y.walk.2
  order : { m.incoming with qty := x.incoming.qty } = x.incoming
  policy : m.book.policy = x.book.policy
  opens : ∀ s, (m.book.ladder s).outsideOpens = (x.book.ladder s).outsideOpens
  ring : ∀ capacity popped emitted, x.book.tradeOut.Accounts capacity popped emitted →
    m.book.tradeOut.Accounts capacity popped (emitted ++ Matching.emissions m.events)

variable {x : Attempt} {y : PriorityBook.Submission}

/-- **The matching loop of an attempt is the walk of its submission.** -/
theorem Attempt.Follows.matched (h : x.Follows y Q free) :
    ∃ m Q' free', x.Matched y m Q' free' := by
  obtain ⟨m, Q', free', hrun, hlinked, hset, hlive, hsince, hsweep⟩ :=
    h.book.linked.matched h.book.settled h.book.live x.incoming x.limit
  have htaker : y.taker = (Matching.start x.book x.incoming).taker x.limit := h.taker
  have hside : y.taker.side = x.incoming.side := by rw [h.taker]; rfl
  have hwalk : y.walk = (ordersOf (Q' x.incoming.side.opposite), m.progress) := by
    show y.taker.sweep (y.book.queue y.taker.side.opposite) ⟨y.qty, {}, y.book.nextSeq, []⟩ = _
    rw [hside, h.book.queue, h.qty, h.book.nextSeq, htaker]
    exact hsweep
  refine ⟨m, Q', free', hrun, ⟨hlinked, hset, hlive, fun s => ?_, ?_⟩, by rw [hwalk],
    hsince.order, hsince.policy, hsince.opens, fun capacity popped emitted hr => ?_⟩
  · rcases Side.eq_or_eq_opposite x.incoming.side s with rfl | rfl
    · have hnear : Q' x.incoming.side = Q x.incoming.side := hsince.near
      rw [hnear, ← h.book.queue, ← hside, y.after_queue_near]
    · have hfar := y.after_queue_far
      rw [hside, hwalk] at hfar
      exact hfar
  · show y.walk.2.nextSeq = _
    rw [hwalk]
    rfl
  · refine hsince.ring capacity popped emitted ?_
    show x.book.tradeOut.Accounts capacity popped (emitted ++ [])
    rw [List.append_nil]
    exact hr

section Matched

variable {m : Matching}

theorem Attempt.Matched.left (hm : x.Matched y m Q' free') : m.incoming.qty = y.walk.2.left := by
  rw [← hm.progress]
  rfl

theorem Attempt.Matched.report (hm : x.Matched y m Q' free') : m.rep = y.walk.2.rep := by
  rw [← hm.progress]
  rfl

theorem Attempt.Matched.acts (hm : x.Matched y m Q' free') :
    m.events.map Event.act = y.walk.2.acts := by
  rw [← hm.progress]
  rfl

/-- Whether the leftover of a matched attempt is to rest. -/
theorem Attempt.Matched.rests (hm : x.Matched y m Q' free') (h : x.Follows y Q free) :
    (x.restLeftover && decide (0 < m.incoming.qty) && !m.rep.stpHalted) = y.rests := by
  rw [PriorityBook.Submission.rests, h.rests, hm.left, hm.report]

/-- The leftover of an attempt, as `insert` is given it. -/
structure Attempt.Rests (y : PriorityBook.Submission) (pre : OrderBook) (order : Order) (Q : Layout)
    (free : List SlotIndex) : Prop where
  follows : pre.Follows y.after Q free
  leftover : restingOf order = y.leftover
  side : order.side = y.taker.side
  qty : 0 < order.qty
  fresh : y.after.live order.id = false

theorem Attempt.Matched.leftover (hm : x.Matched y m Q' free') (h : x.Follows y Q free)
    (hqty : 0 < m.incoming.qty) : Attempt.Rests y m.book m.incoming Q' free' := by
  have hid : m.incoming.id = x.incoming.id := (congrArg Order.id hm.order :)
  have howner : m.incoming.owner = x.incoming.owner := (congrArg Order.owner hm.order :)
  have hprice : m.incoming.price = x.incoming.price := (congrArg Order.price hm.order :)
  have hside : m.incoming.side = x.incoming.side := (congrArg Order.side hm.order :)
  refine ⟨hm.follows, ?_, ?_, hqty, ?_⟩
  · rw [restingOf, PriorityBook.Submission.leftover, ← hm.left, h.taker, hid, howner, hprice, h.price]
    rfl
  · rw [hside, h.taker]
    rfl
  · rw [hid]
    exact y.after_not_live h.fresh

end Matched

/-- **Where an attempt enters `insert`**: with a book that follows the priority book at the end of
matching, and exactly when the submission's leftover is to rest. -/
theorem Attempt.Follows.insertPoint (h : x.Follows y Q free) :
    (y.rests = false ∧ x.insertPoint = none) ∨
    (y.rests = true ∧ ∃ pre order Q' free', x.insertPoint = some (pre, order)
      ∧ Attempt.Rests y pre order Q' free') := by
  obtain ⟨m, Q', free', hm⟩ := h.matched
  have hpoint : x.insertPoint = if y.rests = true then some (m.book, m.incoming) else none := by
    rw [Attempt.insertPoint, hm.run, ← hm.rests h]
    rfl
  cases hrests : y.rests with
  | false => exact Or.inl ⟨rfl, by rw [hpoint, hrests, if_neg (by simp)]⟩
  | true =>
    have hqty : 0 < m.incoming.qty := by
      have hand := hm.rests h
      rw [hrests] at hand
      simp only [Bool.and_eq_true, decide_eq_true_eq] at hand
      exact hand.1.2
    exact Or.inr ⟨rfl, _, _, Q', free', by rw [hpoint, hrests, if_pos rfl], hm.leftover h hqty⟩

/-- `submit` past its first check. -/
def Attempt.execute (mem : Memory) (x : Attempt) : Result OrderBook Executed :=
  match x.book.matchOpposite x.incoming x.limit with
  | none => .undefined
  | some m =>
    let rep := { m.rep with remaining := m.incoming.qty }
    if x.restLeftover && decide (0 < m.incoming.qty) && !m.rep.stpHalted then
      match m.book.insert mem x.incoming.side m.incoming with
      | .undefined => .undefined
      | .throws e b => .throws e b
      | .ok _ b => .ok { report := { rep with rested := true }, events := m.events } b
    else .ok { report := rep, events := m.events } m.book

/-- Where the counters of fallback opens stand, after an `insert` entered at `point` or none. -/
def Opens (b b' : OrderBook) : Option (OrderBook × Order) → Prop
  | none => ∀ s, (b'.ladder s).outsideOpens = (b.ladder s).outsideOpens
  | some (pre, order) =>
    (b'.ladder order.side).outsideOpens
        = (if ((pre.placeFirst order.side order.price).ladder order.side).inWindow order.price
          then (b.ladder order.side).outsideOpens else (b.ladder order.side).outsideOpens + 1)
      ∧ (b'.ladder order.side.opposite).outsideOpens = (b.ladder order.side.opposite).outsideOpens

/-- The ways an attempt can end. -/
inductive Attempt.Executes (mem : Memory) (x : Attempt) (y : PriorityBook.Submission) :
    Result OrderBook Executed → Prop
  | ok (e : Executed) (b' : OrderBook) (Q' : Layout) (free' : List SlotIndex)
      (hf : b'.Follows y.execute.2.2 Q' free') (hreport : e.report = y.execute.1)
      (hacts : e.events.map Event.act = y.execute.2.1) (hpolicy : b'.policy = x.book.policy)
      (hopens : Opens x.book b' x.insertPoint)
      (hring : ∀ capacity popped emitted, x.book.tradeOut.Accounts capacity popped emitted →
        b'.tradeOut.Accounts capacity popped (emitted ++ Matching.emissions e.events)) :
      Executes mem x y (.ok e b')
  | throws (e : Throw) (b' pre : OrderBook) (order : Order) (Q' : Layout) (free' : List SlotIndex)
      (hpoint : x.insertPoint = some (pre, order)) (hpre : Attempt.Rests y pre order Q' free')
      (hthrow : pre.insert mem order.side order = .throws e b') : Executes mem x y (.throws e b')

/-- **An attempt does what its submission does**, or throws inside `insert`. -/
theorem Attempt.Follows.execute (h : x.Follows y Q free) (mem : Memory) :
    Attempt.Executes mem x y (x.execute mem) := by
  obtain ⟨m, Q₁, free₁, hm⟩ := h.matched
  have hpoint : x.insertPoint = if y.rests = true then some (m.book, m.incoming) else none := by
    rw [Attempt.insertPoint, hm.run, ← hm.rests h]
    rfl
  have hside : m.incoming.side = x.incoming.side := (congrArg Order.side hm.order :)
  unfold Attempt.execute
  rw [hm.run]
  simp only [hm.rests h]
  cases hrests : y.rests with
  | false =>
    rw [hrests, if_neg (by simp)] at hpoint
    rw [if_neg (by simp)]
    -- nothing rests, so the call never enters `insert`
    refine .ok _ _ Q₁ free₁ ?_ ?_ ?_ hm.policy ?_ hm.ring
    · rw [y.execute_eq, hrests, if_neg (by simp)]
      exact hm.follows
    · rw [y.execute_eq, hrests, hm.report, hm.left]
      simp
    · rw [y.execute_eq]
      exact hm.acts
    · rw [hpoint]
      exact hm.opens
  | true =>
    rw [hrests, if_pos rfl] at hpoint
    rw [if_pos rfl]
    -- something rests: what is left of the call is `insert`
    have hqty : 0 < m.incoming.qty := by
      have hand := hm.rests h
      rw [hrests] at hand
      simp only [Bool.and_eq_true, decide_eq_true_eq] at hand
      exact hand.1.2
    have hl := hm.leftover h hqty
    have hins := hl.follows.linked.insert hl.follows.settled (s := m.incoming.side) rfl
      (by rw [hl.follows.mem_ids, hl.fresh]; simp) mem
    rw [← hside]
    have hback : ∀ e b', m.book.insert mem m.incoming.side m.incoming = .throws e b' →
        Attempt.Executes mem x y (.throws e b') := fun e b' hthrow =>
      .throws e b' _ _ Q₁ free₁ hpoint hl hthrow
    generalize hr : m.book.insert mem m.incoming.side m.incoming = r at hins hback ⊢
    cases hins with
    | ok b' Q' free' hlinked hset hlive horders hopp hsame hwindow hopens hopens' =>
      refine .ok _ _ Q' free' ?_ ?_ ?_ (hsame.policy.trans hm.policy) ?_ ?_
      · rw [y.execute_eq, hrests, if_pos rfl]
        refine ⟨hlinked, hset, hlive hl.follows.live hqty, fun s => ?_, ?_⟩
        · rw [hl.side] at horders hopp
          rw [hl.leftover, ← hl.follows.queue] at horders
          rcases Side.eq_or_eq_opposite y.taker.side s with rfl | rfl
          · rw [horders]
            exact Function.update_self ..
          · rw [hopp, ← hl.follows.queue]
            exact Function.update_of_ne y.taker.side.opposite_ne _ _
        · rw [hsame.nextSeq]
          exact hm.follows.nextSeq
      · rw [y.execute_eq, hrests, hm.report, hm.left]
        simp
      · rw [y.execute_eq]
        exact hm.acts
      · rw [hpoint]
        exact ⟨by rw [hopens, hm.opens], by rw [hopens', hm.opens]⟩
      · intro capacity popped emitted hacc
        rw [hsame.tradeOut]
        exact hm.ring capacity popped emitted hacc
    | noNode b' free' hl' hfails => exact hback _ _ rfl
    | noSlot e b' free' hl' hopen hfails => exact hback _ _ rfl
    | leaked e b' hlive hopen hroom => exact hback _ _ rfl

/-! ## Whole calls -/

/-- A submission past its check. -/
theorem submit_of_attempt {owner : ParticipantId} {side : Side} {limit : Option Price}
    {qty : Quantity} {restLeftover : Bool} (mem : Memory)
    (h : b.attempt ⟨id, owner, limit.getD 0, qty, side⟩ limit restLeftover = some x) :
    b.submit mem id owner side limit qty restLeftover = x.execute mem := by
  unfold OrderBook.attempt at h
  split at h
  · simp at h
  · rename_i hgo
    obtain rfl := Option.some.inj h
    obtain ⟨hqty, hdead⟩ := not_or.mp hgo
    have hqty' : ¬ qty = 0 := hqty
    have hdead' : b.orderIndex.contains id = some false := not_not.mp hdead
    unfold submit
    rw [if_neg hqty', hdead']
    rfl

/-- **A call with an attempt behind it** is that attempt. -/
theorem perform_of_attempt (mem : Memory) {c : Call} (h : b.attemptOf c = some x) :
    b.perform mem c = match x.execute mem with
      | .ok r b => .ok (.report r.report, r.events) b
      | .throws e b => .throws e b
      | .undefined => .undefined := by
  cases c with
  | addLimit id owner side price qty =>
    have hx : b.attempt ⟨id, owner, (some price).getD 0, qty, side⟩ (some price) true = some x := h
    have hsub := submit_of_attempt mem hx
    cases hexec : x.execute mem <;> simp only [OrderBook.perform, addLimit, hsub, hexec]
  | addMarket id owner side qty =>
    have hx : b.attempt ⟨id, owner, none.getD 0, qty, side⟩ none false = some x := h
    have hsub := submit_of_attempt mem hx
    cases hexec : x.execute mem <;> simp only [OrderBook.perform, addMarket, hsub, hexec]
  | cancel id => simp [OrderBook.attemptOf] at h
  | modify id newPrice newQty =>
    unfold OrderBook.attemptOf at h
    simp only at h
    split at h
    · rename_i entry r b₁ hfind hcancel
      have hzero : newQty ≠ 0 := by
        rintro rfl
        simp [OrderBook.attempt] at h
      have hx : b₁.attempt ⟨id, (b.pool.slots (slotOf entry)).value.owner, (some newPrice).getD 0,
        newQty, sideOf entry⟩ (some newPrice) true = some x := h
      have hsub := submit_of_attempt mem hx
      cases hexec : x.execute mem <;>
        simp only [OrderBook.perform, modify, hfind, hcancel, if_neg hzero, addLimit, hsub, hexec]
    · simp at h
  | pop => simp [OrderBook.attemptOf] at h

/-- A submission stopped at its check. -/
theorem Follows.submit_rejected (h : b.Follows a Q free) (mem : Memory) {owner : ParticipantId}
    {side : Side} {limit : Option Price} {qty : Quantity} {restLeftover : Bool}
    (hrej : (qty = 0 || a.live id) = true) :
    b.submit mem id owner side limit qty restLeftover
      = .ok { report := { accepted := false, remaining := qty } } b := by
  unfold submit
  by_cases hzero : qty = 0
  · rw [if_pos hzero]
  · have hlive : a.live id = true := by simpa [hzero] using hrej
    rw [if_neg hzero, h.contains, hlive]

/-- The ways a call can end. -/
inductive Performed (mem : Memory) (b : OrderBook) (a : PriorityBook) (c : Call) :
    Result OrderBook (Reply × List Event) → Prop
  | ok (r : Reply) (events : List Event) (b' : OrderBook) (Q' : Layout) (free' : List SlotIndex)
      (hf : b'.Follows (a.perform b.policy c).2.2 Q' free')
      (hreply : c ≠ .pop → r = (a.perform b.policy c).1)
      (hacts : events.map Event.act = (a.perform b.policy c).2.1) (hpolicy : b'.policy = b.policy)
      (hopens : Opens b b' (b.insertPoint c))
      (hring : ∀ capacity popped emitted, b.tradeOut.Accounts capacity popped emitted →
        b'.tradeOut.Accounts capacity (popped ++ r.handed) (emitted ++ Matching.emissions events)) :
      Performed mem b a c (.ok (r, events) b')
  | throws (e : Throw) (b' pre : OrderBook) (order : Order) (y : PriorityBook.Submission)
      (Q' : Layout) (free' : List SlotIndex) (hy : a.submission b.policy c = some y)
      (hpoint : b.insertPoint c = some (pre, order)) (hpre : Attempt.Rests y pre order Q' free')
      (hthrow : pre.insert mem order.side order = .throws e b') : Performed mem b a c (.throws e b')

/-- A call that neither emits a trade nor enters `insert`. -/
theorem Performed.quiet {mem : Memory} {c : Call} {r : Reply} (hnone : b.attemptOf c = none)
    (hf : b'.Follows (a.perform b.policy c).2.2 Q' free')
    (hreply : r = (a.perform b.policy c).1) (hacts : (a.perform b.policy c).2.1 = [])
    (hhanded : r.handed = []) (hkept : Kept b b') : Performed mem b a c (.ok (r, []) b') := by
  refine .ok r [] b' Q' free' hf (fun _ => hreply) hacts.symm hkept.policy ?_ ?_
  · rw [OrderBook.insertPoint, hnone]
    exact hkept.opens
  · intro capacity popped emitted hacc
    rw [hkept.tradeOut, hhanded, List.append_nil]
    show b.tradeOut.Accounts capacity popped (emitted ++ [])
    rw [List.append_nil]
    exact hacc

/-- **Every call follows the priority book, or throws inside `insert`.** -/
theorem Follows.perform (h : b.Follows a Q free) (mem : Memory) (c : Call) :
    Performed mem b a c (b.perform mem c) := by
  have hself : Kept b b :=
    ⟨rfl, rfl, rfl, fun _ => PriceLadder.SameWindow.refl _, fun _ => rfl⟩
  rcases h.attemptOf c with ⟨hnone, hy⟩ | ⟨x, y, Q₁, free₁, hx, hy, hfollows, hkept⟩
  · -- no attempt: the call is rejected, or takes an order out, or pops a trade
    cases c with
    | addLimit id owner side price qty =>
      have hrej : (qty = 0 || a.live id) = true := by
        by_contra hgo
        simp [PriorityBook.submission, hgo] at hy
      have hperform : a.perform b.policy (.addLimit id owner side price qty)
          = (.report { accepted := false, remaining := qty }, [], a) := by
        unfold PriorityBook.perform PriorityBook.submit
        simp only [hrej, if_true]
      simp only [OrderBook.perform, addLimit, h.submit_rejected mem hrej]
      exact .quiet hnone (by rw [hperform]; exact h) (by rw [hperform])
        (by rw [hperform]) rfl hself
    | addMarket id owner side qty =>
      have hrej : (qty = 0 || a.live id) = true := by
        by_contra hgo
        simp [PriorityBook.submission, hgo] at hy
      have hperform : a.perform b.policy (.addMarket id owner side qty)
          = (.report { accepted := false, remaining := qty }, [], a) := by
        unfold PriorityBook.perform PriorityBook.submit
        simp only [hrej, if_true]
      simp only [OrderBook.perform, addMarket, h.submit_rejected mem hrej]
      exact .quiet hnone (by rw [hperform]; exact h) (by rw [hperform])
        (by rw [hperform]) rfl hself
    | cancel id =>
      obtain ⟨b', Q', free', hcancel, hf, hkept⟩ := h.cancel id
      simp only [OrderBook.perform, hcancel]
      exact .quiet hnone hf rfl rfl rfl hkept
    | modify id newPrice newQty =>
      rcases h.located id with ⟨hdead, hfind⟩ | ⟨s, o, slot, ho, rfl, hc⟩
      · have hperform : a.perform b.policy (.modify id newPrice newQty)
            = (.report { accepted := false, remaining := newQty }, [], a) := by
          simp only [PriorityBook.perform, PriorityBook.find_eq_none.mpr hdead]
        simp only [OrderBook.perform, modify, hfind]
        exact .quiet hnone (by rw [hperform]; exact h) (by rw [hperform])
          (by rw [hperform]) rfl hself
      · obtain ⟨b', Q', free', hcancel, hf, hkept⟩ := h.cancel o.id
        obtain ⟨hfind, -, -, -⟩ := h.linked.filed hc
        have hafind := PriorityBook.find_of_mem h.nodup ho
        have hzero : newQty = 0 := by
          simpa [PriorityBook.submission, hafind] using hy
        have hperform : a.perform b.policy (.modify o.id newPrice newQty)
            = (.report {}, [], a.remove o.id) := by
          simp only [PriorityBook.perform, hafind, if_pos hzero]
        simp only [OrderBook.perform, modify, hfind, hcancel, if_pos hzero]
        exact .quiet hnone (by rw [hperform]; exact hf) (by rw [hperform])
          (by rw [hperform]) rfl hkept
    | pop =>
      unfold OrderBook.perform
      refine .ok _ [] _ Q free ⟨h.linked.congr rfl rfl fun s => by cases s <;> rfl, h.settled, h.live,
        h.queue, h.nextSeq⟩ (by simp) rfl rfl ?_ fun capacity popped emitted hacc => ?_
      · rw [OrderBook.insertPoint, hnone]
        intro s
        cases s <;> rfl
      · show b.tradeOut.pop.2.Accounts capacity _ (emitted ++ [])
        rw [List.append_nil]
        exact hacc.pop
  · have hperform := PriorityBook.perform_of_submission hy
    have hc : c ≠ .pop := by
      rintro rfl
      simp [OrderBook.attemptOf] at hx
    rw [perform_of_attempt mem hx]
    have hex := hfollows.execute mem
    have hpoint : b.insertPoint c = x.insertPoint := by
      rw [OrderBook.insertPoint, hx]
      rfl
    generalize x.execute mem = r at hex ⊢
    cases hex with
    | ok e b' Q' free' hf hreport hacts hpolicy hopens hring =>
      refine .ok _ _ b' Q' free' (by rw [hperform]; exact hf)
        (fun _ => by rw [hperform, hreport]) (by rw [hperform]; exact hacts)
        (hpolicy.trans hkept.policy) ?_ ?_
      · rw [hpoint]
        cases hp : x.insertPoint with
        | none =>
          rw [hp] at hopens
          exact fun s => (hopens s).trans (hkept.opens s)
        | some point =>
          rw [hp] at hopens
          exact ⟨by rw [hopens.1, hkept.opens], by rw [hopens.2, hkept.opens]⟩
      · intro capacity popped emitted hacc
        show b'.tradeOut.Accounts capacity (popped ++ []) _
        rw [List.append_nil]
        exact hring capacity popped emitted (by rw [hkept.tradeOut]; exact hacc)
    | throws e b' pre order Q' free' hp hpre hthrow =>
      exact .throws e b' pre order y Q' free' hy (by rw [hpoint, hp]) hpre hthrow

end Follows

end OrderBook

end Lob
