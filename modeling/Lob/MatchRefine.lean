/-
# Lob.MatchRefine — the matching loop follows the walk of the priority book.

Every step of the loop either leaves the far side's orders and the taker's progress as they were, or
takes exactly one turn of the walk (`Walking.step`).  `Standing` says what holds at each place of the
loop: at the inner loop only the best level may have been emptied, and past it a level is left
standing only if the taker is exhausted or halted.  The rank counts what is left to enter, consume
and leave, so the loop ends.
-/
import Lob.OrderBookRefine
import Lob.PriorityBook

namespace Lob

open Lib.Ranked Lib.Machine OrderBook

namespace Matching

/-- The taker of a matching loop. -/
def taker (limit : Option Price) (m : Matching) : Taker :=
  ⟨m.book.policy, m.incoming.id, m.incoming.owner, m.incoming.side, limit⟩

/-- How far the taker has come. -/
def progress (m : Matching) : Progress :=
  ⟨m.incoming.qty, m.rep, m.book.nextSeq, m.events.map Event.act⟩

/-- The trades among some events, each with the number of trades the ring held. -/
def emissions (events : List Event) : List (Trade × Nat) :=
  events.filterMap fun e =>
    match e.act with
    | .fill t => some (t, e.held)
    | .stpCancel _ => none

/-! ## What holds at each place of the loop -/

/-- The far side's levels and the taker's progress, at a place of the loop. -/
inductive Standing (k : Taker) (ref : Price → LevelRef) (s : Progress) :
    Ctl → List (Price × List Cell) → Prop
  | outer (L : List (Price × List Cell)) (hset : ∀ e ∈ L, e.2 ≠ [])
      (hhalt : s.rep.stpHalted = false) : Standing k ref s .outer L
  | inner (p : Price) (qs : List Cell) (L : List (Price × List Cell)) (hset : ∀ e ∈ L, e.2 ≠ [])
      (hhalt : s.rep.stpHalted = false) (hcross : Lob.crosses k.side k.limit p = true) :
      Standing k ref s (.inner p (ref p)) ((p, qs) :: L)
  | leave (p : Price) (qs : List Cell) (L : List (Price × List Cell)) (hset : ∀ e ∈ L, e.2 ≠ [])
      (hstop : qs = [] ∨ s.left = 0 ∨ s.rep.stpHalted = true) :
      Standing k ref s (.leave p (ref p)) ((p, qs) :: L)
  | done (L : List (Price × List Cell)) (hset : ∀ e ∈ L, e.2 ≠ [])
      (hstop : k.turn (ordersOf L) s = none) : Standing k ref s .done L

/-- What is left to enter, consume and leave. -/
def rank (ctl : Ctl) (L : List (Price × List Cell)) (s : Progress) : Nat :=
  match ctl with
  | .done => 0
  | .outer => if s.left = 0 then 1 else 4 * L.length + (cellsIn L).length + 1
  | .inner _ _ => if s.left = 0 then 3 else 4 * L.length + (cellsIn L).length
  | .leave _ _ =>
    if s.left = 0 ∨ s.rep.stpHalted = true then 2
    else 4 * L.length + (cellsIn L).length - 2

/-- The loop's state is coupled to a layout, and stands where the layout allows. -/
structure Walking (limit : Option Price) (m : Matching) (Q : Layout) (free : List SlotIndex) :
    Prop where
  linked : m.book.Linked Q free
  live : Live Q
  near : ∀ e ∈ Q m.incoming.side, e.2 ≠ []
  standing : Standing (m.taker limit) (m.book.ladder m.far).refOf m.progress m.ctl (Q m.far)

/-- What one step of the loop does: it keeps the near side, the windows, the ring's accounts, and is
silent or one turn of the walk. -/
structure Stepped (limit : Option Price) (m : Matching) (Q : Layout) (m' : Matching) (Q' : Layout) :
    Prop where
  side : m'.incoming.side = m.incoming.side
  near : Q' m.incoming.side = Q m.incoming.side
  order : { m'.incoming with qty := m.incoming.qty } = m.incoming
  policy : m'.book.policy = m.book.policy
  window : ∀ s, PriceLadder.SameWindow (m.book.ladder s) (m'.book.ladder s)
  opens : ∀ s, (m'.book.ladder s).outsideOpens = (m.book.ladder s).outsideOpens
  ring : ∀ capacity popped emitted,
    m.book.tradeOut.Accounts capacity popped (emitted ++ emissions m.events) →
    m'.book.tradeOut.Accounts capacity popped (emitted ++ emissions m'.events)
  rank : rank m'.ctl (Q' m.far) m'.progress < rank m.ctl (Q m.far) m.progress
  advance : (ordersOf (Q' m.far) = ordersOf (Q m.far) ∧ m'.progress = m.progress
      ∧ m'.events = m.events) ∨
    ((∀ e ∈ Q m.far, e.2 ≠ []) ∧ (m.taker limit).turn (ordersOf (Q m.far)) m.progress
      = some (ordersOf (Q' m.far), m'.progress))

variable {limit : Option Price} {m : Matching} {Q : Layout} {free : List SlotIndex}

/-- A step that only moves the loop to another place. -/
theorem stepped_move {ctl : Ctl}
    (hrank : Matching.rank ctl (Q m.far) m.progress < Matching.rank m.ctl (Q m.far) m.progress) :
    Stepped limit m Q { m with ctl := ctl } Q :=
  ⟨rfl, rfl, rfl, rfl, fun _ => PriceLadder.SameWindow.refl _, fun _ => rfl, fun _ _ _ h => h, hrank,
    Or.inl ⟨rfl, rfl, rfl⟩⟩

theorem Walking.move (h : Walking limit m Q free) {ctl : Ctl}
    (hstanding : Standing (m.taker limit) (m.book.ladder m.far).refOf m.progress ctl (Q m.far)) :
    Walking limit { m with ctl := ctl } Q free :=
  ⟨h.linked, h.live, h.near, hstanding⟩

/-- The best level of the far side, when none of its levels is empty. -/
theorem Walking.best (h : Walking limit m Q free) :
    (m.book.ladder m.far).best
      = (Q m.far).head?.map fun e => (e.1, (m.book.ladder m.far).refOf e.1) := by
  rw [(h.linked.ladder m.far).best_eq, levelsOf, List.head?_map, Option.map_map]
  rfl

/-- **The outer loop's test.** -/
theorem Walking.step_outer (h : Walking limit m Q free) (hctl : m.ctl = .outer) :
    ∃ m', m.step limit = some m' ∧ Walking limit m' Q free ∧ Stepped limit m Q m' Q := by
  have hst := h.standing
  rw [hctl] at hst
  obtain ⟨-, hset, hhalt⟩ := hst
  have hrank : ∀ ctl, Matching.rank ctl (Q m.far) m.progress
      < Matching.rank m.ctl (Q m.far) m.progress → Stepped limit m Q { m with ctl := ctl } Q :=
    fun _ => stepped_move
  rw [hctl] at hrank
  have hdone : Matching.rank .done (Q m.far) m.progress
      < Matching.rank .outer (Q m.far) m.progress := by
    simp only [Matching.rank]
    split <;> omega
  unfold Matching.step
  rw [hctl]
  simp only
  by_cases hleft : 0 < m.incoming.qty
  · have hne : m.progress.left ≠ 0 := by
      rintro h0
      have : m.incoming.qty = 0 := h0
      rw [this] at hleft
      exact absurd hleft (by decide)
    rw [if_pos hleft, h.best]
    cases hQ : Q m.far with
    | nil =>
      refine ⟨_, rfl, h.move (.done _ hset (turn_eq_none.mpr ?_)), hrank _ hdone⟩
      rw [hQ]
      exact Or.inr (Or.inr (by simp [ordersOf]))
    | cons e L =>
      simp only [List.head?_cons, Option.map_some]
      rw [hQ] at hset
      by_cases hcross : Lob.crosses m.incoming.side limit e.1 = true
      · rw [if_pos hcross]
        refine ⟨_, rfl, h.move ?_, hrank _ ?_⟩
        · rw [hQ]
          exact .inner e.1 e.2 L (fun e' he' => hset e' (by simp [he'])) hhalt hcross
        · simp only [Matching.rank, if_neg hne]
          omega
      · rw [if_neg hcross]
        refine ⟨_, rfl, h.move (.done _ (by rw [hQ]; exact hset) (turn_eq_none.mpr ?_)),
          hrank _ hdone⟩
        refine Or.inr (Or.inr fun o ho => ?_)
        rw [hQ] at ho
        -- the head of the far side rests at the best level's price
        obtain ⟨c, cs, hcs⟩ := List.exists_cons_of_ne_nil (hset e (by simp))
        have hco : c.2 = o := by simpa [ordersOf, hcs] using ho
        have hprice : c.2.price = e.1 :=
          (h.linked.queue m.far e (by rw [hQ]; simp)).price c (by rw [hcs]; simp)
        rw [← hco, Taker.crosses, hprice]
        exact Bool.eq_false_iff.mpr hcross
  · have hzero : m.progress.left = 0 := by
      have hn : ¬ 0 < m.incoming.qty.toNat := fun hlt => hleft (UInt32.lt_iff_toNat_lt.mpr hlt)
      exact UInt32.toNat_inj.mp (by
        show m.incoming.qty.toNat = 0
        omega)
    rw [if_neg hleft]
    exact ⟨_, rfl, h.move (.done _ hset (turn_eq_none.mpr (Or.inl hzero))), hrank _ hdone⟩

/-- A step that edits the far side's queues without a turn of the walk. -/
theorem Walking.stepped_silent {b' : OrderBook} (hkept : Kept m.book b') {ctl : Ctl}
    {L : List (Price × List Cell)} (horders : ordersOf L = ordersOf (Q m.far))
    (hrank : Matching.rank ctl L m.progress < Matching.rank m.ctl (Q m.far) m.progress) :
    Stepped limit m Q { m with book := b', ctl := ctl } (setQueue Q m.far L) := by
  have hprogress : ({ m with book := b', ctl := ctl } : Matching).progress = m.progress := by
    simp only [progress, hkept.nextSeq]
  refine ⟨rfl, ?_, rfl, hkept.policy, hkept.window, hkept.opens, fun capacity popped emitted h => ?_, ?_,
    Or.inl ⟨?_, hprogress, rfl⟩⟩
  · have hopp : m.far.opposite = m.incoming.side := Side.opposite_opposite _
    rw [← hopp, setQueue_opposite]
  · show b'.tradeOut.Accounts capacity popped _
    rw [hkept.tradeOut]
    exact h
  · rw [hprogress, setQueue_self]
    exact hrank
  · rw [setQueue_self]
    exact horders

theorem refOf_kept {b b' : OrderBook} (hkept : Kept b b') (s : Side) :
    (b'.ladder s).refOf = (b.ladder s).refOf :=
  funext fun p => (hkept.window s).refOf p

section Leave

variable {p : Price} {ref : LevelRef} {qs : List Cell} {L : List (Price × List Cell)}

/-- The best level, where the loop stands past the inner one. -/
theorem Walking.leaving (h : Walking limit m Q free) (hctl : m.ctl = .leave p ref) :
    ∃ qs L, Q m.far = (p, qs) :: L ∧ ref = (m.book.ladder m.far).refOf p ∧ (∀ e ∈ L, e.2 ≠ [])
      ∧ (qs = [] ∨ m.progress.left = 0 ∨ m.rep.stpHalted = true) := by
  have hst := h.standing
  rw [hctl] at hst
  generalize hL : Q m.far = L at hst
  cases hst with
  | leave p qs L hset hstop => exact ⟨qs, L, rfl, rfl, hset, hstop⟩

theorem Walking.far_empty (h : Walking limit m Q free) (hL : Q m.far = (p, qs) :: L) :
    ((m.book.ladder m.far).deref ((m.book.ladder m.far).refOf p)).empty = qs.isEmpty := by
  have hsplit : Q m.far = [] ++ (p, qs) :: L := hL
  rw [h.linked.deref hsplit]
  exact h.linked.level_empty (e := (p, qs)) (by rw [hL]; simp)

/-- The rank falls when the loop ends past the inner one. -/
theorem rank_leave (hctl : m.ctl = .leave p ref) (hL : Q m.far = (p, qs) :: L)
    (L' : List (Price × List Cell)) :
    Matching.rank .done L' m.progress < Matching.rank m.ctl (Q m.far) m.progress := by
  rw [hctl, hL]
  simp only [Matching.rank, List.length_cons]
  split <;> omega

/-- **An emptied level is closed**, and the loop ends or starts over. -/
theorem Walking.leave_empty (h : Walking limit m Q free)
    (hctl : m.ctl = .leave p ((m.book.ladder m.far).refOf p)) (hL : Q m.far = (p, []) :: L)
    (hset : ∀ e ∈ L, e.2 ≠ []) :
    ∃ b', m.book.closeAt m.far p = some b' ∧
      let m' := { m with book := b', ctl := if m.rep.stpHalted then .done else .outer }
      m.step limit = some m' ∧ Walking limit m' (setQueue Q m.far L) free
        ∧ Stepped limit m Q m' (setQueue Q m.far L) := by
  have hsplit : Q m.far = [] ++ (p, []) :: L := hL
  obtain ⟨b', hclose, hlinked, hkept⟩ := h.linked.closeAt hsplit hset
  rw [List.nil_append] at hlinked
  refine ⟨b', hclose, ?_⟩
  intro m'
  have hstep : m.step limit = some m' := by
    unfold Matching.step
    rw [hctl]
    simp only [h.far_empty hL, List.isEmpty_nil, if_true, hclose, Option.map_some]
    rfl
  have horders : ordersOf L = ordersOf (Q m.far) := by rw [hL]; rfl
  have hlive : Live (setQueue Q m.far L) := by
    intro t c hc
    rcases Side.eq_or_eq_opposite m.far t with heq | heq
    · rw [heq, setQueue_self] at hc
      exact h.live m.far c (by rw [hL]; exact hc)
    · rw [heq, setQueue_opposite] at hc
      exact h.live _ c hc
  have hopp : m.far.opposite = m.incoming.side := Side.opposite_opposite _
  have hnear : ∀ e ∈ setQueue Q m.far L m.incoming.side, e.2 ≠ [] := by
    rw [← hopp, setQueue_opposite, hopp]
    exact h.near
  have hfarset : ∀ e ∈ setQueue Q m.far L m.far, e.2 ≠ [] := by
    rw [setQueue_self]
    exact hset
  have hprogress : m'.progress = m.progress := by
    simp only [m', progress, hkept.nextSeq]
  refine ⟨hstep, ⟨hlinked, hlive, hnear, ?_⟩, stepped_silent hkept horders ?_⟩
  · rw [hprogress]
    show Standing _ _ _ (if m.rep.stpHalted then Ctl.done else Ctl.outer) _
    -- a halted call ends here, any other looks for the next best level
    split
    · rename_i hhalt
      exact .done _ hfarset (turn_eq_none.mpr (Or.inr (Or.inl hhalt)))
    · rename_i hhalt
      exact .outer _ hfarset (Bool.eq_false_iff.mpr hhalt)
  · split
    · exact rank_leave hctl hL _
    · rename_i hhalt
      have hhalt' : ¬ m.progress.rep.stpHalted = true := hhalt
      rw [hctl, hL]
      simp only [Matching.rank, List.length_cons, cellsIn_cons, List.nil_append, hhalt',
        Bool.false_eq_true, or_false]
      split <;> omega

/-- **A level that still holds orders is left standing**, and the loop ends or starts over. -/
theorem Walking.leave_full (h : Walking limit m Q free)
    (hctl : m.ctl = .leave p ((m.book.ladder m.far).refOf p)) (hL : Q m.far = (p, qs) :: L)
    (hset : ∀ e ∈ L, e.2 ≠ []) (hqs : qs ≠ []) (hstop : m.progress.left = 0 ∨ m.rep.stpHalted = true) :
    let m' := { m with ctl := if m.rep.stpHalted then .done else .outer }
    m.step limit = some m' ∧ Walking limit m' Q free ∧ Stepped limit m Q m' Q := by
  intro m'
  have hstep : m.step limit = some m' := by
    unfold Matching.step
    rw [hctl]
    have hnot : qs.isEmpty = false := by simpa using hqs
    simp only [h.far_empty hL, hnot, Bool.false_eq_true, if_false]
    rfl
  have hall : ∀ e ∈ Q m.far, e.2 ≠ [] := by
    rw [hL]
    intro e he
    rcases List.mem_cons.mp he with rfl | he
    · exact hqs
    · exact hset e he
  refine ⟨hstep, h.move ?_, stepped_move ?_⟩
  · split
    · rename_i hhalt
      exact .done _ hall (turn_eq_none.mpr (Or.inr (Or.inl hhalt)))
    · rename_i hhalt
      exact .outer _ hall (Bool.eq_false_iff.mpr hhalt)
  · split
    · exact rank_leave hctl hL _
    · rename_i hhalt
      have hleft : m.progress.left = 0 := hstop.resolve_right hhalt
      rw [hctl, hL]
      simp only [Matching.rank, hleft, if_true, true_or]
      omega

/-- **Past the inner loop**: an emptied level is closed, and the loop ends or starts over. -/
theorem Walking.step_leave (h : Walking limit m Q free) (hctl : m.ctl = .leave p ref) :
    ∃ m' Q', m.step limit = some m' ∧ Walking limit m' Q' free ∧ Stepped limit m Q m' Q' := by
  obtain ⟨qs, L, hL, rfl, hset, hstop⟩ := h.leaving hctl
  by_cases hqs : qs = []
  · subst hqs
    obtain ⟨b', -, hstep, hw, hs⟩ := h.leave_empty hctl hL hset
    exact ⟨_, _, hstep, hw, hs⟩
  · obtain ⟨hstep, hw, hs⟩ := h.leave_full hctl hL hset hqs (hstop.resolve_left hqs)
    exact ⟨_, _, hstep, hw, hs⟩

end Leave

/-! ## The inner loop -/

/-- What the drop of a queued order leaves, for the parts of a walk that are not the far queue. -/
theorem Walking.after_edit (h : Walking limit m Q free) {p : Price} {L : List (Price × List Cell)}
    {qs : List Cell} (hL : Q m.far = (p, qs) :: L) (qs' : List Cell)
    (hlive : ∀ c ∈ qs', 0 < c.2.qty) :
    Live (setQueue Q m.far ((p, qs') :: L))
      ∧ ∀ e ∈ setQueue Q m.far ((p, qs') :: L) m.incoming.side, e.2 ≠ [] := by
  have hopp : m.far.opposite = m.incoming.side := Side.opposite_opposite _
  refine ⟨fun t c hc => ?_, ?_⟩
  · rcases Side.eq_or_eq_opposite m.far t with heq | heq
    · rw [heq, setQueue_self, cellsIn_cons] at hc
      rcases List.mem_append.mp hc with hc | hc
      · exact hlive c hc
      · exact h.live m.far c (by rw [hL, cellsIn_cons]; exact List.mem_append_right _ hc)
    · rw [heq, setQueue_opposite] at hc
      exact h.live _ c hc
  · rw [← hopp, setQueue_opposite, hopp]
    exact h.near

/-- The head of the far queue, where the inner loop stands. -/
structure AtHead (limit : Option Price) (m : Matching) (Q : Layout) (p : Price) (slot : SlotIndex)
    (o : RestingOrder) (cs : List Cell) (L : List (Price × List Cell)) : Prop where
  ctl : m.ctl = .inner p ((m.book.ladder m.far).refOf p)
  far : Q m.far = (p, (slot, o) :: cs) :: L
  set : ∀ e ∈ L, e.2 ≠ []
  halt : m.rep.stpHalted = false
  cross : Lob.crosses m.incoming.side limit p = true
  left : m.progress.left ≠ 0
  price : o.price = p
  value : (m.book.pool.slots slot).value = o

section AtHead

variable {p : Price} {slot : SlotIndex} {o : RestingOrder} {cs : List Cell}
  {L : List (Price × List Cell)}

theorem AtHead.split (ha : AtHead limit m Q p slot o cs L) :
    Q m.far = [] ++ (p, [] ++ (slot, o) :: cs) :: L := ha.far

theorem AtHead.orders (ha : AtHead limit m Q p slot o cs L) :
    ordersOf (Q m.far) = o :: ordersOf ((p, cs) :: L) := by
  rw [ha.far]
  rfl

theorem AtHead.settled (ha : AtHead limit m Q p slot o cs L) : ∀ e ∈ Q m.far, e.2 ≠ [] := by
  rw [ha.far]
  intro e he
  rcases List.mem_cons.mp he with rfl | he
  · simp
  · exact ha.set e he

theorem AtHead.goes (ha : AtHead limit m Q p slot o cs L) :
    ¬ (m.taker limit).stops o m.progress = true := by
  have hcross : (m.taker limit).crosses o = true := by
    rw [Taker.crosses, ha.price]
    exact ha.cross
  have hhalt : m.progress.rep.stpHalted = false := ha.halt
  simp [Taker.stops, ha.left, hhalt, hcross]

theorem AtHead.rank_pos (ha : AtHead limit m Q p slot o cs L) :
    Matching.rank m.ctl (Q m.far) m.progress
      = 4 * (L.length + 1) + (cs.length + 1 + (cellsIn L).length) := by
  rw [ha.ctl, ha.far]
  simp only [Matching.rank, if_neg ha.left, List.length_cons, cellsIn_cons, List.length_append]

/-- **A halting turn.** The book is left untouched. -/
theorem AtHead.halt_turn (ha : AtHead limit m Q p slot o cs L) (h : Walking limit m Q free)
    (hself : (m.taker limit).selfTrade o = true) (hpolicy : m.book.policy = .cancelIncoming) :
    let m' := { m with rep := { m.rep with stpHalted := true },
                       ctl := .leave p ((m.book.ladder m.far).refOf p) }
    Walking limit m' Q free ∧ Stepped limit m Q m' Q := by
  intro m'
  have hturn : (m.taker limit).turn (ordersOf (Q m.far)) m.progress
      = some (ordersOf (Q m.far), m'.progress) := by
    have hk : (m.taker limit).policy = .cancelIncoming := hpolicy
    rw [ha.orders, Taker.turn, if_neg ha.goes, if_pos hself, if_pos hk]
    rfl
  refine ⟨⟨h.linked, h.live, h.near, ?_⟩, rfl, rfl, rfl, rfl,
    fun _ => PriceLadder.SameWindow.refl _, fun _ => rfl, fun _ _ _ hr => hr, ?_, Or.inr ⟨ha.settled, hturn⟩⟩
  · show Standing (m.taker limit) _ _ _ (Q m.far)
    rw [ha.far]
    exact .leave p _ L ha.set (Or.inr (Or.inr rfl))
  · rw [ha.rank_pos]
    simp only [Matching.rank, m', progress, or_true, if_true]
    omega

/-- **A cancelling turn.** The head of the far queue is dropped without a trade. -/
theorem AtHead.cancel_turn (ha : AtHead limit m Q p slot o cs L) (h : Walking limit m Q free)
    (hself : (m.taker limit).selfTrade o = true) (hpolicy : m.book.policy ≠ .cancelIncoming) :
    ∃ b', m.book.drop m.far ((m.book.ladder m.far).refOf p) slot = some b' ∧
      let m' := { m with
        book := b'
        rep := { m.rep with stpCancelled := m.rep.stpCancelled + o.qty.toUInt64 }
        events := m.record (.stpCancel o) }
      Walking limit m' (setQueue Q m.far ((p, cs) :: L)) (slot :: free)
        ∧ Stepped limit m Q m' (setQueue Q m.far ((p, cs) :: L)) := by
  obtain ⟨b', hdrop, hlinked, hkept⟩ := h.linked.drop ha.split
  refine ⟨b', hdrop, ?_⟩
  intro m'
  have hopp : m.far.opposite = m.incoming.side := Side.opposite_opposite _
  have hprogress : m'.progress = Taker.cancelled o m.progress := by
    simp only [m', progress, Taker.cancelled, hkept.nextSeq, record, List.map_append]
    rfl
  have hturn : (m.taker limit).turn (ordersOf (Q m.far)) m.progress
      = some (ordersOf ((p, cs) :: L), m'.progress) := by
    have hk : ¬ (m.taker limit).policy = .cancelIncoming := hpolicy
    rw [ha.orders, Taker.turn, if_neg ha.goes, if_pos hself, if_neg hk, hprogress]
  obtain ⟨hlive, hnear⟩ := h.after_edit ha.far cs fun c hc =>
    h.live m.far c (by rw [ha.far]; simp [hc])
  have htaker : m'.taker limit = m.taker limit := by
    simp only [m', taker, hkept.policy]
  have hfar : setQueue Q m.far ((p, cs) :: L) m'.far = (p, cs) :: L := setQueue_self ..
  refine ⟨⟨hlinked, hlive, hnear, ?_⟩, rfl, ?_, rfl, hkept.policy, hkept.window, hkept.opens,
    fun capacity popped emitted hr => ?_, ?_, Or.inr ⟨ha.settled, ?_⟩⟩
  · rw [htaker, hfar]
    show Standing _ (b'.ladder m.far).refOf _ m.ctl _
    rw [refOf_kept hkept, ha.ctl]
    exact .inner p cs L ha.set ha.halt ha.cross
  · rw [← hopp, setQueue_opposite]
  · have hem : emissions m'.events = emissions m.events := by
      simp [m', emissions, record]
    show b'.tradeOut.Accounts capacity popped (emitted ++ emissions m'.events)
    rw [hem, hkept.tradeOut]
    exact hr
  · rw [ha.rank_pos, setQueue_self]
    have hleft : ¬ m'.progress.left = 0 := ha.left
    show Matching.rank m.ctl _ _ < _
    rw [ha.ctl]
    simp only [Matching.rank, if_neg hleft, List.length_cons, cellsIn_cons, List.length_append]
    omega
  · rw [setQueue_self]
    exact hturn

/-- The trade of a turn, before an order it consumed is dropped. -/
theorem AtHead.fill_spec (ha : AtHead limit m Q p slot o cs L) (h : Walking limit m Q free) :
    let m₁ := m.fill p ((m.book.ladder m.far).refOf p) slot
    m₁.book.Linked (setQueue Q m.far ((p, (slot, Taker.rest o m.progress) :: cs) :: L)) free
      ∧ m₁.progress = (m.taker limit).filled o m.progress
      ∧ (∀ s, PriceLadder.SameWindow (m.book.ladder s) (m₁.book.ladder s))
      ∧ (∀ s, (m₁.book.ladder s).outsideOpens = (m.book.ladder s).outsideOpens)
      ∧ m₁.book.policy = m.book.policy
      ∧ (∀ capacity popped emitted,
        m.book.tradeOut.Accounts capacity popped (emitted ++ emissions m.events) →
        m₁.book.tradeOut.Accounts capacity popped (emitted ++ emissions m₁.events))
      ∧ (m₁.book.pool.slots slot).value = Taker.rest o m.progress := by
  intro m₁
  have hle : min m.incoming.qty o.qty ≤ o.qty := by
    rw [UInt32.le_iff_toNat_le, min_toNat]
    exact Nat.min_le_right _ _
  let b₁ : OrderBook := { m.book with
    pool := m.book.pool.write slot fun x => { x with value := { x.value with
      qty := x.value.qty - min m.incoming.qty o.qty } }
    nextSeq := m.book.nextSeq + 1
    tradeOut := (m.book.tradeOut.push
      ⟨m.book.nextSeq, o.id, m.incoming.id, p, min m.incoming.qty o.qty, m.incoming.side⟩).2 }
  have hladders : ∀ t, b₁.ladder t = m.book.ladder t := fun t => by cases t <;> rfl
  have hlinked := h.linked.reduce ha.split hle hladders rfl rfl
  -- the level is rewritten last: the slot, the counter and the ring are in `b₁` already
  have hbook : m₁.book = b₁.setLadder m.far ((m.book.ladder m.far).store
      ((m.book.ladder m.far).refOf p) { levelOf ([] ++ (slot, o) :: cs) with
        totalQty := (levelOf ([] ++ (slot, o) :: cs)).totalQty
          - (min m.incoming.qty o.qty).toUInt64 }) := by
    have hderef := h.linked.deref ha.split
    simp only [m₁, Matching.fill, hderef, ha.value]
    rfl
  have hseq : m₁.book.nextSeq = m.book.nextSeq + 1 := by rw [hbook, setLadder_nextSeq]
  refine ⟨by rw [hbook]; exact hlinked, ?_, ?_, ?_, by rw [hbook, setLadder_policy], ?_, ?_⟩
  · simp only [progress, hseq]
    simp only [m₁, Matching.fill, ha.value, record, List.map_append, Taker.filled, Taker.trade,
      ha.price]
    rfl
  · intro t
    rw [hbook]
    rcases Side.eq_or_eq_opposite m.far t with heq | heq
    · rw [heq, ladder_setLadder]
      exact PriceLadder.sameWindow_store _ _ _
    · rw [heq, ladder_setLadder_opposite, hladders]
      exact PriceLadder.SameWindow.refl _
  · intro t
    rw [hbook]
    rcases Side.eq_or_eq_opposite m.far t with heq | heq
    · rw [heq, ladder_setLadder]
      cases (m.book.ladder m.far).refOf p <;> rfl
    · rw [heq, ladder_setLadder_opposite, hladders]
  · intro capacity popped emitted hr
    have hpush := hr.push
      ⟨m.book.nextSeq, o.id, m.incoming.id, p, min m.incoming.qty o.qty, m.incoming.side⟩
    have hem : emissions m₁.events = emissions m.events
        ++ [(⟨m.book.nextSeq, o.id, m.incoming.id, p, min m.incoming.qty o.qty,
          m.incoming.side⟩, m.book.tradeOut.size)] := by
      simp [m₁, Matching.fill, emissions, record, ha.value]
    rw [hbook, setLadder_tradeOut, hem, ← List.append_assoc]
    exact hpush
  · rw [hbook, setLadder_pool]
    simp only [b₁, SlotPool.write, Function.update_self, ha.value]
    rfl

/-- What a trade leaves of the queue whose head it met. -/
def tradedCells (slot : SlotIndex) (o : RestingOrder) (cs : List Cell) (s : Progress) : List Cell :=
  if (Taker.rest o s).qty = 0 then cs else (slot, Taker.rest o s) :: cs

/-- The rank falls in a trade: the taker is exhausted or an order is gone. -/
theorem AtHead.rank_filled (ha : AtHead limit m Q p slot o cs L) (qs : List Cell)
    (hqs : ((m.taker limit).filled o m.progress).left = 0 ∨ qs.length = cs.length) :
    Matching.rank m.ctl ((p, qs) :: L) ((m.taker limit).filled o m.progress)
      < Matching.rank m.ctl (Q m.far) m.progress := by
  rw [ha.rank_pos, ha.ctl]
  simp only [Matching.rank, List.length_cons, cellsIn_cons, List.length_append]
  split
  · omega
  · rename_i hne
    rcases hqs with hzero | hlen
    · exact absurd hzero hne
    · omega

/-- An order that keeps something has taken all there was to take. -/
theorem filled_left_eq_zero {k : Taker} {s : Progress} (hrest : ¬ (Taker.rest o s).qty = 0) :
    (k.filled o s).left = 0 := by
  rw [Taker.rest_qty_eq_zero, UInt32.le_iff_toNat_le] at hrest
  apply UInt32.toNat_inj.mp
  rw [Taker.filled_left, UInt32.toNat_zero]
  omega

/-- **A trading turn.** The head of the far queue is reduced, and dropped once nothing is left. -/
theorem AtHead.trade_turn (ha : AtHead limit m Q p slot o cs L) (h : Walking limit m Q free)
    (hself : (m.taker limit).selfTrade o = false) :
    let m₁ := m.fill p ((m.book.ladder m.far).refOf p) slot
    let Q' := setQueue Q m.far ((p, tradedCells slot o cs m.progress) :: L)
    ∃ m' free', (if (m₁.book.pool.slots slot).value.qty = 0 then
        (m₁.book.drop m₁.far ((m.book.ladder m.far).refOf p) slot).map fun b => { m₁ with book := b }
      else some m₁) = some m' ∧ Walking limit m' Q' free' ∧ Stepped limit m Q m' Q' := by
  intro m₁ Q'
  obtain ⟨hlinked, hprogress, hwindow, hopens, hpolicy, hring, hvalue⟩ := ha.fill_spec h
  have hopp : m.far.opposite = m.incoming.side := Side.opposite_opposite _
  have hfar₁ : m₁.far = m.far := rfl
  have hctl₁ : m₁.ctl = m.ctl := rfl
  have href₁ : (m₁.book.ladder m.far).refOf = (m.book.ladder m.far).refOf :=
    funext fun q => (hwindow m.far).refOf q
  have hhalt : ((m.taker limit).filled o m.progress).rep.stpHalted = false := ha.halt
  rw [hvalue]
  by_cases hzero : (Taker.rest o m.progress).qty = 0
  · have hQ : Q' = setQueue Q m.far ((p, cs) :: L) := by
      simp only [Q', tradedCells, if_pos hzero]
    -- the resting order is used up: a reduced cell without quantity is dropped
    rw [if_pos hzero, hQ]
    have hsplit₁ : setQueue Q m.far ((p, (slot, Taker.rest o m.progress) :: cs) :: L) m.far
        = [] ++ (p, [] ++ (slot, Taker.rest o m.progress) :: cs) :: L := setQueue_self ..
    obtain ⟨b', hdrop, hlinked', hkept⟩ := hlinked.drop hsplit₁
    rw [href₁] at hdrop
    have hQ' : setQueue (setQueue Q m.far ((p, (slot, Taker.rest o m.progress) :: cs) :: L)) m.far
        ([] ++ (p, [] ++ cs) :: L) = setQueue Q m.far ((p, cs) :: L) := Function.update_idem ..
    rw [hQ'] at hlinked'
    let m₂ : Matching := { m₁ with book := b' }
    have hprogress₂ : m₂.progress = (m.taker limit).filled o m.progress := by
      rw [← hprogress]
      simp only [m₂, progress, hkept.nextSeq]
      rfl
    have htaker₂ : m₂.taker limit = m.taker limit := by
      simp only [m₂, taker, hkept.policy, hpolicy]
      rfl
    obtain ⟨hlive, hnear⟩ := h.after_edit ha.far cs fun c hc =>
      h.live m.far c (by rw [ha.far]; simp [hc])
    have hfar₂ : setQueue Q m.far ((p, cs) :: L) m₂.far = (p, cs) :: L := setQueue_self ..
    refine ⟨m₂, _, by rw [hfar₁, hdrop]; rfl, ⟨hlinked', hlive, hnear, ?_⟩, rfl, ?_, rfl, ?_,
      fun s => (hwindow s).trans (hkept.window s), fun s => (hkept.opens s).trans (hopens s),
      fun capacity popped emitted hr => ?_, ?_, Or.inr ⟨ha.settled, ?_⟩⟩
    · rw [htaker₂, hfar₂, hprogress₂]
      show Standing _ (b'.ladder m.far).refOf _ m.ctl _
      rw [refOf_kept hkept, href₁, ha.ctl]
      exact .inner p cs L ha.set hhalt ha.cross
    · rw [← hopp, setQueue_opposite]
    · rw [← hpolicy]
      exact hkept.policy
    · show b'.tradeOut.Accounts capacity popped (emitted ++ emissions m₁.events)
      rw [hkept.tradeOut]
      exact hring capacity popped emitted hr
    · rw [hprogress₂, setQueue_self]
      exact ha.rank_filled cs (Or.inr rfl)
    · rw [hprogress₂, setQueue_self, ha.orders, Taker.turn, if_neg ha.goes,
        if_neg (by simp [hself]), if_pos hzero]
  · have hQ : Q' = setQueue Q m.far ((p, (slot, Taker.rest o m.progress) :: cs) :: L) := by
      simp only [Q', tradedCells, if_neg hzero]
    -- it keeps something, so the taker is exhausted and the head stays
    rw [if_neg hzero, hQ]
    have htaker₁ : m₁.taker limit = m.taker limit := by
      show Taker.mk m₁.book.policy _ _ _ _ = _
      rw [show m₁.book.policy = m.book.policy from hpolicy]
      rfl
    obtain ⟨hlive, hnear⟩ := h.after_edit ha.far
      ((slot, Taker.rest o m.progress) :: cs) fun c hc => by
        rcases List.mem_cons.mp hc with rfl | hc
        · rw [UInt32.lt_iff_toNat_lt, UInt32.toNat_zero, Nat.pos_iff_ne_zero]
          exact fun h0 => hzero (UInt32.toNat_inj.mp h0)
        · exact h.live m.far c (by rw [ha.far]; simp [hc])
    have hfarQ : setQueue Q m.far ((p, (slot, Taker.rest o m.progress) :: cs) :: L) m₁.far
        = (p, (slot, Taker.rest o m.progress) :: cs) :: L := setQueue_self ..
    refine ⟨m₁, free, rfl, ⟨hlinked, hlive, hnear, ?_⟩, rfl, ?_, rfl, hpolicy, hwindow, hopens,
      hring, ?_, Or.inr ⟨ha.settled, ?_⟩⟩
    · rw [htaker₁, hfarQ, hprogress]
      show Standing _ (m₁.book.ladder m.far).refOf _ m.ctl _
      rw [href₁, ha.ctl]
      exact .inner p _ L ha.set hhalt ha.cross
    · rw [← hopp, setQueue_opposite]
    · rw [hprogress, setQueue_self]
      exact ha.rank_filled _ (Or.inl (filled_left_eq_zero hzero))
    · rw [hprogress, setQueue_self, ha.orders, Taker.turn, if_neg ha.goes,
        if_neg (by simp [hself]), if_neg hzero]
      rfl

end AtHead

section Inner

variable {p : Price} {ref : LevelRef}

/-- The best level, where the inner loop stands. -/
theorem Walking.entered (h : Walking limit m Q free) (hctl : m.ctl = .inner p ref) :
    ∃ qs L, Q m.far = (p, qs) :: L ∧ ref = (m.book.ladder m.far).refOf p ∧ (∀ e ∈ L, e.2 ≠ [])
      ∧ m.rep.stpHalted = false ∧ Lob.crosses m.incoming.side limit p = true := by
  have hst := h.standing
  rw [hctl] at hst
  generalize hL : Q m.far = L at hst
  cases hst with
  | inner p qs L hset hhalt hcross => exact ⟨qs, L, rfl, rfl, hset, hhalt, hcross⟩

/-- Where the inner loop goes on, it is at the head of the far queue. -/
theorem Walking.atHead (h : Walking limit m Q free) (hctl : m.ctl = .inner p ref)
    (hgo : (decide (0 < m.incoming.qty) && !((m.book.ladder m.far).deref ref).empty) = true) :
    ∃ slot o cs L, AtHead limit m Q p slot o cs L ∧ ref = (m.book.ladder m.far).refOf p
      ∧ ((m.book.ladder m.far).deref ref).head = slot := by
  obtain ⟨qs, L, hL, rfl, hset, hhalt, hcross⟩ := h.entered hctl
  have hsplit : Q m.far = [] ++ (p, qs) :: L := hL
  rw [h.far_empty hL, Bool.and_eq_true, decide_eq_true_eq] at hgo
  obtain ⟨⟨slot, o⟩, cs, rfl⟩ := List.exists_cons_of_ne_nil (by simpa using hgo.2 : qs ≠ [])
  have hq := h.linked.queue m.far (p, (slot, o) :: cs) (by rw [hL]; simp)
  refine ⟨slot, o, cs, L, ⟨hctl, hL, hset, hhalt, hcross, fun h0 => ?_,
    hq.price (slot, o) (by simp), hq.value (slot, o) (by simp)⟩, rfl, ?_⟩
  · have hz : m.incoming.qty = 0 := h0
    rw [hz] at hgo
    exact absurd hgo.1 (by decide)
  · rw [h.linked.deref hsplit]
    rfl

/-- Where the inner loop does not go on, it is left. -/
theorem Walking.inner_stop (h : Walking limit m Q free) (hctl : m.ctl = .inner p ref)
    (hgo : ¬ (decide (0 < m.incoming.qty) && !((m.book.ladder m.far).deref ref).empty) = true) :
    let m' := { m with ctl := .leave p ref }
    m.step limit = some m' ∧ Walking limit m' Q free ∧ Stepped limit m Q m' Q := by
  intro m'
  obtain ⟨qs, L, hL, rfl, hset, hhalt, hcross⟩ := h.entered hctl
  have hstep : m.step limit = some m' := by
    unfold Matching.step
    rw [hctl]
    simp only
    rw [if_neg hgo]
  rw [h.far_empty hL] at hgo
  have hstop : qs = [] ∨ m.progress.left = 0 ∨ m.progress.rep.stpHalted = true := by
    by_cases hqs : qs = []
    · exact Or.inl hqs
    · refine Or.inr (Or.inl (UInt32.toNat_inj.mp ?_))
      have hn : ¬ 0 < m.incoming.qty.toNat := fun hlt => hgo (by
        simpa using ⟨UInt32.lt_iff_toNat_lt.mpr hlt, hqs⟩)
      show m.incoming.qty.toNat = 0
      omega
  refine ⟨hstep, h.move ?_, stepped_move ?_⟩
  · rw [hL]
    exact .leave p qs L hset hstop
  · rw [hctl, hL]
    have hhalt' : ¬ m.progress.rep.stpHalted = true := by
      show ¬ m.rep.stpHalted = true
      rw [hhalt]
      simp
    simp only [Matching.rank, List.length_cons, cellsIn_cons, List.length_append, hhalt',
      Bool.false_eq_true, or_false]
    split <;> omega

/-- **The inner loop's test and body.** -/
theorem Walking.step_inner (h : Walking limit m Q free) (hctl : m.ctl = .inner p ref) :
    ∃ m' Q' free', m.step limit = some m' ∧ Walking limit m' Q' free'
      ∧ Stepped limit m Q m' Q' := by
  by_cases hgo : (decide (0 < m.incoming.qty) && !((m.book.ladder m.far).deref ref).empty) = true
  · obtain ⟨slot, o, cs, L, ha, rfl, hhead⟩ := h.atHead hctl hgo
    have hself : (m.stpPossible && m.incoming.owner == o.owner) = (m.taker limit).selfTrade o := rfl
    unfold Matching.step
    rw [hctl]
    simp only
    rw [if_pos hgo, hhead, Matching.visit, ha.value, hself]
    by_cases hs : (m.taker limit).selfTrade o = true
    · rw [if_pos hs]
      by_cases hpolicy : m.book.policy = .cancelIncoming
      · rw [if_pos hpolicy]
        obtain ⟨hw, hstep⟩ := ha.halt_turn h hs hpolicy
        exact ⟨_, _, _, rfl, hw, hstep⟩
      · rw [if_neg hpolicy]
        obtain ⟨b', hdrop, hw, hstep⟩ := ha.cancel_turn h hs hpolicy
        rw [hdrop]
        exact ⟨_, _, _, rfl, hw, hstep⟩
    · rw [if_neg hs]
      obtain ⟨m', free', hstep, hw, hs⟩ := ha.trade_turn h (by simpa using hs)
      exact ⟨m', _, free', hstep, hw, hs⟩
  · obtain ⟨hstep, hw, hs⟩ := h.inner_stop hctl hgo
    exact ⟨_, _, _, hstep, hw, hs⟩

end Inner

/-- **The step lemma of the matching loop.** -/
theorem Walking.step (h : Walking limit m Q free) (hctl : m.ctl ≠ .done) :
    ∃ m' Q' free', m.step limit = some m' ∧ Walking limit m' Q' free'
      ∧ Stepped limit m Q m' Q' := by
  cases hc : m.ctl with
  | outer =>
    obtain ⟨m', hstep, hw, hs⟩ := h.step_outer hc
    exact ⟨m', Q, free, hstep, hw, hs⟩
  | inner p ref => exact h.step_inner hc
  | leave p ref =>
    obtain ⟨m', Q', hstep, hw, hs⟩ := h.step_leave hc
    exact ⟨m', Q', free, hstep, hw, hs⟩
  | done => exact absurd hc hctl

/-! ## The whole loop -/

/-- What holds between the start of the loop and any state it passes through. -/
structure Since (limit : Option Price) (m₀ : Matching) (Q₀ : Layout) (m : Matching) (Q : Layout) :
    Prop where
  side : m.incoming.side = m₀.incoming.side
  near : Q m₀.incoming.side = Q₀ m₀.incoming.side
  order : { m.incoming with qty := m₀.incoming.qty } = m₀.incoming
  policy : m.book.policy = m₀.book.policy
  window : ∀ s, PriceLadder.SameWindow (m₀.book.ladder s) (m.book.ladder s)
  opens : ∀ s, (m.book.ladder s).outsideOpens = (m₀.book.ladder s).outsideOpens
  ring : ∀ capacity popped emitted,
    m₀.book.tradeOut.Accounts capacity popped (emitted ++ emissions m₀.events) →
    m.book.tradeOut.Accounts capacity popped (emitted ++ emissions m.events)
  sweep : (m.taker limit).sweep (ordersOf (Q m.far)) m.progress
    = (m₀.taker limit).sweep (ordersOf (Q₀ m₀.far)) m₀.progress
  tags : (ordersOf (Q m.far)).map tag <:+ (ordersOf (Q₀ m₀.far)).map tag

theorem Since.refl (limit : Option Price) (m : Matching) (Q : Layout) : Since limit m Q m Q :=
  ⟨rfl, rfl, rfl, rfl, fun _ => PriceLadder.SameWindow.refl _, fun _ => rfl, fun _ _ _ h => h, rfl,
    List.suffix_refl _⟩

section Since

variable {m₀ m' : Matching} {Q₀ Q' : Layout}

theorem taker_eq {m₁ : Matching} (horder : { m₁.incoming with qty := m.incoming.qty } = m.incoming)
    (hpolicy : m₁.book.policy = m.book.policy) : m₁.taker limit = m.taker limit := by
  rw [taker, taker, hpolicy, ← horder]

theorem Since.taker (h : Since limit m₀ Q₀ m Q) : m.taker limit = m₀.taker limit :=
  taker_eq h.order h.policy

/-- **A step extends what has held since the start.** -/
theorem Since.step (h : Since limit m₀ Q₀ m Q) (hs : Stepped limit m Q m' Q') :
    Since limit m₀ Q₀ m' Q' := by
  have hfar : m'.far = m.far := by rw [far, far, hs.side]
  refine ⟨hs.side.trans h.side, ?_, ?_, hs.policy.trans h.policy,
    fun s => (h.window s).trans (hs.window s), fun s => (hs.opens s).trans (h.opens s),
    fun capacity popped emitted hr => hs.ring capacity popped emitted (h.ring capacity popped emitted hr), ?_, ?_⟩
  · rw [← h.side, hs.near, h.side, h.near]
  · rw [← h.order, ← hs.order]
  · rw [← h.sweep, taker_eq hs.order hs.policy, hfar]
    rcases hs.advance with ⟨horders, hprogress, -⟩ | ⟨-, hturn⟩
    · rw [horders, hprogress]
    · exact (sweep_turn hturn).symm
  · refine List.IsSuffix.trans ?_ h.tags
    rw [hfar]
    rcases hs.advance with ⟨horders, -, -⟩ | ⟨-, hturn⟩
    · simp only [horders, List.suffix_refl]
    · exact turn_tags hturn

end Since

/-- The state a book call starts the loop in. -/
def start (b : OrderBook) (incoming : Order) : Matching := { book := b, incoming := incoming }

/-- Where a walk has come to, and how it got there. -/
def Walked (limit : Option Price) (m₀ : Matching) (Q₀ : Layout) (m : Matching) : Prop :=
  ∃ Q free, Walking limit m Q free ∧ Since limit m₀ Q₀ m Q

/-- **Every state the loop passes through is coupled to the walk.** -/
theorem Walked.reaches {m₀ m' : Matching} {Q₀ : Layout} (h : Walked limit m₀ Q₀ m)
    (hr : Reaches (Matching.step limit) m m') : Walked limit m₀ Q₀ m' := by
  refine hr.invariant h fun m m' ⟨Q, free, hw, hsince⟩ hstep => ?_
  by_cases hctl : m.ctl = .done
  · rw [Matching.step, hctl] at hstep
    obtain rfl := Option.some.inj hstep
    exact ⟨Q, free, hw, hsince⟩
  · obtain ⟨m₁, Q₁, free₁, hstep₁, hw₁, hs₁⟩ := hw.step hctl
    rw [hstep₁] at hstep
    obtain rfl := Option.some.inj hstep
    exact ⟨Q₁, free₁, hw₁, hsince.step hs₁⟩

end Matching

namespace OrderBook

open Matching

variable {b : OrderBook} {Q : Layout} {free : List SlotIndex}

theorem Linked.walking (h : b.Linked Q free) (hset : Settled Q) (hlive : Live Q)
    (incoming : Order) (limit : Option Price) : Walking limit (start b incoming) Q free :=
  ⟨h, hlive, hset _, .outer _ (hset _) rfl⟩

theorem Linked.walked (h : b.Linked Q free) (hset : Settled Q) (hlive : Live Q)
    (incoming : Order) (limit : Option Price) :
    Walked limit (start b incoming) Q (start b incoming) :=
  ⟨Q, free, h.walking hset hlive incoming limit, Since.refl ..⟩

/-- The levels of a settled side are no more than its orders. -/
theorem length_le_cells {L : List (Price × List Cell)} (hset : ∀ e ∈ L, e.2 ≠ []) :
    L.length ≤ (cellsIn L).length := by
  induction L with
  | nil => simp
  | cons e L ih =>
    have := ih fun e' he' => hset e' (by simp [he'])
    have hpos := List.length_pos_iff.mpr (hset e (by simp))
    simp only [List.length_cons, cellsIn_cons, List.length_append]
    omega

/-- **The matching loop ends, and ends where the walk does.** -/
theorem Linked.matched (h : b.Linked Q free) (hset : Settled Q) (hlive : Live Q)
    (incoming : Order) (limit : Option Price) :
    ∃ m Q' free', b.matchOpposite incoming limit = some m ∧ m.book.Linked Q' free'
      ∧ Settled Q' ∧ Live Q' ∧ Since limit (start b incoming) Q m Q'
      ∧ ((start b incoming).taker limit).sweep (ordersOf (Q incoming.side.opposite))
          ⟨incoming.qty, {}, b.nextSeq, []⟩ = (ordersOf (Q' incoming.side.opposite), m.progress) := by
  have hrun := runUntil_of_rank (fun m : Matching => m.ctl == .done) (Matching.step limit)
    (fun n m => ∃ Q' free', Walking limit m Q' free' ∧ Since limit (start b incoming) Q m Q'
      ∧ rank m.ctl (Q' m.far) m.progress = n)
    (fun n m ⟨Q₁, free₁, hw, hsince, hrank⟩ hdone => by
      obtain ⟨m', Q', free', hstep, hw', hs⟩ := hw.step (by simpa using hdone)
      have hfar : m'.far = m.far := by rw [far, far, hs.side]
      exact ⟨m', hstep, _, hrank ▸ hs.rank, Q', free', hw', hsince.step hs, by rw [hfar]⟩)
    (5 * b.pool.live + 2) _ (start b incoming)
    ⟨Q, free, h.walking hset hlive incoming limit, Since.refl .., rfl⟩ ?_
  · obtain ⟨m, hm, hdone, -, Q', free', hw, hsince, -⟩ := hrun
    have hctl : m.ctl = .done := by simpa using hdone
    have hfar : m.far = incoming.side.opposite := by rw [far, hsince.side]; rfl
    have hst := hw.standing
    rw [hctl] at hst
    generalize hL : Q' m.far = L at hst
    cases hst with
    | done _ hsetL hstop =>
    refine ⟨m, Q', free', hm, hw.linked, ?_, hw.live, hsince, ?_⟩
    · intro s e he
      rcases Side.eq_or_eq_opposite m.far s with rfl | rfl
      · exact hsetL e (hL ▸ he)
      · rw [far, Side.opposite_opposite] at he
        exact hw.near e he
    · have hsweep := hsince.sweep
      rw [hL, sweep_of_none hstop] at hsweep
      have hL' : Q' incoming.side.opposite = L := by rw [← hfar, hL]
      rw [hL']
      exact hsweep.symm
  · -- the loop has at most one level to enter and leave for each order
    have hlen := length_le_cells (hset incoming.side.opposite)
    have hcells : (cellsIn (Q incoming.side.opposite)).length ≤ b.pool.live := by
      rw [h.pool.count, List.length_map, (allCells_perm Q incoming.side.opposite).length_eq,
        List.length_append]
      omega
    show rank .outer (Q incoming.side.opposite) _ ≤ _
    simp only [rank]
    split <;> omega

end OrderBook

end Lob
