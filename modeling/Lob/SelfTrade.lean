/-
# Lob.SelfTrade — self-trade prevention over runs.

An order's owner is read off the history: the owner given to the last accepted add of its id, which a
modify does not change.  The invariant of a run is that every resting order carries that owner
(`Run.owned`), so what the walk compares is what the clients said.  `Walked` then reads the acts of a
call as steps on the front of the far side, each of which prevention allowed.
-/
import Lob.Ledger

namespace Lob

namespace OrderBook

/-! ## Owners -/

/-- The order an accepted add created, with its owner. -/
def Record.created (r : Record) : Option (OrderId × ParticipantId) :=
  match r.reply, r.call with
  | .report rep, .addLimit id owner _ _ _ => if rep.accepted then some (id, owner) else none
  | .report rep, .addMarket id owner _ _ => if rep.accepted then some (id, owner) else none
  | _, _ => none

/-- The owner given to the add that last created the id. -/
def ownerOf : List Record → OrderId → Option ParticipantId
  | [], _ => none
  | r :: past, id =>
    match r.created with
    | some (id', owner) => if id' = id then some owner else ownerOf past id
    | none => ownerOf past id

/-- Prevention applies between a taker's owner and a resting order. -/
def Prevents (policy : SelfTradePolicy) (owner : ParticipantId) (o : RestingOrder) : Prop :=
  policy ≠ .allow ∧ owner ≠ kAnonymous ∧ o.owner = owner

theorem prevents_iff {k : Taker} {o : RestingOrder} :
    k.selfTrade o = true ↔ Prevents k.policy k.owner o := by
  simp only [Taker.selfTrade, Bool.and_eq_true, decide_eq_true_eq, beq_iff_eq, Prevents, and_assoc]
  constructor
  · rintro ⟨hp, ho, he⟩
    exact ⟨hp, ho, he.symm⟩
  · rintro ⟨hp, ho, he⟩
    exact ⟨hp, ho, he.symm⟩

/-! ## Acts on the front of the far side -/

/-- Some acts took the far side from `far` to what is left: each fills or removes the order in front,
and prevention says which. -/
inductive Walked (prevents : RestingOrder → Prop) (far : List RestingOrder) :
    List Act → List RestingOrder → Prop
  | start : Walked prevents far [] far
  | fill {acts : List Act} {o : RestingOrder} {rest : List RestingOrder} (t : Trade)
      (hwalked : Walked prevents far acts (o :: rest)) (hself : ¬ prevents o)
      (hmaker : t.makerId = o.id) (hqty : t.qty ≤ o.qty) :
      Walked prevents far (acts ++ [.fill t])
        (if t.qty = o.qty then rest else { o with qty := o.qty - t.qty } :: rest)
  | remove {acts : List Act} {o : RestingOrder} {rest : List RestingOrder}
      (hwalked : Walked prevents far acts (o :: rest)) (hself : prevents o) :
      Walked prevents far (acts ++ [.stpCancel o]) rest

/-- **A walk acts on the front of the far side only**, as prevention says. -/
theorem sweep_walked (k : Taker) (far : List RestingOrder) (p : Progress) (hacts : p.acts = []) :
    Walked (Prevents k.policy k.owner) far (k.sweep far p).2.acts (k.sweep far p).1 := by
  refine (sweep_induction (P := fun far' p => Walked (Prevents k.policy k.owner) far p.acts far')
    (hacts ▸ .start) fun far₁ p₁ far₂ p₂ hP hturn => ?_).1
  obtain ⟨o, rest, rfl, -, -, -, ht⟩ := turn_cases hturn
  have hle : (k.trade o p₁).qty ≤ o.qty := by
    rw [UInt32.le_iff_toNat_le]
    show (min p₁.left o.qty).toNat ≤ _
    rw [min_toNat]
    exact Nat.min_le_right _ _
  have hwhole : (k.trade o p₁).qty = o.qty ↔ o.qty ≤ p₁.left := by
    show min p₁.left o.qty = o.qty ↔ _
    rw [← UInt32.toNat_inj, min_toNat, UInt32.le_iff_toNat_le]
    omega
  have hfill : k.selfTrade o = false → Walked (Prevents k.policy k.owner) far (k.filled o p₁).acts
      (if (k.trade o p₁).qty = o.qty then rest else Taker.rest o p₁ :: rest) := fun hself =>
    .fill (k.trade o p₁) hP (fun hp => by simp [prevents_iff.mpr hp] at hself) rfl hle
  cases ht with
  | halt _ _ => exact hP
  | cancel _ hself => exact .remove hP (prevents_iff.mp hself)
  | fill hself hall =>
    have hwalked := hfill hself
    rwa [if_pos (hwhole.mpr hall)] at hwalked
  | partFill hself hlt =>
    have hwalked := hfill hself
    have hno : ¬ o.qty ≤ p₁.left := by
      rw [UInt32.le_iff_toNat_le]
      rw [UInt32.lt_iff_toNat_lt] at hlt
      omega
    rwa [if_neg fun heq => hno (hwhole.mp heq)] at hwalked

/-- A halted walk leaves an untouched end of the far side, with the order that halted it in front. -/
theorem sweep_halted (k : Taker) (far : List RestingOrder) (p : Progress)
    (hhalt : p.rep.stpHalted = false) (h : (k.sweep far p).2.rep.stpHalted = true) :
    k.policy = .cancelIncoming ∧ (k.sweep far p).1 <:+ far
      ∧ ∃ o rest, (k.sweep far p).1 = o :: rest ∧ k.selfTrade o = true := by
  have hrun := @sweep_induction k far p
    (fun far' p' => (p'.left = 0 ∨ far' <:+ far) ∧ (p'.rep.stpHalted = true →
      k.policy = .cancelIncoming ∧ far' <:+ far ∧ ∃ o rest, far' = o :: rest ∧ k.selfTrade o = true))
    ⟨Or.inr (List.suffix_refl _), fun htrue => by simp [hhalt] at htrue⟩
    fun far₁ p₁ far₂ p₂ hP hturn => by
      obtain ⟨o, rest, rfl, hleft, hgoes, -, ht⟩ := turn_cases hturn
      have hsuf : (o :: rest) <:+ far := hP.1.resolve_left hleft
      have hrest : rest <:+ far := (List.suffix_cons o rest).trans hsuf
      -- only the halting turn sets the flag
      have hkeep : ∀ {P : Prop}, p₁.rep.stpHalted = true → P := fun htrue => by
        simp [hgoes] at htrue
      cases ht with
      | halt hpolicy hself => exact ⟨Or.inr hsuf, fun _ => ⟨hpolicy, hsuf, o, rest, rfl, hself⟩⟩
      | cancel _ _ => exact ⟨Or.inr hrest, hkeep⟩
      | fill _ _ => exact ⟨Or.inr hrest, hkeep⟩
      | partFill _ hlt =>
        refine ⟨Or.inl (UInt32.toNat_inj.mp ?_), hkeep⟩
        rw [UInt32.lt_iff_toNat_lt] at hlt
        rw [k.filled_left, UInt32.toNat_zero]
        omega
  exact hrun.1.2 h

section Runs

variable {b₀ b : OrderBook} {past newer older : List Record} {r : Record} {policy : SelfTradePolicy}
  {a : PriorityBook} {id : OrderId} {qty : Quantity} {side : Side} {rep : ExecReport}

/-! ## The owners of a run -/

theorem ownerOf_cons_of_ne (h : ∀ p ∈ r.created, p.1 ≠ id) :
    ownerOf (r :: past) id = ownerOf past id := by
  rw [ownerOf]
  cases hc : r.created with
  | none => rfl
  | some p => simp only [if_neg (h p hc)]

/-- A call that is no accepted add creates nothing. -/
theorem created_eq_none (h : ∀ rep, r.reply = .report rep → rep.accepted = true →
    ∀ id owner side price qty, r.call ≠ .addLimit id owner side price qty
      ∧ r.call ≠ .addMarket id owner side qty) : r.created = none := by
  unfold Record.created
  split
  · rename_i rep id owner side price qty hreply hcall
    split
    · rename_i hacc
      exact absurd hcall (h rep hreply hacc id owner side price qty).1
    · rfl
  · rename_i rep id owner side qty hreply hcall
    split
    · rename_i hacc
      exact absurd hcall (h rep hreply hacc id owner side 0 qty).2
    · rfl
  · rfl

/-- Every resting order carries the owner its history gives it. -/
def Owned (past : List Record) (a : PriorityBook) : Prop :=
  ∀ s, ∀ o ∈ a.queue s, ownerOf past o.id = some o.owner

/-- The order a modify finds is queued. -/
theorem find_queued {o : Order} (hsound : a.Sound) (hfind : a.find id = some o) :
    ∃ u ∈ a.queue o.side, u.id = id ∧ u.owner = o.owner := by
  have hlive : a.live id = true := by
    by_contra hdead
    rw [PriorityBook.find_eq_none.mpr (Bool.not_eq_true _ ▸ hdead)] at hfind
    simp at hfind
  obtain ⟨s, u, hu, rfl⟩ := PriorityBook.live_iff.mp hlive
  rw [PriorityBook.find_of_mem hsound.nodup hu] at hfind
  obtain rfl := Option.some.inj hfind
  exact ⟨u, hu, rfl, rfl⟩

/-- **The taker of a submission has the owner of its history**, the call itself included. -/
theorem submission_owner {x : PriorityBook.Submission} (hsound : a.Sound) (hown : Owned past a)
    (hx : a.submission policy r.call = some x) (hreply : r.reply = .report x.execute.1) :
    ownerOf (r :: past) x.taker.id = some x.taker.owner
      ∧ ∀ p ∈ r.created, p.1 = x.taker.id := by
  have hsub := PriorityBook.submits hx
  have haccepted := execute_accepted x
  rw [ownerOf]
  unfold Record.created
  rw [hreply]
  generalize r.call = c at hsub
  cases hsub with
  | addLimit hqty hdead => simp [haccepted]
  | addMarket hqty hdead => simp [haccepted]
  | modify hqty hfind =>
    obtain ⟨u, hu, hid, howner⟩ := find_queued hsound hfind
    refine ⟨?_, by simp⟩
    have hpast := hown _ u hu
    rwa [hid, howner] at hpast

/-- **Every call keeps the owners right.** -/
theorem Recorded.owned (h : Recorded policy a r) (hsound : a.Sound) (hown : Owned past a) :
    Owned (r :: past) (a.perform policy r.call).2.2 := by
  have quiet : ∀ a' : PriorityBook, r.created = none → (∀ s, ∀ o ∈ a'.queue s, o ∈ a.queue s) →
      Owned (r :: past) a' := by
    intro a' hnone hsub s o ho
    rw [ownerOf_cons_of_ne (by simp [hnone])]
    exact hown s o (hsub s o ho)
  cases h.told with
  | submitted x hx hreply hacts hafter =>
    obtain ⟨hself, hcreated⟩ := submission_owner hsound hown hx hreply
    have hfresh := PriorityBook.submission_fresh hx
    have hbook : ∀ s, ∀ o ∈ x.book.queue s, o ∈ a.queue s := by
      intro s o ho
      rcases hfresh.book with hbook | hbook
      · exact hbook ▸ ho
      · exact (PriorityBook.mem_remove.mp (hbook ▸ ho)).1
    -- what the walk left of the book keeps its owners: the taker carries another id
    have hold : ∀ s, ∀ o ∈ x.after.queue s, ownerOf (r :: past) o.id = some o.owner := by
      intro s o ho
      obtain ⟨o', ho', htag⟩ := PriorityBook.Submission.mem_after ho
      simp only [tag, Prod.mk.injEq] at htag
      have hne : x.taker.id ≠ o'.id := fun heq =>
        PriorityBook.not_live_iff.mp hfresh.live s o' ho' heq.symm
      rw [← htag.1, ← htag.2.2, ownerOf_cons_of_ne fun p hp => (hcreated p hp).trans_ne hne]
      exact hown s o' (hbook s o' ho')
    rw [hafter, x.execute_eq]
    show Owned (r :: past) (if x.rests = true then _ else _)
    split
    · intro s o ho
      rcases PriorityBook.mem_rest ho with ho | ⟨rfl, -⟩
      · exact hold s o ho
      · exact hself
    · exact hold
  | rejected qty hx hreply hacts hafter =>
    rw [hafter]
    refine quiet a (created_eq_none fun rep hrep hacc => ?_) fun _ _ ho => ho
    rw [hreply] at hrep
    rw [← Reply.report.inj hrep] at hacc
    simp at hacc
  | cancelled id hx hcall hreply hacts hafter =>
    rw [hafter]
    exact quiet _ (created_eq_none fun rep hrep => by simp [hreply] at hrep) fun _ _ ho =>
      (PriorityBook.mem_remove.mp ho).1
  | emptied id p hx hcall hlive hreply hacts hafter =>
    rw [hafter]
    exact quiet _ (created_eq_none fun _ _ _ _ _ _ _ _ => by simp [hcall]) fun _ _ ho =>
      (PriorityBook.mem_remove.mp ho).1
  | popped t hx hcall hreply hacts hafter =>
    rw [hafter]
    exact quiet a (created_eq_none fun rep hrep => by simp [hreply] at hrep) fun _ _ ho => ho

/-- **The run lemma**: every resting order of a run carries the owner its history gives it. -/
theorem Run.owned {Q₀ : Layout} {free₀ : List SlotIndex} (h₀ : b₀.Follows {} Q₀ free₀)
    (h : Run b₀ past b) : Owned past (replayOf b₀ past) := by
  induction h with
  | start =>
    intro s o ho
    exact absurd ho List.not_mem_nil
  | @call past b b' mem c reply events hrun hcall ih =>
    have hrec : Recorded b₀.policy (replayOf b₀ past) ⟨b, c, reply, events, b'⟩ :=
      (Run.call mem c reply events hrun hcall).recorded_head h₀
    exact hrec.owned (hrun.inOrder h₀).2 ih

/-! ## What prevention does in a submission -/

/-- Self-trade prevention in the call `r`, an accepted submission of `id` on `side` reported by `rep`,
with the calls made before it. -/
structure Prevented (policy : SelfTradePolicy) (older : List Record) (r : Record) (id : OrderId)
    (side : Side) (rep : ExecReport) (owner : ParticipantId) (far far' : List RestingOrder) :
    Prop where
  taker : ownerOf (r :: older) id = some owner
  makers : ∀ o ∈ far, ownerOf older o.id = some o.owner ∧ o.id ≠ id
  before : r.before.restingOn side.opposite = some far
  after : r.after.restingOn side.opposite = some far'
  /-- Every fill and every removal took the order in front, as prevention says. -/
  walked : Walked (Prevents policy owner) far r.acts far'
  counted : rep.stpCancelled.toNat = volume (removalsOf r.acts)
  /-- A halted taker leaves the rest of the far side as it was, its owner's order in front. -/
  halted : rep.stpHalted = true → policy = .cancelIncoming ∧ far' <:+ far
    ∧ (∃ o rest, far' = o :: rest ∧ Prevents policy owner o) ∧ r.after.find id = some none
  removes : removalsOf r.acts ≠ [] → policy = .cancelResting ∧ owner ≠ kAnonymous

/-- No id is queued on both sides. -/
theorem ids_apart {s : Side} {u v : RestingOrder} (hsound : a.Sound) (hu : u ∈ a.queue s)
    (hv : v ∈ a.queue s.opposite) : v.id ≠ u.id := by
  have hnd := ((PriorityBook.orders_perm a s).map RestingOrder.id).nodup_iff.mp hsound.nodup
  rw [List.map_append] at hnd
  exact fun heq => List.disjoint_of_nodup_append hnd (List.mem_map_of_mem hu)
    (heq ▸ List.mem_map_of_mem hv)

/-- A modify takes its order off the near side, so a submission finds the far side as it was. -/
theorem submission_far {x : PriorityBook.Submission} {c : Call} (hsound : a.Sound)
    (hx : a.submission policy c = some x) :
    x.book.queue x.taker.side.opposite = a.queue x.taker.side.opposite := by
  have hsub := PriorityBook.submits hx
  cases hsub with
  | addLimit _ _ => rfl
  | addMarket _ _ => rfl
  | modify hqty hfind =>
    obtain ⟨u, hu, rfl, -⟩ := find_queued hsound hfind
    exact List.filter_eq_self.mpr fun v hv => decide_eq_true (ids_apart hsound hu hv)

/-- **The step lemma of prevention.** -/
theorem Recorded.prevented (h : Recorded policy a r) (hsound : a.Sound) (hown : Owned older a)
    (hopened : r.opened = some (id, qty)) (htaker : r.before.takerOf r.call = some (id, side))
    (hrep : r.reply = .report rep) :
    ∃ owner far far', Prevented policy older r id side rep owner far far' := by
  obtain ⟨x, hx, rfl, -, hreply, hacts, hafter⟩ := h.opened hopened
  obtain ⟨Q, free, hf⟩ := h.before
  obtain ⟨Q', free', hf'⟩ := h.after
  have hfresh := PriorityBook.submission_fresh hx
  obtain rfl : x.taker.side = side := by
    have htakerOf := takerOf_submission hf hx
    rw [htaker] at htakerOf
    exact ((Prod.mk.inj (Option.some.inj htakerOf)).2).symm
  have hfar := submission_far hsound hx
  have hqueue : x.execute.2.2.queue x.taker.side.opposite = x.walk.1 := by
    rw [x.execute_eq]
    show (if x.rests = true then _ else _ : PriorityBook).queue _ = _
    split
    · rw [PriorityBook.queue_rest_opposite, x.after_queue_far]
    · exact x.after_queue_far
  rw [hafter] at hf'
  have hstart : x.walk = x.taker.sweep (a.queue x.taker.side.opposite)
      { left := x.qty, nextSeq := x.book.nextSeq } := by
    rw [← hfar]
    rfl
  have hmet := (sweep_met x.taker (a.queue x.taker.side.opposite)
    { left := x.qty, nextSeq := x.book.nextSeq } rfl).1
  have hwalked := sweep_walked x.taker (a.queue x.taker.side.opposite)
    { left := x.qty, nextSeq := x.book.nextSeq } rfl
  rw [← hstart] at hmet hwalked
  rw [hfresh.policy, ← hacts] at hwalked
  rw [hreply] at hrep
  obtain rfl := Reply.report.inj hrep
  refine ⟨x.taker.owner, a.queue x.taker.side.opposite, x.walk.1,
    (submission_owner hsound hown hx hreply).1, fun o ho => ⟨hown _ o ho, ?_⟩, hf.restingOn _,
    hqueue ▸ hf'.restingOn _, hwalked, h.stpCancelled hsound hreply, ?_, ?_⟩
  · exact PriorityBook.not_live_iff.mp hfresh.live _ o (hfar ▸ ho)
  · -- the order that halted the walk is still the head of what it left
    intro hhalt
    have hflag : x.walk.2.rep.stpHalted = true := by
      rw [x.execute_eq] at hhalt
      exact hhalt
    have hrests : x.rests ≠ true := fun hyes => by
      have hgoes := (x.rests_iff.mp hyes).2.2
      simp [hflag] at hgoes
    rw [hstart] at hflag
    obtain ⟨hpolicy, hsuf, o, rest, hfront, hself⟩ := sweep_halted x.taker _ _ rfl hflag
    rw [← hstart] at hsuf hfront
    have hprevents := prevents_iff.mp hself
    rw [hfresh.policy] at hpolicy hprevents
    refine ⟨hpolicy, hsuf, ⟨o, rest, hfront, hprevents⟩, ?_⟩
    rw [hf'.find, x.execute_eq, if_neg hrests,
      PriorityBook.find_eq_none.mpr (x.after_not_live hfresh.live)]
  · intro hne
    obtain ⟨o, ho⟩ := List.exists_mem_of_ne_nil _ hne
    rw [hacts] at ho
    obtain ⟨-, hself, hpolicy⟩ := hmet.removals o ho
    exact ⟨hfresh.policy ▸ hpolicy, (prevents_iff.mp hself).2.1⟩

/-- The owners of the two orders of a trade: where prevention applies, they differ. -/
theorem Recorded.trade_owners {t : Trade} (h : Recorded policy a r) (hsound : a.Sound)
    (hown : Owned older a) (ht : t ∈ r.trades) :
    ∃ maker taker, ownerOf (r :: older) t.makerId = some maker
      ∧ ownerOf (r :: older) t.takerId = some taker
      ∧ (policy ≠ .allow → maker ≠ kAnonymous → maker ≠ taker) := by
  have quiet : r.acts ≠ [] := by
    intro hacts
    rw [Record.trades, hacts] at ht
    simp at ht
  cases h.told with
  | submitted x hx hreply hacts hafter =>
    obtain ⟨hself, hcreated⟩ := submission_owner hsound hown hx hreply
    have hfresh := PriorityBook.submission_fresh hx
    rw [Record.trades, hacts] at ht
    obtain ⟨o, ho, hmaker, -, hno, -⟩ :=
      (sweep_met x.taker _ { left := x.qty, nextSeq := x.book.nextSeq } rfl).1.fills t ht
    have htaker := ((submission_tally hsound hx).taker t ht).1
    have hne : x.taker.id ≠ o.id := fun heq =>
      PriorityBook.not_live_iff.mp hfresh.live _ o ho heq.symm
    rw [submission_far hsound hx] at ho
    refine ⟨o.owner, x.taker.owner, ?_, htaker ▸ hself, fun hpolicy hanon heq => ?_⟩
    · rw [← hmaker, ownerOf_cons_of_ne fun p hp => (hcreated p hp).trans_ne hne]
      exact hown _ o ho
    · have hyes : x.taker.selfTrade o = true :=
        prevents_iff.mpr ⟨hfresh.policy ▸ hpolicy, heq ▸ hanon, heq⟩
      rw [hno] at hyes
      simp at hyes
  | rejected qty hx hreply hacts hafter => exact absurd hacts quiet
  | cancelled id hx hcall hreply hacts hafter => exact absurd hacts quiet
  | emptied id p hx hcall hlive hreply hacts hafter => exact absurd hacts quiet
  | popped t hx hcall hreply hacts hafter => exact absurd hacts quiet

/-- Only `cancelResting` removes resting orders. -/
theorem Recorded.removals_nil (h : Recorded policy a r) (hpolicy : policy ≠ .cancelResting) :
    removalsOf r.acts = [] := by
  cases h.told with
  | submitted x hx hreply hacts hafter =>
    by_contra hne
    obtain ⟨o, ho⟩ := List.exists_mem_of_ne_nil _ hne
    rw [hacts] at ho
    have hmet := (sweep_met x.taker _ { left := x.qty, nextSeq := x.book.nextSeq } rfl).1.removals o ho
    exact hpolicy ((PriorityBook.submission_fresh hx).policy ▸ hmet.2.2)
  | rejected qty hx hreply hacts hafter => rw [hacts]; rfl
  | cancelled id hx hcall hreply hacts hafter => rw [hacts]; rfl
  | emptied id p hx hcall hlive hreply hacts hafter => rw [hacts]; rfl
  | popped t hx hcall hreply hacts hafter => rw [hacts]; rfl

/-- Only `cancelIncoming` halts a taker. -/
theorem Recorded.not_halted (h : Recorded policy a r) (hpolicy : policy ≠ .cancelIncoming)
    (hrep : r.reply = .report rep) : rep.stpHalted = false := by
  cases h.told with
  | submitted x hx hreply hacts hafter =>
    rw [hreply] at hrep
    rw [← Reply.report.inj hrep, x.execute_eq]
    show x.walk.2.rep.stpHalted = false
    by_contra hhalt
    have hhalted := sweep_halted x.taker _ { left := x.qty, nextSeq := x.book.nextSeq } rfl
      (Bool.not_eq_false _ ▸ hhalt)
    exact hpolicy ((PriorityBook.submission_fresh hx).policy ▸ hhalted.1)
  | rejected qty hx hreply hacts hafter =>
    rw [hreply] at hrep
    rw [← Reply.report.inj hrep]
  | cancelled id hx hcall hreply hacts hafter => simp [hreply] at hrep
  | emptied id p hx hcall hlive hreply hacts hafter =>
    rw [hreply] at hrep
    rw [← Reply.report.inj hrep]
  | popped t hx hcall hreply hacts hafter => simp [hreply] at hrep

/-- Without removals, a resting order loses only what it trades, unless a call takes it out. -/
theorem Recorded.keeps (h : Recorded policy a r) (hsound : a.Sound)
    (hafter : (a.perform policy r.call).2.2.Sound) (hpolicy : policy ≠ .cancelResting)
    {n : Nat} (hstays : r.takesOut id = false) (hn : r.before.restingQty id = some n) :
    madeBy id r.acts + (r.after.restingQty id).getD 0 = n := by
  obtain ⟨Q, free, hf⟩ := h.before
  obtain ⟨Q', free', hf'⟩ := h.after
  have hnow := hf.restingQty hsound id
  have hlater := hf'.restingQty hafter id
  rw [hn] at hnow
  have hlive : a.live id = true := by
    by_contra hdead
    have hfind := hf.find id
    rw [PriorityBook.find_eq_none.mpr (Bool.not_eq_true _ ▸ hdead)] at hfind
    simp [OrderBook.restingQty, hfind] at hn
  have hflow := h.flow hlive hstays
  rw [h.removals_nil hpolicy, queuedBy_nil] at hflow
  have hqty : n = queuedBy id a.orders := by
    split at hnow
    · simp at hnow
    · exact Option.some.inj hnow
  rw [hlater]
  split
  · rename_i hzero
    simp only [Option.getD_none]
    omega
  · simp only [Option.getD_some]
    omega

/-- **Self-trade prevention holds over every run.**  No trade is between two orders of one owner, the
anonymous one apart, unless the policy allows it; every accepted submission acts on the front of the
far side as prevention says; only `cancelResting` removes resting orders, and only `cancelIncoming`
halts a taker. -/
theorem self_trade_prevention {scrub : RestingOrder → RestingOrder} {cfg : Config}
    (hnew : OrderBook.new scrub cfg = some b₀) (hrun : Run b₀ (newer ++ r :: older) b) :
    (∀ t ∈ r.trades, ∃ maker taker, ownerOf (r :: older) t.makerId = some maker
        ∧ ownerOf (r :: older) t.takerId = some taker
        ∧ (cfg.selfTrade ≠ .allow → maker ≠ kAnonymous → maker ≠ taker))
      ∧ (∀ id qty rep, r.opened = some (id, qty) → r.reply = .report rep →
        ∃ side owner far far', r.before.takerOf r.call = some (id, side)
          ∧ Prevented cfg.selfTrade older r id side rep owner far far')
      ∧ (cfg.selfTrade ≠ .cancelResting → removalsOf r.acts = []
        ∧ (∀ rep, r.reply = .report rep → rep.stpCancelled = 0)
        ∧ ∀ id n, r.takesOut id = false → r.before.restingQty id = some n →
          madeBy id r.acts + (r.after.restingQty id).getD 0 = n)
      ∧ (cfg.selfTrade ≠ .cancelIncoming → ∀ rep, r.reply = .report rep → rep.stpHalted = false) := by
  obtain ⟨h₀, hpolicy, -⟩ := new_follows hnew
  obtain ⟨b', hrun'⟩ := hrun.earlier
  have hrec := hrun.recorded h₀
  have hold := hrun'.cons_inv.2.1
  have hsound := (hold.inOrder h₀).2
  have hafter : ((replayOf b₀ older).perform b₀.policy r.call).2.2.Sound := (hrun'.inOrder h₀).2
  have hown := hold.owned h₀
  rw [hpolicy] at hrec hafter
  refine ⟨fun t ht => hrec.trade_owners hsound hown ht, ?_, fun hno => ?_, fun hno rep hrep =>
    hrec.not_halted hno hrep⟩
  · intro id qty rep hopened hrep
    obtain ⟨x, hx, hid, -⟩ := hrec.opened hopened
    obtain ⟨Q, free, hf⟩ := hrec.before
    have htaker := takerOf_submission hf hx
    rw [hid] at htaker
    obtain ⟨owner, far, far', hprev⟩ := hrec.prevented hsound hown hopened htaker hrep
    exact ⟨_, owner, far, far', htaker, hprev⟩
  · refine ⟨hrec.removals_nil hno, fun rep hrep => ?_, fun id n hstays hn =>
      hrec.keeps hsound hafter hno hstays hn⟩
    have hcount := hrec.stpCancelled hsound hrep
    rw [hrec.removals_nil hno] at hcount
    exact UInt64.toNat_inj.mp hcount

end Runs

/-- An ask of owner 7 takes a bid of owner 8 and halts at a bid of its own owner, modified since. -/
theorem self_trade_prevention_halted : ∃ b₀ r older b rep, OrderBook.new id
      { selfTrade := .cancelIncoming } = some b₀
    ∧ Run b₀ (r :: older) b ∧ (r :: older).map Record.call = [.addLimit 3 7 .sell 100 5,
      .modify 2 100 4, .addLimit 2 7 .buy 100 5, .addLimit 1 8 .buy 100 3]
    ∧ r.reply = .report rep ∧ rep.stpHalted = true
    ∧ ∃ side owner far far', Prevented .cancelIncoming older r 3 side rep owner far far' := by
  obtain ⟨b₀, past, b, ⟨r, rep⟩, hnew, hrun, hcalls, hr⟩ := exists_run id
    { selfTrade := .cancelIncoming } {} [.addLimit 3 7 .sell 100 5, .modify 2 100 4,
      .addLimit 2 7 .buy 100 5, .addLimit 1 8 .buy 100 3]
    (fun past _ => past.head?.bind fun r => r.reply.reported.bind fun rep =>
      if rep.stpHalted ∧ r.opened = some (3, 5) then some (r, rep) else none)
    (by decide +kernel)
  obtain ⟨r', hhead, hr'⟩ := Option.bind_eq_some_iff.mp hr
  obtain ⟨older, rfl⟩ : ∃ older, past = r' :: older := by
    cases past with
    | nil => simp at hhead
    | cons r₁ older => exact ⟨older, congrArg (· :: older) (Option.some.inj hhead)⟩
  obtain ⟨rep', hreported, hr'⟩ := Option.bind_eq_some_iff.mp hr'
  obtain ⟨hwhat, -⟩ := Option.ite_none_right_eq_some.mp hr'
  have hreply := Reply.reported_eq_some.mp hreported
  have hall : Run b₀ ([] ++ r' :: older) b := hrun
  obtain ⟨side, owner, far, far', -, hprev⟩ :=
    (self_trade_prevention hnew hall).2.1 3 5 rep' hwhat.2 hreply
  exact ⟨b₀, r', older, b, rep', hnew, hrun, hcalls, hreply, hwhat.1, side, owner, far, far', hprev⟩

end OrderBook

end Lob
