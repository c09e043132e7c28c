/-
# Lob.WalkTally — what a walk's acts add up to.

Four things hold after every turn of a walk, hence at its end: the report tallies the trades
(`Tally`), every id's quantity is conserved between the far side, the trades and the removals
(`Conserved`), the ids removed or still queued are those queued before (`stpIds`), and each act meets
an order of the far side as it was before the walk (`Met`).
-/
import Mathlib.Data.List.Range
import Lob.PrioritySound

namespace Lob

/-! ## Reading a list of acts -/

/-- The trades among some acts. -/
def fillsOf (acts : List Act) : List Trade :=
  acts.filterMap fun
    | .fill t => some t
    | .stpCancel _ => none

/-- The orders that self-trade prevention removed. -/
def removalsOf (acts : List Act) : List RestingOrder :=
  acts.filterMap fun
    | .fill _ => none
    | .stpCancel o => some o

/-- The total quantity of some trades. -/
def traded (ts : List Trade) : Nat := (ts.map fun t => t.qty.toNat).sum

/-- What an id traded as a maker. -/
def madeBy (id : OrderId) (acts : List Act) : Nat :=
  traded ((fillsOf acts).filter fun t => t.makerId = id)

/-- What an id has in a queue. -/
def queuedBy (id : OrderId) (os : List RestingOrder) : Nat := volume (os.filter fun o => o.id = id)

section Reading

variable {acts : List Act} {t : Trade} {o : RestingOrder} {id : OrderId} {os : List RestingOrder}

@[simp] theorem fillsOf_nil : fillsOf [] = [] := rfl

@[simp] theorem removalsOf_nil : removalsOf [] = [] := rfl

@[simp] theorem fillsOf_append (acts acts' : List Act) :
    fillsOf (acts ++ acts') = fillsOf acts ++ fillsOf acts' := List.filterMap_append ..

@[simp] theorem removalsOf_append (acts acts' : List Act) :
    removalsOf (acts ++ acts') = removalsOf acts ++ removalsOf acts' := List.filterMap_append ..

@[simp] theorem fillsOf_fill : fillsOf [.fill t] = [t] := rfl

@[simp] theorem fillsOf_stpCancel : fillsOf [.stpCancel o] = [] := rfl

@[simp] theorem removalsOf_fill : removalsOf [.fill t] = [] := rfl

@[simp] theorem removalsOf_stpCancel : removalsOf [.stpCancel o] = [o] := rfl

theorem mem_fillsOf : t ∈ fillsOf acts ↔ .fill t ∈ acts := by
  simp only [fillsOf, List.mem_filterMap]
  constructor
  · rintro ⟨a, ha, heq⟩
    cases a with
    | fill t' => exact Option.some.inj heq ▸ ha
    | stpCancel o => simp at heq
  · exact fun h => ⟨_, h, rfl⟩

theorem mem_removalsOf : o ∈ removalsOf acts ↔ .stpCancel o ∈ acts := by
  simp only [removalsOf, List.mem_filterMap]
  constructor
  · rintro ⟨a, ha, heq⟩
    cases a with
    | fill t' => simp at heq
    | stpCancel o' => exact Option.some.inj heq ▸ ha
  · exact fun h => ⟨_, h, rfl⟩

@[simp] theorem traded_nil : traded [] = 0 := rfl

@[simp] theorem traded_append (ts ts' : List Trade) : traded (ts ++ ts') = traded ts + traded ts' := by
  simp [traded]

@[simp] theorem traded_singleton : traded [t] = t.qty.toNat := by simp [traded]

/-- Trades of at least `n` each. -/
theorem mul_length_le_traded {n : Nat} {ts : List Trade} (h : ∀ t ∈ ts, n ≤ t.qty.toNat) :
    n * ts.length ≤ traded ts := by
  induction ts with
  | nil => exact Nat.le_refl 0
  | cons t ts ih =>
    have ht := h t List.mem_cons_self
    have hts := ih fun u hu => h u (List.mem_cons_of_mem _ hu)
    rw [List.length_cons, Nat.mul_succ, traded, List.map_cons, List.sum_cons]
    show _ ≤ t.qty.toNat + traded ts
    omega

theorem length_le_traded {ts : List Trade} (hpos : ∀ t ∈ ts, 0 < t.qty) : ts.length ≤ traded ts := by
  have hle := mul_length_le_traded fun t ht => UInt32.lt_iff_toNat_lt.mp (hpos t ht)
  rw [UInt32.toNat_zero, Nat.one_mul] at hle
  exact hle

@[simp] theorem madeBy_append (id : OrderId) (acts acts' : List Act) :
    madeBy id (acts ++ acts') = madeBy id acts + madeBy id acts' := by
  simp [madeBy]

theorem queuedBy_cons (id : OrderId) (o : RestingOrder) (os : List RestingOrder) :
    queuedBy id (o :: os) = (if o.id = id then o.qty.toNat else 0) + queuedBy id os := by
  unfold queuedBy
  by_cases h : o.id = id
  · rw [List.filter_cons_of_pos (by simpa using h), volume_cons, if_pos h]
  · rw [List.filter_cons_of_neg (by simpa using h), if_neg h, Nat.zero_add]

@[simp] theorem queuedBy_nil (id : OrderId) : queuedBy id [] = 0 := rfl

@[simp] theorem queuedBy_append (id : OrderId) (os os' : List RestingOrder) :
    queuedBy id (os ++ os') = queuedBy id os + queuedBy id os' := by
  simp [queuedBy]

theorem queuedBy_perm {os' : List RestingOrder} (id : OrderId) (h : os.Perm os') :
    queuedBy id os = queuedBy id os' := volume_perm (h.filter _)

theorem queuedBy_eq_zero (h : ∀ o ∈ os, o.id ≠ id) : queuedBy id os = 0 := by
  unfold queuedBy
  rw [List.filter_eq_nil_iff.mpr fun o ho => by simpa using h o ho]
  rfl

/-- With unique ids, an id has in a queue what its order wants. -/
theorem queuedBy_of_mem (hnd : (os.map RestingOrder.id).Nodup) (ho : o ∈ os) :
    queuedBy o.id os = o.qty.toNat := by
  obtain ⟨front, back, rfl⟩ := List.append_of_mem ho
  rw [List.map_append, List.map_cons, List.nodup_middle] at hnd
  have hne : ∀ x ∈ front ++ back, x.id ≠ o.id := fun x hx heq => by
    refine (List.nodup_cons.mp hnd).1 ?_
    rw [← List.map_append, ← heq]
    exact List.mem_map_of_mem hx
  rw [queuedBy_append, queuedBy_cons, if_pos rfl,
    queuedBy_eq_zero fun x hx => hne x (by simp [hx]),
    queuedBy_eq_zero fun x hx => hne x (by simp [hx])]
  omega

end Reading

/-! ## The tally -/

section Walk

variable {k : Taker} {far far' far₀ : List RestingOrder} {p p' : Progress} {o : RestingOrder}
  {qty : Quantity} {seq : Sequence}

/-- The report of a walk that began with `qty` wanted and `seq` as the next trade's number. -/
structure Tally (k : Taker) (qty : Quantity) (seq : Sequence) (p : Progress) : Prop where
  seqs : (fillsOf p.acts).map Trade.seq
    = (List.range (fillsOf p.acts).length).map fun i => seq + UInt64.ofNat i
  nextSeq : p.nextSeq = seq + UInt64.ofNat (fillsOf p.acts).length
  count : p.rep.tradeCount = UInt32.ofNat (fillsOf p.acts).length
  first : p.rep.firstSeq = if (fillsOf p.acts).length = 0 then 0 else seq
  filled : p.rep.filled.toNat = traded (fillsOf p.acts)
  left : p.left.toNat + traded (fillsOf p.acts) = qty.toNat
  positive : ∀ t ∈ fillsOf p.acts, 0 < t.qty
  taker : ∀ t ∈ fillsOf p.acts, t.takerId = k.id ∧ t.takerSide = k.side
  removed : p.rep.stpCancelled = UInt64.ofNat (volume (removalsOf p.acts))

theorem tally_start (k : Taker) (qty : Quantity) (seq : Sequence) :
    Tally k qty seq { left := qty, nextSeq := seq } where
  seqs := rfl
  nextSeq := (UInt64.add_zero seq).symm
  count := rfl
  first := rfl
  filled := rfl
  left := rfl
  positive := by simp
  taker := by simp
  removed := rfl

/-- A trade of a tallied walk moves something, and there are fewer than `2^32`. -/
theorem Tally.length_lt (h : Tally k qty seq p) : (fillsOf p.acts).length < 2 ^ 32 := by
  have hle := length_le_traded h.positive
  have hleft := h.left
  have := qty.toNat_lt
  omega

/-- **A trade is tallied.** -/
theorem Tally.fill (h : Tally k qty seq p) (hleft : p.left ≠ 0) (hpos : 0 < o.qty) :
    Tally k qty seq (k.filled o p) := by
  have hq : (min p.left o.qty).toNat = min p.left.toNat o.qty.toNat := min_toNat _ _
  have hleft' : 0 < p.left.toNat := Nat.pos_of_ne_zero fun h0 => hleft (UInt32.toNat_inj.mp h0)
  have hpos' : 0 < o.qty.toNat := by
    rw [UInt32.lt_iff_toNat_lt, UInt32.toNat_zero] at hpos
    exact hpos
  have hacts : fillsOf (k.filled o p).acts = fillsOf p.acts ++ [k.trade o p] := by
    simp [Taker.filled]
  have hlen : (fillsOf (k.filled o p).acts).length = (fillsOf p.acts).length + 1 := by
    rw [hacts, List.length_append, List.length_singleton]
  have htraded : traded (fillsOf (k.filled o p).acts)
      = traded (fillsOf p.acts) + min p.left.toNat o.qty.toNat := by
    rw [hacts, traded_append, traded_singleton, ← hq]
    rfl
  have hbound := h.left
  have hlt := h.length_lt
  have hqty := qty.toNat_lt
  refine ⟨?_, ?_, ?_, ?_, ?_, ?_, ?_, ?_, ?_⟩
  · rw [hlen, hacts, List.map_append, h.seqs, List.range_succ, List.map_append, List.map_singleton,
      List.map_singleton]
    show _ ++ [p.nextSeq] = _
    rw [h.nextSeq]
  · rw [hlen, UInt64.ofNat_add, ← UInt64.add_assoc, ← h.nextSeq]
    rfl
  · rw [hlen, UInt32.ofNat_add, ← h.count]
    rfl
  · rw [hlen, if_neg (Nat.succ_ne_zero _)]
    show (if p.rep.tradeCount = 0 then p.nextSeq else p.rep.firstSeq) = seq
    -- the first trade is the one made at a zero count, which cannot have wrapped
    by_cases hzero : (fillsOf p.acts).length = 0
    · rw [if_pos (by rw [h.count, hzero]; rfl), h.nextSeq, hzero]
      exact UInt64.add_zero seq
    · rw [if_neg, h.first, if_neg hzero]
      rw [h.count]
      intro h0
      have hmod := congrArg UInt32.toNat h0
      rw [UInt32.toNat_ofNat', Nat.mod_eq_of_lt hlt] at hmod
      exact hzero hmod
  · rw [htraded, ← h.filled]
    show (p.rep.filled + min p.left o.qty).toNat = _
    rw [UInt32.toNat_add, hq, h.filled, Nat.mod_eq_of_lt (by omega)]
  · rw [htraded, k.filled_left]
    omega
  · intro t ht
    rw [hacts] at ht
    rcases List.mem_append.mp ht with ht | ht
    · exact h.positive t ht
    · rw [List.mem_singleton.mp ht, UInt32.lt_iff_toNat_lt]
      show (0 : UInt32).toNat < (min p.left o.qty).toNat
      rw [hq, UInt32.toNat_zero]
      omega
  · intro t ht
    rw [hacts] at ht
    rcases List.mem_append.mp ht with ht | ht
    · exact h.taker t ht
    · rw [List.mem_singleton.mp ht]
      exact ⟨rfl, rfl⟩
  · have hrem : removalsOf (k.filled o p).acts = removalsOf p.acts := by simp [Taker.filled]
    rw [hrem, ← h.removed]
    rfl

/-- **A removal is tallied.** -/
theorem Tally.cancel (h : Tally k qty seq p) (o : RestingOrder) :
    Tally k qty seq (Taker.cancelled o p) := by
  have hfills : fillsOf (Taker.cancelled o p).acts = fillsOf p.acts := by simp [Taker.cancelled]
  refine ⟨hfills ▸ h.seqs, hfills ▸ h.nextSeq, hfills ▸ h.count, hfills ▸ h.first, hfills ▸ h.filled,
    hfills ▸ h.left, hfills ▸ h.positive, hfills ▸ h.taker, ?_⟩
  have hrem : removalsOf (Taker.cancelled o p).acts = removalsOf p.acts ++ [o] := by
    simp [Taker.cancelled]
  have hqty : o.qty.toUInt64 = UInt64.ofNat o.qty.toNat := by
    apply UInt64.toNat_inj.mp
    have := o.qty.toNat_lt
    rw [UInt32.toNat_toUInt64, UInt64.toNat_ofNat', Nat.mod_eq_of_lt (by omega)]
  rw [hrem, volume_append, volume_cons, volume_nil, Nat.add_zero, UInt64.ofNat_add, ← h.removed,
    ← hqty]
  rfl

theorem Tally.halt (h : Tally k qty seq p) : Tally k qty seq (Taker.halted p) :=
  ⟨h.seqs, h.nextSeq, h.count, h.first, h.filled, h.left, h.positive, h.taker, h.removed⟩

/-- **Every walk is tallied by its report.** -/
theorem sweep_tally (hpos : ∀ o ∈ far, 0 < o.qty) (k : Taker) (qty : Quantity) (seq : Sequence) :
    Tally k qty seq (k.sweep far { left := qty, nextSeq := seq }).2 := by
  refine ((sweep_induction (P := fun far p => (∀ o ∈ far, 0 < o.qty) ∧ Tally k qty seq p)
    ⟨hpos, tally_start k qty seq⟩ fun far₁ p₁ far₂ p₂ hP hturn => ?_).1).2
  obtain ⟨o, rest, rfl, hleft, -, -, ht⟩ := turn_cases hturn
  obtain ⟨hfar, htally⟩ := hP
  have hrest : ∀ x ∈ rest, 0 < x.qty := fun x hx => hfar x (List.mem_cons_of_mem _ hx)
  have ho := hfar o List.mem_cons_self
  cases ht with
  | halt _ _ => exact ⟨hfar, htally.halt⟩
  | cancel _ _ => exact ⟨hrest, htally.cancel o⟩
  | fill _ _ => exact ⟨hrest, htally.fill hleft ho⟩
  | partFill _ hlt =>
    refine ⟨fun x hx => ?_, htally.fill hleft ho⟩
    rcases List.mem_cons.mp hx with rfl | hx
    · rw [UInt32.lt_iff_toNat_lt] at hlt ⊢
      rw [Taker.rest_qty, UInt32.toNat_zero]
      omega
    · exact hrest x hx

/-! ## Conservation -/

/-- Between the far side, the trades and the removals, every id's quantity is what it was. -/
def Conserved (far₀ far : List RestingOrder) (acts : List Act) : Prop :=
  ∀ id, queuedBy id far + madeBy id acts + queuedBy id (removalsOf acts) = queuedBy id far₀

theorem Conserved.act (h : Conserved far₀ (o :: far) p.acts) :
    Conserved far₀ far (Taker.cancelled o p).acts := by
  intro id
  have hid := h id
  rw [queuedBy_cons] at hid
  simp only [Taker.cancelled, madeBy_append, removalsOf_append, removalsOf_stpCancel, queuedBy_append,
    queuedBy_cons, queuedBy_nil]
  have hmade : madeBy id [.stpCancel o] = 0 := rfl
  omega

theorem madeBy_fill (id : OrderId) (t : Trade) :
    madeBy id [.fill t] = if t.makerId = id then t.qty.toNat else 0 := by
  unfold madeBy
  rw [fillsOf_fill]
  by_cases h : t.makerId = id
  · rw [if_pos h, List.filter_cons_of_pos (by simpa using h), List.filter_nil, traded_singleton]
  · rw [if_neg h, List.filter_cons_of_neg (by simpa using h), List.filter_nil, traded_nil]

theorem madeBy_trade (k : Taker) (o : RestingOrder) (p : Progress) (id : OrderId) :
    madeBy id [.fill (k.trade o p)]
      = if o.id = id then min p.left.toNat o.qty.toNat else 0 := by
  have hqty : (k.trade o p).qty.toNat = min p.left.toNat o.qty.toNat := min_toNat _ _
  rw [madeBy_fill, hqty]
  rfl

/-- **A walk conserves every id's quantity.** -/
theorem sweep_conserved (k : Taker) (far : List RestingOrder) (p : Progress) (hacts : p.acts = []) :
    Conserved far (k.sweep far p).1 (k.sweep far p).2.acts := by
  refine (sweep_induction (P := fun far' p => Conserved far far' p.acts)
    (fun id => by simp [hacts, madeBy]) fun far₁ p₁ far₂ p₂ hP hturn => ?_).1
  obtain ⟨o, rest, rfl, -, -, -, ht⟩ := turn_cases hturn
  have hmade : ∀ id, madeBy id (k.filled o p₁).acts
      = madeBy id p₁.acts + if o.id = id then min p₁.left.toNat o.qty.toNat else 0 := by
    intro id
    rw [← madeBy_trade, ← madeBy_append]
    rfl
  have hrem : removalsOf (k.filled o p₁).acts = removalsOf p₁.acts := by simp [Taker.filled]
  cases ht with
  | halt _ _ => exact hP
  | cancel _ _ => exact hP.act
  | fill _ hle =>
    intro id
    have hid := hP id
    rw [UInt32.le_iff_toNat_le] at hle
    rw [queuedBy_cons] at hid
    rw [hmade, hrem]
    split at hid <;> rename_i hoid
    · rw [if_pos hoid]
      omega
    · rw [if_neg hoid]
      omega
  | partFill _ hlt =>
    intro id
    have hid := hP id
    rw [UInt32.lt_iff_toNat_lt] at hlt
    have hqty := Taker.rest_qty o p₁
    have hroid : (Taker.rest o p₁).id = o.id := rfl
    rw [queuedBy_cons] at hid
    rw [hmade, hrem, queuedBy_cons, hqty, hroid]
    split at hid <;> rename_i hoid
    · rw [if_pos hoid, if_pos hoid]
      omega
    · rw [if_neg hoid, if_neg hoid]
      omega

/-- **A walk conserves the far side's volume.** -/
theorem sweep_volume (k : Taker) (far : List RestingOrder) (p : Progress) (hacts : p.acts = []) :
    volume (k.sweep far p).1 + traded (fillsOf (k.sweep far p).2.acts)
      + volume (removalsOf (k.sweep far p).2.acts) = volume far := by
  refine (sweep_induction (P := fun far' p =>
    volume far' + traded (fillsOf p.acts) + volume (removalsOf p.acts) = volume far)
    (by simp [hacts]) fun far₁ p₁ far₂ p₂ hP hturn => ?_).1
  obtain ⟨o, rest, rfl, -, -, -, ht⟩ := turn_cases hturn
  rw [volume_cons] at hP
  have htraded : traded (fillsOf (k.filled o p₁).acts)
      = traded (fillsOf p₁.acts) + min p₁.left.toNat o.qty.toNat := by
    have hqty : (k.trade o p₁).qty.toNat = min p₁.left.toNat o.qty.toNat := min_toNat _ _
    rw [Taker.filled, fillsOf_append, fillsOf_fill, traded_append, traded_singleton, hqty]
  have hrem : removalsOf (k.filled o p₁).acts = removalsOf p₁.acts := by simp [Taker.filled]
  cases ht with
  | halt _ _ => exact hP
  | cancel _ _ =>
    simp only [Taker.cancelled, fillsOf_append, fillsOf_stpCancel, List.append_nil,
      removalsOf_append, removalsOf_stpCancel, volume_append, volume_cons, volume_nil]
    omega
  | fill _ hle =>
    rw [UInt32.le_iff_toNat_le] at hle
    rw [htraded, hrem]
    omega
  | partFill _ hlt =>
    rw [UInt32.lt_iff_toNat_lt] at hlt
    have hqty := Taker.rest_qty o p₁
    rw [htraded, hrem, volume_cons, hqty]
    omega

/-- **An id is removed at most once, and then it is not queued.** -/
theorem sweep_stpIds (k : Taker) (far : List RestingOrder) (p : Progress) (hacts : p.acts = []) :
    ((removalsOf (k.sweep far p).2.acts ++ (k.sweep far p).1).map RestingOrder.id).Sublist
      (far.map RestingOrder.id) := by
  refine (sweep_induction (P := fun far' p =>
    ((removalsOf p.acts ++ far').map RestingOrder.id).Sublist (far.map RestingOrder.id))
    (by simp [hacts]) fun far₁ p₁ far₂ p₂ hP hturn => ?_).1
  obtain ⟨o, rest, rfl, -, -, -, ht⟩ := turn_cases hturn
  have htail : (removalsOf p₁.acts ++ rest).Sublist (removalsOf p₁.acts ++ o :: rest) :=
    (List.Sublist.refl _).append (List.sublist_cons_self o rest)
  cases ht with
  | halt _ _ => exact hP
  | cancel _ _ => simpa [Taker.cancelled] using hP
  | fill _ _ => simpa [Taker.filled] using (htail.map _).trans hP
  | partFill _ _ => simpa [Taker.filled, Taker.rest] using hP

/-! ## Whom the acts meet -/

/-- Each act meets an order of the far side as it was before the walk. -/
structure Met (k : Taker) (far₀ : List RestingOrder) (acts : List Act) : Prop where
  fills : ∀ t ∈ fillsOf acts, ∃ o ∈ far₀, o.id = t.makerId ∧ o.price = t.price
    ∧ k.selfTrade o = false ∧ k.crosses o = true
  removals : ∀ o ∈ removalsOf acts, o ∈ far₀ ∧ k.selfTrade o = true ∧ k.policy = .cancelResting

/-- **Every act meets an order of the far side**; until nothing is wanted, what is left of the far
side is an untouched end of it. -/
theorem sweep_met (k : Taker) (far : List RestingOrder) (p : Progress) (hacts : p.acts = []) :
    Met k far (k.sweep far p).2.acts
      ∧ ((k.sweep far p).2.left = 0 ∨ (k.sweep far p).1 <:+ far) := by
  refine (sweep_induction (P := fun far' p => Met k far p.acts ∧ (p.left = 0 ∨ far' <:+ far))
    ⟨⟨by simp [hacts], by simp [hacts]⟩, Or.inr (List.suffix_refl _)⟩
    fun far₁ p₁ far₂ p₂ hP hturn => ?_).1
  obtain ⟨o, rest, rfl, hleft, -, hcross, ht⟩ := turn_cases hturn
  obtain ⟨hmet, hsuf⟩ := hP
  have hsuf' : (o :: rest) <:+ far := hsuf.resolve_left hleft
  have hrest : rest <:+ far := (List.suffix_cons o rest).trans hsuf'
  have ho : o ∈ far := hsuf'.subset List.mem_cons_self
  have hfilled : k.selfTrade o = false → Met k far (k.filled o p₁).acts := by
    intro hself
    refine ⟨fun t ht => ?_, fun x hx => ?_⟩
    · simp only [Taker.filled, fillsOf_append, fillsOf_fill, List.mem_append,
        List.mem_singleton] at ht
      rcases ht with ht | rfl
      · exact hmet.fills t ht
      · exact ⟨o, ho, rfl, rfl, hself, hcross⟩
    · simp only [Taker.filled, removalsOf_append, removalsOf_fill, List.append_nil] at hx
      exact hmet.removals x hx
  cases ht with
  | halt _ _ => exact ⟨hmet, Or.inr hsuf'⟩
  | cancel hpolicy hself =>
    refine ⟨⟨fun t ht => ?_, fun x hx => ?_⟩, Or.inr hrest⟩
    · simp only [Taker.cancelled, fillsOf_append, fillsOf_stpCancel, List.append_nil] at ht
      exact hmet.fills t ht
    · simp only [Taker.cancelled, removalsOf_append, removalsOf_stpCancel, List.mem_append,
        List.mem_singleton] at hx
      rcases hx with hx | rfl
      · exact hmet.removals x hx
      · exact ⟨ho, hself, hpolicy⟩
  | fill hself _ => exact ⟨hfilled hself, Or.inr hrest⟩
  | partFill hself hlt =>
    refine ⟨hfilled hself, Or.inl (UInt32.toNat_inj.mp ?_)⟩
    rw [UInt32.lt_iff_toNat_lt] at hlt
    rw [k.filled_left, UInt32.toNat_zero]
    omega

end Walk

end Lob
