/-
# Lob.Ledger — where the quantity of every order goes.

An order instance is opened by an accepted submission.  Its account is kept along the history behind
it: what it traded as a taker in its own call, what it made while it rested, and one final part, which
says what became of the rest.  The step lemma is that a call moves what rests under an id to the
trades, to the removals, or nowhere (`Recorded.flow`); the account of an instance then balances after
every call, by induction on the calls after its own.
-/
import Lob.TradeStream

namespace Lob

/-! ## What rests under an id -/

namespace PriorityBook

variable {b : PriorityBook} {id : OrderId} {x : Submission} {o : RestingOrder}

theorem queuedBy_orders (id : OrderId) (b : PriorityBook) (s : Side) :
    queuedBy id b.orders = queuedBy id (b.queue s) + queuedBy id (b.queue s.opposite) := by
  rw [queuedBy_perm id (orders_perm b s), queuedBy_append]

/-- An id has in the book what its order wants. -/
theorem Sound.find_qty (h : b.Sound) (id : OrderId) :
    (b.find id).map (fun o => o.qty.toNat)
      = if queuedBy id b.orders = 0 then none else some (queuedBy id b.orders) := by
  cases hlive : b.live id with
  | false =>
    have hnone : queuedBy id b.orders = 0 := by
      refine queuedBy_eq_zero fun o ho => ?_
      obtain ⟨s, ho⟩ := mem_orders.mp ho
      exact not_live_iff.mp hlive s o ho
    rw [find_eq_none.mpr hlive, if_pos hnone]
    rfl
  | true =>
    obtain ⟨s, o, ho, rfl⟩ := live_iff.mp hlive
    have hqty := queuedBy_of_mem h.nodup (mem_orders.mpr ⟨s, ho⟩)
    have hpos := UInt32.lt_iff_toNat_lt.mp (h.positive s o ho)
    rw [UInt32.toNat_zero] at hpos
    rw [find_of_mem h.nodup ho, hqty, if_neg (by omega)]
    rfl

theorem queuedBy_remove (b : PriorityBook) (id id' : OrderId) :
    queuedBy id (b.remove id').orders = if id' = id then 0 else queuedBy id b.orders := by
  have hfilter : (b.remove id').orders = b.orders.filter fun o => o.id ≠ id' := by
    simp [orders, remove]
  split
  · rename_i heq
    subst heq
    refine queuedBy_eq_zero fun o ho => ?_
    rw [hfilter] at ho
    simpa using (List.mem_filter.mp ho).2
  · rename_i hne
    rw [hfilter, queuedBy, queuedBy, List.filter_filter]
    congr 1
    refine List.filter_congr fun o _ => ?_
    by_cases hid : o.id = id
    · simp [hid, Ne.symm hne]
    · simp [hid]

/-- **A submission moves what rests under another id** to its trades or its removals. -/
theorem Submission.flow (hid : x.taker.id ≠ id) :
    queuedBy id x.execute.2.2.orders + madeBy id x.walk.2.acts
      + queuedBy id (removalsOf x.walk.2.acts) = queuedBy id x.book.orders := by
  have hconserved : queuedBy id x.walk.1 + madeBy id x.walk.2.acts
      + queuedBy id (removalsOf x.walk.2.acts) = queuedBy id (x.book.queue x.taker.side.opposite) :=
    sweep_conserved x.taker _ { left := x.qty, nextSeq := x.book.nextSeq } rfl id
  have hafter : queuedBy id x.after.orders
      = queuedBy id (x.book.queue x.taker.side) + queuedBy id x.walk.1 := by
    rw [queuedBy_orders id _ x.taker.side, x.after_queue_near, x.after_queue_far]
  have hexecute : queuedBy id x.execute.2.2.orders = queuedBy id x.after.orders := by
    rw [x.execute_eq]
    show queuedBy id (if x.rests = true then _ else _ : PriorityBook).orders = _
    split
    · rw [queuedBy_perm id (orders_rest_perm x.after x.taker.side x.leftover), queuedBy_cons,
        if_neg (by exact hid), Nat.zero_add]
    · rfl
  rw [hexecute, hafter, queuedBy_orders id x.book x.taker.side]
  omega

/-- What a submission leaves under its own id. -/
theorem Submission.flow_self (hdead : x.book.live x.taker.id = false) :
    queuedBy x.taker.id x.execute.2.2.orders = if x.rests = true then x.walk.2.left.toNat else 0 := by
  have hafter : queuedBy x.taker.id x.after.orders = 0 := by
    refine queuedBy_eq_zero fun o ho => ?_
    obtain ⟨s, ho⟩ := mem_orders.mp ho
    exact not_live_iff.mp (x.after_not_live hdead) s o ho
  rw [x.execute_eq]
  show queuedBy _ (if x.rests = true then _ else _ : PriorityBook).orders = _
  split
  · rw [queuedBy_perm _ (orders_rest_perm x.after x.taker.side x.leftover), queuedBy_cons, hafter,
      if_pos (by rfl)]
    rfl
  · exact hafter

/-- Among the removals of a walk an id has what its one removed order had. -/
theorem queuedBy_removals {k : Taker} {far : List RestingOrder} {p : Progress}
    (hnd : (far.map RestingOrder.id).Nodup) (hacts : p.acts = [])
    (ho : o ∈ removalsOf (k.sweep far p).2.acts) :
    queuedBy o.id (removalsOf (k.sweep far p).2.acts) = o.qty.toNat := by
  have hids := hnd.sublist (sweep_stpIds k far p hacts)
  rw [List.map_append] at hids
  exact queuedBy_of_mem (List.nodup_append.mp hids).1 ho

end PriorityBook

namespace OrderBook

/-! ## Accounts -/

/-- What became of the part of an instance that was not traded. -/
inductive Part
  | resting (qty : Nat)
  /-- A cancel or a modify took it. -/
  | removed (qty : Nat)
  /-- Self-trade prevention removed it, and counted it in a taker's `stpCancelled`. -/
  | stpCancelled (qty : Nat)
  /-- It could not rest: a market leftover, or that of a halted taker. -/
  | dropped (qty : Nat)
  | filled
  deriving DecidableEq, Repr

def Part.qty : Part → Nat
  | resting n | removed n | stpCancelled n | dropped n => n
  | filled => 0

/-- What an instance made while it rested, and its final part. -/
structure Account where
  made : Nat
  part : Part
  deriving DecidableEq, Repr

/-- What rests under an id. -/
def restingQty (b : OrderBook) (id : OrderId) : Option Nat := (b.find id).join.map (·.qty.toNat)

/-- The instance a call opened: the id and the quantity of an accepted submission. -/
def Record.opened (r : Record) : Option (OrderId × Quantity) :=
  match r.reply, r.call with
  | .report rep, .addLimit id _ _ _ qty => if rep.accepted then some (id, qty) else none
  | .report rep, .addMarket id _ _ qty => if rep.accepted then some (id, qty) else none
  | .report rep, .modify id _ qty => if rep.accepted ∧ qty ≠ 0 then some (id, qty) else none
  | _, _ => none

/-- A cancel or a modify that found the id live. -/
def Record.takesOut (r : Record) (id : OrderId) : Bool :=
  match r.reply, r.call with
  | .cancelled found, .cancel id' => found && id' == id
  | .report rep, .modify id' _ _ => rep.accepted && id' == id
  | _, _ => false

/-- The account of an instance after the call that opened it. -/
def Record.openAccount (r : Record) (id : OrderId) : Account :=
  match r.reply with
  | .report rep =>
    if rep.rested then ⟨0, .resting ((r.after.restingQty id).getD 0)⟩
    else if rep.remaining = 0 then ⟨0, .filled⟩
    else ⟨0, .dropped rep.remaining.toNat⟩
  | _ => ⟨0, .filled⟩

/-- One more call on the account of an instance; only one that rests has anything to lose. -/
def Account.next (acc : Account) (id : OrderId) (r : Record) : Account :=
  match acc.part with
  | .resting _ =>
    if r.takesOut id then ⟨acc.made, .removed ((r.before.restingQty id).getD 0)⟩
    else
      let made := acc.made + madeBy id r.acts
      match (removalsOf r.acts).find? (·.id = id), r.after.restingQty id with
      | some o, _ => ⟨made, .stpCancelled o.qty.toNat⟩
      | none, some n => ⟨made, .resting n⟩
      | none, none => ⟨made, .filled⟩
  | _ => acc

/-- The account of the instance of `id` that `r` opened, after the calls behind it, newest first. -/
def accountOf (id : OrderId) (r : Record) : List Record → Account
  | [] => r.openAccount id
  | r' :: newer => (accountOf id r newer).next id r'

section Ledger

variable {b₀ b : OrderBook} {past newer older : List Record} {r : Record} {policy : SelfTradePolicy}
  {a : PriorityBook} {Q : Layout} {free : List SlotIndex} {id : OrderId} {qty : Quantity} {n : Nat}
  {acc : Account}

/-- What rests under an id, in the priority book. -/
theorem sweep_accepted {k : Taker} {far : List RestingOrder} {p : Progress}
    (h : p.rep.accepted = true) : (k.sweep far p).2.rep.accepted = true := by
  refine (sweep_induction (P := fun _ p => p.rep.accepted = true) h
    fun far₁ s₁ far₂ s₂ hP hturn => ?_).1
  obtain ⟨o, rest, rfl, -, -, -, ht⟩ := turn_cases hturn
  cases ht with
  | halt _ _ => exact hP
  | cancel _ _ => exact hP
  | fill _ _ => exact hP
  | partFill _ _ => exact hP

theorem Follows.restingQty (h : b.Follows a Q free) (hsound : a.Sound) (id : OrderId) :
    b.restingQty id = if queuedBy id a.orders = 0 then none else some (queuedBy id a.orders) := by
  rw [OrderBook.restingQty, h.find, Option.join_some, hsound.find_qty]

theorem execute_accepted (x : PriorityBook.Submission) : x.execute.1.accepted = true := by
  rw [x.execute_eq]
  exact sweep_accepted rfl

/-- A submission of a live id is a modify that takes it out. -/
theorem submission_takesOut {x : PriorityBook.Submission} (hx : a.submission policy r.call = some x)
    (hreply : r.reply = .report x.execute.1) (hlive : a.live x.taker.id = true) :
    r.takesOut x.taker.id = true := by
  have hsub := PriorityBook.submits hx
  have haccepted := execute_accepted x
  unfold Record.takesOut
  rw [hreply]
  generalize r.call = c at hsub
  cases hsub with
  | addLimit hqty hdead => exact absurd hlive (by simp [hdead])
  | addMarket hqty hdead => exact absurd hlive (by simp [hdead])
  | modify hqty hfind => simpa using haccepted

/-- An opened instance is the submission of its call. -/
theorem Recorded.opened (h : Recorded policy a r) (hopened : r.opened = some (id, qty)) :
    ∃ x, a.submission policy r.call = some x ∧ x.taker.id = id ∧ x.qty = qty
      ∧ r.reply = .report x.execute.1 ∧ r.acts = x.walk.2.acts
      ∧ (a.perform policy r.call).2.2 = x.execute.2.2 := by
  unfold Record.opened at hopened
  cases h.told with
  | submitted x hx hreply hacts hafter =>
    refine ⟨x, hx, ?_, ?_, hreply, hacts, hafter⟩
    all_goals
      have hsub := PriorityBook.submits hx
      have haccepted := execute_accepted x
      rw [hreply] at hopened
      generalize r.call = c at hsub hopened
      cases hsub <;> simp_all
  | rejected qty hx hreply hacts hafter =>
    rw [hreply] at hopened
    cases hc : r.call <;> simp [hc] at hopened
  | cancelled id' hx hcall hreply hacts hafter => simp [hreply] at hopened
  | emptied id' p hx hcall hlive hreply hacts hafter => simp [hreply, hcall] at hopened
  | popped t hx hcall hreply hacts hafter => simp [hreply] at hopened

/-- **The step lemma of the ledger**: a call that does not take an id out, and is no submission of it,
moves what rests under the id to its trades or to its removals. -/
theorem Recorded.flow (h : Recorded policy a r) (hlive : a.live id = true)
    (hstays : r.takesOut id = false) :
    queuedBy id (a.perform policy r.call).2.2.orders + madeBy id r.acts
      + queuedBy id (removalsOf r.acts) = queuedBy id a.orders := by
  have quiet : ∀ a' : PriorityBook, r.acts = [] → queuedBy id a'.orders = queuedBy id a.orders →
      queuedBy id a'.orders + madeBy id r.acts + queuedBy id (removalsOf r.acts)
        = queuedBy id a.orders := by
    intro a' hacts heq
    have hmade : madeBy id [] = 0 := rfl
    simp [hacts, heq, hmade]
  cases h.told with
  | submitted x hx hreply hacts hafter =>
    have hne : x.taker.id ≠ id := by
      rintro rfl
      rw [submission_takesOut hx hreply hlive] at hstays
      simp at hstays
    have hbook : queuedBy id x.book.orders = queuedBy id a.orders := by
      rcases (PriorityBook.submission_fresh hx).book with hbook | hbook
      · rw [hbook]
      · rw [hbook, PriorityBook.queuedBy_remove, if_neg hne]
    rw [hafter, hacts, x.flow hne, hbook]
  | rejected qty hx hreply hacts hafter =>
    rw [hafter]
    exact quiet a hacts rfl
  | cancelled id' hx hcall hreply hacts hafter =>
    have hne : id' ≠ id := by
      rintro rfl
      simp [Record.takesOut, hreply, hcall, hlive] at hstays
    rw [hafter]
    exact quiet _ hacts (by rw [PriorityBook.queuedBy_remove, if_neg hne])
  | emptied id' p hx hcall hlive' hreply hacts hafter =>
    have hne : id' ≠ id := by
      rintro rfl
      simp [Record.takesOut, hreply, hcall] at hstays
    rw [hafter]
    exact quiet _ hacts (by rw [PriorityBook.queuedBy_remove, if_neg hne])
  | popped t hx hcall hreply hacts hafter =>
    rw [hafter]
    exact quiet a hacts rfl

/-- An order removed from a call's far side is all that rested under its id. -/
theorem Recorded.removed {o : RestingOrder} (h : Recorded policy a r) (hsound : a.Sound)
    (ho : o ∈ removalsOf r.acts) :
    queuedBy o.id (removalsOf r.acts) = o.qty.toNat ∧ queuedBy o.id a.orders = o.qty.toNat := by
  have quiet : r.acts ≠ [] := by
    intro hacts
    simp [hacts] at ho
  cases h.told with
  | submitted x hx hreply hacts hafter =>
    rw [hacts] at ho ⊢
    have hbook : x.book.Sound ∧ ∀ s, ∀ u ∈ x.book.queue s, u ∈ a.queue s := by
      rcases (PriorityBook.submission_fresh hx).book with hbook | hbook
      · exact ⟨hbook ▸ hsound, fun s u hu => hbook ▸ hu⟩
      · exact ⟨hbook ▸ hsound.remove _, fun s u hu => (PriorityBook.mem_remove.mp (hbook ▸ hu)).1⟩
    have hfar : ((x.book.queue x.taker.side.opposite).map RestingOrder.id).Nodup := by
      have hperm := (PriorityBook.orders_perm x.book x.taker.side).map RestingOrder.id
      rw [List.map_append] at hperm
      exact (List.nodup_append.mp (hperm.nodup_iff.mp hbook.1.nodup)).2.1
    have hmem := (sweep_met x.taker _ { left := x.qty, nextSeq := x.book.nextSeq } rfl).1.removals o ho
    exact ⟨PriorityBook.queuedBy_removals hfar rfl ho,
      queuedBy_of_mem hsound.nodup (PriorityBook.mem_orders.mpr ⟨_, hbook.2 _ o hmem.1⟩)⟩
  | rejected qty hx hreply hacts hafter => exact absurd hacts quiet
  | cancelled id' hx hcall hreply hacts hafter => exact absurd hacts quiet
  | emptied id' p hx hcall hlive hreply hacts hafter => exact absurd hacts quiet
  | popped t hx hcall hreply hacts hafter => exact absurd hacts quiet

/-! ## Balanced accounts -/

/-- The account of an instance of `id` opened by `r` for `qty`, as it stands with the book `b`. -/
structure Balanced (r : Record) (id : OrderId) (qty : Quantity) (acc : Account) (b : OrderBook) :
    Prop where
  sum : traded r.trades + acc.made + acc.part.qty = qty.toNat
  resting : ∀ n, acc.part = .resting n → b.restingQty id = some n

/-- **An account balances when it is opened.** -/
theorem Recorded.openAccount (h : Recorded policy a r) (hsound : a.Sound)
    (hafter : (a.perform policy r.call).2.2.Sound) (hopened : r.opened = some (id, qty)) :
    Balanced r id qty (r.openAccount id) r.after ∧ ∀ t ∈ r.trades, t.takerId = id := by
  obtain ⟨x, hx, rfl, rfl, hreply, hacts, hbook⟩ := h.opened hopened
  obtain ⟨Q, free, hf⟩ := h.after
  have htally := submission_tally hsound hx
  have hself := PriorityBook.Submission.flow_self (PriorityBook.submission_fresh hx).live
  have hresting := hf.restingQty hafter x.taker.id
  rw [hbook, hself] at hresting
  have hleft := htally.left
  have htrades : r.trades = fillsOf x.walk.2.acts := by rw [Record.trades, hacts]
  have hremaining : x.execute.1.remaining = x.walk.2.left := by rw [x.execute_eq]
  refine ⟨?_, fun t ht => (htally.taker t (htrades ▸ ht)).1⟩
  unfold Record.openAccount
  rw [hreply]
  simp only [execute_rested, hremaining]
  by_cases hrests : x.rests = true
  · have hpos : x.walk.2.left.toNat ≠ 0 := by
      have hlt := UInt32.lt_iff_toNat_lt.mp (x.rests_iff.mp hrests).2.1
      rw [UInt32.toNat_zero] at hlt
      omega
    rw [if_pos hrests, if_neg hpos] at hresting
    rw [if_pos hrests, hresting]
    refine ⟨?_, fun n hn => ?_⟩
    · rw [htrades]
      simp only [Part.qty, Option.getD_some]
      omega
    · rw [hresting, ← Part.resting.inj hn]
      rfl
  · rw [if_neg hrests]
    split
    · rename_i hzero
      rw [hzero] at hleft
      refine ⟨?_, fun n hn => by simp at hn⟩
      rw [htrades]
      simpa [Part.qty] using hleft
    · refine ⟨?_, fun n hn => by simp at hn⟩
      rw [htrades]
      simp only [Part.qty]
      omega

/-- **An account still balances after one more call.** -/
theorem Recorded.nextAccount {r' : Record} (h : Recorded policy a r') (hsound : a.Sound)
    (hafter : (a.perform policy r'.call).2.2.Sound) (hacc : Balanced r id qty acc r'.before) :
    Balanced r id qty (acc.next id r') r'.after := by
  obtain ⟨made, part⟩ := acc
  cases part with
  | resting n =>
    obtain ⟨Q, free, hf⟩ := h.before
    obtain ⟨Q', free', hf'⟩ := h.after
    have hnow := hacc.resting n rfl
    have hqueued := hf.restingQty hsound id
    have hrest' := hf'.restingQty hafter id
    rw [hnow] at hqueued
    have hn : n = queuedBy id a.orders ∧ n ≠ 0 := by
      split at hqueued
      · simp at hqueued
      · rename_i hne
        obtain rfl := Option.some.inj hqueued
        exact ⟨rfl, hne⟩
    -- a resting account has an order behind it
    have hlive : a.live id = true := by
      by_contra hdead
      refine hn.2 (hn.1.trans (queuedBy_eq_zero fun o ho => ?_))
      obtain ⟨s, ho⟩ := PriorityBook.mem_orders.mp ho
      exact PriorityBook.not_live_iff.mp (Bool.not_eq_true _ ▸ hdead) s o ho
    have hsum := hacc.sum
    unfold Account.next
    simp only [Part.qty] at hsum ⊢
    split
    · refine ⟨?_, nofun⟩
      simpa [hnow, Part.qty] using hsum
    · rename_i hstays
      have hflow := h.flow hlive (Bool.eq_false_iff.mpr hstays)
      -- it was taken out by prevention, or else it traded, to the end or not
      cases hfind : (removalsOf r'.acts).find? (·.id = id) with
      | some o =>
        have hid : o.id = id := by simpa using List.find?_some hfind
        subst hid
        obtain ⟨hall, hle⟩ := h.removed hsound (List.mem_of_find?_eq_some hfind)
        refine ⟨?_, nofun⟩
        simp only [Part.qty]
        omega
      | none =>
        have hnone : queuedBy id (removalsOf r'.acts) = 0 :=
          queuedBy_eq_zero fun o ho => by simpa using List.find?_eq_none.mp hfind o ho
        by_cases hzero : queuedBy id (a.perform policy r'.call).2.2.orders = 0
        · rw [hrest', if_pos hzero]
          refine ⟨?_, nofun⟩
          simp only [Part.qty]
          omega
        · rw [if_neg hzero] at hrest'
          rw [hrest']
          refine ⟨?_, fun m hm => ?_⟩
          · simp only [Part.qty]
            omega
          · rw [hrest', ← Part.resting.inj hm]
  | removed n => exact ⟨hacc.sum, nofun⟩
  | stpCancelled n => exact ⟨hacc.sum, nofun⟩
  | dropped n => exact ⟨hacc.sum, nofun⟩
  | filled => exact ⟨hacc.sum, nofun⟩

/-- Only a market leftover or a halted taker's is dropped, and then there is some. -/
theorem Recorded.dropped (h : Recorded policy a r) (hopened : r.opened = some (id, qty))
    (hpart : (r.openAccount id).part = .dropped n) :
    0 < n ∧ ((∃ owner side, r.call = .addMarket id owner side qty)
      ∨ ∃ rep, r.reply = .report rep ∧ rep.stpHalted = true) := by
  obtain ⟨x, hx, rfl, rfl, hreply, hacts, hbook⟩ := h.opened hopened
  have hremaining : x.execute.1.remaining = x.walk.2.left := by rw [x.execute_eq]
  have hhalted : x.execute.1.stpHalted = x.walk.2.rep.stpHalted := by rw [x.execute_eq]
  unfold Record.openAccount at hpart
  rw [hreply] at hpart
  simp only [execute_rested, hremaining] at hpart
  by_cases hrests : x.rests = true
  · simp [if_pos hrests] at hpart
  · rw [if_neg hrests] at hpart
    split at hpart
    · simp at hpart
    · rename_i hzero
      have hn : x.walk.2.left.toNat = n := Part.dropped.inj hpart
      have hpos : 0 < x.walk.2.left := by
        rw [UInt32.lt_iff_toNat_lt, UInt32.toNat_zero]
        exact Nat.pos_of_ne_zero fun h0 => hzero (UInt32.toNat_inj.mp h0)
      have hlt := UInt32.lt_iff_toNat_lt.mp hpos
      rw [UInt32.toNat_zero] at hlt
      refine ⟨hn ▸ hlt, ?_⟩
      cases hhalt : x.walk.2.rep.stpHalted with
      | true => exact Or.inr ⟨_, hreply, hhalted.trans hhalt⟩
      | false =>
        left
        have hsub := PriorityBook.submits hx
        have hno : x.restLeftover ≠ true := fun hyes => hrests (x.rests_iff.mpr ⟨hyes, hpos, hhalt⟩)
        generalize r.call = c at hsub
        cases hsub with
        | addLimit _ _ => exact absurd rfl hno
        | addMarket _ _ => exact ⟨_, _, rfl⟩
        | modify _ _ => exact absurd rfl hno

/-- No later call drops anything of an instance. -/
theorem accountOf_dropped (h : (accountOf id r newer).part = .dropped n) :
    (r.openAccount id).part = .dropped n := by
  induction newer with
  | nil => exact h
  | cons r' newer ih =>
    refine ih ?_
    rw [accountOf] at h
    unfold Account.next at h
    split at h
    · split at h
      · simp at h
      · split at h <;> simp at h
    · exact h

/-! ## What an add does to the two sides -/

/-- The books of an accepted add of `qty` on `side`, between its report and the resting volume. -/
structure Booked (r : Record) (rep : ExecReport) (side : Side) (qty : Quantity) : Prop where
  wanted : rep.filled.toNat + rep.remaining.toNat = qty.toNat
  far : ∃ os os', r.before.restingOn side.opposite = some os
    ∧ r.after.restingOn side.opposite = some os'
    ∧ volume os' + rep.filled.toNat + rep.stpCancelled.toNat = volume os
  near : ∃ os os', r.before.restingOn side = some os ∧ r.after.restingOn side = some os'
    ∧ volume os' = volume os + if rep.rested then rep.remaining.toNat else 0

/-- **An add moves volume as its report says.** -/
theorem Recorded.booked {x : PriorityBook.Submission} (h : Recorded policy a r) (hsound : a.Sound)
    (hx : a.submission policy r.call = some x) (hbook : x.book = a)
    (hafter : (a.perform policy r.call).2.2 = x.execute.2.2) :
    Booked r x.execute.1 x.taker.side x.qty := by
  obtain ⟨Q, free, hf⟩ := h.before
  obtain ⟨Q', free', hf'⟩ := h.after
  rw [hafter] at hf'
  have htally := submission_tally hsound hx
  have hvolume : volume x.walk.1 + traded (fillsOf x.walk.2.acts)
      + volume (removalsOf x.walk.2.acts) = volume (x.book.queue x.taker.side.opposite) :=
    sweep_volume x.taker _ { left := x.qty, nextSeq := x.book.nextSeq } rfl
  have hlt := hf.volume_lt x.taker.side.opposite
  rw [hbook] at hvolume
  have hstp : x.walk.2.rep.stpCancelled.toNat = volume (removalsOf x.walk.2.acts) := by
    rw [htally.removed, UInt64.toNat_ofNat', Nat.mod_eq_of_lt (by omega)]
  have hfilled := htally.filled
  have hleft := htally.left
  have hrested := execute_rested x
  have hnear : x.after.queue x.taker.side = a.queue x.taker.side := by
    rw [x.after_queue_near, hbook]
  have hfar := x.after_queue_far
  refine ⟨?_, ⟨_, _, hf.restingOn _, hf'.restingOn _, ?_⟩, ⟨_, _, hf.restingOn _, hf'.restingOn _, ?_⟩⟩
  · rw [x.execute_eq]
    simp only
    omega
  · have hqueue : x.execute.2.2.queue x.taker.side.opposite = x.walk.1 := by
      rw [x.execute_eq]
      show (if x.rests = true then _ else _ : PriorityBook).queue _ = _
      split
      · rw [PriorityBook.queue_rest_opposite, hfar]
      · exact hfar
    rw [hqueue, x.execute_eq]
    simp only
    omega
  · rw [hrested, x.execute_eq]
    show volume ((if x.rests = true then _ else _ : PriorityBook).queue _) = _
    split
    · rw [PriorityBook.queue_rest_self, volume_perm PriorityBook.enqueue_perm, volume_cons, hnear]
      exact Nat.add_comm _ _
    · rw [hnear]
      rfl

/-- **What a report says was cancelled** is what the removals of its call add up to. -/
theorem Recorded.stpCancelled {rep : ExecReport} (h : Recorded policy a r) (hsound : a.Sound)
    (hrep : r.reply = .report rep) : rep.stpCancelled.toNat = volume (removalsOf r.acts) := by
  obtain ⟨Q, free, hf⟩ := h.before
  cases h.told with
  | submitted x hx hreply hacts hafter =>
    have htally := submission_tally hsound hx
    have hvolume : volume x.walk.1 + traded (fillsOf x.walk.2.acts)
        + volume (removalsOf x.walk.2.acts) = volume (x.book.queue x.taker.side.opposite) :=
      sweep_volume x.taker _ { left := x.qty, nextSeq := x.book.nextSeq } rfl
    have hle : volume (x.book.queue x.taker.side.opposite) ≤ volume (a.queue x.taker.side.opposite) := by
      rcases (PriorityBook.submission_fresh hx).book with hbook | hbook
      · rw [hbook]
      · rw [hbook]
        exact volume_filter_le _ _
    have hlt := hf.volume_lt x.taker.side.opposite
    rw [hreply] at hrep
    rw [← Reply.report.inj hrep, hacts, x.execute_eq]
    show x.walk.2.rep.stpCancelled.toNat = _
    rw [htally.removed, UInt64.toNat_ofNat', Nat.mod_eq_of_lt (by omega)]
  | rejected qty hx hreply hacts hafter =>
    rw [hreply] at hrep
    rw [← Reply.report.inj hrep, hacts]
    rfl
  | cancelled id hx hcall hreply hacts hafter => simp [hreply] at hrep
  | emptied id p hx hcall hlive hreply hacts hafter =>
    rw [hreply] at hrep
    rw [← Reply.report.inj hrep, hacts]
    rfl
  | popped t hx hcall hreply hacts hafter => simp [hreply] at hrep

/-! ## Runs -/

/-- The account of an instance of `id` opened by `r` for `qty`, with the book `b` and the calls made
since. -/
structure Accounted (r : Record) (id : OrderId) (qty : Quantity) (acc : Account) (b : OrderBook) :
    Prop extends Balanced r id qty acc b where
  taker : ∀ t ∈ r.trades, t.takerId = id
  dropped : ∀ n, acc.part = .dropped n → 0 < n ∧ ((∃ owner side, r.call = .addMarket id owner side qty)
    ∨ ∃ rep, r.reply = .report rep ∧ rep.stpHalted = true)

/-- **The run lemma of the ledger.** -/
theorem Run.accounted {Q₀ : Layout} {free₀ : List SlotIndex} (h₀ : b₀.Follows {} Q₀ free₀)
    (h : Run b₀ (newer ++ r :: older) b) (hopened : r.opened = some (id, qty)) :
    Accounted r id qty (accountOf id r newer) b := by
  induction newer generalizing b with
  | nil =>
    have hrec := Run.recorded_head h₀ h
    obtain ⟨hbalanced, htaker⟩ := hrec.openAccount (h.cons_inv.2.1.inOrder h₀).2 (h.inOrder h₀).2 hopened
    exact ⟨h.cons_inv.1 ▸ hbalanced, htaker, fun n hn => hrec.dropped hopened hn⟩
  | cons r' newer ih =>
    obtain ⟨rfl, hrun, -⟩ := h.cons_inv
    have hacc := ih hrun
    have hrec : Recorded b₀.policy (replayOf b₀ (newer ++ r :: older)) r' := Run.recorded_head h₀ h
    refine ⟨hrec.nextAccount (hrun.inOrder h₀).2 (h.inOrder h₀).2 hacc.toBalanced, hacc.taker,
      fun n hn => ?_⟩
    have hopen : (r.openAccount id).part = .dropped n :=
      accountOf_dropped (show (accountOf id r (r' :: newer)).part = .dropped n from hn)
    have hsplit : Run b₀ ((r' :: newer) ++ r :: older) r'.after := h
    exact (hsplit.recorded h₀).dropped hopened hopen

/-- **Quantity is conserved for every order over every run**: the quantity of every instance is what
its own call traded, what it made while it rested, and one final part; every report's totals are those
of its call's trades and removals; and every accepted add moves the two sides by what it reports. -/
theorem quantity_conserved {scrub : RestingOrder → RestingOrder} {cfg : Config}
    (hnew : OrderBook.new scrub cfg = some b₀) (hrun : Run b₀ past b) :
    (∀ newer r older id qty, past = newer ++ r :: older → r.opened = some (id, qty) →
        Accounted r id qty (accountOf id r newer) b)
      ∧ (∀ r ∈ past, ∀ rep, r.reply = .report rep →
        rep.filled.toNat = traded r.trades ∧ rep.stpCancelled.toNat = volume (removalsOf r.acts))
      ∧ ∀ r ∈ past, ∀ id owner side price qty rep,
        (r.call = .addLimit id owner side price qty ∨ r.call = .addMarket id owner side qty) →
        r.reply = .report rep → rep.accepted = true → Booked r rep side qty := by
  have h₀ := (new_follows hnew).1
  have located : ∀ r ∈ past, ∃ older, Recorded b₀.policy (replayOf b₀ older) r
      ∧ (replayOf b₀ older).Sound := by
    intro r hr
    obtain ⟨newer, older, rfl⟩ := List.append_of_mem hr
    obtain ⟨b', hrun'⟩ := hrun.earlier
    exact ⟨older, hrun.recorded h₀, (hrun'.cons_inv.2.1.inOrder h₀).2⟩
  refine ⟨?_, ?_, ?_⟩
  · rintro newer r older id qty rfl hopened
    exact hrun.accounted h₀ hopened
  · intro r hr rep hrep
    obtain ⟨older, hrec, hsound⟩ := located r hr
    exact ⟨(hrec.reported hsound hrep).filled, hrec.stpCancelled hsound hrep⟩
  · intro r hr id owner side price qty rep hcall hrep haccepted
    obtain ⟨older, hrec, hsound⟩ := located r hr
    have hopened : r.opened = some (id, qty) := by
      rcases hcall with hcall | hcall <;> simp [Record.opened, hrep, hcall, haccepted]
    obtain ⟨x, hx, -, hqty, hreply, hacts, hafter⟩ := hrec.opened hopened
    have hsub := PriorityBook.submits hx
    have hshape : x.book = replayOf b₀ older ∧ x.taker.side = side := by
      rcases hcall with hcall | hcall
      · rw [hcall] at hsub
        cases hsub
        exact ⟨rfl, rfl⟩
      · rw [hcall] at hsub
        cases hsub
        exact ⟨rfl, rfl⟩
    rw [hrep] at hreply
    rw [Reply.report.inj hreply, ← hshape.2, ← hqty]
    exact hrec.booked hsound hx hshape.1 hafter

end Ledger

/-- Of a bid for 5, a market order takes 4 and a modify the last one. -/
theorem quantity_conserved_modified : ∃ b₀ newer r b, OrderBook.new id {} = some b₀
    ∧ Run b₀ (newer ++ [r]) b ∧ (newer ++ [r]).map Record.call = [.modify 1 100 4,
      .addMarket 3 9 .sell 4, .addLimit 2 8 .buy 100 5, .addLimit 1 7 .buy 100 5]
    ∧ accountOf 1 r newer = ⟨4, .removed 1⟩ ∧ Accounted r 1 5 (accountOf 1 r newer) b := by
  obtain ⟨b₀, past, b, r, hnew, hrun, hcalls, hr⟩ := exists_run id {} {} [.modify 1 100 4,
    .addMarket 3 9 .sell 4, .addLimit 2 8 .buy 100 5, .addLimit 1 7 .buy 100 5]
    (fun past _ => past.getLast?.bind fun r =>
      if r.opened = some (1, 5) ∧ accountOf 1 r past.dropLast = ⟨4, .removed 1⟩ then some r else none)
    (by decide +kernel)
  obtain ⟨r', hlast, hr⟩ := Option.bind_eq_some_iff.mp hr
  split at hr
  · rename_i hacc
    obtain rfl := Option.some.inj hr
    have hsplit : past.dropLast ++ [r'] = past := List.dropLast_append_getLast? r' hlast
    exact ⟨b₀, past.dropLast, r', b, hnew, hsplit.symm ▸ hrun, hsplit.symm ▸ hcalls, hacc.2,
      (quantity_conserved hnew hrun).1 past.dropLast r' [] 1 5 hsplit.symm hacc.1⟩
  · simp at hr

end OrderBook

end Lob
