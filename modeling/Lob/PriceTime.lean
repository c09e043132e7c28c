/-
# Lob.PriceTime — who is served next, at every step of the matching loop.

A step of the loop is quiet, halts the taker, or acts on one order of the far side (`Stepwise`): the
one that, at that moment, has the best price and among those the earliest rest time.  Rest times are
read off the history, so this links a run of the book to queues that store no time at all.
-/
import Lob.RunRefine

namespace Lob

open Lib.Ranked Lib.Machine

/-! ## Lookups around an act -/

namespace PriorityBook

section Find

variable {b b' : PriorityBook} {id : OrderId} {s : Side} {o : RestingOrder}
  {rest far' : List RestingOrder}

/-- Two books that hold the same orders under an id answer the same for it. -/
theorem find_congr (hnd : (b.orders.map RestingOrder.id).Nodup)
    (hnd' : (b'.orders.map RestingOrder.id).Nodup)
    (h : ∀ s o, o.id = id → (o ∈ b'.queue s ↔ o ∈ b.queue s)) : b'.find id = b.find id := by
  cases hlive : b.live id with
  | false =>
    have hno := not_live_iff.mp hlive
    have hlive' : b'.live id = false := not_live_iff.mpr fun s o ho hid =>
      hno s o ((h s o hid).mp ho) hid
    rw [find_eq_none.mpr hlive, find_eq_none.mpr hlive']
  | true =>
    obtain ⟨s, o, ho, rfl⟩ := live_iff.mp hlive
    rw [find_of_mem hnd ho, find_of_mem hnd' ((h s o rfl).mpr ho)]

/-- No other order has the id of the front order. -/
theorem front_unique (hnd : (b.orders.map RestingOrder.id).Nodup) (hfront : b.queue s = o :: rest) :
    (∀ x ∈ rest, x.id ≠ o.id) ∧ ∀ x ∈ b.queue s.opposite, x.id ≠ o.id := by
  rw [((b.orders_perm s).map _).nodup_iff, hfront, List.cons_append, List.map_cons,
    List.nodup_cons, List.map_append] at hnd
  refine ⟨fun x hx heq => hnd.1 ?_, fun x hx heq => hnd.1 ?_⟩
  · exact List.mem_append_left _ (heq ▸ List.mem_map_of_mem hx)
  · exact List.mem_append_right _ (heq ▸ List.mem_map_of_mem hx)

/-- The book with one side rewritten. -/
def setSide (b : PriorityBook) (s : Side) (far : List RestingOrder) : PriorityBook :=
  { b with queue := Function.update b.queue s far }

@[simp] theorem setSide_self (b : PriorityBook) (s : Side) (far : List RestingOrder) :
    (b.setSide s far).queue s = far := Function.update_self ..

/-- A side replaced by itself. -/
theorem setSide_eq_self {b : PriorityBook} {s : Side} {far : List RestingOrder} (h : far = b.queue s) :
    b.setSide s far = b := by
  rw [h, setSide]
  exact congrArg (fun q => ({ b with queue := q } : PriorityBook)) (Function.update_eq_self s b.queue)

@[simp] theorem setSide_opposite (b : PriorityBook) (s : Side) (far : List RestingOrder) :
    (b.setSide s far).queue s.opposite = b.queue s.opposite :=
  Function.update_of_ne s.opposite_ne _ _

/-- **Taking the front order out, or reducing it, changes no other lookup.** -/
theorem find_act (hnd : (b.orders.map RestingOrder.id).Nodup) (hfront : b.queue s = o :: rest)
    (hnd' : ((b.setSide s far').orders.map RestingOrder.id).Nodup)
    (hfar : far' = rest ∨ ∃ o', far' = o' :: rest ∧ o'.id = o.id) :
    (b.setSide s far').find id
      = if id = o.id then (if far' = rest then none else far'.head?.map (RestingOrder.toOrder s))
        else b.find id := by
  obtain ⟨hrest, hopp⟩ := front_unique hnd hfront
  split
  · rename_i hid
    subst hid
    split
    · rename_i hgone
      refine find_eq_none.mpr (not_live_iff.mpr fun t x hx => ?_)
      rcases Side.eq_or_eq_opposite s t with rfl | rfl
      · rw [setSide_self, hgone] at hx
        exact hrest x hx
      · rw [setSide_opposite] at hx
        exact hopp x hx
    · rename_i hkept
      rcases hfar with hfar | ⟨o', hfar, hid⟩
      · exact absurd hfar hkept
      · rw [← hid, find_of_mem hnd' (s := s) (o := o') (by rw [setSide_self, hfar]; simp), hfar]
        rfl
  · rename_i hne
    refine find_congr hnd hnd' fun t x hx => ?_
    rcases Side.eq_or_eq_opposite s t with rfl | rfl
    · rw [setSide_self, hfront]
      have hxo : x ≠ o := fun heq => hne (heq ▸ hx.symm)
      rcases hfar with rfl | ⟨o', rfl, hid⟩
      · simp [hxo]
      · have hxo' : x ≠ o' := fun heq => hne (by rw [← hx, heq, hid])
        simp [hxo, hxo']
    · rw [setSide_opposite]

end Find

end PriorityBook

/-- What the matching loop has done so far. -/
def Matching.acts (m : Matching) : List Act := m.events.map Event.act

namespace OrderBook

/-! ## What a step of the loop does -/

/-- `o` is the next far order to be served: it is at the front of its side, at a price the taker's
limit accepts, and every order behind it has a worse price or the same price and a later stamp. -/
structure Next (stamp : OrderId → Nat) (x : Attempt) (m : Matching) (o : RestingOrder) : Prop where
  front : ∃ rest, m.book.restingOn x.incoming.side.opposite = some (o :: rest)
    ∧ ∀ y ∈ rest, PriorityBook.Before stamp x.incoming.side.opposite.isBid o y
  crosses : Lob.crosses x.incoming.side x.limit o.price = true

/-- The taker and a resting order have one owner, and it is not anonymous. -/
def SameOwner (x : Attempt) (o : RestingOrder) : Prop :=
  o.owner = x.incoming.owner ∧ o.owner ≠ kAnonymous

/-- The trade of a taker with the order it meets. -/
def tradeWith (x : Attempt) (m : Matching) (o : RestingOrder) : Trade :=
  ⟨m.book.nextSeq, o.id, x.incoming.id, o.price, min m.incoming.qty o.qty, x.incoming.side⟩

/-- The ways a step of the loop can go: a move between two places of the loop, a halt in front of an
order of the taker's owner, a trade with the next order, or the removal of the next order.  `find`
says what each leaves of every order. -/
inductive Stepwise (stamp : OrderId → Nat) (x : Attempt) (m m' : Matching) : Prop
  | quiet (hacts : m'.acts = m.acts) (hrep : m'.rep = m.rep) (hleft : m'.incoming = m.incoming)
      (hfind : ∀ id, m'.book.find id = m.book.find id)
  | halt (o : RestingOrder) (hnext : Next stamp x m o) (hpolicy : x.book.policy = .cancelIncoming)
      (hself : SameOwner x o) (hacts : m'.acts = m.acts)
      (hrep : m'.rep = { m.rep with stpHalted := true }) (hleft : m'.incoming = m.incoming)
      (hfind : ∀ id, m'.book.find id = m.book.find id)
  | trade (o : RestingOrder) (hnext : Next stamp x m o)
      (hself : x.book.policy ≠ .allow → ¬ SameOwner x o)
      (hacts : m'.acts = m.acts ++ [.fill (tradeWith x m o)])
      (hleft : m'.incoming = { m.incoming with qty := m.incoming.qty - min m.incoming.qty o.qty })
      (hfind : ∀ id, m'.book.find id = if id = o.id then
          some (if o.qty ≤ m.incoming.qty then none
            else some (RestingOrder.toOrder x.incoming.side.opposite
              { o with qty := o.qty - min m.incoming.qty o.qty }))
        else m.book.find id)
  | removal (o : RestingOrder) (hnext : Next stamp x m o) (hpolicy : x.book.policy = .cancelResting)
      (hself : SameOwner x o) (hacts : m'.acts = m.acts ++ [.stpCancel o])
      (hleft : m'.incoming = m.incoming)
      (hfind : ∀ id, m'.book.find id = if id = o.id then some none else m.book.find id)

section Steps

variable {stamp : OrderId → Nat} {x : Attempt} {y : PriorityBook.Submission} {Q₀ : Layout}
  {free₀ : List SlotIndex} {m m' : Matching} {o : RestingOrder}

theorem selfTrade_iff : (x.start.taker x.limit).selfTrade o = true ↔
    x.book.policy ≠ .allow ∧ SameOwner x o := by
  have hself : (x.start.taker x.limit).selfTrade o
      = (decide (x.book.policy ≠ .allow) && decide (x.incoming.owner ≠ kAnonymous)
        && x.incoming.owner == o.owner) := rfl
  rw [hself]
  simp only [Bool.and_eq_true, decide_eq_true_eq, beq_iff_eq, SameOwner]
  constructor
  · rintro ⟨⟨hp, hanon⟩, heq⟩
    exact ⟨hp, heq.symm, heq ▸ hanon⟩
  · rintro ⟨hp, heq, hanon⟩
    exact ⟨⟨hp, heq ▸ hanon⟩, heq.symm⟩

/-- **Every step of the loop is quiet, or meets the next order of the far side.** -/
theorem Attempt.Follows.stepwise (h : x.Follows y Q₀ free₀) (hord : y.book.InOrder stamp)
    (hreach : Reaches (Matching.step x.limit) x.start m) (hstep : m.step x.limit = some m') :
    Stepwise stamp x m m' := by
  obtain ⟨Q, free, hw, hsince⟩ :=
    (h.book.linked.walked h.book.settled h.book.live x.incoming x.limit).reaches hreach
  by_cases hctl : m.ctl = .done
  · rw [Matching.step, hctl] at hstep
    obtain rfl := Option.some.inj hstep
    exact .quiet rfl rfl rfl fun _ => rfl
  obtain ⟨m₁, Q₁, free₁, hstep₁, hw₁, hst⟩ := hw.step hctl
  rw [hstep] at hstep₁
  obtain rfl := Option.some.inj hstep₁
  have hside : m.incoming.side = x.incoming.side := hsince.side
  have hfar : m.far = x.incoming.side.opposite := by rw [Matching.far, hside]
  have htaker : m.taker x.limit = x.start.taker x.limit := hsince.taker
  have hpolicy : x.book.policy = (m.taker x.limit).policy := by rw [htaker]; rfl
  -- the priority books of the two states differ on the far side only
  let a : PriorityBook := { queue := fun t => ordersOf (Q t), nextSeq := m.book.nextSeq }
  have hqueue₁ : ∀ t, (a.setSide m.far (ordersOf (Q₁ m.far))).queue t = ordersOf (Q₁ t) := by
    intro t
    rcases Side.eq_or_eq_opposite m.far t with heq | heq
    · rw [heq, PriorityBook.setSide_self]
    · have hopp : m.far.opposite = m.incoming.side := Side.opposite_opposite _
      rw [heq, PriorityBook.setSide_opposite, hopp, hst.near]
  have hfind := fun id => hw.linked.find (a := a) (fun _ => rfl) id
  have hfind₁ := fun id => hw₁.linked.find hqueue₁ id
  have hin : ∀ n, m'.incoming.qty = n → m'.incoming = { m.incoming with qty := n } := by
    rintro n rfl
    rw [← hst.order]
  rcases hst.advance with ⟨horders, hprogress, hevents⟩ | ⟨hset, hturn⟩
  · refine .quiet (by rw [Matching.acts, hevents, Matching.acts])
      (congrArg Progress.rep hprogress) (hin _ (congrArg Progress.left hprogress)) fun id => ?_
    rw [hfind₁, hfind, PriorityBook.setSide_eq_self horders]
  · obtain ⟨o, rest, hhead, hleft, hhalt, hcross, ht⟩ := turn_cases hturn
    have hnd := hw.linked.nodup_ids (a := a) fun _ => rfl
    have hnd₁ := hw₁.linked.nodup_ids hqueue₁
    have hact := fun id hfar' =>
      @PriorityBook.find_act a id m.far o rest (ordersOf (Q₁ m.far)) hnd hhead hnd₁ hfar'
    have hnext : Next stamp x m o := by
      have hserved : PriorityBook.Served stamp x.incoming.side.opposite.isBid (o :: rest) := by
        refine (hord x.incoming.side.opposite).of_suffix ?_
        have htags := hsince.tags
        rw [hhead] at htags
        rw [h.book.queue]
        exact htags
      refine ⟨⟨rest, ?_, hserved.head⟩, ?_⟩
      · rw [← hfar, hw.linked.restingOn hset, hhead]
      · rw [Taker.crosses, htaker] at hcross
        exact hcross
    generalize hs' : m'.progress = s' at ht
    generalize hf' : ordersOf (Q₁ m.far) = far' at ht hact hfind₁
    have hrep' : m'.rep = s'.rep := by rw [← hs']; rfl
    have hleft' : m'.incoming.qty = s'.left := by rw [← hs']; rfl
    have hacts' : m'.acts = s'.acts := by rw [← hs']; rfl
    cases ht with
    | halt hp hself =>
      rw [htaker, selfTrade_iff] at hself
      refine .halt o hnext (hpolicy.trans hp) hself.2 hacts' hrep' (hin _ hleft') fun id => ?_
      rw [hfind₁, hfind, PriorityBook.setSide_eq_self hhead.symm]
    | cancel hp hself =>
      rw [htaker, selfTrade_iff] at hself
      refine .removal o hnext (hpolicy.trans hp) hself.2 hacts' (hin _ hleft') fun id => ?_
      rw [hfind₁, hact id (Or.inl rfl), hfind, if_pos rfl]
      split <;> rfl
    | fill hself hle =>
      have hno : x.book.policy ≠ .allow → ¬ SameOwner x o := fun hp hown => by
        rw [htaker, Bool.eq_false_iff, Ne, selfTrade_iff] at hself
        exact hself ⟨hp, hown⟩
      have hle' : o.qty ≤ m.incoming.qty := hle
      refine .trade o hnext hno ?_ (hin _ hleft') fun id => ?_
      · rw [hacts', htaker]
        rfl
      · rw [hfind₁, hact id (Or.inl rfl), hfind, if_pos rfl, if_pos hle']
        split <;> rfl
    | partFill hself hlt =>
      have hno : x.book.policy ≠ .allow → ¬ SameOwner x o := fun hp hown => by
        rw [htaker, Bool.eq_false_iff, Ne, selfTrade_iff] at hself
        exact hself ⟨hp, hown⟩
      have hgt : ¬ o.qty ≤ m.incoming.qty := by
        have hlt' : m.incoming.qty < o.qty := hlt
        rw [UInt32.lt_iff_toNat_lt] at hlt'
        rw [UInt32.le_iff_toNat_le]
        omega
      refine .trade o hnext hno ?_ (hin _ hleft') fun id => ?_
      · rw [hacts', htaker]
        rfl
      · have hne : Taker.rest o m.progress :: rest ≠ rest := List.cons_ne_self _ _
        rw [hfind₁, hact id (Or.inr ⟨_, rfl, rfl⟩), hfind, if_neg hne, if_neg hgt, hfar]
        split <;> rfl

/-- **Where the loop stops**: nothing is wanted, no far order satisfies the limit, or the front
order's owner halts the taker. -/
theorem Attempt.Follows.stops (h : x.Follows y Q₀ free₀) (hord : y.book.InOrder stamp) :
    ∃ m far, x.book.matchOpposite x.incoming x.limit = some m
      ∧ Reaches (Matching.step x.limit) x.start m
      ∧ m.book.restingOn x.incoming.side.opposite = some far
      ∧ (m.incoming.qty = 0 ∨ (∀ o ∈ far, Lob.crosses x.incoming.side x.limit o.price = false)
        ∨ (x.book.policy = .cancelIncoming ∧ ∃ o ∈ far.head?, SameOwner x o)) := by
  obtain ⟨m, Q', free', hm⟩ := h.matched
  have hside : y.taker.side = x.incoming.side := by rw [h.taker]; rfl
  refine ⟨m, _, hm.run, (reaches_of_runUntil hm.run).1, hm.follows.restingOn _, ?_⟩
  rcases y.stopped hord with h0 | h0 | h0
  · exact Or.inl (hm.left.trans h0)
  · obtain ⟨hp, o, ho, hself⟩ := y.halted h0
    rw [h.taker, selfTrade_iff] at hself
    rw [hside] at ho
    exact Or.inr (Or.inr ⟨by rw [← hp, h.taker]; rfl, o, ho, hself.2⟩)
  · rw [hside] at h0
    refine Or.inr (Or.inl fun o ho => ?_)
    have hno := h0 o ho
    rw [h.taker] at hno
    exact hno

end Steps

section Run

variable {b₀ b : OrderBook} {past : List Record} {c : Call} {x : Attempt}
  {scrub : RestingOrder → RestingOrder} {cfg : Config}

/-- What a call sends into the loop after a run, with the rest times of what it meets. -/
theorem Run.attempt {Q₀ : Layout} {free₀ : List SlotIndex} (h₀ : b₀.Follows {} Q₀ free₀)
    (hrun : Run b₀ past b) (hx : b.attemptOf c = some x) :
    ∃ y Q free, (replayOf b₀ past).submission b₀.policy c = some y ∧ x.Follows y Q free
      ∧ y.book.InOrder (restTime past) := by
  obtain ⟨⟨Q, free, hf⟩, hpolicy⟩ := hrun.follows h₀
  rcases hf.attemptOf c with ⟨hnone, -⟩ | ⟨x', y, Q', free', hx', hy, hfollows, -⟩
  · rw [hnone] at hx
    simp at hx
  · rw [hx] at hx'
    obtain rfl := Option.some.inj hx'
    rw [hpolicy] at hy
    have hord := (hrun.inOrder h₀).1
    refine ⟨y, Q', free', hy, hfollows, ?_⟩
    rcases (PriorityBook.submission_fresh hy).book with hbook | hbook
    · exact hbook ▸ hord
    · exact hbook ▸ hord.remove _

/-- The events of a call are those of its loop. -/
theorem events_of_attempt {m : Matching} {mem : Memory} {r : Reply} {events : List Event}
    {b' : OrderBook} (hx : b.attemptOf c = some x)
    (hm : x.book.matchOpposite x.incoming x.limit = some m)
    (hcall : b.perform mem c = .ok (r, events) b') : events = m.events := by
  rw [perform_of_attempt mem hx, Attempt.execute, hm] at hcall
  simp only at hcall
  split at hcall
  · rename_i e b₁ hexec
    obtain ⟨hre, -⟩ := Result.ok.inj hcall
    obtain ⟨-, hev⟩ := Prod.mk.inj hre
    rw [← hev]
    split at hexec
    · split at hexec
      · simp at hexec
      · simp at hexec
      · rw [← (Result.ok.inj hexec).1]
    · rw [← (Result.ok.inj hexec).1]
  · simp at hcall
  · simp at hcall

/-- **Price-time priority over whole runs.**  Every step of the loop serves the far order with the best
price and, at that price, the earliest rest time; and the loop stops only where it may. -/
theorem price_time_priority (hnew : OrderBook.new scrub cfg = some b₀) (hrun : Run b₀ past b)
    (hx : b.attemptOf c = some x) :
    (∀ m m', Reaches (Matching.step x.limit) x.start m → m.step x.limit = some m' →
      Stepwise (restTime past) x m m') ∧
    ∃ m far, x.book.matchOpposite x.incoming x.limit = some m
      ∧ Reaches (Matching.step x.limit) x.start m
      ∧ (∀ mem r events b', b.perform mem c = .ok (r, events) b' → events = m.events)
      ∧ m.book.restingOn x.incoming.side.opposite = some far
      ∧ (m.incoming.qty = 0 ∨ (∀ o ∈ far, Lob.crosses x.incoming.side x.limit o.price = false)
        ∨ (x.book.policy = .cancelIncoming ∧ ∃ o ∈ far.head?, SameOwner x o)) := by
  obtain ⟨y, Q, free, -, hfollows, hord⟩ := hrun.attempt (new_follows hnew).1 hx
  obtain ⟨m, far, hm, hreach, hfar, hstop⟩ := hfollows.stops hord
  exact ⟨fun m m' hreach hstep => hfollows.stepwise hord hreach hstep, m, far, hm, hreach,
    fun mem r events b' hcall => events_of_attempt hx hm hcall, hfar, hstop⟩

/-- A bid modified in place is served after the bid that joined it. -/
theorem price_time_priority_after_modify : ∃ b₀ past b x, OrderBook.new id {} = some b₀
    ∧ Run b₀ past b ∧ past.map Record.call = [.modify 1 100 5, .addLimit 2 8 .buy 100 5,
      .addLimit 1 7 .buy 100 5]
    ∧ b.attemptOf (.addMarket 3 9 .sell 7) = some x
    ∧ ∀ m m', Reaches (Matching.step x.limit) x.start m → m.step x.limit = some m' →
      Stepwise (restTime past) x m m' := by
  obtain ⟨b₀, past, b, x, hnew, hrun, hcalls, hx⟩ := exists_run id {} {} [.modify 1 100 5,
    .addLimit 2 8 .buy 100 5, .addLimit 1 7 .buy 100 5]
    (fun _ b => b.attemptOf (.addMarket 3 9 .sell 7)) (by decide +kernel)
  exact ⟨b₀, past, b, x, hnew, hrun, hcalls, hx, (price_time_priority hnew hrun hx).1⟩

end Run

end OrderBook

end Lob
