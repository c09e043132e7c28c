/-
# Lob.PriceWindow — where the windows lie, whatever is called.

A window is four numbers of a ladder, and only `place` writes them.  So the windows of a run are read
off two things, the configuration and the price at which a call first entered `insert`; nothing else a
call does is looked at, and a call may throw.  The arithmetic of `place` and `centredBase` is done
once, on those numbers.
-/
import Lob.EditRule
import Lob.RunRefine

namespace Lob

open Lib.Machine

/-! ## Windows by themselves -/

/-- The window of a ladder. -/
structure Window where
  lo : Price := 0
  limit : Nat := 0
  size : Nat
  placed : Bool := false
  deriving DecidableEq, Repr

namespace Window

/-- What `place` makes of a window. -/
def place (w : Window) (base : Price) : Window where
  lo := base
  limit := if w.size = 0 ∨ w.size - 1 ≤ (maxPrice - base).toNat then w.size
           else (maxPrice - base).toNat + 1
  size := w.size
  placed := true

/-- What entering `insert` at a price makes of a window. -/
def placeFirst (w : Window) (price : Price) : Window :=
  if w.placed then w else w.place (centredBase price w.size)

/-- What a call that entered `insert` at some price, or not at all, makes of a window. -/
def after (w : Window) : Option Price → Window
  | none => w
  | some price => w.placeFirst price

/-- `w` is an interval of true integers that ends by `2^64 - 1`, no longer than the array. -/
structure Exact (w : Window) : Prop where
  fits : w.lo.toNat + w.limit ≤ 2 ^ 64
  limit_le : w.limit ≤ w.size

section Arithmetic

variable {w : Window} {base price : Price} {levels : Nat}

theorem maxPrice_sub_toNat (base : Price) : (maxPrice - base).toNat = 2 ^ 64 - 1 - base.toNat := by
  have hmax : maxPrice.toNat = 2 ^ 64 - 1 := rfl
  have hlt := base.toNat_lt
  rw [UInt64.toNat_sub_of_le _ _ (by rw [UInt64.le_iff_toNat_le]; omega), hmax]

/-- **The span of a placed window** is the array or what is left of the price range. -/
theorem place_limit (w : Window) (base : Price) :
    (w.place base).limit = min w.size (2 ^ 64 - base.toNat) := by
  have hlt := base.toNat_lt
  unfold place
  simp only [maxPrice_sub_toNat]
  split <;> omega

theorem place_exact (w : Window) (base : Price) : (w.place base).Exact := by
  have hlimit := place_limit w base
  have hlt := base.toNat_lt
  have hlo : (w.place base).lo.toNat = base.toNat := rfl
  have hsize : (w.place base).size = w.size := rfl
  exact ⟨by omega, by omega⟩

/-- **The centred base**, in true integers. -/
theorem centredBase_toNat (hpos : 0 < levels) (hlt : levels < 2 ^ 64) :
    (centredBase price levels).toNat = min (price.toNat - levels / 2) (2 ^ 64 - levels) := by
  have hhalf : (UInt64.ofNat (levels / 2)).toNat = levels / 2 := by
    rw [UInt64.toNat_ofNat', Nat.mod_eq_of_lt (by omega)]
  have hspan : (UInt64.ofNat levels - 1).toNat = levels - 1 := by
    have hlevels : (UInt64.ofNat levels).toNat = levels := by
      rw [UInt64.toNat_ofNat', Nat.mod_eq_of_lt hlt]
    have hle : (1 : UInt64) ≤ UInt64.ofNat levels := by
      rw [UInt64.le_iff_toNat_le, hlevels]
      exact hpos
    rw [UInt64.toNat_sub_of_le _ _ hle, hlevels]
    rfl
  have hhighest : (maxPrice - (UInt64.ofNat levels - 1)).toNat = 2 ^ 64 - levels := by
    rw [maxPrice_sub_toNat, hspan]
    omega
  have hmin : ∀ a b : UInt64, (min a b).toNat = min a.toNat b.toNat := by
    intro a b
    have hdef : min a b = if a ≤ b then a else b := rfl
    rw [hdef]
    split <;> rename_i hab <;> rw [UInt64.le_iff_toNat_le] at hab <;> omega
  unfold centredBase
  rw [if_neg (by omega)]
  simp only [hmin, hhighest]
  split
  · rename_i hle
    rw [UInt64.toNat_sub_of_le _ _ hle, hhalf]
  · rename_i hgt
    rw [UInt64.le_iff_toNat_le, hhalf] at hgt
    rw [UInt64.toNat_zero]
    omega

/-- **A centred window is whole and holds its price.** -/
theorem place_centred (w : Window) (hpos : 0 < w.size) (hlt : w.size < 2 ^ 64) (price : Price) :
    (w.place (centredBase price w.size)).limit = w.size
      ∧ (centredBase price w.size).toNat ≤ price.toNat
      ∧ price.toNat < (centredBase price w.size).toNat + w.size := by
  have hbase := @centredBase_toNat price w.size hpos hlt
  have hprice := price.toNat_lt
  rw [place_limit]
  omega

end Arithmetic

end Window

/-- The window of a ladder. -/
def PriceLadder.win {isBid : Bool} (l : PriceLadder isBid) : Window :=
  ⟨l.lo, l.limit, l.windowSize, l.isPlaced⟩

namespace PriceLadder

variable {isBid : Bool} {l l' : PriceLadder isBid} {p : Price} {ref : LevelRef}

/-! ## Ladders -/

theorem win_openLevel {mem : Bool} (h : l.openLevel mem p = .ok ref l') : l'.win = l.win := by
  unfold openLevel at h
  split at h
  · rw [← (Result.ok.inj h).2]
    split <;> rfl
  · simp only at h
    split at h
    · rw [← (Result.ok.inj h).2]
      rfl
    · split at h
      · rw [← (Result.ok.inj h).2]
        rfl
      · simp at h

theorem win_openLevel_throws {mem : Bool} {e : Throw} (h : l.openLevel mem p = .throws e l') :
    l'.win = l.win := by
  unfold openLevel at h
  split at h
  · simp at h
  · simp only at h
    split at h
    · simp at h
    · split at h
      · simp at h
      · rw [← (Result.throws.inj h).2]
        rfl

theorem win_closed (h : l.closed p = some l') : l'.win = l.win := by
  unfold closed at h
  split at h
  · rw [← Option.some.inj h]
    rfl
  · simp only at h
    split at h
    · split at h
      · simp at h
      · rw [← Option.some.inj h]
        rfl
    · rw [← Option.some.inj h]
      rfl

theorem win_store (l : PriceLadder isBid) (ref : LevelRef) (level : PriceLevel) :
    (l.store ref level).win = l.win := by
  cases ref <;> rfl

end PriceLadder

namespace OrderBook

/-- Both sides have the window `w`. -/
def Windowed (b : OrderBook) (w : Window) : Prop := ∀ s, (b.ladder s).win = w

/-- No window has moved. -/
def Still (b b' : OrderBook) : Prop := ∀ s, (b'.ladder s).win = (b.ladder s).win

section Operations

variable {b b' : OrderBook} {s : Side} {slot : SlotIndex} {level : LevelRef} {price : Price}
  {w : Window} {mem : Memory}

theorem Still.refl (b : OrderBook) : Still b b := fun _ => rfl

theorem Still.trans {b'' : OrderBook} (h : Still b b') (h' : Still b' b'') : Still b b'' :=
  fun s => (h' s).trans (h s)

theorem Still.windowed (h : Still b b') (hw : b.Windowed w) : b'.Windowed w :=
  fun s => (h s).trans (hw s)

theorem still_setLadder {l : PriceLadder s.isBid} (h : l.win = (b.ladder s).win) :
    Still b (b.setLadder s l) := by
  intro t
  cases s <;> cases t <;> first | exact h | rfl

/-! ## The operations of the book -/

theorem still_appendAt (b : OrderBook) (s : Side) (level : LevelRef) (slot : SlotIndex) :
    Still b (b.appendAt s level slot) := by
  have hpool : Still b { b with pool := (append b.pool ((b.ladder s).deref level) slot).1 } :=
    fun t => by cases t <;> rfl
  refine hpool.trans (still_setLadder ?_)
  rw [PriceLadder.win_store]
  cases s <;> rfl

theorem still_detachAt (b : OrderBook) (s : Side) (level : LevelRef) (slot : SlotIndex) :
    Still b (b.detachAt s level slot) := by
  have hpool : Still b { b with pool := (detach b.pool ((b.ladder s).deref level) slot).1 } :=
    fun t => by cases t <;> rfl
  refine hpool.trans (still_setLadder ?_)
  rw [PriceLadder.win_store]
  cases s <;> rfl

theorem still_closeAt (h : b.closeAt s price = some b') : Still b b' := by
  obtain ⟨l, hl, rfl⟩ := Option.map_eq_some_iff.mp h
  exact still_setLadder (PriceLadder.win_closed hl)

theorem still_fill (m : Matching) (price : Price) (level : LevelRef) (slot : SlotIndex) :
    Still m.book (m.fill price level slot).book := by
  unfold Matching.fill
  refine Still.trans (fun t => by cases t <;> rfl) (still_setLadder ?_)
  rw [PriceLadder.win_store]
  cases m.far <;> rfl

/-- **Neither the matching loop nor a cancel moves a window.** -/
theorem still_rule : WalkRule Still where
  refl := .refl
  trans := .trans
  take _ := fun t => by cases t <;> rfl
  detachAt := still_detachAt
  fill := still_fill
  closeAt := still_closeAt

/-- **`insert` places the windows, if they are not placed, around its price** and moves them in no
other way, also when it throws. -/
theorem still_insert {order : Order} :
    (∀ u, b.insert mem s order = .ok u b' → Still (b.placeFirst s order.price) b')
      ∧ ∀ e, b.insert mem s order = .throws e b' → Still (b.placeFirst s order.price) b' := by
  unfold insert
  simp only
  generalize b.placeFirst s order.price = q
  generalize hopen : (q.ladder s).openLevel mem.node order.price = r
  cases r with
  | undefined => simp
  | throws e l =>
    refine ⟨by simp, fun e' h => ?_⟩
    rw [← (Result.throws.inj h).2]
    exact still_setLadder (PriceLadder.win_openLevel_throws hopen)
  | ok level l =>
    have hq : Still q (q.setLadder s l) := still_setLadder (PriceLadder.win_openLevel hopen)
    have hpool : ∀ pool, Still q { q.setLadder s l with pool := pool } := fun pool =>
      hq.trans fun t => by cases t <;> rfl
    simp only
    cases (q.setLadder s l).pool.acquire mem.slots with
    | undefined => simp
    | throws e pool =>
      refine ⟨by simp, fun e' h => ?_⟩
      rw [← (Result.throws.inj h).2]
      exact hpool pool
    | ok slot pool =>
      simp only
      split
      · refine ⟨by simp, fun e' h => ?_⟩
        rw [← (Result.throws.inj h).2]
        exact hpool pool
      · have happ := (hpool (pool.write slot fun x =>
          { x with value := ⟨order.id, order.price, order.qty, order.owner⟩ })).trans
            (still_appendAt _ s level slot)
        have hindex : ∀ index, Still q { ({ q.setLadder s l with pool := pool.write slot fun x =>
            { x with value := ⟨order.id, order.price, order.qty, order.owner⟩ } }).appendAt s level slot
              with orderIndex := index } := fun index => happ.trans fun t => by cases t <;> rfl
        split
        · simp
        · refine ⟨by simp, fun e' h => ?_⟩
          rw [← (Result.throws.inj h).2]
          exact hindex _
        · refine ⟨fun u h => ?_, by simp⟩
          rw [← (Result.ok.inj h).2]
          exact hindex _

theorem windowed_placeFirst (h : b.Windowed w) (s : Side) (price : Price) :
    (b.placeFirst s price).Windowed (w.placeFirst price) := by
  have hplaced : (b.ladder s).isPlaced = w.placed := congrArg Window.placed (h s)
  have hsize : b.bids.windowSize = w.size := congrArg Window.size (h .buy)
  unfold placeFirst Window.placeFirst
  rw [hplaced]
  split
  · exact h
  · intro t
    unfold placeWindows
    rw [hsize]
    cases t with
    | buy => exact congrArg (fun v : Window => v.place (centredBase price w.size)) (h .buy)
    | sell => exact congrArg (fun v : Window => v.place (centredBase price w.size)) (h .sell)

end Operations

/-! ## Whole calls, returning or throwing -/

/-- The call left `b'` behind, with a value or with an exception. -/
def Leaves {α : Type} (r : Result OrderBook α) (b' : OrderBook) : Prop :=
  (∃ a, r = .ok a b') ∨ ∃ e, r = .throws e b'

@[simp] theorem leaves_ok {α : Type} {a : α} {b b' : OrderBook} : Leaves (.ok a b) b' ↔ b = b' := by
  simp [Leaves]

@[simp] theorem leaves_throws {α : Type} {e : Throw} {b b' : OrderBook} :
    Leaves (.throws e b : Result OrderBook α) b' ↔ b = b' := by
  simp [Leaves]

@[simp] theorem not_leaves_undefined {α : Type} {b' : OrderBook} :
    ¬ Leaves (.undefined : Result OrderBook α) b' := by
  simp [Leaves]

/-- The price at which a call enters `insert`, if it does. -/
def insertPrice (b : OrderBook) (c : Call) : Option Price := (b.insertPoint c).map fun p => p.2.price

section Calls

variable {b b' : OrderBook} {w : Window} {mem : Memory} {c : Call} {x : Attempt}

/-- A report made of a submission leaves what the submission leaves. -/
theorem leaves_reported {r : Result OrderBook Executed} :
    Leaves (match r with
      | .ok r b => .ok (Reply.report r.report, r.events) b
      | .throws e b => .throws e b
      | .undefined => .undefined) b' ↔ Leaves r b' := by
  cases r <;> simp

theorem windowed_execute (h : x.book.Windowed w) (hcall : Leaves (x.execute mem) b') :
    b'.Windowed (w.after (x.insertPoint.map fun p => p.2.price)) := by
  unfold Attempt.insertPoint
  unfold Attempt.execute at hcall
  cases hm : x.book.matchOpposite x.incoming x.limit with
  | none =>
    rw [hm] at hcall
    exact absurd hcall not_leaves_undefined
  | some m =>
    rw [hm] at hcall
    simp only [Option.bind_some] at hcall ⊢
    have hw := (still_rule.matchOpposite hm).windowed h
    have hins := fun b' => @still_insert m.book b' x.incoming.side mem m.incoming
    have hfirst := windowed_placeFirst hw x.incoming.side m.incoming.price
    split at hcall
    · rename_i hrests
      rw [if_pos hrests]
      cases hr : m.book.insert mem x.incoming.side m.incoming with
      | undefined =>
        rw [hr] at hcall
        exact absurd hcall not_leaves_undefined
      | throws e q =>
        rw [hr] at hcall
        obtain rfl := leaves_throws.mp hcall
        exact ((hins q).2 e hr).windowed hfirst
      | ok u q =>
        rw [hr] at hcall
        obtain rfl := leaves_ok.mp hcall
        exact ((hins q).1 u hr).windowed hfirst
    · rename_i hrests
      rw [if_neg hrests]
      obtain rfl := leaves_ok.mp hcall
      exact hw

theorem windowed_attemptOf (h : b.Windowed w) (hx : b.attemptOf c = some x) : x.book.Windowed w := by
  have hbook : ∀ {q : OrderBook} {incoming : Order} {limit : Option Price} {rest : Bool},
      q.attempt incoming limit rest = some x → x.book = q := by
    intro q incoming limit rest hq
    unfold OrderBook.attempt at hq
    split at hq
    · simp at hq
    · rw [← Option.some.inj hq]
  unfold OrderBook.attemptOf at hx
  split at hx
  · rw [hbook hx]
    exact h
  · rw [hbook hx]
    exact h
  · split at hx
    · rename_i hcancel
      rw [hbook hx]
      exact (still_rule.cancel hcancel).windowed h
    · simp at hx
  · simp at hx
  · simp at hx

/-- A submission that is not attempted returns without a change, or not at all. -/
theorem submit_not_attempted {id : OrderId} {owner : ParticipantId} {side : Side}
    {limit : Option Price} {qty : Quantity} {rest : Bool}
    (hnone : b.attempt ⟨id, owner, limit.getD 0, qty, side⟩ limit rest = none)
    (hcall : Leaves (b.submit mem id owner side limit qty rest) b') : b = b' := by
  have hstop : qty = 0 ∨ b.orderIndex.contains id ≠ some false := by
    unfold OrderBook.attempt at hnone
    split at hnone
    · assumption
    · simp at hnone
  unfold submit at hcall
  split at hcall
  · exact absurd hcall not_leaves_undefined
  · exact leaves_ok.mp hcall
  · rename_i hgo
    exfalso
    by_cases hzero : qty = 0
    · simp [hzero] at hgo
    · rw [if_neg hzero] at hgo
      exact hstop.elim hzero fun hlive => hlive hgo

/-- A call that attempts nothing leaves the windows. -/
theorem still_not_attempted (hnone : b.attemptOf c = none) (hcall : Leaves (b.perform mem c) b') :
    Still b b' := by
  cases c with
  | addLimit id owner side price qty =>
    have hlim : b.attempt ⟨id, owner, (some price).getD 0, qty, side⟩ (some price) true = none := hnone
    rw [submit_not_attempted hlim (leaves_reported.mp hcall)]
    exact .refl b'
  | addMarket id owner side qty =>
    have hlim : b.attempt ⟨id, owner, none.getD 0, qty, side⟩ none false = none := hnone
    rw [submit_not_attempted hlim (leaves_reported.mp hcall)]
    exact .refl b'
  | cancel id =>
    unfold OrderBook.perform at hcall
    simp only at hcall
    split at hcall
    · rename_i r q hcancel
      obtain rfl := leaves_ok.mp hcall
      exact still_rule.cancel hcancel
    · exact absurd hcall not_leaves_undefined
  | modify id newPrice newQty =>
    have hmod := leaves_reported.mp hcall
    unfold OrderBook.modify at hmod
    unfold OrderBook.attemptOf at hnone
    split at hmod
    · exact absurd hmod not_leaves_undefined
    · obtain rfl := leaves_ok.mp hmod
      exact .refl b
    · rename_i entry hfind
      simp only at hmod
      split at hmod
      · exact absurd hmod not_leaves_undefined
      · rename_i r q hcancel
        simp only [hfind, hcancel] at hnone
        have hstill := still_rule.cancel hcancel
        split at hmod
        · obtain rfl := leaves_ok.mp hmod
          exact hstill
        · have hlim : q.attempt ⟨id, (b.pool.slots (slotOf entry)).value.owner,
              (some newPrice).getD 0, newQty, sideOf entry⟩ (some newPrice) true = none := hnone
          obtain rfl := submit_not_attempted hlim hmod
          exact hstill
  | pop =>
    obtain rfl := leaves_ok.mp hcall
    exact fun t => by cases t <;> rfl

/-- **A call places the windows, once, where it enters `insert`**, and moves them in no other way. -/
theorem windowed_perform (h : b.Windowed w) (hcall : Leaves (b.perform mem c) b') :
    b'.Windowed (w.after (b.insertPrice c)) := by
  unfold insertPrice OrderBook.insertPoint
  cases hx : b.attemptOf c with
  | none => exact (still_not_attempted hx hcall).windowed h
  | some x =>
    rw [perform_of_attempt mem hx] at hcall
    exact windowed_execute (windowed_attemptOf h hx) (leaves_reported.mp hcall)

end Calls

/-! ## Runs -/

/-- The books reached from `b₀` by calls that return or throw, with the price at which each call
entered `insert`, newest first. -/
inductive AnyRun (b₀ : OrderBook) : List (Option Price) → OrderBook → Prop
  | start : AnyRun b₀ [] b₀
  | call {points : List (Option Price)} {b b' : OrderBook} (mem : Memory) (c : Call)
      (hrun : AnyRun b₀ points b) (hcall : Leaves (b.perform mem c) b') :
      AnyRun b₀ (b.insertPrice c :: points) b'

/-- The price at which a run first entered `insert`. -/
def firstPrice : List (Option Price) → Option Price
  | [] => none
  | p :: points => (firstPrice points).or p

/-- The window a book is constructed with. -/
def windowOf (cfg : Config) : Window :=
  match cfg.priceBase with
  | none => { size := cfg.priceLevels.toNat }
  | some base => ({ size := cfg.priceLevels.toNat } : Window).place base

section Runs

variable {b₀ b : OrderBook} {points : List (Option Price)} {w : Window} {cfg : Config}
  {scrub : RestingOrder → RestingOrder}

theorem windowed_new (h : OrderBook.new scrub cfg = some b₀) : b₀.Windowed (windowOf cfg) := by
  unfold OrderBook.new at h
  simp only at h
  split at h
  · obtain rfl := Option.some.inj h
    intro s
    unfold windowOf
    cases s <;> simp only [OrderBook.ladder] <;> cases cfg.priceBase <;> rfl
  · simp at h

/-- Placed once, a window stays. -/
theorem after_after (w : Window) (p q : Option Price) : (w.after p).after q = w.after (p.or q) := by
  cases p with
  | none => rfl
  | some price =>
    have hplaced : (w.placeFirst price).placed = true := by
      unfold Window.placeFirst
      split
      · assumption
      · rfl
    cases q with
    | none => rfl
    | some price' => exact if_pos hplaced

/-- **The run lemma**: the windows are those of the first price. -/
theorem AnyRun.windowed (h₀ : b₀.Windowed w) (h : AnyRun b₀ points b) :
    b.Windowed (w.after (firstPrice points)) := by
  induction h with
  | start => exact h₀
  | call mem c hrun hcall ih =>
    rw [firstPrice, ← after_after]
    exact windowed_perform ih hcall

theorem after_of_placed (h : w.placed = true) (p : Option Price) : w.after p = w := by
  cases p with
  | none => rfl
  | some price => exact if_pos h

/-- What in_window, beyond_best_edge and an index of the span mean on a ladder. -/
structure MembershipExact {isBid : Bool} (l : PriceLadder isBid) : Prop where
  inside : ∀ p, l.inWindow p = true ↔ l.lo.toNat ≤ p.toNat ∧ p.toNat < l.lo.toNat + l.limit
  beyond : 0 < l.limit → ∀ p, l.beyondBestEdge p = true ↔
    ∀ q, l.inWindow q = true → better isBid p q
  index : ∀ i < l.limit, (l.priceAt i).toNat = l.lo.toNat + i

theorem membershipExact {isBid : Bool} {l : PriceLadder isBid} (hf : l.Fits) : MembershipExact l where
  inside _ := PriceLadder.inWindow_iff
  beyond hpos p := by
    refine ⟨fun h q hq => PriceLadder.better_of_beyond h hq, fun h => ?_⟩
    rw [PriceLadder.beyondBestEdge_iff]
    -- the best price of the window is at one of its ends
    have hlow := h _ (PriceLadder.inWindow_priceAt hf hpos)
    have hhigh := h _ (PriceLadder.inWindow_priceAt hf (show l.limit - 1 < l.limit by omega))
    rw [better_iff, PriceLadder.priceAt_toNat hf hpos] at hlow
    rw [better_iff, PriceLadder.priceAt_toNat hf (show l.limit - 1 < l.limit by omega)] at hhigh
    cases isBid with
    | true =>
      simp only [if_true] at hhigh ⊢
      omega
    | false =>
      simp only [Bool.false_eq_true, if_false] at hlow ⊢
      omega
  index _ hi := PriceLadder.priceAt_toNat hf hi

/-- **Window placement and window membership are exact for every 64-bit price**, in every run, also one
with calls that throw: both sides have one window; it is placed by the configuration, or around the
first price that enters `insert`, and then never moves. -/
theorem window_exact (hnew : OrderBook.new scrub cfg = some b₀) (hrun : AnyRun b₀ points b) :
    ∃ w : Window, b.Windowed w ∧ w.Exact ∧ w.size = cfg.priceLevels.toNat
      ∧ w.placed = (cfg.priceBase.isSome || (firstPrice points).isSome)
      ∧ (∀ base, cfg.priceBase = some base →
        w.lo = base ∧ w.limit = min cfg.priceLevels.toNat (2 ^ 64 - base.toNat))
      ∧ (∀ price, cfg.priceBase = none → firstPrice points = some price →
        0 < cfg.priceLevels.toNat → w.limit = cfg.priceLevels.toNat
          ∧ w.lo.toNat
            = min (price.toNat - cfg.priceLevels.toNat / 2) (2 ^ 64 - cfg.priceLevels.toNat)
          ∧ w.lo.toNat ≤ price.toNat ∧ price.toNat < w.lo.toNat + w.limit)
      ∧ (∀ s, MembershipExact (b.ladder s))
      ∧ (w.placed = true → ∀ points' b', AnyRun b points' b' → b'.Windowed w) := by
  have hw := hrun.windowed (windowed_new hnew)
  have hlevels := cfg.priceLevels.toNat_lt
  have hstays : ∀ w : Window, b.Windowed w → w.placed = true →
      ∀ points' b', AnyRun b points' b' → b'.Windowed w := by
    intro w hb hplaced points' b' hrun'
    have hlater := hrun'.windowed hb
    rwa [after_of_placed hplaced] at hlater
  have hfits : ∀ w : Window, b.Windowed w → w.Exact → ∀ s, MembershipExact (b.ladder s) := by
    intro w hb hexact s
    refine membershipExact ?_
    have hlo : (b.ladder s).lo = w.lo := congrArg Window.lo (hb s)
    have hlimit : (b.ladder s).limit = w.limit := congrArg Window.limit (hb s)
    show (b.ladder s).lo.toNat + (b.ladder s).limit ≤ 2 ^ 64
    rw [hlo, hlimit]
    exact hexact.fits
  unfold windowOf at hw
  -- the configuration places the window, or the first price does, or nothing has yet
  cases hbase : cfg.priceBase with
  | some base =>
    rw [hbase] at hw
    simp only at hw
    rw [after_of_placed rfl] at hw
    have hexact := Window.place_exact { size := cfg.priceLevels.toNat } base
    refine ⟨_, hw, hexact, rfl, rfl, fun base' heq => ?_, by simp, hfits _ hw hexact, hstays _ hw⟩
    obtain rfl := Option.some.inj heq
    exact ⟨rfl, Window.place_limit _ base⟩
  | none =>
    rw [hbase] at hw
    simp only at hw
    cases hfirst : firstPrice points with
    | none =>
      rw [hfirst] at hw
      have hexact : Window.Exact { size := cfg.priceLevels.toNat } := ⟨by simp, Nat.zero_le _⟩
      exact ⟨_, hw, hexact, rfl, rfl, by simp, by simp, hfits _ hw hexact, hstays _ hw⟩
    | some price =>
      rw [hfirst] at hw
      have hexact := Window.place_exact { size := cfg.priceLevels.toNat }
        (centredBase price cfg.priceLevels.toNat)
      refine ⟨_, hw, hexact, rfl, rfl, by simp, fun price' _ heq hpos => ?_, hfits _ hw hexact,
        hstays _ hw⟩
      obtain rfl := Option.some.inj heq
      obtain ⟨hlimit, hle, hlt⟩ := Window.place_centred { size := cfg.priceLevels.toNat } hpos hlevels
        price
      exact ⟨hlimit, Window.centredBase_toNat hpos hlevels, hle,
        hlt.trans_eq (congrArg (_ + ·) hlimit.symm)⟩

theorem Run.anyRun {past : List Record} (h : Run b₀ past b) :
    AnyRun b₀ (past.map fun r => r.before.insertPrice r.call) b := by
  induction h with
  | start => exact .start
  | call mem c r events hrun hcall ih => exact .call mem c ih (Or.inl ⟨_, hcall⟩)

/-- A window of 8 placed around price 2 stops at price 0. -/
theorem window_exact_centred : ∃ b₀ b points w, OrderBook.new id { priceLevels := 8 } = some b₀
    ∧ AnyRun b₀ points b ∧ firstPrice points = some 2
    ∧ b.Windowed w ∧ w.lo.toNat = 0 ∧ w.limit = 8 := by
  obtain ⟨b₀, past, b, ⟨⟩, hnew, hrun, -, hp⟩ := exists_run id { priceLevels := 8 } {}
    [.addLimit 1 7 .buy 2 5] (fun past _ =>
      if firstPrice (past.map fun r => r.before.insertPrice r.call) = some 2 then some () else none)
    (by decide +kernel)
  have hfirst : firstPrice (past.map fun r => r.before.insertPrice r.call) = some 2 := by
    by_contra hne
    rw [if_neg hne] at hp
    simp at hp
  obtain ⟨w, hw, -, -, -, -, hcentred, -⟩ := window_exact hnew hrun.anyRun
  obtain ⟨hlimit, hlo, -⟩ := hcentred 2 rfl hfirst (by decide)
  exact ⟨b₀, b, _, w, hnew, hrun.anyRun, hfirst, hw, hlo, hlimit⟩

end Runs

end OrderBook

end Lob
