/-
# Lob.FlowLabels — what an op's label says, and when the op does it.

An add rests whole and trades nothing, a cancel and a modify find their order, a marketable limit
satisfies the touch it was priced against.  Prices are 64-bit words, and three places move a touch
without looking at the ends of the line: `ask - 1`, `bid + 1` and `touch ± through`.  `Clear` says that
none of them wraps; an op that is clear does what it says, in every replay of the flow.
-/
import Lob.FlowGenerator

namespace Lob.Flow

open OrderBook PriorityBook

/-- The touch leaves room for the step an op's price takes from it. -/
def Emission.Clear (e : Emission) (b : OrderBook) : Prop :=
  ∀ touch, farTouch b e.op.side = some touch →
    match e.op.kind, e.op.side with
    | .cancel, _ => True
    | .marketable, .buy => touch.toNat + e.through.toNat < 2 ^ 64
    | .marketable, .sell => e.through.toNat ≤ touch.toNat
    | _, .buy => touch ≠ 0
    | _, .sell => touch ≠ maxPrice

/-- What the label of an op says of the call that applied it. -/
def Op.Does (op : Op) (r : Record) : Prop :=
  match op.kind with
  | .add => (reportOf r.reply).accepted = true ∧ (reportOf r.reply).tradeCount = 0 ∧ r.trades = []
      ∧ (reportOf r.reply).rested = true ∧ (reportOf r.reply).remaining = op.qty
      ∧ r.after.find op.id = some (some ⟨op.id, op.owner, op.price, op.qty, op.side⟩)
  | .cancel => (∃ o, r.before.find op.id = some (some o)) ∧ (reportOf r.reply).accepted = true
  | .modify => (∃ o, r.before.find op.id = some (some o)) ∧ (reportOf r.reply).accepted = true
      ∧ (reportOf r.reply).tradeCount = 0 ∧ r.trades = []
  | .marketable => op.market = false →
      ∃ touch, farTouch r.before op.side = some touch ∧ crosses op.side (some op.price) touch = true

/-! ## Prices and touches -/

section Prices

variable {touch through price : Price} {far : Option Price} {side : Side}

/-- A price off the touch does not cross it, where the touch has room. -/
theorem not_crosses_of_offTouch (hoff : OffTouch far side price) (hfar : far = some touch)
    (hroom : if side = .buy then touch ≠ 0 else touch ≠ maxPrice) :
    crosses side (some price) touch = false := by
  have hlt := touch.toNat_lt
  cases side with
  | buy =>
    have hpos : touch.toNat ≠ 0 := fun h0 => hroom (UInt64.toNat_inj.mp h0)
    have hone : (1 : UInt64) ≤ touch := UInt64.le_iff_toNat_le.mpr (Nat.pos_of_ne_zero hpos)
    have hprice : price.toNat < touch.toNat := by
      rcases hoff touch hfar with h | rfl
      · exact UInt64.lt_iff_toNat_lt.mp h
      · rw [UInt64.toNat_sub_of_le _ _ hone]
        exact Nat.sub_lt (Nat.pos_of_ne_zero hpos) Nat.one_pos
    simp only [crosses, if_true, decide_eq_false_iff_not, UInt64.le_iff_toNat_le]
    omega
  | sell =>
    have hmax : touch.toNat ≠ 2 ^ 64 - 1 := fun h => hroom (UInt64.toNat_inj.mp h)
    have hprice : touch.toNat < price.toNat := by
      rcases hoff touch hfar with h | rfl
      · exact UInt64.lt_iff_toNat_lt.mp h
      · rw [UInt64.toNat_add, Nat.mod_eq_of_lt (by simp only [UInt64.toNat_one]; omega)]
        exact Nat.lt_succ_self _
    simp only [crosses, decide_eq_false_iff_not, UInt64.le_iff_toNat_le, reduceCtorEq, if_false]
    omega

/-- **A price past the touch satisfies it exactly when it did not wrap.** -/
theorem crosses_pastTouch (hthrough : through.toNat ≤ 2) :
    crosses side (some (pastTouch side touch through)) touch = true
      ↔ if side = .buy then touch.toNat + through.toNat < 2 ^ 64 else through.toNat ≤ touch.toNat := by
  have hlt := touch.toNat_lt
  cases side with
  | buy =>
    simp only [crosses, pastTouch, if_true, decide_eq_true_eq, UInt64.le_iff_toNat_le, UInt64.toNat_add]
    constructor
    · intro hle
      by_contra hwrap
      rw [Nat.mod_eq_sub_mod (by omega), Nat.mod_eq_of_lt (by omega)] at hle
      omega
    · intro hfits
      rw [Nat.mod_eq_of_lt hfits]
      exact Nat.le_add_right _ _
  | sell =>
    simp only [crosses, pastTouch, decide_eq_true_eq, UInt64.le_iff_toNat_le, UInt64.toNat_sub,
      reduceCtorEq, if_false]
    constructor
    · intro hle
      by_contra hwrap
      rw [Nat.mod_eq_of_lt (by omega)] at hle
      omega
    · intro hle
      rw [show 2 ^ 64 - through.toNat + touch.toNat = touch.toNat - through.toNat + 2 ^ 64 by omega,
        Nat.add_mod_right, Nat.mod_eq_of_lt (by omega)]
      exact Nat.sub_le _ _

end Prices

/-! ## Passive submissions -/

section Calls

variable {policy : SelfTradePolicy} {a : PriorityBook} {x : Submission} {r : Record} {c : Call}

/-- **A submission whose limit the best far price does not satisfy** does nothing but rest. -/
theorem execute_passive (hsound : a.Sound) (hx : a.submission policy c = some x)
    (hrests : x.restLeftover = true)
    (hfar : ∀ t, a.best x.taker.side.opposite = some t → crosses x.taker.side x.taker.limit t = false) :
    x.execute = ({ remaining := x.qty, rested := true }, [],
        x.after.rest x.taker.side ⟨x.taker.id, x.taker.limit.getD 0, x.qty, x.taker.owner⟩) := by
  have hwalk : x.walk = (x.book.queue x.taker.side.opposite, { left := x.qty, nextSeq := x.book.nextSeq }) := by
    apply sweep_of_none
    apply turn_eq_none.mpr
    right
    right
    intro o ho
    rw [submission_far hsound hx] at ho
    have hhead : (a.queue x.taker.side.opposite).head? = some o := ho
    apply hfar o.price
    rw [PriorityBook.best, hhead]
    rfl
  have hqty : 0 < x.qty := by
    rw [UInt32.lt_iff_toNat_lt, UInt32.toNat_zero, Nat.pos_iff_ne_zero]
    exact fun h0 => (submission_fresh hx).qty (UInt32.toNat_inj.mp h0)
  have hrest : x.rests = true := by
    rw [x.rests_iff, hwalk]
    exact ⟨hrests, hqty, rfl⟩
  rw [x.execute_eq, hrest, if_pos rfl, Submission.leftover, hwalk]
  rfl

/-- What a passive submission leaves its client with. -/
theorem Recorded.passive (h : Recorded policy a r) (hsound : a.Sound)
    (hx : a.submission policy r.call = some x) (hrests : x.restLeftover = true)
    (hfar : ∀ t, a.best x.taker.side.opposite = some t → crosses x.taker.side x.taker.limit t = false) :
    r.reply = .report { remaining := x.qty, rested := true } ∧ r.trades = []
      ∧ r.after.find x.taker.id = some (some
        ⟨x.taker.id, x.taker.owner, x.taker.limit.getD 0, x.qty, x.taker.side⟩) := by
  have hperform := perform_of_submission hx
  rw [execute_passive hsound hx hrests hfar] at hperform
  have hpop : r.call ≠ .pop := by
    intro hpop
    rw [hpop] at hx
    simp [submission] at hx
  obtain ⟨Q, free, hf⟩ := h.after
  have hacts := h.acts
  have hreply := h.reply hpop
  rw [hperform] at hf hacts hreply
  refine ⟨hreply, ?_, ?_⟩
  · rw [Record.trades, Record.acts, hacts]
    rfl
  · have hmem : (⟨x.taker.id, x.taker.limit.getD 0, x.qty, x.taker.owner⟩ : RestingOrder)
        ∈ (x.after.rest x.taker.side ⟨x.taker.id, x.taker.limit.getD 0, x.qty, x.taker.owner⟩).queue
          x.taker.side := by
      rw [queue_rest_self]
      exact mem_enqueue.mpr (Or.inl rfl)
    have hfind := find_of_mem hf.nodup hmem
    rw [hf.find]
    exact congrArg some hfind

end Calls

/-! ## Every label -/

section Labels

variable {policy : SelfTradePolicy} {a : PriorityBook} {r : Record} {e : Emission} {lot : Quantity} {n : Nat}
  {qty : Quantity}

theorem Lots.ne_zero (h : Lots lot n qty) (hlot : 1 ≤ lot) : qty ≠ 0 := by
  rintro rfl
  obtain ⟨k, hk, -, hq⟩ := h
  have hpos : 1 ≤ lot.toNat := UInt32.le_iff_toNat_le.mp hlot
  have : 0 < lot.toNat * k := Nat.mul_pos hpos hk
  rw [UInt32.toNat_zero] at hq
  omega

/-- **A meant op that is clear does what its label says.** -/
theorem Meant.does (hmeant : Meant lot a e) (hlot : 1 ≤ lot) (h : Recorded policy a r) (hsound : a.Sound)
    (hcall : r.call = e.op.call) (hclear : e.Clear r.before) : e.op.Does r := by
  obtain ⟨Q, free, hf⟩ := h.before
  cases hmeant with
  | @add id price qty owner side hid hprice hqty =>
    have hx : a.submission policy r.call = some ⟨a, ⟨policy, id, owner, side, some price⟩, qty, true⟩ := by
      have hgo : ¬ (qty = 0 || a.live id) = true := by simp [hqty.ne_zero hlot, hid]
      rw [hcall, Op.call, submission, if_neg hgo]
    obtain ⟨hreply, htrades, hfind⟩ := Recorded.passive h hsound hx rfl fun t ht => by
      apply not_crosses_of_offTouch hprice ht
      have hroom := hclear t ((Follows.farTouch hf side).trans ht)
      cases side <;> exact hroom
    show _ ∧ _ ∧ _ ∧ _ ∧ _ ∧ _
    rw [hreply]
    exact ⟨rfl, rfl, htrades, rfl, rfl, hfind⟩
  | @cancel id hid =>
    have hperform : a.perform policy r.call = (.cancelled (a.live id), [], a.remove id) := by
      rw [hcall]
      rfl
    have hreply := h.reply (hcall ▸ Op.call_ne_pop _)
    rw [hperform, hid] at hreply
    obtain ⟨o, ho⟩ := Option.ne_none_iff_exists'.mp fun hnone =>
      absurd (find_eq_none.mp hnone) (by rw [hid]; simp)
    show _ ∧ _
    rw [hreply]
    exact ⟨⟨o, by rw [hf.find]; exact congrArg some ho⟩, rfl⟩
  | @modify id price qty o hfind hprice hqty =>
    have hx : a.submission policy r.call
        = some ⟨a.remove id, ⟨policy, id, o.owner, o.side, some price⟩, qty, true⟩ := by
      rw [hcall]
      simp only [Op.call, submission, hfind, if_neg (hqty.ne_zero hlot)]
    obtain ⟨hreply, htrades, -⟩ := Recorded.passive h hsound hx rfl fun t ht => by
      apply not_crosses_of_offTouch hprice ht
      have hroom := hclear t ((Follows.farTouch hf o.side).trans ht)
      generalize o.side = side at hroom ⊢
      cases side <;> exact hroom
    show _ ∧ _ ∧ _ ∧ _
    rw [hreply]
    exact ⟨⟨o, by rw [hf.find]; exact congrArg some hfind⟩, rfl, rfl, htrades⟩
  | market hid hqty => exact fun hmarket => absurd hmarket (by simp)
  | @limit id qty owner side touch through hid hqty htouch hthrough =>
    have hfar := (Follows.farTouch hf side).trans htouch
    refine fun _ => ⟨touch, hfar, (crosses_pastTouch hthrough).mpr ?_⟩
    have hroom := hclear touch hfar
    cases side <;> exact hroom

/-- A marketable op that does what its label says is clear. -/
theorem Meant.clear (hmeant : Meant lot a e) (h : Recorded policy a r)
    (hkind : e.op.kind = .marketable) (hdoes : e.op.Does r) : e.Clear r.before := by
  obtain ⟨Q, free, hf⟩ := h.before
  cases hmeant with
  | add _ _ _ => simp at hkind
  | cancel _ => simp at hkind
  | modify _ _ _ => simp at hkind
  | @market id price qty owner side _ _ =>
    intro touch _
    have := touch.toNat_lt
    cases side with
    | buy =>
      show touch.toNat + 0 < 2 ^ 64
      omega
    | sell => exact Nat.zero_le _
  | @limit id qty owner side touch through _ _ htouch hthrough =>
    have hfar := (Follows.farTouch hf side).trans htouch
    obtain ⟨touch', hfar', hcross⟩ := hdoes rfl
    rw [hfar] at hfar'
    obtain rfl := Option.some.inj hfar'
    intro t ht
    rw [hfar] at ht
    obtain rfl := Option.some.inj ht
    have hroom := (crosses_pastTouch hthrough).mp hcross
    cases side <;> exact hroom

end Labels

/-- **A generated flow does what it says, wherever the touch leaves room.**  For every accepted
configuration, seed and length: in every replay of the flow on a fresh book under the generator's
self-trade policy, whatever is popped in between, each op that finds the touch clear of the ends of the
price line does what its label says.  For marketable ops the condition is exact. -/
theorem flow_keeps_its_word {cfg : Config} {scrub scrub' : RestingOrder → RestingOrder} {g : Generator}
    (hgen : generate cfg scrub = some g) (hlot : 1 ≤ cfg.lot) (hfits : 1280 * cfg.lot.toNat < 2 ^ 32)
    {later es : List Emission} {e : Emission} (hout : g.out = later ++ e :: es)
    {book : Lob.Config} {b₀ b : OrderBook} (hnew : OrderBook.new scrub' book = some b₀)
    (hpolicy : book.selfTrade = cfg.selfTrade) {past : List Record} {r : Record}
    (hrun : Run b₀ (r :: past) b) (hreplay : Replays es past) (hcall : r.call = e.op.call) :
    (e.Clear r.before → e.op.Does r) ∧ (e.op.kind = .marketable → e.op.Does r → e.Clear r.before) := by
  obtain ⟨_, _, hup⟩ := generate_upheld hfits hgen
  obtain ⟨h₀, hpolicy₀, -⟩ := new_follows hnew
  have hpol : b₀.policy = cfg.selfTrade := hpolicy₀.trans hpolicy
  have hintended := hup.intended
  rw [hout, ← hpol] at hintended
  have hmeant : Meant cfg.lot (bookOf b₀.policy es) e := hintended.meant
  have hrec := hrun.recorded_head h₀
  have hsound := (hrun.cons_inv.2.1.inOrder h₀).2
  rw [replayOf, hreplay.replay] at hrec hsound
  exact ⟨hmeant.does hlot hrec hsound hcall, hmeant.clear hrec⟩

section Examples

theorem replays_of_calls {es : List Emission} {past : List Record}
    (h : past.map Record.call = es.map fun e => e.op.call) : Replays es past := by
  induction es generalizing past with
  | nil =>
    obtain rfl := List.map_eq_nil_iff.mp h
    exact .start
  | cons e es ih =>
    obtain ⟨r, past', rfl, hcall, hrest⟩ := List.map_eq_cons_iff.mp h
    exact .op (ih hrest) hcall

/-- A generated flow replayed on a new book, when `f` has an answer about its last op. -/
theorem exists_replay {α : Type} (cfg : Config) (e : Emission) (es : List Emission)
    (hgen : (generate cfg id).map Generator.out = some (e :: es)) (f : Record → Option α)
    (h : (((OrderBook.new id { selfTrade := cfg.selfTrade }).bind fun b₀ =>
      exec {} b₀ ((e :: es).map fun e => e.op.call)).bind fun p => p.1.head?.bind f).isSome = true) :
    ∃ g b₀ past r b x, generate cfg id = some g ∧ g.out = [] ++ e :: es
      ∧ OrderBook.new id { selfTrade := cfg.selfTrade } = some b₀ ∧ Run b₀ (r :: past) b
      ∧ Replays es past ∧ r.call = e.op.call ∧ f r = some x := by
  obtain ⟨g, hg, hout⟩ := Option.map_eq_some_iff.mp hgen
  obtain ⟨b₀, past, b, x, hnew, hrun, hcalls, hx⟩ :=
    exists_run id { selfTrade := cfg.selfTrade } {} _ (fun past _ => past.head?.bind f) h
  obtain ⟨r, past, rfl, hcall, hrest⟩ := List.map_eq_cons_iff.mp hcalls
  exact ⟨g, b₀, past, r, b, x, hg, hout, hnew, hrun, replays_of_calls hrest, hcall, hx⟩

/-- A bid is added, and a sell limit is priced two ticks through it. -/
theorem flow_keeps_its_word_through_bid : ∃ g e es b₀ past r b, generate brief id = some g
    ∧ g.out = e :: es ∧ Run b₀ (r :: past) b ∧ Replays es past ∧ r.call = e.op.call
    ∧ e.op.market = false ∧ e.op.Does r := by
  obtain ⟨g, b₀, past, r, b, x, hgen, hout, hnew, hrun, hreplay, hcall, hfar⟩ := exists_replay brief
    ⟨⟨2, 99998, 100, 46, .marketable, .sell, false⟩, 2⟩ [⟨⟨1, 100000, 100, 17, .add, .buy, false⟩, 0⟩]
    (by decide +kernel)
    (fun r => if farTouch r.before .sell = some 100000 then some () else none) (by decide +kernel)
  refine ⟨g, _, _, b₀, past, r, b, hgen, hout, hrun, hreplay, hcall, rfl, ?_⟩
  apply (flow_keeps_its_word hgen (by decide) (by decide) hout hnew rfl hrun hreplay hcall).1
  split at hfar
  · rename_i hbid
    intro touch htouch
    obtain rfl := Option.some.inj (hbid.symm.trans htouch)
    decide
  · simp at hfar

/-- A mid that starts at 2, the least the constructor accepts, and moves at every op. -/
def lowMid : Config :=
  { seed := 32, ops := 2, warmupOps := 0, targetDepth := 0, cancelPercent := 0, modifyPercent := 0,
    marketablePercent := 50, startMid := 2, tailTicks := 0, midStepPerMille := 1000 }

/-- A bid rests at 1, and a sell limit priced two ticks through it wraps to the top of the line. -/
theorem flow_breaks_its_word : 1 ≤ lowMid.lot ∧ 1280 * lowMid.lot.toNat < 2 ^ 32
    ∧ ∃ g e es b₀ past r b, generate lowMid id = some g ∧ g.out = e :: es
      ∧ OrderBook.new id { selfTrade := lowMid.selfTrade } = some b₀ ∧ Run b₀ (r :: past) b
      ∧ Replays es past ∧ r.call = e.op.call ∧ ¬ e.op.Does r := by
  refine ⟨by decide, by decide, ?_⟩
  obtain ⟨g, b₀, past, r, b, x, hgen, hout, hnew, hrun, hreplay, hcall, hfar⟩ := exists_replay lowMid
    ⟨⟨2, 0xFFFFFFFFFFFFFFFF, 3700, 36, .marketable, .sell, false⟩, 2⟩
    [⟨⟨1, 1, 100, 43, .add, .buy, false⟩, 0⟩] (by decide +kernel)
    (fun r => if farTouch r.before .sell = some 1 then some () else none) (by decide +kernel)
  refine ⟨g, _, _, b₀, past, r, b, hgen, hout, hnew, hrun, hreplay, hcall, fun hdoes => ?_⟩
  split at hfar
  · rename_i hbid
    obtain ⟨touch, htouch, hcross⟩ := hdoes rfl
    obtain rfl := Option.some.inj (hbid.symm.trans htouch)
    revert hcross
    decide
  · simp at hfar

end Examples

end Lob.Flow
