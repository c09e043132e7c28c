/-
# Lob.FlowRing — the generator's ring never drops.

Every quantity the generator draws is a whole number of lots.  A trade moves the smaller of two such
quantities and leaves their difference, and a removal leaves nothing, so everything on the book and every
trade is a whole number of lots as well (`InLots`).  A trade then moves at least one lot, which bounds the
trades of an op by the lots it asks for, 1280 at most, and that fits in a drained ring of 4096.
-/
import Lob.FlowGenerator
import Lob.RingRoom

namespace Lob

/-! ## Whole lots in the book -/

namespace PriorityBook

variable {lot : Nat} {k : Taker} {far : List RestingOrder} {p : Progress} {policy : SelfTradePolicy}
  {a : PriorityBook} {c : Call} {x : Submission} {o : RestingOrder} {seq : Sequence}

/-- What a walk meets, what it has left to trade and what it traded are whole numbers of lots. -/
structure WalkInLots (lot : Nat) (far : List RestingOrder) (p : Progress) : Prop where
  far : ∀ o ∈ far, lot ∣ o.qty.toNat
  left : lot ∣ p.left.toNat
  trades : ∀ t ∈ fillsOf p.acts, lot ∣ t.qty.toNat

theorem WalkInLots.tail (h : WalkInLots lot (o :: far) p) : ∀ x ∈ far, lot ∣ x.qty.toNat :=
  fun x hx => h.far x (List.mem_cons_of_mem _ hx)

/-- **A trade of whole lots** moves and leaves whole lots. -/
theorem WalkInLots.fill (h : WalkInLots lot (o :: far) p) {far' : List RestingOrder}
    (hfar : ∀ x ∈ far', lot ∣ x.qty.toNat) : WalkInLots lot far' (k.filled o p) := by
  have ho := h.far o List.mem_cons_self
  refine ⟨hfar, ?_, ?_⟩
  · rw [k.filled_left]
    exact Nat.dvd_sub h.left ho
  · intro t ht
    have hacts : fillsOf (k.filled o p).acts = fillsOf p.acts ++ [k.trade o p] := by
      simp [Taker.filled]
    rw [hacts] at ht
    rcases List.mem_append.mp ht with ht | ht
    · exact h.trades t ht
    · rw [List.mem_singleton.mp ht]
      show lot ∣ (min p.left o.qty).toNat
      rw [min_toNat]
      rcases Nat.le_total p.left.toNat o.qty.toNat with hle | hle
      · rw [Nat.min_eq_left hle]
        exact h.left
      · rw [Nat.min_eq_right hle]
        exact ho

/-- **A walk of whole lots stays in whole lots.** -/
theorem sweep_inLots (h : WalkInLots lot far p) :
    WalkInLots lot (k.sweep far p).1 (k.sweep far p).2 := by
  refine (sweep_induction (P := WalkInLots lot) h fun far₁ p₁ far₂ p₂ hP hturn => ?_).1
  obtain ⟨o, rest, rfl, -, -, -, ht⟩ := turn_cases hturn
  cases ht with
  | halt _ _ => exact ⟨hP.far, hP.left, hP.trades⟩
  | cancel _ _ =>
    have hfills : fillsOf (Taker.cancelled o p₁).acts = fillsOf p₁.acts := by simp [Taker.cancelled]
    exact ⟨hP.tail, hP.left, hfills ▸ hP.trades⟩
  | fill _ _ => exact hP.fill hP.tail
  | partFill _ _ =>
    apply hP.fill
    intro x hx
    rcases List.mem_cons.mp hx with rfl | hx
    · rw [Taker.rest_qty]
      exact Nat.dvd_sub (hP.far o List.mem_cons_self) hP.left
    · exact hP.tail x hx

/-- Every resting quantity is a whole number of lots. -/
def InLots (lot : Nat) (a : PriorityBook) : Prop := ∀ s, ∀ o ∈ a.queue s, lot ∣ o.qty.toNat

theorem InLots.remove (h : a.InLots lot) (id : OrderId) : (a.remove id).InLots lot :=
  fun s o ho => h s o (mem_remove.mp ho).1

/-- The book a submission walks. -/
theorem InLots.submission (h : a.InLots lot) (hx : a.submission policy c = some x) : x.book.InLots lot := by
  rcases (submission_fresh hx).book with hbook | hbook
  · exact hbook ▸ h
  · exact hbook ▸ h.remove _

theorem InLots.walk (h : x.book.InLots lot) (hqty : lot ∣ x.qty.toNat) :
    WalkInLots lot x.walk.1 x.walk.2 :=
  sweep_inLots ⟨h _, hqty, by simp⟩

theorem InLots.execute (h : x.book.InLots lot) (hqty : lot ∣ x.qty.toNat) : x.execute.2.2.InLots lot := by
  have hwalk := h.walk hqty
  have hafter : x.after.InLots lot := by
    intro s
    rcases Side.eq_or_eq_opposite x.taker.side s with rfl | rfl
    · rw [x.after_queue_near]
      exact h _
    · rw [x.after_queue_far]
      exact hwalk.far
  rw [x.execute_eq]
  show InLots lot (if x.rests = true then _ else _)
  split
  · intro s o ho
    rcases mem_rest ho with ho | ⟨rfl, -⟩
    · exact hafter s o ho
    · exact hwalk.left
  · exact hafter

/-- **A call keeps the book in whole lots**, when it submits whole lots. -/
theorem InLots.perform (h : a.InLots lot)
    (hc : ∀ x, a.submission policy c = some x → lot ∣ x.qty.toNat) :
    (a.perform policy c).2.2.InLots lot := by
  have hans := answered policy a c
  generalize a.perform policy c = r at hans ⊢
  cases hans with
  | submitted c x hx => exact (h.submission hx).execute (hc x hx)
  | rejected c qty hx hpop hcancel hlive => exact h
  | cancelled id => exact h.remove id
  | emptied id p hlive => exact h.remove id
  | popped => exact h

/-- **Each trade moves at least a lot**, so a submission trades no more often than it asks for lots. -/
theorem Submission.trades_le (h : x.book.InLots lot) (hqty : lot ∣ x.qty.toNat)
    (ht : Tally x.taker x.qty seq x.walk.2) : lot * (fillsOf x.walk.2.acts).length ≤ x.qty.toNat := by
  have hwalk := h.walk hqty
  have hle := mul_length_le_traded (n := lot) fun t hmem =>
    Nat.le_of_dvd (UInt32.lt_iff_toNat_lt.mp (ht.positive t hmem)) (hwalk.trades t hmem)
  have := ht.left
  omega

end PriorityBook

namespace Flow

open OrderBook PriorityBook

/-! ## Whole lots in the flow -/

section Lots

variable {lot : Quantity} {policy : SelfTradePolicy} {a : PriorityBook} {op : Op} {e : Emission}
  {es : List Emission} {x : Submission} {qty : Quantity} {n n' : Nat}

theorem Lots.mono (h : Lots lot n qty) (hn : n ≤ n') : Lots lot n' qty := by
  obtain ⟨k, hpos, hk, hqty⟩ := h
  exact ⟨k, hpos, hk.trans hn, hqty⟩

theorem Lots.dvd (h : Lots lot n qty) : lot.toNat ∣ qty.toNat := by
  obtain ⟨k, -, -, hqty⟩ := h
  exact ⟨k, hqty⟩

/-- An op submits the quantity it carries. -/
theorem Op.submission_qty (hx : a.submission policy op.call = some x) : x.qty = op.qty := by
  rw [Op.call] at hx
  split at hx
  · cases submits hx
    rfl
  · simp [submission] at hx
  · cases submits hx
    rfl
  · split at hx
    · cases submits hx
      rfl
    · cases submits hx
      rfl

/-- **A meant op submits 1 to 1280 lots**, if it submits at all. -/
theorem Meant.lots (h : Meant lot a e) (hx : a.submission policy e.op.call = some x) :
    Lots lot 1280 x.qty := by
  rw [Op.submission_qty hx]
  cases h with
  | add _ _ hqty => exact hqty.mono (by omega)
  | cancel _ => simp [Op.call, submission] at hx
  | modify _ _ hqty => exact hqty.mono (by omega)
  | market _ hqty => exact hqty
  | limit _ hqty _ _ => exact hqty

/-- **An intended flow keeps the book in whole lots.** -/
theorem Intended.inLots (h : Intended lot policy es) : (bookOf policy es).InLots lot.toNat := by
  induction h with
  | start => exact fun s o ho => absurd ho List.not_mem_nil
  | op _ hop ih => exact ih.perform fun x hx => (hop.lots hx).dvd

/-- **A meant op trades at most 1280 times** on a book of whole lots. -/
theorem Meant.trades_le {r : Record} (hmeant : Meant lot a e) (hlot : 1 ≤ lot) (hlots : a.InLots lot.toNat)
    (hsound : a.Sound) (h : Recorded policy a r) (hcall : r.call = e.op.call) : r.trades.length ≤ 1280 := by
  rw [Record.trades]
  cases hx : a.submission policy r.call with
  | none =>
    rw [h.acts_of_none hx]
    exact Nat.zero_le _
  | some x =>
    rw [h.acts_of_some hx]
    obtain ⟨k, -, hk, hqty⟩ := hmeant.lots (hcall ▸ hx)
    have hle := Submission.trades_le (hlots.submission hx) ⟨k, hqty⟩ (submission_tally hsound hx)
    rw [hqty] at hle
    exact (Nat.le_of_mul_le_mul_left hle (UInt32.le_iff_toNat_le.mp hlot)).trans hk

end Lots

/-! ## Drained replays -/

/-- What a drained replay of a generated flow has seen, and the book it has reached. -/
structure Smooth (lot : Quantity) (past : List Record) (b : OrderBook) : Prop where
  /-- Every resting quantity is a positive multiple of the lot. -/
  resting : ∃ os, b.forEachResting = some os ∧ ∀ o ∈ os, 0 < o.qty ∧ lot.toNat ∣ o.qty.toNat
  trades : ∀ r ∈ past, r.trades.length ≤ 1280
  dropped : b.tradeOut.dropCount = 0

section Replays

variable {lot : Quantity} {es : List Emission} {past : List Record} {b₀ b : OrderBook} {Q₀ : Layout}
  {free₀ : List SlotIndex}

theorem Follows.resting {a : PriorityBook} {Q : Layout} {free : List SlotIndex} (h : b.Follows a Q free)
    (hsound : a.Sound) (hlots : a.InLots lot.toNat) :
    ∃ os, b.forEachResting = some os ∧ ∀ o ∈ os, 0 < o.qty ∧ lot.toNat ∣ o.qty.toNat := by
  refine ⟨_, h.forEachResting, fun o ho => ?_⟩
  rcases List.mem_append.mp ho with ho | ho
  · obtain ⟨o', ho', rfl⟩ := List.mem_map.mp ho
    exact ⟨hsound.positive _ o' ho', hlots _ o' ho'⟩
  · obtain ⟨o', ho', rfl⟩ := List.mem_map.mp ho
    exact ⟨hsound.positive _ o' ho', hlots _ o' ho'⟩

/-- **Every op of a replay trades at most 1280 times.** -/
theorem Intended.trades_le (h : Intended lot b₀.policy es) (hlot : 1 ≤ lot) (h₀ : b₀.Follows {} Q₀ free₀)
    (hreplay : Replays es past) (hrun : Run b₀ past b) : ∀ r ∈ past, r.trades.length ≤ 1280 := by
  induction hreplay generalizing b with
  | start => simp
  | @pop es past r hreplay hcall ih =>
    have hrec := hrun.recorded_head h₀
    intro r' hr'
    rcases List.mem_cons.mp hr' with rfl | hmem
    · rw [hrec.trades_of_pop hcall]
      exact Nat.zero_le _
    · exact ih h hrun.cons_inv.2.1 r' hmem
  | @op es past e r hreplay hcall ih =>
    have hrec := hrun.recorded_head h₀
    have hrun' := hrun.cons_inv.2.1
    have hsound := (hrun'.inOrder h₀).2
    rw [replayOf, hreplay.replay] at hrec hsound
    cases h with
    | op hes hop =>
      intro r' hr'
      rcases List.mem_cons.mp hr' with rfl | hmem
      · exact hop.trades_le hlot hes.inLots hsound hrec hcall
      · exact ih hes hrun' r' hmem

/-- The older part of a replay is a replay of the older part of the flow. -/
theorem Replays.earlier {newer older : List Record} (h : Replays es (newer ++ older)) :
    ∃ later es', es = later ++ es' ∧ Replays es' older := by
  induction newer generalizing es with
  | nil => exact ⟨[], es, rfl, h⟩
  | cons r newer ih =>
    cases h with
    | pop h hcall => exact ih h
    | @op es' _ e _ h hcall =>
      obtain ⟨later, es'', rfl, hreplay⟩ := ih h
      exact ⟨e :: later, es'', rfl, hreplay⟩

/-- **A drained replay of an intended flow is smooth**, in a ring of at least 1280. -/
theorem Intended.smooth {capacity : Nat} (h : Intended lot b₀.policy es) (hlot : 1 ≤ lot)
    (h₀ : b₀.Follows {} Q₀ free₀) (hring : b₀.tradeOut.Accounts capacity [] []) (hcap : 1280 ≤ capacity)
    (hreplay : Replays es past) (hrun : Run b₀ past b) (hdrained : Drained past) : Smooth lot past b := by
  obtain ⟨Q, free, hf⟩ := hreplay.follows h₀ hrun
  have hsound := (hrun.inOrder h₀).2
  rw [replayOf, hreplay.replay] at hsound
  have htrades := h.trades_le hlot h₀ hreplay hrun
  have hacc := hrun.accounts h₀ hring
  have hentered := hrun.entered h₀ hring fun r hr => ?_
  · exact ⟨Follows.resting hf hsound h.inLots, htrades, hacc.dropCount_eq hentered⟩
  · obtain ⟨newer, older, rfl⟩ := List.append_of_mem hr
    obtain ⟨b', hrun'⟩ := hrun.earlier
    have hwf := hrun'.cons_inv.2.1.accounts h₀ hring
    by_cases hpop : r.call = .pop
    · have hfits := hwf.wf.size_le
      have hsize := hwf.size
      rw [(hrun'.recorded_head h₀).trades_of_pop hpop, List.length_nil]
      omega
    · have hempty := TradeRing.size_eq_zero.mpr (hdrained r hr hpop)
      have := htrades r hr
      omega

/-- **A drained replay of any part of a generated flow is smooth**, in a ring of `kTradeCapacity`. -/
theorem Upheld.smooth {cfg : Config} {b₁ : OrderBook} {n : Nat} {g : Generator} {later : List Emission}
    {scrub : RestingOrder → RestingOrder} {book : Lob.Config} (h : Upheld cfg b₁ n g) (hlot : 1 ≤ cfg.lot)
    (hout : g.out = later ++ es) (hpolicy : book.selfTrade = cfg.selfTrade)
    (hcapacity : book.tradeCapacity = kTradeCapacity) (hnew : OrderBook.new scrub book = some b₀)
    (hrun : Run b₀ past b) (hreplay : Replays es past) (hdrained : Drained past) :
    Smooth cfg.lot past b := by
  obtain ⟨h₀, hpolicy₀, hring, -⟩ := new_follows hnew
  obtain ⟨hacc, hcap⟩ := TradeRing.accounts_of_new hring
  have hintended := h.intended
  rw [hout, ← hpolicy, ← hpolicy₀] at hintended
  rw [hcapacity] at hcap
  apply hintended.earlier.smooth hlot h₀ hacc _ hreplay hrun hdrained
  exact (show 1280 ≤ kTradeCapacity.toNat by decide).trans hcap

end Replays

/-- **The benchmark's ring never drops.**  For every accepted configuration, seed and length, at every
point of the generator's own run and of every drained replay of any part of its flow, pops and all:
every resting quantity is a positive multiple of the lot, no op has traded more than 1280 times, and
nothing was dropped. -/
theorem flow_never_drops {cfg : Config} {scrub : RestingOrder → RestingOrder} {g : Generator}
    (hgen : generate cfg scrub = some g) (hlot : 1 ≤ cfg.lot) (hfits : 1280 * cfg.lot.toNat < 2 ^ 32) :
    (∃ b₀ past, shadow cfg scrub = some b₀ ∧ Run b₀ past g.book ∧ Replays g.out past ∧ Drained past
      ∧ ∀ newer older, past = newer ++ older → ∃ b, Run b₀ older b ∧ Smooth cfg.lot older b)
    ∧ ∀ later es, g.out = later ++ es → ∀ (scrub' : RestingOrder → RestingOrder) (book : Lob.Config) b₀,
      book.selfTrade = cfg.selfTrade → book.tradeCapacity = kTradeCapacity →
      OrderBook.new scrub' book = some b₀ → ∀ past b, Run b₀ past b → Replays es past → Drained past →
      Smooth cfg.lot past b := by
  obtain ⟨b₀, hshadow, hup⟩ := generate_upheld hfits hgen
  constructor
  · obtain ⟨past, hrun, hreplay, hdrained⟩ := hup.replay
    refine ⟨b₀, past, hshadow, hrun, hreplay, hdrained, ?_⟩
    rintro newer older rfl
    obtain ⟨b, hrun'⟩ := hrun.earlier
    obtain ⟨later, es, hout, hreplay'⟩ := hreplay.earlier
    refine ⟨b, hrun', hup.smooth hlot hout rfl rfl hshadow hrun' hreplay' ?_⟩
    exact fun r hr => hdrained r (List.mem_append_right _ hr)
  · intro later es hout scrub' book b₀ hpolicy hcapacity hnew past b hrun hreplay hdrained
    exact hup.smooth hlot hout hpolicy hcapacity hnew hrun hreplay hdrained

/-- The generator's own run, as a replay of the whole flow. -/
theorem flow_never_drops_brief : ∃ g b₀ past, generate brief id = some g ∧ shadow brief id = some b₀
    ∧ Run b₀ past g.book ∧ Replays g.out past ∧ Drained past ∧ Smooth brief.lot past g.book := by
  obtain ⟨g, hgen⟩ := Option.isSome_iff_exists.mp (show (generate brief id).isSome = true by decide +kernel)
  obtain ⟨⟨b₀, past, hnew, hrun, hreplay, hdrained, -⟩, hsmooth⟩ :=
    flow_never_drops hgen (by decide) (by decide)
  exact ⟨g, b₀, past, hgen, hnew, hrun, hreplay, hdrained,
    hsmooth [] g.out rfl id _ b₀ rfl rfl hnew past g.book hrun hreplay hdrained⟩

end Flow

end Lob
