/-
# Lob.CallRule — one rule for what calls keep of the book and of its uses.

Whatever is said of a book and of the history of uses behind it, a call goes through the same few
parts: it sends an order into the matching loop, it takes one out, or it does the second and then the
first.  `CallRule` asks what each part keeps, and `CallRule.perform` and `CallRule.run` answer for
calls and for runs.
-/
import Lob.RunRefine
import Lob.Uses

namespace Lob.OrderBook

/-- `J` holds before and between the parts of a call and `K` after the last one, with the uses behind
the book newest first. -/
structure CallRule (mem : Memory) (J K : OrderBook → List Use → Prop) : Prop where
  attempt : ∀ {x : Attempt} {y : PriorityBook.Submission} {Q : Layout} {free : List SlotIndex}
    {past : List Use} {e : Executed} {b' : OrderBook}, x.Follows y Q free → J x.book past →
      x.execute mem = .ok e b' → K b' ((x.uses mem).reverse ++ past)
  cancel : ∀ {b b' : OrderBook} {a : PriorityBook} {Q : Layout} {free : List SlotIndex}
    {past : List Use} {id : OrderId} {r : Bool}, b.Follows a Q free → J b past →
      b.cancel id = some (r, b') → J b' ((b.cancelUses id).reverse ++ past)
  /-- A modify reads the owner of the order it is about to take out. -/
  read : ∀ {b : OrderBook} {a : PriorityBook} {Q : Layout} {free : List SlotIndex} {past : List Use}
    {c : Cell}, b.Follows a Q free → J b past → c ∈ allCells Q → J b (.subscript c.1 :: past)
  pop : ∀ {b : OrderBook} {past : List Use}, J b past →
    J { b with tradeOut := b.tradeOut.pop.2 } past
  done : ∀ {b : OrderBook} {past : List Use}, J b past → K b past

section Calls

variable {J K : OrderBook → List Use → Prop} {mem : Memory} {b b' : OrderBook} {a : PriorityBook}
  {Q : Layout} {free : List SlotIndex} {past : List Use}

/-- A submission that is rejected uses nothing; one that is not is an attempt. -/
theorem CallRule.submit (hJ : CallRule mem J K) (h : b.Follows a Q free) (hb : J b past)
    {id : OrderId} {owner : ParticipantId} {side : Side} {limit : Option Price} {qty : Quantity}
    {restLeftover : Bool} {e : Executed}
    (hsub : b.submit mem id owner side limit qty restLeftover = .ok e b') :
    K b' ((b.submitUses mem ⟨id, owner, limit.getD 0, qty, side⟩ limit restLeftover).reverse
      ++ past) := by
  unfold OrderBook.submitUses
  cases hx : b.attempt ⟨id, owner, limit.getD 0, qty, side⟩ limit restLeftover with
  | none =>
    have hrej : (qty = 0 || a.live id) = true := by
      by_contra hgo
      rw [h.attempt] at hx
      simp [hgo] at hx
    rw [h.submit_rejected mem hrej] at hsub
    obtain ⟨-, rfl⟩ := Result.ok.inj hsub
    exact hJ.done hb
  | some x =>
    rw [submit_of_attempt mem hx] at hsub
    have hx' := hx
    rw [h.attempt] at hx'
    split at hx'
    · simp at hx'
    · rename_i hgo
      have hdead : a.live id = false := by
        simp only [Bool.or_eq_true, not_or, Bool.not_eq_true] at hgo
        exact hgo.2
      obtain rfl := Option.some.inj hx'
      have hf : Attempt.Follows ⟨b, ⟨id, owner, limit.getD 0, qty, side⟩, limit, restLeftover⟩
          ⟨a, ⟨b.policy, id, owner, side, limit⟩, qty, restLeftover⟩ Q free :=
        ⟨h, rfl, rfl, rfl, rfl, hdead⟩
      exact hJ.attempt hf hb hsub

/-- **Every call** keeps what its parts keep. -/
theorem CallRule.perform (hJ : CallRule mem J K) (h : b.Follows a Q free) (hb : J b past) {c : Call}
    {r : Reply} {events : List Event} (hcall : b.perform mem c = .ok (r, events) b') :
    K b' ((b.uses mem c).reverse ++ past) := by
  cases c with
  | addLimit id owner side price qty =>
    simp only [OrderBook.perform, addLimit] at hcall
    generalize hsub : b.submit mem id owner side (some price) qty true = res at hcall
    cases res with
    | ok e b₁ =>
      obtain ⟨-, rfl⟩ := Result.ok.inj hcall
      exact hJ.submit h hb hsub
    | throws e b₁ => simp at hcall
    | undefined => simp at hcall
  | addMarket id owner side qty =>
    simp only [OrderBook.perform, addMarket] at hcall
    generalize hsub : b.submit mem id owner side none qty false = res at hcall
    cases res with
    | ok e b₁ =>
      obtain ⟨-, rfl⟩ := Result.ok.inj hcall
      exact hJ.submit h hb hsub
    | throws e b₁ => simp at hcall
    | undefined => simp at hcall
  | cancel id =>
    obtain ⟨b₁, Q₁, free₁, hcancel, -⟩ := h.cancel id
    simp only [OrderBook.perform, hcancel] at hcall
    obtain ⟨-, rfl⟩ := Result.ok.inj hcall
    exact hJ.done (hJ.cancel h hb hcancel)
  | modify id newPrice newQty =>
    rcases h.located id with ⟨-, hfind⟩ | ⟨s, o, slot, ho, rfl, hc⟩
    · simp only [OrderBook.perform, modify, hfind] at hcall
      obtain ⟨-, rfl⟩ := Result.ok.inj hcall
      simp only [OrderBook.uses, modifyUses, hfind]
      exact hJ.done hb
    · obtain ⟨hfind, hvalue, hslot, hside⟩ := h.linked.filed hc
      obtain ⟨b₁, Q₁, free₁, hcancel, hf₁, -⟩ := h.cancel o.id
      have hread : J b (.subscript slot :: past) := hJ.read h hb (mem_allCells.mpr ⟨s, hc⟩)
      have hgone := hJ.cancel h hread hcancel
      simp only [OrderBook.perform, modify, hfind, hcancel, hslot, hside] at hcall
      simp only [OrderBook.uses, modifyUses, hfind, hcancel, hslot, hside]
      by_cases hzero : newQty = 0
      · rw [if_pos hzero] at hcall
        obtain ⟨-, rfl⟩ := Result.ok.inj hcall
        simpa [if_pos hzero] using hJ.done hgone
      · rw [if_neg hzero, addLimit] at hcall
        generalize hsub : b₁.submit mem o.id (b.pool.slots slot).value.owner s (some newPrice) newQty
          true = res at hcall
        cases res with
        | ok e b₂ =>
          obtain ⟨-, rfl⟩ := Result.ok.inj hcall
          simpa [if_neg hzero] using hJ.submit hf₁ hgone hsub
        | throws e b₂ => simp at hcall
        | undefined => simp at hcall
  | pop =>
    obtain ⟨-, rfl⟩ := Result.ok.inj hcall
    exact hJ.done (hJ.pop hb)

end Calls

/-! ## Runs -/

section Runs

variable {J K : OrderBook → List Use → Prop} {b₀ b : OrderBook} {past : List Record}
  {trace : List Use} {Q₀ : Layout} {free₀ : List SlotIndex}

/-- The uses of the calls of a run are the uses of the run. -/
theorem Traced.cons_inv {r : Record} (h : Traced (r :: past) trace) :
    ∃ mem older, trace = (r.before.uses mem r.call).reverse ++ older ∧ Traced past older
      ∧ r.before.perform mem r.call = .ok (r.reply, r.events) r.after := by
  cases h with
  | call mem r hcall htrace => exact ⟨mem, _, rfl, htrace, hcall⟩

/-- **The run lemma of the rule**: what every call keeps, where its end is as good as a start. -/
theorem CallRule.run (hJ : ∀ mem, CallRule mem J K) (h₀ : b₀.Follows {} Q₀ free₀) (hstart : J b₀ [])
    (hback : ∀ r ∈ past, ∀ uses, K r.after uses → J r.after uses) (hrun : Run b₀ past b)
    (htrace : Traced past trace) : J b trace := by
  induction hrun generalizing trace with
  | start =>
    cases htrace
    exact hstart
  | @call past b b' mem c reply events hrun hcall ih =>
    obtain ⟨mem', older, rfl, holder, hcall'⟩ := htrace.cons_inv
    obtain ⟨⟨Q, free, hf⟩, -⟩ := hrun.follows h₀
    have hb := ih (fun r hr => hback r (List.mem_cons_of_mem _ hr)) holder
    exact hback _ List.mem_cons_self _ ((hJ mem').perform hf hb hcall')

end Runs

end Lob.OrderBook
