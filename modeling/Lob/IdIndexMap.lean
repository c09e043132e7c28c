/-
# Lob.IdIndexMap — the id index under any history of calls is a partial map.

`lastValue` reads the map off the history alone: the value of the last insert of an id that no later
take or erase of it undid.  The run lemma keeps a list of entries that the table represents and that
has the same lookups; every answer of the table is then the answer of the history.
-/
import Mathlib.Data.Set.Card
import Lob.IdIndexRefine

namespace Lob.IdIndex

variable {υ : Type} {id : OrderId} {v : υ}

/-! ## Histories -/

inductive Call (υ : Type)
  | insert (id : OrderId) (value : υ)
  | take (id : OrderId)
  | erase (id : OrderId)
  | find (id : OrderId)
  | contains (id : OrderId)

/-- What a call returns; a value is the pointee of `find` or the output of a `take` that was true. -/
inductive Reply (υ : Type)
  | done
  | value (v : Option υ)
  | flag (b : Bool)

/-- Make one call. -/
def perform [Inhabited υ] (mem : Bool) (t : IdIndex υ) : Call υ → Result (IdIndex υ) (Reply υ)
  | .insert id v =>
    match t.insert mem id v with
    | .ok _ t => .ok .done t
    | .throws e t => .throws e t
    | .undefined => .undefined
  | .take id =>
    match t.take id with
    | some (v, t) => .ok (.value v) t
    | none => .undefined
  | .erase id =>
    match t.erase id with
    | some (b, t) => .ok (.flag b) t
    | none => .undefined
  | .find id =>
    match t.find id with
    | some v => .ok (.value v) t
    | none => .undefined
  | .contains id =>
    match t.contains id with
    | some b => .ok (.flag b) t
    | none => .undefined

/-- The value a history, newest call first, leaves under `id`. -/
def lastValue (id : OrderId) : List (Call υ) → Option υ
  | [] => none
  | .insert id' v :: past => if id' = id then some v else lastValue id past
  | .take id' :: past => if id' = id then none else lastValue id past
  | .erase id' :: past => if id' = id then none else lastValue id past
  | .find _ :: past => lastValue id past
  | .contains _ :: past => lastValue id past

/-- The caller's promise: only an absent id is inserted. -/
def Legal (past : List (Call υ)) : Call υ → Prop
  | .insert id _ => lastValue id past = none
  | _ => True

/-- What the history says a call should return. -/
def expected (past : List (Call υ)) : Call υ → Reply υ
  | .insert _ _ => .done
  | .take id => .value (lastValue id past)
  | .erase id => .flag (lastValue id past).isSome
  | .find id => .value (lastValue id past)
  | .contains id => .flag (lastValue id past).isSome

/-- The tables reached from `t₀` by legal calls that did not throw, with their histories. -/
inductive Run [Inhabited υ] (t₀ : IdIndex υ) : List (Call υ) → IdIndex υ → Prop
  | start : Run t₀ [] t₀
  | call {past : List (Call υ)} {t t' : IdIndex υ} (mem : Bool) (c : Call υ) (r : Reply υ)
      (hrun : Run t₀ past t) (hlegal : Legal past c) (hcall : t.perform mem c = .ok r t') :
      Run t₀ (c :: past) t'

/-! ## One call -/

/-- The entries `es` have the lookups of the history. -/
def Agrees (es : List (OrderId × υ)) (past : List (Call υ)) : Prop :=
  ∀ id v, (id, v) ∈ es ↔ lastValue id past = some v

theorem Agrees.mem_keys {es : List (OrderId × υ)} {past : List (Call υ)} (h : Agrees es past) :
    id ∈ es.map Prod.fst ↔ (lastValue id past).isSome := by
  rw [Option.isSome_iff_exists, List.mem_map]
  constructor
  · rintro ⟨⟨id', v⟩, hv, rfl⟩
    exact ⟨v, (h id' v).mp hv⟩
  · rintro ⟨v, hv⟩
    exact ⟨(id, v), (h id v).mpr hv, rfl⟩

/-- Taking a present entry out of `es` leaves the lookups of a history that ends with its removal. -/
theorem Agrees.remove {es es' : List (OrderId × υ)} {past : List (Call υ)} (h : Agrees es past)
    (hnd : (es.map Prod.fst).Nodup) (hes : es.Perm ((id, v) :: es')) {c : Call υ}
    (hc : c = .take id ∨ c = .erase id) : Agrees es' (c :: past) := by
  have hnd' := (hes.map Prod.fst).nodup_iff.mp hnd
  rw [List.map_cons, List.nodup_cons] at hnd'
  intro id' w
  have hlast : lastValue id' (c :: past) = if id = id' then none else lastValue id' past := by
    rcases hc with rfl | rfl <;> rfl
  rw [hlast]
  by_cases hid : id = id'
  · subst hid
    simp only [if_true]
    exact ⟨fun hw => absurd (List.mem_map.mpr ⟨_, hw, rfl⟩) hnd'.1, fun hw => by simp at hw⟩
  · rw [if_neg hid, ← h id' w, hes.mem_iff, List.mem_cons]
    simp [Ne.symm hid]

/-- Removing an absent id changes no lookup. -/
theorem Agrees.keep {es : List (OrderId × υ)} {past : List (Call υ)} (h : Agrees es past)
    (habs : lastValue id past = none) {c : Call υ} (hc : c = .take id ∨ c = .erase id) :
    Agrees es (c :: past) := by
  intro id' w
  have hlast : lastValue id' (c :: past) = if id = id' then none else lastValue id' past := by
    rcases hc with rfl | rfl <;> rfl
  rw [hlast, h id' w]
  split
  · rename_i hid
    rw [← hid, habs]
  · rfl

theorem Agrees.insert {es : List (OrderId × υ)} {past : List (Call υ)} (h : Agrees es past)
    (habs : lastValue id past = none) : Agrees ((id, v) :: es) (.insert id v :: past) := by
  intro id' w
  rw [List.mem_cons, h id' w]
  show _ ↔ (if id = id' then some v else lastValue id' past) = some w
  by_cases hid : id = id'
  · subst hid
    rw [if_pos rfl, habs]
    simp [eq_comm]
  · rw [if_neg hid]
    simp [Ne.symm hid]

variable [Inhabited υ]

/-- The ways a call can end on a table that agrees with its history. -/
inductive Performed (mem : Bool) (t : IdIndex υ) (past : List (Call υ)) (c : Call υ) :
    Result (IdIndex υ) (Reply υ) → Prop
  | ok (t' : IdIndex υ) (es' : List (OrderId × υ)) (hr : t'.Represents es')
      (ha : Agrees es' (c :: past)) : Performed mem t past c (.ok (expected past c) t')
  | growthFailed (id : OrderId) (v : υ) (e : Throw) (t' : IdIndex υ) (hc : c = .insert id v)
      (hfull : t.tableSize < (t.count + 1) * 2) (hwhy : 2 ^ 62 < t.tableSize ∨ mem = false) :
      Performed mem t past c (.throws e t')

/-- **The step lemma.** Every legal call ends, answers as the history says, and leaves a table that
agrees with the longer history; only growth throws. -/
theorem Represents.perform {t : IdIndex υ} {es : List (OrderId × υ)} (h : t.Represents es)
    {past : List (Call υ)} (ha : Agrees es past) (mem : Bool) {c : Call υ} (hlegal : Legal past c) :
    Performed mem t past c (t.perform mem c) := by
  have habs : ∀ {id}, lastValue id past = none → id ∉ es.map Prod.fst := fun hn hmem => by
    have := ha.mem_keys.mp hmem
    rw [hn] at this
    simp at this
  -- an id the history holds a value for has its entry, and the rest of the entries beside it
  have hsplit : ∀ {id v}, lastValue id past = some v → ∃ es', es.Perm ((id, v) :: es') := by
    intro id v hv
    obtain ⟨a, b, hab⟩ := List.append_of_mem ((ha id v).mpr hv)
    exact ⟨a ++ b, hab ▸ List.perm_middle⟩
  cases c with
  | insert id v =>
    have hins := h.insert (v := v) mem (habs hlegal)
    simp only [IdIndex.perform]
    generalize t.insert mem id v = r at hins ⊢
    cases hins with
    | ok t' hr _ _ => exact .ok t' _ hr (ha.insert hlegal)
    | failed e t' _ hfull hwhy => exact .growthFailed id v e t' rfl hfull hwhy
  | take id =>
    cases hv : lastValue id past with
    | none =>
      rw [IdIndex.perform, h.take_absent (habs hv), ← hv]
      exact .ok t es h (ha.keep hv (Or.inl rfl))
    | some v =>
      obtain ⟨es', hes⟩ := hsplit hv
      obtain ⟨t', ht, hr⟩ := h.take_present hes
      rw [IdIndex.perform, ht, ← hv]
      exact .ok t' es' hr (ha.remove h.nodup hes (Or.inl rfl))
  | erase id =>
    cases hv : lastValue id past with
    | none =>
      have hflag : false = (lastValue id past).isSome := by rw [hv]; rfl
      rw [IdIndex.perform, h.erase_absent (habs hv), hflag]
      exact .ok t es h (ha.keep hv (Or.inr rfl))
    | some v =>
      have hflag : true = (lastValue id past).isSome := by rw [hv]; rfl
      obtain ⟨es', hes⟩ := hsplit hv
      obtain ⟨t', ht, hr⟩ := h.erase_present hes
      rw [IdIndex.perform, ht, hflag]
      exact .ok t' es' hr (ha.remove h.nodup hes (Or.inr rfl))
  | find id =>
    have hfind : t.find id = some (lastValue id past) := by
      cases hv : lastValue id past with
      | none => exact h.find_absent (habs hv)
      | some v => exact h.find_present ((ha id v).mpr hv)
    rw [IdIndex.perform, hfind]
    exact .ok t es h ha
  | contains id =>
    have hflag : decide (id ∈ es.map Prod.fst) = (lastValue id past).isSome := by
      rw [Bool.eq_iff_iff, decide_eq_true_eq, ha.mem_keys]
    rw [IdIndex.perform, h.contains, hflag]
    exact .ok t es h ha

/-! ## The run -/

/-- The run lemma. -/
theorem Run.represents {t₀ t : IdIndex υ} {past : List (Call υ)} (h₀ : t₀.Represents [])
    (h : Run t₀ past t) : ∃ es, t.Represents es ∧ Agrees es past := by
  induction h with
  | start => exact ⟨[], h₀, fun id v => by simp [lastValue]⟩
  | call mem c r _ hlegal hcall ih =>
    obtain ⟨es, hr, ha⟩ := ih
    have hstep := hr.perform ha mem hlegal
    rw [hcall] at hstep
    cases hstep with
    | ok t' es' hr' ha' => exact ⟨es', hr', ha'⟩

/-! ## Runs of inserts -/

/-- Insert some absent ids, newest first. -/
def insertAll (t₀ : IdIndex υ) : List (OrderId × υ) → Option (IdIndex υ)
  | [] => some t₀
  | e :: es =>
    (insertAll t₀ es).bind fun t =>
      match t.perform true (.insert e.1 e.2) with
      | .ok .done t => some t
      | _ => none

theorem insertAll_run {t₀ t : IdIndex υ} {es : List (OrderId × υ)} (hnd : (es.map Prod.fst).Nodup)
    (h : insertAll t₀ es = some t) :
    Run t₀ (es.map fun e => .insert e.1 e.2) t
      ∧ ∀ id ∉ es.map Prod.fst, lastValue id (es.map fun e => Call.insert e.1 e.2) = none := by
  induction es generalizing t with
  | nil =>
    obtain rfl := Option.some.inj h
    exact ⟨.start, fun _ _ => rfl⟩
  | cons e es ih =>
    obtain ⟨q, hq, hins⟩ := Option.bind_eq_some_iff.mp h
    rw [List.map_cons, List.nodup_cons] at hnd
    obtain ⟨hrun, habs⟩ := ih hnd.2 hq
    split at hins
    · rename_i q' hcall
      obtain rfl := Option.some.inj hins
      refine ⟨.call true _ .done hrun (habs e.1 hnd.1) hcall, fun id hid => ?_⟩
      rw [List.map_cons, List.mem_cons, not_or] at hid
      show (if e.1 = id then _ else _) = _
      rw [if_neg (Ne.symm hid.1)]
      exact habs id hid.2
    · simp at hins

/-! ## The map -/

/-- **The id index is a finite partial map.** For every expected size that fits and every history of
legal calls: each call ends, returns what the history says, and throws only where growth fails; the
size is the number of present ids, the table is consistent, a power of two, and at most half full. -/
theorem idIndex_is_partial_map (υ : Type) [Inhabited υ] {room : Nat} (hroom : room ≤ 2 ^ 62) :
    ∃ t₀ : IdIndex υ, new room = some t₀ ∧ ∀ past t, Run t₀ past t →
      (∀ mem c, Legal past c →
        (∃ t', t.perform mem c = .ok (expected past c) t') ∨
        (∃ id v e t', c = .insert id v ∧ t.perform mem c = .throws e t'
          ∧ t.tableSize < (t.count + 1) * 2 ∧ (2 ^ 62 < t.tableSize ∨ mem = false)))
      ∧ t.count = {id | lastValue id past ≠ none}.ncard
      ∧ t.consistent = true
      ∧ (∃ k, t.tableSize = 2 ^ k)
      ∧ 2 * t.count ≤ t.tableSize := by
  obtain ⟨t₀, hnew, h₀⟩ := @new_spec υ _ room hroom
  refine ⟨t₀, hnew, fun past t hrun => ?_⟩
  obtain ⟨es, hr, ha⟩ := hrun.represents h₀
  refine ⟨fun mem c hlegal => ?_, ?_, hr.consistent, ?_, ?_⟩
  · have hstep := hr.perform ha mem hlegal
    generalize t.perform mem c = r at hstep ⊢
    cases hstep with
    | ok t' es' _ _ => exact Or.inl ⟨t', rfl⟩
    | growthFailed id v e t' hc hfull hwhy =>
      exact Or.inr ⟨id, v, e, t', hc, rfl, hfull, hwhy⟩
  · have hset : {id | lastValue id past ≠ none} = ((es.map Prod.fst).toFinset : Set OrderId) := by
      ext id
      simp only [Set.mem_ofPred_eq, List.coe_toFinset, ha.mem_keys, Option.isSome_iff_ne_none]
    rw [hset, Set.ncard_coe_finset, List.toFinset_card_of_nodup hr.nodup, List.length_map, hr.count]
  · obtain ⟨k, -, -, hk⟩ := hr.pow
    exact ⟨k, hk⟩
  · rw [hr.count]
    exact hr.half

/-- Ids 5 and 20 share a home in a table of 16; taking the first leaves the second within reach. -/
theorem idIndex_is_partial_map_collision :
    ∃ t₀ t : IdIndex UInt32, new 8 = some t₀ ∧ Run t₀ [.take 5, .insert 20 8, .insert 5 7] t
      ∧ t₀.home 5 = t₀.home 20
      ∧ (∃ t', t.perform true (.find 20) = .ok (.value (some 8)) t')
      ∧ (∃ t', t.perform true (.find 5) = .ok (.value none) t')
      ∧ t.consistent = true := by
  obtain ⟨t₀, hnew, hall⟩ := idIndex_is_partial_map UInt32 (show 8 ≤ 2 ^ 62 by decide)
  obtain rfl : resizeTable ⟨fun _ => ⟨0, default, false⟩, 0, 0, 0, 0, 0⟩ 16 = t₀ :=
    Option.some.inj hnew
  have h₀ : Run (resizeTable ⟨fun _ => ⟨0, (default : UInt32), false⟩, 0, 0, 0, 0, 0⟩ 16) [] _ :=
    .start
  have h₁ := Run.call true (.insert 5 7) .done h₀ rfl rfl
  have h₂ := Run.call true (.insert 20 8) .done h₁ rfl rfl
  have hrun := Run.call true (.take 5) (.value (some 7)) h₂ trivial rfl
  obtain ⟨hperform, -, hconsistent, -⟩ := hall _ _ hrun
  refine ⟨_, _, hnew, hrun, rfl, ?_, ?_, hconsistent⟩
  · rcases hperform true (.find 20) trivial with h | ⟨_, _, _, _, h, _⟩
    · exact h
    · cases h
  · rcases hperform true (.find 5) trivial with h | ⟨_, _, _, _, h, _⟩
    · exact h
    · cases h

end Lob.IdIndex
