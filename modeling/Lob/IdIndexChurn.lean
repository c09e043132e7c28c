/-
# Lob.IdIndexChurn — an id index is as good as a fresh one.

Whatever inserts, removals and growths led to a table, its used cells and the total distance of its
entries from their homes are those of a new table of the same capacity into which the present ids were
inserted, in any order.  Both tables are probed, and a probed table's used cells and total distance
depend on its keys alone.
-/
import Lob.Lib.ProbeFlow
import Lob.IdIndexMap

namespace Lob.IdIndex

open Lib.Probing

variable {υ : Type} {t t' t₀ u : IdIndex υ} {es : List (OrderId × υ)} {id : OrderId} {v : υ}

/-- The distances of all entries from their homes. -/
def probeDistance (t : IdIndex υ) : Nat :=
  ((List.range t.tableSize).map fun i =>
    if t.used i then dist t.tableSize (t.home (t.table i).id) i else 0).sum

theorem probeDistance_eq (t : IdIndex υ) :
    t.probeDistance = displacement t.tableSize t.home t.cells := by
  show _ = ((List.range t.tableSize).map fun j => (t.cells j).elim 0 fun e =>
    dist t.tableSize (t.home e.1) j).sum
  unfold probeDistance
  congr 1
  refine List.map_congr_left fun i _ => ?_
  unfold cells cellOf used
  by_cases hu : (t.table i).used = true
  · simp [hu]
  · simp [hu]

/-! ## The shape of a table -/

/-- The parameters of the hash are those of the table's size. -/
structure Shaped (t : IdIndex υ) : Prop where
  mask : t.mask = t.tableSize - 1
  bits : t.bits = countrZero t.tableSize

/-- `t'` has the size and the hash of `t`. -/
structure SameShape (t t' : IdIndex υ) : Prop where
  size : t'.tableSize = t.tableSize
  mask : t'.mask = t.mask
  bits : t'.bits = t.bits

theorem SameShape.refl (t : IdIndex υ) : SameShape t t := ⟨rfl, rfl, rfl⟩

theorem SameShape.shaped (h : SameShape t t') (hs : t.Shaped) : t'.Shaped :=
  ⟨by rw [h.mask, h.size, hs.mask], by rw [h.bits, h.size, hs.bits]⟩

theorem Shaped.home_eq (h : t.Shaped) (hu : u.Shaped) (hsize : u.tableSize = t.tableSize) :
    u.home = t.home := by
  funext id
  rw [home, home, h.mask, h.bits, hu.mask, hu.bits, hsize]

theorem place_shape (h : t.place id v = some t') : SameShape t t' := by
  unfold place at h
  obtain ⟨i, -, rfl⟩ := Option.map_eq_some_iff.mp h
  exact ⟨rfl, rfl, rfl⟩

theorem closeGap_shape {fuel hole j : Nat} (h : closeGap fuel t hole j = some t') : SameShape t t' := by
  induction fuel generalizing t hole j with
  | zero => simp [closeGap] at h
  | succ fuel ih =>
    unfold closeGap at h
    split at h
    · split at h
      · exact ih h
      · exact ⟨(ih h).size, (ih h).mask, (ih h).bits⟩
    · obtain rfl := Option.some.inj h
      exact ⟨rfl, rfl, rfl⟩

theorem take_shape {r : Option υ} (h : t.take id = some (r, t')) : SameShape t t' := by
  unfold take at h
  split at h
  · simp at h
  · split at h
    · obtain ⟨q, hq, hpair⟩ := Option.map_eq_some_iff.mp h
      obtain rfl := (Prod.mk.inj hpair).2
      have hshape := closeGap_shape hq
      exact ⟨hshape.size, hshape.mask, hshape.bits⟩
    · obtain rfl := (Prod.mk.inj (Option.some.inj h)).2
      exact .refl t

theorem rehash_shape {old : Nat → Entry υ} {is : List Nat} (h : rehash old is t = some t') :
    SameShape t t' := by
  induction is generalizing t with
  | nil =>
    obtain rfl := Option.some.inj h
    exact .refl t
  | cons i is ih =>
    unfold rehash at h
    split at h
    · split at h
      · simp at h
      · rename_i q hq
        have h₁ := place_shape hq
        have h₂ := ih h
        exact ⟨h₂.size.trans h₁.size, h₂.mask.trans h₁.mask, h₂.bits.trans h₁.bits⟩
    · exact ih h

section Calls

variable [Inhabited υ] {past : List (Call υ)} {mem : Bool} {c : Call υ} {r : Reply υ}

theorem shaped_resizeTable (t : IdIndex υ) (cap : Nat) : (t.resizeTable cap).Shaped := ⟨rfl, rfl⟩

theorem Shaped.grow (h : t.grow mem = .ok () t') : t'.Shaped := by
  unfold IdIndex.grow at h
  split at h
  · simp at h
  · simp only at h
    split at h
    · split at h
      · simp at h
      · rename_i q hq
        obtain rfl := (Result.ok.inj h).2
        have hs := (rehash_shape hq).shaped (shaped_resizeTable _ _)
        exact ⟨hs.mask, hs.bits⟩
    · simp at h

theorem Shaped.insert (h : t.Shaped) (hins : t.insert mem id v = .ok () t') : t'.Shaped := by
  have counted : ∀ q q' : IdIndex υ, q.Shaped → q.place id v = some q' →
      Shaped { q' with count := q'.count + 1 } := by
    intro q q' hq hplace
    have hs := (place_shape hplace).shaped hq
    exact ⟨hs.mask, hs.bits⟩
  unfold IdIndex.insert at hins
  by_cases hfull : t.tableSize < (t.count + 1) * 2
  · rw [if_pos hfull] at hins
    generalize hgrow : t.grow mem = g at hins
    cases g with
    | ok _ q =>
      simp only at hins
      split at hins
      · simp at hins
      · rename_i q' hplace
        obtain rfl := (Result.ok.inj hins).2
        exact counted q q' (Shaped.grow hgrow) hplace
    | throws e q => simp at hins
    | undefined => simp at hins
  · rw [if_neg hfull] at hins
    simp only at hins
    split at hins
    · simp at hins
    · rename_i q' hplace
      obtain rfl := (Result.ok.inj hins).2
      exact counted t q' h hplace

/-- **A call keeps the hash the one of the table's size.** -/
theorem Shaped.perform (h : t.Shaped) (hcall : t.perform mem c = .ok r t') : t'.Shaped := by
  cases c with
  | insert id v =>
    simp only [IdIndex.perform] at hcall
    generalize hins : t.insert mem id v = q at hcall
    cases q with
    | ok _ q =>
      obtain rfl := (Result.ok.inj hcall).2
      exact h.insert hins
    | throws e q => simp at hcall
    | undefined => simp at hcall
  | take id =>
    simp only [IdIndex.perform] at hcall
    split at hcall
    · rename_i w q htake
      obtain rfl := (Result.ok.inj hcall).2
      exact (take_shape htake).shaped h
    · simp at hcall
  | erase id =>
    simp only [IdIndex.perform, IdIndex.erase] at hcall
    split at hcall
    · rename_i w q herase
      obtain ⟨⟨w', q'⟩, htake, hpair⟩ := Option.map_eq_some_iff.mp herase
      obtain rfl := (Prod.mk.inj hpair).2
      obtain rfl := (Result.ok.inj hcall).2
      exact (take_shape htake).shaped h
    · simp at hcall
  | find id =>
    simp only [IdIndex.perform] at hcall
    split at hcall
    · obtain rfl := (Result.ok.inj hcall).2
      exact h
    · simp at hcall
  | contains id =>
    simp only [IdIndex.perform] at hcall
    split at hcall
    · obtain rfl := (Result.ok.inj hcall).2
      exact h
    · simp at hcall

theorem Run.shaped (h₀ : t₀.Shaped) (h : Run t₀ past t) : t.Shaped := by
  induction h with
  | start => exact h₀
  | call mem c r _ _ hcall ih => exact ih.perform hcall

theorem shaped_of_new {expected : Nat} (h : new expected = some t₀) : t₀.Shaped := by
  unfold new at h
  obtain ⟨cap, -, rfl⟩ := Option.map_eq_some_iff.mp h
  exact shaped_resizeTable _ _

/-! ## Fresh tables -/

/-- Room for half of a power of two from 16 on is that power of two. -/
theorem new_half {k : Nat} (h4 : 4 ≤ k) (h63 : k ≤ 63) :
    ∃ u₀ : IdIndex υ, new (2 ^ k / 2) = some u₀ ∧ u₀.tableSize = 2 ^ k := by
  have hrun := @doubleWhile_stops (fun cap => decide (cap / 2 < 2 ^ k / 2)) k 65 4 h4 h63
    (fun j hj hlt => ?_) (decide_eq_false (Nat.lt_irrefl _)) (by omega)
  · exact ⟨_, by rw [new, show 16 = 2 ^ 4 from rfl, hrun]; rfl, rfl⟩
  · obtain ⟨i, rfl⟩ := Nat.exists_eq_add_of_lt hlt
    obtain ⟨m, rfl⟩ := Nat.exists_eq_add_of_le hj
    have hpow : 2 ^ (4 + m + i + 1) = 2 ^ (4 + m) * 2 ^ (i + 1) := by rw [Nat.add_assoc, Nat.pow_add]
    have h1 : 2 ^ (4 + m) = 16 * 2 ^ m := by rw [Nat.pow_add]
    have h2 : 2 ^ (i + 1) = 2 * 2 ^ i := by rw [Nat.pow_succ, Nat.mul_comm]
    have hm := Nat.two_pow_pos m
    have hi := Nat.two_pow_pos i
    refine decide_eq_true ?_
    rw [hpow, h2]
    have hge : 2 ^ (4 + m) * 2 ≤ 2 ^ (4 + m) * (2 * 2 ^ i) := Nat.mul_le_mul_left _ (by omega)
    omega

/-- **Inserting into a table with room enough never grows it.** -/
theorem insertAll_spec (h₀ : t₀.Represents []) (hnd : (es.map Prod.fst).Nodup)
    (hroom : 2 * es.length ≤ t₀.tableSize) :
    ∃ u, insertAll t₀ es = some u ∧ u.Represents es ∧ u.tableSize = t₀.tableSize := by
  induction es with
  | nil => exact ⟨t₀, rfl, h₀, rfl⟩
  | cons e es ih =>
    rw [List.map_cons, List.nodup_cons] at hnd
    rw [List.length_cons] at hroom
    obtain ⟨q, hq, hr, hsize⟩ := ih hnd.2 (by omega)
    have hins := hr.insert (v := e.2) true hnd.1
    have hcount := hr.count
    have hsmall : ¬ q.tableSize < (q.count + 1) * 2 := by omega
    rw [insertAll, hq, Option.bind_some]
    simp only [IdIndex.perform]
    generalize q.insert true e.1 e.2 = r at hins ⊢
    cases hins with
    | ok u hu hsize' _ =>
      rw [if_neg hsmall] at hsize'
      exact ⟨u, rfl, hu, hsize'.trans hsize⟩
    | failed _ _ _ hfull _ => exact absurd hfull hsmall

/-- **The id index never degrades with churn**: after any history its used cells, and the total
distance of its entries from their homes, are those of a new table of the same capacity after the
present ids are inserted in any order. -/
theorem churn_leaves_fresh_table {expected : Nat} (hnew : new expected = some t₀)
    (hrun : Run t₀ past t) (hnd : (es.map Prod.fst).Nodup)
    (hes : ∀ id, id ∈ es.map Prod.fst ↔ lastValue id past ≠ none) :
    ∃ u₀ u, new (t.tableSize / 2) = some u₀ ∧ insertAll u₀ es = some u
      ∧ u₀.tableSize = t.tableSize ∧ u.tableSize = t.tableSize
      ∧ (∀ i < t.tableSize, u.used i = t.used i) ∧ u.probeDistance = t.probeDistance := by
  obtain ⟨es₀, hr, ha⟩ := hrun.represents (represents_of_new hnew)
  obtain ⟨k, h4, h63, hk⟩ := hr.pow
  obtain ⟨u₀, hu₀, hsize₀⟩ := @new_half υ _ k h4 h63
  rw [← hk] at hu₀ hsize₀
  have hkeys : (es₀.map Prod.fst).Perm (es.map Prod.fst) := by
    rw [List.perm_ext_iff_of_nodup hr.nodup hnd]
    intro id
    rw [ha.mem_keys, hes, Option.isSome_iff_ne_none]
  have hlen : es.length = es₀.length := by simpa using hkeys.length_eq.symm
  have hhalf := hr.half
  obtain ⟨u, hu, hur, husize⟩ := insertAll_spec (represents_of_new hu₀) hnd (by omega)
  have hushape : u.Shaped := (insertAll_run hnd hu).1.shaped (shaped_of_new hu₀)
  have hsize : u.tableSize = t.tableSize := husize.trans hsize₀
  have hhome := (hrun.shaped (shaped_of_new hnew)).home_eq hushape hsize
  -- both tables as probed tables of one size, with one home function and one set of keys
  have hprobed := hur.probed
  rw [hsize, hhome] at hprobed
  have hcontent : ((content t.tableSize u.cells).map Prod.fst).Perm
      ((content t.tableSize t.cells).map Prod.fst) := by
    have huperm := hur.perm
    rw [hsize] at huperm
    exact ((huperm.map _).trans hkeys.symm).trans (hr.perm.map _).symm
  have hroom := hr.exists_unused hr.roomy
  have huroom := hur.exists_unused hur.roomy
  rw [hsize] at huroom
  refine ⟨u₀, u, hu₀, hu, hsize₀, hsize, fun i hi => ?_, ?_⟩
  · have hused := used_unique hprobed hr.probed hcontent huroom hroom i hi
    rw [cells_eq_none, cells_eq_none] at hused
    rw [Bool.eq_iff_iff, ← not_iff_not, Bool.not_eq_true, Bool.not_eq_true]
    exact hused
  · rw [probeDistance_eq, probeDistance_eq, hsize, hhome]
    exact displacement_unique hprobed hr.probed hcontent huroom hroom

end Calls

/-- Of three ids that share a home the first inserted is taken; the others are as if it never was. -/
theorem churn_leaves_fresh_table_collision : ∃ t₀ t u₀ u : IdIndex UInt32, new 8 = some t₀
    ∧ Run t₀ [.take 5, .insert 39 9, .insert 20 8, .insert 5 7] t
    ∧ new (t.tableSize / 2) = some u₀ ∧ insertAll u₀ [(20, 8), (39, 9)] = some u
    ∧ (∀ i < t.tableSize, u.used i = t.used i) ∧ u.probeDistance = t.probeDistance := by
  have hnew : new 8 = some (resizeTable ⟨fun _ => ⟨0, (default : UInt32), false⟩, 0, 0, 0, 0, 0⟩ 16) :=
    rfl
  have h₀ : Run (resizeTable ⟨fun _ => ⟨0, (default : UInt32), false⟩, 0, 0, 0, 0, 0⟩ 16) [] _ :=
    .start
  have h₁ := Run.call true (.insert 5 7) .done h₀ rfl rfl
  have h₂ := Run.call true (.insert 20 8) .done h₁ rfl rfl
  have h₃ := Run.call true (.insert 39 9) .done h₂ rfl rfl
  have hrun := Run.call true (.take 5) (.value (some 7)) h₃ trivial rfl
  have hkeys : ∀ id : OrderId, id ∈ [((20 : OrderId), (8 : UInt32)), (39, 9)].map Prod.fst
      ↔ lastValue id [Call.take 5, .insert 39 (9 : UInt32), .insert 20 8, .insert 5 7] ≠ none := by
    intro id
    simp only [lastValue, List.map_cons, List.map_nil, List.mem_cons, List.not_mem_nil, or_false]
    by_cases h5 : (5 : OrderId) = id
    · subst h5
      decide
    · by_cases h20 : (20 : OrderId) = id
      · subst h20
        decide
      · by_cases h39 : (39 : OrderId) = id
        · subst h39
          decide
        · simp [h5, h20, h39, Ne.symm h20, Ne.symm h39]
  obtain ⟨u₀, u, hu₀, hu, -, -, hused, hdist⟩ :=
    churn_leaves_fresh_table hnew hrun (by decide) hkeys
  exact ⟨_, _, u₀, u, hnew, hrun, hu₀, hu, hused, hdist⟩

end Lob.IdIndex
