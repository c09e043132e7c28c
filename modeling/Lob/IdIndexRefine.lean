/-
# Lob.IdIndexRefine — what `insert`, `take` and growth do to the entries a table represents.

`place` and `closeGap` are one write and one loop over the cells; `Probed.insert` and the `Gap`
invariant of the probing library carry the argument, and what is proved here is that the source's
loops run them and stop.
-/
import Lob.IdIndex

namespace Lob.IdIndex

open Lib.Probing

variable {υ : Type} {t : IdIndex υ} {es : List (OrderId × υ)} {id : OrderId} {v : υ}

/-! ## Placing an entry -/

/-- **`place` files a new id in the first unused cell from its home.** -/
theorem Filed.place (h : t.Filed es) (hroom : es.length < t.tableSize)
    (habs : id ∉ es.map Prod.fst) :
    ∃ tbl, t.place id v = some { t with table := tbl } ∧
      Filed { t with table := tbl } ((id, v) :: es) := by
  obtain ⟨i, hi, hc, hbefore⟩ := exists_nearest (a := t.home id) (h.exists_unused hroom)
  have hwalk : walkUntil (fun i => !t.used i) t.step t.tableSize (t.home id) = some i := by
    refine walkUntil_eq h.step_eq (h.home_lt id) hi (dist_lt (h.home_lt id) hi)
      (by simp [cells_eq_none.mp hc]) fun m hm hlt => ?_
    simp [cells_ne_none.mp (hbefore m hm hlt)]
  have hcells : (t.setEntry i ⟨id, v, true⟩).cells = Function.update t.cells i (some (id, v)) := by
    rw [cells_setEntry]
    rfl
  refine ⟨Function.update t.table i ⟨id, v, true⟩, ?_, ⟨h.pow, h.mask⟩, ?_, ?_⟩
  · rw [IdIndex.place, hwalk]
    rfl
  · show Probed t.tableSize t.home (t.setEntry i ⟨id, v, true⟩).cells
    rw [hcells]
    refine h.probed.insert (fun w hw => ?_) hbefore
    exact habs (List.mem_map.mpr ⟨_, h.perm.mem_iff.mp hw, rfl⟩)
  · show (content t.tableSize (t.setEntry i ⟨id, v, true⟩).cells).Perm _
    rw [hcells]
    exact (content_update_some hi hc (id, v)).trans (h.perm.cons _)

/-! ## Closing the gap -/

/-- Cells away from the hole read as the table does. -/
theorem used_of_ne_hole {hole j : Nat} (hne : hole ≠ j) :
    Function.update t.cells hole none j = t.cells j := Function.update_of_ne (Ne.symm hne) _ _

/-- **The shift loop ends, and leaves a probed table without the entry at the hole.** The stale entry
at the hole counts as unused throughout. -/
theorem closeGap_spec (hs : t.Sized) {start last hole j fuel : Nat}
    (g : Gap t.tableSize t.home (Function.update t.cells hole none) start last hole j)
    (hfuel : dist t.tableSize start last < dist t.tableSize start j + fuel) :
    ∃ tbl, closeGap fuel t hole j = some { t with table := tbl } ∧
      Probed t.tableSize t.home (cells { t with table := tbl }) ∧
      (content t.tableSize (cells { t with table := tbl })).Perm
        (content t.tableSize (Function.update t.cells hole none)) := by
  induction fuel generalizing t hole j with
  | zero =>
    have := g.j_le
    omega
  | succ fuel ih =>
    have hcell := used_of_ne_hole (t := t) g.hole_ne
    unfold closeGap
    by_cases hu : t.used j
    · have hj : Function.update t.cells hole none j = some ((t.table j).id, (t.table j).value) := by
        rw [hcell]
        exact cells_eq_some.mpr ⟨hu, rfl, rfl⟩
      have hd := g.dist_next (by rw [hj]; simp)
      rw [if_pos hu, hs.step_eq j g.j_lt]
      -- an entry stays when the hole is not between its home and it
      by_cases hstay : stays hole (t.home (t.table j).id) j
      · rw [if_pos hstay]
        exact ih hs (g.stay hj hstay) (by omega)
      · rw [if_neg hstay]
        have hentry : cellOf (t.table j) = some ((t.table j).id, (t.table j).value) := by
          rw [hcell] at hj
          exact hj
        have hcells : Function.update (t.setEntry hole (t.table j)).cells j none
            = Function.update (Function.update (Function.update t.cells hole none) hole
                (some ((t.table j).id, (t.table j).value))) j none := by
          rw [cells_setEntry, hentry, Function.update_idem]
        obtain ⟨tbl, hrun, hprobed, hperm⟩ :=
          ih (t := t.setEntry hole (t.table j)) ⟨hs.pow, hs.mask⟩
            (by rw [hcells]; exact g.move hj hstay)
            (by show dist t.tableSize start last < dist t.tableSize start (next _ j) + fuel; omega)
        refine ⟨tbl, hrun, hprobed, ?_⟩
        rw [hcells] at hperm
        exact hperm.trans (g.content_move hj)
    · have hj : Function.update t.cells hole none j = none := by
        rw [hcell]
        exact cells_eq_none.mpr (by simpa using hu)
      have hcells : (t.setEntry hole { t.table hole with used := false }).cells
          = Function.update t.cells hole none := by
        rw [cells_setEntry]
        rfl
      rw [if_neg hu]
      refine ⟨_, rfl, ?_, ?_⟩
      · show Probed t.tableSize t.home (t.setEntry hole { t.table hole with used := false }).cells
        rw [hcells]
        exact g.finish hj
      · show (content t.tableSize (t.setEntry hole { t.table hole with used := false }).cells).Perm _
        rw [hcells]

/-! ## take and erase -/

theorem Represents.take_absent (h : t.Represents es) (habs : id ∉ es.map Prod.fst) :
    t.take id = some (none, t) := by
  obtain ⟨i, -, hp, hu⟩ := h.probe_absent habs
  simp [IdIndex.take, hp, hu]

/-- **`take` yields the value of a present id and removes only that entry.** -/
theorem Represents.take_present (h : t.Represents es) {es' : List (OrderId × υ)}
    (hes : es.Perm ((id, v) :: es')) :
    ∃ t', t.take id = some (some v, t') ∧ t'.Represents es' := by
  obtain ⟨i, hi, hp, hc⟩ := h.probe_present (hes.mem_iff.mpr List.mem_cons_self)
  have hc' := cells_eq_some.mp hc
  obtain ⟨last, hl, hlast, hrun⟩ := exists_nearest (a := i) (h.exists_unused h.roomy)
  have g := h.probed.openGap hi (by rw [hc]; simp) hl hlast fun m hm hlt => hrun m hm hlt
  rw [← h.step_eq i hi] at g
  have hlt : dist t.tableSize i last < t.tableSize := dist_lt hi hl
  obtain ⟨tbl, hclose, hprobed, hperm⟩ :=
    closeGap_spec h.toSized g (show _ < _ + t.tableSize by omega)
  have hcontent : (content t.tableSize (Function.update t.cells i none)).Perm es' :=
    (((content_update_none hi hc).symm.trans h.perm).trans hes).cons_inv
  have hlen : es.length = es'.length + 1 := hes.length_eq
  have hhalf := h.half
  refine ⟨{ t with table := tbl, count := t.count - 1 }, ?_, ⟨⟨h.pow, h.mask⟩, hprobed,
    hperm.trans hcontent⟩, ?_, ?_⟩
  · simp only [IdIndex.take, hp, hc'.1, if_true, hclose, Option.map_some, hc'.2.2]
  · simp only [h.count, hlen, Nat.add_sub_cancel]
  · show 2 * es'.length ≤ t.tableSize
    omega

theorem Represents.erase_present (h : t.Represents es) {es' : List (OrderId × υ)}
    (hes : es.Perm ((id, v) :: es')) :
    ∃ t', t.erase id = some (true, t') ∧ t'.Represents es' := by
  obtain ⟨t', ht, hr⟩ := h.take_present hes
  exact ⟨t', by simp [IdIndex.erase, ht], hr⟩

theorem Represents.erase_absent (h : t.Represents es) (habs : id ∉ es.map Prod.fst) :
    t.erase id = some (false, t) := by
  simp [IdIndex.erase, h.take_absent habs]

/-! ## Construction and growth -/

section Growth

variable [Inhabited υ]

theorem filed_resizeTable (t : IdIndex υ) {k : Nat} (h4 : 4 ≤ k) (h63 : k ≤ 63) :
    (t.resizeTable (2 ^ k)).Filed [] where
  pow := ⟨k, h4, h63, rfl⟩
  mask := Nat.sub_add_cancel (Nat.two_pow_pos k)
  probed := by
    have hempty : ∀ i, (t.resizeTable (2 ^ k)).cells i = none := fun _ => rfl
    have hs : (t.resizeTable (2 ^ k)).Sized :=
      ⟨⟨k, h4, h63, rfl⟩, Nat.sub_add_cancel (Nat.two_pow_pos k)⟩
    refine ⟨hs.home_lt, fun i _ j _ k v w hv => ?_, fun i _ k v hv => ?_⟩
    all_goals
      rw [hempty] at hv
      simp at hv
  perm := by
    have hempty : (t.resizeTable (2 ^ k)).cells = fun _ => none := rfl
    rw [hempty, content, List.filterMap_none]

/-- **The constructor ends with an empty table for every size that fits.** -/
theorem new_spec {expected : Nat} (he : expected ≤ 2 ^ 62) :
    ∃ t : IdIndex υ, new expected = some t ∧ t.Represents [] := by
  have hstop : decide (2 ^ 63 / 2 < expected) = false := decide_eq_false (by omega)
  obtain ⟨k, h4, h63, hcap⟩ := doubleWhile_spec (fun cap => decide (cap / 2 < expected))
    hstop 65 4 (by omega) (by omega)
  refine ⟨_, by rw [new, show 16 = 2 ^ 4 from rfl, hcap]; rfl, filed_resizeTable _ h4 h63, rfl, ?_⟩
  simp

/-- A constructor that ends was asked for at most `2^62` ids. -/
theorem expected_le_of_new {expected : Nat} {t : IdIndex υ} (h : new expected = some t) :
    expected ≤ 2 ^ 62 := by
  by_contra hbig
  have hpow : ∀ k ≤ 63, decide (2 ^ k / 2 < expected) = true := fun k hk => by
    have : 2 ^ k ≤ 2 ^ 63 := Nat.pow_le_pow_right (by omega) hk
    exact decide_eq_true (by omega)
  have hstuck := (@doubleWhile_stuck (fun cap => decide (cap / 2 < expected)) hpow
    (decide_eq_true (by omega)) 65 4 (by omega)).1
  rw [new, show 16 = 2 ^ 4 from rfl, hstuck] at h
  simp at h

/-- A constructor that ends gives an empty index. -/
theorem represents_of_new {expected : Nat} {t : IdIndex υ} (h : new expected = some t) :
    t.Represents [] := by
  obtain ⟨t', ht', hr⟩ := @new_spec υ _ _ (expected_le_of_new h)
  rw [ht'] at h
  obtain rfl := Option.some.inj h
  exact hr

omit [Inhabited υ] in
/-- **Rehashing files every old entry.** -/
theorem rehash_spec {old : IdIndex υ} :
    ∀ (is : List Nat) (t : IdIndex υ) (es : List (OrderId × υ)), t.Filed es →
      ((es ++ is.filterMap old.cells).map Prod.fst).Nodup →
      es.length + (is.filterMap old.cells).length < t.tableSize →
      ∃ tbl es', rehash old.table is t = some { t with table := tbl } ∧
        Filed { t with table := tbl } es' ∧ es'.Perm (es ++ is.filterMap old.cells) := by
  intro is
  induction is with
  | nil =>
    intro t es h _ _
    exact ⟨t.table, es, rfl, h, by simp⟩
  | cons i is ih =>
    intro t es h hnd hroom
    unfold rehash
    by_cases hu : (old.table i).used
    · have hc : old.cells i = some ((old.table i).id, (old.table i).value) :=
        cells_eq_some.mpr ⟨hu, rfl, rfl⟩
      rw [List.filterMap_cons_some hc] at hnd hroom
      simp only [List.length_cons] at hroom
      have hperm : (es ++ ((old.table i).id, (old.table i).value) :: is.filterMap old.cells).Perm
          ((((old.table i).id, (old.table i).value) :: es) ++ is.filterMap old.cells) :=
        List.perm_middle
      have hnd' := (hperm.map Prod.fst).nodup_iff.mp hnd
      rw [List.cons_append, List.map_cons, List.nodup_cons, List.map_append] at hnd'
      obtain ⟨tbl, hplace, hfiled⟩ := h.place (v := (old.table i).value) (by omega)
        fun hmem => hnd'.1 (List.mem_append_left _ hmem)
      obtain ⟨tbl', es', hrun, hf', hp'⟩ := ih _ _ hfiled
        ((hperm.map Prod.fst).nodup_iff.mp hnd) (by
          show es.length + 1 + _ < t.tableSize
          omega)
      rw [if_pos hu, hplace, List.filterMap_cons_some hc]
      exact ⟨tbl', es', hrun, hf', hp'.trans hperm.symm⟩
    · have hc : old.cells i = none := cells_eq_none.mpr (by simpa [used] using hu)
      rw [List.filterMap_cons_none hc] at hnd hroom ⊢
      rw [if_neg hu]
      exact ih t es h hnd hroom

/-- The ways `grow` can end. -/
inductive Grown (mem : Bool) (t : IdIndex υ) (es : List (OrderId × υ)) :
    Result (IdIndex υ) Unit → Prop
  | ok (t' : IdIndex υ) (hr : t'.Represents es) (hsize : t'.tableSize = t.tableSize * 2)
      (hgrowths : t'.growCount = t.growCount + 1) : Grown mem t es (.ok () t')
  | failed (e : Throw) (t' : IdIndex υ) (hcount : t'.count = t.count)
      (hwhy : 2 ^ 62 < t.tableSize ∨ mem = false) : Grown mem t es (.throws e t')

/-- **Growth doubles the table and keeps its entries.** -/
theorem Represents.grow (h : t.Represents es) (mem : Bool) : Grown mem t es (t.grow mem) := by
  unfold IdIndex.grow
  by_cases hbig : 2 ^ 62 < t.tableSize
  · rw [if_pos hbig]
    exact .failed _ _ rfl (Or.inl hbig)
  · rw [if_neg hbig]
    cases mem with
    | false => exact .failed _ _ rfl (Or.inr rfl)
    | true =>
      obtain ⟨k, h4, h63, hk⟩ := h.pow
      have hk62 : k ≤ 62 := by
        by_contra hgt
        have : k = 63 := by omega
        rw [hk, this] at hbig
        omega
      have hdouble : t.tableSize * 2 = 2 ^ (k + 1) := by rw [hk, Nat.pow_succ]
      have hlen := h.perm.length_eq
      have hhalf := h.half
      have hroomy := h.roomy
      unfold content at hlen
      obtain ⟨tbl, es', hrun, hfiled, hperm⟩ := @rehash_spec _ t (List.range t.tableSize)
        (resizeTable { t with table := fun _ => ⟨0, default, false⟩, tableSize := 0 }
          (t.tableSize * 2)) []
        (by rw [hdouble]; exact filed_resizeTable _ (by omega) (by omega))
        h.probed.nodup_keys (by
          show 0 + _ < t.tableSize * 2
          omega)
      have hes : es'.Perm es := hperm.trans h.perm
      rw [if_pos rfl, hrun]
      refine .ok _ (Represents.of_perm ⟨⟨⟨hfiled.pow, hfiled.mask⟩, hfiled.probed, hfiled.perm⟩,
        ?_, ?_⟩ hes) rfl rfl
      · show t.count = es'.length
        rw [h.count, hes.length_eq]
      · show 2 * es'.length ≤ t.tableSize * 2
        rw [hes.length_eq]
        omega

/-- The ways `insert` can end. -/
inductive Inserted (mem : Bool) (t : IdIndex υ) (es : List (OrderId × υ)) (id : OrderId) (v : υ) :
    Result (IdIndex υ) Unit → Prop
  | ok (t' : IdIndex υ) (hr : t'.Represents ((id, v) :: es))
      (hsize : t'.tableSize
        = if t.tableSize < (t.count + 1) * 2 then t.tableSize * 2 else t.tableSize)
      (hgrowths : t'.growCount
        = if t.tableSize < (t.count + 1) * 2 then t.growCount + 1 else t.growCount) :
      Inserted mem t es id v (.ok () t')
  | failed (e : Throw) (t' : IdIndex υ) (hcount : t'.count = t.count)
      (hfull : t.tableSize < (t.count + 1) * 2) (hwhy : 2 ^ 62 < t.tableSize ∨ mem = false) :
      Inserted mem t es id v (.throws e t')

/-- **`insert` of an absent id adds its entry, or throws because the table cannot grow.** -/
theorem Represents.insert (h : t.Represents es) (mem : Bool) (habs : id ∉ es.map Prod.fst) :
    Inserted mem t es id v (t.insert mem id v) := by
  -- the end of `insert`, on a table with room for one more
  have add : ∀ q : IdIndex υ, q.Represents es → 2 * (es.length + 1) ≤ q.tableSize →
      q.tableSize = (if t.tableSize < (t.count + 1) * 2 then t.tableSize * 2 else t.tableSize) →
      q.growCount = (if t.tableSize < (t.count + 1) * 2 then t.growCount + 1 else t.growCount) →
      ∃ q', q.place id v = some q' ∧
        Inserted mem t es id v (.ok () { q' with count := q'.count + 1 }) := by
    intro q hq hroom hsize hgrowths
    obtain ⟨tbl, hplace, hfiled⟩ := hq.place (v := v) hq.roomy habs
    refine ⟨_, hplace, .ok _ ⟨⟨⟨hfiled.pow, hfiled.mask⟩, hfiled.probed, hfiled.perm⟩, ?_, hroom⟩
      hsize hgrowths⟩
    show q.count + 1 = es.length + 1
    rw [hq.count]
  have hcount := h.count
  have hhalf := h.half
  unfold IdIndex.insert
  by_cases hfull : t.tableSize < (t.count + 1) * 2
  · rw [if_pos hfull]
    have hg := h.grow mem
    generalize t.grow mem = r at hg ⊢
    cases hg with
    | ok t' hr hsize hgrowths =>
      have hroom : 2 * (es.length + 1) ≤ t'.tableSize := by
        obtain ⟨k, h4, -, hk⟩ := h.pow
        have : 2 ^ 4 ≤ t.tableSize := hk ▸ Nat.pow_le_pow_right (by omega) h4
        omega
      obtain ⟨q, hplace, hins⟩ :=
        add t' hr hroom (by rw [if_pos hfull, hsize]) (by rw [if_pos hfull, hgrowths])
      simp only [hplace]
      exact hins
    | failed e t' hc hwhy => exact .failed e t' hc hfull hwhy
  · rw [if_neg hfull]
    obtain ⟨q, hplace, hins⟩ := add t h (by omega) (by rw [if_neg hfull]) (by rw [if_neg hfull])
    simp only [hplace]
    exact hins

end Growth

end Lob.IdIndex
