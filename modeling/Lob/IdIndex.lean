/-
# Lob.IdIndex — order id to value, as an open-addressed hash table.

One flat array of entries, linear probing, at most half full, backward-shift deletion.  A loop of the
source is a walk with as many steps as the table has entries; `none` means that it would go on, and
no operation of a represented table returns it.

`Represents t es` is the refinement: the used entries of `t` are the pairs of `es` in some order, and
every entry is reached from its home without crossing an unused one.  Each operation has one lemma
saying what it does to `es`; callers use these and never look at the table.
-/
import Mathlib.Data.Nat.Bitwise
import Mathlib.Data.List.Perm.Basic
import Lob.Lib.Probing
import Lob.Types

namespace Lob

open Lib.Probing

/-! ## The source's data and operations -/

structure Entry (υ : Type) where
  id : OrderId
  value : υ
  used : Bool

structure IdIndex (υ : Type) where
  table : Nat → Entry υ
  /-- `table.size()`. -/
  tableSize : Nat
  mask : Nat
  /-- log2 of the capacity. -/
  bits : Nat
  count : Nat := 0
  growCount : Nat := 0

namespace IdIndex

variable {υ : Type}

def home (t : IdIndex υ) (id : OrderId) : Nat := (id.toNat ^^^ (id.toNat >>> t.bits)) &&& t.mask

/-- `(i + 1) & mask`. -/
def step (t : IdIndex υ) (i : Nat) : Nat := (i + 1) &&& t.mask

def used (t : IdIndex υ) (i : Nat) : Bool := (t.table i).used

def setEntry (t : IdIndex υ) (i : Nat) (e : Entry υ) : IdIndex υ :=
  { t with table := Function.update t.table i e }

/-- `std::countr_zero` of a power of two. -/
def countrZero (cap : Nat) : Nat := Nat.log2 cap

def resizeTable [Inhabited υ] (t : IdIndex υ) (cap : Nat) : IdIndex υ :=
  { t with
    table := fun _ => ⟨0, default, false⟩
    tableSize := cap
    mask := cap - 1
    bits := countrZero cap }

/-- Room for `expected` ids without growing; `none` when the capacity loop does not stop. -/
def new [Inhabited υ] (expected : Nat) : Option (IdIndex υ) :=
  (doubleWhile (fun cap => decide (cap / 2 < expected)) 65 16).map fun cap =>
    resizeTable ⟨fun _ => ⟨0, default, false⟩, 0, 0, 0, 0, 0⟩ cap

/-- The loop of `find` and of `take`: the first cell from the id's home that is unused or holds it. -/
def probe (t : IdIndex υ) (id : OrderId) : Option Nat :=
  walkUntil (fun i => !t.used i || (t.table i).id == id) t.step t.tableSize (t.home id)

/-- The value under `id`, or nothing. -/
def find (t : IdIndex υ) (id : OrderId) : Option (Option υ) :=
  (t.probe id).map fun i => if t.used i then some (t.table i).value else none

def contains (t : IdIndex υ) (id : OrderId) : Option Bool := (t.find id).map Option.isSome

def place (t : IdIndex υ) (id : OrderId) (value : υ) : Option (IdIndex υ) :=
  (walkUntil (fun i => !t.used i) t.step t.tableSize (t.home id)).map fun i =>
    t.setEntry i ⟨id, value, true⟩

/-- Pull each following entry back into the hole unless that would move it before its home. -/
def closeGap : Nat → IdIndex υ → Nat → Nat → Option (IdIndex υ)
  | 0, _, _, _ => none
  | fuel + 1, t, hole, j =>
    if t.used j then
      if stays hole (t.home (t.table j).id) j then closeGap fuel t hole (t.step j)
      else closeGap fuel (t.setEntry hole (t.table j)) j (t.step j)
    else some (t.setEntry hole { t.table hole with used := false })

/-- Removes `id` and yields its value; nothing if it was absent. -/
def take (t : IdIndex υ) (id : OrderId) : Option (Option υ × IdIndex υ) :=
  match t.probe id with
  | none => none
  | some i =>
    if t.used i then
      (closeGap t.tableSize t i (t.step i)).map fun t' =>
        (some (t.table i).value, { t' with count := t'.count - 1 })
    else some (none, t)

def erase (t : IdIndex υ) (id : OrderId) : Option (Bool × IdIndex υ) :=
  (t.take id).map fun r => (r.1.isSome, r.2)

/-- The loop of `grow` over the old entries. -/
def rehash (old : Nat → Entry υ) : List Nat → IdIndex υ → Option (IdIndex υ)
  | [], t => some t
  | i :: is, t =>
    if (old i).used then
      match t.place (old i).id (old i).value with
      | none => none
      | some t => rehash old is t
    else rehash old is t

def grow [Inhabited υ] (mem : Bool) (t : IdIndex υ) : Result (IdIndex υ) Unit :=
  if 2 ^ 62 < t.tableSize then .throws .lengthError t
  else
    -- the table is swapped out first, so a failed allocation leaves none
    let emptied := { t with table := fun _ => ⟨0, default, false⟩, tableSize := 0 }
    if mem then
      match rehash t.table (List.range t.tableSize) (emptied.resizeTable (t.tableSize * 2)) with
      | none => .undefined
      | some t' => .ok () { t' with growCount := t'.growCount + 1 }
    else .throws .badAlloc emptied

/-- Adds an id the caller knows is absent. -/
def insert [Inhabited υ] (mem : Bool) (t : IdIndex υ) (id : OrderId) (value : υ) :
    Result (IdIndex υ) Unit :=
  match if t.tableSize < (t.count + 1) * 2 then t.grow mem else .ok () t with
  | .ok _ t =>
    match t.place id value with
    | none => .undefined
    | some t => .ok () { t with count := t.count + 1 }
  | .throws e t => .throws e t
  | .undefined => .undefined

/-- The inner loop of `consistent` for a used entry `p`: it ends at `p` rather than at an unused one. -/
def reachable (t : IdIndex υ) (p : Nat) : Bool :=
  walkUntil (fun i => i == p || !t.used i) t.step t.tableSize (t.home (t.table p).id) == some p

/-- Every entry is reachable from its home slot without crossing an unused one, and the count
matches. -/
def consistent (t : IdIndex υ) : Bool :=
  ((List.range t.tableSize).all fun p => !t.used p || t.reachable p)
    && ((List.range t.tableSize).filter t.used).length == t.count

/-! ## Tables that represent a list of entries -/

/-- An entry as the pair it stores, if it is in use. -/
def cellOf (e : Entry υ) : Option (OrderId × υ) := if e.used then some (e.id, e.value) else none

/-- The table as cells that hold a pair or nothing. -/
def cells (t : IdIndex υ) (i : Nat) : Option (OrderId × υ) := cellOf (t.table i)

/-- The sizes a table is built with: a power of two that fits 64 bits. -/
structure Sized (t : IdIndex υ) : Prop where
  pow : ∃ k, 4 ≤ k ∧ k ≤ 63 ∧ t.tableSize = 2 ^ k
  mask : t.mask + 1 = t.tableSize

/-- The used entries of `t` are `es`, each within reach of its home. -/
structure Filed (t : IdIndex υ) (es : List (OrderId × υ)) : Prop extends Sized t where
  probed : Probed t.tableSize t.home t.cells
  perm : (content t.tableSize t.cells).Perm es

/-- `t` stands for the entries `es`: they are filed, counted, and fill at most half of the table. -/
structure Represents (t : IdIndex υ) (es : List (OrderId × υ)) : Prop extends Filed t es where
  count : t.count = es.length
  half : 2 * es.length ≤ t.tableSize

section Facts

variable {t : IdIndex υ} {es : List (OrderId × υ)} {id : OrderId} {v : υ}

theorem Sized.pos (h : t.Sized) : 0 < t.tableSize := by
  obtain ⟨k, -, -, hk⟩ := h.pow
  rw [hk]
  exact Nat.two_pow_pos k

theorem Sized.and_mask (h : t.Sized) (n : Nat) : n &&& t.mask = n % t.tableSize := by
  obtain ⟨k, -, -, hk⟩ := h.pow
  have hm : t.mask = 2 ^ k - 1 := by have := h.mask; omega
  rw [hm, hk, Nat.and_two_pow_sub_one_eq_mod]

theorem Sized.home_lt (h : t.Sized) (id : OrderId) : t.home id < t.tableSize := by
  rw [home, h.and_mask]
  exact Nat.mod_lt _ h.pos

theorem Sized.step_eq (h : t.Sized) : ∀ i < t.tableSize, t.step i = next t.tableSize i := by
  intro i hi
  rw [step, h.and_mask]
  rcases next_cases t.tableSize i with ⟨he, hn⟩ | ⟨hne, hn⟩
  · rw [hn, he, Nat.mod_self]
  · rw [hn, Nat.mod_eq_of_lt (by omega)]

theorem cells_eq_some {i : Nat} :
    t.cells i = some (id, v) ↔ t.used i = true ∧ (t.table i).id = id ∧ (t.table i).value = v := by
  unfold cells cellOf used
  split <;> simp_all

theorem cells_eq_none {i : Nat} : t.cells i = none ↔ t.used i = false := by
  unfold cells cellOf used
  split <;> simp_all

theorem cells_ne_none {i : Nat} : t.cells i ≠ none ↔ t.used i = true := by
  rw [Ne, cells_eq_none, Bool.not_eq_false]

theorem cells_setEntry (i : Nat) (e : Entry υ) :
    (t.setEntry i e).cells = Function.update t.cells i (cellOf e) := by
  funext j
  by_cases hj : j = i
  · rw [hj, Function.update_self]
    simp only [cells, setEntry, Function.update_self]
  · rw [Function.update_of_ne hj]
    simp only [cells, setEntry, Function.update_of_ne hj]

theorem Filed.nodup (h : t.Filed es) : (es.map Prod.fst).Nodup :=
  (h.perm.map _).nodup_iff.mp h.probed.nodup_keys

theorem Represents.of_perm {es' : List (OrderId × υ)} (h : t.Represents es) (hp : es.Perm es') :
    t.Represents es' :=
  ⟨⟨h.toSized, h.probed, h.perm.trans hp⟩, h.count.trans hp.length_eq, hp.length_eq ▸ h.half⟩

theorem Represents.roomy (h : t.Represents es) : es.length < t.tableSize := by
  have := h.half
  have := h.toSized.pos
  omega

theorem Filed.exists_unused (h : t.Filed es) (hroom : es.length < t.tableSize) :
    ∃ i < t.tableSize, t.cells i = none := by
  apply Lib.Probing.exists_unused
  rwa [h.perm.length_eq]

theorem Filed.cell_of_mem (h : t.Filed es) (hmem : (id, v) ∈ es) :
    ∃ i < t.tableSize, t.cells i = some (id, v) :=
  mem_content.mp (h.perm.mem_iff.mpr hmem)

theorem Filed.absent_iff (h : t.Filed es) :
    id ∉ es.map Prod.fst ↔ ∀ i < t.tableSize, ∀ w, t.cells i ≠ some (id, w) := by
  constructor
  · intro hid i hi w hw
    exact hid (List.mem_map.mpr ⟨_, h.perm.mem_iff.mp (mem_content.mpr ⟨i, hi, hw⟩), rfl⟩)
  · intro hall hmem
    obtain ⟨⟨id', w⟩, hw, rfl⟩ := List.mem_map.mp hmem
    obtain ⟨i, hi, hc⟩ := h.cell_of_mem hw
    exact hall i hi w hc

end Facts

/-! ## Lookups -/

section Lookup

variable {t : IdIndex υ} {es : List (OrderId × υ)} {id : OrderId} {v : υ}

/-- **A probe for a present id ends at its cell.** -/
theorem Represents.probe_present (h : t.Represents es) (hmem : (id, v) ∈ es) :
    ∃ i < t.tableSize, t.probe id = some i ∧ t.cells i = some (id, v) := by
  obtain ⟨i, hi, hc⟩ := h.cell_of_mem hmem
  have hc' := cells_eq_some.mp hc
  refine ⟨i, hi, ?_, hc⟩
  refine walkUntil_eq h.step_eq (h.home_lt id) hi (dist_lt (h.home_lt id) hi) (by simp [hc']) ?_
  intro m hm hlt
  obtain ⟨k', w, hw, hne⟩ := h.probed.before_found hi hc hm hlt
  have hw' := cells_eq_some.mp hw
  simp [hw', hne]

/-- **A probe for an absent id ends at an unused cell.** -/
theorem Represents.probe_absent (h : t.Represents es) (habs : id ∉ es.map Prod.fst) :
    ∃ i < t.tableSize, t.probe id = some i ∧ t.used i = false := by
  obtain ⟨i, hi, hc, hbefore⟩ := exists_nearest (a := t.home id) (h.exists_unused h.roomy)
  have hu := cells_eq_none.mp hc
  refine ⟨i, hi, ?_, hu⟩
  refine walkUntil_eq h.step_eq (h.home_lt id) hi (dist_lt (h.home_lt id) hi) (by simp [hu]) ?_
  intro m hm hlt
  have hused := cells_ne_none.mp (hbefore m hm hlt)
  have hid : (t.table m).id ≠ id := fun heq =>
    h.absent_iff.mp habs m hm _ (cells_eq_some.mpr ⟨hused, heq, rfl⟩)
  simp [hused, hid]

theorem Represents.find_present (h : t.Represents es) (hmem : (id, v) ∈ es) :
    t.find id = some (some v) := by
  obtain ⟨i, -, hp, hc⟩ := h.probe_present hmem
  have hc' := cells_eq_some.mp hc
  simp [find, hp, hc']

theorem Represents.find_absent (h : t.Represents es) (habs : id ∉ es.map Prod.fst) :
    t.find id = some none := by
  obtain ⟨i, -, hp, hu⟩ := h.probe_absent habs
  simp [find, hp, hu]

theorem Represents.contains (h : t.Represents es) :
    t.contains id = some (decide (id ∈ es.map Prod.fst)) := by
  by_cases hid : id ∈ es.map Prod.fst
  · obtain ⟨⟨id', v⟩, hv, rfl⟩ := List.mem_map.mp hid
    simp only [IdIndex.contains, h.find_present hv, Option.map_some, Option.isSome_some]
    exact congrArg some (decide_eq_true hid).symm
  · simp only [IdIndex.contains, h.find_absent hid, Option.map_some, Option.isSome_none]
    exact congrArg some (decide_eq_false hid).symm

/-- **`consistent` holds of every represented table.** -/
theorem Represents.consistent (h : t.Represents es) : t.consistent = true := by
  unfold IdIndex.consistent
  rw [Bool.and_eq_true]
  refine ⟨?_, ?_⟩
  · rw [List.all_eq_true]
    intro p hp
    rw [List.mem_range] at hp
    by_cases hu : t.used p
    · have hc : t.cells p = some ((t.table p).id, (t.table p).value) :=
        cells_eq_some.mpr ⟨hu, rfl, rfl⟩
      have hwalk : walkUntil (fun i => i == p || !t.used i) t.step t.tableSize
          (t.home (t.table p).id) = some p := by
        refine walkUntil_eq h.step_eq (h.home_lt _) hp (dist_lt (h.home_lt _) hp) (by simp) ?_
        intro m hm hlt
        have hne : m ≠ p := by rintro rfl; omega
        simp [hne, cells_ne_none.mp (h.probed.reach p hp _ _ hc m hm hlt)]
      simp only [reachable, hwalk, beq_self_eq_true, Bool.or_true]
    · simp [hu]
  · have hlen : ((List.range t.tableSize).filter t.used).length
        = (content t.tableSize t.cells).length := by
      unfold content
      induction List.range t.tableSize with
      | nil => rfl
      | cons i is ih =>
        rw [List.filterMap_cons, List.filter_cons]
        by_cases hu : (t.table i).used <;> simp [cells, cellOf, used, hu, ih]
    rw [hlen, h.perm.length_eq, h.count]
    simp

end Lookup

end IdIndex

end Lob
