/-
# Lob.Lib.Ranked — association lists kept in the order of a strict ranking.

A list of `(key, value)` pairs whose keys strictly follow a ranking `r` is the content of an ordered
map: its head is the best-ranked entry, a key occurs at most once, and two such lists with the same
members are the same list (`Sorted.ext`).  That last fact is the working rule of the module: an
operation is described by its members, and every commutation law follows from the description.

`RankedMap` bundles a list with the proof that it is ranked, so an ordered map whose keys are out of
order cannot be built.
-/
import Mathlib.Data.List.Basic
import Mathlib.Data.List.Pairwise
import Mathlib.Order.Defs.Unbundled

namespace Lob.Lib.Ranked

variable {α β γ : Type*} {r : α → α → Prop}

/-! ## Ranked lists -/

/-- The keys of `m` strictly follow the ranking `r`. -/
def Sorted (r : α → α → Prop) (m : List (α × β)) : Prop :=
  m.Pairwise fun a b => r a.1 b.1

theorem sorted_nil : Sorted r ([] : List (α × β)) := List.Pairwise.nil

theorem sorted_cons {e : α × β} {m : List (α × β)} :
    Sorted r (e :: m) ↔ (∀ e' ∈ m, r e.1 e'.1) ∧ Sorted r m :=
  List.pairwise_cons

theorem Sorted.filter {m : List (α × β)} (h : Sorted r m) (p : α × β → Bool) :
    Sorted r (m.filter p) :=
  List.Pairwise.filter p h

/-- Rewriting the values under the same keys keeps the ranking. -/
theorem Sorted.map {m : List (α × β)} (h : Sorted r m) {f : α × β → α × γ}
    (hf : ∀ e, (f e).1 = e.1) : Sorted r (m.map f) := by
  unfold Sorted
  rw [List.pairwise_map]
  exact h.imp fun hab => by rw [hf, hf]; exact hab

/-- The head of a ranked list beats every other key. -/
theorem Sorted.head_best {e : α × β} {m : List (α × β)} (h : Sorted r (e :: m)) {e' : α × β}
    (he' : e' ∈ e :: m) : e' = e ∨ r e.1 e'.1 := by
  rcases List.mem_cons.mp he' with rfl | he'
  · exact Or.inl rfl
  · exact Or.inr ((sorted_cons.mp h).1 _ he')

section Order

variable [IsStrictTotalOrder α r]

/-- **Extensionality.** Two ranked lists with the same members are equal. -/
theorem Sorted.ext {m m' : List (α × β)} (h : Sorted r m) (h' : Sorted r m')
    (hmem : ∀ e, e ∈ m ↔ e ∈ m') : m = m' := by
  have hirr : ∀ e : α × β, ¬ r e.1 e.1 := fun e => irrefl_of r e.1
  have hnd : ∀ {n : List (α × β)}, Sorted r n → n.Nodup := by
    intro n hn
    refine List.Pairwise.imp ?_ hn
    rintro a _ hab rfl
    exact hirr a hab
  have hperm : m.Perm m' := (List.perm_ext_iff_of_nodup (hnd h) (hnd h')).mpr hmem
  unfold Sorted at h h'
  refine hperm.eq_of_pairwise ?_ h h'
  intro a b _ _ hab hba
  exact absurd (trans_of r hab hba) (hirr a)

end Order

/-! ## Operations on ranked lists -/

variable [DecidableEq α]

/-- Add `(k, v)` at its place, or change nothing when `k` is present. -/
def tryEmplace (r : α → α → Prop) [DecidableRel r] (k : α) (v : β) : List (α × β) → List (α × β)
  | [] => [(k, v)]
  | e :: m =>
    if e.1 = k then e :: m
    else if r k e.1 then (k, v) :: e :: m
    else e :: tryEmplace r k v m

/-- Apply `f` to the value under `k`. -/
def adjust (k : α) (f : β → β) (m : List (α × β)) : List (α × β) :=
  m.map fun e => if e.1 = k then (e.1, f e.2) else e

/-- Drop the entry under `k`. -/
def erase (k : α) (m : List (α × β)) : List (α × β) :=
  m.filter fun e => decide (e.1 ≠ k)

theorem adjust_fst (k : α) (f : β → β) (e : α × β) :
    (if e.1 = k then (e.1, f e.2) else e).1 = e.1 := by
  split <;> rfl

theorem Sorted.adjust {m : List (α × β)} (h : Sorted r m) (k : α) (f : β → β) :
    Sorted r (adjust k f m) :=
  h.map (adjust_fst k f)

theorem Sorted.erase {m : List (α × β)} (h : Sorted r m) (k : α) : Sorted r (erase k m) :=
  h.filter _

@[simp] theorem mem_erase {k : α} {m : List (α × β)} {e : α × β} :
    e ∈ erase k m ↔ e ∈ m ∧ e.1 ≠ k := by
  simp [erase]

theorem mem_adjust {k : α} {f : β → β} {m : List (α × β)} {e : α × β} :
    e ∈ adjust k f m ↔ (e ∈ m ∧ e.1 ≠ k) ∨ ∃ v, (k, v) ∈ m ∧ e = (k, f v) := by
  unfold Ranked.adjust
  rw [List.mem_map]
  constructor
  · rintro ⟨a, ha, rfl⟩
    by_cases hk : a.1 = k
    · right
      subst hk
      exact ⟨a.2, ha, by simp⟩
    · left
      simp [hk, ha]
  · rintro (⟨he, hne⟩ | ⟨v, hv, rfl⟩)
    · exact ⟨e, he, by simp [hne]⟩
    · exact ⟨(k, v), hv, by simp⟩

section Emplace

variable [DecidableRel r]

theorem fst_mem_tryEmplace {k : α} {v : β} {m : List (α × β)} {e : α × β}
    (he : e ∈ tryEmplace r k v m) : e ∈ m ∨ e = (k, v) := by
  induction m with
  | nil => simpa [tryEmplace] using he
  | cons a m ih =>
    simp only [tryEmplace] at he
    split at he
    · exact Or.inl he
    · split at he
      · rcases List.mem_cons.mp he with rfl | he
        · exact Or.inr rfl
        · exact Or.inl he
      · rcases List.mem_cons.mp he with rfl | he
        · exact Or.inl (by simp)
        · rcases ih he with h | h
          · exact Or.inl (List.mem_cons_of_mem _ h)
          · exact Or.inr h

/-- A present key is left alone. -/
theorem tryEmplace_of_mem [IsStrictTotalOrder α r] {k : α} {v w : β} {m : List (α × β)}
    (h : Sorted r m) (hk : (k, w) ∈ m) : tryEmplace r k v m = m := by
  induction m with
  | nil => simp at hk
  | cons a m ih =>
    obtain ⟨hhead, htail⟩ := sorted_cons.mp h
    simp only [tryEmplace]
    by_cases hak : a.1 = k
    · rw [if_pos hak]
    · rw [if_neg hak]
      have hkm : (k, w) ∈ m := by
        rcases List.mem_cons.mp hk with rfl | hkm
        · exact absurd rfl hak
        · exact hkm
      rw [if_neg fun hlt => irrefl_of r k (trans_of r hlt (hhead _ hkm)), ih htail hkm]

/-- An absent key is added, and nothing else changes. -/
theorem mem_tryEmplace_of_not_mem {k : α} {v : β} {m : List (α × β)}
    (hk : ∀ w, (k, w) ∉ m) {e : α × β} :
    e ∈ tryEmplace r k v m ↔ e = (k, v) ∨ e ∈ m := by
  induction m with
  | nil => simp [tryEmplace]
  | cons a m ih =>
    have hak : a.1 ≠ k := fun h => hk a.2 (by rw [← h]; simp)
    simp only [tryEmplace, if_neg hak]
    split
    · simp
    · rw [List.mem_cons, ih fun w hw => hk w (List.mem_cons_of_mem _ hw), List.mem_cons]
      tauto

theorem length_tryEmplace_of_not_mem {k : α} {v : β} {m : List (α × β)}
    (hk : ∀ w, (k, w) ∉ m) : (tryEmplace r k v m).length = m.length + 1 := by
  induction m with
  | nil => rfl
  | cons a m ih =>
    have hak : a.1 ≠ k := fun h => hk a.2 (by rw [← h]; simp)
    simp only [tryEmplace, if_neg hak]
    split
    · simp
    · rw [List.length_cons, ih fun w hw => hk w (List.mem_cons_of_mem _ hw), List.length_cons]

theorem Sorted.tryEmplace [IsStrictTotalOrder α r] {k : α} {v : β} {m : List (α × β)}
    (h : Sorted r m) : Sorted r (tryEmplace r k v m) := by
  induction m with
  | nil => exact List.pairwise_singleton _ _
  | cons a m ih =>
    obtain ⟨hhead, htail⟩ := sorted_cons.mp h
    simp only [Ranked.tryEmplace]
    by_cases hak : a.1 = k
    · rwa [if_pos hak]
    · rw [if_neg hak]
      by_cases hlt : r k a.1
      · rw [if_pos hlt]
        refine sorted_cons.mpr ⟨?_, h⟩
        intro e he
        rcases List.mem_cons.mp he with rfl | he
        · exact hlt
        · exact trans_of r hlt (hhead _ he)
      · rw [if_neg hlt]
        refine sorted_cons.mpr ⟨?_, ih htail⟩
        intro e he
        rcases fst_mem_tryEmplace he with he | rfl
        · exact hhead _ he
        · rcases trichotomous_of r a.1 k with h1 | h1 | h1
          · exact h1
          · exact absurd h1 hak
          · exact absurd h1 hlt

/-- Adding an absent key commutes with rewriting the values. -/
theorem map_tryEmplace {k : α} {v : β} {m : List (α × β)} (g : α × β → α × γ)
    (hg : ∀ e, (g e).1 = e.1) :
    (tryEmplace r k v m).map g = tryEmplace r k (g (k, v)).2 (m.map g) := by
  have hkv : g (k, v) = (k, (g (k, v)).2) := Prod.ext (hg _) rfl
  induction m with
  | nil => simp only [tryEmplace, List.map_cons, List.map_nil]; rw [← hkv]
  | cons a m ih =>
    simp only [tryEmplace, List.map_cons, hg]
    split
    · rfl
    · split
      · rw [List.map_cons, List.map_cons, ← hkv]
      · rw [List.map_cons, ih]

end Emplace

/-- Around a split at `k`, `adjust` rewrites that entry only. -/
theorem adjust_split [IsStrictTotalOrder α r] {k : α} {v : β} {f : β → β} {m₁ m₂ : List (α × β)}
    (h : Sorted r (m₁ ++ (k, v) :: m₂)) :
    adjust k f (m₁ ++ (k, v) :: m₂) = m₁ ++ (k, f v) :: m₂ := by
  have hne : ∀ e ∈ m₁ ++ m₂, e.1 ≠ k := by
    intro e he heq
    rw [Sorted, List.pairwise_append, List.pairwise_cons] at h
    obtain ⟨-, ⟨hafter, -⟩, hbefore⟩ := h
    rcases List.mem_append.mp he with he | he
    · exact irrefl_of r k (heq ▸ hbefore e he (k, v) (by simp))
    · exact irrefl_of r k (heq ▸ hafter e he)
  have hid : ∀ n : List (α × β), (∀ e ∈ n, e.1 ≠ k) → adjust k f n = n := by
    intro n hn
    unfold adjust
    conv_rhs => rw [← List.map_id n]
    exact List.map_congr_left fun e he => by simp [hn e he]
  unfold adjust at hid ⊢
  rw [List.map_append, List.map_cons, hid m₁ fun e he => hne e (by simp [he]),
    hid m₂ fun e he => hne e (by simp [he])]
  simp

/-- Around a split at `k`, `erase` drops that entry only. -/
theorem erase_split [IsStrictTotalOrder α r] {k : α} {v : β} {m₁ m₂ : List (α × β)}
    (h : Sorted r (m₁ ++ (k, v) :: m₂)) :
    erase k (m₁ ++ (k, v) :: m₂) = m₁ ++ m₂ := by
  refine (h.erase k).ext ?_ ?_
  · exact h.sublist (by simp)
  · intro e
    rw [Sorted, List.pairwise_append, List.pairwise_cons] at h
    obtain ⟨-, ⟨hafter, -⟩, hbefore⟩ := h
    simp only [mem_erase, List.mem_append, List.mem_cons]
    constructor
    · rintro ⟨he | rfl | he, hne⟩
      · exact Or.inl he
      · exact absurd rfl hne
      · exact Or.inr he
    · rintro (he | he)
      · exact ⟨Or.inl he, fun heq => irrefl_of r k (heq ▸ hbefore e he (k, v) (by simp))⟩
      · exact ⟨Or.inr (Or.inr he), fun heq => irrefl_of r k (heq ▸ hafter e he)⟩

/-! ## Lookup -/

theorem Sorted.lookup_eq_some [IsStrictTotalOrder α r] {m : List (α × β)} (h : Sorted r m)
    {k : α} {v : β} : m.lookup k = some v ↔ (k, v) ∈ m := by
  rw [List.lookup_eq_some_iff]
  constructor
  · rintro ⟨m₁, m₂, rfl, -⟩
    simp
  · intro hmem
    obtain ⟨m₁, m₂, rfl⟩ := List.append_of_mem hmem
    refine ⟨m₁, m₂, rfl, ?_⟩
    intro e he
    rw [Sorted, List.pairwise_append] at h
    have hlt := h.2.2 e he (k, v) (by simp)
    simp only [bne_iff_ne]
    intro heq
    exact irrefl_of r k (heq ▸ hlt)

theorem lookup_eq_none {m : List (α × β)} {k : α} :
    m.lookup k = none ↔ ∀ v, (k, v) ∉ m := by
  rw [List.lookup_eq_none_iff]
  constructor
  · intro h v hv
    simpa using h _ hv
  · rintro h ⟨a, b⟩ he
    simp only [bne_iff_ne]
    rintro rfl
    exact h b he

theorem lookup_isSome {m : List (α × β)} {k : α} :
    (m.lookup k).isSome ↔ ∃ v, (k, v) ∈ m := by
  rw [← not_iff_not, Bool.not_eq_true, Option.isSome_eq_false_iff, Option.isNone_iff_eq_none,
    lookup_eq_none]
  push Not
  rfl

section LookupOps

variable [IsStrictTotalOrder α r] {m : List (α × β)}

/-- Two ranked lists agree on a key when they hold the same entries under it. -/
theorem lookup_congr {m' : List (α × β)} (h : Sorted r m) (h' : Sorted r m') {a : α}
    (heq : ∀ v, (a, v) ∈ m ↔ (a, v) ∈ m') : m.lookup a = m'.lookup a := by
  apply Option.ext
  intro v
  rw [h.lookup_eq_some, h'.lookup_eq_some, heq]

theorem Sorted.lookup_adjust (h : Sorted r m) (k : α) (f : β → β) (a : α) :
    (Ranked.adjust k f m).lookup a = if a = k then (m.lookup k).map f else m.lookup a := by
  split
  · rename_i hak
    subst hak
    apply Option.ext
    intro v
    simp only [(h.adjust a f).lookup_eq_some, mem_adjust, Option.map_eq_some_iff,
      h.lookup_eq_some]
    constructor
    · rintro (⟨-, hne⟩ | ⟨w, hw, heq⟩)
      · exact absurd rfl hne
      · exact ⟨w, hw, (congrArg Prod.snd heq).symm⟩
    · rintro ⟨w, hw, rfl⟩
      exact Or.inr ⟨w, hw, rfl⟩
  · rename_i hak
    refine lookup_congr (h.adjust k f) h fun v => ?_
    rw [mem_adjust]
    constructor
    · rintro (⟨hv, -⟩ | ⟨w, -, heq⟩)
      · exact hv
      · exact absurd (congrArg Prod.fst heq) hak
    · exact fun hv => Or.inl ⟨hv, hak⟩

theorem Sorted.lookup_erase (h : Sorted r m) (k a : α) :
    (Ranked.erase k m).lookup a = if a = k then none else m.lookup a := by
  split
  · rename_i hak
    subst hak
    exact lookup_eq_none.mpr fun v hv => (mem_erase.mp hv).2 rfl
  · rename_i hak
    refine lookup_congr (h.erase k) h fun v => ?_
    simp [hak]

theorem Sorted.lookup_filter (h : Sorted r m) (p : α → Bool) (a : α) :
    (m.filter fun e => p e.1).lookup a = if p a then m.lookup a else none := by
  split
  · rename_i hp
    exact lookup_congr (h.filter _) h fun v => by simp [hp]
  · rename_i hp
    exact lookup_eq_none.mpr fun v hv => hp (List.mem_filter.mp hv).2

theorem Sorted.lookup_tryEmplace [DecidableRel r] (h : Sorted r m) (k : α) (v : β) (a : α) :
    (Ranked.tryEmplace r k v m).lookup a = if a = k then some ((m.lookup k).getD v) else m.lookup a := by
  cases hk : m.lookup k with
  | some w =>
    rw [tryEmplace_of_mem h (h.lookup_eq_some.mp hk)]
    split
    · rename_i hak
      rw [hak, hk, Option.getD_some]
    · rfl
  | none =>
    have hmem := fun e => mem_tryEmplace_of_not_mem (r := r) (v := v) (lookup_eq_none.mp hk) (e := e)
    split
    · rename_i hak
      subst hak
      exact h.tryEmplace.lookup_eq_some.mpr ((hmem _).mpr (Or.inl rfl))
    · rename_i hak
      exact lookup_congr h.tryEmplace h fun w => by simp [hmem, hak]

/-! ## Filters on keys -/

theorem filter_adjust (k : α) (f : β → β) (p : α → Bool) (m : List (α × β)) :
    (adjust k f m).filter (fun e => p e.1) = adjust k f (m.filter fun e => p e.1) := by
  unfold adjust
  rw [List.filter_map]
  congr 2
  funext e
  simp only [Function.comp_apply, adjust_fst]

theorem filter_erase (k : α) (p : α → Bool) (m : List (α × β)) :
    (erase k m).filter (fun e => p e.1) = erase k (m.filter fun e => p e.1) := by
  unfold erase
  rw [List.filter_filter, List.filter_filter]
  congr 1
  funext e
  exact Bool.and_comm _ _

theorem Sorted.filter_tryEmplace [DecidableRel r] (h : Sorted r m) (k : α) (v : β)
    (p : α → Bool) :
    (Ranked.tryEmplace r k v m).filter (fun e => p e.1) =
      if p k then Ranked.tryEmplace r k v (m.filter fun e => p e.1) else m.filter fun e => p e.1 := by
  cases hk : m.lookup k with
  | some w =>
    have hm := h.lookup_eq_some.mp hk
    rw [tryEmplace_of_mem h hm]
    split
    · rename_i hp
      rw [tryEmplace_of_mem (h.filter _) (List.mem_filter.mpr ⟨hm, hp⟩)]
    · rfl
  | none =>
    have hm := lookup_eq_none.mp hk
    split
    · rename_i hp
      refine (h.tryEmplace.filter _).ext (h.filter _).tryEmplace fun e => ?_
      rw [mem_tryEmplace_of_not_mem fun w hw => hm w (List.mem_filter.mp hw).1, List.mem_filter,
        mem_tryEmplace_of_not_mem hm, List.mem_filter]
      constructor
      · rintro ⟨rfl | he, hpe⟩
        · exact Or.inl rfl
        · exact Or.inr ⟨he, hpe⟩
      · rintro (rfl | ⟨he, hpe⟩)
        · exact ⟨Or.inl rfl, hp⟩
        · exact ⟨Or.inr he, hpe⟩
    · rename_i hp
      refine (h.tryEmplace.filter _).ext (h.filter _) fun e => ?_
      rw [List.mem_filter, mem_tryEmplace_of_not_mem hm, List.mem_filter]
      constructor
      · rintro ⟨rfl | he, hpe⟩
        · exact absurd hpe hp
        · exact ⟨he, hpe⟩
      · exact fun he => ⟨Or.inr he.1, he.2⟩

end LookupOps

/-! ## The bundled map -/

/-- An ordered map: entries in strict ranking order. -/
structure RankedMap (r : α → α → Prop) (β : Type*) where
  entries : List (α × β)
  sorted : Sorted r entries

namespace RankedMap

/-- The map with no entry. -/
def empty (r : α → α → Prop) (β : Type*) : RankedMap r β := ⟨[], sorted_nil⟩

/-- The value under `k`. -/
def find (m : RankedMap r β) (k : α) : Option β := m.entries.lookup k

/-- The best-ranked entry. -/
def begin (m : RankedMap r β) : Option (α × β) := m.entries.head?

/-- Add `(k, v)` unless `k` is present. -/
def tryEmplace [DecidableRel r] [IsStrictTotalOrder α r] (m : RankedMap r β) (k : α) (v : β) :
    RankedMap r β :=
  ⟨Ranked.tryEmplace r k v m.entries, m.sorted.tryEmplace⟩

/-- Overwrite the value under a present `k`. -/
def set (m : RankedMap r β) (k : α) (v : β) : RankedMap r β :=
  ⟨Ranked.adjust k (fun _ => v) m.entries, m.sorted.adjust k _⟩

/-- Drop the entry under `k`. -/
def erase (m : RankedMap r β) (k : α) : RankedMap r β :=
  ⟨Ranked.erase k m.entries, m.sorted.erase k⟩

section

variable [IsStrictTotalOrder α r] (m : RankedMap r β) (k a : α) (v : β)

@[simp] theorem isSome_find_set : ((m.set k v).find a).isSome = (m.find a).isSome := by
  show ((Ranked.adjust k (fun _ => v) m.entries).lookup a).isSome = _
  rw [m.sorted.lookup_adjust]
  split
  · rename_i hak
    rw [hak, Option.isSome_map, find]
  · rfl

@[simp] theorem isSome_find_erase :
    ((m.erase k).find a).isSome = (decide (a ≠ k) && (m.find a).isSome) := by
  show ((Ranked.erase k m.entries).lookup a).isSome = _
  rw [m.sorted.lookup_erase]
  by_cases hak : a = k <;> simp [hak, find]

@[simp] theorem isSome_find_tryEmplace [DecidableRel r] :
    ((m.tryEmplace k v).find a).isSome = (decide (a = k) || (m.find a).isSome) := by
  show ((Ranked.tryEmplace r k v m.entries).lookup a).isSome = _
  rw [m.sorted.lookup_tryEmplace]
  by_cases hak : a = k <;> simp [hak, find]

end

omit [DecidableEq α] in
@[ext] theorem ext {m m' : RankedMap r β} (h : m.entries = m'.entries) : m = m' := by
  cases m; cases m'; cases h; rfl

end RankedMap

end Lob.Lib.Ranked
