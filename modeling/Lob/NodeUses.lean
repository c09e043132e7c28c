/-
# Lob.NodeUses — the nodes of the two fallback maps.

A level outside the window lives in a map node.  The uses of a history say which nodes were allocated
and not freed since (`nodesOf`); between uses these are exactly the keys of the two maps, so a node is
never freed twice and never allocated for a key that has one.  A level is opened before its order gets
a slot, so at that moment there may be as many nodes as orders will rest, and never more.
-/
import Lob.Provision

namespace Lob

open Lib.Machine

/-! ## Reading a history -/

/-- The keys whose node was allocated and not freed since. -/
def nodesOf : List Use → List (Side × Price)
  | [] => []
  | .nodeNew s price :: past => (s, price) :: nodesOf past
  | .nodeFree s price :: past => (nodesOf past).erase (s, price)
  | _ :: past => nodesOf past

/-- A map allocates or frees a node. -/
def Use.isNode : Use → Bool
  | nodeNew _ _ | nodeFree _ _ => true
  | _ => false

/-- A key is given a node when it has none, and while fewer than `n` others have; it loses one it has. -/
def Use.NodeFits (n : Nat) (past : List Use) : Use → Prop
  | nodeNew s price => (s, price) ∉ nodesOf past ∧ (nodesOf past).length < n
  | nodeFree s price => (s, price) ∈ nodesOf past
  | _ => True

section Histories

variable {past us : List Use} {u : Use} {n : Nat}

theorem nodesOf_cons (hu : u.isNode = false) : nodesOf (u :: past) = nodesOf past := by
  cases u <;> first | rfl | cases hu

theorem nodeFits_of_not_node (hu : u.isNode = false) : u.NodeFits n past := by
  cases u <;> trivial

/-- Uses without nodes among them. -/
def Nodeless (us : List Use) : Prop := us.filter Use.isNode = []

theorem nodeless_append {us' : List Use} : Nodeless (us ++ us') ↔ Nodeless us ∧ Nodeless us' := by
  unfold Nodeless
  rw [List.filter_append, List.append_eq_nil_iff]

theorem nodeless_cons : Nodeless (u :: us) ↔ u.isNode = false ∧ Nodeless us := by
  unfold Nodeless
  cases hu : u.isNode <;> simp [hu]

theorem nodeless_of_forall (h : ∀ u ∈ us, u.isNode = false) : Nodeless us :=
  List.filter_eq_nil_iff.mpr fun u hu => by simp [h u hu]

theorem Nodeless.nodesOf (h : Nodeless us) : nodesOf (us.reverse ++ past) = nodesOf past := by
  induction us generalizing past with
  | nil => rfl
  | cons u us ih =>
    obtain ⟨hu, hus⟩ := nodeless_cons.mp h
    rw [List.reverse_cons, List.append_assoc]
    exact (ih hus).trans (nodesOf_cons hu)

theorem Nodeless.throughout (h : Nodeless us) (hpast : Throughout (Use.NodeFits n) past) :
    Throughout (Use.NodeFits n) (us.reverse ++ past) := by
  induction us generalizing past with
  | nil => exact hpast
  | cons u us ih =>
    obtain ⟨hu, hus⟩ := nodeless_cons.mp h
    have hfirst : Throughout (Use.NodeFits n) (u :: past) := ⟨nodeFits_of_not_node hu, hpast⟩
    rw [List.reverse_cons, List.append_assoc]
    exact ih hus hfirst

end Histories

namespace OrderBook

/-! ## Operations without nodes -/

section Emitted

variable (b : OrderBook) (s : Side) (price : Price) (level : LevelRef) (slot : SlotIndex)

theorem nodeless_bestUses {isBid : Bool} (l : PriceLadder isBid) : Nodeless l.bestUses := by
  unfold PriceLadder.bestUses
  split <;> rfl

theorem nodeless_findUses {isBid : Bool} (l : PriceLadder isBid) : Nodeless (l.findUses price) := by
  unfold PriceLadder.findUses
  split <;> rfl

theorem nodeless_map_window (size : Nat) (is : List Nat) : Nodeless (is.map (.window size)) := by
  refine nodeless_of_forall fun u hu => ?_
  obtain ⟨i, -, rfl⟩ := List.mem_map.mp hu
  rfl

theorem nodeless_detachUses : Nodeless (b.detachUses s price level slot) := by
  unfold detachUses unlinkUses
  simp only
  split <;> split <;> rfl

theorem nodeless_dropUses : Nodeless (b.dropUses s price level slot) := by
  unfold dropUses
  refine nodeless_append.mpr ⟨rfl, ?_⟩
  split
  · rfl
  · exact nodeless_detachUses _ _ _ _ _

theorem nodeless_appendUses : Nodeless (b.appendUses s level slot) := by
  unfold appendUses
  simp only
  split <;> rfl

theorem nodeless_visitUses (m : Matching) : Nodeless (m.visitUses price level slot) := by
  unfold Matching.visitUses
  refine nodeless_cons.mpr ⟨rfl, ?_⟩
  split
  · split
    · rfl
    · exact nodeless_cons.mpr ⟨rfl, nodeless_dropUses _ _ _ _ _⟩
  · refine nodeless_append.mpr ⟨rfl, ?_⟩
    split
    · exact nodeless_dropUses _ _ _ _ _
    · rfl

theorem nodeless_walkUses (pool : OrderSlots) (fuel : Nat) (i : SlotIndex) :
    Nodeless (walkUses pool fuel i) := by
  induction fuel generalizing i with
  | zero =>
    unfold walkUses
    split <;> rfl
  | succ fuel ih =>
    unfold walkUses
    split
    · rfl
    · exact nodeless_cons.mpr ⟨rfl, ih _⟩

theorem nodeless_checkSideUses : Nodeless (b.checkSideUses s) := by
  unfold checkSideUses
  refine nodeless_append.mpr ⟨nodeless_append.mpr ⟨nodeless_append.mpr
    ⟨nodeless_map_window _ _, nodeless_bestUses _⟩, ?_⟩, ?_⟩
  · split
    · exact nodeless_map_window _ _
    · rfl
  · unfold Nodeless
    rw [List.filter_flatMap]
    exact List.flatMap_eq_nil_iff.mpr fun e _ => nodeless_walkUses _ _ _

theorem nodeless_checkUses : Nodeless b.checkUses := by
  unfold checkUses
  refine nodeless_append.mpr ⟨nodeless_append.mpr ⟨nodeless_append.mpr ⟨?_, ?_⟩, ?_⟩, ?_⟩
  · exact nodeless_checkSideUses b .buy
  · exact nodeless_checkSideUses b .sell
  · exact nodeless_bestUses _
  · exact nodeless_bestUses _

end Emitted

/-! ## The keys of the maps -/

/-- The fallback map of the side has the price as a key. -/
def hasNode (b : OrderBook) (s : Side) (price : Price) : Bool := ((b.ladder s).overflow.find price).isSome

/-- The maps have the same keys. -/
def SameKeys (b b' : OrderBook) : Prop := ∀ s price, b'.hasNode s price = b.hasNode s price

section Keys

variable {b b' b'' : OrderBook} {m : Matching} {s : Side} {level : LevelRef} {slot : SlotIndex}
  {price : Price}

theorem SameKeys.refl (b : OrderBook) : SameKeys b b := fun _ _ => rfl

theorem SameKeys.trans (h : SameKeys b b') (h' : SameKeys b' b'') : SameKeys b b'' :=
  fun s price => (h' s price).trans (h s price)

theorem sameKeys_of_ladder (h : ∀ s, b'.ladder s = b.ladder s) : SameKeys b b' := fun s price => by
  rw [hasNode, hasNode, h]

/-- Writing a level keeps the keys. -/
theorem sameKeys_store (hladder : ∀ t, b'.ladder t = b.ladder t) (ref : LevelRef) (l : PriceLevel) :
    SameKeys b (b'.setLadder s ((b.ladder s).store ref l)) := by
  intro t price
  rcases Side.eq_or_eq_opposite s t with rfl | rfl
  · rw [hasNode, ladder_setLadder]
    cases ref with
    | window i => rfl
    | overflow p => exact Lib.Ranked.RankedMap.isSome_find_set _ _ _ _
  · rw [hasNode, ladder_setLadder_opposite, hladder]
    rfl

theorem sameKeys_detachAt (b : OrderBook) (s : Side) (level : LevelRef) (slot : SlotIndex) :
    SameKeys b (b.detachAt s level slot) :=
  sameKeys_store (fun t => by cases t <;> rfl) _ _

theorem sameKeys_appendAt (b : OrderBook) (s : Side) (level : LevelRef) (slot : SlotIndex) :
    SameKeys b (b.appendAt s level slot) :=
  sameKeys_store (fun t => by cases t <;> rfl) _ _

theorem sameKeys_fill (m : Matching) (price : Price) (level : LevelRef) (slot : SlotIndex) :
    SameKeys m.book (m.fill price level slot).book :=
  sameKeys_store (fun t => by cases t <;> rfl) _ _

/-- **Only closing a level frees a node**: no edit within one changes the keys. -/
theorem sameKeys_rule : EditRule SameKeys where
  refl := .refl
  trans := .trans
  take _ := sameKeys_of_ladder fun t => by cases t <;> rfl
  detachAt := sameKeys_detachAt
  fill := sameKeys_fill

theorem sameKeys_placeFirst (b : OrderBook) (s : Side) (price : Price) :
    SameKeys b (b.placeFirst s price) := by
  intro t q
  unfold placeFirst
  split
  · rfl
  · cases t <;> rfl

end Keys

/-! ## Where the nodes stand -/

/-- The nodes of the history are the keys of the maps, and no more than `n` were ever in use. -/
structure Housed (n : Nat) (b : OrderBook) (past : List Use) : Prop where
  fits : Throughout (Use.NodeFits n) past
  nodup : (nodesOf past).Nodup
  mem : ∀ s price, (s, price) ∈ nodesOf past ↔ b.hasNode s price = true

section Housed

variable {n : Nat} {b b' : OrderBook} {past us : List Use} {m m' : Matching} {s : Side}
  {price : Price} {limit : Option Price} {Q : Layout} {free : List SlotIndex} {mem : Memory}
  {order : Order} {incoming : Order}

theorem Housed.sameKeys (h : Housed n b past) (hkeys : SameKeys b b') : Housed n b' past :=
  ⟨h.fits, h.nodup, fun s price => by rw [hkeys]; exact h.mem s price⟩

theorem Housed.nodeless (h : Housed n b past) (hus : Nodeless us) (hkeys : SameKeys b b') :
    Housed n b' (us.reverse ++ past) where
  fits := hus.throughout h.fits
  nodup := by
    rw [hus.nodesOf]
    exact h.nodup
  mem s price := by
    rw [hus.nodesOf, hkeys]
    exact h.mem s price

/-- **Closing a level** frees its node if it has one. -/
theorem Housed.close (h : Housed n b past) (hclose : b.closeAt s price = some b') :
    Housed n b' ((b.closeUses s price).reverse ++ past) := by
  obtain ⟨l, hl, rfl⟩ := Option.map_eq_some_iff.mp hclose
  unfold PriceLadder.closed at hl
  by_cases hin : (b.ladder s).inWindow price = true
  · -- a level of the array has no node
    have hoverflow : l.overflow = (b.ladder s).overflow := by
      rw [if_neg (by simp [hin])] at hl
      simp only at hl
      split at hl
      · split at hl
        · simp at hl
        · rw [← Option.some.inj hl]
      · rw [← Option.some.inj hl]
    have hkeys : SameKeys b (b.setLadder s l) := by
      intro t q
      rcases Side.eq_or_eq_opposite s t with rfl | rfl
      · rw [hasNode, ladder_setLadder, hoverflow]
        rfl
      · rw [hasNode, ladder_setLadder_opposite]
        rfl
    refine h.nodeless ?_ hkeys
    unfold OrderBook.closeUses
    simp only [hin, if_true]
    refine nodeless_cons.mpr ⟨rfl, nodeless_cons.mpr ⟨rfl, ?_⟩⟩
    split
    · exact nodeless_cons.mpr ⟨rfl, nodeless_map_window _ _⟩
    · rfl
  · rw [if_pos (by simpa using hin)] at hl
    obtain rfl := Option.some.inj hl
    have herased : ∀ t q, (b.setLadder s { b.ladder s with
        overflow := (b.ladder s).overflow.erase price }).hasNode t q
        = (decide ((t, q) ≠ (s, price)) && b.hasNode t q) := by
      intro t q
      rcases Side.eq_or_eq_opposite s t with rfl | rfl
      · rw [hasNode, ladder_setLadder]
        simp [hasNode]
      · rw [hasNode, ladder_setLadder_opposite]
        simp [hasNode, s.opposite_ne]
    have huses : b.closeUses s price
        = .closed b s price :: if b.hasNode s price then [.nodeFree s price] else [] := by
      simp only [OrderBook.closeUses, hin, hasNode]
      rfl
    rw [huses]
    by_cases hnode : b.hasNode s price = true
    · have hkey : (s, price) ∈ nodesOf past := (h.mem s price).mpr hnode
      rw [if_pos hnode]
      refine ⟨⟨hkey, trivial, h.fits⟩, h.nodup.erase _, fun t q => ?_⟩
      show (t, q) ∈ (nodesOf past).erase (s, price) ↔ _
      rw [h.nodup.mem_erase_iff, herased, h.mem, Bool.and_eq_true, decide_eq_true_eq]
    · rw [if_neg hnode]
      refine h.nodeless rfl fun t q => ?_
      rw [herased]
      by_cases heq : (t, q) = (s, price)
      · obtain ⟨rfl, rfl⟩ := Prod.mk.inj heq
        simp [hnode]
      · simp [heq]

/-- **A turn of the matching loop** frees the node of the level it closes. -/
theorem Housed.step (h : Housed n m.book past) (hstep : m.step limit = some m') :
    Housed n m'.book (m.stepUses.reverse ++ past) := by
  unfold Matching.step at hstep
  unfold Matching.stepUses
  cases hctl : m.ctl with
  | done =>
    simp only [hctl, Option.some.injEq] at hstep
    subst hstep
    exact h
  | outer =>
    have hbook : m'.book = m.book := by
      simp only [hctl] at hstep
      split at hstep
      · split at hstep
        · rw [← Option.some.inj hstep]
        · split at hstep
          all_goals rw [← Option.some.inj hstep]
      · rw [← Option.some.inj hstep]
    rw [hbook]
    refine h.nodeless ?_ (.refl _)
    simp only
    split
    · exact nodeless_bestUses _
    · rfl
  | inner levelPrice level =>
    simp only [hctl] at hstep ⊢
    split at hstep
    · rename_i hgo
      rw [if_pos hgo]
      exact h.nodeless (nodeless_visitUses _ _ _ _) (sameKeys_rule.visit hstep)
    · rename_i hstop
      rw [if_neg hstop, ← Option.some.inj hstep]
      exact h
  | leave levelPrice level =>
    simp only [hctl] at hstep ⊢
    split at hstep
    · rename_i hempty
      obtain ⟨b', hclose, rfl⟩ := Option.map_eq_some_iff.mp hstep
      rw [if_pos hempty]
      exact h.close hclose
    · rename_i hfull
      rw [if_neg hfull, ← Option.some.inj hstep]
      exact h

theorem Housed.match (h : Housed n b past) (hmatch : b.matchOpposite incoming limit = some m) :
    Housed n m.book ((b.matchUses incoming limit).reverse ++ past) :=
  runUntil_outputs (J := fun m past => Housed n m.book past)
    (fun _ _ _ hm _ hstep => hm.step hstep) hmatch h

/-- A settled book has no more nodes than orders. -/
theorem Housed.length_le (h : Housed n b past) (hl : b.Linked Q free) (hset : Settled Q) :
    (nodesOf past).length ≤ b.size := by
  let keys : List (Side × Price) :=
    (Q .buy).map (fun e => (Side.buy, e.1)) ++ (Q .sell).map fun e => (Side.sell, e.1)
  have hsub : nodesOf past ⊆ keys := by
    rintro ⟨s, price⟩ hkey
    have hnode := (h.mem s price).mp hkey
    -- a key of the map is a price of the layout
    rw [hasNode, Lib.Ranked.RankedMap.find, (hl.ladder s).overflow] at hnode
    obtain ⟨level, hlevel⟩ := Lib.Ranked.lookup_isSome.mp hnode
    obtain ⟨e, he, heq⟩ := List.mem_map.mp (List.mem_filter.mp hlevel).1
    have hprice : e.1 = price := congrArg Prod.fst heq
    cases s with
    | buy => exact List.mem_append_left _ (List.mem_map.mpr ⟨e, he, by rw [hprice]⟩)
    | sell => exact List.mem_append_right _ (List.mem_map.mpr ⟨e, he, by rw [hprice]⟩)
  have hlen := (h.nodup.subperm hsub).length_le
  have hbuy := length_le_cells (hset .buy)
  have hsell := length_le_cells (hset .sell)
  have hsize : b.size = (allCells Q).length := by
    show b.orderIndex.count = _
    rw [hl.index.count, length_entries]
  simp only [keys, List.length_append, List.length_map] at hlen
  rw [hsize, allCells, List.length_append]
  omega

/-- **Opening a level** allocates a node where the map has none for it. -/
theorem Housed.open {node : Bool} {level : LevelRef} {l : PriceLadder s.isBid} (h : Housed n b past)
    (hroom : (nodesOf past).length < n) (hopen : (b.ladder s).openLevel node price = .ok level l) :
    Housed n (b.setLadder s l) ((b.openUses s price).reverse ++ past) := by
  have hkeys : l.overflow = (b.ladder s).overflow → SameKeys b (b.setLadder s l) := by
    intro hoverflow t q
    rcases Side.eq_or_eq_opposite s t with rfl | rfl
    · rw [hasNode, ladder_setLadder, hoverflow]
      rfl
    · rw [hasNode, ladder_setLadder_opposite]
      rfl
  unfold PriceLadder.openLevel at hopen
  by_cases hin : (b.ladder s).inWindow price = true
  · unfold OrderBook.openUses
    simp only [hin, if_true, Result.ok.injEq] at hopen ⊢
    obtain ⟨-, rfl⟩ := hopen
    refine h.nodeless ?_ (hkeys (by split <;> rfl))
    refine nodeless_cons.mpr ⟨rfl, ?_⟩
    split <;> rfl
  · have huses : b.openUses s price
        = if ((b.ladder s).overflow.find price).isNone then [.nodeNew s price] else [] := by
      simp only [OrderBook.openUses, hin]
      rfl
    rw [if_neg hin] at hopen
    rw [huses]
    cases hfind : (b.ladder s).overflow.find price with
    | some v =>
      simp only [hfind] at hopen
      -- a price the map holds already has its node
      obtain ⟨-, rfl⟩ := Result.ok.inj hopen
      exact h.nodeless rfl (hkeys rfl)
    | none =>
      have hnode : b.hasNode s price = false := by
        rw [hasNode, hfind]
        rfl
      have hkey : (s, price) ∉ nodesOf past := by
        rw [h.mem, hnode]
        simp
      simp only [hfind] at hopen
      split at hopen
      · obtain ⟨-, rfl⟩ := Result.ok.inj hopen
        refine ⟨⟨⟨hkey, hroom⟩, h.fits⟩, List.nodup_cons.mpr ⟨hkey, h.nodup⟩, fun t q => ?_⟩
        show (t, q) ∈ (s, price) :: nodesOf past ↔ _
        rw [List.mem_cons, h.mem]
        rcases Side.eq_or_eq_opposite s t with rfl | rfl
        · simp [hasNode]
        · simp [hasNode, s.opposite_ne]
      · simp at hopen

/-- **Resting an order** takes one node at most, before it takes its slot. -/
theorem Housed.insert (h : Housed n b past) (hroom : (nodesOf past).length < n)
    (hins : b.insert mem s order = .ok () b') :
    Housed n b' ((b.insertUses mem s order).reverse ++ past) := by
  obtain ⟨level, l, slot, pool, index, filled, hopen, hacquire, hslot, -, hladder, -, rfl⟩ :=
    insert_inv hins
  have hpool := placeFirst_pool b s order.price
  have hplaced : Housed n (b.placeFirst s order.price) past :=
    h.sameKeys (sameKeys_placeFirst b s order.price)
  have hopened := hplaced.open hroom hopen
  unfold OrderBook.insertUses
  simp only [hopen, setLadder_pool, hpool, hacquire]
  rw [List.reverse_append, List.append_assoc]
  refine hopened.nodeless ?_ ?_
  · rw [if_neg (Nat.not_le.mpr hslot)]
    refine nodeless_append.mpr ⟨rfl, nodeless_cons.mpr ⟨rfl, ?_⟩⟩
    exact nodeless_append.mpr ⟨nodeless_appendUses _ _ _ _, rfl⟩
  · have hfilled : SameKeys ((b.placeFirst s order.price).setLadder s l) filled :=
      sameKeys_of_ladder hladder
    refine (hfilled.trans (sameKeys_appendAt filled s level slot)).trans ?_
    exact sameKeys_of_ladder fun t => by cases t <;> rfl

theorem Housed.remove {slot : SlotIndex} (h : Housed n b past) (hremove : b.remove s slot = some b') :
    Housed n b' ((b.removeUses s slot).reverse ++ past) := by
  unfold OrderBook.remove at hremove
  unfold OrderBook.removeUses
  simp only at hremove ⊢
  cases hfind : (b.ladder s).find (b.pool.slots slot).value.price with
  | none => simp [hfind] at hremove
  | some level =>
    simp only [hfind] at hremove ⊢
    -- what is read before the level may be closed
    have hfirst : Nodeless (.subscript slot :: (b.ladder s).findUses (b.pool.slots slot).value.price
        ++ .levelFound (some level) :: b.detachUses s (b.pool.slots slot).value.price level slot) := by
      refine nodeless_append.mpr ⟨nodeless_cons.mpr ⟨rfl, nodeless_findUses _ _⟩, ?_⟩
      exact nodeless_cons.mpr ⟨rfl, nodeless_detachUses _ _ _ _ _⟩
    have hdetached := h.nodeless hfirst (sameKeys_detachAt b s level slot)
    split at hremove
    · rename_i hempty
      have hclosed := hdetached.close hremove
      rw [if_pos hempty]
      simpa using hclosed
    · rename_i hfull
      obtain rfl := Option.some.inj hremove
      rw [if_neg hfull]
      simpa using hdetached

/-- **A cancel** frees the node of the level it closes. -/
theorem Housed.cancel {id : OrderId} {r : Bool} (h : Housed n b past)
    (hcancel : b.cancel id = some (r, b')) :
    Housed n b' ((b.cancelUses id).reverse ++ past) := by
  unfold OrderBook.cancel at hcancel
  unfold OrderBook.cancelUses
  cases htake : b.orderIndex.take id with
  | none => simp [htake] at hcancel
  | some taken =>
    obtain ⟨entry, index⟩ := taken
    cases entry with
    | none =>
      simp only [htake, Option.some.injEq, Prod.mk.injEq] at hcancel
      rw [← hcancel.2]
      exact h
    | some entry =>
      simp only [htake] at hcancel ⊢
      obtain ⟨b₁, hremove, hpair⟩ := Option.map_eq_some_iff.mp hcancel
      obtain ⟨-, rfl⟩ := Prod.mk.inj hpair
      have htaken : Housed n { b with orderIndex := index }
          (([.sum (.dec b.orderIndex.count)] : List Use).reverse ++ past) :=
        h.nodeless rfl (sameKeys_of_ladder fun t => by cases t <;> rfl)
      have hchecked := (htaken.remove hremove).nodeless (nodeless_checkUses b₁) (.refl b₁)
      simpa [hremove] using hchecked

/-- **Every part of a call**: an attempt rests an order more than there are nodes. -/
theorem housed_rule (n : Nat) (mem : Memory) :
    CallRule mem (Housed n) fun b past => b.size ≤ n → Housed n b past where
  attempt {x y Q free past e b'} hx h hexec hsize := by
    obtain ⟨m, Q', free', hm⟩ := hx.matched
    have hmatched := h.match hm.run
    have hpoint : x.insertPoint
        = if x.restLeftover && decide (0 < m.incoming.qty) && !m.rep.stpHalted then
            some (m.book, m.incoming) else none := by
      rw [Attempt.insertPoint, hm.run]
      rfl
    unfold Attempt.execute at hexec
    unfold Attempt.uses
    rw [hpoint, List.reverse_append, List.append_assoc]
    simp only [hm.run] at hexec
    split at hexec
    · rename_i hrests
      have hqty : 0 < m.incoming.qty := by
        simp only [Bool.and_eq_true, decide_eq_true_eq] at hrests
        exact hrests.1.2
      have hl := hm.leftover hx hqty
      have habs : m.incoming.id ∉ (entries Q').map Prod.fst := by
        rw [hl.follows.mem_ids, hl.fresh]
        simp
      rw [if_pos hrests]
      generalize hins : m.book.insert mem x.incoming.side m.incoming = r at hexec
      cases r with
      | ok _ b₁ =>
        obtain ⟨-, rfl⟩ := Result.ok.inj hexec
        have hgrown := (hl.follows.linked.insert_demanded habs hins).size
        have hnodes := hmatched.length_le hl.follows.linked hl.follows.settled
        have hrested := hmatched.insert (by omega) hins
        have hchecked := hrested.nodeless (nodeless_checkUses b₁) (.refl b₁)
        simpa [hins] using hchecked
      | throws e b₁ => simp at hexec
      | undefined => simp at hexec
    · rename_i hrests
      rw [if_neg hrests]
      obtain ⟨-, rfl⟩ := Result.ok.inj hexec
      simp only [hm.run]
      exact hmatched.nodeless (nodeless_checkUses m.book) (.refl m.book)
  cancel _ h hcancel := h.cancel hcancel
  read _ h _ := ⟨⟨trivial, h.fits⟩, h.nodup, h.mem⟩
  pop h := ⟨h.fits, h.nodup, fun s price => by rw [h.mem]; cases s <;> rfl⟩
  done h _ := h

end Housed

/-- **The run lemma of the nodes**: with at most `n` orders at the end of every call, no more than `n`
nodes are in use at any moment, and no node is allocated or freed twice. -/
theorem Run.housed {b₀ b : OrderBook} {Q₀ : Layout} {free₀ : List SlotIndex} {past : List Record}
    {trace : List Use} {n : Nat} (h₀ : b₀.Follows {} Q₀ free₀)
    (hempty : ∀ s price, b₀.hasNode s price = false) (hrun : Run b₀ past b)
    (htrace : Traced past trace) (hwithin : ∀ r ∈ past, r.after.size ≤ n) : Housed n b trace := by
  have hstart : Housed n b₀ [] := ⟨trivial, List.nodup_nil, fun s price => by simp [nodesOf, hempty]⟩
  exact CallRule.run (housed_rule n) h₀ hstart (fun r hr _ hafter => hafter (hwithin r hr)) hrun htrace

end OrderBook

end Lob
