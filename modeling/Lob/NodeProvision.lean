/-
# Lob.NodeProvision — a book that stays within its provision never grows.

Both fallback maps take their nodes from one arena, provisioned with `kBytesPerOrder` bytes for each
expected order.  All nodes are of one size class, and the arena cuts a new piece only when no freed one
is left, so it has cut as many pieces as there ever were nodes at once.  `Backed` drives the arena by
the uses of a run; with no more nodes than provisioned, the first slab serves them all, and no answer
of the system's `operator new` is ever asked for.
-/
import Lob.NodeArena
import Lob.NodeUses

namespace Lob

/-! ## The arena of a book -/

/-- Arena bytes one resting order can need: a map node, taken as its price and level (24 bytes) with
four pointers, rounded up to the arena's granule. -/
def kBytesPerOrder : Nat :=
  (24 + 4 * 8 + NodeArena.kGranule - 1) / NodeArena.kGranule * NodeArena.kGranule

/-- No arena when the nodes come from the system allocator; `none` when the system has no memory. -/
def makeArena (kAsan : Bool) (place : Nat → Option Nat) (h : SystemHeap) (cfg : Config) :
    Option (SystemHeap × Option NodeArena) :=
  if kAsan || !cfg.poolNodes then some (h, none)
  else (NodeArena.new place h (cfg.expectedOrders.toNat * kBytesPerOrder % 2 ^ 64)).map fun (h, m) =>
    (h, some m)

namespace NodeArena

/-- The arena behind the maps of a book, after a history of uses: a map allocates the node of a new key
and frees it when the key goes, and in between writes to it.  `node` is where the node of a key lies,
and `nodeBytes` the size of a node. -/
inductive Backed (nodeBytes : Nat) (h₀ : SystemHeap) (m₀ : NodeArena) :
    List Use → (Side × Price → Nat) → List Event → SystemHeap → NodeArena → Prop
  | start : Backed nodeBytes h₀ m₀ [] (fun _ => 0) [] h₀ m₀
  | nodeNew {past : List Use} {node : Side × Price → Nat} {events : List Event} {h h' : SystemHeap}
      {m m' : NodeArena} {place : Nat → Option Nat} {p : Nat} (s : Side) (price : Price)
      (hpast : Backed nodeBytes h₀ m₀ past node events h m) (hplace : Honest place h)
      (hcall : m.allocate place h nodeBytes = some (p, h', m')) :
      Backed nodeBytes h₀ m₀ (.nodeNew s price :: past) (Function.update node (s, price) p)
        (.allocated p nodeBytes :: events) h' m'
  | nodeFree {past : List Use} {node : Side × Price → Nat} {events : List Event} {h : SystemHeap}
      {m : NodeArena} (scrub : Bool) (s : Side) (price : Price)
      (hpast : Backed nodeBytes h₀ m₀ past node events h m) :
      Backed nodeBytes h₀ m₀ (.nodeFree s price :: past) node
        (.freed (node (s, price)) nodeBytes :: events)
        (m.deallocate scrub h (node (s, price)) nodeBytes).1
        (m.deallocate scrub h (node (s, price)) nodeBytes).2
  | other {past : List Use} {node : Side × Price → Nat} {events : List Event} {h : SystemHeap}
      {m : NodeArena} {u : Use} (hpast : Backed nodeBytes h₀ m₀ past node events h m)
      (hu : u.isNode = false) : Backed nodeBytes h₀ m₀ (u :: past) node events h m
  | write {past : List Use} {node : Side × Price → Nat} {events : List Event} {h : SystemHeap}
      {m : NodeArena} (words : Nat → Nat) (hpast : Backed nodeBytes h₀ m₀ past node events h m)
      (hkeeps : ∀ a, (∃ b ∈ h.held, b.Has a) → (∀ b ∈ liveOf events, ¬ b.Has a) →
        words a = h.words a) :
      Backed nodeBytes h₀ m₀ past node (.written :: events) { h with words := words } m

/-- The arena has added no slab: its chain of slabs starts where it did, the bytes in slabs are as many,
and the system has handed out nothing more. -/
structure NoSlabAdded (h₀ : SystemHeap) (m₀ : NodeArena) (h : SystemHeap) (m : NodeArena) : Prop where
  newest : m.newest = m₀.newest
  slabBytes : m.slabBytes = m₀.slabBytes
  held : h.held = h₀.held

/-- The pieces of the first slab: one for each node in use or freed, at most `n`. -/
structure Stocked (nodeBytes n : Nat) (h₀ : SystemHeap) (m₀ : NodeArena) (past : List Use)
    (node : Side × Price → Nat) (events : List Event) (h : SystemHeap) (m : NodeArena) : Prop where
  nodes : (liveOf events).Perm ((nodesOf past).map fun k => ⟨node k, nodeBytes⟩)
  classes : ∀ f ∈ freedOf events, f.2 = sizeClass nodeBytes
  pieces_le : (liveOf events).length + (freedOf events).length ≤ n
  cursor : m.cursor
    = m₀.cursor + 16 * sizeClass nodeBytes * ((liveOf events).length + (freedOf events).length)
  limit : m.limit = m₀.limit
  slabs : NoSlabAdded h₀ m₀ h m

section Backed

variable {nodeBytes n reserveBytes : Nat} {h₀ h : SystemHeap} {m₀ m : NodeArena} {past : List Use}
  {node : Side × Price → Nat} {events : List Event} {slabs : List Lib.Carving.Block}

/-- With one class in use, its chain holds every freed block. -/
theorem Stocked.chain_eq (hs : Stocked nodeBytes n h₀ m₀ past node events h m) :
    chain (sizeClass nodeBytes) (freedOf events) = (freedOf events).map Prod.fst := by
  unfold chain
  rw [List.filter_eq_self.mpr fun f hf => decide_eq_true (hs.classes f hf)]

theorem Stocked.live_length (hs : Stocked nodeBytes n h₀ m₀ past node events h m) :
    (liveOf events).length = (nodesOf past).length := by
  rw [hs.nodes.length_eq, List.length_map]

/-- **A node within the provision** comes from the free list or the first slab, whatever the system
would answer. -/
theorem Stocked.allocate (hs : Stocked nodeBytes n h₀ m₀ past node events h m)
    (hw : Wf events h m slabs) (hsize : nodeBytes ≤ kMaxBlock)
    (hfits : m₀.cursor + 16 * sizeClass nodeBytes * n ≤ m₀.limit) (hlt : (nodesOf past).length < n)
    (place : Nat → Option Nat) :
    ∃ p m', m.allocate place h nodeBytes = some (p, h, m')
      ∧ ∀ k ∉ nodesOf past, Stocked nodeBytes n h₀ m₀ (.nodeNew k.1 k.2 :: past)
          (Function.update node k p) (.allocated p nodeBytes :: events) h m' := by
  have hbig : ¬ nodeBytes > kMaxBlock := Nat.not_lt.mpr hsize
  have hhead := hw.links.heads (sizeClass nodeBytes)
  rw [hs.chain_eq] at hhead
  have hcursor := hs.cursor
  have hlive := hs.live_length
  -- the node of a new key is the only one that moves
  have hnodes : ∀ p, ∀ k ∉ nodesOf past, (liveOf (.allocated p nodeBytes :: events)).Perm
      ((k :: nodesOf past).map fun k' => ⟨Function.update node k p k', nodeBytes⟩) := by
    intro p k hk
    have hrest : (nodesOf past).map (fun k' => (⟨Function.update node k p k', nodeBytes⟩ :
        Lib.Carving.Block)) = (nodesOf past).map fun k' => ⟨node k', nodeBytes⟩ := by
      refine List.map_congr_left fun k' hk' => ?_
      have hne : k' ≠ k := by
        rintro rfl
        exact hk hk'
      rw [Function.update_of_ne hne]
    rw [List.map_cons, hrest, Function.update_self]
    exact hs.nodes.cons _
  unfold NodeArena.allocate
  simp only [if_neg hbig]
  cases hfreed : freedOf events with
  | nil =>
    rw [hfreed, List.map_nil, List.headD_nil] at hhead
    rw [hfreed, List.length_nil, Nat.add_zero] at hcursor
    -- the cursor leaves room for one piece more
    have hstep : 16 * sizeClass nodeBytes * ((liveOf events).length + 1)
        ≤ 16 * sizeClass nodeBytes * n := Nat.mul_le_mul_left _ (by omega)
    rw [Nat.mul_succ] at hstep
    have hroom : ¬ m.room < sizeClass nodeBytes * kGranule := by
      rw [hw.room_eq, hs.limit]
      simp only [kGranule]
      omega
    have hnone : freedOf (.allocated m.cursor nodeBytes :: events) = [] := by
      simp [freedOf, hbig, hfreed]
    refine ⟨m.cursor, { m with cursor := m.cursor + sizeClass nodeBytes * kGranule }, ?_,
      fun k hk => ⟨hnodes _ k hk, ?_, ?_, ?_, hs.limit, ?_⟩⟩
    · rw [if_neg (not_not.mpr hhead), carve]
      simp only [if_neg hroom, Option.map_some]
    · rw [hnone]
      simp
    · rw [hnone]
      show (liveOf events).length + 1 + 0 ≤ n
      omega
    · have hlen : (liveOf (.allocated m.cursor nodeBytes :: events)).length + 0
          = (liveOf events).length + 1 := rfl
      rw [hnone, List.length_nil, hlen, Nat.mul_succ]
      simp only [kGranule]
      omega
    · exact ⟨hs.slabs.newest, hs.slabs.slabBytes, hs.slabs.held⟩
  | cons f rest =>
    have hf : (f.1, sizeClass nodeBytes) ∈ freedOf events := by
      have hclass := hs.classes f (hfreed ▸ List.mem_cons_self)
      rw [← hclass, hfreed]
      exact List.mem_cons_self
    rw [hfreed, List.map_cons, List.headD_cons] at hhead
    -- a freed block is never at the null address
    obtain ⟨t, ht, hlo, -⟩ := hw.carved.inside _ (mem_pieces_freed hf)
    have hnonnull : m.freeList (sizeClass nodeBytes) ≠ 0 := by
      rw [hhead]
      simp only at hlo
      omega
    have hrest : freedOf (.allocated f.1 nodeBytes :: events)
        = (freedOf events).erase (f.1, sizeClass nodeBytes) := by
      simp only [freedOf, if_neg hbig]
    have hlen : (freedOf (.allocated f.1 nodeBytes :: events)).length + 1
        = (freedOf events).length := by
      rw [hrest, List.length_erase_of_mem hf]
      exact Nat.sub_add_cancel (List.length_pos_of_mem hf)
    have hcount : (liveOf (.allocated f.1 nodeBytes :: events)).length
        + (freedOf (.allocated f.1 nodeBytes :: events)).length
        = (liveOf events).length + (freedOf events).length := by
      show (liveOf events).length + 1 + _ = _
      omega
    refine ⟨f.1, { m with
        freeList := Function.update m.freeList (sizeClass nodeBytes) (h.words f.1) }, ?_,
      fun k hk => ⟨hnodes _ k hk, fun g hg => ?_, ?_, ?_, hs.limit, ?_⟩⟩
    · rw [if_pos hnonnull, hhead]
    · rw [hrest] at hg
      exact hs.classes g (List.mem_of_mem_erase hg)
    · rw [hcount]
      exact hs.pieces_le
    · rw [hcount]
      exact hcursor
    · exact ⟨hs.slabs.newest, hs.slabs.slabBytes, hs.slabs.held⟩

/-- **A freed node** goes back to the free list. -/
theorem Stocked.deallocate (hs : Stocked nodeBytes n h₀ m₀ past node events h m)
    (hsize : nodeBytes ≤ kMaxBlock) (scrub : Bool) {s : Side} {price : Price}
    (hkey : (s, price) ∈ nodesOf past) :
    ⟨node (s, price), nodeBytes⟩ ∈ liveOf events
      ∧ Stocked nodeBytes n h₀ m₀ (.nodeFree s price :: past) node
          (.freed (node (s, price)) nodeBytes :: events)
          (m.deallocate scrub h (node (s, price)) nodeBytes).1
          (m.deallocate scrub h (node (s, price)) nodeBytes).2 := by
  have hbig : ¬ nodeBytes > kMaxBlock := Nat.not_lt.mpr hsize
  have hlive : ⟨node (s, price), nodeBytes⟩ ∈ liveOf events :=
    hs.nodes.mem_iff.mpr (List.mem_map.mpr ⟨_, hkey, rfl⟩)
  have hmeta : (m.deallocate scrub h (node (s, price)) nodeBytes).2
      = { m with freeList := Function.update m.freeList (sizeClass nodeBytes) (node (s, price)) } := by
    simp only [NodeArena.deallocate, if_neg hbig]
  have hfreed : freedOf (.freed (node (s, price)) nodeBytes :: events)
      = (node (s, price), sizeClass nodeBytes) :: freedOf events := by
    simp only [freedOf, if_neg hbig]
  have hcount : (liveOf (.freed (node (s, price)) nodeBytes :: events)).length
      + (freedOf (.freed (node (s, price)) nodeBytes :: events)).length
      = (liveOf events).length + (freedOf events).length := by
    rw [hfreed, List.length_cons]
    show ((liveOf events).erase ⟨node (s, price), nodeBytes⟩).length + _ = _
    rw [List.length_erase_of_mem hlive]
    have := List.length_pos_of_mem hlive
    omega
  refine ⟨hlive, ⟨?_, fun f hf => ?_, ?_, ?_, ?_, ?_⟩⟩
  · have hsplit := (hs.nodes.erase ⟨node (s, price), nodeBytes⟩).trans
      (((List.perm_cons_erase hkey).map fun k => (⟨node k, nodeBytes⟩ :
        Lib.Carving.Block)).erase ⟨node (s, price), nodeBytes⟩)
    rw [List.map_cons, List.erase_cons_head] at hsplit
    exact hsplit
  · rw [hfreed] at hf
    rcases List.mem_cons.mp hf with rfl | hf
    · rfl
    · exact hs.classes f hf
  · rw [hcount]
    exact hs.pieces_le
  · rw [hcount, hmeta]
    exact hs.cursor
  · rw [hmeta]
    exact hs.limit
  · rw [hmeta]
    exact ⟨hs.slabs.newest, hs.slabs.slabBytes, (deallocate_held hsize).trans hs.slabs.held⟩

/-- **The run lemma of the arena**: every history of a book within its provision keeps to the first
slab. -/
theorem Backed.stocked (hstart : Run reserveBytes [] h₀ m₀) (hsize : nodeBytes ≤ kMaxBlock)
    (hfits : m₀.cursor + 16 * sizeClass nodeBytes * n ≤ m₀.limit)
    (hback : Backed nodeBytes h₀ m₀ past node events h m) (hpast : Throughout (Use.NodeFits n) past) :
    Run reserveBytes events h m ∧ Stocked nodeBytes n h₀ m₀ past node events h m := by
  induction hback with
  | start => exact ⟨hstart, .nil, by simp [freedOf], Nat.zero_le n, rfl, rfl, rfl, rfl, rfl⟩
  | @nodeNew past node events h h' m m' place p s price hback hplace hcall ih =>
    obtain ⟨⟨hkey, hlt⟩, hpast⟩ := hpast
    obtain ⟨hrun, hs⟩ := ih hpast
    obtain ⟨slabs, hw⟩ := hrun.wf
    obtain ⟨p', m₁, hserved, hstocked⟩ := hs.allocate hw hsize hfits hlt place
    refine ⟨hrun.allocate nodeBytes hplace hcall, ?_⟩
    rw [hserved] at hcall
    obtain ⟨rfl, rfl, rfl⟩ : p' = p ∧ h = h' ∧ m₁ = m' := by simpa using hcall
    exact hstocked (s, price) hkey
  | nodeFree scrub s price hback ih =>
    obtain ⟨hkey, hpast⟩ := hpast
    obtain ⟨hrun, hs⟩ := ih hpast
    obtain ⟨hlive, hstocked⟩ := hs.deallocate hsize scrub hkey
    exact ⟨hrun.deallocate scrub hlive, hstocked⟩
  | other hback hu ih =>
    obtain ⟨hrun, hs⟩ := ih hpast.2
    refine ⟨hrun, ?_, hs.classes, hs.pieces_le, hs.cursor, hs.limit, hs.slabs⟩
    rw [nodesOf_cons hu]
    exact hs.nodes
  | write words hback hkeeps ih =>
    obtain ⟨hrun, hs⟩ := ih hpast
    exact ⟨hrun.write words hkeeps, hs.nodes, hs.classes, hs.pieces_le, hs.cursor, hs.limit,
      hs.slabs.newest, hs.slabs.slabBytes, hs.slabs.held⟩

/-- **The arena serves every such history**, also when the system has no memory left. -/
theorem exists_backed (hstart : Run reserveBytes [] h₀ m₀) (hsize : nodeBytes ≤ kMaxBlock)
    (hfits : m₀.cursor + 16 * sizeClass nodeBytes * n ≤ m₀.limit)
    (hpast : Throughout (Use.NodeFits n) past) :
    ∃ node events h m, Backed nodeBytes h₀ m₀ past node events h m := by
  induction past with
  | nil => exact ⟨_, _, _, _, .start⟩
  | cons u past ih =>
    obtain ⟨node, events, h, m, hback⟩ := ih hpast.2
    cases hu : u.isNode with
    | false => exact ⟨_, _, _, _, hback.other hu⟩
    | true =>
      obtain ⟨hrun, hs⟩ := hback.stocked hstart hsize hfits hpast.2
      cases u with
      | nodeNew s price =>
        obtain ⟨slabs, hw⟩ := hrun.wf
        obtain ⟨p, m', hserved, -⟩ := hs.allocate hw hsize hfits hpast.1.2 fun _ => none
        exact ⟨_, _, _, _, hback.nodeNew s price (fun bytes p hp => by cases hp) hserved⟩
      | nodeFree s price => exact ⟨_, _, _, _, hback.nodeFree false s price⟩
      | _ => simp [Use.isNode] at hu

/-- A node is no larger than what is provisioned for an order. -/
theorem class_le (hnode : nodeBytes ≤ kBytesPerOrder) :
    nodeBytes ≤ kMaxBlock ∧ 16 * sizeClass nodeBytes ≤ kBytesPerOrder := by
  have hk : kBytesPerOrder = 64 := rfl
  unfold sizeClass kGranule kMaxBlock
  constructor
  · omega
  · split <;> omega

/-- **The arena of a book** starts with room for a node for each expected order. -/
theorem makeArena_fits {cfg : Config} {place : Nat → Option Nat} {words : Nat → Nat}
    (hpos : 0 < cfg.expectedOrders.toNat) (hlt : cfg.expectedOrders.toNat < 2 ^ 31)
    (hplace : Honest place ⟨words, []⟩)
    (hmake : makeArena false place ⟨words, []⟩ cfg = some (h₀, some m₀))
    (hnode : nodeBytes ≤ kBytesPerOrder) :
    (∃ reserveBytes, Run reserveBytes [] h₀ m₀)
      ∧ m₀.cursor + 16 * sizeClass nodeBytes * cfg.expectedOrders.toNat ≤ m₀.limit := by
  have hk : kBytesPerOrder = 64 := rfl
  unfold makeArena at hmake
  split at hmake
  · simp at hmake
  · obtain ⟨⟨h, m⟩, hnew, hpair⟩ := Option.map_eq_some_iff.mp hmake
    obtain ⟨rfl, rfl⟩ : h = h₀ ∧ m = m₀ := by simpa using hpair
    refine ⟨⟨_, .new hplace hnew⟩, ?_⟩
    have hbytes : cfg.expectedOrders.toNat * kBytesPerOrder % 2 ^ 64
        = cfg.expectedOrders.toNat * 64 := by
      rw [hk]
      omega
    rw [hbytes, NodeArena.new, if_pos (by omega)] at hnew
    simp only [addSlab, SystemHeap.operatorNew, Option.map_map, Option.map_eq_some_iff,
      Function.comp_apply, Prod.mk.injEq] at hnew
    obtain ⟨slab, -, -, rfl⟩ := hnew
    have hclass := Nat.mul_le_mul_right cfg.expectedOrders.toNat (class_le hnode).2
    rw [hk] at hclass
    simp only [kGranule]
    omega

end Backed

end NodeArena

/-! ## The provision of a book -/

namespace OrderBook

open NodeArena

section Runs

variable {scrub : RestingOrder → RestingOrder} {cfg : Config} {b₀ b : OrderBook} {past : List Record}
  {trace : List Use}

theorem new_hasNode (h : OrderBook.new scrub cfg = some b₀) (s : Side) (price : Price) :
    b₀.hasNode s price = false := by
  unfold OrderBook.new at h
  simp only at h
  split at h
  · obtain rfl := Option.some.inj h
    cases s <;> simp only [hasNode, OrderBook.ladder] <;> cases cfg.priceBase <;> rfl
  · simp at h

/-- **A book that stays within its provision never grows**: neither store grows and the arena behind
its maps adds no slab, while no call ends with more orders than were expected.  In any case the order
pool doubles as often as the largest number of resting orders requires, and a modify grows nothing. -/
theorem within_provision (hpos : 0 < cfg.expectedOrders.toNat)
    (hlt : cfg.expectedOrders.toNat < 2 ^ 31) (hnew : OrderBook.new scrub cfg = some b₀)
    (hrun : Run b₀ past b) (htrace : Traced past trace) :
    ((∀ r ∈ past, r.after.size ≤ cfg.expectedOrders.toNat) →
      b.orderPoolGrowths = 0 ∧ b.idIndexGrowths = 0 ∧
      ∀ nodeBytes ≤ kBytesPerOrder, ∀ place words h₀ m₀, Honest place ⟨words, []⟩ →
        makeArena false place ⟨words, []⟩ cfg = some (h₀, some m₀) →
        (∃ node events h m, Backed nodeBytes h₀ m₀ trace node events h m) ∧
        ∀ node events h m, Backed nodeBytes h₀ m₀ trace node events h m → NoSlabAdded h₀ m₀ h m) ∧
    IsLeast {k | peak past ≤ cfg.expectedOrders.toNat * 2 ^ k} b.orderPoolGrowths ∧
    ∀ r ∈ past, ∀ id newPrice newQty, r.call = .modify id newPrice newQty →
      r.after.orderPoolGrowths = r.before.orderPoolGrowths
        ∧ r.after.idIndexGrowths = r.before.idIndexGrowths := by
  have hprovision : provisionOf cfg = cfg.expectedOrders.toNat := if_pos hpos
  obtain ⟨h₀, -⟩ := new_follows hnew
  refine ⟨fun hwithin => ?_, ?_, fun r hr id newPrice newQty hmodify => ?_⟩
  · obtain ⟨hpool, hindex⟩ := hrun.never_grows hnew (by rwa [hprovision])
    have hhoused := hrun.housed h₀ (new_hasNode hnew) htrace hwithin
    refine ⟨hpool, hindex, fun nodeBytes hnode place words h₀ m₀ hplace hmake => ?_⟩
    obtain ⟨⟨reserveBytes, hstart⟩, hfits⟩ := makeArena_fits hpos hlt hplace hmake hnode
    have hsize := (class_le hnode).1
    refine ⟨exists_backed hstart hsize hfits hhoused.fits, fun node events h m hback => ?_⟩
    exact (hback.stocked hstart hsize hfits hhoused.fits).2.slabs
  · have hleast := hrun.pool_growths hnew
    rwa [hprovision] at hleast
  · obtain ⟨newer, older, rfl⟩ := List.append_of_mem hr
    obtain ⟨b', hearlier⟩ := hrun.earlier
    exact hearlier.modify_never_grows hnew hmodify

end Runs

/-- A book for two orders, all levels in the maps: both resting orders are swept, the leftover rests,
and it is moved to another level. -/
theorem within_provision_swept :
    ∃ b₀ past b trace h₀ m₀ node events h m,
      OrderBook.new id { expectedOrders := 2, priceLevels := 0 } = some b₀ ∧ Run b₀ past b
      ∧ Traced past trace ∧ past.map Record.call = [.modify 3 90 2, .addLimit 3 7 .buy 102 9,
          .addLimit 2 7 .sell 101 4, .addLimit 1 5 .sell 100 3]
      ∧ b.orderPoolGrowths = 0 ∧ b.idIndexGrowths = 0
      ∧ Backed 64 h₀ m₀ trace node events h m ∧ NoSlabAdded h₀ m₀ h m := by
  obtain ⟨b₀, past, b, x, hnew, hrun, hcalls, hsizes⟩ := exists_run id
    { expectedOrders := 2, priceLevels := 0 } {} [.modify 3 90 2, .addLimit 3 7 .buy 102 9,
      .addLimit 2 7 .sell 101 4, .addLimit 1 5 .sell 100 3]
    (fun past _ => if ∀ r ∈ past, r.after.size ≤ 2 then some () else none) (by decide +kernel)
  obtain ⟨hwithin, -⟩ := Option.ite_none_right_eq_some.mp hsizes
  obtain ⟨trace, htrace⟩ := hrun.traced
  obtain ⟨hgrowths, -, -⟩ := within_provision (by decide) (by decide) hnew hrun htrace
  obtain ⟨hpool, hindex, harena⟩ := hgrowths hwithin
  have hplace : Honest (fun bytes => if bytes = 65536 then some 4096 else none) ⟨fun _ => 0, []⟩ := by
    intro bytes p hp
    obtain ⟨rfl, heq⟩ := Option.ite_none_right_eq_some.mp hp
    obtain rfl := Option.some.inj heq
    exact ⟨by decide, by decide, by decide, by simp⟩
  obtain ⟨⟨node, events, h, m, hback⟩, hslabs⟩ := harena 64 (by decide) _ _ _ _ hplace rfl
  exact ⟨b₀, past, b, trace, _, _, node, events, h, m, hnew, hrun, htrace, hcalls, hpool, hindex, hback,
    hslabs node events h m hback⟩

end OrderBook

end Lob
