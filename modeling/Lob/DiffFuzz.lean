/-
# Lob.DiffFuzz — the generator of the differential tests, and the fuzzer that runs them.

The generator draws each operation around one price, with few owners and small quantities, and aims
cancels and modifies at ids it issued.  It reads its vector of issued ids at drawn positions, which is the
one place where it could go wrong.  The fuzzer rotates the engine through policies, window shapes and pool
sizes by the seed, and stops at the first divergence.
-/
import Lob.DiffHarness

namespace Lob.Difftest

open OrderBook Lib Lib.Draws
open Lob.Flow (Rng Roll)

/-! ## The generator -/

structure GenConfig where
  mid : Price := 1000
  /-- Prices span `mid` and this many ticks on either side. -/
  halfBand : Price := 3
  maxQty : Quantity := 6
  owners : ParticipantId := 3
  anonymousPercent : UInt32 := 25
  recentWindow : UInt32 := 6
  length : UInt64 := 40

/-- Uniform in `[0, n)`. -/
def below (n : UInt32) : Roll UInt32 :=
  if n = 0 then return 0 else return ((← Flow.next) % n.toUInt64).toUInt32

def chance (percent : UInt32) : Roll Bool := return decide ((← below 100) < percent)

structure Generator where
  nextId : OrderId := 1
  issued : List OrderId := []

abbrev Gen (α : Type) := Prog Rng Generator α

open Prog

section Drawing

variable (cfg : GenConfig)

/-- The position of a known id: usually one of the newest. -/
def knownIndex (size : Nat) : Roll UInt64 := do
  let window := min cfg.recentWindow (UInt32.ofNat size)
  if ← chance 75 then return UInt64.ofNat size - 1 - (← below window).toUInt64
  else return (← below (UInt32.ofNat size)).toUInt64

/-- An id that was used before. -/
def pickKnown : Gen OrderId := do
  let g ← get
  if g.issued.isEmpty then return 1
  else
    let idx ← draw (knownIndex cfg g.issued.length)
    match g.issued[idx.toNat]? with
    | none => fail
    | some id => return id

def pickPrice : Roll Price := do
  let span := cfg.halfBand * 2 + 1
  return cfg.mid - cfg.halfBand + (← below span.toUInt32).toUInt64

def pickOwner : Roll ParticipantId := do
  if ← chance cfg.anonymousPercent then return kAnonymous
  else return 1 + (← below cfg.owners)

def kindOf (roll : UInt32) : Kind :=
  if roll < 55 then .addLimit
  else if roll < 68 then .addMarket
  else if roll < 86 then .cancel
  else .modify

/-- The fields of an operation but for its id. -/
def pickFields : Roll Op := do
  let kind := kindOf (← below 100)
  let owner ← pickOwner cfg
  let side : Side := if ← chance 50 then .buy else .sell
  let price ← pickPrice cfg
  let qty := 1 + (← below cfg.maxQty)
  return ⟨kind, 0, owner, side, price, qty⟩

/-- `next_id++`, kept as issued. -/
def issueId : Gen OrderId := do
  let g ← get
  set (⟨g.nextId + 1, g.issued ++ [g.nextId]⟩ : Generator)
  return g.nextId

/-- The id of an add: a new one, or now and then one in use. -/
def addId : Gen OrderId := do
  let id ← issueId
  let g ← get
  if g.issued.isEmpty then return id
  else
    -- an id in use tests the rejection of duplicates
    let again ← draw (chance 4)
    if again then pickKnown cfg else return id

/-- The id of a cancel or a modify: a known one, or now and then one that was never issued. -/
def targetId : Gen OrderId := do
  let id ← pickKnown cfg
  let wild ← draw (chance 5)
  if wild then
    let g ← get
    return g.nextId + 1000
  else return id

def makeOp : Gen Op := do
  let op ← draw (pickFields cfg)
  match op.kind with
  | .addLimit => return { op with id := ← addId cfg }
  | .addMarket => return { op with id := ← addId cfg }
  | .cancel => return { op with id := ← targetId cfg }
  | .modify => return { op with id := ← targetId cfg }

end Drawing

/-- `std::vector<Op>::max_size()`: more cannot be reserved. -/
def maxOps : Nat := (2 ^ 63 - 1) / 40

/-- The operations of a seed; nothing where an exception or a bad index leaves the source. -/
def generate (seed : UInt64) (cfg : GenConfig) : Option (List Op) :=
  if maxOps < cfg.length.toNat then none
  else ((collect (makeOp cfg) cfg.length.toNat).exec {} (Rng.new seed)).map fun r => r.1.1

/-! ## The fuzzer -/

def policyOf (seed : UInt64) : SelfTradePolicy :=
  if seed % 3 = 0 then .cancelResting else if seed % 3 = 1 then .allow else .cancelIncoming

/-- The levels and the base of a window: the default, one narrower than the band, one level, a small
one, and none. -/
def windowOf (seed : UInt64) : UInt64 × Option Price :=
  if seed / 3 % 5 = 0 then (1024, none)
  else if seed / 3 % 5 = 1 then (3, some 999)
  else if seed / 3 % 5 = 2 then (1, none)
  else if seed / 3 % 5 = 3 then (4, none)
  else (0, none)

/-- The engine of a seed; every other rotation starts the order pool at one slot. -/
def engineOf (seed : UInt64) : Config where
  selfTrade := policyOf seed
  tradeCapacity := 65536
  priceLevels := (windowOf seed).1
  priceBase := (windowOf seed).2
  expectedOrders := if seed / 15 % 2 ≠ 0 then 1 else 0

/-- How the fuzzer ends: a divergence comes with its seed and its shrunk operations. -/
inductive Verdict
  | clean
  | divergence (seed : UInt64) (minimal : List Op)

/-- The exit status. -/
def Verdict.status : Verdict → UInt32
  | clean => 0
  | divergence _ _ => 1

/-- The loop over the seeds from `firstSeed + i` on. -/
def fuzzFrom (scrub : RestingOrder → RestingOrder) (cfg : GenConfig) (firstSeed : UInt64) :
    Nat → UInt64 → Option Verdict
  | 0, _ => some .clean
  | count + 1, i =>
    let seed := firstSeed + i
    match generate seed cfg with
    | none => none
    | some ops =>
      match diverges scrub ops (engineOf seed) with
      | none => none
      | some true => (shrink scrub ops (engineOf seed)).map (.divergence seed)
      | some false => fuzzFrom scrub cfg firstSeed count (i + 1)

/-- `main`, past its command line. -/
def fuzz (scrub : RestingOrder → RestingOrder) (count firstSeed length : UInt64) : Option Verdict :=
  fuzzFrom scrub { length := length } firstSeed count.toNat 0

/-! ## What the generator draws -/

section Drawn

variable {cfg : GenConfig}

theorem yields_below (n : UInt32) : Yields (below n) fun a => a.toNat < max 1 n.toNat := by
  rw [below]
  split
  · exact .pure (by simp)
  · rename_i hn
    apply Yields.bind (yields_any Flow.next)
    intro w _
    have hpos : n.toNat ≠ 0 := fun h => hn (UInt32.toNat_inj.mp h)
    have hlt := Nat.mod_lt w.toNat (Nat.pos_of_ne_zero hpos)
    have hsize := n.toNat_lt
    apply Yields.pure
    simp only [UInt64.toNat_toUInt32, UInt64.toNat_mod, UInt32.toNat_toUInt64]
    omega

/-- The prices of the band, when the band has no wrap in it. -/
def GenConfig.Banded (cfg : GenConfig) : Prop :=
  cfg.halfBand.toNat ≤ cfg.mid.toNat ∧ cfg.mid.toNat + cfg.halfBand.toNat < 2 ^ 64

/-- What every drawn operation keeps to. -/
structure Drawn (cfg : GenConfig) (op : Op) : Prop where
  price : cfg.Banded → cfg.mid.toNat ≤ op.price.toNat + cfg.halfBand.toNat
    ∧ op.price.toNat ≤ cfg.mid.toNat + cfg.halfBand.toNat
  qty : 1 ≤ op.qty.toNat ∧ op.qty.toNat ≤ max 1 cfg.maxQty.toNat
  owner : op.owner.toNat ≤ max 1 cfg.owners.toNat

theorem yields_pickPrice : Yields (pickPrice cfg) fun p => cfg.Banded →
    cfg.mid.toNat ≤ p.toNat + cfg.halfBand.toNat ∧ p.toNat ≤ cfg.mid.toNat + cfg.halfBand.toNat := by
  rw [pickPrice]
  apply Yields.bind (yields_below _)
  intro off hoff
  apply Yields.pure
  rintro ⟨hlow, hhigh⟩
  have hspan : (cfg.halfBand * 2 + 1).toNat = cfg.halfBand.toNat * 2 + 1 := by
    simp only [UInt64.toNat_add, UInt64.toNat_mul, UInt64.toNat_ofNat]
    omega
  rw [UInt64.toNat_toUInt32, hspan] at hoff
  have hoff' : off.toNat ≤ cfg.halfBand.toNat * 2 := by omega
  simp only [UInt64.toNat_add, UInt64.toNat_sub, UInt32.toNat_toUInt64]
  omega

theorem yields_pickOwner : Yields (pickOwner cfg) fun o => o.toNat ≤ max 1 cfg.owners.toNat := by
  rw [pickOwner]
  apply Yields.bind (yields_any _)
  intro anonymous _
  apply Yields.ite
  · exact fun _ => .pure (by simp [kAnonymous])
  · intro _
    apply Yields.bind (yields_below _)
    intro o ho
    apply Yields.pure
    have hsize := cfg.owners.toNat_lt
    simp only [UInt32.toNat_add, UInt32.toNat_ofNat]
    omega

theorem yields_pickFields : Yields (pickFields cfg) (Drawn cfg) := by
  rw [pickFields]
  apply Yields.bind (yields_any _)
  intro roll _
  apply Yields.bind yields_pickOwner
  intro owner howner
  apply Yields.bind (yields_any _)
  intro buys _
  apply Yields.bind yields_pickPrice
  intro price hprice
  apply Yields.bind (yields_below _)
  intro qty hqty
  apply Yields.pure
  refine ⟨hprice, ?_, howner⟩
  have hsize := cfg.maxQty.toNat_lt
  simp only [UInt32.toNat_add, UInt32.toNat_ofNat]
  omega

end Drawn

/-! ## What the generator keeps -/

/-- An add, which issues an id. -/
def Op.adds (op : Op) : Bool :=
  match op.kind with
  | .addLimit => true
  | .addMarket => true
  | .cancel => false
  | .modify => false

/-- The generator once it issued an id. -/
def Generator.issue (g : Generator) : Generator := ⟨g.nextId + 1, g.issued ++ [g.nextId]⟩

/-- The generator once an operation is out. -/
def Generator.past (g : Generator) (op : Op) : Generator := if op.adds then g.issue else g

/-- The generator once some operations are out. -/
def Generator.after (ops : List Op) : Generator := ops.foldl Generator.past {}

/-- What there is to pick: an issued id, or 1 where none was issued. -/
def Generator.Knows (g : Generator) (id : OrderId) : Prop := id ∈ g.issued ∨ g.issued = [] ∧ id = 1

/-- What an operation aims at: an add at its own new id or at one issued before it, a cancel or a modify at
a known id or a thousand past the next one. -/
def Generator.Aims (g : Generator) (op : Op) : Prop :=
  if op.adds then op.id ∈ g.issued ∨ op.id = g.nextId
  else g.Knows op.id ∨ op.id = g.nextId + 1000

section Ids

variable {cfg : GenConfig} {g : Generator} {ops : List Op}

theorem Generator.after_snoc (ops : List Op) (op : Op) :
    Generator.after (ops ++ [op]) = (Generator.after ops).past op := by
  rw [after, List.foldl_append]
  rfl

/-- **The ids issued are 1, 2, 3 and so on**, one for each add. -/
theorem Generator.issued_after (ops : List Op) :
    (Generator.after ops).issued
        = (List.range (ops.countP Op.adds)).map (fun i => UInt64.ofNat (i + 1))
      ∧ (Generator.after ops).nextId = UInt64.ofNat (ops.countP Op.adds + 1) := by
  induction ops using List.reverseRecOn with
  | nil => exact ⟨rfl, rfl⟩
  | append_singleton ops op ih =>
    obtain ⟨hissued, hnext⟩ := ih
    rw [Generator.after_snoc, Generator.past, List.countP_append, List.countP_singleton]
    cases op.adds with
    | true =>
      refine ⟨?_, ?_⟩
      · show (after ops).issued ++ [(after ops).nextId] = _
        rw [hissued, hnext, if_pos rfl, List.range_succ, List.map_append, List.map_singleton]
      · show (after ops).nextId + 1 = _
        rw [hnext, if_pos rfl, UInt64.ofNat_add (ops.countP Op.adds + 1) 1]
        rfl
    | false => exact ⟨hissued, hnext⟩

/-- There are no more ids than operations. -/
theorem Generator.issued_few (ops : List Op) : (Generator.after ops).issued.length ≤ ops.length := by
  rw [(Generator.issued_after ops).1, List.length_map, List.length_range]
  exact List.countP_le_length

/-- **The position is one of the vector**, whichever way it is drawn. -/
theorem yields_knownIndex {size : Nat} (hpos : 0 < size) (hsize : size < 2 ^ 64) :
    Yields (knownIndex cfg size) fun i => i.toNat < size := by
  have hofNat : (UInt32.ofNat size).toNat ≤ size := by
    rw [UInt32.toNat_ofNat']
    exact Nat.mod_le _ _
  rw [knownIndex]
  apply Yields.bind (yields_any _)
  intro recent _
  apply Yields.ite
  · intro _
    apply Yields.bind (yields_below _)
    intro back hback
    have hmin : (min cfg.recentWindow (UInt32.ofNat size)).toNat ≤ size := by
      show (if cfg.recentWindow ≤ UInt32.ofNat size then cfg.recentWindow
        else UInt32.ofNat size).toNat ≤ size
      split
      · rename_i hle
        exact (UInt32.le_iff_toNat_le.mp hle).trans hofNat
      · exact hofNat
    apply Yields.pure
    simp only [UInt64.toNat_sub, UInt64.toNat_ofNat', UInt32.toNat_toUInt64, UInt64.toNat_ofNat]
    omega
  · intro _
    apply Yields.bind (yields_below _)
    intro i hi
    apply Yields.pure
    rw [UInt32.toNat_toUInt64]
    omega

/-- **A known id** is there to be picked. -/
theorem total_pickKnown (cfg : GenConfig) (hsize : g.issued.length < 2 ^ 64) :
    Total (· = g) (pickKnown cfg) fun id s => s = g ∧ g.Knows id := by
  rw [pickKnown]
  apply Total.get
  rintro g rfl
  apply Total.ite
  · intro hnone
    apply Total.pure
    rintro s rfl
    exact ⟨rfl, Or.inr ⟨List.isEmpty_iff.mp hnone, rfl⟩⟩
  · intro hsome
    have hpos : 0 < g.issued.length := by
      rw [List.length_pos_iff]
      simpa using hsome
    apply Total.draw (yields_knownIndex hpos hsize)
    intro idx hidx
    obtain ⟨id, hid⟩ : ∃ id, g.issued[idx.toNat]? = some id :=
      ⟨_, List.getElem?_eq_getElem hidx⟩
    rw [hid]
    apply Total.pure
    rintro s rfl
    exact ⟨rfl, Or.inl (List.mem_of_getElem? hid)⟩

/-- An add issues an id and takes it, or one in use. -/
theorem total_addId (hsize : g.issue.issued.length < 2 ^ 64) :
    Total (· = g) (addId cfg) fun id s => s = g.issue ∧ (id ∈ g.issued ∨ id = g.nextId) := by
  have hmine : ∀ id, id ∈ g.issue.issued ↔ id ∈ g.issued ∨ id = g.nextId := by
    intro id
    rw [Generator.issue, List.mem_append, List.mem_singleton]
  rw [addId]
  apply Total.bind (Q := fun id s => s = g.issue ∧ id = g.nextId)
  · rw [issueId]
    apply Total.get
    rintro g rfl
    apply Total.bind (total_set (Q := fun _ s => s = g.issue) fun _ _ => rfl)
    exact fun _ => .pure fun s hs => ⟨hs, rfl⟩
  · intro id
    apply Total.get
    rintro s ⟨rfl, hid⟩
    apply Total.ite
    · exact fun _ => .pure fun s hs => ⟨hs, Or.inr hid⟩
    · intro _
      apply Total.draw (yields_any _)
      intro again _
      apply Total.ite
      · intro _
        refine ⟨fun s t hs => ?_⟩
        obtain ⟨known, s', t', hrun, hsame, hknown⟩ := (total_pickKnown cfg hsize).ends s t hs
        refine ⟨known, s', t', hrun, hsame, (hmine known).mp (hknown.resolve_right ?_)⟩
        -- an id was issued just now
        exact fun hnone => by simp [Generator.issue] at hnone
      · exact fun _ => .pure fun s hs => ⟨hs, Or.inr hid⟩

/-- A target is a known id, or one a thousand past the next. -/
theorem total_targetId (hsize : g.issued.length < 2 ^ 64) :
    Total (· = g) (targetId cfg) fun id s => s = g ∧ (g.Knows id ∨ id = g.nextId + 1000) := by
  rw [targetId]
  apply Total.bind (total_pickKnown cfg hsize)
  intro id
  apply Total.draw (yields_any _)
  intro wild _
  apply Total.ite
  · intro _
    apply Total.get
    rintro s ⟨rfl, -⟩
    exact .pure fun s hs => ⟨hs, Or.inr rfl⟩
  · exact fun _ => .pure fun s hs => ⟨hs.1, Or.inl hs.2⟩

/-- **One operation.** -/
theorem total_makeOp (hops : ops.length < maxOps) :
    Total (· = Generator.after ops) (makeOp cfg) fun op s =>
      s = Generator.after (ops ++ [op]) ∧ Drawn cfg op ∧ (Generator.after ops).Aims op := by
  have hfew := Generator.issued_few ops
  have hsize : (Generator.after ops).issued.length < 2 ^ 64 := by
    unfold maxOps at hops
    omega
  have hsize' : (Generator.after ops).issue.issued.length < 2 ^ 64 := by
    rw [Generator.issue, List.length_append, List.length_singleton]
    unfold maxOps at hops
    omega
  rw [makeOp]
  apply Total.draw yields_pickFields
  rintro ⟨kind, id₀, owner, side, price, qty⟩ hdrawn
  have hkeep : ∀ id, Drawn cfg ⟨kind, id, owner, side, price, qty⟩ :=
    fun id => ⟨hdrawn.price, hdrawn.qty, hdrawn.owner⟩
  cases kind with
  | addLimit =>
    refine (total_addId hsize').bind fun id => .pure fun s hs => ?_
    exact ⟨by rw [Generator.after_snoc]; exact hs.1, hkeep id, hs.2⟩
  | addMarket =>
    refine (total_addId hsize').bind fun id => .pure fun s hs => ?_
    exact ⟨by rw [Generator.after_snoc]; exact hs.1, hkeep id, hs.2⟩
  | cancel =>
    refine (total_targetId hsize).bind fun id => .pure fun s hs => ?_
    exact ⟨by rw [Generator.after_snoc]; exact hs.1, hkeep id, hs.2⟩
  | modify =>
    refine (total_targetId hsize).bind fun id => .pure fun s hs => ?_
    exact ⟨by rw [Generator.after_snoc]; exact hs.1, hkeep id, hs.2⟩

end Ids

/-! ## What the seeds give -/

section Seeds

variable {cfg : GenConfig} {scrub : RestingOrder → RestingOrder}

/-- The generator's loop, from any state of the stream. -/
theorem exec_makeOps {n : Nat} (hn : n ≤ maxOps) (rng : Rng) :
    ∃ ops rng', (collect (makeOp cfg) n).exec {} rng = some ((ops, Generator.after ops), rng')
      ∧ ops.length = n
      ∧ ∀ i op, ops[i]? = some op → Drawn cfg op ∧ (Generator.after (ops.take i)).Aims op := by
  have hcollect := Total.collect (J := fun ops g => g = Generator.after ops) (m := makeOp cfg)
    (G := fun ops op => Drawn cfg op ∧ (Generator.after ops).Aims op) maxOps
    (fun ops hops => total_makeOp hops) n [] (by rwa [List.length_nil, Nat.zero_add])
  obtain ⟨ops, g, rng', hrun, rfl, hcount, hall⟩ := hcollect.ends {} rng rfl
  exact ⟨ops, rng', hrun, hcount, hall⟩

/-- At every place of the loop the generator is the one that place names. -/
theorem exec_makeOps_take {n : Nat} (hn : n ≤ maxOps) {rng rng' : Rng} {ops : List Op} {g : Generator}
    (hrun : (collect (makeOp cfg) n).exec {} rng = some ((ops, g), rng')) {i : Nat} (hi : i ≤ n) :
    ∃ rng₁, (collect (makeOp cfg) i).exec {} rng
      = some ((ops.take i, Generator.after (ops.take i)), rng₁) := by
  obtain ⟨g₁, rng₁, hfew⟩ := collect_take hi hrun
  obtain ⟨ops', rng₂, hrun', -⟩ := @exec_makeOps cfg i (hi.trans hn) rng
  rw [hfew] at hrun'
  obtain ⟨hfirst, -⟩ := Prod.mk.inj (Option.some.inj hrun')
  obtain ⟨rfl, rfl⟩ := Prod.mk.inj hfirst
  exact ⟨rng₁, hfew⟩

theorem generate_eq (hlen : cfg.length.toNat ≤ maxOps) (seed : UInt64) : generate seed cfg
    = ((collect (makeOp cfg) cfg.length.toNat).exec {} (Rng.new seed)).map fun r => r.1.1 :=
  if_neg (Nat.not_lt.mpr hlen)

/-- **Every seed gives its operations**: as many as were asked for, without a bad index; each at a price of
the band, with a quantity and an owner of its range; and each aimed by what the generator has at hand there:
an add at the id it issues or at an earlier one, a cancel or a modify at an issued id (1 where there is none)
or a thousand past the next one. -/
theorem generate_drawn (hlen : cfg.length.toNat ≤ maxOps) (seed : UInt64) :
    ∃ ops, generate seed cfg = some ops ∧ ops.length = cfg.length.toNat
      ∧ ∀ i op, ops[i]? = some op → Drawn cfg op ∧ ∃ g rng,
        (collect (makeOp cfg) i).exec {} (Rng.new seed) = some ((ops.take i, g), rng)
          ∧ g.issued = (List.range ((ops.take i).countP Op.adds)).map (fun j => UInt64.ofNat (j + 1))
          ∧ g.nextId = UInt64.ofNat ((ops.take i).countP Op.adds + 1)
          ∧ g.Aims op := by
  obtain ⟨ops, rng', hrun, hcount, hall⟩ := exec_makeOps hlen (Rng.new seed)
  refine ⟨ops, by rw [generate_eq hlen, hrun]; rfl, hcount, fun i op hop => ?_⟩
  obtain ⟨hdrawn, haims⟩ := hall i op hop
  obtain ⟨hi, -⟩ := List.getElem?_eq_some_iff.mp hop
  obtain ⟨rng₁, hfew⟩ := exec_makeOps_take hlen hrun (by omega : i ≤ cfg.length.toNat)
  obtain ⟨hissued, hnext⟩ := Generator.issued_after (ops.take i)
  exact ⟨hdrawn, _, rng₁, hfew, hissued, hnext, haims⟩

/-- The default operations of a seed. -/
theorem generate_drawn_default : ∃ ops, generate 7 {} = some ops ∧ ops.length = 40
    ∧ ∀ (i : Nat) op, ops[i]? = some op → Drawn {} op := by
  obtain ⟨ops, hgenerate, hcount, hall⟩ := @generate_drawn {} (by decide) 7
  exact ⟨ops, hgenerate, hcount, fun i op hop => (hall i op hop).1⟩

/-- The engine of every seed can be made, and its ring holds 65536 trades. -/
theorem new_engineOf (scrub : RestingOrder → RestingOrder) (seed : UInt64) :
    ∃ b₀, OrderBook.new scrub (engineOf seed) = some b₀ ∧ b₀.tradeOut.bufferSize = 65536 := by
  have horders : (engineOf seed).expectedOrders.toNat ≤ 2 ^ 62 := by
    simp only [engineOf]
    split <;> decide
  obtain ⟨b₀, hnew⟩ := new_returns scrub horders (show 65536 ≤ 2 ^ 63 by decide)
  obtain ⟨ring, hring, hsize⟩ : ∃ ring, TradeRing.new 65536 = some ring ∧ ring.bufferSize = 65536 :=
    ⟨_, rfl, rfl⟩
  have hmine : TradeRing.new 65536 = some b₀.tradeOut := (new_follows hnew).2.2.1
  obtain rfl := Option.some.inj (hring.symm.trans hmine)
  exact ⟨b₀, hnew, hsize⟩

/-- How the loop over the seeds may end. -/
structure Ended (scrub : RestingOrder → RestingOrder) (cfg : GenConfig) (verdict : Verdict) :
    Prop where
  clean : cfg.length.toNat ≤ 65536 → verdict.status = 0
  divergence : ∀ seed minimal, verdict = .divergence seed minimal → 65536 < minimal.length
    ∧ diverges scrub minimal (engineOf seed) = some true
    ∧ ∃ ops, generate seed cfg = some ops ∧ minimal.Sublist ops

/-- **The run lemma of the fuzzer.** -/
theorem fuzzFrom_ends (scrub : RestingOrder → RestingOrder) (hlen : cfg.length.toNat ≤ 2 ^ 31)
    (firstSeed : UInt64) (count : Nat) (i : UInt64) :
    ∃ verdict, fuzzFrom scrub cfg firstSeed count i = some verdict ∧ Ended scrub cfg verdict := by
  induction count generalizing i with
  | zero =>
    exact ⟨.clean, rfl, fun _ => rfl, fun seed minimal h => by simp at h⟩
  | succ count ih =>
    have hmax : cfg.length.toNat ≤ maxOps := by
      unfold maxOps
      omega
    obtain ⟨ops, rng', hdraws, hcount, -⟩ := exec_makeOps hmax (Rng.new (firstSeed + i))
    have hops : generate (firstSeed + i) cfg = some ops := by
      rw [generate_eq hmax, hdraws]
      rfl
    obtain ⟨b₀, hnew, hring⟩ := new_engineOf scrub (firstSeed + i)
    rw [← hcount] at hlen
    obtain ⟨obs, hreference, hengine, htrades⟩ := runs_abreast ops hnew hlen
    have hverdict := diverges_eq hreference hengine
    rw [hring] at hverdict
    rw [fuzzFrom]
    simp only [hops]
    by_cases hover : 65536 < obs.trades.length
    · rw [decide_eq_true hover] at hverdict
      obtain ⟨left, hshrink, hsub, hleft, hmany, -⟩ := shrink_of_diverges hnew hlen hverdict
      rw [hring] at hmany
      simp only [hverdict, hshrink]
      refine ⟨_, rfl, fun hfits => ?_, fun seed minimal h => ?_⟩
      · omega
      · obtain ⟨rfl, rfl⟩ := Verdict.divergence.inj h
        exact ⟨hmany, hleft, ops, hops, hsub⟩
    · rw [decide_eq_false hover] at hverdict
      simp only [hverdict]
      exact ih (i + 1)

/-- **The fuzzer**, for every number of sequences from every seed: it ends, without an exception, a bad
index or a failed assertion; it exits clean when the sequences are no longer than the ring; and the
reproducer of any divergence has more operations than that, still diverges, and is part of what its
seed generates. -/
theorem fuzz_ends (scrub : RestingOrder → RestingOrder) (count firstSeed length : UInt64)
    (hlen : length.toNat ≤ 2 ^ 31) :
    ∃ verdict, fuzz scrub count firstSeed length = some verdict
      ∧ (length.toNat ≤ 65536 → verdict.status = 0)
      ∧ ∀ seed minimal, verdict = .divergence seed minimal → 65536 < minimal.length
        ∧ diverges scrub minimal (engineOf seed) = some true
        ∧ ∃ ops, generate seed { length := length } = some ops ∧ minimal.Sublist ops := by
  have hcfg : ({ length := length } : GenConfig).length.toNat ≤ 2 ^ 31 := hlen
  obtain ⟨verdict, hrun, hclean, hdivergence⟩ := fuzzFrom_ends scrub hcfg firstSeed count.toNat 0
  exact ⟨verdict, hrun, hclean, hdivergence⟩

/-- The default run: a hundred thousand sequences of forty operations. -/
theorem fuzz_ends_default : ∃ verdict, fuzz id 100000 1 40 = some verdict ∧ verdict.status = 0 := by
  obtain ⟨verdict, hrun, hclean, -⟩ := fuzz_ends id 100000 1 40 (by decide)
  exact ⟨verdict, hrun, hclean (by decide)⟩

end Seeds

end Lob.Difftest
