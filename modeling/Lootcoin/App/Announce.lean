import Lootcoin.App.Steps
import Lootcoin.Node.ForkDifficulty
import Lootcoin.Node.Stored

/-! What subscribers hear of the chain.  The handler publishes the block that it was handed once the
chain has taken it.  The other blocks of a fork came as orphans, which are not published, and they
become canonical in the call of the last one. -/

namespace Lootcoin

namespace SeenCache

variable {cache : SeenCache} {keys : List Bytes} {key : Bytes}

/-- A cache that holds all the keys that it was given, each of which came once. -/
structure HoldsAll (cache : SeenCache) (keys : List Bytes) : Prop where
  nodup : keys.Nodup
  set : cache.set = keys.toFinset

theorem holdsAll_new (capacity : ℕ) : (new capacity).HoldsAll [] := ⟨List.nodup_nil, rfl⟩

theorem insert_capacity (cache : SeenCache) (key : Bytes) :
    (cache.insert key).2.capacity = cache.capacity := by
  unfold insert
  split
  · rfl
  · simp only
    split
    · unfold evictOldest
      split <;> rfl
    · rfl

theorem HoldsAll.insert_known (h : cache.HoldsAll keys) (hk : key ∈ keys) :
    cache.insert key = (false, cache) := by
  rw [insert, if_pos (by rwa [h.set, List.mem_toFinset])]

/-- With room, a new key is held beside all the others. -/
theorem HoldsAll.insert_new (h : cache.HoldsAll keys) (hk : key ∉ keys)
    (hroom : keys.length < cache.capacity) :
    (cache.insert key).1 = true ∧ (cache.insert key).2.HoldsAll (keys ++ [key]) := by
  have hcard : cache.set.card = keys.length := by
    rw [h.set, List.toFinset_card_of_nodup h.nodup]
  rw [insert, if_neg (by rwa [h.set, List.mem_toFinset]), if_neg (by omega)]
  refine ⟨rfl, ⟨List.nodup_append.mpr ⟨h.nodup, List.nodup_singleton key, ?_⟩, ?_⟩⟩
  · rintro x hx y hy rfl
    exact hk (List.mem_singleton.mp hy ▸ hx)
  · ext x
    simp [h.set]

end SeenCache

namespace Gossip

variable {g : Gossip} {b : Block}

/-- The blocks that were sent to the subscribers, in order. -/
def published (g : Gossip) : List Block :=
  g.events.filterMap fun e =>
    match e with
    | .block b => some b
    | .transaction _ => none

/-- No published block is forgotten. -/
structure Remembers (g : Gossip) : Prop where
  seen : g.seenBlocks.HoldsAll (g.published.map fun b => b.hash)
  capacity : g.seenBlocks.capacity = maxSeen

theorem remembers_new : new.Remembers := ⟨SeenCache.holdsAll_new _, rfl⟩

theorem Remembers.nodup (h : g.Remembers) : g.published.Nodup := h.seen.nodup.of_map

theorem announce_known (h : g.Remembers) (hb : ∃ x ∈ g.published, x.hash = b.hash) :
    g.announce b = g := by
  have hinsert := h.seen.insert_known (List.mem_map.mpr hb)
  rw [announce, publishBlock, hinsert]

theorem announce_new (h : g.Remembers) (hb : ¬ ∃ x ∈ g.published, x.hash = b.hash)
    (hroom : g.published.length < maxSeen) :
    (g.announce b).published = g.published ++ [b] ∧ (g.announce b).Remembers := by
  have hinsert := h.seen.insert_new (fun hmem => hb (List.mem_map.mp hmem))
    (by rwa [List.length_map, h.capacity])
  have hcapacity := SeenCache.insert_capacity g.seenBlocks b.hash
  have hpublish : g.announce b = ⟨(g.seenBlocks.insert b.hash).2, g.seenTxs,
      g.events ++ [.block b], g.pushed ++ [b]⟩ := by
    rw [announce, publishBlock, ← Prod.eta (g.seenBlocks.insert b.hash), hinsert.1]
    rfl
  have hpublished : (g.announce b).published = g.published ++ [b] := by
    rw [hpublish, published, published, List.filterMap_append]
    rfl
  refine ⟨hpublished, ?_, ?_⟩
  · rw [hpublished, List.map_append, hpublish]
    exact hinsert.2
  · rw [hpublish]
    exact hcapacity.trans h.capacity

theorem mem_published_announce (h : g.Remembers) (hroom : g.published.length < maxSeen)
    {x : Block} : x ∈ (g.announce b).published ↔
      x ∈ g.published ∨ (x = b ∧ ∀ y ∈ g.published, y.hash ≠ x.hash) := by
  by_cases hb : ∃ y ∈ g.published, y.hash = b.hash
  · rw [announce_known h hb]
    refine ⟨.inl, fun hx => hx.elim id ?_⟩
    rintro ⟨rfl, hnone⟩
    obtain ⟨y, hy, heq⟩ := hb
    exact absurd heq (hnone y hy)
  · rw [(announce_new h hb hroom).1, List.mem_append, List.mem_singleton]
    refine or_congr_right ⟨fun hx => ⟨hx, fun y hy heq => hb ⟨y, hy, hx ▸ heq⟩⟩, And.left⟩

theorem published_subset_announce (g : Gossip) (b : Block) :
    g.published ⊆ (g.announce b).published := by
  unfold announce publishBlock
  rcases g.seenBlocks.insert b.hash with ⟨_ | _, seen⟩
  · exact List.Subset.refl _
  · intro x hx
    show x ∈ (g.events ++ [NodeEvent.block b]).filterMap _
    rw [List.filterMap_append]
    exact List.mem_append_left _ hx

end Gossip

namespace Node

/-- Where a block on a whole chain is not its first, its predecessor is there too. -/
theorem Tracks.parent {core : Core} {env : Option ℚ} {pot : ℕ} {genesis : Block} {n : Node}
    {full : Blockchain} (ht : Tracks core env pot genesis n full)
    {b : Block} (hb : b ∈ full.blocks.tail) :
    ∃ x ∈ full.blocks, x.hash = b.previousHash := by
  obtain ⟨rest, hgrow⟩ := ht.grown
  have hlinked := (origin_freshChain env pot genesis).linked_of_grows hgrow
  obtain ⟨i, hb⟩ := List.mem_iff_getElem?.mp hb
  rw [List.getElem?_tail] at hb
  have hlt := (List.getElem?_eq_some_iff.mp hb).1
  have hx := List.getElem?_eq_getElem (l := full.blocks) (i := i) (by omega)
  exact ⟨_, List.getElem_mem _, (hlinked.linked i _ b hx hb).symm⟩

end Node

namespace AppState

open Gossip (published)

variable {core : Core} {s₀ s s' : AppState} {d : Node.Delivery} {ds : List Node.Delivery}
  {env : Option ℚ} {pot : ℕ} {genesis : Block}

/-- The handler returns from a block. -/
def Receives (core : Core) (s : AppState) (d : Node.Delivery) (s' : AppState) : Prop :=
  Steps core s (.incoming d) s'

/-- The blocks that a delivery makes canonical: those that the chain accepts in it and does not
have. -/
def joining (core : Core) (s : AppState) (d : Node.Delivery) : List Block :=
  if incomingBlockError core d.block = none then
    (s.node.chain.acceptedBlocks core d.ambient d.block (some s.node.db.reader)).filter fun x =>
      decide (x ∉ s.node.canonicalChain)
  else []

/-- A delivery at whose end every block that it has made canonical is published. -/
def Announces (core : Core) (s : AppState) (d : Node.Delivery) (s' : AppState) : Prop :=
  Receives core s d s' ∧ ∀ x ∈ joining core s d, x ∈ published s'.gossip

/-- A delivery that makes canonical only blocks that are published before it, and itself, which is
new to the subscribers then. -/
def JoinsKnown (core : Core) (s : AppState) (d : Node.Delivery) (s' : AppState) : Prop :=
  Receives core s d s' ∧ ∀ x ∈ joining core s d, x ∈ published s.gossip ∨
    (x = d.block ∧ ∀ y ∈ published s.gossip, y.hash ≠ x.hash)

/-- A delivery whose fork, if any, replays completely and ends in a change that has the delivered
block in it. -/
def JoinsItself (core : Core) (s : AppState) (d : Node.Delivery) (s' : AppState) : Prop :=
  JoinsKnown core s d s' ∧
    s.node.chain.ForkReplays core d.ambient d.block (some s.node.db.reader) ∧
    ∀ fork ancestor, s.node.chain.chosenFork core d.ambient d.block (some s.node.db.reader) =
      some (fork, ancestor) → d.block ∈ fork

/-! ### One delivery -/

/-- A delivery makes nothing canonical and says nothing, or its block is announced. -/
theorem receives_cases (h : Receives core s d s') :
    joining core s d = [] ∧ s'.gossip = s.gossip ∨
    s'.gossip = s.gossip.announce d.block ∧ ∃ outcome,
      Node.Effect core d.ambient s.node d.block s'.node outcome ∧
      (outcome = .applied ∨ ∃ old new, outcome = .reorged old new) := by
  obtain ⟨-, answer, hcall⟩ := h
  rcases applyIncomingBlock_eq_ok.mp hcall with ⟨_, hmsg, -, rfl⟩ | ⟨-, outcome, node, happ, hafter⟩
  · exact .inl ⟨by simp [joining, hmsg], rfl⟩
  obtain rfl : (s.afterOutcome core d.block node outcome).2 = s' := congrArg Prod.snd hafter
  have heff := Node.effect_of_applyBlock happ
  have hnone : outcome = .orphaned ∨ outcome = .rejected → joining core s d = [] := by
    intro ho
    rw [joining, Node.acceptedBlocks_eq_nil heff ho, List.filter_nil, ite_self]
  cases outcome with
  | applied => exact .inr ⟨rfl, .applied, heff, .inl rfl⟩
  | reorged old new => exact .inr ⟨rfl, .reorged old new, heff, .inr ⟨old, new, rfl⟩⟩
  | orphaned => exact .inl ⟨hnone (.inl rfl), rfl⟩
  | rejected => exact .inl ⟨hnone (.inr rfl), rfl⟩

theorem published_subset (h : Receives core s d s') :
    published s.gossip ⊆ published s'.gossip := by
  rcases receives_cases h with ⟨-, heq⟩ | ⟨heq, -⟩ <;> rw [heq]
  · exact List.Subset.refl _
  · exact Gossip.published_subset_announce _ _

theorem remembers_of_receives (h : Receives core s d s') (hr : s.gossip.Remembers)
    (hroom : (published s.gossip).length < maxSeen) : s'.gossip.Remembers := by
  rcases receives_cases h with ⟨-, heq⟩ | ⟨heq, -⟩ <;> rw [heq]
  · exact hr
  · by_cases hb : ∃ x ∈ published s.gossip, x.hash = d.block.hash
    · rwa [Gossip.announce_known hr hb]
    · exact (Gossip.announce_new hr hb hroom).2

/-- As long as nothing published is forgotten, a delivery announces what it makes canonical exactly
when all but itself is published before. -/
theorem announces_iff (hr : s.gossip.Remembers)
    (hroom : (published s.gossip).length < maxSeen) :
    Announces core s d s' ↔ JoinsKnown core s d s' := by
  refine and_congr_right fun h => ?_
  rcases receives_cases h with ⟨hnone, -⟩ | ⟨heq, -⟩
  · simp [hnone]
  · rw [heq]
    exact forall₂_congr fun x _ => Gossip.mem_published_announce hr hroom

/-! ### The parents of what is published -/

/-- Where a fork replays completely, the blocks that a delivery makes canonical are those that the
canonical chain has after it and not before. -/
theorem mem_joining_iff (h : Receives core s d s')
    (hw : Node.Consistent core env pot genesis s.node) (hi : genesis.index = 0)
    (hpot : pot < 2 ^ 64)
    (hrep : s.node.chain.ForkReplays core d.ambient d.block (some s.node.db.reader)) {x : Block} :
    x ∈ joining core s d ↔ x ∈ s'.node.canonicalChain ∧ x ∉ s.node.canonicalChain := by
  obtain ⟨hfits, answer, hcall⟩ := h
  rcases applyIncomingBlock_cases hcall with ⟨hshape, rfl⟩ | ⟨hshape, outcome, happ, -⟩
  · simp [joining, hshape]
  obtain ⟨hn, full, ht⟩ := hw
  rw [joining, if_pos hshape, List.mem_filter, decide_eq_true_eq]
  refine and_congr_left fun hnew => ?_
  have heff := Node.effect_of_applyBlock happ
  have hsame : outcome = .orphaned ∨ outcome = .rejected →
      s'.node.canonicalChain = s.node.canonicalChain →
      (x ∈ s.node.chain.acceptedBlocks core d.ambient d.block (some s.node.db.reader) ↔
        x ∈ s'.node.canonicalChain) := by
    intro ho heq
    rw [Node.acceptedBlocks_eq_nil heff ho, heq]
    exact iff_of_false List.not_mem_nil hnew
  cases heff with
  | applied hup hchain hblocks =>
    obtain ⟨full', hfull, -, ht'⟩ := ht.applied hfits hup hchain hblocks
    rw [ht.canonicalChain] at hnew
    rw [ht'.canonicalChain, hfull, List.mem_append, or_iff_right hnew]
    simp [Blockchain.acceptedBlocks, hup]
  | rejected _ _ heq => exact hsame (.inr rfl) (by rw [heq])
  | orphaned _ _ heq => exact hsame (.inl rfl) (by rw [heq]; rfl)
  | @reorged old fork new ancestor chain payouts hre hchain hblocks =>
    obtain ⟨full', hfull, ht'⟩ := ht.reorged hn hi hpot hfits hre hchain hblocks hrep
    rw [ht.canonicalChain] at hnew
    rw [ht.acceptedBlocks_eq hre hrep, ht'.canonicalChain, hfull.blocks, List.mem_append,
      List.mem_append, or_iff_right fun hx => hnew (List.mem_of_mem_tail (List.mem_of_mem_take hx)),
      or_iff_right fun hx => hnew (List.mem_of_mem_take hx)]

/-- What is published after a delivery was published before, or is its block, whose predecessor is
canonical then. -/
theorem parent_of_published (h : JoinsItself core s d s')
    (hw : Node.Consistent core env pot genesis s.node) (hi : genesis.index = 0)
    (hpot : pot < 2 ^ 64) (hr : s.gossip.Remembers)
    (hroom : (published s.gossip).length < maxSeen) {b : Block} (hb : b ∈ published s'.gossip) :
    b ∈ published s.gossip ∨ ∃ x ∈ s'.node.canonicalChain, x.hash = b.previousHash := by
  obtain ⟨⟨hstep, -⟩, hrep, hitself⟩ := h
  rcases receives_cases hstep with ⟨-, heq⟩ | ⟨heq, outcome, heff, ho⟩
  · exact .inl (heq ▸ hb)
  rw [heq, Gossip.mem_published_announce hr hroom] at hb
  refine hb.imp_right fun hnew => ?_
  obtain rfl := hnew.1
  obtain ⟨hn, full, ht⟩ := hw
  obtain ⟨full', ht', -, hwritten⟩ := ht.step hn hi hpot hstep.1 heff hrep
  rw [ht'.canonicalChain]
  refine ht'.parent (hwritten d.block ?_)
  cases heff with
  | applied => exact List.mem_singleton_self _
  | reorged hre _ _ => exact hitself _ _ hre.chosenFork
  | orphaned => rcases ho with ho | ⟨_, _, ho⟩ <;> cases ho
  | rejected => rcases ho with ho | ⟨_, _, ho⟩ <;> cases ho

/-! ### Runs -/

/-- With fewer distinct blocks published at the end than the cache has room for, nothing published
is forgotten on the way. -/
theorem run_remembers {step : AppState → Node.Delivery → AppState → Prop}
    (hstep : ∀ {s d s'}, step s d s' → Receives core s d s') (run : Runs.Run step s₀ ds s)
    (hr : s₀.gossip.Remembers) (hroom : (published s.gossip).toFinset.card < maxSeen) :
    Runs.Run (fun s d s' => step s d s' ∧ s.gossip.Remembers ∧
      (published s.gossip).length < maxSeen) s₀ ds s ∧ s.gossip.Remembers := by
  induction run with
  | nil => exact ⟨.nil _, hr⟩
  | @cons s s' s'' d ds h rest ih =>
    have hsub : published s.gossip ⊆ published s''.gossip :=
      (Runs.Run.cons h rest).invariant (P := fun t => published s.gossip ⊆ published t.gossip)
        (fun h hsub => List.Subset.trans hsub (published_subset (hstep h))) (List.Subset.refl _)
    have hlen : (published s.gossip).length < maxSeen := by
      have hkeys : (published s.gossip).toFinset ⊆ (published s''.gossip).toFinset :=
        fun _ hx => List.mem_toFinset.mpr (hsub (List.mem_toFinset.mp hx))
      rw [← List.toFinset_card_of_nodup hr.nodup]
      exact Nat.lt_of_le_of_lt (Finset.card_le_card hkeys) hroom
    obtain ⟨hrest, hend⟩ := ih (remembers_of_receives (hstep h) hr hlen) hroom
    exact ⟨.cons ⟨h, hr, hlen⟩ hrest, hend⟩

/-- What the subscribers of a node have heard since it started connects to the chain that it started
with: the canonical chain consists of blocks that were there or are published, and every published
block follows one of these. -/
structure Connected (s₀ s : AppState) : Prop where
  canonical : ∀ x ∈ s.node.canonicalChain, x ∈ s₀.node.canonicalChain ∨ x ∈ published s.gossip
  parent : ∀ b ∈ published s.gossip, ∃ x,
    (x ∈ s₀.node.canonicalChain ∨ x ∈ published s.gossip) ∧ x.hash = b.previousHash

theorem Connected.step (hc : Connected s₀ s) (h : JoinsItself core s d s')
    (hw : Node.Consistent core env pot genesis s.node) (hi : genesis.index = 0)
    (hpot : pot < 2 ^ 64) (hr : s.gossip.Remembers)
    (hroom : (published s.gossip).length < maxSeen) : Connected s₀ s' := by
  have hstep := h.1.1
  have hsub := published_subset hstep
  have hcanonical : ∀ x ∈ s'.node.canonicalChain,
      x ∈ s₀.node.canonicalChain ∨ x ∈ published s'.gossip := by
    intro x hx
    by_cases hold : x ∈ s.node.canonicalChain
    · exact (hc.canonical x hold).imp_right fun hx => hsub hx
    · exact .inr (((announces_iff hr hroom).mpr h.1).2 x
        ((mem_joining_iff hstep hw hi hpot h.2.1).mpr ⟨hx, hold⟩))
  refine ⟨hcanonical, fun b hb => ?_⟩
  rcases parent_of_published h hw hi hpot hr hroom hb with hb | ⟨x, hx, hparent⟩
  · obtain ⟨x, hx, hparent⟩ := hc.parent b hb
    exact ⟨x, hx.imp_right fun hx => hsub hx, hparent⟩
  · exact ⟨x, hcanonical x hx, hparent⟩

/-- In a run of deliveries to a node that has published nothing at its start, with fewer distinct
blocks published than the cache has room for, no block is published twice.  Every delivery of the
run announces what it makes canonical exactly when each makes canonical only published blocks and
itself.  Where each also ends in a change that has its block in it, the subscribers can connect
every published block. -/
theorem announces_of_run (h₀ : s₀.gossip = Gossip.new) (run : Runs.Run (Receives core) s₀ ds s)
    (hroom : (published s.gossip).toFinset.card < maxSeen) :
    (published s.gossip).Nodup ∧
    (Runs.Run (Announces core) s₀ ds s ↔ Runs.Run (JoinsKnown core) s₀ ds s) ∧
    ∀ env pot genesis, genesis.index = 0 → pot < 2 ^ 64 →
      Node.Consistent core env pot genesis s₀.node → Runs.Run (JoinsItself core) s₀ ds s →
      Connected s₀ s := by
  have hr : s₀.gossip.Remembers := h₀ ▸ Gossip.remembers_new
  refine ⟨(run_remembers id run hr hroom).2.nodup, ⟨fun run' => ?_, fun run' => ?_⟩, ?_⟩
  · exact (run_remembers And.left run' hr hroom).1.mono fun h => (announces_iff h.2.1 h.2.2).mp h.1
  · exact (run_remembers And.left run' hr hroom).1.mono fun h => (announces_iff h.2.1 h.2.2).mpr h.1
  · intro env pot genesis hi hpot hw run'
    have hinit : Connected s₀ s₀ := ⟨fun x hx => .inl hx, by simp [h₀, published, Gossip.new]⟩
    refine ((run_remembers (fun h => h.1.1) run' hr hroom).1.invariant
      (P := fun s => Node.Consistent core env pot genesis s.node ∧ Connected s₀ s) ?_
      ⟨hw, hinit⟩).2
    rintro s d s' ⟨h, hr, hlen⟩ ⟨hw, hc⟩
    exact ⟨Steps.consistent h.1.1 hw hi hpot h.2.1, hc.step h hw hi hpot hr hlen⟩

end AppState

namespace Sample

open AppState Gossip

/-- A rival of the mined block with less work, and a child of it with which the two have more. -/
def lightRival : Block := blockOf [coins "" "rival" 1 0 2] 1 [] 1748000061 31
def lightRivalChild : Block := blockOf [coins "" "rival" 1 0 3] 2 lightRival.hash 1748000121 32

theorem receives_of_stepEvent {s s' : AppState} {d : Node.Delivery}
    (h : stepEvent s (.incoming d) = some s') : Receives plainCore s d s' := steps_of_stepEvent h

/-- A node that is handed the mined block announces it. -/
theorem minedBlock_announced : ∃ s, published s.gossip = [minedBlock] ∧
    s.node.canonicalChain = [genesis, minedBlock] ∧ (published s.gossip).Nodup ∧
    (Runs.Run (Announces plainCore) app [deliveryOf minedBlock] s ↔
      Runs.Run (JoinsKnown plainCore) app [deliveryOf minedBlock] s) ∧
    ∀ env pot g, g.index = 0 → pot < 2 ^ 64 → Node.Consistent plainCore env pot g app.node →
      Runs.Run (JoinsItself plainCore) app [deliveryOf minedBlock] s → Connected app s := by
  have hstep : (stepEvent app (.incoming (deliveryOf minedBlock))).map (fun s =>
      (published s.gossip, s.node.canonicalChain)) =
        some ([minedBlock], [genesis, minedBlock]) := by
    decide +kernel
  obtain ⟨s, hs, hobs⟩ := Option.map_eq_some_iff.mp hstep
  rw [Prod.mk.injEq] at hobs
  have hroom : (published s.gossip).toFinset.card < maxSeen := by
    rw [hobs.1]
    decide
  exact ⟨s, hobs.1, hobs.2,
    announces_of_run rfl (.cons (receives_of_stepEvent hs) (.nil _)) hroom⟩

/-- The mined block is appended, its rival becomes an orphan, and the child of the rival wins: then
the rival is canonical, and the subscribers have heard of its child but not of it. -/
theorem lightRival_unannounced : ∃ s s' : AppState,
    Runs.Run (Receives plainCore) app [deliveryOf minedBlock, deliveryOf lightRival] s ∧
    s.node.canonicalChain = [genesis, minedBlock] ∧
    Receives plainCore s (deliveryOf lightRivalChild) s' ∧
    s'.node.canonicalChain = [genesis, lightRival, lightRivalChild] ∧
    published s'.gossip = [minedBlock, lightRivalChild] ∧
    ¬ Announces plainCore s (deliveryOf lightRivalChild) s' := by
  have hrun : (runEvents (fun _ _ => True) app
      [.incoming (deliveryOf minedBlock), .incoming (deliveryOf lightRival)]).bind (fun s =>
        (stepEvent s (.incoming (deliveryOf lightRivalChild))).map fun s' =>
          (s.node.canonicalChain, joining plainCore s (deliveryOf lightRivalChild),
            s'.node.canonicalChain, published s'.gossip)) =
      some ([genesis, minedBlock], [lightRival, lightRivalChild],
        [genesis, lightRival, lightRivalChild], [minedBlock, lightRivalChild]) := by
    decide +kernel
  obtain ⟨s, hs, hrun⟩ := Option.bind_eq_some_iff.mp hrun
  obtain ⟨s', hs', hobs⟩ := Option.map_eq_some_iff.mp hrun
  simp only [Prod.mk.injEq] at hobs
  obtain ⟨hbefore, hjoining, hafter, hpublished⟩ := hobs
  obtain _ | ⟨hfirst, hrest⟩ := run_of_runEvents hs
  obtain _ | ⟨hsecond, hnil⟩ := hrest
  cases hnil
  refine ⟨s, s', .cons hfirst.1 (.cons hsecond.1 (.nil _)), hbefore, receives_of_stepEvent hs',
    hafter, hpublished, fun h => ?_⟩
  have hmem := h.2 lightRival (by rw [hjoining]; exact List.mem_cons_self)
  rw [hpublished] at hmem
  exact absurd hmem (by decide +kernel)

end Sample

end Lootcoin
