import Lootcoin.Node.Mirror
import Lootcoin.Node.Snapshots

/-! Archives.  A node that is given the blocks of a chain in order applies them all and stores
them with their checkpoints, so every chain that a fresh chain grows into is the canonical chain of
some node. -/

namespace Lootcoin

namespace Node

open Blockchain (Grows)

variable {core : Core} {env : Option ℚ} {pot : ℕ} {genesis : Block} {n : Node} {b : Block}
  {full full' : Blockchain}

/-- A node that tracks a chain, stores its blocks and no others, and has a checkpoint at every
height where one is due. -/
structure Archives (core : Core) (env : Option ℚ) (pot : ℕ) (genesis : Block) (n : Node)
    (full : Blockchain) : Prop where
  tracks : Tracks core env pot genesis n full
  stored : ∀ i, n.db.blocks.get i = full.blocks[i]?
  checkpoints : ∀ h < full.blocks.length, 0 < h → h % checkpointInterval = 0 →
    ∃ state, n.db.checkpoints.get h = some state

/-- The stored chain of an archive is its canonical chain. -/
theorem Archives.loadCanonicalChain (ha : Archives core env pot genesis n full) :
    n.db.loadCanonicalChain = n.canonicalChain :=
  (Mirrors.loadCanonicalChain ha.stored).trans ha.tracks.canonicalChain.symm

/-- A block that the chain of an archive accepts is applied and archived, and no block becomes an
orphan. -/
theorem Archives.delivers (ha : Archives core env pot genesis n full) (hfits : b.Fits)
    (hup : Blockchain.Appends core full b full') {ambient : Ambient}
    (htime : b.timestamp ≤ ambient.clock 0 + 120) :
    ∃ n', n.DeliversCompletely core ⟨b, ambient⟩ n' ∧ Archives core env pot genesis n' full' ∧
      n'.chain.orphanPool = n.chain.orphanPool := by
  obtain ⟨chain, hchain, -⟩ :=
    ha.tracks.pruned.accepts (Blockchain.updateState_at hup.choose_spec htime)
  have happ := Blockchain.appended_of_updateState hchain
  have hlast : chain.blocks.getLast? = some b := by rw [happ.blocks, List.getLast?_concat]
  obtain ⟨payouts, hprune⟩ := persistApplied_chain core ⟨chain, n.db⟩ b
  have hblocks := persistApplied_blocks core ⟨chain, n.db⟩ b
  obtain ⟨full'', hfull, -, ht'⟩ := ha.tracks.applied hfits hchain hprune hblocks
  -- the chain tracked now is the one given, which has the same blocks
  obtain ⟨rest, hrest, hgrow⟩ := ha.tracks.blocks
  obtain ⟨rest', hrest', hgrow'⟩ := ht'.blocks
  have heq : rest' = rest ++ [b] := by
    rw [hfull, hrest, List.cons_append, List.cons.injEq] at hrest'
    exact hrest'.2.symm
  rw [heq] at hgrow'
  obtain rfl := Grows.unique hgrow' (hgrow.snoc hup)
  have hindex : b.index = full.blocks.length := by
    rw [hup.appended.index, Blockchain.getHeight, ha.tracks.pruned.whole, Nat.zero_add]
  refine ⟨persistApplied core ⟨chain, n.db⟩ b, ⟨⟨hfits, .applied, ?_⟩, ?_⟩,
    ⟨ht', Mirrors.applied ha.stored hfull hindex hblocks, fun h hlt hpos hdue => ?_⟩, ?_⟩
  · refine applyBlock_eq_ok.mpr ⟨chain, ?_, .inl ⟨rfl, b, hlast, rfl⟩⟩
    exact Blockchain.applyInMemory_eq_ok.mpr (.inl ⟨rfl, hchain⟩)
  · intro fork ancestor hchosen
    have hno := (Blockchain.admits_eq_some.mp (Blockchain.chosenFork_eq_some.mp hchosen).1).1
    cases hchain.symm.trans hno
  · rw [persistApplied_checkpoints]
    rw [hfull, List.length_append, List.length_singleton] at hlt
    by_cases hb : h = b.index
    · rw [if_pos ⟨hb ▸ hpos, hb ▸ hdue⟩, hb, OrderedTable.get_insert]
      exact ⟨_, rfl⟩
    · obtain ⟨state, hstate⟩ := ha.checkpoints h (by omega) hpos hdue
      split
      · exact ⟨state, by rw [OrderedTable.get_insert_ne _ _ hb, hstate]⟩
      · exact ⟨state, hstate⟩
  · rw [hprune, Blockchain.pruneToWindow_orphanPool]
    exact happ.orphanPool

/-- Every chain that a fresh chain grows into is archived by a node that is given its blocks in
order, and that keeps no orphan. -/
theorem archives_of_grows {path : List Block} (hi : genesis.index = 0)
    (hgrow : Grows core (freshChain env pot genesis) path full) (hfits : ∀ b ∈ path, b.Fits)
    {ambient : Ambient} (htime : ∀ b ∈ path, b.timestamp ≤ ambient.clock 0 + 120) :
    ∃ n, Runs.Run (DeliversCompletely core) (fresh env pot genesis)
      (path.map fun b => ⟨b, ambient⟩) n ∧ Archives core env pot genesis n full ∧
      n.chain.orphanPool = ∅ := by
  induction path using List.reverseRecOn generalizing full with
  | nil =>
    cases hgrow
    have ht : Tracks core env pot genesis (fresh env pot genesis) (freshChain env pot genesis) :=
      tracks_fresh hi
    refine ⟨_, .nil _, ⟨ht, mirrors_fresh hi, fun h hlt hpos => ?_⟩, rfl⟩
    have : (freshChain env pot genesis).blocks.length = 1 := rfl
    omega
  | append_singleton path b ih =>
    obtain ⟨mid, hmid, hlast⟩ := hgrow.split
    obtain _ | ⟨hstep, hnil⟩ := hlast
    cases hnil
    obtain ⟨n, hrun, ha, hpool⟩ := ih hmid (fun x hx => hfits x (List.mem_append_left _ hx))
      fun x hx => htime x (List.mem_append_left _ hx)
    obtain ⟨n', hn', ha', hpool'⟩ := ha.delivers (hfits b (by simp)) hstep (htime b (by simp))
    refine ⟨n', ?_, ha', hpool'.trans hpool⟩
    rw [List.map_append]
    exact hrun.snoc hn'

end Node

end Lootcoin
