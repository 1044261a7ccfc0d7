import Lootcoin.Node.Sound
import Lootcoin.Sample

/-! The window over the operations on a chain: construction, the seeding of the pot, the application
of blocks, and restores from checkpoints.  All of them keep the window numbered, linked, and no
longer than it may be.  A restore leaves its block out of the hash table, which so is the map of the
window exactly while that block is not in it. -/

namespace Lootcoin

namespace Blockchain

variable {core : Core} {c c' : Blockchain} {apart : Option ℕ}

/-- The window is neither empty nor too long, and it is numbered from its offset and linked. -/
structure WindowChained (c : Blockchain) : Prop where
  nonempty : c.blocks ≠ []
  length_le : c.blocks.length ≤ reorgWindow
  index : ∀ i b, c.blocks[i]? = some b → b.index = c.blocksOffset + i
  linked : ∀ i b b', c.blocks[i]? = some b → c.blocks[i + 1]? = some b' → b'.previousHash = b.hash

/-- The hash table leads from the hashes of the window to the indices of their blocks, and from no
other hash anywhere. -/
def MapsWindow (c : Blockchain) : Prop :=
  ∀ h i, c.blockHashes.lookup h = some i ↔ ∃ b ∈ c.blocks, b.hash = h ∧ b.index = i

/-- The search for forks finds the block of the window that a fork follows. -/
def RecognizesForks (c : Blockchain) : Prop :=
  ∀ b ∈ c.blocks, ∀ db first, first.previousHash = b.hash → c.ancestorIndex db first = some b.index

/-- No block of the window has the index, if there is one. -/
def OutOfWindow (c : Blockchain) (apart : Option ℕ) : Prop :=
  ∀ i, apart = some i → i < c.blocksOffset

theorem MapsWindow.recognizesForks (h : c.MapsWindow) : c.RecognizesForks := by
  intro b hb db first hprev
  have hl : c.blockHashes.lookup first.previousHash = some b.index :=
    (h _ _).mpr ⟨b, hb, hprev.symm, rfl⟩
  rw [ancestorIndex, hl]

/-- A table that misses no block of the window is its map. -/
theorem WindowHashedApart.mapsWindow (hc : WindowHashedApart core apart c)
    (hs : WindowLinked core c) (hout : c.OutOfWindow apart) : c.MapsWindow := by
  intro h i
  constructor
  · intro hl
    obtain ⟨ho, b, hb, hbh⟩ := hs.hashes h i hl
    have hi := hs.index _ b hb
    exact ⟨b, List.mem_of_getElem? hb, hbh, by omega⟩
  · rintro ⟨b, hb, rfl, rfl⟩
    obtain ⟨i, hb⟩ := List.mem_iff_getElem?.mp hb
    rw [hs.index i b hb]
    apply hc.complete i b hb
    intro hapart
    have := hout _ hapart
    omega

/-- A fork that follows the block of the window that the table misses is taken for dangling. -/
theorem WindowHashedApart.not_recognizesForks (hc : WindowHashedApart core apart c)
    (hs : WindowLinked core c) (hin : ¬ c.OutOfWindow apart) : ¬ c.RecognizesForks := by
  unfold OutOfWindow at hin
  push Not at hin
  obtain ⟨i, hapart, hi⟩ := hin
  intro hall
  have hbelow := hc.below i hapart
  unfold getHeight at hbelow
  have hpos : i - c.blocksOffset < c.blocks.length := by omega
  have hb := List.getElem?_eq_getElem hpos
  have hindex := hs.index _ _ hb
  obtain ⟨b, hbdef⟩ : ∃ b, b = c.blocks[i - c.blocksOffset] := ⟨_, rfl⟩
  rw [← hbdef] at hb hindex
  -- a child of the block that the table misses
  have hchild := hall b (List.mem_of_getElem? hb) none
    { b with
      index := b.index + 1
      previousHash := b.hash } rfl
  rcases ancestorIndex_eq_some hchild with hl | ⟨-, -, -, read, -, -, hread, -⟩
  · exact hc.absent _ _ hl (by rw [hapart]; congr 1; omega)
  · cases hread

theorem length_pruneToWindow (c : Blockchain) : c.pruneToWindow.blocks.length ≤ reorgWindow := by
  rw [pruneToWindow_blocks, List.length_drop]
  unfold excess
  omega

end Blockchain

namespace Node

variable {core : Core} {env : Option ℚ} {genesis : Block}

/-! ### The operations -/

/-- What is done to the chain of a node after its construction. -/
inductive Operation where
  | seedPot (amount : ℕ)
  | applyBlock (d : Delivery)
  | restoreFromCheckpoint (chain : Blockchain) (height : ℕ) (state : CheckpointState)

/-- A node, and the height of the last restore if no reorganization has come after it. -/
structure Watched where
  node : Node
  restored : Option ℕ

/-- The steps. A restore of any chain, with any state, puts the stored block at its height in the
window. -/
inductive Operates (core : Core) : Watched → Operation → Watched → Prop
  | seedPot (s : Watched) (amount : ℕ) :
      Operates core s (.seedPot amount) ⟨⟨s.node.chain.seedPot amount, s.node.db⟩, s.restored⟩
  | applyBlock {s : Watched} {d : Delivery} {outcome : BlockOutcome} {n' : Node} :
      s.node.applyBlock core d.ambient d.block = .ok (outcome, n') →
      Operates core s (.applyBlock d) ⟨n', apartAfter s.restored outcome⟩
  | restoreFromCheckpoint {s : Watched} {chain : Blockchain} {height : ℕ} {state : CheckpointState}
      {b : Block} : s.node.db.blocks.get height = some b →
      Operates core s (.restoreFromCheckpoint chain height state)
        ⟨⟨chain.restoreFromCheckpoint height state b, s.node.db⟩, some height⟩

/-- A node as it is constructed, with a database that holds the genesis block. -/
def constructed (env : Option ℚ) (genesis : Block) : Watched :=
  ⟨⟨Blockchain.new env genesis, Db.empty.saveBlockIndexed genesis⟩, none⟩

/-- What every operation keeps. -/
structure Watches (core : Core) (s : Watched) : Prop where
  grounded : Grounded core s.node
  hashed : HashedApart core s.restored s.node
  length_le : s.node.chain.blocks.length ≤ reorgWindow

/-- After a delivery, the window is no longer than it may be. -/
theorem length_le_of_effect {ambient : Ambient} {n n' : Node} {b : Block} {outcome : BlockOutcome}
    (hn : n.chain.blocks.length ≤ reorgWindow) (h : Effect core ambient n b n' outcome) :
    n'.chain.blocks.length ≤ reorgWindow := by
  cases h with
  | applied _ hchain _ => exact hchain ▸ Blockchain.length_pruneToWindow _
  | rejected _ _ heq => exact heq ▸ hn
  | orphaned _ _ heq => exact heq ▸ hn
  | reorged _ hchain _ => exact hchain ▸ Blockchain.length_pruneToWindow _

/-- A restored chain holds the block of the checkpoint, and an empty hash table. -/
theorem windowLinked_restored (chain : Blockchain) {height : ℕ} (state : CheckpointState)
    {b : Block} (hi : b.index = height) :
    (chain.restoreFromCheckpoint height state b).WindowLinked core where
  nonempty := List.cons_ne_nil _ _
  index := by
    intro i x hx
    simp only [Blockchain.restoreFromCheckpoint, List.getElem?_singleton] at hx ⊢
    split at hx
    · cases hx
      omega
    · cases hx
  linked := by
    intro i x y _ hy
    simp [Blockchain.restoreFromCheckpoint] at hy
  hashes := by
    intro h i hl
    simp [Blockchain.restoreFromCheckpoint] at hl
  pool := by
    intro h x hl
    simp [Blockchain.restoreFromCheckpoint] at hl

theorem windowHashedApart_restored (chain : Blockchain) (height : ℕ) (state : CheckpointState)
    {b : Block} (hv : Blockchain.HashValid core b) :
    (chain.restoreFromCheckpoint height state b).WindowHashedApart core (some height) where
  valid := by
    intro x hx
    rw [List.mem_singleton.mp hx]
    exact hv
  complete := by
    intro i x hx hapart
    simp only [Blockchain.restoreFromCheckpoint, List.getElem?_singleton] at hx
    split at hx
    · rename_i hi
      rw [hi] at hapart
      exact absurd rfl hapart
    · cases hx
  absent := by
    intro h i hl
    simp [Blockchain.restoreFromCheckpoint] at hl
  below := by
    intro i hi
    cases hi
    exact Nat.lt_succ_self height

theorem Watches.step {s s' : Watched} {op : Operation} (hs : Watches core s)
    (hcore : core.CollisionFree) (h : Operates core s op s') : Watches core s' := by
  cases h with
  | seedPot amount =>
    exact ⟨⟨windowLinked_congr hs.grounded.window rfl rfl rfl rfl, hs.grounded.stored,
      hs.grounded.genesis⟩, ⟨windowHashedApart_congr hs.hashed.window rfl rfl rfl,
      hs.hashed.stored⟩, hs.length_le⟩
  | applyBlock happ =>
    have heff := effect_of_applyBlock happ
    exact ⟨hs.grounded.step heff, hs.hashed.step hcore hs.grounded heff,
      length_le_of_effect hs.length_le heff⟩
  | restoreFromCheckpoint hb =>
    exact ⟨⟨windowLinked_restored _ _ (hs.grounded.stored _ _ hb), hs.grounded.stored,
      hs.grounded.genesis⟩, ⟨windowHashedApart_restored _ _ _ (hs.hashed.stored _ _ hb),
      hs.hashed.stored⟩, show 1 ≤ reorgWindow by decide⟩

theorem watches_constructed (hi : genesis.index = 0) (hv : Blockchain.HashValid core genesis) :
    Watches core (constructed env genesis) where
  grounded := by
    have hfresh : Sound core (fresh env 0 genesis) := sound_fresh hi
    exact ⟨windowLinked_congr hfresh.grounded.window rfl rfl rfl rfl, hfresh.stored,
      hfresh.genesis⟩
  hashed := by
    refine ⟨(windowHashed_congr (Blockchain.windowHashed_reset
      (c := Blockchain.new env genesis) hv) rfl rfl rfl).hashedApart, fun i b hb => ?_⟩
    have hfresh : (fresh env 0 genesis).db.blocks.get i = some b := hb
    obtain ⟨-, rfl⟩ := get_fresh hfresh
    exact hv
  length_le := show 1 ≤ reorgWindow by decide

/-- In every state that the operations lead to, the window is numbered, linked, and no longer than
it may be. Its hash table is the map of the window, and every fork that attaches to the window is
recognized, exactly when no block of the window was put there by a restore. -/
theorem window_of_run (hcore : core.CollisionFree) (hi : genesis.index = 0)
    (hv : Blockchain.HashValid core genesis) {ops : List Operation} {s : Watched}
    (run : Runs.Run (Operates core) (constructed env genesis) ops s) :
    s.node.chain.WindowChained ∧
    (s.node.chain.MapsWindow ↔ s.node.chain.OutOfWindow s.restored) ∧
    (s.node.chain.RecognizesForks ↔ s.node.chain.OutOfWindow s.restored) := by
  have hs : Watches core s :=
    run.invariant (fun h hs => hs.step hcore h) (watches_constructed hi hv)
  have hlinked := hs.grounded.window
  have hhashed := hs.hashed.window
  have hfails : s.node.chain.RecognizesForks → s.node.chain.OutOfWindow s.restored := by
    intro h
    by_contra hin
    exact hhashed.not_recognizesForks hlinked hin h
  refine ⟨⟨hlinked.nonempty, hs.length_le, hlinked.index, hlinked.linked⟩,
    ⟨fun h => hfails h.recognizesForks, hhashed.mapsWindow hlinked⟩, hfails, fun h => ?_⟩
  exact (hhashed.mapsWindow hlinked h).recognizesForks

end Node

namespace Sample

/-- The node after an operation. -/
def operate (s : Node.Watched) : Node.Operation → Option Node.Watched
  | .seedPot amount => some ⟨⟨s.node.chain.seedPot amount, s.node.db⟩, s.restored⟩
  | .applyBlock d => ((s.node.applyBlock plainCore d.ambient d.block).toOption).map fun r =>
      ⟨r.2, Node.apartAfter s.restored r.1⟩
  | .restoreFromCheckpoint chain height state => (s.node.db.blocks.get height).map fun b =>
      ⟨⟨chain.restoreFromCheckpoint height state b, s.node.db⟩, some height⟩

theorem operates {s s' : Node.Watched} {op : Node.Operation} (h : operate s op = some s') :
    Node.Operates plainCore s op s' := by
  cases op with
  | seedPot amount =>
    cases h
    exact .seedPot s amount
  | applyBlock d =>
    obtain ⟨⟨outcome, n⟩, happ, rfl⟩ := Option.map_eq_some_iff.mp h
    exact .applyBlock (Fallible.toOption_eq_some.mp happ)
  | restoreFromCheckpoint chain height state =>
    obtain ⟨b, hb, rfl⟩ := Option.map_eq_some_iff.mp h
    exact .restoreFromCheckpoint hb

/-- A node applies a block and is restored from a checkpoint at it. -/
def restoreOperations : List Node.Operation :=
  [.seedPot Node.genesisPotAmount, .applyBlock ⟨mainBlock, around 1748000160⟩,
    .restoreFromCheckpoint node.chain 1 node.chain.snapshot]

/-- Then it is given a rival of the block. -/
def rebuildOperations : List Node.Operation :=
  restoreOperations ++ [.applyBlock ⟨rivalBlock, around 1748000160⟩]

/-- A child of the block. -/
def mainChild : Block := block 2 mainBlock.hash 1748000120 33

/-- After the restore, a reorganization to a rival of the block builds the whole table again. -/
theorem rebuilt_mapsWindow : ∃ s : Node.Watched,
    s.node.chain.blocks = [genesis, rivalBlock] ∧ s.node.chain.MapsWindow ∧
    s.node.chain.RecognizesForks := by
  have hrun : (rebuildOperations.foldlM operate (Node.constructed none genesis)).map (fun s =>
      (s.node.chain.blocks, s.restored)) = some ([genesis, rivalBlock], none) := by
    decide +kernel
  obtain ⟨s, hs, hend⟩ := Option.map_eq_some_iff.mp hrun
  obtain ⟨hblocks, hrestored⟩ := Prod.mk.inj hend
  obtain ⟨-, hmaps, hforks⟩ := Node.window_of_run plainCore_collisionFree rfl (.inr ⟨rfl, rfl⟩)
    (Runs.run_of_foldlM operates hs)
  have hout : s.node.chain.OutOfWindow s.restored := by
    rw [hrestored]
    exact nofun
  exact ⟨s, hblocks, hmaps.mpr hout, hforks.mpr hout⟩

/-- After the restore, the table does not have the restored block, and its child is dangling. -/
theorem restored_not_mapsWindow : ∃ s : Node.Watched,
    Runs.Run (Node.Operates plainCore) (Node.constructed none genesis) restoreOperations s ∧
    s.node.chain.blocks = [mainBlock] ∧ ¬ s.node.chain.MapsWindow ∧
    s.node.chain.ancestorIndex (some s.node.db.reader) mainChild = none := by
  have hrun : (restoreOperations.foldlM operate (Node.constructed none genesis)).map (fun s =>
      (s.node.chain.blocks, s.node.chain.blockHashes.lookup mainBlock.hash,
        s.node.chain.ancestorIndex (some s.node.db.reader) mainChild)) =
      some ([mainBlock], none, none) := by
    decide +kernel
  obtain ⟨s, hs, hend⟩ := Option.map_eq_some_iff.mp hrun
  simp only [Prod.mk.injEq] at hend
  obtain ⟨hblocks, hlookup, hancestor⟩ := hend
  refine ⟨s, Runs.run_of_foldlM operates hs, hblocks, fun hmaps => ?_, hancestor⟩
  have hmem : mainBlock ∈ s.node.chain.blocks := hblocks ▸ List.mem_singleton_self mainBlock
  have := (hmaps mainBlock.hash mainBlock.index).mpr ⟨mainBlock, hmem, rfl, rfl⟩
  rw [hlookup] at this
  cases this

end Sample

end Lootcoin
