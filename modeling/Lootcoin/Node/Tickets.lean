import Lootcoin.Chain.Supply
import Lootcoin.Node.Canonical

/-! The life of a lottery ticket.  The pending tickets are those that the last blocks of the
canonical chain earned, a block settles the ticket issued a whole reveal before it and no other,
and the window then holds every hash of that reveal. -/

namespace Lootcoin

namespace Blockchain

variable {core : Core} {now : ℕ} {c c' : Blockchain} {b : Block} {l : List Block}

/-- The tickets of a chain of blocks that have not matured: their blocks lie at most a reveal below
the height. -/
def ticketsDue (l : List Block) : List LootTicket :=
  (l.filterMap ticketOf).filter fun t => l.length ≤ t.createdHeight + revealBlocks

/-- A block earns a ticket exactly when it has a coinbase and a transfer. The ticket names the
receiver of the coinbase and the index of the block. -/
theorem ticketOf_eq_some {t : LootTicket} : ticketOf b = some t ↔
    ∃ tx rest, b.transactions = tx :: rest ∧ tx.isCoinbase = true ∧
      (∃ x ∈ b.transactions, x.isCoinbase = false) ∧ t = ⟨tx.receiver, b.index⟩ := by
  unfold ticketOf extractMinerAddress
  cases htx : b.transactions with
  | nil => simp
  | cons tx rest =>
    cases hc : tx.isCoinbase with
    | true =>
      simp only [List.any_cons, hc, Bool.not_true, Bool.false_or, List.any_eq_true,
        Bool.not_eq_true', List.head?_cons, Option.bind_some, if_true, Option.map_some,
        Option.ite_none_right_eq_some, Option.some.injEq, List.cons.injEq, List.mem_cons,
        exists_eq_or_imp, Bool.true_eq_false, false_or]
      constructor
      · rintro ⟨hx, rfl⟩
        exact ⟨tx, rest, ⟨rfl, rfl⟩, hc, hx, rfl⟩
      · rintro ⟨_, _, ⟨rfl, rfl⟩, -, hx, rfl⟩
        exact ⟨hx, rfl⟩
    | false => simp [hc]

theorem createdHeight_of_ticketOf {t : LootTicket} (h : ticketOf b = some t) :
    t.createdHeight = b.index := by
  obtain ⟨tx, rest, -, -, -, rfl⟩ := ticketOf_eq_some.mp h
  rfl

/-- The next block moves on the tickets that are due: its own is added, and the one that matures
is gone. -/
theorem ticketsDue_append (hb : b.index = l.length) : ticketsDue (l ++ [b]) =
    ((ticketsDue l).filter fun t => ¬ t.createdHeight + revealBlocks = b.index) ++
      (ticketOf b).toList := by
  unfold ticketsDue
  rw [List.filterMap_append, List.filter_append, List.filter_filter]
  congr 1
  · apply List.filter_congr
    intro t _
    rw [List.length_append, List.length_singleton, ← Bool.decide_and, decide_eq_decide]
    omega
  · cases ht : ticketOf b with
    | none => simp [ht]
    | some t =>
      have hcreated := createdHeight_of_ticketOf ht
      have hpos : 0 < revealBlocks := by decide
      simp [ht, hcreated, hb]
      omega

theorem Appended.pendingTickets (h : Appended core c b c') :
    c'.pendingTickets = c.stillPending b.index ++ (ticketOf b).toList := by
  obtain ⟨payouts, hadv⟩ := h.advance
  exact DerivedState.advance_pendingTickets hadv

/-- A whole chain holds the tickets that its blocks leave due. -/
theorem Grows.pendingTickets {bs : List Block} (h : Grows core c bs c')
    (ho : c.blocksOffset = 0) (hc : c.pendingTickets = ticketsDue c.blocks) :
    c'.pendingTickets = ticketsDue c'.blocks := by
  refine (h.invariant (P := fun d => d.blocksOffset = 0 ∧ d.pendingTickets = ticketsDue d.blocks)
    ?_ ⟨ho, hc⟩).2
  rintro d x d' hstep ⟨hdo, hd⟩
  have ha := hstep.appended
  have hindex : x.index = d.blocks.length := by
    rw [ha.index, Blockchain.getHeight, hdo, Nat.zero_add]
  refine ⟨ha.blocksOffset.trans hdo, ?_⟩
  rw [ha.pendingTickets, ha.blocks, ticketsDue_append hindex, ← hd]
  rfl

/-- The tickets of a chain with canonical blocks `l`: exactly one is pending for each block of the
last reveal that earned one, an append removes a ticket exactly when the ticket is a reveal old,
and then the window knows the hashes of the whole reveal. -/
structure TicketsOnTime (core : Core) (l : List Block) (c : Blockchain) : Prop where
  pending : c.pendingTickets = ticketsDue l
  nodup : (c.pendingTickets.map fun t => t.createdHeight).Nodup
  range : ∀ t ∈ c.pendingTickets,
    c.getHeight ≤ t.createdHeight + revealBlocks ∧ t.createdHeight < c.getHeight
  settled : ∀ now b c', c.updateState core now b = .ok (some c') → ∀ t ∈ c.pendingTickets,
    (t ∉ c'.pendingTickets ↔ b.index = t.createdHeight + revealBlocks)
  entropy : ∀ t ∈ c.toSettle c.getHeight, ∀ i < revealBlocks,
    ∃ x, l[t.createdHeight + i]? = some x ∧ c.blockHashAt (t.createdHeight + i) = some x.hash

theorem createdHeight_lt (hindex : ∀ (i : ℕ) (x : Block), l[i]? = some x → x.index = i)
    {t : LootTicket} (ht : t ∈ l.filterMap ticketOf) : t.createdHeight < l.length := by
  obtain ⟨x, hx, hxt⟩ := List.mem_filterMap.mp ht
  obtain ⟨i, hi⟩ := List.mem_iff_getElem?.mp hx
  rw [createdHeight_of_ticketOf hxt, hindex i x hi]
  exact (List.getElem?_eq_some_iff.mp hi).1

theorem createdHeights_sublist (l : List Block) :
    ((l.filterMap ticketOf).map fun t => t.createdHeight).Sublist (l.map fun b => b.index) := by
  induction l with
  | nil => exact List.Sublist.slnil
  | cons b l ih =>
    cases ht : ticketOf b with
    | none => simpa [List.filterMap_cons, ht] using ih.cons b.index
    | some t => simpa [List.filterMap_cons, ht, createdHeight_of_ticketOf ht] using ih

/-- Blocks numbered from zero earn their tickets at rising heights. -/
theorem sorted_createdHeights (hindex : ∀ (i : ℕ) (x : Block), l[i]? = some x → x.index = i) :
    ((l.filterMap ticketOf).map fun t => t.createdHeight).Pairwise (· < ·) := by
  have hrange : (l.map fun b => b.index) = List.range l.length := by
    apply List.ext_getElem?
    intro i
    rw [List.getElem?_map]
    by_cases hlt : i < l.length
    · have hx := List.getElem?_eq_getElem hlt
      rw [hx, Option.map_some, hindex i _ hx, List.getElem?_range hlt]
    · rw [List.getElem?_eq_none (Nat.not_lt.mp hlt), List.getElem?_eq_none (by simpa using hlt)]
      rfl
  exact (hrange ▸ List.pairwise_lt_range).sublist (createdHeights_sublist l)

theorem nodup_createdHeights (hindex : ∀ (i : ℕ) (x : Block), l[i]? = some x → x.index = i) :
    ((l.filterMap ticketOf).map fun t => t.createdHeight).Nodup :=
  (sorted_createdHeights hindex).imp Nat.ne_of_lt

/-- A pruned chain keeps its tickets on time. -/
theorem PrunedFrom.ticketsOnTime {full : Blockchain} (h : PrunedFrom full c)
    (hfull : full.pendingTickets = ticketsDue full.blocks)
    (hindex : ∀ (i : ℕ) (x : Block), full.blocks[i]? = some x → x.index = i) :
    TicketsOnTime core full.blocks c := by
  have hpending : c.pendingTickets = ticketsDue full.blocks := by rw [h.derived, hfull]
  have hheight : c.getHeight = full.blocks.length := h.length
  have hrange : ∀ t ∈ c.pendingTickets,
      c.getHeight ≤ t.createdHeight + revealBlocks ∧ t.createdHeight < c.getHeight := by
    intro t ht
    rw [hpending, ticketsDue, List.mem_filter, decide_eq_true_eq] at ht
    rw [hheight]
    exact ⟨ht.2, createdHeight_lt hindex ht.1⟩
  refine ⟨hpending, ?_, hrange, fun now b c' hup t ht => ?_, fun t ht i hi => ?_⟩
  · rw [hpending, ticketsDue]
    exact (nodup_createdHeights hindex).sublist (List.filter_sublist.map _)
  · have ha := appended_of_updateState hup
    have hbelow := (hrange t ht).2
    rw [ha.pendingTickets, List.mem_append, not_or, DerivedState.stillPending, List.mem_filter]
    constructor
    · rintro ⟨hout, -⟩
      by_contra hne
      exact hout ⟨ht, by simpa using fun heq => hne heq.symm⟩
    · intro heq
      refine ⟨fun hin => ?_, fun hin => ?_⟩
      · simp [heq] at hin
      · have := createdHeight_of_ticketOf (Option.mem_toList.mp hin)
        rw [ha.index] at this
        omega
  · have hage : t.createdHeight + revealBlocks = c.getHeight := by
      simpa using (List.mem_filter.mp ht).2
    have hlt : t.createdHeight + i < full.blocks.length := by omega
    have hwindow : c.blocksOffset ≤ t.createdHeight + i := by
      -- the window reaches back a whole reveal, or holds the whole chain
      have hle := revealBlocks_le_reorgWindow
      rw [getHeight] at hage
      rcases h.long with hz | hlong <;> omega
    refine ⟨_, List.getElem?_eq_getElem hlt, ?_⟩
    rw [h.blockHashAt hwindow, Blockchain.blockHashAt, h.whole, if_neg (Nat.not_lt_zero _),
      Nat.sub_zero, List.getElem?_eq_getElem hlt]
    rfl

end Blockchain

namespace Node

variable {core : Core} {env : Option ℚ} {n : Node}

/-- The genesis block of the main network earns no ticket. -/
theorem ticketsDue_mainnetGenesis (root : Bytes) :
    Blockchain.ticketsDue [mainnetGenesis root] = [] := rfl

/-- In a run from the main network's genesis block whose forks replay completely, the tickets of
every chain that the node holds, and of every chain that a reorganization passes through, are on
time. -/
theorem ticketsOnTime_of_run {root : Bytes} {ds : List Delivery}
    (run : Runs.Run (DeliversCompletely core) (fresh env genesisPotAmount (mainnetGenesis root))
      ds n) :
    Blockchain.TicketsOnTime core n.canonicalChain n.chain ∧
      ∀ rest c, Blockchain.Grows core (n.chain.reset (mainnetGenesis root)) rest c →
        Blockchain.TicketsOnTime core c.blocks c := by
  have hi : (mainnetGenesis root).index = 0 := rfl
  obtain ⟨-, full, ht⟩ := consistent_of_run hi (by decide) run
  constructor
  · obtain ⟨rest, -, hgrow⟩ := ht.blocks
    rw [ht.canonicalChain]
    refine ht.pruned.ticketsOnTime ?_ fun i x hx => ht.index rfl hx
    exact hgrow.pendingTickets rfl (ticketsDue_mainnetGenesis root).symm
  · intro rest c hgrow
    have hreset : (n.chain.reset (mainnetGenesis root)).WindowSound core :=
      Blockchain.windowSound_reset hi
    have hsound := hreset.grows hgrow
    have hwhole : c.blocksOffset = 0 := hgrow.blocksOffset
    refine (Blockchain.PrunedFrom.refl hsound.nonempty hwhole).ticketsOnTime ?_ fun i x hx => ?_
    · exact hgrow.pendingTickets rfl (ticketsDue_mainnetGenesis root).symm
    · rw [hsound.index i x hx, hwhole, Nat.zero_add]

end Node

namespace Sample

/-! ### A chain whose draws win

The first block pays its miner for a transfer and so earns a ticket, and the empty blocks above it
reveal the draw. -/

/-- A hash of 32 bytes shows 25 zero bits and the numbers of its header. -/
def winningHash (h : Header) : Bytes :=
  [0, 0, 0, 64] ++ littleEndian 8 h.index ++ littleEndian 8 h.timestamp ++ littleEndian 8 h.nonce ++
    h.txRoot.take 4

/-- Every draw wins the jackpot. -/
def winningCore : Core :=
  { plainCore with
    calculateHash := fun h => if HeaderFits h then some (winningHash h) else none
    digest := fun _ => ⟨littleEndian 8 999999 ++ List.replicate 24 0, by decide⟩ }

def winningHashed (b : Block) : Block := { b with hash := winningHash b.toHeader }

/-- The pay of a miner and a transfer. -/
def earning : List Transaction :=
  [coins "" "miner" 1 0 9, coins Node.genesisAddress "payee" 10 2 1]

/-- The blocks above the genesis block, from the one that earns the ticket. -/
def winningBlock : ℕ → Block
  | 0 => winningHashed (blockOf earning 1 [] 1748000060 25)
  | k + 1 => winningHashed (block (k + 2) (winningBlock k).hash (1748000060 + 60 * (k + 1)) 25)

def winningDelivery (k : ℕ) : Node.Delivery := ⟨winningBlock k, around 1748060000⟩

/-- The deliveries of the blocks below the one that settles the ticket. -/
def winningDeliveries : List Node.Delivery := (List.range revealBlocks).map winningDelivery

/-- One ticket is pending below the block that settles it, and the pot pays it a five-hundredth. -/
theorem winning_ticketsOnTime : ∃ n n' : Node,
    n.chain.toSettle n.chain.getHeight = [⟨"miner", 1⟩] ∧ n.chain.pot = 99000001 ∧
    (Blockchain.TicketsOnTime winningCore n.canonicalChain n.chain ∧
      ∀ rest c, Blockchain.Grows winningCore (n.chain.reset genesis) rest c →
        Blockchain.TicketsOnTime winningCore c.blocks c) ∧
    n'.chain.pendingTickets = [] ∧ n'.chain.pot = 98802001 ∧
    (Blockchain.TicketsOnTime winningCore n'.canonicalChain n'.chain ∧
      ∀ rest c, Blockchain.Grows winningCore (n'.chain.reset genesis) rest c →
        Blockchain.TicketsOnTime winningCore c.blocks c) := by
  have hrun : ((runChecked winningCore
      (fun n d => n.chain.ForkReplays winningCore d.ambient d.block (some n.db.reader)) node
      winningDeliveries).bind fun n => (runChecked winningCore
        (fun n d => n.chain.ForkReplays winningCore d.ambient d.block (some n.db.reader)) n
        [winningDelivery revealBlocks]).map fun n' =>
          (n.chain.toSettle n.chain.getHeight, n.chain.pot, n'.chain.pendingTickets,
            n'.chain.pot)) = some ([⟨"miner", 1⟩], 99000001, [], 98802001) := by
    decide +kernel
  obtain ⟨n, hn, hrun⟩ := Option.bind_eq_some_iff.mp hrun
  obtain ⟨n', hn', hobs⟩ := Option.map_eq_some_iff.mp hrun
  simp only [Prod.mk.injEq] at hobs
  obtain ⟨hsettles, hpot, hpending, hpot'⟩ := hobs
  exact ⟨n, n', hsettles, hpot, Node.ticketsOnTime_of_run (run_of_runChecked hn), hpending, hpot',
    Node.ticketsOnTime_of_run ((run_of_runChecked hn).append (run_of_runChecked hn'))⟩

end Sample

end Lootcoin
