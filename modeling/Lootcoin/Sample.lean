import Lootcoin.Node
import Lootcoin.PlainCore

/-! Nodes over the transparent `Core`, and runs of them in which every chosen fork replays
completely. -/

namespace Lootcoin

namespace Sample

/-- The surroundings at a time, with the pool in the order of insertion. -/
def around (now : ℕ) : Ambient := ⟨fun _ => now, .default⟩

/-- A genesis block as the main network has it, and the node that starts from it. -/
def genesis : Block := Node.mainnetGenesis (littleEndian 8 1)

def node : Node := Node.fresh none Node.genesisPotAmount genesis

/-- Two blocks on the genesis block, of which the rival shows more work, and a child of the
rival. -/
def mainBlock : Block := block 1 [] 1748000060 32
def rivalBlock : Block := block 1 [] 1748000061 33
def rivalChild : Block := block 2 rivalBlock.hash 1748000121 33

/-! ### Runs -/

/-- The node after deliveries that pass a check, or nothing when one does not. -/
def runChecked (core : Core) (check : Node → Node.Delivery → Prop)
    [∀ n d, Decidable (check n d)] : Node → List Node.Delivery → Option Node
  | n, [] => some n
  | n, d :: ds =>
    match n.applyBlock core d.ambient d.block with
    | .error _ => none
    | .ok (_, n') => if d.block.Fits ∧ check n d then runChecked core check n' ds else none

theorem run_of_runChecked {core : Core} {check : Node → Node.Delivery → Prop}
    [∀ n d, Decidable (check n d)] {n n' : Node} {ds : List Node.Delivery}
    (h : runChecked core check n ds = some n') :
    Runs.Run (fun n d n' => Node.Delivers core n d n' ∧ check n d) n ds n' := by
  induction ds generalizing n with
  | nil =>
    cases h
    exact .nil _
  | cons d ds ih =>
    rw [runChecked] at h
    split at h
    · cases h
    · rename_i outcome m happ
      split at h
      · rename_i hcheck
        exact .cons ⟨⟨hcheck.1, outcome, happ⟩, hcheck.2⟩ (ih h)
      · cases h

/-- The node after deliveries whose forks replay completely, or nothing when one does not. -/
def runCompletely : Node → List Node.Delivery → Option Node :=
  runChecked plainCore fun n d =>
    n.chain.ForkReplays plainCore d.ambient d.block (some n.db.reader)

theorem run_of_runCompletely {n n' : Node} {ds : List Node.Delivery}
    (h : runCompletely n ds = some n') :
    Runs.Run (Node.DeliversCompletely plainCore) n ds n' :=
  run_of_runChecked h

end Sample

end Lootcoin
