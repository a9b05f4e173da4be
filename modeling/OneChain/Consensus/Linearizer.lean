import OneChain.Consensus.DagState

/-!
# The linearizer

`linearizer.rs` expands each committed leader into a sub-dag: the blocks of its history that are
above the GC round and were not committed before, in the order of rounds and authors. The traversal
is a stack of blocks whose ancestors have not been looked at; a block is marked in the DAG state
when it is put on the stack.

The source is generic in the block store, so that tests can replace the DAG state. It is stated here
for the DAG state. The metric of pruned blocks is left out.
-/

namespace OneChain.Consensus

open Lib

variable {n : ℕ} {C : Committee n}

/-! ## Timestamps -/

/-- The first timestamp at which more than half of the stake is reached, and `last` without one. -/
def medianLoop (half : ℕ) (last : ℕ) : ℕ → List (ℕ × ℕ) → ℕ
  | _, [] => last
  | cumulativeStake, (ts, stake) :: rest =>
    if half < cumulativeStake + stake then ts
    else medianLoop half last (cumulativeStake + stake) rest

def medianTimestampsByStakeInner (timestamps : List (ℕ × ℕ)) (totalStake : ℕ) : ℕ :=
  let timestamps := timestamps.insertionSort fun a b => a.1 ≤ b.1
  medianLoop (totalStake / 2) ((timestamps.getLast?.map Prod.fst).getD 0) 0 timestamps

def medianTimestampByStake (C : Committee n) (blocks : List (Block n)) : Except MedianError ℕ := do
  let timestamps := blocks.map fun block => (block.timestampMs, C.stake block.author)
  let totalStake := (timestamps.map Prod.snd).sum
  check (timestamps ≠ []) .noBlocks
  check (C.quorumThreshold ≤ totalStake) (.lowStake totalStake C.quorumThreshold)
  pure (medianTimestampsByStakeInner timestamps totalStake)

/-! ## The order in a sub-dag -/

/-- By round, then by author; the sort is stable. -/
def sortSubDagBlocks (blocks : List (Block n)) : List (Block n) :=
  blocks.insertionSort fun a b => a.round < b.round ∨ a.round = b.round ∧ a.author ≤ b.author

namespace DagState

variable (d : DagState C)

variable (leaderBlock : Block n)

/-- The median of the leader's parents, but no less than the last commit's timestamp. -/
def calculateCommitTimestamp (lastCommitTimestampMs : ℕ) :
    Except (Panic n) ℕ := do
  let blockRefs := leaderBlock.ancestors.filter fun r => r.round = leaderBlock.round - 1
  let blocks ← blockRefs.mapM fun r => require (d.getBlock r) (.missingInDagState r)
  match medianTimestampByStake C blocks with
  | .ok timestampMs => pure (max timestampMs lastCommitTimestampMs)
  | .error e => .error (.noMedianTimestamp leaderBlock.reference e)

/-! ## Sub-dags -/

/-- The ancestors above the GC round that are not committed. -/
def uncommittedAncestors (gcRound : ℕ) (x : Block n) :
    Except (Panic n) (List (Block n)) := do
  let refs ← filterE (fun ancestor =>
    if gcRound < ancestor.round then do
      let committed ← d.isCommitted ancestor
      pure !committed
    else pure false) x.ancestors
  refs.mapM fun r => require (d.getBlock r) (.missingInDagState r)

/-- The loop over the buffer; the block that was pushed last comes first. -/
def traverse (gcRound : ℕ) : ℕ → DagState C → List (Block n) → List (Block n) →
      Except (Panic n) (DagState C × List (Block n))
  | 0, _, _, _ => .error .outOfFuel
  | _ + 1, d, [], toCommit => .ok (d, toCommit)
  | fuel + 1, d, x :: buffer, toCommit => do
    let ancestors ← d.uncommittedAncestors gcRound x
    let d ← ancestors.foldlM (fun d ancestor => d.markCommitted ancestor.reference) d
    traverse gcRound fuel d (ancestors.reverse ++ buffer) (toCommit ++ [x])

def linearizeSubDag :
    Except (Panic n) (DagState C × List (Block n)) := do
  let gcRound := d.gcRound
  let d ← d.markCommitted leaderBlock.reference
  let result ← traverse gcRound d.fuel d [leaderBlock] []
  check (∀ block ∈ result.2, gcRound < block.round) (.belowGcRound gcRound leaderBlock.reference)
  pure (result.1, sortSubDagBlocks result.2)

/-- The commit that follows the last one, and its sub-dag. -/
def collectSubDagAndCommit :
    Except (Panic n) (DagState C × CommittedSubDag n × TrustedCommit n) := do
  let lastCommitIndex := d.lastCommitIndex
  let lastCommitDigest := d.lastCommitDigest
  let lastCommitTimestampMs := d.lastCommitTimestampMs
  let linearized ← d.linearizeSubDag leaderBlock
  let timestampMs ← linearized.1.calculateCommitTimestamp leaderBlock lastCommitTimestampMs
  let commit := TrustedCommit.newTrusted d.context.protocol.commitDigest
    ⟨lastCommitIndex + 1, lastCommitDigest, timestampMs, leaderBlock.reference,
      linearized.2.map Block.reference⟩
  pure (linearized.1, .new leaderBlock.reference linearized.2 timestampMs commit.reference, commit)

/-- One leader of `handle_commit`. -/
def commitLeader (state : DagState C × List (CommittedSubDag n)) (leaderBlock : Block n) :
    Except (Panic n) (DagState C × List (CommittedSubDag n)) := do
  let collected ← state.1.collectSubDagAndCommit leaderBlock
  let d ← collected.1.addCommit collected.2.2
  pure (d, state.2 ++ [collected.2.1])

/-- The sub-dags of committed leaders, one after the other. -/
def handleCommit (committedLeaders : List (Block n)) :
    Except (Panic n) (DagState C × List (CommittedSubDag n)) :=
  committedLeaders.foldlM commitLeader (d, [])

end DagState

end OneChain.Consensus
