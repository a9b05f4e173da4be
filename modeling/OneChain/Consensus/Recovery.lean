import OneChain.Consensus.DagState

/-!
# Recovery of the DAG state

`DagState::new` rebuilds the state from the store: the committed rounds and the unscored sub-dags
from the commits after the last commit info, the blocks of each authority above its eviction round,
the marks of committed blocks from the last commit backwards, and the links from the validator's own
blocks.
-/

namespace OneChain.Consensus

open Lib

variable {n : ℕ} {C : Committee n}

namespace Store

/-- The last blocks of an authority, up to the highest round. -/
def scanLastBlocksByAuthor (store : Store n) (authority : Fin n) (numOfRounds : ℕ) :
    List (Block n) :=
  let blocks := store.scanBlocksByAuthor authority 0
  blocks.drop (blocks.length - numOfRounds)

def loadCommittedSubdag (store : Store n) (commit : TrustedCommit n)
    (reputationScoresDesc : List (Fin n × ℕ)) : Except (Panic n) (CommittedSubDag n) := do
  let blocks ← commit.blocks.mapM fun r => require (store.blocks.get? r) (.blockNotFoundInStorage r)
  check (∃ block ∈ blocks, block.reference = commit.leader) .leaderNotInSubDag
  pure { CommittedSubDag.new commit.leader blocks commit.timestampMs commit.reference with
    reputationScoresDesc }

end Store

namespace DagState

/-! ## Links -/

variable (d : DagState C)

/-- Marks a block as linked and tells its ancestors, unless it was linked before. -/
def linkBlock (r : BlockRef n) :
    Except (Panic n) (DagState C × Option (List (BlockRef n))) := do
  let info ← require (d.recentBlocks.get? r) (.notInDagState r)
  if info.hardLinked then pure (d, none)
  else
    pure ({ d with recentBlocks := d.recentBlocks.insert r { info with hardLinked := true } },
      some info.block.ancestors)

/-- The loop over the targets, first in first out. -/
def linkLoop (gcRound : ℕ) : ℕ → DagState C → List (BlockRef n) → List (BlockRef n) →
      Except (Panic n) (DagState C × List (BlockRef n))
  | 0, _, _, _ => .error .outOfFuel
  | _ + 1, d, [], linkedBlocks => .ok (d, linkedBlocks)
  | fuel + 1, d, r :: targets, linkedBlocks =>
    if r.round ≤ gcRound then linkLoop gcRound fuel d targets linkedBlocks
    else do
      let linked ← d.linkBlock r
      match linked.2 with
      | none => linkLoop gcRound fuel linked.1 targets linkedBlocks
      | some ancestors =>
        linkLoop gcRound fuel linked.1 (targets ++ ancestors) (linkedBlocks ++ [r])

/-- Enough for a loop that looks at the ancestors of each cached block at most once. -/
def linkFuel : ℕ := (d.recentBlocks.values.map fun info => info.block.ancestors.length).sum + 2

/-- The blocks in the history of the root block that are newly linked. -/
def linkCausalHistory (rootBlock : BlockRef n) :
    Except (Panic n) (DagState C × List (BlockRef n)) :=
  linkLoop d.gcRound d.linkFuel d [rootBlock] []

/-! ## Recovery -/

/-- The committed rounds of the last commit info, and the index of the first commit after it. -/
def recoverCommitInfo (store : Store n) : (Fin n → ℕ) × ℕ :=
  match store.readLastCommitInfo with
  | some (commitRef, commitInfo) => (commitInfo.committedRounds, commitRef.index + 1)
  | none => (fun _ => 0, genesisCommitIndex + 1)

/-- The commits after the last commit info. -/
def unscoredCommits (store : Store n) : List (TrustedCommit n) :=
  match store.readLastCommit with
  | some lastCommit => store.scanCommits (recoverCommitInfo store).2 lastCommit.index
  | none => []

/-- The state before any block is loaded. -/
def newWithoutBlocks (C : Committee n) (context : Context n) (store : Store n)
    (lastCommittedRounds : Fin n → ℕ) (scoringSubdag : ScoringSubdag C) : DagState C where
  context
  genesis := genesisMap C context.protocol
  recentBlocks := .empty
  recentRefsByAuthority := fun _ => .empty
  thresholdClock := ⟨.new, 1⟩
  evictedRounds := fun _ => 0
  highestAcceptedRound := 0
  lastCommit := store.readLastCommit
  lastCommittedRounds
  scoringSubdag
  pendingCommitVotes := []
  blocksToWrite := []
  commitsToWrite := []
  commitInfoToWrite := []
  finalizedCommitsToWrite := []
  store
  cachedRounds := context.dagStateCachedRounds

/-- Loads the blocks of an authority above its eviction round. -/
def recoverAuthority (authority : Fin n) : Except (Panic n) (DagState C) :=
  let lastBlockRound :=
    ((d.store.scanLastBlocksByAuthor authority 1).getLast?.map Block.round).getD genesisRound
  let evictionRound := evictionRound lastBlockRound d.gcRound d.cachedRounds
  let blocks := d.store.scanBlocksByAuthor authority (evictionRound + 1)
  blocks.foldlM updateBlockMetadata
    { d with evictedRounds := Function.update d.evictedRounds authority evictionRound }

/-- The loop from a commit backwards, until a leader is at or below the GC round. -/
def recoverStatuses (gcRound : ℕ) (index : ℕ) (d : DagState C) : Except (Panic n) (DagState C) :=
  match (d.store.scanCommits index index).head? with
  | none => .ok d
  | some commit =>
    if 0 < gcRound ∧ commit.leader.round ≤ gcRound then .ok d
    else do
      let d ← (commit.blocks.filter fun r => gcRound < r.round).foldlM markCommitted d
      match index with
      | 0 => .ok d
      | index + 1 => if index = 0 then .ok d else recoverStatuses gcRound index d

def recoverCommitStatuses : Except (Panic n) (DagState C) :=
  match d.lastCommit with
  | some lastCommit => recoverStatuses d.gcRound lastCommit.index d
  | none => .ok d

/-- `DagState::new`. -/
def new (C : Committee n) (context : Context n) (store : Store n) :
    Except (Panic n) (DagState C) := do
  let commits := unscoredCommits store
  let lastCommittedRounds := commits.foldl
    (fun rounds commit => raiseCommittedRounds rounds commit.blocks) (recoverCommitInfo store).1
  let subdags ← commits.mapM fun commit => store.loadCommittedSubdag commit []
  let scoringSubdag ← ScoringSubdag.new.addSubdags subdags
  let d := newWithoutBlocks C context store lastCommittedRounds scoringSubdag
  let d ← (List.finRange n).foldlM recoverAuthority d
  let d ← d.recoverCommitStatuses
  (d.store.scanBlocksByAuthor context.ownIndex (d.gcRound + 1)).foldlM
    (fun d block => do pure (← d.linkCausalHistory block.reference).1) d

end DagState

end OneChain.Consensus
