import OneChain.Consensus.Commit

/-!
# The DAG state

`DagState` holds the accepted blocks: recent ones in memory, older ones in the store. This file has
its fields, what it answers about blocks, and how accepting a block, committing and flushing change
it. Metrics and wall-clock times are left out.

A store holds blocks, commits, commit infos and finalised commits; reading it does not fail.
-/

namespace OneChain.Consensus

open Lib

variable {n : ℕ} {C : Committee n}

/-! ## Context -/

/-- What the validators of an epoch share besides the committee. -/
structure Protocol (n : ℕ) where
  gcDepth : ℕ
  mysticetiNumLeadersPerRound : Option ℕ
  genesisTimestampMs : ℕ
  genesisDigest : Fin n → BlockDigest
  commitDigest : CommitV1 n → ℕ

structure Context (n : ℕ) where
  ownIndex : Fin n
  protocol : Protocol n
  dagStateCachedRounds : ℕ

/-- `genesis_blocks`, in the order of the authorities. -/
def genesisBlocks (C : Committee n) (protocol : Protocol n) : List (Block n) :=
  (List.finRange n).map fun author =>
    { epoch := C.epoch, round := genesisRound, author, timestampMs := protocol.genesisTimestampMs,
      ancestors := [], transactions := [], transactionVotes := [],
      digest := protocol.genesisDigest author }

def genesisMap (C : Committee n) (protocol : Protocol n) : OrdMap (BlockRef n) (Block n) :=
  (genesisBlocks C protocol).foldl (fun m b => m.insert b.reference b) .empty

/-! ## The threshold clock -/

structure ThresholdClock (C : Committee n) where
  aggregator : StakeAggregator C
  round : ℕ
  deriving DecidableEq

/-- Counts the block, and tells whether the round has advanced. -/
def ThresholdClock.addBlock (clock : ThresholdClock C) (block : BlockRef n) :
    ThresholdClock C × Bool :=
  if block.round < clock.round then (clock, false)
  else if block.round = clock.round then
    if (clock.aggregator.add block.author).2 then (⟨.new, block.round + 1⟩, true)
    else (⟨(clock.aggregator.add block.author).1, clock.round⟩, false)
  else
    let added := StakeAggregator.new.add block.author
    (⟨added.1, if added.2 then block.round + 1 else block.round⟩, true)

/-! ## The store -/

structure Store (n : ℕ) where
  blocks : OrdMap (BlockRef n) (Block n)
  commits : OrdMap CommitRef (TrustedCommit n)
  commitInfo : OrdMap CommitRef (CommitInfo n)
  finalizedCommits : OrdMap CommitRef (RejectedTransactions n)

structure WriteBatch (n : ℕ) where
  blocks : List (Block n)
  commits : List (TrustedCommit n)
  commitInfo : List (CommitRef × CommitInfo n)
  finalizedCommits : List (CommitRef × RejectedTransactions n)

namespace Store

def empty : Store n := ⟨.empty, .empty, .empty, .empty⟩

variable (store : Store n)

def write (batch : WriteBatch n) : Store n where
  blocks := batch.blocks.foldl (fun m b => m.insert b.reference b) store.blocks
  commits := batch.commits.foldl (fun m c => m.insert c.reference c) store.commits
  commitInfo := batch.commitInfo.foldl (fun m e => m.insert e.1 e.2) store.commitInfo
  finalizedCommits := batch.finalizedCommits.foldl (fun m e => m.insert e.1 e.2)
    store.finalizedCommits

def scanBlocksByAuthor (authority : Fin n) (startRound : ℕ) : List (Block n) :=
  (store.blocks.filter fun r _ => r.author = authority ∧ startRound ≤ r.round).values

def readLastCommit : Option (TrustedCommit n) := store.commits.last?.map Prod.snd

/-- The commits with an index from `start` to `stop`, both inclusive. -/
def scanCommits (start stop : ℕ) : List (TrustedCommit n) :=
  (store.commits.filter fun r _ => start ≤ r.index ∧ r.index ≤ stop).values

def readLastCommitInfo : Option (CommitRef × CommitInfo n) := store.commitInfo.last?

end Store

/-! ## The state -/

structure BlockInfo (n : ℕ) where
  block : Block n
  (committed hardLinked : Bool)
  deriving DecidableEq

def BlockInfo.new (block : Block n) : BlockInfo n := ⟨block, false, false⟩

structure DagState (C : Committee n) where
  context : Context n
  genesis : OrdMap (BlockRef n) (Block n)
  recentBlocks : OrdMap (BlockRef n) (BlockInfo n)
  recentRefsByAuthority : Fin n → OrdSet (BlockRef n)
  thresholdClock : ThresholdClock C
  evictedRounds : Fin n → ℕ
  highestAcceptedRound : ℕ
  lastCommit : Option (TrustedCommit n)
  lastCommittedRounds : Fin n → ℕ
  scoringSubdag : ScoringSubdag C
  pendingCommitVotes : List CommitRef
  blocksToWrite : List (Block n)
  commitsToWrite : List (TrustedCommit n)
  commitInfoToWrite : List (CommitRef × CommitInfo n)
  finalizedCommitsToWrite : List (CommitRef × RejectedTransactions n)
  store : Store n
  cachedRounds : ℕ

namespace DagState

/-! ## Reading blocks -/

variable (d : DagState C)

/-- The round of the last commit's leader. -/
def lastCommitRound : ℕ :=
  match d.lastCommit with
  | some commit => commit.leader.round
  | none => 0

def lastCommitIndex : ℕ :=
  match d.lastCommit with
  | some commit => commit.index
  | none => 0

def lastCommitDigest : ℕ :=
  match d.lastCommit with
  | some commit => commit.digest
  | none => 0

def lastCommitTimestampMs : ℕ :=
  match d.lastCommit with
  | some commit => commit.timestampMs
  | none => 0

def calculateGcRound (commitRound : ℕ) : ℕ := commitRound - d.context.protocol.gcDepth

def gcRound : ℕ := d.calculateGcRound d.lastCommitRound

variable (r : BlockRef n)

/-- Genesis blocks from the genesis map, others from the cache, then from the store. -/
def getBlock : Option (Block n) :=
  if r.round = genesisRound then d.genesis.get? r
  else
    match d.recentBlocks.get? r with
    | some info => some info.block
    | none => d.store.blocks.get? r

def getUncommittedBlocksAtSlot (slot : Slot n) : List (Block n) :=
  ((d.recentBlocks.filter fun r _ => r.slot = slot).values).map BlockInfo.block

def getUncommittedBlocksAtRound (round : ℕ) :
    Except (Panic n) (List (Block n)) := do
  check (d.lastCommitRound < round) (.roundHasCommittedBlocks round)
  pure (((d.recentBlocks.filter fun r _ => r.round = round).values).map BlockInfo.block)

def insertAll (linked : OrdSet (BlockRef n)) (refs : List (BlockRef n)) : OrdSet (BlockRef n) :=
  refs.foldl (fun s r => s.insert r ()) linked

/-- The highest reference is replaced by its ancestors until none is above `earlierRound`. -/
def ancestorsLoop (d : DagState C) (earlierRound : ℕ) :
    ℕ → OrdSet (BlockRef n) → Except (Panic n) (OrdSet (BlockRef n))
  | 0, _ => .error .outOfFuel
  | fuel + 1, linked =>
    match linked.last? with
    | none => .ok linked
    | some (r, _) =>
      if r.round ≤ earlierRound then .ok linked
      else do
        let block ← require (d.getBlock r) (.blockShouldExistInDag r)
        ancestorsLoop d earlierRound fuel (insertAll (linked.erase r) block.ancestors)

/-- Enough for a loop that visits each block at most once. -/
def fuel : ℕ := d.recentBlocks.entries.length + d.store.blocks.entries.length + 1

/-- All ancestors in the history of a block at a certain round. -/
def ancestorsAtRound (laterBlock : Block n) (earlierRound : ℕ) :
    Except (Panic n) (List (Block n)) := do
  let linked ← d.ancestorsLoop earlierRound d.fuel (insertAll .empty laterBlock.ancestors)
  (linked.filter fun r _ => earlierRound ≤ r.round).keys.mapM fun r =>
    require (d.getBlock r) (.blockShouldExistInDag r)

/-- The cache answers for every reference above its last one; only others are looked up. -/
def containsBlock : Bool :=
  let recentRefs := d.recentRefsByAuthority r.author
  if r ∈ recentRefs ∨ r ∈ d.genesis then true
  else
    match recentRefs.last? with
    | none => false
    | some (last, _) => if last.round < r.round then false else r ∈ d.store.blocks

variable (authority : Fin n)

def getLastBlockForAuthority : Except (Panic n) (Block n) :=
  match (d.recentRefsByAuthority authority).last? with
  | some (last, _) => do
    let info ← require (d.recentBlocks.get? last) (.blockNotInCache last)
    pure info.block
  | none =>
    match d.genesis.entries.find? fun e => e.1.author = authority with
    | some (_, block) => .ok block
    | none => .error (.genesisNotFound authority)

/-! ## Accepting blocks -/

/-- The latency of a new quorum is measured against the last proposed block. -/
def updateBlockMetadata (block : Block n) : Except (Panic n) (DagState C) := do
  let r := block.reference
  let added := d.thresholdClock.addBlock r
  let d := { d with
    recentBlocks := d.recentBlocks.insert r (.new block)
    recentRefsByAuthority := Function.update d.recentRefsByAuthority r.author
      ((d.recentRefsByAuthority r.author).insert r ())
    thresholdClock := added.1 }
  if added.2 then
    let _ ← d.getLastBlockForAuthority d.context.ownIndex
  pure { d with highestAcceptedRound := max d.highestAcceptedRound block.round }

/-- A validator has at most one block of its own in a slot. -/
def acceptBlock (block : Block n) : Except (Panic n) (DagState C) := do
  check (block.round ≠ 0) .genesisBlockAccepted
  if d.containsBlock block.reference then pure d
  else
    check (block.author = d.context.ownIndex → d.getUncommittedBlocksAtSlot block.slot = [])
      (.ownSlotTaken block.reference)
    let d ← d.updateBlockMetadata block
    pure { d with blocksToWrite := d.blocksToWrite ++ [block] }

def acceptBlocks (blocks : List (Block n)) : Except (Panic n) (DagState C) :=
  blocks.foldlM acceptBlock d

/-! ## Committing -/

/-- Marks the block and tells whether it was not marked before. -/
def setCommitted : Except (Panic n) (DagState C × Bool) := do
  let info ← require (d.recentBlocks.get? r) (.blockNotInCache r)
  if info.committed then pure (d, false)
  else
    pure ({ d with recentBlocks := d.recentBlocks.insert r { info with committed := true } }, true)

/-- Marks a block that must not be marked before. -/
def markCommitted : Except (Panic n) (DagState C) := do
  let marked ← d.setCommitted r
  check (marked.2 = true) (.committedTwice r)
  pure marked.1

def isCommitted : Except (Panic n) Bool := do
  let info ← require (d.recentBlocks.get? r) (.blockNotInCache r)
  pure info.committed

/-- The highest committed round of each author. -/
def raiseCommittedRounds (rounds : Fin n → ℕ) (blocks : List (BlockRef n)) : Fin n → ℕ :=
  blocks.foldl (fun rounds r => Function.update rounds r.author (max (rounds r.author) r.round))
    rounds

/-- A commit that follows the last one. -/
def checkNextCommit (commit : TrustedCommit n) : Except (Panic n) Unit :=
  match d.lastCommit with
  | some lastCommit => do
    check (commit.index = lastCommit.index + 1) (.commitIndexSkipped commit.index)
    check (lastCommit.timestampMs ≤ commit.timestampMs) (.commitTimestampDecreased commit.index)
  | none => check (commit.index = 1) (.commitIndexSkipped commit.index)

/-- The state with the commit added. -/
def withCommit (commit : TrustedCommit n) : DagState C :=
  { d with
    lastCommit := some commit
    lastCommittedRounds := raiseCommittedRounds d.lastCommittedRounds commit.blocks
    pendingCommitVotes := d.pendingCommitVotes ++ [commit.reference]
    commitsToWrite := d.commitsToWrite ++ [commit] }

/-- A commit with an old index is reported and ignored. -/
def addCommit (commit : TrustedCommit n) : Except (Panic n) (DagState C) :=
  if (d.lastCommit.any fun lastCommit => commit.index ≤ lastCommit.index) then .ok d
  else do
    d.checkNextCommit commit
    pure (d.withCommit commit)

def addScoringSubdags (subdags : List (CommittedSubDag n)) :
    Except (Panic n) (DagState C) := do
  let scoringSubdag ← d.scoringSubdag.addSubdags subdags
  pure { d with scoringSubdag }

def clearScoringSubdag : DagState C := { d with scoringSubdag := .new }

def addCommitInfo (reputationScores : ReputationScores n) :
    Except (Panic n) (DagState C) := do
  check d.scoringSubdag.isEmpty .scoringSubdagNotEmpty
  let lastCommit ← require d.lastCommit .noLastCommit
  pure { d with
    commitInfoToWrite :=
      d.commitInfoToWrite ++ [(lastCommit.reference, ⟨d.lastCommittedRounds, reputationScores⟩)] }

/-- `update_leader_schedule_v2`, as far as the DAG state is concerned. -/
def updateLeaderSchedule : Except (Panic n) (DagState C) := do
  let reputationScores ← d.scoringSubdag.calculateDistributedVoteScores
  d.clearScoringSubdag.addCommitInfo reputationScores

def addFinalizedCommit (commitRef : CommitRef)
    (rejectedTransactions : RejectedTransactions n) : DagState C :=
  { d with
    finalizedCommitsToWrite := d.finalizedCommitsToWrite ++ [(commitRef, rejectedTransactions)] }

/-! ## Flushing -/

def evictionRound (lastRound gcRound cachedRounds : ℕ) : ℕ := min gcRound (lastRound - cachedRounds)

def calculateAuthorityEvictionRound : ℕ :=
  let lastRound :=
    match (d.recentRefsByAuthority authority).last? with
    | some (last, _) => last.round
    | none => genesisRound
  evictionRound lastRound d.gcRound d.cachedRounds

/-- Drops the authority's references up to the eviction round, lowest first. -/
def evictAuthority : DagState C :=
  let evictionRound := d.calculateAuthorityEvictionRound authority
  let evicted := (d.recentRefsByAuthority authority).keys.takeWhile (·.round ≤ evictionRound)
  { d with
    recentBlocks := evicted.foldl OrdMap.erase d.recentBlocks
    recentRefsByAuthority := Function.update d.recentRefsByAuthority authority
      ((d.recentRefsByAuthority authority).popWhile (·.round ≤ evictionRound))
    evictedRounds := Function.update d.evictedRounds authority evictionRound }

/-- The state with everything written, before the eviction. -/
def withWritten : DagState C :=
  { d with
    store := d.store.write
      ⟨d.blocksToWrite, d.commitsToWrite, d.commitInfoToWrite, d.finalizedCommitsToWrite⟩
    blocksToWrite := []
    commitsToWrite := []
    commitInfoToWrite := []
    finalizedCommitsToWrite := [] }

def flush : DagState C :=
  if d.blocksToWrite = [] ∧ d.commitsToWrite = [] ∧ d.commitInfoToWrite.isEmpty ∧
      d.finalizedCommitsToWrite.isEmpty then d
  else (List.finRange n).foldl evictAuthority d.withWritten

end DagState

end OneChain.Consensus
