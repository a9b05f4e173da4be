import OneChain.Authority.Transactions
import OneChain.Lib.RefCount

/-!
# The consensus output quarantine

`consensus_quarantine.rs`: the output of a consensus commit stays in memory until the checkpoints
built from it have been executed, so that nothing of a commit is on disk before its checkpoints are
certified. Outputs wait in a queue; what they wrote is read from reference-counted maps, and from
the database where these have nothing.

A batch is written under the lock of the quarantine, by `commit` and by the caller of
`update_highest_executed_checkpoint`, so here it goes to the database at once. Of an output, the
parts that are only written to the database and not read through the quarantine's maps are left out,
except the commit's statistics and the active JWKs, on which the write makes assertions.
-/

namespace OneChain.Authority

open Lib

/-- A `SequencedConsensusTransactionKey`, which is only compared. -/
abbrev ConsensusMessageKey := ℕ

/-- `CongestionPerObjectDebt::V1`. -/
structure CongestionPerObjectDebt where
  (round debt : ℕ)
  deriving DecidableEq

structure ConsensusCommitOutput where
  consensusRound : ℕ
  consensusMessagesProcessed : OrdSet ConsensusMessageKey
  /-- The last committed round of the commit's statistics. -/
  consensusCommitStats : Option ℕ
  nextSharedObjectVersions : Option (OrdMap ConsensusObjectSequenceKey ℕ)
  /-- The heights of the pending checkpoints. -/
  pendingCheckpoints : List ℕ
  /-- The rounds that the active JWKs are recorded for. -/
  activeJwks : List ℕ
  (congestionControlObjectDebts congestionControlRandomnessObjectDebts : List (ObjectID × ℕ))

def ConsensusCommitOutput.getHighestPendingCheckpointHeight (output : ConsensusCommitOutput) :
    Option ℕ :=
  output.pendingCheckpoints.getLast?

/-- The tables that outputs and built checkpoints are written to. -/
structure EpochTables where
  consensusMessageProcessed : OrdSet ConsensusMessageKey
  nextSharedObjectVersions : OrdMap ConsensusObjectSequenceKey ℕ
  congestionControlObjectDebts : OrdMap ObjectID CongestionPerObjectDebt
  congestionControlRandomnessObjectDebts : OrdMap ObjectID CongestionPerObjectDebt
  builderDigestToCheckpoint : OrdMap TransactionDigest ℕ
  builderCheckpointHeight : OrdMap ℕ (Option ℕ)
  /-- History: the outputs written so far, in the order of their writes. -/
  written : List ConsensusCommitOutput

/-- Of a built checkpoint: its height, none for genesis, and the digests of its contents. -/
structure BuilderCheckpoint where
  checkpointHeight : Option ℕ
  contents : List TransactionDigest
  deriving DecidableEq

structure ConsensusOutputQuarantine where
  outputQueue : List ConsensusCommitOutput
  highestExecutedCheckpoint : ℕ
  builderCheckpointSummary : OrdMap ℕ BuilderCheckpoint
  builderDigestToCheckpoint : OrdMap TransactionDigest ℕ
  sharedObjectNextVersions : RefMap ConsensusObjectSequenceKey ℕ
  congestionControlRandomnessObjectDebts : RefMap ObjectID CongestionPerObjectDebt
  congestionControlObjectDebts : RefMap ObjectID CongestionPerObjectDebt
  processedConsensusMessages : RefMap ConsensusMessageKey Unit

/-- The assertions of the commit loop. -/
inductive QuarantinePanic
  | notInBuilderDigestToCheckpoint (digest : TransactionDigest)
  | otherCheckpoint (digest : TransactionDigest)
  | noCheckpointHeight (sequence : ℕ)
  | checkpointHeightDecreased (sequence : ℕ)
  | nextVersionNotFound (key : ConsensusObjectSequenceKey)
  | commitStatsNotSet
  | otherJwkRound
  | staleDebt (object : ObjectID)
  deriving DecidableEq

/-! ## What an output writes -/

namespace ConsensusCommitOutput

variable (output : ConsensusCommitOutput)

def nextVersionWrites : List (ConsensusObjectSequenceKey × ℕ) :=
  (output.nextSharedObjectVersions.map (·.entries)).getD []

def messageWrites : List (ConsensusMessageKey × Unit) := output.consensusMessagesProcessed.entries

/-- Debts are recorded with the round of the commit. -/
def debtWrites (debts : List (ObjectID × ℕ)) : List (ObjectID × CongestionPerObjectDebt) :=
  debts.map fun e => (e.1, ⟨output.consensusRound, e.2⟩)

/-- What a written output does to the tables. -/
def write (tables : EpochTables) (output : ConsensusCommitOutput) : EpochTables :=
  { tables with
    consensusMessageProcessed := writeAll tables.consensusMessageProcessed output.messageWrites
    nextSharedObjectVersions := writeAll tables.nextSharedObjectVersions output.nextVersionWrites
    congestionControlObjectDebts := writeAll tables.congestionControlObjectDebts
      (output.debtWrites output.congestionControlObjectDebts)
    congestionControlRandomnessObjectDebts :=
      writeAll tables.congestionControlRandomnessObjectDebts
        (output.debtWrites output.congestionControlRandomnessObjectDebts)
    written := tables.written ++ [output] }

/-- `write_to_batch`. -/
def writeToBatch (tables : EpochTables) :
    Except QuarantinePanic EpochTables := do
  let round ← require output.consensusCommitStats .commitStatsNotSet
  check (∀ r ∈ output.activeJwks, r = round) .otherJwkRound
  pure (write tables output)

end ConsensusCommitOutput

namespace ConsensusOutputQuarantine

def new (highestExecutedCheckpoint : ℕ) : ConsensusOutputQuarantine :=
  ⟨[], highestExecutedCheckpoint, .empty, .empty, .empty, .empty, .empty, .empty⟩

/-! ## Inserting and removing -/

variable (q : ConsensusOutputQuarantine)

/-- The three `insert_*` of a pushed output. -/
def insertOutput (output : ConsensusCommitOutput) : ConsensusOutputQuarantine :=
  { q with
    sharedObjectNextVersions := q.sharedObjectNextVersions.insertAll output.nextVersionWrites
    congestionControlObjectDebts := q.congestionControlObjectDebts.insertAll
      (output.debtWrites output.congestionControlObjectDebts)
    congestionControlRandomnessObjectDebts := q.congestionControlRandomnessObjectDebts.insertAll
      (output.debtWrites output.congestionControlRandomnessObjectDebts)
    processedConsensusMessages := q.processedConsensusMessages.insertAll output.messageWrites }

/-- `remove_shared_object_next_versions`, over the keys of the output. -/
def removeNextVersions (m : RefMap ConsensusObjectSequenceKey ℕ)
    (keys : List ConsensusObjectSequenceKey) :
    Except QuarantinePanic (RefMap ConsensusObjectSequenceKey ℕ) :=
  keys.foldlM (fun m k => do
    check ((m.remove k).2 = true) (.nextVersionNotFound k)
    pure (m.remove k).1) m

/-- What is left of an output, its next versions aside. -/
def withoutOutput (output : ConsensusCommitOutput)
    (nextVersions : RefMap ConsensusObjectSequenceKey ℕ) : ConsensusOutputQuarantine :=
  { q with
    sharedObjectNextVersions := nextVersions
    processedConsensusMessages :=
      q.processedConsensusMessages.removeAll (output.messageWrites.map Prod.fst)
    congestionControlObjectDebts := q.congestionControlObjectDebts.removeAll
      (output.congestionControlObjectDebts.map Prod.fst)
    congestionControlRandomnessObjectDebts := q.congestionControlRandomnessObjectDebts.removeAll
      (output.congestionControlRandomnessObjectDebts.map Prod.fst) }

/-- The three `remove_*` of an output that leaves the queue. -/
def removeOutput (output : ConsensusCommitOutput) :
    Except QuarantinePanic ConsensusOutputQuarantine := do
  let nextVersions ← removeNextVersions q.sharedObjectNextVersions
    (output.nextVersionWrites.map Prod.fst)
  pure (q.withoutOutput output nextVersions)

/-! ## Committing -/

/-- A transaction of a committed checkpoint. -/
def commitDigest (sequence : ℕ) (digests : OrdMap TransactionDigest ℕ)
    (digest : TransactionDigest) : Except QuarantinePanic (OrdMap TransactionDigest ℕ) := do
  let found ← require (digests.get? digest) (.notInBuilderDigestToCheckpoint digest)
  check (found = sequence) (.otherCheckpoint digest)
  pure (digests.erase digest)

/-- The variables of the loop over the built checkpoints. -/
structure BuilderCommit where
  digests : OrdMap TransactionDigest ℕ
  tables : EpochTables
  highestCommittedHeight : Option ℕ

/-- A built checkpoint at or below the watermark. -/
def commitCheckpoint (state : BuilderCommit) (entry : ℕ × BuilderCheckpoint) :
    Except QuarantinePanic BuilderCommit := do
  let digests ← entry.2.contents.foldlM (commitDigest entry.1) state.digests
  let tables := { state.tables with
    builderDigestToCheckpoint := writeAll state.tables.builderDigestToCheckpoint
      (entry.2.contents.map fun digest => (digest, entry.1))
    builderCheckpointHeight :=
      state.tables.builderCheckpointHeight.insert entry.1 entry.2.checkpointHeight }
  let height ← require entry.2.checkpointHeight (.noCheckpointHeight entry.1)
  check (∀ highest ∈ state.highestCommittedHeight.toList, highest ≤ height)
    (.checkpointHeightDecreased entry.1)
  pure ⟨digests, tables, some height⟩

/-- The loop over the outputs: those whose pending checkpoints are all at or below the committed
height leave the queue for the database. -/
def commitOutputs (highestCommittedHeight : ℕ) :
    List ConsensusCommitOutput → ConsensusOutputQuarantine × EpochTables →
    Except QuarantinePanic (ConsensusOutputQuarantine × EpochTables)
  | [], state => pure ({ state.1 with outputQueue := [] }, state.2)
  | output :: queue, state =>
    match output.getHighestPendingCheckpointHeight with
    | none => pure ({ state.1 with outputQueue := output :: queue }, state.2)
    | some highestInCommit =>
      if highestInCommit ≤ highestCommittedHeight then do
        let q ← state.1.removeOutput output
        let tables ← output.writeToBatch state.2
        commitOutputs highestCommittedHeight queue (q, tables)
      else pure ({ state.1 with outputQueue := output :: queue }, state.2)

variable (tables : EpochTables)

/-- `commit_with_batch`. -/
def commitWithBatch :
    Except QuarantinePanic (ConsensusOutputQuarantine × EpochTables) := do
  let below := q.builderCheckpointSummary.entries.takeWhile (·.1 ≤ q.highestExecutedCheckpoint)
  let state ← below.foldlM commitCheckpoint ⟨q.builderDigestToCheckpoint, tables, none⟩
  let q := { q with
    builderDigestToCheckpoint := state.digests
    builderCheckpointSummary := q.builderCheckpointSummary.popWhile
      (fun sequence => sequence ≤ q.highestExecutedCheckpoint) }
  match state.highestCommittedHeight with
  | none => pure (q, state.tables)
  | some height => commitOutputs height q.outputQueue (q, state.tables)

/-! ## The calls -/

def pushConsensusOutput (output : ConsensusCommitOutput) :
    Except QuarantinePanic (ConsensusOutputQuarantine × EpochTables) :=
  let q := q.insertOutput output
  commitWithBatch { q with outputQueue := q.outputQueue ++ [output] } tables

def insertBuilderSummary (sequence : ℕ)
    (checkpoint : BuilderCheckpoint) : ConsensusOutputQuarantine :=
  { q with
    builderDigestToCheckpoint := checkpoint.contents.foldl
      (fun m digest => m.insert digest sequence) q.builderDigestToCheckpoint
    builderCheckpointSummary := q.builderCheckpointSummary.insert sequence checkpoint }

def updateHighestExecutedCheckpoint
    (checkpoint : ℕ) : Except QuarantinePanic (ConsensusOutputQuarantine × EpochTables) :=
  commitWithBatch { q with highestExecutedCheckpoint := checkpoint } tables

/-! ## Reading with the database behind -/

/-- `get_next_shared_object_versions`. -/
def getNextSharedObjectVersions (objects : List ConsensusObjectSequenceKey) : List (Option ℕ) :=
  objects.map fun k =>
    (q.sharedObjectNextVersions.get k).or (tables.nextSharedObjectVersions.get? k)

/-- `is_consensus_message_processed`. -/
def isConsensusMessageProcessed (key : ConsensusMessageKey) : Bool :=
  q.processedConsensusMessages.containsKey key || decide (key ∈ tables.consensusMessageProcessed)

/-- `load_initial_object_debts`, for the sorted ids of the shared inputs. A stored debt accounts for
the budget of its own round; that of the rounds since is taken off here. -/
def loadInitialObjectDebts
    (currentRound perCommitBudget : ℕ) (forRandomness : Bool) (objects : List ObjectID) :
    Except QuarantinePanic (List (ObjectID × ℕ)) :=
  let (hashTable, dbTable) :=
    if forRandomness then
      (q.congestionControlRandomnessObjectDebts, tables.congestionControlRandomnessObjectDebts)
    else (q.congestionControlObjectDebts, tables.congestionControlObjectDebts)
  (objects.filterMap fun id => ((hashTable.get id).or (dbTable.get? id)).map (id, ·)).mapM
    fun (id, debt) => do
      check (debt.round < currentRound) (.staleDebt id)
      pure (id, debt.debt - perCommitBudget * (currentRound - debt.round - 1))

end ConsensusOutputQuarantine

end OneChain.Authority
