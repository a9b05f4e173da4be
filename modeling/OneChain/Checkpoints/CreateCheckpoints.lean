import OneChain.Authority.Transactions

/-!
# Building checkpoint summaries

`CheckpointBuilder::create_checkpoints`: the effects of a group of pending checkpoints, in the order
in which they go into checkpoints, are split into chunks, and every chunk becomes a checkpoint that
continues the chain from the last one built. The last chunk of the last pending checkpoint of an
epoch gets the advance-epoch transaction appended and carries the end-of-epoch data.

Digests and serialized sizes are given by functions of which nothing is assumed (`Encoding`), and so
is the outcome of the advance-epoch transaction. Sequence numbers, timestamps and transaction counts
are plain numbers. Metrics, the observation keys handed to the advance-epoch transaction and the
wait for consensus messages are left out.
-/

namespace OneChain.Checkpoints

open Lib Authority

/-! ## Summaries and contents -/

structure ExecutionDigests where
  transaction : TransactionDigest
  effects : ℕ
  deriving DecidableEq

def executionDigests (effects : TransactionEffects) : ExecutionDigests :=
  ⟨effects.transactionDigest, effects.digest⟩

structure CheckpointContents where
  transactions : List ExecutionDigests
  userSignatures : List (List Signature)
  deriving DecidableEq

def CheckpointContents.size (contents : CheckpointContents) : ℕ := contents.transactions.length

structure EndOfEpochData where
  nextEpochCommittee : List (ℕ × ℕ)
  nextEpochProtocolVersion : ℕ
  epochCommitments : List ℕ
  deriving DecidableEq

/-- `CheckpointSummary`; `versionSpecificData` is `none` where the code writes no bytes. -/
structure CheckpointSummary where
  (epoch sequenceNumber networkTotalTransactions contentDigest : ℕ)
  previousDigest : Option ℕ
  epochRollingGasCostSummary : GasCostSummary
  endOfEpochData : Option EndOfEpochData
  timestampMs : ℕ
  versionSpecificData : Option (List ℕ)
  deriving DecidableEq

/-- Hashes and serialized sizes. -/
structure Encoding where
  summaryDigest : CheckpointSummary → ℕ
  contentsDigest : CheckpointContents → ℕ
  effectsSize : TransactionEffects → ℕ
  signaturesSize : List Signature → ℕ

structure BuilderConfig where
  (maxTransactionsPerCheckpoint maxCheckpointSizeBytes : ℕ)
  enforceCheckpointTimestampMonotonicity : Bool
  checkpointSummaryVersionSpecificData : Option ℕ
  checkCommitRootStateDigestSupported : Bool

/-- The details of a `PendingCheckpointInfo` that the builder reads. -/
structure PendingCheckpointInfo where
  timestampMs : ℕ
  lastOfEpoch : Bool
  checkpointHeight : ℕ
  deriving DecidableEq

inductive BuilderError
  | lastCheckpointOfPreviousEpochNotFound (epoch : ℕ)
  | executedTransactionNotFound (digest : TransactionDigest)
  | unexpectedTransaction (digest : TransactionDigest)
  | signatureNotAvailable (digest : TransactionDigest)
  | signaturesDoNotMatch
  | unrecognizedVersionSpecificData
  | changeEpochTxAlreadyExecuted
  | systemPackagesMissing
  | epochNotOver
  deriving DecidableEq

/-- What `create_and_execute_advance_epoch_tx` and the state hasher return. The transaction has no
gas coin, and `charge_gas` charges nothing for those. -/
structure AdvanceEpochOutcome where
  effects : TransactionEffects
  unmetered : effects.gasCostSummary = 0
  nextEpochCommittee : List (ℕ × ℕ)
  (protocolVersion rootStateDigest : ℕ)

/-- The advance-epoch transaction is given the gas cost of the epoch, its start timestamp, the
sequence number of the checkpoint and that of the last checkpoint before the call. -/
abbrev AdvanceEpoch := GasCostSummary → ℕ → ℕ → ℕ → Except BuilderError AdvanceEpochOutcome

/-! ## Chunks -/

abbrev Chunk := List (TransactionEffects × List Signature)

/-- The effects of a transaction with the size of the transaction, and its signatures. -/
abbrev SizedTransaction := (TransactionEffects × ℕ) × List Signature

def transactionSize (enc : Encoding) (item : SizedTransaction) : ℕ :=
  item.1.2 + enc.effectsSize item.1.1 + enc.signaturesSize item.2

/-- The variables of `split_checkpoint_chunks`. -/
structure Chunking where
  chunks : List Chunk
  chunk : Chunk
  chunkSize : ℕ

variable (config : BuilderConfig)

def addToChunk (enc : Encoding) (state : Chunking) (item : SizedTransaction) : Chunking :=
  let size := transactionSize enc item
  if (state.chunk.length = config.maxTransactionsPerCheckpoint ∨
      config.maxCheckpointSizeBytes < state.chunkSize + size) ∧ state.chunk ≠ [] then
    ⟨state.chunks ++ [state.chunk], [(item.1.1, item.2)], size⟩
  else ⟨state.chunks, state.chunk ++ [(item.1.1, item.2)], state.chunkSize + size⟩

/-- `split_checkpoint_chunks`; an empty list gives one empty chunk. -/
def splitCheckpointChunks (enc : Encoding)
    (effectsAndTransactionSizes : List (TransactionEffects × ℕ))
    (signatures : List (List Signature)) : List Chunk :=
  let state := (effectsAndTransactionSizes.zip signatures).foldl (addToChunk config enc) ⟨[], [], 0⟩
  if state.chunk ≠ [] ∨ state.chunks = [] then state.chunks ++ [state.chunk] else state.chunks

/-! ## What the transactions of the effects bring along -/

abbrev TransactionCache := TransactionDigest → Option (Transaction × ℕ)

/-- The transaction of the effects; those that only end an epoch are not expected. -/
def executedTransaction (cache : TransactionCache) (effects : TransactionEffects) :
    Except BuilderError (Transaction × ℕ) := do
  let transactionAndSize ← require (cache effects.transactionDigest)
    (.executedTransactionNotFound effects.transactionDigest)
  match transactionAndSize.1.kind with
  | .changeEpoch | .genesis | .endOfEpochTransaction =>
    .error (.unexpectedTransaction effects.transactionDigest)
  | .consensusCommitPrologue | .authenticatorStateUpdate | .programmableSystemTransaction
  | .randomnessStateUpdate .. | .programmableTransaction => pure transactionAndSize

/-- The rounds of the randomness state updates, by the digests of their effects. -/
def randomnessRounds (transactions : List (TransactionDigest × Transaction)) :
    OrdMap TransactionDigest ℕ :=
  transactions.foldl (fun m e =>
    match e.2.kind with
    | .randomnessStateUpdate _ round => m.insert e.1 round
    | _ => m) .empty

def isSignatureExpected (transaction : Transaction) : Bool :=
  match transaction.kind with
  | .randomnessStateUpdate .. | .programmableSystemTransaction => false
  | _ => true

/-- `user_signatures_for_checkpoint`; signatures that went through consensus are taken out of the
cache. -/
def userSignaturesForCheckpoint :
    List (TransactionDigest × Transaction) → OrdMap TransactionDigest (List Signature) →
    Except BuilderError (List (List Signature))
  | [], _ => pure []
  | (digest, transaction) :: rest, userSigs =>
    if isSignatureExpected transaction then do
      let signatures ← require (userSigs.get? digest) (.signatureNotAvailable digest)
      let others ← userSignaturesForCheckpoint rest (userSigs.erase digest)
      pure (signatures :: others)
    else do
      let others ← userSignaturesForCheckpoint rest userSigs
      pure (transaction.txSignatures :: others)

/-! ## The checkpoints -/

/-- A checkpoint, with the effects that are handed to the state hasher for it. -/
structure BuiltCheckpoint where
  summary : CheckpointSummary
  contents : CheckpointContents
  effects : List TransactionEffects

/-- `GasCostSummary::new_from_txn_effects`. -/
def newFromTxnEffects (effects : List TransactionEffects) : GasCostSummary :=
  ⟨(effects.map (·.gasCostSummary.computationCost)).foldl (· + ·) 0,
   (effects.map (·.gasCostSummary.storageCost)).foldl (· + ·) 0,
   (effects.map (·.gasCostSummary.storageRebate)).foldl (· + ·) 0,
   (effects.map (·.gasCostSummary.nonRefundableStorageFee)).foldl (· + ·) 0⟩

/-- `get_epoch_total_gas_cost`; without a last checkpoint, the epoch before is taken to be `0`. -/
def getEpochTotalGasCost (epoch : ℕ) (lastCheckpoint : Option CheckpointSummary)
    (curCheckpointEffects : List TransactionEffects) : GasCostSummary :=
  let previousEpoch := (lastCheckpoint.map (·.epoch)).getD 0
  let previousGasCosts := (lastCheckpoint.map (·.epochRollingGasCostSummary)).getD 0
  let current := newFromTxnEffects curCheckpointEffects
  if previousEpoch = epoch then
    ⟨previousGasCosts.computationCost + current.computationCost,
     previousGasCosts.storageCost + current.storageCost,
     previousGasCosts.storageRebate + current.storageRebate,
     previousGasCosts.nonRefundableStorageFee + current.nonRefundableStorageFee⟩
  else current

/-- The timestamp of a checkpoint, raised to that of the last one if it has to be. -/
def checkpointTimestamp (details : PendingCheckpointInfo)
    (lastCheckpoint : Option CheckpointSummary) : ℕ :=
  match lastCheckpoint with
  | some last =>
    if details.timestampMs < last.timestampMs ∧
        config.enforceCheckpointTimestampMonotonicity = true then last.timestampMs
    else details.timestampMs
  | none => details.timestampMs

/-- The version-specific part of `CheckpointSummary::new`. -/
def versionSpecificData (randomnessRounds : List ℕ) : Except BuilderError (Option (List ℕ)) :=
  match config.checkpointSummaryVersionSpecificData with
  | none | some 0 => pure none
  | some 1 => pure (some randomnessRounds)
  | some _ => .error .unrecognizedVersionSpecificData

/-- The effects and signatures of a chunk, for the last checkpoint of the epoch with those of the
advance-epoch transaction, and the end-of-epoch data. -/
def augmentChunk (advanceEpoch : AdvanceEpoch) (lastOfEpoch : Bool)
    (gasCost : GasCostSummary) (timestampMs sequenceNumber lastCheckpointSeq : ℕ)
    (transactions : Chunk) :
    Except BuilderError (List TransactionEffects × List (List Signature) × Option EndOfEpochData) :=
  if lastOfEpoch then do
    let outcome ← advanceEpoch gasCost timestampMs sequenceNumber lastCheckpointSeq
    let epochCommitments :=
      if config.checkCommitRootStateDigestSupported then [outcome.rootStateDigest] else []
    pure (transactions.map Prod.fst ++ [outcome.effects], transactions.map Prod.snd ++ [[]],
      some ⟨outcome.nextEpochCommittee, outcome.protocolVersion, epochCommitments⟩)
  else pure (transactions.map Prod.fst, transactions.map Prod.snd, none)

/-- One round of the loop of `create_checkpoints`. -/
def createCheckpoint (enc : Encoding)
    (rounds : OrdMap TransactionDigest ℕ) (advanceEpoch : AdvanceEpoch) (epoch : ℕ)
    (details : PendingCheckpointInfo) (lastCheckpointSeq : Option ℕ) (lastCheckpointOfEpoch : Bool)
    (lastCheckpoint : Option CheckpointSummary) (transactions : Chunk) :
    Except BuilderError BuiltCheckpoint := do
  let sequenceNumber := (lastCheckpoint.map (·.sequenceNumber + 1)).getD 0
  let timestampMs := checkpointTimestamp config details lastCheckpoint
  let gasCost := getEpochTotalGasCost epoch lastCheckpoint (transactions.map Prod.fst)
  let (effects, signatures, endOfEpochData) ← augmentChunk config advanceEpoch
    lastCheckpointOfEpoch gasCost timestampMs sequenceNumber (lastCheckpointSeq.getD 0) transactions
  check (effects.length = signatures.length) .signaturesDoNotMatch
  let contents : CheckpointContents := ⟨effects.map executionDigests, signatures⟩
  let numTxns := contents.size
  let networkTotalTransactions :=
    (lastCheckpoint.map (·.networkTotalTransactions + numTxns)).getD numTxns
  let versionSpecificData ← versionSpecificData config
    (effects.filterMap fun e => rounds.get? e.transactionDigest)
  let summary : CheckpointSummary :=
    { epoch, sequenceNumber, networkTotalTransactions
      contentDigest := enc.contentsDigest contents
      previousDigest := lastCheckpoint.map enc.summaryDigest
      epochRollingGasCostSummary := gasCost
      endOfEpochData, timestampMs, versionSpecificData }
  pure ⟨summary, contents, effects⟩

/-- The loop over the chunks, of which `index` have been made into checkpoints. -/
def createLoop (config : BuilderConfig) (enc : Encoding) (rounds : OrdMap TransactionDigest ℕ)
    (advanceEpoch : AdvanceEpoch) (epoch : ℕ) (details : PendingCheckpointInfo)
    (lastCheckpointSeq : Option ℕ) (chunksCount : ℕ) :
    ℕ → Option CheckpointSummary → List Chunk → Except BuilderError (List BuiltCheckpoint)
  | _, _, [] => pure []
  | index, lastCheckpoint, transactions :: chunks => do
    let built ← createCheckpoint config enc rounds advanceEpoch epoch details lastCheckpointSeq
      (details.lastOfEpoch && index == chunksCount - 1) lastCheckpoint transactions
    let rest ← createLoop config enc rounds advanceEpoch epoch details lastCheckpointSeq chunksCount
      (index + 1) (some built.summary) chunks
    pure (built :: rest)

/-- What the builder reads when it starts on a checkpoint: the summaries built in the epoch, and the
last checkpoint of the epoch before. -/
structure BuilderStore where
  epoch : ℕ
  builderSummaries : OrdMap ℕ CheckpointSummary
  previousEpochLastCheckpoint : Option CheckpointSummary

variable (store : BuilderStore)

def loadLastBuiltCheckpointSummary : Except BuilderError (Option CheckpointSummary) :=
  match store.builderSummaries.last? with
  | some (_, summary) => pure (some summary)
  | none =>
    if 0 < store.epoch then do
      let last ← require store.previousEpochLastCheckpoint
        (.lastCheckpointOfPreviousEpochNotFound (store.epoch - 1))
      pure (some last)
    else pure none

/-- The inputs of a call of `create_checkpoints`, and what it reads besides the builder's store. -/
structure CreateCall where
  allEffects : List TransactionEffects
  details : PendingCheckpointInfo
  cache : TransactionCache
  userSignatures : OrdMap TransactionDigest (List Signature)
  advanceEpoch : AdvanceEpoch

/-- The transactions of the effects, by digest. -/
def transactionsOf (call : CreateCall) (transactionsAndSizes : List (Transaction × ℕ)) :
    List (TransactionDigest × Transaction) :=
  (call.allEffects.map (·.transactionDigest)).zip (transactionsAndSizes.map Prod.fst)

def createCheckpoints (enc : Encoding) (store : BuilderStore)
    (call : CreateCall) : Except BuilderError (List BuiltCheckpoint) := do
  let lastCheckpoint ← loadLastBuiltCheckpointSummary store
  let transactionsAndSizes ← call.allEffects.mapM (executedTransaction call.cache)
  let transactions := transactionsOf call transactionsAndSizes
  let signatures ← userSignaturesForCheckpoint transactions call.userSignatures
  let chunks := splitCheckpointChunks config enc
    (call.allEffects.zip (transactionsAndSizes.map Prod.snd)) signatures
  createLoop config enc (randomnessRounds transactions) call.advanceEpoch store.epoch call.details
    (lastCheckpoint.map (·.sequenceNumber)) chunks.length 0 lastCheckpoint chunks

/-- `process_constructed_checkpoint`, for the summaries. -/
def writeCheckpoints (built : List BuiltCheckpoint) : BuilderStore :=
  { store with
    builderSummaries :=
      built.foldl (fun m c => m.insert c.summary.sequenceNumber c.summary) store.builderSummaries }

/-- The next epoch starts from the checkpoint that ended this one. -/
def nextEpoch : Except BuilderError BuilderStore := do
  let last ← require store.builderSummaries.last? .epochNotOver
  check (last.2.endOfEpochData.isSome = true) .epochNotOver
  pure ⟨store.epoch + 1, .empty, some last.2⟩

end OneChain.Checkpoints
