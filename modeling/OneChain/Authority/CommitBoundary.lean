import OneChain.Authority.SharedObjectVersions
import OneChain.Checkpoints.ResolveTransactions
import OneChain.Lib.Transition

/-!
# Processing a consensus commit

`process_consensus_transactions_and_commit_boundary` of the epoch store, with what the consensus
handler does before it: transactions that were seen are dropped, those deferred by earlier commits
come back, each one is scheduled, deferred, cancelled or ignored, and the roots of the commit are
written as pending checkpoints.

What a commit finds outside of the store is part of the commit: the state of the randomness beacon
(the status of the key generation and the round it would reserve) and, for each transaction, the
objects it would be congested on when its turn comes. The processed-message cache of the handler may
drop entries at any time, so what it holds is given too.

Execution time observations only feed the congestion control and are left out, as are the contents
of the other messages of validators. The versions assigned to the scheduled transactions are in
`SharedObjectVersions`.
-/

namespace OneChain.Authority

open Lib Checkpoints

/-! ## Keys -/

/-- `u64::MAX`. -/
def u64Max : ℕ := 2 ^ 64 - 1

namespace TransactionKey

/-- The derived order: by constructor, then by the fields. -/
def rank : TransactionKey → ℕ ×ₗ ℕ ×ₗ ℕ
  | .digest d => toLex (0, toLex (d, 0))
  | .randomnessRound epoch round => toLex (1, toLex (epoch, round))
  | .accumulatorSettlement epoch height => toLex (2, toLex (epoch, height))

theorem rank_injective : Function.Injective rank := by
  intro a b h
  cases a <;> cases b <;> simp_all [rank]

instance : LinearOrder TransactionKey := LinearOrder.lift' rank rank_injective

def isAccumulatorSettlement : TransactionKey → Bool
  | .accumulatorSettlement .. => true
  | .digest _ | .randomnessRound .. => false

end TransactionKey

/-- Under what a group of transactions is deferred: until randomness is generated, or to a round;
with the round of the first deferral. -/
inductive DeferralKey
  | randomness (deferredFromRound : ℕ)
  | consensusRound (futureRound deferredFromRound : ℕ)

inductive CommitPanic
  | commitRoundDecreased
  | roundOverflow
  | randomnessWithFailedDkg
  | endOfPublishNotPartitioned
  | cancelledTwice (digest : TransactionDigest)
  | duplicatePendingCheckpoint (height : ℕ)
  deriving DecidableEq

namespace DeferralKey

def rank : DeferralKey → ℕ ×ₗ ℕ ×ₗ ℕ
  | .randomness round => toLex (0, toLex (round, 0))
  | .consensusRound futureRound round => toLex (1, toLex (futureRound, round))

theorem rank_injective : Function.Injective rank := by
  intro a b h
  cases a <;> cases b <;> simp_all [rank]

instance : LinearOrder DeferralKey := LinearOrder.lift' rank rank_injective

def deferredFromRound : DeferralKey → ℕ
  | .randomness round => round
  | .consensusRound _ round => round

def fullRangeForRandomness : DeferralKey × DeferralKey := (.randomness 0, .randomness u64Max)

def rangeForUpToConsensusRound (round : ℕ) : Except CommitPanic (DeferralKey × DeferralKey) := do
  check (round + 1 ≤ u64Max) .roundOverflow
  pure (.consensusRound 0 0, .consensusRound (round + 1) 0)

end DeferralKey

def transactionDeferralWithinLimit (key : DeferralKey) (maxDeferralRounds : ℕ) : Bool :=
  match key with
  | .consensusRound futureRound deferredFromRound =>
    decide (futureRound - deferredFromRound ≤ maxDeferralRounds)
  | .randomness _ => true

/-! ## Transactions of a commit -/

/-- A `CertifiedTransaction`, with the epoch of its certificate, or a `UserTransaction`; and the
author of its block. -/
structure UserTransaction where
  author : ℕ
  certificateEpoch : Option ℕ
  digest : TransactionDigest
  gasPrice : ℕ
  usesRandomness : Bool
  deriving DecidableEq

/-- A `SequencedConsensusTransaction`. The messages of validators other than the end of publish are
one constructor; all of them name the validator that sends them. -/
inductive SequencedTransaction
  | user (tx : UserTransaction)
  | system (digest : TransactionDigest)
  | endOfPublish (sender authority : ℕ)
  | message (sender authority content : ℕ)
  deriving DecidableEq

/-- A `SequencedConsensusTransactionKey`. -/
inductive MessageKey
  | certificate (digest : TransactionDigest)
  | system (digest : TransactionDigest)
  | endOfPublish (authority : ℕ)
  | message (authority content : ℕ)
  deriving DecidableEq

namespace SequencedTransaction

def key : SequencedTransaction → MessageKey
  | .user tx => .certificate tx.digest
  | .system digest => .system digest
  | .endOfPublish _ authority => .endOfPublish authority
  | .message _ authority content => .message authority content

def executableTransactionDigest : SequencedTransaction → Option TransactionDigest
  | .user tx => some tx.digest
  | .system digest => some digest
  | .endOfPublish .. | .message .. => none

/-- The transaction, if it is one of a user. -/
def user? : SequencedTransaction → Option UserTransaction
  | .user tx => some tx
  | .system _ | .endOfPublish .. | .message .. => none

def endOfPublish? : SequencedTransaction → Option ℕ
  | .endOfPublish _ authority => some authority
  | .user _ | .system _ | .message .. => none

def isEndOfPublish (tx : SequencedTransaction) : Bool := tx.endOfPublish?.isSome

def isSystem : SequencedTransaction → Bool
  | .system _ => true
  | .user _ | .endOfPublish .. | .message .. => false

def isUserTxWithRandomness (randomnessStateEnabled : Bool) (tx : SequencedTransaction) : Bool :=
  randomnessStateEnabled && tx.user?.any (·.usesRandomness)

/-- What `order_by_gas_price` sorts by. -/
def gasPrice : SequencedTransaction → ℕ
  | .user tx => tx.gasPrice
  | .system _ | .endOfPublish .. | .message .. => u64Max

/-- The transaction is from the validator it names. -/
def fromSender : SequencedTransaction → Bool
  | .endOfPublish sender authority | .message sender authority _ => sender == authority
  | .user _ | .system _ => true

end SequencedTransaction

/-! ## The state of an epoch -/

inductive ReconfigCertStatus
  | acceptAllCerts
  | rejectUserCerts
  | rejectAllCerts
  | rejectAllTx
  deriving DecidableEq

namespace ReconfigCertStatus

def closeUserCerts : ReconfigCertStatus → ReconfigCertStatus
  | .acceptAllCerts => .rejectUserCerts
  | status => status

def shouldAcceptConsensusCerts : ReconfigCertStatus → Bool
  | .acceptAllCerts | .rejectUserCerts => true
  | .rejectAllCerts | .rejectAllTx => false

def shouldAcceptTx (status : ReconfigCertStatus) : Bool := status != .rejectAllTx

end ReconfigCertStatus

structure CommitConfig where
  epoch : ℕ
  (randomnessStateEnabled accumulatorsEnabled mysticetiFastpath prependPrologue : Bool)
  orderByGasPrice : Bool
  maxDeferralRounds : ℕ
  /-- The stake of the members of the committee, zero for others. -/
  weight : ℕ → ℕ
  quorumThreshold : ℕ

/-- `PendingCheckpointV2Contents`. -/
structure PendingCheckpointContents where
  roots : List TransactionKey
  details : PendingCheckpointInfo

/-- What `resolve_checkpoint_transactions` reads of it. -/
def PendingCheckpointContents.pending (p : PendingCheckpointContents) : PendingCheckpoint :=
  ⟨p.roots, p.details.checkpointHeight⟩

abbrev DeferredTransactions := OrdMap DeferralKey (List UserTransaction)

/-- What commit processing keeps over an epoch. The last three fields are history: the transactions
of users that were scheduled and cancelled, and the pending checkpoints written. -/
structure CommitState where
  lastCommittedRound : ℕ
  deferredTransactions : DeferredTransactions
  reconfigStatus : ReconfigCertStatus
  endOfPublish : List ℕ
  messagesProcessed : List MessageKey
  (scheduled cancelled : List TransactionDigest)
  pendingCheckpoints : List PendingCheckpointContents

inductive DkgStatus
  | pending
  | failed
  | successful
  deriving DecidableEq

/-- A commit, with what its processing finds outside of the store. -/
structure ConsensusCommit where
  (round timestamp : ℕ)
  transactions : List SequencedTransaction
  /-- The keys in the handler's cache. -/
  cached : MessageKey → Bool
  dkgStatus : DkgStatus
  /-- The round that `reserve_next_randomness` returns. -/
  nextRandomness : Option ℕ
  /-- The congested objects for which a transaction should be deferred. -/
  congested : TransactionDigest → Option (List ObjectID)
  prologue : TransactionDigest

variable (config : CommitConfig) (s : CommitState) (c : ConsensusCommit)

/-! ## Which transactions are processed -/

/-- The first occurrence of each key, if the cache does not have it. -/
def unseen (cached : MessageKey → Bool) :
    List MessageKey → List SequencedTransaction → List SequencedTransaction
  | _, [] => []
  | processedSet, tx :: txs =>
    if tx.key ∈ processedSet ∨ cached tx.key = true then unseen cached (tx.key :: processedSet) txs
    else tx :: unseen cached (tx.key :: processedSet) txs

def verifyConsensusTransaction (tx : SequencedTransaction) : Bool :=
  decide (tx.key ∉ s.messagesProcessed) && tx.fromSender

/-- `order_by_gas_price`, if the protocol orders at all. -/
def reorder (txs : List SequencedTransaction) : List SequencedTransaction :=
  if config.orderByGasPrice then txs.insertionSort fun a b => b.gasPrice ≤ a.gasPrice else txs

abbrev DeferredGroups := List (DeferralKey × List UserTransaction)

def loadDeferredTransactions (deferred : DeferredTransactions) (range : DeferralKey × DeferralKey) :
    DeferredGroups :=
  (deferred.filter fun key _ => decide (range.1 ≤ key ∧ key < range.2)).entries

/-- The transactions of loaded groups. -/
def groupTransactions (groups : DeferredGroups) : List UserTransaction := groups.flatMap Prod.snd

/-- The keys that loaded transactions were deferred under, added to those known. -/
def recordDeferred (digests : OrdMap TransactionDigest DeferralKey) (groups : DeferredGroups) :
    OrdMap TransactionDigest DeferralKey :=
  (groups.flatMap fun group => group.2.map fun tx => (tx.digest, group.1)).foldl
    (fun m e => m.insert e.1 e.2) digests

def rootsOfTransactions (txs : List SequencedTransaction) : OrdSet TransactionKey :=
  (txs.filterMap (·.executableTransactionDigest)).foldl
    (fun m digest => m.insert (.digest digest) ()) .empty

/-- What is handed to `process_consensus_transactions`. -/
structure Sequencing where
  (nonRandomnessTransactions randomnessTransactions : List SequencedTransaction)
  endOfPublishTransactions : List ℕ
  (roots randomnessRoots : OrdSet TransactionKey)
  previouslyDeferred : OrdMap TransactionDigest DeferralKey
  deletedDeferredKeys : List DeferralKey
  dkgFailed : Bool
  randomnessRound : Option ℕ

/-- Whether key generation has failed, and the randomness round of the commit. -/
def randomnessOutcome : Bool × Option ℕ :=
  if config.randomnessStateEnabled then
    match c.dkgStatus with
    | .pending => (false, none)
    | .failed => (true, none)
    | .successful => (false, if s.reconfigStatus.shouldAcceptTx then c.nextRandomness else none)
  else (false, none)

/-- The groups deferred to this round or an earlier one, and those that wait for randomness if they
are to be processed now. -/
def loadDeferred : Except CommitPanic (DeferredGroups × DeferredGroups) := do
  let range ← DeferralKey.rangeForUpToConsensusRound c.round
  let (dkgFailed, randomnessRound) := randomnessOutcome config s c
  let randomnessTxs :=
    if dkgFailed || randomnessRound.isSome then
      loadDeferredTransactions s.deferredTransactions DeferralKey.fullRangeForRandomness
    else []
  pure (loadDeferredTransactions s.deferredTransactions range, randomnessTxs)

section Sequencing

variable (verified : List SequencedTransaction) (deferredTxs deferredRandomnessTxs : DeferredGroups)

def withRandomness (tx : SequencedTransaction) : Bool :=
  tx.isUserTxWithRandomness config.randomnessStateEnabled

def systemTransactions : List SequencedTransaction := verified.filter (·.isSystem)

/-- The transactions of the commit that are neither of the system nor an end of publish. -/
def currentTransactions : List SequencedTransaction :=
  verified.filter fun tx => !tx.isEndOfPublish && !tx.isSystem

def sequencedTransactions : List SequencedTransaction :=
  ((groupTransactions deferredTxs).map .user).filter (!withRandomness config ·) ++
    (currentTransactions verified).filter (!withRandomness config ·)

def sequencedRandomnessTransactions : List SequencedTransaction :=
  (groupTransactions deferredRandomnessTxs).map .user ++
    ((groupTransactions deferredTxs).map .user).filter (withRandomness config) ++
      (currentTransactions verified).filter (withRandomness config)

/-- The arguments of `process_consensus_transactions`. -/
def sequencingOf : Sequencing :=
  let sequenced := sequencedTransactions config verified deferredTxs
  let sequencedRandomness :=
    sequencedRandomnessTransactions config verified deferredTxs deferredRandomnessTxs
  let (dkgFailed, randomnessRound) := randomnessOutcome config s c
  { nonRandomnessTransactions := systemTransactions verified ++ reorder config sequenced
    randomnessTransactions := reorder config sequencedRandomness
    endOfPublishTransactions := verified.filterMap (·.endOfPublish?)
    roots := rootsOfTransactions (systemTransactions verified ++ sequenced)
    randomnessRoots := rootsOfTransactions sequencedRandomness
    previouslyDeferred := recordDeferred (recordDeferred .empty deferredTxs) deferredRandomnessTxs
    deletedDeferredKeys := (deferredTxs ++ deferredRandomnessTxs).map Prod.fst
    dkgFailed
    randomnessRound }

end Sequencing

/-- The first part of `process_consensus_transactions_and_commit_boundary`. -/
def sequenceTransactions (transactions : List SequencedTransaction) :
    Except CommitPanic Sequencing := do
  let (deferredTxs, deferredRandomnessTxs) ← loadDeferred config s c
  pure (sequencingOf config s c (transactions.filter (verifyConsensusTransaction s)) deferredTxs
    deferredRandomnessTxs)

/-! ## Processing one transaction -/

inductive DeferralReason
  | randomnessNotReady
  | sharedObjectCongestion (objects : List ObjectID)

inductive ConsensusCertificateResult
  | ignored
  | ignoredSystem
  | suiTransaction (digest : TransactionDigest)
  | deferred (tx : UserTransaction) (key : DeferralKey)
  | cancelled (digest : TransactionDigest) (reason : CancelConsensusCertificateReason)
  | consensusMessage

variable (q : Sequencing)

variable (tx : UserTransaction)

/-- The round a transaction was first deferred from. -/
def deferredFrom : ℕ :=
  ((q.previouslyDeferred.get? tx.digest).map (·.deferredFromRound)).getD c.round

def shouldDefer : Option (DeferralKey × DeferralReason) :=
  if q.dkgFailed = false ∧ q.randomnessRound = none ∧ config.randomnessStateEnabled = true ∧
      tx.usesRandomness = true then
    some (.randomness (deferredFrom c q tx), .randomnessNotReady)
  else
    (c.congested tx.digest).map fun objects =>
      (.consensusRound (c.round + 1) (deferredFrom c q tx), .sharedObjectCongestion objects)

/-- A transaction from a validator that has sent its end of publish, or when certificates are no
longer accepted; but not one that was accepted before. -/
def tooLate : Prop :=
  (tx.author ∈ s.endOfPublish ∨ s.reconfigStatus.shouldAcceptConsensusCerts = false) ∧
    tx.digest ∉ q.previouslyDeferred
  deriving Decidable

def processConsensusUserTransaction : ConsensusCertificateResult :=
  if tooLate s q tx then .ignored
  else
    match shouldDefer config c q tx with
    | some (key, .randomnessNotReady) => .deferred tx key
    | some (key, .sharedObjectCongestion objects) =>
      if transactionDeferralWithinLimit key config.maxDeferralRounds then .deferred tx key
      else .cancelled tx.digest (.congestionOnObjects objects)
    | none =>
      if q.dkgFailed = true ∧ config.randomnessStateEnabled = true ∧ tx.usesRandomness = true then
        .cancelled tx.digest .dkgFailed
      else .suiTransaction tx.digest

/-- The certificate is of this epoch, or consensus certifies transactions itself. -/
def admissible : Bool :=
  match tx.certificateEpoch with
  | some epoch => epoch == config.epoch
  | none => config.mysticetiFastpath

def processConsensusSystemTransaction (digest : TransactionDigest) : ConsensusCertificateResult :=
  if s.reconfigStatus.shouldAcceptTx then .suiTransaction digest else .ignoredSystem

def processConsensusTransaction :
    SequencedTransaction → Except CommitPanic ConsensusCertificateResult
  | .user tx =>
    pure (if admissible config tx then processConsensusUserTransaction config s c q tx
      else .ignored)
  | .system digest => pure (processConsensusSystemTransaction s digest)
  | .message .. => pure .consensusMessage
  | .endOfPublish .. => .error .endOfPublishNotPartitioned

/-! ## Processing all transactions -/

/-- The variables of the loop of `process_consensus_transactions`; `scheduled` is history. -/
structure CommitLoop where
  (nonRandomnessRoots randomnessRoots : OrdSet TransactionKey)
  (nonRandomnessCertificates randomnessCertificates : List TransactionKey)
  deferredTxns : DeferredTransactions
  cancelledTxns : CancelledTxns
  messagesProcessed : List MessageKey
  scheduled : List TransactionDigest

namespace CommitLoop

def pushCertificate (randomness : Bool) (l : CommitLoop) (key : TransactionKey) : CommitLoop :=
  if randomness then { l with randomnessCertificates := l.randomnessCertificates ++ [key] }
  else { l with nonRandomnessCertificates := l.nonRandomnessCertificates ++ [key] }

def removeRoots (l : CommitLoop) (tx : SequencedTransaction) : CommitLoop :=
  match tx.executableTransactionDigest with
  | some digest =>
    { l with
      nonRandomnessRoots := l.nonRandomnessRoots.erase (.digest digest)
      randomnessRoots := l.randomnessRoots.erase (.digest digest) }
  | none => l

def recordProcessed (l : CommitLoop) (key : MessageKey) : CommitLoop :=
  { l with messagesProcessed := l.messagesProcessed ++ [key] }

/-- A transaction joins the group of its key. -/
def defer (l : CommitLoop) (tx : UserTransaction) (key : DeferralKey) : CommitLoop :=
  { l with deferredTxns := l.deferredTxns.insert key ((l.deferredTxns.get? key).getD [] ++ [tx]) }

/-- The body of the loop, for the result of the transaction. -/
def apply (randomness : Bool) (l : CommitLoop) (tx : SequencedTransaction) :
    ConsensusCertificateResult → Except CommitPanic CommitLoop
  | .suiTransaction digest =>
    let l := { l with scheduled := l.scheduled ++ (tx.user?.map UserTransaction.digest).toList }
    pure ((l.pushCertificate randomness (.digest digest)).recordProcessed tx.key)
  | .deferred user key => pure (((l.defer user key).recordProcessed tx.key).removeRoots tx)
  | .cancelled digest reason => do
    check (digest ∉ l.cancelledTxns) (.cancelledTwice digest)
    let l := { l with cancelledTxns := l.cancelledTxns.insert digest reason }
    pure ((l.pushCertificate randomness (.digest digest)).recordProcessed tx.key)
  | .consensusMessage => pure (l.recordProcessed tx.key)
  | .ignoredSystem => pure ((l.recordProcessed tx.key).removeRoots tx)
  | .ignored => pure (l.removeRoots tx)

end CommitLoop

def processEntry (l : CommitLoop) (entry : Bool × SequencedTransaction) :
    Except CommitPanic CommitLoop := do
  let result ← processConsensusTransaction config s c q entry.2
  l.apply entry.1 entry.2 result

def calculatePendingCheckpointHeight (round : ℕ) : ℕ :=
  if config.randomnessStateEnabled then round * 2 else round

/-- The settlement of the accumulators at a checkpoint height. -/
def settlementKey (height : ℕ) : TransactionKey := .accumulatorSettlement config.epoch height

/-- The variables before the loop: the randomness update and the settlements are scheduled. -/
def startLoop : CommitLoop :=
  let height := calculatePendingCheckpointHeight config c.round
  let update := (q.randomnessRound.map (TransactionKey.randomnessRound config.epoch)).toList
  let l : CommitLoop := ⟨q.roots, q.randomnessRoots, [], update, .empty, .empty, [], []⟩
  if config.accumulatorsEnabled then
    let l := { l with
      nonRandomnessRoots := l.nonRandomnessRoots.insert (settlementKey config height) ()
      nonRandomnessCertificates := [settlementKey config height] }
    if q.randomnessRound.isSome then
      { l with
        randomnessRoots := l.randomnessRoots.insert (settlementKey config (height + 1)) ()
        randomnessCertificates := l.randomnessCertificates ++ [settlementKey config (height + 1)] }
    else l
  else l

/-- The state of the end of the epoch. -/
structure Reconfig where
  status : ReconfigCertStatus
  endOfPublish : List ℕ

/-- An `EndOfPublish`: a repeated one and one from outside of the committee reach no quorum. Once
there is a quorum, certificates are not accepted and so no more of them are counted. -/
def insertEndOfPublish (r : Reconfig) (authority : ℕ) : Reconfig :=
  if r.status.shouldAcceptConsensusCerts = true ∧ authority ∉ r.endOfPublish then
    let endOfPublish := r.endOfPublish ++ [authority]
    if 0 < config.weight authority ∧ config.quorumThreshold ≤ tally config.weight endOfPublish then
      ⟨.rejectAllCerts, endOfPublish⟩
    else { r with endOfPublish }
  else r

/-- `process_end_of_publish_transactions_and_reconfig`, with whether this is the final round. -/
def processEndOfPublishTransactionsAndReconfig (authorities : List ℕ)
    (deferredTransactions : DeferredTransactions) (commitHasDeferredTxns : Bool) :
    Reconfig × Bool :=
  let r := authorities.foldl (insertEndOfPublish config) ⟨s.reconfigStatus, s.endOfPublish⟩
  if r.status ≠ .rejectAllCerts ∨ deferredTransactions.entries ≠ [] ∨ commitHasDeferredTxns = true
  then (r, false)
  else ({ r with status := .rejectAllTx }, true)

/-- What `process_consensus_transactions` leaves; `deferredTransactions` are those of the store. -/
structure ProcessedCommit where
  loop : CommitLoop
  deferredTransactions : DeferredTransactions
  reconfig : Reconfig
  finalRound : Bool
  prologueRoot : Option TransactionKey

/-- The transactions that the loop goes over, with whether they are in the list with randomness. -/
def Sequencing.entries (q : Sequencing) : List (Bool × SequencedTransaction) :=
  q.nonRandomnessTransactions.map (false, ·) ++ q.randomnessTransactions.map (true, ·)

def processConsensusTransactions : Except CommitPanic ProcessedCommit := do
  check (q.randomnessRound.isSome → q.dkgFailed = false) .randomnessWithFailedDkg
  let l ← q.entries.foldlM (processEntry config s c q) (startLoop config c q)
  let deferredTransactions := l.deferredTxns.entries.foldl (fun m e => m.insert e.1 e.2)
    s.deferredTransactions
  let prologueRoot :=
    match processConsensusSystemTransaction s c.prologue with
    | .suiTransaction digest => some (TransactionKey.digest digest)
    | _ => none
  let (reconfig, finalRound) := processEndOfPublishTransactionsAndReconfig config s
    q.endOfPublishTransactions deferredTransactions (!l.deferredTxns.entries.isEmpty)
  let messages := MessageKey.system c.prologue :: q.endOfPublishTransactions.map .endOfPublish
  pure ⟨{ l with messagesProcessed := l.messagesProcessed ++ messages }, deferredTransactions,
    reconfig, finalRound, prologueRoot⟩

/-! ## Pending checkpoints -/

variable (p : ProcessedCommit)

/-- The roots of the transactions without randomness, the prologue first if the protocol says so. -/
def nonRandomnessRoots : List TransactionKey :=
  match p.prologueRoot with
  | none => p.loop.nonRandomnessRoots.keys
  | some root =>
    if config.prependPrologue then root :: p.loop.nonRandomnessRoots.keys
    else (p.loop.nonRandomnessRoots.insert root ()).keys

/-- The roots of the transactions with randomness. -/
def randomnessRoots : OrdSet TransactionKey :=
  match q.randomnessRound with
  | some round => p.loop.randomnessRoots.insert (.randomnessRound config.epoch round) ()
  | none => p.loop.randomnessRoots

def shouldWriteRandomCheckpoint : Bool :=
  q.randomnessRound.isSome || (q.dkgFailed && !(randomnessRoots config q p).entries.isEmpty)

/-- The pending checkpoints of a commit. -/
def commitPendingCheckpoints : List PendingCheckpointContents :=
  if p.reconfig.status.shouldAcceptTx || p.finalRound then
    let height := calculatePendingCheckpointHeight config c.round
    let random := shouldWriteRandomCheckpoint config q p
    ⟨nonRandomnessRoots config p, ⟨c.timestamp, p.finalRound && !random, height⟩⟩ ::
      if random then
        [⟨(randomnessRoots config q p).keys, ⟨c.timestamp, p.finalRound, height + 1⟩⟩]
      else []
  else []

/-- The assertion of `write_pending_checkpoint`. It looks at the commits that are not yet on disk;
heights only grow, so here it looks at all of them. -/
def writePendingCheckpoint (written : List PendingCheckpointContents)
    (pending : PendingCheckpointContents) : Except CommitPanic Unit :=
  check (pending.details.checkpointHeight ∉ written.map (·.details.checkpointHeight))
    (.duplicatePendingCheckpoint pending.details.checkpointHeight)

/-! ## The commit -/

/-- What a commit did, besides the state after it. -/
structure CommitOutcome where
  state : CommitState
  deferredTxns : DeferredTransactions
  deletedDeferredKeys : List DeferralKey
  pendingCheckpoints : List PendingCheckpointContents
  finalRound : Bool

/-- The last part of `process_consensus_transactions_and_commit_boundary`: the loaded groups are
deleted and the output is pushed. -/
def commitOutcome : CommitOutcome :=
  let pendings := commitPendingCheckpoints config c q p
  let state : CommitState :=
    { lastCommittedRound := c.round
      deferredTransactions := q.deletedDeferredKeys.foldl OrdMap.erase p.deferredTransactions
      reconfigStatus := p.reconfig.status
      endOfPublish := p.reconfig.endOfPublish
      messagesProcessed := s.messagesProcessed ++ p.loop.messagesProcessed
      scheduled := s.scheduled ++ p.loop.scheduled
      cancelled := s.cancelled ++ p.loop.cancelledTxns.keys
      pendingCheckpoints := s.pendingCheckpoints ++ pendings }
  ⟨state, p.loop.deferredTxns, q.deletedDeferredKeys, pendings, p.finalRound⟩

def processConsensusTransactionsAndCommitBoundary (transactions : List SequencedTransaction) :
    Except CommitPanic CommitOutcome := do
  let q ← sequenceTransactions config s c transactions
  let p ← processConsensusTransactions config s c q
  (commitPendingCheckpoints config c q p).forM (writePendingCheckpoint s.pendingCheckpoints)
  pure (commitOutcome config s c q p)

/-- `handle_consensus_commit`; a commit that was processed before a restart is skipped. -/
def handleConsensusCommit : Except CommitPanic (Option CommitOutcome) := do
  check (s.lastCommittedRound ≤ c.round) .commitRoundDecreased
  if s.lastCommittedRound = c.round then pure none
  else do
    let outcome ← processConsensusTransactionsAndCommitBoundary config s c
      (unseen c.cached [] c.transactions)
    pure (some outcome)

/-! ## Runs over an epoch -/

/-- A commit is processed, or the node closes the epoch for users. -/
inductive CommitAction
  | commit (c : ConsensusCommit)
  | closeUserCerts

def CommitState.start : CommitState := ⟨0, .empty, .acceptAllCerts, [], [], [], [], []⟩

def commitStep (s : CommitState) : CommitAction → Except CommitPanic CommitState
  | .commit c => do
    let outcome ← handleConsensusCommit config s c
    pure ((outcome.map (·.state)).getD s)
  | .closeUserCerts => pure { s with reconfigStatus := s.reconfigStatus.closeUserCerts }

def commitMachine : Machine CommitState CommitAction CommitPanic where
  init s := s = .start
  step := commitStep config

end OneChain.Authority
