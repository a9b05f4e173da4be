import OneChain.Authority.Transactions
import Mathlib.Data.List.Sort

/-!
# Versions of shared objects

`shared_object_version_manager.rs`: a consensus commit fixes the order of its transactions, and
`assign_versions_from_consensus` fixes the version of every shared object that they read. A
transaction that is not cancelled reads the next version of each of its shared inputs, and the
inputs that it may mutate move on to its Lamport version, one above every version that it reads.

A shared object is identified by its id and the version at which it became shared. The table of
next versions is what a read through the consensus quarantine with the database behind it returns;
keys that are missing from it are initialized from the object store.

Database errors, logging and the locks of `get_or_init_next_object_versions` are left out.
-/

namespace OneChain.Authority

open Lib

/-- What can be scheduled for execution by the assignment of versions. -/
inductive Schedulable
  | transaction (tx : Transaction)
  | randomnessStateUpdate (epoch round : ℕ)
  | withdraw (tx : Transaction) (accumulatorVersion : ℕ)
  | accumulatorSettlement (epoch checkpointHeight : ℕ)
  deriving DecidableEq

/-- The reasons for which the assignment stops the process. -/
inductive VersionPanic
  | randomnessVersionNotSet
  | accumulatorRootVersionNotSet
  | accumulatorsDisabled
  | inputNotVerified (digest : TransactionDigest)
  | startVersionInPreviousEpoch (key : ConsensusObjectSequenceKey)
  | notInNextVersions (key : ConsensusObjectSequenceKey)
  | versionOverflow
  | invalidVersion (version : ℕ)
  deriving DecidableEq

/-- What the assignment reads of the epoch start configuration and the protocol configuration. -/
structure EpochConfig where
  (randomnessObjInitialSharedVersion accumulatorRootObjInitialSharedVersion : Option ℕ)
  (enableAccumulators reshareAtSameInitialVersion : Bool)

variable (config : EpochConfig)

def EpochConfig.accumulatorsEnabled : Bool :=
  config.enableAccumulators && config.accumulatorRootObjInitialSharedVersion.isSome

/-- `SUI_RANDOMNESS_STATE_OBJECT_ID`. -/
def randomnessStateObjectId : ObjectID := 0x8

/-- `SUI_ACCUMULATOR_ROOT_OBJECT_ID`. -/
def accumulatorRootObjectId : ObjectID := 0xacc

namespace Schedulable

def sharedInputObjects (config : EpochConfig) :
    Schedulable → Except VersionPanic (List SharedInputObject)
  | .transaction tx | .withdraw tx _ => pure tx.sharedInputObjects
  | .randomnessStateUpdate .. => do
    let version ← require config.randomnessObjInitialSharedVersion .randomnessVersionNotSet
    pure [⟨randomnessStateObjectId, version, true⟩]
  | .accumulatorSettlement .. => do
    let version ← require config.accumulatorRootObjInitialSharedVersion
      .accumulatorRootVersionNotSet
    pure [⟨accumulatorRootObjectId, version, true⟩]

/-- `transaction_non_shared_input_object_keys`, expected to succeed. -/
def nonSharedInputObjectKeys : Schedulable → Except VersionPanic (List ObjectKey)
  | .transaction tx | .withdraw tx _ => do
    let inputs ← require tx.inputObjects (.inputNotVerified tx.digest)
    pure (inputs.filterMap fun
      | .immOrOwnedMoveObject object => some object
      | .movePackage _ | .sharedMoveObject _ => none)
  | .randomnessStateUpdate .. | .accumulatorSettlement .. => pure []

def receivingObjectKeys : Schedulable → List ObjectKey
  | .transaction tx | .withdraw tx _ => tx.receivingObjects
  | .randomnessStateUpdate .. | .accumulatorSettlement .. => []

def key : Schedulable → TransactionKey
  | .transaction tx | .withdraw tx _ => tx.key
  | .randomnessStateUpdate epoch round => .randomnessRound epoch round
  | .accumulatorSettlement epoch checkpointHeight => .accumulatorSettlement epoch checkpointHeight

def isAccumulatorSettlement : Schedulable → Bool
  | .accumulatorSettlement .. => true
  | .transaction _ | .randomnessStateUpdate .. | .withdraw .. => false

end Schedulable

/-! ## The table of next versions -/

abbrev NextVersions := OrdMap ConsensusObjectSequenceKey ℕ

abbrev AssignedVersions := List (ConsensusObjectSequenceKey × ℕ)

/-- The latest version of an object, and the version at which it became shared, if it is shared. -/
structure CachedObject where
  startVersion : Option ℕ
  version : ℕ

abbrev ObjectCacheRead := ObjectID → Option CachedObject

variable (reader : ObjectCacheRead)

variable (k : ConsensusObjectSequenceKey)

/-- The version that a key is initialized with: that of the stored object, if it became shared
where the key says. -/
def versionToWrite : ℕ :=
  match reader k.id with
  | some object =>
    if object.startVersion = some k.initialSharedVersion then object.version
    else k.initialSharedVersion
  | none => k.initialSharedVersion

/-- The assertion on keys that do not match the stored object. -/
def startVersionAllowed : Bool :=
  match (reader k.id).bind (·.startVersion) with
  | some start => start == k.initialSharedVersion || !config.reshareAtSameInitialVersion ||
      decide (start ≤ k.initialSharedVersion)
  | none => true

variable (table : NextVersions)

variable (objectsToInit : List ConsensusObjectSequenceKey)

/-- The keys without a next version. -/
def uninitializedObjects : List ConsensusObjectSequenceKey :=
  ((objectsToInit.map table.get?).zip objectsToInit).filterMap fun
    | (none, k) => some k
    | (some _, _) => none

/-- The keys with a next version, and that version. -/
def initializedVersions : AssignedVersions :=
  (objectsToInit.zip (objectsToInit.map table.get?)).filterMap fun
    | (k, some v) => some (k, v)
    | (_, none) => none

/-- What a key without a next version is initialized with. -/
def initialVersion : Except VersionPanic (ConsensusObjectSequenceKey × ℕ) := do
  check (startVersionAllowed config reader k = true) (.startVersionInPreviousEpoch k)
  pure (k, versionToWrite reader k)

/-- `get_or_init_next_object_versions`: the versions of the given keys, and the table with those
keys initialized. -/
def getOrInitNextObjectVersions : Except VersionPanic (NextVersions × NextVersions) :=
  if uninitializedObjects table objectsToInit = [] then
    pure ((initializedVersions table objectsToInit).foldl (fun m e => m.insert e.1 e.2) .empty,
      table)
  else do
    let versionsToWrite ← (uninitializedObjects table objectsToInit).mapM
      (initialVersion config reader)
    pure ((initializedVersions table objectsToInit ++ versionsToWrite).foldl
        (fun m e => m.insert e.1 e.2) .empty,
      versionsToWrite.foldl (fun m e => m.insert e.1 e.2) table)

/-- `get_or_init_versions`; of a sorted list, `dedup` removes every repetition. -/
def getOrInitVersions (sharedInputObjects : List SharedInputObject) :
    Except VersionPanic (NextVersions × NextVersions) :=
  getOrInitNextObjectVersions config reader table
    ((sharedInputObjects.map (·.idAndVersion)).insertionSort (· ≤ ·)).dedup

/-! ## The assignment -/

inductive CancelConsensusCertificateReason
  | congestionOnObjects (objects : List ObjectID)
  | dkgFailed

abbrev CancelledTxns := OrdMap TransactionDigest CancelConsensusCertificateReason

/-- `SequenceNumber::lamport_increment`. -/
def lamportIncrement (inputs : List ℕ) : Except VersionPanic ℕ := do
  let maxInput := inputs.foldl max 0
  check (maxInput ≠ 2 ^ 64 - 1) .versionOverflow
  pure (maxInput + 1)

/-- What a cancelled transaction gets in place of the version of a shared input. -/
def cancelledVersion (reason : CancelConsensusCertificateReason) (id : ObjectID) : ℕ :=
  match reason with
  | .congestionOnObjects congested =>
    if id ∈ congested then SequenceNumber.congested else SequenceNumber.cancelledRead
  | .dkgFailed =>
    if id = randomnessStateObjectId then SequenceNumber.randomnessUnavailable
    else SequenceNumber.cancelledRead

variable (cancelledTxns : CancelledTxns)

def cancellationInfo (assignable : Schedulable) : Option CancelConsensusCertificateReason :=
  assignable.key.asDigest.bind cancelledTxns.get?

/-- `assign_versions_for_certificate`: the versions assigned, and the next versions after it. -/
def assignVersionsForCertificate (assignable : Schedulable) (nextVersions : NextVersions) :
    Except VersionPanic (AssignedVersions × NextVersions) := do
  let sharedInputObjects ← assignable.sharedInputObjects config
  if sharedInputObjects = [] then pure ([], nextVersions) else do
    let nonShared ← assignable.nonSharedInputObjectKeys
    let inputObjectKeys := nonShared ++ assignable.receivingObjectKeys
    match cancellationInfo cancelledTxns assignable with
    | some reason =>
      -- the Lamport version of a cancelled transaction does not depend on shared objects
      let nextVersion ← lamportIncrement (inputObjectKeys.map (·.version))
      check (SequenceNumber.isValid nextVersion) (.invalidVersion nextVersion)
      pure (sharedInputObjects.map fun o => (o.idAndVersion, cancelledVersion reason o.id),
        nextVersions)
    | none =>
      let assignedVersions ← sharedInputObjects.mapM fun o => do
        let version ← require (nextVersions.get? o.idAndVersion) (.notInNextVersions o.idAndVersion)
        pure (o.idAndVersion, version)
      let nextVersion ← lamportIncrement
        (inputObjectKeys.map (·.version) ++ assignedVersions.map Prod.snd)
      check (SequenceNumber.isValid nextVersion) (.invalidVersion nextVersion)
      let mutableInputs := (assignedVersions.zip (sharedInputObjects.map (·.mutable))).filterMap
        fun e => if e.2 then some e.1.1 else none
      let nextVersions ← mutableInputs.foldlM (fun m k => do
        let _ ← require (m.get? k) (.notInNextVersions k)
        pure (m.insert k nextVersion)) nextVersions
      pure (assignedVersions, nextVersions)

/-- The loop of `assign_versions_from_consensus`. -/
def assignVersions (config : EpochConfig) (cancelledTxns : CancelledTxns) :
    List Schedulable → NextVersions →
    Except VersionPanic (List (TransactionKey × AssignedVersions) × NextVersions)
  | [], nextVersions => pure ([], nextVersions)
  | assignable :: rest, nextVersions => do
    check (assignable.isAccumulatorSettlement = false ∨ config.accumulatorsEnabled = true)
      .accumulatorsDisabled
    let certAssigned ← assignVersionsForCertificate config cancelledTxns assignable nextVersions
    let restAssigned ← assignVersions config cancelledTxns rest certAssigned.2
    pure ((assignable.key, certAssigned.1) :: restAssigned.1, restAssigned.2)

/-- `ConsensusSharedObjVerAssignment`, with the table that the call leaves behind. -/
structure ConsensusSharedObjVerAssignment where
  sharedInputNextVersions : NextVersions
  assignedVersions : List (TransactionKey × AssignedVersions)
  table : NextVersions

def assignVersionsFromConsensus (assignables : List Schedulable) (cancelledTxns : CancelledTxns) :
    Except VersionPanic ConsensusSharedObjVerAssignment := do
  let sharedInputObjects ← assignables.mapM (·.sharedInputObjects config)
  let versions ← getOrInitVersions config reader table sharedInputObjects.flatten
  let assigned ← assignVersions config cancelledTxns assignables versions.1
  pure ⟨assigned.2, assigned.1, versions.2⟩

/-- `process_consensus_transaction_shared_object_versions`: the next versions go into the output of
the commit, and from there over the table. -/
def processSharedObjectVersions (table : NextVersions) (transactions : List Schedulable) :
    Except VersionPanic (List (TransactionKey × AssignedVersions) × NextVersions) := do
  let assignment ← assignVersionsFromConsensus config reader table transactions cancelledTxns
  pure (assignment.assignedVersions,
    assignment.sharedInputNextVersions.entries.foldl (fun m e => m.insert e.1 e.2) assignment.table)

/-- Batch after batch, each with the table that the one before it left. -/
def processBatches (config : EpochConfig) (reader : ObjectCacheRead)
    (cancelledTxns : CancelledTxns) : NextVersions → List (List Schedulable) →
    Except VersionPanic (List (TransactionKey × AssignedVersions) × NextVersions)
  | table, [] => pure ([], table)
  | table, batch :: batches => do
    let first ← processSharedObjectVersions config reader cancelledTxns table batch
    let rest ← processBatches config reader cancelledTxns first.2 batches
    pure (first.1 ++ rest.1, rest.2)

end OneChain.Authority
