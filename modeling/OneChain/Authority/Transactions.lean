import OneChain.Lib.Ordered
import Mathlib.Data.Prod.Lex

/-!
# Transactions and their effects

What the consensus handler and the checkpoint builder read of a transaction and of the effects of
its execution. Digests, object ids and signatures are compared and never looked into, so they are
numbers.

Gas costs are `u64` sums that wrap, as the code adds them.
-/

namespace OneChain.Authority

open Lib

abbrev ObjectID := ℕ

abbrev TransactionDigest := ℕ

/-! ## Sequence numbers -/

namespace SequenceNumber

/-- `SequenceNumber::MAX`; the versions above it stand for something else than a version. -/
def max : ℕ := 0x7fffffffffffffff

def cancelledRead : ℕ := max + 1

def congested : ℕ := max + 2

def randomnessUnavailable : ℕ := max + 3

def isCancelled (version : ℕ) : Bool :=
  version == cancelledRead || version == congested || version == randomnessUnavailable

def isValid (version : ℕ) : Prop := version < max
  deriving Decidable

end SequenceNumber

/-! ## Transactions and their inputs -/

/-- `ConsensusObjectSequenceKey`. -/
structure ConsensusObjectSequenceKey where
  id : ObjectID
  initialSharedVersion : ℕ

namespace ConsensusObjectSequenceKey

def key (k : ConsensusObjectSequenceKey) : ℕ ×ₗ ℕ := toLex (k.id, k.initialSharedVersion)

theorem key_injective : Function.Injective key := by
  rintro ⟨i, v⟩ ⟨i', v'⟩ h
  simpa [key] using h

instance : LinearOrder ConsensusObjectSequenceKey := LinearOrder.lift' key key_injective

end ConsensusObjectSequenceKey

structure ObjectKey where
  id : ObjectID
  version : ℕ
  deriving DecidableEq

structure SharedInputObject where
  id : ObjectID
  initialSharedVersion : ℕ
  mutable : Bool
  deriving DecidableEq

def SharedInputObject.idAndVersion (o : SharedInputObject) : ConsensusObjectSequenceKey :=
  ⟨o.id, o.initialSharedVersion⟩

/-- `InputObjectKind`; an object reference without its digest. -/
inductive InputObjectKind
  | movePackage (id : ObjectID)
  | immOrOwnedMoveObject (object : ObjectKey)
  | sharedMoveObject (object : SharedInputObject)
  deriving DecidableEq

inductive TransactionKey
  | digest (digest : TransactionDigest)
  | randomnessRound (epoch round : ℕ)
  | accumulatorSettlement (epoch checkpointHeight : ℕ)
  deriving DecidableEq

def TransactionKey.asDigest : TransactionKey → Option TransactionDigest
  | .digest d => some d
  | .randomnessRound .. | .accumulatorSettlement .. => none

/-- The kinds of transactions; the prologues of all versions are one kind here. -/
inductive TransactionKind
  | programmableTransaction
  | changeEpoch
  | genesis
  | consensusCommitPrologue
  | authenticatorStateUpdate
  | endOfEpochTransaction
  | randomnessStateUpdate (epoch round : ℕ)
  | programmableSystemTransaction
  deriving DecidableEq

abbrev Signature := ℕ

/-- A transaction, by what its transaction data returns. `inputObjects` is `none` where
`input_objects` is an error. -/
structure Transaction where
  digest : TransactionDigest
  kind : TransactionKind
  sharedInputObjects : List SharedInputObject
  inputObjects : Option (List InputObjectKind)
  receivingObjects : List ObjectKey
  txSignatures : List Signature
  deriving DecidableEq

def Transaction.key (tx : Transaction) : TransactionKey :=
  match tx.kind with
  | .randomnessStateUpdate epoch round => .randomnessRound epoch round
  | _ => .digest tx.digest

/-! ## Effects -/

/-- `GasCostSummary`. -/
@[ext] structure GasCostSummary where
  (computationCost storageCost storageRebate nonRefundableStorageFee : UInt64)
  deriving DecidableEq

namespace GasCostSummary

/-- Field by field. -/
instance : Add GasCostSummary where
  add a b := ⟨a.computationCost + b.computationCost, a.storageCost + b.storageCost,
    a.storageRebate + b.storageRebate, a.nonRefundableStorageFee + b.nonRefundableStorageFee⟩

/-- `GasCostSummary::default`. -/
instance : Zero GasCostSummary := ⟨⟨0, 0, 0, 0⟩⟩

instance : AddCommMonoid GasCostSummary where
  nsmul := nsmulRec
  add_assoc _ _ _ := GasCostSummary.ext (UInt64.add_assoc _ _ _) (UInt64.add_assoc _ _ _)
    (UInt64.add_assoc _ _ _) (UInt64.add_assoc _ _ _)
  zero_add _ := GasCostSummary.ext (UInt64.zero_add _) (UInt64.zero_add _) (UInt64.zero_add _)
    (UInt64.zero_add _)
  add_zero _ := GasCostSummary.ext (UInt64.add_zero _) (UInt64.add_zero _) (UInt64.add_zero _)
    (UInt64.add_zero _)
  add_comm _ _ := GasCostSummary.ext (UInt64.add_comm _ _) (UInt64.add_comm _ _)
    (UInt64.add_comm _ _) (UInt64.add_comm _ _)

end GasCostSummary

/-- How a shared object was used, at the version read. -/
inductive InputSharedObject
  | mutate (object : ObjectKey)
  | readOnly (object : ObjectKey)
  | readConsensusStreamEnded (id : ObjectID) (version : ℕ)
  | mutateConsensusStreamEnded (id : ObjectID) (version : ℕ)
  | cancelled (id : ObjectID) (version : ℕ)
  deriving DecidableEq

structure TransactionEffects where
  transactionDigest : TransactionDigest
  /-- The digest of the effects themselves. -/
  (digest executedEpoch : ℕ)
  gasCostSummary : GasCostSummary
  inputSharedObjects : List InputSharedObject
  dependencies : List TransactionDigest
  deriving DecidableEq

end OneChain.Authority
