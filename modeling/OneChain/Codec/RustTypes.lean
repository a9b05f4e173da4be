import OneChain.Codec.MoveTypes

/-!
# The mirrored structs, as the node reads them

The declarations of `sui-types`, field by field. Their `Deserialize` is derived: it reads the fields
in the order of their declaration. The cache `verified_metadata` of a validator is skipped by it.
-/

namespace OneChain.Codec.Rust

open Lib Lib.Bcs

/-! ## Ids, balances and collections -/

/-- `base_types.rs` -/
structure ObjectID where
  bytes : Address
  deriving DecidableEq

instance : FromBcs ObjectID := ⟨do return ⟨← fromBcs⟩⟩

/-- `id.rs` -/
structure ID where
  bytes : ObjectID
  deriving DecidableEq

instance : FromBcs ID := ⟨do return ⟨← fromBcs⟩⟩

structure UID where
  id : ID
  deriving DecidableEq

instance : FromBcs UID := ⟨do return ⟨← fromBcs⟩⟩

/-- `balance.rs` -/
structure Balance where
  value : UInt64
  deriving DecidableEq

instance : FromBcs Balance := ⟨do return ⟨← fromBcs⟩⟩

/-- `collection_types.rs` -/
structure Table where
  id : ObjectID
  size : UInt64
  deriving DecidableEq

instance : FromBcs Table := ⟨do return ⟨← fromBcs, ← fromBcs⟩⟩

structure TableVec where
  contents : Table
  deriving DecidableEq

instance : FromBcs TableVec := ⟨do return ⟨← fromBcs⟩⟩

structure Bag where
  id : UID
  size : UInt64
  deriving DecidableEq

instance : FromBcs Bag := ⟨do return ⟨← fromBcs, ← fromBcs⟩⟩

structure Entry (K V : Type) where
  key : K
  value : V
  deriving DecidableEq

instance {K V : Type} [FromBcs K] [FromBcs V] : FromBcs (Entry K V) := ⟨do return ⟨← fromBcs,
  ← fromBcs⟩⟩

structure VecMap (K V : Type) where
  contents : List (Entry K V)
  deriving DecidableEq

instance {K V : Type} [FromBcs K] [FromBcs V] : FromBcs (VecMap K V) := ⟨do return ⟨← fromBcs⟩⟩

structure VecSet (T : Type) where
  contents : List T
  deriving DecidableEq

instance {T : Type} [FromBcs T] : FromBcs (VecSet T) := ⟨do return ⟨← fromBcs⟩⟩

/-! ## `governance.rs` -/

structure StakedOct where
  id : UID
  poolId : ID
  stakeActivationEpoch : UInt64
  principal : Balance
  deriving DecidableEq

instance : FromBcs StakedOct := ⟨do return ⟨← fromBcs, ← fromBcs, ← fromBcs, ← fromBcs⟩⟩

/-- `MoveObjectType_` of `base_types.rs`: the types of objects that are told apart. -/
inductive MoveObjectType
  | other
  | gasCoin
  | stakedOct
  | coin
  deriving DecidableEq

def MoveObjectType.isStakedOct : MoveObjectType → Bool
  | .stakedOct => true
  | .gasCoin | .coin | .other => false

/-- `Data` of `object.rs`. -/
inductive Data
  | move (type : MoveObjectType) (contents : Bytes)
  | package

/-- The two messages of `SuiError::TypeError`. -/
inductive TypeError
  | unableToDeserialize (error : Bcs.Error)
  | notAStakedOct
  deriving DecidableEq

/-- `TryFrom<&Object>` -/
def StakedOct.tryFrom : Data → Except TypeError StakedOct
  | .move type contents =>
    if type.isStakedOct then (fromBytes contents).mapError .unableToDeserialize
    else .error .notAStakedOct
  | .package => .error .notAStakedOct

/-! ## `sui_system_state_inner_v1.rs` -/

structure ValidatorMetadataV1 where
  suiAddress : Address
  (protocolPubkeyBytes networkPubkeyBytes workerPubkeyBytes proofOfPossessionBytes : Bytes)
  (name description imageUrl projectUrl netAddress p2pAddress primaryAddress workerAddress : String)
  (nextEpochProtocolPubkeyBytes nextEpochProofOfPossession : Option Bytes)
  (nextEpochNetworkPubkeyBytes nextEpochWorkerPubkeyBytes : Option Bytes)
  (nextEpochNetAddress nextEpochP2pAddress nextEpochPrimaryAddress : Option String)
  nextEpochWorkerAddress : Option String
  extraFields : Bag

instance : FromBcs ValidatorMetadataV1 := ⟨do return ⟨← fromBcs, ← fromBcs, ← fromBcs, ← fromBcs,
  ← fromBcs, ← fromBcs, ← fromBcs, ← fromBcs, ← fromBcs, ← fromBcs, ← fromBcs, ← fromBcs, ← fromBcs,
  ← fromBcs, ← fromBcs, ← fromBcs, ← fromBcs, ← fromBcs, ← fromBcs, ← fromBcs, ← fromBcs,
  ← fromBcs⟩⟩

structure StakingPoolV1 where
  id : ObjectID
  (activationEpoch deactivationEpoch : Option UInt64)
  octBalance : UInt64
  rewardsPool : Balance
  poolTokenBalance : UInt64
  exchangeRates : Table
  (pendingStake pendingTotalOctWithdraw pendingPoolTokenWithdraw : UInt64)
  extraFields : Bag

instance : FromBcs StakingPoolV1 := ⟨do return ⟨← fromBcs, ← fromBcs, ← fromBcs, ← fromBcs,
  ← fromBcs, ← fromBcs, ← fromBcs, ← fromBcs, ← fromBcs, ← fromBcs, ← fromBcs⟩⟩

structure ValidatorV1 where
  metadata : ValidatorMetadataV1
  revenueReceivingAddress : Address
  onlyValidatorStaking : Bool
  votingPower : UInt64
  operationCapId : ID
  gasPrice : UInt64
  stakingPool : StakingPoolV1
  (commissionRate nextEpochStake nextEpochGasPrice nextEpochCommissionRate : UInt64)
  extraFields : Bag

instance : FromBcs ValidatorV1 := ⟨do return ⟨← fromBcs, ← fromBcs, ← fromBcs, ← fromBcs, ← fromBcs,
  ← fromBcs, ← fromBcs, ← fromBcs, ← fromBcs, ← fromBcs, ← fromBcs, ← fromBcs⟩⟩

structure SuiSupperCommittee where
  proposalList : List ObjectID
  extraFields : Bag

instance : FromBcs SuiSupperCommittee := ⟨do return ⟨← fromBcs, ← fromBcs⟩⟩

structure ValidatorSetV1 where
  totalStake : UInt64
  activeValidators : List ValidatorV1
  pendingActiveValidators : TableVec
  pendingRemovals : List UInt64
  (stakingPoolMappings inactiveValidators validatorCandidates : Table)
  atRiskValidators : VecMap Address UInt64
  onlyTrustedValidator : Bool
  trustedValidators : VecSet Address
  extraFields : Bag

instance : FromBcs ValidatorSetV1 := ⟨do return ⟨← fromBcs, ← fromBcs, ← fromBcs, ← fromBcs,
  ← fromBcs, ← fromBcs, ← fromBcs, ← fromBcs, ← fromBcs, ← fromBcs, ← fromBcs⟩⟩

structure StorageFundV1 where
  (totalObjectStorageRebates nonRefundableBalance : Balance)

instance : FromBcs StorageFundV1 := ⟨do return ⟨← fromBcs, ← fromBcs⟩⟩

structure StakeSubsidyV1 where
  balance : Balance
  (distributionCounter currentDistributionAmount stakeSubsidyPeriodLength : UInt64)
  stakeSubsidyDecreaseRate : UInt16
  extraFields : Bag

instance : FromBcs StakeSubsidyV1 := ⟨do return ⟨← fromBcs, ← fromBcs, ← fromBcs, ← fromBcs,
  ← fromBcs, ← fromBcs⟩⟩

/-! ## `sui_system_state_inner_v2.rs` -/

structure SystemParametersV2 where
  (epochDurationMs stakeSubsidyStartEpoch minValidatorCount maxValidatorCount : UInt64)
  (minValidatorJoiningStake validatorLowStakeThreshold validatorVeryLowStakeThreshold : UInt64)
  validatorLowStakeGracePeriod : UInt64
  extraFields : Bag

instance : FromBcs SystemParametersV2 := ⟨do return ⟨← fromBcs, ← fromBcs, ← fromBcs, ← fromBcs,
  ← fromBcs, ← fromBcs, ← fromBcs, ← fromBcs, ← fromBcs⟩⟩

structure SuiSystemStateInnerV2 where
  (epoch protocolVersion systemStateVersion : UInt64)
  supperCommittee : SuiSupperCommittee
  validators : ValidatorSetV1
  storageFund : StorageFundV1
  parameters : SystemParametersV2
  referenceGasPrice : UInt64
  validatorReportRecords : VecMap Address (VecSet Address)
  stakeSubsidy : StakeSubsidyV1
  safeMode : Bool
  (safeModeStorageRewards safeModeComputationRewards : Balance)
  (safeModeStorageRebates safeModeNonRefundableStorageFee epochStartTimestampMs : UInt64)
  extraFields : Bag

instance : FromBcs SuiSystemStateInnerV2 := ⟨do return ⟨← fromBcs, ← fromBcs, ← fromBcs, ← fromBcs,
  ← fromBcs, ← fromBcs, ← fromBcs, ← fromBcs, ← fromBcs, ← fromBcs, ← fromBcs, ← fromBcs, ← fromBcs,
  ← fromBcs, ← fromBcs, ← fromBcs, ← fromBcs⟩⟩

end OneChain.Codec.Rust
