import OneChain.Lib.Bcs

/-!
# The structs of the system package, as Move stores them

The declarations of `one-system` and of the framework types they are made of, field by field, with
the bytes the virtual machine stores for them: the fields in the order of their declaration. A
`phantom` parameter is not stored, so that a `Balance` is a number and a `Table` an id and a size.
-/

namespace OneChain.Codec

open Lib.Bcs

abbrev Address := List.Vector UInt8 32

namespace Move

/-! ## The framework -/

/-- `object.move` -/
structure ID where
  bytes : Address
  deriving DecidableEq

instance : ToBcs ID := ⟨fun s => fields [toBcs s.bytes]⟩

structure UID where
  id : ID
  deriving DecidableEq

instance : ToBcs UID := ⟨fun s => fields [toBcs s.id]⟩

/-- `balance.move` -/
structure Balance where
  value : UInt64
  deriving DecidableEq

instance : ToBcs Balance := ⟨fun s => fields [toBcs s.value]⟩

/-- `table.move` -/
structure Table where
  id : UID
  size : UInt64
  deriving DecidableEq

instance : ToBcs Table := ⟨fun s => fields [toBcs s.id, toBcs s.size]⟩

/-- `table_vec.move` -/
structure TableVec where
  contents : Table
  deriving DecidableEq

instance : ToBcs TableVec := ⟨fun s => fields [toBcs s.contents]⟩

/-- `bag.move` -/
structure Bag where
  id : UID
  size : UInt64
  deriving DecidableEq

instance : ToBcs Bag := ⟨fun s => fields [toBcs s.id, toBcs s.size]⟩

/-- `vec_map.move` -/
structure Entry (K V : Type) where
  key : K
  value : V
  deriving DecidableEq

instance {K V : Type} [ToBcs K] [ToBcs V] : ToBcs (Entry K V) :=
  ⟨fun s => fields [toBcs s.key, toBcs s.value]⟩

structure VecMap (K V : Type) where
  contents : List (Entry K V)
  deriving DecidableEq

instance {K V : Type} [ToBcs K] [ToBcs V] : ToBcs (VecMap K V) :=
  ⟨fun s => fields [toBcs s.contents]⟩

/-- `vec_set.move` -/
structure VecSet (K : Type) where
  contents : List K
  deriving DecidableEq

instance {K : Type} [ToBcs K] : ToBcs (VecSet K) := ⟨fun s => fields [toBcs s.contents]⟩

/-- `option.move`: a vector with at most one element. -/
structure Option (Element : Type) where
  vec : List Element
  length_le : vec.length ≤ 1

instance {Element : Type} [ToBcs Element] : ToBcs (Option Element) :=
  ⟨fun s => fields [toBcs s.vec]⟩

/-- `string.move`: every constructor checks that the bytes are UTF-8. -/
structure String where
  bytes : Bytes
  valid : bytes.toByteArray.IsValidUTF8

instance : ToBcs String := ⟨fun s => fields [toBcs s.bytes]⟩

/-- `ascii.move`: every constructor checks that the bytes are ASCII. -/
structure AsciiString where
  bytes : Bytes
  valid : ∀ b ∈ bytes, b ≤ 127

instance : ToBcs AsciiString := ⟨fun s => fields [toBcs s.bytes]⟩

/-- `url.move` -/
structure Url where
  url : AsciiString

instance : ToBcs Url := ⟨fun s => fields [toBcs s.url]⟩

/-! ## `staking_pool.move` -/

structure StakingPool where
  id : UID
  (activationEpoch deactivationEpoch : Option UInt64)
  suiBalance : UInt64
  rewardsPool : Balance
  poolTokenBalance : UInt64
  exchangeRates : Table
  (pendingStake pendingTotalOctWithdraw pendingPoolTokenWithdraw : UInt64)
  extraFields : Bag

instance : ToBcs StakingPool := ⟨fun s => fields [toBcs s.id, toBcs s.activationEpoch,
  toBcs s.deactivationEpoch, toBcs s.suiBalance, toBcs s.rewardsPool, toBcs s.poolTokenBalance,
  toBcs s.exchangeRates, toBcs s.pendingStake, toBcs s.pendingTotalOctWithdraw,
  toBcs s.pendingPoolTokenWithdraw, toBcs s.extraFields]⟩

structure StakedOct where
  id : UID
  poolId : ID
  stakeActivationEpoch : UInt64
  principal : Balance
  lock : Bool
  deriving DecidableEq

instance : ToBcs StakedOct := ⟨fun s => fields [toBcs s.id, toBcs s.poolId,
  toBcs s.stakeActivationEpoch, toBcs s.principal, toBcs s.lock]⟩

/-! ## `validator.move` -/

structure ValidatorMetadata where
  suiAddress : Address
  (protocolPubkeyBytes networkPubkeyBytes workerPubkeyBytes proofOfPossession : Bytes)
  (name description : String)
  (imageUrl projectUrl : Url)
  (netAddress p2pAddress primaryAddress workerAddress : String)
  (nextEpochProtocolPubkeyBytes nextEpochProofOfPossession : Option Bytes)
  (nextEpochNetworkPubkeyBytes nextEpochWorkerPubkeyBytes : Option Bytes)
  (nextEpochNetAddress nextEpochP2pAddress nextEpochPrimaryAddress : Option String)
  nextEpochWorkerAddress : Option String
  extraFields : Bag

instance : ToBcs ValidatorMetadata := ⟨fun s => fields [toBcs s.suiAddress,
  toBcs s.protocolPubkeyBytes, toBcs s.networkPubkeyBytes, toBcs s.workerPubkeyBytes,
  toBcs s.proofOfPossession, toBcs s.name, toBcs s.description, toBcs s.imageUrl,
  toBcs s.projectUrl, toBcs s.netAddress, toBcs s.p2pAddress, toBcs s.primaryAddress,
  toBcs s.workerAddress, toBcs s.nextEpochProtocolPubkeyBytes, toBcs s.nextEpochProofOfPossession,
  toBcs s.nextEpochNetworkPubkeyBytes, toBcs s.nextEpochWorkerPubkeyBytes,
  toBcs s.nextEpochNetAddress, toBcs s.nextEpochP2pAddress, toBcs s.nextEpochPrimaryAddress,
  toBcs s.nextEpochWorkerAddress, toBcs s.extraFields]⟩

structure Validator where
  metadata : ValidatorMetadata
  revenueReceivingAddress : Address
  onlyValidatorStaking : Bool
  votingPower : UInt64
  operationCapId : ID
  gasPrice : UInt64
  stakingPool : StakingPool
  (commissionRate nextEpochStake nextEpochGasPrice nextEpochCommissionRate : UInt64)
  extraFields : Bag

instance : ToBcs Validator := ⟨fun s => fields [toBcs s.metadata, toBcs s.revenueReceivingAddress,
  toBcs s.onlyValidatorStaking, toBcs s.votingPower, toBcs s.operationCapId, toBcs s.gasPrice,
  toBcs s.stakingPool, toBcs s.commissionRate, toBcs s.nextEpochStake, toBcs s.nextEpochGasPrice,
  toBcs s.nextEpochCommissionRate, toBcs s.extraFields]⟩

/-! ## `validator_set.move` -/

structure ValidatorSet where
  totalStake : UInt64
  activeValidators : List Validator
  pendingActiveValidators : TableVec
  pendingRemovals : List UInt64
  (stakingPoolMappings inactiveValidators validatorCandidates : Table)
  atRiskValidators : VecMap Address UInt64
  onlyTrustedValidator : Bool
  trustedValidators : VecSet Address
  extraFields : Bag

instance : ToBcs ValidatorSet := ⟨fun s => fields [toBcs s.totalStake, toBcs s.activeValidators,
  toBcs s.pendingActiveValidators, toBcs s.pendingRemovals, toBcs s.stakingPoolMappings,
  toBcs s.inactiveValidators, toBcs s.validatorCandidates, toBcs s.atRiskValidators,
  toBcs s.onlyTrustedValidator, toBcs s.trustedValidators, toBcs s.extraFields]⟩

/-! ## `sui_system_state_inner.move` and its parts -/

/-- `supper_committee.move` -/
structure SupperCommittee where
  proposalList : List ID
  extraFields : Bag

instance : ToBcs SupperCommittee := ⟨fun s => fields [toBcs s.proposalList, toBcs s.extraFields]⟩

/-- `storage_fund.move` -/
structure StorageFund where
  (totalObjectStorageRebates nonRefundableBalance : Balance)

instance : ToBcs StorageFund :=
  ⟨fun s => fields [toBcs s.totalObjectStorageRebates, toBcs s.nonRefundableBalance]⟩

/-- `stake_subsidy.move` -/
structure StakeSubsidy where
  balance : Balance
  (distributionCounter currentDistributionAmount stakeSubsidyPeriodLength : UInt64)
  stakeSubsidyDecreaseRate : UInt16
  extraFields : Bag

instance : ToBcs StakeSubsidy := ⟨fun s => fields [toBcs s.balance, toBcs s.distributionCounter,
  toBcs s.currentDistributionAmount, toBcs s.stakeSubsidyPeriodLength,
  toBcs s.stakeSubsidyDecreaseRate, toBcs s.extraFields]⟩

structure SystemParametersV2 where
  (epochDurationMs stakeSubsidyStartEpoch minValidatorCount maxValidatorCount : UInt64)
  (minValidatorJoiningStake validatorLowStakeThreshold validatorVeryLowStakeThreshold : UInt64)
  validatorLowStakeGracePeriod : UInt64
  extraFields : Bag

instance : ToBcs SystemParametersV2 := ⟨fun s => fields [toBcs s.epochDurationMs,
  toBcs s.stakeSubsidyStartEpoch, toBcs s.minValidatorCount, toBcs s.maxValidatorCount,
  toBcs s.minValidatorJoiningStake, toBcs s.validatorLowStakeThreshold,
  toBcs s.validatorVeryLowStakeThreshold, toBcs s.validatorLowStakeGracePeriod,
  toBcs s.extraFields]⟩

structure SuiSystemStateInnerV2 where
  (epoch protocolVersion systemStateVersion : UInt64)
  supperCommittee : SupperCommittee
  validators : ValidatorSet
  storageFund : StorageFund
  parameters : SystemParametersV2
  referenceGasPrice : UInt64
  validatorReportRecords : VecMap Address (VecSet Address)
  stakeSubsidy : StakeSubsidy
  safeMode : Bool
  (safeModeStorageRewards safeModeComputationRewards : Balance)
  (safeModeStorageRebates safeModeNonRefundableStorageFee epochStartTimestampMs : UInt64)
  extraFields : Bag

instance : ToBcs SuiSystemStateInnerV2 := ⟨fun s => fields [toBcs s.epoch, toBcs s.protocolVersion,
  toBcs s.systemStateVersion, toBcs s.supperCommittee, toBcs s.validators, toBcs s.storageFund,
  toBcs s.parameters, toBcs s.referenceGasPrice, toBcs s.validatorReportRecords,
  toBcs s.stakeSubsidy, toBcs s.safeMode, toBcs s.safeModeStorageRewards,
  toBcs s.safeModeComputationRewards, toBcs s.safeModeStorageRebates,
  toBcs s.safeModeNonRefundableStorageFee, toBcs s.epochStartTimestampMs, toBcs s.extraFields]⟩

end Move

end OneChain.Codec
