import OneChain.Move.PriorityQueue
import OneChain.System.EpochChange
import OneChain.System.Funds
import OneChain.System.SupperCommittee

/-!
# `sui_system_state_inner`: the system state

The functions of `sui_system_state_inner.move` on `SuiSystemStateInnerV2`, and the creation of the
state in `genesis.move`. Each call is made by a `sender` or with an operation cap; `ctx.epoch()`
is the epoch of the state, also during the transaction that ends the epoch.

When `advance_epoch` aborts, the epoch is ended by `advance_epoch_safe_mode` on the Rust side,
which raises the epoch, keeps the rewards for later, and touches no validator.
-/

namespace OneChain.System

open Lib Move VotingPower

structure SystemParametersV2 where
  (epochDurationMs stakeSubsidyStartEpoch minValidatorCount maxValidatorCount : ℕ)
  validatorLowStakeGracePeriod : ℕ
  deriving DecidableEq, Repr

structure SuiSystemStateInnerV2 where
  (epoch protocolVersion : ℕ)
  supperCommittee : SupperCommittee
  validators : ValidatorSet
  storageFund : StorageFund
  parameters : SystemParametersV2
  referenceGasPrice : ℕ
  validatorReportRecords : ReportRecords
  stakeSubsidy : StakeSubsidy
  safeMode : Bool
  (safeModeStorageRewards safeModeComputationRewards safeModeStorageRebates : ℕ)
  (safeModeNonRefundableStorageFee epochStartTimestampMs : ℕ)

/-- Pop quotes from the highest down until they carry more than a third of the power. -/
def popUntil (threshold : ℕ) : ℕ → PriorityQueue ℕ → ℕ → ℕ → Call ℕ
  | 0, _, _, result => .ok result
  | fuel + 1, pq, sum, result =>
    if sum < threshold then do
      let (entry, pq) ← pq.popMax
      let sum ← addU64 sum entry.value
      popUntil threshold fuel pq sum entry.priority
    else .ok result

def ValidatorSet.deriveReferenceGasPrice (self : ValidatorSet) : Call ℕ :=
  let entries := self.activeValidators.map fun v => (⟨v.gasPrice, v.votingPower⟩ : Entry ℕ)
  let threshold := totalVotingPower - quorumThreshold
  -- a pop from the empty queue aborts, so that this many rounds are enough
  popUntil threshold (entries.length + 1) (PriorityQueue.new entries) 0 0

namespace SuiSystemStateInnerV2

def ENotValidator : Abort := .code .systemStateInner 0
def ELimitExceeded : Abort := .code .systemStateInner 1
def ECannotReportOneself : Abort := .code .systemStateInner 3
def EReportRecordNotFound : Abort := .code .systemStateInner 4
def EBpsTooLarge : Abort := .code .systemStateInner 5
def EAdvancedToWrongEpoch : Abort := .code .systemStateInner 8

def basisPointDenominator : ℕ := 10000

/-! ## Candidates, joining and leaving -/

/-- The context supplies the sender, who is the validator's address, and two fresh ids. -/
def requestAddValidatorCandidate (validate : ValidatorMetadata → Call Unit)
    (self : SuiSystemStateInnerV2) (r : Validator.Registration) (sender : Address)
    (poolId capId : ID) : Call SuiSystemStateInnerV2 := do
  let validator ← Validator.new validate { r with suiAddress := sender } poolId capId
  let validators ← self.validators.requestAddValidatorCandidate validator
  return { self with validators }

def requestRemoveValidatorCandidate (self : SuiSystemStateInnerV2) (sender : Address) :
    Call SuiSystemStateInnerV2 := do
  let validators ← self.validators.requestRemoveValidatorCandidate sender self.epoch
  return { self with validators }

def requestAddValidator (self : SuiSystemStateInnerV2) (sender : Address) :
    Call SuiSystemStateInnerV2 := do
  let count ← self.validators.nextEpochValidatorCount
  check (count < self.parameters.maxValidatorCount) ELimitExceeded
  let validators ← self.validators.requestAddValidator sender self.epoch
  return { self with validators }

variable (self : SuiSystemStateInnerV2)

/-- The floor: only looked at while there are enough validators. -/
def checkMinValidatorCount : Call Unit :=
  if self.parameters.minValidatorCount ≤ self.validators.activeValidators.length then do
    let count ← self.validators.nextEpochValidatorCount
    check (self.parameters.minValidatorCount < count) ELimitExceeded
  else .ok ()

def requestRemoveValidator (self : SuiSystemStateInnerV2) (sender : Address) :
    Call SuiSystemStateInnerV2 := do
  self.checkMinValidatorCount
  let validators ← self.validators.requestRemoveValidator sender
  return { self with validators }

/-! ## Staking -/

def requestAddStake (self : SuiSystemStateInnerV2) (stake : ℕ) (validatorAddress : Address) :
    Call (SuiSystemStateInnerV2 × StakedOct) := do
  let (validators, stakedOct) ←
    self.validators.requestAddStake validatorAddress stake false self.epoch
  return ({ self with validators }, stakedOct)

variable (cap : UnverifiedValidatorOperationCap)

/-- Staking by a validator: the cap is read but not verified. -/
def requestAddValStake (stake : ℕ) : Call (SuiSystemStateInnerV2 × StakedOct) := do
  let (validators, stakedOct) ←
    self.validators.requestAddStake cap.authorizerValidatorAddress stake true self.epoch
  return ({ self with validators }, stakedOct)

def requestWithdrawStake (self : SuiSystemStateInnerV2) (stakedOct : StakedOct) :
    Call (SuiSystemStateInnerV2 × ℕ × Option CoinVesting) := do
  let (validators, out) ← self.validators.requestWithdrawStake stakedOct self.epoch
  return ({ self with validators }, out)

def convertToFungibleStakedOct (self : SuiSystemStateInnerV2) (stakedOct : StakedOct) :
    Call (SuiSystemStateInnerV2 × FungibleStakedOct) := do
  let (validators, fungible) ← self.validators.convertToFungibleStakedOct stakedOct self.epoch
  return ({ self with validators }, fungible)

def redeemFungibleStakedOct (self : SuiSystemStateInnerV2) (fungible : FungibleStakedOct) :
    Call (SuiSystemStateInnerV2 × ℕ) := do
  let (validators, sui) ← self.validators.redeemFungibleStakedOct fungible self.epoch
  return ({ self with validators }, sui)

/-! ## Reports -/

/-- `report_validator_impl`. -/
def reportValidatorImpl (reporter reportee : Address) (records : ReportRecords) :
    Call ReportRecords := do
  check (reporter ≠ reportee) ECannotReportOneself
  match records.tryGet reportee with
  | none => records.insert reportee (VecSet.singleton reporter)
  | some reporters =>
    if reporters.contains reporter then return records
    else do
      let reporters ← reporters.insert reporter
      return records.set reportee reporters

/-- `undo_report_validator_impl`. -/
def undoReportValidatorImpl (reporter reportee : Address) (records : ReportRecords) :
    Call ReportRecords := do
  let reporters ← require (records.tryGet reportee) EReportRecordNotFound
  check (reporters.contains reporter) EReportRecordNotFound
  let reporters ← reporters.remove reporter
  if reporters.isEmpty then records.remove reportee else return records.set reportee reporters

def reportValidator (reportee : Address) : Call SuiSystemStateInnerV2 := do
  check (ValidatorSet.findValidator self.validators.activeValidators reportee).isSome ENotValidator
  let reporter ← self.validators.verifyCap cap .activeValidatorOnly
  let validatorReportRecords ← reportValidatorImpl reporter reportee self.validatorReportRecords
  return { self with validatorReportRecords }

def undoReportValidator (reportee : Address) : Call SuiSystemStateInnerV2 := do
  let reporter ← self.validators.verifyCap cap .activeValidatorOnly
  let validatorReportRecords ← undoReportValidatorImpl reporter reportee self.validatorReportRecords
  return { self with validatorReportRecords }

/-! ## Proposals -/

/-- One entry of the map of voting powers. -/
def insertVotingPower (validators : List Validator) (powers : VecMap Address ℕ)
    (validator : Address) : Call (VecMap Address ℕ) := do
  let v ← ValidatorSet.getValidatorRef validators validator
  powers.insert validator v.votingPower

/-- The addresses are taken from the back. -/
def activeValidatorVotingPowers : Call (VecMap Address ℕ) :=
  (self.validators.activeValidators.map Validator.suiAddress).reverse.foldlM
    (insertVotingPower self.validators.activeValidators) VecMap.empty

/-- Put an action to the vote. -/
def propose (id : ID) (validatorAddress : Address)
    (action : Action) (clock : ℕ) : Call (SuiSystemStateInnerV2 × Proposal) := do
  let powers ← self.activeValidatorVotingPowers
  let (supperCommittee, proposal) ←
    self.supperCommittee.createProposal id validatorAddress powers action clock
  return ({ self with supperCommittee }, proposal)

def createUpdateTrustedValidatorProposal (id : ID)
    (cap : UnverifiedValidatorOperationCap) (operate : Bool) (trustedValidator : Address)
    (clock : ℕ) : Call (SuiSystemStateInnerV2 × Proposal) := do
  self.validators.createUpdateTrustedValidatorAction operate trustedValidator
  let validatorAddress ← self.validators.verifyCap cap .activeValidatorOnly
  self.propose id validatorAddress (.updateTrustedValidators operate trustedValidator) clock

def createUpdateOnlyTrustedValidatorProposal (id : ID)
    (cap : UnverifiedValidatorOperationCap) (onlyTrustedValidator : Bool) (clock : ℕ) :
    Call (SuiSystemStateInnerV2 × Proposal) := do
  self.validators.createUpdateOnlyTrustedValidatorAction onlyTrustedValidator
  let validatorAddress ← self.validators.verifyCap cap .activeValidatorOnly
  self.propose id validatorAddress (.updateOnlyTrustedValidator onlyTrustedValidator) clock

def createUpdateOnlyValidatorStakingProposal (id : ID)
    (cap : UnverifiedValidatorOperationCap) (onlyValidatorStaking : Bool) (clock : ℕ) :
    Call (SuiSystemStateInnerV2 × Proposal) := do
  let validatorAddress ← self.validators.verifyCap cap .activeValidatorOnly
  self.validators.createUpdateOnlyValidatorStakingAction validatorAddress
  self.propose id validatorAddress
    (.updateOnlyValidatorStaking validatorAddress onlyValidatorStaking) clock

/-- The branches of `vote_proposal` on the type of the action. -/
def executeAction (self : ValidatorSet) : Action → Call ValidatorSet
  | .updateOnlyTrustedValidator onlyTrustedValidator =>
    .ok (self.executeUpdateOnlyTrustedValidatorAction onlyTrustedValidator)
  | .updateTrustedValidators operate validator =>
    self.executeUpdateTrustedValidatorsAction operate validator
  | .updateOnlyValidatorStaking validatorAddress onlyValidatorStaking =>
    self.executeUpdateOnlyValidatorStakingAction validatorAddress onlyValidatorStaking

/-- The end of `vote_proposal`: the action of a passed proposal is executed. Returns whether it
was. -/
def executeIfPassed (proposal : Proposal) (clock : ℕ) : Call (SuiSystemStateInnerV2 × Bool) :=
  if proposal.proposalStatus clock = .pass then do
    let validators ← executeAction self.validators proposal.action
    return ({ self with validators }, true)
  else .ok (self, false)

/-- Vote on a proposal. The last component says whether the action was executed. -/
def voteProposal (self : SuiSystemStateInnerV2) (cap : UnverifiedValidatorOperationCap)
    (proposal : Proposal) (agree : Bool) (clock : ℕ) :
    Call (SuiSystemStateInnerV2 × Proposal × Bool) := do
  let validatorAddress ← self.validators.verifyCap cap .activeValidatorOnly
  let powers ← self.activeValidatorVotingPowers
  let proposal ← proposal.voteProposal powers validatorAddress agree clock
  let (self, executed) ← self.executeIfPassed proposal clock
  return (self, proposal, executed)

/-! ## What validators set themselves -/

/-- Call `f` on the validator at `place`. -/
def modifyValidator (place : Place)
    (f : Validator → Call Validator) : Call SuiSystemStateInnerV2 := do
  let (validators, _) ← self.validators.modify place fun v => do
    let v ← f v
    return (v, ())
  return { self with validators }

/-- A call authorised by a cap. -/
def modifyWithCap (whichValidator : WhichValidator) (includeCandidate : Bool)
    (f : Validator → Address → Call Validator) : Call SuiSystemStateInnerV2 := do
  let address ← self.validators.verifyCap cap whichValidator
  let place ← self.validators.getActiveOrPendingOrCandidateValidatorMut address includeCandidate
  self.modifyValidator place (f · address)

/-- A call authorised by its sender. -/
def modifyWithCtx (sender : Address) (includeCandidate : Bool)
    (f : Validator → Call Validator) : Call SuiSystemStateInnerV2 := do
  let place ← self.validators.getActiveOrPendingOrCandidateValidatorMut sender includeCandidate
  self.modifyValidator place f

/-- A staged change must not collide with another validator. -/
def modifyUnique (sender : Address)
    (f : Validator → Call Validator) : Call SuiSystemStateInnerV2 := do
  let place ← self.validators.getActiveOrPendingOrCandidateValidatorMut sender false
  let self ← self.modifyValidator place f
  let validator ← require (self.validators.at? place) .missingObject
  self.validators.assertNoPendingOrActiveDuplicates validator
  return self

def requestSetGasPrice (self : SuiSystemStateInnerV2) (cap : UnverifiedValidatorOperationCap)
    (newGasPrice : ℕ) : Call SuiSystemStateInnerV2 :=
  self.modifyWithCap cap .activeOrPendingValidator false (·.requestSetGasPrice · newGasPrice)

def setCandidateValidatorGasPrice (newGasPrice : ℕ) : Call SuiSystemStateInnerV2 :=
  self.modifyWithCap cap .anyValidator true (·.setCandidateGasPrice · newGasPrice)

def requestSetRevenueReceivingAddress (self : SuiSystemStateInnerV2)
    (cap : UnverifiedValidatorOperationCap) (revenueReceivingAddress : Address) :
    Call SuiSystemStateInnerV2 :=
  self.modifyWithCap cap .anyValidator false
    (·.requestSetRevenueReceivingAddress · revenueReceivingAddress)

def requestSetCommissionRate (self : SuiSystemStateInnerV2) (newCommissionRate : ℕ)
    (sender : Address) : Call SuiSystemStateInnerV2 := do
  let place ← self.validators.getValidatorMut sender
  self.modifyValidator place (·.requestSetCommissionRate newCommissionRate)

def setCandidateValidatorCommissionRate (newCommissionRate : ℕ)
    (sender : Address) : Call SuiSystemStateInnerV2 :=
  self.modifyWithCtx sender true (·.setCandidateCommissionRate newCommissionRate)

def rotateOperationCap (sender : Address) (capId : ID) : Call SuiSystemStateInnerV2 :=
  self.modifyWithCtx sender true (·.newUnverifiedValidatorOperationCapAndTransfer sender capId)

/-- The entry points that update metadata. -/
inductive MetadataUpdate
  | name (bytes : Bytes)
  | description (bytes : Bytes)
  | imageUrl (bytes : Bytes)
  | projectUrl (bytes : Bytes)
  | nextEpochNetworkAddress (bytes : Bytes)
  | candidateNetworkAddress (bytes : Bytes)
  | nextEpochP2pAddress (bytes : Bytes)
  | candidateP2pAddress (bytes : Bytes)
  | nextEpochPrimaryAddress (bytes : Bytes)
  | candidatePrimaryAddress (bytes : Bytes)
  | nextEpochWorkerAddress (bytes : Bytes)
  | candidateWorkerAddress (bytes : Bytes)
  | nextEpochProtocolPubkey (key proofOfPossession : Bytes)
  | candidateProtocolPubkey (key proofOfPossession : Bytes)
  | nextEpochWorkerPubkey (key : Bytes)
  | candidateWorkerPubkey (key : Bytes)
  | nextEpochNetworkPubkey (key : Bytes)
  | candidateNetworkPubkey (key : Bytes)
  deriving DecidableEq, Repr

/-- `update_validator_…` and `update_candidate_validator_…`. The staged primary and worker
addresses are the two staged values that are not compared with other validators. -/
def updateMetadata (validate : ValidatorMetadata → Call Unit) (self : SuiSystemStateInnerV2)
    (sender : Address) : MetadataUpdate → Call SuiSystemStateInnerV2
  | .name bytes => self.modifyWithCtx sender true (·.updateName bytes)
  | .description bytes => self.modifyWithCtx sender true (·.updateDescription bytes)
  | .imageUrl bytes => self.modifyWithCtx sender true (·.updateImageUrl bytes)
  | .projectUrl bytes => self.modifyWithCtx sender true (·.updateProjectUrl bytes)
  | .nextEpochNetworkAddress bytes =>
    self.modifyUnique sender (Validator.updateNextEpochNetworkAddress validate · bytes)
  | .candidateNetworkAddress bytes =>
    self.modifyWithCtx sender true (Validator.updateCandidateNetworkAddress validate · bytes)
  | .nextEpochP2pAddress bytes =>
    self.modifyUnique sender (Validator.updateNextEpochP2pAddress validate · bytes)
  | .candidateP2pAddress bytes =>
    self.modifyWithCtx sender true (Validator.updateCandidateP2pAddress validate · bytes)
  | .nextEpochPrimaryAddress bytes =>
    self.modifyWithCtx sender false (Validator.updateNextEpochPrimaryAddress validate · bytes)
  | .candidatePrimaryAddress bytes =>
    self.modifyWithCtx sender true (Validator.updateCandidatePrimaryAddress validate · bytes)
  | .nextEpochWorkerAddress bytes =>
    self.modifyWithCtx sender false (Validator.updateNextEpochWorkerAddress validate · bytes)
  | .candidateWorkerAddress bytes =>
    self.modifyWithCtx sender true (Validator.updateCandidateWorkerAddress validate · bytes)
  | .nextEpochProtocolPubkey key proof =>
    self.modifyUnique sender (Validator.updateNextEpochProtocolPubkey validate proof · key)
  | .candidateProtocolPubkey key proof =>
    self.modifyWithCtx sender true (Validator.updateCandidateProtocolPubkey validate proof · key)
  | .nextEpochWorkerPubkey key =>
    self.modifyUnique sender (Validator.updateNextEpochWorkerPubkey validate · key)
  | .candidateWorkerPubkey key =>
    self.modifyWithCtx sender true (Validator.updateCandidateWorkerPubkey validate · key)
  | .nextEpochNetworkPubkey key =>
    self.modifyUnique sender (Validator.updateNextEpochNetworkPubkey validate · key)
  | .candidateNetworkPubkey key =>
    self.modifyWithCtx sender true (Validator.updateCandidateNetworkPubkey validate · key)

/-! ## The epoch change -/

structure AdvanceEpochParams where
  (newEpoch nextProtocolVersion storageReward computationReward storageRebateAmount : ℕ)
  (nonRefundableStorageFeeAmount storageFundReinvestRate rewardSlashingRate : ℕ)
  epochStartTimestampMs : ℕ
  deriving DecidableEq, Repr

/-- The subsidy of an epoch that was long enough; a fixed number of missed epochs is made up for. -/
def drawSubsidy (stakeSubsidy : StakeSubsidy) (oldEpoch : ℕ) : Call (StakeSubsidy × ℕ) := do
  let (stakeSubsidy, missed) ← stakeSubsidy.advanceEpochs 0
    (if stakeSubsidy.distributionCounter = 540 ∧ oldEpoch > 560 then oldEpoch - 560 else 0)
  let (stakeSubsidy, subsidy) ← stakeSubsidy.advanceEpoch
  let total ← Balance.join missed subsidy
  return (stakeSubsidy, total)

/-- The subsidy of the epoch that ends now. -/
def subsidyOf (parameters : SystemParametersV2)
    (epochStartTimestampMs : ℕ) : Call (StakeSubsidy × ℕ) :=
  if parameters.stakeSubsidyStartEpoch ≤ self.epoch then do
    let due ← addU64 self.epochStartTimestampMs parameters.epochDurationMs
    if due ≤ epochStartTimestampMs then drawSubsidy self.stakeSubsidy self.epoch
    else return (self.stakeSubsidy, 0)
  else .ok (self.stakeSubsidy, 0)

/-- The start of the subsidies is moved. -/
def adjustedParameters (parameters : SystemParametersV2) : SystemParametersV2 :=
  if 0 < parameters.stakeSubsidyStartEpoch then { parameters with stakeSubsidyStartEpoch := 20 }
  else parameters

/-- Returns the new state, the receipts of the validators' rewards, and the storage rebate. -/
def advanceEpoch (self : SuiSystemStateInnerV2) (p : AdvanceEpochParams) :
    Call (SuiSystemStateInnerV2 × List StakedOct × ℕ) := do
  check (p.storageFundReinvestRate ≤ basisPointDenominator ∧
    p.rewardSlashingRate ≤ basisPointDenominator) EBpsTooLarge
  let parameters := adjustedParameters self.parameters
  -- what was accumulated in safe mode is processed now
  let storageReward ← Balance.join p.storageReward self.safeModeStorageRewards
  let computationReward ← Balance.join p.computationReward self.safeModeComputationRewards
  let storageRebateAmount ← addU64 p.storageRebateAmount self.safeModeStorageRebates
  let nonRefundableStorageFeeAmount ←
    addU64 p.nonRefundableStorageFeeAmount self.safeModeNonRefundableStorageFee
  let storageFundBalance ← self.storageFund.totalBalance
  let totalStake ← addU64 storageFundBalance self.validators.totalStake
  let computationCharge := computationReward
  let (stakeSubsidy, subsidy) ← self.subsidyOf parameters p.epochStartTimestampMs
  let computationReward ← Balance.join computationReward subsidy
  let storageFundRewardAmount ← mulDiv storageFundBalance computationCharge totalStake
  let (computationReward, storageFundReward) ←
    Balance.split computationReward storageFundRewardAmount
  let storageFundReinvestmentAmount ←
    mulDiv storageFundRewardAmount p.storageFundReinvestRate basisPointDenominator
  let (storageFundReward, storageFundReinvestment) ←
    Balance.split storageFundReward storageFundReinvestmentAmount
  let epoch ← addU64 self.epoch 1
  check (p.newEpoch = epoch) EAdvancedToWrongEpoch
  let outcome ← self.validators.advanceEpoch computationReward storageFundReward
    self.validatorReportRecords p.rewardSlashingRate parameters.validatorLowStakeGracePeriod
    self.epoch
  let referenceGasPrice ← outcome.set.deriveReferenceGasPrice
  let leftoverStakingRewards ← Balance.join outcome.storageFundReward outcome.computationReward
  let (storageFund, refundedStorageRebate) ← self.storageFund.advanceEpoch storageReward
    storageFundReinvestment leftoverStakingRewards storageRebateAmount
    nonRefundableStorageFeeAmount
  let next := { self with
    epoch
    protocolVersion := p.nextProtocolVersion
    validators := outcome.set
    storageFund, parameters, referenceGasPrice
    validatorReportRecords := outcome.records
    stakeSubsidy
    safeMode := false
    safeModeStorageRewards := 0
    safeModeComputationRewards := 0
    safeModeStorageRebates := 0
    safeModeNonRefundableStorageFee := 0
    epochStartTimestampMs := p.epochStartTimestampMs }
  return (next, outcome.receipts, refundedStorageRebate)

/-- `advance_epoch_safe_mode` in `sui_system_state_inner_v2.rs`. -/
def advanceEpochSafeMode (p : AdvanceEpochParams) : SuiSystemStateInnerV2 :=
  { self with
    epoch := p.newEpoch
    safeMode := true
    safeModeStorageRewards := self.safeModeStorageRewards + p.storageReward
    safeModeStorageRebates := self.safeModeStorageRebates + p.storageRebateAmount
    safeModeComputationRewards := self.safeModeComputationRewards + p.computationReward
    safeModeNonRefundableStorageFee :=
      self.safeModeNonRefundableStorageFee + p.nonRefundableStorageFeeAmount
    epochStartTimestampMs := p.epochStartTimestampMs
    protocolVersion := p.nextProtocolVersion }

end SuiSystemStateInnerV2

/-! ## Genesis -/

namespace Genesis

def EDuplicateValidator : Abort := .code .genesis 1

/-- A validator at genesis, with the ids of its pool and its cap. -/
def addValidator (validate : ValidatorMetadata → Call Unit) (validators : List Validator)
    (item : Validator.Registration × ℕ) : Call (List Validator) := do
  let validator ← Validator.new validate item.1 (2 * item.2) (2 * item.2 + 1)
  check (¬ ValidatorSet.isDuplicateValidator validators validator) EDuplicateValidator
  return validators ++ [validator]

/-- Stake at genesis, always locked, and its receipt. -/
def allocate (state : List Validator × List StakedOct) (item : ℕ × Address) :
    Call (List Validator × List StakedOct) := do
  let idx ← ValidatorSet.getValidatorIndex state.1 item.2
  let validator ← Vector.borrow state.1 idx
  let (validator, receipt) ← validator.requestAddStakeAtGenesis item.1 true 0
  return (state.1.set idx validator, receipt :: state.2)

/-- The validators of genesis: registered, staked with, activated in epoch 0. The allocations are
taken from the back. -/
def createValidators (validate : ValidatorMetadata → Call Unit)
    (registrations : List Validator.Registration) (allocations : List (ℕ × Address)) :
    Call (List Validator × List StakedOct) := do
  let validators ← registrations.zipIdx.foldlM (addValidator validate) []
  let (validators, receipts) ← allocations.reverse.foldlM allocate (validators, [])
  let validators ← validators.mapM (·.activate 0)
  return (validators, receipts)

/-- `create`, and the upgrade to version 2, which sets the minimum number of validators. -/
def create (validators : List Validator) (initialStorageFund protocolVersion
    epochStartTimestampMs : ℕ) (parameters : SystemParametersV2) (stakeSubsidy : StakeSubsidy) :
    Call SuiSystemStateInnerV2 := do
  let validators ← ValidatorSet.new validators
  let referenceGasPrice ← validators.deriveReferenceGasPrice
  return {
    epoch := 0
    protocolVersion
    supperCommittee := SupperCommittee.new
    validators
    storageFund := StorageFund.new initialStorageFund
    parameters := { parameters with minValidatorCount := 4 }
    referenceGasPrice
    validatorReportRecords := VecMap.empty
    stakeSubsidy
    safeMode := false
    safeModeStorageRewards := 0
    safeModeComputationRewards := 0
    safeModeStorageRebates := 0
    safeModeNonRefundableStorageFee := 0
    epochStartTimestampMs }

end Genesis

end OneChain.System
