import OneChain.System.Rewards

/-!
# `validator_set`: who is a validator

The functions of `validator_set.move`. A validator starts as a *candidate*, becomes *pending* when
it asks to join, *active* at the next epoch change, and *inactive* when it leaves. Active
validators leave at their own request, when they lose their place among the trusted validators,
or because their stake is too low; requests are kept as indices into the active list until the
epoch changes.

A `&mut Validator` is modelled by its `Place`, and writing through the reference by `put`.
-/

namespace OneChain.System

open Lib Move VotingPower

structure ValidatorSet where
  totalStake : ℕ
  (activeValidators pendingActiveValidators : List Validator)
  /-- Indices into `activeValidators`. -/
  pendingRemovals : List ℕ
  stakingPoolMappings : Table ID Address
  inactiveValidators : Table ID Validator
  validatorCandidates : Table Address Validator
  /-- For how many epochs a validator's stake has been low. -/
  atRiskValidators : VecMap Address ℕ
  onlyTrustedValidator : Bool
  trustedValidators : VecSet Address
  /-- The entry of `extra_fields` under `VotingPowerAdmissionStartEpochKey`. -/
  votingPowerAdmissionStartEpoch : Option ℕ

/-- The validator, that is where to find it. -/
inductive Place
  | active (i : ℕ)
  | pending (i : ℕ)
  | candidate (address : Address)
  | inactive (poolId : ID)
  deriving DecidableEq, Repr

/-- The three kinds of validators an operation cap is verified against. -/
inductive WhichValidator
  | activeValidatorOnly
  | activeOrPendingValidator
  | anyValidator
  deriving DecidableEq, Repr

/-- `validator_cap::UnverifiedValidatorOperationCap`. -/
structure UnverifiedValidatorOperationCap where
  id : ID
  authorizerValidatorAddress : Address
  deriving DecidableEq, Repr

namespace ValidatorSet

def EDuplicateValidator : Abort := .code .validatorSet 2
def ENoPoolFound : Abort := .code .validatorSet 3
def EMinJoiningStakeNotReached : Abort := .code .validatorSet 5
def EAlreadyValidatorCandidate : Abort := .code .validatorSet 6
def EValidatorNotCandidate : Abort := .code .validatorSet 7
def ENotValidatorCandidate : Abort := .code .validatorSet 8
def ENotActiveOrPendingValidator : Abort := .code .validatorSet 9
def EStakingBelowThreshold : Abort := .code .validatorSet 10
def EValidatorAlreadyRemoved : Abort := .code .validatorSet 11
def EInvalidCap : Abort := .code .validatorSet 101
def EOnlyTrustValidatorJoin : Abort := .code .validatorSet 201
def EValidatorOnlyStakingSame : Abort := .code .validatorSet 202
def ETrustValidatorExist : Abort := .code .validatorSet 203
def ETrustValidatorNotExist : Abort := .code .validatorSet 204

def minStakingThreshold : ℕ := 1000000000
def phaseLength : ℕ := 14

variable (validators : List Validator)

def calculateTotalStakes : Call ℕ := validators.foldlM (fun stake v => addU64 stake v.totalStake) 0

/-- The set at genesis: the initial validators are the trusted ones. -/
def new (initActiveValidators : List Validator) : Call ValidatorSet := do
  let totalStake ← calculateTotalStakes initActiveValidators
  let stakingPoolMappings ← initActiveValidators.foldlM
    (fun mappings v => Table.add mappings v.stakingPoolId v.suiAddress) Table.empty
  let trustedValidators ← initActiveValidators.foldlM
    (fun trusted v => VecSet.insert trusted v.suiAddress) VecSet.empty
  let activeValidators ← setVotingPower initActiveValidators totalStake
  return {
    totalStake, activeValidators
    pendingActiveValidators := []
    pendingRemovals := []
    stakingPoolMappings
    inactiveValidators := Table.empty
    validatorCandidates := Table.empty
    atRiskValidators := VecMap.empty
    onlyTrustedValidator := true
    trustedValidators
    votingPowerAdmissionStartEpoch := none }

/-! ## References -/

variable (self : ValidatorSet)

/-- The validator at a place. -/
def at? : Place → Option Validator
  | .active i => self.activeValidators[i]?
  | .pending i => self.pendingActiveValidators[i]?
  | .candidate address => self.validatorCandidates address
  | .inactive poolId => self.inactiveValidators poolId

/-- Write the validator at a place. -/
def put (v : Validator) : Place → ValidatorSet
  | .active i => { self with activeValidators := self.activeValidators.set i v }
  | .pending i => { self with pendingActiveValidators := self.pendingActiveValidators.set i v }
  | .candidate address =>
    { self with validatorCandidates := self.validatorCandidates.set address v }
  | .inactive poolId => { self with inactiveValidators := self.inactiveValidators.set poolId v }

/-- Call `f` on the validator at a place. -/
def modify {β : Type} (self : ValidatorSet) (place : Place) (f : Validator → Call (Validator × β)) :
    Call (ValidatorSet × β) := do
  let v ← require (self.at? place) .missingObject
  let (v', b) ← f v
  return (self.put v' place, b)

variable (validatorAddress : Address)

def getValidatorMut : Call Place := do
  let idx ← getValidatorIndex self.activeValidators validatorAddress
  return .active idx

def getCandidateOrActiveValidatorMut : Call Place :=
  if self.validatorCandidates.contains validatorAddress then .ok (.candidate validatorAddress)
  else self.getValidatorMut validatorAddress

/-- The end of the search: neither active nor pending. -/
def getCandidate : Call Place := do
  let _ ← self.validatorCandidates.borrow validatorAddress
  return .candidate validatorAddress

def getActiveOrPendingOrCandidateValidatorMut (includeCandidate : Bool) : Call Place :=
  match findValidator self.activeValidators validatorAddress,
    findValidator self.pendingActiveValidators validatorAddress with
  | some i, _ => .ok (.active i)
  | none, some i => .ok (.pending i)
  | none, none => do
    check includeCandidate ENotActiveOrPendingValidator
    self.getCandidate validatorAddress

/-- The read-only search. An index that was not found is extracted from an empty option. -/
def getActiveOrPendingOrCandidateValidatorRef (whichValidator : WhichValidator) : Call Place :=
  match findValidator self.activeValidators validatorAddress,
    findValidator self.pendingActiveValidators validatorAddress with
  | some i, _ => .ok (.active i)
  | none, some i => do
    check (whichValidator ≠ .activeValidatorOnly) EOPTION_NOT_SET
    return .pending i
  | none, none => do
    check (whichValidator = .anyValidator) EOPTION_NOT_SET
    self.getCandidate validatorAddress

/-- The validator that a receipt's pool belongs to. -/
def getValidatorByPool (poolId : ID) : Call Place :=
  match self.stakingPoolMappings poolId with
  | some validatorAddress => self.getCandidateOrActiveValidatorMut validatorAddress
  | none => do
    check (self.inactiveValidators.contains poolId) ENoPoolFound
    return .inactive poolId

/-- The validator that a cap is verified against. -/
def getCapHolder (capAddress : Address) (whichValidator : WhichValidator) : Call Place :=
  if whichValidator = .activeValidatorOnly then self.getValidatorMut capAddress
  else self.getActiveOrPendingOrCandidateValidatorRef capAddress whichValidator

/-- Returns the address of the verified cap. -/
def verifyCap (cap : UnverifiedValidatorOperationCap)
    (whichValidator : WhichValidator) : Call Address := do
  let place ← self.getCapHolder cap.authorizerValidatorAddress whichValidator
  let validator ← require (self.at? place) .missingObject
  check (validator.operationCapId = cap.id) EInvalidCap
  return cap.authorizerValidatorAddress

/-! ## Trusted validators -/

def createUpdateOnlyTrustedValidatorAction (onlyTrustedValidator : Bool) : Call Unit :=
  check (self.onlyTrustedValidator ≠ onlyTrustedValidator) EValidatorOnlyStakingSame

def executeUpdateOnlyTrustedValidatorAction (onlyTrustedValidator : Bool) : ValidatorSet :=
  { self with onlyTrustedValidator }

def createUpdateTrustedValidatorAction (operate : Bool) (validator : Address) : Call Unit :=
  if operate then check (¬ self.trustedValidators.contains validator) ETrustValidatorExist
  else check (self.trustedValidators.contains validator) ETrustValidatorNotExist

/-- Mark an active validator for removal at the next epoch change. -/
def removeValidator : Call ValidatorSet := do
  let validatorIndex ← getValidatorIndex self.activeValidators validatorAddress
  check (validatorIndex ∉ self.pendingRemovals) EValidatorAlreadyRemoved
  return { self with pendingRemovals := self.pendingRemovals ++ [validatorIndex] }

/-- Only an *active* validator that loses its trust is marked for removal. -/
def executeUpdateTrustedValidatorsAction (operate : Bool)
    (validator : Address) : Call ValidatorSet :=
  if operate ∧ ¬ self.trustedValidators.contains validator then do
    let trustedValidators ← self.trustedValidators.insert validator
    return { self with trustedValidators }
  else if ¬ operate ∧ self.trustedValidators.contains validator then do
    let trustedValidators ← self.trustedValidators.remove validator
    let self := { self with trustedValidators }
    if (findValidator self.activeValidators validator).isSome then self.removeValidator validator
    else return self
  else .ok self

def createUpdateOnlyValidatorStakingAction : Call Unit :=
  check ((findValidator self.activeValidators validatorAddress).isSome ∨
      (findValidator self.pendingActiveValidators validatorAddress).isSome ∨
      self.validatorCandidates.contains validatorAddress)
    ENotAValidator

def executeUpdateOnlyValidatorStakingAction (onlyValidatorStaking : Bool) : Call ValidatorSet := do
  let place ← self.getActiveOrPendingOrCandidateValidatorMut validatorAddress true
  let (self, _) ← self.modify place fun v =>
    .ok (v.setOnlyValidatorStaking onlyValidatorStaking, ())
  return self

def isTrustedValidator (validator : Address) : Bool :=
  if ¬ self.onlyTrustedValidator then true else self.trustedValidators.contains validator

/-! ## Joining and leaving -/

variable (validator : Validator)

def countDuplicates : ℕ := validators.countP fun v => v.isDuplicate validator

def isDuplicateValidator (newValidator : Validator) : Bool :=
  0 < countDuplicates validators newValidator

def assertNoPendingOrActiveDuplicates : Call Unit :=
  check (countDuplicates self.activeValidators validator +
      countDuplicates self.pendingActiveValidators validator = 1)
    EDuplicateValidator

def checkNoDuplicates : Call Unit :=
  check (¬ isDuplicateValidator self.activeValidators validator ∧
      ¬ isDuplicateValidator self.pendingActiveValidators validator)
    EDuplicateValidator

def requestAddValidatorCandidate :
    Call ValidatorSet := do
  self.checkNoDuplicates validator
  check (¬ self.validatorCandidates.contains validator.suiAddress) EAlreadyValidatorCandidate
  check validator.isPreactive EValidatorNotCandidate
  let stakingPoolMappings ←
    self.stakingPoolMappings.add validator.stakingPoolId validator.suiAddress
  let validatorCandidates ← self.validatorCandidates.add validator.suiAddress validator
  return { self with stakingPoolMappings, validatorCandidates }

def requestRemoveValidatorCandidate (sender : Address) (epoch : ℕ) :
    Call ValidatorSet := do
  check (self.validatorCandidates.contains sender) ENotValidatorCandidate
  let (validatorCandidates, validator) ← self.validatorCandidates.remove sender
  check validator.isPreactive EValidatorNotCandidate
  let (stakingPoolMappings, _) ← self.stakingPoolMappings.remove validator.stakingPoolId
  let inactive ← validator.deactivate epoch
  let inactiveValidators ← self.inactiveValidators.add validator.stakingPoolId inactive
  return { self with validatorCandidates, stakingPoolMappings, inactiveValidators }

def admissionStartEpoch (epoch : ℕ) : Call ℕ :=
  match self.votingPowerAdmissionStartEpoch with
  | some startEpoch => .ok startEpoch
  | none => addU64 epoch 1

/-- The voting powers to join, to stay, and not to be removed at once. -/
def getVotingPowerThresholds (epoch : ℕ) : Call (ℕ × ℕ × ℕ) := do
  let startEpoch ← self.admissionStartEpoch epoch
  let phase2 ← addU64 startEpoch phaseLength
  if epoch < phase2 then return (12, 8, 4)
  else do
    let phase3 ← addU64 startEpoch (2 * phaseLength)
    if epoch < phase3 then return (6, 4, 2) else return (3, 2, 1)

def canJoin (stake epoch : ℕ) : Call Bool := do
  let (minJoiningVotingPower, _, _) ← self.getVotingPowerThresholds epoch
  let futureTotalStake ← addU64 self.totalStake stake
  let futureValidatorVotingPower ← deriveRawVotingPower stake futureTotalStake
  return minJoiningVotingPower ≤ futureValidatorVotingPower

def requestAddValidator (sender : Address) (epoch : ℕ) :
    Call ValidatorSet := do
  check (self.validatorCandidates.contains sender) ENotValidatorCandidate
  check (self.isTrustedValidator sender) EOnlyTrustValidatorJoin
  let (validatorCandidates, validator) ← self.validatorCandidates.remove sender
  self.checkNoDuplicates validator
  check validator.isPreactive EValidatorNotCandidate
  let joins ← self.canJoin validator.totalStake epoch
  check joins EMinJoiningStakeNotReached
  return { self with
    validatorCandidates
    pendingActiveValidators := self.pendingActiveValidators ++ [validator] }

def requestRemoveValidator (sender : Address) : Call ValidatorSet := self.removeValidator sender

def nextEpochValidatorCount : Call ℕ := do
  let staying ← subU64 .other self.activeValidators.length self.pendingRemovals.length
  addU64 staying self.pendingActiveValidators.length

/-! ## Staking -/

def requestAddStake (validatorAddress : Address) (stake : ℕ)
    (isValidator : Bool) (epoch : ℕ) : Call (ValidatorSet × StakedOct) := do
  check (minStakingThreshold ≤ stake) EStakingBelowThreshold
  let place ← self.getCandidateOrActiveValidatorMut validatorAddress
  self.modify place (·.requestAddStake stake isValidator epoch)

def requestWithdrawStake (stakedOct : StakedOct) (epoch : ℕ) :
    Call (ValidatorSet × ℕ × Option CoinVesting) := do
  let place ← self.getValidatorByPool stakedOct.poolId
  self.modify place (·.requestWithdrawStake stakedOct epoch)

def convertToFungibleStakedOct (stakedOct : StakedOct) (epoch : ℕ) :
    Call (ValidatorSet × FungibleStakedOct) := do
  let place ← self.getValidatorByPool stakedOct.poolId
  self.modify place (·.convertToFungibleStakedOct stakedOct epoch)

def redeemFungibleStakedOct (fungible : FungibleStakedOct) (epoch : ℕ) :
    Call (ValidatorSet × ℕ) := do
  let place ← self.getValidatorByPool fungible.poolId
  self.modify place (·.redeemFungibleStakedOct fungible epoch)

end ValidatorSet

end OneChain.System
