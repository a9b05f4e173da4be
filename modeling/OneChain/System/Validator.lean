import OneChain.System.StakingPool

/-!
# `validator`: a validator and its pool

The functions of `validator.move`. A validator owns one staking pool and tracks, next to it, the
stake that will count in the next epoch (`nextEpochStake`). Two switches were added to the
upstream design: `onlyValidatorStaking` decides who may stake, and a receipt created by a
validator is *locked*, so that its principal leaves through a vesting object.
-/

namespace OneChain.System

open Lib Move StakingPool

/-! ## Metadata -/

structure ValidatorMetadata where
  suiAddress : Address
  (protocolPubkeyBytes networkPubkeyBytes workerPubkeyBytes proofOfPossession name : Bytes)
  (description imageUrl projectUrl netAddress p2pAddress primaryAddress workerAddress : Bytes)
  (nextEpochProtocolPubkeyBytes nextEpochProofOfPossession : Option Bytes)
  (nextEpochNetworkPubkeyBytes nextEpochWorkerPubkeyBytes : Option Bytes)
  (nextEpochNetAddress nextEpochP2pAddress : Option Bytes)
  (nextEpochPrimaryAddress nextEpochWorkerAddress : Option Bytes)
  deriving DecidableEq, Repr

/-- The macro `both_some_and_equal!`. -/
def bothSomeAndEqual (a b : Option Bytes) : Bool := a.any fun v => b.any fun w => v = w

namespace ValidatorMetadata

/-- A staged value of `staged` that collides with a current value. -/
def stagedEquals (staged : Option Bytes) (current : Bytes) : Bool := staged.any fun v => v = current

/-- The staged metadata of `self` against the current metadata of `other`. -/
def stagedAgainstCurrent (self other : ValidatorMetadata) : Bool :=
  stagedEquals self.nextEpochNetAddress other.netAddress
    || stagedEquals self.nextEpochP2pAddress other.p2pAddress
    || stagedEquals self.nextEpochProtocolPubkeyBytes other.protocolPubkeyBytes
    || stagedEquals self.nextEpochNetworkPubkeyBytes other.networkPubkeyBytes
    || stagedEquals self.nextEpochNetworkPubkeyBytes other.workerPubkeyBytes
    || stagedEquals self.nextEpochWorkerPubkeyBytes other.workerPubkeyBytes
    || stagedEquals self.nextEpochWorkerPubkeyBytes other.networkPubkeyBytes

def isDuplicate (self other : ValidatorMetadata) : Bool :=
  self.suiAddress = other.suiAddress
    || self.name = other.name
    || self.netAddress = other.netAddress
    || self.p2pAddress = other.p2pAddress
    || self.protocolPubkeyBytes = other.protocolPubkeyBytes
    || self.networkPubkeyBytes = other.networkPubkeyBytes
    || self.networkPubkeyBytes = other.workerPubkeyBytes
    || self.workerPubkeyBytes = other.workerPubkeyBytes
    || self.workerPubkeyBytes = other.networkPubkeyBytes
    || bothSomeAndEqual self.nextEpochNetAddress other.nextEpochNetAddress
    || bothSomeAndEqual self.nextEpochP2pAddress other.nextEpochP2pAddress
    || bothSomeAndEqual self.nextEpochProtocolPubkeyBytes other.nextEpochProtocolPubkeyBytes
    || bothSomeAndEqual self.nextEpochNetworkPubkeyBytes other.nextEpochNetworkPubkeyBytes
    || bothSomeAndEqual self.nextEpochNetworkPubkeyBytes other.nextEpochWorkerPubkeyBytes
    || bothSomeAndEqual self.nextEpochWorkerPubkeyBytes other.nextEpochWorkerPubkeyBytes
    || bothSomeAndEqual self.nextEpochWorkerPubkeyBytes other.nextEpochNetworkPubkeyBytes
    || self.stagedAgainstCurrent other
    || other.stagedAgainstCurrent self

/-- The proof of possession moves with the protocol key, and has to be there. -/
def effectuateProofOfPossession (self : ValidatorMetadata) : Call Bytes :=
  match self.nextEpochProtocolPubkeyBytes with
  | none => .ok self.proofOfPossession
  | some _ => require self.nextEpochProofOfPossession EOPTION_NOT_SET

/-- Replace each current value by the staged one, if there is one. -/
def effectuateStagedMetadata (self : ValidatorMetadata) : Call ValidatorMetadata := do
  let proofOfPossession ← self.effectuateProofOfPossession
  return { self with
    netAddress := self.nextEpochNetAddress.getD self.netAddress
    p2pAddress := self.nextEpochP2pAddress.getD self.p2pAddress
    primaryAddress := self.nextEpochPrimaryAddress.getD self.primaryAddress
    workerAddress := self.nextEpochWorkerAddress.getD self.workerAddress
    protocolPubkeyBytes := self.nextEpochProtocolPubkeyBytes.getD self.protocolPubkeyBytes
    proofOfPossession
    networkPubkeyBytes := self.nextEpochNetworkPubkeyBytes.getD self.networkPubkeyBytes
    workerPubkeyBytes := self.nextEpochWorkerPubkeyBytes.getD self.workerPubkeyBytes
    nextEpochNetAddress := none
    nextEpochP2pAddress := none
    nextEpochPrimaryAddress := none
    nextEpochWorkerAddress := none
    nextEpochProtocolPubkeyBytes := none
    nextEpochProofOfPossession :=
      if self.nextEpochProtocolPubkeyBytes.isSome then none else self.nextEpochProofOfPossession
    nextEpochNetworkPubkeyBytes := none
    nextEpochWorkerPubkeyBytes := none }

end ValidatorMetadata

/-! ## The validator -/

structure Validator where
  metadata : ValidatorMetadata
  revenueReceivingAddress : Address
  onlyValidatorStaking : Bool
  votingPower : ℕ
  operationCapId : ID
  gasPrice : ℕ
  stakingPool : StakingPool
  (commissionRate nextEpochStake nextEpochGasPrice nextEpochCommissionRate : ℕ)

namespace Validator

def maxCommissionRate : ℕ := 10000
def maxValidatorMetadataLength : ℕ := 256
def maxValidatorGasPrice : ℕ := 100000
def lockCliffEpoch : ℕ := 180
def lockIntervalEpoch : ℕ := 30
def lockPeriod : ℕ := 24

def ECommissionRateTooHigh : Abort := .code .validator 8
def EValidatorMetadataExceedingLengthLimit : Abort := .code .validator 9
def ENotValidatorCandidate : Abort := .code .validator 10
def EInvalidStakeAmount : Abort := .code .validator 11
def ECalledDuringNonGenesis : Abort := .code .validator 12
def EInvalidCap : Abort := .code .validator 101
def EGasPriceHigherThanThreshold : Abort := .code .validator 102
def EOnlyValidatorStake : Abort := .code .validator 201
def EValidatorStakeClosed : Abort := .code .validator 202
def EStakedOctIsLock : Abort := .code .validator 203

variable (self : Validator)

def suiAddress : Address := self.metadata.suiAddress

def stakingPoolId : ID := self.stakingPool.id

def isPreactive : Bool := self.stakingPool.isPreactive

def totalStake : ℕ := self.stakingPool.suiBalance

def isDuplicate (self other : Validator) : Bool := self.metadata.isDuplicate other.metadata

/-- What the caller of `new` supplies. -/
structure Registration where
  (suiAddress revenueReceivingAddress : Address)
  (protocolPubkeyBytes networkPubkeyBytes workerPubkeyBytes proofOfPossession name : Bytes)
  (description imageUrl projectUrl netAddress p2pAddress primaryAddress workerAddress : Bytes)
  (gasPrice commissionRate : ℕ)

def newMetadata (r : Registration) : ValidatorMetadata where
  suiAddress := r.suiAddress
  protocolPubkeyBytes := r.protocolPubkeyBytes
  networkPubkeyBytes := r.networkPubkeyBytes
  workerPubkeyBytes := r.workerPubkeyBytes
  proofOfPossession := r.proofOfPossession
  name := r.name
  description := r.description
  imageUrl := r.imageUrl
  projectUrl := r.projectUrl
  netAddress := r.netAddress
  p2pAddress := r.p2pAddress
  primaryAddress := r.primaryAddress
  workerAddress := r.workerAddress
  nextEpochProtocolPubkeyBytes := none
  nextEpochProofOfPossession := none
  nextEpochNetworkPubkeyBytes := none
  nextEpochWorkerPubkeyBytes := none
  nextEpochNetAddress := none
  nextEpochP2pAddress := none
  nextEpochPrimaryAddress := none
  nextEpochWorkerAddress := none

def newFromMetadata (metadata : ValidatorMetadata) (revenueReceivingAddress : Address)
    (onlyValidatorStaking : Bool) (gasPrice commissionRate : ℕ) (poolId capId : ID) :
    Validator where
  metadata := metadata
  votingPower := 0
  revenueReceivingAddress := revenueReceivingAddress
  onlyValidatorStaking := onlyValidatorStaking
  operationCapId := capId
  gasPrice := gasPrice
  stakingPool := StakingPool.new poolId
  commissionRate := commissionRate
  nextEpochStake := 0
  nextEpochGasPrice := gasPrice
  nextEpochCommissionRate := commissionRate

/-- A new validator, open to staking by validators only. The native `validate_metadata` is the
parameter `validate`; the context supplies the two fresh ids. -/
def new (validate : ValidatorMetadata → Call Unit) (r : Registration) (poolId capId : ID) :
    Call Validator := do
  check (∀ text ∈ [r.netAddress, r.p2pAddress, r.primaryAddress, r.workerAddress, r.name,
      r.description, r.imageUrl, r.projectUrl], text.length ≤ maxValidatorMetadataLength)
    EValidatorMetadataExceedingLengthLimit
  check (r.commissionRate ≤ maxCommissionRate) ECommissionRateTooHigh
  check (r.gasPrice < maxValidatorGasPrice) EGasPriceHigherThanThreshold
  let name ← toAsciiString r.name
  let description ← toAsciiString r.description
  let imageUrl ← toAsciiString r.imageUrl
  let projectUrl ← toAsciiString r.projectUrl
  let netAddress ← toAsciiString r.netAddress
  let p2pAddress ← toAsciiString r.p2pAddress
  let primaryAddress ← toAsciiString r.primaryAddress
  let workerAddress ← toAsciiString r.workerAddress
  let metadata := newMetadata { r with
    name, description, imageUrl, projectUrl, netAddress, p2pAddress, primaryAddress, workerAddress }
  validate metadata
  return newFromMetadata metadata r.revenueReceivingAddress true r.gasPrice r.commissionRate
    poolId capId

/-- A registration with empty texts and keys that depend on the address only. -/
def plainRegistration (address : Address) : Registration where
  suiAddress := address
  revenueReceivingAddress := address
  protocolPubkeyBytes := [address.toUInt8]
  networkPubkeyBytes := [address.toUInt8, 0]
  workerPubkeyBytes := [address.toUInt8, 1]
  proofOfPossession := []
  name := [address.toUInt8]
  description := []
  imageUrl := []
  projectUrl := []
  netAddress := [address.toUInt8]
  p2pAddress := [address.toUInt8]
  primaryAddress := []
  workerAddress := []
  gasPrice := 1000
  commissionRate := 200

/-- The validator that `new` makes of it. -/
def plain (address : Address) (poolId capId : ID) : Validator :=
  newFromMetadata (newMetadata (plainRegistration address)) address true 1000 200 poolId capId

theorem new_plainRegistration {address : Address} (h : address.toUInt8 ≤ 127) (poolId capId : ID) :
    new (fun _ => .ok ()) (plainRegistration address) poolId capId =
      .ok (plain address poolId capId) := by
  simp [new, plainRegistration, plain, check, toAsciiString, maxValidatorMetadataLength,
    maxCommissionRate, maxValidatorGasPrice, h]

/-! ### Staking -/

def requestAddStakeNoCheck (stake : ℕ) (isValidator : Bool) (epoch : ℕ) :
    Call (Validator × StakedOct) := do
  check (0 < stake) EInvalidStakeAmount
  let stakeEpoch ← addU64 epoch 1
  let (stakingPool, stakedOct) ← self.stakingPool.requestAddStake stake stakeEpoch isValidator
  let stakingPool ← stakingPool.processIfPreactive
  let nextEpochStake ← addU64 self.nextEpochStake stake
  return ({ self with stakingPool, nextEpochStake }, stakedOct)

def requestAddStake (stake : ℕ) (isValidator : Bool) (epoch : ℕ) :
    Call (Validator × StakedOct) := do
  if self.onlyValidatorStaking then
    check isValidator EOnlyValidatorStake
  else
    check (¬ isValidator) EValidatorStakeClosed
  self.requestAddStakeNoCheck stake isValidator epoch

def requestAddStakeAtGenesis (stake : ℕ) (lock : Bool) (epoch : ℕ) :
    Call (Validator × StakedOct) := do
  check (epoch = 0) ECalledDuringNonGenesis
  check (0 < stake) EInvalidStakeAmount
  let (stakingPool, stakedOct) ← self.stakingPool.requestAddStake stake 0 lock
  let stakingPool ← stakingPool.processPendingStake
  let nextEpochStake ← addU64 self.nextEpochStake stake
  return ({ self with stakingPool, nextEpochStake }, stakedOct)

def convertToFungibleStakedOct (stakedOct : StakedOct) (epoch : ℕ) :
    Call (Validator × FungibleStakedOct) := do
  check (¬ stakedOct.lock) EStakedOctIsLock
  let (stakingPool, fungible) ← self.stakingPool.convertToFungibleStakedOct stakedOct epoch
  return ({ self with stakingPool }, fungible)

def redeemFungibleStakedOct (fungible : FungibleStakedOct) (epoch : ℕ) :
    Call (Validator × ℕ) := do
  let (stakingPool, sui) ← self.stakingPool.redeemFungibleStakedOct fungible epoch
  let nextEpochStake ← subU64 .nextEpochStake self.nextEpochStake sui
  return ({ self with stakingPool, nextEpochStake }, sui)

/-- Withdraw a receipt: the balance that is paid out, and for a locked receipt the vesting object
that takes the principal. -/
def requestWithdrawStake (stakedOct : StakedOct) (epoch : ℕ) :
    Call (Validator × ℕ × Option CoinVesting) := do
  let (stakingPool, withdrawnStake) ← self.stakingPool.requestWithdrawStake stakedOct epoch
  let rewardAmount ← subU64 .other withdrawnStake stakedOct.principal
  let nextEpochStake ← subU64 .nextEpochStake self.nextEpochStake withdrawnStake
  let self := { self with stakingPool, nextEpochStake }
  if stakedOct.lock then do
    let (withdrawnStake, withdrawnReward) ← Balance.split withdrawnStake rewardAmount
    let coinVesting ← CoinVesting.newFormBalance withdrawnStake stakedOct.stakeActivationEpoch
      lockCliffEpoch lockIntervalEpoch lockPeriod
    return (self, withdrawnReward, some coinVesting)
  else
    return (self, withdrawnStake, none)

def setOnlyValidatorStaking (onlyValidatorStaking : Bool) : Validator :=
  { self with onlyValidatorStaking }

/-! ### Quotes -/

def requestSetGasPrice (capAddress : Address) (newPrice : ℕ) :
    Call Validator := do
  check (newPrice < maxValidatorGasPrice) EGasPriceHigherThanThreshold
  check (capAddress = self.suiAddress) EInvalidCap
  return { self with nextEpochGasPrice := newPrice }

def setCandidateGasPrice (capAddress : Address) (newPrice : ℕ) :
    Call Validator := do
  check self.isPreactive ENotValidatorCandidate
  check (newPrice < maxValidatorGasPrice) EGasPriceHigherThanThreshold
  check (capAddress = self.suiAddress) EInvalidCap
  return { self with nextEpochGasPrice := newPrice, gasPrice := newPrice }

def requestSetCommissionRate (newCommissionRate : ℕ) : Call Validator := do
  check (newCommissionRate ≤ maxCommissionRate) ECommissionRateTooHigh
  return { self with nextEpochCommissionRate := newCommissionRate }

/-- Sets the current rate and leaves the staged one. -/
def setCandidateCommissionRate (newCommissionRate : ℕ) : Call Validator := do
  check self.isPreactive ENotValidatorCandidate
  check (newCommissionRate ≤ maxCommissionRate) ECommissionRateTooHigh
  return { self with commissionRate := newCommissionRate }

/-! ### Epoch boundaries -/

def adjustStakeAndGasPrice : Validator :=
  { self with
    gasPrice := self.nextEpochGasPrice
    commissionRate := self.nextEpochCommissionRate }

def depositStakeRewards (reward : ℕ) : Call Validator := do
  let nextEpochStake ← addU64 self.nextEpochStake reward
  let stakingPool ← self.stakingPool.depositRewards reward
  return { self with nextEpochStake, stakingPool }

def processPendingStakesAndWithdraws (epoch : ℕ) : Call Validator := do
  let stakingPool ← self.stakingPool.processPendingStakesAndWithdraws epoch
  return { self with stakingPool }

def activate (activationEpoch : ℕ) : Call Validator := do
  let stakingPool ← self.stakingPool.activateStakingPool activationEpoch
  return { self with stakingPool }

def deactivate (deactivationEpoch : ℕ) : Call Validator := do
  let stakingPool ← self.stakingPool.deactivateStakingPool deactivationEpoch
  return { self with stakingPool }

def effectuateStagedMetadata : Call Validator := do
  let metadata ← self.metadata.effectuateStagedMetadata
  return { self with metadata }

/-! ### What the functions return -/

section Spec

variable {v v' : Validator} {epoch : ℕ}

theorem new_eq_ok {validate : ValidatorMetadata → Call Unit} {r : Registration} {poolId capId : ID}
    (h : new validate r poolId capId = .ok v) :
    v.suiAddress = r.suiAddress ∧ v.stakingPool = StakingPool.new poolId ∧ v.votingPower = 0 ∧
      v.nextEpochStake = 0 ∧ v.onlyValidatorStaking = true ∧
      v.commissionRate = r.commissionRate ∧ v.nextEpochCommissionRate = r.commissionRate ∧
      r.commissionRate ≤ maxCommissionRate := by
  simp only [new, ok_iff] at h
  obtain ⟨_, hr, _, _, _, _, _, _, _, _, _, _, _, _, _, _, _, _, _, _, _, rfl⟩ := h
  exact ⟨rfl, rfl, rfl, rfl, rfl, rfl, rfl, hr⟩

/-- The pool after new stake: a preactive pool takes it in at once. -/
def poolWithStake (pool : StakingPool) (stake : ℕ) : StakingPool :=
  if pool.isPreactive then (pool.withPending stake).minted else pool.withPending stake

variable {r s : StakedOct} {stake : ℕ} {isValidator : Bool} {f : FungibleStakedOct}

theorem requestAddStakeNoCheck_ok
    (h : v.requestAddStakeNoCheck stake isValidator epoch = .ok (v', r)) :
    0 < stake ∧ v.stakingPool.isInactive = false ∧
      r = ⟨v.stakingPool.id, epoch + 1, stake, isValidator⟩ ∧
      v' = { v with
        stakingPool := poolWithStake v.stakingPool stake
        nextEpochStake := v.nextEpochStake + stake } ∧
      (v.stakingPool.poolTokenBalance < u64Bound →
        (poolWithStake v.stakingPool stake).poolTokenBalance < u64Bound) := by
  simp only [requestAddStakeNoCheck, ok_iff, addU64_ok] at h
  obtain ⟨hpos, _, ⟨_, rfl⟩, pool₁, _, hadd, pool₂, hp, _, ⟨_, rfl⟩, rfl, rfl⟩ := h
  obtain ⟨hina, _, rfl, rfl⟩ := requestAddStake_ok hadd
  obtain ⟨rfl, hb⟩ := processIfPreactive_ok hp
  exact ⟨hpos, hina, rfl, rfl, hb⟩

theorem requestAddStake_ok : v.requestAddStake stake isValidator epoch = .ok (v', r) ↔
    isValidator = v.onlyValidatorStaking ∧
      v.requestAddStakeNoCheck stake isValidator epoch = .ok (v', r) := by
  unfold requestAddStake
  cases hm : v.onlyValidatorStaking with
  | true => simp [bind_ok]
  | false => simp [bind_ok]

/-- The flag is only written to the receipt. -/
theorem requestAddStakeNoCheck_of_lock {out : Validator × StakedOct}
    (h : v.requestAddStakeNoCheck stake isValidator epoch = .ok out) (lock : Bool) :
    ∃ v' r, v.requestAddStakeNoCheck stake lock epoch = .ok (v', r) := by
  simp only [requestAddStakeNoCheck, StakingPool.requestAddStake, ok_iff] at h ⊢
  obtain ⟨hpos, _, he, _, _, ⟨hin, hz, _, hp, rfl, _⟩, _, hpre, _, hn, _⟩ := h
  exact ⟨_, _, hpos, _, he, _, _, ⟨hin, hz, _, hp, rfl, rfl⟩, _, hpre, _, hn, rfl, rfl⟩

theorem requestAddStakeAtGenesis_ok {lock : Bool}
    (h : v.requestAddStakeAtGenesis stake lock epoch = .ok (v', r)) :
    epoch = 0 ∧ 0 < stake ∧ v.stakingPool.isInactive = false ∧
      r = ⟨v.stakingPool.id, 0, stake, lock⟩ ∧
      v' = { v with
        stakingPool := (v.stakingPool.withPending stake).minted
        nextEpochStake := v.nextEpochStake + stake } ∧
      (v.stakingPool.withPending stake).minted.poolTokenBalance < u64Bound := by
  simp only [requestAddStakeAtGenesis, ok_iff, addU64_ok] at h
  obtain ⟨he, hpos, pool₁, _, hadd, pool₂, hp, _, ⟨_, rfl⟩, rfl, rfl⟩ := h
  obtain ⟨hina, _, rfl, rfl⟩ := StakingPool.requestAddStake_ok hadd
  obtain ⟨rfl, _, hb⟩ := processPendingStake_ok hp
  exact ⟨he, hpos, hina, rfl, rfl, hb⟩

theorem convertToFungibleStakedOct_ok (h : v.convertToFungibleStakedOct s epoch = .ok (v', f)) :
    s.lock = false ∧ ∃ pool', v.stakingPool.convertToFungibleStakedOct s epoch = .ok (pool', f) ∧
      v' = { v with stakingPool := pool' } := by
  simp only [convertToFungibleStakedOct, ok_iff, Bool.not_eq_true] at h
  obtain ⟨hl, pool', f', hc, rfl, rfl⟩ := h
  exact ⟨hl, pool', hc, rfl⟩

theorem redeemFungibleStakedOct_ok {out : ℕ}
    (h : v.redeemFungibleStakedOct f epoch = .ok (v', out)) :
    out ≤ v.nextEpochStake ∧
      ∃ pool', v.stakingPool.redeemFungibleStakedOct f epoch = .ok (pool', out) ∧
      v' = { v with stakingPool := pool', nextEpochStake := v.nextEpochStake - out } := by
  simp only [redeemFungibleStakedOct, ok_iff, subU64_ok] at h
  obtain ⟨pool', out', hred, _, ⟨hle, rfl⟩, rfl, rfl⟩ := h
  exact ⟨hle, pool', hred, rfl⟩

/-- The vesting object that takes the principal of a locked receipt. -/
def vestingOf (s : StakedOct) : CoinVesting where
  total := s.principal
  balance := s.principal
  startEpoch := s.stakeActivationEpoch
  cliffIntervalEpoch := lockCliffEpoch
  lastReleaseEpoch := 0
  vestingIntervalEpoch := lockIntervalEpoch
  vestingInternalRelease := s.principal / lockPeriod

theorem requestWithdrawStake_ok {out : ℕ} {vesting : Option CoinVesting}
    (h : v.requestWithdrawStake s epoch = .ok (v', out, vesting)) :
    ∃ pool' withdrawn, v.stakingPool.requestWithdrawStake s epoch = .ok (pool', withdrawn) ∧
      s.principal ≤ withdrawn ∧ withdrawn ≤ v.nextEpochStake ∧
      v' = { v with stakingPool := pool', nextEpochStake := v.nextEpochStake - withdrawn } ∧
      vesting = (if s.lock then some (vestingOf s) else none) ∧
      out = if s.lock then withdrawn - s.principal else withdrawn := by
  simp only [requestWithdrawStake, ok_iff, subU64_ok] at h
  obtain ⟨pool', withdrawn, hpo, _, ⟨hle, rfl⟩, _, ⟨hs, rfl⟩, h⟩ := h
  refine ⟨pool', withdrawn, hpo, hle, hs, ?_⟩
  cases hl : s.lock with
  | true =>
    simp only [hl, if_true, bind_ok, Balance.split_ok, return_ok] at h
    obtain ⟨_, ⟨_, rfl⟩, _, ⟨_, ⟨_, rfl⟩, rfl⟩, rfl, rfl, rfl⟩ := h
    have hp : withdrawn - (withdrawn - s.principal) = s.principal := by omega
    simp [vestingOf, hp]
  | false =>
    simp only [hl] at h
    obtain ⟨rfl, rfl, rfl⟩ := h
    simp

theorem depositStakeRewards_ok {reward : ℕ} (h : v.depositStakeRewards reward = .ok v') :
    v' = { v with
      nextEpochStake := v.nextEpochStake + reward
      stakingPool := { v.stakingPool with
        suiBalance := v.stakingPool.suiBalance + reward
        rewardsPool := v.stakingPool.rewardsPool + reward } } := by
  simp only [depositStakeRewards, ok_iff, addU64_ok] at h
  obtain ⟨_, ⟨_, rfl⟩, pool', hp, rfl⟩ := h
  obtain rfl := depositRewards_ok hp
  rfl

/-- The three operations that only touch the pool. -/
theorem processPendingStakesAndWithdraws_ok
    (h : v.processPendingStakesAndWithdraws epoch = .ok v') :
    ∃ pool', v.stakingPool.processPendingStakesAndWithdraws epoch = .ok pool' ∧
      v' = { v with stakingPool := pool' } := by
  simp only [processPendingStakesAndWithdraws, ok_iff] at h
  obtain ⟨pool', hp, rfl⟩ := h
  exact ⟨pool', hp, rfl⟩

theorem activate_ok (h : v.activate epoch = .ok v') :
    ∃ pool', v.stakingPool.activateStakingPool epoch = .ok pool' ∧
      v' = { v with stakingPool := pool' } := by
  simp only [activate, ok_iff] at h
  obtain ⟨pool', hp, rfl⟩ := h
  exact ⟨pool', hp, rfl⟩

theorem deactivate_ok (h : v.deactivate epoch = .ok v') :
    ∃ pool', v.stakingPool.deactivateStakingPool epoch = .ok pool' ∧
      v' = { v with stakingPool := pool' } := by
  simp only [deactivate, ok_iff] at h
  obtain ⟨pool', hp, rfl⟩ := h
  exact ⟨pool', hp, rfl⟩

/-! ### Where the functions can underflow -/

variable {q : Quantity}

theorem requestAddStake_ne_underflow :
    v.requestAddStake stake isValidator epoch ≠ .error (.underflow q) := by
  have hadd : v.requestAddStakeNoCheck stake isValidator epoch ≠ .error (.underflow q) := by
    intro h
    simp only [requestAddStakeNoCheck, bind_error, check_error, EInvalidStakeAmount,
      addU64_ne_underflow, StakingPool.requestAddStake_ne_underflow, pure_ok, reduceCtorEq,
      and_false, exists_false, or_false, false_or] at h
    obtain ⟨_, _, _, _, _, _, h⟩ := h
    exact StakingPool.processIfPreactive_ne_underflow h
  unfold requestAddStake
  cases hm : v.onlyValidatorStaking <;>
    simp [bind_error, EOnlyValidatorStake, EValidatorStakeClosed, hadd]

theorem requestAddStakeAtGenesis_ne_underflow {lock : Bool} :
    v.requestAddStakeAtGenesis stake lock epoch ≠ .error (.underflow q) := by
  intro h
  simp only [requestAddStakeAtGenesis, bind_error, check_error, EInvalidStakeAmount,
    ECalledDuringNonGenesis, addU64_ne_underflow, StakingPool.requestAddStake_ne_underflow,
    pure_ok, reduceCtorEq, and_false, exists_false, or_false, false_or] at h
  obtain ⟨_, _, _, _, _, _, h⟩ := h
  cases StakingPool.processPendingStake_error h

theorem requestWithdrawStake_underflow (hq : q ≠ .other)
    (h : v.requestWithdrawStake s epoch = .error (.underflow q)) :
    v.stakingPool.requestWithdrawStake s epoch = .error (.underflow q) ∨ ∃ pool' withdrawn,
        v.stakingPool.requestWithdrawStake s epoch = .ok (pool', withdrawn) ∧
        v.nextEpochStake < withdrawn := by
  unfold requestWithdrawStake at h
  rcases bind_error.1 h with h | ⟨⟨pool', withdrawn⟩, hp, h⟩
  · exact .inl h
  refine .inr ⟨pool', withdrawn, hp, ?_⟩
  rcases bind_error.1 h with h | ⟨_, _, h⟩
  · exact absurd (Abort.underflow.inj (subU64_error.1 h).2) hq
  rcases bind_error.1 h with h | ⟨_, _, h⟩
  · exact (subU64_error.1 h).1
  · cases hl : s.lock <;>
      simp [hl, bind_error, CoinVesting.newFormBalance, divU64, lockPeriod] at h

theorem redeemFungibleStakedOct_underflow (hq : q ≠ .other)
    (h : v.redeemFungibleStakedOct f epoch = .error (.underflow q)) :
    ∃ pool' out, v.stakingPool.redeemFungibleStakedOct f epoch = .ok (pool', out) ∧
      v.nextEpochStake < out := by
  unfold redeemFungibleStakedOct at h
  rcases bind_error.1 h with h | ⟨⟨pool', out⟩, hp, h⟩
  · exact absurd h (redeemFungibleStakedOct_ne_underflow hq)
  rcases bind_error.1 h with h | ⟨_, _, h⟩
  · exact ⟨pool', out, hp, (subU64_error.1 h).1⟩
  · cases h

theorem convertToFungibleStakedOct_ne_underflow (hq : q ≠ .other) :
    v.convertToFungibleStakedOct s epoch ≠ .error (.underflow q) := by
  simp [convertToFungibleStakedOct, bind_error, EStakedOctIsLock,
    StakingPool.convertToFungibleStakedOct_ne_underflow hq]

theorem depositStakeRewards_ne_underflow {reward : ℕ} :
    v.depositStakeRewards reward ≠ .error (.underflow q) := by
  simp [depositStakeRewards, depositRewards, bind_error]

theorem activate_ne_underflow : v.activate epoch ≠ .error (.underflow q) := by
  simp [activate, activateStakingPool, Table.add, Table.EFieldAlreadyExists,
    StakingPool.EPoolAlreadyActive, StakingPool.EActivationOfInactivePool, bind_error]

theorem deactivate_ne_underflow : v.deactivate epoch ≠ .error (.underflow q) := by
  simp [deactivate, deactivateStakingPool, StakingPool.EDeactivationOfInactivePool, bind_error]

end Spec

end Validator

end OneChain.System
