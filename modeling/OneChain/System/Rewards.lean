import OneChain.System.Metadata
import OneChain.System.VotingPower

/-!
# `validator_set`: the rewards of an epoch

The functions of `validator_set.move` that share out the rewards at an epoch change. Every active
validator gets its part by voting power, and an equal part of the storage fund's reward. A
validator reported by a quorum is slashed, and what it loses goes to the others. Of its part the
validator keeps a commission, as new stake; the rest goes to its stakers.

A validator is found by its address; a vector indexed alongside the validators is a list.
-/

namespace OneChain.System

open Lib Move VotingPower

/-- Who has reported whom. -/
abbrev ReportRecords := VecMap Address (VecSet Address)

namespace ValidatorSet

def basisPointDenominator : ℕ := 10000

def ENonValidatorInReportRecords : Abort := .code .validatorSet 0
def ENotAValidator : Abort := .code .validatorSet 4
def EValidatorSetEmpty : Abort := .code .validatorSet 13

/-! ## Finding validators -/

variable (validators : List Validator)

variable (validatorAddress : Address)

def findValidator : Option ℕ := validators.findIdx? fun v => v.suiAddress = validatorAddress

def getValidatorIndex : Call ℕ := require (findValidator validators validatorAddress) ENotAValidator

def getValidatorIndices (validatorAddresses : List Address) : Call (List ℕ) :=
  validatorAddresses.mapM (getValidatorIndex validators)

def getValidatorRef :
    Call Validator := do
  let idx ← getValidatorIndex validators validatorAddress
  Vector.borrow validators idx

variable {vs : List Validator} {v : Validator} {epoch : ℕ}

theorem getValidatorIndex_of_mem (hvs : (vs.map Validator.suiAddress).Nodup) {i : ℕ}
    (hv : vs[i]? = some v) : getValidatorIndex vs v.suiAddress = .ok i := by
  rw [getValidatorIndex, findValidator, findIdx?_key hvs hv rfl]
  rfl

theorem getValidatorRef_of_mem (hvs : (vs.map Validator.suiAddress).Nodup) (hv : v ∈ vs) :
    getValidatorRef vs v.suiAddress = .ok v := by
  obtain ⟨i, hi⟩ := List.getElem?_of_mem hv
  rw [getValidatorRef, getValidatorIndex_of_mem hvs hi, ok_bind, Vector.borrow_ok]
  exact hi

def sumVotingPowerByAddresses (vs : List Validator) (addresses : List Address) : Call ℕ :=
  addresses.foldlM (fun sum addr => do
    let validator ← getValidatorRef vs addr
    addU64 sum validator.votingPower) 0

/-! ## Slashing -/

variable (activeValidators : List Validator)

/-- One report record: the reported validator is slashed if its reporters have a quorum. -/
def reviewRecord (slashedValidators : List Address)
    (record : Address × VecSet Address) : Call (List Address) := do
  check (findValidator activeValidators record.1).isSome ENonValidatorInReportRecords
  let reporterVotes ← sumVotingPowerByAddresses activeValidators record.2.contents
  return if quorumThreshold ≤ reporterVotes then slashedValidators ++ [record.1]
    else slashedValidators

/-- The records are popped from the back. -/
def computeSlashedValidators (records : ReportRecords) : Call (List Address) :=
  records.contents.reverse.foldlM (reviewRecord activeValidators) []

def computeUnadjustedRewardDistribution
    (totalVotingPower totalStakingReward totalStorageFundReward : ℕ) :
    Call (List ℕ × List ℕ) := do
  let storageFundRewardPerValidator ← divU64 totalStorageFundReward validators.length
  let stakingRewardAmounts ← validators.mapM fun validator =>
    mulDiv validator.votingPower totalStakingReward totalVotingPower
  return (stakingRewardAmounts, validators.map fun _ => storageFundRewardPerValidator)

/-- What is taken from the slashed validators: the sum, and the amount for each index. -/
structure RewardAdjustments where
  total : ℕ
  individual : VecMap ℕ ℕ

def RewardAdjustments.zero : RewardAdjustments := ⟨0, VecMap.empty⟩

/-- Take its part from the validator at `validatorIndex`. -/
def adjustReward (rewardSlashingRate : ℕ) (unadjustedAmounts : List ℕ)
    (adjustments : RewardAdjustments) (validatorIndex : ℕ) : Call RewardAdjustments := do
  let unadjustedReward ← Vector.borrow unadjustedAmounts validatorIndex
  let adjustment ← mulDiv unadjustedReward rewardSlashingRate basisPointDenominator
  let individual ← adjustments.individual.insert validatorIndex adjustment
  let total ← addU64 adjustments.total adjustment
  return ⟨total, individual⟩

/-- The staking and the storage fund adjustments. The indices are taken from the back. -/
def computeRewardAdjustments (slashedValidatorIndices : List ℕ) (rewardSlashingRate : ℕ)
    (unadjustedStakingRewardAmounts unadjustedStorageFundRewardAmounts : List ℕ) :
    Call (RewardAdjustments × RewardAdjustments) :=
  slashedValidatorIndices.reverse.foldlM (fun (staking, storageFund) validatorIndex => do
      let staking ← adjustReward rewardSlashingRate unadjustedStakingRewardAmounts staking
        validatorIndex
      let storageFund ← adjustReward rewardSlashingRate unadjustedStorageFundRewardAmounts
        storageFund validatorIndex
      return (staking, storageFund))
    (RewardAdjustments.zero, RewardAdjustments.zero)

/-- A slashed amount is reduced by its own adjustment; any other grows by `bonus`. -/
def adjustedAmount (adjustments : RewardAdjustments) (i unadjustedAmount : ℕ) (bonus : Call ℕ) :
    Call ℕ :=
  match adjustments.individual.tryGet i with
  | some adjustment => subU64 .other unadjustedAmount adjustment
  | none => do
    let adjustment ← bonus
    addU64 unadjustedAmount adjustment

def computeAdjustedRewardDistribution (totalVotingPower totalSlashedValidatorVotingPower : ℕ)
    (unadjustedStakingRewardAmounts unadjustedStorageFundRewardAmounts : List ℕ)
    (staking storageFund : RewardAdjustments) : Call (List (ℕ × ℕ)) := do
  let totalUnslashedValidatorVotingPower ←
    subU64 .other totalVotingPower totalSlashedValidatorVotingPower
  let numUnslashedValidators ← subU64 .other validators.length staking.individual.size
  validators.zipIdx.mapM fun (validator, i) => do
    let unadjustedStaking ← Vector.borrow unadjustedStakingRewardAmounts i
    let adjustedStaking ← adjustedAmount staking i unadjustedStaking
      (mulDiv staking.total validator.votingPower totalUnslashedValidatorVotingPower)
    let unadjustedStorageFund ← Vector.borrow unadjustedStorageFundRewardAmounts i
    let adjustedStorageFund ← adjustedAmount storageFund i unadjustedStorageFund
      (divU64 storageFund.total numUnslashedValidators)
    return (adjustedStaking, adjustedStorageFund)

/-! ## Paying out -/

/-- The payout is staked with the validator itself, unless it is zero. The receipt goes to the
validator. -/
def stakeReward (validator : Validator) (validatorReward epoch : ℕ) :
    Call (Validator × Option StakedOct) :=
  if 0 < validatorReward then do
    let (validator, rewardsStake) ← validator.requestAddStake validatorReward false epoch
    return (validator, some rewardsStake)
  else .ok (validator, none)

/-- The state of the loop in `distribute_reward`: the validators and receipts so far, and what is
left of the two rewards. -/
structure Payroll where
  validators : List Validator
  receipts : List StakedOct
  (stakingRewards storageFundReward : ℕ)

/-- One round of the loop. -/
def payValidator (epoch : ℕ) (payroll : Payroll) (item : Validator × ℕ × ℕ) : Call Payroll := do
  let (validator, stakingRewardAmount, storageFundRewardAmount) := item
  let (stakingRewards, stakerReward) ← Balance.split payroll.stakingRewards stakingRewardAmount
  let validatorCommissionAmount ←
    mulDiv stakingRewardAmount validator.commissionRate basisPointDenominator
  let (stakerReward, validatorReward) ← Balance.split stakerReward validatorCommissionAmount
  let (storageFundReward, storageFundPart) ←
    Balance.split payroll.storageFundReward storageFundRewardAmount
  let validatorReward ← Balance.join validatorReward storageFundPart
  let (validator, receipt) ← stakeReward validator validatorReward epoch
  let validator ← validator.depositStakeRewards stakerReward
  return {
    validators := payroll.validators ++ [validator]
    receipts := payroll.receipts ++ receipt.toList
    stakingRewards, storageFundReward }

/-- The validators are taken together with their adjusted amounts. -/
def distributeReward (adjustedAmounts : List (ℕ × ℕ))
    (stakingRewards storageFundReward epoch : ℕ) : Call Payroll := do
  check (0 < validators.length) EValidatorSetEmpty
  (validators.zip adjustedAmounts).foldlM (payValidator epoch)
    ⟨[], [], stakingRewards, storageFundReward⟩

/-- The reward phase of `advance_epoch`. -/
def distributeRewards (records : ReportRecords)
    (rewardSlashingRate computationReward storageFundReward epoch : ℕ) : Call Payroll := do
  let (unadjustedStaking, unadjustedStorageFund) ←
    computeUnadjustedRewardDistribution activeValidators totalVotingPower computationReward
      storageFundReward
  let slashedValidators ← computeSlashedValidators activeValidators records
  let totalSlashedValidatorVotingPower ←
    sumVotingPowerByAddresses activeValidators slashedValidators
  let slashedValidatorIndices ← getValidatorIndices activeValidators slashedValidators
  let (staking, storageFund) ←
    computeRewardAdjustments slashedValidatorIndices rewardSlashingRate unadjustedStaking
      unadjustedStorageFund
  let adjusted ← computeAdjustedRewardDistribution activeValidators totalVotingPower
    totalSlashedValidatorVotingPower unadjustedStaking unadjustedStorageFund staking storageFund
  distributeReward activeValidators adjusted computationReward storageFundReward epoch

/-! ## The validators afterwards -/

open Validator

theorem kept_stakeReward {v' : Validator} {reward : ℕ} {receipt : Option StakedOct}
    (h : stakeReward v reward epoch = .ok (v', receipt)) : Kept v v' := by
  unfold stakeReward at h
  split at h
  · simp only [ok_iff] at h
    obtain ⟨_, _, hadd, rfl, _⟩ := h
    exact kept_requestAddStake hadd
  · cases h
    exact .refl v

theorem payValidator_ok {s s' : Payroll} {amounts : ℕ × ℕ}
    (h : payValidator epoch s (v, amounts) = .ok s') :
    ∃ v', s'.validators = s.validators ++ [v'] ∧ Kept v v' := by
  simp only [payValidator, bind_ok, return_ok] at h
  obtain ⟨_, _, _, _, _, _, _, _, _, _, ⟨v₁, _⟩, hs, v₂, hdep, rfl⟩ := h
  exact ⟨v₂, rfl, (kept_stakeReward hs).trans (kept_depositStakeRewards hdep)⟩

theorem payroll_of_foldlM {items : List (Validator × ℕ × ℕ)} {s s' : Payroll}
    (h : items.foldlM (payValidator epoch) s = .ok s') :
    ∃ paid, s'.validators = s.validators ++ paid ∧ List.Forall₂ Kept (items.map Prod.fst) paid := by
  induction items generalizing s with
  | nil =>
    cases h
    exact ⟨[], (List.append_nil _).symm, .nil⟩
  | cons item items ih =>
    rw [List.foldlM_cons, bind_ok] at h
    obtain ⟨t, ht, hr⟩ := h
    obtain ⟨v', hv', hk⟩ := payValidator_ok ht
    obtain ⟨paid, hp, hall⟩ := ih hr
    exact ⟨v' :: paid, by rw [hp, hv', List.append_assoc]; rfl, .cons hk hall⟩

/-- A map over the validators gives as many amounts as there are validators. -/
theorem computeAdjustedRewardDistribution_length {total slashed : ℕ} {us uf : List ℕ}
    {staking storageFund : RewardAdjustments} {adjusted : List (ℕ × ℕ)}
    (h : computeAdjustedRewardDistribution vs total slashed us uf staking storageFund =
      .ok adjusted) : adjusted.length = vs.length := by
  simp only [computeAdjustedRewardDistribution, bind_ok] at h
  obtain ⟨_, _, _, _, hmap⟩ := h
  rw [← (mapM_eq_ok.1 hmap).length_eq, List.length_zipIdx]

/-- **The reward phase keeps every validator.** -/
theorem distributeRewards_ok {records : ReportRecords} {rate computation storageFund : ℕ}
    {payroll : Payroll}
    (h : distributeRewards vs records rate computation storageFund epoch = .ok payroll) :
    List.Forall₂ Kept vs payroll.validators := by
  simp only [distributeRewards, distributeReward, bind_ok] at h
  obtain ⟨_, _, _, _, _, _, _, _, _, _, adjusted, hadj, _, _, hl⟩ := h
  obtain ⟨paid, hp, hall⟩ := payroll_of_foldlM hl
  rw [List.map_fst_zip (computeAdjustedRewardDistribution_length hadj).ge] at hall
  rw [hp]
  exact hall

end ValidatorSet

end OneChain.System
