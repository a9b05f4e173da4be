import OneChain.Move.Basic

/-!
# `storage_fund` and `stake_subsidy`

The two funds that take part in an epoch change. The storage fund holds what was paid for
storage: a part that is refunded when objects are deleted, and a part that is not. The subsidy
fund adds to the rewards of the early epochs, and less with every period.
-/

namespace OneChain.System

open Lib Move

structure StorageFund where
  (totalObjectStorageRebates nonRefundableBalance : ℕ)
  deriving DecidableEq, Repr

namespace StorageFund

def new (initialFund : ℕ) : StorageFund := ⟨0, initialFund⟩

def totalBalance (self : StorageFund) : Call ℕ :=
  addU64 self.totalObjectStorageRebates self.nonRefundableBalance

/-- Returns the storage rebate. -/
def advanceEpoch (self : StorageFund)
    (storageCharges storageFundReinvestment leftoverStakingRewards storageRebateAmount
      nonRefundableStorageFeeAmount : ℕ) : Call (StorageFund × ℕ) := do
  let nonRefundable ← Balance.join self.nonRefundableBalance storageFundReinvestment
  let nonRefundable ← Balance.join nonRefundable leftoverStakingRewards
  let rebates ← Balance.join self.totalObjectStorageRebates storageCharges
  let (rebates, nonRefundableStorageFee) ← Balance.split rebates nonRefundableStorageFeeAmount
  let nonRefundable ← Balance.join nonRefundable nonRefundableStorageFee
  let (rebates, storageRebate) ← Balance.split rebates storageRebateAmount
  return (⟨rebates, nonRefundable⟩, storageRebate)

end StorageFund

structure StakeSubsidy where
  (balance distributionCounter currentDistributionAmount stakeSubsidyPeriodLength : ℕ)
  stakeSubsidyDecreaseRate : ℕ
  deriving DecidableEq, Repr

namespace StakeSubsidy

def ESubsidyDecreaseRateTooLarge : Abort := .code .stakeSubsidy 0

def basisPointDenominator : ℕ := 10000

def create (balance initialDistributionAmount stakeSubsidyPeriodLength
    stakeSubsidyDecreaseRate : ℕ) : Call StakeSubsidy := do
  check (stakeSubsidyDecreaseRate ≤ basisPointDenominator) ESubsidyDecreaseRateTooLarge
  return {
    balance
    distributionCounter := 0
    currentDistributionAmount := initialDistributionAmount
    stakeSubsidyPeriodLength, stakeSubsidyDecreaseRate }

/-- The amount of the next period, at the end of a period. -/
def decreasedAmount (self : StakeSubsidy) (distributionCounter : ℕ) : Call ℕ :=
  if self.stakeSubsidyPeriodLength = 0 then .error .divisionByZero
  else if distributionCounter % self.stakeSubsidyPeriodLength = 0 then do
    let decreaseAmount ←
      mulDiv self.currentDistributionAmount self.stakeSubsidyDecreaseRate basisPointDenominator
    subU64 .other self.currentDistributionAmount decreaseAmount
  else .ok self.currentDistributionAmount

/-- Returns the subsidy of one epoch. -/
def advanceEpoch (self : StakeSubsidy) : Call (StakeSubsidy × ℕ) := do
  let toWithdraw := min self.currentDistributionAmount self.balance
  let (balance, stakeSubsidy) ← Balance.split self.balance toWithdraw
  let distributionCounter ← addU64 self.distributionCounter 1
  let currentDistributionAmount ← self.decreasedAmount distributionCounter
  return ({ self with balance, distributionCounter, currentDistributionAmount }, stakeSubsidy)

/-- The subsidies of `n` epochs, joined to `acc`. -/
def advanceEpochs (self : StakeSubsidy) (acc : ℕ) : ℕ → Call (StakeSubsidy × ℕ)
  | 0 => .ok (self, acc)
  | n + 1 => do
    let (self, stakeSubsidy) ← self.advanceEpoch
    let acc ← Balance.join acc stakeSubsidy
    advanceEpochs self acc n

end StakeSubsidy

end OneChain.System
