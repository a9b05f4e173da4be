import OneChain.Move.Basic

/-!
# `staking_pool`: the pool of one validator

The functions of `staking_pool.move`. A pool keeps the OCT it accounts for (`suiBalance`), the
pool tokens issued against it (`poolTokenBalance`), what was staked and withdrawn during the
current epoch, and the history of exchange rates. Stakers hold receipts: a `StakedOct` carries its
own principal and is worth pool tokens at the rate of its activation epoch; a
`FungibleStakedOct` is a number of pool tokens.

Each function that can abort has one lemma that says when it returns, and what.
-/

namespace OneChain.System

open Lib Move Balance

namespace StakingPool

/-- Receipts cannot be split below this amount. -/
def minStakingThreshold : ℕ := 1000000000

def EInsufficientPoolTokenBalance : Abort := .code .stakingPool 0
def EWrongPool : Abort := .code .stakingPool 1
def EInsufficientSuiTokenBalance : Abort := .code .stakingPool 3
def ETokenBalancesDoNotMatchExchangeRate : Abort := .code .stakingPool 9
def EDelegationToInactivePool : Abort := .code .stakingPool 10
def EDeactivationOfInactivePool : Abort := .code .stakingPool 11
def EIncompatibleStakedOct : Abort := .code .stakingPool 12
def EPoolAlreadyActive : Abort := .code .stakingPool 14
def EPoolPreactiveOrInactive : Abort := .code .stakingPool 15
def EActivationOfInactivePool : Abort := .code .stakingPool 16
def EDelegationOfZeroSui : Abort := .code .stakingPool 17
def EStakedOctBelowThreshold : Abort := .code .stakingPool 18
def ECannotMintFungibleStakedOctYet : Abort := .code .stakingPool 19
def EInvariantFailure : Abort := .code .stakingPool 20

end StakingPool

/-! ## Exchange rates -/

/-- The exchange rate of the pool token to OCT. -/
structure PoolTokenExchangeRate where
  (suiAmount poolTokenAmount : ℕ)
  deriving DecidableEq, Repr

namespace PoolTokenExchangeRate

def initialExchangeRate : PoolTokenExchangeRate := ⟨0, 0⟩

variable (rate : PoolTokenExchangeRate)

def getSuiAmount (tokenAmount : ℕ) : Call ℕ :=
  if rate.suiAmount = 0 ∨ rate.poolTokenAmount = 0 then .ok tokenAmount
  else mulDiv rate.suiAmount tokenAmount rate.poolTokenAmount

def getTokenAmount (suiAmount : ℕ) : Call ℕ :=
  if rate.suiAmount = 0 ∨ rate.poolTokenAmount = 0 then .ok suiAmount
  else mulDiv rate.poolTokenAmount suiAmount rate.suiAmount

/-- The number `getTokenAmount` computes, before it is cast to 64 bits. -/
def tokens (suiAmount : ℕ) : ℕ :=
  if rate.suiAmount = 0 ∨ rate.poolTokenAmount = 0 then suiAmount
  else share rate.poolTokenAmount suiAmount rate.suiAmount

variable {rate} {a : ℕ}

theorem eq_tokens_of_getTokenAmount {t : ℕ} (h : rate.getTokenAmount a = .ok t) :
    t = rate.tokens a := by
  unfold getTokenAmount at h
  unfold tokens
  split at h
  · simp_all
  · rename_i hr
    rw [if_neg hr]
    exact (mulDiv_ok.1 h).2.2

theorem getTokenAmount_lt {t : ℕ} (h : rate.getTokenAmount a = .ok t) (ha : a < u64Bound) :
    rate.tokens a < u64Bound := by
  unfold getTokenAmount at h
  unfold tokens
  split at h
  · rename_i hr
    rwa [if_pos hr]
  · rename_i hr
    rw [if_neg hr]
    exact (mulDiv_ok.1 h).2.1

theorem getTokenAmount_of_lt (h : rate.tokens a < u64Bound) :
    rate.getTokenAmount a = .ok (rate.tokens a) := by
  unfold tokens at h ⊢
  unfold getTokenAmount
  split
  · rfl
  · rename_i hr
    rw [if_neg hr] at h
    exact mulDiv_ok.2 ⟨by omega, h, rfl⟩

theorem getTokenAmount_error {e : Abort} (h : rate.getTokenAmount a = .error e) :
    e = .overflow := by
  unfold getTokenAmount at h
  split at h
  · cases h
  · exact mulDiv_error (by omega) h

theorem getSuiAmount_error {e : Abort} (h : rate.getSuiAmount a = .error e) : e = .overflow := by
  unfold getSuiAmount at h
  split at h
  · cases h
  · exact mulDiv_error (by omega) h

@[simp] theorem getTokenAmount_ne_underflow {q : Quantity} :
    rate.getTokenAmount a ≠ .error (.underflow q) := by
  intro h
  cases getTokenAmount_error h

@[simp] theorem getSuiAmount_ne_underflow {q : Quantity} :
    rate.getSuiAmount a ≠ .error (.underflow q) := by
  intro h
  cases getSuiAmount_error h

@[simp] theorem tokens_zero (rate : PoolTokenExchangeRate) : rate.tokens 0 = 0 := by
  simp [tokens]

@[simp] theorem tokens_initial (a : ℕ) : initialExchangeRate.tokens a = a := by
  simp [tokens, initialExchangeRate]

/-- Receipts of one epoch are worth at most what their sum is worth. -/
theorem tokens_add_le (rate : PoolTokenExchangeRate) (a b : ℕ) :
    rate.tokens a + rate.tokens b ≤ rate.tokens (a + b) := by
  unfold tokens
  split
  · exact le_rfl
  · exact share_add_le _ _ _ _

end PoolTokenExchangeRate

open PoolTokenExchangeRate

/-! ## Receipts -/

/-- A receipt that holds its own principal. -/
structure StakedOct where
  poolId : ID
  (stakeActivationEpoch principal : ℕ)
  lock : Bool
  deriving DecidableEq, Repr

/-- A receipt that holds pool tokens. -/
structure FungibleStakedOct where
  poolId : ID
  value : ℕ
  deriving DecidableEq, Repr

/-- What the pool knows of all `FungibleStakedOct` together. -/
structure FungibleStakedOctData where
  (totalSupply principal : ℕ)
  deriving DecidableEq, Repr

namespace FungibleStakedOct

open StakingPool

/-- What is left of the receipt, and the new one. -/
def split (self : FungibleStakedOct) (splitAmount : ℕ) :
    Call (FungibleStakedOct × FungibleStakedOct) := do
  check (splitAmount ≤ self.value) EInsufficientPoolTokenBalance
  let value ← subU64 .other self.value splitAmount
  return ({ self with value }, { poolId := self.poolId, value := splitAmount })

def join (self other : FungibleStakedOct) : Call FungibleStakedOct := do
  check (self.poolId = other.poolId) EWrongPool
  let value ← addU64 self.value other.value
  return { self with value }

end FungibleStakedOct

namespace StakedOct

open StakingPool

/-- What is left of the receipt, and the new one. -/
def split (self : StakedOct) (splitAmount : ℕ) : Call (StakedOct × StakedOct) := do
  let originalAmount := self.principal
  check (splitAmount ≤ originalAmount) EInsufficientSuiTokenBalance
  let remainingAmount ← subU64 .other originalAmount splitAmount
  check (minStakingThreshold ≤ remainingAmount) EStakedOctBelowThreshold
  check (minStakingThreshold ≤ splitAmount) EStakedOctBelowThreshold
  let (rest, principal) ← Balance.split self.principal splitAmount
  return ({ self with principal := rest }, { self with principal })

/-- The comparison leaves out `lock`. -/
def isEqualStakingMetadata (self other : StakedOct) : Bool :=
  self.poolId = other.poolId && self.stakeActivationEpoch = other.stakeActivationEpoch

def joinStakedOct (self other : StakedOct) : Call StakedOct := do
  check (self.isEqualStakingMetadata other) EIncompatibleStakedOct
  let principal ← Balance.join self.principal other.principal
  return { self with principal }

end StakedOct

/-! ## The pool -/

/-- The staking pool. Of the dynamic fields only the fungible data is ever stored. -/
structure StakingPool where
  id : ID
  (activationEpoch deactivationEpoch : Option ℕ)
  (suiBalance rewardsPool poolTokenBalance : ℕ)
  exchangeRates : Table ℕ PoolTokenExchangeRate
  (pendingStake pendingTotalOctWithdraw pendingPoolTokenWithdraw : ℕ)
  fungibleStakedOctData : Option FungibleStakedOctData

namespace StakingPool

def new (id : ID) : StakingPool where
  id := id
  activationEpoch := none
  deactivationEpoch := none
  suiBalance := 0
  rewardsPool := 0
  poolTokenBalance := 0
  exchangeRates := Table.empty
  pendingStake := 0
  pendingTotalOctWithdraw := 0
  pendingPoolTokenWithdraw := 0
  fungibleStakedOctData := none

variable (pool : StakingPool)

def isPreactive : Bool := pool.activationEpoch.isNone

def isInactive : Bool := pool.deactivationEpoch.isSome

/-! ### Looking up a rate -/

/-- The loop of `pool_token_exchange_rate_at_epoch`, downwards from `epoch`. -/
def searchRate (rates : Table ℕ PoolTokenExchangeRate) (activationEpoch : ℕ) :
    ℕ → Call PoolTokenExchangeRate
  | 0 =>
    if activationEpoch ≤ 0 then
      match rates 0 with
      | some rate => .ok rate
      | none => .error (.underflow .other)
    else .ok initialExchangeRate
  | epoch + 1 =>
    if activationEpoch ≤ epoch + 1 then
      match rates (epoch + 1) with
      | some rate => .ok rate
      | none => searchRate rates activationEpoch epoch
    else .ok initialExchangeRate

def poolTokenExchangeRateAtEpoch (epoch : ℕ) : Call PoolTokenExchangeRate :=
  match pool.activationEpoch with
  | none => .ok initialExchangeRate
  | some activationEpoch =>
    if activationEpoch > epoch then .ok initialExchangeRate
    else
      let clampedEpoch := pool.deactivationEpoch.getD epoch
      searchRate pool.exchangeRates activationEpoch (min clampedEpoch epoch)

/-! ### Stake requests -/

def requestAddStake (stake stakeActivationEpoch : ℕ) (lock : Bool) :
    Call (StakingPool × StakedOct) := do
  check (¬ pool.isInactive) EDelegationToInactivePool
  check (0 < stake) EDelegationOfZeroSui
  let pendingStake ← addU64 pool.pendingStake stake
  return ({ pool with pendingStake },
    { poolId := pool.id, stakeActivationEpoch, principal := stake, lock })

variable (stakedOct : StakedOct)

/-- The pool tokens withdrawn, and the principal. -/
def withdrawFromPrincipal : Call (ℕ × ℕ) := do
  check (stakedOct.poolId = pool.id) EWrongPool
  let rate ← pool.poolTokenExchangeRateAtEpoch stakedOct.stakeActivationEpoch
  let poolTokenWithdrawAmount ← rate.getTokenAmount stakedOct.principal
  return (poolTokenWithdrawAmount, stakedOct.principal)

def withdrawRewards
    (principalWithdrawAmount poolTokenWithdrawAmount epoch : ℕ) : Call (StakingPool × ℕ) := do
  let rate ← pool.poolTokenExchangeRateAtEpoch epoch
  let totalSuiWithdrawAmount ← rate.getSuiAmount poolTokenWithdrawAmount
  let rewardWithdrawAmount :=
    if principalWithdrawAmount ≤ totalSuiWithdrawAmount then
      totalSuiWithdrawAmount - principalWithdrawAmount
    else 0
  let rewardWithdrawAmount := min rewardWithdrawAmount pool.rewardsPool
  let (rewardsPool, rewards) ← Balance.split pool.rewardsPool rewardWithdrawAmount
  return ({ pool with rewardsPool }, rewards)

/-- What a receipt has earned so far. -/
def calculateRewards (currentEpoch : ℕ) :
    Call ℕ := do
  let stakedAmount := stakedOct.principal
  let rate ← pool.poolTokenExchangeRateAtEpoch stakedOct.stakeActivationEpoch
  let poolTokenWithdrawAmount ← rate.getTokenAmount stakedAmount
  let newEpochRate ← pool.poolTokenExchangeRateAtEpoch currentEpoch
  let totalSuiWithdrawAmount ← newEpochRate.getSuiAmount poolTokenWithdrawAmount
  let rewardWithdrawAmount :=
    if stakedAmount ≤ totalSuiWithdrawAmount then totalSuiWithdrawAmount - stakedAmount else 0
  return min rewardWithdrawAmount pool.rewardsPool

def processPendingStakeWithdraw : Call StakingPool := do
  let suiBalance ← subU64 .suiBalance pool.suiBalance pool.pendingTotalOctWithdraw
  let poolTokenBalance ←
    subU64 .poolTokenBalance pool.poolTokenBalance pool.pendingPoolTokenWithdraw
  return { pool with
    suiBalance, poolTokenBalance
    pendingTotalOctWithdraw := 0
    pendingPoolTokenWithdraw := 0 }

/-- Book a withdrawal for the end of the epoch. -/
def bookWithdraw (totalSuiWithdrawAmount poolTokenWithdrawAmount : ℕ) :
    Call StakingPool := do
  let pendingTotalOctWithdraw ← addU64 pool.pendingTotalOctWithdraw totalSuiWithdrawAmount
  let pendingPoolTokenWithdraw ← addU64 pool.pendingPoolTokenWithdraw poolTokenWithdrawAmount
  return { pool with pendingTotalOctWithdraw, pendingPoolTokenWithdraw }

/-- A pool that is inactive or preactive takes its withdrawals out immediately. -/
def processIfNotActive : Call StakingPool :=
  if pool.isInactive ∨ pool.isPreactive then pool.processPendingStakeWithdraw else .ok pool

/-- Withdraw a receipt. A stake that is not active yet is handed back at once; any other
withdrawal is booked, and settled at the end of the epoch unless the pool is not active. -/
def requestWithdrawStake (epoch : ℕ) : Call (StakingPool × ℕ) :=
  if stakedOct.stakeActivationEpoch > epoch ∧ ¬ pool.isPreactive then do
    let pendingStake ← subU64 .pendingStake pool.pendingStake stakedOct.principal
    return ({ pool with pendingStake }, stakedOct.principal)
  else do
    let (poolTokenWithdrawAmount, principalWithdraw) ← pool.withdrawFromPrincipal stakedOct
    let (pool, rewardsWithdraw) ←
      pool.withdrawRewards principalWithdraw poolTokenWithdrawAmount epoch
    let totalSuiWithdrawAmount ← addU64 principalWithdraw rewardsWithdraw
    let pool ← pool.bookWithdraw totalSuiWithdrawAmount poolTokenWithdrawAmount
    let pool ← pool.processIfNotActive
    let withdrawn ← Balance.join principalWithdraw rewardsWithdraw
    return (pool, withdrawn)

/-- How much of a redemption comes out of the fungible principal, and out of the rewards. -/
def calculateFungibleStakedOctWithdrawAmount (latestExchangeRate : PoolTokenExchangeRate)
    (value principalAmount totalSupply : ℕ) : Call (ℕ × ℕ) := do
  let totalSuiAmount ← latestExchangeRate.getSuiAmount totalSupply
  let principalAmount := min principalAmount totalSuiAmount
  let totalRewards ← subU64 .other totalSuiAmount principalAmount
  let principalWithdrawAmount ← mulDiv value principalAmount totalSupply
  let rewardsWithdrawAmount ← mulDiv value totalRewards totalSupply
  let expectedSuiAmount ← latestExchangeRate.getSuiAmount value
  let sum ← addU64 principalWithdrawAmount rewardsWithdrawAmount
  check (sum ≤ expectedSuiAmount) EInvariantFailure
  return (principalWithdrawAmount, rewardsWithdrawAmount)

def redeemFungibleStakedOct (fungible : FungibleStakedOct) (epoch : ℕ) :
    Call (StakingPool × ℕ) := do
  check (fungible.poolId = pool.id) EWrongPool
  let latestExchangeRate ← pool.poolTokenExchangeRateAtEpoch epoch
  let data ← require pool.fungibleStakedOctData Table.EFieldDoesNotExist
  let (principalAmount, rewardsAmount) ←
    calculateFungibleStakedOctWithdrawAmount latestExchangeRate fungible.value
      data.principal data.totalSupply
  let totalSupply ← subU64 .other data.totalSupply fungible.value
  let (principal, principalOut) ← Balance.split data.principal principalAmount
  let (rewardsPool, rewardsOut) ← Balance.split pool.rewardsPool rewardsAmount
  let suiOut ← Balance.join principalOut rewardsOut
  let pool := { pool with
    rewardsPool, fungibleStakedOctData := some { totalSupply, principal } }
  let pool ← pool.bookWithdraw suiOut fungible.value
  return (pool, suiOut)

def convertToFungibleStakedOct (epoch : ℕ) :
    Call (StakingPool × FungibleStakedOct) := do
  check (stakedOct.poolId = pool.id) EWrongPool
  check (stakedOct.stakeActivationEpoch ≤ epoch) ECannotMintFungibleStakedOctYet
  check (¬ pool.isPreactive ∧ ¬ pool.isInactive) EPoolPreactiveOrInactive
  let rate ← pool.poolTokenExchangeRateAtEpoch stakedOct.stakeActivationEpoch
  let poolTokenAmount ← rate.getTokenAmount stakedOct.principal
  let data ←
    match pool.fungibleStakedOctData with
    | none =>
      pure { totalSupply := poolTokenAmount, principal := stakedOct.principal }
    | some data => do
      let totalSupply ← addU64 data.totalSupply poolTokenAmount
      let principal ← Balance.join data.principal stakedOct.principal
      pure ({ totalSupply, principal } : FungibleStakedOctData)
  return ({ pool with fungibleStakedOctData := some data },
    { poolId := stakedOct.poolId, value := poolTokenAmount })

/-! ### Epoch boundaries -/

def depositRewards (rewards : ℕ) : Call StakingPool := do
  let suiBalance ← addU64 pool.suiBalance rewards
  let rewardsPool ← Balance.join pool.rewardsPool rewards
  return { pool with suiBalance, rewardsPool }

def processPendingStake : Call StakingPool := do
  let latestExchangeRate : PoolTokenExchangeRate := ⟨pool.suiBalance, pool.poolTokenBalance⟩
  let suiBalance ← addU64 pool.suiBalance pool.pendingStake
  let poolTokenBalance ← latestExchangeRate.getTokenAmount suiBalance
  return { pool with suiBalance, poolTokenBalance, pendingStake := 0 }

/-- A preactive pool takes new stake in immediately. -/
def processIfPreactive : Call StakingPool :=
  if pool.isPreactive then pool.processPendingStake else .ok pool

def checkBalanceInvariants (epoch : ℕ) : Call Unit := do
  let rate ← pool.poolTokenExchangeRateAtEpoch epoch
  let expected ← rate.getTokenAmount pool.suiBalance
  check (expected = pool.poolTokenBalance) ETokenBalancesDoNotMatchExchangeRate

def processPendingStakesAndWithdraws (epoch : ℕ) : Call StakingPool := do
  let newEpoch ← addU64 epoch 1
  let pool ← pool.processPendingStakeWithdraw
  let pool ← pool.processPendingStake
  let exchangeRates ← pool.exchangeRates.add newEpoch ⟨pool.suiBalance, pool.poolTokenBalance⟩
  let pool := { pool with exchangeRates }
  pool.checkBalanceInvariants newEpoch
  return pool

def activateStakingPool (activationEpoch : ℕ) : Call StakingPool := do
  let exchangeRates ← pool.exchangeRates.add activationEpoch initialExchangeRate
  check pool.isPreactive EPoolAlreadyActive
  check (¬ pool.isInactive) EActivationOfInactivePool
  return { pool with exchangeRates, activationEpoch := some activationEpoch }

def deactivateStakingPool (deactivationEpoch : ℕ) : Call StakingPool := do
  check (¬ pool.isInactive) EDeactivationOfInactivePool
  return { pool with deactivationEpoch := some deactivationEpoch }

/-! ### What the functions return -/

/-- The pool with `rewards` taken out of its rewards pool. -/
def withoutRewards (rewards : ℕ) : StakingPool :=
  { pool with rewardsPool := pool.rewardsPool - rewards }

/-- The pool with a withdrawal booked. -/
def booked (amount tokens : ℕ) : StakingPool :=
  { pool with
    pendingTotalOctWithdraw := pool.pendingTotalOctWithdraw + amount
    pendingPoolTokenWithdraw := pool.pendingPoolTokenWithdraw + tokens }

/-- The pool with its booked withdrawals taken out. -/
def settled : StakingPool :=
  { pool with
    suiBalance := pool.suiBalance - pool.pendingTotalOctWithdraw
    poolTokenBalance := pool.poolTokenBalance - pool.pendingPoolTokenWithdraw
    pendingTotalOctWithdraw := 0
    pendingPoolTokenWithdraw := 0 }

/-- The rate that the pool's balances stand for now. -/
def currentRate : PoolTokenExchangeRate := ⟨pool.suiBalance, pool.poolTokenBalance⟩

/-- The pool with its pending stake taken in at the current rate. -/
def minted : StakingPool :=
  { pool with
    suiBalance := pool.suiBalance + pool.pendingStake
    poolTokenBalance := pool.currentRate.tokens (pool.suiBalance + pool.pendingStake)
    pendingStake := 0 }

/-- The pool with new stake waiting for the end of the epoch. -/
def withPending (stake : ℕ) : StakingPool := { pool with pendingStake := pool.pendingStake + stake }

variable {pool} {pool' : StakingPool} {epoch principal rewards tokens : ℕ} {q : Quantity}
  {e : Abort} {s : StakedOct} {f : FungibleStakedOct}

theorem requestAddStake_ok {stake : ℕ} {lock : Bool} {r : StakedOct}
    (h : pool.requestAddStake stake epoch lock = .ok (pool', r)) :
    pool.isInactive = false ∧ 0 < stake ∧
      pool' = pool.withPending stake ∧ r = ⟨pool.id, epoch, stake, lock⟩ := by
  simp only [requestAddStake, ok_iff, addU64_ok, Bool.not_eq_true] at h
  obtain ⟨ha, hpos, _, ⟨_, rfl⟩, rfl, rfl⟩ := h
  exact ⟨ha, hpos, rfl, rfl⟩

theorem requestAddStake_ne_underflow {stake : ℕ} {lock : Bool} :
    pool.requestAddStake stake epoch lock ≠ .error (.underflow q) := by
  simp [requestAddStake, bind_error, EDelegationToInactivePool, EDelegationOfZeroSui]

theorem processPendingStakeWithdraw_ok : pool.processPendingStakeWithdraw = .ok pool' ↔
      pool.pendingTotalOctWithdraw ≤ pool.suiBalance ∧
      pool.pendingPoolTokenWithdraw ≤ pool.poolTokenBalance ∧ pool' = pool.settled := by
  simp only [processPendingStakeWithdraw, ok_iff, subU64_ok]
  constructor
  · rintro ⟨_, ⟨hsui, rfl⟩, _, ⟨htok, rfl⟩, rfl⟩
    exact ⟨hsui, htok, rfl⟩
  · rintro ⟨hsui, htok, rfl⟩
    exact ⟨_, ⟨hsui, rfl⟩, _, ⟨htok, rfl⟩, rfl⟩

/-- The booked withdrawals exceed a balance, which the abort names. -/
def Overdrawn (pool : StakingPool) (e : Abort) : Prop :=
  (pool.suiBalance < pool.pendingTotalOctWithdraw ∧ e = .underflow .suiBalance) ∨
    (pool.poolTokenBalance < pool.pendingPoolTokenWithdraw ∧ e = .underflow .poolTokenBalance)

theorem processPendingStakeWithdraw_error (h : pool.processPendingStakeWithdraw = .error e) :
    pool.Overdrawn e := by
  simp only [processPendingStakeWithdraw, bind_error, subU64_error, pure_ok, reduceCtorEq,
    and_false, exists_const, or_false] at h
  rcases h with h | ⟨_, _, h⟩
  · exact .inl h
  · exact .inr h

theorem processPendingStake_ok (h : pool.processPendingStake = .ok pool') :
    pool' = pool.minted ∧ pool.minted.suiBalance < u64Bound ∧
      pool.minted.poolTokenBalance < u64Bound := by
  simp only [processPendingStake, ok_iff, addU64_ok] at h
  obtain ⟨_, ⟨hsui, rfl⟩, t, ht, rfl⟩ := h
  have hb := getTokenAmount_lt ht hsui
  obtain rfl := eq_tokens_of_getTokenAmount ht
  exact ⟨rfl, hsui, hb⟩

theorem processPendingStake_error (h : pool.processPendingStake = .error e) : e = .overflow := by
  simp only [processPendingStake, bind_error, pure_ok, reduceCtorEq, and_false,
    exists_const, or_false] at h
  rcases h with h | ⟨_, _, h⟩
  · exact addU64_error h
  · exact getTokenAmount_error h

theorem processIfPreactive_ok (h : pool.processIfPreactive = .ok pool') :
    (pool' = if pool.isPreactive then pool.minted else pool) ∧
      (pool.poolTokenBalance < u64Bound → pool'.poolTokenBalance < u64Bound) := by
  unfold processIfPreactive at h
  cases hpre : pool.isPreactive with
  | true =>
    obtain ⟨rfl, _, hb⟩ := processPendingStake_ok (by simpa [hpre] using h)
    exact ⟨rfl, fun _ => hb⟩
  | false =>
    obtain rfl : pool = pool' := by simpa [hpre] using h
    exact ⟨rfl, fun hb => hb⟩

theorem processIfPreactive_ne_underflow : pool.processIfPreactive ≠ .error (.underflow q) := by
  intro h
  unfold processIfPreactive at h
  split at h
  · cases processPendingStake_error h
  · cases h

theorem withdrawRewards_ok
    (h : pool.withdrawRewards principal tokens epoch = .ok (pool', rewards)) :
    rewards ≤ pool.rewardsPool ∧ pool' = pool.withoutRewards rewards := by
  simp only [withdrawRewards, bind_ok, split_ok] at h
  obtain ⟨_, _, _, _, _, ⟨hle, rfl⟩, h⟩ := h
  obtain ⟨rfl, rfl⟩ := h
  exact ⟨hle, rfl⟩

theorem withdrawFromPrincipal_ok {r : ℕ × ℕ} (h : pool.withdrawFromPrincipal s = .ok r) :
    s.poolId = pool.id ∧ ∃ rate, pool.poolTokenExchangeRateAtEpoch s.stakeActivationEpoch = .ok rate
      ∧ r = (rate.tokens s.principal, s.principal) := by
  simp only [withdrawFromPrincipal, ok_iff] at h
  obtain ⟨hid, rate, hr, t, ht, rfl⟩ := h
  obtain rfl := eq_tokens_of_getTokenAmount ht
  exact ⟨hid, rate, hr, rfl⟩

theorem bookWithdraw_ok {amount : ℕ} (h : pool.bookWithdraw amount tokens = .ok pool') :
    pool' = pool.booked amount tokens := by
  simp only [bookWithdraw, ok_iff, addU64_ok] at h
  obtain ⟨_, ⟨_, rfl⟩, _, ⟨_, rfl⟩, rfl⟩ := h
  rfl

theorem bookWithdraw_ne_underflow {amount : ℕ} :
    pool.bookWithdraw amount tokens ≠ .error (.underflow q) := by
  simp [bookWithdraw, bind_error]

/-- The pool after a withdrawal: settled at once unless it is active. -/
def afterWithdraw (pool : StakingPool) : StakingPool :=
  if pool.isInactive ∨ pool.isPreactive then pool.settled else pool

theorem processIfNotActive_ok (h : pool.processIfNotActive = .ok pool') :
    pool' = pool.afterWithdraw ∧ (pool.isInactive ∨ pool.isPreactive →
      pool.pendingTotalOctWithdraw ≤ pool.suiBalance ∧
      pool.pendingPoolTokenWithdraw ≤ pool.poolTokenBalance) := by
  unfold processIfNotActive at h
  unfold afterWithdraw
  split at h
  · rename_i hnow
    obtain ⟨hsui, htok, rfl⟩ := processPendingStakeWithdraw_ok.1 h
    exact ⟨(if_pos hnow).symm, fun _ => ⟨hsui, htok⟩⟩
  · rename_i hl
    exact ⟨by rw [if_neg hl]; exact (Except.ok.inj h).symm, fun hnow => absurd hnow hl⟩

theorem not_direct (h : ¬ (s.stakeActivationEpoch > epoch ∧ ¬ pool.isPreactive = true)) :
    s.stakeActivationEpoch ≤ epoch ∨ pool.isPreactive = true := by
  by_cases hact : s.stakeActivationEpoch ≤ epoch
  · exact .inl hact
  · exact .inr (by simpa using fun hpre => h ⟨by omega, hpre⟩)

/-- **Withdrawing a receipt**: the two ways in which `requestWithdrawStake` returns. -/
theorem requestWithdrawStake_cases {out : ℕ}
    (h : pool.requestWithdrawStake s epoch = .ok (pool', out)) :
    (epoch < s.stakeActivationEpoch ∧ pool.isPreactive = false ∧
      s.principal ≤ pool.pendingStake ∧ out = s.principal ∧
      pool' = { pool with pendingStake := pool.pendingStake - s.principal }) ∨
    ((s.stakeActivationEpoch ≤ epoch ∨ pool.isPreactive = true) ∧ s.poolId = pool.id ∧
      ∃ rate rewards, pool.poolTokenExchangeRateAtEpoch s.stakeActivationEpoch = .ok rate ∧
        rewards ≤ pool.rewardsPool ∧ out = s.principal + rewards ∧
        ((pool.withoutRewards rewards).booked out (rate.tokens s.principal)).processIfNotActive
          = .ok pool') := by
  unfold requestWithdrawStake at h
  split at h
  · rename_i hdir
    simp only [ok_iff, subU64_ok] at h
    obtain ⟨_, ⟨hle, rfl⟩, rfl, rfl⟩ := h
    exact .inl ⟨hdir.1, by simpa using hdir.2, hle, rfl, rfl⟩
  · rename_i hdir
    refine .inr ⟨not_direct hdir, ?_⟩
    simp only [bind_ok, addU64_ok, join_ok] at h
    obtain ⟨_, hp, ⟨pool₁, rewards⟩, hrew, _, ⟨_, rfl⟩, pool₂, hb, pool₃,
      hpr, _, ⟨_, rfl⟩, hout⟩ := h
    obtain ⟨hid, rate, hr, rfl⟩ := withdrawFromPrincipal_ok hp
    obtain ⟨hle, rfl⟩ := withdrawRewards_ok hrew
    obtain rfl := bookWithdraw_ok hb
    obtain ⟨rfl, rfl⟩ := hout
    exact ⟨hid, rate, rewards, hr, hle, rfl, hpr⟩

variable {rate : PoolTokenExchangeRate}

theorem calculateFungibleStakedOctWithdrawAmount_ok {value supply : ℕ} {r : ℕ × ℕ}
    (h : calculateFungibleStakedOctWithdrawAmount rate value principal supply = .ok r) :
    0 < supply ∧ ∃ total, r.1 = share value (min principal total) supply := by
  simp only [calculateFungibleStakedOctWithdrawAmount, ok_iff, mulDiv_ok] at h
  obtain ⟨total, _, _, _, _, ⟨hpos, _, rfl⟩, _, _, _, _, _, _, _, _, rfl⟩ := h
  exact ⟨hpos, total, rfl⟩

/-- **Redeeming a fungible receipt.** -/
theorem redeemFungibleStakedOct_ok {out : ℕ}
    (h : pool.redeemFungibleStakedOct f epoch = .ok (pool', out)) :
    ∃ data principal rewards total, pool.fungibleStakedOctData = some data ∧
      f.value ≤ data.totalSupply ∧ 0 < data.totalSupply ∧
      principal = share f.value (min data.principal total) data.totalSupply ∧
      principal ≤ data.principal ∧ rewards ≤ pool.rewardsPool ∧ out = principal + rewards ∧
      pool' = ({ pool.withoutRewards rewards with
        fungibleStakedOctData :=
          some ⟨data.totalSupply - f.value, data.principal - principal⟩ }).booked out f.value := by
  simp only [redeemFungibleStakedOct, bind_ok, check_ok, require_ok, subU64_ok,
    split_ok, join_ok, exists_const] at h
  obtain ⟨_, _, _, data, hd, ⟨principal, rewards⟩, hc, _, ⟨hv, rfl⟩, _,
    ⟨hp, rfl⟩, _, ⟨hrew, rfl⟩, _, ⟨_, rfl⟩, pool₁, hb, h⟩ := h
  obtain ⟨hpos, total, rfl⟩ := calculateFungibleStakedOctWithdrawAmount_ok hc
  obtain rfl := bookWithdraw_ok hb
  obtain ⟨rfl, rfl⟩ := h
  exact ⟨data, _, rewards, total, hd, hv, hpos, rfl, hp, hrew, rfl, rfl⟩

/-- The pool tokens held as fungible receipts, and the principal behind them. -/
def totalSupply (pool : StakingPool) : ℕ := (pool.fungibleStakedOctData.map (·.totalSupply)).getD 0

def fungiblePrincipal (pool : StakingPool) : ℕ :=
  (pool.fungibleStakedOctData.map (·.principal)).getD 0

/-- **Converting a receipt** into pool tokens. -/
theorem convertToFungibleStakedOct_ok
    (h : pool.convertToFungibleStakedOct s epoch = .ok (pool', f)) :
    s.poolId = pool.id ∧ s.stakeActivationEpoch ≤ epoch ∧ pool.isPreactive = false ∧
      pool.isInactive = false ∧ ∃ rate,
      pool.poolTokenExchangeRateAtEpoch s.stakeActivationEpoch = .ok rate ∧
      f = ⟨pool.id, rate.tokens s.principal⟩ ∧
      pool' = { pool with
        fungibleStakedOctData := some ⟨pool.totalSupply + rate.tokens s.principal,
          pool.fungiblePrincipal + s.principal⟩ } := by
  simp only [convertToFungibleStakedOct, ok_iff] at h
  obtain ⟨hid, hact, ⟨hpre, hina⟩, rate, hr, t, ht, h⟩ := h
  obtain rfl := eq_tokens_of_getTokenAmount ht
  refine ⟨hid, hact, by simpa using hpre, by simpa using hina, rate, hr, ?_⟩
  cases hd : pool.fungibleStakedOctData with
  | none =>
    simp only [hd] at h
    obtain ⟨rfl, rfl⟩ := h
    simp [totalSupply, fungiblePrincipal, hd, hid]
  | some data =>
    simp only [hd, ok_iff, addU64_ok, join_ok] at h
    obtain ⟨_, ⟨_, rfl⟩, _, ⟨_, rfl⟩, _, rfl, rfl, rfl⟩ := h
    simp [totalSupply, fungiblePrincipal, hd, hid]

theorem depositRewards_ok (h : pool.depositRewards rewards = .ok pool') :
    pool' = { pool with
      suiBalance := pool.suiBalance + rewards
      rewardsPool := pool.rewardsPool + rewards } := by
  simp only [depositRewards, ok_iff, addU64_ok, join_ok] at h
  obtain ⟨_, ⟨_, rfl⟩, _, ⟨_, rfl⟩, rfl⟩ := h
  rfl

/-- The pool with the rate of the coming epoch entered. -/
def withRate (pool : StakingPool) (epoch : ℕ) : StakingPool :=
  { pool with exchangeRates := pool.exchangeRates.set epoch pool.currentRate }

theorem processPendingStakesAndWithdraws_ok
    (h : pool.processPendingStakesAndWithdraws epoch = .ok pool') :
    pool.pendingTotalOctWithdraw ≤ pool.suiBalance ∧
      pool.pendingPoolTokenWithdraw ≤ pool.poolTokenBalance ∧
      pool.settled.minted.poolTokenBalance < u64Bound ∧
      pool' = pool.settled.minted.withRate (epoch + 1) := by
  simp only [processPendingStakesAndWithdraws, Table.add, ok_iff, addU64_ok] at h
  obtain ⟨_, ⟨_, rfl⟩, pool₁, hw, pool₂, hs, _, ⟨_, rfl⟩, _, _, rfl⟩ := h
  obtain ⟨hsui, htok, rfl⟩ := processPendingStakeWithdraw_ok.1 hw
  obtain ⟨rfl, _, hb⟩ := processPendingStake_ok hs
  exact ⟨hsui, htok, hb, rfl⟩

/-- The pool with its first rate. -/
def activated (pool : StakingPool) (epoch : ℕ) : StakingPool :=
  { pool with
    exchangeRates := pool.exchangeRates.set epoch initialExchangeRate
    activationEpoch := some epoch }

theorem activateStakingPool_ok (h : pool.activateStakingPool epoch = .ok pool') :
    pool.isPreactive = true ∧ pool.isInactive = false ∧ pool' = pool.activated epoch := by
  simp only [activateStakingPool, Table.add, ok_iff, Bool.not_eq_true] at h
  obtain ⟨_, ⟨_, rfl⟩, hpre, hina, rfl⟩ := h
  exact ⟨hpre, hina, rfl⟩

theorem deactivateStakingPool_ok (h : pool.deactivateStakingPool epoch = .ok pool') :
    pool.isInactive = false ∧ pool' = { pool with deactivationEpoch := some epoch } := by
  simp only [deactivateStakingPool, ok_iff, Bool.not_eq_true] at h
  exact ⟨h.1, h.2.symm⟩

/-! ### Previewing rewards -/

/-- The withdrawal takes its rewards out by the same steps, and fails where they do. -/
theorem withdraw_eq_calculateRewards (hp : s.poolId = pool.id) (epoch : ℕ) :
    (do let (tokens, principal) ← pool.withdrawFromPrincipal s
        pool.withdrawRewards principal tokens epoch) =
      (do let rewards ← pool.calculateRewards s epoch
          return (pool.withoutRewards rewards, rewards)) := by
  have hs : ∀ r, split pool.rewardsPool (min r pool.rewardsPool) =
      .ok (pool.rewardsPool - min r pool.rewardsPool, min r pool.rewardsPool) :=
    fun r => split_ok.2 ⟨min_le_right .., rfl⟩
  simp only [withdrawFromPrincipal, withdrawRewards, calculateRewards, check_of hp, bind_assoc, hs]
  rfl

/-- **The preview of a reward is what is paid.** For a receipt that is active, `calculate_rewards`
is the part that a withdrawal in the same epoch pays on top of the principal, and where the preview
aborts so does the withdrawal. -/
theorem calculateRewards_paid (hpool : s.poolId = pool.id)
    (hactive : s.stakeActivationEpoch ≤ epoch) :
    (∀ e, pool.calculateRewards s epoch = .error e → pool.requestWithdrawStake s epoch = .error e) ∧
    ∀ pool' out, pool.requestWithdrawStake s epoch = .ok (pool', out) →
      ∃ rewards, pool.calculateRewards s epoch = .ok rewards ∧ out = s.principal + rewards := by
  have hs := withdraw_eq_calculateRewards hpool epoch
  rw [requestWithdrawStake, if_neg (by omega)]
  constructor
  · intro e he
    rw [he, error_bind, bind_error] at hs
    rcases hs with hp | ⟨r, hp, hrew⟩
    · rw [hp, error_bind]
    · simp only [hp, hrew, ok_bind, error_bind]
  · intro pool' out hout
    simp only [bind_ok, join_ok] at hout
    obtain ⟨r, hp, ⟨pool₁, rewards⟩, hrew, _, _, _, _, _, _, _, ⟨_, rfl⟩, _, rfl⟩ :=
      hout
    simp only [hp, hrew, ok_bind] at hs
    obtain ⟨rewards', hpr, heq⟩ := bind_ok.1 hs.symm
    obtain ⟨_, _, _, rfl⟩ := withdrawFromPrincipal_ok hp
    obtain ⟨_, rfl⟩ := Prod.mk.inj (Except.ok.inj heq)
    exact ⟨rewards', hpr, rfl⟩

/-- A pool whose 200 tokens have earned 100, and the receipt for all of them. -/
def grown : StakingPool :=
  { StakingPool.new 7 with
    activationEpoch := some 0
    suiBalance := 300
    rewardsPool := 100
    poolTokenBalance := 200
    exchangeRates := (Table.empty.set 0 initialExchangeRate).set 1 ⟨300, 200⟩ }

theorem calculateRewards_paid_grown :
    ∃ rewards, grown.calculateRewards ⟨7, 0, 200, false⟩ 1 = .ok rewards ∧ 300 = 200 + rewards := by
  have hp : ∃ r, grown.requestWithdrawStake ⟨7, 0, 200, false⟩ 1 = .ok r ∧ r.2 = 300 := by
    decide
  obtain ⟨⟨pool', _⟩, hout, rfl⟩ := hp
  exact (calculateRewards_paid rfl (by decide)).2 pool' 300 hout

/-! ### What a redemption is worth -/

/-- Without stakes a token is worth one OCT. -/
theorem getSuiAmount_eq_share (rate : PoolTokenExchangeRate) :
    ∃ n c, 0 < c ∧ ∀ a < u64Bound, rate.getSuiAmount a = castU64 (share n a c) := by
  by_cases hr : rate.suiAmount = 0 ∨ rate.poolTokenAmount = 0
  · refine ⟨1, 1, one_pos, fun a ha => ?_⟩
    rw [getSuiAmount, if_pos hr, share_comm, share_self a one_pos]
    exact (castU64_ok.2 ⟨ha, rfl⟩).symm
  · refine ⟨rate.suiAmount, rate.poolTokenAmount, by omega, fun a _ => ?_⟩
    rw [getSuiAmount, if_neg hr, mulDiv, if_neg (by omega)]

/-- **What a redemption is worth.** It never fails its last check: if the whole supply is worth a
64-bit amount then principal and rewards are at most what the exchange rate gives, and less by
two at most; if it is not then the call aborts before. -/
theorem redemption_amount {rate : PoolTokenExchangeRate} {value principal supply : ℕ}
    (hpos : 0 < supply) (hvalue : value ≤ supply) (hsupply : supply < u64Bound) :
    (rate.getSuiAmount supply = .error .overflow ∧
      calculateFungibleStakedOctWithdrawAmount rate value principal supply = .error .overflow) ∨
    ∃ p r expected,
      calculateFungibleStakedOctWithdrawAmount rate value principal supply = .ok (p, r) ∧
      rate.getSuiAmount value = .ok expected ∧ p + r ≤ expected ∧ expected ≤ p + r + 2 := by
  obtain ⟨n, c, hc, hr⟩ := getSuiAmount_eq_share rate
  by_cases ht : share n supply c < u64Bound
  · right
    have hexp : share n value c ≤ share n supply c :=
      Nat.div_le_div_right (Nat.mul_le_mul_left n hvalue)
    obtain ⟨hle, hge⟩ := share_parts hc hpos hvalue
      (Nat.add_sub_of_le (min_le_right principal (share n supply c)))
    refine ⟨_, _, share n value c, ?_, ?_, hle, hge⟩
    · simp only [calculateFungibleStakedOctWithdrawAmount, hr supply hsupply,
        hr value (by omega), bind_ok, castU64_ok, subU64_ok, mulDiv_ok,
        addU64_ok, check_ok]
      exact ⟨_, ⟨ht, rfl⟩, _, ⟨min_le_right .., rfl⟩, _, ⟨hpos, by omega, rfl⟩, _,
        ⟨hpos, by omega, rfl⟩, _, ⟨by omega, rfl⟩, _, ⟨by omega, rfl⟩, (), hle, rfl⟩
    · rw [hr value (by omega)]
      exact castU64_ok.2 ⟨by omega, rfl⟩
  · left
    have he : rate.getSuiAmount supply = .error .overflow := by
      rw [hr supply hsupply, castU64, if_neg ht]
    exact ⟨he, by rw [calculateFungibleStakedOctWithdrawAmount, he, error_bind]⟩

theorem redemption_amount_third :
    ∃ p r expected, calculateFungibleStakedOctWithdrawAmount ⟨10, 7⟩ 1 2 3 = .ok (p, r) ∧
      getSuiAmount ⟨10, 7⟩ 1 = .ok expected ∧ p + r ≤ expected ∧ expected ≤ p + r + 2 :=
  (redemption_amount (by decide) (by decide) (by decide)).resolve_left (by decide)

/-! ### Where the functions can underflow -/

theorem searchRate_error {rates : Table ℕ PoolTokenExchangeRate} {activationEpoch : ℕ}
    (h : searchRate rates activationEpoch epoch = .error e) : e = .underflow .other := by
  induction epoch with
  | zero =>
    unfold searchRate at h
    split at h
    · split at h
      · cases h
      · exact (Except.error.inj h).symm
    · cases h
  | succ epoch ih =>
    unfold searchRate at h
    split at h
    · split at h
      · cases h
      · exact ih h
    · cases h

theorem poolTokenExchangeRateAtEpoch_error
    (h : pool.poolTokenExchangeRateAtEpoch epoch = .error e) : e = .underflow .other := by
  unfold poolTokenExchangeRateAtEpoch at h
  split at h
  · cases h
  · split at h
    · cases h
    · exact searchRate_error h

theorem processIfNotActive_error (h : pool.processIfNotActive = .error e) : pool.Overdrawn e := by
  unfold processIfNotActive at h
  split at h
  · exact processPendingStakeWithdraw_error h
  · cases h

theorem calculateFungibleStakedOctWithdrawAmount_ne_underflow {value supply : ℕ} :
    calculateFungibleStakedOctWithdrawAmount rate value principal supply
      ≠ .error (.underflow q) := by
  simp [calculateFungibleStakedOctWithdrawAmount, bind_error, EInvariantFailure]

section Underflow

variable {pool : StakingPool} (hq : q ≠ .other)
include hq

theorem poolTokenExchangeRateAtEpoch_ne_underflow :
    pool.poolTokenExchangeRateAtEpoch epoch ≠ .error (.underflow q) := by
  intro h
  exact hq (by simpa using poolTokenExchangeRateAtEpoch_error h)

theorem withdrawFromPrincipal_ne_underflow :
    pool.withdrawFromPrincipal s ≠ .error (.underflow q) := by
  simp [withdrawFromPrincipal, bind_error, EWrongPool, poolTokenExchangeRateAtEpoch_ne_underflow hq]

theorem withdrawRewards_ne_underflow {tokens : ℕ} :
    pool.withdrawRewards principal tokens epoch ≠ .error (.underflow q) := by
  simp [withdrawRewards, bind_error, poolTokenExchangeRateAtEpoch_ne_underflow hq]

/-- **Where a withdrawal can underflow**: handing back stake that is still pending, or settling
at once. -/
theorem requestWithdrawStake_underflow
    (h : pool.requestWithdrawStake s epoch = .error (.underflow q)) :
    (epoch < s.stakeActivationEpoch ∧ pool.isPreactive = false ∧
      pool.pendingStake < s.principal ∧ q = .pendingStake) ∨
    ((s.stakeActivationEpoch ≤ epoch ∨ pool.isPreactive = true) ∧
      ∃ rate rewards, pool.poolTokenExchangeRateAtEpoch s.stakeActivationEpoch = .ok rate ∧
        rewards ≤ pool.rewardsPool ∧
        ((pool.withoutRewards rewards).booked (s.principal + rewards)
          (rate.tokens s.principal)).processIfNotActive = .error (.underflow q)) := by
  unfold requestWithdrawStake at h
  split at h
  · rename_i hdir
    simp only [bind_error, subU64_error, Abort.underflow.injEq, pure_ok, reduceCtorEq, and_false,
      exists_const, or_false] at h
    exact .inl ⟨hdir.1, by simpa using hdir.2, h⟩
  · rename_i hdir
    refine .inr ⟨not_direct hdir, ?_⟩
    rcases bind_error.1 h with h | ⟨_, hp, h⟩
    · exact absurd h (withdrawFromPrincipal_ne_underflow hq)
    obtain ⟨_, rate, hr, rfl⟩ := withdrawFromPrincipal_ok hp
    rcases bind_error.1 h with h | ⟨⟨_, rewards⟩, hrew, h⟩
    · exact absurd h (withdrawRewards_ne_underflow hq)
    obtain ⟨hle, rfl⟩ := withdrawRewards_ok hrew
    rcases bind_error.1 h with h | ⟨_, hsum, h⟩
    · exact absurd h addU64_ne_underflow
    obtain ⟨_, rfl⟩ := addU64_ok.1 hsum
    rcases bind_error.1 h with h | ⟨_, hb, h⟩
    · exact absurd h bookWithdraw_ne_underflow
    obtain rfl := bookWithdraw_ok hb
    rcases bind_error.1 h with h | ⟨_, _, h⟩
    · exact ⟨rate, rewards, hr, hle, h⟩
    · simp [bind_error] at h

theorem redeemFungibleStakedOct_ne_underflow :
    pool.redeemFungibleStakedOct f epoch ≠ .error (.underflow q) := by
  simp [redeemFungibleStakedOct, bind_error, bookWithdraw_ne_underflow, EWrongPool,
    Table.EFieldDoesNotExist, poolTokenExchangeRateAtEpoch_ne_underflow hq,
    calculateFungibleStakedOctWithdrawAmount_ne_underflow, hq]

theorem convertToFungibleStakedOct_ne_underflow :
    pool.convertToFungibleStakedOct s epoch ≠ .error (.underflow q) := by
  cases hd : pool.fungibleStakedOctData with
  | none | some data =>
    simp [convertToFungibleStakedOct, bind_error, EWrongPool, ECannotMintFungibleStakedOctYet,
      EPoolPreactiveOrInactive, poolTokenExchangeRateAtEpoch_ne_underflow hq, hd]

theorem processPendingStakesAndWithdraws_underflow
    (h : pool.processPendingStakesAndWithdraws epoch = .error (.underflow q)) :
    pool.Overdrawn (.underflow q) := by
  unfold processPendingStakesAndWithdraws at h
  rcases bind_error.1 h with h | ⟨_, _, h⟩
  · exact absurd h addU64_ne_underflow
  rcases bind_error.1 h with h | ⟨pool₁, _, h⟩
  · exact processPendingStakeWithdraw_error h
  rcases bind_error.1 h with h | ⟨pool₂, _, h⟩
  · cases processPendingStake_error h
  rcases bind_error.1 h with h | ⟨rates, _, h⟩
  · simp [Table.add, bind_error, Table.EFieldAlreadyExists] at h
  rcases bind_error.1 h with h | ⟨_, _, h⟩
  · unfold checkBalanceInvariants at h
    rcases bind_error.1 h with h | ⟨_, _, h⟩
    · exact absurd h (poolTokenExchangeRateAtEpoch_ne_underflow hq)
    rcases bind_error.1 h with h | ⟨_, _, h⟩
    · cases getTokenAmount_error h
    · simp [ETokenBalancesDoNotMatchExchangeRate] at h
  · cases h

end Underflow

end StakingPool

end OneChain.System
