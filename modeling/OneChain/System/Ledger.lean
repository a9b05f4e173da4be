import OneChain.Lib.Tally
import OneChain.Lib.Transition
import OneChain.System.Validator

/-!
# The ledger of one validator

A validator together with everything that stakers hold of its pool: the `StakedOct` and
`FungibleStakedOct` receipts and the vesting objects that locked principal has been moved into.
Receipts are owned objects that can change hands; who holds one does not matter to the pool, so a
list of all of them is enough, and a transfer is not a step.

Two machines run on it. `ledger` takes the functions of `validator.move` one at a time, in any
order and at any epoch. `schedule` takes them in the order in which the rest of the system calls
them: stake requests during an epoch, the boundary functions together at its end.
-/

namespace OneChain.System

open Lib Move Validator Machine

/-- A validator, its epoch and what is held of its pool. -/
structure World where
  epoch : ℕ
  validator : Validator
  staked : List StakedOct
  fungible : List FungibleStakedOct
  vestings : List CoinVesting
  /-- All principal that was ever staked into a locked receipt. -/
  lockedStake : ℕ

/-- The principal of a receipt if it is locked. -/
def StakedOct.lockedPrincipal (s : StakedOct) : ℕ := if s.lock then s.principal else 0

/-! ## Operations -/

/-- What holders of receipts, the governance and the reward distribution ask for. -/
inductive Request
  | addStake (stake : ℕ) (isValidator : Bool)
  | withdrawStake (s : StakedOct)
  | convert (s : StakedOct)
  | redeem (f : FungibleStakedOct)
  | split (s : StakedOct) (amount : ℕ)
  | join (s other : StakedOct)
  | splitFungible (f : FungibleStakedOct) (amount : ℕ)
  | joinFungible (f other : FungibleStakedOct)
  | setOnlyValidatorStaking (onlyValidatorStaking : Bool)
  | depositRewards (reward : ℕ)
  deriving DecidableEq, Repr

/-- The functions of `validator.move` that touch the pool, and the passing of an epoch. -/
inductive Op
  | request (r : Request)
  | stakeAtGenesis (stake : ℕ) (lock : Bool)
  | processPending
  | activate (epoch : ℕ)
  | deactivate (epoch : ℕ)
  | nextEpoch
  deriving DecidableEq, Repr

namespace World

variable (w : World)

def pool : StakingPool := w.validator.stakingPool

/-- The validator after a stake, and the new receipt. -/
def receive (validator : Validator) (s : StakedOct) : World :=
  { w with
    validator
    staked := s :: w.staked
    lockedStake := w.lockedStake + s.lockedPrincipal }

def request : Request → Call World
  | .addStake stake isValidator => do
    let (validator, s) ← w.validator.requestAddStake stake isValidator w.epoch
    return w.receive validator s
  | .withdrawStake s => do
    check (s ∈ w.staked) .missingObject
    let (validator, _, vesting) ← w.validator.requestWithdrawStake s w.epoch
    return { w with
      validator
      staked := w.staked.erase s
      vestings := vesting.toList ++ w.vestings }
  | .convert s => do
    check (s ∈ w.staked) .missingObject
    let (validator, f) ← w.validator.convertToFungibleStakedOct s w.epoch
    return { w with
      validator
      staked := w.staked.erase s
      fungible := f :: w.fungible }
  | .redeem f => do
    check (f ∈ w.fungible) .missingObject
    let (validator, _) ← w.validator.redeemFungibleStakedOct f w.epoch
    return { w with validator, fungible := w.fungible.erase f }
  | .split s amount => do
    check (s ∈ w.staked) .missingObject
    let (s', part) ← s.split amount
    return { w with staked := s' :: part :: w.staked.erase s }
  | .join s other => do
    check (s ∈ w.staked ∧ other ∈ w.staked.erase s) .missingObject
    let s' ← s.joinStakedOct other
    return { w with staked := s' :: (w.staked.erase s).erase other }
  | .splitFungible f amount => do
    check (f ∈ w.fungible) .missingObject
    let (f', part) ← f.split amount
    return { w with fungible := f' :: part :: w.fungible.erase f }
  | .joinFungible f other => do
    check (f ∈ w.fungible ∧ other ∈ w.fungible.erase f) .missingObject
    let f' ← f.join other
    return { w with fungible := f' :: (w.fungible.erase f).erase other }
  | .setOnlyValidatorStaking b => return { w with
      validator := w.validator.setOnlyValidatorStaking b }
  | .depositRewards reward => do
    let validator ← w.validator.depositStakeRewards reward
    return { w with validator }

def exec : Op → Call World
  | .request r => w.request r
  | .stakeAtGenesis stake lock => do
    let (validator, s) ← w.validator.requestAddStakeAtGenesis stake lock w.epoch
    return w.receive validator s
  | .processPending => do
    let validator ← w.validator.processPendingStakesAndWithdraws w.epoch
    return { w with validator }
  | .activate epoch => do
    let validator ← w.validator.activate epoch
    return { w with validator }
  | .deactivate epoch => do
    let validator ← w.validator.deactivate epoch
    return { w with validator }
  | .nextEpoch => return { w with epoch := w.epoch + 1 }

/-- A validator as `validator::new` leaves it, and nothing staked. -/
structure Fresh : Prop where
  created : ∃ validate r poolId capId, Validator.new validate r poolId capId = .ok w.validator
  staked : w.staked = []
  fungible : w.fungible = []
  vestings : w.vestings = []
  lockedStake : w.lockedStake = 0

/-- A fresh world, for concrete runs. -/
def blank : World where
  epoch := 0
  validator := Validator.plain 1 7 8
  staked := []
  fungible := []
  vestings := []
  lockedStake := 0

theorem blank_fresh : blank.Fresh :=
  ⟨⟨_, _, 7, 8, new_plainRegistration (by decide) 7 8⟩, rfl, rfl, rfl, rfl⟩

end World

/-- **The machine of single calls.** -/
def ledger : Machine World Op Abort where
  init := World.Fresh
  step := World.exec

/-! ## The order in which the system calls -/

/-- What happens to one validator between two transactions of the chain. -/
inductive Turn
  | request (r : Request)
  /-- `genesis::create`: the allocations, then the activation. -/
  | genesis (stakes : List ℕ)
  /-- `validator_set::request_remove_validator_candidate`. -/
  | removeCandidate
  /-- The end of an epoch for an active validator that stays. -/
  | endEpoch
  /-- The end of an epoch for an active validator that leaves. -/
  | leave
  /-- The end of an epoch for a pending validator that joins. -/
  | enter
  /-- The epoch changes and the pool is not touched: a candidate, an inactive validator, or any
  validator when the chain changes its epoch in safe mode. -/
  | skipEpoch
  deriving DecidableEq, Repr

namespace Turn

def ops (w : World) : Turn → List Op
  | .request r => [.request r]
  | .genesis stakes => stakes.map (.stakeAtGenesis · true) ++ [.activate 0]
  | .removeCandidate => [.deactivate w.epoch]
  | .endEpoch => [.processPending, .nextEpoch]
  | .leave => [.processPending, .deactivate (w.epoch + 1), .nextEpoch]
  | .enter => [.activate w.epoch, .nextEpoch]
  | .skipEpoch => [.nextEpoch]

/-- What the callers see to: genesis works on validators it has just built, only preactive
validators are candidates, only active ones are processed at the end of an epoch. -/
def Legal (w : World) : Turn → Prop
  | .genesis _ => w.epoch = 0 ∧ w.staked = [] ∧ w.pool.isPreactive = true
  | .removeCandidate => w.pool.isPreactive = true
  | .endEpoch | .leave => w.pool.isPreactive = false ∧ w.pool.isInactive = false
  | .request _ | .enter | .skipEpoch => True

end Turn

/-- **The machine of turns.** A turn in which a call aborts leaves no trace. -/
def schedule : Machine World Turn Abort where
  init := World.Fresh
  step w t := ledger.run w (t.ops w)

/-- Every state that turns reach is reached by single calls. -/
theorem ledger_reach_of_schedule {C : World → Turn → Prop} {w : World}
    (h : schedule.Reach C w) : ledger.Reach Machine.free w :=
  h.invariant (fun _ hw => .init hw) fun _ _ _ ih _ hs => reach_of_run ih hs

/-! ## What the operations leave behind -/

namespace World

variable {w w' : World}

theorem Fresh.pool_eq (h : w.Fresh) : ∃ poolId, w.pool = StakingPool.new poolId := by
  obtain ⟨_, _, poolId, _, hnew⟩ := h.created
  exact ⟨poolId, (new_eq_ok hnew).2.1⟩

theorem Fresh.nextEpochStake (h : w.Fresh) : w.validator.nextEpochStake = 0 := by
  obtain ⟨_, _, _, _, hnew⟩ := h.created
  exact (new_eq_ok hnew).2.2.2.1

theorem stakeAtGenesis_ok {stake : ℕ} {lock : Bool}
    (h : w.exec (.stakeAtGenesis stake lock) = .ok w') :
    w.epoch = 0 ∧ 0 < stake ∧ w.pool.isInactive = false ∧ w' = w.receive
        { w.validator with
          stakingPool := (w.pool.withPending stake).minted
          nextEpochStake := w.validator.nextEpochStake + stake }
        ⟨w.pool.id, 0, stake, lock⟩ ∧
      w'.pool.poolTokenBalance < u64Bound := by
  simp only [exec, ok_iff] at h
  obtain ⟨_, _, hadd, rfl⟩ := h
  obtain ⟨he, hpos, hina, rfl, rfl, hb⟩ := requestAddStakeAtGenesis_ok hadd
  exact ⟨he, hpos, hina, rfl, hb⟩

/-- The world after a receipt has been withdrawn. -/
def withdrawn (w : World) (s : StakedOct) (pool : StakingPool) (amount : ℕ) : World :=
  { w with
    validator := { w.validator with
      stakingPool := pool
      nextEpochStake := w.validator.nextEpochStake - amount }
    staked := w.staked.erase s
    vestings := (if s.lock then [Validator.vestingOf s] else []) ++ w.vestings }

/-- **What a request does**, where it does not abort. -/
inductive Effect (w : World) : Request → World → Prop
  | addStake {stake : ℕ} {isValidator : Bool} (hina : w.pool.isInactive = false)
      (hb : w.pool.poolTokenBalance < u64Bound →
        (Validator.poolWithStake w.pool stake).poolTokenBalance < u64Bound) :
      w.Effect (.addStake stake isValidator) (w.receive
        { w.validator with
          stakingPool := Validator.poolWithStake w.pool stake
          nextEpochStake := w.validator.nextEpochStake + stake }
        ⟨w.pool.id, w.epoch + 1, stake, isValidator⟩)
  | handBack {s : StakedOct} (hmem : s ∈ w.staked) (hact : w.epoch < s.stakeActivationEpoch)
      (hpre : w.pool.isPreactive = false) (hle : s.principal ≤ w.pool.pendingStake) :
      w.Effect (.withdrawStake s) (w.withdrawn s
        { w.pool with pendingStake := w.pool.pendingStake - s.principal } s.principal)
  | withdraw {s : StakedOct} {rate : PoolTokenExchangeRate} {rewards : ℕ} {pool : StakingPool}
      (hmem : s ∈ w.staked)
      (hact : s.stakeActivationEpoch ≤ w.epoch ∨ w.pool.isPreactive = true)
      (hrate : w.pool.poolTokenExchangeRateAtEpoch s.stakeActivationEpoch = .ok rate)
      (hrew : rewards ≤ w.pool.rewardsPool)
      (hpool : pool = (w.pool.withoutRewards rewards).booked (s.principal + rewards)
        (rate.tokens s.principal))
      (hs : pool.isInactive ∨ pool.isPreactive → pool.pendingTotalOctWithdraw ≤ pool.suiBalance) :
      w.Effect (.withdrawStake s) (w.withdrawn s pool.afterWithdraw (s.principal + rewards))
  | convert {s : StakedOct} {rate : PoolTokenExchangeRate} {f : FungibleStakedOct}
      (hmem : s ∈ w.staked) (hl : s.lock = false) (hact : s.stakeActivationEpoch ≤ w.epoch)
      (hpre : w.pool.isPreactive = false)
      (hrate : w.pool.poolTokenExchangeRateAtEpoch s.stakeActivationEpoch = .ok rate) :
      w.Effect (.convert s) { w with
        validator := { w.validator with
          stakingPool := { w.pool with
            fungibleStakedOctData := some ⟨w.pool.totalSupply + rate.tokens s.principal,
              w.pool.fungiblePrincipal + s.principal⟩ } }
        staked := w.staked.erase s
        fungible := f :: w.fungible }
  | redeem {f : FungibleStakedOct} {data : FungibleStakedOctData} {principal rewards total : ℕ}
      (hdata : w.pool.fungibleStakedOctData = some data) (hvalue : f.value ≤ data.totalSupply)
      (hpr : principal = share f.value (min data.principal total) data.totalSupply)
      (hle : principal ≤ data.principal) (hrew : rewards ≤ w.pool.rewardsPool) :
      w.Effect (.redeem f) { w with
        validator := { w.validator with
          stakingPool := ({ w.pool.withoutRewards rewards with
            fungibleStakedOctData := some ⟨data.totalSupply - f.value,
              data.principal - principal⟩ }).booked (principal + rewards) f.value
          nextEpochStake := w.validator.nextEpochStake - (principal + rewards) }
        fungible := w.fungible.erase f }
  | split {s : StakedOct} {amount : ℕ} (hmem : s ∈ w.staked) (hle : amount ≤ s.principal) :
      w.Effect (.split s amount) { w with
        staked := { s with principal := s.principal - amount } ::
          { s with principal := amount } :: w.staked.erase s }
  | join {s other : StakedOct} (hs : s ∈ w.staked) (ho : other ∈ w.staked.erase s)
      (hact : s.stakeActivationEpoch = other.stakeActivationEpoch) :
      w.Effect (.join s other) { w with
        staked := { s with principal := s.principal + other.principal } ::
          (w.staked.erase s).erase other }
  | splitFungible {f : FungibleStakedOct} {amount : ℕ} (fungible : List FungibleStakedOct) :
      w.Effect (.splitFungible f amount) { w with fungible }
  | joinFungible {f other : FungibleStakedOct} (fungible : List FungibleStakedOct) :
      w.Effect (.joinFungible f other) { w with fungible }
  | setOnlyValidatorStaking {b : Bool} : w.Effect (.setOnlyValidatorStaking b) { w with
      validator := w.validator.setOnlyValidatorStaking b }
  | depositRewards {reward : ℕ} : w.Effect (.depositRewards reward) { w with
      validator := { w.validator with
        nextEpochStake := w.validator.nextEpochStake + reward
        stakingPool := { w.pool with
          suiBalance := w.pool.suiBalance + reward
          rewardsPool := w.pool.rewardsPool + reward } } }

theorem effect_of_request {r : Request} (h : w.request r = .ok w') : w.Effect r w' := by
  cases r with
  | addStake stake isValidator =>
    simp only [request, ok_iff] at h
    obtain ⟨_, _, hadd, rfl⟩ := h
    obtain ⟨_, hina, rfl, rfl, hb⟩ := requestAddStakeNoCheck_ok (requestAddStake_ok.1 hadd).2
    exact .addStake hina hb
  | withdrawStake s =>
    simp only [request, ok_iff] at h
    obtain ⟨hmem, _, _, _, hw, rfl⟩ := h
    obtain ⟨pool', amount, hp, _, _, rfl, rfl, _⟩ := requestWithdrawStake_ok hw
    have hv : (if s.lock then some (Validator.vestingOf s) else none).toList =
        if s.lock then [Validator.vestingOf s] else [] := by cases s.lock <;> rfl
    rw [hv]
    rcases StakingPool.requestWithdrawStake_cases hp with
      ⟨hact, hpre, hle, rfl, rfl⟩ | ⟨hact, _, rate, rewards, hrate, hrew, rfl, hpr⟩
    · exact .handBack hmem hact hpre hle
    · obtain ⟨rfl, hs⟩ := StakingPool.processIfNotActive_ok hpr
      exact .withdraw hmem hact hrate hrew rfl fun hnow => (hs hnow).1
  | convert s =>
    simp only [request, ok_iff] at h
    obtain ⟨hmem, _, f, hc, rfl⟩ := h
    obtain ⟨hl, _, hp, rfl⟩ := convertToFungibleStakedOct_ok hc
    obtain ⟨_, hact, hpre, _, rate, hrate, _, rfl⟩ := StakingPool.convertToFungibleStakedOct_ok hp
    exact .convert hmem hl hact hpre hrate
  | redeem f =>
    simp only [request, ok_iff] at h
    obtain ⟨_, _, _, hred, rfl⟩ := h
    obtain ⟨_, _, hp, rfl⟩ := redeemFungibleStakedOct_ok hred
    obtain ⟨data, _, rewards, _, hdata, hvalue, _, hpr, hle, hrew, rfl, rfl⟩ :=
      StakingPool.redeemFungibleStakedOct_ok hp
    exact .redeem hdata hvalue hpr hle hrew
  | split s amount =>
    simp only [request, StakedOct.split, bind_ok, check_ok, Balance.split_ok, return_ok,
      exists_const] at h
    obtain ⟨hmem, _, ⟨hle, _, _, _, _, _, ⟨_, rfl⟩, rfl⟩, rfl⟩ := h
    exact .split hmem hle
  | join s other =>
    simp only [request, StakedOct.joinStakedOct, StakedOct.isEqualStakingMetadata, ok_iff,
      Balance.join_ok, Bool.and_eq_true, decide_eq_true_eq] at h
    obtain ⟨⟨hs, ho⟩, _, ⟨⟨_, hact⟩, _, ⟨_, rfl⟩, rfl⟩, rfl⟩ := h
    exact .join hs ho hact
  | splitFungible f amount =>
    simp only [request, ok_iff] at h
    obtain ⟨_, _, _, _, rfl⟩ := h
    exact .splitFungible _
  | joinFungible f other =>
    simp only [request, ok_iff] at h
    obtain ⟨_, _, _, rfl⟩ := h
    exact .joinFungible _
  | setOnlyValidatorStaking b =>
    cases h
    exact .setOnlyValidatorStaking
  | depositRewards reward =>
    simp only [request, ok_iff] at h
    obtain ⟨_, hdep, rfl⟩ := h
    obtain rfl := depositStakeRewards_ok hdep
    exact .depositRewards

/-- The world with another pool. -/
def withPool (w : World) (pool : StakingPool) : World :=
  { w with validator := { w.validator with stakingPool := pool } }

theorem processPending_ok (h : w.exec .processPending = .ok w') :
    w.pool.pendingTotalOctWithdraw ≤ w.pool.suiBalance ∧
      w.pool.settled.minted.poolTokenBalance < u64Bound ∧
      w' = w.withPool (w.pool.settled.minted.withRate (w.epoch + 1)) := by
  simp only [exec, ok_iff] at h
  obtain ⟨_, hpr, rfl⟩ := h
  obtain ⟨_, hp, rfl⟩ := processPendingStakesAndWithdraws_ok hpr
  obtain ⟨hle, _, hb, rfl⟩ := StakingPool.processPendingStakesAndWithdraws_ok hp
  exact ⟨hle, hb, rfl⟩

theorem activate_ok {epoch : ℕ} (h : w.exec (.activate epoch) = .ok w') :
    w.pool.isPreactive = true ∧ w.pool.isInactive = false ∧
      w' = w.withPool (w.pool.activated epoch) := by
  simp only [exec, ok_iff] at h
  obtain ⟨_, hact, rfl⟩ := h
  obtain ⟨_, hp, rfl⟩ := activate_ok hact
  obtain ⟨hpre, hina, rfl⟩ := StakingPool.activateStakingPool_ok hp
  exact ⟨hpre, hina, rfl⟩

theorem deactivate_ok {epoch : ℕ} (h : w.exec (.deactivate epoch) = .ok w') :
    w' = w.withPool { w.pool with deactivationEpoch := some epoch } := by
  simp only [exec, ok_iff] at h
  obtain ⟨_, hd, rfl⟩ := h
  obtain ⟨_, hp, rfl⟩ := deactivate_ok hd
  obtain ⟨_, rfl⟩ := StakingPool.deactivateStakingPool_ok hp
  rfl

/-! ### Turns, call by call -/

theorem turn_request (w : World) (r : Request) : schedule.step w (.request r) = w.request r :=
  run_singleton _ _

theorem turn_removeCandidate (w : World) :
    schedule.step w .removeCandidate = w.exec (.deactivate w.epoch) :=
  run_singleton _ _

theorem turn_skipEpoch (w : World) : schedule.step w .skipEpoch = w.exec .nextEpoch :=
  run_singleton _ _

theorem turn_endEpoch (w : World) :
    schedule.step w .endEpoch = w.exec .processPending >>= fun w₁ => w₁.exec .nextEpoch := rfl

theorem turn_leave (w : World) :
    schedule.step w .leave = w.exec .processPending >>= fun w₁ =>
      w₁.exec (.deactivate (w.epoch + 1)) >>= fun w₂ => w₂.exec .nextEpoch := rfl

theorem turn_enter (w : World) :
    schedule.step w .enter = w.exec (.activate w.epoch) >>= fun w₁ => w₁.exec .nextEpoch := rfl

theorem turn_genesis (w : World) (stakes : List ℕ) : schedule.step w (.genesis stakes) =
      ledger.run w (stakes.map (.stakeAtGenesis · true)) >>= fun w₁ => w₁.exec (.activate 0) := by
  refine (run_append _ _ _).trans ?_
  congr 1
  funext w₁
  exact run_singleton _ _

end World

end OneChain.System
