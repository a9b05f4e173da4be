import OneChain.System.Chain
import OneChain.System.RewardPhase

/-!
# The reward phase and the staking flag

The amounts of the reward phase always fit, so that nothing in it can fail but the last step: a
validator's payout is staked with the validator itself, by the call that anybody stakes with. That
call refuses a validator that is open to staking by validators only, and every validator starts
that way.

* `reward_phase_succeeds_iff` — for every reachable validator set the reward phase succeeds exactly
  if no validator with the flag on is due a payout.
* `reward_phase_fails` — the first rewards after genesis.
-/

namespace OneChain.System

open Lib Move VotingPower Validator Balance

namespace Validator

/-- The validator's counters have room for `n` more. -/
@[mk_iff]
structure Room (v : Validator) (n : ℕ) : Prop where
  nextEpochStake : v.nextEpochStake + n < u64Bound
  pendingStake : v.stakingPool.pendingStake + n < u64Bound
  suiBalance : v.stakingPool.suiBalance + n < u64Bound
  rewardsPool : v.stakingPool.rewardsPool + n < u64Bound

instance (v : Validator) (n : ℕ) : Decidable (v.Room n) := decidable_of_iff _ (room_iff v n).symm

variable {v : Validator} {epoch stake : ℕ}

theorem exists_requestAddStake (ho : InOffice v) (hr : v.Room stake)
    (he : epoch + 1 < u64Bound) (hpos : 0 < stake) (hf : v.onlyValidatorStaking = false) :
    ∃ s, v.requestAddStake stake false epoch = .ok ({ v with
      stakingPool := v.stakingPool.withPending stake
      nextEpochStake := v.nextEpochStake + stake }, s) := by
  refine ⟨⟨v.stakingPool.id, epoch + 1, stake, false⟩, ?_⟩
  have hp : addU64 v.stakingPool.pendingStake stake =
      .ok (v.stakingPool.pendingStake + stake) := addU64_ok.2 ⟨hr.pendingStake, rfl⟩
  have hn : addU64 v.nextEpochStake stake = .ok (v.nextEpochStake + stake) :=
    addU64_ok.2 ⟨hr.nextEpochStake, rfl⟩
  have hs : addU64 epoch 1 = .ok (epoch + 1) := addU64_ok.2 ⟨he, rfl⟩
  have hpo : v.stakingPool.requestAddStake stake (epoch + 1) false =
      .ok (v.stakingPool.withPending stake, ⟨v.stakingPool.id, epoch + 1, stake, false⟩) := by
    rw [StakingPool.requestAddStake, check_of (by simp [ho.running]), check_of hpos, hp]
    rfl
  have hact : (v.stakingPool.withPending stake).processIfPreactive =
      .ok (v.stakingPool.withPending stake) := by
    rw [StakingPool.processIfPreactive, if_neg]
    show ¬ v.stakingPool.isPreactive = true
    simp [ho.activated]
  simp only [requestAddStake, requestAddStakeNoCheck, hf, check_of hpos, hs, ok_bind, hpo, hact, hn]
  rfl

end Validator

namespace RewardPhase

variable {r : RewardPhase} {v : Validator} {epoch : ℕ}

open ValidatorSet

/-- A payout is not staked with a validator that has the flag on. -/
theorem flag_of_stakeReward {reward : ℕ} {out : Validator × Option StakedOct}
    (h : stakeReward v reward epoch = .ok out) (hf : v.onlyValidatorStaking = true) :
    reward = 0 := by
  by_contra hne
  rw [stakeReward, if_pos (Nat.pos_of_ne_zero hne)] at h
  obtain ⟨⟨v', s⟩, hadd, _⟩ := bind_ok.1 h
  have hm := (requestAddStake_ok.1 hadd).1
  rw [hf] at hm
  cases hm

theorem exists_stakeReward (ho : InOffice v) (he : epoch + 1 < u64Bound) {reward : ℕ}
    (hr : v.Room reward) (hf : v.onlyValidatorStaking = true → reward = 0) :
    ∃ v' s, stakeReward v reward epoch = .ok (v', s) ∧
      v'.nextEpochStake = v.nextEpochStake + reward ∧
      v'.stakingPool.suiBalance = v.stakingPool.suiBalance ∧
      v'.stakingPool.rewardsPool = v.stakingPool.rewardsPool := by
  rcases Nat.eq_zero_or_pos reward with hz | hpos
  · refine ⟨v, none, ?_, ?_, rfl, rfl⟩
    · rw [stakeReward, if_neg (by omega)]
    · rw [hz, Nat.add_zero]
  · have hoff : v.onlyValidatorStaking = false := by
      cases hm : v.onlyValidatorStaking with
      | false => rfl
      | true => exact absurd (hf hm) hpos.ne'
    obtain ⟨s, hadd⟩ := exists_requestAddStake ho hr he hpos hoff
    refine ⟨{ v with
      stakingPool := v.stakingPool.withPending reward
      nextEpochStake := v.nextEpochStake + reward }, some s, ?_, rfl, rfl, rfl⟩
    rw [stakeReward, if_pos hpos, hadd]
    rfl

theorem payValidator_spec {p p' : Payroll}
    (h : payValidator epoch p (v, r.stakingDue v, r.storageDue v) = .ok p') :
    (v.onlyValidatorStaking = true → r.payout v = 0) ∧
      p'.stakingRewards = p.stakingRewards - r.stakingDue v ∧
      p'.storageFundReward = p.storageFundReward - r.storageDue v := by
  simp only [payValidator, bind_ok, split_ok, join_ok, mulDiv_ok, return_ok] at h
  obtain ⟨_, ⟨_, rfl⟩, _, ⟨_, _, rfl⟩, _, ⟨_, rfl⟩, _, ⟨_, rfl⟩, _, ⟨_, rfl⟩, _, hs, _, _, rfl⟩ := h
  exact ⟨flag_of_stakeReward hs, rfl, rfl⟩

theorem exists_payValidator (hoffice : InOffice v) (hepoch : epoch + 1 < u64Bound)
    (hroom : v.Room (r.stakingDue v + r.storageDue v))
    (hflag : v.onlyValidatorStaking = true → r.payout v = 0) {p : Payroll}
    (hstak : r.stakingDue v ≤ p.stakingRewards) (hstor : r.storageDue v ≤ p.storageFundReward) :
    ∃ p', payValidator epoch p (v, r.stakingDue v, r.storageDue v) = .ok p' := by
  set commission := share (r.stakingDue v) v.commissionRate basisPointDenominator with hcomm
  have hle : commission ≤ r.stakingDue v := share_le_of_le hoffice.commission.1
  have hbound := hroom.nextEpochStake
  have hpaid : r.payout v ≤ r.stakingDue v + r.storageDue v := Nat.add_le_add_right hle _
  have hroom' : v.Room (r.payout v) :=
    ⟨(Nat.add_le_add_left hpaid _).trans_lt hroom.nextEpochStake,
      (Nat.add_le_add_left hpaid _).trans_lt hroom.pendingStake,
      (Nat.add_le_add_left hpaid _).trans_lt hroom.suiBalance,
      (Nat.add_le_add_left hpaid _).trans_lt hroom.rewardsPool⟩
  obtain ⟨v', s, hstake, hnext, hbal, hpool⟩ := exists_stakeReward hoffice hepoch hroom' hflag
  have hrest := hroom.suiBalance
  have hrest' := hroom.rewardsPool
  have hdep : ∃ w, v'.depositStakeRewards (r.stakingDue v - commission) = .ok w := by
    have hpayout : r.payout v = commission + r.storageDue v := rfl
    simp only [depositStakeRewards, StakingPool.depositRewards, ok_iff, addU64_ok, join_ok]
    refine ⟨_, _, ⟨?_, rfl⟩, _, ⟨_, ⟨?_, rfl⟩, _, ⟨?_, rfl⟩, rfl⟩, rfl⟩
    · omega
    · omega
    · omega
  obtain ⟨w, hw⟩ := hdep
  have hsplit : split p.stakingRewards (r.stakingDue v) =
      .ok (p.stakingRewards - r.stakingDue v, r.stakingDue v) :=
    split_ok.2 ⟨hstak, rfl⟩
  have hmul : mulDiv (r.stakingDue v) v.commissionRate basisPointDenominator = .ok commission :=
    mulDiv_ok.2 ⟨by decide, by omega, rfl⟩
  have hsplit' : split (r.stakingDue v) commission =
      .ok (r.stakingDue v - commission, commission) := split_ok.2 ⟨hle, rfl⟩
  have hsplit'' : split p.storageFundReward (r.storageDue v) =
      .ok (p.storageFundReward - r.storageDue v, r.storageDue v) :=
    split_ok.2 ⟨hstor, rfl⟩
  have hjoin : join commission (r.storageDue v) = .ok (r.payout v) := join_ok.2 ⟨by omega, rfl⟩
  simp only [payValidator, hsplit, hmul, hsplit', hsplit'', hjoin, hstake, hw, ok_bind]
  exact ⟨_, rfl⟩

/-- **The loop.** If the rewards suffice for the rest of the validators, it pays them exactly if
no flag is in the way. -/
theorem foldlM_payValidator {vs : List Validator} (ho : ∀ v ∈ vs, InOffice v)
    (he : epoch + 1 < u64Bound) (hro : ∀ v ∈ vs, v.Room (r.stakingDue v + r.storageDue v))
    {p : Payroll} (hst : tally r.stakingDue vs ≤ p.stakingRewards)
    (hsr : tally r.storageDue vs ≤ p.storageFundReward) :
    (∃ p', (vs.map fun v => (v, r.stakingDue v, r.storageDue v)).foldlM (payValidator epoch) p =
      .ok p') ↔ ∀ v ∈ vs, v.onlyValidatorStaking = true → r.payout v = 0 := by
  induction vs generalizing p with
  | nil => exact ⟨fun _ => by simp, fun _ => ⟨p, rfl⟩⟩
  | cons v vs ih =>
    rw [tally_cons] at hst hsr
    rw [List.forall_mem_cons] at ho hro ⊢
    -- what one round leaves suffices for the others
    have hn : ∀ p', payValidator epoch p (v, r.stakingDue v, r.storageDue v) = .ok p' →
        ((∃ out, (vs.map fun v => (v, r.stakingDue v, r.storageDue v)).foldlM
          (payValidator epoch) p' = .ok out) ↔
          ∀ v ∈ vs, v.onlyValidatorStaking = true → r.payout v = 0) := by
      intro p' hp'
      obtain ⟨_, hs, hf⟩ := payValidator_spec hp'
      refine ih ho.2 hro.2 ?_ ?_
      · omega
      · omega
    constructor
    · rintro ⟨out, hout⟩
      obtain ⟨p', hp', hr⟩ := bind_ok.1 hout
      exact ⟨(payValidator_spec hp').1, (hn p' hp').1 ⟨out, hr⟩⟩
    · rintro ⟨hfl, hr⟩
      obtain ⟨p', hp'⟩ := exists_payValidator ho.1 he hro.1 hfl (by omega)
        (by omega : r.storageDue v ≤ p.storageFundReward)
      obtain ⟨out, hout⟩ := (hn p' hp').2 hr
      exact ⟨out, bind_ok.2 ⟨p', hp', hout⟩⟩

/-- The rewards and what a validator's pool holds are coins of one supply, and `oct.move` mints
that supply once, within a `u64`. -/
def WithinSupply (r : RewardPhase) : Prop :=
  ∀ v ∈ r.validators, v.Room (r.computation + r.storageFund)
  deriving Decidable

theorem Valid.succeeds_iff (h : r.Valid) (ho : ∀ v ∈ r.validators, InOffice v)
    (hs : r.WithinSupply) (he : epoch + 1 < u64Bound) :
    (∃ p, distributeRewards r.validators r.records r.rate r.computation r.storageFund epoch =
      .ok p) ↔ ∀ v ∈ r.validators, v.onlyValidatorStaking = true → r.payout v = 0 := by
  obtain ⟨w, hw⟩ := List.exists_mem_of_length_pos h.length_pos
  have hb := (hs w hw).nextEpochStake
  have hr : ∀ v ∈ r.validators, v.Room (r.stakingDue v + r.storageDue v) := by
    intro v hv
    have hd : r.stakingDue v + r.storageDue v ≤ r.computation + r.storageFund :=
      Nat.add_le_add ((le_tally hv).trans h.tally_stakingDue_le)
        ((le_tally hv).trans h.tally_storageDue_le)
    obtain ⟨hn, hp, hbal, hpo⟩ := hs v hv
    exact ⟨by omega, by omega, by omega, by omega⟩
  rw [h.distributeRewards_eq (by omega) (by omega), distributeReward,
    check_of h.length_pos, ← List.map_prod_left_eq_zip]
  exact foldlM_payValidator ho he hr h.tally_stakingDue_le h.tally_storageDue_le

end RewardPhase

namespace Chain

variable {validate : ValidatorMetadata → Call Unit} {s : Chain}

/-- The reward phase of the epoch that ends now. -/
def rewardPhase (s : Chain) (records : ReportRecords) (rate computation storageFund : ℕ) :
    RewardPhase :=
  ⟨s.set.activeValidators, records, rate, computation, storageFund⟩

/-- Every key and every reporter is active. -/
def RecordsActive (s : Chain) (records : ReportRecords) : Prop :=
  ∀ e ∈ records.contents, e.1 ∈ s.set.activeValidators.map suiAddress ∧
    ∀ a ∈ e.2.contents, a ∈ s.set.activeValidators.map suiAddress

theorem valid_rewardPhase (hs : s.set.Sound) {records : ReportRecords}
    (hr : s.RecordsActive records) {rate : ℕ} (hra : rate ≤ 10000)
    (computation storageFund : ℕ) : (s.rewardPhase records rate computation storageFund).Valid :=
  ⟨hs.addresses, hs.power_pos, hs.power_total, fun e he => (hr e he).1,
    fun e he => (hr e he).2, hra⟩

/-- **The reward phase** succeeds, for every reachable validator set and all rewards within the
supply, exactly if no active validator that is open to validators only is due a payout. -/
theorem reward_phase_succeeds_iff (h : (machine validate).Reach Machine.free s)
    {records : ReportRecords} (hrecords : s.RecordsActive records) {rate : ℕ}
    (hrate : rate ≤ 10000) {computation storageFund : ℕ}
    (hsupply : (s.rewardPhase records rate computation storageFund).WithinSupply)
    (hepoch : s.system.epoch + 1 < u64Bound) :
    (∃ payroll, ValidatorSet.distributeRewards s.set.activeValidators records rate computation
      storageFund s.system.epoch = .ok payroll) ↔
    ∀ v ∈ s.set.activeValidators, v.onlyValidatorStaking = true →
      (s.rewardPhase records rate computation storageFund).payout v = 0 :=
  (valid_rewardPhase (sound h) hrecords hrate computation storageFund).succeeds_iff
    (sound h).inOffice hsupply hepoch

/-- The theorem on a run: two validators open their pools to everybody, and the rewards of the
epoch are paid. -/
theorem reward_phase_succeeds_iff_small :
    ∃ s, plainMachine.Reach Machine.free s ∧ s.set.activeValidators.length = 2 ∧
      ∃ payroll, ValidatorSet.distributeRewards s.set.activeValidators VecMap.empty 5000 1000000000
        1000000 s.system.epoch = .ok payroll := by
  refine Machine.exists_reach_imp [.createUpdateOnlyValidatorStakingProposal (capOf 1) false,
      .voteProposal (capOf 2) 4 true,
      .createUpdateOnlyValidatorStakingProposal (capOf 2) false,
      .voteProposal (capOf 1) 5 true]
    (fun s => s.set.activeValidators.length = 2 ∧
      (s.rewardPhase VecMap.empty 5000 1000000000 1000000).WithinSupply ∧
      s.system.epoch + 1 < u64Bound ∧
      ∀ v ∈ s.set.activeValidators, v.onlyValidatorStaking = false)
    (init_small 2) (by decide +kernel) ?_
  rintro s hre ⟨hl, hs, hep, ho⟩
  refine ⟨hl, ?_⟩
  have hr : s.RecordsActive VecMap.empty := by
    intro e he
    cases he
  refine (reward_phase_succeeds_iff hre hr (by omega) hs hep).2 ?_
  intro v hv hf
  exact absurd hf (by simp [ho v hv])

/-- **The first rewards.** One validator as genesis makes it, and one coin of rewards: the reward
phase aborts, and the epoch cannot be ended. -/
theorem reward_phase_fails : ∃ s, plainMachine.Reach Machine.free s ∧
      ValidatorSet.distributeRewards s.set.activeValidators VecMap.empty 0 1000000000 0
          s.system.epoch =
        .error EOnlyValidatorStake ∧
      plainMachine.step s (.advanceEpoch ⟨1, 1, 0, 1000000000, 0, 0, 0, 0, 0⟩) =
        .error EOnlyValidatorStake :=
  Machine.exists_reach [] _ (init_small 1) (by decide +kernel)

end Chain

end OneChain.System
