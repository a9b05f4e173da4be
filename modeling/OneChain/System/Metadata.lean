import OneChain.System.Validator

/-!
# `validator`: updates, and what they leave alone

The second half of `validator.move`: the updates a validator makes to its own metadata. Texts are
bounded and ASCII; a change of an address or a key is either made at once, by a candidate, or
staged for the next epoch, and the metadata is validated again afterwards.

Nothing a validator or a staker can call changes who the validator is: its address, its pool, its
voting power and whether the pool is active are the same afterwards, and its commission stays
within bounds. `Kept` says so, with one lemma for each call.
-/

namespace OneChain.System

open Lib Move StakingPool

namespace Validator

def ENewCapNotCreatedByValidatorItself : Abort := .code .validator 100

/-- `validator_cap::new_unverified_validator_operation_cap_and_transfer` makes the cap `capId`. -/
def newUnverifiedValidatorOperationCapAndTransfer (self : Validator) (sender : Address)
    (capId : ID) : Call Validator := do
  check (sender = self.suiAddress) ENewCapNotCreatedByValidatorItself
  return { self with operationCapId := capId }

def requestSetRevenueReceivingAddress (self : Validator) (capAddress : Address)
    (revenueReceivingAddress : Address) : Call Validator := do
  check (capAddress = self.suiAddress) EInvalidCap
  return { self with revenueReceivingAddress }

/-! ## Metadata updates -/

/-- A text argument. -/
def metadataText (bytes : Bytes) : Call Bytes := do
  check (bytes.length ≤ maxValidatorMetadataLength) EValidatorMetadataExceedingLengthLimit
  toAsciiString bytes

/-- Where an update writes its value. -/
abbrev Write := ValidatorMetadata → Bytes → ValidatorMetadata

def updateText (write : Write) (self : Validator) (bytes : Bytes) : Call Validator := do
  let text ← metadataText bytes
  return { self with metadata := write self.metadata text }

def updateName : Validator → Bytes → Call Validator :=
  updateText fun m text => { m with name := text }

def updateDescription : Validator → Bytes → Call Validator :=
  updateText fun m text => { m with description := text }

def updateImageUrl : Validator → Bytes → Call Validator :=
  updateText fun m text => { m with imageUrl := text }

def updateProjectUrl : Validator → Bytes → Call Validator :=
  updateText fun m text => { m with projectUrl := text }

section Validated

/-! The native `validate_metadata` is a parameter. -/

variable (validate : ValidatorMetadata → Call Unit)

/-- A key: any bytes that validate. -/
def updateKey (write : Write) (self : Validator) (key : Bytes) : Call Validator := do
  let metadata := write self.metadata key
  validate metadata
  return { self with metadata }

/-- An address: a text that validates. -/
def updateAddress (write : Write) (self : Validator) (bytes : Bytes) : Call Validator := do
  let text ← metadataText bytes
  updateKey validate write self text

/-- What only a candidate may do. -/
def ifCandidate (update : Validator → Bytes → Call Validator) (self : Validator) (bytes : Bytes) :
    Call Validator := do
  check self.isPreactive ENotValidatorCandidate
  update self bytes

def updateNextEpochNetworkAddress : Validator → Bytes → Call Validator :=
  updateAddress validate fun m text => { m with nextEpochNetAddress := some text }

def updateCandidateNetworkAddress : Validator → Bytes → Call Validator :=
  ifCandidate (updateAddress validate fun m text => { m with netAddress := text })

def updateNextEpochP2pAddress : Validator → Bytes → Call Validator :=
  updateAddress validate fun m text => { m with nextEpochP2pAddress := some text }

def updateCandidateP2pAddress : Validator → Bytes → Call Validator :=
  ifCandidate (updateAddress validate fun m text => { m with p2pAddress := text })

def updateNextEpochPrimaryAddress : Validator → Bytes → Call Validator :=
  updateAddress validate fun m text => { m with nextEpochPrimaryAddress := some text }

def updateCandidatePrimaryAddress : Validator → Bytes → Call Validator :=
  ifCandidate (updateAddress validate fun m text => { m with primaryAddress := text })

def updateNextEpochWorkerAddress : Validator → Bytes → Call Validator :=
  updateAddress validate fun m text => { m with nextEpochWorkerAddress := some text }

def updateCandidateWorkerAddress : Validator → Bytes → Call Validator :=
  ifCandidate (updateAddress validate fun m text => { m with workerAddress := text })

def updateNextEpochProtocolPubkey (proofOfPossession : Bytes) :
    Validator → Bytes → Call Validator :=
  updateKey validate fun m key => { m with
    nextEpochProtocolPubkeyBytes := some key
    nextEpochProofOfPossession := some proofOfPossession }

def updateCandidateProtocolPubkey (proofOfPossession : Bytes) :
    Validator → Bytes → Call Validator :=
  ifCandidate (updateKey validate fun m key => { m with
    protocolPubkeyBytes := key
    proofOfPossession := proofOfPossession })

def updateNextEpochNetworkPubkey : Validator → Bytes → Call Validator :=
  updateKey validate fun m key => { m with nextEpochNetworkPubkeyBytes := some key }

def updateCandidateNetworkPubkey : Validator → Bytes → Call Validator :=
  ifCandidate (updateKey validate fun m key => { m with networkPubkeyBytes := key })

def updateNextEpochWorkerPubkey : Validator → Bytes → Call Validator :=
  updateKey validate fun m key => { m with nextEpochWorkerPubkeyBytes := some key }

def updateCandidateWorkerPubkey : Validator → Bytes → Call Validator :=
  ifCandidate (updateKey validate fun m key => { m with workerPubkeyBytes := key })

end Validated

/-! ## What stays the same -/

/-- The rates that the setters accept. -/
def CommissionBounded (v : Validator) : Prop :=
  v.commissionRate ≤ maxCommissionRate ∧ v.nextEpochCommissionRate ≤ maxCommissionRate

/-- The pool is the same one, in the same stage of its life. -/
structure SamePool (p p' : StakingPool) : Prop where
  id : p'.id = p.id
  activationEpoch : p'.activationEpoch = p.activationEpoch
  deactivationEpoch : p'.deactivationEpoch = p.deactivationEpoch

/-- The validator is the same one, with the same standing. -/
structure Kept (v v' : Validator) : Prop where
  suiAddress : v'.suiAddress = v.suiAddress
  votingPower : v'.votingPower = v.votingPower
  pool : SamePool v.stakingPool v'.stakingPool
  commission : v.CommissionBounded → v'.CommissionBounded

/-- What an active validator is like. -/
structure InOffice (v : Validator) : Prop where
  activated : v.stakingPool.isPreactive = false
  running : v.stakingPool.isInactive = false
  commission : v.CommissionBounded

/-- What a candidate or pending validator is like. -/
structure Waiting (v : Validator) : Prop where
  preactive : v.stakingPool.isPreactive = true
  running : v.stakingPool.isInactive = false
  commission : v.CommissionBounded

section Kept

variable {v v' v'' : Validator} {p p' : StakingPool} {epoch : ℕ}

theorem SamePool.refl (p : StakingPool) : SamePool p p := ⟨rfl, rfl, rfl⟩

theorem Kept.refl (v : Validator) : Kept v v := ⟨rfl, rfl, .refl _, fun h => h⟩

theorem Kept.trans (h : Kept v v') (h' : Kept v' v'') : Kept v v'' where
  suiAddress := h'.suiAddress.trans h.suiAddress
  votingPower := h'.votingPower.trans h.votingPower
  pool := ⟨h'.pool.id.trans h.pool.id, h'.pool.activationEpoch.trans h.pool.activationEpoch,
    h'.pool.deactivationEpoch.trans h.pool.deactivationEpoch⟩
  commission := fun hc => h'.commission (h.commission hc)

theorem SamePool.isPreactive (h : SamePool p p') : p'.isPreactive = p.isPreactive := by
  rw [StakingPool.isPreactive, StakingPool.isPreactive, h.activationEpoch]

theorem SamePool.isInactive (h : SamePool p p') : p'.isInactive = p.isInactive := by
  rw [StakingPool.isInactive, StakingPool.isInactive, h.deactivationEpoch]

theorem Kept.inOffice (h : Kept v v') (hv : InOffice v) : InOffice v' where
  activated := h.pool.isPreactive.trans hv.activated
  running := h.pool.isInactive.trans hv.running
  commission := h.commission hv.commission

theorem Kept.waiting (h : Kept v v') (hv : Waiting v) : Waiting v' where
  preactive := h.pool.isPreactive.trans hv.preactive
  running := h.pool.isInactive.trans hv.running
  commission := h.commission hv.commission

theorem inOffice_of_activate (hv : Waiting v) (h : v.activate epoch = .ok v') : InOffice v' := by
  obtain ⟨pool', hp, rfl⟩ := activate_ok h
  obtain ⟨_, hr, rfl⟩ := activateStakingPool_ok hp
  exact ⟨rfl, hr, hv.commission⟩

theorem suiAddress_activate (h : v.activate epoch = .ok v') : v'.suiAddress = v.suiAddress := by
  obtain ⟨pool', _, rfl⟩ := activate_ok h
  rfl

theorem waiting_new {validate : ValidatorMetadata → Call Unit} {r : Registration}
    {poolId capId : ID} (h : new validate r poolId capId = .ok v) : Waiting v := by
  obtain ⟨_, hp, _, _, _, hr, hn, hb⟩ := new_eq_ok h
  refine ⟨?_, ?_, ?_⟩
  · rw [hp]
    rfl
  · rw [hp]
    rfl
  · exact ⟨hr.trans_le hb, hn.trans_le hb⟩

theorem kept_of_pool (h : SamePool v.stakingPool p') (stake : ℕ) :
    Kept v { v with stakingPool := p', nextEpochStake := stake } :=
  ⟨rfl, rfl, h, fun hc => hc⟩

theorem kept_requestAddStake {stake : ℕ} {isValidator : Bool} {r : StakedOct}
    (h : v.requestAddStake stake isValidator epoch = .ok (v', r)) : Kept v v' := by
  obtain ⟨_, h⟩ := requestAddStake_ok.1 h
  obtain ⟨_, _, _, rfl, _⟩ := requestAddStakeNoCheck_ok h
  refine kept_of_pool ?_ _
  unfold poolWithStake
  split <;> exact ⟨rfl, rfl, rfl⟩

variable {s : StakedOct} {out : ℕ} {f : FungibleStakedOct} {capAddress : Address}

theorem samePool_requestWithdrawStake (h : p.requestWithdrawStake s epoch = .ok (p', out)) :
    SamePool p p' := by
  rcases requestWithdrawStake_cases h with
    ⟨_, _, _, _, rfl⟩ | ⟨_, _, rate, rewards, _, _, _, hp⟩
  · exact ⟨rfl, rfl, rfl⟩
  · obtain ⟨rfl, _⟩ := processIfNotActive_ok hp
    unfold afterWithdraw
    split <;> exact ⟨rfl, rfl, rfl⟩

theorem kept_requestWithdrawStake {vesting : Option CoinVesting}
    (h : v.requestWithdrawStake s epoch = .ok (v', out, vesting)) : Kept v v' := by
  obtain ⟨pool', _, hp, _, _, rfl, _⟩ := requestWithdrawStake_ok h
  exact kept_of_pool (samePool_requestWithdrawStake hp) _

theorem kept_convertToFungibleStakedOct (h : v.convertToFungibleStakedOct s epoch = .ok (v', f)) :
    Kept v v' := by
  obtain ⟨_, pool', hp, rfl⟩ := convertToFungibleStakedOct_ok h
  obtain ⟨_, _, _, _, _, _, _, rfl⟩ := StakingPool.convertToFungibleStakedOct_ok hp
  exact ⟨rfl, rfl, ⟨rfl, rfl, rfl⟩, fun hc => hc⟩

theorem kept_redeemFungibleStakedOct (h : v.redeemFungibleStakedOct f epoch = .ok (v', out)) :
    Kept v v' := by
  obtain ⟨_, pool', hp, rfl⟩ := redeemFungibleStakedOct_ok h
  obtain ⟨_, _, _, _, _, _, _, _, _, _, _, rfl⟩ := StakingPool.redeemFungibleStakedOct_ok hp
  exact ⟨rfl, rfl, ⟨rfl, rfl, rfl⟩, fun hc => hc⟩

theorem kept_depositStakeRewards {reward : ℕ} (h : v.depositStakeRewards reward = .ok v') :
    Kept v v' := by
  obtain rfl := depositStakeRewards_ok h
  exact ⟨rfl, rfl, ⟨rfl, rfl, rfl⟩, fun hc => hc⟩

theorem kept_processPendingStakesAndWithdraws
    (h : v.processPendingStakesAndWithdraws epoch = .ok v') : Kept v v' := by
  obtain ⟨pool', hp, rfl⟩ := processPendingStakesAndWithdraws_ok h
  obtain ⟨_, _, _, rfl⟩ := StakingPool.processPendingStakesAndWithdraws_ok hp
  exact ⟨rfl, rfl, ⟨rfl, rfl, rfl⟩, fun hc => hc⟩

theorem kept_adjustStakeAndGasPrice (v : Validator) : Kept v v.adjustStakeAndGasPrice :=
  ⟨rfl, rfl, .refl _, fun hc => ⟨hc.2, hc.2⟩⟩

theorem kept_setOnlyValidatorStaking (v : Validator) (mode : Bool) :
    Kept v (v.setOnlyValidatorStaking mode) :=
  ⟨rfl, rfl, .refl _, fun hc => hc⟩

/-! ### Quotes and metadata -/

theorem kept_requestSetGasPrice {price : ℕ} (h : v.requestSetGasPrice capAddress price = .ok v') :
    Kept v v' := by
  simp only [requestSetGasPrice, ok_iff] at h
  obtain ⟨_, _, rfl⟩ := h
  exact ⟨rfl, rfl, .refl _, fun hc => hc⟩

theorem kept_setCandidateGasPrice {price : ℕ}
    (h : v.setCandidateGasPrice capAddress price = .ok v') : Kept v v' := by
  simp only [setCandidateGasPrice, ok_iff] at h
  obtain ⟨_, _, _, rfl⟩ := h
  exact ⟨rfl, rfl, .refl _, fun hc => hc⟩

theorem kept_requestSetCommissionRate {rate : ℕ} (h : v.requestSetCommissionRate rate = .ok v') :
    Kept v v' := by
  simp only [requestSetCommissionRate, ok_iff] at h
  obtain ⟨hr, rfl⟩ := h
  exact ⟨rfl, rfl, .refl _, fun hc => ⟨hc.1, hr⟩⟩

theorem kept_setCandidateCommissionRate {rate : ℕ}
    (h : v.setCandidateCommissionRate rate = .ok v') : Kept v v' := by
  simp only [setCandidateCommissionRate, ok_iff] at h
  obtain ⟨_, hr, rfl⟩ := h
  exact ⟨rfl, rfl, .refl _, fun hc => ⟨hr, hc.2⟩⟩

theorem kept_newUnverifiedValidatorOperationCapAndTransfer {sender : Address} {capId : ID}
    (h : v.newUnverifiedValidatorOperationCapAndTransfer sender capId = .ok v') : Kept v v' := by
  simp only [newUnverifiedValidatorOperationCapAndTransfer, ok_iff] at h
  obtain ⟨_, rfl⟩ := h
  exact ⟨rfl, rfl, .refl _, fun hc => hc⟩

theorem kept_requestSetRevenueReceivingAddress {address : Address}
    (h : v.requestSetRevenueReceivingAddress capAddress address = .ok v') : Kept v v' := by
  simp only [requestSetRevenueReceivingAddress, ok_iff] at h
  obtain ⟨_, rfl⟩ := h
  exact ⟨rfl, rfl, .refl _, fun hc => hc⟩

theorem kept_of_metadata {m : ValidatorMetadata} (h : m.suiAddress = v.metadata.suiAddress) :
    Kept v { v with metadata := m } :=
  ⟨h, rfl, .refl _, fun hc => hc⟩

theorem kept_effectuateStagedMetadata (h : v.effectuateStagedMetadata = .ok v') : Kept v v' := by
  simp only [effectuateStagedMetadata, ValidatorMetadata.effectuateStagedMetadata, ok_iff] at h
  obtain ⟨_, ⟨_, _, rfl⟩, rfl⟩ := h
  exact kept_of_metadata rfl

variable {validate : ValidatorMetadata → Call Unit} {write : Write} {bytes : Bytes}

section

variable (hw : ∀ m b, (write m b).suiAddress = m.suiAddress)
include hw

theorem kept_updateText (h : updateText write v bytes = .ok v') : Kept v v' := by
  simp only [updateText, ok_iff] at h
  obtain ⟨_, _, rfl⟩ := h
  exact kept_of_metadata (hw _ _)

theorem kept_updateKey (h : updateKey validate write v bytes = .ok v') : Kept v v' := by
  simp only [updateKey, ok_iff] at h
  obtain ⟨_, _, rfl⟩ := h
  exact kept_of_metadata (hw _ _)

theorem kept_updateAddress (h : updateAddress validate write v bytes = .ok v') : Kept v v' := by
  obtain ⟨_, _, h⟩ := bind_ok.1 h
  exact kept_updateKey hw h

end

theorem kept_ifCandidate {update : Validator → Bytes → Call Validator}
    (hupd : ∀ v', update v bytes = .ok v' → Kept v v')
    (h : ifCandidate update v bytes = .ok v') : Kept v v' := by
  obtain ⟨_, _, h⟩ := bind_ok.1 h
  exact hupd v' h

end Kept

end Validator

end OneChain.System
