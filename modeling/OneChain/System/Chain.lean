import OneChain.Lib.Transition
import OneChain.System.Standing

/-!
# The chain: runs of the whole system

The entry points of `one_system.move` as one machine: the system state, the proposals that were
shared, and the clock. Genesis is the initial state, a transaction that aborts changes nothing,
and an epoch ends with `advance_epoch` or, when that fails, in safe mode.

A call takes its objects from its sender. Here an object may be any value of its type, so that
the runs of this machine include those in which the objects exist.

* `Chain.sound` — every reachable validator set is sound.
* `Chain.step_roster` — every transaction does to the roster what a `Roster.Step` does, and only
  a vote on a proposal to that effect takes trust away.
-/

namespace OneChain.System

open Lib Move VotingPower Validator ValidatorSet SuiSystemStateInnerV2

/-- `applied` lists the proposals whose action was executed. It is not stored on chain; the
machine keeps it to speak about the past. -/
structure Chain where
  system : SuiSystemStateInnerV2
  proposals : Table ID Proposal
  clock : ℕ
  nextId : ID
  applied : List ID

/-- The transactions. The sender is named where the call looks at it. -/
inductive Tx
  | requestAddValidatorCandidate (r : Validator.Registration) (sender : Address)
  | requestRemoveValidatorCandidate (sender : Address)
  | requestAddValidator (sender : Address)
  | requestRemoveValidator (sender : Address)
  | requestAddStake (stake : ℕ) (validatorAddress : Address)
  | requestAddValStake (cap : UnverifiedValidatorOperationCap) (stake : ℕ)
  | requestWithdrawStake (stakedOct : StakedOct)
  | convertToFungibleStakedOct (stakedOct : StakedOct)
  | redeemFungibleStakedOct (fungible : FungibleStakedOct)
  | reportValidator (cap : UnverifiedValidatorOperationCap) (reportee : Address)
  | undoReportValidator (cap : UnverifiedValidatorOperationCap) (reportee : Address)
  | requestSetGasPrice (cap : UnverifiedValidatorOperationCap) (newGasPrice : ℕ)
  | setCandidateValidatorGasPrice (cap : UnverifiedValidatorOperationCap) (newGasPrice : ℕ)
  | requestSetRevenueReceivingAddress (cap : UnverifiedValidatorOperationCap)
    (revenueReceivingAddress : Address)
  | requestSetCommissionRate (newCommissionRate : ℕ) (sender : Address)
  | setCandidateValidatorCommissionRate (newCommissionRate : ℕ) (sender : Address)
  | rotateOperationCap (sender : Address)
  | updateMetadata (sender : Address) (update : SuiSystemStateInnerV2.MetadataUpdate)
  | createUpdateTrustedValidatorProposal (cap : UnverifiedValidatorOperationCap)
    (operate : Bool) (trustedValidator : Address)
  | createUpdateOnlyTrustedValidatorProposal (cap : UnverifiedValidatorOperationCap)
    (onlyTrustedValidator : Bool)
  | createUpdateOnlyValidatorStakingProposal (cap : UnverifiedValidatorOperationCap)
    (onlyValidatorStaking : Bool)
  | voteProposal (cap : UnverifiedValidatorOperationCap) (proposal : ID) (agree : Bool)
  | advanceEpoch (p : SuiSystemStateInnerV2.AdvanceEpochParams)
  | advanceEpochSafeMode (p : SuiSystemStateInnerV2.AdvanceEpochParams)
  | tick (ms : ℕ)

namespace Chain

/-- A call that changes the system state only. -/
def onSystem (s : Chain) (call : Call SuiSystemStateInnerV2) : Call Chain := do
  let system ← call
  return { s with system }

/-- The same, for a call that also returns something to its sender. -/
def onSystem' {β : Type} (s : Chain) (call : Call (SuiSystemStateInnerV2 × β)) : Call Chain := do
  let (system, _) ← call
  return { s with system }

/-- Use up fresh ids. -/
def fresh (s : Chain) (n : ℕ) : Chain := { s with nextId := s.nextId + n }

/-- A call that shares a new proposal under the next id. -/
def share (s : Chain) (call : Call (SuiSystemStateInnerV2 × Proposal)) : Call Chain := do
  let (system, proposal) ← call
  return { s with
    system
    proposals := s.proposals.set s.nextId proposal
    nextId := s.nextId + 1 }

def vote (s : Chain) (cap : UnverifiedValidatorOperationCap) (id : ID) (agree : Bool) :
    Call Chain := do
  let proposal ← s.proposals.borrow id
  let (system, proposal, executed) ← s.system.voteProposal cap proposal agree s.clock
  return { s with
    system
    proposals := s.proposals.set id proposal
    applied := if executed then s.applied ++ [id] else s.applied }

variable (validate : ValidatorMetadata → Call Unit)

def step (s : Chain) : Tx → Call Chain
  | .requestAddValidatorCandidate r sender => (s.fresh 2).onSystem
      (s.system.requestAddValidatorCandidate validate r sender s.nextId (s.nextId + 1))
  | .requestRemoveValidatorCandidate sender =>
    s.onSystem (s.system.requestRemoveValidatorCandidate sender)
  | .requestAddValidator sender => s.onSystem (s.system.requestAddValidator sender)
  | .requestRemoveValidator sender => s.onSystem (s.system.requestRemoveValidator sender)
  | .requestAddStake stake validatorAddress =>
    s.onSystem' (s.system.requestAddStake stake validatorAddress)
  | .requestAddValStake cap stake => s.onSystem' (s.system.requestAddValStake cap stake)
  | .requestWithdrawStake stakedOct => s.onSystem' (s.system.requestWithdrawStake stakedOct)
  | .convertToFungibleStakedOct stakedOct =>
    s.onSystem' (s.system.convertToFungibleStakedOct stakedOct)
  | .redeemFungibleStakedOct fungible =>
    s.onSystem' (s.system.redeemFungibleStakedOct fungible)
  | .reportValidator cap reportee => s.onSystem (s.system.reportValidator cap reportee)
  | .undoReportValidator cap reportee => s.onSystem (s.system.undoReportValidator cap reportee)
  | .requestSetGasPrice cap newGasPrice =>
    s.onSystem (s.system.requestSetGasPrice cap newGasPrice)
  | .setCandidateValidatorGasPrice cap newGasPrice =>
    s.onSystem (s.system.setCandidateValidatorGasPrice cap newGasPrice)
  | .requestSetRevenueReceivingAddress cap revenueReceivingAddress =>
    s.onSystem (s.system.requestSetRevenueReceivingAddress cap revenueReceivingAddress)
  | .requestSetCommissionRate newCommissionRate sender =>
    s.onSystem (s.system.requestSetCommissionRate newCommissionRate sender)
  | .setCandidateValidatorCommissionRate newCommissionRate sender =>
    s.onSystem (s.system.setCandidateValidatorCommissionRate newCommissionRate sender)
  | .rotateOperationCap sender =>
    (s.fresh 1).onSystem (s.system.rotateOperationCap sender s.nextId)
  | .updateMetadata sender update => s.onSystem (s.system.updateMetadata validate sender update)
  | .createUpdateTrustedValidatorProposal cap operate trustedValidator => s.share
      (s.system.createUpdateTrustedValidatorProposal s.nextId cap operate trustedValidator s.clock)
  | .createUpdateOnlyTrustedValidatorProposal cap onlyTrustedValidator => s.share
      (s.system.createUpdateOnlyTrustedValidatorProposal s.nextId cap onlyTrustedValidator s.clock)
  | .createUpdateOnlyValidatorStakingProposal cap onlyValidatorStaking => s.share
      (s.system.createUpdateOnlyValidatorStakingProposal s.nextId cap onlyValidatorStaking s.clock)
  | .voteProposal cap id agree => s.vote cap id agree
  | .advanceEpoch p => s.onSystem' (s.system.advanceEpoch p)
  -- the validators' software asks for the next epoch
  | .advanceEpochSafeMode p => .ok { s with
      system := s.system.advanceEpochSafeMode { p with newEpoch := s.system.epoch + 1 } }
  | .tick ms => .ok { s with clock := s.clock + ms }

/-- What genesis is given. -/
structure GenesisConfig where
  registrations : List Validator.Registration
  allocations : List (ℕ × Address)
  (initialStorageFund protocolVersion epochStartTimestampMs : ℕ)
  parameters : SystemParametersV2
  stakeSubsidy : StakeSubsidy

def genesis (g : GenesisConfig) : Call Chain := do
  let (validators, _) ← Genesis.createValidators validate g.registrations g.allocations
  let system ← Genesis.create validators g.initialStorageFund g.protocolVersion
    g.epochStartTimestampMs g.parameters g.stakeSubsidy
  return {
    system
    proposals := Table.empty
    clock := 0
    nextId := 2 * g.registrations.length
    applied := [] }

/-- A state that genesis can leave. -/
def Initial (s : Chain) : Prop := ∃ g, genesis validate g = .ok s

def machine : Machine Chain Tx Abort := ⟨Initial validate, step validate⟩

end Chain

/-! ## Small chains, for concrete runs -/

namespace Chain

/-- Genesis with validators `1`, …, `n` and equal stakes. -/
def small (n : ℕ) : Call Chain :=
  genesis (fun _ => .ok ()) {
    registrations := (List.range n).map fun k => plainRegistration (k + 1)
    allocations := (List.range n).map fun k => (1000000000000, k + 1)
    initialStorageFund := 0
    protocolVersion := 1
    epochStartTimestampMs := 0
    parameters := ⟨86400000, 0, 4, 150, 7⟩
    stakeSubsidy := ⟨0, 0, 0, 10, 0⟩ }

/-- The cap that genesis makes for validator `a`. -/
def capOf (a : Address) : UnverifiedValidatorOperationCap := ⟨2 * a - 1, a⟩

/-- The end of epoch 0, without rewards. -/
def quietEpoch : SuiSystemStateInnerV2.AdvanceEpochParams := ⟨1, 1, 0, 0, 0, 0, 0, 0, 0⟩

def plainMachine : Machine Chain Tx Abort := machine fun _ => .ok ()

theorem init_small (n : ℕ) (s : Chain) (h : small n = .ok s) : plainMachine.init s := ⟨_, h⟩

end Chain

/-! ## Staking with several coins -/

namespace SuiSystemStateInnerV2

/-- The stake fails a check that comes before the flag, or one that comes after it. -/
def Refuses (s : SuiSystemStateInnerV2) (a : Address) (stake : ℕ) : Prop :=
  ∀ place v, ValidatorSet.minStakingThreshold ≤ stake →
    s.validators.getCandidateOrActiveValidatorMut a = .ok place → s.validators.at? place = some v →
      ∀ lock out, v.requestAddStakeNoCheck stake lock s.epoch ≠ .ok out

variable {a : Address}

/-- A stake that is not refused goes through with one of the flags only. -/
theorem exists_requestAddStake {s : SuiSystemStateInnerV2} {stake : ℕ} (h : ¬ s.Refuses a stake) :
    ∃ lock out, s.validators.requestAddStake a stake lock s.epoch = .ok out ∧
      ∀ out', s.validators.requestAddStake a stake (!lock) s.epoch ≠ .ok out' := by
  simp only [Refuses, not_forall, not_not] at h
  obtain ⟨place, v, hs, hp, hv, lock, out, hadd⟩ := h
  obtain ⟨v', r, hadd⟩ := Validator.requestAddStakeNoCheck_of_lock hadd v.onlyValidatorStaking
  refine ⟨v.onlyValidatorStaking, (s.validators.put v' place, r), ?_, fun out' hother => ?_⟩
  · simp only [ValidatorSet.requestAddStake, ValidatorSet.modify, check_of hs, hp, ok_bind, hv,
      require, Validator.requestAddStake_ok.2 ⟨rfl, hadd⟩, pure_ok]
  · simp only [ValidatorSet.requestAddStake, ValidatorSet.modify, ok_iff, hp, ok_bind] at hother
    obtain ⟨_, w, hw, _, _, hother, _⟩ := hother
    obtain rfl : v = w := by simpa [hv] using hw
    exact absurd (Validator.requestAddStake_ok.1 hother).1 (by simp)

end SuiSystemStateInnerV2

/-! ## Calls that leave the membership alone -/

namespace SuiSystemStateInnerV2

variable {s s' : SuiSystemStateInnerV2} {sender : Address} {cap : UnverifiedValidatorOperationCap}

/-- The parameters, the subsidies and the roster are as before, and a sound set is still sound. -/
structure Calm (s s' : SuiSystemStateInnerV2) : Prop where
  parameters : s'.parameters = s.parameters
  subsidy : s'.stakeSubsidy = s.stakeSubsidy
  epoch : s.epoch ≤ s'.epoch
  set : s.validators.Sound → s'.validators.Sound ∧ s'.validators.roster = s.validators.roster

theorem Calm.refl (s : SuiSystemStateInnerV2) : Calm s s := ⟨rfl, rfl, le_rfl, fun hs => ⟨hs, rfl⟩⟩

theorem calm_of_edited {set : ValidatorSet} (h : s.validators.Edited set) :
    Calm s { s with validators := set } :=
  ⟨rfl, rfl, le_rfl, fun hs => ⟨h.sound hs, h.roster⟩⟩

variable {validate : ValidatorMetadata → Call Unit} {reportee : Address}
  {f : Validator → Call Validator} {which : WhichValidator} {candidates executed : Bool} {id : ID}
  {action : Action} {clock : ℕ} {p : Proposal}

theorem calm_requestAddValidatorCandidate {r : Validator.Registration} {poolId capId : ID}
    (h : s.requestAddValidatorCandidate validate r sender poolId capId = .ok s') : Calm s s' := by
  simp only [requestAddValidatorCandidate, ok_iff] at h
  obtain ⟨v, hnew, set, hadd, rfl⟩ := h
  exact ⟨rfl, rfl, le_rfl, fun hs => hs.requestAddValidatorCandidate (waiting_new hnew) hadd⟩

theorem calm_requestRemoveValidatorCandidate
    (h : s.requestRemoveValidatorCandidate sender = .ok s') : Calm s s' := by
  simp only [requestRemoveValidatorCandidate, ok_iff] at h
  obtain ⟨set, hrem, rfl⟩ := h
  exact ⟨rfl, rfl, le_rfl, fun hs => hs.requestRemoveValidatorCandidate hrem⟩

theorem calm_of_call {β : Type} {call : Call (ValidatorSet × β)} {b : β}
    (hc : ∀ set b, call = .ok (set, b) → s.validators.Edited set)
    (h : (do let (set, b) ← call; return ({ s with validators := set }, b)) = .ok (s', b)) :
    Calm s s' := by
  simp only [ok_iff] at h
  obtain ⟨set, b, hset, rfl, _⟩ := h
  exact calm_of_edited (hc set b hset)

theorem calm_reportValidator (h : s.reportValidator cap reportee = .ok s') : Calm s s' := by
  simp only [reportValidator, ok_iff] at h
  obtain ⟨_, _, _, _, _, rfl⟩ := h
  exact ⟨rfl, rfl, le_rfl, fun hs => ⟨hs, rfl⟩⟩

theorem calm_undoReportValidator (h : s.undoReportValidator cap reportee = .ok s') : Calm s s' := by
  simp only [undoReportValidator, ok_iff] at h
  obtain ⟨_, _, _, _, rfl⟩ := h
  exact ⟨rfl, rfl, le_rfl, fun hs => ⟨hs, rfl⟩⟩

theorem calm_modifyValidator {place : Place} (hf : ∀ v v', f v = .ok v' → Kept v v')
    (h : s.modifyValidator place f = .ok s') : Calm s s' := by
  simp only [modifyValidator, ok_iff] at h
  obtain ⟨set, _, hmod, rfl⟩ := h
  refine calm_of_edited (edited_of_modify (fun v v' _ hv => ?_) hmod)
  simp only [bind_ok] at hv
  obtain ⟨_, hv, rfl, _⟩ := hv
  exact hf v _ hv

theorem calm_modifyWithCap {f : Validator → Address → Call Validator}
    (hf : ∀ v a v', f v a = .ok v' → Kept v v')
    (h : s.modifyWithCap cap which candidates f = .ok s') : Calm s s' := by
  obtain ⟨a, _, h⟩ := bind_ok.1 h
  obtain ⟨_, _, h⟩ := bind_ok.1 h
  exact calm_modifyValidator (fun v v' => hf v a v') h

theorem calm_modifyWithCtx (hf : ∀ v v', f v = .ok v' → Kept v v')
    (h : s.modifyWithCtx sender candidates f = .ok s') : Calm s s' := by
  obtain ⟨_, _, h⟩ := bind_ok.1 h
  exact calm_modifyValidator hf h

theorem calm_modifyUnique (hf : ∀ v v', f v = .ok v' → Kept v v')
    (h : s.modifyUnique sender f = .ok s') : Calm s s' := by
  simp only [modifyUnique, ok_iff] at h
  obtain ⟨_, _, _, hmod, _, _, _, _, rfl⟩ := h
  exact calm_modifyValidator hf hmod

theorem calm_requestSetCommissionRate {rate : ℕ}
    (h : s.requestSetCommissionRate rate sender = .ok s') : Calm s s' := by
  obtain ⟨_, _, h⟩ := bind_ok.1 h
  exact calm_modifyValidator (fun _ _ => kept_requestSetCommissionRate) h

/-- Every update writes a field of the metadata that is not the address. -/
theorem calm_updateMetadata {update : MetadataUpdate}
    (h : s.updateMetadata validate sender update = .ok s') : Calm s s' := by
  cases update with
  | name | description | imageUrl | projectUrl =>
    refine calm_modifyWithCtx (fun _ _ hv => kept_updateText (fun _ _ => ?_) hv) h
    rfl
  | nextEpochNetworkAddress | nextEpochP2pAddress =>
    refine calm_modifyUnique (fun _ _ hv => kept_updateAddress (fun _ _ => ?_) hv) h
    rfl
  | nextEpochPrimaryAddress | nextEpochWorkerAddress =>
    refine calm_modifyWithCtx (fun _ _ hv => kept_updateAddress (fun _ _ => ?_) hv) h
    rfl
  | candidateNetworkAddress | candidateP2pAddress | candidatePrimaryAddress
  | candidateWorkerAddress =>
    refine calm_modifyWithCtx (fun _ _ hv => kept_ifCandidate (fun _ hu => ?_) hv) h
    refine kept_updateAddress (fun _ _ => ?_) hu
    rfl
  | nextEpochProtocolPubkey | nextEpochWorkerPubkey | nextEpochNetworkPubkey =>
    refine calm_modifyUnique (fun _ _ hv => kept_updateKey (fun _ _ => ?_) hv) h
    rfl
  | candidateProtocolPubkey | candidateWorkerPubkey | candidateNetworkPubkey =>
    refine calm_modifyWithCtx (fun _ _ hv => kept_ifCandidate (fun _ hu => ?_) hv) h
    refine kept_updateKey (fun _ _ => ?_) hu
    rfl

/-- A proposal changes the list of proposals and nothing else. -/
theorem propose_ok (h : s.propose id a action clock = .ok (s', p)) :
    ∃ powers committee, s.activeValidatorVotingPowers = .ok powers ∧
      s.supperCommittee.createProposal id a powers action clock = .ok (committee, p) ∧
      s' = { s with supperCommittee := committee } := by
  simp only [propose, ok_iff] at h
  obtain ⟨powers, hpow, committee, _, hc, rfl, rfl⟩ := h
  exact ⟨powers, committee, hpow, hc, rfl⟩

/-- The proposal is made in the name of the cap's validator. -/
theorem create_ok {tests : Call Unit} (h : (do
      tests
      let validatorAddress ← s.validators.verifyCap cap which
      s.propose id validatorAddress action clock) = .ok (s', p)) :
    s.propose id cap.authorizerValidatorAddress action clock = .ok (s', p) := by
  obtain ⟨_, _, h⟩ := bind_ok.1 h
  obtain ⟨a, hcap, h⟩ := bind_ok.1 h
  rwa [verifyCap_ok hcap] at h

/-- Here the cap is verified first, because the action names its validator. -/
theorem createUpdateOnlyValidatorStakingProposal_ok {mode : Bool}
    (h : s.createUpdateOnlyValidatorStakingProposal id cap mode clock = .ok (s', p)) :
    s.propose id cap.authorizerValidatorAddress
      (.updateOnlyValidatorStaking cap.authorizerValidatorAddress mode) clock = .ok (s', p) := by
  obtain ⟨a, hcap, h⟩ := bind_ok.1 h
  obtain ⟨_, _, h⟩ := bind_ok.1 h
  rwa [verifyCap_ok hcap] at h

theorem voteProposal_ok {p' : Proposal} {agree : Bool}
    (h : s.voteProposal cap p agree clock = .ok (s', p', executed)) :
    ∃ powers, s.activeValidatorVotingPowers = .ok powers ∧
      p.voteProposal powers cap.authorizerValidatorAddress agree clock = .ok p' ∧
      s.executeIfPassed p' clock = .ok (s', executed) := by
  simp only [voteProposal, ok_iff] at h
  obtain ⟨a, hcap, powers, hpow, q, hv, t, e, he, rfl, rfl, rfl⟩ := h
  rw [verifyCap_ok hcap] at hv
  exact ⟨powers, hpow, hv, he⟩

/-- The action is executed exactly when the proposal has passed. -/
theorem executeIfPassed_ok (h : s.executeIfPassed p clock = .ok (s', executed)) :
    (p.proposalStatus clock ≠ .pass ∧ executed = false ∧ s' = s) ∨
      (p.proposalStatus clock = .pass ∧ executed = true ∧ ∃ set,
        executeAction s.validators p.action = .ok set ∧ s' = { s with validators := set }) := by
  by_cases hp : p.proposalStatus clock = .pass
  · simp only [executeIfPassed, if_pos hp, ok_iff] at h
    obtain ⟨set, hset, rfl, rfl⟩ := h
    exact .inr ⟨hp, rfl, set, hset, rfl⟩
  · simp only [executeIfPassed, if_neg hp, Except.ok.injEq, Prod.mk.injEq] at h
    exact .inl ⟨hp, h.2.symm, h.1.symm⟩

theorem requestAddValidator_ok (h : s.requestAddValidator sender = .ok s') :
    ∃ set, s.validators.requestAddValidator sender s.epoch = .ok set ∧
      s' = { s with validators := set } := by
  simp only [requestAddValidator, ok_iff] at h
  obtain ⟨_, _, _, set, hset, rfl⟩ := h
  exact ⟨set, hset, rfl⟩

variable {out : List StakedOct × ℕ}

theorem advanceEpoch_ok {p : AdvanceEpochParams} (h : s.advanceEpoch p = .ok (s', out)) :
    ∃ computation storageFund grace outcome,
      s.validators.advanceEpoch computation storageFund s.validatorReportRecords
        p.rewardSlashingRate grace s.epoch = .ok outcome ∧
      s'.validators = outcome.set ∧ s'.parameters = adjustedParameters s.parameters ∧
      s'.validatorReportRecords = outcome.records := by
  simp only [advanceEpoch, ok_iff] at h
  obtain ⟨_, _, _, _, _, _, _, _, _, _, _, _, _, _, _, _, _, _, _, _, computation, _, _, _, _,
    storageFund, _, _, _, _, _, outcome, hset, _, _, _, _, _, _, _, rfl, _⟩ := h
  exact ⟨computation, storageFund, _, outcome, hset, rfl, rfl, rfl⟩

end SuiSystemStateInnerV2

/-! ## What a transaction can do -/

/-- In whose name a proposal is made. -/
def Tx.creator : Tx → Option Address
  | .createUpdateTrustedValidatorProposal cap _ _ => some cap.authorizerValidatorAddress
  | .createUpdateOnlyTrustedValidatorProposal cap _ => some cap.authorizerValidatorAddress
  | .createUpdateOnlyValidatorStakingProposal cap _ => some cap.authorizerValidatorAddress
  | _ => none

/-- A vote: whose, on what, and which way. -/
structure Ballot where
  voter : Address
  proposal : ID
  agree : Bool

def Tx.ballot : Tx → Option Ballot
  | .voteProposal cap id agree => some ⟨cap.authorizerValidatorAddress, id, agree⟩
  | _ => none

namespace Chain

variable {validate : ValidatorMetadata → Call Unit} {s s' : Chain} {tx : Tx}

/-- The five transactions that matter to the membership or to the proposals, and the rest. -/
inductive Effect (s : Chain) : Tx → Chain → Prop
  | calm {tx : Tx} {system : SuiSystemStateInnerV2} (n ms : ℕ) (h : s.system.Calm system) :
    Effect s tx { s with system, nextId := s.nextId + n, clock := s.clock + ms }
  | join {sender : Address} {system : SuiSystemStateInnerV2}
    (h : s.system.requestAddValidator sender = .ok system) :
    Effect s (.requestAddValidator sender) { s with system }
  | resign {sender : Address} {system : SuiSystemStateInnerV2}
    (h : s.system.requestRemoveValidator sender = .ok system) :
    Effect s (.requestRemoveValidator sender) { s with system }
  | propose {tx : Tx} {a : Address} {action : Action} {system : SuiSystemStateInnerV2}
    {p : Proposal} (ha : tx.creator = some a)
    (h : s.system.propose s.nextId a action s.clock = .ok (system, p)) :
    Effect s tx { s with
      system
      proposals := s.proposals.set s.nextId p
      nextId := s.nextId + 1 }
  | vote {cap : UnverifiedValidatorOperationCap} {id : ID} {agree executed : Bool}
    {system : SuiSystemStateInnerV2} {p p' : Proposal} (hp : s.proposals id = some p)
    (h : s.system.voteProposal cap p agree s.clock = .ok (system, p', executed)) :
    Effect s (.voteProposal cap id agree) { s with
      system
      proposals := s.proposals.set id p'
      applied := if executed then s.applied ++ [id] else s.applied }
  | epoch {params : SuiSystemStateInnerV2.AdvanceEpochParams} {system : SuiSystemStateInnerV2}
    {out : List StakedOct × ℕ} (h : s.system.advanceEpoch params = .ok (system, out)) :
    Effect s (.advanceEpoch params) { s with system }

variable {call : Call SuiSystemStateInnerV2} {system : SuiSystemStateInnerV2} {sender : Address}

theorem onSystem_ok (h : s.onSystem call = .ok s') :
    ∃ system, call = .ok system ∧ s' = { s with system } := by
  simp only [onSystem, ok_iff] at h
  obtain ⟨system, hc, rfl⟩ := h
  exact ⟨system, hc, rfl⟩

theorem onSystem'_eq_ok {β : Type} {call : Call (SuiSystemStateInnerV2 × β)}
    (h : s.onSystem' call = .ok s') : ∃ system b, call = .ok (system, b) ∧
      s' = { s with system } := by
  simp only [onSystem', ok_iff] at h
  obtain ⟨system, b, hc, rfl⟩ := h
  exact ⟨system, b, hc, rfl⟩

theorem effect_of_calm (n : ℕ) (hca : ∀ system, call = .ok system → s.system.Calm system)
    (h : (s.fresh n).onSystem call = .ok s') : Effect s tx s' := by
  obtain ⟨system, hc, rfl⟩ := onSystem_ok h
  exact .calm n 0 (hca system hc)

theorem effect_of_edited {β : Type} {call : Call (ValidatorSet × β)}
    (he : ∀ set b, call = .ok (set, b) → s.system.validators.Edited set)
    (h : s.onSystem' (do
      let (set, b) ← call
      return ({ s.system with validators := set }, b)) = .ok s') : Effect s tx s' := by
  obtain ⟨system, b, hc, rfl⟩ := onSystem'_eq_ok h
  exact .calm 0 0 (calm_of_call he hc)

theorem effect_of_share {call : Call (SuiSystemStateInnerV2 × Proposal)}
    {action : Action} (ha : tx.creator = some a)
    (hc : ∀ system p, call = .ok (system, p) →
      s.system.propose s.nextId a action s.clock = .ok (system, p))
    (h : s.share call = .ok s') : Effect s tx s' := by
  simp only [share, ok_iff] at h
  obtain ⟨system, p, hs, rfl⟩ := h
  exact .propose ha (hc system p hs)

open SuiSystemStateInnerV2 ValidatorSet in
/-- **What a transaction can do.** -/
theorem step_effect (h : step validate s tx = .ok s') : Effect s tx s' := by
  cases tx with
  | requestAddValidatorCandidate =>
    exact effect_of_calm 2 (fun _ => calm_requestAddValidatorCandidate) h
  | requestRemoveValidatorCandidate =>
    exact effect_of_calm 0 (fun _ => calm_requestRemoveValidatorCandidate) h
  | requestAddValidator sender =>
    obtain ⟨system, hc, rfl⟩ := onSystem_ok h
    exact .join hc
  | requestRemoveValidator sender =>
    obtain ⟨system, hc, rfl⟩ := onSystem_ok h
    exact .resign hc
  | requestAddStake | requestAddValStake =>
    exact effect_of_edited (fun _ _ => edited_requestAddStake) h
  | requestWithdrawStake => exact effect_of_edited (fun _ _ => edited_requestWithdrawStake) h
  | convertToFungibleStakedOct =>
    exact effect_of_edited (fun _ _ => edited_convertToFungibleStakedOct) h
  | redeemFungibleStakedOct =>
    exact effect_of_edited (fun _ _ => edited_redeemFungibleStakedOct) h
  | reportValidator => exact effect_of_calm 0 (fun _ => calm_reportValidator) h
  | undoReportValidator => exact effect_of_calm 0 (fun _ => calm_undoReportValidator) h
  | requestSetGasPrice =>
    exact effect_of_calm 0 (fun _ => calm_modifyWithCap fun _ _ _ => kept_requestSetGasPrice) h
  | setCandidateValidatorGasPrice =>
    exact effect_of_calm 0 (fun _ => calm_modifyWithCap fun _ _ _ => kept_setCandidateGasPrice) h
  | requestSetRevenueReceivingAddress =>
    exact effect_of_calm 0
      (fun _ => calm_modifyWithCap fun _ _ _ => kept_requestSetRevenueReceivingAddress) h
  | requestSetCommissionRate =>
    exact effect_of_calm 0 (fun _ => calm_requestSetCommissionRate) h
  | setCandidateValidatorCommissionRate =>
    exact effect_of_calm 0
      (fun _ => calm_modifyWithCtx fun _ _ => kept_setCandidateCommissionRate) h
  | rotateOperationCap =>
    exact effect_of_calm 1
      (fun _ => calm_modifyWithCtx fun _ _ =>
        kept_newUnverifiedValidatorOperationCapAndTransfer) h
  | updateMetadata => exact effect_of_calm 0 (fun _ => calm_updateMetadata) h
  | createUpdateTrustedValidatorProposal | createUpdateOnlyTrustedValidatorProposal =>
    exact effect_of_share rfl (fun _ _ => create_ok) h
  | createUpdateOnlyValidatorStakingProposal cap mode =>
    exact effect_of_share rfl (fun _ _ => createUpdateOnlyValidatorStakingProposal_ok) h
  | voteProposal cap id agree =>
    simp only [step, vote, Table.borrow, ok_iff] at h
    obtain ⟨p, hp, system, p', executed, hv, rfl⟩ := h
    exact .vote hp hv
  | advanceEpoch params =>
    obtain ⟨system, out, hc, rfl⟩ := onSystem'_eq_ok h
    exact .epoch hc
  | advanceEpochSafeMode params =>
    cases h
    exact .calm 0 0 ⟨rfl, rfl, Nat.le_succ _, fun hs => ⟨hs, rfl⟩⟩
  | tick ms =>
    cases h
    exact .calm 0 ms (.refl _)

/-! ## The membership over a run -/

/-- A vote on a proposal to take the trust of `a` away. -/
def Distrusts (s : Chain) (tx : Tx) (a : Address) : Prop :=
  ∃ b ∈ tx.ballot, ∃ p ∈ s.proposals b.proposal, p.action = .updateTrustedValidators false a

def set (s : Chain) : ValidatorSet := s.system.validators

def floor (s : Chain) : ℕ := s.system.parameters.minValidatorCount

/-- One step, as the membership sees it. -/
structure RosterStep (s : Chain) (tx : Tx) (s' : Chain) : Prop where
  sound : s'.set.Sound
  floor : s'.floor = s.floor
  step : ∃ e, Roster.Step s.floor s.set.roster e s'.set.roster ∧
    ∀ a, e = .distrust a → s.Distrusts tx a

theorem RosterStep.of_calm (hs : s.set.Sound) (h : s.system.Calm s'.system) :
    RosterStep s tx s' := by
  obtain ⟨hso, hr⟩ := h.set hs
  refine ⟨hso, congrArg SystemParametersV2.minValidatorCount h.parameters, .idle, ?_, nofun⟩
  show Roster.Step _ _ _ s'.system.validators.roster
  rw [hr]
  exact .idle _

theorem nextEpochValidatorCount_ok {set : ValidatorSet} {n : ℕ}
    (h : set.nextEpochValidatorCount = .ok n) : n = set.roster.nextCount := by
  simp only [nextEpochValidatorCount, bind_ok, subU64_ok, addU64_ok] at h
  obtain ⟨_, ⟨_, rfl⟩, _, rfl⟩ := h
  simp [Roster.nextCount, ValidatorSet.roster]

/-- Whoever resigns is held to the floor. -/
theorem requestRemoveValidator_ok {system' : SuiSystemStateInnerV2}
    (h : system.requestRemoveValidator sender = .ok system') :
    (system.parameters.minValidatorCount ≤ system.validators.roster.active.length →
        system.parameters.minValidatorCount < system.validators.roster.nextCount) ∧
      ∃ set, system.validators.removeValidator sender = .ok set ∧
        system' = { system with validators := set } := by
  simp only [SuiSystemStateInnerV2.requestRemoveValidator, ok_iff] at h
  obtain ⟨_, hc, set, hset, rfl⟩ := h
  refine ⟨fun he => ?_, set, hset, rfl⟩
  have he' : system.parameters.minValidatorCount ≤ system.validators.activeValidators.length := by
    simpa [ValidatorSet.roster] using he
  simp only [checkMinValidatorCount, if_pos he', ok_iff] at hc
  obtain ⟨n, hn, hlt⟩ := hc
  exact nextEpochValidatorCount_ok hn ▸ hlt

section

variable (hs : s.set.Sound)
include hs

theorem RosterStep.resign (h : s.system.requestRemoveValidator sender = .ok system) :
    RosterStep s tx { s with system } := by
  obtain ⟨hf, set, hset, rfl⟩ := requestRemoveValidator_ok h
  obtain ⟨i, hi, hnot, rfl⟩ := removeValidator_ok hset
  exact ⟨hs.mark hi hnot, rfl, .resign i, .resign hf, nofun⟩

/-- A vote: the action may be executed, and it is the proposal's own. -/
theorem RosterStep.vote {cap : UnverifiedValidatorOperationCap} {id : ID}
    {agree executed : Bool} {p p' : Proposal} (hp : s.proposals id = some p)
    (hsy : s'.system = system)
    (h : s.system.voteProposal cap p agree s.clock = .ok (system, p', executed)) :
    RosterStep s (.voteProposal cap id agree) s' := by
  obtain ⟨powers, _, hv, he⟩ := voteProposal_ok h
  rcases executeIfPassed_ok he with
    ⟨_, _, rfl⟩ | ⟨_, _, set, hset, rfl⟩
  · exact .of_calm hs (hsy ▸ .refl _)
  · obtain ⟨hso, hst⟩ := hs.executeAction hset
    have hset' : s'.set = set := congrArg validators hsy
    refine ⟨hset' ▸ hso, ?_, _, hset' ▸ hst, fun a ha => ?_⟩
    · exact congrArg (fun t => t.parameters.minValidatorCount) hsy
    · refine ⟨_, rfl, p, hp, ?_⟩
      rw [Proposal.action_voteProposal hv] at ha
      exact eventOf_eq_distrust ha

theorem RosterStep.epoch {params : SuiSystemStateInnerV2.AdvanceEpochParams}
    (h : s.system.advanceEpoch params = .ok (system, out)) :
    RosterStep s tx { s with system } := by
  obtain ⟨_, _, _, outcome, ho, hset, hpar, _⟩ := advanceEpoch_ok h
  refine ⟨?_, ?_, .epoch, ?_, nofun⟩
  · show system.validators.Sound
    rw [hset]
    exact (hs.advanceEpoch s.floor ho).1
  · show system.parameters.minValidatorCount = _
    rw [hpar, adjustedParameters]
    split <;> rfl
  · show Roster.Step _ _ _ system.validators.roster
    rw [hset]
    exact (hs.advanceEpoch s.floor ho).2

/-- **Every transaction is a step of the roster.** -/
theorem step_roster (h : step validate s tx = .ok s') : RosterStep s tx s' := by
  cases step_effect h with
  | calm n ms hc => exact .of_calm hs hc
  | join hj =>
    obtain ⟨set, hset, rfl⟩ := requestAddValidator_ok hj
    obtain ⟨hso, hst⟩ := hs.requestAddValidator hset
    exact ⟨hso, rfl, _, hst, nofun⟩
  | resign hres => exact .resign hs hres
  | propose _ hpr =>
    obtain ⟨_, _, _, _, rfl⟩ := propose_ok hpr
    exact .of_calm hs ⟨rfl, rfl, le_rfl, fun hs => ⟨hs, rfl⟩⟩
  | vote hp hv => exact .vote hs hp rfl hv
  | epoch he => exact .epoch hs he

end

/-! ## Genesis and reachable states -/

theorem Initial.ballots (h : Initial validate s) : s.proposals = Table.empty ∧ s.applied = [] := by
  obtain ⟨g, hg⟩ := h
  simp only [genesis, ok_iff] at hg
  obtain ⟨_, _, _, _, _, rfl⟩ := hg
  exact ⟨rfl, rfl⟩

/-- At genesis everybody is active and trusted, and the floor is four. -/
theorem Initial.roster (h : Initial validate s) :
    s.set.Sound ∧ s.floor = 4 ∧ s.set.roster.Trustworthy ∧ s.set.roster.removals = [] ∧
      s.set.roster.pending = [] := by
  obtain ⟨g, hg⟩ := h
  simp only [genesis, Genesis.create, ok_iff] at hg
  obtain ⟨vs, _, hval, _, ⟨set, hset, _, _, rfl⟩, rfl⟩ := hg
  obtain ⟨had, hoff⟩ := Genesis.createValidators_ok hval
  obtain ⟨hs, hr⟩ := sound_new had hoff hset
  show set.Sound ∧ (4 : ℕ) = 4 ∧ set.roster.Trustworthy ∧ set.roster.removals = [] ∧
    set.roster.pending = []
  rw [hr]
  refine ⟨hs, rfl, ⟨fun i a ha => .inl (List.mem_of_getElem? ha), by simp⟩, rfl, rfl⟩

variable {C : Chain → Tx → Prop}

/-- **Every reachable validator set is sound.** -/
theorem sound (h : (machine validate).Reach C s) : s.set.Sound :=
  h.invariant (fun _ hs => hs.roster.1) fun _ _ _ hs _ hst => (step_roster hs hst).sound

theorem floor_eq (h : (machine validate).Reach C s) : s.floor = 4 := by
  induction h with
  | init hs => exact hs.roster.2.1
  | step _ hr _ hst ih => exact (step_roster (sound hr) hst).floor.trans ih

end Chain

end OneChain.System
