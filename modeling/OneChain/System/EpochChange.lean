import OneChain.System.ValidatorSet
import Mathlib.Data.List.Sort

/-!
# `validator_set`: the epoch change

`advance_epoch` of `validator_set.move`: rewards, then the quotes and the pending stakes of the
epoch, then the validators that leave at their own request, then those whose stake is too low,
then the pending validators that join, and last the new voting powers.

What the rest of the development needs to know is `advanceEpoch_ok`: the active validators
afterwards are active validators that were not marked for removal, followed by pending ones.
-/

namespace OneChain.System

open Lib Move VotingPower

namespace ValidatorSet

/-! ## Leaving -/

/-- Take back what the leaving validator reported about `reported`. -/
def cleanRecord (leavingValidator : Address) (records : ReportRecords) (reported : Address) :
    Call ReportRecords := do
  let reporters ← records.get reported
  if reporters.contains leavingValidator then do
    let reporters ← reporters.remove leavingValidator
    if reporters.isEmpty then records.remove reported else return records.set reported reporters
  else return records

/-- Take back what was reported about the leaving validator. -/
def removeRecord (leavingValidator : Address) (records : ReportRecords) : Call ReportRecords :=
  if records.contains leavingValidator then records.remove leavingValidator else .ok records

def cleanReportRecordsLeavingValidator (records : ReportRecords) (leavingValidator : Address) :
    Call ReportRecords := do
  let records ← removeRecord leavingValidator records
  records.keys.foldlM (cleanRecord leavingValidator) records

variable (self : ValidatorSet)

/-- Remove the validator's entry from the at-risk map if there exists one. -/
def clearAtRisk (validatorAddress : Address) : Call ValidatorSet :=
  if self.atRiskValidators.contains validatorAddress then do
    let atRiskValidators ← self.atRiskValidators.remove validatorAddress
    return { self with atRiskValidators }
  else .ok self

/-- `validator` was taken out of the active list. Returns the stake that left with it. -/
def processValidatorDeparture (validator : Validator)
    (records : ReportRecords) (epoch : ℕ) : Call (ValidatorSet × ReportRecords × ℕ) := do
  let newEpoch ← addU64 epoch 1
  let (stakingPoolMappings, _) ← self.stakingPoolMappings.remove validator.stakingPoolId
  let self ← clearAtRisk { self with stakingPoolMappings } validator.suiAddress
  let records ← cleanReportRecordsLeavingValidator records validator.suiAddress
  let inactive ← validator.deactivate newEpoch
  let inactiveValidators ← self.inactiveValidators.add validator.stakingPoolId inactive
  return ({ self with inactiveValidators }, records, validator.totalStake)

/-- `sort_removal_list`, an insertion sort, in the order in which the list is popped afterwards:
from the back, that is in descending order. -/
def sortRemovalList (withdrawList : List ℕ) : List ℕ :=
  withdrawList.foldl (fun sorted cur => sorted.orderedInsert (· ≥ ·) cur) []

/-- The validator at `index` leaves. -/
def processRemoval (epoch : ℕ) (state : ValidatorSet × ReportRecords) (index : ℕ) :
    Call (ValidatorSet × ReportRecords) := do
  let (validator, activeValidators) ← Vector.remove state.1.activeValidators index
  let (self, records, _) ←
    { state.1 with activeValidators }.processValidatorDeparture validator state.2 epoch
  return (self, records)

def processPendingRemovals (records : ReportRecords) (epoch : ℕ) :
    Call (ValidatorSet × ReportRecords) :=
  (sortRemovalList self.pendingRemovals).foldlM (processRemoval epoch)
    ({ self with pendingRemovals := [] }, records)

/-! ## Low stake -/

/-- What the loops of `update_validator_positions_and_calculate_total_stake` work on. -/
structure Review where
  set : ValidatorSet
  records : ReportRecords
  totalRemovedStake : ℕ

/-- The validator at `i` is kicked out. -/
def kickOut (epoch : ℕ) (review : Review) (i : ℕ) : Call Review := do
  let (validator, activeValidators) ← Vector.remove review.set.activeValidators i
  let (set, records, removedStake) ←
    { review.set with activeValidators }.processValidatorDeparture validator review.records epoch
  let totalRemovedStake ← addU64 review.totalRemovedStake removedStake
  return { set, records, totalRemovedStake }

/-- Count one more epoch of low stake. -/
def countLowStake (validatorAddress : Address) : Call (ValidatorSet × ℕ) :=
  match self.atRiskValidators.tryGet validatorAddress with
  | some numEpochs => do
    let numEpochs ← addU64 numEpochs 1
    return ({ self with
      atRiskValidators := self.atRiskValidators.set validatorAddress numEpochs }, numEpochs)
  | none => do
    let atRiskValidators ← self.atRiskValidators.insert validatorAddress 1
    return ({ self with atRiskValidators }, 1)

/-- The body of the loop over the active validators. -/
def reviewValidator (lowThreshold veryLowThreshold gracePeriod initialTotalStake epoch : ℕ)
    (review : Review) (i : ℕ) : Call Review := do
  let validator ← Vector.borrow review.set.activeValidators i
  let votingPower ← deriveRawVotingPower validator.totalStake initialTotalStake
  if lowThreshold ≤ votingPower then do
    let set ← review.set.clearAtRisk validator.suiAddress
    return { review with set }
  else if veryLowThreshold ≤ votingPower then do
    let (set, newLowStakePeriod) ← review.set.countLowStake validator.suiAddress
    if gracePeriod < newLowStakePeriod then kickOut epoch { review with set } i
    else return { review with set }
  else kickOut epoch review i

/-- The body of the loop over the pending validators: join, or go back to the candidates. -/
def admitPending (minJoiningThreshold initialTotalStake epoch : ℕ) (review : Review)
    (validator : Validator) : Call Review := do
  let votingPower ← deriveRawVotingPower validator.totalStake initialTotalStake
  if minJoiningThreshold ≤ votingPower then do
    let validator ← validator.activate epoch
    return { review with
      set := { review.set with
        activeValidators := review.set.activeValidators ++ [validator] } }
  else do
    let validatorCandidates ← review.set.validatorCandidates.add validator.suiAddress validator
    let totalRemovedStake ← addU64 review.totalRemovedStake validator.totalStake
    return { review with
      set := { review.set with validatorCandidates }
      totalRemovedStake }

/-- The pending validators are popped from the back; the active ones are reviewed from the last
to the first. Returns the new total stake. -/
def updateValidatorPositionsAndCalculateTotalStake
    (lowStakeGracePeriod : ℕ) (records : ReportRecords) (epoch : ℕ) :
    Call (ValidatorSet × ReportRecords × ℕ) := do
  let pending := self.pendingActiveValidators.reverse
  let self := { self with pendingActiveValidators := [] }
  let pendingTotalStake ← calculateTotalStakes pending
  let activeTotalStake ← calculateTotalStakes self.activeValidators
  let initialTotalStake ← addU64 activeTotalStake pendingTotalStake
  let (minJoining, low, veryLow) ← self.getVotingPowerThresholds epoch
  let review ← (List.range self.activeValidators.length).reverse.foldlM
    (reviewValidator low veryLow lowStakeGracePeriod initialTotalStake epoch)
    { set := self, records, totalRemovedStake := 0 }
  let review ← pending.foldlM (admitPending minJoining initialTotalStake epoch) review
  let newTotalStake ← subU64 .other initialTotalStake review.totalRemovedStake
  return (review.set, review.records, newTotalStake)

/-! ## The whole epoch change -/

/-- The events of the epoch quote the rate of each pool, which has to be there. -/
def emitValidatorEpochEvents (newEpoch : ℕ) (vs : List Validator) : Call Unit :=
  vs.forM fun v => do
    let _ ← v.stakingPool.poolTokenExchangeRateAtEpoch newEpoch
    return ()

/-- What `advance_epoch` leaves behind: the receipts of the rewards went to the validators, and
the rest of the rewards to the caller. -/
structure EpochOutcome where
  set : ValidatorSet
  records : ReportRecords
  receipts : List StakedOct
  (computationReward storageFundReward : ℕ)

def advanceEpoch (computationReward storageFundReward : ℕ) (records : ReportRecords)
    (rewardSlashingRate lowStakeGracePeriod epoch : ℕ) : Call EpochOutcome := do
  let newEpoch ← addU64 epoch 1
  let votingPowerAdmissionStartEpoch := some (self.votingPowerAdmissionStartEpoch.getD epoch)
  let payroll ← distributeRewards self.activeValidators records rewardSlashingRate
    computationReward storageFundReward epoch
  let activeValidators := payroll.validators.map Validator.adjustStakeAndGasPrice
  let activeValidators ← activeValidators.mapM (·.processPendingStakesAndWithdraws epoch)
  emitValidatorEpochEvents newEpoch activeValidators
  let (self, records) ← processPendingRemovals
    { self with activeValidators, votingPowerAdmissionStartEpoch } records epoch
  let (self, records, totalStake) ←
    self.updateValidatorPositionsAndCalculateTotalStake lowStakeGracePeriod records epoch
  let activeValidators ← setVotingPower self.activeValidators totalStake
  let activeValidators ← activeValidators.mapM Validator.effectuateStagedMetadata
  return {
    set := { self with totalStake, activeValidators }
    records
    receipts := payroll.receipts
    computationReward := payroll.stakingRewards
    storageFundReward := payroll.storageFundReward }

/-! ## Departures -/

open List

/-- Two sets that agree on everything but the active list and the tables of departed
validators. -/
structure SameOutside (s s' : ValidatorSet) : Prop where
  pendingActiveValidators : s'.pendingActiveValidators = s.pendingActiveValidators
  pendingRemovals : s'.pendingRemovals = s.pendingRemovals
  validatorCandidates : s'.validatorCandidates = s.validatorCandidates
  onlyTrustedValidator : s'.onlyTrustedValidator = s.onlyTrustedValidator
  trustedValidators : s'.trustedValidators = s.trustedValidators

section Departure

variable {self} {self' self'' : ValidatorSet} {records records' : ReportRecords} {epoch : ℕ}

theorem SameOutside.refl (self : ValidatorSet) : SameOutside self self := ⟨rfl, rfl, rfl, rfl, rfl⟩

theorem SameOutside.trans (h : SameOutside self self') (h' : SameOutside self' self'') :
    SameOutside self self'' where
  pendingActiveValidators := h'.1.trans h.1
  pendingRemovals := h'.2.trans h.2
  validatorCandidates := h'.3.trans h.3
  onlyTrustedValidator := h'.4.trans h.4
  trustedValidators := h'.5.trans h.5

theorem clearAtRisk_ok {a : Address} (h : self.clearAtRisk a = .ok self') :
    ∃ atRisk, self' = { self with atRiskValidators := atRisk } := by
  unfold clearAtRisk at h
  split at h
  · simp only [ok_iff] at h
    obtain ⟨atRisk, _, rfl⟩ := h
    exact ⟨atRisk, rfl⟩
  · cases h
    exact ⟨_, rfl⟩

theorem processValidatorDeparture_ok {v : Validator} {stake : ℕ}
    (h : self.processValidatorDeparture v records epoch = .ok (self', records', stake)) :
    SameOutside self self' ∧ self'.activeValidators = self.activeValidators := by
  simp only [processValidatorDeparture, bind_ok] at h
  obtain ⟨_, _, _, _, set, hc, _, _, _, _, _, _, rfl, _, _⟩ := h
  obtain ⟨_, rfl⟩ := clearAtRisk_ok hc
  exact ⟨⟨rfl, rfl, rfl, rfl, rfl⟩, rfl⟩

theorem processRemoval_ok {index : ℕ}
    (h : processRemoval epoch (self, records) index = .ok (self', records')) :
    SameOutside self self' ∧ self'.activeValidators = self.activeValidators.eraseIdx index := by
  simp only [processRemoval, ok_iff] at h
  obtain ⟨v, rest, hrem, set, _, _, hdep, rfl, rfl⟩ := h
  obtain ⟨_, rfl⟩ := Vector.remove_ok hrem
  obtain ⟨hs, hact⟩ := processValidatorDeparture_ok hdep
  exact ⟨{ hs with }, hact⟩

theorem foldlM_processRemoval {is : List ℕ}
    (h : is.foldlM (processRemoval epoch) (self, records) = .ok (self', records')) :
    SameOutside self self' ∧ self'.activeValidators = eraseMarked self.activeValidators is := by
  induction is generalizing self records with
  | nil =>
    cases h
    exact ⟨.refl _, rfl⟩
  | cons i is ih =>
    rw [foldlM_cons, bind_ok] at h
    obtain ⟨⟨set, _⟩, hst, hr⟩ := h
    obtain ⟨hs, hact⟩ := processRemoval_ok hst
    obtain ⟨hs', hact'⟩ := ih hr
    refine ⟨hs.trans hs', ?_⟩
    rw [hact', hact]
    rfl

theorem processPendingRemovals_ok
    (h : self.processPendingRemovals records epoch = .ok (self', records')) :
    SameOutside { self with pendingRemovals := [] } self' ∧ self'.activeValidators =
        eraseMarked self.activeValidators (sortRemovalList self.pendingRemovals) :=
  foldlM_processRemoval h

end Departure

/-! ### The order of removals -/

theorem sortRemovalList_eq (l : List ℕ) : sortRemovalList l = l.reverse.insertionSort (· ≥ ·) :=
  foldr_reverse.symm

/-! ## Reviews and admissions -/

section Review

variable {r r' : Review} {epoch : ℕ}

theorem kickOut_ok {i : ℕ} (h : kickOut epoch r i = .ok r') :
    SameOutside r.set r'.set ∧ r'.set.activeValidators = r.set.activeValidators.eraseIdx i := by
  simp only [kickOut, ok_iff] at h
  obtain ⟨v, rest, hrem, set, _, _, hdep, _, _, rfl⟩ := h
  obtain ⟨_, rfl⟩ := Vector.remove_ok hrem
  obtain ⟨hs, hact⟩ := processValidatorDeparture_ok hdep
  exact ⟨{ hs with }, hact⟩

theorem countLowStake_ok {self self' : ValidatorSet} {a : Address} {n : ℕ}
    (h : self.countLowStake a = .ok (self', n)) :
    ∃ atRisk, self' = { self with atRiskValidators := atRisk } := by
  unfold countLowStake at h
  split at h <;>
  · simp only [ok_iff] at h
    obtain ⟨_, _, rfl, _⟩ := h
    exact ⟨_, rfl⟩

variable {total veryLow : ℕ}

theorem reviewValidator_ok {low grace i : ℕ}
    (h : reviewValidator low veryLow grace total epoch r i = .ok r') :
    SameOutside r.set r'.set ∧ (r'.set.activeValidators = r.set.activeValidators ∨
        r'.set.activeValidators = r.set.activeValidators.eraseIdx i) := by
  simp only [reviewValidator, bind_ok] at h
  obtain ⟨v, _, power, _, h⟩ := h
  split at h
  · simp only [ok_iff] at h
    obtain ⟨set, hc, rfl⟩ := h
    obtain ⟨_, rfl⟩ := clearAtRisk_ok hc
    exact ⟨⟨rfl, rfl, rfl, rfl, rfl⟩, .inl rfl⟩
  · split at h
    · simp only [ok_iff] at h
      obtain ⟨set, period, hco, h⟩ := h
      obtain ⟨_, rfl⟩ := countLowStake_ok hco
      split at h
      · obtain ⟨hs, hact⟩ := kickOut_ok h
        exact ⟨{ hs with }, .inr hact⟩
      · cases h
        exact ⟨⟨rfl, rfl, rfl, rfl, rfl⟩, .inl rfl⟩
    · obtain ⟨hs, hact⟩ := kickOut_ok h
      exact ⟨hs, .inr hact⟩

theorem foldlM_reviewValidator {low grace : ℕ} {is : List ℕ}
    (h : is.foldlM (reviewValidator low veryLow grace total epoch) r = .ok r') :
    SameOutside r.set r'.set ∧ r'.set.activeValidators.Sublist r.set.activeValidators := by
  refine foldlM_induction (P := fun s : Review => SameOutside r.set s.set ∧
    s.set.activeValidators.Sublist r.set.activeValidators) ?_ ⟨.refl _, .refl _⟩ h
  rintro s s' i _ ⟨hs, hsub⟩ hst
  obtain ⟨hs', hact⟩ := reviewValidator_ok hst
  refine ⟨hs.trans hs', ?_⟩
  rcases hact with hact | hact
  · exact hact ▸ hsub
  · exact hact ▸ (eraseIdx_sublist _ _).trans hsub

/-- What the loop over the pending validators does: some join, in order, at the end of the active
list; the others are candidates again. -/
structure Admitted (pending : List Validator) (epoch : ℕ) (s s' : ValidatorSet) : Prop where
  joined : ∃ src joined, src.Sublist pending ∧
    List.Forall₂ (fun v v' => Validator.activate v epoch = .ok v') src joined ∧
    s'.activeValidators = s.activeValidators ++ joined
  candidates : ∀ a v, s'.validatorCandidates a = some v →
    s.validatorCandidates a = some v ∨ (v ∈ pending ∧ v.suiAddress = a)
  pendingActiveValidators : s'.pendingActiveValidators = s.pendingActiveValidators
  pendingRemovals : s'.pendingRemovals = s.pendingRemovals
  onlyTrustedValidator : s'.onlyTrustedValidator = s.onlyTrustedValidator
  trustedValidators : s'.trustedValidators = s.trustedValidators

theorem admitPending_ok {min : ℕ} {v : Validator}
    (h : admitPending min total epoch r v = .ok r') : Admitted [v] epoch r.set r'.set := by
  simp only [admitPending, bind_ok] at h
  obtain ⟨power, _, h⟩ := h
  split at h
  · simp only [ok_iff] at h
    obtain ⟨v', ha, rfl⟩ := h
    exact ⟨⟨[v], [v'], .refl _, .cons ha .nil, rfl⟩, fun a w hw => .inl hw, rfl, rfl, rfl, rfl⟩
  · simp only [ok_iff] at h
    obtain ⟨_, hadd, _, _, rfl⟩ := h
    obtain ⟨_, rfl⟩ := Table.add_ok hadd
    refine ⟨⟨[], [], nil_sublist _, .nil, (append_nil _).symm⟩, fun a w hw => ?_,
      rfl, rfl, rfl, rfl⟩
    rcases Table.set_eq_some.1 hw with ⟨rfl, rfl⟩ | ⟨_, hw⟩
    · exact .inr ⟨mem_singleton_self v, rfl⟩
    · exact .inl hw

theorem foldlM_admitPending {min : ℕ} {pending : List Validator}
    (h : pending.foldlM (admitPending min total epoch) r = .ok r') :
    Admitted pending epoch r.set r'.set := by
  induction pending generalizing r with
  | nil =>
    cases h
    exact ⟨⟨[], [], .refl _, .nil, (append_nil _).symm⟩, fun a w hw => .inl hw, rfl, rfl, rfl, rfl⟩
  | cons v pending ih =>
    rw [foldlM_cons, bind_ok] at h
    obtain ⟨t, hs, hr⟩ := h
    have hv := admitPending_ok hs
    have hp := ih hr
    obtain ⟨src₁, joined₁, hsub₁, hall₁, hact₁⟩ := hv.joined
    obtain ⟨src₂, joined₂, hsub₂, hall₂, hact₂⟩ := hp.joined
    refine ⟨⟨src₁ ++ src₂, joined₁ ++ joined₂, hsub₁.append hsub₂, rel_append hall₁ hall₂, ?_⟩,
      fun a w hw => ?_, hp.3.trans hv.3, hp.4.trans hv.4, hp.5.trans hv.5, hp.6.trans hv.6⟩
    · rw [hact₂, hact₁, append_assoc]
    · rcases hp.candidates a w hw with hw | ⟨hmem, ha⟩
      · rcases hv.candidates a w hw with hw | ⟨hmem, ha⟩
        · exact .inl hw
        · exact .inr ⟨mem_cons.2 (.inl (mem_singleton.1 hmem)), ha⟩
      · exact .inr ⟨mem_cons_of_mem _ hmem, ha⟩

end Review

variable {self} {computation epoch storageFund : ℕ} {records : ReportRecords}

theorem updateValidatorPositionsAndCalculateTotalStake_ok {self' : ValidatorSet}
    {grace stake : ℕ} {records' : ReportRecords}
    (h : self.updateValidatorPositionsAndCalculateTotalStake grace records epoch =
      .ok (self', records', stake)) :
    ∃ stayed : List Validator, stayed.Sublist self.activeValidators ∧
      Admitted self.pendingActiveValidators.reverse epoch
        { self with activeValidators := stayed, pendingActiveValidators := [] } self' := by
  simp only [updateValidatorPositionsAndCalculateTotalStake, ok_iff] at h
  obtain ⟨_, _, _, _, _, _, _, _, _, _, r, hrev, r', ha, _, _, rfl, _, _⟩ := h
  obtain ⟨hs, hsub⟩ := foldlM_reviewValidator hrev
  have hadm := foldlM_admitPending ha
  refine ⟨r.set.activeValidators, hsub, hadm.joined, fun a v hv => ?_, hadm.3.trans hs.1,
    hadm.4.trans hs.2, hadm.5.trans hs.4, hadm.6.trans hs.5⟩
  have hc := hadm.candidates a v hv
  rwa [hs.validatorCandidates] at hc

/-! ## What the epoch change does to the set -/

open Validator

/-- The set after an epoch change. -/
structure Succession (s s' : ValidatorSet) : Prop where
  pendingRemovals : s'.pendingRemovals = []
  pendingActiveValidators : s'.pendingActiveValidators = []
  onlyTrustedValidator : s'.onlyTrustedValidator = s.onlyTrustedValidator
  trustedValidators : s'.trustedValidators = s.trustedValidators
  /-- Active validators that were not marked, then pending ones. -/
  addresses : (s'.activeValidators.map suiAddress).Sublist
    (eraseMarked (s.activeValidators.map suiAddress) (sortRemovalList s.pendingRemovals) ++
      s.pendingActiveValidators.reverse.map suiAddress)
  inOffice : (∀ v ∈ s.activeValidators, InOffice v) →
    (∀ v ∈ s.pendingActiveValidators, Waiting v) → ∀ v ∈ s'.activeValidators, InOffice v
  power_pos : ∀ v ∈ s'.activeValidators, 0 < v.votingPower
  power_total : tally (·.votingPower) s'.activeValidators = totalVotingPower
  candidates : ∀ a v, s'.validatorCandidates a = some v →
    s.validatorCandidates a = some v ∨ (v ∈ s.pendingActiveValidators ∧ v.suiAddress = a)

theorem Repowered.suiAddress {v v' : Validator} (h : Repowered v v') :
    v'.suiAddress = v.suiAddress := by
  rw [h]
  rfl

theorem Repowered.inOffice {v v' : Validator} (h : Repowered v v') (hv : InOffice v) :
    InOffice v' := by
  rw [h]
  exact { hv with }

/-- Up to the removals nobody comes or goes. -/
theorem kept_before_removals {vs vs' : List Validator} {rate : ℕ} {payroll : Payroll}
    (hpay : distributeRewards vs records rate computation storageFund epoch = .ok payroll)
    (hp : (payroll.validators.map adjustStakeAndGasPrice).mapM
      (·.processPendingStakesAndWithdraws epoch) = .ok vs') :
    List.Forall₂ Kept vs vs' := by
  have hadj : List.Forall₂ Kept payroll.validators
      (payroll.validators.map adjustStakeAndGasPrice) :=
    forall₂_map_right_iff.2 (forall₂_same.2 fun v _ => kept_adjustStakeAndGasPrice v)
  have hall := forall₂_trans (fun _ _ _ => .trans) (distributeRewards_ok hpay) hadj
  refine forall₂_trans (fun _ _ _ => .trans) hall ((mapM_eq_ok.1 hp).imp fun _ _ h => ?_)
  exact kept_processPendingStakesAndWithdraws h

/-- **The epoch change**, as far as membership goes. -/
theorem advanceEpoch_ok {rate grace : ℕ} {out : EpochOutcome}
    (h : self.advanceEpoch computation storageFund records rate grace epoch = .ok out) :
    Succession self out.set := by
  simp only [advanceEpoch, ok_iff] at h
  obtain ⟨_, _, payroll, hpay, vs, hproc, _, _, set₁, _, hremovals, set₂, _, stake, hupd,
    powered, hpower, final, hfinal, rfl⟩ := h
  have hkept := kept_before_removals hpay hproc
  obtain ⟨hsame, hact⟩ := processPendingRemovals_ok hremovals
  obtain ⟨stayed, hstayed, hadm⟩ := updateValidatorPositionsAndCalculateTotalStake_ok hupd
  obtain ⟨src, joined, hsrc, hjoin, hset₂⟩ := hadm.joined
  obtain ⟨hrep, hpos, htotal⟩ := setVotingPower_ok hpower
  have heff : List.Forall₂ Kept powered final :=
    (mapM_eq_ok.1 hfinal).imp fun _ _ h => kept_effectuateStagedMetadata h
  have hpend : set₁.pendingActiveValidators = self.pendingActiveValidators :=
    hsame.pendingActiveValidators
  rw [hpend] at hadm hsrc
  rw [hact] at hstayed
  refine {
    pendingRemovals := hadm.pendingRemovals.trans hsame.pendingRemovals
    pendingActiveValidators := hadm.pendingActiveValidators
    onlyTrustedValidator := hadm.onlyTrustedValidator.trans hsame.onlyTrustedValidator
    trustedValidators := hadm.trustedValidators.trans hsame.trustedValidators
    addresses := ?_
    inOffice := fun hoff hwait => ?_
    power_pos := forall₂_forall heff (fun _ _ hk hp => hk.votingPower.symm ▸ hp) hpos
    power_total := ?_
    candidates := fun a v hv => ?_ }
  · have hjoined : joined.map suiAddress = src.map suiAddress :=
      forall₂_map_eq hjoin fun _ _ h => suiAddress_activate h
    have hvs : vs.map suiAddress = self.activeValidators.map suiAddress :=
      forall₂_map_eq hkept fun _ _ h => h.suiAddress
    show (final.map suiAddress).Sublist _
    rw [forall₂_map_eq heff (fun _ _ h => h.suiAddress),
      forall₂_map_eq hrep (fun _ _ h => Repowered.suiAddress h), hset₂, map_append,
      hjoined, ← hvs, ← map_eraseMarked]
    exact (hstayed.map _).append (hsrc.map _)
  · have hvs : ∀ v ∈ vs, InOffice v := forall₂_forall hkept (fun _ _ h => h.inOffice) hoff
    have hjoined : ∀ v ∈ joined, InOffice v :=
      forall₂_forall hjoin (fun _ _ h hw => inOffice_of_activate hw h) fun v hv =>
        hwait v (mem_reverse.1 (hsrc.subset hv))
    have hset : ∀ v ∈ set₂.activeValidators, InOffice v := by
      rw [hset₂]
      intro v hv
      rcases mem_append.1 hv with hv | hv
      · exact hvs v ((eraseMarked_sublist _ _).subset (hstayed.subset hv))
      · exact hjoined v hv
    exact forall₂_forall heff (fun _ _ h => h.inOffice)
      (forall₂_forall hrep (fun _ _ h => Repowered.inOffice h) hset)
  · have hpow : final.map votingPower = powered.map votingPower :=
      forall₂_map_eq heff fun _ _ h => h.votingPower
    exact (congrArg List.sum hpow).trans htotal
  · rcases hadm.candidates a v hv with hv | ⟨hmem, ha⟩
    · exact .inl (hsame.validatorCandidates ▸ hv)
    · exact .inr ⟨mem_reverse.1 hmem, ha⟩

end ValidatorSet

end OneChain.System
