import OneChain.System.RewardSafety

/-!
# Report records

Validators report each other, and take their reports back. At an epoch change those whom a quorum
has reported are slashed; `compute_slashed_validators` aborts if a record names an address that is
not active.

* `Reported` — the records are about active validators, by other active validators, and none is
  empty.
* `Reported.cleanReportRecordsLeavingValidator` — whoever leaves disappears from both sides.
* `reports_active` — so it is in every reachable state, and slashing never aborts.
-/

namespace OneChain.System

open Lib Move VotingPower Validator List VecMap

/-- Reports among the `active` addresses, nobody's about themselves, and no record without one. -/
def Reported (active : List Address) (records : ReportRecords) : Prop :=
  ∀ e ∈ records.contents, e.1 ∈ active ∧ e.2.contents ≠ [] ∧
    ∀ a ∈ e.2.contents, a ∈ active ∧ a ≠ e.1

variable {a : Address}

theorem contents_remove {records records' : ReportRecords} (h : records.remove a = .ok records') :
    records'.contents = records.contents.filter fun e => e.1 ≠ a := by
  unfold remove at h
  split at h
  · cases h
    rfl
  · cases h

namespace Reported

variable {active active' : List Address} {records records' : ReportRecords}
  {reporter reportee leaving : Address}

variable (h : Reported active records)

include h

theorem mono (hsub : active ⊆ active') : Reported active' records := by
  intro e he
  obtain ⟨hkey, hs, hall⟩ := h e he
  exact ⟨hsub hkey, hs, fun a ha => ⟨hsub (hall a ha).1, (hall a ha).2⟩⟩

theorem of_subset (hsub : records'.contents ⊆ records.contents) : Reported active records' :=
  fun e he => h e (hsub he)

variable {reporters : VecSet Address}

theorem set (hkey : reportee ∈ active) (hs : reporters.contents ≠ [])
    (hall : ∀ a ∈ reporters.contents, a ∈ active ∧ a ≠ reportee) :
    Reported active (records.set reportee reporters) := by
  intro e he
  obtain ⟨e₀, he₀, rfl⟩ := mem_map.1 he
  unfold entry
  split
  next heq =>
    subst heq
    exact ⟨hkey, hs, hall⟩
  next => exact h e₀ he₀

/-! ## Reporting -/

theorem reportValidatorImpl (hrep : reporter ∈ active) (hr : reportee ∈ active)
    (hc : SuiSystemStateInnerV2.reportValidatorImpl reporter reportee records = .ok records') :
    Reported active records' := by
  simp only [SuiSystemStateInnerV2.reportValidatorImpl, ok_iff] at hc
  obtain ⟨ho, hc⟩ := hc
  split at hc
  next =>
    obtain ⟨-, hco⟩ := insert_ok hc
    intro e he
    rw [hco, mem_append, mem_singleton] at he
    rcases he with he | rfl
    · exact h e he
    · refine ⟨hr, cons_ne_nil _ _, fun a ha => ?_⟩
      obtain rfl := mem_singleton.1 ha
      exact ⟨hrep, ho⟩
  next reporters hget =>
    obtain ⟨-, -, hall⟩ := h _ (tryGet_eq_some.1 hget)
    split at hc
    next =>
      cases hc
      exact h
    next =>
      simp only [ok_iff] at hc
      obtain ⟨reporters', hins, rfl⟩ := hc
      obtain ⟨-, hco⟩ := VecSet.insert_ok hins
      refine h.set hr (by simp [hco]) fun a ha => ?_
      rw [hco, mem_append, mem_singleton] at ha
      rcases ha with ha | rfl
      · exact hall a ha
      · exact ⟨hrep, ho⟩

/-- One report is taken back, and the record with it if it was the last one. -/
theorem takeBack {reporters' : VecSet Address} (hget : records.tryGet reportee = some reporters)
    (hrem : reporters.remove reporter = .ok reporters')
    (hcall : (if reporters'.isEmpty then records.remove reportee
      else return records.set reportee reporters') = .ok records') :
    Reported active records' ∧ ∀ e ∈ records'.contents, e.1 ∈ records.keys ∧
      (reporter ∈ e.2.contents → e ∈ records.contents ∧ e.1 ≠ reportee) := by
  have hmem := tryGet_eq_some.1 hget
  obtain ⟨hkey, -, hall⟩ := h _ hmem
  obtain ⟨-, hcont⟩ := VecSet.remove_ok hrem
  split at hcall
  next =>
    have hfilter := contents_remove hcall
    have hold : ∀ e ∈ records'.contents, e ∈ records.contents ∧ e.1 ≠ reportee := by
      intro e he
      rw [hfilter, mem_filter] at he
      exact ⟨he.1, by simpa using he.2⟩
    refine ⟨h.of_subset fun e he => (hold e he).1, fun e he => ?_⟩
    exact ⟨mem_map_of_mem (hold e he).1, fun _ => hold e he⟩
  next hsome =>
    cases hcall
    refine ⟨h.set hkey (by simpa [VecSet.isEmpty] using hsome) fun a ha => ?_, fun e he => ?_⟩
    · rw [hcont] at ha
      exact hall a (mem_of_mem_erase ha)
    · obtain ⟨e₀, he₀, rfl⟩ := mem_map.1 he
      unfold entry
      split
      next heq =>
        refine ⟨mem_map.2 ⟨e₀, he₀, rfl⟩, fun hstill => ?_⟩
        rw [hcont] at hstill
        exact absurd hstill (List.Nodup.not_mem_erase reporters.nodup)
      next hne => exact ⟨mem_map_of_mem he₀, fun _ => ⟨he₀, hne⟩⟩

theorem undoReportValidatorImpl
    (hc : SuiSystemStateInnerV2.undoReportValidatorImpl reporter reportee records =
      .ok records') : Reported active records' := by
  simp only [SuiSystemStateInnerV2.undoReportValidatorImpl, ok_iff] at hc
  obtain ⟨reporters, hget, -, reporters', hrem, hc⟩ := hc
  exact (h.takeBack hget hrem hc).1

/-! ## Leaving -/

theorem cleanRecord (hc : ValidatorSet.cleanRecord leaving records reportee = .ok records') :
    Reported active records' ∧ ∀ e ∈ records'.contents, e.1 ∈ records.keys ∧
      (leaving ∈ e.2.contents → e ∈ records.contents ∧ e.1 ≠ reportee) := by
  simp only [ValidatorSet.cleanRecord, VecMap.get, ok_iff] at hc
  obtain ⟨reporters, hget, hc⟩ := hc
  split at hc
  next =>
    obtain ⟨reporters', hrem, hc⟩ := bind_ok.1 hc
    exact h.takeBack hget hrem hc
  next hnot =>
    cases hc
    refine ⟨h, fun e he => ⟨mem_map_of_mem he, fun hmem => ⟨he, ?_⟩⟩⟩
    rintro rfl
    have heq : e.2 = reporters := Option.some.inj ((VecMap.tryGet_eq_some.2 he).symm.trans hget)
    exact hnot (VecSet.contains_iff.2 (heq ▸ hmem))

/-- After the loop, a record that still has the report was there before and was not visited. -/
theorem foldlM_cleanRecord {keys : List Address}
    (hcall : keys.foldlM (ValidatorSet.cleanRecord leaving) records = .ok records') :
    Reported active records' ∧ ∀ e ∈ records'.contents, e.1 ∈ records.keys ∧
      (leaving ∈ e.2.contents → e ∈ records.contents ∧ e.1 ∉ keys) := by
  induction keys generalizing records with
  | nil =>
    cases hcall
    exact ⟨h, fun e he => ⟨mem_map_of_mem he, fun _ => ⟨he, not_mem_nil⟩⟩⟩
  | cons key keys ih =>
    rw [foldlM_cons, bind_ok] at hcall
    obtain ⟨records₁, hstep, hrest⟩ := hcall
    obtain ⟨h₁, hfirst⟩ := h.cleanRecord hstep
    obtain ⟨h', hoth⟩ := ih h₁ hrest
    refine ⟨h', fun e he => ?_⟩
    obtain ⟨hkey, hstill⟩ := hoth e he
    obtain ⟨e₁, he₁, heq⟩ := mem_map.1 hkey
    refine ⟨heq ▸ (hfirst e₁ he₁).1, fun hmem => ?_⟩
    obtain ⟨he₁, hnot⟩ := hstill hmem
    obtain ⟨hold, hne⟩ := (hfirst e he₁).2 hmem
    exact ⟨hold, not_mem_cons_of_ne_of_not_mem hne hnot⟩

/-- **Whoever leaves disappears from both sides.** -/
theorem cleanReportRecordsLeavingValidator
    (hcall : ValidatorSet.cleanReportRecordsLeavingValidator records leaving = .ok records') :
    Reported (active.filter (· ≠ leaving)) records' := by
  obtain ⟨records₁, hrem, hclean⟩ := bind_ok.1 hcall
  have hkept : records₁.contents ⊆ records.contents ∧ leaving ∉ records₁.keys := by
    unfold ValidatorSet.removeRecord at hrem
    split at hrem
    next =>
      have hfilter := contents_remove hrem
      rw [VecMap.keys, hfilter]
      simp
    next hnot =>
      cases hrem
      exact ⟨List.Subset.refl _, by simpa [VecMap.contains] using hnot⟩
  obtain ⟨h', hclean⟩ := (h.of_subset hkept.1).foldlM_cleanRecord hclean
  intro e he
  obtain ⟨hact, hsome, hall⟩ := h' e he
  obtain ⟨hkey, hstill⟩ := hclean e he
  refine ⟨?_, hsome, fun a ha => ⟨?_, (hall a ha).2⟩⟩
  · refine mem_filter.2 ⟨hact, decide_eq_true ?_⟩
    rintro rfl
    exact hkept.2 hkey
  · refine mem_filter.2 ⟨(hall a ha).1, decide_eq_true ?_⟩
    rintro rfl
    exact (hstill ha).2 hkey

end Reported

/-! ## The epoch change -/

namespace ValidatorSet

/-- The records are among the active validators. -/
def Tracked (self : ValidatorSet) (records : ReportRecords) : Prop :=
  Reported (self.activeValidators.map suiAddress) records

variable {self self' : ValidatorSet} {records records' : ReportRecords} {epoch : ℕ}

variable {grace i : ℕ} {v : Validator} {r r' : Review}

theorem mem_eraseIdx_of_ne {vs : List Validator} (hv : vs[i]? = some v)
    (ha : a ∈ vs.map suiAddress) (hne : a ≠ v.suiAddress) : a ∈ (vs.eraseIdx i).map suiAddress := by
  obtain ⟨w, hw, rfl⟩ := mem_map.1 ha
  obtain ⟨j, hj⟩ := mem_iff_getElem?.1 hw
  refine mem_map_of_mem (mem_eraseIdx_iff_getElem?.2 ⟨j, ?_, hj⟩)
  rintro rfl
  exact hne (congrArg suiAddress (Option.some.inj (hj.symm.trans hv)))

/-- A validator is taken out of the active list, and departs. -/
theorem Tracked.depart (h : self.Tracked records) {stake : ℕ} {rest : List Validator}
    (hrem : Vector.remove self.activeValidators i = .ok (v, rest))
    (hdep : processValidatorDeparture { self with activeValidators := rest } v records epoch =
      .ok (self', records', stake)) : self'.Tracked records' := by
  obtain ⟨hv, rfl⟩ := Vector.remove_ok hrem
  obtain ⟨-, hact⟩ := processValidatorDeparture_ok hdep
  simp only [processValidatorDeparture, bind_ok] at hdep
  obtain ⟨_, -, _, -, _, -, _, hc, _, -, _, -, -, rfl, -⟩ := hdep
  rw [Tracked, hact]
  refine (h.cleanReportRecordsLeavingValidator hc).mono fun a ha => ?_
  obtain ⟨hmem, hne⟩ := mem_filter.1 ha
  exact mem_eraseIdx_of_ne hv hmem (of_decide_eq_true hne)

theorem Tracked.processPendingRemovals (h : self.Tracked records)
    (hc : self.processPendingRemovals records epoch = .ok (self', records')) :
    self'.Tracked records' := by
  refine foldlM_induction (P := fun t : ValidatorSet × ReportRecords => t.1.Tracked t.2) ?_
    (show Tracked { self with pendingRemovals := [] } records from h) hc
  rintro ⟨set, records⟩ ⟨set', records'⟩ i - ht hs
  simp only [processRemoval, ok_iff] at hs
  obtain ⟨v, rest, hrem, _, _, stake, hdep, rfl, rfl⟩ := hs
  exact ht.depart hrem hdep

section

variable (h : r.set.Tracked r.records)
include h

theorem Tracked.kickOut (hc : kickOut epoch r i = .ok r') : r'.set.Tracked r'.records := by
  simp only [ValidatorSet.kickOut, ok_iff] at hc
  obtain ⟨v, rest, hrem, _, _, stake, hdep, _, -, rfl⟩ := hc
  exact h.depart hrem hdep

theorem Tracked.reviewValidator {low veryLow total : ℕ}
    (hc : reviewValidator low veryLow grace total epoch r i = .ok r') :
    r'.set.Tracked r'.records := by
  simp only [ValidatorSet.reviewValidator, bind_ok] at hc
  obtain ⟨v, -, power, -, hc⟩ := hc
  split at hc
  · simp only [ok_iff] at hc
    obtain ⟨set, hcl, rfl⟩ := hc
    obtain ⟨_, rfl⟩ := clearAtRisk_ok hcl
    exact h
  · split at hc
    · simp only [ok_iff] at hc
      obtain ⟨set, period, hco, hc⟩ := hc
      obtain ⟨atRisk, rfl⟩ := countLowStake_ok hco
      split at hc
      · exact Tracked.kickOut
          (r := { r with set := { r.set with atRiskValidators := atRisk } }) h hc
      · cases hc
        exact h
    · exact h.kickOut hc

theorem Tracked.admitPending {min total : ℕ}
    (hc : admitPending min total epoch r v = .ok r') : r'.set.Tracked r'.records := by
  simp only [ValidatorSet.admitPending, bind_ok] at hc
  obtain ⟨power, -, hc⟩ := hc
  split at hc
  · simp only [ok_iff] at hc
    obtain ⟨v', -, rfl⟩ := hc
    refine Reported.mono h ?_
    rw [map_append]
    exact subset_append_left _ _
  · simp only [ok_iff] at hc
    obtain ⟨_, -, _, -, rfl⟩ := hc
    exact h

end

theorem Tracked.updateValidatorPositions (h : self.Tracked records) {stake : ℕ}
    (hc : self.updateValidatorPositionsAndCalculateTotalStake grace records epoch =
      .ok (self', records', stake)) : self'.Tracked records' := by
  simp only [updateValidatorPositionsAndCalculateTotalStake, ok_iff] at hc
  obtain ⟨_, -, _, -, _, -, _, _, _, -, r, hrev, r', ha, _, -, rfl, rfl, -⟩ := hc
  have hr : r.set.Tracked r.records :=
    foldlM_induction (P := fun r : Review => r.set.Tracked r.records)
      (fun _ _ _ _ hr hs => hr.reviewValidator hs)
      (show Tracked { self with pendingActiveValidators := [] } records from h) hrev
  exact foldlM_induction (P := fun r : Review => r.set.Tracked r.records)
    (fun _ _ _ _ hr hs => hr.admitPending hs) hr ha

/-- **The epoch change** leaves the records among those who are active afterwards. -/
theorem Tracked.advanceEpoch (h : self.Tracked records) {computation storageFund rate : ℕ}
    {out : EpochOutcome}
    (hcall : self.advanceEpoch computation storageFund records rate grace epoch = .ok out) :
    out.set.Tracked out.records := by
  simp only [ValidatorSet.advanceEpoch, ok_iff] at hcall
  obtain ⟨_, -, payroll, hpay, vs, hproc, _, -, set₁, records₁, hremovals, set₂, records₂, stake,
    hupd, powered, hpower, final, hfinal, rfl⟩ := hcall
  have hvs : vs.map suiAddress = self.activeValidators.map suiAddress :=
    forall₂_map_eq (kept_before_removals hpay hproc) fun _ _ hk => hk.suiAddress
  have hpow : powered.map suiAddress = set₂.activeValidators.map suiAddress :=
    forall₂_map_eq (setVotingPower_ok hpower).1 fun _ _ hr => Repowered.suiAddress hr
  have hfinal : final.map suiAddress = powered.map suiAddress :=
    forall₂_map_eq (mapM_eq_ok.1 hfinal) fun _ _ hv => (kept_effectuateStagedMetadata hv).suiAddress
  have h₁ := Tracked.processPendingRemovals (show Tracked _ records by rwa [Tracked, hvs]) hremovals
  have h₂ := h₁.updateValidatorPositions hupd
  rwa [Tracked, ← hpow, ← hfinal] at h₂

variable {cap : UnverifiedValidatorOperationCap}

theorem mem_of_verifyCap (h : self.verifyCap cap .activeValidatorOnly = .ok a) :
    a ∈ self.activeValidators.map suiAddress := by
  obtain rfl := verifyCap_ok h
  obtain ⟨place, hp, -⟩ := bind_ok.1 h
  rw [getCapHolder, if_pos rfl] at hp
  simp only [getValidatorMut, getValidatorIndex, ok_iff] at hp
  obtain ⟨i, hi, -⟩ := hp
  obtain ⟨v, hv, heq⟩ := findValidator_eq_some hi
  exact heq ▸ mem_map_of_mem (mem_of_getElem? hv)

end ValidatorSet

/-! ## Runs -/

namespace SuiSystemStateInnerV2

variable {s s' : SuiSystemStateInnerV2} {sender : Address}

/-- The records are those of `s`. -/
abbrev SameRecords (s s' : SuiSystemStateInnerV2) : Prop :=
  s'.validatorReportRecords = s.validatorReportRecords

variable {f : Validator → Call Validator} {candidates : Bool}

theorem records_modifyValidator {place : Place} (h : s.modifyValidator place f = .ok s') :
    s.SameRecords s' := by
  simp only [modifyValidator, ok_iff] at h
  obtain ⟨_, _, -, rfl⟩ := h
  rfl

theorem records_modifyWithCap {which : WhichValidator} {f : Validator → Address → Call Validator}
    (h : s.modifyWithCap cap which candidates f = .ok s') : s.SameRecords s' := by
  obtain ⟨_, -, h⟩ := bind_ok.1 h
  obtain ⟨_, -, h⟩ := bind_ok.1 h
  exact records_modifyValidator h

theorem records_modifyWithCtx (h : s.modifyWithCtx sender candidates f = .ok s') :
    s.SameRecords s' := by
  obtain ⟨_, -, h⟩ := bind_ok.1 h
  exact records_modifyValidator h

theorem records_modifyUnique (h : s.modifyUnique sender f = .ok s') : s.SameRecords s' := by
  simp only [modifyUnique, ok_iff] at h
  obtain ⟨_, -, _, hmod, _, -, _, -, rfl⟩ := h
  exact records_modifyValidator hmod

theorem records_updateMetadata {validate : ValidatorMetadata → Call Unit}
    {update : MetadataUpdate} (h : s.updateMetadata validate sender update = .ok s') :
    s.SameRecords s' := by
  cases update with
  | nextEpochNetworkAddress | nextEpochP2pAddress | nextEpochProtocolPubkey
  | nextEpochWorkerPubkey | nextEpochNetworkPubkey => exact records_modifyUnique h
  | _ => exact records_modifyWithCtx h

end SuiSystemStateInnerV2

theorem Roster.Step.active_eq {floor : ℕ} {r r' : Roster} {e : Roster.Event}
    (h : Roster.Step floor r e r') (he : e ≠ .epoch) : r'.active = r.active := by
  cases h with
  | epoch => exact absurd rfl he
  | _ => rfl

namespace Chain

open SuiSystemStateInnerV2

variable {validate : ValidatorMetadata → Call Unit} {s s' : Chain} {tx : Tx}

/-- The transactions that write the records. -/
def writesRecords : Tx → Bool
  | .reportValidator _ _ => true
  | .undoReportValidator _ _ => true
  | .advanceEpoch _ => true
  | _ => false

/-- Nobody comes or goes before the epoch changes. -/
theorem active_of_step (hs : s.set.Sound) (h : step validate s tx = .ok s')
    (htx : writesRecords tx = false) :
    s'.set.activeValidators.map suiAddress = s.set.activeValidators.map suiAddress := by
  show s'.set.roster.active = s.set.roster.active
  cases step_effect h with
  | calm n ms hc => exact congrArg Roster.active (hc.set hs).2
  | join hj =>
    obtain ⟨set, hset, rfl⟩ := requestAddValidator_ok hj
    exact (hs.requestAddValidator hset : _ ∧ Roster.Step 0 _ _ _).2.active_eq nofun
  | resign hres =>
    obtain ⟨-, set, hset, rfl⟩ := requestRemoveValidator_ok hres
    obtain ⟨i, -, -, rfl⟩ := ValidatorSet.removeValidator_ok hset
    rfl
  | propose _ hpr =>
    obtain ⟨_, _, -, -, rfl⟩ := propose_ok hpr
    rfl
  | vote hp hv =>
    obtain ⟨_, -, -, he⟩ := voteProposal_ok hv
    rcases executeIfPassed_ok he with ⟨-, -, rfl⟩ | ⟨-, -, set, hset, rfl⟩
    · rfl
    · refine (hs.executeAction hset : _ ∧ Roster.Step 0 _ _ _).2.active_eq ?_
      unfold ValidatorSet.eventOf
      split <;> (try split) <;> nofun
  | epoch _ => cases htx

theorem records_of_onSystem {call : Call SuiSystemStateInnerV2}
    (hc : ∀ system, call = .ok system → s.system.SameRecords system) {n : ℕ}
    (h : (s.fresh n).onSystem call = .ok s') : s.system.SameRecords s'.system := by
  obtain ⟨system, hs, rfl⟩ := onSystem_ok h
  exact hc system hs

theorem records_of_call {β : Type} {call : Call (ValidatorSet × β)}
    (h : s.onSystem' (do
      let (set, b) ← call
      return ({ s.system with validators := set }, b)) = .ok s') :
    s.system.SameRecords s'.system := by
  obtain ⟨system, b, hc, rfl⟩ := onSystem'_eq_ok h
  simp only [ok_iff] at hc
  obtain ⟨_, _, -, rfl, -⟩ := hc
  rfl

theorem records_of_share {call : Call (SuiSystemStateInnerV2 × Proposal)} {action : Action}
    (hc : ∀ system p, call = .ok (system, p) →
      s.system.propose s.nextId a action s.clock = .ok (system, p))
    (h : s.share call = .ok s') :
    s.system.SameRecords s'.system := by
  simp only [share, ok_iff] at h
  obtain ⟨system, p, hs, rfl⟩ := h
  obtain ⟨_, _, -, -, rfl⟩ := propose_ok (hc system p hs)
  rfl

/-- No other transaction touches the records. -/
theorem records_of_step (h : step validate s tx = .ok s') (htx : writesRecords tx = false) :
    s.system.SameRecords s'.system := by
  cases tx with
  | requestAddValidatorCandidate =>
    refine records_of_onSystem (fun system hs => ?_) h
    simp only [requestAddValidatorCandidate, ok_iff] at hs
    obtain ⟨_, -, _, -, rfl⟩ := hs
    rfl
  | requestRemoveValidatorCandidate =>
    refine records_of_onSystem (n := 0) (fun system hs => ?_) h
    simp only [requestRemoveValidatorCandidate, ok_iff] at hs
    obtain ⟨_, -, rfl⟩ := hs
    rfl
  | requestAddStake | requestAddValStake | requestWithdrawStake | convertToFungibleStakedOct
  | redeemFungibleStakedOct => exact records_of_call h
  | requestSetGasPrice | setCandidateValidatorGasPrice | requestSetRevenueReceivingAddress =>
    exact records_of_onSystem (n := 0) (fun _ => records_modifyWithCap) h
  | requestSetCommissionRate =>
    refine records_of_onSystem (n := 0) (fun system hs => ?_) h
    obtain ⟨_, -, hs⟩ := bind_ok.1 hs
    exact records_modifyValidator hs
  | setCandidateValidatorCommissionRate =>
    exact records_of_onSystem (n := 0) (fun _ => records_modifyWithCtx) h
  | rotateOperationCap => exact records_of_onSystem (fun _ => records_modifyWithCtx) h
  | updateMetadata => exact records_of_onSystem (n := 0) (fun _ => records_updateMetadata) h
  | advanceEpochSafeMode | tick =>
    cases h
    rfl
  | reportValidator | undoReportValidator | advanceEpoch => cases htx
  | requestAddValidator =>
    refine records_of_onSystem (n := 0) (fun system hs => ?_) h
    obtain ⟨_, -, rfl⟩ := requestAddValidator_ok hs
    rfl
  | requestRemoveValidator =>
    refine records_of_onSystem (n := 0) (fun system hs => ?_) h
    obtain ⟨-, _, -, rfl⟩ := requestRemoveValidator_ok hs
    rfl
  | createUpdateTrustedValidatorProposal | createUpdateOnlyTrustedValidatorProposal =>
    exact records_of_share (fun _ _ => create_ok) h
  | createUpdateOnlyValidatorStakingProposal =>
    exact records_of_share (fun _ _ => createUpdateOnlyValidatorStakingProposal_ok) h
  | voteProposal =>
    simp only [step, vote, ok_iff] at h
    obtain ⟨_, -, system, _, _, hv, rfl⟩ := h
    obtain ⟨_, -, -, he⟩ := voteProposal_ok hv
    rcases executeIfPassed_ok he with ⟨-, -, rfl⟩ | ⟨-, -, _, -, rfl⟩ <;> rfl

/-- The records of the state are among its active validators. -/
def Tracked (s : Chain) : Prop := s.set.Tracked s.system.validatorReportRecords

theorem Tracked.of_eq (ht : s.Tracked)
    (hact : s'.set.activeValidators.map suiAddress = s.set.activeValidators.map suiAddress)
    (hrec : s.system.SameRecords s'.system) : s'.Tracked := by
  rw [Tracked, ValidatorSet.Tracked, hact, hrec]
  exact ht

theorem Tracked.step (ht : s.Tracked) (hs : s.set.Sound) (h : step validate s tx = .ok s') :
    s'.Tracked := by
  cases tx with
  | reportValidator cap reportee =>
    obtain ⟨system, hc, rfl⟩ := onSystem_ok h
    simp only [reportValidator, ok_iff] at hc
    obtain ⟨hf, reporter, hcap, records, him, rfl⟩ := hc
    obtain ⟨i, hi⟩ := Option.isSome_iff_exists.1 hf
    obtain ⟨v, hv, rfl⟩ := ValidatorSet.findValidator_eq_some hi
    exact Reported.reportValidatorImpl ht (ValidatorSet.mem_of_verifyCap hcap)
      (mem_map_of_mem (mem_of_getElem? hv)) him
  | undoReportValidator cap reportee =>
    obtain ⟨system, hc, rfl⟩ := onSystem_ok h
    simp only [undoReportValidator, ok_iff] at hc
    obtain ⟨reporter, -, records, him, rfl⟩ := hc
    exact Reported.undoReportValidatorImpl ht him
  | advanceEpoch params =>
    obtain ⟨system, out, hc, rfl⟩ := onSystem'_eq_ok h
    obtain ⟨_, _, _, outcome, ho, hset, -, hrec⟩ := advanceEpoch_ok hc
    show system.validators.Tracked system.validatorReportRecords
    rw [hset, hrec]
    exact ValidatorSet.Tracked.advanceEpoch ht ho
  | _ => exact ht.of_eq (active_of_step hs h rfl) (records_of_step h rfl)

theorem Initial.tracked (h : Initial validate s) : s.Tracked := by
  obtain ⟨g, hg⟩ := h
  simp only [genesis, Genesis.create, ok_iff] at hg
  obtain ⟨_, _, -, _, ⟨_, -, _, -, rfl⟩, rfl⟩ := hg
  intro e he
  cases he

theorem tracked (h : (machine validate).Reach Machine.free s) : s.Tracked := by
  induction h with
  | init hs => exact hs.tracked
  | step tx hr _ hst ih => exact ih.step (sound hr) hst

/-- **Report records are consistent with the active set.** In every reachable state the records are
about active validators, by active validators other than the reported one, and no record is empty;
so the validators to be slashed can always be computed. -/
theorem reports_active (h : (machine validate).Reach Machine.free s) :
    (∀ e ∈ s.system.validatorReportRecords.contents,
      e.1 ∈ s.set.activeValidators.map suiAddress ∧ e.2.contents ≠ [] ∧
      ∀ a ∈ e.2.contents, a ∈ s.set.activeValidators.map suiAddress ∧ a ≠ e.1) ∧
    ∃ slashed, ValidatorSet.computeSlashedValidators s.set.activeValidators
      s.system.validatorReportRecords = .ok slashed := by
  have ht := tracked h
  have hrec : s.RecordsActive s.system.validatorReportRecords := fun e he =>
    ⟨(ht e he).1, fun a ha => ((ht e he).2.2 a ha).1⟩
  have hv := valid_rewardPhase (sound h) hrec (Nat.zero_le 10000) 0 0
  exact ⟨ht, _, hv.computeSlashedValidators_eq⟩

/-- The theorem on a run: two validators report a third, one of them resigns, and after the epoch
change only the other report is left. -/
theorem reports_active_small : ∃ s, plainMachine.Reach Machine.free s ∧
      (s.system.validatorReportRecords.contents.map fun e => (e.1, e.2.contents)) = [(1, [3])] ∧
      ∃ slashed, ValidatorSet.computeSlashedValidators s.set.activeValidators
        s.system.validatorReportRecords = .ok slashed := by
  refine Machine.exists_reach_and [.reportValidator (capOf 2) 1, .reportValidator (capOf 3) 1,
      .reportValidator (capOf 1) 2, .requestRemoveValidator 2, .advanceEpoch quietEpoch] _
    (init_small 6) (by decide +kernel) fun s hr _ => ?_
  exact (reports_active hr).2

end Chain

end OneChain.System
