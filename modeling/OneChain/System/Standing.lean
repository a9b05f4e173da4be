import OneChain.System.Roster
import OneChain.System.SystemState

/-!
# The validator set keeps its roster

`ValidatorSet.Sound` is what every reachable validator set is like: a well-formed roster, active
validators with running pools and voting powers that add up to the whole, and pending validators
and candidates whose pools have not started.

Each function of the set keeps it, and does to the roster what one `Roster.Step` does.
-/

namespace OneChain.System

open Lib Move VotingPower Validator List ValidatorSet VecSet

namespace ValidatorSet

/-- The membership of a validator set. -/
def roster (s : ValidatorSet) : Roster where
  active := s.activeValidators.map suiAddress
  pending := s.pendingActiveValidators.map suiAddress
  removals := s.pendingRemovals
  onlyTrusted := s.onlyTrustedValidator
  trusted := s.trustedValidators.contents

structure Sound (s : ValidatorSet) : Prop where
  roster : s.roster.WellFormed
  inOffice : ∀ v ∈ s.activeValidators, InOffice v
  waiting : ∀ v ∈ s.pendingActiveValidators, Waiting v
  candidates : ∀ a v, s.validatorCandidates a = some v → v.suiAddress = a ∧ Waiting v
  power_pos : ∀ v ∈ s.activeValidators, 0 < v.votingPower
  power_total : tally (·.votingPower) s.activeValidators = totalVotingPower

variable {s s' : ValidatorSet} {v v' : Validator} {epoch : ℕ}

theorem Sound.addresses (h : s.Sound) : (s.activeValidators.map suiAddress).Nodup :=
  (nodup_append.1 h.roster.addresses).1

/-! ## Writing through a reference -/

variable {f : FungibleStakedOct} {i : ℕ} {a sender : Address} {r : StakedOct} {vs : List Validator}
  {action : Action}

theorem map_set_of_eq {α β : Type} {f : α → β} {l : List α} {a b : α} (ha : l[i]? = some a)
    (hf : f b = f a) : (l.set i b).map f = l.map f := by
  obtain ⟨hi, rfl⟩ := List.getElem?_eq_some_iff.1 ha
  rw [map_set, hf, ← getElem_map (f := f) (h := by simpa using hi), set_getElem_self]

/-- The set after one validator was changed, but not who it is. -/
def Edited (s s' : ValidatorSet) : Prop :=
  ∃ place v v', s.at? place = some v ∧ Kept v v' ∧ s' = s.put v' place

theorem Edited.roster (h : Edited s s') : s'.roster = s.roster := by
  obtain ⟨place, v, v', hv, hk, rfl⟩ := h
  cases place with
  | active i | pending i =>
    have hmap := map_set_of_eq hv hk.suiAddress
    simp [roster, put, hmap]
  | candidate _ | inactive _ => rfl

theorem Edited.sound (h : Edited s s') (hs : s.Sound) : s'.Sound := by
  have hroster := h.roster
  obtain ⟨place, v, v', hv, hk, rfl⟩ := h
  have hwf : (s.put v' place).roster.WellFormed := hroster ▸ hs.roster
  cases place with
  | active i =>
    have hmem : v ∈ s.activeValidators := mem_of_getElem? hv
    have hall : ∀ {P : Validator → Prop}, P v' → (∀ w ∈ s.activeValidators, P w) →
        ∀ w ∈ s.activeValidators.set i v', P w := fun hv' hP w hw =>
      (mem_or_eq_of_mem_set hw).elim (hP w) fun heq => heq ▸ hv'
    have hpow := map_set_of_eq hv hk.votingPower
    refine ⟨hwf, hall (hk.inOffice (hs.inOffice v hmem)) hs.inOffice, hs.waiting, hs.candidates,
      hall (hk.votingPower.symm ▸ hs.power_pos v hmem) hs.power_pos, ?_⟩
    exact (congrArg List.sum hpow).trans hs.power_total
  | pending i =>
    refine { hs with roster := hwf, waiting := fun w hw => ?_ }
    rcases mem_or_eq_of_mem_set hw with hw | rfl
    · exact hs.waiting w hw
    · exact hk.waiting (hs.waiting v (mem_of_getElem? hv))
  | candidate a =>
    obtain ⟨ha, hwait⟩ := hs.candidates a v hv
    exact { hs with
      roster := hwf
      candidates := Table.forall_set ⟨hk.suiAddress.trans ha, hk.waiting hwait⟩ hs.candidates }
  | inactive id => exact { hs with roster := hwf }

theorem edited_of_modify {β : Type} {place : Place} {f : Validator → Call (Validator × β)} {b : β}
    (hf : ∀ v v' b, f v = .ok (v', b) → Kept v v') (h : s.modify place f = .ok (s', b)) :
    Edited s s' := by
  simp only [modify, ok_iff] at h
  obtain ⟨v, hv, v', _, hfv, rfl, _⟩ := h
  exact ⟨place, v, v', hv, hf v v' _ hfv, rfl⟩

theorem edited_requestAddStake {stake : ℕ} {isValidator : Bool}
    (h : s.requestAddStake a stake isValidator epoch = .ok (s', r)) : Edited s s' := by
  obtain ⟨_, _, h⟩ := bind_ok.1 h
  obtain ⟨_, _, h⟩ := bind_ok.1 h
  exact edited_of_modify (fun _ _ _ => kept_requestAddStake) h

theorem edited_requestWithdrawStake {out : ℕ × Option CoinVesting}
    (h : s.requestWithdrawStake r epoch = .ok (s', out)) : Edited s s' := by
  obtain ⟨_, _, h⟩ := bind_ok.1 h
  exact edited_of_modify (fun _ _ _ => kept_requestWithdrawStake) h

theorem edited_convertToFungibleStakedOct (h : s.convertToFungibleStakedOct r epoch = .ok (s', f)) :
    Edited s s' := by
  obtain ⟨_, _, h⟩ := bind_ok.1 h
  exact edited_of_modify (fun _ _ _ => kept_convertToFungibleStakedOct) h

theorem edited_redeemFungibleStakedOct {out : ℕ}
    (h : s.redeemFungibleStakedOct f epoch = .ok (s', out)) : Edited s s' := by
  obtain ⟨_, _, h⟩ := bind_ok.1 h
  exact edited_of_modify (fun _ _ _ => kept_redeemFungibleStakedOct) h

theorem edited_executeUpdateOnlyValidatorStakingAction {mode : Bool}
    (h : s.executeUpdateOnlyValidatorStakingAction a mode = .ok s') : Edited s s' := by
  simp only [executeUpdateOnlyValidatorStakingAction, ok_iff] at h
  obtain ⟨_, _, _, _, hmod, rfl⟩ := h
  refine edited_of_modify (fun v w u hw => ?_) hmod
  cases hw
  exact kept_setOnlyValidatorStaking v mode

theorem verifyCap_ok {cap : UnverifiedValidatorOperationCap} {which : WhichValidator}
    (h : s.verifyCap cap which = .ok a) : a = cap.authorizerValidatorAddress := by
  simp only [verifyCap, ok_iff] at h
  obtain ⟨_, _, _, _, _, rfl⟩ := h
  rfl

/-! ## Marks -/

theorem findValidator_eq_some (h : findValidator vs a = some i) :
    ∃ v, vs[i]? = some v ∧ v.suiAddress = a :=
  exists_of_findIdx?_key h

theorem removeValidator_ok (h : s.removeValidator a = .ok s') :
    ∃ i, s.roster.active[i]? = some a ∧ i ∉ s.pendingRemovals ∧
      s' = { s with pendingRemovals := s.pendingRemovals ++ [i] } := by
  simp only [removeValidator, getValidatorIndex, ok_iff] at h
  obtain ⟨i, hf, hnot, rfl⟩ := h
  obtain ⟨v, hv, rfl⟩ := findValidator_eq_some hf
  exact ⟨i, by simp [roster, hv], hnot, rfl⟩

theorem Sound.mark (hs : s.Sound) (ha : s.roster.active[i]? = some a) (hi : i ∉ s.pendingRemovals) :
    Sound { s with pendingRemovals := s.pendingRemovals ++ [i] } := by
  refine { hs with roster := ⟨hs.roster.addresses, ?_, fun j hj => ?_⟩ }
  · exact nodup_insert ⟨_, hs.roster.removals_nodup⟩ hi
  · rcases mem_append.1 hj with hj | hj
    · exact hs.roster.removals_lt j hj
    · rw [mem_singleton.1 hj]
      exact (List.getElem?_eq_some_iff.1 ha).1

/-- Trust is nothing that soundness is about. -/
theorem Sound.trust (hs : s.Sound) (only : Bool) (trusted : VecSet Address) :
    Sound { s with onlyTrustedValidator := only, trustedValidators := trusted } :=
  { hs with roster := { hs.roster with } }

/-! ## Candidates -/

theorem suiAddress_ne_of_not_isDuplicate {w : Validator} (h : ¬ w.isDuplicate v = true) :
    w.suiAddress ≠ v.suiAddress := by
  intro heq
  have heq' : w.metadata.suiAddress = v.metadata.suiAddress := heq
  exact h (by simp [Validator.isDuplicate, ValidatorMetadata.isDuplicate, heq'])

theorem not_mem_of_not_isDuplicateValidator (h : ¬ isDuplicateValidator vs v = true) :
    v.suiAddress ∉ vs.map suiAddress := by
  intro hmem
  obtain ⟨w, hw, heq⟩ := mem_map.1 hmem
  have hc : countDuplicates vs v = 0 := by simpa [isDuplicateValidator] using h
  exact suiAddress_ne_of_not_isDuplicate (countP_eq_zero.1 hc w hw) heq

theorem requestAddValidatorCandidate_ok (h : s.requestAddValidatorCandidate v = .ok s') :
    ∃ mappings, s' = { s with
      stakingPoolMappings := mappings
      validatorCandidates := s.validatorCandidates.set v.suiAddress v } := by
  simp only [requestAddValidatorCandidate, ok_iff] at h
  obtain ⟨_, _, _, _, mappings, _, _, hadd, rfl⟩ := h
  obtain ⟨_, rfl⟩ := Table.add_ok hadd
  exact ⟨mappings, rfl⟩

theorem Sound.requestAddValidatorCandidate (hs : s.Sound) (hv : Waiting v)
    (h : s.requestAddValidatorCandidate v = .ok s') : s'.Sound ∧ s'.roster = s.roster := by
  obtain ⟨_, rfl⟩ := requestAddValidatorCandidate_ok h
  exact ⟨{ hs with candidates := Table.forall_set ⟨rfl, hv⟩ hs.candidates }, rfl⟩

theorem Sound.requestRemoveValidatorCandidate (hs : s.Sound)
    (h : s.requestRemoveValidatorCandidate sender epoch = .ok s') :
    s'.Sound ∧ s'.roster = s.roster := by
  simp only [ValidatorSet.requestRemoveValidatorCandidate, ok_iff] at h
  obtain ⟨_, candidates, w, hrem, _, _, _, _, _, _, _, _, rfl⟩ := h
  obtain ⟨_, rfl⟩ := Table.remove_ok hrem
  refine ⟨{ hs with candidates := fun a w hw => ?_ }, rfl⟩
  exact hs.candidates a w (Table.erase_eq_some.1 hw).2

/-! ## Joining -/

theorem requestAddValidator_ok (h : s.requestAddValidator sender epoch = .ok s') :
    ∃ v, s.validatorCandidates sender = some v ∧ s.isTrustedValidator sender = true ∧
      v.suiAddress ∉ s.activeValidators.map suiAddress ∧
      v.suiAddress ∉ s.pendingActiveValidators.map suiAddress ∧
      s' = { s with
        validatorCandidates := s.validatorCandidates.erase sender
        pendingActiveValidators := s.pendingActiveValidators ++ [v] } := by
  simp only [requestAddValidator, checkNoDuplicates, ok_iff] at h
  obtain ⟨_, ht, candidates, v, hrem, hdup, _, _, _, _, rfl⟩ := h
  obtain ⟨hv, rfl⟩ := Table.remove_ok hrem
  exact ⟨v, hv, ht, not_mem_of_not_isDuplicateValidator hdup.1,
    not_mem_of_not_isDuplicateValidator hdup.2, rfl⟩

/-- **Joining** is a step of the roster, for a trusted address if trust is required. -/
theorem Sound.requestAddValidator (hs : s.Sound) {floor : ℕ}
    (h : s.requestAddValidator sender epoch = .ok s') :
    s'.Sound ∧ Roster.Step floor s.roster (.join sender) s'.roster := by
  obtain ⟨v, hv, ht, hact, hp, rfl⟩ := requestAddValidator_ok h
  obtain ⟨rfl, hwa⟩ := hs.candidates sender v hv
  constructor
  · refine { hs with
      roster := { hs.roster with addresses := ?_ }
      waiting := fun w hw => ?_
      candidates := fun a w hw => ?_ }
    · have hnew : v.suiAddress ∉ s.roster.active ++ s.roster.pending := by
        rw [mem_append, not_or]
        exact ⟨hact, hp⟩
      have hn := nodup_insert ⟨_, hs.roster.addresses⟩ hnew
      simpa [ValidatorSet.roster] using hn
    · rcases mem_append.1 hw with hw | hw
      · exact hs.waiting w hw
      · exact mem_singleton.1 hw ▸ hwa
    · exact hs.candidates a w (Table.erase_eq_some.1 hw).2
  · have hr : ValidatorSet.roster { s with
        validatorCandidates := s.validatorCandidates.erase v.suiAddress
        pendingActiveValidators := s.pendingActiveValidators ++ [v] } =
        { s.roster with pending := s.roster.pending ++ [v.suiAddress] } := by
      simp [ValidatorSet.roster]
    rw [hr]
    refine .join fun ho => ?_
    have ho' : s.onlyTrustedValidator = true := ho
    have hmem : v.suiAddress ∈ s.trustedValidators.contents := by
      simpa [isTrustedValidator, ho'] using ht
    exact hmem

/-! ## Trust -/

/-- The event that an executed action amounts to. -/
def eventOf (s : ValidatorSet) : Action → Roster.Event
  | .updateOnlyTrustedValidator b => .mode b
  | .updateTrustedValidators true a => if a ∈ s.trustedValidators.contents then .idle else .trust a
  | .updateTrustedValidators false a =>
    if a ∈ s.trustedValidators.contents then .distrust a else .idle
  | .updateOnlyValidatorStaking _ _ => .idle

theorem eventOf_eq_distrust (h : s.eventOf action = .distrust a) :
    action = .updateTrustedValidators false a := by
  cases action with
  | updateOnlyTrustedValidator => cases h
  | updateOnlyValidatorStaking => cases h
  | updateTrustedValidators operate b =>
    cases operate with
    | true =>
      simp only [eventOf] at h
      split at h <;> cases h
    | false =>
      simp only [eventOf] at h
      split at h
      · cases h
        rfl
      · cases h

theorem executeTrust_ok (h : s.executeUpdateTrustedValidatorsAction true a = .ok s') :
    (a ∈ s.trustedValidators.contents ∧ s' = s) ∨
      (a ∉ s.trustedValidators.contents ∧ ∃ trusted : VecSet Address,
        trusted.contents = s.trustedValidators.contents ++ [a] ∧
        s' = { s with trustedValidators := trusted }) := by
  by_cases ha : a ∈ s.trustedValidators.contents
  · refine .inl ⟨ha, ?_⟩
    simpa [executeUpdateTrustedValidatorsAction, VecSet.contains, ha, eq_comm] using h
  · simp only [executeUpdateTrustedValidatorsAction, VecSet.contains, ha, decide_false,
      Bool.false_eq_true, not_false_eq_true, and_self, if_true, ok_iff] at h
    obtain ⟨trusted, hins, rfl⟩ := h
    exact .inr ⟨ha, trusted, (VecSet.insert_ok hins).2, rfl⟩

theorem executeDistrust_ok (h : s.executeUpdateTrustedValidatorsAction false a = .ok s') :
    (a ∉ s.trustedValidators.contents ∧ s' = s) ∨
      (a ∈ s.trustedValidators.contents ∧ ∃ trusted : VecSet Address,
        trusted.contents = s.trustedValidators.contents.erase a ∧
        ((a ∉ s.roster.active ∧ s' = { s with trustedValidators := trusted }) ∨
          removeValidator { s with trustedValidators := trusted } a = .ok s')) := by
  by_cases ha : a ∈ s.trustedValidators.contents
  · simp only [executeUpdateTrustedValidatorsAction, VecSet.contains, ha, decide_true,
      Bool.false_eq_true, not_false_eq_true, and_self, false_and, if_false, if_true, bind_ok] at h
    obtain ⟨trusted, hrem, h⟩ := h
    refine .inr ⟨ha, trusted, (VecSet.remove_ok hrem).2, ?_⟩
    cases hf : findValidator s.activeValidators a with
    | some i =>
      simp only [hf] at h
      exact .inr h
    | none =>
      simp only [hf, Option.isSome_none, Bool.false_eq_true, if_false, return_ok] at h
      exact .inl ⟨findIdx?_key_none.1 hf, h.symm⟩
  · refine .inl ⟨ha, ?_⟩
    simpa [executeUpdateTrustedValidatorsAction, VecSet.contains, ha, eq_comm] using h

/-- **Executing an action** is a step of the roster. -/
theorem Sound.executeAction (hs : s.Sound) {floor : ℕ}
    (h : SuiSystemStateInnerV2.executeAction s action = .ok s') :
    s'.Sound ∧ Roster.Step floor s.roster (s.eventOf action) s'.roster := by
  cases action with
  | updateOnlyTrustedValidator b =>
    cases h
    exact ⟨hs.trust b s.trustedValidators, .mode s.roster b⟩
  | updateOnlyValidatorStaking a b =>
    have he := edited_executeUpdateOnlyValidatorStakingAction h
    refine ⟨he.sound hs, ?_⟩
    rw [he.roster]
    exact .idle s.roster
  | updateTrustedValidators operate a =>
    cases operate with
    | true =>
      rcases executeTrust_ok h with ⟨ha, rfl⟩ | ⟨ha, trusted, ht, rfl⟩
      · rw [eventOf, if_pos ha]
        exact ⟨hs, .idle _⟩
      · have hr : ValidatorSet.roster { s with trustedValidators := trusted } =
            { s.roster with trusted := s.roster.trusted ++ [a] } := by
          simp [ValidatorSet.roster, ht]
        rw [eventOf, if_neg ha, hr]
        exact ⟨hs.trust s.onlyTrustedValidator trusted, .trust s.roster a⟩
    | false =>
      rcases executeDistrust_ok h with ⟨ha, rfl⟩ | ⟨ha, trusted, ht, hc⟩
      · rw [eventOf, if_neg ha]
        exact ⟨hs, .idle _⟩
      have hso := hs.trust s.onlyTrustedValidator trusted
      rw [eventOf, if_pos ha]
      rcases hc with ⟨habs, rfl⟩ | hrem
      · have hr : ValidatorSet.roster { s with trustedValidators := trusted } =
            { s.roster with trusted := s.roster.trusted.erase a } := by
          simp [ValidatorSet.roster, ht]
        rw [hr]
        exact ⟨hso, .distrust habs⟩
      · obtain ⟨i, hi, hnot, rfl⟩ := removeValidator_ok hrem
        refine ⟨hso.mark hi hnot, ?_⟩
        have hr : ValidatorSet.roster { s with
              trustedValidators := trusted
              pendingRemovals := s.pendingRemovals ++ [i] } =
            { s.roster with
              trusted := s.roster.trusted.erase a
              removals := s.roster.removals ++ [i] } := by
          simp [ValidatorSet.roster, ht]
        rw [hr]
        exact .dismiss hi

/-! ## The epoch change -/

/-- **The epoch change** is a step of the roster. -/
theorem Sound.advanceEpoch (hs : s.Sound) {computation storageFund rate grace : ℕ} (floor : ℕ)
    {records : ReportRecords} {out : EpochOutcome}
    (h : s.advanceEpoch computation storageFund records rate grace epoch = .ok out) :
    out.set.Sound ∧ Roster.Step floor s.roster .epoch out.set.roster := by
  have hsu := advanceEpoch_ok h
  have hact : out.set.roster.active.Sublist
      (eraseMarked s.roster.active s.roster.marks ++ s.roster.pending.reverse) := by
    have had := hsu.addresses
    rw [sortRemovalList_eq, map_reverse] at had
    exact had
  have hr : out.set.roster =
      { s.roster with active := out.set.roster.active, pending := [], removals := [] } := by
    simp [ValidatorSet.roster, hsu.pendingActiveValidators, hsu.pendingRemovals,
      hsu.onlyTrustedValidator, hsu.trustedValidators]
  constructor
  · refine ⟨⟨?_, ?_, ?_⟩, hsu.inOffice hs.inOffice hs.waiting, ?_, fun a v hv => ?_,
      hsu.power_pos, hsu.power_total⟩
    · rw [hr, append_nil]
      refine List.Nodup.sublist hact ?_
      have hp : s.roster.active ++ s.roster.pending.reverse |>.Nodup :=
        ((reverse_perm _).append_left _).nodup_iff.2 hs.roster.addresses
      exact hp.sublist ((eraseMarked_sublist _ _).append (.refl _))
    · rw [hr]
      exact nodup_nil
    · rw [hr]
      simp
    · rw [hsu.pendingActiveValidators]
      simp
    · rcases hsu.candidates a v hv with hv | ⟨hmem, ha⟩
      · exact hs.candidates a v hv
      · exact ⟨ha, hs.waiting v hmem⟩
  · rw [hr]
    exact .epoch hact

/-! ## Genesis -/

theorem foldlM_insertTrusted {trusted trusted' : VecSet Address}
    (h : vs.foldlM (fun t v => VecSet.insert t v.suiAddress) trusted = .ok trusted') :
    trusted'.contents = trusted.contents ++ vs.map suiAddress := by
  induction vs generalizing trusted with
  | nil =>
    cases h
    simp
  | cons v vs ih =>
    rw [foldlM_cons, bind_ok] at h
    obtain ⟨t, hins, hr⟩ := h
    rw [ih hr, (insert_ok hins).2, append_assoc]
    rfl

/-- The roster of genesis: everybody is active and trusted. -/
theorem sound_new (ha : (vs.map suiAddress).Nodup) (hoff : ∀ v ∈ vs, InOffice v)
    (h : ValidatorSet.new vs = .ok s) :
    s.Sound ∧ s.roster = ⟨vs.map suiAddress, [], [], true, vs.map suiAddress⟩ := by
  simp only [new, ok_iff] at h
  obtain ⟨_, _, _, _, trusted, ht, powered, hp, rfl⟩ := h
  obtain ⟨hrep, hpos, hto⟩ := setVotingPower_ok hp
  have hmap : powered.map suiAddress = vs.map suiAddress :=
    forall₂_map_eq hrep fun _ _ h => Repowered.suiAddress h
  refine ⟨⟨⟨?_, nodup_nil, by simp [roster]⟩,
    forall₂_forall hrep (fun _ _ h => Repowered.inOffice h) hoff, by simp, ?_, hpos, hto⟩, ?_⟩
  · simpa [roster, hmap] using ha
  · rintro a v ⟨⟩
  · have hc := foldlM_insertTrusted ht
    simp [roster, hmap, hc, empty]

end ValidatorSet

namespace Genesis

open ValidatorSet

variable {validate : ValidatorMetadata → Call Unit}

/-- What the list of validators is like while genesis builds it. -/
structure Gathered (vs : List Validator) : Prop where
  addresses : (vs.map suiAddress).Nodup
  waiting : ∀ v ∈ vs, Waiting v

variable {vs : List Validator}

theorem Gathered.addValidator {vs' : List Validator} {item : Registration × ℕ} (hg : Gathered vs)
    (h : Genesis.addValidator validate vs item = .ok vs') : Gathered vs' := by
  simp only [Genesis.addValidator, ok_iff] at h
  obtain ⟨v, hnew, hdup, rfl⟩ := h
  constructor
  · rw [map_append]
    exact nodup_insert ⟨_, hg.addresses⟩ (not_mem_of_not_isDuplicateValidator hdup)
  · intro w hw
    rcases mem_append.1 hw with hw | hw
    · exact hg.waiting w hw
    · exact mem_singleton.1 hw ▸ waiting_new hnew

theorem Gathered.allocate {state state' : List Validator × List StakedOct} {item : ℕ × Address}
    (hg : Gathered state.1) (h : Genesis.allocate state item = .ok state') : Gathered state'.1 := by
  simp only [Genesis.allocate, ok_iff, Vector.borrow_ok] at h
  obtain ⟨i, _, v, hv, v', receipt, hs, rfl⟩ := h
  have hk : Kept v v' := by
    obtain ⟨_, _, _, _, rfl, _⟩ := requestAddStakeAtGenesis_ok hs
    exact ⟨rfl, rfl, ⟨rfl, rfl, rfl⟩, fun hc => hc⟩
  refine ⟨(map_set_of_eq hv hk.suiAddress).symm ▸ hg.addresses, fun w hw => ?_⟩
  rcases mem_or_eq_of_mem_set hw with hw | rfl
  · exact hg.waiting w hw
  · exact hk.waiting (hg.waiting v (mem_of_getElem? hv))

theorem createValidators_ok {registrations : List Registration}
    {allocations : List (ℕ × Address)} {receipts : List StakedOct}
    (h : createValidators validate registrations allocations = .ok (vs, receipts)) :
    (vs.map suiAddress).Nodup ∧ ∀ v ∈ vs, InOffice v := by
  simp only [createValidators, ok_iff] at h
  obtain ⟨vs₁, hreg, vs₂, _, hal, vs₃, ha, rfl, _⟩ := h
  have hg₀ : Gathered [] := ⟨nodup_nil, by simp⟩
  have hg₁ : Gathered vs₁ := foldlM_induction (fun _ _ _ _ hg hs => hg.addValidator hs) hg₀ hreg
  have hg₂ : Gathered vs₂ := foldlM_induction (P := fun state => Gathered state.1)
    (fun _ _ _ _ hg hs => hg.allocate hs) hg₁ hal
  have hall := mapM_eq_ok.1 ha
  constructor
  · rw [forall₂_map_eq hall fun _ _ h => suiAddress_activate h]
    exact hg₂.addresses
  · exact forall₂_forall hall (fun _ _ h hw => inOffice_of_activate hw h) hg₂.waiting

end Genesis

end OneChain.System
