import OneChain.System.Chain

/-!
# Who is a validator, over whole runs

The two promises of the membership rules, for the chain as a whole. Both hold as long as trust is
taken away with care, and both are broken by one vote that is not careful.

* `active_trusted_after_epoch` — while only trusted validators may join, everybody who is active
  after an epoch change is trusted. A *pending* validator that loses its trust still joins
  (`untrusted_joins`), and an active one stays if the epoch ends in safe mode.
* `floor_kept` — an epoch with enough validators is followed by one with enough of them, whoever
  leaves. A vote that takes the trust of an active validator does not look at the floor
  (`vote_below_floor`).

Without care, nobody becomes active unannounced (`active_as_announced`).
-/

namespace OneChain.System

open Lib Move VotingPower Validator Machine

/-- The transactions that end an epoch. -/
def Tx.endsEpoch : Tx → Bool
  | .advanceEpoch _ => true
  | .advanceEpochSafeMode _ => true
  | _ => false

def Tx.isSafeMode : Tx → Bool
  | .advanceEpochSafeMode _ => true
  | _ => false

namespace Chain

variable {validate : ValidatorMetadata → Call Unit} {s s' : Chain} {tx : Tx}

/-! ## Trust -/

/-- Nobody votes on a proposal to take the trust of a pending validator. -/
def SparesPending (s : Chain) (tx : Tx) : Prop :=
  ∀ b ∈ tx.ballot, ∀ p ∈ s.proposals b.proposal, ∀ v ∈ s.set.pendingActiveValidators,
    p.action ≠ .updateTrustedValidators false v.suiAddress

/-- No epoch ends in safe mode while an untrusted validator waits for its removal. -/
def SafeModeTrusted (s : Chain) (tx : Tx) : Prop :=
  tx.isSafeMode = true → ∀ i ∈ s.set.pendingRemovals, ∀ v ∈ s.set.activeValidators[i]?,
    v.suiAddress ∈ s.set.trustedValidators.contents

/-- Trust is required, and taken away with care. -/
def Careful (s : Chain) (tx : Tx) : Prop :=
  s.set.onlyTrustedValidator = true ∧ s.SparesPending tx ∧ s.SafeModeTrusted tx

instance (s : Chain) (tx : Tx) : Decidable (s.Careful tx) := by
  unfold Careful SparesPending SafeModeTrusted
  infer_instance

theorem SparesPending.not_mem (h : s.SparesPending tx) {a : Address} (ha : s.Distrusts tx a) :
    a ∉ s.set.roster.pending := by
  obtain ⟨b, hb, p, hp, hac⟩ := ha
  intro hmem
  obtain ⟨v, hv, rfl⟩ := List.mem_map.1 hmem
  exact h b hb p hp v hv hac

theorem trustworthy (h : (machine validate).Reach Careful s) : s.set.roster.Trustworthy := by
  induction h with
  | init hs => exact hs.roster.2.2.1
  | step tx hr hc hst ih =>
    obtain ⟨hm, hsp, _⟩ := hc
    obtain ⟨e, hro, hd⟩ := (step_roster (sound hr) hst).step
    refine ih.step (sound hr).roster hm (fun a ha => ?_) hro
    exact hsp.not_mem (hd a ha)

theorem removals_of_advanceEpoch (hs : s.set.Sound)
    {params : SuiSystemStateInnerV2.AdvanceEpochParams}
    (h : step validate s (.advanceEpoch params) = .ok s') : s'.set.roster.removals = [] := by
  obtain ⟨system, out, hc, rfl⟩ := onSystem'_eq_ok h
  obtain ⟨_, _, _, outcome, ho, hset, _⟩ := SuiSystemStateInnerV2.advanceEpoch_ok hc
  obtain ⟨_, hr⟩ := hs.advanceEpoch s.floor ho
  show system.validators.roster.removals = []
  rw [hset]
  exact hr.removals_of_epoch

/-- **Everybody active is trusted.** In a run in which only trusted validators may join, after
every epoch change every active validator is trusted, if nobody votes on taking the trust of a
pending validator and no epoch ends in safe mode over an outstanding removal. -/
theorem active_trusted_after_epoch (h : (machine validate).Reach Careful s)
    (hcareful : s.Careful tx) (hepoch : tx.endsEpoch = true)
    (hstep : (machine validate).step s tx = .ok s') :
    ∀ v ∈ s'.set.activeValidators, v.suiAddress ∈ s'.set.trustedValidators.contents := by
  intro v hv
  refine (trustworthy (.step tx h hcareful hstep)).all (fun i hi a ha => ?_) v.suiAddress
    (List.mem_map_of_mem hv)
  cases tx with
  | advanceEpoch params =>
    -- the epoch change has processed every removal
    have hc : step validate s (.advanceEpoch params) = .ok s' := hstep
    rw [removals_of_advanceEpoch (sound h) hc] at hi
    cases hi
  | advanceEpochSafeMode params =>
    -- safe mode has processed none
    cases hstep
    have ha' : (s.set.activeValidators.map suiAddress)[i]? = some a := ha
    rw [List.getElem?_map, Option.map_eq_some_iff] at ha'
    obtain ⟨w, hw, rfl⟩ := ha'
    exact hcareful.2.2 rfl i hi w hw
  | _ => cases hepoch

/-- The theorem on a run: an active validator loses its trust and is gone after the epoch. -/
theorem active_trusted_after_epoch_small :
    ∃ s' : Chain, s'.set.activeValidators.map suiAddress = [1, 2, 3, 4] ∧
      ∀ v ∈ s'.set.activeValidators, v.suiAddress ∈ s'.set.trustedValidators.contents := by
  obtain ⟨s, hr, hc, s', hs, hact⟩ := exists_reach (C := Careful) [
      .createUpdateTrustedValidatorProposal (capOf 1) false 5,
      .voteProposal (capOf 2) 10 true,
      .voteProposal (capOf 3) 10 true,
      .voteProposal (capOf 4) 10 true]
    (fun s => s.Careful (.advanceEpoch quietEpoch) ∧
      ∃ s', plainMachine.step s (.advanceEpoch quietEpoch) = .ok s' ∧
        s'.set.activeValidators.map suiAddress = [1, 2, 3, 4])
    (init_small 5) (by decide +kernel)
  exact ⟨s', hact, active_trusted_after_epoch hr hc rfl hs⟩

/-- Only trusted validators may join. -/
def TrustRequired (s : Chain) (_ : Tx) : Prop := s.set.onlyTrustedValidator = true
  deriving Decidable

/-- **An untrusted validator joins.** Validator 3 is trusted and asks to join; its trust is taken
away by a second vote while it is pending, and the epoch change makes it active. -/
theorem untrusted_joins :
    ∃ s s', plainMachine.Reach TrustRequired s ∧ s.set.onlyTrustedValidator = true ∧
      plainMachine.step s (.advanceEpoch quietEpoch) = .ok s' ∧
      ∃ v ∈ s'.set.activeValidators, v.suiAddress ∉ s'.set.trustedValidators.contents := by
  obtain ⟨s, hr, hm, s', ha⟩ := exists_reach (C := TrustRequired) [
      .createUpdateTrustedValidatorProposal (capOf 1) true 3,
      .voteProposal (capOf 2) 4 true,
      .requestAddValidatorCandidate (plainRegistration 3) 3,
      .requestAddValStake ⟨6, 3⟩ 1000000000000,
      .requestAddValidator 3,
      .createUpdateTrustedValidatorProposal (capOf 1) false 3,
      .voteProposal (capOf 2) 7 true]
    (fun s => s.set.onlyTrustedValidator = true ∧
      ∃ s', plainMachine.step s (.advanceEpoch quietEpoch) = .ok s' ∧
        ∃ v ∈ s'.set.activeValidators, v.suiAddress ∉ s'.set.trustedValidators.contents)
    (init_small 2) (by decide +kernel)
  exact ⟨s, s', hr, hm, ha⟩

/-! ## The floor -/

/-- Nobody votes on a proposal to take the trust of an active validator while there is no
validator to spare. -/
def KeepsSpare (s : Chain) (tx : Tx) : Prop :=
  ∀ b ∈ tx.ballot, ∀ p ∈ s.proposals b.proposal, ∀ v ∈ s.set.activeValidators,
    p.action = .updateTrustedValidators false v.suiAddress →
      s.floor ≤ s.set.activeValidators.length → s.floor < s.set.roster.nextCount

instance (s : Chain) (tx : Tx) : Decidable (s.KeepsSpare tx) := by
  unfold KeepsSpare
  infer_instance

theorem KeepsSpare.lt (h : s.KeepsSpare tx) {a : Address} (ha : s.Distrusts tx a)
    (hact : a ∈ s.set.roster.active) (he : s.floor ≤ s.set.roster.active.length) :
    s.floor < s.set.roster.nextCount := by
  obtain ⟨b, hb, p, hp, hac⟩ := ha
  obtain ⟨v, hv, rfl⟩ := List.mem_map.1 hact
  exact h b hb p hp v hv hac (by simpa [ValidatorSet.roster] using he)

theorem aboveFloor (h : (machine validate).Reach KeepsSpare s) :
    s.set.roster.AboveFloor s.floor := by
  induction h with
  | init hs =>
    obtain ⟨_, _, _, hrem, hp⟩ := hs.roster
    intro he
    simpa [Roster.nextCount, hrem, hp] using he
  | step tx hre hsp hst ih =>
    obtain ⟨hso, hf, e, hr, hd⟩ := step_roster (sound hre) hst
    rw [hf]
    exact ih.step hso.roster (fun a ha hact => hsp.lt (hd a ha) hact) hr

/-- The count never fails: the marks are on active validators. -/
theorem nextEpochValidatorCount_of_sound (hs : s.set.Sound)
    (hsi : s.set.activeValidators.length + s.set.pendingActiveValidators.length < u64Bound) :
    s.set.nextEpochValidatorCount = .ok s.set.roster.nextCount := by
  have hle : s.set.pendingRemovals.length ≤ s.set.activeValidators.length := by
    simpa [ValidatorSet.roster] using hs.roster.length_removals_le
  rw [ValidatorSet.nextEpochValidatorCount, bind_ok]
  refine ⟨_, subU64_ok.2 ⟨hle, rfl⟩, addU64_ok.2 ⟨?_, ?_⟩⟩
  · omega
  · simp [Roster.nextCount, ValidatorSet.roster]

/-- **The floor is kept.** In an epoch with enough validators the next epoch has enough of them
announced, and so at least one, whoever resigns or is voted out, if nobody votes on taking the
trust of an active validator while there is none to spare. -/
theorem floor_kept (h : (machine validate).Reach KeepsSpare s)
    (hsize : s.set.activeValidators.length + s.set.pendingActiveValidators.length < u64Bound)
    (henough : s.system.parameters.minValidatorCount ≤ s.set.activeValidators.length) :
    ∃ n, s.set.nextEpochValidatorCount = .ok n ∧ s.system.parameters.minValidatorCount ≤ n ∧
      0 < n := by
  have he' : s.floor ≤ s.set.roster.active.length :=
    henough.trans_eq (List.length_map suiAddress).symm
  have hle : s.floor ≤ s.set.roster.nextCount := aboveFloor h he'
  have hf := floor_eq h
  exact ⟨_, nextEpochValidatorCount_of_sound (sound h) hsize, hle, by omega⟩

/-- The theorem on a run: one of five validators is voted out. -/
theorem floor_kept_small :
    ∃ (s : Chain) (n : ℕ), s.set.pendingRemovals = [4] ∧ s.set.nextEpochValidatorCount = .ok n ∧
      s.system.parameters.minValidatorCount ≤ n := by
  obtain ⟨s, hr, hm, hs, he⟩ := exists_reach (C := KeepsSpare) [
      .createUpdateTrustedValidatorProposal (capOf 1) false 5,
      .voteProposal (capOf 2) 10 true,
      .voteProposal (capOf 3) 10 true,
      .voteProposal (capOf 4) 10 true]
    (fun s => s.set.pendingRemovals = [4] ∧
      s.set.activeValidators.length + s.set.pendingActiveValidators.length < u64Bound ∧
      s.system.parameters.minValidatorCount ≤ s.set.activeValidators.length)
    (init_small 5) (by decide +kernel)
  obtain ⟨n, hc, hle, _⟩ := floor_kept hr hs he
  exact ⟨s, n, hm, hc, hle⟩

/-- **A vote goes below the floor.** Four validators are the minimum; a vote takes the trust of
one of them, and three are announced for the next epoch. -/
theorem vote_below_floor :
    ∃ s, plainMachine.Reach Machine.free s ∧ s.system.parameters.minValidatorCount = 4 ∧
      s.set.activeValidators.length = 4 ∧ s.set.nextEpochValidatorCount = .ok 3 :=
  exists_reach [.createUpdateTrustedValidatorProposal (capOf 1) false 4,
      .voteProposal (capOf 2) 8 true,
      .voteProposal (capOf 3) 8 true] _ (init_small 4) (by decide +kernel)

/-! ## The active set -/

/-- **Nobody becomes active unannounced.** In every run a transaction leaves the active validators
as they are, or nobody is pending or marked after it, and whoever is active then was pending, or was
active and not marked (not all of them need be: stake can be too low to join or to stay). The set is
always sound: the validators are distinct, each has voting power, and together all of it. -/
theorem active_as_announced {C : Chain → Tx → Prop} (h : (machine validate).Reach C s)
    (hstep : (machine validate).step s tx = .ok s') :
    s'.set.Sound ∧ s.set.roster.AsAnnounced s'.set.roster := by
  obtain ⟨hs', _, e, hroster, _⟩ := step_roster (sound h) hstep
  exact ⟨hs', hroster.asAnnounced (sound h).roster⟩

theorem active_as_announced_small :
    ∃ s s' : Chain, s.set.roster.removals = [4] ∧ s'.set.roster.active = [1, 2, 3, 4] ∧
      s.set.roster.AsAnnounced s'.set.roster := by
  obtain ⟨s, hr, hs, s', hstep, hact⟩ := exists_reach (C := free) [.requestRemoveValidator 5]
    (fun s => s.set.roster.removals = [4] ∧
      ∃ s', plainMachine.step s (.advanceEpoch quietEpoch) = .ok s' ∧
        s'.set.roster.active = [1, 2, 3, 4])
    (init_small 5) (by decide +kernel)
  exact ⟨s, s', hs, hact, (active_as_announced hr hstep).2⟩

end Chain

end OneChain.System
