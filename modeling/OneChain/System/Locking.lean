import OneChain.System.Ledger

/-!
# Locked stake

A validator's own stake is created with `lock = true`, and its principal should leave the pool
through a vesting object only. Splitting copies the flag, converting refuses locked receipts and
withdrawing vests their principal; joining compares the pool and the activation epoch of two
receipts and keeps the flag of the first. Locked principal is conserved exactly as long as joins
are made between receipts of the same kind.
-/

namespace OneChain.System

open Lib Move StakedOct

namespace World

variable {w w' : World}

/-- All locked principal is in locked receipts or has been vested. -/
def LockedKept (w : World) : Prop :=
  w.lockedStake = tally (·.lockedPrincipal) w.staked + tally (·.total) w.vestings

/-- Joins are made between receipts of the same kind. -/
def JoinsAlike (_ : World) : Op → Prop
  | .request (.join s other) => s.lock = other.lock
  | _ => True

theorem Fresh.lockedKept (h : w.Fresh) : w.LockedKept := by
  unfold LockedKept
  rw [h.lockedStake, h.staked, h.vestings]
  rfl

theorem LockedKept.receive (h : w.LockedKept) (validator : Validator) (s : StakedOct) :
    (w.receive validator s).LockedKept := by
  unfold LockedKept at h ⊢
  show w.lockedStake + s.lockedPrincipal
    = tally (·.lockedPrincipal) (s :: w.staked) + tally (·.total) w.vestings
  rw [tally_cons]
  omega

variable {s : StakedOct}

section

variable (hw : w.LockedKept)
include hw

/-- Withdrawing a locked receipt vests its principal. -/
theorem LockedKept.withdrawn (hmem : s ∈ w.staked) (pool : StakingPool) (amount : ℕ) :
    (w.withdrawn s pool amount).LockedKept := by
  have he := tally_erase_add (f := (·.lockedPrincipal)) hmem
  unfold LockedKept at hw ⊢
  simp only [World.withdrawn]
  cases hl : s.lock with
  | true =>
    rw [lockedPrincipal, if_pos hl] at he
    show w.lockedStake = tally (·.lockedPrincipal) (w.staked.erase s)
      + (s.principal + tally (·.total) w.vestings)
    omega
  | false =>
    rw [lockedPrincipal, if_neg (by simp [hl])] at he
    rw [if_neg (by simp), List.nil_append]
    omega

theorem LockedKept.erase (hmem : s ∈ w.staked) (hl : s.lock = false) :
    w.lockedStake = tally (·.lockedPrincipal) (w.staked.erase s) + tally (·.total) w.vestings := by
  have he := tally_erase_add (f := (·.lockedPrincipal)) hmem
  rw [lockedPrincipal, if_neg (by simp [hl])] at he
  unfold LockedKept at hw
  omega

theorem LockedKept.split {amount : ℕ} (hmem : s ∈ w.staked) (hle : amount ≤ s.principal) :
    LockedKept { w with
      staked := { s with principal := s.principal - amount } ::
        { s with principal := amount } :: w.staked.erase s } := by
  have he := tally_erase_add (f := (·.lockedPrincipal)) hmem
  unfold LockedKept at hw ⊢
  simp only [tally_cons]
  cases hl : s.lock with
  | true =>
    simp only [lockedPrincipal, hl, if_true] at he ⊢
    simp only [lockedPrincipal] at hw
    omega
  | false =>
    simp only [lockedPrincipal, hl, Bool.false_eq_true, if_false] at he ⊢
    simp only [lockedPrincipal] at hw
    omega

/-- **Joining**: kept if the two flags agree. -/
theorem LockedKept.join {other : StakedOct} (hl : s.lock = other.lock) (hs : s ∈ w.staked)
    (ho : other ∈ w.staked.erase s) :
    LockedKept { w with
      staked := { s with principal := s.principal + other.principal } ::
        (w.staked.erase s).erase other } := by
  have h₁ := tally_erase_add (f := (·.lockedPrincipal)) hs
  have h₂ := tally_erase_add (f := (·.lockedPrincipal)) ho
  unfold LockedKept at hw ⊢
  simp only [tally_cons]
  cases hk : other.lock with
  | true =>
    simp only [lockedPrincipal, hl, hk, if_true] at h₁ h₂ ⊢
    simp only [lockedPrincipal] at hw
    omega
  | false =>
    simp only [lockedPrincipal, hl, hk, Bool.false_eq_true, if_false] at h₁ h₂ ⊢
    simp only [lockedPrincipal] at hw
    omega

theorem LockedKept.request {r : Request} (hr : w.JoinsAlike (.request r))
    (h : w.request r = .ok w') : w'.LockedKept := by
  cases effect_of_request h with
  | addStake => exact hw.receive _ _
  | handBack hmem | withdraw hmem => exact hw.withdrawn hmem _ _
  | convert hmem hl => exact hw.erase hmem hl
  | split hmem hle => exact hw.split hmem hle
  | join hs ho => exact hw.join hr hs ho
  | redeem | splitFungible | joinFungible | setOnlyValidatorStaking | depositRewards => exact hw

theorem LockedKept.exec {op : Op} (hop : w.JoinsAlike op)
    (h : w.exec op = .ok w') : w'.LockedKept := by
  cases op with
  | request r => exact hw.request hop h
  | stakeAtGenesis stake lock =>
    obtain ⟨_, _, _, rfl, _⟩ := stakeAtGenesis_ok h
    exact hw.receive _ _
  | processPending =>
    obtain ⟨_, _, rfl⟩ := processPending_ok h
    exact hw
  | activate epoch =>
    obtain ⟨_, _, rfl⟩ := activate_ok h
    exact hw
  | deactivate epoch =>
    obtain rfl := deactivate_ok h
    exact hw
  | nextEpoch =>
    cases h
    exact hw

end

end World

/-- **Locked stake stays locked** in every run that joins receipts of the same kind only: the
principal created locked is in locked receipts or vested. A locked receipt is not converted, and
withdrawing it pays out no part of its principal. -/
theorem locked_stake_kept {w : World} (h : ledger.Reach World.JoinsAlike w) :
    w.lockedStake = tally (·.lockedPrincipal) w.staked + tally (·.total) w.vestings ∧
    ∀ s ∈ w.staked, s.lock = true →
      w.validator.convertToFungibleStakedOct s w.epoch = .error Validator.EStakedOctIsLock ∧
      ∀ v' out vesting, w.validator.requestWithdrawStake s w.epoch = .ok (v', out, vesting) →
        vesting = some (Validator.vestingOf s) ∧
        out + s.principal + v'.nextEpochStake = w.validator.nextEpochStake := by
  refine ⟨h.invariant (fun _ hw => hw.lockedKept)
    fun _ _ _ hw hop hs => hw.exec hop hs, fun s _ hl => ⟨?_, ?_⟩⟩
  · rw [Validator.convertToFungibleStakedOct, check, if_neg (by simp [hl])]
    rfl
  · intro v' out vesting hwi
    obtain ⟨_, withdrawn, _, hle, hn, rfl, rfl, rfl⟩ :=
      Validator.requestWithdrawStake_ok hwi
    rw [if_pos hl, if_pos hl]
    refine ⟨rfl, ?_⟩
    show withdrawn - s.principal + s.principal + (w.validator.nextEpochStake - withdrawn)
      = w.validator.nextEpochStake
    omega

/-- Two locked receipts of one epoch are joined, and the result is withdrawn. -/
theorem locked_stake_kept_blank : ∃ w : World, w.lockedStake = 3000000000 ∧ w.vestings.length = 1 ∧
      w.lockedStake = tally (·.lockedPrincipal) w.staked + tally (·.total) w.vestings := by
  have hr : ledger.Reach World.JoinsAlike _ :=
    .step (.request (.withdrawStake ⟨7, 1, 3000000000, true⟩))
      (.step (.request (.join ⟨7, 1, 1000000000, true⟩ ⟨7, 1, 2000000000, true⟩))
        (.step (.request (.addStake 1000000000 true))
          (.step (.request (.addStake 2000000000 true)) (.init World.blank_fresh) trivial rfl)
          trivial rfl)
        rfl rfl)
      trivial rfl
  exact ⟨_, rfl, rfl, (locked_stake_kept hr).1⟩

/-- **A join unlocks stake.** A validator stakes, staking is opened to everybody, and a stake of
the same epoch takes the locked receipt in: the locked principal is withdrawn as a plain
balance. -/
theorem join_unlocks_stake : ∃ w w' : World, ledger.Reach Machine.free w ∧
      w.lockedStake = 2000000000 ∧ tally (·.lockedPrincipal) w.staked = 0 ∧ w.vestings = [] ∧
      w.lockedStake ≠ tally (·.lockedPrincipal) w.staked + tally (·.total) w.vestings ∧
      w.request (.withdrawStake ⟨7, 1, 3000000000, false⟩) = .ok w' ∧
      (w.validator.requestWithdrawStake ⟨7, 1, 3000000000, false⟩ w.epoch).map (·.2)
        = .ok (3000000000, none) := by
  refine ⟨_, _, .step (.request (.join ⟨7, 1, 1000000000, false⟩ ⟨7, 1, 2000000000, true⟩))
    (.step (.request (.addStake 1000000000 false))
      (.step (.request (.setOnlyValidatorStaking false))
        (.step (.request (.addStake 2000000000 true)) (.init World.blank_fresh) trivial rfl)
        trivial rfl)
      trivial rfl)
    trivial rfl, rfl, rfl, rfl, ?_, rfl, rfl⟩
  decide

end OneChain.System
