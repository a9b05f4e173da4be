import OneChain.System.Chain

/-!
# The subsidies of a run

**Theorem (`subsidies_of_run`).** In epoch `k` at most `k` times the first amount has been drawn
from the subsidy fund, and an epoch change that does not make up for missed epochs draws at most the
current amount.

The catch-up in `advance_epoch` is meant for one chain that was in safe mode from epoch 560 on. It
looks at the counter of distributions and at the epoch only, so one epoch that was too short for a
subsidy is enough to get there without safe mode (`subsidy_drawn_twice`).
-/

namespace OneChain.System

open Lib Move SuiSystemStateInnerV2

namespace StakeSubsidy

variable {a b c : StakeSubsidy} {m n x : ℕ}

/-- At most `n` times the current amount has been drawn, in `n` distributions. -/
structure Drawn (n : ℕ) (a b : StakeSubsidy) : Prop where
  counter : b.distributionCounter = a.distributionCounter + n
  amount : b.currentDistributionAmount ≤ a.currentDistributionAmount
  balance : a.balance ≤ b.balance + n * a.currentDistributionAmount

theorem Drawn.refl (a : StakeSubsidy) : Drawn 0 a a := ⟨rfl, le_rfl, by simp⟩

theorem Drawn.trans (hab : Drawn m a b) (hbc : Drawn n b c) : Drawn (m + n) a c where
  counter := by rw [hbc.counter, hab.counter, Nat.add_assoc]
  amount := hbc.amount.trans hab.amount
  balance := by
    have hle := Nat.mul_le_mul_left n hab.amount
    have hf := hab.balance
    have hsec := hbc.balance
    rw [Nat.add_mul]
    omega

theorem decreasedAmount_le (h : a.decreasedAmount n = .ok x) : x ≤ a.currentDistributionAmount := by
  unfold decreasedAmount at h
  split at h
  · cases h
  · split at h
    · simp only [bind_ok, subU64_ok] at h
      omega
    · cases h
      exact le_rfl

theorem drawn_advanceEpoch (h : a.advanceEpoch = .ok (b, x)) : Drawn 1 a b := by
  simp only [advanceEpoch, ok_iff] at h
  obtain ⟨_, _, hs, _, hc, _, ha, rfl, _⟩ := h
  obtain ⟨_, hs⟩ := Balance.split_ok.1 hs
  cases hs
  refine ⟨(addU64_ok.1 hc).2, decreasedAmount_le ha, ?_⟩
  show a.balance ≤ _ - min _ _ + _
  omega

theorem drawn_advanceEpochs {acc : ℕ} (h : a.advanceEpochs acc n = .ok (b, x)) : Drawn n a b := by
  induction n generalizing a acc with
  | zero =>
    cases h
    exact .refl _
  | succ n ih =>
    simp only [advanceEpochs, ok_iff] at h
    obtain ⟨next, _, hf, _, _, hr⟩ := h
    rw [Nat.add_comm]
    exact (drawn_advanceEpoch hf).trans (ih hr)

end StakeSubsidy

namespace SuiSystemStateInnerV2

variable {s s' : SuiSystemStateInnerV2} {p : AdvanceEpochParams} {fund : StakeSubsidy} {x : ℕ}

/-- How many epochs the next epoch change makes up for. -/
def missedEpochs (s : SuiSystemStateInnerV2) : ℕ :=
  if s.stakeSubsidy.distributionCounter = 540 ∧ s.epoch > 560 then s.epoch - 560 else 0

theorem drawn_subsidyOf {parameters : SystemParametersV2} {ms : ℕ}
    (h : s.subsidyOf parameters ms = .ok (fund, x)) :
    ∃ n ≤ s.missedEpochs + 1, s.stakeSubsidy.Drawn n fund := by
  unfold subsidyOf at h
  split at h
  · obtain ⟨_, _, h⟩ := bind_ok.1 h
    split at h
    · simp only [drawSubsidy, ok_iff] at h
      obtain ⟨_, _, hm, _, _, hl, _, _, rfl, _⟩ := h
      exact ⟨_, le_rfl, (StakeSubsidy.drawn_advanceEpochs hm).trans
        (StakeSubsidy.drawn_advanceEpoch hl)⟩
    · cases h
      exact ⟨0, Nat.zero_le _, .refl _⟩
  · cases h
    exact ⟨0, Nat.zero_le _, .refl _⟩

theorem drawn_advanceEpoch {out : List StakedOct × ℕ} (h : s.advanceEpoch p = .ok (s', out)) :
    s'.epoch = s.epoch + 1 ∧ ∃ n ≤ s.missedEpochs + 1, s.stakeSubsidy.Drawn n s'.stakeSubsidy := by
  simp only [advanceEpoch, bind_ok, Prod.exists] at h
  obtain ⟨_, _, _, _, _, _, _, _, _, _, _, _, _, _, _, _, hs, _, _, _, _, _, _, _, _, _, _, _,
    _, _, he, _, _, _, _, _, _, _, _, _, _, _, rfl, _⟩ := h
  exact ⟨(addU64_ok.1 he).2, drawn_subsidyOf hs⟩

end SuiSystemStateInnerV2

namespace Chain

variable {validate : ValidatorMetadata → Call Unit} {g : GenesisConfig} {s s' : Chain} {tx : Tx}

variable (validate g) in
/-- The chain that starts from a genesis. -/
def machineFrom : Machine Chain Tx Abort :=
  { machine validate with init := fun s => genesis validate g = .ok s }

theorem subsidy_genesis (h : genesis validate g = .ok s) :
    s.system.epoch = 0 ∧ s.system.stakeSubsidy = g.stakeSubsidy := by
  simp only [genesis, Genesis.create, ok_iff] at h
  obtain ⟨_, _, _, _, ⟨_, _, _, _, rfl⟩, rfl⟩ := h
  exact ⟨rfl, rfl⟩

/-- **What a transaction draws.** Only an epoch change draws anything, and not in safe mode. -/
theorem drawn_step (h : step validate s tx = .ok s') :
    ∃ n, s.system.stakeSubsidy.Drawn n s'.system.stakeSubsidy ∧
      (n = 0 ∧ s.system.epoch ≤ s'.system.epoch ∨
        n ≤ s.system.missedEpochs + 1 ∧ s'.system.epoch = s.system.epoch + 1) := by
  cases step_effect h with
  | calm n ms hc =>
    refine ⟨0, ?_, .inl ⟨rfl, hc.epoch⟩⟩
    show s.system.stakeSubsidy.Drawn 0 _
    rw [hc.subsidy]
    exact .refl _
  | join hj =>
    obtain ⟨_, _, rfl⟩ := requestAddValidator_ok hj
    exact ⟨0, .refl _, .inl ⟨rfl, le_rfl⟩⟩
  | resign hr =>
    obtain ⟨_, _, _, rfl⟩ := requestRemoveValidator_ok hr
    exact ⟨0, .refl _, .inl ⟨rfl, le_rfl⟩⟩
  | propose _ hp =>
    obtain ⟨_, _, _, _, rfl⟩ := propose_ok hp
    exact ⟨0, .refl _, .inl ⟨rfl, le_rfl⟩⟩
  | vote _ hv =>
    obtain ⟨_, _, _, he⟩ := voteProposal_ok hv
    rcases executeIfPassed_ok he with ⟨_, _, rfl⟩ | ⟨_, _, _, _, rfl⟩
    · exact ⟨0, .refl _, .inl ⟨rfl, le_rfl⟩⟩
    · exact ⟨0, .refl _, .inl ⟨rfl, le_rfl⟩⟩
  | epoch he =>
    obtain ⟨hepoch, n, hn, hd⟩ := drawn_advanceEpoch he
    exact ⟨n, hd, .inr ⟨hn, hepoch⟩⟩

/-- There are not more distributions than epochs: a catch-up starts from at least twenty epochs
without one. -/
theorem distributions_le_epoch (hz : g.stakeSubsidy.distributionCounter = 0)
    (h : (machineFrom validate g).Reach Machine.free s) :
    ∃ n ≤ s.system.epoch, g.stakeSubsidy.Drawn n s.system.stakeSubsidy := by
  induction h with
  | init hi =>
    rw [(subsidy_genesis hi).2]
    exact ⟨0, Nat.zero_le _, .refl _⟩
  | step tx _ _ hs ih =>
    obtain ⟨n, hn, hd⟩ := ih
    obtain ⟨m, hmo, ⟨rfl, he⟩ | ⟨hm, he⟩⟩ := drawn_step hs
    · exact ⟨n, hn.trans he, hd.trans hmo⟩
    · refine ⟨n + m, ?_, hd.trans hmo⟩
      have hc := hd.counter
      unfold missedEpochs at hm
      split at hm <;> omega

/-- **The subsidies of a run**, whatever transactions it has. The last part is about the next one,
unless the counter is 540 at an epoch after 560. -/
theorem subsidies_of_run {balance amount length rate : ℕ}
    (hfund : StakeSubsidy.create balance amount length rate = .ok g.stakeSubsidy)
    (h : (machineFrom validate g).Reach Machine.free s) :
    balance ≤ s.system.stakeSubsidy.balance + s.system.epoch * amount ∧
      ∀ tx s', step validate s tx = .ok s' →
        (s.system.stakeSubsidy.distributionCounter = 540 → s.system.epoch ≤ 560) →
          s.system.stakeSubsidy.balance ≤
            s'.system.stakeSubsidy.balance + s.system.stakeSubsidy.currentDistributionAmount := by
  simp only [StakeSubsidy.create, ok_iff] at hfund
  obtain ⟨_, hfund⟩ := hfund
  constructor
  · obtain ⟨n, hn, hd⟩ := distributions_le_epoch (by rw [← hfund]) h
    have hbal := hd.balance
    rw [← hfund] at hbal
    exact hbal.trans (Nat.add_le_add_left (Nat.mul_le_mul_right amount hn) _)
  · intro tx s' hs hu
    obtain ⟨m, hd, hm⟩ := drawn_step hs
    have hm : m ≤ 1 := by
      unfold missedEpochs at hm
      split at hm <;> omega
    have hbal := hd.balance
    exact hbal.trans (Nat.add_le_add_left (by simpa using Nat.mul_le_mul_right _ hm) _)

/-- Subsidies of 1 from epoch 20 on. -/
def subsidised : GenesisConfig where
  registrations := [Validator.plainRegistration 1]
  allocations := [(1000000000000, 1)]
  initialStorageFund := 0
  protocolVersion := 1
  epochStartTimestampMs := 0
  parameters := ⟨1, 20, 4, 150, 7⟩
  stakeSubsidy := ⟨1000, 0, 1, 1000, 0⟩

/-- The end of epoch `k`. -/
def endOfEpoch (k ms : ℕ) : Tx := .advanceEpoch ⟨k + 1, 1, 0, 0, 0, 0, 0, 0, ms⟩

theorem subsidies_of_run_one :
    ∃ s, (machineFrom (fun _ => .ok ()) subsidised).Reach Machine.free s ∧
      s.system.stakeSubsidy.balance = 999 ∧ 1000 ≤ 999 + s.system.epoch * 1 := by
  refine Machine.exists_reach_and ((List.range 21).map fun k => endOfEpoch k (k + 1)) _
    (fun _ h => h) (by decide +kernel) fun s hr hbal => ?_
  have hf : StakeSubsidy.create 1000 1 1000 0 = .ok subsidised.stakeSubsidy := rfl
  rw [← hbal]
  exact (subsidies_of_run hf hr).1

/-- Epoch 560 is too short for a subsidy; the epoch after it draws two. -/
theorem subsidy_drawn_twice :
    ∃ s, (machineFrom (fun _ => .ok ()) subsidised).Reach Machine.free s ∧
      ∃ tx s', step (fun _ => .ok ()) s tx = .ok s' ∧
        s'.system.stakeSubsidy.balance + s.system.stakeSubsidy.currentDistributionAmount <
          s.system.stakeSubsidy.balance := by
  refine Machine.exists_reach_imp
    ((List.range 561).map fun k => endOfEpoch k (min (k + 1) 560))
    (fun s => ∃ s', step (fun _ => .ok ()) s (endOfEpoch 561 561) = .ok s' ∧
      s'.system.stakeSubsidy.balance + s.system.stakeSubsidy.currentDistributionAmount <
        s.system.stakeSubsidy.balance) (fun _ h => h) (by decide +kernel) fun s _ h => ?_
  exact ⟨_, h⟩

end Chain

end OneChain.System
