import OneChain.System.Ledger
import OneChain.System.RateHistory
import Mathlib.Order.Bounds.Basic

/-!
# Which rate a lookup returns

Over every run of `schedule`, with epochs that pass in safe mode and leave no entry behind, the
table of rates keeps the shape that `poolTokenExchangeRateAtEpoch` walks on. It starts at the
activation epoch and a pool is not deactivated before it was activated, so the walk always ends
at an entry.
-/

namespace OneChain.System

open Lib Move PoolTokenExchangeRate StakingPool World

/-- `latest` is the entry of the greatest epoch that has one. -/
theorem latest_isGreatest {rates : Table ℕ PoolTokenExchangeRate} {rate : PoolTokenExchangeRate}
    {a e : ℕ} (hf : rates a = some rate) (ha : a ≤ e) :
    ∃ k, IsGreatest {i | i ≤ e ∧ (rates i).isSome} k ∧ rates k = some (latest rates e) := by
  induction e with
  | zero =>
    obtain rfl : a = 0 := by omega
    exact ⟨0, ⟨⟨le_rfl, by simp [hf]⟩, fun i hi => hi.1⟩, by simp [latest, hf]⟩
  | succ e ih =>
    cases he : rates (e + 1) with
    | some r =>
      refine ⟨e + 1, ⟨⟨le_rfl, by simp [he]⟩, fun i hi => hi.1⟩, ?_⟩
      rw [latest_of_entry he, he]
    | none =>
      -- no entry at `e + 1`: the greatest one is that of `e`
      have hne : ∀ i, (rates i).isSome → i ≠ e + 1 := by
        rintro i hi rfl
        simp [he] at hi
      have hlt := hne a (by simp [hf])
      obtain ⟨k, ⟨⟨hk, hs⟩, hub⟩, hr⟩ := ih (by omega)
      refine ⟨k, ⟨⟨by omega, hs⟩, fun i hi => ?_⟩, by rw [hr, latest, he, Option.getD_none]⟩
      have := hne i hi.2
      exact hub ⟨by have := hi.1; omega, hi.2⟩

/-- The table of a pool, and that it was activated before it was deactivated. -/
structure Dated (pool : StakingPool) (epoch : ℕ) : Prop where
  history : RateHistory pool epoch
  closed : ∀ a ∈ pool.activationEpoch, ∀ d ∈ pool.deactivationEpoch, a ≤ d

/-- What a lookup reads. -/
def StakingPool.dates (pool : StakingPool) : Option ℕ × Option ℕ × Table ℕ PoolTokenExchangeRate :=
  (pool.activationEpoch, pool.deactivationEpoch, pool.exchangeRates)

/-- Requests leave the dates and the rates as they are. -/
theorem World.request_dates {w w' : World} {r : Request} (h : w.request r = .ok w') :
    w'.epoch = w.epoch ∧ w'.pool.dates = w.pool.dates := by
  cases effect_of_request h with
  | @addStake stake =>
    refine ⟨rfl, ?_⟩
    show (Validator.poolWithStake w.pool stake).dates = _
    unfold Validator.poolWithStake
    split <;> rfl
  | @withdraw _ _ _ pool _ _ _ _ hpool =>
    refine ⟨rfl, ?_⟩
    subst hpool
    show (afterWithdraw _).dates = _
    unfold afterWithdraw
    split <;> rfl
  | handBack | convert | redeem | split | join | splitFungible | joinFungible
  | setOnlyValidatorStaking | depositRewards => exact ⟨rfl, rfl⟩

namespace Dated

variable {pool pool' : StakingPool} {epoch : ℕ} {w w' : World}

theorem of_dates (h : Dated pool epoch) (he : pool'.dates = pool.dates) : Dated pool' epoch := by
  obtain ⟨ha, hrest⟩ := Prod.mk.inj he
  obtain ⟨hd, hr⟩ := Prod.mk.inj hrest
  refine ⟨h.history.of_eq ha hr, ?_⟩
  rw [ha, hd]
  exact h.closed

theorem activate (h : Dated pool epoch) (hpre : pool.isPreactive = true)
    (hina : pool.isInactive = false) : Dated (pool.activated epoch) epoch := by
  refine ⟨h.history.activate hpre, fun a _ d hd => ?_⟩
  have hn : pool.deactivationEpoch = none := by simpa [isInactive] using hina
  exact nomatch hn.symm.trans hd

theorem process (h : Dated pool epoch) (hpre : pool.isPreactive = false) :
    Dated (pool.settled.minted.withRate (epoch + 1)) (epoch + 1) := by
  have hh : RateHistory pool.settled.minted epoch := h.history.of_eq rfl rfl
  exact ⟨hh.withRate hpre, h.closed⟩

theorem deactivate (h : Dated pool epoch) :
    Dated { pool with deactivationEpoch := some epoch } epoch := by
  refine ⟨h.history.of_eq rfl rfl, fun a ha d hd => ?_⟩
  obtain rfl := Option.some.inj hd
  exact h.history.started a ha

theorem nextEpoch (h : Dated pool epoch) : Dated pool (epoch + 1) := ⟨h.history.nextEpoch, h.closed⟩

/-- **Every turn keeps the dates in order.** -/
theorem turn {t : Turn} (h : Dated w.pool w.epoch) (ht : t.Legal w)
    (hs : schedule.step w t = .ok w') : Dated w'.pool w'.epoch := by
  cases t with
  | request r =>
    rw [turn_request] at hs
    obtain ⟨he, hd⟩ := request_dates hs
    rw [he]
    exact h.of_dates hd
  | genesis stakes =>
    rw [turn_genesis, bind_ok] at hs
    obtain ⟨w₁, hst, hac⟩ := hs
    have hw₁ : w₁.epoch = 0 ∧ Dated w₁.pool 0 := by
      refine foldlM_induction (P := fun u => u.epoch = 0 ∧ Dated u.pool 0) ?_ ⟨ht.1, ht.1 ▸ h⟩ hst
      rintro u u' op hop ⟨hu, hdu⟩ hstep
      obtain ⟨stake, _, rfl⟩ := List.mem_map.1 hop
      obtain ⟨_, _, _, rfl, _⟩ := stakeAtGenesis_ok hstep
      exact ⟨hu, hdu.of_dates rfl⟩
    obtain ⟨hpre, hina, rfl⟩ := activate_ok hac
    show Dated _ w₁.epoch
    rw [hw₁.1]
    exact hw₁.2.activate hpre hina
  | removeCandidate =>
    rw [turn_removeCandidate] at hs
    obtain rfl := deactivate_ok hs
    exact h.deactivate
  | endEpoch =>
    rw [turn_endEpoch, bind_ok] at hs
    obtain ⟨w₁, hpr, hn⟩ := hs
    obtain ⟨_, _, rfl⟩ := processPending_ok hpr
    cases hn
    exact h.process ht.1
  | leave =>
    simp only [turn_leave, bind_ok] at hs
    obtain ⟨w₁, hpr, w₂, hde, hn⟩ := hs
    obtain ⟨_, _, rfl⟩ := processPending_ok hpr
    obtain rfl := deactivate_ok hde
    cases hn
    exact (h.process ht.1).deactivate
  | enter =>
    rw [turn_enter, bind_ok] at hs
    obtain ⟨w₁, hac, hn⟩ := hs
    obtain ⟨hpre, hina, rfl⟩ := activate_ok hac
    cases hn
    exact (h.activate hpre hina).nextEpoch
  | skipEpoch =>
    rw [turn_skipEpoch] at hs
    cases hs
    exact h.nextEpoch

theorem of_reach (h : schedule.Reach (fun w t => t.Legal w) w) : Dated w.pool w.epoch := by
  refine h.invariant (P := fun w => Dated w.pool w.epoch) (fun w hw => ?_)
    fun _ _ _ hw ht hs => hw.turn ht hs
  obtain ⟨poolId, hp⟩ := hw.pool_eq
  rw [hp]
  exact ⟨.new poolId _, fun a ha => nomatch ha⟩

end Dated

/-- **Which rate a lookup returns.** Of a pool that is reached by turns, from its activation on
the rate of the greatest epoch that has one, up to the epoch asked for or the deactivation; before
it, the initial rate. No lookup aborts. -/
theorem lookup_isGreatest {w : World} (h : schedule.Reach (fun w t => t.Legal w) w) (e : ℕ) :
    (∀ a ∈ w.pool.activationEpoch, a ≤ e →
      ∃ k rate, IsGreatest {i | i ≤ min (w.pool.deactivationEpoch.getD e) e ∧
          (w.pool.exchangeRates i).isSome} k ∧ w.pool.exchangeRates k = some rate ∧
        w.pool.poolTokenExchangeRateAtEpoch e = .ok rate) ∧
      ((∀ a ∈ w.pool.activationEpoch, e < a) →
        w.pool.poolTokenExchangeRateAtEpoch e = .ok initialExchangeRate) := by
  have hw := Dated.of_reach h
  constructor
  · intro a ha hle
    have hmin : a ≤ min (w.pool.deactivationEpoch.getD e) e := by
      refine le_min ?_ hle
      cases hd : w.pool.deactivationEpoch with
      | none => exact hle
      | some d => exact hw.closed a ha d hd
    obtain ⟨k, hk, hr⟩ := latest_isGreatest (hw.history.first a ha) hmin
    exact ⟨k, _, hk, hr, hw.history.lookup_eq e⟩
  · intro hlt
    unfold poolTokenExchangeRateAtEpoch
    cases ha : w.pool.activationEpoch with
    | none => rfl
    | some a => exact if_pos (hlt a ha)

/-- An epoch of safe mode leaves a gap, and the rate before it is returned. -/
theorem lookup_isGreatest_gap :
    ∃ w : World, w.pool.exchangeRates 2 = none ∧ (w.pool.exchangeRates 3).isSome ∧
      ∃ k rate, IsGreatest {i | i ≤ min (w.pool.deactivationEpoch.getD 2) 2 ∧
          (w.pool.exchangeRates i).isSome} k ∧ w.pool.exchangeRates k = some rate ∧
        w.pool.poolTokenExchangeRateAtEpoch 2 = .ok rate := by
  have hr : schedule.Reach (fun w t => t.Legal w) _ :=
    .step .endEpoch (.step .skipEpoch (.step .endEpoch
      (.step (.genesis [1000000000]) (.init blank_fresh) ⟨rfl, rfl, rfl⟩ rfl)
      ⟨rfl, rfl⟩ rfl) trivial rfl) ⟨rfl, rfl⟩ rfl
  exact ⟨_, rfl, rfl, (lookup_isGreatest hr 2).1 0 rfl (Nat.zero_le 2)⟩

end OneChain.System
