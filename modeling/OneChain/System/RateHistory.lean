import OneChain.Lib.Tally
import OneChain.System.StakingPool
import Mathlib.Algebra.BigOperators.Intervals
import Mathlib.Algebra.Order.BigOperators.Group.Finset

/-!
# The exchange rates of past epochs

`poolTokenExchangeRateAtEpoch` walks down the table of rates until it finds an entry. On the
tables that a pool really has, which start with the initial rate at the activation epoch, the
walk returns `latest`: the last entry at or before the epoch. Entering the rate of a new epoch
does not change what earlier epochs see, and this is why a receipt is worth the same number of
pool tokens for as long as it is held.

* `lookup_eq` — the walk computes `latest`.
* `mint_room` — tokens minted in one division leave room for the tokens of the new receipts.
-/

namespace OneChain.System

open Lib Move PoolTokenExchangeRate Finset Table StakingPool

/-! ## The latest entry -/

/-- The last entry at or before an epoch, the initial rate if there is none. -/
def latest (rates : Table ℕ PoolTokenExchangeRate) : ℕ → PoolTokenExchangeRate
  | 0 => (rates 0).getD initialExchangeRate
  | epoch + 1 => (rates (epoch + 1)).getD (latest rates epoch)

section Latest

variable {rates : Table ℕ PoolTokenExchangeRate} {rate : PoolTokenExchangeRate} {a e k : ℕ}

theorem latest_of_entry (h : rates e = some rate) : latest rates e = rate := by
  cases e with
  | zero => simp [latest, h]
  | succ e => simp [latest, h]

theorem latest_of_none (h : ∀ i ≤ e, rates i = none) : latest rates e = initialExchangeRate := by
  induction e with
  | zero => simp [latest, h 0 le_rfl]
  | succ e ih =>
    rw [latest, h (e + 1) le_rfl]
    exact ih fun i hi => h i (by omega)

theorem latest_set_of_lt (h : e < k) : latest (rates.set k rate) e = latest rates e := by
  induction e with
  | zero => rw [latest, latest, set_of_ne _ _ (by omega)]
  | succ e ih => rw [latest, latest, set_of_ne _ _ (by omega), ih (by omega)]

theorem latest_set_self : latest (rates.set k rate) k = rate := latest_of_entry (set_self _ _ _)

/-- An initial rate in an empty table is seen by nobody. -/
theorem latest_set_initial (h : ∀ i, rates i = none) :
    latest (rates.set k initialExchangeRate) e = initialExchangeRate := by
  induction e with
  | zero =>
    by_cases hk : 0 = k
    · exact latest_of_entry (by rw [← hk]; exact set_self _ _ _)
    · rw [latest, set_of_ne _ _ hk, h 0, Option.getD_none]
  | succ e ih =>
    by_cases hk : e + 1 = k
    · exact latest_of_entry (by rw [← hk]; exact set_self _ _ _)
    · rw [latest, set_of_ne _ _ hk, h (e + 1), Option.getD_none, ih]

/-- The walk stops at the latest entry if there is one at the activation epoch. -/
theorem searchRate_eq_latest (hf : rates a = some rate) (ha : a ≤ e) :
    StakingPool.searchRate rates a e = .ok (latest rates e) := by
  induction e with
  | zero =>
    obtain rfl : a = 0 := by omega
    simp [searchRate, latest, hf]
  | succ e ih =>
    rw [searchRate, if_pos ha, latest]
    cases he : rates (e + 1) with
    | some r => rfl
    | none =>
      have hlt : a ≤ e := by
        rcases Nat.lt_or_ge a (e + 1) with hlt | hge
        · omega
        · obtain rfl : a = e + 1 := by omega
          rw [he] at hf
          cases hf
      exact ih hlt

theorem searchRate_of_lt (h : e < a) :
    StakingPool.searchRate rates a e = .ok initialExchangeRate := by
  cases e with
  | zero | succ e => rw [searchRate, if_neg (by omega)]

end Latest

/-! ## The table of a pool -/

/-- The table of rates of a pool in `epoch`: empty before activation, then from the initial rate
at the activation epoch up to the current epoch. -/
structure RateHistory (pool : StakingPool) (epoch : ℕ) : Prop where
  empty : pool.activationEpoch = none → ∀ e, pool.exchangeRates e = none
  first : ∀ a, pool.activationEpoch = some a → pool.exchangeRates a = some initialExchangeRate
  started : ∀ a, pool.activationEpoch = some a → a ≤ epoch
  within : ∀ a e r, pool.activationEpoch = some a → pool.exchangeRates e = some r →
    a ≤ e ∧ e ≤ epoch

namespace RateHistory

variable {pool pool' : StakingPool} {epoch : ℕ}

theorem new (id : ID) (epoch : ℕ) : RateHistory (StakingPool.new id) epoch where
  empty _ _ := rfl
  first _ h := nomatch h
  started _ h := nomatch h
  within _ _ _ h := nomatch h

variable (h : RateHistory pool epoch)

include h

theorem of_eq (ha : pool'.activationEpoch = pool.activationEpoch)
    (hr : pool'.exchangeRates = pool.exchangeRates) : RateHistory pool' epoch := by
  constructor
  · rw [ha, hr]
    exact h.empty
  · rw [ha, hr]
    exact h.first
  · rw [ha]
    exact h.started
  · rw [ha, hr]
    exact h.within

theorem nextEpoch : RateHistory pool (epoch + 1) where
  empty := h.empty
  first := h.first
  started a ha := (h.started a ha).trans (Nat.le_succ _)
  within a e r ha he := ⟨(h.within a e r ha he).1, (h.within a e r ha he).2.trans (Nat.le_succ _)⟩

theorem next_none : pool.exchangeRates (epoch + 1) = none := by
  cases ha : pool.activationEpoch with
  | none => exact h.empty ha _
  | some a =>
    cases he : pool.exchangeRates (epoch + 1) with
    | none => rfl
    | some r =>
      have := (h.within a _ r ha he).2
      omega

theorem withRate (hpre : pool.isPreactive = false) :
    RateHistory (pool.withRate (epoch + 1)) (epoch + 1) := by
  have hne : pool.activationEpoch ≠ none := by
    intro hn
    simp [isPreactive, hn] at hpre
  constructor
  · intro hn
    exact absurd hn hne
  · intro a ha
    have hle := h.started a ha
    exact (set_of_ne _ _ (by omega)).trans (h.first a ha)
  · intro a ha
    exact (h.started a ha).trans (Nat.le_succ _)
  · intro a e r ha he
    by_cases hk : e = epoch + 1
    · have := h.started a ha
      omega
    · have hold : pool.exchangeRates e = some r := (set_of_ne _ _ hk).symm.trans he
      have := h.within a e r ha hold
      omega

theorem activate (hpre : pool.isPreactive = true) : RateHistory (pool.activated epoch) epoch := by
  have hem : ∀ e, pool.exchangeRates e = none := h.empty (by simpa [isPreactive] using hpre)
  constructor
  · intro hn
    cases hn
  · intro a ha
    obtain rfl := Option.some.inj ha
    exact set_self _ _ _
  · intro a ha
    exact (Option.some.inj ha).symm.le
  · intro a e r ha he
    obtain rfl := Option.some.inj ha
    by_cases hk : e = epoch
    · omega
    · have hold : pool.exchangeRates e = some r := (set_of_ne _ _ hk).symm.trans he
      rw [hem e] at hold
      cases hold

/-- **The walk finds the latest entry**, clamped to the epoch of deactivation. -/
theorem lookup_eq (e : ℕ) : pool.poolTokenExchangeRateAtEpoch e =
      .ok (latest pool.exchangeRates (min (pool.deactivationEpoch.getD e) e)) := by
  unfold poolTokenExchangeRateAtEpoch
  cases hac : pool.activationEpoch with
  | none => rw [latest_of_none fun i _ => h.empty hac i]
  | some a =>
    have hbef : ∀ i < a, pool.exchangeRates i = none := by
      intro i hi
      cases he : pool.exchangeRates i with
      | none => rfl
      | some r =>
        have := (h.within a i r hac he).1
        omega
    simp only
    split
    · rename_i hlt
      rw [latest_of_none fun i hi => hbef i (by omega)]
    · by_cases ha : a ≤ min (pool.deactivationEpoch.getD e) e
      · exact searchRate_eq_latest (h.first a hac) ha
      · rw [latest_of_none fun i hi => hbef i (by omega)]
        exact searchRate_of_lt (by omega)

end RateHistory

/-! ## Minting -/

theorem tokens_even (n a : ℕ) : tokens ⟨n, n⟩ a = a := by
  rcases Nat.eq_zero_or_pos n with rfl | hn
  · exact tokens_initial a
  · rw [tokens, if_neg (by simp only; omega), share_comm]
    exact share_self a hn

/-- **Room for the new receipts.** A pool with balance `s` and `t` tokens, of which at most `x` are
claimed, mints for a growth `d` in one division. The tokens of the growth at the new rate fit
next to the old claims. -/
theorem mint_room {x s t d : ℕ} (hx : x ≤ t) (hd : s = 0 → x = 0) :
    x + tokens ⟨s + d, tokens ⟨s, t⟩ (s + d)⟩ d ≤ tokens ⟨s, t⟩ (s + d) := by
  by_cases hz : s = 0 ∨ t = 0
  · have hx0 : x = 0 := by
      rcases hz with hs | ht
      · exact hd hs
      · omega
    have ht' : tokens ⟨s, t⟩ (s + d) = s + d := if_pos hz
    rw [ht', tokens_even]
    omega
  · have ht' : tokens ⟨s, t⟩ (s + d) = share t (s + d) s := if_neg hz
    have hg := share_growth_le (a := t) (c := s) (d := d) (by omega)
    rw [ht', tokens, if_neg (by simp only; omega)]
    simp only
    omega

/-- The new balances stand at the rate that is entered for them. -/
theorem tokens_mint {s t d : ℕ} :
    tokens ⟨s + d, tokens ⟨s, t⟩ (s + d)⟩ (s + d) = tokens ⟨s, t⟩ (s + d) := by
  by_cases hz : s = 0 ∨ t = 0
  · have ht' : tokens ⟨s, t⟩ (s + d) = s + d := if_pos hz
    rw [ht', tokens_even]
  · have ht' : tokens ⟨s, t⟩ (s + d) = share t (s + d) s := if_neg hz
    have hg := share_growth_le (a := t) (c := s) (d := d) (by omega)
    rw [tokens, if_neg (by simp only; omega)]
    exact share_self _ (by omega)

/-! ## The tokens of all receipts -/

/-- The principals of the receipts that became active in epoch `a`. -/
def principalAt (a : ℕ) (staked : List StakedOct) : ℕ :=
  tally (fun s => if s.stakeActivationEpoch = a then s.principal else 0) staked

/-- What the receipts of the epochs before `n` are worth, epoch by epoch: receipts of one epoch
can be joined, so they count together. -/
def claimed (rates : Table ℕ PoolTokenExchangeRate) (n : ℕ) (staked : List StakedOct) : ℕ :=
  ∑ a ∈ Finset.range n, (latest rates a).tokens (principalAt a staked)

section Claimed

variable {rates : Table ℕ PoolTokenExchangeRate} {n a : ℕ} {staked staked' : List StakedOct}
  {s other : StakedOct}

theorem principalAt_erase (h : s ∈ staked) :
    principalAt a (staked.erase s) + (if s.stakeActivationEpoch = a then s.principal else 0)
      = principalAt a staked :=
  tally_erase_add h

theorem principalAt_cons : principalAt a (s :: staked) =
      (if s.stakeActivationEpoch = a then s.principal else 0) + principalAt a staked :=
  tally_cons

theorem claimed_congr (h : ∀ a < n, principalAt a staked' = principalAt a staked) :
    claimed rates n staked' = claimed rates n staked :=
  sum_congr rfl fun a ha => by rw [h a (mem_range.1 ha)]

theorem claimed_erase (rates : Table ℕ PoolTokenExchangeRate) (h : s ∈ staked)
    (hn : s.stakeActivationEpoch < n) :
    claimed rates n (staked.erase s)
      + (latest rates s.stakeActivationEpoch).tokens s.principal ≤ claimed rates n staked := by
  have hp : ∀ a ∈ range n, (latest rates a).tokens (principalAt a (staked.erase s)) +
        (if s.stakeActivationEpoch = a then (latest rates a).tokens s.principal else 0) ≤
      (latest rates a).tokens (principalAt a staked) := by
    intro a _
    rw [← principalAt_erase h]
    by_cases ha : s.stakeActivationEpoch = a
    · rw [if_pos ha, if_pos ha]
      exact tokens_add_le _ _ _
    · rw [if_neg ha, if_neg ha, Nat.add_zero, Nat.add_zero]
  have hsum := sum_le_sum hp
  rw [sum_add_distrib, sum_ite_eq, if_pos (mem_range.2 hn)] at hsum
  exact hsum

theorem claimed_split {amount : ℕ} (h : s ∈ staked) (hle : amount ≤ s.principal) :
    claimed rates n ({ s with principal := s.principal - amount } ::
      { s with principal := amount } :: staked.erase s) = claimed rates n staked := by
  refine claimed_congr fun a _ => ?_
  have he := principalAt_erase (a := a) h
  simp only [principalAt_cons]
  split at he <;> split <;> omega

theorem claimed_join (hs : s ∈ staked) (ho : other ∈ staked.erase s)
    (hact : s.stakeActivationEpoch = other.stakeActivationEpoch) :
    claimed rates n ({ s with principal := s.principal + other.principal } ::
      (staked.erase s).erase other) = claimed rates n staked := by
  refine claimed_congr fun a _ => ?_
  have h₁ := principalAt_erase (a := a) hs
  have h₂ := principalAt_erase (a := a) ho
  rw [hact] at h₁
  simp only [principalAt_cons, hact]
  by_cases ha : other.stakeActivationEpoch = a
  · simp only [if_pos ha] at h₁ h₂ ⊢
    omega
  · simp only [if_neg ha] at h₁ h₂ ⊢
    omega

/-- At the initial rate the receipts are worth their principals. -/
theorem claimed_initial (hr : ∀ a < n, latest rates a = initialExchangeRate)
    (hn : ∀ s ∈ staked, s.stakeActivationEpoch < n) :
    claimed rates n staked = tally (·.principal) staked := by
  have he : claimed rates n staked = ∑ a ∈ range n, principalAt a staked :=
    sum_congr rfl fun a ha => by rw [hr a (mem_range.1 ha), tokens_initial]
  rw [he]
  clear he
  induction staked with
  | nil => simp [principalAt]
  | cons s staked ih =>
    have hs : s.stakeActivationEpoch < n := hn s List.mem_cons_self
    simp only [principalAt_cons, sum_add_distrib, tally_cons]
    rw [ih fun t ht => hn t (List.mem_cons_of_mem _ ht), sum_ite_eq, if_pos (mem_range.2 hs)]

/-- Receipts one by one are worth at most what they are worth epoch by epoch. -/
theorem tally_tokens_le (rates : Table ℕ PoolTokenExchangeRate)
    (hn : ∀ s ∈ staked, s.stakeActivationEpoch < n) :
    tally (fun s => (latest rates s.stakeActivationEpoch).tokens s.principal) staked ≤
      claimed rates n staked := by
  induction staked with
  | nil => simp
  | cons s staked ih =>
    have hr := ih fun t ht => hn t (List.mem_cons_of_mem _ ht)
    have hmem : s ∈ s :: staked := List.mem_cons_self
    have hs := claimed_erase rates hmem (hn s hmem)
    rw [List.erase_cons_head] at hs
    rw [tally_cons]
    omega

end Claimed

end OneChain.System
