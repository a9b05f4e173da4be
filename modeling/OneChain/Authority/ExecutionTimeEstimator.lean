import Mathlib.Data.Prod.Lex
import OneChain.Lib.WeightedRank

/-!
# The stake-weighted median of execution times

`execution_time_estimator.rs` estimates a command by the median of what the authorities observed,
by their stake. A minority of the observing stake cannot move the estimate out of the range of the
others.
-/

namespace OneChain.Authority

open Lib List

/-- The observations of the authorities by index, each with its generation, and the cached value. -/
structure ConsensusObservations (n : ℕ) where
  observations : Fin n → ℕ × Option ℕ
  stakeWeightedMedian : Option ℕ

namespace ConsensusObservations

variable {n : ℕ} (self : ConsensusObservations n) (stakeByIndex : Fin n → ℕ)

/-- The durations that were observed, with their observers. -/
def observed : List (ℕ × Fin n) :=
  (finRange n).filterMap fun i => (self.observations i).2.map fun duration => (duration, i)

/-- The stake of the observers that satisfy `p`. -/
def stakeOf (p : ℕ × Fin n → Bool) : ℕ := tally (stakeByIndex ·.2) (self.observed.filter p)

def stakeWithObservations : ℕ := tally (stakeByIndex ·.2) self.observed

def sortedObservations : List (ℕ × Fin n) :=
  self.observed.insertionSort fun a b => toLex a ≤ toLex b

/-- The loop over the sorted observations; it leaves the cached value if it does not stop. -/
def medianLoop : Option ℕ :=
  scan (self.stakeWithObservations stakeByIndex / 2 < ·) self.stakeWeightedMedian 0
    (self.sortedObservations.map fun e => (some e.1, stakeByIndex e.2))

def updateStakeWeightedMedian (threshold : ℕ) : ConsensusObservations n :=
  if self.stakeWithObservations stakeByIndex < threshold then
    { self with stakeWeightedMedian := none }
  else { self with stakeWeightedMedian := self.medianLoop stakeByIndex }

/-- With observing stake, the loop finds the median. -/
theorem medianLoop_eq (hpos : 0 < self.stakeWithObservations stakeByIndex) :
    ∃ m, IsMedian Prod.fst (stakeByIndex ·.2) self.observed m ∧
      self.medianLoop stakeByIndex = some m := by
  set l := self.sortedObservations.map fun e => (e.1, stakeByIndex e.2) with hl
  have hperm : l.Perm (self.observed.map fun e => (e.1, stakeByIndex e.2)) :=
    (perm_insertionSort _ _).map _
  have hsorted : l.Pairwise fun a b => a.1 ≤ b.1 := by
    rw [hl, pairwise_map]
    exact (pairwise_insertionSort (fun a b => toLex a ≤ toLex b) self.observed).imp fun h =>
      (Prod.Lex.toLex_le_toLex'.1 h).1
  have hlt : self.stakeWithObservations stakeByIndex / 2 < tally (stakeByIndex ·.2) self.observed :=
    Nat.div_lt_self hpos Nat.one_lt_two
  refine ⟨scan (self.stakeWithObservations stakeByIndex / 2 < ·) 0 0 l, fun s => ?_, ?_⟩
  · exact (scan_items (fun _ _ hab ha => ha.trans_le hab) hsorted hperm (Nat.not_lt_zero _) hlt
      s).symm
  · rw [← scan_map some (Nat.not_lt_zero _) (by rwa [tally_perm hperm, tally_map, Nat.zero_add]),
      hl, map_map]
    rfl

/-- **The median resists a minority.** There is one exactly if the observing stake reaches the
threshold. It was observed, at most half of the observing stake is on either side of it, and it
lies between two observations of any set that has more than half of the observing stake. -/
theorem stakeWeightedMedian_spec {threshold : ℕ} (hthreshold : 0 < threshold) :
    ((self.updateStakeWeightedMedian stakeByIndex threshold).stakeWeightedMedian.isSome ↔
      threshold ≤ self.stakeWithObservations stakeByIndex) ∧
    ∀ m, (self.updateStakeWeightedMedian stakeByIndex threshold).stakeWeightedMedian = some m →
      (∃ i, (self.observations i).2 = some m) ∧
      2 * self.stakeOf stakeByIndex (·.1 < m) ≤ self.stakeWithObservations stakeByIndex ∧
      2 * self.stakeOf stakeByIndex (m < ·.1) ≤ self.stakeWithObservations stakeByIndex ∧
      ∀ p : Fin n → Bool,
        self.stakeWithObservations stakeByIndex < 2 * self.stakeOf stakeByIndex (p ·.2) →
        (∃ i d, p i ∧ (self.observations i).2 = some d ∧ d ≤ m) ∧
          ∃ i d, p i ∧ (self.observations i).2 = some d ∧ m ≤ d := by
  have hobs : ∀ e ∈ self.observed, (self.observations e.2).2 = some e.1 := by
    intro e he
    obtain ⟨i, _, hi⟩ := mem_filterMap.1 he
    obtain ⟨d, hd, rfl⟩ := Option.map_eq_some_iff.1 hi
    exact hd
  unfold updateStakeWeightedMedian
  by_cases hlow : self.stakeWithObservations stakeByIndex < threshold
  · simp [hlow]
  · obtain ⟨m, hm, hloop⟩ := self.medianLoop_eq stakeByIndex (by omega)
    simp only [if_neg hlow, hloop]
    refine ⟨iff_of_true rfl (not_lt.1 hlow), ?_⟩
    rintro _ ⟨⟩
    obtain ⟨e, he, rfl⟩ := hm.exists_eq
    refine ⟨⟨e.2, hobs e he⟩, hm.below, hm.above, fun p hp => ?_⟩
    obtain ⟨⟨i, hi, hpi, hle⟩, j, hj, hpj, hge⟩ := hm.between hp
    exact ⟨⟨i.2, i.1, hpi, hobs i hi, hle⟩, j.2, j.1, hpj, hobs j hj, hge⟩

/-- Three of four authorities have observed a command. -/
def threeObservations : ConsensusObservations 4 :=
  ⟨![(1, some 7), (1, none), (2, some 900), (1, some 9)], none⟩

theorem stakeWeightedMedian_spec_three :
    (threeObservations.updateStakeWeightedMedian (fun _ => 2500) 5000).stakeWeightedMedian =
        some 9 ∧ ∃ i, (threeObservations.observations i).2 = some 9 := by
  have h : (threeObservations.updateStakeWeightedMedian (fun _ => 2500)
      5000).stakeWeightedMedian = some 9 := by decide
  exact ⟨h, ((threeObservations.stakeWeightedMedian_spec _ (by decide)).2 9 h).1⟩

end ConsensusObservations

end OneChain.Authority
