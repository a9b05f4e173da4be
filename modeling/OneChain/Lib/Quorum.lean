import Mathlib.Algebra.Order.BigOperators.Group.Finset
import Mathlib.Data.Fintype.BigOperators

/-!
# Quorums by weight

Participants carry weights. A set of participants is a quorum when it weighs at least `q`, and
`q` is large against the total and the weight of the faulty participants: `w(all) + w(faulty)` is
less than `2q`. Two quorums then share a participant that is not faulty (`Quorums.inter`).
-/

namespace OneChain.Lib

variable {ι : Type*} [Fintype ι] [DecidableEq ι]

/-- Weights, a threshold and the faulty participants, light enough for quorums to meet. -/
structure Quorums (ι : Type*) [Fintype ι] where
  weight : ι → ℕ
  threshold : ℕ
  faulty : Finset ι
  light : (∑ i, weight i) + ∑ i ∈ faulty, weight i < 2 * threshold

namespace Quorums

variable {Q : Quorums ι} {s t : Finset ι}

/-- The set weighs at least the threshold. -/
def Quorum (Q : Quorums ι) (s : Finset ι) : Prop := Q.threshold ≤ ∑ i ∈ s, Q.weight i

/-- **Two quorums meet outside the faulty participants.** -/
theorem Quorum.inter (hs : Q.Quorum s) (ht : Q.Quorum t) : ∃ i ∈ s, i ∈ t ∧ i ∉ Q.faulty := by
  have hu : ∑ i ∈ s ∪ t, Q.weight i ≤ ∑ i, Q.weight i :=
    Finset.sum_le_sum_of_subset (Finset.subset_univ _)
  have hsum : ∑ i ∈ s ∪ t, Q.weight i + ∑ i ∈ s ∩ t, Q.weight i =
      ∑ i ∈ s, Q.weight i + ∑ i ∈ t, Q.weight i := Finset.sum_union_inter
  have hl := Q.light
  unfold Quorum at hs ht
  have hh : ∑ i ∈ Q.faulty, Q.weight i < ∑ i ∈ s ∩ t, Q.weight i := by omega
  by_contra hn
  push Not at hn
  have hsub : s ∩ t ⊆ Q.faulty := fun i hi =>
    hn i (Finset.mem_of_mem_inter_left hi) (Finset.mem_of_mem_inter_right hi)
  exact absurd (Finset.sum_le_sum_of_subset hsub) (not_le.2 hh)

end Quorums

end OneChain.Lib
