import Mathlib.Algebra.BigOperators.Fin
import OneChain.Lib.Tally

/-!
# Weighted order statistics

Values carry weights. `scan` goes through a sorted list and stops where the weight so far passes a
test. The value that it finds is the first one up to which the list weighs enough (`scan_spec`), so
it does not depend on the order of equal values.
-/

namespace OneChain.Lib

open List

variable {α : Type} {rel : α → α → Prop} [DecidableRel rel] [IsTrans α rel] {pass : ℕ → Prop}
  [DecidablePred pass] {l : List (α × ℕ)}

/-- The value at which the weight so far passes the test, or `last` if it never does. -/
def scan (pass : ℕ → Prop) [DecidablePred pass] (last : α) : ℕ → List (α × ℕ) → α
  | _, [] => last
  | sum, (a, weight) :: l =>
    if pass (sum + weight) then a else scan pass last (sum + weight) l

section

variable (hm : ∀ a b, a ≤ b → pass a → pass b)
include hm

section

variable (hl : l.Pairwise fun a b => rel a.1 b.1)
include hl

variable {last : α}

/-- **The first value up to which the list weighs enough.** -/
theorem scan_spec {sum : ℕ} (hsum : ¬ pass sum) (ht : pass (sum + tally Prod.snd l)) (s : α) :
    pass (sum + tally Prod.snd (l.filter fun e => rel e.1 s)) ↔ rel (scan pass last sum l) s := by
  induction l generalizing sum with
  | nil => exact absurd ht hsum
  | cons e l ih =>
    obtain ⟨hf, hr⟩ := pairwise_cons.1 hl
    have hn : ¬ rel e.1 s → l.filter (fun e => rel e.1 s) = [] := fun hnot =>
      filter_eq_nil_iff.2 fun e' he' hrel =>
        hnot (IsTrans.trans _ _ _ (hf e' he') (of_decide_eq_true hrel))
    rw [tally_cons, ← Nat.add_assoc] at ht
    rw [scan]
    by_cases hp : pass (sum + e.2)
    · rw [if_pos hp]
      by_cases hrel : rel e.1 s
      · rw [filter_cons_of_pos (by simpa using hrel), tally_cons]
        exact iff_of_true (hm _ _ (by omega) hp) hrel
      · rw [filter_cons_of_neg (by simpa using hrel), hn hrel]
        exact iff_of_false hsum hrel
    · rw [if_neg hp, ← ih hr hp ht]
      by_cases hrel : rel e.1 s
      · rw [filter_cons_of_pos (by simpa using hrel), tally_cons, Nat.add_assoc]
      · rw [filter_cons_of_neg (by simpa using hrel), hn hrel]
        exact iff_of_false hsum hp

omit [DecidableRel rel] [IsTrans α rel] hm hl in
theorem scan_map {β : Type} (g : α → β) {last' : β} {sum : ℕ} (hsum : ¬ pass sum)
    (ht : pass (sum + tally Prod.snd l)) :
    scan pass last' sum (l.map fun e => (g e.1, e.2)) = g (scan pass last sum l) := by
  induction l generalizing sum with
  | nil => exact absurd ht hsum
  | cons e l ih =>
    rw [tally_cons, ← Nat.add_assoc] at ht
    rw [map_cons, scan, scan]
    by_cases hp : pass (sum + e.2)
    · rw [if_pos hp, if_pos hp]
    · rw [if_neg hp, if_neg hp, ih hp ht]

/-- The same for items with a value and a weight, put in order. -/
theorem scan_items {β : Type} {value : β → α} {weight : β → ℕ} {items : List β}
    (hp : l.Perm (items.map fun i => (value i, weight i))) (hz : ¬ pass 0)
    (ht : pass (tally weight items)) (s : α) :
    pass (tally weight (items.filter fun i => rel (value i) s)) ↔ rel (scan pass last 0 l) s := by
  have hf : tally Prod.snd (l.filter fun e => rel e.1 s) =
      tally weight (items.filter fun i => rel (value i) s) := by
    rw [tally_perm (hp.filter _), filter_map, tally_map]
    rfl
  have hto : pass (0 + tally Prod.snd l) := by
    rw [tally_perm hp, tally_map, Nat.zero_add]
    exact ht
  rw [← hf, ← scan_spec hm hl hz hto, Nat.zero_add]

/-- The same for `n` participants. -/
theorem scan_participants {n : ℕ} {value : Fin n → α} {weight : Fin n → ℕ}
    (hp : l.Perm ((finRange n).map fun i => (value i, weight i))) (hz : ¬ pass 0)
    (ht : pass (∑ i, weight i)) (s : α) :
    pass (∑ i with rel (value i) s, weight i) ↔ rel (scan pass last 0 l) s := by
  rw [← scan_items hm hl hp hz (by rwa [Fin.sum_univ_def] at ht), tally_filter, Finset.sum_filter,
    Fin.sum_univ_def]
  simp [tally]

end

end

/-! ## Medians -/

section Median

variable {β : Type} {value weight : β → ℕ} {items : List β} {m : ℕ}

/-- The first value up to which the items have more than half of the weight. -/
def IsMedian (value weight : β → ℕ) (items : List β) (m : ℕ) : Prop :=
  ∀ s, m ≤ s ↔ tally weight items / 2 < tally weight (items.filter (value · ≤ s))

variable (h : IsMedian value weight items m)
include h

theorem IsMedian.below : 2 * tally weight (items.filter (value · < m)) ≤ tally weight items := by
  cases m with
  | zero => simp
  | succ k =>
    have := (h k).2
    simp only [Nat.lt_succ_iff]
    omega

theorem IsMedian.above : 2 * tally weight (items.filter (m < value ·)) ≤ tally weight items := by
  have hsum := tally_filter_add weight (value · ≤ m) items
  have := (h m).1 le_rfl
  simp only [← decide_not, not_le] at hsum
  omega

/-- **A majority has the median between two of its values.** -/
theorem IsMedian.between {p : β → Bool}
    (hp : tally weight items < 2 * tally weight (items.filter p)) :
    (∃ i ∈ items, p i ∧ value i ≤ m) ∧ ∃ i ∈ items, p i ∧ m ≤ value i := by
  constructor
  · by_contra hn
    push Not at hn
    have hle := tally_filter_mono (f := weight) (q := (m < value ·)) fun i hi hpi =>
      decide_eq_true (hn i hi hpi)
    have := h.above
    omega
  · by_contra hn
    push Not at hn
    have hle := tally_filter_mono (f := weight) (q := (value · < m)) fun i hi hpi =>
      decide_eq_true (hn i hi hpi)
    have := h.below
    omega

theorem IsMedian.exists_eq : ∃ i ∈ items, value i = m := by
  have hm := (h m).1 le_rfl
  obtain ⟨_, i, hi, hle, hge⟩ := h.between (p := (value · ≤ m)) (by omega)
  exact ⟨i, hi, le_antisymm (of_decide_eq_true hle) hge⟩

end Median

end OneChain.Lib
