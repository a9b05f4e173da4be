import Mathlib.Tactic.Ring
import Mathlib.Tactic.Linarith
import Mathlib.Algebra.BigOperators.Group.Finset.Basic

/-!
# Proportions rounded down

`a * b / c` on naturals: the share that `b` units of a total `c` have in an amount `a`, rounded
down. Shares of parts never add up to more than the share of the whole, and minting `a'` out of
`a` in proportion to a growth from `c` to `c + d` leaves room for the share of the growth.
-/

namespace OneChain.Lib

/-- The share of `b` in `a`, out of `c`, rounded down. -/
def share (a b c : ℕ) : ℕ := a * b / c

@[simp] theorem share_zero (a c : ℕ) : share a 0 c = 0 := by simp [share]

variable {a c : ℕ}

theorem share_self (a : ℕ) (hc : 0 < c) : share a c c = a := Nat.mul_div_cancel a hc

theorem share_comm (a b c : ℕ) : share a b c = share b a c := by
  rw [share, share, Nat.mul_comm]

/-- **Shares of parts.** Splitting `b + b'` loses at most what rounding drops. -/
theorem share_add_le (a b b' c : ℕ) : share a b c + share a b' c ≤ share a (b + b') c := by
  unfold share
  rw [Nat.mul_add]
  exact Nat.div_add_div_le_add_div

theorem share_le_of_le {b : ℕ} (h : b ≤ c) : share a b c ≤ a := by
  rcases Nat.eq_zero_or_pos c with rfl | hc
  · simp [share]
  · exact Nat.div_le_of_le_mul (by rw [Nat.mul_comm c]; exact Nat.mul_le_mul_left a h)

/-- A proper part of a positive amount has a proper share. -/
theorem share_lt {b : ℕ} (ha : 0 < a) (h : b < c) : share a b c < a := by
  refine Nat.div_lt_of_lt_mul ?_
  rw [Nat.mul_comm c]
  exact Nat.mul_lt_mul_of_pos_left h ha

/-- **Minting in proportion.** If `a'` is `a` scaled from `c` to `c + d` and rounded down, then
the share of the growth `d` in `a'` fits into what was minted on top of `a`. -/
theorem share_growth_le {d : ℕ} (hc : 0 < c) :
    a + share (share a (c + d) c) d (c + d) ≤ share a (c + d) c := by
  set a' := share a (c + d) c with ha'
  have hlow : a * (c + d) < (a' + 1) * c := by
    rw [Nat.mul_comm (_ + 1)]
    exact Nat.lt_mul_div_succ _ hc
  have hle : a ≤ a' := by
    rw [ha', share, Nat.le_div_iff_mul_le hc]
    exact Nat.mul_le_mul_left a (Nat.le_add_right c d)
  have hs : share a' d (c + d) ≤ a' - a := by
    refine Nat.le_of_lt_succ (Nat.div_lt_of_lt_mul ?_)
    obtain ⟨k, hk⟩ := Nat.exists_eq_add_of_le hle
    rw [hk] at hlow ⊢
    rw [Nat.add_sub_cancel_left]
    nlinarith
  omega

/-- **Rounding a share of a share.** A total is the share of `c'` in `a`; `b` out of `c'` units get
their shares of its two parts. Together these are at most the share of `b` in `a`, and less by two
at most. -/
theorem share_parts {a b c c' p r : ℕ} (hc : 0 < c) (hc' : 0 < c') (hb : b ≤ c')
    (ht : p + r = share a c' c) :
    share b p c' + share b r c' ≤ share a b c ∧ share a b c ≤ share b p c' + share b r c' + 2 := by
  have hp := Nat.lt_mul_div_succ (b * p) hc'
  have hr := Nat.lt_mul_div_succ (b * r) hc'
  have hlow : share a c' c * c ≤ a * c' := Nat.div_mul_le_self ..
  have hh : a * c' < c * (share a c' c + 1) := Nat.lt_mul_div_succ _ hc
  rw [← ht] at hlow hh
  constructor
  · refine (share_add_le b p r c').trans ((Nat.le_div_iff_mul_le hc).2 ?_)
    have hq : share b (p + r) c' * c' ≤ b * (p + r) := Nat.div_mul_le_self ..
    refine Nat.le_of_mul_le_mul_right ?_ hc'
    calc share b (p + r) c' * c * c' = share b (p + r) c' * c' * c := Nat.mul_right_comm ..
      _ ≤ b * (p + r) * c := Nat.mul_le_mul_right c hq
      _ = b * ((p + r) * c) := Nat.mul_assoc ..
      _ ≤ b * (a * c') := Nat.mul_le_mul_left b hlow
      _ = a * b * c' := by ring
  · refine Nat.le_of_lt_succ (Nat.div_lt_of_lt_mul (Nat.lt_of_mul_lt_mul_right (a := c') ?_))
    calc a * b * c' = b * (a * c') := by ring
      _ ≤ b * (c * (p + r + 1)) := Nat.mul_le_mul_left b hh.le
      _ = c * (b * p + b * r + b) := by ring
      _ < c * (share b p c' + share b r c' + 2 + 1) * c' := by
        unfold share
        nlinarith

end OneChain.Lib
