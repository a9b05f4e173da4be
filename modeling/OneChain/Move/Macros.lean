import OneChain.Move.Basic
import Mathlib.Data.Nat.Sqrt

/-!
# The square root of the standard library

`num_sqrt` finds the digits of a root one by one in a type twice as wide as its argument. An
unsigned type is its number of bits, and what the virtual machine checks in it is checked here.
-/

namespace OneChain.Move

open Lib

def castTo (T a : ℕ) : Call ℕ := if a < 2 ^ T then .ok a else .error .overflow

/-- `1 << n`, which loses what does not fit and refuses to shift by the whole width. -/
def shlOne (U n : ℕ) : Call ℕ := if n < U then .ok (2 ^ n % 2 ^ U) else .error .overflow

/-- The `while` loop of `num_sqrt`. -/
def numSqrtLoop (U bit res x : ℕ) : Call ℕ :=
  if bit = 0 then .ok res
  else do
    let trial ← castTo U (res + bit)
    if trial ≤ x then
      let res ← castTo U ((res >>> 1) + bit)
      numSqrtLoop U (bit >>> 2) res (x - trial)
    else numSqrtLoop U (bit >>> 2) (res >>> 1) x
termination_by bit
decreasing_by all_goals simp only [Nat.shiftRight_eq_div_pow]; omega

def numSqrt (T U x bitsize : ℕ) : Call ℕ := do
  let bit ← shlOne U bitsize
  let x ← castTo U x
  let res ← numSqrtLoop U bit 0 x
  castTo T res

/-- The types whose modules have a `sqrt`. -/
inductive Width
  | u8 | u16 | u32 | u64 | u128

def Width.bits : Width → ℕ
  | .u8 => 8
  | .u16 => 16
  | .u32 => 32
  | .u64 => 64
  | .u128 => 128

def sqrt (x : ℕ) : Width → Call ℕ
  | .u8 => numSqrt 8 16 x 8
  | .u16 => numSqrt 16 32 x 16
  | .u32 => numSqrt 32 64 x 32
  | .u64 => numSqrt 64 128 x 64
  | .u128 => numSqrt 128 256 x 128

theorem castTo_of {T a : ℕ} (h : a < 2 ^ T) : castTo T a = .ok a := if_pos h

theorem four_pow (s : ℕ) : 4 ^ s = 2 ^ s * 2 ^ s := mul_pow 2 2 s

variable {m n x a : ℕ}

/-- A trial stays within the wider type: the root has `m` binary digits, its square `2 * m`. -/
theorem trial_lt {s : ℕ} (hm : 0 < m) (hs : s ≤ m) (hn : n < 4 ^ m) (ha : a * a ≤ n) :
    a * 2 ^ (s + 1) + 4 ^ s < 2 ^ (4 * m) := by
  have ham : a < 2 ^ m := Nat.mul_self_lt_mul_self_iff.1 (four_pow m ▸ ha.trans_lt hn)
  have hpow : 2 ^ s ≤ 2 ^ m := Nat.pow_le_pow_right two_pos hs
  calc a * 2 ^ (s + 1) + 4 ^ s
      = a * 2 ^ s * 2 + 2 ^ s * 2 ^ s := by rw [four_pow, pow_succ, mul_assoc]
    _ < 2 ^ m * 2 ^ m * 2 + 2 ^ m * 2 ^ m * 2 := by
      have := Nat.mul_lt_mul_of_lt_of_le ham hpow (by positivity)
      have := Nat.mul_le_mul hpow hpow
      omega
    _ = 4 ^ m * 4 := by rw [four_pow]; omega
    _ ≤ 4 ^ m * 4 ^ m := Nat.mul_le_mul_left _ (Nat.le_self_pow hm.ne' 4)
    _ = 2 ^ (4 * m) := by rw [← mul_pow, pow_mul]; rfl

/-- With `s` digits to find, `res` is the root `a` found so far, scaled by `2 ^ s`, and `x` is
what `a * a` leaves of `n`. -/
theorem numSqrtLoop_eq (hm : 0 < m) (hn : n < 4 ^ m) {s : ℕ} (hs : s ≤ m + 1)
    (hx : a * a + x = n) (hlt : n < (a + 2 ^ s) * (a + 2 ^ s)) :
    numSqrtLoop (4 * m) (4 ^ s / 4) (a * 2 ^ s) x = .ok n.sqrt := by
  induction s generalizing a x with
  | zero =>
    rw [numSqrtLoop, if_pos (by decide), pow_zero, mul_one]
    exact congrArg _ (Nat.eq_sqrt.2 ⟨by omega, hlt⟩)
  | succ s ih =>
    have htrial := trial_lt hm (by omega : s ≤ m) hn (by omega : a * a ≤ n)
    have hhalf : (a * 2 ^ (s + 1)) >>> 1 = a * 2 ^ s := by
      rw [pow_succ, ← mul_assoc]
      exact Nat.mul_div_cancel _ two_pos
    have hsq : (a + 2 ^ s) * (a + 2 ^ s) = a * a + (a * 2 ^ (s + 1) + 4 ^ s) := by
      rw [four_pow]
      ring
    rw [numSqrtLoop, pow_succ 4, Nat.mul_div_cancel _ four_pos, if_neg (by positivity),
      castTo_of htrial, ok_bind, hhalf, Nat.shiftRight_eq_div_pow]
    split
    case isTrue hle =>
      have hres : a * 2 ^ s + 4 ^ s = (a + 2 ^ s) * 2 ^ s := by rw [four_pow, add_mul]
      rw [castTo_of (by omega), ok_bind, hres]
      refine ih (by omega) (by omega) ?_
      rwa [add_assoc, ← two_mul, ← pow_succ']
    case isFalse hgt => exact ih (by omega) hx (by omega)

theorem numSqrt_eq (hm : 0 < m) (hx : x < 2 ^ (2 * m)) :
    numSqrt (2 * m) (4 * m) x (2 * m) = .ok x.sqrt := by
  have hfour : 2 ^ (2 * m) = 4 ^ m := pow_mul 2 2 m
  have hwide : 2 ^ (2 * m) < 2 ^ (4 * m) := Nat.pow_lt_pow_right one_lt_two (by omega)
  have hstart : x < (0 + 2 ^ (m + 1)) * (0 + 2 ^ (m + 1)) := by
    rw [zero_add, ← mul_pow, pow_succ]
    exact (hfour ▸ hx).trans_le (Nat.le_mul_of_pos_right _ four_pos)
  have hloop := numSqrtLoop_eq hm (hfour ▸ hx) le_rfl (zero_add x) hstart
  rw [zero_mul, pow_succ, Nat.mul_div_cancel _ four_pos] at hloop
  rw [numSqrt, shlOne, if_pos (by omega), ok_bind, Nat.mod_eq_of_lt hwide,
    castTo_of (hx.trans hwide), ok_bind, hfour, hloop]
  exact castTo_of ((Nat.sqrt_le_self x).trans_lt hx)

/-- Every `sqrt` returns the one number whose square is the last not above its argument. -/
theorem sqrt_floor (w : Width) (x : Fin (2 ^ w.bits)) :
    ∃ r, sqrt x w = .ok r ∧ ∀ s : ℕ, s * s ≤ x ∧ x < (s + 1) * (s + 1) ↔ s = r := by
  refine ⟨x.val.sqrt, ?_, fun s => Nat.eq_sqrt.symm⟩
  cases w with
  | u8 => exact numSqrt_eq (m := 4) (by decide) x.isLt
  | u16 => exact numSqrt_eq (m := 8) (by decide) x.isLt
  | u32 => exact numSqrt_eq (m := 16) (by decide) x.isLt
  | u64 => exact numSqrt_eq (m := 32) (by decide) x.isLt
  | u128 => exact numSqrt_eq (m := 64) (by decide) x.isLt

end OneChain.Move
