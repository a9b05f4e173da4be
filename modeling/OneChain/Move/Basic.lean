import OneChain.Lib.Checked
import OneChain.Lib.Floor

/-!
# Move: aborts, 64-bit arithmetic, balances and tables

A Move call returns or aborts, and an abort undoes the call. Integers are naturals; every
operation that the virtual machine checks is checked here, and a subtraction names the quantity
it is taken from, so that a theorem can say *which* subtraction never goes below zero.
-/

namespace OneChain.Move

open Lib

/-! ## Aborts -/

/-- The modules whose abort codes are modelled. -/
inductive ModuleName
  | option | vector | ascii | balance | dynamicField | vecSet | vecMap | priorityQueue
  | stakingPool | validator | validatorSet | votingPower | validatorCap
  | supperCommittee | stakeSubsidy | systemStateInner | genesis | config | random
  deriving DecidableEq, Repr

/-- The quantities that are subtracted from. -/
inductive Quantity
  | suiBalance | poolTokenBalance | pendingStake | nextEpochStake | other
  deriving DecidableEq, Repr

/-- Why a call aborts. -/
inductive Abort
  | code (m : ModuleName) (n : ℕ)
  | overflow
  | underflow (q : Quantity)
  | divisionByZero
  /-- An input object of the transaction does not exist. -/
  | missingObject
  deriving DecidableEq, Repr

/-- A call that may abort. -/
abbrev Call := Except Abort

abbrev Address := ℕ

abbrev ID := ℕ

/-- A `vector<u8>`; a string is the vector of its bytes. -/
abbrev Bytes := List UInt8

def EOPTION_NOT_SET : Abort := .code .option 0x40001
def EINDEX_OUT_OF_BOUNDS : Abort := .code .vector 0x20000
def EInvalidASCIICharacter : Abort := .code .ascii 0x10000

/-- `to_ascii_string`: the bytes, if each is an ASCII character. -/
def toAsciiString (bytes : Bytes) : Call Bytes := do
  check (bytes.all fun b => b ≤ 127) EInvalidASCIICharacter
  return bytes

/-! ## 64-bit arithmetic -/

/-- One more than the largest `u64`. -/
def u64Bound : ℕ := 2 ^ 64

def castU64 (a : ℕ) : Call ℕ := if a < u64Bound then .ok a else .error .overflow

def addU64 (a b : ℕ) : Call ℕ := castU64 (a + b)

def subU64 (q : Quantity) (a b : ℕ) : Call ℕ :=
  if b ≤ a then .ok (a - b) else .error (.underflow q)

def divU64 (a b : ℕ) : Call ℕ := if b = 0 then .error .divisionByZero else .ok (a / b)

/-- The macro `mul_div!`: multiply and divide in 128 bits, then cast down. -/
def mulDiv (a b c : ℕ) : Call ℕ :=
  if c = 0 then .error .divisionByZero else castU64 (share a b c)

variable {a b c r : ℕ} {q : Quantity} {e : Abort}

@[simp] theorem castU64_ok : castU64 a = .ok r ↔ a < u64Bound ∧ r = a := by
  unfold castU64
  split <;> simp_all [eq_comm]

@[simp] theorem addU64_ok : addU64 a b = .ok r ↔ a + b < u64Bound ∧ r = a + b := castU64_ok

@[simp] theorem subU64_ok : subU64 q a b = .ok r ↔ b ≤ a ∧ r = a - b := by
  unfold subU64
  split <;> simp_all [eq_comm]

@[simp] theorem divU64_ok : divU64 a b = .ok r ↔ 0 < b ∧ r = a / b := by
  unfold divU64
  split <;> simp_all [eq_comm, Nat.pos_iff_ne_zero]

@[simp] theorem mulDiv_ok :
    mulDiv a b c = .ok r ↔ 0 < c ∧ share a b c < u64Bound ∧ r = share a b c := by
  unfold mulDiv
  split <;> simp_all [Nat.pos_iff_ne_zero]

theorem castU64_error (h : castU64 a = .error e) : e = .overflow := by
  unfold castU64 at h
  split at h
  · cases h
  · exact (Except.error.inj h).symm

theorem addU64_error (h : addU64 a b = .error e) : e = .overflow := castU64_error h

theorem mulDiv_error (hc : c ≠ 0) (h : mulDiv a b c = .error e) : e = .overflow := by
  rw [mulDiv, if_neg hc] at h
  exact castU64_error h

/-- Casts, sums and quotients never report an underflow. -/
@[simp] theorem castU64_ne_underflow : castU64 a ≠ .error (.underflow q) := fun h =>
  nomatch castU64_error h

@[simp] theorem addU64_ne_underflow : addU64 a b ≠ .error (.underflow q) := castU64_ne_underflow

@[simp] theorem mulDiv_ne_underflow : mulDiv a b c ≠ .error (.underflow q) := by
  unfold mulDiv
  split <;> simp

@[simp] theorem subU64_error : subU64 q a b = .error e ↔ a < b ∧ e = .underflow q := by
  unfold subU64
  split <;> simp_all [eq_comm]

/-! ## Balances

A `Balance` is its value. -/

namespace Balance

def ENotEnough : Abort := .code .balance 2

def join (self balance : ℕ) : Call ℕ := addU64 self balance

/-- What is left, and what was taken. -/
def split (self value : ℕ) : Call (ℕ × ℕ) := do
  check (value ≤ self) ENotEnough
  return (self - value, value)

@[simp] theorem join_ok {b r : ℕ} : join a b = .ok r ↔ a + b < u64Bound ∧ r = a + b := addU64_ok

@[simp] theorem split_ok {v : ℕ} {r : ℕ × ℕ} : split a v = .ok r ↔ v ≤ a ∧ r = (a - v, v) := by
  simp only [split, ok_iff]
  exact and_congr_right fun _ => eq_comm

@[simp] theorem join_ne_underflow {b : ℕ} : join a b ≠ .error (.underflow q) := addU64_ne_underflow

@[simp] theorem split_ne_underflow {v : ℕ} : split a v ≠ .error (.underflow q) := by
  simp [split, bind_error, ENotEnough]

end Balance

/-! ## Vesting -/

/-- A balance that is released in instalments. -/
structure CoinVesting where
  (total balance startEpoch cliffIntervalEpoch lastReleaseEpoch vestingIntervalEpoch : ℕ)
  vestingInternalRelease : ℕ
  deriving DecidableEq, Repr

def CoinVesting.newFormBalance
    (balance startEpoch cliffIntervalEpoch vestingIntervalEpoch period : ℕ) :
    Call CoinVesting := do
  let vestingInternalRelease ← divU64 balance period
  return {
    total := balance
    balance, startEpoch, cliffIntervalEpoch
    lastReleaseEpoch := 0
    vestingIntervalEpoch, vestingInternalRelease }

/-! ## Tables -/

/-- A `Table` or `Bag`: which value, if any, is stored under each key. -/
def Table (K V : Type) := K → Option V

namespace Table

variable {K V : Type}

def EFieldAlreadyExists : Abort := .code .dynamicField 0
def EFieldDoesNotExist : Abort := .code .dynamicField 1

def empty : Table K V := fun _ => none

def contains (t : Table K V) (k : K) : Bool := (t k).isSome

variable [DecidableEq K] (t : Table K V)

variable (k : K)

def set (v : V) : Table K V := Function.update t k (some v)

def erase : Table K V := Function.update t k none

def add (v : V) : Call (Table K V) := do
  check (t k = none) EFieldAlreadyExists
  return t.set k v

def remove : Call (Table K V × V) := do
  let v ← require (t k) EFieldDoesNotExist
  return (t.erase k, v)

def borrow : Call V := require (t k) EFieldDoesNotExist

theorem set_self (v : V) : t.set k v k = some v := Function.update_self ..

variable {k k' : K} {t}

theorem set_of_ne (t : Table K V) (v : V) (h : k' ≠ k) : t.set k v k' = t k' :=
  Function.update_of_ne h ..

theorem set_eq_some {v w : V} :
    t.set k v k' = some w ↔ (k' = k ∧ v = w) ∨ (k' ≠ k ∧ t k' = some w) := by
  by_cases h : k' = k
  · subst h
    simp [set_self]
  · simp [set_of_ne t v h, h]

theorem forall_set {P : K → V → Prop} {v : V} (hnew : P k v)
    (hold : ∀ k w, t k = some w → P k w) : ∀ k' w, t.set k v k' = some w → P k' w := by
  intro k' w hw
  rcases set_eq_some.1 hw with ⟨rfl, rfl⟩ | ⟨_, hw⟩
  · exact hnew
  · exact hold k' w hw

theorem erase_eq_some {w : V} : t.erase k k' = some w ↔ k' ≠ k ∧ t k' = some w := by
  by_cases h : k' = k
  · subst h
    have hs : t.erase k' k' = none := Function.update_self ..
    simp [hs]
  · have hne : t.erase k k' = t k' := Function.update_of_ne h ..
    simp [hne, h]

theorem add_ok {t' : Table K V} {v : V} (h : t.add k v = .ok t') : t k = none ∧ t' = t.set k v := by
  simp only [add, ok_iff] at h
  exact ⟨h.1, h.2.symm⟩

theorem remove_ok {t' : Table K V} {v : V} (h : t.remove k = .ok (t', v)) :
    t k = some v ∧ t' = t.erase k := by
  simp only [remove, ok_iff] at h
  obtain ⟨_, hk, rfl, rfl⟩ := h
  exact ⟨hk, rfl⟩

end Table

end OneChain.Move
