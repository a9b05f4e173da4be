import OneChain.Move.Collections
import OneChain.System.Validator

/-!
# `voting_power`: from stake to voting power

The functions of `voting_power.move`. Voting powers are basis points: they add up to 10000. Every
validator first gets its share of the stake, capped; what the cap cuts off is then spread over
those below it, from the largest stake down. The last step checks the outcome, so that whatever
`setVotingPower` returns is positive and adds up (`setVotingPower_ok`).
-/

namespace OneChain.System

open Lib Move

structure VotingPowerInfoV2 where
  (validatorIndex votingPower stake : ℕ)
  deriving DecidableEq, Repr

namespace VotingPower

def totalVotingPower : ℕ := 10000
def quorumThreshold : ℕ := 6667
def maxVotingPower : ℕ := 2000

def ETotalPowerMismatch : Abort := .code .votingPower 1
def ERelativePowerMismatch : Abort := .code .votingPower 2
def EVotingPowerOverThreshold : Abort := .code .votingPower 3
def EInvalidVotingPower : Abort := .code .votingPower 4

/-- `std::u64::divide_and_round_up`. -/
def divideAndRoundUp (x y : ℕ) : Call ℕ :=
  if y = 0 then .error .divisionByZero else .ok (if x % y = 0 then x / y else x / y + 1)

def deriveRawVotingPower (stake totalStake : ℕ) : Call ℕ := mulDiv stake totalVotingPower totalStake

/-- Keep the list sorted by stake, in descending order. -/
def insert (infoList : List VotingPowerInfoV2) (newInfo : VotingPowerInfoV2) :
    List VotingPowerInfoV2 :=
  let idx := infoList.findIdx? fun info => newInfo.stake ≥ info.stake
  infoList.insertIdx (idx.getD infoList.length) newInfo

variable (validators : List Validator)

/-- The capped shares, sorted, and the power that is left. -/
def initVotingPowerInfo (threshold totalStake : ℕ) :
    Call (List VotingPowerInfoV2 × ℕ) := do
  let (result, totalPower) ← validators.zipIdx.foldlM (fun (result, totalPower) (v, i) => do
      let stake := v.totalStake
      let raw ← deriveRawVotingPower stake totalStake
      let votingPower := min raw threshold
      let totalPower ← addU64 totalPower votingPower
      return (insert result ⟨i, votingPower, stake⟩, totalPower))
    (([], 0) : List VotingPowerInfoV2 × ℕ)
  let remainingPower ← subU64 .other totalVotingPower totalPower
  return (result, remainingPower)

/-- The loop over the sorted list: each validator gets an even part of what is left, up to the
threshold. -/
def adjustVotingPower (threshold : ℕ) : List VotingPowerInfoV2 → ℕ → Call (List VotingPowerInfoV2)
  | [], remainingPower => do
    check (remainingPower = 0) ETotalPowerMismatch
    return []
  | v :: rest, remainingPower =>
    if remainingPower = 0 then .ok (v :: rest)
    else do
      let planned ← divideAndRoundUp remainingPower (rest.length + 1)
      let wanted ← addU64 v.votingPower planned
      let target := min threshold wanted
      let room ← subU64 .other target v.votingPower
      let actual := min remainingPower room
      let votingPower ← addU64 v.votingPower actual
      check (votingPower ≤ threshold) EVotingPowerOverThreshold
      let remainingPower ← subU64 .other remainingPower actual
      let rest ← adjustVotingPower threshold rest remainingPower
      return { v with votingPower } :: rest

def setPower (info : VotingPowerInfoV2) : Call (List Validator) := do
  let v ← Vector.borrow validators info.validatorIndex
  return validators.set info.validatorIndex { v with votingPower := info.votingPower }

/-- Write the powers back, from the end of the list. -/
def updateVotingPower (infoList : List VotingPowerInfoV2) : Call (List Validator) :=
  infoList.reverse.foldlM setPower validators

/-- The second half of `check_invariants`: more stake never means less power. -/
def checkRelativePower (a b : Validator) : Call Unit := do
  check (a.totalStake > b.totalStake → a.votingPower ≥ b.votingPower) ERelativePowerMismatch
  check (a.totalStake < b.totalStake → a.votingPower ≤ b.votingPower) ERelativePowerMismatch

def checkInvariants (v : List Validator) : Call Unit := do
  let total ← v.foldlM (fun total v => do
    check (0 < v.votingPower) EInvalidVotingPower
    addU64 total v.votingPower) 0
  check (total = totalVotingPower) ETotalPowerMismatch
  (List.range v.length).forM fun a =>
    (List.range' (a + 1) (v.length - (a + 1))).forM fun b => do
      let validatorA ← Vector.borrow v a
      let validatorB ← Vector.borrow v b
      checkRelativePower validatorA validatorB

def setVotingPower (totalStake : ℕ) : Call (List Validator) := do
  let averageVotingPower ← divideAndRoundUp totalVotingPower validators.length
  let threshold := min totalVotingPower (max maxVotingPower averageVotingPower)
  let (infoList, remainingPower) ← initVotingPowerInfo validators threshold totalStake
  let infoList ← adjustVotingPower threshold infoList remainingPower
  let validators ← updateVotingPower validators infoList
  checkInvariants validators
  return validators

/-! ## What `setVotingPower` returns -/

/-- The same validator, up to its voting power. -/
def Repowered (v v' : Validator) : Prop := v' = { v with votingPower := v'.votingPower }

theorem Repowered.refl (v : Validator) : Repowered v v := rfl

theorem Repowered.trans {a b c : Validator} (hab : Repowered a b) (hbc : Repowered b c) :
    Repowered a c := by
  unfold Repowered at *
  rw [hbc, hab]

variable {vs vs' : List Validator}

theorem setPower_ok {info : VotingPowerInfoV2}
    (h : setPower vs info = .ok vs') : List.Forall₂ Repowered vs vs' := by
  simp only [setPower, ok_iff, Vector.borrow_ok] at h
  obtain ⟨v, hv, rfl⟩ := h
  rw [List.forall₂_iff_get]
  refine ⟨by simp, fun i hi hi' => ?_⟩
  simp only [List.get_eq_getElem, List.getElem_set]
  split
  · rename_i heq
    subst heq
    obtain ⟨_, rfl⟩ := List.getElem?_eq_some_iff.1 hv
    rfl
  · exact .refl _

theorem updateVotingPower_ok {infoList : List VotingPowerInfoV2}
    (h : updateVotingPower vs infoList = .ok vs') : List.Forall₂ Repowered vs vs' :=
  foldlM_induction (fun _ _ _ _ hs hst => forall₂_trans (fun _ _ _ => .trans) hs (setPower_ok hst))
    (List.forall₂_same.2 fun v _ => .refl v) h

theorem checkInvariants_ok {v : List Validator} {u : Unit} (h : checkInvariants v = .ok u) :
    (∀ x ∈ v, 0 < x.votingPower) ∧ tally (·.votingPower) v = totalVotingPower := by
  simp only [checkInvariants, ok_iff] at h
  obtain ⟨total, hf, ht, _⟩ := h
  have hr : ∀ s s' (x : Validator),
      (check (0 < x.votingPower) EInvalidVotingPower >>= fun _ => addU64 s x.votingPower) = .ok s' →
        0 < x.votingPower ∧ s' = s + x.votingPower := by
    intro s s' x hx
    simp only [ok_iff, addU64_ok] at hx
    exact ⟨hx.1, hx.2.2⟩
  refine ⟨foldlM_forall (fun s s' x hx => (hr s s' x hx).1) hf, ?_⟩
  have hsum := foldlM_tally (f := fun x : Validator => x.votingPower)
    (fun s s' x _ hx => (hr s s' x hx).2) hf
  omega

/-- **What comes out of `setVotingPower`**: the same validators in the same order, with positive
powers that add up to the whole. -/
theorem setVotingPower_ok {totalStake : ℕ} (h : setVotingPower vs totalStake = .ok vs') :
    List.Forall₂ Repowered vs vs' ∧ (∀ v ∈ vs', 0 < v.votingPower) ∧
      tally (·.votingPower) vs' = totalVotingPower := by
  simp only [setVotingPower, ok_iff] at h
  obtain ⟨_, _, _, _, _, _, _, vs'', hupd, _, hc, rfl⟩ := h
  exact ⟨updateVotingPower_ok hupd, checkInvariants_ok hc⟩

end VotingPower

end OneChain.System
