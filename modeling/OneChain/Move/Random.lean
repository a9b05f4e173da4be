import Mathlib.Data.Set.Function
import Mathlib.Logic.Equiv.Basic
import OneChain.Move.Collections

/-!
# `random`: the shuffle

`shuffle` of `random.move`, over any source of random numbers. The indices it draws (`indices`) are
the factors of a permutation of the positions: index `i` is exchanged with one that is not below it,
so the first factor is read off at `0`, the next one at `1`, and no factor can be replaced
(`positions_bijOn`).
-/

namespace OneChain.Move.Random

open Lib List Equiv

def EInvalidRange : Abort := .code .random 3
def EInvalidLength : Abort := .code .random 4

section

variable {G T : Type} (uintFromBytes : G → ℕ → Call (ℕ × G))

/-- `uint_in_range!`. -/
def uintInRange (g : G) (min max numOfBytes : ℕ) : Call (ℕ × G) := do
  check (min ≤ max) EInvalidRange
  if min = max then return (min, g)
  let rangeSize := max - min + 1
  let (rand, g) ← uintFromBytes g numOfBytes
  return (min + rand % rangeSize, g)

def generateU16InRange (g : G) (min max : ℕ) : Call (ℕ × G) :=
  uintInRange uintFromBytes g min max 10

/-- `vector::swap`. -/
def swap (v : List T) (i j : ℕ) : Call (List T) := do
  check (i < v.length ∧ j < v.length) EINDEX_OUT_OF_BOUNDS
  return v.swap i j

/-- One round of the shuffle. -/
def round (n : ℕ) (s : G × List T) (i : ℕ) : Call (G × List T) := do
  let (j, g) ← generateU16InRange uintFromBytes s.1 i (n - 1)
  let v ← swap s.2 i j
  return (g, v)

def shuffle (g : G) (v : List T) : Call (G × List T) := do
  if v.length = 0 then return (g, v)
  check (v.length ≤ 0xFFFF) EInvalidLength
  (range (v.length - 1)).foldlM (round uintFromBytes v.length) (g, v)

/-- What the source gives for `m` places of `n`, from `i` on: the number for a place is reduced to
the places that are not below it. -/
def indices (n : ℕ) : ℕ → ℕ → G → Call (List ℕ × G)
  | _, 0, g => .ok ([], g)
  | i, m + 1, g => do
    let (rand, g) ← uintFromBytes g 10
    let (js, g) ← indices n (i + 1) m g
    return ((i + rand % (n - i)) :: js, g)

end

/-- Indices that are drawn from `i` on: each is not below its place and below `n`. -/
def Draws (n : ℕ) : ℕ → List ℕ → Prop
  | i, [] => n ≤ i + 1
  | i, j :: js => i + 1 < n ∧ i ≤ j ∧ j < n ∧ Draws n (i + 1) js

/-- Where the element that ends up in a place comes from. -/
def positions : ℕ → List ℕ → Perm ℕ
  | _, [] => .refl ℕ
  | i, j :: js => (positions (i + 1) js).trans (Equiv.swap i j)

variable {n i j k : ℕ} {js : List ℕ}

theorem swap_of_out (hij : i ≤ j) (hj : j < n) (hk : k < i ∨ n ≤ k) : Equiv.swap i j k = k :=
  swap_apply_of_ne_of_ne (by omega) (by omega)

theorem positions_of_out (h : Draws n i js) (hk : k < i ∨ n ≤ k) : positions i js k = k := by
  induction js generalizing i with
  | nil => rfl
  | cons j js ih =>
    obtain ⟨_, hij, hj, hjs⟩ := h
    rw [positions, trans_apply, ih hjs (by omega), swap_of_out hij hj hk]

/-- The place that `i` is taken to is one of those that are moved. -/
theorem apply_cases {σ : Perm ℕ} (hσ : ∀ k, k < i ∨ n ≤ k → σ k = k) :
    σ i = i ∨ i ≤ σ i ∧ σ i < n := by
  by_contra hout
  exact hout (.inl (σ.injective (hσ (σ i) (by omega))))

/-- A permutation of the places from `i` on is drawn in exactly one way. -/
theorem existsUnique_draws {σ : Perm ℕ} (hσ : ∀ k, k < i ∨ n ≤ k → σ k = k) :
    ∃! js, Draws n i js ∧ positions i js = σ := by
  induction hd : n - (i + 1) generalizing i σ with
  | zero =>
    have hone : σ = .refl ℕ := by
      ext k
      by_cases hk : k = i
      · have := apply_cases hσ
        rw [hk]
        show σ i = i
        omega
      · exact hσ k (by omega)
    refine ⟨[], ⟨Nat.le_of_sub_eq_zero hd, hone.symm⟩, fun js hjs => ?_⟩
    cases js with
    | nil => rfl
    | cons j js => exact absurd hjs.1.1 (by omega)
  | succ d ih =>
    -- the first index is read off at `i`; undoing its swap leaves a permutation of the later places
    have hi := apply_cases hσ
    obtain ⟨js, ⟨hjs, hpos⟩, huniq⟩ := ih (i := i + 1) (σ := σ.trans (Equiv.swap i (σ i)))
      (fun k hk => by
        by_cases hki : k = i
        · rw [hki, trans_apply, swap_apply_right]
        · rw [trans_apply, hσ k (by omega), swap_of_out (n := n) (by omega) (by omega) (by omega)])
      (by omega)
    refine ⟨σ i :: js, ⟨⟨by omega, by omega, by omega, hjs⟩, ?_⟩, fun l hl => ?_⟩
    · rw [positions, hpos]
      ext k
      simp
    · cases l with
      | nil => exact absurd hl.1 (by simp only [Draws]; omega)
      | cons j l =>
        obtain ⟨⟨_, _, _, hl⟩, hlpos⟩ := hl
        have hj : σ i = j := by
          rw [← hlpos, positions, trans_apply, positions_of_out hl (.inl i.lt_succ_self),
            swap_apply_left]
        rw [hj, huniq l ⟨hl, ?_⟩]
        rw [hj, ← hlpos, positions]
        ext k
        simp

theorem positions_bijOn (n : ℕ) :
    Set.BijOn (positions 0) {js | Draws n 0 js} {σ | ∀ k, n ≤ k → σ k = k} := by
  have hex : ∀ σ : Perm ℕ, (∀ k, n ≤ k → σ k = k) → ∃! js, Draws n 0 js ∧ positions 0 js = σ :=
    fun σ hσ => existsUnique_draws fun k hk => hσ k (by omega)
  refine ⟨fun js hjs k hk => positions_of_out hjs (.inr hk), fun js hjs js' hjs' he => ?_,
    fun σ hσ => (hex σ hσ).exists⟩
  exact (hex _ fun k hk => positions_of_out hjs' (.inr hk)).unique ⟨hjs, he⟩ ⟨hjs', rfl⟩

/-! ## The loop -/

theorem getElem?_swap {T : Type} {v : List T} (hi : i < v.length) (hj : j < v.length) :
    (v.swap i j)[k]? = v[Equiv.swap i j k]? := by
  grind

variable {G T : Type} {uintFromBytes : G → ℕ → Call (ℕ × G)}

theorem generateU16InRange_of_lt (g : G) (h : i + 1 < n) :
    generateU16InRange uintFromBytes g i (n - 1) = (do
      let (rand, g) ← uintFromBytes g 10
      return (i + rand % (n - i), g)) := by
  have hsize : n - 1 - i + 1 = n - i := by omega
  rw [generateU16InRange, uintInRange, check_of (by omega), ok_bind, if_neg (by omega)]
  simp only [hsize]

/-- **The loop exchanges the indices that the source gives.** -/
theorem loop_ends (m : ℕ) (g : G) (v : List T) (h : i + m + 1 = v.length) :
    Ends ((range' i m).foldlM (round uintFromBytes v.length) (g, v))
      (fun r => ∃ js, indices uintFromBytes v.length i m g = .ok (js, r.1) ∧
        Draws v.length i js ∧ r.2.Perm v ∧ ∀ k, r.2[k]? = v[positions i js k]?)
      fun e => indices uintFromBytes v.length i m g = .error e := by
  induction m generalizing i g v with
  | zero => exact ⟨[], rfl, by simp only [Draws]; omega, .rfl, fun k => rfl⟩
  | succ m ih =>
    rw [range'_succ, foldlM_cons, round, generateU16InRange_of_lt g (by omega), indices]
    cases hr : uintFromBytes g 10 with
    | error e => exact rfl
    | ok r =>
      have hlt : r.1 % (v.length - i) < v.length - i := Nat.mod_lt _ (by omega)
      simp only [ok_bind, pure_ok]
      generalize hj : i + r.1 % (v.length - i) = j
      have hswap : Random.swap v i j = .ok (v.swap i j) := by
        rw [Random.swap, check_of ⟨by omega, by omega⟩]
        rfl
      rw [hswap, ok_bind, ok_bind]
      have hrest := ih (i := i + 1) r.2 (v.swap i j) (by rw [length_swap]; omega)
      rw [length_swap] at hrest
      refine (hrest.imp_error fun e he => ?_).mono fun q ⟨js, hq, hjs, hperm, hk⟩ => ?_
      · rw [he]
        rfl
      · refine ⟨j :: js, by rw [hq]; rfl, ⟨by omega, by omega, by omega, hjs⟩,
          hperm.trans (swap_perm v i j), fun k => ?_⟩
        rw [hk k, getElem?_swap (by omega) (by omega), positions, trans_apply]

/-- **The shuffle is a permutation and has no bias.** It draws an index for every place but the
last, aborts only if the source does, and returns the rearrangement that belongs to the indices.
Each rearrangement belongs to exactly one sequence of indices. -/
theorem shuffle_unbiased (uintFromBytes : G → ℕ → Call (ℕ × G)) (v : List T)
    (hv : v.length ≤ 0xFFFF) :
    (∀ g, Ends (shuffle uintFromBytes g v)
      (fun r => ∃ js, indices uintFromBytes v.length 0 (v.length - 1) g = .ok (js, r.1) ∧
        Draws v.length 0 js ∧ r.2.Perm v ∧ ∀ k, r.2[k]? = v[positions 0 js k]?)
      fun e => indices uintFromBytes v.length 0 (v.length - 1) g = .error e) ∧
    Set.BijOn (positions 0) {js | Draws v.length 0 js} {σ | ∀ k, v.length ≤ k → σ k = k} := by
  refine ⟨fun g => ?_, positions_bijOn v.length⟩
  rw [shuffle]
  split
  next hz =>
    rw [hz]
    exact ⟨[], rfl, Nat.zero_le _, .rfl, fun k => rfl⟩
  next =>
    rw [check_of hv, ok_bind, range_eq_range']
    exact loop_ends _ g v (by omega)

/-- A source that aborts in no call. -/
theorem shuffle_unbiased_three :
    ∃ r, shuffle (fun g _ => .ok (g, g + 1)) 7 ['a', 'b', 'c'] = .ok r ∧
      r.2.Perm ['a', 'b', 'c'] := by
  obtain ⟨hends, _⟩ := shuffle_unbiased (fun g _ => .ok (g, g + 1)) ['a', 'b', 'c'] (by decide)
  obtain ⟨r, hr⟩ := (hends 7).exists_ok fun e he => nomatch he
  obtain ⟨_, _, _, hperm, _⟩ := (hends 7).of_ok hr
  exact ⟨r, hr, hperm⟩

end OneChain.Move.Random
