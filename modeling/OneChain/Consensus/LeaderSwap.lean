import OneChain.Consensus.Dag
import OneChain.Lib.Checked
import Mathlib.Algebra.BigOperators.Fin
import Mathlib.Data.List.Sort

/-!
# The leader swap table

`LeaderSwapTable` of `leader_schedule.rs`: the authorities with the best and with the worst scores,
on either side up to a share of the stake. An elected leader that is a bad node is swapped for a
good one.

* `LeaderSwapTable.new_sound` — the sides are disjoint, small and ordered, and no bad node leads.
* `LeaderSwapTable.swap_returns` — a bad node is swapped exactly if it leads first in its round and
  the best authority is within the share; `LeaderSwapTable.swap_panics` is a committee where it is
  not.
-/

namespace OneChain.Consensus

open Lib List

variable {n : ℕ}

inductive SwapPanic
  | thresholdOutOfRange | invalidAuthority | wrongLength | multiLeader | noGoodNode
  deriving DecidableEq

/-- What is drawn from generators that are seeded with a commit or a leader slot. -/
structure LeaderRng (n : ℕ) where
  shuffle : ℕ → List (Fin n × ℕ) → List (Fin n × ℕ)
  shuffle_perm : ∀ commitIndex l, (shuffle commitIndex l).Perm l
  choose : ℕ → ℕ → List (Fin n) → Option (Fin n)
  choose_mem : ∀ {round offset l a}, choose round offset l = some a → a ∈ l
  choose_isSome : ∀ {round offset l}, l ≠ [] → (choose round offset l).isSome

structure LeaderSwapTable (n : ℕ) where
  (goodNodes badNodes : List (Fin n))
  reputationScoresDesc : List (Fin n × ℕ)
  deriving DecidableEq

namespace LeaderSwapTable

variable (C : Committee n) (rng : LeaderRng n) (threshold : ℕ)

def authoritiesByScore (n : ℕ) (scores : List ℕ) : Except SwapPanic (List (Fin n × ℕ)) := do
  check (scores.length ≤ n) .invalidAuthority
  pure ((finRange n).zip scores)

/-- The stake that either side may have. -/
def share : ℕ := threshold * C.totalStake / 100

/-- The loop of `retrieve_first_nodes`. -/
def retrieveFirstNodes : ℕ → List (Fin n × ℕ) → List (Fin n)
  | _, [] => []
  | stake, (authority, _) :: authorities =>
    let stake := stake + C.stake authority
    if share C threshold < stake then []
    else authority :: retrieveFirstNodes stake authorities

/-- Ties are broken by the shuffle; the best comes first. -/
def sortByScore (commitIndex : ℕ) (authorities : List (Fin n × ℕ)) : List (Fin n × ℕ) :=
  (rng.shuffle commitIndex authorities).insertionSort fun a b => b.2 ≤ a.2

def newInner (commitIndex : ℕ) (scores : List ℕ) : Except SwapPanic (LeaderSwapTable n) := do
  check (threshold ≤ 33) .thresholdOutOfRange
  if scores = [] then
    pure ⟨[], [], []⟩
  else
    let authorities ← authoritiesByScore n scores
    check (authorities.length = n) .wrongLength
    let sorted := sortByScore rng commitIndex authorities
    pure ⟨retrieveFirstNodes C threshold 0 sorted,
      retrieveFirstNodes C threshold 0 sorted.reverse, sorted⟩

variable (table : LeaderSwapTable n)

def swap (leader : Fin n) (leaderRound leaderOffset : ℕ) : Except SwapPanic (Option (Fin n)) :=
  if leader ∈ table.badNodes then do
    check (leaderOffset = 0) .multiLeader
    match rng.choose leaderRound leaderOffset table.goodNodes with
    | some idx => pure (some idx)
    | none => .error .noGoodNode
  else pure none

/-- `elect_leader`, for the leader that the stakes elect. -/
def electLeader (leader : Fin n) (round leaderOffset : ℕ) : Except SwapPanic (Fin n) := do
  let swapped ← table.swap rng leader round leaderOffset
  pure (swapped.getD leader)

/-! ## The two sides -/

def stakeOf (l : List (Fin n)) : ℕ := (l.map C.stake).sum

variable {C rng threshold table}

/-- A side is a start of the list whose stake is within the share. -/
theorem retrieveFirstNodes_spec {stake : ℕ} (l : List (Fin n × ℕ)) (h : stake ≤ share C threshold) :
    ∃ pre, pre <+: l ∧ retrieveFirstNodes C threshold stake l = pre.map Prod.fst ∧
      stake + stakeOf C (pre.map Prod.fst) ≤ share C threshold := by
  induction l generalizing stake with
  | nil => exact ⟨[], nil_prefix, rfl, h⟩
  | cons a l ih =>
    rw [retrieveFirstNodes]
    by_cases hlt : share C threshold < stake + C.stake a.1
    · exact ⟨[], nil_prefix, if_pos hlt, h⟩
    · obtain ⟨pre, hpre, heq, hle⟩ := ih (Nat.le_of_not_lt hlt)
      refine ⟨a :: pre, (prefix_cons_inj a).2 hpre, ?_, ?_⟩
      · simp only [if_neg hlt, heq, map_cons]
      · simp only [stakeOf, map_cons, sum_cons] at hle ⊢
        omega

/-- The sides do not meet: together they have less than all the stake. -/
theorem sides_apart (ht : threshold ≤ 33) {l : List (Fin n × ℕ)}
    (hl : (l.map Prod.fst).Perm (finRange n)) :
    ∃ good mid bad : List (Fin n × ℕ), l = good ++ (mid ++ bad.reverse) ∧
      retrieveFirstNodes C threshold 0 l = good.map Prod.fst ∧
      retrieveFirstNodes C threshold 0 l.reverse = bad.map Prod.fst ∧
      stakeOf C (good.map Prod.fst) ≤ share C threshold ∧
      stakeOf C (bad.map Prod.fst) ≤ share C threshold := by
  obtain ⟨good, hpre, hgood, hg⟩ := retrieveFirstNodes_spec l (Nat.zero_le (share C threshold))
  obtain ⟨bad, hsuf, hbad, hb⟩ :=
    retrieveFirstNodes_spec l.reverse (Nat.zero_le (share C threshold))
  rw [Nat.zero_add] at hg hb
  obtain ⟨front, hf⟩ : bad.reverse <:+ l := by simpa using reverse_suffix.2 hsuf
  rcases prefix_or_prefix_of_prefix hpre ⟨_, hf⟩ with ⟨mid, hmid⟩ | ⟨rest, hrest⟩
  · refine ⟨good, mid, bad, ?_, hgood, hbad, hg, hb⟩
    rw [← append_assoc, hmid, hf]
  · exfalso
    have hall : stakeOf C (l.map Prod.fst) = C.totalStake := by
      rw [stakeOf, (hl.map C.stake).sum_eq, Committee.totalStake, Fin.sum_univ_def]
    have hpos : 0 < C.totalStake := C.total_pos
    simp only [← hf, ← hrest, stakeOf, map_append, map_reverse, sum_append, sum_reverse]
      at hall hg hb
    have hshare : 2 * share C threshold < C.totalStake := by
      unfold share
      have := Nat.mul_le_mul_right C.totalStake ht
      omega
    omega

variable {scores : List ℕ} {commitIndex : ℕ}

theorem newInner_eq (ht : threshold ≤ 33) (hne : scores ≠ []) (hs : scores.length = n)
    {l : List (Fin n × ℕ)} (hl : sortByScore rng commitIndex ((finRange n).zip scores) = l) :
    newInner C rng threshold commitIndex scores =
      .ok ⟨retrieveFirstNodes C threshold 0 l, retrieveFirstNodes C threshold 0 l.reverse, l⟩ := by
  have hlen : ((finRange n).zip scores).length = n := by simp [hs]
  simp only [newInner, authoritiesByScore, check_of ht, check_of hs.le, check_of hlen, if_neg hne,
    ok_bind, pure_ok, hl]

theorem score_of_mem {p : Fin n × ℕ} (h : p ∈ (finRange n).zip scores) :
    scores[p.1.val]? = some p.2 := by
  obtain ⟨i, hi⟩ := mem_iff_getElem?.1 h
  obtain ⟨hf, hsc⟩ := getElem?_zip_eq_some.1 hi
  obtain ⟨hlt, hf⟩ := List.getElem?_eq_some_iff.1 hf
  rw [← hf]
  simpa using hsc

theorem electLeader_notMem (hd : ∀ a ∈ table.goodNodes, a ∉ table.badNodes)
    {leader elected : Fin n} {round offset : ℕ}
    (h : table.electLeader rng leader round offset = .ok elected) : elected ∉ table.badNodes := by
  unfold electLeader swap at h
  split at h
  · obtain ⟨_, hs, h⟩ := bind_ok.1 h
    obtain ⟨_, _, hs⟩ := bind_ok.1 hs
    split at hs
    next idx hc =>
      cases hs
      cases h
      exact hd idx (rng.choose_mem hc)
    next => cases hs
  · cases h
    assumption

/-- **A bad node never leads.** -/
theorem new_sound (C : Committee n) (rng : LeaderRng n) (commitIndex : ℕ) (ht : threshold ≤ 33)
    (hs : scores = [] ∨ scores.length = n) :
    ∃ table, newInner C rng threshold commitIndex scores = .ok table ∧
      (∀ a ∈ table.goodNodes, a ∉ table.badNodes) ∧
      stakeOf C table.goodNodes ≤ share C threshold ∧
      stakeOf C table.badNodes ≤ share C threshold ∧
      (∀ a ∈ table.goodNodes, ∀ b ∈ table.badNodes,
        ∃ i j, scores[a.val]? = some i ∧ scores[b.val]? = some j ∧ j ≤ i) ∧
      ∀ leader round offset elected,
        table.electLeader rng leader round offset = .ok elected → elected ∉ table.badNodes := by
  by_cases hne : scores = []
  · refine ⟨⟨[], [], []⟩, by simp [newInner, check_of ht, hne], ?_⟩
    simp [stakeOf]
  · have hlen := hs.resolve_left hne
    obtain ⟨l, hl⟩ : ∃ l, sortByScore rng commitIndex ((finRange n).zip scores) = l := ⟨_, rfl⟩
    have hperm : l.Perm ((finRange n).zip scores) :=
      hl ▸ (perm_insertionSort _ _).trans (rng.shuffle_perm _ _)
    have hsorted : l.Pairwise fun a b => b.2 ≤ a.2 := hl ▸ pairwise_insertionSort _ _
    have hfst : (l.map Prod.fst).Perm (finRange n) := by
      refine (hperm.map Prod.fst).trans ?_
      rw [map_fst_zip (by simp [hlen])]
    have hnd := hfst.nodup_iff.2 (nodup_finRange n)
    obtain ⟨good, mid, bad, rfl, hgood, hbad, hg, hb⟩ := sides_apart (C := C) ht hfst
    have hd : ∀ a ∈ good.map Prod.fst, a ∉ bad.map Prod.fst := by
      intro a ha hb
      simp only [map_append, map_reverse] at hnd
      exact disjoint_of_nodup_append hnd ha (mem_append_right _ (mem_reverse.2 hb))
    refine ⟨_, newInner_eq ht hne hlen hl, ?_⟩
    simp only [hgood, hbad]
    refine ⟨hd, hg, hb, fun a ha b hb => ?_, fun leader round offset elected he => ?_⟩
    · obtain ⟨p, hp, rfl⟩ := mem_map.1 ha
      obtain ⟨q, hq, rfl⟩ := mem_map.1 hb
      have hq' := mem_append_right mid (mem_reverse.2 hq)
      exact ⟨p.2, q.2, score_of_mem (hperm.mem_iff.1 (mem_append_left _ hp)),
        score_of_mem (hperm.mem_iff.1 (mem_append_right _ hq')),
        (pairwise_append.1 hsorted).2.2 p hp q hq'⟩
    · exact electLeader_notMem hd he

/-! ## The swap -/

theorem retrieveFirstNodes_ne_nil {l : List (Fin n × ℕ)} :
    retrieveFirstNodes C threshold 0 l ≠ [] ↔ ∃ a ∈ l.head?, C.stake a.1 ≤ share C threshold := by
  cases l with
  | nil => simp [retrieveFirstNodes]
  | cons a l => simp [retrieveFirstNodes]

theorem newInner_goodNodes (h : newInner C rng threshold commitIndex scores = .ok table) :
    table.goodNodes = retrieveFirstNodes C threshold 0 table.reputationScoresDesc := by
  obtain ⟨_, _, h⟩ := bind_ok.1 h
  split at h
  · cases h
    rfl
  · obtain ⟨_, _, h⟩ := bind_ok.1 h
    obtain ⟨_, _, h⟩ := bind_ok.1 h
    cases h
    rfl

theorem swap_ok_iff {leader : Fin n} {round offset : ℕ} :
    (∃ r, table.swap rng leader round offset = .ok r) ↔
      (leader ∈ table.badNodes → offset = 0 ∧ table.goodNodes ≠ []) := by
  unfold swap
  split
  next hb =>
    simp only [hb, true_imp_iff]
    constructor
    · rintro ⟨r, h⟩
      obtain ⟨_, ho, h⟩ := bind_ok.1 h
      split at h
      next idx hc => exact ⟨check_ok.1 ho, ne_nil_of_mem (rng.choose_mem hc)⟩
      next => cases h
    · rintro ⟨ho, hne⟩
      have hsome : (rng.choose round offset table.goodNodes).isSome := rng.choose_isSome hne
      obtain ⟨idx, hc⟩ := Option.isSome_iff_exists.1 hsome
      exact ⟨some idx, by simp only [check_of ho, ok_bind, hc, pure_ok]⟩
  next hb => exact ⟨fun _ h => absurd h hb, fun _ => ⟨none, rfl⟩⟩

/-- **When a leader is swapped.** The swap ends unless the leader is a bad node, and then exactly if
it is the first leader of its round and the best authority is within the share. -/
theorem swap_returns (hnew : newInner C rng threshold commitIndex scores = .ok table)
    (leader : Fin n) (round offset : ℕ) :
    (∃ r, table.swap rng leader round offset = .ok r) ↔ (leader ∈ table.badNodes → offset = 0 ∧
      ∃ best ∈ table.reputationScoresDesc.head?, C.stake best.1 ≤ share C threshold) := by
  rw [swap_ok_iff, newInner_goodNodes hnew, retrieveFirstNodes_ne_nil]

/-! ## Two tables -/

/-- Shuffles nothing and chooses the first. -/
def firstRng : LeaderRng n where
  shuffle _ l := l
  shuffle_perm _ _ := .refl _
  choose _ _ l := l.head?
  choose_mem h := mem_of_mem_head? h
  choose_isSome h := by simpa using h

/-- Four authorities with a stake each, the first the best. -/
def fourTable : Except SwapPanic (LeaderSwapTable 4) :=
  newInner fourAuthorities firstRng 33 0 [3, 2, 1, 0]

theorem new_sound_four : ∃ table, fourTable = .ok table ∧
    ∀ a ∈ table.goodNodes, a ∉ table.badNodes := by
  obtain ⟨table, hnew, hd, -⟩ := new_sound fourAuthorities firstRng 0 (le_refl 33)
    (.inr (rfl : [3, 2, 1, 0].length = 4))
  exact ⟨table, hnew, hd⟩

theorem swap_returns_four : ∃ table, fourTable = .ok table ∧ table.badNodes = [3] ∧
    ∃ r, table.swap firstRng 3 7 0 = .ok r := by
  have hfour : ∃ table, fourTable = .ok table ∧ table.badNodes = [3] ∧
      table.reputationScoresDesc.head? = some (0, 3) := by decide +kernel
  obtain ⟨table, hnew, hbad, hbest⟩ := hfour
  refine ⟨table, hnew, hbad, (swap_returns hnew 3 7 0).2 fun _ => ?_⟩
  exact ⟨rfl, (0, 3), hbest, by decide +kernel⟩

/-- The best authority has more than the share. -/
def lopsided : Committee 4 := ⟨0, fun a => if a.val = 0 then 7 else 1, by decide⟩

/-- **The swap panics.** There is no good node for the bad ones, nor a swap for a second leader. -/
theorem swap_panics : ∃ table, newInner lopsided firstRng 33 0 [3, 2, 1, 0] = .ok table ∧
    table.badNodes = [3, 2, 1] ∧ table.swap firstRng 1 7 0 = .error .noGoodNode ∧
    table.swap firstRng 1 7 1 = .error .multiLeader := by
  decide +kernel

end LeaderSwapTable

end OneChain.Consensus
