import OneChain.Consensus.DagState
import Mathlib.Order.Lattice.Nat

/-!
# The round of the threshold clock

The clock is updated block by block, in the order in which blocks arrive. Its round depends only on
which blocks have arrived: it is the highest round with a block, or the next one if the blocks of
that round are from a quorum (`round_addBlocks`).

A block of a later round that is a quorum by itself is not cleared from the aggregator, and counts
for the next round too. With other authorities in the committee the order of the blocks then matters
(`order_matters`).
-/

namespace OneChain.Consensus

open Lib StakeAggregator Finset

variable {n : ℕ} {C : Committee n}

namespace ThresholdClock

open Classical in
/-- The authors of the references of a round. -/
noncomputable def authorsAt (S : Set (BlockRef n)) (round : ℕ) : Finset (Fin n) :=
  Finset.univ.filter fun a => ∃ r ∈ S, r.round = round ∧ r.author = a

variable {round : ℕ} {r : BlockRef n} {agg : StakeAggregator C}

theorem mem_authorsAt {S : Set (BlockRef n)} {a : Fin n} :
    a ∈ authorsAt S round ↔ ∃ r ∈ S, r.round = round ∧ r.author = a := by
  simp [authorsAt]

/-- The clock that was started at a round, after the references in any order. Where each authority
is a quorum, the votes are not needed. -/
structure Counts (start : ℕ) (S : Set (BlockRef n)) (clock : ThresholdClock C) : Prop where
  le : ∀ r ∈ S, r.round ≤ clock.round
  pending : clock.aggregator.votes = authorsAt S clock.round ∧ ¬ clock.aggregator.reachedThreshold ∨
    (∀ a, C.quorumThreshold ≤ C.stake a) ∧ ∀ r ∈ S, r.round ≠ clock.round
  reached : clock.round = start ∨ (∃ r ∈ S, r.round = clock.round) ∨ ∃ round,
    clock.round = round + 1 ∧ C.quorumThreshold ≤ ∑ a ∈ authorsAt S round, C.stake a

variable {S T : Set (BlockRef n)} {clock : ThresholdClock C} {start : ℕ}

theorem counts_new (start : ℕ) : Counts start ∅ (⟨.new, start⟩ : ThresholdClock C) :=
  ⟨by simp, .inl ⟨by simp [authorsAt], not_reachedThreshold_new⟩, .inl rfl⟩

theorem authorsAt_mono (h : S ⊆ T) : authorsAt S round ⊆ authorsAt T round := by
  intro a ha
  obtain ⟨r, hr, hro, hau⟩ := mem_authorsAt.1 ha
  exact mem_authorsAt.2 ⟨r, h hr, hro, hau⟩

theorem authorsAt_insert (r : BlockRef n) :
    authorsAt (insert r S) r.round = insert r.author (authorsAt S r.round) := by
  ext a
  simp [mem_authorsAt, eq_comm]

theorem authorsAt_insert_of_ne (h : r.round ≠ round) :
    authorsAt (insert r S) round = authorsAt S round := by
  ext a
  simp [mem_authorsAt, h]

theorem authorsAt_eq_empty (h : ∀ r ∈ S, r.round ≠ round) : authorsAt S round = ∅ := by
  refine eq_empty_of_forall_notMem fun a ha => ?_
  obtain ⟨r, hr, hro, _⟩ := mem_authorsAt.1 ha
  exact h r hr hro

theorem exists_of_quorum (h : C.quorumThreshold ≤ ∑ a ∈ authorsAt S round, C.stake a) :
    ∃ r ∈ S, r.round = round := by
  by_contra hn
  rw [authorsAt_eq_empty fun r hr hrr => hn ⟨r, hr, hrr⟩] at h
  exact absurd h (by simp [Committee.quorumThreshold])

theorem counts_next (hle : ∀ s ∈ S, s.round ≤ round)
    (hq : C.quorumThreshold ≤ ∑ a ∈ authorsAt S round, C.stake a)
    (hagg : agg = .new ∨ ∀ a, C.quorumThreshold ≤ C.stake a) :
    Counts start S (⟨agg, round + 1⟩ : ThresholdClock C) := by
  have hne : ∀ s ∈ S, s.round ≠ round + 1 := fun s hs =>
    ne_of_lt (Nat.lt_succ_of_le (hle s hs))
  refine ⟨fun s hs => (hle s hs).trans (Nat.le_succ _), ?_, .inr (.inr ⟨round, rfl, hq⟩)⟩
  rcases hagg with rfl | hl
  · exact .inl ⟨(authorsAt_eq_empty hne).symm, not_reachedThreshold_new⟩
  · exact .inr ⟨hl, hne⟩

/-- The votes of the block's round, counted from its first block on. -/
theorem counts_of_add (hv : agg.votes = authorsAt S r.round)
    (hle : ∀ s ∈ S, s.round ≤ r.round) :
    Counts start (insert r S) (if (agg.add r.author).2 then ⟨.new, r.round + 1⟩
      else ⟨(agg.add r.author).1, r.round⟩ : ThresholdClock C) := by
  have hle' : ∀ s ∈ insert r S, s.round ≤ r.round := by
    rintro s (rfl | hs)
    · exact le_rfl
    · exact hle s hs
  have hv' : (agg.insert r.author).votes = authorsAt (insert r S) r.round := by
    rw [votes_insert, hv, authorsAt_insert]
  by_cases hr : (agg.insert r.author).reachedThreshold
  · rw [add, if_pos (by simpa using hr)]
    refine counts_next hle' ?_ (.inl rfl)
    rw [← hv']
    exact (reachedThreshold_iff _).1 hr
  · rw [add, if_neg (by simpa using hr)]
    exact ⟨hle', .inl ⟨hv', hr⟩, .inr (.inl ⟨r, .inl rfl, rfl⟩)⟩

/-- A block that is a quorum by itself fills its round. -/
theorem counts_of_lone (hl : ∀ a, C.quorumThreshold ≤ C.stake a)
    (hle : ∀ s ∈ S, s.round ≤ r.round) :
    Counts start (insert r S) (⟨agg, r.round + 1⟩ : ThresholdClock C) := by
  refine counts_next ?_ ?_ (.inr hl)
  · rintro s (rfl | hs)
    · exact le_rfl
    · exact hle s hs
  · rw [authorsAt_insert]
    exact (hl r.author).trans (single_le_sum (fun _ _ => Nat.zero_le _) (mem_insert_self _ _))

theorem add_of_lone {a vote : Fin n} (ha : C.quorumThreshold ≤ C.stake a)
    (hv : a ∈ insert vote agg.votes) : (agg.add vote).2 = true := by
  rw [add, decide_eq_true_iff, reachedThreshold_iff, votes_insert]
  exact ha.trans (single_le_sum (fun _ _ => Nat.zero_le _) hv)

/-- An authority with a quorum of its own is the only one. -/
def NoLoneQuorum (C : Committee n) : Prop := ∀ a b, C.quorumThreshold ≤ C.stake a → a = b

/-- A block from a later round does not clear the aggregator when it is a quorum by itself; the
stale vote would count for the next round too. -/
theorem Counts.addBlock (hstake : NoLoneQuorum C) (h : Counts start S clock)
    (r : BlockRef n) : Counts start (insert r S) (clock.addBlock r).1 := by
  unfold ThresholdClock.addBlock
  by_cases hlt : r.round < clock.round
  · rw [if_pos hlt]
    refine ⟨?_, ?_, ?_⟩
    · rintro s (rfl | hs)
      · exact hlt.le
      · exact h.le s hs
    · rcases h.pending with ⟨hvotes, hpend⟩ | ⟨hlone, hne⟩
      · rw [authorsAt_insert_of_ne (ne_of_lt hlt)]
        exact .inl ⟨hvotes, hpend⟩
      · refine .inr ⟨hlone, ?_⟩
        rintro s (rfl | hs)
        · exact ne_of_lt hlt
        · exact hne s hs
    · rcases h.reached with hone | ⟨s, hs, hround⟩ | ⟨round, hround, hquorum⟩
      · exact .inl hone
      · exact .inr (.inl ⟨s, .inr hs, hround⟩)
      · refine .inr (.inr ⟨round, hround, hquorum.trans ?_⟩)
        exact sum_le_sum_of_subset (authorsAt_mono (Set.subset_insert r S))
  · rw [if_neg hlt]
    have hle : ∀ s ∈ S, s.round ≤ r.round := fun s hs => (h.le s hs).trans (not_lt.1 hlt)
    by_cases heq : r.round = clock.round
    · rw [if_pos heq]
      rcases h.pending with ⟨hvotes, _⟩ | ⟨hlone, _⟩
      · have hcount : Counts start _ _ := counts_of_add (heq ▸ hvotes) hle
        by_cases hreached : (clock.aggregator.add r.author).2 = true
        · rw [if_pos hreached] at hcount ⊢
          exact hcount
        · rw [if_neg hreached] at hcount ⊢
          rw [← heq]
          exact hcount
      · rw [if_pos (add_of_lone (hlone _) (mem_insert_self _ _))]
        exact counts_of_lone hlone hle
    · rw [if_neg heq]
      by_cases hquorum : C.quorumThreshold ≤ C.stake r.author
      · have hlone : ∀ a, C.quorumThreshold ≤ C.stake a := fun a =>
          hstake r.author a hquorum ▸ hquorum
        simp only [add_of_lone hquorum (mem_insert_self _ _)]
        exact counts_of_lone hlone hle
      · have hne : ∀ s ∈ S, s.round ≠ r.round := by
          intro s hs
          have := h.le s hs
          omega
        have hvotes : (.new : StakeAggregator C).votes = authorsAt S r.round :=
          (authorsAt_eq_empty hne).symm
        have hcount : Counts start _ _ := counts_of_add hvotes hle
        have hnot : ((new : StakeAggregator C).add r.author).2 = false := by
          rw [add, decide_eq_false_iff_not, reachedThreshold_iff]
          simpa using hquorum
        rw [hnot] at hcount
        simp only [hnot]
        exact hcount

/-- The round, from the highest round with a reference. -/
theorem Counts.round_eq (h : Counts start S clock) (hs : start ≤ clock.round)
    {top : BlockRef n} (htop : top ∈ S) (hmax : ∀ r ∈ S, r.round ≤ top.round) :
    clock.round = max start (if C.quorumThreshold ≤ ∑ a ∈ authorsAt S top.round, C.stake a
      then top.round + 1 else top.round) := by
  have hle := h.le top htop
  by_cases heq : clock.round = top.round
  · rcases h.pending with ⟨hv, hp⟩ | ⟨_, hne⟩
    · rw [reachedThreshold_iff, hv, heq] at hp
      rw [if_neg hp]
      omega
    · exact absurd heq.symm (hne top htop)
  · rcases h.reached with hone | ⟨r, hr, hro⟩ | ⟨round, hro, hq⟩
    · split <;> omega
    · have := hmax r hr
      omega
    · obtain ⟨r, hr, hrr⟩ := exists_of_quorum hq
      have := hmax r hr
      obtain rfl : round = top.round := by omega
      rw [if_pos hq]
      omega

theorem Counts.round_of_empty (h : Counts start S clock) (hS : ∀ r, r ∉ S) :
    clock.round = start := by
  rcases h.reached with hone | ⟨r, hr, _⟩ | ⟨round, _, hq⟩
  · exact hone
  · exact absurd hr (hS r)
  · obtain ⟨r, hr, _⟩ := exists_of_quorum hq
    exact absurd hr (hS r)

/-- Older references of authors with a newer one do not matter. -/
theorem Counts.of_subset (h : Counts start T clock) (hsub : T ⊆ S)
    (htop : ∀ r ∈ S, ∃ s ∈ T, s.author = r.author ∧ r.round ≤ s.round) :
    Counts start S clock := by
  have hlast : ∀ r ∈ S, r.round = clock.round →
      ∃ s ∈ T, s.round = clock.round ∧ s.author = r.author := by
    intro r hr hround
    obtain ⟨s, hs, hauthor, hle⟩ := htop r hr
    exact ⟨s, hs, le_antisymm (h.le s hs) (hround ▸ hle), hauthor⟩
  refine ⟨fun r hr => ?_, ?_, ?_⟩
  · obtain ⟨s, hs, _, hle⟩ := htop r hr
    exact hle.trans (h.le s hs)
  · rcases h.pending with ⟨hvotes, hpend⟩ | ⟨hlone, hne⟩
    · refine .inl ⟨hvotes.trans (Finset.Subset.antisymm (authorsAt_mono hsub) fun a ha => ?_),
        hpend⟩
      obtain ⟨r, hr, hround, rfl⟩ := mem_authorsAt.1 ha
      exact mem_authorsAt.2 (hlast r hr hround)
    · refine .inr ⟨hlone, fun r hr hround => ?_⟩
      obtain ⟨s, hs, hsround, _⟩ := hlast r hr hround
      exact hne s hs hsround
  · rcases h.reached with hone | ⟨r, hr, hround⟩ | ⟨round, hround, hquorum⟩
    · exact .inl hone
    · exact .inr (.inl ⟨r, hsub hr, hround⟩)
    · exact .inr (.inr ⟨round, hround, hquorum.trans (sum_le_sum_of_subset (authorsAt_mono hsub))⟩)

/-- **The references decide the round.** -/
theorem Counts.round_unique {clock' : ThresholdClock C} (h : Counts 1 S clock)
    (h' : Counts 1 S clock') (hpos : ∀ r ∈ S, 0 < r.round) : clock'.round = clock.round := by
  by_cases hS : ∃ r, r ∈ S
  · -- the rounds are bounded by the clock's, so that one of them is the highest
    obtain ⟨top, htop, hmax⟩ : ∃ top ∈ S, ∀ r ∈ S, r.round ≤ top.round := by
      classical
      obtain ⟨r₀, hr₀⟩ := hS
      have hg := Nat.findGreatest_spec (P := fun k => ∃ r ∈ S, r.round = k)
        (h.le r₀ hr₀) ⟨r₀, hr₀, rfl⟩
      obtain ⟨top, htop, hro⟩ := hg
      refine ⟨top, htop, fun r hr => ?_⟩
      rw [hro]
      exact Nat.le_findGreatest (h.le r hr) ⟨r, hr, rfl⟩
    have hle : ∀ {clock : ThresholdClock C}, Counts 1 S clock → 1 ≤ clock.round := fun h =>
      (hpos top htop).trans_le (h.le top htop)
    rw [h.round_eq (hle h) htop hmax, h'.round_eq (hle h') htop hmax]
  · have hn : ∀ r, r ∉ S := fun r hr => hS ⟨r, hr⟩
    rw [h.round_of_empty hn, h'.round_of_empty hn]

/-! ## Any order, from any start -/

def addBlocks (clock : ThresholdClock C) (blocks : List (BlockRef n)) : ThresholdClock C :=
  blocks.foldl (fun clock r => (clock.addBlock r).1) clock

theorem le_addBlock (clock : ThresholdClock C) (r : BlockRef n) :
    clock.round ≤ (clock.addBlock r).1.round := by
  unfold ThresholdClock.addBlock
  dsimp only
  split_ifs <;> simp <;> omega

theorem Counts.addBlocks (hst : NoLoneQuorum C) (h : Counts start S clock)
    (hs : start ≤ clock.round) (blocks : List (BlockRef n)) :
    Counts start (S ∪ { r | r ∈ blocks }) (clock.addBlocks blocks) ∧
      start ≤ (clock.addBlocks blocks).round := by
  induction blocks generalizing S clock with
  | nil => simpa [ThresholdClock.addBlocks] using ⟨h, hs⟩
  | cons r blocks ih =>
    have hset : S ∪ { s | s ∈ r :: blocks } = insert r S ∪ { s | s ∈ blocks } := by
      ext s
      simp [or_assoc, or_left_comm]
    rw [hset]
    exact ih (h.addBlock hst r) (hs.trans (le_addBlock clock r))

/-- The round of a clock that was started at `start` and has counted `S`. -/
noncomputable def settledRound (C : Committee n) (start : ℕ) (S : Finset (BlockRef n)) : ℕ :=
  let highest := S.sup BlockRef.round
  max start (if C.quorumThreshold ≤ ∑ a ∈ authorsAt S highest, C.stake a then highest + 1
    else highest)

theorem round_addBlocks_eq (hstake : NoLoneQuorum C) (start : ℕ) (blocks : List (BlockRef n)) :
    ((⟨.new, start⟩ : ThresholdClock C).addBlocks blocks).round =
      settledRound C start blocks.toFinset := by
  obtain ⟨hc, hs⟩ := (counts_new start).addBlocks hstake le_rfl blocks
  have hset : (∅ ∪ { r | r ∈ blocks } : Set (BlockRef n)) = blocks.toFinset := by
    ext r
    simp
  rw [hset] at hc
  by_cases he : blocks.toFinset = ∅
  · rw [hc.round_of_empty (by simp [he]), he, settledRound]
    simp [authorsAt, Committee.quorumThreshold]
  · obtain ⟨top, htop, hsup⟩ := exists_mem_eq_sup blocks.toFinset
      (nonempty_iff_ne_empty.2 he) BlockRef.round
    rw [hc.round_eq hs htop fun r hr => hsup ▸ le_sup hr, settledRound, hsup]

/-- The block of round 5 counts for round 6 too. -/
theorem addBlocks_of_lone {a : Fin n} (ha : C.quorumThreshold ≤ C.stake a) (b : Fin n) :
    ((⟨.new, 1⟩ : ThresholdClock C).addBlocks [⟨5, a, 0⟩, ⟨6, b, 0⟩]).round = 7 := by
  have hfive : (new.add a).2 = true := add_of_lone ha (mem_insert_self a _)
  have hsix : ((new.add a).1.add b).2 = true := add_of_lone ha (by simp [add])
  simp [addBlocks, addBlock, hfive, hsix]

/-- **The clock does not depend on the order of the blocks** exactly in the committees where an
authority with a quorum of its own is the only one. -/
theorem round_addBlocks : (∀ (start : ℕ) (blocks : List (BlockRef n)),
    ((⟨.new, start⟩ : ThresholdClock C).addBlocks blocks).round =
        settledRound C start blocks.toFinset ∧
      ∀ blocks', blocks'.Perm blocks →
        ((⟨.new, start⟩ : ThresholdClock C).addBlocks blocks').round =
          ((⟨.new, start⟩ : ThresholdClock C).addBlocks blocks).round) ↔ NoLoneQuorum C := by
  constructor
  · intro h a b ha
    by_contra hne
    have hb : C.stake a + C.stake b ≤ C.totalStake := by
      rw [← sum_pair hne]
      exact sum_le_sum_of_subset (subset_univ _)
    have hround := (h 1 [⟨5, a, 0⟩, ⟨6, b, 0⟩]).1
    have hsup : [(⟨5, a, 0⟩ : BlockRef n), ⟨6, b, 0⟩].toFinset.sup BlockRef.round = 6 := by simp
    have hsix : authorsAt [(⟨5, a, 0⟩ : BlockRef n), ⟨6, b, 0⟩].toFinset 6 = {b} := by
      ext c
      simp [mem_authorsAt, eq_comm]
    rw [addBlocks_of_lone ha, settledRound, hsup, hsix, sum_singleton] at hround
    unfold Committee.quorumThreshold at ha hround
    split at hround <;> omega
  · intro hstake start blocks
    refine ⟨round_addBlocks_eq hstake start blocks, fun blocks' hp => ?_⟩
    rw [round_addBlocks_eq hstake, round_addBlocks_eq hstake, List.toFinset_eq_of_perm _ _ hp]

/-- **The order matters** when the first authority is a quorum and there is another one: its block
of round 5 counts for round 6 too. -/
theorem order_matters : ∃ C : Committee 2,
    ((⟨.new, 1⟩ : ThresholdClock C).addBlocks [⟨5, 0, 0⟩, ⟨6, 1, 0⟩]).round = 7 ∧
      ((⟨.new, 1⟩ : ThresholdClock C).addBlocks [⟨6, 1, 0⟩, ⟨5, 0, 0⟩]).round = 6 :=
  ⟨⟨0, fun a => if a = 0 then 10 else 1, by decide⟩, by decide⟩

end ThresholdClock

end OneChain.Consensus
