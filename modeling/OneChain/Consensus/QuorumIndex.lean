import OneChain.Consensus.Commit
import OneChain.Consensus.Dag
import OneChain.Lib.WeightedRank

/-!
# What a quorum has reached

Two places ask how far a quorum of authorities has come: `CommitVoteMonitor` for the commits that
were voted for, and `compute_quorum_round` for the rounds that peers report. Both sort the values
with their stakes and add the stakes up.

* `CommitVoteMonitor.quorumCommitIndex_spec` — the greatest index that a quorum has voted for.
* `computeQuorumRound_spec` — the two rounds lie between rounds of honest authorities.
-/

namespace OneChain.Consensus

open Lib List Finset

variable {n : ℕ} {C : Committee n} {byzantine : Finset (Fin n)}

/-! ## Quorums -/

theorem Committee.quorum_total (C : Committee n) : C.quorumThreshold ≤ ∑ a, C.stake a := by
  have := C.total_pos
  unfold quorumThreshold totalStake
  omega

theorem Committee.quorum_honest (h : ∑ a ∈ byzantine, C.stake a < C.validityThreshold)
    {P : Fin n → Prop} [DecidablePred P] (hP : ∀ a ∉ byzantine, P a) :
    C.quorumThreshold ≤ ∑ a with P a, C.stake a := by
  have ht := sum_compl_add_sum byzantine C.stake
  have hle : ∑ a ∈ byzantineᶜ, C.stake a ≤ ∑ a with P a, C.stake a :=
    sum_le_sum_of_subset fun a ha => by simpa using hP a (by simpa using ha)
  unfold validityThreshold totalStake at h
  unfold quorumThreshold totalStake
  omega

/-- The scan for a quorum, over the values of the authorities put in order. -/
theorem scan_quorum {R : ℕ → ℕ → Prop} [DecidableRel R] [IsTrans ℕ R] {value : Fin n → ℕ}
    {l : List (ℕ × ℕ)} (hp : l.Perm ((finRange n).map fun a => (value a, C.stake a)))
    (hl : l.Pairwise fun a b => R a.1 b.1) (s : ℕ) :
    R (scan (C.quorumThreshold ≤ ·) 0 0 l) s ↔
      C.quorumThreshold ≤ ∑ a with R (value a) s, C.stake a :=
  (scan_participants (fun _ _ h h' => h'.trans h) hl hp (by simp [Committee.quorumThreshold])
    C.quorum_total s).symm

/-! ## Votes for commits -/

/-- The highest commit index voted by each authority. -/
structure CommitVoteMonitor (n : ℕ) where
  highestVotedCommits : Fin n → ℕ

namespace CommitVoteMonitor

def new : CommitVoteMonitor n := ⟨fun _ => 0⟩

/-- A block and the commit votes in it. -/
def observeBlock (self : CommitVoteMonitor n) (block : Block n × List CommitRef) :
    CommitVoteMonitor n :=
  block.2.foldl (fun m vote =>
    if m.highestVotedCommits block.1.author < vote.index then
      ⟨Function.update m.highestVotedCommits block.1.author vote.index⟩
    else m) self

def quorumCommitIndex (C : Committee n) (self : CommitVoteMonitor n) : ℕ :=
  let highestVotedCommits := (finRange n).map fun a => (self.highestVotedCommits a, C.stake a)
  scan (C.quorumThreshold ≤ ·) genesisCommitIndex 0
    (highestVotedCommits.insertionSort fun a b => toLex b ≤ toLex a)

/-- The monitor after the blocks. -/
def observed (blocks : List (Block n × List CommitRef)) : CommitVoteMonitor n :=
  blocks.foldl observeBlock new

/-- The authority has voted for a commit with the index or a later one. -/
def VotedFor (blocks : List (Block n × List CommitRef)) (a : Fin n) (index : ℕ) : Prop :=
  index = 0 ∨ ∃ b ∈ blocks, b.1.author = a ∧ ∃ vote ∈ b.2, index ≤ vote.index
  deriving Decidable

variable {blocks : List (Block n × List CommitRef)} {a : Fin n} {index : ℕ}
  {more : List (Block n × List CommitRef)}

theorem le_observeBlock {m : CommitVoteMonitor n} {block : Block n} {votes : List CommitRef} :
    index ≤ (m.observeBlock (block, votes)).highestVotedCommits a ↔
      index ≤ m.highestVotedCommits a ∨ block.author = a ∧ ∃ vote ∈ votes, index ≤ vote.index := by
  induction votes generalizing m with
  | nil => simp [observeBlock]
  | cons vote votes ih =>
    rw [observeBlock, foldl_cons]
    refine ih.trans ?_
    by_cases ha : block.author = a
    · subst ha
      split <;> simp <;> grind
    · split <;> simp [ha, Function.update_of_ne (Ne.symm ha)]

theorem le_observed :
    index ≤ (observed blocks).highestVotedCommits a ↔ VotedFor blocks a index := by
  induction blocks using List.reverseRecOn with
  | nil => simp [observed, new, VotedFor]
  | append_singleton blocks b ih =>
    rw [observed, foldl_append]
    refine le_observeBlock.trans ?_
    rw [← observed, ih, VotedFor, VotedFor, or_assoc]
    simp

theorem VotedFor.append (h : VotedFor blocks a index) : VotedFor (blocks ++ more) a index := by
  simp only [VotedFor, mem_append, or_and_right, exists_or] at h ⊢
  exact h.imp_right Or.inl

theorem le_quorumCommitIndex : index ≤ (observed blocks).quorumCommitIndex C ↔
    C.quorumThreshold ≤ ∑ a with VotedFor blocks a index, C.stake a := by
  have hso := pairwise_insertionSort (fun a b : ℕ × ℕ => toLex b ≤ toLex a)
    ((finRange n).map fun a => ((observed blocks).highestVotedCommits a, C.stake a))
  have hs := scan_quorum (R := (· ≥ ·)) (perm_insertionSort _ _)
    (hso.imp fun h => Prod.Lex.monotone_fst _ _ h) index
  simp only [le_observed] at hs
  exact hs

/-- **The index is the greatest one that a quorum has voted for.** It never decreases, and an honest
authority has voted for it. -/
theorem quorumCommitIndex_spec (C : Committee n) (blocks : List (Block n × List CommitRef)) :
    (∀ index, index ≤ (observed blocks).quorumCommitIndex C ↔
      C.quorumThreshold ≤ ∑ a with VotedFor blocks a index, C.stake a) ∧
    (∀ more, (observed blocks).quorumCommitIndex C ≤
      (observed (blocks ++ more)).quorumCommitIndex C) ∧
    ∀ byzantine : Finset (Fin n), ∑ a ∈ byzantine, C.stake a < C.validityThreshold →
      ∃ a ∉ byzantine, VotedFor blocks a ((observed blocks).quorumCommitIndex C) := by
  have hi := le_quorumCommitIndex.1 (le_refl ((observed blocks).quorumCommitIndex C))
  refine ⟨fun _ => le_quorumCommitIndex, fun more => ?_, fun byzantine hl => ?_⟩
  · refine le_quorumCommitIndex.2 (hi.trans (sum_le_sum_of_subset fun a => ?_))
    simp only [Finset.mem_filter, Finset.mem_univ, true_and]
    exact VotedFor.append
  · -- a quorum meets itself in an honest authority
    obtain ⟨a, ha, _, hh⟩ :=
      Quorums.Quorum.inter (Q := C.quorums byzantine hl) hi hi
    exact ⟨a, hh, (Finset.mem_filter.1 ha).2⟩

end CommitVoteMonitor

/-! ## Rounds that peers report -/

/-- The rounds of the peer `target` that a quorum has at least, and at most. -/
def computeQuorumRound (C : Committee n) (target : Fin n) (highestRounds : Fin n → Fin n → ℕ) :
    ℕ × ℕ :=
  let roundsWithStake := ((finRange n).map fun a =>
    (highestRounds a target, C.stake a)).insertionSort fun a b => toLex a ≤ toLex b
  (scan (C.quorumThreshold ≤ ·) 0 0 roundsWithStake.reverse,
    scan (C.quorumThreshold ≤ ·) 0 0 roundsWithStake)

section Rounds

variable {target : Fin n} {rounds : Fin n → Fin n → ℕ} {round : ℕ}

theorem le_low : round ≤ (computeQuorumRound C target rounds).1 ↔
    C.quorumThreshold ≤ ∑ a with round ≤ rounds a target, C.stake a := by
  have hs := pairwise_insertionSort (fun a b : ℕ × ℕ => toLex a ≤ toLex b)
    ((finRange n).map fun a => (rounds a target, C.stake a))
  exact scan_quorum (R := (· ≥ ·)) ((reverse_perm _).trans (perm_insertionSort _ _))
    (pairwise_reverse.2 (hs.imp fun h => Prod.Lex.monotone_fst _ _ h)) round

theorem high_le : (computeQuorumRound C target rounds).2 ≤ round ↔
    C.quorumThreshold ≤ ∑ a with rounds a target ≤ round, C.stake a := by
  have hs := pairwise_insertionSort (fun a b : ℕ × ℕ => toLex a ≤ toLex b)
    ((finRange n).map fun a => (rounds a target, C.stake a))
  exact scan_quorum (perm_insertionSort _ _) (hs.imp fun h => Prod.Lex.monotone_fst _ _ h) round

/-- **The rounds lie between those of honest authorities**, and grow with every report. -/
theorem computeQuorumRound_spec (target : Fin n) (rounds : Fin n → Fin n → ℕ)
    (hlight : ∑ a ∈ byzantine, C.stake a < C.validityThreshold) :
    (computeQuorumRound C target rounds).1 ≤ (computeQuorumRound C target rounds).2 ∧
    (∃ a ∉ byzantine, rounds a target ≤ (computeQuorumRound C target rounds).1) ∧
    (∃ a ∉ byzantine, (computeQuorumRound C target rounds).2 ≤ rounds a target) ∧
    ∀ rounds' : Fin n → Fin n → ℕ, (∀ a, rounds a target ≤ rounds' a target) →
      (computeQuorumRound C target rounds).1 ≤ (computeQuorumRound C target rounds').1 ∧
      (computeQuorumRound C target rounds).2 ≤ (computeQuorumRound C target rounds').2 := by
  have hlow := le_low.1 (le_refl (computeQuorumRound C target rounds).1)
  have hhi := high_le.1 (le_refl (computeQuorumRound C target rounds).2)
  have hho : ∃ a ∉ byzantine, rounds a target ≤ (computeQuorumRound C target rounds).1 := by
    by_contra hn
    push Not at hn
    have := le_low.2 (Committee.quorum_honest hlight fun a ha => Nat.succ_le_of_lt (hn a ha))
    omega
  refine ⟨?_, hho, ?_, fun rounds' hle => ⟨?_, ?_⟩⟩
  · -- two quorums meet
    obtain ⟨a, hl, hh, _⟩ := Quorums.Quorum.inter (Q := C.quorums byzantine hlight) hlow hhi
    exact (Finset.mem_filter.1 hl).2.trans (Finset.mem_filter.1 hh).2
  · by_contra hn
    push Not at hn
    obtain ⟨a, ha, -⟩ := hho
    have := hn a ha
    have := high_le.2 (Committee.quorum_honest hlight fun a ha => Nat.le_sub_one_of_lt (hn a ha))
    omega
  · refine le_low.2 (hlow.trans (sum_le_sum_of_subset fun a ha => ?_))
    simp only [Finset.mem_filter, Finset.mem_univ, true_and] at ha ⊢
    exact ha.trans (hle a)
  · have hh' := high_le.1 (le_refl (computeQuorumRound C target rounds').2)
    refine high_le.2 (hh'.trans (sum_le_sum_of_subset fun a ha => ?_))
    simp only [Finset.mem_filter, Finset.mem_univ, true_and] at ha ⊢
    exact (hle a).trans ha

theorem computeQuorumRound_four :
    ∑ a ∈ {3}, fourAuthorities.stake a < fourAuthorities.validityThreshold ∧
    ∃ a ∉ ({3} : Finset (Fin 4)), (computeQuorumRound fourAuthorities 0 fun a _ => a).2 ≤ a :=
  ⟨by decide, (computeQuorumRound_spec 0 (fun a _ => a) (by decide)).2.2.1⟩

end Rounds

end OneChain.Consensus
