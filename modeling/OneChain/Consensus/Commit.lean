import OneChain.Consensus.Block

/-!
# Commits, leaders and scores

The records of `commit.rs` and `leader_scoring.rs`: a commit as it is stored, the sub-dag it stands
for, the status of a leader slot, and the votes that are scored for the leader schedule.

A commit's digest is the hash of its serialisation. The hash is a parameter, `commitDigest`.
-/

namespace OneChain.Consensus

open Lib

variable {n : ℕ} {C : Committee n}

/-! ## Panics -/

/-- Why there is no median timestamp. -/
inductive MedianError
  | noBlocks
  | lowStake (totalStake quorumThreshold : ℕ)
  deriving DecidableEq

/-- The assertions, `unwrap`s and explicit panics of the modelled functions. -/
inductive Panic (n : ℕ)
  | roundHasCommittedBlocks (round : ℕ)
  | blockShouldExistInDag (r : BlockRef n)
  | blockNotFoundInStorage (r : BlockRef n)
  | moreThanOneCandidate (leader : Slot n)
  | moreThanOneCertifiedLeader (leader : Slot n)
  | genesisBlockAccepted
  | genesisNotFound (author : Fin n)
  | ownSlotTaken (r : BlockRef n)
  | blockNotInCache (r : BlockRef n)
  | committedTwice (r : BlockRef n)
  | commitIndexSkipped (index : ℕ)
  | commitTimestampDecreased (index : ℕ)
  | duplicateVote (r : BlockRef n)
  | commitRangeShrinks
  | leaderNotInSubDag
  | scoringSubdagNotEmpty
  | noLastCommit
  | noCommitRange
  | noVoteInfo (r : BlockRef n)
  | missingInDagState (r : BlockRef n)
  | notInDagState (r : BlockRef n)
  | noMedianTimestamp (leader : BlockRef n) (e : MedianError)
  | belowGcRound (gcRound : ℕ) (leader : BlockRef n)
  /-- A loop of the model was given too little fuel; no run of the code ends like this. -/
  | outOfFuel
  deriving DecidableEq

/-! ## Commits -/

/-- `GENESIS_COMMIT_INDEX`. -/
abbrev genesisCommitIndex : ℕ := 0

structure CommitV1 (n : ℕ) where
  (index previousDigest timestampMs : ℕ)
  leader : BlockRef n
  blocks : List (BlockRef n)
  deriving DecidableEq

structure CommitRef where
  (index digest : ℕ)
  deriving DecidableEq

namespace CommitRef

def key (r : CommitRef) : ℕ ×ₗ ℕ := toLex (r.index, r.digest)

theorem key_injective : Function.Injective key := by
  rintro ⟨i, d⟩ ⟨i', d'⟩ h
  simpa [key] using h

instance : LinearOrder CommitRef := LinearOrder.lift' key key_injective

theorem index_le_of_le {r s : CommitRef} (h : r ≤ s) : r.index ≤ s.index := by
  have hkey : toLex (r.index, r.digest) ≤ toLex (s.index, s.digest) := h
  rcases Prod.Lex.toLex_le_toLex.1 hkey with hlt | ⟨heq, _⟩
  · exact hlt.le
  · exact heq.le

theorem lt_of_index_lt {r s : CommitRef} (h : r.index < s.index) : r < s := by
  refine lt_of_not_ge fun hle => ?_
  exact absurd (index_le_of_le hle) (not_le.2 h)

end CommitRef

structure TrustedCommit (n : ℕ) extends CommitV1 n where
  digest : ℕ
  deriving DecidableEq

def TrustedCommit.newTrusted (commitDigest : CommitV1 n → ℕ) (commit : CommitV1 n) :
    TrustedCommit n :=
  { commit with digest := commitDigest commit }

def TrustedCommit.reference (commit : TrustedCommit n) : CommitRef := ⟨commit.index, commit.digest⟩

/-- Rejected transactions by block. -/
abbrev RejectedTransactions (n : ℕ) := OrdMap (BlockRef n) (List TransactionIndex)

structure CommittedSubDag (n : ℕ) where
  leader : BlockRef n
  blocks : List (Block n)
  timestampMs : ℕ
  commitRef : CommitRef
  decidedWithLocalBlocks : Bool
  reputationScoresDesc : List (Fin n × ℕ)
  rejectedTransactionsByBlock : RejectedTransactions n
  deriving DecidableEq

def CommittedSubDag.new (leader : BlockRef n) (blocks : List (Block n)) (timestampMs : ℕ)
    (commitRef : CommitRef) : CommittedSubDag n :=
  { leader, blocks, timestampMs, commitRef, decidedWithLocalBlocks := true,
    reputationScoresDesc := [], rejectedTransactionsByBlock := OrdMap.empty }

/-! ## Leaders -/

inductive Decision
  | direct
  | indirect
  | certified
  deriving DecidableEq

/-- The status of a leader slot from the direct and indirect commit rules. -/
inductive LeaderStatus (n : ℕ)
  | commit (block : Block n)
  | skip (slot : Slot n)
  | undecided (slot : Slot n)
  deriving DecidableEq

/-- A decided leader; a commit tells whether it was direct. -/
inductive DecidedLeader (n : ℕ)
  | commit (block : Block n) (direct : Bool)
  | skip (slot : Slot n)
  deriving DecidableEq

namespace LeaderStatus

def round : LeaderStatus n → ℕ
  | commit block => block.round
  | skip leader => leader.round
  | undecided leader => leader.round

def isDecided : LeaderStatus n → Bool
  | commit _ => true
  | skip _ => true
  | undecided _ => false

def intoDecidedLeader (direct : Bool) : LeaderStatus n → Option (DecidedLeader n)
  | commit block => some (.commit block direct)
  | skip slot => some (.skip slot)
  | undecided _ => none

end LeaderStatus

/-! ## Scores -/

/-- `CommitRange`: `start` inclusive, `stop` exclusive. -/
structure CommitRange where
  (start stop : ℕ)
  deriving DecidableEq

structure ReputationScores (n : ℕ) where
  scoresPerAuthority : Fin n → ℕ
  commitRange : CommitRange

structure CommitInfo (n : ℕ) where
  committedRounds : Fin n → ℕ
  reputationScores : ReputationScores n

/-- The votes for committed leaders, and the stake of the blocks that strongly link to each. -/
structure ScoringSubdag (C : Committee n) where
  commitRange : Option CommitRange
  leaders : Finset (BlockRef n)
  votes : OrdMap (BlockRef n) (StakeAggregator C)
  deriving DecidableEq

namespace ScoringSubdag

def new : ScoringSubdag C := ⟨none, ∅, OrdMap.empty⟩

variable (s : ScoringSubdag C)

def isEmpty : Prop :=
  s.leaders = ∅ ∧ s.votes = OrdMap.empty ∧ s.commitRange = none
  deriving Decidable

/-- Sets the range to the index of the first sub-dag, or extends it to the index. -/
def extendRange (index : ℕ) : Except (Panic n) (ScoringSubdag C) :=
  match s.commitRange with
  | none => .ok { s with commitRange := some ⟨index, index + 1⟩ }
  | some range => do
    check (range.stop ≤ index + 1) .commitRangeShrinks
    pure { s with commitRange := some ⟨range.start, index + 1⟩ }

variable (block : Block n)

/-- A block whose strong ancestor is a leader is a vote for it. -/
def recordVote (ancestor : BlockRef n) : Except (Panic n) (ScoringSubdag C) :=
  if ancestor ∈ s.leaders then do
    check (block.reference ∉ s.votes) (.duplicateVote block.reference)
    pure { s with votes := s.votes.insert block.reference .new }
  else .ok s

/-- A strong link to a vote distributes it. -/
def distribute (ancestor : BlockRef n) : ScoringSubdag C :=
  match s.votes.get? ancestor with
  | some stake => { s with votes := s.votes.insert ancestor (stake.add block.author).1 }
  | none => s

def addAncestor (s : ScoringSubdag C) (ancestor : BlockRef n) :
    Except (Panic n) (ScoringSubdag C) :=
  if ancestor.round ≠ block.round - 1 then .ok s
  else do
    let s ← s.recordVote block ancestor
    pure (s.distribute block ancestor)

def addBlock : Except (Panic n) (ScoringSubdag C) := block.ancestors.foldlM (addAncestor block) s

def addSubdag (subdag : CommittedSubDag n) :
    Except (Panic n) (ScoringSubdag C) := do
  let s ← s.extendRange subdag.commitRef.index
  subdag.blocks.foldlM addBlock { s with leaders := insert subdag.leader s.leaders }

def addSubdags (committedSubdags : List (CommittedSubDag n)) : Except (Panic n) (ScoringSubdag C) :=
  committedSubdags.foldlM addSubdag s

/-- The stake of the blocks that distribute an authority's votes. -/
def distributedVotesScores (authority : Fin n) : ℕ :=
  ((s.votes.filter fun vote _ => vote.author = authority).values.map StakeAggregator.stake).sum

def calculateDistributedVoteScores :
    Except (Panic n) (ReputationScores n) := do
  let commitRange ← require s.commitRange .noCommitRange
  pure ⟨s.distributedVotesScores, commitRange⟩

end ScoringSubdag

end OneChain.Consensus
