import OneChain.Lib.Transition
import OneChain.Consensus.Commit

/-!
# The transaction certifier

`CertifierState` of `transaction_certifier.rs`. A block votes on an earlier one by rejecting some of
its transactions, or by linking to it from the next round without doing so. Reject votes are counted
as soon as the voting block is received; links count as accept votes once a block of one's own has
the voting block as a parent. A block is output when each of its transactions is accepted or
rejected by a quorum.

`debug_fatal!` only logs in a release build; a missing vote entry is passed over.
-/

namespace OneChain.Consensus

open Lib

variable {n : ℕ} {C : Committee n}

structure CertifiedBlock (n : ℕ) where
  block : Block n
  rejected : List TransactionIndex
  deriving DecidableEq

/-! ## Votes on one block -/

structure VoteInfo (C : Committee n) where
  block : Option (Block n)
  ownRejectTxnVotes : List TransactionIndex
  acceptBlockVotes : StakeAggregator C
  rejectTxnVotes : OrdMap TransactionIndex (StakeAggregator C)
  isCertified : Bool
  deriving DecidableEq

namespace VoteInfo

def default : VoteInfo C := ⟨none, [], .new, .empty, false⟩

/-- The loop over the transactions with reject votes: those with a quorum are collected, and each
other one needs a quorum of accept votes after its reject votes are taken away. -/
def collectRejected (acceptStake : ℕ) :
    List (TransactionIndex × StakeAggregator C) → List TransactionIndex →
      Option (List TransactionIndex)
  | [], rejected => some rejected
  | (idx, rejectTxnVotes) :: rest, rejected =>
    if rejectTxnVotes.reachedThreshold then collectRejected acceptStake rest (rejected ++ [idx])
    else if acceptStake - rejectTxnVotes.stake < C.quorumThreshold then none
    else collectRejected acceptStake rest rejected

/-- The output, if the block can be certified now. -/
def takeCertifiedOutput (info : VoteInfo C) : Option (CertifiedBlock n) :=
  if info.isCertified then none
  else
    match info.block with
    | none => none
    | some block =>
      if info.acceptBlockVotes.reachedThreshold then
        (collectRejected info.acceptBlockVotes.stake info.rejectTxnVotes.entries []).map fun
          rejected => ⟨block, rejected⟩
      else none

/-- One reject vote on a transaction. -/
def addReject (author : Fin n) (info : VoteInfo C) (idx : TransactionIndex) : VoteInfo C :=
  { info with
    rejectTxnVotes := info.rejectTxnVotes.insert idx
      (((info.rejectTxnVotes.get? idx).getD .new).addUnique author).1 }

def addRejects (author : Fin n) (info : VoteInfo C) (rejects : List TransactionIndex) :
    VoteInfo C :=
  rejects.foldl (addReject author) info

def addAccept (author : Fin n) (info : VoteInfo C) : VoteInfo C :=
  { info with acceptBlockVotes := (info.acceptBlockVotes.addUnique author).1 }

end VoteInfo

/-! ## The state -/

structure CertifierState (C : Committee n) where
  votes : OrdMap (BlockRef n) (VoteInfo C)
  gcRound : ℕ
  deriving DecidableEq

/-- The state, and the blocks that were certified, in the order of the output channel. -/
abbrev Certifier (C : Committee n) := CertifierState C × List (CertifiedBlock n)

namespace Certifier

def new : Certifier C := (⟨.empty, genesisRound⟩, [])

variable (p : Certifier C)

def setInfo (r : BlockRef n) (info : VoteInfo C) : Certifier C :=
  ({ p.1 with votes := p.1.votes.insert r info }, p.2)

/-- `take_certified_output` on an entry that was just changed to `info`. -/
def certify (r : BlockRef n) (info : VoteInfo C) : Certifier C :=
  match info.takeCertifiedOutput with
  | none => p.setInfo r info
  | some output =>
    ((p.setInfo r { info with isCertified := true }).1, p.2 ++ [output])

/-- The reject votes of one block on another one. -/
def addBlockVotes (author : Fin n) (p : Certifier C) (blockVotes : BlockTransactionVotes n) :
    Certifier C :=
  if blockVotes.blockRef.round ≤ p.1.gcRound then p
  else
    let info := (p.1.votes.get? blockVotes.blockRef).getD .default
    p.certify blockVotes.blockRef (info.addRejects author blockVotes.rejects)

/-- Nothing happens when the block was received before. -/
def addVotedBlock (voted : Block n × List TransactionIndex) : Certifier C :=
  if voted.1.round ≤ p.1.gcRound then p
  else
    let info := (p.1.votes.get? voted.1.reference).getD .default
    if info.block.isSome then p
    else
      let p := p.setInfo voted.1.reference
        { info with block := some voted.1, ownRejectTxnVotes := voted.2 }
      voted.1.transactionVotes.foldl (addBlockVotes voted.1.author) p

def addVotedBlocks (votedBlocks : List (Block n × List TransactionIndex)) : Certifier C :=
  votedBlocks.foldl addVotedBlock p

/-- The accept vote of a voting block on an ancestor in the round before it. -/
def addAcceptVote (votingBlock : Block n) (p : Certifier C) (target : BlockRef n) : Certifier C :=
  if target.round + 1 ≠ votingBlock.round then p
  else
    match p.1.votes.get? target with
    | none => p
    | some info => p.certify target (info.addAccept votingBlock.author)

/-- The accept votes of a parent of a proposed block. -/
def addParent (proposedRound : ℕ) (p : Certifier C) (parent : BlockRef n) : Certifier C :=
  if parent.round + 1 ≠ proposedRound then p
  else
    match (p.1.votes.get? parent).bind VoteInfo.block with
    | none => p
    | some votingBlock => votingBlock.ancestors.foldl (addAcceptVote votingBlock) p

def addProposedBlock (proposedBlock : Block n) : Except (Panic n) (Certifier C) :=
  if proposedBlock.round ≤ p.1.gcRound + 2 then .ok p
  else do
    check (proposedBlock.reference ∈ p.1.votes) (.noVoteInfo proposedBlock.reference)
    pure (proposedBlock.ancestors.foldl (addParent proposedBlock.round) p)

/-- Entries up to the GC round are dropped, lowest first. -/
def updateGcRound (gcRound : ℕ) : Certifier C :=
  (⟨p.1.votes.popWhile (·.round ≤ gcRound), gcRound⟩, p.2)

end Certifier

/-- What is asked of a certifier. -/
inductive CertifierCall (n : ℕ)
  | addVotedBlocks (votedBlocks : List (Block n × List TransactionIndex))
  | addProposedBlock (proposedBlock : Block n)
  | updateGcRound (gcRound : ℕ)

/-- The certifier as a machine. -/
def certifierMachine (C : Committee n) : Machine (Certifier C) (CertifierCall n) (Panic n) where
  init p := p = .new
  step p call :=
    match call with
    | .addVotedBlocks votedBlocks => .ok (p.addVotedBlocks votedBlocks)
    | .addProposedBlock proposedBlock => p.addProposedBlock proposedBlock
    | .updateGcRound gcRound => .ok (p.updateGcRound gcRound)

end OneChain.Consensus
