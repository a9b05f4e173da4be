import OneChain.Consensus.DagState

/-!
# The base committer

`base_committer.rs`: the direct rule, which counts blames in the voting round and certificates in
the decision round, and the indirect rule, which looks for a certificate in the history of a later
committed leader. The leader schedule is a function of the round and the leader offset.
-/

namespace OneChain.Consensus

open Lib

variable {n : ℕ} {C : Committee n}

/-- `LeaderSchedule::elect_leader` for a fixed swap table. -/
abbrev LeaderSchedule (n : ℕ) := ℕ → ℕ → Fin n

/-- `BaseCommitterOptions`. -/
structure BaseCommitter where
  (waveLength leaderOffset roundOffset : ℕ)
  deriving DecidableEq

namespace BaseCommitter

/-! ## Waves -/

variable (c : BaseCommitter)

def leaderRound (wave : ℕ) : ℕ := wave * c.waveLength + c.roundOffset

def decisionRound (wave : ℕ) : ℕ := wave * c.waveLength + c.waveLength - 1 + c.roundOffset

def waveNumber (round : ℕ) : ℕ := (round - c.roundOffset) / c.waveLength

def electLeader (schedule : LeaderSchedule n) (round : ℕ) : Option (Slot n) :=
  if c.leaderRound (c.waveNumber round) ≠ round then none
  else some ⟨round, schedule round c.leaderOffset⟩

/-! ## Votes and certificates -/

/-- The loop over the ancestors of a block; `recurse` searches the history of one of them. -/
def searchAncestors (d : DagState C) (leaderSlot : Slot n)
    (recurse : Block n → Except (Panic n) (Option (BlockRef n))) :
    List (BlockRef n) → Except (Panic n) (Option (BlockRef n))
  | [] => .ok none
  | ancestor :: rest =>
    if ancestor.slot = leaderSlot then .ok (some ancestor)
    else if ancestor.round ≤ leaderSlot.round then searchAncestors d leaderSlot recurse rest
    else do
      let block ← require (d.getBlock ancestor) (.blockNotFoundInStorage ancestor)
      let support ← recurse block
      if support.isSome then pure support else searchAncestors d leaderSlot recurse rest

/-- Rounds go down along ancestors, so the depth is bounded by the round. -/
def findSupportedBlock (d : DagState C) (leaderSlot : Slot n) :
    ℕ → Block n → Except (Panic n) (Option (BlockRef n))
  | 0, _ => .error .outOfFuel
  | depth + 1, block =>
    if block.round < leaderSlot.round then .ok none
    else searchAncestors d leaderSlot (findSupportedBlock d leaderSlot depth) block.ancestors

variable (d : DagState C)

def isVote (potentialVote leaderBlock : Block n) : Except (Panic n) Bool := do
  let support ← findSupportedBlock d leaderBlock.slot (potentialVote.round + 1) potentialVote
  pure (support = some leaderBlock.reference)

/-- The votes for one leader block that were looked up already. -/
abbrev VoteCache (n : ℕ) := OrdMap (BlockRef n) Bool

/-- A block that is not found must be below the GC round. -/
def checkVote (leaderBlock : Block n) (r : BlockRef n) : Except (Panic n) Bool :=
  match d.getBlock r with
  | some potentialVote => isVote d potentialVote leaderBlock
  | none => do
    check (r.round ≤ d.gcRound) (.blockNotFoundInStorage r)
    pure false

def lookupVote (leaderBlock : Block n) (allVotes : VoteCache n)
    (r : BlockRef n) : Except (Panic n) (Bool × VoteCache n) :=
  match allVotes.get? r with
  | some isVote => .ok (isVote, allVotes)
  | none => do
    let isVote ← checkVote d leaderBlock r
    pure (isVote, allVotes.insert r isVote)

def certificateLoop (d : DagState C) (leaderBlock : Block n) :
    List (BlockRef n) → StakeAggregator C → VoteCache n → Except (Panic n) (Bool × VoteCache n)
  | [], _, allVotes => .ok (false, allVotes)
  | r :: rest, agg, allVotes => do
    let found ← lookupVote d leaderBlock allVotes r
    if found.1 then
      if (agg.add r.author).2 then pure (true, found.2)
      else certificateLoop d leaderBlock rest (agg.add r.author).1 found.2
    else certificateLoop d leaderBlock rest agg found.2

def isCertificate (potentialCertificate leaderBlock : Block n)
    (allVotes : VoteCache n) : Except (Panic n) (Bool × VoteCache n) :=
  certificateLoop d leaderBlock potentialCertificate.ancestors .new allVotes

/-! ## The direct rule -/

def blameLoop (leader : Fin n) : List (Block n) → StakeAggregator C → Bool
  | [], _ => false
  | block :: rest, agg =>
    if ∀ ancestor ∈ block.ancestors, ancestor.author ≠ leader then
      if (agg.add block.author).2 then true else blameLoop leader rest (agg.add block.author).1
    else blameLoop leader rest agg

def enoughLeaderBlame (votingRound : ℕ) (leader : Fin n) :
    Except (Panic n) Bool := do
  let votingBlocks ← d.getUncommittedBlocksAtRound votingRound
  pure (blameLoop (C := C) leader votingBlocks .new)

def supportLoop (d : DagState C) (leaderBlock : Block n) :
    List (Block n) → StakeAggregator C → VoteCache n → Except (Panic n) Bool
  | [], _, _ => .ok false
  | block :: rest, agg, allVotes => do
    let certificate ← isCertificate d block leaderBlock allVotes
    if certificate.1 then
      if (agg.add block.author).2 then pure true
      else supportLoop d leaderBlock rest (agg.add block.author).1 certificate.2
    else supportLoop d leaderBlock rest agg certificate.2

/-- The blocks of the round are counted first, with repetitions. -/
def enoughLeaderSupport (decisionRound : ℕ) (leaderBlock : Block n) :
    Except (Panic n) Bool := do
  let decisionBlocks ← d.getUncommittedBlocksAtRound decisionRound
  if C.reachedQuorum (decisionBlocks.map fun b => C.stake b.author).sum then
    supportLoop d leaderBlock decisionBlocks .new .empty
  else pure false

def tryDirectDecide (d : DagState C) (leader : Slot n) :
    Except (Panic n) (LeaderStatus n) := do
  let blamed ← enoughLeaderBlame d (leader.round + 1) leader.authority
  if blamed then pure (.skip leader)
  else
    let decisionRound := c.decisionRound (c.waveNumber leader.round)
    let supported ← filterE (enoughLeaderSupport d decisionRound)
      (d.getUncommittedBlocksAtSlot leader)
    check (supported.length ≤ 1) (.moreThanOneCandidate leader)
    match supported.getLast? with
    | some block => pure (.commit block)
    | none => pure (.undecided leader)

/-! ## The indirect rule -/

/-- Whether one of the blocks is a certificate for the leader block. -/
def anyCertificate (d : DagState C) (leaderBlock : Block n) :
    List (Block n) → VoteCache n → Except (Panic n) Bool
  | [], _ => .ok false
  | block :: rest, allVotes => do
    let certificate ← isCertificate d block leaderBlock allVotes
    if certificate.1 then pure true else anyCertificate d leaderBlock rest certificate.2

def decideLeaderFromAnchor (d : DagState C) (anchor : Block n)
    (leaderSlot : Slot n) : Except (Panic n) (LeaderStatus n) := do
  let leaderBlocks := d.getUncommittedBlocksAtSlot leaderSlot
  let decisionRound := c.decisionRound (c.waveNumber leaderSlot.round)
  let potentialCertificates ← d.ancestorsAtRound anchor decisionRound
  let certified ← filterE (fun leaderBlock =>
    anyCertificate d leaderBlock potentialCertificates .empty) leaderBlocks
  check (certified.length ≤ 1) (.moreThanOneCertifiedLeader leaderSlot)
  match certified.getLast? with
  | some block => pure (.commit block)
  | none => pure (.skip leaderSlot)

/-- The first committed leader, unless an undecided one comes before it. -/
def firstAnchor : List (LeaderStatus n) → Option (Block n)
  | [] => none
  | .commit anchor :: _ => some anchor
  | .skip _ :: rest => firstAnchor rest
  | .undecided _ :: _ => none

def tryIndirectDecide (d : DagState C) (leaderSlot : Slot n)
    (leaders : List (LeaderStatus n)) : Except (Panic n) (LeaderStatus n) :=
  match firstAnchor (leaders.filter fun x => leaderSlot.round + c.waveLength ≤ x.round) with
  | some anchor => c.decideLeaderFromAnchor d anchor leaderSlot
  | none => .ok (.undecided leaderSlot)

end BaseCommitter

/-! ## The universal committer -/

/-- `UniversalCommitter`, with the committers of all leaders and pipeline stages. -/
structure UniversalCommitter (n : ℕ) where
  schedule : LeaderSchedule n
  committers : List BaseCommitter

/-- `DEFAULT_WAVE_LENGTH`. -/
abbrev defaultWaveLength : ℕ := 3

/-- `UniversalCommitterBuilder::build`. -/
def UniversalCommitter.build (schedule : LeaderSchedule n) (waveLength numberOfLeaders : ℕ)
    (pipeline : Bool) : UniversalCommitter n where
  schedule := schedule
  committers :=
    (List.range (if pipeline then waveLength else 1)).flatMap fun roundOffset =>
      (List.range numberOfLeaders).map fun leaderOffset =>
        { waveLength, leaderOffset, roundOffset }

namespace UniversalCommitter

/-- The first round that is looked at. With one leader per round, leaders of the last decided
round are never decided again. -/
def lastRound (d : DagState C) (lastDecided : Slot n) : ℕ :=
  if d.context.protocol.mysticetiNumLeadersPerRound = some 1 then lastDecided.round + 1
  else lastDecided.round

/-- Rounds and committers from the highest round down to `first`. -/
def descending (u : UniversalCommitter n) (first highest : ℕ) : List (ℕ × BaseCommitter) :=
  (List.range' first (highest + 1 - first)).reverse.flatMap fun round =>
    u.committers.reverse.map fun committer => (round, committer)

/-- One leader: the direct rule, and the indirect rule if that leaves it undecided. -/
def decideSlot (d : DagState C) (committer : BaseCommitter) (slot : Slot n)
    (leaders : List (LeaderStatus n × Decision)) :
    Except (Panic n) (LeaderStatus n × Decision) := do
  let status ← committer.tryDirectDecide d slot
  if status.isDecided then pure (status, .direct)
  else
    let status ← committer.tryIndirectDecide d slot (leaders.map Prod.fst)
    pure (status, .indirect)

/-- The loop over the leaders, highest first, until the last decided one. -/
def decideLoop (u : UniversalCommitter n) (d : DagState C) (lastDecided : Slot n) :
    List (ℕ × BaseCommitter) → List (LeaderStatus n × Decision) →
      Except (Panic n) (List (LeaderStatus n × Decision))
  | [], leaders => .ok leaders
  | (round, committer) :: rest, leaders =>
    match committer.electLeader u.schedule round with
    | none => decideLoop u d lastDecided rest leaders
    | some slot =>
      if slot = lastDecided then .ok leaders
      else do
        let leader ← decideSlot d committer slot leaders
        decideLoop u d lastDecided rest (leader :: leaders)

/-- The longest prefix of decided leaders; genesis slots are passed over. -/
def decidedPrefix : List (LeaderStatus n × Decision) → List (DecidedLeader n)
  | [] => []
  | (leader, decision) :: rest =>
    if leader.round = genesisRound then decidedPrefix rest
    else
      match leader.intoDecidedLeader (decision = .direct) with
      | some decided => decided :: decidedPrefix rest
      | none => []

def tryDecide (u : UniversalCommitter n) (d : DagState C) (lastDecided : Slot n) :
    Except (Panic n) (List (DecidedLeader n)) := do
  let leaders ← u.decideLoop d lastDecided
    (u.descending (lastRound d lastDecided) (d.highestAcceptedRound - 2)) []
  pure (decidedPrefix leaders)

end UniversalCommitter

end OneChain.Consensus
