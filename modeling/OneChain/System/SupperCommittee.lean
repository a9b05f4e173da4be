import OneChain.System.ValidatorSet

/-!
# `supper_committee`: proposals and votes

The functions of `supper_committee.move`. A proposal carries an action and two sets of voters.
Whoever creates it votes for it at once; every vote is followed by a tally against the voting
powers of the moment, and the tally may decide the proposal.

The action is a dynamic field whose type is recorded by name; here it is one constructor for each
of the three types. All three belong to the system package, so the check of the package's address
in `create_proposal` always passes.
-/

namespace OneChain.System

open Lib Move VotingPower

/-- The three actions that a proposal can ask for. -/
inductive Action
  | updateOnlyTrustedValidator (onlyTrustedValidator : Bool)
  | updateTrustedValidators (operate : Bool) (validator : Address)
  | updateOnlyValidatorStaking (validatorAddress : Address) (onlyValidatorStaking : Bool)
  deriving DecidableEq, Repr

inductive ProposalStatus
  | pending
  | active
  | pass
  | fail
  | timeout
  deriving DecidableEq, Repr

structure Proposal where
  proposer : Address
  (forVotes againstVotes : VecSet Address)
  (startTimeMs endTimeMs : ℕ)
  action : Action
  status : ProposalStatus

structure SupperCommittee where
  proposalList : List ID
  deriving DecidableEq, Repr

namespace Proposal

def ENotProposalStatusProgress : Abort := .code .supperCommittee 1

def timeout : ℕ := 7 * 24 * 60 * 60 * 1000

variable (self : Proposal)

def proposalStatus (clock : ℕ) : ProposalStatus :=
  if self.startTimeMs > clock then .pending
  else if self.status = .active ∧ clock > self.endTimeMs then .timeout
  else self.status

variable (validatorVotePowers : VecMap Address ℕ)

/-- Add the voting power of `c`; a voter without power is skipped. -/
def addVotePower (power : ℕ) (c : Address) : Call ℕ :=
  match validatorVotePowers.tryGet c with
  | some votePower => addU64 power votePower
  | none => .ok power

/-- The voting power behind a set of voters. -/
def votePower (votes : VecSet Address) : Call ℕ :=
  votes.contents.foldlM (addVotePower validatorVotePowers) 0

def getVotePower : Call (ℕ × ℕ) := do
  let forVotePower ← votePower validatorVotePowers self.forVotes
  let againstVotes ← votePower validatorVotePowers self.againstVotes
  return (forVotePower, againstVotes)

/-- Enter a vote in one of the two sets. The other set is not looked at. -/
def castVote (validatorAddress : Address) (agree : Bool) : Call Proposal :=
  if agree then do
    let forVotes ← self.forVotes.insert validatorAddress
    return { self with forVotes }
  else do
    let againstVotes ← self.againstVotes.insert validatorAddress
    return { self with againstVotes }

/-- The status after a tally. -/
def decided (forVotePower againstVotePower : ℕ) : ProposalStatus :=
  if quorumThreshold ≤ forVotePower then .pass
  else if totalVotingPower - quorumThreshold < againstVotePower then .fail
  else self.status

/-- A proposal before the first vote. -/
def draft (proposer : Address) (action : Action) (startTimeMs endTimeMs : ℕ) : Proposal where
  proposer
  forVotes := VecSet.empty
  againstVotes := VecSet.empty
  startTimeMs
  endTimeMs
  action
  status := .active

def voteProposal (validatorAddress : Address) (agree : Bool) (clock : ℕ) : Call Proposal := do
  check (self.proposalStatus clock = .active) ENotProposalStatusProgress
  let self ← self.castVote validatorAddress agree
  let (forVotePower, againstVotePower) ← self.getVotePower validatorVotePowers
  return { self with status := self.decided forVotePower againstVotePower }

/-! ## What a vote does -/

variable {p p' : Proposal} {voter : Address} {agree : Bool} {clock : ℕ} {powers : VecMap Address ℕ}

/-- The set that a vote goes to. -/
def side (p : Proposal) (agree : Bool) : VecSet Address :=
  if agree then p.forVotes else p.againstVotes

/-- The voter was not in the set, and now is; the other set and the rest stay. -/
theorem castVote_ok (h : p.castVote voter agree = .ok p') : voter ∉ (p.side agree).contents ∧
      (p'.side agree).contents = (p.side agree).contents ++ [voter] ∧
      (p'.side (!agree)).contents = (p.side (!agree)).contents ∧
      p'.action = p.action ∧ p'.status = p.status ∧ p'.startTimeMs = p.startTimeMs := by
  cases agree with
  | true | false =>
    simp only [castVote, Bool.false_eq_true, if_false, if_true, ok_iff] at h
    obtain ⟨votes, hins, rfl⟩ := h
    obtain ⟨hnot, hv⟩ := VecSet.insert_ok hins
    exact ⟨hnot, hv, rfl, rfl, rfl, rfl⟩

section

variable (h : p.voteProposal powers voter agree clock = .ok p')
include h

theorem voteProposal_ok :
    ∃ cast forPower againstPower, p.proposalStatus clock = .active ∧
      p.castVote voter agree = .ok cast ∧
      cast.getVotePower powers = .ok (forPower, againstPower) ∧
      p' = { cast with status := cast.decided forPower againstPower } := by
  simp only [voteProposal, ok_iff] at h
  obtain ⟨hact, cast, hc, f, a, hp, rfl⟩ := h
  exact ⟨cast, f, a, hact, hc, hp, rfl⟩

theorem action_voteProposal : p'.action = p.action := by
  obtain ⟨cast, _, _, _, hc, _, rfl⟩ := voteProposal_ok h
  obtain ⟨_, _, _, ha, _⟩ := castVote_ok hc
  exact ha

end

end Proposal

namespace SupperCommittee

def new : SupperCommittee := ⟨[]⟩

/-- A new proposal under the fresh id `id`. Its action is never executed here, whatever the
creator's vote decides. -/
def createProposal (self : SupperCommittee) (id : ID) (validatorAddress : Address)
    (validatorVotePowers : VecMap Address ℕ) (action : Action) (clock : ℕ) :
    Call (SupperCommittee × Proposal) := do
  let endTimeMs ← addU64 clock Proposal.timeout
  let proposal := Proposal.draft validatorAddress action clock endTimeMs
  let proposal ← proposal.voteProposal validatorVotePowers validatorAddress true clock
  return ({ self with proposalList := self.proposalList ++ [id] }, proposal)

theorem createProposal_ok {s s' : SupperCommittee} {id : ID} {a : Address}
    {powers : VecMap Address ℕ} {action : Action} {clock : ℕ} {p : Proposal}
    (h : s.createProposal id a powers action clock = .ok (s', p)) :
    ∃ endTimeMs, (Proposal.draft a action clock endTimeMs).voteProposal powers a true clock =
      .ok p := by
  simp only [createProposal, ok_iff] at h
  obtain ⟨endTimeMs, _, _, hv, _, rfl⟩ := h
  exact ⟨endTimeMs, hv⟩

end SupperCommittee

end OneChain.System
