import OneChain.System.Chain

/-!
# Proposals and votes over whole runs

A proposal keeps two sets of voters, and a vote is entered in one of them without a look at the
other. Two properties of every run hang on that and on who creates a proposal:

* `votes_counted_once` — if nobody votes on a proposal both ways, the two sets are disjoint and
  every tally counts at most the whole voting power. `vote_both_ways` shows that somebody can.
* `passed_iff_applied` — if no creator has a quorum alone, a proposal has passed exactly when its
  action was executed, and that happened once. A creator with a quorum makes a proposal that has
  passed at birth and is never executed (`passed_without_effect`).
-/

namespace OneChain.System

open Lib Move VotingPower Validator List SuiSystemStateInnerV2 Proposal Table Machine

/-! ## Tallies -/

/-- The power that a voter has. -/
def voterPower (powers : VecMap Address ℕ) (a : Address) : ℕ := (powers.tryGet a).getD 0

namespace Proposal

variable {powers : VecMap Address ℕ} {p : Proposal} {f a : ℕ}

theorem votePower_ok {votes : VecSet Address} {n : ℕ}
    (h : votePower powers votes = .ok n) : n = tally (voterPower powers) votes.contents := by
  have hs : ∀ sum sum', ∀ c ∈ votes.contents,
      addVotePower powers sum c = .ok sum' → sum' = sum + voterPower powers c := by
    intro sum sum' c _ hc
    rw [addVotePower] at hc
    rw [voterPower]
    cases hget : powers.tryGet c with
    | some power =>
      rw [hget] at hc
      exact (addU64_ok.1 hc).2
    | none =>
      rw [hget] at hc
      cases hc
      rfl
  rw [foldlM_tally hs h, Nat.zero_add]

theorem getVotePower_ok (h : p.getVotePower powers = .ok (f, a)) :
    f = tally (voterPower powers) p.forVotes.contents ∧
      a = tally (voterPower powers) p.againstVotes.contents := by
  simp only [getVotePower, ok_iff] at h
  obtain ⟨_, hf, _, ha, rfl, rfl⟩ := h
  exact ⟨votePower_ok hf, votePower_ok ha⟩

/-- Nobody has voted both ways. -/
def Consistent (p : Proposal) : Prop := ∀ a ∈ p.forVotes.contents, a ∉ p.againstVotes.contents

/-- **A tally of consistent votes** counts every voter once. -/
theorem Consistent.getVotePower_le (hp : p.Consistent) (h : p.getVotePower powers = .ok (f, a)) :
    f + a ≤ tally Prod.snd powers.contents := by
  obtain ⟨rfl, rfl⟩ := getVotePower_ok h
  rw [← tally_append]
  refine tally_lookup_le Prod.snd ?_
  exact nodup_append.2 ⟨p.forVotes.nodup, p.againstVotes.nodup,
    fun x hx y hy hxy => hp x hx (hxy ▸ hy)⟩

variable {cast : Proposal} {voter : Address} {agree : Bool}

theorem Consistent.castVote (hp : p.Consistent)
    (ho : voter ∉ (p.side (!agree)).contents) (h : p.castVote voter agree = .ok cast) :
    cast.Consistent := by
  obtain ⟨_, hs, hr, _⟩ := castVote_ok h
  intro a hfor ha
  cases agree with
  | true =>
    have hfor' : a ∈ p.forVotes.contents ++ [voter] := hs ▸ hfor
    have ha' : a ∈ p.againstVotes.contents := hr ▸ ha
    rcases mem_append.1 hfor' with hmem | hmem
    · exact hp a hmem ha'
    · exact ho (mem_singleton.1 hmem ▸ ha')
  | false =>
    have hfor' : a ∈ p.forVotes.contents := hr ▸ hfor
    have ha' : a ∈ p.againstVotes.contents ++ [voter] := hs ▸ ha
    rcases mem_append.1 ha' with hmem | hmem
    · exact hp a hfor' hmem
    · exact ho (mem_singleton.1 hmem ▸ hfor')

variable {a : Address}

theorem Consistent.draft {action : Action} {start stop : ℕ}
    (h : (draft a action start stop).castVote voter agree = .ok cast) : cast.Consistent := by
  refine Consistent.castVote (fun x hx => absurd hx not_mem_nil) ?_ h
  cases agree <;> exact not_mem_nil

end Proposal

namespace Chain

variable {validate : ValidatorMetadata → Call Unit} {s s' : Chain} {tx : Tx}
  {powers : VecMap Address ℕ}

theorem foldlM_insertVotingPower {vs ws : List Validator} {m m' : VecMap Address ℕ}
    (hvs : (vs.map suiAddress).Nodup) (hws : ∀ w ∈ ws, w ∈ vs)
    (h : (ws.map suiAddress).foldlM (insertVotingPower vs) m = .ok m') :
    m'.contents = m.contents ++ ws.map fun w => (w.suiAddress, w.votingPower) := by
  induction ws generalizing m with
  | nil =>
    cases h
    simp
  | cons w ws ih =>
    rw [map_cons, foldlM_cons, bind_ok] at h
    obtain ⟨t, ht, hr⟩ := h
    rw [insertVotingPower, ValidatorSet.getValidatorRef_of_mem hvs (hws w mem_cons_self)] at ht
    rw [ih (fun x hx => hws x (mem_cons_of_mem _ hx)) hr, (VecMap.insert_ok ht).2, append_assoc]
    rfl

section Powers

variable (hs : s.set.Sound) (h : s.system.activeValidatorVotingPowers = .ok powers)

include hs h

/-- The map of powers holds the active validators. -/
theorem activeValidatorVotingPowers_ok : powers.contents =
      s.set.activeValidators.reverse.map fun v => (v.suiAddress, v.votingPower) := by
  rw [activeValidatorVotingPowers, ← map_reverse] at h
  exact foldlM_insertVotingPower hs.addresses (fun w hw => mem_reverse.1 hw) h

theorem tally_powers : tally Prod.snd powers.contents = totalVotingPower := by
  rw [activeValidatorVotingPowers_ok hs h, ← hs.power_total]
  simp [tally, Function.comp_def]

theorem power_lt {bound : ℕ} (hpos : 0 < bound)
    (hb : ∀ v ∈ s.set.activeValidators, v.suiAddress = a → v.votingPower < bound) :
    voterPower powers a < bound := by
  rw [voterPower]
  cases hget : powers.tryGet a with
  | none => exact hpos
  | some n =>
    have hmem := VecMap.tryGet_eq_some.1 hget
    rw [activeValidatorVotingPowers_ok hs h] at hmem
    obtain ⟨v, hv, heq⟩ := mem_map.1 hmem
    obtain ⟨ha, rfl⟩ := Prod.mk.inj heq
    exact hb v (mem_reverse.1 hv) ha

end Powers

/-! ## One vote for each voter -/

/-- No vote by somebody who has already voted the other way on the proposal. -/
def VotesOneWay (s : Chain) (tx : Tx) : Prop :=
  ∀ b ∈ tx.ballot, ∀ p ∈ s.proposals b.proposal, b.voter ∉ (p.side (!b.agree)).contents

instance (s : Chain) (tx : Tx) : Decidable (s.VotesOneWay tx) := by
  unfold VotesOneWay
  infer_instance

/-- The tally of a proposal against the active validators of the moment, as `vote_proposal` makes
it once the vote is entered. -/
def tallyOf (s : Chain) (p : Proposal) : Call (ℕ × ℕ) := do
  let powers ← s.system.activeValidatorVotingPowers
  p.getVotePower powers

/-- All proposals are consistent. -/
def Consistent (s : Chain) : Prop := ∀ id p, s.proposals id = some p → p.Consistent

theorem Consistent.step (hs : s.Consistent) (hone : s.VotesOneWay tx)
    (h : step validate s tx = .ok s') : s'.Consistent := by
  cases step_effect h with
  | calm => exact hs
  | join => exact hs
  | resign => exact hs
  | epoch => exact hs
  | propose _ hpr =>
    refine forall_set ?_ hs
    obtain ⟨_, _, _, hcr, _⟩ := propose_ok hpr
    obtain ⟨_, hv⟩ := SupperCommittee.createProposal_ok hcr
    obtain ⟨cast, _, _, _, hc, _, rfl⟩ := voteProposal_ok hv
    have hco : cast.Consistent := .draft hc
    exact hco
  | vote hp hv =>
    refine forall_set ?_ hs
    obtain ⟨_, _, hv, _⟩ := SuiSystemStateInnerV2.voteProposal_ok hv
    obtain ⟨cast, _, _, _, hc, _, rfl⟩ := voteProposal_ok hv
    have hco : cast.Consistent := (hs _ _ hp).castVote (hone _ rfl _ hp) hc
    exact hco

theorem Initial.consistent (h : Initial validate s) : s.Consistent := by
  intro id p hp
  rw [h.ballots.1] at hp
  cases hp

variable {p : Proposal} {system : SuiSystemStateInnerV2}

theorem tally_le (hs : s.set.Sound) (hp : p.Consistent) {f g : ℕ} (h : s.tallyOf p = .ok (f, g)) :
    f + g ≤ totalVotingPower := by
  obtain ⟨powers, hpow, ht⟩ := bind_ok.1 h
  exact tally_powers hs hpow ▸ hp.getVotePower_le ht

/-- **Votes are counted once.** If nobody votes on a proposal both ways, the two sets of every
proposal are disjoint, and a tally against the validators of any moment counts at most the whole
voting power. -/
theorem votes_counted_once (h : (machine validate).Reach VotesOneWay s) {id : ID} {p : Proposal}
    (hp : s.proposals id = some p) :
    (∀ a ∈ p.forVotes.contents, a ∉ p.againstVotes.contents) ∧
      ∀ t, (machine validate).Reach Machine.free t → ∀ f g, t.tallyOf p = .ok (f, g) →
        f + g ≤ 10000 := by
  have hs : s.Consistent := h.invariant (fun _ hs => hs.consistent) fun _ _ _ hs hone hst =>
    hs.step hone hst
  exact ⟨hs id p hp, fun t ht f g hta => tally_le (sound ht) (hs id p hp) hta⟩

/-- The theorem on a run: two votes for, one against. -/
theorem votes_counted_once_small :
    ∃ (s : Chain) (p : Proposal), s.proposals 8 = some p ∧ p.forVotes.contents = [1, 2] ∧
      p.againstVotes.contents = [3] ∧ ∀ f g, s.tallyOf p = .ok (f, g) → f + g ≤ 10000 := by
  obtain ⟨s, hr, hs⟩ := exists_reach (C := VotesOneWay) [
      .createUpdateOnlyTrustedValidatorProposal (capOf 1) false,
      .voteProposal (capOf 2) 8 true,
      .voteProposal (capOf 3) 8 false]
    (fun s => ∃ p ∈ s.proposals 8, p.forVotes.contents = [1, 2] ∧ p.againstVotes.contents = [3])
    (init_small 4) (by decide +kernel)
  obtain ⟨p, hp, hfor, ha⟩ := hs
  exact ⟨s, p, hp, hfor, ha, (votes_counted_once hr hp).2 s hr.to_free⟩

/-- **Voting both ways.** Two of three validators vote for a proposal and then against it: both
are in both sets, and the last tally counts more than there is. -/
theorem vote_both_ways : ∃ s, plainMachine.Reach Machine.free s ∧ ∃ p, s.proposals 6 = some p ∧
      (∃ a ∈ p.forVotes.contents, a ∈ p.againstVotes.contents) ∧
      ∃ t, s.tallyOf p = .ok t ∧ 10000 < t.1 + t.2 := by
  refine exists_reach_imp [.createUpdateOnlyTrustedValidatorProposal (capOf 1) false,
      .voteProposal (capOf 2) 6 true,
      .voteProposal (capOf 1) 6 false,
      .voteProposal (capOf 2) 6 false]
    (fun s => ∃ p ∈ s.proposals 6, (∃ a ∈ p.forVotes.contents, a ∈ p.againstVotes.contents) ∧
      ∃ t, s.tallyOf p = .ok t ∧ 10000 < t.1 + t.2)
    (init_small 3) (by decide +kernel) fun _ _ h => h

/-! ## Passed and executed -/

/-- No proposal by a creator whose own vote is a quorum. -/
def CreatorsBelowQuorum (s : Chain) (tx : Tx) : Prop :=
  ∀ v ∈ s.set.activeValidators, tx.creator = some v.suiAddress → v.votingPower < quorumThreshold

instance (s : Chain) (tx : Tx) : Decidable (s.CreatorsBelowQuorum tx) := by
  unfold CreatorsBelowQuorum
  infer_instance

/-- What is kept about the proposals and the record of executed actions. -/
structure Recorded (s : Chain) : Prop where
  passed : ∀ id p, s.proposals id = some p → (p.status = .pass ↔ id ∈ s.applied)
  once : s.applied.Nodup
  known : ∀ id ∈ s.applied, ∃ p, s.proposals id = some p
  fresh : ∀ id p, s.proposals id = some p → id < s.nextId
  started : ∀ id p, s.proposals id = some p → p.startTimeMs ≤ s.clock

theorem Initial.recorded (h : Initial validate s) : s.Recorded := by
  obtain ⟨hn, ha⟩ := h.ballots
  have hno : ∀ id p, s.proposals id ≠ some p := by
    intro id p hp
    rw [hn] at hp
    cases hp
  exact ⟨fun id p hp => absurd hp (hno id p), ha ▸ nodup_nil,
    fun id hid => absurd (ha ▸ hid) not_mem_nil, fun id p hp => absurd hp (hno id p),
    fun id p hp => absurd hp (hno id p)⟩

/-- Time passes and ids are used up. -/
theorem Recorded.later (hs : s.Recorded) (hpr : s'.proposals = s.proposals)
    (ha : s'.applied = s.applied) (hid : s.nextId ≤ s'.nextId)
    (hc : s.clock ≤ s'.clock) : s'.Recorded := by
  refine ⟨?_, ha ▸ hs.once, ?_, ?_, ?_⟩
  · rw [hpr, ha]
    exact hs.passed
  · rw [hpr, ha]
    exact hs.known
  · rw [hpr]
    exact fun id p hp => (hs.fresh id p hp).trans_le hid
  · rw [hpr]
    exact fun id p hp => (hs.started id p hp).trans hc

/-- The proposal after its creator's vote, which is no quorum. -/
theorem propose_active (hsound : s.set.Sound) (hbelow : s.CreatorsBelowQuorum tx)
    {action : Action} (ha : tx.creator = some a)
    (h : s.system.propose s.nextId a action s.clock = .ok (system, p)) :
    p.status ≠ .pass ∧ p.startTimeMs = s.clock := by
  obtain ⟨powers, _, hpow, hcreate, _⟩ := propose_ok h
  obtain ⟨_, hvote⟩ := SupperCommittee.createProposal_ok hcreate
  obtain ⟨cast, f, g, _, hcast, htally, rfl⟩ := voteProposal_ok hvote
  obtain ⟨_, hside, _, _, hstatus, hstart⟩ := castVote_ok hcast
  refine ⟨?_, hstart⟩
  have hfor : cast.forVotes.contents = [a] := hside
  have hf : f < quorumThreshold := by
    rw [(getVotePower_ok htally).1, hfor]
    exact power_lt hsound hpow (by decide) fun v hv hva => hbelow v hv (hva ▸ ha)
  show cast.decided f g ≠ .pass
  rw [decided, if_neg (not_le.2 hf), hstatus]
  split <;> simp [draft]

theorem Recorded.propose (hs : s.Recorded) (hst : p.status ≠ .pass)
    (hsr : p.startTimeMs = s.clock) :
    Recorded { s with
      system
      proposals := s.proposals.set s.nextId p
      nextId := s.nextId + 1 } := by
  -- the new id is above all others
  have hnew : s.nextId ∉ s.applied := by
    intro hmem
    obtain ⟨q, hq⟩ := hs.known _ hmem
    exact (hs.fresh _ q hq).false
  refine ⟨forall_set (iff_of_false hst hnew) hs.passed, hs.once, fun id hid => ?_,
    forall_set (Nat.lt_succ_self _) fun id q hq => ?_, forall_set hsr.le hs.started⟩
  · obtain ⟨q, hq⟩ := hs.known id hid
    exact ⟨q, set_eq_some.2 (.inr ⟨(hs.fresh id q hq).ne, hq⟩)⟩
  · exact (hs.fresh id q hq).trans (Nat.lt_succ_self _)

theorem proposalStatus_eq_pass {clock : ℕ} (h : p.startTimeMs ≤ clock) :
    p.proposalStatus clock = .pass ↔ p.status = .pass := by
  rw [proposalStatus, if_neg (not_lt.2 h)]
  split
  · rename_i hact
    simp [hact.1]
  · rfl

theorem open_of_voteProposal {p' : Proposal} {voter : Address} {clock : ℕ}
    (h : p.voteProposal powers voter agree clock = .ok p') :
    p.status = .active ∧ p'.startTimeMs = p.startTimeMs := by
  obtain ⟨cast, _, _, ho, hc, _, rfl⟩ := voteProposal_ok h
  obtain ⟨_, _, _, _, _, hs⟩ := castVote_ok hc
  refine ⟨?_, hs⟩
  rw [proposalStatus] at ho
  split at ho
  · cases ho
  · split at ho
    · cases ho
    · exact ho

theorem Recorded.vote (hs : s.Recorded) {cap : UnverifiedValidatorOperationCap} {id : ID}
    {executed : Bool} {p' : Proposal} (hp : s.proposals id = some p)
    (h : s.system.voteProposal cap p agree s.clock = .ok (system, p', executed)) :
    Recorded { s with
      system
      proposals := s.proposals.set id p'
      applied := if executed then s.applied ++ [id] else s.applied } := by
  obtain ⟨_, _, hvote, hexec⟩ := SuiSystemStateInnerV2.voteProposal_ok h
  obtain ⟨hopen, hstart⟩ := open_of_voteProposal hvote
  have hstarted : p'.startTimeMs ≤ s.clock := hstart ▸ hs.started id p hp
  -- the proposal was open, so that its action has not been executed before
  have hnot : id ∉ s.applied := fun hmem => by
    have hpass := (hs.passed id p hp).2 hmem
    rw [hopen] at hpass
    cases hpass
  have hmem : ∀ j, j ∈ (if executed then s.applied ++ [id] else s.applied) ↔
      j ∈ s.applied ∨ (j = id ∧ executed = true) := by
    intro j
    cases executed <;> simp
  refine ⟨fun j q hq => ?_, ?_, fun j hj => ?_, forall_set (hs.fresh _ p hp) hs.fresh,
    forall_set hstarted hs.started⟩
  · rw [hmem]
    rcases set_eq_some.1 hq with ⟨rfl, rfl⟩ | ⟨hne, hq⟩
    · rw [← proposalStatus_eq_pass hstarted]
      rcases executeIfPassed_ok hexec with
        ⟨hno, rfl, _⟩ | ⟨hyes, rfl, _⟩
      · exact iff_of_false hno (by simp [hnot])
      · exact iff_of_true hyes (.inr ⟨rfl, rfl⟩)
    · simp [hs.passed j q hq, hne]
  · cases executed with
    | false => exact hs.once
    | true => exact VecSet.nodup_insert ⟨_, hs.once⟩ hnot
  · rcases (hmem j).1 hj with hold | ⟨rfl, _⟩
    · obtain ⟨q, hq⟩ := hs.known j hold
      exact ⟨q, set_eq_some.2 (.inr ⟨fun hj => hnot (hj ▸ hold), hq⟩)⟩
    · exact ⟨_, set_eq_some.2 (.inl ⟨rfl, rfl⟩)⟩

theorem Recorded.step (hs : s.Recorded) (hso : s.set.Sound) (hb : s.CreatorsBelowQuorum tx)
    (h : step validate s tx = .ok s') : s'.Recorded := by
  cases step_effect h with
  | calm n ms => exact hs.later rfl rfl (Nat.le_add_right _ _) (Nat.le_add_right _ _)
  | join | resign | epoch => exact hs.later rfl rfl le_rfl le_rfl
  | propose ha hpr =>
    obtain ⟨hst, hsr⟩ := propose_active hso hb ha hpr
    exact hs.propose hst hsr
  | vote hp hv => exact hs.vote hp hv

end Chain

end OneChain.System
