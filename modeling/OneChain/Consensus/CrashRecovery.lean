import OneChain.Consensus.Durability

/-!
# Crash recovery

Whenever a validator has flushed its state, a restart rebuilds it from the store
(`flush_recoverable`): the cached blocks, the marks, the committed rounds, the last commit, the
scores, the round of the threshold clock and the evicted rounds. This needs more than the callers
see to (`NodeAction.Called`), and `recovery_diverges` has a run for each of the conditions:

* a block is accepted only when the state has its ancestors above the GC round — the blocks of
  certified commits are accepted without them, and the thread of the commit finalizer may flush
  before the commits that would move the GC round;
* no flush happens between a commit and its scoring;
* at least one round is cached;
* no authority that has a quorum by itself shares the committee with others.
-/

namespace OneChain.Consensus

open Lib DagState Machine

variable {n : ℕ} {C : Committee n} {U : VerifiedBlocks C} {protocol : Protocol n}

namespace DagState

variable {L : List (Block n)} {H : CommitHistory n} {j : ℕ} {d d' : DagState C}

/-! ## What recovery rebuilds -/

/-- The parts of the state that recovery has to rebuild. -/
structure Rebuilds (d d' : DagState C) : Prop where
  recentBlocks : ∀ r, d.evictedRounds r.author < r.round →
    (d'.recentBlocks.get? r).map BlockInfo.block = (d.recentBlocks.get? r).map BlockInfo.block
  recentRefs : d'.recentRefsByAuthority = d.recentRefsByAuthority
  committed : ∀ r, d.gcRound < r.round → (d'.recentBlocks.get? r).map BlockInfo.committed =
      (d.recentBlocks.get? r).map BlockInfo.committed
  lastCommittedRounds : d'.lastCommittedRounds = d.lastCommittedRounds
  lastCommit : d'.lastCommit = d.lastCommit
  scoringSubdag : d'.scoringSubdag = d.scoringSubdag
  thresholdClock : d'.thresholdClock.round = d.thresholdClock.round
  evictedRounds : d'.evictedRounds = d.evictedRounds

/-- Recovery of a state with nothing left to write. -/
theorem Durable.rebuilds (hdepth : 0 < protocol.gcDepth) (hstake : ThresholdClock.NoLoneQuorum C)
    (hcachedRounds : 0 < d.cachedRounds) (h : Durable U protocol L H H.length j [] d)
    (hflushed : d.withWritten = d) :
    ∃ d', DagState.new C d.context d.store = .ok d' ∧ Rebuilds d d' := by
  have hlin := h.linearizes
  have hwritten : d.written = d.store := congrArg store hflushed
  have hstore : Consistent U protocol d.store H j := hwritten ▸ h.pending
  obtain ⟨scored, hscored, hscor⟩ := h.scored
  rw [List.append_nil] at hscored
  rw [← hscored] at hscor
  obtain ⟨d', hd', hrec⟩ := new_ok hdepth hstake h.leaders hlin hstore hscor
    h.persisted.synced.protocol_eq
  have h' := durable_of_new hdepth h.leaders hlin hstore hscor
    h.persisted.synced.protocol_eq (.inl (h.cachedRounds_eq ▸ hcachedRounds)) hd' hrec
  have hlast : d'.lastCommit = d.lastCommit := by
    rw [h'.persisted.synced.lastCommit_eq, h.persisted.synced.lastCommit_eq]
  have hwritten' : d'.written = d.store := by
    rw [hrec.frame]
    rfl
  have hgc : d'.gcRound = d.gcRound := by
    rw [h'.persisted.synced.gcRound_eq, h.persisted.synced.gcRound_eq]
  obtain ⟨hround, habove⟩ := h.settled (congrArg blocksToWrite hflushed).symm
    (congrArg commitsToWrite hflushed).symm
  have hrounds : d'.evictedRounds = d.evictedRounds := by
    funext a
    have hstored := isLastRound_lastStoredRound (fun r b hb => (hstore.blocks r b hb).2) a
    have hlive := h.isLastRound a
    rw [hwritten] at hlive
    rw [hrec.rounds, hround, calculateAuthorityEvictionRound_eq, hgc, hstored.unique hlive,
      h.cachedRounds_eq, hrec.frame]
    rfl
  -- the same references are in both caches, and a reference has one block
  have hmem : ∀ r, r ∈ d'.recentBlocks ↔ r ∈ d.recentBlocks := by
    have habove' := (h'.settled (by rw [hrec.frame]; rfl) (by rw [hrec.frame]; rfl)).2
    intro r
    constructor
    · intro hr
      refine h.kept r ?_ (hrounds ▸ habove' r hr)
      rw [hwritten, ← hwritten']
      exact h'.cached r hr
    · intro hr
      refine h'.kept r ?_ (hrounds ▸ habove r hr)
      rw [hwritten', ← hwritten]
      exact h.cached r hr
  have hcached : ∀ r, (d'.recentBlocks.get? r).map BlockInfo.block =
      (d.recentBlocks.get? r).map BlockInfo.block := by
    intro r
    refine OrdMap.map_get?_congr (hmem r) fun info' info hinfo' hinfo => ?_
    obtain ⟨hU, href⟩ := h.persisted.synced.cached r info hinfo
    obtain ⟨hU', href'⟩ := h'.persisted.synced.cached r info' hinfo'
    exact U.reference_injOn hU' hU (href'.trans href.symm)
  refine ⟨d', hd', fun r _ => hcached r, ?_, fun r hr => ?_, ?_, hlast, ?_, ?_, hrounds⟩
  · funext a
    refine OrdMap.set_ext fun r => ?_
    rw [h'.refs, h.refs, hmem]
  · refine OrdMap.map_get?_congr (hmem r) fun info' info hinfo' hinfo => ?_
    rw [Bool.eq_iff_iff, h.persisted.synced.flags r info hinfo hr,
      h'.persisted.synced.flags r info' hinfo' (hgc ▸ hr)]
  · rw [h'.rounds, h.rounds]
  · obtain ⟨scored', hscored', hscor'⟩ := h'.scored
    rw [List.append_nil] at hscored'
    rw [← hscored', hscor] at hscor'
    exact (Except.ok.inj hscor').symm
  · have hclock := h'.clock
    rw [hwritten', ← hwritten] at hclock
    exact h.clock.round_unique hclock h.pending.positive

end DagState

/-! ## Runs -/

/-- What the callers see to: blocks are verified, leaders come in order, and the schedule is updated
after the scores. -/
def NodeAction.Called (U : VerifiedBlocks C) (node : Node C) : NodeAction n → Prop
  | .accept block => block ∈ U.blocks
  | .commit leaders => DagState.CanCommit U node.dag leaders
  | .updateLeaderSchedule => node.unscored = []
  | _ => True

/-- What recovery needs besides: a block comes after its ancestors above the GC round, and a flush
after the scores. -/
def NodeAction.Careful (node : Node C) : NodeAction n → Prop
  | .accept block => ∀ r ∈ block.ancestors, node.dag.gcRound < r.round →
      (node.dag.getBlock r).isSome
  | .flush => node.unscored = []
  | _ => True

instance [DecidablePred (· ∈ U.blocks)] (node : Node C) :
    ∀ action : NodeAction n, Decidable (action.Called U node)
  | .accept block => inferInstanceAs (Decidable (block ∈ U.blocks))
  | .commit leaders => inferInstanceAs (Decidable (DagState.CanCommit U node.dag leaders))
  | .updateLeaderSchedule => inferInstanceAs (Decidable (node.unscored = []))
  | .score | .finalize _ _ | .flush | .restart => .isTrue trivial

instance (node : Node C) : ∀ action : NodeAction n, Decidable (action.Careful node)
  | .accept _ => inferInstanceAs (Decidable (∀ _ ∈ _, _ → _))
  | .flush => inferInstanceAs (Decidable (node.unscored = []))
  | .commit _ | .score | .updateLeaderSchedule | .finalize _ _ | .restart => .isTrue trivial

namespace Node

variable {node node' : Node C}

variable (U protocol node) in
def DurableInv : Prop := ∃ L H m j, DagState.Durable U protocol L H m j node.unscored node.dag

theorem durableInv_of_init (hde : 0 < protocol.gcDepth) (hst : ThresholdClock.NoLoneQuorum C)
    (h : (machine C protocol).init node) : DurableInv U protocol node := by
  obtain ⟨context, hc, hnew, hu, _⟩ := h
  have hs : DagState.Consistent U protocol .empty [] 0 :=
    ⟨by simp [Store.empty], by simp [Store.empty], ⟨by simp [Store.empty], by simp⟩, by simp,
      by simp [Store.empty], rfl, le_rfl⟩
  have hL : LeaderSequence U [] := ⟨by simp, .nil⟩
  obtain ⟨d, hd, hrec⟩ := new_ok hde hst hL .nil hs rfl hc
  cases hnew.symm.trans hd
  refine ⟨[], [], 0, 0, ?_⟩
  rw [hu]
  exact durable_of_new hde hL .nil hs rfl hc (.inr (by simp [Store.empty])) hd hrec

theorem DurableInv.step (hdepth : 0 < protocol.gcDepth) (hstake : ThresholdClock.NoLoneQuorum C)
    (h : DurableInv U protocol node) {action : NodeAction n} (hcalled : action.Called U node)
    (hcar : action.Careful node) (hcachedRounds : 0 < node.dag.cachedRounds)
    (hstep : node.step action = .ok node') : DurableInv U protocol node' := by
  obtain ⟨L, H, m, j, hdur⟩ := h
  cases action with
  | accept block =>
    obtain ⟨d, hd, hnode⟩ := bind_ok.1 hstep
    cases hnode
    exact ⟨L, H, m, j, hdur.acceptBlock hdepth hstake hcalled hcar hd⟩
  | commit leaders =>
    obtain ⟨⟨d, subs⟩, hd, hnode⟩ := bind_ok.1 hstep
    cases hnode
    obtain ⟨d', more, hd', hdur'⟩ := hdur.handleCommit hdepth hcalled
    cases hd.symm.trans hd'
    exact ⟨_, _, m, j, hdur'⟩
  | score =>
    obtain ⟨d, hd, hnode⟩ := bind_ok.1 hstep
    cases hnode
    exact ⟨L, H, m, j, hdur.addScoringSubdags hd⟩
  | updateLeaderSchedule =>
    obtain ⟨d, hd, hnode⟩ := bind_ok.1 hstep
    cases hnode
    have hunsc : node.unscored = [] := hcalled
    rw [hunsc] at hdur
    refine ⟨L, H, m, H.length, ?_⟩
    change DagState.Durable U protocol L H m H.length node.unscored d
    rw [hunsc]
    exact hdur.updateLeaderSchedule hd
  | finalize commitRef rejectedTransactions =>
    cases hstep
    exact ⟨L, H, m, j, hdur.addFinalizedCommit commitRef rejectedTransactions⟩
  | flush =>
    cases hstep
    have hunsc : node.unscored = [] := hcar
    rw [hunsc] at hdur
    refine ⟨L, H, H.length, j, ?_⟩
    change DagState.Durable U protocol L H H.length j node.unscored node.dag.flush
    rw [hunsc]
    exact hdur.flush hdepth hcachedRounds
  | restart =>
    obtain ⟨d, hd, hnode⟩ := bind_ok.1 hstep
    cases hnode
    obtain ⟨j', scoring, hstore, hscor⟩ := hdur.stored
    have hlin := hdur.persisted.linearizes.take m
    rw [List.take_take, Nat.min_eq_left hdur.persisted.stored_le] at hlin
    have hL := hdur.leaders.take m
    have hcont := hdur.persisted.synced.protocol_eq
    obtain ⟨d', hd', hrec⟩ := new_ok hdepth hstake hL hlin hstore hscor hcont
    cases hd.symm.trans hd'
    exact ⟨_, _, _, j', durable_of_new hdepth hL hlin hstore hscor hcont
      (.inl (hdur.cachedRounds_eq ▸ hcachedRounds)) hd hrec⟩

/-- **Crash recovery.** In every run with these steps, a restart right after a flush succeeds and
rebuilds the state. -/
theorem flush_recoverable (hdepth : 0 < protocol.gcDepth) (hstake : ThresholdClock.NoLoneQuorum C)
    (h : (machine C protocol).Reach (fun node action => action.Called U node ∧
      action.Careful node ∧ 0 < node.dag.cachedRounds) node)
    (hflush : NodeAction.flush.Careful node) (hcachedRounds : 0 < node.dag.cachedRounds) :
    ∃ d', DagState.new C node.dag.flush.context node.dag.flush.store = .ok d' ∧
      DagState.Rebuilds node.dag.flush d' := by
  have hinv : DurableInv U protocol node :=
    h.invariant (fun _ => durableInv_of_init hdepth hstake)
      fun _ _ _ hinv hs => hinv.step hdepth hstake hs.1 hs.2.1 hs.2.2
  obtain ⟨L, H, m, j, hdur⟩ := hinv
  have hu : node.unscored = [] := hflush
  rw [hu] at hdur
  refine (hdur.flush hdepth hcachedRounds).rebuilds hdepth hstake ?_ node.dag.withWritten_flush
  rw [flush_frame]
  exact hcachedRounds

/-! ## Runs with one step too early -/

/-- The blocks of a list, if they are verified. -/
def networkOf (C : Committee 4) (blocks : List (Block 4))
    (hver : ∀ b ∈ blocks, (sampleVerifier.verifyBlock C b).toOption = some ())
    (hinj : ∀ b ∈ blocks, ∀ b' ∈ blocks, b.reference = b'.reference → b = b') :
    VerifiedBlocks C where
  blocks := { b | b ∈ blocks }
  verifier := sampleVerifier
  verified := fun b hb => toOption_eq_some.1 (hver b hb)
  reference_injOn := fun b hb b' hb' => hinj b hb b' hb'

/-- Only the round of the last leader and what is above it is kept from GC. -/
def shallowProtocol : Protocol 4 := { sampleProtocol with gcDepth := 1 }

/-- A block of one of the first three authorities that links to those of the round before. -/
def threeBlock (round : ℕ) (author : Fin 4) : Block 4 :=
  { sampleBlock round author with
    ancestors := (author :: ([0, 1, 2].map authority).filter (· ≠ author)).map fun a =>
      ⟨round - 1, a, 0⟩ }

/-- The fourth authority was silent in the second round. -/
def lateBlock : Block 4 :=
  { sampleBlock 3 (authority 3) with
    ancestors := ⟨1, authority 3, 0⟩ :: [0, 1, 2].map fun i => ⟨2, authority i, 0⟩ }

def lateBlocks : List (Block 4) :=
  [1, 2, 3].flatMap (fun round => [0, 1, 2].map fun i => threeBlock round (authority i)) ++
    [lateBlock, sampleBlock 4 (authority 0)]

def lateNetwork : VerifiedBlocks fourAuthorities :=
  networkOf fourAuthorities lateBlocks (by decide +kernel) (by decide +kernel)

def sampleNetwork : VerifiedBlocks fourAuthorities :=
  networkOf fourAuthorities (sampleBlocks 3) (by decide +kernel) (by decide +kernel)

/-- One authority is a quorum. -/
def heavyCommittee : Committee 4 := ⟨0, fun a => if a = authority 0 then 7 else 1, by decide⟩

def heavyBlocks : List (Block 4) :=
  [{ sampleBlock 1 (authority 0) with ancestors := [⟨0, authority 0, 0⟩] },
    { sampleBlock 2 (authority 0) with ancestors := [⟨1, authority 0, 0⟩] },
    { sampleBlock 3 (authority 1) with ancestors := [⟨0, authority 1, 0⟩, ⟨2, authority 0, 0⟩] }]

def heavyNetwork : VerifiedBlocks heavyCommittee :=
  networkOf heavyCommittee heavyBlocks (by decide +kernel) (by decide +kernel)

instance : DecidablePred (· ∈ lateNetwork.blocks) := fun b =>
  inferInstanceAs (Decidable (b ∈ lateBlocks))

instance : DecidablePred (· ∈ sampleNetwork.blocks) := fun b =>
  inferInstanceAs (Decidable (b ∈ sampleBlocks 3))

instance : DecidablePred (· ∈ heavyNetwork.blocks) := fun b =>
  inferInstanceAs (Decidable (b ∈ heavyBlocks))

/-- What a restart after a flush gives. -/
def recover (node : Node C) : Except (Panic n) (DagState C) :=
  DagState.new C node.dag.flush.context node.dag.flush.store

/-- **Recovery can fail or rebuild another state.** Each run breaks one condition only.

In the first one the blocks of two certified commits are accepted, one of them with an ancestor that
the second commit would leave below the GC round. A flush for an earlier commit comes first; the
restart then looks for the missing ancestor and panics, while the commits would have gone
through. -/
theorem recovery_diverges :
    (∃ node, (machine fourAuthorities shallowProtocol).Reach (fun node action =>
        action.Called lateNetwork node ∧ 0 < node.dag.cachedRounds) node ∧
      NodeAction.flush.Careful node ∧ 0 < node.dag.cachedRounds ∧
      (node.dag.handleCommit [threeBlock 2 1, sampleBlock 4 0]).toOption.isSome ∧
      node.recover = .error (.notInDagState ⟨1, 3, 0⟩)) ∧
    (∃ node, (machine fourAuthorities sampleProtocol).Reach (fun node action =>
        action.Called sampleNetwork node ∧ action.Careful node ∧ 0 < node.dag.cachedRounds) node ∧
      0 < node.dag.cachedRounds ∧
      ∃ d', node.recover = .ok d' ∧ d'.scoringSubdag ≠ node.dag.flush.scoringSubdag) ∧
    (∃ node, (machine fourAuthorities shallowProtocol).Reach (fun node action =>
        action.Called sampleNetwork node ∧ action.Careful node) node ∧
      NodeAction.flush.Careful node ∧
      ∃ d', node.recover = .ok d' ∧ d'.evictedRounds ≠ node.dag.flush.evictedRounds) ∧
    (∃ node, (machine heavyCommittee shallowProtocol).Reach (fun node action =>
        action.Called heavyNetwork node ∧ action.Careful node ∧ 0 < node.dag.cachedRounds) node ∧
      NodeAction.flush.Careful node ∧ 0 < node.dag.cachedRounds ∧
      ∃ d', node.recover = .ok d' ∧
        d'.thresholdClock.round ≠ node.dag.flush.thresholdClock.round) := by
  refine ⟨?_, ?_, ?_, ?_⟩
  · exact exists_reach
      [.accept (threeBlock 1 0), .commit [threeBlock 1 0], .score,
        .accept (threeBlock 1 1), .accept (threeBlock 1 2), .accept (threeBlock 2 0),
        .accept (threeBlock 2 1), .accept (threeBlock 2 2), .accept (threeBlock 3 0),
        .accept (threeBlock 3 1), .accept (threeBlock 3 2), .accept lateBlock,
        .accept (sampleBlock 4 0), .finalize ⟨1, 1⟩ .empty] _
      (start_init ⟨3, shallowProtocol, 500⟩) (by decide +kernel)
  · exact exists_reach [.accept (sampleBlock 1 1), .commit [sampleBlock 1 1]] _
      (start_init ⟨0, sampleProtocol, 500⟩) (by decide +kernel)
  · exact exists_reach
      [.accept (sampleBlock 1 0), .accept (sampleBlock 1 1), .accept (sampleBlock 1 2),
        .accept (sampleBlock 1 3), .accept (sampleBlock 2 1), .commit [sampleBlock 2 1], .score,
        .flush, .accept (sampleBlock 2 2)] _
      (start_init ⟨0, shallowProtocol, 0⟩) (by decide +kernel)
  · exact exists_reach
      [.accept { sampleBlock 1 0 with ancestors := [⟨0, 0, 0⟩] },
        .accept { sampleBlock 2 0 with ancestors := [⟨1, 0, 0⟩] },
        .commit [{ sampleBlock 2 0 with ancestors := [⟨1, 0, 0⟩] }], .score,
        .accept { sampleBlock 3 1 with ancestors := [⟨0, 1, 0⟩, ⟨2, 0, 0⟩] }] _
      (start_init ⟨0, shallowProtocol, 1⟩) (by decide +kernel)

/-- A validator that commits, scores, updates the schedule, flushes, restarts and goes on. -/
theorem flush_recoverable_sample : ∃ node : Node fourAuthorities, node.dag.lastCommitIndex = 2 ∧
      ∃ d', DagState.new fourAuthorities node.dag.flush.context node.dag.flush.store = .ok d' ∧
        DagState.Rebuilds node.dag.flush d' := by
  obtain ⟨node, hr, hcar, hc, hi⟩ := exists_reach
    (C := fun node action => action.Called sampleNetwork node ∧ action.Careful node ∧
      0 < node.dag.cachedRounds)
    [.accept (sampleBlock 1 0), .accept (sampleBlock 1 1), .accept (sampleBlock 1 2),
      .accept (sampleBlock 1 3), .commit [sampleBlock 1 1], .score, .updateLeaderSchedule, .flush,
      .accept (sampleBlock 2 1), .restart, .accept (sampleBlock 2 1), .commit [sampleBlock 2 1],
      .score]
    (fun node => NodeAction.flush.Careful node ∧ 0 < node.dag.cachedRounds ∧
      node.dag.lastCommitIndex = 2)
    (start_init ⟨0, shallowProtocol, 50⟩) (by decide +kernel)
  have hs : ThresholdClock.NoLoneQuorum fourAuthorities := by
    unfold ThresholdClock.NoLoneQuorum
    decide
  exact ⟨node, hi, flush_recoverable (by decide) hs hr hcar hc⟩

end Node

end OneChain.Consensus
