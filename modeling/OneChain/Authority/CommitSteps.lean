import OneChain.Authority.CommitBoundary

/-!
# The steps of a commit

What each part of processing a commit returns, for the proofs about runs over an epoch: the groups
of deferred transactions it loads, the loop over the transactions, and the state it leaves.

* `loadDeferred_ends` — which groups are loaded.
* `sequenceTransactions_ok`, `processConsensusTransactions_loop`, `commitBoundary_ok` — what is
  known once each part has returned.
-/

namespace OneChain.Authority

open Lib Checkpoints

variable {config : CommitConfig} {s : CommitState} {c : ConsensusCommit}

variable {outcome : CommitOutcome} {transactions : List SequencedTransaction} {key : DeferralKey}

theorem handleConsensusCommit_eq_some (h : handleConsensusCommit config s c = .ok (some outcome)) :
    processConsensusTransactionsAndCommitBoundary config s c
      (unseen c.cached [] c.transactions) = .ok outcome := by
  simp only [handleConsensusCommit, bind_ok, check_ok] at h
  obtain ⟨_, _, h⟩ := h
  split at h
  · cases h
  · simp only [ok_iff, Option.some.injEq] at h
    obtain ⟨o, ho, rfl⟩ := h
    exact ho

theorem commitBoundary_ok
    (h : processConsensusTransactionsAndCommitBoundary config s c transactions = .ok outcome) :
    ∃ q p, sequenceTransactions config s c transactions = .ok q ∧
      processConsensusTransactions config s c q = .ok p ∧
      outcome.pendingCheckpoints = commitPendingCheckpoints config c q p ∧
      outcome.state.pendingCheckpoints = s.pendingCheckpoints ++ outcome.pendingCheckpoints := by
  simp only [processConsensusTransactionsAndCommitBoundary, ok_iff] at h
  obtain ⟨q, hq, p, hp, _, _, rfl⟩ := h
  exact ⟨q, p, hq, hp, rfl, rfl⟩

theorem processConsensusTransactions_loop {q : Sequencing} {p : ProcessedCommit}
    (h : processConsensusTransactions config s c q = .ok p) :
    ∃ l, q.entries.foldlM (processEntry config s c q) (startLoop config c q) = .ok l ∧
      p.loop.nonRandomnessRoots = l.nonRandomnessRoots ∧
      p.loop.randomnessRoots = l.randomnessRoots ∧
      ∀ root, p.prologueRoot = some root → root.isAccumulatorSettlement = false := by
  simp only [processConsensusTransactions, bind_ok, return_ok] at h
  obtain ⟨_, _, l, hl, rfl⟩ := h
  refine ⟨l, hl, rfl, rfl, fun root hr => ?_⟩
  split at hr
  · cases hr
    rfl
  · cases hr

theorem mem_of_mem_unseen {cached : MessageKey → Bool} {seen : List MessageKey}
    {txs : List SequencedTransaction} {tx : SequencedTransaction}
    (h : tx ∈ unseen cached seen txs) : tx ∈ txs := by
  induction txs generalizing seen with
  | nil => cases h
  | cons tx' txs ih =>
    rw [unseen] at h
    split at h
    · exact List.mem_cons_of_mem _ (ih h)
    · rcases List.mem_cons.1 h with rfl | h
      · exact List.mem_cons_self
      · exact List.mem_cons_of_mem _ (ih h)

theorem mem_loadDeferredTransactions {deferred : DeferredTransactions}
    {range : DeferralKey × DeferralKey} {group : DeferralKey × List UserTransaction} :
    group ∈ loadDeferredTransactions deferred range ↔
      deferred.get? group.1 = some group.2 ∧ range.1 ≤ group.1 ∧ group.1 < range.2 := by
  obtain ⟨key, txs⟩ := group
  rw [loadDeferredTransactions, OrdMap.mem_entries, OrdMap.get?_filter_eq_some, decide_eq_true_eq]

variable (config s c) in
/-- The groups that a commit has loaded. -/
structure Loaded (deferredTxs deferredRandomnessTxs : DeferredGroups) : Prop where
  round_lt : c.round < u64Max
  mem_deferred : ∀ key txs, (key, txs) ∈ deferredTxs ↔ s.deferredTransactions.get? key = some txs ∧
      ∃ futureRound round, key = .consensusRound futureRound round ∧ futureRound ≤ c.round
  mem_randomness : ∀ key txs, (key, txs) ∈ deferredRandomnessTxs ↔
    s.deferredTransactions.get? key = some txs ∧ (∃ round < u64Max, key = .randomness round) ∧
      ((randomnessOutcome config s c).1 = true ∨ (randomnessOutcome config s c).2.isSome = true)
  nodup_deferred : (deferredTxs.map Prod.fst).Nodup
  nodup_randomness : (deferredRandomnessTxs.map Prod.fst).Nodup

theorem DeferralKey.fullRange_iff :
    fullRangeForRandomness.1 ≤ key ∧ key < fullRangeForRandomness.2 ↔
      ∃ round < u64Max, key = .randomness round := by
  change (rank (.randomness 0) ≤ rank key ∧ rank key < rank (.randomness u64Max)) ↔ _
  cases key with
  | randomness round =>
    simp [rank, Prod.Lex.toLex_le_toLex, Prod.Lex.toLex_lt_toLex]
    omega
  | consensusRound fr round =>
    simp [rank, Prod.Lex.toLex_le_toLex]

theorem DeferralKey.upTo_iff {n : ℕ} : .consensusRound 0 0 ≤ key ∧ key < .consensusRound (n + 1) 0 ↔
      ∃ fr round, key = .consensusRound fr round ∧ fr ≤ n := by
  change (rank (.consensusRound 0 0) ≤ rank key ∧ rank key < rank (.consensusRound (n + 1) 0)) ↔ _
  cases key with
  | randomness round => simp [rank, Prod.Lex.toLex_le_toLex]
  | consensusRound fr round =>
    simp [rank, Prod.Lex.toLex_le_toLex, Prod.Lex.toLex_lt_toLex]
    omega

theorem nodup_loadDeferredTransactions (deferred : DeferredTransactions)
    (range : DeferralKey × DeferralKey) :
    ((loadDeferredTransactions deferred range).map Prod.fst).Nodup :=
  OrdMap.nodup_keys _

variable (config s c) in
/-- Loading only fails for the last round there is. -/
theorem loadDeferred_ends :
    Ends (loadDeferred config s c) (fun groups => Loaded config s c groups.1 groups.2)
      fun e => e = .roundOverflow ∧ u64Max ≤ c.round := by
  by_cases hr : c.round < u64Max
  · have hc : check (c.round + 1 ≤ u64Max) CommitPanic.roundOverflow = .ok () := check_of hr
    simp only [loadDeferred, DeferralKey.rangeForUpToConsensusRound, hc]
    refine ⟨hr, fun key txs => ?_, fun key txs => ?_, nodup_loadDeferredTransactions _ _, ?_⟩
    · rw [mem_loadDeferredTransactions, DeferralKey.upTo_iff]
    · split
      · rename_i hl
        rw [mem_loadDeferredTransactions, DeferralKey.fullRange_iff]
        simp only [Bool.or_eq_true] at hl
        simp only [hl, and_true]
      · rename_i hl
        simp only [Bool.or_eq_true] at hl
        simp only [hl, and_false, List.not_mem_nil]
    · split
      · exact nodup_loadDeferredTransactions _ _
      · exact List.nodup_nil
  · have hc : check (c.round + 1 ≤ u64Max) CommitPanic.roundOverflow =
        .error CommitPanic.roundOverflow := if_neg fun h => hr h
    simp only [loadDeferred, DeferralKey.rangeForUpToConsensusRound, hc, error_bind, Ends]
    exact ⟨trivial, not_lt.1 hr⟩

theorem randomnessOutcome_failed (h : (randomnessOutcome config s c).1 = true) :
    (randomnessOutcome config s c).2 = none ∧ config.randomnessStateEnabled = true ∧
      c.dkgStatus = .failed := by
  unfold randomnessOutcome at h ⊢
  split at h
  · rename_i he
    cases hs : c.dkgStatus <;> simp_all
  · cases h

/-- What is handed to `process_consensus_transactions`, by the groups that were loaded. -/
theorem sequenceTransactions_ok {q : Sequencing}
    (h : sequenceTransactions config s c transactions = .ok q) :
    ∃ D deferredRandomnessTxs, Loaded config s c D deferredRandomnessTxs ∧
      q = sequencingOf config s c (transactions.filter (verifyConsensusTransaction s)) D
        deferredRandomnessTxs := by
  simp only [sequenceTransactions, bind_ok, return_ok] at h
  obtain ⟨⟨D, deferredRandomnessTxs⟩, hl, rfl⟩ := h
  exact ⟨D, deferredRandomnessTxs, (loadDeferred_ends config s c).of_ok hl, rfl⟩

/-! ## A small epoch -/

namespace CommitSample

def epochConfig : CommitConfig where
  epoch := 1
  randomnessStateEnabled := true
  accumulatorsEnabled := true
  mysticetiFastpath := true
  prependPrologue := true
  orderByGasPrice := true
  maxDeferralRounds := 10
  weight _ := 1
  quorumThreshold := 3

def payment : UserTransaction := ⟨0, some 1, 7, 1000, false⟩

def lottery : UserTransaction := ⟨1, none, 8, 2000, true⟩

/-- Two transactions, one of them with randomness. -/
def commit (status : DkgStatus) : ConsensusCommit where
  round := 3
  timestamp := 100
  transactions := [.user payment, .user lottery]
  cached _ := false
  dkgStatus := status
  nextRandomness := some 5
  congested _ := none
  prologue := 1

end CommitSample

end OneChain.Authority
