import OneChain.Authority.CommitSteps

/-!
# The settlement roots of pending checkpoints

With accumulators enabled, the roots of a pending checkpoint have to end with the settlement of its
own height: the checkpoint builder takes it off the end and stops without it.

The settlement is among the roots before the transactions of a commit are processed, and processing
only removes digests. In the order of the roots it comes after all others. The checkpoint of the
transactions with randomness is the exception. It is written if randomness is generated, or if the
key generation has failed and a transaction is left to be cancelled; its settlement is only added in
the first case.

* `settlement_carried` — in every run whose commits have no transaction with randomness once key
  generation has failed, every pending checkpoint carries its settlement.
* `cancelled_without_settlement` — a commit after a failed key generation with one such transaction
  writes a pending checkpoint that the builder stops at.
-/

namespace OneChain.Authority

open Lib Checkpoints List OrdMap SequencedTransaction CommitSample Machine

variable {config : CommitConfig} {s : CommitState} {c : ConsensusCommit} {q : Sequencing}

/-! ## Roots while transactions are processed -/

/-- Roots were removed, but no settlement. -/
structure Shrinks (m m' : OrdSet TransactionKey) : Prop where
  subset : ∀ k ∈ m', k ∈ m
  kept : ∀ k, k.isAccumulatorSettlement = true → k ∈ m → k ∈ m'

namespace Shrinks

variable {m m' m'' : OrdSet TransactionKey}

theorem refl (m : OrdSet TransactionKey) : Shrinks m m := ⟨fun _ h => h, fun _ _ h => h⟩

theorem trans (h : Shrinks m m') (h' : Shrinks m' m'') : Shrinks m m'' :=
  ⟨fun k hk => h.subset k (h'.subset k hk), fun k hset hk => h'.kept k hset (h.kept k hset hk)⟩

theorem erase_digest (m : OrdSet TransactionKey) (digest : TransactionDigest) :
    Shrinks m (m.erase (.digest digest)) := by
  refine ⟨fun k hk => (mem_erase.1 hk).2, fun k hset hk => mem_erase.2 ⟨?_, hk⟩⟩
  rintro rfl
  cases hset

theorem settlement_iff (h : Shrinks m m') {k : TransactionKey}
    (hset : k.isAccumulatorSettlement = true) : k ∈ m' ↔ k ∈ m :=
  ⟨h.subset k, h.kept k hset⟩

end Shrinks

/-- Both sets of roots of a loop shrink. -/
def CommitLoop.RootsShrink (l l' : CommitLoop) : Prop :=
  Shrinks l.nonRandomnessRoots l'.nonRandomnessRoots ∧ Shrinks l.randomnessRoots l'.randomnessRoots

theorem CommitLoop.removeRoots_shrink (l : CommitLoop) (tx : SequencedTransaction) :
    l.RootsShrink (l.removeRoots tx) := by
  unfold removeRoots
  cases tx.executableTransactionDigest with
  | none => exact ⟨.refl _, .refl _⟩
  | some digest => exact ⟨.erase_digest _ _, .erase_digest _ _⟩

theorem CommitLoop.pushCertificate_roots (l : CommitLoop) (randomness : Bool)
    (key : TransactionKey) :
    (l.pushCertificate randomness key).nonRandomnessRoots = l.nonRandomnessRoots ∧
      (l.pushCertificate randomness key).randomnessRoots = l.randomnessRoots := by
  unfold pushCertificate
  split <;> exact ⟨rfl, rfl⟩

theorem CommitLoop.apply_shrink {l l' : CommitLoop} {randomness : Bool} {tx : SequencedTransaction}
    {result : ConsensusCertificateResult} (h : l.apply randomness tx result = .ok l') :
    l.RootsShrink l' := by
  have hp : ∀ (l₁ : CommitLoop) (key : TransactionKey),
      l₁.nonRandomnessRoots = l.nonRandomnessRoots → l₁.randomnessRoots = l.randomnessRoots →
      l.RootsShrink ((l₁.pushCertificate randomness key).recordProcessed tx.key) := by
    intro l₁ key hro hr
    obtain ⟨hro', hr'⟩ := pushCertificate_roots l₁ randomness key
    unfold RootsShrink recordProcessed
    rw [hro', hr', hro, hr]
    exact ⟨.refl _, .refl _⟩
  cases result with
  | suiTransaction digest =>
    cases h
    exact hp _ _ rfl rfl
  | deferred user key =>
    cases h
    exact removeRoots_shrink ((l.defer user key).recordProcessed tx.key) tx
  | cancelled digest reason =>
    simp only [apply, ok_iff] at h
    obtain ⟨_, _, rfl⟩ := h
    exact hp _ _ rfl rfl
  | consensusMessage =>
    cases h
    exact ⟨.refl _, .refl _⟩
  | ignoredSystem =>
    cases h
    exact removeRoots_shrink (l.recordProcessed tx.key) tx
  | ignored =>
    cases h
    exact removeRoots_shrink l tx

theorem foldlM_processEntry_shrink {entries : List (Bool × SequencedTransaction)}
    {l l' : CommitLoop}
    (h : entries.foldlM (processEntry config s c q) l = .ok l') : l.RootsShrink l' := by
  refine foldlM_induction ?_ ⟨.refl _, .refl _⟩ h
  intro l₁ l₂ entry _ hs he
  simp only [processEntry, bind_ok] at he
  obtain ⟨result, _, he⟩ := he
  have hst := CommitLoop.apply_shrink he
  exact ⟨hs.1.trans hst.1, hs.2.trans hst.2⟩

/-! ## Roots before and after -/

variable {txs : List SequencedTransaction} {k root : TransactionKey} {height : ℕ}
  {m : OrdSet TransactionKey}

theorem mem_rootsOfTransactions : k ∈ rootsOfTransactions txs ↔
      ∃ tx ∈ txs, ∃ digest, tx.executableTransactionDigest = some digest ∧ .digest digest = k := by
  rw [rootsOfTransactions, mem_foldl_insert]
  simp only [notMem_empty, or_false, mem_filterMap]
  constructor
  · rintro ⟨digest, ⟨tx, htx, hdig⟩, rfl⟩
    exact ⟨tx, htx, digest, hdig, rfl⟩
  · rintro ⟨tx, htx, digest, hdig, rfl⟩
    exact ⟨digest, ⟨tx, htx, hdig⟩, rfl⟩

/-- Before the loop, the only settlement among the roots is that of the height. -/
theorem settlement_mem_start (he : config.accumulatorsEnabled = true)
    (hr : q.roots = rootsOfTransactions txs) (hset : k.isAccumulatorSettlement = true) :
    k ∈ (startLoop config c q).nonRandomnessRoots ↔
      k = settlementKey config (calculatePendingCheckpointHeight config c.round) := by
  have hdig : k ∉ q.roots := by
    rw [hr, mem_rootsOfTransactions]
    rintro ⟨tx, _, digest, _, rfl⟩
    cases hset
  have hs : (startLoop config c q).nonRandomnessRoots = q.roots.insert
      (settlementKey config (calculatePendingCheckpointHeight config c.round)) () := by
    unfold startLoop
    rw [if_pos he]
    split <;> rfl
  rw [hs, mem_insert]
  exact or_iff_left hdig

/-- With randomness, the same holds for its roots. -/
theorem settlement_mem_start_randomness (he : config.accumulatorsEnabled = true)
    (hro : q.randomnessRound.isSome = true) (hr : q.randomnessRoots = rootsOfTransactions txs)
    (hset : k.isAccumulatorSettlement = true) :
    k ∈ (startLoop config c q).randomnessRoots ↔
      k = settlementKey config (calculatePendingCheckpointHeight config c.round + 1) := by
  have hdig : k ∉ q.randomnessRoots := by
    rw [hr, mem_rootsOfTransactions]
    rintro ⟨tx, _, digest, _, rfl⟩
    cases hset
  have hs : (startLoop config c q).randomnessRoots = q.randomnessRoots.insert
      (settlementKey config (calculatePendingCheckpointHeight config c.round + 1)) () := by
    unfold startLoop
    rw [if_pos he]
    rw [if_pos hro]
  rw [hs, mem_insert]
  exact or_iff_left hdig

theorem startLoop_randomnessRoots (hr : q.randomnessRound = none) :
    (startLoop config c q).randomnessRoots = q.randomnessRoots := by
  unfold startLoop
  rw [hr]
  split <;> rfl

/-! ## The settlement comes last -/

theorem TransactionKey.le_accumulatorSettlement {epoch : ℕ}
    (h : k.isAccumulatorSettlement = true → k = .accumulatorSettlement epoch height) :
    k ≤ .accumulatorSettlement epoch height := by
  cases k with
  | digest digest =>
    change rank (.digest digest) ≤ rank (.accumulatorSettlement epoch height)
    simp [rank, Prod.Lex.toLex_le_toLex]
  | randomnessRound epoch' round =>
    change rank (.randomnessRound epoch' round) ≤ rank (.accumulatorSettlement epoch height)
    simp [rank, Prod.Lex.toLex_le_toLex]
  | accumulatorSettlement epoch' he' => exact le_of_eq (h rfl)

/-- The roots have one settlement, the last of them, for the height. -/
structure CarriesSettlement (config : CommitConfig) (height : ℕ) (roots : List TransactionKey) :
    Prop where
  only : roots.filter (·.isAccumulatorSettlement) = [settlementKey config height]
  last : roots.getLast? = some (settlementKey config height)

theorem CarriesSettlement.of_set (h : ∀ k : TransactionKey, k.isAccumulatorSettlement = true →
      (k ∈ m ↔ k = settlementKey config height)) : CarriesSettlement config height m.keys := by
  have hmem : settlementKey config height ∈ m := (h _ rfl).2 rfl
  refine ⟨?_, ?_⟩
  · have hn : (m.keys.filter (·.isAccumulatorSettlement)).Nodup := List.Nodup.filter _ m.nodup_keys
    refine perm_singleton.1 ((perm_ext_iff_of_nodup hn (nodup_singleton _)).2 fun k => ?_)
    rw [mem_filter, OrdMap.mem_keys, mem_singleton]
    constructor
    · rintro ⟨hk, hset⟩
      exact (h k hset).1 hk
    · rintro rfl
      exact ⟨hmem, rfl⟩
  · cases hl : m.last? with
    | none => exact absurd hmem (last?_eq_none.1 hl _)
    | some e =>
      obtain ⟨hget, hmax⟩ := last?_eq_some hl
      have hle : e.1 ≤ settlementKey config height :=
        TransactionKey.le_accumulatorSettlement fun hset =>
          (h e.1 hset).1 (mem_iff.2 ⟨_, hget⟩)
      have hkey : e.1 = settlementKey config height := le_antisymm hle (hmax _ hmem)
      rw [OrdMap.keys, getLast?_map, show m.entries.getLast? = m.last? from rfl, hl,
        Option.map_some, hkey]

theorem CarriesSettlement.cons {roots : List TransactionKey}
    (h : CarriesSettlement config height roots) (hr : root.isAccumulatorSettlement = false) :
    CarriesSettlement config height (root :: roots) := by
  refine ⟨?_, ?_⟩
  · rw [filter_cons_of_neg (by rw [hr]; exact Bool.false_ne_true), h.only]
  · rw [getLast?_cons, h.last, Option.getD_some]

theorem settlement_mem_insert {key : TransactionKey} (hr : root.isAccumulatorSettlement = false)
    (hset : k.isAccumulatorSettlement = true) (h : k ∈ m ↔ k = key) :
    k ∈ m.insert root () ↔ k = key := by
  rw [mem_insert, h]
  refine or_iff_right ?_
  rintro rfl
  rw [hr] at hset
  cases hset

/-! ## The pending checkpoints of a commit -/

/-- No transaction of a user with randomness is in the commit or comes back with it. -/
structure WithoutRandomness (s : CommitState) (c : ConsensusCommit) : Prop where
  none_waits : ∀ round, .randomness round ∉ s.deferredTransactions
  none_deferred : ∀ txs ∈ s.deferredTransactions.values, ∀ tx ∈ txs, tx.usesRandomness = false
  none_sequenced : ∀ tx, .user tx ∈ c.transactions → tx.usesRandomness = false

/-- What a step has to meet: key generation has not failed, or there is nothing to cancel for it. -/
def NothingToCancel (config : CommitConfig) (s : CommitState) : CommitAction → Prop
  | .commit c =>
    config.randomnessStateEnabled = true → c.dkgStatus = .failed → WithoutRandomness s c
  | .closeUserCerts => True

/-- Without transactions with randomness, nothing is sequenced for the second checkpoint. -/
theorem sequencedRandomness_eq_nil {D R : DeferredGroups}
    (hl : Loaded config s c D R) (h : WithoutRandomness s c) :
    sequencedRandomnessTransactions config
      ((unseen c.cached [] c.transactions).filter (verifyConsensusTransaction s)) D
      R = [] := by
  have hw : R = [] := by
    refine eq_nil_iff_forall_not_mem.2 fun group hg => ?_
    obtain ⟨hget, ⟨round, _, hkey⟩, _⟩ := (hl.mem_randomness group.1 group.2).1 hg
    exact h.none_waits round (mem_iff.2 ⟨_, hkey ▸ hget⟩)
  have hno : ∀ tx : UserTransaction, tx.usesRandomness = false →
      withRandomness config (.user tx) = false := by
    intro tx hr
    simp [withRandomness, isUserTxWithRandomness, user?, hr]
  have hdef : ((groupTransactions D).map user).filter (withRandomness config) = [] := by
    refine filter_eq_nil_iff.2 fun tx htx => ?_
    obtain ⟨user, hu, rfl⟩ := mem_map.1 htx
    obtain ⟨group, hg, hu⟩ := mem_flatMap.1 hu
    obtain ⟨hget, _⟩ := (hl.mem_deferred group.1 group.2).1 hg
    rw [hno user (h.none_deferred group.2 (mem_values.2 ⟨_, hget⟩) user hu)]
    exact Bool.false_ne_true
  have hc : (currentTransactions ((unseen c.cached [] c.transactions).filter
      (verifyConsensusTransaction s))).filter (withRandomness config) = [] := by
    refine filter_eq_nil_iff.2 fun tx htx => ?_
    have hmem := mem_of_mem_unseen (mem_of_mem_filter (mem_of_mem_filter htx))
    cases tx with
    | user tx =>
      rw [hno tx (h.none_sequenced tx hmem)]
      exact Bool.false_ne_true
    | system _ | endOfPublish _ _ | message _ _ _ =>
      simp [withRandomness, isUserTxWithRandomness, user?]
  rw [sequencedRandomnessTransactions, hw, hdef, hc]
  rfl

/-- **Every pending checkpoint of such a commit carries its settlement.** -/
theorem commit_carriesSettlement (henabled : config.accumulatorsEnabled = true)
    (hcond : NothingToCancel config s (.commit c)) {outcome : CommitOutcome}
    (h : handleConsensusCommit config s c = .ok (some outcome)) :
    ∀ p ∈ outcome.pendingCheckpoints,
      CarriesSettlement config p.details.checkpointHeight p.roots := by
  obtain ⟨q, p, hq, hp, hpendings, _⟩ := commitBoundary_ok (handleConsensusCommit_eq_some h)
  obtain ⟨D, R, hload, rfl⟩ := sequenceTransactions_ok hq
  obtain ⟨l, hl, hroots, hrandRoot, hprol⟩ := processConsensusTransactions_loop hp
  obtain ⟨hshrink, hshriRand⟩ := foldlM_processEntry_shrink hl
  rw [hpendings]
  intro pending hpend
  unfold commitPendingCheckpoints at hpend
  split at hpend
  swap
  · cases hpend
  rcases mem_cons.1 hpend with rfl | hpend
  · -- The settlement of the first checkpoint is always there; the prologue is none.
    have hset : ∀ k : TransactionKey, k.isAccumulatorSettlement = true →
        (k ∈ p.loop.nonRandomnessRoots ↔
          k = settlementKey config (calculatePendingCheckpointHeight config c.round)) := by
      intro k hk
      rw [hroots, hshrink.settlement_iff hk]
      exact settlement_mem_start henabled rfl hk
    unfold nonRandomnessRoots
    cases hroot : p.prologueRoot with
    | none => exact .of_set hset
    | some root =>
      dsimp only
      split
      · exact CarriesSettlement.cons (.of_set hset) (hprol root hroot)
      · exact .of_set fun k hk => settlement_mem_insert (hprol root hroot) hk (hset k hk)
  · split at hpend
    swap
    · cases hpend
    rename_i hwrite
    rw [mem_singleton.1 hpend]
    cases hround : (randomnessOutcome config s c).2 with
    | some round =>
      refine .of_set fun k hk => ?_
      have hset : k ∈ p.loop.randomnessRoots ↔
          k = settlementKey config (calculatePendingCheckpointHeight config c.round + 1) := by
        rw [hrandRoot, hshriRand.settlement_iff hk]
        exact settlement_mem_start_randomness henabled (by simp [sequencingOf, hround]) rfl hk
      simp only [sequencingOf, hround]
      exact settlement_mem_insert rfl hk hset
    | none =>
      -- No randomness: key generation has failed and there are roots, which the condition excludes.
      simp only [shouldWriteRandomCheckpoint, randomnessRoots, sequencingOf, hround,
        Option.isSome_none, Bool.false_or, Bool.and_eq_true] at hwrite
      obtain ⟨hfailed, hnon⟩ := hwrite
      obtain ⟨_, hrandomness, hstatus⟩ := randomnessOutcome_failed hfailed
      have hnil := sequencedRandomness_eq_nil hload (hcond hrandomness hstatus)
      have hempty : p.loop.randomnessRoots.entries = [] := by
        refine entries_eq_nil.2 fun k hk => ?_
        rw [hrandRoot] at hk
        have hstart := hshriRand.subset k hk
        rw [startLoop_randomnessRoots (by simp [sequencingOf, hround])] at hstart
        simp only [sequencingOf, hnil] at hstart
        exact notMem_empty hstart
      rw [hempty] at hnon
      cases hnon

/-! ## Runs -/

theorem popSettlementRoot_of_carries {view : EpochView} (he : view.accumulatorsEnabled = true)
    {p : PendingCheckpointContents}
    (h : CarriesSettlement config p.details.checkpointHeight p.roots) :
    popSettlementRoot view p.pending =
      .ok (some (settlementKey config p.details.checkpointHeight), p.roots.dropLast) := by
  have hl : p.pending.roots.getLast? =
      some (.accumulatorSettlement config.epoch p.details.checkpointHeight) := h.last
  unfold popSettlementRoot
  rw [if_pos he, hl]
  rfl

/-- **Every pending checkpoint carries its settlement root.** In a run whose commits have no
transaction with randomness once key generation has failed, each pending checkpoint has one
settlement, for its own height and in last position, and the builder finds it. -/
theorem settlement_carried (henabled : config.accumulatorsEnabled = true)
    (hs : (commitMachine config).Reach (NothingToCancel config) s) :
    ∀ p ∈ s.pendingCheckpoints, CarriesSettlement config p.details.checkpointHeight p.roots ∧
      ∀ view : EpochView, view.accumulatorsEnabled = true → popSettlementRoot view p.pending =
        .ok (some (settlementKey config p.details.checkpointHeight), p.roots.dropLast) := by
  have hall : ∀ p ∈ s.pendingCheckpoints,
      CarriesSettlement config p.details.checkpointHeight p.roots := by
    refine hs.invariant (P := fun s => ∀ p ∈ s.pendingCheckpoints,
      CarriesSettlement config p.details.checkpointHeight p.roots) ?_ ?_
    · rintro s rfl p hp
      cases hp
    · intro s a s' hinv hco hst
      cases a with
      | closeUserCerts =>
        cases hst
        exact hinv
      | commit c =>
        change commitStep config s (.commit c) = .ok s' at hst
        simp only [commitStep, ok_iff] at hst
        obtain ⟨outcome?, hc, rfl⟩ := hst
        cases outcome? with
        | none => exact hinv
        | some outcome =>
          obtain ⟨_, _, _, _, _, hpe⟩ := commitBoundary_ok (handleConsensusCommit_eq_some hc)
          intro p hp
          rw [Option.map_some, Option.getD_some, hpe] at hp
          rcases mem_append.1 hp with hp | hp
          · exact hinv p hp
          · exact commit_carriesSettlement henabled hco hc p hp
  exact fun p hp => ⟨hall p hp, fun view hv => popSettlementRoot_of_carries hv (hall p hp)⟩

/-! ## A failed key generation -/

namespace CommitSample

def keysGenerated : CommitAction → Bool
  | .commit c => c.dkgStatus != .failed
  | .closeUserCerts => true

end CommitSample

instance : DecidableEq PendingCheckpointContents := fun a b =>
  decidable_of_iff (a.roots = b.roots ∧ a.details = b.details) (by cases a; cases b; simp)

/-- **The checkpoint of cancelled transactions has no settlement**, and the builder stops at it. -/
theorem cancelled_without_settlement :
    ∃ s, (commitMachine CommitSample.epochConfig).Reach Machine.free s ∧
      ∃ p ∈ s.pendingCheckpoints, p.roots.filter (·.isAccumulatorSettlement) = [] ∧
        ∀ view : EpochView, view.accumulatorsEnabled = true →
          popSettlementRoot view p.pending = .error .noSettlementRoot := by
  refine exists_reach_imp [.commit (commit .failed)]
    (fun s => (⟨[.digest 8], ⟨100, false, 7⟩⟩ : PendingCheckpointContents) ∈ s.pendingCheckpoints)
    (init_ok rfl) (by decide +kernel) fun s _ hp => ?_
  refine ⟨_, hp, by decide, fun view hv => ?_⟩
  unfold popSettlementRoot
  rw [if_pos hv]
  rfl

/-- The same commit with randomness. -/
theorem settlement_carried_sample : ∃ s, (commitMachine CommitSample.epochConfig).Reach
        (NothingToCancel CommitSample.epochConfig) s ∧
      (⟨[.digest 8, .randomnessRound 1 5, .accumulatorSettlement 1 7], ⟨100, false, 7⟩⟩ :
        PendingCheckpointContents) ∈ s.pendingCheckpoints ∧
      ∀ p ∈ s.pendingCheckpoints,
        CarriesSettlement CommitSample.epochConfig p.details.checkpointHeight p.roots := by
  obtain ⟨s, hs, hp⟩ := exists_reach (M := commitMachine epochConfig)
    (C := fun _ a => keysGenerated a = true) [.commit (commit .successful)]
    (fun s => (⟨[.digest 8, .randomnessRound 1 5, .accumulatorSettlement 1 7], ⟨100, false, 7⟩⟩ :
      PendingCheckpointContents) ∈ s.pendingCheckpoints)
    (init_ok rfl) (by decide +kernel)
  have hr : (commitMachine epochConfig).Reach
      (NothingToCancel epochConfig) s := by
    refine hs.mono fun s a ha => ?_
    cases a with
    | commit c => exact fun _ hf => absurd hf (bne_iff_ne.1 ha)
    | closeUserCerts => trivial
  exact ⟨s, hr, hp, fun p hmem => (settlement_carried rfl hr p hmem).1⟩

end OneChain.Authority
