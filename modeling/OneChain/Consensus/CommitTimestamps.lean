import OneChain.Consensus.KnownBlocks
import OneChain.Lib.WeightedRank

/-!
# Commit timestamps

The timestamp of a commit is the median by stake of the leader's parents, raised to the timestamp of
the commit before. Faulty authors cannot move the median out of the range of the honest timestamps
(`median_honest`). In every run, whatever was flushed and recovered, a later commit has no earlier
timestamp (`Dated`).
-/

namespace OneChain.Consensus

open Lib List OrdMap

variable {n : ℕ} {C : Committee n} {byzantine : Finset (Fin n)} {blocks : List (Block n)} {m : ℕ}

/-! ## The median -/

/-- The stake of the authors, block by block. -/
def stakeOf (C : Committee n) (blocks : List (Block n)) : ℕ :=
  tally (fun b => C.stake b.author) blocks

theorem medianLoop_eq_scan (half last sum : ℕ) (l : List (ℕ × ℕ)) :
    medianLoop half last sum l = scan (half < ·) last sum l := by
  induction l generalizing sum with
  | nil => rfl
  | cons e l ih => simp only [medianLoop, scan, ih]

/-- The median is the first timestamp up to which the blocks have more than half of the stake. -/
theorem isMedian_of_ok (h : medianTimestampByStake C blocks = .ok m) :
    C.quorumThreshold ≤ stakeOf C blocks ∧
      IsMedian (·.timestampMs) (fun b => C.stake b.author) blocks m := by
  simp only [medianTimestampByStake, ok_iff, map_map] at h
  obtain ⟨_, hq, rfl⟩ := h
  have hpos : 0 < C.quorumThreshold := by simp [Committee.quorumThreshold]
  refine ⟨hq, fun s => ?_⟩
  rw [medianTimestampsByStakeInner, medianLoop_eq_scan]
  exact (scan_items (fun a b hab ha => ha.trans_le hab) (pairwise_insertionSort _ _)
    (perm_insertionSort _ _) (Nat.not_lt_zero _)
    (Nat.div_lt_self (hpos.trans_le hq) Nat.one_lt_two) s).symm

/-- **The median lies between honest timestamps.** -/
theorem median_honest (h : medianTimestampByStake C blocks = .ok m)
    (hl : stakeOf C (blocks.filter (·.author ∈ byzantine)) < C.validityThreshold) :
    (∃ b ∈ blocks, b.author ∉ byzantine ∧ b.timestampMs ≤ m) ∧
      ∃ b ∈ blocks, b.author ∉ byzantine ∧ m ≤ b.timestampMs := by
  obtain ⟨hq, hm⟩ := isMedian_of_ok h
  have hsum := tally_filter_add (fun b => C.stake b.author) (·.author ∈ byzantine) blocks
  unfold Committee.quorumThreshold stakeOf at hq
  unfold Committee.validityThreshold stakeOf at hl
  simpa using hm.between (p := fun b => !decide (b.author ∈ byzantine)) (by omega)

/-! ## Commits over a run -/

namespace DagState

variable {d d' : DagState C} {commit : TrustedCommit n}

/-- The commit is stored or going to be written. -/
def HasCommit (d : DagState C) (commit : TrustedCommit n) : Prop :=
  (∃ r, d.store.commits.get? r = some commit) ∨ commit ∈ d.commitsToWrite

/-- Timestamps grow with the index, up to the last commit. -/
structure Dated (d : DagState C) : Prop where
  blocks : ∀ r b, d.store.blocks.get? r = some b → b.reference = r
  commits : ∀ r c, d.store.commits.get? r = some c → c.reference = r
  sorted : ∀ c c', d.HasCommit c → d.HasCommit c' → c.index ≤ c'.index →
    c.timestampMs ≤ c'.timestampMs
  last : ∀ c, d.HasCommit c → ∃ l, d.lastCommit = some l ∧ c.index ≤ l.index ∧
    c.timestampMs ≤ l.timestampMs

theorem Dated.congr (h : Dated d) (hs : d'.store = d.store)
    (hw : d'.commitsToWrite = d.commitsToWrite) (hl : d'.lastCommit = d.lastCommit) : Dated d' := by
  have hc : d'.HasCommit = d.HasCommit := by
    unfold HasCommit
    rw [hs, hw]
  refine ⟨?_, ?_, ?_, ?_⟩
  · rw [hs]
    exact h.blocks
  · rw [hs]
    exact h.commits
  · rw [hc]
    exact h.sorted
  · rw [hc, hl]
    exact h.last

theorem Dated.withCommit (h : Dated d) (hch : d.checkNextCommit commit = .ok ()) :
    Dated (d.withCommit commit) := by
  have hb : ∀ c, d.HasCommit c → c.index < commit.index ∧ c.timestampMs ≤ commit.timestampMs := by
    intro c hc
    obtain ⟨l, hl, hi, ht⟩ := h.last c hc
    simp only [checkNextCommit, hl, ok_iff] at hch
    omega
  have hca : ∀ c, (d.withCommit commit).HasCommit c → d.HasCommit c ∨ c = commit := by
    intro c hc
    simpa [HasCommit, DagState.withCommit, or_assoc] using hc
  refine ⟨h.blocks, h.commits, fun c c' hc hc' hle => ?_, fun c hc => ⟨commit, rfl, ?_⟩⟩
  · rcases hca c' hc' with hold' | rfl
    · rcases hca c hc with hold | rfl
      · exact h.sorted c c' hold hold' hle
      · exact absurd (hb c' hold').1 (not_lt.2 hle)
    · rcases hca c hc with hold | rfl
      · exact (hb c hold).2
      · exact le_rfl
  · rcases hca c hc with hc | rfl
    · exact ⟨(hb c hc).1.le, (hb c hc).2⟩
    · exact ⟨le_rfl, le_rfl⟩

theorem Dated.flush (h : Dated d) : Dated d.flush := by
  have hw : Dated d.withWritten := by
    have hca : ∀ c, d.withWritten.HasCommit c → d.HasCommit c := by
      intro c hc
      obtain ⟨r, hr⟩ : ∃ r, d.withWritten.store.commits.get? r = some c := by
        simpa [HasCommit, withWritten] using hc
      rcases exists_of_get?_foldl_insert hr with ⟨_, hmem, _, rfl⟩ | hr
      · exact .inr hmem
      · exact .inl ⟨r, hr⟩
    refine ⟨fun r b hb => ?_, fun r c hc => ?_, fun c c' hc hc' =>
      h.sorted c c' (hca c hc) (hca c' hc'), fun c hc => h.last c (hca c hc)⟩
    · rcases exists_of_get?_foldl_insert hb with ⟨_, _, rfl, rfl⟩ | hb
      · rfl
      · exact h.blocks r b hb
    · rcases exists_of_get?_foldl_insert hc with ⟨_, _, rfl, rfl⟩ | hc
      · rfl
      · exact h.commits r c hc
  refine hw.congr ?_ ?_ ?_ <;> rw [flush_frame]

/-- Recovery continues from the stored commit with the highest index. -/
theorem dated_new {context : Context n} {store : Store n}
    (hb : ∀ r b, store.blocks.get? r = some b → b.reference = r)
    (hc : ∀ r c, store.commits.get? r = some c → c.reference = r)
    (hle : ∀ r r' c c', store.commits.get? r = some c → store.commits.get? r' = some c' →
      c.index ≤ c'.index → c.timestampMs ≤ c'.timestampMs)
    (hnew : DagState.new C context store = .ok d') : Dated d' := by
  obtain ⟨rounds, scoring, d₁, hl, hs⟩ := new_sameCache hb hnew
  have hstored : ∀ c, HasCommit (newWithoutBlocks C context store rounds scoring) c →
      ∃ r, store.commits.get? r = some c := by
    intro c h
    simpa [HasCommit, newWithoutBlocks] using h
  have hw : Dated (newWithoutBlocks C context store rounds scoring) := by
    refine ⟨hb, hc, fun c c' h h' => ?_, fun c h => ?_⟩
    · obtain ⟨r, hr⟩ := hstored c h
      obtain ⟨r', hr'⟩ := hstored c' h'
      exact hle r r' c c' hr hr'
    · obtain ⟨r, hr⟩ := hstored c h
      cases hlast : store.commits.last? with
      | none => exact absurd (mem_iff.2 ⟨c, hr⟩) (last?_eq_none.1 hlast r)
      | some e =>
        obtain ⟨hget, hmax⟩ := last?_eq_some hlast
        have hi := CommitRef.index_le_of_le (hmax r (mem_iff.2 ⟨c, hr⟩))
        rw [← hc r c hr, ← hc _ _ hget] at hi
        refine ⟨e.2, by simp [newWithoutBlocks, Store.readLastCommit, hlast], hi, ?_⟩
        exact hle r e.1 c e.2 hr hget hi
  refine hw.congr ?_ ?_ ?_ <;> rw [hs.frame, hl.frame]

end DagState

namespace Node

/-- **Commit timestamps.** -/
theorem commitTimestamps_spec (C : Committee n) (protocol : Protocol n) :
    (∀ (d : DagState C) leader last t, d.calculateCommitTimestamp leader last = .ok t →
      ∃ blocks m, Forall₂ (fun r b => d.getBlock r = some b)
          (leader.ancestors.filter fun r => r.round = leader.round - 1) blocks ∧
        t = max m last ∧ ∀ byzantine : Finset (Fin n),
          stakeOf C (blocks.filter (·.author ∈ byzantine)) < C.validityThreshold →
          (∃ b ∈ blocks, b.author ∉ byzantine ∧ b.timestampMs ≤ m) ∧
            ∃ b ∈ blocks, b.author ∉ byzantine ∧ m ≤ b.timestampMs) ∧
    ∀ node, (machine C protocol).Reach Machine.free node → ∀ c c', node.dag.HasCommit c →
      node.dag.HasCommit c' → c.index ≤ c'.index → c.timestampMs ≤ c'.timestampMs := by
  refine ⟨fun d leader last t h => ?_, fun node hr => ?_⟩
  · obtain ⟨blocks, hb, h⟩ := bind_ok.1 h
    split at h
    · rename_i m hm
      cases h
      exact ⟨blocks, m, (mapM_eq_ok.1 hb).imp fun _ _ => require_ok.1, rfl,
        fun byzantine => median_honest hm⟩
    · cases h
  · have hd : node.dag.Dated := hr.invariant
      (fun _ ⟨_, _, hnew, _⟩ => DagState.dated_new (by simp [Store.empty]) (by simp [Store.empty])
        (by simp [Store.empty]) hnew)
      fun _ _ _ hd _ hs => step_invariant (fun _ _ _ h _ => h.congr rfl rfl rfl)
        (fun _ _ h hs => h.congr (by rw [hs.frame]) (by rw [hs.frame]) (by rw [hs.frame]))
        (fun _ _ h hs => h.withCommit hs) (fun _ _ _ _ h => h.congr rfl rfl rfl)
        (fun _ h => h.flush) (fun _ _ _ h hs => DagState.dated_new h.blocks h.commits
          (fun _ _ c c' hr hr' => h.sorted c c' (.inl ⟨_, hr⟩) (.inl ⟨_, hr'⟩)) hs) hd hs
    exact hd.sorted

/-- Two commits, the leader of the second one with four parents. -/
theorem commitTimestamps_spec_sample : ∃ node : Node fourAuthorities,
      (machine fourAuthorities sampleProtocol).Reach Machine.free node ∧
      (∃ c c', node.dag.HasCommit c ∧ node.dag.HasCommit c' ∧ c.index < c'.index ∧
        c.timestampMs ≤ c'.timestampMs) ∧
      ∃ (blocks : List (Block 4)) (m : ℕ), 1 = max m 0 ∧ ∃ b ∈ blocks, m ≤ b.timestampMs := by
  refine Machine.exists_reach_imp ((sampleBlocks 2).map .accept ++
      [.commit [sampleBlock 1 1, sampleBlock 2 1]])
    (fun node => (∃ c ∈ node.dag.commitsToWrite, ∃ c' ∈ node.dag.commitsToWrite,
      c.index < c'.index) ∧ node.dag.calculateCommitTimestamp (sampleBlock 2 1) 0 = .ok 1)
    (start_init ⟨0, sampleProtocol, 1⟩) (by decide +kernel) ?_
  rintro node hr ⟨⟨c, hc, c', hc', hlt⟩, ht⟩
  obtain ⟨htimes, hsorted⟩ := commitTimestamps_spec fourAuthorities sampleProtocol
  obtain ⟨blocks, m, _, hmax, hbetween⟩ := htimes node.dag _ _ _ ht
  obtain ⟨_, b, hb, _, hle⟩ := hbetween ∅ (by simp [stakeOf]; decide)
  exact ⟨⟨c, c', .inr hc, .inr hc', hlt, hsorted node hr c c' (.inr hc) (.inr hc') hlt.le⟩,
    blocks, m, hmax, b, hb, hle⟩

end Node

end OneChain.Consensus
