import OneChain.Consensus.RecoverySteps
import OneChain.Consensus.ThresholdClockRound

/-!
# Recovery succeeds

The phases of `DagState::new`, each with what it needs to reach its end.

* `foldlM_recoverAuthority_ok` — loading blocks only needs the genesis blocks.
* `recoverStatuses_ok` — the committed blocks above the GC round are loaded, and none is in two
  commits.
* `foldlM_link_ok` — the ancestors above the GC round of loaded blocks are loaded.
* `loadCommittedSubdag_ok` — the blocks of the commit are stored.
-/

namespace OneChain.Consensus

open Lib List OrdMap

variable {n : ℕ} {C : Committee n} {protocol : Protocol n}

theorem exists_genesis (C : Committee n) (protocol : Protocol n) (a : Fin n) :
    ∃ e, (genesisMap C protocol).entries.find? (fun e => e.1.author = a) = some e := by
  rw [← Option.isSome_iff_exists, find?_isSome]
  let b : Block n :=
    { epoch := C.epoch, round := genesisRound, author := a,
      timestampMs := protocol.genesisTimestampMs, ancestors := [], transactions := [],
      transactionVotes := [], digest := protocol.genesisDigest a }
  have hmem : b ∈ genesisBlocks C protocol := mem_map.2 ⟨a, mem_finRange a, rfl⟩
  have hget : (genesisMap C protocol).get? b.reference = some b := by
    refine (get?_foldl_insert ?_ .empty).2 (.inl ⟨b, hmem, rfl, rfl⟩)
    intro c hc c' hc' heq
    obtain ⟨i, _, rfl⟩ := mem_map.1 hc
    obtain ⟨j, _, rfl⟩ := mem_map.1 hc'
    have hij : i = j := congrArg BlockRef.author heq
    rw [hij]
  exact ⟨(b.reference, b), mem_entries.2 hget, by simp [b]⟩

namespace DagState

variable {d d' : DagState C}

/-! ## Loading -/

/-- The last block of an authority is in the cache, or is a genesis block. -/
theorem getLastBlockForAuthority_ok (hgen : d.genesis = genesisMap C protocol)
    (hr : ∀ a, ∀ r ∈ d.recentRefsByAuthority a, r ∈ d.recentBlocks) (a : Fin n) :
    ∃ b, d.getLastBlockForAuthority a = .ok b := by
  rw [DagState.getLastBlockForAuthority]
  cases hl : (d.recentRefsByAuthority a).last? with
  | some e =>
    obtain ⟨info, hi⟩ := mem_iff.1 (hr a e.1 (mem_iff.2 ⟨e.2, (last?_eq_some hl).1⟩))
    refine ⟨info.block, ?_⟩
    simp only [hi, require_ok.2 rfl, ok_bind, pure_ok]
  | none =>
    obtain ⟨e, he⟩ := exists_genesis C protocol a
    refine ⟨e.2, ?_⟩
    rw [hgen]
    simp only [he]

theorem refs_withBlock (hre : ∀ a, ∀ r ∈ d.recentRefsByAuthority a, r ∈ d.recentBlocks)
    (b : Block n) (a : Fin n) :
    ∀ r ∈ (d.withBlock b).recentRefsByAuthority a, r ∈ (d.withBlock b).recentBlocks := by
  intro r hr
  rcases (mem_withBlock_refs d b a r).1 hr with ⟨rfl, _⟩ | hr
  · exact mem_insert.2 (.inl rfl)
  · exact mem_insert.2 (.inr (hre a r hr))

theorem updateBlockMetadata_ok {b : Block n} (hgen : d.genesis = genesisMap C protocol)
    (hr : ∀ a, ∀ r ∈ d.recentRefsByAuthority a, r ∈ d.recentBlocks) :
    d.updateBlockMetadata b = .ok (d.withBlock b) := by
  unfold DagState.updateBlockMetadata
  by_cases hadv : (d.thresholdClock.addBlock b.reference).2 = true
  · obtain ⟨last, hl⟩ := getLastBlockForAuthority_ok (d := d.withBlock b) hgen
      (refs_withBlock hr b) d.context.ownIndex
    simp only [hadv]
    exact congrArg (· >>= _) hl
  · simp only [hadv]
    rfl

/-- Cached references have their blocks, and the clock has counted them. -/
structure CacheReady (protocol : Protocol n) (d : DagState C) : Prop where
  genesis_eq : d.genesis = genesisMap C protocol
  refs : ∀ a, ∀ r ∈ d.recentRefsByAuthority a, r ∈ d.recentBlocks
  clock : ThresholdClock.Counts 1 { r | r ∈ d.recentBlocks } d.thresholdClock

section Clock

variable (hstake : ThresholdClock.NoLoneQuorum C) (h : CacheReady protocol d)

include hstake h

theorem CacheReady.withBlock (b : Block n) : CacheReady protocol (d.withBlock b) := by
  refine ⟨h.genesis_eq, refs_withBlock h.refs b, ?_⟩
  · have hset : { r | r ∈ (d.withBlock b).recentBlocks } =
        insert b.reference { r | r ∈ d.recentBlocks } := by
      ext r
      exact mem_insert
    rw [hset]
    exact h.clock.addBlock hstake b.reference

theorem CacheReady.foldlM_updateBlockMetadata (blocks : List (Block n)) :
    ∃ d', blocks.foldlM DagState.updateBlockMetadata d = .ok d' ∧ CacheReady protocol d' := by
  induction blocks generalizing d with
  | nil => exact ⟨d, rfl, h⟩
  | cons b blocks ih =>
    obtain ⟨d', hd', hr⟩ := ih (h.withBlock hstake b)
    refine ⟨d', ?_, hr⟩
    rw [foldlM_cons, updateBlockMetadata_ok h.genesis_eq h.refs, ok_bind, hd']

theorem foldlM_recoverAuthority_ok (l : List (Fin n)) :
    ∃ d', l.foldlM recoverAuthority d = .ok d' ∧ CacheReady protocol d' := by
  induction l generalizing d with
  | nil => exact ⟨d, rfl, h⟩
  | cons a l ih =>
    have hro : CacheReady protocol { d with
        evictedRounds := Function.update d.evictedRounds a (d.recoveredRound a) } :=
      { h with }
    obtain ⟨d₁, hd₁, hr₁⟩ := hro.foldlM_updateBlockMetadata hstake
      (d.store.scanBlocksByAuthor a (d.recoveredRound a + 1))
    obtain ⟨d', hd', hr⟩ := ih hr₁
    refine ⟨d', ?_, hr⟩
    rw [foldlM_cons, show d.recoverAuthority a = .ok d₁ from hd₁, ok_bind, hd']

end Clock

/-! ## Marks -/

/-- No block is in two commits. -/
structure CommittedOnce (H : CommitHistory n) : Prop where
  nodup : ∀ e ∈ H, e.2.blocks.Nodup
  disjoint : ∀ (j k : ℕ) (e e' : CommittedSubDag n × TrustedCommit n), j < k → H[j]? = some e →
    H[k]? = some e' → ∀ r ∈ e.2.blocks, r ∉ e'.2.blocks

theorem recoverStatuses_ok {d₀ : DagState C} {g : ℕ} {K : Finset (BlockRef n)} {H : CommitHistory n}
    (hH : StoresCommits d₀.store H) (honce : CommittedOnce H) (h : Marks d₀ g K d) {index : ℕ}
    (hindex : index ≤ H.length)
    (hcached : ∀ e ∈ H.take index, ∀ r ∈ e.2.blocks, g < r.round → r ∈ d₀.recentBlocks ∧ r ∉ K) :
    ∃ d', recoverStatuses g index d = .ok d' := by
  induction index generalizing d K with
  | zero =>
    refine ⟨d, ?_⟩
    rw [recoverStatuses, show d.store = d₀.store by rw [h.frame], hH.head?_scan.1]
  | succ k ih =>
    have hk : H[k]? = some H[k] := getElem?_eq_getElem (by omega)
    have htake : H.take (k + 1) = H.take k ++ [H[k]] := by
      rw [take_succ_eq_append_getElem]
    rw [recoverStatuses, show d.store = d₀.store by rw [h.frame], hH.head?_scan.2 k, hk,
      Option.map_some]
    by_cases hlow : 0 < g ∧ H[k].2.leader.round ≤ g
    · exact ⟨d, by simp only [if_pos hlow]⟩
    · simp only [if_neg hlow]
      have hlast : H[k] ∈ H.take (k + 1) := by
        rw [htake]
        exact mem_append_right _ mem_cons_self
      have hfilter : ∀ r ∈ H[k].2.blocks.filter fun r => g < r.round,
          r ∈ d₀.recentBlocks ∧ g < r.round ∧ r ∉ K := by
        intro r hr
        obtain ⟨hmem, hround⟩ := mem_filter.1 hr
        have hround : g < r.round := by simpa using hround
        obtain ⟨hr, hK⟩ := hcached _ hlast r hmem hround
        exact ⟨hr, hround, hK⟩
      obtain ⟨d₁, hd₁, hmarks⟩ := h.markAll hfilter
        ((honce.nodup _ (getElem_mem _)).sublist filter_sublist)
      rw [hd₁, ok_bind]
      by_cases hzero : k = 0
      · exact ⟨d₁, by simp only [if_pos hzero]⟩
      · simp only [if_neg hzero]
        refine ih hmarks (by omega) fun e he r hr hround => ?_
        obtain ⟨hr', hK⟩ := hcached e (htake ▸ mem_append_left _ he) r hr hround
        refine ⟨hr', fun hmem => ?_⟩
        rcases Finset.mem_union.1 hmem with hmem | hmem
        · exact hK hmem
        · obtain ⟨j, hj⟩ := mem_iff_getElem?.1 he
          have hjk : j < k := by
            have := (List.getElem?_eq_some_iff.1 hj).1
            rw [length_take] at this
            omega
          rw [getElem?_take_of_lt hjk] at hj
          exact honce.disjoint j k e _ hjk hj hk r hr (mem_filter.1 (mem_toFinset.1 hmem)).1

/-! ## Links -/

/-- The ancestors of the blocks that are not linked. -/
def unlinkedCost (d : DagState C) : ℕ :=
  (d.recentBlocks.values.map fun info =>
    if info.hardLinked then 0 else info.block.ancestors.length).sum

theorem unlinkedCost_le (d : DagState C) : d.unlinkedCost + 2 ≤ d.linkFuel := by
  refine Nat.add_le_add_right (sum_le_sum fun info _ => ?_) 2
  split
  · exact Nat.zero_le _
  · exact le_rfl

/-- Cached blocks have their ancestors above the round in the cache. -/
def AncestorsCached (d : DagState C) (g : ℕ) : Prop :=
  ∀ r info, d.recentBlocks.get? r = some info → g < r.round → ∀ a ∈ info.block.ancestors,
    g < a.round → a ∈ d.recentBlocks

theorem LinkedOnly.mem (h : LinkedOnly d d') (r : BlockRef n) :
    r ∈ d'.recentBlocks ↔ r ∈ d.recentBlocks :=
  mem_congr (h.blocks r)

theorem LinkedOnly.ancestorsCached {g : ℕ} (h : LinkedOnly d d') (hd : AncestorsCached d g) :
    AncestorsCached d' g := by
  intro r info hr hro a ha hga
  have hp := h.blocks r
  rw [hr] at hp
  obtain ⟨info₀, hi₀, heq⟩ := Option.map_eq_some_iff.1 hp.symm
  have hb : info₀.block = info.block := congrArg Prod.fst heq
  exact (h.mem a).2 (hd r info₀ hi₀ hro a (hb ▸ ha) hga)

/-- Each turn takes a target off and pays for the ancestors it adds. -/
theorem linkLoop_ok {g fuel : ℕ} {targets linked : List (BlockRef n)} (hd : AncestorsCached d g)
    (ht : ∀ r ∈ targets, g < r.round → r ∈ d.recentBlocks)
    (hf : d.unlinkedCost + targets.length + 1 ≤ fuel) :
    ∃ out, linkLoop g fuel d targets linked = .ok out := by
  induction fuel generalizing d targets linked with
  | zero => omega
  | succ fuel ih =>
    cases targets with
    | nil => exact ⟨(d, linked), rfl⟩
    | cons r targets =>
      have hr : ∀ s ∈ targets, g < s.round → s ∈ d.recentBlocks := fun s hs =>
        ht s (mem_cons_of_mem _ hs)
      rw [length_cons] at hf
      rw [linkLoop]
      by_cases hro : r.round ≤ g
      · rw [if_pos hro]
        exact ih hd hr (by omega)
      · rw [if_neg hro]
        obtain ⟨info, hi⟩ := mem_iff.1 (ht r mem_cons_self (by omega))
        have hli : d.linkBlock r = if info.hardLinked then .ok (d, none) else
            .ok ({ d with
              recentBlocks := d.recentBlocks.insert r { info with hardLinked := true } },
              some info.block.ancestors) := by
          rw [linkBlock, hi]
          rfl
        cases hl : info.hardLinked with
        | true =>
          have hf' : d.unlinkedCost + targets.length + 1 ≤ fuel := by omega
          rw [hli, hl]
          exact ih hd hr hf'
        | false =>
          rw [hl] at hli
          have ho := linkBlock_linkedOnly hli
          rw [hli]
          refine ih (ho.ancestorsCached hd) (fun s hs hsr => (ho.mem s).2 ?_) ?_
          · rcases mem_append.1 hs with hs | hs
            · exact hr s hs hsr
            · exact hd r info hi (by omega) s hs hsr
          · have hc := sum_values_insert (v := { info with hardLinked := true })
              (fun info : BlockInfo n => if info.hardLinked then 0 else info.block.ancestors.length)
              hi
            simp only [hl, if_true, Bool.false_eq_true, if_false] at hc
            rw [length_append]
            simp only [unlinkedCost] at hf ⊢
            omega

theorem foldlM_link_ok {blocks : List (Block n)} (hd : AncestorsCached d d.gcRound)
    (hb : ∀ b ∈ blocks, b.reference ∈ d.recentBlocks) :
    ∃ d', blocks.foldlM (fun d block => do pure (← d.linkCausalHistory block.reference).1) d =
      .ok d' := by
  induction blocks generalizing d with
  | nil => exact ⟨d, rfl⟩
  | cons b blocks ih =>
    obtain ⟨out, hout⟩ : ∃ out, d.linkCausalHistory b.reference = .ok out := by
      refine linkLoop_ok hd (fun r hr _ => ?_) ?_
      · rw [mem_singleton.1 hr]
        exact hb b mem_cons_self
      · have := d.unlinkedCost_le
        omega
    have ho := linkLoop_linkedOnly hout
    have hgc : out.1.gcRound = d.gcRound := by
      rw [ho.frame]
      rfl
    obtain ⟨d', hd'⟩ := ih (hgc ▸ ho.ancestorsCached hd) fun c hc =>
      (ho.mem _).2 (hb c (mem_cons_of_mem _ hc))
    refine ⟨d', ?_⟩
    rw [foldlM_cons, hout, ok_bind, pure_ok, ok_bind, hd']

/-! ## Sub-dags -/

/-- A sub-dag is what its commit and its blocks determine. -/
structure Assembled (e : CommittedSubDag n × TrustedCommit n) : Prop where
  subdag : e.1 = .new e.2.leader e.1.blocks e.2.timestampMs e.2.reference
  blocks : e.2.blocks = e.1.blocks.map Block.reference
  leader : ∃ b ∈ e.1.blocks, b.reference = e.2.leader

theorem loadCommittedSubdag_ok {store : Store n} {e : CommittedSubDag n × TrustedCommit n}
    (h : Assembled e) (hs : ∀ b ∈ e.1.blocks, store.blocks.get? b.reference = some b) :
    store.loadCommittedSubdag e.2 [] = .ok e.1 := by
  have hbl : (e.2.blocks.mapM fun r =>
      require (store.blocks.get? r) (Panic.blockNotFoundInStorage r)) = .ok e.1.blocks := by
    rw [h.blocks, mapM_eq_ok, forall₂_map_left_iff]
    exact forall₂_same.2 fun b hb => require_ok.2 (hs b hb)
  rw [Store.loadCommittedSubdag, hbl, ok_bind, check_of h.leader]
  exact congrArg Except.ok h.subdag.symm

end DagState

end OneChain.Consensus
