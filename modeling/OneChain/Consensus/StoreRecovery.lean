import OneChain.Consensus.CommitSequence
import OneChain.Consensus.RecoverySuccess

/-!
# Recovery from a consistent store

A store is consistent with a history when it has its commits and their blocks, when the ancestors
above the GC round of every stored block are stored too, and when the last commit info is for one of
the commits (`Consistent`). Recovery then succeeds, and the state it builds is known (`new_ok`).
-/

namespace OneChain.Consensus

open Lib List OrdMap

variable {n : ℕ} {C : Committee n} {U : VerifiedBlocks C} {protocol : Protocol n}

/-! ## Histories -/

/-- The highest committed round of each author. -/
def CommitHistory.committedRounds (H : CommitHistory n) : Fin n → ℕ :=
  H.foldl (fun rounds e => DagState.raiseCommittedRounds rounds e.2.blocks) fun _ => 0

variable {leaders : List (Block n)} {H : CommitHistory n}

theorem Linearizes.assembled (hd : 0 < protocol.gcDepth) (h : Linearizes U protocol leaders H)
    (hl : LeaderSequence U leaders) : ∀ e ∈ H, DagState.Assembled e := by
  induction h with
  | nil => simp
  | @snoc leaders H leader e _ _ toCommit _ _ hr hn ih =>
    intro e' he'
    rcases mem_append.1 he' with he' | he'
    · exact ih hl.init e' he'
    · obtain rfl := mem_singleton.1 he'
      have hf := hr.faithful hd hl.init
      have hmem : leader.reference ∈ toCommit.map Block.reference :=
        (Worklist.mem_of_explore (U.nodup_ancestorsAbove _) (hf.notMem_committed hl)
          hn.explored hf.committed_closed leader.reference).2
          ⟨.refl, hf.notMem_committed hl⟩
      obtain ⟨b, hb, hbl⟩ := mem_map.1 hmem
      rw [hn.next_eq]
      exact ⟨rfl, rfl, b, mem_sortSubDagBlocks.2 hb, hbl⟩

theorem Faithful.committedOnce (h : Faithful U protocol leaders H) : DagState.CommittedOnce H := by
  have hmem : ∀ (k : ℕ) (e : CommittedSubDag n × TrustedCommit n), H[k]? = some e →
      ∀ b ∈ e.1.blocks, b ∈ U.blocks := by
    intro k e hk b hb
    exact ((h.mem_blocks k e hk b).1 hb).1.1
  refine ⟨fun e he => ?_, fun j k e e' hjk hj hk r hr hr' => ?_⟩
  · obtain ⟨k, hk⟩ := mem_iff_getElem?.1 he
    obtain ⟨_, _, _, _, _, _, _, hbl⟩ := h.entry k e hk
    rw [hbl]
    exact (h.nodup e he).map_on fun b hb b' hb' heq =>
      U.reference_injOn (hmem k e hk b hb) (hmem k e hk b' hb') heq
  · obtain ⟨_, _, _, _, _, _, _, hbl⟩ := h.entry j e hj
    obtain ⟨_, _, _, _, _, _, _, hbl'⟩ := h.entry k e' hk
    rw [hbl] at hr
    rw [hbl'] at hr'
    obtain ⟨b, hb, rfl⟩ := mem_map.1 hr
    obtain ⟨b', hb', heq⟩ := mem_map.1 hr'
    obtain rfl := U.reference_injOn (hmem k e' hk b' hb') (hmem j e hj b hb) heq
    exact ((h.mem_blocks k e' hk b').1 hb').2 j hjk ((h.mem_blocks j e hj b').1 hb).1

namespace DagState

variable {L : List (Block n)} {d : DagState C}

/-! ## The last round of an authority -/

/-- The highest round of the references, zero without any. -/
structure IsLastRound (S : Set (BlockRef n)) (round : ℕ) : Prop where
  le : ∀ r ∈ S, r.round ≤ round
  attained : round = 0 ∨ ∃ r ∈ S, r.round = round

theorem IsLastRound.unique {S : Set (BlockRef n)} {round round' : ℕ} (h : IsLastRound S round)
    (h' : IsLastRound S round') : round = round' := by
  refine le_antisymm ?_ ?_
  · rcases h.attained with rfl | ⟨r, hr, rfl⟩
    · exact Nat.zero_le _
    · exact h'.le r hr
  · rcases h'.attained with rfl | ⟨r, hr, rfl⟩
    · exact Nat.zero_le _
    · exact h.le r hr

theorem isLastRound_last? {ν : Type} (m : OrdMap (BlockRef n) ν) :
    IsLastRound { r | r ∈ m } ((m.last?.map fun e => e.1.round).getD 0) := by
  cases hl : m.last? with
  | none => exact ⟨fun r hr => absurd hr (last?_eq_none.1 hl r), .inl rfl⟩
  | some e =>
    obtain ⟨hget, hmax⟩ := last?_eq_some hl
    exact ⟨fun r hr => BlockRef.round_le_of_le (hmax r hr), .inr ⟨e.1, mem_iff.2 ⟨e.2, hget⟩, rfl⟩⟩

/-- The round that the eviction of an authority starts from. -/
def lastRefRound (d : DagState C) (a : Fin n) : ℕ :=
  ((d.recentRefsByAuthority a).last?.map fun e => e.1.round).getD 0

theorem calculateAuthorityEvictionRound_eq (d : DagState C) (a : Fin n) :
    d.calculateAuthorityEvictionRound a =
      evictionRound (d.lastRefRound a) d.gcRound d.cachedRounds := by
  rw [calculateAuthorityEvictionRound, lastRefRound]
  cases (d.recentRefsByAuthority a).last? <;> rfl

/-- The round that recovery starts from. -/
def lastStoredRound (store : Store n) (a : Fin n) : ℕ :=
  ((store.scanLastBlocksByAuthor a 1).getLast?.map Block.round).getD genesisRound

variable {store : Store n}

theorem isLastRound_lastStoredRound (hs : ∀ r b, store.blocks.get? r = some b → b.reference = r)
    (a : Fin n) :
    IsLastRound { r | r ∈ store.blocks ∧ r.author = a } (lastStoredRound store a) := by
  have hset : { r | r ∈ store.blocks ∧ r.author = a } =
      { r | r ∈ store.blocks.filter fun r _ => r.author = a ∧ 0 ≤ r.round } := by
    simp only [mem_iff, get?_filter_eq_some, Nat.zero_le,
      and_true, decide_eq_true_eq, exists_and_right]
  have hl := isLastRound_last? (store.blocks.filter fun r _ => r.author = a ∧ 0 ≤ r.round)
  convert hl using 1
  -- the last block in the scan is the one of the greatest reference
  have hd : ∀ l : List (Block n), (l.drop (l.length - 1)).getLast? = l.getLast? := by
    intro l
    rcases eq_nil_or_concat l with rfl | ⟨l, b, rfl⟩
    · rfl
    · simp
  rw [lastStoredRound, Store.scanLastBlocksByAuthor, hd, Store.scanBlocksByAuthor,
    OrdMap.values, OrdMap.last?, getLast?_map]
  cases he : (store.blocks.filter fun r _ => r.author = a ∧ 0 ≤ r.round).entries.getLast? with
  | none => rfl
  | some e =>
    have hmem := get?_filter_eq_some.1 (mem_entries.1 (mem_of_getLast? he))
    have href := hs e.1 e.2 hmem.1
    exact congrArg BlockRef.round href

/-- The last cached round is the last one of all blocks when no later block is evicted. -/
theorem isLastRound_lastRefRound {S : OrdMap (BlockRef n) (Block n)} (hre : d.RefsCached)
    (hc : ∀ r ∈ d.recentBlocks, r ∈ S)
    (htop : ∀ r ∈ S, ∃ s ∈ d.recentBlocks, s.author = r.author ∧ r.round ≤ s.round) (a : Fin n) :
    IsLastRound { r | r ∈ S ∧ r.author = a } (d.lastRefRound a) := by
  have hl := isLastRound_last? (d.recentRefsByAuthority a)
  refine ⟨?_, ?_⟩
  · rintro r ⟨hr, rfl⟩
    obtain ⟨s, hs, ha, hle⟩ := htop r hr
    exact hle.trans (hl.le s ((hre _ s).2 ⟨ha, hs⟩))
  · refine hl.attained.imp_right ?_
    rintro ⟨r, hr, hro⟩
    obtain ⟨ha, hr⟩ := (hre a r).1 hr
    exact ⟨r, ⟨hc r hr, ha⟩, hro⟩

/-- A reference of the last round stays. -/
theorem IsLastRound.exists_kept {S : Set (BlockRef n)} {round cachedRounds : ℕ}
    (h : IsLastRound S round) {r : BlockRef n} (hr : r ∈ S) (hpos : 0 < r.round)
    (hc : 0 < cachedRounds) (gcRound : ℕ) :
    ∃ s ∈ S, s.round = round ∧ evictionRound round gcRound cachedRounds < s.round := by
  have hle := h.le r hr
  have hev : evictionRound round gcRound cachedRounds ≤ round - cachedRounds := min_le_right _ _
  rcases h.attained with hz | ⟨s, hs, hround⟩
  · omega
  · exact ⟨s, hs, hround, by omega⟩

/-! ## A store to recover from -/

/-- What the store has of a history, with `j` the index of the last commit info. -/
structure Consistent (U : VerifiedBlocks C) (protocol : Protocol n) (store : Store n)
    (H : CommitHistory n) (j : ℕ) : Prop where
  blocks : ∀ r b, store.blocks.get? r = some b → b ∈ U.blocks ∧ b.reference = r
  closed : ∀ r b, store.blocks.get? r = some b → ∀ a ∈ b.ancestors,
    H.gcRound protocol < a.round → a ∈ store.blocks
  commits : StoresCommits store H
  committed : ∀ e ∈ H, ∀ b ∈ e.1.blocks, b.reference ∈ store.blocks
  infos : ∀ r ∈ store.commitInfo, ∃ e ∈ H, e.2.reference = r
  info : recoverCommitInfo store = (CommitHistory.committedRounds (H.take j), j + 1)
  info_le : j ≤ H.length

/-- The state that is rebuilt. -/
structure Recovered (context : Context n) (store : Store n) (H : CommitHistory n)
    (scoring : ScoringSubdag C) (d : DagState C) : Prop where
  frame : d = { newWithoutBlocks C context store H.committedRounds scoring with
    recentBlocks := d.recentBlocks
    recentRefsByAuthority := d.recentRefsByAuthority
    thresholdClock := d.thresholdClock
    evictedRounds := d.evictedRounds
    highestAcceptedRound := d.highestAcceptedRound }
  rounds : ∀ a, d.evictedRounds a = evictionRound (lastStoredRound store a) d.gcRound d.cachedRounds
  cached : ∀ r, (d.recentBlocks.get? r).map BlockInfo.block =
    if d.evictedRounds r.author < r.round then store.blocks.get? r else none
  refs : ∀ a r, r ∈ d.recentRefsByAuthority a ↔ r.author = a ∧ r ∈ d.recentBlocks
  clock : ThresholdClock.Counts 1 { r | r ∈ d.recentBlocks } d.thresholdClock

theorem unscoredCommits_eq {j : ℕ} (h : Consistent U protocol store H j) :
    unscoredCommits store = (H.drop j).map Prod.snd := by
  rw [unscoredCommits, h.commits.readLastCommit]
  cases hl : H.lastCommit with
  | none =>
    have hnil : H = [] := by simpa [CommitHistory.lastCommit] using hl
    simp [hnil]
  | some commit =>
    simp only [h.info]
    rw [h.commits.lastCommit_index hl, h.commits.scan_eq, take_length, Nat.add_sub_cancel]

/-- **Recovery from a consistent store.** -/
theorem new_ok (hdepth : 0 < protocol.gcDepth) (hstake : ThresholdClock.NoLoneQuorum C)
    (hL : LeaderSequence U L) (hlin : Linearizes U protocol L H) {j : ℕ}
    (hstore : Consistent U protocol store H j) {scoring : ScoringSubdag C}
    (hscor : ScoringSubdag.new.addSubdags ((H.drop j).map Prod.fst) = .ok scoring)
    {context : Context n} (hcont : context.protocol = protocol) :
    ∃ d, DagState.new C context store = .ok d ∧ Recovered context store H scoring d := by
  have hfaith := hlin.faithful hdepth hL
  have hass := hlin.assembled hdepth hL
  have hsubd : (((H.drop j).map Prod.snd).mapM fun commit =>
      store.loadCommittedSubdag commit []) =
      .ok ((H.drop j).map Prod.fst) := by
    rw [mapM_eq_ok, forall₂_map_left_iff, forall₂_map_right_iff]
    refine forall₂_same.2 fun e he => ?_
    have he := mem_of_mem_drop he
    refine loadCommittedSubdag_ok (hass e he) fun b hb => ?_
    obtain ⟨b', hb'⟩ := mem_iff.1 (hstore.committed e he b hb)
    obtain ⟨hU, href⟩ := hstore.blocks _ b' hb'
    have hbU : b ∈ U.blocks := hfaith.blocks_mem (mem_flatMap.2 ⟨e, he, hb⟩)
    rw [hb', U.reference_injOn hU hbU href]
  have hrounds : ((H.drop j).map Prod.snd).foldl
      (fun rounds commit => raiseCommittedRounds rounds commit.blocks) (recoverCommitInfo store).1 =
        H.committedRounds := by
    rw [hstore.info, foldl_map, CommitHistory.committedRounds, CommitHistory.committedRounds,
      ← foldl_append, take_append_drop]
  -- the blocks
  have hready : CacheReady protocol
      (newWithoutBlocks C context store H.committedRounds scoring) := by
    refine ⟨?_, by simp [newWithoutBlocks], ?_⟩
    · rw [← hcont]
      rfl
    · have hempty : { r | r ∈ (newWithoutBlocks C context store H.committedRounds
          scoring).recentBlocks } = (∅ : Set (BlockRef n)) := by
        ext r
        simp [newWithoutBlocks]
      rw [hempty]
      exact ThresholdClock.counts_new 1
  obtain ⟨d₁, hd₁, hready₁⟩ := foldlM_recoverAuthority_ok hstake hready (List.finRange n)
  have hloaded := loaded_new (fun r b hb => (hstore.blocks r b hb).2) hd₁
  have hstore₁ : d₁.store = store := by
    rw [hloaded.frame]
    rfl
  have hlast₁ : d₁.lastCommit = H.lastCommit := by
    rw [hloaded.frame]
    exact hstore.commits.readLastCommit
  have hgc₁ : d₁.gcRound = H.gcRound protocol := by
    rw [gcRound, lastCommitRound, hlast₁, CommitHistory.gcRound, hloaded.frame, ← hcont]
    cases H.lastCommit <;> rfl
  -- the marks
  obtain ⟨d₂, K, hd₂, hmarks⟩ : ∃ d₂ K, d₁.recoverCommitStatuses = .ok d₂ ∧
      Marks d₁ d₁.gcRound K d₂ := by
    rw [recoverCommitStatuses, hlast₁]
    cases hH : H.lastCommit with
    | none => exact ⟨d₁, ∅, rfl, hloaded.marks _⟩
    | some commit =>
      have hindex := hstore.commits.lastCommit_index hH
      have hcomm : StoresCommits d₁.store H := hstore₁ ▸ hstore.commits
      obtain ⟨d₂, hd₂⟩ := recoverStatuses_ok hcomm hfaith.committedOnce
        (hloaded.marks d₁.gcRound) hindex.le (fun e he r hr hround => by
          have he := mem_of_mem_take he
          rw [(hass e he).blocks] at hr
          obtain ⟨b, hb, rfl⟩ := mem_map.1 hr
          exact ⟨(hloaded.phases.mem_iff_stored hround).2 (hstore.committed e he b hb), by simp⟩)
      obtain ⟨K, hmarks, _⟩ := (hloaded.marks d₁.gcRound).of_recoverStatuses hcomm
        (hfaith.leadersOnTop hL) hindex.le hd₂
      exact ⟨d₂, K, hd₂, hmarks⟩
  -- the links
  have hmarked : Phases _ d₁ d₂ d₂ K := ⟨hloaded, hmarks, .refl d₂⟩
  have hanc : AncestorsCached d₂ d₂.gcRound := by
    intro r info hr _ a ha hround
    have hinfo := hmarked.block_eq r
    rw [hr] at hinfo
    split at hinfo
    · refine (hmarked.mem_iff_stored hround).2 (hstore.closed r _ hinfo.symm a ha ?_)
      rwa [← hgc₁, ← hmarked.gcRound_eq]
    · cases hinfo
  have hown : ∀ b ∈ d₂.store.scanBlocksByAuthor context.ownIndex (d₂.gcRound + 1),
      b.reference ∈ d₂.recentBlocks := by
    intro b hb
    obtain ⟨r, hr, _, hround⟩ := Store.mem_scanBlocksByAuthor.1 hb
    rw [show d₂.store = store by rw [hmarks.frame, hstore₁]] at hr
    obtain rfl := (hstore.blocks r b hr).2
    exact (hmarked.mem_iff_stored hround).2 (mem_iff.2 ⟨b, hr⟩)
  obtain ⟨d, hd⟩ := foldlM_link_ok hanc hown
  have hphases : Phases _ d₁ d₂ d K := ⟨hloaded, hmarks, foldlM_link_linkedOnly hd⟩
  have hframe := hphases.frame
  have hround : ∀ a, d.evictedRounds a =
      recoveredRound (newWithoutBlocks C context store H.committedRounds scoring) a := by
    intro a
    rw [hframe]
    exact hloaded.rounds a (mem_finRange a)
  refine ⟨d, ?_, ?_, fun a => ?_, fun r => ?_, fun a r => hphases.refs, ?_⟩
  · rw [DagState.new, unscoredCommits_eq hstore, hsubd, ok_bind, hscor, hrounds]
    simp only [hd₁, ok_bind, hd₂]
    exact hd
  · rw [hframe]
  · rw [hround, hframe]
    rfl
  · rw [hround]
    exact hphases.block_eq r
  · have hset : { r | r ∈ d.recentBlocks } = { r | r ∈ d₁.recentBlocks } := by
      ext r
      exact hphases.mem_iff.trans hloaded.phases.mem_iff.symm
    rw [hset, hframe]
    exact hready₁.clock

end DagState

end OneChain.Consensus
