import OneChain.Consensus.Linearization

/-!
# The linearizer computes the next commit

The traversal in a DAG state is the traversal of the blocks that exist: the state answers for every
block in the leader's history, and its marks are the vertices that the traversal has marked. What
else the state holds makes no difference.

* `DagState.traverse_ok` — the loop of the linearizer follows `Worklist.explore`, with the same
  fuel.
* `DagState.collectSubDagAndCommit_ok` — a leader whose history is in the state gets the commit
  that follows the history, and no assertion fails.
-/

namespace OneChain.Consensus

open Lib List OrdMap VerifiedBlocks CommitHistory

variable {n : ℕ} {C : Committee n} {U : VerifiedBlocks C} {protocol : Protocol n} {b : Block n}

variable {r : BlockRef n}

theorem genesisMap_reference (h : (genesisMap C protocol).get? r = some b) : b.reference = r := by
  refine List.foldlRecOn (genesisBlocks C protocol) (fun m b => OrdMap.insert m b.reference b)
    (motive := fun m => ∀ r b, m.get? r = some b → b.reference = r) ?_ ?_ r b h
  · intro r b hget
    cases hget
  · intro m hm a _
    exact forall_get?_insert rfl hm

/-- The stake of a block's parents, summed over the list of ancestors. -/
theorem Block.WellFormed.parents_stake (h : b.WellFormed C) : C.quorumThreshold ≤
      ((b.ancestors.filter fun r => r.round = b.round - 1).map fun r => C.stake r.author).sum := by
  have hpos := h.round_pos
  have hf : (b.ancestors.filter fun r => r.round = b.round - 1) =
      b.ancestors.filter fun r => r.round + 1 = b.round := by
    refine filter_congr fun r _ => ?_
    rw [decide_eq_decide]
    omega
  have hn : ((b.ancestors.filter fun r => r.round + 1 = b.round).map BlockRef.author).Nodup :=
    h.authors_nodup.sublist (filter_sublist.map _)
  have hsum := h.parents_quorum
  rw [Block.parents, sum_toFinset _ hn, map_map] at hsum
  rwa [hf]

namespace DagState

theorem lastCommitIndex_eq (d : DagState C) :
    d.lastCommitIndex = (d.lastCommit.map fun commit => commit.index).getD 0 := by
  rw [lastCommitIndex]
  cases d.lastCommit <;> rfl

theorem lastCommitDigest_eq (d : DagState C) :
    d.lastCommitDigest = (d.lastCommit.map fun commit => commit.digest).getD 0 := by
  rw [lastCommitDigest]
  cases d.lastCommit <;> rfl

theorem lastCommitTimestampMs_eq (d : DagState C) :
    d.lastCommitTimestampMs = (d.lastCommit.map fun commit => commit.timestampMs).getD 0 := by
  rw [lastCommitTimestampMs]
  cases d.lastCommit <;> rfl

/-- Only marks were changed, and those above the round are the given references. -/
structure Marks (d₀ : DagState C) (g : ℕ) (K : Finset (BlockRef n)) (d : DagState C) : Prop where
  frame : d = { d₀ with recentBlocks := d.recentBlocks }
  blocks : ∀ r, (d.recentBlocks.get? r).map BlockInfo.block =
    (d₀.recentBlocks.get? r).map BlockInfo.block
  flags : ∀ r info, d.recentBlocks.get? r = some info → g < r.round →
    (info.committed = true ↔ r ∈ K)

variable {d₀ d : DagState C} {g : ℕ} {K : Finset (BlockRef n)}

variable {refs : List (BlockRef n)}

theorem Marks.get? (h : Marks d₀ g K d)
    (hr : (d₀.recentBlocks.get? r).map BlockInfo.block = some b) :
    ∃ info, d.recentBlocks.get? r = some info ∧ info.block = b := by
  rw [← h.blocks r, Option.map_eq_some_iff] at hr
  exact hr

theorem getBlock_congr (hgen : d.genesis = d₀.genesis) (hs : d.store = d₀.store)
    (hb : (d.recentBlocks.get? r).map BlockInfo.block =
      (d₀.recentBlocks.get? r).map BlockInfo.block) : d.getBlock r = d₀.getBlock r := by
  rw [getBlock, getBlock]
  cases hd : d.recentBlocks.get? r <;> cases hd₀ : d₀.recentBlocks.get? r <;> simp_all

section

variable (h : Marks d₀ g K d)
include h

theorem Marks.getBlock (r : BlockRef n) : d.getBlock r = d₀.getBlock r :=
  getBlock_congr (by rw [h.frame]) (by rw [h.frame]) (h.blocks r)

theorem Marks.calculateCommitTimestamp (leader : Block n) (t : ℕ) :
    d.calculateCommitTimestamp leader t = d₀.calculateCommitTimestamp leader t := by
  simp only [DagState.calculateCommitTimestamp, h.getBlock]

theorem Marks.isCommitted (hr : r ∈ d₀.recentBlocks) (hro : g < r.round) :
    d.isCommitted r = .ok (decide (r ∈ K)) := by
  obtain ⟨info₀, hi₀⟩ := mem_iff.1 hr
  obtain ⟨info, hi, _⟩ := h.get? (by rw [hi₀, Option.map_some])
  have hf := h.flags r info hi hro
  rw [DagState.isCommitted, hi, require_ok.2 rfl, ok_bind]
  congr
  rw [Bool.eq_iff_iff, hf, decide_eq_true_iff]

theorem Marks.markCommitted (hr : r ∈ d₀.recentBlocks) (hro : g < r.round)
    (hK : r ∉ K) : ∃ d', d.markCommitted r = .ok d' ∧ Marks d₀ g (insert r K) d' := by
  obtain ⟨info₀, hi₀⟩ := mem_iff.1 hr
  obtain ⟨info, hi, hb⟩ := h.get? (by rw [hi₀, Option.map_some])
  have hf : info.committed = false := by
    rw [← Bool.not_eq_true, h.flags _ info hi hro]
    exact hK
  refine ⟨{ d with recentBlocks := d.recentBlocks.insert r { info with committed := true } },
    ?_, ?_, ?_, ?_⟩
  · rw [DagState.markCommitted, setCommitted, hi, require_ok.2 rfl, ok_bind, hf]
    rfl
  · rw [h.frame]
  · intro s
    rw [← h.blocks s, get?_insert]
    by_cases hs : s = r
    · rw [if_pos hs, hs, hi]
      rfl
    · rw [if_neg hs]
  · intro s info' hs hsr
    rcases get?_insert_eq_some.1 hs with ⟨rfl, rfl⟩ | ⟨heq, hs⟩
    · simp
    · rw [h.flags s info' hs hsr, Finset.mem_insert]
      exact ⟨.inr, fun hmem => hmem.resolve_left heq⟩

theorem Marks.markAll
    (hcached : ∀ r ∈ refs, r ∈ d₀.recentBlocks ∧ g < r.round ∧ r ∉ K) (hnodup : refs.Nodup) :
    ∃ d', refs.foldlM DagState.markCommitted d = .ok d' ∧ Marks d₀ g (K ∪ refs.toFinset) d' := by
  induction refs generalizing d K with
  | nil => exact ⟨d, rfl, by simpa using h⟩
  | cons r refs ih =>
    rw [nodup_cons] at hnodup
    obtain ⟨hr, hround, hK⟩ := hcached r mem_cons_self
    obtain ⟨d', hd', hmarks⟩ := h.markCommitted hr hround hK
    have hrest : ∀ s ∈ refs, s ∈ d₀.recentBlocks ∧ g < s.round ∧ s ∉ insert r K := by
      intro s hs
      obtain ⟨hcached', hround', hK'⟩ := hcached s (mem_cons_of_mem _ hs)
      refine ⟨hcached', hround', fun hmem => ?_⟩
      rcases Finset.mem_insert.1 hmem with heq | hmem
      · exact hnodup.1 (heq ▸ hs)
      · exact hK' hmem
    obtain ⟨d'', hd'', hmarks'⟩ := ih hmarks hrest hnodup.2
    refine ⟨d'', ?_, ?_⟩
    · rw [foldlM_cons, hd', ok_bind, hd'']
    · rw [toFinset_cons, Finset.union_insert]
      rwa [Finset.insert_union] at hmarks'

end

/-! ## The traversal -/

/-- The cached blocks are blocks that exist, under their references. -/
def CacheSound (U : VerifiedBlocks C) (d : DagState C) : Prop :=
  ∀ r info, d.recentBlocks.get? r = some info → info.block ∈ U.blocks ∧ info.block.reference = r

theorem CacheSound.exists_block (h : CacheSound U d) (hr : r ∈ d.recentBlocks) :
    ∃ b ∈ U.blocks, b.reference = r ∧ d.getBlock r = some b := by
  obtain ⟨info, hi⟩ := mem_iff.1 hr
  obtain ⟨hU, href⟩ := h _ info hi
  refine ⟨info.block, hU, href, ?_⟩
  have hro : r.round ≠ genesisRound := by
    rw [← href]
    exact (U.wellFormed hU).round_pos.ne'
  rw [getBlock, if_neg hro, hi]

/-- The ancestors that the loop takes are those that the traversal finds unmarked. -/
theorem Marks.uncommittedAncestors (h : Marks d₀ g K d) (hsound : CacheSound U d₀) {x : Block n}
    (hx : x ∈ U.blocks) (hcached : ∀ a ∈ x.ancestors, g < a.round → a ∈ d₀.recentBlocks) :
    ∃ ancestors, d.uncommittedAncestors g x = .ok ancestors ∧ ancestors.map Block.reference =
        (U.ancestorsAbove g x.reference).filter (· ∉ K) ∧
      ∀ b ∈ ancestors, b ∈ U.blocks := by
  have hfilter : filterE (fun anc =>
      if g < anc.round then do
        let committed ← d.isCommitted anc
        pure !committed
      else pure false) x.ancestors = .ok ((U.ancestorsAbove g x.reference).filter (· ∉ K)) := by
    rw [ancestorsAbove_reference hx, filter_filter]
    refine filterE_ok fun a ha => ?_
    by_cases hround : g < a.round
    · rw [h.isCommitted (hcached a ha hround) hround]
      simp [hround]
    · rw [if_neg hround]
      simp [hround]
  have hget : ∀ r ∈ (U.ancestorsAbove g x.reference).filter (· ∉ K),
      ∃ b ∈ U.blocks, b.reference = r ∧ d.getBlock r = some b := by
    intro r hr
    obtain ⟨b, hb, heq, hmem, hround⟩ := mem_ancestorsAbove.1 (mem_filter.1 hr).1
    rw [U.reference_injOn hb hx heq] at hmem
    rw [h.getBlock]
    exact hsound.exists_block (hcached r hmem hround)
  refine ⟨((U.ancestorsAbove g x.reference).filter (· ∉ K)).filterMap d.getBlock, ?_, ?_, ?_⟩
  · rw [DagState.uncommittedAncestors, hfilter]
    refine mapM_require fun r hr => ?_
    obtain ⟨b, _, _, hb⟩ := hget r hr
    rw [hb]
    rfl
  · generalize (U.ancestorsAbove g x.reference).filter (· ∉ K) = refs at hget
    induction refs with
    | nil => rfl
    | cons r refs ih =>
      obtain ⟨b, _, href, hb⟩ := hget r mem_cons_self
      rw [filterMap_cons_some hb, map_cons, href, ih fun s hs => hget s (mem_cons_of_mem _ hs)]
  · intro b hb
    obtain ⟨r, hr, hbr⟩ := mem_filterMap.1 hb
    obtain ⟨b', hb', _, hbr'⟩ := hget r hr
    cases hbr.symm.trans hbr'
    exact hb'

variable (U d g) in
/-- A set of cached references that no link above the round leaves. -/
structure ClosedCache (S : Set (BlockRef n)) :
    Prop where
  cached : ∀ r ∈ S, r ∈ d.recentBlocks ∧ g < r.round
  closed : ∀ b ∈ U.blocks, b.reference ∈ S → ∀ a ∈ b.ancestors, g < a.round → a ∈ S

/-- **The loop follows the traversal.** -/
theorem traverse_ok {S : Set (BlockRef n)} (hsound : CacheSound U d₀) (hS : ClosedCache U d₀ g S)
    {fuel : ℕ} {buffer tc : List (Block n)} {K' : Finset (BlockRef n)} (h : Marks d₀ g K d)
    (hbuffer : ∀ b ∈ buffer, b ∈ U.blocks ∧ b.reference ∈ S)
    (htoCommit : ∀ b ∈ tc, b ∈ U.blocks ∧ b.reference ∈ S)
    (hrun : Worklist.explore (U.ancestorsAbove g) fuel K (buffer.map Block.reference)
      (tc.map Block.reference) = some (K', refs)) :
    ∃ d' out, traverse g fuel d buffer tc = .ok (d', out) ∧ out.map Block.reference = refs ∧
      (∀ b ∈ out, b ∈ U.blocks ∧ b.reference ∈ S) ∧ Marks d₀ g K' d' := by
  induction fuel generalizing d K buffer tc with
  | zero => cases hrun
  | succ fuel ih =>
    cases buffer with
    | nil =>
      obtain ⟨rfl, rfl⟩ := hrun
      exact ⟨d, tc, rfl, rfl, htoCommit, h⟩
    | cons x buffer =>
      obtain ⟨hx, hxS⟩ := hbuffer x mem_cons_self
      obtain ⟨ancestors, hanc, hrefs, hU⟩ := h.uncommittedAncestors hsound hx fun a ha hround =>
        (hS.cached a (hS.closed x hx hxS a ha hround)).1
      have hmem : ∀ b ∈ ancestors, b.reference ∈ S ∧ b.reference ∉ K := by
        intro b hb
        have hbr : b.reference ∈ (U.ancestorsAbove g x.reference).filter (· ∉ K) :=
          hrefs ▸ mem_map_of_mem hb
        rw [mem_filter, decide_eq_true_iff] at hbr
        obtain ⟨y, hy, heq, hya, hround⟩ := mem_ancestorsAbove.1 hbr.1
        rw [U.reference_injOn hy hx heq] at hya
        exact ⟨hS.closed x hx hxS _ hya hround, hbr.2⟩
      have hready : ∀ r ∈ ancestors.map Block.reference,
          r ∈ d₀.recentBlocks ∧ g < r.round ∧ r ∉ K := by
        intro r hr
        obtain ⟨b, hb, rfl⟩ := mem_map.1 hr
        obtain ⟨hcached, hround⟩ := hS.cached _ (hmem b hb).1
        exact ⟨hcached, hround, (hmem b hb).2⟩
      obtain ⟨d', hd', hmarks⟩ := h.markAll hready
        (hrefs ▸ (U.nodup_ancestorsAbove g x.reference).filter _)
      rw [foldlM_map] at hd'
      rw [traverse, hanc, ok_bind, hd']
      refine ih hmarks ?_ ?_ ?_
      · intro b hb
        rcases mem_append.1 hb with hb | hb
        · have hb := mem_reverse.1 hb
          exact ⟨hU b hb, (hmem b hb).1⟩
        · exact hbuffer b (mem_cons_of_mem _ hb)
      · intro b hb
        rcases mem_append.1 hb with hb | hb
        · exact htoCommit b hb
        · obtain rfl := mem_singleton.1 hb
          exact ⟨hx, hxS⟩
      · rw [map_cons] at hrun
        rw [map_append, map_reverse, hrefs, map_append]
        exact hrun

/-! ## One leader -/

variable (U d g) in
/-- The state has the leader's history above the round, and the leader's parents. -/
structure HasHistory (leader : Block n) : Prop where
  own : (d.getBlock leader.reference).isSome
  history : ∀ r, Linked U.blocks leader r → g < r.round → (d.getBlock r).isSome
  parents : ∀ r ∈ leader.ancestors, r.round + 1 = leader.round → (d.getBlock r).isSome

/-- The references of a leader's history above the round. -/
def historyAbove (U : VerifiedBlocks C) (g : ℕ) (leader : Block n) : Set (BlockRef n) :=
  { r | g < r.round ∧ (r = leader.reference ∨ Linked U.blocks leader r) }

theorem HasHistory.closedCache {leader : Block n} (h : HasHistory U d g leader)
    (hle : leader ∈ U.blocks) (hk : ∀ r, (d.getBlock r).isSome → g < r.round → r ∈ d.recentBlocks) :
    ClosedCache U d g (historyAbove U g leader) := by
  constructor
  · rintro r ⟨hr, rfl | hl⟩
    · exact ⟨hk _ h.own hr, hr⟩
    · exact ⟨hk r (h.history r hl hr) hr, hr⟩
  · rintro b hb ⟨_, heq | hl⟩ a ha hr
    · rw [U.reference_injOn hb hle heq] at ha
      exact ⟨hr, .inr (.direct ha)⟩
    · exact ⟨hr, .inr (hl.tail hb ha)⟩

/-- The state of a validator that has committed the history. -/
structure Synced (U : VerifiedBlocks C) (protocol : Protocol n) (H : CommitHistory n)
    (d : DagState C) : Prop where
  protocol_eq : d.context.protocol = protocol
  genesis_eq : d.genesis = genesisMap C protocol
  lastCommit_eq : d.lastCommit = H.lastCommit
  cached : CacheSound U d
  stored : ∀ r b, d.store.blocks.get? r = some b → b ∈ U.blocks ∧ b.reference = r
  kept : ∀ r, (d.getBlock r).isSome → d.gcRound < r.round → r ∈ d.recentBlocks
  flags : ∀ r info, d.recentBlocks.get? r = some info → d.gcRound < r.round →
    (info.committed = true ↔ r ∈ H.committed)
  committed_cached : ∀ r ∈ H.committed, d.gcRound < r.round → r ∈ d.recentBlocks

namespace Synced

variable {H : CommitHistory n} {leaders : List (Block n)} {leader : Block n}

section Leader

variable (h : Synced U protocol H d)

include h

theorem gcRound_eq : d.gcRound = H.gcRound protocol := by
  rw [gcRound, calculateGcRound, lastCommitRound, h.lastCommit_eq, h.protocol_eq,
    CommitHistory.gcRound]
  cases H.lastCommit <;> rfl

theorem getBlock_eq (hr : (d.getBlock r).isSome) : d.getBlock r = U.lookup protocol r := by
  rw [getBlock] at hr ⊢
  rw [VerifiedBlocks.lookup]
  by_cases hro : r.round = genesisRound
  · rw [if_pos hro, if_pos hro, h.genesis_eq]
  · rw [if_neg hro] at hr ⊢
    rw [if_neg hro]
    cases hc : d.recentBlocks.get? r with
    | some info => exact (find_eq_some.2 (h.cached r info hc)).symm
    | none =>
      rw [hc] at hr
      obtain ⟨b, hb⟩ := Option.isSome_iff_exists.1 hr
      exact hb.trans (find_eq_some.2 (h.stored r b hb)).symm

theorem getBlock_reference (hr : d.getBlock r = some b) : b.reference = r := by
  have heq := h.getBlock_eq (by rw [hr]; rfl)
  rw [hr, VerifiedBlocks.lookup] at heq
  by_cases hro : r.round = genesisRound
  · rw [if_pos hro] at heq
    exact genesisMap_reference heq.symm
  · rw [if_neg hro] at heq
    exact (find_eq_some.1 heq.symm).2

theorem filterMap_getBlock (hget : ∀ r ∈ refs, (d.getBlock r).isSome) :
    refs.map (U.lookup protocol) = (refs.filterMap d.getBlock).map some ∧
      refs = (refs.filterMap d.getBlock).map Block.reference := by
  induction refs with
  | nil => exact ⟨rfl, rfl⟩
  | cons r refs ih =>
    obtain ⟨b, hb⟩ := Option.isSome_iff_exists.1 (hget r mem_cons_self)
    obtain ⟨hl, hr⟩ := ih fun s hs => hget s (mem_cons_of_mem _ hs)
    rw [filterMap_cons_some hb, map_cons, map_cons, map_cons, ← hl,
      ← hr, ← h.getBlock_eq (hget r mem_cons_self), h.getBlock_reference hb, hb]
    exact ⟨rfl, rfl⟩

/-- The parents of a leader have a median timestamp. -/
theorem exists_median (hl : leader ∈ U.blocks)
    (hpar : ∀ r ∈ leader.ancestors, r.round + 1 = leader.round → (d.getBlock r).isSome) :
    ∃ parents median,
      (leader.ancestors.filter fun r => r.round = leader.round - 1).map (U.lookup protocol) =
        parents.map some ∧
      medianTimestampByStake C parents = .ok median ∧
      ∀ t, d.calculateCommitTimestamp leader t = .ok (max median t) := by
  have hwf := U.wellFormed hl
  have hpos := hwf.round_pos
  have hget : ∀ r ∈ leader.ancestors.filter fun r => r.round = leader.round - 1,
      (d.getBlock r).isSome := by
    intro r hr
    rw [mem_filter, decide_eq_true_iff] at hr
    exact hpar r hr.1 (by omega)
  obtain ⟨hb, hre⟩ := h.filterMap_getBlock hget
  have hs := hwf.parents_stake
  generalize hpar' : (leader.ancestors.filter fun r => r.round = leader.round - 1).filterMap
    d.getBlock = parents at hb hre
  rw [hre] at hs
  have hmed : medianTimestampByStake C parents = .ok (medianTimestampsByStakeInner
      (parents.map fun b => (b.timestampMs, C.stake b.author))
      ((parents.map fun b => (b.timestampMs, C.stake b.author)).map Prod.snd).sum) := by
    rw [medianTimestampByStake, check_of, ok_bind, check_of, ok_bind, pure_ok]
    · simpa [Function.comp_def] using hs
    · intro he
      have hnil : parents = [] := by simpa using he
      rw [hnil] at hs
      exact absurd hs (Nat.not_succ_le_zero _)
  refine ⟨parents, _, hb, hmed, fun t => ?_⟩
  rw [calculateCommitTimestamp, mapM_require hget, hpar', ok_bind, hmed]
  rfl

theorem marks : Marks d d.gcRound H.committed d := ⟨rfl, fun _ => rfl, h.flags⟩

variable (hleader : leader ∈ U.blocks) (hhist : HasHistory U d d.gcRound leader)
  (hround : d.gcRound < leader.round)

include hleader hhist hround

open Classical in
/-- The traversal of the leader's history ends within the fuel of the state. -/
theorem explore_isSome {d₁ : DagState C}
    (hmarks : Marks d d.gcRound (insert leader.reference H.committed) d₁) :
    (Worklist.explore (U.ancestorsAbove d.gcRound) d₁.fuel
      (insert leader.reference H.committed) [leader.reference] []).isSome := by
  have hclosed := hhist.closedCache hleader h.kept
  have hkeys : ∀ r ∈ d.recentBlocks, r ∈ d₁.recentBlocks.keys := by
    intro r hr
    obtain ⟨info, hinfo⟩ := mem_iff.1 hr
    obtain ⟨info', hinfo', _⟩ := hmarks.get? (by rw [hinfo, Option.map_some])
    exact OrdMap.mem_keys.2 (mem_iff.2 ⟨info', hinfo'⟩)
  have hmem : ∀ r, r ∈ d₁.recentBlocks.keys.toFinset.filter
      (fun r => r ∈ historyAbove U d.gcRound leader) ↔ r ∈ historyAbove U d.gcRound leader := by
    intro r
    rw [Finset.mem_filter, mem_toFinset]
    exact ⟨And.right, fun hr => ⟨hkeys r (hclosed.cached r hr).1, hr⟩⟩
  have hroot : leader.reference ∈ historyAbove U d.gcRound leader := ⟨hround, .inl rfl⟩
  refine Worklist.explore_isSome (F := d₁.recentBlocks.keys.toFinset.filter
    (fun r => r ∈ historyAbove U d.gcRound leader)) ?_ (U.nodup_ancestorsAbove _) ?_ ?_
  · intro x hx y hy
    obtain ⟨b, hb, rfl, hya, hyround⟩ := mem_ancestorsAbove.1 hy
    exact (hmem y).2 (hclosed.closed b hb ((hmem _).1 hx) y hya hyround)
  · intro x hx
    obtain rfl := mem_singleton.1 hx
    exact (hmem _).2 hroot
  · -- the leader is in the set and marked, so one vertex less is unmarked
    have hlt : ((d₁.recentBlocks.keys.toFinset.filter
        fun r => r ∈ historyAbove U d.gcRound leader) \ insert leader.reference H.committed).card <
        d₁.recentBlocks.keys.toFinset.card := by
      refine Finset.card_lt_card (Finset.ssubset_iff_of_subset ?_ |>.2 ⟨leader.reference, ?_, ?_⟩)
      · exact Finset.sdiff_subset.trans (Finset.filter_subset _ _)
      · exact (Finset.mem_filter.1 ((hmem _).2 hroot)).1
      · simp
    have hle : d₁.recentBlocks.keys.toFinset.card ≤ d₁.recentBlocks.entries.length := by
      refine (toFinset_card_le _).trans (le_of_eq ?_)
      rw [OrdMap.keys, length_map]
    rw [length_singleton, fuel]
    omega

/-- **The sub-dag of a leader.** -/
theorem linearizeSubDag_ok (hnew : leader.reference ∉ H.committed) :
    ∃ d' fuel marked tc, d.linearizeSubDag leader = .ok (d', sortSubDagBlocks tc) ∧
      Worklist.explore (U.ancestorsAbove d.gcRound) fuel (insert leader.reference H.committed)
        [leader.reference] [] = some (marked, tc.map Block.reference) ∧
      (∀ b ∈ tc, b ∈ U.blocks ∧ b.reference ∈ historyAbove U d.gcRound leader) ∧
      Marks d d.gcRound marked d' := by
  have hclosed := hhist.closedCache hleader h.kept
  have hroot : leader.reference ∈ historyAbove U d.gcRound leader := ⟨hround, .inl rfl⟩
  obtain ⟨d₁, hd₁, hmarks⟩ := h.marks.markCommitted (hclosed.cached _ hroot).1 hround hnew
  obtain ⟨⟨marked, refs⟩, hrun⟩ :=
    Option.isSome_iff_exists.1 (h.explore_isSome hleader hhist hround hmarks)
  have hbuffer : ∀ b ∈ [leader], b ∈ U.blocks ∧ b.reference ∈ historyAbove U d.gcRound leader := by
    intro b hb
    obtain rfl := mem_singleton.1 hb
    exact ⟨hleader, hroot⟩
  have hempty : ∀ b ∈ ([] : List (Block n)), b ∈ U.blocks ∧
      b.reference ∈ historyAbove U d.gcRound leader := by simp
  obtain ⟨d', tc, hd', rfl, hmem, hmarks'⟩ :=
    traverse_ok h.cached hclosed hmarks hbuffer hempty hrun
  refine ⟨d', d₁.fuel, marked, tc, ?_, hrun, hmem, hmarks'⟩
  rw [linearizeSubDag, hd₁, ok_bind, hd', ok_bind, check_of, ok_bind, pure_ok]
  exact fun b hb => (hmem b hb).2.1

end Leader

/-- What a commit changes besides the marks. -/
structure Appends (d : DagState C) (commit : TrustedCommit n) (d' : DagState C) : Prop where
  frame : d' = { d.withCommit commit with recentBlocks := d'.recentBlocks }
  blocks : ∀ r, (d'.recentBlocks.get? r).map BlockInfo.block =
    (d.recentBlocks.get? r).map BlockInfo.block

theorem addCommit_ok {commit : TrustedCommit n}
    (hi : commit.index = (d.lastCommit.map fun commit => commit.index).getD 0 + 1)
    (ht : (d.lastCommit.map fun commit => commit.timestampMs).getD 0 ≤ commit.timestampMs) :
    d.addCommit commit = .ok (d.withCommit commit) := by
  rw [addCommit, if_neg, checkNextCommit]
  · cases hl : d.lastCommit with
    | none =>
      rw [hl] at hi
      exact congrArg (· >>= _) (check_of hi)
    | some lastCommit =>
      rw [hl] at hi ht
      simp only [Option.map_some, Option.getD_some] at hi ht
      simp only [check_of hi, check_of ht, ok_bind, pure_ok, withCommit]
  · cases hl : d.lastCommit with
    | none => simp
    | some lastCommit =>
      rw [hl] at hi
      simp only [Option.map_some, Option.getD_some] at hi
      simp only [Option.any_some, decide_eq_true_eq]
      omega

/-- The state after a commit: the GC round has gone up, and the marks are those of the history with
the new sub-dag. -/
theorem snoc (h : Synced U protocol H d) (hfaith : Faithful U protocol leaders H)
    (hleaders : LeaderSequence U (leaders ++ [leader])) {d' : DagState C}
    {e : CommittedSubDag n × TrustedCommit n} {fuel : ℕ} {marked : Finset (BlockRef n)}
    {tc parents : List (Block n)} {median : ℕ}
    (hnext : IsNext U protocol H leader e fuel marked tc parents median)
    (hmarks : Marks d d.gcRound marked d') (htoCommit : ∀ b ∈ tc, b.reference ∈ d.recentBlocks) :
    Synced U protocol (H ++ [e]) (d'.withCommit e.2) := by
  have hgc : d.gcRound ≤ (d'.withCommit e.2).gcRound := by
    have hle := hfaith.gcRound_le hleaders
    rw [h.gcRound_eq]
    rw [hmarks.frame, hnext.next_eq]
    change _ ≤ leader.round - d.context.protocol.gcDepth
    rwa [h.protocol_eq]
  have hcomm : ∀ r, r ∈ marked ↔ r ∈ committed (H ++ [e]) := by
    intro r
    rw [Worklist.mem_marked_of_explore (U.nodup_ancestorsAbove _)
      (hfaith.notMem_committed hleaders) hnext.explored, committed,
      committed, blocks_snoc, map_append, toFinset_append,
      Finset.mem_union, hnext.next_eq]
    refine or_congr_right ?_
    rw [mem_toFinset]
    exact ((perm_insertionSort _ tc).map Block.reference).mem_iff.symm
  have hcached : ∀ r, r ∈ d'.recentBlocks ↔ r ∈ d.recentBlocks :=
    fun r => mem_congr (hmarks.blocks r)
  refine ⟨?_, ?_, (lastCommit_snoc H e).symm, fun r info hr => ?_, ?_,
    fun r hr hround => ?_, fun r info hr hround => ?_, fun r hr hround => ?_⟩
  · rw [hmarks.frame]
    exact h.protocol_eq
  · rw [hmarks.frame]
    exact h.genesis_eq
  · have hblock := hmarks.blocks r
    rw [show d'.recentBlocks.get? r = some info from hr] at hblock
    obtain ⟨info', hinfo', heq⟩ := Option.map_eq_some_iff.1 hblock.symm
    rw [← heq]
    exact h.cached r info' hinfo'
  · rw [hmarks.frame]
    exact h.stored
  · refine (hcached r).2 (h.kept r ?_ (lt_of_le_of_lt hgc hround))
    rw [← hmarks.getBlock]
    exact hr
  · rw [← hcomm]
    exact hmarks.flags r info hr (lt_of_le_of_lt hgc hround)
  · refine (hcached r).2 ?_
    rw [← hcomm, Worklist.mem_marked_of_explore (U.nodup_ancestorsAbove _)
      (hfaith.notMem_committed hleaders) hnext.explored] at hr
    rcases hr with hr | hr
    · exact h.committed_cached r hr (lt_of_le_of_lt hgc hround)
    · obtain ⟨b, hb, rfl⟩ := mem_map.1 hr
      exact htoCommit b hb

/-- **The commit of a leader.** It is the one that follows the history, and the validator is then
in the state after it. -/
theorem commitLeader_ok (hdepth : 0 < protocol.gcDepth) (h : Synced U protocol H d)
    (hfaith : Faithful U protocol leaders H) (hleaders : LeaderSequence U (leaders ++ [leader]))
    (hhist : HasHistory U d d.gcRound leader) (out : List (CommittedSubDag n)) :
    ∃ d' e fuel marked tc parents median,
      IsNext U protocol H leader e fuel marked tc parents median ∧
      commitLeader (d, out) leader = .ok (d', out ++ [e.1]) ∧
      Synced U protocol (H ++ [e]) d' ∧ Appends d e.2 d' := by
  have hleader := hleaders.last.1
  have hgc := h.gcRound_eq
  have hround : d.gcRound < leader.round := hgc ▸ hfaith.gcRound_lt hdepth hleaders
  obtain ⟨d', fuel, marked, tc, hd', hexpl, hmem, hmarks⟩ :=
    h.linearizeSubDag_ok hleader hhist hround (hfaith.notMem_committed hleaders)
  obtain ⟨parents, median, hpar, hmed, htim⟩ := h.exists_median hleader hhist.parents
  let e := nextCommit protocol H.lastCommit leader (sortSubDagBlocks tc)
    (max median ((H.lastCommit.map fun commit => commit.timestampMs).getD 0))
  have hnext : IsNext U protocol H leader e fuel marked tc parents median :=
    ⟨hgc ▸ hexpl, fun b hb => (hmem b hb).1, hpar, hmed, rfl⟩
  have hcoll : d.collectSubDagAndCommit leader = .ok (d', e.1, e.2) := by
    rw [collectSubDagAndCommit, hd', ok_bind, hmarks.calculateCommitTimestamp, htim,
      lastCommitIndex_eq, lastCommitDigest_eq, lastCommitTimestampMs_eq, h.lastCommit_eq,
      h.protocol_eq]
    rfl
  have hlast : d'.lastCommit = H.lastCommit := by rw [hmarks.frame, ← h.lastCommit_eq]
  have hadd : d'.addCommit e.2 = .ok (d'.withCommit e.2) := by
    refine addCommit_ok ?_ ?_
    · rw [hlast]
      rfl
    · rw [hlast]
      exact le_max_right _ _
  have hclosed := hhist.closedCache hleader h.kept
  refine ⟨d'.withCommit e.2, e, fuel, marked, tc, parents, median, hnext, ?_, ?_, ?_, hmarks.blocks⟩
  · rw [commitLeader, hcoll, ok_bind, hadd, ok_bind, pure_ok]
  · exact h.snoc hfaith hleaders hnext hmarks fun b hb =>
      (hclosed.cached _ (hmem b hb).2).1
  · have hframe := hmarks.frame
    simp only [withCommit]
    rw [hframe]

end Synced

end DagState

end OneChain.Consensus
