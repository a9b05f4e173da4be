import OneChain.Consensus.StoreRecovery

/-!
# What a flush makes durable

The invariant of a running validator (`Durable`): what the next flush would write is consistent with
the committed history, the cache has all blocks above the evicted rounds and at least the last one
of each authority, and the threshold clock has counted every block. Each operation keeps it, and so
does a restart.
-/

namespace OneChain.Consensus

open Lib List OrdMap

variable {n : ℕ} {C : Committee n} {U : VerifiedBlocks C} {protocol : Protocol n}

namespace DagState

variable {L : List (Block n)} {H : CommitHistory n} {d d' : DagState C}

/-! ## The invariant -/

/-- The store as the next flush would leave it. -/
def written (d : DagState C) : Store n := d.withWritten.store

/-- The cache has the last block of every authority among the blocks `S`, and all those above the
evicted rounds. -/
structure Cached (S : OrdMap (BlockRef n) (Block n)) (d : DagState C) : Prop where
  refs : d.RefsCached
  cached : ∀ r ∈ d.recentBlocks, r ∈ S
  kept : ∀ r ∈ S, d.evictedRounds r.author < r.round → r ∈ d.recentBlocks
  top : ∀ r ∈ S, ∃ s ∈ d.recentBlocks, s.author = r.author ∧ r.round ≤ s.round
  evicted_le : ∀ a, d.evictedRounds a ≤ d.gcRound ∧ (d.evictedRounds a = 0 ∨
    ∃ r ∈ d.recentBlocks, r.author = a ∧ d.evictedRounds a + d.cachedRounds ≤ r.round)

variable (U protocol L H) in
/-- The state of a validator that has committed the history of the leaders `L`: the first `m`
commits are in the store, and the last commit info is for commit `j`. -/
structure Durable (m j : ℕ) (unscored : List (CommittedSubDag n)) (d : DagState C) : Prop
    extends Cached d.written.blocks d where
  leaders : LeaderSequence U L
  length_eq : L.length = H.length
  persisted : Persisted U protocol L H m d
  stored : ∃ j' scoring, Consistent U protocol d.store (H.take m) j' ∧
    (ScoringSubdag.new : ScoringSubdag C).addSubdags (((H.take m).drop j').map Prod.fst) =
      .ok scoring
  pending : Consistent U protocol d.written H j
  scored : ∃ scored, (H.drop j).map Prod.fst = scored ++ unscored ∧
    ScoringSubdag.new.addSubdags scored = .ok d.scoringSubdag
  rounds : d.lastCommittedRounds = H.committedRounds
  cachedRounds_eq : d.cachedRounds = d.context.dagStateCachedRounds
  clock : ThresholdClock.Counts 1 { r | r ∈ d.written.blocks } d.thresholdClock
  settled : d.blocksToWrite = [] → d.commitsToWrite = [] →
    (∀ a, d.evictedRounds a = d.calculateAuthorityEvictionRound a) ∧
    ∀ r ∈ d.recentBlocks, d.evictedRounds r.author < r.round

variable {m j : ℕ} {unscored : List (CommittedSubDag n)}

theorem Durable.isLastRound (h : Durable U protocol L H m j unscored d) (a : Fin n) :
    IsLastRound { r | r ∈ d.written.blocks ∧ r.author = a } (d.lastRefRound a) :=
  isLastRound_lastRefRound h.refs h.cached h.top a

theorem Consistent.positive {store : Store n} (h : Consistent U protocol store H j) :
    ∀ r ∈ store.blocks, 0 < r.round := by
  intro r hr
  obtain ⟨b, hb⟩ := mem_iff.1 hr
  obtain ⟨hU, rfl⟩ := h.blocks r b hb
  exact (U.wellFormed hU).round_pos

/-! ## The cache after an eviction -/

theorem cached_of_evicted {S : OrdMap (BlockRef n) (Block n)} {last : Fin n → ℕ}
    (hpos : ∀ r ∈ S, 0 < r.round) (hlast : ∀ a, IsLastRound { r | r ∈ S ∧ r.author = a } (last a))
    (hcachedRounds : 0 < d.cachedRounds ∨ ∀ r, r ∉ S)
    (hround : ∀ a, d.evictedRounds a = evictionRound (last a) d.gcRound d.cachedRounds)
    (hrefs : d.RefsCached)
    (hmem : ∀ r, r ∈ d.recentBlocks ↔ d.evictedRounds r.author < r.round ∧ r ∈ S) :
    Cached S d ∧ ∀ a, d.evictedRounds a = d.calculateAuthorityEvictionRound a := by
  have hkept : ∀ r ∈ S, ∃ s ∈ d.recentBlocks, s.author = r.author ∧ s.round = last r.author := by
    intro r hr
    obtain ⟨s, ⟨hs, hauthor⟩, hsround, hlt⟩ := (hlast r.author).exists_kept ⟨hr, rfl⟩ (hpos r hr)
      (hcachedRounds.resolve_right fun hnone => hnone r hr) d.gcRound
    refine ⟨s, (hmem s).2 ⟨?_, hs⟩, hauthor, hsround⟩
    rw [hround, hauthor]
    exact hlt
  have htop : ∀ r ∈ S, ∃ s ∈ d.recentBlocks, s.author = r.author ∧ r.round ≤ s.round := by
    intro r hr
    obtain ⟨s, hs, hauthor, hsround⟩ := hkept r hr
    exact ⟨s, hs, hauthor, hsround ▸ (hlast r.author).le r ⟨hr, rfl⟩⟩
  have hstored : ∀ r ∈ d.recentBlocks, r ∈ S := fun r hr => ((hmem r).1 hr).2
  refine ⟨⟨hrefs, hstored, fun r hr hlt => (hmem r).2 ⟨hlt, hr⟩, htop, fun a => ⟨?_, ?_⟩⟩,
    fun a => ?_⟩
  · rw [hround]
    exact min_le_left _ _
  · by_cases hzero : d.evictedRounds a = 0
    · exact .inl hzero
    · have hle : d.evictedRounds a ≤ last a - d.cachedRounds := by
        rw [hround]
        exact min_le_right _ _
      rcases (hlast a).attained with hnone | ⟨r, ⟨hr, rfl⟩, _⟩
      · omega
      · obtain ⟨s, hs, hauthor, hsround⟩ := hkept r hr
        exact .inr ⟨s, hs, hauthor, by omega⟩
  · rw [hround, calculateAuthorityEvictionRound_eq]
    congr 1
    exact (hlast a).unique (isLastRound_lastRefRound hrefs hstored htop a)

/-! ## Restarting -/

theorem durable_of_new (hdepth : 0 < protocol.gcDepth) (hL : LeaderSequence U L)
    (hlin : Linearizes U protocol L H) {store : Store n}
    (hstore : Consistent U protocol store H j) {scoring : ScoringSubdag C}
    (hscor : ScoringSubdag.new.addSubdags ((H.drop j).map Prod.fst) = .ok scoring)
    {context : Context n} (hcont : context.protocol = protocol)
    (hcachedRounds : 0 < context.dagStateCachedRounds ∨ ∀ r, r ∉ store.blocks)
    (hnew : DagState.new C context store = .ok d) (h : Recovered context store H scoring d) :
    Durable U protocol L H H.length j [] d := by
  have hwritten : d.written = store := by
    rw [h.frame]
    rfl
  have hlength := hlin.length_eq
  have hpers : Persisted U protocol L H H.length d := by
    refine persisted_of_new hdepth hL ?_ hlength.le hcont hstore.blocks hstore.commits hnew
    rwa [hlength, take_length]
  have hcachedRounds_eq : d.cachedRounds = context.dagStateCachedRounds := by
    rw [h.frame]
    rfl
  have hmem : ∀ r, r ∈ d.recentBlocks ↔ d.evictedRounds r.author < r.round ∧ r ∈ store.blocks := by
    intro r
    have hsome := congrArg Option.isSome (h.cached r)
    rw [Option.isSome_map] at hsome
    rw [mem_def, hsome]
    by_cases hlt : d.evictedRounds r.author < r.round
    · rw [if_pos hlt]
      exact (and_iff_right hlt).symm
    · simp [hlt]
  obtain ⟨hcache, hrounds⟩ := cached_of_evicted hstore.positive
    (isLastRound_lastStoredRound fun r b hb => (hstore.blocks r b hb).2)
    (hcachedRounds_eq ▸ hcachedRounds) h.rounds h.refs hmem
  refine ⟨hwritten ▸ hcache, hL, hlength.symm, hpers, ⟨j, scoring, ?_, ?_⟩, hwritten ▸ hstore,
    ⟨_, (append_nil _).symm, ?_⟩, ?_, ?_, ?_,
    fun _ _ => ⟨hrounds, fun r hr => ((hmem r).1 hr).1⟩⟩
  · rw [take_length, h.frame]
    exact hstore
  · rw [take_length]
    exact hscor
  · rw [h.frame]
    exact hscor
  · rw [h.frame]
    rfl
  · rw [h.frame]
    rfl
  · rw [hwritten]
    exact h.clock.of_subset hcache.cached hcache.top

/-! ## Accepting -/

theorem Persisted.consistent (hdepth : 0 < protocol.gcDepth) (hL : LeaderSequence U L)
    (h : Persisted U protocol L H m d)
    (hcl : ∀ r b, d.written.blocks.get? r = some b → ∀ a ∈ b.ancestors,
      d.gcRound < a.round → a ∈ d.written.blocks)
    (hco : ∀ e ∈ H, ∀ b ∈ e.1.blocks, b.reference ∈ d.written.blocks)
    (hi : ∀ r ∈ d.written.commitInfo, ∃ e ∈ H, e.2.reference = r)
    (hin : recoverCommitInfo d.written = (CommitHistory.committedRounds (H.take j), j + 1))
    (hinfo_le : j ≤ H.length) : Consistent U protocol d.written H j := by
  have hw := h.written hdepth hL
  refine ⟨hw.synced.stored, ?_, ?_, hco, hi, hin, hinfo_le⟩
  · rw [← h.synced.gcRound_eq]
    exact hcl
  · have hc := hw.storedCommits
    rwa [take_length] at hc

/-- What the state has above the GC round is in the cache. -/
theorem Durable.mem_recentBlocks (h : Durable U protocol L H m j unscored d) {r : BlockRef n}
    (hr : (d.getBlock r).isSome) (hro : d.gcRound < r.round) : r ∈ d.recentBlocks :=
  h.persisted.synced.kept r hr hro

theorem Durable.acceptBlock (hdepth : 0 < protocol.gcDepth) (hstake : ThresholdClock.NoLoneQuorum C)
    (h : Durable U protocol L H m j unscored d) {b : Block n} (hb : b ∈ U.blocks)
    (hanc : ∀ r ∈ b.ancestors, d.gcRound < r.round → (d.getBlock r).isSome)
    (hstep : d.acceptBlock b = .ok d') : Durable U protocol L H m j unscored d' := by
  have hpers := h.persisted.acceptBlock hb hstep
  obtain ⟨_, ⟨_, rfl⟩ | ⟨_, rfl⟩⟩ := acceptBlock_ok hstep
  · exact h
  have hwritten : written { d.withBlock b with blocksToWrite := d.blocksToWrite ++ [b] } =
      { d.written with blocks := d.written.blocks.insert b.reference b } := by
    simp only [written, withWritten, Store.write, withBlock, foldl_append, foldl_cons, foldl_nil]
  have hcached := mem_withBlock d b
  have hcons : Consistent U protocol
      (written { d.withBlock b with blocksToWrite := d.blocksToWrite ++ [b] }) H j := by
    refine hpers.consistent hdepth h.leaders ?_ ?_ h.pending.infos h.pending.info h.pending.info_le
    · intro r c hr a ha hround
      rw [hwritten] at hr ⊢
      refine mem_insert.2 (.inr ?_)
      rcases get?_insert_eq_some.1 hr with ⟨_, rfl⟩ | ⟨_, hr⟩
      · exact h.cached a (h.mem_recentBlocks (hanc a ha hround) hround)
      · exact h.pending.closed r c hr a ha (h.persisted.synced.gcRound_eq ▸ hround)
    · intro e he c hc
      rw [hwritten]
      exact mem_insert.2 (.inr (h.pending.committed e he c hc))
  refine ⟨⟨RefsCached.withBlock h.refs b, ?_, ?_, ?_, fun a => ?_⟩, h.leaders, h.length_eq, hpers,
    h.stored, hcons, h.scored, h.rounds, h.cachedRounds_eq, ?_, by simp⟩
  · intro r hr
    rw [hwritten]
    exact mem_insert.2 (((hcached r).1 hr).imp_right (h.cached r))
  · intro r hr hround
    rw [hwritten] at hr
    exact (hcached r).2 ((mem_insert.1 hr).imp_right fun hr => h.kept r hr hround)
  · intro r hr
    rw [hwritten] at hr
    rcases mem_insert.1 hr with rfl | hr
    · exact ⟨b.reference, (hcached _).2 (.inl rfl), rfl, le_rfl⟩
    · obtain ⟨s, hs, hrest⟩ := h.top r hr
      exact ⟨s, (hcached s).2 (.inr hs), hrest⟩
  · obtain ⟨hle, hlast⟩ := h.evicted_le a
    refine ⟨hle, hlast.imp_right ?_⟩
    rintro ⟨r, hr, hrest⟩
    exact ⟨r, (hcached r).2 (.inr hr), hrest⟩
  · have hset : { r | r ∈ (written { d.withBlock b with
        blocksToWrite := d.blocksToWrite ++ [b] }).blocks } =
          insert b.reference { r | r ∈ d.written.blocks } := by
      ext r
      rw [hwritten]
      exact mem_insert
    rw [hset]
    exact h.clock.addBlock hstake b.reference

/-! ## Committing -/

/-- The next leaders: they come after the last one, none is committed, and the state has them and
their parents. -/
@[mk_iff]
structure CanCommit (U : VerifiedBlocks C) (d : DagState C) (leaders : List (Block n)) : Prop where
  mem : ∀ l ∈ leaders, l ∈ U.blocks
  ordered : leaders.Pairwise fun l l' => l.round ≤ l'.round ∧ l ≠ l'
  after : ∀ l ∈ leaders, d.lastCommitRound ≤ l.round
  uncommitted : ∀ l ∈ leaders, (d.recentBlocks.get? l.reference).all fun info => !info.committed
  held : ∀ l ∈ leaders, (d.getBlock l.reference).isSome
  parents : ∀ l ∈ leaders, ∀ r ∈ l.ancestors, r.round + 1 = l.round → (d.getBlock r).isSome

instance [DecidablePred (· ∈ U.blocks)] (leaders : List (Block n)) :
    Decidable (CanCommit U d leaders) :=
  decidable_of_iff _ (canCommit_iff U d leaders).symm

variable {leaders : List (Block n)} {l : Block n}

theorem CanCommit.gcRound_lt (hcan : CanCommit U d leaders)
    (hdepth : 0 < d.context.protocol.gcDepth) (hl : l ∈ leaders) : d.gcRound < l.round := by
  have hle := hcan.after l hl
  have hpos := (U.wellFormed (hcan.mem l hl)).round_pos
  rw [gcRound, calculateGcRound]
  omega

theorem Durable.linked (h : Durable U protocol L H m j unscored d) (hl : l ∈ U.blocks)
    (hheld : l.reference ∈ d.written.blocks) {r : BlockRef n} (hlink : Linked U.blocks l r)
    (hround : d.gcRound < r.round) : r ∈ d.written.blocks := by
  have hclosed : ∀ b ∈ U.blocks, b.reference ∈ d.written.blocks → ∀ a ∈ b.ancestors,
      d.gcRound < a.round → a ∈ d.written.blocks := by
    intro b hb hmem a ha hga
    obtain ⟨c, hc⟩ := mem_iff.1 hmem
    obtain ⟨hcU, href⟩ := h.pending.blocks _ c hc
    obtain rfl := U.reference_injOn hcU hb href
    exact h.pending.closed _ c hc a ha (h.persisted.synced.gcRound_eq ▸ hga)
  induction hlink with
  | direct hr => exact hclosed _ hl hheld _ hr hround
  | @trans b b' r hmem hb' hrest ih =>
    have hlt : r.round < b'.round := U.round_lt_of_linked hb' hrest
    exact ih hb' (hclosed _ hl hheld _ hmem (hround.trans hlt)) hround

theorem Persisted.append (h : Persisted U protocol L H m d) (more : List (Block n)) :
    Persisted U protocol (L ++ more) H m d := by
  refine { h with linearizes := ?_, length_le := ?_ }
  · rw [take_append_of_le_length h.length_le]
    exact h.linearizes
  · rw [length_append]
    exact h.length_le.trans (Nat.le_add_right _ _)

theorem Durable.linearizes (h : Durable U protocol L H m j unscored d) :
    Linearizes U protocol L H := by
  have hlin := h.persisted.linearizes
  rwa [← h.length_eq, take_length] at hlin

section Commit

variable (hdepth : 0 < protocol.gcDepth) (h : Durable U protocol L H m j unscored d)

include hdepth h

theorem Durable.leader_committed (hl : l ∈ L) : l.reference ∈ H.committed := by
  have hlin := h.linearizes
  obtain ⟨k, hk⟩ := mem_iff_getElem?.1 hl
  have hlt : k < H.length := h.length_eq ▸ (List.getElem?_eq_some_iff.1 hk).1
  have he : H[k]? = some H[k] := getElem?_eq_getElem hlt
  obtain ⟨l', hl', _, _, _, hle, _⟩ := (hlin.faithful hdepth h.leaders).entry k _ he
  cases hk.symm.trans hl'
  obtain ⟨b, hb, href⟩ := (hlin.assembled hdepth h.leaders _ (getElem_mem hlt)).leader
  exact CommitHistory.mem_committed.2 ⟨b, mem_flatMap.2 ⟨H[k], getElem_mem hlt, hb⟩, href.trans hle⟩

variable (hcan : CanCommit U d leaders)

include hcan

theorem Durable.leaderSequence : LeaderSequence U (L ++ leaders) := by
  have hs := h.persisted.synced
  have hd' : 0 < d.context.protocol.gcDepth := hs.protocol_eq ▸ hdepth
  refine ⟨fun l hl => ?_, pairwise_append.2 ⟨h.leaders.ordered, hcan.ordered,
    fun l hl l' hl' => ⟨?_, ?_⟩⟩⟩
  · rcases mem_append.1 hl with hl | hl
    · exact h.leaders.mem l hl
    · exact hcan.mem l hl
  · refine le_trans ?_ (hcan.after l' hl')
    -- the last leader has the highest round so far
    have hla := (h.linearizes.faithful hdepth h.leaders).lastCommit_eq.2
    have hr : d.lastCommitRound = (L.getLast?.map Block.round).getD 0 := by
      rw [← hla, lastCommitRound, hs.lastCommit_eq]
      cases H.lastCommit <;> rfl
    rw [hr]
    rcases eq_nil_or_concat L with rfl | ⟨init, last, rfl⟩
    · cases hl
    · rw [concat_eq_append, getLast?_append]
      have hord := h.leaders.ordered
      rw [concat_eq_append] at hl hord
      rcases mem_append.1 hl with hl | hl
      · exact ((pairwise_append.1 hord).2.2 l hl last (by simp)).1
      · rw [mem_singleton.1 hl]
        rfl
  · rintro rfl
    have hr := hcan.gcRound_lt hd' hl'
    obtain ⟨info, hi⟩ := mem_iff.1 (h.mem_recentBlocks (hcan.held l hl') hr)
    have hf := (hs.flags _ info hi hr).2 (h.leader_committed hdepth hl)
    have hunc := hcan.uncommitted l hl'
    rw [hi, Option.all_some, hf] at hunc
    cases hunc

theorem Durable.gcRound_le {k : ℕ} (hk : k ≤ leaders.length) :
    d.gcRound ≤ gcRoundBefore protocol (L ++ leaders) (H.length + k) := by
  cases k with
  | zero =>
    exact ((h.persisted.append leaders).gcRound_eq hdepth (h.leaderSequence hdepth hcan)).le
  | succ k =>
    have hlt : k < leaders.length := hk
    have hget : (L ++ leaders)[H.length + k]? = some leaders[k] := by
      rw [← h.length_eq, getElem?_append_right (Nat.le_add_right _ _), Nat.add_sub_cancel_left,
        getElem?_eq_getElem hlt]
    rw [← Nat.add_assoc, gcRoundBefore, hget, gcRound, calculateGcRound,
      h.persisted.synced.protocol_eq]
    exact Nat.sub_le_sub_right (hcan.after _ (getElem_mem hlt)) _

theorem Durable.leader_written (hl : l ∈ leaders) : l.reference ∈ d.written.blocks := by
  have hd' : 0 < d.context.protocol.gcDepth := h.persisted.synced.protocol_eq ▸ hdepth
  exact h.cached _ (h.mem_recentBlocks (hcan.held l hl) (hcan.gcRound_lt hd' hl))

theorem Durable.hasHistory {k : ℕ} (hl : leaders[k]? = some l) :
    HasHistory U d (gcRoundBefore protocol (L ++ leaders) (H.length + k)) l := by
  have hmem := mem_of_getElem? hl
  refine ⟨hcan.held l hmem, fun r hli hro => ?_, hcan.parents l hmem⟩
  have hgc : d.gcRound < r.round := lt_of_le_of_lt
    (h.gcRound_le hdepth hcan (List.getElem?_eq_some_iff.1 hl).1.le) hro
  have hr := h.kept r (h.linked (hcan.mem l hmem) (h.leader_written hdepth hcan hmem) hli hgc)
    (lt_of_le_of_lt (h.evicted_le r.author).1 hgc)
  obtain ⟨info, hi⟩ := mem_iff.1 hr
  rw [getBlock, if_neg (by rw [genesisRound]; omega), hi]
  rfl

theorem Durable.handleCommit : ∃ d' more, d.handleCommit leaders = .ok (d', more.map Prod.fst) ∧
      Durable U protocol (L ++ leaders) (H ++ more) m j (unscored ++ more.map Prod.fst) d' := by
  have hL := h.leaderSequence hdepth hcan
  have hbatch : leaders <+: (L ++ leaders).drop H.length := by
    rw [← h.length_eq, drop_left]
  obtain ⟨d', more, hd', hmore, hpers, happ⟩ :=
    (h.persisted.append leaders).handleCommit hdepth hL hbatch
      (fun k l hl => h.hasHistory hdepth hcan hl) []
  refine ⟨d', more, hd', ?_⟩
  have hlength : (L ++ leaders).length = (H ++ more).length := by
    rw [length_append, length_append, h.length_eq, hmore]
  have hmem : ∀ r, r ∈ d'.recentBlocks ↔ r ∈ d.recentBlocks := fun r => mem_congr (happ.blocks r)
  have hgc_eq : d'.gcRound = gcRoundBefore protocol (L ++ leaders) (H.length + leaders.length) := by
    rw [hpers.gcRound_eq hdepth hL, length_append, hmore]
  have hgc : d.gcRound ≤ d'.gcRound := by
    rw [hgc_eq]
    exact h.gcRound_le hdepth hcan le_rfl
  have hblocks : d'.written.blocks = d.written.blocks := by
    rw [happ.frame]
    rfl
  have hinfos : d'.written.commitInfo = d.written.commitInfo := by
    rw [happ.frame]
    rfl
  have hcomm : ∀ e ∈ H ++ more, ∀ b ∈ e.1.blocks, b.reference ∈ d.written.blocks := by
    intro e he b hb
    have hlin := hpers.linearizes
    rw [← hlength, take_length] at hlin
    obtain ⟨k, hk⟩ := mem_iff_getElem?.1 he
    by_cases hold : k < H.length
    · rw [getElem?_append_left hold] at hk
      exact h.pending.committed e (mem_of_getElem? hk) b hb
    · -- a new block is reached from one of the new leaders
      obtain ⟨⟨_, hround, l, hl, hpath⟩, _⟩ := ((hlin.faithful hdepth hL).mem_blocks k e hk b).1 hb
      obtain ⟨i, rfl⟩ := Nat.exists_eq_add_of_le (not_lt.1 hold)
      rw [← h.length_eq, getElem?_append_right (Nat.le_add_right _ _),
        Nat.add_sub_cancel_left] at hl
      have hi := (List.getElem?_eq_some_iff.1 hl).1
      have hmem := mem_of_getElem? hl
      have hleader := h.leader_written hdepth hcan hmem
      rcases hpath with rfl | hlink
      · exact hleader
      · exact h.linked (hcan.mem l hmem) hleader hlink
          (lt_of_le_of_lt (h.gcRound_le hdepth hcan hi.le) hround)
  have hcons : Consistent U protocol d'.written (H ++ more) j := by
    refine hpers.consistent hdepth hL ?_ ?_ ?_ ?_ ?_
    · intro r b hr a ha hround
      rw [hblocks] at hr ⊢
      exact h.pending.closed r b hr a ha (h.persisted.synced.gcRound_eq ▸ lt_of_le_of_lt hgc hround)
    · rw [hblocks]
      exact hcomm
    · intro r hr
      rw [hinfos] at hr
      obtain ⟨e, he, her⟩ := h.pending.infos r hr
      exact ⟨e, mem_append_left _ he, her⟩
    · rw [take_append_of_le_length h.pending.info_le, ← h.pending.info, recoverCommitInfo,
        recoverCommitInfo, Store.readLastCommitInfo, Store.readLastCommitInfo, hinfos]
    · rw [length_append]
      exact h.pending.info_le.trans (Nat.le_add_right _ _)
  obtain ⟨j', scoring, hstored, hscor⟩ := h.stored
  obtain ⟨scored, hscored, hadded⟩ := h.scored
  have hrefs : d'.recentRefsByAuthority = d.recentRefsByAuthority := by rw [happ.frame]
  have hevicted : d'.evictedRounds = d.evictedRounds := by rw [happ.frame]
  have hrounds : d'.cachedRounds = d.cachedRounds := by rw [happ.frame]
  refine ⟨⟨fun a r => ?_, fun r hr => ?_, fun r hr hround => ?_, fun r hr => ?_, fun a => ?_⟩,
    hL, hlength, hpers, ⟨j', scoring, ?_, ?_⟩, hcons, ⟨scored, ?_, ?_⟩, ?_, ?_, ?_,
    fun hblocks' hcomm' => ?_⟩
  · rw [hrefs, h.refs, hmem]
  · rw [hblocks]
    exact h.cached r ((hmem r).1 hr)
  · rw [hblocks] at hr
    rw [hevicted] at hround
    exact (hmem r).2 (h.kept r hr hround)
  · rw [hblocks] at hr
    obtain ⟨s, hs, hrest⟩ := h.top r hr
    exact ⟨s, (hmem s).2 hs, hrest⟩
  · obtain ⟨hle, hlast⟩ := h.evicted_le a
    rw [hevicted, hrounds]
    refine ⟨hle.trans hgc, hlast.imp_right ?_⟩
    rintro ⟨r, hr, hrest⟩
    exact ⟨r, (hmem r).2 hr, hrest⟩
  · rw [take_append_of_le_length h.persisted.stored_le, happ.frame]
    exact hstored
  · rw [take_append_of_le_length h.persisted.stored_le]
    exact hscor
  · rw [drop_append_of_le_length h.pending.info_le, map_append, hscored, append_assoc]
  · rw [happ.frame]
    exact hadded
  · rw [happ.frame, CommitHistory.committedRounds, foldl_append]
    exact congrArg (fun rounds => more.foldl _ rounds) h.rounds
  · rw [happ.frame]
    exact h.cachedRounds_eq
  · rw [happ.frame]
    exact h.clock
  · -- without a new commit the GC round has not changed either
    rw [happ.frame] at hblocks' hcomm'
    obtain ⟨hold, hnone⟩ := append_eq_nil_iff.1 hcomm'
    have hleaders : leaders.length = 0 := by
      rw [← hmore, map_eq_nil_iff.1 hnone, length_nil]
    have hgc' : d'.gcRound = d.gcRound := by
      rw [hgc_eq, hleaders, (h.persisted.append leaders).gcRound_eq hdepth hL, Nat.add_zero]
    obtain ⟨hround, habove⟩ := h.settled hblocks' hold
    refine ⟨fun a => ?_, fun r hr => ?_⟩
    · rw [hevicted, hround, calculateAuthorityEvictionRound_eq, calculateAuthorityEvictionRound_eq,
        hgc', hrounds, lastRefRound, lastRefRound, hrefs]
    · rw [hevicted]
      exact habove r ((hmem r).1 hr)

end Commit

/-! ## Scores -/

theorem Durable.addScoringSubdags (h : Durable U protocol L H m j unscored d)
    (hst : d.addScoringSubdags unscored = .ok d') : Durable U protocol L H m j [] d' := by
  obtain ⟨scoring, hsc, hd'⟩ := bind_ok.1 hst
  cases hd'
  obtain ⟨scored, hs, ha⟩ := h.scored
  refine { h with persisted := h.persisted.withScores, scored := ⟨scored ++ unscored, ?_, ?_⟩ }
  · rw [hs, append_nil]
  · rw [ScoringSubdag.addSubdags, foldlM_append, ← ScoringSubdag.addSubdags, ha]
    exact hsc

theorem Durable.addFinalizedCommit (h : Durable U protocol L H m j unscored d)
    (commitRef : CommitRef) (rejected : RejectedTransactions n) :
    Durable U protocol L H m j unscored (d.addFinalizedCommit commitRef rejected) :=
  { h with
    persisted := h.persisted.withScores
    pending := { h.pending with commits := { h.pending.commits with } } }

/-- A commit info for the last commit takes the place of what was scored. -/
theorem Durable.updateLeaderSchedule (h : Durable U protocol L H m j [] d)
    (hs : d.updateLeaderSchedule = .ok d') : Durable U protocol L H m H.length [] d' := by
  obtain ⟨scores, commit, _, hc, rfl⟩ := updateLeaderSchedule_ok hs
  rw [h.persisted.synced.lastCommit_eq] at hc
  have hi := h.pending.commits.lastCommit_index hc
  obtain ⟨e, he, rfl⟩ := Option.map_eq_some_iff.1 hc
  have hmem := mem_of_getLast? he
  have hw : written { d with
      scoringSubdag := .new
      commitInfoToWrite :=
        d.commitInfoToWrite ++ [(e.2.reference, ⟨d.lastCommittedRounds, scores⟩)] } =
      { d.written with commitInfo :=
        d.written.commitInfo.insert e.2.reference ⟨d.lastCommittedRounds, scores⟩ } := by
    simp only [written, withWritten, Store.write, foldl_append, foldl_cons, foldl_nil]
  have hl : ∀ r ∈ d.written.commitInfo, r ≤ e.2.reference := by
    intro r hr
    obtain ⟨e', he', rfl⟩ := h.pending.infos r hr
    obtain ⟨k, hk⟩ := mem_iff_getElem?.1 he'
    have hlt := (List.getElem?_eq_some_iff.1 hk).1
    have hk' := h.pending.commits.index k e' hk
    by_cases hend : k + 1 = H.length
    · rw [getLast?_eq_getElem?, ← hend, Nat.add_sub_cancel, hk] at he
      cases he
      exact le_rfl
    · refine le_of_lt (CommitRef.lt_of_index_lt ?_)
      change e'.2.index < e.2.index
      omega
  refine { h with persisted := h.persisted.withScores, pending := ?_, scored := ⟨[], by simp, rfl⟩ }
  rw [hw]
  refine { h.pending with
    commits := { h.pending.commits with }, infos := ?_, info := ?_, info_le := le_rfl }
  · intro r hr
    rcases mem_insert.1 hr with rfl | hr
    · exact ⟨e, hmem, rfl⟩
    · exact h.pending.infos r hr
  · rw [recoverCommitInfo, Store.readLastCommitInfo, last?_insert hl, take_length]
    simp only [h.rounds]
    rw [show e.2.reference.index = H.length from hi]

/-! ## Flushing -/

theorem withWritten_flush (d : DagState C) : d.flush.withWritten = d.flush := by
  rw [flush_frame]
  rfl

theorem Durable.evicted_mono (h : Durable U protocol L H m j unscored d) (a : Fin n) :
    d.evictedRounds a ≤ d.calculateAuthorityEvictionRound a := by
  obtain ⟨hle, hl⟩ := h.evicted_le a
  rw [calculateAuthorityEvictionRound_eq]
  refine le_min hle ?_
  rcases hl with hz | ⟨r, hr, ha, hro⟩
  · rw [hz]
    exact Nat.zero_le _
  · have := (isLastRound_last? (d.recentRefsByAuthority a)).le r ((h.refs a r).2 ⟨ha, hr⟩)
    change r.round ≤ d.lastRefRound a at this
    omega

theorem Durable.flush (hdepth : 0 < protocol.gcDepth) (hcachedRounds : 0 < d.cachedRounds)
    (h : Durable U protocol L H m j [] d) : Durable U protocol L H H.length j [] d.flush := by
  have hpers := h.persisted.flush hdepth h.leaders
  obtain ⟨scored, hscored, hadded⟩ := h.scored
  rw [append_nil] at hscored
  rw [← hscored] at hadded
  rcases d.flush_cases with ⟨hflush, hsame⟩ | hevicted
  · have hwritten : d.written = d.store := congrArg DagState.store hsame
    rw [hflush] at hpers ⊢
    refine { h with persisted := hpers, stored := ⟨j, d.scoringSubdag, ?_, ?_⟩ }
    · rw [take_length, ← hwritten]
      exact h.pending
    · rw [take_length]
      exact hadded
  · have hround : ∀ a, d.flush.evictedRounds a = d.calculateAuthorityEvictionRound a := by
      intro a
      rw [hevicted.rounds, if_pos (mem_finRange a)]
      rfl
    have hwritten : d.flush.written = d.written := by
      rw [hevicted.frame]
      rfl
    have hmem : ∀ r, r ∈ d.flush.recentBlocks ↔
        r ∈ d.recentBlocks ∧ d.calculateAuthorityEvictionRound r.author < r.round :=
      hevicted.mem_iff h.refs
    have hgc : d.flush.gcRound = d.gcRound := by
      rw [hevicted.frame]
      rfl
    have hcachedRounds' : d.flush.cachedRounds = d.cachedRounds := by
      rw [hevicted.frame]
      rfl
    have hstored : ∀ r, r ∈ d.flush.recentBlocks ↔
        d.flush.evictedRounds r.author < r.round ∧ r ∈ d.written.blocks := by
      intro r
      rw [hmem, hround]
      constructor
      · rintro ⟨hr, hlt⟩
        exact ⟨hlt, h.cached r hr⟩
      · rintro ⟨hlt, hr⟩
        exact ⟨h.kept r hr (lt_of_le_of_lt (h.evicted_mono _) hlt), hlt⟩
    obtain ⟨hcache, hrounds⟩ := cached_of_evicted h.pending.positive h.isLastRound
      (.inl (hcachedRounds' ▸ hcachedRounds))
      (fun a => by rw [hround, calculateAuthorityEvictionRound_eq, hgc, hcachedRounds'])
      (hevicted.refsCached h.refs) hstored
    refine ⟨hwritten ▸ hcache, h.leaders, h.length_eq, hpers, ⟨j, d.scoringSubdag, ?_, ?_⟩,
      hwritten ▸ h.pending, ⟨_, (append_nil _).symm, ?_⟩, ?_, ?_, ?_,
      fun _ _ => ⟨hrounds, fun r hr => ((hstored r).1 hr).1⟩⟩
    · rw [take_length, hevicted.frame]
      exact h.pending
    · rw [take_length]
      exact hadded
    · rw [hevicted.frame]
      exact hadded
    · rw [hevicted.frame]
      exact h.rounds
    · rw [hevicted.frame]
      exact h.cachedRounds_eq
    · rw [hevicted.frame]
      exact h.clock

end DagState

end OneChain.Consensus
