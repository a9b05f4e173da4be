import OneChain.Consensus.Node
import OneChain.Consensus.RecoverySteps
import OneChain.Consensus.View

/-!
# Every validator commits the same sub-dags

A run of a validator that commits leaders from an agreed sequence, whatever else it accepts, however
it splits the sequence into batches, and whenever it flushes or restarts. At any time its state is
that of the history of the leaders committed so far (`Persisted`): the marks above the GC round are
the committed blocks, and the store has a first part of the commits.

* `linearization_view_independent` — two validators get the same sub-dag for each commit index, and
  it holds what its leader is the first to reach.
-/

namespace OneChain.Consensus

open Lib List OrdMap

variable {n : ℕ} {C : Committee n} {U : VerifiedBlocks C} {protocol : Protocol n}

/-! ## Leader sequences -/

section Leaders

variable {leaders : List (Block n)}

theorem LeaderSequence.take (h : LeaderSequence U leaders) (k : ℕ) :
    LeaderSequence U (leaders.take k) :=
  ⟨fun l hl => h.mem l (mem_of_mem_take hl), h.ordered.sublist (take_sublist k leaders)⟩

theorem gcRoundBefore_take {j k : ℕ} (hjk : j ≤ k) (hk : k ≤ leaders.length) :
    gcRoundBefore protocol (leaders.take k) j = gcRoundBefore protocol leaders j := by
  have ha : gcRoundBefore protocol (leaders.take k ++ leaders.drop k) j =
      gcRoundBefore protocol (leaders.take k) j :=
    gcRoundBefore_append (by rw [length_take]; omega)
  rw [take_append_drop] at ha
  exact ha.symm

variable {b : Block n}

theorem reachedBy_take {j k : ℕ} (hjk : j < k) (hk : k ≤ leaders.length) :
    ReachedBy U protocol (leaders.take k) j b ↔ ReachedBy U protocol leaders j b := by
  have ha : ReachedBy U protocol (leaders.take k ++ leaders.drop k) j b ↔
      ReachedBy U protocol (leaders.take k) j b :=
    reachedBy_append (by rw [length_take]; omega)
  rw [take_append_drop] at ha
  exact ha.symm

/-- Later leaders are on top of what was committed before. -/
theorem Faithful.leadersOnTop {H : CommitHistory n} (h : Faithful U protocol leaders H)
    (hlead : LeaderSequence U leaders) : DagState.LeadersOnTop H := by
  intro j k e e' hjk hj hk r hr
  obtain ⟨l, hl, _, _, _, _, _, hblocks⟩ := h.entry j e hj
  obtain ⟨l', hl', _, _, _, hleader', _⟩ := h.entry k e' hk
  rw [hblocks] at hr
  obtain ⟨b, hb, rfl⟩ := mem_map.1 hr
  have hround : b.round ≤ l.round := by
    rcases round_le_of_reachedBy hlead ((h.mem_blocks j e hj b).1 hb).1 hl with rfl | hlt
    · exact le_rfl
    · exact hlt.le
  have hord : l.round ≤ l'.round := by
    rcases hjk.eq_or_lt with rfl | hlt
    · cases hl.symm.trans hl'
      exact le_rfl
    · obtain ⟨hj', rfl⟩ := List.getElem?_eq_some_iff.1 hl
      obtain ⟨hk', rfl⟩ := List.getElem?_eq_some_iff.1 hl'
      exact (pairwise_iff_getElem.1 hlead.ordered j k hj' hk' hlt).1
  rw [hleader']
  exact hround.trans hord

end Leaders

namespace DagState

variable {L : List (Block n)} {H : CommitHistory n} {m : ℕ} {d d' : DagState C}

/-! ## The invariant -/

variable (U protocol L H m d) in
/-- The state of a validator that has committed the history, of which the first `m` commits are in
the store. -/
structure Persisted : Prop where
  linearizes : Linearizes U protocol (L.take H.length) H
  length_le : H.length ≤ L.length
  synced : Synced U protocol H d
  refs : ∀ r ∈ d.recentBlocks, d.gcRound < r.round → r ∈ d.recentRefsByAuthority r.author
  pendingBlocks : ∀ b ∈ d.blocksToWrite,
    b ∈ U.blocks ∧ (d.gcRound < b.round → b.reference ∈ d.recentBlocks)
  storedCommits : StoresCommits d.store (H.take m)
  pendingCommits : d.commitsToWrite = (H.drop m).map Prod.snd
  stored_le : m ≤ H.length

/-- Scores, commit infos and finalised commits play no role. -/
theorem Persisted.withScores (h : Persisted U protocol L H m d) {scoring : ScoringSubdag C}
    {infos : List (CommitRef × CommitInfo n)}
    {finalized : List (CommitRef × RejectedTransactions n)} :
    Persisted U protocol L H m { d with
      scoringSubdag := scoring
      commitInfoToWrite := infos
      finalizedCommitsToWrite := finalized } :=
  { h with synced := { h.synced with } }

/-! ## Accepting -/

variable {r : BlockRef n} {commit : TrustedCommit n} {leader : Block n} {l : List (Fin n)}
  {store : Store n} {context : Context n}

theorem withBlock_getBlock (hr : r ≠ b.reference) : (d.withBlock b).getBlock r = d.getBlock r := by
  rw [getBlock, withBlock_recentBlocks, if_neg hr]
  rfl

/-- A new block is not marked: if it was committed, it is in the cache or below the GC round. -/
theorem Persisted.acceptBlock (h : Persisted U protocol L H m d) (hb : b ∈ U.blocks)
    (hstep : d.acceptBlock b = .ok d') : Persisted U protocol L H m d' := by
  obtain ⟨_, ⟨_, rfl⟩ | ⟨hnew, rfl⟩⟩ := acceptBlock_ok hstep
  · exact h
  have hs := h.synced
  have hcached := mem_withBlock d b
  have hunc : d.gcRound < b.round → b.reference ∉ H.committed := by
    intro hround hmem
    have hcont := containsBlock_of_mem (h.refs _ (hs.committed_cached _ hmem hround) hround)
    rw [hnew] at hcont
    cases hcont
  refine { h with
    synced := { hs with cached := ?_, kept := ?_, flags := ?_, committed_cached := ?_ }
    refs := ?_
    pendingBlocks := ?_ }
  · intro r info hr
    rw [withBlock_recentBlocks] at hr
    by_cases heq : r = b.reference
    · rw [if_pos heq] at hr
      cases hr
      exact ⟨hb, heq.symm⟩
    · rw [if_neg heq] at hr
      exact hs.cached r info hr
  · intro r hr hround
    refine (hcached r).2 ?_
    by_cases heq : r = b.reference
    · exact .inl heq
    · refine .inr (hs.kept r ?_ hround)
      rw [← withBlock_getBlock heq]
      exact hr
  · intro r info hr hround
    rw [withBlock_recentBlocks] at hr
    by_cases heq : r = b.reference
    · rw [if_pos heq] at hr
      cases hr
      subst heq
      simpa [BlockInfo.new] using hunc hround
    · rw [if_neg heq] at hr
      exact hs.flags r info hr hround
  · intro r hr hround
    exact (hcached r).2 (.inr (hs.committed_cached r hr hround))
  · intro r hr hround
    rw [mem_withBlock_refs]
    rcases (hcached r).1 hr with rfl | hr
    · exact .inl ⟨rfl, rfl⟩
    · exact .inr (h.refs r hr hround)
  · intro c hc
    rcases mem_append.1 hc with hc | hc
    · obtain ⟨hU, hkept⟩ := h.pendingBlocks c hc
      exact ⟨hU, fun hround => (hcached _).2 (.inr (hkept hround))⟩
    · obtain rfl := mem_singleton.1 hc
      exact ⟨hb, fun _ => (hcached _).2 (.inl rfl)⟩

/-! ## Committing -/

theorem Appends.getBlock (h : Synced.Appends d commit d') (r : BlockRef n) :
    d'.getBlock r = d.getBlock r :=
  getBlock_congr (by rw [h.frame]; rfl) (by rw [h.frame]; rfl) (h.blocks r)

theorem Appends.mem_recentBlocks (h : Synced.Appends d commit d') (r : BlockRef n) :
    r ∈ d'.recentBlocks ↔ r ∈ d.recentBlocks :=
  mem_congr (h.blocks r)

theorem HasHistory.congr {g : ℕ} (h : HasHistory U d g leader)
    (hget : ∀ r, d'.getBlock r = d.getBlock r) : HasHistory U d' g leader := by
  refine ⟨?_, fun r hr hro => ?_, fun r hr hro => ?_⟩
  · rw [hget]
    exact h.own
  · rw [hget]
    exact h.history r hr hro
  · rw [hget]
    exact h.parents r hr hro

section CommitLeader

variable (hdepth : 0 < protocol.gcDepth) (hL : LeaderSequence U L)
  (h : Persisted U protocol L H m d)

include hdepth hL h

theorem Persisted.lastCommitIndex_eq : d.lastCommitIndex = H.length := by
  have hf := h.linearizes.faithful hdepth (hL.take _)
  rw [DagState.lastCommitIndex_eq, h.synced.lastCommit_eq, hf.lastCommit_eq.1]
  exact h.linearizes.length_eq.symm

theorem Persisted.gcRound_eq : d.gcRound = gcRoundBefore protocol L H.length := by
  have hf := h.linearizes.faithful hdepth (hL.take _)
  rw [h.synced.gcRound_eq, hf.gcRound_eq, ← h.linearizes.length_eq,
    gcRoundBefore_take le_rfl h.length_le]

theorem Persisted.commitLeader (hleader : L[H.length]? = some leader)
    (hhist : HasHistory U d (gcRoundBefore protocol L H.length) leader)
    (out : List (CommittedSubDag n)) :
    ∃ d' e, DagState.commitLeader (d, out) leader = .ok (d', out ++ [e.1]) ∧
      Persisted U protocol L (H ++ [e]) m d' ∧ Synced.Appends d e.2 d' := by
  have hlt := (List.getElem?_eq_some_iff.1 hleader).1
  have htake : L.take (H.length + 1) = L.take H.length ++ [leader] := by
    rw [take_add_one, hleader]
    rfl
  have hlead : LeaderSequence U (L.take H.length ++ [leader]) := htake ▸ hL.take _
  have hfaith := h.linearizes.faithful hdepth hlead.init
  rw [← h.gcRound_eq hdepth hL] at hhist
  obtain ⟨d', e, fuel, marked, toCommit, parents, median, hnext, hd', hsynced, happ⟩ :=
    h.synced.commitLeader_ok hdepth hfaith hlead hhist out
  have hgc : d.gcRound ≤ d'.gcRound := by
    have hle := hfaith.gcRound_le hlead
    rw [h.synced.gcRound_eq, hsynced.gcRound_eq]
    refine hle.trans (le_of_eq ?_)
    rw [CommitHistory.gcRound, CommitHistory.lastCommit_snoc, hnext.next_eq]
    rfl
  refine ⟨d', e, hd', ⟨?_, ?_, hsynced, ?_, ?_, ?_, ?_, ?_⟩, happ⟩
  · rw [length_append, length_singleton, htake]
    exact .snoc h.linearizes hnext
  · rw [length_append]
    exact hlt
  · intro r hr hround
    rw [happ.frame]
    exact h.refs r ((Appends.mem_recentBlocks happ r).1 hr) (lt_of_le_of_lt hgc hround)
  · intro b hb
    rw [happ.frame] at hb
    obtain ⟨hU, hkept⟩ := h.pendingBlocks b hb
    exact ⟨hU, fun hround =>
      (Appends.mem_recentBlocks happ _).2 (hkept (lt_of_le_of_lt hgc hround))⟩
  · rw [happ.frame, take_append_of_le_length h.stored_le]
    exact h.storedCommits
  · rw [happ.frame, drop_append_of_le_length h.stored_le, map_append, ← h.pendingCommits]
    rfl
  · rw [length_append]
    exact h.stored_le.trans (Nat.le_add_right _ _)

end CommitLeader

/-- What a batch of commits changes besides the marks. -/
structure Appended (d : DagState C) (more : CommitHistory n) (d' : DagState C) : Prop where
  frame : d' = { d with
    recentBlocks := d'.recentBlocks
    lastCommit := d'.lastCommit
    lastCommittedRounds := more.foldl (fun rounds e => raiseCommittedRounds rounds e.2.blocks)
      d.lastCommittedRounds
    pendingCommitVotes := d'.pendingCommitVotes
    commitsToWrite := d.commitsToWrite ++ more.map Prod.snd }
  blocks : ∀ r, (d'.recentBlocks.get? r).map BlockInfo.block =
    (d.recentBlocks.get? r).map BlockInfo.block

theorem Appended.cons {e : CommittedSubDag n × TrustedCommit n} {more : CommitHistory n}
    {d'' : DagState C} (h : Synced.Appends d e.2 d') (h' : Appended d' more d'') :
    Appended d (e :: more) d'' := by
  refine ⟨?_, fun r => (h'.blocks r).trans (h.blocks r)⟩
  rw [h'.frame, h.frame]
  simp [withCommit]

/-- **Committing a batch.** Each leader gets the commit that follows. -/
theorem Persisted.handleCommit (hdepth : 0 < protocol.gcDepth) (hL : LeaderSequence U L)
    {leaders : List (Block n)} (h : Persisted U protocol L H m d)
    (hlead : leaders <+: L.drop H.length)
    (hhist : ∀ k l, leaders[k]? = some l →
      HasHistory U d (gcRoundBefore protocol L (H.length + k)) l)
    (out : List (CommittedSubDag n)) :
    ∃ d' more, leaders.foldlM DagState.commitLeader (d, out) =
        .ok (d', out ++ more.map Prod.fst) ∧ more.length = leaders.length ∧
      Persisted U protocol L (H ++ more) m d' ∧ Appended d more d' := by
  induction leaders generalizing d H out with
  | nil => exact ⟨d, [], by simp, rfl, by simpa using h, by simp, fun _ => rfl⟩
  | cons l leaders ih =>
    obtain ⟨rest, hrest⟩ := hlead
    have hl : L[H.length]? = some l := by
      have hhead := congrArg List.head? hrest
      rw [head?_drop] at hhead
      exact hhead.symm
    obtain ⟨d₁, e, hd₁, hpers, happ⟩ := h.commitLeader hdepth hL hl (hhist 0 l rfl) out
    have hlen : (H ++ [e]).length = H.length + 1 := by simp
    have hdrop : leaders <+: L.drop (H ++ [e]).length := by
      rw [hlen, ← tail_drop, ← hrest]
      exact ⟨rest, rfl⟩
    obtain ⟨d', more, hd', hmore, hpers', happended⟩ := ih hpers hdrop (fun k l' hl' => by
      have hk := hhist (k + 1) l' hl'
      rw [hlen, Nat.add_assoc, Nat.add_comm 1 k]
      exact hk.congr (Appends.getBlock happ)) (out ++ [e.1])
    refine ⟨d', e :: more, ?_, by simp [hmore], ?_, .cons happ happended⟩
    · rw [foldlM_cons, hd₁, ok_bind, hd']
      simp
    · simpa using hpers'

/-! ## Flushing -/

theorem evictionRound_le (d : DagState C) (a : Fin n) :
    d.calculateAuthorityEvictionRound a ≤ d.gcRound :=
  min_le_left _ _

/-- Eviction leaves the cache above the GC round as it is. -/
theorem Evicted.get?_above (h : Evicted d l d') (hr : d.gcRound < r.round) :
    d'.recentBlocks.get? r = d.recentBlocks.get? r := by
  rw [h.recentBlocks, if_neg]
  rintro ⟨a, _, _, hro⟩
  have := d.evictionRound_le a
  omega

theorem Evicted.get?_eq_some (h : Evicted d l d') {info : BlockInfo n}
    (hr : d'.recentBlocks.get? r = some info) : d.recentBlocks.get? r = some info := by
  rw [h.recentBlocks] at hr
  split at hr
  · cases hr
  · exact hr

theorem Persisted.evicted (h : Persisted U protocol L H m d) (he : Evicted d l d') :
    Persisted U protocol L H m d' := by
  have hs := h.synced
  have hc : ∀ r, d.gcRound < r.round → (r ∈ d'.recentBlocks ↔ r ∈ d.recentBlocks) := by
    intro r hr
    rw [mem_def, mem_def, he.get?_above hr]
  have hget : ∀ r, d.gcRound < r.round → d'.getBlock r = d.getBlock r := fun r hr =>
    getBlock_congr (by rw [he.frame]) (by rw [he.frame]) (by rw [he.get?_above hr])
  rw [he.frame] at hget ⊢
  refine { h with
    synced := { hs with cached := ?_, kept := ?_, flags := ?_, committed_cached := ?_ }
    refs := ?_
    pendingBlocks := ?_ }
  · intro r info hr
    exact hs.cached r info (he.get?_eq_some hr)
  · intro r hr hro
    refine (hc r hro).2 (hs.kept r ?_ hro)
    rwa [← hget r hro]
  · intro r info hr hro
    exact hs.flags r info (he.get?_eq_some hr) hro
  · intro r hr hro
    exact (hc r hro).2 (hs.committed_cached r hr hro)
  · intro r hr hro
    have hmem := h.refs r ((hc r hro).1 hr) hro
    show r ∈ d'.recentRefsByAuthority r.author
    rw [he.refs]
    split
    · rw [mem_popWhile_round]
      have := d.evictionRound_le r.author
      exact ⟨hmem, lt_of_le_of_lt this hro⟩
    · exact hmem
  · intro b hb
    obtain ⟨hU, hk⟩ := h.pendingBlocks b hb
    exact ⟨hU, fun hro => (hc b.reference hro).2 (hk hro)⟩

section Flush

variable (hdepth : 0 < protocol.gcDepth) (hL : LeaderSequence U L)
  (h : Persisted U protocol L H m d)

include hdepth hL h

/-- Blocks and commits are written before the eviction. -/
theorem Persisted.written : Persisted U protocol L H H.length d.withWritten := by
  unfold withWritten
  have hs := h.synced
  have hfaith := h.linearizes.faithful hdepth (hL.take _)
  have hblocks : ∀ r b, (d.blocksToWrite.foldl (fun m b => m.insert b.reference b)
      d.store.blocks).get? r = some b ↔ (∃ a ∈ d.blocksToWrite, a.reference = r ∧ a = b) ∨
        (∀ a ∈ d.blocksToWrite, a.reference ≠ r) ∧ d.store.blocks.get? r = some b := by
    intro r b
    refine get?_foldl_insert ?_ d.store.blocks
    intro a ha b hb heq
    exact U.reference_injOn (h.pendingBlocks a ha).1 (h.pendingBlocks b hb).1 heq
  refine { h with
    synced := { hs with stored := fun r b hb => ?_, kept := fun r hr hround => ?_ }
    pendingBlocks := by simp
    storedCommits := ⟨fun r c => ?_, ?_⟩
    pendingCommits := by simp
    stored_le := le_rfl }
  · rcases (hblocks r b).1 hb with ⟨a, ha, har, rfl⟩ | ⟨_, hold⟩
    · exact ⟨(h.pendingBlocks a ha).1, har⟩
    · exact hs.stored r b hold
  · -- what is in the store now was in it before, or waited to be written
    by_cases hcached : r ∈ d.recentBlocks
    · exact hcached
    · have hnone := notMem_iff.1 hcached
      rw [getBlock] at hr
      by_cases hzero : r.round = genesisRound
      · exact absurd hround (by rw [hzero]; exact Nat.not_lt_zero _)
      · rw [if_neg hzero, hnone] at hr
        obtain ⟨b, hb⟩ := Option.isSome_iff_exists.1 hr
        rcases (hblocks r b).1 hb with ⟨a, ha, rfl, _⟩ | ⟨_, hold⟩
        · exact (h.pendingBlocks a ha).2 hround
        · refine hs.kept r ?_ hround
          rw [getBlock, if_neg hzero, hnone, hold]
          rfl
  · rw [take_length]
    have hkey : ∀ c ∈ H.map Prod.snd, ∀ c' ∈ H.map Prod.snd,
        c.reference = c'.reference → c = c' := by
      intro c hc c' hc' heq
      obtain ⟨e, he, rfl⟩ := mem_map.1 hc
      obtain ⟨e', he', rfl⟩ := mem_map.1 hc'
      obtain ⟨k, hk⟩ := mem_iff_getElem?.1 he
      obtain ⟨k', hk'⟩ := mem_iff_getElem?.1 he'
      obtain ⟨_, _, _, _, hindex, _⟩ := hfaith.entry k e hk
      obtain ⟨_, _, _, _, hindex', _⟩ := hfaith.entry k' e' hk'
      have hind : e.2.index = e'.2.index := congrArg CommitRef.index heq
      obtain rfl : k = k' := by omega
      rw [hk] at hk'
      cases hk'
      rfl
    have hmem : ∀ c, c ∈ H.map Prod.snd ↔
        c ∈ (H.take m).map Prod.snd ∨ c ∈ (H.drop m).map Prod.snd := by
      intro c
      rw [← mem_append, ← map_append, take_append_drop]
    refine (get?_foldl_insert ?_ _).trans ?_
    · intro a ha b hb heq
      rw [h.pendingCommits] at ha hb
      exact hkey a ((hmem a).2 (.inr ha)) b ((hmem b).2 (.inr hb)) heq
    · rw [h.pendingCommits]
      constructor
      · rintro (⟨a, ha, har, rfl⟩ | ⟨_, hold⟩)
        · exact ⟨(hmem _).2 (.inr ha), har⟩
        · obtain ⟨hc, hcr⟩ := (h.storedCommits.get? r c).1 hold
          exact ⟨(hmem c).2 (.inl hc), hcr⟩
      · rintro ⟨hc, hcr⟩
        by_cases hpend : c ∈ (H.drop m).map Prod.snd
        · exact .inl ⟨c, hpend, hcr, rfl⟩
        · refine .inr ⟨fun a ha har => hpend ?_, (h.storedCommits.get? r c).2
            ⟨((hmem c).1 hc).resolve_right hpend, hcr⟩⟩
          rwa [hkey c hc a ((hmem a).2 (.inr ha)) (hcr.trans har.symm)]
  · intro k e hk
    rw [take_length] at hk
    obtain ⟨_, _, _, _, hindex, _⟩ := hfaith.entry k e hk
    exact hindex

theorem Persisted.flush : Persisted U protocol L H H.length d.flush := by
  have hw := h.written hdepth hL
  rcases d.flush_cases with ⟨hf, hs⟩ | he
  · rwa [hf, ← hs]
  · exact hw.evicted he

end Flush

/-! ## Restarting -/

theorem StoresCommits.readLastCommit (h : StoresCommits store H) :
    store.readLastCommit = H.lastCommit := by
  rw [Store.readLastCommit, CommitHistory.lastCommit]
  cases hl : store.commits.last? with
  | none =>
    have hem := last?_eq_none.1 hl
    cases hH : H.getLast? with
    | none => rfl
    | some e =>
      have hmem := (h.get? e.2.reference e.2).2 ⟨mem_map_of_mem (mem_of_getLast? hH), rfl⟩
      exact absurd (mem_iff.2 ⟨_, hmem⟩) (hem _)
  | some e =>
    obtain ⟨r, c⟩ := e
    obtain ⟨hget, hmax⟩ := last?_eq_some hl
    obtain ⟨hmem, rfl⟩ := (h.get? r c).1 hget
    obtain ⟨e, he, rfl⟩ := mem_map.1 hmem
    obtain ⟨k, hk⟩ := mem_iff_getElem?.1 he
    -- the last entry of the history has the greatest index
    have hlt := (List.getElem?_eq_some_iff.1 hk).1
    have hl' : H[H.length - 1]? = some H[H.length - 1] := getElem?_eq_getElem (by omega)
    have hle := CommitRef.index_le_of_le (hmax _ (mem_iff.2 ⟨_, (h.get? _ _).2
      ⟨mem_map_of_mem (mem_of_getElem? hl'), rfl⟩⟩))
    change H[H.length - 1].2.index ≤ e.2.index at hle
    rw [h.index _ _ hl', h.index k e hk] at hle
    obtain rfl : k = H.length - 1 := by omega
    rw [getLast?_eq_getElem?, hk]
    rfl

theorem StoresCommits.lastCommit_index (h : StoresCommits store H)
    (hc : H.lastCommit = some commit) : commit.index = H.length := by
  obtain ⟨e, he, rfl⟩ := Option.map_eq_some_iff.1 hc
  have hne : H ≠ [] := by
    rintro rfl
    cases he
  have hpos := length_pos_iff.2 hne
  rw [getLast?_eq_getElem?] at he
  rw [h.index _ e he]
  omega

/-- The phases of a recovery from a store with the commits of a history. -/
theorem new_phases (htop : LeadersOnTop H)
    (hblocks : ∀ r b, store.blocks.get? r = some b → b.reference = r)
    (hcomm : StoresCommits store H) (hnew : DagState.new C context store = .ok d') :
    ∃ rounds scoring d₁ d₂ K, Phases (newWithoutBlocks C context store rounds scoring) d₁ d₂ d' K ∧
      (∀ r, d₁.gcRound < r.round → (r ∈ K ↔ ∃ e ∈ H, r ∈ e.2.blocks)) ∧
      (∀ r, d₁.gcRound < r.round → (∃ e ∈ H, r ∈ e.2.blocks) → r ∈ d₁.recentBlocks) := by
  obtain ⟨rounds, scoring, d₁, d₂, hd₁, hd₂, hlinked⟩ := new_eq_ok hnew
  have hloaded := loaded_new hblocks hd₁
  have hstore : d₁.store = store := by
    rw [hloaded.frame]
    rfl
  have hlast : d₁.lastCommit = H.lastCommit := by
    rw [hloaded.frame]
    exact hcomm.readLastCommit
  have hunm := hloaded.marks d₁.gcRound
  refine ⟨rounds, scoring, d₁, d₂, ?_⟩
  rw [recoverCommitStatuses, hlast] at hd₂
  cases hH : H.lastCommit with
  | none =>
    rw [hH] at hd₂
    cases hd₂
    have hnil : H = [] := by simpa [CommitHistory.lastCommit] using hH
    subst hnil
    exact ⟨∅, ⟨hloaded, hunm, hlinked⟩, by simp, by simp⟩
  | some lastCommit =>
    rw [hH] at hd₂
    have hindex := hcomm.lastCommit_index hH
    obtain ⟨K, hmarks, hiff, hcached⟩ := hunm.of_recoverStatuses (hstore ▸ hcomm) htop hindex.le hd₂
    rw [hindex, take_length] at hiff hcached
    exact ⟨K, ⟨hloaded, hmarks, hlinked⟩, fun r hr => by simpa using hiff r hr, hcached⟩

/-- **A recovered state is the state of the stored commits.** -/
theorem persisted_of_new (hdepth : 0 < protocol.gcDepth) (hL : LeaderSequence U L)
    (hlin : Linearizes U protocol (L.take H.length) H) (hlength : H.length ≤ L.length)
    (hprot : context.protocol = protocol)
    (hblocks : ∀ r b, store.blocks.get? r = some b → b ∈ U.blocks ∧ b.reference = r)
    (hcomm : StoresCommits store H) (hnew : DagState.new C context store = .ok d') :
    Persisted U protocol L H H.length d' := by
  have hfaith := hlin.faithful hdepth (hL.take _)
  obtain ⟨rounds, scoring, d₁, d₂, K, hphases, hK, hKcached⟩ :=
    new_phases (hfaith.leadersOnTop (hL.take _)) (fun r b hb => (hblocks r b hb).2) hcomm hnew
  have hframe := hphases.frame
  have hgc := hphases.gcRound_eq
  have hlast : d'.lastCommit = H.lastCommit := by
    rw [hframe]
    exact hcomm.readLastCommit
  have hcached : ∀ r, d'.gcRound < r.round → (r ∈ d'.recentBlocks ↔ r ∈ store.blocks) :=
    fun r hr => hphases.mem_iff_stored hr
  have hcommitted : ∀ r, r ∈ H.committed ↔ ∃ e ∈ H, r ∈ e.2.blocks := by
    intro r
    rw [CommitHistory.mem_committed]
    constructor
    · rintro ⟨b, hb, rfl⟩
      obtain ⟨e, he, hbe⟩ := mem_flatMap.1 hb
      obtain ⟨k, hk⟩ := mem_iff_getElem?.1 he
      obtain ⟨_, _, _, _, _, _, _, heq⟩ := hfaith.entry k e hk
      exact ⟨e, he, heq ▸ mem_map_of_mem hbe⟩
    · rintro ⟨e, he, hr⟩
      obtain ⟨k, hk⟩ := mem_iff_getElem?.1 he
      obtain ⟨_, _, _, _, _, _, _, heq⟩ := hfaith.entry k e hk
      rw [heq] at hr
      obtain ⟨b, hb, rfl⟩ := mem_map.1 hr
      exact ⟨b, mem_flatMap.2 ⟨e, he, hb⟩, rfl⟩
  refine ⟨hlin, hlength, ⟨?_, ?_, hlast, fun r info hr => ?_, ?_, fun r hr hround => ?_,
    fun r info hr hround => ?_, fun r hr hround => ?_⟩, fun r hr hround => ?_, ?_, ?_, ?_, le_rfl⟩
  · rw [hframe]
    exact hprot
  · rw [hframe, ← hprot]
    rfl
  · have hinfo := hphases.block_eq r
    rw [hr] at hinfo
    split at hinfo
    · exact hblocks r _ hinfo.symm
    · cases hinfo
  · rw [hframe]
    exact hblocks
  · refine (hcached r hround).2 ?_
    rw [getBlock] at hr
    by_cases hzero : r.round = genesisRound
    · exact absurd hround (by rw [hzero]; exact Nat.not_lt_zero _)
    · rw [if_neg hzero] at hr
      cases hinfo : d'.recentBlocks.get? r with
      | some info => exact (hcached r hround).1 (mem_iff.2 ⟨info, hinfo⟩)
      | none =>
        rw [hinfo, hframe] at hr
        exact hr
  · have hpairs := hphases.linked.blocks r
    rw [hr] at hpairs
    obtain ⟨info₂, hinfo₂, heq⟩ := Option.map_eq_some_iff.1 hpairs.symm
    have hflag : info₂.committed = info.committed := congrArg Prod.snd heq
    rw [← hflag, hphases.marks.flags r info₂ hinfo₂ (hgc ▸ hround), hK r (hgc ▸ hround), hcommitted]
  · exact hphases.mem_iff.2
      (hphases.loaded.phases.mem_iff.1 (hKcached r (hgc ▸ hround) ((hcommitted r).1 hr)))
  · exact hphases.refs.2 ⟨rfl, hr⟩
  · rw [hframe]
    simp [newWithoutBlocks]
  · rw [hframe, take_length]
    exact hcomm
  · rw [hframe]
    simp [newWithoutBlocks]

end DagState

/-! ## Runs -/

/-- Blocks come from the network, and leaders are committed in the order of the sequence, once the
state has their histories. -/
def NodeAction.Follows (U : VerifiedBlocks C) (protocol : Protocol n) (L : List (Block n))
    (node : Node C) : NodeAction n → Prop
  | .accept block => block ∈ U.blocks
  | .commit leaders => leaders <+: L.drop node.dag.lastCommitIndex ∧ ∀ k l, leaders[k]? = some l →
      DagState.HasHistory U node.dag (gcRoundBefore protocol L (node.dag.lastCommitIndex + k)) l
  | _ => True

namespace Node

variable {L : List (Block n)} {node node' : Node C}

variable (U protocol L) in
/-- The sub-dag of one of the leaders. -/
def Produced (sub : CommittedSubDag n) : Prop :=
  ∃ H e, Linearizes U protocol (L.take H.length) H ∧ H.length ≤ L.length ∧ e ∈ H ∧ e.1 = sub

variable (U protocol L node) in
structure FollowsInv : Prop where
  persisted : ∃ H m, DagState.Persisted U protocol L H m node.dag
  produced : ∀ sub ∈ node.output, Produced U protocol L sub

section Inv

variable (hdepth : 0 < protocol.gcDepth) (hL : LeaderSequence U L)

include hdepth hL

theorem followsInv_of_init (h : (machine C protocol).init node) : FollowsInv U protocol L node := by
  obtain ⟨context, hc, hnew, _, ho⟩ := h
  refine ⟨⟨[], 0, ?_⟩, by simp [ho]⟩
  exact DagState.persisted_of_new hdepth hL (by simpa using .nil) (Nat.zero_le _) hc
    (by simp [Store.empty]) ⟨by simp [Store.empty], by simp⟩ hnew

theorem FollowsInv.handleCommit {H : CommitHistory n} {m : ℕ}
    (h : DagState.Persisted U protocol L H m node.dag) {leaders : List (Block n)}
    (hf : NodeAction.Follows U protocol L node (.commit leaders)) :
    ∃ d more, node.dag.handleCommit leaders = .ok (d, more.map Prod.fst) ∧
      more.length = leaders.length ∧ DagState.Persisted U protocol L (H ++ more) m d := by
  obtain ⟨hb, hh⟩ := hf
  rw [h.lastCommitIndex_eq hdepth hL] at hb hh
  obtain ⟨d, more, hd, hl, hp, _⟩ := h.handleCommit hdepth hL hb hh []
  exact ⟨d, more, hd, hl, hp⟩

theorem FollowsInv.step (h : FollowsInv U protocol L node) {action : NodeAction n}
    (hfoll : action.Follows U protocol L node) (hstep : node.step action = .ok node') :
    FollowsInv U protocol L node' := by
  obtain ⟨⟨H, m, hpers⟩, hprod⟩ := h
  cases action with
  | accept block =>
    obtain ⟨d, hd, hnode⟩ := bind_ok.1 hstep
    cases hnode
    exact ⟨⟨H, m, hpers.acceptBlock hfoll hd⟩, hprod⟩
  | commit leaders =>
    obtain ⟨⟨d, subs⟩, hd, hnode⟩ := bind_ok.1 hstep
    cases hnode
    obtain ⟨d', more, hd', _, hpers'⟩ := FollowsInv.handleCommit hdepth hL hpers hfoll
    cases hd.symm.trans hd'
    refine ⟨⟨_, m, hpers'⟩, fun sub hsub => ?_⟩
    rcases mem_append.1 hsub with hold | hnew
    · exact hprod sub hold
    · obtain ⟨e, he, rfl⟩ := mem_map.1 hnew
      exact ⟨_, e, hpers'.linearizes, hpers'.length_le, mem_append_right _ he, rfl⟩
  | score =>
    obtain ⟨d, hd, hnode⟩ := bind_ok.1 hstep
    cases hnode
    obtain ⟨scoring, _, hd⟩ := bind_ok.1 hd
    cases hd
    exact ⟨⟨H, m, hpers.withScores⟩, hprod⟩
  | updateLeaderSchedule =>
    obtain ⟨d, hd, hnode⟩ := bind_ok.1 hstep
    cases hnode
    obtain ⟨scores, commit, _, _, rfl⟩ := DagState.updateLeaderSchedule_ok hd
    exact ⟨⟨H, m, hpers.withScores⟩, hprod⟩
  | finalize commitRef rejectedTransactions =>
    cases hstep
    exact ⟨⟨H, m, hpers.withScores⟩, hprod⟩
  | flush =>
    cases hstep
    exact ⟨⟨H, H.length, hpers.flush hdepth hL⟩, hprod⟩
  | restart =>
    obtain ⟨d, hd, hnode⟩ := bind_ok.1 hstep
    cases hnode
    have hlength : (H.take m).length = m := by
      rw [length_take, Nat.min_eq_left hpers.stored_le]
    refine ⟨⟨H.take m, (H.take m).length, ?_⟩, hprod⟩
    refine DagState.persisted_of_new hdepth hL ?_ ?_ hpers.synced.protocol_eq
      hpers.synced.stored hpers.storedCommits hd
    · have htake := hpers.linearizes.take m
      rw [take_take, Nat.min_eq_left hpers.stored_le] at htake
      rw [hlength]
      exact htake
    · rw [hlength]
      exact hpers.stored_le.trans hpers.length_le

theorem followsInv_of_reach
    (h : (machine C protocol).Reach (fun node action => action.Follows U protocol L node) node) :
    FollowsInv U protocol L node :=
  h.invariant (fun _ => followsInv_of_init hdepth hL)
    fun _ _ _ hinv hf hs => hinv.step hdepth hL hf hs

variable {sub : CommittedSubDag n}

theorem Produced.spec (h : Produced U protocol L sub) :
    ∃ k l, sub.commitRef.index = k + 1 ∧ L[k]? = some l ∧ sub.leader = l.reference ∧
      sub.blocks.Nodup ∧ ∀ b, b ∈ sub.blocks ↔
        ReachedBy U protocol L k b ∧ ∀ j < k, ¬ ReachedBy U protocol L j b := by
  obtain ⟨H, e, hlin, hle, he, rfl⟩ := h
  have hf := hlin.faithful hdepth (hL.take _)
  obtain ⟨k, hk⟩ := mem_iff_getElem?.1 he
  have hlt := (List.getElem?_eq_some_iff.1 hk).1
  obtain ⟨l, hl, hld, hc, hi, _⟩ := hf.entry k e hk
  refine ⟨k, l, ?_, ?_, hld, hf.nodup e he, fun b => ?_⟩
  · rw [hc]
    exact hi
  · rw [getElem?_take_of_lt hlt] at hl
    exact hl
  · rw [hf.mem_blocks k e hk b, reachedBy_take hlt hle]
    refine and_congr_right fun _ => forall₂_congr fun j hj => ?_
    rw [reachedBy_take (hj.trans hlt) hle]

/-- Two histories of one sequence have the same sub-dag at each index. -/
theorem Produced.unique {sub' : CommittedSubDag n} (h : Produced U protocol L sub)
    (h' : Produced U protocol L sub') (hindex : sub.commitRef.index = sub'.commitRef.index) :
    sub = sub' := by
  obtain ⟨H, e, hlin, _, he, rfl⟩ := h
  obtain ⟨H', e', hlin', _, he', rfl⟩ := h'
  -- the shorter history is a first part of the longer one
  have htake : ∀ {H H' : CommitHistory n}, Linearizes U protocol (L.take H.length) H →
      Linearizes U protocol (L.take H'.length) H' → H.length ≤ H'.length →
      H = H'.take H.length := by
    intro H H' hH hH' hle
    have htake := hH'.take H.length
    rw [take_take, Nat.min_eq_left hle] at htake
    exact hH.unique htake
  obtain ⟨k, hk⟩ := mem_iff_getElem?.1 he
  obtain ⟨k', hk'⟩ := mem_iff_getElem?.1 he'
  obtain ⟨_, _, _, hcommitRef, hke, _⟩ := (hlin.faithful hdepth (hL.take _)).entry k e hk
  obtain ⟨_, _, _, hcommitRef', hke', _⟩ := (hlin'.faithful hdepth (hL.take _)).entry k' e' hk'
  rw [hcommitRef, hcommitRef'] at hindex
  obtain rfl : k = k' := by
    have heq : e.2.index = e'.2.index := hindex
    omega
  have hlt := (List.getElem?_eq_some_iff.1 hk).1
  have hlt' := (List.getElem?_eq_some_iff.1 hk').1
  rcases Nat.le_total H.length H'.length with hle | hle
  · rw [htake hlin hlin' hle, getElem?_take_of_lt hlt, hk'] at hk
    rw [Option.some.inj hk]
  · rw [htake hlin' hlin hle, getElem?_take_of_lt hlt', hk] at hk'
    rw [Option.some.inj hk']

end Inv

/-- **Linearization is view-independent.** Two validators follow the leader sequence, with other
blocks, batches, flushes and restarts of their own. After as many commits, a batch of leaders whose
histories both have gives both the same sub-dags; all sub-dags of one index that they ever return
are equal; and a sub-dag holds, once each, the blocks above the GC round that its leader is the
first to reach. -/
theorem linearization_view_independent (hdepth : 0 < protocol.gcDepth) (hL : LeaderSequence U L)
    (h : (machine C protocol).Reach (fun node action => action.Follows U protocol L node) node)
    (h' : (machine C protocol).Reach (fun node action => action.Follows U protocol L node) node') :
    (node.dag.lastCommitIndex = node'.dag.lastCommitIndex → ∀ leaders,
      NodeAction.Follows U protocol L node (.commit leaders) →
      NodeAction.Follows U protocol L node' (.commit leaders) →
      ∃ d d' subs, subs.length = leaders.length ∧ node.dag.handleCommit leaders = .ok (d, subs) ∧
        node'.dag.handleCommit leaders = .ok (d', subs)) ∧
    (∀ sub ∈ node.output, ∀ sub' ∈ node'.output,
      sub.commitRef.index = sub'.commitRef.index → sub = sub') ∧
    (∀ sub ∈ node.output, ∀ sub' ∈ node.output, ∀ b ∈ sub.blocks, b ∈ sub'.blocks → sub = sub') ∧
    (∀ sub ∈ node.output, ∃ k l, sub.commitRef.index = k + 1 ∧ L[k]? = some l ∧
      sub.leader = l.reference ∧ sub.blocks.Nodup ∧
      (∀ b ∈ sub.blocks, gcRoundBefore protocol L k < b.round) ∧
      ∀ b, b ∈ sub.blocks ↔
        ReachedBy U protocol L k b ∧ ∀ j < k, ¬ ReachedBy U protocol L j b) := by
  have hinv := followsInv_of_reach hdepth hL h
  have hinv' := followsInv_of_reach hdepth hL h'
  refine ⟨fun hindex leaders hfoll hfoll' => ?_, fun sub hsub sub' hsub' => ?_,
    fun sub hsub sub' hsub' b hb hb' => ?_, fun sub hsub => ?_⟩
  · obtain ⟨H, m, hpers⟩ := hinv.persisted
    obtain ⟨H', m', hpers'⟩ := hinv'.persisted
    rw [hpers.lastCommitIndex_eq hdepth hL, hpers'.lastCommitIndex_eq hdepth hL] at hindex
    obtain ⟨d, more, hd, hlength, hnext⟩ :=
      FollowsInv.handleCommit hdepth hL hpers hfoll
    obtain ⟨d', more', hd', hlength', hnext'⟩ :=
      FollowsInv.handleCommit hdepth hL hpers' hfoll'
    have hlin := hnext'.linearizes
    rw [length_append, ← hindex, hlength', ← hlength, ← length_append] at hlin
    have heq := hnext.linearizes.unique hlin
    obtain ⟨_, rfl⟩ := append_inj heq hindex
    exact ⟨d, d', more.map Prod.fst, by rw [length_map, hlength], hd, hd'⟩
  · exact (hinv.produced sub hsub).unique hdepth hL (hinv'.produced sub' hsub')
  · obtain ⟨k, l, hindex, _, _, _, hmem⟩ := (hinv.produced sub hsub).spec hdepth hL
    obtain ⟨k', l', hindex', _, _, _, hmem'⟩ := (hinv.produced sub' hsub').spec hdepth hL
    obtain ⟨hreached, hfirst⟩ := (hmem b).1 hb
    obtain ⟨hreached', hfirst'⟩ := (hmem' b).1 hb'
    obtain rfl : k = k' := by
      rcases Nat.lt_trichotomy k k' with hlt | heq | hlt
      · exact absurd hreached (hfirst' k hlt)
      · exact heq
      · exact absurd hreached' (hfirst k' hlt)
    exact (hinv.produced sub hsub).unique hdepth hL (hinv.produced sub' hsub')
      (hindex.trans hindex'.symm)
  · obtain ⟨k, l, hindex, hl, hleader, hnodup, hmem⟩ := (hinv.produced sub hsub).spec hdepth hL
    exact ⟨k, l, hindex, hl, hleader, hnodup, fun b hb => ((hmem b).1 hb).1.2.1, hmem⟩

/-! ## Two validators of the sample network -/

def sampleLeader : Block 4 := sampleBlock 1 (authority 1)

/-- Steps on the way to the commit of the first leader. -/
def SampleStep (node : Node fourAuthorities) : NodeAction 4 → Prop
  | .accept block => block ∈ sampleBlocks 5
  | .commit leaders => leaders = [sampleLeader] ∧ node.dag.lastCommitIndex = 0 ∧
      ∀ r ∈ sampleLeader.reference :: sampleLeader.ancestors, (node.dag.getBlock r).isSome
  | _ => True

instance (node : Node fourAuthorities) : ∀ action, Decidable (SampleStep node action)
  | .accept _ => inferInstanceAs (Decidable (_ ∈ _))
  | .commit _ => inferInstanceAs (Decidable (_ ∧ _))
  | .score | .updateLeaderSchedule | .finalize _ _ | .flush | .restart => .isTrue trivial

theorem sampleLeader_mem : sampleLeader ∈ sampleUniverse.blocks := by
  have h : sampleLeader ∈ sampleBlocks 5 := by decide +kernel
  exact h

theorem SampleStep.follows {node : Node fourAuthorities} {action : NodeAction 4}
    (h : SampleStep node action) :
    action.Follows sampleUniverse.toVerifiedBlocks sampleProtocol [sampleLeader] node := by
  cases action with
  | accept block => exact h
  | commit leaders =>
    obtain ⟨rfl, hi, hget⟩ := h
    refine ⟨by rw [hi]; exact prefix_rfl, fun k l hl => ?_⟩
    rw [getElem?_singleton] at hl
    split at hl
    · cases hl
      refine ⟨hget _ mem_cons_self, fun r hr hro => ?_, fun r hr _ => hget r (mem_cons_of_mem _ hr)⟩
      have hlt : r.round < 1 := sampleUniverse.round_lt_of_linked sampleLeader_mem hr
      omega
    · cases hl
  | _ => trivial

/-- A validator with the leader alone, and one that has more blocks and restarts on the way. -/
theorem linearization_view_independent_sample :
    ∃ node node' : Node fourAuthorities, node.output.length = 1 ∧ node'.output.length = 1 ∧
      node.dag.recentBlocks.entries.length = 1 ∧ node'.dag.recentBlocks.entries.length = 2 ∧
      ∀ sub ∈ node.output, ∀ sub' ∈ node'.output,
        sub.commitRef.index = sub'.commitRef.index → sub = sub' := by
  obtain ⟨node, hr, ho, hb⟩ := Machine.exists_reach
    (C := SampleStep)
    [.accept sampleLeader, .commit [sampleLeader]]
    (fun node => node.output.length = 1 ∧ node.dag.recentBlocks.entries.length = 1)
    (start_init ⟨0, sampleProtocol, 500⟩) (by decide +kernel)
  obtain ⟨node', hr', ho', hb'⟩ := Machine.exists_reach
    (C := SampleStep)
    [.accept (sampleBlock 1 2), .accept sampleLeader, .flush, .restart, .commit [sampleLeader]]
    (fun node => node.output.length = 1 ∧ node.dag.recentBlocks.entries.length = 2)
    (start_init ⟨0, sampleProtocol, 500⟩) (by decide +kernel)
  have hle : LeaderSequence sampleUniverse.toVerifiedBlocks [sampleLeader] :=
    ⟨fun l hl => by
      rw [mem_singleton.1 hl]
      exact sampleLeader_mem, by simp⟩
  have ha := linearization_view_independent (by decide : 0 < sampleProtocol.gcDepth) hle
    (hr.mono fun _ _ => SampleStep.follows) (hr'.mono fun _ _ => SampleStep.follows)
  exact ⟨node, node', ho, ho', hb, hb', ha.2.1⟩

end Node

end OneChain.Consensus
