import OneChain.Consensus.KnownBlocks
import OneChain.Consensus.StoreRecovery

/-!
# Which blocks exist

`contains_blocks` answers from the cache where it can, and looks into the store only for references
that are not above the last cached one of their author. Its answers are exact
(`Node.containsBlocks_spec`): every accepted block is in the cache, or it is in the store and the
cache has a block of its author that is not below it (`Placed`).
-/

namespace OneChain.Consensus

open Lib List OrdMap DagState

variable {n : ℕ} {C : Committee n}

namespace DagState

variable {d d' : DagState C} {r : BlockRef n}

/-- One answer for each reference; the source makes the lookups in the store together. -/
def containsBlocks (d : DagState C) (blockRefs : List (BlockRef n)) : List Bool :=
  blockRefs.map d.containsBlock

/-- The block was accepted, and not lost in a crash. -/
def Accepted (d : DagState C) (r : BlockRef n) : Prop :=
  r ∈ d.store.blocks ∨ ∃ b ∈ d.blocksToWrite, b.reference = r

/-- Where the accepted blocks are. -/
structure Placed (d : DagState C) : Prop where
  rounds : d.cachedRounds = d.context.dagStateCachedRounds
  keyed : ∀ r b, d.store.blocks.get? r = some b → b.reference = r
  positive : ∀ r, d.Accepted r → 0 < r.round
  refs : d.RefsCached
  cached : ∀ r ∈ d.recentBlocks, d.Accepted r
  stored : ∀ r, d.Accepted r → r ∈ d.recentBlocks ∨ r ∈ d.store.blocks
  top : 0 < d.cachedRounds → ∀ r, d.Accepted r →
    ∃ s ∈ d.recentBlocks, s.author = r.author ∧ r.round ≤ s.round

theorem Placed.containsBlock_iff (h : Placed d) (hpos : 0 < d.cachedRounds) :
    d.containsBlock r = true ↔ r ∈ d.genesis ∨ d.Accepted r := by
  rw [containsBlock]
  split
  · rename_i hmem
    refine iff_of_true rfl (hmem.symm.imp_right fun hr => ?_)
    exact h.cached r ((h.refs _ _).1 hr).2
  · rename_i hmem
    rw [not_or] at hmem
    have hrec : r ∉ d.recentBlocks := fun hr => hmem.1 ((h.refs _ _).2 ⟨rfl, hr⟩)
    have htop : d.Accepted r → ∃ s ∈ d.recentRefsByAuthority r.author, r.round ≤ s.round := by
      intro ha
      obtain ⟨s, hs, hauthor, hle⟩ := h.top hpos r ha
      exact ⟨s, (h.refs _ _).2 ⟨hauthor, hs⟩, hle⟩
    rw [or_iff_right hmem.2]
    split
    · rename_i hlast
      refine iff_of_false (by simp) fun ha => ?_
      obtain ⟨s, hs, _⟩ := htop ha
      exact last?_eq_none.1 hlast s hs
    · rename_i last _ hlast
      by_cases hlt : last.round < r.round
      · rw [if_pos hlt]
        refine iff_of_false (by simp) fun ha => ?_
        obtain ⟨s, hs, hle⟩ := htop ha
        have := BlockRef.round_le_of_le ((last?_eq_some hlast).2 s hs)
        omega
      · rw [if_neg hlt, decide_eq_true_eq]
        exact ⟨.inl, fun ha => (h.stored r ha).resolve_left hrec⟩

/-! ## Steps -/

theorem Placed.congr (h : Placed d) (hs : d'.store = d.store)
    (hw : d'.blocksToWrite = d.blocksToWrite) (hc : d'.context = d.context)
    (hrounds : d'.cachedRounds = d.cachedRounds)
    (hrefs : d'.recentRefsByAuthority = d.recentRefsByAuthority)
    (hrec : ∀ r, r ∈ d'.recentBlocks ↔ r ∈ d.recentBlocks) : Placed d' := by
  have ha : d'.Accepted = d.Accepted := by
    unfold Accepted
    rw [hs, hw]
  refine ⟨?_, ?_, ?_, fun a r => ?_, fun r hr => ?_, fun r hr => ?_, fun hpos r hr => ?_⟩
  · rw [hrounds, hc]
    exact h.rounds
  · rw [hs]
    exact h.keyed
  · rw [ha]
    exact h.positive
  · rw [hrefs, hrec]
    exact h.refs a r
  · rw [ha]
    exact h.cached r ((hrec r).1 hr)
  · rw [hrec, hs]
    exact h.stored r (ha ▸ hr)
  · obtain ⟨s, hs, hle⟩ := h.top (hrounds ▸ hpos) r (ha ▸ hr)
    exact ⟨s, (hrec s).2 hs, hle⟩

theorem accepted_withBlock {b : Block n} :
    Accepted { d.withBlock b with blocksToWrite := d.blocksToWrite ++ [b] } r ↔
      r = b.reference ∨ d.Accepted r := by
  simp only [Accepted, withBlock, mem_append, mem_singleton, or_and_right, exists_or,
    exists_eq_left, eq_comm (a := r)]
  rw [← or_assoc, or_comm]

theorem Placed.withBlock (h : Placed d) {b : Block n} (hb : b.round ≠ 0) :
    Placed { d.withBlock b with blocksToWrite := d.blocksToWrite ++ [b] } := by
  have ha := fun r => accepted_withBlock (d := d) (b := b) (r := r)
  have hrec := mem_withBlock d b
  refine ⟨h.rounds, h.keyed, fun r hr => ?_, RefsCached.withBlock h.refs b, fun r hr => ?_,
    fun r hr => ?_, fun hpos r hr => ?_⟩
  · rcases (ha r).1 hr with rfl | hr
    · exact Nat.pos_of_ne_zero hb
    · exact h.positive r hr
  · exact (ha r).2 (((hrec r).1 hr).imp_right (h.cached r))
  · rcases (ha r).1 hr with rfl | hr
    · exact .inl ((hrec _).2 (.inl rfl))
    · exact (h.stored r hr).imp_left fun hr => (hrec r).2 (.inr hr)
  · rcases (ha r).1 hr with rfl | hr
    · exact ⟨_, (hrec _).2 (.inl rfl), rfl, le_rfl⟩
    · obtain ⟨s, hs, hle⟩ := h.top hpos r hr
      exact ⟨s, (hrec s).2 (.inr hs), hle⟩

theorem accepted_withWritten : d.withWritten.Accepted r ↔ d.Accepted r := by
  simp [Accepted, withWritten, Store.write, mem_foldl_insert, or_comm]

/-- The last cached block of an author stays in the cache. -/
theorem Placed.flush (h : Placed d) : Placed d.flush := by
  rcases d.flush_cases with ⟨hf, _⟩ | he
  · rwa [hf]
  have hrec := he.mem_iff h.refs
  have hrefs := he.refsCached h.refs
  rw [he.frame] at hrec hrefs ⊢
  have hstore : ∀ r, d.Accepted r ↔ r ∈ d.withWritten.store.blocks := by
    intro r
    rw [← accepted_withWritten]
    simp [Accepted, withWritten]
  refine ⟨h.rounds, fun r b hb => ?_, fun r hr => h.positive r (accepted_withWritten.1 hr), hrefs,
    fun r hr => ?_, fun r hr => .inr ?_, fun hpos r hr => ?_⟩
  · rcases exists_of_get?_foldl_insert hb with ⟨_, _, rfl, rfl⟩ | hb
    · rfl
    · exact h.keyed r b hb
  · exact accepted_withWritten.2 (h.cached r ((hrec r).1 hr).1)
  · exact (hstore r).1 (accepted_withWritten.1 hr)
  · have ha := accepted_withWritten.1 hr
    obtain ⟨s, hs, hauthor, hle⟩ := h.top hpos r ha
    have hlast := isLastRound_last? (d.recentRefsByAuthority r.author)
    have hs := (h.refs _ _).2 ⟨hauthor, hs⟩
    obtain ⟨l, hl, hround, hlt⟩ :=
      hlast.exists_kept hs ((h.positive r ha).trans_le hle) hpos d.gcRound
    obtain ⟨hla, hl⟩ := (h.refs _ _).1 hl
    refine ⟨l, (hrec l).2 ⟨hl, ?_⟩, hla, (hle.trans (hlast.le s hs)).trans hround.ge⟩
    rw [calculateAuthorityEvictionRound_eq, hla]
    exact hlt

section New

variable {context : Context n} {store : Store n}
  (hkeyed : ∀ r b, store.blocks.get? r = some b → b.reference = r)
  (hnew : DagState.new C context store = .ok d')

include hkeyed hnew

theorem accepted_new : d'.Accepted r ↔ r ∈ store.blocks := by
  obtain ⟨rounds, scoring, d₁, hl, hsame⟩ := new_sameCache hkeyed hnew
  rw [hsame.frame, hl.frame]
  simp [Accepted, newWithoutBlocks]

theorem placed_new (hpositive : ∀ r ∈ store.blocks, 0 < r.round) : Placed d' := by
  obtain ⟨rounds, scoring, d₁, hl, hsame⟩ := new_sameCache hkeyed hnew
  have hstore : d₁.store = store ∧ d₁.blocksToWrite = [] := by
    rw [hl.frame]
    exact ⟨rfl, rfl⟩
  have ha : ∀ r, d₁.Accepted r ↔ r ∈ store.blocks := by
    simp [Accepted, hstore]
  have hmem : ∀ r, r ∈ d₁.recentBlocks ↔
      (newWithoutBlocks C context store rounds scoring).recoveredRound r.author < r.round ∧
        r ∈ store.blocks :=
    fun r => hl.phases.mem_iff
  have hplaced : Placed d₁ := by
    refine ⟨?_, hstore.1 ▸ hkeyed, fun r hr => hpositive r ((ha r).1 hr), fun a r => hl.phases.refs,
      fun r hr => (ha r).2 ((hmem r).1 hr).2, fun r hr => .inr (hstore.1 ▸ (ha r).1 hr),
      fun hpos r hr => ?_⟩
    · rw [hl.frame]
      rfl
    · have hlast := isLastRound_lastStoredRound hkeyed r.author
      have hr := (ha r).1 hr
      rw [hl.frame] at hpos
      obtain ⟨s, ⟨hs, hauthor⟩, hround, hlt⟩ := hlast.exists_kept ⟨hr, rfl⟩ (hpositive r hr) hpos _
      refine ⟨s, (hmem s).2 ⟨?_, hs⟩, hauthor, (hlast.le r ⟨hr, rfl⟩).trans hround.ge⟩
      rw [hauthor]
      exact hlt
  refine hplaced.congr ?_ ?_ ?_ ?_ ?_ hsame.recent <;> rw [hsame.frame]

end New

end DagState

namespace Node

variable {protocol : Protocol n} {node : Node C}

/-- **The answers of `contains_blocks` are exact**, whatever was evicted and flushed. The blocks
that they are about grow by the one that is accepted; a restart keeps those that are stored, and
nothing else changes them. -/
theorem containsBlocks_spec (hreach : (machine C protocol).Reach Machine.free node)
    (hpos : 0 < node.dag.cachedRounds) :
    (∀ blockRefs, Forall₂ (fun r exist => exist = true ↔ r ∈ node.dag.genesis ∨ node.dag.Accepted r)
      blockRefs (node.dag.containsBlocks blockRefs)) ∧
    (∀ block node', node.step (.accept block) = .ok node' → ∀ r,
      (r ∈ node'.dag.genesis ∨ node'.dag.Accepted r) ↔
        r = block.reference ∨ r ∈ node.dag.genesis ∨ node.dag.Accepted r) ∧
    (∀ node', node.step .restart = .ok node' →
      ∀ r, node'.dag.Accepted r ↔ r ∈ node.dag.store.blocks) ∧
    ∀ action node', (∀ block, action ≠ .accept block) → action ≠ .restart →
      node.step action = .ok node' → ∀ r, node'.dag.Accepted r ↔ node.dag.Accepted r := by
  have hplaced : node.dag.Placed := hreach.invariant
    (fun _ ⟨_, _, hn, _⟩ => placed_new (by simp [Store.empty]) hn (by simp [Store.empty]))
    fun _ _ _ hd _ hs => step_invariant (fun _ _ _ h hb => h.withBlock hb)
      (fun _ _ h hs => h.congr (by rw [hs.frame]) (by rw [hs.frame]) (by rw [hs.frame])
        (by rw [hs.frame]) (by rw [hs.frame]) hs.recent)
      (fun _ _ h _ => h.congr rfl rfl rfl rfl rfl fun _ => Iff.rfl)
      (fun _ _ _ _ h => h.congr rfl rfl rfl rfl rfl fun _ => Iff.rfl) (fun _ h => h.flush)
      (fun _ _ _ h hs => placed_new h.keyed hs fun r hr => h.positive r (.inl hr)) hd hs
  refine ⟨fun blockRefs => ?_, fun block node' hstep r => ?_, fun node' hstep r => ?_,
    fun action node' haccept hrestart hstep => ?_⟩
  · exact forall₂_map_right_iff.2 (forall₂_same.2 fun r _ => hplaced.containsBlock_iff hpos)
  · obtain ⟨d, hd, hnode⟩ := bind_ok.1 hstep
    cases hnode
    obtain ⟨_, ⟨hmem, rfl⟩ | ⟨_, rfl⟩⟩ := acceptBlock_ok hd
    · refine ⟨.inr, fun hr => hr.elim (fun heq => ?_) id⟩
      rw [heq]
      exact (hplaced.containsBlock_iff hpos).1 hmem
    · exact (or_congr_right accepted_withBlock).trans or_left_comm
  · obtain ⟨d, hd, hnode⟩ := bind_ok.1 hstep
    cases hnode
    exact accepted_new hplaced.keyed hd
  · refine step_invariant (P := fun d => ∀ r, d.Accepted r ↔ node.dag.Accepted r)
      (fun _ b ha => absurd ha (haccept b)) (fun d d' h hs r => ?_) (fun _ _ h _ => h)
      (fun _ _ _ _ h => h) (fun d h r => ?_) (fun _ _ hr => absurd hr hrestart)
      (fun _ => Iff.rfl) hstep
    · rw [hs.frame]
      exact h r
    · rw [flush_frame]
      exact accepted_withWritten.trans (h r)

theorem containsBlocks_spec_restart : ∃ node : Node fourAuthorities,
      (machine fourAuthorities sampleProtocol).Reach Machine.free node ∧
      Forall₂ (fun r exist => exist = true ↔ r ∈ node.dag.genesis ∨ node.dag.Accepted r)
        [⟨1, 1, 0⟩, ⟨2, 1, 0⟩] (node.dag.containsBlocks [⟨1, 1, 0⟩, ⟨2, 1, 0⟩]) :=
  Machine.exists_reach_imp [.accept (sampleBlock 1 1), .flush, .restart]
    (fun node => 0 < node.dag.cachedRounds) (start_init ⟨0, sampleProtocol, 1⟩) (by decide +kernel)
    fun _ hr hpos => (containsBlocks_spec hr hpos).1 _

end Node

end OneChain.Consensus
