import OneChain.Consensus.CommitSequence
import OneChain.Consensus.RecoverySuccess

/-!
# What a DAG state knows

The references that a DAG state has ever been given (`Knows`), whether they are still in the cache
or only in the store. Above the GC round the answers of `contains_blocks` are exact
(`Knows.containsBlock_iff`). Accepting a block adds its reference; committing, scoring, recording
and flushing leave the set as it is. The only way for `accept_block` to panic on a verified block is
a second block of the validator's own in a slot (`OwnSlotTaken`).
-/

namespace OneChain.Consensus

open Lib List OrdMap DagState

variable {n : ℕ} {C : Committee n} {U : VerifiedBlocks C} {context : Context n}
  {K : Set (BlockRef n)}

theorem genesisMap_round {protocol : Protocol n} {r : BlockRef n} (h : r ∈ genesisMap C protocol) :
    r.round = genesisRound := by
  rcases mem_foldl_insert.1 h with ⟨b, hb, rfl⟩ | he
  · obtain ⟨author, _, rfl⟩ := mem_map.1 hb
    rfl
  · exact absurd he notMem_empty

/-- The references of the blocks. -/
def refsOf (blocks : List (Block n)) : Set (BlockRef n) := { r | ∃ b ∈ blocks, b.reference = r }

theorem refsOf_nil : refsOf ([] : List (Block n)) = ∅ := by
  simp [refsOf]

theorem union_refsOf_cons (b : Block n) (blocks : List (Block n)) :
    K ∪ refsOf (b :: blocks) = insert b.reference K ∪ refsOf blocks := by
  ext r
  simp only [refsOf, exists_mem_cons_iff, Set.mem_union, Set.mem_ofPred_eq, Set.mem_insert_iff]
  tauto

theorem union_refsOf_append (l l' : List (Block n)) :
    K ∪ refsOf (l ++ l') = K ∪ refsOf l ∪ refsOf l' := by
  ext r
  simp only [refsOf, mem_append, or_and_right, exists_or]
  exact or_assoc.symm

/-- The validator has two blocks in one slot. -/
def OwnSlotTaken (U : VerifiedBlocks C) (ownIndex : Fin n) (e : Panic n) : Prop :=
  ∃ b ∈ U.blocks, ∃ b' ∈ U.blocks, e = .ownSlotTaken b.reference ∧ b.author = ownIndex ∧ b' ≠ b ∧
    b'.slot = b.slot

namespace DagState

variable {d d' : DagState C}

/-! ## Known references -/

variable (U context K d) in
/-- The state has been given the blocks of the references `K`, the genesis blocks among them. -/
structure Knows : Prop where
  context_eq : d.context = context
  genesis_eq : d.genesis = genesisMap C context.protocol
  refs : ∀ a r, r ∈ d.recentRefsByAuthority a ↔ r.author = a ∧ r ∈ d.recentBlocks
  sound : ∀ r, r ∈ d.genesis ∨ r ∈ d.recentBlocks ∨ r ∈ d.store.blocks → r ∈ K
  unwritten : ∀ b ∈ d.blocksToWrite, b.reference ∈ K
  cached : ∀ r ∈ K, d.gcRound < r.round → r ∈ d.recentBlocks
  known : ∀ r ∈ K, r ∈ d.genesis ∨ ∃ b ∈ U.blocks, b.reference = r

variable {r : BlockRef n} {gcRound : ℕ} {out : DagState C × List (Block n)} {leader : Block n}
  {store : Store n}

section Blocks

variable (h : Knows U context K d)

include h

theorem Knows.containsBlock_sound (hr : d.containsBlock r = true) : r ∈ K := by
  rw [containsBlock] at hr
  split at hr
  · rename_i hmem
    rcases hmem with hrec | hgen
    · exact h.sound r (.inr (.inl ((h.refs _ _).1 hrec).2))
    · exact h.sound r (.inl hgen)
  · split at hr
    · cases hr
    · split at hr
      · cases hr
      · exact h.sound r (.inr (.inr (of_decide_eq_true hr)))

/-- **Above the GC round the state knows what it was given.** -/
theorem Knows.containsBlock_iff (hr : r.round = genesisRound ∨ d.gcRound < r.round) :
    d.containsBlock r = true ↔ r ∈ K := by
  refine ⟨h.containsBlock_sound, fun hK => ?_⟩
  rcases hr with hz | hro
  · rcases h.known r hK with hgen | ⟨b, hb, rfl⟩
    · rw [containsBlock, if_pos (.inr hgen)]
    · exact absurd hz (ne_of_gt (U.wellFormed hb).round_pos)
  · exact containsBlock_of_mem ((h.refs _ _).2 ⟨rfl, h.cached r hK hro⟩)

/-- A state that differs in marks, links, commits and records, with no lower GC round. -/
theorem Knows.congr (hc : d'.context = d.context) (hgen : d'.genesis = d.genesis)
    (hre : d'.recentRefsByAuthority = d.recentRefsByAuthority)
    (hrec : ∀ r, r ∈ d'.recentBlocks ↔ r ∈ d.recentBlocks) (hs : d'.store = d.store)
    (hw : d'.blocksToWrite = d.blocksToWrite) (hgc : d.gcRound ≤ d'.gcRound) :
    Knows U context K d' := by
  refine ⟨hc.trans h.context_eq, hgen.trans h.genesis_eq, fun a r => ?_, fun r hr => ?_,
    fun b hb => h.unwritten b (hw ▸ hb), fun r hK hr => ?_, fun r hK => ?_⟩
  · rw [hre, hrec]
    exact h.refs a r
  · rw [hgen, hrec, hs] at hr
    exact h.sound r hr
  · exact (hrec r).2 (h.cached r hK (lt_of_le_of_lt hgc hr))
  · rw [hgen]
    exact h.known r hK

/-! ## Accepting -/

theorem Knows.withBlock {b : Block n} (hb : b ∈ U.blocks) : Knows U context (insert b.reference K)
      { d.withBlock b with blocksToWrite := d.blocksToWrite ++ [b] } := by
  have hrec := mem_withBlock d b
  refine ⟨h.context_eq, h.genesis_eq, RefsCached.withBlock h.refs b, fun r hr => ?_, fun c hc => ?_,
    fun r hK hr => ?_, fun r hK => ?_⟩
  · rcases hr with hgen | hr | hs
    · exact .inr (h.sound r (.inl hgen))
    · rcases (hrec r).1 hr with rfl | hr
      · exact .inl rfl
      · exact .inr (h.sound r (.inr (.inl hr)))
    · exact .inr (h.sound r (.inr (.inr hs)))
  · rcases mem_append.1 hc with hc | hc
    · exact .inr (h.unwritten c hc)
    · exact .inl (congrArg Block.reference (mem_singleton.1 hc))
  · refine (hrec r).2 ?_
    rcases hK with rfl | hK
    · exact .inl rfl
    · exact .inr (h.cached r hK hr)
  · rcases hK with rfl | hK
    · exact .inr ⟨b, hb, rfl⟩
    · exact h.known r hK

/-- Accepting a verified block: it is known afterwards, or the validator has equivocated. -/
theorem Knows.acceptBlock {b : Block n} (hb : b ∈ U.blocks) : Ends (d.acceptBlock b)
      (fun d' => Knows U context (insert b.reference K) d' ∧ d'.gcRound = d.gcRound)
      (OwnSlotTaken U context.ownIndex) := by
  have hpos : b.round ≠ 0 := ne_of_gt (U.wellFormed hb).round_pos
  rw [DagState.acceptBlock, check_of hpos]
  cases hco : d.containsBlock b.reference with
  | true =>
    refine ⟨?_, rfl⟩
    rw [Set.insert_eq_of_mem (h.containsBlock_sound hco)]
    exact h
  | false =>
    by_cases hs : b.author = d.context.ownIndex → d.getUncommittedBlocksAtSlot b.slot = []
    · rw [check_of hs, updateBlockMetadata_ok h.genesis_eq fun a r hr => ((h.refs a r).1 hr).2]
      exact ⟨h.withBlock hb, rfl⟩
    · obtain ⟨hown, hne⟩ := Classical.not_imp.1 hs
      rw [check_error.2 ⟨hs, rfl⟩]
      -- the block found in the slot is a verified one and differs from the new one
      obtain ⟨c, hc⟩ := exists_mem_of_ne_nil _ hne
      obtain ⟨info, hi, rfl⟩ := mem_map.1 hc
      obtain ⟨r, hr⟩ := mem_values.1 hi
      rw [get?_filter_eq_some, decide_eq_true_eq] at hr
      have hrec : r ∈ d.recentBlocks := mem_iff.2 ⟨info, hr.1⟩
      have hro : r.round = b.round := congrArg Slot.round hr.2
      rcases h.known r (h.sound r (.inr (.inl hrec))) with hgen | ⟨b', hb', rfl⟩
      · rw [h.genesis_eq] at hgen
        exact absurd (hro.symm.trans (genesisMap_round hgen)) hpos
      · refine ⟨b, hb, b', hb', rfl, hown.trans (congrArg _ h.context_eq), ?_, hr.2⟩
        rintro rfl
        rw [containsBlock_of_mem ((h.refs _ _).2 ⟨rfl, hrec⟩)] at hco
        cases hco

theorem Knows.acceptBlocks {blocks : List (Block n)} (hb : ∀ b ∈ blocks, b ∈ U.blocks) :
    Ends (d.acceptBlocks blocks)
      (fun d' => Knows U context (K ∪ refsOf blocks) d' ∧ d'.gcRound = d.gcRound)
      (OwnSlotTaken U context.ownIndex) := by
  induction blocks generalizing d K with
  | nil => simpa [acceptBlocks, Ends, refsOf_nil] using h
  | cons b blocks ih =>
    refine (h.acceptBlock (hb b mem_cons_self)).bind fun d₁ hd₁ => ?_
    refine (ih hd₁.1 fun c hc => hb c (mem_cons_of_mem _ hc)).mono fun d' hd' => ?_
    rw [union_refsOf_cons]
    exact ⟨hd'.1, hd'.2.trans hd₁.2⟩

end Blocks

/-! ## Committing -/

/-- Only marks and links were changed. -/
structure SameCache (d d' : DagState C) : Prop where
  frame : d' = { d with recentBlocks := d'.recentBlocks }
  recent : ∀ r, r ∈ d'.recentBlocks ↔ r ∈ d.recentBlocks

theorem SameCache.refl (d : DagState C) : SameCache d d := ⟨rfl, fun _ => Iff.rfl⟩

theorem SameCache.trans {d'' : DagState C} (h : SameCache d d') (h' : SameCache d' d'') :
    SameCache d d'' := by
  refine ⟨?_, fun r => (h'.recent r).trans (h.recent r)⟩
  rw [h'.frame, h.frame]

theorem LinkedOnly.sameCache (h : LinkedOnly d d') : SameCache d d' := ⟨h.frame, fun _ => h.mem _⟩

theorem SameCache.knows (h : SameCache d d') (hd : Knows U context K d) : Knows U context K d' := by
  refine hd.congr ?_ ?_ ?_ h.recent ?_ ?_ ?_ <;> rw [h.frame]
  exact le_rfl

theorem markCommitted_sameCache (h : d.markCommitted r = .ok d') : SameCache d d' := by
  obtain ⟨⟨d₁, first⟩, hset, h⟩ := bind_ok.1 h
  obtain ⟨_, _, h⟩ := bind_ok.1 h
  cases h
  obtain ⟨info, hi, hset⟩ := bind_ok.1 hset
  rw [require_ok] at hi
  by_cases hc : info.committed = true
  · rw [if_pos hc] at hset
    cases hset
    exact .refl d
  · rw [if_neg hc] at hset
    cases hset
    refine ⟨rfl, fun s => mem_insert.trans ⟨?_, .inr⟩⟩
    rintro (rfl | hs)
    · exact mem_iff.2 ⟨info, hi⟩
    · exact hs

theorem markAll_sameCache {α : Type} {l : List α} (f : α → BlockRef n)
    (h : l.foldlM (fun d a => d.markCommitted (f a)) d = .ok d') : SameCache d d' :=
  foldlM_induction (fun _ _ _ _ hd₁ hs => hd₁.trans (markCommitted_sameCache hs)) (.refl d) h

theorem traverse_sameCache {fuel : ℕ} {buffer toCommit : List (Block n)}
    (h : traverse gcRound fuel d buffer toCommit = .ok out) : SameCache d out.1 := by
  induction fuel generalizing d buffer toCommit with
  | zero => cases h
  | succ fuel ih =>
    cases buffer with
    | nil =>
      cases h
      exact .refl d
    | cons x buffer =>
      obtain ⟨ancestors, _, h⟩ := bind_ok.1 h
      obtain ⟨d₁, hd₁, h⟩ := bind_ok.1 h
      exact (markAll_sameCache _ hd₁).trans (ih h)

theorem linearizeSubDag_sameCache (h : d.linearizeSubDag leader = .ok out) : SameCache d out.1 := by
  obtain ⟨d₁, hd₁, h⟩ := bind_ok.1 h
  obtain ⟨out₁, hout₁, h⟩ := bind_ok.1 h
  obtain ⟨_, _, h⟩ := bind_ok.1 h
  have ht : SameCache d₁ out₁.1 := traverse_sameCache hout₁
  cases h
  exact (markCommitted_sameCache hd₁).trans ht

variable {out : DagState C × List (CommittedSubDag n)}

section

variable (h : Knows U context K d)
include h

/-- A leader that is not below the last one keeps what is known, and becomes the last one unless its
commit is ignored. -/
theorem Knows.commitLeader (hl : d.lastCommitRound ≤ leader.round) {subs : List (CommittedSubDag n)}
    (hs : DagState.commitLeader (d, subs) leader = .ok out) :
    Knows U context K out.1 ∧ d.lastCommitRound ≤ out.1.lastCommitRound ∧
      out.1.lastCommitRound ≤ leader.round := by
  obtain ⟨collected, hc, hs⟩ := bind_ok.1 hs
  obtain ⟨d₂, hadd, hs⟩ := bind_ok.1 hs
  cases hs
  obtain ⟨⟨d₁, blocks⟩, hlin, hc⟩ := bind_ok.1 hc
  obtain ⟨timestampMs, _, hc⟩ := bind_ok.1 hc
  cases hc
  have hsa : SameCache d d₁ := linearizeSubDag_sameCache hlin
  have hd₁ := hsa.knows h
  have hr : d₁.lastCommitRound = d.lastCommitRound := by
    rw [hsa.frame]
    rfl
  change addCommit d₁ _ = .ok d₂ at hadd
  rcases addCommit_cases hadd with rfl | ⟨_, rfl⟩
  · exact ⟨hd₁, hr.ge, hr.trans_le hl⟩
  · refine ⟨hd₁.congr rfl rfl rfl (fun _ => Iff.rfl) rfl rfl ?_, hl, le_rfl⟩
    change d₁.lastCommitRound - d₁.context.protocol.gcDepth ≤
      leader.round - d₁.context.protocol.gcDepth
    omega

theorem Knows.handleCommit {leaders : List (Block n)}
    (hld : (leaders.map Block.round).Pairwise (· ≤ ·))
    (hla : ∀ l ∈ leaders, d.lastCommitRound ≤ l.round)
    (hs : d.handleCommit leaders = .ok out) :
    Knows U context K out.1 ∧ d.lastCommitRound ≤ out.1.lastCommitRound := by
  rw [DagState.handleCommit] at hs
  generalize ([] : List (CommittedSubDag n)) = subs at hs
  induction leaders generalizing d subs with
  | nil =>
    cases hs
    exact ⟨h, le_rfl⟩
  | cons leader leaders ih =>
    rw [foldlM_cons, bind_ok] at hs
    obtain ⟨⟨d₁, subs₁⟩, hf, hre⟩ := hs
    obtain ⟨hh, ht⟩ := pairwise_cons.1 hld
    obtain ⟨hd₁, hle, hr⟩ := h.commitLeader (hla leader mem_cons_self) hf
    obtain ⟨hd', hle'⟩ := ih hd₁ ht (fun l hl => hr.trans (hh _ (mem_map_of_mem hl))) subs₁ hre
    exact ⟨hd', hle.trans hle'⟩

/-! ## Flushing -/

/-- An eviction only drops what is not above the GC round. -/
theorem Knows.evicted (he : Evicted d (List.finRange n) d') : Knows U context K d' := by
  have hrec := he.mem_iff h.refs
  have hre := he.refsCached h.refs
  rw [he.frame]
  refine { h with refs := hre, sound := fun r hr => ?_, cached := fun r hK hr => ?_ }
  · refine h.sound r (hr.imp_right (Or.imp_left fun hr => ?_))
    exact ((hrec r).1 hr).1
  · exact (hrec r).2 ⟨h.cached r hK hr, (d.evictionRound_le r.author).trans_lt hr⟩

theorem Knows.flush : Knows U context K d.flush := by
  rcases d.flush_cases with ⟨hf, _⟩ | he
  · rwa [hf]
  · have hw : Knows U context K d.withWritten := by
      refine { h with sound := fun r hr => ?_, unwritten := fun b hb => nomatch hb }
      rcases hr with hgen | hr | hs
      · exact h.sound r (.inl hgen)
      · exact h.sound r (.inr (.inl hr))
      · rcases mem_foldl_insert.1 hs with ⟨b, hb, rfl⟩ | hs
        · exact h.unwritten b hb
        · exact h.sound r (.inr (.inr hs))
    exact hw.evicted he

end

theorem gcRound_flush (d : DagState C) : d.flush.gcRound = d.gcRound := by
  rw [flush_frame]
  rfl

/-! ## Recovery -/

theorem recoverStatuses_sameCache {index : ℕ} (h : recoverStatuses gcRound index d = .ok d') :
    SameCache d d' := by
  fun_induction recoverStatuses gcRound index d with
  | case1 | case2 =>
    cases h
    exact .refl _
  | case3 index d commit _ _ ih =>
    obtain ⟨d₁, hd₁, h⟩ := bind_ok.1 h
    refine (markAll_sameCache id hd₁).trans ?_
    split at h
    · cases h
      exact .refl _
    · split at h
      · cases h
        exact .refl _
      · exact ih _ h

/-- After the blocks are loaded, recovery only marks and links them. -/
theorem new_sameCache (hst : ∀ r b, store.blocks.get? r = some b → b.reference = r)
    (h : DagState.new C context store = .ok d) :
    ∃ rounds scoring d₁, Loaded (newWithoutBlocks C context store rounds scoring)
      (List.finRange n) d₁ ∧ SameCache d₁ d := by
  obtain ⟨rounds, scoring, d₁, d₂, hlo, hs, hl⟩ := new_eq_ok h
  refine ⟨rounds, scoring, d₁, loaded_new hst hlo, SameCache.trans ?_ hl.sameCache⟩
  rw [recoverCommitStatuses] at hs
  split at hs
  · exact recoverStatuses_sameCache hs
  · cases hs
    exact .refl d₁

/-- A validator with an empty store knows the genesis blocks, and its GC round is the first one. -/
theorem fresh_of_new (h : DagState.new C context .empty = .ok d) :
    d.gcRound = 0 ∧ (∀ r, r ∉ d.store.blocks) := by
  obtain ⟨rounds, scoring, d₁, hl, hs⟩ := new_sameCache (by simp [Store.empty]) h
  rw [hs.frame, hl.frame]
  refine ⟨Nat.zero_sub _, ?_⟩
  simp [newWithoutBlocks, Store.empty]

/-- A state that is rebuilt from a store of verified blocks knows them and the genesis blocks. -/
theorem knows_of_new (hs : ∀ r b, store.blocks.get? r = some b → b ∈ U.blocks ∧ b.reference = r)
    (h : DagState.new C context store = .ok d) :
    Knows U context { r | r ∈ d.genesis ∨ r ∈ d.store.blocks } d := by
  obtain ⟨rounds, scoring, d₁, hl, hsa⟩ := new_sameCache (fun r b hb => (hs r b hb).2) h
  have hset : { r : BlockRef n | r ∈ d.genesis ∨ r ∈ d.store.blocks } =
      { r | r ∈ genesisMap C context.protocol ∨ r ∈ store.blocks } := by
    rw [hsa.frame, hl.frame]
    rfl
  have hmem : ∀ r, r ∈ d₁.recentBlocks ↔
      (newWithoutBlocks C context store rounds scoring).recoveredRound r.author < r.round ∧
        r ∈ store.blocks :=
    fun r => hl.phases.mem_iff
  rw [hset]
  refine hsa.knows ?_
  rw [hl.frame]
  refine ⟨rfl, rfl, fun a r => hl.phases.refs, fun r hr => ?_, nofun, fun r hK hr => ?_,
    fun r hK => ?_⟩
  · rcases hr with hgen | hr | hr
    · exact .inl hgen
    · exact .inr ((hmem r).1 hr).2
    · exact .inr hr
  · refine (hmem r).2 ⟨lt_of_le_of_lt (min_le_left _ _) hr, hK.resolve_left fun hgen => ?_⟩
    rw [genesisMap_round hgen] at hr
    exact absurd hr (Nat.not_lt_zero _)
  · refine hK.imp_right fun hK => ?_
    obtain ⟨b, hb⟩ := mem_iff.1 hK
    exact ⟨b, hs r b hb⟩

end DagState

/-! ## Runs -/

/-- **The invariant rule for the steps of a validator**, whatever their arguments. -/
theorem Node.step_invariant {P : DagState C → Prop} {node node' : Node C} {action : NodeAction n}
    (haccept : ∀ d b, action = .accept b → P d → b.round ≠ 0 →
      P { d.withBlock b with blocksToWrite := d.blocksToWrite ++ [b] })
    (hmark : ∀ d d', P d → DagState.SameCache d d' → P d')
    (hadd : ∀ d commit, P d → d.checkNextCommit commit = .ok () → P (d.withCommit commit))
    (hrecord : ∀ d scoringSubdag commitInfoToWrite finalizedCommitsToWrite, P d →
      P { d with scoringSubdag, commitInfoToWrite, finalizedCommitsToWrite })
    (hflush : ∀ d, P d → P d.flush)
    (hnew : ∀ d d', action = .restart → P d → DagState.new C d.context d.store = .ok d' → P d')
    (h : P node.dag) (hstep : node.step action = .ok node') : P node'.dag := by
  cases action with
  | accept block =>
    obtain ⟨d, hd, hnode⟩ := bind_ok.1 hstep
    cases hnode
    obtain ⟨hround, ⟨_, rfl⟩ | ⟨_, rfl⟩⟩ := acceptBlock_ok hd
    · exact h
    · exact haccept _ block rfl h hround
  | commit leaders =>
    obtain ⟨out, hout, hnode⟩ := bind_ok.1 hstep
    cases hnode
    refine foldlM_induction (P := fun s => P s.1) (fun s s' leader _ hs hl => ?_) h hout
    obtain ⟨collected, hc, hl⟩ := bind_ok.1 hl
    obtain ⟨d₂, hd₂, hl⟩ := bind_ok.1 hl
    cases hl
    obtain ⟨⟨d₁, blocks⟩, hlin, hc⟩ := bind_ok.1 hc
    obtain ⟨_, _, hc⟩ := bind_ok.1 hc
    cases hc
    have hd₁ := hmark _ _ hs (linearizeSubDag_sameCache hlin)
    rcases DagState.addCommit_cases hd₂ with hsame | ⟨hcheck, hnext⟩
    · exact hsame ▸ hd₁
    · exact hnext ▸ hadd _ _ hd₁ hcheck
  | score =>
    obtain ⟨d, hd, hnode⟩ := bind_ok.1 hstep
    cases hnode
    obtain ⟨scoring, _, hd⟩ := bind_ok.1 hd
    cases hd
    exact hrecord _ _ _ _ h
  | updateLeaderSchedule =>
    obtain ⟨d, hd, hnode⟩ := bind_ok.1 hstep
    cases hnode
    obtain ⟨scores, commit, _, _, rfl⟩ := updateLeaderSchedule_ok hd
    exact hrecord _ _ _ _ h
  | finalize commitRef rejectedTransactions =>
    cases hstep
    exact hrecord _ _ _ _ h
  | flush =>
    cases hstep
    exact hflush _ h
  | restart =>
    obtain ⟨d, hd, hnode⟩ := bind_ok.1 hstep
    cases hnode
    exact hnew _ _ rfl h hd

end OneChain.Consensus
