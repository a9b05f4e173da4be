import OneChain.Consensus.DagState
import OneChain.Consensus.Dag

/-!
# What a validator holds of the DAG

A `View` is a DAG state whose blocks are blocks of the universe, together with their ancestors down
to the first round that is of interest. From there on the answers of the state are facts about the
blocks it holds:

* `View.mem_uncommittedAtSlot`, `View.uncommittedAtRound` — the blocks of a slot and of a round.
* `View.ancestorsAtRound` — the blocks of a round in the history of a block; the loop ends, finds
  every block it asks for, and collects what is linked, no matter what else the state holds.
-/

namespace OneChain.Consensus

open Lib List OrdMap DagState

variable {n : ℕ} {C : Committee n} {U : BlockUniverse C} {d : DagState C} {first : ℕ}

/-- The block is in the state and is not a genesis block. -/
def DagState.Holds (d : DagState C) (b : Block n) : Prop :=
  b.round ≠ 0 ∧ d.getBlock b.reference = some b

/-- The blocks in the state. -/
def DagState.held (d : DagState C) : Set (Block n) := fun b => d.Holds b

structure View (U : BlockUniverse C) (d : DagState C) (first : ℕ) : Prop where
  cached : ∀ r info, d.recentBlocks.get? r = some info →
    info.block ∈ U.blocks ∧ info.block.reference = r
  stored : ∀ r b, d.store.blocks.get? r = some b → b ∈ U.blocks ∧ b.reference = r
  genesis : ∀ r b, d.genesis.get? r = some b → b.reference = r
  closed : ∀ b, d.Holds b → ∀ r ∈ b.ancestors, r.round ≠ 0 →
    d.gcRound < r.round ∨ first ≤ r.round → (d.getBlock r).isSome
  uncommitted : ∀ b, d.Holds b → first ≤ b.round → b.reference ∈ d.recentBlocks
  highest_le : ∀ b, d.Holds b → b.round ≤ d.highestAcceptedRound
  highest_eq : d.highestAcceptedRound = 0 ∨ ∃ b, d.Holds b ∧ b.round = d.highestAcceptedRound

namespace View

variable {r : BlockRef n} {b : Block n} {linked : OrdSet (BlockRef n)}

section Held

variable (hv : View U d first)

include hv

theorem getBlock_eq (hr : r.round ≠ 0) (h : d.getBlock r = some b) :
    b ∈ U.blocks ∧ b.reference = r ∧ d.Holds b := by
  have hmem : b ∈ U.blocks ∧ b.reference = r := by
    have hget := h
    rw [getBlock, if_neg hr] at hget
    cases hrec : d.recentBlocks.get? r with
    | some info =>
      rw [hrec] at hget
      cases hget
      exact hv.cached r info hrec
    | none =>
      rw [hrec] at hget
      exact hv.stored r b hget
  obtain ⟨hU, rfl⟩ := hmem
  exact ⟨hU, rfl, hr, h⟩

theorem subset : d.held ⊆ U.blocks := fun _ hb => (hv.getBlock_eq hb.1 hb.2).1

theorem holds_of_reference (hb : b ∈ U.blocks) (h : (d.getBlock b.reference).isSome) :
    d.Holds b := by
  have hr : b.reference.round ≠ 0 := (U.wellFormed hb).round_pos.ne'
  obtain ⟨b', hb'⟩ := Option.isSome_iff_exists.1 h
  obtain ⟨hU, href, hh⟩ := hv.getBlock_eq hr hb'
  rwa [← U.reference_injOn hU hb href]

theorem closedFrom : BlockUniverse.ClosedFrom d.held first := by
  intro b hb r hr hf hro
  obtain ⟨b', hb'⟩ := Option.isSome_iff_exists.1 (hv.closed b hb r hr hro (.inr hf))
  obtain ⟨_, href, hh⟩ := hv.getBlock_eq hro hb'
  exact ⟨b', hh, href⟩

theorem holds_ancestor {b' : Block n} (hb : d.Holds b) (hb' : b' ∈ U.blocks)
    (h : b'.reference ∈ b.ancestors) (hf : first ≤ b'.round) : d.Holds b' :=
  hv.holds_of_reference hb' (hv.closed b hb _ h (U.wellFormed hb').round_pos.ne' (.inr hf))

theorem getBlock_linked (hb : d.Holds b) (h : Linked U.blocks b r) (hf : first ≤ r.round)
    (hr : r.round ≠ 0) : (d.getBlock r).isSome := by
  induction h with
  | direct hmem => exact hv.closed _ hb _ hmem hr (.inr hf)
  | @trans b c r hmem hc hl ih =>
    have hlt := U.round_lt_of_linked hc hl
    exact ih (hv.holds_ancestor hb hc hmem (by omega)) hf hr

theorem holds_linked {b' : Block n} (hb : d.Holds b) (hb' : b' ∈ U.blocks)
    (h : Linked U.blocks b b'.reference) (hf : first ≤ b'.round) : d.Holds b' :=
  hv.holds_of_reference hb' (hv.getBlock_linked hb h hf (U.wellFormed hb').round_pos.ne')

/-! ## The cache -/

theorem holds_of_cached {info : BlockInfo n} (h : d.recentBlocks.get? r = some info) :
    d.Holds info.block := by
  obtain ⟨hU, rfl⟩ := hv.cached r info h
  have hr : info.block.round ≠ 0 := (U.wellFormed hU).round_pos.ne'
  refine ⟨hr, ?_⟩
  rw [getBlock, if_neg (by simpa using hr), h]

theorem mem_cachedWith {p : BlockRef n → Bool} (hp : p b.reference = true → first ≤ b.round) :
    b ∈ ((d.recentBlocks.filter fun r _ => p r).values).map BlockInfo.block ↔
      d.Holds b ∧ p b.reference = true := by
  simp only [mem_map, mem_values, get?_filter_eq_some]
  constructor
  · rintro ⟨info, ⟨r, hget, hr⟩, rfl⟩
    have hh := hv.holds_of_cached hget
    obtain ⟨_, rfl⟩ := hv.cached r info hget
    exact ⟨hh, hr⟩
  · rintro ⟨hb, hpb⟩
    obtain ⟨info, hget⟩ := mem_iff.1 (hv.uncommitted b hb (hp hpb))
    have heq : info.block = b := by
      obtain ⟨hU, href⟩ := hv.cached _ info hget
      exact U.reference_injOn hU (hv.subset hb) href
    exact ⟨info, ⟨b.reference, hget, hpb⟩, heq⟩

theorem nodup_cachedWith (p : BlockRef n → Bool) :
    (((d.recentBlocks.filter fun r _ => p r).values).map BlockInfo.block).Nodup := by
  have hk := (d.recentBlocks.filter fun r _ => p r).nodup_keys
  rw [values, map_map]
  refine List.Nodup.of_map Block.reference ?_
  rw [map_map]
  refine (map_congr_left fun e he => ?_) ▸ hk
  obtain ⟨r, info⟩ := e
  have hget := get?_filter_eq_some.1 (mem_entries.1 he)
  exact (hv.cached r info hget.1).2.symm

theorem mem_uncommittedAtSlot {slot : Slot n} (hs : first ≤ slot.round) :
    b ∈ d.getUncommittedBlocksAtSlot slot ↔ d.Holds b ∧ b.slot = slot := by
  rw [getUncommittedBlocksAtSlot, hv.mem_cachedWith, decide_eq_true_iff]
  · exact Iff.rfl
  · intro h
    have heq : b.slot = slot := of_decide_eq_true h
    subst heq
    exact hs

theorem nodup_uncommittedAtSlot (slot : Slot n) : (d.getUncommittedBlocksAtSlot slot).Nodup :=
  hv.nodup_cachedWith fun r => decide (r.slot = slot)

theorem uncommittedAtRound (round : ℕ) (hr : first ≤ round) (hl : d.lastCommitRound < round) :
    ∃ blocks, d.getUncommittedBlocksAtRound round = .ok blocks ∧
      ∀ b, b ∈ blocks ↔ d.Holds b ∧ b.round = round := by
  refine ⟨((d.recentBlocks.filter fun r _ => decide (r.round = round)).values).map
    BlockInfo.block, ?_, fun b => ?_⟩
  · rw [getUncommittedBlocksAtRound, check_of hl, ok_bind, pure_ok]
  · rw [hv.mem_cachedWith, decide_eq_true_iff]
    · exact Iff.rfl
    · intro h
      have heq : b.round = round := of_decide_eq_true h
      omega

end Held

/-- A state with nothing in the store is checked entry by entry. -/
theorem of_cache (hstore : d.store.blocks.entries = [])
    (hcached : ∀ e ∈ d.recentBlocks.entries, e.2.block ∈ U.blocks ∧ e.2.block.reference = e.1)
    (hgen : ∀ e ∈ d.genesis.entries, e.2.reference = e.1)
    (hclosed : ∀ e ∈ d.recentBlocks.entries, ∀ r ∈ e.2.block.ancestors, r.round ≠ 0 →
      r ∈ d.recentBlocks)
    (hle : ∀ e ∈ d.recentBlocks.entries, e.2.block.round ≤ d.highestAcceptedRound)
    (heq : d.highestAcceptedRound = 0 ∨
      ∃ e ∈ d.recentBlocks.entries, e.2.block.round = d.highestAcceptedRound) :
    View U d first := by
  have hstored : ∀ r, d.store.blocks.get? r = none := fun r => by
    rw [get?, hstore]
    rfl
  have hentry : ∀ {b}, d.Holds b → ∃ e ∈ d.recentBlocks.entries, e.2.block = b ∧
      b.reference ∈ d.recentBlocks := by
    intro b hb
    have hget := hb.2
    rw [getBlock, if_neg (by simpa using hb.1), hstored] at hget
    cases hrec : d.recentBlocks.get? b.reference with
    | none => simp [hrec] at hget
    | some info =>
      rw [hrec] at hget
      exact ⟨_, mem_entries.2 hrec, Option.some.inj hget, mem_iff.2 ⟨info, hrec⟩⟩
  have hget : ∀ r, r.round ≠ 0 → r ∈ d.recentBlocks → (d.getBlock r).isSome := by
    intro r hr hmem
    obtain ⟨info, hinfo⟩ := mem_iff.1 hmem
    rw [getBlock, if_neg hr, hinfo]
    rfl
  refine ⟨fun r info h => hcached _ (mem_entries.2 h), fun r b h => ?_,
    fun r b h => hgen _ (mem_entries.2 h), fun b hb r hr hround _ => ?_,
    fun b hb _ => ?_, fun b hb => ?_, ?_⟩
  · rw [hstored r] at h
    cases h
  · obtain ⟨e, he, rfl, _⟩ := hentry hb
    exact hget r hround (hclosed e he r hr hround)
  · obtain ⟨_, _, _, hmem⟩ := hentry hb
    exact hmem
  · obtain ⟨e, he, rfl, _⟩ := hentry hb
    exact hle e he
  · refine heq.imp_right ?_
    rintro ⟨e, he, hround⟩
    obtain ⟨hU, href⟩ := hcached e he
    refine ⟨e.2.block, ⟨(U.wellFormed hU).round_pos.ne', ?_⟩, hround⟩
    rw [href, getBlock, if_neg (by rw [← href]; exact (U.wellFormed hU).round_pos.ne'),
      mem_entries.1 he]

/-! ## Ancestors at a round -/

theorem mem_insertAll {s : OrdSet (BlockRef n)} {refs : List (BlockRef n)} :
    r ∈ DagState.insertAll s refs ↔ r ∈ refs ∨ r ∈ s := by
  unfold insertAll
  induction refs generalizing s with
  | nil => simp
  | cons a refs ih =>
    rw [foldl_cons, ih, mem_insert, mem_cons]
    tauto

/-- A reference of the set, or one that is linked from a block of the set. -/
def LinkedFrom (U : BlockUniverse C) (linked : OrdSet (BlockRef n)) (r : BlockRef n) : Prop :=
  r ∈ linked ∨ ∃ b ∈ U.blocks, b.reference ∈ linked ∧ Linked U.blocks b r

theorem linked_iff : Linked U.blocks b r ↔ r ∈ b.ancestors ∨
      ∃ b' ∈ U.blocks, b'.reference ∈ b.ancestors ∧ Linked U.blocks b' r := by
  constructor
  · intro h
    cases h with
    | direct hr => exact .inl hr
    | trans hmem hb' hl => exact .inr ⟨_, hb', hmem, hl⟩
  · rintro (hr | ⟨b', hb', hmem, hl⟩)
    · exact .direct hr
    · exact .trans hmem hb' hl

/-- Replacing a block's reference by its ancestors keeps what is linked, the reference apart. -/
theorem linkedFrom_replace (hb : b ∈ U.blocks) (hmem : b.reference ∈ linked)
    (hne : r ≠ b.reference) :
    LinkedFrom U (DagState.insertAll (linked.erase b.reference) b.ancestors) r ↔
      LinkedFrom U linked r := by
  unfold LinkedFrom
  simp only [mem_insertAll, mem_erase]
  constructor
  · rintro ((hr | ⟨_, hr⟩) | ⟨c, hc, hcr | ⟨_, hcr⟩, hl⟩)
    · exact .inr ⟨b, hb, hmem, .direct hr⟩
    · exact .inl hr
    · exact .inr ⟨b, hb, hmem, .trans hcr hc hl⟩
    · exact .inr ⟨c, hc, hcr, hl⟩
  · rintro (hr | ⟨c, hc, hcr, hl⟩)
    · exact .inl (.inr ⟨hne, hr⟩)
    · by_cases heq : c.reference = b.reference
      · cases U.reference_injOn hc hb heq
        rcases linked_iff.1 hl with hr | ⟨b', hb', hmem', hl'⟩
        · exact .inl (.inl hr)
        · exact .inr ⟨b', hb', .inl hmem', hl'⟩
      · exact .inr ⟨c, hc, .inr ⟨heq, hcr⟩, hl⟩

/-- The references in the state that are not above all of the set. -/
def remaining (d : DagState C) (linked : OrdSet (BlockRef n)) : Finset (BlockRef n) :=
  (d.recentBlocks.keys ++ d.store.blocks.keys).toFinset.filter fun r => ∃ s ∈ linked.keys, r ≤ s

theorem remaining_card_lt_fuel (linked : OrdSet (BlockRef n)) :
    (remaining d linked).card < d.fuel := by
  calc (remaining d linked).card ≤ (d.recentBlocks.keys ++ d.store.blocks.keys).toFinset.card :=
        Finset.card_le_card (Finset.filter_subset _ _)
    _ ≤ (d.recentBlocks.keys ++ d.store.blocks.keys).length := toFinset_card_le _
    _ < d.fuel := by simp [fuel, OrdMap.keys]

theorem mem_held_keys (h : d.Holds b) :
    b.reference ∈ d.recentBlocks.keys ++ d.store.blocks.keys := by
  have hget := h.2
  rw [getBlock, if_neg (by simpa using h.1)] at hget
  rw [mem_append, OrdMap.mem_keys, OrdMap.mem_keys, mem_iff, mem_iff]
  cases hrec : d.recentBlocks.get? b.reference with
  | some info => exact .inl ⟨info, rfl⟩
  | none =>
    rw [hrec] at hget
    exact .inr ⟨b, hget⟩

theorem remaining_replace (hb : b ∈ U.blocks) (hh : d.Holds b)
    (hl : ∀ s ∈ linked, s ≤ b.reference) (hmem : b.reference ∈ linked) :
    (remaining d (DagState.insertAll (linked.erase b.reference) b.ancestors)).card <
      (remaining d linked).card := by
  have hlt : ∀ s ∈ insertAll (linked.erase b.reference) b.ancestors, s < b.reference := by
    intro s hs
    rcases mem_insertAll.1 hs with hs | hs
    · exact BlockRef.lt_of_round_lt ((U.wellFormed hb).round_lt s hs)
    · obtain ⟨hne, hs⟩ := mem_erase.1 hs
      exact lt_of_le_of_ne (hl s hs) hne
  refine Finset.card_lt_card (Finset.ssubset_iff_of_subset ?_ |>.2 ⟨b.reference, ?_, ?_⟩)
  · intro r hr
    obtain ⟨hkey, s, hs, hle⟩ := Finset.mem_filter.1 hr
    have hsb := hlt s (OrdMap.mem_keys.1 hs)
    exact Finset.mem_filter.2 ⟨hkey, b.reference, OrdMap.mem_keys.2 hmem, hle.trans hsb.le⟩
  · refine Finset.mem_filter.2 ⟨?_, b.reference, OrdMap.mem_keys.2 hmem, le_rfl⟩
    exact mem_toFinset.2 (mem_held_keys hh)
  · intro hr
    obtain ⟨_, s, hs, hle⟩ := Finset.mem_filter.1 hr
    exact absurd (hlt s (OrdMap.mem_keys.1 hs)) (not_lt.2 hle)

/-- The loop ends with what is linked at or below the round. The set holds only references that
the state can resolve, and fewer of them are left with every round of the loop. -/
theorem ancestorsLoop_ok (hv : View U d first) {earlier : ℕ} (hearl : first ≤ earlier) {fuel : ℕ}
    (hfuel : (remaining d linked).card < fuel)
    (hheld : ∀ r ∈ linked, earlier < r.round → (d.getBlock r).isSome) :
    ∃ linked', d.ancestorsLoop earlier fuel linked = .ok linked' ∧
      (∀ r ∈ linked', r.round ≤ earlier) ∧
      ∀ r, r.round ≤ earlier → (LinkedFrom U linked' r ↔ LinkedFrom U linked r) := by
  induction fuel generalizing linked with
  | zero => omega
  | succ fuel ih =>
    rw [ancestorsLoop]
    cases hlast : linked.last? with
    | none =>
      have hempty := last?_eq_none.1 hlast
      exact ⟨linked, rfl, fun r hr => absurd hr (hempty r), fun r _ => Iff.rfl⟩
    | some e =>
      obtain ⟨r, u⟩ := e
      obtain ⟨hget, hle⟩ := last?_eq_some hlast
      have hr : r ∈ linked := mem_iff.2 ⟨u, hget⟩
      by_cases hround : r.round ≤ earlier
      · refine ⟨linked, by simp only [if_pos hround], fun s hs => ?_, fun _ _ => Iff.rfl⟩
        exact le_trans (BlockRef.round_le_of_le (hle s hs)) hround
      · obtain ⟨b, hb⟩ := Option.isSome_iff_exists.1 (hheld r hr (by omega))
        obtain ⟨hU, rfl, hholds⟩ := hv.getBlock_eq (by omega) hb
        have hless := remaining_replace hU hholds hle hr
        have hheld' : ∀ s ∈ insertAll (linked.erase b.reference) b.ancestors,
            earlier < s.round → (d.getBlock s).isSome := by
          intro s hs hsr
          rcases mem_insertAll.1 hs with hs | hs
          · exact hv.closed b hholds s hs (by omega) (.inr (by omega))
          · exact hheld s (mem_erase.1 hs).2 hsr
        obtain ⟨linked', hloop, hrounds, hiff⟩ := ih (by omega) hheld'
        refine ⟨linked', ?_, hrounds, fun s hs => (hiff s hs).trans ?_⟩
        · simp only [if_neg hround, hb]
          exact hloop
        · exact linkedFrom_replace hU hr (by rintro rfl; exact hround hs)

theorem linkedFrom_ancestors :
    LinkedFrom U (DagState.insertAll .empty b.ancestors) r ↔ Linked U.blocks b r := by
  rw [linked_iff]
  unfold LinkedFrom
  simp [mem_insertAll]

/-- **The blocks at a round in the history of a block.** -/
theorem ancestorsAtRound (hv : View U d first) (earlier : ℕ) (hearl : first ≤ earlier)
    (hpos : 0 < earlier) {later : Block n} (hlater : d.Holds later) :
    ∃ blocks, d.ancestorsAtRound later earlier = .ok blocks ∧
      ∀ b, b ∈ blocks ↔ b ∈ U.blocks ∧ b.round = earlier ∧ Linked U.blocks later b.reference := by
  obtain ⟨linked, hloop, hrounds, hiff⟩ := hv.ancestorsLoop_ok hearl
    (remaining_card_lt_fuel (insertAll .empty later.ancestors)) (fun r hr hround => by
      have hmem : r ∈ later.ancestors := by simpa [mem_insertAll] using hr
      exact hv.closed later hlater r hmem (by omega) (.inr (by omega)))
  have hmem : ∀ r, r.round = earlier → (r ∈ linked ↔ Linked U.blocks later r) := by
    intro r hr
    rw [← linkedFrom_ancestors, ← hiff r hr.le]
    refine ⟨.inl, ?_⟩
    rintro (h | ⟨b, hb, hbmem, hlink⟩)
    · exact h
    · have hlt := U.round_lt_of_linked hb hlink
      have hle := hrounds _ hbmem
      rw [Block.reference_round] at hle
      omega
  have hkeys : ∀ r, r ∈ (linked.filter fun r _ => decide (earlier ≤ r.round)).keys ↔
      r.round = earlier ∧ Linked U.blocks later r := by
    intro r
    rw [OrdMap.mem_keys, mem_def, get?_filter]
    constructor
    · intro h
      obtain ⟨u, hu⟩ := Option.isSome_iff_exists.1 h
      obtain ⟨hget, hround⟩ := Option.filter_eq_some_iff.1 hu
      have hr : r ∈ linked := mem_iff.2 ⟨u, hget⟩
      have heq : r.round = earlier := le_antisymm (hrounds r hr) (of_decide_eq_true hround)
      exact ⟨heq, (hmem r heq).1 hr⟩
    · rintro ⟨heq, hlink⟩
      obtain ⟨u, hu⟩ := mem_iff.1 ((hmem r heq).2 hlink)
      simp [hu, heq]
  have hheld : ∀ r ∈ (linked.filter fun r _ => decide (earlier ≤ r.round)).keys,
      (d.getBlock r).isSome := by
    intro r hr
    obtain ⟨hround, hlink⟩ := (hkeys r).1 hr
    exact hv.getBlock_linked hlater hlink (by omega) (by omega)
  refine ⟨(linked.filter fun r _ => decide (earlier ≤ r.round)).keys.filterMap d.getBlock, ?_, ?_⟩
  · rw [DagState.ancestorsAtRound, hloop]
    exact mapM_require hheld
  · intro b
    rw [mem_filterMap]
    constructor
    · rintro ⟨r, hr, hb⟩
      obtain ⟨hround, hlink⟩ := (hkeys r).1 hr
      obtain ⟨hU, rfl, _⟩ := hv.getBlock_eq (by omega) hb
      exact ⟨hU, hround, hlink⟩
    · rintro ⟨hU, hround, hlink⟩
      have hr := (hkeys b.reference).2 ⟨hround, hlink⟩
      exact ⟨b.reference, hr, (hv.holds_of_reference hU (hheld _ hr)).2⟩

end View

/-! ## A sample validator -/

def sampleProtocol : Protocol 4 where
  gcDepth := 60
  mysticetiNumLeadersPerRound := some 1
  genesisTimestampMs := 0
  genesisDigest := fun _ => 0
  commitDigest := fun commit => commit.index

/-- A validator that has accepted the blocks of the first rounds. -/
def sampleDag (rounds : ℕ) : DagState fourAuthorities where
  context := ⟨authority 0, sampleProtocol, 500⟩
  genesis := genesisMap fourAuthorities sampleProtocol
  recentBlocks := (sampleBlocks rounds).foldl (fun m b => m.insert b.reference (.new b)) .empty
  recentRefsByAuthority := fun a => ((sampleBlocks rounds).filter (·.author = a)).foldl
    (fun s b => s.insert b.reference ()) .empty
  thresholdClock := ⟨.new, rounds + 1⟩
  evictedRounds := fun _ => 0
  highestAcceptedRound := rounds
  lastCommit := none
  lastCommittedRounds := fun _ => 0
  scoringSubdag := .new
  pendingCommitVotes := []
  blocksToWrite := sampleBlocks rounds
  commitsToWrite := []
  commitInfoToWrite := []
  finalizedCommitsToWrite := []
  store := .empty
  cachedRounds := 500

theorem sampleDag_view {rounds : ℕ} (h : rounds = 4 ∨ rounds = 5) (first : ℕ) :
    View sampleUniverse (sampleDag rounds) first := by
  have hc : ∀ rounds ∈ [4, 5], ∀ e ∈ (sampleDag rounds).recentBlocks.entries,
      e.2.block ∈ sampleBlocks 5 ∧ e.2.block.reference = e.1 := by decide +kernel
  rcases h with rfl | rfl
  · exact View.of_cache rfl (hc 4 (by simp)) (by decide +kernel) (by decide +kernel)
      (by decide +kernel) (by decide +kernel)
  · exact View.of_cache rfl (hc 5 (by simp)) (by decide +kernel) (by decide +kernel)
      (by decide +kernel) (by decide +kernel)

end OneChain.Consensus
