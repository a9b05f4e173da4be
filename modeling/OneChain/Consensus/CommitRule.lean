import OneChain.Consensus.View
import OneChain.Consensus.BaseCommitter

/-!
# The commit rule for one slot

On a view, the loops of the base committer compute facts about blocks: a slot is blamed, a leader
block is supported, a leader block is certified in the history of an anchor. The caches, the early
returns and the counting of stake leave no trace, and nothing panics.

* `BaseCommitter.tryDirectDecide_ok` — the direct rule; at most one candidate is supported.
* `BaseCommitter.decideLeaderFromAnchor_ok` — the indirect rule; at most one leader is certified.
-/

namespace OneChain.Consensus

open Lib BlockUniverse List StakeAggregator Block

variable {n : ℕ} {C : Committee n} {U : BlockUniverse C} {d : DagState C} {first : ℕ}

/-! ## Counting authors -/

theorem quorumOf_list {P : Block n → Prop} {l : List (Block n)} (h : ∀ b, b ∈ l ↔ P b) :
    QuorumOf C P ↔ C.quorumThreshold ≤ ∑ a ∈ (l.map Block.author).toFinset, C.stake a := by
  have heq : authorsOf P = (l.map author).toFinset := by
    ext a
    simp only [mem_authorsOf, mem_toFinset, mem_map, h]
  rw [QuorumOf, heq]

theorem sum_toFinset_le (f : Fin n → ℕ) (l : List (Fin n)) :
    ∑ a ∈ l.toFinset, f a ≤ (l.map f).sum := by
  induction l with
  | nil => simp
  | cons a l ih =>
    rw [toFinset_cons, map_cons, sum_cons]
    by_cases h : a ∈ l.toFinset
    · rw [Finset.insert_eq_of_mem h]
      omega
    · rw [Finset.sum_insert h]
      omega

namespace BaseCommitter

/-! ## Votes -/

variable {slot : Slot n} {refs : List (BlockRef n)} {l : Block n} {vote : BlockRef n → Bool}
  {allVotes : VoteCache n} {blocks : List (Block n)} {agg : StakeAggregator C}

theorem searchAncestors_eq {recurse} (h : ∀ r ∈ refs, r.round ≤ slot.round) :
    searchAncestors d slot recurse refs = .ok (refs.find? fun r => r.slot = slot) := by
  induction refs with
  | nil => rfl
  | cons r refs ih =>
    rw [searchAncestors]
    by_cases hsl : r.slot = slot
    · simp [hsl]
    · rw [if_neg hsl, if_pos (h r mem_cons_self),
        ih fun s hs => h s (mem_cons_of_mem _ hs), find?_cons_of_neg (by simp [hsl])]

open Classical in
/-- A block at most one round above the leader votes for it when it links to it; the search does
not have to go further down. -/
theorem isVote_eq {v : Block n} (hv : v.WellFormed C) (hro : v.round ≤ l.round + 1) :
    isVote d v l = .ok (decide (Votes v l)) := by
  have hle : ∀ r ∈ v.ancestors, r.round ≤ l.slot.round := fun r hr => by
    have := hv.round_lt r hr
    change r.round ≤ l.round
    omega
  rw [isVote, findSupportedBlock]
  by_cases hlow : v.round < l.slot.round
  · have hne : ¬ Votes v l := fun h => by
      have : v.round = l.round + 1 := h.1
      have : v.round < l.round := hlow
      omega
    rw [if_pos hlow, ok_bind, decide_eq_false hne]
    rfl
  · rw [if_neg hlow, searchAncestors_eq hle, ok_bind, pure_ok]
    congr 1
    rw [decide_eq_decide]
    constructor
    · intro hf
      have hmem := mem_of_find?_eq_some hf
      have hlt := hv.round_lt _ hmem
      rw [reference_round] at hlt
      exact ⟨by omega, hmem⟩
    · rintro ⟨_, hmem⟩
      obtain ⟨r, hr⟩ : ∃ r, v.ancestors.find? (fun r => decide (r.slot = l.slot)) = some r :=
        Option.isSome_iff_exists.1 (find?_isSome.2 ⟨l.reference, hmem, by simp [slot]⟩)
      have hs : r.slot = l.slot := by simpa using find?_some hr
      rw [hr, hv.eq_of_author (mem_of_find?_eq_some hr) hmem (congrArg Slot.authority hs)]

/-- The reference is that of a vote for the leader. -/
def IsVoteRef (U : BlockUniverse C) (l : Block n) (r : BlockRef n) : Prop :=
  ∃ v ∈ U.blocks, v.reference = r ∧ Votes v l

open Classical in
theorem checkVote_eq (hv : View U d first) {c : Block n} (hc : d.Holds c) (hl : l ∈ U.blocks)
    (hfirst : first ≤ l.round) (hround : c.round = l.round + 2) {r : BlockRef n}
    (hr : r ∈ c.ancestors) : checkVote d l r = .ok (decide (IsVoteRef U l r)) := by
  have hlpos := (U.wellFormed hl).round_pos
  have hrlt := (U.wellFormed (hv.subset hc)).round_lt r hr
  rw [checkVote]
  cases hget : d.getBlock r with
  | some v =>
    by_cases hgen : r.round = 0
    · have hvr : v.reference = r := by
        rw [DagState.getBlock, if_pos hgen] at hget
        exact hv.genesis r v hget
      have hvround : v.round = 0 := by rw [← hgen, ← hvr]; rfl
      have hno : ¬ IsVoteRef U l r := by
        rintro ⟨w, _, rfl, hround', _⟩
        rw [reference_round] at hgen
        omega
      rw [decide_eq_false hno]
      simp only [isVote, findSupportedBlock]
      rw [if_pos (by change v.round < l.round; omega), ok_bind]
      rfl
    · obtain ⟨hvU, rfl, _⟩ := hv.getBlock_eq hgen hget
      rw [reference_round] at hrlt
      simp only
      rw [isVote_eq (U.wellFormed hvU) (by omega)]
      congr 1
      rw [decide_eq_decide]
      constructor
      · exact fun h => ⟨v, hvU, rfl, h⟩
      · rintro ⟨w, hw, href, h⟩
        rwa [← U.reference_injOn hw hvU href]
  | none =>
    have hgc : r.round ≤ d.gcRound := by
      by_contra hgc
      have := hv.closed c hc r hr (by omega) (.inl (not_le.1 hgc))
      simp [hget] at this
    have hno : ¬ IsVoteRef U l r := by
      rintro ⟨w, hw, rfl, hround', _⟩
      have := hv.holds_ancestor hc hw hr (by omega)
      simp [this.2] at hget
    simp only [check_of hgc, ok_bind, decide_eq_false hno]
    rfl

/-! ## Certificates -/

/-- The cache answers as the lookup would. -/
def CacheOk (vote : BlockRef n → Bool) (allVotes : VoteCache n) : Prop :=
  ∀ r v, allVotes.get? r = some v → v = vote r

theorem cacheOk_empty (vote : BlockRef n → Bool) : CacheOk vote .empty := by
  intro r v h
  simp at h

theorem lookupVote_eq (hc : CacheOk vote allVotes) {r : BlockRef n}
    (hr : checkVote d l r = .ok (vote r)) :
    ∃ allVotes', lookupVote d l allVotes r = .ok (vote r, allVotes') ∧ CacheOk vote allVotes' := by
  rw [lookupVote]
  cases hget : allVotes.get? r with
  | some v =>
    obtain rfl := hc r v hget
    exact ⟨allVotes, rfl, hc⟩
  | none =>
    exact ⟨allVotes.insert r (vote r), by simp only [hr, ok_bind, pure_ok],
      OrdMap.forall_get?_insert rfl hc⟩

theorem certificateLoop_eq (hv : ∀ r ∈ refs, checkVote d l r = .ok (vote r))
    (agg : StakeAggregator C) (hc : CacheOk vote allVotes) :
    ∃ allVotes', certificateLoop d l refs agg allVotes =
        .ok (agg.reaches ((refs.filter vote).map BlockRef.author), allVotes') ∧
      CacheOk vote allVotes' := by
  induction refs generalizing agg allVotes with
  | nil => exact ⟨allVotes, rfl, hc⟩
  | cons r refs ih =>
    obtain ⟨allVotes', hl, hc'⟩ := lookupVote_eq hc (hv r mem_cons_self)
    have hrs : ∀ s ∈ refs, checkVote d l s = .ok (vote s) := fun s hs => hv s (mem_cons_of_mem _ hs)
    simp only [certificateLoop, hl, ok_bind]
    by_cases hr : vote r = true
    · rw [if_pos hr, filter_cons_of_pos hr, map_cons, reaches]
      by_cases hre : (agg.add r.author).2 = true
      · rw [if_pos hre, if_pos hre]
        exact ⟨allVotes', rfl, hc'⟩
      · rw [if_neg hre, if_neg hre]
        exact ih hrs _ hc'
    · rw [if_neg hr, filter_cons_of_neg hr]
      exact ih hrs _ hc'

open Classical in
theorem isCertificate_eq (hv : View U d first) {c : Block n} (hc : d.Holds c) (hl : l ∈ U.blocks)
    (hf : first ≤ l.round) (hro : c.round = l.round + 2)
    (hca : CacheOk (fun r => decide (IsVoteRef U l r)) allVotes) :
    ∃ allVotes', isCertificate d c l allVotes = .ok (decide (U.Certifies c l), allVotes') ∧
      CacheOk (fun r => decide (IsVoteRef U l r)) allVotes' := by
  obtain ⟨allVotes', hlo, hc'⟩ := certificateLoop_eq
    (fun r hr => checkVote_eq hv hc hl hf hro hr) .new hca
  refine ⟨allVotes', ?_, hc'⟩
  rw [isCertificate, hlo]
  congr 2
  rw [Bool.eq_iff_iff, reaches_new, decide_eq_true_iff]
  have ha : ((c.ancestors.filter fun r => decide (IsVoteRef U l r)).map BlockRef.author).toFinset =
      authorsOf fun v => v ∈ U.blocks ∧ v.reference ∈ c.ancestors ∧ Votes v l := by
    ext a
    simp only [mem_toFinset, mem_map, mem_filter, decide_eq_true_iff, mem_authorsOf]
    constructor
    · rintro ⟨_, ⟨hmem, v, hv, rfl, hvo⟩, rfl⟩
      exact ⟨v, ⟨hv, hmem, hvo⟩, rfl⟩
    · rintro ⟨v, ⟨hv, hmem, hvo⟩, rfl⟩
      exact ⟨v.reference, ⟨hmem, v, hv, rfl, hvo⟩, rfl⟩
  rw [ha]
  exact ⟨fun h => ⟨hro, h⟩, fun h => h.2⟩

/-! ## The direct rule -/

theorem blameLoop_eq {leader : Fin n} : blameLoop leader blocks agg = agg.reaches
      ((blocks.filter fun b => ∀ r ∈ b.ancestors, r.author ≠ leader).map Block.author) := by
  induction blocks generalizing agg with
  | nil => rfl
  | cons b blocks ih =>
    rw [blameLoop]
    by_cases hb : ∀ r ∈ b.ancestors, r.author ≠ leader
    · rw [if_pos hb, filter_cons_of_pos (by simpa using hb), map_cons, reaches, ih]
    · rw [if_neg hb, filter_cons_of_neg (by simpa using hb), ih]

open Classical in
theorem enoughLeaderBlame_eq (hv : View U d first) (hf : first ≤ slot.round)
    (hl : d.lastCommitRound ≤ slot.round) :
    enoughLeaderBlame d (slot.round + 1) slot.authority = .ok (decide (Blamed C d.held slot)) := by
  obtain ⟨blocks, hb, hmem⟩ := hv.uncommittedAtRound (slot.round + 1) (by omega) (by omega)
  rw [enoughLeaderBlame, hb, ok_bind, pure_ok]
  congr 1
  rw [Bool.eq_iff_iff, blameLoop_eq, reaches_new, decide_eq_true_iff]
  refine (quorumOf_list fun b => ?_).symm
  simp only [mem_filter, hmem, decide_eq_true_iff, and_assoc]
  exact Iff.rfl

open Classical in
theorem supportLoop_eq (hv : View U d first) (hl : l ∈ U.blocks) (hf : first ≤ l.round)
    (hbl : ∀ b ∈ blocks, d.Holds b ∧ b.round = l.round + 2)
    (hca : CacheOk (fun r => decide (IsVoteRef U l r)) allVotes) :
    supportLoop d l blocks agg allVotes = .ok (agg.reaches
      ((blocks.filter fun c => decide (U.Certifies c l)).map Block.author)) := by
  induction blocks generalizing agg allVotes with
  | nil => rfl
  | cons b blocks ih =>
    obtain ⟨hb, hro⟩ := hbl b mem_cons_self
    obtain ⟨allVotes', hce, hc'⟩ := isCertificate_eq hv hb hl hf hro hca
    have hre : ∀ c ∈ blocks, d.Holds c ∧ c.round = l.round + 2 :=
      fun c hc => hbl c (mem_cons_of_mem _ hc)
    simp only [supportLoop, hce, ok_bind]
    by_cases h : U.Certifies b l
    · rw [if_pos (by simpa using h), filter_cons_of_pos (by simpa using h), map_cons, reaches]
      by_cases hr : (agg.add b.author).2 = true
      · rw [if_pos hr, if_pos hr, pure_ok]
      · rw [if_neg hr, if_neg hr, ih hre hc']
    · rw [if_neg (by simpa using h), filter_cons_of_neg (by simpa using h), ih hre hc']

open Classical in
theorem enoughLeaderSupport_eq (hv : View U d first) (hl : l ∈ U.blocks) (hf : first ≤ l.round)
    (hla : d.lastCommitRound ≤ l.round) :
    enoughLeaderSupport d (l.round + 2) l = .ok (decide (U.Supported d.held l)) := by
  obtain ⟨blocks, hbl, hmem⟩ := hv.uncommittedAtRound (l.round + 2) (by omega) (by omega)
  have hiff : U.Supported d.held l ↔ C.quorumThreshold ≤
      ∑ a ∈ ((blocks.filter fun c => decide (U.Certifies c l)).map author).toFinset, C.stake a := by
    refine quorumOf_list fun b => ?_
    simp only [mem_filter, hmem, decide_eq_true_iff]
    exact ⟨fun h => ⟨h.1.1, h.2⟩, fun h => ⟨⟨h.1, h.2.1⟩, h.2⟩⟩
  rw [enoughLeaderSupport, hbl, ok_bind]
  by_cases hq : C.reachedQuorum (blocks.map fun b => C.stake b.author).sum
  · rw [if_pos hq, supportLoop_eq hv hl hf (fun b hb => (hmem b).1 hb) (cacheOk_empty _)]
    congr 1
    rw [Bool.eq_iff_iff, reaches_new, decide_eq_true_iff, hiff]
  · rw [if_neg hq, pure_ok, decide_eq_false]
    intro h
    -- the authors of the certificates are among the authors of the round
    have hsub : ((blocks.filter fun c => decide (U.Certifies c l)).map author).toFinset ⊆
        (blocks.map author).toFinset := by
      intro a ha
      rw [mem_toFinset] at ha ⊢
      exact (filter_sublist.map _).subset ha
    have hle := sum_toFinset_le C.stake (blocks.map author)
    rw [map_map] at hle
    exact hq (le_trans (hiff.1 h) (le_trans (Finset.sum_le_sum_of_subset hsub) hle))

/-- Of leader blocks in one slot that are certified, one at most can be kept. -/
theorem length_filter_le_one {l : List (Block n)} (hl : l.Nodup) {p : Block n → Bool}
    (h : ∀ b ∈ l, ∀ b' ∈ l, p b = true → p b' = true → b = b') : (l.filter p).length ≤ 1 := by
  have hn := hl.filter p
  match hf : l.filter p with
  | [] => simp
  | [b] => simp
  | b :: b' :: rest =>
    have hmem : ∀ c ∈ b :: b' :: rest, c ∈ l ∧ p c = true := fun c hc => by
      rw [← hf] at hc
      exact mem_filter.1 hc
    have hb := hmem b (by simp)
    have hb' := hmem b' (by simp)
    rw [hf, h b hb.1 b' hb'.1 hb.2 hb'.2] at hn
    simp at hn

open Classical in
/-- At most one block of a slot passes a test that only certified blocks pass. -/
theorem certified_at_slot (hv : View U d first) (hfirst : first ≤ slot.round) {P : Block n → Prop}
    (hP : ∀ l, P l → ∃ c, U.Certifies c l) {kept : List (Block n)}
    (hkept : kept = (d.getUncommittedBlocksAtSlot slot).filter fun l => decide (P l)) :
    kept.length ≤ 1 ∧ ((∃ l ∈ d.held, l.slot = slot ∧ P l ∧ kept.getLast? = some l) ∨
        (∀ l ∈ d.held, l.slot = slot → ¬ P l) ∧ kept.getLast? = none) := by
  subst hkept
  have hslot := fun b => hv.mem_uncommittedAtSlot hfirst (b := b)
  constructor
  · refine length_filter_le_one (hv.nodup_uncommittedAtSlot slot) fun b hb b' hb' hs hs' => ?_
    obtain ⟨hholds, hbslot⟩ := (hslot b).1 hb
    obtain ⟨hholds', hbslot'⟩ := (hslot b').1 hb'
    obtain ⟨_, hcert⟩ := hP b (of_decide_eq_true hs)
    obtain ⟨_, hcert'⟩ := hP b' (of_decide_eq_true hs')
    exact certifies_unique (hv.subset hholds) (hv.subset hholds') (hbslot.trans hbslot'.symm)
      hcert hcert'
  · cases hlast? : ((d.getUncommittedBlocksAtSlot slot).filter fun l => decide (P l)).getLast? with
    | some l =>
      obtain ⟨hl, hpasses⟩ := mem_filter.1 (mem_of_getLast? hlast?)
      obtain ⟨hholds, hlslot⟩ := (hslot l).1 hl
      exact .inl ⟨l, hholds, hlslot, of_decide_eq_true hpasses, rfl⟩
    | none =>
      rw [getLast?_eq_none_iff, filter_eq_nil_iff] at hlast?
      refine .inr ⟨fun l hl hlslot hpasses => ?_, rfl⟩
      exact hlast? l ((hslot l).2 ⟨hl, hlslot⟩) (decide_eq_true hpasses)

/-- What the direct rule finds out. -/
inductive Direct (U : BlockUniverse C) (V : Set (Block n)) (slot : Slot n) : LeaderStatus n → Prop
  | skip : Blamed C V slot → Direct U V slot (.skip slot)
  | commit {l : Block n} : l ∈ V → l.slot = slot → U.Supported V l → Direct U V slot (.commit l)
  | undecided : ¬ Blamed C V slot → (∀ l ∈ V, l.slot = slot → ¬ U.Supported V l) →
      Direct U V slot (.undecided slot)

theorem tryDirectDecide_ok (hv : View U d first) {c : BaseCommitter} (hf : first ≤ slot.round)
    (hla : d.lastCommitRound ≤ slot.round)
    (hr : c.decisionRound (c.waveNumber slot.round) = slot.round + 2) :
    ∃ status, c.tryDirectDecide d slot = .ok status ∧ Direct U d.held slot status := by
  classical
  rw [tryDirectDecide, enoughLeaderBlame_eq hv hf hla, ok_bind]
  by_cases hb : Blamed C d.held slot
  · rw [if_pos (by simpa using hb)]
    exact ⟨.skip slot, rfl, .skip hb⟩
  · rw [if_neg (by simpa using hb)]
    have hs := fun b => hv.mem_uncommittedAtSlot hf (b := b)
    have hfi : filterE (enoughLeaderSupport d (slot.round + 2))
        (d.getUncommittedBlocksAtSlot slot) = .ok ((d.getUncommittedBlocksAtSlot slot).filter
          fun l => decide (U.Supported d.held l)) := by
      refine filterE_ok fun l hl => ?_
      obtain ⟨hh, rfl⟩ := (hs l).1 hl
      exact enoughLeaderSupport_eq hv (hv.subset hh) hf hla
    obtain ⟨hone, hla⟩ := certified_at_slot hv hf (P := U.Supported d.held) (fun l hl =>
      (exists_certifies_of_supported hl).imp fun _ => And.right) rfl
    simp only [hr, hfi, ok_bind, check_of hone]
    rcases hla with ⟨l, hhe, hls, hsu, hla⟩ | ⟨hn, hla⟩
    · rw [hla]
      exact ⟨.commit l, rfl, .commit hhe hls hsu⟩
    · rw [hla]
      exact ⟨.undecided slot, rfl, .undecided hb hn⟩

/-! ## The indirect rule -/

open Classical in
theorem anyCertificate_eq (hv : View U d first) (hl : l ∈ U.blocks) (hf : first ≤ l.round)
    (hbl : ∀ b ∈ blocks, d.Holds b ∧ b.round = l.round + 2)
    (hca : CacheOk (fun r => decide (IsVoteRef U l r)) allVotes) :
    anyCertificate d l blocks allVotes = .ok (decide (∃ c ∈ blocks, U.Certifies c l)) := by
  induction blocks generalizing allVotes with
  | nil => simp [anyCertificate]
  | cons b blocks ih =>
    obtain ⟨hb, hr⟩ := hbl b mem_cons_self
    obtain ⟨allVotes', hce, hc'⟩ := isCertificate_eq hv hb hl hf hr hca
    simp only [anyCertificate, hce, ok_bind]
    by_cases h : U.Certifies b l
    · rw [if_pos (by simpa using h), pure_ok, decide_eq_true]
      exact ⟨b, mem_cons_self, h⟩
    · rw [if_neg (by simpa using h), ih (fun c hc => hbl c (mem_cons_of_mem _ hc)) hc']
      simp [h]

/-- What the history of an anchor says about a slot. -/
inductive FromAnchor (U : BlockUniverse C) (V : Set (Block n)) (slot : Slot n) (anchor : Block n) :
    LeaderStatus n → Prop
  | commit {l : Block n} : l ∈ V → l.slot = slot → U.CertifiedBy anchor l →
      FromAnchor U V slot anchor (.commit l)
  | skip : (∀ l ∈ V, l.slot = slot → ¬ U.CertifiedBy anchor l) →
      FromAnchor U V slot anchor (.skip slot)

theorem decideLeaderFromAnchor_ok (hv : View U d first) {c : BaseCommitter}
    (hfirst : first ≤ slot.round)
    (hround : c.decisionRound (c.waveNumber slot.round) = slot.round + 2) {anchor : Block n}
    (hanchor : d.Holds anchor) :
    ∃ status, c.decideLeaderFromAnchor d anchor slot = .ok status ∧
      FromAnchor U d.held slot anchor status := by
  classical
  obtain ⟨blocks, hblocks, hmem⟩ := hv.ancestorsAtRound (slot.round + 2) (by omega)
    (by omega) hanchor
  have hslot := fun b => hv.mem_uncommittedAtSlot hfirst (b := b)
  have hcertified : ∀ l ∈ d.getUncommittedBlocksAtSlot slot,
      anyCertificate d l blocks .empty = .ok (decide (U.CertifiedBy anchor l)) := by
    intro l hl
    obtain ⟨hholds, rfl⟩ := (hslot l).1 hl
    rw [anyCertificate_eq hv (hv.subset hholds) hfirst (fun b hb => ?_) (cacheOk_empty _)]
    · congr 1
      rw [decide_eq_decide]
      constructor
      · rintro ⟨c, hc, hcert⟩
        obtain ⟨hcU, _, hlink⟩ := (hmem c).1 hc
        exact ⟨c, hcU, hlink, hcert⟩
      · rintro ⟨c, hcU, hlink, hcert⟩
        exact ⟨c, (hmem c).2 ⟨hcU, hcert.1, hlink⟩, hcert⟩
    · obtain ⟨hbU, hbr, hlink⟩ := (hmem b).1 hb
      exact ⟨hv.holds_linked hanchor hbU hlink (by omega), hbr⟩
  obtain ⟨hone, hlast⟩ := certified_at_slot hv hfirst (P := U.CertifiedBy anchor)
    (fun l ⟨c, _, _, hcert⟩ => ⟨c, hcert⟩) rfl
  simp only [decideLeaderFromAnchor, hround, hblocks, ok_bind, filterE_ok hcertified, check_of hone]
  rcases hlast with ⟨l, hheld, hlslot, hcert, hlast⟩ | ⟨hnone, hlast⟩
  · rw [hlast]
    exact ⟨.commit l, rfl, .commit hheld hlslot hcert⟩
  · rw [hlast]
    exact ⟨.skip slot, rfl, .skip hnone⟩

end BaseCommitter

end OneChain.Consensus
