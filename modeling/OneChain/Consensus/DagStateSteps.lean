import OneChain.Consensus.DagState

/-!
# What the operations do to the DAG state

One lemma per operation: the state after accepting a block (`acceptBlock_ok`) or updating the
leader schedule (`updateLeaderSchedule_ok`), and what an eviction leaves in the cache
(`Evicted`).
-/

namespace OneChain.Consensus

open Lib List OrdMap

variable {n : ℕ} {C : Committee n}

namespace DagState

variable {d d' : DagState C} {b : Block n}

/-! ## Accepting -/

/-- The state with one more block in the cache. -/
def withBlock (d : DagState C) (b : Block n) : DagState C :=
  { d with
    recentBlocks := d.recentBlocks.insert b.reference (.new b)
    recentRefsByAuthority := Function.update d.recentRefsByAuthority b.author
      ((d.recentRefsByAuthority b.author).insert b.reference ())
    thresholdClock := (d.thresholdClock.addBlock b.reference).1
    highestAcceptedRound := max d.highestAcceptedRound b.round }

theorem updateBlockMetadata_eq_ok (h : d.updateBlockMetadata b = .ok d') : d' = d.withBlock b := by
  unfold updateBlockMetadata at h
  by_cases hadv : (d.thresholdClock.addBlock b.reference).2 = true
  · simp only [hadv] at h
    obtain ⟨_, _, hp⟩ := bind_ok.1 h
    exact (Except.ok.inj hp).symm
  · simp only [hadv] at h
    exact (Except.ok.inj h).symm

/-- The block is new, or nothing happens. -/
theorem acceptBlock_ok (h : d.acceptBlock b = .ok d') :
    b.round ≠ 0 ∧ (d.containsBlock b.reference = true ∧ d' = d ∨
      d.containsBlock b.reference = false ∧
        d' = { d.withBlock b with blocksToWrite := d.blocksToWrite ++ [b] }) := by
  obtain ⟨_, hr, h⟩ := bind_ok.1 h
  refine ⟨check_ok.1 hr, ?_⟩
  cases hc : d.containsBlock b.reference with
  | true =>
    rw [hc] at h
    exact .inl ⟨rfl, (Except.ok.inj h).symm⟩
  | false =>
    rw [hc] at h
    obtain ⟨_, _, h⟩ := bind_ok.1 h
    obtain ⟨d₁, hd₁, h⟩ := bind_ok.1 h
    rw [updateBlockMetadata_eq_ok hd₁] at h
    exact .inr ⟨rfl, (Except.ok.inj h).symm⟩

theorem withBlock_recentBlocks (d : DagState C) (b : Block n) (r : BlockRef n) :
    (d.withBlock b).recentBlocks.get? r =
      if r = b.reference then some (.new b) else d.recentBlocks.get? r := by
  refine get?_insert.trans ?_
  congr

theorem mem_withBlock_refs (d : DagState C) (b : Block n) (a : Fin n) (r : BlockRef n) :
    r ∈ (d.withBlock b).recentRefsByAuthority a ↔
      (r = b.reference ∧ a = b.author) ∨ r ∈ d.recentRefsByAuthority a := by
  unfold withBlock
  by_cases ha : a = b.author
  · subst ha
    simp
  · simp [ha]

theorem mem_withBlock (d : DagState C) (b : Block n) (r : BlockRef n) :
    r ∈ (d.withBlock b).recentBlocks ↔ r = b.reference ∨ r ∈ d.recentBlocks :=
  mem_insert

/-- The cached references of an authority are those of its cached blocks. -/
def RefsCached (d : DagState C) : Prop :=
  ∀ a r, r ∈ d.recentRefsByAuthority a ↔ r.author = a ∧ r ∈ d.recentBlocks

theorem RefsCached.withBlock (h : d.RefsCached) (b : Block n) : (d.withBlock b).RefsCached := by
  intro a r
  rw [mem_withBlock_refs, mem_withBlock, h a r]
  constructor
  · rintro (⟨rfl, rfl⟩ | ⟨rfl, hr⟩)
    · exact ⟨rfl, .inl rfl⟩
    · exact ⟨rfl, .inr hr⟩
  · rintro ⟨rfl, rfl | hr⟩
    · exact .inl ⟨rfl, rfl⟩
    · exact .inr ⟨rfl, hr⟩

variable {r : BlockRef n}

theorem containsBlock_of_mem (h : r ∈ d.recentRefsByAuthority r.author) :
    d.containsBlock r = true := by
  rw [containsBlock, if_pos (.inl h)]

/-! ## The leader schedule -/

theorem updateLeaderSchedule_ok (h : d.updateLeaderSchedule = .ok d') :
    ∃ scores commit, d.scoringSubdag.calculateDistributedVoteScores = .ok scores ∧
      d.lastCommit = some commit ∧ d' = { d with
        scoringSubdag := .new
        commitInfoToWrite :=
          d.commitInfoToWrite ++ [(commit.reference, ⟨d.lastCommittedRounds, scores⟩)] } := by
  obtain ⟨scores, hs, h⟩ := bind_ok.1 h
  obtain ⟨_, _, h⟩ := bind_ok.1 h
  obtain ⟨commit, hc, h⟩ := bind_ok.1 h
  cases h
  exact ⟨scores, commit, hs, require_ok.1 hc, rfl⟩

/-! ## Evicting -/

theorem get?_foldl_erase {κ ν : Type} [LinearOrder κ] (l : List κ) (m : OrdMap κ ν) (k : κ) :
    (l.foldl OrdMap.erase m).get? k = if k ∈ l then none else m.get? k := by
  induction l generalizing m with
  | nil => simp
  | cons a l ih =>
    rw [foldl_cons, ih, get?_erase]
    by_cases ha : k = a
    · simp [ha]
    · simp [ha]

/-- The keys that are taken off are those up to the round. -/
theorem mem_takeWhile_keys {s : OrdSet (BlockRef n)} {e : ℕ} :
    r ∈ s.keys.takeWhile (fun r => decide (r.round ≤ e)) ↔ r ∈ s ∧ r.round ≤ e := by
  have hs : s.keys.Pairwise (· < ·) := pairwise_map.2 s.sorted
  rw [← OrdMap.mem_keys]
  generalize s.keys = l at hs
  induction l with
  | nil => simp
  | cons a l ih =>
    obtain ⟨ha, hl⟩ := pairwise_cons.1 hs
    by_cases hro : a.round ≤ e
    · rw [takeWhile_cons_of_pos (by simpa using hro), mem_cons, mem_cons,
        show _ ↔ _ from ih hl]
      constructor
      · rintro (rfl | ⟨hr, hle⟩)
        · exact ⟨.inl rfl, hro⟩
        · exact ⟨.inr hr, hle⟩
      · rintro ⟨rfl | hr, hle⟩
        · exact .inl rfl
        · exact .inr ⟨hr, hle⟩
    · rw [takeWhile_cons_of_neg (by simpa using hro)]
      simp only [not_mem_nil, mem_cons, false_iff]
      rintro (rfl | hr)
      · omega
      · have := BlockRef.round_le_of_le (ha r hr).le
        omega

theorem mem_popWhile_round {s : OrdSet (BlockRef n)} {e : ℕ} :
    r ∈ s.popWhile (fun r => decide (r.round ≤ e)) ↔ r ∈ s ∧ e < r.round := by
  have hd : ∀ {j k : BlockRef n}, j ≤ k → decide (k.round ≤ e) = true →
      decide (j.round ≤ e) = true := by
    intro j k hjk hk
    have hle := BlockRef.round_le_of_le hjk
    have := of_decide_eq_true hk
    exact decide_eq_true (by omega)
  rw [mem_def, get?_popWhile hd, mem_def]
  by_cases hr : r.round ≤ e
  · simp [hr]
  · simp [hr, not_le.1 hr]

theorem get?_evictAuthority (d : DagState C) (a : Fin n) (r : BlockRef n) :
    (d.evictAuthority a).recentBlocks.get? r =
      if r ∈ d.recentRefsByAuthority a ∧ r.round ≤ d.calculateAuthorityEvictionRound a then none
      else d.recentBlocks.get? r := by
  refine (get?_foldl_erase _ _ _).trans ?_
  simp only [mem_takeWhile_keys]

theorem update_eq_ite_mem {β : Type} {l : List (Fin n)} {f g : Fin n → β} {a c : Fin n}
    (hc : c ∉ l) : Function.update f a (g a) c = if c ∈ a :: l then g c else f c := by
  by_cases hca : c = a
  · simp [hca]
  · simp [hca, hc]

/-- The state after the eviction loop over some authorities. -/
structure Evicted (d : DagState C) (l : List (Fin n)) (d' : DagState C) : Prop where
  frame : d' = { d with
    recentBlocks := d'.recentBlocks
    recentRefsByAuthority := d'.recentRefsByAuthority
    evictedRounds := d'.evictedRounds }
  recentBlocks : ∀ r, d'.recentBlocks.get? r =
    if ∃ a ∈ l, r ∈ d.recentRefsByAuthority a ∧ r.round ≤ d.calculateAuthorityEvictionRound a
    then none else d.recentBlocks.get? r
  refs : ∀ a, d'.recentRefsByAuthority a = if a ∈ l then (d.recentRefsByAuthority a).popWhile
    (fun r => decide (r.round ≤ d.calculateAuthorityEvictionRound a)) else d.recentRefsByAuthority a
  rounds : ∀ a, d'.evictedRounds a =
    if a ∈ l then d.calculateAuthorityEvictionRound a else d.evictedRounds a

theorem evicted_foldl {l : List (Fin n)} (hl : l.Nodup) (d : DagState C) :
    Evicted d l (l.foldl evictAuthority d) := by
  induction l generalizing d with
  | nil => exact ⟨rfl, by simp, by simp, by simp⟩
  | cons a l ih =>
    obtain ⟨ha, hl⟩ := nodup_cons.1 hl
    have hr := ih hl (d.evictAuthority a)
    -- the eviction of one authority does not change the round of another one
    have hrefs : ∀ c ∈ l, (d.evictAuthority a).recentRefsByAuthority c =
        d.recentRefsByAuthority c := by
      intro c hc
      have hne : c ≠ a := fun heq => ha (heq ▸ hc)
      exact Function.update_of_ne hne _ _
    have hro : ∀ c ∈ l, (d.evictAuthority a).calculateAuthorityEvictionRound c =
        d.calculateAuthorityEvictionRound c := by
      intro c hc
      unfold calculateAuthorityEvictionRound
      rw [hrefs c hc]
      rfl
    rw [foldl_cons]
    refine ⟨?_, fun r => ?_, fun c => ?_, fun c => ?_⟩
    · rw [hr.frame]
      rfl
    · rw [hr.recentBlocks, get?_evictAuthority]
      have hiff : (∃ c ∈ l, r ∈ (d.evictAuthority a).recentRefsByAuthority c ∧
          r.round ≤ (d.evictAuthority a).calculateAuthorityEvictionRound c) ↔
          ∃ c ∈ l, r ∈ d.recentRefsByAuthority c ∧
            r.round ≤ d.calculateAuthorityEvictionRound c := by
        refine exists_congr fun c => and_congr_right fun hc => ?_
        rw [hrefs c hc, hro c hc]
      simp only [hiff, exists_mem_cons_iff]
      by_cases hl' : ∃ c ∈ l, r ∈ d.recentRefsByAuthority c ∧
          r.round ≤ d.calculateAuthorityEvictionRound c
      · rw [if_pos hl', if_pos (.inr hl')]
      · rw [if_neg hl']
        by_cases ha' : r ∈ d.recentRefsByAuthority a ∧ r.round ≤ d.calculateAuthorityEvictionRound a
        · rw [if_pos ha', if_pos (.inl ha')]
        · rw [if_neg ha', if_neg (not_or.2 ⟨ha', hl'⟩)]
    · rw [hr.refs]
      by_cases hc : c ∈ l
      · rw [if_pos hc, if_pos (mem_cons_of_mem _ hc), hrefs c hc, hro c hc]
      · rw [if_neg hc]
        exact update_eq_ite_mem (g := fun c => (d.recentRefsByAuthority c).popWhile
          fun r => decide (r.round ≤ d.calculateAuthorityEvictionRound c)) hc
    · rw [hr.rounds]
      by_cases hc : c ∈ l
      · rw [if_pos hc, if_pos (mem_cons_of_mem _ hc), hro c hc]
      · rw [if_neg hc]
        exact update_eq_ite_mem hc

section EvictedAll

variable (h : Evicted d (List.finRange n) d') (hrefs : d.RefsCached)

include h hrefs

theorem Evicted.mem_iff (r : BlockRef n) : r ∈ d'.recentBlocks ↔
    r ∈ d.recentBlocks ∧ d.calculateAuthorityEvictionRound r.author < r.round := by
  have hiff : (∃ a ∈ List.finRange n, r ∈ d.recentRefsByAuthority a ∧
      r.round ≤ d.calculateAuthorityEvictionRound a) ↔
      r ∈ d.recentBlocks ∧ r.round ≤ d.calculateAuthorityEvictionRound r.author := by
    constructor
    · rintro ⟨a, _, href, hro⟩
      obtain ⟨rfl, hr⟩ := (hrefs a r).1 href
      exact ⟨hr, hro⟩
    · rintro ⟨hr, hro⟩
      exact ⟨r.author, mem_finRange _, (hrefs _ r).2 ⟨rfl, hr⟩, hro⟩
  have hget := h.recentBlocks r
  simp only [hiff] at hget
  by_cases hout : r ∈ d.recentBlocks ∧ r.round ≤ d.calculateAuthorityEvictionRound r.author
  · rw [if_pos hout] at hget
    simp [mem_def, hget, hout.2]
  · rw [if_neg hout] at hget
    rw [mem_def, hget]
    exact ⟨fun hr => ⟨hr, not_le.1 fun hro => hout ⟨hr, hro⟩⟩, And.left⟩

theorem Evicted.refsCached : d'.RefsCached := by
  intro a r
  rw [h.refs, if_pos (mem_finRange a), mem_popWhile_round, h.mem_iff hrefs, hrefs a r, and_assoc]
  refine and_congr_right fun ha => ?_
  rw [ha]

end EvictedAll

/-- A commit that the state has already changes nothing. -/
theorem addCommit_cases {commit : TrustedCommit n} (h : d.addCommit commit = .ok d') :
    d' = d ∨ d.checkNextCommit commit = .ok () ∧ d' = d.withCommit commit := by
  rw [addCommit] at h
  split at h
  · cases h
    exact .inl rfl
  · obtain ⟨_, hc, h⟩ := bind_ok.1 h
    cases h
    exact .inr ⟨hc, rfl⟩

/-! ## Flushing -/

theorem flush_cases (d : DagState C) :
    d.flush = d ∧ d.withWritten = d ∨ Evicted d.withWritten (List.finRange n) d.flush := by
  rw [DagState.flush]
  by_cases hn : d.blocksToWrite = [] ∧ d.commitsToWrite = [] ∧ d.commitInfoToWrite.isEmpty ∧
      d.finalizedCommitsToWrite.isEmpty
  · rw [if_pos hn]
    obtain ⟨hb, hc, hi, hfin⟩ := hn
    refine .inl ⟨rfl, ?_⟩
    cases d
    cases hb
    cases hc
    cases isEmpty_iff.1 hi
    cases isEmpty_iff.1 hfin
    rfl
  · rw [if_neg hn]
    exact .inr (evicted_foldl (nodup_finRange n) _)

theorem flush_frame (d : DagState C) : d.flush = { d.withWritten with
    recentBlocks := d.flush.recentBlocks
    recentRefsByAuthority := d.flush.recentRefsByAuthority
    evictedRounds := d.flush.evictedRounds } := by
  rcases d.flush_cases with ⟨hf, hs⟩ | he
  · rw [hf, hs]
  · exact he.frame

end DagState

end OneChain.Consensus
