import OneChain.Consensus.DagStateSteps
import OneChain.Consensus.Recovery
import OneChain.Consensus.LinearizerSteps

/-!
# What recovery finds in the store

The phases of `DagState::new`, each as a relation between the states before and after it.

* `Loaded` — the cache holds the stored blocks of each authority above its eviction round.
* `Marks` — the marks are the blocks of the stored commits above the GC round.
* `LinkedOnly` — the links change nothing else.
-/

namespace OneChain.Consensus

open Lib List OrdMap

variable {n : ℕ} {C : Committee n} {a : Fin n}

theorem Store.mem_scanBlocksByAuthor {store : Store n} {k : ℕ} {b : Block n} :
    b ∈ store.scanBlocksByAuthor a k ↔
      ∃ r, store.blocks.get? r = some b ∧ r.author = a ∧ k ≤ r.round := by
  simp only [Store.scanBlocksByAuthor, mem_values, get?_filter_eq_some, decide_eq_true_eq]

namespace DagState

variable {d d' : DagState C}

/-! ## Loading -/

variable {blocks : List (Block n)} {l : List (Fin n)} {d'' : DagState C} {context : Context n}
  {store : Store n} {H : CommitHistory n}

theorem recentBlocks_foldl_withBlock (blocks : List (Block n)) (d : DagState C) :
    (blocks.foldl withBlock d).recentBlocks =
      blocks.foldl (fun cache b => cache.insert b.reference (.new b)) d.recentBlocks :=
  (foldl_hom recentBlocks fun _ _ => rfl).symm

theorem mem_refs_foldl_withBlock (d : DagState C) (a : Fin n) (r : BlockRef n) :
    r ∈ (blocks.foldl withBlock d).recentRefsByAuthority a ↔
      (∃ b ∈ blocks, b.reference = r ∧ b.author = a) ∨ r ∈ d.recentRefsByAuthority a := by
  induction blocks generalizing d with
  | nil => simp
  | cons c blocks ih =>
    rw [foldl_cons, ih, mem_withBlock_refs, exists_mem_cons_iff, or_left_comm, or_assoc,
      eq_comm, eq_comm (a := a)]

theorem foldl_withBlock_frame (blocks : List (Block n)) (d : DagState C) :
    blocks.foldl withBlock d = { d with
      recentBlocks := (blocks.foldl withBlock d).recentBlocks
      recentRefsByAuthority := (blocks.foldl withBlock d).recentRefsByAuthority
      thresholdClock := (blocks.foldl withBlock d).thresholdClock
      highestAcceptedRound := (blocks.foldl withBlock d).highestAcceptedRound } := by
  induction blocks generalizing d with
  | nil => rfl
  | cons b blocks ih =>
    exact ih (d.withBlock b)

/-- The round up to which an authority's stored blocks stay in the store. -/
def recoveredRound (d : DagState C) (a : Fin n) : ℕ :=
  evictionRound (((d.store.scanLastBlocksByAuthor a 1).getLast?.map Block.round).getD genesisRound)
    d.gcRound d.cachedRounds

theorem recoverAuthority_ok (h : d.recoverAuthority a = .ok d') :
    d' = (d.store.scanBlocksByAuthor a (d.recoveredRound a + 1)).foldl withBlock
      { d with evictedRounds := Function.update d.evictedRounds a (d.recoveredRound a) } :=
  eq_foldl_of_foldlM (fun _ _ _ hs => updateBlockMetadata_eq_ok hs) h

/-- The state after the blocks of some authorities were loaded into an empty cache. -/
structure Loaded (d : DagState C) (l : List (Fin n)) (d' : DagState C) : Prop where
  frame : d' = { d with
    recentBlocks := d'.recentBlocks
    recentRefsByAuthority := d'.recentRefsByAuthority
    thresholdClock := d'.thresholdClock
    evictedRounds := d'.evictedRounds
    highestAcceptedRound := d'.highestAcceptedRound }
  recentBlocks : ∀ r, d'.recentBlocks.get? r =
    if r.author ∈ l ∧ d.recoveredRound r.author < r.round
    then (d.store.blocks.get? r).map BlockInfo.new else none
  refs : ∀ a r, r ∈ d'.recentRefsByAuthority a ↔
    a ∈ l ∧ r.author = a ∧ d.recoveredRound a < r.round ∧ r ∈ d.store.blocks
  rounds : ∀ a ∈ l, d'.evictedRounds a = d.recoveredRound a

theorem Loaded.recoveredRound_eq (h : Loaded d l d') (a : Fin n) :
    d'.recoveredRound a = d.recoveredRound a := by
  rw [h.frame]
  rfl

theorem Loaded.snoc (hstore : ∀ r b, d.store.blocks.get? r = some b → b.reference = r)
    (h : Loaded d l d') (hstep : d'.recoverAuthority a = .ok d'') :
    Loaded d (l ++ [a]) d'' := by
  have hscan : ∀ k, d'.store.scanBlocksByAuthor a k = d.store.scanBlocksByAuthor a k := by
    intro k
    rw [h.frame]
  have heq := recoverAuthority_ok hstep
  rw [h.recoveredRound_eq, hscan] at heq
  -- the blocks are the authority's stored blocks above the round
  have hblock : ∀ b, b ∈ d.store.scanBlocksByAuthor a (d.recoveredRound a + 1) ↔
      d.store.blocks.get? b.reference = some b ∧ b.author = a ∧ d.recoveredRound a < b.round := by
    intro b
    rw [Store.mem_scanBlocksByAuthor]
    constructor
    · rintro ⟨r, hget, hauthor, hround⟩
      obtain rfl := hstore r b hget
      exact ⟨hget, hauthor, hround⟩
    · rintro ⟨hget, hauthor, hround⟩
      exact ⟨b.reference, hget, hauthor, hround⟩
  have hmem : ∀ r, r ∈ (d.store.scanBlocksByAuthor a (d.recoveredRound a + 1)).map Block.reference ↔
      r ∈ d.store.blocks ∧ r.author = a ∧ d.recoveredRound a < r.round := by
    intro r
    rw [mem_map, mem_iff]
    constructor
    · rintro ⟨b, hb, rfl⟩
      obtain ⟨hstored, hrest⟩ := (hblock b).1 hb
      exact ⟨⟨b, hstored⟩, hrest⟩
    · rintro ⟨⟨b, hstored⟩, hrest⟩
      obtain rfl := hstore r b hstored
      exact ⟨b, (hblock b).2 ⟨hstored, hrest⟩, rfl⟩
  refine ⟨?_, fun r => ?_, fun c r => ?_, fun c hc => ?_⟩
  · rw [heq, foldl_withBlock_frame, h.frame]
  · rw [heq, recentBlocks_foldl_withBlock,
      get?_foldl_insert_of (o := (d.store.blocks.get? r).map .new) ?_ _]
    · simp only [h.recentBlocks, mem_append, mem_singleton, or_and_right]
      by_cases hr : r ∈ d.store.blocks
      · by_cases hra : r.author = a ∧ d.recoveredRound a < r.round
        · rw [if_pos ((hmem r).2 ⟨hr, hra⟩), if_pos (.inr ⟨hra.1, hra.1 ▸ hra.2⟩)]
        · rw [if_neg fun hm => hra ((hmem r).1 hm).2]
          congr 1
          refine eq_iff_iff.2 (or_iff_left ?_).symm
          rintro ⟨rfl, hround⟩
          exact hra ⟨rfl, hround⟩
      · rw [if_neg fun hm => hr ((hmem r).1 hm).1, notMem_iff.1 hr]
        simp
    · rintro b hb rfl
      rw [((hblock b).1 hb).1]
      rfl
  · rw [heq, mem_refs_foldl_withBlock]
    simp only [h.refs, hblock, mem_append, mem_singleton]
    constructor
    · rintro (⟨b, ⟨hstored, rfl, hround⟩, rfl, rfl⟩ | ⟨hcl, hrest⟩)
      · exact ⟨.inr rfl, rfl, hround, mem_iff.2 ⟨b, hstored⟩⟩
      · exact ⟨.inl hcl, hrest⟩
    · rintro ⟨hcl | rfl, hauthor, hround, hmem⟩
      · exact .inr ⟨hcl, hauthor, hround, hmem⟩
      · obtain ⟨b, hb⟩ := mem_iff.1 hmem
        obtain rfl := hstore r b hb
        exact .inl ⟨b, ⟨hb, hauthor, hround⟩, rfl, hauthor⟩
  · rw [heq, foldl_withBlock_frame]
    by_cases hca : c = a
    · subst hca
      exact Function.update_self _ _ _
    · refine (Function.update_of_ne hca _ _).trans (h.rounds c ?_)
      simpa [hca] using hc

theorem loaded_of_foldlM (hs : ∀ r b, d.store.blocks.get? r = some b → b.reference = r)
    (h₀ : Loaded d [] d) (h : l.foldlM recoverAuthority d = .ok d') :
    Loaded d l d' := by
  induction l using reverseRecOn generalizing d' with
  | nil =>
    cases h
    exact h₀
  | append_singleton l a ih =>
    rw [foldlM_append, bind_ok] at h
    obtain ⟨d₁, hd₁, h⟩ := h
    obtain ⟨d₂, hd₂, h⟩ := bind_ok.1 h
    cases h
    exact (ih hd₁).snoc hs hd₂

theorem loaded_new {rounds : Fin n → ℕ} {scoring : ScoringSubdag C}
    (hs : ∀ r b, store.blocks.get? r = some b → b.reference = r)
    (h : (List.finRange n).foldlM recoverAuthority
      (newWithoutBlocks C context store rounds scoring) = .ok d') :
    Loaded (newWithoutBlocks C context store rounds scoring) (List.finRange n) d' := by
  refine loaded_of_foldlM hs ⟨rfl, fun r => ?_, fun a r => ?_, by simp⟩ h
  · simp [newWithoutBlocks]
  · simp [newWithoutBlocks]

/-- No block is marked when it is loaded. -/
theorem Loaded.marks (h : Loaded d l d') (g : ℕ) : Marks d' g ∅ d' := by
  refine ⟨rfl, fun _ => rfl, fun r info hr _ => ?_⟩
  rw [h.recentBlocks] at hr
  split at hr
  · obtain ⟨b, _, rfl⟩ := Option.map_eq_some_iff.1 hr
    simp [BlockInfo.new]
  · cases hr

/-! ## Marks -/

variable {d₀ : DagState C} {g : ℕ} {K : Finset (BlockRef n)}

theorem Marks.of_markCommitted (h : Marks d₀ g K d) {r : BlockRef n} (hround : g < r.round)
    (hstep : d.markCommitted r = .ok d') : r ∈ d₀.recentBlocks ∧ Marks d₀ g (insert r K) d' := by
  have hnew := hstep
  obtain ⟨⟨d₁, first⟩, hset, hcheck⟩ := bind_ok.1 hnew
  obtain ⟨info, hinfo, hset⟩ := bind_ok.1 hset
  rw [require_ok] at hinfo
  have hfirst : first = true := by
    obtain ⟨_, hcheck, _⟩ := bind_ok.1 hcheck
    exact check_ok.1 hcheck
  have hflag : info.committed = false := by
    by_contra hcomm
    rw [if_pos (by simpa using hcomm)] at hset
    cases hset
    cases hfirst
  have hcached : r ∈ d₀.recentBlocks := by
    have hblock := h.blocks r
    rw [hinfo] at hblock
    obtain ⟨info₀, hinfo₀, _⟩ := Option.map_eq_some_iff.1 hblock.symm
    exact mem_iff.2 ⟨info₀, hinfo₀⟩
  have hK : r ∉ K := by
    rw [← h.flags r info hinfo hround, hflag]
    simp
  obtain ⟨d'', hd'', hmarks⟩ := h.markCommitted hcached hround hK
  cases hstep.symm.trans hd''
  exact ⟨hcached, hmarks⟩

theorem Marks.of_markAll {refs : List (BlockRef n)} (h : Marks d₀ g K d)
    (hro : ∀ r ∈ refs, g < r.round) (hst : refs.foldlM DagState.markCommitted d = .ok d') :
    (∀ r ∈ refs, r ∈ d₀.recentBlocks) ∧ Marks d₀ g (K ∪ refs.toFinset) d' := by
  induction refs generalizing d K with
  | nil =>
    cases hst
    exact ⟨by simp, by simpa using h⟩
  | cons r refs ih =>
    rw [foldlM_cons, bind_ok] at hst
    obtain ⟨d₁, hd₁, hst⟩ := hst
    obtain ⟨hr, hm⟩ := h.of_markCommitted (hro r mem_cons_self) hd₁
    obtain ⟨hre, hm'⟩ := ih hm (fun s hs => hro s (mem_cons_of_mem _ hs)) hst
    rw [Finset.insert_union, ← Finset.union_insert, ← toFinset_cons] at hm'
    exact ⟨forall_mem_cons.2 ⟨hr, hre⟩, hm'⟩

/-- The store has the commits of the history and no others. -/
structure StoresCommits (store : Store n) (H : CommitHistory n) : Prop where
  get? : ∀ r c, store.commits.get? r = some c ↔ c ∈ H.map Prod.snd ∧ c.reference = r
  index : ∀ k e, H[k]? = some e → e.2.index = k + 1

theorem StoresCommits.scan_eq (h : StoresCommits store H) (start stop : ℕ) :
    store.scanCommits start stop = ((H.take stop).drop (start - 1)).map Prod.snd := by
  have hen : (store.commits.filter fun r _ => start ≤ r.index ∧ r.index ≤ stop).entries =
      ((H.take stop).drop (start - 1)).map fun e => (e.2.reference, e.2) := by
    refine entries_eq ?_ fun r c => ?_
    · have hs : H.Pairwise fun e e' => e.2.reference < e'.2.reference := by
        refine pairwise_iff_getElem.2 fun i k hi hk hik => CommitRef.lt_of_index_lt ?_
        change H[i].2.index < H[k].2.index
        rw [h.index i _ (getElem?_eq_getElem hi), h.index k _ (getElem?_eq_getElem hk)]
        omega
      exact pairwise_map.2 (hs.sublist ((drop_sublist _ _).trans (take_sublist _ _)))
    · rw [get?_filter_eq_some, h.get?, decide_eq_true_iff, mem_map]
      constructor
      · rintro ⟨e, he, heq⟩
        cases heq
        obtain ⟨i, hi⟩ := mem_iff_getElem?.1 he
        rw [getElem?_drop, getElem?_take] at hi
        split at hi
        · have hin := h.index _ _ hi
          refine ⟨⟨mem_map_of_mem (mem_of_getElem? hi), rfl⟩, ?_⟩
          change start ≤ e.2.index ∧ e.2.index ≤ stop
          omega
        · cases hi
      · rintro ⟨⟨hmem, rfl⟩, hr⟩
        obtain ⟨e, he, rfl⟩ := mem_map.1 hmem
        obtain ⟨k, hk⟩ := mem_iff_getElem?.1 he
        have hin := h.index _ _ hk
        change start ≤ e.2.index ∧ e.2.index ≤ stop at hr
        refine ⟨e, mem_iff_getElem?.2 ⟨k - (start - 1), ?_⟩, rfl⟩
        rw [getElem?_drop, show start - 1 + (k - (start - 1)) = k by omega,
          getElem?_take_of_lt (by omega), hk]
  rw [Store.scanCommits, OrdMap.values, hen, map_map]
  rfl

theorem StoresCommits.head?_scan (h : StoresCommits store H) :
    (store.scanCommits 0 0).head? = none ∧
      ∀ k, (store.scanCommits (k + 1) (k + 1)).head? = H[k]?.map Prod.snd := by
  refine ⟨by simp [h.scan_eq], fun k => ?_⟩
  rw [h.scan_eq, head?_map, Nat.add_sub_cancel, head?_drop, getElem?_take_of_lt k.lt_succ_self]

/-- No block of a commit is above the leader of a later one. -/
def LeadersOnTop (H : CommitHistory n) : Prop :=
  ∀ (j k : ℕ) (e e' : CommittedSubDag n × TrustedCommit n), j ≤ k → H[j]? = some e →
    H[k]? = some e' → ∀ r ∈ e.2.blocks, r.round ≤ e'.2.leader.round

/-- The marks after the loop are the blocks of the commits it started from, above the GC round. -/
theorem Marks.of_recoverStatuses (hH : StoresCommits d₀.store H) (htop : LeadersOnTop H)
    (h : Marks d₀ g K d) {index : ℕ} (hindex : index ≤ H.length)
    (hstep : recoverStatuses g index d = .ok d') :
    ∃ K', Marks d₀ g K' d' ∧ (∀ r, g < r.round → (r ∈ K' ↔ r ∈ K ∨
      ∃ e ∈ H.take index, r ∈ e.2.blocks)) ∧
      ∀ r, g < r.round → (∃ e ∈ H.take index, r ∈ e.2.blocks) → r ∈ d₀.recentBlocks := by
  induction index generalizing d K with
  | zero =>
    rw [recoverStatuses, show d.store = d₀.store by rw [h.frame], hH.head?_scan.1] at hstep
    cases hstep
    exact ⟨K, h, by simp, by simp⟩
  | succ k ih =>
    have hstore : d.store = d₀.store := by rw [h.frame]
    have hk : H[k]? = some H[k] := getElem?_eq_getElem (by omega)
    have htake : H.take (k + 1) = H.take k ++ [H[k]] := by
      rw [take_succ_eq_append_getElem]
    rw [recoverStatuses, hstore, hH.head?_scan.2 k, hk, Option.map_some] at hstep
    by_cases hlow : 0 < g ∧ H[k].2.leader.round ≤ g
    · -- nothing that was committed up to here is above the GC round
      simp only [if_pos hlow] at hstep
      cases hstep
      have hnone : ∀ r, g < r.round → ¬ ∃ e ∈ H.take (k + 1), r ∈ e.2.blocks := by
        rintro r hr ⟨e, he, hre⟩
        obtain ⟨j, hj⟩ := mem_iff_getElem?.1 he
        have hjk : j < k + 1 := by
          have := (List.getElem?_eq_some_iff.1 hj).1
          rw [length_take] at this
          omega
        rw [getElem?_take_of_lt hjk] at hj
        have hle := htop j k e _ (by omega) hj hk r hre
        omega
      exact ⟨K, h, fun r hr => by simp [hnone r hr], fun r hr hex => absurd hex (hnone r hr)⟩
    · simp only [if_neg hlow] at hstep
      obtain ⟨d₁, hd₁, hrest⟩ := bind_ok.1 hstep
      obtain ⟨hcached, hmarks⟩ := h.of_markAll (fun r hr => by
        rw [mem_filter, decide_eq_true_iff] at hr
        exact hr.2) hd₁
      have hK : ∀ r, g < r.round → (r ∈ K ∪ (H[k].2.blocks.filter fun r => g < r.round).toFinset ↔
          r ∈ K ∨ r ∈ H[k].2.blocks) := by
        intro r hr
        simp [hr]
      have hcached' : ∀ r, g < r.round → r ∈ H[k].2.blocks → r ∈ d₀.recentBlocks := by
        intro r hr hmem
        exact hcached r (mem_filter.2 ⟨hmem, by simpa using hr⟩)
      have hsplit : ∀ r, (∃ e ∈ H.take (k + 1), r ∈ e.2.blocks) ↔
          (∃ e ∈ H.take k, r ∈ e.2.blocks) ∨ r ∈ H[k].2.blocks := by
        intro r
        rw [htake]
        simp only [mem_append, mem_singleton, or_and_right, exists_or, exists_eq_left]
      by_cases hzero : k = 0
      · subst hzero
        cases hrest
        refine ⟨_, hmarks, fun r hr => ?_, fun r hr hex => ?_⟩
        · rw [hK r hr, hsplit]
          simp
        · rw [hsplit] at hex
          exact hcached' r hr (by simpa using hex)
      · simp only [if_neg hzero] at hrest
        obtain ⟨K', hmarks', hiff, hcached''⟩ := ih hmarks (by omega) hrest
        refine ⟨K', hmarks', fun r hr => ?_, fun r hr hex => ?_⟩
        · rw [hiff r hr, hK r hr, hsplit, or_assoc, or_comm (a := r ∈ H[k].2.blocks)]
        · rcases (hsplit r).1 hex with hex | hmem
          · exact hcached'' r hr hex
          · exact hcached' r hr hmem

/-! ## Links -/

/-- Only links were changed. -/
structure LinkedOnly (d : DagState C) (d' : DagState C) : Prop where
  frame : d' = { d with recentBlocks := d'.recentBlocks }
  blocks : ∀ r, (d'.recentBlocks.get? r).map (fun info => (info.block, info.committed)) =
    (d.recentBlocks.get? r).map fun info => (info.block, info.committed)

theorem LinkedOnly.refl (d : DagState C) : LinkedOnly d d := ⟨rfl, fun _ => rfl⟩

theorem LinkedOnly.trans (h : LinkedOnly d d') (h' : LinkedOnly d' d'') : LinkedOnly d d'' := by
  refine ⟨?_, fun r => (h'.blocks r).trans (h.blocks r)⟩
  rw [h'.frame, h.frame]

theorem linkBlock_linkedOnly {r : BlockRef n} {out : DagState C × Option (List (BlockRef n))}
    (h : d.linkBlock r = .ok out) : LinkedOnly d out.1 := by
  obtain ⟨info, hi, h⟩ := bind_ok.1 h
  rw [require_ok] at hi
  by_cases hl : info.hardLinked = true
  · rw [if_pos hl] at h
    cases h
    exact .refl d
  · rw [if_neg hl] at h
    cases h
    refine ⟨rfl, fun s => ?_⟩
    rw [get?_insert]
    by_cases hs : s = r
    · rw [if_pos hs, hs, hi]
      rfl
    · rw [if_neg hs]

theorem linkLoop_linkedOnly {fuel : ℕ} {targets linked : List (BlockRef n)}
    {out : DagState C × List (BlockRef n)} (h : linkLoop g fuel d targets linked = .ok out) :
    LinkedOnly d out.1 := by
  induction fuel generalizing d targets linked with
  | zero => cases h
  | succ fuel ih =>
    cases targets with
    | nil =>
      cases h
      exact .refl d
    | cons r targets =>
      rw [linkLoop] at h
      by_cases hr : r.round ≤ g
      · rw [if_pos hr] at h
        exact ih h
      · rw [if_neg hr] at h
        obtain ⟨⟨d₁, ancestors⟩, hl, h⟩ := bind_ok.1 h
        have hf := linkBlock_linkedOnly hl
        cases ancestors with
        | none => exact hf.trans (ih h)
        | some ancestors => exact hf.trans (ih h)

theorem foldlM_link_linkedOnly
    (h : blocks.foldlM (fun d block => do pure (← d.linkCausalHistory block.reference).1) d =
      .ok d') : LinkedOnly d d' := by
  refine foldlM_induction ?_ (.refl d) h
  intro d₁ d₂ b _ hd₁ hs
  obtain ⟨out, hout, hp⟩ := bind_ok.1 hs
  cases hp
  exact hd₁.trans (linkLoop_linkedOnly hout)

/-! ## The whole recovery -/

theorem new_eq_ok (h : DagState.new C context store = .ok d') : ∃ rounds scoring d₁ d₂,
      (List.finRange n).foldlM recoverAuthority
        (newWithoutBlocks C context store rounds scoring) = .ok d₁ ∧
      d₁.recoverCommitStatuses = .ok d₂ ∧ LinkedOnly d₂ d' := by
  unfold DagState.new at h
  obtain ⟨subdags, _, h⟩ := bind_ok.1 h
  obtain ⟨scoring, _, h⟩ := bind_ok.1 h
  obtain ⟨d₁, hd₁, h⟩ := bind_ok.1 h
  obtain ⟨d₂, hd₂, h⟩ := bind_ok.1 h
  exact ⟨_, scoring, d₁, d₂, hd₁, hd₂, foldlM_link_linkedOnly h⟩

/-- The states between the phases: `d₁` has the blocks, `d₂` the marks of `K`, `d'` the links. -/
structure Phases (d d₁ d₂ d' : DagState C) (K : Finset (BlockRef n)) : Prop where
  loaded : Loaded d (List.finRange n) d₁
  marks : Marks d₁ d₁.gcRound K d₂
  linked : LinkedOnly d₂ d'

theorem Loaded.phases (h : Loaded d (List.finRange n) d') : Phases d d' d' d' ∅ :=
  ⟨h, h.marks _, .refl d'⟩

namespace Phases

variable {d₁ d₂ : DagState C} {r : BlockRef n} (h : Phases d d₁ d₂ d' K)

include h

theorem frame : d' = { d with
    recentBlocks := d'.recentBlocks
    recentRefsByAuthority := d₁.recentRefsByAuthority
    thresholdClock := d₁.thresholdClock
    evictedRounds := d₁.evictedRounds
    highestAcceptedRound := d₁.highestAcceptedRound } := by
  rw [h.linked.frame, h.marks.frame, h.loaded.frame]

theorem gcRound_eq : d'.gcRound = d₁.gcRound := by
  rw [h.linked.frame, h.marks.frame]
  rfl

/-- Marks and links leave the blocks that were loaded. -/
theorem block_eq (r : BlockRef n) : (d'.recentBlocks.get? r).map BlockInfo.block =
    if d.recoveredRound r.author < r.round then d.store.blocks.get? r else none := by
  have hp := congrArg (Option.map Prod.fst) (h.linked.blocks r)
  rw [Option.map_map, Option.map_map] at hp
  refine (hp.trans (h.marks.blocks r)).trans ?_
  rw [h.loaded.recentBlocks]
  simp only [mem_finRange, true_and]
  split
  · rw [Option.map_map]
    exact Option.map_id'
  · rfl

theorem mem_iff : r ∈ d'.recentBlocks ↔
    d.recoveredRound r.author < r.round ∧ r ∈ d.store.blocks := by
  rw [mem_def, ← Option.isSome_map, h.block_eq]
  by_cases hr : d.recoveredRound r.author < r.round
  · rw [if_pos hr]
    exact (and_iff_right hr).symm
  · simp [hr]

theorem refs : r ∈ d'.recentRefsByAuthority a ↔ r.author = a ∧ r ∈ d'.recentBlocks := by
  rw [h.mem_iff, h.frame]
  refine (h.loaded.refs a r).trans ?_
  constructor
  · rintro ⟨_, rfl, hr⟩
    exact ⟨rfl, hr⟩
  · rintro ⟨rfl, hr⟩
    exact ⟨mem_finRange _, rfl, hr⟩

theorem recoveredRound_le (a : Fin n) : d.recoveredRound a ≤ d'.gcRound := by
  rw [h.frame]
  exact min_le_left _ _

theorem mem_iff_stored (hr : d'.gcRound < r.round) : r ∈ d'.recentBlocks ↔ r ∈ d.store.blocks :=
  h.mem_iff.trans (and_iff_right ((h.recoveredRound_le r.author).trans_lt hr))

end Phases

end DagState

end OneChain.Consensus
