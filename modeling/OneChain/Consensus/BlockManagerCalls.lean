import OneChain.Consensus.BlockManagerSteps

/-!
# The calls of the block manager

What each entry point keeps between two calls (`Manages`): the maps mirror each other, and the DAG
state knows exactly the genesis blocks and what was handed over. A call ends in such a state again,
or `accept_block` panics because of a second own block in a slot; no assertion of the manager fails.

* `Manages.tryAcceptBlocks`, `Manages.tryAcceptCommittedBlocks`, `Manages.tryFindBlocks`,
  `Manages.tryUnsuspendBlocksForLatestGcRound` — one lemma per entry point.
-/

namespace OneChain.Consensus

open Lib List OrdMap BlockManager

variable {n : ℕ} {C : Committee n} {U : VerifiedBlocks C} {context : Context n}
  {S F G K : Set (BlockRef n)} {X : Set (Block n)}

namespace BlockManager

variable {m m' : BlockManager C} {b : Block n} {r x : BlockRef n}

/-! ## Between two calls -/

variable (U context S F G K m) in
/-- The manager's maps and its DAG state. -/
structure Manages : Prop where
  settled : Settled U S F G K m
  knows : m.dagState.Knows U context K

/-- The one panic of a call. -/
def OwnPanic (U : VerifiedBlocks C) (ownIndex : Fin n) (e : ManagerPanic n) : Prop :=
  ∃ panic, e = .dagState panic ∧ OwnSlotTaken U ownIndex panic

/-- What need not be known before a block is handed over: at least what is not above the GC
round. -/
def Below (m : BlockManager C) (G : Set (BlockRef n)) : Prop :=
  ∀ a : BlockRef n, a.round ≠ genesisRound → a.round ≤ m.dagState.gcRound → a ∈ G

/-- The manager after blocks were handed over. -/
structure Accepted (U : VerifiedBlocks C) (context : Context n) (S F : Set (BlockRef n))
    (X : Set (Block n)) (G K : Set (BlockRef n)) (gcRound : ℕ) (m : BlockManager C)
    (handed : List (Block n)) : Prop where
  manages : Manages U context S F G (K ∪ refsOf handed) m
  handed : HandedOver U X G K handed
  gcRound_eq : m.dagState.gcRound = gcRound

theorem Manages.accepted_nil (h : Manages U context S F G K m) :
    Accepted U context S F X G K m.dagState.gcRound m [] := by
  refine ⟨?_, trivial, rfl⟩
  rw [refsOf_nil, Set.union_empty]
  exact h

variable {S' : Set (BlockRef n)} {blocks handed : List (Block n)}

theorem Accepted.trans {g : ℕ} {ha' : List (Block n)} (h : Accepted U context S F X G K g m handed)
    (h' : Accepted U context S' F X G (K ∪ refsOf handed) m.dagState.gcRound m' ha') :
    Accepted U context S' F X G K g m' (handed ++ ha') := by
  refine ⟨?_, h.handed.append h'.handed, h'.gcRound_eq.trans h.gcRound_eq⟩
  rw [union_refsOf_append]
  exact h'.manages

theorem acceptBlocks_ends (h : m.dagState.Knows U context K) (hb : ∀ b ∈ blocks, b ∈ U.blocks) :
    Ends (m.acceptBlocks blocks)
      (fun m' => m' = { m with dagState := m'.dagState } ∧
        m'.dagState.Knows U context (K ∪ refsOf blocks) ∧
        m'.dagState.gcRound = m.dagState.gcRound)
      (OwnPanic U context.ownIndex) := by
  have he := h.acceptBlocks hb
  rw [acceptBlocks]
  cases ha : m.dagState.acceptBlocks blocks with
  | ok dagState =>
    rw [ha] at he
    exact ⟨rfl, he⟩
  | error panic =>
    rw [ha] at he
    exact ⟨panic, rfl, he⟩

/-- A block that is planned to be handed over, and the children that it frees. -/
theorem acceptWithChildren_ends
    (htracks : Tracks U S F G (K ∪ refsOf blocks) [x] (fun _ _ => False) m)
    (hx : x ∈ K ∪ refsOf blocks ∨ x ∈ G) (hknows : m.dagState.Knows U context K)
    (hhanded : HandedOver U X G K blocks) :
    Ends (m.acceptWithChildren x blocks)
      (fun out => Accepted U context S F X G K m.dagState.gcRound out.1 out.2 ∧
        ∀ a ∈ out.1.missingAncestors, a ∈ m.missingAncestors ∧ a ≠ x)
      (OwnPanic U context.ownIndex) := by
  obtain ⟨m₁, freed, hfreed, hsettled, hhanded₁, hdag, hkeys⟩ :=
    htracks.tryUnsuspendChildrenBlocks hx
  have hall : HandedOver U X G K (blocks ++ freed) :=
    hhanded.append (hhanded₁.mono (Set.empty_subset _))
  rw [acceptWithChildren, hfreed]
  have hknows₁ : m₁.dagState.Knows U context K := hdag ▸ hknows
  refine (acceptBlocks_ends hknows₁ hall.mem).bind fun m' hm' => ?_
  obtain ⟨hframe, hknows', hgc⟩ := hm'
  refine ⟨⟨⟨?_, hknows'⟩, hall, hgc.trans (congrArg _ hdag)⟩, fun a ha => ?_⟩
  · rw [union_refsOf_append, hframe]
    exact hsettled.withDagState _
  · rw [hframe] at ha
    exact hkeys a ha

/-! ## Accepting one block -/

/-- A new block that is not suspended is about to be handed over. -/
theorem Tracks.plan (h : Settled U S F G K m) (hr : r ∉ m.suspendedBlocks) :
    Tracks U (insert r S) F G (insert r K) [r] (fun _ _ => False) (m.removeMissing r) := by
  refine ⟨h.mirror, h.nonempty, fun a => ?_, fun a ha hK => ?_, fun c s hc => ?_, fun c hc => ?_,
    h.asked⟩
  · change a ∈ m.missingBlocks.erase r ↔ _
    rw [mem_erase, h.missing, mem_singleton]
    tauto
  · rcases hK with rfl | hK
    · exact mem_singleton.2 rfl
    · exact absurd (h.absent a ha hK) not_mem_nil
  · refine (h.waiting c s hc).insert ?_
    rintro rfl
    exact hr (mem_iff.2 ⟨s, hc⟩)
  · rcases hc with rfl | hc
    · exact .inl (.inl rfl)
    · exact (h.covered c hc).imp_left .inr

/-- The state after the loop over the ancestors that were not found. -/
structure Scanned (r : BlockRef n) (l : List (BlockRef n)) (m m' : BlockManager C)
    (missing : OrdSet (BlockRef n)) : Prop where
  dagState_eq : m'.dagState = m.dagState
  suspended_eq : m'.suspendedBlocks = m.suspendedBlocks
  lists : ∀ a c, m'.Lists a c ↔ m.Lists a c ∨ a ∈ l ∧ c = r
  keys : ∀ a, a ∈ m'.missingAncestors ↔ a ∈ m.missingAncestors ∨ a ∈ l
  missingBlocks : ∀ a, a ∈ m'.missingBlocks ↔ a ∈ m.missingBlocks ∨ a ∈ l ∧ a ∉ m.suspendedBlocks
  missing : ∀ a, a ∈ missing ↔ a ∈ l

theorem addMissingAncestor_scanned {l : List (BlockRef n)}
    {state : BlockManager C × OrdSet (BlockRef n) × OrdSet (BlockRef n)}
    (h : Scanned r l m state.1 state.2.1) (a : BlockRef n) :
    Scanned r (l ++ [a]) m (addMissingAncestor r state a).1 (addMissingAncestor r state a).2.1 := by
  obtain ⟨m₁, missing, toFetch⟩ := state
  have hli : ∀ a' c, (∃ children, (m₁.missingAncestors.insert a
      (((m₁.missingAncestors.get? a).getD .empty).insert r ())).get? a' = some children ∧
        c ∈ children) ↔ m₁.Lists a' c ∨ a' = a ∧ c = r := by
    intro a' c
    unfold Lists
    by_cases ha : a' = a
    · subst ha
      cases m₁.missingAncestors.get? a' with
      | none => simp
      | some children => simp [or_comm]
    · simp [get?_insert_of_ne ha, ha]
  have hc : ∀ missingBlocks : OrdSet (BlockRef n),
      (∀ a', a' ∈ missingBlocks ↔ a' ∈ m₁.missingBlocks ∨ a' = a ∧ a' ∉ m₁.suspendedBlocks) →
      Scanned r (l ++ [a]) m
        { m₁ with
          missingAncestors := m₁.missingAncestors.insert a
            (((m₁.missingAncestors.get? a).getD .empty).insert r ())
          missingBlocks } (missing.insert a ()) := by
    intro missingBlocks hm
    refine ⟨h.dagState_eq, h.suspended_eq, fun a' c => ?_, fun a' => ?_, fun a' => ?_, fun a' => ?_⟩
    · refine (hli a' c).trans ?_
      rw [h.lists, mem_append, mem_singleton]
      tauto
    · change a' ∈ m₁.missingAncestors.insert a _ ↔ _
      rw [mem_insert, h.keys, mem_append, mem_singleton]
      tauto
    · have hsu : m₁.suspendedBlocks = m.suspendedBlocks := h.suspended_eq
      rw [hm, h.missingBlocks, hsu, mem_append, mem_singleton]
      tauto
    · rw [mem_insert, h.missing, mem_append, mem_singleton]
      tauto
  unfold addMissingAncestor
  by_cases hsu : a ∈ m₁.suspendedBlocks
  · simp only [hsu]
    refine hc _ fun a' => (or_iff_left ?_).symm
    rintro ⟨rfl, hnot⟩
    exact hnot hsu
  · simp only [hsu]
    refine hc _ fun a' => ?_
    rw [mem_insert, or_comm, and_iff_left_of_imp]
    rintro rfl
    exact hsu

theorem scanned_foldl (r : BlockRef n) (l : List (BlockRef n)) (m : BlockManager C) :
    Scanned r l m (l.foldl (addMissingAncestor r) (m, .empty, .empty)).1
      (l.foldl (addMissingAncestor r) (m, .empty, .empty)).2.1 := by
  induction l using reverseRecOn with
  | nil => exact ⟨rfl, rfl, by simp, by simp, by simp, by simp⟩
  | append_singleton l a ih =>
    rw [foldl_append]
    exact addMissingAncestor_scanned ih a

theorem mem_ancestorsNotFound (h : m.dagState.Knows U context K) {a : BlockRef n} :
    a ∈ m.ancestorsNotFound b ↔ a ∈ b.ancestors ∧
      (a.round = genesisRound ∨ m.dagState.gcRound < a.round) ∧ a ∉ K := by
  simp only [ancestorsNotFound, mem_filter, decide_eq_true_eq, and_assoc]
  refine and_congr_right fun _ => and_congr_right fun hr => ?_
  rw [not_iff_not]
  exact h.containsBlock_iff hr

theorem Tracks.suspend (h : Manages U context S F G K m) (hG : m.Below G) (hb : b ∈ U.blocks)
    (hr : b.reference ∉ m.suspendedBlocks) (hK : b.reference ∉ K) {missing : OrdSet (BlockRef n)}
    (hscan : Scanned b.reference (m.ancestorsNotFound b) m m' missing)
    (hne : m.ancestorsNotFound b ≠ []) :
    Settled U (insert b.reference S) F G K
      ((m'.removeMissing b.reference).suspend b missing) := by
  have hmem : ∀ {a}, a ∈ m.ancestorsNotFound b ↔ _ := mem_ancestorsNotFound h.knows
  have hwaits : ∀ c a, ((m'.removeMissing b.reference).suspend b missing).Waits c a ↔
      m.Waits c a ∨ c = b.reference ∧ a ∈ m.ancestorsNotFound b := by
    intro c a
    refine (waits_insert (m := m'.removeMissing b.reference)).trans ?_
    have hsame : (m'.removeMissing b.reference).Waits c a ↔ m.Waits c a := by
      change (∃ s, m'.suspendedBlocks.get? c = some s ∧ _) ↔ _
      rw [hscan.suspended_eq]
      rfl
    by_cases hc : c = b.reference
    · have hnot : ¬ m.Waits c a := by
        rintro ⟨s, hs, _⟩
        exact hr (hc ▸ mem_iff.2 ⟨s, hs⟩)
      rw [if_pos hc, hscan.missing]
      exact ⟨fun ha => .inr ⟨hc, ha⟩, fun hor => (hor.resolve_left hnot).2⟩
    · rw [hsame]
      simp [hc]
  have hs := h.settled
  refine ⟨fun a c => ?_, fun c hc => ?_, fun a => ?_, fun a ha haK => ?_, fun c s hc => ?_,
    fun c hc => ?_, fun a ha => ?_⟩
  · rw [hwaits]
    change _ ↔ m'.Lists a c ∨ _
    rw [hscan.lists, hs.mirror]
    tauto
  · rcases mem_insert.1 hc with rfl | hc
    · obtain ⟨a, ha⟩ := exists_mem_of_ne_nil _ hne
      exact ⟨a, (hwaits _ a).2 (.inr ⟨rfl, ha⟩)⟩
    · obtain ⟨a, ha⟩ := hs.nonempty c (hscan.suspended_eq ▸ hc)
      exact ⟨a, (hwaits c a).2 (.inl ha)⟩
  · change a ∈ m'.missingBlocks.erase b.reference ↔ a ∈ m'.missingAncestors ∧
      a ∉ m'.suspendedBlocks.insert b.reference _ ∧ _
    rw [mem_erase, mem_insert, hscan.keys, hscan.missingBlocks, hs.missing, hscan.suspended_eq]
    tauto
  · rcases (hscan.keys a).1 ha with hkey | hl
    · exact hs.absent a hkey haK
    · exact absurd haK (hmem.1 hl).2.2
  · rcases get?_insert_eq_some.1 hc with ⟨rfl, rfl⟩ | ⟨_, hc⟩
    · refine ⟨hb, rfl, hK, fun a ha => ?_, fun a ha => ?_⟩
      · exact (hmem.1 ((hscan.missing a).1 ha)).1
      · by_cases haK : a ∈ K
        · exact .inl haK
        · by_cases hround : a.round = genesisRound ∨ m.dagState.gcRound < a.round
          · exact .inr (.inr ((hscan.missing a).2 (hmem.2 ⟨ha, hround, haK⟩)))
          · rw [not_or, not_lt] at hround
            exact .inr (.inl (hG a hround.1 hround.2))
    · exact hs.waiting c s (hscan.suspended_eq ▸ hc)
  · rcases hc with rfl | hc
    · exact .inr (mem_insert.2 (.inl rfl))
    · exact (hs.covered c hc).imp_right fun hc =>
        mem_insert.2 (.inr (hscan.suspended_eq ▸ hc))
  · rcases (hscan.keys a).1 ha with hkey | hl
    · exact hs.asked a hkey
    · exact .inr ⟨b, hb, (hmem.1 hl).1⟩

/-- What has been received is known or waits. -/
theorem Tracks.receive (h : Settled U S F G K m) (hS' : ∀ c ∈ S', c ∈ K ∨ c ∈ m.suspendedBlocks) :
    Settled U S' F G K m :=
  { h with covered := hS' }

/-- The references of the blocks that are not skipped. -/
def received (blocks : List (Block n)) (gcRound : ℕ) : Set (BlockRef n) :=
  { r | ∃ b ∈ blocks, b.reference = r ∧ gcRound < r.round }

theorem received_append (l l' : List (Block n)) (gcRound : ℕ) :
    received (l ++ l') gcRound = received l gcRound ∪ received l' gcRound := by
  ext r
  simp only [received, mem_append, or_and_right, exists_or, Set.mem_union, Set.mem_ofPred_eq]

theorem union_received_singleton (h : m.dagState.gcRound < b.round) :
    S ∪ received [b] m.dagState.gcRound = insert b.reference S := by
  ext r
  constructor
  · rintro (hr | ⟨c, hc, rfl, _⟩)
    · exact .inr hr
    · exact .inl (congrArg Block.reference (mem_singleton.1 hc))
  · rintro (rfl | hr)
    · exact .inr ⟨b, mem_cons_self, rfl, h⟩
    · exact .inl hr

/-- The four outcomes for a received block. -/
theorem tryAcceptOneBlock_cases (m : BlockManager C) (b : Block n) :
    ((b.reference ∈ m.suspendedBlocks ∨ m.dagState.containsBlock b.reference = true) ∧
      m.tryAcceptOneBlock b = (m, .processed)) ∨
    (b.round ≤ m.dagState.gcRound ∧ m.tryAcceptOneBlock b = (m, .skipped)) ∨
    (b.reference ∉ m.suspendedBlocks ∧ m.dagState.containsBlock b.reference = false ∧
      m.dagState.gcRound < b.round ∧
      (m.ancestorsNotFound b = [] ∧ m.tryAcceptOneBlock b =
          (m.removeMissing b.reference, .accepted b) ∨
        m.ancestorsNotFound b ≠ [] ∧ ∃ m' missing toFetch,
          Scanned b.reference (m.ancestorsNotFound b) m m' missing ∧
          m.tryAcceptOneBlock b =
            ((m'.removeMissing b.reference).suspend b missing, .suspended toFetch))) := by
  unfold tryAcceptOneBlock
  by_cases hold : b.reference ∈ m.suspendedBlocks ∨ m.dagState.containsBlock b.reference = true
  · exact .inl ⟨hold, if_pos hold⟩
  · rw [if_neg hold]
    by_cases hs : b.round ≤ m.dagState.gcRound
    · exact .inr (.inl ⟨hs, if_pos hs⟩)
    · rw [if_neg hs]
      rw [not_or, Bool.not_eq_true] at hold
      refine .inr (.inr ⟨hold.1, hold.2, not_le.1 hs, ?_⟩)
      by_cases hn : m.ancestorsNotFound b = []
      · rw [hn]
        exact .inl ⟨rfl, rfl⟩
      · have hsc := scanned_foldl b.reference (m.ancestorsNotFound b) m
        refine .inr ⟨hn, _, _, _, hsc, if_neg fun he => ?_⟩
        obtain ⟨a, ha⟩ := exists_mem_of_ne_nil _ hn
        exact entries_eq_nil.1 he a ((hsc.missing a).2 ha)

section

variable (h : Manages U context S F G K m)
include h

theorem handedOver_of_found (hG : m.Below G) (hb : b ∈ U.blocks)
    (hK : b.reference ∉ K) (hno : m.ancestorsNotFound b = []) : HandedOver U ∅ G K [b] := by
  refine ⟨hb, hK, fun _ a ha => ?_, trivial⟩
  by_contra hnot
  rw [not_or] at hnot
  have hn : a ∈ m.ancestorsNotFound b := by
    refine (mem_ancestorsNotFound h.knows).2 ⟨ha, ?_, hnot.1⟩
    by_contra hbe
    rw [not_or, not_lt] at hbe
    exact hnot.2 (hG a hbe.1 hbe.2)
  rw [hno] at hn
  exact not_mem_nil hn

/-- A received block is handed over with the children that it frees, or it waits, or it was there
before, or it is skipped. -/
theorem Manages.tryAcceptBlock (hG : m.Below G) (hb : b ∈ U.blocks)
    (accepted : List (Block n)) (missing : OrdSet (BlockRef n)) :
    Ends (BlockManager.tryAcceptBlock false (m, accepted, missing) b)
      (fun out => ∃ handed, out.2.1 = accepted ++ handed ∧
        Accepted U context (S ∪ received [b] m.dagState.gcRound) F ∅ G K m.dagState.gcRound out.1
          handed)
      (OwnPanic U context.ownIndex) := by
  rw [BlockManager.tryAcceptBlock]
  rcases m.tryAcceptOneBlock_cases b with ⟨hold, htried⟩ | ⟨hskip, htried⟩ |
    ⟨hnew, hcont, hround, hfound⟩
  · simp only [htried]
    refine ⟨[], by simp, Manages.accepted_nil ⟨h.settled.receive fun c hc => ?_, h.knows⟩⟩
    rcases hc with hc | ⟨c, hc, rfl, _⟩
    · exact h.settled.covered c hc
    · rw [mem_singleton.1 hc]
      exact hold.symm.imp_left h.knows.containsBlock_sound
  · simp only [htried]
    refine ⟨[], by simp, Manages.accepted_nil ⟨h.settled.receive fun c hc => ?_, h.knows⟩⟩
    rcases hc with hc | ⟨c, hc, rfl, hround⟩
    · exact h.settled.covered c hc
    · rw [mem_singleton.1 hc] at hround
      exact absurd hround (not_lt.2 hskip)
  · have hK : b.reference ∉ K := by
      intro hK
      rw [(h.knows.containsBlock_iff (.inr hround)).2 hK] at hcont
      cases hcont
    rw [union_received_singleton hround]
    rcases hfound with ⟨hnone, htried⟩ | ⟨hne, m', missing', toFetch, hscan, htried⟩
    · simp only [htried]
      have htracks := Tracks.plan h.settled hnew
      have hset : insert b.reference K = K ∪ refsOf [b] := by
        rw [union_refsOf_cons, refsOf_nil, Set.union_empty]
      rw [hset] at htracks
      refine (acceptWithChildren_ends htracks (.inl (.inr ⟨b, mem_cons_self, rfl⟩)) h.knows
        (handedOver_of_found h hG hb hK hnone)).bind fun out hout => ?_
      exact ⟨out.2, rfl, hout.1⟩
    · simp only [htried]
      refine ⟨[], by simp, ⟨?_, ?_⟩, trivial, congrArg DagState.gcRound hscan.dagState_eq⟩
      · rw [refsOf_nil, Set.union_empty]
        exact Tracks.suspend h hG hb hnew hK hscan hne
      · rw [refsOf_nil, Set.union_empty]
        change m'.dagState.Knows U context K
        rw [hscan.dagState_eq]
        exact h.knows

/-- **A batch of received blocks.** -/
theorem Manages.tryAcceptBlocks (hG : m.Below G) (hblocks : ∀ b ∈ blocks, b ∈ U.blocks) :
    Ends (m.tryAcceptBlocks blocks)
      (fun out => Accepted U context (S ∪ received blocks m.dagState.gcRound) F ∅ G K
        m.dagState.gcRound out.1 out.2.1)
      (OwnPanic U context.ownIndex) := by
  have hloop : ∀ rest : List (Block n), (∀ b ∈ rest, b ∈ U.blocks) →
      Ends (rest.foldlM (BlockManager.tryAcceptBlock false) (m, [], .empty))
        (fun out => Accepted U context (S ∪ received rest m.dagState.gcRound) F ∅ G K
          m.dagState.gcRound out.1 out.2.1)
        (OwnPanic U context.ownIndex) := by
    intro rest hrest
    induction rest using reverseRecOn with
    | nil => simpa [Ends, received] using h.accepted_nil
    | append_singleton rest b ih =>
      rw [foldlM_append]
      refine (ih fun c hc => hrest c (mem_append_left _ hc)).bind fun out hacc => ?_
      have hbelow : out.1.Below G := by
        intro a hzero hround
        exact hG a hzero (hacc.gcRound_eq ▸ hround)
      refine (hacc.manages.tryAcceptBlock hbelow (hrest b (by simp)) out.2.1 out.2.2).bind
        fun out' hout => ?_
      obtain ⟨handed, hout', hhanded⟩ := hout
      have hrec := hacc.trans hhanded
      rw [← hout', hacc.gcRound_eq, Set.union_assoc, ← received_append] at hrec
      exact hrec
  have hsorted : ∀ b, b ∈ blocks.insertionSort (fun a b => a.round ≤ b.round) ↔ b ∈ blocks :=
    fun b => mem_insertionSort _
  have hends := hloop (blocks.insertionSort fun a b => a.round ≤ b.round)
    fun b hb => hblocks b ((hsorted b).1 hb)
  rw [BlockManager.tryAcceptBlocks, tryAcceptBlocksInternal]
  simpa only [received, hsorted] using hends

end

/-! ## Committed blocks -/

section References

variable {A : OrdMap (BlockRef n) (OrdSet (BlockRef n))} {a c : BlockRef n}

theorem listed_removeReference (ancestor : BlockRef n) :
    (∃ children, (removeReference r A ancestor).get? a = some children ∧ c ∈ children) ↔
      (∃ children, A.get? a = some children ∧ c ∈ children) ∧ ¬ (a = ancestor ∧ c = r) := by
  unfold removeReference
  cases hget : A.get? ancestor with
  | none =>
    refine ⟨fun hl => ⟨hl, ?_⟩, And.left⟩
    rintro ⟨rfl, _⟩
    obtain ⟨children, hc, _⟩ := hl
    rw [hget] at hc
    cases hc
  | some references =>
    by_cases ha : a = ancestor
    · subst ha
      simp [hget, and_comm]
    · simp [get?_insert_of_ne ha, ha]

theorem mem_removeReference (ancestor : BlockRef n) : a ∈ removeReference r A ancestor ↔ a ∈ A := by
  unfold removeReference
  cases hget : A.get? ancestor with
  | none => rfl
  | some references =>
    rw [mem_insert]
    refine ⟨?_, .inr⟩
    rintro (rfl | ha)
    · exact mem_iff.2 ⟨references, hget⟩
    · exact ha

theorem listed_removeReferences (l : List (BlockRef n)) :
    ((∃ children, (l.foldl (removeReference r) A).get? a = some children ∧ c ∈ children) ↔
      (∃ children, A.get? a = some children ∧ c ∈ children) ∧ ¬ (a ∈ l ∧ c = r)) ∧
    (a ∈ l.foldl (removeReference r) A ↔ a ∈ A) := by
  induction l generalizing A with
  | nil => simp
  | cons ancestor l ih =>
    obtain ⟨hl, hmem⟩ := ih
    rw [foldl_cons, hl, hmem, listed_removeReference, mem_removeReference, mem_cons]
    tauto

end References

/-- Nothing refers to a block that was taken out. -/
theorem Tracks.removeSuspended (h : Settled U S F G K m) (a c : BlockRef n) :
    ((m.removeSuspended r).Lists a c ↔ m.Lists a c ∧ c ≠ r) ∧
    (a ∈ (m.removeSuspended r).missingAncestors ↔ a ∈ m.missingAncestors) ∧
    (m.removeSuspended r).suspendedBlocks.get? c = (m.suspendedBlocks.erase r).get? c := by
  unfold BlockManager.removeSuspended
  cases hget : m.suspendedBlocks.get? r with
  | none =>
    refine ⟨⟨fun hl => ⟨hl, ?_⟩, And.left⟩, Iff.rfl, ?_⟩
    · rintro rfl
      obtain ⟨s, hs, _⟩ := (h.mirror a c).2 (.inl hl)
      rw [hget] at hs
      cases hs
    · rw [get?_erase]
      by_cases hc : c = r
      · rw [if_pos hc, hc]
        exact hget
      · rw [if_neg hc]
  | some suspended =>
    obtain ⟨hli, hmem⟩ := listed_removeReferences suspended.missingAncestors.keys
    refine ⟨?_, hmem, rfl⟩
    refine hli.trans (and_congr_right fun hl => ?_)
    rw [OrdMap.mem_keys]
    refine ⟨fun hnot => ?_, fun hne heq => hne heq.2⟩
    rintro rfl
    obtain ⟨s, hs, ha⟩ := (h.mirror a c).2 (.inl hl)
    rw [hget] at hs
    cases hs
    exact hnot ⟨ha, rfl⟩

/-- A committed block is about to be handed over, whether it waited or not. -/
theorem Tracks.planCommitted (h : Settled U S F G K m) (r : BlockRef n) :
    Tracks U S F G (insert r K) [r] (fun _ _ => False) ((m.removeMissing r).removeSuspended r) := by
  have hrem : ∀ a c, _ := Tracks.removeSuspended (r := r) h
  have hs : (m.removeMissing r).removeSuspended r =
      { m.removeSuspended r with missingBlocks := m.missingBlocks.erase r } := by
    unfold BlockManager.removeSuspended removeMissing
    cases m.suspendedBlocks.get? r <;> rfl
  rw [hs]
  have hmem : ∀ c, c ∈ (m.removeSuspended r).suspendedBlocks ↔ c ≠ r ∧ c ∈ m.suspendedBlocks := by
    intro c
    rw [mem_def, (hrem r c).2.2, ← mem_def, mem_erase]
  have hw : ∀ c a, (m.removeSuspended r).Waits c a ↔ c ≠ r ∧ m.Waits c a := by
    intro c a
    unfold Waits
    rw [(hrem a c).2.2, get?_erase]
    by_cases hc : c = r
    · simp [hc]
    · simp [hc]
  refine ⟨fun a c => ?_, fun c hc => ?_, fun a => ?_, fun a ha hK => ?_, fun c s hc => ?_,
    fun c hc => ?_, fun a ha => h.asked a ((hrem a a).2.1.1 ha)⟩
  · change (m.removeSuspended r).Waits c a ↔ (m.removeSuspended r).Lists a c ∨ False
    rw [hw, (hrem a c).1, h.mirror]
    tauto
  · obtain ⟨hcr, hc⟩ := (hmem c).1 hc
    obtain ⟨a, ha⟩ := h.nonempty c hc
    exact ⟨a, (hw c a).2 ⟨hcr, ha⟩⟩
  · change a ∈ m.missingBlocks.erase r ↔ a ∈ (m.removeSuspended r).missingAncestors ∧
      a ∉ (m.removeSuspended r).suspendedBlocks ∧ _
    rw [mem_erase, h.missing, (hrem a a).2.1, hmem, mem_singleton]
    tauto
  · rcases hK with rfl | hK
    · exact mem_singleton.2 rfl
    · exact absurd (h.absent a ((hrem a a).2.1.1 ha) hK) not_mem_nil
  · change (m.removeSuspended r).suspendedBlocks.get? c = some s at hc
    rw [(hrem c c).2.2, get?_erase_eq_some] at hc
    exact (h.waiting c s hc.2).insert hc.1
  · by_cases hcr : c = r
    · exact .inl (.inl hcr)
    · rcases h.covered c hc with hK | hsu
      · exact .inl (.inr hK)
      · exact .inr ((hmem c).2 ⟨hcr, hsu⟩)

section

variable (h : Manages U context S F G K m)
include h

/-- A committed block above the GC round is handed over with the children that it frees, or it was
there before. -/
theorem Manages.tryAcceptCommittedBlock (hb : b ∈ U.blocks)
    (hround : m.dagState.gcRound < b.round) (hX : b ∈ X) (accepted : List (Block n))
    (missing : OrdSet (BlockRef n)) :
    Ends (BlockManager.tryAcceptBlock true (m, accepted, missing) b)
      (fun out => out.2.2 = missing ∧ ∃ handed, out.2.1 = accepted ++ handed ∧
        Accepted U context S F X G K m.dagState.gcRound out.1 handed)
      (OwnPanic U context.ownIndex) := by
  rw [BlockManager.tryAcceptBlock, if_pos rfl]
  rw [tryAcceptOneCommittedBlock]
  cases hcont : m.dagState.containsBlock b.reference with
  | true =>
    exact ⟨rfl, [], by simp, h.accepted_nil⟩
  | false =>
    have hK : b.reference ∉ K := by
      intro hK
      rw [(h.knows.containsBlock_iff (.inr hround)).2 hK] at hcont
      cases hcont
    rw [if_neg (by simp), bind_assoc]
    have hplan := Tracks.planCommitted h.settled b.reference
    have hdag : ((m.removeMissing b.reference).removeSuspended b.reference).dagState =
        m.dagState := by
      unfold removeSuspended removeMissing
      cases m.suspendedBlocks.get? b.reference <;> rfl
    have hone : ∀ c ∈ [b], c ∈ U.blocks := by simpa using hb
    have hset : K ∪ refsOf [b] = insert b.reference K := by
      rw [union_refsOf_cons, refsOf_nil, Set.union_empty]
    refine (acceptBlocks_ends (hdag ▸ h.knows) hone).bind fun m₁ hm₁ => ?_
    obtain ⟨hframe, hknows₁, hgc⟩ := hm₁
    rw [hset] at hknows₁
    have htracks : Tracks U S F G (insert b.reference K ∪ refsOf []) [b.reference]
        (fun _ _ => False) m₁ := by
      rw [refsOf_nil, Set.union_empty, hframe]
      exact hplan.withDagState _
    refine (acceptWithChildren_ends (X := X) htracks (.inl (.inl (.inl rfl))) hknows₁
      trivial).bind fun out hout => ?_
    refine ⟨rfl, b :: out.2, by simp, ⟨?_, ?_, ?_⟩⟩
    · rw [union_refsOf_cons]
      exact hout.1.manages
    · exact ⟨hb, hK, fun hnot => absurd hX hnot, hout.1.handed⟩
    · rw [hout.1.gcRound_eq, hgc, hdag]

/-- **A batch of committed blocks.** -/
theorem Manages.tryAcceptCommittedBlocks
    (hbl : ∀ b ∈ blocks, b ∈ U.blocks ∧ m.dagState.gcRound < b.round) :
    Ends (m.tryAcceptCommittedBlocks blocks)
      (fun out => Accepted U context S F { b | b ∈ blocks } G K m.dagState.gcRound out.1 out.2)
      (OwnPanic U context.ownIndex) := by
  have hl := Ends.foldlM (E := OwnPanic U context.ownIndex)
    (f := BlockManager.tryAcceptBlock true) (l := blocks.insertionSort fun a b => a.round ≤ b.round)
    (P := fun state => state.2.2 = .empty ∧
      Accepted U context S F { b | b ∈ blocks } G K m.dagState.gcRound state.1 state.2.1)
    (s := (m, [], .empty)) ?_ ⟨rfl, h.accepted_nil⟩
  · refine hl.bind fun out hout => ?_
    rw [check_of (by rw [hout.1]; rfl)]
    exact hout.2
  · rintro ⟨m₁, accepted, missing⟩ b hb ⟨rfl, hacc⟩
    rw [mem_insertionSort] at hb
    obtain ⟨hU, hr⟩ := hbl b hb
    have hgc : m₁.dagState.gcRound < b.round := by
      rw [hacc.gcRound_eq]
      exact hr
    refine (hacc.manages.tryAcceptCommittedBlock (X := { b | b ∈ blocks }) hU hgc hb accepted
      .empty).mono
      fun out hout => ?_
    obtain ⟨hm, handed, hh, hout⟩ := hout
    refine ⟨hm, ?_⟩
    rw [hh]
    exact hacc.trans hout

/-! ## Looking for blocks -/

theorem Manages.addMissingBlock
    (hro : m.dagState.gcRound < r.round) (hF : r ∈ F) (missing : OrdSet (BlockRef n)) :
    Manages U context S F G K (BlockManager.addMissingBlock (m, missing) r).1 ∧
      (BlockManager.addMissingBlock (m, missing) r).1.dagState = m.dagState := by
  unfold BlockManager.addMissingBlock
  by_cases hf : m.dagState.containsBlock r = true ∨ r ∈ m.suspendedBlocks
  · simp only [if_pos hf]
    exact ⟨h, trivial⟩
  · simp only [if_neg hf]
    rw [not_or] at hf
    by_cases hm : r ∈ m.missingBlocks
    · simp only [if_pos hm]
      exact ⟨h, trivial⟩
    · simp only [if_neg hm]
      have hK : r ∉ K := fun hK => hf.1 ((h.knows.containsBlock_iff (.inr hro)).2 hK)
      have hs := h.settled
      refine ⟨⟨⟨fun a c => ?_, hs.nonempty, fun a => ?_, fun a ha haK => ?_, hs.waiting,
        hs.covered, fun a ha => ?_⟩, h.knows⟩, trivial⟩
      · refine (hs.mirror a c).trans (or_congr_left ?_)
        unfold Lists
        by_cases ha : a = r
        · subst ha
          cases m.missingAncestors.get? a with
          | none => simp
          | some children => simp
        · rw [get?_insert_of_ne ha]
      · change a ∈ m.missingBlocks.insert r () ↔ a ∈ m.missingAncestors.insert r _ ∧
          a ∉ m.suspendedBlocks ∧ _
        rw [mem_insert, mem_insert, hs.missing, or_and_right, or_congr_left]
        refine (and_iff_left_of_imp ?_).symm
        rintro rfl
        exact ⟨hf.2, not_mem_nil⟩
      · rcases mem_insert.1 ha with rfl | ha
        · exact absurd haK hK
        · exact hs.absent a ha haK
      · rcases mem_insert.1 ha with rfl | ha
        · exact .inl hF
        · exact hs.asked a ha

/-- **A search for blocks.** -/
theorem Manages.tryFindBlocks {blockRefs : List (BlockRef n)} (hF : ∀ r ∈ blockRefs, r ∈ F) :
    Manages U context S F G K (m.tryFindBlocks blockRefs).1 ∧
      (m.tryFindBlocks blockRefs).1.dagState = m.dagState := by
  unfold BlockManager.tryFindBlocks
  dsimp only
  refine foldlRecOn (motive := fun state : BlockManager C × OrdSet (BlockRef n) =>
    Manages U context S F G K state.1 ∧ state.1.dagState = m.dagState) _ _ ⟨h, rfl⟩
    fun state hstate r hr => ?_
  rw [mem_insertionSort, mem_filter, decide_eq_true_eq] at hr
  obtain ⟨hm, hdag⟩ := hstate
  obtain ⟨hm', hdag'⟩ := hm.addMissingBlock (hdag ▸ hr.2) (hF r hr.1) state.2
  exact ⟨hm', hdag'.trans hdag⟩

end

/-! ## Garbage collection -/

theorem Tracks.giveUp (h : Settled U S F G K m) (r : BlockRef n) :
    Tracks U S F G K [r] (fun _ _ => False) (m.removeMissing r) := by
  refine { h with missing := fun a => ?_, absent := fun a ha hK => ?_ }
  · change a ∈ m.missingBlocks.erase r ↔ _
    rw [mem_erase, h.missing, mem_singleton]
    tauto
  · exact absurd (h.absent a ha hK) not_mem_nil

/-- The lowest missing ancestor is not suspended: a suspended block has a lower one. -/
theorem Tracks.first_notMem (h : Settled U S F G K m) {children : OrdSet (BlockRef n)}
    (hf : m.missingAncestors.first? = some (r, children)) : r ∉ m.suspendedBlocks := by
  intro hr
  obtain ⟨a, ha⟩ := h.nonempty r hr
  have hlt : a < r := BlockRef.lt_of_round_lt (h.round_lt ha)
  obtain ⟨children, hc, _⟩ := ((h.mirror a r).1 ha).resolve_right id
  exact absurd ((first?_eq_some hf).2 a (mem_iff.2 ⟨children, hc⟩)) (not_le.2 hlt)

theorem Manages.unsuspendForGcLoop {fuel g : ℕ} (hG : ∀ a : BlockRef n, a.round ≤ g → a ∈ G)
    (h : Accepted U context S F ∅ G K g m handed) (hfu : m.missingAncestors.entries.length < fuel) :
    Ends (BlockManager.unsuspendForGcLoop g fuel m handed)
      (fun out => Accepted U context S F ∅ G K g out.1 out.2) (OwnPanic U context.ownIndex) := by
  induction fuel generalizing m handed with
  | zero => omega
  | succ fuel ih =>
    rw [unsuspendForGcLoop]
    cases hf : m.missingAncestors.first? with
    | none => exact h
    | some e =>
      obtain ⟨r, children⟩ := e
      dsimp only
      by_cases hro : g < r.round
      · rw [if_pos hro]
        exact h
      · have hr := h.manages.settled.first_notMem hf
        have hmem : r ∈ m.missingAncestors := mem_iff.2 ⟨children, (first?_eq_some hf).1⟩
        rw [if_neg hro, check_of hr]
        have ht : Tracks U S F G (K ∪ refsOf handed ∪ refsOf []) [r] (fun _ _ => False)
            (m.removeMissing r) := by
          rw [refsOf_nil, Set.union_empty]
          exact Tracks.giveUp h.manages.settled r
        refine (acceptWithChildren_ends (X := ∅) ht (.inr (hG r (not_lt.1 hro)))
          h.manages.knows trivial).bind fun out hout => ?_
        obtain ⟨hacc, hk⟩ := hout
        have hlt : out.1.missingAncestors.entries.length < m.missingAncestors.entries.length :=
          length_lt hk hmem
        exact ih (h.trans hacc) (by omega)

/-- **Unsuspending for the GC round.** -/
theorem Manages.tryUnsuspendBlocksForLatestGcRound (h : Manages U context S F G K m)
    (hG : ∀ a : BlockRef n, a.round ≤ m.dagState.gcRound → a ∈ G) :
    Ends m.tryUnsuspendBlocksForLatestGcRound
      (fun out => Accepted U context S F ∅ G K m.dagState.gcRound out.1 out.2)
      (OwnPanic U context.ownIndex) :=
  Manages.unsuspendForGcLoop hG h.accepted_nil (by omega)

end BlockManager

end OneChain.Consensus
