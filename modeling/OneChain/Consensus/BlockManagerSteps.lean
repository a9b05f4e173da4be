import OneChain.Consensus.BlockManager
import OneChain.Consensus.KnownBlocks

/-!
# The maps of the block manager mirror each other

A suspended block waits for its missing ancestors, and each missing ancestor lists the blocks that
wait for it (`Tracks.mirror`). The invariant is stated with what breaks it for a while: the
references still to be processed by the unsuspension loop, and the children of the one being
processed that were not looked at yet.

`G` is the set of references that need not be known before a block is handed over; in a run these
are the ones not above the GC round.

* `Tracks.tryUnsuspendChildrenBlocks` — the cascade ends, passes its assertions, and returns blocks
  in an order in which each comes after its ancestors.
-/

namespace OneChain.Consensus

open Lib List OrdMap

variable {n : ℕ} {C : Committee n} {U : VerifiedBlocks C} {S F G K : Set (BlockRef n)}

/-! ## Blocks handed over -/

/-- The blocks are new, and each one outside `X` comes after its ancestors outside `G`. -/
def HandedOver (U : VerifiedBlocks C) (X : Set (Block n)) (G : Set (BlockRef n)) :
    Set (BlockRef n) → List (Block n) → Prop
  | _, [] => True
  | K, b :: blocks => b ∈ U.blocks ∧ b.reference ∉ K ∧ (b ∉ X → ∀ a ∈ b.ancestors, a ∈ K ∨ a ∈ G) ∧
      HandedOver U X G (insert b.reference K) blocks

variable {X : Set (Block n)}

variable {l : List (Block n)}

theorem HandedOver.append {l' : List (Block n)} (h : HandedOver U X G K l)
    (h' : HandedOver U X G (K ∪ refsOf l) l') : HandedOver U X G K (l ++ l') := by
  induction l generalizing K with
  | nil => simpa [refsOf_nil] using h'
  | cons b l ih =>
    obtain ⟨hb, hnew, ha, hr⟩ := h
    rw [union_refsOf_cons] at h'
    exact ⟨hb, hnew, ha, ih hr h'⟩

theorem HandedOver.mono {Y : Set (Block n)} (hXY : X ⊆ Y) (h : HandedOver U X G K l) :
    HandedOver U Y G K l := by
  induction l generalizing K with
  | nil => trivial
  | cons b l ih =>
    obtain ⟨hb, hnew, ha, hr⟩ := h
    exact ⟨hb, hnew, fun hY => ha fun hX => hY (hXY hX), ih hr⟩

theorem HandedOver.mem (h : HandedOver U X G K l) : ∀ b ∈ l, b ∈ U.blocks := by
  induction l generalizing K with
  | nil => simp
  | cons b l ih =>
    obtain ⟨hb, _, _, hr⟩ := h
    exact forall_mem_cons.2 ⟨hb, ih hr⟩

namespace BlockManager

variable {work : List (BlockRef n)} {late : BlockRef n → BlockRef n → Prop} {m m' : BlockManager C}

/-! ## The invariant -/

/-- The block is suspended and misses the ancestor. -/
def Waits (m : BlockManager C) (c a : BlockRef n) : Prop :=
  ∃ s, m.suspendedBlocks.get? c = some s ∧ a ∈ s.missingAncestors

/-- The block is among those that wait for the ancestor. -/
def Lists (m : BlockManager C) (a c : BlockRef n) : Prop :=
  ∃ children, m.missingAncestors.get? a = some children ∧ c ∈ children

/-- A suspended block misses all its ancestors that are neither known nor in `G`. -/
structure Waiting (U : VerifiedBlocks C) (G K : Set (BlockRef n)) (c : BlockRef n)
    (s : SuspendedBlock n) : Prop where
  mem : s.block ∈ U.blocks
  reference_eq : s.block.reference = c
  fresh : c ∉ K
  ancestors : ∀ a ∈ s.missingAncestors, a ∈ s.block.ancestors
  resolved : ∀ a ∈ s.block.ancestors, a ∈ K ∨ a ∈ G ∨ a ∈ s.missingAncestors

variable (U S F G K work late m) in
/-- The maps while the references `work` are still to be processed, and the pairs `late` have been
taken out of the missing ancestors only. What is in `S` has been received, and what is in `F` may
have been asked for. -/
structure Tracks : Prop where
  mirror : ∀ a c, m.Waits c a ↔ m.Lists a c ∨ late a c
  nonempty : ∀ c ∈ m.suspendedBlocks, ∃ a, m.Waits c a
  missing : ∀ a, a ∈ m.missingBlocks ↔ a ∈ m.missingAncestors ∧ a ∉ m.suspendedBlocks ∧ a ∉ work
  absent : ∀ a ∈ m.missingAncestors, a ∈ K → a ∈ work
  waiting : ∀ c s, m.suspendedBlocks.get? c = some s → Waiting U G K c s
  covered : ∀ c ∈ S, c ∈ K ∨ c ∈ m.suspendedBlocks
  asked : ∀ a ∈ m.missingAncestors, a ∈ F ∨ ∃ b ∈ U.blocks, a ∈ b.ancestors

variable (U S F G K m) in
/-- The maps between two calls. -/
abbrev Settled : Prop := Tracks U S F G K [] (fun _ _ => False) m

theorem settled_new (dagState : DagState C) : Settled U ∅ F G K (new dagState) := by
  refine ⟨fun a c => ?_, ?_, fun a => ?_, ?_, ?_, by simp, by simp [new]⟩
  · simp [Waits, Lists, new]
  · simp [new]
  · simp [new]
  · simp [new]
  · simp [new]

theorem Tracks.withDagState (h : Tracks U S F G K work late m) (dagState : DagState C) :
    Tracks U S F G K work late { m with dagState } :=
  { h with }

variable {G' : Set (BlockRef n)} {a c : BlockRef n} {s : SuspendedBlock n}

theorem Waiting.mono (hG : G ⊆ G') (h : Waiting U G K c s) : Waiting U G' K c s :=
  { h with resolved := fun a ha => (h.resolved a ha).imp_right (Or.imp_left fun haG => hG haG) }

variable {r : BlockRef n}

theorem Waiting.insert (h : Waiting U G K c s) (hcr : c ≠ r) : Waiting U G (insert r K) c s := by
  refine ⟨h.mem, h.reference_eq, ?_, h.ancestors, fun a ha => (h.resolved a ha).imp_left .inr⟩
  rintro (rfl | hK)
  · exact hcr rfl
  · exact h.fresh hK

theorem Tracks.mono (hG : G ⊆ G') (h : Tracks U S F G K work late m) :
    Tracks U S F G' K work late m :=
  { h with waiting := fun c s hc => (h.waiting c s hc).mono hG }

/-- A missing ancestor of a suspended block is in an earlier round. -/
theorem Tracks.round_lt (h : Tracks U S F G K work late m) (hwa : m.Waits c a) :
    a.round < c.round := by
  obtain ⟨s, hs, ha⟩ := hwa
  have hw := h.waiting c s hs
  rw [← hw.reference_eq]
  exact (U.wellFormed hw.mem).round_lt a (hw.ancestors a ha)

/-! ## Unsuspending one block -/

theorem waits_insert :
    Waits { m with suspendedBlocks := m.suspendedBlocks.insert r s } c a ↔
      if c = r then a ∈ s.missingAncestors else m.Waits c a := by
  unfold Waits
  by_cases hc : c = r
  · simp [hc]
  · simp [hc, get?_insert_of_ne hc]

theorem waits_erase :
    Waits { m with suspendedBlocks := m.suspendedBlocks.erase r } c a ↔ c ≠ r ∧ m.Waits c a := by
  unfold Waits
  by_cases hc : c = r
  · simp [hc, get?_erase]
  · simp [hc, get?_erase]

variable (U S F G K work late m) in
/-- What one call of `try_unsuspend_block` does to the maps. -/
structure Released (freed : List (SuspendedBlock n))
    (m' : BlockManager C) : Prop where
  tracks : Tracks U S F G (K ∪ refsOf (freed.map SuspendedBlock.block))
    ((freed.map fun s => s.block.reference).reverse ++ work) late m'
  handed : HandedOver U ∅ G K (freed.map SuspendedBlock.block)
  size : m'.suspendedBlocks.entries.length + freed.length = m.suspendedBlocks.entries.length
  frame : m' = { m with suspendedBlocks := m'.suspendedBlocks }

variable {x : BlockRef n} {rest : List (BlockRef n)}

section Unsuspend

variable (h : Tracks U S F G K work (fun a c => a = x ∧ c ∈ r :: rest) m) (hr : r ∉ rest)
  (hx : x ∈ K ∨ x ∈ G) (hkey : x ∉ m.missingAncestors)

include h hr hx hkey

/-- The dependency is taken off a block that still waits for another one. -/
theorem Tracks.stillWaiting (hs : m.suspendedBlocks.get? r = some s)
    (hne : (s.missingAncestors.erase x).entries ≠ []) :
    Tracks U S F G K work (fun a c => a = x ∧ c ∈ rest) { m with
      suspendedBlocks := m.suspendedBlocks.insert r
        { s with missingAncestors := s.missingAncestors.erase x } } := by
  have hwaits : ∀ c a, Waits { m with
      suspendedBlocks := m.suspendedBlocks.insert r
        { s with missingAncestors := s.missingAncestors.erase x } } c a ↔
      m.Waits c a ∧ ¬ (c = r ∧ a = x) := by
    intro c a
    rw [waits_insert]
    by_cases hc : c = r
    · subst hc
      rw [if_pos rfl, mem_erase]
      constructor
      · rintro ⟨hne, ha⟩
        exact ⟨⟨s, hs, ha⟩, fun heq => hne heq.2⟩
      · rintro ⟨⟨s', hs', ha⟩, hne⟩
        rw [hs] at hs'
        cases hs'
        exact ⟨fun heq => hne ⟨rfl, heq⟩, ha⟩
    · rw [if_neg hc]
      exact ⟨fun hw => ⟨hw, fun heq => hc heq.1⟩, And.left⟩
  have hmem : ∀ c, c ∈ m.suspendedBlocks.insert r
      { s with missingAncestors := s.missingAncestors.erase x } ↔ c ∈ m.suspendedBlocks := by
    intro c
    rw [mem_insert]
    refine ⟨?_, .inr⟩
    rintro (rfl | hc)
    · exact mem_iff.2 ⟨s, hs⟩
    · exact hc
  refine ⟨fun a c => ?_, fun c hc => ?_, fun a => ?_, h.absent, fun c t ht => ?_,
    fun c hc => (h.covered c hc).imp_right (hmem c).2, h.asked⟩
  · change _ ↔ m.Lists a c ∨ _
    rw [hwaits, h.mirror, mem_cons]
    constructor
    · rintro ⟨hlists | ⟨rfl, rfl | hrest⟩, hne⟩
      · exact .inl hlists
      · exact absurd ⟨rfl, rfl⟩ hne
      · exact .inr ⟨rfl, hrest⟩
    · rintro (hlists | ⟨rfl, hrest⟩)
      · refine ⟨.inl hlists, ?_⟩
        rintro ⟨_, rfl⟩
        obtain ⟨children, hchild, _⟩ := hlists
        exact hkey (mem_iff.2 ⟨children, hchild⟩)
      · refine ⟨.inr ⟨rfl, .inr hrest⟩, ?_⟩
        rintro ⟨rfl, _⟩
        exact hr hrest
  · by_cases hcr : c = r
    · subst hcr
      by_contra hnone
      refine hne (entries_eq_nil.2 fun a ha => hnone ⟨a, ?_⟩)
      rw [waits_insert, if_pos rfl]
      exact ha
    · obtain ⟨a, ha⟩ := h.nonempty c ((hmem c).1 hc)
      exact ⟨a, (hwaits c a).2 ⟨ha, fun heq => hcr heq.1⟩⟩
  · change a ∈ m.missingBlocks ↔ a ∈ m.missingAncestors ∧ a ∉ m.suspendedBlocks.insert r _ ∧ _
    rw [hmem]
    exact h.missing a
  · rcases get?_insert_eq_some.1 ht with ⟨rfl, rfl⟩ | ⟨_, ht⟩
    · have hw := h.waiting c s hs
      refine ⟨hw.mem, hw.reference_eq, hw.fresh, fun a ha => ?_, fun a ha => ?_⟩
      · exact hw.ancestors a (mem_erase.1 ha).2
      · rcases hw.resolved a ha with hK | hG | hmiss
        · exact .inl hK
        · exact .inr (.inl hG)
        · by_cases hax : a = x
          · subst hax
            rcases hx with hK | hG
            · exact .inl hK
            · exact .inr (.inl hG)
          · exact .inr (.inr (mem_erase.2 ⟨hax, hmiss⟩))
    · exact h.waiting c t ht

theorem Tracks.released (hs : m.suspendedBlocks.get? r = some s)
    (hempty : (s.missingAncestors.erase x).entries = []) :
    HandedOver U ∅ G K [s.block] ∧ s.block.reference = r ∧
      Tracks U S F G (insert r K) (r :: work) (fun a c => a = x ∧ c ∈ rest)
        { m with suspendedBlocks := m.suspendedBlocks.erase r } := by
  have hw := h.waiting r s hs
  have honly : ∀ a ∈ s.missingAncestors, a = x := by
    intro a ha
    by_contra hax
    exact entries_eq_nil.1 hempty a (mem_erase.2 ⟨hax, ha⟩)
  refine ⟨⟨hw.mem, hw.reference_eq ▸ hw.fresh, fun _ a ha => ?_, trivial⟩, hw.reference_eq,
    fun a c => ?_, fun c hc => ?_, fun a => ?_, fun a ha hK => ?_, fun c t ht => ?_,
    fun c hc => ?_, h.asked⟩
  · rcases hw.resolved a ha with hK | hG | hmiss
    · exact .inl hK
    · exact .inr hG
    · exact honly a hmiss ▸ hx
  · change _ ↔ m.Lists a c ∨ _
    rw [waits_erase, h.mirror, mem_cons]
    constructor
    · rintro ⟨hcr, hlists | ⟨rfl, rfl | hrest⟩⟩
      · exact .inl hlists
      · exact absurd rfl hcr
      · exact .inr ⟨rfl, hrest⟩
    · rintro (hlists | ⟨rfl, hrest⟩)
      · refine ⟨?_, .inl hlists⟩
        -- a listed block waits, and this one waits for nothing but `x`, which is not a key
        rintro rfl
        obtain ⟨s', hs', ha⟩ := (h.mirror a c).2 (.inl hlists)
        rw [hs] at hs'
        cases hs'
        obtain ⟨children, hchild, _⟩ := hlists
        exact hkey (honly a ha ▸ mem_iff.2 ⟨children, hchild⟩)
      · refine ⟨?_, .inr ⟨rfl, .inr hrest⟩⟩
        rintro rfl
        exact hr hrest
  · obtain ⟨hcr, hc⟩ := mem_erase.1 hc
    obtain ⟨a, ha⟩ := h.nonempty c hc
    exact ⟨a, waits_erase.2 ⟨hcr, ha⟩⟩
  · change a ∈ m.missingBlocks ↔ a ∈ m.missingAncestors ∧ a ∉ m.suspendedBlocks.erase r ∧ _
    rw [h.missing]
    have hmem : r ∈ m.suspendedBlocks := mem_iff.2 ⟨s, hs⟩
    by_cases har : a = r
    · subst har
      simp [hmem]
    · simp [har]
  · rcases hK with rfl | hK
    · exact mem_cons_self
    · exact mem_cons_of_mem _ (h.absent a ha hK)
  · obtain ⟨hcr, ht⟩ := get?_erase_eq_some.1 ht
    exact (h.waiting c t ht).insert hcr
  · by_cases hcr : c = r
    · exact .inl (.inl hcr)
    · rcases h.covered c hc with hK | hsusp
      · exact .inl (.inr hK)
      · exact .inr (mem_erase.2 ⟨hcr, hsusp⟩)

theorem Tracks.tryUnsuspendBlock : ∃ m' out, m.tryUnsuspendBlock r x = .ok (m', out) ∧
      Released U S F G K work (fun a c => a = x ∧ c ∈ rest) m out.toList m' := by
  obtain ⟨s, hs, hm⟩ := (h.mirror x r).2 (.inr ⟨rfl, mem_cons_self⟩)
  have hmem : r ∈ m.suspendedBlocks := mem_iff.2 ⟨s, hs⟩
  rw [BlockManager.tryUnsuspendBlock, hs, require_ok.2 rfl, ok_bind, check_of hm]
  by_cases he : (s.missingAncestors.erase x).entries = []
  · obtain ⟨hh, href, ht⟩ := h.released hr hx hkey hs he
    refine ⟨_, _, if_pos he, ?_, hh, ?_, rfl⟩
    · have hset : K ∪ refsOf [s.block] = insert r K := by
        rw [union_refsOf_cons, refsOf_nil, Set.union_empty, href]
      change Tracks U S F G (K ∪ refsOf [s.block]) (s.block.reference :: work) _ _
      rw [hset, href]
      exact ht
    · exact length_erase hmem
  · refine ⟨_, _, if_neg he, ?_, trivial, ?_, rfl⟩
    · change Tracks U S F G (K ∪ refsOf []) work _ _
      rw [refsOf_nil, Set.union_empty]
      exact h.stillWaiting hr hx hkey hs he
    · exact length_insert hmem

end Unsuspend

/-! ## The cascade -/

theorem Released.trans {late' : BlockRef n → BlockRef n → Prop} {m₁ m₂ : BlockManager C}
    {freed freed' : List (SuspendedBlock n)} (h : Released U S F G K work late m freed m₁)
    (h' : Released U S F G (K ∪ refsOf (freed.map SuspendedBlock.block))
      ((freed.map fun s => s.block.reference).reverse ++ work) late' m₁ freed' m₂) :
    Released U S F G K work late' m (freed ++ freed') m₂ := by
  refine ⟨?_, ?_, ?_, ?_⟩
  · rw [map_append, union_refsOf_append, map_append, reverse_append, append_assoc]
    exact h'.tracks
  · rw [map_append]
    exact h.handed.append h'.handed
  · rw [length_append]
    have := h.size
    have := h'.size
    omega
  · rw [h'.frame, h.frame]

theorem Tracks.tryUnsuspendChildren (h : Tracks U S F G K work (fun a c => a = x ∧ c ∈ rest) m)
    (hre : rest.Nodup) (hx : x ∈ K ∨ x ∈ G) (hkey : x ∉ m.missingAncestors)
    (acc : List (SuspendedBlock n)) :
    ∃ m' freed, rest.foldlM (tryUnsuspendChild x) (m, acc) = .ok (m', acc ++ freed) ∧
      Released U S F G K work (fun _ _ => False) m freed m' := by
  induction rest generalizing m K work acc with
  | nil =>
    refine ⟨m, [], by simp, ?_, trivial, rfl, rfl⟩
    change Tracks U S F G (K ∪ refsOf []) work _ m
    rw [refsOf_nil, Set.union_empty]
    refine { h with mirror := fun a c => ?_ }
    rw [h.mirror]
    simp
  | cons r rest ih =>
    obtain ⟨hr, hre⟩ := nodup_cons.1 hre
    obtain ⟨m₁, out, hout, hf⟩ := h.tryUnsuspendBlock hr hx hkey
    have hkey₁ : x ∉ m₁.missingAncestors := by
      rw [hf.frame]
      exact hkey
    obtain ⟨m', freed, hl, hrel⟩ := ih hf.tracks hre (hx.imp_left .inl) hkey₁ (acc ++ out.toList)
    refine ⟨m', out.toList ++ freed, ?_, hf.trans hrel⟩
    rw [foldlM_cons, tryUnsuspendChild, hout, ok_bind, pure_ok, ok_bind, hl, append_assoc]

/-- **The cascade ends, passes its assertions, and keeps the maps in step.** -/
theorem Tracks.unsuspendLoop {fuel : ℕ} (h : Tracks U S F G K work (fun _ _ => False) m)
    (hwork : ∀ x ∈ work, x ∈ K ∨ x ∈ G)
    (hfuel : m.suspendedBlocks.entries.length + work.length < fuel)
    (acc : List (SuspendedBlock n)) :
    ∃ m' freed, BlockManager.unsuspendLoop fuel m work acc = .ok (m', acc ++ freed) ∧
      Settled U S F G (K ∪ refsOf (freed.map SuspendedBlock.block)) m' ∧
      HandedOver U ∅ G K (freed.map SuspendedBlock.block) ∧ m'.dagState = m.dagState ∧
      ∀ a ∈ m'.missingAncestors, a ∈ m.missingAncestors ∧ a ∉ work := by
  induction fuel generalizing m K work acc with
  | zero => omega
  | succ fuel ih =>
    cases work with
    | nil =>
      refine ⟨m, [], by simp [BlockManager.unsuspendLoop], ?_, trivial, rfl, by simp⟩
      change Settled U S F G (K ∪ refsOf []) m
      rwa [refsOf_nil, Set.union_empty]
    | cons x work =>
      rw [BlockManager.unsuspendLoop]
      have hx := hwork x mem_cons_self
      cases hkey : m.missingAncestors.get? x with
      | none =>
        have hnot : x ∉ m.missingAncestors := notMem_iff.2 hkey
        have htracks : Tracks U S F G K work (fun _ _ => False) m := by
          refine { h with missing := fun a => ?_, absent := fun a ha hK => ?_ }
          · rw [h.missing]
            by_cases hax : a = x
            · subst hax
              simp [hnot]
            · simp [hax]
          · rcases mem_cons.1 (h.absent a ha hK) with rfl | hmem
            · exact absurd ha hnot
            · exact hmem
        obtain ⟨m', freed, hloop, hsettled, hhanded, hdag, hkeys⟩ := ih htracks
          (fun y hy => hwork y (mem_cons_of_mem _ hy))
          (by rw [length_cons] at hfuel; omega) acc
        refine ⟨m', freed, hloop, hsettled, hhanded, hdag, fun a ha => ⟨(hkeys a ha).1, ?_⟩⟩
        rw [mem_cons, not_or]
        refine ⟨?_, (hkeys a ha).2⟩
        rintro rfl
        exact hnot (hkeys a ha).1
      | some children =>
        have htracks : Tracks U S F G K work (fun a c => a = x ∧ c ∈ children.keys)
            { m with missingAncestors := m.missingAncestors.erase x } := by
          refine ⟨fun a c => ?_, h.nonempty, fun a => ?_, fun a ha hK => ?_, h.waiting, h.covered,
            fun a ha => h.asked a (mem_erase.1 ha).2⟩
          · change m.Waits c a ↔ _
            rw [h.mirror, OrdMap.mem_keys]
            unfold Lists
            by_cases hax : a = x
            · subst hax
              simp [get?_erase, hkey]
            · simp [get?_erase, hax]
          · change a ∈ m.missingBlocks ↔ a ∈ m.missingAncestors.erase x ∧ a ∉ m.suspendedBlocks ∧ _
            rw [h.missing, mem_cons, mem_erase]
            tauto
          · obtain ⟨hax, ha⟩ := mem_erase.1 ha
            rcases mem_cons.1 (h.absent a ha hK) with rfl | hmem
            · exact absurd rfl hax
            · exact hmem
        have hnot : x ∉ m.missingAncestors.erase x := by simp
        obtain ⟨m₁, freed₁, hchild, hrel⟩ :=
          htracks.tryUnsuspendChildren children.nodup_keys hx hnot []
        have hsize := hrel.size
        have hwork₁ : ∀ y ∈ (freed₁.map fun s => s.block.reference).reverse ++ work,
            y ∈ K ∪ refsOf (freed₁.map SuspendedBlock.block) ∨ y ∈ G := by
          intro y hy
          rcases mem_append.1 hy with hy | hy
          · obtain ⟨s, hs, rfl⟩ := mem_map.1 (mem_reverse.1 hy)
            exact .inl (.inr ⟨s.block, mem_map_of_mem hs, rfl⟩)
          · exact (hwork y (mem_cons_of_mem _ hy)).imp_left .inl
        obtain ⟨m', freed, hloop, hsettled, hhanded, hdag, hkeys⟩ := ih hrel.tracks hwork₁
          (by
            simp only [length_append, length_reverse, length_map, length_cons] at hfuel ⊢
            simp only at hsize
            omega)
          (acc ++ freed₁)
        refine ⟨m', freed₁ ++ freed, ?_, ?_, ?_, ?_, fun a ha => ?_⟩
        · rw [nil_append] at hchild
          dsimp only
          rw [hchild, ok_bind, hloop, append_assoc]
        · rw [map_append, union_refsOf_append]
          exact hsettled
        · rw [map_append]
          exact hrel.handed.append hhanded
        · rw [hdag, hrel.frame]
        · obtain ⟨hmem, hnotw⟩ := hkeys a ha
          rw [hrel.frame] at hmem
          obtain ⟨hax, hmem⟩ := mem_erase.1 hmem
          rw [mem_append, not_or] at hnotw
          rw [mem_cons, not_or]
          exact ⟨hmem, hax, hnotw.2⟩

theorem Tracks.tryUnsuspendChildrenBlocks (h : Tracks U S F G K [x] (fun _ _ => False) m)
    (hx : x ∈ K ∨ x ∈ G) :
    ∃ m' freed, m.tryUnsuspendChildrenBlocks x = .ok (m', freed) ∧
      Settled U S F G (K ∪ refsOf freed) m' ∧ HandedOver U ∅ G K freed ∧ m'.dagState = m.dagState ∧
      ∀ a ∈ m'.missingAncestors, a ∈ m.missingAncestors ∧ a ≠ x := by
  have hf : m.suspendedBlocks.entries.length + [x].length <
      m.suspendedBlocks.entries.length + 2 := by simp
  obtain ⟨m', freed, hl, hs, hh, hdag, hk⟩ := h.unsuspendLoop (by simpa using hx) hf []
  refine ⟨m', freed.map SuspendedBlock.block, ?_, hs, hh, hdag, fun a ha => ?_⟩
  · rw [BlockManager.tryUnsuspendChildrenBlocks, hl, ok_bind, nil_append, pure_ok]
  · exact ⟨(hk a ha).1, by simpa using (hk a ha).2⟩

end BlockManager

end OneChain.Consensus
