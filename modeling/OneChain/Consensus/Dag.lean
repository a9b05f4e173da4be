import OneChain.Consensus.Block

/-!
# The DAG of blocks

Blocks that exist anywhere in the network, without reference to what a validator holds. Authorities
outside a set of less than validity-threshold stake sign at most one block per round, and a
reference determines its block.

A quorum of blocks is a set of blocks whose authors have quorum stake. Two quorums in one round
share a block (`BlockUniverse.exists_common`), and from that the facts about votes follow:

* `BlockUniverse.not_certifies_of_blamed` — a slot with a quorum of blames has no certificate.
* `BlockUniverse.certifies_unique` — certificates for one slot certify one block.
* `BlockUniverse.certifiedBy_of_supported` — a quorum of certificates puts a certificate in the
  history of every later block.
-/

namespace OneChain.Consensus

open Lib

variable {n : ℕ} {C : Committee n}

/-! ## Quorums of blocks -/

open Classical in
/-- The authors of the blocks with a property. -/
noncomputable def authorsOf (P : Block n → Prop) : Finset (Fin n) :=
  Finset.univ.filter fun a => ∃ b, P b ∧ b.author = a

theorem mem_authorsOf {P : Block n → Prop} {a : Fin n} :
    a ∈ authorsOf P ↔ ∃ b, P b ∧ b.author = a := by
  simp [authorsOf]

/-- The authors of the blocks with a property have quorum stake. -/
def QuorumOf (C : Committee n) (P : Block n → Prop) : Prop :=
  C.quorumThreshold ≤ ∑ a ∈ authorsOf P, C.stake a

variable {P Q : Block n → Prop}

theorem QuorumOf.mono (h : QuorumOf C P) (hPQ : ∀ b, P b → Q b) : QuorumOf C Q := by
  refine le_trans h (Finset.sum_le_sum_of_subset fun a ha => ?_)
  obtain ⟨b, hb, rfl⟩ := mem_authorsOf.1 ha
  exact mem_authorsOf.2 ⟨b, hPQ b hb, rfl⟩

/-- Two quorums of blocks have an honest author in common. -/
theorem QuorumOf.exists_honest {byzantine : Finset (Fin n)}
    (hl : ∑ a ∈ byzantine, C.stake a < C.validityThreshold)
    (hP : QuorumOf C P) (hQ : QuorumOf C Q) :
    ∃ b b', P b ∧ Q b' ∧ b.author = b'.author ∧ b.author ∉ byzantine := by
  have hi := Quorums.Quorum.inter (Q := C.quorums byzantine hl) hP hQ
  obtain ⟨a, haP, haQ, hs⟩ := hi
  obtain ⟨b, hb, rfl⟩ := mem_authorsOf.1 haP
  obtain ⟨b', hb', ha⟩ := mem_authorsOf.1 haQ
  exact ⟨b, b', hb, hb', ha.symm, hs⟩

/-! ## The universe -/

/-- Verified blocks, no two with one reference. -/
structure VerifiedBlocks (C : Committee n) where
  blocks : Set (Block n)
  verifier : SignedBlockVerifier n
  verified : ∀ b ∈ blocks, verifier.verifyBlock C b = .ok ()
  reference_injOn : Set.InjOn Block.reference blocks

/-- Verified blocks of a network in which an honest authority signs one block a round. -/
structure BlockUniverse (C : Committee n) extends VerifiedBlocks C where
  byzantine : Finset (Fin n)
  byzantine_light : ∑ a ∈ byzantine, C.stake a < C.validityThreshold
  honest_unique : ∀ b ∈ blocks, ∀ b' ∈ blocks, b.author ∉ byzantine → b.slot = b'.slot → b = b'

/-- A path of ancestor links from the block to the reference. -/
inductive Linked (blocks : Set (Block n)) : Block n → BlockRef n → Prop
  | direct {b : Block n} {r : BlockRef n} : r ∈ b.ancestors → Linked blocks b r
  | trans {b b' : Block n} {r : BlockRef n} : b'.reference ∈ b.ancestors → b' ∈ blocks →
      Linked blocks b' r → Linked blocks b r

namespace VerifiedBlocks

variable (U : VerifiedBlocks C) {b : Block n}

theorem wellFormed (hb : b ∈ U.blocks) : b.WellFormed C :=
  SignedBlockVerifier.verifyBlock_ok (U.verified b hb)

theorem round_lt {b' : Block n} (hb : b ∈ U.blocks) (h : b'.reference ∈ b.ancestors) :
    b'.round < b.round :=
  (U.wellFormed hb).round_lt _ h

theorem round_lt_of_linked {r : BlockRef n} (hb : b ∈ U.blocks)
    (h : Linked U.blocks b r) : r.round < b.round := by
  induction h with
  | direct hr => exact (U.wellFormed hb).round_lt _ hr
  | trans hmem hb' _ ih => exact lt_trans (ih hb') (U.round_lt hb hmem)

end VerifiedBlocks

namespace BlockUniverse

variable (U : BlockUniverse C)

/-- **Two quorums of blocks in one round share a block.** -/
theorem exists_common {r : ℕ} (hP : QuorumOf C P) (hQ : QuorumOf C Q)
    (hPU : ∀ b, P b → b ∈ U.blocks ∧ b.round = r) (hQU : ∀ b, Q b → b ∈ U.blocks ∧ b.round = r) :
    ∃ b, P b ∧ Q b := by
  obtain ⟨b, b', hb, hb', ha, hs⟩ := hP.exists_honest U.byzantine_light hQ
  have hsl : b.slot = b'.slot := by
    simp only [Block.slot, BlockRef.slot, Block.reference_round, Block.reference_author, ha,
      (hPU b hb).2, (hQU b' hb').2]
  have heq := U.honest_unique b (hPU b hb).1 b' (hQU b' hb').1 hs hsl
  exact ⟨b, hb, heq ▸ hb'⟩

/-- The parents of a block, as blocks, are a quorum of the round before. -/
theorem parents_quorum (hb : b ∈ U.blocks) {V : Set (Block n)}
    (hV : ∀ r ∈ b.ancestors, r.round + 1 = b.round → ∃ b' ∈ V, b'.reference = r) :
    QuorumOf C fun v => v ∈ V ∧ v.reference ∈ b.ancestors ∧ v.round + 1 = b.round := by
  refine le_trans (U.wellFormed hb).parents_quorum (Finset.sum_le_sum_of_subset fun a ha => ?_)
  obtain ⟨r, hr, hro, rfl⟩ := Block.mem_parents.1 ha
  obtain ⟨v, hv, rfl⟩ := hV r hr hro
  exact mem_authorsOf.2 ⟨v, ⟨hv, hr, hro⟩, rfl⟩

/-! ## Votes and certificates -/

/-- The block is in the voting round of the leader and links to it. -/
def Votes (v l : Block n) : Prop := v.round = l.round + 1 ∧ l.reference ∈ v.ancestors

/-- A quorum of the block's ancestors vote for the leader. -/
def Certifies (c l : Block n) : Prop :=
  c.round = l.round + 2 ∧ QuorumOf C fun v => v ∈ U.blocks ∧ v.reference ∈ c.ancestors ∧ Votes v l

/-- A quorum of the blocks in the voting round have no ancestor by the leader. -/
def Blamed (C : Committee n) (V : Set (Block n)) (slot : Slot n) : Prop :=
  QuorumOf C fun v => v ∈ V ∧ v.round = slot.round + 1 ∧
    ∀ r ∈ v.ancestors, r.author ≠ slot.authority

/-- A quorum of the blocks in the decision round are certificates. -/
def Supported (V : Set (Block n)) (l : Block n) : Prop :=
  QuorumOf C fun c => c ∈ V ∧ U.Certifies c l

/-- A certificate for the leader is in the history of the anchor. -/
def CertifiedBy (anchor l : Block n) : Prop :=
  ∃ c ∈ U.blocks, Linked U.blocks anchor c.reference ∧ U.Certifies c l

variable {U} {V : Set (Block n)} {l : Block n}

theorem not_certifies_of_blamed (hV : V ⊆ U.blocks) {c : Block n} (h : Blamed C V l.slot) :
    ¬ U.Certifies c l := by
  rintro ⟨_, hq⟩
  obtain ⟨v, ⟨_, _, hbl⟩, _, _, _, hv⟩ := U.exists_common h hq
    (fun b hb => ⟨hV hb.1, hb.2.1⟩) (fun b hb => ⟨hb.1, hb.2.2.1⟩)
  exact hbl _ hv rfl

theorem certifies_unique {l' c c' : Block n} (hl : l ∈ U.blocks) (hl' : l' ∈ U.blocks)
    (hs : l.slot = l'.slot) (h : U.Certifies c l) (h' : U.Certifies c' l') : l = l' := by
  have hr : l.round = l'.round := congrArg Slot.round hs
  have ha : l.author = l'.author := congrArg Slot.authority hs
  obtain ⟨v, ⟨hv, _, _, hvo⟩, _, _, _, hv'⟩ := U.exists_common h.2 h'.2
    (fun b hb => ⟨hb.1, hb.2.2.1⟩) (fun b hb => ⟨hb.1, hr ▸ hb.2.2.1⟩)
  exact U.reference_injOn hl hl' ((U.wellFormed hv).eq_of_author hvo hv' ha)

theorem exists_certifies_of_supported (h : U.Supported V l) : ∃ c ∈ V, U.Certifies c l := by
  obtain ⟨c, _, ⟨hc, hce⟩, _⟩ := h.exists_honest U.byzantine_light h
  exact ⟨c, hc, hce⟩

/-- Blocks of a set from a round on have their ancestors in it, down to that round. -/
def ClosedFrom (W : Set (Block n)) (first : ℕ) : Prop :=
  ∀ b ∈ W, ∀ r ∈ b.ancestors, first ≤ r.round → r.round ≠ 0 → ∃ b' ∈ W, b'.reference = r

/-- **A supported leader is certified by every later block**, by induction on the round: in the
first round after the decision round the quorum of certificates meets the parents, and later every
block has some parent. -/
theorem certifiedBy_of_supported {W : Set (Block n)} {first : ℕ} (hV : V ⊆ U.blocks)
    (hW : W ⊆ U.blocks) (hclosed : ClosedFrom W first) (hfirst : first ≤ l.round)
    (h : U.Supported V l) {anchor : Block n} (hanchor : anchor ∈ W)
    (hround : l.round + 3 ≤ anchor.round) : U.CertifiedBy anchor l := by
  induction hr : anchor.round using Nat.strong_induction_on generalizing anchor with
  | _ r ih =>
    have hpar := U.parents_quorum (hW hanchor) fun s hs hsr =>
      hclosed anchor hanchor s hs (by omega) (by omega)
    by_cases hnext : anchor.round = l.round + 3
    · obtain ⟨c, ⟨hc, hcert⟩, hcW, hmem, _⟩ := U.exists_common h hpar
        (fun b hb => ⟨hV hb.1, hb.2.1⟩) (fun b hb => ⟨hW hb.1, by omega⟩)
      exact ⟨c, hV hc, .direct hmem, hcert⟩
    · obtain ⟨p, ⟨hp, hmem, hpr⟩, _⟩ := U.exists_common (r := anchor.round - 1) hpar hpar
        (fun b hb => ⟨hW hb.1, by omega⟩) (fun b hb => ⟨hW hb.1, by omega⟩)
      obtain ⟨c, hc, hlink, hcert⟩ := ih p.round (by omega) hp (by omega) rfl
      exact ⟨c, hc, .trans hmem (hW hp) hlink, hcert⟩

end BlockUniverse

/-! ## A sample network -/

/-- Four authorities of equal stake. -/
def fourAuthorities : Committee 4 := ⟨0, fun _ => 1, by decide⟩

def authority (i : ℕ) : Fin 4 := Fin.ofNat 4 i

/-- A block that links to all blocks of the round before. -/
def sampleBlock (round : ℕ) (author : Fin 4) : Block 4 where
  epoch := 0
  round := round
  author := author
  timestampMs := round
  ancestors := (author :: (List.finRange 4).filter (· ≠ author)).map fun a => ⟨round - 1, a, 0⟩
  transactions := []
  transactionVotes := []
  digest := 0

def sampleBlocks (rounds : ℕ) : List (Block 4) :=
  (List.range rounds).flatMap fun r => (List.finRange 4).map (sampleBlock (r + 1))

def sampleVerifier : SignedBlockVerifier 4 where
  genesis := (List.finRange 4).map fun a => ⟨0, a, 0⟩
  verifySignature := fun _ => true
  maxTransactionSizeBytes := 0
  maxNumTransactionsInBlock := 0
  maxTransactionsInBlockBytes := 0

/-- One authority may be Byzantine. -/
def sampleUniverse : BlockUniverse fourAuthorities where
  blocks := { b | b ∈ sampleBlocks 5 }
  verifier := sampleVerifier
  byzantine := {3}
  verified := by
    have h : ∀ b ∈ sampleBlocks 5,
        (sampleVerifier.verifyBlock fourAuthorities b).toOption = some () := by decide +kernel
    exact fun b hb => toOption_eq_some.1 (h b hb)
  reference_injOn := by
    have h : ∀ b ∈ sampleBlocks 5, ∀ b' ∈ sampleBlocks 5, b.reference = b'.reference → b = b' := by
      decide +kernel
    exact fun b hb b' hb' => h b hb b' hb'
  byzantine_light := by decide
  honest_unique := by
    have h : ∀ b ∈ sampleBlocks 5, ∀ b' ∈ sampleBlocks 5, b.author ∉ ({3} : Finset (Fin 4)) →
        b.slot = b'.slot → b = b' := by decide +kernel
    exact fun b hb b' hb' => h b hb b' hb'

end OneChain.Consensus
