import OneChain.Lib.Ordered
import OneChain.Lib.Quorum
import Mathlib.Data.Prod.Lex

/-!
# Committee, blocks and their verification

The committee of an epoch with its thresholds, block references in their order, blocks, the stake
aggregator, and the checks of `SignedBlockVerifier::verify_block`.

An `AuthorityIndex` is `Fin n`, so an index out of range cannot be written down; the code rejects
one with `InvalidAuthorityIndex` before it uses it.

* `Committee.quorums` — with the faulty stake below the validity threshold, quorums meet in an
  authority that is not faulty.
* `verifyBlock_ok` — what an accepted block satisfies.
-/

namespace OneChain.Consensus

open Lib Finset

variable {n : ℕ}

/-- `GENESIS_ROUND`. -/
abbrev genesisRound : ℕ := 0

abbrev TransactionIndex := ℕ

/-- A 32-byte digest, compared as a number. -/
abbrev BlockDigest := ℕ

/-! ## The committee -/

/-- `Committee::new` refuses a committee without stake. -/
structure Committee (n : ℕ) where
  epoch : ℕ
  stake : Fin n → ℕ
  total_pos : 0 < ∑ a, stake a

namespace Committee

variable (C : Committee n)

def totalStake : ℕ := ∑ a, C.stake a

def quorumThreshold : ℕ := 2 * C.totalStake / 3 + 1

def validityThreshold : ℕ := (C.totalStake + 2) / 3

def reachedQuorum (stake : ℕ) : Prop := C.quorumThreshold ≤ stake
  deriving Decidable

/-- **Quorums of a committee** whose faulty stake is below the validity threshold. -/
def quorums (byzantine : Finset (Fin n))
    (h : ∑ a ∈ byzantine, C.stake a < C.validityThreshold) : Quorums (Fin n) where
  weight := C.stake
  threshold := C.quorumThreshold
  faulty := byzantine
  light := by
    unfold validityThreshold at h
    unfold quorumThreshold
    change C.totalStake + _ < _
    omega

end Committee

/-! ## Counting stake -/

/-- `StakeAggregator<QuorumThreshold>`: the authorities counted, and their stake. -/
structure StakeAggregator (C : Committee n) where
  votes : Finset (Fin n)
  stake : ℕ
  stake_eq : stake = ∑ a ∈ votes, C.stake a

namespace StakeAggregator

variable {C : Committee n}

def new : StakeAggregator C := ⟨∅, 0, by simp⟩

instance : DecidableEq (StakeAggregator C) := fun a b =>
  decidable_of_iff (a.votes = b.votes) <| by
    cases a with
    | mk votes stake stake_eq =>
      cases b with
      | mk votes' stake' stake_eq' =>
        subst stake_eq stake_eq'
        constructor
        · rintro rfl
          rfl
        · intro h
          injection h

/-- The vote counted, if the authority has not voted yet. -/
def insert (agg : StakeAggregator C) (vote : Fin n) : StakeAggregator C :=
  if h : vote ∈ agg.votes then agg
  else ⟨Insert.insert vote agg.votes, agg.stake + C.stake vote, by
    rw [Finset.sum_insert h, agg.stake_eq, Nat.add_comm]⟩

variable (agg : StakeAggregator C)

def reachedThreshold : Prop := C.reachedQuorum agg.stake
  deriving Decidable

/-- Counts the vote and tells whether the threshold is reached. -/
def add (vote : Fin n) : StakeAggregator C × Bool :=
  (agg.insert vote, decide (agg.insert vote).reachedThreshold)

/-- Counts the vote and tells whether it is a new one. -/
def addUnique (vote : Fin n) : StakeAggregator C × Bool :=
  (agg.insert vote, decide (vote ∉ agg.votes))

@[simp] theorem votes_new : (new : StakeAggregator C).votes = ∅ := rfl

@[simp] theorem votes_insert (vote : Fin n) :
    (agg.insert vote).votes = Insert.insert vote agg.votes := by
  unfold insert
  split
  · rename_i h
    exact (insert_eq_of_mem h).symm
  · rfl

theorem reachedThreshold_iff :
    agg.reachedThreshold ↔ C.quorumThreshold ≤ ∑ a ∈ agg.votes, C.stake a := by
  unfold reachedThreshold Committee.reachedQuorum
  rw [agg.stake_eq]

/-- Whether adding the authorities one after the other reaches the threshold. -/
def reaches (agg : StakeAggregator C) : List (Fin n) → Bool
  | [] => false
  | a :: rest => if (agg.add a).2 then true else (agg.add a).1.reaches rest

theorem not_reachedThreshold_new : ¬ (new : StakeAggregator C).reachedThreshold := by
  simp [reachedThreshold_iff, Committee.quorumThreshold]

theorem reaches_iff {agg : StakeAggregator C} (h : ¬ agg.reachedThreshold) {l : List (Fin n)} :
    agg.reaches l = true ↔ C.quorumThreshold ≤ ∑ a ∈ agg.votes ∪ l.toFinset, C.stake a := by
  induction l generalizing agg with
  | nil =>
    rw [reachedThreshold_iff] at h
    simp [reaches, not_le.1 h]
  | cons a l ih =>
    have hu : agg.votes ∪ (a :: l).toFinset = (agg.insert a).votes ∪ l.toFinset := by
      rw [votes_insert, List.toFinset_cons, union_insert, insert_union]
    rw [hu, reaches]
    by_cases hr : (agg.insert a).reachedThreshold
    · have hle := (reachedThreshold_iff _).1 hr
      simp only [add, hr, decide_true, if_true, true_iff]
      exact le_trans hle (sum_le_sum_of_subset subset_union_left)
    · simp only [add, hr]
      exact ih hr

theorem reaches_new {l : List (Fin n)} : (new : StakeAggregator C).reaches l = true ↔
      C.quorumThreshold ≤ ∑ a ∈ l.toFinset, C.stake a := by
  rw [reaches_iff not_reachedThreshold_new, votes_new, empty_union]

end StakeAggregator

/-! ## Blocks -/

structure BlockRef (n : ℕ) where
  round : ℕ
  author : Fin n
  digest : BlockDigest
  deriving DecidableEq

namespace BlockRef

/-- The derived order of the source compares round, author and digest, in this order. -/
def key (r : BlockRef n) : ℕ ×ₗ Fin n ×ₗ ℕ := toLex (r.round, toLex (r.author, r.digest))

theorem key_injective : Function.Injective (key (n := n)) := by
  rintro ⟨r, a, d⟩ ⟨r', a', d'⟩ h
  simpa [key] using h

instance : LinearOrder (BlockRef n) := LinearOrder.lift' key key_injective

variable {r s : BlockRef n}

theorem lt_iff : r < s ↔ r.round < s.round ∨ r.round = s.round ∧
      (r.author < s.author ∨ r.author = s.author ∧ r.digest < s.digest) := by
  change r.key < s.key ↔ _
  simp [key, Prod.Lex.lt_iff]

theorem lt_of_round_lt (h : r.round < s.round) : r < s := lt_iff.2 (.inl h)

theorem round_le_of_le (h : r ≤ s) : r.round ≤ s.round := by
  by_contra hlt
  exact absurd h (not_le.2 (lt_of_round_lt (not_le.1 hlt)))

end BlockRef

structure Slot (n : ℕ) where
  round : ℕ
  authority : Fin n
  deriving DecidableEq

def BlockRef.slot (r : BlockRef n) : Slot n := ⟨r.round, r.author⟩

/-- The transactions of a block that the author of the vote rejects. -/
structure BlockTransactionVotes (n : ℕ) where
  blockRef : BlockRef n
  rejects : List TransactionIndex
  deriving DecidableEq

/-- A block with its digest. A transaction is its bytes. -/
structure Block (n : ℕ) where
  (epoch round : ℕ)
  author : Fin n
  timestampMs : ℕ
  ancestors : List (BlockRef n)
  transactions : List (List UInt8)
  transactionVotes : List (BlockTransactionVotes n)
  digest : BlockDigest
  deriving DecidableEq

namespace Block

variable (b : Block n)

def reference : BlockRef n := ⟨b.round, b.author, b.digest⟩

def slot : Slot n := b.reference.slot

@[simp] theorem reference_round : b.reference.round = b.round := rfl

@[simp] theorem reference_author : b.reference.author = b.author := rfl

/-- The authors of the ancestors in the round before the block's. -/
def parents : Finset (Fin n) :=
  ((b.ancestors.filter fun a => a.round + 1 = b.round).map BlockRef.author).toFinset

theorem mem_parents {b : Block n} {a : Fin n} :
    a ∈ b.parents ↔ ∃ r ∈ b.ancestors, r.round + 1 = b.round ∧ r.author = a := by
  simp [parents, and_assoc]

/-- What verification makes sure of. -/
structure WellFormed (C : Committee n) (b : Block n) : Prop where
  round_pos : 0 < b.round
  own_first : ∃ a rest, b.ancestors = a :: rest ∧ a.author = b.author
  round_lt : ∀ a ∈ b.ancestors, a.round < b.round
  authors_nodup : (b.ancestors.map BlockRef.author).Nodup
  parents_quorum : C.quorumThreshold ≤ ∑ a ∈ b.parents, C.stake a

theorem WellFormed.eq_of_author {C : Committee n} {b : Block n} (h : b.WellFormed C)
    {r s : BlockRef n} (hr : r ∈ b.ancestors) (hs : s ∈ b.ancestors) (heq : r.author = s.author) :
    r = s :=
  eq_of_key h.authors_nodup hr hs heq

end Block

/-! ## Verification -/

inductive ConsensusError (n : ℕ)
  | wrongEpoch (expected actual : ℕ)
  | unexpectedGenesisBlock
  | signatureVerificationFailure
  | tooManyAncestors (count size : ℕ)
  | insufficientParentStakes (parentStakes quorum : ℕ)
  | invalidAncestorPosition (blockAuthority ancestorAuthority : Fin n) (position : ℕ)
  | invalidAncestorRound (ancestor block : ℕ)
  | invalidGenesisAncestor (ancestor : BlockRef n)
  | duplicatedAncestorsAuthority (author : Fin n)
  | transactionTooLarge (size limit : ℕ)
  | tooManyTransactions (count limit : ℕ)
  | tooManyTransactionBytes (size limit : ℕ)

/-- `SignedBlockVerifier`: the genesis blocks, the check of a signature, and the limits of the
protocol configuration, where `0` is no limit. -/
structure SignedBlockVerifier (n : ℕ) where
  genesis : List (BlockRef n)
  verifySignature : Block n → Bool
  (maxTransactionSizeBytes maxNumTransactionsInBlock maxTransactionsInBlockBytes : ℕ)

namespace SignedBlockVerifier

variable (C : Committee n) (verifier : SignedBlockVerifier n)

/-- The loop over the ancestors; `i` is the position, and the stake of the parents is summed up. -/
def checkAncestors (block : Block n) :
    ℕ → List (BlockRef n) → Finset (Fin n) → ℕ → Except (ConsensusError n) ℕ
  | _, [], _, parentStakes => .ok parentStakes
  | i, ancestor :: rest, seenAncestors, parentStakes => do
    check (¬ (i = 0 ∧ ancestor.author ≠ block.author ∨ 0 < i ∧ ancestor.author = block.author))
      (.invalidAncestorPosition block.author ancestor.author i)
    check (ancestor.round < block.round) (.invalidAncestorRound ancestor.round block.round)
    check (¬ (ancestor.round = genesisRound ∧ ancestor ∉ verifier.genesis))
      (.invalidGenesisAncestor ancestor)
    check (ancestor.author ∉ seenAncestors) (.duplicatedAncestorsAuthority ancestor.author)
    checkAncestors block (i + 1) rest (insert ancestor.author seenAncestors)
      (if ancestor.round + 1 = block.round then parentStakes + C.stake ancestor.author
        else parentStakes)

def checkTransactions (batch : List (List UInt8)) : Except (ConsensusError n) Unit := do
  for t in batch do
    check (¬ (verifier.maxTransactionSizeBytes < t.length ∧ 0 < verifier.maxTransactionSizeBytes))
      (.transactionTooLarge t.length verifier.maxTransactionSizeBytes)
  check (¬ (verifier.maxNumTransactionsInBlock < batch.length ∧
      0 < verifier.maxNumTransactionsInBlock))
    (.tooManyTransactions batch.length verifier.maxNumTransactionsInBlock)
  check (¬ (verifier.maxTransactionsInBlockBytes < (batch.map List.length).sum ∧
      0 < verifier.maxTransactionsInBlockBytes))
    (.tooManyTransactionBytes batch.length verifier.maxTransactionsInBlockBytes)

def verifyBlock (block : Block n) : Except (ConsensusError n) Unit := do
  check (block.epoch = C.epoch) (.wrongEpoch C.epoch block.epoch)
  check (block.round ≠ 0) .unexpectedGenesisBlock
  check (verifier.verifySignature block = true) .signatureVerificationFailure
  check (block.ancestors.length ≤ n) (.tooManyAncestors block.ancestors.length n)
  check (block.ancestors ≠ []) (.insufficientParentStakes 0 C.quorumThreshold)
  let parentStakes ← verifier.checkAncestors C block 0 block.ancestors ∅ 0
  check (C.reachedQuorum parentStakes) (.insufficientParentStakes parentStakes C.quorumThreshold)
  verifier.checkTransactions block.transactions

variable {C verifier} {block : Block n}

variable {i stakes total : ℕ} {seen : Finset (Fin n)} {l : List (BlockRef n)}

theorem checkAncestors_cons {ancestor : BlockRef n} {rest : List (BlockRef n)}
    (h : verifier.checkAncestors C block i (ancestor :: rest) seen stakes = .ok total) :
    (i = 0 → ancestor.author = block.author) ∧ ancestor.round < block.round ∧
      ancestor.author ∉ seen ∧
      verifier.checkAncestors C block (i + 1) rest (insert ancestor.author seen)
        (if ancestor.round + 1 = block.round then stakes + C.stake ancestor.author
          else stakes) = .ok total := by
  simp only [checkAncestors, bind_ok, check_ok] at h
  obtain ⟨_, hpos, _, hr, _, _, _, hs, hre⟩ := h
  refine ⟨fun hi => ?_, hr, hs, hre⟩
  by_contra hne
  exact hpos (.inl ⟨hi, hne⟩)

section

variable (h : verifier.checkAncestors C block i l seen stakes = .ok total)
include h

/-- The ancestors left to check have lower rounds and new authors, each once. -/
theorem checkAncestors_forall :
    (∀ a ∈ l, a.round < block.round ∧ a.author ∉ seen) ∧ (l.map BlockRef.author).Nodup := by
  induction l generalizing i seen stakes with
  | nil => simp
  | cons ancestor rest ih =>
    obtain ⟨_, hr, hs, hre⟩ := checkAncestors_cons h
    obtain ⟨hfor, hn⟩ := ih hre
    constructor
    · intro a ha
      rcases List.mem_cons.1 ha with rfl | ha
      · exact ⟨hr, hs⟩
      · exact ⟨(hfor a ha).1, fun hmem => (hfor a ha).2 (mem_insert_of_mem hmem)⟩
    · rw [List.map_cons, List.nodup_cons]
      refine ⟨fun hmem => ?_, hn⟩
      obtain ⟨a, ha, heq⟩ := List.mem_map.1 hmem
      exact (hfor a ha).2 (heq ▸ mem_insert_self _ _)

/-- The loop sums the stake of the ancestors in the round before. -/
theorem checkAncestors_total :
    total = stakes +
      (((l.filter fun a => a.round + 1 = block.round).map BlockRef.author).map C.stake).sum := by
  induction l generalizing i seen stakes with
  | nil =>
    simp only [checkAncestors, Except.ok.injEq] at h
    simp [h]
  | cons ancestor rest ih =>
    obtain ⟨_, _, _, hre⟩ := checkAncestors_cons h
    rw [ih hre]
    by_cases hr : ancestor.round + 1 = block.round
    · simp [hr, Nat.add_assoc]
    · simp [hr]

end

/-- **What an accepted block satisfies.** -/
theorem verifyBlock_ok (h : verifier.verifyBlock C block = .ok ()) : block.WellFormed C := by
  simp only [verifyBlock, bind_ok, check_ok] at h
  obtain ⟨_, _, _, hr, _, _, _, _, _, hne, stakes, hanc, _, hq, _⟩ := h
  obtain ⟨hfor, hn⟩ := checkAncestors_forall hanc
  refine ⟨Nat.pos_of_ne_zero hr, ?_, fun a ha => (hfor a ha).1, hn, ?_⟩
  · cases hl : block.ancestors with
    | nil => exact absurd hl hne
    | cons a rest =>
      rw [hl] at hanc
      exact ⟨a, rest, rfl, (checkAncestors_cons hanc).1 rfl⟩
  · have ht := checkAncestors_total hanc
    have hpar : ((block.ancestors.filter fun a => a.round + 1 = block.round).map
        BlockRef.author).Nodup := hn.sublist (List.filter_sublist.map _)
    rw [Nat.zero_add, ← List.sum_toFinset _ hpar] at ht
    exact le_trans hq ht.le

end SignedBlockVerifier

end OneChain.Consensus
