import OneChain.Authority.StakeAggregator

/-!
# Certifying a checkpoint, and noticing a split

`CheckpointSignatureAggregator` of `checkpoints/mod.rs` collects signatures for one sequence number
in a `MultiStakeAggregator`: a stake aggregator per digest. All signatures are verified against the
node's own summary, whatever the digest they were sent for. After a signature that did not lead to a
certificate the node checks whether a quorum has become unreachable: whether the stake that voted
for no digest and the stake of the largest faction are together below the threshold.

* `split_brain_detected` — as long as no signer is recorded under two digests, the uncommitted stake
  is well defined, and once a quorum is said to be unreachable no digest ever gets one.
* `split_brain_misreported` — a signer who is recorded under several digests is counted several
  times: a quorum is said to be unreachable and is then reached, and the subtraction underflows.
-/

namespace OneChain.Checkpoints

open Lib Authority OrdMap Machine

variable {M S A : Type}

/-! ## Stake by value -/

/-- The values are known by their digests only. -/
structure MultiStakeAggregator (S : Type) where
  stakeMaps : OrdMap ℕ (StakeAggregator (AuthoritySignInfo S))

/-- A subtraction of stakes that wraps around, or panics where overflow is checked. -/
inductive StakePanic
  | underflow
  deriving DecidableEq

namespace MultiStakeAggregator

def new : MultiStakeAggregator S := ⟨.empty⟩

variable (multi : MultiStakeAggregator S)

def totalVotes : ℕ := tally StakeAggregator.totalVotes multi.stakeMaps.values

/-- An entry is made for a new value only if the insert into it does not fail. -/
def insert [DecidableEq S] (scheme : SignatureScheme M S A) (committee : VotingCommittee)
    (multi : MultiStakeAggregator S) (k : ℕ) (data : M) (sig : AuthoritySignInfo S) :
    MultiStakeAggregator S × InsertResult (AuthorityQuorumSignInfo A) :=
  match multi.stakeMaps.get? k with
  | some entry =>
    let inserted := entry.insert scheme committee true data sig
    (⟨multi.stakeMaps.insert k inserted.1⟩, inserted.2)
  | none =>
    let inserted := StakeAggregator.new.insert scheme committee true data sig
    match inserted.2 with
    | .failed error => (multi, .failed error)
    | .quorumReached _ | .notEnoughVotes _ _ =>
      (⟨multi.stakeMaps.insert k inserted.1⟩, inserted.2)

def uncommittedStake : Except StakePanic ℕ := do
  check (multi.totalVotes ≤ totalVotingPower) .underflow
  pure (totalVotingPower - multi.totalVotes)

def pluralityStake : ℕ := (multi.stakeMaps.values.map StakeAggregator.totalVotes).max?.getD 0

def quorumUnreachable (committee : VotingCommittee) (multi : MultiStakeAggregator S) :
    Except StakePanic Bool := do
  let uncommitted ← multi.uncommittedStake
  pure (uncommitted + multi.pluralityStake < committee.threshold true)

end MultiStakeAggregator

/-! ## Signatures for a checkpoint -/

structure CheckpointSignatureMessage (S : Type) where
  digest : ℕ
  sig : AuthoritySignInfo S
  deriving DecidableEq

structure CheckpointSignatureAggregator (M S : Type) where
  summary : M
  digest : ℕ
  signaturesByDigest : MultiStakeAggregator S

namespace CheckpointSignatureAggregator

/-- What comes back from `try_aggregate`, and whether a split was detected on the way. -/
structure Aggregated (A : Type) where
  cert : Option (AuthorityQuorumSignInfo A)
  splitBrain : Bool
  deriving DecidableEq

/-- The signature is put into an envelope around the node's own summary. -/
def tryAggregate [DecidableEq S] (scheme : SignatureScheme M S A) (committee : VotingCommittee)
    (s : CheckpointSignatureAggregator M S) (data : CheckpointSignatureMessage S) :
    Except StakePanic (CheckpointSignatureAggregator M S × Aggregated A) :=
  let inserted := s.signaturesByDigest.insert scheme committee data.digest s.summary data.sig
  let s' := { s with signaturesByDigest := inserted.1 }
  let checkForSplitBrain := do
    let split ← inserted.1.quorumUnreachable committee
    pure (s', ⟨none, split⟩)
  match inserted.2 with
  -- repeated signatures are ignored
  | .failed (.stakeAggregatorRepeatedSigner _ false) => pure (s', ⟨none, false⟩)
  | .failed _ => checkForSplitBrain
  | .quorumReached cert => pure (s', ⟨if data.digest ≠ s.digest then none else some cert, false⟩)
  | .notEnoughVotes _ _ => checkForSplitBrain

/-- One signature after the other, for one sequence number. -/
def machine [DecidableEq S] (scheme : SignatureScheme M S A) (committee : VotingCommittee) :
    Machine (CheckpointSignatureAggregator M S) (CheckpointSignatureMessage S) StakePanic where
  init s := s.signaturesByDigest = .new
  step s data := (tryAggregate scheme committee s data).map Prod.fst

/-- The signer is not recorded under another digest. -/
def Undivided (s : CheckpointSignatureAggregator M S) (data : CheckpointSignatureMessage S) :
    Prop :=
  ∀ e ∈ s.signaturesByDigest.stakeMaps.entries, e.1 ≠ data.digest → data.sig.authority ∉ e.2.data
  deriving Decidable

end CheckpointSignatureAggregator

/-! ## Votes are counted once -/

namespace MultiStakeAggregator

variable {scheme : SignatureScheme M S A} {committee : VotingCommittee} {data : M}
  {multi : MultiStakeAggregator S} {k : ℕ} {sig : AuthoritySignInfo S}
  {entry : StakeAggregator (AuthoritySignInfo S)}

/-- What was recorded for a digest. -/
def entryFor (multi : MultiStakeAggregator S) (k : ℕ) : StakeAggregator (AuthoritySignInfo S) :=
  (multi.stakeMaps.get? k).getD .new

theorem entryFor_insert (multi : MultiStakeAggregator S) (k j : ℕ)
    (entry : StakeAggregator (AuthoritySignInfo S)) :
    entryFor ⟨multi.stakeMaps.insert k entry⟩ j = if j = k then entry else multi.entryFor j := by
  unfold entryFor
  rw [get?_insert]
  split <;> rfl

/-- **What an insert does**: it fails for a new digest, or it is an insert into the entry of the
digest. -/
theorem insert_cases [DecidableEq S] {multi' : MultiStakeAggregator S}
    (hm : (multi.insert scheme committee k data sig).1 = multi') : multi' = multi ∨
      multi' = ⟨multi.stakeMaps.insert k
        ((multi.entryFor k).insert scheme committee true data sig).1⟩ := by
  subst hm
  unfold insert entryFor
  cases multi.stakeMaps.get? k with
  | some entry => exact .inr rfl
  | none =>
    dsimp only [Option.getD_none]
    cases (StakeAggregator.new.insert scheme committee true data sig).2 with
    | failed error => exact .inl rfl
    | quorumReached cert => exact .inr rfl
    | notEnoughVotes votes names => exact .inr rfl

variable (multi k entry) in
theorem totalVotes_insert :
    totalVotes ⟨multi.stakeMaps.insert k entry⟩ + (multi.entryFor k).totalVotes =
      multi.totalVotes + entry.totalVotes := by
  unfold totalVotes entryFor
  cases hget : multi.stakeMaps.get? k with
  | some old => exact sum_values_insert _ hget
  | none =>
    have hp := (entries_perm_insert (m := multi.stakeMaps) (k := k) (v := entry)).map Prod.snd
    rw [erase_of_get?_eq_none hget] at hp
    have ht := (tally_perm (f := StakeAggregator.totalVotes) hp).trans tally_cons
    exact ht.trans (Nat.add_comm _ _)

variable (committee multi) in
/-- The votes of an entry are those of its signers, and nobody is recorded twice. -/
structure Recorded : Prop where
  accounted : ∀ k, (multi.entryFor k).Accounted committee
  disjoint : ∀ k j, k ≠ j → ∀ a ∈ (multi.entryFor k).data, a ∉ (multi.entryFor j).data

theorem recorded_new : (new : MultiStakeAggregator S).Recorded committee :=
  ⟨fun _ => StakeAggregator.accounted_new, fun _ _ _ _ ha => absurd ha notMem_empty⟩

theorem Recorded.replace (h : multi.Recorded committee) (he : entry.Accounted committee)
    {author : AuthorityName} (hd : ∀ a ∈ entry.data, a ∈ (multi.entryFor k).data ∨ a = author)
    (hau : ∀ j ≠ k, author ∉ (multi.entryFor j).data) :
    Recorded committee ⟨multi.stakeMaps.insert k entry⟩ := by
  have ho : ∀ j ≠ k, ∀ a ∈ entry.data, a ∉ (multi.entryFor j).data := by
    intro j hj a ha
    rcases hd a ha with ha | rfl
    · exact h.disjoint k j hj.symm a ha
    · exact hau j hj
  constructor
  · intro j
    rw [entryFor_insert]
    split
    · exact he
    · exact h.accounted j
  · intro i j hne a hi hj
    rw [entryFor_insert] at hi hj
    by_cases hik : i = k
    · rw [if_pos hik] at hi
      rw [if_neg (hik ▸ hne.symm)] at hj
      exact ho j (hik ▸ hne.symm) a hi hj
    · rw [if_neg hik] at hi
      by_cases hjk : j = k
      · rw [if_pos hjk] at hj
        exact ho i hik a hj hi
      · rw [if_neg hjk] at hj
        exact h.disjoint i j hne a hi hj

/-- **Votes of people who are recorded once do not exceed the voting power.** -/
theorem Recorded.totalVotes_le (h : multi.Recorded committee) :
    multi.totalVotes ≤ totalVotingPower := by
  have hen : ∀ e ∈ multi.stakeMaps.entries, multi.entryFor e.1 = e.2 := by
    intro e he
    rw [entryFor, mem_entries.1 he, Option.getD_some]
  have ht : multi.totalVotes = tally committee.weight
      (multi.stakeMaps.entries.flatMap fun e => e.2.data.keys) := by
    rw [tally_flatMap, totalVotes, OrdMap.values, tally_map]
    refine tally_congr fun e he => ?_
    have hacc := h.accounted e.1
    rwa [hen e he] at hacc
  rw [ht]
  refine committee.tally_weight_le (List.nodup_flatMap.2 ⟨fun e _ => e.2.data.nodup_keys, ?_⟩)
  refine multi.stakeMaps.sorted.imp_of_mem fun {e e'} he he' hlt => ?_
  intro a ha ha'
  have hd := h.disjoint e.1 e'.1 (ne_of_lt hlt) a
  rw [hen e he, hen e' he'] at hd
  exact hd (OrdMap.mem_keys.1 ha) (OrdMap.mem_keys.1 ha')

/-! ## Unreachable quorums -/

variable (committee multi) in
/-- Even with all votes that were not recorded, no digest reaches the threshold. -/
def Unreachable : Prop :=
  ∀ k, (multi.entryFor k).totalVotes + totalVotingPower <
    committee.threshold true + multi.totalVotes

theorem entryFor_le_pluralityStake (multi : MultiStakeAggregator S) (k : ℕ) :
    (multi.entryFor k).totalVotes ≤ multi.pluralityStake := by
  unfold entryFor pluralityStake
  cases hget : multi.stakeMaps.get? k with
  | none => exact Nat.zero_le _
  | some entry =>
    have hmem : entry.totalVotes ∈ multi.stakeMaps.values.map StakeAggregator.totalVotes :=
      List.mem_map_of_mem (mem_values.2 ⟨k, hget⟩)
    cases hmax : (multi.stakeMaps.values.map StakeAggregator.totalVotes).max? with
    | none => simp [List.max?_eq_none_iff.1 hmax] at hmem
    | some m => exact (List.max?_eq_some_iff.1 hmax).2 _ hmem

theorem uncommittedStake_of_le (h : multi.totalVotes ≤ totalVotingPower) :
    multi.uncommittedStake = .ok (totalVotingPower - multi.totalVotes) := by
  rw [uncommittedStake, check_of h]
  rfl

theorem Recorded.unreachable (h : multi.Recorded committee)
    (hunr : multi.quorumUnreachable committee = .ok true) : multi.Unreachable committee := by
  intro k
  have hle := h.totalVotes_le
  have hp := multi.entryFor_le_pluralityStake k
  rw [quorumUnreachable, uncommittedStake_of_le hle] at hunr
  have hlt := of_decide_eq_true (Except.ok.inj hunr)
  omega

section Insert

variable [DecidableEq S] {multi' : MultiStakeAggregator S} (h : multi.Recorded committee)
  (hau : ∀ j ≠ k, sig.authority ∉ (multi.entryFor j).data)
  (hm : (multi.insert scheme committee k data sig).1 = multi')

include h hau hm

theorem Recorded.insert : multi'.Recorded committee := by
  rcases insert_cases hm with rfl | rfl
  · exact h
  · obtain ⟨hacc, hk, _⟩ := StakeAggregator.insert_spec rfl (h.accounted k)
    refine h.replace hacc (fun a ha => ?_) hau
    obtain ⟨s, hs⟩ := mem_iff.1 ha
    rcases hk a s hs with hold | ⟨heq, _⟩
    · exact .inl (mem_iff.2 ⟨s, hold⟩)
    · exact .inr heq

/-- **An unreachable quorum stays so.** A vote moves from the uncommitted stake to one digest, and
no entry gets as far as to aggregate its signatures and throw some out. -/
theorem Recorded.insert_unreachable (hunr : multi.Unreachable committee) :
    multi'.Unreachable committee := by
  rcases insert_cases hm with rfl | rfl
  · exact hunr
  generalize hr : (multi.entryFor k).insert scheme committee true data sig = r
  rcases StakeAggregator.insert_cases hr with ⟨he, _⟩ | ⟨_, hnew, hc⟩
  · intro j
    have ht := multi.totalVotes_insert k (multi.entryFor k)
    have hj := hunr j
    rw [he, entryFor_insert]
    split
    · subst j; omega
    · omega
  · -- with the new vote counted the votes are still within the voting power
    have hrec := h.replace ((h.accounted k).insert_new hnew)
      (fun a ha => (mem_insert.1 ha).symm) hau
    have hle := hrec.totalVotes_le
    generalize hnext : (multi.entryFor k).withSignature committee sig.authority sig = next at *
    have hge : (multi.entryFor k).totalVotes ≤ next.totalVotes := hnext ▸ Nat.le_add_right _ _
    have ht := multi.totalVotes_insert k next
    have hk := hunr k
    rcases hc with ⟨he, _⟩ | ⟨hr, _⟩
    · intro j
      have hj := hunr j
      rw [he, entryFor_insert]
      split
      · omega
      · omega
    · omega

end Insert

end MultiStakeAggregator

/-! ## Runs -/

namespace CheckpointSignatureAggregator

variable {scheme : SignatureScheme M S A} {committee : VotingCommittee}
  {s s' : CheckpointSignatureAggregator M S} {data : CheckpointSignatureMessage S}

open MultiStakeAggregator

theorem undivided_iff : s.Undivided data ↔
    ∀ j ≠ data.digest, data.sig.authority ∉ (s.signaturesByDigest.entryFor j).data := by
  unfold Undivided entryFor
  constructor
  · intro h j hj
    cases hget : s.signaturesByDigest.stakeMaps.get? j with
    | none => exact notMem_empty
    | some entry => exact h (j, entry) (mem_entries.2 hget) hj
  · intro h e he hne
    have hen := h e.1 hne
    rwa [mem_entries.1 he] at hen

variable [DecidableEq S]

/-- An attempt records the signature; it fails only if more votes are recorded than there are. -/
theorem tryAggregate_ok {multi : MultiStakeAggregator S}
    (hm : (s.signaturesByDigest.insert scheme committee data.digest s.summary data.sig).1 = multi)
    (hle : multi.totalVotes ≤ totalVotingPower) :
    ∃ out, tryAggregate scheme committee s data =
      .ok ({ s with signaturesByDigest := multi }, out) := by
  have hc : ∃ split, multi.quorumUnreachable committee = .ok split := by
    rw [quorumUnreachable, uncommittedStake_of_le hle]
    exact ⟨_, rfl⟩
  obtain ⟨split, hs⟩ := hc
  unfold tryAggregate
  dsimp only
  rw [hm, hs]
  split
  · exact ⟨_, rfl⟩
  · exact ⟨_, rfl⟩
  · exact ⟨_, rfl⟩
  · exact ⟨_, rfl⟩

variable (scheme) in
/-- **A step on an undivided signature.** -/
theorem step_undivided (h : s.signaturesByDigest.Recorded committee) (hund : s.Undivided data) :
    ∃ s', (machine scheme committee).step s data = .ok s' ∧
      s'.signaturesByDigest.Recorded committee ∧
      (s.signaturesByDigest.Unreachable committee →
        s'.signaturesByDigest.Unreachable committee) := by
  have hau := undivided_iff.1 hund
  have hrec : (s.signaturesByDigest.insert scheme committee data.digest s.summary
      data.sig).1.Recorded committee := h.insert hau rfl
  obtain ⟨out, hout⟩ := tryAggregate_ok rfl hrec.totalVotes_le
  exact ⟨_, congrArg (Except.map Prod.fst) hout, hrec, h.insert_unreachable hau rfl⟩

/-- The machine that goes on from a state. -/
def machineFrom (scheme : SignatureScheme M S A) (committee : VotingCommittee)
    (s : CheckpointSignatureAggregator M S) :
    Machine (CheckpointSignatureAggregator M S) (CheckpointSignatureMessage S) StakePanic :=
  { machine scheme committee with init := (· = s) }

/-- **Detecting a split.** As long as no signature is by a signer who is recorded under another
digest, no subtraction underflows, and a quorum that is said to be unreachable is never reached,
whatever is signed from then on. -/
theorem split_brain_detected (h : (machine scheme committee).Reach Undivided s) :
    (∃ stake, s.signaturesByDigest.uncommittedStake = .ok stake) ∧
    (∀ data, s.Undivided data → ∃ s', (machine scheme committee).step s data = .ok s') ∧
    (s.signaturesByDigest.quorumUnreachable committee = .ok true →
      ∀ s', (machineFrom scheme committee s).Reach Undivided s' →
        ∀ k, (s'.signaturesByDigest.entryFor k).totalVotes < committee.threshold true) := by
  have hrec : s.signaturesByDigest.Recorded committee := by
    refine h.invariant (fun s hs => hs ▸ recorded_new) fun s data s' hs hund hst => ?_
    obtain ⟨t, ht, hrec, _⟩ := step_undivided scheme hs hund
    cases ht.symm.trans hst
    exact hrec
  refine ⟨⟨_, uncommittedStake_of_le hrec.totalVotes_le⟩, fun data hund => ?_,
    fun hunr s' hs' k => ?_⟩
  · obtain ⟨s', hs, _⟩ := step_undivided scheme hrec hund
    exact ⟨s', hs⟩
  have hf : s'.signaturesByDigest.Recorded committee ∧
      s'.signaturesByDigest.Unreachable committee := by
    refine hs'.invariant (P := fun s => s.signaturesByDigest.Recorded committee ∧
      s.signaturesByDigest.Unreachable committee)
      (fun t ht => ht ▸ ⟨hrec, hrec.unreachable hunr⟩) fun t data t' hf hund hst => ?_
    obtain ⟨u, hu, hrec, hnext⟩ := step_undivided scheme hf.1 hund
    cases hu.symm.trans hst
    exact ⟨hrec, hnext hf.2⟩
  have hb := hf.2 k
  have hle := hf.1.totalVotes_le
  omega

end CheckpointSignatureAggregator

/-! ## Sample runs -/

namespace SplitSample

open CheckpointSignatureAggregator

/-- Three authorities of about a third each. -/
def thirds : VotingCommittee :=
  ⟨5, ((OrdMap.empty.insert 1 3333).insert 2 3333).insert 3 3334, by decide +kernel⟩

/-- Authority 1 has less than a third, authority 2 the rest. -/
def twoThirds : VotingCommittee :=
  ⟨5, (OrdMap.empty.insert 1 3333).insert 2 6667, by decide +kernel⟩

def vote (authority : AuthorityName) (digest : ℕ) : CheckpointSignatureMessage Bool :=
  ⟨digest, StakeSample.sig authority true⟩

/-- The node's own checkpoint has digest 7. -/
def start : CheckpointSignatureAggregator Unit Bool := ⟨(), 7, .new⟩

end SplitSample

open SplitSample CheckpointSignatureAggregator in
/-- Three authorities sign three digests. -/
theorem split_brain_detected_sample : ∃ s, (machine StakeSample.scheme thirds).Reach Undivided s ∧
      s.signaturesByDigest.quorumUnreachable thirds = .ok true ∧
      ∀ s', (machineFrom StakeSample.scheme thirds s).Reach Undivided s' →
        ∀ k, (s'.signaturesByDigest.entryFor k).totalVotes < thirds.threshold true := by
  refine exists_reach_and [vote 1 7, vote 2 8, vote 3 9] _
    (init_ok (t := start) rfl) (by decide +kernel) fun s hs hunr => ?_
  exact (split_brain_detected hs).2.2 hunr

open SplitSample CheckpointSignatureAggregator in
/-- An authority with less than a third signs three digests, and a quorum is said to be unreachable;
with the signature of the other one the checkpoint is certified. When it signs a fourth digest the
uncommitted stake underflows. -/
theorem split_brain_misreported :
    (∃ s, (machine StakeSample.scheme twoThirds).Reach Machine.free s ∧
      s.signaturesByDigest.quorumUnreachable twoThirds = .ok true ∧
      (tryAggregate StakeSample.scheme twoThirds s (vote 2 7)).toOption.any
        (fun out => out.2.cert.isSome) = true) ∧
    ∃ s, (machine StakeSample.scheme twoThirds).Reach Machine.free s ∧
      failsWith (tryAggregate StakeSample.scheme twoThirds s (vote 1 10)) .underflow = true := by
  constructor
  · exact exists_reach [vote 1 7, vote 1 8, vote 1 9] _ (init_ok (t := start) rfl)
      (by decide +kernel)
  · exact exists_reach [vote 1 7, vote 1 8, vote 1 9] _ (init_ok (t := start) rfl)
      (by decide +kernel)

end OneChain.Checkpoints
