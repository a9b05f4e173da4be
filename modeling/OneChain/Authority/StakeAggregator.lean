import OneChain.Lib.Ordered
import OneChain.Lib.Transition

/-!
# Collecting signatures into a quorum

`stake_aggregator.rs`: signatures of authorities are kept until their voting power reaches the
threshold of the committee; then they are aggregated and the aggregate is verified. If that fails,
each signature is verified by itself, and the bad ones are thrown out.

The signature scheme is a parameter. All that is asked of it is that signatures which verify one by
one also verify when they are aggregated (`SignatureScheme.complete`). The bitmap of a certificate's
signers is the list of their names.

* `aggregation_sound` — the total is the voting power of the retained signers, a quorum is reported
  only with a verified aggregate, and it is reported in time as long as no bad signature is
  inserted.
* `quorum_missed` — with a bad signature, or one of a stranger, a quorum of valid signatures may
  never be reported.
-/

namespace OneChain.Authority

open Lib List OrdMap Machine

/-! ## The committee -/

/-- The bytes of a public key, compared as a number. -/
abbrev AuthorityName := ℕ

/-- `TOTAL_VOTING_POWER`. -/
def totalVotingPower : ℕ := 10000

/-- `Committee`; `Committee::new` makes sure of the total. -/
structure VotingCommittee where
  epoch : ℕ
  votingRights : OrdMap AuthorityName ℕ
  total_eq : votingRights.values.sum = totalVotingPower

namespace VotingCommittee

variable (committee : VotingCommittee)

def weight (authority : AuthorityName) : ℕ := (committee.votingRights.get? authority).getD 0

/-- `QUORUM_THRESHOLD` for a strong quorum, `VALIDITY_THRESHOLD` for a weak one. -/
def threshold (_ : VotingCommittee) (strength : Bool) : ℕ :=
  if strength then 6667 else 3334

theorem threshold_pos (strength : Bool) : 0 < committee.threshold strength := by
  unfold threshold
  split <;> decide

/-- Distinct authorities do not have more than the whole voting power. -/
theorem tally_weight_le {l : List AuthorityName} (hl : l.Nodup) :
    tally committee.weight l ≤ totalVotingPower := by
  have hz : ∀ a ∈ l, committee.weight a =
      if decide (a ∈ committee.votingRights) = true then committee.weight a else 0 := by
    intro a _
    by_cases ha : a ∈ committee.votingRights
    · simp [ha]
    · simp [weight, notMem_iff.1 ha]
  have hval : tally committee.weight committee.votingRights.keys = totalVotingPower := by
    rw [← committee.total_eq, OrdMap.keys, tally, map_map]
    refine congrArg List.sum (map_congr_left fun e he => ?_)
    rw [Function.comp_apply, weight, mem_entries.1 he, Option.getD_some]
  rw [tally_congr hz, ← tally_filter, ← hval]
  refine tally_le_of_subset (hl.filter _) fun a ha => ?_
  exact OrdMap.mem_keys.2 (of_decide_eq_true (mem_filter.1 ha).2)

end VotingCommittee

/-! ## Signatures -/

/-- Signatures `S` on messages `M`, and aggregates `A` of them. -/
structure SignatureScheme (M S A : Type) where
  verify : AuthorityName → M → S → Bool
  aggregate : List S → Option A
  verifyAggregate : List AuthorityName → M → A → Bool
  complete : ∀ (m : M) (sigs : List (AuthorityName × S)), sigs ≠ [] →
    (∀ e ∈ sigs, verify e.1 m e.2 = true) →
    ∃ a, aggregate (sigs.map Prod.snd) = some a ∧ verifyAggregate (sigs.map Prod.fst) m a = true

structure AuthoritySignInfo (S : Type) where
  epoch : ℕ
  authority : AuthorityName
  signature : S
  deriving DecidableEq

structure AuthorityQuorumSignInfo (A : Type) where
  epoch : ℕ
  signature : A
  signers : List AuthorityName
  deriving DecidableEq

inductive SuiError
  | stakeAggregatorRepeatedSigner (signer : AuthorityName) (conflictingSig : Bool)
  | invalidAuthenticator
  | wrongEpoch (expectedEpoch actualEpoch : ℕ)
  | invalidSignature (error : String)
  | unknownSigner (signer : AuthorityName)
  deriving DecidableEq

variable {M S A : Type}

namespace AuthoritySignInfo

/-- Whether `verify_secure` returns `Ok`. -/
def verifySecure (scheme : SignatureScheme M S A) (committee : VotingCommittee) (data : M)
    (sig : AuthoritySignInfo S) : Bool :=
  sig.epoch = committee.epoch ∧ 0 < committee.weight sig.authority ∧
    scheme.verify sig.authority data sig.signature = true

end AuthoritySignInfo

/-- The signatures in the order of their authorities. -/
def signaturesByAuthority (authSignInfos : List (AuthoritySignInfo S)) : OrdMap AuthorityName S :=
  authSignInfos.foldl (fun m a => m.insert a.authority a.signature) .empty

namespace AuthorityQuorumSignInfo

def newFromAuthSignInfos (scheme : SignatureScheme M S A) (committee : VotingCommittee)
    (strength : Bool) (authSignInfos : List (AuthoritySignInfo S)) :
    Except SuiError (AuthorityQuorumSignInfo A) := do
  check (∀ a ∈ authSignInfos, a.epoch = committee.epoch)
    (.invalidSignature "All signatures must be from the same epoch as the committee")
  check (committee.threshold strength ≤ tally (fun a => committee.weight a.authority) authSignInfos)
    (.invalidSignature "Signatures don't have enough stake to form a quorum")
  let signatures := signaturesByAuthority authSignInfos
  let _ ← signatures.keys.mapM fun pk => check (pk ∈ committee.votingRights)
    (SuiError.unknownSigner pk)
  let signature ← require (scheme.aggregate signatures.values)
    (.invalidSignature "Signature aggregation failed")
  pure ⟨committee.epoch, signature, signatures.keys⟩

/-- Whether `verify_secure` returns `Ok`. -/
def verifySecure (scheme : SignatureScheme M S A) (committee : VotingCommittee) (strength : Bool)
    (data : M) (info : AuthorityQuorumSignInfo A) : Bool :=
  info.epoch = committee.epoch ∧ (∀ a ∈ info.signers, 0 < committee.weight a) ∧
    committee.threshold strength ≤ tally committee.weight info.signers ∧
    scheme.verifyAggregate info.signers data info.signature = true

end AuthorityQuorumSignInfo

/-! ## The aggregator -/

structure StakeAggregator (S : Type) where
  data : OrdMap AuthorityName S
  totalVotes : ℕ

inductive InsertResult (CertT : Type)
  | quorumReached (cert : CertT)
  | failed (error : SuiError)
  | notEnoughVotes (badVotes : ℕ) (badAuthorities : List AuthorityName)
  deriving DecidableEq

def InsertResult.isQuorumReached {CertT : Type} : InsertResult CertT → Bool
  | quorumReached _ => true
  | failed _ | notEnoughVotes _ _ => false

namespace StakeAggregator

def new : StakeAggregator S := ⟨.empty, 0⟩

/-- The signature of an authority without voting power is kept, although the insert fails. -/
def insertGeneric [DecidableEq S] (committee : VotingCommittee) (strength : Bool)
    (agg : StakeAggregator S) (authority : AuthorityName) (s : S) :
    StakeAggregator S × InsertResult (OrdMap AuthorityName S) :=
  match agg.data.get? authority with
  | some s' => (agg, .failed (.stakeAggregatorRepeatedSigner authority (s' ≠ s)))
  | none =>
    let data := agg.data.insert authority s
    let votes := committee.weight authority
    if 0 < votes then
      if committee.threshold strength ≤ agg.totalVotes + votes then
        (⟨data, agg.totalVotes + votes⟩, .quorumReached data)
      else (⟨data, agg.totalVotes + votes⟩, .notEnoughVotes 0 [])
    else (⟨data, agg.totalVotes⟩, .failed .invalidAuthenticator)

/-- One signature of the loop that verifies them one by one; the state also has the votes and the
authorities that were thrown out. -/
def evictBad (bad : AuthorityName × AuthoritySignInfo S → Bool) (committee : VotingCommittee)
    (state : StakeAggregator (AuthoritySignInfo S) × ℕ × List AuthorityName)
    (entry : AuthorityName × AuthoritySignInfo S) :
    StakeAggregator (AuthoritySignInfo S) × ℕ × List AuthorityName :=
  if bad entry then
    let votes := committee.weight entry.1
    (⟨state.1.data.erase entry.1, state.1.totalVotes - votes⟩, state.2.1 + votes,
      state.2.2 ++ [entry.1])
  else state

/-- What is done when the threshold is reached. -/
def certify (scheme : SignatureScheme M S A) (committee : VotingCommittee) (strength : Bool)
    (data : M) (agg : StakeAggregator (AuthoritySignInfo S)) :
    StakeAggregator (AuthoritySignInfo S) × InsertResult (AuthorityQuorumSignInfo A) :=
  match AuthorityQuorumSignInfo.newFromAuthSignInfos scheme committee strength agg.data.values with
  | .error error => (agg, .failed error)
  | .ok aggregated =>
    if aggregated.verifySecure scheme committee strength data then (agg, .quorumReached aggregated)
    else
      let evicted := agg.data.entries.foldl
        (evictBad (fun entry => !entry.2.verifySecure scheme committee data) committee) (agg, 0, [])
      (evicted.1, .notEnoughVotes evicted.2.1 evicted.2.2)

/-- `StakeAggregator::insert`, for the signature of an envelope around `data`. -/
def insert [DecidableEq S] (scheme : SignatureScheme M S A) (committee : VotingCommittee)
    (strength : Bool) (agg : StakeAggregator (AuthoritySignInfo S)) (data : M)
    (sig : AuthoritySignInfo S) :
    StakeAggregator (AuthoritySignInfo S) × InsertResult (AuthorityQuorumSignInfo A) :=
  if committee.epoch ≠ sig.epoch then (agg, .failed (.wrongEpoch committee.epoch sig.epoch))
  else
    match agg.insertGeneric committee strength sig.authority sig with
    | (agg, .quorumReached _) => agg.certify scheme committee strength data
    | (agg, .failed error) => (agg, .failed error)
    | (agg, .notEnoughVotes badVotes badAuthorities) =>
      (agg, .notEnoughVotes badVotes badAuthorities)

end StakeAggregator

/-! ## Accounting -/

namespace StakeAggregator

variable {scheme : SignatureScheme M S A} {committee : VotingCommittee} {strength : Bool} {data : M}

/-- The aggregator with one more signature. -/
def withSignature (committee : VotingCommittee) (agg : StakeAggregator S) (a : AuthorityName)
    (s : S) : StakeAggregator S :=
  ⟨agg.data.insert a s, agg.totalVotes + committee.weight a⟩

/-- The votes are those of the retained signers. -/
def Accounted (committee : VotingCommittee) (agg : StakeAggregator S) : Prop :=
  agg.totalVotes = tally committee.weight agg.data.keys

theorem accounted_new : (new : StakeAggregator S).Accounted committee := rfl

variable {a : AuthorityName} {agg : StakeAggregator (AuthoritySignInfo S)}
  {sig : AuthoritySignInfo S}

theorem tally_keys_insert {m : OrdMap AuthorityName S} {s : S} (h : m.get? a = none)
    (f : AuthorityName → ℕ) : tally f (m.insert a s).keys = f a + tally f m.keys := by
  have hp := (entries_perm_insert (m := m) (k := a) (v := s)).map Prod.fst
  rw [erase_of_get?_eq_none h] at hp
  exact (tally_perm hp).trans tally_cons

theorem Accounted.insert_new (h : agg.Accounted committee)
    (hnew : agg.data.get? sig.authority = none) :
    (agg.withSignature committee sig.authority sig).Accounted committee := by
  unfold Accounted withSignature at *
  rw [tally_keys_insert hnew, h, Nat.add_comm]

theorem insertGeneric_cases [DecidableEq S] {agg : StakeAggregator S} {s : S}
    {r : StakeAggregator S × InsertResult (OrdMap AuthorityName S)}
    (hr : agg.insertGeneric committee strength a s = r) :
    (r.1 = agg ∧ a ∈ agg.data ∧ r.2.isQuorumReached = false) ∨
    (r.1 = agg.withSignature committee a s ∧ agg.data.get? a = none ∧
      (r.2.isQuorumReached = true ↔ 0 < committee.weight a ∧
        committee.threshold strength ≤ (agg.withSignature committee a s).totalVotes)) := by
  subst hr
  unfold insertGeneric withSignature
  cases hget : agg.data.get? a with
  | some s' => exact .inl ⟨rfl, mem_iff.2 ⟨s', hget⟩, rfl⟩
  | none =>
    by_cases hv : 0 < committee.weight a
    · by_cases ht : committee.threshold strength ≤ agg.totalVotes + committee.weight a
      · simp [hv, ht, InsertResult.isQuorumReached]
      · simp [hv, ht, InsertResult.isQuorumReached]
    · have hz : committee.weight a = 0 := by omega
      simp [hz, InsertResult.isQuorumReached]

/-- Throwing out bad signatures takes their votes away, and keeps the others. -/
theorem evictBad_spec (bad : AuthorityName × AuthoritySignInfo S → Bool)
    {l : List (AuthorityName × AuthoritySignInfo S)} (hl : (l.map Prod.fst).Nodup)
    (state : StakeAggregator (AuthoritySignInfo S) × ℕ × List AuthorityName)
    (hmem : ∀ e ∈ l, e.1 ∈ state.1.data) (h : state.1.Accounted committee) :
    (l.foldl (evictBad bad committee) state).1.Accounted committee ∧
      ∀ a s, (l.foldl (evictBad bad committee) state).1.data.get? a = some s →
        state.1.data.get? a = some s := by
  induction l generalizing state with
  | nil => exact ⟨h, fun _ _ => id⟩
  | cons e l ih =>
    rw [map_cons, nodup_cons] at hl
    rw [foldl_cons]
    by_cases hbad : bad e = true
    · have hst : evictBad bad committee state e =
          (⟨state.1.data.erase e.1, state.1.totalVotes - committee.weight e.1⟩,
            state.2.1 + committee.weight e.1, state.2.2 ++ [e.1]) := if_pos hbad
      have ht : tally committee.weight state.1.data.keys =
          committee.weight e.1 + tally committee.weight (state.1.data.erase e.1).keys :=
        (tally_perm (keys_perm_erase (hmem e mem_cons_self))).symm.trans tally_cons
      have hr : ∀ e' ∈ l, e'.1 ∈ state.1.data.erase e.1 := by
        intro e' he'
        have hne : e'.1 ≠ e.1 := fun heq => hl.1 (mem_map.2 ⟨e', he', heq⟩)
        rw [mem_def, get?_erase, if_neg hne]
        exact hmem e' (mem_cons_of_mem _ he')
      have hacc : Accounted committee
          ⟨state.1.data.erase e.1, state.1.totalVotes - committee.weight e.1⟩ := by
        unfold Accounted at h ⊢
        rw [h, ht, Nat.add_sub_cancel_left]
      rw [hst]
      obtain ⟨hf, hsub⟩ := ih hl.2 (⟨state.1.data.erase e.1,
        state.1.totalVotes - committee.weight e.1⟩, state.2.1 + committee.weight e.1,
        state.2.2 ++ [e.1]) hr hacc
      exact ⟨hf, fun a s hs => get?_of_erase (hsub a s hs)⟩
    · have hst : evictBad bad committee state e = state := if_neg hbad
      rw [hst]
      exact ih hl.2 state (fun e' he' => hmem e' (mem_cons_of_mem _ he')) h

variable (scheme committee strength data) in
/-- A certificate: distinct authorities with voting power whose aggregate verifies. -/
structure Certified (cert : AuthorityQuorumSignInfo A) : Prop where
  nodup : cert.signers.Nodup
  members : ∀ a ∈ cert.signers, a ∈ committee.votingRights ∧ 0 < committee.weight a
  quorum : committee.threshold strength ≤ tally committee.weight cert.signers
  verified : scheme.verifyAggregate cert.signers data cert.signature = true

open AuthorityQuorumSignInfo

theorem certified_of_new {sigs : List (AuthoritySignInfo S)} {cert : AuthorityQuorumSignInfo A}
    (hnew : AuthorityQuorumSignInfo.newFromAuthSignInfos scheme committee strength sigs = .ok cert)
    (hver : cert.verifySecure scheme committee strength data = true) :
    Certified scheme committee strength data cert := by
  obtain ⟨_, _, hnew⟩ := bind_ok.1 hnew
  obtain ⟨_, _, hnew⟩ := bind_ok.1 hnew
  obtain ⟨_, hm, hnew⟩ := bind_ok.1 hnew
  obtain ⟨signature, _, hnew⟩ := bind_ok.1 hnew
  cases hnew
  have hmem := mapM_forall (fun a _ h => check_ok.1 h) hm
  simp only [verifySecure, decide_eq_true_eq] at hver
  obtain ⟨_, hw, hq, hv⟩ := hver
  exact ⟨nodup_keys _, fun a ha => ⟨hmem a ha, hw a ha⟩, hq, hv⟩

theorem certify_spec (h : agg.Accounted committee)
    {r : StakeAggregator (AuthoritySignInfo S) × InsertResult (AuthorityQuorumSignInfo A)}
    (hr : r = agg.certify scheme committee strength data) : r.1.Accounted committee ∧
    (∀ a s, r.1.data.get? a = some s → agg.data.get? a = some s) ∧
    ∀ cert, r.2 = .quorumReached cert → Certified scheme committee strength data cert := by
  subst hr
  unfold certify
  cases hnew : newFromAuthSignInfos scheme committee strength agg.data.values with
  | error error => exact ⟨h, fun _ _ => id, fun _ => nofun⟩
  | ok aggregated =>
    by_cases hver : aggregated.verifySecure scheme committee strength data = true
    · simp only [hver]
      refine ⟨h, fun _ _ => id, fun cert hc => ?_⟩
      cases hc
      exact certified_of_new hnew hver
    · simp only [hver]
      obtain ⟨hacc, hsub⟩ := evictBad_spec
        (fun entry => !entry.2.verifySecure scheme committee data)
        agg.data.nodup_keys (agg, 0, [])
        (fun e he => mem_iff.2 ⟨e.2, mem_entries.1 he⟩) h
      exact ⟨hacc, hsub, fun _ => nofun⟩

theorem mem_votingRights (h : 0 < committee.weight a) : a ∈ committee.votingRights := by
  by_contra hmem
  rw [VotingCommittee.weight, notMem_iff.1 hmem] at h
  exact absurd h (by decide)

/-- The map of signatures that is aggregated has the retained signatures, by signer. -/
theorem signatures_entries {m : OrdMap AuthorityName (AuthoritySignInfo S)}
    (hm : ∀ a s, m.get? a = some s → s.authority = a) :
    (signaturesByAuthority m.values).entries = m.entries.map fun e => (e.1, e.2.signature) := by
  have hsa : ∀ s ∈ m.values, ∀ s' ∈ m.values, s.authority = s'.authority →
      s.signature = s'.signature := by
    intro s hs s' hs' heq
    obtain ⟨a, ha⟩ := mem_values.1 hs
    obtain ⟨a', ha'⟩ := mem_values.1 hs'
    rw [hm a s ha, hm a' s' ha'] at heq
    rw [heq, ha'] at ha
    rw [Option.some.inj ha]
  refine entries_eq (pairwise_map.2 m.sorted) fun a sig => ?_
  rw [signaturesByAuthority, get?_foldl_insert hsa]
  simp only [mem_map, get?_empty, reduceCtorEq, and_false, or_false, Prod.mk.injEq]
  constructor
  · rintro ⟨⟨a', s⟩, he, rfl, rfl⟩
    have hget := mem_entries.1 he
    exact ⟨s, mem_values.2 ⟨a', hget⟩, hm a' s hget, rfl⟩
  · rintro ⟨s, hs, rfl, rfl⟩
    obtain ⟨a, ha⟩ := mem_values.1 hs
    exact ⟨(a, s), mem_entries.2 ha, (hm a s ha).symm, rfl⟩

/-- **Valid signatures of enough voting power give a certificate.** -/
theorem certify_of_valid (h : agg.Accounted committee)
    (hauth : ∀ a s, agg.data.get? a = some s → s.authority = a)
    (hvalid : ∀ a s, agg.data.get? a = some s → s.verifySecure scheme committee data = true)
    (hthres : committee.threshold strength ≤ agg.totalVotes) :
    ∃ cert, agg.certify scheme committee strength data = (agg, .quorumReached cert) := by
  simp only [AuthoritySignInfo.verifySecure, decide_eq_true_eq] at hvalid
  have hentr := signatures_entries hauth
  have hkeys : (signaturesByAuthority agg.data.values).keys = agg.data.keys := by
    rw [OrdMap.keys, hentr, map_map]
    rfl
  have hne : agg.data.entries.map (fun e => (e.1, e.2.signature)) ≠ [] := by
    intro hnil
    have hpos := committee.threshold_pos strength
    rw [map_eq_nil_iff] at hnil
    rw [h, OrdMap.keys, hnil] at hthres
    exact absurd hthres (not_le.2 hpos)
  obtain ⟨signature, haggr, hver⟩ := scheme.complete data _ hne (by
    intro e he
    obtain ⟨⟨a, s⟩, hmem, rfl⟩ := mem_map.1 he
    have hget := mem_entries.1 hmem
    have hsig := (hvalid a s hget).2.2
    rwa [hauth a s hget] at hsig)
  rw [map_map] at hver
  have htally : tally (fun s => committee.weight s.authority) agg.data.values =
      tally committee.weight agg.data.keys := by
    unfold tally values OrdMap.keys
    rw [map_map, map_map]
    refine congrArg List.sum (map_congr_left fun e he => ?_)
    exact congrArg committee.weight (hauth e.1 e.2 (mem_entries.1 he))
  have hweight : ∀ a ∈ agg.data.keys, 0 < committee.weight a := by
    intro a ha
    obtain ⟨s, hs⟩ := mem_iff.1 (OrdMap.mem_keys.1 ha)
    have := (hvalid a s hs).2.1
    rwa [hauth a s hs] at this
  have hnew : newFromAuthSignInfos scheme committee strength
      agg.data.values = .ok ⟨committee.epoch, signature, agg.data.keys⟩ := by
    unfold newFromAuthSignInfos
    rw [check_of, check_of (by rw [htally, ← h]; exact hthres)]
    dsimp only
    rw [hkeys, mapM_ok (fun a ha =>
      check_of (mem_votingRights (hweight a ha))), values, hentr,
      require_ok.2 haggr]
    · rfl
    · intro s hs
      obtain ⟨a, ha⟩ := mem_values.1 hs
      exact (hvalid a s ha).1
  refine ⟨⟨committee.epoch, signature, agg.data.keys⟩, ?_⟩
  unfold certify
  rw [hnew]
  refine if_pos ?_
  simp only [verifySecure, decide_eq_true_eq]
  refine ⟨trivial, hweight, ?_, hver⟩
  rw [← h]
  exact hthres

/-! ## One insert -/

variable [DecidableEq S]
  {r : StakeAggregator (AuthoritySignInfo S) × InsertResult (AuthorityQuorumSignInfo A)}
  (hr : agg.insert scheme committee strength data sig = r)

include hr

/-- **What an insert does**: nothing if the epoch is wrong or the signer is known, and otherwise the
signature is kept, and at the threshold the signatures are aggregated. -/
theorem insert_cases :
    (r.1 = agg ∧ r.2.isQuorumReached = false ∧
      (sig.epoch ≠ committee.epoch ∨ sig.authority ∈ agg.data)) ∨
    (sig.epoch = committee.epoch ∧ agg.data.get? sig.authority = none ∧
      (r.1 = agg.withSignature committee sig.authority sig ∧ r.2.isQuorumReached = false ∧
        ¬ (0 < committee.weight sig.authority ∧ committee.threshold strength ≤
          (agg.withSignature committee sig.authority sig).totalVotes) ∨
      committee.threshold strength ≤ (agg.withSignature committee sig.authority sig).totalVotes ∧
        r = (agg.withSignature committee sig.authority sig).certify scheme committee strength
          data)) := by
  subst hr
  unfold StakeAggregator.insert
  by_cases he : committee.epoch = sig.epoch
  · rw [if_neg (not_not.2 he)]
    rcases hout : agg.insertGeneric committee strength sig.authority sig with ⟨agg', result⟩
    rcases insertGeneric_cases hout with ⟨rfl, hmem, hq⟩ | ⟨rfl, hnew, hq⟩
    · left
      cases result with
      | quorumReached m => cases hq
      | failed error => exact ⟨rfl, rfl, .inr hmem⟩
      | notEnoughVotes votes names => exact ⟨rfl, rfl, .inr hmem⟩
    · right
      refine ⟨he.symm, hnew, ?_⟩
      cases result with
      | quorumReached m => exact .inr ⟨(hq.1 rfl).2, rfl⟩
      | failed error => exact .inl ⟨rfl, rfl, fun hr => absurd (hq.2 hr) nofun⟩
      | notEnoughVotes votes names =>
        exact .inl ⟨rfl, rfl, fun hr => absurd (hq.2 hr) nofun⟩
  · rw [if_pos he]
    exact .inl ⟨rfl, rfl, .inl fun heq => he heq.symm⟩

omit hr in
theorem not_quorumReached {CertT : Type} {result : InsertResult CertT} {cert : CertT}
    (h : result.isQuorumReached = false) : result ≠ .quorumReached cert := by
  rintro rfl
  cases h

theorem insert_spec (h : agg.Accounted committee) : r.1.Accounted committee ∧
    (∀ a s, r.1.data.get? a = some s →
      agg.data.get? a = some s ∨ a = sig.authority ∧ s = sig ∧ sig.epoch = committee.epoch) ∧
    ∀ cert, r.2 = .quorumReached cert → Certified scheme committee strength data cert := by
  rcases insert_cases hr with ⟨hagg, hq, _⟩ | ⟨he, hnew, hca⟩
  · rw [hagg]
    exact ⟨h, fun _ _ => .inl, fun cert hc => absurd hc (not_quorumReached hq)⟩
  · have hins := forall_get?_insert (P := fun a s => agg.data.get? a = some s ∨
      a = sig.authority ∧ s = sig ∧ sig.epoch = committee.epoch)
      (.inr ⟨rfl, rfl, he⟩) fun _ _ => .inl
    rcases hca with ⟨hagg, hq, _⟩ | ⟨_, hce⟩
    · rw [hagg]
      exact ⟨h.insert_new hnew, hins, fun cert hc => absurd hc (not_quorumReached hq)⟩
    · obtain ⟨hacc, hsub, hc⟩ := certify_spec (h.insert_new hnew) hce
      exact ⟨hacc, fun a s hs => hins a s (hsub a s hs), hc⟩

/-- Among valid signatures a valid one is kept, and reaching the threshold is reported. -/
theorem insert_of_valid (h : agg.Accounted committee)
    (hau : ∀ a s, agg.data.get? a = some s → s.authority = a)
    (hv : ∀ a s, agg.data.get? a = some s → s.verifySecure scheme committee data = true)
    (hsig : sig.epoch = committee.epoch → sig.verifySecure scheme committee data = true) :
    (∀ a ∈ agg.data, a ∈ r.1.data) ∧ (sig.epoch = committee.epoch → sig.authority ∈ r.1.data) ∧
    (committee.threshold strength ≤ r.1.totalVotes →
      committee.threshold strength ≤ agg.totalVotes ∨ r.2.isQuorumReached = true) := by
  rcases insert_cases hr with ⟨hagg, _, hold⟩ | ⟨he, hnew, hca⟩
  · rw [hagg]
    exact ⟨fun _ => id, fun he => hold.resolve_left (not_not.2 he), .inl⟩
  · have hw : 0 < committee.weight sig.authority := by
      have := hsig he
      simp only [AuthoritySignInfo.verifySecure, decide_eq_true_eq] at this
      exact this.2.1
    rcases hca with ⟨hagg, _, hb⟩ | ⟨hreach, hc⟩
    · rw [hagg]
      exact ⟨fun a ha => mem_insert.2 (.inr ha), fun _ => mem_insert.2 (.inl rfl),
        fun hr => absurd ⟨hw, hr⟩ hb⟩
    · obtain ⟨cert, hce⟩ := certify_of_valid (h.insert_new hnew) (forall_get?_insert rfl hau)
        (forall_get?_insert (hsig he) hv) hreach
      rw [hc, hce]
      exact ⟨fun a ha => mem_insert.2 (.inr ha),
        fun _ => mem_insert.2 (.inl rfl), fun _ => .inr rfl⟩

end StakeAggregator

/-! ## Runs -/

/-- An aggregator, the signatures that it was given, and its answers. -/
structure AggregatorRun (S A : Type) where
  agg : StakeAggregator (AuthoritySignInfo S)
  calls : List (AuthoritySignInfo S)
  results : List (InsertResult (AuthorityQuorumSignInfo A))

namespace AggregatorRun

def start : AggregatorRun S A := ⟨.new, [], []⟩

/-- Inserts over one message. -/
def machine [DecidableEq S] (scheme : SignatureScheme M S A) (committee : VotingCommittee)
    (strength : Bool) (data : M) : Machine (AggregatorRun S A) (AuthoritySignInfo S) Empty where
  init s := s = start
  step s sig :=
    let inserted := s.agg.insert scheme committee strength data sig
    .ok ⟨inserted.1, s.calls ++ [sig], s.results ++ [inserted.2]⟩

variable {scheme : SignatureScheme M S A} {committee : VotingCommittee} {strength : Bool} {data : M}
  {s : AggregatorRun S A}

variable (scheme committee data s) in
/-- The authorities with a valid signature among those inserted. -/
def validSigners : List AuthorityName :=
  ((s.calls.filter fun sig => sig.verifySecure scheme committee data).map
    AuthoritySignInfo.authority).dedup

variable (scheme committee data s) in
/-- No bad signature was inserted; those of another epoch do no harm. -/
def Clean : Prop :=
  ∀ sig ∈ s.calls, sig.epoch = committee.epoch → sig.verifySecure scheme committee data = true

variable (scheme committee strength data s) in
structure Inv : Prop where
  accounted : s.agg.Accounted committee
  retained : ∀ a sig, s.agg.data.get? a = some sig →
    sig.authority = a ∧ sig.epoch = committee.epoch ∧ sig ∈ s.calls
  certified : ∀ cert, .quorumReached cert ∈ s.results →
    StakeAggregator.Certified scheme committee strength data cert
  live : s.Clean scheme committee data →
    (∀ sig ∈ s.calls, sig.epoch = committee.epoch → sig.authority ∈ s.agg.data) ∧
    (committee.threshold strength ≤ s.agg.totalVotes →
      ∃ result ∈ s.results, result.isQuorumReached = true)

theorem inv_start : (start : AggregatorRun S A).Inv scheme committee strength data := by
  refine ⟨StakeAggregator.accounted_new, by simp [start, StakeAggregator.new], by simp [start],
    fun _ => ⟨by simp [start], fun h => ?_⟩⟩
  exact absurd h (not_le.2 (committee.threshold_pos strength))

theorem Inv.step [DecidableEq S] (h : s.Inv scheme committee strength data)
    {sig : AuthoritySignInfo S} {s' : AggregatorRun S A}
    (hstep : (machine scheme committee strength data).step s sig = .ok s') :
    s'.Inv scheme committee strength data := by
  cases hstep
  obtain ⟨hacc, hkept, hcert⟩ := StakeAggregator.insert_spec rfl h.accounted
  refine ⟨hacc, fun a s hs => ?_, fun cert hmem => ?_, fun hclean => ?_⟩
  · rcases hkept a s hs with hold | ⟨rfl, rfl, hepoch⟩
    · obtain ⟨hauth, hepoch, hcalls⟩ := h.retained a s hold
      exact ⟨hauth, hepoch, mem_append_left _ hcalls⟩
    · exact ⟨rfl, hepoch, mem_append_right _ mem_cons_self⟩
  · rcases mem_append.1 hmem with hmem | hmem
    · exact h.certified cert hmem
    · exact hcert cert (mem_singleton.1 hmem).symm
  · have hbef : s.Clean scheme committee data := fun sig hsig => hclean sig (mem_append_left _ hsig)
    obtain ⟨hknown, hrep⟩ := h.live hbef
    obtain ⟨hgrow, hnew, hreached⟩ := StakeAggregator.insert_of_valid rfl h.accounted
      (fun a s hs => (h.retained a s hs).1)
      (fun a s hs => hbef s (h.retained a s hs).2.2 (h.retained a s hs).2.1)
      (hclean sig (mem_append_right _ mem_cons_self))
    refine ⟨fun sig' hsig' hepoch => ?_, fun hthres => ?_⟩
    · rcases mem_append.1 hsig' with hsig' | hsig'
      · exact hgrow _ (hknown sig' hsig' hepoch)
      · rw [mem_singleton.1 hsig'] at hepoch ⊢
        exact hnew hepoch
    · rcases hreached hthres with hbef | hres
      · obtain ⟨result, hres, hquorum⟩ := hrep hbef
        exact ⟨result, mem_append_left _ hres, hquorum⟩
      · exact ⟨_, mem_append_right _ mem_cons_self, hres⟩

/-- The valid signers of a clean run are all retained. -/
theorem Inv.validSigners_le (h : s.Inv scheme committee strength data)
    (hcl : s.Clean scheme committee data) :
    tally committee.weight (s.validSigners scheme committee data) ≤ s.agg.totalVotes := by
  rw [h.accounted]
  have hsub : s.validSigners scheme committee data ⊆ s.agg.data.keys := by
    intro a ha
    obtain ⟨sig, hsig, rfl⟩ := mem_map.1 (mem_dedup.1 ha)
    obtain ⟨hc, hv⟩ := mem_filter.1 hsig
    simp only [AuthoritySignInfo.verifySecure, decide_eq_true_eq] at hv
    exact OrdMap.mem_keys.2 ((h.live hcl).1 sig hc hv.1)
  exact tally_le_of_subset (nodup_dedup _) hsub

/-- **Aggregating signatures.** In every run over one message the votes are those of the retained
signers, and a quorum is reported only with a certificate. As long as no bad signature was inserted,
it has been reported as soon as the valid signers reach the threshold. -/
theorem aggregation_sound [DecidableEq S]
    (h : (machine scheme committee strength data).Reach Machine.free s) :
    s.agg.Accounted committee ∧
    (∀ cert, .quorumReached cert ∈ s.results →
      StakeAggregator.Certified scheme committee strength data cert) ∧
    (s.Clean scheme committee data →
      committee.threshold strength ≤ tally committee.weight (s.validSigners scheme committee data) →
      ∃ result ∈ s.results, result.isQuorumReached = true) := by
  have hinv : s.Inv scheme committee strength data :=
    h.invariant (fun s hs => hs ▸ inv_start) fun s sig s' hs _ hst => hs.step hst
  exact ⟨hinv.accounted, hinv.certified, fun hc hq =>
    (hinv.live hc).2 (hq.trans (hinv.validSigners_le hc))⟩

end AggregatorRun

/-! ## Sample runs -/

namespace StakeSample

/-- Signatures that say themselves whether they are good. -/
def scheme : SignatureScheme Unit Bool Bool where
  verify _ _ s := s
  aggregate sigs := some (sigs.all id)
  verifyAggregate _ _ a := a
  complete _ sigs _ h := by
    refine ⟨_, rfl, ?_⟩
    simpa using fun b a hmem => h (a, b) hmem

def rights : OrdMap AuthorityName ℕ :=
  ((((OrdMap.empty.insert 1 1000).insert 2 5000).insert 3 1667).insert 4 2333)

def committee : VotingCommittee := ⟨5, rights, by decide +kernel⟩

def sig (authority : AuthorityName) (good : Bool) : AuthoritySignInfo Bool := ⟨5, authority, good⟩

end StakeSample

open StakeSample in
/-- Three members reach the threshold, and a certificate is made. -/
theorem aggregation_sound_sample : ∃ s : AggregatorRun Bool Bool,
      (AggregatorRun.machine scheme committee true ()).Reach Machine.free s ∧
      6667 ≤ tally committee.weight (s.validSigners scheme committee ()) ∧
      ∃ result ∈ s.results, result.isQuorumReached = true := by
  refine exists_reach_imp [sig 2 true, sig 3 true, sig 4 true]
    (fun s => s.calls = [sig 2 true, sig 3 true, sig 4 true] ∧
      6667 ≤ tally committee.weight (s.validSigners scheme committee ()))
    (init_ok rfl) (by decide +kernel) fun s hs h => ?_
  have hc : s.Clean scheme committee () := by
    unfold AggregatorRun.Clean
    rw [h.1]
    decide +kernel
  exact ⟨h.2, (AggregatorRun.aggregation_sound hs).2.2 hc h.2⟩

open StakeSample in
/-- A bad signature is found only when a quorum is there, and thrown out without looking whether the
others still are one. The signature of a stranger stays, and no certificate is ever made: not even
when every member has signed. -/
theorem quorum_missed : (∃ s : AggregatorRun Bool Bool,
      (AggregatorRun.machine scheme committee true ()).Reach Machine.free s ∧
      6667 ≤ tally committee.weight (s.validSigners scheme committee ()) ∧
      ¬ ∃ result ∈ s.results, result.isQuorumReached = true) ∧
    ∃ s : AggregatorRun Bool Bool,
      (AggregatorRun.machine scheme committee true ()).Reach Machine.free s ∧
      tally committee.weight (s.validSigners scheme committee ()) = totalVotingPower ∧
      ¬ ∃ result ∈ s.results, result.isQuorumReached = true := by
  constructor
  · exact exists_reach [sig 1 false, sig 2 true, sig 3 true] _
      (init_ok rfl) (by decide +kernel)
  · exact exists_reach [sig 9 false, sig 1 true, sig 2 true, sig 3 true, sig 4 true] _
      (init_ok rfl) (by decide +kernel)

end OneChain.Authority
