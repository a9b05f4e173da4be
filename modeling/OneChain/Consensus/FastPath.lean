import OneChain.Consensus.Certifier
import OneChain.Consensus.Dag

/-!
# Fast-path certification is safe

A block that the certifier of some validator outputs has, for each transaction it does not list as
rejected, a quorum of authors that link to it and do not reject the transaction (`Safe`). An honest
author has no second vote on the block, so no other quorum can reject the transaction, in the state
of any certifier that runs on the same blocks.

The argument needs that a vote counted as an acceptance was examined for rejections before: at the
start of each call the votes of every received block are recorded (`Complete`), and an accepting
author whose block rejects a transaction is among the rejecting authors (`EntryInv.accept`). Each
operation keeps these facts.

* `certification_safe` — no quorum ever rejects a certified transaction, and no block is certified
  twice.
-/

namespace OneChain.Consensus

open Lib List VoteInfo OrdMap Certifier

variable {n : ℕ} {C : Committee n}

/-! ## Votes in blocks -/

/-- The block rejects the transaction. -/
def Rejects (b : Block n) (r : BlockRef n) (idx : TransactionIndex) : Prop :=
  ∃ votes ∈ b.transactionVotes, votes.blockRef = r ∧ idx ∈ votes.rejects

/-- The block has the other one as an ancestor in the round before it. -/
def LinksNext (b : Block n) (r : BlockRef n) : Prop := r ∈ b.ancestors ∧ r.round + 1 = b.round

/-- The block carries a set of votes on the other one: a link, or explicit rejections. -/
def VotesOn (b : Block n) (r : BlockRef n) : Prop :=
  LinksNext b r ∨ ∃ votes ∈ b.transactionVotes, votes.blockRef = r

variable {r : BlockRef n} {idx : TransactionIndex} {c : CertifiedBlock n} {info : VoteInfo C}
  {s : CertifierState C}

theorem Rejects.votesOn {b : Block n} (h : Rejects b r idx) : VotesOn b r := by
  obtain ⟨votes, hmem, heq, _⟩ := h
  exact .inr ⟨votes, hmem, heq⟩

/-- The blocks that exist; an honest author has one set of votes on a block. -/
structure VotingUniverse (C : Committee n) where
  blocks : Set (Block n)
  byzantine : Finset (Fin n)
  byzantine_light : ∑ a ∈ byzantine, C.stake a < C.validityThreshold
  votes_once : ∀ b ∈ blocks, ∀ b' ∈ blocks, b.author ∉ byzantine → b.author = b'.author →
    ∀ r, VotesOn b r → VotesOn b' r → b = b'

variable {U : VotingUniverse C}

/-- The transactions that are not listed have a quorum of links that do not reject them. -/
def Safe (U : VotingUniverse C) (c : CertifiedBlock n) : Prop :=
  ∀ idx ∉ c.rejected, QuorumOf C fun v =>
    v ∈ U.blocks ∧ LinksNext v c.block.reference ∧ ¬ Rejects v c.block.reference idx

/-- **A transaction that is certified somewhere is not rejected by a quorum.** -/
theorem Safe.not_quorum_rejects (h : Safe U c) (hidx : idx ∉ c.rejected) :
    ¬ QuorumOf C fun v => v ∈ U.blocks ∧ Rejects v c.block.reference idx := by
  intro hr
  obtain ⟨v, w, ⟨hv, hl, hnot⟩, ⟨hw, hrej⟩, ha, hhon⟩ :=
    (h idx hidx).exists_honest U.byzantine_light hr
  have heq := U.votes_once v hv w hw hhon ha _ (.inl hl) hrej.votesOn
  exact hnot (heq ▸ hrej)

/-! ## Entries -/

namespace VoteInfo

/-- The authors that reject the transaction. -/
def rejectVotes (info : VoteInfo C) (idx : TransactionIndex) : Finset (Fin n) :=
  ((info.rejectTxnVotes.get? idx).getD .new).votes

variable {author : Fin n} {j : TransactionIndex}

theorem mem_rejectVotes_addReject {a : Fin n} :
    a ∈ (info.addReject author idx).rejectVotes j ↔
      a ∈ info.rejectVotes j ∨ a = author ∧ j = idx := by
  unfold addReject rejectVotes
  rw [get?_insert]
  by_cases h : j = idx
  · subst h
    simp [StakeAggregator.addUnique, or_comm]
  · simp [h]

variable {rejects : List TransactionIndex}

theorem mem_rejectVotes_addRejects {a : Fin n} :
    a ∈ (info.addRejects author rejects).rejectVotes j ↔
      a ∈ info.rejectVotes j ∨ a = author ∧ j ∈ rejects := by
  unfold addRejects
  induction rejects generalizing info with
  | nil => simp
  | cons idx rejects ih =>
    rw [foldl_cons, ih, mem_rejectVotes_addReject, mem_cons]
    tauto

theorem addRejects_frame (author : Fin n) (rejects : List TransactionIndex) (info : VoteInfo C) :
    (info.addRejects author rejects).block = info.block ∧
      (info.addRejects author rejects).acceptBlockVotes = info.acceptBlockVotes ∧
      (info.addRejects author rejects).isCertified = info.isCertified := by
  unfold addRejects
  induction rejects generalizing info with
  | nil => exact ⟨rfl, rfl, rfl⟩
  | cons idx rejects ih => exact ih (info.addReject author idx)

@[simp] theorem rejectVotes_addAccept (author : Fin n) (info : VoteInfo C)
    (idx : TransactionIndex) : (info.addAccept author).rejectVotes idx = info.rejectVotes idx :=
  rfl

theorem collectRejected_spec {acceptStake : ℕ} {l : List (TransactionIndex × StakeAggregator C)}
    {rejected rejected' : List TransactionIndex}
    (h : collectRejected acceptStake l rejected = some rejected') :
    (∀ idx ∈ rejected, idx ∈ rejected') ∧
      ∀ e ∈ l, e.1 ∈ rejected' ∨ C.quorumThreshold ≤ acceptStake - e.2.stake := by
  induction l generalizing rejected with
  | nil =>
    cases h
    exact ⟨fun _ h => h, by simp⟩
  | cons e l ih =>
    obtain ⟨idx, votes⟩ := e
    rw [collectRejected] at h
    rw [forall_mem_cons]
    by_cases hr : votes.reachedThreshold
    · rw [if_pos hr] at h
      obtain ⟨hsub, hall⟩ := ih h
      exact ⟨fun j hj => hsub j (mem_append_left _ hj), .inl (hsub idx (by simp)), hall⟩
    · rw [if_neg hr] at h
      by_cases hfew : acceptStake - votes.stake < C.quorumThreshold
      · rw [if_pos hfew] at h
        cases h
      · rw [if_neg hfew] at h
        obtain ⟨hsub, hall⟩ := ih h
        exact ⟨hsub, .inr (not_lt.1 hfew), hall⟩

theorem takeCertifiedOutput_eq_some (h : info.takeCertifiedOutput = some c) :
    info.isCertified = false ∧ info.block = some c.block ∧ info.acceptBlockVotes.reachedThreshold ∧
      collectRejected info.acceptBlockVotes.stake info.rejectTxnVotes.entries [] =
        some c.rejected := by
  unfold takeCertifiedOutput at h
  cases hc : info.isCertified with
  | true => simp [hc] at h
  | false =>
    cases hb : info.block with
    | none => simp [hb] at h
    | some block =>
      by_cases hr : info.acceptBlockVotes.reachedThreshold
      · simp only [hc, hb, hr, Bool.false_eq_true, if_false, if_true, Option.map_eq_some_iff] at h
        obtain ⟨rejected, hco, rfl⟩ := h
        exact ⟨rfl, rfl, hr, hco⟩
      · simp [hb, hr] at h

end VoteInfo

/-- What is recorded under a reference is in the blocks, and an acceptance by an author whose block
rejects a transaction is recorded as a rejection too. -/
structure EntryInv (U : VotingUniverse C) (r : BlockRef n) (info : VoteInfo C) : Prop where
  block : ∀ b, info.block = some b → b ∈ U.blocks ∧ b.reference = r
  accept : ∀ a ∈ info.acceptBlockVotes.votes, ∃ v ∈ U.blocks, v.author = a ∧ LinksNext v r ∧
    ∀ idx, Rejects v r idx → a ∈ info.rejectVotes idx
  reject : ∀ idx, ∀ a ∈ info.rejectVotes idx, ∃ v ∈ U.blocks, v.author = a ∧ Rejects v r idx

theorem entryInv_default (r : BlockRef n) : EntryInv U r (VoteInfo.default : VoteInfo C) := by
  refine ⟨?_, ?_, ?_⟩
  · intro b h
    cases h
  · intro a ha
    exact absurd ha (Finset.notMem_empty a)
  · intro idx a ha
    exact absurd ha (Finset.notMem_empty a)

theorem EntryInv.addRejects (h : EntryInv U r info) {v : Block n} (hv : v ∈ U.blocks)
    (hr : ⟨r, rejects⟩ ∈ v.transactionVotes) :
    EntryInv U r (info.addRejects v.author rejects) := by
  obtain ⟨hbl, hacc, _⟩ := info.addRejects_frame v.author rejects
  refine ⟨fun b hb => h.block b (hbl ▸ hb), fun a ha => ?_, fun idx a ha => ?_⟩
  · rw [hacc] at ha
    obtain ⟨w, hw, hau, hl, hrej⟩ := h.accept a ha
    exact ⟨w, hw, hau, hl, fun idx hidx =>
      mem_rejectVotes_addRejects.2 (.inl (hrej idx hidx))⟩
  · rcases mem_rejectVotes_addRejects.1 ha with ha | ⟨rfl, hidx⟩
    · exact h.reject idx a ha
    · exact ⟨v, hv, rfl, ⟨r, rejects⟩, hr, rfl, hidx⟩

theorem EntryInv.addAccept (h : EntryInv U r info) {v : Block n} (hv : v ∈ U.blocks)
    (hl : LinksNext v r) (hc : ∀ idx, Rejects v r idx → v.author ∈ info.rejectVotes idx) :
    EntryInv U r (info.addAccept v.author) := by
  refine ⟨h.block, fun a ha => ?_, h.reject⟩
  have hmem : a = v.author ∨ a ∈ info.acceptBlockVotes.votes := by
    simpa [VoteInfo.addAccept, StakeAggregator.addUnique] using ha
  rcases hmem with rfl | ha
  · exact ⟨v, hv, rfl, hl, hc⟩
  · exact h.accept a ha

/-- **What is output is safe.** The accepting authors without those that reject the transaction
are still a quorum. -/
theorem EntryInv.safe (h : EntryInv U r info) (hc : info.takeCertifiedOutput = some c) :
    c.block ∈ U.blocks ∧ c.block.reference = r ∧ Safe U c := by
  obtain ⟨_, hblock, hreached, hcoll⟩ := takeCertifiedOutput_eq_some hc
  obtain ⟨hU, rfl⟩ := h.block _ hblock
  refine ⟨hU, rfl, fun idx hidx => ?_⟩
  have hquorum : C.quorumThreshold ≤
      ∑ a ∈ info.acceptBlockVotes.votes \ info.rejectVotes idx, C.stake a := by
    cases hget : info.rejectTxnVotes.get? idx with
    | none =>
      have hempty : info.rejectVotes idx = ∅ := by simp [rejectVotes, hget]
      rw [hempty, Finset.sdiff_empty]
      exact (StakeAggregator.reachedThreshold_iff _).1 hreached
    | some votes =>
      have hvotes : info.rejectVotes idx = votes.votes := by simp [rejectVotes, hget]
      rcases (collectRejected_spec hcoll).2 _ (mem_entries.2 hget) with
        hrejected | hmany
      · exact absurd hrejected hidx
      · rw [info.acceptBlockVotes.stake_eq, votes.stake_eq] at hmany
        rw [hvotes]
        have hsub : info.acceptBlockVotes.votes ⊆ info.acceptBlockVotes.votes ∪ votes.votes :=
          Finset.subset_union_left
        have hle := Finset.sum_le_sum_of_subset (f := C.stake) hsub
        rw [← Finset.sdiff_union_self_eq_union, Finset.sum_union Finset.sdiff_disjoint] at hle
        omega
  refine le_trans hquorum (Finset.sum_le_sum_of_subset fun a ha => ?_)
  obtain ⟨hacc, hnot⟩ := Finset.mem_sdiff.1 ha
  obtain ⟨v, hv, hauthor, hlink, hrej⟩ := h.accept a hacc
  exact mem_authorsOf.2 ⟨v, ⟨hv, hlink, fun hr => hnot (hrej idx hr)⟩, hauthor⟩

/-! ## The invariant -/

structure CertifierInv (U : VotingUniverse C) (p : Certifier C) : Prop where
  above : ∀ r info, p.1.votes.get? r = some info → p.1.gcRound < r.round
  entry : ∀ r info, p.1.votes.get? r = some info → EntryInv U r info
  safe : ∀ c ∈ p.2, Safe U c
  once : (p.2.map fun c => c.block.reference).Nodup
  certified : ∀ c ∈ p.2, c.block.round ≤ p.1.gcRound ∨
    ∃ info, p.1.votes.get? c.block.reference = some info ∧ info.isCertified = true

/-- The rejections of every received block are recorded. -/
def Complete (s : CertifierState C) : Prop :=
  ∀ r info v, s.votes.get? r = some info → info.block = some v → ∀ target idx,
    Rejects v target idx → s.gcRound < target.round →
      ∃ tinfo, s.votes.get? target = some tinfo ∧ v.author ∈ tinfo.rejectVotes idx

/-- Later states of a call: no block is received, and rejections only grow. -/
structure Grows (s s' : CertifierState C) : Prop where
  gcRound : s'.gcRound = s.gcRound
  kept : ∀ r info, s.votes.get? r = some info → ∃ info', s'.votes.get? r = some info' ∧
    info'.block = info.block ∧ ∀ idx, info.rejectVotes idx ⊆ info'.rejectVotes idx
  received : ∀ r info' b, s'.votes.get? r = some info' → info'.block = some b →
    ∃ info, s.votes.get? r = some info ∧ info.block = some b

theorem Grows.refl (s : CertifierState C) : Grows s s :=
  ⟨rfl, fun _ info h => ⟨info, h, rfl, fun _ => Finset.Subset.refl _⟩, fun _ info _ h hb =>
    ⟨info, h, hb⟩⟩

theorem Grows.trans {t u : CertifierState C} (h : Grows s t) (h' : Grows t u) : Grows s u := by
  refine ⟨h'.gcRound.trans h.gcRound, fun r info hget => ?_, fun r info b hget hb => ?_⟩
  · obtain ⟨info', hget', hbl, hsub⟩ := h.kept r info hget
    obtain ⟨info'', hget'', hbl', hsub'⟩ := h'.kept r info' hget'
    exact ⟨info'', hget'', hbl'.trans hbl, fun idx => (hsub idx).trans (hsub' idx)⟩
  · obtain ⟨info', hget', hb'⟩ := h'.received r info b hget hb
    exact h.received r info' b hget' hb'

/-- The author is recorded as rejecting the transaction. -/
def Recorded (s : CertifierState C) (r : BlockRef n) (idx : TransactionIndex) (a : Fin n) : Prop :=
  ∃ info, s.votes.get? r = some info ∧ a ∈ info.rejectVotes idx

variable {s' : CertifierState C}

theorem Recorded.grows {a : Fin n} (h : Recorded s r idx a) (hg : Grows s s') :
    Recorded s' r idx a := by
  obtain ⟨info, hget, hmem⟩ := h
  obtain ⟨info', hget', _, hsub⟩ := hg.kept r info hget
  exact ⟨info', hget', hsub idx hmem⟩

theorem Complete.grows (h : Complete s) (hg : Grows s s') : Complete s' := by
  intro r info v hget hb target idx hrej hr
  obtain ⟨info₀, hget₀, hb₀⟩ := hg.received r info v hget hb
  rw [hg.gcRound] at hr
  exact Recorded.grows (h r info₀ v hget₀ hb₀ target idx hrej hr) hg

namespace Certifier

variable {p : Certifier C}

/-- The entry before the change, or a new one. -/
def infoAt (p : Certifier C) (r : BlockRef n) : VoteInfo C := (p.1.votes.get? r).getD .default

theorem entryInv_infoAt (h : CertifierInv U p) (r : BlockRef n) : EntryInv U r (p.infoAt r) := by
  unfold infoAt
  cases hget : p.1.votes.get? r with
  | none => exact entryInv_default r
  | some info => exact h.entry r info hget

theorem setInfo_inv (h : CertifierInv U p) (hr : p.1.gcRound < r.round)
    (hi : EntryInv U r info) (hm : (p.infoAt r).isCertified = true → info.isCertified = true) :
    CertifierInv U (p.setInfo r info) := by
  refine { h with
    above := forall_get?_insert hr h.above
    entry := forall_get?_insert hi h.entry
    certified := fun c hc => ?_ }
  · rcases h.certified c hc with hgc | ⟨i, hget, hce⟩
    · exact .inl hgc
    · refine .inr ?_
      rw [setInfo]
      by_cases hcr : c.block.reference = r
      · refine ⟨info, by rw [hcr]; exact get?_insert_self, hm ?_⟩
        rw [infoAt, ← hcr, hget]
        exact hce
      · exact ⟨i, by rw [get?_insert_of_ne hcr]; exact hget, hce⟩

theorem certify_inv (h : CertifierInv U p) (hround : p.1.gcRound < r.round)
    (hinfo : EntryInv U r info) (hmark : info.isCertified = (p.infoAt r).isCertified) :
    CertifierInv U (p.certify r info) := by
  unfold certify
  cases houtput : info.takeCertifiedOutput with
  | none => exact setInfo_inv h hround hinfo fun hc => hmark.trans hc
  | some c =>
    obtain ⟨_, href, hsafe⟩ := hinfo.safe houtput
    obtain ⟨hfalse, _⟩ := takeCertifiedOutput_eq_some houtput
    have hset : CertifierInv U (p.setInfo r { info with isCertified := true }) :=
      setInfo_inv h hround { hinfo with } fun _ => rfl
    -- the entry was not marked, so its block was not output before
    have hnew : c.block.reference ∉ p.2.map fun c => c.block.reference := by
      intro hmem
      obtain ⟨c', hc', heq⟩ := mem_map.1 hmem
      rcases h.certified c' hc' with hgc | ⟨i, hget, hcert⟩
      · have hr : r.round = c'.block.round := by
          rw [← href, ← heq]
          rfl
        omega
      · rw [heq, href] at hget
        rw [hmark, infoAt, hget] at hfalse
        exact absurd hcert (by simpa using hfalse)
    refine ⟨hset.above, hset.entry, ?_, ?_, ?_⟩
    · exact forall_mem_append.2 ⟨h.safe, forall_mem_singleton.2 hsafe⟩
    · rw [map_append]
      exact nodup_append_comm.1 (nodup_cons.2 ⟨hnew, h.once⟩)
    · refine forall_mem_append.2 ⟨hset.certified, forall_mem_singleton.2 (.inr ?_)⟩
      exact ⟨{ info with isCertified := true }, by rw [href]; exact get?_insert_self, rfl⟩

theorem certify_votes (p : Certifier C) (r : BlockRef n) (info : VoteInfo C) :
    (p.certify r info).1.gcRound = p.1.gcRound ∧
      ∃ info', info'.block = info.block ∧ (∀ idx, info'.rejectVotes idx = info.rejectVotes idx) ∧
        (p.certify r info).1.votes = p.1.votes.insert r info' := by
  unfold certify
  cases info.takeCertifiedOutput with
  | none => exact ⟨rfl, info, rfl, fun _ => rfl, rfl⟩
  | some c => exact ⟨rfl, { info with isCertified := true }, rfl, fun _ => rfl, rfl⟩

theorem certify_grows (hbl : info.block = (p.infoAt r).block)
    (hr : ∀ idx, (p.infoAt r).rejectVotes idx ⊆ info.rejectVotes idx) :
    Grows p.1 (p.certify r info).1 := by
  obtain ⟨hgc, info', hb', hrej', hv⟩ := certify_votes p r info
  refine ⟨hgc, fun s i hs => ?_, fun s i b hs hb => ?_⟩
  · rw [hv, get?_insert]
    by_cases hsr : s = r
    · subst hsr
      have hat : p.infoAt s = i := by simp [infoAt, hs]
      refine ⟨info', by simp, by rw [hb', hbl, hat], fun idx => ?_⟩
      rw [hrej', ← hat]
      exact hr idx
    · exact ⟨i, by simpa [hsr] using hs, rfl, fun _ => Finset.Subset.refl _⟩
  · rw [hv, get?_insert_eq_some] at hs
    rcases hs with ⟨rfl, rfl⟩ | ⟨_, hs⟩
    · rw [hb', hbl, infoAt] at hb
      cases hget : p.1.votes.get? s with
      | none => simp [hget, VoteInfo.default] at hb
      | some i₀ => exact ⟨i₀, rfl, by simpa [hget] using hb⟩
    · exact ⟨i, hs, hb⟩

/-! ## Received blocks -/

variable {v : Block n} {vinfo : VoteInfo C} {gcRound : ℕ}

theorem addBlockVotes_inv (h : CertifierInv U p) (hv : v ∈ U.blocks)
    {votes : BlockTransactionVotes n} (hvo : votes ∈ v.transactionVotes) :
    CertifierInv U (addBlockVotes v.author p votes) ∧ Grows p.1 (addBlockVotes v.author p votes).1 ∧
      (p.1.gcRound < votes.blockRef.round → ∀ idx ∈ votes.rejects,
        Recorded (addBlockVotes v.author p votes).1 votes.blockRef idx v.author) := by
  unfold addBlockVotes
  by_cases hgc : votes.blockRef.round ≤ p.1.gcRound
  · rw [if_pos hgc]
    exact ⟨h, .refl _, fun hlt => by omega⟩
  · rw [if_neg hgc]
    have hi := (entryInv_infoAt h votes.blockRef).addRejects hv hvo
    obtain ⟨hb, _, hm⟩ := (p.infoAt votes.blockRef).addRejects_frame v.author votes.rejects
    refine ⟨certify_inv h (not_le.1 hgc) hi hm, certify_grows hb ?_, fun _ idx hidx => ?_⟩
    · intro idx a ha
      exact mem_rejectVotes_addRejects.2 (.inl ha)
    · obtain ⟨_, info', _, hrej', hmap⟩ := certify_votes p votes.blockRef
        ((p.infoAt votes.blockRef).addRejects v.author votes.rejects)
      refine ⟨info', ?_, ?_⟩
      · change (certify _ _ _).1.votes.get? _ = _
        exact hmap ▸ get?_insert_self
      · rw [hrej']
        exact mem_rejectVotes_addRejects.2 (.inr ⟨rfl, hidx⟩)

/-- The loop over the votes of a block records all of them. -/
theorem foldl_addBlockVotes (hv : v ∈ U.blocks) {l : List (BlockTransactionVotes n)}
    (hl : ∀ votes ∈ l, votes ∈ v.transactionVotes) (h : CertifierInv U p) :
    CertifierInv U (l.foldl (addBlockVotes v.author) p) ∧
      Grows p.1 (l.foldl (addBlockVotes v.author) p).1 ∧
      ∀ votes ∈ l, p.1.gcRound < votes.blockRef.round → ∀ idx ∈ votes.rejects,
        Recorded (l.foldl (addBlockVotes v.author) p).1 votes.blockRef idx v.author := by
  induction l generalizing p with
  | nil => exact ⟨h, .refl _, by simp⟩
  | cons votes l ih =>
    obtain ⟨hinv, hgrows, hrecorded⟩ := addBlockVotes_inv h hv (hl votes mem_cons_self)
    obtain ⟨hinv', hgrows', hrec'⟩ := ih (fun w hw => hl w (mem_cons_of_mem _ hw)) hinv
    refine ⟨hinv', hgrows.trans hgrows', fun w hw hround idx hidx => ?_⟩
    rcases mem_cons.1 hw with rfl | hw
    · exact (hrecorded hround idx hidx).grows hgrows'
    · exact hrec' w hw (hgrows.gcRound ▸ hround) idx hidx

theorem addVotedBlock_inv (h : CertifierInv U p) (hcompl : Complete p.1)
    {voted : Block n × List TransactionIndex} (hv : voted.1 ∈ U.blocks) :
    CertifierInv U (p.addVotedBlock voted) ∧ Complete (p.addVotedBlock voted).1 := by
  obtain ⟨v, own⟩ := voted
  unfold addVotedBlock
  by_cases hgc : v.round ≤ p.1.gcRound
  · rw [if_pos hgc]
    exact ⟨h, hcompl⟩
  · rw [if_neg hgc]
    by_cases hsome : (p.infoAt v.reference).block.isSome = true
    · rw [infoAt] at hsome
      simp only [hsome]
      exact ⟨h, hcompl⟩
    · have hentry := entryInv_infoAt h v.reference
      have hset : CertifierInv U (p.setInfo v.reference
          { p.infoAt v.reference with block := some v, ownRejectTxnVotes := own }) := by
        refine setInfo_inv h (not_le.1 hgc) ⟨fun b hb => ?_, hentry.accept, hentry.reject⟩ id
        cases hb
        exact ⟨hv, rfl⟩
      obtain ⟨hinv, hgrows, hrecorded⟩ := foldl_addBlockVotes hv (fun votes hvotes => hvotes) hset
      unfold infoAt at hsome hinv hgrows hrecorded
      simp only [if_neg hsome]
      refine ⟨hinv, fun r info w hget hblock target idx hrej hround => ?_⟩
      obtain ⟨info₀, hget₀, hblock₀⟩ := hgrows.received r info w hget hblock
      rcases get?_insert_eq_some.1 hget₀ with ⟨rfl, rfl⟩ | ⟨_, hget₀⟩
      · -- the block itself
        cases hblock₀
        obtain ⟨votes, hvotes, rfl, hidx⟩ := hrej
        exact hrecorded votes hvotes (hgrows.gcRound ▸ hround) idx hidx
      · -- a block received before
        have hround₀ : p.1.gcRound < target.round := hgrows.gcRound ▸ hround
        obtain ⟨tinfo, htget, hmem⟩ := hcompl r info₀ w hget₀ hblock₀ target idx hrej hround₀
        refine Recorded.grows ?_ hgrows
        rw [Recorded, setInfo, get?_insert]
        by_cases ht : target = v.reference
        · subst ht
          refine ⟨_, by rw [if_pos rfl], ?_⟩
          rw [htget]
          exact hmem
        · exact ⟨tinfo, by simpa [ht] using htget, hmem⟩

/-! ## Proposed blocks -/

theorem addAcceptVote_inv (h : CertifierInv U p) (hc : Complete p.1)
    (hrec : p.1.votes.get? v.reference = some vinfo) (hvb : vinfo.block = some v)
    {target : BlockRef n} (hta : target ∈ v.ancestors) :
    CertifierInv U (addAcceptVote v p target) ∧ Grows p.1 (addAcceptVote v p target).1 := by
  unfold addAcceptVote
  by_cases hr : target.round + 1 = v.round
  · rw [if_neg (by simpa using hr)]
    cases hget : p.1.votes.get? target with
    | none => exact ⟨h, .refl _⟩
    | some info =>
      have hat : p.infoAt target = info := by simp [infoAt, hget]
      have hv := ((h.entry _ _ hrec).block v hvb).1
      have ha := h.above target info hget
      have hi : EntryInv U target (info.addAccept v.author) := by
        refine (h.entry target info hget).addAccept hv ⟨hta, hr⟩ fun idx hrej => ?_
        obtain ⟨tinfo, ht, hmem⟩ := hc _ vinfo v hrec hvb target idx hrej ha
        rw [hget] at ht
        cases ht
        exact hmem
      refine ⟨certify_inv h ha hi (by rw [hat]; rfl), certify_grows (by rw [hat]; rfl) ?_⟩
      intro idx
      rw [hat, rejectVotes_addAccept]
  · rw [if_pos hr]
    exact ⟨h, .refl _⟩

theorem foldl_addAcceptVote {l : List (BlockRef n)} (hl : ∀ target ∈ l, target ∈ v.ancestors)
    (h : CertifierInv U p) (hc : Complete p.1)
    (hrec : p.1.votes.get? v.reference = some vinfo) (hv : vinfo.block = some v) :
    CertifierInv U (l.foldl (addAcceptVote v) p) ∧ Complete (l.foldl (addAcceptVote v) p).1 := by
  induction l generalizing p vinfo with
  | nil => exact ⟨h, hc⟩
  | cons target l ih =>
    obtain ⟨hinv, hg⟩ := addAcceptVote_inv h hc hrec hv (hl target mem_cons_self)
    obtain ⟨vinfo', hr', hv', _⟩ := hg.kept _ vinfo hrec
    exact ih (fun t ht => hl t (mem_cons_of_mem _ ht)) hinv (hc.grows hg) hr' (hv'.trans hv)

theorem addParent_inv (h : CertifierInv U p) (hc : Complete p.1) (proposedRound : ℕ)
    (parent : BlockRef n) :
    CertifierInv U (addParent proposedRound p parent) ∧
      Complete (addParent proposedRound p parent).1 := by
  unfold addParent
  by_cases hr : parent.round + 1 = proposedRound
  · rw [if_neg (by simpa using hr)]
    cases hb : (p.1.votes.get? parent).bind block with
    | none => exact ⟨h, hc⟩
    | some v =>
      obtain ⟨vinfo, hget, hv⟩ := Option.bind_eq_some_iff.1 hb
      obtain ⟨_, rfl⟩ := (h.entry parent vinfo hget).block v hv
      exact foldl_addAcceptVote (fun _ ht => ht) h hc hget hv
  · rw [if_pos hr]
    exact ⟨h, hc⟩

theorem addProposedBlock_inv (h : CertifierInv U p) (hc : Complete p.1)
    {proposed : Block n} {p' : Certifier C} (hs : p.addProposedBlock proposed = .ok p') :
    CertifierInv U p' ∧ Complete p'.1 := by
  unfold addProposedBlock at hs
  by_cases hgc : proposed.round ≤ p.1.gcRound + 2
  · rw [if_pos hgc] at hs
    cases hs
    exact ⟨h, hc⟩
  · rw [if_neg hgc] at hs
    obtain ⟨_, _, hp⟩ := bind_ok.1 hs
    cases hp
    refine List.foldlRecOn (motive := fun p => CertifierInv U p ∧ Complete p.1) _ _
      ⟨h, hc⟩ fun q hq parent _ => ?_
    exact addParent_inv hq.1 hq.2 _ parent

/-! ## Garbage collection -/

theorem get?_updateGcRound : (p.updateGcRound gcRound).1.votes.get? r =
      if r.round ≤ gcRound then none else p.1.votes.get? r := by
  have hd : ∀ {j k : BlockRef n}, j ≤ k → decide (k.round ≤ gcRound) = true →
      decide (j.round ≤ gcRound) = true := by
    intro j k hjk hk
    have hle := BlockRef.round_le_of_le hjk
    have := of_decide_eq_true hk
    exact decide_eq_true (by omega)
  rw [updateGcRound, get?_popWhile hd]
  simp

theorem updateGcRound_inv (h : CertifierInv U p) (hcompl : Complete p.1)
    (hle : p.1.gcRound ≤ gcRound) :
    CertifierInv U (p.updateGcRound gcRound) ∧ Complete (p.updateGcRound gcRound).1 := by
  have hkept : ∀ {s info}, (p.updateGcRound gcRound).1.votes.get? s = some info →
      gcRound < s.round ∧ p.1.votes.get? s = some info := by
    intro s info hs
    rw [get?_updateGcRound] at hs
    by_cases hsr : s.round ≤ gcRound
    · simp [hsr] at hs
    · exact ⟨not_le.1 hsr, by simpa [hsr] using hs⟩
  refine ⟨⟨fun s info hs => (hkept hs).1, fun s info hs => h.entry s info (hkept hs).2, h.safe,
    h.once, fun c hc => ?_⟩, fun s info v hs hblock target idx hrej hround => ?_⟩
  · by_cases hgc : c.block.round ≤ gcRound
    · exact .inl hgc
    · refine .inr ?_
      rcases h.certified c hc with hlow | ⟨info, hget, hcert⟩
      · omega
      · refine ⟨info, ?_, hcert⟩
        rw [get?_updateGcRound, Block.reference_round, if_neg hgc, hget]
  · have hround' : gcRound < target.round := hround
    obtain ⟨tinfo, htget, hmem⟩ := hcompl s info v (hkept hs).2 hblock target idx hrej (by omega)
    refine ⟨tinfo, ?_, hmem⟩
    rw [get?_updateGcRound, if_neg (by omega), htget]

end Certifier

/-! ## Runs -/

/-- Calls with blocks that exist; the GC round does not go down, as it follows the leaders of
finalised commits. -/
def CertifierCall.Allowed (U : VotingUniverse C) (p : Certifier C) : CertifierCall n → Prop
  | .addVotedBlocks votedBlocks => ∀ voted ∈ votedBlocks, voted.1 ∈ U.blocks
  | .addProposedBlock proposedBlock => proposedBlock ∈ U.blocks
  | .updateGcRound gcRound => p.1.gcRound ≤ gcRound

theorem certifier_inv {p : Certifier C}
    (h : (certifierMachine C).Reach (CertifierCall.Allowed U) p) :
    CertifierInv U p ∧ Complete p.1 := by
  refine h.invariant (P := fun p => CertifierInv U p ∧ Complete p.1) ?_ ?_
  · rintro p rfl
    refine ⟨⟨?_, ?_, ?_, nodup_nil, ?_⟩, ?_⟩
    · intro r info hget
      simp [new] at hget
    · intro r info hget
      simp [new] at hget
    · intro c hc
      cases hc
    · intro c hc
      cases hc
    · intro r info v hget
      simp [new] at hget
  · rintro p call p' ⟨hinv, hco⟩ ha hs
    cases call with
    | addVotedBlocks votedBlocks =>
      cases hs
      refine List.foldlRecOn (motive := fun p => CertifierInv U p ∧ Complete p.1) _ _
        ⟨hinv, hco⟩ fun q hq voted hv => ?_
      exact addVotedBlock_inv hq.1 hq.2 (ha voted hv)
    | addProposedBlock proposedBlock =>
      exact addProposedBlock_inv hinv hco hs
    | updateGcRound gcRound =>
      cases hs
      exact updateGcRound_inv hinv hco ha

/-- **Fast-path certification is safe.** Whatever block one certifier has output and whatever state
another one reaches on the blocks that exist, the reject votes for a transaction that was not
listed as rejected do not reach a quorum; and no block is output twice. -/
theorem certification_safe (U : VotingUniverse C) {p p' : Certifier C}
    (h : (certifierMachine C).Reach (CertifierCall.Allowed U) p)
    (h' : (certifierMachine C).Reach (CertifierCall.Allowed U) p') :
    (∀ c ∈ p.2, ∀ idx ∉ c.rejected, ∀ info votes,
      p'.1.votes.get? c.block.reference = some info → info.rejectTxnVotes.get? idx = some votes →
        ¬ votes.reachedThreshold) ∧
      (p.2.map fun c => c.block.reference).Nodup := by
  obtain ⟨hinv, _⟩ := certifier_inv h
  obtain ⟨hinv', _⟩ := certifier_inv h'
  refine ⟨fun c hc idx hidx info votes hget hvo hr => ?_, hinv.once⟩
  refine (hinv.safe c hc).not_quorum_rejects hidx ?_
  rw [StakeAggregator.reachedThreshold_iff] at hr
  refine le_trans hr (Finset.sum_le_sum_of_subset fun a ha => ?_)
  have hmem : a ∈ info.rejectVotes idx := by simpa [rejectVotes, hvo] using ha
  obtain ⟨v, hv, hau, hrej⟩ := (hinv'.entry _ _ hget).reject idx a hmem
  exact mem_authorsOf.2 ⟨v, ⟨hv, hrej⟩, hau⟩

/-! ## A sample run -/

/-- A block with one transaction, and the second round, where one author rejects it. -/
def fastPathBlocks : List (Block 4) :=
  [{ sampleBlock 1 (authority 0) with transactions := [[7]] }, sampleBlock 2 (authority 0),
    sampleBlock 2 (authority 1), sampleBlock 2 (authority 2),
    { sampleBlock 2 (authority 3) with transactionVotes := [⟨⟨1, authority 0, 0⟩, [0]⟩] },
    sampleBlock 3 (authority 0)]

def fastPathUniverse : VotingUniverse fourAuthorities where
  blocks := { b | b ∈ fastPathBlocks }
  byzantine := sampleUniverse.byzantine
  byzantine_light := sampleUniverse.byzantine_light
  votes_once := by
    have h : ∀ b ∈ fastPathBlocks, ∀ b' ∈ fastPathBlocks, b.author = b'.author →
        ∀ r ∈ b.ancestors ++ b.transactionVotes.map (·.blockRef),
          r ∈ b'.ancestors ++ b'.transactionVotes.map (·.blockRef) → b = b' := by decide +kernel
    have hvotes : ∀ {b : Block 4} {r}, VotesOn b r →
        r ∈ b.ancestors ++ b.transactionVotes.map (·.blockRef) := by
      rintro b r (hlink | ⟨votes, hmem, rfl⟩)
      · exact mem_append_left _ hlink.1
      · exact mem_append_right _ (mem_map_of_mem hmem)
    intro b hb b' hb' _ hauthor r hr hr'
    exact h b hb b' hb' hauthor r (hvotes hr) (hvotes hr')

instance (p : Certifier fourAuthorities) (call : CertifierCall 4) :
    Decidable (call.Allowed fastPathUniverse p) :=
  match call with
  | .addVotedBlocks votedBlocks =>
    inferInstanceAs (Decidable (∀ voted ∈ votedBlocks, voted.1 ∈ fastPathBlocks))
  | .addProposedBlock proposedBlock => inferInstanceAs (Decidable (proposedBlock ∈ fastPathBlocks))
  | .updateGcRound gcRound => inferInstanceAs (Decidable (p.1.gcRound ≤ gcRound))

/-- Authority 0 certifies the block in spite of the reject vote, and a validator that only has
received the blocks counts this vote. -/
theorem certification_safe_sample : ∃ p p' : Certifier fourAuthorities,
      p.2 = [⟨{ sampleBlock 1 0 with transactions := [[7]] }, []⟩] ∧
      ((p'.1.votes.get? ⟨1, 0, 0⟩).map fun info => info.rejectVotes 0) = some {3} ∧
      (∀ c ∈ p.2, ∀ idx ∉ c.rejected, ∀ info votes, p'.1.votes.get? c.block.reference = some info →
          info.rejectTxnVotes.get? idx = some votes → ¬ votes.reachedThreshold) ∧
      (p.2.map fun c => c.block.reference).Nodup := by
  have hi := Machine.init_ok (M := certifierMachine fourAuthorities) rfl
  obtain ⟨p, hp, hout⟩ := Machine.exists_reach (C := CertifierCall.Allowed fastPathUniverse)
    [.addVotedBlocks (fastPathBlocks.map fun b => (b, [])), .addProposedBlock (sampleBlock 3 0)]
    (fun p => p.2 = [⟨{ sampleBlock 1 0 with transactions := [[7]] }, []⟩])
    hi (by decide +kernel)
  obtain ⟨p', hp', hv⟩ := Machine.exists_reach (C := CertifierCall.Allowed fastPathUniverse)
    [.addVotedBlocks (fastPathBlocks.map fun b => (b, []))]
    (fun p => ((p.1.votes.get? ⟨1, 0, 0⟩).map fun info => info.rejectVotes 0) = some {3})
    hi (by decide +kernel)
  exact ⟨p, p', hout, hv, certification_safe fastPathUniverse hp hp'⟩

end OneChain.Consensus
