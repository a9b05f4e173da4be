import OneChain.Checkpoints.CreateCheckpoints
import OneChain.Lib.Transition

/-!
# The accounts of the checkpoint chain

Every call of `create_checkpoints` starts from what earlier calls left in the store: the last
summary built in the epoch, or the last checkpoint of the epoch before. A run is any sequence of
calls and epoch changes. What it builds is one chain (`Chained`), and the gas summaries add up
within each epoch.

The chunks of a call (`Chunks`) are within the limits. A count limit of `0` is the exception: the
length of a chunk that has its first transaction never equals it again, so such a chunk takes every
transaction that fits by size.

* `splitCheckpointChunks_spec` — the chunks concatenate to the input and respect the limits.
* `BuilderRun.chain_accounting` — the chain of every run, and the chunks of every call.
* `countLimit_zero` — two transactions in one chunk under the limit `0`.
-/

namespace OneChain.Checkpoints

open Lib Authority List OrdMap

variable {config : BuilderConfig} {enc : Encoding}

/-! ## Chunks -/

def untag (item : SizedTransaction) : TransactionEffects × List Signature := (item.1.1, item.2)

variable (config enc) in
/-- A chunk within the limits. -/
structure Fits (chunk : List SizedTransaction) : Prop where
  count : 0 < config.maxTransactionsPerCheckpoint →
    chunk.length ≤ config.maxTransactionsPerCheckpoint
  size : (chunk.map (transactionSize enc)).sum ≤ config.maxCheckpointSizeBytes ∨ chunk.length = 1

variable (config enc) in
/-- The loop has cut `items` into closed chunks and an open one. -/
structure Cut (items : List SizedTransaction) (closed : List (List SizedTransaction))
    (current : List SizedTransaction) (state : Chunking) : Prop where
  chunks : state.chunks = closed.map (·.map untag)
  chunk : state.chunk = current.map untag
  chunkSize : state.chunkSize = (current.map (transactionSize enc)).sum
  flatten : closed.flatten ++ current = items
  fits : ∀ c ∈ closed, Fits config enc c
  current_fits : Fits config enc current
  current_ne : closed ≠ [] → current ≠ []

theorem fits_singleton (item : SizedTransaction) : Fits config enc [item] := ⟨fun h => h, .inr rfl⟩

theorem cut_addToChunk {items closed current state} (h : Cut config enc items closed current state)
    (item : SizedTransaction) :
    ∃ closed' current', Cut config enc (items ++ [item]) closed' current'
      (addToChunk config enc state item) := by
  have hlen : state.chunk.length = current.length := by rw [h.chunk, length_map]
  have hnil : state.chunk = [] ↔ current = [] := by rw [h.chunk, map_eq_nil_iff]
  simp only [addToChunk]
  split
  next hr =>
    refine ⟨closed ++ [current], [item], ?_, rfl, by simp, ?_, ?_, fits_singleton item, by simp⟩
    · rw [h.chunks, h.chunk, map_append, map_singleton]
    · rw [← h.flatten, flatten_append, flatten_singleton]
    · rw [forall_mem_append, forall_mem_singleton]
      exact ⟨h.fits, h.current_fits⟩
  next hs =>
    refine ⟨closed, current ++ [item], h.chunks, ?_, ?_, ?_, h.fits, ⟨fun hmax => ?_, ?_⟩, by simp⟩
    · rw [h.chunk, map_append]
      rfl
    · rw [h.chunkSize, map_append, sum_append, map_singleton, sum_singleton]
    · rw [← h.flatten, append_assoc]
    · by_cases he : current = []
      · rw [he]
        exact hmax
      · -- the chunk holds something, so it stays only below the limit
        have hc := h.current_fits.count hmax
        rw [length_append, length_singleton]
        have hne : current.length ≠ config.maxTransactionsPerCheckpoint := fun heq =>
          hs ⟨.inl (hlen.trans heq), mt hnil.1 he⟩
        omega
    · by_cases he : current = []
      · exact .inr (by rw [he]; rfl)
      · refine .inl (Nat.le_of_not_lt fun hlt => hs ⟨.inr ?_, mt hnil.1 he⟩)
        rw [map_append, sum_append] at hlt
        rw [h.chunkSize]
        exact hlt

theorem cut_foldl {items r : List SizedTransaction} {closed current state}
    (h : Cut config enc items closed current state) :
    ∃ closed' current', Cut config enc (items ++ r) closed' current'
      (r.foldl (addToChunk config enc) state) := by
  induction r generalizing items closed current state with
  | nil => exact ⟨closed, current, by rwa [append_nil]⟩
  | cons item r ih =>
    obtain ⟨closed', current', h'⟩ := cut_addToChunk h item
    obtain ⟨closed'', current'', h''⟩ := ih h'
    refine ⟨closed'', current'', ?_⟩
    rwa [append_assoc, singleton_append] at h''

variable (config enc) in
/-- The chunks of a list of transactions. -/
structure Chunks (items : List SizedTransaction) (groups : List (List SizedTransaction)) :
    Prop where
  flatten : groups.flatten = items
  fits : ∀ g ∈ groups, Fits config enc g
  ne : groups ≠ []

/-- **The chunks concatenate to the input and respect the limits.** -/
theorem splitCheckpointChunks_spec (config : BuilderConfig) (enc : Encoding)
    (effectsAndSizes : List (TransactionEffects × ℕ)) (signatures : List (List Signature)) :
    ∃ groups, Chunks config enc (effectsAndSizes.zip signatures) groups ∧
      splitCheckpointChunks config enc effectsAndSizes signatures = groups.map (·.map untag) := by
  have hst : Cut config enc [] [] [] ⟨[], [], 0⟩ :=
    ⟨rfl, rfl, rfl, rfl, by simp, ⟨fun _ => Nat.zero_le _, .inl (Nat.zero_le _)⟩, by simp⟩
  obtain ⟨closed, current, h⟩ := cut_foldl hst
  rw [nil_append] at h
  have hch : ∀ state : Chunking, state.chunk = current.map untag →
      (state.chunk = [] ↔ current = []) := fun state hs => by rw [hs, map_eq_nil_iff]
  simp only [splitCheckpointChunks]
  split
  next =>
    refine ⟨closed ++ [current], ⟨?_, ?_, by simp⟩, ?_⟩
    · rw [flatten_append, flatten_singleton, h.flatten]
    · rw [forall_mem_append, forall_mem_singleton]
      exact ⟨h.fits, h.current_fits⟩
    · rw [h.chunks, h.chunk, map_append, map_singleton]
  next hd =>
    rw [not_or, not_not] at hd
    have hcu : current = [] := (hch _ h.chunk).1 hd.1
    refine ⟨closed, ⟨?_, h.fits, fun hc => hd.2 ?_⟩, h.chunks⟩
    · rw [← h.flatten, hcu, append_nil]
    · rw [h.chunks, hc]
      rfl

/-! ## Gas -/

def gasOf (effects : List TransactionEffects) : GasCostSummary :=
  (effects.map (·.gasCostSummary)).sum

theorem gasOf_cons (e : TransactionEffects) (l : List TransactionEffects) :
    gasOf (e :: l) = e.gasCostSummary + gasOf l := by
  rfl

theorem gasOf_append (a b : List TransactionEffects) : gasOf (a ++ b) = gasOf a + gasOf b := by
  rw [gasOf, map_append, sum_append]
  rfl

theorem newFromTxnEffects_eq (effects : List TransactionEffects) :
    newFromTxnEffects effects = gasOf effects := by
  have hacc : ∀ (l : List TransactionEffects) (a : GasCostSummary),
      (⟨(l.map (·.gasCostSummary.computationCost)).foldl (· + ·) a.computationCost,
        (l.map (·.gasCostSummary.storageCost)).foldl (· + ·) a.storageCost,
        (l.map (·.gasCostSummary.storageRebate)).foldl (· + ·) a.storageRebate,
        (l.map (·.gasCostSummary.nonRefundableStorageFee)).foldl (· + ·)
          a.nonRefundableStorageFee⟩ : GasCostSummary) = a + gasOf l := by
    intro l
    induction l with
    | nil => exact fun a => (add_zero a).symm
    | cons e l ih =>
      intro a
      rw [gasOf_cons, ← add_assoc]
      exact ih (a + e.gasCostSummary)
  exact (hacc effects 0).trans (zero_add _)

theorem getEpochTotalGasCost_eq (epoch : ℕ) (last : Option CheckpointSummary)
    (effects : List TransactionEffects) :
    getEpochTotalGasCost epoch last effects =
      (if (last.map (·.epoch)).getD 0 = epoch then
        (last.map (·.epochRollingGasCostSummary)).getD 0 else 0) + gasOf effects := by
  simp only [getEpochTotalGasCost, newFromTxnEffects_eq]
  split
  · rfl
  · exact (zero_add _).symm

/-! ## One checkpoint after another -/

variable (config enc) in
/-- The checkpoint continues the chain after `prev`. -/
structure Follows (prev : Option CheckpointSummary) (c : BuiltCheckpoint) : Prop where
  sequenceNumber : c.summary.sequenceNumber = (prev.map (·.sequenceNumber + 1)).getD 0
  previousDigest : c.summary.previousDigest = prev.map enc.summaryDigest
  networkTotalTransactions : c.summary.networkTotalTransactions =
    (prev.map (·.networkTotalTransactions)).getD 0 + c.contents.transactions.length
  timestampMs : config.enforceCheckpointTimestampMonotonicity = true →
    ∀ p, prev = some p → p.timestampMs ≤ c.summary.timestampMs
  contents : c.contents.transactions = c.effects.map executionDigests
  contentDigest : c.summary.contentDigest = enc.contentsDigest c.contents

variable (config enc) in
/-- Every checkpoint follows the one before it. -/
def Chained : Option CheckpointSummary → List BuiltCheckpoint → Prop
  | _, [] => True
  | prev, c :: cs => Follows config enc prev c ∧ Chained (some c.summary) cs

variable (prev : Option CheckpointSummary)

/-- The summary at the end of the chain. -/
def lastOf (cs : List BuiltCheckpoint) : Option CheckpointSummary :=
  (cs.getLast?.map (·.summary)).or prev

theorem lastOf_cons (c : BuiltCheckpoint)
    (cs : List BuiltCheckpoint) : lastOf prev (c :: cs) = lastOf (some c.summary) cs := by
  cases cs with
  | nil => rfl
  | cons d cs => rw [lastOf]; rfl

theorem lastOf_append (cs ds : List BuiltCheckpoint) :
    lastOf prev (cs ++ ds) = lastOf (lastOf prev cs) ds := by
  induction cs generalizing prev with
  | nil => rfl
  | cons c cs ih => rw [cons_append, lastOf_cons, ih, lastOf_cons]

variable {built cs : List BuiltCheckpoint} {lastOfEpoch : Bool} {c : BuiltCheckpoint}
  {advanceEpoch : AdvanceEpoch} {epoch : ℕ} {store : BuilderStore} {call : CreateCall}

theorem chained_append {prev : Option CheckpointSummary} {ds : List BuiltCheckpoint} :
    Chained config enc prev (cs ++ ds) ↔
      Chained config enc prev cs ∧ Chained config enc (lastOf prev cs) ds := by
  induction cs generalizing prev with
  | nil => exact (iff_of_eq (true_and _)).symm
  | cons c cs ih =>
    rw [lastOf_cons]
    exact (and_congr_right fun _ => ih).trans and_assoc.symm

/-- What a chunk adds to its checkpoint: its effects, and on the last checkpoint of an epoch those
of the advance-epoch transaction and the end-of-epoch data. -/
structure Carries (lastOfEpoch : Bool) (effects : List TransactionEffects) (c : BuiltCheckpoint) :
    Prop where
  endOfEpochData : c.summary.endOfEpochData.isSome = lastOfEpoch
  effects : if lastOfEpoch then
      ∃ outcome : AdvanceEpochOutcome, c.effects = effects ++ [outcome.effects]
    else c.effects = effects

theorem Carries.gasOf_effects {effects : List TransactionEffects}
    (h : Carries lastOfEpoch effects c) : gasOf c.effects = gasOf effects := by
  have heff := h.effects
  split at heff
  · obtain ⟨outcome, heq⟩ := heff
    rw [heq, gasOf_append, gasOf_cons, outcome.unmetered]
    exact add_zero _
  · rw [heff]

theorem augmentChunk_carries {gasCost : GasCostSummary} {timestampMs sequenceNumber seq : ℕ}
    {chunk : Chunk} {r : List TransactionEffects × List (List Signature) × Option EndOfEpochData}
    (h : augmentChunk config advanceEpoch lastOfEpoch gasCost timestampMs sequenceNumber seq chunk =
      .ok r) (heff : c.effects = r.1) (hd : c.summary.endOfEpochData = r.2.2) :
    Carries lastOfEpoch (chunk.map Prod.fst) c := by
  unfold augmentChunk at h
  split at h
  next hl =>
    obtain ⟨outcome, _, h⟩ := bind_ok.1 h
    cases h
    refine ⟨by rw [hd, hl]; rfl, ?_⟩
    rw [if_pos hl]
    exact ⟨outcome, heff⟩
  next hl =>
    cases h
    refine ⟨?_, ?_⟩
    · rw [hd, Bool.eq_false_iff.2 hl]
      rfl
    · rw [if_neg hl]
      exact heff

theorem le_checkpointTimestamp (hc : config.enforceCheckpointTimestampMonotonicity = true)
    (details : PendingCheckpointInfo) (p : CheckpointSummary) :
    p.timestampMs ≤ checkpointTimestamp config details (some p) := by
  simp only [checkpointTimestamp, hc, and_true]
  split <;> omega

theorem createCheckpoint_ok {rounds : OrdMap TransactionDigest ℕ}
    {details : PendingCheckpointInfo} {seq : Option ℕ} {last : Option CheckpointSummary}
    {chunk : Chunk}
    (h : createCheckpoint config enc rounds advanceEpoch epoch details seq lastOfEpoch last chunk =
      .ok c) :
    Follows config enc last c ∧ c.summary.epoch = epoch ∧ c.summary.epochRollingGasCostSummary =
        getEpochTotalGasCost epoch last (chunk.map Prod.fst) ∧
      Carries lastOfEpoch (chunk.map Prod.fst) c := by
  obtain ⟨r, ha, h⟩ := bind_ok.1 h
  obtain ⟨_, _, h⟩ := bind_ok.1 h
  obtain ⟨data, _, h⟩ := bind_ok.1 h
  cases h
  refine ⟨⟨rfl, rfl, ?_, ?_, rfl, rfl⟩, rfl, rfl, augmentChunk_carries ha rfl rfl⟩
  · cases last with
    | none => exact (Nat.zero_add _).symm
    | some p => rfl
  · rintro hc p rfl
    exact le_checkpointTimestamp hc details p

/-! ## The checkpoints of a call -/

variable (epoch : ℕ) in
/-- The gas of the epoch's transactions in a list of checkpoints. -/
def epochGas (cs : List BuiltCheckpoint) : GasCostSummary :=
  gasOf ((cs.filter (·.summary.epoch = epoch)).flatMap (·.effects))

theorem epochGas_append (epoch : ℕ) (cs ds : List BuiltCheckpoint) :
    epochGas epoch (cs ++ ds) = epochGas epoch cs + epochGas epoch ds := by
  rw [epochGas, filter_append, flatMap_append, gasOf_append]
  rfl

theorem epochGas_singleton (h : c.summary.epoch = epoch) :
    epochGas epoch [c] = gasOf c.effects := by
  simp [epochGas, h]

theorem epochGas_eq_zero (h : ∀ c ∈ cs, c.summary.epoch ≠ epoch) : epochGas epoch cs = 0 := by
  have hnil : cs.filter (·.summary.epoch = epoch) = [] :=
    filter_eq_nil_iff.2 fun c hc => by simpa using h c hc
  rw [epochGas, hnil]
  rfl

/-- The last summary carries on the gas of its epoch. -/
def CarriesGas (epoch : ℕ) (last : Option CheckpointSummary) (cs : List BuiltCheckpoint) : Prop :=
  (if (last.map (·.epoch)).getD 0 = epoch then
    (last.map (·.epochRollingGasCostSummary)).getD 0 else 0) = epochGas epoch cs

/-- Every summary has the gas of its epoch's transactions so far. -/
def GasAddsUp (cs : List BuiltCheckpoint) : Prop :=
  ∀ before c rest, cs = before ++ c :: rest →
    c.summary.epochRollingGasCostSummary = epochGas c.summary.epoch (before ++ [c])

theorem gasAddsUp_concat (h : GasAddsUp cs)
    (hc : c.summary.epochRollingGasCostSummary = epochGas c.summary.epoch (cs ++ [c])) :
    GasAddsUp (cs ++ [c]) := by
  intro before d rest heq
  rcases eq_nil_or_concat rest with rfl | ⟨rest', e, rfl⟩
  · obtain ⟨hcs, hd⟩ := append_inj' heq rfl
    cases hd
    rw [← hcs]
    exact hc
  · rw [concat_eq_append, ← cons_append, ← append_assoc] at heq
    obtain ⟨hcs, _⟩ := append_inj' heq rfl
    exact h before d rest' hcs

section Loop

variable {rounds : OrdMap TransactionDigest ℕ} {details : PendingCheckpointInfo} {seq : Option ℕ}

variable {last : Option CheckpointSummary} {chunks : List Chunk}

/-- **The loop over the chunks** continues the chain and the accounts of whatever was built
before it. -/
theorem createLoop_chain {count index : ℕ} {earlier : List BuiltCheckpoint}
    (h : createLoop config enc rounds advanceEpoch epoch details seq count index last chunks =
      .ok built) (hgas : CarriesGas epoch last earlier) (hadds : GasAddsUp earlier) :
    Chained config enc last built ∧ (∀ c ∈ built, c.summary.epoch = epoch) ∧
      CarriesGas epoch (lastOf last built) (earlier ++ built) ∧ GasAddsUp (earlier ++ built) := by
  induction chunks generalizing index last earlier built with
  | nil =>
    cases h
    rw [append_nil]
    exact ⟨trivial, by simp, hgas, hadds⟩
  | cons chunk chunks ih =>
    obtain ⟨c, hc, h⟩ := bind_ok.1 h
    obtain ⟨rest, hrest, h⟩ := bind_ok.1 h
    cases h
    obtain ⟨hfoll, hepoch, hrolling, hcarr⟩ := createCheckpoint_ok hc
    have htotal : c.summary.epochRollingGasCostSummary = epochGas epoch (earlier ++ [c]) := by
      rw [hrolling, getEpochTotalGasCost_eq, hgas, epochGas_append, epochGas_singleton hepoch,
        hcarr.gasOf_effects]
    have hgas' : CarriesGas epoch (some c.summary) (earlier ++ [c]) := by
      rw [CarriesGas, ← htotal]
      exact if_pos hepoch
    obtain ⟨hchained, hepochs, hlast, hall⟩ :=
      ih hrest hgas' (gasAddsUp_concat hadds (by rw [hepoch]; exact htotal))
    rw [append_assoc] at hlast hall
    refine ⟨⟨hfoll, hchained⟩, forall_mem_cons.2 ⟨hepoch, hepochs⟩, ?_, hall⟩
    rwa [lastOf_cons]

/-- **Which chunk goes where**, and which checkpoint ends the epoch. -/
theorem createLoop_carries {count index : ℕ}
    (h : createLoop config enc rounds advanceEpoch epoch details seq count index last chunks =
      .ok built) :
    built.length = chunks.length ∧ ∀ i c chunk, built[i]? = some c → chunks[i]? = some chunk →
      Carries (details.lastOfEpoch && index + i == count - 1) (chunk.map Prod.fst) c := by
  induction chunks generalizing index last built with
  | nil =>
    cases h
    exact ⟨rfl, by simp⟩
  | cons chunk chunks ih =>
    obtain ⟨c, hc, h⟩ := bind_ok.1 h
    obtain ⟨rest, hr, h⟩ := bind_ok.1 h
    cases h
    obtain ⟨hlen, hca⟩ := ih hr
    refine ⟨by rw [length_cons, length_cons, hlen], fun i d g hd hg => ?_⟩
    cases i with
    | zero =>
      cases hd
      cases hg
      exact (createCheckpoint_ok hc).2.2.2
    | succ i =>
      rw [← Nat.succ_add_eq_add_succ]
      exact hca i d g hd hg

end Loop

theorem length_userSignatures {transactions : List (TransactionDigest × Transaction)}
    {userSigs : OrdMap TransactionDigest (List Signature)} {signatures : List (List Signature)}
    (h : userSignaturesForCheckpoint transactions userSigs = .ok signatures) :
    signatures.length = transactions.length := by
  induction transactions generalizing userSigs signatures with
  | nil =>
    cases h
    rfl
  | cons e transactions ih =>
    obtain ⟨digest, transaction⟩ := e
    rw [userSignaturesForCheckpoint] at h
    split at h
    · obtain ⟨_, _, h⟩ := bind_ok.1 h
      obtain ⟨others, hoth, h⟩ := bind_ok.1 h
      cases h
      rw [length_cons, length_cons, ih hoth]
    · obtain ⟨others, hoth, h⟩ := bind_ok.1 h
      cases h
      rw [length_cons, length_cons, ih hoth]

variable (config enc) in
/-- The checkpoints of a call, chunk by chunk. -/
structure CallBuilds (call : CreateCall) (built : List BuiltCheckpoint)
    (groups : List (List SizedTransaction)) : Prop where
  effects : groups.flatten.map (·.1.1) = call.allEffects
  sizes : ∀ item ∈ groups.flatten, ∃ transaction,
    call.cache item.1.1.transactionDigest = some (transaction, item.1.2)
  fits : ∀ g ∈ groups, Fits config enc g
  length : built.length = groups.length
  carries : ∀ i c g, built[i]? = some c → groups[i]? = some g →
    Carries (call.details.lastOfEpoch && i + 1 == groups.length) (g.map (·.1.1)) c

theorem executedTransaction_ok {cache : TransactionCache} {effects : TransactionEffects}
    {r : Transaction × ℕ} (h : executedTransaction cache effects = .ok r) :
    cache effects.transactionDigest = some r := by
  obtain ⟨found, hf, h⟩ := bind_ok.1 h
  rw [require_ok] at hf
  split at h <;> cases h <;> exact hf

section

variable (h : createCheckpoints config enc store call = .ok built)
include h

/-- What a call hands to the loop: the chunks of its effects, with the sizes of the transactions. -/
theorem createCheckpoints_ok :
    ∃ last found signatures groups rounds, loadLastBuiltCheckpointSummary store = .ok last ∧
      Forall₂ (fun e r => executedTransaction call.cache e = .ok r) call.allEffects found ∧
      signatures.length = call.allEffects.length ∧
      Chunks config enc ((call.allEffects.zip (found.map Prod.snd)).zip signatures) groups ∧
      createLoop config enc rounds call.advanceEpoch store.epoch call.details
        (last.map (·.sequenceNumber)) groups.length 0 last (groups.map (·.map untag)) =
          .ok built := by
  obtain ⟨last, hl, h⟩ := bind_ok.1 h
  obtain ⟨found, hf, h⟩ := bind_ok.1 h
  obtain ⟨signatures, hsi, h⟩ := bind_ok.1 h
  have hfor := mapM_eq_ok.1 hf
  have hs := length_userSignatures hsi
  rw [transactionsOf, length_zip, length_map, length_map, ← hfor.length_eq, min_self] at hs
  obtain ⟨groups, hc, hsp⟩ := splitCheckpointChunks_spec config enc
    (call.allEffects.zip (found.map Prod.snd)) signatures
  simp only [hsp, length_map] at h
  exact ⟨last, found, signatures, groups, _, hl, hfor, hs, hc, h⟩

theorem createCheckpoints_builds : ∃ groups, CallBuilds config enc call built groups := by
  obtain ⟨last, found, signatures, groups, rounds, _, hfound, hsigs, hchunks, h⟩ :=
    createCheckpoints_ok h
  have hlen : call.allEffects.length = (found.map Prod.snd).length := by
    rw [length_map, hfound.length_eq]
  obtain ⟨hlength, hcarr⟩ := createLoop_carries h
  rw [length_map] at hlength
  refine ⟨groups, ?_, fun item hitem => ?_, hchunks.fits, hlength, fun i c g hc hg => ?_⟩
  · have hcomp : (fun item : SizedTransaction => item.1.1) = Prod.fst ∘ Prod.fst := rfl
    rw [hchunks.flatten, hcomp, ← map_map, map_fst_zip, map_fst_zip hlen.le]
    rw [length_zip, ← hlen, min_self, hsigs]
  · obtain ⟨sized, signature⟩ := item
    rw [hchunks.flatten] at hitem
    have hsized := (of_mem_zip hitem).1
    rw [zip_map_right, mem_map] at hsized
    obtain ⟨⟨e, r⟩, her, heq⟩ := hsized
    refine ⟨r.1, ?_⟩
    rw [← heq]
    exact executedTransaction_ok ((forall₂_iff_zip.1 hfound).2 her)
  · have hpos : 0 < groups.length := length_pos_of_ne_nil hchunks.ne
    have hindex : (0 + i == groups.length - 1) = (i + 1 == groups.length) := by
      rw [Bool.eq_iff_iff, beq_iff_eq, beq_iff_eq]
      omega
    have hchunk : (groups.map (·.map untag))[i]? = some (g.map untag) := by
      rw [getElem?_map, hg]
      rfl
    have hc' := hcarr i c (g.map untag) hc hchunk
    rw [hindex, map_map] at hc'
    exact hc'

end

/-! ## Runs -/

/-- A builder over time: its store, the checkpoint that the run started after, and what was built
since. -/
structure BuilderRun where
  store : BuilderStore
  base : Option CheckpointSummary
  built : List BuiltCheckpoint

inductive BuilderAction
  | create (call : CreateCall)
  | reconfigure

namespace BuilderRun

/-- A run starts with the genesis checkpoint in the builder, at the end of the epoch before, or in
the first epoch with nothing. -/
inductive Starts : BuilderStore → Option CheckpointSummary → Prop
  | genesis (g : CheckpointSummary) (last : Option CheckpointSummary) (hepoch : g.epoch = 0)
      (hgas : g.epochRollingGasCostSummary = 0) :
      Starts ⟨0, OrdMap.empty.insert g.sequenceNumber g, last⟩ (some g)
  | epoch (e : ℕ) (last : CheckpointSummary) (hepoch : last.epoch = e) :
      Starts ⟨e + 1, .empty, some last⟩ (some last)
  | empty (last : Option CheckpointSummary) : Starts ⟨0, .empty, last⟩ none

variable (config enc) in
def machine : Machine BuilderRun BuilderAction BuilderError where
  init s := Starts s.store s.base ∧ s.built = []
  step s
    | .create call => do
      let built ← createCheckpoints config enc s.store call
      pure ⟨writeCheckpoints s.store built, s.base, s.built ++ built⟩
    | .reconfigure => do
      let store ← nextEpoch s.store
      pure ⟨store, s.base, s.built⟩

variable (config enc) in
/-- The chain so far, and how the store continues it. -/
structure Inv (s : BuilderRun) : Prop where
  chained : Chained config enc s.base s.built
  gas : GasAddsUp s.built
  last : loadLastBuiltCheckpointSummary s.store = .ok (lastOf s.base s.built)
  carries : CarriesGas s.store.epoch (lastOf s.base s.built) s.built
  epochs : ∀ c ∈ s.built, c.summary.epoch ≤ s.store.epoch
  summaryEpochs : ∀ n c, s.store.builderSummaries.get? n = some c → c.epoch = s.store.epoch
  summaryKeys : ∀ n ∈ s.store.builderSummaries, ∃ p, lastOf s.base s.built = some p ∧
    n ≤ p.sequenceNumber

variable {s : BuilderRun}

theorem loadLast_of_last? {n : ℕ} {c : CheckpointSummary}
    (h : store.builderSummaries.last? = some (n, c)) :
    loadLastBuiltCheckpointSummary store = .ok (some c) := by
  rw [loadLastBuiltCheckpointSummary, h]
  rfl

theorem inv_init (h : (machine config enc).init s) : Inv config enc s := by
  obtain ⟨store, base, built⟩ := s
  obtain ⟨hs, hb⟩ := h
  subst hb
  have hgas : GasAddsUp [] := fun before c rest h => by simp at h
  have hem : ∀ n, (OrdMap.empty : OrdMap ℕ CheckpointSummary).get? n = none := fun _ => rfl
  cases hs with
  | genesis g last he hr =>
    refine ⟨trivial, hgas, rfl, ?_, by simp, fun n c hc => ?_, fun n hn => ⟨g, rfl, ?_⟩⟩
    · exact (if_pos he).trans hr
    · rcases get?_insert_eq_some.1 hc with ⟨_, rfl⟩ | ⟨_, hc⟩
      · exact he
      · cases hc
    · rw [mem_insert] at hn
      exact (hn.resolve_right (by simp)).le
  | epoch e last he =>
    refine ⟨trivial, hgas, rfl, ?_, by simp, fun n c hc => ?_, fun n hn => ?_⟩
    · exact if_neg (he ▸ (Nat.succ_ne_self e).symm)
    · cases hc
    · cases hn
  | empty last =>
    refine ⟨trivial, hgas, rfl, rfl, by simp, fun n c hc => ?_, fun n hn => ?_⟩
    · cases hc
    · cases hn

/-- Summaries with growing sequence numbers: the last one written is the last one read. -/
theorem last?_writeSummaries {cs : List BuiltCheckpoint} {m : OrdMap ℕ CheckpointSummary}
    {p : CheckpointSummary} {e : ℕ} (hc : Chained config enc (some p) cs)
    (hl : m.last? = some (p.sequenceNumber, p)) (hk : ∀ n ∈ m, n ≤ p.sequenceNumber)
    (hm : ∀ n c, m.get? n = some c → c.epoch = e) (hcs : ∀ c ∈ cs, c.summary.epoch = e) :
    ∃ q, lastOf (some p) cs = some q ∧
      (cs.foldl (fun m c => m.insert c.summary.sequenceNumber c.summary) m).last? =
        some (q.sequenceNumber, q) ∧
      (∀ n ∈ cs.foldl (fun m c => m.insert c.summary.sequenceNumber c.summary) m,
        n ≤ q.sequenceNumber) ∧
      ∀ n c, (cs.foldl (fun m c => m.insert c.summary.sequenceNumber c.summary) m).get? n =
        some c → c.epoch = e := by
  induction cs generalizing m p with
  | nil => exact ⟨p, rfl, hl, hk, hm⟩
  | cons c cs ih =>
    rw [forall_mem_cons] at hcs
    have hseq : c.summary.sequenceNumber = p.sequenceNumber + 1 := hc.1.sequenceNumber
    rw [lastOf_cons]
    refine ih hc.2 (last?_insert fun n hn => ?_) (fun n hn => ?_)
      (forall_get?_insert hcs.1 hm) hcs.2
    · have := hk n hn
      omega
    · rcases mem_insert.1 hn with rfl | hn
      · exact le_rfl
      · have := hk n hn
        omega

theorem inv_create {built : List BuiltCheckpoint} (h : Inv config enc s)
    (hrun : createCheckpoints config enc s.store call = .ok built) :
    Inv config enc ⟨writeCheckpoints s.store built, s.base, s.built ++ built⟩ := by
  obtain ⟨last, found, signatures, groups, rounds, hlast, _, _, hchunks, hloop⟩ :=
    createCheckpoints_ok hrun
  obtain rfl : last = lastOf s.base s.built := Except.ok.inj (hlast.symm.trans h.last)
  obtain ⟨hchained, hepochs, hcarr, hgas⟩ := createLoop_chain hloop h.carries h.gas
  have hne : built ≠ [] := by
    have hlen := (createLoop_carries hloop).1
    rw [length_map] at hlen
    exact ne_nil_of_length_pos (hlen ▸ length_pos_of_ne_nil hchunks.ne)
  obtain ⟨c, cs, rfl⟩ := exists_cons_of_ne_nil hne
  have hseq := hchained.1.sequenceNumber
  have hlower : ∀ n ∈ s.store.builderSummaries, n ≤ c.summary.sequenceNumber := fun n hn => by
    obtain ⟨p, hp, hle⟩ := h.summaryKeys n hn
    rw [hseq, hp]
    exact hle.trans (Nat.le_succ _)
  rw [forall_mem_cons] at hepochs
  obtain ⟨q, hq, hread, hkeys, hsumm⟩ := last?_writeSummaries hchained.2 (last?_insert hlower)
    (fun n hn => (mem_insert.1 hn).elim (fun h => h.le) (hlower n))
    (forall_get?_insert hepochs.1 h.summaryEpochs) hepochs.2
  have hlastOf : lastOf s.base (s.built ++ c :: cs) = some q := by
    rw [lastOf_append, lastOf_cons, hq]
  refine ⟨chained_append.2 ⟨h.chained, hchained⟩, hgas, ?_, ?_, ?_, hsumm, fun n hn => ?_⟩
  · rw [hlastOf]
    exact loadLast_of_last? hread
  · rw [lastOf_append]
    exact hcarr
  · rw [forall_mem_append, forall_mem_cons]
    exact ⟨h.epochs, hepochs.1.le, fun d hd => (hepochs.2 d hd).le⟩
  · exact ⟨q, hlastOf, hkeys n hn⟩

theorem inv_reconfigure (h : Inv config enc s) (hrun : nextEpoch s.store = .ok store) :
    Inv config enc ⟨store, s.base, s.built⟩ := by
  obtain ⟨⟨n, c⟩, hc, hrun⟩ := bind_ok.1 hrun
  obtain ⟨_, _, hrun⟩ := bind_ok.1 hrun
  cases hrun
  rw [require_ok] at hc
  have he := h.summaryEpochs n c (last?_eq_some hc).1
  have hl : lastOf s.base s.built = some c :=
    Except.ok.inj (h.last.symm.trans (loadLast_of_last? hc))
  refine ⟨h.chained, h.gas, ?_, ?_, fun d hd => (h.epochs d hd).trans (Nat.le_succ _),
    fun n d hd => ?_, fun n hn => ?_⟩
  · rw [hl]
    rfl
  · rw [hl]
    have hz : epochGas (s.store.epoch + 1) s.built = 0 :=
      epochGas_eq_zero fun d hd => by
        have := h.epochs d hd
        omega
    change (if c.epoch = s.store.epoch + 1 then _ else _) = _
    rw [hz, if_neg (by omega)]
  · cases hd
  · cases hn

/-- **The accounts of the chain.** In every run of calls and epoch changes, every checkpoint follows
the one before it and has the gas of its epoch's transactions so far. Every call cuts its effects
into chunks within the limits, one checkpoint for each, and of these exactly the last one ends the
epoch, if the call is the last of the epoch. -/
theorem chain_accounting (config : BuilderConfig) (enc : Encoding) :
    (∀ s, (machine config enc).Reach Machine.free s →
      Chained config enc s.base s.built ∧ GasAddsUp s.built) ∧
    ∀ store call built, createCheckpoints config enc store call = .ok built →
      ∃ groups, CallBuilds config enc call built groups := by
  refine ⟨fun s hs => ?_, fun store call built => createCheckpoints_builds⟩
  have hinv : Inv config enc s := by
    refine hs.invariant (fun s => inv_init) fun s a s' hi _ hst => ?_
    cases a with
    | create call =>
      obtain ⟨built, hb, hst⟩ := bind_ok.1 hst
      cases hst
      exact inv_create hi hb
    | reconfigure =>
      obtain ⟨store, hsr, hst⟩ := bind_ok.1 hst
      cases hst
      exact inv_reconfigure hi hsr
  exact ⟨hinv.chained, hinv.gas⟩

/-! ## A run, and the limit zero -/

def sampleEncoding : Encoding :=
  ⟨fun c => c.sequenceNumber + 1, fun c => c.transactions.length, fun _ => 1,
    fun signatures => signatures.length⟩

def sampleEffects (digest : TransactionDigest) : TransactionEffects :=
  ⟨digest, digest, 0, ⟨7, 2, 1, 0⟩, [], []⟩

def sampleCall (digests : List TransactionDigest) (timestampMs : ℕ) (lastOfEpoch : Bool) :
    CreateCall :=
  { allEffects := digests.map sampleEffects
    details := ⟨timestampMs, lastOfEpoch, 1⟩
    cache := fun digest => some (⟨digest, .programmableTransaction, [], some [], [], []⟩, 10)
    userSignatures := digests.foldl (fun m d => m.insert d [d]) .empty
    advanceEpoch := fun _ _ sequenceNumber _ =>
      .ok ⟨⟨900 + sequenceNumber, 0, 0, 0, [], []⟩, rfl, [(1, 1)], 3, 5⟩ }

/-- Two epochs: three transactions in two checkpoints, the end of the epoch, and a checkpoint of
the next epoch whose timestamp would go back. -/
theorem chain_accounting_sample :
    ∃ s, (machine ⟨2, 100, true, some 1, true⟩ sampleEncoding).Reach Machine.free s ∧
      (s.built.map fun c => (c.summary.epoch, c.summary.sequenceNumber, c.effects.length,
        c.summary.timestampMs)) = [(0, 0, 2, 50), (0, 1, 1, 50), (0, 2, 2, 60), (1, 3, 1, 60)] ∧
      Chained ⟨2, 100, true, some 1, true⟩ sampleEncoding s.base s.built := by
  refine Machine.exists_reach_and
    [.create (sampleCall [1, 2, 3] 50 false), .create (sampleCall [4] 60 true), .reconfigure,
      .create (sampleCall [5] 55 false)] _
    (Machine.init_ok (t := ⟨⟨0, .empty, none⟩, none, []⟩) ⟨.empty none, rfl⟩) (by decide +kernel)
    fun s hs _ => ?_
  exact ((chain_accounting _ _).1 s hs).1

/-- **Under the count limit zero** two small transactions share a chunk. -/
theorem countLimit_zero :
    ∃ built, createCheckpoints ⟨0, 100, true, some 1, true⟩ sampleEncoding ⟨0, .empty, none⟩
        (sampleCall [1, 2] 50 false) = .ok built ∧ built.map (·.effects.length) = [2] := by
  decide +kernel

end BuilderRun

end OneChain.Checkpoints
