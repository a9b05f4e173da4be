import OneChain.Authority.Quarantine
import OneChain.Checkpoints.CompleteContents

/-!
# The quarantine is transparent

A run pushes outputs, records built checkpoints, raises the watermark and commits, in any order.
What is read through the quarantine is compared with `direct`, the database with every pushed output
written to it at once.

* `Mirrors` — the outputs of the queue are in the maps, those before them in the database.
* `Standing` — the built checkpoints that wait: each digest belongs to one of them, and heights
  follow the sequence numbers. A duplicated digest breaks this, and the commit loop then panics.
* `QuarantineRun.transparent` — reads agree with `direct`, outputs leave in the order of their push,
  and no assertion fails.
* `QuarantineRun.duplicate_panics` — contents that the builder makes, with a settlement transaction
  twice, and the panic.
-/

namespace OneChain.Authority

open Lib List OrdMap Machine

namespace ConsensusCommitOutput

variable (output : ConsensusCommitOutput)

def controlDebtWrites : List (ObjectID × CongestionPerObjectDebt) :=
  output.debtWrites output.congestionControlObjectDebts

def randomnessDebtWrites : List (ObjectID × CongestionPerObjectDebt) :=
  output.debtWrites output.congestionControlRandomnessObjectDebts

theorem map_fst_debtWrites (debts : List (ObjectID × ℕ)) :
    (output.debtWrites debts).map Prod.fst = debts.map Prod.fst := by
  rw [debtWrites, map_map]
  rfl

/-- The commit handler sets the statistics before it pushes, and records JWKs for their round. -/
def Ready : Prop :=
  ∃ round, output.consensusCommitStats = some round ∧ ∀ r ∈ output.activeJwks, r = round

instance (output : ConsensusCommitOutput) : Decidable output.Ready :=
  match h : output.consensusCommitStats with
  | none => isFalse fun ⟨_, hr, _⟩ => by rw [h] at hr; cases hr
  | some round => decidable_of_iff (∀ r ∈ output.activeJwks, r = round)
      ⟨fun hr => ⟨round, h, hr⟩, fun ⟨r', heq, hr⟩ => by
        rw [h] at heq
        cases heq
        exact hr⟩

theorem writeToBatch_ok {output : ConsensusCommitOutput} (h : output.Ready) (tables : EpochTables) :
    output.writeToBatch tables = .ok (write tables output) := by
  obtain ⟨round, hr, hj⟩ := h
  rw [writeToBatch, hr]
  simp only [require, ok_bind, check_of hj, pure_ok]

end ConsensusCommitOutput

namespace ConsensusOutputQuarantine

open ConsensusCommitOutput

/-! ## Outputs -/

/-- The queue is in the maps, and what was written is in the tables. -/
structure Mirrors (start : EpochTables) (queue : List ConsensusCommitOutput)
    (q : ConsensusOutputQuarantine) (tables : EpochTables) : Prop where
  messages : Buffered messageWrites start.consensusMessageProcessed tables.written queue
    q.processedConsensusMessages tables.consensusMessageProcessed
  nextVersions : Buffered nextVersionWrites start.nextSharedObjectVersions tables.written queue
    q.sharedObjectNextVersions tables.nextSharedObjectVersions
  debts : Buffered controlDebtWrites start.congestionControlObjectDebts tables.written queue
    q.congestionControlObjectDebts tables.congestionControlObjectDebts
  randomnessDebts : Buffered randomnessDebtWrites start.congestionControlRandomnessObjectDebts
    tables.written queue q.congestionControlRandomnessObjectDebts
    tables.congestionControlRandomnessObjectDebts
  ready : ∀ output ∈ queue, output.Ready

variable {start tables : EpochTables} {queue : List ConsensusCommitOutput}
  {q : ConsensusOutputQuarantine} {output : ConsensusCommitOutput}

theorem Mirrors.push (h : Mirrors start queue q tables) (hr : output.Ready) :
    Mirrors start (queue ++ [output]) (q.insertOutput output) tables := by
  refine ⟨h.messages.push output, h.nextVersions.push output, h.debts.push output,
    h.randomnessDebts.push output, ?_⟩
  rw [forall_mem_append, forall_mem_singleton]
  exact ⟨h.ready, hr⟩

theorem removeNextVersions_ok {m : RefMap ConsensusObjectSequenceKey ℕ}
    {ws ws' : List (ConsensusObjectSequenceKey × ℕ)} (h : m.Represents (ws ++ ws')) :
    removeNextVersions m (ws.map Prod.fst) = .ok (m.removeAll (ws.map Prod.fst)) := by
  unfold removeNextVersions
  induction ws generalizing m with
  | nil => rfl
  | cons w ws ih =>
    obtain ⟨hr, hf⟩ := RefMap.Represents.remove h
    rw [map_cons, foldlM_cons, check_of hf, ok_bind, pure_ok, ok_bind, ih hr]
    rfl

theorem Mirrors.removeOutput_ok (h : Mirrors start (output :: queue) q tables) :
    q.removeOutput output = .ok (q.withoutOutput output
      (q.sharedObjectNextVersions.removeAll (output.nextVersionWrites.map Prod.fst))) := by
  have hn := h.nextVersions.map
  rw [removeOutput, removeNextVersions_ok hn]
  rfl

/-- The output at the front of the queue leaves it, and is written. -/
theorem Mirrors.flush (h : Mirrors start (output :: queue) q tables) :
    Mirrors start queue (q.withoutOutput output
      (q.sharedObjectNextVersions.removeAll (output.nextVersionWrites.map Prod.fst)))
      (write tables output) := by
  have hd := h.debts.flush
  have hr := h.randomnessDebts.flush
  rw [controlDebtWrites, map_fst_debtWrites] at hd
  rw [randomnessDebtWrites, map_fst_debtWrites] at hr
  exact ⟨h.messages.flush, h.nextVersions.flush, hd, hr,
    fun o ho => h.ready o (mem_cons_of_mem _ ho)⟩

/-- **The loop over the outputs.** It writes a front part of the queue, and keeps the rest. -/
theorem commitOutputs_ok (height : ℕ) (h : Mirrors start queue q tables) :
    ∃ q' tables', commitOutputs height queue (q, tables) = .ok (q', tables') ∧
      Mirrors start q'.outputQueue q' tables' ∧
      tables'.written ++ q'.outputQueue = tables.written ++ queue ∧
      q'.builderCheckpointSummary = q.builderCheckpointSummary ∧
      q'.builderDigestToCheckpoint = q.builderDigestToCheckpoint := by
  induction queue generalizing q tables with
  | nil => exact ⟨_, _, rfl, { h with }, rfl, rfl, rfl⟩
  | cons output queue ih =>
    have hs : Mirrors start (output :: queue)
        { q with outputQueue := output :: queue } tables := { h with }
    rw [commitOutputs]
    split
    next => exact ⟨_, _, rfl, hs, rfl, rfl, rfl⟩
    next highestInCommit _ =>
      by_cases hle : highestInCommit ≤ height
      · obtain ⟨q', tables', hrun, h', hq, hsu, hdig⟩ := ih h.flush
        have hw := writeToBatch_ok (h.ready output mem_cons_self) tables
        refine ⟨q', tables', ?_, h', ?_, hsu, hdig⟩
        · simp only [if_pos hle, h.removeOutput_ok, hw, ok_bind, hrun]
        · rw [hq]
          exact append_assoc _ _ _
      · refine ⟨{ q with outputQueue := output :: queue }, tables, ?_, hs, rfl, rfl, rfl⟩
        rw [if_neg hle]
        rfl

/-! ## Built checkpoints -/

/-- A built checkpoint whose digests all point to it. -/
structure Owns (digests : OrdMap TransactionDigest ℕ) (entry : ℕ × BuilderCheckpoint) : Prop where
  nodup : entry.2.contents.Nodup
  owned : ∀ d ∈ entry.2.contents, digests.get? d = some entry.1
  height : entry.2.checkpointHeight.isSome

/-- The built checkpoints in the order of their sequence numbers. -/
structure Standing (digests : OrdMap TransactionDigest ℕ) (entries : List (ℕ × BuilderCheckpoint)) :
    Prop where
  owns : ∀ e ∈ entries, Owns digests e
  sorted : entries.Pairwise fun a b => a.1 < b.1
  heights : entries.Pairwise fun a b =>
    ∀ h ∈ a.2.checkpointHeight, ∀ h' ∈ b.2.checkpointHeight, h ≤ h'

variable {sequence : ℕ} {digests : OrdMap TransactionDigest ℕ} {checkpoint : BuilderCheckpoint}
  {d : TransactionDigest}

theorem commitDigests_ok {contents : List TransactionDigest} (hn : contents.Nodup)
    (ho : ∀ d ∈ contents, digests.get? d = some sequence) :
    ∃ digests', contents.foldlM (commitDigest sequence) digests = .ok digests' ∧
      ∀ d other, other ≠ sequence → digests.get? d = some other → digests'.get? d = some other := by
  induction contents generalizing digests with
  | nil => exact ⟨digests, rfl, fun _ _ _ h => h⟩
  | cons d contents ih =>
    obtain ⟨hd, hn⟩ := nodup_cons.1 hn
    rw [forall_mem_cons] at ho
    have hr : ∀ d' ∈ contents, (digests.erase d).get? d' = some sequence := fun d' hd' => by
      have hne : d' ≠ d := fun heq => hd (heq ▸ hd')
      rw [get?_erase, if_neg hne]
      exact ho.2 d' hd'
    obtain ⟨digests', hrun, hk⟩ := ih hn hr
    refine ⟨digests', ?_, fun d' other hoh hget => hk d' other hoh ?_⟩
    · rw [foldlM_cons, commitDigest, ho.1]
      simp only [require, ok_bind, check_of, pure_ok, hrun]
    · rw [get?_erase, if_neg ?_]
      · exact hget
      · rintro rfl
        rw [ho.1] at hget
        exact hoh (Option.some.inj hget).symm

/-- The rounds of the loop so far leave a height that the next checkpoints reach. -/
def HeightBelow (highest : Option ℕ) (entries : List (ℕ × BuilderCheckpoint)) : Prop :=
  ∀ h ∈ highest, ∀ e ∈ entries, ∀ h' ∈ e.2.checkpointHeight, h ≤ h'

theorem Standing.commitCheckpoint {entry : ℕ × BuilderCheckpoint}
    {entries : List (ℕ × BuilderCheckpoint)} {state : BuilderCommit}
    (h : Standing state.digests (entry :: entries))
    (hbelow : HeightBelow state.highestCommittedHeight (entry :: entries)) :
    ∃ state', ConsensusOutputQuarantine.commitCheckpoint state entry = .ok state' ∧
      Standing state'.digests entries ∧
      HeightBelow state'.highestCommittedHeight entries ∧
      state'.tables = { state.tables with
        builderDigestToCheckpoint := state'.tables.builderDigestToCheckpoint
        builderCheckpointHeight := state'.tables.builderCheckpointHeight } := by
  obtain ⟨howner, howns⟩ := forall_mem_cons.1 h.owns
  obtain ⟨hlt, hsorted⟩ := pairwise_cons.1 h.sorted
  obtain ⟨hle, hheights⟩ := pairwise_cons.1 h.heights
  obtain ⟨digests', hrun, hkeep⟩ := commitDigests_ok howner.nodup howner.owned
  obtain ⟨height, hheight⟩ := Option.isSome_iff_exists.1 howner.height
  have hcheck : ∀ highest ∈ state.highestCommittedHeight.toList, highest ≤ height :=
    fun highest hmem => hbelow highest (Option.mem_toList.1 hmem) entry mem_cons_self height hheight
  rw [ConsensusOutputQuarantine.commitCheckpoint, hrun]
  simp only [hheight, require, ok_bind, check_of hcheck, pure_ok]
  refine ⟨_, rfl, ?_, ?_, rfl⟩
  · refine ⟨fun e he => ⟨(howns e he).nodup, fun d hd => ?_, (howns e he).height⟩, hsorted,
      hheights⟩
    exact hkeep d e.1 (hlt e he).ne' ((howns e he).owned d hd)
  · rintro _ ⟨⟩ e he h' hh'
    exact hle e he height hheight h' hh'

/-- **The loop over the built checkpoints.** -/
theorem Standing.commitAll {below above : List (ℕ × BuilderCheckpoint)} {s : BuilderCommit}
    (h : Standing s.digests (below ++ above))
    (hb : HeightBelow s.highestCommittedHeight (below ++ above)) :
    ∃ state', below.foldlM ConsensusOutputQuarantine.commitCheckpoint s = .ok state' ∧
      Standing state'.digests above ∧
      state'.tables = { s.tables with
        builderDigestToCheckpoint := state'.tables.builderDigestToCheckpoint
        builderCheckpointHeight := state'.tables.builderCheckpointHeight } := by
  induction below generalizing s with
  | nil => exact ⟨s, rfl, h, rfl⟩
  | cons entry below ih =>
    obtain ⟨s₁, hs, h₁, hb₁, ht₁⟩ := h.commitCheckpoint hb
    obtain ⟨s', hrun, h', ht'⟩ := ih h₁ hb₁
    refine ⟨s', ?_, h', ?_⟩
    · rw [foldlM_cons, hs, ok_bind, hrun]
    · rw [ht', ht₁]

/-! ## Committing -/

/-- What holds of the quarantine and the database between two calls. -/
structure Sound (start : EpochTables) (pushed : List ConsensusCommitOutput)
    (q : ConsensusOutputQuarantine) (tables : EpochTables) : Prop where
  mirrors : Mirrors start q.outputQueue q tables
  inOrder : tables.written ++ q.outputQueue = pushed
  standing : Standing q.builderDigestToCheckpoint q.builderCheckpointSummary.entries

variable {pushed : List ConsensusCommitOutput}

theorem Mirrors.of_tables {tables' : EpochTables} (h : Mirrors start queue q tables)
    {heights : OrdMap ℕ (Option ℕ)} (ht : tables' = { tables with
      builderDigestToCheckpoint := digests
      builderCheckpointHeight := heights }) : Mirrors start queue q tables' := by
  subst ht
  exact { h with }

/-- **A commit passes all its assertions.** -/
theorem Sound.commitWithBatch (h : Sound start pushed q tables) :
    ∃ q' tables', q.commitWithBatch tables = .ok (q', tables') ∧ Sound start pushed q' tables' := by
  have hsp := takeWhile_append_dropWhile
    (p := fun e : ℕ × BuilderCheckpoint => decide (e.1 ≤ q.highestExecutedCheckpoint))
    (l := q.builderCheckpointSummary.entries)
  have hs := h.standing
  rw [← hsp] at hs
  obtain ⟨state, hl, ha, ht⟩ := Standing.commitAll
    (s := ⟨q.builderDigestToCheckpoint, tables, none⟩) hs fun _ hn => by cases hn
  have hw : state.tables.written = tables.written := by rw [ht]
  have hmi : Mirrors start q.outputQueue { q with
      builderDigestToCheckpoint := state.digests
      builderCheckpointSummary := q.builderCheckpointSummary.popWhile
        (fun sequence => sequence ≤ q.highestExecutedCheckpoint) } state.tables := by
    exact { h.mirrors.of_tables ht with }
  simp only [ConsensusOutputQuarantine.commitWithBatch, hl, ok_bind]
  split
  next =>
    exact ⟨_, _, rfl, hmi, by rw [hw]; exact h.inOrder, ha⟩
  next height _ =>
    obtain ⟨q', tables', hrun, hm, hq, hsu, hdig⟩ := commitOutputs_ok height hmi
    refine ⟨q', tables', hrun, hm, ?_, ?_⟩
    · rw [hq, hw, h.inOrder]
    · rw [hsu, hdig]
      exact ha

theorem Sound.push (h : Sound start pushed q tables) (hr : output.Ready) :
    Sound start (pushed ++ [output])
      { q.insertOutput output with outputQueue := q.outputQueue ++ [output] } tables := by
  refine ⟨{ h.mirrors.push hr with }, ?_, h.standing⟩
  rw [← h.inOrder]
  exact (append_assoc _ _ _).symm

/-! ## Recording a built checkpoint -/

theorem get?_insertBuilderSummary_of_mem (hd : d ∈ checkpoint.contents) :
    (q.insertBuilderSummary sequence checkpoint).builderDigestToCheckpoint.get? d = some sequence :=
  (get?_foldl_insert (fun _ _ _ _ _ => rfl) _).2 (.inl ⟨d, hd, rfl, rfl⟩)

theorem get?_insertBuilderSummary_of_notMem {other : ℕ} (hd : d ∉ checkpoint.contents)
    (hget : q.builderDigestToCheckpoint.get? d = some other) :
    (q.insertBuilderSummary sequence checkpoint).builderDigestToCheckpoint.get? d = some other :=
  (get?_foldl_insert (fun _ _ _ _ _ => rfl) _).2 (.inr ⟨fun _ hmem heq => hd (heq ▸ hmem), hget⟩)

variable (q sequence checkpoint) in
/-- The builder numbers its checkpoints upwards, and their heights do not decrease. -/
def Follows : Prop :=
  checkpoint.checkpointHeight.isSome ∧ ∀ e ∈ q.builderCheckpointSummary.entries, e.1 < sequence ∧
      ∀ h ∈ e.2.checkpointHeight, ∀ h' ∈ checkpoint.checkpointHeight, h ≤ h'
  deriving Decidable

variable (q checkpoint) in
/-- The contents name no transaction twice, nor one of a checkpoint that still waits. -/
def Fresh : Prop :=
  checkpoint.contents.Nodup ∧ ∀ d ∈ checkpoint.contents, d ∉ q.builderDigestToCheckpoint
  deriving Decidable

theorem Sound.insertBuilderSummary (h : Sound start pushed q tables)
    (hf : q.Follows sequence checkpoint) (hfr : q.Fresh checkpoint) :
    Sound start pushed (q.insertBuilderSummary sequence checkpoint) tables := by
  refine ⟨{ h.mirrors with }, h.inOrder, ?_⟩
  have hen : (q.insertBuilderSummary sequence checkpoint).builderCheckpointSummary.entries =
      q.builderCheckpointSummary.entries ++ [(sequence, checkpoint)] :=
    entries_insert_of_lt fun e he => (hf.2 e he).1
  rw [hen]
  refine ⟨?_, ?_, ?_⟩
  · rw [forall_mem_append, forall_mem_singleton]
    refine ⟨fun e he => ?_, hfr.1, fun d hd => get?_insertBuilderSummary_of_mem hd, hf.1⟩
    have ho := h.standing.owns e he
    refine ⟨ho.nodup, fun d hd => ?_, ho.height⟩
    -- a digest of a waiting checkpoint is in the map, so it is not one of the new ones
    exact get?_insertBuilderSummary_of_notMem
      (fun hnew => hfr.2 d hnew (mem_iff.2 ⟨e.1, ho.owned d hd⟩)) (ho.owned d hd)
  · rw [pairwise_append]
    refine ⟨h.standing.sorted, pairwise_singleton _ _, fun e he e' he' => ?_⟩
    cases mem_singleton.1 he'
    exact (hf.2 e he).1
  · rw [pairwise_append]
    refine ⟨h.standing.heights, pairwise_singleton _ _, fun e he e' he' => ?_⟩
    cases mem_singleton.1 he'
    exact (hf.2 e he).2

end ConsensusOutputQuarantine

/-! ## Runs -/

inductive QuarantineAction
  | pushConsensusOutput (output : ConsensusCommitOutput)
  | insertBuilderSummary (sequence : ℕ) (checkpoint : BuilderCheckpoint)
  | updateHighestExecutedCheckpoint (checkpoint : ℕ)
  | commit

/-- The quarantine and the database, with what they were before and what was pushed since. -/
structure QuarantineRun where
  start : EpochTables
  pushed : List ConsensusCommitOutput
  quarantine : ConsensusOutputQuarantine
  tables : EpochTables

namespace QuarantineRun

open ConsensusOutputQuarantine ConsensusCommitOutput

variable (s : QuarantineRun)

def step : QuarantineAction → Except QuarantinePanic QuarantineRun
  | .pushConsensusOutput output => do
    let (q, tables) ← s.quarantine.pushConsensusOutput s.tables output
    pure { s with pushed := s.pushed ++ [output], quarantine := q, tables := tables }
  | .insertBuilderSummary sequence checkpoint =>
    pure { s with quarantine := s.quarantine.insertBuilderSummary sequence checkpoint }
  | .updateHighestExecutedCheckpoint checkpoint => do
    let (q, tables) ← s.quarantine.updateHighestExecutedCheckpoint s.tables checkpoint
    pure { s with quarantine := q, tables := tables }
  | .commit => do
    let (q, tables) ← s.quarantine.commitWithBatch s.tables
    pure { s with quarantine := q, tables := tables }

/-- A run starts with a new quarantine in front of any database. -/
def machine : Machine QuarantineRun QuarantineAction QuarantinePanic where
  init s := (∃ checkpoint, s.quarantine = .new checkpoint) ∧ s.tables = s.start ∧ s.pushed = [] ∧
    s.start.written = []
  step := step

/-- What the callers see to: the handler of a commit, and the numbering of the builder. -/
def Promised : QuarantineAction → Prop
  | .pushConsensusOutput output => output.Ready
  | .insertBuilderSummary sequence checkpoint => s.quarantine.Follows sequence checkpoint
  | .updateHighestExecutedCheckpoint _ | .commit => True

/-- The condition on the contents of built checkpoints. -/
def FreshContents : QuarantineAction → Prop
  | .insertBuilderSummary _ checkpoint => s.quarantine.Fresh checkpoint
  | _ => True

instance (s : QuarantineRun) (a : QuarantineAction) : Decidable (s.Promised a) :=
  match a with
  | .pushConsensusOutput output => inferInstanceAs (Decidable output.Ready)
  | .insertBuilderSummary sequence checkpoint =>
    inferInstanceAs (Decidable (s.quarantine.Follows sequence checkpoint))
  | .updateHighestExecutedCheckpoint _ | .commit => isTrue trivial

instance (s : QuarantineRun) (a : QuarantineAction) : Decidable (s.FreshContents a) :=
  match a with
  | .insertBuilderSummary _ checkpoint =>
    inferInstanceAs (Decidable (s.quarantine.Fresh checkpoint))
  | .pushConsensusOutput _ | .updateHighestExecutedCheckpoint _ | .commit => isTrue trivial

/-- The database with every pushed output written to it at once. -/
def direct : EpochTables := s.pushed.foldl write s.start

/-- What is written at once is what the outputs write, one after the other. -/
theorem foldl_write (start : EpochTables) (outputs : List ConsensusCommitOutput) :
    (outputs.foldl write start).consensusMessageProcessed =
        writeAll start.consensusMessageProcessed (outputs.flatMap messageWrites) ∧
      (outputs.foldl write start).nextSharedObjectVersions =
        writeAll start.nextSharedObjectVersions (outputs.flatMap nextVersionWrites) ∧
      (outputs.foldl write start).congestionControlObjectDebts =
        writeAll start.congestionControlObjectDebts (outputs.flatMap controlDebtWrites) ∧
      (outputs.foldl write start).congestionControlRandomnessObjectDebts =
        writeAll start.congestionControlRandomnessObjectDebts
          (outputs.flatMap randomnessDebtWrites) := by
  induction outputs generalizing start with
  | nil => exact ⟨rfl, rfl, rfl, rfl⟩
  | cons output outputs ih =>
    obtain ⟨hm, hv, hd, hr⟩ := ih (write start output)
    simp only [flatMap_cons, writeAll_append]
    exact ⟨hm, hv, hd, hr⟩

/-- Each table of `direct` has the value of the last pushed output that wrote the key, and where
none did what it had at the start. -/
structure Latest : Prop where
  messages : ∀ k, s.direct.consensusMessageProcessed.get? k =
    (lastWrite (s.pushed.flatMap messageWrites) k).or (s.start.consensusMessageProcessed.get? k)
  nextVersions : ∀ k, s.direct.nextSharedObjectVersions.get? k =
    (lastWrite (s.pushed.flatMap nextVersionWrites) k).or (s.start.nextSharedObjectVersions.get? k)
  debts : ∀ k, s.direct.congestionControlObjectDebts.get? k =
    (lastWrite (s.pushed.flatMap controlDebtWrites) k).or
      (s.start.congestionControlObjectDebts.get? k)
  randomnessDebts : ∀ k, s.direct.congestionControlRandomnessObjectDebts.get? k =
    (lastWrite (s.pushed.flatMap randomnessDebtWrites) k).or
      (s.start.congestionControlRandomnessObjectDebts.get? k)

theorem latest : s.Latest := by
  obtain ⟨hm, hv, hd, hr⟩ := foldl_write s.start s.pushed
  refine ⟨fun k => ?_, fun k => ?_, fun k => ?_, fun k => ?_⟩
  · rw [direct, hm, get?_writeAll]
  · rw [direct, hv, get?_writeAll]
  · rw [direct, hd, get?_writeAll]
  · rw [direct, hr, get?_writeAll]

/-- Reads through the quarantine are reads of `direct`. -/
structure ReadsDirect : Prop where
  nextVersions : ∀ objects, s.quarantine.getNextSharedObjectVersions s.tables objects =
    objects.map s.direct.nextSharedObjectVersions.get?
  messages : ∀ key, s.quarantine.isConsensusMessageProcessed s.tables key =
    decide (key ∈ s.direct.consensusMessageProcessed)
  debts : ∀ round budget forRandomness objects,
    s.quarantine.loadInitialObjectDebts s.tables round budget forRandomness objects =
      (new 0).loadInitialObjectDebts s.direct round budget forRandomness objects

/-- The invariant of a run. -/
def Inv : Prop := Sound s.start s.pushed s.quarantine s.tables

variable {s}

theorem Inv.readsDirect (h : s.Inv) : s.ReadsDirect := by
  obtain ⟨hm, hv, hd, hr⟩ := foldl_write s.start s.pushed
  have hmi := h.mirrors
  refine ⟨fun objects => ?_, fun key => ?_, fun round budget forRandomness objects => ?_⟩
  · refine map_congr_left fun k _ => ?_
    rw [direct, hv, hmi.nextVersions.read, h.inOrder]
  · rw [isConsensusMessageProcessed, hmi.messages.containsKey, h.inOrder, direct, hm]
  · -- both sides do the same with what they look up
    have hlo : ∀ id, (s.quarantine.congestionControlObjectDebts.get id).or
        (s.tables.congestionControlObjectDebts.get? id) =
          s.direct.congestionControlObjectDebts.get? id := fun id => by
      rw [direct, hd, hmi.debts.read, h.inOrder]
    have hl : ∀ id, (s.quarantine.congestionControlRandomnessObjectDebts.get id).or
        (s.tables.congestionControlRandomnessObjectDebts.get? id) =
          s.direct.congestionControlRandomnessObjectDebts.get? id := fun id => by
      rw [direct, hr, hmi.randomnessDebts.read, h.inOrder]
    cases forRandomness with
    | false =>
      simp only [loadInitialObjectDebts, Bool.false_eq_true, if_false, hlo]
      rfl
    | true =>
      simp only [loadInitialObjectDebts, if_true, hl]
      rfl

theorem init_inv (h : machine.init s) : s.Inv := by
  obtain ⟨⟨checkpoint, hq⟩, ht, hp, hw⟩ := h
  rw [Inv, hq, ht, hp]
  refine ⟨?_, by rw [hw]; rfl, ⟨by simp [new, OrdMap.empty], .nil, .nil⟩⟩
  refine ⟨?_, ?_, ?_, ?_, by simp [new]⟩
  all_goals
    rw [hw]
    exact Buffered.empty _ _

/-- **A called step passes the assertions and keeps the invariant.** -/
theorem Inv.step (h : s.Inv) {a : QuarantineAction} (hp : s.Promised a)
    (hf : s.FreshContents a) : ∃ s', s.step a = .ok s' ∧ s'.Inv := by
  cases a with
  | pushConsensusOutput output =>
    obtain ⟨q', tables', hrun, h'⟩ := (Sound.push h hp).commitWithBatch
    refine ⟨{ s with pushed := s.pushed ++ [output], quarantine := q', tables := tables' }, ?_, h'⟩
    exact bind_ok.2 ⟨_, hrun, rfl⟩
  | insertBuilderSummary sequence checkpoint =>
    exact ⟨_, rfl, Sound.insertBuilderSummary h hp hf⟩
  | updateHighestExecutedCheckpoint checkpoint =>
    have hset : Sound s.start s.pushed
        { s.quarantine with highestExecutedCheckpoint := checkpoint } s.tables :=
      ⟨⟨h.mirrors.1, h.mirrors.2, h.mirrors.3, h.mirrors.4, h.mirrors.5⟩, h.inOrder, h.standing⟩
    obtain ⟨q', tables', hrun, h'⟩ := hset.commitWithBatch
    exact ⟨{ s with quarantine := q', tables := tables' }, bind_ok.2 ⟨_, hrun, rfl⟩, h'⟩
  | commit =>
    obtain ⟨q', tables', hrun, h'⟩ := Sound.commitWithBatch h
    exact ⟨{ s with quarantine := q', tables := tables' }, bind_ok.2 ⟨_, hrun, rfl⟩, h'⟩

/-- What the runs with duplicate-free contents keep. -/
structure Transparent (s : QuarantineRun) : Prop where
  reads : s.ReadsDirect
  latest : s.Latest
  inOrder : s.tables.written ++ s.quarantine.outputQueue = s.pushed
  noPanic : ∀ a, s.Promised a → s.FreshContents a → ∃ s', s.step a = .ok s'

/-- **Quarantine transparency.** -/
theorem transparent {s : QuarantineRun}
    (h : machine.Reach (fun s a => s.Promised a ∧ s.FreshContents a) s) : s.Transparent := by
  have hinv : s.Inv := h.invariant (fun s hs => init_inv hs) fun s a s' hi hC hst => by
    obtain ⟨t, ht, hinv⟩ := Inv.step hi hC.1 hC.2
    cases Except.ok.inj (ht.symm.trans hst)
    exact hinv
  refine ⟨hinv.readsDirect, s.latest, hinv.inOrder, fun a hp hf => ?_⟩
  obtain ⟨s', hs', _⟩ := hinv.step hp hf
  exact ⟨s', hs'⟩

/-! ## Two runs -/

/-- An output of the given commit round, for one pending checkpoint, that writes the version of an
object. -/
def sampleOutput (round height version : ℕ) : ConsensusCommitOutput :=
  ⟨round, OrdMap.empty.insert round (), some round, some (OrdMap.empty.insert ⟨7, 1⟩ version),
    [height], [round], [(7, version)], []⟩

def sampleStart : QuarantineRun :=
  let tables : EpochTables := ⟨.empty, .empty, .empty, .empty, .empty, .empty, []⟩
  ⟨tables, [], .new 0, tables⟩

theorem sampleStart_init : machine.init sampleStart := ⟨⟨0, rfl⟩, rfl, rfl, rfl⟩

/-- Two outputs write the same version; the first one is flushed, and the second is still read. -/
theorem transparent_sample : ∃ s,
    machine.Reach (fun s a => s.Promised a ∧ s.FreshContents a) s ∧ s.tables.written.length = 1 ∧
      s.quarantine.getNextSharedObjectVersions s.tables [⟨7, 1⟩] = [some 6] ∧ s.Transparent := by
  refine exists_assoc (exists_reach_and
    [.pushConsensusOutput (sampleOutput 1 1 5), .pushConsensusOutput (sampleOutput 2 2 6),
      .insertBuilderSummary 1 ⟨some 1, [1, 10]⟩, .insertBuilderSummary 2 ⟨some 2, [2, 11]⟩,
      .updateHighestExecutedCheckpoint 1]
    _ (init_ok sampleStart_init) (by decide +kernel) fun s hs _ => ?_)
  exact transparent hs

/-- **The commit loop panics.** The contents are those that the builder resolves for a group in
which a transaction depends on a settlement of the same group. -/
theorem duplicate_panics : ∃ contents s,
    (Checkpoints.resolveCheckpointTransactions Checkpoints.Sample.view .empty
      [Checkpoints.Sample.first, Checkpoints.Sample.second]).toOption.map Checkpoints.digestsOf =
        some contents ∧
    machine.Reach Promised s ∧
    s.quarantine.builderCheckpointSummary.get? 1 = some ⟨some 2, contents⟩ ∧
    s.step (.updateHighestExecutedCheckpoint 1) = .error (.notInBuilderDigestToCheckpoint 10) := by
  obtain ⟨s, hs⟩ := exists_reach (C := Promised)
    [.pushConsensusOutput (sampleOutput 1 1 5), .pushConsensusOutput (sampleOutput 2 2 6),
      .insertBuilderSummary 1 ⟨some 2, [1, 10, 10, 2, 11]⟩]
    (fun s => s.quarantine.builderCheckpointSummary.get? 1 = some ⟨some 2, [1, 10, 10, 2, 11]⟩ ∧
      s.step (.updateHighestExecutedCheckpoint 1) = .error (.notInBuilderDigestToCheckpoint 10))
    (init_ok sampleStart_init) (by decide +kernel)
  exact ⟨[1, 10, 10, 2, 11], s, by decide +kernel, hs⟩

end QuarantineRun

end OneChain.Authority
