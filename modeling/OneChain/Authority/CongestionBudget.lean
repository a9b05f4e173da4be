import OneChain.Authority.CongestionTracker
import OneChain.Authority.QuarantineTransparency

/-!
# The congestion budget holds on average

Commits one after the other: each loads the debts of its objects, schedules or defers its certified
transactions, and records the debts that are left. Debts wait in the quarantine and reach the
database at any time. An entry of an object is only replaced when a commit leaves a debt on it, so
entries may be old; an old entry is worked off by the time it is read again.

* `Spent` — one commit: the costs of what was scheduled on an object went into the object's cost.
* `Ledger` — what an object has cost is covered by the budgets of the rounds and the debt that is
  left of it.
* `budget_on_average` — over any run, what was scheduled on an object is at most the budget of the
  rounds that the run spans, the burst and one transaction.
-/

namespace OneChain.Authority

open Lib List OrdMap ConsensusCommitOutput CongestionParams CongestionPerObjectDebt

/-! ## Commits -/

/-- A transaction of a commit; `dropped` if it is not scheduled for another reason than
congestion. -/
structure CommitEntry where
  tx : CongestionTransaction
  dropped : Bool

/-- A scheduled transaction, with its cost and its start. -/
structure ScheduledCost where
  tx : CongestionTransaction
  (cost startCost : ℕ)

namespace SharedObjectCongestionTracker

/-- Nothing is recorded of a transaction that has no cost or no shared input. -/
def scheduledCost (tracker : SharedObjectCongestionTracker) (txCost : Option ℕ)
    (tx : CongestionTransaction) : List ScheduledCost :=
  match txCost, tracker.computeTxStartAtCost tx.sharedInputObjects with
  | some cost, some startCost => [⟨tx, cost, startCost⟩]
  | _, _ => []

/-- What `process_consensus_user_transaction` does with the tracker. -/
def scheduleEntry (commitInfo : CongestionCommitInfo)
    (previouslyDeferred : OrdMap TransactionDigest DeferralKey)
    (state : SharedObjectCongestionTracker × List ScheduledCost) (entry : CommitEntry) :
    Except TrackerPanic (SharedObjectCongestionTracker × List ScheduledCost) := do
  let txCost ← state.1.getTxCost entry.tx
  let deferral ← state.1.shouldDeferDueToObjectCongestion txCost entry.tx previouslyDeferred
    commitInfo
  if deferral = none ∧ entry.dropped = false then
    let tracker ← state.1.bumpObjectExecutionCost txCost entry.tx
    pure (tracker, state.2 ++ state.1.scheduledCost txCost entry.tx)
  else pure state

end SharedObjectCongestionTracker

structure CongestionNode where
  q : ConsensusOutputQuarantine
  tables : EpochTables
  (firstRound lastRound : Option ℕ)
  /-- All that was scheduled, by tracker. -/
  scheduled : Bool → List ScheduledCost

inductive CongestionAction
  | commit (commitInfo : CongestionCommitInfo)
      (previouslyDeferred : OrdMap TransactionDigest DeferralKey)
      (entries : Bool → List CommitEntry)
  -- the oldest output leaves the quarantine
  | flush

namespace CongestionNode

open SharedObjectCongestionTracker

variable (config : CongestionConfig)

variable (s : CongestionNode)

/-- The part of a commit that one of the trackers has. -/
def runTracker (commitInfo : CongestionCommitInfo)
    (previouslyDeferred : OrdMap TransactionDigest DeferralKey) (entries : List CommitEntry)
    (forRandomness : Bool) :
    Except TrackerPanic (SharedObjectCongestionTracker × List ScheduledCost) := do
  let tracker ← commitTracker config s.q s.tables commitInfo forRandomness
    (entries.map CommitEntry.tx)
  entries.foldlM (scheduleEntry commitInfo previouslyDeferred) (tracker, [])

/-- What congestion control puts into the output of a commit. -/
def debtOutput (round : ℕ) (debts randomnessDebts : List (ObjectID × ℕ)) : ConsensusCommitOutput :=
  ⟨round, .empty, some round, none, [], [], debts, randomnessDebts⟩

def step : CongestionAction → Except TrackerPanic CongestionNode
  | .commit commitInfo previouslyDeferred entries => do
    let regular ← runTracker config s commitInfo previouslyDeferred (entries false) false
    let randomness ← runTracker config s commitInfo previouslyDeferred (entries true) true
    let output := debtOutput commitInfo.round (regular.1.accumulatedDebts commitInfo)
      (randomness.1.accumulatedDebts commitInfo)
    pure {
      q := { s.q.insertOutput output with outputQueue := s.q.outputQueue ++ [output] }
      tables := s.tables
      firstRound := s.firstRound.or (some commitInfo.round)
      lastRound := some commitInfo.round
      scheduled := fun forRandomness => s.scheduled forRandomness ++
        if forRandomness then randomness.2 else regular.2 }
  | .flush =>
    match s.q.outputQueue with
    | [] => pure s
    | output :: queue => do
      let q ← (s.q.removeOutput output).mapError .quarantine
      let tables ← (output.writeToBatch s.tables).mapError .quarantine
      pure { s with q := { q with outputQueue := queue }, tables := tables }

/-- An epoch starts without debts. -/
def machine : Machine CongestionNode CongestionAction TrackerPanic where
  init s := s.q = .new s.q.highestExecutedCheckpoint ∧ s.tables.written = [] ∧
    s.tables.congestionControlObjectDebts = .empty ∧
    s.tables.congestionControlRandomnessObjectDebts = .empty ∧
    s.firstRound = none ∧ s.lastRound = none ∧ s.scheduled = fun _ => []
  step := step config

/-- Rounds increase, and all transactions are certificates. -/
def Ordered : CongestionAction → Prop
  | .commit commitInfo _ entries =>
    (∀ last ∈ s.lastRound, last < commitInfo.round) ∧
      ∀ forRandomness, ∀ entry ∈ entries forRandomness, entry.tx.certified = true
  | .flush => True

instance (s : CongestionNode) (a : CongestionAction) : Decidable (s.Ordered a) :=
  match a with
  | .commit _ _ _ => inferInstanceAs (Decidable (_ ∧ ∀ _ : Bool, ∀ entry ∈ _, _ = _))
  | .flush => inferInstanceAs (Decidable True)

end CongestionNode

/-! ## One commit -/

/-- What the transactions that mutate an object have cost. -/
def spentOn (object : ObjectID) (scheduled : List ScheduledCost) : ℕ :=
  tally (fun e => if e.tx.mutates object then e.cost else 0) scheduled

namespace SharedObjectCongestionTracker

variable {commitInfo : CongestionCommitInfo}
  {previouslyDeferred : OrdMap TransactionDigest DeferralKey} {entries : List CommitEntry}
  {maxCost : ℕ} {start tracker : SharedObjectCongestionTracker} {scheduled : List ScheduledCost}

theorem burstLimit_le (params : CongestionParams) (commitInfo : CongestionCommitInfo) :
    params.burstLimit commitInfo ≤ u64Max :=
  min_le_right _ _

variable {entry : CommitEntry} {scheduled' : List ScheduledCost}
  {tracker' : SharedObjectCongestionTracker} {object : ObjectID}
  {state : SharedObjectCongestionTracker × List ScheduledCost}

/-- **What a transaction of a commit does**: nothing, or it is scheduled within the limits and
raises the costs of what it mutates to its end. The assertion on costs holds. -/
theorem scheduleEntry_ends : Ends (scheduleEntry commitInfo previouslyDeferred state entry)
    (fun state' => state' = state ∨
      ∃ cost startCost, state'.2 = state.2 ++ [⟨entry.tx, cost, startCost⟩] ∧
        state.1.computeTxStartAtCost entry.tx.sharedInputObjects = some startCost ∧
        startCost ≤ state.1.params.burstLimit commitInfo ∧
        saturatingAdd startCost cost ≤ state.1.params.absoluteLimit commitInfo ∧
        state'.1.params = state.1.params ∧
        ∀ object, state'.1.costOf object = if entry.tx.mutates object then
          saturatingAdd startCost cost else state.1.costOf object)
    (∀ object, · ≠ .costDecreased object) := by
  obtain ⟨tracker, scheduled⟩ := state
  have hco : Ends (tracker.getTxCost entry.tx) (fun _ => True)
      (∀ object, · ≠ .costDecreased object) := by
    unfold getTxCost getTxCostCap
    split <;> try trivial
    cases tracker.params.gasBudgetBasedTxnCostCapFactor with
    | none => exact nofun
    | some factor => trivial
  refine hco.bind fun txCost _ => ?_
  obtain ⟨deferral, hdef⟩ := tracker.shouldDefer_ok entry.tx txCost previouslyDeferred commitInfo
  rw [hdef, ok_bind]
  split
  swap
  · exact .inl rfl
  next hk =>
    rw [hk.1] at hdef
    by_cases hinp : entry.tx.sharedInputObjects = []
    · have hn : tracker.scheduledCost txCost entry.tx = [] := by
        unfold scheduledCost
        rw [hinp]
        cases txCost <;> rfl
      unfold bumpObjectExecutionCost
      rw [if_pos hinp, hn, append_nil]
      exact .inl rfl
    · cases txCost with
      | none =>
        unfold bumpObjectExecutionCost
        rw [if_neg hinp]
        exact .inl (congrArg _ (append_nil _))
      | some cost =>
        obtain ⟨startCost, hs⟩ := computeTxStartAtCost_isSome tracker hinp
        obtain ⟨hb, habs⟩ := limits_of_not_deferred hinp hs hdef
        obtain ⟨tracker', hrun, hpar, hc⟩ := bumpObjectExecutionCost_ok cost hinp
          hs (hb.trans (burstLimit_le _ _))
        rw [hrun]
        refine .inr ⟨cost, startCost, ?_, hs, hb, habs, hpar, hc⟩
        simp only [scheduledCost, hs]

variable (commitInfo entries start tracker scheduled) in
/-- What was scheduled started and ended within the limits. -/
structure Within : Prop where
  params : tracker.params = start.params
  limits : ∀ e ∈ scheduled, e.startCost ≤ start.params.burstLimit commitInfo ∧
    saturatingAdd e.startCost e.cost ≤ start.params.absoluteLimit commitInfo
  entry : ∀ e ∈ scheduled, e.tx ∈ entries.map CommitEntry.tx

theorem within_of_foldlM
    (hrun : entries.foldlM (scheduleEntry commitInfo previouslyDeferred) (start, []) =
      .ok (tracker', scheduled')) :
    Within commitInfo entries start tracker' scheduled' := by
  refine foldlM_induction (P := fun state => Within commitInfo entries start state.1 state.2)
    (fun state state' entry he h hst => ?_) ⟨rfl, by simp, by simp⟩ hrun
  rcases scheduleEntry_ends.of_ok hst with rfl | ⟨cost, startCost, hs, _, hb, habs, hpar, _⟩
  · exact h
  · rw [h.params] at hb habs
    rw [hs]
    refine ⟨hpar.trans h.params, ?_, ?_⟩
    · rw [forall_mem_append, forall_mem_singleton]
      exact ⟨h.limits, hb, habs⟩
    · rw [forall_mem_append, forall_mem_singleton]
      exact ⟨h.entry, mem_map_of_mem he⟩

variable (commitInfo maxCost start tracker scheduled) in
/-- The costs of what was scheduled since `start` are in the costs of the objects; a cost that was
raised is at most one transaction above the burst limit. -/
structure Spent : Prop where
  params : tracker.params = start.params
  covered : ∀ object, start.costOf object + spentOn object scheduled ≤ tracker.costOf object
  untouched : ∀ object, (∀ e ∈ scheduled, e.tx.mutates object = false) →
    tracker.costOf object = start.costOf object
  bounded : ∀ object, (∀ e ∈ scheduled, e.tx.mutates object = false) ∨
    tracker.costOf object ≤ start.params.burstLimit commitInfo + maxCost

theorem spentOn_append (object : ObjectID) (scheduled scheduled' : List ScheduledCost) :
    spentOn object (scheduled ++ scheduled') =
      spentOn object scheduled + spentOn object scheduled' :=
  tally_append _ _ _

theorem spentOn_eq_zero
    (h : ∀ e ∈ scheduled, e.tx.mutates object = false) : spentOn object scheduled = 0 :=
  tally_eq_zero fun e he => if_neg (by rw [h e he]; decide)

theorem spentOn_singleton (object : ObjectID) (e : ScheduledCost) :
    spentOn object [e] = if e.tx.mutates object then e.cost else 0 := by
  rw [spentOn, tally_cons, tally_nil, Nat.add_zero]

/-- **One more transaction.** Nothing saturates, since it starts within the burst limit. -/
theorem Spent.scheduleEntry
    (h : (∀ e ∈ scheduled, e.cost ≤ maxCost) → Spent commitInfo maxCost start tracker scheduled)
    (hfits : start.params.burstLimit commitInfo + maxCost ≤ u64Max)
    (hmax : ∀ e ∈ scheduled', e.cost ≤ maxCost)
    (hstep : scheduleEntry commitInfo previouslyDeferred (tracker, scheduled) entry =
      .ok (tracker', scheduled')) :
    Spent commitInfo maxCost start tracker' scheduled' := by
  rcases scheduleEntry_ends.of_ok hstep with hsame |
    ⟨cost, startCost, rfl, hstart, hburst, _, hpar, hcosts⟩
  · cases hsame
    exact h hmax
  dsimp only at hstart hburst hpar hcosts
  rw [forall_mem_append, forall_mem_singleton] at hmax
  have hcost : cost ≤ maxCost := hmax.2
  replace h := h hmax.1
  rw [h.params] at hburst
  have hexact : saturatingAdd startCost cost = startCost + cost := by
    unfold saturatingAdd
    omega
  have hle := (computeTxStartAtCost_eq_some hstart).2
  refine ⟨hpar.trans h.params, fun object => ?_, fun object hnone => ?_, fun object => ?_⟩
  · have hcov := h.covered object
    rw [spentOn_append, spentOn_singleton, hcosts]
    by_cases hmut : entry.tx.mutates object = true
    · obtain ⟨obj, hobj, hobject⟩ := any_eq_true.1 hmut
      simp only [Bool.and_eq_true, beq_iff_eq] at hobject
      have hobj := hle obj hobj
      rw [hobject.2] at hobj
      rw [if_pos hmut, if_pos hmut]
      dsimp only
      omega
    · rw [if_neg hmut, if_neg hmut]
      exact hcov
  · rw [forall_mem_append, forall_mem_singleton] at hnone
    rw [hcosts, if_neg (by rw [hnone.2]; decide)]
    exact h.untouched object hnone.1
  · rw [hcosts, forall_mem_append, forall_mem_singleton]
    by_cases hmut : entry.tx.mutates object = true
    · rw [if_pos hmut]
      exact .inr (by omega)
    · rw [if_neg hmut]
      exact (h.bounded object).imp_left fun hnone => ⟨hnone, Bool.eq_false_of_not_eq_true hmut⟩

/-- **All transactions of a commit.** -/
theorem spent_of_foldlM (hf : start.params.burstLimit commitInfo + maxCost ≤ u64Max)
    (hmax : ∀ e ∈ scheduled, e.cost ≤ maxCost)
    (hrun : entries.foldlM (SharedObjectCongestionTracker.scheduleEntry commitInfo
      previouslyDeferred) (start, []) = .ok (tracker, scheduled)) :
    Spent commitInfo maxCost start tracker scheduled :=
  foldlM_induction (P := fun state =>
      (∀ e ∈ state.2, e.cost ≤ maxCost) → Spent commitInfo maxCost start state.1 state.2)
    (fun _ _ _ _ h hst hmax => .scheduleEntry h hf hmax hst)
    (fun _ => ⟨rfl, fun _ => le_rfl, fun _ _ => rfl, fun _ => .inl (by simp)⟩) hrun hmax

/-! ## What is left of a commit -/

/-- The debt that a commit records on an object. -/
theorem lastWrite_accumulatedDebts (tracker : SharedObjectCongestionTracker)
    (ho : tracker.params.maxOverage ≠ 0) (output : ConsensusCommitOutput) (object : ObjectID) :
    lastWrite (output.debtWrites (tracker.accumulatedDebts commitInfo)) object =
      if 0 < tracker.costOf object - tracker.params.commitBudget commitInfo then
        some ⟨output.consensusRound, tracker.costOf object - tracker.params.commitBudget commitInfo⟩
      else none := by
  have hr := get?_writeAll .empty (output.debtWrites (tracker.accumulatedDebts commitInfo)) object
  rw [get?_empty, Option.or_none] at hr
  rw [← hr]
  refine get?_foldl_insert_empty fun debt => ?_
  simp only [debtWrites, accumulatedDebts, if_neg ho, mem_map, mem_filterMap]
  constructor
  · intro hd
    split at hd
    next hpos =>
      cases hget : tracker.objectExecutionCost.get? object with
      | none =>
        rw [costOf, hget, Option.getD_none, Nat.zero_sub] at hpos
        cases hpos
      | some cost =>
        rw [costOf, hget, Option.getD_some] at hpos hd
        cases hd
        exact ⟨_, ⟨(object, _), ⟨(object, cost), mem_entries.2 hget, if_pos hpos⟩, rfl⟩, rfl, rfl⟩
    next => cases hd
  · rintro ⟨_, ⟨e, ⟨⟨id, cost⟩, hen, he⟩, rfl⟩, rfl, rfl⟩
    have hget := mem_entries.1 hen
    split at he
    next hpos =>
      cases he
      rw [costOf, hget, Option.getD_some, if_pos hpos]
    next => cases he

end SharedObjectCongestionTracker

/-! ## Runs -/

/-- The modes with a constant budget, and with debts. -/
def CongestionConfig.Carries (config : CongestionConfig) : Prop :=
  (config.perObjectCongestionControlMode = .totalGasBudget ∨
    config.perObjectCongestionControlMode = .totalTxCount ∨
    config.perObjectCongestionControlMode = .totalGasBudgetWithCap) ∧
  0 < config.overage

namespace CongestionNode

open SharedObjectCongestionTracker

variable {config : CongestionConfig} {s s' : CongestionNode} {forRandomness : Bool}
  {object : ObjectID}

def recorded (s : CongestionNode) (forRandomness : Bool) (object : ObjectID) :
    Option CongestionPerObjectDebt :=
  s.q.recordedDebt s.tables forRandomness object

variable (config s forRandomness object) in
/-- What a tracker of a commit at `round` starts an object with. -/
def owed (round : ℕ) : ℕ :=
  ((s.recorded forRandomness object).map fun debt =>
    debt.owedAt (config.perCommitBudget forRandomness) round).getD 0

variable {commitInfo : CongestionCommitInfo} {tracker : SharedObjectCongestionTracker}
  {maxCost round : ℕ} {previouslyDeferred : OrdMap TransactionDigest DeferralKey}
  {entries : Bool → List CommitEntry}

theorem params_of_carries (h : config.Carries) {transactions : List CongestionTransaction}
    (ht : commitTracker config s.q s.tables commitInfo forRandomness transactions = .ok tracker) :
    tracker.params.commitBudget commitInfo = config.perCommitBudget forRandomness ∧
    tracker.params.maxBurst = config.burst ∧
    tracker.params.maxOverage = config.overage := by
  obtain ⟨_, _, hc⟩ := bind_ok.1 ht
  obtain ⟨_, hm, _, hb, ho, hbu⟩ := fromProtocolConfig_ok hc
  rw [hb commitInfo]
  unfold maxBurst maxOverage CongestionConfig.budgetOfCommit
  rw [hm, ← ho, ← hbu]
  rcases h.1 with hm | hm | hm <;> simp [hm]

def roundsSpanned (s : CongestionNode) : ℕ :=
  match s.firstRound, s.lastRound with
  | some first, some last => last - first + 1
  | _, _ => 0

/-- The round after the last commit. -/
def nextRound (s : CongestionNode) : ℕ := (s.lastRound.map (· + 1)).getD 0

variable (config s forRandomness object maxCost) in
/-- **The account of an object.** Its costs are covered by the budgets of the rounds and what is
left of its debt; and they are within the average. -/
structure Ledger : Prop where
  covered : spentOn object (s.scheduled forRandomness) ≤
    config.perCommitBudget forRandomness * s.roundsSpanned +
      s.owed config forRandomness object s.nextRound
  average : spentOn object (s.scheduled forRandomness) ≤
    config.perCommitBudget forRandomness * s.roundsSpanned + config.burst + maxCost

structure Inv (config : CongestionConfig) (s : CongestionNode) : Prop where
  mirrors : ∃ start, ConsensusOutputQuarantine.Mirrors start s.q.outputQueue s.q s.tables
  rounds : ∀ forRandomness object debt, s.recorded forRandomness object = some debt →
    ∃ last ∈ s.lastRound, debt.round ≤ last
  span : s.firstRound = none ∧ s.lastRound = none ∨
    ∃ first last, s.firstRound = some first ∧ s.lastRound = some last ∧ first ≤ last
  limits : ∀ forRandomness, ∀ e ∈ s.scheduled forRandomness,
    e.startCost ≤ saturatingAdd (config.perCommitBudget forRandomness) config.burst ∧
    saturatingAdd e.startCost e.cost ≤ saturatingAdd (config.perCommitBudget forRandomness)
      config.overage
  ledger : ∀ forRandomness object maxCost, (∀ e ∈ s.scheduled forRandomness, e.cost ≤ maxCost) →
    config.perCommitBudget forRandomness + config.burst + maxCost ≤ u64Max →
    s.Ledger config forRandomness object maxCost

variable (config s forRandomness object) in
/-- Later rounds leave less of a debt, by their budgets at most. -/
theorem owed_le {later : ℕ} (h : round ≤ later) :
    s.owed config forRandomness object round ≤
      config.perCommitBudget forRandomness * (later - round) +
        s.owed config forRandomness object later := by
  unfold owed
  cases s.recorded forRandomness object with
  | none => exact Nat.zero_le _
  | some debt =>
    simp only [Option.map_some, Option.getD_some, owedAt]
    have hle : config.perCommitBudget forRandomness * (later - debt.round - 1) ≤
        config.perCommitBudget forRandomness * (round - debt.round - 1) +
          config.perCommitBudget forRandomness * (later - round) := by
      rw [← Nat.mul_add]
      exact Nat.mul_le_mul_left _ (by omega)
    omega

theorem recordedDebt_push {start tables : EpochTables} {q : ConsensusOutputQuarantine}
    {queue queue' : List ConsensusCommitOutput} (h : ConsensusOutputQuarantine.Mirrors start queue q
      tables) (output : ConsensusCommitOutput) :
    ConsensusOutputQuarantine.recordedDebt { q.insertOutput output with outputQueue := queue' }
      tables forRandomness object =
      (lastWrite (if forRandomness then output.randomnessDebtWrites else output.controlDebtWrites)
        object).or (q.recordedDebt tables forRandomness object) := by
  cases forRandomness with
  | false => exact h.debts.read_push output object
  | true => exact h.randomnessDebts.read_push output object

variable (config s s' commitInfo previouslyDeferred) in
/-- What a commit does with one of the trackers: it runs from the debts of the objects, and an
object with a cost above the budget gets a new record. -/
structure Tracked (entries : List CommitEntry) (forRandomness : Bool)
    (start tracker : SharedObjectCongestionTracker) (scheduled : List ScheduledCost) : Prop where
  started : commitTracker config s.q s.tables commitInfo forRandomness
    (entries.map CommitEntry.tx) = .ok start
  ran : entries.foldlM (scheduleEntry commitInfo previouslyDeferred) (start, []) =
    .ok (tracker, scheduled)
  scheduled_eq : s'.scheduled forRandomness = s.scheduled forRandomness ++ scheduled
  recorded : ∀ object, s'.recorded forRandomness object =
    (if 0 < tracker.costOf object - config.perCommitBudget forRandomness then
      some ⟨commitInfo.round, tracker.costOf object - config.perCommitBudget forRandomness⟩
    else none).or (s.recorded forRandomness object)

/-- A commit at a round after those before it. -/
structure Advances (s s' : CongestionNode) (round : ℕ) : Prop where
  later : ∀ last ∈ s.lastRound, last < round
  firstRound : s'.firstRound = s.firstRound.or (some round)
  lastRound : s'.lastRound = some round

variable {start : SharedObjectCongestionTracker}

theorem lastWrite_of_carries (hcarries : config.Carries) {entries : List CommitEntry}
    {scheduled : List ScheduledCost}
    (hstart : commitTracker config s.q s.tables commitInfo forRandomness
      (entries.map CommitEntry.tx) = .ok start)
    (hrun : entries.foldlM (scheduleEntry commitInfo previouslyDeferred) (start, []) =
      .ok (tracker, scheduled)) (output : ConsensusCommitOutput) (object : ObjectID) :
    lastWrite (output.debtWrites (tracker.accumulatedDebts commitInfo)) object =
      if 0 < tracker.costOf object - config.perCommitBudget forRandomness then
        some ⟨output.consensusRound, tracker.costOf object - config.perCommitBudget forRandomness⟩
      else none := by
  obtain ⟨hbudget, _, hover⟩ := params_of_carries hcarries hstart
  have hpar := (within_of_foldlM hrun).params
  rw [lastWrite_accumulatedDebts tracker _ output object, hpar, hbudget]
  rw [hpar, hover]
  exact Nat.pos_iff_ne_zero.1 hcarries.2

theorem commit_cases (hcarries : config.Carries) (h : s.Inv config)
    (hord : s.Ordered (.commit commitInfo previouslyDeferred entries))
    (hstep : s.step config (.commit commitInfo previouslyDeferred entries) = .ok s') :
    (∃ start, ConsensusOutputQuarantine.Mirrors start s'.q.outputQueue s'.q s'.tables) ∧
    Advances s s' commitInfo.round ∧ ∀ forRandomness, ∃ start tracker scheduled,
      Tracked config s s' commitInfo previouslyDeferred (entries forRandomness) forRandomness start
        tracker scheduled := by
  obtain ⟨⟨regular, scheduled₀⟩, hreg, hstep⟩ := bind_ok.1 hstep
  obtain ⟨⟨randomness, scheduled₁⟩, hrand, hstep⟩ := bind_ok.1 hstep
  cases hstep
  obtain ⟨start, hmirr⟩ := h.mirrors
  obtain ⟨start₀, hstart₀, hrun₀⟩ := bind_ok.1 hreg
  obtain ⟨start₁, hstart₁, hrun₁⟩ := bind_ok.1 hrand
  refine ⟨⟨start, ?_⟩, ⟨hord.1, rfl, rfl⟩, fun forRandomness => ?_⟩
  · have hready : (debtOutput commitInfo.round (regular.accumulatedDebts commitInfo)
        (randomness.accumulatedDebts commitInfo)).Ready :=
      ⟨commitInfo.round, rfl, by simp [debtOutput]⟩
    exact { hmirr.push hready with }
  · cases forRandomness with
    | false =>
      refine ⟨start₀, regular, scheduled₀, hstart₀, hrun₀, rfl, fun object => ?_⟩
      exact (recordedDebt_push hmirr _).trans
        (congrArg (Option.or · (s.recorded false object))
          (lastWrite_of_carries hcarries hstart₀ hrun₀ _ object))
    | true =>
      refine ⟨start₁, randomness, scheduled₁, hstart₁, hrun₁, rfl, fun object => ?_⟩
      exact (recordedDebt_push hmirr _).trans
        (congrArg (Option.or · (s.recorded true object))
          (lastWrite_of_carries hcarries hstart₁ hrun₁ _ object))

/-- A commit adds the rounds since the last one to those that are spanned. -/
theorem span_commit (h : s.Inv config) (hadv : Advances s s' round) :
    (∃ first, s'.firstRound = some first ∧ first ≤ round) ∧ s'.nextRound = round + 1 ∧
    (s.lastRound = none ∧ s.roundsSpanned = 0 ∧ s'.roundsSpanned = 1 ∨
      s.nextRound ≤ round ∧ s'.roundsSpanned = s.roundsSpanned + (round - s.nextRound) + 1) := by
  obtain ⟨hr, hfi, hla⟩ := hadv
  rcases h.span with ⟨hf, hl⟩ | ⟨first, last, hf, hl, hle⟩
  · rw [hf] at hfi
    refine ⟨⟨round, hfi, le_rfl⟩, by rw [nextRound, hla]; rfl, .inl ⟨hl, ?_, ?_⟩⟩
    · rw [roundsSpanned, hf]
    · rw [roundsSpanned, hfi, hla]
      simp
  · rw [hf, Option.some_or] at hfi
    have hlt := hr last hl
    refine ⟨⟨first, hfi, by omega⟩, by rw [nextRound, hla]; rfl, .inr ?_⟩
    have hn : s.nextRound = last + 1 := by rw [nextRound, hl]; rfl
    rw [roundsSpanned, roundsSpanned, hf, hl, hfi, hla]
    dsimp only
    omega

/-- Before a commit: what was spent is covered by the rounds before and what the commit starts
with. -/
theorem spent_le_owed (h : s.Inv config) (hadv : Advances s s' round)
    (hle : s.Ledger config forRandomness object maxCost) :
    spentOn object (s.scheduled forRandomness) + config.perCommitBudget forRandomness ≤
      config.perCommitBudget forRandomness * s'.roundsSpanned +
        s.owed config forRandomness object round := by
  have hcov := hle.covered
  obtain ⟨_, _, ⟨hn, hz, hone⟩ | ⟨hne, hs⟩⟩ := span_commit h hadv
  · have hunr : s.recorded forRandomness object = none := by
      cases hrec : s.recorded forRandomness object with
      | none => rfl
      | some debt =>
        obtain ⟨last, hl, _⟩ := h.rounds forRandomness object debt hrec
        rw [hn] at hl
        cases hl
    rw [hz, owed, hunr] at hcov
    simp only [Option.map_none, Option.getD_none] at hcov
    rw [hone]
    omega
  · have ho := owed_le config s forRandomness object hne
    rw [hs, Nat.mul_add, Nat.mul_add]
    omega

theorem Ledger.commit (hcarries : config.Carries) (h : s.Inv config) {entries : List CommitEntry}
    {scheduled : List ScheduledCost}
    (hadv : Advances s s' commitInfo.round)
    (hcert : ∀ entry ∈ entries, entry.tx.certified = true)
    (htracked : Tracked config s s' commitInfo previouslyDeferred entries forRandomness start
      tracker scheduled)
    (hmax : ∀ e ∈ s'.scheduled forRandomness, e.cost ≤ maxCost)
    (hfits : config.perCommitBudget forRandomness + config.burst + maxCost ≤ u64Max)
    (hledger : s.Ledger config forRandomness object maxCost) :
    s'.Ledger config forRandomness object maxCost := by
  obtain ⟨hstart, hrun, hsched, hrec⟩ := htracked
  replace hrec := hrec object
  obtain ⟨hbudget, hburst, _⟩ := params_of_carries hcarries hstart
  have hlimit : start.params.burstLimit commitInfo = config.perCommitBudget forRandomness +
      config.burst := by
    rw [burstLimit, saturatingAdd]
    omega
  have hspent : Spent commitInfo maxCost start tracker scheduled := by
    refine spent_of_foldlM (by omega) (fun e he => hmax e ?_) hrun
    rw [hsched]
    exact mem_append_right _ he
  have hbef := spent_le_owed h hadv hledger
  have hcov := hspent.covered object
  have hcost := costOf_commitTracker hstart object
  have hnext := (span_commit h hadv).2.1
  have hmore : config.perCommitBudget forRandomness * s.roundsSpanned ≤
      config.perCommitBudget forRandomness * s'.roundsSpanned := by
    refine Nat.mul_le_mul_left _ ?_
    obtain ⟨_, _, ⟨_, hzero, _⟩ | ⟨_, hspan⟩⟩ := span_commit h hadv <;> omega
  have haver := hledger.average
  by_cases hid : object ∈ sharedInputObjectIds (entries.map CommitEntry.tx)
  · rw [if_pos hid] at hcost
    change start.costOf object = s.owed config forRandomness object commitInfo.round at hcost
    constructor
    · rw [hsched, spentOn_append, hnext, owed, hrec]
      by_cases hpos : 0 < tracker.costOf object - config.perCommitBudget forRandomness
      · rw [if_pos hpos]
        simp only [Option.some_or, Option.map_some, Option.getD_some,
          owedAt, Nat.add_sub_cancel_left]
        omega
      · omega
    · rw [hsched, spentOn_append]
      rcases hspent.bounded object with hnone | hle
      · rw [spentOn_eq_zero hnone]
        omega
      · omega
  · -- no transaction of the commit has the object as an input
    rw [if_neg hid] at hcost
    have hnone : ∀ e ∈ scheduled, e.tx.mutates object = false := by
      intro e he
      refine Bool.eq_false_of_not_eq_true fun hmut => hid (mem_sharedInputObjectIds.2 ?_)
      obtain ⟨obj, hobj, hobject⟩ := any_eq_true.1 hmut
      simp only [Bool.and_eq_true, beq_iff_eq] at hobject
      have hentry := (within_of_foldlM hrun).entry e he
      obtain ⟨entry, hentry', htx⟩ := mem_map.1 hentry
      exact ⟨e.tx, hentry, htx ▸ hcert entry hentry', obj, hobj, hobject.2⟩
    rw [hspent.untouched object hnone, hcost, Nat.zero_sub, if_neg (lt_irrefl 0),
      Option.none_or] at hrec
    have hsame : s'.owed config forRandomness object (commitInfo.round + 1) =
        s.owed config forRandomness object (commitInfo.round + 1) := by
      rw [owed, hrec, owed]
    have hlater := owed_le config s forRandomness object (Nat.le_add_right commitInfo.round 1)
    rw [Nat.add_sub_cancel_left, Nat.mul_one] at hlater
    constructor
    · rw [hsched, spentOn_append, spentOn_eq_zero hnone, hnext]
      omega
    · rw [hsched, spentOn_append, spentOn_eq_zero hnone]
      omega

theorem inv_init (h : (machine config).init s) : s.Inv config := by
  obtain ⟨hq, hw, hde, hr, hf, hl, hs⟩ := h
  have hunr : ∀ forRandomness object, s.recorded forRandomness object = none := by
    intro forRandomness object
    rw [recorded, hq, ConsensusOutputQuarantine.recordedDebt, hde, hr]
    cases forRandomness <;> rfl
  refine ⟨⟨s.tables, ?_⟩, fun forRandomness object debt hd => ?_, .inl ⟨hf, hl⟩,
    fun forRandomness e he => ?_, fun forRandomness object maxCost _ _ => ?_⟩
  · rw [hq]
    refine ⟨?_, ?_, ?_, ?_, nofun⟩ <;> rw [hw] <;> exact Buffered.empty _ _
  · rw [hunr] at hd
    cases hd
  · rw [hs] at he
    cases he
  · have hz : spentOn object (s.scheduled forRandomness) = 0 := by rw [hs]; rfl
    constructor <;> rw [hz] <;> exact Nat.zero_le _

/-- Nothing depends on where the debts are. -/
theorem Inv.congr (h : s.Inv config)
    (hm : ∃ start, ConsensusOutputQuarantine.Mirrors start s'.q.outputQueue s'.q s'.tables)
    (hrec : ∀ forRandomness object,
      s'.recorded forRandomness object = s.recorded forRandomness object)
    (hf : s'.firstRound = s.firstRound) (hl : s'.lastRound = s.lastRound)
    (hs : s'.scheduled = s.scheduled) : s'.Inv config := by
  refine ⟨hm, fun forRandomness object debt hd => ?_, ?_, ?_,
    fun forRandomness object maxCost hmax hfi => ?_⟩
  · rw [hl]
    exact h.rounds forRandomness object debt (hrec forRandomness object ▸ hd)
  · rw [hf, hl]
    exact h.span
  · rw [hs]
    exact h.limits
  · rw [hs] at hmax
    have hsp : s'.roundsSpanned = s.roundsSpanned := by
      rw [roundsSpanned, hf, hl, roundsSpanned]
    have hn : s'.nextRound = s.nextRound := by rw [nextRound, hl, nextRound]
    obtain ⟨hcov, ha⟩ := h.ledger forRandomness object maxCost hmax hfi
    constructor
    · rwa [hs, hsp, hn, owed, hrec]
    · rwa [hs, hsp]

theorem Inv.flush (h : s.Inv config) (hs : s.step config .flush = .ok s') : s'.Inv config := by
  obtain ⟨start, hm⟩ := h.mirrors
  simp only [CongestionNode.step] at hs
  split at hs
  · cases hs
    exact h
  next output queue hqu =>
    obtain ⟨q, hq, hs⟩ := bind_ok.1 hs
    obtain ⟨tables, ht, hs⟩ := bind_ok.1 hs
    rw [hqu] at hm
    rw [hm.removeOutput_ok] at hq
    rw [writeToBatch_ok (hm.ready output mem_cons_self)] at ht
    cases hq
    cases ht
    cases hs
    refine h.congr ⟨start, { hm.flush with }⟩ (fun forRandomness object => ?_) rfl rfl rfl
    cases forRandomness with
    | false =>
      have hr := hm.debts.read_flush object
      rw [controlDebtWrites, map_fst_debtWrites] at hr
      exact hr
    | true =>
      have hr := hm.randomnessDebts.read_flush object
      rw [randomnessDebtWrites, map_fst_debtWrites] at hr
      exact hr

theorem Inv.commit (hcarries : config.Carries) (h : s.Inv config)
    (hord : s.Ordered (.commit commitInfo previouslyDeferred entries))
    (hstep : s.step config (.commit commitInfo previouslyDeferred entries) = .ok s') :
    s'.Inv config := by
  obtain ⟨hmirr, hadv, hparts⟩ := commit_cases hcarries h hord hstep
  refine ⟨hmirr, fun forRandomness object debt hdebt => ?_, .inr ?_, fun forRandomness => ?_,
    fun forRandomness object maxCost hmax hfits => ?_⟩
  · obtain ⟨_, tracker, _, _, _, _, hrec⟩ := hparts forRandomness
    rw [hrec] at hdebt
    refine ⟨commitInfo.round, hadv.lastRound, ?_⟩
    split at hdebt
    · rw [Option.some_or] at hdebt
      rw [← Option.some.inj hdebt]
    · rw [Option.none_or] at hdebt
      obtain ⟨last, hl, hle⟩ := h.rounds forRandomness object debt hdebt
      exact hle.trans (hadv.later last hl).le
  · obtain ⟨⟨first, hf, hle⟩, _⟩ := span_commit h hadv
    exact ⟨first, commitInfo.round, hf, hadv.lastRound, hle⟩
  · obtain ⟨start, tracker, scheduled, hstart, hrun, hsched, _⟩ := hparts forRandomness
    obtain ⟨hbudget, hburst, hover⟩ := params_of_carries hcarries hstart
    have hlim := (within_of_foldlM hrun).limits
    rw [burstLimit, absoluteLimit, hbudget, hburst, hover] at hlim
    rw [hsched, forall_mem_append]
    exact ⟨h.limits forRandomness, hlim⟩
  · obtain ⟨start, tracker, scheduled, htracked⟩ := hparts forRandomness
    refine Ledger.commit hcarries h hadv (hord.2 forRandomness) htracked hmax hfits
      (h.ledger forRandomness object maxCost ?_ hfits)
    intro e he
    exact hmax e (htracked.scheduled_eq ▸ mem_append_left _ he)

theorem inv_of_reach (hc : config.Carries) (h : (machine config).Reach Ordered s) :
    s.Inv config := by
  refine h.invariant (fun s hs => inv_init hs) fun s a s' hs hord hst => ?_
  cases a with
  | commit commitInfo previouslyDeferred entries => exact hs.commit hc hord hst
  | flush => exact hs.flush hst

theorem runTracker_ends {entries : List CommitEntry} :
    Ends (runTracker config s commitInfo previouslyDeferred entries forRandomness) (fun _ => True)
      (∀ object, · ≠ .costDecreased object) := by
  refine Ends.bind (Q := fun _ => True) ?_ fun start _ => Ends.foldlM (fun _ _ _ _ =>
    scheduleEntry_ends.mono fun _ _ => trivial) trivial
  cases hs : commitTracker config s.q s.tables commitInfo forRandomness
    (entries.map CommitEntry.tx) with
  | ok start => trivial
  | error e =>
    rintro object rfl
    rcases bind_error.1 hs with hl | ⟨debts, _, hnew⟩
    · obtain ⟨_, _, hl⟩ := mapError_error.1 hl
      cases hl
    · rcases bind_error.1 hnew with hc | ⟨_, _, hnew⟩
      · cases (check_error.1 hc).2
      · rcases bind_error.1 hnew with hb | ⟨_, _, hnew⟩
        · unfold budgetInCommit at hb
          split at hb
          · cases hb
          · cases (require_error.1 hb).2
        · cases hnew

theorem step_ends (a : CongestionAction) :
    Ends (s.step config a) (fun _ => True) (∀ object, · ≠ .costDecreased object) := by
  cases a with
  | commit commitInfo previouslyDeferred entries =>
    exact runTracker_ends.bind fun _ _ => runTracker_ends.bind fun _ _ => trivial
  | flush =>
    simp only [CongestionNode.step]
    split
    · trivial
    next output _ _ =>
      cases s.q.removeOutput output with
      | error e => exact nofun
      | ok q =>
        cases output.writeToBatch s.tables with
        | error e => exact nofun
        | ok tables => trivial

/-- **The budget holds on average**, for each of the two trackers by itself. With a constant budget
and with overage, in every run of commits at increasing rounds: each scheduled transaction starts at
the burst limit or below, and ends at the absolute limit or below; what a tracker scheduled on an
object is at most its budget of the rounds spanned, the burst, and one transaction (costs are far
from the end of `u64`, by the protocol's limits on gas); and costs never decrease. -/
theorem budget_on_average (hcarries : config.Carries) (h : (machine config).Reach Ordered s) :
    (∀ forRandomness, ∀ e ∈ s.scheduled forRandomness,
      e.startCost ≤ saturatingAdd (config.perCommitBudget forRandomness) config.burst ∧
      saturatingAdd e.startCost e.cost ≤ saturatingAdd (config.perCommitBudget forRandomness)
        config.overage) ∧
    (∀ forRandomness object maxCost, (∀ e ∈ s.scheduled forRandomness, e.cost ≤ maxCost) →
      config.perCommitBudget forRandomness + config.burst + maxCost ≤ u64Max →
      spentOn object (s.scheduled forRandomness) ≤
        config.perCommitBudget forRandomness * s.roundsSpanned + config.burst + maxCost) ∧
    ∀ a object, (machine config).step s a ≠ .error (.costDecreased object) := by
  have hinv := inv_of_reach hcarries h
  exact ⟨hinv.limits, fun forRandomness object maxCost hmax hf =>
    (hinv.ledger forRandomness object maxCost hmax hf).average,
    fun a object hs => (step_ends a).of_error hs object rfl⟩

end CongestionNode

open CongestionNode CongestionSample in
/-- A transaction of cost 700 leaves a debt of 600, and one of cost 50 starts there in the next
round. -/
theorem budget_on_average_sample : ∃ s, (machine (config .totalGasBudget)).Reach Ordered s ∧
    s.roundsSpanned = 2 ∧ spentOn 1 (s.scheduled false) = 750 ∧
    spentOn 1 (s.scheduled false) ≤ 100 * s.roundsSpanned + 500 + 700 := by
  have hi : (machine (config .totalGasBudget)).init ⟨.new 0, { CongestionSample.tables with
      congestionControlObjectDebts := .empty }, none, none, fun _ => []⟩ :=
    ⟨rfl, rfl, rfl, rfl, rfl, rfl, rfl⟩
  refine Machine.exists_reach_imp
    [.commit ⟨3, 0⟩ .empty fun b => if b then [] else [⟨tx 7 true 700, false⟩],
      .flush, .commit ⟨4, 0⟩ .empty fun b => if b then [] else [⟨tx 8 true 50, false⟩]]
    (fun s => s.roundsSpanned = 2 ∧ spentOn 1 (s.scheduled false) = 750 ∧
      ∀ e ∈ s.scheduled false, e.cost ≤ 700)
    (Machine.init_ok hi) (by decide +kernel) ?_
  have hc : (config .totalGasBudget).Carries := ⟨.inl rfl, by decide⟩
  rintro s hs ⟨hsn, hsp, hmax⟩
  exact ⟨hsn, hsp, (budget_on_average hc hs).2.1 false 1 700 hmax (by decide)⟩

end OneChain.Authority
