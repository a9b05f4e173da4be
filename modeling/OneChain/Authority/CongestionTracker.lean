import OneChain.Authority.CommitBoundary
import OneChain.Authority.Quarantine

/-!
# Congestion of shared objects

`shared_object_congestion_tracker.rs`: a commit keeps the execution cost of each shared object. A
transaction starts at the highest cost of its inputs, and is deferred if it would start above the
budget and the burst, or end above the budget and the overage; if it is scheduled, the objects that
it mutates get its end as their cost. What is above the budget at the end of the commit is recorded
as a debt, and a later commit starts from the debts of its objects, less the budget of the rounds
between (`load_initial_object_debts`).

There are two trackers in a commit, one of them for the transactions that use randomness.

* `bumpObjectExecutionCost_ok` — the assertion of `bump_object_execution_cost` holds.
* `debts_charged_iff` — when the debts of all inputs of a commit's transactions are charged.
* `debts_not_charged` — a transaction that consensus certifies itself starts without the debts of
  its inputs, and with estimated execution times another budget is taken off.
-/

namespace OneChain.Authority

open Lib List

/-! ## Parameters -/

/-- Of the parameters for estimated execution times, those that the tracker reads. -/
structure ExecutionTimeEstimateParams where
  (targetUtilization allowedTxnCostOverageBurstLimitUs randomnessScalar : ℕ)
  deriving DecidableEq

inductive PerObjectCongestionControlMode
  | none
  | totalGasBudget
  | totalTxCount
  | totalGasBudgetWithCap
  | executionTimeEstimate (params : ExecutionTimeEstimateParams)
  deriving DecidableEq

structure CongestionCommitInfo where
  round : ℕ
  /-- In microseconds. -/
  estimatedCommitPeriod : ℕ
  deriving DecidableEq

inductive TrackerPanic
  | burstAboveOverage
  | budgetNotSet
  | capFactorNotSet
  | noSharedInputObjects
  | noCongestedObjects
  | costDecreased (object : ObjectID)
  | quarantine (panic : QuarantinePanic)
  deriving DecidableEq

def saturatingAdd (a b : ℕ) : ℕ := min (a + b) u64Max

/-- `checked_mul` with `u64::MAX` for an overflow. -/
def checkedMulOrMax (a b : ℕ) : ℕ := min (a * b) u64Max

/-- The fields of the protocol config. -/
structure CongestionConfig where
  perObjectCongestionControlMode : PerObjectCongestionControlMode
  maxAccumulatedTxnCostPerObjectInMysticetiCommit : Option ℕ
  maxAccumulatedRandomnessTxnCostPerObjectInMysticetiCommit : Option ℕ
  (gasBudgetBasedTxnCostCapFactor gasBudgetBasedTxnCostAbsoluteCapCommitCount : Option ℕ)
  (maxTxnCostOveragePerObjectInCommit allowedTxnCostOverageBurstPerObjectInCommit : Option ℕ)

/-- Zero if it is not set, as for the burst. -/
def CongestionConfig.overage (config : CongestionConfig) : ℕ :=
  config.maxTxnCostOveragePerObjectInCommit.getD 0

def CongestionConfig.burst (config : CongestionConfig) : ℕ :=
  config.allowedTxnCostOverageBurstPerObjectInCommit.getD 0

/-- `Params` of the tracker. -/
structure CongestionParams where
  mode : PerObjectCongestionControlMode
  forRandomness : Bool
  maxAccumulatedTxnCostPerObjectInCommit : ℕ
  (gasBudgetBasedTxnCostCapFactor gasBudgetBasedTxnCostAbsoluteCap : Option ℕ)
  (maxTxnCostOveragePerObjectInCommit allowedTxnCostOverageBurstPerObjectInCommit : ℕ)

namespace CongestionParams

variable (params : CongestionParams)

variable (commitInfo : CongestionCommitInfo)

def commitBudget : ℕ :=
  match params.mode with
  | .executionTimeEstimate estimate =>
    let budget := checkedMulOrMax commitInfo.estimatedCommitPeriod estimate.targetUtilization / 100
    if params.forRandomness then checkedMulOrMax budget estimate.randomnessScalar / 100 else budget
  | .none | .totalGasBudget | .totalTxCount | .totalGasBudgetWithCap =>
    params.maxAccumulatedTxnCostPerObjectInCommit

def maxBurst : ℕ :=
  match params.mode with
  | .executionTimeEstimate estimate =>
    let burst := estimate.allowedTxnCostOverageBurstLimitUs
    if params.forRandomness then checkedMulOrMax burst estimate.randomnessScalar / 100 else burst
  | .none | .totalGasBudget | .totalTxCount | .totalGasBudgetWithCap =>
    params.allowedTxnCostOverageBurstPerObjectInCommit

def maxOverage : ℕ :=
  match params.mode with
  | .executionTimeEstimate _ => u64Max
  | .none | .totalGasBudget | .totalTxCount | .totalGasBudgetWithCap =>
    params.maxTxnCostOveragePerObjectInCommit

/-- Up to where a transaction may start. -/
def burstLimit : ℕ := saturatingAdd (params.commitBudget commitInfo) params.maxBurst

/-- Up to where a transaction may end. -/
def absoluteLimit : ℕ := saturatingAdd (params.commitBudget commitInfo) params.maxOverage

end CongestionParams

/-! ## The tracker -/

/-- What the tracker reads of a user transaction. -/
structure CongestionTransaction where
  digest : TransactionDigest
  /-- Whether it came as a `CertifiedTransaction`, and not as a `UserTransaction`. -/
  certified : Bool
  gasBudget : ℕ
  /-- For each Move call, the number of its arguments that are inputs. -/
  moveCallInputs : List ℕ
  /-- What `ExecutionTimeEstimator::get_estimate` gives, in microseconds. -/
  estimate : ℕ
  sharedInputObjects : List SharedInputObject
  deriving DecidableEq

structure SharedObjectCongestionTracker where
  objectExecutionCost : OrdMap ObjectID ℕ
  params : CongestionParams

namespace SharedObjectCongestionTracker

/-- The budget has to be set if the mode is not `None`. -/
def budgetInCommit (mode : PerObjectCongestionControlMode)
    (maxAccumulatedTxnCostPerObjectInCommit : Option ℕ) : Except TrackerPanic ℕ :=
  if mode = .none then pure 0 else require maxAccumulatedTxnCostPerObjectInCommit .budgetNotSet

def new (initialObjectDebts : List (ObjectID × ℕ)) (mode : PerObjectCongestionControlMode)
    (forRandomness : Bool) (maxAccumulatedTxnCostPerObjectInCommit : Option ℕ)
    (gasBudgetBasedTxnCostCapFactor : Option ℕ)
    (gasBudgetBasedTxnCostAbsoluteCapCommitCount : Option ℕ)
    (maxTxnCostOveragePerObjectInCommit allowedTxnCostOverageBurstPerObjectInCommit : ℕ) :
    Except TrackerPanic SharedObjectCongestionTracker := do
  check (allowedTxnCostOverageBurstPerObjectInCommit ≤ maxTxnCostOveragePerObjectInCommit)
    .burstAboveOverage
  let budget ← budgetInCommit mode maxAccumulatedTxnCostPerObjectInCommit
  pure {
    objectExecutionCost := initialObjectDebts.foldl (fun m e => m.insert e.1 e.2) .empty
    params := {
      mode
      forRandomness
      maxAccumulatedTxnCostPerObjectInCommit := budget
      gasBudgetBasedTxnCostCapFactor
      gasBudgetBasedTxnCostAbsoluteCap :=
        gasBudgetBasedTxnCostAbsoluteCapCommitCount.map (· * budget)
      maxTxnCostOveragePerObjectInCommit
      allowedTxnCostOverageBurstPerObjectInCommit } }

def fromProtocolConfig (initialObjectDebts : List (ObjectID × ℕ)) (config : CongestionConfig)
    (forRandomness : Bool) : Except TrackerPanic SharedObjectCongestionTracker :=
  new initialObjectDebts config.perObjectCongestionControlMode forRandomness
    (if forRandomness then
      config.maxAccumulatedRandomnessTxnCostPerObjectInMysticetiCommit.or
        config.maxAccumulatedTxnCostPerObjectInMysticetiCommit
    else config.maxAccumulatedTxnCostPerObjectInMysticetiCommit)
    config.gasBudgetBasedTxnCostCapFactor config.gasBudgetBasedTxnCostAbsoluteCapCommitCount
    config.overage config.burst

variable (tracker : SharedObjectCongestionTracker)

def costOf (object : ObjectID) : ℕ := (tracker.objectExecutionCost.get? object).getD 0

/-- `none` where there is no object, which `expect` excludes. -/
def computeTxStartAtCost (sharedInputObjects : List SharedInputObject) : Option ℕ :=
  (sharedInputObjects.map fun obj => tracker.costOf obj.id).max?

def getTxCostCap (cert : CongestionTransaction) :
    Except TrackerPanic ℕ := do
  let factor ← require tracker.params.gasBudgetBasedTxnCostCapFactor .capFactorNotSet
  pure (min ((cert.moveCallInputs.length + cert.moveCallInputs.sum) * factor)
    (tracker.params.gasBudgetBasedTxnCostAbsoluteCap.getD u64Max))

def getTxCost (cert : CongestionTransaction) : Except TrackerPanic (Option ℕ) :=
  match tracker.params.mode with
  | .none => pure none
  | .totalGasBudget => pure (some cert.gasBudget)
  | .totalTxCount => pure (some 1)
  | .totalGasBudgetWithCap => do
    let cap ← tracker.getTxCostCap cert
    pure (some (min cert.gasBudget cap))
  | .executionTimeEstimate _ => pure (some cert.estimate)

/-- The deferral key, and the objects on the critical path. -/
def shouldDeferDueToObjectCongestion (txCost : Option ℕ)
    (cert : CongestionTransaction) (previouslyDeferred : OrdMap TransactionDigest DeferralKey)
    (commitInfo : CongestionCommitInfo) :
    Except TrackerPanic (Option (DeferralKey × List ObjectID)) :=
  match txCost with
  | none => pure none
  | some txCost =>
    if cert.sharedInputObjects = [] then pure none
    else do
      let startCost ← require (tracker.computeTxStartAtCost cert.sharedInputObjects)
        .noSharedInputObjects
      let endCost := saturatingAdd startCost txCost
      if startCost ≤ tracker.params.burstLimit commitInfo ∧
          endCost ≤ tracker.params.absoluteLimit commitInfo then
        pure none
      else
        let congested := (cert.sharedInputObjects.map SharedInputObject.id).filter fun id =>
          startCost = tracker.costOf id
        check (congested ≠ []) .noCongestedObjects
        let deferredFrom := ((previouslyDeferred.get? cert.digest).map
          DeferralKey.deferredFromRound).getD commitInfo.round
        pure (some (.consensusRound (commitInfo.round + 1) deferredFrom, congested))

/-- The cost of an object that is mutated. -/
def raiseCost (endCost : ℕ) (costs : OrdMap ObjectID ℕ) (obj : SharedInputObject) :
    Except TrackerPanic (OrdMap ObjectID ℕ) :=
  if obj.mutable then do
    check (∀ old ∈ costs.get? obj.id, old ≤ endCost) (.costDecreased obj.id)
    pure (costs.insert obj.id endCost)
  else pure costs

def bumpObjectExecutionCost (txCost : Option ℕ)
    (cert : CongestionTransaction) : Except TrackerPanic SharedObjectCongestionTracker :=
  if cert.sharedInputObjects = [] then pure tracker
  else
    match txCost with
    | none => pure tracker
    | some txCost => do
      let startCost ← require (tracker.computeTxStartAtCost cert.sharedInputObjects)
        .noSharedInputObjects
      let costs ← cert.sharedInputObjects.foldlM (raiseCost (saturatingAdd startCost txCost))
        tracker.objectExecutionCost
      pure { tracker with objectExecutionCost := costs }

def accumulatedDebts (commitInfo : CongestionCommitInfo) : List (ObjectID × ℕ) :=
  if tracker.params.maxOverage = 0 then []
  else tracker.objectExecutionCost.entries.filterMap fun e =>
    let remaining := e.2 - tracker.params.commitBudget commitInfo
    if 0 < remaining then some (e.1, remaining) else none

end SharedObjectCongestionTracker

/-! ## Scheduling a transaction -/

def CongestionTransaction.mutates (cert : CongestionTransaction) (object : ObjectID) : Bool :=
  cert.sharedInputObjects.any fun obj => obj.mutable && obj.id == object

namespace SharedObjectCongestionTracker

variable {tracker : SharedObjectCongestionTracker} {cert : CongestionTransaction} {startCost : ℕ}

theorem computeTxStartAtCost_isSome (tracker : SharedObjectCongestionTracker)
    (h : cert.sharedInputObjects ≠ []) :
    ∃ startCost, tracker.computeTxStartAtCost cert.sharedInputObjects = some startCost := by
  unfold computeTxStartAtCost
  cases hmax : (cert.sharedInputObjects.map fun obj => tracker.costOf obj.id).max? with
  | none => exact absurd (map_eq_nil_iff.1 (max?_eq_none_iff.1 hmax)) h
  | some startCost => exact ⟨startCost, rfl⟩

/-- A transaction starts at the highest cost of its inputs. -/
theorem computeTxStartAtCost_eq_some
    (h : tracker.computeTxStartAtCost cert.sharedInputObjects = some startCost) :
    (∃ obj ∈ cert.sharedInputObjects, tracker.costOf obj.id = startCost) ∧
      ∀ obj ∈ cert.sharedInputObjects, tracker.costOf obj.id ≤ startCost := by
  obtain ⟨hmem, hmax⟩ := max?_eq_some_iff.1 h
  exact ⟨mem_map.1 hmem, fun obj hobj => hmax _ (mem_map_of_mem hobj)⟩

theorem foldlM_raiseCost {endCost : ℕ} {costs : OrdMap ObjectID ℕ}
    {objects : List SharedInputObject}
    (h : ∀ obj ∈ objects, ∀ old ∈ costs.get? obj.id, old ≤ endCost) :
    ∃ costs', objects.foldlM (raiseCost endCost) costs = .ok costs' ∧ ∀ object, costs'.get? object =
        if objects.any (fun obj => obj.mutable && obj.id == object) then some endCost
        else costs.get? object := by
  induction objects generalizing costs with
  | nil => exact ⟨costs, rfl, fun _ => rfl⟩
  | cons obj objects ih =>
    rw [foldlM_cons]
    cases hmut : obj.mutable with
    | false =>
      obtain ⟨costs', hrun, hget⟩ := ih fun o ho => h o (mem_cons_of_mem _ ho)
      refine ⟨costs', ?_, fun object => ?_⟩
      · rw [raiseCost, hmut]
        exact hrun
      · rw [hget, any_cons, hmut, Bool.false_and, Bool.false_or]
    | true =>
      have hr : ∀ o ∈ objects, ∀ old ∈ (costs.insert obj.id endCost).get? o.id, old ≤ endCost := by
        intro o ho old hold
        rcases OrdMap.get?_insert_eq_some.1 hold with ⟨_, rfl⟩ | ⟨_, hold⟩
        · exact le_rfl
        · exact h o (mem_cons_of_mem _ ho) old hold
      obtain ⟨costs', hrun, hget⟩ := ih hr
      refine ⟨costs', ?_, fun object => ?_⟩
      · rw [raiseCost, hmut, check_of (h obj mem_cons_self)]
        exact hrun
      · rw [hget, any_cons, hmut, OrdMap.get?_insert]
        by_cases hob : object = obj.id
        · simp [hob]
        · simp [hob, Ne.symm hob]

/-- **Scheduling a transaction** raises the cost of what it mutates to its end, and nothing else;
the assertion that costs do not decrease holds. -/
theorem bumpObjectExecutionCost_ok (txCost : ℕ) (hinp : cert.sharedInputObjects ≠ [])
    (hs : tracker.computeTxStartAtCost cert.sharedInputObjects = some startCost)
    (hmax : startCost ≤ u64Max) :
    ∃ tr', tracker.bumpObjectExecutionCost (some txCost) cert = .ok tr' ∧
      tr'.params = tracker.params ∧
      ∀ object, tr'.costOf object =
        if cert.mutates object then saturatingAdd startCost txCost else tracker.costOf object := by
  obtain ⟨_, hle⟩ := computeTxStartAtCost_eq_some hs
  have hold : ∀ obj ∈ cert.sharedInputObjects,
      ∀ old ∈ tracker.objectExecutionCost.get? obj.id, old ≤ saturatingAdd startCost txCost := by
    intro obj hobj old hold
    have hc : tracker.costOf obj.id = old := by rw [costOf, Option.mem_def.1 hold]; rfl
    have hobj := hle obj hobj
    unfold saturatingAdd
    omega
  obtain ⟨costs, hrun, hget⟩ := foldlM_raiseCost hold
  refine ⟨{ tracker with objectExecutionCost := costs }, ?_, rfl, fun object => ?_⟩
  · rw [bumpObjectExecutionCost, if_neg hinp]
    rw [hs, require, ok_bind, hrun]
    rfl
  · rw [costOf, hget]
    unfold CongestionTransaction.mutates
    split <;> rfl

/-- **A transaction that is not deferred** starts within the burst limit, and ends within the
absolute one. -/
theorem limits_of_not_deferred {txCost : ℕ} {prev : OrdMap TransactionDigest DeferralKey}
    {commitInfo : CongestionCommitInfo} (hinp : cert.sharedInputObjects ≠ [])
    (hs : tracker.computeTxStartAtCost cert.sharedInputObjects = some startCost)
    (h : tracker.shouldDeferDueToObjectCongestion (some txCost) cert prev commitInfo = .ok none) :
    startCost ≤ tracker.params.burstLimit commitInfo ∧
      saturatingAdd startCost txCost ≤ tracker.params.absoluteLimit commitInfo := by
  simp only [shouldDeferDueToObjectCongestion, if_neg hinp, hs, require, ok_bind] at h
  split at h
  · assumption
  · obtain ⟨_, _, h⟩ := bind_ok.1 h
    cases h

variable (tracker cert) in
theorem shouldDefer_ok (txCost : Option ℕ) (prev : OrdMap TransactionDigest DeferralKey)
    (commitInfo : CongestionCommitInfo) :
    ∃ deferral, tracker.shouldDeferDueToObjectCongestion txCost cert prev commitInfo =
      .ok deferral := by
  unfold shouldDeferDueToObjectCongestion
  cases txCost with
  | none => exact ⟨none, rfl⟩
  | some txCost =>
    by_cases hinp : cert.sharedInputObjects = []
    · exact ⟨none, if_pos hinp⟩
    · obtain ⟨startCost, hs⟩ := computeTxStartAtCost_isSome tracker hinp
      obtain ⟨obj, hobj, hco⟩ := (computeTxStartAtCost_eq_some hs).1
      have hc : (cert.sharedInputObjects.map SharedInputObject.id).filter
          (fun id => startCost = tracker.costOf id) ≠ [] := by
        refine ne_nil_of_mem (mem_filter.2 ⟨mem_map_of_mem hobj, ?_⟩)
        exact decide_eq_true hco.symm
      simp only [if_neg hinp, hs, require, ok_bind]
      split
      · exact ⟨none, rfl⟩
      · rw [check_of hc]
        exact ⟨_, rfl⟩

end SharedObjectCongestionTracker

/-! ## The debts of a commit -/

/-- The budget that `load_initial_object_debts` takes off for each round between. -/
def CongestionConfig.perCommitBudget (config : CongestionConfig) (forRandomness : Bool) : ℕ :=
  let default := config.maxAccumulatedTxnCostPerObjectInMysticetiCommit.getD 0
  if forRandomness then
    config.maxAccumulatedRandomnessTxnCostPerObjectInMysticetiCommit.getD default
  else default

/-- The budget of a commit by its config: none without congestion control, a share of the commit
period with estimated execution times, and otherwise a constant. -/
def CongestionConfig.budgetOfCommit (config : CongestionConfig) (forRandomness : Bool)
    (commitInfo : CongestionCommitInfo) : ℕ :=
  match config.perObjectCongestionControlMode with
  | .none => 0
  | .executionTimeEstimate estimate =>
    let budget := checkedMulOrMax commitInfo.estimatedCommitPeriod estimate.targetUtilization / 100
    if forRandomness then checkedMulOrMax budget estimate.randomnessScalar / 100 else budget
  | .totalGasBudget | .totalTxCount | .totalGasBudgetWithCap =>
    config.perCommitBudget forRandomness

/-- The shared inputs that debts are loaded for: only those of certified transactions. -/
def sharedInputObjectIds (transactions : List CongestionTransaction) : List ObjectID :=
  (((transactions.filter (·.certified)).flatMap fun tx =>
    tx.sharedInputObjects.map SharedInputObject.id).insertionSort (· ≤ ·)).dedup

/-- What was recorded last for an object, in the quarantine or else in the database. -/
def ConsensusOutputQuarantine.recordedDebt (q : ConsensusOutputQuarantine) (tables : EpochTables)
    (forRandomness : Bool) (object : ObjectID) : Option CongestionPerObjectDebt :=
  if forRandomness then
    (q.congestionControlRandomnessObjectDebts.get object).or
      (tables.congestionControlRandomnessObjectDebts.get? object)
  else
    (q.congestionControlObjectDebts.get object).or (tables.congestionControlObjectDebts.get? object)

/-- The tracker that a commit starts with. -/
def commitTracker (config : CongestionConfig) (q : ConsensusOutputQuarantine) (tables : EpochTables)
    (commitInfo : CongestionCommitInfo) (forRandomness : Bool)
    (transactions : List CongestionTransaction) :
    Except TrackerPanic SharedObjectCongestionTracker := do
  let debts ← (q.loadInitialObjectDebts tables commitInfo.round
    (config.perCommitBudget forRandomness) forRandomness
    (sharedInputObjectIds transactions)).mapError .quarantine
  SharedObjectCongestionTracker.fromProtocolConfig debts config forRandomness

namespace CongestionPerObjectDebt

/-- What is left of a debt at a round, with a budget for each round between. -/
def owedAt (debt : CongestionPerObjectDebt) (budget round : ℕ) : ℕ :=
  debt.debt - budget * (round - debt.round - 1)

end CongestionPerObjectDebt

section Loading

variable {config : CongestionConfig} {q : ConsensusOutputQuarantine} {tables : EpochTables}
  {commitInfo : CongestionCommitInfo} {forRandomness : Bool}
  {transactions : List CongestionTransaction} {tracker : SharedObjectCongestionTracker}

theorem mem_sharedInputObjectIds {object : ObjectID} : object ∈ sharedInputObjectIds transactions ↔
      ∃ tx ∈ transactions, tx.certified = true ∧
        ∃ obj ∈ tx.sharedInputObjects, obj.id = object := by
  simp only [sharedInputObjectIds, mem_dedup, mem_insertionSort, mem_flatMap, mem_filter, mem_map]
  constructor
  · rintro ⟨tx, ⟨htx, hc⟩, obj, hobj, rfl⟩
    exact ⟨tx, htx, hc, obj, hobj, rfl⟩
  · rintro ⟨tx, htx, hc, obj, hobj, rfl⟩
    exact ⟨tx, ⟨htx, hc⟩, obj, hobj, rfl⟩

variable {debts : List (ObjectID × ℕ)}

/-- **What is loaded**: for each object the recorded debt, less the budgets since. -/
theorem loadInitialObjectDebts_ok {round budget : ℕ} {objects : List ObjectID}
    (h : q.loadInitialObjectDebts tables round budget forRandomness objects = .ok debts) :
    (∀ o ∈ objects, ∀ debt ∈ q.recordedDebt tables forRandomness o, debt.round < round) ∧
    debts = objects.filterMap fun o =>
      (q.recordedDebt tables forRandomness o).map fun debt =>
        (o, debt.owedAt budget round) := by
  have hl : q.loadInitialObjectDebts tables round budget forRandomness objects =
      (objects.filterMap fun o => (q.recordedDebt tables forRandomness o).map
        (o, ·)).mapM (fun e => do
          check (e.2.round < round) (QuarantinePanic.staleDebt e.1)
          pure (e.1, e.2.owedAt budget round)) := by
    unfold ConsensusOutputQuarantine.loadInitialObjectDebts ConsensusOutputQuarantine.recordedDebt
    cases forRandomness <;> rfl
  rw [hl] at h
  have hr := mapM_forall
    (fun e b he => by
      obtain ⟨_, hc, _⟩ := bind_ok.1 he
      exact check_ok.1 hc) h
  refine ⟨fun o ho debt hd => ?_, ?_⟩
  · exact hr (o, debt) (mem_filterMap.2 ⟨o, ho, by
      rw [Option.mem_def.1 hd]; rfl⟩)
  · rw [mapM_ok (fun e he => by rw [check_of (hr e he)]; rfl)] at h
    rw [← Except.ok.inj h, map_filterMap]
    refine filterMap_congr fun o _ => ?_
    cases q.recordedDebt tables forRandomness o <;> rfl

theorem budgetInCommit_ok {budget : ℕ} (hm : config.perObjectCongestionControlMode ≠ .none)
    (h : SharedObjectCongestionTracker.budgetInCommit config.perObjectCongestionControlMode
      (if forRandomness then
        config.maxAccumulatedRandomnessTxnCostPerObjectInMysticetiCommit.or
          config.maxAccumulatedTxnCostPerObjectInMysticetiCommit
      else config.maxAccumulatedTxnCostPerObjectInMysticetiCommit) = .ok budget) :
    budget = config.perCommitBudget forRandomness := by
  rw [SharedObjectCongestionTracker.budgetInCommit, if_neg hm, require_ok] at h
  unfold CongestionConfig.perCommitBudget
  cases forRandomness with
  | false =>
    rw [if_neg (by decide)] at h
    simp [h]
  | true =>
    rw [if_pos rfl] at h
    cases hr : config.maxAccumulatedRandomnessTxnCostPerObjectInMysticetiCommit with
    | none =>
      rw [hr, Option.none_or] at h
      simp [h]
    | some value =>
      rw [hr] at h
      simpa using (Option.some.inj h).symm

theorem fromProtocolConfig_ok
    (h : SharedObjectCongestionTracker.fromProtocolConfig debts config forRandomness =
      .ok tracker) :
    tracker.objectExecutionCost = debts.foldl (fun m e => m.insert e.1 e.2) .empty ∧
    tracker.params.mode = config.perObjectCongestionControlMode ∧
    tracker.params.forRandomness = forRandomness ∧
    (∀ commitInfo, tracker.params.commitBudget commitInfo =
      config.budgetOfCommit forRandomness commitInfo) ∧
    tracker.params.maxTxnCostOveragePerObjectInCommit = config.overage ∧
    tracker.params.allowedTxnCostOverageBurstPerObjectInCommit = config.burst := by
  obtain ⟨_, _, h⟩ := bind_ok.1 h
  obtain ⟨budget, hb, h⟩ := bind_ok.1 h
  cases h
  refine ⟨rfl, rfl, rfl, fun commitInfo => ?_, rfl, rfl⟩
  unfold CongestionParams.commitBudget CongestionConfig.budgetOfCommit
  cases hm : config.perObjectCongestionControlMode with
  | none =>
    rw [hm] at hb
    exact (Except.ok.inj hb).symm
  | executionTimeEstimate estimate => rfl
  | totalGasBudget | totalTxCount | totalGasBudgetWithCap =>
    exact budgetInCommit_ok (by rw [hm]; exact nofun) hb

theorem get?_foldl_filterMap (objects : List ObjectID) (value : ObjectID → Option ℕ)
    (o : ObjectID) :
    ((objects.filterMap fun id => (value id).map (id, ·)).foldl (fun m e => m.insert e.1 e.2)
      (.empty : OrdMap ObjectID ℕ)).get? o =
      if o ∈ objects then value o else none := by
  refine OrdMap.get?_foldl_insert_empty fun v => ?_
  simp only [mem_filterMap, Option.map_eq_some_iff]
  constructor
  · intro hv
    split at hv
    · exact ⟨(o, v), ⟨o, by assumption, v, hv, rfl⟩, rfl, rfl⟩
    · cases hv
  · rintro ⟨_, ⟨id, hid, v, hv, rfl⟩, rfl, rfl⟩
    rw [if_pos hid, hv]

section

variable (h : commitTracker config q tables commitInfo forRandomness transactions = .ok tracker)
include h

/-- **What a commit starts with.** -/
theorem costOf_commitTracker (o : ObjectID) :
    tracker.costOf o =
      if o ∈ sharedInputObjectIds transactions then
        ((q.recordedDebt tables forRandomness o).map fun debt =>
          debt.owedAt (config.perCommitBudget forRandomness) commitInfo.round).getD 0
      else 0 := by
  obtain ⟨debts, hd, h⟩ := bind_ok.1 h
  obtain ⟨_, rfl⟩ := loadInitialObjectDebts_ok (mapError_ok.1 hd)
  obtain ⟨hc, _⟩ := fromProtocolConfig_ok h
  have hget := get?_foldl_filterMap (sharedInputObjectIds transactions)
    (fun id => (q.recordedDebt tables forRandomness id).map fun debt =>
      debt.owedAt (config.perCommitBudget forRandomness) commitInfo.round) o
  simp only [Option.map_map, Function.comp_def] at hget
  rw [SharedObjectCongestionTracker.costOf, hc, hget]
  split <;> rfl

theorem commitBudget_commitTracker :
    tracker.params.commitBudget commitInfo = config.budgetOfCommit forRandomness commitInfo := by
  obtain ⟨_, _, h⟩ := bind_ok.1 h
  obtain ⟨_, _, _, hb, _⟩ := fromProtocolConfig_ok h
  exact hb commitInfo

end

variable (q tables commitInfo forRandomness tracker) in
/-- The tracker charges an object what is left of its recorded debt by the tracker's own budget. -/
def Charged (object : ObjectID) : Prop :=
  tracker.costOf object = ((q.recordedDebt tables forRandomness object).map fun debt =>
    debt.owedAt (tracker.params.commitBudget commitInfo) commitInfo.round).getD 0
  deriving Decidable

/-- Two budgets leave the same of a debt: there was no round between, or they are the same, or both
have worked off the debt. -/
theorem owedAt_eq_iff {debt : CongestionPerObjectDebt} {b b' round : ℕ} :
    debt.owedAt b round = debt.owedAt b' round ↔ round - debt.round - 1 = 0 ∨ b = b' ∨
        debt.debt ≤ b * (round - debt.round - 1) ∧ debt.debt ≤ b' * (round - debt.round - 1) := by
  unfold CongestionPerObjectDebt.owedAt
  generalize round - debt.round - 1 = n
  have hmul : b * n = b' * n ↔ n = 0 ∨ b = b' := by
    rw [mul_eq_mul_right_iff, or_comm]
  constructor
  · intro h
    by_cases hle : debt.debt ≤ b * n ∧ debt.debt ≤ b' * n
    · exact .inr (.inr hle)
    · exact (hmul.1 (by omega)).imp_right .inl
  · rintro (h | h | h)
    · rw [hmul.2 (.inl h)]
    · rw [h]
    · omega

/-- **When debts are charged.** The debts of all inputs of a commit's transactions are charged
exactly if, for each of them with a recorded debt: a certified transaction of the commit has it as
an input and the budget that is taken off is that of the tracker, or makes no difference; or the
tracker's budget has worked off the debt. -/
theorem debts_charged_iff
    (h : commitTracker config q tables commitInfo forRandomness transactions = .ok tracker) :
    (∀ tx ∈ transactions, ∀ obj ∈ tx.sharedInputObjects,
      Charged q tables commitInfo forRandomness tracker obj.id) ↔
    ∀ tx ∈ transactions, ∀ obj ∈ tx.sharedInputObjects,
      ∀ debt ∈ q.recordedDebt tables forRandomness obj.id,
        if ∃ tx' ∈ transactions, tx'.certified = true ∧
            ∃ obj' ∈ tx'.sharedInputObjects, obj'.id = obj.id then
          commitInfo.round - debt.round - 1 = 0 ∨
          config.perCommitBudget forRandomness = config.budgetOfCommit forRandomness commitInfo ∨
          debt.debt ≤ config.perCommitBudget forRandomness * (commitInfo.round - debt.round - 1) ∧
            debt.debt ≤ config.budgetOfCommit forRandomness commitInfo *
              (commitInfo.round - debt.round - 1)
        else debt.debt ≤ config.budgetOfCommit forRandomness commitInfo *
          (commitInfo.round - debt.round - 1) := by
  refine forall₂_congr fun tx _ => forall₂_congr fun obj _ => ?_
  unfold Charged
  rw [costOf_commitTracker h, commitBudget_commitTracker h]
  simp only [mem_sharedInputObjectIds]
  cases q.recordedDebt tables forRandomness obj.id with
  | none => simp
  | some debt =>
    simp only [Option.map_some, Option.getD_some, Option.mem_def, Option.some.injEq, forall_eq']
    split
    · exact owedAt_eq_iff
    · rw [CongestionPerObjectDebt.owedAt, eq_comm, Nat.sub_eq_zero_iff_le]

end Loading

/-! ## Sample commits -/

namespace CongestionSample

def config (mode : PerObjectCongestionControlMode) : CongestionConfig :=
  ⟨mode, some 100, none, none, none, some 1000, some 500⟩

/-- Ten microseconds of each commit. -/
def estimated : PerObjectCongestionControlMode := .executionTimeEstimate ⟨100, 0, 100⟩

/-- Round 5 has left a debt of 300 on object 1. -/
def tables : EpochTables :=
  ⟨.empty, .empty, OrdMap.empty.insert 1 ⟨5, 300⟩, .empty, .empty, .empty, []⟩

def tx (digest : TransactionDigest) (certified : Bool) (cost : ℕ) : CongestionTransaction :=
  ⟨digest, certified, cost, [], cost, [⟨1, 1, true⟩]⟩

def start (mode : PerObjectCongestionControlMode) (round : ℕ) (certified : Bool) :
    Except TrackerPanic SharedObjectCongestionTracker :=
  commitTracker (config mode) (.new 0) tables ⟨round, 10⟩ false [tx 7 certified 50]

end CongestionSample

open CongestionSample in
/-- A certified transaction three rounds later is charged the debt less two budgets. -/
theorem debts_charged_iff_sample : ∃ tracker,
    start .totalGasBudget 8 true = .ok tracker ∧ tracker.costOf 1 = 100 ∧
      ∀ t ∈ [tx 7 true 50], ∀ obj ∈ t.sharedInputObjects,
        Charged (.new 0) tables ⟨8, 10⟩ false tracker obj.id := by
  have hs : ∃ tracker, start .totalGasBudget 8 true = .ok tracker ∧
      tracker.costOf 1 = 100 := by decide +kernel
  obtain ⟨tracker, ht, hc⟩ := hs
  exact ⟨tracker, ht, hc, (debts_charged_iff ht).2 (by decide +kernel)⟩

open CongestionSample in
/-- In the next round a transaction that is certified by consensus starts at 0 on an object with a
debt of 300. With estimated execution times two budgets of 100 are taken off a debt three rounds
later, although the budget of a commit is 10. -/
theorem debts_not_charged : (∃ tracker, start .totalGasBudget 6 false = .ok tracker ∧
      tracker.computeTxStartAtCost (tx 7 false 50).sharedInputObjects = some 0 ∧
      ¬ Charged (.new 0) tables ⟨6, 10⟩ false tracker 1) ∧
    ∃ tracker, start estimated 8 true = .ok tracker ∧ tracker.params.commitBudget ⟨8, 10⟩ = 10 ∧
      tracker.computeTxStartAtCost (tx 7 true 50).sharedInputObjects = some 100 ∧
      ¬ Charged (.new 0) tables ⟨8, 10⟩ false tracker 1 := by
  decide +kernel

end OneChain.Authority
