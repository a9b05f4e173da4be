import OneChain.Checkpoints.CausalOrder
import OneChain.Checkpoints.CreateCheckpoints

/-!
# Resolving the transactions of checkpoints

`CheckpointBuilder::resolve_checkpoint_transactions`: the roots of the pending checkpoints that are
built together are completed by the transactions they depend on, sorted, and followed by the
settlement transactions of each pending checkpoint. A transaction is left out if it is in an earlier
checkpoint (`included`), or if it was added to this one before (`existing`).

The transactions that executed in the epoch, with their effects, are given (`EpochView`). Reads that
wait for an execution find it there; where they would wait forever the model stops with `waiting`.
Which settlement transactions are constructed depends on the accumulator events of the transactions
before, which effects do not have here. Every height is settled once in a run, so a function of the
height has every outcome. The status of their effects, checked to be a success, is left out too.
-/

namespace OneChain.Checkpoints

open Lib Authority

/-- What the builder reads of an epoch. -/
structure EpochView where
  epoch : ℕ
  (accumulatorsEnabled prependPrologue : Bool)
  /-- The executed effects, by transaction. -/
  executedEffects : OrdMap TransactionDigest TransactionEffects
  executedInCurEpoch : OrdSet TransactionDigest
  /-- The transactions of the keys that are no digests. -/
  txKeyToDigest : TransactionKey → Option TransactionDigest
  transactionKind : TransactionDigest → Option TransactionKind
  /-- The settlement transactions of a checkpoint height. -/
  settlementDigests : ℕ → List TransactionDigest

structure PendingCheckpoint where
  roots : List TransactionKey
  checkpointHeight : ℕ
  deriving DecidableEq

inductive ResolveError
  | waiting
  | effectsNotFound (digest : TransactionDigest)
  | transactionNotFound (digest : TransactionDigest)
  | noSettlementRoot
  | otherSettlementRoot
  | otherPrologue
  | prologueHasDependencies
  | outOfFuel
  deriving DecidableEq

variable (view : EpochView) (included : OrdSet TransactionDigest)

/-! ## Completing roots by their dependencies -/

/-- The variables of the loop of `complete_checkpoint_effects`. -/
structure Completion where
  (seen pending : OrdSet TransactionDigest)
  results : List TransactionEffects

/-- A dependency that executed in the epoch is looked up once. -/
def visitDependency (state : Completion) (dependency : TransactionDigest) : Completion :=
  if dependency ∈ view.executedInCurEpoch ∧ dependency ∉ state.seen then
    { state with
      seen := state.seen.insert dependency ()
      pending := state.pending.insert dependency () }
  else state

variable (existing : OrdSet TransactionDigest)

/-- The body of the inner loop, for one of the roots. -/
def visitRoot (state : Completion) (effect : TransactionEffects) : Completion :=
  let state := { state with seen := state.seen.insert effect.transactionDigest () }
  if effect.transactionDigest ∈ existing then state
  else if effect.transactionDigest ∈ included ∨ effect.executedEpoch < view.epoch then state
  else
    let state := effect.dependencies.foldl (visitDependency view) state
    { state with results := state.results ++ [effect] }

/-- The loop; every level but the last one has found a transaction of the epoch. -/
def completeLoop (existing : OrdSet TransactionDigest) :
    ℕ → OrdSet TransactionDigest → List TransactionEffects → List TransactionEffects →
    Except ResolveError (List TransactionEffects)
  | 0, _, _, _ => .error .outOfFuel
  | fuel + 1, seen, results, roots => do
    let state := roots.foldl (visitRoot view included existing) ⟨seen, .empty, results⟩
    if state.pending.keys = [] then pure state.results
    else
      let roots ← state.pending.keys.mapM fun digest =>
        require (view.executedEffects.get? digest) (.effectsNotFound digest)
      completeLoop existing fuel state.seen state.results roots

/-- `complete_checkpoint_effects`: the effects, and what is in the checkpoint then. -/
def completeCheckpointEffects (roots : List TransactionEffects) :
    Except ResolveError (List TransactionEffects × OrdSet TransactionDigest) := do
  let results ← completeLoop view included existing
    (view.executedInCurEpoch.entries.length + 1) .empty [] roots
  pure (results, results.foldl (fun m e => m.insert e.transactionDigest ()) existing)

/-! ## One pending checkpoint -/

/-- The settlement root, and the roots without it. -/
def popSettlementRoot (pending : PendingCheckpoint) :
    Except ResolveError (Option TransactionKey × List TransactionKey) :=
  if view.accumulatorsEnabled then
    match pending.roots.getLast? with
    | some (.accumulatorSettlement epoch height) =>
      pure (some (.accumulatorSettlement epoch height), pending.roots.dropLast)
    | _ => .error .noSettlementRoot
  else pure (none, pending.roots)

/-- `notify_read_tx_key_to_digest` for one key. -/
def rootDigest (key : TransactionKey) : Option TransactionDigest :=
  key.asDigest.or (view.txKeyToDigest key)

/-- `extract_consensus_commit_prologue`. -/
def extractConsensusCommitPrologue (rootDigests : List TransactionDigest)
    (rootEffects : List TransactionEffects) : Except ResolveError (Option TransactionEffects) :=
  match rootDigests, rootEffects with
  | digest :: _, effects :: _ => do
    let kind ← require (view.transactionKind digest) (.transactionNotFound digest)
    if kind = .consensusCommitPrologue then do
      check (digest = effects.transactionDigest) .otherPrologue
      pure (some effects)
    else pure none
  | _, _ => pure none

/-- The prologue, with what is in the checkpoint once it is. Nothing it depends on may be left. -/
def resolvePrologue (rootDigests : List TransactionDigest) (rootEffects : List TransactionEffects) :
    Except ResolveError (List TransactionEffects × OrdSet TransactionDigest) :=
  if view.prependPrologue then do
    match ← extractConsensusCommitPrologue view rootDigests rootEffects with
    | none => pure ([], existing)
    | some prologue =>
      let (unsorted, existing) ← completeCheckpointEffects view included existing [prologue]
      check (unsorted.map (·.transactionDigest) = [prologue.transactionDigest])
        .prologueHasDependencies
      pure ([prologue], existing)
  else pure ([], existing)

/-- `construct_and_execute_settlement_transactions`, and the check of its key. -/
def settle (settlementRoot : Option TransactionKey) (height : ℕ) :
    Except ResolveError (List TransactionEffects) :=
  match settlementRoot with
  | none => pure []
  | some root => do
    let effects ← (view.settlementDigests height).mapM fun digest =>
      require (view.executedEffects.get? digest) .waiting
    check (root = .accumulatorSettlement view.epoch height) .otherSettlementRoot
    pure effects

/-- The body of the loop over the pending checkpoints: the effects it adds, and what is in the
checkpoint then. The settlement transactions are not entered there. -/
def resolvePending (pending : PendingCheckpoint) :
    Except ResolveError (List TransactionEffects × OrdSet TransactionDigest) := do
  let (settlementRoot, roots) ← popSettlementRoot view pending
  let rootDigests ← roots.mapM fun key => require (rootDigest view key) .waiting
  let rootEffects ← rootDigests.mapM fun digest =>
    require (view.executedEffects.get? digest) .waiting
  let (prologue, existing) ← resolvePrologue view included existing rootDigests rootEffects
  let (unsorted, existing) ← completeCheckpointEffects view included existing rootEffects
  let sorted ← require (causalSort unsorted) .outOfFuel
  let settlement ← settle view settlementRoot pending.checkpointHeight
  pure (prologue ++ sorted ++ settlement, existing)

/-- The loop over the pending checkpoints. -/
def resolveLoop : List PendingCheckpoint → OrdSet TransactionDigest →
    Except ResolveError (List TransactionEffects)
  | [], _ => pure []
  | pending :: pendings, existing => do
    let (effects, existing) ← resolvePending view included existing pending
    let rest ← resolveLoop pendings existing
    pure (effects ++ rest)

/-- `resolve_checkpoint_transactions`, without the roots it returns for other uses. -/
def resolveCheckpointTransactions (pendings : List PendingCheckpoint) :
    Except ResolveError (List TransactionEffects) :=
  resolveLoop view included pendings .empty

/-! ## The builder -/

/-- What was built in an epoch: the transactions of the checkpoints one after the other, with the
record of them that the builder reads; and, as history, the pending checkpoints they came from. -/
structure BuiltContents where
  included : OrdSet TransactionDigest
  contents : List TransactionEffects
  pendings : List PendingCheckpoint

/-- `make_checkpoint` for a group of pending checkpoints. The checkpoints it creates hold the
resolved transactions in their order. -/
def makeCheckpoint (s : BuiltContents) (pendings : List PendingCheckpoint) :
    Except ResolveError BuiltContents := do
  let effects ← resolveCheckpointTransactions view s.included pendings
  pure ⟨effects.foldl (fun m e => m.insert e.transactionDigest ()) s.included,
    s.contents ++ effects, s.pendings ++ pendings⟩

end OneChain.Checkpoints
