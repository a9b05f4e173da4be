import OneChain.Lib.Transition
import OneChain.Consensus.Linearizer
import OneChain.Consensus.Recovery

/-!
# A validator's DAG state over time

The operations on the DAG state of one validator as a machine. The core thread accepts blocks, lets
the linearizer commit leaders, scores the new sub-dags and updates the leader schedule, in this
order; the thread of the commit finalizer records finalised commits and flushes at any time in
between. A restart builds the state again from the store.
-/

namespace OneChain.Consensus

open Lib

variable {n : ℕ} {C : Committee n}

/-- The DAG state, the sub-dags that are committed and not scored yet, and all sub-dags that the
linearizer has returned. -/
structure Node (C : Committee n) where
  dag : DagState C
  (unscored output : List (CommittedSubDag n))

inductive NodeAction (n : ℕ)
  | accept (block : Block n)
  | commit (leaders : List (Block n))
  | score
  | updateLeaderSchedule
  | finalize (commitRef : CommitRef) (rejectedTransactions : RejectedTransactions n)
  | flush
  | restart

namespace Node

def step (node : Node C) : NodeAction n → Except (Panic n) (Node C)
  | .accept block => do
    let dag ← node.dag.acceptBlock block
    pure { node with dag }
  | .commit leaders => do
    let committed ← node.dag.handleCommit leaders
    pure ⟨committed.1, node.unscored ++ committed.2, node.output ++ committed.2⟩
  | .score => do
    let dag ← node.dag.addScoringSubdags node.unscored
    pure { node with dag, unscored := [] }
  | .updateLeaderSchedule => do
    let dag ← node.dag.updateLeaderSchedule
    pure { node with dag }
  | .finalize commitRef rejectedTransactions =>
    .ok { node with dag := node.dag.addFinalizedCommit commitRef rejectedTransactions }
  | .flush => .ok { node with dag := node.dag.flush }
  | .restart => do
    let dag ← DagState.new C node.dag.context node.dag.store
    pure { node with dag, unscored := [] }

/-- A validator with an empty store. -/
def machine (C : Committee n) (protocol : Protocol n) :
    Machine (Node C) (NodeAction n) (Panic n) where
  init node := ∃ context : Context n, context.protocol = protocol ∧
    DagState.new C context .empty = .ok node.dag ∧ node.unscored = [] ∧ node.output = []
  step := step

/-- The first state in a context. -/
def start (C : Committee n) (context : Context n) : Except (Panic n) (Node C) :=
  (DagState.new C context .empty).map fun dag => ⟨dag, [], []⟩

theorem start_init (context : Context n) (node : Node C) (h : start C context = .ok node) :
    (machine C context.protocol).init node := by
  rw [start] at h
  cases hnew : DagState.new C context .empty with
  | error e =>
    rw [hnew] at h
    cases h
  | ok dag =>
    rw [hnew] at h
    cases h
    exact ⟨context, rfl, hnew, rfl, rfl⟩

end Node

end OneChain.Consensus
