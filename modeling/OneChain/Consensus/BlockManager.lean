import OneChain.Consensus.DagState

/-!
# The block manager

`block_manager.rs`: incoming blocks are suspended until their ancestors above the GC round are in
the DAG state. A block that gets its last missing ancestor is unsuspended, and then its children
are looked at. Blocks of certified commits are accepted without a look at their ancestors. When the
GC round has advanced, nothing at or below it is waited for any more.

Metrics, `received_block_rounds` and the time of a suspension are left out.
-/

namespace OneChain.Consensus

open Lib

variable {n : ℕ} {C : Committee n}

structure SuspendedBlock (n : ℕ) where
  block : Block n
  missingAncestors : OrdSet (BlockRef n)

/-- The panics of the block manager, and those of the DAG state that it calls. -/
inductive ManagerPanic (n : ℕ)
  | dagState (panic : Panic n)
  | notInSuspendedMap (r : BlockRef n)
  | notInMissingDependencies (r dependency : BlockRef n)
  | committedBlockNotAccepted (r : BlockRef n)
  | missingForCommittedBlocks
  | missingAncestorSuspended (r : BlockRef n)
  /-- A loop of the model was given too little fuel; no run of the code ends like this. -/
  | outOfFuel
  deriving DecidableEq

inductive TryAcceptResult (n : ℕ)
  | accepted (block : Block n)
  | suspended (ancestorsToFetch : OrdSet (BlockRef n))
  | processed
  | skipped

structure BlockManager (C : Committee n) where
  dagState : DagState C
  suspendedBlocks : OrdMap (BlockRef n) (SuspendedBlock n)
  missingAncestors : OrdMap (BlockRef n) (OrdSet (BlockRef n))
  missingBlocks : OrdSet (BlockRef n)

namespace BlockManager

def new (dagState : DagState C) : BlockManager C := ⟨dagState, .empty, .empty, .empty⟩

/-- `accept_blocks` on the shared DAG state. -/
def acceptBlocks (m : BlockManager C) (blocks : List (Block n)) :
    Except (ManagerPanic n) (BlockManager C) :=
  match m.dagState.acceptBlocks blocks with
  | .ok dagState => .ok { m with dagState }
  | .error panic => .error (.dagState panic)

/-! ## Unsuspending -/

variable (m : BlockManager C)

/-- Takes the dependency off the block, and the block out of the map if it was the last one. -/
def tryUnsuspendBlock (r acceptedDependency : BlockRef n) :
    Except (ManagerPanic n) (BlockManager C × Option (SuspendedBlock n)) := do
  let block ← require (m.suspendedBlocks.get? r) (.notInSuspendedMap r)
  check (acceptedDependency ∈ block.missingAncestors)
    (.notInMissingDependencies r acceptedDependency)
  let block := { block with missingAncestors := block.missingAncestors.erase acceptedDependency }
  if block.missingAncestors.entries = [] then
    pure ({ m with suspendedBlocks := m.suspendedBlocks.erase r }, some block)
  else pure ({ m with suspendedBlocks := m.suspendedBlocks.insert r block }, none)

/-- One block that waits for `dependency`. -/
def tryUnsuspendChild (dependency : BlockRef n) (state : BlockManager C × List (SuspendedBlock n))
    (r : BlockRef n) : Except (ManagerPanic n) (BlockManager C × List (SuspendedBlock n)) := do
  let tried ← state.1.tryUnsuspendBlock r dependency
  pure (tried.1, state.2 ++ tried.2.toList)

/-- The loop over the references to process; the one that was pushed last comes first. -/
def unsuspendLoop : ℕ → BlockManager C → List (BlockRef n) → List (SuspendedBlock n) →
      Except (ManagerPanic n) (BlockManager C × List (SuspendedBlock n))
  | 0, _, _, _ => .error .outOfFuel
  | _ + 1, m, [], unsuspendedBlocks => .ok (m, unsuspendedBlocks)
  | fuel + 1, m, r :: toProcess, unsuspendedBlocks =>
    match m.missingAncestors.get? r with
    | none => unsuspendLoop fuel m toProcess unsuspendedBlocks
    | some children => do
      let m := { m with missingAncestors := m.missingAncestors.erase r }
      let tried ← children.keys.foldlM (tryUnsuspendChild r) (m, [])
      unsuspendLoop fuel tried.1
        ((tried.2.map fun block => block.block.reference).reverse ++ toProcess)
        (unsuspendedBlocks ++ tried.2)

/-- The blocks that have no missing ancestor left once `acceptedBlock` is not missing any more. -/
def tryUnsuspendChildrenBlocks (acceptedBlock : BlockRef n) :
    Except (ManagerPanic n) (BlockManager C × List (Block n)) := do
  let unsuspended ← unsuspendLoop (m.suspendedBlocks.entries.length + 2) m [acceptedBlock] []
  pure (unsuspended.1, unsuspended.2.map SuspendedBlock.block)

/-! ## Accepting one block -/

/-- An ancestor that was not found; the sets are the missing ancestors of the block and those of
them to fetch. -/
def addMissingAncestor (blockRef : BlockRef n)
    (state : BlockManager C × OrdSet (BlockRef n) × OrdSet (BlockRef n)) (ancestor : BlockRef n) :
    BlockManager C × OrdSet (BlockRef n) × OrdSet (BlockRef n) :=
  let m := state.1
  let m := { m with
    missingAncestors := m.missingAncestors.insert ancestor
      (((m.missingAncestors.get? ancestor).getD .empty).insert blockRef ()) }
  let missingAncestors := state.2.1.insert ancestor ()
  if ancestor ∈ m.suspendedBlocks then (m, missingAncestors, state.2.2)
  else
    ({ m with missingBlocks := m.missingBlocks.insert ancestor () }, missingAncestors,
      state.2.2.insert ancestor ())

/-- The ancestors whose existence is checked and that are not found. -/
def ancestorsNotFound (block : Block n) : List (BlockRef n) :=
  (block.ancestors.filter fun ancestor =>
    ancestor.round = genesisRound ∨ m.dagState.gcRound < ancestor.round).filter fun ancestor =>
      ¬ m.dagState.containsBlock ancestor

/-- The block is not missing any more. -/
def removeMissing (r : BlockRef n) : BlockManager C :=
  { m with missingBlocks := m.missingBlocks.erase r }

def suspend (block : Block n) (missingAncestors : OrdSet (BlockRef n)) : BlockManager C :=
  { m with
    suspendedBlocks := m.suspendedBlocks.insert block.reference ⟨block, missingAncestors⟩ }

def tryAcceptOneBlock (block : Block n) : BlockManager C × TryAcceptResult n :=
  if block.reference ∈ m.suspendedBlocks ∨ m.dagState.containsBlock block.reference then
    (m, .processed)
  else if block.round ≤ m.dagState.gcRound then (m, .skipped)
  else
    let scanned := (m.ancestorsNotFound block).foldl (addMissingAncestor block.reference)
      (m, .empty, .empty)
    let m := scanned.1.removeMissing block.reference
    if scanned.2.1.entries = [] then (m, .accepted block)
    else (m.suspend block scanned.2.1, .suspended scanned.2.2)

/-- The block does not wait for the ancestor any more. -/
def removeReference (r : BlockRef n) (missingAncestors : OrdMap (BlockRef n) (OrdSet (BlockRef n)))
    (ancestor : BlockRef n) : OrdMap (BlockRef n) (OrdSet (BlockRef n)) :=
  match missingAncestors.get? ancestor with
  | some references => missingAncestors.insert ancestor (references.erase r)
  | none => missingAncestors

/-- Takes a block out of the suspended ones, with all references to it. -/
def removeSuspended (r : BlockRef n) : BlockManager C :=
  match m.suspendedBlocks.get? r with
  | some suspended => { m with
      suspendedBlocks := m.suspendedBlocks.erase r
      missingAncestors :=
        suspended.missingAncestors.keys.foldl (removeReference r) m.missingAncestors }
  | none => m

def tryAcceptOneCommittedBlock (block : Block n) :
    Except (ManagerPanic n) (BlockManager C × TryAcceptResult n) :=
  if m.dagState.containsBlock block.reference then .ok (m, .processed)
  else do
    let m := m.removeMissing block.reference
    let m ← (m.removeSuspended block.reference).acceptBlocks [block]
    pure (m, .accepted block)

/-! ## Accepting blocks -/

/-- The children of an accepted block follow it into the DAG state. -/
def acceptWithChildren (blockRef : BlockRef n) (blocksToAccept : List (Block n)) :
    Except (ManagerPanic n) (BlockManager C × List (Block n)) := do
  let unsuspended ← m.tryUnsuspendChildrenBlocks blockRef
  let m ← unsuspended.1.acceptBlocks (blocksToAccept ++ unsuspended.2)
  pure (m, blocksToAccept ++ unsuspended.2)

/-- One block of a batch; the state also has the accepted blocks and the missing ones. -/
def tryAcceptBlock (committed : Bool)
    (state : BlockManager C × List (Block n) × OrdSet (BlockRef n)) (block : Block n) :
    Except (ManagerPanic n) (BlockManager C × List (Block n) × OrdSet (BlockRef n)) :=
  if committed then do
    let tried ← state.1.tryAcceptOneCommittedBlock block
    match tried.2 with
    | .accepted accepted => do
      let children ← tried.1.acceptWithChildren block.reference []
      pure (children.1, state.2.1 ++ [accepted] ++ children.2, state.2.2)
    | .processed => pure (tried.1, state.2)
    | .suspended _ | .skipped => .error (.committedBlockNotAccepted block.reference)
  else
    let tried := state.1.tryAcceptOneBlock block
    match tried.2 with
    | .accepted accepted => do
      let children ← tried.1.acceptWithChildren block.reference [accepted]
      pure (children.1, state.2.1 ++ children.2, state.2.2)
    | .suspended ancestorsToFetch =>
      pure (tried.1, state.2.1, DagState.insertAll state.2.2 ancestorsToFetch.keys)
    | .processed | .skipped => pure (tried.1, state.2)

variable (blocks : List (Block n))

/-- The accepted blocks in the order in which they were handed to the DAG state, and the missing
ancestors. -/
def tryAcceptBlocksInternal (committed : Bool) :
    Except (ManagerPanic n) (BlockManager C × List (Block n) × OrdSet (BlockRef n)) :=
  (blocks.insertionSort fun a b => a.round ≤ b.round).foldlM (tryAcceptBlock committed)
    (m, [], .empty)

def tryAcceptBlocks :
    Except (ManagerPanic n) (BlockManager C × List (Block n) × OrdSet (BlockRef n)) :=
  m.tryAcceptBlocksInternal blocks false

def tryAcceptCommittedBlocks :
    Except (ManagerPanic n) (BlockManager C × List (Block n)) := do
  let accepted ← m.tryAcceptBlocksInternal blocks true
  check (accepted.2.2.entries = []) .missingForCommittedBlocks
  pure (accepted.1, accepted.2.1)

/-! ## Looking for blocks -/

/-- A reference that is neither in the DAG state nor suspended is reported as a missing ancestor,
even if no block waits for it. -/
def addMissingBlock (state : BlockManager C × OrdSet (BlockRef n)) (r : BlockRef n) :
    BlockManager C × OrdSet (BlockRef n) :=
  let m := state.1
  if m.dagState.containsBlock r ∨ r ∈ m.suspendedBlocks then state
  else if r ∈ m.missingBlocks then (m, state.2.insert r ())
  else
    ({ m with
      missingBlocks := m.missingBlocks.insert r ()
      missingAncestors :=
        m.missingAncestors.insert r ((m.missingAncestors.get? r).getD .empty) },
      state.2.insert r ())

def tryFindBlocks (blockRefs : List (BlockRef n)) : BlockManager C × OrdSet (BlockRef n) :=
  let blockRefs := blockRefs.filter fun r => m.dagState.gcRound < r.round
  (blockRefs.insertionSort fun a b => a.round ≤ b.round).foldl addMissingBlock (m, .empty)

/-! ## Garbage collection -/

/-- The lowest missing ancestor is given up as long as it is not above the GC round; the blocks that
were unsuspended are collected. -/
def unsuspendForGcLoop (gcRound : ℕ) : ℕ → BlockManager C → List (Block n) →
      Except (ManagerPanic n) (BlockManager C × List (Block n))
  | 0, _, _ => .error .outOfFuel
  | fuel + 1, m, unsuspendedBlocks =>
    match m.missingAncestors.first? with
    | none => .ok (m, unsuspendedBlocks)
    | some (r, _) =>
      if gcRound < r.round then .ok (m, unsuspendedBlocks)
      else do
        check (r ∉ m.suspendedBlocks) (.missingAncestorSuspended r)
        let children ← (m.removeMissing r).acceptWithChildren r []
        unsuspendForGcLoop gcRound fuel children.1 (unsuspendedBlocks ++ children.2)

def tryUnsuspendBlocksForLatestGcRound :
    Except (ManagerPanic n) (BlockManager C × List (Block n)) :=
  unsuspendForGcLoop m.dagState.gcRound (m.missingAncestors.entries.length + 1) m []

end BlockManager

end OneChain.Consensus
