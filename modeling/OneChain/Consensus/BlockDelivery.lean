import OneChain.Consensus.BlockManagerCalls
import OneChain.Consensus.CrashRecovery

/-!
# Blocks on their way into the DAG

The block manager of a validator over a whole run: calls of the manager in any order, and between
them whatever else the validator does with its DAG state.

* `blockManager_invariant` — in every state the maps mirror each other, each block was handed to the
  DAG state once and, unless it came with a certified commit, after its ancestors above the GC
  round; and no call stops at an assertion of the manager.
* `committedBlock_before_ancestor` — blocks of certified commits are handed over without a look at
  their ancestors.
* `delivery_confluent` — without garbage collection, what is accepted and what is missing depends
  only on the set of blocks that were delivered.
-/

namespace OneChain.Consensus

open Lib List DagState Node OrdMap

variable {n : ℕ} {C : Committee n} {U : VerifiedBlocks C} {context : Context n}

/-! ## The machine -/

inductive ManagerCall (n : ℕ)
  | tryAcceptBlocks (blocks : List (Block n))
  | tryAcceptCommittedBlocks (blocks : List (Block n))
  | tryFindBlocks (blockRefs : List (BlockRef n))
  | tryUnsuspendBlocksForLatestGcRound

/-- What the rest of a validator does with the DAG state. -/
inductive DagCall (n : ℕ)
  | handleCommit (leaders : List (Block n))
  | addScoringSubdags (subdags : List (CommittedSubDag n))
  | updateLeaderSchedule
  | addFinalizedCommit (commitRef : CommitRef) (rejectedTransactions : RejectedTransactions n)
  | linkCausalHistory (rootBlock : BlockRef n)
  | flush

inductive ManagerAction (n : ℕ)
  | manager (call : ManagerCall n)
  | dag (call : DagCall n)

variable (m : BlockManager C)

/-- The manager after the call, and the blocks that were handed to the DAG state, in this order. -/
def BlockManager.call : ManagerCall n → Except (ManagerPanic n) (BlockManager C × List (Block n))
  | .tryAcceptBlocks blocks => do
    let accepted ← m.tryAcceptBlocks blocks
    pure (accepted.1, accepted.2.1)
  | .tryAcceptCommittedBlocks blocks => m.tryAcceptCommittedBlocks blocks
  | .tryFindBlocks blockRefs => .ok ((m.tryFindBlocks blockRefs).1, [])
  | .tryUnsuspendBlocksForLatestGcRound => m.tryUnsuspendBlocksForLatestGcRound

def DagState.call (d : DagState C) : DagCall n → Except (Panic n) (DagState C)
  | .handleCommit leaders => do pure (← d.handleCommit leaders).1
  | .addScoringSubdags subdags => d.addScoringSubdags subdags
  | .updateLeaderSchedule => d.updateLeaderSchedule
  | .addFinalizedCommit commitRef rejectedTransactions =>
    .ok (d.addFinalizedCommit commitRef rejectedTransactions)
  | .linkCausalHistory rootBlock => do pure (← d.linkCausalHistory rootBlock).1
  | .flush => .ok d.flush

/-- The blocks of certified commits in a call. -/
def ManagerCall.committed : ManagerCall n → List (Block n)
  | .tryAcceptCommittedBlocks blocks => blocks
  | _ => []

/-- A block that was handed to the DAG state, the GC round at that time, and whether it came with a
certified commit. -/
structure Handover (n : ℕ) where
  block : Block n
  gcRound : ℕ
  committed : Bool
  deriving DecidableEq

/-- The manager, the DAG state it started with, and what it has handed over since. -/
structure ManagerRun (C : Committee n) where
  manager : BlockManager C
  start : DagState C
  handed : List (Handover n)

namespace ManagerRun

def step (s : ManagerRun C) : ManagerAction n → Except (ManagerPanic n) (ManagerRun C)
  | .manager call => do
    let out ← s.manager.call call
    pure { s with
      manager := out.1
      handed := s.handed ++ out.2.map fun b =>
        ⟨b, s.manager.dagState.gcRound, b ∈ call.committed⟩ }
  | .dag call =>
    match s.manager.dagState.call call with
    | .ok dagState => .ok { s with manager := { s.manager with dagState } }
    | .error panic => .error (.dagState panic)

/-- A validator that has just started, with any store of verified blocks. -/
def machine (U : VerifiedBlocks C) :
    Machine (ManagerRun C) (ManagerAction n) (ManagerPanic n) where
  init s := s.manager = .new s.start ∧ s.handed = [] ∧ ∃ context store,
    (∀ r b, store.blocks.get? r = some b → b ∈ U.blocks ∧ b.reference = r) ∧
      DagState.new C context store = .ok s.start
  step := step

end ManagerRun

/-- What the callers see to: blocks are verified, those of certified commits are above the GC round,
and leaders are committed in the order of their rounds. -/
def ManagerAction.Called (U : VerifiedBlocks C) (s : ManagerRun C) : ManagerAction n → Prop
  | .manager (.tryAcceptBlocks blocks) => ∀ b ∈ blocks, b ∈ U.blocks
  | .manager (.tryAcceptCommittedBlocks blocks) =>
    ∀ b ∈ blocks, b ∈ U.blocks ∧ s.manager.dagState.gcRound < b.round
  | .dag (.handleCommit leaders) => (leaders.map Block.round).Pairwise (· ≤ ·) ∧
      ∀ l ∈ leaders, s.manager.dagState.lastCommitRound ≤ l.round
  | _ => True

instance [DecidablePred (· ∈ U.blocks)] (s : ManagerRun C) :
    ∀ action : ManagerAction n, Decidable (action.Called U s)
  | .manager (.tryAcceptBlocks _) => inferInstanceAs (Decidable (∀ _ ∈ _, _))
  | .manager (.tryAcceptCommittedBlocks _) => inferInstanceAs (Decidable (∀ _ ∈ _, _))
  | .dag (.handleCommit _) => inferInstanceAs (Decidable (_ ∧ _))
  | .manager (.tryFindBlocks _) | .manager .tryUnsuspendBlocksForLatestGcRound
  | .dag (.addScoringSubdags _) | .dag .updateLeaderSchedule | .dag (.addFinalizedCommit _ _)
  | .dag (.linkCausalHistory _) | .dag .flush => .isTrue trivial

/-! ## What holds in every state -/

/-- The three maps describe one relation between suspended blocks and missing ancestors. -/
structure BlockManager.Mirrored : Prop where
  missingBlocks : ∀ a, a ∈ m.missingBlocks ↔ a ∈ m.missingAncestors ∧ a ∉ m.suspendedBlocks
  nonempty : ∀ c s, m.suspendedBlocks.get? c = some s → s.missingAncestors.entries ≠ []
  mirror : ∀ a c, m.Waits c a ↔ m.Lists a c

variable {G K : Set (BlockRef n)} {blocks : List (Block n)}

theorem BlockManager.Tracks.mirrored {S F : Set (BlockRef n)} {m : BlockManager C}
    (h : BlockManager.Settled U S F G K m) : m.Mirrored := by
  refine ⟨fun a => ?_, fun c s hs he => ?_, fun a c => ?_⟩
  · rw [h.missing]
    simp
  · obtain ⟨a, s', hs', ha⟩ := h.nonempty c (mem_iff.2 ⟨s, hs⟩)
    cases hs.symm.trans hs'
    exact entries_eq_nil.1 he a ha
  · rw [h.mirror, or_false]

/-- The blocks come one after the other into a DAG with the references `K`: none comes twice, and
each one comes after its ancestors above the GC round, unless a certified commit brought it. -/
def InOrder : Set (BlockRef n) → List (Handover n) → Prop
  | _, [] => True
  | K, handover :: rest => handover.block.reference ∉ K ∧
      (handover.committed = false → ∀ a ∈ handover.block.ancestors, handover.gcRound < a.round →
        a ∈ K) ∧
      InOrder (insert handover.block.reference K) rest

theorem InOrder.append {handed ha' : List (Handover n)} (h : InOrder K handed)
    (h' : InOrder (K ∪ refsOf (handed.map Handover.block)) ha') : InOrder K (handed ++ ha') := by
  induction handed generalizing K with
  | nil => simpa [refsOf_nil] using h'
  | cons handover handed ih =>
    obtain ⟨hnew, ha, hr⟩ := h
    rw [map_cons, union_refsOf_cons] at h'
    exact ⟨hnew, ha, ih hr h'⟩

theorem HandedOver.inOrder {X : Set (Block n)} {g : ℕ} {committed : Block n → Bool}
    (hX : ∀ b, committed b = false → b ∉ X) (h : HandedOver U X { a | a.round ≤ g } K blocks) :
    InOrder K (blocks.map fun b => ⟨b, g, committed b⟩) := by
  induction blocks generalizing K with
  | nil => trivial
  | cons b blocks ih =>
    obtain ⟨_, hnew, haf, hre⟩ := h
    refine ⟨hnew, fun hc a ha hr => ?_, ih hre⟩
    exact (haf (hX b hc) a ha).resolve_right (not_le.2 hr)

namespace ManagerRun

variable {s s' : ManagerRun C}

/-- The references that the DAG state had at the start. -/
def initial (s : ManagerRun C) : Set (BlockRef n) :=
  { r | r ∈ s.start.genesis ∨ r ∈ s.start.store.blocks }

structure Inv (U : VerifiedBlocks C) (s : ManagerRun C) : Prop where
  manages : BlockManager.Manages U s.start.context ∅ Set.univ
    { a | a.round ≤ s.manager.dagState.gcRound }
    (s.initial ∪ refsOf (s.handed.map Handover.block)) s.manager
  inOrder : InOrder s.initial s.handed

theorem inv_of_init (h : (machine U).init s) : Inv U s := by
  obtain ⟨hman, hh, context, store, hs, hnew⟩ := h
  have hk := knows_of_new hs hnew
  have hc : s.start.context = context := hk.context_eq
  refine ⟨⟨?_, ?_⟩, ?_⟩
  · rw [hman]
    exact BlockManager.settled_new _
  · rw [hman, hc, hh, map_nil, refsOf_nil, Set.union_empty]
    exact hk
  · rw [hh]
    trivial

/-- **One call of the manager**: it leaves the maps in step, or a second own block was found in a
slot. -/
theorem Inv.call (h : Inv U s) {call : ManagerCall n}
    (hc : ManagerAction.Called U s (.manager call)) :
    Ends (s.manager.call call)
      (fun out => BlockManager.Accepted U s.start.context ∅ Set.univ { b | b ∈ call.committed }
        { a | a.round ≤ s.manager.dagState.gcRound }
        (s.initial ∪ refsOf (s.handed.map Handover.block)) s.manager.dagState.gcRound out.1 out.2)
      (BlockManager.OwnPanic U s.start.context.ownIndex) := by
  have hm := h.manages
  cases call with
  | tryAcceptBlocks blocks =>
    refine (hm.tryAcceptBlocks (fun a _ ha => ha) hc).bind fun out hout => ?_
    have hs : BlockManager.Settled U ∅ _ _ _ out.1 :=
      BlockManager.Tracks.receive hout.manages.settled (by simp)
    exact ⟨⟨hs, hout.manages.knows⟩, hout.handed.mono (Set.empty_subset _), hout.gcRound_eq⟩
  | tryAcceptCommittedBlocks blocks => exact hm.tryAcceptCommittedBlocks hc
  | tryFindBlocks blockRefs =>
    have hany : ∀ r ∈ blockRefs, r ∈ (Set.univ : Set (BlockRef n)) := fun r _ => Set.mem_univ r
    obtain ⟨hf, hdag⟩ := hm.tryFindBlocks hany
    have hacc := hf.accepted_nil (X := { b | b ∈ ([] : List (Block n)) })
    rw [hdag] at hacc
    exact hacc
  | tryUnsuspendBlocksForLatestGcRound =>
    refine (hm.tryUnsuspendBlocksForLatestGcRound fun a ha => ha).mono fun out hout => ?_
    exact ⟨hout.manages, hout.handed.mono (Set.empty_subset _), hout.gcRound_eq⟩

theorem Inv.dagCall (h : Inv U s) {call : DagCall n} (hc : ManagerAction.Called U s (.dag call))
    {d : DagState C} (hs : s.manager.dagState.call call = .ok d) :
    d.Knows U s.start.context (s.initial ∪ refsOf (s.handed.map Handover.block)) ∧
      s.manager.dagState.gcRound ≤ d.gcRound := by
  have hk := h.manages.knows
  cases call with
  | handleCommit leaders =>
    obtain ⟨out, hout, hp⟩ := bind_ok.1 hs
    cases hp
    obtain ⟨hd, hr⟩ := hk.handleCommit hc.1 hc.2 hout
    refine ⟨hd, ?_⟩
    rw [DagState.gcRound, DagState.gcRound, calculateGcRound, calculateGcRound,
      hd.context_eq, hk.context_eq]
    omega
  | addScoringSubdags subdags =>
    obtain ⟨scoring, _, hp⟩ := bind_ok.1 hs
    cases hp
    exact ⟨hk.congr rfl rfl rfl (fun _ => Iff.rfl) rfl rfl le_rfl, le_rfl⟩
  | updateLeaderSchedule =>
    obtain ⟨scores, commit, _, _, rfl⟩ := updateLeaderSchedule_ok hs
    exact ⟨hk.congr rfl rfl rfl (fun _ => Iff.rfl) rfl rfl le_rfl, le_rfl⟩
  | addFinalizedCommit commitRef rejectedTransactions =>
    cases hs
    exact ⟨hk.congr rfl rfl rfl (fun _ => Iff.rfl) rfl rfl le_rfl, le_rfl⟩
  | linkCausalHistory rootBlock =>
    obtain ⟨out, hout, hp⟩ := bind_ok.1 hs
    cases hp
    have hsa := (linkLoop_linkedOnly hout).sameCache
    refine ⟨hsa.knows hk, ?_⟩
    rw [hsa.frame]
    exact le_rfl
  | flush =>
    cases hs
    exact ⟨hk.flush, (gcRound_flush _).ge⟩

theorem Inv.step (h : Inv U s) {action : ManagerAction n} (hc : action.Called U s)
    (hs : s.step action = .ok s') : Inv U s' := by
  cases action with
  | manager call =>
    obtain ⟨out, hout, hp⟩ := bind_ok.1 hs
    cases hp
    have hacc := (h.call hc).of_ok hout
    have hmap : (s.handed ++ out.2.map fun b => (⟨b, s.manager.dagState.gcRound,
        decide (b ∈ call.committed)⟩ : Handover n)).map Handover.block =
        s.handed.map Handover.block ++ out.2 := by
      rw [map_append, map_map]
      exact congrArg _ (map_id _)
    refine ⟨?_, h.inOrder.append (hacc.handed.inOrder ?_)⟩
    · dsimp only [initial]
      rw [hmap, union_refsOf_append, hacc.gcRound_eq]
      exact hacc.manages
    · intro b hb
      exact of_decide_eq_false hb
  | dag call =>
    change (match s.manager.dagState.call call with
      | .ok dagState => Except.ok { s with manager := { s.manager with dagState } }
      | .error panic => Except.error (ManagerPanic.dagState panic)) = .ok s' at hs
    cases hca : s.manager.dagState.call call with
    | error panic =>
      rw [hca] at hs
      cases hs
    | ok dagState =>
      rw [hca] at hs
      cases hs
      obtain ⟨hk, hgc⟩ := h.dagCall hc hca
      refine ⟨⟨?_, hk⟩, h.inOrder⟩
      refine BlockManager.Tracks.withDagState ?_ dagState
      exact h.manages.settled.mono fun a ha => le_trans ha hgc

/-- **The block manager over a run.** The maps mirror each other, every block was handed over once
and, unless a certified commit brought it, after its ancestors above the GC round. No call stops at
an assertion of the manager; the DAG state stops it when the validator has two blocks in a slot. -/
theorem blockManager_invariant (h : (machine U).Reach (fun s action => action.Called U s) s) :
    s.manager.Mirrored ∧ InOrder s.initial s.handed ∧
      ∀ call panic, ManagerAction.Called U s (.manager call) → s.manager.call call = .error panic →
          BlockManager.OwnPanic U s.start.context.ownIndex panic := by
  have hinv : Inv U s := h.invariant (fun _ => inv_of_init) fun _ _ _ hinv => hinv.step
  refine ⟨hinv.manages.settled.mirrored, hinv.inOrder, fun call panic hc hp => ?_⟩
  exact (hinv.call hc).of_error hp

/-! ## Blocks of certified commits -/

/-- A validator with an empty store. -/
def fresh (C : Committee n) (context : Context n) : Except (ManagerPanic n) (ManagerRun C) :=
  match DagState.new C context .empty with
  | .ok d => .ok ⟨.new d, d, []⟩
  | .error panic => .error (.dagState panic)

variable (U context s) in
theorem fresh_init (h : fresh C context = .ok s) : (machine U).init s := by
  rw [fresh] at h
  cases hnew : DagState.new C context .empty with
  | error panic =>
    rw [hnew] at h
    cases h
  | ok d =>
    rw [hnew] at h
    cases h
    exact ⟨rfl, rfl, context, .empty, by simp [Store.empty], hnew⟩

/-- The blocks of three commits; the last one has a block whose first ancestor was left below the GC
round by the second one. -/
def lateCommits : List (Block 4) :=
  [Node.threeBlock 1 (authority 0), Node.threeBlock 1 (authority 1),
    Node.threeBlock 1 (authority 2), Node.threeBlock 2 (authority 1),
    Node.threeBlock 2 (authority 0), Node.threeBlock 2 (authority 2),
    Node.threeBlock 3 (authority 0), Node.threeBlock 3 (authority 1),
    Node.threeBlock 3 (authority 2), Node.lateBlock, sampleBlock 4 (authority 0)]

/-- **A block can be handed over before an ancestor above the GC round.** One validator commits
three leaders and has the ancestors above the GC round whenever it accepts a block. Another one gets
the three commits in one batch: its GC round is still that of the start. -/
theorem committedBlock_before_ancestor :
    ∃ (node : Node fourAuthorities) (s : ManagerRun fourAuthorities),
      (Node.machine fourAuthorities shallowProtocol).Reach (fun node action =>
        action.Called lateNetwork node ∧ action.Careful node) node ∧
      node.output.flatMap CommittedSubDag.blocks = lateCommits ∧
      (machine lateNetwork).Reach (fun s action => action.Called lateNetwork s) s ∧
      ∃ i handover a, s.handed[i]? = some handover ∧ handover.block ∈ lateCommits ∧
        a ∈ handover.block.ancestors ∧ handover.gcRound < a.round ∧
        a ∉ s.initial ∪ refsOf ((s.handed.take i).map Handover.block) := by
  obtain ⟨node, hn, ho⟩ := Machine.exists_reach
    (C := fun node action => action.Called lateNetwork node ∧ action.Careful node)
    [.accept (threeBlock 1 0), .commit [threeBlock 1 0],
      .accept (threeBlock 1 1), .accept (threeBlock 1 2), .accept (threeBlock 2 0),
      .accept (threeBlock 2 1), .accept (threeBlock 2 2),
      .commit [threeBlock 2 1], .accept (threeBlock 3 0), .accept (threeBlock 3 1),
      .accept (threeBlock 3 2), .accept lateBlock, .accept (sampleBlock 4 0),
      .commit [sampleBlock 4 0]]
    (fun node => node.output.flatMap CommittedSubDag.blocks = lateCommits)
    (Node.start_init ⟨0, shallowProtocol, 500⟩) (by decide +kernel)
  obtain ⟨s, hs, hh, hgen, hst, hbef⟩ := Machine.exists_reach
    (C := fun s action => action.Called lateNetwork s)
    [.manager (.tryAcceptCommittedBlocks lateCommits)]
    (fun s => s.handed[9]? = some ⟨lateBlock, 0, true⟩ ∧
      (⟨1, 3, 0⟩ : BlockRef 4) ∉ s.start.genesis ∧ ⟨1, 3, 0⟩ ∉ s.start.store.blocks ∧
      ∀ handover ∈ s.handed.take 9, handover.block.reference ≠ ⟨1, 3, 0⟩)
    (fresh_init lateNetwork ⟨0, shallowProtocol, 500⟩) (by decide +kernel)
  refine ⟨node, s, hn, ho, hs, 9, _, ⟨1, 3, 0⟩, hh, by decide, by decide, by decide, ?_⟩
  rintro ((hmem | hmem) | ⟨b, hb, href⟩)
  · exact hgen hmem
  · exact hst hmem
  · obtain ⟨handover, hmem, rfl⟩ := mem_map.1 hb
    exact hbef handover hmem href

/-- A run with a block that waits, one that is fetched, a commit and a flush in between. -/
theorem blockManager_invariant_sample :
    ∃ s : ManagerRun fourAuthorities, s.handed.length = 5 ∧ s.manager.Mirrored ∧
      InOrder s.initial s.handed ∧
      ∀ call panic, ManagerAction.Called sampleNetwork s (.manager call) →
        s.manager.call call = .error panic →
          BlockManager.OwnPanic sampleNetwork s.start.context.ownIndex panic := by
  obtain ⟨s, hs, hl⟩ := Machine.exists_reach
    (C := fun s action => action.Called sampleNetwork s)
    [.manager (.tryAcceptBlocks [sampleBlock 2 1, sampleBlock 1 0]),
      .manager (.tryFindBlocks [⟨2, 2, 0⟩]),
      .manager (.tryAcceptBlocks [sampleBlock 1 1, sampleBlock 1 2]),
      .dag (.handleCommit [sampleBlock 1 1]), .dag .flush,
      .manager .tryUnsuspendBlocksForLatestGcRound,
      .manager (.tryAcceptCommittedBlocks [sampleBlock 1 3])]
    (fun s => s.handed.length = 5)
    (fresh_init sampleNetwork ⟨0, shallowProtocol, 500⟩) (by decide +kernel)
  exact ⟨s, hl, blockManager_invariant hs⟩

end ManagerRun

/-! ## Confluence -/

/-- Blocks that are delivered batch by batch. -/
def BlockManager.deliver (batches : List (List (Block n))) :
    Except (ManagerPanic n) (BlockManager C) :=
  batches.foldlM (fun m batch => do pure (← m.tryAcceptBlocks batch).1) m

namespace BlockManager

variable {S F : Set (BlockRef n)} {m m' : BlockManager C} {batches : List (List (Block n))}

/-- Each batch hands over blocks and adds to what was received. -/
theorem Manages.deliver {g : ℕ} {handed : List (Block n)}
    (h : Accepted U context S F ∅ G K g m handed) (hG : m.Below G)
    (hba : ∀ b ∈ batches.flatten, b ∈ U.blocks) :
    Ends (m.deliver batches)
      (fun m' => ∃ ha', Accepted U context (S ∪ received batches.flatten g) F ∅ G K g m' ha')
      (OwnPanic U context.ownIndex) := by
  induction batches generalizing m S handed with
  | nil =>
    refine ⟨handed, ?_⟩
    simpa [received] using h
  | cons batch batches ih =>
    rw [BlockManager.deliver, foldlM_cons, bind_assoc]
    refine (h.manages.tryAcceptBlocks hG fun b hb => hba b (mem_append_left _ hb)).bind
      fun out hout => ?_
    have hbe : out.1.Below G := fun a hz hr => hG a hz (hout.gcRound_eq ▸ hr)
    refine (ih (h.trans hout) hbe fun b hb => hba b (mem_append_right _ hb)).mono fun m' hm' => ?_
    rw [h.gcRound_eq, Set.union_assoc, ← received_append] at hm'
    exact hm'

end BlockManager

variable {b : Block n}

/-- The blocks handed over have their ancestors among what is known in the end. -/
theorem HandedOver.closed (h : HandedOver U ∅ G K blocks) (hb : b ∈ blocks)
    {a : BlockRef n} (ha : a ∈ b.ancestors) : a ∈ K ∪ refsOf blocks ∨ a ∈ G := by
  induction blocks generalizing K with
  | nil => cases hb
  | cons c blocks ih =>
    obtain ⟨_, _, haf, hr⟩ := h
    rw [union_refsOf_cons]
    rcases mem_cons.1 hb with rfl | hb
    · exact (haf (Set.notMem_empty _) a ha).imp_left fun hK => .inl (.inr hK)
    · exact ih hr hb

/-- The reference is that of a genesis block or of a block of the set. -/
def Delivered (U : VerifiedBlocks C) (d : DagState C) (r : BlockRef n) : Prop :=
  r ∈ d.genesis ∨ ∃ b ∈ U.blocks, b.reference = r

namespace BlockManager

variable {d : DagState C} {m m' : BlockManager C}

/-- A manager that was given all blocks of the set, and nothing else. -/
structure Complete (U : VerifiedBlocks C) (d : DagState C) (K : Set (BlockRef n))
    (m : BlockManager C) : Prop where
  settled : Settled U { r | ∃ b ∈ U.blocks, b.reference = r } ∅ ∅ K m
  closed : ∀ b ∈ U.blocks, b.reference ∈ K → ∀ a ∈ b.ancestors, a ∈ K
  genesis : ∀ r ∈ d.genesis, r ∈ K
  delivered : ∀ r ∈ K, Delivered U d r
  contains : ∀ r, m.dagState.containsBlock r = true ↔ r ∈ K

theorem Complete.mem_of_history (h : Complete U d K m) (hb : b ∈ U.blocks)
    (hhist : ∀ r, Linked U.blocks b r → Delivered U d r) : b.reference ∈ K := by
  -- a block that waits misses an ancestor, which would have come in before it
  induction hround : b.round using Nat.strong_induction_on generalizing b with
  | _ round ih =>
    subst hround
    rcases h.settled.covered b.reference ⟨b, hb, rfl⟩ with hK | hsusp
    · exact hK
    · exfalso
      obtain ⟨a, hwaits⟩ := h.settled.nonempty _ hsusp
      obtain ⟨s, hs, hmiss⟩ := id hwaits
      have hw := h.settled.waiting _ s hs
      obtain rfl : s.block = b := U.reference_injOn hw.mem hb hw.reference_eq
      have ha : a ∈ s.block.ancestors := hw.ancestors a hmiss
      obtain ⟨children, hchild, _⟩ := ((h.settled.mirror _ _).1 hwaits).resolve_right id
      have hnot : a ∉ K := fun hK =>
        not_mem_nil (h.settled.absent a (mem_iff.2 ⟨children, hchild⟩) hK)
      rcases hhist a (.direct ha) with hgen | ⟨b', hb', rfl⟩
      · exact hnot (h.genesis a hgen)
      · refine hnot (ih b'.round (U.round_lt hb ha) hb' (fun r hr => ?_) rfl)
        exact hhist r (.trans ha hb' hr)

/-- A block is in the DAG once its whole history has been delivered. -/
theorem Complete.accepted_iff (h : Complete U d K m) (hb : b ∈ U.blocks) :
    m.dagState.containsBlock b.reference = true ↔ ∀ r, Linked U.blocks b r → Delivered U d r := by
  rw [h.contains]
  refine ⟨fun hK r hr => h.delivered r ?_, h.mem_of_history hb⟩
  induction hr with
  | direct hr => exact h.closed _ hb hK _ hr
  | trans hmem hb' _ ih => exact ih hb' (h.closed _ hb hK _ hmem)

/-- What is missing are the ancestors that were not delivered. -/
theorem Complete.missing_iff (h : Complete U d K m) {r : BlockRef n} :
    r ∈ m.missingBlocks ↔ (∃ b ∈ U.blocks, r ∈ b.ancestors) ∧ ¬ Delivered U d r := by
  have hs := h.settled
  rw [hs.missing]
  constructor
  · rintro ⟨hkey, hnot, _⟩
    have hK : r ∉ K := fun hK => not_mem_nil (hs.absent r hkey hK)
    refine ⟨?_, ?_⟩
    · exact (hs.asked r hkey).resolve_left (Set.notMem_empty r)
    · rintro (hgen | hdel)
      · exact hK (h.genesis r hgen)
      · exact (hs.covered r hdel).elim hK hnot
  · rintro ⟨⟨b, hb, hr⟩, hnot⟩
    have hK : r ∉ K := fun hK => hnot (h.delivered r hK)
    have hsusp : b.reference ∈ m.suspendedBlocks :=
      (hs.covered b.reference ⟨b, hb, rfl⟩).resolve_left fun hbK => hK (h.closed b hb hbK r hr)
    obtain ⟨s, hget⟩ := mem_iff.1 hsusp
    have hw := hs.waiting _ s hget
    obtain rfl : s.block = b := U.reference_injOn hw.mem hb hw.reference_eq
    have hmiss := ((hw.resolved r hr).resolve_left hK).resolve_left (Set.notMem_empty r)
    obtain ⟨children, hchild, _⟩ := ((hs.mirror _ _).1 ⟨s, hget, hmiss⟩).resolve_right id
    refine ⟨mem_iff.2 ⟨children, hchild⟩, fun hr => hnot ?_, not_mem_nil⟩
    obtain ⟨s', hs'⟩ := mem_iff.1 hr
    have hw' := hs.waiting r s' hs'
    exact .inr ⟨s'.block, hw'.mem, hw'.reference_eq⟩

/-- All blocks of the set are delivered to a fresh validator. -/
theorem complete_of_deliver (hnew : DagState.new C context .empty = .ok d)
    (hbatches : ∀ b, b ∈ batches.flatten ↔ b ∈ U.blocks) :
    Ends ((new d).deliver batches) (fun m => ∃ K, Complete U d K m)
      (OwnPanic U context.ownIndex) := by
  obtain ⟨hgc, hstore⟩ := fresh_of_new hnew
  have hknows := knows_of_new (U := U) (by simp [Store.empty]) hnew
  have hstart : Manages U context ∅ ∅ ∅ { r | r ∈ d.genesis ∨ r ∈ d.store.blocks } (new d) :=
    ⟨settled_new d, hknows⟩
  have hbelow : (new d).Below ∅ := by
    intro a hzero hround
    rw [show (new d).dagState.gcRound = 0 from hgc] at hround
    exact absurd (Nat.le_zero.1 hround) hzero
  refine (Manages.deliver hstart.accepted_nil hbelow fun b hb => (hbatches b).1 hb).mono
    fun m hm => ?_
  obtain ⟨handed, hacc⟩ := hm
  have hK : ∀ r ∈ { r | r ∈ d.genesis ∨ r ∈ d.store.blocks } ∪ refsOf handed,
      r ∈ d.genesis ∨ r ∈ refsOf handed := by
    rintro r ((hgen | hmem) | hmem)
    · exact .inl hgen
    · exact absurd hmem (hstore r)
    · exact .inr hmem
  have hgc' : m.dagState.gcRound = 0 := hacc.gcRound_eq.trans hgc
  refine ⟨_, ⟨hacc.manages.settled.receive fun c hc => ?_, fun b hb hbK a ha => ?_,
    fun r hr => .inl (.inl hr), fun r hr => ?_, fun r => ?_⟩⟩
  · obtain ⟨b, hb, rfl⟩ := hc
    refine hacc.manages.settled.covered _ (.inr ⟨b, (hbatches b).2 hb, rfl, ?_⟩)
    rw [show (new d).dagState.gcRound = 0 from hgc]
    exact (U.wellFormed hb).round_pos
  · rcases hK _ hbK with hgen | ⟨b', hb', href⟩
    · rw [hknows.genesis_eq] at hgen
      exact absurd (genesisMap_round hgen) (ne_of_gt (U.wellFormed hb).round_pos)
    · obtain rfl := U.reference_injOn (hacc.handed.mem b' hb') hb href
      exact (hacc.handed.closed hb' ha).resolve_right (Set.notMem_empty a)
  · rcases hK r hr with hgen | ⟨b, hb, href⟩
    · exact .inl hgen
    · exact .inr ⟨b, hacc.handed.mem b hb, href⟩
  · refine hacc.manages.knows.containsBlock_iff ?_
    rw [hgc']
    exact Nat.eq_zero_or_pos r.round

/-- **Delivery is confluent.** A fresh validator is given the blocks of a set in any order, split
into any batches and with any repetition. It panics only if the set has two blocks of its own in a
slot. Otherwise the blocks in its DAG are those whose whole history is in the set, and it misses the
ancestors that are not in the set. -/
theorem delivery_confluent (hnew : DagState.new C context .empty = .ok d)
    {batches : List (List (Block n))} (hbatches : ∀ b, b ∈ batches.flatten ↔ b ∈ U.blocks) :
    ((∀ b ∈ U.blocks, ∀ b' ∈ U.blocks, b.author = context.ownIndex → b'.slot = b.slot → b' = b) →
      ∃ m, (new d).deliver batches = .ok m) ∧
    ∀ m, (new d).deliver batches = .ok m → (∀ r, m.dagState.containsBlock r = true ↔ r ∈ d.genesis ∨
        ∃ b ∈ U.blocks, b.reference = r ∧ ∀ r', Linked U.blocks b r' → Delivered U d r') ∧
      (∀ r, r ∈ m.missingBlocks ↔ (∃ b ∈ U.blocks, r ∈ b.ancestors) ∧ ¬ Delivered U d r) ∧
      ∀ batches' m', (∀ b, b ∈ batches'.flatten ↔ b ∈ U.blocks) →
        (new d).deliver batches' = .ok m' →
        (∀ r, m'.dagState.containsBlock r = m.dagState.containsBlock r) ∧
          m'.missingBlocks = m.missingBlocks := by
  have hends := complete_of_deliver hnew hbatches
  have hcont : ∀ {K m}, Complete U d K m → ∀ r, m.dagState.containsBlock r = true ↔
      r ∈ d.genesis ∨ ∃ b ∈ U.blocks, b.reference = r ∧
        ∀ r', Linked U.blocks b r' → Delivered U d r' := by
    intro K m hm r
    constructor
    · intro hr
      rcases hm.delivered r ((hm.contains r).1 hr) with hgen | ⟨b, hb, rfl⟩
      · exact .inl hgen
      · exact .inr ⟨b, hb, rfl, (hm.accepted_iff hb).1 hr⟩
    · rintro (hgen | ⟨b, hb, rfl, hhist⟩)
      · exact (hm.contains r).2 (hm.genesis r hgen)
      · exact (hm.accepted_iff hb).2 hhist
  refine ⟨fun hown => hends.exists_ok ?_, fun m hm => ?_⟩
  · rintro _ ⟨_, _, b, hb, b', hb', _, hauthor, hne, hslot⟩
    exact hne (hown b hb b' hb' hauthor hslot)
  · obtain ⟨K, hcompl⟩ := hends.of_ok hm
    refine ⟨hcont hcompl, fun r => hcompl.missing_iff, fun batches' m' hbatches' hm' => ?_⟩
    obtain ⟨K', hcompl'⟩ := (complete_of_deliver hnew hbatches').of_ok hm'
    refine ⟨fun r => ?_, set_ext fun r => ?_⟩
    · rw [Bool.eq_iff_iff, hcont hcompl', hcont hcompl]
    · rw [hcompl'.missing_iff, hcompl.missing_iff]

/-- Blocks of two rounds in one batch, without one that the others link to. -/
theorem delivery_confluent_sample :
    ∃ d m, DagState.new fourAuthorities ⟨0, shallowProtocol, 500⟩ .empty = .ok d ∧
      (new d).deliver [lateBlocks.reverse, lateBlocks] = .ok m ∧
      ∀ r, r ∈ m.missingBlocks ↔ (∃ b ∈ lateNetwork.blocks, r ∈ b.ancestors) ∧
        ¬ Delivered lateNetwork d r := by
  have hnew : (DagState.new fourAuthorities ⟨0, shallowProtocol, 500⟩ .empty).toOption.isSome :=
    by decide +kernel
  obtain ⟨d, hd⟩ := Option.isSome_iff_exists.1 hnew
  rw [toOption_eq_some] at hd
  have hb : ∀ b, b ∈ [lateBlocks.reverse, lateBlocks].flatten ↔ b ∈ lateNetwork.blocks := by
    intro b
    simp [lateNetwork, networkOf]
  obtain ⟨hok, hall⟩ := delivery_confluent hd hb
  obtain ⟨m, hm⟩ := hok (by
    have hown : ∀ b ∈ lateBlocks, ∀ b' ∈ lateBlocks, b.author = 0 → b'.slot = b.slot →
        b' = b := by decide +kernel
    exact hown)
  exact ⟨d, m, hd, hm, (hall m hm).2.1⟩

/-- **Two blocks of its own in a slot stop a validator**, in either order. -/
theorem own_blocks_panic :
    let own := sampleBlock 1 0
    let other := { sampleBlock 1 0 with digest := 1 }
    let outcome := fun batches =>
      (DagState.new fourAuthorities ⟨0, shallowProtocol, 500⟩ .empty).toOption.map fun d =>
        ((new d).deliver batches).map fun _ => ()
    (∀ b ∈ [own, other], (sampleVerifier.verifyBlock fourAuthorities b).toOption = some ()) ∧
      outcome [[own, other]] = some (.error (.dagState (.ownSlotTaken other.reference))) ∧
      outcome [[other], [own]] = some (.error (.dagState (.ownSlotTaken own.reference))) := by
  decide +kernel

end BlockManager

end OneChain.Consensus
