import OneChain.Checkpoints.CreateCheckpoints
import OneChain.Lib.Transition

/-!
# When checkpoints are built

`CheckpointBuilder::maybe_build_checkpoints` groups the pending checkpoints of an epoch: a group is
closed when the minimum interval since the last checkpoint has passed, before the last pending
checkpoint of the epoch, and at it. Calls come when pending checkpoints arrive, at any time, and may
end early; a restart loses the checkpoints that were not executed and gets their pending checkpoints
again. Every validator has to find the same groups.

A call starts from the timestamp in the summary of the last checkpoint and goes on with the
timestamp of the last pending checkpoint it has built. The two differ where the summary was raised
to the timestamp of the checkpoint before it. Within an epoch timestamps do not decrease, so this
can only come from the last checkpoint of the previous epoch.

* `groups_independent` — if that checkpoint is not later than the pending ones, or timestamps are
  not raised, every run finds the groups that one call finds for the whole epoch.
* `groups_depend` — otherwise a call in between changes them.
-/

namespace OneChain.Checkpoints

open Lib List Machine

/-- What the builder reads at the start of an epoch. In the first epoch the genesis checkpoint is in
the builder's own table, without a height. -/
structure EpochStart where
  minCheckpointIntervalMs : ℕ
  enforceCheckpointTimestampMonotonicity : Bool
  /-- The timestamp of the last checkpoint before the epoch. -/
  previousTimestamp : Option ℕ
  genesisInBuilder : Bool

/-- Of a `BuilderCheckpointSummary`; the checkpoints of one group share it. -/
structure BuilderSummary where
  checkpointHeight : Option ℕ
  timestampMs : ℕ
  deriving DecidableEq

structure BuiltGroup where
  pendings : List PendingCheckpointInfo
  summary : BuilderSummary
  deriving DecidableEq

/-- The pending checkpoints of the epoch that have arrived, by their number; the groups built, and
how many of them are on disk. Outputs that have left the quarantine have heights at or below that of
the last checkpoint on disk, which the builder does not read. -/
structure BuilderState where
  arrived : ℕ
  built : List BuiltGroup
  persisted : ℕ
  deriving DecidableEq

def BuilderState.groups (s : BuilderState) : List (List PendingCheckpointInfo) :=
  s.built.map (·.pendings)

variable (start : EpochStart) (epoch : List PendingCheckpointInfo)

/-! ## The builder -/

/-- The timestamp of a checkpoint: that of the pending one, raised to that of the checkpoint
before if this is enforced. -/
def raisedTimestamp (enforce : Bool) (timestampMs : ℕ) (last : Option ℕ) : ℕ :=
  match last with
  | some last => if timestampMs < last ∧ enforce = true then last else timestampMs
  | none => timestampMs

/-- It is what `create_checkpoints` computes. -/
theorem checkpointTimestamp_eq (config : BuilderConfig) (details : PendingCheckpointInfo)
    (last : Option CheckpointSummary) :
    checkpointTimestamp config details last =
      raisedTimestamp config.enforceCheckpointTimestampMonotonicity details.timestampMs
        (last.map (·.timestampMs)) := by
  cases last <;> rfl

variable (built : List BuiltGroup)

/-- `last_built_checkpoint_builder_summary`. -/
def lastBuiltBuilderSummary : Option BuilderSummary :=
  match built.getLast? with
  | some group => some group.summary
  | none =>
    if start.genesisInBuilder then start.previousTimestamp.map (⟨none, ·⟩) else none

/-- The timestamp of the last checkpoint, of this epoch or the one before. -/
def lastCheckpointTimestamp : Option ℕ :=
  match built.getLast? with
  | some group => some group.summary.timestampMs
  | none => start.previousTimestamp

/-- `make_checkpoint` for the pending checkpoints of a group, of which `last` is the last one. -/
def makeGroup (pendings : List PendingCheckpointInfo) (last : PendingCheckpointInfo) : BuiltGroup :=
  ⟨pendings, some last.checkpointHeight,
    raisedTimestamp start.enforceCheckpointTimestampMonotonicity last.timestampMs
      (lastCheckpointTimestamp start built)⟩

def canBuild (lastTimestamp : Option ℕ) (pending : PendingCheckpointInfo)
    (rest : List PendingCheckpointInfo) : Bool :=
  (match lastTimestamp with
    | some last => decide (last + start.minCheckpointIntervalMs ≤ pending.timestampMs)
    | none => true) ||
  rest.head?.any (·.lastOfEpoch) || pending.lastOfEpoch

/-- The loop of `maybe_build_checkpoints`. With a limit it ends early, when `make_checkpoint` fails
after that many checkpoints or the node stops. -/
def buildLoop : Option ℕ → Option ℕ → List PendingCheckpointInfo → List PendingCheckpointInfo →
    List BuiltGroup → List BuiltGroup
  | _, _, _, [], built => built
  | limit, lastTimestamp, grouped, pending :: rest, built =>
    if canBuild start lastTimestamp pending rest then
      if limit = some 0 then built
      else buildLoop (limit.map (· - 1)) (some pending.timestampMs) [] rest
        (built ++ [makeGroup start built (grouped ++ [pending]) pending])
    else buildLoop limit lastTimestamp (grouped ++ [pending]) rest built

/-- `get_pending_checkpoints`. -/
def getPendingCheckpoints (s : BuilderState) (last : Option ℕ) : List PendingCheckpointInfo :=
  (epoch.take s.arrived).filter fun p => last.all (· < p.checkpointHeight)

def maybeBuildCheckpoints (limit : Option ℕ) (s : BuilderState) : BuilderState :=
  let summary := lastBuiltBuilderSummary start s.built
  let lastHeight := summary.bind (·.checkpointHeight)
  let pendings := getPendingCheckpoints epoch s lastHeight
  { s with built := buildLoop start limit (summary.map (·.timestampMs)) [] pendings s.built }

inductive TimingAction
  /-- The next pending checkpoint arrives. -/
  | arrive
  | call (limit : Option ℕ)
  /-- The checkpoints of the first groups have been executed. -/
  | execute (groups : ℕ)
  /-- The process restarts with what is on disk, and gets the commits after it again. -/
  | restart
  deriving DecidableEq

def builderStep (s : BuilderState) : TimingAction → Except Unit BuilderState
  | .arrive => do
    check (s.arrived < epoch.length) ()
    pure { s with arrived := s.arrived + 1 }
  | .call limit => pure (maybeBuildCheckpoints start epoch limit s)
  | .execute groups => do
    check (s.persisted ≤ groups ∧ groups ≤ s.built.length) ()
    pure { s with persisted := groups }
  | .restart =>
    let built := s.built.take s.persisted
    pure ⟨(built.flatMap (·.pendings)).length, built, s.persisted⟩

def timingMachine : Machine BuilderState TimingAction Unit where
  init s := s = ⟨0, [], 0⟩
  step := builderStep start epoch

/-- The groups that one call finds once all pending checkpoints are there. -/
def groupsAtOnce : List (List PendingCheckpointInfo) :=
  (maybeBuildCheckpoints start epoch none ⟨epoch.length, [], 0⟩).groups

/-! ## Groups without timestamps of summaries -/

/-- The groups that a list of pending checkpoints closes, after `grouped`. -/
def grouping : Option ℕ → List PendingCheckpointInfo → List PendingCheckpointInfo →
    List (List PendingCheckpointInfo)
  | _, _, [] => []
  | lastTimestamp, grouped, pending :: rest =>
    if canBuild start lastTimestamp pending rest then
      (grouped ++ [pending]) :: grouping (some pending.timestampMs) [] rest
    else grouping lastTimestamp (grouped ++ [pending]) rest

/-- The first elements of a list, or all of them. -/
def upTo {α : Type} (limit : Option ℕ) (l : List α) : List α := (limit.map l.take).getD l

variable {lastTimestamp limit : Option ℕ} {groups : List (List PendingCheckpointInfo)}
  {built : List BuiltGroup} {s : BuilderState}

theorem upTo_cons {α : Type} (h : limit ≠ some 0) (a : α) (l : List α) :
    upTo limit (a :: l) = a :: upTo (limit.map (· - 1)) l := by
  cases limit with
  | none => rfl
  | some n =>
    cases n with
    | zero => exact absurd rfl h
    | succ n => rfl

theorem upTo_isPrefix {α : Type} (limit : Option ℕ) (l : List α) : upTo limit l <+: l := by
  cases limit with
  | none => exact prefix_refl l
  | some n => exact take_prefix n l

variable {start epoch}

/-- A call builds the groups that its pending checkpoints close. -/
theorem buildLoop_groups (limit lastTimestamp : Option ℕ)
    (grouped pendings : List PendingCheckpointInfo) (built : List BuiltGroup) :
    (buildLoop start limit lastTimestamp grouped pendings built).map (·.pendings) =
      built.map (·.pendings) ++ upTo limit (grouping start lastTimestamp grouped pendings) := by
  induction pendings generalizing limit lastTimestamp grouped built with
  | nil =>
    cases limit <;> simp [buildLoop, grouping, upTo]
  | cons pending rest ih =>
    rw [buildLoop, grouping]
    split
    · split
      · rename_i hl
        simp [hl, upTo]
      · rename_i hl
        rw [ih, upTo_cons hl, map_append, append_assoc]
        rfl
    · exact ih _ _ _ _

/-- **More pending checkpoints do not change the groups that are closed.** The last one that has
arrived may close its group later, but not earlier. -/
theorem grouping_mono {pendings pendings' : List PendingCheckpointInfo}
    (h : pendings <+: pendings') (lastTimestamp : Option ℕ) (grouped : List PendingCheckpointInfo) :
    grouping start lastTimestamp grouped pendings <+:
      grouping start lastTimestamp grouped pendings' := by
  obtain ⟨more, rfl⟩ := h
  induction pendings generalizing lastTimestamp grouped with
  | nil => exact nil_prefix
  | cons pending rest ih =>
    rw [cons_append, grouping, grouping]
    cases rest with
    | cons next rest =>
      -- The next one is there, so the test is the same.
      have hs : canBuild start lastTimestamp pending (next :: rest ++ more) =
          canBuild start lastTimestamp pending (next :: rest) := rfl
      rw [hs]
      split
      · exact (prefix_cons_inj _).2 (ih _ _)
      · exact ih _ _
    | nil =>
      cases hnow : canBuild start lastTimestamp pending [] with
      | false => exact nil_prefix
      | true =>
        have hl : canBuild start lastTimestamp pending ([] ++ more) = true := by
          unfold canBuild at hnow ⊢
          simp only [Bool.or_eq_true] at hnow
          simp only [Bool.or_eq_true]
          tauto
        rw [if_pos hl]
        exact (prefix_cons_inj _).2 nil_prefix

/-- The first group, and the rest, which only needs its last timestamp. -/
theorem grouping_eq_cons {grouped pendings : List PendingCheckpointInfo}
    {group : List PendingCheckpointInfo}
    (h : grouping start lastTimestamp grouped pendings = group :: groups) :
    ∃ before last after, pendings = before ++ last :: after ∧ group = grouped ++ before ++ [last] ∧
      groups = grouping start (some last.timestampMs) [] after := by
  induction pendings generalizing grouped with
  | nil => cases h
  | cons pending rest ih =>
    rw [grouping] at h
    split at h
    · obtain ⟨rfl, rfl⟩ := List.cons.inj h
      exact ⟨[], pending, rest, rfl, by simp, rfl⟩
    · obtain ⟨before, last, after, rfl, rfl, hg⟩ := ih h
      exact ⟨pending :: before, last, after, rfl, by simp, hg⟩

variable (lastTimestamp groups) in
/-- The timestamp of the last pending checkpoint of some groups, or the one before them. -/
def timestampAfter : Option ℕ := (groups.flatten.getLast?.map (·.timestampMs)).or lastTimestamp

/-- **The groups after the first ones are found from where these end.** -/
theorem grouping_resume {pendings : List PendingCheckpointInfo}
    {groups' : List (List PendingCheckpointInfo)}
    (h : grouping start lastTimestamp [] pendings = groups ++ groups') :
    ∃ after, pendings = groups.flatten ++ after ∧
      groups' = grouping start (timestampAfter lastTimestamp groups) [] after := by
  induction groups generalizing lastTimestamp pendings with
  | nil => exact ⟨pendings, rfl, h.symm⟩
  | cons group groups ih =>
    obtain ⟨before, last, after, rfl, rfl, hg⟩ := grouping_eq_cons h
    obtain ⟨after', rfl, hg'⟩ := ih hg.symm
    refine ⟨after', by simp, ?_⟩
    rw [hg']
    unfold timestampAfter
    simp only [flatten_cons, getLast?_append]
    cases groups.flatten.getLast? <;> rfl

/-! ## Runs -/

/-- The pending checkpoints of an epoch in the order of their commits. -/
structure CommitOrder (epoch : List PendingCheckpointInfo) : Prop where
  heights : epoch.Pairwise fun p p' => p.checkpointHeight < p'.checkpointHeight
  timestamps : epoch.Pairwise fun p p' => p.timestampMs ≤ p'.timestampMs

/-- Timestamps are not raised, or the last checkpoint of the previous epoch is not later than the
pending ones. -/
def NotRaised (start : EpochStart) (epoch : List PendingCheckpointInfo) : Prop :=
  start.enforceCheckpointTimestampMonotonicity = true →
    ∀ previous, start.previousTimestamp = some previous → ∀ p ∈ epoch, previous ≤ p.timestampMs

/-- The summary of a group has the height and the timestamp of its last pending checkpoint. -/
def Plain (group : BuiltGroup) : Prop :=
  ∃ last, group.pendings.getLast? = some last ∧
    group.summary = ⟨some last.checkpointHeight, last.timestampMs⟩

theorem raisedTimestamp_of_le {enforce : Bool} {timestampMs : ℕ} {last : Option ℕ}
    (h : enforce = true → ∀ t, last = some t → t ≤ timestampMs) :
    raisedTimestamp enforce timestampMs last = timestampMs := by
  cases last with
  | none => rfl
  | some t => exact if_neg fun hr => absurd hr.1 (not_lt.2 (h hr.2 t rfl))

theorem makeGroup_plain {grouped : List PendingCheckpointInfo} {last : PendingCheckpointInfo}
    (hb : ∀ g ∈ built, Plain g)
    (hs : ∀ p ∈ built.flatMap (·.pendings), p.timestampMs ≤ last.timestampMs)
    (hpr : start.enforceCheckpointTimestampMonotonicity = true →
      ∀ t, start.previousTimestamp = some t → t ≤ last.timestampMs) :
    Plain (makeGroup start built (grouped ++ [last]) last) := by
  refine ⟨last, by simp [makeGroup], ?_⟩
  refine congrArg (BuilderSummary.mk _) (raisedTimestamp_of_le fun henf t ht => ?_)
  unfold lastCheckpointTimestamp at ht
  split at ht
  · rename_i group hg
    have hmem := mem_of_getLast? hg
    obtain ⟨p, hp, hsu⟩ := hb group hmem
    rw [hsu, Option.some.injEq] at ht
    rw [← ht]
    exact hs p (mem_flatMap.2 ⟨group, hmem, mem_of_getLast? hp⟩)
  · exact hpr henf t ht

/-- No summary of a call is raised. -/
theorem buildLoop_plain {grouped pendings : List PendingCheckpointInfo} (hb : ∀ g ∈ built, Plain g)
    (hs : (built.flatMap (·.pendings) ++ grouped ++ pendings).Pairwise
      fun p p' => p.timestampMs ≤ p'.timestampMs) (hpr : NotRaised start pendings) :
    ∀ g ∈ buildLoop start limit lastTimestamp grouped pendings built, Plain g := by
  induction pendings generalizing limit lastTimestamp grouped built with
  | nil => exact hb
  | cons pending rest ih =>
    have hr : NotRaised start rest := fun henf t ht p hp =>
      hpr henf t ht p (mem_cons_of_mem _ hp)
    rw [buildLoop]
    split
    · split
      · exact hb
      · have hgr : Plain (makeGroup start built (grouped ++ [pending]) pending) := by
          refine makeGroup_plain hb (fun p hp => ?_) fun henf t ht =>
            hpr henf t ht pending mem_cons_self
          exact (pairwise_append.1 hs).2.2 p (mem_append_left _ hp) pending mem_cons_self
        refine ih (fun g hg => ?_) ?_ hr
        · rcases mem_append.1 hg with hg | hg
          · exact hb g hg
          · rw [mem_singleton.1 hg]
            exact hgr
        · simpa [makeGroup] using hs
    · refine ih hb ?_ hr
      simpa using hs

/-- The timestamp that the first call of an epoch starts from. -/
def firstTimestamp (start : EpochStart) : Option ℕ :=
  (lastBuiltBuilderSummary start []).map (·.timestampMs)

/-- What holds between the steps of a builder: its groups are the first ones of the epoch. -/
structure OnTrack (start : EpochStart) (epoch : List PendingCheckpointInfo) (s : BuilderState) :
    Prop where
  groups : s.groups <+: grouping start (firstTimestamp start) [] epoch
  plain : ∀ g ∈ s.built, Plain g

theorem lastSummary_of_plain (start : EpochStart) (h : ∀ g ∈ built, Plain g) :
    (lastBuiltBuilderSummary start built).map (·.timestampMs) =
        timestampAfter (firstTimestamp start) (built.map (·.pendings)) ∧
      (lastBuiltBuilderSummary start built).bind (·.checkpointHeight) =
        (built.map (·.pendings)).flatten.getLast?.map (·.checkpointHeight) := by
  rcases eq_nil_or_concat' built with rfl | ⟨groups, group, rfl⟩
  · refine ⟨rfl, ?_⟩
    unfold lastBuiltBuilderSummary
    simp only [getLast?_nil]
    split
    · cases start.previousTimestamp <;> rfl
    · rfl
  · obtain ⟨last, hl, hs⟩ := h group (by simp)
    have hf : ((groups ++ [group]).map (·.pendings)).flatten.getLast? = some last := by
      simp [hl]
    unfold lastBuiltBuilderSummary timestampAfter
    rw [hf]
    simp [hs]

/-- The pending checkpoints that a call finds: those that have arrived and are in no group. -/
theorem getPendingCheckpoints_after {taken after : List PendingCheckpointInfo}
    (he : CommitOrder (taken ++ after)) :
    getPendingCheckpoints (taken ++ after) s (taken.getLast?.map (·.checkpointHeight)) =
      after.take (s.arrived - taken.length) := by
  have hlater := (pairwise_append.1 he.heights).2.2
  rcases eq_nil_or_concat' taken with rfl | ⟨before, last, rfl⟩
  · simp [getPendingCheckpoints]
  · have hlast : (before ++ [last]).getLast?.map (·.checkpointHeight) =
        some last.checkpointHeight := by simp
    rw [getPendingCheckpoints, hlast]
    refine filter_take_append _ (fun p hp => ?_) fun p hp => ?_
    · have hle : p.checkpointHeight ≤ last.checkpointHeight := by
        rcases mem_append.1 hp with hp | hp
        · exact ((pairwise_append.1 (pairwise_append.1 he.heights).1).2.2 p hp last
            (mem_singleton_self _)).le
        · rw [mem_singleton.1 hp]
      simpa using hle
    · simpa using hlater last (by simp) p hp

/-- **A call goes on with the groups of the epoch.** -/
theorem maybeBuildCheckpoints_groups (he : CommitOrder epoch) (hs : OnTrack start epoch s)
    (limit : Option ℕ) :
    ∃ after, epoch = s.groups.flatten ++ after ∧ grouping start (firstTimestamp start) [] epoch =
        s.groups ++ grouping start (timestampAfter (firstTimestamp start) s.groups) [] after ∧
      getPendingCheckpoints epoch s
          ((lastBuiltBuilderSummary start s.built).bind (·.checkpointHeight)) =
        after.take (s.arrived - s.groups.flatten.length) ∧
      (maybeBuildCheckpoints start epoch limit s).groups = s.groups ++
        upTo limit (grouping start (timestampAfter (firstTimestamp start) s.groups) []
          (after.take (s.arrived - s.groups.flatten.length))) := by
  obtain ⟨groups', hg⟩ := hs.groups
  obtain ⟨after, ha, rfl⟩ := grouping_resume hg.symm
  obtain ⟨htim, hh⟩ := lastSummary_of_plain start hs.plain
  have hp := getPendingCheckpoints_after (s := s) (ha ▸ he)
  rw [← ha, BuilderState.groups, ← hh] at hp
  refine ⟨after, ha, hg.symm, hp, ?_⟩
  unfold maybeBuildCheckpoints BuilderState.groups
  rw [buildLoop_groups, htim, hp]

theorem maybeBuildCheckpoints_onTrack (he : CommitOrder epoch) (hr : NotRaised start epoch)
    (hs : OnTrack start epoch s) (limit : Option ℕ) :
    OnTrack start epoch (maybeBuildCheckpoints start epoch limit s) := by
  obtain ⟨after, ha, hall, hsub, hg⟩ := maybeBuildCheckpoints_groups he hs limit
  refine ⟨?_, ?_⟩
  · rw [hg, hall]
    refine (prefix_append_right_inj _).2 ((upTo_isPrefix _ _).trans ?_)
    exact grouping_mono (List.take_prefix _ _) _ _
  · unfold maybeBuildCheckpoints
    refine buildLoop_plain hs.plain ?_ ?_
    · rw [hsub, append_nil]
      refine he.timestamps.sublist ?_
      conv_rhs => rw [ha]
      exact (take_sublist _ _).append_left _
    · rw [hsub]
      intro henf t ht p hp
      refine hr henf t ht p ?_
      rw [ha]
      exact mem_append_right _ (mem_of_mem_take hp)

theorem onTrack_start (arrived : ℕ) : OnTrack start epoch ⟨arrived, [], 0⟩ :=
  ⟨List.nil_prefix, fun _ h => by cases h⟩

theorem onTrack_of_reach (he : CommitOrder epoch) (hr : NotRaised start epoch)
    (hs : (timingMachine start epoch).Reach Machine.free s) : OnTrack start epoch s := by
  refine hs.invariant ?_ ?_
  · rintro s rfl
    exact onTrack_start 0
  · intro s a s' ht _ hst
    change builderStep start epoch s a = .ok s' at hst
    cases a with
    | arrive | execute _ =>
      simp only [builderStep, ok_iff] at hst
      obtain ⟨_, _, rfl⟩ := hst
      exact ⟨ht.groups, ht.plain⟩
    | call limit =>
      cases hst
      exact maybeBuildCheckpoints_onTrack he hr ht limit
    | restart =>
      cases hst
      refine ⟨?_, fun g hg => ht.plain g (mem_of_mem_take hg)⟩
      refine List.IsPrefix.trans ?_ ht.groups
      unfold BuilderState.groups
      rw [map_take]
      exact take_prefix _ _

theorem groupsAtOnce_eq (he : CommitOrder epoch) :
    groupsAtOnce start epoch = grouping start (firstTimestamp start) [] epoch := by
  obtain ⟨after, ha, _, _, hg⟩ := maybeBuildCheckpoints_groups he (onTrack_start epoch.length) none
  obtain rfl : epoch = after := ha
  rw [groupsAtOnce, hg]
  simp [BuilderState.groups, upTo, timestampAfter]

/-- **Checkpoint boundaries do not depend on when the builder runs.** In every run of arrivals,
calls, executions and restarts the groups built are the first ones of those that one call finds
for the whole epoch; and all of them once everything has arrived and a call runs to its end. -/
theorem groups_independent (hepoch : CommitOrder epoch) (hraised : NotRaised start epoch)
    {s : BuilderState} (hs : (timingMachine start epoch).Reach Machine.free s) :
    s.groups <+: groupsAtOnce start epoch ∧ (s.arrived = epoch.length →
        (maybeBuildCheckpoints start epoch none s).groups = groupsAtOnce start epoch) := by
  have ht := onTrack_of_reach hepoch hraised hs
  rw [groupsAtOnce_eq hepoch]
  refine ⟨ht.groups, fun harr => ?_⟩
  obtain ⟨after, ha, hall, _, hg⟩ := maybeBuildCheckpoints_groups hepoch ht none
  have hl : s.arrived - s.groups.flatten.length = after.length := by
    rw [harr]
    conv_lhs => rw [ha]
    simp
  rw [hg, hall, hl, take_length]
  rfl

/-! ## A checkpoint of the previous epoch from the future -/

namespace TimingSample

/-- The previous epoch ended at 1000. -/
def epochStart : EpochStart := ⟨50, true, some 1000, false⟩

def pendings (first : ℕ) : List PendingCheckpointInfo :=
  [⟨first, false, 2⟩, ⟨first + 100, false, 4⟩, ⟨first + 1000, false, 6⟩]

end TimingSample

open TimingSample

/-- A builder that is called after the first pending checkpoint keeps the second one back. -/
theorem groups_depend : CommitOrder (pendings 100) ∧ ∃ s,
        (timingMachine epochStart (pendings 100)).Reach Machine.free s ∧
        s.arrived = (pendings 100).length ∧
        (maybeBuildCheckpoints epochStart (pendings 100) none s).groups ≠
          groupsAtOnce epochStart (pendings 100) := by
  refine ⟨⟨by decide, by decide⟩, ?_⟩
  exact exists_reach [.arrive, .call none, .arrive, .arrive] _ (init_ok rfl)
    (by decide +kernel)

/-- With pending checkpoints from after the end of the previous epoch it does not. -/
theorem groups_independent_sample :
    ∃ s, (timingMachine epochStart (pendings 1000)).Reach Machine.free s ∧
      s.groups.length = 1 ∧ s.arrived = 3 ∧
      (maybeBuildCheckpoints epochStart (pendings 1000) none s).groups =
        groupsAtOnce epochStart (pendings 1000) := by
  have hr : NotRaised epochStart (pendings 1000) := by
    rintro - previous hp
    obtain rfl := Option.some.inj hp
    decide
  refine exists_assoc (exists_reach_and
    [.arrive, .call none, .execute 1, .restart, .arrive, .arrive] _ (init_ok rfl)
    (by decide +kernel) fun s hs h => ?_)
  exact (groups_independent ⟨by decide, by decide⟩ hr hs).2 h.2

end OneChain.Checkpoints
