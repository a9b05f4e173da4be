import OneChain.Authority.CommitBoundary

/-!
# The outcome of DKG across restarts

`RandomnessManager` runs the distributed key generation (DKG) of the random beacon over consensus:
messages are collected until they can be merged, then confirmations until the output is complete. If
there is no output when the timeout round has passed, DKG has failed for the epoch. What a commit
does with transactions that use randomness depends on the status at its start.

What the manager learns in a commit goes into the output of the commit, and with it into the tables
of the epoch. A restart loads the manager from the tables, and the commits whose output was not
written are processed again. The machine here processes the commits of an epoch, writes their
outputs one after the other, and restarts at any time.

* `Mirrors` — what the tables have of a manager: everything, except that it has failed.
* `statuses_survive` — if no restart comes after the commit in which DKG has failed is written,
  every commit is processed under the status of a validator that never restarts; if one does, the
  next commit is not.
* `dkg_ends` — a commit past the timeout round ends DKG exactly if it brings a DKG message. A silent
  one does not: the test for the timeout is in `advance_dkg`, which is called only after a message.
-/

namespace OneChain.Authority

open Lib List Option Machine

/-! ## The manager -/

abbrev PartyId := ℕ

/-- A DKG message or confirmation. -/
structure DkgMessage where
  sender : PartyId
  body : ℕ

/-- `V0` is deprecated. -/
inductive VersionedDkgMessage
  | v0
  | v1 (msg : DkgMessage)

/-- `is_valid_version`, with the message of a valid version. -/
def VersionedDkgMessage.valid (msg : VersionedDkgMessage) (dkgVersion : ℕ) : Option DkgMessage :=
  match msg, dkgVersion with
  | .v1 msg, 1 => some msg
  | _, _ => none

/-- The steps of the DKG protocol, which succeed or not on what they are given. -/
structure DkgCrypto where
  Processed : Type
  Used : Type
  Output : Type
  process : DkgMessage → Option Processed
  merge : List (PartyId × Processed) → Option Used
  complete : Used → List (PartyId × ℕ) → Option Output

structure RandomnessConfig where
  (dkgVersion randomBeaconDkgTimeoutRound : ℕ)
  /-- The party of an authority. -/
  authorityInfo : ℕ → Option PartyId

/-- A processed message and a confirmation are kept under their sender. -/
structure RandomnessManager (K : DkgCrypto) where
  enqueuedMessages : OrdMap PartyId ℕ
  processedMessages : OrdMap PartyId K.Processed
  usedMessages : Option K.Used
  confirmations : OrdMap PartyId ℕ
  /-- `some none` if DKG has failed. -/
  dkgOutput : Option (Option K.Output)

/-- The tables of the epoch that have to do with DKG. -/
structure DkgTables (K : DkgCrypto) where
  dkgProcessedMessages : OrdMap PartyId K.Processed
  dkgUsedMessages : Option K.Used
  dkgConfirmations : OrdMap PartyId ℕ
  dkgOutput : Option K.Output

/-- What of the output of a commit has to do with DKG. -/
structure DkgCommitOutput (K : DkgCrypto) where
  dkgProcessedMessages : OrdMap PartyId K.Processed
  dkgUsedMessage : Option K.Used
  dkgConfirmations : OrdMap PartyId ℕ
  dkgOutput : Option K.Output

/-- A DKG message or confirmation in a commit; `none` for bytes that are none. `acceptTx` is
`should_accept_tx` when it is processed. -/
inductive DkgTransaction
  | message (acceptTx : Bool) (authority : ℕ) (bytes : Option VersionedDkgMessage)
  | confirmation (acceptTx : Bool) (authority : ℕ) (bytes : Option VersionedDkgMessage)

structure DkgCommit where
  round : ℕ
  transactions : List DkgTransaction

variable {K : DkgCrypto}

namespace DkgCommitOutput

def new : DkgCommitOutput K := ⟨.empty, none, .empty, none⟩

variable (output : DkgCommitOutput K)

def insertDkgProcessedMessage (sender : PartyId) (message : K.Processed) : DkgCommitOutput K :=
  { output with dkgProcessedMessages := output.dkgProcessedMessages.insert sender message }

def insertDkgUsedMessages (used : K.Used) : DkgCommitOutput K :=
  { output with dkgUsedMessage := some used }

def insertDkgConfirmation (conf : DkgMessage) : DkgCommitOutput K :=
  { output with dkgConfirmations := output.dkgConfirmations.insert conf.sender conf.body }

def setDkgOutput (dkgOutput : K.Output) : DkgCommitOutput K :=
  { output with dkgOutput := some dkgOutput }

end DkgCommitOutput

namespace DkgTables

def empty : DkgTables K := ⟨.empty, none, .empty, none⟩

/-- `write_to_batch`. -/
def write (tables : DkgTables K) (output : DkgCommitOutput K) : DkgTables K where
  dkgProcessedMessages := tables.dkgProcessedMessages.insertBatch output.dkgProcessedMessages
  dkgUsedMessages := output.dkgUsedMessage.or tables.dkgUsedMessages
  dkgConfirmations := tables.dkgConfirmations.insertBatch output.dkgConfirmations
  dkgOutput := output.dkgOutput.or tables.dkgOutput

end DkgTables

namespace RandomnessManager

/-- `try_new`: the output if there is one, otherwise what there is on the way to it. -/
def tryNew (tables : DkgTables K) : RandomnessManager K :=
  match tables.dkgOutput with
  | some dkgOutput => ⟨.empty, .empty, none, .empty, some (some dkgOutput)⟩
  | none =>
    ⟨.empty, tables.dkgProcessedMessages, tables.dkgUsedMessages, tables.dkgConfirmations, none⟩

variable (rm : RandomnessManager K)

def dkgStatus : DkgStatus :=
  match rm.dkgOutput with
  | some (some _) => .successful
  | some none => .failed
  | none => .pending

variable (config : RandomnessConfig)

def addMessage (rm : RandomnessManager K) (authority : ℕ)
    (msg : VersionedDkgMessage) : RandomnessManager K :=
  match msg.valid config.dkgVersion with
  | none => rm
  | some msg =>
    if rm.usedMessages.isSome ∨ rm.dkgOutput.isSome then rm
    else
      match config.authorityInfo authority with
      | none => rm
      | some partyId =>
        if partyId ≠ msg.sender then rm
        else if msg.sender ∈ rm.enqueuedMessages ∨ msg.sender ∈ rm.processedMessages then rm
        else { rm with enqueuedMessages := rm.enqueuedMessages.insert msg.sender msg.body }

def addConfirmation (rm : RandomnessManager K)
    (output : DkgCommitOutput K) (authority : ℕ) (conf : VersionedDkgMessage) :
    RandomnessManager K × DkgCommitOutput K :=
  match conf.valid config.dkgVersion with
  | none => (rm, output)
  | some conf =>
    if rm.dkgOutput.isSome then (rm, output)
    else
      match config.authorityInfo authority with
      | none => (rm, output)
      | some partyId =>
        if partyId ≠ conf.sender then (rm, output)
        else
          ({ rm with confirmations := rm.confirmations.insert conf.sender conf.body },
            output.insertDkgConfirmation conf)

/-- One round of the loop over the enqueued messages. -/
def processEnqueued (state : RandomnessManager K × DkgCommitOutput K) (e : PartyId × ℕ) :
    RandomnessManager K × DkgCommitOutput K :=
  match K.process ⟨e.1, e.2⟩ with
  | some processed =>
    ({ state.1 with processedMessages := state.1.processedMessages.insert e.1 processed },
      state.2.insertDkgProcessedMessage e.1 processed)
  | none => state

/-- The first part of `advance_dkg`: once there are enough messages, they are used. -/
def mergeMessages (output : DkgCommitOutput K) : RandomnessManager K × DkgCommitOutput K :=
  if rm.dkgOutput.isNone ∧ rm.usedMessages.isNone then
    let (rm, output) := rm.enqueuedMessages.entries.foldl processEnqueued
      ({ rm with enqueuedMessages := .empty }, output)
    match K.merge rm.processedMessages.entries with
    | some used =>
      ({ rm with usedMessages := some used }, output.insertDkgUsedMessages used)
    | none => (rm, output)
  else (rm, output)

/-- The second part: once there are enough confirmations, DKG is complete. -/
def completeDkg (output : DkgCommitOutput K) : RandomnessManager K × DkgCommitOutput K :=
  if rm.dkgOutput.isNone then
    match rm.usedMessages with
    | none => (rm, output)
    | some used =>
      match K.complete used rm.confirmations.entries with
      | some dkgOutput =>
        ({ rm with dkgOutput := some (some dkgOutput) }, output.setDkgOutput dkgOutput)
      | none => (rm, output)
  else (rm, output)

/-- The third part: if time has run out, DKG has failed. Nothing goes into the output. -/
def timeOut (rm : RandomnessManager K) (round : ℕ) : RandomnessManager K :=
  if rm.dkgOutput.isNone ∧ round > config.randomBeaconDkgTimeoutRound then
    { rm with dkgOutput := some none }
  else rm

def advanceDkg (rm : RandomnessManager K)
    (output : DkgCommitOutput K) (round : ℕ) : RandomnessManager K × DkgCommitOutput K :=
  let (rm, output) := rm.mergeMessages output
  let (rm, output) := rm.completeDkg output
  (rm.timeOut config round, output)

/-- What `process_consensus_transaction` does with DKG messages. -/
def processTransaction (state : RandomnessManager K × DkgCommitOutput K) (tx : DkgTransaction) :
    RandomnessManager K × DkgCommitOutput K :=
  match tx with
  | .message true authority (some msg) => (state.1.addMessage config authority msg, state.2)
  | .confirmation true authority (some conf) =>
    state.1.addConfirmation config state.2 authority conf
  | .message _ _ _ => state
  | .confirmation _ _ _ => state

/-- What a commit does with the manager. DKG advances if there was a message, accepted or not. -/
def handleCommit (rm : RandomnessManager K) (c : DkgCommit) :
    RandomnessManager K × DkgCommitOutput K :=
  let state := c.transactions.foldl (processTransaction config) (rm, .new)
  if c.transactions = [] then state else state.1.advanceDkg config state.2 c.round

end RandomnessManager

/-! ## A validator -/

/-- A validator in an epoch: how many commits have their output in the tables, the outputs of the
commits after them, and the status under which each commit was processed. -/
structure DkgNode (K : DkgCrypto) where
  manager : RandomnessManager K
  tables : DkgTables K
  persisted : ℕ
  outputs : List (DkgCommitOutput K)
  statuses : List (ℕ × DkgStatus)

inductive DkgAction
  | commit
  | persist
  | restart
  deriving DecidableEq

inductive DkgDisabled
  | noCommit
  | noOutput

namespace DkgNode

def handled (s : DkgNode K) : ℕ := s.persisted + s.outputs.length

/-- `commits` are the commits of the epoch. -/
def step (config : RandomnessConfig) (commits : List DkgCommit) (s : DkgNode K) :
    DkgAction → Except DkgDisabled (DkgNode K)
  | .commit =>
    match commits[s.handled]? with
    | none => .error .noCommit
    | some c =>
      let result := s.manager.handleCommit config c
      .ok { s with
        manager := result.1
        outputs := s.outputs ++ [result.2]
        statuses := s.statuses ++ [(s.handled, s.manager.dkgStatus)] }
  | .persist =>
    match s.outputs with
    | [] => .error .noOutput
    | output :: rest =>
      .ok { s with
        tables := s.tables.write output
        persisted := s.persisted + 1
        outputs := rest }
  | .restart => .ok { s with manager := .tryNew s.tables, outputs := [] }

def start : DkgNode K := ⟨.tryNew .empty, .empty, 0, [], []⟩

def machine (config : RandomnessConfig) (commits : List DkgCommit) :
    Machine (DkgNode K) DkgAction DkgDisabled where
  init s := s = start
  step := step config commits

end DkgNode

/-- The manager of a validator that has processed commits without a restart, and the tables with
all outputs written. -/
def uninterrupted (config : RandomnessConfig) (commits : List DkgCommit) :
    RandomnessManager K × DkgTables K :=
  commits.foldl (fun state c =>
    let result := state.1.handleCommit config c
    (result.1, state.2.write result.2)) (.tryNew .empty, .empty)

/-- The status under which such a validator processes the next commit. -/
def statusAfter (K : DkgCrypto) (config : RandomnessConfig) (commits : List DkgCommit) :
    DkgStatus :=
  (uninterrupted (K := K) config commits).1.dkgStatus

/-! ## What the tables have of a manager -/

/-- The tables have the output of a manager; while there is none and DKG has not failed, they have
all that it knows. -/
structure Mirrors (tables : DkgTables K) (rm : RandomnessManager K) : Prop where
  output : tables.dkgOutput = rm.dkgOutput.join
  known : rm.dkgOutput = none → tables.dkgProcessedMessages = rm.processedMessages ∧
    tables.dkgUsedMessages = rm.usedMessages ∧ tables.dkgConfirmations = rm.confirmations
  waiting : (∃ k, k ∈ rm.enqueuedMessages) → rm.dkgOutput = none ∧ rm.usedMessages = none

/-- No message waits either. -/
abbrev Rests (tables : DkgTables K) (rm : RandomnessManager K) : Prop :=
  Mirrors tables rm ∧ ∀ k, k ∉ rm.enqueuedMessages

section Mirrors

variable {config : RandomnessConfig} {tables : DkgTables K} {output : DkgCommitOutput K}
  {rm : RandomnessManager K}

theorem write_insertDkgProcessedMessage {sender : PartyId} {processed : K.Processed} :
    tables.write (output.insertDkgProcessedMessage sender processed) =
      { tables.write output with
        dkgProcessedMessages := (tables.write output).dkgProcessedMessages.insert sender processed
      } := by
  simp only [DkgTables.write, DkgCommitOutput.insertDkgProcessedMessage, OrdMap.insertBatch_insert]

theorem write_insertDkgConfirmation {conf : DkgMessage} :
    tables.write (output.insertDkgConfirmation conf) =
      { tables.write output with
        dkgConfirmations := (tables.write output).dkgConfirmations.insert conf.sender conf.body
      } := by
  simp only [DkgTables.write, DkgCommitOutput.insertDkgConfirmation, OrdMap.insertBatch_insert]

namespace Mirrors

theorem empty : Mirrors (.empty : DkgTables K) (.tryNew .empty) where
  output := rfl
  known _ := ⟨rfl, rfl, rfl⟩
  waiting := by
    rintro ⟨k, hk⟩
    cases hk

theorem addMessage (h : Mirrors tables rm) (authority : ℕ) (msg : VersionedDkgMessage) :
    Mirrors tables (rm.addMessage config authority msg) := by
  unfold RandomnessManager.addMessage
  split
  · exact h
  split
  · exact h
  next hf =>
    split
    · exact h
    split
    · exact h
    split
    · exact h
    · rw [not_or, not_isSome_iff_eq_none, not_isSome_iff_eq_none] at hf
      exact ⟨h.output, h.known, fun _ => ⟨hf.2, hf.1⟩⟩

theorem addConfirmation (h : Mirrors (tables.write output) rm) (authority : ℕ)
    (conf : VersionedDkgMessage) :
    Mirrors (tables.write (rm.addConfirmation config output authority conf).2)
      (rm.addConfirmation config output authority conf).1 := by
  unfold RandomnessManager.addConfirmation
  split
  · exact h
  split
  · exact h
  split
  · exact h
  split
  · exact h
  · rw [write_insertDkgConfirmation]
    refine ⟨h.output, fun hn => ?_, h.waiting⟩
    obtain ⟨hp, hu, hc⟩ := h.known hn
    exact ⟨hp, hu, by rw [hc]⟩

variable {state : RandomnessManager K × DkgCommitOutput K}

theorem processTransaction (h : Mirrors (tables.write state.2) state.1) (tx : DkgTransaction) :
    Mirrors (tables.write (RandomnessManager.processTransaction config state tx).2)
      (RandomnessManager.processTransaction config state tx).1 := by
  unfold RandomnessManager.processTransaction
  split
  · exact h.addMessage _ _
  · exact h.addConfirmation _ _
  · exact h
  · exact h

theorem processTransactions (config : RandomnessConfig) (h : Mirrors (tables.write state.2) state.1)
    (txs : List DkgTransaction) :
    Mirrors (tables.write (txs.foldl (RandomnessManager.processTransaction config) state).2)
      (txs.foldl (RandomnessManager.processTransaction config) state).1 := by
  induction txs generalizing state with
  | nil => exact h
  | cons tx txs ih => exact ih (h.processTransaction tx)

theorem processEnqueued (l : List (PartyId × ℕ)) (h : Mirrors (tables.write output) rm)
    (hn : rm.dkgOutput = none) (he : rm.enqueuedMessages = .empty) :
    Mirrors (tables.write (l.foldl RandomnessManager.processEnqueued (rm, output)).2)
        (l.foldl RandomnessManager.processEnqueued (rm, output)).1 ∧
      (l.foldl RandomnessManager.processEnqueued (rm, output)).1.dkgOutput = none ∧
      (l.foldl RandomnessManager.processEnqueued (rm, output)).1.enqueuedMessages = .empty := by
  induction l generalizing rm output with
  | nil => exact ⟨h, hn, he⟩
  | cons e l ih =>
    rw [foldl_cons]
    unfold RandomnessManager.processEnqueued
    split
    · refine ih ?_ hn he
      rw [write_insertDkgProcessedMessage]
      obtain ⟨hp, hu, hc⟩ := h.known hn
      exact ⟨h.output, fun _ => ⟨by rw [hp], hu, hc⟩, h.waiting⟩
    · exact ih h hn he

theorem mergeMessages (h : Mirrors (tables.write output) rm) :
    Rests (tables.write (rm.mergeMessages output).2) (rm.mergeMessages output).1 := by
  unfold RandomnessManager.mergeMessages
  split
  next hf =>
    rw [isNone_iff_eq_none] at hf
    have hs : Mirrors (tables.write output) { rm with enqueuedMessages := .empty } :=
      ⟨h.output, h.known, fun ⟨k, hk⟩ => by cases hk⟩
    obtain ⟨hl, hn, he⟩ := processEnqueued rm.enqueuedMessages.entries hs hf.1 rfl
    have hno : ∀ k, k ∉ (OrdMap.empty : OrdMap PartyId ℕ) := fun k hk => by cases hk
    dsimp only
    split
    · refine ⟨⟨hl.output, fun _ => ?_, fun ⟨k, hk⟩ => ?_⟩, fun k hk => ?_⟩
      · obtain ⟨hp, hu, hc⟩ := hl.known hn
        exact ⟨hp, rfl, hc⟩
      · exact absurd (he ▸ hk) (hno k)
      · exact absurd (he ▸ hk) (hno k)
    · exact ⟨hl, fun k hk => absurd (he ▸ hk) (hno k)⟩
  next hb =>
    refine ⟨h, fun k hk => hb ?_⟩
    obtain ⟨ho, hu⟩ := h.waiting ⟨k, hk⟩
    rw [ho, hu]
    exact ⟨rfl, rfl⟩

theorem completeDkg (h : Rests (tables.write output) rm) :
    Rests (tables.write (rm.completeDkg output).2) (rm.completeDkg output).1 := by
  unfold RandomnessManager.completeDkg
  split
  · split
    · exact h
    split
    · exact ⟨⟨rfl, nofun, fun ⟨k, hk⟩ => absurd hk (h.2 k)⟩, h.2⟩
    · exact h
  · exact h

theorem timeOut (h : Rests tables rm) (round : ℕ) : Rests tables (rm.timeOut config round) := by
  unfold RandomnessManager.timeOut
  split
  next hf =>
    have ho := h.1.output
    rw [isNone_iff_eq_none.1 hf.1] at ho
    exact ⟨⟨ho, nofun, fun ⟨k, hk⟩ => absurd hk (h.2 k)⟩, h.2⟩
  next => exact h

/-- **What a commit changes in the manager goes into its output**, but for a failure. No message is
left in the queue. -/
theorem handleCommit (h : Rests tables rm) (c : DkgCommit) :
    Rests (tables.write (rm.handleCommit config c).2) (rm.handleCommit config c).1 := by
  unfold RandomnessManager.handleCommit
  have hst : Mirrors (tables.write (rm, (.new : DkgCommitOutput K)).2) rm := h.1
  have hs := processTransactions config hst c.transactions
  split
  next hnil =>
    rw [hnil] at hs ⊢
    exact ⟨hs, h.2⟩
  next => exact timeOut (completeDkg hs.mergeMessages) c.round

end Mirrors

theorem uninterrupted_concat (commits : List DkgCommit) (c : DkgCommit) :
    uninterrupted config (commits ++ [c]) =
      (((uninterrupted (K := K) config commits).1.handleCommit config c).1,
        (uninterrupted (K := K) config commits).2.write
          ((uninterrupted (K := K) config commits).1.handleCommit config c).2) := by
  simp [uninterrupted]

theorem mirrors_uninterrupted (config : RandomnessConfig) (commits : List DkgCommit) :
    Rests (uninterrupted (K := K) config commits).2 (uninterrupted (K := K) config commits).1 := by
  induction commits using List.reverseRecOn with
  | nil => exact ⟨.empty, fun k hk => by cases hk⟩
  | append_singleton commits c ih =>
    rw [uninterrupted_concat]
    exact Mirrors.handleCommit ih c

theorem RandomnessManager.dkgStatus_ne_failed :
    rm.dkgStatus ≠ .failed ↔ rm.dkgOutput ≠ some none := by
  unfold dkgStatus
  rcases hc : rm.dkgOutput with _ | _ | _ <;> simp

/-- Once DKG has ended, a commit changes nothing. -/
theorem RandomnessManager.handleCommit_done (h : rm.dkgOutput.isSome) (c : DkgCommit) :
    rm.handleCommit config c = (rm, .new) := by
  have hm : ∀ authority msg, rm.addMessage config authority msg = rm := by
    intro authority msg
    unfold addMessage
    split
    · rfl
    · rw [if_pos (.inr h)]
  have hc : ∀ authority conf, rm.addConfirmation config .new authority conf = (rm, .new) := by
    intro authority conf
    unfold addConfirmation
    split
    · rfl
    · rw [if_pos h]
  have hl : ∀ txs : List DkgTransaction,
      txs.foldl (processTransaction config) (rm, .new) = (rm, .new) := by
    intro txs
    induction txs with
    | nil => rfl
    | cons tx txs ih =>
      rw [foldl_cons]
      have hone : processTransaction config (rm, .new) tx = (rm, .new) := by
        unfold processTransaction
        split
        · rw [hm]
        · exact hc _ _
        · rfl
        · rfl
      rw [hone, ih]
  have hs : ¬ rm.dkgOutput.isNone = true := by
    rw [isNone_iff_eq_none]
    exact fun hn => by simp [hn] at h
  unfold handleCommit
  rw [hl]
  simp only [advanceDkg, mergeMessages, completeDkg, timeOut, hs, false_and, if_false,
    ite_self, Bool.false_eq_true]

/-- Two managers for which every commit is the same from now on: they are equal, or both have an
output. -/
def RandomnessManager.Agrees (rm rm' : RandomnessManager K) : Prop :=
  rm = rm' ∨ rm.dkgStatus = .successful ∧ rm'.dkgStatus = .successful

variable {rm' : RandomnessManager K}

theorem RandomnessManager.Agrees.dkgStatus_eq (h : rm.Agrees rm') :
    rm.dkgStatus = rm'.dkgStatus := by
  rcases h with rfl | ⟨hrm, hrm'⟩
  · rfl
  · rw [hrm, hrm']

theorem RandomnessManager.isSome_of_successful (h : rm.dkgStatus = .successful) :
    rm.dkgOutput.isSome := by
  unfold dkgStatus at h
  split at h
  next hs => simp [hs]
  next => cases h
  next => cases h

theorem RandomnessManager.Agrees.handleCommit (h : rm.Agrees rm') (config : RandomnessConfig)
    (c : DkgCommit) :
    (rm.handleCommit config c).1.Agrees (rm'.handleCommit config c).1 ∧
      (rm.handleCommit config c).2 = (rm'.handleCommit config c).2 := by
  rcases h with rfl | ⟨hrm, hrm'⟩
  · exact ⟨.inl rfl, rfl⟩
  · rw [handleCommit_done (isSome_of_successful hrm), handleCommit_done (isSome_of_successful hrm')]
    exact ⟨.inr ⟨hrm, hrm'⟩, rfl⟩

/-- **A manager that has not failed is what the tables give back.** -/
theorem Mirrors.tryNew_agrees (h : Rests tables rm) (hf : rm.dkgStatus ≠ .failed) :
    (RandomnessManager.tryNew tables).Agrees rm := by
  have ho := h.1.output
  rcases hc : rm.dkgOutput with _ | _ | dkgOutput
  · -- still pending: the tables have all of it
    left
    obtain ⟨hp, hu, hco⟩ := h.1.known hc
    have hq : rm.enqueuedMessages = .empty :=
      OrdMap.ext_get? fun k => (OrdMap.notMem_iff.1 (h.2 k)).trans rfl
    unfold RandomnessManager.tryNew
    rw [ho, hp, hu, hco]
    cases rm
    simp only at hc hq
    rw [hc, hq]
    rfl
  · exact absurd hc (RandomnessManager.dkgStatus_ne_failed.1 hf)
  · right
    rw [hc] at ho
    constructor
    · unfold RandomnessManager.tryNew
      rw [ho]
      rfl
    · unfold RandomnessManager.dkgStatus
      rw [hc]

/-- A failure is not in the tables. -/
theorem Mirrors.tryNew_pending (h : Mirrors tables rm) (hf : rm.dkgStatus = .failed) :
    (RandomnessManager.tryNew tables).dkgStatus = .pending := by
  have hc : rm.dkgOutput = some none := by
    by_contra hnot
    exact RandomnessManager.dkgStatus_ne_failed.2 hnot hf
  have ho := h.output
  rw [hc] at ho
  unfold RandomnessManager.tryNew
  rw [ho]
  rfl

end Mirrors

/-! ## Runs with restarts -/

namespace DkgNode

variable {config : RandomnessConfig} {commits : List DkgCommit} {s s' : DkgNode K}

variable (config commits s) in
/-- No restart comes after the commit in which DKG has failed is written. -/
def Unfailed (a : DkgAction) : Prop :=
  a = .restart → statusAfter K config (commits.take s.persisted) ≠ .failed
  deriving Decidable

variable (config commits s) in
/-- The node has the manager and the tables of a validator that never restarts. -/
structure Inv : Prop where
  handled_le : s.handled ≤ commits.length
  manager : s.manager.Agrees (uninterrupted config (commits.take s.handled)).1
  tables : ∀ j ≤ s.outputs.length, (s.outputs.take j).foldl DkgTables.write s.tables =
    (uninterrupted config (commits.take (s.persisted + j))).2
  statuses : ∀ e ∈ s.statuses, e.2 = statusAfter K config (commits.take e.1)

theorem Inv.persisted_tables (h : Inv config commits s) :
    s.tables = (uninterrupted config (commits.take s.persisted)).2 :=
  h.tables 0 (Nat.zero_le _)

theorem Inv.start : Inv config commits (start : DkgNode K) where
  handled_le := Nat.zero_le _
  manager := .inl (by simp [DkgNode.start, handled, uninterrupted])
  tables j hj := by
    obtain rfl : j = 0 := Nat.le_zero.1 hj
    simp [DkgNode.start, uninterrupted]
  statuses := by simp [DkgNode.start]

theorem take_handled {c : DkgCommit} (h : commits[s.handled]? = some c) :
    commits.take (s.handled + 1) = commits.take s.handled ++ [c] := by
  rw [take_add_one, h]
  rfl

section

variable (h : Inv config commits s)
include h

theorem Inv.commit (hs : s.step config commits .commit = .ok s') : Inv config commits s' := by
  simp only [step] at hs
  split at hs
  next => cases hs
  next c hc =>
    cases hs
    obtain ⟨hman, ho⟩ := h.manager.handleCommit config c
    have hh : s.persisted + (s.outputs.length + 1) = s.handled + 1 := rfl
    have ht := take_handled hc
    refine ⟨?_, ?_, fun j hj => ?_, fun e he => ?_⟩
    · have hlt := (List.getElem?_eq_some_iff.1 hc).1
      simp only [handled, length_append]
      exact hlt
    · simp only [handled, length_append, length_singleton]
      rw [hh, ht, uninterrupted_concat]
      exact hman
    · rw [length_append, length_singleton] at hj
      rcases Nat.le_or_eq_of_le_succ hj with hj | rfl
      · dsimp only
        rw [take_append_of_le_length hj]
        exact h.tables j hj
      · have hl := h.tables s.outputs.length le_rfl
        rw [take_length] at hl
        rw [take_of_length_le (by simp), foldl_append, hl, hh, ht, uninterrupted_concat, ho]
        rfl
    · rcases mem_append.1 he with he | he
      · exact h.statuses e he
      · rw [mem_singleton.1 he]
        exact h.manager.dkgStatus_eq

theorem Inv.persist (hs : s.step config commits .persist = .ok s') : Inv config commits s' := by
  simp only [step] at hs
  split at hs
  next => cases hs
  next output rest ho =>
    cases hs
    have hh : s.persisted + 1 + rest.length = s.handled := by
      rw [handled, ho, length_cons]
      omega
    refine ⟨?_, ?_, fun j hj => ?_, h.statuses⟩
    · simp only [handled]
      rw [hh]
      exact h.handled_le
    · simp only [handled]
      rw [hh]
      exact h.manager
    · have hj' : j + 1 ≤ s.outputs.length := by
        rw [ho]
        exact Nat.succ_le_succ hj
      have ht := h.tables (j + 1) hj'
      rw [ho, take_succ_cons, foldl_cons] at ht
      dsimp only
      rw [ht]
      congr 3
      omega

theorem Inv.restart (hunf : Unfailed config commits s .restart)
    (hs : s.step config commits .restart = .ok s') : Inv config commits s' := by
  cases hs
  have hm := mirrors_uninterrupted (K := K) config (commits.take s.persisted)
  refine ⟨(Nat.le_add_right _ _).trans h.handled_le, ?_, fun j hj => ?_, h.statuses⟩
  · dsimp only [handled]
    rw [h.persisted_tables]
    exact Mirrors.tryNew_agrees hm (hunf rfl)
  · obtain rfl : j = 0 := Nat.le_zero.1 hj
    exact h.persisted_tables

end

theorem inv_of_reach (h : (machine config commits).Reach (Unfailed config commits) s) :
    Inv config commits s := by
  refine h.invariant (fun s hs => ?_) fun s a s' hs hunf hst => ?_
  · rw [show s = DkgNode.start from hs]
    exact .start
  · cases a with
    | commit => exact hs.commit hst
    | persist => exact hs.persist hst
    | restart => exact hs.restart hunf hst

/-- **The outcome of DKG survives restarts, unless it is a failure.** If no restart comes after the
commit in which DKG has failed is written, every commit is processed under the status that a
validator uses that never restarts. If one does, the next commit is processed as if DKG was still
pending. -/
theorem statuses_survive (h : (machine config commits).Reach (Unfailed config commits) s) :
    (∀ e ∈ s.statuses, e.2 = statusAfter K config (commits.take e.1)) ∧
    ∀ s' s'', ¬ Unfailed config commits s .restart →
      (machine config commits).step s .restart = .ok s' →
      (machine config commits).step s' .commit = .ok s'' →
      s''.statuses = s'.statuses ++ [(s'.handled, .pending)] ∧
        statusAfter K config (commits.take s'.handled) = .failed := by
  have hinv := inv_of_reach h
  refine ⟨hinv.statuses, fun s' s'' hf hr hco => ?_⟩
  cases hr
  have hs : statusAfter K config (commits.take s.persisted) = .failed := by
    by_contra hnot
    exact hf fun _ => hnot
  have hm := (mirrors_uninterrupted (K := K) config (commits.take s.persisted)).1
  have hp := hm.tryNew_pending hs
  rw [← hinv.persisted_tables] at hp
  simp only [machine, step] at hco
  split at hco
  next => cases hco
  next c _ =>
    cases hco
    exact ⟨by rw [hp], hs⟩

end DkgNode

/-! ## The timeout -/

section Timeout

variable {config : RandomnessConfig} {rm : RandomnessManager K}

theorem RandomnessManager.dkgStatus_ne_pending : rm.dkgStatus ≠ .pending ↔ rm.dkgOutput.isSome := by
  unfold dkgStatus
  rcases rm.dkgOutput with _ | _ | _ <;> simp

/-- After the timeout round, a commit that brings a message ends DKG, and no other does. -/
theorem RandomnessManager.handleCommit_timeout {c : DkgCommit}
    (hr : config.randomBeaconDkgTimeoutRound < c.round) :
    (rm.handleCommit config c).1.dkgStatus ≠ .pending ↔
      rm.dkgStatus ≠ .pending ∨ c.transactions ≠ [] := by
  unfold handleCommit
  by_cases hm : c.transactions = []
  · simp [hm]
  · rw [if_neg hm]
    refine iff_of_true (dkgStatus_ne_pending.2 ?_) (.inr hm)
    simp only [advanceDkg, timeOut]
    split
    · rfl
    next hnot =>
      rw [not_and, isNone_iff_eq_none] at hnot
      exact isSome_iff_ne_none.2 fun hn => hnot hn hr

variable {boundary : CommitConfig} {t : CommitState} {d : ConsensusCommit} {q : Sequencing}
  {tx : UserTransaction} (hq : (q.dkgFailed, q.randomnessRound) = randomnessOutcome boundary t d)

include hq

/-- While DKG is pending, every transaction that uses randomness is deferred. -/
theorem shouldDefer_of_pending (he : boundary.randomnessStateEnabled = true)
    (hu : tx.usesRandomness = true) (hs : d.dkgStatus = .pending) :
    shouldDefer boundary d q tx =
      some (.randomness (deferredFrom d q tx), .randomnessNotReady) := by
  simp only [randomnessOutcome, he, hs, if_true, Prod.mk.injEq] at hq
  simp [shouldDefer, hq, he, hu]

/-- Afterwards one is deferred only if DKG was successful, and the commit has no randomness. -/
theorem dkgStatus_of_shouldDefer {key : DeferralKey} (hs : d.dkgStatus ≠ .pending)
    (h : shouldDefer boundary d q tx = some (key, .randomnessNotReady)) :
    d.dkgStatus = .successful := by
  unfold shouldDefer at h
  split at h
  next hw =>
    simp only [randomnessOutcome, hw.1, hw.2.2.1] at hq
    cases hc : d.dkgStatus with
    | pending => exact absurd hc hs
    | failed => simp [hc] at hq
    | successful => rfl
  next => cases hco : d.congested tx.digest <;> simp [hco] at h

end Timeout

namespace DkgNode

variable {config : RandomnessConfig} {commits : List DkgCommit} {s s' : DkgNode K}
  {as : List DkgAction}

/-- The next commit is processed under the status of the manager, and once DKG has ended it does not
start again before a restart. -/
theorem statuses_of_run (has : .restart ∉ as)
    (hrun : (machine config commits).run s as = .ok s') :
    ∃ later, s'.statuses = s.statuses ++ later ∧
      (∀ e ∈ later.head?, e.2 = s.manager.dkgStatus) ∧
      (s.manager.dkgStatus ≠ .pending → ∀ e ∈ later, e.2 ≠ .pending) := by
  induction as generalizing s with
  | nil =>
    cases hrun
    exact ⟨[], by simp, by simp, by simp⟩
  | cons a as ih =>
    obtain ⟨u, hs, hrun⟩ := bind_ok.1 hrun
    rw [mem_cons, not_or] at has
    obtain ⟨later, hl, hhead, hall⟩ := ih has.2 hrun
    cases a with
    | commit =>
      simp only [machine, step] at hs
      split at hs
      next => cases hs
      next c _ =>
        cases hs
        refine ⟨(s.handled, s.manager.dkgStatus) :: later, by simp [hl], by simp, fun h => ?_⟩
        rw [RandomnessManager.handleCommit_done (RandomnessManager.dkgStatus_ne_pending.1 h) c]
          at hall
        rw [forall_mem_cons]
        exact ⟨h, hall h⟩
    | persist =>
      simp only [machine, step] at hs
      split at hs
      next => cases hs
      next =>
        cases hs
        exact ⟨later, hl, hhead, hall⟩
    | restart => exact absurd rfl has.1

/-- **DKG ends with the first message after the timeout.** The commits after one past the timeout
round, up to the next restart, are processed with DKG successful or failed exactly if DKG had ended
before that commit, or it has brought a DKG message or confirmation of any kind. A transaction that
they then defer for randomness has a DKG result. -/
theorem dkg_ends {c : DkgCommit} (hc : commits[s.handled]? = some c)
    (hround : config.randomBeaconDkgTimeoutRound < c.round)
    (has : .restart ∉ as) (hrun : (machine config commits).run s (.commit :: as) = .ok s') :
    ∃ later, s'.statuses = s.statuses ++ (s.handled, s.manager.dkgStatus) :: later ∧
      (later ≠ [] → ((∀ e ∈ later, e.2 ≠ .pending) ↔
        s.manager.dkgStatus ≠ .pending ∨ c.transactions ≠ [])) ∧
      ∀ e ∈ later, e.2 ≠ .pending →
        ∀ (boundary : CommitConfig) (t : CommitState) (d : ConsensusCommit) (q : Sequencing)
          (tx : UserTransaction) (key : DeferralKey), d.dkgStatus = e.2 →
          (q.dkgFailed, q.randomnessRound) = randomnessOutcome boundary t d →
          shouldDefer boundary d q tx = some (key, .randomnessNotReady) → e.2 = .successful := by
  obtain ⟨u, hst, hrun⟩ := bind_ok.1 hrun
  simp only [machine, step, hc] at hst
  cases hst
  obtain ⟨later, hl, hhead, hall⟩ := statuses_of_run has hrun
  refine ⟨later, by simp [hl], fun hne => ?_, fun e _ hp => ?_⟩
  · rw [← RandomnessManager.handleCommit_timeout hround]
    refine ⟨fun h => ?_, hall⟩
    obtain ⟨e, rest, rfl⟩ := exists_cons_of_ne_nil hne
    exact hhead e rfl ▸ h e mem_cons_self
  · intro boundary t d q tx key hs hq hd
    rw [← hs] at hp ⊢
    exact dkgStatus_of_shouldDefer hq hp hd

end DkgNode

namespace DkgSample

/-- Two messages can be merged, and two confirmations complete DKG. -/
def crypto : DkgCrypto where
  Processed := ℕ
  Used := ℕ
  Output := ℕ
  process msg := some msg.body
  merge msgs := if msgs.length < 2 then none else some msgs.length
  complete _ confs := if confs.length < 2 then none else some confs.length

def config : RandomnessConfig := ⟨1, 10, some⟩

def message (authority : ℕ) : DkgTransaction := .message true authority (some (.v1 ⟨authority, 0⟩))

def confirmation (authority : ℕ) : DkgTransaction :=
  .confirmation true authority (some (.v1 ⟨authority, 0⟩))

/-- The second confirmation comes in round 12, after the timeout. -/
def commits : List DkgCommit :=
  [⟨2, [message 1, message 2]⟩, ⟨4, [confirmation 1]⟩, ⟨11, [message 3]⟩, ⟨12, [confirmation 2]⟩,
    ⟨14, []⟩]

end DkgSample

open DkgNode DkgSample in
/-- Before the timeout a restart changes nothing. -/
theorem statuses_survive_sample : ∃ s : DkgNode crypto,
    (machine config commits).Reach (Unfailed config commits) s ∧
    s.statuses = [(0, .pending), (1, .pending), (1, .pending), (2, .pending), (3, .failed)] ∧
    ∀ e ∈ s.statuses, e.2 = statusAfter crypto config (commits.take e.1) := by
  refine exists_reach_and
    [.commit, .commit, .persist, .restart, .commit, .persist, .commit, .commit] _
    (init_ok rfl) (by decide +kernel) fun s hs _ => ?_
  exact (statuses_survive hs).1

open DkgNode DkgSample in
/-- **A failure of DKG is forgotten in a restart.** DKG fails in the commit of round 11. A validator
that restarts after it was written processes the next commit as if DKG was pending. A late
confirmation then completes DKG, and the commit after it is processed as if DKG was successful. -/
theorem dkg_failure_forgotten : ∃ s : DkgNode crypto,
    (machine config commits).Reach Machine.free s ∧
    (3, .pending) ∈ s.statuses ∧ statusAfter crypto config (commits.take 3) = .failed ∧
    (4, .successful) ∈ s.statuses ∧ statusAfter crypto config (commits.take 4) = .failed := by
  refine exists_reach_imp
    [.commit, .commit, .commit, .persist, .persist, .persist, .restart, .commit, .commit]
    (fun s => (3, .pending) ∈ s.statuses ∧ (4, .successful) ∈ s.statuses)
    (init_ok rfl) (by decide +kernel) fun s _ h => ?_
  exact ⟨h.1, by decide +kernel, h.2, by decide +kernel⟩

open DkgNode DkgSample in
/-- After the message in round 11 DKG is not pending any more. -/
theorem dkg_ends_sample : ∃ (s : DkgNode crypto) (later : List (ℕ × DkgStatus)),
    s.statuses = [] ++ (0, .pending) :: later ∧ s.statuses.length = 3 ∧
      ∀ e ∈ later, e.2 ≠ .pending := by
  have hrun : ∃ s, (machine config [⟨11, [message 3]⟩, ⟨12, []⟩, ⟨14, []⟩]).run
      (start : DkgNode crypto) [.commit, .commit, .commit] = .ok s ∧ s.statuses.length = 3 :=
    ⟨_, rfl, rfl⟩
  obtain ⟨s, hrun, hl⟩ := hrun
  obtain ⟨later, hla, hends, _⟩ := dkg_ends rfl (by decide) (by simp) hrun
  have hne : later ≠ [] := by
    rintro rfl
    simp [hla, start] at hl
  exact ⟨s, later, hla, hl, (hends hne).2 (.inr (by simp))⟩

open DkgNode DkgSample in
/-- **DKG stays pending if the others fall silent.** The commit of round 11 is past the timeout, but
brings no message. The commit after it is processed with DKG pending, and every transaction in it
that uses randomness is deferred. -/
theorem dkg_pending_after_timeout : ∃ s : DkgNode crypto,
    (machine config [⟨2, [message 1]⟩, ⟨11, []⟩, ⟨12, []⟩]).Reach Machine.free s ∧
    config.randomBeaconDkgTimeoutRound < 11 ∧ (2, .pending) ∈ s.statuses ∧
    ∀ (boundary : CommitConfig) (t : CommitState) (d : ConsensusCommit) (q : Sequencing)
      (tx : UserTransaction), d.dkgStatus = .pending →
      (q.dkgFailed, q.randomnessRound) = randomnessOutcome boundary t d →
      boundary.randomnessStateEnabled = true → tx.usesRandomness = true →
      shouldDefer boundary d q tx =
        some (.randomness (deferredFrom d q tx), .randomnessNotReady) := by
  refine exists_reach_imp [.commit, .commit, .commit] (fun s => (2, .pending) ∈ s.statuses)
    (init_ok rfl) (by decide +kernel) fun s _ hp => ?_
  refine ⟨by decide, hp, ?_⟩
  intro boundary t d q tx hs hq he hu
  exact shouldDefer_of_pending hq he hu hs

end OneChain.Authority
