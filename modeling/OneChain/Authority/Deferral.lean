import OneChain.Authority.CommitSteps

/-!
# Deferred transactions

A transaction that a commit accepts is scheduled, cancelled or deferred, and a deferred one comes
back in a later commit with the key of its group. Groups are written to the store before the loaded
ones are deleted, and neither step looks at what is there: a group under a key in use would replace
another one, or be deleted at once.

That this does not happen rests on an invariant of the run (`Standing`). A commit defers to the
round after its own, and loads all groups of its round and before, so a key of that kind is new. A
group that waits for randomness keeps the round its transactions were first deferred from. It is new
because either no group waits, or every transaction that is loaded with a key from an earlier round
does without randomness (`kinds`).

* `handleConsensusCommit_standing` — a commit keeps the invariant.
* `deferred_accounted` — in every run, each accepted transaction is in one place, no group is
  replaced or deleted by mistake, and the final round leaves no transaction deferred.
* `congestion_deferral_bounded` — how long congestion can defer a transaction.
-/

namespace OneChain.Authority

open Lib Checkpoints List SequencedTransaction CommitLoop OrdMap CommitState

variable {config : CommitConfig} {s : CommitState} {c : ConsensusCommit} {q : Sequencing}

/-! ## Groups -/

theorem groupTransactions_perm {groups groups' : DeferredGroups} (h : groups.Perm groups') :
    (groupTransactions groups).Perm (groupTransactions groups') :=
  h.flatMap_right _

@[simp] theorem groupTransactions_cons (group : DeferralKey × List UserTransaction)
    (groups : DeferredGroups) :
    groupTransactions (group :: groups) = group.2 ++ groupTransactions groups := rfl

@[simp] theorem groupTransactions_append (groups groups' : DeferredGroups) :
    groupTransactions (groups ++ groups') = groupTransactions groups ++ groupTransactions groups' :=
  flatMap_append

/-- A transaction that joins a group joins the transactions of all groups. -/
theorem groupTransactions_push (m : DeferredTransactions) (key : DeferralKey)
    (tx : UserTransaction) :
    (groupTransactions (m.insert key ((m.get? key).getD [] ++ [tx])).entries).Perm
      (groupTransactions m.entries ++ [tx]) := by
  refine (groupTransactions_perm entries_perm_insert).trans ?_
  rw [groupTransactions_cons]
  cases hget : m.get? key with
  | none =>
    rw [erase_of_get?_eq_none hget]
    exact perm_append_comm
  | some txs =>
    have hold := groupTransactions_perm (entries_perm_erase hget)
    rw [groupTransactions_cons] at hold
    refine perm_iff_count.2 fun a => ?_
    have hc := hold.count_eq a
    simp only [Option.getD_some, count_append] at hc ⊢
    omega

/-! ## Where the transactions of users are -/

namespace CommitState

def deferredDigests (s : CommitState) : List TransactionDigest :=
  (groupTransactions s.deferredTransactions.entries).map (·.digest)

/-- The scheduled, cancelled and deferred transactions. -/
def accounted (s : CommitState) : List TransactionDigest :=
  s.scheduled ++ s.cancelled ++ s.deferredDigests

end CommitState

namespace CommitLoop

/-- The same, for the transactions of one commit. -/
def handled (l : CommitLoop) : List TransactionDigest :=
  l.scheduled ++ l.cancelledTxns.keys ++ (groupTransactions l.deferredTxns.entries).map (·.digest)

section

variable (l : CommitLoop)
include l

@[simp] theorem pushCertificate_accounts (randomness : Bool)
    (key : TransactionKey) : (l.pushCertificate randomness key).handled = l.handled ∧
      (l.pushCertificate randomness key).messagesProcessed = l.messagesProcessed ∧
      (l.pushCertificate randomness key).deferredTxns = l.deferredTxns := by
  unfold pushCertificate
  split <;> exact ⟨rfl, rfl, rfl⟩

@[simp] theorem recordProcessed_accounts (key : MessageKey) :
    (l.recordProcessed key).handled = l.handled ∧
      (l.recordProcessed key).messagesProcessed = l.messagesProcessed ++ [key] ∧
      (l.recordProcessed key).deferredTxns = l.deferredTxns := ⟨rfl, rfl, rfl⟩

@[simp] theorem removeRoots_accounts (tx : SequencedTransaction) :
    (l.removeRoots tx).handled = l.handled ∧
      (l.removeRoots tx).messagesProcessed = l.messagesProcessed ∧
      (l.removeRoots tx).deferredTxns = l.deferredTxns := by
  unfold removeRoots
  split <;> exact ⟨rfl, rfl, rfl⟩

theorem handled_defer (tx : UserTransaction) (key : DeferralKey) :
    (l.defer tx key).handled.Perm (l.handled ++ [tx.digest]) := by
  have hp := (groupTransactions_push l.deferredTxns key tx).map (·.digest)
  rw [map_append] at hp
  unfold handled
  rw [append_assoc _ _ [tx.digest]]
  exact hp.append_left _

end

end CommitLoop

/-! ## The result for one transaction -/

variable (config s c q) in
/-- What `process_consensus_transaction` returns for a transaction of a user. -/
def userResult (tx : UserTransaction) : ConsensusCertificateResult :=
  if admissible config tx then processConsensusUserTransaction config s c q tx else .ignored

variable (config s q) in
/-- The transaction is not ignored. -/
def accepts (tx : UserTransaction) : Bool := admissible config tx && !decide (tooLate s q tx)

/-- An accepted transaction has one of three results. -/
inductive Settled (tx : UserTransaction) : ConsensusCertificateResult → Prop
  | scheduled : Settled tx (.suiTransaction tx.digest)
  | deferred (key : DeferralKey) : Settled tx (.deferred tx key)
  | cancelled (reason : CancelConsensusCertificateReason) : Settled tx (.cancelled tx.digest reason)

variable {tx : UserTransaction} {l : CommitLoop} {randomness : Bool}
  {entries : List (Bool × SequencedTransaction)}

theorem userResult_of_not_accepts (h : accepts config s q tx = false) :
    userResult config s c q tx = .ignored := by
  unfold userResult
  split
  · rename_i hadm
    rw [accepts, hadm, Bool.true_and, Bool.not_eq_false', decide_eq_true_eq] at h
    rw [processConsensusUserTransaction, if_pos h]
  · rfl

theorem userResult_of_accepts (h : accepts config s q tx = true) :
    Settled tx (userResult config s c q tx) := by
  rw [accepts, Bool.and_eq_true, Bool.not_eq_true', decide_eq_false_iff_not] at h
  rw [userResult, if_pos h.1, processConsensusUserTransaction, if_neg h.2]
  split
  · exact .deferred _
  · split
    · exact .deferred _
    · exact .cancelled _
  · split
    · exact .cancelled _
    · exact .scheduled

variable {key : DeferralKey}

theorem key_of_deferred {tx' : UserTransaction}
    (h : userResult config s c q tx = .deferred tx' key) :
    (q.dkgFailed = false ∧ q.randomnessRound = none ∧ config.randomnessStateEnabled = true ∧
        tx.usesRandomness = true ∧ key = .randomness (deferredFrom c q tx)) ∨
      (¬ (q.dkgFailed = false ∧ q.randomnessRound = none ∧ config.randomnessStateEnabled = true ∧
        tx.usesRandomness = true) ∧ key = .consensusRound (c.round + 1) (deferredFrom c q tx)) := by
  have hd : ∃ reason, shouldDefer config c q tx = some (key, reason) := by
    unfold userResult processConsensusUserTransaction at h
    split at h
    swap
    · cases h
    split at h
    · cases h
    split at h
    · rename_i key' hkey
      obtain ⟨_, rfl⟩ := ConsensusCertificateResult.deferred.inj h
      exact ⟨_, hkey⟩
    · rename_i key' objects hkey
      split at h
      · obtain ⟨_, rfl⟩ := ConsensusCertificateResult.deferred.inj h
        exact ⟨_, hkey⟩
      · cases h
    · split at h <;> cases h
  obtain ⟨reason, hd⟩ := hd
  unfold shouldDefer at hd
  split at hd
  · rename_i hr
    obtain ⟨hf, hro, he, hu⟩ := hr
    exact .inl ⟨hf, hro, he, hu, (Prod.mk.inj (Option.some.inj hd)).1.symm⟩
  · rename_i hr
    obtain ⟨objects, _, hkey⟩ := Option.map_eq_some_iff.1 hd
    exact .inr ⟨hr, (Prod.mk.inj hkey).1.symm⟩

theorem deferredFromRound_eq {tx' : UserTransaction}
    (h : userResult config s c q tx = .deferred tx' key) :
    key.deferredFromRound = deferredFrom c q tx := by
  rcases key_of_deferred h with ⟨_, _, _, _, rfl⟩ | ⟨_, rfl⟩ <;> rfl

theorem limit_of_deferred {tx' : UserTransaction} {futureRound round : ℕ}
    (h : userResult config s c q tx = .deferred tx' (.consensusRound futureRound round)) :
    futureRound = c.round + 1 ∧ futureRound ≤ round + config.maxDeferralRounds := by
  unfold userResult processConsensusUserTransaction shouldDefer at h
  cases hobjects : c.congested tx.digest with
  | none => grind
  | some objects => grind [transactionDeferralWithinLimit]

/-! ## The loop over the transactions -/

variable (txs : List SequencedTransaction)

def users : List UserTransaction := txs.filterMap (·.user?)

theorem users_cons (tx : SequencedTransaction) (txs : List SequencedTransaction) :
    users (tx :: txs) = users [tx] ++ users txs := by
  rw [users, users, users, ← filterMap_append, singleton_append]

variable (config s q) in
/-- The accepted transactions among those of a list. -/
def acceptedDigests (txs : List SequencedTransaction) : List TransactionDigest :=
  ((users txs).filter (accepts config s q)).map (·.digest)

theorem acceptedDigests_cons (tx : SequencedTransaction) (txs : List SequencedTransaction) :
    acceptedDigests config s q (tx :: txs) =
      acceptedDigests config s q [tx] ++ acceptedDigests config s q txs := by
  rw [acceptedDigests, users_cons tx txs, filter_append, map_append]
  rfl

variable (config s q) in
/-- What a round of the loop does to the accounts. -/
structure Handles
    (txs : List SequencedTransaction) (l l' : CommitLoop) : Prop where
  perm : l'.handled.Perm (l.handled ++ acceptedDigests config s q txs)
  processed : ∀ digest, .certificate digest ∈ l'.messagesProcessed ↔
    .certificate digest ∈ l.messagesProcessed ∨ digest ∈ acceptedDigests config s q txs

theorem handles_same {l' : CommitLoop} {tx : SequencedTransaction}
    (hn : acceptedDigests config s q [tx] = []) (hh : l'.handled = l.handled)
    (hp : ∀ digest, .certificate digest ∈ l'.messagesProcessed ↔
      .certificate digest ∈ l.messagesProcessed) : Handles config s q [tx] l l' := by
  refine ⟨?_, fun digest => ?_⟩
  · rw [hn, hh, append_nil]
  · rw [hn, hp]
    simp

/-- The round for a transaction of a user that was not handled before. -/
theorem processEntry_user (hnew : tx.digest ∉ l.handled) :
    ∃ l', processEntry config s c q l (randomness, .user tx) = .ok l' ∧
      Handles config s q [.user tx] l l' := by
  have he : processEntry config s c q l (randomness, .user tx) =
      l.apply randomness (.user tx) (userResult config s c q tx) := rfl
  rw [he]
  cases hacc : accepts config s q tx with
  | false =>
    rw [userResult_of_not_accepts hacc]
    have hn : acceptedDigests config s q [.user tx] = [] := by
      simp [acceptedDigests, users, user?, hacc]
    exact ⟨_, rfl, handles_same hn (by simp) (by simp)⟩
  | true =>
    have hone : acceptedDigests config s q [.user tx] = [tx.digest] := by
      simp [acceptedDigests, users, user?, hacc]
    have hkey : ∀ digest, MessageKey.certificate digest ∈ l.messagesProcessed ++ [key (.user tx)] ↔
        .certificate digest ∈ l.messagesProcessed ∨ digest ∈ [tx.digest] := by
      intro digest
      simp [key]
    have hs := userResult_of_accepts (c := c) hacc
    generalize userResult config s c q tx = result at hs
    cases hs with
    | scheduled =>
      refine ⟨_, rfl, ?_, ?_⟩
      · rw [hone]
        simp only [recordProcessed_accounts, pushCertificate_accounts]
        refine perm_iff_count.2 fun a => ?_
        simp only [CommitLoop.handled, user?, Option.map_some, Option.toList_some, count_append]
        omega
      · rw [hone]
        simpa using hkey
    | deferred key =>
      refine ⟨_, rfl, ?_, ?_⟩
      · rw [hone]
        simpa using handled_defer l tx key
      · rw [hone]
        simpa [defer] using hkey
    | cancelled reason =>
      have hf : tx.digest ∉ l.cancelledTxns := fun hmem => hnew
        (mem_append_left _ (mem_append_right _ (OrdMap.mem_keys.2 hmem)))
      have ha : l.apply randomness (.user tx) (.cancelled tx.digest reason) =
          .ok (({ l with cancelledTxns := l.cancelledTxns.insert tx.digest reason }.pushCertificate
            randomness (.digest tx.digest)).recordProcessed (key (.user tx))) := by
        simp only [apply, check_of hf, ok_bind, pure_ok]
      refine ⟨_, ha, ?_, ?_⟩
      · rw [hone]
        have hk : (l.cancelledTxns.insert tx.digest reason).keys.Perm
            (tx.digest :: l.cancelledTxns.keys) :=
          (entries_perm_foldl_insert (l := [(tx.digest, reason)])
            (nodup_singleton _) (by simpa using hf)).map Prod.fst
        simp only [recordProcessed_accounts, pushCertificate_accounts]
        refine perm_iff_count.2 fun a => ?_
        have hc := hk.count_eq a
        simp only [CommitLoop.handled, count_append, count_cons, count_nil] at hc ⊢
        omega
      · rw [hone]
        simpa using hkey

/-- The round for any other transaction. -/
theorem processEntry_other {tx : SequencedTransaction} (hend : tx.isEndOfPublish = false)
    (hu : tx.user? = none) :
    ∃ l', processEntry config s c q l (randomness, tx) = .ok l' ∧ Handles config s q [tx] l l' := by
  have hn : acceptedDigests config s q [tx] = [] := by
    simp [acceptedDigests, users, hu]
  cases tx with
  | user tx => cases hu
  | endOfPublish sender authority => cases hend
  | message sender authority content =>
    refine ⟨l.recordProcessed (.message authority content), rfl, handles_same hn rfl ?_⟩
    simp
  | system digest =>
    have he : processEntry config s c q l (randomness, .system digest) =
        l.apply randomness (.system digest) (processConsensusSystemTransaction s digest) := rfl
    rw [he, processConsensusSystemTransaction]
    split
    · refine ⟨_, rfl, handles_same hn ?_ ?_⟩
      · simp only [recordProcessed_accounts]
        simp [user?]
      · simp [key]
    · refine ⟨_, rfl, handles_same hn ?_ ?_⟩
      · simp
      · simp [key]

/-- **The loop handles every accepted transaction once.** -/
theorem foldlM_processEntry (hend : ∀ entry ∈ entries, entry.2.isEndOfPublish = false)
    (hn : (l.handled ++ (users (entries.map Prod.snd)).map (·.digest)).Nodup) :
    ∃ l', entries.foldlM (processEntry config s c q) l = .ok l' ∧
      Handles config s q (entries.map Prod.snd) l l' := by
  induction entries generalizing l with
  | nil => exact ⟨l, rfl, by simp [acceptedDigests, users], by simp [acceptedDigests, users]⟩
  | cons entry entries ih =>
    obtain ⟨randomness, tx⟩ := entry
    have hen : ∃ l₁, processEntry config s c q l (randomness, tx) = .ok l₁ ∧
        Handles config s q [tx] l l₁ := by
      cases hu : tx.user? with
      | none => exact processEntry_other (hend _ mem_cons_self) hu
      | some user =>
        obtain rfl : tx = .user user := by
          cases tx <;> simp_all [user?]
        refine processEntry_user fun hmem => ?_
        refine (nodup_append.1 hn).2.2 _ hmem _ ?_ rfl
        simp [users, user?]
    obtain ⟨l₁, hl₁, hh⟩ := hen
    have hsub : ((users [tx]).filter (accepts config s q)).Sublist (users [tx]) := filter_sublist
    have hn' : (l₁.handled ++ (users (entries.map Prod.snd)).map (·.digest)).Nodup := by
      rw [map_cons, users_cons tx (entries.map Prod.snd), map_append] at hn
      rw [(hh.perm.append_right _).nodup_iff, append_assoc]
      exact hn.sublist ((hsub.map _).append_right _ |>.append_left _)
    obtain ⟨l', hl', hr⟩ := ih (fun e he => hend e (mem_cons_of_mem _ he)) hn'
    refine ⟨l', ?_, ?_, fun digest => ?_⟩
    · rw [foldlM_cons, hl₁, ok_bind, hl']
    · rw [map_cons, acceptedDigests_cons tx (entries.map Prod.snd), ← append_assoc]
      exact hr.perm.trans (hh.perm.append_right _)
    · rw [hr.processed, hh.processed, map_cons,
        acceptedDigests_cons tx (entries.map Prod.snd), mem_append, or_assoc]

variable (config s c q) in
/-- Every group of a loop is of transactions deferred under its key. -/
def GroupsOf (txs : List SequencedTransaction) (m : DeferredTransactions) : Prop :=
  ∀ key group, m.get? key = some group → group ≠ [] ∧
    ∀ tx ∈ group, tx ∈ users txs ∧ userResult config s c q tx = .deferred tx key

theorem foldlM_processEntry_groups {l' : CommitLoop}
    (h : entries.foldlM (processEntry config s c q) l = .ok l')
    (hl : GroupsOf config s c q (entries.map Prod.snd) l.deferredTxns) :
    GroupsOf config s c q (entries.map Prod.snd) l'.deferredTxns := by
  refine foldlM_induction
    (P := fun l => GroupsOf config s c q (entries.map Prod.snd) l.deferredTxns) ?_ hl h
  intro l₁ l₂ entry hmem hgroups hentry
  obtain ⟨randomness, tx⟩ := entry
  simp only [processEntry, bind_ok] at hentry
  obtain ⟨result, hres, hentry⟩ := hentry
  have hsame : l₂.deferredTxns = l₁.deferredTxns →
      GroupsOf config s c q (entries.map Prod.snd) l₂.deferredTxns := fun h => h ▸ hgroups
  cases result with
  | suiTransaction _ | consensusMessage | ignoredSystem | ignored =>
    cases hentry
    exact hsame (by simp)
  | cancelled digest reason =>
    simp only [apply, ok_iff] at hentry
    obtain ⟨_, _, rfl⟩ := hentry
    exact hsame (by simp)
  | deferred user key =>
    cases hentry
    have huser : tx = .user user ∧ userResult config s c q user = .deferred user key := by
      cases tx with
      | user tx =>
        have hdef : userResult config s c q tx = .deferred user key := Except.ok.inj hres
        cases hacc : accepts config s q tx with
        | false =>
          rw [userResult_of_not_accepts hacc] at hdef
          cases hdef
        | true =>
          have hsettled := userResult_of_accepts (c := c) hacc
          rw [hdef] at hsettled
          cases hsettled
          exact ⟨rfl, hdef⟩
      | system digest =>
        have hsystem : processConsensusSystemTransaction s digest = .deferred user key :=
          Except.ok.inj hres
        unfold processConsensusSystemTransaction at hsystem
        split at hsystem <;> cases hsystem
      | message _ _ _ | endOfPublish _ _ => cases hres
    obtain ⟨rfl, hdef⟩ := huser
    have husers : user ∈ users (entries.map Prod.snd) :=
      mem_filterMap.2 ⟨.user user, mem_map.2 ⟨_, hmem, rfl⟩, rfl⟩
    intro key' group hget
    simp only [removeRoots_accounts, recordProcessed_accounts, defer, get?_insert_eq_some] at hget
    rcases hget with ⟨rfl, rfl⟩ | ⟨_, hget⟩
    swap
    · exact hgroups key' group hget
    refine ⟨by simp, fun tx htx => ?_⟩
    rcases mem_append.1 htx with htx | htx
    · cases hold : l₁.deferredTxns.get? key' with
      | none =>
        rw [hold] at htx
        cases htx
      | some group =>
        rw [hold] at htx
        exact (hgroups key' group hold).2 tx htx
    · rw [mem_singleton.1 htx]
      exact ⟨husers, hdef⟩

variable {group : List UserTransaction}

theorem key_of_group {txs : List SequencedTransaction} {m : DeferredTransactions}
    (hg : GroupsOf config s c q txs m)
    (hget : m.get? key = some group) :
    ∃ tx ∈ group, userResult config s c q tx = .deferred tx key := by
  obtain ⟨hne, hall⟩ := hg key group hget
  obtain ⟨tx, htx⟩ := exists_mem_of_ne_nil group hne
  exact ⟨tx, htx, (hall tx htx).2⟩

/-! ## What a commit hands to the loop -/

theorem reorder_perm (config : CommitConfig) (txs : List SequencedTransaction) :
    (reorder config txs).Perm txs := by
  unfold reorder
  split
  · exact perm_insertionSort _ _
  · exact .refl _

theorem users_map_user (txs : List UserTransaction) : users (txs.map user) = txs := by
  induction txs with
  | nil => rfl
  | cons tx txs ih => rw [map_cons, users_cons, ih]; rfl

theorem users_systemTransactions : users (systemTransactions txs) = [] := by
  refine filterMap_eq_nil_iff.2 fun tx htx => ?_
  have hs := (mem_filter.1 htx).2
  cases tx <;> simp_all [isSystem, user?]

theorem users_currentTransactions : users (currentTransactions txs) = users txs := by
  induction txs with
  | nil => rfl
  | cons tx txs ih =>
    unfold currentTransactions at ih ⊢
    rw [users_cons tx txs, ← ih]
    cases tx with
    | user tx => exact users_cons _ _
    | system _ | endOfPublish _ _ | message _ _ _ => rfl

-- `D` and `R` are the groups that a commit loads, those of a round and those with randomness.
section Loop

variable {verified : List SequencedTransaction} {D R : DeferredGroups}

/-- All transactions that the loop goes over. -/
def Sequencing.transactions (q : Sequencing) : List SequencedTransaction :=
  q.nonRandomnessTransactions ++ q.randomnessTransactions

section Sequenced

variable
  (hq : q = sequencingOf config s c verified D R)

include hq

/-- They are those that were loaded and those of the commit. -/
theorem transactions_perm :
    q.transactions.Perm (systemTransactions verified ++ currentTransactions verified ++
      (groupTransactions (D ++ R)).map .user) := by
  subst hq
  refine perm_iff_count.2 fun a => ?_
  have hf := (reorder_perm config (sequencedTransactions config verified D)).count_eq a
  have hsec := (reorder_perm config
    (sequencedRandomnessTransactions config verified D R)).count_eq a
  have hdef := (filter_append_perm (withRandomness config)
    ((groupTransactions D).map user)).count_eq a
  have hc := (filter_append_perm (withRandomness config) (currentTransactions verified)).count_eq a
  simp only [sequencedTransactions, sequencedRandomnessTransactions, count_append]
    at hf hsec hdef hc
  simp only [Sequencing.transactions, sequencingOf, sequencedTransactions,
    sequencedRandomnessTransactions, groupTransactions_append, map_append, count_append]
  omega

theorem users_transactions : (users q.transactions).Perm
      (groupTransactions (D ++ R) ++ users verified) := by
  refine ((transactions_perm hq).filterMap _).trans ?_
  rw [filterMap_append, filterMap_append]
  change (users (systemTransactions verified) ++ users (currentTransactions verified) ++
    users ((groupTransactions (D ++ R)).map .user)).Perm _
  rw [users_systemTransactions, users_currentTransactions, users_map_user]
  exact perm_append_comm

theorem not_endOfPublish : ∀ tx ∈ q.transactions, tx.isEndOfPublish = false := by
  intro tx htx
  rcases mem_append.1 ((transactions_perm hq).mem_iff.1 htx) with htx | htx
  · rcases mem_append.1 htx with htx | htx
    · have hs := (mem_filter.1 htx).2
      cases tx <;> simp_all [isSystem, isEndOfPublish, endOfPublish?]
    · have hc := (mem_filter.1 htx).2
      rw [Bool.and_eq_true, Bool.not_eq_true'] at hc
      exact hc.1
  · obtain ⟨tx, _, rfl⟩ := mem_map.1 htx
    rfl

/-- A key recorded for a transaction is that of its group. -/
theorem group_of_previouslyDeferred {digest : TransactionDigest}
    (h : q.previouslyDeferred.get? digest = some key) :
    ∃ group, (key, group) ∈ D ++ R ∧ ∃ tx ∈ group, tx.digest = digest := by
  subst hq
  have hr : ∀ {m : OrdMap TransactionDigest DeferralKey}
      {groups : DeferredGroups}, (recordDeferred m groups).get? digest = some key →
      (∃ group, (key, group) ∈ groups ∧ ∃ tx ∈ group, tx.digest = digest) ∨
        m.get? digest = some key := by
    intro m groups hget
    rcases exists_of_get?_foldl_insert hget with ⟨e, he, hdig, hkey⟩ | hget
    · obtain ⟨group, hg, he⟩ := mem_flatMap.1 he
      obtain ⟨tx, htx, rfl⟩ := mem_map.1 he
      obtain rfl : group.1 = key := hkey
      exact .inl ⟨group.2, hg, tx, htx, hdig⟩
    · exact .inr hget
  rcases hr h with ⟨group, hg, htx⟩ | h
  · exact ⟨group, mem_append_right _ hg, htx⟩
  · rcases hr h with ⟨group, hg, htx⟩ | h
    · exact ⟨group, mem_append_left _ hg, htx⟩
    · cases h

/-- A loaded transaction is recorded with a key. -/
theorem mem_previouslyDeferred (h : tx ∈ groupTransactions (D ++ R)) :
    tx.digest ∈ q.previouslyDeferred := by
  subst hq
  obtain ⟨group, hg, htx⟩ := mem_flatMap.1 h
  have he : ∀ {groups : DeferredGroups}, group ∈ groups →
      ∃ e ∈ groups.flatMap (fun group => group.2.map fun tx => (tx.digest, group.1)),
        e.1 = tx.digest :=
    fun hmem => ⟨_, mem_flatMap.2 ⟨group, hmem, mem_map.2 ⟨tx, htx, rfl⟩⟩, rfl⟩
  change tx.digest ∈ recordDeferred (recordDeferred .empty D) R
  rw [recordDeferred, recordDeferred, mem_foldl_insert, mem_foldl_insert]
  rcases mem_append.1 hg with hg | hg
  · exact .inr (.inl (he hg))
  · exact .inl (he hg)

theorem sequencing_disabled (h : config.randomnessStateEnabled = false) :
    q.dkgFailed = false ∧ q.randomnessRound = none := by
  have ho : randomnessOutcome config s c = (false, none) := by
    rw [randomnessOutcome, h]
    rfl
  rw [hq]
  exact ⟨congrArg Prod.fst ho, congrArg Prod.snd ho⟩

end Sequenced

/-! ## The invariant -/

/-- What holds between commits. -/
structure Standing (config : CommitConfig) (s : CommitState) : Prop where
  nodup : s.accounted.Nodup
  recorded : ∀ digest, .certificate digest ∈ s.messagesProcessed ↔ digest ∈ s.accounted
  admitted : ∀ tx ∈ groupTransactions s.deferredTransactions.entries, admissible config tx = true
  fromRound : ∀ key ∈ s.deferredTransactions, key.deferredFromRound ≤ s.lastCommittedRound
  future : ∀ futureRound round, .consensusRound futureRound round ∈ s.deferredTransactions →
    futureRound = s.lastCommittedRound + 1 ∧ futureRound ≤ round + config.maxDeferralRounds
  /-- No group waits for randomness, or no transaction of the other groups needs it. -/
  kinds : (∀ round, .randomness round ∉ s.deferredTransactions) ∨ ∀ futureRound round group,
      s.deferredTransactions.get? (.consensusRound futureRound round) = some group →
      ∀ tx ∈ group, ¬ (config.randomnessStateEnabled = true ∧ tx.usesRandomness = true)
  heights : ∀ p ∈ s.pendingCheckpoints, p.details.checkpointHeight <
    calculatePendingCheckpointHeight config (s.lastCommittedRound + 1)

theorem standing_start : Standing config .start where
  nodup := nodup_nil
  recorded _ := by
    simp [start, accounted, deferredDigests, groupTransactions, OrdMap.empty]
  admitted _ h := by cases h
  fromRound _ h := absurd h notMem_empty
  future _ _ h := absurd h notMem_empty
  kinds := .inl fun _ => notMem_empty
  heights _ h := by cases h

theorem height_mono {round round' : ℕ} (h : round ≤ round') :
    calculatePendingCheckpointHeight config round ≤
      calculatePendingCheckpointHeight config round' := by
  unfold calculatePendingCheckpointHeight
  split <;> omega

/-- The groups in the store, those that were loaded and those that were not. -/
theorem loaded_perm (hload : Loaded config s c D R) :
    s.deferredTransactions.entries.Perm ((D ++ R) ++ s.deferredTransactions.entries.filter fun e =>
        decide (e.1 ∉ (D ++ R).map Prod.fst)) := by
  have hkeys : ((D ++ R).map Prod.fst).Nodup := by
    rw [map_append]
    refine nodup_append.2 ⟨hload.nodup_deferred, hload.nodup_randomness, ?_⟩
    rintro _ hfirst _ hsec rfl
    obtain ⟨group, hgroup, hkey⟩ := mem_map.1 hfirst
    obtain ⟨group', hgroup', hkey'⟩ := mem_map.1 hsec
    obtain ⟨_, _, _, hround, _⟩ := (hload.mem_deferred group.1 group.2).1 hgroup
    obtain ⟨_, ⟨_, _, hrandom⟩, _⟩ := (hload.mem_randomness group'.1 group'.2).1 hgroup'
    rw [hkey, ← hkey', hrandom] at hround
    cases hround
  have hstored : ∀ e ∈ D ++ R, e ∈ s.deferredTransactions.entries := by
    intro e he
    rcases mem_append.1 he with he | he
    · exact mem_entries.2 ((hload.mem_deferred e.1 e.2).1 he).1
    · exact mem_entries.2 ((hload.mem_randomness e.1 e.2).1 he).1
  have hloaded : (s.deferredTransactions.entries.filter fun e =>
      decide (e.1 ∈ (D ++ R).map Prod.fst)).Perm (D ++ R) := by
    refine (perm_ext_iff_of_nodup (List.Nodup.filter _ (nodup_entries _))
      (.of_map _ hkeys)).2 fun e => ?_
    rw [mem_filter, decide_eq_true_eq]
    constructor
    · rintro ⟨he, hkey⟩
      obtain ⟨e', he', hkey⟩ := mem_map.1 hkey
      exact eq_of_key (nodup_keys _) (hstored e' he') he hkey ▸ he'
    · exact fun he => ⟨hstored e he, mem_map_of_mem he⟩
  have hsplit := filter_append_perm
    (fun e : DeferralKey × List UserTransaction =>
      decide (e.1 ∈ (D ++ R).map Prod.fst))
    s.deferredTransactions.entries
  refine hsplit.symm.trans ?_
  simp only [← decide_not]
  exact hloaded.append_right _

/-! ## The state after a commit -/

/-- The store after new groups were written and the loaded ones deleted. -/
def storeAfter (deferred new : DeferredTransactions) (keys : List DeferralKey) :
    DeferredTransactions :=
  keys.foldl OrdMap.erase (new.entries.foldl (fun m e => m.insert e.1 e.2) deferred)

variable {deferred new : DeferredTransactions} {keys : List DeferralKey}

theorem storeAfter_perm (hf : ∀ key ∈ new, key ∉ deferred) (hk : ∀ key ∈ keys, key ∈ deferred) :
    (storeAfter deferred new keys).entries.Perm
      (new.entries ++ deferred.entries.filter fun e => decide (e.1 ∉ keys)) := by
  have hmem : ∀ e ∈ new.entries, e.1 ∈ new := fun e he =>
    OrdMap.mem_keys.1 (mem_map_of_mem he)
  have hins := entries_perm_foldl_insert new.nodup_keys fun e he => hf e.1 (hmem e he)
  rw [storeAfter, foldl_erase]
  refine (hins.filter _).trans ?_
  have hnew : new.entries.filter (fun e => decide (e.1 ∉ keys)) = new.entries :=
    filter_eq_self.2 fun e he =>
      decide_eq_true fun hkey => hf e.1 (hmem e he) (hk e.1 hkey)
  rw [filter_append, hnew]

/-- What a commit leaves of the groups before it: none is replaced, and none of the new ones is
deleted. -/
structure KeepsGroups (s : CommitState) (outcome : CommitOutcome) : Prop where
  no_overwrite : ∀ key ∈ outcome.deferredTxns, key ∉ s.deferredTransactions
  kept : ∀ key group, outcome.deferredTxns.get? key = some group →
    key ∉ outcome.deletedDeferredKeys ∧ outcome.state.deferredTransactions.get? key = some group
  final : outcome.finalRound = true → outcome.state.deferredTransactions.entries = []

/-- The round in the key of a group is the one that first deferred its transactions: that of the
commit, or the one in the key that they had before it. -/
def KeepsOrigin (s : CommitState) (c : ConsensusCommit) (s' : CommitState) : Prop :=
  ∀ key group, s'.deferredTransactions.get? key = some group → ∀ tx ∈ group,
    (tx.digest ∉ s.deferredDigests ∧ key.deferredFromRound = c.round) ∨
      ∃ previous group', s.deferredTransactions.get? previous = some group' ∧ tx ∈ group' ∧
        key.deferredFromRound = previous.deferredFromRound

theorem startLoop_empty : (startLoop config c q).handled = [] ∧
    (startLoop config c q).messagesProcessed = [] ∧
      (startLoop config c q).deferredTxns = .empty := by
  unfold startLoop
  split
  · dsimp only
    split <;> exact ⟨rfl, rfl, rfl⟩
  · exact ⟨rfl, rfl, rfl⟩

variable (config s c q l) in
/-- The state that a commit leaves, by the loop it ran. -/
structure Leaves (s' : CommitState) : Prop where
  lastCommittedRound : s'.lastCommittedRound = c.round
  store : s'.deferredTransactions =
    storeAfter s.deferredTransactions l.deferredTxns q.deletedDeferredKeys
  messages : ∀ digest, .certificate digest ∈ s'.messagesProcessed ↔
    .certificate digest ∈ s.messagesProcessed ∨ .certificate digest ∈ l.messagesProcessed
  scheduled : s'.scheduled = s.scheduled ++ l.scheduled
  cancelled : s'.cancelled = s.cancelled ++ l.cancelledTxns.keys
  heights : ∀ p ∈ s'.pendingCheckpoints, p ∈ s.pendingCheckpoints ∨
    p.details.checkpointHeight < calculatePendingCheckpointHeight config (c.round + 1)

theorem Leaves.get? {s' : CommitState} (h : Leaves config s c q l s')
    (hget : s'.deferredTransactions.get? key = some group) : key ∉ q.deletedDeferredKeys ∧
      (l.deferredTxns.get? key = some group ∨ s.deferredTransactions.get? key = some group) := by
  rw [h.store, storeAfter, foldl_erase, get?_filter_eq_some, decide_eq_true_eq] at hget
  refine ⟨hget.2, ?_⟩
  rcases exists_of_get?_foldl_insert hget.1 with ⟨e, he, rfl, rfl⟩ | hold
  · exact .inl (mem_entries.1 he)
  · exact .inr hold

/-! ## What a commit does -/

variable (config s c q verified) in
/-- A commit whose transactions go to the loop: it is later than those before it, its groups were
loaded, and what it brings itself is new. -/
structure Underway (deferredTxs deferredRandomnessTxs : DeferredGroups) : Prop where
  standing : Standing config s
  later : s.lastCommittedRound < c.round
  load : Loaded config s c deferredTxs deferredRandomnessTxs
  sequencing : q = sequencingOf config s c verified deferredTxs deferredRandomnessTxs
  keys : ((users verified).map (·.digest)).Nodup
  unprocessed : ∀ tx ∈ users verified, .certificate tx.digest ∉ s.messagesProcessed

section Underway

variable {l : CommitLoop} (hu : Underway config s c q verified D R)

include hu

/-- No transaction comes to the loop twice. -/
theorem nodup_transactions : ((users q.transactions).map (·.digest)).Nodup := by
  obtain ⟨hs, -, hlo, hq, hk, hnew⟩ := hu
  rw [((users_transactions hq).map _).nodup_iff, map_append]
  have hdef := (groupTransactions_perm (loaded_perm hlo)).map (·.digest)
  rw [groupTransactions_append, map_append] at hdef
  have hst : s.deferredDigests.Nodup := (nodup_append.1 hs.nodup).2.1
  refine nodup_append.2 ⟨?_, hk, ?_⟩
  · exact (nodup_append.1 (hdef.nodup_iff.1 hst)).1
  · rintro digest hl _ hc rfl
    obtain ⟨tx, htx, rfl⟩ := mem_map.1 hc
    refine hnew tx htx ((hs.recorded _).2 (mem_append_right _ ?_))
    exact hdef.mem_iff.2 (mem_append_left _ hl)

theorem deferredFrom_le (tx : UserTransaction) : deferredFrom c q tx ≤ c.round := by
  unfold deferredFrom
  cases hget : q.previouslyDeferred.get? tx.digest with
  | none => exact le_refl _
  | some key =>
    obtain ⟨group, hg, _⟩ := group_of_previouslyDeferred hu.sequencing hget
    have hs := (loaded_perm hu.load).mem_iff.2 (mem_append_left _ hg)
    have hf := hu.standing.fromRound key (mem_iff.2 ⟨_, mem_entries.1 hs⟩)
    exact hf.trans hu.later.le

/-- The key recorded for a transaction is that of the group it was loaded with. -/
theorem loaded_with {previous : DeferralKey} (htrans : tx ∈ users q.transactions)
    (hprev : q.previouslyDeferred.get? tx.digest = some previous) :
    ∃ group, (previous, group) ∈ D ++ R ∧ tx ∈ group := by
  obtain ⟨group, hgroup, tx', htx', hdig⟩ := group_of_previouslyDeferred hu.sequencing hprev
  have hsame : tx' = tx := by
    refine eq_of_key (nodup_transactions hu) ?_ htrans hdig
    exact (users_transactions hu.sequencing).mem_iff.2
      (mem_append_left _ (mem_flatMap.2 ⟨_, hgroup, htx'⟩))
  exact ⟨group, hgroup, hsame ▸ htx'⟩

/-- **A key that a commit defers under is not in use.** -/
theorem fresh_key {m : DeferredTransactions} (hgroups : GroupsOf config s c q q.transactions m)
    (hkey : key ∈ m) : key ∉ s.deferredTransactions := by
  intro hused
  have ⟨hs, hround, hload, hq, _, _⟩ := hu
  obtain ⟨group, hget⟩ := mem_iff.1 hkey
  obtain ⟨hne, hall⟩ := hgroups key group hget
  obtain ⟨tx, htx⟩ := exists_mem_of_ne_nil group hne
  obtain ⟨htrans, hdef⟩ := hall tx htx
  rcases key_of_deferred hdef with ⟨hfailed, hnone, henabled, huses, rfl⟩ | ⟨_, rfl⟩
  · have hfrom : deferredFrom c q tx ≤ s.lastCommittedRound := hs.fromRound _ hused
    unfold deferredFrom at hfrom hused
    cases hprev : q.previouslyDeferred.get? tx.digest with
    | none =>
      -- Deferred for the first time, so from this round.
      rw [hprev] at hfrom
      exact absurd (show c.round ≤ s.lastCommittedRound from hfrom) (not_le.2 hround)
    | some previous =>
      -- Loaded from a group of a round; with randomness in it, no group waits for randomness.
      obtain ⟨group', hgroup', htx'⟩ := loaded_with hu htrans hprev
      rcases mem_append.1 hgroup' with hgroup' | hgroup'
      · obtain ⟨hstored, fr, round, rfl, _⟩ := (hload.mem_deferred _ _).1 hgroup'
        rcases hs.kinds with hwait | hwith
        · exact hwait _ hused
        · exact hwith _ _ _ hstored tx htx' ⟨henabled, huses⟩
      · obtain ⟨_, _, hgen⟩ := (hload.mem_randomness _ _).1 hgroup'
        subst hq
        simp only [sequencingOf] at hfailed hnone
        rw [hfailed, hnone] at hgen
        rcases hgen with h | h <;> cases h
  · have hfut := (hs.future _ _ hused).1
    omega

/-- The loaded transactions were accepted before, and still are. -/
theorem acceptedDigests_perm : (acceptedDigests config s q q.transactions).Perm
      ((groupTransactions (D ++ R)).map (·.digest) ++ acceptedDigests config s q verified) := by
  have hall : (groupTransactions (D ++ R)).filter
      (accepts config s q) = groupTransactions (D ++ R) := by
    refine filter_eq_self.2 fun tx htx => ?_
    have hs := (groupTransactions_perm (loaded_perm hu.load)).mem_iff.2
      (by rw [groupTransactions_append]; exact mem_append_left _ htx)
    rw [accepts, hu.standing.admitted tx hs, Bool.true_and, Bool.not_eq_true',
      decide_eq_false_iff_not]
    exact fun hl => hl.2 (mem_previouslyDeferred hu.sequencing htx)
  have hp := ((users_transactions hu.sequencing).filter (accepts config s q)).map (·.digest)
  rwa [filter_append, hall, map_append] at hp

theorem deletedDeferredKeys_eq : q.deletedDeferredKeys = (D ++ R).map Prod.fst := by
  rw [hu.sequencing]
  rfl

theorem deleted_mem : ∀ key ∈ q.deletedDeferredKeys, key ∈ s.deferredTransactions := by
  intro key hkey
  rw [deletedDeferredKeys_eq hu] at hkey
  obtain ⟨e, he, rfl⟩ := mem_map.1 hkey
  have hs := (loaded_perm hu.load).mem_iff.2 (mem_append_left _ he)
  exact OrdMap.mem_keys.1 (mem_map_of_mem hs)

/-- A commit loads every group deferred to a round, whatever the round. -/
theorem round_deleted {futureRound round : ℕ}
    (h : s.deferredTransactions.get? (.consensusRound futureRound round) = some group) :
    .consensusRound futureRound round ∈ q.deletedDeferredKeys := by
  have hfut := (hu.standing.future _ _ (mem_iff.2 ⟨_, h⟩)).1
  have hround := hu.later
  rw [deletedDeferredKeys_eq hu]
  exact mem_map_of_mem (mem_append_left _
    ((hu.load.mem_deferred _ _).2 ⟨h, futureRound, round, rfl, by omega⟩))

variable {s' : CommitState} (hgroups : GroupsOf config s c q q.transactions l.deferredTxns)
  (hleaves : Leaves config s c q l s')

include hgroups hleaves

/-- The accounts after a commit: those before it, with what it has accepted of its own. -/
theorem accounted_perm (hha : Handles config s q q.transactions (startLoop config c q) l) :
    s'.accounted.Perm (s.accounted ++ acceptedDigests config s q verified) := by
  have hh := hha.perm
  rw [startLoop_empty.1, nil_append] at hh
  have hs := storeAfter_perm (fun _ => fresh_key hu hgroups) (deleted_mem hu)
  rw [← hleaves.store, deletedDeferredKeys_eq hu] at hs
  have hbef := (groupTransactions_perm (loaded_perm hu.load)).map (·.digest)
  have ha := (groupTransactions_perm hs).map (·.digest)
  refine perm_iff_count.2 fun a => ?_
  have h₁ := (acceptedDigests_perm hu).count_eq a
  have h₂ := hh.count_eq a
  have h₃ := hbef.count_eq a
  have h₄ := ha.count_eq a
  simp only [CommitLoop.handled, groupTransactions_append, map_append, count_append] at h₁ h₂ h₃ h₄
  simp only [accounted, deferredDigests, hleaves.scheduled, hleaves.cancelled, count_append]
  omega

/-- After a commit one kind of group is gone: those that wait, if randomness was generated or key
generation has failed, and otherwise those with randomness that were deferred to a round. -/
theorem kinds_after : (∀ round, .randomness round ∉ s'.deferredTransactions) ∨ ∀ fr round group,
        s'.deferredTransactions.get? (.consensusRound fr round) = some group →
        ∀ tx ∈ group, ¬ (config.randomnessStateEnabled = true ∧ tx.usesRandomness = true) := by
  have houtc : q.dkgFailed = (randomnessOutcome config s c).1 ∧
      q.randomnessRound = (randomnessOutcome config s c).2 := by
    rw [hu.sequencing]
    exact ⟨rfl, rfl⟩
  have hdel := deletedDeferredKeys_eq hu
  have ⟨hs, hround, hload, _, _, _⟩ := hu
  by_cases hgen : (randomnessOutcome config s c).1 = true ∨
      (randomnessOutcome config s c).2.isSome = true
  · refine .inl fun round hmem => ?_
    obtain ⟨group, hget⟩ := mem_iff.1 hmem
    obtain ⟨hkept, hnew | hold⟩ := hleaves.get? hget
    · obtain ⟨tx, _, hdef⟩ := key_of_group hgroups hnew
      rcases key_of_deferred hdef with ⟨hfailed, hnone, _⟩ | ⟨_, hkey⟩
      · rw [← houtc.1, ← houtc.2, hfailed, hnone] at hgen
        rcases hgen with h | h <;> cases h
      · cases hkey
    · have hfrom := hs.fromRound _ (mem_iff.2 ⟨_, hold⟩)
      have hlt : round < u64Max := lt_of_le_of_lt hfrom (hround.trans hload.round_lt)
      exact hkept (hdel ▸ mem_map_of_mem (mem_append_right _
        ((hload.mem_randomness _ _).2 ⟨hold, ⟨round, hlt, rfl⟩, hgen⟩)))
  · refine .inr fun fr round group hget tx htx => ?_
    obtain ⟨hkept, hnew | hold⟩ := hleaves.get? hget
    · rintro ⟨henabled, huses⟩
      rcases key_of_deferred ((hgroups _ _ hnew).2 tx htx).2 with ⟨_, _, _, _, hkey⟩ | ⟨hnot, _⟩
      · cases hkey
      · rw [not_or, Bool.not_eq_true, Bool.not_eq_true, Option.isSome_eq_false_iff,
          Option.isNone_iff_eq_none] at hgen
        exact hnot ⟨houtc.1.trans hgen.1, houtc.2.trans hgen.2, henabled, huses⟩
    · exact absurd (round_deleted hu hold) hkept

theorem origin_after : KeepsOrigin s c s' := by
  intro key group hget tx htx
  rcases (hleaves.get? hget).2 with hnew | hold
  · obtain ⟨htrans, hdef⟩ := (hgroups key group hnew).2 tx htx
    rw [deferredFromRound_eq hdef, deferredFrom]
    cases hprev : q.previouslyDeferred.get? tx.digest with
    | none =>
      refine .inl ⟨fun hmem => ?_, rfl⟩
      rcases mem_append.1 ((users_transactions hu.sequencing).mem_iff.1 htrans) with hl | hver
      · obtain ⟨_, hsome⟩ := mem_iff.1 (mem_previouslyDeferred hu.sequencing hl)
        cases hprev.symm.trans hsome
      · exact hu.unprocessed tx hver ((hu.standing.recorded _).2 (mem_append_right _ hmem))
    | some previous =>
      obtain ⟨group', hgroup', htx'⟩ := loaded_with hu htrans hprev
      have hstored := (loaded_perm hu.load).mem_iff.2 (mem_append_left _ hgroup')
      exact .inr ⟨previous, group', mem_entries.1 hstored, htx', rfl⟩
  · exact .inr ⟨key, group, hold, htx, rfl⟩

/-- **The invariant holds after a commit.** -/
theorem standing_after (hhandles : Handles config s q q.transactions (startLoop config c q) l) :
    Standing config s' := by
  have hperm := accounted_perm hu hgroups hleaves hhandles
  have hsub : (acceptedDigests config s q verified).Sublist ((users verified).map (·.digest)) :=
    filter_sublist.map _
  have ⟨hs, hround, hload, _, hkeys, hnew⟩ := hu
  refine ⟨?_, fun digest => ?_, fun tx htx => ?_, fun key hkey => ?_, fun fr round hkey => ?_,
    kinds_after hu hgroups hleaves, fun p hp => ?_⟩
  · rw [hperm.nodup_iff]
    refine nodup_append.2 ⟨hs.nodup, hkeys.sublist hsub, ?_⟩
    rintro digest hold _ hcurr rfl
    obtain ⟨tx, htx, rfl⟩ := mem_map.1 (hsub.subset hcurr)
    exact hnew tx htx ((hs.recorded _).2 hold)
  · rw [hleaves.messages, hs.recorded, hhandles.processed, startLoop_empty.2.1, hperm.mem_iff,
      mem_append, (acceptedDigests_perm hu).mem_iff, mem_append]
    have hloaded : digest ∈ (groupTransactions (D ++ R)).map (·.digest) → digest ∈ s.accounted := by
      intro hmem
      refine mem_append_right _ ?_
      refine ((groupTransactions_perm (loaded_perm hload)).map _).mem_iff.2 ?_
      rw [groupTransactions_append, map_append]
      exact mem_append_left _ hmem
    tauto
  · obtain ⟨e, he, htx⟩ := mem_flatMap.1 htx
    rcases (hleaves.get? (mem_entries.1 he)).2 with hget | hget
    · have hdef := ((hgroups _ _ hget).2 tx htx).2
      unfold userResult at hdef
      split at hdef
      · assumption
      · cases hdef
    · exact hs.admitted tx (mem_flatMap.2 ⟨e, mem_entries.2 hget, htx⟩)
  · rw [hleaves.lastCommittedRound]
    obtain ⟨group, hget⟩ := mem_iff.1 hkey
    rcases (hleaves.get? hget).2 with hget | hget
    · obtain ⟨tx, _, hdef⟩ := key_of_group hgroups hget
      rw [deferredFromRound_eq hdef]
      exact deferredFrom_le hu tx
    · exact (hs.fromRound key (mem_iff.2 ⟨_, hget⟩)).trans hround.le
  · rw [hleaves.lastCommittedRound]
    obtain ⟨group, hget⟩ := mem_iff.1 hkey
    obtain ⟨hkept, hnew | hold⟩ := hleaves.get? hget
    · obtain ⟨tx, _, hdef⟩ := key_of_group hgroups hnew
      exact limit_of_deferred hdef
    · exact absurd (round_deleted hu hold) hkept
  · rw [hleaves.lastCommittedRound]
    rcases hleaves.heights p hp with hold | hheight
    · exact (hs.heights p hold).trans_le (height_mono (by omega))
    · exact hheight

end Underway

end Loop

/-! ## Commits -/

/-- No key comes twice among the transactions of a commit. -/
theorem nodup_unseen (cached : MessageKey → Bool) (seen : List MessageKey)
    (txs : List SequencedTransaction) :
    ((unseen cached seen txs).map (·.key)).Nodup ∧
      ∀ tx ∈ unseen cached seen txs, tx.key ∉ seen := by
  induction txs generalizing seen with
  | nil => exact ⟨nodup_nil, fun _ h => by cases h⟩
  | cons tx txs ih =>
    obtain ⟨hn, hnew⟩ := ih (tx.key :: seen)
    have hr : ∀ tx' ∈ unseen cached (tx.key :: seen) txs, tx'.key ≠ tx.key ∧ tx'.key ∉ seen :=
      fun tx' htx' => by simpa using hnew tx' htx'
    rw [unseen]
    split
    · exact ⟨hn, fun tx' htx' => (hr tx' htx').2⟩
    · rename_i hf
      refine ⟨nodup_cons.2 ⟨fun hmem => ?_, hn⟩, fun tx' htx' => ?_⟩
      · obtain ⟨tx', htx', hkey⟩ := mem_map.1 hmem
        exact (hr tx' htx').1 hkey
      · rcases mem_cons.1 htx' with rfl | htx'
        · exact fun hmem => hf (.inl hmem)
        · exact (hr tx' htx').2

theorem users_keys_sublist :
    ((users txs).map fun tx => MessageKey.certificate tx.digest).Sublist (txs.map (·.key)) := by
  induction txs with
  | nil => exact .slnil
  | cons tx txs ih =>
    cases tx with
    | user tx => exact ih.cons_cons _
    | system _ | endOfPublish _ _ | message _ _ _ => exact ih.cons _

/-- The transactions of a commit that are processed: no digest twice, none processed before. -/
theorem verified_users :
    ((users ((unseen c.cached [] c.transactions).filter (verifyConsensusTransaction s))).map
        (·.digest)).Nodup ∧
      ∀ tx ∈ users ((unseen c.cached [] c.transactions).filter (verifyConsensusTransaction s)),
        .certificate tx.digest ∉ s.messagesProcessed := by
  constructor
  · have hk := (nodup_unseen c.cached [] c.transactions).1.sublist
      ((filter_sublist (p := verifyConsensusTransaction s)).map _)
    have hd := hk.sublist (users_keys_sublist _)
    refine List.Nodup.of_map MessageKey.certificate ?_
    rw [map_map]
    exact hd
  · intro tx htx
    obtain ⟨tx', htx', hu⟩ := mem_filterMap.1 htx
    have hver := (mem_filter.1 htx').2
    rw [verifyConsensusTransaction] at hver
    cases tx' <;> simp_all [user?, key]

/-- The final round is only reached with nothing in the store. -/
theorem finalRound_store_empty {authorities : List ℕ} {deferred : DeferredTransactions}
    {commitHasDeferredTxns : Bool}
    (h : (processEndOfPublishTransactionsAndReconfig config s authorities deferred
      commitHasDeferredTxns).2 = true) : deferred.entries = [] := by
  unfold processEndOfPublishTransactionsAndReconfig at h
  dsimp only at h
  split at h
  · cases h
  · rename_i hnot
    simp only [not_or, not_not] at hnot
    exact hnot.2.1

/-- What `process_consensus_transactions` returns, by its loop. -/
structure Finishes (s : CommitState) (l : CommitLoop) (p : ProcessedCommit) : Prop where
  scheduled : p.loop.scheduled = l.scheduled
  cancelled : p.loop.cancelledTxns = l.cancelledTxns
  deferred : p.loop.deferredTxns = l.deferredTxns
  messages : ∀ digest, .certificate digest ∈ p.loop.messagesProcessed ↔
    .certificate digest ∈ l.messagesProcessed
  store : p.deferredTransactions =
    l.deferredTxns.entries.foldl (fun m e => m.insert e.1 e.2) s.deferredTransactions
  final : p.finalRound = true → p.deferredTransactions.entries = []

theorem processConsensusTransactions_of_loop
    (hc : q.randomnessRound.isSome = true → q.dkgFailed = false)
    (hl : q.entries.foldlM (processEntry config s c q) (startLoop config c q) = .ok l) :
    ∃ p, processConsensusTransactions config s c q = .ok p ∧ Finishes s l p := by
  unfold processConsensusTransactions
  rw [check_of hc, hl]
  exact ⟨_, rfl, rfl, rfl, rfl, fun digest => by simp, rfl, finalRound_store_empty⟩

theorem commitPendingCheckpoints_heights {p : ProcessedCommit}
    (hq : config.randomnessStateEnabled = false → q.dkgFailed = false ∧ q.randomnessRound = none)
    {pending : PendingCheckpointContents} (h : pending ∈ commitPendingCheckpoints config c q p) :
    calculatePendingCheckpointHeight config c.round ≤ pending.details.checkpointHeight ∧
      pending.details.checkpointHeight < calculatePendingCheckpointHeight config (c.round + 1) := by
  unfold commitPendingCheckpoints at h
  split at h
  swap
  · cases h
  rcases mem_cons.1 h with rfl | h
  · unfold calculatePendingCheckpointHeight
    split <;> simp
  · split at h
    swap
    · cases h
    rename_i hr
    rw [mem_singleton.1 h]
    unfold calculatePendingCheckpointHeight
    cases he : config.randomnessStateEnabled with
    | true =>
      simp
      omega
    | false =>
      -- Without randomness there is no second checkpoint.
      obtain ⟨hf, hn⟩ := hq he
      simp only [shouldWriteRandomCheckpoint, hf, hn] at hr
      cases hr

section Commit

variable {verified : List SequencedTransaction} {D R : DeferredGroups}
  (hu : Underway config s c q verified D R)

include hu

/-- The loop of a commit returns, with every accepted transaction in one place. -/
theorem commitLoop_runs :
    ∃ l p, processConsensusTransactions config s c q = .ok p ∧ Finishes s l p ∧
      Handles config s q q.transactions (startLoop config c q) l ∧
      GroupsOf config s c q q.transactions l.deferredTxns := by
  have hnodup := nodup_transactions hu
  have htrans : q.entries.map Prod.snd = q.transactions := by
    simp [Sequencing.entries, Sequencing.transactions]
  have hend : ∀ entry ∈ q.entries, entry.2.isEndOfPublish = false := by
    intro entry hentry
    refine not_endOfPublish hu.sequencing _ ?_
    rw [← htrans]
    exact mem_map_of_mem hentry
  obtain ⟨l, hl, hhandles⟩ : ∃ l, q.entries.foldlM (processEntry config s c q)
      (startLoop config c q) = .ok l ∧ Handles config s q _ (startLoop config c q) l :=
    foldlM_processEntry hend (by rwa [htrans, startLoop_empty.1, nil_append])
  have hgroups := foldlM_processEntry_groups hl fun key group hget => by
    rw [startLoop_empty.2.2] at hget
    cases hget
  rw [htrans] at hhandles hgroups
  have hcheck : q.randomnessRound.isSome = true → q.dkgFailed = false := by
    rw [hu.sequencing]
    intro hsome
    rw [← Bool.not_eq_true]
    intro hfailed
    rw [show (sequencingOf config s c verified D R).randomnessRound =
      (randomnessOutcome config s c).2 from rfl, (randomnessOutcome_failed hfailed).1] at hsome
    cases hsome
  obtain ⟨p, hp, hfin⟩ := processConsensusTransactions_of_loop hcheck hl
  exact ⟨l, p, hp, hfin, hhandles, hgroups⟩

theorem commitBoundary_standing {p : ProcessedCommit} (hfin : Finishes s l p)
    (hhandles : Handles config s q q.transactions (startLoop config c q) l)
    (hgroups : GroupsOf config s c q q.transactions l.deferredTxns) {outcome : CommitOutcome}
    (houtc : outcome = commitOutcome config s c q p) :
    Standing config outcome.state ∧ KeepsGroups s outcome ∧ KeepsOrigin s c outcome.state := by
  have hstate : outcome.state.deferredTransactions =
      storeAfter s.deferredTransactions l.deferredTxns q.deletedDeferredKeys := by
    rw [houtc]
    exact congrArg (q.deletedDeferredKeys.foldl OrdMap.erase) hfin.store
  have hfresh : ∀ key ∈ l.deferredTxns, key ∉ s.deferredTransactions := fun key hkey =>
    fresh_key hu hgroups hkey
  have hleaves : Leaves config s c q l outcome.state := by
    refine ⟨by rw [houtc]; rfl, hstate, fun digest => ?_, ?_, ?_, fun pending hpend => ?_⟩
    · rw [houtc, ← hfin.messages]
      exact mem_append
    · rw [houtc, ← hfin.scheduled]
      rfl
    · rw [houtc, ← hfin.cancelled]
      rfl
    · rw [houtc] at hpend
      rcases mem_append.1 hpend with hold | hcurr
      · exact .inl hold
      · exact .inr (commitPendingCheckpoints_heights (sequencing_disabled hu.sequencing) hcurr).2
  have hdef : outcome.deferredTxns = l.deferredTxns := by
    rw [houtc]
    exact hfin.deferred
  refine ⟨standing_after hu hgroups hleaves hhandles, ⟨hdef ▸ hfresh, ?_, ?_⟩,
    origin_after hu hgroups hleaves⟩
  · intro key group hget
    rw [hdef] at hget
    have hkept : key ∉ q.deletedDeferredKeys := fun hdel =>
      hfresh key (mem_iff.2 ⟨_, hget⟩) (deleted_mem hu key hdel)
    refine ⟨by rw [houtc]; exact hkept, ?_⟩
    rw [hstate, ← mem_entries, (storeAfter_perm hfresh (deleted_mem hu)).mem_iff]
    exact mem_append_left _ (mem_entries.2 hget)
  · intro hfinal
    rw [houtc] at hfinal ⊢
    have hempty := hfin.final hfinal
    change (q.deletedDeferredKeys.foldl OrdMap.erase p.deferredTransactions).entries = []
    rw [foldl_erase]
    exact filter_eq_nil_iff.2 fun e he => by rw [hempty] at he; cases he

end Commit

/-- **A commit keeps the invariant and the groups.** It stops only if its round is below that of the
last commit, or the last one there is. -/
theorem handleConsensusCommit_standing (hs : Standing config s) :
    Ends (handleConsensusCommit config s c)
      (fun outcome? => ∀ outcome, outcome? = some outcome →
        Standing config outcome.state ∧ KeepsGroups s outcome ∧ KeepsOrigin s c outcome.state)
      fun e => (e = .commitRoundDecreased ∧ c.round < s.lastCommittedRound) ∨
        (e = .roundOverflow ∧ u64Max ≤ c.round) := by
  unfold handleConsensusCommit
  by_cases hle : s.lastCommittedRound ≤ c.round
  swap
  · rw [show check (s.lastCommittedRound ≤ c.round) CommitPanic.commitRoundDecreased =
      .error .commitRoundDecreased from if_neg hle]
    exact .inl ⟨rfl, not_le.1 hle⟩
  rw [check_of hle]
  split
  · exact fun _ h => by cases h
  rename_i hne
  have hround : s.lastCommittedRound < c.round := lt_of_le_of_ne hle hne
  unfold processConsensusTransactionsAndCommitBoundary sequenceTransactions
  have hends := loadDeferred_ends config s c
  cases hloadDef : loadDeferred config s c with
  | error e => exact .inr (hends.of_error hloadDef)
  | ok groups =>
    have hload := hends.of_ok hloadDef
    obtain ⟨hkeys, hnew⟩ := verified_users
    simp only [ok_bind, pure_ok]
    generalize hq : sequencingOf config s c _ groups.1 groups.2 = q
    have hu : Underway config s c q _ _ _ := ⟨hs, hround, hload, hq.symm, hkeys, hnew⟩
    obtain ⟨l, p, hp, hfin, hhandles, hgroups⟩ := commitLoop_runs hu
    have hwrite : (commitPendingCheckpoints config c q p).forM
        (writePendingCheckpoint s.pendingCheckpoints) = .ok ⟨⟩ := by
      refine forM_ok fun pending hpend => check_of fun hmem => ?_
      obtain ⟨old, hold, hheight⟩ := mem_map.1 hmem
      have hlt := (hs.heights old hold).trans_le (height_mono (show _ ≤ c.round by omega))
      have hge := (commitPendingCheckpoints_heights (sequencing_disabled hq.symm) hpend).1
      omega
    rw [hp, ok_bind, hwrite]
    intro outcome houtc
    exact commitBoundary_standing hu hfin hhandles hgroups (Option.some.inj houtc).symm

/-! ## Runs -/

theorem standing_of_reach (hs : (commitMachine config).Reach Machine.free s) :
    Standing config s := by
  refine hs.invariant ?_ ?_
  · rintro s rfl
    exact standing_start
  · intro s a s' hsn _ hst
    cases a with
    | closeUserCerts =>
      cases hst
      exact { hsn with }
    | commit c =>
      change commitStep config s (.commit c) = .ok s' at hst
      simp only [commitStep, ok_iff] at hst
      obtain ⟨outcome?, hc, rfl⟩ := hst
      have he := (handleConsensusCommit_standing hsn).of_ok hc
      cases outcome? with
      | none => exact hsn
      | some outcome => exact (he outcome rfl).1

/-- **Congestion holds a transaction back for a bounded number of rounds.** What waits for a round
waits for the next one, within the limit from the round of its first deferral. -/
theorem congestion_deferral_bounded (hs : (commitMachine config).Reach Machine.free s) :
    (∀ futureRound round, .consensusRound futureRound round ∈ s.deferredTransactions →
      futureRound = s.lastCommittedRound + 1 ∧ futureRound ≤ round + config.maxDeferralRounds) ∧
    ∀ c outcome, handleConsensusCommit config s c = .ok (some outcome) →
      KeepsOrigin s c outcome.state := by
  have hst := standing_of_reach hs
  refine ⟨hst.future, fun c outcome hc => ?_⟩
  exact ((handleConsensusCommit_standing hst).of_ok hc outcome rfl).2.2

theorem congestion_deferral_bounded_sample :
    ∃ s, (commitMachine CommitSample.epochConfig).Reach Machine.free s ∧
      .consensusRound 4 3 ∈ s.deferredTransactions ∧ 4 = s.lastCommittedRound + 1 := by
  refine Machine.exists_reach_and
    [.commit { CommitSample.commit .pending with congested := fun _ => some [] }] _
    (Machine.init_ok rfl) (by decide +kernel) fun s hs hkey => ?_
  exact ((congestion_deferral_bounded hs).1 _ _ hkey).1

end OneChain.Authority
