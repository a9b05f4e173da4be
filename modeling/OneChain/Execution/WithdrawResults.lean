import OneChain.Execution.BalanceWithdraw

/-!
# Balance withdraws get their results

The two tasks of the scheduler, in any interleaving with each other and with their callers.

* `Settles` — the settlement task: what came without a gap has taken effect, the rest is buffered.
* `Answered` — the withdraw task: the batches before the current one have their results, those after
  it are in the channel.
* `work` — the steps that the tasks can take before they need new input.
* `withdraws_scheduled` — every withdraw gets one result, and the right one.
-/

namespace OneChain.Execution

open Lib Authority List OrdMap WithdrawReservations Machine

namespace BalanceWithdrawScheduler

variable {s s' : BalanceWithdrawScheduler}

/-! ## Settlements -/

/-- What the settlement task has seen and done. -/
structure Settles (s : BalanceWithdrawScheduler) : Prop where
  settled_eq : s.settled = List.range' (s.start + 1) s.settled.length
  value_eq : s.lastSettledVersion.value = s.start + s.settled.length
  expected_eq : s.expectedVersion = s.lastSettledVersion.value + 1
  announced : ∀ v ∈ s.settled, v ∈ s.delivered
  pending : ∀ v x, s.pendingSettlements.get? v = some x → x.accumulatorVersion = v ∧ v ∈ s.delivered
  queued : ∀ x ∈ s.settlements, x.accumulatorVersion ∈ s.delivered
  kept : ∀ v ∈ s.delivered, v ≤ s.lastSettledVersion.value ∨ v ∈ s.pendingSettlements ∨
    ∃ x ∈ s.settlements, x.accumulatorVersion = v
  drained : s.draining = false → s.expectedVersion ∉ s.pendingSettlements

variable {starting v : ℕ} {accounts : ObjectID → OrdMap ℕ ℕ} {a : SchedulerAction}
  {finished : List Report} {current : Option Report}

theorem Settles.mem_settled (h : s.Settles) :
    v ∈ s.settled ↔ s.start < v ∧ v ≤ s.lastSettledVersion.value := by
  rw [h.settled_eq, mem_range'_1, h.value_eq]
  omega

theorem Settles.new : (new accounts starting).Settles where
  settled_eq := rfl
  value_eq := rfl
  expected_eq := rfl
  announced := by simp [BalanceWithdrawScheduler.new]
  pending := nofun
  queued := by simp [BalanceWithdrawScheduler.new]
  kept := by simp [BalanceWithdrawScheduler.new]
  drained _ := notMem_iff.2 rfl

theorem Settles.settleBalances (h : s.Settles) (stl : BalanceSettlement) :
    (s.settleBalances stl).Settles where
  __ := h
  announced v hv := mem_append_left _ (h.announced v hv)
  pending v x hx := ⟨(h.pending v x hx).1, mem_append_left _ (h.pending v x hx).2⟩
  queued x hx := by
    rcases mem_append.1 hx with hx | hx
    · exact mem_append_left _ (h.queued x hx)
    · rw [mem_singleton.1 hx]
      exact mem_append_right _ (mem_singleton.2 rfl)
  kept v hv := by
    rcases mem_append.1 hv with hv | hv
    · refine (h.kept v hv).imp_right (Or.imp_right ?_)
      rintro ⟨x, hx, hxv⟩
      exact ⟨x, mem_append_left _ hx, hxv⟩
    · exact .inr (.inr ⟨stl, mem_append_right _ (mem_singleton.2 rfl), (mem_singleton.1 hv).symm⟩)

/-- What a step of the settlement task does: it buffers a settlement, lets the expected one take
effect, or goes back to its channel. -/
theorem processSettlementTask_cases (h : s.processSettlementTask = .ok s') :
    (∃ stl rest, s.draining = false ∧ s.settlements = stl :: rest ∧ s' = { s with
        settlements := rest
        pendingSettlements := s.pendingSettlements.insert stl.accumulatorVersion stl
        draining := true }) ∨
    (∃ stl, s.draining = true ∧ s.pendingSettlements.get? s.expectedVersion = some stl ∧
      s' = { s with
        pendingSettlements := s.pendingSettlements.erase s.expectedVersion
        expectedVersion := stl.accumulatorVersion + 1
        lastSettledVersion := s.lastSettledVersion.send stl.accumulatorVersion
        settled := s.settled ++ [stl.accumulatorVersion] }) ∨
    (s.draining = true ∧ s.pendingSettlements.get? s.expectedVersion = none ∧
      s' = { s with draining := false }) := by
  unfold processSettlementTask at h
  split at h
  next hd =>
    split at h
    next stl hget =>
      cases h
      exact .inr (.inl ⟨stl, hd, hget, rfl⟩)
    next hget =>
      cases h
      exact .inr (.inr ⟨hd, hget, rfl⟩)
  next hd =>
    split at h
    next => cases h
    next stl rest hq =>
      cases h
      exact .inl ⟨stl, rest, Bool.not_eq_true _ ▸ hd, hq, rfl⟩

variable {e : SchedulerPanic}

theorem processSettlementTask_error (h : s.processSettlementTask = .error e) :
    e = .pending ∧ s.draining = false ∧ s.settlements = [] := by
  unfold processSettlementTask at h
  split at h
  · split at h <;> cases h
  next hd =>
    split at h <;> cases h
    next hnil => exact ⟨rfl, Bool.not_eq_true _ ▸ hd, hnil⟩

theorem Settles.processSettlementTask (h : s.Settles) (hstep : s.processSettlementTask = .ok s') :
    s'.Settles := by
  rcases processSettlementTask_cases hstep with ⟨stl, rest, -, hqueue, rfl⟩ |
    ⟨stl, hdrain, hget, rfl⟩ | ⟨-, hget, rfl⟩
  · have hhead : stl.accumulatorVersion ∈ s.delivered := h.queued stl (hqueue ▸ mem_cons_self)
    refine ⟨h.settled_eq, h.value_eq, h.expected_eq, h.announced,
      forall_get?_insert ⟨rfl, hhead⟩ h.pending,
      fun x hx => h.queued x (hqueue ▸ mem_cons_of_mem _ hx), fun v hv => ?_, nofun⟩
    · rcases h.kept v hv with hle | hmem | ⟨x, hx, hxv⟩
      · exact .inl hle
      · exact .inr (.inl (mem_insert.2 (.inr hmem)))
      · rw [hqueue] at hx
        rcases mem_cons.1 hx with rfl | hx
        · exact .inr (.inl (mem_insert.2 (.inl hxv.symm)))
        · exact .inr (.inr ⟨x, hx, hxv⟩)
  · obtain ⟨hvers, hdel⟩ := h.pending _ _ hget
    have hnext : stl.accumulatorVersion = s.start + 1 + s.settled.length := by
      rw [hvers, h.expected_eq, h.value_eq]
      omega
    refine ⟨?_, ?_, rfl, fun v hv => ?_, fun v x hx => h.pending v x (get?_of_erase hx),
      h.queued, fun v hv => ?_, fun hnot => absurd (hdrain.symm.trans hnot) nofun⟩
    · dsimp only
      rw [length_append, length_singleton, List.range'_1_concat, ← h.settled_eq, hnext]
    · dsimp only [WatchChannel.send]
      rw [length_append, length_singleton]
      omega
    · rcases mem_append.1 hv with hv | hv
      · exact h.announced v hv
      · rw [mem_singleton.1 hv, hvers]
        exact hdel
    · dsimp only [WatchChannel.send]
      rcases h.kept v hv with hle | hmem | hqueue
      · left
        have := h.expected_eq
        omega
      · by_cases heq : v = s.expectedVersion
        · exact .inl (by omega)
        · obtain ⟨x, hx⟩ := mem_iff.1 hmem
          refine .inr (.inl (mem_iff.2 ⟨x, ?_⟩))
          rw [get?_erase, if_neg heq, hx]
      · exact .inr (.inr hqueue)
  · exact { h with drained := fun _ => notMem_iff.2 hget }

theorem processWithdrawTask_frame (h : s.processWithdrawTask = .ok s') :
    ∃ withdraws task results, s' = { s with
      withdraws := withdraws, withdrawTask := task, results := results } := by
  unfold processWithdrawTask at h
  split at h
  · split at h <;> cases h
    exact ⟨_, _, _, rfl⟩
  · split at h <;> cases h <;> exact ⟨_, _, _, rfl⟩
  · split at h <;> cases h
    exact ⟨_, _, _, rfl⟩
  · split at h <;> cases h <;> exact ⟨_, _, _, rfl⟩
  · cases h
    exact ⟨_, _, _, rfl⟩
  · cases h
    exact ⟨_, _, _, rfl⟩
  · cases h
    exact ⟨_, _, _, rfl⟩
  · obtain ⟨⟨cur, status⟩, -, h⟩ := bind_ok.1 h
    cases h
    exact ⟨_, _, _, rfl⟩

/-- The withdraw task waits for a batch, or for a version after the one it has seen. -/
theorem processWithdrawTask_error (h : s.processWithdrawTask = .error e) :
    e = .pending ∧ (s.withdrawTask = .receiving ∧ s.withdraws = [] ∨
      ∃ withdraws, s.withdrawTask = .waiting withdraws s.lastSettledVersion.version) := by
  unfold processWithdrawTask at h
  split at h
  next ht =>
    split at h <;> cases h
    next hnil => exact ⟨rfl, .inl ⟨ht, hnil⟩⟩
  next => split at h <;> cases h
  next withdraws seen ht =>
    split at h <;> cases h
    next hs => exact ⟨rfl, .inr ⟨withdraws, hs ▸ ht⟩⟩
  next => split at h <;> cases h
  next => cases h
  next => cases h
  next => cases h
  next call rest ht =>
    obtain ⟨cur', hres, -⟩ := reserveWithdraw_ok (s.getAccountBalance _) _ call.1
    rw [hres] at h
    cases h

/-- **A settled version can be read.** Its balances do not change any more. -/
theorem getAccountBalance_writeAccount (h : s.Settles) {acc : ObjectID} {version : ℕ}
    {balance : ℕ} (hnew : s.start < version ∧ version ∉ s.delivered)
    (hv : v ≤ s.lastSettledVersion.value) :
    (s.writeAccount acc version balance).getAccountBalance v = s.getAccountBalance v := by
  have hl : ¬ version ≤ v := fun hle =>
    hnew.2 (h.announced _ (h.mem_settled.2 ⟨hnew.1, hle.trans hv⟩))
  funext accountId
  unfold getAccountBalance
  congr 3
  refine ext_get? fun k => ?_
  simp only [get?_filter, writeAccount, Function.update_apply]
  split
  next heq =>
    subst heq
    rw [get?_insert]
    split
    next heq =>
      subst heq
      cases hget : (s.accounts accountId).get? k <;> simp [hl]
    next => rfl
  next => rfl

/-! ## Answers -/

/-- A batch, and the answers that were sent for its first withdraws. -/
structure Report where
  batch : WithdrawReservations
  statuses : List ScheduleStatus

namespace Report

def answers (r : Report) : List (TxBalanceWithdraw × ScheduleStatus) :=
  (r.batch.calls.zip r.statuses).map fun p => (p.1.1, p.2)

def results (r : Report) : List (ℕ × ScheduleResult) :=
  (r.batch.calls.zip r.statuses).map fun p => (p.1.2, ⟨p.1.1.txDigest, p.2⟩)

/-- The withdraws that have no answer yet. -/
def rest (r : Report) : List (TxBalanceWithdraw × ℕ) := r.batch.calls.drop r.statuses.length

def answer (r : Report) (status : ScheduleStatus) : Report := ⟨r.batch, r.statuses ++ [status]⟩

variable {r : Report} {call : TxBalanceWithdraw × ℕ} {calls : List (TxBalanceWithdraw × ℕ)}
  {status : ScheduleStatus}

theorem rest_answer (h : r.rest = call :: calls) : (r.answer status).rest = calls := by
  unfold rest at h ⊢
  rw [answer, length_append, ← drop_drop, h]
  rfl

theorem senders_eq (h : r.batch.senders.length = r.batch.withdraws.length) :
    r.batch.senders = r.results.map Prod.fst ++ r.rest.map Prod.snd := by
  have hc := congrArg (List.map Prod.snd) (map_fst_zip_append_drop r.batch.calls r.statuses)
  rw [calls, map_snd_zip h.le] at hc
  rw [← hc]
  simp [results, rest, calls]

/-- The answers can be read off what was sent on the channels. -/
theorem filterMap_calls {f : TxBalanceWithdraw × ℕ → Option (TxBalanceWithdraw × ScheduleStatus)}
    (hse : ∀ p ∈ r.batch.calls.zip r.statuses, f p.1 = some (p.1.1, p.2))
    (hr : ∀ c ∈ r.rest, f c = none) : r.batch.calls.filterMap f = r.answers := by
  have hs := map_fst_zip_append_drop r.batch.calls r.statuses
  have hn : r.rest.filterMap f = [] := filterMap_eq_nil_iff.2 hr
  unfold rest at hn
  nth_rewrite 1 [← hs]
  rw [filterMap_append, hn, append_nil, filterMap_map, answers, ← filterMap_eq_map]
  exact filterMap_congr hse

section

variable (h : r.rest = call :: calls)
include h

theorem calls_zip_answer :
    r.batch.calls.zip (r.answer status).statuses =
      r.batch.calls.zip r.statuses ++ [(call, status)] :=
  zip_concat_of_drop h

theorem answers_answer : (r.answer status).answers = r.answers ++ [(call.1, status)] := by
  unfold answers
  rw [show (r.answer status).batch = r.batch from rfl, calls_zip_answer h, map_append]
  rfl

theorem results_answer :
    (r.answer status).results = r.results ++ [(call.2, ⟨call.1.txDigest, status⟩)] := by
  unfold results
  rw [show (r.answer status).batch = r.batch from rfl, calls_zip_answer h, map_append]
  rfl

end

end Report

/-- All answers so far say that the batch is too late, and it is. -/
def Rejected (s : BalanceWithdrawScheduler) (r : Report) : Prop :=
  r.batch.accumulatorVersion < s.lastSettledVersion.value ∧ ∀ p ∈ r.answers, p.2 = .alreadyExecuted

/-- All answers so far are those of the tests against the balances at the version of the batch. -/
def Tested (s : BalanceWithdrawScheduler) (r : Report) : Prop :=
  r.batch.accumulatorVersion ≤ s.lastSettledVersion.value ∧
    Decided (s.getAccountBalance r.batch.accumulatorVersion) r.answers

variable (s current) in
/-- What is known of the batch that the task is at. -/
def At : WithdrawTask → Prop
  | .receiving => current = none
  | .checking withdraws => current = some ⟨withdraws, []⟩
  | .waiting withdraws seen => current = some ⟨withdraws, []⟩ ∧
    seen ≤ s.lastSettledVersion.version ∧
    (seen = s.lastSettledVersion.version →
      s.lastSettledVersion.value < withdraws.accumulatorVersion)
  | .comparing withdraws => current = some ⟨withdraws, []⟩ ∧
    withdraws.accumulatorVersion ≤ s.lastSettledVersion.value
  | .rejecting rest => ∃ r, current = some r ∧ rest = r.rest ∧ s.Rejected r
  | .reserving version curBalances rest => ∃ r, current = some r ∧ rest = r.rest ∧
    version = r.batch.accumulatorVersion ∧ s.Tested r ∧
    curBalance (s.getAccountBalance version) curBalances =
      fun account => leftAfter (s.getAccountBalance version account) (reservedOn account r.answers)

variable (s finished current) in
/-- The batches before the current one are answered, those after it are in the channel. -/
structure Answered : Prop where
  scheduled_eq : s.scheduled = (finished ++ current.toList).map Report.batch ++ s.withdraws
  results_eq : s.results = (finished ++ current.toList).flatMap Report.results
  complete : ∀ r ∈ finished, r.rest = []
  sound : ∀ r ∈ finished, s.Rejected r ∨ s.Tested r
  current : s.At current s.withdrawTask

/-- The channels of the results. -/
structure Opened (s : BalanceWithdrawScheduler) : Prop where
  senders : s.scheduled.flatMap WithdrawReservations.senders = List.range s.channels
  lengths : ∀ b ∈ s.scheduled, b.senders.length = b.withdraws.length

section Answered

/-- Later settlements and new account objects do not touch what was answered. -/
theorem Answered.mono (h : s.Answered finished current) (hsched : s'.scheduled = s.scheduled)
    (hwithd : s'.withdraws = s.withdraws) (hresults : s'.results = s.results)
    (htask : s'.withdrawTask = s.withdrawTask)
    (hvalue : s.lastSettledVersion.value ≤ s'.lastSettledVersion.value)
    (hwatch : s'.lastSettledVersion = s.lastSettledVersion ∨
      s.lastSettledVersion.version < s'.lastSettledVersion.version)
    (hbal : ∀ v ≤ s.lastSettledVersion.value, s'.getAccountBalance v = s.getAccountBalance v) :
    s'.Answered finished current := by
  have hrej : ∀ r, s.Rejected r → s'.Rejected r := fun r hr => ⟨hr.1.trans_le hvalue, hr.2⟩
  have htested : ∀ r, s.Tested r → s'.Tested r := fun r hr =>
    ⟨hr.1.trans hvalue, by rw [hbal _ hr.1]; exact hr.2⟩
  refine ⟨by rw [hsched, hwithd, h.scheduled_eq], by rw [hresults, h.results_eq],
    h.complete, fun r hr => (h.sound r hr).imp (hrej r) (htested r), ?_⟩
  have hat := h.current
  rw [htask]
  cases hcase : s.withdrawTask <;> rw [hcase] at hat
  case receiving => exact hat
  case checking => exact hat
  case waiting withdraws seen =>
    obtain ⟨hcurr, hseen, hwaits⟩ := hat
    rcases hwatch with hwatch | hwatch
    · exact ⟨hcurr, hwatch ▸ hseen, hwatch ▸ hwaits⟩
    · exact ⟨hcurr, hseen.trans hwatch.le, fun heq => absurd (heq ▸ hwatch) (not_lt.2 hseen)⟩
  case comparing withdraws => exact ⟨hat.1, hat.2.trans hvalue⟩
  case rejecting rest =>
    obtain ⟨r, hcurr, hrest, hr⟩ := hat
    exact ⟨r, hcurr, hrest, hrej r hr⟩
  case reserving version cur rest =>
    obtain ⟨r, hcurr, hrest, rfl, hr, hcur⟩ := hat
    refine ⟨r, hcurr, hrest, rfl, htested r hr, ?_⟩
    rw [hbal _ hr.1]
    exact hcur

theorem Answered.scheduleWithdraws (h : s.Answered finished current) (version : ℕ)
    (withdraws : List TxBalanceWithdraw) :
    (s.scheduleWithdraws version withdraws).Answered finished current where
  __ := h
  scheduled_eq := by
    simp only [BalanceWithdrawScheduler.scheduleWithdraws]
    rw [h.scheduled_eq, append_assoc]
  current := by
    have hat := h.current
    simp only [BalanceWithdrawScheduler.scheduleWithdraws]
    cases hc : s.withdrawTask <;> rw [hc] at hat <;> exact hat

variable {r : Report} {call : TxBalanceWithdraw × ℕ} {calls : List (TxBalanceWithdraw × ℕ)}
  {task : WithdrawTask}

open Report

theorem Answered.sendResult {status : ScheduleStatus} (h : s.Answered finished (some r))
    (hr : r.rest = call :: calls) (hat : s.At (some (r.answer status)) task) :
    Answered { s.sendResult call status with withdrawTask := task } finished
      (some (r.answer status)) where
  __ := h
  scheduled_eq := by
    have := h.scheduled_eq
    simpa [BalanceWithdrawScheduler.sendResult, answer] using this
  results_eq := by
    simp only [BalanceWithdrawScheduler.sendResult, h.results_eq, Option.toList_some,
      flatMap_append, flatMap_singleton, results_answer hr, append_assoc]
  current := by
    cases task <;> exact hat

theorem Answered.finish (h : s.Answered finished (some r)) (hr : r.rest = [])
    (hs : s.Rejected r ∨ s.Tested r) :
    Answered { s with withdrawTask := .receiving } (finished ++ [r]) none where
  scheduled_eq := by simpa using h.scheduled_eq
  results_eq := by simpa using h.results_eq
  complete := by
    rw [forall_mem_append, forall_mem_singleton]
    exact ⟨h.complete, hr⟩
  sound := by
    rw [forall_mem_append, forall_mem_singleton]
    exact ⟨h.sound, hs⟩
  current := rfl

theorem Answered.goto (h : s.Answered finished current) (hat : s.At current task) :
    Answered { s with withdrawTask := task } finished current where
  __ := h
  current := by
    cases task <;> exact hat

theorem Tested.nil {b : WithdrawReservations}
    (h : b.accumulatorVersion ≤ s.lastSettledVersion.value) : s.Tested ⟨b, []⟩ := by
  refine ⟨h, ?_⟩
  unfold answers
  rw [zip_nil_right]
  exact .nil

theorem reservedOn_answer {read : ObjectID → ℕ} {cur cur' : OrdMap ObjectID ℕ}
    (hr : r.rest = call :: calls) (hcur : curBalance read cur = fun acc =>
      leftAfter (read acc) (reservedOn acc r.answers))
    (hcur' : ∀ acc, curBalance read cur' acc = if call.1.Fits (curBalance read cur) then
        ((call.1.reservations.get? acc).map fun r =>
          r.remaining (curBalance read cur acc)).getD (curBalance read cur acc)
      else curBalance read cur acc) :
    curBalance read cur' = fun acc => leftAfter (read acc) (reservedOn acc
      (r.answer (if call.1.Fits (curBalance read cur) then .sufficientBalance
        else .insufficientBalance)).answers) := by
  funext acc
  rw [hcur' acc, answers_answer hr]
  split
  next =>
    rw [reservedOn_concat_success]
    cases hget : call.1.reservations.get? acc with
    | none => simp [hcur]
    | some reservation => simp [hcur, leftAfter_concat]
  next =>
    rw [reservedOn_concat_failure (by decide), hcur]

theorem Answered.processWithdrawTask (h : s.Answered finished current)
    (hstep : s.processWithdrawTask = .ok s') :
    ∃ finished' current', s'.Answered finished' current' := by
  have hat := h.current
  unfold BalanceWithdrawScheduler.processWithdrawTask at hstep
  split at hstep
  next htask =>
    rw [htask] at hat
    cases hat
    split at hstep
    next => cases hstep
    next event rest hqueue =>
      cases hstep
      refine ⟨finished, some ⟨event, []⟩, ?_, ?_, h.complete, h.sound, rfl⟩
      · have := h.scheduled_eq
        rw [hqueue] at this
        simpa using this
      · have := h.results_eq
        simpa [Report.results] using this
  next withdraws htask =>
    rw [htask] at hat
    split at hstep
    next hlt =>
      cases hstep
      exact ⟨finished, current, h.goto ⟨hat, le_rfl, fun _ => hlt⟩⟩
    next hnot =>
      cases hstep
      exact ⟨finished, current, h.goto ⟨hat, not_lt.1 hnot⟩⟩
  next withdraws seen htask =>
    rw [htask] at hat
    split at hstep
    next => cases hstep
    next =>
      cases hstep
      exact ⟨finished, current, h.goto hat.1⟩
  next withdraws htask =>
    rw [htask] at hat
    obtain ⟨rfl, hsettled⟩ := hat
    split at hstep
    next hlate =>
      cases hstep
      exact ⟨finished, _, h.goto ⟨_, rfl, rfl, hlate, by simp [answers]⟩⟩
    next =>
      cases hstep
      exact ⟨finished, _, h.goto ⟨_, rfl, rfl, rfl, .nil hsettled, by
        simp [answers, reservedOn, leftAfter, curBalance_empty]⟩⟩
  next htask =>
    rw [htask] at hat
    obtain ⟨r, rfl, hrest, hr⟩ := hat
    cases hstep
    exact ⟨_, _, h.finish hrest.symm (.inl hr)⟩
  next call rest htask =>
    rw [htask] at hat
    obtain ⟨r, rfl, hrest, hr⟩ := hat
    cases hstep
    refine ⟨finished, _, h.sendResult hrest.symm ⟨_, rfl, (rest_answer hrest.symm).symm, hr.1, ?_⟩⟩
    rw [answers_answer hrest.symm, forall_mem_append, forall_mem_singleton]
    exact ⟨hr.2, rfl⟩
  next htask =>
    rw [htask] at hat
    obtain ⟨r, rfl, hrest, rfl, hr, -⟩ := hat
    cases hstep
    exact ⟨_, _, h.finish hrest.symm (.inr hr)⟩
  next version cur call rest htask =>
    rw [htask] at hat
    obtain ⟨r, rfl, hrest, rfl, hr, hcur⟩ := hat
    obtain ⟨cur', hres, hcur'⟩ := reserveWithdraw_ok
      (s.getAccountBalance r.batch.accumulatorVersion) cur call.1
    rw [hres] at hstep
    cases hstep
    refine ⟨finished, _, h.sendResult hrest.symm ⟨_, rfl, (rest_answer hrest.symm).symm,
      rfl, ⟨hr.1, ?_⟩, reservedOn_answer hrest.symm hcur hcur'⟩⟩
    rw [answers_answer hrest.symm, hcur]
    exact hr.2.concat rfl

end Answered

theorem Opened.scheduleWithdraws (h : s.Opened) (version : ℕ)
    (withdraws : List TxBalanceWithdraw) : (s.scheduleWithdraws version withdraws).Opened where
  senders := by
    simp only [BalanceWithdrawScheduler.scheduleWithdraws, flatMap_append, h.senders,
      flatMap_singleton, WithdrawReservations.new]
    have happ := List.range'_append_1 (s := 0) (m := s.channels) (n := withdraws.length)
    rw [Nat.zero_add] at happ
    rw [range_eq_range', range_eq_range', happ]
  lengths := by
    refine forall_mem_append.2 ⟨h.lengths, ?_⟩
    simp [WithdrawReservations.new]

/-- Everything that holds in every state. -/
structure Inv (s : BalanceWithdrawScheduler) : Prop where
  settles : s.Settles
  opened : s.Opened
  answered : ∃ finished current, s.Answered finished current

theorem Inv.new : (new accounts starting).Inv where
  settles := .new
  opened := ⟨rfl, by simp [BalanceWithdrawScheduler.new]⟩
  answered := ⟨[], none, rfl, rfl, by simp, by simp, rfl⟩

theorem Inv.step (h : s.Inv) (hann : s.Announced a) (hs : s.step a = .ok s') : s'.Inv := by
  obtain ⟨finished, current, ha⟩ := h.answered
  cases a with
  | scheduleWithdraws version withdraws =>
    cases hs
    exact ⟨{ h.settles with }, h.opened.scheduleWithdraws version withdraws, _, _,
      ha.scheduleWithdraws version withdraws⟩
  | settleBalances stl =>
    cases hs
    exact ⟨h.settles.settleBalances stl, { h.opened with }, _, _,
      ha.mono rfl rfl rfl rfl le_rfl (.inl rfl) fun _ _ => rfl⟩
  | writeAccount acc version balance =>
    cases hs
    exact ⟨{ h.settles with }, { h.opened with }, _, _,
      ha.mono rfl rfl rfl rfl le_rfl (.inl rfl) fun _ hv =>
        getAccountBalance_writeAccount h.settles hann hv⟩
  | withdrawTask =>
    have ha' := ha.processWithdrawTask hs
    obtain ⟨_, _, _, rfl⟩ := processWithdrawTask_frame hs
    exact ⟨{ h.settles with }, { h.opened with }, ha'⟩
  | settlementTask =>
    have hse := h.settles.processSettlementTask hs
    rcases processSettlementTask_cases hs with ⟨_, _, _, _, rfl⟩ | ⟨stl, _, hget, rfl⟩ | ⟨_, _, rfl⟩
    · exact ⟨hse, { h.opened with }, _, _, ha.mono rfl rfl rfl rfl le_rfl (.inl rfl) fun _ _ => rfl⟩
    · refine ⟨hse, { h.opened with }, _, _,
        ha.mono rfl rfl rfl rfl ?_ (.inr (Nat.lt_succ_self _)) fun _ _ => rfl⟩
      have hve := (h.settles.pending _ _ hget).1
      have hexp := h.settles.expected_eq
      change _ ≤ stl.accumulatorVersion
      omega
    · exact ⟨hse, { h.opened with }, _, _, ha.mono rfl rfl rfl rfl le_rfl (.inl rfl) fun _ _ => rfl⟩

theorem inv_of_reach (h : machine.Reach Announced s) : s.Inv := by
  refine h.invariant ?_ fun s a s' hs hann hst => hs.step hann hst
  rintro s ⟨accounts, starting, rfl⟩
  exact .new

/-! ## One result for each withdraw -/

/-- The result that was sent on a channel. -/
def resultOf (s : BalanceWithdrawScheduler) (sender : ℕ) : Option ScheduleResult :=
  (s.results.find? fun r => r.1 = sender).map Prod.snd

/-- The withdraws of a batch that have got a result. -/
def answersOf (s : BalanceWithdrawScheduler) (b : WithdrawReservations) :
    List (TxBalanceWithdraw × ScheduleStatus) :=
  b.calls.filterMap fun c => (s.resultOf c.2).map fun result => (c.1, result.status)

/-- Every channel that was made has got its result, or waits for it. -/
theorem Answered.channels_eq (h : s.Answered finished current) (ho : s.Opened) :
    s.results.map Prod.fst ++ ((current.toList.flatMap Report.rest).map Prod.snd ++
      s.withdraws.flatMap WithdrawReservations.senders) = List.range s.channels := by
  have hl : ∀ r ∈ finished ++ current.toList,
      r.batch.senders.length = r.batch.withdraws.length := fun r hr => by
    refine ho.lengths _ ?_
    rw [h.scheduled_eq]
    exact mem_append_left _ (mem_map_of_mem hr)
  have hfin : finished.flatMap (fun r => r.batch.senders) =
      finished.flatMap fun r => r.results.map Prod.fst := by
    refine flatMap_congr fun r hr => ?_
    rw [Report.senders_eq (hl r (mem_append_left _ hr)), h.complete r hr, map_nil, append_nil]
  have hc : current.toList.flatMap (fun r => r.batch.senders) =
      (current.toList.flatMap fun r => r.results.map Prod.fst) ++
        current.toList.flatMap fun r => r.rest.map Prod.snd := by
    cases current with
    | none => rfl
    | some r =>
      simp only [Option.toList_some, flatMap_singleton]
      exact Report.senders_eq (hl r (mem_append_right _ (mem_singleton.2 rfl)))
  rw [← ho.senders, h.scheduled_eq, h.results_eq]
  simp only [flatMap_append, map_append, flatMap_map, map_flatMap, hfin, hc, append_assoc]

section Channels

theorem Answered.nodup (h : s.Answered finished current) (ho : s.Opened) :
    (s.results.map Prod.fst).Nodup :=
  (nodup_append.1 (h.channels_eq ho ▸ nodup_range)).1

theorem resultOf_eq_some (hn : (s.results.map Prod.fst).Nodup) {sender : ℕ}
    {result : ScheduleResult} (h : (sender, result) ∈ s.results) :
    s.resultOf sender = some result := by
  rw [resultOf, (find?_key hn).2 ⟨h, rfl⟩]
  rfl

theorem Answered.resultOf_eq_none {sender : ℕ} (h : s.Answered finished current) (ho : s.Opened)
    (hw : sender ∈ (current.toList.flatMap Report.rest).map Prod.snd ++
      s.withdraws.flatMap WithdrawReservations.senders) : s.resultOf sender = none := by
  have happ := nodup_append.1 (h.channels_eq ho ▸ nodup_range)
  rw [resultOf, find?_key_none.2 fun hmem => happ.2.2 _ hmem sender hw rfl]
  rfl

theorem Answered.answersOf_report (h : s.Answered finished current) (ho : s.Opened)
    {r : Report} (hr : r ∈ finished ++ current.toList) : s.answersOf r.batch = r.answers := by
  have hn := h.nodup ho
  refine Report.filterMap_calls (fun p hp => ?_) fun c hc => ?_
  · have hmem : (p.1.2, (⟨p.1.1.txDigest, p.2⟩ : ScheduleResult)) ∈ s.results := by
      rw [h.results_eq]
      exact mem_flatMap.2 ⟨r, hr, mem_map.2 ⟨p, hp, rfl⟩⟩
    rw [resultOf_eq_some hn hmem]
    rfl
  · have hcu : r ∈ current.toList := by
      rcases mem_append.1 hr with hr | hr
      · rw [h.complete r hr] at hc
        cases hc
      · exact hr
    rw [h.resultOf_eq_none ho (mem_append_left _ (mem_map_of_mem (mem_flatMap.2 ⟨r, hcu, hc⟩)))]
    rfl

variable {b : WithdrawReservations}

/-- A batch that is in the channel has got no result. -/
theorem Answered.answersOf_queued (h : s.Answered finished current) (ho : s.Opened)
    (hb : b ∈ s.withdraws) : s.answersOf b = [] := by
  refine filterMap_eq_nil_iff.2 fun c hc => ?_
  have hmem := mem_flatMap.2 ⟨b, hb, (of_mem_zip hc).2⟩
  rw [h.resultOf_eq_none ho (mem_append_right _ hmem)]
  rfl

theorem Answered.current_sound (h : s.Answered finished current) {r : Report}
    (hr : r ∈ current.toList) : s.Rejected r ∨ s.Tested r ∨ r.answers = [] := by
  have hat := h.current
  rw [Option.mem_toList] at hr
  have hnil : ∀ b : WithdrawReservations, current = some ⟨b, []⟩ → r.answers = [] := by
    rintro b rfl
    cases hr
    simp [Report.answers]
  cases hc : s.withdrawTask <;> rw [hc] at hat
  case receiving =>
    rw [show current = none from hat] at hr
    cases hr
  case checking => exact .inr (.inr (hnil _ hat))
  case waiting => exact .inr (.inr (hnil _ hat.1))
  case comparing => exact .inr (.inr (hnil _ hat.1))
  case rejecting =>
    obtain ⟨r', rfl, -, hr'⟩ := hat
    cases hr
    exact .inl hr'
  case reserving =>
    obtain ⟨r', rfl, -, rfl, hr', -⟩ := hat
    cases hr
    exact .inr (.inl hr')

/-- **What the results of a batch are.** Either the batch was too late, and no withdraw of it was
tested, or its withdraws were tested against the balances at its version. -/
theorem Inv.answersOf_cases (h : s.Inv) (hb : b ∈ s.scheduled) :
    (b.accumulatorVersion < s.lastSettledVersion.value ∧
      ∀ p ∈ s.answersOf b, p.2 = .alreadyExecuted) ∨
    Decided (s.getAccountBalance b.accumulatorVersion) (s.answersOf b) := by
  obtain ⟨finished, current, ha⟩ := h.answered
  have hmem := hb
  rw [ha.scheduled_eq] at hmem
  rcases mem_append.1 hmem with hmem | hmem
  · obtain ⟨r, hr, rfl⟩ := mem_map.1 hmem
    rw [ha.answersOf_report h.opened hr]
    rcases mem_append.1 hr with hr | hr
    · exact (ha.sound r hr).imp_right And.right
    · rcases ha.current_sound hr with hr | hr | hr
      · exact .inl hr
      · exact .inr hr.2
      · exact .inr (hr ▸ .nil)
  · rw [ha.answersOf_queued h.opened hmem]
    exact .inr .nil

end Channels

/-! ## The tasks come to rest -/

/-- Neither task can go on before something is sent to it. -/
def Resting (s : BalanceWithdrawScheduler) : Prop :=
  s.processWithdrawTask = .error .pending ∧ s.processSettlementTask = .error .pending

/-- A bound for the steps that the withdraw task has to take for the current batch. -/
def taskWork (s : BalanceWithdrawScheduler) : ℕ :=
  match s.withdrawTask with
  | .receiving => 0
  | .checking withdraws => withdraws.calls.length + 4
  | .waiting withdraws seen =>
    -- a version that was not seen wakes the task, and it checks again
    withdraws.calls.length + (if s.lastSettledVersion.version = seen then 3 else 5)
  | .comparing withdraws => withdraws.calls.length + 2
  | .rejecting rest => rest.length + 1
  | .reserving _ _ rest => rest.length + 1

/-- A bound for the steps that the two tasks can take. -/
def work (s : BalanceWithdrawScheduler) : ℕ :=
  (s.withdraws.map fun b => b.calls.length + 5).sum + s.taskWork + 5 * s.settlements.length +
    3 * s.pendingSettlements.entries.length + (if s.draining then 1 else 0)

theorem work_processWithdrawTask (h : s.processWithdrawTask = .ok s') : s'.work < s.work := by
  unfold processWithdrawTask at h
  split at h
  next ht =>
    split at h
    next => cases h
    next event rest hq =>
      cases h
      simp only [work, taskWork, hq, map_cons, sum_cons]
      omega
  next ht =>
    split at h <;> cases h
    · simp only [work, taskWork, ht, if_true]
      omega
    · simp only [work, taskWork, ht]
      omega
  next ht =>
    split at h
    next => cases h
    next hs =>
      cases h
      simp only [work, taskWork, ht, if_neg hs]
      omega
  next ht =>
    split at h <;> cases h <;>
    · simp only [work, taskWork, ht]
      omega
  next ht =>
    cases h
    simp only [work, taskWork, ht]
    omega
  next ht =>
    cases h
    simp only [work, taskWork, sendResult, ht, length_cons]
    omega
  next ht =>
    cases h
    simp only [work, taskWork, ht]
    omega
  next ht =>
    obtain ⟨⟨cur, status⟩, -, h⟩ := bind_ok.1 h
    cases h
    simp only [work, taskWork, sendResult, ht, length_cons]
    omega

theorem taskWork_settled (version : ℕ) (pending : OrdMap ℕ BalanceSettlement) (expected : ℕ)
    (settled : List ℕ) :
    taskWork { s with
      pendingSettlements := pending, expectedVersion := expected, settled := settled,
      lastSettledVersion := s.lastSettledVersion.send version } ≤ s.taskWork + 2 := by
  unfold taskWork
  cases s.withdrawTask <;> dsimp only <;> try omega
  split <;> split <;> omega

theorem work_processSettlementTask (h : s.processSettlementTask = .ok s') : s'.work < s.work := by
  rcases processSettlementTask_cases h with ⟨stl, rest, hd, hq, rfl⟩ |
    ⟨stl, hd, hget, rfl⟩ | ⟨hd, -, rfl⟩
  · have hlen := length_insert_le (m := s.pendingSettlements) (k := stl.accumulatorVersion)
      (v := stl)
    simp only [work, taskWork, hq, length_cons, if_true]
    omega
  · have hlen := length_erase (mem_iff.2 ⟨_, hget⟩)
    have ht := taskWork_settled (s := s) stl.accumulatorVersion
      (s.pendingSettlements.erase s.expectedVersion) (stl.accumulatorVersion + 1)
      (s.settled ++ [stl.accumulatorVersion])
    simp only [work]
    omega
  · simp only [work, taskWork, hd, if_true, Bool.false_eq_true, if_false]
    omega

/-- A settlement task at rest has let everything take effect that came without a gap. -/
theorem Settles.le_of_resting (h : s.Settles) (hr : s.Resting)
    (hdel : ∀ u, s.start < u → u ≤ v → u ∈ s.delivered) : v ≤ s.lastSettledVersion.value := by
  obtain ⟨-, hdrain, hnil⟩ := processSettlementTask_error hr.2
  by_contra hl
  -- the next version has come, and it is neither buffered nor in the channel
  have hst := h.value_eq
  rcases h.kept _ (hdel (s.lastSettledVersion.value + 1) (by omega) (by omega)) with
    hle | hp | ⟨x, hx, -⟩
  · omega
  · exact h.drained hdrain (h.expected_eq ▸ hp)
  · rw [hnil] at hx
    cases hx

/-- The withdraw task rests before a batch that is not settled, or when there is no batch. -/
theorem Answered.of_resting (h : s.Answered finished current)
    (hr : s.processWithdrawTask = .error .pending) :
    (current = none ∧ s.withdraws = []) ∨
    ∃ b, current = some ⟨b, []⟩ ∧ s.lastSettledVersion.value < b.accumulatorVersion := by
  have hat := h.current
  obtain ⟨-, ⟨ht, hnil⟩ | ⟨withdraws, ht⟩⟩ := processWithdrawTask_error hr
  · rw [ht] at hat
    exact .inl ⟨hat, hnil⟩
  · rw [ht] at hat
    exact .inr ⟨withdraws, hat.1, hat.2.2 rfl⟩

/-- **Every withdraw of a settled batch gets its result.** -/
theorem Inv.result_of_resting (h : s.Inv) (hrest : s.Resting)
    {earlier later : List WithdrawReservations} {b : WithdrawReservations}
    (hb : s.scheduled = earlier ++ b :: later)
    (hdel : ∀ b' ∈ earlier ++ [b], ∀ v, s.start < v → v ≤ b'.accumulatorVersion →
      v ∈ s.delivered) : ∀ c ∈ b.calls, c.2 ∈ s.results.map Prod.fst := by
  obtain ⟨finished, current, hansw⟩ := h.answered
  have hfin : ∃ r ∈ finished, r.batch = b := by
    have hsched := hansw.scheduled_eq
    rcases hansw.of_resting hrest.1 with ⟨rfl, hnil⟩ | ⟨b', rfl, hlate⟩
    · have hmem : b ∈ s.scheduled := hb ▸ mem_append_right _ mem_cons_self
      rw [hsched, hnil] at hmem
      simpa using hmem
    · -- the task waits for the version of `b'`, so `b'` is not among the settled batches
      have hnot : b' ∉ earlier ++ [b] := fun hmem =>
        absurd (h.settles.le_of_resting hrest (hdel b' hmem)) (not_le.2 hlate)
      have hsplit : (earlier ++ [b]) ++ later = finished.map Report.batch ++ b' :: s.withdraws := by
        rw [← append_cons, ← hb, hsched]
        simp
      rcases split_append hsplit with ⟨_, hpost⟩ | ⟨_, hpre, -⟩
      · exact absurd (by rw [hpost]; simp) hnot
      · have hmem : b ∈ finished.map Report.batch := by
          rw [hpre]
          simp
        simpa using hmem
  obtain ⟨r, hr, rfl⟩ := hfin
  intro c hc
  have hsplit := map_fst_zip_append_drop r.batch.calls r.statuses
  have hcompl : r.batch.calls.drop r.statuses.length = [] := hansw.complete r hr
  rw [hcompl, append_nil] at hsplit
  rw [← hsplit] at hc
  obtain ⟨p, hp, rfl⟩ := mem_map.1 hc
  rw [hansw.results_eq]
  refine mem_map.2 ⟨(p.1.2, ⟨p.1.1.txDigest, p.2⟩), ?_, rfl⟩
  exact mem_flatMap.2 ⟨r, mem_append_left _ hr, mem_map.2 ⟨p, hp, rfl⟩⟩

theorem step_ne_panic (h : s.step a = .error e) : e = .pending := by
  cases a with
  | scheduleWithdraws | settleBalances | writeAccount => cases h
  | withdrawTask => exact (processWithdrawTask_error h).1
  | settlementTask => exact (processSettlementTask_error h).1

/-! ## The scheduler -/

/-- What the results that were sent say. -/
structure Correct (s : BalanceWithdrawScheduler) : Prop where
  /-- Settlements take effect in consecutive order. -/
  consecutive : s.settled = List.range' (s.start + 1) s.settled.length
  /-- Each withdraw of a batch has a channel of its own. -/
  channel : (s.scheduled.flatMap WithdrawReservations.senders).Nodup ∧
    ∀ b ∈ s.scheduled, b.calls.map Prod.fst = b.withdraws
  /-- No withdraw gets two results. -/
  once : ∀ b ∈ s.scheduled, ∀ c ∈ b.calls, (s.results.map Prod.fst).count c.2 ≤ 1
  /-- The successful reservations of a batch are covered by the balance at its version. -/
  covered : ∀ b ∈ s.scheduled, ∀ account,
    grantedSum (s.getAccountBalance b.accumulatorVersion account)
      (reservedOn account (s.answersOf b)) ≤ s.getAccountBalance b.accumulatorVersion account
  /-- A batch was too late, or its withdraws were tested against what the successful ones left. -/
  decided : ∀ b ∈ s.scheduled, (∀ p ∈ s.answersOf b, p.2 = .alreadyExecuted) ∨
    Decided (s.getAccountBalance b.accumulatorVersion) (s.answersOf b)
  /-- Too late is what comes after a later version has been settled. -/
  late : ∀ b ∈ s.scheduled, ∀ p ∈ s.answersOf b, p.2 = .alreadyExecuted →
    ∃ v ∈ s.start :: s.settled, b.accumulatorVersion < v

theorem Inv.correct (h : s.Inv) : s.Correct where
  consecutive := h.settles.settled_eq
  channel := ⟨h.opened.senders ▸ nodup_range, fun b hb =>
    map_fst_zip (h.opened.lengths b hb).ge⟩
  once b _ c _ := by
    obtain ⟨finished, current, ha⟩ := h.answered
    exact nodup_iff_count_le_one.1 (ha.nodup h.opened) c.2
  covered b hb account := by
    rcases h.answersOf_cases hb with ⟨-, hl⟩ | hdec
    · have hn : reservedOn account (s.answersOf b) = [] := by
        unfold reservedOn
        rw [filter_eq_nil_iff.2 fun p hp => by simp [hl p hp], filterMap_nil]
      rw [hn]
      exact Nat.zero_le _
    · have hsum := hdec.granted_add_left account
      omega
  decided b hb := (h.answersOf_cases hb).imp_left And.right
  late b hb p hp he := by
    rcases h.answersOf_cases hb with ⟨hl, -⟩ | hdec
    · -- the value of the watch channel is the start, or the version settled last
      refine ⟨s.lastSettledVersion.value, ?_, hl⟩
      rw [mem_cons, h.settles.mem_settled, h.settles.value_eq]
      omega
    · exact absurd he (hdec.ne_alreadyExecuted hp)

/-- **Balance withdraws are scheduled.** In every run the results are correct and no task panics.
The two tasks cannot go on for ever without new input, and when they rest, every withdraw of a
batch has got exactly one result, if the settlements up to its version have come, and up to those of
the batches before it. -/
theorem withdraws_scheduled (h : machine.Reach Announced s) : s.Correct ∧
    (∀ a e, machine.step s a = .error e → e = .pending) ∧
    (∃ bound, ∀ as s', (∀ a ∈ as, a = .withdrawTask ∨ a = .settlementTask) →
      machine.run s as = .ok s' → as.length ≤ bound) ∧
    (s.Resting → ∀ earlier b later, s.scheduled = earlier ++ b :: later →
      (∀ b' ∈ earlier ++ [b], ∀ v, s.start < v → v ≤ b'.accumulatorVersion → v ∈ s.delivered) →
      ∀ c ∈ b.calls, (s.results.map Prod.fst).count c.2 = 1) := by
  have hinv := inv_of_reach h
  refine ⟨hinv.correct, fun a e => step_ne_panic, ⟨s.work, fun as s' has hrun => ?_⟩,
    fun hr earlier b later hb hdel c hc => ?_⟩
  · have hle := run_length_le (fun s s' a ha hs => by
      rcases has a ha with rfl | rfl
      · exact work_processWithdrawTask hs
      · exact work_processSettlementTask hs) hrun
    omega
  · obtain ⟨finished, current, han⟩ := hinv.answered
    exact count_eq_one_of_mem (han.nodup hinv.opened)
      (hinv.result_of_resting hr hb hdel c hc)

end BalanceWithdrawScheduler

namespace WithdrawSample

open SchedulerAction

def withdraw (digest : TransactionDigest) (reservation : Reservation) : TxBalanceWithdraw :=
  ⟨digest, OrdMap.empty.insert 1 reservation⟩

/-- A batch waits for version 1, while version 2 is settled first. The account has 100 at version 0
and 80 at version 1. -/
def actions : List SchedulerAction :=
  [writeAccount 1 1 80,
    scheduleWithdraws 1 [withdraw 7 (.maxAmountU64 60), withdraw 8 (.maxAmountU64 30),
      withdraw 9 .entireBalance],
    settleBalances ⟨2⟩, settlementTask, settlementTask, withdrawTask, withdrawTask,
    settleBalances ⟨1⟩, settlementTask, settlementTask, withdrawTask, withdrawTask, withdrawTask,
    settlementTask, withdrawTask, withdrawTask, withdrawTask, withdrawTask, settlementTask]

end WithdrawSample

open BalanceWithdrawScheduler in
theorem withdraws_scheduled_sample : ∃ s, machine.Reach Announced s ∧ s.settled = [1, 2] ∧
    s.results = [(0, ⟨7, .sufficientBalance⟩), (1, ⟨8, .insufficientBalance⟩),
      (2, ⟨9, .sufficientBalance⟩)] ∧ s.Correct := by
  refine exists_assoc (exists_reach_and WithdrawSample.actions _
    (init_ok ⟨fun _ => OrdMap.empty.insert 0 100, 0, rfl⟩) (by decide +kernel)
    fun s hs _ => ?_)
  exact (withdraws_scheduled hs).1

end OneChain.Execution
