import OneChain.Authority.Transactions
import OneChain.Lib.Transition

/-!
# Scheduling of balance withdraws

`balance_withdraw_scheduler`: transactions reserve what they may withdraw from account balances. A
batch of them reads the balances at one version of the accumulator root object. Two tasks run
concurrently. The settlement task receives settlements in any order, buffers them, and sends their
versions on a watch channel in consecutive order; the withdraw task takes one batch after the other,
waits until its version is settled, and then tests each transaction against what the ones before it
have left.

The machine interleaves the two tasks at every await, send and read of the watch channel, and at
every transaction of a batch. In between the cache gets new versions of account objects and the
callers send new batches and settlements.

* `Decided` — what the tests of a batch come to: a transaction succeeds exactly if its reservations
  fit what the successful ones before it have left.
* `Decided.granted_add_left` — the successful reservations are covered by the balance.
* `reserveWithdraw_ok` — the two loops over the reservations of a transaction do one such test.
-/

namespace OneChain.Execution

open Lib Authority List OrdMap

/-! ## Reservations -/

inductive Reservation
  | entireBalance
  | maxAmountU64 (amount : ℕ)

namespace Reservation

/-- The test of a reservation against what is left of the balance. -/
def fits (balance : ℕ) : Reservation → Bool
  | maxAmountU64 amount => !decide (balance < amount)
  | entireBalance => !decide (balance = 0)

/-- What is left of the balance once the reservation is made. -/
def remaining (balance : ℕ) : Reservation → ℕ
  | maxAmountU64 amount => balance - amount
  | entireBalance => 0

/-- What the reservation gets: an amount, or all that is left. -/
def granted (balance : ℕ) : Reservation → ℕ
  | maxAmountU64 amount => amount
  | entireBalance => balance

theorem granted_add_remaining {balance : ℕ} {r : Reservation} (h : r.fits balance = true) :
    r.granted balance + r.remaining balance = balance := by
  cases r with
  | entireBalance => rfl
  | maxAmountU64 amount =>
    simp only [fits, Bool.not_eq_true', decide_eq_false_iff_not] at h
    simp only [granted, remaining]
    omega

end Reservation

inductive ScheduleStatus
  | sufficientBalance
  | insufficientBalance
  | alreadyExecuted
  deriving DecidableEq

structure ScheduleResult where
  txDigest : TransactionDigest
  status : ScheduleStatus
  deriving DecidableEq

structure TxBalanceWithdraw where
  txDigest : TransactionDigest
  reservations : OrdMap ObjectID Reservation

/-- All reservations of the transaction fit what is left of the balances. -/
def TxBalanceWithdraw.Fits (left : ObjectID → ℕ) (w : TxBalanceWithdraw) : Prop :=
  ∀ e ∈ w.reservations.entries, e.2.fits (left e.1) = true
  deriving Decidable

/-! ## What the answers of a batch say -/

/-- What reservations made one after the other leave of a balance. -/
def leftAfter (balance : ℕ) (rs : List Reservation) : ℕ := rs.foldl Reservation.remaining balance

/-- What reservations made one after the other get of a balance. -/
def grantedSum (balance : ℕ) : List Reservation → ℕ
  | [] => 0
  | r :: rest => r.granted balance + grantedSum (r.remaining balance) rest

/-- The successful reservations on an account. -/
def reservedOn (account : ObjectID) (answers : List (TxBalanceWithdraw × ScheduleStatus)) :
    List Reservation :=
  (answers.filter fun p => p.2 = .sufficientBalance).filterMap fun p =>
    p.1.reservations.get? account

/-- **What a batch comes to.** A transaction succeeds exactly if its reservations fit what the
successful transactions before it have left; the failed ones have reserved nothing. -/
def Decided (balances : ObjectID → ℕ) (answers : List (TxBalanceWithdraw × ScheduleStatus)) :
    Prop :=
  ∀ before w status after, answers = before ++ (w, status) :: after →
    status = if w.Fits fun a => leftAfter (balances a) (reservedOn a before)
      then .sufficientBalance else .insufficientBalance

theorem leftAfter_concat (balance : ℕ) (rs : List Reservation) (r : Reservation) :
    leftAfter balance (rs ++ [r]) = r.remaining (leftAfter balance rs) := by
  simp [leftAfter]

theorem grantedSum_concat (balance : ℕ) (rs : List Reservation) (r : Reservation) :
    grantedSum balance (rs ++ [r]) = grantedSum balance rs + r.granted (leftAfter balance rs) := by
  induction rs generalizing balance with
  | nil => simp [grantedSum, leftAfter]
  | cons s rs ih =>
    simp only [cons_append, grantedSum, ih, leftAfter, foldl_cons]
    omega

section Answers

variable {account : ObjectID} {balances : ObjectID → ℕ} {w : TxBalanceWithdraw}
  {status : ScheduleStatus} {answers : List (TxBalanceWithdraw × ScheduleStatus)}

theorem reservedOn_concat_success : reservedOn account (answers ++ [(w, .sufficientBalance)]) =
    reservedOn account answers ++ (w.reservations.get? account).toList := by
  cases h : w.reservations.get? account <;> simp [reservedOn, h]

theorem reservedOn_concat_failure (h : status ≠ .sufficientBalance) :
    reservedOn account (answers ++ [(w, status)]) = reservedOn account answers := by
  simp [reservedOn, h]

theorem Decided.nil : Decided balances [] := by
  intro before w status after h
  simp at h

theorem Decided.concat (h : Decided balances answers)
    (hs : status = if w.Fits fun a => leftAfter (balances a) (reservedOn a answers)
      then .sufficientBalance else .insufficientBalance) :
    Decided balances (answers ++ [(w, status)]) := by
  intro before w' status' after heq
  rcases after.eq_nil_or_concat with rfl | ⟨after, last, rfl⟩
  · obtain ⟨rfl, hl⟩ := append_inj' heq rfl
    cases hl
    exact hs
  · rw [concat_eq_append, ← cons_append, ← append_assoc] at heq
    exact h before w' status' after (append_inj' heq rfl).1

theorem Decided.of_concat (h : Decided balances (answers ++ [(w, status)])) :
    Decided balances answers ∧
      status = if w.Fits fun a => leftAfter (balances a) (reservedOn a answers)
        then .sufficientBalance else .insufficientBalance := by
  refine ⟨fun before w' status' after heq => ?_, h answers w status [] rfl⟩
  refine h before w' status' (after ++ [(w, status)]) ?_
  rw [heq, append_assoc, cons_append]

/-- **The successful reservations of a batch are covered by the balance.** -/
theorem Decided.granted_add_left (h : Decided balances answers) (account : ObjectID) :
    grantedSum (balances account) (reservedOn account answers) +
      leftAfter (balances account) (reservedOn account answers) = balances account := by
  induction answers using List.reverseRecOn with
  | nil => simp [reservedOn, grantedSum, leftAfter]
  | append_singleton answers p ih =>
    obtain ⟨w, status⟩ := p
    obtain ⟨hbef, hs⟩ := h.of_concat
    have ih := ih hbef
    by_cases hsu : status = .sufficientBalance
    · subst hsu
      rw [reservedOn_concat_success]
      have hf : w.Fits fun a => leftAfter (balances a) (reservedOn a answers) := by
        by_contra hnot
        rw [if_neg hnot] at hs
        cases hs
      cases hget : w.reservations.get? account with
      | none => simpa using ih
      | some r =>
        have he := mem_entries.2 hget
        have hr := Reservation.granted_add_remaining (hf (account, r) he)
        dsimp only at hr
        simp only [Option.toList_some, grantedSum_concat, leftAfter_concat]
        omega
    · rw [reservedOn_concat_failure hsu]
      exact ih

theorem Decided.ne_alreadyExecuted (h : Decided balances answers)
    {p : TxBalanceWithdraw × ScheduleStatus} (hp : p ∈ answers) : p.2 ≠ .alreadyExecuted := by
  obtain ⟨before, after, heq⟩ := append_of_mem hp
  rw [h before p.1 p.2 after heq]
  split <;> decide

end Answers

/-! ## One transaction -/

inductive SchedulerPanic
  | unwrapNone
  | underflow
  -- the task cannot go on now
  | pending
  deriving DecidableEq

/-- What is left of a balance; it is read if it has not been yet. -/
def curBalance (getAccountBalance : ObjectID → ℕ) (curBalances : OrdMap ObjectID ℕ)
    (objectId : ObjectID) : ℕ :=
  (curBalances.get? objectId).getD (getAccountBalance objectId)

/-- The first loop over the reservations: it reads the balances it has not seen, and stops at the
first reservation that does not fit. -/
def checkReservations (getAccountBalance : ObjectID → ℕ) :
    List (ObjectID × Reservation) → OrdMap ObjectID ℕ → Bool × OrdMap ObjectID ℕ
  | [], curBalances => (true, curBalances)
  | (objectId, reservation) :: rest, curBalances =>
    let entry := curBalance getAccountBalance curBalances objectId
    let curBalances := curBalances.insert objectId entry
    if reservation.fits entry then checkReservations getAccountBalance rest curBalances
    else (false, curBalances)

/-- The second loop: the reservations are made. -/
def takeReservation (curBalances : OrdMap ObjectID ℕ) (e : ObjectID × Reservation) :
    Except SchedulerPanic (OrdMap ObjectID ℕ) := do
  let balance ← require (curBalances.get? e.1) .unwrapNone
  match e.2 with
  | .maxAmountU64 amount =>
    check (amount ≤ balance) .underflow
    pure (curBalances.insert e.1 (balance - amount))
  | .entireBalance => pure (curBalances.insert e.1 0)

def reserveWithdraw (getAccountBalance : ObjectID → ℕ) (curBalances : OrdMap ObjectID ℕ)
    (withdraw : TxBalanceWithdraw) :
    Except SchedulerPanic (OrdMap ObjectID ℕ × ScheduleStatus) :=
  let checked := checkReservations getAccountBalance withdraw.reservations.entries curBalances
  if checked.1 then do
    let curBalances ← withdraw.reservations.entries.foldlM takeReservation checked.2
    pure (curBalances, .sufficientBalance)
  else pure (checked.2, .insufficientBalance)

section Reserve

variable (read : ObjectID → ℕ) (cur : OrdMap ObjectID ℕ) {account : ObjectID}
  (entries : List (ObjectID × Reservation))

theorem curBalance_empty : curBalance read .empty = read := rfl

theorem curBalance_insert {objectId : ObjectID} {balance : ℕ} :
    curBalance read (cur.insert objectId balance) account =
      if account = objectId then balance else curBalance read cur account := by
  unfold curBalance
  rw [get?_insert]
  split <;> rfl

theorem curBalance_insert_self {objectId : ObjectID} :
    curBalance read (cur.insert objectId (curBalance read cur objectId)) account =
      curBalance read cur account := by
  rw [curBalance_insert]
  split
  next h => rw [h]
  next => rfl

/-- The first loop changes no balance, and has read all balances if it finds them sufficient. -/
theorem checkReservations_spec : ((checkReservations read entries cur).1 = true ↔
      ∀ e ∈ entries, e.2.fits (curBalance read cur e.1) = true) ∧
    (∀ account, curBalance read (checkReservations read entries cur).2 account =
      curBalance read cur account) ∧
    (∀ account ∈ cur, account ∈ (checkReservations read entries cur).2) ∧
    ((checkReservations read entries cur).1 = true →
      ∀ e ∈ entries, e.1 ∈ (checkReservations read entries cur).2) := by
  induction entries generalizing cur with
  | nil => simp [checkReservations]
  | cons e entries ih =>
    obtain ⟨objectId, r⟩ := e
    have hs : ∀ account, curBalance read (cur.insert objectId (curBalance read cur objectId))
        account = curBalance read cur account := fun _ => curBalance_insert_self _ _
    by_cases hr : r.fits (curBalance read cur objectId) = true
    · simp only [checkReservations, if_pos hr]
      obtain ⟨hiff, hk, hg, hre⟩ := ih (cur.insert objectId (curBalance read cur objectId))
      simp only [hs] at hiff hk
      refine ⟨?_, hk, fun a ha => hg a (mem_insert.2 (.inr ha)), fun h => ?_⟩
      · rw [hiff, forall_mem_cons]
        exact ⟨fun h => ⟨hr, h⟩, fun h => h.2⟩
      · exact forall_mem_cons.2 ⟨hg _ (mem_insert.2 (.inl rfl)), hre h⟩
    · simp only [checkReservations, if_neg hr]
      exact ⟨⟨nofun, fun h => absurd (h _ mem_cons_self) hr⟩, hs,
        fun a ha => mem_insert.2 (.inr ha), nofun⟩

/-- The second loop takes each reservation off its balance, if they fit. -/
theorem takeReservations_ok {cur : OrdMap ObjectID ℕ} {entries : List (ObjectID × Reservation)}
    (hnodup : (entries.map Prod.fst).Nodup) (hmem : ∀ e ∈ entries, e.1 ∈ cur)
    (hfits : ∀ e ∈ entries, e.2.fits (curBalance read cur e.1) = true) :
    ∃ cur', entries.foldlM takeReservation cur = .ok cur' ∧
      (∀ e ∈ entries, curBalance read cur' e.1 = e.2.remaining (curBalance read cur e.1)) ∧
      ∀ account, account ∉ entries.map Prod.fst →
        curBalance read cur' account = curBalance read cur account := by
  induction entries generalizing cur with
  | nil => exact ⟨cur, rfl, by simp, fun _ _ => rfl⟩
  | cons e entries ih =>
    obtain ⟨objectId, r⟩ := e
    rw [map_cons, nodup_cons] at hnodup
    obtain ⟨hr, hfits⟩ := forall_mem_cons.1 hfits
    obtain ⟨hhead, hmem⟩ := forall_mem_cons.1 hmem
    obtain ⟨balance, hbal⟩ := mem_iff.1 hhead
    have hcur : curBalance read cur objectId = balance := by
      unfold curBalance
      rw [hbal, Option.getD_some]
    rw [hcur] at hr
    have hstep : takeReservation cur (objectId, r) =
        .ok (cur.insert objectId (r.remaining balance)) := by
      unfold takeReservation
      rw [hbal]
      cases r with
      | entireBalance => rfl
      | maxAmountU64 amount =>
        have hle : amount ≤ balance := by
          simpa only [Reservation.fits, Bool.not_eq_true', decide_eq_false_iff_not, not_lt] using hr
        change (check (amount ≤ balance) SchedulerPanic.underflow >>= fun _ => _) = _
        rw [check_of hle]
        rfl
    have hother : ∀ e ∈ entries, e.1 ≠ objectId := fun e he heq =>
      hnodup.1 (mem_map.2 ⟨e, he, heq⟩)
    have hkeep : ∀ e ∈ entries, curBalance read (cur.insert objectId (r.remaining balance)) e.1 =
        curBalance read cur e.1 := fun e he => by
      rw [curBalance_insert, if_neg (hother e he)]
    obtain ⟨cur', hrun, htaken, hunt⟩ := ih hnodup.2 (fun e he => mem_insert.2 (.inr (hmem e he)))
      (fun e he => by rw [hkeep e he]; exact hfits e he)
    refine ⟨cur', ?_, ?_, fun account hacc => ?_⟩
    · rw [foldlM_cons, hstep]
      exact hrun
    · refine forall_mem_cons.2 ⟨?_, fun e he => ?_⟩
      · rw [hunt _ hnodup.1, curBalance_insert, if_pos rfl, hcur]
      · rw [htaken e he, hkeep e he]
    · rw [map_cons, mem_cons, not_or] at hacc
      rw [hunt _ hacc.2, curBalance_insert, if_neg hacc.1]

/-- **A transaction reserves all or nothing**, and never panics. -/
theorem reserveWithdraw_ok (w : TxBalanceWithdraw) :
    ∃ cur', reserveWithdraw read cur w = .ok (cur', if w.Fits (curBalance read cur)
        then .sufficientBalance else .insufficientBalance) ∧
      ∀ account, curBalance read cur' account =
        if w.Fits (curBalance read cur) then
          ((w.reservations.get? account).map fun r =>
            r.remaining (curBalance read cur account)).getD (curBalance read cur account)
        else curBalance read cur account := by
  obtain ⟨hiff, hk, -, hr⟩ := checkReservations_spec read cur w.reservations.entries
  unfold reserveWithdraw
  by_cases hf : w.Fits (curBalance read cur)
  · have hc := hiff.2 hf
    obtain ⟨cur', hrun, ht, hunt⟩ := takeReservations_ok read
      w.reservations.nodup_keys (hr hc) (fun e he => by rw [hk]; exact hf e he)
    simp only [if_pos hc, if_pos hf, hrun]
    refine ⟨cur', rfl, fun account => ?_⟩
    cases hget : w.reservations.get? account with
    | none =>
      have hnot : account ∉ w.reservations.entries.map Prod.fst := fun h =>
        notMem_iff.2 hget (OrdMap.mem_keys.1 h)
      rw [hunt account hnot, hk]
      rfl
    | some r =>
      have h := ht _ (mem_entries.2 hget)
      rw [hk] at h
      exact h
  · have hc : ¬ (checkReservations read w.reservations.entries cur).1 = true :=
      fun h => hf (hiff.1 h)
    simp only [if_neg hc, if_neg hf]
    exact ⟨_, rfl, hk⟩

end Reserve

/-! ## The two tasks -/

/-- A watch channel: its value, and how often a value was sent. -/
structure WatchChannel where
  (value version : ℕ)

def WatchChannel.send (c : WatchChannel) (value : ℕ) : WatchChannel := ⟨value, c.version + 1⟩

/-- A batch that reads one version, with the channels of its results. -/
structure WithdrawReservations where
  accumulatorVersion : ℕ
  withdraws : List TxBalanceWithdraw
  senders : List ℕ

namespace WithdrawReservations

/-- `channels` channels have been made before. -/
def new (channels : ℕ) (accumulatorVersion : ℕ) (withdraws : List TxBalanceWithdraw) :
    WithdrawReservations :=
  ⟨accumulatorVersion, withdraws, List.range' channels withdraws.length⟩

def calls (b : WithdrawReservations) : List (TxBalanceWithdraw × ℕ) := b.withdraws.zip b.senders

end WithdrawReservations

structure BalanceSettlement where
  accumulatorVersion : ℕ

/-- Where `process_withdraw_task` is. -/
inductive WithdrawTask
  | receiving
  -- before `borrow_and_update`
  | checking (withdraws : WithdrawReservations)
  -- in `changed`, after the version `seen` of the channel
  | waiting (withdraws : WithdrawReservations) (seen : ℕ)
  -- before the second `borrow`
  | comparing (withdraws : WithdrawReservations)
  | rejecting (rest : List (TxBalanceWithdraw × ℕ))
  | reserving (accumulatorVersion : ℕ) (curBalances : OrdMap ObjectID ℕ)
      (rest : List (TxBalanceWithdraw × ℕ))

structure BalanceWithdrawScheduler where
  /-- The versions of the account objects in the cache. -/
  accounts : ObjectID → OrdMap ℕ ℕ
  lastSettledVersion : WatchChannel
  withdraws : List WithdrawReservations
  settlements : List BalanceSettlement
  withdrawTask : WithdrawTask
  expectedVersion : ℕ
  pendingSettlements : OrdMap ℕ BalanceSettlement
  /-- In the inner loop of `process_settlement_task`. -/
  draining : Bool
  channels : ℕ
  -- what has happened: the batches, the settlements as they came, the versions as they took effect,
  -- and the results that were sent
  start : ℕ
  scheduled : List WithdrawReservations
  (delivered settled : List ℕ)
  results : List (ℕ × ScheduleResult)

inductive SchedulerAction
  | scheduleWithdraws (accumulatorVersion : ℕ) (withdraws : List TxBalanceWithdraw)
  | settleBalances (settlement : BalanceSettlement)
  -- a settlement transaction writes an account object
  | writeAccount (account : ObjectID) (version : ℕ) (balance : ℕ)
  | withdrawTask
  | settlementTask

namespace BalanceWithdrawScheduler

def new (accounts : ObjectID → OrdMap ℕ ℕ)
    (startingAccumulatorVersion : ℕ) : BalanceWithdrawScheduler where
  accounts := accounts
  lastSettledVersion := ⟨startingAccumulatorVersion, 0⟩
  withdraws := []
  settlements := []
  withdrawTask := .receiving
  expectedVersion := startingAccumulatorVersion + 1
  pendingSettlements := .empty
  draining := false
  channels := 0
  start := startingAccumulatorVersion
  scheduled := []
  delivered := []
  settled := []
  results := []

variable (s : BalanceWithdrawScheduler)

/-- The last version of the account object that is not later than the given one. -/
def getAccountBalance (accumulatorVersion : ℕ) (accountId : ObjectID) : ℕ :=
  (((s.accounts accountId).filter fun v _ => decide (v ≤ accumulatorVersion)).last?.map
    Prod.snd).getD 0

def scheduleWithdraws (accumulatorVersion : ℕ)
    (withdraws : List TxBalanceWithdraw) : BalanceWithdrawScheduler :=
  let reservations := WithdrawReservations.new s.channels accumulatorVersion withdraws
  { s with
    withdraws := s.withdraws ++ [reservations]
    channels := s.channels + withdraws.length
    scheduled := s.scheduled ++ [reservations] }

def settleBalances (settlement : BalanceSettlement) : BalanceWithdrawScheduler :=
  { s with
    settlements := s.settlements ++ [settlement]
    delivered := s.delivered ++ [settlement.accumulatorVersion] }

def writeAccount (account : ObjectID) (version : ℕ) (balance : ℕ) : BalanceWithdrawScheduler :=
  { s with
    accounts := Function.update s.accounts account ((s.accounts account).insert version balance) }

def sendResult (call : TxBalanceWithdraw × ℕ)
    (status : ScheduleStatus) : BalanceWithdrawScheduler :=
  { s with results := s.results ++ [(call.2, ⟨call.1.txDigest, status⟩)] }

/-- One step of `process_withdraw_task`, with `schedule_withdraws` of the naive scheduler. -/
def processWithdrawTask : Except SchedulerPanic BalanceWithdrawScheduler :=
  match s.withdrawTask with
  | .receiving =>
    match s.withdraws with
    | [] => .error .pending
    | event :: rest => .ok { s with withdraws := rest, withdrawTask := .checking event }
  | .checking withdraws =>
    if s.lastSettledVersion.value < withdraws.accumulatorVersion then
      .ok { s with withdrawTask := .waiting withdraws s.lastSettledVersion.version }
    else .ok { s with withdrawTask := .comparing withdraws }
  | .waiting withdraws seen =>
    if s.lastSettledVersion.version = seen then .error .pending
    else .ok { s with withdrawTask := .checking withdraws }
  | .comparing withdraws =>
    if s.lastSettledVersion.value > withdraws.accumulatorVersion then
      .ok { s with withdrawTask := .rejecting withdraws.calls }
    else
      .ok { s with
        withdrawTask := .reserving withdraws.accumulatorVersion .empty withdraws.calls }
  | .rejecting [] => .ok { s with withdrawTask := .receiving }
  | .rejecting (call :: rest) =>
    .ok { s.sendResult call .alreadyExecuted with withdrawTask := .rejecting rest }
  | .reserving _ _ [] => .ok { s with withdrawTask := .receiving }
  | .reserving version curBalances (call :: rest) => do
    let (curBalances, status) ← reserveWithdraw (s.getAccountBalance version) curBalances call.1
    pure { s.sendResult call status with withdrawTask := .reserving version curBalances rest }

/-- One step of `process_settlement_task`. -/
def processSettlementTask : Except SchedulerPanic BalanceWithdrawScheduler :=
  if s.draining then
    match s.pendingSettlements.get? s.expectedVersion with
    | some settlement =>
      .ok { s with
        pendingSettlements := s.pendingSettlements.erase s.expectedVersion
        expectedVersion := settlement.accumulatorVersion + 1
        lastSettledVersion := s.lastSettledVersion.send settlement.accumulatorVersion
        settled := s.settled ++ [settlement.accumulatorVersion] }
    | none => .ok { s with draining := false }
  else
    match s.settlements with
    | [] => .error .pending
    | settlement :: rest =>
      .ok { s with
        settlements := rest
        pendingSettlements := s.pendingSettlements.insert settlement.accumulatorVersion settlement
        draining := true }

def step : SchedulerAction → Except SchedulerPanic BalanceWithdrawScheduler
  | .scheduleWithdraws version withdraws => .ok (s.scheduleWithdraws version withdraws)
  | .settleBalances settlement => .ok (s.settleBalances settlement)
  | .writeAccount account version balance => .ok (s.writeAccount account version balance)
  | .withdrawTask => s.processWithdrawTask
  | .settlementTask => s.processSettlementTask

def machine : Machine BalanceWithdrawScheduler SchedulerAction SchedulerPanic where
  init s := ∃ accounts starting, s = new accounts starting
  step := step

/-- A settlement is announced when its objects are in the cache: an account object is not written
at a version that has been announced, or at one from before the start. -/
def Announced : SchedulerAction → Prop
  | .writeAccount _ version _ => s.start < version ∧ version ∉ s.delivered
  | _ => True

instance (s : BalanceWithdrawScheduler) (a : SchedulerAction) : Decidable (s.Announced a) :=
  match a with
  | .writeAccount _ version _ =>
    inferInstanceAs (Decidable (s.start < version ∧ version ∉ s.delivered))
  | .scheduleWithdraws _ _ => inferInstanceAs (Decidable True)
  | .settleBalances _ => inferInstanceAs (Decidable True)
  | .withdrawTask => inferInstanceAs (Decidable True)
  | .settlementTask => inferInstanceAs (Decidable True)

end BalanceWithdrawScheduler

end OneChain.Execution
