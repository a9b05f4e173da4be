import Mathlib.Data.List.Sort
import OneChain.Authority.Transactions
import OneChain.Lib.RefCount
import OneChain.Lib.Transition

/-!
# Locks on owned objects

`object_locks.rs`: before a transaction is signed, its owned inputs are locked. Locks are kept in
the epoch's database table; while a call is in progress they are also in a map in memory, which
makes test-and-set atomic. Calls of `acquire_transaction_locks` run concurrently. The machine here
interleaves them at the places where the code is atomic: one object is tested and set, all locks are
written in one batch, one object is released. A read or a write of the database may fail, and the
node may be restarted, which loses the map and the calls in progress.

An entry of the map counts how often it was asked for. An attempt that is refused raises the count
too, but is not released later.

* `locks_exclusive` — no object is ever recorded for two transactions, and a call returns `Ok` only
  if its objects are recorded for its transaction.
* `locks_released` — if no attempt meets the lock of another transaction, and no batch fails, the
  map is empty whenever no call is in progress.
* `object_stays_locked` — otherwise an object that was never recorded for anybody may stay locked.
-/

namespace OneChain.Authority

open Lib List OrdMap Machine

/-! ## Objects -/

structure ObjectRef where
  id : ObjectID
  (version digest : ℕ)

namespace ObjectRef

def key (o : ObjectRef) : ℕ ×ₗ ℕ ×ₗ ℕ := toLex (o.id, toLex (o.version, o.digest))

theorem key_injective : Function.Injective key := by
  rintro ⟨i, v, d⟩ ⟨i', v', d'⟩ h
  simpa [key] using h

instance : LinearOrder ObjectRef := LinearOrder.lift' key key_injective

end ObjectRef

/-- What of an object a reference to it has to match. -/
structure LiveObject where
  (version digest : ℕ)

inductive LockError
  | objectNotFound (id : ObjectID)
  | objectVersionUnavailableForConsumption (provided : ObjectRef) (currentVersion : ℕ)
  | invalidObjectDigest (id : ObjectID) (expectedDigest : ℕ)
  | objectLockConflict (objRef : ObjectRef) (pendingTransaction : TransactionDigest)
  -- the tables of the epoch are gone, or the store fails
  | storage
  deriving DecidableEq

inductive LockPanic
  | lockWasChanged
  -- not a step of a call in progress
  | noSuchCall
  deriving DecidableEq

/-! ## The map in memory -/

/-- `locked_transactions`, with reference counts. -/
abbrev LockedTransactions := OrdMap ObjectRef (ℕ × TransactionDigest)

namespace ObjectLocks

def checkLock (objRef : ObjectRef) (prevLock newLock : TransactionDigest) : Except LockError Unit :=
  check (prevLock = newLock) (.objectLockConflict objRef prevLock)

/-- `stored` is what reading the lock from the database gives; it is read if there is no entry. -/
def trySetTransactionLock (locked : LockedTransactions)
    (stored : Except LockError (Option TransactionDigest)) (objRef : ObjectRef)
    (newLock : TransactionDigest) : LockedTransactions × Except LockError Unit :=
  match locked.get? objRef with
  | none =>
    match stored with
    | .error e => (locked, .error e)
    | .ok lockDetails =>
      let prevLock := lockDetails.getD newLock
      (locked.insert objRef (1, prevLock), checkLock objRef prevLock newLock)
  | some (count, prevLock) =>
    (locked.insert objRef (count + 1, prevLock), checkLock objRef prevLock newLock)

/-- One round of `clear_cached_locks`; an entry that is missing is only reported. -/
def clearCachedLock (locked : LockedTransactions) (objRef : ObjectRef) (lock : TransactionDigest) :
    Except LockPanic LockedTransactions :=
  match locked.get? objRef with
  | none => pure locked
  | some (count, lock') =>
    if lock' = lock then
      if count - 1 = 0 then pure (locked.erase objRef)
      else pure (locked.insert objRef (count - 1, lock'))
    else .error .lockWasChanged

def verifyLiveObject (objRef : ObjectRef) (liveObject : LiveObject) : Except LockError Unit := do
  check (objRef.version = liveObject.version)
    (.objectVersionUnavailableForConsumption objRef liveObject.version)
  check (objRef.digest = liveObject.digest) (.invalidObjectDigest objRef.id liveObject.digest)

def multiGetObjectsMustExist (cache : ObjectID → Option LiveObject) (objectIds : List ObjectID) :
    Except LockError (List LiveObject) :=
  objectIds.mapM fun id => require (cache id) (.objectNotFound id)

/-- What comes before the first lock: only live objects can be locked, and they are in the order of
their ids. -/
def objectsToLock (cache : ObjectID → Option LiveObject) (ownedInputObjects : List ObjectRef) :
    Except LockError (List ObjectRef) := do
  let liveObjects ← multiGetObjectsMustExist cache (ownedInputObjects.map ObjectRef.id)
  (ownedInputObjects.zip liveObjects).forM fun e => verifyLiveObject e.1 e.2
  pure (ownedInputObjects.insertionSort fun a b => a.id ≤ b.id)

end ObjectLocks

/-! ## Calls in progress -/

/-- Where a call of `acquire_transaction_locks` is: it has locks to obtain and then to write, or
locks to release before it returns. -/
inductive LockPhase
  | locking (todo obtained : List ObjectRef)
  | releasing (todo : List ObjectRef) (result : Option LockError)

structure LockCall where
  txDigest : TransactionDigest
  ownedInputObjects : List ObjectRef
  phase : LockPhase

/-- A call that returned, with its error. -/
structure LockReturn where
  txDigest : TransactionDigest
  ownedInputObjects : List ObjectRef
  error : Option LockError
  deriving DecidableEq

structure LockNode where
  locked : LockedTransactions
  /-- `owned_object_locked_transactions` of the epoch. -/
  table : OrdMap ObjectRef TransactionDigest
  calls : OrdMap ℕ LockCall
  returned : List LockReturn
  /-- All that was ever written to the table. -/
  written : List (ObjectRef × TransactionDigest)
  /-- The counts that no call in progress is going to take back. -/
  unreleased : List ObjectRef

inductive LockAction
  | call (id : ℕ) (cache : ObjectID → Option LiveObject) (txDigest : TransactionDigest)
      (ownedInputObjects : List ObjectRef)
  -- the call goes on; `fault` if the database fails
  | advance (id : ℕ) (fault : Bool)
  | restart

namespace LockNode

def start : LockNode := ⟨.empty, .empty, .empty, [], [], []⟩

/-- The objects whose counts a refused attempt has raised. -/
def raisedBy : LockError → List ObjectRef
  | .objectLockConflict objRef _ => [objRef]
  | .objectNotFound _ | .objectVersionUnavailableForConsumption _ _ | .invalidObjectDigest _ _
  | .storage => []

variable (s : LockNode)

def setPhase (id : ℕ) (call : LockCall) (phase : LockPhase) : LockNode :=
  { s with calls := s.calls.insert id { call with phase := phase } }

def finish (id : ℕ) (call : LockCall) (error : Option LockError) : LockNode :=
  { s with
    calls := s.calls.erase id
    returned := s.returned ++ [⟨call.txDigest, call.ownedInputObjects, error⟩] }

def storedLock (fault : Bool) (objRef : ObjectRef) : Except LockError (Option TransactionDigest) :=
  if fault then .error .storage else .ok (s.table.get? objRef)

/-- The next atomic step of `acquire_transaction_locks`. -/
def advance (id : ℕ) (call : LockCall) (fault : Bool) : Except LockPanic LockNode :=
  match call.phase with
  | .locking (objRef :: todo) obtained =>
    match ObjectLocks.trySetTransactionLock s.locked (s.storedLock fault objRef) objRef
      call.txDigest with
    | (locked, .ok ()) =>
      pure ({ s with locked := locked }.setPhase id call (.locking todo (obtained ++ [objRef])))
    | (locked, .error e) =>
      pure ({ s with
          locked := locked
          unreleased := s.unreleased ++ raisedBy e }.setPhase id call
            (.releasing obtained (some e)))
  | .locking [] obtained =>
    -- a failed write returns at once
    if fault then
      pure ({ s with unreleased := s.unreleased ++ obtained }.finish id call (some .storage))
    else
      let locksToWrite := obtained.map fun objRef => (objRef, call.txDigest)
      pure ({ s with
          table := writeAll s.table locksToWrite
          written := s.written ++ locksToWrite }.setPhase id call (.releasing obtained none))
  | .releasing (objRef :: todo) error => do
    let locked ← ObjectLocks.clearCachedLock s.locked objRef call.txDigest
    pure ({ s with locked := locked }.setPhase id call (.releasing todo error))
  | .releasing [] error => pure (s.finish id call error)

def step : LockAction → Except LockPanic LockNode
  | .call id cache txDigest ownedInputObjects => do
    check (id ∉ s.calls) .noSuchCall
    match ObjectLocks.objectsToLock cache ownedInputObjects with
    | .ok todo =>
      pure { s with calls := s.calls.insert id ⟨txDigest, ownedInputObjects, .locking todo []⟩ }
    | .error e =>
      pure { s with returned := s.returned ++ [⟨txDigest, ownedInputObjects, some e⟩] }
  | .advance id fault => do
    let call ← require (s.calls.get? id) .noSuchCall
    s.advance id call fault
  | .restart => pure { s with locked := .empty, calls := .empty, unreleased := [] }

def machine : Machine LockNode LockAction LockPanic where
  init s := s = start
  step := step

end LockNode

/-! ## One test-and-set, one release -/

namespace ObjectLocks

variable {locked locked' : LockedTransactions} {o : ObjectRef} {d : TransactionDigest}

def lockCount (locked : LockedTransactions) (o : ObjectRef) : ℕ := (locked.get? o).elim 0 Prod.fst

theorem lockCount_insert (locked : LockedTransactions) (o o' : ObjectRef)
    (e : ℕ × TransactionDigest) :
    lockCount (locked.insert o e) o' = if o' = o then e.1 else lockCount locked o' := by
  unfold lockCount
  rw [get?_insert]
  split <;> rfl

theorem lockCount_erase (locked : LockedTransactions) (o o' : ObjectRef) :
    lockCount (locked.erase o) o' = if o' = o then 0 else lockCount locked o' := by
  unfold lockCount
  rw [get?_erase]
  split <;> rfl

/-- Releasing a lock that is there lowers its count, and leaves the others alone. -/
theorem clearCachedLock_eq {n : ℕ} (h : locked.get? o = some (n, d)) :
    ∃ locked', clearCachedLock locked o d = .ok locked' ∧
      (∀ o', lockCount locked' o' = if o' = o then n - 1 else lockCount locked o') ∧
      ∀ o' e', locked'.get? o' = some e' →
        ∃ n', locked.get? o' = some (n', e'.2) ∧ (0 < n' → 0 < e'.1) := by
  unfold clearCachedLock
  rw [h]
  by_cases hn : n - 1 = 0
  · refine ⟨locked.erase o, by simp [hn], fun o' => ?_, fun o' e' he' => ?_⟩
    · rw [lockCount_erase, hn]
    · exact ⟨e'.1, get?_of_erase he', id⟩
  · refine ⟨locked.insert o (n - 1, d), by simp [hn], fun o' => ?_, fun o' e' he' => ?_⟩
    · rw [lockCount_insert]
    · rcases get?_insert_eq_some.1 he' with ⟨rfl, rfl⟩ | ⟨_, he'⟩
      · exact ⟨n, h, fun _ => Nat.pos_of_ne_zero hn⟩
      · exact ⟨e'.1, he', id⟩

theorem objectsToLock_perm {cache : ObjectID → Option LiveObject} {owned todo : List ObjectRef}
    (h : objectsToLock cache owned = .ok todo) : todo.Perm owned := by
  obtain ⟨_, _, h⟩ := bind_ok.1 h
  obtain ⟨_, _, h⟩ := bind_ok.1 h
  cases h
  exact perm_insertionSort _ _

end ObjectLocks

/-! ## Invariants -/

/-- The locks that a call has obtained and not released. -/
def LockPhase.held : LockPhase → List ObjectRef
  | locking _ obtained => obtained
  | releasing todo _ => todo

/-- What a call knows: nothing of its objects was forgotten, and they are recorded if it is going to
return `Ok`. -/
def LockCall.Consistent (table : OrdMap ObjectRef TransactionDigest) (call : LockCall) : Prop :=
  match call.phase with
  | .locking todo obtained => (obtained ++ todo).Perm call.ownedInputObjects
  | .releasing _ error =>
    error = none → ∀ o ∈ call.ownedInputObjects, table.get? o = some call.txDigest

theorem LockCall.Consistent.mono {table table' : OrdMap ObjectRef TransactionDigest}
    {call : LockCall} (h : call.Consistent table)
    (hm : ∀ o d, table.get? o = some d → table'.get? o = some d) : call.Consistent table' := by
  unfold LockCall.Consistent at h ⊢
  split
  · simpa only [*] using h
  · simp only [*] at h
    exact fun he o ho => hm o _ (h he o ho)

namespace LockNode

open ObjectLocks

variable {s s' : LockNode} {id : ℕ} {call : LockCall} {phase : LockPhase} {o : ObjectRef}

def heldCount (s : LockNode) (o : ObjectRef) : ℕ :=
  tally (fun call => call.phase.held.count o) s.calls.values

/-- Entries of the map belong to the calls that hold them, and agree with the table. -/
structure Fits (calls : OrdMap ℕ LockCall) (table : OrdMap ObjectRef TransactionDigest)
    (locked : LockedTransactions) : Prop where
  positive : ∀ o e, locked.get? o = some e → 0 < e.1
  owner : ∀ id call, calls.get? id = some call → ∀ o ∈ call.phase.held,
    ∀ e, locked.get? o = some e → e.2 = call.txDigest
  agrees : ∀ o e d, locked.get? o = some e → table.get? o = some d → d = e.2

structure Inv (s : LockNode) : Prop extends Fits s.calls s.table s.locked where
  -- all counts are accounted for
  counted : ∀ o, lockCount s.locked o = s.heldCount o + s.unreleased.count o
  consistent : ∀ id call, s.calls.get? id = some call → call.Consistent s.table
  recorded : ∀ w ∈ s.written, s.table.get? w.1 = some w.2
  granted : ∀ r ∈ s.returned, r.error = none →
    ∀ o ∈ r.ownedInputObjects, s.table.get? o = some r.txDigest

theorem inv_start : start.Inv where
  counted _ := rfl
  positive _ _ h := by cases h
  owner _ _ h := by cases h
  agrees _ _ _ h := by cases h
  consistent _ _ h := by cases h
  recorded _ h := by cases h
  granted _ h := by cases h

section

variable (h : s.calls.get? id = some call)
include h

theorem heldCount_setPhase (phase : LockPhase) (o : ObjectRef) :
    (s.setPhase id call phase).heldCount o + call.phase.held.count o =
      s.heldCount o + phase.held.count o :=
  sum_values_insert (fun call : LockCall => call.phase.held.count o) h

theorem heldCount_finish (error : Option LockError) (o : ObjectRef) :
    (s.finish id call error).heldCount o + call.phase.held.count o = s.heldCount o := by
  have hp := tally_perm (f := fun call : LockCall => call.phase.held.count o)
    ((entries_perm_erase h).map Prod.snd)
  rw [map_cons, tally_cons, Nat.add_comm] at hp
  exact hp.symm

theorem heldCount_le (o : ObjectRef) : call.phase.held.count o ≤ s.heldCount o :=
  le_tally (f := fun call : LockCall => call.phase.held.count o) (mem_values.2 ⟨id, h⟩)

end

/-- Who holds a lock finds it in the map, under the own transaction. -/
theorem Inv.holds (h : s.Inv) (hc : s.calls.get? id = some call) (ho : o ∈ call.phase.held) :
    s.locked.get? o = some (lockCount s.locked o, call.txDigest) := by
  have hpos : 0 < lockCount s.locked o := by
    rw [h.counted]
    exact Nat.add_pos_left ((count_pos_iff.2 ho).trans_le (heldCount_le hc o)) _
  unfold lockCount at hpos ⊢
  cases hget : s.locked.get? o with
  | none =>
    rw [hget] at hpos
    exact absurd hpos (lt_irrefl 0)
  | some e => rw [← h.owner id call hc o ho e hget]; rfl

/-- A call goes on to another phase, and with it the map, the table and the counts that are not
released may change. -/
theorem Inv.setPhase {t : LockNode} (h : s.Inv) (hcall : s.calls.get? id = some call)
    (hcalls : t.calls = s.calls) (hret : t.returned = s.returned)
    (hcounted : ∀ o, lockCount t.locked o + call.phase.held.count o + s.unreleased.count o =
      lockCount s.locked o + phase.held.count o + t.unreleased.count o)
    (hfits : Fits s.calls t.table t.locked)
    (hnew : ∀ o ∈ phase.held, ∀ e, t.locked.get? o = some e → e.2 = call.txDigest)
    (hmono : ∀ o d, s.table.get? o = some d → t.table.get? o = some d)
    (hcons : LockCall.Consistent t.table { call with phase := phase })
    (hrec : ∀ w ∈ t.written, t.table.get? w.1 = some w.2) :
    (t.setPhase id call phase).Inv := by
  rw [← hcalls] at hcall hfits
  refine ⟨{ hfits with owner := forall_get?_insert hnew hfits.owner }, fun o => ?_,
    forall_get?_insert hcons fun id' call' hold => ?_, hrec,
    fun r hr herror o ho => hmono o _ (h.granted r (hret ▸ hr) herror o ho)⟩
  · have hheld := heldCount_setPhase hcall phase o
    have hsame : t.heldCount o = s.heldCount o := by rw [heldCount, hcalls, heldCount]
    have hbef := h.counted o
    have hafter := hcounted o
    dsimp only [LockNode.setPhase] at hheld ⊢
    omega
  · exact (h.consistent id' call' (hcalls ▸ hold)).mono hmono

/-- Raising the count of a lock, or making the lock of what is recorded, spoils nobody's lock. -/
theorem Inv.raise (h : s.Inv) {prevLock d : TransactionDigest}
    (hp : s.locked.get? o = some (lockCount s.locked o, prevLock) ∨
      s.locked.get? o = none ∧ prevLock = (s.table.get? o).getD d) :
    Fits s.calls s.table (s.locked.insert o (lockCount s.locked o + 1, prevLock)) := by
  refine ⟨forall_get?_insert (Nat.succ_pos _) h.positive,
    fun id call hc o' ho' e he => ?_, fun o' e d' he hd' => ?_⟩
  all_goals rcases get?_insert_eq_some.1 he with ⟨rfl, rfl⟩ | ⟨_, he⟩
  · have hh := h.holds hc ho'
    rcases hp with hp | ⟨hn, _⟩
    · exact h.owner id call hc o' ho' (lockCount s.locked o', prevLock) hp
    · rw [hn] at hh
      cases hh
  · exact h.owner id call hc o' ho' e he
  · rcases hp with hp | ⟨_, hp⟩
    · exact h.agrees o' (lockCount s.locked o', prevLock) d' hp hd'
    · rw [hp, hd', Option.getD_some]
  · exact h.agrees o' e d' he hd'

theorem lockCount_raise (locked : LockedTransactions) (o o' : ObjectRef) (d : TransactionDigest) :
    lockCount (locked.insert o (lockCount locked o + 1, d)) o' =
      lockCount locked o' + [o].count o' := by
  rw [lockCount_insert]
  by_cases ho : o' = o
  · subst ho; simp
  · simp [ho, Ne.symm ho]

variable {fault : Bool} {obtained todo : List ObjectRef}

/-- **What an attempt does**: it fails at reading the database, or it raises the count of the lock
that is there, or that it makes of what it has read. -/
theorem trySetTransactionLock_cases (s : LockNode) (fault : Bool) (o : ObjectRef)
    (d : TransactionDigest) :
    trySetTransactionLock s.locked (s.storedLock fault o) o d = (s.locked, .error .storage) ∨
    ∃ prevLock, trySetTransactionLock s.locked (s.storedLock fault o) o d =
        (s.locked.insert o (lockCount s.locked o + 1, prevLock), checkLock o prevLock d) ∧
      (s.locked.get? o = some (lockCount s.locked o, prevLock) ∨
        s.locked.get? o = none ∧ prevLock = (s.table.get? o).getD d) := by
  unfold trySetTransactionLock lockCount storedLock
  cases s.locked.get? o with
  | some e => exact .inr ⟨e.2, rfl, .inl rfl⟩
  | none =>
    cases fault with
    | true => exact .inl rfl
    | false => exact .inr ⟨_, rfl, .inr ⟨rfl, rfl⟩⟩

open LockPhase

theorem Inv.lock (h : s.Inv) (hcall : s.calls.get? id = some call)
    (hphase : call.phase = .locking (o :: todo) obtained)
    (hstep : s.advance id call fault = .ok s') : s'.Inv := by
  have hcons := h.consistent id call hcall
  have howns := h.owner id call hcall
  simp only [LockCall.Consistent, hphase] at hcons
  simp only [hphase] at howns
  simp only [advance, hphase] at hstep
  rcases trySetTransactionLock_cases s fault o call.txDigest with htry | ⟨prevLock, htry, hprev⟩
  · -- nothing was read: the call gives up what it has
    rw [htry] at hstep
    cases hstep
    exact h.setPhase hcall rfl rfl (fun o' => by simp [raisedBy, hphase, held]) h.toFits howns
      (fun _ _ h => h) nofun h.recorded
  · have hfits := h.raise hprev
    have hold := hfits.owner id call hcall
    simp only [hphase] at hold
    rw [htry] at hstep
    by_cases heq : prevLock = call.txDigest
    · rw [checkLock, check_of heq] at hstep
      cases hstep
      refine h.setPhase hcall rfl rfl (fun o' => ?_) hfits (fun o' ho' e he => ?_)
        (fun _ _ h => h) ?_ h.recorded
      · have hraise := lockCount_raise s.locked o o' prevLock
        simp only [hphase, held, count_append]
        omega
      · rcases mem_append.1 ho' with ho' | ho'
        · exact hold o' ho' e he
        · rw [mem_singleton.1 ho', get?_insert_self] at he
          rw [← Option.some.inj he, heq]
      · simpa [LockCall.Consistent] using hcons
    · rw [checkLock, check, if_neg heq] at hstep
      cases hstep
      refine h.setPhase hcall rfl rfl (fun o' => ?_) hfits hold (fun _ _ h => h) nofun h.recorded
      have hraise := lockCount_raise s.locked o o' prevLock
      simp only [hphase, held, raisedBy, count_append]
      omega

section

variable (h : s.Inv)
include h

/-- A call returns; what it still holds is not released any more. -/
theorem Inv.finish (hc : s.calls.get? id = some call) (error : Option LockError)
    (hg : error = none → ∀ o ∈ call.ownedInputObjects, s.table.get? o = some call.txDigest) :
    ({ s with unreleased := s.unreleased ++ call.phase.held }.finish id call error).Inv := by
  refine ⟨{ h with owner := fun id' call' hc' => ?_ }, fun o => ?_, fun id' call' hc' => ?_,
    h.recorded, fun r hr => ?_⟩
  · exact h.owner id' call' (get?_of_erase hc')
  · have hh := heldCount_finish hc error o
    have hbef := h.counted o
    change lockCount s.locked o = (s.finish id call error).heldCount o +
      (s.unreleased ++ call.phase.held).count o
    rw [count_append]
    omega
  · exact h.consistent id' call' (get?_of_erase hc')
  · rcases mem_append.1 hr with hr | hr
    · exact h.granted r hr
    · rw [mem_singleton.1 hr]
      exact hg

theorem Inv.write (hc : s.calls.get? id = some call)
    (hp : call.phase = .locking [] obtained) (hs : s.advance id call fault = .ok s') : s'.Inv := by
  have hco := h.consistent id call hc
  simp only [LockCall.Consistent, hp, append_nil] at hco
  have hh : ∀ o ∈ obtained, s.locked.get? o = some (lockCount s.locked o, call.txDigest) :=
    fun o ho => h.holds hc (by rwa [hp])
  have ht : ∀ o, (writeAll s.table (obtained.map fun o => (o, call.txDigest))).get? o =
      if o ∈ obtained then some call.txDigest else s.table.get? o := by
    intro o
    rw [writeAll, foldl_map, get?_foldl_insert_of fun _ _ _ => rfl, map_id']
  -- what is written over was already recorded for the same transaction
  have hm : ∀ o d, s.table.get? o = some d →
      (writeAll s.table (obtained.map fun o => (o, call.txDigest))).get? o = some d := by
    intro o d hd
    rw [ht]
    by_cases ho : o ∈ obtained
    · rw [if_pos ho, h.agrees o _ d (hh o ho) hd]
    · rwa [if_neg ho]
  simp only [advance, hp] at hs
  cases fault with
  | true =>
    cases hs
    have hfin := h.finish hc (some .storage) fun he => by cases he
    rwa [hp] at hfin
  | false =>
    cases hs
    have howns := h.owner id call hc
    rw [hp] at howns
    refine h.setPhase hc rfl rfl (fun o => by simp [hp, held])
      { h with agrees := fun o e d he hd => ?_ } howns hm (fun _ o ho => ?_) (fun w hw => ?_)
    · rw [ht] at hd
      by_cases ho : o ∈ obtained
      · rw [if_pos ho] at hd
        rw [← Option.some.inj hd]
        exact (howns o ho e he).symm
      · rw [if_neg ho] at hd
        exact h.agrees o e d he hd
    · rw [ht, if_pos (hco.mem_iff.2 ho)]
    · rcases mem_append.1 hw with hw | hw
      · exact hm _ _ (h.recorded w hw)
      · obtain ⟨o, ho, rfl⟩ := mem_map.1 hw
        rw [ht, if_pos ho]

theorem Inv.release {error : Option LockError} (hcall : s.calls.get? id = some call)
    (hphase : call.phase = .releasing (o :: todo) error)
    (hstep : s.advance id call fault = .ok s') : s'.Inv := by
  have hcons : LockCall.Consistent s.table { call with phase := .releasing todo error } := by
    have hbef := h.consistent id call hcall
    simp only [LockCall.Consistent, hphase] at hbef ⊢
    exact hbef
  have hholds := h.holds hcall (o := o) (by simp [hphase, held])
  obtain ⟨locked', hclear, hcount, hsub⟩ := clearCachedLock_eq hholds
  have hpos := h.positive o _ hholds
  simp only [advance, hphase] at hstep
  rw [hclear] at hstep
  cases hstep
  have hfits : Fits s.calls s.table locked' := by
    refine ⟨fun o e he => ?_, fun id call hcall o ho e he => ?_, fun o e d he hd => ?_⟩
    all_goals obtain ⟨n', hn', hpos'⟩ := hsub o e he
    · exact hpos' (h.positive o _ hn')
    · exact h.owner id call hcall o ho (n', e.2) hn'
    · exact h.agrees o (n', e.2) d hn' hd
  refine h.setPhase hcall rfl rfl (fun o' => ?_) hfits (fun o' ho' e he => ?_) (fun _ _ h => h)
    hcons h.recorded
  · have hcount' := hcount o'
    simp only [hphase, held, count_cons]
    by_cases ho : o' = o
    · subst ho
      simp only [if_true, BEq.rfl] at hcount' ⊢
      omega
    · have hne : (o == o') = false := by simpa using Ne.symm ho
      rw [if_neg ho] at hcount'
      simp only [hne, Bool.false_eq_true, if_false]
      omega
  · exact hfits.owner id call hcall o' (by rw [hphase]; exact mem_cons_of_mem _ ho') e he

theorem Inv.newCall {owned : List ObjectRef} {txDigest : TransactionDigest}
    (hnew : s.calls.get? id = none) (ht : todo.Perm owned) :
    Inv { s with calls := s.calls.insert id ⟨txDigest, owned, .locking todo []⟩ } := by
  refine { h with
    owner := forall_get?_insert nofun h.owner
    counted := fun o => ?_
    consistent := forall_get?_insert ht h.consistent }
  have hp := (entries_perm_insert (m := s.calls) (k := id)
    (v := ⟨txDigest, owned, .locking todo []⟩)).map Prod.snd
  rw [erase_of_get?_eq_none hnew] at hp
  have hh := (tally_perm (f := fun c : LockCall => c.phase.held.count o) hp).trans tally_cons
  simp only [held, count_nil, Nat.zero_add] at hh
  exact (h.counted o).trans (congrArg (· + s.unreleased.count o) hh.symm)

theorem Inv.advance (hc : s.calls.get? id = some call)
    (hs : s.advance id call fault = .ok s') : s'.Inv := by
  cases hp : call.phase with
  | locking todo obtained =>
    cases todo with
    | nil => exact h.write hc hp hs
    | cons o todo => exact h.lock hc hp hs
  | releasing todo error =>
    cases todo with
    | nil =>
      have hco := h.consistent id call hc
      simp only [LockCall.Consistent, hp] at hco
      simp only [LockNode.advance, hp] at hs
      cases hs
      have hfin := h.finish hc error hco
      rw [hp, held, append_nil] at hfin
      exact hfin
    | cons o todo => exact h.release hc hp hs

theorem Inv.step {a : LockAction} (hs : s.step a = .ok s') : s'.Inv := by
  cases a with
  | call id cache txDigest owned =>
    obtain ⟨_, hf, hs⟩ := bind_ok.1 hs
    have hn := notMem_iff.1 (check_ok.1 hf)
    cases hobj : objectsToLock cache owned with
    | error e =>
      rw [hobj] at hs
      cases hs
      refine { h with granted := fun r hr her => ?_ }
      rcases mem_append.1 hr with hr | hr
      · exact h.granted r hr her
      · rw [mem_singleton.1 hr] at her
        cases her
    | ok todo =>
      rw [hobj] at hs
      cases hs
      exact h.newCall hn (objectsToLock_perm hobj)
  | advance id fault =>
    obtain ⟨call, hc, hs⟩ := bind_ok.1 hs
    exact h.advance (require_ok.1 hc) hs
  | restart =>
    cases hs
    exact { inv_start with
      agrees := fun _ _ _ he => nomatch he
      consistent := fun _ _ hc => nomatch hc
      recorded := h.recorded
      granted := h.granted }

end

theorem inv_of_reach {C : LockNode → LockAction → Prop} (h : machine.Reach C s) : s.Inv :=
  h.invariant (fun _ hs => hs ▸ inv_start) fun _ _ _ hs _ hst => hs.step hst

/-- **Locks are exclusive.** Whatever calls are interleaved, whatever fails and whenever the node is
restarted: what is written for an object is written for one transaction only, a lock in memory is
that of the table, and a call that returned `Ok` has its objects recorded for its transaction. -/
theorem locks_exclusive (h : machine.Reach Machine.free s) :
    (∀ o d d', (o, d) ∈ s.written → (o, d') ∈ s.written → d = d') ∧
    (∀ o e d, s.locked.get? o = some e → s.table.get? o = some d → d = e.2) ∧
    ∀ r ∈ s.returned, r.error = none →
      ∀ o ∈ r.ownedInputObjects, s.table.get? o = some r.txDigest := by
  have hinv := inv_of_reach h
  refine ⟨fun o d d' hd hd' => ?_, hinv.agrees, hinv.granted⟩
  have ht := hinv.recorded (o, d) hd
  rw [hinv.recorded (o, d') hd'] at ht
  exact (Option.some.inj ht).symm

/-! ## Releasing -/

/-- The transaction an object is locked for, as an attempt finds it. -/
def lockOf (s : LockNode) (o : ObjectRef) : Option TransactionDigest :=
  ((s.locked.get? o).map Prod.snd).or (s.table.get? o)

/-- The step does not meet the lock of another transaction, and does not fail to write. -/
def unopposed (s : LockNode) : LockAction → Bool
  | .advance id fault =>
    match s.calls.get? id with
    | some ⟨txDigest, _, .locking (o :: _) _⟩ => (s.lockOf o).all (· = txDigest)
    | some ⟨_, _, .locking [] _⟩ => !fault
    | some ⟨_, _, .releasing _ _⟩ | none => true
  | .call _ _ _ _ | .restart => true

theorem unreleased_advance (hc : s.calls.get? id = some call)
    (hu : s.unopposed (.advance id fault) = true)
    (hs : s.advance id call fault = .ok s') : s'.unreleased = s.unreleased := by
  obtain ⟨txDigest, owned, phase⟩ := call
  simp only [unopposed, hc] at hu
  cases phase with
  | locking todo obtained =>
    cases todo with
    | nil =>
      cases fault with
      | true => cases hu
      | false =>
        cases hs
        rfl
    | cons o todo =>
      dsimp only at hu
      simp only [LockNode.advance] at hs
      rcases trySetTransactionLock_cases s fault o txDigest with htry | ⟨prevLock, htry, hp⟩
      · rw [htry] at hs
        cases hs
        exact append_nil _
      · have hsa : prevLock = txDigest := by
          rcases hp with hp | ⟨hn, rfl⟩
          · rw [lockOf, hp] at hu
            exact of_decide_eq_true hu
          · cases ht : s.table.get? o with
            | none => rfl
            | some d =>
              rw [lockOf, hn, ht] at hu
              exact of_decide_eq_true hu
        rw [htry, checkLock, check_of hsa] at hs
        cases hs
        rfl
  | releasing todo error =>
    cases todo with
    | nil =>
      cases hs
      rfl
    | cons o todo =>
      obtain ⟨locked', _, hs⟩ := bind_ok.1 hs
      cases hs
      rfl

theorem unreleased_step {a : LockAction} (hu : s.unopposed a = true)
    (hs : s.step a = .ok s') (h : s.unreleased = []) : s'.unreleased = [] := by
  cases a with
  | call id cache txDigest owned =>
    obtain ⟨_, _, hs⟩ := bind_ok.1 hs
    split at hs <;> cases hs <;> exact h
  | advance id fault =>
    obtain ⟨call, hc, hs⟩ := bind_ok.1 hs
    rw [unreleased_advance (require_ok.1 hc) hu hs, h]
  | restart =>
    cases hs
    rfl

/-- **Locks are released.** If no attempt meets the lock of another transaction and no batch fails,
the map is empty when no call is in progress, and an object that is not recorded can be locked for
any transaction. -/
theorem locks_released (h : machine.Reach (fun s a => s.unopposed a = true) s)
    (hidle : s.calls.entries = []) :
    s.locked.entries = [] ∧
    ∀ o d, s.table.get? o = none →
      (trySetTransactionLock s.locked (s.storedLock false o) o d).2 = .ok () := by
  have hinv := inv_of_reach h
  have hunr : s.unreleased = [] := h.invariant
    (fun s hs => hs ▸ rfl) fun s a s' hs hu hst => unreleased_step hu hst hs
  have he : ∀ o, s.locked.get? o = none := by
    intro o
    cases hget : s.locked.get? o with
    | none => rfl
    | some e =>
      have hc := hinv.counted o
      rw [hunr, heldCount, OrdMap.values, hidle, lockCount, hget] at hc
      exact absurd (hinv.positive o e hget) (not_lt.2 (le_of_eq hc))
  refine ⟨entries_eq_nil.2 fun o => notMem_iff.2 (he o), fun o d ho => ?_⟩
  unfold trySetTransactionLock storedLock
  rw [he o, ho]
  exact check_of rfl

end LockNode

/-! ## Sample runs -/

namespace LockSample

open LockNode

def obj (id : ObjectID) : ObjectRef := ⟨id, 1, 0⟩

def cache : ObjectID → Option LiveObject := fun _ => some ⟨1, 0⟩

/-- A call of transaction `d`, and its steps. -/
def begin (id : ℕ) (d : TransactionDigest) (owned : List ObjectID) : LockAction :=
  .call id cache d (owned.map obj)

def go (id : ℕ) : LockAction := .advance id false

end LockSample

open LockSample LockNode in
/-- Two calls of one transaction overlap, and the lock is recorded. -/
theorem locks_exclusive_sample :
    ∃ s, machine.Reach Machine.free s ∧ s.written = [(obj 1, 7), (obj 1, 7)] ∧
      s.returned = [⟨7, [obj 1], none⟩, ⟨7, [obj 1], none⟩] ∧
      ∀ r ∈ s.returned, r.error = none →
        ∀ o ∈ r.ownedInputObjects, s.table.get? o = some r.txDigest := by
  refine exists_assoc (exists_reach_and
    [begin 1 7 [1], begin 2 7 [1], go 1, go 2, go 1, go 1, go 2, go 1, go 2, go 2] _
    (init_ok rfl) (by decide +kernel) fun s hs _ => ?_)
  exact (locks_exclusive hs).2.2

open LockSample LockNode in
theorem locks_released_sample :
    ∃ s, machine.Reach (fun s a => s.unopposed a = true) s ∧ s.calls.entries.length = 0 ∧
      s.written = [(obj 1, 7), (obj 1, 7)] ∧ s.locked.entries = [] := by
  refine exists_assoc (exists_reach_and
    [begin 1 7 [1], begin 2 7 [1], go 1, go 2, go 1, go 1, go 2, go 1, go 2, go 2] _
    (init_ok rfl) (by decide +kernel) fun s hs h => ?_)
  exact (locks_released hs (length_eq_zero_iff.1 h.1)).1

open LockSample LockNode ObjectLocks in
/-- Transaction 7 holds object 1 while transaction 8 asks for it, and is then refused object 2,
which is recorded for transaction 6. When all calls have returned object 1 is still locked for
transaction 7, and refused to anybody else, although it is recorded for nobody. -/
theorem object_stays_locked : ∃ s, machine.Reach Machine.free s ∧ s.calls.entries.length = 0 ∧
      s.written = [(obj 2, 6)] ∧ s.table.get? (obj 1) = none ∧
      s.locked.get? (obj 1) = some (1, 7) ∧
      failsWith (trySetTransactionLock s.locked (s.storedLock false (obj 1)) (obj 1) 9).2
        (.objectLockConflict (obj 1) 7) = true :=
  exists_reach
    [begin 1 6 [2], go 1, go 1, go 1, go 1,
      begin 2 7 [1, 2], go 2, begin 3 8 [1], go 3, go 3, go 2, go 2, go 2] _
    (init_ok rfl) (by decide +kernel)

end OneChain.Authority
