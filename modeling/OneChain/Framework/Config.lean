import OneChain.Lib.Transition
import OneChain.Move.Basic

/-!
# Settings that change with the epoch

`config.move` keeps a setting in a dynamic field with two slots: the value written last, with the
epoch of the write, and the value that was in force before that epoch. Transactions read settings
without being ordered after the writes, so within an epoch every version of the field has to give
the same answer, also when a removal has deleted the field.

* `Writes` — what any of the three ways to write does: reads of the current epoch see what they saw
  before, and reads of a later one see the write.
* `reads_stable` — a read in an epoch gives the value of the last write before that epoch.
-/

namespace OneChain.Framework

open Lib Move

/-! ## The source -/

namespace Config

def EAlreadySetForEpoch : Abort := .code .config 0
def ENotSetForEpoch : Abort := .code .config 1

/-- An assertion without a code of its own: the compiler makes one up, with the highest bit set. -/
def EUnnamed : Abort := .code .config (2 ^ 63)

end Config

structure SettingData (V : Type) where
  newerValueEpoch : ℕ
  (newerValue olderValueOpt : Option V)
  deriving DecidableEq

structure Setting (V : Type) where
  data : Option (SettingData V)
  deriving DecidableEq

/-- The dynamic fields of a `Config`. -/
abbrev Config (Name V : Type) := Table Name (Setting V)

namespace Config

variable {Name V : Type}

/-- `read_setting`, by `consistent_value_before_current_epoch`. -/
def readSetting (config : Config Name V) (name : Name) (currentEpoch : ℕ) : Option V :=
  match config name with
  | none => none
  | some setting =>
    match setting.data with
    | none => none
    | some data =>
      if currentEpoch > data.newerValueEpoch then data.newerValue else data.olderValueOpt

variable [DecidableEq Name] (config : Config Name V)

/-- Returns the value that is in no slot any more. -/
def addForNextEpoch (name : Name) (value : V) (epoch : ℕ) : Call (Config Name V × Option V) :=
  match config name with
  | none => return (config.set name ⟨some ⟨epoch, some value, none⟩⟩, none)
  | some setting => do
    let data ← require setting.data EOPTION_NOT_SET
    let (olderValueOpt, removedValue) ← (
      if epoch > data.newerValueEpoch then return (data.newerValue, data.olderValueOpt)
      else do
        check (epoch = data.newerValueEpoch) EUnnamed
        check (data.newerValue.isNone) EAlreadySetForEpoch
        return (data.olderValueOpt, none) : Call (Option V × Option V))
    return (config.set name ⟨some ⟨epoch, some value, olderValueOpt⟩⟩, removedValue)

/-- If nothing is left to read, the field goes. -/
def removeForNextEpoch (name : Name) (epoch : ℕ) : Call (Config Name V × Option V) :=
  match config name with
  | none => return (config, none)
  | some setting => do
    let data ← require setting.data EOPTION_NOT_SET
    let (olderValueOpt, removedValue) ← (
      if epoch > data.newerValueEpoch then return (data.newerValue, none)
      else do
        check (epoch = data.newerValueEpoch) EUnnamed
        return (data.olderValueOpt, data.newerValue) : Call (Option V × Option V))
    return (if olderValueOpt.isNone then config.erase name
      else config.set name ⟨some ⟨epoch, none, olderValueOpt⟩⟩, removedValue)

/-- `value` is written through the reference that is returned. -/
def borrowForNextEpochMut (name : Name) (value : V) (epoch : ℕ) :
    Call (Config Name V) := do
  let setting ← config.borrow name
  let data ← require setting.data EOPTION_NOT_SET
  check (data.newerValueEpoch = epoch) ENotSetForEpoch
  check (data.newerValue.isSome) ENotSetForEpoch
  return config.set name ⟨some { data with newerValue := some value }⟩

/-! ## What a write does -/

/-- `value` is what reads of later epochs find, and nothing else changes. -/
structure Writes (config config' : Config Name V) (name : Name) (epoch : ℕ) (value : Option V) :
    Prop where
  frame : ∀ other, other ≠ name → config' other = config other
  current : config'.readSetting name epoch = config.readSetting name epoch
  later : ∀ e, epoch < e → config'.readSetting name e = value

variable {config} {config' : Config Name V} {name : Name} {epoch : ℕ} {removed : Option V}
  {value : V}

theorem readSetting_set {data : SettingData V} {e : ℕ} :
    readSetting (config.set name ⟨some data⟩) name e =
      if e > data.newerValueEpoch then data.newerValue else data.olderValueOpt := by
  rw [readSetting, Table.set_self]

theorem Writes.of_set {data : SettingData V} (hep : data.newerValueEpoch = epoch)
    (hold : data.olderValueOpt = config.readSetting name epoch) :
    Writes config (config.set name ⟨some data⟩) name epoch data.newerValue := by
  refine ⟨fun other hne => Table.set_of_ne _ _ hne, ?_, fun e he => ?_⟩
  · rw [readSetting_set, if_neg (by omega), hold]
  · rw [readSetting_set, if_pos (by omega)]

theorem Writes.of_erase (hold : readSetting config name epoch = none) :
    Writes config (config.erase name) name epoch none := by
  have habs : config.erase name name = none := Function.update_self ..
  refine ⟨fun other hne => Function.update_of_ne hne .., ?_, fun e _ => ?_⟩
  · rw [hold, readSetting, habs]
  · rw [readSetting, habs]

theorem writes_addForNextEpoch
    (h : config.addForNextEpoch name value epoch = .ok (config', removed)) :
    Writes config config' name epoch (some value) := by
  unfold addForNextEpoch at h
  cases hf : config name with
  | none =>
    rw [hf] at h
    cases h
    exact .of_set rfl (by rw [readSetting, hf])
  | some setting =>
    simp only [hf, ok_iff] at h
    obtain ⟨data, hd, older, _, hs, rfl, -⟩ := h
    refine .of_set rfl ?_
    simp only [readSetting, hf, hd]
    split at hs
    next hl =>
      cases hs
      rw [if_pos hl]
    next hnow =>
      simp only [ok_iff] at hs
      rw [if_neg hnow, hs.2.2.1]

theorem writes_removeForNextEpoch
    (h : config.removeForNextEpoch name epoch = .ok (config', removed)) :
    Writes config config' name epoch none := by
  unfold removeForNextEpoch at h
  cases hf : config name with
  | none =>
    rw [hf] at h
    cases h
    refine ⟨fun _ _ => rfl, rfl, fun e _ => ?_⟩
    rw [readSetting, hf]
  | some setting =>
    simp only [hf, ok_iff] at h
    obtain ⟨data, hd, older, _, hs, rfl, -⟩ := h
    have hold : older = config.readSetting name epoch := by
      simp only [readSetting, hf, hd]
      split at hs
      next hl =>
        cases hs
        rw [if_pos hl]
      next hnow =>
        simp only [ok_iff] at hs
        rw [if_neg hnow, hs.2.1]
    split
    next hn => exact .of_erase (hold ▸ Option.isNone_iff_eq_none.1 hn)
    next => exact .of_set rfl hold

theorem writes_borrowForNextEpochMut
    (h : config.borrowForNextEpochMut name value epoch = .ok config') :
    Writes config config' name epoch (some value) := by
  simp only [borrowForNextEpochMut, Table.borrow, ok_iff] at h
  obtain ⟨setting, hf, data, hd, rfl, -, rfl⟩ := h
  refine .of_set rfl ?_
  simp [readSetting, hf, hd]

end Config

/-! ## Runs -/

/-- A write that was made: what reads of later epochs are to find. -/
structure SettingWrite (Name V : Type) where
  name : Name
  epoch : ℕ
  value : Option V
  deriving DecidableEq

/-- A `Config` over the epochs, with the writes so far. -/
structure ConfigRun (Name V : Type) where
  epoch : ℕ
  config : Config Name V
  writes : List (SettingWrite Name V)

inductive ConfigAction (Name V : Type)
  | nextEpoch
  | add (name : Name) (value : V)
  | remove (name : Name)
  | borrowMut (name : Name) (value : V)

variable {Name V : Type} [DecidableEq Name]

/-- The last write of a setting before an epoch, as the value it has left. -/
def valueBefore (writes : List (SettingWrite Name V)) (name : Name) (epoch : ℕ) : Option V :=
  (writes.filter fun w => w.name = name ∧ w.epoch < epoch).getLast?.bind (·.value)

namespace ConfigRun

def written (s : ConfigRun Name V) (config : Config Name V) (name : Name) (value : Option V) :
    ConfigRun Name V :=
  { s with config, writes := s.writes ++ [⟨name, s.epoch, value⟩] }

def step (s : ConfigRun Name V) : ConfigAction Name V → Call (ConfigRun Name V)
  | .nextEpoch => return { s with epoch := s.epoch + 1 }
  | .add name value => do
    let (config, _) ← s.config.addForNextEpoch name value s.epoch
    return s.written config name (some value)
  | .remove name => do
    let (config, _) ← s.config.removeForNextEpoch name s.epoch
    return s.written config name none
  | .borrowMut name value => do
    let config ← s.config.borrowForNextEpochMut name value s.epoch
    return s.written config name (some value)

/-- A new `Config`, at any epoch. -/
def machine (Name V : Type) [DecidableEq Name] :
    Machine (ConfigRun Name V) (ConfigAction Name V) Abort where
  init s := s.config = Table.empty ∧ s.writes = []
  step := step

variable {s s' : ConfigRun Name V} {a : ConfigAction Name V} {as : List (ConfigAction Name V)}
  {name : Name}

theorem step_cases (h : s.step a = .ok s') : s' = { s with epoch := s.epoch + 1 } ∨
      ∃ config name value, s.config.Writes config name s.epoch value ∧
        s' = s.written config name value := by
  cases a with
  | nextEpoch => exact .inl (Except.ok.inj h).symm
  | add name value =>
    obtain ⟨⟨config, _⟩, hc, h⟩ := bind_ok.1 h
    exact .inr ⟨config, name, _, Config.writes_addForNextEpoch hc, (Except.ok.inj h).symm⟩
  | remove name =>
    obtain ⟨⟨config, _⟩, hc, h⟩ := bind_ok.1 h
    exact .inr ⟨config, name, _, Config.writes_removeForNextEpoch hc, (Except.ok.inj h).symm⟩
  | borrowMut name value =>
    obtain ⟨config, hc, h⟩ := bind_ok.1 h
    exact .inr ⟨config, name, _, Config.writes_borrowForNextEpochMut hc, (Except.ok.inj h).symm⟩

theorem valueBefore_concat (writes : List (SettingWrite Name V)) (w : SettingWrite Name V)
    (name : Name) (e : ℕ) :
    valueBefore (writes ++ [w]) name e =
      if w.name = name ∧ w.epoch < e then w.value else valueBefore writes name e := by
  unfold valueBefore
  by_cases hw : w.name = name ∧ w.epoch < e <;> simp [hw]

/-- Reads of the current epoch and of every later one find the last write before it. -/
def Faithful (s : ConfigRun Name V) : Prop :=
  ∀ name e, s.epoch ≤ e → s.config.readSetting name e = valueBefore s.writes name e

theorem Faithful.step (hs : s.Faithful) (h : s.step a = .ok s') : s'.Faithful := by
  rcases step_cases h with rfl | ⟨config, name, value, hw, rfl⟩
  · exact fun name e he => hs name e (Nat.le_of_succ_le he)
  · intro other e he
    simp only [written]
    rw [valueBefore_concat]
    have hold := hs other e he
    by_cases hn : name = other
    · subst hn
      rcases Nat.lt_or_eq_of_le he with he | rfl
      · rw [if_pos ⟨rfl, he⟩, hw.later e he]
      · rw [if_neg fun h => Nat.lt_irrefl _ h.2, ← hold]
        exact hw.current
    · rw [if_neg fun h => hn h.1, ← hold, Config.readSetting, Config.readSetting,
        hw.frame other (Ne.symm hn)]

theorem faithful (h : (machine Name V).Reach Machine.free s) : s.Faithful := by
  refine h.invariant (fun s hs => ?_) fun s a s' hs _ hst => hs.step hst
  intro name e _
  rw [hs.1, hs.2]
  rfl

/-- What was written before the current epoch stays as it is. -/
theorem valueBefore_of_run (h : (machine Name V).run s as = .ok s') : s.epoch ≤ s'.epoch ∧
      ∀ e ≤ s.epoch, valueBefore s'.writes name e = valueBefore s.writes name e := by
  refine foldlM_induction (P := fun t => s.epoch ≤ t.epoch ∧
    ∀ e ≤ s.epoch, valueBefore t.writes name e = valueBefore s.writes name e) ?_
    ⟨le_rfl, fun _ _ => rfl⟩ h
  rintro t t' a - ⟨hle, hv⟩ hs
  rcases step_cases hs with rfl | ⟨config, other, value, -, rfl⟩
  · exact ⟨Nat.le_succ_of_le hle, hv⟩
  · refine ⟨hle, fun e he => ?_⟩
    rw [written, valueBefore_concat, if_neg fun h => absurd h.2 (by simp only; omega), hv e he]

/-- **Reads are stable within an epoch.** In every run a read gives the value that the last write
before the epoch has left. It gives the same on every version of the setting up to the end of the
epoch, whatever is written or removed. -/
theorem reads_stable (h : (machine Name V).Reach Machine.free s) (name : Name) :
    s.config.readSetting name s.epoch = valueBefore s.writes name s.epoch ∧
    ∀ as s', (machine Name V).run s as = .ok s' → s'.epoch = s.epoch →
      s'.config.readSetting name s.epoch = s.config.readSetting name s.epoch := by
  have hr := faithful h name s.epoch le_rfl
  refine ⟨hr, fun as s' hrun he => ?_⟩
  have hr' := faithful (Machine.reach_of_run h hrun) name s.epoch he.le
  rw [hr', (valueBefore_of_run hrun).2 s.epoch le_rfl, hr]

/-- The setting 0 is written in epoch 4 and removed in epoch 5: reads in epoch 5 do not see it go,
neither before nor after it is written again. Setting 1 is written and removed in epoch 5, so that
its field is deleted. -/
theorem reads_stable_sample : ∃ s : ConfigRun ℕ ℕ,
    (machine ℕ ℕ).Reach Machine.free s ∧ s.epoch = 5 ∧ s.writes.length = 5 ∧
      s.config.readSetting 0 5 = some 7 ∧ s.config 1 = none ∧
      s.config.readSetting 0 s.epoch = valueBefore s.writes 0 s.epoch := by
  refine Machine.exists_reach_imp
    [.add 0 7, .nextEpoch, .remove 0, .add 1 3, .remove 1, .add 0 8]
    (fun s : ConfigRun ℕ ℕ => s.epoch = 5 ∧ s.writes.length = 5 ∧
      s.config.readSetting 0 5 = some 7 ∧ s.config 1 = none)
    (Machine.init_ok (t := ⟨4, Table.empty, []⟩) ⟨rfl, rfl⟩) (by decide +kernel) ?_
  rintro s hs ⟨he, hl, hr, hn⟩
  exact ⟨he, hl, hr, hn, (reads_stable hs 0).1⟩

end ConfigRun

end OneChain.Framework
