import OneChain.Authority.SharedObjectVersions

/-!
# What version assignment computes

The assignment is a pass over the transactions that carries, for every shared object, the version
its next user reads. Here that pass is written over all objects at once, as a function from keys to
versions (`after`, `run`), and the loop over the table is shown to compute it.

In this form the table plays no part, so a batch may end anywhere: the function is what the next
batch starts with.

* `assignVersionsFromConsensus_spec` — the loop computes `run`, and stops only where a transaction
  has no version to be assigned.
* `versions_of_schedule` — a user that is not cancelled reads what the last writer before it
  produced, or the stored version; the versions that writers read increase; a cancelled user moves
  nothing; and batches are the same as one list.
-/

namespace OneChain.Authority

open Lib List SequenceNumber OrdMap

/-- What the transactions of a commit are assigned versions with. -/
structure CommitContext where
  config : EpochConfig
  cancelledTxns : CancelledTxns

variable (config : EpochConfig) (cx : CommitContext)

/-! ## Users of shared objects -/

/-- The shared inputs, none if the configuration lacks their version. -/
def inputsOf (a : Schedulable) : List SharedInputObject :=
  (a.sharedInputObjects config).toOption.getD []

def keysOf (as : List Schedulable) : List ConsensusObjectSequenceKey :=
  as.flatMap fun a => (inputsOf config a).map (·.idAndVersion)

/-- The versions of the inputs that are not shared. -/
def ownVersions (a : Schedulable) : List ℕ :=
  (a.nonSharedInputObjectKeys.toOption.getD [] ++ a.receivingObjectKeys).map (·.version)

/-- The transaction is not cancelled and has the object as a mutable input. -/
def Writes (a : Schedulable) (k : ConsensusObjectSequenceKey) : Prop :=
  (cancellationInfo cx.cancelledTxns a).isNone = true ∧
    ∃ o ∈ inputsOf cx.config a, o.idAndVersion = k ∧ o.mutable = true
  deriving Decidable

/-- One above every version that the transaction reads. -/
def lamportVersion (a : Schedulable) (assigned : AssignedVersions) : ℕ :=
  (ownVersions a ++ assigned.map Prod.snd).foldl max 0 + 1

/-- The version that the last writer among the processed transactions produced, or the one that
was there before. -/
def versionAfter (stored : ConsensusObjectSequenceKey → ℕ)
    (processed : List (Schedulable × AssignedVersions)) (k : ConsensusObjectSequenceKey) : ℕ :=
  ((processed.reverse.find? fun e => Writes cx e.1 k).map
    fun e => lamportVersion e.1 e.2).getD (stored k)

variable {b v : ℕ} {vs : AssignedVersions} {os : List SharedInputObject}

theorem foldl_max_le {l : List ℕ} {m : ℕ} : l.foldl max m ≤ b ↔ m ≤ b ∧ ∀ v ∈ l, v ≤ b := by
  induction l generalizing m with
  | nil => simp
  | cons a l ih => rw [foldl_cons, ih, max_le_iff, forall_mem_cons, and_assoc]

variable {e : ConsensusObjectSequenceKey × ℕ}

theorem lt_lamportVersion {a : Schedulable} {assigned : AssignedVersions}
    (h : e ∈ assigned) : e.2 < lamportVersion a assigned :=
  Nat.lt_succ_of_le <| (foldl_max_le.1 le_rfl).2 _ <| mem_append_right _ (mem_map_of_mem h)

/-! ## The pass over all objects -/

variable (f : ConsensusObjectSequenceKey → ℕ)

/-- What the transaction is assigned when the next versions are `f`. -/
def assigned (a : Schedulable) : AssignedVersions :=
  match cancellationInfo cx.cancelledTxns a with
  | some reason =>
    (inputsOf cx.config a).map fun o => (o.idAndVersion, cancelledVersion reason o.id)
  | none => (inputsOf cx.config a).map fun o => (o.idAndVersion, f o.idAndVersion)

/-- The next versions after the transaction. -/
def after (a : Schedulable) : ConsensusObjectSequenceKey → ℕ := fun k =>
  if Writes cx a k then lamportVersion a (assigned cx f a)
  else f k

def afterAll (as : List Schedulable) : ConsensusObjectSequenceKey → ℕ := as.foldl (after cx) f

/-- Every transaction with what it is assigned. -/
def run : (ConsensusObjectSequenceKey → ℕ) → List Schedulable →
    List (Schedulable × AssignedVersions)
  | _, [] => []
  | f, a :: as => (a, assigned cx f a) :: run (after cx f a) as

variable {config cx f} {a : Schedulable} {as bs : List Schedulable} {k : ConsensusObjectSequenceKey}

theorem assigned_user (h : (cancellationInfo cx.cancelledTxns a).isNone = true) :
    assigned cx f a = (inputsOf cx.config a).map fun o => (o.idAndVersion, f o.idAndVersion) := by
  rw [assigned, Option.isNone_iff_eq_none.1 h]

theorem map_fst_assigned : (assigned cx f a).map Prod.fst =
      (inputsOf cx.config a).map (·.idAndVersion) := by
  unfold assigned
  split <;> simp [Function.comp_def]

theorem mem_assigned_of_writes (h : Writes cx a k) : (k, f k) ∈ assigned cx f a := by
  obtain ⟨hu, o, ho, rfl, _⟩ := h
  rw [assigned_user hu]
  exact mem_map.2 ⟨o, ho, rfl⟩

theorem lt_after (h : Writes cx a k) : f k < after cx f a k := by
  rw [after, if_pos h]
  exact lt_lamportVersion (mem_assigned_of_writes h)

theorem le_after : f k ≤ after cx f a k := by
  by_cases h : Writes cx a k
  · exact (lt_after h).le
  · rw [after, if_neg h]

theorem le_afterAll : f k ≤ afterAll cx f as k := by
  induction as generalizing f with
  | nil => exact le_rfl
  | cons a as ih => exact le_after.trans ih

theorem afterAll_append : afterAll cx f (as ++ bs) = afterAll cx (afterAll cx f as) bs :=
  foldl_append

theorem run_append : run cx f (as ++ bs) = run cx f as ++ run cx (afterAll cx f as) bs := by
  induction as generalizing f with
  | nil => rfl
  | cons a as ih => exact congrArg _ ih

theorem map_fst_run : (run cx f as).map Prod.fst = as := by
  induction as generalizing f with
  | nil => rfl
  | cons a as ih => rw [run, map_cons, ih]

theorem zip_run : as.zip ((run cx f as).map Prod.snd) = run cx f as := by
  induction as generalizing f with
  | nil => rfl
  | cons a as ih => rw [run, map_cons, zip_cons_cons, ih]

/-- A transaction of the pass is assigned versions out of what the transactions before it left. -/
theorem run_split {before rest : List (Schedulable × AssignedVersions)}
    (h : run cx f as = before ++ (a, vs) :: rest) :
    ∃ xs ys, as = xs ++ a :: ys ∧ before = run cx f xs ∧ vs = assigned cx (afterAll cx f xs) a ∧
      rest = run cx (afterAll cx f (xs ++ [a])) ys := by
  induction as generalizing f before with
  | nil => simp [run] at h
  | cons b as ih =>
    cases before with
    | nil =>
      obtain ⟨⟨rfl, rfl⟩, rfl⟩ := h
      exact ⟨[], as, rfl, rfl, rfl, rfl⟩
    | cons e before =>
      rw [run, cons_append, List.cons.injEq] at h
      obtain ⟨rfl, h⟩ := h
      obtain ⟨xs, ys, rfl, rfl, rfl, rfl⟩ := ih h
      exact ⟨b :: xs, ys, rfl, rfl, rfl, rfl⟩

/-- The next versions are those of the last writers. -/
theorem afterAll_eq_versionAfter : afterAll cx f as k = versionAfter cx f (run cx f as) k := by
  induction as generalizing f with
  | nil => rfl
  | cons a as ih =>
    change afterAll cx (after cx f a) as k = _
    rw [ih]
    unfold versionAfter
    rw [run, reverse_cons, find?_append]
    cases hf : (run cx (after cx f a) as).reverse.find? fun e => Writes cx e.1 k with
    | some e => rfl
    | none =>
      by_cases hw : Writes cx a k
      · simp [hw, after]
      · simp [hw, after]

/-! ## When the assignment stops -/

variable (cx)

/-- The version whose validity is asserted for the transaction. A cancelled one does not count the
versions that it is assigned. -/
def assertedVersion (f : ConsensusObjectSequenceKey → ℕ) (a : Schedulable) : ℕ :=
  match cancellationInfo cx.cancelledTxns a with
  | some _ => lamportVersion a []
  | none => lamportVersion a (assigned cx f a)

/-- The transaction passes the assertions. -/
structure Assignable (f : ConsensusObjectSequenceKey → ℕ) (a : Schedulable) : Prop where
  configured : ∃ os, a.sharedInputObjects cx.config = .ok os
  enabled : a.isAccumulatorSettlement = false ∨ cx.config.accumulatorsEnabled = true
  verified : inputsOf cx.config a ≠ [] → ∃ ks, a.nonSharedInputObjectKeys = .ok ks
  valid : inputsOf cx.config a ≠ [] → SequenceNumber.isValid (assertedVersion cx f a)

def AllAssignable : (ConsensusObjectSequenceKey → ℕ) → List Schedulable → Prop
  | _, [] => True
  | f, a :: as =>
    Assignable cx f a ∧ AllAssignable (after cx f a) as

variable {cx}

theorem allAssignable_append : AllAssignable cx f (as ++ bs) ↔ AllAssignable cx f as ∧
      AllAssignable cx (afterAll cx f as) bs := by
  induction as generalizing f with
  | nil => exact (iff_of_eq (true_and _)).symm
  | cons a as ih => exact (and_congr_right fun _ => ih).trans and_assoc.symm

theorem AllAssignable.configured (h : AllAssignable cx f as) :
    ∀ a ∈ as, ∃ os, a.sharedInputObjects cx.config = .ok os := by
  induction as generalizing f with
  | nil => simp
  | cons a as ih =>
    rw [forall_mem_cons]
    exact ⟨h.1.configured, ih h.2⟩

/-! ## One transaction -/

/-- The table holds the version of every object in `D`. -/
def Reads (next : NextVersions) (f : ConsensusObjectSequenceKey → ℕ)
    (D : ConsensusObjectSequenceKey → Prop) [DecidablePred D] : Prop :=
  ∀ k, next.get? k = if D k then some (f k) else none

theorem lamportIncrement_bind {β : Type} {inputs : List ℕ} {g : ℕ → Except VersionPanic β}
    {Q : β → Prop} {E : VersionPanic → Prop}
    (hva : isValid (inputs.foldl max 0 + 1) → Ends (g (inputs.foldl max 0 + 1)) Q E)
    (hinv : ∀ e, ¬ isValid (inputs.foldl max 0 + 1) → E e) :
    Ends (lamportIncrement inputs >>= fun v =>
      check (isValid v) (.invalidVersion v) >>= fun _ => g v) Q E := by
  simp only [lamportIncrement]
  by_cases hv : isValid (inputs.foldl max 0 + 1)
  · have hmax : inputs.foldl max 0 ≠ 2 ^ 64 - 1 := by
      intro h
      rw [h] at hv
      exact absurd hv (by decide)
    rw [check_of hmax, ok_bind, pure_ok, ok_bind, check_of hv]
    exact hva hv
  · by_cases hmax : inputs.foldl max 0 ≠ 2 ^ 64 - 1
    · rw [check_of hmax, ok_bind, pure_ok, ok_bind, check_error.2 ⟨hv, rfl⟩]
      exact hinv _ hv
    · rw [check_error.2 ⟨hmax, rfl⟩]
      exact hinv _ hv

/-- The next version of the mutable inputs is written where there was one. -/
theorem writeNextVersion_ok {ks : List ConsensusObjectSequenceKey} {m : NextVersions}
    (h : ∀ k ∈ ks, k ∈ m) :
    ∃ m', ks.foldlM (fun m k => do
        let _ ← require (m.get? k) (VersionPanic.notInNextVersions k)
        pure (m.insert k v)) m = .ok m' ∧
      ∀ k, m'.get? k = if k ∈ ks then some v else m.get? k := by
  induction ks generalizing m with
  | nil => exact ⟨m, rfl, fun k => rfl⟩
  | cons j ks ih =>
    rw [forall_mem_cons] at h
    obtain ⟨w, hw⟩ := mem_iff.1 h.1
    obtain ⟨m', hrun, hget⟩ := ih (m := m.insert j v) fun k hk => by simp [h.2 k hk]
    refine ⟨m', ?_, fun k => ?_⟩
    · rw [foldlM_cons, require_ok.2 hw]
      exact hrun
    · rw [hget, get?_insert]
      by_cases hk : k ∈ ks
      · simp [hk]
      · simp [hk]

theorem inputsOf_eq (h : a.sharedInputObjects config = .ok os) : inputsOf config a = os := by
  simp [inputsOf, h, Except.toOption]

theorem ownVersions_eq {ks : List ObjectKey} (h : a.nonSharedInputObjectKeys = .ok ks) :
    ownVersions a = (ks ++ a.receivingObjectKeys).map (·.version) := by
  simp [ownVersions, h, Except.toOption]

theorem mem_mutableInputs :
    k ∈ ((os.map fun o => (o.idAndVersion, f o.idAndVersion)).zip (os.map (·.mutable))).filterMap
        (fun e => if e.2 then some e.1.1 else none) ↔
      ∃ o ∈ os, o.idAndVersion = k ∧ o.mutable = true := by
  induction os with
  | nil => simp
  | cons o os ih =>
    rw [map_cons, map_cons, zip_cons_cons, filterMap_cons, exists_mem_cons_iff, ← ih]
    cases ho : o.mutable with
    | true => simp only [if_true, mem_cons, and_true, eq_comm]
    | false => simp

section OneTransaction

variable {next : NextVersions} {D : ConsensusObjectSequenceKey → Prop} [DecidablePred D]

variable (cx a f D) in
/-- The result of the pass for the transaction, which passes the assertions that are made while it
is looked at. -/
def Matches (r : AssignedVersions × NextVersions) : Prop :=
  r.1 = assigned cx f a ∧ Reads r.2 (after cx f a) D ∧
    (a.isAccumulatorSettlement = false ∨ cx.config.accumulatorsEnabled = true → Assignable cx f a)

variable {ks : List ObjectKey}

theorem assignVersionsForCertificate_cancelled {reason : CancelConsensusCertificateReason}
    (hn : Reads next f D) (hi : cancellationInfo cx.cancelledTxns a = some reason)
    (hos : a.sharedInputObjects cx.config = .ok os) (hne : os ≠ [])
    (hks : a.nonSharedInputObjectKeys = .ok ks) :
    Ends (assignVersionsForCertificate cx.config cx.cancelledTxns a next)
      (Matches cx f a D) (fun _ => ¬ Assignable cx f a) := by
  have hin := inputsOf_eq hos
  have hass : assertedVersion cx f a =
      ((ks ++ a.receivingObjectKeys).map (·.version)).foldl max 0 + 1 := by
    simp only [assertedVersion, hi, lamportVersion, ownVersions_eq hks, map_nil, append_nil]
  simp only [assignVersionsForCertificate, hos, ok_bind, if_neg hne, hks, hi]
  refine lamportIncrement_bind (fun hv => ⟨?_, fun k => ?_, fun h => ?_⟩) (fun e hv h => ?_)
  · simp only [assigned, hi, hin]
  · have hw : ¬ Writes cx a k := by simp [Writes, hi]
    simp only [after, if_neg hw]
    exact hn k
  · exact ⟨⟨_, hos⟩, h, fun _ => ⟨_, hks⟩, fun _ => hass ▸ hv⟩
  · exact hv (hass ▸ h.valid (hin ▸ hne))

theorem assignVersionsForCertificate_user (hnext : Reads next f D)
    (hinfo : cancellationInfo cx.cancelledTxns a = none)
    (hos : a.sharedInputObjects cx.config = .ok os) (hne : os ≠ [])
    (hD : ∀ o ∈ os, D o.idAndVersion) (hks : a.nonSharedInputObjectKeys = .ok ks) :
    Ends (assignVersionsForCertificate cx.config cx.cancelledTxns a next)
      (Matches cx f a D) (fun _ => ¬ Assignable cx f a) := by
  have hin := inputsOf_eq hos
  have hassigned : assigned cx f a = os.map fun o => (o.idAndVersion, f o.idAndVersion) := by
    simp only [assigned, hinfo, hin]
  have hlamp : lamportVersion a (assigned cx f a) =
      ((ks ++ a.receivingObjectKeys).map (·.version) ++
        (os.map fun o => (o.idAndVersion, f o.idAndVersion)).map Prod.snd).foldl max 0 + 1 := by
    rw [lamportVersion, ownVersions_eq hks, hassigned]
  have hass : assertedVersion cx f a = lamportVersion a (assigned cx f a) := by
    simp only [assertedVersion, hinfo]
  have hget : ∀ o ∈ os, next.get? o.idAndVersion = some (f o.idAndVersion) := fun o ho => by
    rw [hnext, if_pos (hD o ho)]
  have hread : (os.mapM fun o => do
      let version ← require (next.get? o.idAndVersion)
        (VersionPanic.notInNextVersions o.idAndVersion)
      pure (o.idAndVersion, version)) =
      .ok (os.map fun o => (o.idAndVersion, f o.idAndVersion)) := by
    refine mapM_ok fun o ho => ?_
    rw [require_ok.2 (hget o ho)]
    rfl
  have hmut : ∀ k, (∃ o ∈ os, o.idAndVersion = k ∧ o.mutable = true) ↔ Writes cx a k := fun k => by
    simp [Writes, hinfo, hin]
  simp only [assignVersionsForCertificate, hos, ok_bind, if_neg hne, hks, hinfo, hread]
  refine lamportIncrement_bind (fun hv => ?_) (fun e hv h => ?_)
  · rw [← hlamp] at hv ⊢
    obtain ⟨next', hrun, hnext'⟩ := writeNextVersion_ok fun k hk => by
        obtain ⟨o, ho, rfl, _⟩ := mem_mutableInputs.1 hk
        exact mem_iff.2 ⟨_, hget o ho⟩
    rw [hrun]
    refine ⟨hassigned.symm, fun k => ?_, fun h => ?_⟩
    · change next'.get? k = _
      have hmem := (mem_mutableInputs (f := f)).trans (hmut k)
      rw [hnext' k, hnext k, after]
      by_cases hw : Writes cx a k
      · obtain ⟨o, ho, rfl, _⟩ := (hmut k).2 hw
        rw [if_pos (hmem.2 hw), if_pos (hD o ho), if_pos hw]
      · rw [if_neg (mt hmem.1 hw), if_neg hw]
    · exact ⟨⟨_, hos⟩, h, fun _ => ⟨_, hks⟩, fun _ => hass ▸ hv⟩
  · exact hv (hlamp ▸ hass ▸ h.valid (hin ▸ hne))

/-- **One transaction of the loop.** It is assigned what the pass assigns it, and the table moves
on as the pass does; where it is stopped, it fails one of the assertions. -/
theorem assignVersionsForCertificate_ends (hn : Reads next f D)
    (hD : ∀ o ∈ inputsOf cx.config a, D o.idAndVersion) :
    Ends (assignVersionsForCertificate cx.config cx.cancelledTxns a next)
      (Matches cx f a D) (fun _ => ¬ Assignable cx f a) := by
  cases hos : a.sharedInputObjects cx.config with
  | error e =>
    simp only [assignVersionsForCertificate, hos]
    intro h
    obtain ⟨os, hos'⟩ := h.configured
    simp [hos] at hos'
  | ok os =>
    have hin := inputsOf_eq hos
    by_cases hnil : os = []
    · subst hnil
      have hw : ∀ k, ¬ Writes cx a k := by simp [Writes, hin]
      simp only [assignVersionsForCertificate, hos]
      refine ⟨?_, fun k => ?_, fun h =>
        ⟨⟨_, hos⟩, h, fun hne => absurd hin hne, fun hne => absurd hin hne⟩⟩
      · unfold assigned
        split <;> simp [hin]
      · simp only [after, if_neg (hw k)]
        exact hn k
    · cases hks : a.nonSharedInputObjectKeys with
      | error e =>
        simp only [assignVersionsForCertificate, hos, ok_bind, if_neg hnil, hks]
        intro h
        obtain ⟨ks, hks'⟩ := h.verified (hin ▸ hnil)
        simp [hks] at hks'
      | ok ks =>
        cases hi : cancellationInfo cx.cancelledTxns a with
        | some reason => exact assignVersionsForCertificate_cancelled hn hi hos hnil hks
        | none => exact assignVersionsForCertificate_user hn hi hos hnil (hin ▸ hD) hks

/-- **The loop computes the pass.** -/
theorem assignVersions_ends (hnext : Reads next f D) (hD : ∀ k ∈ keysOf cx.config as, D k) :
    Ends (assignVersions cx.config cx.cancelledTxns as next)
      (fun r => r.1 = (run cx f as).map (fun e => (e.1.key, e.2)) ∧
        Reads r.2 (afterAll cx f as) D ∧ AllAssignable cx f as)
      (fun _ => ¬ AllAssignable cx f as) := by
  induction as generalizing f next with
  | nil => exact ⟨rfl, hnext, trivial⟩
  | cons a as ih =>
    rw [assignVersions]
    by_cases henabled : a.isAccumulatorSettlement = false ∨ cx.config.accumulatorsEnabled = true
    · rw [check_of henabled]
      have hkeys : ∀ o ∈ inputsOf cx.config a, D o.idAndVersion := fun o ho =>
        hD _ (mem_flatMap.2 ⟨a, mem_cons_self, mem_map_of_mem ho⟩)
      refine ((assignVersionsForCertificate_ends hnext hkeys).imp_error fun _ hn h => hn h.1).bind
        fun cert hcert => ?_
      obtain ⟨hcert₁, hcert₂, hassignable⟩ := hcert
      have hrest := ih hcert₂ fun k hk => hD k <| by
        exact mem_append_right _ hk
      refine (hrest.imp_error fun _ hn h => hn h.2).bind fun rest hloop => ?_
      obtain ⟨hrest₁, hrest₂, hall⟩ := hloop
      refine ⟨?_, hrest₂, hassignable henabled, hall⟩
      simp only [run, map_cons, ← hrest₁, ← hcert₁]
    · rw [check_error.2 ⟨henabled, rfl⟩]
      exact fun h => henabled h.1.enabled

end OneTransaction

/-! ## The table of next versions -/

/-- The next version of every object: that of the table, or the one it is initialized with. -/
def stored (reader : ObjectCacheRead) (table : NextVersions) : ConsensusObjectSequenceKey → ℕ :=
  fun k => (table.get? k).getD (versionToWrite reader k)

section Table

variable {rd : ObjectCacheRead} {table : NextVersions} {objects : List ConsensusObjectSequenceKey}

theorem get?_foldl_insert_of_reads {l : AssignedVersions} (hl : ∀ e ∈ l, e.2 = f e.1)
    (m : NextVersions) :
    (l.foldl (fun m e => m.insert e.1 e.2) m).get? k =
      if k ∈ l.map Prod.fst then some (f k) else m.get? k :=
  get?_foldl_insert_of (fun e he hk => by rw [hl e he, hk]) m

theorem mem_uninitializedObjects :
    k ∈ uninitializedObjects table objects ↔ k ∈ objects ∧ table.get? k = none := by
  have hzip : (objects.map table.get?).zip objects = objects.map fun k => (table.get? k, k) := by
    simpa using zip_map' (g := id)
  rw [uninitializedObjects, hzip, filterMap_map, mem_filterMap]
  constructor
  · rintro ⟨j, hj, h⟩
    cases hv : table.get? j with
    | none =>
      simp only [Function.comp_apply, hv, Option.some.injEq] at h
      exact h ▸ ⟨hj, hv⟩
    | some v => simp [hv] at h
  · rintro ⟨hk, hn⟩
    exact ⟨k, hk, by simp [hn]⟩

theorem mem_initializedVersions :
    e ∈ initializedVersions table objects ↔ e.1 ∈ objects ∧ table.get? e.1 = some e.2 := by
  have hzip : objects.zip (objects.map table.get?) = objects.map fun k => (k, table.get? k) := by
    simpa using zip_map' (f := id)
  rw [initializedVersions, hzip, filterMap_map, mem_filterMap]
  constructor
  · rintro ⟨j, hj, h⟩
    cases hv : table.get? j with
    | none => simp [hv] at h
    | some v =>
      simp only [Function.comp_apply, hv, Option.some.injEq] at h
      exact h ▸ ⟨hj, hv⟩
  · rintro ⟨hk, hs⟩
    exact ⟨e.1, hk, by simp [hs]⟩

variable (config rd table) in
/-- The assertion on the keys that are initialized. -/
def StartVersionsAllowed (ks : List ConsensusObjectSequenceKey) : Prop :=
  ∀ k ∈ ks, table.get? k = none → startVersionAllowed config rd k = true

theorem mapM_initialVersion_ends :
    Ends ((uninitializedObjects table objects).mapM (initialVersion config rd))
      (fun es => es = (uninitializedObjects table objects).map (fun k => (k, versionToWrite rd k)) ∧
        StartVersionsAllowed config rd table objects)
      (fun _ => ¬ StartVersionsAllowed config rd table objects) := by
  have hiff : StartVersionsAllowed config rd table objects ↔
      ∀ k ∈ uninitializedObjects table objects, startVersionAllowed config rd k = true := by
    simp only [StartVersionsAllowed, mem_uninitializedObjects, and_imp]
  rw [hiff]
  by_cases hall : ∀ k ∈ uninitializedObjects table objects, startVersionAllowed config rd k = true
  · rw [mapM_ok fun k hk => by
      rw [initialVersion, check_of (hall k hk)]
      rfl]
    exact ⟨rfl, hall⟩
  · cases hrun : (uninitializedObjects table objects).mapM (initialVersion config rd) with
    | error e => exact hall
    | ok es =>
      refine absurd (mapM_forall (fun k e h => ?_) hrun) hall
      obtain ⟨_, hc, _⟩ := bind_ok.1 h
      exact check_ok.1 hc

/-- Without a key to initialize, the early return is the same as going on. -/
theorem getOrInitNextObjectVersions_eq : getOrInitNextObjectVersions config rd table objects =
      ((uninitializedObjects table objects).mapM (initialVersion config rd) >>= fun es =>
        pure ((initializedVersions table objects ++ es).foldl (fun m e => m.insert e.1 e.2) .empty,
          es.foldl (fun m e => m.insert e.1 e.2) table)) := by
  unfold getOrInitNextObjectVersions
  split
  next hnil =>
    simp only [hnil, mapM_nil, pure_ok, ok_bind, append_nil, foldl_nil]
  next => rfl

theorem getOrInitNextObjectVersions_ends :
    Ends (getOrInitNextObjectVersions config rd table objects)
      (fun r => Reads r.1 (stored rd table) (· ∈ objects) ∧
        Reads r.2 (stored rd table) (fun k => k ∈ table ∨ k ∈ objects) ∧
        StartVersionsAllowed config rd table objects)
      (fun _ => ¬ StartVersionsAllowed config rd table objects) := by
  rw [getOrInitNextObjectVersions_eq]
  refine mapM_initialVersion_ends.bind fun es hes => ?_
  obtain ⟨rfl, hall⟩ := hes
  have hnew : ∀ e ∈ (uninitializedObjects table objects).map
      (fun k => (k, versionToWrite rd k)), e.2 = stored rd table e.1 := fun e he => by
    obtain ⟨k, hk, rfl⟩ := mem_map.1 he
    rw [stored, (mem_uninitializedObjects.1 hk).2]
    rfl
  have hold : ∀ e ∈ initializedVersions table objects, e.2 = stored rd table e.1 := fun e he => by
      rw [stored, (mem_initializedVersions.1 he).2]
      rfl
  have hn : ∀ k, k ∈ ((uninitializedObjects table objects).map
      (fun k => (k, versionToWrite rd k))).map Prod.fst ↔ k ∈ objects ∧ table.get? k = none :=
    fun k => by
      simp only [map_map, Function.comp_def, map_id', mem_uninitializedObjects]
  have ho : ∀ k, k ∈ (initializedVersions table objects).map Prod.fst ↔
      k ∈ objects ∧ k ∈ table := fun k => by
    rw [mem_map, mem_iff]
    constructor
    · rintro ⟨e, he, rfl⟩
      exact ⟨(mem_initializedVersions.1 he).1, _, (mem_initializedVersions.1 he).2⟩
    · rintro ⟨hk, v, hv⟩
      exact ⟨(k, v), mem_initializedVersions.2 ⟨hk, hv⟩, rfl⟩
  refine ⟨fun k => ?_, fun k => ?_, hall⟩
  · rw [get?_foldl_insert_of_reads (forall_mem_append.2 ⟨hold, hnew⟩)]
    refine if_congr ?_ rfl rfl
    rw [map_append, mem_append, ho, hn, ← notMem_iff, ← and_or_left]
    exact and_iff_left (em _)
  · rw [get?_foldl_insert_of_reads hnew]
    by_cases hk : k ∈ table
    · obtain ⟨v, hv⟩ := mem_iff.1 hk
      rw [if_neg fun h => by simp [((hn k).1 h).2] at hv, if_pos (.inl hk), stored, hv]
      rfl
    · have hno := notMem_iff.1 hk
      rw [hno]
      refine if_congr ?_ rfl rfl
      rw [hn]
      exact (and_iff_left hno).trans (or_iff_right hk).symm

theorem Reads.congr {next : NextVersions} {D D' : ConsensusObjectSequenceKey → Prop}
    [DecidablePred D] [DecidablePred D'] (h : Reads next f D) (hD : ∀ k, D k ↔ D' k) :
    Reads next f D' :=
  fun k => (h k).trans (if_congr (hD k) rfl rfl)

theorem after_of_notMem (h : k ∉ keysOf cx.config [a]) : after cx f a k = f k := by
  refine if_neg fun hw => h ?_
  obtain ⟨_, o, ho, rfl, _⟩ := hw
  exact mem_flatMap.2 ⟨a, mem_singleton_self a, mem_map_of_mem ho⟩

theorem keysOf_append : keysOf config (as ++ bs) = keysOf config as ++ keysOf config bs :=
  flatMap_append

theorem keysOf_cons : keysOf config (a :: as) = keysOf config [a] ++ keysOf config as := by
  simp [keysOf]

theorem afterAll_of_notMem (h : k ∉ keysOf cx.config as) : afterAll cx f as k = f k := by
  induction as generalizing f with
  | nil => rfl
  | cons a as ih =>
    rw [keysOf_cons, mem_append, not_or] at h
    exact (ih h.2).trans (after_of_notMem h.1)

variable (cx) in
/-- Nothing stops the assignment. -/
def Admissible (rd : ObjectCacheRead) (table : NextVersions) (as : List Schedulable) : Prop :=
  StartVersionsAllowed cx.config rd table (keysOf cx.config as) ∧
    AllAssignable cx (stored rd table) as

theorem flatten_inputs {oss : List (List SharedInputObject)}
    (h : as.mapM (·.sharedInputObjects config) = .ok oss) :
    oss.flatten.map (·.idAndVersion) = keysOf config as := by
  have hall := mapM_eq_ok.1 h
  induction hall with
  | nil => rfl
  | @cons a os as oss ha hr ih =>
    rw [flatten_cons, map_append, ih (mapM_eq_ok.2 hr), keysOf, keysOf, flatMap_cons,
      inputsOf_eq ha]

variable (cx) in
/-- **`assign_versions_from_consensus` computes the pass**, from the stored versions on, and stops
only if it is not admissible. -/
theorem assignVersionsFromConsensus_spec :
    Ends (assignVersionsFromConsensus cx.config rd table as cx.cancelledTxns)
      (fun r => (r.assignedVersions = (run cx (stored rd table) as).map (fun e => (e.1.key, e.2)) ∧
          Reads r.sharedInputNextVersions (afterAll cx (stored rd table) as)
            (· ∈ keysOf cx.config as) ∧
          Reads r.table (stored rd table) (fun k => k ∈ table ∨ k ∈ keysOf cx.config as)) ∧
        Admissible cx rd table as)
      (fun _ => ¬ Admissible cx rd table as) := by
  unfold assignVersionsFromConsensus
  cases hos : as.mapM (·.sharedInputObjects cx.config) with
  | error e =>
    intro h
    rw [mapM_ok (g := inputsOf cx.config) fun a ha => by
      obtain ⟨os, ha'⟩ := h.2.configured a ha
      rw [ha', inputsOf_eq ha']] at hos
    cases hos
  | ok oss =>
    have hkeys : ∀ k, k ∈ ((oss.flatten.map (·.idAndVersion)).insertionSort (· ≤ ·)).dedup ↔
        k ∈ keysOf cx.config as := fun k => by
      rw [mem_dedup, (perm_insertionSort _ _).mem_iff, flatten_inputs hos]
    have hallowed : StartVersionsAllowed cx.config rd table
          ((oss.flatten.map (·.idAndVersion)).insertionSort (· ≤ ·)).dedup ↔
        StartVersionsAllowed cx.config rd table (keysOf cx.config as) := by
      simp only [StartVersionsAllowed, hkeys]
    refine (getOrInitNextObjectVersions_ends.imp_error fun _ hn h => hn (hallowed.2 h.1)).bind
      fun versions hvers => ?_
    obtain ⟨hnext, htable, hstart⟩ := hvers
    refine ((assignVersions_ends hnext fun k hk => (hkeys k).2 hk).imp_error fun _ hn h =>
      hn h.2).bind fun out hassigned => ?_
    obtain ⟨hout, hreads, hall⟩ := hassigned
    exact ⟨⟨hout, hreads.congr hkeys,
      htable.congr fun k => or_congr_right (hkeys k)⟩, hallowed.1 hstart, hall⟩

variable (cx rd table) in
/-- What a list of transactions is assigned, and the table after it. -/
def Processed (as : List Schedulable)
    (r : List (TransactionKey × AssignedVersions) × NextVersions) : Prop :=
  r.1 = (run cx (stored rd table) as).map (fun e => (e.1.key, e.2)) ∧
    Reads r.2 (afterAll cx (stored rd table) as) (fun k => k ∈ table ∨ k ∈ keysOf cx.config as)

variable (cx) in
theorem processSharedObjectVersions_ends :
    Ends (processSharedObjectVersions cx.config rd cx.cancelledTxns table as)
      (fun r => Processed cx rd table as r ∧ Admissible cx rd table as)
      (fun _ => ¬ Admissible cx rd table as) := by
  refine (assignVersionsFromConsensus_spec cx).bind fun r hr => ?_
  obtain ⟨⟨hout, hn, ht⟩, hadm⟩ := hr
  refine ⟨⟨hout, fun k => ?_⟩, hadm⟩
  have hen : ∀ e ∈ r.sharedInputNextVersions.entries,
      e.2 = afterAll cx (stored rd table) as e.1 := fun e he => by
    have hget := mem_entries.1 he
    rw [hn] at hget
    split at hget
    · exact (Option.some.inj hget).symm
    · cases hget
  have hke : k ∈ r.sharedInputNextVersions.entries.map Prod.fst ↔ k ∈ keysOf cx.config as := by
    change k ∈ r.sharedInputNextVersions.keys ↔ _
    rw [OrdMap.mem_keys, mem_def, hn]
    split <;> simp_all
  change (r.sharedInputNextVersions.entries.foldl _ r.table).get? k = _
  rw [get?_foldl_insert_of_reads hen]
  by_cases hk : k ∈ keysOf cx.config as
  · rw [if_pos (hke.2 hk), if_pos (.inr hk)]
  · rw [if_neg (mt hke.1 hk), ht k, afterAll_of_notMem hk]

variable {r : List (TransactionKey × AssignedVersions) × NextVersions}

section

variable (h : Processed cx rd table as r)
include h

theorem stored_of_processed : stored rd r.2 = afterAll cx (stored rd table) as := by
  funext k
  rw [stored, h.2 k]
  split
  next => rfl
  next hk =>
    rw [not_or] at hk
    rw [afterAll_of_notMem hk.2, stored, notMem_iff.1 hk.1]

/-- Batches are admissible when the whole list is. -/
theorem admissible_append :
    Admissible cx rd table (as ++ bs) ↔ Admissible cx rd table as ∧ Admissible cx rd r.2 bs := by
  have hn : ∀ k, r.2.get? k = none ↔ table.get? k = none ∧ k ∉ keysOf cx.config as := fun k => by
    rw [h.2 k, ← notMem_iff, ← not_or]
    split <;> simp_all
  have hs : StartVersionsAllowed cx.config rd table (keysOf cx.config (as ++ bs)) ↔
      StartVersionsAllowed cx.config rd table (keysOf cx.config as) ∧
        StartVersionsAllowed cx.config rd r.2 (keysOf cx.config bs) := by
    unfold StartVersionsAllowed
    rw [keysOf_append, forall_mem_append]
    refine and_congr_right fun has => forall_congr' fun k => forall_congr' fun _ => ?_
    constructor
    · exact fun hk hr => hk ((hn k).1 hr).1
    · intro hk ht
      by_cases hmem : k ∈ keysOf cx.config as
      · exact has k hmem ht
      · exact hk ((hn k).2 ⟨ht, hmem⟩)
  unfold Admissible
  rw [hs, allAssignable_append, stored_of_processed h]
  exact and_and_and_comm

end

theorem Admissible.of_append (h : Admissible cx rd table (as ++ bs)) :
    Admissible cx rd table as := by
  refine ⟨fun k hk => h.1 k ?_, (allAssignable_append.1 h.2).1⟩
  rw [keysOf_append]
  exact mem_append_left _ hk

theorem processed_nil : Processed cx rd table [] ([], table) := by
  refine ⟨rfl, fun k => ?_⟩
  change table.get? k = if k ∈ table ∨ k ∈ [] then some (stored rd table k) else none
  by_cases hk : k ∈ table
  · obtain ⟨v, hv⟩ := mem_iff.1 hk
    rw [if_pos (.inl hk), stored, hv, Option.getD_some]
  · rw [if_neg (by simp [hk]), notMem_iff.1 hk]

theorem Processed.append {r' : List (TransactionKey × AssignedVersions) × NextVersions}
    (h : Processed cx rd table as r)
    (h' : Processed cx rd r.2 bs r') :
    Processed cx rd table (as ++ bs) (r.1 ++ r'.1, r'.2) := by
  have hs := stored_of_processed h
  refine ⟨?_, ?_⟩
  · rw [h.1, h'.1, run_append, map_append, hs]
  · have hr := h'.2
    rw [hs, ← afterAll_append] at hr
    refine hr.congr fun k => ?_
    rw [mem_def, h.2 k, keysOf_append, mem_append, ← or_assoc]
    split <;> simp_all

variable (cx) in
/-- **Batches compute the pass over their concatenation.** -/
theorem processBatches_ends {batches : List (List Schedulable)} :
    Ends (processBatches cx.config rd cx.cancelledTxns table batches)
      (fun r => Processed cx rd table batches.flatten r ∧ Admissible cx rd table batches.flatten)
      (fun _ => ¬ Admissible cx rd table batches.flatten) := by
  induction batches generalizing table with
  | nil =>
    exact ⟨processed_nil, by simp [StartVersionsAllowed, keysOf], trivial⟩
  | cons batch batches ih =>
    refine ((processSharedObjectVersions_ends cx).imp_error fun _ hn h => hn h.of_append).bind
      fun first hf => ?_
    obtain ⟨hp, hadm⟩ := hf
    refine (ih.imp_error fun _ hn h => hn ((admissible_append hp).1 h).2).bind fun rest hr => ?_
    exact ⟨hp.append hr.1, (admissible_append hp).2 ⟨hadm, hr.2⟩⟩

end Table

/-! ## Room for the versions -/

variable (config) in
/-- What the callers of the assignment ensure: the objects that system transactions use exist, the
inputs were verified, no key refers to an object of a previous epoch, and no version comes near the
largest one. -/
structure Expected (rd : ObjectCacheRead) (table : NextVersions) (as : List Schedulable) :
    Prop where
  configured : ∀ a ∈ as, ∃ os, a.sharedInputObjects config = .ok os
  enabled : ∀ a ∈ as, a.isAccumulatorSettlement = true → config.accumulatorsEnabled = true
  verified : ∀ a ∈ as, ∃ ks, a.nonSharedInputObjectKeys = .ok ks
  start : ∀ k ∈ keysOf config as, table.get? k = none → startVersionAllowed config rd k = true
  own : ∀ a ∈ as, ∀ v ∈ ownVersions a, v + as.length < SequenceNumber.max
  shared : ∀ k ∈ keysOf config as, stored rd table k + as.length < SequenceNumber.max
  length : as.length < SequenceNumber.max

/-- The versions of the pass grow by at most one with each transaction. -/
theorem lamportVersion_le (hown : ∀ v ∈ ownVersions a, v ≤ b) (hvs : ∀ e ∈ vs, e.2 ≤ b) :
    lamportVersion a vs ≤ b + 1 := by
  refine Nat.succ_le_succ (foldl_max_le.2 ⟨Nat.zero_le b, fun v hv => ?_⟩)
  rcases mem_append.1 hv with hv | hv
  · exact hown v hv
  · obtain ⟨e, he, rfl⟩ := mem_map.1 hv
    exact hvs e he

theorem lamportVersion_assigned_le (hu : (cancellationInfo cx.cancelledTxns a).isNone = true)
    (hown : ∀ v ∈ ownVersions a, v ≤ b) (hf : ∀ k ∈ keysOf cx.config [a], f k ≤ b) :
    lamportVersion a (assigned cx f a) ≤ b + 1 := by
  refine lamportVersion_le hown fun e he => ?_
  rw [assigned_user hu] at he
  obtain ⟨o, ho, rfl⟩ := mem_map.1 he
  exact hf _ (mem_flatMap.2 ⟨a, mem_singleton_self a, mem_map_of_mem ho⟩)

theorem allAssignable_of_bounded (hb : b + as.length < max)
    (hc : ∀ a ∈ as, ∃ os, a.sharedInputObjects cx.config = .ok os)
    (he : ∀ a ∈ as, a.isAccumulatorSettlement = true → cx.config.accumulatorsEnabled = true)
    (hver : ∀ a ∈ as, ∃ ks, a.nonSharedInputObjectKeys = .ok ks)
    (hown : ∀ a ∈ as, ∀ v ∈ ownVersions a, v ≤ b) (hf : ∀ k ∈ keysOf cx.config as, f k ≤ b) :
    AllAssignable cx f as := by
  induction as generalizing f b with
  | nil => trivial
  | cons a as ih =>
    rw [forall_mem_cons] at hc he hver hown
    rw [keysOf_cons, forall_mem_append] at hf
    rw [length_cons] at hb
    refine ⟨⟨hc.1, ?_, fun _ => hver.1, fun _ => ?_⟩, ih (by omega) hc.2 he.2 hver.2
        (fun a ha v hv => (hown.2 a ha v hv).trans b.le_succ) fun k hk => ?_⟩
    · cases ha : a.isAccumulatorSettlement with
      | false => exact .inl rfl
      | true => exact .inr (he.1 ha)
    · have hle : assertedVersion cx f a ≤ b + 1 := by
        unfold assertedVersion
        split
        next => exact lamportVersion_le hown.1 (by simp)
        next hi => exact lamportVersion_assigned_le (by rw [hi]; rfl) hown.1 hf.1
      unfold isValid
      omega
    · by_cases hw : Writes cx a k
      · rw [after, if_pos hw]
        exact lamportVersion_assigned_le hw.1 hown.1 hf.1
      · rw [after, if_neg hw]
        exact (hf.2 k hk).trans b.le_succ

theorem Expected.admissible {rd : ObjectCacheRead} {table : NextVersions}
    (h : Expected cx.config rd table as) : Admissible cx rd table as := by
  have hle : ∀ {v : ℕ}, v + as.length < max → v ≤ max - 1 - as.length := fun hv => by omega
  have hl := h.length
  exact ⟨h.start, allAssignable_of_bounded (by omega)
    h.configured h.enabled h.verified (fun a ha v hv => hle (h.own a ha v hv))
    fun k hk => hle (h.shared k hk)⟩

/-! ## The assignment of a schedule -/

variable (cx) in
/-- **The versions of a schedule.** The transactions stand with what they were assigned. -/
structure VersionsOfSchedule (stored : ConsensusObjectSequenceKey → ℕ)
    (processed : List (Schedulable × AssignedVersions)) : Prop where
  user : ∀ before a vs rest, processed = before ++ (a, vs) :: rest →
    (cancellationInfo cx.cancelledTxns a).isNone = true → vs = (inputsOf cx.config a).map fun o =>
        (o.idAndVersion, versionAfter cx stored before o.idAndVersion)
  increasing : ∀ before a vs between b ws rest,
    processed = before ++ (a, vs) :: (between ++ (b, ws) :: rest) →
      ∀ k, Writes cx a k → Writes cx b k → ∀ v w, (k, v) ∈ vs → (k, w) ∈ ws → v < w
  cancelled : ∀ a vs, (a, vs) ∈ processed → (cancellationInfo cx.cancelledTxns a).isSome = true →
    vs.map Prod.fst = (inputsOf cx.config a).map (·.idAndVersion) ∧
      ∀ e ∈ vs, SequenceNumber.isCancelled e.2 = true

theorem isCancelled_cancelledVersion (reason : CancelConsensusCertificateReason) (id : ObjectID) :
    isCancelled (cancelledVersion reason id) = true := by
  unfold cancelledVersion
  split
  · split <;> decide
  · split <;> decide

theorem eq_of_mem_assigned (hu : (cancellationInfo cx.cancelledTxns a).isNone = true)
    (h : (k, v) ∈ assigned cx f a) : v = f k := by
  rw [assigned_user hu] at h
  obtain ⟨o, _, heq⟩ := mem_map.1 h
  cases heq
  rfl

theorem versionsOfSchedule_run : VersionsOfSchedule cx f (run cx f as) where
  user := by
    intro before a vs rest h hu
    obtain ⟨xs, ys, _, rfl, rfl, _⟩ := run_split h
    rw [assigned_user hu]
    exact map_congr_left fun o _ => by rw [afterAll_eq_versionAfter]
  increasing := by
    intro before a vs between b ws rest h k ha hb v w hv hw
    obtain ⟨xs, ys, _, _, rfl, hre⟩ := run_split h
    obtain ⟨xs', ys', _, _, rfl, _⟩ := run_split hre.symm
    rw [eq_of_mem_assigned ha.1 hv, eq_of_mem_assigned hb.1 hw, afterAll_append]
    exact (lt_after ha).trans_le le_afterAll
  cancelled := by
    intro a vs h hc
    obtain ⟨before, rest, h⟩ := append_of_mem h
    obtain ⟨xs, ys, _, _, rfl, _⟩ := run_split h
    refine ⟨map_fst_assigned, fun e he => ?_⟩
    obtain ⟨reason, hr⟩ := Option.isSome_iff_exists.1 hc
    simp only [assigned, hr] at he
    obtain ⟨o, _, rfl⟩ := mem_map.1 he
    exact isCancelled_cancelledVersion reason o.id

/-- A cancelled transaction leaves the table of next versions alone. -/
theorem next_of_cancelled {cancelledTxns : CancelledTxns} {next : NextVersions}
    {r : AssignedVersions × NextVersions} (h : (cancellationInfo cancelledTxns a).isSome = true)
    (hrun : assignVersionsForCertificate config cancelledTxns a next = .ok r) : r.2 = next := by
  obtain ⟨reason, hr⟩ := Option.isSome_iff_exists.1 h
  obtain ⟨os, _, hrun⟩ := bind_ok.1 hrun
  split at hrun
  · cases hrun
    rfl
  · obtain ⟨ks, _, hrun⟩ := bind_ok.1 hrun
    simp only [hr] at hrun
    obtain ⟨v, _, hrun⟩ := bind_ok.1 hrun
    obtain ⟨_, _, hrun⟩ := bind_ok.1 hrun
    cases hrun
    rfl

/-- **Version assignment.** Whatever the schedule, the cancellations and the table: where the
assignment returns, its versions are those of the schedule, and the next versions are those after
the whole schedule; a cancelled transaction changes no next version; the assignment returns when
the callers' promises are kept; and batches that hand on the table are the same as one list. -/
theorem versions_of_schedule (config : EpochConfig) (reader : ObjectCacheRead)
    (table : NextVersions) (assignables : List Schedulable) (cancelledTxns : CancelledTxns) :
    (∀ r, assignVersionsFromConsensus config reader table assignables cancelledTxns = .ok r →
      r.assignedVersions.map Prod.fst = assignables.map (·.key) ∧
      VersionsOfSchedule ⟨config, cancelledTxns⟩ (stored reader table)
        (assignables.zip (r.assignedVersions.map Prod.snd)) ∧
      ∀ k ∈ keysOf config assignables, r.sharedInputNextVersions.get? k =
        some (versionAfter ⟨config, cancelledTxns⟩ (stored reader table)
          (assignables.zip (r.assignedVersions.map Prod.snd)) k)) ∧
    (∀ a next r, (cancellationInfo cancelledTxns a).isSome = true →
      assignVersionsForCertificate config cancelledTxns a next = .ok r → r.2 = next) ∧
    (Expected config reader table assignables →
      ∃ r, assignVersionsFromConsensus config reader table assignables cancelledTxns = .ok r) ∧
    ∀ batches : List (List Schedulable), batches.flatten = assignables →
      (processBatches config reader cancelledTxns table batches).toOption =
        (processSharedObjectVersions config reader cancelledTxns table assignables).toOption := by
  have hs : Ends (assignVersionsFromConsensus config reader table assignables cancelledTxns)
    _ _ := assignVersionsFromConsensus_spec ⟨config, cancelledTxns⟩
  refine ⟨fun r hr => ?_, fun a next r => next_of_cancelled, fun h => ?_, ?_⟩
  · obtain ⟨⟨hout, hne, _⟩, _⟩ := hs.of_ok hr
    have hzip : assignables.zip (r.assignedVersions.map Prod.snd) =
        run ⟨config, cancelledTxns⟩ (stored reader table) assignables := by
      rw [hout, map_map]
      exact zip_run
    have hfst : (run ⟨config, cancelledTxns⟩ (stored reader table) assignables).map Prod.fst =
        assignables := map_fst_run
    refine ⟨?_, ?_, fun k hk => ?_⟩
    · conv_rhs => rw [← hfst, map_map]
      rw [hout, map_map]
      rfl
    · rw [hzip]
      exact versionsOfSchedule_run
    · rw [hne k, if_pos hk, hzip, afterAll_eq_versionAfter]
  · exact hs.exists_ok fun _ hn => hn h.admissible
  · rintro batches rfl
    refine (processBatches_ends ⟨config, cancelledTxns⟩).toOption_eq
      (processSharedObjectVersions_ends ⟨config, cancelledTxns⟩) fun r r' hr hr' => ?_
    exact Prod.ext (hr.1.trans hr'.1.symm) (ext_get? fun k => (hr.2 k).trans (hr'.2 k).symm)

/-- A writer of two objects, a cancelled reader, and a later writer of one of them. -/
def sampleSchedule : List Schedulable :=
  [.transaction ⟨1, .programmableTransaction, [⟨7, 1, true⟩, ⟨9, 2, true⟩],
     some [.immOrOwnedMoveObject ⟨3, 40⟩], [], []⟩,
   .transaction ⟨2, .programmableTransaction, [⟨7, 1, false⟩],
     some [.immOrOwnedMoveObject ⟨4, 5⟩], [], []⟩,
   .randomnessStateUpdate 0 3,
   .transaction ⟨5, .programmableTransaction, [⟨9, 2, true⟩], some [.movePackage 2], [⟨6, 50⟩], []⟩]

def sampleConfig : EpochConfig := ⟨some 1, none, false, true⟩

def sampleReader : ObjectCacheRead := fun id => if id = 7 then some ⟨some 1, 12⟩ else none

/-- The callers' promises can be kept, and then the schedule gets its versions. -/
theorem versions_of_sampleSchedule : Expected sampleConfig sampleReader .empty sampleSchedule ∧
      ∃ r, assignVersionsFromConsensus sampleConfig sampleReader .empty sampleSchedule
        (OrdMap.empty.insert 2 .dkgFailed) = .ok r := by
  have hexp : Expected sampleConfig sampleReader .empty sampleSchedule :=
    { configured := by
        simp [sampleSchedule, sampleConfig, Schedulable.sharedInputObjects, require]
      enabled := by decide
      verified := by
        simp [sampleSchedule, Schedulable.nonSharedInputObjectKeys, require]
      start := by decide
      own := by decide
      shared := by decide
      length := by decide }
  exact ⟨hexp, (versions_of_schedule _ _ _ _ _).2.2.1 hexp⟩

end OneChain.Authority
